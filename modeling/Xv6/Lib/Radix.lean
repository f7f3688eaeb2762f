import Mathlib.Algebra.Order.Group.Nat
import Mathlib.Tactic.Common

/-!
# Radix trees in a store of nodes

Nodes of a type `N` have slots with contents of a type `C`, `m t i` for the slot `i` of the node `t`.
In the nodes above the leaves a slot may hold a pointer to another node; `down` decodes it. A key is a
number, and its digits in base `B` say which slots are followed from the root, the most significant
digit first: `node m r d p` is the node that the `d` digits of `p` lead to, if there is one. The slot
for the key `v` is in a node of depth `D`, and its index is the last digit (`get`).

A store holds a tree when no node is reached along two paths (`Shape`). Then the tree is a map from
keys: a store into a slot of a node of depth `D` changes the contents for one key (`Shape.node_leaf`,
`Shape.get_leaf`), and a new node without pointers, linked into an empty slot, changes no other node
(`Shape.node_grow`).
-/

/-- How pointers are represented: `B` slots in a node, and `down` of its contents is the node that a
slot points to. -/
structure RadixScheme (N C : Type*) where
  B : ℕ
  pos : 0 < B
  down : C → Option N

open Nat Option

namespace RadixScheme

variable {N C : Type*} (S : RadixScheme N C)

/-- The node that the `d` digits of `p` lead to. -/
def node (m : N → ℕ → C) (r : N) : ℕ → ℕ → Option N
  | 0, _ => some r
  | d + 1, p => (node m r d (p / S.B)).bind fun t => S.down (m t (p % S.B))

/-- The contents of the slot for the key `v`, in a tree whose leaves have depth `D`. -/
def get (D : ℕ) (m : N → ℕ → C) (r : N) (v : ℕ) : Option C :=
  (S.node m r D (v / S.B)).map fun t => m t (v % S.B)

/-- `t` is a node of the tree. -/
def Has (D : ℕ) (m : N → ℕ → C) (r t : N) : Prop :=
  ∃ d ≤ D, ∃ p < S.B ^ d, S.node m r d p = some t

/-- **No node is reached along two paths.** -/
def Shape (D : ℕ) (m : N → ℕ → C) (r : N) : Prop :=
  ∀ d ≤ D, ∀ p < S.B ^ d, ∀ d' ≤ D, ∀ p' < S.B ^ d', ∀ t, S.node m r d p = some t →
    S.node m r d' p' = some t → d = d' ∧ p = p'

variable {S} {m m' : N → ℕ → C} {r t u : N} {D d e p q i v : ℕ}

theorem node_succ (d p : ℕ) :
    S.node m r (d + 1) p = (S.node m r d (p / S.B)).bind fun t => S.down (m t (p % S.B)) := rfl

theorem mod_lt (v : ℕ) : v % S.B < S.B := Nat.mod_lt v S.pos

theorem div_lt (hp : p < S.B ^ (d + 1)) : p / S.B < S.B ^ d := by
  rw [div_lt_iff_lt_mul S.pos, ← pow_succ]
  exact hp

theorem join_lt (hp : p < S.B ^ d) (hi : i < S.B) : p * S.B + i < S.B ^ (d + 1) := by
  calc p * S.B + i < p * S.B + S.B := Nat.add_lt_add_left hi _
    _ = (p + 1) * S.B := (Nat.succ_mul p S.B).symm
    _ ≤ S.B ^ d * S.B := Nat.mul_le_mul_right _ hp
    _ = S.B ^ (d + 1) := (Nat.pow_succ ..).symm

theorem join_div (hi : i < S.B) : (p * S.B + i) / S.B = p := by
  rw [mul_comm, mul_add_div S.pos, div_eq_of_lt hi, add_zero]

theorem join_mod (hi : i < S.B) : (p * S.B + i) % S.B = i := by
  rw [mul_add_mod_self_right, mod_eq_of_lt hi]

theorem eq_join (q : ℕ) : q / S.B * S.B + q % S.B = q := div_add_mod' q S.B

theorem join_inj (hi : i < S.B) : q = p * S.B + i ↔ q / S.B = p ∧ q % S.B = i := by
  constructor
  · rintro rfl
    exact ⟨join_div hi, join_mod hi⟩
  · rintro ⟨rfl, rfl⟩
    exact (eq_join q).symm

theorem node_join (hi : i < S.B) :
    S.node m r (d + 1) (p * S.B + i) = (S.node m r d p).bind fun t => S.down (m t i) := by
  rw [node_succ, join_div hi, join_mod hi]

theorem node_eq_none {j : ℕ} (h : S.node m r d (q / S.B ^ j) = none) : S.node m r (d + j) q = none := by
  induction j generalizing q with
  | zero => simpa using h
  | succ j ih =>
    have hdiv : q / S.B / S.B ^ j = q / S.B ^ (j + 1) := by
      rw [Nat.div_div_eq_div_mul, ← Nat.pow_succ']
    rw [← Nat.add_assoc, node_succ, ih (hdiv ▸ h)]
    rfl

theorem Has.root (D : ℕ) (m : N → ℕ → C) (r : N) : S.Has D m r r :=
  ⟨0, zero_le D, 0, one_pos, rfl⟩

theorem Has.of_node (hd : d ≤ D) (hp : p < S.B ^ d) (ht : S.node m r d p = some t) :
    S.Has D m r t := ⟨d, hd, p, hp, ht⟩

/-! ## Stores that agree -/

/-- The nodes of depth `e` depend on the pointers above them. -/
theorem node_congr (h : ∀ d < e, ∀ p < S.B ^ d, ∀ t, S.node m r d p = some t → ∀ i < S.B,
    S.down (m' t i) = S.down (m t i)) (hp : p < S.B ^ e) : S.node m' r e p = S.node m r e p := by
  induction e generalizing p with
  | zero => rfl
  | succ e ih =>
    have hdiv := div_lt hp
    rw [node_succ, node_succ, ih (fun d hd => h d (lt_succ_of_lt hd)) hdiv]
    cases ht : S.node m r e (p / S.B) with
    | none => rfl
    | some t => exact h e (lt_succ_self e) _ hdiv t ht _ (mod_lt p)

section Frame

variable (hsame : ∀ t, S.Has D m r t → ∀ i < S.B, m' t i = m t i)

include hsame

/-- A store that agrees in the nodes of the tree holds the same tree. -/
theorem node_frame (hd : d ≤ D) (hp : p < S.B ^ d) : S.node m' r d p = S.node m r d p := by
  refine node_congr (fun e he q hq t ht i hi => ?_) hp
  rw [hsame t (.of_node (le_trans he.le hd) hq ht) i hi]

theorem has_frame : S.Has D m' r t ↔ S.Has D m r t := by
  constructor
  · rintro ⟨d, hd, p, hp, ht⟩
    exact ⟨d, hd, p, hp, (node_frame hsame hd hp).symm.trans ht⟩
  · rintro ⟨d, hd, p, hp, ht⟩
    exact ⟨d, hd, p, hp, (node_frame hsame hd hp).trans ht⟩

theorem Shape.frame (h : S.Shape D m r) : S.Shape D m' r := by
  intro d hd p hp d' hd' p' hp' t ht ht'
  rw [node_frame hsame hd hp] at ht
  rw [node_frame hsame hd' hp'] at ht'
  exact h d hd p hp d' hd' p' hp' t ht ht'

theorem get_frame (hv : v < S.B ^ (D + 1)) : S.get D m' r v = S.get D m r v := by
  have hdiv := div_lt hv
  unfold get
  rw [node_frame hsame le_rfl hdiv]
  cases ht : S.node m r D (v / S.B) with
  | none => rfl
  | some t => exact congrArg some (hsame t (.of_node le_rfl hdiv ht) _ (mod_lt v))

end Frame

/-! ## A store into a leaf -/

section Leaf

variable (h : S.Shape D m r) (hq : q < S.B ^ D) (ht : S.node m r D q = some t)
  (hsame : ∀ u, S.Has D m r u → ∀ j < S.B, (u = t → j ≠ i) → m' u j = m u j)

include h hq ht hsame

/-- **The nodes stay** when a slot of a node of depth `D` changes. -/
theorem Shape.node_leaf (hd : d ≤ D) (hp : p < S.B ^ d) : S.node m' r d p = S.node m r d p := by
  refine node_congr (fun e he p hp u hu j hj => ?_) hp
  rw [hsame u (.of_node (le_trans he.le hd) hp hu) j hj]
  -- only nodes above the leaves are followed
  rintro rfl
  have := (h e (le_trans he.le hd) p hp D le_rfl q hq u hu ht).1
  omega

theorem Shape.has_leaf : S.Has D m' r u ↔ S.Has D m r u := by
  constructor
  · rintro ⟨d, hd, p, hp, hu⟩
    exact ⟨d, hd, p, hp, (h.node_leaf hq ht hsame hd hp).symm.trans hu⟩
  · rintro ⟨d, hd, p, hp, hu⟩
    exact ⟨d, hd, p, hp, (h.node_leaf hq ht hsame hd hp).trans hu⟩

theorem Shape.leaf : S.Shape D m' r := by
  intro d hd p hp d' hd' p' hp' u hu hu'
  rw [h.node_leaf hq ht hsame hd hp] at hu
  rw [h.node_leaf hq ht hsame hd' hp'] at hu'
  exact h d hd p hp d' hd' p' hp' u hu hu'

/-- **The contents change for one key.** -/
theorem Shape.get_leaf (hi : i < S.B) (hv : v < S.B ^ (D + 1)) :
    S.get D m' r v = if v = q * S.B + i then some (m' t i) else S.get D m r v := by
  have hdiv := div_lt hv
  unfold get
  rw [h.node_leaf hq ht hsame le_rfl hdiv]
  split_ifs with hvq
  · obtain ⟨rfl, rfl⟩ := (join_inj hi).1 hvq
    rw [ht]
    rfl
  · cases hu : S.node m r D (v / S.B) with
    | none => rfl
    | some u =>
      refine congrArg some (hsame u (.of_node le_rfl hdiv hu) _ (mod_lt v) ?_)
      rintro rfl hj
      have := (h D le_rfl _ hdiv D le_rfl q hq u hu ht).2
      exact hvq ((join_inj hi).2 ⟨this, hj⟩)

end Leaf

/-! ## A new node -/

section Grow

variable {t' : N} (h : S.Shape D m r) (hd : d < D) (hp : p < S.B ^ d)
  (ht : S.node m r d p = some t) (hi : i < S.B) (hnone : S.down (m t i) = none)
  (hsame : ∀ u, S.Has D m r u → ∀ j < S.B, (u = t → j ≠ i) → m' u j = m u j)
  (hnew : S.down (m' t i) = some t') (hempty : ∀ j < S.B, S.down (m' t' j) = none)

include h hd hp ht hi hnone hsame hnew hempty

/-- **The new node is reached along its path**, and the other nodes stay. -/
theorem Shape.node_grow (he : e ≤ D) (hq : q < S.B ^ e) :
    S.node m' r e q = if e = d + 1 ∧ q = p * S.B + i then some t' else S.node m r e q := by
  induction e generalizing q with
  | zero =>
    rw [if_neg (by omega)]
    rfl
  | succ e ih =>
    have hdiv := div_lt hq
    rw [node_succ, ih (by omega) hdiv]
    by_cases hbelow : e = d + 1 ∧ q / S.B = p * S.B + i
    · -- nothing is below the new node, as nothing was below the empty slot
      rw [if_pos hbelow, bind_some, hempty _ (mod_lt q), if_neg (by omega), node_succ,
        hbelow.2, hbelow.1, node_join hi, ht, bind_some, hnone]
      rfl
    · rw [if_neg hbelow, node_succ]
      cases hu : S.node m r e (q / S.B) with
      | none =>
        rw [if_neg]
        · rfl
        · rintro ⟨he', hq'⟩
          obtain ⟨rfl, -⟩ := (join_inj hi).1 hq'
          obtain rfl : e = d := by omega
          rw [ht] at hu
          contradiction
      | some u =>
        rw [bind_some, bind_some]
        by_cases hslot : u = t ∧ q % S.B = i
        · obtain ⟨rfl, hqi⟩ := hslot
          obtain ⟨rfl, hqp⟩ := h e (by omega) _ hdiv d hd.le p hp u hu ht
          rw [if_pos ⟨rfl, (join_inj hi).2 ⟨hqp, hqi⟩⟩, hqi, hnew]
        · rw [if_neg, hsame u (.of_node (by omega) hdiv hu) _ (mod_lt q) fun hut hqi => hslot ⟨hut, hqi⟩]
          rintro ⟨he', hq'⟩
          obtain ⟨rfl, hqi⟩ := (join_inj hi).1 hq'
          obtain rfl : e = d := by omega
          rw [ht] at hu
          exact hslot ⟨(some.inj hu).symm, hqi⟩

theorem Shape.has_grow : S.Has D m' r u ↔ S.Has D m r u ∨ u = t' := by
  have hgrow := fun {e q} => h.node_grow hd hp ht hi hnone hsame hnew hempty (e := e) (q := q)
  constructor
  · rintro ⟨e, he, q, hq, hu⟩
    rw [hgrow he hq] at hu
    split_ifs at hu with hslot
    · exact .inr (some.inj hu).symm
    · exact .inl ⟨e, he, q, hq, hu⟩
  · rintro (⟨e, he, q, hq, hu⟩ | rfl)
    · refine ⟨e, he, q, hq, ?_⟩
      rw [hgrow he hq, if_neg]
      · exact hu
      · rintro ⟨rfl, rfl⟩
        rw [node_join hi, ht, bind_some, hnone] at hu
        contradiction
    · refine ⟨d + 1, hd, p * S.B + i, join_lt hp hi, ?_⟩
      rw [hgrow hd (join_lt hp hi), if_pos ⟨rfl, rfl⟩]

theorem Shape.grow (hfresh : ¬ S.Has D m r t') : S.Shape D m' r := by
  have hgrow := fun {e q} => h.node_grow hd hp ht hi hnone hsame hnew hempty (e := e) (q := q)
  intro e he q hq e' he' q' hq' u hu hu'
  rw [hgrow he hq] at hu
  rw [hgrow he' hq'] at hu'
  split_ifs at hu hu' with h1 h2 h2
  · exact ⟨h1.1.trans h2.1.symm, h1.2.trans h2.2.symm⟩
  · cases hu
    exact absurd ⟨e', he', q', hq', hu'⟩ hfresh
  · cases hu'
    exact absurd ⟨e, he, q, hq, hu⟩ hfresh
  · exact h e he q hq e' he' q' hq' u hu hu'

/-- The contents of the slots stay, except that the new node has some if it is a leaf. -/
theorem Shape.get_grow (hv : v < S.B ^ (D + 1)) :
    S.get D m' r v = if D = d + 1 ∧ v / S.B = p * S.B + i then some (m' t' (v % S.B))
      else S.get D m r v := by
  have hdiv := div_lt hv
  unfold get
  rw [h.node_grow hd hp ht hi hnone hsame hnew hempty le_rfl hdiv]
  split_ifs with hslot
  · rfl
  · cases hu : S.node m r D (v / S.B) with
    | none => rfl
    | some u =>
      refine congrArg some (hsame u (.of_node le_rfl hdiv hu) _ (mod_lt v) ?_)
      rintro rfl
      have := (h D le_rfl _ hdiv d hd.le p hp u hu ht).1
      omega

end Grow

end RadixScheme
