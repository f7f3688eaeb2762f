import Mathlib.Data.Finset.Option
import Xv6.Lib.Pointers

/-!
# Trees of directories with link counts

Nodes of a type `ι` have places that point to nodes: `ptr (d, k)` is what place `k` of node `d`
points to. One place, `u`, is the pointer to the parent, and exactly the directories have one. The
others are names.

**The tree.** `LinkTree r u ptr` says that the parent pointers and the names agree: a directory
other than the root `r` is named in its parent, there once, and nowhere else. Nodes that are no
directories can be named any number of times. There are four moves, `addFile`, `removeFile`,
`addDir` and `removeDir`; each is about the pointers to one node (`of_change`).

**Link counts.** `HasLinks ptr n` says that `n i` is the number of places that point to `i`, parent
pointers included. A directory that is removed has one link left (`LinkTree.eq_of_empty`).
-/

open Finset Function Option

variable {ι κ : Type*}

/-! ## The tree -/

/-- The parents and the names of directories agree. -/
structure LinkTree (r : ι) (u : κ) (ptr : ι × κ → Option ι) : Prop where
  root : ptr (r, u) = some r
  closed : ∀ d k, ptr (d, k) ≠ none → ptr (d, u) ≠ none
  named : ∀ i d, ptr (i, u) = some d → i ≠ r → ∃ k, k ≠ u ∧ ptr (d, k) = some i
  up : ∀ d k i e, k ≠ u → ptr (d, k) = some i → ptr (i, u) = some e → i ≠ r ∧ e = d
  once : ∀ d k k' i, k ≠ u → k' ≠ u → ptr (d, k) = some i → ptr (d, k') = some i →
    ptr (i, u) ≠ none → k = k'

namespace LinkTree

variable {r : ι} {u : κ} {ptr ptr' : ι × κ → Option ι} {d i : ι} {k : κ} {y : ι × κ}

section

variable (h : LinkTree r u ptr)

include h

theorem ne_root (hi : ptr (i, u) = none) : i ≠ r := by
  rintro rfl
  rw [h.root] at hi
  contradiction

/-- **A directory without names in it is pointed to once.** -/
theorem eq_of_empty (hk : k ≠ u) (hx : ptr (d, k) = some i) (hi : ptr (i, u) ≠ none)
    (hempty : ∀ k, k ≠ u → ptr (i, k) = none) (hy : ptr y = some i) : y = (d, k) := by
  obtain ⟨e, he⟩ := ne_none_iff_exists'.mp hi
  obtain ⟨hroot, rfl⟩ := h.up d k i e hk hx he
  obtain ⟨d', k'⟩ := y
  by_cases hk' : k' = u
  · -- a child would be named in `i`
    subst hk'
    by_cases hd' : d' = r
    · rw [hd', h.root] at hy
      exact absurd (some.inj hy).symm hroot
    · obtain ⟨k'', hne, hn⟩ := h.named d' i hy hd'
      rw [hempty k'' hne] at hn
      contradiction
  · obtain ⟨-, rfl⟩ := h.up d' k' i e hk' hy he
    rw [h.once e k' k i hk' hk hy hx hi]

/-- A pointer to a directory that is not the parent pointer of another: that of the root to itself,
or the name in the parent. -/
theorem root_or_name (he : ptr (i, u) = some d) (hy : ptr y = some i) (hn : ¬ (y.2 = u ∧ y.1 ≠ r)) :
    i = r ∧ y = (r, u) ∨ i ≠ r ∧ y.2 ≠ u ∧ y.1 = d := by
  obtain ⟨c, k⟩ := y
  by_cases hk : k = u
  · obtain rfl : c = r := not_not.mp fun hr => hn ⟨hk, hr⟩
    subst hk
    rw [h.root] at hy
    exact .inl ⟨(some.inj hy).symm, rfl⟩
  · obtain ⟨hr, rfl⟩ := h.up c k i d hk hy he
    exact .inr ⟨hr, hk, rfl⟩

/-- **A directory is pointed to once, and once from each directory that is named in it.** So there
are at most as many pointers to it as names in it, and one. -/
theorem npointers_le [DecidableEq ι] {U : Finset (ι × κ)} {K : Finset κ} (hi : ptr (i, u) ≠ none)
    (hK : ∀ k, ptr (i, k) ≠ none → k ∈ K) : npointers U ptr i ≤ K.card + 1 := by
  classical
  have : Nonempty κ := ⟨u⟩
  obtain ⟨d, hd⟩ := ne_none_iff_exists'.mp hi
  choose! name hname using fun c hc => h.named c i hc
  -- a parent pointer goes to the name of the child, the other pointer to `none`
  let place : ι × κ → Option κ := fun y => if y.2 = u ∧ y.1 ≠ r then some (name y.1) else none
  have hplace : ∀ y, ptr y = some i → ∀ k, place y = some k → y.2 = u ∧ ptr (i, k) = some y.1 := by
    rintro ⟨c, k⟩ hc k' hk'
    obtain ⟨⟨rfl, hr⟩, hname'⟩ := ite_none_right_eq_some.mp hk'
    exact ⟨rfl, some.inj hname' ▸ (hname c hc hr).2⟩
  rw [← card_insertNone]
  refine card_le_card_of_injOn place (fun y hy => ?_) fun y hy z hz hyz => ?_
  · have hy := (mem_filter.mp hy).2
    refine mem_coe.mpr (mem_insertNone.mpr fun k hk => hK k ?_)
    rw [(hplace y hy k hk).2]
    exact some_ne_none _
  · have hy := (mem_filter.mp hy).2
    have hz := (mem_filter.mp hz).2
    cases hk : place y with
    | some k =>
      obtain ⟨hyu, hyn⟩ := hplace y hy k hk
      obtain ⟨hzu, hzn⟩ := hplace z hz k (hyz ▸ hk)
      exact Prod.ext (some.inj (hyn.symm.trans hzn)) (hyu.trans hzu.symm)
    | none =>
      have hny : ¬ (y.2 = u ∧ y.1 ≠ r) := fun hn => by simp [place, hn] at hk
      have hnz : ¬ (z.2 = u ∧ z.1 ≠ r) := fun hn => by
        rw [hyz] at hk
        simp [place, hn] at hk
      rcases h.root_or_name hd hy hny with ⟨hir, hy'⟩ | ⟨hir, hyu, hyd⟩
      · rcases h.root_or_name hd hz hnz with ⟨-, hz'⟩ | ⟨hne, -⟩
        · rw [hy', hz']
        · exact absurd hir hne
      · rcases h.root_or_name hd hz hnz with ⟨hr, -⟩ | ⟨-, hzu, hzd⟩
        · exact absurd hr hir
        · refine Prod.ext (hyd.trans hzd.symm) (h.once d y.2 z.2 i hyu hzu ?_ ?_ hi)
          · rw [← hyd]
            exact hy
          · rw [← hzd]
            exact hz

/-- The parent of a directory is pointed to from somewhere else, too. -/
theorem exists_ne_up (hi : ptr (i, u) = some d) (hr : i ≠ r) :
    ∃ y, y ≠ (i, u) ∧ ptr y = some d := by
  by_cases hd : d = r
  · exact ⟨(r, u), fun he => hr (congrArg Prod.fst he).symm, hd ▸ h.root⟩
  · obtain ⟨k, -, hk⟩ := h.named i d hi hr
    obtain ⟨e, he⟩ := ne_none_iff_exists'.mp (h.closed d k (by rw [hk]; exact some_ne_none i))
    obtain ⟨k', hk', hn⟩ := h.named d e he hd
    exact ⟨(e, k'), fun heq => hk' (congrArg Prod.snd heq), hn⟩

/-- **A change that concerns the node `i`.** The names and parents of other nodes stay, and `i` is named once
if it is a directory. -/
theorem of_change (hr : i ≠ r) (hup : ∀ e, e ≠ i → ptr' (e, u) = ptr (e, u))
    (hname : ∀ e k j, k ≠ u → j ≠ i → (ptr' (e, k) = some j ↔ ptr (e, k) = some j))
    (hclosed : ∀ e k, ptr' (e, k) ≠ none → ptr' (e, u) ≠ none) (hi : ∀ d, ptr' (i, u) = some d →
      ∃ k, k ≠ u ∧ ∀ e k', k' ≠ u → (ptr' (e, k') = some i ↔ e = d ∧ k' = k)) :
    LinkTree r u ptr' := by
  constructor
  · rw [hup r hr.symm]
    exact h.root
  · exact hclosed
  · intro j d hd hj
    by_cases hji : j = i
    · subst hji
      obtain ⟨k, hk, hn⟩ := hi d hd
      exact ⟨k, hk, (hn d k hk).mpr ⟨rfl, rfl⟩⟩
    · rw [hup j hji] at hd
      obtain ⟨k, hk, hn⟩ := h.named j d hd hj
      exact ⟨k, hk, (hname d k j hk hji).mpr hn⟩
  · intro d k j e hk hn he
    by_cases hji : j = i
    · subst hji
      obtain ⟨k', hk', hn'⟩ := hi e he
      exact ⟨hr, ((hn' d k hk).mp hn).1.symm⟩
    · rw [hup j hji] at he
      exact h.up d k j e hk ((hname d k j hk hji).mp hn) he
  · intro d k k' j hk hk' hn hn' hj
    by_cases hji : j = i
    · subst hji
      obtain ⟨e, he⟩ := ne_none_iff_exists'.mp hj
      obtain ⟨k0, -, hk0⟩ := hi e he
      rw [((hk0 d k hk).mp hn).2, ((hk0 d k' hk').mp hn').2]
    · rw [hup j hji] at hj
      exact h.once d k k' j hk hk' ((hname d k j hk hji).mp hn) ((hname d k' j hk' hji).mp hn') hj

end

variable [DecidableEq ι] [DecidableEq κ]

/-- A name of `i` where there was none, or `i`, is no name of another node. -/
theorem update_iff {o o' : Option ι} {x : ι × κ} {j : ι} (hx : ptr x = o) (ho : o ≠ some j)
    (ho' : o' ≠ some j) (y : ι × κ) : update ptr x o' y = some j ↔ ptr y = some j := by
  by_cases hy : y = x
  · rw [hy, update_self, hx]
    exact ⟨fun he => absurd he ho', fun he => absurd he ho⟩
  · rw [update_of_ne hy]

theorem update_up {o : Option ι} (hk : k ≠ u) (e : ι) : update ptr (d, k) o (e, u) = ptr (e, u) :=
  update_of_ne (fun he => hk (congrArg Prod.snd he).symm) ..

variable (h : LinkTree r u ptr) (hk : k ≠ u)

include h hk

theorem addFile (hx : ptr (d, k) = none) (hd : ptr (d, u) ≠ none) (hi : ptr (i, u) = none) :
    LinkTree r u (update ptr (d, k) (some i)) := by
  refine h.of_change (h.ne_root hi) (fun e _ => update_up hk e) (fun e k' j _ hj => ?_)
    (fun e k' he => ?_) fun e he => ?_
  · exact update_iff hx (some_ne_none j).symm (fun he => hj (some.inj he).symm) _
  · rw [update_up hk]
    by_cases hy : (e, k') = (d, k)
    · rw [(Prod.mk.inj hy).1]
      exact hd
    · rw [update_of_ne hy] at he
      exact h.closed e k' he
  · rw [update_up hk, hi] at he
    contradiction

theorem removeFile (hx : ptr (d, k) = some i) (hi : ptr (i, u) = none) :
    LinkTree r u (update ptr (d, k) none) := by
  refine h.of_change (h.ne_root hi) (fun e _ => update_up hk e) (fun e k' j _ hj => ?_)
    (fun e k' he => ?_) fun e he => ?_
  · exact update_iff hx (fun he => hj (some.inj he).symm) (some_ne_none j).symm _
  · rw [update_up hk]
    refine h.closed e k' fun hn => he ?_
    rw [update_apply, hn, ite_self]
  · rw [update_up hk, hi] at he
    contradiction

theorem addDir (hx : ptr (d, k) = none) (hd : ptr (d, u) ≠ none) (hi : ptr (i, u) = none)
    (hnew : ∀ y, ptr y ≠ some i) :
    LinkTree r u (update (update ptr (d, k) (some i)) (i, u) (some d)) := by
  have hdi : d ≠ i := by
    rintro rfl
    exact hd hi
  refine h.of_change (h.ne_root hi) (fun e he => ?_) (fun e k' j hk' hj => ?_) (fun e k' he => ?_)
    fun e he => ⟨k, hk, fun e' k' hk' => ?_⟩
  · rw [update_of_ne (fun heq => he (congrArg Prod.fst heq)), update_up hk]
  · rw [update_of_ne (fun heq => hk' (congrArg Prod.snd heq))]
    exact update_iff hx (some_ne_none j).symm (fun he => hj (some.inj he).symm) _
  · by_cases hei : e = i
    · rw [hei, update_self]
      exact some_ne_none d
    · rw [update_of_ne (fun heq => hei (congrArg Prod.fst heq))] at he ⊢
      rw [update_up hk]
      by_cases hy : (e, k') = (d, k)
      · rw [(Prod.mk.inj hy).1]
        exact hd
      · rw [update_of_ne hy] at he
        exact h.closed e k' he
  · rw [update_self] at he
    cases he
    rw [update_of_ne (fun heq => hk' (congrArg Prod.snd heq))]
    by_cases hy : (e', k') = (d, k)
    · obtain ⟨rfl, rfl⟩ := Prod.mk.inj hy
      simp
    · rw [update_of_ne hy]
      exact ⟨fun hn => absurd hn (hnew _), fun hh => absurd (Prod.ext hh.1 hh.2) hy⟩

theorem removeDir (hx : ptr (d, k) = some i) (hi : ptr (i, u) ≠ none)
    (hempty : ∀ k, k ≠ u → ptr (i, k) = none) :
    LinkTree r u (update (update ptr (d, k) none) (i, u) none) := by
  obtain ⟨e, he⟩ := ne_none_iff_exists'.mp hi
  refine h.of_change (h.up d k i e hk hx he).1 (fun e he => ?_) (fun e k' j hk' hj => ?_)
    (fun e k' he => ?_) fun e he => ?_
  · rw [update_of_ne (fun heq => he (congrArg Prod.fst heq)), update_up hk]
  · rw [update_of_ne (fun heq => hk' (congrArg Prod.snd heq))]
    exact update_iff hx (fun he => hj (some.inj he).symm) (some_ne_none j).symm _
  · by_cases hei : e = i
    · subst hei
      refine absurd ?_ he
      by_cases hk' : k' = u
      · rw [hk', update_self]
      · rw [update_of_ne (fun heq => hk' (congrArg Prod.snd heq)), update_apply,
          hempty k' hk', ite_self]
    · rw [update_of_ne (fun heq => hei (congrArg Prod.fst heq))] at he ⊢
      rw [update_up hk]
      refine h.closed e k' fun hn => he ?_
      rw [update_apply, hn, ite_self]
  · rw [update_self] at he
    contradiction

end LinkTree

/-! ## Link counts -/

section

variable {κ : Type*} [DecidableEq ι] {ptr ptr' : κ → Option ι} {n : ι → ℤ} {x y : κ} {i : ι}

/-- `n i` is the number of places that point to `i`; finitely many point to anything. -/
def HasLinks (ptr : κ → Option ι) (n : ι → ℤ) : Prop :=
  ∃ W : Finset κ, (∀ x, ptr x ≠ none → x ∈ W) ∧ ∀ i, n i = npointers W ptr i

namespace HasLinks

theorem eq_npointers (h : HasLinks ptr n) {W : Finset κ} (hW : ∀ x, ptr x ≠ none → x ∈ W) (i : ι) :
    n i = npointers W ptr i := by
  obtain ⟨W', hW', hn⟩ := h
  rw [hn i, npointers.congr_set fun x hx => ?_]
  have hne : ptr x ≠ none := by
    rw [hx]
    exact some_ne_none i
  exact iff_of_true (hW' x hne) (hW x hne)

theorem nonneg (h : HasLinks ptr n) (i : ι) : 0 ≤ n i := by
  obtain ⟨W, -, hn⟩ := h
  rw [hn i]
  exact Int.natCast_nonneg _

theorem pos (h : HasLinks ptr n) (hx : ptr x = some i) : 0 < n i := by
  obtain ⟨W, hW, hn⟩ := h
  rw [hn i]
  exact Int.natCast_pos.mpr (npointers.pos (hW x (by rw [hx]; exact some_ne_none i)) hx)

theorem eq_one (h : HasLinks ptr n) (hx : ptr x = some i) (hone : ∀ y, ptr y = some i → y = x) :
    n i = 1 := by
  obtain ⟨W, hW, hn⟩ := h
  rw [hn i, npointers.eq_one (hW x (by rw [hx]; exact some_ne_none i)) hx fun y _ => hone y]
  rfl

theorem two_le (h : HasLinks ptr n) (hxy : x ≠ y) (hx : ptr x = some i) (hy : ptr y = some i) :
    2 ≤ n i := by
  obtain ⟨W, hW, hn⟩ := h
  have hle := npointers.two_le (hW x (by rw [hx]; exact some_ne_none i))
    (hW y (by rw [hy]; exact some_ne_none i)) hxy hx hy
  rw [hn i]
  exact_mod_cast hle

variable [DecidableEq κ]

theorem set (h : HasLinks ptr n) (hx : ptr x = none) (i : ι) :
    HasLinks (update ptr x (some i)) (update n i (n i + 1)) := by
  obtain ⟨W, hW, -⟩ := id h
  have hcov : ∀ y, ptr y ≠ none → y ∈ insert x W := fun y hy => mem_insert_of_mem (hW y hy)
  refine ⟨insert x W, fun y hy => ?_, fun j => ?_⟩
  · by_cases hyx : y = x
    · rw [hyx]
      exact mem_insert_self x W
    · exact hcov y (by rwa [update_of_ne hyx] at hy)
  · rw [npointers.set (mem_insert_self x W) hx]
    by_cases hj : j = i
    · rw [hj, update_self, h.eq_npointers hcov i, if_pos rfl]
      rfl
    · rw [update_of_ne hj, h.eq_npointers hcov j, if_neg (Ne.symm hj)]
      rfl

theorem clear (h : HasLinks ptr n) (hx : ptr x = some i) :
    HasLinks (update ptr x none) (update n i (n i - 1)) := by
  obtain ⟨W, hW, hn⟩ := h
  refine ⟨W, fun y hy => hW y fun hz => hy ?_, fun j => ?_⟩
  · rw [update_apply, hz, ite_self]
  · have hclear := npointers.clear (hW x (by rw [hx]; exact some_ne_none i)) hx j
    have hnj := hn j
    by_cases hj : j = i
    · subst hj
      rw [if_pos rfl] at hclear
      rw [update_self]
      omega
    · rw [if_neg (Ne.symm hj)] at hclear
      rw [update_of_ne hj]
      omega

end HasLinks

end
