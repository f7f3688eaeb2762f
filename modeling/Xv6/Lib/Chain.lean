import Mathlib.Data.List.Nodup

/-!
# Singly linked chains

Nodes of a type `α`, linked by a map `next : α → Option α` (a memory of next-pointers, `none`
is null). `Seg next h l t` says that following `next` from `h` visits exactly the nodes of `l`
and arrives at `t`; a complete list is a segment that arrives at null, `Chain next h l`.

A segment depends only on the next-pointers of the nodes it visits (`Seg.congr`), which gives
the two edits of a queue, `Chain.push_back` and `Chain.unlink`. `follow` computes the nodes a walk
visits within a given number of steps (`follow_eq`).
-/

open Function List

namespace LinkedChain

variable {α : Type*}

/-- Following `next` from `h` visits the nodes of `l` and arrives at `t`. -/
def Seg (next : α → Option α) : Option α → List α → Option α → Prop
  | h, [], t => h = t
  | h, a :: l, t => h = some a ∧ Seg next (next a) l t

/-- A complete list: a segment that ends in null. -/
def Chain (next : α → Option α) (h : Option α) (l : List α) : Prop := Seg next h l none

instance Seg.decidable [DecidableEq α] (next : α → Option α) :
    ∀ h l t, Decidable (Seg next h l t)
  | h, [], t => inferInstanceAs (Decidable (h = t))
  | _, a :: l, t => @instDecidableAnd _ _ _ (Seg.decidable next (next a) l t)

instance Chain.decidable [DecidableEq α] (next : α → Option α) (h : Option α) (l : List α) :
    Decidable (Chain next h l) := Seg.decidable next h l none

variable {next next' : α → Option α} {h t : Option α} {l l1 l2 : List α} {a b : α}

@[simp] theorem seg_nil : Seg next h [] t ↔ h = t := Iff.rfl

@[simp] theorem seg_cons : Seg next h (a :: l) t ↔ h = some a ∧ Seg next (next a) l t := Iff.rfl

theorem seg_append : Seg next h (l1 ++ l2) t ↔ ∃ m, Seg next h l1 m ∧ Seg next m l2 t := by
  induction l1 generalizing h with
  | nil => simp
  | cons a l1 ih =>
    simp only [cons_append, seg_cons, ih]
    constructor
    · rintro ⟨rfl, m, h1, h2⟩; exact ⟨m, ⟨rfl, h1⟩, h2⟩
    · rintro ⟨m, ⟨rfl, h1⟩, h2⟩; exact ⟨rfl, m, h1, h2⟩

/-- A segment depends only on the next-pointers of the nodes it visits. -/
theorem Seg.congr (hs : Seg next h l t) (hn : ∀ a ∈ l, next' a = next a) : Seg next' h l t := by
  induction l generalizing h with
  | nil => exact hs
  | cons a l ih =>
    refine ⟨hs.1, ?_⟩
    rw [hn a mem_cons_self]
    apply ih hs.2
    intro b hb
    exact hn b (mem_cons_of_mem a hb)

theorem Chain.head_eq (hc : Chain next h l) : h = l.head? := by
  cases l with
  | nil => exact hc
  | cons a l => exact hc.1

theorem Chain.next_eq (hc : Chain next h (l1 ++ a :: l2)) : next a = l2.head? := by
  obtain ⟨_, -, -, hs⟩ := seg_append.1 hc
  exact Chain.head_eq hs

/-! ## Linking behind the last node -/

section Edits

variable [DecidableEq α]

theorem Seg.update_of_notMem {v : Option α} (hs : Seg next h l t) (ha : a ∉ l) :
    Seg (update next a v) h l t :=
  hs.congr fun _ hb => update_of_ne (ne_of_mem_of_not_mem hb ha) _ _

/-- **Linking at the tail.** Storing `a` behind the last node `b` and null behind `a` appends
`a` to the chain. -/
theorem Chain.push_back (hc : Chain next h (l ++ [b])) (hnd : (l ++ [b]).Nodup)
    (ha : a ∉ l ++ [b]) :
    Chain (update (update next a none) b (some a)) h (l ++ [b] ++ [a]) := by
  have hb : b ∉ l := fun hb => (disjoint_of_nodup_append hnd) hb (by simp)
  have hab : a ≠ b := fun hab => ha (by simp [hab])
  obtain ⟨m, h1, h2⟩ := seg_append.1 hc
  refine seg_append.2 ⟨some a, seg_append.2 ⟨m, ?_, h2.1, ?_⟩, rfl, ?_⟩
  · exact (h1.update_of_notMem fun hl => ha (by simp [hl])).update_of_notMem hb
  · simp
  · simp [hab]

/-- **Unlinking through the predecessor.** Storing the successor of `a` behind its predecessor
`b` removes `a` from the chain. -/
theorem Chain.unlink {v : Option α} (hc : Chain next h (l1 ++ b :: a :: l2))
    (hnd : (l1 ++ b :: a :: l2).Nodup) :
    Chain (update (update next b (next a)) a v) h (l1 ++ b :: l2) := by
  obtain ⟨m, h1, hb, -, h2⟩ := seg_append.1 hc
  have hnd' := nodup_append.1 hnd
  obtain ⟨hb2, ha2⟩ : b ∉ a :: l2 ∧ a ∉ l2 := by
    have := hnd'.2.1
    simp only [nodup_cons] at this
    exact ⟨this.1, this.2.1⟩
  have hb1 : b ∉ l1 := fun hm => hnd'.2.2 b hm b (by simp) rfl
  have ha1 : a ∉ l1 := fun hm => hnd'.2.2 a hm a (by simp) rfl
  have hba : b ≠ a := fun e => hb2 (by simp [e])
  refine seg_append.2 ⟨m, (h1.update_of_notMem hb1).update_of_notMem ha1, hb, ?_⟩
  rw [update_of_ne hba, update_self]
  exact (h2.update_of_notMem fun hm => hb2 (mem_cons_of_mem a hm)).update_of_notMem ha2

theorem Chain.unlink_head {v : Option α} (hc : Chain next h (a :: l)) (hnd : (a :: l).Nodup) :
    Chain (update next a v) (next a) l :=
  Seg.update_of_notMem hc.2 (nodup_cons.1 hnd).1

end Edits

/-! ## Walking a chain -/

/-- The nodes visited from `h` within `fuel` steps. -/
def follow (next : α → Option α) : ℕ → Option α → List α
  | 0, _ => []
  | _ + 1, none => []
  | fuel + 1, some a => a :: follow next fuel (next a)

theorem follow_eq {fuel : ℕ} (hc : Chain next h l) (hl : l.length ≤ fuel) :
    follow next fuel h = l := by
  induction fuel generalizing h l with
  | zero => rw [length_eq_zero_iff.1 (Nat.le_zero.1 hl)]; rfl
  | succ fuel ih =>
    cases l with
    | nil =>
      have h1 : h = none := hc
      rw [h1]; rfl
    | cons a l => rw [hc.1, follow, ih hc.2 (by simpa using hl)]

end LinkedChain
