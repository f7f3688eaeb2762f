import Mathlib.Tactic.Common

/-!
# Finite maps in slots

A table of `n` slots, each of which is empty or has a key and a value, is a finite map if no two
slots have the same key (`SlotMap`). The value of a key is that of the first slot with the key
(`get`).

A binding is added by filling a slot that is empty, or a new one after the last (`SlotMap.insert`),
and removed by emptying its slot (`SlotMap.erase`). Either changes the map at one key and keeps it a
map.
-/

open Function List Option

variable {κ ν : Type*} {n n' i j : ℕ} {slot : ℕ → Option (κ × ν)} {k k' : κ} {v w : ν}

/-- No two of the first `n` slots have the same key. -/
def SlotMap (n : ℕ) (slot : ℕ → Option (κ × ν)) : Prop :=
  ∀ i < n, ∀ j < n, ∀ k v w, slot i = some (k, v) → slot j = some (k, w) → i = j

namespace SlotMap

/-- `i` is one of `n` slots, or the next one; there are `n'` slots afterwards. -/
def Place (n i n' : ℕ) : Prop := i < n ∧ n' = n ∨ i = n ∧ n' = n + 1

theorem Place.lt_iff (h : Place n i n') : j < n' ↔ j < n ∨ j = i := by
  rcases h with ⟨hi, rfl⟩ | ⟨rfl, rfl⟩
  · constructor
    · exact .inl
    · rintro (hj | rfl)
      exacts [hj, hi]
  · exact Nat.lt_succ_iff_lt_or_eq

/-! ## The first free slot -/

/-- The first slot that is empty, or the next one. -/
def firstFree (n : ℕ) (slot : ℕ → Option (κ × ν)) : ℕ :=
  ((range n).find? fun i => (slot i).isNone).getD n

theorem firstFree_le (n : ℕ) (slot : ℕ → Option (κ × ν)) : firstFree n slot ≤ n := by
  unfold firstFree
  cases hf : (range n).find? fun i => (slot i).isNone with
  | none => exact Nat.le_refl n
  | some i => exact Nat.le_of_lt (mem_range.1 (mem_of_find?_eq_some hf))

theorem slot_firstFree (h : firstFree n slot < n) : slot (firstFree n slot) = none := by
  unfold firstFree at h ⊢
  cases hf : (range n).find? fun i => (slot i).isNone with
  | none =>
    rw [hf] at h
    exact absurd h (Nat.lt_irrefl n)
  | some i => exact isNone_iff_eq_none.1 (find?_range_eq_some.1 hf).1

/-! ## Values -/

section Get

variable [DecidableEq κ]

/-- The value in a slot, if it has the key. -/
def value (k : κ) : Option (κ × ν) → Option ν
  | some (k', v) => if k' = k then some v else none
  | none => none

theorem value_eq_some {x : Option (κ × ν)} : value k x = some v ↔ x = some (k, v) := by
  cases x with
  | none => simp [value]
  | some x =>
    obtain ⟨k', w⟩ := x
    simp only [value]
    split_ifs with hk
    · simp [hk]
    · simp [hk]

def get (n : ℕ) (slot : ℕ → Option (κ × ν)) (k : κ) : Option ν :=
  (range n).findSome? fun i => value k (slot i)

theorem get_eq_none_iff : get n slot k = none ↔ ∀ i < n, ∀ v, slot i ≠ some (k, v) := by
  unfold get
  rw [findSome?_eq_none_iff]
  constructor
  · intro h i hi v hs
    have := h i (mem_range.2 hi)
    rw [value_eq_some.2 hs] at this
    contradiction
  · intro h i hi
    by_contra hne
    obtain ⟨v, hv⟩ := ne_none_iff_exists'.1 hne
    exact h i (mem_range.1 hi) v (value_eq_some.1 hv)

theorem exists_of_get (h : get n slot k = some v) : ∃ i < n, slot i = some (k, v) := by
  obtain ⟨i, hi, hv⟩ := exists_of_findSome?_eq_some h
  exact ⟨i, mem_range.1 hi, value_eq_some.1 hv⟩

theorem get_eq_some_iff (h : SlotMap n slot) :
    get n slot k = some v ↔ ∃ i < n, slot i = some (k, v) := by
  refine ⟨exists_of_get, ?_⟩
  rintro ⟨i, hi, hs⟩
  cases hg : get n slot k with
  | none => exact absurd hs (get_eq_none_iff.1 hg i hi v)
  | some w =>
    obtain ⟨j, hj, hs'⟩ := exists_of_get hg
    obtain rfl := h i hi j hj k v w hs hs'
    rw [hs, some.injEq, Prod.mk.injEq] at hs'
    rw [hs'.2]

theorem get_congr {n' : ℕ} {slot' : ℕ → Option (κ × ν)} (h : SlotMap n slot) (h' : SlotMap n' slot')
    (hiff : ∀ v, (∃ i < n', slot' i = some (k', v)) ↔ ∃ i < n, slot i = some (k, v)) :
    get n' slot' k' = get n slot k := by
  refine ext fun v => ?_
  rw [get_eq_some_iff h', get_eq_some_iff h, hiff]

end Get

/-! ## Changes -/

/-- **A binding is added.** -/
theorem insert (h : SlotMap n slot) (hi : Place n i n') (hk : ∀ j < n, ∀ w, slot j ≠ some (k, w)) :
    SlotMap n' (update slot i (some (k, v))) := by
  have hold : ∀ j < n', j ≠ i → j < n := fun j hj hne => (hi.lt_iff.1 hj).resolve_right hne
  intro j hj j' hj' c a b hsj hsj'
  by_cases hji : j = i
  · by_cases hji' : j' = i
    · rw [hji, hji']
    · rw [hji, update_self, some.injEq, Prod.mk.injEq] at hsj
      rw [update_of_ne hji'] at hsj'
      exact absurd (hsj.1 ▸ hsj') (hk j' (hold j' hj' hji') b)
  · rw [update_of_ne hji] at hsj
    by_cases hji' : j' = i
    · rw [hji', update_self, some.injEq, Prod.mk.injEq] at hsj'
      exact absurd (hsj'.1 ▸ hsj) (hk j (hold j hj hji) a)
    · rw [update_of_ne hji'] at hsj'
      exact h j (hold j hj hji) j' (hold j' hj' hji') c a b hsj hsj'

/-- **A binding is removed.** -/
theorem erase (h : SlotMap n slot) (hi : Place n i n') : SlotMap n' (update slot i none) := by
  have hold : ∀ j < n', ∀ x, update slot i none j = some x → j < n ∧ slot j = some x := by
    intro j hj x hs
    by_cases hji : j = i
    · rw [hji, update_self] at hs
      contradiction
    · rw [update_of_ne hji] at hs
      exact ⟨(hi.lt_iff.1 hj).resolve_right hji, hs⟩
  intro j hj j' hj' c a b hsj hsj'
  obtain ⟨hlt, hs⟩ := hold j hj _ hsj
  obtain ⟨hlt', hs'⟩ := hold j' hj' _ hsj'
  exact h j hlt j' hlt' c a b hs hs'

variable [DecidableEq κ]

theorem get_insert (h : SlotMap n slot) (hi : Place n i n') (hfree : i < n → slot i = none)
    (hk : get n slot k = none) :
    get n' (update slot i (some (k, v))) = update (get n slot) k (some v) := by
  have hnew := get_eq_none_iff.1 hk
  have hmap : SlotMap n' (update slot i (some (k, v))) := h.insert hi hnew
  funext c
  by_cases hc : c = k
  · subst hc
    rw [update_self, get_eq_some_iff hmap]
    exact ⟨i, hi.lt_iff.2 (.inr rfl), update_self ..⟩
  · rw [update_of_ne hc]
    refine get_congr h hmap fun w => ⟨?_, ?_⟩
    · rintro ⟨j, hj, hs⟩
      have hji : j ≠ i := by
        rintro rfl
        rw [update_self, some.injEq, Prod.mk.injEq] at hs
        exact hc hs.1.symm
      rw [update_of_ne hji] at hs
      exact ⟨j, (hi.lt_iff.1 hj).resolve_right hji, hs⟩
    · rintro ⟨j, hj, hs⟩
      have hji : j ≠ i := by
        rintro rfl
        rw [hfree hj] at hs
        contradiction
      exact ⟨j, hi.lt_iff.2 (.inl hj), by rw [update_of_ne hji]; exact hs⟩

theorem get_erase (h : SlotMap n slot) (hi : i < n) (hs : slot i = some (k, v)) :
    get n (update slot i none) = update (get n slot) k none := by
  funext c
  by_cases hc : c = k
  · subst hc
    rw [update_self, get_eq_none_iff]
    intro j hj w hsj
    by_cases hji : j = i
    · rw [hji, update_self] at hsj
      contradiction
    · rw [update_of_ne hji] at hsj
      exact hji (h j hj i hi c w v hsj hs)
  · rw [update_of_ne hc]
    refine get_congr h (h.erase (.inl ⟨hi, rfl⟩)) fun w => ⟨?_, ?_⟩
    · rintro ⟨j, hj, hsj⟩
      by_cases hji : j = i
      · rw [hji, update_self] at hsj
        contradiction
      · rw [update_of_ne hji] at hsj
        exact ⟨j, hj, hsj⟩
    · rintro ⟨j, hj, hsj⟩
      have hji : j ≠ i := by
        rintro rfl
        rw [hs, some.injEq, Prod.mk.injEq] at hsj
        exact hc hsj.1.symm
      exact ⟨j, hj, by rw [update_of_ne hji]; exact hsj⟩

end SlotMap
