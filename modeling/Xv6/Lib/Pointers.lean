import Mathlib.Data.Finset.Card
import Mathlib.Data.Finset.Union

/-!
# Counting pointers

Places of a type `κ` hold pointers to objects of a type `ι`, or nothing: `f : κ → Option ι`. `npointers
U f i` is how many places of the finite set `U` point to `i`. Reference counts and link counts are
numbers of this kind, and the rules are those by which they are kept: one more when an empty place is
set, one less when a place is cleared.
-/

variable {κ ι : Type*} [DecidableEq ι] {U : Finset κ} {f g : κ → Option ι} {x y : κ} {i j : ι}

/-- The number of places in `U` that point to `i`. -/
def npointers (U : Finset κ) (f : κ → Option ι) (i : ι) : ℕ := (U.filter fun x => f x = some i).card

open Finset Function

namespace npointers

theorem congr (h : ∀ x ∈ U, f x = g x) : npointers U f i = npointers U g i := by
  unfold npointers
  congr 1
  exact filter_congr fun x hx => by rw [h x hx]

/-- Only the places that point to `i` matter. -/
theorem congr_set {V : Finset κ} (h : ∀ x, f x = some i → (x ∈ U ↔ x ∈ V)) :
    npointers U f i = npointers V f i := by
  unfold npointers
  congr 1
  ext x
  simp only [mem_filter]
  exact and_congr_left (h x)

theorem pos (hx : x ∈ U) (hf : f x = some i) : 0 < npointers U f i :=
  card_pos.mpr ⟨x, mem_filter.mpr ⟨hx, hf⟩⟩

theorem exists_of_pos (h : 0 < npointers U f i) : ∃ x ∈ U, f x = some i := by
  obtain ⟨x, hx⟩ := card_pos.mp h
  exact ⟨x, mem_filter.mp hx⟩

theorem eq_zero (h : ∀ x ∈ U, f x ≠ some i) : npointers U f i = 0 :=
  card_eq_zero.mpr (filter_eq_empty_iff.mpr fun x hx => h x hx)

/-- A place that alone points to `i`. -/
theorem eq_one (hx : x ∈ U) (hf : f x = some i) (h : ∀ y ∈ U, f y = some i → y = x) :
    npointers U f i = 1 := by
  refine card_eq_one.mpr ⟨x, ext fun y => ?_⟩
  rw [mem_filter, mem_singleton]
  constructor
  · intro hy
    exact h y hy.1 hy.2
  · rintro rfl
    exact ⟨hx, hf⟩

theorem two_le (hx : x ∈ U) (hy : y ∈ U) (hxy : x ≠ y) (hfx : f x = some i) (hfy : f y = some i) :
    2 ≤ npointers U f i :=
  one_lt_card.mpr ⟨x, mem_filter.mpr ⟨hx, hfx⟩, y, mem_filter.mpr ⟨hy, hfy⟩, hxy⟩

variable [DecidableEq κ]

theorem set (hx : x ∈ U) (hf : f x = none) (i j : ι) :
    npointers U (update f x (some i)) j = npointers U f j + if i = j then 1 else 0 := by
  have hfilter : (U.filter fun y => update f x (some i) y = some j) =
      if i = j then insert x (U.filter fun y => f y = some j) else U.filter fun y => f y = some j := by
    ext y
    by_cases hyx : y = x
    · subst hyx
      by_cases hij : i = j <;> simp [hij, hx, hf]
    · by_cases hij : i = j <;> simp [hij, hyx]
  unfold npointers
  rw [hfilter]
  split_ifs with hij
  · exact card_insert_of_notMem (by simp [hf])
  · rfl

theorem clear (hx : x ∈ U) (hf : f x = some i) (j : ι) :
    npointers U (update f x none) j + (if i = j then 1 else 0) = npointers U f j := by
  have h := set hx (update_self (f := f) x none) i j
  rw [update_idem, ← hf, update_eq_self] at h
  exact h.symm

end npointers
