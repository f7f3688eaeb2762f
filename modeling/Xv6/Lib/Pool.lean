import Mathlib.Data.Finset.Basic

/-!
# A pool of objects

A finite set `U` of objects that are marked free or not, and owners that hold lists of them. `Pool U
free own` says that an object is not free exactly if it is in one of the lists, and that it is there
once. An owner that holds nothing takes free objects (`take`), and gives back one at a time (`drop`).
-/

open Function List

variable {P ι : Type*} {U : Finset ι} {free : ι → Bool} {own : P → List ι} {p : P} {i : ι}
  {l : List ι}

/-- What is not free has one owner. -/
structure Pool (U : Finset ι) (free : ι → Bool) (own : P → List ι) : Prop where
  nodup : ∀ p, (own p).Nodup
  mem : ∀ p i, i ∈ own p → i ∈ U
  apart : ∀ p q i, i ∈ own p → i ∈ own q → p = q
  free_iff : ∀ i ∈ U, free i = false ↔ ∃ p, i ∈ own p

namespace Pool

theorem not_free (h : Pool U free own) (hi : i ∈ own p) : free i = false :=
  (h.free_iff i (h.mem p i hi)).mpr ⟨p, hi⟩

theorem all_free (h : Pool U free own) (hown : ∀ p, own p = []) (hi : i ∈ U) : free i = true := by
  by_contra hf
  obtain ⟨p, hp⟩ := (h.free_iff i hi).mp (by simpa using hf)
  rw [hown p] at hp
  exact not_mem_nil hp

variable [DecidableEq P] [DecidableEq ι]

/-- **Free objects are taken.** -/
theorem take (h : Pool U free own) (hp : own p = []) (hl : l.Nodup)
    (hfree : ∀ i ∈ l, i ∈ U ∧ free i = true) :
    Pool U (fun i => if i ∈ l then false else free i) (update own p l) := by
  have hother : ∀ {q i}, i ∈ own q → i ∉ l := fun {q i} hi hil => by
    have hf := h.not_free hi
    rw [(hfree i hil).2] at hf
    contradiction
  refine ⟨fun q => ?_, fun q i hi => ?_, fun q r i hq hr => ?_, fun i hi => ?_⟩
  · by_cases hqp : q = p
    · rw [hqp, update_self]
      exact hl
    · rw [update_of_ne hqp]
      exact h.nodup q
  · by_cases hqp : q = p
    · rw [hqp, update_self] at hi
      exact (hfree i hi).1
    · rw [update_of_ne hqp] at hi
      exact h.mem q i hi
  · by_cases hqp : q = p <;> by_cases hrp : r = p
    · rw [hqp, hrp]
    · rw [hqp, update_self] at hq
      rw [update_of_ne hrp] at hr
      exact absurd hq (hother hr)
    · rw [hrp, update_self] at hr
      rw [update_of_ne hqp] at hq
      exact absurd hr (hother hq)
    · rw [update_of_ne hqp] at hq
      rw [update_of_ne hrp] at hr
      exact h.apart q r i hq hr
  · by_cases hil : i ∈ l
    · rw [if_pos hil]
      exact iff_of_true rfl ⟨p, by rwa [update_self]⟩
    · rw [if_neg hil, h.free_iff i hi]
      constructor
      · rintro ⟨q, hq⟩
        refine ⟨q, ?_⟩
        rwa [update_of_ne]
        rintro rfl
        rw [hp] at hq
        exact not_mem_nil hq
      · rintro ⟨q, hq⟩
        refine ⟨q, ?_⟩
        by_cases hqp : q = p
        · rw [hqp, update_self] at hq
          exact absurd hq hil
        · rwa [update_of_ne hqp] at hq

/-- **An object is given back.** -/
theorem drop (h : Pool U free own) (hp : own p = i :: l) :
    Pool U (update free i true) (update own p l) := by
  have hn := h.nodup p
  rw [hp] at hn
  obtain ⟨hil, hn⟩ := nodup_cons.mp hn
  have hi : i ∈ own p := by
    rw [hp]
    exact mem_cons_self
  have hsub : ∀ {q j}, j ∈ update own p l q → j ∈ own q ∧ j ≠ i := fun {q j} hj => by
    by_cases hqp : q = p
    · rw [hqp, update_self] at hj
      rw [hqp, hp]
      exact ⟨mem_cons_of_mem i hj, fun he => hil (he ▸ hj)⟩
    · rw [update_of_ne hqp] at hj
      exact ⟨hj, fun he => hqp (h.apart q p j hj (he ▸ hi))⟩
  refine ⟨fun q => ?_, fun q j hj => h.mem q j (hsub hj).1,
    fun q r j hq hr => h.apart q r j (hsub hq).1 (hsub hr).1, fun j hj => ?_⟩
  · by_cases hqp : q = p
    · rw [hqp, update_self]
      exact hn
    · rw [update_of_ne hqp]
      exact h.nodup q
  · by_cases hji : j = i
    · subst hji
      rw [update_self]
      exact iff_of_false (by decide) fun ⟨q, hq⟩ => (hsub hq).2 rfl
    · rw [update_of_ne hji, h.free_iff j hj]
      constructor
      · rintro ⟨q, hq⟩
        refine ⟨q, ?_⟩
        by_cases hqp : q = p
        · subst hqp
          rw [hp] at hq
          rw [update_self]
          exact (mem_cons.mp hq).resolve_left hji
        · rwa [update_of_ne hqp]
      · rintro ⟨q, hq⟩
        exact ⟨q, (hsub hq).1⟩

end Pool
