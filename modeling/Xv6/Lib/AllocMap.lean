import Mathlib.Data.Fintype.EquivFin

/-!
# Allocation maps

Resources of a type `α` are handed out to slots of a type `κ`: `own k` is the resource in the slot
`k`, and `0` stands for an empty slot. A map `used` marks the resources that are handed out.
`AllocMap data own used` says that the two agree on the resources of `data`: the slots hold resources
of `data`, no two slots the same one, and a resource is marked exactly if some slot holds it.

A slot is filled with an unmarked resource (`AllocMap.assign`) or emptied (`AllocMap.release`). When all
resources of a finite set are marked, no slot more can be filled (`AllocMap.own_ne_zero_of_full`).
-/

open Function

variable {κ α : Type*} [Zero α] {data : α → Prop} {own : κ → α} {used : α → Bool} {k k' : κ}
  {b : α}

/-- The marks say which resources the slots hold. -/
structure AllocMap (data : α → Prop) (own : κ → α) (used : α → Bool) : Prop where
  zero : ¬ data 0
  mem : ∀ k, own k ≠ 0 → data (own k)
  inj : ∀ k k', own k ≠ 0 → own k = own k' → k = k'
  used_iff : ∀ b, data b → (used b = true ↔ ∃ k, own k = b)

namespace AllocMap

section

variable (h : AllocMap data own used)

include h

theorem ne_zero (hb : data b) : b ≠ 0 :=
  fun he => h.zero (he ▸ hb)

theorem used_own (hk : own k ≠ 0) : used (own k) = true :=
  (h.used_iff _ (h.mem k hk)).mpr ⟨k, rfl⟩

theorem own_ne (hb : data b) (hused : used b = false) (k : κ) : own k ≠ b := by
  intro hk
  have := (h.used_iff b hb).mpr ⟨k, hk⟩
  rw [hused] at this
  contradiction

theorem own_ne_of_ne (hk : own k ≠ 0) (hkk : k' ≠ k) : own k' ≠ own k :=
  fun he => hkk (h.inj k k' hk he.symm).symm

/-- **When all resources are handed out, no slot more can be filled**: a map that fills the same slots
fills no other. -/
theorem own_ne_zero_of_full {own' : κ → α} {used' : α → Bool} (h' : AllocMap data own' used')
    [Finite {b // data b}] (hfull : ∀ b, data b → used b = true)
    (hsub : ∀ k, own k ≠ 0 → own' k ≠ 0) (hk : own' k ≠ 0) : own k ≠ 0 := by
  have hslot : ∀ b : {b // data b}, ∃ k, own k = b := fun b => (h.used_iff b b.2).1 (hfull b b.2)
  choose slot hslot using hslot
  have hne : ∀ b : {b // data b}, own' (slot b) ≠ 0 := fun b => hsub _ (by
    rw [hslot b]
    exact h.ne_zero b.2)
  -- what the other map has in these slots are different resources, and so all of them
  let other : {b // data b} → {b // data b} := fun b => ⟨own' (slot b), h'.mem _ (hne b)⟩
  have hinj : Function.Injective other := by
    intro b c hbc
    have hs : slot b = slot c := h'.inj _ _ (hne b) (congrArg Subtype.val hbc)
    refine Subtype.ext ?_
    rw [← hslot b, ← hslot c, hs]
  obtain ⟨b, hb⟩ := Finite.surjective_of_injective hinj ⟨own' k, h'.mem k hk⟩
  have hkb : slot b = k := h'.inj _ _ (hne b) (congrArg Subtype.val hb)
  rw [← hkb, hslot b]
  exact h.ne_zero b.2

end

variable [DecidableEq κ] [DecidableEq α]

theorem assign (h : AllocMap data own used) (hk : own k = 0) (hb : data b)
    (hused : used b = false) :
    AllocMap data (update own k b) (update used b true) where
  zero := h.zero
  mem j hj := by
    by_cases hjk : j = k
    · rw [hjk, update_self]
      exact hb
    · rw [update_of_ne hjk] at hj ⊢
      exact h.mem j hj
  inj j j' hj he := by
    by_cases hjk : j = k <;> by_cases hjk' : j' = k
    · rw [hjk, hjk']
    · rw [hjk, update_self, update_of_ne hjk'] at he
      exact absurd he.symm (h.own_ne hb hused j')
    · rw [hjk', update_self, update_of_ne hjk] at he
      exact absurd he (h.own_ne hb hused j)
    · rw [update_of_ne hjk] at hj he
      rw [update_of_ne hjk'] at he
      exact h.inj j j' hj he
  used_iff c hc := by
    by_cases hcb : c = b
    · rw [hcb, update_self]
      exact iff_of_true rfl ⟨k, update_self ..⟩
    · rw [update_of_ne hcb, h.used_iff c hc]
      refine exists_congr fun j => ?_
      by_cases hjk : j = k
      · rw [hjk, hk, update_self]
        exact iff_of_false (h.ne_zero hc).symm (Ne.symm hcb)
      · rw [update_of_ne hjk]

theorem release (h : AllocMap data own used) (hk : own k ≠ 0) :
    AllocMap data (update own k 0) (update used (own k) false) where
  zero := h.zero
  mem j hj := by
    by_cases hjk : j = k
    · rw [hjk, update_self] at hj
      exact absurd rfl hj
    · rw [update_of_ne hjk] at hj ⊢
      exact h.mem j hj
  inj j j' hj he := by
    by_cases hjk : j = k
    · rw [hjk, update_self] at hj
      exact absurd rfl hj
    · rw [update_of_ne hjk] at hj he
      by_cases hjk' : j' = k
      · rw [hjk', update_self] at he
        exact absurd he hj
      · rw [update_of_ne hjk'] at he
        exact h.inj j j' hj he
  used_iff c hc := by
    by_cases hck : c = own k
    · rw [hck, update_self]
      refine iff_of_false (by decide) ?_
      rintro ⟨j, hj⟩
      by_cases hjk : j = k
      · rw [hjk, update_self] at hj
        exact hk hj.symm
      · rw [update_of_ne hjk] at hj
        exact h.own_ne_of_ne hk hjk hj
    · rw [update_of_ne hck, h.used_iff c hc]
      refine exists_congr fun j => ?_
      by_cases hjk : j = k
      · rw [hjk, update_self]
        exact iff_of_false (Ne.symm hck) (h.ne_zero hc).symm
      · rw [update_of_ne hjk]

end AllocMap
