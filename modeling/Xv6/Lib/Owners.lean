import Mathlib.Data.List.Perm.Basic

/-!
# Exclusive locks and the records of their holders

A list of records says who is doing what; a record moves on by being taken out and put back changed.
A lock names its holder (`Option P`). `Exclusive q proc l k` says that lock `k` is held by exactly
those records of `l` that satisfy `q`: by none if the lock is free, and otherwise by one, whose
process is the one the lock names.

There is a rule for each way to add, replace or remove a record, and one for a table of entries with
locks (`locks_update`).
-/

open Function List

namespace Owners

variable {U P : Type*} {q : U → Bool} {proc : U → P} {l : List U} {k : Option P} {u v : U}

/-- The processes whose records satisfy `q`. -/
def owners (q : U → Bool) (proc : U → P) (l : List U) : List P := (l.filter q).map proc

/-- The lock `k` is held by the records that satisfy `q`. -/
def Exclusive (q : U → Bool) (proc : U → P) (l : List U) (k : Option P) : Prop :=
  (owners q proc l).Perm k.toList

theorem owners_cons_of_pos (h : q u = true) : owners q proc (u :: l) = proc u :: owners q proc l := by
  simp [owners, h]

theorem owners_cons_of_neg (h : q u = false) : owners q proc (u :: l) = owners q proc l := by
  simp [owners, h]

namespace Exclusive

theorem nil : Exclusive q proc [] none := List.Perm.nil

/-! ## Reading the lock -/

theorem length_le_one (h : Exclusive q proc l k) : (l.filter q).length ≤ 1 := by
  have hlen := h.length_eq
  rw [owners, length_map] at hlen
  rw [hlen]
  cases k <;> simp

theorem lock_eq (h : Exclusive q proc l k) (hu : u ∈ l) (hq : q u = true) : k = some (proc u) := by
  have hmem : proc u ∈ k.toList :=
    h.mem_iff.mp (mem_map_of_mem (mem_filter.mpr ⟨hu, hq⟩))
  simpa [eq_comm] using hmem

theorem of_none (h : Exclusive q proc l none) (hu : u ∈ l) : q u = false := by
  by_contra hq
  have := h.lock_eq hu (by simpa using hq)
  cases this

theorem eq_none (h : Exclusive q proc l k) (hl : ∀ u ∈ l, q u = false) : k = none := by
  have hnil : owners q proc l = [] := by
    rw [owners, map_eq_nil_iff, filter_eq_nil_iff]
    intro u hu
    simp [hl u hu]
  rw [Exclusive, hnil, nil_perm] at h
  simpa using h

/-! ## Changing the records -/

theorem add (h : Exclusive q proc l k) (hq : q u = false) : Exclusive q proc (u :: l) k := by
  rw [Exclusive, owners_cons_of_neg hq]
  exact h

theorem addHolder (h : Exclusive q proc l none) (hq : q u = true) :
    Exclusive q proc (u :: l) (some (proc u)) := by
  have hnil : owners q proc l = [] := perm_nil.mp h
  rw [Exclusive, owners_cons_of_pos hq, hnil]
  exact List.Perm.refl _

variable [DecidableEq U]

section

variable (h : Exclusive q proc l k) (hu : u ∈ l)

include h hu

theorem perm_erase : Exclusive q proc (u :: l.erase u) k :=
  ((((perm_cons_erase hu).filter q).map proc).symm).trans h

theorem remove (hq : q u = false) : Exclusive q proc (l.erase u) k := by
  have := h.perm_erase hu
  rwa [Exclusive, owners_cons_of_neg hq] at this

theorem removeHolder (hq : q u = true) : Exclusive q proc (l.erase u) none := by
  have hk := h.lock_eq hu hq
  have := h.perm_erase hu
  rw [Exclusive, owners_cons_of_pos hq, hk] at this
  exact List.Perm.cons_inv this

/-- A record that moves on without taking or giving up the lock. -/
theorem keep (hq : q v = q u) (hp : proc v = proc u) : Exclusive q proc (v :: l.erase u) k := by
  cases hqu : q u with
  | false => exact (h.remove hu hqu).add (hq.trans hqu)
  | true =>
    rw [h.lock_eq hu hqu, ← hp]
    exact (h.removeHolder hu hqu).addHolder (hq.trans hqu)

end

theorem acquire (h : Exclusive q proc l none) (hu : u ∈ l) (hq : q v = true) :
    Exclusive q proc (v :: l.erase u) (some (proc v)) :=
  (h.remove hu (h.of_none hu)).addHolder hq

theorem release (h : Exclusive q proc l k) (hu : u ∈ l) (hqu : q u = true) (hqv : q v = false) :
    Exclusive q proc (v :: l.erase u) none :=
  (h.removeHolder hu hqu).add hqv

theorem other (h : Exclusive q proc l k) (hu : u ∈ l) (hq : q u = true) (hv : v ∈ l)
    (hne : v ≠ u) : q v = false :=
  (h.removeHolder hu hq).of_none ((mem_erase_of_ne hne).mpr hv)

end Exclusive

/-! ## Tables -/

variable {ι α β : Type*} [DecidableEq ι] {a : ι → α} {i : ι} {x : α}

/-- What an entry keeps when another one is changed, or it is changed into one that is equal in this. -/
theorem update_keeps (f : α → β) (hx : f x = f (a i)) (j : ι) : f (update a i x j) = f (a j) := by
  by_cases e : j = i
  · rw [e, update_self, hx]
  · rw [update_of_ne e]

theorem locks_update (lock : α → Option P) {q : ι → U → Bool} {l l' : List U}
    (h : ∀ j, Exclusive (q j) proc l (lock (a j))) (hself : Exclusive (q i) proc l' (lock x))
    (hother : ∀ j k, j ≠ i → Exclusive (q j) proc l k → Exclusive (q j) proc l' k) (j : ι) :
    Exclusive (q j) proc l' (lock (update a i x j)) := by
  by_cases e : j = i
  · rwa [e, update_self]
  · rw [update_of_ne e]
    exact hother j _ e (h j)

end Owners
