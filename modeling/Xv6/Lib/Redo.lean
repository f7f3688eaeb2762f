import Mathlib.Data.List.Basic

/-!
# Redo lists

A redo list says which addresses of a memory get which values. `apply ws m` performs the writes of
`ws` on `m`, in order, so that the last write to an address counts.

**Replay.** A write of the list that has been performed before makes no difference to performing the
list (`apply_update_of_mem`). That is why a redo log may be replayed any number of times, and why a
replay may be cut short and started again.
-/

open Function List

namespace Redo

variable {α β : Type*} [DecidableEq α] {ws : List (α × β)} {m m' : α → β} {a : α}

def apply (ws : List (α × β)) (m : α → β) : α → β :=
  ws.foldl (fun m w => update m w.1 w.2) m

@[simp]
theorem apply_nil (m : α → β) : apply [] m = m := rfl

@[simp]
theorem apply_cons (w : α × β) (ws : List (α × β)) (m : α → β) :
    apply (w :: ws) m = apply ws (update m w.1 w.2) := rfl

theorem apply_append (ws vs : List (α × β)) (m : α → β) :
    apply (ws ++ vs) m = apply vs (apply ws m) := foldl_append ..

/-- An address no write of the list is for keeps its value. -/
theorem apply_of_notMem (h : a ∉ ws.map Prod.fst) : apply ws m a = m a := by
  induction ws generalizing m with
  | nil => rfl
  | cons w ws ih =>
    rw [map_cons, mem_cons, not_or] at h
    rw [apply_cons, ih h.2, update_of_ne h.1]

/-- The old value of an address matters only if no write of the list is for it. -/
theorem apply_congr (h : a ∈ ws.map Prod.fst ∨ m a = m' a) : apply ws m a = apply ws m' a := by
  induction ws generalizing m m' with
  | nil => simpa using h
  | cons w ws ih =>
    rw [apply_cons, apply_cons]
    apply ih
    by_cases ha : a = w.1
    · right
      rw [ha, update_self, update_self]
    · rw [map_cons, mem_cons] at h
      rw [update_of_ne ha, update_of_ne ha]
      exact h.imp_left fun h => h.resolve_left ha

/-- **Replay.** A write of the list performed once more before it makes no difference. -/
theorem apply_update_of_mem {b : β} (ha : a ∈ ws.map Prod.fst) :
    apply ws (update m a b) = apply ws m := by
  funext x
  apply apply_congr
  by_cases hx : x = a
  · exact .inl (hx ▸ ha)
  · exact .inr (update_of_ne hx _ _)

/-- If all the values are those of `m'`, the list copies a part of `m'`. -/
theorem apply_of_values (h : ∀ w ∈ ws, w.2 = m' w.1) (ha : a ∈ ws.map Prod.fst) :
    apply ws m a = m' a := by
  induction ws generalizing m with
  | nil => cases ha
  | cons w ws ih =>
    rw [apply_cons]
    by_cases hw : a ∈ ws.map Prod.fst
    · exact ih (fun v hv => h v (mem_cons_of_mem _ hv)) hw
    · rw [apply_of_notMem hw]
      obtain rfl : a = w.1 := (mem_cons.mp ha).resolve_right hw
      rw [update_self, h w mem_cons_self]

end Redo
