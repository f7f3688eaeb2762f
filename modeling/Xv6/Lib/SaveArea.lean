import Mathlib.Algebra.Group.Basic
import Mathlib.Data.Set.Function

/-!
# Save Areas

A load/store machine, and the two blocks of code it saves registers with: a row of loads and a
row of stores relative to one base register. Registers and words are of any type; an address is a
word.

A row of loads is one parallel assignment (`restore_eq`). `save_mem` and `save_off` say what a row of
stores writes.
-/

structure Machine (R W : Type*) where
  reg : R → W
  mem : W → W

namespace Machine

variable {R W : Type*} [AddGroup W] {m : Machine R W} {off : R → W} {b : R} {l : List R}

section Loads

variable [DecidableEq R]

def li (m : Machine R W) (rd : R) (imm : W) : Machine R W :=
  { m with reg := Function.update m.reg rd imm }

def mv (m : Machine R W) (rd rs : R) : Machine R W :=
  m.li rd (m.reg rs)

def ld (m : Machine R W) (rd : R) (off : W) (base : R) : Machine R W :=
  m.li rd (m.mem (m.reg base + off))

/-- `ld r, off(base)` for each register `r` of the row. -/
def restore (m : Machine R W) (off : R → W) (base : R) (l : List R) : Machine R W :=
  l.foldl (fun m r => m.ld r (off r) base) m

theorem restore_eq (hb : b ∉ l) : m.restore off b l =
    ⟨fun r => if r ∈ l then m.mem (m.reg b + off r) else m.reg r, m.mem⟩ := by
  induction l generalizing m with
  | nil => simp [restore]
  | cons q l ih =>
    rw [List.mem_cons, not_or] at hb
    have hbase : (m.ld q (off q) b).reg b = m.reg b := Function.update_of_ne hb.1 _ _
    refine (ih (m := m.ld q (off q) b) hb.2).trans ?_
    rw [hbase]
    simp only [ld, li, mk.injEq, and_true]
    funext r
    by_cases hr : r = q <;> simp [hr]

end Loads

variable [DecidableEq W]

def sd (m : Machine R W) (rs : R) (off : W) (base : R) : Machine R W :=
  { m with mem := Function.update m.mem (m.reg base + off) (m.reg rs) }

/-- `sd r, off(base)` for each register `r` of the row. -/
def save (m : Machine R W) (off : R → W) (base : R) (l : List R) : Machine R W :=
  l.foldl (fun m r => m.sd r (off r) base) m

theorem save_eq : m.save off b l = ⟨m.reg, (m.save off b l).mem⟩ := by
  induction l generalizing m with
  | nil => rfl
  | cons r l ih => exact ih

theorem save_off {a : W} (ha : ∀ r ∈ l, a ≠ m.reg b + off r) :
    (m.save off b l).mem a = m.mem a := by
  induction l generalizing m with
  | nil => rfl
  | cons r l ih =>
    rw [List.forall_mem_cons] at ha
    exact (ih (m := m.sd r (off r) b) ha.2).trans (Function.update_of_ne ha.1 _ _)

theorem save_mem (hoff : Set.InjOn off {r | r ∈ l}) :
    ∀ r ∈ l, (m.save off b l).mem (m.reg b + off r) = m.reg r := by
  induction l generalizing m with
  | nil => simp
  | cons q l ih =>
    intro r hr
    by_cases hl : r ∈ l
    · exact ih (hoff.mono fun _ => List.mem_cons_of_mem q) r hl
    · -- the last store to this slot: the rest of the row writes elsewhere
      obtain rfl : r = q := (List.mem_cons.1 hr).resolve_right hl
      refine (save_off (m := m.sd r (off r) b) ?_).trans (Function.update_self _ _ _)
      intro x hx heq
      exact hl (hoff hr (List.mem_cons_of_mem r hx) (add_left_cancel heq) ▸ hx)

end Machine
