import Xv6.Lib.Guarded
import Xv6.RunQueue

/-!
# Spinlocks and interrupt nesting on one CPU

`kernel/spinlock.c` for a single CPU. The state (`Irq`) is what `push_off` and `pop_off` keep
in `struct cpu` (`noff`, `intena`), the interrupt-enable bit `SIE` of `sstatus`, and the
spinlocks with `locked = 1`. With one CPU a lock that is locked is locked by this CPU, so
`holding` is membership and the spin in `acquire` either takes the lock at once or, after the
test `if(holding(lk)) panic("acquire")`, is not reached. A panic is `none`.

`Irq.Ok hs b` is the discipline of a thread that holds exactly the locks `hs` and ran with
interrupts enabled iff `b` before it took the first of them. `acquire` and `release` move
between these states (`Irq.acquire_ok`, `Irq.release_ok`).
-/

namespace Xv6

/-- The spinlocks the model names; all others are `other n`. -/
inductive Lock
  | proc (p : ProcId)
  | waitLock
  | runq
  | tickslock
  | pidLock
  | other (n : ℕ)
  deriving DecidableEq, Repr

/-- The interrupt state of the CPU and the spinlocks it holds. -/
structure Irq where
  noff : ℕ
  intena : Bool
  sie : Bool
  held : List Lock
  deriving DecidableEq, Repr

namespace Irq

def intrOn (i : Irq) : Irq := { i with sie := true }

def intrOff (i : Irq) : Irq := { i with sie := false }

def pushOff (i : Irq) : Irq :=
  { i with
    sie := false
    intena := if i.noff = 0 then i.sie else i.intena
    noff := i.noff + 1 }

def popOff (i : Irq) : Option Irq :=
  if i.sie then none                -- panic("pop_off - interruptible")
  else if i.noff < 1 then none      -- panic("pop_off")
  else
    let i := { i with noff := i.noff - 1 }
    some (if i.noff = 0 ∧ i.intena then i.intrOn else i)

def acquire (l : Lock) (i : Irq) : Option Irq :=
  let i := i.pushOff
  if l ∈ i.held then none           -- panic("acquire")
  else some { i with held := l :: i.held }

def release (l : Lock) (i : Irq) : Option Irq :=
  if l ∉ i.held then none           -- panic("release")
  else { i with held := i.held.erase l }.popOff

/-- The CPU holds exactly the locks `hs`, taken by a thread that had interrupts enabled iff
`b`. -/
structure Ok (hs : List Lock) (b : Bool) (i : Irq) : Prop where
  held : i.held = hs
  noff : i.noff = hs.length
  sie : i.sie = (hs.isEmpty && b)
  intena : hs ≠ [] → i.intena = b

variable {i : Irq} {hs : List Lock} {b : Bool} {l : Lock}

theorem acquire_ok (h : i.Ok hs b) (hl : l ∉ hs) :
    ∃ i', Ok (l :: hs) b i' ∧ i.acquire l = some i' := by
  refine ⟨⟨i.noff + 1, if i.noff = 0 then i.sie else i.intena, false, l :: i.held⟩, ?_, ?_⟩
  · refine ⟨by rw [h.held], by simp [h.noff], by simp, fun _ => ?_⟩
    cases hs with
    | nil => simp [h.noff, h.sie]
    | cons a hs => simp [h.noff, h.intena]
  · simp [acquire, pushOff, h.held, hl]

theorem release_ok (h : i.Ok hs b) (hl : l ∈ hs) :
    ∃ i', Ok (hs.erase l) b i' ∧ i.release l = some i' := by
  have hne : hs ≠ [] := List.ne_nil_of_mem hl
  have hlen : (hs.erase l).length = hs.length - 1 := List.length_erase_of_mem hl
  have hpos : 0 < hs.length := List.length_pos_of_mem hl
  have hsie : i.sie = false := by
    rw [h.sie]; cases hs <;> simp_all
  refine ⟨⟨i.noff - 1, i.intena, (hs.erase l).isEmpty && b, hs.erase l⟩, ?_, ?_⟩
  · exact ⟨rfl, by simp [h.noff, hlen], rfl, fun _ => h.intena hne⟩
  · have hnoff : i.noff - 1 = 0 ↔ hs.erase l = [] := by
      rw [h.noff, ← hlen, List.length_eq_zero_iff]
    simp only [release, h.held, hl, not_true_eq_false, if_false, popOff, hsie, Bool.false_eq_true,
      hnoff, h.intena hne]
    rw [if_neg (by rw [h.noff]; omega)]
    by_cases he : hs.erase l = []
    · cases b <;> simp [he, intrOn]
    · have : (hs.erase l).isEmpty = false := by simpa using he
      simp [he, this]

/-- With no lock held the interrupt bit is the thread's own. -/
theorem Ok.sie_nil (h : i.Ok [] b) : i.sie = b := by simpa using h.sie

/-- Interrupts are enabled only when no lock is held. -/
theorem Ok.of_sie (h : i.Ok hs b) (hs' : i.sie = true) : hs = [] ∧ b = true := by
  rw [h.sie] at hs'
  simpa using hs'

theorem Ok.intrOff (h : i.Ok [] b) : i.intrOff.Ok [] false :=
  ⟨h.held, h.noff, rfl, fun h => absurd rfl h⟩

theorem Ok.intrOn (h : i.Ok [] b) : i.intrOn.Ok [] true :=
  ⟨h.held, h.noff, rfl, fun h => absurd rfl h⟩

end Irq

end Xv6
