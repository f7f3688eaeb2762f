import Mathlib.Algebra.GroupWithZero.Nat
import Mathlib.Data.Fintype.Basic
import Xv6.Lib.Chain

/-!
# The priority run queue

`kernel/proc.c` keeps the runnable processes in 32 singly linked queues, one per priority
level, threaded through the `rq_next` field of `struct proc`, together with a cached number of
the lowest non-empty level.

**The state** (`RunQueue`). The scheduling fields of the process table (`rq_next`, `prio`,
`wait_ticks`), the head and tail of each level, and `highest_nonempty`. Null pointers are
`none`. The flag `relinked` is ghost state: it records that `rq_push_tail` was applied to a
process already linked, and no operation reads it.

**Partiality.** `none` as the result of an operation stands for an execution that has no
result: an index outside `runq.q[NPRIO]`, or a `while` loop over `rq_next` that is still running
after visiting every process once. The refinement proof shows that neither happens.

The spinlock `runq.lock` around each operation belongs to the kernel model; here are the
bodies of the critical sections.
-/

namespace Xv6

/-! ## Parameters (`kernel/param.h`) -/

abbrev NPROC : ℕ := 64

/-- Number of priority levels, `0` (highest) to `31` (lowest). -/
abbrev NPRIO : ℕ := 32

def prioMin : ℤ := 0
def prioMax : ℤ := NPRIO - 1
def prioDefault : ℤ := 20

/-- How many waiting ticks raise the priority by one level. -/
def agingTicks : ℤ := 20

/-- A slot of the process table, as a `struct proc *`. -/
abbrev ProcId := Fin NPROC

abbrev Level := Fin NPRIO

instance : NeZero NPROC := ⟨by decide⟩

instance : LawfulBEq ProcId := inferInstance

/-! ## State -/

structure PrioQueue where
  head : Option ProcId
  tail : Option ProcId
  deriving DecidableEq, Repr

/-- `runq` and the scheduling fields of the process table. -/
structure RunQueue where
  rqNext : ProcId → Option ProcId
  prio : ProcId → ℤ
  waitTicks : ProcId → ℤ
  q : Level → PrioQueue
  highestNonempty : ℤ
  relinked : Bool

/-- The index `runq.q[prio]`, when it is inside the array. -/
def level? (prio : ℤ) : Option Level :=
  if h : 0 ≤ prio ∧ prio < NPRIO then some ⟨prio.toNat, by omega⟩ else none

namespace RunQueue

variable (r : RunQueue)

def setNext (p : ProcId) (v : Option ProcId) : RunQueue :=
  { r with rqNext := Function.update r.rqNext p v }

def setPrio (p : ProcId) (v : ℤ) : RunQueue := { r with prio := Function.update r.prio p v }

def setWait (p : ProcId) (v : ℤ) : RunQueue :=
  { r with waitTicks := Function.update r.waitTicks p v }

def setQ (l : Level) (v : PrioQueue) : RunQueue := { r with q := Function.update r.q l v }

/-! ## What is linked -/

/-- The processes met by following `rq_next` from the head of level `l`. -/
def queue (l : Level) : List ProcId := LinkedChain.follow r.rqNext NPROC (r.q l).head

/-- The process is linked in one of the levels. -/
def Linked (p : ProcId) : Prop := ∃ l, p ∈ r.queue l

instance (p : ProcId) : Decidable (r.Linked p) := by unfold Linked; infer_instance

/-! ## Operations -/

/-- `prio_init`: every level is emptied; the fields of the processes are left alone. -/
def prioInit : RunQueue :=
  { r with q := fun _ => ⟨none, none⟩, highestNonempty := -1, relinked := false }

/-- The body of `rq_push_tail` once `&runq.q[prio]` is known to be a level. -/
def pushAt (l : Level) (p : ProcId) : RunQueue :=
  let r := { r with relinked := r.relinked || decide (r.Linked p) }
  let r := r.setNext p none
  let r := match (r.q l).tail with
    | some t => (r.setNext t (some p)).setQ l ⟨(r.q l).head, some p⟩
    | none => r.setQ l ⟨some p, some p⟩
  if r.highestNonempty < 0 ∨ (l : ℤ) < r.highestNonempty then
    { r with highestNonempty := l }
  else r

def rqPushTail (prio : ℤ) (p : ProcId) : Option RunQueue :=
  (level? prio).map fun l => r.pushAt l p

/-- What `rq_remove` does when `cur` is the process it looks for. -/
def unlinkAt (l : Level) (prev : Option ProcId) (cur : ProcId) : RunQueue :=
  let r := match prev with
    | some pv => r.setNext pv (r.rqNext cur)
    | none => r.setQ l ⟨r.rqNext cur, (r.q l).tail⟩
  let r := if (r.q l).tail = some cur then r.setQ l ⟨(r.q l).head, prev⟩ else r
  r.setNext cur none

/-- The `while (cur)` loop of `rq_remove`, with a bound on the number of iterations. -/
def removeLoop (l : Level) (p : ProcId) : ℕ → Option ProcId → Option ProcId → Option RunQueue
  | 0, _, _ => none
  | _ + 1, _, none => some r
  | fuel + 1, prev, some cur =>
    if cur = p then some (r.unlinkAt l prev cur)
    else removeLoop l p fuel (some cur) (r.rqNext cur)

/-- The scan of `rq_remove` for the first non-empty level, `-1` if there is none. -/
def firstNonempty : ℤ :=
  match (List.finRange NPRIO).find? fun i => (r.q i).head.isSome with
  | some i => i
  | none => -1

/-- The end of `rq_remove`: the cached level is recomputed when the level it names ran dry. -/
def refreshHighest (l : Level) : RunQueue :=
  if (r.q l).head = none ∧ r.highestNonempty = l then
    { r with highestNonempty := r.firstNonempty }
  else r

def rqRemove (prio : ℤ) (p : ProcId) : Option RunQueue := do
  let l ← level? prio
  let r ← r.removeLoop l p (NPROC + 1) none (r.q l).head
  some (r.refreshHighest l)

/-- `prio_enqueue(p)`, up to its test for preemption. -/
def prioEnqueue (p : ProcId) : Option RunQueue :=
  (r.setWait p 0).rqPushTail (r.prio p) p

def prioDequeue (p : ProcId) : Option RunQueue := r.rqRemove (r.prio p) p

/-- `prio_pick_next()`: the process it returns, and the queue without it. -/
def prioPickNext : Option (Option ProcId × RunQueue) :=
  if r.highestNonempty < 0 then some (none, r)
  else do
    let l ← level? r.highestNonempty
    match (r.q l).head with
    | none => some (none, r)
    | some p => do
      let r ← r.rqRemove r.highestNonempty p
      some (some p, r)

/-- The `while (cur)` loop of `prio_on_tick` over level `l`, with a bound on the iterations. -/
def tickLoop (l : Level) : ℕ → Option ProcId → RunQueue → Option RunQueue
  | 0, _, _ => none
  | _ + 1, none, r => some r
  | fuel + 1, some cur, r =>
    let r := r.setWait cur (r.waitTicks cur + 1)
    if agingTicks ≤ r.waitTicks cur ∧ prioMin < r.prio cur then do
      -- the successor is saved before the promotion relinks `cur`
      let next := r.rqNext cur
      let r ← r.rqRemove l cur
      let r := (r.setPrio cur (r.prio cur - 1)).setWait cur 0
      let r ← r.rqPushTail (r.prio cur) cur
      tickLoop l fuel next r
    else tickLoop l fuel (r.rqNext cur) r

/-- `prio_on_tick()`: one round of aging over all levels, highest priority first. -/
def prioOnTick : Option RunQueue :=
  (List.finRange NPRIO).foldlM (fun r l => tickLoop l (NPROC + 1) (r.q l).head r) r

def prioHighestNonempty : ℤ := r.highestNonempty

def prioShouldPreempt (curPrio : ℤ) : Bool :=
  let h := r.prioHighestNonempty
  if h < 0 then false else decide (h ≤ curPrio)

end RunQueue

end Xv6
