import Xv6.Kernel.State

/-!
# The functions of `proc.c` and `trap.c`

Each definition is a stretch of a source function that runs with interrupts disabled (because a
spinlock is held, or because a trap handler or `schedule` has disabled them), with its locks.
How the stretches follow one another, and where interrupts can come between them, is in
`Xv6.Kernel.Step`.
-/

namespace Xv6

open Guarded

/-! ## Accesses to the data inside critical sections -/

namespace Sys

variable (d : Sys)

/-- `prio_enqueue` between `acquire` and `release`. -/
def rqEnqueue (p : ProcId) : Option Sys := (d.rq.prioEnqueue p).map fun rq => { d with rq }

/-- The end of `prio_enqueue`: ask the current process to make room. -/
def notePreempt (p : ProcId) : Sys :=
  match d.cur with
  | some c =>
    if (d.proc c).state = .running ∧ d.rq.prio p < d.rq.prio c then
      { d with preemptPending := true }
    else d
  | none => d

def rqDequeue (p : ProcId) : Option Sys := (d.rq.prioDequeue p).map fun rq => { d with rq }

def rqOnTick : Option Sys := d.rq.prioOnTick.map fun rq => { d with rq }

/-- `p->state = RUNNABLE; p->wait_ticks = 0;` -/
def markRunnable (p : ProcId) : Sys := { d.setState p .runnable with rq := d.rq.setWait p 0 }

/-- `allocpid()` between `acquire` and `release`. -/
def allocpid (p : ProcId) : Sys :=
  { d.modProc p fun x => { x with pid := d.nextpid } with nextpid := d.nextpid + 1 }

/-- The fields `allocproc` sets in the slot it found. -/
def allocFields (p : ProcId) : Sys :=
  { d.setState p .used with
    rq := ((d.rq.setPrio p prioDefault).setWait p 0).setNext p none }

/-- A new process starts in `forkret`; its system call returns `0`. -/
def newContext (p : ProcId) : Sys :=
  { d.modProc p fun x => { x with a0 := 0 } with
    code := Function.update d.code p [.forkret, .user] }

def freeproc (p : ProcId) : Sys :=
  d.modProc p fun x =>
    { x with pid := 0, parent := none, chan := .null, killed := false, xstate := 0,
             state := .unused }

/-- The child that `wait`'s scan of the table stops at. -/
def zombieChild (p : ProcId) : Option ProcId :=
  (List.finRange NPROC).find? fun pp =>
    decide ((d.proc pp).parent = some p ∧ (d.proc pp).state = .zombie)

/-- `havekids` after a complete scan. -/
def haveKids (p : ProcId) : Bool :=
  (List.finRange NPROC).any fun pp => decide ((d.proc pp).parent = some p)

/-- What `schedule` sets when it picks the runnable process `q`. -/
def pick (q : ProcId) : Sys :=
  { d.setState q .running with rq := d.rq.setWait q 0, cur := some q }

end Sys

namespace Kernel

/-! ## The run queue under its lock -/

def prioEnqueue (p : ProcId) (k : Kernel) : Option Kernel := do
  let k ← withLock .runq (onData (Sys.rqEnqueue · p)) k
  onData (fun d => some (d.notePreempt p)) k

def prioDequeue (p : ProcId) : Kernel → Option Kernel :=
  withLock .runq (onData (Sys.rqDequeue · p))

def prioOnTick : Kernel → Option Kernel := withLock .runq (onData Sys.rqOnTick)

/-- The critical section of `prio_highest_nonempty`, which only reads. -/
def prioHighestNonempty : Kernel → Option Kernel := withLock .runq some

/-- `p->state = RUNNABLE; p->wait_ticks = 0; prio_enqueue(p);` as `yield`, `wakeup` and `kill`
have it. -/
def makeRunnable (p : ProcId) (k : Kernel) : Option Kernel := do
  let k ← onData (fun d => some (d.markRunnable p)) k
  prioEnqueue p k

/-! ## `sleep`, `wakeup`, `yield`, `kill` -/

def wakeOne (chan : Chan) (k : Kernel) (p : ProcId) : Option Kernel :=
  if k.data.cur ≠ some p then
    withLock (.proc p) (fun k =>
      if (k.data.proc p).state = .sleeping ∧ (k.data.proc p).chan = chan then makeRunnable p k
      else some k) k
  else some k

/-- `wakeup(chan)`. Every caller holds a spinlock, so no interrupt comes between two
iterations. -/
def wakeup (chan : Chan) (k : Kernel) : Option Kernel :=
  (List.finRange NPROC).foldlM (wakeOne chan) k

/-- `if(p->state == RUNNABLE) prio_dequeue(p);` -/
def dequeueRunnable (p : ProcId) (k : Kernel) : Option Kernel :=
  if (k.data.proc p).state = .runnable then prioDequeue p k else some k

/-- `sleep` from its call to `release(&p->lock)`. -/
def sleepBlock (chan : Chan) (lk : Lock) (p : ProcId) (k : Kernel) : Option Kernel := do
  let k ← acquire (.proc p) k
  let k ← release lk k
  let k ← onData (fun d => some (d.modProc p fun x => { x with chan := chan })) k
  let k ← dequeueRunnable p k
  let k ← onData (fun d => some (d.setState p .sleeping)) k
  release (.proc p) k

/-- `sleep` after `schedule` returns: clear the channel. -/
def sleepWake (p : ProcId) : Kernel → Option Kernel :=
  withLock (.proc p) (onData fun d => some (d.modProc p fun x => { x with chan := .null }))

/-- `yield` up to `release(&p->lock)`. -/
def yieldBlock (p : ProcId) : Kernel → Option Kernel := withLock (.proc p) (makeRunnable p)

/-- One iteration of `kill(pid)`, on slot `i`. -/
def killAt (pid : ℤ) (i : ProcId) : Kernel → Option Kernel :=
  withLock (.proc i) fun k =>
    if (k.data.proc i).pid = pid then do
      let k ← onData (fun d => some (d.modProc i fun x => { x with killed := true })) k
      if (k.data.proc i).state = .sleeping then makeRunnable i k else some k
    else some k

def setkilled (p : ProcId) : Kernel → Option Kernel :=
  withLock (.proc p) (onData fun d => some (d.modProc p fun x => { x with killed := true }))

/-- The critical section of `killed(p)`, which only reads. -/
def killed (p : ProcId) : Kernel → Option Kernel := withLock (.proc p) some

/-! ## `fork` -/

/-- One iteration of `allocproc`'s search, on slot `i`, and if the slot is free what `fork` does
until it releases `np->lock`. Without memory (`ok = false`) the slot is freed again. -/
def forkAt (i : ProcId) (ok : Bool) : Kernel → Option Kernel :=
  withLock (.proc i) fun k =>
    if (k.data.proc i).state = .unused then do
      let k ← withLock .pidLock (onData fun d => some (d.allocpid i)) k
      let k ← onData (fun d => some (d.allocFields i)) k
      if ok then onData (fun d => some (d.newContext i)) k
      else onData (fun d => some (d.freeproc i)) k
    else some k

def forkParent (np p : ProcId) : Kernel → Option Kernel :=
  withLock .waitLock (onData fun d => some (d.modProc np fun x => { x with parent := some p }))

/-- The last critical section of `fork`: the child becomes runnable at its parent's priority. -/
def forkRun (np p : ProcId) : Kernel → Option Kernel :=
  withLock (.proc np) fun k => do
    let k ← onData (fun d => some { d.setState np .runnable with
      rq := (d.rq.setPrio np (d.rq.prio p)).setWait np 0 }) k
    prioEnqueue np k

/-! ## `exit` and `wait` -/

def reparentOne (p : ProcId) (k : Kernel) (pp : ProcId) : Option Kernel :=
  if (k.data.proc pp).parent = some p then do
    let k ← onData (fun d => some (d.modProc pp fun x => { x with parent := d.initproc })) k
    wakeup (.ofProc k.data.initproc) k
  else some k

def reparent (p : ProcId) (k : Kernel) : Option Kernel :=
  (List.finRange NPROC).foldlM (reparentOne p) k

/-- `exit(status)` from `acquire(&wait_lock)` to `release(&p->lock)`. -/
def exitBlock (status : ℤ) (p : ProcId) (k : Kernel) : Option Kernel := do
  let k ← acquire .waitLock k
  let k ← reparent p k
  let k ← wakeup (.ofProc (k.data.proc p).parent) k
  let k ← acquire (.proc p) k
  let k ← onData (fun d => some (d.modProc p fun x =>
    { x with xstate := status, state := .zombie })) k
  let k ← release .waitLock k
  release (.proc p) k

/-- `wait`'s look at a child that is not a zombie. -/
def scanOne (p : ProcId) (k : Kernel) (pp : ProcId) : Option Kernel :=
  if (k.data.proc pp).parent = some p then withLock (.proc pp) some k else some k

/-- `wait`'s scan up to the first zombie child. -/
def scan (p : ProcId) (k : Kernel) : Option Kernel :=
  ((List.finRange NPROC).takeWhile fun pp => decide (k.data.zombieChild p ≠ some pp)).foldlM
    (scanOne p) k

/-- `wait` with a zombie child `pp`: return its pid, or `-1` if the status cannot be copied
out. -/
def reap (pp p : ProcId) (ok : Bool) (k : Kernel) : Option Kernel := do
  let k ← withLock (.proc pp) (onData fun d => some
    (if ok then (d.modProc p fun x => { x with a0 := (d.proc pp).pid }).freeproc pp
      else d.modProc p fun x => { x with a0 := -1 })) k
  release .waitLock k

/-- `wait` without children, or killed. -/
def waitFail (p : ProcId) (k : Kernel) : Option Kernel := do
  let k ← onData (fun d => some (d.modProc p fun x => { x with a0 := -1 })) k
  release .waitLock k

/-! ## `schedule` -/

/-- The loop of `schedule` that picks the next process, up to `c->proc = next`, with a bound on
the number of iterations. -/
def pickLoop : ℕ → Kernel → Option Kernel
  | 0, _ => none
  | n + 1, k => do
    let k ← acquire .runq k
    let (next, rq) ← k.data.rq.prioPickNext
    let k ← release .runq (k.onSys fun d => { d with rq })
    match next with
    | none => some (k.onSys fun d => { d with cur := d.idleproc })
    | some q =>
      if k.data.idleproc = some q then some (k.onSys fun d => { d with cur := some q })
      else do
        let k ← acquire (.proc q) k
        if (k.data.proc q).state = .runnable then release (.proc q) (k.onSys (·.pick q))
        else do
          let k ← release (.proc q) (k.onSys fun d => { d with pickedAgain := true })
          pickLoop n k

/-! ## Interrupt handlers -/

def clockintr : Kernel → Option Kernel := withLock .tickslock (wakeup .ticks)

/-- One wakeup of a device interrupt handler, under the lock of its driver. -/
def deviceWake (k : Kernel) (w : ℕ × Chan) : Option Kernel :=
  withLock (.other w.1) (wakeup w.2) k

/-- `devintr()`, and the value it returns; an interrupt it does not recognise gives `0`. -/
def devintr : Trap → Kernel → Option (ℕ × Kernel)
  | .timer, k => do some (2, ← clockintr k)
  | .device wakes, k => do some (1, ← wakes.foldlM deviceWake k)
  | _, k => some (0, k)

end Kernel

end Xv6
