import Xv6.Spinlock

/-!
# The kernel state of one CPU

The process table, the run queue, the per-CPU fields of `struct cpu` and, for every process,
the kernel code it still has to execute.

**Threads.** The kernel stack of a process is a list of program points (`Point`), innermost
first: the statement it executes next, then what its callers have left to do. Locals that live
across a statement are arguments of the point (`schedule`'s `intena`, the slot `fork` has
allocated). `swtch` leaves the list of the old process where it is and continues with that of
the new one, and a trap taken in kernel code puts the handler in front of the interrupted list,
as the hardware puts its frame on the same stack.

**Code outside the model.** Everything a process does in the kernel besides `proc.c` and
`trap.c` (files, pipes, the log, drivers) appears at the point `kcode` or `syscall`, where the
process may take and release spinlocks, sleep while holding exactly one, wake a channel while
holding one, and return when it holds none. User code is the point `user`.

**Ghost state.** `ret snap` marks the return of `sleep` and `yield`: it does nothing and
carries what the CPU's interrupt state was at the call. `pickedAgain` records that `schedule`
took its `pick again` branch. No code reads them.
-/

namespace Xv6

inductive ProcState
  | unused | used | sleeping | runnable | running | zombie
  deriving DecidableEq, Repr

/-- Sleep channels are addresses: of a process, of `ticks`, or of some other object. -/
inductive Chan
  | null
  | proc (p : ProcId)
  | ticks
  | obj (n : ℕ)
  deriving DecidableEq, Repr

/-- The address of a process as a channel; the null pointer is no process. -/
def Chan.ofProc : Option ProcId → Chan
  | some p => .proc p
  | none => .null

/-- `struct proc`, less the scheduling fields (they are in `RunQueue`), the memory and the files
of the process. `a0` is the result register of its trapframe. -/
structure Proc where
  state : ProcState := .unused
  chan : Chan := .null
  killed : Bool := false
  xstate : ℤ := 0
  pid : ℤ := 0
  parent : Option ProcId := none
  a0 : ℤ := 0
  deriving DecidableEq, Repr

/-- Why a trap was taken. `device wakes` is a device interrupt whose handler (`uartintr`,
`virtio_disk_intr`) wakes the given channels in this order, each while holding the given lock of
its driver. -/
inductive Trap
  | ecall
  | timer
  | device (wakes : List (ℕ × Chan))
  | fault
  deriving DecidableEq, Repr

/-- The interrupt state at a call. -/
structure Snap where
  noff : ℕ
  intena : Bool
  sie : Bool
  deriving DecidableEq, Repr

/-- Program points of a kernel thread. -/
inductive Point
  /- user mode, and `usertrap` -/
  | user
  | usertrap (t : Trap)
  | usertrapTail (whichDev : ℕ)
  | usertrapRet (whichDev : ℕ)
  /- kernel code outside the model -/
  | syscall
  | kcode
  /- process creation -/
  | forkret
  | forkretDone
  | fork (i : ℕ)
  | forkParent (np : ProcId)
  | forkRun (np : ProcId)
  /- `exit`, `wait`, `kill` -/
  | exit (status : ℤ)
  | exitTail (status : ℤ)
  | zombieExit
  | wait
  | waitScan
  | kill (pid : ℤ) (i : ℕ)
  /- giving up the CPU -/
  | sleep (chan : Chan) (lk : Lock)
  | sleepWake (lk : Lock)
  | sleepLock (lk : Lock)
  | yield
  | schedule
  | scheduleOff (intena : Bool)
  | schedulePick (intena : Bool)
  | swtch (next : ProcId) (intena : Bool)
  | scheduleEnd (intena : Bool)
  | ret (snap : Snap)
  /- traps taken in kernel code, and the idle loop -/
  | kerneltrap (t : Trap)
  | kerneltrapRet (whichDev : ℕ)
  | idleMain
  deriving DecidableEq, Repr

/-- The data of the kernel: everything but the interrupt state and the locks. -/
structure Sys where
  proc : ProcId → Proc
  rq : RunQueue
  /-- `mycpu()->proc` -/
  cur : Option ProcId
  idleproc : Option ProcId
  preemptPending : Bool
  initproc : Option ProcId
  nextpid : ℤ
  /-- `forkret`'s static variable -/
  first : Bool
  code : ProcId → List Point
  /-- the process on whose kernel stack the CPU executes -/
  run : ProcId
  pickedAgain : Bool

/-- The state of the machine. -/
abbrev Kernel := Guarded Irq Sys

namespace Sys

variable (d : Sys)

def modProc (p : ProcId) (f : Proc → Proc) : Sys :=
  { d with proc := Function.update d.proc p (f (d.proc p)) }

def setState (p : ProcId) (st : ProcState) : Sys := d.modProc p fun x => { x with state := st }

/-- What the running thread does next. -/
def here : List Point := d.code d.run

/-- Continue the running thread with `c`. -/
def goto (c : List Point) : Sys := { d with code := Function.update d.code d.run c }

/-- Return from a system call function with the value `v`. -/
def retVal (p : ProcId) (v : ℤ) (c : List Point) : Sys :=
  (d.modProc p fun x => { x with a0 := v }).goto c

end Sys

/-- The locks that code outside `proc.c` takes itself. -/
def Lock.isClient : Lock → Bool
  | .tickslock => true
  | .other _ => true
  | _ => false

/-- The interrupt state as `sleep` and `yield` find it. -/
def Irq.snap (i : Irq) : Snap := ⟨i.noff, i.intena, i.sie⟩

namespace Kernel

def acquire (l : Lock) : Kernel → Option Kernel := Guarded.onCtl (Irq.acquire l)

def release (l : Lock) : Kernel → Option Kernel := Guarded.onCtl (Irq.release l)

/-- A critical section: `acquire(lk)`, the body, `release(lk)`. -/
def withLock (l : Lock) (body : Kernel → Option Kernel) (k : Kernel) : Option Kernel := do
  let k ← acquire l k
  let k ← body k
  release l k

def setIrq (k : Kernel) (i : Irq) : Kernel := ⟨i, k.data⟩

def onSys (k : Kernel) (F : Sys → Sys) : Kernel := ⟨k.ctl, F k.data⟩

/-- Continue the running thread with `c`. -/
def goto (k : Kernel) (c : List Point) : Kernel := k.onSys (·.goto c)

end Kernel

end Xv6
