import Xv6.RunQueueProof
import Xv6.Kernel.Functions

/-!
# The kernel as a transition system

**Events.** Either the running thread executes its next statement (`exec`), or an interrupt is
taken, which is possible exactly when `SIE` is set, or user code traps, or kernel code outside
the model chooses what to do next. Statements that run with interrupts disabled from beginning
to end are one step; wherever the code leaves interrupts enabled, a step ends. In particular the
points `schedule` and `scheduleOff` of a process that has released its lock in `sleep` or `exit`
are states in which an interrupt can be taken.

**Failure.** `none` means that the event cannot happen in the state, or that the kernel panics;
`Xv6.Kernel.Progress` shows that no statement fails for another reason.

**Boot.** `boot` runs `userinit` and `scheduler` of the first CPU with interrupts disabled, up
to the switch to the idle process.
-/

open Transition

namespace Xv6

open Guarded

/-- The events of a run. The argument of `exec` says whether the memory allocation or the copy
to user space in the statement succeeds. -/
inductive Event
  | exec (ok : Bool)
  | interrupt (t : Trap)
  | trap (t : Trap)
  | acquire (l : Lock)
  | release (l : Lock)
  | sleep (chan : Chan) (lk : Lock)
  | wakeup (chan : Chan)
  | leave
  | fork
  | exit (status : ℤ)
  | wait
  | kill (pid : ℤ)
  deriving DecidableEq, Repr

/-- Timer and device interrupts, as opposed to system calls and exceptions. -/
def Trap.isInterrupt : Trap → Bool
  | .timer => true
  | .device _ => true
  | _ => false

namespace Kernel

/-- Call `yield`, with `c` left to do afterwards. -/
def callYield (k : Kernel) (c : List Point) : Kernel := k.goto (.yield :: .ret k.ctl.snap :: c)

/-! ## Traps -/

/-- `usertrap` for process `p`, up to its second test of `killed(p)`. -/
def usertrap (p : ProcId) (c : List Point) (k : Kernel) : Trap → Option Kernel
  | .ecall => do
    let k ← killed p k
    if (k.data.proc p).killed then some (k.goto (.exit (-1) :: c))
    else some ((k.setIrq k.ctl.intrOn).goto (.syscall :: .usertrapTail 0 :: c))
  | .fault => do
    let k ← setkilled p k
    some (k.goto (.usertrapTail 0 :: c))
  | t => do
    let (whichDev, k) ← devintr t k
    some (k.goto (.usertrapTail whichDev :: c))

/-- The end of `usertrap`: exit if killed; on a timer interrupt, aging and the preemption
tests. -/
def usertrapTail (p : ProcId) (whichDev : ℕ) (c : List Point) (k : Kernel) : Option Kernel := do
  let k ← killed p k
  if (k.data.proc p).killed then some (k.goto (.exit (-1) :: c))
  else if whichDev = 2 then do
    let k ← prioOnTick k
    if (k.data.proc p).state = .running then
      if k.data.preemptPending then
        some ((k.onSys fun d => { d with preemptPending := false }).callYield
          (.usertrapRet whichDev :: c))
      else do
        let k ← prioHighestNonempty k
        if k.data.rq.prioShouldPreempt (k.data.rq.prio p) then
          some (k.callYield (.usertrapRet whichDev :: c))
        else some (k.goto (.usertrapRet whichDev :: c))
    else some (k.goto (.usertrapRet whichDev :: c))
  else some (k.goto (.usertrapRet whichDev :: c))

/-- `kerneltrap` while `p` is the current process, up to the call of `yield` if there is one. -/
def kerneltrap (p : ProcId) (t : Trap) (c : List Point) (k : Kernel) : Option Kernel := do
  let (whichDev, k) ← devintr t k
  if whichDev = 0 then none        -- panic("kerneltrap")
  else if whichDev = 2 then do
    let k ← prioOnTick k
    let k ← prioHighestNonempty k
    if k.data.rq.prioShouldPreempt (k.data.rq.prio p) then
      some (k.callYield (.kerneltrapRet whichDev :: c))
    else some (k.goto (.kerneltrapRet whichDev :: c))
  else some (k.goto (.kerneltrapRet whichDev :: c))

/-! ## System calls of `proc.c` -/

/-- `fork` at slot `i` of the search for a free one. -/
def fork (p : ProcId) (i : ℕ) (ok : Bool) (c : List Point) (k : Kernel) : Option Kernel :=
  if h : i < NPROC then do
    let k' ← forkAt ⟨i, h⟩ ok k
    if (k.data.proc ⟨i, h⟩).state = .unused then
      if ok then some (k'.goto (.forkParent ⟨i, h⟩ :: c))
      else some (k'.onSys (·.retVal p (-1) c))
    else some (k'.goto (.fork (i + 1) :: c))
  else some (k.onSys (·.retVal p (-1) c))

def kill (p : ProcId) (pid : ℤ) (i : ℕ) (c : List Point) (k : Kernel) : Option Kernel :=
  if h : i < NPROC then do
    let k' ← killAt pid ⟨i, h⟩ k
    if (k.data.proc ⟨i, h⟩).pid = pid then some (k'.onSys (·.retVal p 0 c))
    else some (k'.goto (.kill pid (i + 1) :: c))
  else some (k.onSys (·.retVal p (-1) c))

/-- One round of the `for(;;)` loop of `wait`, with `wait_lock` held. -/
def waitScan (p : ProcId) (ok : Bool) (c : List Point) (k : Kernel) : Option Kernel := do
  let k ← scan p k
  match k.data.zombieChild p with
  | some pp => do
    let k ← reap pp p ok k
    some (k.goto c)
  | none =>
    if k.data.haveKids p then do
      let k ← killed p k
      if (k.data.proc p).killed then do
        let k ← waitFail p k
        some (k.goto c)
      else some (k.goto (.sleep (.proc p) .waitLock :: .ret k.ctl.snap :: .waitScan :: c))
    else do
      let k ← waitFail p k
      some (k.goto c)

/-! ## One statement of the running thread -/

/-- The running thread, of the current process `p`, executes the statement at a point and has
`c` left to do. -/
def exec (ok : Bool) (p : ProcId) (c : List Point) (k : Kernel) : Point → Option Kernel
  | .usertrap t => usertrap p c k t
  | .usertrapTail whichDev => usertrapTail p whichDev c k
  -- usertrapret: `intr_off`, then `sret` with `SPIE` set
  | .usertrapRet _ => some ((k.setIrq k.ctl.intrOn).goto c)
  | .forkret =>
    if k.data.first then some (k.goto (.kcode :: .forkretDone :: .usertrapRet 0 :: c))
    else some (k.goto (.usertrapRet 0 :: c))
  | .forkretDone => some ((k.onSys fun d => { d with first := false }).goto c)
  | .fork i => fork p i ok c k
  | .forkParent np => do
    let k ← forkParent np p k
    some (k.goto (.forkRun np :: c))
  | .forkRun np => do
    let k ← forkRun np p k
    some (k.onSys fun d => d.retVal p (d.proc np).pid c)
  | .exit status =>
    if k.data.initproc = some p then none        -- panic("init exiting")
    else some (k.goto (.kcode :: .exitTail status :: c))
  | .exitTail status => do
    let k ← exitBlock status p k
    some (k.goto [.schedule, .zombieExit])
  | .wait => do
    let k ← acquire .waitLock k
    some (k.goto (.waitScan :: c))
  | .waitScan => waitScan p ok c k
  | .kill pid i => kill p pid i c k
  | .sleep chan lk => do
    let k ← sleepBlock chan lk p k
    some (k.goto (.schedule :: .sleepWake lk :: c))
  | .sleepWake lk => do
    let k ← sleepWake p k
    some (k.goto (.sleepLock lk :: c))
  | .sleepLock lk => do
    let k ← acquire lk k
    some (k.goto c)
  | .yield => do
    let k ← yieldBlock p k
    some (k.goto (.schedule :: c))
  | .schedule => some (k.goto (.scheduleOff k.ctl.sie :: c))
  | .scheduleOff intena => some ((k.setIrq k.ctl.intrOff).goto (.schedulePick intena :: c))
  | .schedulePick intena => do
    let k ← pickLoop (NPROC + 1) k
    let next ← k.data.cur
    if k.data.run = next then some (k.goto (.scheduleEnd intena :: c))
    else some (k.goto (.swtch next intena :: c))
  | .swtch next intena =>
    some ((k.goto (.scheduleEnd intena :: c)).onSys fun d => { d with run := next })
  | .scheduleEnd intena => some ((if intena then k.setIrq k.ctl.intrOn else k).goto c)
  | .ret _ => some (k.goto c)
  | .kerneltrap t => kerneltrap p t c k
  -- `w_sstatus(sstatus)`, then `sret` to code that ran with interrupts enabled
  | .kerneltrapRet _ => some ((k.setIrq k.ctl.intrOn).goto c)
  | .idleMain => some ((k.setIrq k.ctl.intrOn).goto (.schedule :: .idleMain :: c))
  -- user code and code outside the model move by their own events; `zombieExit` panics
  | .user => none
  | .syscall => none
  | .kcode => none
  | .zombieExit => none

/-! ## Kernel code outside the model -/

/-- What kernel code outside the model does next; `pt` is `syscall` or `kcode`, and only the
system call dispatcher calls the functions of `proc.c` that are system calls. -/
def client (k : Kernel) (pt : Point) (c : List Point) : Event → Option Kernel
  | .acquire l => if l.isClient then acquire l k else none
  | .release l => if l.isClient then release l k else none
  | .sleep chan lk =>
    if k.ctl.held = [lk] then some (k.goto (.sleep chan lk :: .ret k.ctl.snap :: pt :: c))
    else none
  | .wakeup chan => if k.ctl.held = [] then none else wakeup chan k
  | .leave => if k.ctl.held = [] then some (k.goto c) else none
  | .fork => if pt = .syscall ∧ k.ctl.held = [] then some (k.goto (.fork 0 :: pt :: c)) else none
  | .exit status =>
    if pt = .syscall ∧ k.ctl.held = [] then some (k.goto (.exit status :: pt :: c)) else none
  | .wait => if pt = .syscall ∧ k.ctl.held = [] then some (k.goto (.wait :: pt :: c)) else none
  | .kill pid =>
    if pt = .syscall ∧ k.ctl.held = [] then some (k.goto (.kill pid 0 :: pt :: c)) else none
  | _ => none

/-- The hardware takes a trap: interrupts are disabled and control goes to `usertrap` or
`kerneltrap`. -/
def enterTrap (t : Trap) (k : Kernel) : Kernel :=
  match k.data.here with
  | .user :: c => (k.setIrq k.ctl.intrOff).goto (.usertrap t :: .user :: c)
  | c => (k.setIrq k.ctl.intrOff).goto (.kerneltrap t :: c)

/-- **The transition function.** -/
def step (e : Event) (k : Kernel) : Option Kernel :=
  match e, k.data.here with
  | .interrupt t, _ => if k.ctl.sie ∧ t.isInterrupt then some (enterTrap t k) else none
  | .trap t, .user :: _ => if t.isInterrupt then none else some (enterTrap t k)
  | .exec ok, pt :: c => do
    let p ← k.data.cur
    exec ok p c k pt
  | e, .syscall :: c => client k .syscall c e
  | e, .kcode :: c => client k .kcode c e
  | _, _ => none

/-! ## Boot -/

/-- The machine when `main` calls `userinit`: `procinit` has run, interrupts are off. -/
def procinit : Kernel :=
  ⟨⟨0, false, false, []⟩,
    { proc := fun _ => {}
      rq := RunQueue.zero.prioInit
      cur := none
      idleproc := none
      preemptPending := false
      initproc := none
      nextpid := 1
      first := true
      code := fun _ => []
      run := 0
      pickedAgain := false }⟩

/-- The search of `allocproc`; returns with the lock of the slot held. -/
def allocproc : List ProcId → Kernel → Option (ProcId × Kernel)
  | [], _ => none
  | i :: is, k => do
    let k ← acquire (.proc i) k
    if (k.data.proc i).state = .unused then do
      let k ← withLock .pidLock (onData fun d => some (d.allocpid i)) k
      some (i, k.onSys fun d => (d.allocFields i).newContext i)
    else do
      let k ← release (.proc i) k
      allocproc is k

def userinit (k : Kernel) : Option Kernel := do
  let (p, k) ← allocproc (List.finRange NPROC) k
  let k := k.onSys fun d => { d.setState p .runnable with initproc := some p }
  let k ← prioEnqueue p k
  release (.proc p) k

def allocIdleproc : List ProcId → Kernel → Option (ProcId × Kernel)
  | [], _ => none                  -- panic("alloc_idleproc: no free proc")
  | i :: is, k => do
    let k ← acquire (.proc i) k
    if (k.data.proc i).state = .unused then do
      let k := k.onSys fun d =>
        { d.modProc i fun x => { x with pid := 0, state := .runnable } with
          rq := ((d.rq.setPrio i prioMax).setWait i 0).setNext i none
          code := Function.update d.code i [.idleMain] }
      let k ← release (.proc i) k
      some (i, k)
    else do
      let k ← release (.proc i) k
      allocIdleproc is k

/-- `scheduler()`: start the idle process. -/
def scheduler (k : Kernel) : Option Kernel := do
  let (idle, k) ← allocIdleproc (List.finRange NPROC)
    (k.onSys fun d => { d with cur := none, preemptPending := false })
  some (k.onSys fun d => { d with idleproc := some idle, cur := some idle, run := idle })

/-- The machine when the first CPU switches to its idle process. -/
def boot : Option Kernel := do
  let k ← userinit procinit
  scheduler k

/-! ## Runs -/

/-- `k` is reached from boot by events that satisfy `ok`. -/
def ReachableBy (ok : Event → Kernel → Prop) (k : Kernel) : Prop :=
  ∃ k₀, boot = some k₀ ∧ Reaches step ok k₀ k

def Reachable (k : Kernel) : Prop := ReachableBy anyEvent k

/-- Boot, then the events of a list, as long as they satisfy `ok`. -/
def bootRun (ok : Event → Kernel → Prop) [∀ e k, Decidable (ok e k)] (es : List Event) :
    Option Kernel := boot.bind (run step ok es)

/-- A run that ends in a state where `P` holds gives a reachable one. -/
theorem reachable_of_run {ok : Event → Kernel → Prop} [∀ e k, Decidable (ok e k)]
    {es : List Event} {P : Kernel → Prop} [DecidablePred P]
    (h : (bootRun ok es).any (fun k => decide (P k)) = true) : ∃ k, ReachableBy ok k ∧ P k := by
  cases hb : boot with
  | none => simp [bootRun, hb] at h
  | some k0 =>
    rw [bootRun, hb, Option.bind_some] at h
    obtain ⟨k, hr, hp⟩ := exists_reaches_of_run h
    exact ⟨k, ⟨k0, hb, hr⟩, hp⟩

end Kernel

end Xv6
