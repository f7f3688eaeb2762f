import Xv6.Kernel.Atomic

/-!
# The atomic machine

The kernel seen from its data: what one step does to the process table, the run queue and the
threads, with the locks and the interrupt state forgotten. `Sys.Step d e d'` lists every kind of
step once, with its event; `Xv6.Kernel.Discipline` shows that the kernel with locks takes no
others, and every invariant of the data is proved against this relation.

**Control flow** (`Jump`). The edges of the control-flow graph that leave the scheduling data
alone. They may come with changes to private fields of processes (`Quiet`): channel, kill flag,
exit status, parent, result register.
-/

open Function Option Transition

namespace Xv6

namespace Sys

/-! ## Frames -/

/-- The threads and the registers of the CPU are the same. -/
structure Frame (d d' : Sys) : Prop where
  code : d'.code = d.code
  run : d'.run = d.run
  cur : d'.cur = d.cur
  idleproc : d'.idleproc = d.idleproc
  initproc : d'.initproc = d.initproc

variable {d d' d'' : Sys} {p : ProcId}

theorem Frame.refl (d : Sys) : Frame d d := ⟨rfl, rfl, rfl, rfl, rfl⟩

theorem Frame.trans (h : Frame d d') (h' : Frame d' d'') : Frame d d'' :=
  ⟨h'.code.trans h.code, h'.run.trans h.run, h'.cur.trans h.cur, h'.idleproc.trans h.idleproc,
    h'.initproc.trans h.initproc⟩

theorem modProc_frame (d : Sys) (p : ProcId) (f : Proc → Proc) : Frame d (d.modProc p f) :=
  ⟨rfl, rfl, rfl, rfl, rfl⟩

theorem notePreempt_eq (d : Sys) (p : ProcId) :
    ∃ b, d.notePreempt p = { d with preemptPending := b } := by
  unfold notePreempt
  split
  · split_ifs
    exacts [⟨true, rfl⟩, ⟨d.preemptPending, rfl⟩]
  · exact ⟨d.preemptPending, rfl⟩

/-- `prio_enqueue` in one equation: the queue, and the preemption flag. -/
theorem prioEnqueue_eq (h : d.prioEnqueue p = some d') : ∃ rq b, d.rq.prioEnqueue p = some rq ∧
      d' = { d with rq, preemptPending := b } := by
  simp only [prioEnqueue, rqEnqueue, bind_eq_bind, bind_eq_some_iff,
    map_eq_some_iff, some.injEq] at h
  obtain ⟨d1, ⟨rq, hrq, rfl⟩, rfl⟩ := h
  obtain ⟨b, hb⟩ := notePreempt_eq { d with rq } p
  exact ⟨rq, b, hrq, hb⟩

theorem prioEnqueue_frame (h : d.prioEnqueue p = some d') : Frame d d' := by
  obtain ⟨rq, b, -, rfl⟩ := prioEnqueue_eq h
  exact ⟨rfl, rfl, rfl, rfl, rfl⟩

theorem makeRunnable_frame (h : d.makeRunnable p = some d') : Frame d d' := by
  have hmark : Frame d (d.markRunnable p) := ⟨rfl, rfl, rfl, rfl, rfl⟩
  exact hmark.trans (prioEnqueue_frame h)

theorem wakeOne_frame {chan : Chan} (h : wakeOne chan d p = some d') : Frame d d' := by
  unfold wakeOne at h
  split_ifs at h with h1 h2
  · exact makeRunnable_frame h
  all_goals obtain rfl := some.inj h; exact .refl d

theorem wakeup_frame {chan : Chan} (h : d.wakeup chan = some d') : Frame d d' :=
  foldlM_rel Frame.refl Frame.trans (fun _ _ _ => wakeOne_frame) _ _ _ h

theorem device_frame {wakes : List (ℕ × Chan)} (h : d.device wakes = some d') : Frame d d' :=
  foldlM_rel Frame.refl Frame.trans (fun _ _ _ => wakeup_frame) _ _ _ h

theorem devintr_timer {w : ℕ} (h : d.devintr .timer = some (w, d')) :
    w = 2 ∧ d.wakeup .ticks = some d' := by
  simp only [devintr, bind_eq_bind, bind_eq_some_iff, some.injEq, Prod.mk.injEq] at h
  obtain ⟨d1, h1, rfl, rfl⟩ := h
  exact ⟨rfl, h1⟩

theorem devintr_device {wakes : List (ℕ × Chan)} {w : ℕ}
    (h : d.devintr (.device wakes) = some (w, d')) : w = 1 ∧ d.device wakes = some d' := by
  simp only [devintr, bind_eq_bind, bind_eq_some_iff, some.injEq, Prod.mk.injEq] at h
  obtain ⟨d1, h1, rfl, rfl⟩ := h
  exact ⟨rfl, h1⟩

theorem devintr_frame {t : Trap} {w : ℕ} (h : d.devintr t = some (w, d')) : Frame d d' := by
  cases t with
  | ecall | fault => cases h; exact .refl d
  | timer => exact wakeup_frame (devintr_timer h).2
  | device wakes => exact device_frame (devintr_device h).2

theorem rqDequeue_frame (h : d.rqDequeue p = some d') : Frame d d' := by
  simp only [rqDequeue, map_eq_some_iff] at h
  obtain ⟨rq, -, rfl⟩ := h
  exact ⟨rfl, rfl, rfl, rfl, rfl⟩

theorem rqOnTick_frame (h : d.rqOnTick = some d') : Frame d d' := by
  simp only [rqOnTick, map_eq_some_iff] at h
  obtain ⟨rq, -, rfl⟩ := h
  exact ⟨rfl, rfl, rfl, rfl, rfl⟩

theorem sleepBlock_frame {chan : Chan} (h : d.sleepBlock chan p = some d') : Frame d d' := by
  simp only [sleepBlock, bind_eq_bind, bind_eq_some_iff, some.injEq] at h
  obtain ⟨d1, h1, rfl⟩ := h
  refine Frame.trans ?_ (modProc_frame d1 p _)
  unfold dequeueRunnable at h1
  split_ifs at h1
  · exact (modProc_frame d p _).trans (rqDequeue_frame h1)
  · cases h1
    exact modProc_frame d p _

theorem killAt_frame {pid : ℤ} (h : d.killAt pid p = some d') : Frame d d' := by
  simp only [killAt] at h
  split_ifs at h
  · exact (modProc_frame d p _).trans (makeRunnable_frame h)
  · cases h
    exact modProc_frame d p _
  · cases h
    exact .refl d

theorem forkRun_frame {np : ProcId} (h : d.forkRun np p = some d') : Frame d d' := by
  have hmark : Frame d (d.markChild np p) := ⟨rfl, rfl, rfl, rfl, rfl⟩
  exact hmark.trans (prioEnqueue_frame h)

theorem reparentOne_frame {pp : ProcId} (h : reparentOne p d pp = some d') : Frame d d' := by
  unfold reparentOne at h
  split_ifs at h
  · exact (modProc_frame d pp _).trans (wakeup_frame h)
  · cases h
    exact .refl d

theorem reparent_frame (h : d.reparent p = some d') : Frame d d' :=
  foldlM_rel Frame.refl Frame.trans (fun _ _ _ => reparentOne_frame) _ _ _ h

/-- `exit`'s critical section: its children go to `initproc`, its parent is woken, and it is a
zombie. -/
theorem exitBlock_eq {status : ℤ} (h : d.exitBlock status p = some d') :
    ∃ d1 d2, d.reparent p = some d1 ∧ d1.wakeup (.ofProc (d1.proc p).parent) = some d2 ∧
      d' = d2.markZombie status p := by
  simp only [exitBlock, bind_eq_bind, bind_eq_some_iff, some.injEq] at h
  obtain ⟨d1, h1, d2, h2, rfl⟩ := h
  exact ⟨d1, d2, h1, h2, rfl⟩

theorem exitBlock_frame {status : ℤ} (h : d.exitBlock status p = some d') : Frame d d' := by
  obtain ⟨d1, d2, h1, h2, rfl⟩ := exitBlock_eq h
  exact ((reparent_frame h1).trans (wakeup_frame h2)).trans (modProc_frame d2 p _)

/-- The thread of slot `j` starts afresh in `forkret`. -/
def writeContext (d : Sys) (j : ProcId) : Sys :=
  { d with code := update d.code j [.forkret, .user] }

/-- `allocproc` writes the first context of the slot it has found, and no other thread. -/
theorem forkAt_frame {j : ProcId} (hj : (d.proc j).state = .unused) :
    Frame (d.writeContext j) (d.forkAt j true) := by
  rw [forkAt, if_pos hj]
  exact ⟨rfl, rfl, rfl, rfl, rfl⟩

theorem forkAt_undo_frame {j : ProcId} : Frame d (d.forkAt j false) := by
  unfold forkAt
  split_ifs with h1 h2
  · cases h2
  all_goals exact ⟨rfl, rfl, rfl, rfl, rfl⟩

/-- Only private fields of processes, or flags, are different. -/
structure Quiet (d d' : Sys) : Prop extends Frame d d' where
  state : ∀ p, (d'.proc p).state = (d.proc p).state
  rq : d'.rq = d.rq
  pickedAgain : d'.pickedAgain = d.pickedAgain

theorem Quiet.refl (d : Sys) : Quiet d d := ⟨.refl d, fun _ => rfl, rfl, rfl⟩

section

variable (d : Sys) (p : ProcId)

theorem modProc_quiet {f : Proc → Proc} (h : ∀ x, (f x).state = x.state) :
    Quiet d (d.modProc p f) := by
  refine ⟨modProc_frame d p f, fun q => ?_, rfl, rfl⟩
  by_cases hq : q = p
  · subst hq; simp [modProc, h]
  · simp [modProc, hq]

theorem setRet_quiet (v : ℤ) : Quiet d (d.setRet p v) :=
  modProc_quiet d p (f := fun x => { x with a0 := v }) fun _ => rfl

theorem setKilled_quiet : Quiet d (d.setKilled p) :=
  modProc_quiet d p (f := fun x => { x with killed := true }) fun _ => rfl

theorem setChan_quiet (chan : Chan) : Quiet d (d.setChan p chan) :=
  modProc_quiet d p (f := fun x => { x with chan := chan }) fun _ => rfl

theorem setParent_quiet (q : Option ProcId) : Quiet d (d.setParent p q) :=
  modProc_quiet d p (f := fun x => { x with parent := q }) fun _ => rfl

end

/-! ## The running thread moves on -/

theorem here_goto (d : Sys) (c : List Point) : (d.goto c).here = c := update_self ..

theorem goto_here (d : Sys) : d.goto d.here = d := by
  rw [goto, here, update_eq_self]

theorem Frame.here (h : Frame d d') : d'.here = d.here := by
  rw [Sys.here, h.code, h.run]; rfl

theorem code_goto_of_ne {c : List Point} (h : p ≠ d.run) : (d.goto c).code p = d.code p :=
  update_of_ne h _ _

/-! ## Control flow -/

/-- `schedule` was called by `yield`, whose return mark comes next. -/
def ofYield : List Point → Bool
  | .ret _ :: _ => true
  | _ => false

/-- Points that are only executed with interrupts disabled. -/
def masked : List Point → Bool
  | .schedule :: c => ofYield c
  | .scheduleOff _ :: c => ofYield c
  | .schedulePick _ :: _ => true
  | .swtch _ _ :: _ => true
  | .scheduleEnd _ :: _ => true
  | .ret _ :: c => masked c
  | .kerneltrapRet _ :: _ => true
  | .usertrapRet whichDev :: _ => decide (whichDev = 2)
  | _ => false

/-- Kernel code outside the model. -/
def Outside (pt : Point) : Prop := pt = .syscall ∨ pt = .kcode

/-- The event takes the trap `t`. -/
def Enters (e : Event) (t : Trap) : Prop := e = .interrupt t ∨ e = .trap t

/-- The edges of the control-flow graph that do not schedule, with their events. -/
inductive Jump : Event → List Point → List Point → Prop
  /- traps -/
  | userTrap {e t} (c) : Enters e t → Jump e (.user :: c) (.usertrap t :: .user :: c)
  | kernelTrap {e t c} : Enters e t → masked c = false → Jump e c (.kerneltrap t :: c)
  | killedBefore {ok} (c) : Jump (.exec ok) (.usertrap .ecall :: c) (.exit (-1) :: c)
  | ecall {ok} (c) : Jump (.exec ok) (.usertrap .ecall :: c) (.syscall :: .usertrapTail 0 :: c)
  | fault {ok} (c) : Jump (.exec ok) (.usertrap .fault :: c) (.usertrapTail 0 :: c)
  | killedAfter {ok w} (c) : Jump (.exec ok) (.usertrapTail w :: c) (.exit (-1) :: c)
  | noTick {ok w} (c) : w ≠ 2 → Jump (.exec ok) (.usertrapTail w :: c) (.usertrapRet w :: c)
  | usertrapRet {ok w} (c) : Jump (.exec ok) (.usertrapRet w :: c) c
  | kerneltrapRet {ok w} (c) : Jump (.exec ok) (.kerneltrapRet w :: c) c
  /- process creation -/
  | forkretFirst {ok} (c) :
      Jump (.exec ok) (.forkret :: c) (.kcode :: .forkretDone :: .usertrapRet 0 :: c)
  | forkret {ok} (c) : Jump (.exec ok) (.forkret :: c) (.usertrapRet 0 :: c)
  | forkretDone {ok} (c) : Jump (.exec ok) (.forkretDone :: c) c
  | forkNext {ok i} (c) : Jump (.exec ok) (.fork i :: c) (.fork (i + 1) :: c)
  | forkFull {ok i} (c) : Jump (.exec ok) (.fork i :: c) c
  | forkParent {ok np} (c) : Jump (.exec ok) (.forkParent np :: c) (.forkRun np :: c)
  /- `exit`, `wait`, `kill` -/
  | exit {ok status} (c) : Jump (.exec ok) (.exit status :: c) (.kcode :: .exitTail status :: c)
  | wait {ok} (c) : Jump (.exec ok) (.wait :: c) (.waitScan :: c)
  | waitSleep {ok chan s} (c) :
      Jump (.exec ok) (.waitScan :: c) (.sleep chan .waitLock :: .ret s :: .waitScan :: c)
  | waitDone {ok} (c) : Jump (.exec ok) (.waitScan :: c) c
  | killNext {ok pid i} (c) : Jump (.exec ok) (.kill pid i :: c) (.kill pid (i + 1) :: c)
  | killNone {ok pid i} (c) : Jump (.exec ok) (.kill pid i :: c) c
  /- `sleep`, `yield`, `schedule` -/
  | sleepWake {ok lk} (c) : Jump (.exec ok) (.sleepWake lk :: c) (.sleepLock lk :: c)
  | sleepLock {ok lk} (c) : Jump (.exec ok) (.sleepLock lk :: c) c
  | schedule {ok i} (c) : Jump (.exec ok) (.schedule :: c) (.scheduleOff i :: c)
  | scheduleOff {ok i} (c) : Jump (.exec ok) (.scheduleOff i :: c) (.schedulePick i :: c)
  | scheduleEnd {ok i} (c) : Jump (.exec ok) (.scheduleEnd i :: c) c
  | ret {ok s} (c) : Jump (.exec ok) (.ret s :: c) c
  | idleMain {ok} (c) : Jump (.exec ok) (.idleMain :: c) (.schedule :: .idleMain :: c)
  /- kernel code outside the model -/
  | callSleep {pt chan lk s} (c) :
      Outside pt → Jump (.sleep chan lk) (pt :: c) (.sleep chan lk :: .ret s :: pt :: c)
  | leave {pt} (c) : Outside pt → Jump .leave (pt :: c) c
  | callFork (c) : Jump .fork (.syscall :: c) (.fork 0 :: .syscall :: c)
  | callExit {status} (c) : Jump (.exit status) (.syscall :: c) (.exit status :: .syscall :: c)
  | callWait (c) : Jump .wait (.syscall :: c) (.wait :: .syscall :: c)
  | callKill {pid} (c) : Jump (.kill pid) (.syscall :: c) (.kill pid 0 :: .syscall :: c)

/-! ## Steps -/

/-- What a timer tick does to the data: `clockintr`, then aging. -/
def tick (d : Sys) : Option Sys := (d.wakeup .ticks).bind rqOnTick

/-- **The steps of the machine.** -/
inductive Step (d : Sys) : Event → Sys → Prop
  | acquire {l} : Step d (.acquire l) d
  | release {l} : Step d (.release l) d
  | jump {e c d₁} : Jump e d.here c → Quiet d d₁ → Step d e (d₁.goto c)
  /- wakeups and ticks -/
  | wakeup {pt c chan d₁} :
      d.here = pt :: c → Outside pt → d.wakeup chan = some d₁ → Step d (.wakeup chan) d₁
  | usertrap {ok t c w d₁} :
      d.here = .usertrap t :: c → d.devintr t = some (w, d₁) →
      Step d (.exec ok) (d₁.goto (.usertrapTail w :: c))
  | usertrapYield {ok c s d₁ d₂} :
      d.here = .usertrapTail 2 :: c → d.rqOnTick = some d₁ → Quiet d₁ d₂ →
      Step d (.exec ok) (d₂.goto (.yield :: .ret s :: .usertrapRet 2 :: c))
  | usertrapStay {ok c d₁} :
      d.here = .usertrapTail 2 :: c → d.rqOnTick = some d₁ →
      ((d.proc d.run).state = .running →
        d₁.rq.prioShouldPreempt (d₁.rq.prio d.run) = false) →
      Step d (.exec ok) (d₁.goto (.usertrapRet 2 :: c))
  | kerneltrapDevice {ok wakes c d₁} :
      d.here = .kerneltrap (.device wakes) :: c → d.device wakes = some d₁ →
      Step d (.exec ok) (d₁.goto (.kerneltrapRet 1 :: c))
  | kerneltrapYield {ok c s d₁} :
      d.here = .kerneltrap .timer :: c → d.tick = some d₁ →
      d₁.rq.prioShouldPreempt (d₁.rq.prio d.run) = true →
      Step d (.exec ok) (d₁.goto (.yield :: .ret s :: .kerneltrapRet 2 :: c))
  | kerneltrapStay {ok c d₁} :
      d.here = .kerneltrap .timer :: c → d.tick = some d₁ →
      d₁.rq.prioShouldPreempt (d₁.rq.prio d.run) = false →
      Step d (.exec ok) (d₁.goto (.kerneltrapRet 2 :: c))
  | kill {ok pid i j c d₁ d₂} :
      d.here = .kill pid i :: c → d.killAt pid j = some d₁ → Quiet d₁ d₂ →
      Step d (.exec ok) (d₂.goto c)
  /- creation and destruction of processes -/
  | forkAlloc {i j c} :
      d.here = .fork i :: c → (d.proc j).state = .unused →
      Step d (.exec true) ((d.forkAt j true).goto (.forkParent j :: c))
  | forkUndo {i j c d₁} :
      d.here = .fork i :: c → (d.proc j).state = .unused → Quiet (d.forkAt j false) d₁ →
      Step d (.exec false) (d₁.goto c)
  | forkRun {ok np c d₁ d₂} :
      d.here = .forkRun np :: c → d.forkRun np d.run = some d₁ → Quiet d₁ d₂ →
      Step d (.exec ok) (d₂.goto c)
  | exit {ok status c d₁} :
      d.here = .exitTail status :: c → d.exitBlock status d.run = some d₁ →
      Step d (.exec ok) (d₁.goto [.schedule, .zombieExit])
  | reap {pp c} :
      d.here = .waitScan :: c → d.zombieChild d.run = some pp →
      Step d (.exec true) ((d.reap pp d.run true).goto c)
  /- giving up the CPU -/
  | sleep {ok chan lk c d₁} :
      d.here = .sleep chan lk :: c → d.sleepBlock chan d.run = some d₁ →
      Step d (.exec ok) (d₁.goto (.schedule :: .sleepWake lk :: c))
  | yield {ok c d₁} :
      d.here = .yield :: c → d.makeRunnable d.run = some d₁ →
      Step d (.exec ok) (d₁.goto (.schedule :: c))
  | pickSelf {ok i c d₁} :
      d.here = .schedulePick i :: c → d.pickLoop (NPROC + 1) = some d₁ → d₁.cur = some d.run →
      Step d (.exec ok) (d₁.goto (.scheduleEnd i :: c))
  | pickOther {ok i c d₁ next} :
      d.here = .schedulePick i :: c → d.pickLoop (NPROC + 1) = some d₁ → d₁.cur = some next →
      next ≠ d.run → Step d (.exec ok) (d₁.goto (.swtch next i :: c))
  | swtch {ok next i c} :
      d.here = .swtch next i :: c →
      Step d (.exec ok) { d.goto (.scheduleEnd i :: c) with run := next }

end Sys

end Xv6
