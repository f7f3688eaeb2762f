import Xv6.Kernel.Machine

/-!
# The exit/wait protocol

`fork`, `exit`, `wait` and `kill` on the process table, run by any number of processes on any
number of CPUs. Each critical section under `wait_lock` (or under one `p->lock` where `wait_lock`
is not held) is one step; between two of them any other process may step.

**Connection to the kernel model.** The sections are functions on the process table alone
(`Procs`). `Sys.exitBlock_proc` and its companions say that they are what the functions of
`Xv6.Kernel.Atomic` do to the table when the process that executes them is the current one; the
run queue plays no part in the protocol.

**Ghost state.** `origin` is the process that forked a slot's process, as long as it has not
exited; `exits` are the calls of `exit` so far, `reaps` the successful calls of `wait` with what
they returned. No code reads them.
-/

open Function List Option Transition

namespace Xv6

/-! ## The sections on the process table -/

abbrev Procs := ProcId → Proc

/-- A process that has been started and has not exited. -/
def ProcState.Live (s : ProcState) : Prop := s = .sleeping ∨ s = .runnable ∨ s = .running

instance : DecidablePred ProcState.Live := fun _ => inferInstanceAs (Decidable (_ ∨ _))

namespace Procs

variable (procs : Procs)

/-- One iteration of `wakeup(chan)`, called by `me`. -/
def wakeOne (me : ProcId) (chan : Chan) (procs : Procs) (p : ProcId) : Procs :=
  if p ≠ me ∧ (procs p).state = .sleeping ∧ (procs p).chan = chan then
    update procs p { procs p with state := .runnable }
  else procs

def wakeup (me : ProcId) (chan : Chan) : Procs :=
  (finRange NPROC).foldl (wakeOne me chan) procs

/-- One iteration of `reparent(p)`, called by `p`. -/
def reparentOne (initproc p : ProcId) (procs : Procs) (pp : ProcId) : Procs :=
  if (procs pp).parent = some p then
    wakeup (update procs pp { procs pp with parent := some initproc }) p (.proc initproc)
  else procs

def reparent (initproc p : ProcId) : Procs :=
  (finRange NPROC).foldl (reparentOne initproc p) procs

/-- `exit(status)` from `acquire(&wait_lock)` on. -/
def exit (initproc : ProcId) (status : ℤ) (p : ProcId) : Procs :=
  let procs := reparent procs initproc p
  let procs := wakeup procs p (.ofProc (procs p).parent)
  update procs p { procs p with xstate := status, state := .zombie }

def freeproc (p : ProcId) : Procs :=
  update procs p { procs p with
    pid := 0, parent := none, chan := .null, killed := false, xstate := 0, state := .unused }

/-- Return from a system call function with the value `v`. -/
def setRet (p : ProcId) (v : ℤ) : Procs := update procs p { procs p with a0 := v }

/-- The child that `wait`'s scan of the table stops at. -/
def zombieChild (p : ProcId) : Option ProcId :=
  (finRange NPROC).find? fun pp =>
    decide ((procs pp).parent = some p ∧ (procs pp).state = .zombie)

/-- `havekids` after a complete scan. -/
def haveKids (p : ProcId) : Bool :=
  (finRange NPROC).any fun pp => decide ((procs pp).parent = some p)

/-- `wait` with a zombie child `pp`: return its pid, or `-1` if the status cannot be copied
out. -/
def reap (pp p : ProcId) (ok : Bool) : Procs :=
  if ok then freeproc (setRet procs p (procs pp).pid) pp else setRet procs p (-1)

/-- `sleep(chan, lk)` up to the release of `p->lock`. -/
def sleep (p : ProcId) (chan : Chan) : Procs :=
  update procs p { procs p with chan := chan, state := .sleeping }

/-- One iteration of `kill(pid)`, on slot `i`. -/
def killAt (pid : ℤ) (i : ProcId) : Procs :=
  if (procs i).pid = pid then
    update procs i { procs i with
      killed := true
      state := if (procs i).state = .sleeping then .runnable else (procs i).state }
  else procs

/-- `allocproc` on the free slot `i`, and what `fork` does until it releases `np->lock`. Without
memory the slot is freed again. -/
def forkAt (pid : ℤ) (i : ProcId) (ok : Bool) : Procs :=
  let procs := update procs i { procs i with pid := pid, state := .used }
  if ok then update procs i { procs i with a0 := 0 } else freeproc procs i

def setState (p : ProcId) (st : ProcState) : Procs :=
  update procs p { procs p with state := st }

def setParent (np p : ProcId) : Procs :=
  update procs np { procs np with parent := some p }

end Procs

/-! ## They are the kernel's functions -/

namespace Sys

variable {d d' : Sys} {p : ProcId}

theorem makeRunnable_proc (h : d.makeRunnable p = some d') :
    d'.proc = Procs.setState d.proc p .runnable := by
  rw [makeRunnable] at h
  obtain ⟨rq, b, -, rfl⟩ := prioEnqueue_eq h
  rfl

theorem wakeOne_proc {chan : Chan} {q : ProcId} (hc : d.cur = some p)
    (h : wakeOne chan d q = some d') : d'.proc = Procs.wakeOne p chan d.proc q := by
  have hne : d.cur ≠ some q ↔ q ≠ p := by rw [hc, Ne, some.injEq, eq_comm]
  simp only [wakeOne, hne] at h
  unfold Procs.wakeOne
  split_ifs at h with hq hw
  · rw [if_pos ⟨hq, hw⟩]
    exact makeRunnable_proc h
  · cases h
    rw [if_neg fun hc => hw hc.2]
  · cases h
    rw [if_neg fun hc => hq hc.1]

theorem wakeup_proc {chan : Chan} (hc : d.cur = some p) (h : d.wakeup chan = some d') :
    d'.proc = Procs.wakeup d.proc p chan := by
  refine foldlM_project (I := fun d => d.cur = some p) ?_ hc h
  intro s q t hs ht
  exact ⟨(wakeOne_frame ht).cur.trans hs, wakeOne_proc hs ht⟩

theorem reparent_proc {i : ProcId} (hc : d.cur = some p) (hi : d.initproc = some i)
    (h : d.reparent p = some d') : d'.proc = Procs.reparent d.proc i p := by
  refine foldlM_project (I := fun d => d.cur = some p ∧ d.initproc = some i) ?_ ⟨hc, hi⟩ h
  rintro s q t ⟨hs, hsi⟩ ht
  have hf := reparentOne_frame ht
  refine ⟨⟨hf.cur.trans hs, hf.initproc.trans hsi⟩, ?_⟩
  rw [reparentOne, hsi] at ht
  unfold Procs.reparentOne
  split_ifs at ht ⊢ with hq
  · exact wakeup_proc (d := s.setParent q (some i)) hs ht
  · rw [some.inj ht]

theorem exitBlock_proc {status : ℤ} {i : ProcId} (hc : d.cur = some p)
    (hi : d.initproc = some i) (h : d.exitBlock status p = some d') :
    d'.proc = Procs.exit d.proc i status p := by
  simp only [exitBlock, bind_eq_bind, bind_eq_some_iff, some.injEq] at h
  obtain ⟨d1, h1, d2, h2, rfl⟩ := h
  have hp1 := reparent_proc hc hi h1
  have hp2 := wakeup_proc ((reparent_frame h1).cur.trans hc) h2
  simp only [Procs.exit, ← hp1, ← hp2]
  rfl

/-- `wait`'s section with a zombie child, on the process table. -/
theorem reap_proc (pp : ProcId) (ok : Bool) :
    (d.reap pp p ok).proc = Procs.reap d.proc pp p ok := by
  cases ok <;> rfl

theorem sleepBlock_proc {chan : Chan} (h : d.sleepBlock chan p = some d') :
    d'.proc = Procs.sleep d.proc p chan := by
  simp only [sleepBlock, dequeueRunnable, bind_eq_bind, bind_eq_some_iff, some.injEq] at h
  obtain ⟨d1, h1, rfl⟩ := h
  have hp1 : d1.proc = (d.setChan p chan).proc := by
    split_ifs at h1
    · obtain ⟨rq, -, rfl⟩ := map_eq_some_iff.mp h1
      rfl
    · rw [some.inj h1]
  simp [setState, modProc, setChan, Procs.sleep, hp1]

theorem killAt_proc {pid : ℤ} {i : ProcId} (h : d.killAt pid i = some d') :
    d'.proc = Procs.killAt d.proc pid i := by
  have hst : ((d.setKilled i).proc i).state = (d.proc i).state := by simp [setKilled, modProc]
  simp only [killAt, hst] at h
  unfold Procs.killAt
  split_ifs at h ⊢ with hpid hs
  · rw [makeRunnable_proc h]
    simp [Procs.setState, setKilled, modProc]
  · cases h
    rfl
  · rw [some.inj h]

theorem forkAt_proc {i : ProcId} (ok : Bool) (hi : (d.proc i).state = .unused) :
    (d.forkAt i ok).proc = Procs.forkAt d.proc d.nextpid i ok := by
  unfold forkAt
  rw [if_pos hi]
  cases ok <;>
    simp [Procs.forkAt, Procs.freeproc, allocpid, allocFields, setState, modProc, newContext,
      freeproc]

theorem forkRun_proc {np : ProcId} (h : d.forkRun np p = some d') :
    d'.proc = Procs.setState d.proc np .runnable := by
  rw [forkRun] at h
  obtain ⟨rq, b, -, rfl⟩ := prioEnqueue_eq h
  rfl

end Sys

/-! ## What the sections do -/

namespace Procs

variable {procs procs' procs'' : Procs} {p q i : ProcId} {chan : Chan}

theorem wakeup_apply (procs : Procs) (me : ProcId) (chan : Chan) (q : ProcId) :
    wakeup procs me chan q = if q ≠ me ∧ (procs q).state = .sleeping ∧ (procs q).chan = chan then
        { procs q with state := .runnable }
      else procs q := by
  have key : ∀ xs : List ProcId, ∀ procs : Procs, xs.foldl (wakeOne me chan) procs q =
      if q ∈ xs ∧ q ≠ me ∧ (procs q).state = .sleeping ∧ (procs q).chan = chan then
        { procs q with state := .runnable }
      else procs q := by
    intro xs
    induction xs with
    | nil => intro procs; simp
    | cons x xs ih =>
      intro procs
      rw [foldl_cons, ih]
      by_cases hx : q = x
      · subst hx
        by_cases hc : q ≠ me ∧ (procs q).state = .sleeping ∧ (procs q).chan = chan
        · simp [wakeOne, hc]
        · simp [wakeOne, hc]
      · have hsame : wakeOne me chan procs x q = procs q := by
          unfold wakeOne
          split_ifs
          exacts [update_of_ne hx _ _, rfl]
        simp [hsame, hx]
  simpa [wakeup] using key (finRange NPROC) procs

/-- Some sleepers other than `me` have become runnable and parents may have changed; all the rest
is the same. -/
structure Gentle (me : ProcId) (procs procs' : Procs) : Prop where
  state : ∀ q, (procs' q).state = (procs q).state ∨
    q ≠ me ∧ (procs q).state = .sleeping ∧ (procs' q).state = .runnable
  chan : ∀ q, (procs' q).chan = (procs q).chan
  pid : ∀ q, (procs' q).pid = (procs q).pid
  xstate : ∀ q, (procs' q).xstate = (procs q).xstate

theorem Gentle.refl (me : ProcId) (procs : Procs) : Gentle me procs procs :=
  ⟨fun _ => .inl rfl, fun _ => rfl, fun _ => rfl, fun _ => rfl⟩

theorem Gentle.trans {me : ProcId} (h : Gentle me procs procs') (h' : Gentle me procs' procs'') :
    Gentle me procs procs'' where
  state q := by
    rcases h'.state q with h2 | ⟨hne, h2, h3⟩
    · rw [h2]
      exact h.state q
    · rcases h.state q with h1 | ⟨-, -, h1⟩
      · exact .inr ⟨hne, h1 ▸ h2, h3⟩
      · rw [h1] at h2
        cases h2
  chan q := (h'.chan q).trans (h.chan q)
  pid q := (h'.pid q).trans (h.pid q)
  xstate q := (h'.xstate q).trans (h.xstate q)

theorem Gentle.sleeping {me : ProcId} (h : Gentle me procs procs')
    (hq : (procs' q).state = .sleeping) : (procs q).state = .sleeping := by
  rcases h.state q with h' | ⟨-, -, h'⟩
  · exact h' ▸ hq
  · rw [h'] at hq
    cases hq

theorem wakeup_gentle (procs : Procs) (me : ProcId) (chan : Chan) :
    Gentle me procs (wakeup procs me chan) where
  state q := by
    rw [wakeup_apply]
    split_ifs with h
    · exact .inr ⟨h.1, h.2.1, rfl⟩
    · exact .inl rfl
  chan q := by rw [wakeup_apply]; split_ifs <;> rfl
  pid q := by rw [wakeup_apply]; split_ifs <;> rfl
  xstate q := by rw [wakeup_apply]; split_ifs <;> rfl

theorem wakeup_parent (procs : Procs) (me : ProcId) (chan : Chan) (q : ProcId) :
    (wakeup procs me chan q).parent = (procs q).parent := by
  rw [wakeup_apply]
  split_ifs <;> rfl

/-- Nobody but the caller of `wakeup(chan)` sleeps on `chan` afterwards. -/
theorem wakeup_wakes {me : ProcId} (hq : q ≠ me) (hs : (wakeup procs me chan q).state = .sleeping) :
    (wakeup procs me chan q).chan ≠ chan := by
  intro hc
  rw [wakeup_apply] at hs hc
  split_ifs at hs hc with h
  exact h ⟨hq, hs, hc⟩

section

variable (procs : Procs)

theorem reparentOne_gentle (i p q : ProcId) : Gentle p procs (reparentOne i p procs q) := by
  unfold reparentOne
  split_ifs with hq
  · have hset : Gentle p procs (update procs q { procs q with parent := some i }) := by
      refine ⟨fun r => .inl ?_, fun r => ?_, fun r => ?_, fun r => ?_⟩ <;>
      · by_cases hr : r = q
        · subst hr; simp
        · simp [hr]
    exact hset.trans (wakeup_gentle _ p _)
  · exact .refl p procs

theorem reparent_gentle (i p : ProcId) : Gentle p procs (reparent procs i p) := by
  unfold reparent
  generalize finRange NPROC = xs
  induction xs generalizing procs with
  | nil => exact .refl p procs
  | cons x xs ih => exact (reparentOne_gentle procs i p x).trans (ih _)

theorem reparentOne_parent (i p q r : ProcId) : (reparentOne i p procs q r).parent =
      if r = q ∧ (procs r).parent = some p then some i else (procs r).parent := by
  unfold reparentOne
  by_cases hr : r = q
  · subst hr
    by_cases hp : (procs r).parent = some p <;> simp [hp, wakeup_parent]
  · by_cases hp : (procs q).parent = some p <;> simp [hp, hr, wakeup_parent]

/-- `reparent(p)` passes the children of `p`, and only them, to init. -/
theorem reparent_parent (hi : i ≠ p) (r : ProcId) : (reparent procs i p r).parent =
      if (procs r).parent = some p then some i else (procs r).parent := by
  have key : ∀ xs : List ProcId, ∀ procs : Procs, (xs.foldl (reparentOne i p) procs r).parent =
        if r ∈ xs ∧ (procs r).parent = some p then some i else (procs r).parent := by
    intro xs
    induction xs with
    | nil => intro procs; simp
    | cons x xs ih =>
      intro procs
      rw [foldl_cons, ih, reparentOne_parent]
      by_cases hp : (procs r).parent = some p
      · by_cases hx : r = x
        · subst hx; simp [hp, hi]
        · simp [hp, hx]
      · simp [hp]
  simpa [reparent] using key (finRange NPROC) procs

end

/-- Init is not asleep in `wait` when it has been given a child. -/
theorem reparent_wakes (hi : i ≠ p) (hz : (procs q).parent = some p)
    (hs : (reparent procs i p i).state = .sleeping) : (procs i).chan ≠ .proc i := by
  have key : ∀ xs : List ProcId, ∀ procs : Procs, q ∈ xs → (procs q).parent = some p →
      (xs.foldl (reparentOne i p) procs i).state = .sleeping → (procs i).chan ≠ .proc i := by
    intro xs
    induction xs with
    | nil => intro procs hq; cases hq
    | cons x xs ih =>
      intro procs hq hpar hsl
      rw [foldl_cons] at hsl
      by_cases hx : (procs x).parent = some p
      · -- this iteration wakes init, and nothing after it puts it back to sleep
        have hg : ∀ (ys : List ProcId) (a : Procs), (ys.foldl (reparentOne i p) a i).state =
            .sleeping → (a i).state = .sleeping := by
          intro ys
          induction ys with
          | nil => intro a h; exact h
          | cons y ys ihy => intro a h; exact (reparentOne_gentle a i p y).sleeping (ihy _ h)
        have hsl' := hg xs _ hsl
        rw [← (reparentOne_gentle procs i p x).chan i]
        unfold reparentOne at hsl' ⊢
        rw [if_pos hx] at hsl' ⊢
        exact wakeup_wakes hi hsl'
      · have hsame : reparentOne i p procs x = procs := by rw [reparentOne, if_neg hx]
        rw [hsame] at hsl
        refine ih procs ?_ hpar hsl
        rcases mem_cons.mp hq with rfl | hq
        exacts [absurd hpar hx, hq]
  exact key _ procs (mem_finRange q) hz hs

/-! `exit` -/

section

variable (procs : Procs)

theorem exit_of_ne (i : ProcId) (status : ℤ) (hq : q ≠ p) : exit procs i status p q =
      wakeup (reparent procs i p) p (.ofProc (reparent procs i p p).parent) q :=
  update_of_ne hq _ _

theorem exit_self (i : ProcId) (status : ℤ) (p : ProcId) :
    (exit procs i status p p).state = .zombie ∧ (exit procs i status p p).xstate = status := by
  simp [exit]

theorem exit_wakeups_gentle (i p : ProcId) (chan : Chan) :
    Gentle p procs (wakeup (reparent procs i p) p chan) :=
  (reparent_gentle procs i p).trans (wakeup_gentle _ p chan)

theorem exit_pid (i : ProcId) (status : ℤ) (p q : ProcId) :
    (exit procs i status p q).pid = (procs q).pid := by
  have hg := exit_wakeups_gentle procs i p (.ofProc (reparent procs i p p).parent)
  by_cases hq : q = p
  · subst hq
    simpa [exit] using hg.pid q
  · rw [exit_of_ne procs i status hq]
    exact hg.pid q

theorem exit_parent (hi : i ≠ p) (status : ℤ) (q : ProcId) : (exit procs i status p q).parent =
      if (procs q).parent = some p then some i else (procs q).parent := by
  rw [← reparent_parent procs hi q]
  by_cases hq : q = p
  · subst hq
    simp [exit, wakeup_parent]
  · rw [exit_of_ne procs i status hq, wakeup_parent]

end

/-- A process that sleeps in `wait` after an `exit` is the parent neither of the process that
exited nor of one of its children. -/
theorem exit_wakes (hi : i ≠ p) {status : ℤ} {z : ProcId} (hq : q ≠ p)
    (hs : (exit procs i status p q).state = .sleeping) (hc : (procs q).chan = .proc q)
    (hz : (exit procs i status p z).parent = some q) : z ≠ p ∧ (procs z).parent ≠ some p := by
  have hg := reparent_gentle procs i p
  rw [exit_of_ne procs i status hq] at hs
  have hs1 := (wakeup_gentle _ p _).sleeping hs
  rw [exit_parent procs hi] at hz
  constructor
  · rintro rfl
    -- `wakeup(p->parent)` has woken `q`
    rw [← reparent_parent procs hi] at hz
    rw [hz] at hs
    refine wakeup_wakes hq hs ?_
    rw [(wakeup_gentle _ z _).chan q, hg.chan q, hc]
    rfl
  · intro hzp
    -- `reparent` has woken init
    rw [if_pos hzp] at hz
    cases hz
    exact reparent_wakes hi hzp hs1 hc

end Procs

/-! ## The protocol -/

/-- Where a process is between the sections of `fork` and `wait`. -/
inductive Doing
  /-- anything else, in user space or in the kernel -/
  | other
  /-- in `fork`, before `np->parent = p` -/
  | forking (np : ProcId)
  /-- in `fork`, before `np->state = RUNNABLE` -/
  | forked (np : ProcId)
  /-- in the `sleep` of `wait` -/
  | waiting
  /-- back from that `sleep`, about to take `wait_lock` again -/
  | rescan
  deriving DecidableEq, Repr

/-- The child a process is creating. -/
def Doing.child : Doing → Option ProcId
  | forking np => some np
  | forked np => some np
  | _ => none

/-- A call of `exit`: the slot and the pid of the process, and its status. -/
structure Exit where
  slot : ProcId
  pid : ℤ
  status : ℤ
  deriving DecidableEq, Repr

/-- A successful `wait`: who called it, the `origin` of the child it found, and the child with the
pid it returned and the status it copied out. -/
structure Reap where
  waiter : ProcId
  origin : Option ProcId
  child : Exit
  deriving DecidableEq, Repr

structure ProcTable where
  proc : Procs
  doing : ProcId → Doing
  nextpid : ℤ
  initproc : ProcId
  /-- the slots that are some CPU's `idleproc` -/
  idle : ProcId → Bool
  origin : ProcId → Option ProcId
  exits : List Exit
  reaps : List Reap

inductive ProcEvent
  /-- `schedule` picks `p`; `p` calls `yield` -/
  | schedule (p : ProcId)
  | yield (p : ProcId)
  /-- kernel code outside the protocol sleeps and wakes; `sleepWake` is the end of any `sleep` -/
  | sleep (p : ProcId) (chan : Chan)
  | sleepWake (p : ProcId)
  | wakeup (p : ProcId) (chan : Chan)
  /-- another CPU takes slot `i` for its idle process -/
  | allocIdleproc (i : ProcId)
  /-- the three sections of `fork`; `ok`: there is memory for the child -/
  | fork (p i : ProcId) (ok : Bool)
  | forkParent (p : ProcId)
  | forkRun (p : ProcId)
  | exit (p : ProcId) (status : ℤ)
  /-- a scan of `wait`; `ok`: the status can be copied out, or is not wanted -/
  | wait (p : ProcId) (ok : Bool)
  /-- `kill(pid)` looks at slot `i` -/
  | kill (p : ProcId) (pid : ℤ) (i : ProcId)
  | setkilled (p : ProcId)
  /-- `fork` finds no free slot, or `kill` no such pid -/
  | fail (p : ProcId)
  deriving DecidableEq, Repr

namespace ProcTable

variable (t : ProcTable)

/-- Process `p` executes, outside the protocol. -/
def Free (p : ProcId) : Prop := (t.proc p).state = .running ∧ t.doing p = .other

instance : DecidablePred t.Free := fun _ => inferInstanceAs (Decidable (_ ∧ _))

def setDoing (p : ProcId) (x : Doing) : ProcTable :=
  { t with doing := update t.doing p x }

/-- `fork` up to the release of `np->lock`. -/
def forkAt (p i : ProcId) (ok : Bool) : ProcTable :=
  let procs := Procs.forkAt t.proc t.nextpid i ok
  { t with
    proc := if ok then procs else Procs.setRet procs p (-1)
    doing := if ok then update t.doing p (.forking i) else t.doing
    nextpid := t.nextpid + 1
    origin := update t.origin i none }

/-- `np->parent = p` under `wait_lock`. -/
def forkParent (np p : ProcId) : ProcTable :=
  { t with
    proc := Procs.setParent t.proc np p
    doing := update t.doing p (.forked np)
    origin := update t.origin np (some p) }

/-- The end of `fork`. -/
def forkRun (np p : ProcId) : ProcTable :=
  { t with
    proc := Procs.setRet (Procs.setState t.proc np .runnable) p (t.proc np).pid
    doing := update t.doing p .other }

/-- `exit`'s section under `wait_lock`. -/
def exitBlock (status : ℤ) (p : ProcId) : ProcTable :=
  { t with
    proc := Procs.exit t.proc t.initproc status p
    origin := fun z => if t.origin z = some p then none else t.origin z
    exits := ⟨p, (t.proc p).pid, status⟩ :: t.exits }

/-- `wait` finds the zombie `pp` and returns its pid. -/
def reap (pp p : ProcId) : ProcTable :=
  let procs := Procs.reap t.proc pp p true
  { t with
    proc := procs
    doing := update t.doing p .other
    reaps := ⟨p, t.origin pp, pp, (procs p).a0, (t.proc pp).xstate⟩ :: t.reaps }

/-- `wait` returns `-1`. -/
def waitFail (p : ProcId) : ProcTable :=
  { t with
    proc := Procs.setRet t.proc p (-1)
    doing := update t.doing p .other }

/-- One round of the `for(;;)` loop of `wait`. -/
def waitScan (p : ProcId) (ok : Bool) : ProcTable :=
  match Procs.zombieChild t.proc p with
  | some pp => if ok then t.reap pp p else t.waitFail p
  | none =>
    if Procs.haveKids t.proc p = false ∨ (t.proc p).killed = true then t.waitFail p
    else { t.setDoing p .waiting with proc := Procs.sleep t.proc p (.proc p) }

def step (e : ProcEvent) (t : ProcTable) : Option ProcTable :=
  match e with
  | .schedule p =>
    if (t.proc p).state = .runnable ∧ t.idle p = false then
      some { t with proc := Procs.setState t.proc p .running }
    else none
  | .yield p =>
    if (t.proc p).state = .running then
      some { t with proc := Procs.setState t.proc p .runnable }
    else none
  | .sleep p chan => if t.Free p then some { t with proc := Procs.sleep t.proc p chan } else none
  | .sleepWake p =>
    if (t.proc p).state = .running then
      some { t with
        proc := update t.proc p { t.proc p with chan := .null }
        doing := if t.doing p = .waiting then update t.doing p .rescan else t.doing }
    else none
  | .wakeup p chan =>
    if (t.proc p).state = .running then some { t with proc := Procs.wakeup t.proc p chan }
    else none
  | .allocIdleproc i =>
    if (t.proc i).state = .unused then
      some { t with
        proc := update t.proc i { t.proc i with pid := 0, state := .runnable }
        idle := update t.idle i true }
    else none
  | .fork p i ok =>
    if t.Free p ∧ (t.proc i).state = .unused then some (t.forkAt p i ok) else none
  | .forkParent p =>
    match t.doing p with
    | .forking np => if (t.proc p).state = .running then some (t.forkParent np p) else none
    | _ => none
  | .forkRun p =>
    match t.doing p with
    | .forked np => if (t.proc p).state = .running then some (t.forkRun np p) else none
    | _ => none
  | .exit p status =>
    if t.Free p ∧ p ≠ t.initproc then some (t.exitBlock status p) else none
  | .wait p ok =>
    if (t.proc p).state = .running ∧ (t.doing p = .other ∨ t.doing p = .rescan) then
      some (t.waitScan p ok)
    else none
  | .kill p pid i =>
    if t.Free p then
      let procs := Procs.killAt t.proc pid i
      some { t with proc := if (t.proc i).pid = pid then Procs.setRet procs p 0 else procs }
    else none
  | .setkilled p =>
    if t.Free p then
      some { t with proc := update t.proc p { t.proc p with killed := true } }
    else none
  | .fail p => if t.Free p then some { t with proc := Procs.setRet t.proc p (-1) } else none

/-- The table after `userinit`: init in slot `0`. -/
def userinit : ProcTable where
  proc := update (fun _ => {}) 0 { state := .runnable, pid := 1 }
  doing := fun _ => .other
  nextpid := 2
  initproc := 0
  idle := fun _ => false
  origin := fun _ => none
  exits := []
  reaps := []

def Reachable (t : ProcTable) : Prop :=
  Reaches step anyEvent userinit t

end ProcTable

end Xv6
