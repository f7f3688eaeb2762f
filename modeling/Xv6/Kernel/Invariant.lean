import Xv6.Kernel.Discipline
import Xv6.Kernel.Queues

/-!
# The scheduling invariant

What a thread has left to do says what the state of its process must be. `Fits x w ph c` reads
this off the code `c`: a thread in the middle of a system call belongs to a `RUNNING` process, a
thread that calls `schedule` from `sleep` to a `SLEEPING` one, and so on (`Phase`).

**Races.** Between the `release(&p->lock)` of `sleep` or `exit` and the `intr_off()` of
`schedule` interrupts are enabled. If a timer tick preempts the process there, `yield` makes it
`RUNNABLE`, and when it runs again it is `RUNNING` in the middle of `sleep` or `exit`; likewise a
tick can put the idle process on the run queue. The invariant is stated for runs in which some
of these races do not happen (`Races`, `Avoids`): with none excluded it holds of every run, and
each excluded race makes it stronger.

Main results: `Step.inv` and `reachable_inv`.
-/

open Function List Option

namespace Xv6

/-- What the state of the running process is, as its thread sees it. -/
inductive Phase
  | running | asleep | dead | queued
  deriving DecidableEq, Repr

/-- The state of a process in each phase. -/
def Phase.state : Phase → ProcState
  | .running => .running
  | .asleep => .sleeping
  | .dead => .zombie
  | .queued => .runnable

/-- The races that a run avoids: ticks that preempt a process that is `SLEEPING` in `sleep`, a
process that is a `ZOMBIE` in `exit`, or the idle process. -/
structure Races where
  sleep : Bool
  exit : Bool
  idle : Bool
  deriving DecidableEq, Repr

namespace Sys

def InPhase (d : Sys) : Phase → Prop
  | .running =>
    (d.idleproc = some d.run ∨ (d.proc d.run).state = .running) ∧ ¬ d.rq.Linked d.run
  | .asleep => (d.proc d.run).state = .sleeping
  | .dead => (d.proc d.run).state = .zombie
  | .queued => d.rq.Linked d.run

/-- A timer tick would make the running process yield. -/
def preempts (d : Sys) : Bool :=
  d.tick.any fun d' => d'.rq.prioShouldPreempt (d'.rq.prio d.run)

/-- The running thread is about to handle a timer interrupt taken in kernel code. -/
def atTick (d : Sys) : Bool :=
  match d.here with
  | .kerneltrap .timer :: _ => true
  | _ => false

/-- The next step is not one of the excluded races. -/
def Avoids (x : Races) (d : Sys) : Prop :=
  d.atTick = true → d.preempts = true →
    (x.sleep = true → (d.proc d.run).state ≠ .sleeping) ∧
    (x.exit = true → (d.proc d.run).state ≠ .zombie) ∧
    (x.idle = true → d.idleproc ≠ some d.run)

instance (x : Races) (d : Sys) : Decidable (d.Avoids x) := by unfold Avoids; infer_instance

/-! ## Phases of code -/

/-- Points reached only with no linked process of higher priority than the running one: the end
of `schedule`, and the returns of timer interrupts. -/
def needTop : List Point → Bool
  | .scheduleEnd _ :: _ => true
  | .ret _ :: c => needTop c
  | .kerneltrapRet w :: _ => decide (w = 2)
  | .usertrapRet w :: _ => decide (w = 2)
  | _ => false

/-- The phase in which `schedule` is called, with `c` left to do: it depends on the caller. -/
def Leaves (x : Races) (ph : Phase) : List Point → Prop
  | .sleepWake _ :: _ => ph = .asleep ∨ ph = .running ∧ x.sleep = false
  | .zombieExit :: _ => ph = .dead ∨ ph = .running ∧ x.exit = false
  | .ret _ :: _ => ph = .queued
  | .idleMain :: _ => ph = .running
  | _ => False

/-- Code `c` of the idle thread (`w = true`) or of another one may be executed in phase `ph`. -/
def Fits (x : Races) (w : Bool) : Phase → List Point → Prop
  | ph, [] => ph = .running
  | ph, pt :: c =>
    match pt with
    | .user => ph = .running ∧ w = false
    | .exit _ => ph = .running ∧ w = false
    | .exitTail _ => ph = .running ∧ w = false
    | .zombieExit => ph = .running ∧ w = false
    | .idleMain => ph = .running ∧ w = true
    | .yield =>
      ph ≠ .queued ∧ (x.sleep = true → ph ≠ .asleep) ∧ (x.exit = true → ph ≠ .dead) ∧
        (x.idle = true → w = false) ∧ ofYield c = true ∧ Fits x w .running c
    | .schedule => Leaves x ph c ∧ Fits x w .running c
    | .scheduleOff _ => Leaves x ph c ∧ Fits x w .running c
    | .schedulePick _ => Leaves x ph c ∧ Fits x w .running c
    | .swtch _ _ => False
    | .scheduleEnd _ => ph = .running ∧ Fits x w .running c
    | .ret _ => ph = .running ∧ Fits x w .running c
    | .kerneltrap _ => ph ≠ .queued ∧ needTop c = false ∧ Fits x w ph c
    | .kerneltrapRet _ => ph ≠ .queued ∧ needTop c = false ∧ Fits x w ph c
    | _ => ph = .running ∧ w = false ∧ needTop c = false ∧ Fits x w .running c

/-- The child that a point of `fork` still has to make runnable. -/
def child : Point → Option ProcId
  | .forkParent np => some np
  | .forkRun np => some np
  | _ => none

/-- The children a thread still has to make runnable. -/
def pending (c : List Point) : List ProcId := c.filterMap child

section

variable {x : Races} {w : Bool} {ph : Phase} {c c' : List Point} {e : Event}

theorem masked_of_needTop (h : needTop c = true) : masked c = true := by
  induction c with
  | nil => simp [needTop] at h
  | cons pt c ih =>
    cases pt with
    | ret s => exact ih h
    | scheduleEnd i => rfl
    | kerneltrapRet n => rfl
    | usertrapRet n => exact h
    | _ => simp [needTop] at h

/-- A process on the run queue executes `yield`'s call of `schedule`, with interrupts
disabled. -/
theorem Fits.masked_of_queued (h : Fits x w .queued c) : masked c = true := by
  cases c with
  | nil => cases h
  | cons pt c =>
    have hret : Leaves x .queued c → ofYield c = true := by
      intro hl
      unfold Leaves at hl
      split at hl <;> simp_all [ofYield]
    cases pt with
    | schedule => exact hret h.1
    | scheduleOff i => exact hret h.1
    | schedulePick i => rfl
    | yield => exact absurd rfl h.1
    | kerneltrap t => exact absurd rfl h.1
    | kerneltrapRet n => rfl
    | swtch n i => exact h.elim
    | _ => exact absurd h.1 (by decide)

/-- Where the races are allowed, code that is interrupted in `sleep` or `exit` is also code that
a `RUNNING` process may execute. -/
theorem Fits.resumed (h : Fits x w ph c) (hq : ph ≠ .queued) (hs : ph = .asleep → x.sleep = false)
    (hd : ph = .dead → x.exit = false) : Fits x w .running c := by
  induction c with
  | nil => rfl
  | cons pt c ih =>
    have hleaves : Leaves x ph c → Leaves x .running c := by
      intro hl
      unfold Leaves at hl ⊢
      split at hl <;> simp_all <;> tauto
    cases pt with
    | schedule | scheduleOff i | schedulePick i => exact ⟨hleaves h.1, h.2⟩
    | yield => exact ⟨by decide, fun _ => by decide, fun _ => by decide, h.2.2.2⟩
    | kerneltrap t | kerneltrapRet n => exact ⟨by decide, h.2.1, ih h.2.2⟩
    | swtch n i => exact h.elim
    | _ => exact h.1 ▸ h

/-- The edges of the control-flow graph keep the phase. -/
theorem Jump.fits (hj : Jump e c c') (h : Fits x w ph c) : Fits x w ph c' := by
  cases hj with
  | kernelTrap _ hm =>
    refine ⟨fun hq => ?_, Bool.eq_false_iff.2 fun ht => ?_, h⟩
    · subst hq
      simp [h.masked_of_queued] at hm
    · simp [masked_of_needTop ht] at hm
  | userTrap c _ | exit c => exact ⟨h.1, h.2, rfl, rfl, h.2⟩
  | kerneltrapRet c => exact h.2.2
  | schedule c => exact h
  | scheduleOff c => exact h
  | scheduleEnd c => exact h.1 ▸ h.2
  | ret c => exact h.1 ▸ h.2
  | idleMain c => exact ⟨h.1, rfl, h.2⟩
  | callSleep c hpt =>
    rcases hpt with rfl | rfl
    all_goals
      obtain ⟨rfl, rfl, ht, hc⟩ := h
      simp [Fits, needTop, ht, hc]
  | leave c hpt =>
    rcases hpt with rfl | rfl
    all_goals
      obtain ⟨rfl, rfl, ht, hc⟩ := h
      exact hc
  | _ =>
    obtain ⟨rfl, rfl, ht, hc⟩ := h
    simp [Fits, needTop, ht, hc]

theorem Jump.needTop (hj : Jump e c c') (h : Fits x w ph c) (ht : needTop c' = true) :
    needTop c = true := by
  cases hj with
  | leave c hpt => rcases hpt with rfl | rfl <;> exact absurd ht (Bool.eq_false_iff.1 h.2.2.1)
  | callSleep c hpt => rcases hpt with rfl | rfl <;> simp [Sys.needTop] at ht
  | ret c => exact ht
  | scheduleEnd c => rfl
  | kerneltrapRet c => exact absurd ht (Bool.eq_false_iff.1 h.2.1)
  | noTick c hw => simp [Sys.needTop, hw] at ht
  | usertrapRet c | forkretDone c | forkFull c | waitDone c | killNone c | sleepLock c =>
    exact absurd ht (Bool.eq_false_iff.1 h.2.2.1)
  | _ => simp [Sys.needTop] at ht

theorem Jump.pending (hj : Jump e c c') : pending c' = pending c := by
  cases hj with
  | callSleep _ hpt | leave _ hpt => rcases hpt with rfl | rfl <;> rfl
  | _ => rfl

end

/-! ## The invariant -/

variable {x : Races} {d d1 d' : Sys} {p : ProcId} {ph : Phase} {c c' : List Point}

def isIdle (d : Sys) (p : ProcId) : Bool := decide (d.idleproc = some p)

theorem isIdle_eq_false : d.isIdle p = false ↔ d.idleproc ≠ some p := decide_eq_false_iff_not

theorem isIdle_eq_true : d.isIdle p = true ↔ d.idleproc = some p := decide_eq_true_iff

/-- Every child that a `fork` still has to make runnable is `USED`, and belongs to one `fork`. -/
structure Forks (d : Sys) : Prop where
  used : ∀ q, ∀ np ∈ pending (d.code q), (d.proc np).state = .used
  owner : ∀ q q', ∀ np ∈ pending (d.code q), np ∈ pending (d.code q') → q = q'
  once : ∀ q, (pending (d.code q)).Nodup

/-- The running thread is between two statements, or about to switch to another thread. -/
inductive Stage (x : Races) (d : Sys) : Prop
  | executing (ph : Phase) :
      d.cur = some d.run → d.InPhase ph → Fits x (d.isIdle d.run) ph d.here →
      (needTop d.here = true → d.Top d.run) → Stage x d
  | switching (ph : Phase) {next : ProcId} {i : Bool} {c : List Point} :
      d.here = .swtch next i :: c → d.cur = some next → next ≠ d.run → d.InPhase ph →
      Leaves x ph c → Fits x (d.isIdle d.run) .running c →
      (d.idleproc = some next ∨ (d.proc next).state = .running) → ¬ d.rq.Linked next →
      d.Top next → Stage x d

/-- **The scheduling invariant** of runs that avoid the races `x`. -/
structure Inv (x : Races) (d : Sys) : Prop where
  consistent : Consistent d
  stage : Stage x d
  parked : ∀ q, q ≠ d.run → Fits x (d.isIdle q) .running (d.code q)
  forks : Forks d
  alone : x.sleep = true → x.exit = true → ∀ q, (d.proc q).state = .running → d.cur = some q
  idle : x.idle = true → ∀ w, d.idleproc = some w →
    ¬ d.rq.Linked w ∧ d.rq.prio w = prioMax

theorem Consistent.goto (h : Consistent d) (c : List Point) : Consistent (d.goto c) :=
  ⟨h.rep, h.prio, h.runnable, h.linked, h.idle, h.pickedAgain⟩

theorem Frame.isIdle (h : Frame d d') (p : ProcId) : d'.isIdle p = d.isIdle p := by
  rw [Sys.isIdle, Sys.isIdle, h.idleproc]

/-- A thread other than idle in phase `running` belongs to a `RUNNING` process. -/
theorem InPhase.running (h : d.InPhase .running) (hw : d.isIdle d.run = false) :
    (d.proc d.run).state = .running :=
  h.1.resolve_left (isIdle_eq_false.1 hw)

/-- The phase tells the state of the process; idle is always `RUNNABLE`. -/
theorem InPhase.state (h : d.InPhase ph) (hc : Consistent d) :
    (d.proc d.run).state = ph.state ∨ (d.proc d.run).state = .runnable := by
  cases ph with
  | running =>
    rcases h.1 with hi | hst
    · obtain ⟨w, hw, hwst⟩ := hc.idle
      cases hi.symm.trans hw
      exact .inr hwst
    · exact .inl hst
  | asleep => exact .inl h
  | dead => exact .inl h
  | queued => exact .inl (hc.runnable _ h)

/-- A thread at a point that only `RUNNING` processes reach. -/
theorem Inv.running {pt : Point} (h : Inv x d) (hhere : d.here = pt :: c)
    (hpt : ∀ w ph, Fits x w ph (pt :: c) → ph = .running ∧ w = false)
    (hsw : ∀ next i, pt ≠ .swtch next i) : (d.proc d.run).state = .running := by
  cases h.stage with
  | switching ph hhere' =>
    rw [hhere, cons.injEq] at hhere'
    exact absurd hhere'.1 (hsw _ _)
  | executing ph hcur hph hfit =>
    obtain ⟨rfl, hw⟩ := hpt _ _ (hhere ▸ hfit)
    exact hph.running hw

/-! ## Children of `fork` -/

theorem Forks.goto (h : Forks d) (hcode : d1.code = d.code) (hrun : d1.run = d.run)
    (hp : (pending c').Sublist (pending d.here))
    (hst : ∀ np, (d.proc np).state = .used → (d1.proc np).state = .used) :
    Forks (d1.goto c') := by
  have hsub : ∀ q, (pending ((d1.goto c').code q)).Sublist (pending (d.code q)) := fun q => by
    by_cases hq : q = d1.run
    · subst hq
      rw [show (d1.goto c').code d1.run = c' from here_goto d1 c', hrun]
      exact hp
    · rw [code_goto_of_ne hq, hcode]
  exact ⟨fun q np hnp => hst np (h.used q np ((hsub q).subset hnp)),
    fun q q' np hnp hnp' => h.owner q q' np ((hsub q).subset hnp) ((hsub q').subset hnp'),
    fun q => (h.once q).sublist (hsub q)⟩

/-- What is to be shown when the running thread continues with `c'`. -/
theorem Inv.next (h : Inv x d) (ph : Phase) (hf : Frame d d1) (hcur : d.cur = some d.run)
    (hc : Consistent d1) (hph : d1.InPhase ph) (hfit : Fits x (d.isIdle d.run) ph c')
    (htop : needTop c' = true → d1.Top d.run) (hforks : Forks (d1.goto c'))
    (halone : x.sleep = true → x.exit = true → ∀ q, (d1.proc q).state = .running → d.cur = some q)
    (hidle : x.idle = true → ∀ w, d.idleproc = some w →
      ¬ d1.rq.Linked w ∧ d1.rq.prio w = prioMax) : Inv x (d1.goto c') := by
  refine ⟨hc.goto c', .executing ph ?_ hph ?_ ?_, fun q hq => ?_, hforks, fun hs he q hq => ?_,
    fun hi w hw => hidle hi w (hf.idleproc ▸ hw)⟩
  · exact hf.cur.trans (hcur.trans (congrArg some hf.run.symm))
  · rw [here_goto]
    exact (hf.isIdle d1.run).symm ▸ hf.run.symm ▸ hfit
  · rw [here_goto]
    exact fun ht => hf.run.symm ▸ htop ht
  · have hqd : q ≠ d1.run := hq
    rw [code_goto_of_ne hqd, hf.code]
    exact (hf.isIdle q).symm ▸ h.parked q (hf.run ▸ hqd)
  · exact hf.cur.trans (halone hs he q hq)

/-! ## Wakeups and ticks -/

theorem Mild.inPhase (hm : Mild d d1) (hcur : d.cur = some d.run) (h : d.InPhase ph) :
    d1.InPhase ph := by
  have hst := hm.state_cur hcur
  have hl := hm.linked d.run hst
  cases ph with
  | running =>
    rw [InPhase, hm.run, hm.idleproc, hst, hl]
    exact h
  | asleep | dead => rw [InPhase, hm.run, hst]; exact h
  | queued => rw [InPhase, hm.run, hl]; exact h

theorem Mild.alone (hm : Mild d d1) (h : Inv x d) (hs : x.sleep = true) (he : x.exit = true)
    (q : ProcId) (hq : (d1.proc q).state = .running) : d.cur = some q := by
  rcases hm.state q with hst | ⟨-, hst, -⟩
  · exact h.alone hs he q (hst ▸ hq)
  · rw [hst] at hq; cases hq

theorem Mild.idle (hm : Mild d d1) (h : Inv x d) (hi : x.idle = true) (w : ProcId)
    (hw : d.idleproc = some w) : ¬ d1.rq.Linked w ∧ d1.rq.prio w = prioMax := by
  obtain ⟨hl, hp⟩ := h.idle hi w hw
  have hst : (d.proc w).state ≠ .sleeping := fun he =>
    h.consistent.ne_idle (by simp [he]) hw
  have hl' := mt (hm.linked w (hm.state_eq hst)).1 hl
  exact ⟨hl', (hm.prio w hl').trans hp⟩

theorem Inv.mild (h : Inv x d) (hm : Mild d d1) (hcur : d.cur = some d.run)
    (hph : d.InPhase ph) (hfit : Fits x (d.isIdle d.run) ph c')
    (htop : needTop c' = true → d1.Top d.run) (hp : (pending c').Sublist (pending d.here)) :
    Inv x (d1.goto c') :=
  h.next ph hm.toFrame hcur hm.consistent (hm.inPhase hcur hph) hfit htop
    (h.forks.goto hm.code hm.run hp fun np hnp => (hm.state_eq (by simp [hnp])).trans hnp)
    (hm.alone h) (hm.idle h)

theorem Inv.woken (h : Inv x d) (hm : Mild d d1) (hcur : d.cur = some d.run)
    (hph : d.InPhase ph) (hfit : Fits x (d.isIdle d.run) ph d.here)
    (htop : needTop d.here = false) : Inv x d1 := by
  have hinv := h.mild hm hcur hph hfit (by simp [htop]) (.refl _)
  rwa [← hm.toFrame.here, goto_here] at hinv

/-! ## Changes of state -/

/-- A step that gives the state `st` to a process that is not linked and is not in a pending
`fork`. -/
theorem Inv.restate {st : ProcState} (h : Inv x d) (ph : Phase) (hf : Frame d d1)
    (hr : Restate p st d d1)
    (hp : (d.proc p).state ≠ .runnable) (hst : st ≠ .runnable) (hrun : st ≠ .running)
    (hused : (d.proc p).state ≠ .used) (hcur : d.cur = some d.run) (hph : d1.InPhase ph)
    (hfit : Fits x (d.isIdle d.run) ph c') (htop : needTop c' = false)
    (hpend : (pending c').Sublist (pending d.here)) : Inv x (d1.goto c') := by
  have hl := h.consistent.not_linked hp
  have hi := h.consistent.ne_idle hp
  have hsame : ∀ q, q ≠ p → (d1.proc q).state = (d.proc q).state := fun q hq => by
    rw [hr.state, if_neg hq]
  refine h.next ph hf hcur (hr.consistent h.consistent hl hi hst) hph hfit (by simp [htop])
    (h.forks.goto hf.code hf.run hpend fun np hnp => ?_) (fun hs he q hq => ?_) (fun hx w hw => ?_)
  · rw [hsame np fun he => hused (he ▸ hnp)]; exact hnp
  · by_cases hqp : q = p
    · subst hqp
      rw [hr.state, if_pos rfl] at hq
      exact absurd hq hrun
    · exact h.alone hs he q (hsame q hqp ▸ hq)
  · have hwp : w ≠ p := fun he => hi (he ▸ hw)
    obtain ⟨hwl, hwp'⟩ := h.idle hx w hw
    exact ⟨mt (hr.linked h.consistent hl).1 hwl, (hr.prio w hwp).trans hwp'⟩

/-- `fork` takes a free slot: it now owes the child its start. -/
theorem Forks.alloc (h : Forks d) (hf : Frame d d1) (hp : (d.proc p).state = .unused)
    (hr : Restate p .used d d1) (hc : pending c = pending d.here) :
    Forks (d1.goto (.forkParent p :: c)) := by
  have hfree : ∀ q, p ∉ pending (d.code q) := fun q hq => by
    have hused := h.used q p hq
    rw [hp] at hused
    cases hused
  have hself : pending ((d1.goto (.forkParent p :: c)).code d.run) = p :: pending d.here := by
    rw [← hc, ← hf.run]
    exact congrArg pending (here_goto d1 _)
  have hother : ∀ q, q ≠ d.run → (d1.goto (.forkParent p :: c)).code q = d.code q := fun q hq => by
    rw [code_goto_of_ne (hf.run.symm ▸ hq), hf.code]
  have hmem : ∀ q, ∀ np ∈ pending ((d1.goto (.forkParent p :: c)).code q),
      np = p ∧ q = d.run ∨ np ≠ p ∧ np ∈ pending (d.code q) := fun q np hnp => by
    by_cases hq : q = d.run
    · subst hq
      rw [hself, mem_cons] at hnp
      rcases hnp with rfl | hnp
      · exact .inl ⟨rfl, rfl⟩
      · exact .inr ⟨fun he => hfree _ (he ▸ hnp), hnp⟩
    · rw [hother q hq] at hnp
      exact .inr ⟨fun he => hfree q (he ▸ hnp), hnp⟩
  refine ⟨fun q np hnp => ?_, fun q q' np hnp hnp' => ?_, fun q => ?_⟩
  · show (d1.proc np).state = .used
    rw [hr.state]
    rcases hmem q np hnp with ⟨rfl, -⟩ | ⟨hne, hnp⟩
    · exact if_pos rfl
    · rw [if_neg hne]; exact h.used q np hnp
  · rcases hmem q np hnp with ⟨rfl, rfl⟩ | ⟨hne, hq⟩
    · rcases hmem q' np hnp' with ⟨-, rfl⟩ | ⟨hne, -⟩
      exacts [rfl, absurd rfl hne]
    · rcases hmem q' np hnp' with ⟨he, -⟩ | ⟨-, hq'⟩
      exacts [absurd he hne, h.owner q q' np hq hq']
  · by_cases hq : q = d.run
    · subst hq
      rw [hself]
      exact nodup_cons.2 ⟨hfree _, h.once _⟩
    · rw [hother q hq]; exact h.once q

theorem Forks.start {np : ProcId} (h : Forks d) (hf : Frame d d1)
    (hhere : d.here = .forkRun np :: c)
    (hst : ∀ q, q ≠ np → (d1.proc q).state = (d.proc q).state) : Forks (d1.goto c) := by
  have hrun : pending (d.code d.run) = np :: pending c := congrArg pending hhere
  have hself : pending ((d1.goto c).code d.run) = pending c := by
    rw [← hf.run]
    exact congrArg pending (here_goto d1 c)
  have hother : ∀ q, q ≠ d.run → (d1.goto c).code q = d.code q := fun q hq => by
    rw [code_goto_of_ne (hf.run.symm ▸ hq), hf.code]
  have hsub : ∀ q, (pending ((d1.goto c).code q)).Sublist (pending (d.code q)) := fun q => by
    by_cases hq : q = d.run
    · subst hq; rw [hself, hrun]; exact sublist_cons_self _ _
    · rw [hother q hq]
  refine ⟨fun q np' hnp => ?_, fun q q' np' hnp hnp' =>
    h.owner q q' np' ((hsub q).subset hnp) ((hsub q').subset hnp'),
    fun q => (h.once q).sublist (hsub q)⟩
  have hne : np' ≠ np := by
    rintro rfl
    -- the running thread was the only owner, and owed this start only once
    have hq := h.owner q d.run np' ((hsub q).subset hnp) (by simp [hrun])
    subst hq
    rw [hself] at hnp
    exact (nodup_cons.1 (hrun ▸ h.once _)).1 hnp
  exact (hst np' hne).trans (h.used q np' ((hsub q).subset hnp))

theorem InPhase.not_linked (h : d.InPhase ph) (hc : Consistent d) (hq : ph ≠ .queued) :
    ¬ d.rq.Linked d.run := by
  cases ph with
  | running => exact h.2
  | asleep | dead => exact hc.not_linked (by rw [show (d.proc d.run).state = _ from h]; decide)
  | queued => exact absurd rfl hq

/-- A running process is not the child of a pending `fork`. -/
theorem InPhase.not_used (h : d.InPhase ph) (hc : Consistent d) : (d.proc d.run).state ≠ .used := by
  rcases h.state hc with hst | hst <;> rw [hst]
  · cases ph <;> decide
  · decide

section

variable (h : Inv x d) (hcur : d.cur = some d.run) (hph : d.InPhase ph)

include h hcur hph

theorem Inv.sleep {chan : Chan} {lk : Lock} (hhere : d.here = .sleep chan lk :: c)
    (hfit : Fits x (d.isIdle d.run) ph (.sleep chan lk :: c))
    (he : d.sleepBlock chan d.run = some d1) :
    Inv x (d1.goto (.schedule :: .sleepWake lk :: c)) := by
  obtain ⟨rfl, hw, ht, hc⟩ := hfit
  have hst := hph.running hw
  have hr := sleepBlock_restate (by simp [hst]) he
  have hf := sleepBlock_frame he
  refine h.restate .asleep hf hr (by simp [hst]) (by simp) (by simp) (by simp [hst]) hcur
    ?_ ⟨.inl rfl, rfl, hw, ht, hc⟩ rfl ?_
  · rw [InPhase, hf.run, hr.state, if_pos rfl]
  · rw [hhere]; exact .refl _

theorem Inv.exit {status : ℤ} (hhere : d.here = .exitTail status :: c)
    (hfit : Fits x (d.isIdle d.run) ph (.exitTail status :: c))
    (he : d.exitBlock status d.run = some d1) : Inv x (d1.goto [.schedule, .zombieExit]) := by
  obtain ⟨rfl, hw⟩ := hfit
  obtain ⟨d0, hm, hf, hr⟩ := exitBlock_spec h.consistent he
  -- first the wakeups, then the change of state
  have h0 : Inv x d0 := h.woken hm hcur hph (hhere ▸ ⟨rfl, hw⟩) (by rw [hhere]; rfl)
  have hst : (d0.proc d.run).state = .running := (hm.state_cur hcur).trans (hph.running hw)
  refine h0.restate .dead hf hr (by simp [hst]) (by simp) (by simp) (by simp [hst])
    (hm.cur.trans (hcur.trans (congrArg some hm.run.symm))) ?_ ?_ rfl (nil_sublist _)
  · rw [InPhase, hf.run, hr.state, if_pos hm.run]
  · exact ⟨.inl rfl, rfl, (hm.isIdle _).trans (hm.run.symm ▸ hw)⟩

/-- `wait` frees the slot of a zombie child. -/
theorem Inv.reap {pp : ProcId} (hhere : d.here = .waitScan :: c)
    (hfit : Fits x (d.isIdle d.run) ph (.waitScan :: c)) (hz : (d.proc pp).state = .zombie) :
    Inv x ((d.reap pp d.run true).goto c) := by
  obtain ⟨rfl, hw, ht, hc⟩ := hfit
  have hst := hph.running hw
  have hne : d.run ≠ pp := fun he => by rw [he, hz] at hst; cases hst
  have hr := reap_restate (d := d) (p := d.run) pp
  refine h.restate .running ⟨rfl, rfl, rfl, rfl, rfl⟩ hr (by simp [hz]) (by simp)
    (by simp) (by simp [hz]) hcur ⟨.inr ?_, ?_⟩ hc ht ?_
  · rw [show (d.reap pp d.run true).run = d.run from rfl, hr.state, if_neg hne]
    exact hst
  · exact mt (hr.linked h.consistent (h.consistent.not_linked (by simp [hz]))).1 hph.2
  · rw [hhere]; exact .refl _

/-! ## `fork` -/

theorem Inv.writeContext (hfit : Fits x (d.isIdle d.run) ph d.here) (htop : needTop d.here = false)
    (hp : (d.proc p).state = .unused) (hne : p ≠ d.run) : Inv x (d.writeContext p) := by
  have hhere : (d.writeContext p).here = d.here := update_of_ne hne.symm _ _
  have hidle : d.isIdle p = false := isIdle_eq_false.2 (h.consistent.ne_idle (by simp [hp]))
  have hcode : ∀ q, q ≠ p → (d.writeContext p).code q = d.code q := fun q hq =>
    update_of_ne hq _ _
  have hself : (d.writeContext p).code p = [.forkret, .user] := update_self ..
  have hsub : ∀ q, (pending ((d.writeContext p).code q)).Sublist (pending (d.code q)) := fun q => by
    by_cases hq : q = p
    · subst hq; rw [hself]; exact nil_sublist _
    · rw [hcode q hq]
  have hc := h.consistent
  refine ⟨⟨hc.rep, hc.prio, hc.runnable, hc.linked, hc.idle, hc.pickedAgain⟩,
    .executing ph hcur hph (hhere.symm ▸ hfit) (by simp [hhere, htop]), fun q hq => ?_,
    ⟨fun q np hnp => h.forks.used q np ((hsub q).subset hnp), fun q q' np hnp hnp' =>
      h.forks.owner q q' np ((hsub q).subset hnp) ((hsub q').subset hnp'),
      fun q => (h.forks.once q).sublist (hsub q)⟩, h.alone, h.idle⟩
  by_cases hqp : q = p
  · subst hqp
    rw [hself]
    exact ⟨rfl, hidle, rfl, rfl, hidle⟩
  · rw [hcode q hqp]
    exact h.parked q hq

section

variable {n : ℕ} {j : ProcId} (hhere : d.here = .fork n :: c)
  (hfit : Fits x (d.isIdle d.run) ph (.fork n :: c)) (hj : (d.proc j).state = .unused)

include hhere hfit hj

theorem Inv.forkAlloc :
    Inv x ((d.forkAt j true).goto (.forkParent j :: c)) := by
  obtain ⟨rfl, hw, ht, hc⟩ := hfit
  have hst := hph.running hw
  have hjr : j ≠ d.run := fun he => by rw [he, hst] at hj; cases hj
  have hr : Restate j .used d (d.forkAt j true) := forkAt_restate true hj
  have hr' : Restate j .used (d.writeContext j) (d.forkAt j true) :=
    ⟨hr.state, hr.rep, hr.prio, hr.prioSelf, hr.idleproc, hr.pickedAgain⟩
  have h' : Inv x (d.writeContext j) :=
    h.writeContext hcur hph (hhere ▸ ⟨rfl, hw, ht, hc⟩) (by rw [hhere]; rfl) hj hjr
  have hf := forkAt_frame hj
  have hl := h.consistent.not_linked (p := j) (by simp [hj])
  have hi := h.consistent.ne_idle (p := j) (by simp [hj])
  have hpend : pending c = pending (d.writeContext j).here := by
    rw [show (d.writeContext j).here = d.here from update_of_ne hjr.symm _ _, hhere]
    rfl
  refine h'.next .running hf hcur (hr'.consistent h'.consistent hl hi (by simp))
    ⟨.inr ?_, ?_⟩ ⟨rfl, hw, ht, hc⟩ (by simp [needTop]) (h'.forks.alloc hf hj hr' hpend)
    (fun hs he q hq => ?_) (fun hx w hw' => ?_)
  · rw [hf.run]
    exact (hr.state d.run).trans ((if_neg hjr.symm).trans hst)
  · rw [hf.run]
    exact mt (hr.linked h.consistent hl).1 hph.2
  · rw [hr'.state] at hq
    split_ifs at hq
    exact h.alone hs he q hq
  · have hwj : w ≠ j := fun he => hi (he ▸ hw')
    obtain ⟨hwl, hwp⟩ := h.idle hx w hw'
    exact ⟨mt (hr.linked h.consistent hl).1 hwl, (hr.prio w hwj).trans hwp⟩

theorem Inv.forkUndo (hq : Quiet (d.forkAt j false) d1) :
    Inv x (d1.goto c) := by
  obtain ⟨rfl, hw, ht, hc⟩ := hfit
  have hst := hph.running hw
  have hjr : d.run ≠ j := fun he => by rw [← he, hst] at hj; cases hj
  have hr : Restate j .unused d d1 := (forkAt_restate false hj).quiet hq
  have hf : Frame d d1 := forkAt_undo_frame.trans hq.toFrame
  refine h.restate .running hf hr (by simp [hj]) (by simp) (by simp) (by simp [hj]) hcur
    ⟨.inr ?_, ?_⟩ hc ht (by rw [hhere]; exact .refl _)
  · rw [hf.run, hr.state, if_neg hjr]; exact hst
  · rw [hf.run]
    exact mt (hr.linked h.consistent (h.consistent.not_linked (by simp [hj]))).1 hph.2

end

theorem Inv.forkRun {np : ProcId} {d2 : Sys} (hhere : d.here = .forkRun np :: c)
    (hfit : Fits x (d.isIdle d.run) ph (.forkRun np :: c))
    (he : d.forkRun np d.run = some d1) (hq : Quiet d1 d2) : Inv x (d2.goto c) := by
  obtain ⟨rfl, hw, ht, hc⟩ := hfit
  have hst := hph.running hw
  have hused : (d.proc np).state = .used := by
    refine h.forks.used d.run np ?_
    rw [show d.code d.run = _ from hhere]
    exact mem_cons_self
  have hne : d.run ≠ np := fun he => by rw [← he, hst] at hused; cases hused
  have hen := forkRun_entered h.consistent (h.consistent.not_linked (by simp [hused])) he
  have hf : Frame d d2 := hen.toFrame.trans hq.toFrame
  have hstate : ∀ q, q ≠ np → (d2.proc q).state = (d.proc q).state := fun q hqn => by
    rw [hq.state, hen.state, if_neg hqn]
  refine h.next .running hf hcur (hq.consistent hen.consistent) ⟨.inr ?_, ?_⟩ hc
    (by simp [ht]) (h.forks.start hf hhere hstate) (fun hs he q hqr => ?_) (fun hx w hw' => ?_)
  · rw [hf.run, hstate _ hne]; exact hst
  · rw [hf.run, hq.rq, hen.linked]
    exact not_or.2 ⟨hph.2, hne⟩
  · refine h.alone hs he q ?_
    by_cases hqn : q = np
    · subst hqn
      rw [hq.state, hen.state, if_pos rfl] at hqr
      cases hqr
    · exact hstate q hqn ▸ hqr
  · have hwn : w ≠ np := fun he => h.consistent.ne_idle (by simp [hused]) (he ▸ hw')
    obtain ⟨hwl, hwp⟩ := h.idle hx w hw'
    rw [hq.rq, hen.linked, hen.prio w hwn]
    exact ⟨not_or.2 ⟨hwl, hwn⟩, hwp⟩

/-! ## `yield` and `schedule` -/

/-- `yield` puts the running process on the run queue. -/
theorem Inv.yield (hhere : d.here = .yield :: c) (hfit : Fits x (d.isIdle d.run) ph (.yield :: c))
    (he : d.makeRunnable d.run = some d1) : Inv x (d1.goto (.schedule :: c)) := by
  obtain ⟨hq, -, -, hw, hy, hc⟩ := hfit
  have hen := makeRunnable_entered h.consistent (hph.not_linked h.consistent hq) he
  have hleaves : Leaves x .queued c := by
    unfold ofYield at hy
    split at hy
    · rfl
    · cases hy
  have hstate : ∀ q, q ≠ d.run → (d1.proc q).state = (d.proc q).state := fun q hqr => by
    rw [hen.state, if_neg hqr]
  refine h.next .queued hen.toFrame hcur hen.consistent ?_ ⟨hleaves, hc⟩ (by simp [needTop])
    (h.forks.goto hen.code hen.run ?_ fun np hnp => ?_) (fun hs he q hqr => ?_) (fun hx w hw' => ?_)
  · rw [InPhase, hen.run, hen.linked]; exact .inr rfl
  · rw [hhere]; exact .refl _
  · rw [hstate np fun he => hph.not_used h.consistent (he ▸ hnp)]; exact hnp
  · by_cases hqd : q = d.run
    · subst hqd
      rw [hen.state, if_pos rfl] at hqr
      cases hqr
    · exact h.alone hs he q (hstate q hqd ▸ hqr)
  · have hwr : w ≠ d.run := fun he => isIdle_eq_false.1 (hw hx) (he ▸ hw')
    obtain ⟨hwl, hwp⟩ := h.idle hx w hw'
    rw [hen.linked, hen.prio w hwr]
    exact ⟨not_or.2 ⟨hwl, hwr⟩, hwp⟩

end

section

variable {q : ProcId}

theorem Picked.forks (hpk : Picked q d d1) (h : Inv x d)
    (hc : (pending c').Sublist (pending d.here)) : Forks (d1.goto c') := by
  refine h.forks.goto hpk.code hpk.run hc fun np hnp => ?_
  have hne : np ≠ q := fun he => by rw [he, hpk.wasRunnable] at hnp; cases hnp
  rw [hpk.state np hne]
  exact hnp

theorem Picked.idle_unlinked (hpk : Picked q d d1) (h : Inv x d) (hx : x.idle = true) (w : ProcId)
    (hw : d.idleproc = some w) : ¬ d1.rq.Linked w ∧ d1.rq.prio w = prioMax := by
  obtain ⟨hl, hp⟩ := h.idle hx w hw
  rw [hpk.linked, hpk.prio]
  exact ⟨fun hl' => hl hl'.1, hp⟩

theorem Inv.pickSelf {i : Bool} (h : Inv x d) (hcur : d.cur = some d.run)
    (hhere : d.here = .schedulePick i :: c)
    (hfit : Fits x (d.isIdle d.run) ph (.schedulePick i :: c)) (hpk : Picked d.run d d1) :
    Inv x (d1.goto (.scheduleEnd i :: c)) := by
  have hf : Frame d d1 := ⟨hpk.code, hpk.run, hpk.cur.trans hcur.symm, hpk.idleproc, hpk.initproc⟩
  refine h.next .running hf hcur hpk.consistent ⟨?_, ?_⟩ ⟨rfl, hfit.2⟩ (fun _ => hpk.top)
    (hpk.forks h ?_) (fun hs he p hp => ?_) (hpk.idle_unlinked h)
  · rw [hf.run, hf.idleproc]; exact hpk.picked
  · rw [hf.run, hpk.linked]; exact fun hl => hl.2 rfl
  · rw [hhere]; exact .refl _
  · by_cases hpr : p = d.run
    · rw [hpr]; exact hcur
    · exact h.alone hs he p (hpk.state p hpr ▸ hp)

/-- Where the races are excluded, only idle calls `schedule` while it is running. -/
theorem Leaves.idle (h : Leaves x .running c) (hfit : Fits x (d.isIdle d.run) .running c)
    (hs : x.sleep = true) (he : x.exit = true) : d.idleproc = some d.run := by
  unfold Leaves at h
  split at h
  · simp [hs] at h
  · simp [he] at h
  · cases h
  · exact isIdle_eq_true.1 hfit.2
  · exact h.elim

theorem Inv.pickOther {i : Bool} (h : Inv x d) (hcur : d.cur = some d.run) (hph : d.InPhase ph)
    (hhere : d.here = .schedulePick i :: c)
    (hfit : Fits x (d.isIdle d.run) ph (.schedulePick i :: c)) (hpk : Picked q d d1)
    (hq : q ≠ d.run) : Inv x (d1.goto (.swtch q i :: c)) := by
  obtain ⟨hleaves, hc⟩ := hfit
  have hst : (d1.proc d.run).state = (d.proc d.run).state := hpk.state d.run hq.symm
  have hlink : d1.rq.Linked d.run ↔ d.rq.Linked d.run := by
    rw [hpk.linked, and_iff_left hq.symm]
  have hidle : ∀ p, d1.isIdle p = d.isIdle p := fun p => by rw [isIdle, isIdle, hpk.idleproc]
  have hph' : d1.InPhase ph := by
    cases ph with
    | running => rw [InPhase, hpk.run, hpk.idleproc, hst, hlink]; exact hph
    | asleep | dead => rw [InPhase, hpk.run, hst]; exact hph
    | queued => rw [InPhase, hpk.run, hlink]; exact hph
  refine ⟨hpk.consistent.goto _, .switching ph (here_goto d1 _) hpk.cur (hpk.run.symm ▸ hq) hph'
    hleaves ?_ (hpk.idleproc.symm ▸ hpk.picked) (fun hl => ((hpk.linked q).1 hl).2 rfl) hpk.top,
    fun p hp => ?_, hpk.forks h ?_, fun hs he p hp => ?_, fun hx w hw =>
    hpk.idle_unlinked h hx w (hpk.idleproc ▸ hw)⟩
  · have hrun : (d1.goto (.swtch q i :: c)).isIdle d1.run = d.isIdle d.run := by
      rw [← hpk.run]; exact hidle d1.run
    exact hrun.symm ▸ hc
  · have hp' : p ≠ d1.run := hp
    rw [code_goto_of_ne hp', hpk.code, show (d1.goto (.swtch q i :: c)).isIdle p = _ from hidle p]
    exact h.parked p (hpk.run ▸ hp')
  · rw [hhere]; exact .refl _
  · have hpq : p = q := by
      by_contra hne
      -- otherwise the process that gives up the CPU would be running, so idle, so runnable
      have hold : (d.proc p).state = .running := hpk.state p hne ▸ hp
      obtain rfl : d.run = p := some.inj (hcur.symm.trans (h.alone hs he p hold))
      have hnotidle := h.consistent.ne_idle (p := d.run) (by simp [hold])
      rcases hph.state h.consistent with hst | hst <;> rw [hold] at hst
      · cases ph with
        | running => exact hnotidle (hleaves.idle hc hs he)
        | asleep | dead | queued => cases hst
      · cases hst
    rw [hpq]; exact hpk.cur

end

theorem Inv.swtch {next : ProcId} {i : Bool} (h : Inv x d) (hhere : d.here = .swtch next i :: c)
    (hcur : d.cur = some next) (hne : next ≠ d.run)
    (hc : Fits x (d.isIdle d.run) .running c)
    (hnext : d.idleproc = some next ∨ (d.proc next).state = .running)
    (hl : ¬ d.rq.Linked next) (htop : d.Top next) :
    Inv x { d.goto (.scheduleEnd i :: c) with run := next } := by
  have hcons := h.consistent
  have hself : (d.goto (.scheduleEnd i :: c)).code d.run = .scheduleEnd i :: c := here_goto d _
  have hforks : Forks (d.goto (.scheduleEnd i :: c)) :=
    h.forks.goto rfl rfl (by rw [hhere]; exact .refl _) fun _ hnp => hnp
  refine ⟨⟨hcons.rep, hcons.prio, hcons.runnable, hcons.linked, hcons.idle,
    hcons.pickedAgain⟩, .executing .running hcur ⟨hnext, hl⟩ ?_ fun _ => htop, fun q hq => ?_,
    ⟨hforks.used, hforks.owner, hforks.once⟩, h.alone, h.idle⟩
  · rw [show Sys.here { d.goto (.scheduleEnd i :: c) with run := next } = d.code next from
      code_goto_of_ne hne]
    exact h.parked next hne
  · by_cases hqr : q = d.run
    · subst hqr
      exact hself.symm ▸ ⟨rfl, hc⟩
    · exact (code_goto_of_ne hqr).symm ▸ h.parked q hqr

/-! ## One step -/

/-- A tick in kernel code that makes the running process yield, in a run that avoids the
races. -/
theorem Inv.kerneltrapYield {s : Snap} (h : Inv x d) (hav : Avoids x d)
    (hcur : d.cur = some d.run) (hph : d.InPhase ph) (hhere : d.here = .kerneltrap .timer :: c)
    (hfit : Fits x (d.isIdle d.run) ph (.kerneltrap .timer :: c)) (he : d.tick = some d1)
    (hpre : d1.rq.prioShouldPreempt (d1.rq.prio d.run) = true) :
    Inv x (d1.goto (.yield :: .ret s :: .kerneltrapRet 2 :: c)) := by
  obtain ⟨hq, ht, hc⟩ := hfit
  obtain ⟨hsleep, hexit, hidle⟩ :=
    hav (by simp [atTick, hhere]) (by simp [preempts, he, hpre])
  have hasleep : x.sleep = true → ph ≠ .asleep := fun hx he => hsleep hx (he ▸ hph :)
  have hdead : x.exit = true → ph ≠ .dead := fun hx he => hexit hx (he ▸ hph :)
  exact h.mild (tick_mild he h.consistent) hcur hph
    ⟨hq, hasleep, hdead, fun hx => isIdle_eq_false.2 (hidle hx), rfl, rfl, by simp, ht,
      hc.resumed hq (fun he => Bool.eq_false_iff.2 fun hx => hasleep hx he)
        (fun he => Bool.eq_false_iff.2 fun hx => hdead hx he)⟩
    (by simp [needTop]) (by rw [hhere]; exact .refl _)

/-- **Every step of the machine keeps the invariant** when it is not one of the excluded
races. -/
theorem Step.inv {e : Event} (hs : Step d e d') (h : Inv x d) (hav : Avoids x d) : Inv x d' := by
  cases h.stage with
  | executing ph hcur hph hfit htop =>
    cases hs with
    | acquire => exact h
    | release => exact h
    | jump hj hq =>
      exact h.mild (hq.mild h.consistent) hcur hph (hj.fits hfit)
        (fun ht q hl => by rw [hq.rq] at hl ⊢; exact htop (hj.needTop hfit ht) q hl)
        (by rw [hj.pending])
    | wakeup hhere hpt he =>
      refine h.woken (wakeup_mild he h.consistent) hcur hph hfit ?_
      rcases hpt with rfl | rfl <;> rw [hhere] <;> rfl
    | usertrap hhere he =>
      rw [hhere] at hfit
      exact h.mild (devintr_mild he h.consistent) hcur hph hfit (by simp [needTop])
        (by rw [hhere]; exact .refl _)
    | usertrapYield hhere he hq =>
      rw [hhere] at hfit
      obtain ⟨rfl, hw, ht, hc⟩ := hfit
      have hm := rqOnTick_mild he h.consistent
      exact h.mild (hm.trans (hq.mild hm.consistent)) hcur hph
        ⟨by simp, by simp, by simp, fun _ => hw, rfl, rfl, rfl, hw, ht, hc⟩ (by simp [needTop])
        (by rw [hhere]; exact .refl _)
    | usertrapStay hhere he hno =>
      rw [hhere] at hfit
      obtain ⟨rfl, hw, ht, hc⟩ := hfit
      have hm := rqOnTick_mild he h.consistent
      exact h.mild hm hcur hph ⟨rfl, hw, ht, hc⟩
        (fun _ => hm.consistent.top_of_not_preempt (hno (hph.running hw)))
        (by rw [hhere]; exact .refl _)
    | kerneltrapDevice hhere he =>
      rw [hhere] at hfit
      exact h.mild (device_mild he h.consistent) hcur hph hfit (by simp [needTop])
        (by rw [hhere]; exact .refl _)
    | kerneltrapYield hhere he hpre =>
      exact h.kerneltrapYield hav hcur hph hhere (hhere ▸ hfit) he hpre
    | kerneltrapStay hhere he hno =>
      rw [hhere] at hfit
      have hm := tick_mild he h.consistent
      exact h.mild hm hcur hph hfit (fun _ => hm.consistent.top_of_not_preempt hno)
        (by rw [hhere]; exact .refl _)
    | kill hhere he hq =>
      rw [hhere] at hfit
      obtain ⟨rfl, hw, ht, hc⟩ := hfit
      have hst := hph.running hw
      have hm := killAt_mild he h.consistent fun p hp => by
        cases hcur.symm.trans hp
        simp [hst]
      exact h.mild (hm.trans (hq.mild hm.consistent)) hcur hph hc (by simp [ht])
        (by rw [hhere]; exact .refl _)
    | forkAlloc hhere hj => exact h.forkAlloc hcur hph hhere (hhere ▸ hfit) hj
    | forkUndo hhere hj hq => exact h.forkUndo hcur hph hhere (hhere ▸ hfit) hj hq
    | forkRun hhere he hq => exact h.forkRun hcur hph hhere (hhere ▸ hfit) he hq
    | exit hhere he => exact h.exit hcur hph hhere (hhere ▸ hfit) he
    | reap hhere he =>
      have hz := find?_some he
      rw [decide_eq_true_eq] at hz
      exact h.reap hcur hph hhere (hhere ▸ hfit) hz.2
    | sleep hhere he => exact h.sleep hcur hph hhere (hhere ▸ hfit) he
    | yield hhere he => exact h.yield hcur hph hhere (hhere ▸ hfit) he
    | pickSelf hhere he hself =>
      obtain ⟨q, hpk⟩ := pickLoop_picked h.consistent he
      cases hpk.cur.symm.trans hself
      exact h.pickSelf hcur hhere (hhere ▸ hfit) hpk
    | pickOther hhere he hnext hne =>
      obtain ⟨q, hpk⟩ := pickLoop_picked h.consistent he
      cases hpk.cur.symm.trans hnext
      exact h.pickOther hcur hph hhere (hhere ▸ hfit) hpk hne
    | swtch hhere => rw [hhere] at hfit; exact hfit.elim
  | switching ph hhere hcur hne hph hleaves hc hnext hl htop =>
    cases hs with
    | acquire => exact h
    | release => exact h
    | swtch hhere' =>
      rw [hhere, cons.injEq, Point.swtch.injEq] at hhere'
      obtain ⟨⟨rfl, rfl⟩, rfl⟩ := hhere'
      exact h.swtch hhere hcur hne hc hnext hl htop
    | jump hj hq =>
      rw [hhere] at hj
      cases hj with
      | kernelTrap _ hm => simp [masked] at hm
      | callSleep _ hpt | leave _ hpt => simp [Outside] at hpt
    | wakeup hhere' hpt =>
      rw [hhere, cons.injEq] at hhere'
      simp [← hhere'.1, Outside] at hpt
    | _ hhere' => simp [hhere] at hhere'

end Sys

/-! ## Runs -/

namespace Kernel

variable {x : Races} {k : Kernel}

/-- The queues when the idle process starts: the first user process waits at its default
priority. -/
def bootQueues (l : Level) : List ProcId := if (l : ℤ) = prioDefault then [0] else []

theorem boot_inv (h : boot = some k) : k.data.Inv x := by
  have hqueue : boot.all (fun k => decide (k.data.rq.Rep bootQueues)) = true := by decide +kernel
  have hprocs : boot.all (fun k : Kernel => decide (∀ p : ProcId,
      (0 ≤ k.data.rq.prio p ∧ k.data.rq.prio p < NPRIO) ∧
      (k.data.rq.Linked p → (k.data.proc p).state = .runnable) ∧
      ((k.data.proc p).state = .runnable → k.data.idleproc ≠ some p → k.data.rq.Linked p) ∧
      (k.data.proc p).state ≠ .running ∧
      (p ≠ 1 → k.data.code p = [] ∨ k.data.code p = [.forkret, .user]))) = true := by
    decide +kernel
  have hidle : boot.all (fun k => decide (k.data.idleproc = some 1 ∧
      (k.data.proc 1).state = .runnable ∧ ¬ k.data.rq.Linked 1 ∧ k.data.rq.prio 1 = prioMax ∧
      k.data.code 1 = [.idleMain])) = true := by decide +kernel
  have hcpu : boot.map (fun k => (k.data.cur, k.data.run, k.data.pickedAgain)) =
      some (some 1, 1, false) := by decide +kernel
  simp only [h, all_some, decide_eq_true_eq, map_some, some.injEq,
    Prod.mk.injEq] at hqueue hprocs hidle hcpu
  obtain ⟨hi, hist, hil, hip, hicode⟩ := hidle
  obtain ⟨hcur, hrun, hpicked⟩ := hcpu
  have hhere : k.data.here = [.idleMain] := by rw [Sys.here, hrun, hicode]
  have hcode : ∀ p, Sys.pending (k.data.code p) = [] := fun p => by
    by_cases hp : p = 1
    · rw [hp, hicode]; rfl
    · rcases (hprocs p).2.2.2.2 hp with hc | hc <;> rw [hc] <;> rfl
  refine ⟨⟨⟨_, hqueue⟩, fun p => (hprocs p).1, fun p => (hprocs p).2.1,
    fun p => (hprocs p).2.2.1, ⟨1, hi, hist⟩, hpicked⟩,
    .executing .running (hrun ▸ hcur) ⟨.inl (hrun ▸ hi), hrun ▸ hil⟩ ?_
      (by simp [hhere, Sys.needTop]), fun q hq => ?_,
    ⟨fun q np hnp => ?_, fun q q' np hnp => ?_, fun q => ?_⟩,
    fun _ _ q hq => absurd hq (hprocs q).2.2.2.1, fun _ w hw => ?_⟩
  · rw [hhere]
    exact ⟨rfl, Sys.isIdle_eq_true.2 (hrun ▸ hi)⟩
  · have hq1 : q ≠ 1 := hrun ▸ hq
    have hw : k.data.isIdle q = false := Sys.isIdle_eq_false.2 fun he =>
      hq1 (some.inj (he.symm.trans hi))
    rcases (hprocs q).2.2.2.2 hq1 with hc | hc <;> rw [hc]
    · rfl
    · exact ⟨rfl, hw, rfl, rfl, hw⟩
  · simp [hcode] at hnp
  · simp [hcode] at hnp
  · rw [hcode]; exact nodup_nil
  · cases hi.symm.trans hw
    exact ⟨hil, hip⟩

/-- **The scheduling invariant holds in every state reached without the excluded races.** -/
theorem reachable_inv (h : ReachableBy (fun _ k => k.data.Avoids x) k) : k.data.Inv x := by
  obtain ⟨k0, hboot, hr⟩ := h
  refine (hr.invariant (I := fun k => Disciplined k ∧ k.data.Inv x)
    ⟨boot_disciplined hboot, boot_inv hboot⟩ fun _ _ _ ⟨hd, hi⟩ hav hs => ?_).2
  obtain ⟨hd', hstep⟩ := step_atomic hd hs
  exact ⟨hd', hstep.inv hi hav⟩

def noRaces : Races := ⟨false, false, false⟩

/-- With no race excluded, the invariant holds in every reachable state. -/
theorem Reachable.inv (h : Reachable k) : k.data.Inv noRaces := by
  obtain ⟨k0, hboot, hr⟩ := h
  refine reachable_inv ⟨k0, hboot, hr.mono fun _ _ _ _ _ => ?_⟩
  simp [noRaces]

end Kernel

end Xv6
