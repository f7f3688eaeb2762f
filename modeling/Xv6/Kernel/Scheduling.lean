import Xv6.Kernel.Invariant

/-!
# Scheduling: what holds whenever interrupts are enabled

Consequences of the scheduling invariant for states outside interrupt-disabled sections
(`k.ctl.sie = true`), and for the ends of timer interrupt handlers.

Main results: `run_queue_agrees`, `tick_respects_priority`, `no_process_stranded` and
`idle_runs_last`. The last two are about runs without certain preemptions; `sleeper_stranded` and
`idle_linked` are runs with one.
-/

open List Transition

namespace Xv6

open Sys

namespace Sys

/-- Every process that is neither current, idle, free, new nor dead can still be found: it is
`RUNNABLE` and linked, or `SLEEPING`. In particular only the current process is `RUNNING`. -/
def Accounted (d : Sys) : Prop :=
  (∀ p, d.cur ≠ some p → d.idleproc ≠ some p →
    (d.proc p).state ∉ [.unused, .used, .zombie] →
    (d.proc p).state = .runnable ∧ d.rq.Linked p ∨ (d.proc p).state = .sleeping) ∧
  ∀ p, d.cur ≠ some p → (d.proc p).state ≠ .running

instance (d : Sys) : Decidable d.Accounted := by unfold Accounted; infer_instance

theorem Step.picked {x : Races} {d d' : Sys} {ok i : Bool} {c : List Point}
    (hs : Step d (.exec ok) d') (h : Inv x d) (hhere : d.here = .schedulePick i :: c) :
    ∃ q d1, Picked q d d1 ∧ d'.cur = d1.cur := by
  cases hs with
  | pickSelf _ he _ | pickOther _ he _ _ =>
    obtain ⟨q, hpk⟩ := pickLoop_picked h.consistent he
    exact ⟨q, _, hpk, rfl⟩
  | jump hj _ =>
    rw [hhere] at hj
    cases hj with
    | kernelTrap he _ => simp [Enters] at he
  | _ => simp_all

end Sys

namespace Kernel

variable {x : Races} {k : Kernel}

/-! ## Outside interrupt-disabled sections -/

/-- With interrupts enabled the running process is the current one and is not linked. -/
theorem Disciplined.cur_not_linked (hd : Disciplined k) (h : k.data.Inv x)
    (hsie : k.ctl.sie = true) :
    k.data.cur = some k.data.run ∧ ¬ k.data.rq.Linked k.data.run := by
  cases hd.mode with
  | switching hhere hok hsh hcur => simp [hok.sie_nil] at hsie
  | executing hok hsh hcur =>
    obtain ⟨rfl, rfl⟩ := hok.of_sie hsie
    refine ⟨hcur, ?_⟩
    cases h.stage with
    | switching ph hhere => rw [hhere] at hsh; exact hsh.elim
    | executing ph _ hph hfit =>
      refine hph.not_linked h.consistent fun hq => ?_
      subst hq
      exact hsh.not_masked hfit.masked_of_queued rfl

/-! ## Runs to look at

The first user process is slot `0` and idle is slot `1`; the first child is slot `2`. -/

/-- `n` statements of the running thread. -/
def statements (n : ℕ) : List Event := replicate n (.exec true)

/-- The first user process gets to user mode. -/
def startInit : List Event := statements 6 ++ [.leave] ++ statements 2

/-- From user mode, a system call that forks and goes on in the kernel. -/
def forkChild : List Event := [.trap .ecall] ++ statements 1 ++ [.fork] ++ statements 5

/-- In a system call: `sleep(&ticks, &tickslock)` up to `release(&p->lock)`. -/
def sleepOnTicks : List Event := [.acquire .tickslock, .sleep .ticks .tickslock, .exec true]

/-- A timer interrupt and `n` statements. -/
def tickThen (n : ℕ) : List Event := .interrupt .timer :: statements n

/-! ## The run queue and the process table -/

theorem queue_nodup {r : RunQueue} {Q : Level → List ProcId} (h : r.Rep Q) :
    ((finRange NPRIO).flatMap r.queue).Nodup := by
  refine nodup_flatMap.2 ⟨fun l _ => ?_, ?_⟩
  · rw [h.queue_eq]; exact h.nodup l
  · refine (nodup_finRange NPRIO).imp fun {l m} hne p hl hm => ?_
    rw [h.queue_eq] at hl hm
    exact hne (h.level_unique hl hm)

/-- **The run queue agrees with the process table.** Between any two statements no process is
linked twice, the processes other than idle that are linked are the `RUNNABLE` ones, and each
sits in the level of its priority; outside interrupt-disabled sections the current process is
not linked. The `pick again` branch of `schedule` is never taken, and `rq_push_tail` is never
applied to a linked process. -/
theorem run_queue_agrees (k : Kernel) (h : Reachable k) :
    ((finRange NPRIO).flatMap k.data.rq.queue).Nodup ∧
    (∀ p, k.data.idleproc ≠ some p → (k.data.rq.Linked p ↔ (k.data.proc p).state = .runnable)) ∧
    (∀ p l, p ∈ k.data.rq.queue l →
      k.data.rq.prio p = l ∧ 0 ≤ k.data.rq.prio p ∧ k.data.rq.prio p < NPRIO) ∧
    (k.ctl.sie = true → ∀ p, k.data.cur = some p → ¬ k.data.rq.Linked p) ∧
    k.data.pickedAgain = false ∧ k.data.rq.relinked = false := by
  have hinv := h.inv
  have hc := hinv.consistent
  obtain ⟨Q, hQ⟩ := hc.rep
  refine ⟨queue_nodup hQ, fun p hp => ⟨hc.runnable p, fun hr => hc.linked p hr hp⟩,
    fun p l hl => ⟨?_, hc.prio p⟩, fun hsie p hp => ?_, hc.pickedAgain, hQ.relinked⟩
  · rw [hQ.queue_eq] at hl
    exact hQ.prio l p hl
  · obtain ⟨hcur, hnl⟩ := (reachable_disciplined h).cur_not_linked hinv hsie
    cases hcur.symm.trans hp
    exact hnl

/-- After the first `fork` the child is linked, so it is `RUNNABLE`. -/
theorem run_queue_agrees_after_fork : ∃ k, Reachable k ∧ k.ctl.sie = true ∧ k.data.rq.Linked 2 ∧
      (k.data.proc 2).state = .runnable := by
  have hrun : (bootRun anyEvent (startInit ++ forkChild)).any
      (fun k => decide (k.ctl.sie = true ∧ k.data.rq.Linked 2 ∧ k.data.idleproc ≠ some 2)) =
      true := by decide +kernel
  obtain ⟨k, hk, hsie, hl, hi⟩ := reachable_of_run hrun
  exact ⟨k, hk, hsie, hl, ((run_queue_agrees k hk).2.1 2 hi).1 hl⟩

/-! ## Ticks respect priorities -/

/-- **Priority is respected at every tick.** When the handler of a timer interrupt is about to
return to the interrupted code of the running process, no linked process has a strictly smaller
`prio`. -/
theorem tick_respects_priority (k : Kernel) (h : Reachable k) (c : List Point)
    (hret : k.data.here = .kerneltrapRet 2 :: c ∨ k.data.here = .usertrapRet 2 :: c)
    (q : ProcId) (hq : k.data.rq.Linked q) : ¬ k.data.rq.prio q < k.data.rq.prio k.data.run := by
  cases h.inv.stage with
  | switching ph hhere => rcases hret with hr | hr <;> simp [hhere] at hr
  | executing ph hcur hph hfit htop =>
    have hneed : needTop k.data.here = true := by rcases hret with hr | hr <;> rw [hr] <;> rfl
    exact not_lt.2 (htop hneed q hq)

/-- Parent and child preempt one another; when the parent's handler returns, the child waits at
the same priority. -/
theorem tick_respects_priority_between_equals :
    ∃ k c, Reachable k ∧ k.data.here = .usertrapRet 2 :: c ∧ k.data.rq.Linked 2 ∧
      ¬ k.data.rq.prio 2 < k.data.rq.prio k.data.run := by
  have hrun : (bootRun anyEvent
      (startInit ++ forkChild ++ [.leave] ++ statements 2 ++ tickThen 9 ++ tickThen 9)).any
      (fun k => decide (k.data.here = [.usertrapRet 2, .user] ∧ k.data.rq.Linked 2)) = true := by
    decide +kernel
  obtain ⟨k, hk, hhere, hl⟩ := reachable_of_run hrun
  exact ⟨k, _, hk, hhere, hl, tick_respects_priority k hk _ (.inr hhere) 2 hl⟩

/-! ## Stranded processes -/

/-- A run avoids the races in `sleep` and `exit`: no tick preempts the current process while it
is `SLEEPING` or a `ZOMBIE`. -/
def noWindowTick (_ : Event) (k : Kernel) : Prop := k.data.Avoids ⟨true, true, false⟩

instance (e : Event) (k : Kernel) : Decidable (noWindowTick e k) := by
  unfold noWindowTick; infer_instance

/-- **No process is stranded** in a run without ticks that preempt a process which has marked
itself `SLEEPING` or `ZOMBIE` and has not yet disabled interrupts in `schedule`. -/
theorem no_process_stranded (k : Kernel) (h : ReachableBy noWindowTick k) : k.data.Accounted := by
  have hinv : k.data.Inv ⟨true, true, false⟩ := reachable_inv h
  have halone : ∀ p, k.data.cur ≠ some p → (k.data.proc p).state ≠ .running :=
    fun p hp hst => hp (hinv.alone rfl rfl p hst)
  refine ⟨fun p hcur hidle hlive => ?_, halone⟩
  cases hst : (k.data.proc p).state with
  | unused | used | zombie => simp [hst] at hlive
  | sleeping => exact .inr rfl
  | runnable => exact .inl ⟨rfl, hinv.consistent.linked p hst hidle⟩
  | running => exact absurd hst (halone p hcur)

/-- The first user process sleeps, undisturbed, and its child runs. -/
theorem no_process_stranded_by_quiet_sleep :
    ∃ k, ReachableBy noWindowTick k ∧ k.ctl.sie = true ∧ k.data.cur = some 2 ∧
      (k.data.proc 0).state = .sleeping ∧ k.data.Accounted := by
  have hrun : (bootRun noWindowTick (startInit ++ forkChild ++ sleepOnTicks ++ statements 6)).any
      (fun k => decide (k.ctl.sie = true ∧ k.data.cur = some 2 ∧
        (k.data.proc 0).state = .sleeping)) = true := by decide +kernel
  obtain ⟨k, hk, hsie, hcur, hst⟩ := reachable_of_run hrun
  exact ⟨k, hk, hsie, hcur, hst, no_process_stranded k hk⟩

/-- A tick preempts the first user process in `sleep`, just before `schedule` disables
interrupts. Its child runs and is preempted in turn; the parent comes back as `RUNNING`, executes
`schedule` and leaves the CPU. It is in no queue, and no `wakeup` will find it. -/
def strandingRun : List Event :=
  startInit ++ forkChild ++ sleepOnTicks ++ tickThen 8 ++ tickThen 10 ++ statements 7

theorem sleeper_stranded : ∃ k, Reachable k ∧ k.ctl.sie = true ∧ (k.data.proc 0).state = .running ∧
      ¬ k.data.Accounted := by
  have hrun : (bootRun anyEvent strandingRun).any
      (fun k => decide (k.ctl.sie = true ∧ (k.data.proc 0).state = .running ∧
        ¬ k.data.Accounted)) = true := by decide +kernel
  exact reachable_of_run hrun

/-! ## The idle process -/

/-- No tick preempts the idle process. -/
def noIdleTick (_ : Event) (k : Kernel) : Prop := k.data.Avoids ⟨false, false, true⟩

instance (e : Event) (k : Kernel) : Decidable (noIdleTick e k) := by
  unfold noIdleTick; infer_instance

/-- **Idle runs only when there is nothing else to run**, in a run without ticks that preempt
idle: it is not linked, its priority is still `PRIO_MAX`, and `schedule` selects it only when no
other process is `RUNNABLE`. -/
theorem idle_runs_last (k : Kernel) (h : ReachableBy noIdleTick k) (w : ProcId)
    (hw : k.data.idleproc = some w) :
    ¬ k.data.rq.Linked w ∧ k.data.rq.prio w = prioMax ∧
    ∀ ok i c k', k.data.here = .schedulePick i :: c → step (.exec ok) k = some k' →
      k'.data.cur = some w → ∀ p, p ≠ w → (k.data.proc p).state ≠ .runnable := by
  have hinv : k.data.Inv ⟨false, false, true⟩ := reachable_inv h
  obtain ⟨hl, hp⟩ := hinv.idle rfl w hw
  refine ⟨hl, hp, fun ok i c k' hhere hs hcur p hpw hst => ?_⟩
  obtain ⟨q, d, hpk, hq⟩ := (step_atomic (reachable_disciplined h) hs).2.picked hinv hhere
  obtain rfl : q = w := Option.some.inj ((hq.trans hpk.cur).symm.trans hcur)
  rcases hpk.idle hw with hlw | hnone
  · exact hl hlw
  · refine hnone p (hinv.consistent.linked p hst fun hi => hpw ?_)
    exact Option.some.inj (hi.symm.trans hw)

/-- The first user process runs, after idle has switched to it undisturbed. -/
theorem idle_runs_last_at_start :
    ∃ k, ReachableBy noIdleTick k ∧ k.data.cur = some 0 ∧ ¬ k.data.rq.Linked 1 ∧
      k.data.rq.prio 1 = prioMax := by
  have hrun : (bootRun noIdleTick startInit).any
      (fun k => decide (k.data.cur = some 0 ∧ k.data.idleproc = some 1)) = true := by
    decide +kernel
  obtain ⟨k, hk, hcur, hi⟩ := reachable_of_run hrun
  obtain ⟨hl, hp, -⟩ := idle_runs_last k hk 1 hi
  exact ⟨k, hk, hcur, hl, hp⟩

/-- A tick interrupts idle between `intr_on()` and `schedule()` while another process waits:
`kerneltrap` makes idle yield like any other process, and idle is linked. -/
theorem idle_linked : ∃ k w, Reachable k ∧ k.data.idleproc = some w ∧ k.data.rq.Linked w := by
  have hrun : (bootRun anyEvent (statements 1 ++ tickThen 2)).any
      (fun k => decide (k.data.idleproc = some 1 ∧ k.data.rq.Linked 1)) = true := by
    decide +kernel
  obtain ⟨k, hk, hi, hl⟩ := reachable_of_run hrun
  exact ⟨k, 1, hk, hi, hl⟩

end Kernel

end Xv6
