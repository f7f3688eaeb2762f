import Xv6.Kernel.Scheduling

/-!
# The life cycle of a process

`Moves d e p st st'` lists the edges of the process-state diagram: how one step can change the
state of a process, and which thread does it. Every step of a reachable kernel follows the
diagram (`reachable_moves`).

One edge leads out of every state: `yield` overwrites the state of the running process with
`RUNNABLE`, whatever it was. A timer tick between the end of `exit`'s critical section and the
`intr_off()` of `schedule` takes that edge from `ZOMBIE` (`zombie_revived`). In runs without such
ticks a zombie stays one until its parent's `wait` frees the slot (`zombie_absorbing`).
-/

open List Transition

namespace Xv6

namespace Sys

variable {x : Races} {d d1 d' : Sys} {e : Event} {p q : ProcId}

/-! ## The process-state diagram -/

/-- The edges of the process-state diagram. -/
inductive Moves (d : Sys) (e : Event) (p : ProcId) : ProcState → ProcState → Prop
  | stays {st} : Moves d e p st st
  | allocated : Moves d e p .unused .used
  | started : Moves d e p .used .runnable
  | picked : Moves d e p .runnable .running
  | yields {st c} : p = d.run → d.here = .yield :: c → Moves d e p st .runnable
  | sleeps : p = d.run → Moves d e p .running .sleeping
  | woken : Moves d e p .sleeping .runnable
  | exits : p = d.run → Moves d e p .running .zombie
  | reaped {c} :
      e = .exec true → d.here = .waitScan :: c → d.zombieChild d.run = some p →
      Moves d e p .zombie .unused

theorem Mild.moves (hm : Mild d d1) (p : ProcId) :
    Moves d e p (d.proc p).state (d1.proc p).state := by
  rcases hm.state p with hst | ⟨hst, hst', -⟩
  · rw [hst]; exact .stays
  · rw [hst, hst']; exact .woken

theorem Restate.moves {st : ProcState} (hr : Restate q st d d1)
    (hq : Moves d e q (d.proc q).state st) (p : ProcId) :
    Moves d e p (d.proc p).state (d1.proc p).state := by
  rw [hr.state]
  split_ifs with hp
  · exact hp ▸ hq
  · exact .stays

theorem Entered.moves (hen : Entered q d d1) (hq : Moves d e q (d.proc q).state .runnable)
    (p : ProcId) : Moves d e p (d.proc p).state (d1.proc p).state := by
  rw [hen.state]
  split_ifs with hp
  · exact hp ▸ hq
  · exact .stays

theorem Picked.moves (hpk : Picked q d d1) (p : ProcId) :
    Moves d e p (d.proc p).state (d1.proc p).state := by
  by_cases hp : p = q
  · subst hp
    rw [hpk.wasRunnable]
    rcases hpk.picked with hi | hst
    · obtain ⟨w, hw, hwst⟩ := hpk.consistent.idle
      cases hi.symm.trans (hpk.idleproc.symm.trans hw)
      rw [hwst]; exact .stays
    · rw [hst]; exact .picked
  · rw [hpk.state p hp]; exact .stays

theorem Inv.forkRun_moves {np : ProcId} {c : List Point} (h : Inv x d)
    (hhere : d.here = .forkRun np :: c) (he : d.forkRun np d.run = some d1) (hq : Quiet d1 d')
    (p : ProcId) : Moves d e p (d.proc p).state (d'.proc p).state := by
  have hused : (d.proc np).state = .used :=
    h.forks.used d.run np (by rw [show d.code d.run = _ from hhere]; exact mem_cons_self)
  have hc := h.consistent
  rw [hq.state]
  exact (forkRun_entered hc (hc.not_linked (by simp [hused])) he).moves (hused ▸ .started) p

theorem exit_moves {status : ℤ} (hc : Consistent d) (hst : (d.proc d.run).state = .running)
    (he : d.exitBlock status d.run = some d') (p : ProcId) :
    Moves d e p (d.proc p).state (d'.proc p).state := by
  obtain ⟨d0, hm, -, hr⟩ := exitBlock_spec hc he
  rw [hr.state]
  split_ifs with hp
  · rw [hp, hst]; exact .exits rfl
  · exact hm.moves p

/-- **Every step follows the process-state diagram.** -/
theorem Step.moves (hs : Step d e d') (h : Inv x d) (p : ProcId) :
    Moves d e p (d.proc p).state (d'.proc p).state := by
  have hc := h.consistent
  cases h.stage with
  | executing ph hcur hph hfit htop =>
    cases hs with
    | acquire | release | swtch hhere => exact .stays
    | jump hj hq => exact (hq.mild hc).moves p
    | wakeup hhere hpt he => exact (wakeup_mild he hc).moves p
    | usertrap hhere he => exact (devintr_mild he hc).moves p
    | usertrapYield hhere he hq =>
      have hm := rqOnTick_mild he hc
      exact (hm.trans (hq.mild hm.consistent)).moves p
    | usertrapStay hhere he hno => exact (rqOnTick_mild he hc).moves p
    | kerneltrapDevice hhere he => exact (device_mild he hc).moves p
    | kerneltrapYield hhere he hpre | kerneltrapStay hhere he hno => exact (tick_mild he hc).moves p
    | kill hhere he hq =>
      rw [hhere] at hfit
      obtain ⟨rfl, hw, -⟩ := hfit
      have hm := killAt_mild he hc fun p hp => by
        cases hcur.symm.trans hp
        simp [hph.running hw]
      exact (hm.trans (hq.mild hm.consistent)).moves p
    | forkAlloc hhere hj =>
      refine (forkAt_restate true hj).moves ?_ p
      rw [hj]; exact .allocated
    | forkUndo hhere hj hq => exact ((forkAt_restate false hj).quiet hq).moves (hj ▸ .stays) p
    | forkRun hhere he hq => exact h.forkRun_moves hhere he hq p
    | exit hhere he =>
      rw [hhere] at hfit
      obtain ⟨rfl, hw⟩ := hfit
      exact exit_moves hc (hph.running hw) he p
    | reap hhere he =>
      have hz := find?_some he
      rw [decide_eq_true_eq] at hz
      exact (reap_restate _).moves (hz.2 ▸ .reaped rfl hhere he) p
    | sleep hhere he =>
      rw [hhere] at hfit
      obtain ⟨rfl, hw, -⟩ := hfit
      have hst := hph.running hw
      exact (sleepBlock_restate (by simp [hst]) he).moves (hst ▸ .sleeps rfl) p
    | yield hhere he =>
      rw [hhere] at hfit
      have hen := makeRunnable_entered hc (hph.not_linked hc hfit.1) he
      exact hen.moves (.yields rfl hhere) p
    | pickSelf hhere he hself | pickOther hhere he hnext hne =>
      obtain ⟨q, hpk⟩ := pickLoop_picked hc he
      exact hpk.moves p
  | switching ph hhere =>
    cases hs with
    | acquire | release | swtch hhere' => exact .stays
    | jump hj hq => exact (hq.mild hc).moves p
    | wakeup hhere' hpt he => exact (wakeup_mild he hc).moves p
    | _ hhere' => simp [hhere] at hhere'

/-! ## Zombies -/

/-- The step is the call of `freeproc(p)` in a `wait` by the parent of `p`. -/
def Reaps (p : ProcId) (e : Event) (d : Sys) : Prop :=
  e = .exec true ∧ d.here.head? = some .waitScan ∧ (d.proc p).parent = some d.run ∧
    d.zombieChild d.run = some p

instance (p : ProcId) (e : Event) (d : Sys) : Decidable (Reaps p e d) := by
  unfold Reaps; infer_instance

/-- A zombie leaves its state by `wait` only, where ticks in `exit` are excluded. -/
theorem Step.zombie (hs : Step d e d') (h : Inv x d) (hx : x.exit = true)
    (hp : (d.proc p).state = .zombie) (hr : ¬ Reaps p e d) : (d'.proc p).state = .zombie := by
  have hm := hs.moves h p
  rw [hp] at hm
  generalize hst : (d'.proc p).state = st at hm
  cases hm with
  | stays => rfl
  | yields hrun hhere =>
    -- a dead process is not at `yield`
    exfalso
    subst hrun
    cases h.stage with
    | switching ph hhere' => simp [hhere] at hhere'
    | executing ph hcur hph hfit =>
      rw [hhere] at hfit
      rcases hph.state h.consistent with hst' | hst' <;> rw [hp] at hst'
      · cases ph with
        | dead => exact hfit.2.2.1 hx rfl
        | running | asleep | queued => cases hst'
      · cases hst'
  | reaped he hhere hz =>
    have hpar := find?_some hz
    rw [decide_eq_true_eq] at hpar
    exact absurd ⟨he, by rw [hhere]; rfl, hpar.1, hz⟩ hr

theorem Inv.zombie_not_user (h : Inv x d) (hp : (d.proc d.run).state = .zombie) :
    d.here.head? ≠ some .user := by
  intro hu
  obtain ⟨c, hhere⟩ := head?_eq_some_iff.1 hu
  rw [h.running hhere (fun _ _ hf => hf) (by simp)] at hp
  cases hp

/-- `wait`'s scan stops at a zombie child, or before it at another one. -/
theorem zombieChild_le (hp : (d.proc p).state = .zombie) (hpar : (d.proc p).parent = some q) :
    ∃ pp ≤ p, d.zombieChild q = some pp := by
  have hmem := mem_finRange p
  cases hf : d.zombieChild q with
  | none => simpa [hp, hpar] using find?_eq_none.1 hf p hmem
  | some pp =>
    obtain ⟨-, before, after, hsplit, hfail⟩ := find?_eq_some_iff_append.1 hf
    refine ⟨pp, ?_, rfl⟩
    have hord := pairwise_lt_finRange NPROC
    rw [hsplit] at hmem hord
    rcases mem_append.1 hmem with hb | ha
    · simpa [hp, hpar] using hfail p hb
    · rcases mem_cons.1 ha with rfl | ha
      · exact le_rfl
      · exact (rel_of_pairwise_cons (pairwise_append.1 hord).2.1 ha).le

end Sys

/-! ## Runs -/

namespace Kernel

variable {k k' : Kernel} {p : ProcId}

/-- A run avoids the race in `exit`: no tick preempts the current process while it is a
`ZOMBIE`. -/
def noExitTick (_ : Event) (k : Kernel) : Prop := k.data.Avoids ⟨false, true, false⟩

instance (e : Event) (k : Kernel) : Decidable (noExitTick e k) := by
  unfold noExitTick; infer_instance

/-- No `wait` frees the slot `p`. -/
def noReap (p : ProcId) (e : Event) (k : Kernel) : Prop := ¬ k.data.Reaps p e

instance (p : ProcId) (e : Event) (k : Kernel) : Decidable (noReap p e k) := by
  unfold noReap; infer_instance

/-- **`ZOMBIE` is absorbing** in a run without ticks that preempt a process which has become a
`ZOMBIE` and has not yet disabled interrupts in `schedule`. Until a `wait` by its parent frees it,
it stays a `ZOMBIE`, off the run queue and out of user mode, and the scan of that `wait` finds
it unless it stops earlier at another one. -/
theorem zombie_absorbing (k k' : Kernel) (p : ProcId) (h : ReachableBy noExitTick k)
    (hz : (k.data.proc p).state = .zombie)
    (hr : Reaches step (fun e k => noExitTick e k ∧ noReap p e k) k k') :
    (k'.data.proc p).state = .zombie ∧ ¬ k'.data.rq.Linked p ∧
    (k'.data.run = p → k'.data.here.head? ≠ some .user) ∧
    ∀ q, (k'.data.proc p).parent = some q → ∃ pp ≤ p, k'.data.zombieChild q = some pp := by
  have hinv : k.data.Inv ⟨false, true, false⟩ := reachable_inv h
  obtain ⟨-, hinv', hz'⟩ := hr.invariant
    (I := fun k => Disciplined k ∧ k.data.Inv ⟨false, true, false⟩ ∧
      (k.data.proc p).state = .zombie)
    ⟨reachable_disciplined h, hinv, hz⟩ fun _ _ _ ⟨hd, hi, hz⟩ ⟨hav, hno⟩ hs => by
      obtain ⟨hd', hstep⟩ := step_atomic hd hs
      exact ⟨hd', hstep.inv hi hav, hstep.zombie hi rfl hz hno⟩
  refine ⟨hz', hinv'.consistent.not_linked (by simp [hz']), fun hrun => ?_, fun q hq =>
    Sys.zombieChild_le hz' hq⟩
  exact hinv'.zombie_not_user (hrun ▸ hz')

/-- The first child runs and exits, up to the `schedule` of `exit`. -/
def exitingRun : List Event :=
  startInit ++ forkChild ++ [.leave] ++ statements 2 ++ tickThen 9 ++
    [.trap .ecall] ++ statements 1 ++ [.exit 0] ++ statements 1 ++ [.leave] ++ statements 1

/-- The child has exited and the parent is back in user mode; its `wait` would find the child. -/
theorem zombie_absorbing_while_parent_runs :
    ∃ k k', ReachableBy noExitTick k ∧ (k.data.proc 2).state = .zombie ∧
      Reaches step (fun e k => noExitTick e k ∧ noReap 2 e k) k k' ∧
      k'.data.here = [.user] ∧ k'.data.cur = some 0 ∧ (k'.data.proc 2).state = .zombie ∧
      ∃ pp ≤ 2, k'.data.zombieChild 0 = some pp := by
  have hrun : (bootRun noExitTick exitingRun).any (fun k => decide
      ((k.data.proc 2).state = .zombie ∧
        (run step (fun e k => noExitTick e k ∧ noReap 2 e k) (statements 7) k).any
          (fun k' => decide (k'.data.here = [.user] ∧ k'.data.cur = some 0 ∧
            (k'.data.proc 2).parent = some 0)) = true)) = true := by decide +kernel
  obtain ⟨k, hk, hz, hrest⟩ := reachable_of_run hrun
  obtain ⟨k', hr, hhere, hcur, hpar⟩ := exists_reaches_of_run hrest
  obtain ⟨hz', -, -, hvisible⟩ := zombie_absorbing k k' 2 hk hz hr
  exact ⟨k, k', hk, hz, hr, hhere, hcur, hz', hvisible 0 hpar⟩

/-- A tick interrupts the exiting child just before `schedule` disables interrupts: the zombie is
`RUNNABLE` and linked again, with no `wait` in between. -/
theorem zombie_revived : ∃ k k', Reachable k ∧ (k.data.proc 2).state = .zombie ∧
      Reaches step (noReap 2) k k' ∧ (k'.data.proc 2).state = .runnable ∧
      k'.data.rq.Linked 2 := by
  have hrun : (bootRun anyEvent exitingRun).any (fun k => decide
      ((k.data.proc 2).state = .zombie ∧ (run step (noReap 2) (tickThen 2) k).any
        (fun k' => decide ((k'.data.proc 2).state = .runnable ∧ k'.data.rq.Linked 2)) = true)) =
      true := by decide +kernel
  obtain ⟨k, hk, hz, hrest⟩ := reachable_of_run hrun
  obtain ⟨k', hr, hk'⟩ := exists_reaches_of_run hrest
  exact ⟨k, k', hk, hz, hr, hk'⟩

/-- **The machine with locks refines the atomic one, and every process follows the state diagram.** -/
theorem reachable_moves {e : Event} (h : Reachable k) (hs : step e k = some k') :
    k.data.Step e k'.data ∧
    ∀ p, Sys.Moves k.data e p (k.data.proc p).state (k'.data.proc p).state := by
  obtain ⟨-, hstep⟩ := step_atomic (reachable_disciplined h) hs
  exact ⟨hstep, hstep.moves h.inv⟩

/-- The child exits. -/
theorem reachable_moves_exit : ∃ k k', Reachable k ∧ step (.exec true) k = some k' ∧
    k.data.Step (.exec true) k'.data := by
  have hrun : (bootRun anyEvent exitingRun).any
      (fun k => decide ((step (.exec true) k).isSome = true)) = true := by decide +kernel
  obtain ⟨k, hk, hsome⟩ := reachable_of_run hrun
  obtain ⟨k', hs⟩ := Option.isSome_iff_exists.1 hsome
  exact ⟨k, k', hk, hs, (reachable_moves hk hs).1⟩

end Kernel

end Xv6
