import Xv6.Kernel.Scheduling

/-!
# Sleep and wakeup

`wakeup(chan)` makes every process `RUNNABLE` that is `SLEEPING` on `chan`, except the current
one, which it skips. Outside `sleep` the current process is not `SLEEPING`; but `sleep` releases
`p->lock`, and with it enables interrupts, before `schedule` has switched to another process. An
interrupt handler that runs in between finds `p` both `SLEEPING` and current.

`wakes d e` lists the channels that a step wakes, in `clockintr`, in a device interrupt, in
`exit` or in kernel code outside the model.

Main results: `wakeup_lost_iff`, and `wakeup_lost`, a run with such an interrupt.
-/

open List Transition

namespace Xv6

/-- The channels that `devintr` wakes. -/
def Trap.wakes : Trap → List Chan
  | .timer => [.ticks]
  | .device wakes => wakes.map (·.2)
  | .ecall => []
  | .fault => []

namespace Sys

variable {x : Races} {d d1 d' d'' : Sys} {e : Event} {p q : ProcId} {chan : Chan}

def Asleep (d : Sys) (p : ProcId) (chan : Chan) : Prop :=
  (d.proc p).state = .sleeping ∧ (d.proc p).chan = chan

instance (d : Sys) (p : ProcId) (chan : Chan) : Decidable (d.Asleep p chan) := by
  unfold Asleep; infer_instance

/-- The channels on which the step calls `wakeup`. -/
def wakes (d : Sys) (e : Event) : List Chan :=
  match e, d.here with
  | .wakeup chan, _ => [chan]
  | .exec _, .usertrap t :: _ => t.wakes
  | .exec _, .kerneltrap t :: _ => t.wakes
  | .exec _, .exitTail _ :: _ =>
    -- `reparent` wakes `initproc` for each child; then the parent is woken
    (if d.haveKids d.run then [.ofProc d.initproc] else []) ++
      (d.reparent d.run).toList.map fun d' => .ofProc (d'.proc d.run).parent
  | _, _ => []

/-! ## What wakeups keep -/

/-- Nobody has fallen asleep, and the current process has not been woken. -/
structure Rouses (d d' : Sys) : Prop extends Frame d d' where
  asleep : ∀ p chan, d'.Asleep p chan → d.Asleep p chan
  skips : ∀ p chan, d.cur = some p → d.Asleep p chan → d'.Asleep p chan

theorem Rouses.refl (d : Sys) : Rouses d d := ⟨.refl d, fun _ _ h => h, fun _ _ _ h => h⟩

theorem Rouses.trans (h : Rouses d d') (h' : Rouses d' d'') : Rouses d d'' where
  toFrame := h.toFrame.trans h'.toFrame
  asleep p chan ha := h.asleep p chan (h'.asleep p chan ha)
  skips p chan hp ha := h'.skips p chan (h.cur.trans hp) (h.skips p chan hp ha)

theorem setParent_rouses (d : Sys) (p : ProcId) (q : Option ProcId) :
    Rouses d (d.setParent p q) := by
  have hsame : ∀ r chan, (d.setParent p q).Asleep r chan ↔ d.Asleep r chan := fun r chan => by
    by_cases hr : r = p
    · subst hr; simp [Asleep, setParent, modProc]
    · simp [Asleep, setParent, modProc, hr]
  exact ⟨modProc_frame d p _, fun r chan => (hsame r chan).1, fun r chan _ => (hsame r chan).2⟩

theorem makeRunnable_asleep (he : d.makeRunnable p = some d') :
    d'.Asleep q chan ↔ q ≠ p ∧ d.Asleep q chan := by
  obtain ⟨rq, b, -, rfl⟩ := prioEnqueue_eq he
  by_cases hq : q = p
  · subst hq; simp [Asleep, markRunnable, setState, modProc]
  · simp [Asleep, markRunnable, setState, modProc, hq]

theorem wakeOne_rouses (he : wakeOne chan d p = some d') : Rouses d d' := by
  unfold wakeOne at he
  split_ifs at he with hc hs
  · refine ⟨makeRunnable_frame he, fun q _ ha => ((makeRunnable_asleep he).1 ha).2,
      fun q _ hq ha => (makeRunnable_asleep he).2 ⟨fun hqp => hc (hqp ▸ hq), ha⟩⟩
  all_goals obtain rfl := Option.some.inj he; exact .refl d

theorem wakeup_rouses (he : d.wakeup chan = some d') : Rouses d d' :=
  foldlM_rel Rouses.refl Rouses.trans (fun _ _ _ => wakeOne_rouses) _ _ _ he

theorem reparentOne_rouses (he : reparentOne p d q = some d') : Rouses d d' := by
  unfold reparentOne at he
  split_ifs at he
  · exact (setParent_rouses d q _).trans (wakeup_rouses he)
  · cases he
    exact .refl d

theorem reparent_rouses (he : d.reparent p = some d') : Rouses d d' :=
  foldlM_rel Rouses.refl Rouses.trans (fun _ _ _ => reparentOne_rouses) _ _ _ he

theorem rqOnTick_rouses (he : d.rqOnTick = some d') : Rouses d d' := by
  simp only [rqOnTick, Option.map_eq_some_iff] at he
  obtain ⟨rq, -, rfl⟩ := he
  exact ⟨⟨rfl, rfl, rfl, rfl, rfl⟩, fun _ _ h => h, fun _ _ _ h => h⟩

/-! ## What wakeups do -/

/-- The processes that sleep on `chan`, other than the current one, have been woken. -/
structure Woken (chan : Chan) (d d' : Sys) : Prop extends Rouses d d' where
  woken : ∀ p, d.cur ≠ some p → ¬ d'.Asleep p chan

theorem Woken.asleep_iff (h : Woken chan d d') (ha : d.Asleep p chan) :
    d'.Asleep p chan ↔ d.cur = some p := by
  constructor
  · exact fun ha' => by_contra fun hc => h.woken p hc ha'
  · exact fun hc => h.skips p chan hc ha

theorem Woken.before (h : Rouses d d') (h' : Woken chan d' d'') : Woken chan d d'' where
  toRouses := h.trans h'.toRouses
  woken p hp := h'.woken p (h.cur ▸ hp)

theorem Woken.after (h : Woken chan d d') (h' : Rouses d' d'') : Woken chan d d'' where
  toRouses := h.toRouses.trans h'
  woken p hp ha := h.woken p hp (h'.asleep p chan ha)

theorem wakeOne_not_asleep (he : wakeOne chan d p = some d') (hp : d.cur ≠ some p) :
    ¬ d'.Asleep p chan := by
  unfold wakeOne at he
  rw [if_pos hp] at he
  split_ifs at he with ha
  · exact fun ha' => ((makeRunnable_asleep he).1 ha').1 rfl
  · cases he
    exact ha

/-- **`wakeup` wakes every sleeper but the current process.** -/
theorem wakeup_woken (he : d.wakeup chan = some d') : Woken chan d d' where
  toRouses := wakeup_rouses he
  woken p hp := by
    obtain ⟨d1, d2, h1, h2, h3⟩ := foldlM_mem Rouses.refl Rouses.trans
      (fun _ _ _ => wakeOne_rouses) (mem_finRange p) he
    exact fun ha => wakeOne_not_asleep h2 (h1.cur ▸ hp) (h3.asleep p chan ha)

theorem device_woken {wakes : List (ℕ × Chan)} (he : d.device wakes = some d')
    (hchan : chan ∈ wakes.map (·.2)) : Woken chan d d' := by
  obtain ⟨w, hw, rfl⟩ := mem_map.1 hchan
  obtain ⟨d1, d2, h1, h2, h3⟩ := foldlM_mem Rouses.refl Rouses.trans
    (fun _ _ _ => wakeup_rouses) hw he
  exact ((wakeup_woken h2).before h1).after h3

theorem devintr_woken {t : Trap} {w : ℕ} (he : d.devintr t = some (w, d'))
    (hchan : chan ∈ t.wakes) : Woken chan d d' := by
  cases t with
  | ecall | fault => simp [Trap.wakes] at hchan
  | timer =>
    obtain rfl := mem_singleton.1 hchan
    exact wakeup_woken (devintr_timer he).2
  | device wakes => exact device_woken (devintr_device he).2 hchan

theorem tick_woken (he : d.tick = some d') : Woken .ticks d d' := by
  rw [tick, Option.bind_eq_some_iff] at he
  obtain ⟨d1, h1, h2⟩ := he
  exact (wakeup_woken h1).after (rqOnTick_rouses h2)

/-- `reparent` wakes `initproc` as soon as it meets a child. -/
theorem reparent_woken (l : List ProcId) (he : l.foldlM (reparentOne p) d = some d')
    (hkid : ∃ pp ∈ l, (d.proc pp).parent = some p) : Woken (.ofProc d.initproc) d d' := by
  induction l with
  | nil => simp at hkid
  | cons q l ih =>
    obtain ⟨pp, hpp, hpar⟩ := hkid
    rw [foldlM_cons, Option.bind_eq_bind, Option.bind_eq_some_iff] at he
    obtain ⟨d1, h1, h2⟩ := he
    by_cases hq : (d.proc q).parent = some p
    · rw [reparentOne, if_pos hq] at h1
      exact ((wakeup_woken h1).before (setParent_rouses d q _)).after
        (foldlM_rel Rouses.refl Rouses.trans (fun _ _ _ => reparentOne_rouses) _ _ _ h2)
    · rw [reparentOne, if_neg hq] at h1
      cases h1
      refine ih h2 ⟨pp, (mem_cons.1 hpp).resolve_left ?_, hpar⟩
      rintro rfl
      exact hq hpar

/-- The wakeups of `exit`, before the process becomes a zombie. -/
theorem exitBlock_woken {status : ℤ} {c : List Point} {ok : Bool}
    (hhere : d.here = .exitTail status :: c) (he : d.exitBlock status d.run = some d')
    (hchan : chan ∈ d.wakes (.exec ok)) :
    ∃ d1, Woken chan d d1 ∧ d' = d1.markZombie status d.run := by
  obtain ⟨d1, d2, h1, h2, rfl⟩ := exitBlock_eq he
  refine ⟨d2, ?_, rfl⟩
  simp only [wakes, hhere, h1, Option.toList_some, map_cons, map_nil, mem_append,
    mem_ite_nil_right, mem_singleton] at hchan
  rcases hchan with ⟨hkids, rfl⟩ | rfl
  · rw [haveKids, any_eq_true] at hkids
    simp only [decide_eq_true_eq] at hkids
    exact (reparent_woken _ h1 hkids).after (wakeup_rouses h2)
  · exact (wakeup_woken h2).before (reparent_rouses h1)

theorem Jump.wakes {c : List Point} (hj : Jump e d.here c) : d.wakes e = [] := by
  generalize hhere : d.here = c0 at hj
  cases hj with
  | kernelTrap he _ | userTrap _ he => rcases he with rfl | rfl <;> simp [Sys.wakes]
  | _ => simp [Sys.wakes, hhere, Trap.wakes]

/-- **A step that wakes a channel leaves a process asleep there only if it is current.** -/
theorem Step.asleep_iff (hs : Step d e d') (h : Inv x d) (hchan : chan ∈ d.wakes e)
    (ha : d.Asleep p chan) : d'.Asleep p chan ↔ d.cur = some p := by
  cases hs with
  | jump hj _ => simp [hj.wakes] at hchan
  | wakeup _ _ he =>
    obtain rfl := mem_singleton.1 hchan
    exact (wakeup_woken he).asleep_iff ha
  | usertrap hhere he =>
    simp only [wakes, hhere] at hchan
    exact (devintr_woken he hchan).asleep_iff ha
  | kerneltrapDevice hhere he =>
    simp only [wakes, hhere] at hchan
    exact (device_woken he hchan).asleep_iff ha
  | kerneltrapYield hhere he _ | kerneltrapStay hhere he _ =>
    simp only [wakes, hhere] at hchan
    obtain rfl := mem_singleton.1 hchan
    exact (tick_woken he).asleep_iff ha
  | exit hhere he =>
    obtain ⟨d1, hw, rfl⟩ := exitBlock_woken hhere he hchan
    have hne : p ≠ d.run := by
      -- the process that exits is `RUNNING`
      rintro rfl
      simp [Asleep, h.running hhere (fun _ _ hf => hf) (by simp)] at ha
    refine Iff.trans ?_ (hw.asleep_iff ha)
    simp [Asleep, Sys.goto, markZombie, modProc, hne]
  | acquire => simp [wakes] at hchan
  | release => simp [wakes] at hchan
  | _ hhere => simp [wakes, hhere] at hchan

end Sys

/-! ## Runs -/

namespace Kernel

/-- **A wakeup is lost exactly when the sleeper is still the current process.** In every reachable
state and for every step that calls `wakeup(chan)`, a process that is `SLEEPING` on `chan` is left
so if and only if it has not yet been switched out. -/
theorem wakeup_lost_iff (k k' : Kernel) (e : Event) (p : ProcId) (chan : Chan) (h : Reachable k)
    (hs : step e k = some k') (hchan : chan ∈ k.data.wakes e) (ha : k.data.Asleep p chan) :
    k'.data.Asleep p chan ↔ k.data.cur = some p :=
  (step_atomic (reachable_disciplined h) hs).2.asleep_iff h.inv hchan ha

/-- The first user process has been switched out in `sleep`; the next tick wakes it. -/
theorem wakeup_lost_iff_on_tick :
    ∃ k k', Reachable k ∧ step (.exec true) k = some k' ∧ .ticks ∈ k.data.wakes (.exec true) ∧
      k.data.Asleep 0 .ticks ∧ ¬ k'.data.Asleep 0 .ticks := by
  have hrun : (bootRun anyEvent
      (startInit ++ forkChild ++ sleepOnTicks ++ statements 6 ++ [.interrupt .timer])).any
      (fun k => decide (k.data.cur ≠ some 0 ∧ .ticks ∈ k.data.wakes (.exec true) ∧
        k.data.Asleep 0 .ticks ∧ (step (.exec true) k).isSome = true)) = true := by
    decide +kernel
  obtain ⟨k, hk, hcur, hchan, ha, hsome⟩ := reachable_of_run hrun
  obtain ⟨k', hs⟩ := Option.isSome_iff_exists.1 hsome
  exact ⟨k, k', hk, hs, hchan, ha,
    fun ha' => hcur ((wakeup_lost_iff k k' _ 0 _ hk hs hchan ha).1 ha')⟩

/-- The first user process sleeps on a buffer with the lock of its device, and the interrupt that
would wake it comes after `release(&p->lock)` and before `schedule`: the handler calls `wakeup`,
and the process stays asleep. -/
theorem wakeup_lost : ∃ k k' p chan e, Reachable k ∧ step e k = some k' ∧ chan ∈ k.data.wakes e ∧
      k.data.Asleep p chan ∧ k'.data.Asleep p chan := by
  have hrun : (bootRun anyEvent (startInit ++ [.trap .ecall] ++ statements 1 ++
      [.acquire (.other 0), .sleep (.obj 0) (.other 0), .exec true,
        .interrupt (.device [(0, .obj 0)])])).any
      (fun k => decide (.obj 0 ∈ k.data.wakes (.exec true) ∧ k.data.Asleep 0 (.obj 0) ∧
        (step (.exec true) k).any (fun k' => decide (k'.data.Asleep 0 (.obj 0))) = true)) =
      true := by decide +kernel
  obtain ⟨k, hk, hchan, ha, hsome⟩ := reachable_of_run hrun
  obtain ⟨k', hs, ha'⟩ := (Option.any_eq_true _ _).1 hsome
  exact ⟨k, k', 0, .obj 0, .exec true, hk, hs, hchan, ha, of_decide_eq_true ha'⟩

end Kernel

end Xv6
