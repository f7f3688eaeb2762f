import Xv6.Kernel.Machine

/-!
# The run queue and the process table

`Consistent d` is the agreement between the run queue and the states of the processes: the
pointers represent some lists, a linked process is `RUNNABLE`, and a `RUNNABLE` process other
than idle is linked. Each operation that schedules is described here by what it does to the
states and to the set of linked processes, in one of four ways:

* `Mild`: wakeups and ticks. Sleeping processes other than the current one may become runnable.
* `Entered p`: `p` becomes `RUNNABLE` and is linked.
* `Restate p st`: `p`, not linked, gets the state `st`.
* `Picked q`: `schedule` takes `q` off the queue; no linked process has a higher priority.
-/

open Option

namespace Xv6

open RunQueue

/-! ## Linked processes -/

namespace RunQueue

variable {r r' : RunQueue} {Q : Level → List ProcId} {p : ProcId}

variable (h : r.Rep Q)

include h

theorem Rep.refines : r.Refines ⟨Q, r.prio, r.waitTicks⟩ := ⟨h, rfl, rfl⟩

theorem Rep.linked_congr (h' : r'.Rep Q) : r'.Linked p ↔ r.Linked p := by
  rw [h.linked_iff, h'.linked_iff]

theorem prioEnqueue_linked (hp : ¬ r.Linked p) (hr : 0 ≤ r.prio p ∧ r.prio p < NPRIO)
    (he : r.prioEnqueue p = some r') : (∃ Q', r'.Rep Q')
    ∧ r'.prio = r.prio ∧ ∀ x, r'.Linked x ↔ r.Linked x ∨ x = p := by
  obtain ⟨l, hl⟩ := exists_level hr
  rw [h.linked_iff, not_exists] at hp
  obtain ⟨r1, hr1, href⟩ := prioEnqueue_refines h.refines hp hl
  cases he.symm.trans hr1
  refine ⟨⟨_, href.rep⟩, href.prio, fun x => ?_⟩
  rw [href.rep.linked_iff, h.linked_iff]
  simp only [Fifo.enqueue, mem_append]
  constructor
  · rintro ⟨m, hx | ⟨rfl, -⟩⟩
    exacts [.inl ⟨m, hx⟩, .inr rfl]
  · rintro (⟨m, hx⟩ | rfl)
    exacts [⟨m, .inl hx⟩, ⟨l, .inr ⟨rfl, rfl⟩⟩]

theorem prioOnTick_linked (he : r.prioOnTick = some r') : (∃ Q', r'.Rep Q')
    ∧ (∀ x, r'.Linked x ↔ r.Linked x) ∧ ∀ x, ¬ r.Linked x → r'.prio x = r.prio x := by
  obtain ⟨r1, hr1, href, hsame⟩ := prioOnTick_refines h.refines
  cases he.symm.trans hr1
  refine ⟨⟨_, href.rep⟩, fun x => ?_, fun x hx => ?_⟩
  · rw [href.rep.linked_iff, h.linked_iff]
    exact hsame.mem x
  · rw [h.linked_iff, not_exists] at hx
    exact (congrFun href.prio x).trans (hsame.prio x hx)

theorem Rep.prio_range (hp : r.Linked p) : 0 ≤ r.prio p ∧ r.prio p < NPRIO := by
  obtain ⟨l, hl⟩ := h.linked_iff.1 hp
  have hlt := l.isLt
  rw [h.prio l p hl]
  omega

theorem prioPickNext_cases {next : Option ProcId} (he : r.prioPickNext = some (next, r')) :
    (next = none ∧ r' = r ∧ ∀ x, ¬ r.Linked x) ∨
    ∃ q, next = some q ∧ r.Linked q ∧ (∃ Q', r'.Rep Q') ∧ r'.prio = r.prio ∧
      (∀ x, r'.Linked x ↔ r.Linked x ∧ x ≠ q) ∧ ∀ x, r.Linked x → r.prio q ≤ r.prio x := by
  cases hlow : lowest? Q with
  | none =>
    rw [prioPickNext_none h hlow, some.injEq, Prod.mk.injEq] at he
    obtain ⟨rfl, rfl⟩ := he
    refine .inl ⟨rfl, rfl, fun x hx => ?_⟩
    obtain ⟨l, hl⟩ := h.linked_iff.1 hx
    simp [lowest?_eq_none.1 hlow l] at hl
  | some l =>
    obtain ⟨hne, hbelow⟩ := lowest?_eq_some.1 hlow
    obtain ⟨q, L, hQ⟩ := List.exists_cons_of_ne_nil hne
    have hq : q ∈ Q l := by simp [hQ]
    obtain ⟨r1, hr1, hrep, hprio, -⟩ := prioPickNext_some h hlow hQ
    rw [hr1, some.injEq, Prod.mk.injEq] at he
    obtain ⟨rfl, rfl⟩ := he
    refine .inr ⟨q, rfl, h.linked_iff.2 ⟨l, hq⟩, ⟨_, hrep⟩, hprio, fun x => ?_, fun x hx => ?_⟩
    · simp only [hrep.linked_iff, h.linked_iff, mem_erase h.toLinks hq]
      constructor
      · rintro ⟨m, hne, hm⟩
        exact ⟨⟨m, hm⟩, hne⟩
      · rintro ⟨⟨m, hm⟩, hne⟩
        exact ⟨m, hne, hm⟩
    · obtain ⟨m, hm⟩ := h.linked_iff.1 hx
      rw [h.prio l q hq, h.prio m x hm]
      have hle : l ≤ m := not_lt.1 fun hlt => by simp [hbelow m hlt] at hm
      exact Int.ofNat_le.2 (Fin.le_def.1 hle)

end RunQueue

namespace Sys

/-! ## Agreement -/

/-- **The run queue agrees with the process table**, and the branch of `schedule` that would
show the opposite has not been taken. -/
structure Consistent (d : Sys) : Prop where
  rep : ∃ Q, d.rq.Rep Q
  prio : ∀ p, 0 ≤ d.rq.prio p ∧ d.rq.prio p < NPRIO
  runnable : ∀ p, d.rq.Linked p → (d.proc p).state = .runnable
  linked : ∀ p, (d.proc p).state = .runnable → d.idleproc ≠ some p → d.rq.Linked p
  idle : ∃ w, d.idleproc = some w ∧ (d.proc w).state = .runnable
  pickedAgain : d.pickedAgain = false

/-- No linked process has a higher priority than `p`. -/
def Top (d : Sys) (p : ProcId) : Prop := ∀ q, d.rq.Linked q → d.rq.prio p ≤ d.rq.prio q

variable {d d' d'' : Sys} {p q : ProcId}

theorem Consistent.not_linked (h : Consistent d) (hp : (d.proc p).state ≠ .runnable) :
    ¬ d.rq.Linked p := fun hl => hp (h.runnable p hl)

theorem Consistent.ne_idle (h : Consistent d) (hp : (d.proc p).state ≠ .runnable) :
    d.idleproc ≠ some p := by
  obtain ⟨w, hw, hst⟩ := h.idle
  rintro he
  cases he.symm.trans hw
  exact hp hst

/-- When `prio_should_preempt` says no, no process of the same or a higher priority waits. -/
theorem Consistent.top_of_not_preempt (h : Consistent d)
    (hp : d.rq.prioShouldPreempt (d.rq.prio p) = false) : d.Top p := by
  obtain ⟨Q, hQ⟩ := h.rep
  intro q hq
  obtain ⟨l, hl⟩ := hQ.linked_iff.1 hq
  have hno := mt (prioShouldPreempt_iff hQ).2 (Bool.eq_false_iff.1 hp)
  rw [hQ.prio l q hl]
  by_contra hlt
  exact hno ⟨l, List.ne_nil_of_mem hl, by omega⟩

theorem Quiet.consistent (hq : Quiet d d') (h : Consistent d) : Consistent d' := by
  obtain ⟨w, hw, hst⟩ := h.idle
  refine ⟨hq.rq ▸ h.rep, hq.rq ▸ h.prio, fun p hp => ?_, fun p hp hi => ?_, ⟨w, ?_, ?_⟩,
    hq.pickedAgain.trans h.pickedAgain⟩
  · rw [hq.state]; exact h.runnable p (hq.rq ▸ hp)
  · rw [hq.rq]; exact h.linked p (hq.state p ▸ hp) (hq.idleproc ▸ hi)
  · exact hq.idleproc.trans hw
  · rw [hq.state]; exact hst

/-! ## Entering the queue -/

/-- `p` has become `RUNNABLE` and is linked. -/
structure Entered (p : ProcId) (d d' : Sys) : Prop extends Frame d d' where
  consistent : Consistent d'
  state : ∀ q, (d'.proc q).state = if q = p then .runnable else (d.proc q).state
  linked : ∀ q, d'.rq.Linked q ↔ d.rq.Linked q ∨ q = p
  prio : ∀ q, q ≠ p → d'.rq.prio q = d.rq.prio q

/-- `prio_enqueue` of a process that has just been marked `RUNNABLE`, with new scheduling
fields. -/
theorem prioEnqueue_entered {rq : RunQueue} (h : Consistent d) (hp : ¬ d.rq.Linked p)
    (hrep : ∀ Q, d.rq.Rep Q → (∀ l, p ∉ Q l) → rq.Rep Q)
    (hself : 0 ≤ rq.prio p ∧ rq.prio p < NPRIO) (hprio : ∀ q, q ≠ p → rq.prio q = d.rq.prio q)
    (he : prioEnqueue { d.setState p .runnable with rq } p = some d') : Entered p d d' := by
  obtain ⟨rq', b, hrq, rfl⟩ := prioEnqueue_eq he
  obtain ⟨Q, hQ⟩ := h.rep
  have hpQ : ∀ l, p ∉ Q l := not_exists.1 (mt hQ.linked_iff.2 hp)
  have hrep' := hrep Q hQ hpQ
  have hlink : ∀ q, rq.Linked q ↔ d.rq.Linked q := fun q => hQ.linked_congr hrep'
  obtain ⟨hQ', hprio', hlinked⟩ :=
    prioEnqueue_linked hrep' (mt (hlink p).1 hp) hself hrq
  have hstate : ∀ q, ((d.setState p .runnable).proc q).state =
      if q = p then .runnable else (d.proc q).state := fun q => by
    by_cases hq : q = p
    · subst hq; simp [setState, modProc]
    · simp [setState, modProc, hq]
  have hlinked' : ∀ q, rq'.Linked q ↔ d.rq.Linked q ∨ q = p := fun q => by
    rw [hlinked, hlink]
  obtain ⟨w, hw, hwst⟩ := h.idle
  refine ⟨⟨rfl, rfl, rfl, rfl, rfl⟩, ⟨hQ', fun q => ?_, fun q hq => ?_, fun q hq hi => ?_,
    ⟨w, hw, ?_⟩, h.pickedAgain⟩, hstate, hlinked', fun q hq => ?_⟩
  · simp only [hprio']
    by_cases hq : q = p
    · exact hq ▸ hself
    · rw [hprio q hq]; exact h.prio q
  · simp only [hstate]
    rcases (hlinked' q).1 hq with hl | rfl
    · rw [h.runnable q hl, ite_self]
    · rw [if_pos rfl]
  · rw [hlinked']
    by_cases hqp : q = p
    · exact .inr hqp
    · refine .inl (h.linked q ?_ hi)
      simpa [hqp] using (hstate q).symm.trans hq
  · simp only [hstate, hwst, ite_self]
  · simp only [hprio']
    exact hprio q hq

theorem makeRunnable_entered (h : Consistent d) (hp : ¬ d.rq.Linked p)
    (he : d.makeRunnable p = some d') : Entered p d d' :=
  prioEnqueue_entered h hp (fun _ hQ _ => hQ.setWait p 0) (h.prio p) (fun _ _ => rfl) he

theorem forkRun_entered {np : ProcId} (h : Consistent d) (hp : ¬ d.rq.Linked np)
    (he : d.forkRun np p = some d') : Entered np d d' := by
  refine prioEnqueue_entered h hp (fun Q hQ hn => (hQ.setPrio hn _).setWait np 0) ?_ ?_ he
  · simpa [setPrio, setWait] using h.prio p
  · intro q hq
    simp [setPrio, setWait, hq]

/-! ## Wakeups and ticks -/

/-- Sleeping processes other than the current one may have become `RUNNABLE` and linked, and
linked processes may have other priorities. -/
structure Mild (d d' : Sys) : Prop extends Frame d d' where
  consistent : Consistent d'
  state : ∀ p, (d'.proc p).state = (d.proc p).state ∨
    ((d.proc p).state = .sleeping ∧ (d'.proc p).state = .runnable ∧ d.cur ≠ some p)
  linked : ∀ p, (d'.proc p).state = (d.proc p).state → (d'.rq.Linked p ↔ d.rq.Linked p)
  prio : ∀ p, ¬ d'.rq.Linked p → d'.rq.prio p = d.rq.prio p

theorem Quiet.mild (hq : Quiet d d') (h : Consistent d) : Mild d d' where
  toFrame := hq.toFrame
  consistent := hq.consistent h
  state p := .inl (hq.state p)
  linked p _ := by rw [hq.rq]
  prio p _ := by rw [hq.rq]

theorem Mild.refl (h : Consistent d) : Mild d d := (Quiet.refl d).mild h

theorem Mild.trans (h : Mild d d') (h' : Mild d' d'') : Mild d d'' where
  toFrame := h.toFrame.trans h'.toFrame
  consistent := h'.consistent
  state p := by
    rcases h.state p with hs | ⟨hs, hr, hc⟩
    · rcases h'.state p with hs' | ⟨hs', hr', hc'⟩
      · exact .inl (hs'.trans hs)
      · exact .inr ⟨hs.symm.trans hs', hr', h.cur ▸ hc'⟩
    · rcases h'.state p with hs' | ⟨hs', -, -⟩
      · exact .inr ⟨hs, hs'.trans hr, hc⟩
      · rw [hr] at hs'; cases hs'
  linked p hp := by
    rcases h.state p with hs | ⟨hs, hr, -⟩
    · exact (h'.linked p (hp.trans hs.symm)).trans (h.linked p hs)
    · rcases h'.state p with hs' | ⟨hs', -, -⟩
      · rw [hs', hr, hs] at hp; cases hp
      · rw [hr] at hs'; cases hs'
  prio p hp := by
    rw [h'.prio p hp]
    refine h.prio p fun hl => hp ?_
    rcases h'.state p with hs' | ⟨hs', -, -⟩
    · exact (h'.linked p hs').2 hl
    · rw [h.consistent.runnable p hl] at hs'; cases hs'

theorem Mild.state_cur (h : Mild d d') (hp : d.cur = some p) :
    (d'.proc p).state = (d.proc p).state := by
  rcases h.state p with hs | ⟨-, -, hc⟩
  exacts [hs, absurd hp hc]

theorem Mild.state_eq (h : Mild d d') (hp : (d.proc p).state ≠ .sleeping) :
    (d'.proc p).state = (d.proc p).state := by
  rcases h.state p with hs | ⟨hs, -, -⟩
  exacts [hs, absurd hs hp]

theorem Entered.mild (h : Entered p d d') (hs : (d.proc p).state = .sleeping)
    (hc : d.cur ≠ some p) : Mild d d' where
  toFrame := h.toFrame
  consistent := h.consistent
  state q := by
    rw [h.state]
    by_cases hq : q = p
    · subst hq; exact .inr ⟨hs, if_pos rfl, hc⟩
    · exact .inl (if_neg hq)
  linked q hq := by
    rw [h.linked, or_iff_left]
    rintro rfl
    rw [h.state, if_pos rfl, hs] at hq
    cases hq
  prio q hq := h.prio q fun he => hq ((h.linked q).2 (.inr he))

theorem wakeOne_mild {chan : Chan} (he : wakeOne chan d p = some d') (h : Consistent d) :
    Mild d d' := by
  unfold wakeOne at he
  split_ifs at he with hc hs
  · have hp := h.not_linked (p := p) (by simp [hs.1])
    exact (makeRunnable_entered h hp he).mild hs.1 hc
  all_goals obtain rfl := some.inj he; exact .refl h

theorem mild_foldlM {α : Type*} {f : Sys → α → Option Sys}
    (hf : ∀ d x d', f d x = some d' → Consistent d → Mild d d') (xs : List α)
    (he : xs.foldlM f d = some d') (h : Consistent d) : Mild d d' := by
  refine Transition.foldlM_rel (R := fun d d' => Consistent d → Mild d d') ?_ ?_ hf xs d d' he h
  · intro d h
    exact .refl h
  · intro d1 d2 d3 h1 h2 h
    exact (h1 h).trans (h2 (h1 h).consistent)

theorem wakeup_mild {chan : Chan} (he : d.wakeup chan = some d') (h : Consistent d) :
    Mild d d' := mild_foldlM (fun _ _ _ => wakeOne_mild) _ he h

theorem device_mild {wakes : List (ℕ × Chan)} (he : d.device wakes = some d')
    (h : Consistent d) : Mild d d' := mild_foldlM (fun _ _ _ => wakeup_mild) _ he h

theorem devintr_mild {t : Trap} {w : ℕ} (he : d.devintr t = some (w, d')) (h : Consistent d) :
    Mild d d' := by
  cases t with
  | ecall | fault => cases he; exact .refl h
  | timer => exact wakeup_mild (devintr_timer he).2 h
  | device wakes => exact device_mild (devintr_device he).2 h

theorem rqOnTick_mild (he : d.rqOnTick = some d') (h : Consistent d) : Mild d d' := by
  simp only [rqOnTick, map_eq_some_iff] at he
  obtain ⟨rq, hrq, rfl⟩ := he
  obtain ⟨Q, hQ⟩ := h.rep
  obtain ⟨⟨Q', hQ'⟩, hlink, hprio⟩ := prioOnTick_linked hQ hrq
  refine ⟨⟨rfl, rfl, rfl, rfl, rfl⟩, ⟨⟨Q', hQ'⟩, fun p => ?_, fun p hp => ?_, fun p hp hi => ?_,
    h.idle, h.pickedAgain⟩, fun p => .inl rfl, fun p _ => hlink p, fun p hp => ?_⟩
  · by_cases hp : rq.Linked p
    · exact hQ'.prio_range hp
    · rw [hprio p (mt (hlink p).2 hp)]; exact h.prio p
  · exact h.runnable p ((hlink p).1 hp)
  · exact (hlink p).2 (h.linked p hp hi)
  · exact hprio p (mt (hlink p).2 hp)

theorem tick_mild (he : d.tick = some d') (h : Consistent d) : Mild d d' := by
  rw [tick, bind_eq_some_iff] at he
  obtain ⟨d1, h1, h2⟩ := he
  have hm := wakeup_mild h1 h
  exact hm.trans (rqOnTick_mild h2 hm.consistent)

theorem killAt_mild {pid : ℤ} (he : d.killAt pid p = some d') (h : Consistent d)
    (hcur : ∀ c, d.cur = some c → (d.proc c).state ≠ .sleeping) : Mild d d' := by
  have hq := setKilled_quiet d p
  simp only [killAt] at he
  split_ifs at he with hpid hs
  · have hc := hq.consistent h
    refine (hq.mild h).trans ((makeRunnable_entered hc (hc.not_linked (by simp [hs])) he).mild hs
      fun hcp => hcur p hcp ?_)
    rw [← hq.state]; exact hs
  · cases he
    exact hq.mild h
  · cases he
    exact .refl h

theorem reparentOne_mild {pp : ProcId} (he : reparentOne p d pp = some d') (h : Consistent d) :
    Mild d d' := by
  unfold reparentOne at he
  split_ifs at he
  · have hq := setParent_quiet d pp d.initproc
    exact (hq.mild h).trans (wakeup_mild he (hq.consistent h))
  · cases he
    exact .refl h

/-! ## Other states -/

/-- `p`, which is not linked, has got the state `st`, and perhaps new scheduling fields. -/
structure Restate (p : ProcId) (st : ProcState) (d d' : Sys) : Prop where
  state : ∀ q, (d'.proc q).state = if q = p then st else (d.proc q).state
  rep : ∀ Q, d.rq.Rep Q → (∀ l, p ∉ Q l) → d'.rq.Rep Q
  prio : ∀ q, q ≠ p → d'.rq.prio q = d.rq.prio q
  prioSelf : 0 ≤ d.rq.prio p ∧ d.rq.prio p < NPRIO → 0 ≤ d'.rq.prio p ∧ d'.rq.prio p < NPRIO
  idleproc : d'.idleproc = d.idleproc
  pickedAgain : d'.pickedAgain = d.pickedAgain

section

variable {st : ProcState}

/-- A change to `p` alone that leaves the run queue as it is. -/
theorem modProc_restate (d : Sys) (p : ProcId) {f : Proc → Proc} (hf : ∀ x, (f x).state = st) :
    Restate p st d (d.modProc p f) := by
  refine ⟨fun q => ?_, fun _ h _ => h, fun _ _ => rfl, id, rfl, rfl⟩
  by_cases hq : q = p
  · subst hq; simp [modProc, hf]
  · simp [modProc, hq]

theorem Restate.of_quiet (hq : Quiet d d') (h : Restate p st d' d'') : Restate p st d d'' where
  state q := by rw [h.state, hq.state]
  rep := hq.rq ▸ h.rep
  prio := hq.rq ▸ h.prio
  prioSelf := hq.rq ▸ h.prioSelf
  idleproc := h.idleproc.trans hq.idleproc
  pickedAgain := h.pickedAgain.trans hq.pickedAgain

theorem Restate.quiet (h : Restate p st d d') (hq : Quiet d' d'') : Restate p st d d'' where
  state q := by rw [hq.state, h.state]
  rep := hq.rq ▸ h.rep
  prio := hq.rq ▸ h.prio
  prioSelf := hq.rq ▸ h.prioSelf
  idleproc := hq.idleproc.trans h.idleproc
  pickedAgain := hq.pickedAgain.trans h.pickedAgain

theorem Restate.linked (h : Restate p st d d') (hc : Consistent d) (hp : ¬ d.rq.Linked p) :
    d'.rq.Linked q ↔ d.rq.Linked q := by
  obtain ⟨Q, hQ⟩ := hc.rep
  exact hQ.linked_congr (h.rep Q hQ (not_exists.1 (mt hQ.linked_iff.2 hp)))

theorem Restate.consistent (h : Restate p st d d') (hc : Consistent d) (hp : ¬ d.rq.Linked p)
    (hi : d.idleproc ≠ some p) (hst : st ≠ .runnable) : Consistent d' := by
  have hlink : ∀ q, d'.rq.Linked q ↔ d.rq.Linked q := fun q => h.linked hc hp
  obtain ⟨Q, hQ⟩ := hc.rep
  obtain ⟨w, hw, hwst⟩ := hc.idle
  refine ⟨⟨Q, h.rep Q hQ (not_exists.1 (mt hQ.linked_iff.2 hp))⟩, fun q => ?_, fun q hq => ?_,
    fun q hq hqi => ?_, ⟨w, h.idleproc.trans hw, ?_⟩,
    h.pickedAgain.trans hc.pickedAgain⟩
  · by_cases hq : q = p
    · subst hq; exact h.prioSelf (hc.prio q)
    · rw [h.prio q hq]; exact hc.prio q
  · have hl := (hlink q).1 hq
    have hqp : q ≠ p := fun he => hp (he ▸ hl)
    rw [h.state, if_neg hqp]
    exact hc.runnable q hl
  · rw [hlink]
    rw [h.state] at hq
    split_ifs at hq
    · exact absurd hq hst
    · exact hc.linked q hq (h.idleproc ▸ hqi)
  · have hwp : w ≠ p := fun he => hi (he ▸ hw)
    rw [h.state, if_neg hwp]
    exact hwst

end

theorem sleepBlock_restate {chan : Chan} (hp : (d.proc p).state ≠ .runnable)
    (he : d.sleepBlock chan p = some d') : Restate p .sleeping d d' := by
  have hq := setChan_quiet d p chan
  simp only [sleepBlock, dequeueRunnable, hq.state, if_neg hp, bind_eq_bind,
    bind_some, some.injEq] at he
  subst he
  exact .of_quiet hq (modProc_restate _ p (f := fun x => { x with state := .sleeping })
    fun _ => rfl)

theorem exitBlock_spec {status : ℤ} (h : Consistent d) (he : d.exitBlock status p = some d') :
    ∃ d1, Mild d d1 ∧ Frame d1 d' ∧ Restate p .zombie d1 d' := by
  obtain ⟨d1, d2, h1, h2, rfl⟩ := exitBlock_eq he
  have hrep : Mild d d1 := mild_foldlM (fun _ _ _ => reparentOne_mild) _ h1 h
  refine ⟨d2, hrep.trans (wakeup_mild h2 hrep.consistent), modProc_frame d2 p _, ?_⟩
  exact modProc_restate d2 p (f := fun x => { x with xstate := status, state := .zombie })
    fun _ => rfl

theorem reap_restate (pp : ProcId) : Restate pp .unused d (d.reap pp p true) :=
  .of_quiet (setRet_quiet d p (d.proc pp).pid) (modProc_restate _ pp (f := fun x =>
    { x with pid := 0, parent := none, chan := .null, killed := false, xstate := 0,
             state := .unused }) fun _ => rfl)

/-- `allocproc` on a free slot: `USED`, or `UNUSED` again if memory runs out. -/
theorem forkAt_restate (ok : Bool) (hp : (d.proc p).state = .unused) :
    Restate p (if ok then .used else .unused) d (d.forkAt p ok) := by
  have hrep : ∀ Q, d.rq.Rep Q → (∀ l, p ∉ Q l) →
      (((d.rq.setPrio p prioDefault).setWait p 0).setNext p none).Rep Q :=
    fun Q hQ hn => ((hQ.setPrio hn _).setWait p 0).setNext hn none
  have hprio : ∀ q, q ≠ p → (((d.rq.setPrio p prioDefault).setWait p 0).setNext p none).prio q =
      d.rq.prio q := fun q hq => by
    simp [setPrio, setWait, setNext, hq]
  have hself : 0 ≤ (((d.rq.setPrio p prioDefault).setWait p 0).setNext p none).prio p ∧
      (((d.rq.setPrio p prioDefault).setWait p 0).setNext p none).prio p < NPRIO := by
    simp [setPrio, setWait, setNext, prioDefault]
  unfold forkAt
  rw [if_pos hp]
  cases ok with
  | true =>
    refine ⟨fun q => ?_, hrep, hprio, fun _ => hself, rfl, rfl⟩
    by_cases hq : q = p
    · subst hq; simp [newContext, allocFields, allocpid, setState, modProc]
    · simp [newContext, allocFields, allocpid, setState, modProc, hq]
  | false =>
    refine ⟨fun q => ?_, hrep, hprio, fun _ => hself, rfl, rfl⟩
    by_cases hq : q = p
    · subst hq; simp [freeproc, allocFields, allocpid, setState, modProc]
    · simp [freeproc, allocFields, allocpid, setState, modProc, hq]

/-! ## Picking the next process -/

/-- `schedule` has made `q` the current process: it is off the queue, no linked process has a
higher priority, and it is idle or `RUNNING`. -/
structure Picked (q : ProcId) (d d' : Sys) : Prop where
  consistent : Consistent d'
  cur : d'.cur = some q
  idleproc : d'.idleproc = d.idleproc
  initproc : d'.initproc = d.initproc
  code : d'.code = d.code
  run : d'.run = d.run
  state : ∀ p, p ≠ q → (d'.proc p).state = (d.proc p).state
  picked : d.idleproc = some q ∨ (d'.proc q).state = .running
  wasRunnable : (d.proc q).state = .runnable
  linked : ∀ p, d'.rq.Linked p ↔ d.rq.Linked p ∧ p ≠ q
  prio : d'.rq.prio = d.rq.prio
  top : d'.Top q
  -- idle is picked from the queue, or when the queue is empty
  idle : d.idleproc = some q → d.rq.Linked q ∨ ∀ p, ¬ d.rq.Linked p

theorem pickLoop_picked {n : ℕ} (h : Consistent d) (he : d.pickLoop (n + 1) = some d') :
    ∃ q, Picked q d d' := by
  obtain ⟨Q, hQ⟩ := h.rep
  obtain ⟨w, hw, hwst⟩ := h.idle
  simp only [pickLoop, bind_eq_bind, bind_eq_some_iff, Prod.exists] at he
  obtain ⟨next, rq, hpick, he⟩ := he
  rcases prioPickNext_cases hQ hpick with ⟨rfl, rfl, hnone⟩ |
    ⟨q, rfl, hlq, hrep, hprio, hlink, hlow⟩
  · cases he
    exact ⟨w, ⟨h.rep, h.prio, h.runnable, h.linked, h.idle, h.pickedAgain⟩, hw, rfl,
      rfl, rfl, rfl, fun _ _ => rfl, .inl hw, hwst, fun p => ⟨fun hp => absurd hp (hnone p),
      fun hp => hp.1⟩, rfl, fun p hp => absurd hp (hnone p), fun _ => .inr hnone⟩
  · have hrun : (d.proc q).state = .runnable := h.runnable q hlq
    have hrange : ∀ p, 0 ≤ rq.prio p ∧ rq.prio p < NPRIO := fun p => by
      rw [hprio]; exact h.prio p
    simp only at he
    by_cases hidle : d.idleproc = some q
    · rw [if_pos hidle] at he
      cases he
      refine ⟨q, ⟨hrep, hrange, fun p hp => h.runnable p ((hlink p).1 hp).1, fun p hp hi =>
        (hlink p).2 ⟨h.linked p hp hi, fun he => hi (he ▸ hidle)⟩, h.idle,
        h.pickedAgain⟩, rfl, rfl, rfl, rfl, rfl, fun _ _ => rfl, .inl hidle, hrun, hlink, hprio,
        fun p hp => ?_, fun _ => .inl hlq⟩
      simp only [hprio]
      exact hlow p ((hlink p).1 hp).1
    · rw [if_neg hidle, if_pos hrun] at he
      cases he
      have hstate : ∀ p, p ≠ q →
          ((pick { d with rq } q).proc p).state = (d.proc p).state := fun p hp => by
        simp [pick, setState, modProc, hp]
      refine ⟨q, ⟨?_, hrange, fun p hp => ?_, fun p hp hi => ?_, ⟨w, hw, ?_⟩,
        h.pickedAgain⟩, rfl, rfl, rfl, rfl, rfl, hstate, .inr (by simp [pick, setState, modProc]),
        hrun, hlink, hprio, fun p hp => ?_, fun hi => absurd hi hidle⟩
      · obtain ⟨Q', hQ'⟩ := hrep
        exact ⟨Q', hQ'.setWait q 0⟩
      · obtain ⟨hl, hne⟩ := (hlink p).1 hp
        rw [hstate p hne]
        exact h.runnable p hl
      · by_cases hpq : p = q
        · subst hpq; simp [pick, setState, modProc] at hp
        · exact (hlink p).2 ⟨h.linked p (hstate p hpq ▸ hp) hi, hpq⟩
      · rw [hstate w fun he => hidle (he ▸ hw)]
        exact hwst
      · have hle := hlow p ((hlink p).1 hp).1
        rw [← hprio] at hle
        exact hle

end Sys

end Xv6
