import Xv6.Kernel.ExitWait

/-!
# The laws of the exit/wait protocol

An invariant of the process table (`ProcTable.Inv`) carries everything. It says who is whose
parent, which slots a `fork` in progress owns, that nobody asleep in `wait` has a zombie child,
and that the calls of `exit` so far are the successful calls of `wait` and the zombies.

**Steps.** Most steps change one process in ways the family does not notice (`Mild`); the sections
of `fork`, `exit` and `wait` are treated one by one, each from what it does to the fields of the
table.

Main result: `exit_wait_protocol`.
-/

open Function List Transition

namespace Xv6

open Procs

namespace ProcTable

/-! ## The zombies -/

/-- The exits of a table's zombies. -/
def zombies (procs : Procs) : Multiset Exit :=
  (Finset.univ.filter fun z => (procs z).state = .zombie).val.map fun z =>
    ⟨z, (procs z).pid, (procs z).xstate⟩

section

variable {procs procs' : Procs}

theorem zombies_congr (hs : ∀ z, (procs' z).state = .zombie ↔ (procs z).state = .zombie)
    (hf : ∀ z, (procs z).state = .zombie →
      (procs' z).pid = (procs z).pid ∧ (procs' z).xstate = (procs z).xstate) :
    zombies procs' = zombies procs := by
  unfold zombies
  rw [Finset.filter_congr fun z _ => hs z]
  apply Multiset.map_congr rfl
  intro z hz
  obtain ⟨hp, hx⟩ := hf z (by simpa using hz)
  rw [hp, hx]

theorem zombies_cons {p : ProcId} (hp : (procs p).state ≠ .zombie)
    (hp' : (procs' p).state = .zombie)
    (hs : ∀ z, z ≠ p → ((procs' z).state = .zombie ↔ (procs z).state = .zombie))
    (hf : ∀ z, (procs z).state = .zombie →
      (procs' z).pid = (procs z).pid ∧ (procs' z).xstate = (procs z).xstate) :
    zombies procs' = ⟨p, (procs' p).pid, (procs' p).xstate⟩ ::ₘ zombies procs := by
  have hset : (Finset.univ.filter fun z => (procs' z).state = .zombie) =
      insert p (Finset.univ.filter fun z => (procs z).state = .zombie) := by
    ext z
    by_cases hz : z = p
    · subst hz; simp [hp']
    · simp [hz, hs z hz]
  unfold zombies
  rw [hset, Finset.insert_val_of_notMem (by simpa using hp), Multiset.map_cons]
  congr 1
  apply Multiset.map_congr rfl
  intro z hz
  obtain ⟨hpid, hx⟩ := hf z (by simpa using hz)
  rw [hpid, hx]

end

/-! ## The invariant -/

structure Inv (t : ProcTable) : Prop where
  init_live : (t.proc t.initproc).state.Live
  unused_parent : ∀ p, (t.proc p).state = .unused → (t.proc p).parent = none
  parent_live : ∀ p q, (t.proc p).parent = some q → (t.proc q).state.Live
  /-- a process has no parent only before its fork has set it -/
  parent_none : ∀ p, p ≠ t.initproc → t.idle p = false → (t.proc p).state ≠ .unused →
    (t.proc p).parent = none → ∃ q, t.doing q = .forking p
  busy_live : ∀ p, t.doing p ≠ .other → (t.proc p).state.Live
  forking : ∀ q p, t.doing q = .forking p →
    (t.proc p).state = .used ∧ (t.proc p).parent = none
  forked : ∀ q p, t.doing q = .forked p →
    (t.proc p).state = .used ∧ (t.proc p).parent = some q
  child_unique : ∀ q q' p, (t.doing q).child = some p → (t.doing q').child = some p → q = q'
  waiter : ∀ p, t.doing p = .waiting → (t.proc p).state = .sleeping →
    (t.proc p).chan = .proc p ∧
      ∀ z, (t.proc z).parent = some p → (t.proc z).state ≠ .zombie
  kin : ∀ z q, (t.proc z).parent = some q →
    t.origin z = some q ∨ t.origin z = none ∧ q = t.initproc
  reaped : ∀ r ∈ t.reaps, r.origin = some r.waiter ∨ r.origin = none ∧ r.waiter = t.initproc
  exits : (t.exits : Multiset Exit) = t.reaps.map Reap.child + zombies t.proc

variable {t t' : ProcTable} {p : ProcId}

attribute [grind] ProcState.Live Doing.child

theorem userinit_inv : userinit.Inv where
  init_live := by decide
  unused_parent p _ := by by_cases hp : p = 0 <;> simp [userinit, hp]
  parent_live p q h := by by_cases hp : p = 0 <;> simp [userinit, hp] at h
  parent_none p hp _ hs := by simp [userinit, show p ≠ 0 from hp] at hs
  busy_live p h := absurd rfl h
  forking q p h := by simp [userinit] at h
  forked q p h := by simp [userinit] at h
  child_unique q q' p h := by simp [userinit, Doing.child] at h
  waiter p h := by simp [userinit] at h
  kin z q h := by by_cases hz : z = 0 <;> simp [userinit, hz] at h
  reaped r hr := by simp [userinit] at hr
  exits := by
    have hz : ∀ z, (userinit.proc z).state ≠ .zombie := by
      intro z
      by_cases h : z = 0 <;> simp [userinit, h]
    have hnil : zombies userinit.proc = 0 := by simp [zombies, hz]
    rw [hnil]
    rfl

/-! ## Steps that keep the family -/

/-- Parents, zombies and the history are the same, processes move only between the live states,
and nobody starts or ends a `fork`. -/
structure Mild (t t' : ProcTable) : Prop where
  initproc : t'.initproc = t.initproc
  idle : t'.idle = t.idle
  origin : t'.origin = t.origin
  exits : t'.exits = t.exits
  reaps : t'.reaps = t.reaps
  parent : ∀ p, (t'.proc p).parent = (t.proc p).parent
  zombie : ∀ p, (t.proc p).state = .zombie →
    (t'.proc p).pid = (t.proc p).pid ∧ (t'.proc p).xstate = (t.proc p).xstate
  state : ∀ p, (t'.proc p).state = (t.proc p).state ∨
    (t.proc p).state.Live ∧ (t'.proc p).state.Live
  doing : ∀ p, t'.doing p = t.doing p ∨
    (t.doing p).child = none ∧ (t'.doing p).child = none ∧ (t'.proc p).state.Live

theorem Mild.live (h : Mild t t') (hp : (t.proc p).state.Live) : (t'.proc p).state.Live := by
  rcases h.state p with hs | ⟨-, hl⟩
  exacts [hs ▸ hp, hl]

theorem Mild.state_iff (h : Mild t t') {st : ProcState} (hst : ¬ st.Live) :
    (t'.proc p).state = st ↔ (t.proc p).state = st := by
  rcases h.state p with hs | ⟨hl, hl'⟩
  · rw [hs]
  · exact ⟨fun e => absurd (e ▸ hl') hst, fun e => absurd (e ▸ hl) hst⟩

theorem Mild.doing_eq (h : Mild t t') {np : ProcId} :
    (t'.doing p = .forking np ↔ t.doing p = .forking np) ∧
      (t'.doing p = .forked np ↔ t.doing p = .forked np) := by
  rcases h.doing p with hd | ⟨hc, hc', -⟩
  · rw [hd]
    exact ⟨.rfl, .rfl⟩
  · constructor <;> constructor <;> intro e <;> simp [e, Doing.child] at hc hc'

theorem Mild.child (h : Mild t t') : (t'.doing p).child = (t.doing p).child := by
  rcases h.doing p with hd | ⟨hc, hc', -⟩
  · rw [hd]
  · rw [hc, hc']

section

variable (hi : t.Inv)

include hi

theorem Inv.mild (h : Mild t t')
    (hw : ∀ p, t'.doing p = .waiting → (t'.proc p).state = .sleeping → (t'.proc p).chan = .proc p ∧
        ∀ z, (t.proc z).parent = some p → (t.proc z).state ≠ .zombie) : t'.Inv where
  init_live := h.initproc ▸ h.live hi.init_live
  unused_parent p hp := by
    rw [h.parent]
    exact hi.unused_parent p ((h.state_iff (by decide)).mp hp)
  parent_live p q hp := h.live (hi.parent_live p q (h.parent p ▸ hp))
  parent_none p hp hid hs hn := by
    rw [h.initproc] at hp
    rw [h.idle] at hid
    rw [Ne, h.state_iff (by decide)] at hs
    rw [h.parent] at hn
    obtain ⟨q, hq⟩ := hi.parent_none p hp hid hs hn
    exact ⟨q, h.doing_eq.1.mpr hq⟩
  busy_live p hp := by
    rcases h.doing p with hd | ⟨-, -, hl⟩
    · exact h.live (hi.busy_live p (hd ▸ hp))
    · exact hl
  forking q p hq := by
    rw [h.state_iff (by decide), h.parent]
    exact hi.forking q p (h.doing_eq.1.mp hq)
  forked q p hq := by
    rw [h.state_iff (by decide), h.parent]
    exact hi.forked q p (h.doing_eq.2.mp hq)
  child_unique q q' p hq hq' := hi.child_unique q q' p (h.child ▸ hq) (h.child ▸ hq')
  waiter p hd hs := by
    obtain ⟨hc, hz⟩ := hw p hd hs
    refine ⟨hc, fun z hp => ?_⟩
    rw [Ne, h.state_iff (by decide)]
    exact hz z (h.parent z ▸ hp)
  kin z q hz := by
    rw [h.origin, h.initproc]
    exact hi.kin z q (h.parent z ▸ hz)
  reaped r hr := by
    rw [h.reaps] at hr
    rw [h.initproc]
    exact hi.reaped r hr
  exits := by
    rw [h.exits, h.reaps, zombies_congr (fun z => h.state_iff (by decide)) h.zombie]
    exact hi.exits

/-- One process changes in fields the protocol does not depend on, and its state between live states. If it
is asleep in `wait` afterwards, it has no zombie child. -/
theorem Inv.update {x : Proc} {doing : ProcId → Doing} (hpar : x.parent = (t.proc p).parent)
    (hid : (t.proc p).state = .zombie → x.pid = (t.proc p).pid ∧ x.xstate = (t.proc p).xstate)
    (hst : x.state = (t.proc p).state ∨ (t.proc p).state.Live ∧ x.state.Live)
    (hd : doing p = t.doing p ∨ (t.doing p).child = none ∧ (doing p).child = none ∧ x.state.Live)
    (hne : ∀ q, q ≠ p → doing q = t.doing q)
    (hw : doing p = .waiting → x.state = .sleeping → x.chan = .proc p ∧
      ∀ z, (t.proc z).parent = some p → (t.proc z).state ≠ .zombie) :
    ProcTable.Inv { t with proc := Function.update t.proc p x, doing := doing } := by
  have hself : Function.update t.proc p x p = x := update_self ..
  have hother : ∀ q, q ≠ p → Function.update t.proc p x q = t.proc q := fun q hq =>
    update_of_ne hq ..
  refine hi.mild ⟨rfl, rfl, rfl, rfl, rfl, fun q => ?_, fun q hz => ?_, fun q => ?_, fun q => ?_⟩
    fun q hdq hs => ?_
  all_goals
    dsimp only at *
    by_cases hq : q = p
  · rw [hq, hself, hpar]
  · rw [hother q hq]
  · subst hq
    rw [hself]
    exact hid hz
  · rw [hother q hq]
    exact ⟨rfl, rfl⟩
  · rw [hq, hself]
    exact hst
  · exact .inl (by rw [hother q hq])
  · rw [hq, hself]
    exact hd
  · exact .inl (hne q hq)
  · subst hq
    rw [hself] at hs ⊢
    exact hw hdq hs
  · rw [hother q hq] at hs ⊢
    exact hi.waiter q (hne q hq ▸ hdq) hs

theorem Inv.setRet (p : ProcId) (v : ℤ) : ProcTable.Inv { t with proc := setRet t.proc p v } :=
  hi.update rfl (fun _ => ⟨rfl, rfl⟩) (.inl rfl) (.inl rfl) (fun _ _ => rfl) (hi.waiter p)

theorem Inv.wakeup (p : ProcId) (chan : Chan) :
    ProcTable.Inv { t with proc := wakeup t.proc p chan } := by
  have hg := wakeup_gentle t.proc p chan
  apply hi.mild
  · refine ⟨rfl, rfl, rfl, rfl, rfl, wakeup_parent t.proc p chan,
      fun q _ => ⟨hg.pid q, hg.xstate q⟩, fun q => ?_, fun _ => .inl rfl⟩
    rcases hg.state q with h | ⟨-, hs, hr⟩
    · exact .inl h
    · exact .inr ⟨.inl hs, .inr (.inl hr)⟩
  · intro q hd hs
    dsimp only
    rw [hg.chan q]
    exact hi.waiter q hd (hg.sleeping hs)

theorem Inv.kill (pid : ℤ) (i : ProcId) : ProcTable.Inv { t with proc := killAt t.proc pid i } := by
  unfold killAt
  split_ifs with _ hs
  · refine hi.update rfl (fun h => ⟨rfl, rfl⟩) (.inr ⟨.inl hs, .inr (.inl rfl)⟩) (.inl rfl)
      (fun _ _ => rfl) ?_
    intro _ h
    cases h
  · exact hi.update rfl (fun _ => ⟨rfl, rfl⟩) (.inl rfl) (.inl rfl) (fun _ _ => rfl) (hi.waiter i)
  · exact hi

/-- A running process that is not in `fork` leaves `wait`. -/
theorem Inv.waitFail (hr : (t.proc p).state = .running) (hd : (t.doing p).child = none) :
    (t.waitFail p).Inv := by
  refine hi.update rfl (fun _ => ⟨rfl, rfl⟩) (.inl rfl) (.inr ⟨hd, ?_, .inr (.inr hr)⟩)
    (fun q hq => update_of_ne hq _ _) ?_
  · rw [update_self]; rfl
  · intro h
    rw [update_self] at h
    cases h

/-- A process goes to sleep in `wait` after a scan that found no zombie. -/
theorem Inv.waitSleep (hr : (t.proc p).state = .running) (hd : (t.doing p).child = none)
    (hz : zombieChild t.proc p = none) :
    ProcTable.Inv { t.setDoing p .waiting with proc := sleep t.proc p (.proc p) } := by
  refine hi.update rfl (fun _ => ⟨rfl, rfl⟩) (.inr ⟨.inr (.inr hr), .inl rfl⟩)
    (.inr ⟨hd, ?_, .inl rfl⟩) (fun q hq => update_of_ne hq _ _) ?_
  · simp [setDoing, Doing.child]
  · intro _ _
    refine ⟨rfl, fun z hpar hs => ?_⟩
    have := find?_eq_none.mp hz z (mem_finRange z)
    simp [hpar, hs] at this

/-! ## `fork` -/

theorem Inv.setOrigin {i : ProcId} (hpar : (t.proc i).parent = none) (n : ℤ) (o : Option ProcId) :
    ProcTable.Inv { t with nextpid := n, origin := Function.update t.origin i o } :=
  { hi with
    kin := by
      intro z q hz
      have hne : z ≠ i := by
        rintro rfl
        simp [hpar] at hz
      simpa [hne] using hi.kin z q hz }

/-- The child of a `fork` in progress is a slot in use. -/
theorem Inv.child_used {q np : ProcId} (h : (t.doing q).child = some np) :
    (t.proc np).state = .used := by
  cases hd : t.doing q with
  | forking i =>
    obtain rfl : i = np := by simpa [hd, Doing.child] using h
    exact (hi.forking q i hd).1
  | forked i =>
    obtain rfl : i = np := by simpa [hd, Doing.child] using h
    exact (hi.forked q i hd).1
  | _ => simp [hd, Doing.child] at h

/-- **A section of `fork` in `p`.** The slot `i` of the child becomes `x`, and `p` is at `d` after it. -/
theorem Inv.forkSection {i : ProcId} {x : Proc} {d : Doing} {origin : ProcId → Option ProcId}
    (hr : (t.proc p).state = .running)
    (hslot : (t.proc i).state = .unused ∨ (t.proc i).state = .used)
    (hmine : ∀ q, (t.doing q).child = some i → q = p)
    (hchild : ∀ j, (t.doing p).child = some j → j = i) (ho : ∀ q, q ≠ i → origin q = t.origin q)
    (hnew : d = .forking i ∧ x.state = .used ∧ x.parent = none ∨
      (d = .forked i ∧ x.state = .used ∨ d = .other ∧ x.state = .runnable) ∧
        x.parent = some p ∧ (origin i = some p ∨ origin i = none ∧ p = t.initproc)) :
    ProcTable.Inv { t with
      proc := Function.update t.proc i x, doing := Function.update t.doing p d, origin } := by
  have hproc : ∀ q, Function.update t.proc i x q = if q = i then x else t.proc q :=
    update_apply t.proc i x
  have hdoing : ∀ q, Function.update t.doing p d q = if q = p then d else t.doing q :=
    update_apply t.doing p d
  have hz : zombies (Function.update t.proc i x) = zombies t.proc :=
    zombies_congr (by grind) (by grind)
  obtain ⟨hinit, hunused, hlive, hnone, hbusy, hforking, hforked, huniq, hwait, hkin, hreaped,
    hexits⟩ := hi
  constructor
  case reaped => exact hreaped
  case exits => rw [hz]; exact hexits
  all_goals grind

/-- A free slot is taken for a child of `p`. -/
theorem Inv.take {i : ProcId} {x : Proc} (hp : t.Free p) (hu : (t.proc i).state = .unused)
    (hx : x.state = .used) (hxp : x.parent = none) : ProcTable.Inv { t with
      proc := Function.update t.proc i x, doing := Function.update t.doing p (.forking i) } := by
  obtain ⟨hr, hd⟩ := hp
  refine hi.forkSection hr (.inl hu) (fun q hq => ?_) (fun j hj => ?_) (fun _ _ => rfl)
    (.inl ⟨rfl, hx, hxp⟩)
  · rw [hi.child_used hq] at hu
    cases hu
  · rw [hd] at hj
    cases hj

theorem Inv.forkAt {i : ProcId} (hp : t.Free p) (hu : (t.proc i).state = .unused) (ok : Bool) :
    (t.forkAt p i ok).Inv := by
  have hpar := hi.unused_parent i hu
  cases ok with
  | true =>
    have ht := hi.take (x := { t.proc i with pid := t.nextpid, state := .used, a0 := 0 }) hp hu rfl
      hpar
    have ho := ht.setOrigin (i := i) (by simp [hpar]) (t.nextpid + 1) none
    simpa [ProcTable.forkAt, Procs.forkAt] using ho
  | false =>
    -- the slot is freed again
    have hf : ProcTable.Inv { t with proc := Procs.freeproc t.proc i } := by
      refine hi.update hpar.symm (fun h => ?_) (.inl hu.symm) (.inl rfl) (fun _ _ => rfl) ?_
      · rw [hu] at h
        cases h
      · intro _ h
        cases h
    have ho := (hf.setOrigin (i := i) (by simp [Procs.freeproc]) (t.nextpid + 1) none).setRet p (-1)
    simpa [ProcTable.forkAt, Procs.forkAt, Procs.freeproc] using ho

theorem Inv.forkParent {np : ProcId} (hr : (t.proc p).state = .running)
    (hd : t.doing p = .forking np) : (t.forkParent np p).Inv := by
  obtain ⟨hu, -⟩ := hi.forking p np hd
  have hchild : (t.doing p).child = some np := by rw [hd]; rfl
  exact hi.forkSection hr (.inr hu) (fun q hq => hi.child_unique q p np hq hchild)
    (fun j hj => Option.some.inj (hj.symm.trans hchild)) (fun q hq => update_of_ne hq _ _)
    (.inr ⟨.inl ⟨rfl, hu⟩, rfl, .inl (update_self ..)⟩)

theorem Inv.forkRun {np : ProcId} (hr : (t.proc p).state = .running) (hd : t.doing p = .forked np) :
    (t.forkRun np p).Inv := by
  obtain ⟨hu, hpar⟩ := hi.forked p np hd
  have hchild : (t.doing p).child = some np := by rw [hd]; rfl
  have hrun : ProcTable.Inv { t with
      proc := setState t.proc np .runnable, doing := Function.update t.doing p .other } :=
    hi.forkSection hr (.inr hu) (fun q hq => hi.child_unique q p np hq hchild)
      (fun j hj => Option.some.inj (hj.symm.trans hchild)) (fun _ _ => rfl)
      (.inr ⟨.inr ⟨rfl, rfl⟩, hpar, hi.kin np p hpar⟩)
  exact hrun.setRet p _

/-- Another CPU's idle process takes a free slot. -/
theorem Inv.allocIdleproc {i : ProcId} (hu : (t.proc i).state = .unused) : ProcTable.Inv { t with
      proc := Function.update t.proc i { t.proc i with pid := 0, state := .runnable }
      idle := Function.update t.idle i true } := by
  have hproc : ∀ q, Function.update t.proc i { t.proc i with pid := 0, state := .runnable } q =
      if q = i then { t.proc i with pid := 0, state := .runnable } else t.proc q :=
    update_apply t.proc i _
  have hidle : ∀ q, Function.update t.idle i true q = if q = i then true else t.idle q :=
    update_apply t.idle i _
  have hz : zombies (Function.update t.proc i { t.proc i with pid := 0, state := .runnable }) =
      zombies t.proc := zombies_congr (by grind) (by grind)
  obtain ⟨hinit, hunused, hlive, hnone, hbusy, hforking, hforked, huniq, hwait, hkin, hreaped,
    hexits⟩ := hi
  constructor
  case child_unique => exact huniq
  case reaped => exact hreaped
  case exits => rw [hz]; exact hexits
  all_goals grind

/-! ## `exit` and `wait` -/

theorem Inv.exitBlock (hp : t.Free p) (hne : t.initproc ≠ p) (status : ℤ) :
    (t.exitBlock status p).Inv := by
  obtain ⟨hr, hd⟩ := hp
  -- the table afterwards, by its fields
  obtain ⟨procs, hprocs⟩ : ∃ procs, procs = exit t.proc t.initproc status p := ⟨_, rfl⟩
  have hself : (procs p).state = .zombie ∧ (procs p).xstate = status :=
    hprocs ▸ exit_self t.proc t.initproc status p
  have hpid : ∀ q, (procs q).pid = (t.proc q).pid :=
    hprocs ▸ exit_pid t.proc t.initproc status p
  have hparent : ∀ q, (procs q).parent =
      if (t.proc q).parent = some p then some t.initproc else (t.proc q).parent :=
    hprocs ▸ exit_parent t.proc hne status
  have hg := exit_wakeups_gentle t.proc t.initproc p
    (.ofProc (reparent t.proc t.initproc p p).parent)
  have hother : ∀ q, q ≠ p → procs q = _ :=
    fun q hq => hprocs ▸ exit_of_ne t.proc t.initproc status hq
  have hstate : ∀ q, q ≠ p → (procs q).state = (t.proc q).state ∨
      (t.proc q).state = .sleeping ∧ (procs q).state = .runnable := fun q hq => by
    rw [hother q hq]
    exact (hg.state q).imp_right And.right
  have hxstate : ∀ q, q ≠ p → (procs q).xstate = (t.proc q).xstate := fun q hq => by
    rw [hother q hq]
    exact hg.xstate q
  have hchan : ∀ q, q ≠ p → (procs q).chan = (t.proc q).chan := fun q hq => by
    rw [hother q hq]
    exact hg.chan q
  have hwakes : ∀ q z, q ≠ p → (procs q).state = .sleeping → (t.proc q).chan = .proc q →
      (procs z).parent = some q → z ≠ p ∧ (t.proc z).parent ≠ some p := by
    rw [hprocs]
    intro q z
    exact exit_wakes hne
  have hz : zombies procs = ⟨p, (t.proc p).pid, status⟩ ::ₘ zombies t.proc := by
    have hp : (t.proc p).state ≠ .zombie := by rw [hr]; decide
    rw [zombies_cons hp hself.1 (by grind) (by grind), hpid, hself.2]
  rw [ProcTable.exitBlock, ← hprocs]
  clear hprocs hother hg
  obtain ⟨hinit, hunused, hlive, hnone, hbusy, hforking, hforked, huniq, hwait, hkin, hreaped,
    hexits⟩ := hi
  constructor
  case child_unique => exact huniq
  case reaped => exact hreaped
  case exits =>
    rw [hz, Multiset.add_cons, ← hexits]
    rfl
  all_goals grind

/-- `wait` frees the zombie it found. -/
theorem Inv.reap {pp : ProcId} (hr : (t.proc p).state = .running) (hd : (t.doing p).child = none)
    (hpp : (t.proc pp).parent = some p) (hzom : (t.proc pp).state = .zombie) :
    (t.reap pp p).Inv := by
  have hne : p ≠ pp := by
    rintro rfl
    rw [hr] at hzom
    cases hzom
  obtain ⟨procs, hprocs⟩ : ∃ procs, procs = Procs.reap t.proc pp p true := ⟨_, rfl⟩
  have hproc : ∀ q, procs q = if q = pp then { t.proc pp with
        pid := 0, parent := none, chan := .null, killed := false, xstate := 0, state := .unused }
      else if q = p then { t.proc p with a0 := (t.proc pp).pid } else t.proc q := by
    intro q
    simp [hprocs, Procs.reap, Procs.freeproc, Procs.setRet, update_apply, hne.symm]
  have hdoing : ∀ q, Function.update t.doing p .other q =
      if q = p then .other else t.doing q := update_apply t.doing p _
  have hz : zombies t.proc = ⟨pp, (t.proc pp).pid, (t.proc pp).xstate⟩ ::ₘ zombies procs :=
    zombies_cons (by grind) hzom (by grind) (by grind)
  rw [ProcTable.reap, ← hprocs]
  obtain ⟨hinit, hunused, hlive, hnone, hbusy, hforking, hforked, huniq, hwait, hkin, hreaped,
    hexits⟩ := hi
  constructor
  case reaped =>
    intro r hr
    rcases mem_cons.mp hr with rfl | hr
    · exact hkin pp p hpp
    · exact hreaped r hr
  case exits =>
    rw [hexits, hz, Multiset.add_cons, hproc p, if_neg hne, if_pos rfl, map_cons,
      ← Multiset.cons_coe, Multiset.cons_add]
  all_goals grind

end

theorem zombieChild_spec {procs : Procs} {pp : ProcId} (h : zombieChild procs p = some pp) :
    (procs pp).parent = some p ∧ (procs pp).state = .zombie := by
  simpa using find?_some h

theorem Inv.waitScan (hi : t.Inv) (hr : (t.proc p).state = .running)
    (hd : (t.doing p).child = none) (ok : Bool) : (t.waitScan p ok).Inv := by
  unfold ProcTable.waitScan
  split
  · next pp hz =>
    obtain ⟨hpp, hzom⟩ := zombieChild_spec hz
    split_ifs
    · exact hi.reap hr hd hpp hzom
    · exact hi.waitFail hr hd
  · next hz =>
    split_ifs
    · exact hi.waitFail hr hd
    · exact hi.waitSleep hr hd hz

/-! ## Every run -/

theorem step_inv {e : ProcEvent} (hs : step e t = some t') (hi : t.Inv) : t'.Inv := by
  cases e with
  | schedule p =>
    obtain ⟨⟨hr, -⟩, rfl⟩ := of_guard hs
    refine hi.update rfl (fun _ => ⟨rfl, rfl⟩) (.inr ⟨.inr (.inl hr), .inr (.inr rfl)⟩) (.inl rfl)
      (fun _ _ => rfl) ?_
    intro _ h
    cases h
  | yield p =>
    obtain ⟨hr, rfl⟩ := of_guard hs
    refine hi.update rfl (fun _ => ⟨rfl, rfl⟩) (.inr ⟨.inr (.inr hr), .inr (.inl rfl)⟩) (.inl rfl)
      (fun _ _ => rfl) ?_
    intro _ h
    cases h
  | sleep p chan =>
    obtain ⟨⟨hr, hd⟩, rfl⟩ := of_guard hs
    refine hi.update rfl (fun _ => ⟨rfl, rfl⟩) (.inr ⟨.inr (.inr hr), .inl rfl⟩) (.inl rfl)
      (fun _ _ => rfl) ?_
    intro h
    rw [hd] at h
    cases h
  | sleepWake p =>
    obtain ⟨hr, rfl⟩ := of_guard hs
    refine hi.update rfl (fun _ => ⟨rfl, rfl⟩) (.inl rfl) ?_ ?_ ?_
    · split_ifs with hd
      · exact .inr ⟨by rw [hd]; rfl, by rw [update_self]; rfl, .inr (.inr hr)⟩
      · exact .inl rfl
    · intro q hq
      split_ifs
      exacts [update_of_ne hq _ _, rfl]
    · intro _ h
      rw [hr] at h
      cases h
  | wakeup p chan =>
    obtain ⟨-, rfl⟩ := of_guard hs
    exact hi.wakeup p chan
  | allocIdleproc i =>
    obtain ⟨hu, rfl⟩ := of_guard hs
    exact hi.allocIdleproc hu
  | fork p i ok =>
    obtain ⟨⟨hp, hu⟩, rfl⟩ := of_guard hs
    exact hi.forkAt hp hu ok
  | forkParent p =>
    simp only [step] at hs
    split at hs
    · next np hd =>
      obtain ⟨hr, rfl⟩ := of_guard hs
      exact hi.forkParent hr hd
    · cases hs
  | forkRun p =>
    simp only [step] at hs
    split at hs
    · next np hd =>
      obtain ⟨hr, rfl⟩ := of_guard hs
      exact hi.forkRun hr hd
    · cases hs
  | exit p status =>
    obtain ⟨⟨hp, hne⟩, rfl⟩ := of_guard hs
    exact hi.exitBlock hp hne.symm status
  | wait p ok =>
    obtain ⟨⟨hr, hd⟩, rfl⟩ := of_guard hs
    refine hi.waitScan hr ?_ ok
    rcases hd with hd | hd <;> rw [hd] <;> rfl
  | kill p pid i =>
    obtain ⟨-, rfl⟩ := of_guard hs
    split_ifs
    · exact (hi.kill pid i).setRet p 0
    · exact hi.kill pid i
  | setkilled p =>
    obtain ⟨-, rfl⟩ := of_guard hs
    exact hi.update rfl (fun _ => ⟨rfl, rfl⟩) (.inl rfl) (.inl rfl) (fun _ _ => rfl) (hi.waiter p)
  | fail p =>
    obtain ⟨-, rfl⟩ := of_guard hs
    exact hi.setRet p (-1)

theorem Reachable.inv (h : t.Reachable) : t.Inv :=
  h.invariant userinit_inv fun _ _ _ hi _ hs => step_inv hs hi

theorem step_wait_copy_fails {pp : ProcId} (hs : step (.wait p false) t = some t')
    (hz : zombieChild t.proc p = some pp) : t' = t.waitFail p := by
  obtain ⟨-, rfl⟩ := of_guard hs
  simp [ProcTable.waitScan, hz]

/-- Returning a value from a system call does not change what a scan of `wait` finds. -/
theorem zombieChild_setRet (procs : Procs) (p q : ProcId) (v : ℤ) :
    zombieChild (setRet procs p v) q = zombieChild procs q := by
  unfold zombieChild
  congr 1
  funext z
  by_cases hz : z = p
  · subst hz; simp [setRet]
  · simp [setRet, hz]

/-- **The exit/wait protocol.** In every reachable state: a process whose `fork` has finished has
a parent that is not unused; the calls of `exit` are, one by one, the successful calls of `wait`
(with the pid each returned and the status it copied out) and the zombies, and each such `wait`
was made by the process that forked the child or, if that has exited, by init; a `wait` that
cannot copy the status out returns `-1` and would find the same zombie again; and nobody asleep
in `wait` has a zombie child. -/
theorem exit_wait_protocol (t : ProcTable) (h : t.Reachable) :
    (∀ p, p ≠ t.initproc → t.idle p = false → (t.proc p).state ≠ .unused →
      (∀ q, (t.doing q).child ≠ some p) →
        ∃ q, (t.proc p).parent = some q ∧ (t.proc q).state ≠ .unused) ∧
    ((t.exits : Multiset Exit) = t.reaps.map Reap.child + zombies t.proc ∧
      ∀ r ∈ t.reaps, r.origin = some r.waiter ∨ r.origin = none ∧ r.waiter = t.initproc) ∧
    (∀ p pp t', step (.wait p false) t = some t' → zombieChild t.proc p = some pp →
      (t'.proc p).a0 = -1 ∧ t'.doing p = .other ∧ t'.reaps = t.reaps ∧
        zombies t'.proc = zombies t.proc ∧ zombieChild t'.proc p = some pp) ∧
    ∀ p, t.doing p = .waiting → (t.proc p).state = .sleeping →
      ∀ z, (t.proc z).parent = some p → (t.proc z).state ≠ .zombie := by
  have hi := h.inv
  refine ⟨?_, ⟨hi.exits, hi.reaped⟩, ?_, fun p hd hs => (hi.waiter p hd hs).2⟩
  · intro p hp hid hs hno
    cases hpar : (t.proc p).parent with
    | none =>
      obtain ⟨q, hq⟩ := hi.parent_none p hp hid hs hpar
      exact absurd (by rw [hq]; rfl) (hno q)
    | some q =>
      refine ⟨q, rfl, fun hu => ?_⟩
      have hl := hi.parent_live p q hpar
      rw [hu] at hl
      revert hl; decide
  · intro p pp t' hs hz
    obtain rfl := step_wait_copy_fails hs hz
    refine ⟨by simp [ProcTable.waitFail, setRet], update_self .., rfl, ?_, ?_⟩
    · have hsame : ∀ z, ((t.waitFail p).proc z).state = (t.proc z).state ∧
          ((t.waitFail p).proc z).pid = (t.proc z).pid ∧
          ((t.waitFail p).proc z).xstate = (t.proc z).xstate := by
        intro z
        by_cases hz : z = p
        · subst hz; simp [ProcTable.waitFail, setRet]
        · simp [ProcTable.waitFail, setRet, hz]
      exact zombies_congr (fun z => by rw [(hsame z).1]) fun z _ => (hsame z).2
    · rw [← hz]
      exact zombieChild_setRet t.proc p p (-1)

/-- Init forks a child and waits; the child exits with status `7`; init wakes up and cannot copy
the status out. -/
def failedWaitRun : List ProcEvent :=
  [.schedule 0, .fork 0 1 true, .forkParent 0, .forkRun 0, .wait 0 true, .schedule 1, .exit 1 7,
    .schedule 0, .sleepWake 0, .wait 0 false]

/-- After that run the child is still there to be found. -/
theorem exit_wait_protocol_after_failed_wait :
    ∃ t : ProcTable, t.Reachable ∧ (t.proc 0).a0 = -1 ∧ zombies t.proc = {⟨1, 2, 7⟩} := by
  have hrun : (run step anyEvent failedWaitRun userinit).any
      (fun t => decide (t.exits = [⟨1, 2, 7⟩] ∧ t.reaps = [] ∧ (t.proc 0).a0 = -1)) = true := by
    decide +kernel
  obtain ⟨t, hr, hexits, hreaps, ha⟩ := exists_reaches_of_run hrun
  refine ⟨t, hr, ha, ?_⟩
  have h := (exit_wait_protocol t hr).2.1.1
  rw [hexits, hreaps] at h
  simpa using h.symm

end ProcTable

end Xv6
