import Xv6.Kernel.Machine

/-!
# Lock discipline

Every thread of the kernel keeps to a discipline that is visible in its program points: at each
of them it holds certain locks, and interrupts were or were not enabled before it took the
first of them. `Shape hs b c` says that code `c` may be executed when the CPU holds exactly the
locks `hs` and the base interrupt state is `b`; threads that are switched out are `Parked`.

`Disciplined` is kept by every step, and under it a step with locks and interrupts is a step of
the atomic machine (`step_atomic`): no `acquire` finds its lock taken, no `release` or `pop_off`
panics, and the critical sections act on the data as if they were indivisible.

Main results: `step_atomic`, `reachable_disciplined` and `interrupt_state_survives_switch`.
-/

open Option

namespace Xv6

open Guarded Sys

/-! ## Shapes of threads -/

/-- The interrupt state recorded at a call matches holding `hs` with base state `b`. -/
structure Snap.Matches (hs : List Lock) (b : Bool) (s : Snap) : Prop where
  noff : s.noff = hs.length
  sie : s.sie = (hs.isEmpty && b)
  intena : hs ≠ [] → s.intena = b

theorem Irq.Ok.snap {i : Irq} {hs : List Lock} {b : Bool} (h : i.Ok hs b) :
    i.snap.Matches hs b := ⟨h.noff, h.sie, h.intena⟩

/-- Locks that code outside `proc.c` may hold. -/
def ClientLocks (hs : List Lock) : Prop := ∀ l ∈ hs, l.isClient = true

/-- A lock that `sleep` may be called with. -/
def Sleepable (lk : Lock) : Prop := ∀ p, Lock.proc p ≠ lk

theorem ClientLocks.wakeFree {hs : List Lock} (h : ClientLocks hs) : Kernel.WakeFree hs :=
  ⟨fun p hp => by simpa [Lock.isClient] using h _ hp,
    fun hp => by simpa [Lock.isClient] using h _ hp⟩

theorem ClientLocks.sleepable {lk : Lock} (h : ClientLocks [lk]) : Sleepable lk := by
  intro p hp
  have := h lk (by simp)
  simp [← hp, Lock.isClient] at this

/-- `c` may be executed while holding exactly `hs`, with interrupts enabled below the first of
these locks iff `b`. Points that never return put no condition on what is below them. -/
def Shape : List Lock → Bool → List Point → Prop
  | _, _, [] => True
  | hs, b, pt :: c =>
    match pt with
    | .user => hs = [] ∧ b = true
    | .usertrap _ => hs = [] ∧ b = false ∧ Shape [] true c
    | .usertrapTail w => hs = [] ∧ (w = 2 → b = false) ∧ Shape [] true c
    | .usertrapRet w => hs = [] ∧ (w = 2 → b = false) ∧ Shape [] true c
    | .syscall => ClientLocks hs ∧ b = true ∧ Shape [] true c
    | .kcode => ClientLocks hs ∧ Shape [] b c
    | .forkret => hs = [] ∧ b = false ∧ Shape [] true c
    | .exit _ => hs = []
    | .exitTail _ => hs = []
    | .zombieExit => hs = []
    | .waitScan => hs = [.waitLock] ∧ Shape [] b c
    | .sleep _ lk => hs = [lk] ∧ Sleepable lk ∧ Shape [lk] b c
    | .sleepWake lk => hs = [] ∧ Shape [lk] b c
    | .sleepLock lk => hs = [] ∧ Shape [lk] b c
    | .yield => hs = [] ∧ b = false ∧ Shape [] false c
    | .schedule => hs = [] ∧ (ofYield c → b = false) ∧ Shape [] b c
    | .scheduleOff i => hs = [] ∧ b = i ∧ (ofYield c → b = false) ∧ Shape [] b c
    | .schedulePick i => hs = [] ∧ b = false ∧ (ofYield c → i = false) ∧ Shape [] i c
    | .swtch _ _ => False
    | .scheduleEnd i => hs = [] ∧ b = false ∧ Shape [] i c
    | .ret s => s.Matches hs b ∧ Shape hs b c
    | .kerneltrap _ => hs = [] ∧ b = false ∧ Shape [] true c
    | .kerneltrapRet _ => hs = [] ∧ b = false ∧ Shape [] true c
    | .idleMain => hs = []
    | _ => hs = [] ∧ Shape [] b c

/-- A thread that is switched out waits at the end of `schedule`, or has not started; a slot
that was never used has no thread. -/
inductive Parked : List Point → Prop
  | empty : Parked []
  | fresh : Parked [.forkret, .user]
  | switched {i c} : Shape [] i c → Parked (.scheduleEnd i :: c)

theorem Parked.shape {c : List Point} (h : Parked c) : Shape [] false c := by
  cases h with
  | empty => trivial
  | fresh => exact ⟨rfl, rfl, rfl, rfl⟩
  | switched h => exact ⟨rfl, rfl, h⟩

/-- With interrupts enabled no masked point is reached. -/
theorem Shape.not_masked {hs : List Lock} {c : List Point} (h : Shape hs true c)
    (hm : masked c = true) : hs ≠ [] := by
  induction c with
  | nil => simp [masked] at hm
  | cons pt c ih =>
    cases pt with
    | ret s => exact ih h.2 hm
    | schedule => exact absurd (h.2.1 hm) (by simp)
    | scheduleOff i => exact absurd (h.2.2.1 hm) (by simp)
    | schedulePick i | scheduleEnd i | kerneltrapRet w => exact absurd h.2.1 (by simp)
    | usertrapRet w => exact absurd (h.2.1 (by simpa [masked] using hm)) (by simp)
    | swtch n i => exact h.elim
    | _ => simp [masked] at hm

namespace Kernel

/-! ## The invariant -/

/-- The running thread, between two statements or about to switch to another thread. -/
inductive Mode (k : Kernel) : Prop
  | executing {hs b} :
      k.ctl.Ok hs b → Shape hs b k.data.here → k.data.cur = some k.data.run → Mode k
  | switching {next i c} :
      k.data.here = .swtch next i :: c → k.ctl.Ok [] false →
      Shape [] false (.schedulePick i :: c) → k.data.cur = some next → Mode k

/-- Every thread keeps to the discipline. -/
structure Disciplined (k : Kernel) : Prop where
  mode : Mode k
  parked : ∀ q, q ≠ k.data.run → Parked (k.data.code q)

/-- A step that keeps the discipline and is a step of the atomic machine. -/
def Sound (e : Event) (k k' : Kernel) : Prop := Disciplined k' ∧ k.data.Step e k'.data

/-- The running thread of a disciplined kernel is about to execute `c`. -/
structure At (k : Kernel) (hs : List Lock) (b : Bool) (c : List Point) : Prop where
  ok : k.ctl.Ok hs b
  shape : Shape hs b c
  here : k.data.here = c
  cur : k.data.cur = some k.data.run
  parked : ∀ q, q ≠ k.data.run → Parked (k.data.code q)

theorem Sect.elim {H H' : List Lock} {b : Bool} {f : Kernel → Option Kernel}
    {F : Sys → Option Sys} {k k1 : Kernel} (h : Sect H H' f F) (hk : k.ctl.Ok H b)
    (hf : f k = some k1) : ∃ i d, k1 = ⟨i, d⟩ ∧ Irq.Ok H' b i ∧ F k.data = some d :=
  ⟨k1.ctl, k1.data, rfl, Acts.elim (h b) hk hf⟩

/-- The same for a section after which the thread goes on with `c`. -/
theorem Sect.elim_goto {H H' : List Lock} {b : Bool} {f : Kernel → Option Kernel}
    {F : Sys → Option Sys} {k k' : Kernel} {c : List Point} (h : Sect H H' f F)
    (hk : k.ctl.Ok H b) (hf : (f k >>= fun k => some (k.goto c)) = some k') :
    ∃ i d, k' = ⟨i, d.goto c⟩ ∧ Irq.Ok H' b i ∧ F k.data = some d := by
  rw [bind_eq_bind, bind_eq_some_iff] at hf
  obtain ⟨k1, h1, h2⟩ := hf
  obtain ⟨i, d, rfl, hok, hd⟩ := h.elim hk h1
  cases h2
  exact ⟨i, d, rfl, hok, hd⟩

section

variable {k k' : Kernel} {hs H : List Lock} {b b' : Bool} {pt : Point} {c c' : List Point}
  {d : Sys} {i : Irq} {ok : Bool} {e : Event}

/-- The running thread continues with `c'`. -/
theorem disciplined_goto (hcur : d.cur = some d.run)
    (hparked : ∀ q, q ≠ d.run → Parked (d.code q)) (hok : Irq.Ok H b' i)
    (hsh : Shape H b' c') : Disciplined ⟨i, d.goto c'⟩ := by
  refine ⟨.executing hok ?_ hcur, fun q hq => ?_⟩
  · rw [here_goto]; exact hsh
  · have hqd : q ≠ d.run := hq
    rw [code_goto_of_ne hqd]
    exact hparked q hqd

theorem At.next (h : At k hs b c) (hf : Frame k.data d) (hok : Irq.Ok H b' i)
    (hsh : Shape H b' c') : Disciplined ⟨i, d.goto c'⟩ := by
  refine disciplined_goto (hf.cur.trans (h.cur.trans (congrArg some hf.run.symm)))
    (fun q hq => ?_) hok hsh
  rw [hf.code]
  exact h.parked q (hf.run ▸ hq)

/-- The running thread takes an edge of the control-flow graph. -/
theorem At.jump (h : At k hs b c) (hj : Jump e c c') (hq : Quiet k.data d)
    (hok : Irq.Ok H b' i) (hsh : Shape H b' c') : Sound e k ⟨i, d.goto c'⟩ :=
  ⟨h.next hq.toFrame hok hsh, .jump (h.here ▸ hj) hq⟩

/-! ## Traps -/

theorem usertrap_sound {t : Trap} (h : At k hs b (.usertrap t :: c))
    (hs' : usertrap k.data.run c k t = some k') : Sound (.exec ok) k k' := by
  obtain ⟨rfl, rfl, hc⟩ := h.shape
  have hdev : ∀ {t w k1}, At k [] false (.usertrap t :: c) → devintr t k = some (w, k1) →
      Sound (.exec ok) k (k1.goto (.usertrapTail w :: c)) := by
    intro t w k1 h hd
    obtain ⟨i, hok, he⟩ := devintr_sect t k h.ok
    rw [he, map_eq_some_iff] at hd
    obtain ⟨⟨w', d⟩, hd, heq⟩ := hd
    obtain ⟨rfl, rfl⟩ := Prod.mk.inj heq
    exact ⟨h.next (devintr_frame hd) hok ⟨rfl, fun _ => rfl, hc⟩, .usertrap h.here hd⟩
  cases t with
  | ecall =>
    simp only [usertrap, bind_eq_bind, bind_eq_some_iff] at hs'
    obtain ⟨k1, h1, h2⟩ := hs'
    obtain ⟨i, d, rfl, hok, hd⟩ := (killed_sect (by simp) _).elim h.ok h1
    cases hd
    split_ifs at h2
    · cases h2
      exact h.jump (.killedBefore c) (.refl _) hok rfl
    · cases h2
      exact h.jump (.ecall c) (.refl _) hok.intrOn ⟨by simp [ClientLocks], rfl, rfl, by simp, hc⟩
  | fault =>
    simp only [usertrap, bind_eq_bind, bind_eq_some_iff, some.injEq] at hs'
    obtain ⟨k1, h1, rfl⟩ := hs'
    obtain ⟨i, d, rfl, hok, hd⟩ := (setkilled_sect (by simp) _).elim h.ok h1
    cases hd
    exact h.jump (.fault c) (setKilled_quiet _ _) hok ⟨rfl, by simp, hc⟩
  | timer | device wakes =>
    simp only [usertrap, bind_eq_bind, bind_eq_some_iff, some.injEq] at hs'
    obtain ⟨⟨w, k1⟩, hd, rfl⟩ := hs'
    exact hdev h hd

theorem usertrapTail_sound {w : ℕ} (h : At k hs b (.usertrapTail w :: c))
    (hs' : usertrapTail k.data.run w c k = some k') : Sound (.exec ok) k k' := by
  obtain ⟨rfl, hw, hc⟩ := h.shape
  simp only [usertrapTail, bind_eq_bind, bind_eq_some_iff] at hs'
  obtain ⟨k1, h1, h2⟩ := hs'
  obtain ⟨i, d, rfl, hok, hd⟩ := (killed_sect (by simp) _).elim h.ok h1
  cases hd
  split_ifs at h2 with hkill htick
  · cases h2
    exact h.jump (.killedAfter c) (.refl _) hok rfl
  · subst htick
    obtain rfl := hw rfl
    rw [bind_eq_some_iff] at h2
    obtain ⟨k2, h2, h3⟩ := h2
    obtain ⟨i2, d2, rfl, hok2, hd2⟩ := (prioOnTick_sect (by simp)).elim hok h2
    have hf := rqOnTick_frame hd2
    have hret : Shape [] false (.usertrapRet 2 :: c) := ⟨rfl, fun _ => rfl, hc⟩
    have hyield : ∀ {i : Irq}, i.Ok [] false →
        Shape [] false (.yield :: .ret i.snap :: .usertrapRet 2 :: c) :=
      fun hi => ⟨rfl, rfl, hi.snap, hret⟩
    have hstate : (d2.proc k.data.run).state = (k.data.proc k.data.run).state := by
      simp only [rqOnTick, map_eq_some_iff] at hd2
      obtain ⟨rq, -, rfl⟩ := hd2
      rfl
    split_ifs at h3 with hrun hpend
    · cases h3
      exact ⟨h.next ⟨hf.code, hf.run, hf.cur, hf.idleproc, hf.initproc⟩ hok2 (hyield hok2),
        .usertrapYield h.here hd2 ⟨⟨rfl, rfl, rfl, rfl, rfl⟩, fun _ => rfl, rfl, rfl⟩⟩
    · rw [bind_eq_some_iff] at h3
      obtain ⟨k3, h3, h4⟩ := h3
      obtain ⟨i3, d3, rfl, hok3, hd3⟩ := (prioHighestNonempty_sect (by simp)).elim hok2 h3
      cases hd3
      split_ifs at h4 with hpre
      · cases h4
        exact ⟨h.next hf hok3 (hyield hok3), .usertrapYield h.here hd2 (.refl _)⟩
      · cases h4
        exact ⟨h.next hf hok3 hret, .usertrapStay h.here hd2 fun _ => by simpa using hpre⟩
    · cases h3
      exact ⟨h.next hf hok2 hret, .usertrapStay h.here hd2 fun hst =>
        absurd (hstate.trans hst) hrun⟩
  · cases h2
    exact h.jump (.noTick c htick) (.refl _) hok ⟨rfl, fun hw => absurd hw htick, hc⟩

theorem kerneltrap_sound {t : Trap} (h : At k hs b (.kerneltrap t :: c))
    (hs' : kerneltrap k.data.run t c k = some k') : Sound (.exec ok) k k' := by
  obtain ⟨rfl, rfl, hc⟩ := h.shape
  simp only [kerneltrap, bind_eq_bind, bind_eq_some_iff] at hs'
  obtain ⟨⟨w, k1⟩, hd, h2⟩ := hs'
  obtain ⟨i, hok, he⟩ := devintr_sect t k h.ok
  rw [he, map_eq_some_iff] at hd
  obtain ⟨⟨w', d⟩, hd, heq⟩ := hd
  obtain ⟨rfl, rfl⟩ := Prod.mk.inj heq
  have hf := devintr_frame hd
  have hret : ∀ w, Shape [] false (.kerneltrapRet w :: c) := fun w => ⟨rfl, rfl, hc⟩
  cases t with
  | ecall | fault => cases hd; simp at h2
  | device wakes =>
    obtain ⟨rfl, hwakes⟩ := devintr_device hd
    cases h2
    exact ⟨h.next hf hok (hret 1), .kerneltrapDevice h.here hwakes⟩
  | timer =>
    obtain ⟨rfl, hticks⟩ := devintr_timer hd
    simp only [if_neg (show (2 : ℕ) ≠ 0 by decide), if_true, bind_eq_some_iff] at h2
    obtain ⟨k2, h2, k3, h3, h4⟩ := h2
    obtain ⟨i2, d2, rfl, hok2, hd2⟩ := (prioOnTick_sect (by simp)).elim (k := ⟨i, d⟩) hok h2
    obtain ⟨i3, d3, rfl, hok3, hd3⟩ := (prioHighestNonempty_sect (by simp)).elim hok2 h3
    cases hd3
    have hf2 := hf.trans (rqOnTick_frame hd2)
    have htick : k.data.tick = some d2 := by rw [tick, hticks]; exact hd2
    split_ifs at h4 with hpre
    · cases h4
      exact ⟨h.next hf2 hok3 ⟨rfl, rfl, hok3.snap, hret 2⟩, .kerneltrapYield h.here htick hpre⟩
    · cases h4
      exact ⟨h.next hf2 hok3 (hret 2), .kerneltrapStay h.here htick (by simpa using hpre)⟩

/-! ## System calls of `proc.c` -/

/-- As `At.next`, after `allocproc` has written the first context of a slot. -/
theorem At.next_context {j : ProcId} (h : At k hs b c) (hf : Frame (k.data.writeContext j) d)
    (hok : Irq.Ok H b' i) (hsh : Shape H b' c') : Disciplined ⟨i, d.goto c'⟩ := by
  refine disciplined_goto (hf.cur.trans (h.cur.trans (congrArg some hf.run.symm)))
    (fun q hq => ?_) hok hsh
  rw [hf.code]
  by_cases hqj : q = j
  · subst hqj
    rw [show (k.data.writeContext q).code q = _ from Function.update_self ..]
    exact .fresh
  · rw [show (k.data.writeContext j).code q = _ from Function.update_of_ne hqj _ _]
    exact h.parked q (hf.run ▸ hq)

theorem fork_sound {n : ℕ} (h : At k hs b (.fork n :: c))
    (hs' : fork k.data.run n ok c k = some k') : Sound (.exec ok) k k' := by
  obtain ⟨rfl, hc⟩ := h.shape
  by_cases hn : n < NPROC
  · rw [fork, dif_pos hn, bind_eq_bind, bind_eq_some_iff] at hs'
    obtain ⟨k1, h1, h2⟩ := hs'
    obtain ⟨i, d, rfl, hok, hd⟩ := (forkAt_sect _ ok).elim h.ok h1
    cases hd
    split_ifs at h2 with hfree hmem
    · subst hmem
      cases h2
      exact ⟨h.next_context (forkAt_frame hfree) hok ⟨rfl, hc⟩, .forkAlloc h.here hfree⟩
    · obtain rfl : ok = false := by simpa using hmem
      cases h2
      have hq := setRet_quiet (k.data.forkAt ⟨n, hn⟩ false) k.data.run (-1)
      exact ⟨h.next (forkAt_undo_frame.trans hq.toFrame) hok hc, .forkUndo h.here hfree hq⟩
    · cases h2
      have hsame : k.data.forkAt ⟨n, hn⟩ ok = k.data := if_neg hfree
      rw [hsame]
      exact h.jump (.forkNext c) (.refl _) hok ⟨rfl, hc⟩
  · rw [fork, dif_neg hn] at hs'
    cases hs'
    exact h.jump (.forkFull c) (setRet_quiet _ _ _) h.ok hc

theorem kill_sound {pid : ℤ} {n : ℕ} (h : At k hs b (.kill pid n :: c))
    (hs' : kill k.data.run pid n c k = some k') : Sound (.exec ok) k k' := by
  obtain ⟨rfl, hc⟩ := h.shape
  by_cases hn : n < NPROC
  · rw [kill, dif_pos hn, bind_eq_bind, bind_eq_some_iff] at hs'
    obtain ⟨k1, h1, h2⟩ := hs'
    obtain ⟨i, d, rfl, hok, hd⟩ := (killAt_sect ⟨by simp, by simp⟩ pid _).elim h.ok h1
    split_ifs at h2 with hpid
    · cases h2
      have hq := setRet_quiet d k.data.run 0
      exact ⟨h.next ((killAt_frame hd).trans hq.toFrame) hok hc, .kill h.here hd hq⟩
    · cases h2
      have hsame : k.data = d := by simpa [Sys.killAt, hpid] using hd
      subst hsame
      exact h.jump (.killNext c) (.refl _) hok ⟨rfl, hc⟩
  · rw [kill, dif_neg hn] at hs'
    cases hs'
    exact h.jump (.killNone c) (setRet_quiet _ _ _) h.ok hc

theorem waitScan_sound (h : At k hs b (.waitScan :: c))
    (hs' : waitScan k.data.run ok c k = some k') : Sound (.exec ok) k k' := by
  obtain ⟨rfl, hc⟩ := h.shape
  simp only [waitScan, bind_eq_bind, bind_eq_some_iff] at hs'
  obtain ⟨k1, h1, h2⟩ := hs'
  obtain ⟨i, d, rfl, hok, hd⟩ := (scan_sect _).elim h.ok h1
  cases hd
  have hfail : ∀ {i : Irq}, i.Ok [.waitLock] b → (do
      let k ← waitFail k.data.run ⟨i, k.data⟩
      some (k.goto c)) = some k' → Sound (.exec ok) k k' := by
    intro i hok hf
    obtain ⟨i2, d2, rfl, hok2, hd2⟩ := (waitFail_sect _).elim_goto hok hf
    cases hd2
    exact h.jump (.waitDone c) (setRet_quiet _ _ _) hok2 hc
  split at h2
  · next pp hpp =>
    obtain ⟨i2, d2, rfl, hok2, hd2⟩ := (reap_sect pp _ ok).elim_goto hok h2
    cases hd2
    cases ok with
    | true =>
      exact ⟨h.next ⟨rfl, rfl, rfl, rfl, rfl⟩ hok2 hc, .reap h.here hpp⟩
    | false => exact h.jump (.waitDone c) (setRet_quiet _ _ _) hok2 hc
  · split_ifs at h2 with hkids
    · rw [bind_eq_some_iff] at h2
      obtain ⟨k2, h2, h3⟩ := h2
      obtain ⟨i2, d2, rfl, hok2, hd2⟩ := (killed_sect (by simp) _).elim hok h2
      cases hd2
      split_ifs at h3
      · exact hfail hok2 h3
      · cases h3
        exact h.jump (.waitSleep c) (.refl _) hok2 ⟨rfl, by simp [Sleepable], hok2.snap, rfl, hc⟩
    · exact hfail hok h2

/-! ## Giving up the CPU -/

/-- `schedule`'s loop changes nothing but the queue, the picked process and `c->proc`. -/
theorem pickLoop_frame {n : ℕ} {d d' : Sys} (h : d.pickLoop n = some d') :
    d'.code = d.code ∧ d'.run = d.run := by
  induction n generalizing d with
  | zero => cases h
  | succ n ih =>
    simp only [Sys.pickLoop, bind_eq_bind, bind_eq_some_iff] at h
    obtain ⟨⟨next, rq⟩, -, h⟩ := h
    cases next with
    | none => obtain rfl := some.inj h; exact ⟨rfl, rfl⟩
    | some q =>
      simp only at h
      split_ifs at h
      · obtain rfl := some.inj h; exact ⟨rfl, rfl⟩
      · obtain rfl := some.inj h; exact ⟨rfl, rfl⟩
      · exact ih (d := { d with rq, pickedAgain := true }) h

theorem schedulePick_sound {i : Bool} (h : At k hs b (.schedulePick i :: c))
    (hs' : exec ok k.data.run c k (.schedulePick i) = some k') : Sound (.exec ok) k k' := by
  obtain ⟨rfl, rfl, hi, hc⟩ := h.shape
  simp only [exec, bind_eq_bind, bind_eq_some_iff] at hs'
  obtain ⟨k1, h1, next, hnext, h2⟩ := hs'
  obtain ⟨i1, d1, rfl, hok, hd⟩ := (pickLoop_sect (NPROC + 1)).elim h.ok h1
  obtain ⟨hcode, hrun⟩ := pickLoop_frame hd
  have hparked : ∀ q, q ≠ d1.run → Parked (d1.code q) := fun q hq => by
    rw [hcode]; exact h.parked q (hrun ▸ hq)
  by_cases hself : d1.run = next
  · simp only [hself, if_true, some.injEq] at h2
    subst h2
    have hcur : d1.cur = some d1.run := hnext.trans (congrArg some hself.symm)
    exact ⟨disciplined_goto hcur hparked hok ⟨rfl, rfl, hc⟩, .pickSelf h.here hd (hrun ▸ hcur)⟩
  · simp only [hself, if_false, some.injEq] at h2
    subst h2
    refine ⟨⟨.switching (here_goto d1 _) hok ⟨rfl, rfl, hi, hc⟩ hnext, fun q hq => ?_⟩,
      .pickOther h.here hd hnext (hrun ▸ Ne.symm hself)⟩
    have hqd : q ≠ d1.run := hq
    exact (code_goto_of_ne hqd).symm ▸ hparked q hqd

/-! ## One statement -/

theorem exec_sound (h : At k hs b (pt :: c)) (hs' : exec ok k.data.run c k pt = some k') :
    Sound (.exec ok) k k' := by
  have hsh := h.shape
  cases pt with
  | usertrap t => exact usertrap_sound h hs'
  | usertrapTail w => exact usertrapTail_sound h hs'
  | kerneltrap t => exact kerneltrap_sound h hs'
  | fork n => exact fork_sound h hs'
  | kill pid n => exact kill_sound h hs'
  | waitScan => exact waitScan_sound h hs'
  | schedulePick i => exact schedulePick_sound h hs'
  | user | syscall | kcode | zombieExit => cases hs'
  | swtch n i => exact hsh.elim
  | usertrapRet w =>
    obtain ⟨rfl, -, hc⟩ := hsh
    cases hs'
    exact h.jump (.usertrapRet c) (.refl _) h.ok.intrOn hc
  | kerneltrapRet w =>
    obtain ⟨rfl, -, hc⟩ := hsh
    cases hs'
    exact h.jump (.kerneltrapRet c) (.refl _) h.ok.intrOn hc
  | forkret =>
    obtain ⟨rfl, rfl, hc⟩ := hsh
    simp only [exec] at hs'
    split_ifs at hs'
    · cases hs'
      exact h.jump (.forkretFirst c) (.refl _) h.ok ⟨by simp [ClientLocks], rfl, rfl, by simp, hc⟩
    · cases hs'
      exact h.jump (.forkret c) (.refl _) h.ok ⟨rfl, by simp, hc⟩
  | forkretDone =>
    obtain ⟨rfl, hc⟩ := hsh
    cases hs'
    exact h.jump (.forkretDone c) ⟨⟨rfl, rfl, rfl, rfl, rfl⟩, fun _ => rfl, rfl, rfl⟩ h.ok hc
  | forkParent np =>
    obtain ⟨rfl, hc⟩ := hsh
    obtain ⟨i, d, rfl, hok, hd⟩ := (forkParent_sect _ _).elim_goto h.ok hs'
    cases hd
    exact h.jump (.forkParent c) (setParent_quiet _ _ _) hok ⟨rfl, hc⟩
  | forkRun np =>
    obtain ⟨rfl, hc⟩ := hsh
    simp only [exec, bind_eq_bind, bind_eq_some_iff, some.injEq] at hs'
    obtain ⟨k1, h1, rfl⟩ := hs'
    obtain ⟨i, d, rfl, hok, hd⟩ := (forkRun_sect _ _).elim h.ok h1
    have hq := setRet_quiet d k.data.run (d.proc np).pid
    exact ⟨h.next ((forkRun_frame hd).trans hq.toFrame) hok hc, .forkRun h.here hd hq⟩
  | exit status =>
    obtain rfl := hsh
    simp only [exec] at hs'
    split_ifs at hs'
    cases hs'
    exact h.jump (.exit c) (.refl _) h.ok ⟨by simp [ClientLocks], rfl⟩
  | exitTail status =>
    obtain rfl := hsh
    obtain ⟨i, d, rfl, hok, hd⟩ := (exitBlock_sect status _).elim_goto h.ok hs'
    exact ⟨h.next (exitBlock_frame hd) hok ⟨rfl, by simp [ofYield], rfl⟩, .exit h.here hd⟩
  | wait =>
    obtain ⟨rfl, hc⟩ := hsh
    obtain ⟨i, d, rfl, hok, hd⟩ := (acquire_sect (by simp)).elim_goto h.ok hs'
    cases hd
    exact h.jump (.wait c) (.refl _) hok ⟨rfl, hc⟩
  | sleep chan lk =>
    obtain ⟨rfl, hlk, hc⟩ := hsh
    obtain ⟨i, d, rfl, hok, hd⟩ := (sleepBlock_sect (hlk _) chan).elim_goto h.ok hs'
    exact ⟨h.next (sleepBlock_frame hd) hok ⟨rfl, by simp [ofYield], rfl, hc⟩, .sleep h.here hd⟩
  | sleepWake lk =>
    obtain ⟨rfl, hc⟩ := hsh
    obtain ⟨i, d, rfl, hok, hd⟩ := (sleepWake_sect (by simp) _).elim_goto h.ok hs'
    cases hd
    exact h.jump (.sleepWake c) (setChan_quiet _ _ _) hok ⟨rfl, hc⟩
  | sleepLock lk =>
    obtain ⟨rfl, hc⟩ := hsh
    obtain ⟨i, d, rfl, hok, hd⟩ := (acquire_sect (by simp)).elim_goto h.ok hs'
    cases hd
    exact h.jump (.sleepLock c) (.refl _) hok hc
  | yield =>
    obtain ⟨rfl, rfl, hc⟩ := hsh
    obtain ⟨i, d, rfl, hok, hd⟩ := (yieldBlock_sect ⟨by simp, by simp⟩ _).elim_goto h.ok hs'
    exact ⟨h.next (makeRunnable_frame hd) hok ⟨rfl, fun _ => rfl, hc⟩, .yield h.here hd⟩
  | schedule =>
    obtain ⟨rfl, hy, hc⟩ := hsh
    cases hs'
    have hsie : k.ctl.sie = b := h.ok.sie_nil
    exact h.jump (.schedule c) (.refl _) h.ok ⟨rfl, hsie.symm, hy, hc⟩
  | scheduleOff i =>
    obtain ⟨rfl, rfl, hy, hc⟩ := hsh
    cases hs'
    exact h.jump (.scheduleOff c) (.refl _) h.ok.intrOff ⟨rfl, rfl, hy, hc⟩
  | scheduleEnd i =>
    obtain ⟨rfl, rfl, hc⟩ := hsh
    cases hs'
    cases i with
    | true => exact h.jump (.scheduleEnd c) (.refl _) h.ok.intrOn hc
    | false => exact h.jump (.scheduleEnd c) (.refl _) h.ok hc
  | ret s =>
    cases hs'
    exact h.jump (.ret c) (.refl _) h.ok hsh.2
  | idleMain =>
    obtain rfl := hsh
    cases hs'
    exact h.jump (.idleMain c) (.refl _) h.ok.intrOn ⟨rfl, by simp [ofYield], rfl⟩

/-! ## Kernel code outside the model -/

/-- The shape of code outside the model: its locks, and what is below it. -/
theorem At.outside (h : At k hs b (pt :: c)) (hpt : Outside pt) :
    ClientLocks hs ∧ Shape [] b c ∧ ∀ H, ClientLocks H → Shape H b (pt :: c) := by
  obtain rfl | rfl := hpt
  · obtain ⟨hcl, rfl, hc⟩ := h.shape
    exact ⟨hcl, hc, fun H hH => ⟨hH, rfl, hc⟩⟩
  · obtain ⟨hcl, hc⟩ := h.shape
    exact ⟨hcl, hc, fun H hH => ⟨hH, hc⟩⟩

theorem At.stay (h : At k hs b (pt :: c)) (hok : Irq.Ok H b i) (hsh : Shape H b (pt :: c)) :
    Disciplined ⟨i, k.data⟩ :=
  ⟨.executing hok (h.here ▸ hsh) h.cur, h.parked⟩

theorem call_sound {x : Point} (h : At k hs b (pt :: c))
    (hs' : (if pt = .syscall ∧ k.ctl.held = [] then some (k.goto (x :: pt :: c)) else none) =
      some k') (hj : Jump e (.syscall :: c) (x :: .syscall :: c))
    (hx : Shape [] b (.syscall :: c) → Shape [] b (x :: .syscall :: c)) : Sound e k k' := by
  split_ifs at hs' with hheld
  obtain ⟨rfl, hheld⟩ := hheld
  cases hs'
  obtain rfl : hs = [] := h.ok.held.symm.trans hheld
  exact h.jump hj (.refl _) h.ok (hx h.shape)

theorem client_sound (h : At k hs b (pt :: c)) (hpt : Outside pt)
    (hs' : client k pt c e = some k') : Sound e k k' := by
  obtain ⟨hcl, hc, hshape⟩ := h.outside hpt
  cases e with
  | acquire l =>
    simp only [client] at hs'
    split_ifs at hs' with hl
    have hfree : l ∉ hs := by
      intro hmem
      simp [acquire, onCtl, Irq.acquire, Irq.pushOff, h.ok.held, hmem] at hs'
    obtain ⟨i, d, rfl, hok, hd⟩ := (acquire_sect hfree).elim h.ok hs'
    cases hd
    exact ⟨h.stay hok (hshape _ (List.forall_mem_cons.2 ⟨hl, hcl⟩)), .acquire⟩
  | release l =>
    simp only [client] at hs'
    split_ifs at hs' with hl
    have hmem : l ∈ hs := by
      by_contra hn
      simp [release, onCtl, Irq.release, h.ok.held, hn] at hs'
    obtain ⟨i, d, rfl, hok, hd⟩ := (release_sect hmem).elim h.ok hs'
    cases hd
    exact ⟨h.stay hok (hshape _ fun l' hl' => hcl l' (List.mem_of_mem_erase hl')), .release⟩
  | sleep chan lk =>
    simp only [client] at hs'
    split_ifs at hs' with hheld
    cases hs'
    obtain rfl : hs = [lk] := h.ok.held.symm.trans hheld
    exact h.jump (.callSleep c hpt) (.refl _) h.ok ⟨rfl, hcl.sleepable, h.ok.snap, hshape _ hcl⟩
  | wakeup chan =>
    simp only [client] at hs'
    split_ifs at hs' with hheld
    obtain ⟨i, d, rfl, hok, hd⟩ := (wakeup_sect hcl.wakeFree chan).elim h.ok hs'
    have hf := wakeup_frame hd
    refine ⟨⟨.executing hok ?_ ?_, fun q hq => ?_⟩, .wakeup h.here hpt hd⟩
    · rw [show Sys.here (Guarded.data (⟨i, d⟩ : Kernel)) = _ from hf.here, h.here]
      exact hshape _ hcl
    · exact hf.cur.trans (h.cur.trans (congrArg some hf.run.symm))
    · rw [show (⟨i, d⟩ : Kernel).data.code q = _ from congrFun hf.code q]
      exact h.parked q (hf.run ▸ hq)
  | leave =>
    simp only [client] at hs'
    split_ifs at hs' with hheld
    cases hs'
    obtain rfl : hs = [] := h.ok.held.symm.trans hheld
    exact h.jump (.leave c hpt) (.refl _) h.ok hc
  | fork => exact call_sound h hs' (.callFork c) fun hc => ⟨rfl, hc⟩
  | exit status => exact call_sound h hs' (.callExit c) fun _ => rfl
  | wait => exact call_sound h hs' (.callWait c) fun hc => ⟨rfl, hc⟩
  | kill pid => exact call_sound h hs' (.callKill c) fun hc => ⟨rfl, hc⟩
  | exec ok | interrupt t | trap t => cases hs'

/-! ## One step -/

theorem enterTrap_sound {t : Trap} (h : At k [] true c) (he : Enters e t) :
    Sound e k (enterTrap t k) := by
  have huser : ∀ c, At k [] true (.user :: c) →
      Sound e k ⟨k.ctl.intrOff, k.data.goto (.usertrap t :: .user :: c)⟩ := fun c h =>
    h.jump (.userTrap c he) (.refl _) h.ok.intrOff ⟨rfl, rfl, h.shape⟩
  have hkernel : Sound e k ⟨k.ctl.intrOff, k.data.goto (.kerneltrap t :: c)⟩ :=
    h.jump (.kernelTrap he (Bool.eq_false_iff.2 fun hm => h.shape.not_masked hm rfl)) (.refl _)
      h.ok.intrOff ⟨rfl, rfl, h.shape⟩
  unfold enterTrap
  rw [h.here]
  split
  · exact huser _ h
  · exact hkernel

/-- **A step of the kernel is a step of the atomic machine**, and keeps the discipline. -/
theorem step_atomic (h : Disciplined k) (hs' : step e k = some k') :
    Disciplined k' ∧ k.data.Step e k'.data := by
  obtain ⟨hmode, hparked⟩ := h
  cases hmode with
  | @executing hs b hok hsh hcur =>
    have hat : ∀ {c}, k.data.here = c → At k hs b c := fun hc =>
      ⟨hok, hc ▸ hsh, hc, hcur, hparked⟩
    unfold step at hs'
    split at hs'
    · split_ifs at hs' with hint
      cases hs'
      obtain ⟨rfl, rfl⟩ := hok.of_sie hint.1
      exact enterTrap_sound (hat rfl) (.inl rfl)
    · next c hhere =>
      split_ifs at hs' with hint
      cases hs'
      obtain ⟨rfl, rfl⟩ := (hat hhere).shape
      exact enterTrap_sound (hat hhere) (.inr rfl)
    · next pt c hhere =>
      rw [hcur, bind_eq_bind, bind_some] at hs'
      exact exec_sound (hat hhere) hs'
    · next c _ _ _ hhere => exact client_sound (hat hhere) (.inl rfl) hs'
    · next c _ _ _ hhere => exact client_sound (hat hhere) (.inr rfl) hs'
    · cases hs'
  | @switching next i c hhere hok hsh hcur =>
    -- interrupts are off, so the only event is the switch itself
    cases e with
    | exec ok =>
      simp only [step, hhere, hcur, bind_eq_bind, bind_some, exec, some.injEq] at hs'
      subst hs'
      have hall : ∀ q, Parked ((k.data.goto (.scheduleEnd i :: c)).code q) := fun q => by
        by_cases hq : q = k.data.run
        · subst hq
          rw [show (k.data.goto (.scheduleEnd i :: c)).code k.data.run = _ from here_goto k.data _]
          exact .switched hsh.2.2.2
        · rw [code_goto_of_ne hq]
          exact hparked q hq
      exact ⟨⟨.executing hok (hall next).shape hcur, fun q _ => hall q⟩, .swtch hhere⟩
    | interrupt t => simp [step, hok.sie_nil] at hs'
    | _ => simp [step, hhere] at hs'

/-! ## Runs -/

theorem boot_disciplined (h : boot = some k) : Disciplined k := by
  have hcpu : boot.map (fun k => (k.ctl, k.data.run, k.data.cur, k.data.here)) =
      some (⟨0, false, false, []⟩, 1, some 1, [.idleMain]) := by decide +kernel
  have hcode : boot.all (fun k => decide (∀ q, q ≠ k.data.run →
      k.data.code q = [] ∨ k.data.code q = [.forkret, .user])) = true := by decide +kernel
  rw [h, map_some, some.injEq, Prod.mk.injEq, Prod.mk.injEq, Prod.mk.injEq] at hcpu
  obtain ⟨hctl, hrun, hcur, hhere⟩ := hcpu
  rw [h, all_some, decide_eq_true_eq] at hcode
  have hok : Irq.Ok [] false k.ctl := hctl ▸ ⟨rfl, rfl, rfl, fun h => absurd rfl h⟩
  refine ⟨.executing hok ?_ (hcur.trans (congrArg some hrun.symm)), fun q hq => ?_⟩
  · rw [hhere]; exact rfl
  · rcases hcode q hq with he | he <;> rw [he]
    exacts [.empty, .fresh]

/-- **Every reachable state keeps the discipline.** -/
theorem reachable_disciplined {good : Event → Kernel → Prop} (h : ReachableBy good k) :
    Disciplined k := by
  obtain ⟨k0, hboot, hr⟩ := h
  exact hr.invariant (boot_disciplined hboot) fun _ _ _ ht _ hs => (step_atomic ht hs).1

/-- **The interrupt state survives direct process-to-process switching.** `swtch` is executed
with no spinlock held and `noff = 0`; and when `sleep` or `yield` returns, `noff`, the
interrupt-enable bit and, if `noff > 0`, the recorded `intena` are as they were at the call. -/
theorem interrupt_state_survives_switch (k : Kernel) (h : Reachable k) :
    (∀ next i c, k.data.here = .swtch next i :: c → k.ctl.noff = 0 ∧ k.ctl.held = []) ∧
    (∀ s c, k.data.here = .ret s :: c →
      k.ctl.noff = s.noff ∧ (0 < k.ctl.noff → k.ctl.intena = s.intena) ∧ k.ctl.sie = s.sie) := by
  cases (reachable_disciplined h).mode with
  | @executing hs b hok hsh hcur =>
    refine ⟨fun next i c hhere => ?_, fun s c hhere => ?_⟩
    · rw [hhere] at hsh
      exact hsh.elim
    · rw [hhere] at hsh
      obtain ⟨hm, -⟩ := hsh
      refine ⟨hok.noff.trans hm.noff.symm, fun hpos => ?_, hok.sie.trans hm.sie.symm⟩
      have hne : hs ≠ [] := List.length_pos_iff.1 (hok.noff ▸ hpos)
      rw [hok.intena hne, hm.intena hne]
  | switching hhere hok hsh hcur =>
    refine ⟨fun _ _ _ _ => ⟨hok.noff, hok.held⟩, fun s c hret => ?_⟩
    rw [hhere] at hret
    cases hret

/-- The idle process, the first to run, switches to the first user process. -/
theorem interrupt_state_survives_first_switch :
    ∃ k, Reachable k ∧ k.data.here = [.swtch 0 true, .idleMain] ∧ k.ctl.noff = 0 ∧
      k.ctl.held = [] := by
  have hrun : (bootRun Transition.anyEvent (List.replicate 4 (.exec true))).any
      (fun k => decide (k.data.here = [.swtch 0 true, .idleMain])) = true := by decide +kernel
  obtain ⟨k, hk, hhere⟩ := reachable_of_run hrun
  exact ⟨k, hk, hhere, (interrupt_state_survives_switch k hk).1 _ _ _ hhere⟩

end

end Kernel

end Xv6
