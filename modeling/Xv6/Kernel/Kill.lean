import Xv6.Kernel.ExitWaitProof

/-!
# `kill` and the free slots

`kill` compares the pid of every slot, free or not, and `allocproc` does not reset `killed`; a free slot
has pid 0, and so has the idle process. What protects the free slots is their order. Init and the
idle process take the first two slots at boot and keep them, so that the scan of `kill(0)` stops at the
idle process.

**The scan.** The slots are looked at one by one under their locks, and between two of them any other
process may step. `Scans` is the process table with the scans in progress; what else a process does
while it is in `kill` is not restricted, which only adds runs.

Main result: `kill_spares_free`.
-/

open Function List Transition

namespace Xv6

open Procs

/-! ## The scan -/

/-- The process table, and for every process in `kill` the pid it looks for and the next slot. -/
structure Scans where
  table : ProcTable
  scan : ProcId → Option (ℤ × ℕ)

inductive ScanEvent
  | call (p : ProcId) (pid : ℤ)
  | next (p : ProcId)
  | other (e : ProcEvent)
  deriving DecidableEq, Repr

/-- Events of the table that are not part of `kill`, with one CPU. -/
def ProcEvent.isOther : ProcEvent → Bool
  | .kill .. => false
  | .allocIdleproc _ => false
  | _ => true

namespace Scans

def step (e : ScanEvent) (s : Scans) : Option Scans :=
  match e with
  | .call p pid =>
    if s.table.Free p ∧ s.scan p = none then
      some { s with scan := update s.scan p (some (pid, 0)) }
    else none
  | .next p => do
    let (pid, i) ← s.scan p
    if h : i < NPROC then
      let t ← s.table.step (.kill p pid ⟨i, h⟩)
      let found := (s.table.proc ⟨i, h⟩).pid = pid
      some ⟨t, update s.scan p (if found then none else some (pid, i + 1))⟩
    else
      let t ← s.table.step (.fail p)
      some ⟨t, update s.scan p none⟩
  | .other e =>
    if e.isOther then (s.table.step e).map fun t => { s with table := t } else none

/-- `userinit` has taken slot 0, and `alloc_idleproc` the next one. -/
def Reachable (s : Scans) : Prop :=
  ∃ t, ProcTable.userinit.step (.allocIdleproc 1) = some t ∧
    Reaches step anyEvent ⟨t, fun _ => none⟩ s

end Scans

/-! ## The free slots -/

/-- A free slot has pid 0 and is not killed, and the idle process is in slot 1. -/
structure Procs.Clean (procs : Procs) : Prop where
  free : ∀ q, (procs q).state = .unused → (procs q).pid = 0 ∧ (procs q).killed = false
  idle : (procs 1).state = .runnable ∧ (procs 1).pid = 0

namespace Procs

variable {procs : Procs} {p q : ProcId} {x : Proc}

variable (h : Clean procs)

include h

theorem Clean.update (hfree : x.state = .unused → x.pid = 0 ∧ x.killed = false)
    (hidle : p = 1 → x.state = .runnable ∧ x.pid = 0) : Clean (update procs p x) where
  free q hq := by
    by_cases hqp : q = p
    · subst hqp
      rw [update_self] at hq ⊢
      exact hfree hq
    · rw [update_of_ne hqp] at hq ⊢
      exact h.free q hq
  idle := by
    by_cases hp : p = 1
    · rw [hp, update_self]
      exact hidle hp
    · rw [update_of_ne (Ne.symm hp)]
      exact h.idle

theorem Clean.ne_idle (hp : (procs p).state ≠ .runnable) : p ≠ 1 := by
  rintro rfl
  exact hp h.idle.1

/-- A process that is not the idle one changes and does not become free. -/
theorem Clean.set (hp : p ≠ 1) (hx : x.state ≠ .unused) : Clean (Function.update procs p x) :=
  h.update (absurd · hx) (absurd · hp)

theorem Clean.freeproc (hp : p ≠ 1) : Clean (freeproc procs p) :=
  h.update (fun _ => ⟨rfl, rfl⟩) (absurd · hp)

theorem Clean.keep (hst : x.state = (procs p).state) (hpid : x.pid = (procs p).pid)
    (hk : x.killed = (procs p).killed) : Clean (Function.update procs p x) := by
  refine h.update (fun hx => ?_) fun he => ?_
  · rw [hpid, hk]
    exact h.free p (hst ▸ hx)
  · rw [hst, hpid, he]
    exact h.idle

theorem Clean.wakeup (me : ProcId) (chan : Chan) : Clean (wakeup procs me chan) where
  free q hq := by
    rw [wakeup_apply] at hq ⊢
    split_ifs at hq ⊢ with hc
    exact h.free q hq
  idle := by
    rw [wakeup_apply]
    split_ifs with hc
    · exact ⟨rfl, h.idle.2⟩
    · exact h.idle

theorem Clean.reparent (i p : ProcId) : Clean (reparent procs i p) := by
  unfold Procs.reparent
  generalize finRange NPROC = xs
  induction xs generalizing procs with
  | nil => exact h
  | cons x xs ih =>
    refine ih ?_
    unfold reparentOne
    split_ifs
    · refine Clean.wakeup ?_ p _
      exact h.keep rfl rfl rfl
    · exact h

end Procs

/-- What boot has set up and every run keeps. -/
structure ProcTable.Booted (t : ProcTable) : Prop where
  clean : t.proc.Clean
  init : t.initproc = 0
  idle : t.idle 1 = true

namespace ProcTable

variable {t t' : ProcTable} {e : ProcEvent} {p : ProcId}

theorem Booted.of_proc (h : t.Booted) (hinit : t'.initproc = t.initproc) (hidle : t'.idle = t.idle)
    (hc : t'.proc.Clean) : t'.Booted :=
  ⟨hc, hinit.trans h.init, (congrFun hidle 1).trans h.idle⟩

theorem Booted.ne_idle (h : t.Booted) (hp : (t.proc p).state = .running) : p ≠ 1 :=
  h.clean.ne_idle (by rw [hp]; decide)

theorem Booted.waitScan (h : t.Booted) (hp : (t.proc p).state = .running) (ok : Bool) :
    (t.waitScan p ok).Booted := by
  have hfail : (t.waitFail p).Booted := h.of_proc rfl rfl (h.clean.keep rfl rfl rfl)
  unfold ProcTable.waitScan
  split
  · next pp hz =>
    split_ifs
    · have hpp : pp ≠ 1 := h.clean.ne_idle (by rw [(zombieChild_spec hz).2]; decide)
      refine h.of_proc rfl rfl (Clean.freeproc ?_ hpp)
      exact h.clean.keep rfl rfl rfl
    · exact hfail
  · split_ifs
    · exact hfail
    · exact h.of_proc rfl rfl (h.clean.set (h.ne_idle hp) nofun)

theorem step_booted (hs : t.step e = some t') (he : e.isOther) (hi : t.Inv) (h : t.Booted) :
    t'.Booted := by
  have hc := h.clean
  cases e with
  | schedule p =>
    obtain ⟨⟨-, hp⟩, rfl⟩ := of_guard hs
    refine h.of_proc rfl rfl (hc.set ?_ (by simp))
    rintro rfl
    simp [h.idle] at hp
  | yield p =>
    obtain ⟨hr, rfl⟩ := of_guard hs
    exact h.of_proc rfl rfl (hc.set (h.ne_idle hr) (by simp))
  | sleep p chan =>
    obtain ⟨⟨hr, -⟩, rfl⟩ := of_guard hs
    exact h.of_proc rfl rfl (hc.set (h.ne_idle hr) (by simp))
  | sleepWake p =>
    obtain ⟨-, rfl⟩ := of_guard hs
    exact h.of_proc rfl rfl (hc.keep rfl rfl rfl)
  | wakeup p chan =>
    obtain ⟨-, rfl⟩ := of_guard hs
    exact h.of_proc rfl rfl (hc.wakeup p chan)
  | allocIdleproc i => contradiction
  | fork p i ok =>
    obtain ⟨⟨-, hu⟩, rfl⟩ := of_guard hs
    have hne : i ≠ 1 := hc.ne_idle (by rw [hu]; decide)
    have hused : Clean (update t.proc i { t.proc i with pid := t.nextpid, state := .used }) :=
      hc.set hne (by simp)
    cases ok with
    | true => exact h.of_proc rfl rfl (hused.keep rfl rfl rfl)
    | false => exact h.of_proc rfl rfl ((hused.freeproc hne).keep rfl rfl rfl)
  | forkParent p =>
    simp only [step] at hs
    split at hs
    · obtain ⟨-, rfl⟩ := of_guard hs
      exact h.of_proc rfl rfl (hc.keep rfl rfl rfl)
    · cases hs
  | forkRun p =>
    simp only [step] at hs
    split at hs
    · next np hd =>
      obtain ⟨-, rfl⟩ := of_guard hs
      have hne : np ≠ 1 := hc.ne_idle (by rw [(hi.forked p np hd).1]; decide)
      refine h.of_proc rfl rfl (Clean.keep ?_ rfl rfl rfl)
      exact hc.set hne (by simp)
    · cases hs
  | exit p status =>
    obtain ⟨⟨⟨hr, -⟩, -⟩, rfl⟩ := of_guard hs
    refine h.of_proc rfl rfl (Clean.set ?_ (h.ne_idle hr) (by simp))
    exact (hc.reparent t.initproc p).wakeup p _
  | wait p ok =>
    obtain ⟨⟨hr, -⟩, rfl⟩ := of_guard hs
    exact h.waitScan hr ok
  | kill p pid i => contradiction
  | setkilled p =>
    obtain ⟨⟨hr, -⟩, rfl⟩ := of_guard hs
    exact h.of_proc rfl rfl (hc.set (h.ne_idle hr) (by simp [hr]))
  | fail p =>
    obtain ⟨-, rfl⟩ := of_guard hs
    exact h.of_proc rfl rfl (hc.keep rfl rfl rfl)

end ProcTable

/-! ## Every run -/

namespace Scans

variable {s s' : Scans} {p : ProcId} {pid : ℤ}

structure Inv (s : Scans) : Prop where
  table : s.table.Inv
  booted : s.table.Booted
  /-- a scan for pid 0 is not past the idle process -/
  scan : ∀ p i, s.scan p = some (0, i) → i ≤ 1

/-- The slot with the pid of a scan is not free. -/
theorem Inv.not_unused (h : s.Inv) {i : ProcId} (hs : s.scan p = some (pid, i.1))
    (hpid : (s.table.proc i).pid = pid) : (s.table.proc i).state ≠ .unused := by
  intro hu
  rw [← hpid, (h.booted.clean.free i hu).1] at hs
  have hi : i.1 ≠ 1 := Fin.val_ne_of_ne (h.booted.clean.ne_idle (by rw [hu]; decide))
  have hle := h.scan p i hs
  have hi0 : i = 0 := Fin.ext (show i.1 = 0 by omega)
  have hlive := h.table.init_live
  rw [h.booted.init, ← hi0, hu] at hlive
  exact absurd hlive (by decide)

/-- What one step of a call of `kill` does. -/
theorem next_cases (hs : step (.next p) s = some s') : (s.table.proc p).state = .running ∧ ∃ pid,
      ((∃ i : ProcId, s.scan p = some (pid, i.1) ∧ (s.table.proc i).pid = pid ∧
        s' = ⟨{ s.table with proc := setRet (killAt s.table.proc pid i) p 0 },
          update s.scan p none⟩) ∨
      (∃ i : ProcId, s.scan p = some (pid, i.1) ∧ (s.table.proc i).pid ≠ pid ∧
        s' = ⟨s.table, update s.scan p (some (pid, i.1 + 1))⟩) ∨
      s' = ⟨{ s.table with proc := setRet s.table.proc p (-1) }, update s.scan p none⟩) := by
  simp only [step, Option.bind_eq_bind, Option.bind_eq_some_iff, Prod.exists] at hs
  obtain ⟨pid, i, hscan, hs⟩ := hs
  split at hs
  · next hi =>
    obtain ⟨t, ht, hs⟩ := Option.bind_eq_some_iff.mp hs
    obtain ⟨⟨hr, -⟩, rfl⟩ := of_guard ht
    refine ⟨hr, pid, ?_⟩
    by_cases hpid : (s.table.proc ⟨i, hi⟩).pid = pid
    · refine .inl ⟨⟨i, hi⟩, hscan, hpid, ?_⟩
      simpa [hpid] using hs.symm
    · refine .inr (.inl ⟨⟨i, hi⟩, hscan, hpid, ?_⟩)
      simpa [hpid, killAt] using hs.symm
  · obtain ⟨t, ht, hs⟩ := Option.bind_eq_some_iff.mp hs
    obtain ⟨⟨hr, -⟩, rfl⟩ := of_guard ht
    exact ⟨hr, pid, .inr (.inr (Option.some.inj hs).symm)⟩

theorem Inv.spares (h : s.Inv) (hs : step (.next p) s = some s') {q : ProcId}
    (hq : (s.table.proc q).state = .unused) : s'.table.proc q = s.table.proc q := by
  obtain ⟨hr, pid, ⟨i, hscan, hpid, rfl⟩ | ⟨i, -, -, rfl⟩ | rfl⟩ := next_cases hs
  all_goals
    have hqp : q ≠ p := by
      rintro rfl
      simp [hr] at hq
  · have hqi : q ≠ i := by
      rintro rfl
      exact h.not_unused hscan hpid hq
    simp [setRet, killAt, hpid, hqp, hqi]
  · rfl
  · simp [setRet, hqp]

theorem Inv.next (h : s.Inv) (hs : step (.next p) s = some s') : s'.Inv := by
  have hc := h.booted.clean
  have hnone : ∀ q i, update s.scan p none q = some (0, i) → i ≤ 1 := by
    intro q i hq
    by_cases hqp : q = p
    · simp [hqp] at hq
    · rw [update_of_ne hqp] at hq
      exact h.scan q i hq
  obtain ⟨hr, pid, ⟨i, hscan, hpid, rfl⟩ | ⟨i, hscan, hpid, rfl⟩ | rfl⟩ := next_cases hs
  · refine ⟨(h.table.kill pid i).setRet p 0, h.booted.of_proc rfl rfl ?_, hnone⟩
    refine Clean.keep ?_ rfl rfl rfl
    have hu := h.not_unused hscan hpid
    rw [killAt, if_pos hpid]
    refine hc.update (fun hx => ?_) fun hi => ?_
    · simp only at hx
      split_ifs at hx
      exact absurd hx hu
    · subst hi
      simp [hc.idle]
  · refine ⟨h.table, h.booted, fun q j hq => ?_⟩
    by_cases hqp : q = p
    · subst hqp
      simp only [update_self, Option.some.injEq, Prod.mk.injEq] at hq
      obtain ⟨rfl, rfl⟩ := hq
      -- slot 1 would have been found
      have hi : i.1 ≠ 1 := by
        intro hi
        obtain rfl : i = 1 := Fin.ext hi
        exact hpid hc.idle.2
      have hle := h.scan q i hscan
      omega
    · exact h.scan q j (update_of_ne hqp _ s.scan ▸ hq)
  · exact ⟨h.table.setRet p (-1), h.booted.of_proc rfl rfl (hc.keep rfl rfl rfl), hnone⟩

theorem step_inv {e : ScanEvent} (hs : step e s = some s') (h : s.Inv) : s'.Inv := by
  cases e with
  | call p pid =>
    obtain ⟨-, rfl⟩ := of_guard hs
    refine ⟨h.table, h.booted, fun q i hq => ?_⟩
    by_cases hqp : q = p
    · simp only [hqp, update_self, Option.some.injEq, Prod.mk.injEq] at hq
      omega
    · exact h.scan q i (update_of_ne hqp _ s.scan ▸ hq)
  | next p => exact h.next hs
  | other e =>
    simp only [step] at hs
    split_ifs at hs with he
    obtain ⟨t, ht, rfl⟩ := Option.map_eq_some_iff.mp hs
    exact ⟨ProcTable.step_inv ht h.table, ProcTable.step_booted ht he h.table h.booted, h.scan⟩

theorem Reachable.inv (h : s.Reachable) : s.Inv := by
  obtain ⟨t, ht, hr⟩ := h
  refine hr.invariant ⟨ProcTable.step_inv ht ProcTable.userinit_inv, ?_, nofun⟩
    fun _ _ _ hi _ hs => step_inv hs hi
  unfold ProcTable.step at ht
  obtain ⟨-, rfl⟩ := of_guard ht
  refine ⟨⟨fun q hq => ?_, by decide⟩, rfl, rfl⟩
  by_cases hq1 : q = 1
  · subst hq1
    simp at hq
  · by_cases hq0 : q = 0 <;> simp_all [ProcTable.userinit]

/-- **`kill` never marks a free slot.** In every reachable state a step of `kill`, for any pid, leaves
every free slot as it is; no free slot is marked as killed; and a process made by `fork` is not
killed. -/
theorem kill_spares_free (s : Scans) (h : s.Reachable) :
    (∀ p s', step (.next p) s = some s' → ∀ q, (s.table.proc q).state = .unused →
      s'.table.proc q = s.table.proc q) ∧
    (∀ q, (s.table.proc q).state = .unused → (s.table.proc q).killed = false) ∧
    (∀ p i s', step (.other (.fork p i true)) s = some s' →
      (s'.table.proc i).state = .used ∧ (s'.table.proc i).killed = false) := by
  have hi := h.inv
  refine ⟨fun p s' hs q hq => hi.spares hs hq, fun q hq => (hi.booted.clean.free q hq).2, ?_⟩
  intro p i s' hs
  simp only [step, ProcEvent.isOther, if_true] at hs
  obtain ⟨t, ht, rfl⟩ := Option.map_eq_some_iff.mp hs
  obtain ⟨⟨-, hu⟩, rfl⟩ := of_guard ht
  simp [ProcTable.forkAt, forkAt, (hi.booted.clean.free i hu).2]

/-- `kill(0)` by init: the scan passes init and marks the idle process, which is next. -/
theorem kill_spares_free_of_pid_zero : ∃ s : Scans, s.Reachable ∧ (s.table.proc 1).killed = true ∧
      (s.table.proc 2).state = .unused ∧ (s.table.proc 2).pid = 0 ∧
      (s.table.proc 2).killed = false := by
  obtain ⟨t, ht⟩ : ∃ t, ProcTable.userinit.step (.allocIdleproc 1) = some t := ⟨_, rfl⟩
  have hrun : (run step anyEvent [.other (.schedule 0), .call 0 0, .next 0, .next 0]
      ⟨t, fun _ => none⟩).any (fun s => decide ((s.table.proc 1).killed = true ∧
        (s.table.proc 2).state = .unused ∧ (s.table.proc 2).pid = 0)) = true := by
    cases ht
    decide +kernel
  obtain ⟨s, hr, hk, hu, hpid⟩ := exists_reaches_of_run hrun
  exact ⟨s, ⟨t, ht, hr⟩, hk, hu, hpid, (kill_spares_free s ⟨t, ht, hr⟩).2.1 2 hu⟩

end Scans

end Xv6
