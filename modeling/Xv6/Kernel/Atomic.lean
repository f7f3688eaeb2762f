import Xv6.Kernel.Step

/-!
# Critical sections as functions on the data

What the functions of `Xv6.Kernel.Functions` do to the data when their locks are free: the same
functions with `acquire` and `release` left out (in the namespace `Sys`), and for each a lemma
that the version with locks acts as the version without them, and leaves the CPU holding the
locks it should (`Sect H H' f F`: from holding `H` to holding `H'`).

On one CPU this is all there is to mutual exclusion: a lock is free whenever it is asked for,
because whoever holds one runs with interrupts disabled until it is released.
-/

open Option

namespace Xv6

open Guarded

/-! ## The functions without their locks -/

namespace Sys

variable (d : Sys)

def prioEnqueue (p : ProcId) : Option Sys := do
  let d ← d.rqEnqueue p
  some (d.notePreempt p)

def makeRunnable (p : ProcId) : Option Sys := (d.markRunnable p).prioEnqueue p

def wakeOne (chan : Chan) (d : Sys) (p : ProcId) : Option Sys :=
  if d.cur ≠ some p then
    if (d.proc p).state = .sleeping ∧ (d.proc p).chan = chan then d.makeRunnable p else some d
  else some d

def wakeup (chan : Chan) : Option Sys := (List.finRange NPROC).foldlM (wakeOne chan) d

def setChan (p : ProcId) (chan : Chan) : Sys := d.modProc p fun x => { x with chan := chan }

def dequeueRunnable (p : ProcId) : Option Sys :=
  if (d.proc p).state = .runnable then d.rqDequeue p else some d

def sleepBlock (chan : Chan) (p : ProcId) : Option Sys := do
  let d ← (d.setChan p chan).dequeueRunnable p
  some (d.setState p .sleeping)

def setKilled (p : ProcId) : Sys := d.modProc p fun x => { x with killed := true }

def killAt (pid : ℤ) (i : ProcId) : Option Sys :=
  if (d.proc i).pid = pid then
    let d := d.setKilled i
    if (d.proc i).state = .sleeping then d.makeRunnable i else some d
  else some d

def forkAt (i : ProcId) (ok : Bool) : Sys :=
  if (d.proc i).state = .unused then
    let d := (d.allocpid i).allocFields i
    if ok then d.newContext i else d.freeproc i
  else d

def setParent (np : ProcId) (p : Option ProcId) : Sys :=
  d.modProc np fun x => { x with parent := p }

/-- `np->state = RUNNABLE; np->prio = p->prio; np->wait_ticks = 0;` -/
def markChild (np p : ProcId) : Sys :=
  { d.setState np .runnable with rq := (d.rq.setPrio np (d.rq.prio p)).setWait np 0 }

def forkRun (np p : ProcId) : Option Sys := (d.markChild np p).prioEnqueue np

def reparentOne (p : ProcId) (d : Sys) (pp : ProcId) : Option Sys :=
  if (d.proc pp).parent = some p then (d.setParent pp d.initproc).wakeup (.ofProc d.initproc)
  else some d

def reparent (p : ProcId) : Option Sys := (List.finRange NPROC).foldlM (reparentOne p) d

def markZombie (status : ℤ) (p : ProcId) : Sys :=
  d.modProc p fun x => { x with xstate := status, state := .zombie }

def exitBlock (status : ℤ) (p : ProcId) : Option Sys := do
  let d ← d.reparent p
  let d ← d.wakeup (.ofProc (d.proc p).parent)
  some (d.markZombie status p)

def setRet (p : ProcId) (v : ℤ) : Sys := d.modProc p fun x => { x with a0 := v }

def reap (pp p : ProcId) (ok : Bool) : Sys :=
  if ok then (d.setRet p (d.proc pp).pid).freeproc pp else d.setRet p (-1)

def pickLoop : ℕ → Sys → Option Sys
  | 0, _ => none
  | n + 1, d => do
    let (next, rq) ← d.rq.prioPickNext
    let d := { d with rq }
    match next with
    | none => some { d with cur := d.idleproc }
    | some q =>
      if d.idleproc = some q then some { d with cur := some q }
      else if (d.proc q).state = .runnable then some (d.pick q)
      else pickLoop n { d with pickedAgain := true }

/-- The wakeups of a device interrupt handler. -/
def device (wakes : List (ℕ × Chan)) : Option Sys := wakes.foldlM (fun d w => d.wakeup w.2) d

def devintr : Trap → Option (ℕ × Sys)
  | .timer => do some (2, ← d.wakeup .ticks)
  | .device wakes => do some (1, ← d.device wakes)
  | _ => some (0, d)

end Sys

/-! ## Sections -/

namespace Kernel

/-- From holding `H` to holding `H'`, with the effect `F` on the data. -/
def Sect (H H' : List Lock) (f : Kernel → Option Kernel) (F : Sys → Option Sys) : Prop :=
  ∀ b, Acts (Irq.Ok H b) (Irq.Ok H' b) f F

variable {H : List Lock} {l : Lock} {body : Kernel → Option Kernel} {F : Sys → Option Sys}

theorem acquire_sect (hl : l ∉ H) : Sect H (l :: H) (acquire l) some :=
  fun _ => acts_onCtl fun _ hc => Irq.acquire_ok hc hl

theorem release_sect (hl : l ∈ H) : Sect H (H.erase l) (release l) some :=
  fun _ => acts_onCtl fun _ hc => Irq.release_ok hc hl

theorem withLock_sect (hl : l ∉ H) (hb : Sect (l :: H) (l :: H) body F) :
    Sect H H (withLock l body) F := fun b => by
  have hrel : Sect (l :: H) H (release l) some := by
    simpa using release_sect (l := l) (H := l :: H) List.mem_cons_self
  exact (acquire_sect hl b).ctl_bind ((hb b).bind_ctl (hrel b))

theorem onData_sect (F : Sys → Option Sys) : Sect H H (onData F) F := fun _ => acts_onData F

theorem some_sect : Sect H H some some := fun _ => acts_some

theorem prioEnqueue_sect (h : Lock.runq ∉ H) (p : ProcId) :
    Sect H H (prioEnqueue p) (Sys.prioEnqueue · p) := fun b =>
  (withLock_sect h (onData_sect _) b).bind (onData_sect _ b)

theorem prioDequeue_sect (h : Lock.runq ∉ H) (p : ProcId) :
    Sect H H (prioDequeue p) (Sys.rqDequeue · p) := withLock_sect h (onData_sect _)

theorem prioOnTick_sect (h : Lock.runq ∉ H) : Sect H H prioOnTick Sys.rqOnTick :=
  withLock_sect h (onData_sect _)

theorem prioHighestNonempty_sect (h : Lock.runq ∉ H) : Sect H H prioHighestNonempty some :=
  withLock_sect h some_sect

theorem makeRunnable_sect (h : Lock.runq ∉ H) (p : ProcId) :
    Sect H H (makeRunnable p) (Sys.makeRunnable · p) := fun b =>
  (onData_sect _ b).bind (prioEnqueue_sect h p b)

/-- No lock that `wakeup` takes is held. -/
structure WakeFree (H : List Lock) : Prop where
  proc : ∀ p, Lock.proc p ∉ H
  runq : Lock.runq ∉ H

theorem WakeFree.runq_cons (h : WakeFree H) (p : ProcId) : Lock.runq ∉ Lock.proc p :: H := by
  simp [h.runq]

theorem wakeOne_sect (h : WakeFree H) (chan : Chan) (p : ProcId) :
    Sect H H (wakeOne chan · p) (Sys.wakeOne chan · p) := fun b => by
  refine Acts.ite (p := fun d : Sys => d.cur ≠ some p) ?_ acts_some
  exact withLock_sect (h.proc p) (fun b => Acts.ite
    (p := fun d : Sys => (d.proc p).state = .sleeping ∧ (d.proc p).chan = chan)
    (makeRunnable_sect (h.runq_cons p) p b) acts_some) b

theorem wakeup_sect (h : WakeFree H) (chan : Chan) :
    Sect H H (wakeup chan) (Sys.wakeup · chan) := fun b =>
  Acts.foldlM (fun p => wakeOne_sect h chan p b) _

theorem sleepBlock_sect {lk : Lock} {p : ProcId} (hp : Lock.proc p ≠ lk) (chan : Chan) :
    Sect [lk] [] (sleepBlock chan lk p) (Sys.sleepBlock · chan p) := fun b => by
  have hrel : Sect [.proc p, lk] [.proc p] (release lk) some := by
    simpa [List.erase_cons, hp] using release_sect (H := [.proc p, lk]) (l := lk) (by simp)
  have hrel' : Sect [.proc p] [] (release (.proc p)) some := by
    simpa using release_sect (H := [.proc p]) (l := .proc p) (by simp)
  refine (acquire_sect (by simpa using hp) b).ctl_bind ((hrel b).ctl_bind ?_)
  have hdeq : Sect [.proc p] [.proc p] (dequeueRunnable p) (Sys.dequeueRunnable · p) :=
    fun b => Acts.ite (p := fun d : Sys => (d.proc p).state = .runnable)
      (prioDequeue_sect (by simp) p b) acts_some
  exact (onData_sect (fun d => some (d.setChan p chan)) b).bind ((hdeq b).bind
    ((onData_sect (fun d => some (d.setState p .sleeping)) b).bind_ctl (hrel' b)))

theorem sleepWake_sect (h : ∀ p, Lock.proc p ∉ H) (p : ProcId) :
    Sect H H (sleepWake p) (fun d => some (d.setChan p .null)) :=
  withLock_sect (h p) (onData_sect _)

theorem yieldBlock_sect (h : WakeFree H) (p : ProcId) :
    Sect H H (yieldBlock p) (Sys.makeRunnable · p) :=
  withLock_sect (h.proc p) (makeRunnable_sect (h.runq_cons p) p)

theorem killAt_sect (h : WakeFree H) (pid : ℤ) (i : ProcId) :
    Sect H H (killAt pid i) (Sys.killAt · pid i) :=
  withLock_sect (h.proc i) fun b => Acts.ite (p := fun d : Sys => (d.proc i).pid = pid)
    ((onData_sect (fun d => some (d.setKilled i)) b).bind (Acts.ite
      (p := fun d : Sys => (d.proc i).state = .sleeping)
      (makeRunnable_sect (h.runq_cons i) i b) acts_some)) acts_some

theorem setkilled_sect (h : ∀ p, Lock.proc p ∉ H) (p : ProcId) :
    Sect H H (setkilled p) (fun d => some (d.setKilled p)) :=
  withLock_sect (h p) (onData_sect _)

theorem killed_sect (h : ∀ p, Lock.proc p ∉ H) (p : ProcId) : Sect H H (killed p) some :=
  withLock_sect (h p) some_sect

theorem forkAt_sect (i : ProcId) (ok : Bool) :
    Sect [] [] (forkAt i ok) (fun d => some (d.forkAt i ok)) := by
  have halloc : Sect [.proc i] [.proc i]
      (withLock .pidLock (onData fun d => some (d.allocpid i))) (fun d => some (d.allocpid i)) :=
    withLock_sect (by simp) (onData_sect _)
  have hbody : Sect [.proc i] [.proc i] (fun k : Kernel =>
      if (k.data.proc i).state = .unused then do
        let k ← withLock .pidLock (onData fun d => some (d.allocpid i)) k
        let k ← onData (fun d => some (d.allocFields i)) k
        if ok then onData (fun d => some (d.newContext i)) k
        else onData (fun d => some (d.freeproc i)) k
      else some k) (fun d => some (d.forkAt i ok)) := by
    intro b
    have h := Acts.ite (p := fun d : Sys => (d.proc i).state = .unused)
      ((halloc b).bind ((onData_sect (fun d => some (d.allocFields i)) b).bind
        (Acts.ite (p := fun _ => ok = true) (onData_sect (fun d => some (d.newContext i)) b)
          (onData_sect (fun d => some (d.freeproc i)) b)))) acts_some
    convert h using 2 with d
    simp only [Sys.forkAt]
    split_ifs <;> rfl
  exact withLock_sect (by simp) hbody

theorem forkParent_sect (np p : ProcId) :
    Sect [] [] (forkParent np p) (fun d => some (d.setParent np (some p))) :=
  withLock_sect (by simp) (onData_sect _)

theorem forkRun_sect (np p : ProcId) : Sect [] [] (forkRun np p) (Sys.forkRun · np p) :=
  withLock_sect (by simp) fun b => (onData_sect (fun d => some (d.markChild np p)) b).bind
    (prioEnqueue_sect (by simp) np b)

theorem reparentOne_sect (p pp : ProcId) :
    Sect [.waitLock] [.waitLock] (reparentOne p · pp) (Sys.reparentOne p · pp) := fun b => by
  refine Acts.ite (p := fun d : Sys => (d.proc pp).parent = some p) ?_ acts_some
  have hwake := Acts.param (fun chan => wakeup_sect (H := [.waitLock]) ⟨by simp, by simp⟩ chan b)
    (fun d : Sys => Chan.ofProc d.initproc)
  exact (onData_sect (fun d => some (d.setParent pp d.initproc)) b).bind hwake

theorem exitBlock_sect (status : ℤ) (p : ProcId) :
    Sect [] [] (exitBlock status p) (Sys.exitBlock · status p) := fun b => by
  have hrep : Sect [.waitLock] [.waitLock] (reparent p) (Sys.reparent · p) :=
    fun b => Acts.foldlM (fun pp => reparentOne_sect p pp b) _
  have hwake := Acts.param (fun chan => wakeup_sect (H := [.waitLock]) ⟨by simp, by simp⟩ chan b)
    (fun d : Sys => Chan.ofProc (d.proc p).parent)
  have hrel : Sect [.proc p, .waitLock] [.proc p] (release .waitLock) some := by
    simpa [List.erase_cons] using
      release_sect (H := [.proc p, .waitLock]) (l := .waitLock) (by simp)
  have hrel' : Sect [.proc p] [] (release (.proc p)) some := by
    simpa using release_sect (H := [.proc p]) (l := .proc p) (by simp)
  refine (acquire_sect (by simp) b).ctl_bind ((hrep b).bind (hwake.bind ?_))
  exact (acquire_sect (by simp) b).ctl_bind ((onData_sect
    (fun d => some (d.markZombie status p)) b).bind_ctl ((hrel b).ctl_bind (hrel' b)))

theorem scan_sect (p : ProcId) : Sect [.waitLock] [.waitLock] (scan p) some := by
  have hone : ∀ pp, Sect [.waitLock] [.waitLock] (scanOne p · pp) some := fun pp b => by
    have h := Acts.ite (p := fun d : Sys => (d.proc pp).parent = some p)
      (withLock_sect (H := [.waitLock]) (l := .proc pp) (by simp) some_sect b) acts_some
    simp only [ite_self] at h
    exact h
  have hfold : ∀ (l : List ProcId) (d : Sys), l.foldlM (fun d _ => some d) d = some d := by
    intro l
    induction l with
    | nil => exact fun _ => rfl
    | cons x l ih => exact ih
  intro b
  have h := Acts.param (fun l : List ProcId => Acts.foldlM (fun pp => hone pp b) l)
    (fun d : Sys => (List.finRange NPROC).takeWhile fun pp => decide (d.zombieChild p ≠ some pp))
  simp only [hfold] at h
  exact h

theorem release_wait_sect : Sect [.waitLock] [] (release .waitLock) some := by
  simpa using release_sect (H := [.waitLock]) (l := .waitLock) (by simp)

theorem reap_sect (pp p : ProcId) (ok : Bool) :
    Sect [.waitLock] [] (reap pp p ok) (fun d => some (d.reap pp p ok)) := fun b =>
  (withLock_sect (by simp) (onData_sect fun d => some (d.reap pp p ok)) b).bind_ctl
    (release_wait_sect b)

theorem waitFail_sect (p : ProcId) :
    Sect [.waitLock] [] (waitFail p) (fun d => some (d.setRet p (-1))) := fun b =>
  (onData_sect (fun d => some (d.setRet p (-1))) b).bind_ctl (release_wait_sect b)

theorem clockintr_sect : Sect [] [] clockintr (Sys.wakeup · .ticks) :=
  withLock_sect (by simp) (wakeup_sect ⟨by simp, by simp⟩ _)

theorem device_sect (wakes : List (ℕ × Chan)) :
    Sect [] [] (fun k => wakes.foldlM deviceWake k) (Sys.device · wakes) := fun b =>
  Acts.foldlM (fun w => withLock_sect (l := .other w.1) (by simp)
    (wakeup_sect ⟨by simp, by simp⟩ w.2) b) wakes

theorem devintr_sect (t : Trap) {b : Bool} (k : Kernel) (hk : k.ctl.Ok [] b) :
    ∃ i, Irq.Ok [] b i ∧ devintr t k = (k.data.devintr t).map fun r => (r.1, ⟨i, r.2⟩) := by
  cases t with
  | ecall | fault => exact ⟨k.ctl, hk, rfl⟩
  | timer =>
    obtain ⟨i, hi, he⟩ := clockintr_sect b k hk
    refine ⟨i, hi, ?_⟩
    simp only [devintr, he, Sys.devintr]
    cases k.data.wakeup .ticks <;> rfl
  | device wakes =>
    obtain ⟨i, hi, he⟩ := device_sect wakes b k hk
    refine ⟨i, hi, ?_⟩
    simp only [devintr, he, Sys.devintr]
    cases k.data.device wakes <;> rfl

theorem pickLoop_sect (n : ℕ) : Sect [] [] (pickLoop n) (Sys.pickLoop n) := by
  induction n with
  | zero => intro _ k hk; exact ⟨k.ctl, hk, rfl⟩
  | succ n ih =>
    intro b k hk
    have hrelease : ∀ l : Lock, Sect [l] [] (release l) some := fun l => by
      simpa using release_sect (H := [l]) (l := l) (by simp)
    obtain ⟨i1, hi1, he1⟩ := acquire_sect (l := .runq) (H := []) (by simp) b k hk
    simp only [map_some] at he1
    simp only [pickLoop, Sys.pickLoop, he1, bind_eq_bind, bind_some]
    cases hpick : k.data.rq.prioPickNext with
    | none => exact ⟨k.ctl, hk, rfl⟩
    | some r =>
      obtain ⟨next, rq⟩ := r
      obtain ⟨i2, hi2, he2⟩ := hrelease .runq b ⟨i1, { k.data with rq }⟩ hi1
      simp only [map_some] at he2
      simp only [bind_some, onSys, he2]
      cases next with
      | none => exact ⟨i2, hi2, rfl⟩
      | some q =>
        by_cases hq : k.data.idleproc = some q
        · simp only [hq, if_true]
          exact ⟨i2, hi2, rfl⟩
        · obtain ⟨i3, hi3, he3⟩ :=
            acquire_sect (l := .proc q) (H := []) (by simp) b ⟨i2, { k.data with rq }⟩ hi2
          simp only [map_some] at he3
          simp only [hq, if_false, he3, bind_some]
          by_cases hst : (k.data.proc q).state = .runnable
          · obtain ⟨i4, hi4, he4⟩ :=
              hrelease (.proc q) b ⟨i3, Sys.pick { k.data with rq } q⟩ hi3
            simp only [hst, if_true]
            exact ⟨i4, hi4, he4⟩
          · obtain ⟨i4, hi4, he4⟩ :=
              hrelease (.proc q) b ⟨i3, { k.data with rq, pickedAgain := true }⟩ hi3
            simp only [map_some] at he4
            simp only [hst, if_false, he4, bind_some]
            exact ih b _ hi4

end Kernel

end Xv6
