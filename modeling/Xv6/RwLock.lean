import Xv6.Lib.Monitor
import Xv6.Lib.Transition

/-!
# Reader-writer locks

The locks of `rwlock.c`. Each lock of `rw_table` is a monitor: its three counters are changed in
critical sections of `rw->lock`, and `rw_rlock_k` and `rw_wlock_k` wait in loops that sleep on the
lock itself. `sleep` and `wakeup` are atomic with respect to `rw->lock` here; a process may also be
woken by `kill`, and then tests its loop again.

**Clients** (`RwTable.step`, `RwTable.Disciplined`). Any number of processes call the five functions
in any order, each inside one call at a time. They unlock only what they hold, and initialise a
lock only while it is not in use. A process may nest read sections: `Held.reads` counts them.

**Counters** (`Exact`). `readers` counts the open read sections, `writer` the write sections and
`waiting_writers` the processes inside `rw_wlock_k`.

**Waiters** (`Blocked`). The condition under which a process sleeps stays true until it is woken.

Main results: `rw_counters_exact` and `rw_sleepers_blocked`.
-/

open Finset Function Transition

namespace Xv6

open Monitor

abbrev MAXRW : ℕ := 32

/-- `struct rwlock`, less its spinlock. -/
structure RwLock where
  readers : ℤ
  writer : ℤ
  waitingWriters : ℤ
  deriving DecidableEq, Repr

inductive RwLoop
  | rlock | wlock
  deriving DecidableEq, Repr

/-- What a process holds of a lock: the number of its read sections, and whether it writes. -/
structure Held where
  reads : ℕ
  writes : Bool
  deriving DecidableEq, Repr

namespace RwLock

/-- `while(rw->writer || rw->waiting_writers > 0)` and `while(rw->writer || rw->readers > 0)`, and
what follows the loop. -/
def test : RwLoop → RwLock → Option RwLock
  | .rlock, rw =>
    if rw.writer ≠ 0 ∨ rw.waitingWriters > 0 then none
    else some { rw with readers := rw.readers + 1 }
  | .wlock, rw =>
    if rw.writer ≠ 0 ∨ rw.readers > 0 then none
    else some { rw with waitingWriters := rw.waitingWriters - 1, writer := 1 }

theorem test_rlock_none {rw : RwLock} :
    test .rlock rw = none ↔ rw.writer ≠ 0 ∨ 0 < rw.waitingWriters := by
  simp [test, imp_iff_not_or]

theorem test_rlock_some {rw rw' : RwLock} : test .rlock rw = some rw' ↔
    rw.writer = 0 ∧ rw.waitingWriters ≤ 0 ∧ { rw with readers := rw.readers + 1 } = rw' := by
  simp [test, and_assoc]

theorem test_wlock_none {rw : RwLock} : test .wlock rw = none ↔ rw.writer ≠ 0 ∨ 0 < rw.readers := by
  simp [test, imp_iff_not_or]

theorem test_wlock_some {rw rw' : RwLock} : test .wlock rw = some rw' ↔
    rw.writer = 0 ∧ rw.readers ≤ 0 ∧
      { rw with waitingWriters := rw.waitingWriters - 1, writer := 1 } = rw' := by
  simp [test, and_assoc]

/-- The section that a call begins. -/
def gain : RwLoop → Held → Held
  | .rlock, h => { h with reads := h.reads + 1 }
  | .wlock, h => { h with writes := true }

end RwLock

abbrev RwState (P : Type*) := Monitor.State P RwLock RwLoop Held

namespace RwState

variable {P : Type*}

/-! ## The functions of `rwlock.c` -/

/-- The counters after `rw_table_init` or `rw_init_k`. -/
def zeroed : RwLock := ⟨0, 0, 0⟩

def rwInitK (s : RwState P) : RwState P := { s with shared := zeroed }

variable [DecidableEq P]

def attempt (p : P) (k : RwLoop) (s : RwState P) : RwState P :=
  State.attempt RwLock.test RwLock.gain p k s


/-- `rw_rlock_k`, up to its first `sleep` or to its end. -/
def rwRlockK (p : P) (s : RwState P) : RwState P := attempt p .rlock (s.enter p .rlock)

/-- `readers--` by `p`, which ends one of its read sections. -/
def dropReader (p : P) (s : RwState P) : RwState P :=
  s.put p { s.shared with readers := s.shared.readers - 1 } { s.client p with
    held := { (s.client p).held with reads := (s.client p).held.reads - 1 } }

def rwRunlockK (p : P) (s : RwState P) : RwState P :=
  let s := dropReader p s
  if s.shared.readers = 0 then s.wakeup else s

/-- `waiting_writers++` by `p`. -/
def queueWriter (p : P) (s : RwState P) : RwState P :=
  s.put p { s.shared with waitingWriters := s.shared.waitingWriters + 1 }
    { s.client p with call := some (.wlock, false) }

/-- `rw_wlock_k`, up to its first `sleep` or to its end. -/
def rwWlockK (p : P) (s : RwState P) : RwState P := attempt p .wlock (queueWriter p s)

/-- `writer = 0` by `p`, which ends its write section. -/
def dropWriter (p : P) (s : RwState P) : RwState P :=
  s.put p { s.shared with writer := 0 } { s.client p with
    held := { (s.client p).held with writes := false } }

def rwWunlockK (p : P) (s : RwState P) : RwState P := (dropWriter p s).wakeup

end RwState

/-! ## Runs of the lock table -/

/-- `rw_table`, with the clients of each lock. -/
abbrev RwTable (P : Type*) := Fin MAXRW → RwState P

/-- The events: `resume` is a process that has been woken and tests its loop again, `kill` the
wakeup of a sleeping process by `kill`. -/
inductive RwEvent (P : Type*)
  | init (p : P) (id : ℤ)
  | rlock (p : P) (id : ℤ)
  | runlock (p : P) (id : ℤ)
  | wlock (p : P) (id : ℤ)
  | wunlock (p : P) (id : ℤ)
  | resume (p : P) (l : Fin MAXRW)
  | kill (p : P) (l : Fin MAXRW)

namespace RwTable

variable {P : Type*}

/-- `rw_table_init`, before any process uses a lock. -/
def rwTableInit : RwTable P := fun _ => ⟨RwState.zeroed, fun _ => ⟨⟨0, false⟩, none⟩⟩

/-- The process is inside no call. -/
def Outside (t : RwTable P) (p : P) : Prop := ∀ l, ((t l).client p).call = none

/-- `if(id < 0 || id >= MAXRW) return;` and the critical section of the lock. -/
def onLock (id : ℤ) (f : RwState P → RwState P) (t : RwTable P) : RwTable P :=
  if h : id < 0 ∨ id ≥ MAXRW then t
  else
    let l : Fin MAXRW := ⟨id.toNat, by omega⟩
    update t l (f (t l))

instance (t : RwTable P) (p : P) : Decidable (Outside t p) := by unfold Outside; infer_instance

variable [DecidableEq P]

/-- A system call by a process that is inside no other. -/
def sysCall (p : P) (id : ℤ) (f : RwState P → RwState P) (t : RwTable P) : Option (RwTable P) :=
  if Outside t p then some (onLock id f t) else none

def step (e : RwEvent P) (t : RwTable P) : Option (RwTable P) :=
  match e with
  | .init p id => sysCall p id RwState.rwInitK t
  | .rlock p id => sysCall p id (RwState.rwRlockK p) t
  | .runlock p id => sysCall p id (RwState.rwRunlockK p) t
  | .wlock p id => sysCall p id (RwState.rwWlockK p) t
  | .wunlock p id => sysCall p id (RwState.rwWunlockK p) t
  | .resume p l =>
    match ((t l).client p).call with
    | some (k, false) => some (update t l (RwState.attempt p k (t l)))
    | _ => none
  | .kill p l =>
    match ((t l).client p).call with
    | some (_, true) => some (update t l ((t l).rouse p))
    | _ => none

/-- Clients unlock only what they hold, and initialise a lock only while nobody uses it. -/
def Disciplined (e : RwEvent P) (t : RwTable P) : Prop :=
  match e with
  | .init _ id => ∀ l : Fin MAXRW, (l : ℤ) = id → ∀ p, (t l).client p = ⟨⟨0, false⟩, none⟩
  | .runlock p id => ∀ l : Fin MAXRW, (l : ℤ) = id → 0 < ((t l).client p).held.reads
  | .wunlock p id => ∀ l : Fin MAXRW, (l : ℤ) = id → ((t l).client p).held.writes = true
  | _ => True

instance [Fintype P] (e : RwEvent P) (t : RwTable P) : Decidable (Disciplined e t) := by
  cases e <;> unfold Disciplined <;> infer_instance

/-- The states of the table in runs of disciplined clients. -/
def Reachable (t : RwTable P) : Prop :=
  Reaches step Disciplined rwTableInit t

end RwTable

/-! ## The counters -/

namespace RwState

variable {P : Type*} {s : RwState P} {p : P} {k : RwLoop}

def reads (c : Client RwLoop Held) : ℤ := c.held.reads

def writes (c : Client RwLoop Held) : ℤ := if c.held.writes then 1 else 0

/-- The calls of `rw_wlock_k` that a client is in. -/
def waits (c : Client RwLoop Held) : ℤ := if c.call.map Prod.fst = some .wlock then 1 else 0

theorem reads_nonneg (c : Client RwLoop Held) : 0 ≤ reads c := Int.natCast_nonneg _

theorem writes_nonneg (c : Client RwLoop Held) : 0 ≤ writes c := by
  unfold writes; split_ifs <;> decide

theorem waits_nonneg (c : Client RwLoop Held) : 0 ≤ waits c := by
  unfold waits; split_ifs <;> decide

theorem waits_wake (c : Client RwLoop Held) : waits c.wake = waits c := by
  obtain ⟨held, call⟩ := c
  cases call <;> rfl

/-- **The counters are exact**, and readers and writers exclude one another. -/
structure Exact [Fintype P] (s : RwState P) : Prop where
  readers : s.shared.readers = s.count reads
  writer : s.shared.writer = s.count writes
  waiting : s.shared.waitingWriters = s.count waits
  exclusive : s.shared.writer = 0 ∨ s.shared.writer = 1 ∧ s.shared.readers = 0

/-- **Sleepers are blocked**: what they sleep for has not happened. -/
structure Blocked (s : RwState P) : Prop where
  rlock : ∀ p, s.Asleep p .rlock → s.shared.writer = 1 ∨ 0 < s.shared.waitingWriters
  wlock : ∀ p, s.Asleep p .wlock → s.shared.writer = 1 ∨ 0 < s.shared.readers

structure Inv [Fintype P] (s : RwState P) : Prop extends Exact s, Blocked s

theorem blocked_wakeup (s : RwState P) : Blocked s.wakeup :=
  ⟨fun _ hp => absurd hp State.not_asleep_wakeup, fun _ hp => absurd hp State.not_asleep_wakeup⟩

theorem Exact.wakeup [Fintype P] (h : Exact s) : Exact s.wakeup where
  readers := h.readers.trans (State.count_wakeup fun _ => rfl).symm
  writer := h.writer.trans (State.count_wakeup fun _ => rfl).symm
  waiting := h.waiting.trans (State.count_wakeup waits_wake).symm
  exclusive := h.exclusive

/-- `writer` is `1` for a process that writes, and then nobody reads. -/
theorem Exact.of_writes [Fintype P] (h : Exact s) (hp : (s.client p).held.writes = true) :
    s.shared.writer = 1 ∧ s.shared.readers = 0 := by
  have hle := State.le_count (s := s) writes_nonneg p
  rw [← h.writer] at hle
  have hpos : writes (s.client p) = 1 := by simp [writes, hp]
  rcases h.exclusive with h0 | h1
  · omega
  · exact h1

/-- While a process reads, `readers` is positive and nobody writes. -/
theorem Exact.of_reads [Fintype P] (h : Exact s) (hp : 0 < (s.client p).held.reads) :
    0 < s.shared.readers ∧ s.shared.writer = 0 := by
  have hle := State.le_count (s := s) reads_nonneg p
  rw [← h.readers] at hle
  have hpos : 0 < reads (s.client p) := Int.natCast_pos.2 hp
  rcases h.exclusive with h0 | h1
  · exact ⟨by omega, h0⟩
  · omega

/-- If no process nests read sections, `readers` is the number of processes that read. -/
theorem Exact.readers_card [Fintype P] (h : Exact s) (hone : ∀ p, (s.client p).held.reads ≤ 1) :
    s.shared.readers = card {p | 0 < (s.client p).held.reads} := by
  rw [h.readers, natCast_card_filter]
  refine sum_congr rfl fun p _ => ?_
  have hp := hone p
  unfold reads
  split_ifs <;> omega

theorem Exact.writer_iff [Fintype P] (h : Exact s) :
    s.shared.writer = 1 ↔ ∃! p, (s.client p).held.writes = true := by
  constructor
  · intro h1
    have hcard : (Finset.card {p | (s.client p).held.writes = true} : ℤ) = 1 := by
      rw [Finset.natCast_card_filter]
      exact h.writer.symm.trans h1
    obtain ⟨a, ha⟩ := Finset.card_eq_one.1 (by exact_mod_cast hcard)
    have hmem : ∀ b, (s.client b).held.writes = true ↔ b = a := fun b => by
      simpa using Finset.ext_iff.1 ha b
    exact ⟨a, (hmem a).2 rfl, fun b => (hmem b).1⟩
  · rintro ⟨p, hp, -⟩
    exact (h.of_writes hp).1

/-- `waiting_writers` is the number of processes that wait in `rw_wlock_k`. -/
theorem Exact.waiting_card [Fintype P] (h : Exact s) :
    s.shared.waitingWriters = card {p | s.Inside p .wlock} := by
  rw [h.waiting, natCast_card_filter]
  rfl

theorem Exact.not_inside_wlock [Fintype P] (h : Exact s) (hle : s.shared.waitingWriters ≤ 0)
    (p : P) : ¬ s.Inside p .wlock := by
  intro hp
  have hcount := State.le_count (s := s) waits_nonneg p
  rw [← h.waiting, show waits (s.client p) = 1 from if_pos hp] at hcount
  omega

/-- A lock that nobody uses may be initialised again. -/
theorem inv_rwInitK [Fintype P] (hs : ∀ p, s.client p = ⟨⟨0, false⟩, none⟩) : Inv (rwInitK s) := by
  refine ⟨⟨?_, ?_, ?_, .inl rfl⟩, ⟨fun p hp => ?_, fun p hp => ?_⟩⟩
  · simp [rwInitK, zeroed, State.count, hs, reads]
  · simp [rwInitK, zeroed, State.count, hs, writes]
  · simp [rwInitK, zeroed, State.count, hs, waits]
  · simp [State.Asleep, rwInitK, hs] at hp
  · simp [State.Asleep, rwInitK, hs] at hp

/-! ## The functions keep the invariant -/

variable [DecidableEq P] {rw : RwLock} {c : Client RwLoop Held}

theorem Blocked.put (hr : ∀ q, q ≠ p → s.Asleep q .rlock → rw.writer = 1 ∨ 0 < rw.waitingWriters)
    (hw : ∀ q, q ≠ p → s.Asleep q .wlock → rw.writer = 1 ∨ 0 < rw.readers)
    (hpr : c.call = some (.rlock, true) → rw.writer = 1 ∨ 0 < rw.waitingWriters)
    (hpw : c.call = some (.wlock, true) → rw.writer = 1 ∨ 0 < rw.readers) :
    Blocked (s.put p rw c) where
  rlock := State.asleep_put hpr hr
  wlock := State.asleep_put hpw hw

variable [Fintype P]

theorem Exact.put (h : Exact s)
    (hr : rw.readers = s.shared.readers + (reads c - reads (s.client p)))
    (hw : rw.writer = s.shared.writer + (writes c - writes (s.client p)))
    (hq : rw.waitingWriters = s.shared.waitingWriters + (waits c - waits (s.client p)))
    (hx : rw.writer = 0 ∨ rw.writer = 1 ∧ rw.readers = 0) : Exact (s.put p rw c) where
  readers := by rw [State.count_put, ← h.readers]; exact hr
  writer := by rw [State.count_put, ← h.writer]; exact hw
  waiting := by rw [State.count_put, ← h.waiting]; exact hq
  exclusive := hx

/-- A change of what a client is doing that is no change to the counters. -/
theorem Exact.setCall (h : Exact s) {call : Option (RwLoop × Bool)}
    (hq : waits { s.client p with call := call } = waits (s.client p)) :
    Exact (s.put p s.shared { s.client p with call := call }) :=
  h.put (by simp [reads]) (by simp [writes]) (by simp [hq]) h.exclusive

theorem Inv.attempt_rlock (h : Inv s) (hp : (s.client p).call = some (.rlock, false)) :
    Inv (attempt p .rlock s) := by
  have hq : waits (s.client p) = 0 := by simp [waits, hp]
  cases htest : RwLock.test .rlock s.shared with
  | none =>
    have hblock : s.shared.writer = 1 ∨ 0 < s.shared.waitingWriters :=
      (RwLock.test_rlock_none.1 htest).imp_left fun hw => (h.exclusive.resolve_left hw).1
    rw [attempt, State.attempt_of_none htest]
    exact ⟨h.setCall (by rw [hq]; rfl),
      .put (fun q _ => h.rlock q) (fun q _ => h.wlock q) (fun _ => hblock) (by simp)⟩
  | some rw =>
    obtain ⟨hw, -, rfl⟩ := RwLock.test_rlock_some.1 htest
    have hr := h.readers ▸ State.count_nonneg (s := s) reads_nonneg
    have hsame : writes ⟨RwLock.gain .rlock (s.client p).held, none⟩ = writes (s.client p) := rfl
    rw [attempt, State.attempt_of_some htest]
    refine ⟨h.put ?_ ?_ ?_ (.inl hw), .put (fun q _ => h.rlock q)
      (fun _ _ _ => .inr (Int.lt_add_one_of_le hr)) (by simp) (by simp)⟩
    · simp [reads, RwLock.gain]
    · simp [hsame]
    · rw [hq]; simp [waits]

theorem Inv.attempt_wlock (h : Inv s) (hp : (s.client p).call = some (.wlock, false)) :
    Inv (attempt p .wlock s) := by
  have hq : waits (s.client p) = 1 := by simp [waits, hp]
  cases htest : RwLock.test .wlock s.shared with
  | none =>
    have hblock : s.shared.writer = 1 ∨ 0 < s.shared.readers :=
      (RwLock.test_wlock_none.1 htest).imp_left fun hw => (h.exclusive.resolve_left hw).1
    rw [attempt, State.attempt_of_none htest]
    exact ⟨h.setCall (by rw [hq]; rfl),
      .put (fun q _ => h.rlock q) (fun q _ => h.wlock q) (by simp) (fun _ => hblock)⟩
  | some rw =>
    obtain ⟨hw, hr, rfl⟩ := RwLock.test_wlock_some.1 htest
    have hr0 : s.shared.readers = 0 :=
      le_antisymm hr (h.readers ▸ State.count_nonneg reads_nonneg)
    have hnot : writes (s.client p) = 0 := if_neg fun hp => by
      simp [(h.of_writes hp).1] at hw
    rw [attempt, State.attempt_of_some htest]
    refine ⟨h.put ?_ ?_ ?_ (.inr ⟨rfl, hr0⟩),
      .put (fun _ _ _ => .inl rfl) (fun _ _ _ => .inl rfl) (by simp) (by simp)⟩
    · simp [reads, RwLock.gain]
    · rw [hnot, hw]; simp [writes, RwLock.gain]
    · rw [hq]; simp [waits]; rfl

theorem Inv.attempt (h : Inv s) (hp : (s.client p).call = some (k, false)) :
    Inv (attempt p k s) := by
  cases k with
  | rlock => exact h.attempt_rlock hp
  | wlock => exact h.attempt_wlock hp

theorem Inv.rwRlockK (h : Inv s) (hp : (s.client p).call = none) : Inv (rwRlockK p s) := by
  have henter : Inv (s.enter p .rlock) := ⟨h.setCall (by simp [waits, hp]),
    .put (fun q _ => h.rlock q) (fun q _ => h.wlock q) (by simp) (by simp)⟩
  exact henter.attempt (by rw [State.enter, State.client_put_self])

theorem Inv.rwWlockK (h : Inv s) (hp : (s.client p).call = none) : Inv (rwWlockK p s) := by
  have hqueue : Inv (queueWriter p s) := by
    refine ⟨h.put (by simp [reads]) (by simp [writes]) (by simp [waits, hp]) h.exclusive,
      .put (fun q _ hq => ?_) (fun q _ => h.wlock q) (by simp) (by simp)⟩
    exact (h.rlock q hq).imp_right fun hpos => Int.lt_add_one_of_le hpos.le
  exact hqueue.attempt (by rw [queueWriter, State.client_put_self])

theorem Exact.dropReader (h : Exact s) (hr : 0 < (s.client p).held.reads) :
    Exact (dropReader p s) :=
  h.put (by simp [reads]; omega) (by simp [writes]) (by simp [waits]) (.inl (h.of_reads hr).2)

theorem Inv.rwRunlockK (h : Inv s) (hp : (s.client p).call = none)
    (hr : 0 < (s.client p).held.reads) : Inv (rwRunlockK p s) := by
  have hexact := h.toExact.dropReader hr
  have hpos := (h.of_reads hr).1
  simp only [RwState.rwRunlockK]
  split_ifs with h0
  · exact ⟨hexact.wakeup, blocked_wakeup _⟩
  · have hne : s.shared.readers - 1 ≠ 0 := h0
    have hleft : 0 < s.shared.readers - 1 := by omega
    exact ⟨hexact, .put (fun q _ => h.rlock q) (fun q _ _ => .inr hleft) (by simp [hp])
      (by simp [hp])⟩

theorem Inv.rwWunlockK (h : Inv s) (hw : (s.client p).held.writes = true) :
    Inv (rwWunlockK p s) := by
  have hexact : Exact (dropWriter p s) := h.put (by simp [reads])
    (by simp [writes, hw, (h.of_writes hw).1]) (by simp [waits]) (.inl rfl)
  exact ⟨hexact.wakeup, blocked_wakeup _⟩

theorem Inv.rouse (h : Inv s) : Inv (s.rouse p) :=
  ⟨h.setCall (waits_wake _), .put (fun q _ => h.rlock q) (fun q _ => h.wlock q)
    (by simp [Client.wake]) (by simp [Client.wake])⟩

end RwState

/-! ## Runs -/

namespace RwTable

open RwState

variable {P : Type*} {t t' : RwTable P} {e : RwEvent P} {l : Fin MAXRW} {s s' : RwState P}

/-- A system call changes one lock, if any. -/
theorem sysCall_cases {p : P} {id : ℤ} {f : RwState P → RwState P}
    (hs : sysCall p id f t = some t') (l : Fin MAXRW) :
    t' l = t l ∨ (l : ℤ) = id ∧ ((t l).client p).call = none ∧ t' l = f (t l) := by
  obtain ⟨hp, he⟩ := Option.ite_none_right_eq_some.1 hs
  have hs' : Table.sysCall p id f t = some t' := (if_pos hp).trans he
  exact (Table.sysCall_cases hs' l).imp_right fun ⟨hid, h⟩ => ⟨hid.symm, h⟩

variable [DecidableEq P]

/-- What one step of the table can do to the lock `l`. -/
inductive Local (e : RwEvent P) (l : Fin MAXRW) (s : RwState P) : RwState P → Prop
  | stays : Local e l s s
  | init {p} : e = .init p l → Local e l s (rwInitK s)
  | rlock {p} : (s.client p).call = none → Local e l s (rwRlockK p s)
  | runlock {p} :
      e = .runlock p l → (s.client p).call = none → Local e l s (rwRunlockK p s)
  | wlock {p} : (s.client p).call = none → Local e l s (rwWlockK p s)
  | wunlock {p} : e = .wunlock p l → Local e l s (rwWunlockK p s)
  | resume {p k} : (s.client p).call = some (k, false) → Local e l s (attempt p k s)
  | kill {p} : Local e l s (s.rouse p)

theorem step_local (hs : step e t = some t') (l : Fin MAXRW) : Local e l (t l) (t' l) := by
  cases e with
  | init p id =>
    rcases sysCall_cases hs l with he | ⟨rfl, -, he⟩
    · exact he ▸ .stays
    · exact he ▸ .init rfl
  | rlock p id =>
    rcases sysCall_cases hs l with he | ⟨rfl, hp, he⟩
    · exact he ▸ .stays
    · exact he ▸ .rlock hp
  | runlock p id =>
    rcases sysCall_cases hs l with he | ⟨rfl, hp, he⟩
    · exact he ▸ .stays
    · exact he ▸ .runlock rfl hp
  | wlock p id =>
    rcases sysCall_cases hs l with he | ⟨rfl, hp, he⟩
    · exact he ▸ .stays
    · exact he ▸ .wlock hp
  | wunlock p id =>
    rcases sysCall_cases hs l with he | ⟨rfl, -, he⟩
    · exact he ▸ .stays
    · exact he ▸ .wunlock rfl
  | resume p m =>
    have hs' : Table.resume RwLock.test RwLock.gain p m t = some t' := by
      rw [← hs, step, Table.resume]
      cases ((t m).client p).call with
      | none => rfl
      | some x => obtain ⟨k, b⟩ := x; cases b <;> rfl
    rcases Table.resume_cases hs' l with he | ⟨k, -, hk, he⟩
    · exact he ▸ .stays
    · exact he ▸ .resume hk
  | kill p m =>
    have hs' : Table.rouse p m t = some t' := by
      rw [← hs, step, Table.rouse]
      cases ((t m).client p).call with
      | none => rfl
      | some x => obtain ⟨k, b⟩ := x; cases b <;> rfl
    rcases Table.rouse_cases hs' l with he | he
    · exact he ▸ .stays
    · exact he ▸ .kill

/-- Disciplined clients keep the invariant of a lock. -/
theorem Local.inv [Fintype P] (hl : Local e l (t l) s') (h : (t l).Inv) (hd : Disciplined e t) :
    s'.Inv := by
  cases hl with
  | stays => exact h
  | init he => subst he; exact inv_rwInitK (hd l rfl)
  | rlock hp => exact h.rwRlockK hp
  | runlock he hp => subst he; exact h.rwRunlockK hp (hd l rfl)
  | wlock hp => exact h.rwWlockK hp
  | wunlock he => subst he; exact h.rwWunlockK (hd l rfl)
  | resume hp => exact h.attempt hp
  | kill => exact h.rouse

/-- **The invariant holds for every lock, in every run of disciplined clients.** -/
theorem reachable_inv [Fintype P] (h : Reachable t) (l : Fin MAXRW) : (t l).Inv :=
  h.invariant (I := fun t : RwTable P => ∀ l, (t l).Inv)
    (fun l => inv_rwInitK (s := rwTableInit l) fun _ => rfl)
    (fun _ _ _ hi hd hs l => (step_local hs l).inv (hi l) hd) l

/-! ## Safety and writer preference -/

theorem not_reads_lt_put {p q : P} {rw : RwLock} {c : Client RwLoop Held}
    (hc : c.held.reads ≤ (s.client p).held.reads) :
    ¬ (s.client q).held.reads < ((s.put p rw c).client q).held.reads := by
  by_cases hq : q = p
  · subst hq; rw [State.client_put_self]; exact not_lt.2 hc
  · rw [State.client_put_of_ne hq]; exact lt_irrefl _

/-- A test of a loop begins a read section only while no writer waits. -/
theorem attempt_reads {p q : P} {k : RwLoop}
    (hq : (s.client q).held.reads < ((attempt p k s).client q).held.reads) :
    k = .rlock ∧ s.shared.waitingWriters ≤ 0 := by
  cases htest : RwLock.test k s.shared with
  | none =>
    rw [attempt, State.attempt_of_none htest] at hq
    exact absurd hq (not_reads_lt_put le_rfl)
  | some rw =>
    cases k with
    | rlock => exact ⟨rfl, (RwLock.test_rlock_some.1 htest).2.1⟩
    | wlock =>
      rw [attempt, State.attempt_of_some htest] at hq
      exact absurd hq (not_reads_lt_put le_rfl)

/-- **A read section begins only while no writer waits.** -/
theorem Local.reads (hl : Local e l s s') {q : P}
    (hq : (s.client q).held.reads < (s'.client q).held.reads) : s.shared.waitingWriters ≤ 0 := by
  cases hl with
  | stays | init _ => exact absurd hq (lt_irrefl _)
  | @rlock p _ =>
    have hsame : ((s.enter p .rlock).client q).held = (s.client q).held := State.held_put (by rfl) q
    rw [← hsame] at hq
    exact (attempt_reads hq).2
  | @wlock p _ =>
    have hsame : ((queueWriter p s).client q).held = (s.client q).held := State.held_put (by rfl) q
    rw [← hsame] at hq
    cases (attempt_reads hq).1
  | @runlock p _ _ =>
    have hheld : ((rwRunlockK p s).client q).held = ((dropReader p s).client q).held := by
      simp only [rwRunlockK]
      split_ifs <;> rfl
    rw [hheld] at hq
    exact absurd hq (not_reads_lt_put (Nat.sub_le _ _))
  | @wunlock p _ =>
    have hq : (s.client q).held.reads < ((dropWriter p s).client q).held.reads := hq
    exact absurd hq (not_reads_lt_put le_rfl)
  | resume _ => exact (attempt_reads hq).2
  | kill => exact absurd hq (not_reads_lt_put le_rfl)

/-- **Reader-writer locks are safe and prefer writers.** In every run of disciplined clients and
for every lock: `readers` is the number of open read sections, and so of the processes that read
if none nests them; `writer` is `1` if exactly one process writes and else `0`; nobody reads while
somebody writes; `waiting_writers` is the number of processes that wait in `rw_wlock`; and no
`rw_rlock` completes while there is one. -/
theorem rw_counters_exact {P : Type*} [DecidableEq P] [Fintype P] (t : RwTable P)
    (h : Reachable t) (l : Fin MAXRW) :
    (t l).shared.readers = ∑ p, (((t l).client p).held.reads : ℤ) ∧
    ((∀ p, ((t l).client p).held.reads ≤ 1) →
      (t l).shared.readers = card {p | 0 < ((t l).client p).held.reads}) ∧
    ((t l).shared.writer = 0 ∨ (t l).shared.writer = 1) ∧
    ((t l).shared.writer = 1 ↔ ∃! p, ((t l).client p).held.writes = true) ∧
    (∀ p q, 0 < ((t l).client p).held.reads → ((t l).client q).held.writes = false) ∧
    (t l).shared.waitingWriters = card {p | (t l).Inside p .wlock} ∧
    ∀ e t' p, step e t = some t' → ((t l).client p).held.reads < ((t' l).client p).held.reads →
      ∀ q, ¬ (t l).Inside q .wlock := by
  have hinv := reachable_inv h l
  refine ⟨hinv.readers, hinv.readers_card, hinv.exclusive.imp_right And.left, hinv.writer_iff,
    fun p q hp => ?_, hinv.waiting_card, fun e t' p hs hp =>
    hinv.not_inside_wlock ((step_local hs l).reads hp)⟩
  refine Bool.eq_false_iff.2 fun hq => ?_
  have hr := (hinv.of_reads hp).1
  rw [(hinv.of_writes hq).2] at hr
  exact lt_irrefl 0 hr

/-- Trace helper: the state after the events, if all are possible and disciplined. -/
def runs {P : Type*} [DecidableEq P] [Fintype P] (es : List (RwEvent P)) : Option (RwTable P) :=
  run step Disciplined es rwTableInit

/-- Process `0` reads while `1` waits to write, and `2` may not read. -/
theorem rw_counters_exact_while_reading :
    ∃ t : RwTable (Fin 3), Reachable t ∧ (t 0).shared.readers = 1 ∧
      (t 0).shared.waitingWriters = 1 ∧ (t 0).Asleep 2 .rlock ∧
      ∀ q, ((t 0).client q).held.writes = false := by
  have hrun : (runs [.rlock 0 0, .wlock 1 0, .rlock (2 : Fin 3) 0]).any (fun t =>
      decide (0 < ((t 0).client 0).held.reads ∧ (t 0).shared.readers = 1 ∧
        (t 0).shared.waitingWriters = 1 ∧ (t 0).Asleep 2 .rlock)) = true := by decide +kernel
  obtain ⟨t, ht, hreads, hr, hw, hs⟩ := exists_reaches_of_run hrun
  obtain ⟨-, -, -, -, hex, -⟩ := rw_counters_exact t ht 0
  exact ⟨t, ht, hr, hw, hs, fun q => hex 0 q hreads⟩

/-! ## Sleepers -/

/-- **Nobody sleeps on a lock that it could take.** In every run of disciplined clients and for
every lock, a process that sleeps in `rw_rlock` waits for a writer or for a waiting writer, and
one that sleeps in `rw_wlock` waits for a reader or a writer. When nobody holds the lock, nobody
sleeps in `rw_wlock`, and if a process sleeps in `rw_rlock` then another one is awake inside
`rw_wlock`, about to take the lock. -/
theorem rw_sleepers_blocked {P : Type*} [DecidableEq P] [Fintype P] (t : RwTable P)
    (h : Reachable t) (l : Fin MAXRW) :
    (∀ p, (t l).Asleep p .rlock → (t l).shared.writer = 1 ∨ 0 < (t l).shared.waitingWriters) ∧
    (∀ p, (t l).Asleep p .wlock → (t l).shared.writer = 1 ∨ 0 < (t l).shared.readers) ∧
    ((∀ p, ((t l).client p).held = ⟨0, false⟩) → (∀ p, ¬ (t l).Asleep p .wlock) ∧
      ∀ p, (t l).Asleep p .rlock → ∃ q, ((t l).client q).call = some (.wlock, false)) := by
  have hinv := reachable_inv h l
  refine ⟨hinv.rlock, hinv.wlock, fun hfree => ?_⟩
  have hr : (t l).shared.readers = 0 := by simp [hinv.readers, State.count, reads, hfree]
  have hw : (t l).shared.writer = 0 := by simp [hinv.writer, State.count, writes, hfree]
  have hnone : ∀ p, ¬ (t l).Asleep p .wlock := fun p hp => by
    have := hinv.wlock p hp
    omega
  refine ⟨hnone, fun p hp => ?_⟩
  have hpos : 0 < (t l).shared.waitingWriters := (hinv.rlock p hp).resolve_left (by omega)
  rw [hinv.waiting_card, Int.natCast_pos, card_pos] at hpos
  obtain ⟨q, hq⟩ := hpos
  have hin := (mem_filter.1 hq).2
  obtain ⟨⟨k, b⟩, hcall, rfl⟩ := Option.map_eq_some_iff.1 hin
  cases b with
  | false => exact ⟨q, hcall⟩
  | true => exact absurd hcall (hnone q)

/-- A writer has left, the next one has been woken and not yet run, and a reader comes in between:
it sleeps although nobody holds the lock. -/
def betweenWriters : List (RwEvent (Fin 3)) := [.wlock 0 0, .wlock 1 0, .wunlock 0 0, .rlock 2 0]

theorem rw_sleepers_blocked_between_writers :
    ∃ t : RwTable (Fin 3), Reachable t ∧ (∀ p, ((t 0).client p).held = ⟨0, false⟩) ∧
      (t 0).Asleep 2 .rlock ∧ ∃ q, ((t 0).client q).call = some (.wlock, false) := by
  have hrun : (runs betweenWriters).any (fun t =>
      decide ((∀ p, ((t 0).client p).held = ⟨0, false⟩) ∧ (t 0).Asleep 2 .rlock)) = true := by
    decide +kernel
  obtain ⟨t, ht, hfree, hs⟩ := exists_reaches_of_run hrun
  obtain ⟨-, -, hlast⟩ := rw_sleepers_blocked t ht 0
  exact ⟨t, ht, hfree, hs, (hlast hfree).2 2 hs⟩

theorem rw_reader_asleep_on_free_lock :
    ∃ t : RwTable (Fin 3), Reachable t ∧ (∀ p, ((t 0).client p).held = ⟨0, false⟩) ∧
      ∃ p, (t 0).Asleep p .rlock := by
  have hrun : (runs betweenWriters).any (fun t =>
      decide ((∀ p, ((t 0).client p).held = ⟨0, false⟩) ∧ (t 0).Asleep 2 .rlock)) = true := by
    decide +kernel
  obtain ⟨t, ht, hfree, hs⟩ := exists_reaches_of_run hrun
  exact ⟨t, ht, hfree, 2, hs⟩

end RwTable

end Xv6
