import Mathlib.Algebra.BigOperators.Fin
import Mathlib.Algebra.Order.BigOperators.Group.Finset

/-!
# Monitors: data behind a lock, with waiting loops

A monitor is a piece of data `σ` that processes `P` change in critical sections, one at a time. A
call may have to wait: its loop tests the data, sleeps if the test fails, and tests again when it
has been woken. Each critical section is one step, so that between two steps a process that is
inside a call either sleeps or is about to test again.

**Clients.** What the monitor knows of a process: what it holds (`γ`, bookkeeping that the code
does not store), and the loop it is in (`κ`), if any, with whether it sleeps there.

**Operations.** `enter` starts a call, `attempt` is one test of its loop, `wakeup` wakes every
sleeper, `wakeupOn` those in certain loops, `rouse` wakes one of them for no reason. `put` is the
general change of the data and one client.

**Tables.** A `Table` is an array of monitors; a system call names its entry by number.

**Counting.** `count f s` adds up a number over the clients. It is how an invariant ties a counter
in the data to the processes it counts: `count_put` and `count_wakeup` say how the operations
change it.
-/

open Finset
open Function (update update_self update_of_ne)

namespace Monitor

/-- What a monitor knows of a process. -/
structure Client (κ γ : Type*) where
  held : γ
  call : Option (κ × Bool)
  deriving DecidableEq, Repr

/-- The process comes back from `sleep`. -/
def Client.wake {κ γ : Type*} (c : Client κ γ) : Client κ γ :=
  { c with call := c.call.map fun x => (x.1, false) }

structure State (P σ κ γ : Type*) where
  shared : σ
  client : P → Client κ γ

namespace State

variable {P σ κ γ : Type*} {s : State P σ κ γ} {p q : P} {v : σ} {c : Client κ γ} {k : κ}

/-- The process is inside a call of kind `k`. -/
def Inside (s : State P σ κ γ) (p : P) (k : κ) : Prop :=
  (s.client p).call.map Prod.fst = some k

instance [DecidableEq κ] (s : State P σ κ γ) (p : P) (k : κ) : Decidable (s.Inside p k) := by
  unfold Inside; infer_instance

/-- The process sleeps inside a call of kind `k`. -/
def Asleep (s : State P σ κ γ) (p : P) (k : κ) : Prop := (s.client p).call = some (k, true)

instance [DecidableEq κ] (s : State P σ κ γ) (p : P) (k : κ) : Decidable (s.Asleep p k) := by
  unfold Asleep; infer_instance

/-- `wakeup`: every sleeper comes back from `sleep`. -/
def wakeup (s : State P σ κ γ) : State P σ κ γ := { s with client := fun p => (s.client p).wake }

theorem not_asleep_wakeup : ¬ s.wakeup.Asleep p k := by
  simp [Asleep, wakeup, Client.wake]

theorem inside_wakeup : s.wakeup.Inside p k ↔ s.Inside p k := by
  simp [Inside, wakeup, Client.wake, Function.comp_def]

/-- `wakeup` of those who sleep in the loops `on`. -/
def wakeupOn (on : κ → Prop) [DecidablePred on] (s : State P σ κ γ) : State P σ κ γ :=
  { s with client := fun p =>
      if (s.client p).call.any fun x => decide (on x.1) then (s.client p).wake else s.client p }

section

variable {on : κ → Prop} [DecidablePred on]

/-- `wakeup` lets nobody fall asleep, and leaves nobody asleep in the loops that it is about. -/
theorem asleep_wakeupOn (h : (s.wakeupOn on).Asleep p k) : s.Asleep p k ∧ ¬ on k := by
  unfold Asleep wakeupOn at h
  dsimp only at h
  split_ifs at h with hon
  · simp [Client.wake] at h
  · refine ⟨h, fun hk => hon ?_⟩
    rw [h]
    exact decide_eq_true hk

end

variable [DecidableEq P]

/-- New data, and a new record of one client. -/
def put (s : State P σ κ γ) (p : P) (v : σ) (c : Client κ γ) : State P σ κ γ :=
  ⟨v, update s.client p c⟩

/-- `p` starts a call of kind `k`. -/
def enter (p : P) (k : κ) (s : State P σ κ γ) : State P σ κ γ :=
  s.put p s.shared { s.client p with call := some (k, false) }

/-- One test of the loop `k`: `test` gives the data after the call, if `p` need not wait, and
`gain` what it holds then. -/
def attempt (test : κ → σ → Option σ) (gain : κ → γ → γ) (p : P) (k : κ) (s : State P σ κ γ) :
    State P σ κ γ :=
  match test k s.shared with
  | none => s.put p s.shared { s.client p with call := some (k, true) }
  | some v => s.put p v ⟨gain k (s.client p).held, none⟩

/-- `p`, asleep or not, goes back to the test of its loop. -/
def rouse (p : P) (s : State P σ κ γ) : State P σ κ γ := s.put p s.shared (s.client p).wake

section

variable {test : κ → σ → Option σ} {gain : κ → γ → γ}

theorem attempt_of_none (h : test k s.shared = none) :
    attempt test gain p k s = s.put p s.shared { s.client p with call := some (k, true) } := by
  rw [attempt, h]

theorem attempt_of_some (h : test k s.shared = some v) :
    attempt test gain p k s = s.put p v ⟨gain k (s.client p).held, none⟩ := by
  rw [attempt, h]

end

@[simp]
theorem shared_put : (s.put p v c).shared = v := rfl

@[simp]
theorem client_put_self : (s.put p v c).client p = c := update_self ..

theorem client_put_of_ne (h : q ≠ p) : (s.put p v c).client q = s.client q :=
  update_of_ne h _ _

/-- A change of one client that leaves what it holds. -/
theorem held_put (h : c.held = (s.client p).held) (q : P) :
    ((s.put p v c).client q).held = (s.client q).held := by
  by_cases hq : q = p
  · subst hq; rw [client_put_self, h]
  · rw [client_put_of_ne hq]

/-- What holds if somebody sleeps, after a change of one client. -/
theorem asleep_put {A : Prop} (hp : c.call = some (k, true) → A)
    (hs : ∀ q, q ≠ p → s.Asleep q k → A) (q : P) (hq : (s.put p v c).Asleep q k) : A := by
  by_cases h : q = p
  · subst h
    rw [Asleep, client_put_self] at hq
    exact hp hq
  · rw [Asleep, client_put_of_ne h] at hq
    exact hs q h hq

theorem inside_put (hq : (s.put p v c).Inside q k) : c.call.map Prod.fst = some k ∨ s.Inside q k := by
  by_cases h : q = p
  · subst h
    rw [Inside, client_put_self] at hq
    exact .inl hq
  · rw [Inside, client_put_of_ne h] at hq
    exact .inr hq

/-! ## Counting -/

variable [Fintype P]

/-- The sum of a number over the clients. -/
def count (f : Client κ γ → ℤ) (s : State P σ κ γ) : ℤ := ∑ p, f (s.client p)

variable {f : Client κ γ → ℤ}

theorem count_put : (s.put p v c).count f = s.count f + (f c - f (s.client p)) := by
  have hother : ∑ q ∈ univ.erase p, f ((s.put p v c).client q) =
      ∑ q ∈ univ.erase p, f (s.client q) :=
    sum_congr rfl fun q hq => by rw [client_put_of_ne (ne_of_mem_erase hq)]
  have hnew := add_sum_erase univ (fun q => f ((s.put p v c).client q)) (mem_univ p)
  have hold := add_sum_erase univ (fun q => f (s.client q)) (mem_univ p)
  simp only [client_put_self, hother] at hnew
  unfold count
  omega

omit [DecidableEq P] in
theorem count_wakeup (hf : ∀ c, f c.wake = f c) : s.wakeup.count f = s.count f :=
  sum_congr rfl fun p _ => hf (s.client p)

omit [DecidableEq P] in
theorem count_nonneg (hf : ∀ c, 0 ≤ f c) : 0 ≤ s.count f :=
  sum_nonneg fun p _ => hf (s.client p)

omit [DecidableEq P] in
theorem le_count (hf : ∀ c, 0 ≤ f c) (p : P) : f (s.client p) ≤ s.count f :=
  single_le_sum (f := fun p => f (s.client p)) (fun q _ => hf (s.client q)) (mem_univ p)

end State

/-! ## Tables of monitors -/

/-- A table of `n` monitors of one kind, with the clients of each. -/
abbrev Table (n : ℕ) (P σ κ γ : Type*) := Fin n → State P σ κ γ

namespace Table

variable {n : ℕ} {P σ κ γ : Type*} {t t' : Table n P σ κ γ} {p : P} {l : Fin n}
  {f : State P σ κ γ → State P σ κ γ}

/-- The process is inside no call. -/
def Outside (t : Table n P σ κ γ) (p : P) : Prop := ∀ l, ((t l).client p).call = none

/-- A critical section of the monitor with a given number; nothing happens if there is none. -/
def onEntry (id : ℤ) (f : State P σ κ γ → State P σ κ γ) (t : Table n P σ κ γ) :
    Table n P σ κ γ :=
  if h : id < 0 ∨ id ≥ n then t
  else
    let l : Fin n := ⟨id.toNat, by omega⟩
    update t l (f (t l))

theorem onEntry_coe (l : Fin n) : t.onEntry (l : ℤ) f = update t l (f (t l)) := by
  simp [onEntry]

instance (t : Table n P σ κ γ) (p : P) : Decidable (Outside t p) :=
  inferInstanceAs (Decidable (∀ l, ((t l).client p).call = none))

/-- A system call by a process that is inside no other. -/
def sysCall (p : P) (id : ℤ) (f : State P σ κ γ → State P σ κ γ) (t : Table n P σ κ γ) :
    Option (Table n P σ κ γ) :=
  if Outside t p then some (onEntry id f t) else none

/-- A system call changes at most the monitor it names. -/
theorem sysCall_cases {id : ℤ} (hs : t.sysCall p id f = some t') (l : Fin n) :
    t' l = t l ∨ id = l ∧ ((t l).client p).call = none ∧ t' l = f (t l) := by
  obtain ⟨hp, he⟩ := Option.ite_none_right_eq_some.1 hs
  cases he
  unfold onEntry
  split_ifs with hid
  · exact .inl rfl
  · by_cases hl : l = ⟨id.toNat, by omega⟩
    · subst hl
      exact .inr ⟨by simp; omega, hp _, update_self ..⟩
    · exact .inl (update_of_ne hl _ _)

variable [DecidableEq P]

/-- A process that has been woken tests its loop again. -/
def resume (test : κ → σ → Option σ) (gain : κ → γ → γ) (p : P) (l : Fin n)
    (t : Table n P σ κ γ) : Option (Table n P σ κ γ) :=
  match ((t l).client p).call with
  | some (k, false) => some (update t l (State.attempt test gain p k (t l)))
  | _ => none

/-- A sleeping process is woken for no reason. -/
def rouse (p : P) (l : Fin n) (t : Table n P σ κ γ) : Option (Table n P σ κ γ) :=
  match ((t l).client p).call with
  | some (_, true) => some (update t l ((t l).rouse p))
  | _ => none

theorem resume_cases {test : κ → σ → Option σ} {gain : κ → γ → γ} {m : Fin n}
    (hs : t.resume test gain p m = some t') (l : Fin n) :
    t' l = t l ∨ ∃ k, l = m ∧ ((t l).client p).call = some (k, false) ∧
      t' l = State.attempt test gain p k (t l) := by
  unfold resume at hs
  split at hs
  · next k hk =>
    cases hs
    by_cases hl : l = m
    · subst hl; exact .inr ⟨k, rfl, hk, update_self ..⟩
    · exact .inl (update_of_ne hl _ _)
  · cases hs

theorem rouse_cases {m : Fin n} (hs : t.rouse p m = some t') (l : Fin n) :
    t' l = t l ∨ t' l = (t l).rouse p := by
  unfold rouse at hs
  split at hs
  · cases hs
    by_cases hl : l = m
    · subst hl; exact .inr (update_self ..)
    · exact .inl (update_of_ne hl _ _)
  · cases hs

end Table

end Monitor
