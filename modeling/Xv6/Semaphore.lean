import Xv6.Lib.Monitor
import Xv6.Lib.Transition

/-!
# Semaphores

The semaphores of `semaphore.c`. Each entry of `sem_table` is a monitor: `sem_wait_k` waits in a
loop that sleeps on the semaphore while its value is `0`, `sem_signal_k` adds a unit and wakes
everybody, `sem_init_k` sets the value and wakes nobody. `sleep` and `wakeup` are atomic with
respect to `sem->lock` here; a process may also be woken by `kill`, and then tests its loop again.

**Values.** `value` is an `int`, and wraps around as the machine's does.

**Counting.** `waits` and `signals` count the calls that have completed; no code reads them. The
value is the balance of the units (`Balance`), up to a multiple of `2^32`. It admits as many calls
as there are units because it is `0` when the balance is; with a negative initial value the balance
is never `0` before the value has wrapped around, and the test `value == 0` stops nobody.

**Sleepers.** A process goes to sleep while the value is `0`. What makes the value positive
afterwards is `sem_signal_k`, which wakes everybody, `sem_init_k`, which does not, and `value--`
on the least `int`.

Main results: `sem_admission_iff` and `sem_sleepers_without_units`.
-/

open Function Int32 Transition

namespace Xv6

open Monitor

abbrev MAXSEM : ℕ := 32

/-- `struct semaphore`, less its spinlock, with the numbers of completed calls. -/
structure Semaphore where
  value : Int32
  waits : ℕ
  signals : ℕ
  deriving DecidableEq, Repr

namespace Semaphore

/-- `while(sem->value == 0)` and what follows the loop. -/
def test (_ : Unit) (sem : Semaphore) : Option Semaphore :=
  if sem.value = 0 then none
  else some { sem with value := sem.value - 1, waits := sem.waits + 1 }

theorem test_none {sem : Semaphore} : test () sem = none ↔ sem.value = 0 := by
  simp [test]

theorem test_some {sem sem' : Semaphore} : test () sem = some sem' ↔ sem.value ≠ 0 ∧
    { sem with value := sem.value - 1, waits := sem.waits + 1 } = sem' := by
  simp [test]

/-- A process holds nothing that the semaphore would know of. -/
def gain (_ : Unit) (_ : Unit) : Unit := ()

end Semaphore

/-- A semaphore and its clients; the only loop is that of `sem_wait_k`. -/
abbrev SemState (P : Type*) := Monitor.State P Semaphore Unit Unit

namespace SemState

variable {P : Type*}

/-! ## The functions of `semaphore.c` -/

def semInitK (value : Int32) (s : SemState P) : SemState P :=
  { s with shared := { s.shared with value } }

/-- `sem->value++` and `wakeup(sem)`. -/
def semSignalK (s : SemState P) : SemState P :=
  State.wakeup { s with shared :=
    { s.shared with value := s.shared.value + 1, signals := s.shared.signals + 1 } }

variable [DecidableEq P]

def attempt (p : P) (s : SemState P) : SemState P :=
  State.attempt Semaphore.test Semaphore.gain p () s

/-- `sem_wait_k`, up to its first `sleep` or to its end. -/
def semWaitK (p : P) (s : SemState P) : SemState P := attempt p (s.enter p ())

end SemState

/-! ## Runs of the semaphore table -/

/-- `sem_table`, with the clients of each semaphore. -/
abbrev SemTable (P : Type*) := Monitor.Table MAXSEM P Semaphore Unit Unit

/-- The events: `resume` is a process that has been woken and tests its loop again, `kill` the
wakeup of a sleeping process by `kill`. -/
inductive SemEvent (P : Type*)
  | init (p : P) (id : ℤ) (value : Int32)
  | wait (p : P) (id : ℤ)
  | signal (p : P) (id : ℤ)
  | resume (p : P) (l : Fin MAXSEM)
  | kill (p : P) (l : Fin MAXSEM)

namespace SemTable

variable {P : Type*}

/-- `sem_table_init`, before any process uses a semaphore. -/
def semTableInit : SemTable P := fun _ => ⟨⟨0, 0, 0⟩, fun _ => ⟨(), none⟩⟩

variable [DecidableEq P]

def step (e : SemEvent P) (t : SemTable P) : Option (SemTable P) :=
  match e with
  | .init p id value => t.sysCall p id (SemState.semInitK value)
  | .wait p id => t.sysCall p id (SemState.semWaitK p)
  | .signal p id => t.sysCall p id SemState.semSignalK
  | .resume p l => t.resume Semaphore.test Semaphore.gain p l
  | .kill p l => t.rouse p l

/-- The states of the table in runs whose steps all satisfy `ok`. -/
def ReachableBy (ok : SemEvent P → SemTable P → Prop) (t : SemTable P) : Prop :=
  Reaches step ok semTableInit t

def Reachable (t : SemTable P) : Prop := ReachableBy anyEvent t

/-! ## One semaphore in a step of the table -/

open SemState

variable {t t' : SemTable P} {e : SemEvent P} {l : Fin MAXSEM} {s s' : SemState P}

/-- What one step of the table can do to the semaphore `l`. -/
inductive Local (e : SemEvent P) (l : Fin MAXSEM) (s : SemState P) : SemState P → Prop
  | stays : Local e l s s
  | init {p v} : e = .init p l v → Local e l s (semInitK v s)
  | wait {p} : e = .wait p l → Local e l s (semWaitK p s)
  | signal : Local e l s (semSignalK s)
  | resume {p} : e = .resume p l → Local e l s (attempt p s)
  | kill {p} : Local e l s (s.rouse p)

theorem step_local (hs : step e t = some t') (l : Fin MAXSEM) : Local e l (t l) (t' l) := by
  cases e with
  | init p id v =>
    rcases Table.sysCall_cases hs l with he | ⟨rfl, -, he⟩
    · exact he ▸ .stays
    · exact he ▸ .init rfl
  | wait p id =>
    rcases Table.sysCall_cases hs l with he | ⟨rfl, -, he⟩
    · exact he ▸ .stays
    · exact he ▸ .wait rfl
  | signal p id =>
    rcases Table.sysCall_cases hs l with he | ⟨-, -, he⟩
    · exact he ▸ .stays
    · exact he ▸ .signal
  | resume p m =>
    rcases Table.resume_cases hs l with he | ⟨_, rfl, -, he⟩
    · exact he ▸ .stays
    · exact he ▸ .resume rfl
  | kill p m =>
    rcases Table.rouse_cases hs l with he | he
    · exact he ▸ .stays
    · exact he ▸ .kill

end SemTable

/-! ## Units -/

namespace SemState

variable {P : Type*} {s : SemState P} {v : ℤ} {w₀ s₀ : ℕ}

/-- **The value is the balance of the units** since the numbers of completed calls were `w₀` and
`s₀` and the value was `v`, and the balance has not become negative. -/
structure Balance (v : ℤ) (w₀ s₀ : ℕ) (sem : Semaphore) : Prop where
  value : sem.value.toInt = (v + (sem.signals - s₀) - (sem.waits - w₀)).bmod (2 ^ 32)
  nonneg : 0 ≤ v + (sem.signals - s₀) - (sem.waits - w₀)

theorem Balance.signal {sem : Semaphore} (h : Balance v w₀ s₀ sem) :
    Balance v w₀ s₀ { sem with value := sem.value + 1, signals := sem.signals + 1 } where
  value := by
    rw [toInt_add, h.value, Int.bmod_add_bmod, toInt_one]
    congr 1
    dsimp only
    omega
  nonneg := by
    have hnn := h.nonneg
    dsimp only
    omega

/-- A call that finds a value other than `0` finds a unit. -/
theorem Balance.test {sem sem' : Semaphore} (h : Balance v w₀ s₀ sem)
    (ht : Semaphore.test () sem = some sem') : Balance v w₀ s₀ sem' := by
  obtain ⟨hne, rfl⟩ := Semaphore.test_some.1 ht
  have hpos : v + (sem.signals - s₀) - (sem.waits - w₀) ≠ 0 := by
    intro h0
    have hv := h.value
    rw [h0] at hv
    exact hne (toInt_inj.1 hv)
  refine ⟨?_, ?_⟩
  · rw [toInt_sub, h.value, Int.bmod_sub_bmod, toInt_one]
    congr 1
    dsimp only
    omega
  · have hnn := h.nonneg
    dsimp only
    omega

variable [DecidableEq P]

theorem Balance.attempt {p : P} (h : Balance v w₀ s₀ s.shared) :
    Balance v w₀ s₀ (attempt p s).shared := by
  cases ht : Semaphore.test () s.shared with
  | none => rw [SemState.attempt, State.attempt_of_none ht]; exact h
  | some sem => rw [SemState.attempt, State.attempt_of_some ht]; exact h.test ht

end SemState

namespace SemTable

open SemState

variable {P : Type*} [DecidableEq P] {t t' : SemTable P} {e : SemEvent P} {l : Fin MAXSEM}
  {s s' : SemState P} {v : ℤ} {w₀ s₀ : ℕ}

/-- The semaphore `l` is not initialised. -/
def noInit (l : Fin MAXSEM) (e : SemEvent P) (_ : SemTable P) : Prop :=
  match e with
  | .init _ id _ => id ≠ l
  | _ => True

instance (l : Fin MAXSEM) (e : SemEvent P) (t : SemTable P) : Decidable (noInit l e t) := by
  cases e <;> unfold noInit <;> infer_instance

/-- A step that does not initialise the semaphore keeps the balance. -/
theorem Local.balance (hl : Local e l (t l) s') (he : noInit l e t)
    (h : Balance v w₀ s₀ (t l).shared) : Balance v w₀ s₀ s'.shared := by
  cases hl with
  | stays => exact h
  | init hi => subst hi; exact absurd rfl he
  | wait _ =>
    refine Balance.attempt ?_
    exact h
  | signal => exact h.signal
  | resume _ => exact h.attempt
  | kill => exact h

theorem balance_of_run {t0 t1 t2 : SemTable P} {p : P} {v : Int32} (hv : 0 ≤ v)
    (hi : step (.init p l v) t0 = some t1)
    (hr : Reaches step (noInit l) t1 t2) :
    Balance v.toInt (t1 l).shared.waits (t1 l).shared.signals (t2 l).shared := by
  refine hr.invariant (I := fun t : SemTable P => Balance v.toInt (t1 l).shared.waits
    (t1 l).shared.signals (t l).shared) ?_ fun _ _ _ h he hs => (step_local hs l).balance he h
  have hval : (t1 l).shared.value = v := by
    obtain ⟨-, he⟩ := Option.ite_none_right_eq_some.1 hi
    cases he
    rw [Table.onEntry_coe, update_self]
    rfl
  have hnn : 0 ≤ v.toInt := le_iff_toInt_le.1 hv
  have hlt := v.toInt_lt
  refine ⟨?_, by omega⟩
  rw [hval, Int.bmod_eq_of_le (by omega) (by omega)]
  omega

/-- **A semaphore admits as many calls as it has units, exactly if it starts with a value that is
not negative.** After `sem_init(l, v)`, in every interleaving of `sem_wait` and `sem_signal`, the
number of completed `sem_wait` calls is at most `max(v, 0)` plus that of the completed
`sem_signal` calls. -/
theorem sem_admission_iff {P : Type*} [DecidableEq P] [Inhabited P] (l : Fin MAXSEM) (v : Int32) :
    (∀ (t₀ t₁ t₂ : SemTable P) (p : P), Reachable t₀ → step (.init p l v) t₀ = some t₁ →
      Reaches step (noInit l) t₁ t₂ →
      (t₂ l).shared.signals - (t₁ l).shared.signals < 2 ^ 31 →
      ((t₂ l).shared.waits - (t₁ l).shared.waits : ℤ) ≤
        max v.toInt 0 + ((t₂ l).shared.signals - (t₁ l).shared.signals)) ↔ 0 ≤ v := by
  constructor
  · intro h
    by_contra hv
    -- one call of `sem_wait` right after `sem_init` completes
    have hne : v ≠ 0 := by rintro rfl; exact hv (by decide)
    have hneg : v.toInt < 0 := by
      rw [le_iff_toInt_le] at hv
      exact not_le.1 hv
    let t₁ : SemTable P := update semTableInit l (semInitK v (semTableInit l))
    let t₂ : SemTable P := update t₁ l (semWaitK default (t₁ l))
    have hout : ∀ p, Table.Outside (semTableInit : SemTable P) p := fun p m => rfl
    have hclient : ∀ m, (t₁ m).client = (semTableInit m : SemState P).client := by
      intro m
      by_cases hm : m = l
      · subst hm; simp only [t₁, update_self]; rfl
      · simp only [t₁, update_of_ne hm]
    have hout1 : ∀ p, Table.Outside t₁ p := fun p m => by rw [hclient]; rfl
    have h1 : step (.init default l v) semTableInit = some t₁ := by
      rw [step, Table.sysCall, if_pos (hout _), Table.onEntry_coe]
    have h2 : step (.wait default l) t₁ = some t₂ := by
      rw [step, Table.sysCall, if_pos (hout1 _), Table.onEntry_coe]
    have hval : (t₁ l).shared = ⟨v, 0, 0⟩ := by simp only [t₁, update_self]; rfl
    have htest : Semaphore.test () ((t₁ l).enter default ()).shared = some ⟨v - 1, 1, 0⟩ := by
      refine Semaphore.test_some.2 ?_
      simp only [State.enter, State.shared_put, hval]
      exact ⟨hne, trivial⟩
    have hend : (t₂ l).shared = ⟨v - 1, 1, 0⟩ := by
      simp only [t₂, update_self, semWaitK, SemState.attempt]
      rw [State.attempt_of_some htest, State.shared_put]
    have hbound := h semTableInit t₁ t₂ default (.refl _) h1
      (.tail (a := .wait default l) (.refl _) trivial h2) (by rw [hend, hval]; simp)
    rw [hend, hval] at hbound
    simp only [max_eq_right hneg.le] at hbound
    omega
  · intro hv t₀ t₁ t₂ p _ hi hr _
    have hb := (balance_of_run hv hi hr).nonneg
    have hnn : 0 ≤ v.toInt := le_iff_toInt_le.1 hv
    rw [max_eq_left hnn]
    omega

/-- A semaphore that starts with `-1` lets the first `sem_wait` through. -/
theorem sem_wait_without_unit :
    ∃ t₁ t₂ : SemTable (Fin 1), step (.init 0 0 (-1)) semTableInit = some t₁ ∧
      Reaches step (noInit 0) t₁ t₂ ∧
      ¬ ((t₂ 0).shared.waits - (t₁ 0).shared.waits : ℤ) ≤
        max (-1 : Int32).toInt 0 + ((t₂ 0).shared.signals - (t₁ 0).shared.signals) := by
  have hrun : (step (.init (0 : Fin 1) 0 (-1)) semTableInit).any (fun t₁ =>
      (run step (noInit 0) [.wait 0 0] t₁).any fun t₂ => decide
        (¬ ((t₂ 0).shared.waits - (t₁ 0).shared.waits : ℤ) ≤
          max (-1 : Int32).toInt 0 + ((t₂ 0).shared.signals - (t₁ 0).shared.signals))) = true := by
    decide +kernel
  obtain ⟨t₁, h1, hrest⟩ := (Option.any_eq_true _ _).1 hrun
  obtain ⟨t₂, h2, hmore⟩ := exists_reaches_of_run hrest
  exact ⟨t₁, t₂, h1, h2, hmore⟩

/-! ## Sleepers -/

/-- Some process sleeps on the semaphore. -/
def Slept (s : SemState P) : Prop := ∃ p, s.Asleep p ()

/-- The step does not make the value of a semaphore that is slept on positive without a
`wakeup`. -/
def Wakes (e : SemEvent P) (t : SemTable P) : Prop :=
  match e with
  | .init _ id v => ∀ l : Fin MAXSEM, id = l → 0 < v → ¬ Slept (t l)
  | .wait _ id => ∀ l : Fin MAXSEM, id = l → (t l).shared.value = minValue → ¬ Slept (t l)
  | .resume _ l => (t l).shared.value = minValue → ¬ Slept (t l)
  | _ => True

instance [Fintype P] (s : SemState P) : Decidable (Slept s) := by
  unfold Slept; infer_instance

instance [Fintype P] (e : SemEvent P) (t : SemTable P) : Decidable (Wakes e t) := by
  cases e <;> unfold Wakes <;> infer_instance

/-- Nobody sleeps on a semaphore with units. -/
def Idle (s : SemState P) : Prop := 0 < s.shared.value → ¬ Slept s

/-- Only the least `int` becomes positive by `value--`. -/
theorem pos_of_sub_one {v : Int32} (h : 0 < v - 1) : 0 < v ∨ v = minValue := by
  by_cases hmin : v = minValue
  · exact .inr hmin
  · left
    have hlo := v.le_toInt
    have hhi := v.toInt_lt
    have hne : v.toInt ≠ -2 ^ 31 := fun he => hmin (toInt_inj.1 he)
    rw [lt_iff_toInt_lt, toInt_sub, toInt_one, Int.bmod_eq_of_le (by omega) (by omega)] at h
    rw [lt_iff_toInt_lt]
    have h0 : (0 : Int32).toInt = 0 := rfl
    omega

omit [DecidableEq P] in
theorem idle_wakeup (s : SemState P) : Idle s.wakeup :=
  fun _ ⟨_, hp⟩ => State.not_asleep_wakeup hp

/-- One test of the loop: to go to sleep the value must be `0`. -/
theorem Idle.attempt {p : P} (h : Idle s)
    (hmin : s.shared.value = minValue → ¬ Slept s) : Idle (attempt p s) := by
  cases ht : Semaphore.test () s.shared with
  | none =>
    intro hpos
    rw [SemState.attempt, State.attempt_of_none ht] at hpos
    rw [State.shared_put, Semaphore.test_none.1 ht] at hpos
    cases hpos
  | some sem =>
    obtain ⟨-, rfl⟩ := Semaphore.test_some.1 ht
    intro hpos
    rw [SemState.attempt, State.attempt_of_some ht] at hpos ⊢
    have hold : ¬ Slept s := (pos_of_sub_one hpos).elim h hmin
    rintro ⟨q, hq⟩
    exact State.asleep_put (by simp) (fun r _ hr => hold ⟨r, hr⟩) q hq

theorem Idle.put {p : P} {c : Client Unit Unit} (h : Idle s) (hc : c.call ≠ some ((), true)) :
    Idle (s.put p s.shared c) := by
  rintro hpos ⟨q, hq⟩
  exact State.asleep_put (fun hp => absurd hp hc) (fun r _ hr => h hpos ⟨r, hr⟩) q hq

theorem slept_enter {p : P} (h : ¬ Slept s) : ¬ Slept (s.enter p ()) := by
  rintro ⟨q, hq⟩
  exact State.asleep_put (by simp) (fun r _ hr => h ⟨r, hr⟩) q hq

/-- A step that wakes the sleepers where it must keeps sleepers away from units. -/
theorem Local.idle (hl : Local e l (t l) s') (h : Idle (t l)) (hw : Wakes e t) : Idle s' := by
  cases hl with
  | stays => exact h
  | init he => subst he; exact hw l rfl
  | wait he =>
    subst he
    exact (h.put (by simp)).attempt fun hmin => slept_enter (hw l rfl hmin)
  | signal => exact idle_wakeup _
  | resume he => subst he; exact h.attempt hw
  | kill => exact h.put (by simp [Client.wake])

/-- **Nobody sleeps on a semaphore with units** in runs whose `sem_init` calls do not give units to
a semaphore that is slept on, and whose `sem_wait` calls do not wrap its value around. -/
theorem sem_sleepers_without_units {P : Type*} [DecidableEq P] (t : SemTable P)
    (h : ReachableBy Wakes t) (l : Fin MAXSEM) (hpos : 0 < (t l).shared.value) (p : P) :
    ¬ (t l).Asleep p () := by
  intro hp
  refine h.invariant (I := fun t : SemTable P => ∀ l, Idle (t l)) ?_ ?_ l hpos ⟨p, hp⟩
  · intro l h0
    cases h0
  · intro e t t' hi hw hs l
    exact (step_local hs l).idle (hi l) hw

/-- A unit comes by `sem_signal`: the sleeper is woken. -/
theorem sem_sleepers_without_units_after_signal :
    ∃ t : SemTable (Fin 2), ReachableBy Wakes t ∧ 0 < (t 0).shared.value ∧
      (t 0).Inside 0 () ∧ ¬ (t 0).Asleep 0 () := by
  have hrun : (run step Wakes [.wait (0 : Fin 2) 0, .signal 1 0]
      semTableInit).any (fun t => decide (0 < (t 0).shared.value ∧ (t 0).Inside 0 ())) = true := by
    decide +kernel
  obtain ⟨t, ht, hpos, hin⟩ := exists_reaches_of_run hrun
  exact ⟨t, ht, hpos, hin, sem_sleepers_without_units t ht 0 hpos 0⟩

/-- A unit comes by `sem_init`: the sleeper stays asleep. -/
theorem sem_sleeper_beside_unit :
    ∃ t : SemTable (Fin 2), Reachable t ∧ 0 < (t 0).shared.value ∧ (t 0).Asleep 0 () := by
  have hrun : (run step anyEvent [.wait (0 : Fin 2) 0, .init 1 0 1]
      semTableInit).any (fun t => decide (0 < (t 0).shared.value ∧ (t 0).Asleep 0 ())) = true := by
    decide +kernel
  exact exists_reaches_of_run hrun

end SemTable

end Xv6
