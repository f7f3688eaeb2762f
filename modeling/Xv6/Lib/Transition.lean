import Mathlib.Data.List.Basic

/-!
# Labelled transition systems with a partial step function

A system is a function `step : ℓ → σ → Option σ`: in state `s` the event `a` leads to the state
`step a s`, or cannot happen (`none`). Everything that is said about whole runs is said through
`Reaches`, the closure of the steps that satisfy a side condition `ok` on the event and the
state it happens in. The rule everything rests on is `Reaches.invariant`. `run` executes a list
of events, so that a concrete trace gives a reachable state by evaluation (`run_reaches`).
-/

open List Option

namespace Transition

variable {σ ℓ : Type*}

/-- `t` is reached from `s` by steps that all satisfy `ok`. -/
inductive Reaches (step : ℓ → σ → Option σ) (ok : ℓ → σ → Prop) : σ → σ → Prop
  | refl (s : σ) : Reaches step ok s s
  | tail {s t u : σ} {a : ℓ} :
      Reaches step ok s t → ok a t → step a t = some u → Reaches step ok s u

/-- The side condition of plain reachability. -/
def anyEvent (_ : ℓ) (_ : σ) : Prop := True

variable {step : ℓ → σ → Option σ} {ok ok' : ℓ → σ → Prop} {s t u : σ}

/-- **The invariant rule.** -/
theorem Reaches.invariant {I : σ → Prop} (h : Reaches step ok s t) (h0 : I s)
    (hstep : ∀ a t u, I t → ok a t → step a t = some u → I u) : I t := by
  induction h with
  | refl => exact h0
  | tail _ hok hs ih => exact hstep _ _ _ ih hok hs

theorem Reaches.trans (h : Reaches step ok s t) (h' : Reaches step ok t u) :
    Reaches step ok s u := by
  induction h' with
  | refl => exact h
  | tail _ hok hs ih => exact .tail ih hok hs

/-- A run under a side condition is a run under every weaker one. -/
theorem Reaches.mono (h : Reaches step ok s t) (hle : ∀ a s, ok a s → ok' a s) :
    Reaches step ok' s t := by
  induction h with
  | refl => exact .refl _
  | tail _ hok hs ih => exact .tail ih (hle _ _ hok) hs

theorem of_guard {c : Prop} [Decidable c] (h : (if c then some s else none) = some t) :
    c ∧ s = t := by
  obtain ⟨hc, h⟩ := ite_none_right_eq_some.mp h
  exact ⟨hc, some.inj h⟩

/-! ## Executing a trace -/

section

variable [∀ a s, Decidable (ok a s)]

/-- Execute the events of a list in order, as long as they meet the side condition. -/
def run (step : ℓ → σ → Option σ) (ok : ℓ → σ → Prop) [∀ a s, Decidable (ok a s)] :
    List ℓ → σ → Option σ
  | [], s => some s
  | a :: as, s => if ok a s then (step a s).bind (run step ok as) else none

theorem run_reaches {as : List ℓ} (h : run step ok as s = some t) : Reaches step ok s t := by
  induction as generalizing s with
  | nil =>
    simp only [run, some.injEq] at h
    exact h ▸ .refl s
  | cons a as ih =>
    simp only [run, ite_none_right_eq_some, bind_eq_some_iff] at h
    obtain ⟨hok, s', hs, hr⟩ := h
    exact (Reaches.tail (.refl s) hok hs).trans (ih hr)

/-- A trace that ends in a state where `p` holds gives a reachable one. -/
theorem exists_reaches_of_run {as : List ℓ} {p : σ → Prop} [DecidablePred p]
    (h : (run step ok as s).any (fun t => decide (p t)) = true) : ∃ t, Reaches step ok s t ∧ p t := by
  cases hr : run step ok as s with
  | none => simp [hr] at h
  | some t => exact ⟨t, run_reaches hr, by simpa [hr] using h⟩

end

instance (a : ℓ) (s : σ) : Decidable (anyEvent a s) := .isTrue trivial

/-! ## Loops -/

/-- A loop over a list relates its start to its end by every reflexive and transitive relation
that its body keeps. -/
theorem foldlM_rel {α : Type*} {R : σ → σ → Prop} {f : σ → α → Option σ} (hrefl : ∀ s, R s s)
    (htrans : ∀ {s t u}, R s t → R t u → R s u) (h : ∀ s x t, f s x = some t → R s t)
    (xs : List α) (s t : σ) (he : xs.foldlM f s = some t) : R s t := by
  induction xs generalizing s with
  | nil =>
    obtain rfl := some.inj he
    exact hrefl s
  | cons x xs ih =>
    rw [foldlM_cons, bind_eq_bind, bind_eq_some_iff] at he
    obtain ⟨u, hu, hr⟩ := he
    exact htrans (h s x u hu) (ih u hr)

/-- The body of a loop is executed for each member of the list. -/
theorem foldlM_mem {α : Type*} {R : σ → σ → Prop} {f : σ → α → Option σ} (hrefl : ∀ s, R s s)
    (htrans : ∀ {s t u}, R s t → R t u → R s u) (h : ∀ s x t, f s x = some t → R s t)
    {xs : List α} {x : α} (hx : x ∈ xs) (he : xs.foldlM f s = some t) :
    ∃ s1 s2, R s s1 ∧ f s1 x = some s2 ∧ R s2 t := by
  obtain ⟨before, after, rfl⟩ := append_of_mem hx
  simp only [foldlM_append, foldlM_cons, bind_eq_bind, bind_eq_some_iff] at he
  obtain ⟨s1, h1, s2, h2, h3⟩ := he
  exact ⟨s1, s2, foldlM_rel hrefl htrans h _ _ _ h1, h2, foldlM_rel hrefl htrans h _ _ _ h3⟩

/-- A loop succeeds if its body does wherever the invariant holds, and keeps it. -/
theorem foldlM_succeeds {α : Type*} {I : σ → Prop} {f : σ → α → Option σ}
    (h : ∀ s x, I s → ∃ t, f s x = some t ∧ I t) (xs : List α) (hs : I s) :
    ∃ t, xs.foldlM f s = some t ∧ I t := by
  induction xs generalizing s with
  | nil => exact ⟨s, rfl, hs⟩
  | cons x xs ih =>
    obtain ⟨u, hu, hiu⟩ := h s x hs
    obtain ⟨t, ht, hit⟩ := ih hiu
    exact ⟨t, by rw [foldlM_cons, hu]; exact ht, hit⟩

/-- A loop that can fail, seen through a projection on which its body is a function. -/
theorem foldlM_project {α β : Type*} {I : σ → Prop} {f : σ → α → Option σ} {π : σ → β}
    {g : β → α → β} (h : ∀ s x t, I s → f s x = some t → I t ∧ π t = g (π s) x)
    {xs : List α} (hs : I s) (he : xs.foldlM f s = some t) : π t = xs.foldl g (π s) := by
  induction xs generalizing s with
  | nil =>
    cases he
    rfl
  | cons x xs ih =>
    rw [foldlM_cons, bind_eq_bind, bind_eq_some_iff] at he
    obtain ⟨u, hu, hr⟩ := he
    obtain ⟨hiu, hπ⟩ := h s x u hs hu
    rw [foldl_cons, ← hπ]
    exact ih hiu hr

/-! ## Steps with outputs, and forward simulation -/

variable {τ o : Type*}

/-- Execute the events of a list in order and collect what they return. -/
def runOut (step : ℓ → σ → Option (o × σ)) : List ℓ → σ → Option (List o × σ)
  | [], s => some ([], s)
  | a :: as, s => do
    let (x, s) ← step a s
    let (xs, s) ← runOut step as s
    some (x :: xs, s)

section

variable {step : ℓ → σ → Option (o × σ)}

/-- Inversion of a run with outputs at its first event. -/
theorem runOut_cons {e : ℓ} {es : List ℓ} {xs : List o}
    (h : runOut step (e :: es) s = some (xs, t)) :
    ∃ x u ys, step e s = some (x, u) ∧ runOut step es u = some (ys, t) ∧ xs = x :: ys := by
  simp only [runOut, bind_eq_bind, bind_eq_some_iff, Prod.exists, some.injEq, Prod.mk.injEq] at h
  obtain ⟨x, u, hstep, ys, t', hrun, hxs, rfl⟩ := h
  exact ⟨x, u, ys, hstep, hrun, hxs.symm⟩

/-- A run over two lists of events is a run over the first and then one over the second. -/
theorem runOut_append {es fs : List ℓ} {xs : List o} (h : runOut step (es ++ fs) s = some (xs, t)) :
    ∃ ys u zs, runOut step es s = some (ys, u) ∧ runOut step fs u = some (zs, t) ∧
      xs = ys ++ zs := by
  induction es generalizing s xs with
  | nil => exact ⟨[], s, xs, rfl, h, rfl⟩
  | cons e es ih =>
    obtain ⟨x, s1, ws, hstep, hrun, rfl⟩ := runOut_cons h
    obtain ⟨ys, u, zs, hys, hzs, rfl⟩ := ih hrun
    exact ⟨x :: ys, u, zs, by simp [runOut, hstep, hys], hzs, rfl⟩

/-- **The invariant rule for runs with outputs.** -/
theorem runOut_invariant {I : σ → Prop} {es : List ℓ} {xs : List o}
    (hstep : ∀ e s x t, I s → step e s = some (x, t) → I t) (hs : I s)
    (h : runOut step es s = some (xs, t)) : I t := by
  induction es generalizing s xs with
  | nil =>
    simp only [runOut, some.injEq, Prod.mk.injEq] at h
    exact h.2 ▸ hs
  | cons e es ih =>
    obtain ⟨x, u, ys, hu, hrun, -⟩ := runOut_cons h
    exact ih (hstep e s x u hs hu) hrun

end

/-- **Forward simulation.** If every step of the abstract system is matched by a step of the
concrete one with the same output, so is every run. -/
theorem runOut_simulates {step : ℓ → σ → Option (o × σ)} {astep : ℓ → τ → Option (o × τ)}
    {R : σ → τ → Prop}
    (hstep : ∀ e s a x a', R s a → astep e a = some (x, a') →
      ∃ s', step e s = some (x, s') ∧ R s' a')
    (es : List ℓ) (s : σ) (a : τ) (xs : List o) (a' : τ) (hR : R s a)
    (h : runOut astep es a = some (xs, a')) :
    ∃ s', runOut step es s = some (xs, s') ∧ R s' a' := by
  induction es generalizing s a xs with
  | nil =>
    simp only [runOut, some.injEq, Prod.mk.injEq] at h
    obtain ⟨rfl, rfl⟩ := h
    exact ⟨s, rfl, hR⟩
  | cons e es ih =>
    obtain ⟨x, a1, ys, h1, h2, rfl⟩ := runOut_cons h
    obtain ⟨s1, hs1, hR1⟩ := hstep e s a x a1 hR h1
    obtain ⟨s2, hs2, hR2⟩ := ih s1 a1 ys hR1 h2
    exact ⟨s2, by simp [runOut, hs1, hs2], hR2⟩

end Transition
