import Mathlib.Data.List.Basic

/-!
# Data behind a control state

A state with two parts: a control part `C` (which locks are held, whether interrupts are
enabled) and the data `D` the program is about. Code that brackets its accesses to the data
with operations on the control part can be read twice: as a program that moves the control part
from `P` to `Q`, and, forgetting the control part, as a plain function on the data.

`Acts P Q f F` says both at once: from every control state in `P`, the program `f` succeeds
exactly when the data function `F` does, with the result of `F` as data and a control state in
`Q`. The rules follow the shape of programs: sequencing, tests, loops over a list.
-/

/-- A state with a control part and a data part. -/
structure Guarded (C D : Type*) where
  ctl : C
  data : D

namespace Guarded

variable {C D α : Type*}

/-- Run a data function, leaving the control part alone. -/
def onData (F : D → Option D) (k : Guarded C D) : Option (Guarded C D) :=
  (F k.data).map fun d => ⟨k.ctl, d⟩

/-- Run a control function, leaving the data alone. -/
def onCtl (f : C → Option C) (k : Guarded C D) : Option (Guarded C D) :=
  (f k.ctl).map fun c => ⟨c, k.data⟩

/-- `f` takes control states in `P` to control states in `Q` and acts on the data as `F`. -/
def Acts (P Q : C → Prop) (f : Guarded C D → Option (Guarded C D)) (F : D → Option D) : Prop :=
  ∀ k, P k.ctl → ∃ c, Q c ∧ f k = (F k.data).map fun d => ⟨c, d⟩

variable {P Q R : C → Prop} {f g : Guarded C D → Option (Guarded C D)} {F G : D → Option D}

theorem Acts.elim (h : Acts P Q f F) {k k' : Guarded C D} (hk : P k.ctl) (hf : f k = some k') :
    Q k'.ctl ∧ F k.data = some k'.data := by
  obtain ⟨c, hc, he⟩ := h k hk
  rw [he, Option.map_eq_some_iff] at hf
  obtain ⟨d, hd, rfl⟩ := hf
  exact ⟨hc, hd⟩

theorem acts_some : Acts P P (some : Guarded C D → _) some :=
  fun k hk => ⟨k.ctl, hk, rfl⟩

theorem acts_onData (F : D → Option D) : Acts P P (onData F) F :=
  fun k hk => ⟨k.ctl, hk, rfl⟩

theorem acts_onCtl {f : C → Option C} (h : ∀ c, P c → ∃ c', Q c' ∧ f c = some c') :
    Acts P Q (onCtl f) (some : D → Option D) := by
  intro k hk
  obtain ⟨c', hc', he⟩ := h k.ctl hk
  exact ⟨c', hc', by simp [onCtl, he]⟩

/-- **Sequencing.** -/
theorem Acts.bind (hf : Acts P Q f F) (hg : Acts Q R g G) :
    Acts P R (fun k => f k >>= g) (fun d => F d >>= G) := by
  intro k hk
  obtain ⟨c, hc, he⟩ := hf k hk
  cases hF : F k.data with
  | none =>
    obtain ⟨c', hc', -⟩ := hg ⟨c, k.data⟩ hc
    exact ⟨c', hc', by simp [he, hF]⟩
  | some d =>
    obtain ⟨c', hc', he'⟩ := hg ⟨c, d⟩ hc
    exact ⟨c', hc', by simp [he, hF, he']⟩

theorem Acts.ctl_bind (hf : Acts P Q f (some : D → Option D)) (hg : Acts Q R g G) :
    Acts P R (fun k => f k >>= g) G := hf.bind hg

theorem Acts.bind_ctl (hf : Acts P Q f F) (hg : Acts Q R g (some : D → Option D)) :
    Acts P R (fun k => f k >>= g) F := by
  have h := hf.bind hg
  simpa using h

/-- **Tests** read the data. -/
theorem Acts.ite {p : D → Prop} [DecidablePred p] (hf : Acts P Q f F) (hg : Acts P Q g G) :
    Acts P Q (fun k => if p k.data then f k else g k) (fun d => if p d then F d else G d) := by
  intro k hk
  by_cases hp : p k.data
  · simpa only [if_pos hp] using hf k hk
  · simpa only [if_neg hp] using hg k hk

theorem Acts.param {f : α → Guarded C D → Option (Guarded C D)} {F : α → D → Option D}
    (h : ∀ x, Acts P Q (f x) (F x)) (g : D → α) :
    Acts P Q (fun k => f (g k.data) k) (fun d => F (g d) d) :=
  fun k hk => h (g k.data) k hk

/-- **Loops** over a fixed list. -/
theorem Acts.foldlM {f : Guarded C D → α → Option (Guarded C D)} {F : D → α → Option D}
    (h : ∀ x, Acts P P (f · x) (F · x)) (xs : List α) :
    Acts P P (fun k => xs.foldlM f k) (fun d => xs.foldlM F d) := by
  induction xs with
  | nil => exact acts_some
  | cons x xs ih =>
    simp only [List.foldlM_cons]
    exact (h x).bind ih

end Guarded
