import Mathlib.Tactic.Common

/-!
# Weakest preconditions for programs with state and errors

Programs are computations in `StateT σ (Except ε)`. `Wp m post err s` says of a program `m` that
starts in the state `s`: if it returns `a`, the state it leaves satisfies `post a`; if it stops with an
error, `err` holds of the error. An error leaves no state behind.

There is one rule for each way to build a program, and one for loops over lists. The specification of
a program gives `Wp` from what is known about `s`, and is used through `Wp.bind` by its callers.
-/

variable {σ α β : Type} {ε ι : Type*}

/-- From the state `s` the program `m` leads to `post`, or stops with an error of `err`. -/
def Wp (m : StateT σ (Except ε) α) (post : α → σ → Prop) (err : ε → Prop) (s : σ) : Prop :=
  match m.run s with
  | .ok (a, s') => post a s'
  | .error e => err e

namespace Wp

variable {m m' : StateT σ (Except ε) α} {post post' : α → σ → Prop} {err err' : ε → Prop}
  {f : α → StateT σ (Except ε) β} {post2 : β → σ → Prop} {s t : σ}

theorem of_run {a : α} (hm : m.run s = .ok (a, t)) (h : post a t) : Wp m post err s := by
  unfold Wp
  rw [hm]
  exact h

theorem post_of_run {a : α} (h : Wp m post err s) (hm : m.run s = .ok (a, t)) : post a t := by
  unfold Wp at h
  rwa [hm] at h

theorem err_of_run {e : ε} (h : Wp m post err s) (hm : m.run s = .error e) : err e := by
  unfold Wp at h
  rwa [hm] at h

theorem exists_run (h : Wp m post (fun _ => False) s) : ∃ a t, m.run s = .ok (a, t) ∧ post a t := by
  cases hm : m.run s with
  | error e => exact (h.err_of_run hm).elim
  | ok r => exact ⟨r.1, r.2, rfl, h.post_of_run hm⟩

section

variable (h : Wp m post err s)

include h

/-- The value that a program returns can be computed without its state. -/
theorem exists_of_value {a : α} (hm : (m.run s).toOption.map Prod.fst = some a) :
    ∃ t, m.run s = .ok (a, t) ∧ post a t := by
  cases hrun : m.run s with
  | error e =>
    rw [hrun] at hm
    contradiction
  | ok r =>
    rw [hrun] at hm
    obtain rfl : r.1 = a := Option.some.inj hm
    exact ⟨r.2, rfl, h.post_of_run hrun⟩

/-! ## Consequence -/

theorem mono (hpost : ∀ a t, post a t → post' a t) : Wp m post' err s := by
  unfold Wp at h ⊢
  revert h
  cases m.run s with
  | error e => exact id
  | ok r => exact hpost _ _

theorem mono_err (herr : ∀ e, err e → err' e) : Wp m post err' s := by
  unfold Wp at h ⊢
  revert h
  cases m.run s with
  | error e => exact herr e
  | ok r => exact id

/-- Two specifications of one program, the second of what it does if it returns. -/
theorem and (h' : Wp m post' (fun _ => True) s) : Wp m (fun a t => post a t ∧ post' a t) err s := by
  unfold Wp at h h' ⊢
  revert h h'
  cases m.run s with
  | error e => exact fun h _ => h
  | ok r => exact And.intro

end

/-! ## Programs -/

theorem pure {a : α} (h : post a s) : Wp (Pure.pure a) post err s := h

theorem bind {q : α → σ → Prop} (hm : Wp m q err s)
    (hf : ∀ a t, q a t → Wp (f a) post2 err t) : Wp (m >>= f) post2 err s := by
  unfold Wp at hm
  show match (m.run s >>= fun p => (f p.1).run p.2 : Except ε (β × σ)) with
    | .ok (a, s') => post2 a s'
    | .error e => err e
  revert hm
  cases m.run s with
  | error e => exact id
  | ok r => exact hf _ _

theorem run_bind_eq {a : α} (hm : m.run s = .ok (a, t)) : (m >>= f).run s = (f a).run t := by
  show (m.run s >>= fun p => (f p.1).run p.2 : Except ε (β × σ)) = _
  rw [hm]
  rfl

theorem run_bind_error {e : ε} (hm : m.run s = .error e) : (m >>= f).run s = .error e := by
  show (m.run s >>= fun p => (f p.1).run p.2 : Except ε (β × σ)) = _
  rw [hm]
  rfl

theorem run_bind {a : α} (hm : m.run s = .ok (a, t)) (hf : Wp (f a) post2 err t) :
    Wp (m >>= f) post2 err s := by
  unfold Wp
  rw [run_bind_eq hm]
  exact hf

theorem run_bind_err {e : ε} (hm : m.run s = .error e) (he : err e) : Wp (m >>= f) post2 err s := by
  unfold Wp
  rw [run_bind_error hm]
  exact he

theorem throw {e : ε} (h : err e) : Wp (MonadExcept.throw e : StateT σ (Except ε) α) post err s := h

theorem get_bind {f : σ → StateT σ (Except ε) β} (h : Wp (f s) post2 err s) :
    Wp (get >>= f) post2 err s := h

theorem set_bind {f : PUnit → StateT σ (Except ε) β} (h : Wp (f ⟨⟩) post2 err t) :
    Wp (set t >>= f) post2 err s := h

theorem set {post : PUnit → σ → Prop} (h : post ⟨⟩ t) :
    Wp (set t : StateT σ (Except ε) PUnit) post err s := h

theorem modify_bind {g : σ → σ} {f : PUnit → StateT σ (Except ε) β}
    (h : Wp (f ⟨⟩) post2 err (g s)) : Wp (modify g >>= f) post2 err s := h

theorem modify {g : σ → σ} {post : PUnit → σ → Prop} (h : post ⟨⟩ (g s)) :
    Wp (modify g : StateT σ (Except ε) PUnit) post err s := h

theorem ite {c : Prop} [Decidable c] (ht : c → Wp m post err s) (hf : ¬ c → Wp m' post err s) :
    Wp (if c then m else m') post err s := by
  split_ifs with hc
  exacts [ht hc, hf hc]

/-- A loop over a list: `I` is indexed by the elements that are left. -/
theorem forM {I : List ι → σ → Prop} {body : ι → StateT σ (Except ε) PUnit}
    (h : ∀ x xs s, I (x :: xs) s → Wp (body x) (fun _ => I xs) err s) (xs : List ι)
    (hs : I xs s) : Wp (xs.forM body) (fun _ => I []) err s := by
  induction xs generalizing s with
  | nil => exact pure hs
  | cons x xs ih => exact (h x xs s hs).bind fun _ t ht => ih ht

/-- A loop over the numbers below `n`: `I` is indexed by the next number. -/
theorem forM_range {I : ℕ → σ → Prop} {body : ℕ → StateT σ (Except ε) PUnit} (n : ℕ)
    (h : ∀ k < n, ∀ s, I k s → Wp (body k) (fun _ => I (k + 1)) err s) (hs : I 0 s) :
    Wp ((List.range n).forM body) (fun _ => I n) err s := by
  induction n with
  | zero => exact pure hs
  | succ n ih =>
    rw [List.range_succ, List.forM_eq_forM, List.forM_append]
    refine (ih fun k hk => h k (by omega)).bind fun _ t ht => ?_
    exact (h n (by omega) t ht).bind fun _ _ h' => pure h'

end Wp

-- From here on programs are taken apart by the rules above only.
attribute [irreducible] Wp
