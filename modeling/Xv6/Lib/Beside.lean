import Xv6.Lib.Wp

/-!
# Programs that keep something beside the state

A program with the state `σ` does not say who holds which lock, or how many blocks have been logged.
A second program, with the state `σ × γ`, keeps account of it, and may stop with errors of its own.
`Follows` says that it does what the first one does, and what it leaves in `γ`. `Tracks` adds a
postcondition of the first one: the two are proved together, as the second program may need what is
known about the state.
-/

variable {σ γ α β : Type} {ε δ : Type*}

/-- The result of a program, with what stands beside the state afterwards. -/
def beside (l : α → γ) : Except ε (α × σ) → Except (ε ⊕ δ) (α × σ × γ)
  | .ok (a, s) => .ok (a, s, l a)
  | .error e => .error (.inl e)

/-- A program that does not look beside the state. -/
def liftBeside (m : StateT σ (Except ε) α) : StateT (σ × γ) (Except (ε ⊕ δ)) α :=
  fun x => beside (fun _ => x.2) (m.run x.1)

/-- **From the state `s`, with `l` beside it, `m'` does what `m` does**, and `l'` stands beside the
result. -/
def Follows (m' : StateT (σ × γ) (Except (ε ⊕ δ)) α) (m : StateT σ (Except ε) α) (l : γ) (l' : α → γ)
    (s : σ) : Prop :=
  m'.run (s, l) = beside l' (m.run s)

variable {m n : StateT σ (Except ε) α} {m' n' : StateT (σ × γ) (Except (ε ⊕ δ)) α}
  {f : α → StateT σ (Except ε) β} {f' : α → StateT (σ × γ) (Except (ε ⊕ δ)) β}
  {l l1 : γ} {l' : α → γ} {l2 : β → γ} {s : σ}

namespace Follows

theorem lift (m : StateT σ (Except ε) α) (l : γ) (s : σ) :
    Follows (liftBeside m : StateT (σ × γ) (Except (ε ⊕ δ)) α) m l (fun _ => l) s := rfl

theorem pure (a : α) (hl : l' a = l) :
    Follows (Pure.pure a : StateT (σ × γ) (Except (ε ⊕ δ)) α) (Pure.pure a) l l' s := by
  rw [← hl]
  rfl

theorem bind (hm : Follows m' m l l' s)
    (hf : ∀ a t, m.run s = .ok (a, t) → Follows (f' a) (f a) (l' a) l2 t) :
    Follows (m' >>= f') (m >>= f) l l2 s := by
  unfold Follows at *
  show (m'.run (s, l) >>= fun p => (f' p.1).run p.2 : Except _ _) =
    beside l2 (m.run s >>= fun p => (f p.1).run p.2 : Except _ _)
  rw [hm]
  cases hr : m.run s with
  | error e => rfl
  | ok r => exact hf r.1 r.2 hr

/-- A step that only concerns what stands beside the state. -/
theorem aside {g' : StateT (σ × γ) (Except (ε ⊕ δ)) PUnit}
    {f' : PUnit → StateT (σ × γ) (Except (ε ⊕ δ)) β} {n : StateT σ (Except ε) β}
    (hg : g'.run (s, l) = .ok (⟨⟩, s, l1)) (h : Follows (f' ⟨⟩) n l1 l2 s) :
    Follows (g' >>= f') n l l2 s := by
  unfold Follows at *
  rw [Wp.run_bind_eq hg]
  exact h

theorem bind_error {e : ε} (hm : Follows m' m l l' s) (he : m.run s = .error e) :
    Follows (m' >>= f') (m >>= f) l l2 s :=
  hm.bind fun a t hr => absurd (he.symm.trans hr) (by intro h; cases h)

theorem ite {c : Prop} [Decidable c] (ht : c → Follows m' m l l' s) (hf : ¬ c → Follows n' n l l' s) :
    Follows (if c then m' else n') (if c then m else n) l l' s := by
  split_ifs with hc
  exacts [ht hc, hf hc]

end Follows

/-- **`m'` does what `m` does**, and `m` leads to `post` if it returns. -/
structure Tracks (m' : StateT (σ × γ) (Except (ε ⊕ δ)) α) (m : StateT σ (Except ε) α) (l : γ)
    (l' : α → γ) (post : α → σ → Prop) (s : σ) : Prop where
  follows : Follows m' m l l' s
  wp : Wp m post (fun _ => True) s

namespace Tracks

variable {post q : α → σ → Prop} {post2 : β → σ → Prop} {err : ε → Prop}

theorem lift (h : Wp m post err s) :
    Tracks (liftBeside m : StateT (σ × γ) (Except (ε ⊕ δ)) α) m l (fun _ => l) post s :=
  ⟨.lift m l s, h.mono_err fun _ _ => True.intro⟩

theorem pure {a : α} (hl : l' a = l) (h : post a s) :
    Tracks (Pure.pure a : StateT (σ × γ) (Except (ε ⊕ δ)) α) (Pure.pure a) l l' post s :=
  ⟨.pure a hl, .pure h⟩

theorem bind (hm : Tracks m' m l l' q s) (hf : ∀ a t, q a t → Tracks (f' a) (f a) (l' a) l2 post2 t) :
    Tracks (m' >>= f') (m >>= f) l l2 post2 s :=
  ⟨hm.follows.bind fun a t hr => (hf a t (hm.wp.post_of_run hr)).follows,
    hm.wp.bind fun a t hq => (hf a t hq).wp⟩

theorem bind_error {e : ε} (hm : Follows m' m l l' s) (he : m.run s = .error e) :
    Tracks (m' >>= f') (m >>= f) l l2 post2 s := by
  refine ⟨hm.bind_error he, ?_⟩
  unfold Wp
  rw [Wp.run_bind_error he]
  exact True.intro

theorem ite {c : Prop} [Decidable c]
    (ht : c → Tracks m' m l l' post s) (hf : ¬ c → Tracks n' n l l' post s) :
    Tracks (if c then m' else n') (if c then m else n) l l' post s := by
  split_ifs with hc
  exacts [ht hc, hf hc]

theorem mono (h : Tracks m' m l l' q s) (hpost : ∀ a t, q a t → post a t) : Tracks m' m l l' post s :=
  ⟨h.follows, h.wp.mono hpost⟩

end Tracks
