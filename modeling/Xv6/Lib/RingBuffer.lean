import Xv6.Lib.WrapRing

/-!
# Ring buffers with free-running counters

A `WrapRing` with 32-bit counters (`holds_iff`). `Holds buf N r w q` says that the buffer has the list
`q` between the counters `r` and `w`. There is one rule for each thing a producer or a consumer does:
`push` and `unpush` at `w`, `pop` at `r`. A third counter between the two splits the list
(`Holds.split`).
-/

open List Nat

namespace RingBuffer

/-- Buffer sizes for which the counters may wrap around. -/
structure Size (N : ℕ) : Prop where
  pos : 0 < N
  lt : N < 2 ^ 32
  dvd : N ∣ 2 ^ 32

variable {α : Type*} {N : ℕ} {buf : ℕ → α} {r w : UInt32} {q q' : List α} {x : α}

/-- `buf[c % N]` -/
def read (buf : ℕ → α) (N : ℕ) (c : UInt32) : α := buf (c.toNat % N)

/-- `buf[c % N] = x` -/
def store (buf : ℕ → α) (N : ℕ) (c : UInt32) (x : α) : ℕ → α :=
  Function.update buf (c.toNat % N) x

/-- The `n` elements from counter `c` on. -/
def window (buf : ℕ → α) (N : ℕ) (c : UInt32) (n : ℕ) : List α :=
  (range n).map fun k => buf ((c.toNat + k) % N)

/-- **The buffer has the list `q` between the counters.** -/
structure Holds (buf : ℕ → α) (N : ℕ) (r w : UInt32) (q : List α) : Prop where
  counters : (w - r).toNat = q.length
  fits : q.length ≤ N
  elements : window buf N r q.length = q

/-! ## Counters -/

theorem toNat_eq_mod (h : (w - r).toNat = q.length) : w.toNat = (r.toNat + q.length) % 2 ^ 32 := by
  have hw := w.toNat_lt
  have hr := r.toNat_lt
  rw [UInt32.toNat_sub] at h
  omega

theorem index_eq (hN : Size N) (h : (w - r).toNat = q.length) :
    w.toNat % N = (r.toNat + q.length) % N := by
  rw [toNat_eq_mod h, mod_mod_of_dvd _ hN.dvd]

theorem toNat_sub_pred {n : ℕ} (h : (w - r).toNat = n + 1) : (w - 1 - r).toNat = n := by
  rw [UInt32.toNat_sub] at h ⊢
  rw [UInt32.toNat_sub, UInt32.toNat_one]
  omega

theorem toNat_sub_eq_zero : (w - r).toNat = 0 ↔ r = w := by
  rw [← UInt32.toNat_inj, UInt32.toNat_sub]
  have hw := w.toNat_lt
  have hr := r.toNat_lt
  omega

theorem Size.wrap (hN : Size N) : WrapRing.Size N (2 ^ 32) := ⟨hN.pos, hN.lt, hN.dvd⟩

theorem holds_iff (hN : Size N) : Holds buf N r w q ↔ WrapRing.Holds buf N (2 ^ 32) r.toNat w.toNat q := by
  constructor
  · intro h
    exact ⟨toNat_eq_mod h.counters, h.fits, h.elements⟩
  · intro h
    have hlt := hN.lt
    have hf := h.fits
    have hc := h.counter
    have hr := r.toNat_lt
    refine ⟨?_, hf, h.elements⟩
    rw [UInt32.toNat_sub]
    omega

/-! ## Rules -/

theorem holds_nil (buf : ℕ → α) (N : ℕ) (c : UInt32) : Holds buf N c c [] :=
  ⟨by simp, zero_le _, rfl⟩

namespace Holds

theorem empty_iff (h : Holds buf N r w q) : r = w ↔ q = [] := by
  rw [← toNat_sub_eq_zero, h.counters, length_eq_zero_iff]

theorem full_iff (hN : Size N) (h : Holds buf N r w q) : w = r + UInt32.ofNat N ↔ q.length = N := by
  have hlt := hN.lt
  have hw := w.toNat_lt
  have hr := r.toNat_lt
  have hc := h.counters
  rw [UInt32.toNat_sub] at hc
  have hfit := h.fits
  rw [← UInt32.toNat_inj, UInt32.toNat_add, UInt32.toNat_ofNat', mod_eq_of_lt hlt]
  omega

/-- **A producer stores an element.** -/
theorem push (hN : Size N) (h : Holds buf N r w q) (hq : q.length < N) (x : α) :
    Holds (store buf N w x) N r (w + 1) (q ++ [x]) := by
  rw [holds_iff hN] at h ⊢
  rw [UInt32.toNat_add, UInt32.toNat_one]
  exact (h.store hN.wrap hq x).push hN.wrap hq (Function.update_self ..)

/-- **A producer takes back what it stored last.** -/
theorem unpush (hN : Size N) (h : Holds buf N r w (q ++ [x])) :
    read buf N (w - 1) = x ∧ Holds buf N r (w - 1) q := by
  have hlen : (q ++ [x]).length = q.length + 1 := by simp
  have hc := h.counters
  have he := h.elements
  have hf := h.fits
  rw [hlen] at hc he hf
  obtain ⟨hq, hx⟩ := append_inj ((WrapRing.window_succ_last ..).symm.trans he) (by simp)
  have hpred := toNat_sub_pred hc
  refine ⟨?_, hpred, by omega, hq⟩
  unfold read
  rw [index_eq hN hpred]
  exact singleton_inj.mp hx

/-- **A consumer takes the oldest element.** -/
theorem pop (hN : Size N) (h : Holds buf N r w (x :: q)) :
    read buf N r = x ∧ Holds buf N (r + 1) w q := by
  rw [holds_iff hN] at h ⊢
  rw [UInt32.toNat_add, UInt32.toNat_one]
  exact h.pop hN.wrap

theorem split (hN : Size N) {m : UInt32} (h : Holds buf N r w (q ++ q'))
    (hm : (m - r).toNat = q.length) : Holds buf N r m q ∧ Holds buf N m w q' := by
  have hc := h.counters
  have hf := h.fits
  have he := h.elements
  rw [length_append] at hc hf
  have hidx : ∀ k, (m.toNat + k) % N = (r.toNat + (q.length + k)) % N := fun k => by
    rw [add_mod, index_eq hN hm, ← add_mod, add_assoc]
  have hsplit : window buf N r (q ++ q').length =
      window buf N r q.length ++ window buf N m q'.length := by
    unfold window
    rw [length_append, range_add, map_append, map_map]
    refine congrArg _ (map_congr_left fun k _ => congrArg buf (hidx k).symm)
  rw [hsplit] at he
  obtain ⟨hq, hq'⟩ := append_inj he (WrapRing.window_length ..)
  refine ⟨⟨hm, by omega, hq⟩, ⟨?_, by omega, hq'⟩⟩
  have hlt := m.toNat_lt
  rw [UInt32.toNat_sub] at hc hm ⊢
  omega

end Holds

end RingBuffer
