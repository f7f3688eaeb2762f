import Mathlib.Data.Finset.Card
import Mathlib.Data.Nat.ModEq

/-!
# Rings with counters that wrap around

A ring of `N` elements that is addressed by counters modulo `W`: the element for counter `c` is at
index `c % N`. The counters only count up; the elements between two counters `r` and `w` are those
for `r`, `r + 1` and so on. This works across the wrap-around if `N` divides `W`, and full and empty
can be told apart if `N` is less (`Size`).

`Holds buf N W r w q` says that the ring has the list `q` between `r` and `w`. A producer stores an
element behind the list (`Holds.store`) and counts `w` up (`Holds.push`), a consumer counts `r` up
(`Holds.pop`). The steps of a producer are two, because a consumer may look in between.

Where every element is in the ring at most once and its order does not matter, `Lists` says which
elements there are. If there are not more of them at all than places, there is always room.
-/

open Function List Nat

namespace WrapRing

/-- Ring sizes for which the counters may wrap around. -/
structure Size (N W : ℕ) : Prop where
  pos : 0 < N
  lt : N < W
  dvd : N ∣ W

variable {α : Type*} {N W r w n : ℕ} {buf : ℕ → α} {q : List α} {x : α}

/-- The `n` elements from counter `c` on. -/
def window (buf : ℕ → α) (N c n : ℕ) : List α := (range n).map fun k => buf ((c + k) % N)

/-- **The ring has the list `q` between the counters.** -/
structure Holds (buf : ℕ → α) (N W r w : ℕ) (q : List α) : Prop where
  counter : w = (r + q.length) % W
  fits : q.length ≤ N
  elements : window buf N r q.length = q

/-- Indices less than `N` apart are different. -/
theorem index_ne {a j k : ℕ} (hj : j < k) (hk : k < j + N) : (a + j) % N ≠ (a + k) % N := by
  intro he
  have hdvd : N ∣ (a + k) - (a + j) := (modEq_iff_dvd' (by omega)).mp he
  have := le_of_dvd (by omega) hdvd
  omega

/-! ## Windows -/

@[simp]
theorem window_length (buf : ℕ → α) (c n : ℕ) : (window buf N c n).length = n := by
  simp [window]

theorem window_succ_last (buf : ℕ → α) (c n : ℕ) :
    window buf N c (n + 1) = window buf N c n ++ [buf ((c + n) % N)] := by
  simp [window, range_succ]

theorem window_succ (hN : Size N W) (buf : ℕ → α) (c n : ℕ) :
    window buf N c (n + 1) = buf (c % N) :: window buf N ((c + 1) % W) n := by
  unfold window
  rw [range_succ_eq_map, map_cons, map_map]
  refine congrArg _ (map_congr_left fun k _ => congrArg buf ?_)
  show (c + (k + 1)) % N = ((c + 1) % W + k) % N
  rw [add_mod _ k, mod_mod_of_dvd _ hN.dvd, ← add_mod]
  congr 1
  omega

theorem window_store (hn : n < N) (c : ℕ) :
    window (update buf ((c + n) % N) x) N c n = window buf N c n := by
  refine map_congr_left fun k hk => update_of_ne ?_ ..
  exact index_ne (mem_range.mp hk) (by omega)

/-! ## Rules -/

theorem holds_nil (buf : ℕ → α) (N : ℕ) (hr : r < W) : Holds buf N W r r [] :=
  ⟨(mod_eq_of_lt hr).symm, zero_le _, rfl⟩

namespace Holds

section

variable (hN : Size N W) (h : Holds buf N W r w q)

include hN h

theorem index_eq : w % N = (r + q.length) % N := by
  rw [h.counter, mod_mod_of_dvd _ hN.dvd]

theorem empty_iff (hr : r < W) : r = w ↔ q = [] := by
  have hlt := hN.lt
  have hc := h.counter
  have hf := h.fits
  rw [← length_eq_zero_iff]
  constructor
  · intro he
    by_contra hne
    by_cases hw : r + q.length < W
    · rw [mod_eq_of_lt hw] at hc
      omega
    · rw [mod_eq_sub_mod (by omega), mod_eq_of_lt (by omega)] at hc
      omega
  · intro he
    rw [hc, he, add_zero, mod_eq_of_lt hr]

/-- **A producer stores an element** behind a list that does not fill the ring. -/
theorem store (hq : q.length < N) (x : α) : Holds (update buf (w % N) x) N W r w q := by
  refine ⟨h.counter, h.fits, ?_⟩
  rw [h.index_eq hN, window_store hq, h.elements]

/-- **A producer counts up**: the element behind the list becomes its last. -/
theorem push (hq : q.length < N) (hx : buf (w % N) = x) :
    Holds buf N W r ((w + 1) % W) (q ++ [x]) := by
  have hlen : (q ++ [x]).length = q.length + 1 := by simp
  refine ⟨?_, by omega, ?_⟩
  · rw [h.counter, hlen, mod_add_mod, add_assoc]
  · rw [hlen, window_succ_last, h.elements, ← h.index_eq hN, hx]

end

/-- **A consumer takes the oldest element.** -/
theorem pop (hN : Size N W) (h : Holds buf N W r w (x :: q)) :
    buf (r % N) = x ∧ Holds buf N W ((r + 1) % W) w q := by
  have hc := h.counter
  have he := h.elements
  have hf := h.fits
  rw [length_cons] at hc he hf
  rw [window_succ hN] at he
  obtain ⟨hx, hq⟩ := cons.inj he
  refine ⟨hx, ?_, by omega, hq⟩
  rw [hc, mod_add_mod, add_assoc, add_comm 1]

/-- What is stored behind the list does not overwrite it. -/
theorem update_get (hN : Size N W) (h : Holds buf N W r w q) (hq : q.length < N) (x : α) {k : ℕ}
    (hk : k < q.length) : update buf (w % N) x ((r + k) % N) = buf ((r + k) % N) := by
  rw [h.index_eq hN]
  exact update_of_ne (index_ne hk (by omega)) ..

theorem distance (hN : Size N W) (h : Holds buf N W r w q) (hr : r < W) :
    (w + W - r) % W = q.length := by
  have hlt := hN.lt
  have hf := h.fits
  have hc := h.counter
  by_cases hw : r + q.length < W
  · rw [mod_eq_of_lt hw] at hc
    rw [hc, show r + q.length + W - r = q.length + W by omega, add_mod_right, mod_eq_of_lt]
    omega
  · rw [mod_eq_sub_mod (by omega), mod_eq_of_lt (by omega)] at hc
    rw [hc, show r + q.length - W + W - r = q.length by omega, mod_eq_of_lt (by omega)]

end Holds

/-! ## Rings that list a set -/

/-- **Between the counters are the elements that satisfy `S`**, each of them once. -/
def Lists (buf : ℕ → α) (N W r w : ℕ) (S : α → Prop) : Prop :=
  ∃ q, Holds buf N W r w q ∧ q.Nodup ∧ ∀ x, x ∈ q ↔ S x

/-- There is room for one more, `x`. -/
def Room (N : ℕ) (S : α → Prop) (x : α) : Prop :=
  ¬ S x ∧ ∃ U : Finset α, U.card ≤ N ∧ x ∈ U ∧ ∀ y, S y → y ∈ U

variable {S S' : α → Prop}

theorem lists_nil (buf : ℕ → α) (N : ℕ) (hr : r < W) (hS : ∀ x, ¬ S x) : Lists buf N W r r S :=
  ⟨[], holds_nil buf N hr, nodup_nil, fun x => iff_of_false not_mem_nil (hS x)⟩

namespace Lists

theorem congr (h : Lists buf N W r w S) (hS : ∀ x, S x ↔ S' x) : Lists buf N W r w S' := by
  obtain ⟨q, hq, hn, hmem⟩ := h
  exact ⟨q, hq, hn, fun x => (hmem x).trans (hS x)⟩

theorem ne_iff (hN : Size N W) (h : Lists buf N W r w S) (hr : r < W) : r ≠ w ↔ ∃ x, S x := by
  obtain ⟨q, hq, -, hmem⟩ := h
  rw [ne_eq, hq.empty_iff hN hr]
  constructor
  · intro hne
    obtain ⟨x, hx⟩ := exists_mem_of_ne_nil q hne
    exact ⟨x, (hmem x).mp hx⟩
  · rintro ⟨x, hx⟩ rfl
    exact not_mem_nil ((hmem x).mpr hx)

/-- **The oldest element is taken.** -/
theorem pop (hN : Size N W) (h : Lists buf N W r w S) (hr : r < W) (hne : r ≠ w) :
    S (buf (r % N)) ∧ Lists buf N W ((r + 1) % W) w fun x => S x ∧ x ≠ buf (r % N) := by
  obtain ⟨q, hq, hn, hmem⟩ := h
  cases q with
  | nil => exact absurd ((hq.empty_iff hN hr).mpr rfl) hne
  | cons x q =>
    obtain ⟨rfl, hpop⟩ := hq.pop hN
    obtain ⟨hx, hn⟩ := nodup_cons.mp hn
    refine ⟨(hmem _).mp mem_cons_self, q, hpop, hn, fun y => ?_⟩
    constructor
    · intro hy
      exact ⟨(hmem y).mp (mem_cons_of_mem _ hy), fun he => hx (he ▸ hy)⟩
    · intro hy
      exact (mem_cons.mp ((hmem y).mpr hy.1)).resolve_left hy.2

variable (hx : Room N S x)

include hx

theorem length_lt [DecidableEq α] {q : List α} (hn : q.Nodup) (hmem : ∀ x, x ∈ q ↔ S x) :
    q.length < N := by
  obtain ⟨hS, U, hU, hxU, hSU⟩ := hx
  have hsub : q.toFinset ⊆ U.erase x := fun y hy => by
    have hy := (hmem y).mp (mem_toFinset.mp hy)
    exact Finset.mem_erase.mpr ⟨fun he => hS (he ▸ hy), hSU y hy⟩
  have hle := Finset.card_le_card hsub
  rw [toFinset_card_of_nodup hn] at hle
  have := Finset.card_erase_lt_of_mem hxU
  omega

/-- **Another element is stored** behind them. -/
theorem store [DecidableEq α] (hN : Size N W) (h : Lists buf N W r w S) (y : α) :
    Lists (update buf (w % N) y) N W r w S := by
  obtain ⟨q, hq, hn, hmem⟩ := h
  exact ⟨q, hq.store hN (length_lt hx hn hmem) y, hn, hmem⟩

/-- What is stored behind them does not overwrite them. -/
theorem update_get [DecidableEq α] (hN : Size N W) (h : Lists buf N W r w S) (hr : r < W) (y : α)
    {k : ℕ} (hk : k < (w + W - r) % W) :
    update buf (w % N) y ((r + k) % N) = buf ((r + k) % N) := by
  obtain ⟨q, hq, hn, hmem⟩ := h
  rw [hq.distance hN hr] at hk
  exact hq.update_get hN (length_lt hx hn hmem) y hk

/-- **The element behind them is counted.** -/
theorem push [DecidableEq α] (hN : Size N W) (h : Lists buf N W r w S) (he : buf (w % N) = x) :
    Lists buf N W r ((w + 1) % W) fun y => S y ∨ y = x := by
  obtain ⟨q, hq, hn, hmem⟩ := h
  refine ⟨q ++ [x], hq.push hN (length_lt hx hn hmem) he, ?_, fun y => ?_⟩
  · exact hn.append (nodup_singleton x) (disjoint_singleton.mpr fun h => hx.1 ((hmem x).mp h))
  · rw [mem_append, mem_singleton, hmem]

end Lists

end WrapRing
