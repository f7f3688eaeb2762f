import Mathlib.Algebra.Group.Nat.Defs
import Mathlib.Tactic.Common

/-!
# Byte-addressed memory

A memory maps addresses to bytes. `put m a n f` stores the `n` bytes `f 0, f 1, …` from the address `a`
on, and `load m a n` reads `n` bytes from there as a little-endian number. What is stored at other
addresses stays (`put_of_not`, `load_put_of_disjoint`), and a number that has been stored byte by byte is
read back (`load_put_digits`).
-/

namespace ByteMem

/-- The `n` bytes from the address `a` on, as a little-endian number. -/
def load (m : ℕ → UInt8) : ℕ → ℕ → ℕ
  | _, 0 => 0
  | a, n + 1 => (m a).toNat + 256 * load m (a + 1) n

/-- Store `n` bytes from the address `a` on. -/
def put (m : ℕ → UInt8) (a n : ℕ) (f : ℕ → UInt8) : ℕ → UInt8 := fun x =>
  if a ≤ x ∧ x < a + n then f (x - a) else m x

/-- The bytes of a number, the least significant one first. -/
def digits (w : ℕ) : ℕ → UInt8 := fun j => UInt8.ofNat (w / 256 ^ j)

variable {m m' : ℕ → UInt8} {a b n k w x : ℕ} {f : ℕ → UInt8}

theorem put_of_not (h : ¬ (a ≤ x ∧ x < a + n)) : put m a n f x = m x := if_neg h

theorem put_of_mem (h : a ≤ x) (h' : x < a + n) : put m a n f x = f (x - a) := if_pos ⟨h, h'⟩

theorem put_add (h : k < n) : put m a n f (a + k) = f k := by
  rw [put_of_mem (Nat.le_add_right a k) (Nat.add_lt_add_left h a), Nat.add_sub_cancel_left]

theorem put_succ (m : ℕ → UInt8) (a n : ℕ) (f : ℕ → UInt8) :
    put (Function.update m a (f 0)) (a + 1) n (fun k => f (k + 1)) = put m a (n + 1) f := by
  funext x
  unfold put
  by_cases hx : x = a
  · subst hx
    rw [if_neg (by omega), Function.update_self, if_pos (by omega), Nat.sub_self]
  · by_cases hin : a ≤ x ∧ x < a + (n + 1)
    · rw [if_pos (by omega), if_pos hin]
      exact congrArg f (show x - (a + 1) + 1 = x - a by omega)
    · rw [if_neg (by omega), if_neg hin, Function.update_of_ne hx]

theorem load_congr (h : ∀ k < n, m' (a + k) = m (a + k)) : load m' a n = load m a n := by
  induction n generalizing a with
  | zero => rfl
  | succ n ih =>
    have hhead : m' a = m a := h 0 (Nat.succ_pos n)
    have htail : load m' (a + 1) n = load m (a + 1) n := by
      refine ih fun k hk => ?_
      rw [Nat.add_right_comm]
      exact h (k + 1) (Nat.succ_lt_succ hk)
    rw [load, load, hhead, htail]

theorem load_eq_zero (h : ∀ k < n, m (a + k) = 0) : load m a n = 0 := by
  induction n generalizing a with
  | zero => rfl
  | succ n ih =>
    have hhead : m a = 0 := h 0 (Nat.succ_pos n)
    have htail : load m (a + 1) n = 0 := by
      refine ih fun k hk => ?_
      rw [Nat.add_right_comm]
      exact h (k + 1) (Nat.succ_lt_succ hk)
    rw [load, hhead, htail]
    rfl

/-- A number is read back from its bytes. -/
theorem load_digits (h : ∀ k < n, m (a + k) = digits w k) : load m a n = w % 256 ^ n := by
  induction n generalizing a w with
  | zero => exact (Nat.mod_one w).symm
  | succ n ih =>
    have hhead : m a = UInt8.ofNat w := by
      have := h 0 (Nat.succ_pos n)
      unfold digits at this
      rwa [Nat.pow_zero, Nat.div_one] at this
    have htail : load m (a + 1) n = w / 256 % 256 ^ n := by
      refine ih fun k hk => ?_
      rw [Nat.add_right_comm]
      have hdigit := h (k + 1) (Nat.succ_lt_succ hk)
      unfold digits at hdigit ⊢
      rwa [Nat.pow_succ, Nat.mul_comm, ← Nat.div_div_eq_div_mul] at hdigit
    rw [load, hhead, htail, Nat.pow_succ, Nat.mul_comm (256 ^ n), Nat.mod_mul, UInt8.toNat_ofNat']

/-- **A number that is stored is read back.** -/
theorem load_put_digits (h : w < 256 ^ n) : load (put m a n (digits w)) a n = w := by
  rw [load_digits fun k hk => put_add hk, Nat.mod_eq_of_lt h]

theorem load_put_of_disjoint (h : a + n ≤ b ∨ b + k ≤ a) : load (put m a n f) b k = load m b k :=
  load_congr fun j hj => put_of_not (by omega)

end ByteMem
