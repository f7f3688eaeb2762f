import Mathlib.Data.BitVec
import Mathlib.Tactic.Abel

/-!
# The two `memmove`s

`memmove` of `kernel/string.c` and of `user/ulib.c`. Both copy upwards or downwards, byte by byte; the
kernel goes down if the source starts below the destination and reaches it, the library whenever the
source does not start above.

**Addresses.** Pointers are 64-bit words and their sums wrap, so that the end of a range at the top of
memory is address 0. How far the destination is above the source is the same before every round of a
loop; a loop is right if that distance is 0 or at least the length (`copyUp_eq`, `copyDown_eq`).

Main result: `memmove_correct`.
-/

open Function

namespace Xv6.Memmove

abbrev Addr : Type := BitVec 64

abbrev Memory : Type := Addr → UInt8

/-- `while(n-- > 0) *d++ = *s++;` -/
def copyUp : ℕ → Addr → Addr → Memory → Memory
  | 0, _, _, m => m
  | n + 1, d, s, m => copyUp n (d + 1) (s + 1) (update m d (m s))

/-- `while(n-- > 0) *--d = *--s;` -/
def copyDown : ℕ → Addr → Addr → Memory → Memory
  | 0, _, _, m => m
  | n + 1, d, s, m => copyDown n (d - 1) (s - 1) (update m (d - 1) (m (s - 1)))

/-- `memmove` of the kernel, where `n` is unsigned: what it returns, and the memory. -/
def memmove (dst src : Addr) (n : BitVec 32) (m : Memory) : Addr × Memory :=
  if n = 0 then (dst, m)
  else if src < dst ∧ src + n.setWidth 64 > dst then
    (dst, copyDown n.toNat (dst + n.setWidth 64) (src + n.setWidth 64) m)
  else (dst, copyUp n.toNat dst src m)

/-- `memmove` of the library, where `n` is an `int`. -/
def Ulib.memmove (vdst vsrc : Addr) (n : BitVec 32) (m : Memory) : Addr × Memory :=
  if vsrc > vdst then (vdst, copyUp n.toInt.toNat vdst vsrc m)
  else
    (vdst, copyDown n.toInt.toNat (vdst + n.signExtend 64) (vsrc + n.signExtend 64) m)

/-- The memory with the `n` bytes at `s` stored at `d`, all read before the first is stored. -/
def moved (n : ℕ) (d s : Addr) (m : Memory) : Memory := fun a =>
  if (a - d).toNat < n then m (s + (a - d)) else m a

variable {n : ℕ} {d s x : Addr}

theorem toNat_sub_one (hx : x ≠ 0) : (x - 1).toNat = x.toNat - 1 := by
  bv_omega

theorem copyUp_eq (hn : n ≤ 2 ^ 64) (h : d = s ∨ n ≤ (d - s).toNat) (m : Memory) :
    copyUp n d s m = moved n d s m := by
  induction n generalizing d s m with
  | zero => rfl
  | succ n ih =>
    have hdist : d + 1 - (s + 1) = d - s := by abel
    rw [copyUp, ih (by omega) (h.imp (congrArg (· + 1)) fun h => by rw [hdist]; omega)]
    funext a
    unfold moved
    obtain ⟨x, rfl⟩ : ∃ x, a = d + x := ⟨a - d, by abel⟩
    have hback : d + x - (d + 1) = x - 1 := by abel
    have hread : s + 1 + (x - 1) = s + x := by abel
    rw [hback, hread, add_sub_cancel_left]
    by_cases hx : x = 0
    · have hout : ¬ ((0 : Addr) - 1).toNat < n := by
        rw [show ((0 : Addr) - 1).toNat = 2 ^ 64 - 1 from rfl]
        omega
      have hin : (0 : Addr).toNat < n + 1 := Nat.succ_pos n
      rw [hx, if_neg hout, if_pos hin, add_zero, add_zero, update_self]
    · have hxd : d + x ≠ d := by simpa using hx
      rw [toNat_sub_one hx, update_of_ne hxd]
      by_cases hin : x.toNat < n + 1
      · -- no byte that has been stored is read
        have hne : s + x ≠ d := by
          rintro rfl
          rcases h with h | h
          · exact hx (by simpa using h)
          · rw [add_sub_cancel_left] at h
            omega
        have hpos : x.toNat ≠ 0 := fun h => hx (BitVec.eq_of_toNat_eq h)
        rw [if_pos (by omega), if_pos hin, update_of_ne hne]
      · rw [if_neg (by omega), if_neg hin]

theorem copyDown_eq (hn : n ≤ 2 ^ 64) (h : d = s ∨ n ≤ (s - d).toNat) (m : Memory) :
    copyDown n (d + BitVec.ofNat 64 n) (s + BitVec.ofNat 64 n) m = moved n d s m := by
  induction n generalizing m with
  | zero => rfl
  | succ n ih =>
    have hlen : (BitVec.ofNat 64 n).toNat = n := Nat.mod_eq_of_lt (by omega)
    have hlast (p : Addr) : p + BitVec.ofNat 64 (n + 1) - 1 = p + BitVec.ofNat 64 n := by
      rw [BitVec.ofNat_add]
      abel
    rw [copyDown, hlast, hlast, ih (by omega) (h.imp_right (by omega))]
    funext a
    unfold moved
    obtain ⟨x, rfl⟩ : ∃ x, a = d + x := ⟨a - d, by abel⟩
    rw [add_sub_cancel_left]
    by_cases hx : x = BitVec.ofNat 64 n
    · rw [hx, hlen, if_neg (by omega), if_pos (by omega), update_self]
    · have hxn : x.toNat ≠ n := fun h => hx (BitVec.eq_of_toNat_eq (h.trans hlen.symm))
      have hxd : d + x ≠ d + BitVec.ofNat 64 n := by simpa using hx
      rw [update_of_ne hxd]
      by_cases hin : x.toNat < n
      · have hne : s + x ≠ d + BitVec.ofNat 64 n := by
          intro he
          have hdist : s - d = BitVec.ofNat 64 n - x := by
            rw [eq_sub_of_add_eq he]
            abel
          rw [hdist, BitVec.toNat_sub_of_le (by rw [BitVec.le_def]; omega)] at h
          rcases h with h | h
          · exact hx (add_left_cancel (h ▸ he))
          · omega
        rw [if_pos hin, if_pos (by omega), update_of_ne hne]
      · rw [if_neg hin, if_neg (by omega)]

/-- The distance from the higher address to the lower one, around the top of memory. -/
theorem toNat_sub_of_lt (h : s.toNat < d.toNat) : (s - d).toNat = 2 ^ 64 - (d.toNat - s.toNat) := by
  bv_omega

/-- Both functions return `dst`, store the bytes that were at `src` there, and change nothing else. -/
theorem memmove_correct (m : Memory) (dst src : Addr) (n : BitVec 32) (hn : n.toNat < 2 ^ 31)
    (hsrc : src.toNat + n.toNat ≤ 2 ^ 64) (hdst : dst.toNat + n.toNat ≤ 2 ^ 64) :
    (∀ i < n.toNat,
      (memmove dst src n m).2 (dst + BitVec.ofNat 64 i) = m (src + BitVec.ofNat 64 i)) ∧
    (∀ a, (∀ i < n.toNat, a ≠ dst + BitVec.ofNat 64 i) → (memmove dst src n m).2 a = m a) ∧
    (memmove dst src n m).1 = dst ∧ Ulib.memmove dst src n m = memmove dst src n m := by
  have hlen : n.setWidth 64 = BitVec.ofNat 64 n.toNat := by bv_omega
  have hint : n.toInt.toNat = n.toNat := by
    rw [BitVec.toInt_eq_toNat_of_lt (by omega), Int.toNat_natCast]
  have hsign : n.signExtend 64 = BitVec.ofNat 64 n.toNat := by
    rw [BitVec.signExtend_eq_setWidth_of_msb_false, hlen]
    rw [BitVec.msb_eq_decide]
    exact decide_eq_false (by omega)
  have hup (h : ¬ src.toNat < dst.toNat ∨ src.toNat + n.toNat ≤ dst.toNat) :
      copyUp n.toNat dst src m = moved n.toNat dst src m := by
    refine copyUp_eq (by omega) ?_ m
    rcases lt_trichotomy src.toNat dst.toNat with hlt | heq | hgt
    · right
      rw [BitVec.toNat_sub_of_le (BitVec.le_def.2 hlt.le)]
      omega
    · exact .inl (BitVec.eq_of_toNat_eq heq.symm)
    · right
      rw [toNat_sub_of_lt hgt]
      omega
  have hdown (h : src.toNat ≤ dst.toNat) : copyDown n.toNat (dst + BitVec.ofNat 64 n.toNat)
      (src + BitVec.ofNat 64 n.toNat) m = moved n.toNat dst src m := by
    refine copyDown_eq (by omega) ?_ m
    rcases h.lt_or_eq with h | h
    · right
      rw [toNat_sub_of_lt h]
      omega
    · exact .inl (BitVec.eq_of_toNat_eq h.symm)
  have hkernel : memmove dst src n m = (dst, moved n.toNat dst src m) := by
    unfold memmove
    rw [hlen]
    split_ifs with h0 h
    · subst h0
      rfl
    · rw [hdown (le_of_lt h.1)]
    · rw [hup (by bv_omega)]
  have huser : Ulib.memmove dst src n m = (dst, moved n.toNat dst src m) := by
    unfold Ulib.memmove
    rw [hint, hsign]
    split_ifs with h
    · rw [hup (.inl (by bv_omega))]
    · rw [hdown (by bv_omega)]
  rw [huser, hkernel]
  refine ⟨fun i hi => ?_, fun a ha => ?_, rfl, rfl⟩
  · have hoff : (BitVec.ofNat 64 i).toNat = i := Nat.mod_eq_of_lt (by omega)
    simp [moved, add_sub_cancel_left, hoff, hi]
  · refine if_neg fun hin => ha _ hin ?_
    rw [BitVec.ofNat_toNat, BitVec.setWidth_eq]
    abel

/-- Two bytes move up by one, over one of them. -/
theorem memmove_correct_overlapping : (memmove 1 0 2 fun a => UInt8.ofNat a.toNat).2 2 = 1 ∧
    Ulib.memmove 1 0 2 (fun a => UInt8.ofNat a.toNat) =
      memmove 1 0 2 fun a => UInt8.ofNat a.toNat := by
  obtain ⟨hmoved, -, -, hsame⟩ := memmove_correct (fun a => UInt8.ofNat a.toNat) 1 0 2 (by decide)
    (by decide) (by decide)
  exact ⟨hmoved 1 (by decide), hsame⟩

end Xv6.Memmove
