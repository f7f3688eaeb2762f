import Xv6.Fs.Log
import Xv6.Fs.Sysfile
import Xv6.Fs.Volume

/-!
# Disk images

The bytes of a disk, and what the kernel reads from them: an inode is a `struct dinode` at its place in
the inode blocks, and the bit of a block is a bit of the free map. Numbers are stored with the least
significant byte first, in the kernel by the machine and in `mkfs` by `xshort` and `xint`.

An inode that is stored is the inode that is loaded (`Dinode.load_store`).
-/

namespace Xv6

abbrev Disk := ℕ → Block

namespace Block

/-- The half-word with index `j`, as of a `ushort *`. -/
def half (b : Block) (j : ℕ) : ℕ := (b (2 * j)).toNat + 256 * (b (2 * j + 1)).toNat

/-- Bit `i`, as `balloc` looks at it: `bp->data[i/8] & (1 << (i % 8))`. -/
def bit (b : Block) (i : ℕ) : Bool := b (i / 8) &&& (1 <<< UInt8.ofNat (i % 8)) ≠ 0

def setBit (b : Block) (i : ℕ) : Block :=
  Function.update b (i / 8) (b (i / 8) ||| (1 <<< UInt8.ofNat (i % 8)))

end Block

/-! ## Inodes -/

namespace Dinode

abbrev SIZE : ℕ := 64

/-- The `short` fields, in order. -/
def short (d : Dinode) : ℕ → ℤ
  | 0 => d.type
  | 1 => d.major
  | 2 => d.minor
  | _ => d.nlink

/-- The `uint` fields, in order. -/
def uint (d : Dinode) : ℕ → ℕ
  | 0 => d.size
  | k + 1 => d.addr k

/-- Byte `o` of the inode. -/
def byte (d : Dinode) (o : ℕ) : UInt8 :=
  if o < 8 then .ofNat ((d.short (o / 2) % 2 ^ 16).toNat / 256 ^ (o % 2))
  else .ofNat (d.uint (o / 4 - 2) / 256 ^ (o % 4))

/-- The `short` fields of inode `j` of a block. -/
def loadShort (b : Block) (j k : ℕ) : ℤ := Xv6.short (b.half (32 * j + k))

/-- The `uint` fields of inode `j` of a block. -/
def loadUint (b : Block) (j k : ℕ) : ℕ := b.word (16 * j + 2 + k)

def load (b : Block) (j : ℕ) : Dinode where
  type := loadShort b j 0
  major := loadShort b j 1
  minor := loadShort b j 2
  nlink := loadShort b j 3
  size := loadUint b j 0
  addrs k := loadUint b j (k + 1)

def store (d : Dinode) (b : Block) (j : ℕ) : Block := fun p =>
  if p / SIZE = j then d.byte (p % SIZE) else b p

/-- The fields are in the ranges of their types. -/
structure Wf (d : Dinode) : Prop where
  short : ∀ k < 4, -2 ^ 15 ≤ d.short k ∧ d.short k < 2 ^ 15
  uint : ∀ k < NDIRECT + 2, d.uint k < 2 ^ 32

variable {d : Dinode} {b : Block} {j j' k : ℕ}

theorem loadShort_store_ne (hj : j' ≠ j) (hk : k < 4) :
    loadShort (d.store b j) j' k = loadShort b j' k := by
  unfold loadShort Block.half store
  simp only [SIZE]
  rw [if_neg (by omega), if_neg (by omega)]

theorem loadUint_store_ne (hj : j' ≠ j) (hk : k < NDIRECT + 2) :
    loadUint (d.store b j) j' k = loadUint b j' k := by
  simp only [NDIRECT] at hk
  unfold loadUint Block.word store
  simp only [SIZE]
  rw [if_neg (by omega), if_neg (by omega), if_neg (by omega), if_neg (by omega)]

theorem loadShort_store (h : d.Wf) (hk : k < 4) : loadShort (d.store b j) j k = d.short k := by
  obtain ⟨hlo, hhi⟩ := h.short k hk
  have h0 : (2 * (32 * j + k)) / 64 = j ∧ (2 * (32 * j + k)) % 64 = 2 * k := by omega
  have h1 : (2 * (32 * j + k) + 1) / 64 = j ∧ (2 * (32 * j + k) + 1) % 64 = 2 * k + 1 := by omega
  have hlt0 : 2 * k < 8 := by omega
  have hlt1 : 2 * k + 1 < 8 := by omega
  have hd0 : 2 * k / 2 = k ∧ 2 * k % 2 = 0 := by omega
  have hd1 : (2 * k + 1) / 2 = k ∧ (2 * k + 1) % 2 = 1 := by omega
  unfold loadShort Block.half store byte
  simp only [SIZE, h0, h1, if_true, hlt0, hlt1, hd0, hd1, pow_zero, pow_one, Nat.div_one,
    UInt8.toNat_ofNat', Xv6.short, Int.bmod]
  omega

theorem loadUint_store (h : d.Wf) (hk : k < NDIRECT + 2) : loadUint (d.store b j) j k = d.uint k := by
  have hlt := h.uint k hk
  have hr : ∀ r < 4, (4 * (16 * j + 2 + k) + r) / 64 = j ∧
      (4 * (16 * j + 2 + k) + r) % 64 = 8 + 4 * k + r := fun r hr => by
    simp only [NDIRECT] at hk
    omega
  have hq : ∀ r < 4, (8 + 4 * k + r) / 4 - 2 = k ∧ (8 + 4 * k + r) % 4 = r := fun r hr => by omega
  have hge : ∀ r, ¬ 8 + 4 * k + r < 8 := fun r => by omega
  have h0 := hr 0 (by decide)
  have h1 := hr 1 (by decide)
  have h2 := hr 2 (by decide)
  have h3 := hr 3 (by decide)
  have q0 := hq 0 (by decide)
  have q1 := hq 1 (by decide)
  have q2 := hq 2 (by decide)
  have q3 := hq 3 (by decide)
  have g0 := hge 0
  simp only [Nat.add_zero] at h0 q0 g0
  unfold loadUint Block.word store byte
  simp only [SIZE, h0, h1, h2, h3, if_true, g0, hge 1, hge 2, hge 3, if_false, q0, q1, q2, q3, pow_zero,
    UInt8.toNat_ofNat']
  omega

/-- **The inode that is loaded is the one that was stored.** -/
theorem load_store (h : d.Wf) (b : Block) (j j' : ℕ) :
    load (d.store b j) j' = if j' = j then d else load b j' := by
  split_ifs with hj
  · subst hj
    have h0 : loadShort (d.store b j') j' 0 = d.type := loadShort_store h (by decide)
    have h1 : loadShort (d.store b j') j' 1 = d.major := loadShort_store h (by decide)
    have h2 : loadShort (d.store b j') j' 2 = d.minor := loadShort_store h (by decide)
    have h3 : loadShort (d.store b j') j' 3 = d.nlink := loadShort_store h (by decide)
    have h4 : loadUint (d.store b j') j' 0 = d.size := loadUint_store h (by decide)
    have h5 : (fun k : Fin (NDIRECT + 1) => loadUint (d.store b j') j' (k + 1)) = d.addrs := by
      funext k
      rw [loadUint_store h (Nat.succ_lt_succ k.isLt)]
      show d.addr k = _
      unfold addr
      rw [dif_pos k.isLt]
    unfold load
    rw [h0, h1, h2, h3, h4, h5]
  · unfold load
    rw [loadShort_store_ne hj (by decide), loadShort_store_ne hj (by decide),
      loadShort_store_ne hj (by decide), loadShort_store_ne hj (by decide),
      loadUint_store_ne hj (by decide)]
    congr 1
    funext k
    exact loadUint_store_ne hj (Nat.succ_lt_succ k.isLt)

end Dinode

/-! ## The free map -/

namespace Block

theorem mask_and_mask : ∀ r < 8, ∀ r' < 8,
    ((1 <<< UInt8.ofNat r) &&& (1 <<< UInt8.ofNat r') ≠ (0 : UInt8)) ↔ r' = r := by
  decide

theorem or_and_mask (x y m : UInt8) : (x ||| y) &&& m = (x &&& m) ||| (y &&& m) := by
  apply UInt8.toBitVec_inj.mp
  ext k hk
  simp [Bool.and_or_distrib_right]

theorem bit_setBit (b : Block) (i j : ℕ) : (b.setBit i).bit j = true ↔ j = i ∨ b.bit j = true := by
  have hi := Nat.mod_lt i (show 0 < 8 by decide)
  have hj := Nat.mod_lt j (show 0 < 8 by decide)
  unfold bit setBit
  simp only [decide_eq_true_eq]
  by_cases hd : j / 8 = i / 8
  · have hmask := mask_and_mask _ hi _ hj
    have heq : j % 8 = i % 8 ↔ j = i := by omega
    rw [hd, Function.update_self, or_and_mask, ne_eq, UInt8.or_eq_zero_iff, not_and_or, or_comm,
      ← heq, ← hmask]
  · rw [Function.update_of_ne hd]
    have hne : j ≠ i := fun he => hd (he ▸ rfl)
    simp only [hne, false_or]

end Block

/-- **The volume that the kernel finds on a disk.** -/
def Disk.volume (disk : Disk) (sb : SuperBlock) : Volume where
  sb := sb
  inode i := .load (disk (sb.IBLOCK i)) (i % IPB)
  bit b := (disk (sb.BBLOCK b)).bit (b % BPB)
  block := disk

end Xv6
