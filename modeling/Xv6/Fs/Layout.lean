import Mathlib.Data.Fintype.Pi

/-!
# On-disk format

The constants of `kernel/fs.h`, `kernel/stat.h` and `kernel/param.h`, the super block, the on-disk
inode, and the words of an indirect block. Fields of type `short` are integers, unsigned fields
natural numbers, and the contents of a block bytes.
-/

namespace Xv6

/-! ## Constants -/

/-- Inode number of the root directory. -/
abbrev ROOTINO : ℕ := 1

abbrev BSIZE : ℕ := 1024

/-- Addresses in an inode that name blocks of its file directly. -/
abbrev NDIRECT : ℕ := 12

/-- Addresses in an indirect block. -/
abbrev NINDIRECT : ℕ := 256

abbrev MAXFILE : ℕ := NDIRECT + NINDIRECT

abbrev IPB : ℕ := 16

abbrev BPB : ℕ := BSIZE * 8

/-- Maximum length of a name in a directory. -/
abbrev DIRSIZ : ℕ := 14

abbrev NINODE : ℕ := 50

abbrev NOFILE : ℕ := 16

abbrev NFILE : ℕ := 100

abbrev NDEV : ℤ := 10

abbrev T_DIR : ℤ := 1

abbrev T_FILE : ℤ := 2

abbrev T_DEVICE : ℤ := 3

/-! ## Super block -/

/-- The part of `struct superblock` that the layers above the log use: there are metadata blocks, a
block number is a `uint`, and there is a root inode. -/
structure SuperBlock where
  size : ℕ
  nblocks : ℕ
  ninodes : ℕ
  inodestart : ℕ
  bmapstart : ℕ
  nblocks_lt : nblocks < size
  size_lt : size < 2 ^ 32
  root_lt : ROOTINO < ninodes

namespace SuperBlock

variable (sb : SuperBlock)

/-- Block containing inode `i`. -/
def IBLOCK (i : ℕ) : ℕ := i / IPB + sb.inodestart

/-- Block of the free map containing the bit for block `b`. -/
def BBLOCK (b : ℕ) : ℕ := b / BPB + sb.bmapstart

/-- The first data block: the data blocks are the last ones. -/
def dataStart : ℕ := sb.size - sb.nblocks

/-- The block is a data block. -/
def InData (b : ℕ) : Prop := sb.dataStart ≤ b ∧ b < sb.size

instance : DecidablePred sb.InData := fun _ => inferInstanceAs (Decidable (_ ∧ _))

end SuperBlock

/-! ## Inodes -/

/-- `struct dinode`. The last address is that of the indirect block. -/
@[ext] structure Dinode where
  type : ℤ
  major : ℤ
  minor : ℤ
  nlink : ℤ
  size : ℕ
  addrs : Fin (NDIRECT + 1) → ℕ
  deriving DecidableEq

namespace Dinode

/-- `memset(dip, 0, sizeof(*dip)); dip->type = type;` -/
def fresh (type : ℤ) : Dinode := ⟨type, 0, 0, 0, 0, fun _ => 0⟩

/-- An inode without contents, as `itrunc` leaves it. -/
def truncated (d : Dinode) : Dinode := { d with size := 0, addrs := fun _ => 0 }

def addr (d : Dinode) (k : ℕ) : ℕ := if h : k < NDIRECT + 1 then d.addrs ⟨k, h⟩ else 0

def setAddr (d : Dinode) (k a : ℕ) : Dinode :=
  { d with addrs := fun j => if j.val = k then a else d.addrs j }

end Dinode

/-! ## Blocks -/

/-- The contents of a block, at the offsets below `BSIZE`. -/
abbrev Block := ℕ → UInt8

namespace Block

/-- The word with index `j`, as of a `uint *`. -/
def word (b : Block) (j : ℕ) : ℕ :=
  (b (4 * j)).toNat + 256 * ((b (4 * j + 1)).toNat + 256 * ((b (4 * j + 2)).toNat +
    256 * (b (4 * j + 3)).toNat))

def putWord (b : Block) (j a : ℕ) : Block := fun k =>
  if k / 4 = j then UInt8.ofNat (a / 256 ^ (k % 4)) else b k

/-- The bytes from offset `o` on. -/
def bytes (b : Block) (o n : ℕ) : List UInt8 := (List.range n).map fun k => b (o + k)

/-- Store bytes from offset `o` on. -/
def store (b : Block) (o : ℕ) (l : List UInt8) : Block := fun k =>
  if o ≤ k ∧ k < o + l.length then l.getD (k - o) 0 else b k

end Block

/-! ## Directory entries -/

structure Dirent where
  inum : ℕ
  name : List UInt8
  deriving DecidableEq, Repr

namespace Dirent

abbrev SIZE : ℕ := 2 + DIRSIZ

def decode (l : List UInt8) : Dirent :=
  ⟨(l.getD 0 0).toNat + 256 * (l.getD 1 0).toNat, (l.drop 2).take DIRSIZ⟩

def encode (de : Dirent) : List UInt8 :=
  UInt8.ofNat de.inum :: UInt8.ofNat (de.inum / 256) :: de.name

end Dirent

end Xv6
