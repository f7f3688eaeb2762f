import Xv6.Mkfs.Image

/-!
# mkfs

The program `mkfs/mkfs.c`, which makes the first disk image. It is a program over the blocks of the image and
the two counters `freeinode` and `freeblock`; it stops when an assertion fails, or when a block is read
that is not in the image (`die`). The image is `FSSIZE` blocks long from the start, since `main` writes all
of them.

An input is a path and the pieces in which `read` delivers the file.
-/

namespace Xv6

/-! ## Constants -/

/-- Size of the file system in blocks. -/
abbrev FSSIZE : ℕ := 2000

abbrev NINODES : ℕ := 200

abbrev FSMAGIC : ℕ := 0x10203040

namespace Mkfs

abbrev nbitmap : ℕ := FSSIZE / BPB + 1

abbrev ninodeblocks : ℕ := NINODES / IPB + 1

abbrev nlog : ℕ := LOGSIZE

/-- Number of meta blocks (boot, sb, nlog, inode, bitmap). -/
abbrev nmeta : ℕ := 2 + nlog + ninodeblocks + nbitmap

abbrev nblocks : ℕ := FSSIZE - nmeta

def sb : SuperBlock where
  size := FSSIZE
  nblocks := nblocks
  ninodes := NINODES
  inodestart := 2 + nlog
  bmapstart := 2 + nlog + ninodeblocks
  nblocks_lt := by decide
  size_lt := by decide
  root_lt := by decide

def sbFields : List ℕ :=
  [FSMAGIC, sb.size, sb.nblocks, sb.ninodes, nlog, 2, sb.inodestart, sb.bmapstart]

/-- The block with the super block. -/
def sbBlock : Block := fun p => .ofNat (sbFields.getD (p / 4) 0 / 256 ^ (p % 4))

end Mkfs

/-! ## State -/

/-- The image, and the next inode and block to be used. -/
structure Mkfs where
  disk : Disk
  freeinode : ℕ
  freeblock : ℕ

/-- How the program stops, other than with status 0. -/
inductive MkfsError
  | die
  | assert
  deriving DecidableEq, Repr

abbrev MkfsM := StateT Mkfs (Except MkfsError)

/-- An input file: `chunks` is what `read` delivers, one piece of at most `BSIZE` bytes after the other. -/
structure MkfsInput where
  path : List UInt8
  /-- `open` succeeds -/
  opens : Bool
  chunks : List (List UInt8)
  path_nul : (0 : UInt8) ∉ path
  chunk : ∀ c ∈ chunks, c ≠ [] ∧ c.length ≤ BSIZE

/-- The bytes of an input file. -/
def MkfsInput.contents (a : MkfsInput) : List UInt8 := a.chunks.flatten

namespace Mkfs

/-! ## Blocks and inodes -/

def rsect (sec : ℕ) : MkfsM Block := do
  let s ← get
  if sec < FSSIZE then pure (s.disk sec) else throw .die

def wsect (sec : ℕ) (buf : Block) : MkfsM Unit :=
  modify fun s => { s with disk := Function.update s.disk sec buf }

def rinode (inum : ℕ) : MkfsM Dinode := do
  let buf ← rsect (sb.IBLOCK inum)
  pure (.load buf (inum % IPB))

def winode (inum : ℕ) (d : Dinode) : MkfsM Unit := do
  let buf ← rsect (sb.IBLOCK inum)
  wsect (sb.IBLOCK inum) (d.store buf (inum % IPB))

/-- `freeblock++` -/
def nextBlock : MkfsM ℕ := do
  let s ← get
  set { s with freeblock := s.freeblock + 1 }
  pure s.freeblock

def ialloc (type : ℤ) : MkfsM ℕ := do
  let s ← get
  set { s with freeinode := s.freeinode + 1 }
  winode s.freeinode { Dinode.fresh type with nlink := 1 }
  pure s.freeinode

/-- The free map after the loop of `balloc`. -/
def bitmap (used : ℕ) : Block := (List.range used).foldl Block.setBit fun _ => 0

def balloc (used : ℕ) : MkfsM Unit :=
  if used < BPB then wsect sb.bmapstart (bitmap used) else throw .assert

/-! ## Appending to a file -/

/-- `if(addrs[k] == 0) addrs[k] = freeblock++;` -/
def mapAddr (din : Dinode) (k : ℕ) : MkfsM Dinode :=
  if din.addr k = 0 then do
    let b ← nextBlock
    pure (din.setAddr k b)
  else pure din

/-- The inode with block `fbn`, and this block. -/
def mapBlock (din : Dinode) (fbn : ℕ) : MkfsM (Dinode × ℕ) :=
  if fbn < NDIRECT then do
    let din ← mapAddr din fbn
    pure (din, din.addr fbn)
  else do
    let din ← mapAddr din NDIRECT
    let indirect ← rsect (din.addr NDIRECT)
    if indirect.word (fbn - NDIRECT) = 0 then do
      let b ← nextBlock
      wsect (din.addr NDIRECT) (indirect.putWord (fbn - NDIRECT) b)
      pure (din, b)
    else pure (din, indirect.word (fbn - NDIRECT))

/-- The loop of `iappend`: the inode and the offset at the end. -/
def iappendLoop : ℕ → Dinode → ℕ → List UInt8 → MkfsM (Dinode × ℕ)
  | 0, din, off, _ => pure (din, off)
  | fuel + 1, din, off, p =>
    if p = [] then pure (din, off)
    else if off / BSIZE < MAXFILE then do
      let (din, x) ← mapBlock din (off / BSIZE)
      let n1 := min p.length ((off / BSIZE + 1) * BSIZE - off)
      let buf ← rsect x
      wsect x (buf.store (off - off / BSIZE * BSIZE) (p.take n1))
      iappendLoop fuel din (off + n1) (p.drop n1)
    else throw .assert

def iappend (inum : ℕ) (p : List UInt8) : MkfsM Unit := do
  let din ← rinode inum
  let (din, off) ← iappendLoop p.length din din.size p
  winode inum { din with size := off }

/-! ## The program -/

/-- A `struct dirent` with a name in it. -/
def dirent (inum : ℕ) (name : List UInt8) : List UInt8 :=
  Dirent.encode ⟨inum % 2 ^ 16, strncpy name DIRSIZ⟩

def userPrefix : List UInt8 := [117, 115, 101, 114, 47]

/-- The path without `"user/"`. -/
def filename (path : List UInt8) : List UInt8 :=
  if userPrefix.isPrefixOf path then path.drop 5 else path

/-- The name that a file gets: a leading `'_'` is skipped. -/
def shortname (path : List UInt8) : List UInt8 :=
  if (filename path).head? = some 95 then (filename path).tail else filename path

/-- One pass of the loop of `main`. -/
def addFile (a : MkfsInput) : MkfsM Unit :=
  if slash ∈ filename a.path then throw .assert
  else if a.opens = false then throw .die
  else if DIRSIZ < (shortname a.path).length then throw .assert
  else do
    let inum ← ialloc T_FILE
    iappend ROOTINO (dirent inum (shortname a.path))
    a.chunks.forM (iappend inum)

/-- The root directory, before there are files in it. -/
def makeRoot : MkfsM Unit := do
  let rootino ← ialloc T_DIR
  if rootino ≠ ROOTINO then throw .assert
  else do
    iappend rootino (dirent rootino dot)
    iappend rootino (dirent rootino dotdot)

/-- Fix the size of the root directory. -/
def fixRoot : MkfsM Unit := do
  let din ← rinode ROOTINO
  winode ROOTINO { din with size := (din.size / BSIZE + 1) * BSIZE }

def main (inputs : List MkfsInput) : MkfsM Unit := do
  wsect 1 sbBlock
  makeRoot
  inputs.forM addFile
  fixRoot
  let s ← get
  balloc s.freeblock

/-- The state after the first loop of `main`: the blocks of the image are all zero. -/
def start : Mkfs := ⟨fun _ _ => 0, 1, nmeta⟩

/-- **What `mkfs` writes**, if it ends with status 0. -/
def run (inputs : List MkfsInput) : Option Mkfs :=
  match (main inputs).run start with
  | .ok (_, s) => some s
  | .error _ => none

/-- The volume that the kernel finds. -/
def volume (s : Mkfs) : Volume := s.disk.volume sb

end Mkfs

end Xv6
