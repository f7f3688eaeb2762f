import Xv6.Fs.Inode

/-!
# Directories and paths

The rest of `kernel/fs.c`, and `strncmp` and `strncpy` of `kernel/string.c`. A C string is the list
of its bytes, without the NUL; reading past the end of a list gives NUL.
-/

namespace Xv6

/-! ## Strings -/

def strncmp : List UInt8 → List UInt8 → ℕ → ℤ
  | _, _, 0 => 0
  | p, q, n + 1 =>
    if p.headD 0 ≠ 0 ∧ p.headD 0 = q.headD 0 then strncmp p.tail q.tail n
    else (p.headD 0).toNat - (q.headD 0).toNat

/-- What `strncpy(s, t, n)` stores in `s`. -/
def strncpy : List UInt8 → ℕ → List UInt8
  | _, 0 => []
  | t, n + 1 =>
    if t.headD 0 = 0 then 0 :: List.replicate n 0 else t.headD 0 :: strncpy t.tail n

def namecmp (s t : List UInt8) : ℤ := strncmp s t DIRSIZ

abbrev slash : UInt8 := 47

abbrev dot : List UInt8 := [46]

abbrev dotdot : List UInt8 := [46, 46]

/-- The next element of a path and the path after it. -/
def skipelem (path : List UInt8) : Option (List UInt8 × List UInt8) :=
  let path := path.dropWhile (· = slash)
  if path = [] then none
  else
    let s := path.takeWhile (· ≠ slash)
    some (s.take DIRSIZ, (path.dropWhile (· ≠ slash)).dropWhile (· = slash))

/-- The elements of a path that calls of `skipelem` find, one after the other. -/
def skipelems : ℕ → List UInt8 → List (List UInt8)
  | 0, _ => []
  | fuel + 1, path =>
    match skipelem path with
    | some (name, rest) => name :: skipelems fuel rest
    | none => []

def elements (path : List UInt8) : List (List UInt8) := skipelems path.length path

namespace Fs

variable {P : Type}

/-- A destination or source in the kernel. -/
def kernelDst : ℕ → Bool := fun _ => true

def kernelSrc (l : List UInt8) : ℕ → Option UInt8 := fun k => some (l.getD k 0)

/-! ## Directories -/

/-- `readi(dp, 0, &de, off, sizeof(de))`, or the panic `e`. -/
def readDirent (e : FsError) (i off : ℕ) : FsM P Dirent := do
  let (r, l) ← readi i kernelDst off Dirent.SIZE
  if r ≠ Dirent.SIZE then throw e else pure (.decode l)

/-- The loop of `dirlookup`: the inode number and the offset of the entry. -/
def lookupLoop (i : ℕ) (name : List UInt8) : ℕ → ℕ → FsM P (Option (ℕ × ℕ))
  | 0, _ => pure none
  | fuel + 1, off => do
    let dp ← inode i
    if off < dp.size then do
      let de ← readDirent .dirlookupRead i off
      if de.inum ≠ 0 ∧ namecmp name de.name = 0 then pure (some (de.inum, off))
      else lookupLoop i name fuel (off + Dirent.SIZE)
    else pure none

def dirlookup (i : ℕ) (name : List UInt8) : FsM P (Option (ℕ × ℕ)) := do
  let dp ← inode i
  if dp.type ≠ T_DIR then throw .dirlookupNotDir
  else do
    match ← lookupLoop i name (dp.size / Dirent.SIZE + 1) 0 with
    | some (inum, off) => do
      iget inum
      pure (some (inum, off))
    | none => pure none

/-- The loop of `dirlink`: the offset of the first empty entry, or the end of the directory. -/
def emptyLoop (i : ℕ) : ℕ → ℕ → FsM P ℕ
  | 0, off => pure off
  | fuel + 1, off => do
    let dp ← inode i
    if off < dp.size then do
      let de ← readDirent .dirlinkRead i off
      if de.inum = 0 then pure off else emptyLoop i fuel (off + Dirent.SIZE)
    else pure off

def dirlink (i : ℕ) (name : List UInt8) (inum : ℕ) : FsM P ℤ := do
  match ← dirlookup i name with
  | some (ip, _) => do
    iput ip
    pure (-1)
  | none => do
    let dp ← inode i
    let off ← emptyLoop i (dp.size / Dirent.SIZE + 1) 0
    -- `de.inum` is a `ushort`
    let de : Dirent := ⟨inum % 2 ^ 16, strncpy name DIRSIZ⟩
    let r ← writei i (kernelSrc de.encode) off Dirent.SIZE
    if r ≠ Dirent.SIZE then pure (-1) else pure 0

/-! ## Paths -/

/-- The loop of `namex`, from the inode `i` on. -/
def namexLoop (parent : Bool) : List (List UInt8) → ℕ → FsM P (Option (ℕ × List UInt8))
  | [], i =>
    if parent then do
      iput i
      pure none
    else pure (some (i, []))
  | name :: path, i => do
    ilock i
    let ip ← inode i
    if ip.type ≠ T_DIR then do
      iput i
      pure none
    else if parent ∧ path = [] then pure (some (i, name))
    else do
      match ← dirlookup i name with
      | none => do
        iput i
        pure none
      | some (next, _) => do
        iput i
        namexLoop parent path next

/-- `namex`: the inode, and the last element of the path if its directory is asked for. -/
def namex (p : P) (path : List UInt8) (parent : Bool) : FsM P (Option (ℕ × List UInt8)) := do
  if path.head? = some slash then do
    iget ROOTINO
    namexLoop parent (elements path) ROOTINO
  else do
    let s ← get
    match (s.proc p).cwd with
    | some i => do
      idup i
      namexLoop parent (elements path) i
    | none => throw .wild

def namei (p : P) (path : List UInt8) : FsM P (Option ℕ) := do
  match ← namex p path false with
  | some (i, _) => pure (some i)
  | none => pure none

def nameiparent (p : P) (path : List UInt8) : FsM P (Option (ℕ × List UInt8)) :=
  namex p path true

end Fs

end Xv6
