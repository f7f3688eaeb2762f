import Xv6.Fs.Layout

/-!
# Blocks and inodes

`kernel/fs.c` up to the directories, executed by one process at a time: system calls follow one
another. A function is a program with the state of the file system (`FsState`) that may stop with a
panic (`FsError`).

**State.** The disk is what is seen through the buffer cache and the log. On-disk inodes, the bits of
the free map and data blocks are kept apart. An access through an address that is no data block, or
to the inode table without a reference, which the code does not check for, is an error of its own
(`wild`), and so is reading an inode that is not in the inode blocks (`badInum`). The entries of the
inode table are found by the inode number; there is an entry exactly if its reference count is positive.
There is one device. Sleep locks are left out, as nobody else runs.

**Transactions.** Each `end_op` commits, as no other operation is in progress. What recovery would find of
the inodes after a crash is what the last commit wrote; `commits` remembers it for every commit, with the
inodes that were referenced then. No code reads it.

**User memory.** A source or destination is a function from offsets: the byte, if it is mapped.
-/

namespace Xv6

/-- Panics, and accesses that the code does not check. -/
inductive FsError
  /-- an access outside the data blocks or to an entry of the inode table that is not in use -/
  | wild
  /-- an inode number that is not in the inode blocks -/
  | badInum
  | freeingFreeBlock
  | ilockNoType
  | igetNoInodes
  | bmapRange
  | dirlookupNotDir
  | dirlookupRead
  | dirlinkRead
  | isdiremptyRead
  | unlinkNlink
  | unlinkWritei
  | filedup
  | fileclose
  | fileread
  | filewrite
  deriving DecidableEq, Repr

/-- `struct inode`, in the inode table. -/
structure Entry where
  ref : ℕ
  valid : Bool
  din : Dinode

/-- A `struct file *`. -/
abbrev FileId := Fin NFILE

inductive FileKind
  | none
  | pipe
  | inode
  | device
  deriving DecidableEq, Repr

structure File where
  type : FileKind
  ref : ℕ
  readable : Bool
  writable : Bool
  /-- the page of the pipe -/
  pipe : ℕ
  ip : ℕ
  off : ℕ
  major : ℤ

/-- Of `struct pipe`, which ends are open. -/
structure PipeEnds where
  readopen : Bool
  writeopen : Bool
  deriving DecidableEq, Repr

/-- The inodes on the disk after a commit, and which were referenced. -/
structure Commit where
  dinode : ℕ → Dinode
  referenced : ℕ → Bool

/-- The files of a process: `ofile` and `cwd` of `struct proc`. -/
structure ProcFiles where
  ofile : Fin NOFILE → Option FileId
  cwd : Option ℕ

structure FsState (P : Type) where
  sb : SuperBlock
  dinode : ℕ → Dinode
  /-- the free map: the bit of a block is set when it is in use -/
  bit : ℕ → Bool
  block : ℕ → Block
  /-- blocks passed to `log_write` since `begin_op` -/
  logged : List ℕ
  itable : ℕ → Option Entry
  /-- `ftable` -/
  file : FileId → File
  /-- the pages that are pipes -/
  pipe : ℕ → Option PipeEnds
  proc : P → ProcFiles
  commits : List Commit

abbrev FsM (P : Type) := StateT (FsState P) (Except FsError)

namespace FsState

variable {P : Type} (s : FsState P)

def setBit (b : ℕ) (v : Bool) : FsState P := { s with bit := Function.update s.bit b v }

def setBlock (b : ℕ) (x : Block) : FsState P := { s with block := Function.update s.block b x }

def setDinode (i : ℕ) (d : Dinode) : FsState P := { s with dinode := Function.update s.dinode i d }

def setEntry (i : ℕ) (e : Option Entry) : FsState P :=
  { s with itable := Function.update s.itable i e }

def setLogged (l : List ℕ) : FsState P := { s with logged := l }

def snapshot : Commit := ⟨s.dinode, fun i => (s.itable i).isSome⟩

def commit : FsState P := { s with commits := s.snapshot :: s.commits }

/-- The number of entries of the inode table in use. -/
def nentries : ℕ := ((List.range s.sb.ninodes).filter fun i => (s.itable i).isSome).length

end FsState

namespace Fs

variable {P : Type}

/-! ## Blocks -/

def beginOp : FsM P Unit := modify fun s => s.setLogged []

def endOp : FsM P Unit := modify FsState.commit

def logWrite (b : ℕ) : FsM P Unit := modify fun s => s.setLogged (b :: s.logged)

/-- `bread(dev, b)` of a data block. -/
def readBlock (b : ℕ) : FsM P Block := do
  let s ← get
  if s.sb.InData b then pure (s.block b) else throw .wild

/-- Change the data of a block, between `bread` and `brelse`. -/
def modifyBlock (b : ℕ) (f : Block → Block) : FsM P Unit := do
  let s ← get
  if s.sb.InData b then set (s.setBlock b (f (s.block b))) else throw .wild

def bzero (b : ℕ) : FsM P Unit := do
  modifyBlock b fun _ _ => 0
  logWrite b

/-- The loops of `balloc` look at the blocks in order. -/
def balloc : FsM P ℕ := do
  let s ← get
  match (List.range s.sb.size).find? fun b => !s.bit b with
  | some b => do
    set (s.setBit b true)
    logWrite (s.sb.BBLOCK b)
    bzero b
    pure b
  | none => pure 0

def bfree (b : ℕ) : FsM P Unit := do
  let s ← get
  if s.sb.size ≤ b then throw .wild
  else if s.bit b then do
    set (s.setBit b false)
    logWrite (s.sb.BBLOCK b)
  else throw .freeingFreeBlock

/-! ## The inode table -/

/-- `*ip` -/
def entry (i : ℕ) : FsM P Entry := do
  let s ← get
  match s.itable i with
  | some e => pure e
  | none => throw .wild

/-- Change the fields of `*ip`. -/
def setInode (i : ℕ) (f : Dinode → Dinode) : FsM P Unit := do
  let e ← entry i
  modify fun s => s.setEntry i (some { e with din := f e.din })

def iupdate (i : ℕ) : FsM P Unit := do
  let e ← entry i
  let s ← get
  if i < s.sb.ninodes then do
    set (s.setDinode i e.din)
    logWrite (s.sb.IBLOCK i)
  else throw .wild

/-- Change the fields of `*ip`, and `iupdate(ip)`. -/
def updateInode (i : ℕ) (f : Dinode → Dinode) : FsM P Unit := do
  setInode i f
  iupdate i

def iget (i : ℕ) : FsM P Unit := do
  let s ← get
  match s.itable i with
  | some e => set (s.setEntry i (some { e with ref := e.ref + 1 }))
  | none =>
    -- the other fields are not read before `ilock` sets them
    if s.nentries < NINODE then set (s.setEntry i (some ⟨1, false, .fresh 0⟩))
    else throw .igetNoInodes

def ialloc (type : ℤ) : FsM P (Option ℕ) := do
  let s ← get
  match (List.range s.sb.ninodes).find? fun i => decide (1 ≤ i ∧ (s.dinode i).type = 0) with
  | some i => do
    set (s.setDinode i (.fresh type))
    logWrite (s.sb.IBLOCK i)
    iget i
    pure (some i)
  | none => pure none

def idup (i : ℕ) : FsM P Unit := do
  let e ← entry i
  modify fun s => s.setEntry i (some { e with ref := e.ref + 1 })

def ilock (i : ℕ) : FsM P Unit := do
  let e ← entry i
  if e.valid then pure ()
  else do
    let s ← get
    if i < s.sb.ninodes then
      if (s.dinode i).type = 0 then throw .ilockNoType
      else set (s.setEntry i (some { e with valid := true, din := s.dinode i }))
    else throw .badInum

/-- The fields of a locked inode. -/
def inode (i : ℕ) : FsM P Dinode := do
  let e ← entry i
  pure e.din

/-! ## The contents of an inode -/

/-- Attach a new block to `addrs[k]`, if there is none. -/
def ballocAddr (i k : ℕ) : FsM P ℕ := do
  let ip ← inode i
  if ip.addr k = 0 then do
    let addr ← balloc
    if addr = 0 then pure 0
    else do
      setInode i fun d => d.setAddr k addr
      pure addr
  else pure (ip.addr k)

def bmap (i bn : ℕ) : FsM P ℕ :=
  if bn < NDIRECT then ballocAddr i bn
  else if bn - NDIRECT < NINDIRECT then do
    let addr ← ballocAddr i NDIRECT
    if addr = 0 then pure 0
    else do
      let bp ← readBlock addr
      if bp.word (bn - NDIRECT) = 0 then do
        let a ← balloc
        if a = 0 then pure 0
        else do
          modifyBlock addr fun bp => bp.putWord (bn - NDIRECT) a
          logWrite addr
          pure a
      else pure (bp.word (bn - NDIRECT))
  else throw .bmapRange

/-- Free the block of a direct address. -/
def truncDirect (i k : ℕ) : FsM P Unit := do
  let ip ← inode i
  if ip.addr k = 0 then pure ()
  else do
    bfree (ip.addr k)
    setInode i fun d => d.setAddr k 0

/-- Free a block of the indirect block `bp`. -/
def truncEntry (bp : Block) (j : ℕ) : FsM P Unit :=
  if bp.word j = 0 then pure () else bfree (bp.word j)

/-- Free the indirect block and its blocks. -/
def truncIndirect (i : ℕ) : FsM P Unit := do
  let ip ← inode i
  if ip.addr NDIRECT = 0 then pure ()
  else do
    let bp ← readBlock (ip.addr NDIRECT)
    (List.range NINDIRECT).forM (truncEntry bp)
    bfree (ip.addr NDIRECT)
    setInode i fun d => d.setAddr NDIRECT 0

def itrunc (i : ℕ) : FsM P Unit := do
  (List.range NDIRECT).forM (truncDirect i)
  truncIndirect i
  updateInode i fun d => { d with size := 0 }

def iput (i : ℕ) : FsM P Unit := do
  let e ← entry i
  if e.ref = 1 ∧ e.valid ∧ e.din.nlink = 0 then do
    itrunc i
    updateInode i fun d => { d with type := 0 }
  -- in the first case `ip->valid = 0`, and there is no other reference
  modify fun s => s.setEntry i (if e.ref = 1 then none else some { e with ref := e.ref - 1 })

/-- `off + n`, as `uint`s. -/
def addUint (off n : ℕ) : ℕ := (off + n) % 2 ^ 32

/-- The first `m` bytes of a destination from offset `k` on that are mapped. -/
def copyout (dst : ℕ → Bool) (k : ℕ) (l : List UInt8) : List UInt8 :=
  l.take ((List.range l.length).takeWhile fun j => dst (k + j)).length

/-- The loop of `readi`: the number of bytes read or -1, and what has been stored in `dst`. -/
def readLoop (i n : ℕ) (dst : ℕ → Bool) : ℕ → ℕ → ℕ → List UInt8 → FsM P (ℤ × List UInt8)
  | 0, _, tot, out => pure (tot, out)
  | fuel + 1, off, tot, out =>
    if tot < n then do
      let addr ← bmap i (off / BSIZE)
      if addr = 0 then pure (tot, out)
      else do
        let bp ← readBlock addr
        let m := min (n - tot) (BSIZE - off % BSIZE)
        let l := copyout dst tot (bp.bytes (off % BSIZE) m)
        if l.length < m then pure (-1, out ++ l)
        else readLoop i n dst fuel (off + m) (tot + m) (out ++ l)
    else pure (tot, out)

def readi (i : ℕ) (dst : ℕ → Bool) (off n : ℕ) : FsM P (ℤ × List UInt8) := do
  let ip ← inode i
  if off > ip.size ∨ addUint off n < off then pure (0, [])
  else
    let n := if addUint off n > ip.size then ip.size - off else n
    readLoop i n dst n off 0 []

/-- The bytes of a source from offset `k` on, up to the first that is not mapped. -/
def copyin (src : ℕ → Option UInt8) : ℕ → ℕ → List UInt8
  | _, 0 => []
  | k, m + 1 =>
    match src k with
    | some x => x :: copyin src (k + 1) m
    | none => []

/-- The loop of `writei`: the number of bytes written, and the offset after them. -/
def writeLoop (i n : ℕ) (src : ℕ → Option UInt8) : ℕ → ℕ → ℕ → FsM P (ℕ × ℕ)
  | 0, off, tot => pure (tot, off)
  | fuel + 1, off, tot =>
    if tot < n then do
      let addr ← bmap i (off / BSIZE)
      if addr = 0 then pure (tot, off)
      else do
        let m := min (n - tot) (BSIZE - off % BSIZE)
        let l := copyin src tot m
        modifyBlock addr fun bp => bp.store (off % BSIZE) l
        if l.length < m then pure (tot, off)
        else do
          logWrite addr
          writeLoop i n src fuel (off + m) (tot + m)
    else pure (tot, off)

def writei (i : ℕ) (src : ℕ → Option UInt8) (off n : ℕ) : FsM P ℤ := do
  let ip ← inode i
  if off > ip.size ∨ addUint off n < off then pure (-1)
  else if addUint off n > MAXFILE * BSIZE then pure (-1)
  else do
    let (tot, off) ← writeLoop i n src n off 0
    updateInode i fun d => { d with size := if off > d.size then off else d.size }
    pure tot

end Fs

end Xv6
