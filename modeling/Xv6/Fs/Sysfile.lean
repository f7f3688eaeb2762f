import Xv6.Fs.Directory

/-!
# Open files and system calls

`kernel/file.c` and `kernel/sysfile.c`, and what `fork` and `exit` do to files. A path is `none` if `argstr`
fails. What a device or a pipe returns is an argument of the call. `exec` reads the program; what it reads is
an argument, too. Of a pipe there is the page, and which of its ends are open.
-/

namespace Xv6

abbrev O_RDONLY : ℕ := 0x000

abbrev O_WRONLY : ℕ := 0x001

abbrev O_RDWR : ℕ := 0x002

abbrev O_CREATE : ℕ := 0x200

abbrev O_TRUNC : ℕ := 0x400

/-- A value stored in a `short`. -/
def short (n : ℤ) : ℤ := n.bmod (2 ^ 16)

namespace FsState

variable {P : Type} [DecidableEq P] (s : FsState P)

def setFile (f : FileId) (x : File) : FsState P := { s with file := Function.update s.file f x }

def setPipe (page : ℕ) (x : Option PipeEnds) : FsState P :=
  { s with pipe := Function.update s.pipe page x }

def setProc (p : P) (x : ProcFiles) : FsState P := { s with proc := Function.update s.proc p x }

def setFd (p : P) (fd : Fin NOFILE) (f : Option FileId) : FsState P :=
  s.setProc p { s.proc p with ofile := Function.update (s.proc p).ofile fd f }

def setCwd (p : P) (i : Option ℕ) : FsState P := s.setProc p { s.proc p with cwd := i }

end FsState

namespace Fs

variable {P : Type} [DecidableEq P]

/-! ## `file.c` -/

def filealloc : FsM P (Option FileId) := do
  let s ← get
  match (List.finRange NFILE).find? fun f => decide ((s.file f).ref = 0) with
  | some f => do
    set (s.setFile f { s.file f with ref := 1 })
    pure (some f)
  | none => pure none

def filedup (f : FileId) : FsM P Unit := do
  let s ← get
  if (s.file f).ref < 1 then throw .filedup
  else set (s.setFile f { s.file f with ref := (s.file f).ref + 1 })

/-- `pipeclose`, and `kfree` of the page when both ends are closed. -/
def pipeclose (page : ℕ) (writable : Bool) : FsM P Unit := do
  let s ← get
  match s.pipe page with
  | none => throw .wild
  | some pi =>
    let pi : PipeEnds := if writable then { pi with writeopen := false } else { pi with readopen := false }
    if pi.readopen = false ∧ pi.writeopen = false then set (s.setPipe page none)
    else set (s.setPipe page (some pi))

def fileclose (f : FileId) : FsM P Unit := do
  let s ← get
  let ff := s.file f
  if ff.ref < 1 then throw .fileclose
  else if ff.ref - 1 > 0 then set (s.setFile f { ff with ref := ff.ref - 1 })
  else do
    set (s.setFile f { ff with ref := 0, type := .none })
    match ff.type with
    | .none => pure ()
    | .pipe => pipeclose ff.pipe ff.writable
    | .inode | .device => do
      beginOp
      iput ff.ip
      endOp

/-- `filestat`: lock the inode and read its fields. -/
def filestat (f : FileId) (copied : Bool) : FsM P ℤ := do
  let s ← get
  match (s.file f).type with
  | .inode | .device => do
    ilock (s.file f).ip
    pure (if copied then 0 else -1)
  | _ => pure (-1)

def fileread (f : FileId) (dst : ℕ → Bool) (n : ℤ) (dev : ℤ) : FsM P ℤ := do
  let s ← get
  let ff := s.file f
  if ¬ ff.readable then pure (-1)
  else
    match ff.type with
    | .pipe => pure dev
    | .device => pure (if ff.major < 0 ∨ ff.major ≥ NDEV then -1 else dev)
    | .inode => do
      ilock ff.ip
      -- `n` becomes a `uint`
      let (r, _) ← readi ff.ip dst ff.off (n % 2 ^ 32).toNat
      if r > 0 then do
        modify fun s => s.setFile f { s.file f with off := addUint ff.off r.toNat }
      pure r
    | .none => throw .fileread

/-- The loop of `filewrite`: the number of bytes written. -/
def filewriteLoop (f : FileId) (src : ℕ → Option UInt8) (n : ℕ) : ℕ → ℕ → FsM P ℕ
  | 0, k => pure k
  | fuel + 1, k =>
    if k < n then do
      let n1 := min (n - k) (3 * BSIZE)
      beginOp
      let s ← get
      let ff := s.file f
      ilock ff.ip
      let r ← writei ff.ip (fun j => src (k + j)) ff.off n1
      if r > 0 then
        modify fun s => s.setFile f { s.file f with off := addUint ff.off r.toNat }
      endOp
      if r ≠ n1 then pure k else filewriteLoop f src n fuel (k + n1)
    else pure k

def filewrite (f : FileId) (src : ℕ → Option UInt8) (n : ℤ) (dev : ℤ) : FsM P ℤ := do
  let s ← get
  let ff := s.file f
  if ¬ ff.writable then pure (-1)
  else
    match ff.type with
    | .pipe => pure dev
    | .device => pure (if ff.major < 0 ∨ ff.major ≥ NDEV then -1 else dev)
    | .inode => do
      let k ← filewriteLoop f src n.toNat n.toNat 0
      pure (if (k : ℤ) = n then n else -1)
    | .none => throw .filewrite

/-! ## Descriptors -/

def argfd (p : P) (fd : ℤ) : FsM P (Option (Fin NOFILE × FileId)) := do
  let s ← get
  if h : 0 ≤ fd ∧ fd.toNat < NOFILE then
    match (s.proc p).ofile ⟨fd.toNat, h.2⟩ with
    | some f => pure (some (⟨fd.toNat, h.2⟩, f))
    | none => pure none
  else pure none

def fdalloc (p : P) (f : FileId) : FsM P (Option (Fin NOFILE)) := do
  let s ← get
  match (List.finRange NOFILE).find? fun fd => decide ((s.proc p).ofile fd = none) with
  | some fd => do
    set (s.setFd p fd (some f))
    pure (some fd)
  | none => pure none

def sysDup (p : P) (fd : ℤ) : FsM P ℤ := do
  match ← argfd p fd with
  | none => pure (-1)
  | some (_, f) => do
    match ← fdalloc p f with
    | none => pure (-1)
    | some fd => do
      filedup f
      pure fd.val

def sysRead (p : P) (fd : ℤ) (dst : ℕ → Bool) (n dev : ℤ) : FsM P ℤ := do
  match ← argfd p fd with
  | none => pure (-1)
  | some (_, f) => fileread f dst n dev

def sysWrite (p : P) (fd : ℤ) (src : ℕ → Option UInt8) (n dev : ℤ) : FsM P ℤ := do
  match ← argfd p fd with
  | none => pure (-1)
  | some (_, f) => filewrite f src n dev

def sysClose (p : P) (fd : ℤ) : FsM P ℤ := do
  match ← argfd p fd with
  | none => pure (-1)
  | some (fd, f) => do
    modify fun s => s.setFd p fd none
    fileclose f
    pure 0

def sysFstat (p : P) (fd : ℤ) (copied : Bool) : FsM P ℤ := do
  match ← argfd p fd with
  | none => pure (-1)
  | some (_, f) => filestat f copied

/-! ## Names -/

/-- `iunlockput(ip)`, `end_op()`, and a result. -/
def putReturn (i : ℕ) (r : ℤ) : FsM P ℤ := do
  iput i
  endOp
  pure r

/-- `end_op()`, and a result. -/
def endReturn (r : ℤ) : FsM P ℤ := do
  endOp
  pure r

/-- The label `bad` of `sys_link`. -/
def linkBad (i : ℕ) : FsM P ℤ := do
  ilock i
  updateInode i fun d => { d with nlink := short (d.nlink - 1) }
  putReturn i (-1)

/-- The part of `sys_link` after `ip->nlink++`. There is one device. -/
def linkNew (p : P) (i : ℕ) (new : List UInt8) : FsM P ℤ := do
  match ← nameiparent p new with
  | none => linkBad i
  | some (dp, name) => do
    ilock dp
    let r ← dirlink dp name i
    iput dp
    if r < 0 then linkBad i
    else putReturn i 0

def sysLink (p : P) (old new : Option (List UInt8)) : FsM P ℤ := do
  match old, new with
  | some old, some new => do
    beginOp
    match ← namei p old with
    | none => endReturn (-1)
    | some i => do
      ilock i
      let ip ← inode i
      if ip.type = T_DIR then putReturn i (-1)
      else do
        updateInode i fun d => { d with nlink := short (d.nlink + 1) }
        linkNew p i new
  | _, _ => pure (-1)

/-- The loop of `isdirempty`. -/
def emptyDirLoop (i : ℕ) : ℕ → ℕ → FsM P Bool
  | 0, _ => pure true
  | fuel + 1, off => do
    let dp ← inode i
    if off < dp.size then do
      let de ← readDirent .isdiremptyRead i off
      if de.inum ≠ 0 then pure false else emptyDirLoop i fuel (off + Dirent.SIZE)
    else pure true

def isdirempty (i : ℕ) : FsM P Bool := do
  let dp ← inode i
  emptyDirLoop i (dp.size / Dirent.SIZE + 1) (2 * Dirent.SIZE)

/-- `!(ip->type == T_DIR && !isdirempty(ip))` -/
def removable (i : ℕ) (ip : Dinode) : FsM P Bool :=
  if ip.type = T_DIR then isdirempty i else pure true

/-- The last part of `sys_unlink`: `dp` has been changed. -/
def unlinkDone (dp i : ℕ) : FsM P ℤ := do
  iput dp
  updateInode i fun d => { d with nlink := short (d.nlink - 1) }
  putReturn i 0

/-- The part of `sys_unlink` after the entry has been found. -/
def unlinkEntry (dp i off : ℕ) : FsM P ℤ := do
  ilock i
  let ip ← inode i
  if ip.nlink < 1 then throw .unlinkNlink
  else do
    if ¬ (← removable i ip) then do
      iput i
      putReturn dp (-1)
    else do
      let r ← writei dp (kernelSrc (List.replicate Dirent.SIZE 0)) off Dirent.SIZE
      if r ≠ Dirent.SIZE then throw .unlinkWritei
      else if ip.type = T_DIR then do
        updateInode dp fun d => { d with nlink := short (d.nlink - 1) }
        unlinkDone dp i
      else unlinkDone dp i

def sysUnlink (p : P) (path : Option (List UInt8)) : FsM P ℤ := do
  match path with
  | none => pure (-1)
  | some path => do
    beginOp
    match ← nameiparent p path with
    | none => endReturn (-1)
    | some (dp, name) => do
      ilock dp
      if namecmp name dot = 0 ∨ namecmp name dotdot = 0 then putReturn dp (-1)
      else do
        match ← dirlookup dp name with
        | none => putReturn dp (-1)
        | some (i, off) => unlinkEntry dp i off

/-- The label `fail` of `create`. -/
def createFail (i dp : ℕ) : FsM P (Option ℕ) := do
  updateInode i fun d => { d with nlink := 0 }
  iput i
  iput dp
  pure none

/-- Create `.` and `..` entries of a directory. -/
def dirInit (type : ℤ) (i dp : ℕ) : FsM P Bool :=
  if type = T_DIR then do
    if (← dirlink i dot i) < 0 then pure false
    else if (← dirlink i dotdot dp) < 0 then pure false
    else pure true
  else pure true

/-- The last part of `create`: the new inode has been entered in the directory. -/
def createDone (i dp : ℕ) : FsM P (Option ℕ) := do
  iput dp
  pure (some i)

/-- The part of `create` after `ialloc`. -/
def createNew (i dp : ℕ) (name : List UInt8) (type major minor : ℤ) : FsM P (Option ℕ) := do
  ilock i
  updateInode i fun d => { d with major := short major, minor := short minor, nlink := 1 }
  if ¬ (← dirInit type i dp) then createFail i dp
  else if (← dirlink dp name i) < 0 then createFail i dp
  else if type = T_DIR then do
    updateInode dp fun d => { d with nlink := short (d.nlink + 1) }
    createDone i dp
  else createDone i dp

/-- `create`: the inode, locked and referenced. -/
def create (p : P) (path : List UInt8) (type major minor : ℤ) : FsM P (Option ℕ) := do
  match ← nameiparent p path with
  | none => pure none
  | some (dp, name) => do
    ilock dp
    match ← dirlookup dp name with
    | some (i, _) => do
      iput dp
      ilock i
      let ip ← inode i
      if type = T_FILE ∧ (ip.type = T_FILE ∨ ip.type = T_DEVICE) then pure (some i)
      else do
        iput i
        pure none
    | none => do
      match ← ialloc type with
      | none => do
        iput dp
        pure none
      | some i => createNew i dp name type major minor

/-- `omode & flag` -/
def hasFlag (omode flag : ℕ) : Bool := omode &&& flag ≠ 0

/-- The file that `sys_open` sets up for the inode `i` with fields `ip`. -/
def openFile (x : File) (i : ℕ) (ip : Dinode) (omode : ℕ) : File :=
  { x with
    type := if ip.type = T_DEVICE then .device else .inode
    major := if ip.type = T_DEVICE then ip.major else x.major
    off := if ip.type = T_DEVICE then x.off else 0
    ip := i
    readable := !hasFlag omode O_WRONLY
    writable := hasFlag omode O_WRONLY || hasFlag omode O_RDWR }

/-- The part of `sys_open` after the inode `i` has been found and locked. -/
def openInode (p : P) (i omode : ℕ) : FsM P ℤ := do
  let ip ← inode i
  if ip.type = T_DEVICE ∧ (ip.major < 0 ∨ ip.major ≥ NDEV) then putReturn i (-1)
  else do
    match ← filealloc with
    | none => putReturn i (-1)
    | some f => do
      match ← fdalloc p f with
      | none => do
        fileclose f
        putReturn i (-1)
      | some fd => do
        modify fun s => s.setFile f (openFile (s.file f) i ip omode)
        if hasFlag omode O_TRUNC ∧ ip.type = T_FILE then itrunc i
        endReturn fd.val

def sysOpen (p : P) (path : Option (List UInt8)) (omode : ℕ) : FsM P ℤ := do
  match path with
  | none => pure (-1)
  | some path => do
    beginOp
    if hasFlag omode O_CREATE then do
      match ← create p path T_FILE 0 0 with
      | none => endReturn (-1)
      | some i => openInode p i omode
    else do
      match ← namei p path with
      | none => endReturn (-1)
      | some i => do
        ilock i
        let ip ← inode i
        if ip.type = T_DIR ∧ omode ≠ O_RDONLY then putReturn i (-1)
        else openInode p i omode

/-- `sys_mkdir` and `sys_mknod`, after `create`. -/
def createAndPut (p : P) (path : Option (List UInt8)) (type major minor : ℤ) : FsM P ℤ := do
  beginOp
  match path with
  | none => endReturn (-1)
  | some path => do
    match ← create p path type major minor with
    | none => endReturn (-1)
    | some i => putReturn i 0

def sysMkdir (p : P) (path : Option (List UInt8)) : FsM P ℤ := createAndPut p path T_DIR 0 0

def sysMknod (p : P) (path : Option (List UInt8)) (major minor : ℤ) : FsM P ℤ :=
  createAndPut p path T_DEVICE major minor

/-- `iput(p->cwd)` -/
def putCwd (p : P) : FsM P Unit := do
  let s ← get
  match (s.proc p).cwd with
  | some i => iput i
  | none => throw .wild

def sysChdir (p : P) (path : Option (List UInt8)) : FsM P ℤ := do
  beginOp
  match path with
  | none => endReturn (-1)
  | some path => do
    match ← namei p path with
    | none => endReturn (-1)
    | some i => do
      ilock i
      let ip ← inode i
      if ip.type ≠ T_DIR then putReturn i (-1)
      else do
        putCwd p
        endOp
        modify fun s => s.setCwd p (some i)
        pure 0

/-- The file system part of `exec`: read pieces of the file, given by offset and length. -/
def sysExec (p : P) (path : Option (List UInt8)) (pieces : List (UInt32 × UInt32)) : FsM P ℤ := do
  match path with
  | none => pure (-1)
  | some path => do
    beginOp
    match ← namei p path with
    | none => endReturn (-1)
    | some i => do
      ilock i
      pieces.forM fun x => do
        let _ ← readi i kernelDst x.1.toNat x.2.toNat
      putReturn i 0

/-! ## Pipes -/

/-- `fileclose(f0)` and `fileclose(f1)` -/
def closeBoth (f0 f1 : FileId) : FsM P Unit := do
  fileclose f0
  fileclose f1

/-- `pipealloc`, where `page` is what `kalloc` returns. -/
def pipealloc (page : Option ℕ) : FsM P (Option (FileId × FileId)) := do
  match ← filealloc with
  | none => pure none
  | some f0 => do
    match ← filealloc with
    | none => do
      fileclose f0
      pure none
    | some f1 => do
      match page with
      | none => do
        closeBoth f0 f1
        pure none
      | some pi => do
        modify fun s => s.setPipe pi (some ⟨true, true⟩)
        modify fun s => s.setFile f0
          { s.file f0 with type := .pipe, readable := true, writable := false, pipe := pi }
        modify fun s => s.setFile f1
          { s.file f1 with type := .pipe, readable := false, writable := true, pipe := pi }
        pure (some (f0, f1))

/-- `sys_pipe`; `copied0` and `copied1` say whether the descriptors can be copied out. -/
def sysPipe (p : P) (page : Option ℕ) (copied0 copied1 : Bool) : FsM P ℤ := do
  match ← pipealloc page with
  | none => pure (-1)
  | some (rf, wf) => do
    match ← fdalloc p rf with
    | none => do
      closeBoth rf wf
      pure (-1)
    | some fd0 => do
      match ← fdalloc p wf with
      | none => do
        modify fun s => s.setFd p fd0 none
        closeBoth rf wf
        pure (-1)
      | some fd1 => do
        if copied0 ∧ copied1 then pure 0
        else do
          modify fun s => s.setFd p fd0 none
          modify fun s => s.setFd p fd1 none
          closeBoth rf wf
          pure (-1)

/-! ## Processes -/

/-- Duplicate a descriptor for a new process. -/
def forkFd (p child : P) (fd : Fin NOFILE) : FsM P Unit := do
  let s ← get
  match (s.proc p).ofile fd with
  | none => pure ()
  | some f => do
    filedup f
    modify fun s => s.setFd child fd (some f)

/-- The part of `fork` that is about files. -/
def sysFork (p child : P) : FsM P ℤ := do
  (List.finRange NOFILE).forM (forkFd p child)
  let s ← get
  match (s.proc p).cwd with
  | some i => do
    idup i
    modify fun s => s.setCwd child (some i)
    pure 0
  | none => throw .wild

/-- Close a descriptor of an exiting process. -/
def exitFd (p : P) (fd : Fin NOFILE) : FsM P Unit := do
  let s ← get
  match (s.proc p).ofile fd with
  | none => pure ()
  | some f => do
    fileclose f
    modify fun s => s.setFd p fd none

/-- The part of `exit` that is about files. -/
def sysExit (p : P) : FsM P ℤ := do
  (List.finRange NOFILE).forM (exitFd p)
  beginOp
  putCwd p
  endOp
  modify fun s => s.setCwd p none
  pure 0

end Fs

/-! ## Runs -/

/-- The system calls, with what they are given. -/
inductive FsCall (P : Type)
  | dup (p : P) (fd : ℤ)
  | read (p : P) (fd : ℤ) (dst : ℕ → Bool) (n dev : ℤ)
  | write (p : P) (fd : ℤ) (src : ℕ → Option UInt8) (n dev : ℤ)
  | close (p : P) (fd : ℤ)
  | fstat (p : P) (fd : ℤ) (copied : Bool)
  | link (p : P) (old new : Option (List UInt8))
  | unlink (p : P) (path : Option (List UInt8))
  | open (p : P) (path : Option (List UInt8)) (omode : ℕ)
  | mkdir (p : P) (path : Option (List UInt8))
  | mknod (p : P) (path : Option (List UInt8)) (major minor : ℤ)
  | chdir (p : P) (path : Option (List UInt8))
  | exec (p : P) (path : Option (List UInt8)) (pieces : List (UInt32 × UInt32))
  | pipe (p : P) (page : Option ℕ) (copied0 copied1 : Bool)
  | fork (p child : P)
  | exit (p : P)

namespace FsCall

variable {P : Type} [DecidableEq P]

/-- What the call executes. -/
def body : FsCall P → FsM P ℤ
  | .dup p fd => Fs.sysDup p fd
  | .read p fd dst n dev => Fs.sysRead p fd dst n dev
  | .write p fd src n dev => Fs.sysWrite p fd src n dev
  | .close p fd => Fs.sysClose p fd
  | .fstat p fd copied => Fs.sysFstat p fd copied
  | .link p old new => Fs.sysLink p old new
  | .unlink p path => Fs.sysUnlink p path
  | .open p path omode => Fs.sysOpen p path omode
  | .mkdir p path => Fs.sysMkdir p path
  | .mknod p path major minor => Fs.sysMknod p path major minor
  | .chdir p path => Fs.sysChdir p path
  | .exec p path pieces => Fs.sysExec p path pieces
  | .pipe p page copied0 copied1 => Fs.sysPipe p page copied0 copied1
  | .fork p child => Fs.sysFork p child
  | .exit p => Fs.sysExit p

def proc : FsCall P → P
  | .dup p .. | .read p .. | .write p .. | .close p .. | .fstat p .. | .link p .. | .unlink p ..
  | .open p .. | .mkdir p .. | .mknod p .. | .chdir p .. | .exec p .. | .pipe p .. | .fork p ..
  | .exit p => p

def child : FsCall P → Option P
  | .fork _ q => some q
  | _ => none

/-- The page that `kalloc` gives. -/
def page : FsCall P → Option ℕ
  | .pipe _ page _ _ => page
  | _ => none

/-- A process that runs has a current directory; one that is not in use has none, and no open files; and
`kalloc` gives a page that is not in use. -/
def Enabled (c : FsCall P) (s : FsState P) : Prop :=
  (s.proc c.proc).cwd ≠ none ∧ (∀ q ∈ c.child, (s.proc q).cwd = none ∧ ∀ fd, (s.proc q).ofile fd = none) ∧
    ∀ pi ∈ c.page, s.pipe pi = none

instance (c : FsCall P) (s : FsState P) : Decidable (c.Enabled s) :=
  inferInstanceAs (Decidable (_ ∧ _ ∧ _))

/-- The state after a call that returns. -/
def step (c : FsCall P) (s : FsState P) : Option (FsState P) :=
  if c.Enabled s then
    match c.body.run s with
    | .ok (_, s') => some s'
    | .error _ => none
  else none

end FsCall

end Xv6
