import Xv6.Fs.Layout
import Xv6.Lib.Transition

/-!
# The inode table

`iget`, `idup`, `ilock`, `iunlock`, `iput`, `iupdate` and `ialloc` of `kernel/fs.c`, used by any
number of processes at the same time.

**Steps.** A critical section under `itable.lock` is one step; taking and releasing an inode's sleep
lock are steps, and so is each access to an on-disk inode, which happens under the lock of the
buffer. What a process does to the fields of an inode while it holds the inode's lock is one step
with the release, or with the access to the disk that follows: nobody else looks at these fields.
A process that is inside `ilock`, has the inode locked, or is in the part of `iput` that frees the
inode, has a record of how far it is (`ITask`); `ialloc` scans the inodes one by one (`IAlloc`).

**Clients.** `held i` counts the references to entry `i` that processes hold. A reference may be
shared, as by the processes that share an open file. Whoever locks an inode or holds its lock has a
reference, and not the one that somebody passes to `iput` (`MayPut`). The holder of an inode's lock
may change all its fields; only `iput` makes the type 0.

**Ghost state.** `held` is not in the code. `unsaved` says that a holder of the lock has changed the
inode and not called `iupdate` since. No code reads them.
-/

namespace Xv6

/-- An entry of the table, as a `struct inode *`. -/
abbrev EntryId := Fin NINODE

/-- `struct inode`; `copy` are the fields from `type` on. -/
structure Inode (P : Type*) where
  dev : ℕ
  inum : ℕ
  ref : ℕ
  /-- the process that holds the sleep lock -/
  lock : Option P
  valid : Bool
  copy : Dinode
  unsaved : Bool

inductive ITaskStage
  /-- in `ilock`'s `acquiresleep` -/
  | waiting
  /-- in `ilock`, with the lock -/
  | loading
  /-- `ilock` has returned -/
  | locked
  /-- in `iput`, before `itrunc` -/
  | trunc
  /-- in `iput`, before `ip->type = 0; iupdate(ip)` -/
  | clear
  /-- in `iput`, before `ip->valid = 0; releasesleep(&ip->lock)` -/
  | invalidate
  /-- in `iput`, before `ip->ref--` -/
  | drop
  deriving DecidableEq, Repr

namespace ITaskStage

/-- The process holds the sleep lock. -/
def holds : ITaskStage → Bool
  | .waiting | .drop => false
  | _ => true

/-- The process is in `iput`; its reference is no longer one it may use. -/
def freeing : ITaskStage → Bool
  | .trunc | .clear | .invalidate | .drop => true
  | _ => false

end ITaskStage

structure ITask (P : Type*) where
  proc : P
  entry : EntryId
  stage : ITaskStage
  deriving DecidableEq

/-- A call of `ialloc`: the inode it looks at next, or has found. -/
structure IAlloc (P : Type*) where
  proc : P
  dev : ℕ
  type : ℤ
  inum : ℕ
  found : Bool
  deriving DecidableEq

structure ItableState (P : Type*) where
  inode : EntryId → Inode P
  /-- the on-disk inodes of each device, as seen through the buffer cache -/
  disk : ℕ → ℕ → Dinode
  tasks : List (ITask P)
  allocs : List (IAlloc P)
  held : EntryId → ℕ

namespace ItableState

variable {P : Type*} [DecidableEq P] (s : ItableState P)

def setInode (i : EntryId) (x : Inode P) : ItableState P :=
  { s with inode := Function.update s.inode i x }

def setTask (t t' : ITask P) : ItableState P := { s with tasks := t' :: s.tasks.erase t }

def writeDisk (dev inum : ℕ) (d : Dinode) : ItableState P :=
  { s with disk := Function.update s.disk dev (Function.update (s.disk dev) inum d) }

/-- The on-disk inode that entry `i` is for. -/
def dinode (i : EntryId) : Dinode := s.disk (s.inode i).dev (s.inode i).inum

/-! ## `iget`, `idup` -/

/-- The entry of an inode that is in use. -/
def cached (dev inum : ℕ) : Option EntryId :=
  (List.finRange NINODE).find? fun i =>
    decide ((s.inode i).ref > 0 ∧ (s.inode i).dev = dev ∧ (s.inode i).inum = inum)

/-- The first empty slot. -/
def empty : Option EntryId :=
  (List.finRange NINODE).find? fun i => decide ((s.inode i).ref = 0)

def idup (i : EntryId) : ItableState P :=
  { s.setInode i { s.inode i with ref := (s.inode i).ref + 1 } with
    held := Function.update s.held i (s.held i + 1) }

def iget (dev inum : ℕ) : Option (ItableState P) :=
  match s.cached dev inum with
  | some i => some (s.idup i)
  | none =>
    match s.empty with
    | some i =>
      some { s.setInode i { s.inode i with
          dev := dev, inum := inum, ref := 1, valid := false, unsaved := false } with
        held := Function.update s.held i 1 }
    | none => none                 -- panic("iget: no inodes")

/-! ## `ilock`, `iunlock`, `iupdate` -/

/-- `acquiresleep(&ip->lock)` gets the lock. -/
def acquiresleep (t : ITask P) : ItableState P :=
  (s.setInode t.entry { s.inode t.entry with lock := some t.proc }).setTask t
    { t with stage := .loading }

/-- The rest of `ilock`: read the inode if the entry is not valid. -/
def load (t : ITask P) : Option (ItableState P) :=
  let ip := s.inode t.entry
  if ip.valid then some (s.setTask t { t with stage := .locked })
  else if (s.dinode t.entry).type = 0 then none     -- panic("ilock: no type")
  else
    some ((s.setInode t.entry
      { ip with copy := s.dinode t.entry, valid := true, unsaved := false }).setTask t
        { t with stage := .locked })

/-- The process changes the inode it has locked. -/
def modify (t : ITask P) (d : Dinode) : ItableState P :=
  s.setInode t.entry { s.inode t.entry with copy := d, unsaved := true }

/-- `ip->… = …; iupdate(ip)`, for the changes that make the inode `d`. -/
def save (i : EntryId) (d : Dinode) : ItableState P :=
  (s.setInode i { s.inode i with copy := d, unsaved := false }).writeDisk
    (s.inode i).dev (s.inode i).inum d

def iupdate (t : ITask P) : ItableState P := s.save t.entry (s.inode t.entry).copy

def iunlock (t : ITask P) : ItableState P :=
  { s.setInode t.entry { s.inode t.entry with lock := none } with tasks := s.tasks.erase t }

/-! ## `iput` -/

/-- `iput` finds that it has to free the inode. -/
def LastPut (i : EntryId) : Prop :=
  (s.inode i).ref = 1 ∧ (s.inode i).valid = true ∧ (s.inode i).copy.nlink = 0

instance (i : EntryId) : Decidable (s.LastPut i) := inferInstanceAs (Decidable (_ ∧ _ ∧ _))

/-- `iput(ip)`, the first critical section. -/
def iput (p : P) (i : EntryId) : Option (ItableState P) :=
  let s' := { s with held := Function.update s.held i (s.held i - 1) }
  if s.LastPut i then
    if (s.inode i).lock = none then
      some { s'.setInode i { s.inode i with lock := some p } with
        tasks := ⟨p, i, .trunc⟩ :: s.tasks }
    else none                      -- acquiresleep would sleep, with itable.lock held
  else some (s'.setInode i { s.inode i with ref := (s.inode i).ref - 1 })

def itrunc (t : ITask P) : ItableState P :=
  (s.save t.entry (s.inode t.entry).copy.truncated).setTask t { t with stage := .clear }

/-- `ip->type = 0; iupdate(ip)` -/
def clearType (t : ITask P) : ItableState P :=
  (s.save t.entry { (s.inode t.entry).copy with type := 0 }).setTask t { t with stage := .invalidate }

/-- `ip->valid = 0; releasesleep(&ip->lock)` -/
def invalidate (t : ITask P) : ItableState P :=
  (s.setInode t.entry { s.inode t.entry with valid := false, unsaved := false, lock := none }).setTask
    t { t with stage := .drop }

/-- The last critical section of `iput`: `ip->ref--`. -/
def dropRef (t : ITask P) : ItableState P :=
  { s.setInode t.entry { s.inode t.entry with ref := (s.inode t.entry).ref - 1 } with
    tasks := s.tasks.erase t }

/-! ## `ialloc` -/

def iallocOne (ninodes : ℕ) (a : IAlloc P) : ItableState P :=
  if a.inum < ninodes then
    if (s.disk a.dev a.inum).type = 0 then
      { s.writeDisk a.dev a.inum (.fresh a.type) with
        allocs := { a with found := true } :: s.allocs.erase a }
    else { s with allocs := { a with inum := a.inum + 1 } :: s.allocs.erase a }
  else { s with allocs := s.allocs.erase a }        -- no inodes

/-! ## The system -/

inductive ItableEvent (P : Type*)
  | iget (dev inum : ℕ)
  | idup (i : EntryId)
  | ilock (p : P) (i : EntryId)
  | acquiresleep (t : ITask P)
  | load (t : ITask P)
  | modify (t : ITask P) (d : Dinode)
  | iupdate (t : ITask P)
  | iunlock (t : ITask P)
  | iput (p : P) (i : EntryId)
  | itrunc (t : ITask P)
  | clearType (t : ITask P)
  | invalidate (t : ITask P)
  | dropRef (t : ITask P)
  | ialloc (p : P) (dev : ℕ) (type : ℤ)
  | iallocOne (a : IAlloc P)
  /-- `return iget(dev, inum);` -/
  | iallocGet (a : IAlloc P)

/-- A reference to entry `i` may be passed to `iput`: no process uses it to lock the inode. -/
def MayPut (i : EntryId) : Prop :=
  0 < s.held i ∧ (1 < s.held i ∨ ∀ t ∈ s.tasks, t.entry = i → t.stage.freeing = true)

instance (i : EntryId) : Decidable (s.MayPut i) := inferInstanceAs (Decidable (_ ∧ (_ ∨ _)))

def step (ninodes : ℕ) (e : ItableEvent P) (s : ItableState P) : Option (ItableState P) :=
  match e with
  | .iget dev inum => s.iget dev inum
  | .idup i => if 0 < s.held i then some (s.idup i) else none
  | .ilock p i =>
    -- panic("ilock") if ip->ref < 1
    if 0 < s.held i ∧ ¬ (s.inode i).ref < 1 then
      some { s with tasks := ⟨p, i, .waiting⟩ :: s.tasks }
    else none
  | .acquiresleep t =>
    if t ∈ s.tasks ∧ t.stage = .waiting ∧ (s.inode t.entry).lock = none then
      some (s.acquiresleep t)
    else none
  | .load t => if t ∈ s.tasks ∧ t.stage = .loading then s.load t else none
  | .modify t d =>
    if t ∈ s.tasks ∧ t.stage = .locked ∧ d.type ≠ 0 then some (s.modify t d) else none
  | .iupdate t => if t ∈ s.tasks ∧ t.stage = .locked then some (s.iupdate t) else none
  | .iunlock t =>
    -- panic("iunlock") if the process does not hold the lock, or ip->ref < 1
    if t ∈ s.tasks ∧ t.stage = .locked ∧ (s.inode t.entry).lock = some t.proc ∧
        ¬ (s.inode t.entry).ref < 1 then
      some (s.iunlock t)
    else none
  | .iput p i => if s.MayPut i then s.iput p i else none
  | .itrunc t => if t ∈ s.tasks ∧ t.stage = .trunc then some (s.itrunc t) else none
  | .clearType t => if t ∈ s.tasks ∧ t.stage = .clear then some (s.clearType t) else none
  | .invalidate t =>
    if t ∈ s.tasks ∧ t.stage = .invalidate then some (s.invalidate t) else none
  | .dropRef t => if t ∈ s.tasks ∧ t.stage = .drop then some (s.dropRef t) else none
  | .ialloc p dev type => some { s with allocs := ⟨p, dev, type, 1, false⟩ :: s.allocs }
  | .iallocOne a =>
    if a ∈ s.allocs ∧ a.found = false then some (s.iallocOne ninodes a) else none
  | .iallocGet a =>
    if a ∈ s.allocs ∧ a.found = true then
      ({ s with allocs := s.allocs.erase a } : ItableState P).iget a.dev a.inum
    else none

/-- `iinit()`, on disks with any inodes; `z` is what the memory of the table holds. -/
def iinit (disk : ℕ → ℕ → Dinode) (z : Dinode) : ItableState P where
  inode := fun _ => ⟨0, 0, 0, none, false, z, false⟩
  disk := disk
  tasks := []
  allocs := []
  held := fun _ => 0

def ReachableBy (ninodes : ℕ) (ok : ItableEvent P → ItableState P → Prop)
    (s : ItableState P) : Prop :=
  ∃ disk z, Transition.Reaches (step ninodes) ok (iinit disk z) s

/-- A process calls `iupdate` after its changes and before `iunlock`. -/
def saves (e : ItableEvent P) (s : ItableState P) : Prop :=
  match e with
  | .iunlock t => (s.inode t.entry).unsaved = false
  | _ => True

end ItableState

end Xv6
