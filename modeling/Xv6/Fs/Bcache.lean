import Xv6.Fs.Log
import Xv6.Lib.Ring

/-!
# The buffer cache

`kernel/bio.c`, with the part of `kernel/log.c` that pins, writes and unpins buffers. Any number of
processes use any number of buffers at the same time.

**Steps.** A critical section under `bcache.lock`, `log.lock` or the spinlock of a buffer's sleep
lock is one step, and so is a transfer by `virtio_disk_rw`. A process that uses a buffer has a
record of how far it is (`BufUse`): waiting for the sleep lock, holding it before or after `bread`
has returned, holding it with changes that neither `log_write` nor `bwrite` has seen, or past
`brelse`'s `releasesleep`. `brelse` is not called with such changes. In `commit` a copy from one
locked buffer to another and the `bwrite` that follows are one step: nobody else can see the buffer
or the block in between.

**Ghost state.** `latest b` is the last value a process stored in block `b` while it held the
buffer's lock, or the disk's if there was none. No code reads it, and `install_trans` does not
change it.
-/

namespace Xv6

open LinkedChain

abbrev NBUF : ℕ := MAXOPBLOCKS * 3

/-- Device number of the file system's disk. -/
abbrev ROOTDEV : ℕ := 1

/-- A buffer, as a `struct buf *`. The head of the list is no buffer. -/
abbrev BufId := Fin NBUF

/-- `struct buf`, less the links and `disk` (a transfer is one step). -/
structure Buf (P B : Type*) where
  valid : Bool
  dev : ℕ
  blockno : ℕ
  refcnt : ℕ
  /-- the process that holds the sleep lock -/
  lock : Option P
  data : B
  deriving DecidableEq, Repr

inductive UseStage
  /-- in `bget`'s `acquiresleep` -/
  | waiting
  /-- has the lock; `bread` has not returned -/
  | locked
  /-- `bread` has returned -/
  | ready
  /-- has changed the data -/
  | dirty
  /-- in `brelse`, after `releasesleep` -/
  | released
  deriving DecidableEq, Repr

/-- The process holds the sleep lock. -/
def UseStage.holds : UseStage → Bool
  | .locked | .ready | .dirty => true
  | _ => false

/-- `bread` has returned the buffer, and `brelse` has not been called. -/
def UseStage.returned : UseStage → Bool
  | .ready | .dirty => true
  | _ => false

structure BufUse (P : Type*) where
  proc : P
  buf : BufId
  stage : UseStage
  deriving DecidableEq, Repr

inductive CommitPhase
  /-- nobody commits -/
  | idle
  /-- in `write_log`, with this many blocks copied -/
  | writeLog (tail : ℕ)
  /-- in `install_trans`, before the copy of the block with this index -/
  | install (tail : ℕ)
  /-- in `install_trans`, before the `bunpin` of the block with this index -/
  | unpin (tail : ℕ)
  /-- the log is cleared; `committing` is still set -/
  | finish
  deriving DecidableEq, Repr

structure CacheState (P B : Type*) where
  buf : BufId → Buf P B
  /-- `prev` and `next` of the buffers and of `bcache.head` -/
  links : Links BufId
  disk : ℕ → B
  uses : List (BufUse P)
  /-- the processes between `begin_op` and `end_op` -/
  active : List P
  /-- `log.lh.block[0..log.lh.n)` -/
  lh : List ℕ
  phase : CommitPhase
  committer : Option P
  latest : ℕ → B

namespace CacheState

variable {P B : Type*} [DecidableEq P] (s : CacheState P B)

def setBuf (b : BufId) (x : Buf P B) : CacheState P B := { s with buf := Function.update s.buf b x }

def setUse (u u' : BufUse P) : CacheState P B := { s with uses := u' :: s.uses.erase u }

/-! ## `bio.c` -/

/-- The buffers in the order of a scan from `head.next`. -/
def scanNext : List BufId := follow (fun b => s.links.next (some b)) NBUF (s.links.next none)

/-- The buffers in the order of a scan from `head.prev`. -/
def scanPrev : List BufId := follow (fun b => s.links.prev (some b)) NBUF (s.links.prev none)

/-- `bget`'s first loop. -/
def cached (blockno : ℕ) : Option BufId :=
  s.scanNext.find? fun b => decide ((s.buf b).dev = ROOTDEV ∧ (s.buf b).blockno = blockno)

/-- `bget`'s second loop. -/
def lru : Option BufId := s.scanPrev.find? fun b => decide ((s.buf b).refcnt = 0)

/-- `bget(ROOTDEV, blockno)` up to `acquiresleep`. -/
def bget (p : P) (blockno : ℕ) : Option (CacheState P B) :=
  match s.cached blockno with
  | some b =>
    some { s.setBuf b { s.buf b with refcnt := (s.buf b).refcnt + 1 } with
      uses := ⟨p, b, .waiting⟩ :: s.uses }
  | none =>
    match s.lru with
    | some b =>
      some { s.setBuf b { s.buf b with
          dev := ROOTDEV, blockno := blockno, valid := false, refcnt := 1 } with
        uses := ⟨p, b, .waiting⟩ :: s.uses }
    | none => none                 -- panic("bget: no buffers")

/-- `acquiresleep(&b->lock)` gets the lock. -/
def acquiresleep (u : BufUse P) : CacheState P B :=
  (s.setBuf u.buf { s.buf u.buf with lock := some u.proc }).setUse u { u with stage := .locked }

/-- The end of `bread`: read the block if the buffer is not valid. -/
def bread (u : BufUse P) : CacheState P B :=
  let b := s.buf u.buf
  (s.setBuf u.buf (if b.valid then b else { b with data := s.disk b.blockno, valid := true })).setUse
    u { u with stage := .ready }

/-- The process changes the data of a buffer it has locked. -/
def modify (u : BufUse P) (v : B) : CacheState P B :=
  { (s.setBuf u.buf { s.buf u.buf with data := v }).setUse u { u with stage := .dirty } with
    latest := Function.update s.latest (s.buf u.buf).blockno v }

def bwrite (u : BufUse P) : CacheState P B :=
  { s.setUse u { u with stage := .ready } with
    disk := Function.update s.disk (s.buf u.buf).blockno (s.buf u.buf).data }

/-- `brelse(b)`, up to `releasesleep`. -/
def releasesleep (u : BufUse P) : CacheState P B :=
  (s.setBuf u.buf { s.buf u.buf with lock := none }).setUse u { u with stage := .released }

/-- `brelse(b)`, under `bcache.lock`. -/
def brelse (u : BufUse P) : CacheState P B :=
  let refcnt := (s.buf u.buf).refcnt - 1
  { s.setBuf u.buf { s.buf u.buf with refcnt := refcnt } with
    uses := s.uses.erase u
    links := if refcnt = 0 then (s.links.unlink u.buf).pushFront u.buf else s.links }

/-! ## `log.c` -/

/-- `log_write` calls `panic("too big a transaction")`. -/
def TooBig (lg : LogArea) : Prop := s.lh.length ≥ LOGSIZE ∨ (s.lh.length : ℤ) ≥ lg.size - 1

instance (lg : LogArea) : Decidable (s.TooBig lg) := inferInstanceAs (Decidable (_ ∨ _))

/-- `log_write(b)`: a block that is not in the table yet is added, and its buffer pinned. -/
def logWrite (u : BufUse P) : CacheState P B :=
  let b := s.buf u.buf
  if b.blockno ∈ s.lh then s.setUse u { u with stage := .ready }
  else
    { (s.setBuf u.buf { b with refcnt := b.refcnt + 1 }).setUse u { u with stage := .ready } with
      lh := s.lh ++ [b.blockno] }

/-- `end_op`'s critical section. -/
def endOp (p : P) : CacheState P B :=
  let s := { s with active := s.active.erase p }
  if s.active = [] then
    { s with phase := if s.lh = [] then .finish else .writeLog 0, committer := some p }
  else s

/-- Copy the data of buffer `src` to buffer `dst`, and write that to the disk. -/
def copyBuf (src dst : BufId) : CacheState P B :=
  { s.setBuf dst { s.buf dst with data := (s.buf src).data } with
    disk := Function.update s.disk (s.buf dst).blockno (s.buf src).data }

def writeLogOne (tail : ℕ) (tobuf frombuf : BufUse P) : CacheState P B :=
  { s.copyBuf frombuf.buf tobuf.buf with
    latest := Function.update s.latest (s.buf tobuf.buf).blockno (s.buf frombuf.buf).data
    phase := .writeLog (tail + 1) }

/-- One iteration of `install_trans`, up to `bwrite`. -/
def installOne (tail : ℕ) (lbuf dbuf : BufUse P) : CacheState P B :=
  { s.copyBuf lbuf.buf dbuf.buf with phase := .unpin tail }

def bunpin (tail : ℕ) (dbuf : BufUse P) : CacheState P B :=
  { s.setBuf dbuf.buf { s.buf dbuf.buf with refcnt := (s.buf dbuf.buf).refcnt - 1 } with
    phase := .install (tail + 1) }

/-! ## The system -/

inductive CacheEvent (P B : Type*)
  | bget (p : P) (blockno : ℕ)
  | acquiresleep (u : BufUse P)
  | bread (u : BufUse P)
  | modify (u : BufUse P) (v : B)
  | bwrite (u : BufUse P)
  | logWrite (u : BufUse P)
  | releasesleep (u : BufUse P)
  | brelse (u : BufUse P)
  | beginOp (p : P)
  | endOp (p : P)
  | writeLog (tobuf frombuf : BufUse P)
  /-- `write_head` has returned; `install_trans` starts -/
  | startInstall
  | install (lbuf dbuf : BufUse P)
  | bunpin (dbuf : BufUse P)
  /-- `log.lh.n = 0` -/
  | clear
  /-- `log.committing = 0` -/
  | finish

/-- The committing process holds, from `bread`, the buffer of block `blockno`. -/
def Holds (u : BufUse P) (blockno : ℕ) : Prop :=
  u ∈ s.uses ∧ u.stage = .ready ∧ s.committer = some u.proc ∧ (s.buf u.buf).blockno = blockno

instance (u : BufUse P) (blockno : ℕ) : Decidable (s.Holds u blockno) :=
  inferInstanceAs (Decidable (_ ∧ _))

def step (lg : LogArea) (e : CacheEvent P B) (s : CacheState P B) : Option (CacheState P B) :=
  match e with
  | .bget p blockno => s.bget p blockno
  | .acquiresleep u =>
    if u ∈ s.uses ∧ u.stage = .waiting ∧ (s.buf u.buf).lock = none then some (s.acquiresleep u)
    else none
  | .bread u => if u ∈ s.uses ∧ u.stage = .locked then some (s.bread u) else none
  | .modify u v => if u ∈ s.uses ∧ u.stage.returned then some (s.modify u v) else none
  | .bwrite u => if u ∈ s.uses ∧ u.stage.returned then some (s.bwrite u) else none
  | .logWrite u =>
    -- otherwise panic("too big a transaction") or panic("log_write outside of trans")
    if u ∈ s.uses ∧ u.stage.returned ∧ u.proc ∈ s.active ∧ ¬ s.TooBig lg then
      some (s.logWrite u)
    else none
  | .releasesleep u => if u ∈ s.uses ∧ u.stage = .ready then some (s.releasesleep u) else none
  | .brelse u => if u ∈ s.uses ∧ u.stage = .released then some (s.brelse u) else none
  | .beginOp p =>
    if s.phase = .idle ∧ p ∉ s.active then some { s with active := p :: s.active } else none
  | .endOp p => if s.phase = .idle ∧ p ∈ s.active then some (s.endOp p) else none
  | .writeLog tobuf frombuf =>
    match s.phase with
    | .writeLog t =>
      if s.Holds tobuf (lg.start + t + 1) ∧ ∃ n ∈ s.lh[t]?, s.Holds frombuf n then
        some (s.writeLogOne t tobuf frombuf)
      else none
    | _ => none
  | .startInstall =>
    if s.phase = .writeLog s.lh.length then some { s with phase := .install 0 } else none
  | .install lbuf dbuf =>
    match s.phase with
    | .install t =>
      if s.Holds lbuf (lg.start + t + 1) ∧ ∃ n ∈ s.lh[t]?, s.Holds dbuf n then
        some (s.installOne t lbuf dbuf)
      else none
    | _ => none
  | .bunpin dbuf =>
    match s.phase with
    | .unpin t => if ∃ n ∈ s.lh[t]?, s.Holds dbuf n then some (s.bunpin t dbuf) else none
    | _ => none
  | .clear =>
    if s.phase = .install s.lh.length then some { s with lh := [], phase := .finish } else none
  | .finish =>
    if s.phase = .finish then some { s with phase := .idle, committer := none } else none

/-- `binit()`, on a disk with any contents; `z` is what the memory of the buffers holds. -/
def binit (disk : ℕ → B) (z : B) : CacheState P B where
  buf := fun _ => ⟨false, 0, 0, 0, none, z⟩
  links := (List.finRange NBUF).foldl (fun r b => r.pushFront b) ⟨fun _ => none, fun _ => none⟩
  disk := disk
  uses := []
  active := []
  lh := []
  phase := .idle
  committer := none
  latest := disk

def ReachableBy (lg : LogArea) (ok : CacheEvent P B → CacheState P B → Prop)
    (s : CacheState P B) : Prop :=
  ∃ disk z, Transition.Reaches (step lg) ok (binit disk z) s

/-- Blocks of the log are not passed to `log_write`; and while a commit is in progress nobody but
`commit` changes a block of the transaction or one of the log's data blocks. -/
def client (lg : LogArea) (e : CacheEvent P B) (s : CacheState P B) : Prop :=
  match e with
  | .logWrite u => lg.Home (s.buf u.buf).blockno
  | .modify u _ => s.phase ≠ .idle →
      (s.buf u.buf).blockno ∉ s.lh ∧
        ((s.buf u.buf).blockno ≤ lg.start ∨ lg.start + lg.size ≤ (s.buf u.buf).blockno)
  | _ => True

end CacheState

end Xv6
