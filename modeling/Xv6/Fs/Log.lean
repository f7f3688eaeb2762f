import Mathlib.Data.Int.Notation
import Xv6.Lib.Redo
import Xv6.Lib.Transition

/-!
# The redo log

`kernel/log.c` on a disk that may lose power at any time. Processes bracket their updates by
`begin_op` and `end_op`; `log_write` only notes the number of a modified block, and the last
`end_op` commits what has been noted: the blocks are copied to the log, the header is written, the
blocks are copied home, and the header is cleared. At boot `recover_from_log` does the copying home
again.

**Steps.** A critical section under `log.lock` is one step; so is each block written to the disk
by `commit` and `recover_from_log`. `crash` may come between any two steps and leaves only the
disk.

**Blocks.** Their contents are of any type `B`. The header block is kept decoded (`LogHeader`), as
nothing else uses that block. `mem b` is what `bread` returns for block `b`: the contents of the
block's buffer if it is cached and the disk's otherwise.

**Clients.** A process modifies a block only inside an operation, while it holds the buffer's lock
(nobody else does until it has passed the block to `log_write`), and never modifies a block of the
log itself.

**Ghost state.** Operations are numbered in the order of their `begin_op`. `txs` are the
modifications of each transaction since boot, in the order in which their commits started, and
`finished` how many of these commits have returned; `cur` are the modifications of the transaction
that is still open, and `calls` the block numbers it has passed to `log_write`. `base` is the
contents of the blocks at boot. No code reads them.
-/

namespace Xv6

/-! ## Parameters -/

abbrev MAXOPBLOCKS : ℕ := 10

abbrev LOGSIZE : ℕ := MAXOPBLOCKS * 3

/-- Where the log is: `log.start` and `log.size`, from the super block. -/
structure LogArea where
  start : ℕ
  size : ℕ
  deriving DecidableEq, Repr

/-- The block is outside the log. -/
def LogArea.Home (lg : LogArea) (b : ℕ) : Prop := b < lg.start ∨ lg.start + lg.size ≤ b

instance (lg : LogArea) : DecidablePred lg.Home := fun _ => inferInstanceAs (Decidable (_ ∨ _))

/-! ## State -/

structure LogHeader where
  n : ℕ
  block : ℕ → ℕ

/-- `lh.block[0..n)`. -/
def LogHeader.blocks (h : LogHeader) : List ℕ := (List.range h.n).map h.block

/-- `write_head` and `read_head`: copy `n` and the first `n` entries. -/
def LogHeader.copy (h old : LogHeader) : LogHeader :=
  ⟨h.n, fun i => if i < h.n then h.block i else old.block i⟩

/-- The search of `log_write`: the first entry for the block, or the end of the table. -/
def LogHeader.find (h : LogHeader) (b : ℕ) : ℕ :=
  ((List.range h.n).find? fun i => decide (h.block i = b)).getD h.n

/-- The operation a process is in: its number, and the blocks it has passed to `log_write`. -/
structure LogOp (P : Type*) where
  proc : P
  num : ℕ
  blocks : List ℕ
  deriving DecidableEq, Repr

/-- A modification of a block by an operation. -/
structure LogMod (B : Type*) where
  op : ℕ
  block : ℕ
  data : B
  deriving DecidableEq, Repr

inductive LogPhase
  /-- the machine is off, or has not called `initlog` yet -/
  | off
  /-- `recover_from_log`, with this many blocks installed -/
  | recovering (tail : ℕ)
  /-- `recover_from_log` has returned -/
  | recovered
  /-- nobody commits -/
  | up
  /-- `commit`, in `write_log` -/
  | writeLog (tail : ℕ)
  /-- `commit`, in `install_trans` -/
  | install (tail : ℕ)
  /-- `commit` has returned; `committing` is still set -/
  | finish
  deriving DecidableEq, Repr

/-- The kernel runs; operations may be in progress. -/
def LogPhase.running : LogPhase → Bool
  | .off | .recovering _ | .recovered => false
  | _ => true

structure LogState (P B : Type*) where
  disk : ℕ → B
  head : LogHeader
  mem : ℕ → B
  lh : LogHeader
  outstanding : ℕ
  committing : Bool
  phase : LogPhase
  /-- the operations between `begin_op` and `end_op` -/
  active : List (LogOp P)
  /-- the processes that sleep in `begin_op` -/
  asleep : List P
  /-- the blocks a process has modified and not yet passed to `log_write` -/
  dirty : List (P × ℕ)
  nextOp : ℕ
  base : ℕ → B
  txs : List (List (LogMod B))
  finished : ℕ
  cur : List (LogMod B)
  calls : List ℕ

namespace LogState

variable {P B : Type*} [DecidableEq P] (lg : LogArea) (s : LogState P B)

/-! ## `begin_op`, `log_write`, `end_op` -/

/-- The operation process `p` is in. -/
def opOf (p : P) : Option (LogOp P) := s.active.find? fun o => decide (o.proc = p)

/-- One test of the loop of `begin_op`. -/
def beginOp (p : P) : LogState P B :=
  if s.committing then { s with asleep := p :: s.asleep }
  else if s.lh.n + (s.outstanding + 1) * MAXOPBLOCKS > LOGSIZE then
    { s with asleep := p :: s.asleep }
  else
    { s with
      outstanding := s.outstanding + 1
      active := ⟨p, s.nextOp, []⟩ :: s.active
      nextOp := s.nextOp + 1 }

/-- A process in operation `o` changes the data of a buffer. -/
def modify (o : LogOp P) (b : ℕ) (v : B) : LogState P B :=
  { s with
    mem := Function.update s.mem b v
    dirty := (o.proc, b) :: s.dirty
    cur := s.cur ++ [⟨o.num, b, v⟩] }

/-- The entry `log_write` makes. -/
def logEntry (b : ℕ) : LogHeader :=
  let i := s.lh.find b
  ⟨if i = s.lh.n then s.lh.n + 1 else s.lh.n, Function.update s.lh.block i b⟩

/-- `log_write` calls `panic("too big a transaction")`. -/
def TooBig : Prop := s.lh.n ≥ LOGSIZE ∨ (s.lh.n : ℤ) ≥ lg.size - 1

instance : Decidable (s.TooBig lg) := inferInstanceAs (Decidable (_ ∨ _))

/-- `log_write` of block `b` by operation `o`, when it does not panic. -/
def logWrite (o : LogOp P) (b : ℕ) : LogState P B :=
  { s with
    lh := s.logEntry b
    active := s.active.map fun x => if x.proc = o.proc then { x with blocks := b :: x.blocks } else x
    dirty := s.dirty.filter fun x => decide (x ≠ (o.proc, b))
    calls := b :: s.calls }

/-- `end_op`'s critical section, when it does not panic. The last operation goes on to
`commit`. -/
def endOp (o : LogOp P) : LogState P B :=
  let s := { s with
    outstanding := s.outstanding - 1
    active := s.active.filter fun x => decide (x.proc ≠ o.proc) }
  if s.outstanding = 0 then
    { s with
      committing := true
      phase := if s.lh.n > 0 then .writeLog 0 else .finish
      txs := s.txs ++ [s.cur]
      cur := []
      calls := [] }
  else { s with asleep := [] }

/-! ## `commit` -/

/-- One iteration of `write_log`: `bread` the log block, copy, `bwrite`. -/
def writeLogOne (tail : ℕ) : LogState P B :=
  let v := s.mem (s.lh.block tail)
  { s with
    mem := Function.update s.mem (lg.start + tail + 1) v
    disk := Function.update s.disk (lg.start + tail + 1) v }

/-- One iteration of `install_trans`: `bread` the log block and the home block, copy, `bwrite`. -/
def installOne (tail : ℕ) : LogState P B :=
  let v := s.mem (lg.start + tail + 1)
  { s with
    mem := Function.update s.mem (s.lh.block tail) v
    disk := Function.update s.disk (s.lh.block tail) v }

def writeHead : LogState P B := { s with head := s.lh.copy s.head }

/-- `log.lh.n = 0; write_head();` -/
def clearHead : LogState P B := writeHead { s with lh := { s.lh with n := 0 } }

/-- The next disk write of `commit` or `recover_from_log`, and the end of `end_op`. -/
def advance : Option (LogState P B) :=
  match s.phase with
  | .recovering t =>
    if t < s.lh.n then some { s.installOne lg t with phase := .recovering (t + 1) }
    else some { s.clearHead with phase := .recovered }
  | .writeLog t =>
    if t < s.lh.n then some { s.writeLogOne lg t with phase := .writeLog (t + 1) }
    else some { s.writeHead with phase := .install 0 }
  | .install t =>
    if t < s.lh.n then some { s.installOne lg t with phase := .install (t + 1) }
    else some { s.clearHead with phase := .finish }
  | .finish =>
    some { s with committing := false, asleep := [], phase := .up, finished := s.finished + 1 }
  | _ => none

/-! ## Power -/

/-- Only the disk survives. -/
def crash : LogState P B :=
  { s with
    mem := s.disk
    lh := ⟨0, fun _ => 0⟩
    outstanding := 0
    committing := false
    phase := .off
    active := []
    asleep := []
    dirty := [] }

/-- `initlog`, up to `read_head`. -/
def initlog : LogState P B :=
  { s with mem := s.disk, lh := s.head.copy s.lh, phase := .recovering 0 }

/-- The first process starts, on the blocks as `recover_from_log` has left them. -/
def start : LogState P B :=
  { s with phase := .up, base := s.disk, txs := [], finished := 0, cur := [], calls := [] }

/-! ## The system -/

inductive Event (P B : Type*)
  | beginOp (p : P)
  | modify (p : P) (b : ℕ) (v : B)
  | logWrite (p : P) (b : ℕ)
  | endOp (p : P)
  /-- `kill` wakes a process that sleeps in `begin_op` -/
  | rouse (p : P)
  | advance
  | crash
  | initlog
  | start

/-- Nobody but `p` holds the lock of block `b` with changes in it. -/
def Mine (p : P) (b : ℕ) : Prop := ∀ x ∈ s.dirty, x.2 = b → x.1 = p

instance (p : P) (b : ℕ) : Decidable (s.Mine p b) := by unfold Mine; infer_instance

def step (lg : LogArea) (e : Event P B) (s : LogState P B) : Option (LogState P B) :=
  match e with
  | .beginOp p =>
    if s.phase.running ∧ s.opOf p = none ∧ p ∉ s.asleep then some (s.beginOp p) else none
  | .modify p b v => (s.opOf p).bind fun o =>
    if lg.Home b ∧ s.Mine p b then some (s.modify o b v) else none
  | .logWrite p b => (s.opOf p).bind fun o =>
    if lg.Home b ∧ s.Mine p b ∧ ¬ s.TooBig lg then some (s.logWrite o b) else none
  | .endOp p => (s.opOf p).bind fun o =>
    -- otherwise panic("log.committing")
    if (∀ x ∈ s.dirty, x.1 ≠ p) ∧ s.committing = false then some (s.endOp o) else none
  | .rouse p => some { s with asleep := s.asleep.filter fun x => decide (x ≠ p) }
  | .advance => s.advance lg
  | .crash => some s.crash
  | .initlog => if s.phase = .off then some s.initlog else none
  | .start => if s.phase = .recovered then some s.start else none

/-! ## What the disk stands for -/

/-- The blocks after some modifications. -/
def after (base : ℕ → B) (mods : List (LogMod B)) : ℕ → B :=
  Redo.apply (mods.map fun m => (m.block, m.data)) base

/-- The redo list the log holds: the entries of a header with the log blocks. -/
def entries (lg : LogArea) (h : LogHeader) (disk : ℕ → B) : List (ℕ × B) :=
  (List.range h.n).map fun i => (h.block i, disk (lg.start + i + 1))

/-- A header that describes a log on the disk: its entries are for home blocks, and there is a log
block for each. -/
structure Sound (lg : LogArea) (h : LogHeader) : Prop where
  home : ∀ i < h.n, lg.Home (h.block i)
  room : ∀ i < h.n, i + 1 < lg.size

/-- The machine before its first boot. -/
def powerOff (lg : LogArea) (disk : ℕ → B) (head : LogHeader) : LogState P B where
  disk := disk
  head := head
  mem := disk
  lh := ⟨0, fun _ => 0⟩
  outstanding := 0
  committing := false
  phase := .off
  active := []
  asleep := []
  dirty := []
  nextOp := 0
  base := Redo.apply (entries lg head disk) disk
  txs := []
  finished := 0
  cur := []
  calls := []

/-- Reached from a disk with any sound log on it, by steps that satisfy `ok`. -/
def ReachableBy (lg : LogArea) (ok : Event P B → LogState P B → Prop) (s : LogState P B) : Prop :=
  ∃ disk head, Sound lg head ∧ Transition.Reaches (step lg) ok (powerOff lg disk head) s

def Reachable (lg : LogArea) (s : LogState P B) : Prop := ReachableBy lg Transition.anyEvent s

end LogState

end Xv6
