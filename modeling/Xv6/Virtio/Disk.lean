import Mathlib.Data.Fintype.Sum
import Xv6.Fs.Layout
import Xv6.Lib.Transition
import Xv6.Lib.Wp

/-!
# The disk driver and its device

`virtio_disk_rw` and `virtio_disk_intr` of `kernel/virtio_disk.c`, executed by any number of
processes and harts, and a device that works at the same time. Driver and device share the
descriptors, the two rings, the command headers, the status bytes and the buffers.

**Driver.** All of it runs under `disk.vdisk_lock`, but the device does not care for the lock. So a
call has a location (`Loc`, `IntrLoc`) and goes on by one access to shared memory at a time, or by
several of which the device can see nothing: it looks at descriptors only when they are in a chain
that it has found in the avail ring. `sleep` and `wakeup` are atomic with respect to the lock, and a
sleeping process may also wake up for no reason (`kill`).

**Device.** It takes the entries of the avail ring in order, works on what it has taken in any
order, and reports each chain in the used ring. Every access is a step of its own. What it does not
understand is an error (`DiskError.badChain`).

**Pointers.** A descriptor holds the address of a command header, of the data of a buffer or of a
status byte (`Addr`). That these objects are different is all that is known of their addresses.

**Ghost state.** `started` counts the calls for a buffer, `done` has the requests for a buffer that
the device has completed, newest first. No code reads them.

**Left out.** `QUEUE_NOTIFY` and `INTERRUPT_ACK`: the device may go on at any time, and may
interrupt at any time.
-/

open Function

namespace Xv6.Virtio

abbrev NUM : ℕ := 8

abbrev VRING_DESC_F_NEXT : ℕ := 1

abbrev VRING_DESC_F_WRITE : ℕ := 2

abbrev VIRTIO_BLK_T_IN : ℕ := 0

abbrev VIRTIO_BLK_T_OUT : ℕ := 1

/-! ## Memory -/

/-- What a descriptor points to, in a driver with the buffers `B`. -/
inductive Addr (B : Type)
  | null
  /-- `&disk.ops[i]` -/
  | op (i : ℕ)
  /-- `b->data` -/
  | data (b : B)
  /-- `&disk.info[i].status` -/
  | status (i : ℕ)
  deriving DecidableEq, Repr

structure VirtqDesc (B : Type) where
  addr : Addr B
  len : ℕ
  flags : ℕ
  next : ℕ
  deriving DecidableEq, Repr

structure VirtqAvail where
  idx : UInt16
  ring : ℕ → ℕ

/-- `struct virtq_used`, with the `id` of each element. -/
structure VirtqUsed where
  idx : UInt16
  ring : ℕ → ℕ

structure VirtioBlkReq where
  type : ℕ
  reserved : ℕ
  sector : ℕ
  deriving DecidableEq, Repr

/-- An element of `disk.info`. -/
structure Info (B : Type) where
  b : Option B
  status : UInt8
  deriving DecidableEq, Repr

/-- `struct disk`, less its spinlock. -/
structure Disk (B : Type) where
  desc : ℕ → VirtqDesc B
  avail : VirtqAvail
  used : VirtqUsed
  free : ℕ → Bool
  usedIdx : UInt16
  info : ℕ → Info B
  ops : ℕ → VirtioBlkReq

/-- What the driver uses of a `struct buf`. -/
structure DiskBuf where
  disk : ℕ
  blockno : UInt32
  data : ℕ → UInt8

/-! ## Threads -/

/-- The three descriptors of a request, `idx[0]`, `idx[1]` and `idx[2]`. -/
structure Chain where
  head : ℕ
  data : ℕ
  status : ℕ
  deriving DecidableEq, Repr

def Chain.list (c : Chain) : List ℕ := [c.head, c.data, c.status]

/-- Where `virtio_disk_rw` is. -/
inductive Loc
  /-- the loop that allocates three descriptors -/
  | alloc
  /-- before the descriptors are filled in -/
  | format (c : Chain)
  /-- before the head is stored in the avail ring -/
  | ring (c : Chain)
  /-- before `disk.avail->idx += 1` -/
  | bump (c : Chain)
  /-- the loop that waits for the device -/
  | wait (c : Chain)
  /-- after that loop -/
  | clear (c : Chain)
  /-- in `free_chain`, before descriptor `i` is freed -/
  | freeChain (c : Chain) (i : ℕ)
  /-- before `release(&disk.vdisk_lock)` -/
  | release
  deriving DecidableEq, Repr

/-- A call `virtio_disk_rw(b, write)`. -/
structure Task (B : Type) where
  buf : B
  write : Bool
  loc : Loc
  deriving DecidableEq, Repr

/-- Where `virtio_disk_intr` is. -/
inductive IntrLoc
  /-- the test `disk.used_idx != disk.used->idx` -/
  | check
  /-- before `id` is read from the used ring -/
  | readId
  /-- before the status byte is tested -/
  | status (id : ℕ)
  /-- before `b->disk = 0` -/
  | finish (id : ℕ)
  /-- before `release(&disk.vdisk_lock)` -/
  | release
  deriving DecidableEq, Repr

/-- What a thread does about the lock. -/
inductive Mode
  /-- it is in no call -/
  | idle
  /-- in `acquire(&disk.vdisk_lock)`, also that at the end of `sleep` -/
  | acquiring
  /-- it has the lock -/
  | running
  | asleep
  deriving DecidableEq, Repr

/-- The channels `&disk.free[0]` and `b`. -/
inductive Chan (B : Type)
  | free
  | buf (b : B)
  deriving DecidableEq, Repr

/-- Where the call sleeps. -/
def Task.chan {B : Type} (t : Task B) : Option (Chan B) :=
  match t.loc with
  | .alloc => some .free
  | .wait _ => some (.buf t.buf)
  | _ => none

/-! ## The device -/

/-- A transfer: which buffer, in which direction, from or to which sector, and the bytes of the buffer
when it has been done. -/
structure Request (B : Type) where
  buf : B
  write : Bool
  sector : ℕ
  len : ℕ
  data : ℕ → UInt8

/-- How far the device is with a chain that it has taken. -/
inductive Work (B : Type)
  | taken
  /-- the transfer is done -/
  | transferred (r : Request B)
  /-- the status byte is written -/
  | reported (r : Request B)

structure Device (B : Type) where
  /-- the next entry of the avail ring -/
  lastAvail : UInt16
  /-- the chains the device works on, by their heads -/
  work : ℕ → Option (Work B)
  /-- what has been stored in the used ring, before `idx` is incremented -/
  appended : Option (ℕ × Request B)
  done : B → List (Request B)

/-- The driver with the processes `P` and the harts `H`, the device, and the bytes of the disk. -/
structure DiskState (P H B : Type) where
  task : P → Option (Task B)
  intr : H → Option IntrLoc
  mode : P ⊕ H → Mode
  /-- who holds `disk.vdisk_lock` -/
  lock : Option (P ⊕ H)
  disk : Disk B
  buf : B → DiskBuf
  medium : ℕ → UInt8
  device : Device B
  started : B → ℕ

/-- The panics of the driver, an access outside an array or through a null pointer, and a chain that
the device does not understand. -/
inductive DiskError
  | freeDesc1
  | freeDesc2
  | intrStatus
  | wild
  | badChain
  deriving DecidableEq, Repr

abbrev DiskM (P H B : Type) := StateT (DiskState P H B) (Except DiskError)

namespace DiskState

variable {P H B : Type}

def setDisk (s : DiskState P H B) (d : Disk B) : DiskState P H B := { s with disk := d }

def setDevice (s : DiskState P H B) (v : Device B) : DiskState P H B := { s with device := v }

def wakeup [DecidableEq P] [DecidableEq B] (ch : Chan B) (s : DiskState P H B) : DiskState P H B :=
  { s with mode := fun x => match x with
      | .inl p =>
        if s.mode (.inl p) = .asleep ∧ (s.task p).bind Task.chan = some ch then .acquiring
        else s.mode (.inl p)
      | .inr h => s.mode (.inr h) }

variable [DecidableEq P] [DecidableEq H]

def setMode (s : DiskState P H B) (x : P ⊕ H) (m : Mode) : DiskState P H B :=
  { s with mode := update s.mode x m }

/-- `acquire(&disk.vdisk_lock)` gets the lock. -/
def acquire (s : DiskState P H B) (x : P ⊕ H) : DiskState P H B :=
  { s.setMode x .running with lock := some x }

/-- The lock is released, to sleep or for good. -/
def release (s : DiskState P H B) (x : P ⊕ H) (m : Mode) : DiskState P H B :=
  { s.setMode x m with lock := none }

def leave (s : DiskState P H B) (p : P) : DiskState P H B :=
  { s.release (.inl p) .idle with task := update s.task p none }

def leaveIntr (s : DiskState P H B) (h : H) : DiskState P H B :=
  { s.release (.inr h) .idle with intr := update s.intr h none }

/-- The call `t` of `p` goes to another location. -/
def goto (s : DiskState P H B) (p : P) (t : Task B) (l : Loc) : DiskState P H B :=
  { s with task := update s.task p (some { t with loc := l }) }

def gotoIntr (s : DiskState P H B) (h : H) (l : IntrLoc) : DiskState P H B :=
  { s with intr := update s.intr h (some l) }

def setBuf [DecidableEq B] (s : DiskState P H B) (b : B) (x : DiskBuf) : DiskState P H B :=
  { s with buf := update s.buf b x }

end DiskState

open DiskState

variable {P H B : Type} [DecidableEq P] [DecidableEq H] [DecidableEq B]

/-! ## Descriptors -/

/-- Find a free descriptor and mark it. -/
def allocDesc : DiskM P H B (Option ℕ) := do
  let s ← get
  match (List.range NUM).find? s.disk.free with
  | some i => do
    set (s.setDisk { s.disk with free := update s.disk.free i false })
    pure (some i)
  | none => pure none

/-- The descriptor is cleared and marked, and who waits for one is woken. -/
def markFree (s : DiskState P H B) (i : ℕ) : DiskState P H B :=
  let desc := update s.disk.desc i ⟨.null, 0, 0, 0⟩
  let free := update s.disk.free i true
  (s.setDisk { s.disk with desc := desc, free := free }).wakeup .free

def freeDesc (i : ℕ) : DiskM P H B Unit :=
  if i ≥ NUM then throw .freeDesc1
  else do
    let s ← get
    if s.disk.free i then throw .freeDesc2
    else set (markFree s i)

/-- The loop of `alloc3_desc`, with `n` descriptors to go and `idx` allocated. -/
def alloc3Loop : ℕ → List ℕ → DiskM P H B (Option (List ℕ))
  | 0, idx => pure (some idx)
  | n + 1, idx => do
    match ← allocDesc with
    | some i => alloc3Loop n (idx ++ [i])
    | none => do
      idx.forM freeDesc
      pure none

def alloc3Desc : DiskM P H B (Option Chain) := do
  match ← alloc3Loop 3 [] with
  | some [i, j, k] => pure (some ⟨i, j, k⟩)
  | _ => pure none

/-! ## The driver -/

/-- `b->blockno * (BSIZE / 512)` -/
def DiskBuf.sector (b : DiskBuf) : ℕ := (b.blockno * UInt32.ofNat (BSIZE / 512)).toNat

/-- The command header of a request. -/
def header (write : Bool) (b : DiskBuf) : VirtioBlkReq :=
  ⟨if write then VIRTIO_BLK_T_OUT else VIRTIO_BLK_T_IN, 0, b.sector⟩

/-- The three descriptors of a request. -/
def headDesc (c : Chain) : VirtqDesc B := ⟨.op c.head, 16, VRING_DESC_F_NEXT, c.data⟩

def dataDesc (c : Chain) (t : Task B) : VirtqDesc B :=
  ⟨.data t.buf, BSIZE, (if t.write then 0 else VRING_DESC_F_WRITE) ||| VRING_DESC_F_NEXT, c.status⟩

def statusDesc (c : Chain) : VirtqDesc B := ⟨.status c.head, 1, VRING_DESC_F_WRITE, 0⟩

/-- The three descriptors are filled in, and `b` is recorded for `virtio_disk_intr`. -/
def fill (s : DiskState P H B) (t : Task B) (c : Chain) : DiskState P H B :=
  let d := s.disk
  let ops := update d.ops c.head (header t.write (s.buf t.buf))
  let desc := update d.desc c.head (headDesc c)
  let desc := update desc c.data (dataDesc c t)
  let info := update d.info c.head { d.info c.head with status := 0xff }
  let desc := update desc c.status (statusDesc c)
  let s := s.setBuf t.buf { s.buf t.buf with disk := 1 }
  let info := update info c.head { info c.head with b := some t.buf }
  s.setDisk { d with ops := ops, desc := desc, info := info }

/-- `disk.avail->ring[disk.avail->idx % NUM] = idx[0]` -/
def storeHead (s : DiskState P H B) (c : Chain) : DiskState P H B :=
  let ring := update s.disk.avail.ring (s.disk.avail.idx.toNat % NUM) c.head
  s.setDisk { s.disk with avail := { s.disk.avail with ring := ring } }

/-- `disk.avail->idx += 1` -/
def bumpAvail (s : DiskState P H B) : DiskState P H B :=
  s.setDisk { s.disk with avail := { s.disk.avail with idx := s.disk.avail.idx + 1 } }

/-- `disk.info[idx[0]].b = 0` -/
def clearInfo (s : DiskState P H B) (c : Chain) : DiskState P H B :=
  let info := update s.disk.info c.head { s.disk.info c.head with b := none }
  s.setDisk { s.disk with info := info }

/-- One step of `virtio_disk_rw`, by a process that has the lock. -/
def virtioDiskRw (p : P) (t : Task B) : DiskM P H B Unit :=
  match t.loc with
  | .alloc => do
    match ← alloc3Desc with
    | some c => modify fun s => s.goto p t (.format c)
    | none => modify fun s => s.release (.inl p) .asleep
  | .format c => modify fun s => (fill s t c).goto p t (.ring c)
  | .ring c => modify fun s => (storeHead s c).goto p t (.bump c)
  | .bump c => modify fun s => (bumpAvail s).goto p t (.wait c)
  | .wait c => modify fun s =>
    if (s.buf t.buf).disk = 1 then s.release (.inl p) .asleep else s.goto p t (.clear c)
  | .clear c => modify fun s => (clearInfo s c).goto p t (.freeChain c c.head)
  | .freeChain c i => do
    let s ← get
    let flag := (s.disk.desc i).flags
    let nxt := (s.disk.desc i).next
    freeDesc i
    if flag &&& VRING_DESC_F_NEXT ≠ 0 then modify fun s => s.goto p t (.freeChain c nxt)
    else modify fun s => s.goto p t .release
  | .release => modify fun s => s.leave p

/-- `b->disk = 0`, `wakeup(b)` and `disk.used_idx += 1` -/
def finish (s : DiskState P H B) (b : B) : DiskState P H B :=
  let s := (s.setBuf b { s.buf b with disk := 0 }).wakeup (.buf b)
  s.setDisk { s.disk with usedIdx := s.disk.usedIdx + 1 }

/-- One step of `virtio_disk_intr`, by a hart that has the lock. -/
def virtioDiskIntr (h : H) (l : IntrLoc) : DiskM P H B Unit :=
  match l with
  | .check => modify fun s =>
    s.gotoIntr h (if s.disk.usedIdx ≠ s.disk.used.idx then .readId else .release)
  | .readId => modify fun s => s.gotoIntr h (.status (s.disk.used.ring (s.disk.usedIdx.toNat % NUM)))
  | .status id => do
    let s ← get
    if id ≥ NUM then throw .wild
    else if (s.disk.info id).status ≠ 0 then throw .intrStatus
    else set (s.gotoIntr h (.finish id))
  | .finish id => do
    let s ← get
    match (s.disk.info id).b with
    | none => throw .wild
    | some b => set ((finish s b).gotoIntr h .check)
  | .release => modify fun s => s.leaveIntr h

/-! ## Steps of the device -/

/-- What the device finds in a chain. -/
structure Found (B : Type) where
  op : VirtioBlkReq
  buf : B
  len : ℕ
  /-- whose status byte it is -/
  status : ℕ

/-- **A chain that the device understands**: a header that it can read, the data, which it writes if
it has to read the disk, and a status byte that it can write. -/
def findChain (d : Disk B) (i : ℕ) : Option (Found B) :=
  let d₀ := d.desc i
  let d₁ := d.desc d₀.next
  let d₂ := d.desc d₁.next
  match d₀.addr, d₁.addr, d₂.addr with
  | .op k, .data b, .status m =>
    let r := d.ops k
    let dir := if r.type = VIRTIO_BLK_T_OUT then 0 else VRING_DESC_F_WRITE
    if (r.type = VIRTIO_BLK_T_IN ∨ r.type = VIRTIO_BLK_T_OUT) ∧ d₀.len = 16 ∧
        d₀.flags = VRING_DESC_F_NEXT ∧ d₁.flags = dir ||| VRING_DESC_F_NEXT ∧
        d₂.len = 1 ∧ d₂.flags = VRING_DESC_F_WRITE then
      some ⟨r, b, d₁.len, m⟩
    else none
  | _, _, _ => none

/-- The bytes of a buffer after a read of `len` bytes at a sector. -/
def readSectors (medium : ℕ → UInt8) (sector len : ℕ) (data : ℕ → UInt8) : ℕ → UInt8 :=
  fun k => if k < len then medium (sector * 512 + k) else data k

/-- The bytes of the disk after a write of `len` bytes at a sector. -/
def writeSectors (data : ℕ → UInt8) (sector len : ℕ) (medium : ℕ → UInt8) : ℕ → UInt8 :=
  fun a => if sector * 512 ≤ a ∧ a < sector * 512 + len then data (a - sector * 512) else medium a

/-- The transfer that a chain asks for. -/
def transfer (s : DiskState P H B) (f : Found B) : Request B × DiskState P H B :=
  let x := s.buf f.buf
  if f.op.type = VIRTIO_BLK_T_OUT then
    (⟨f.buf, true, f.op.sector, f.len, x.data⟩,
      { s with medium := writeSectors x.data f.op.sector f.len s.medium })
  else
    let data := readSectors s.medium f.op.sector f.len x.data
    (⟨f.buf, false, f.op.sector, f.len, data⟩, s.setBuf f.buf { x with data := data })

/-- The steps of the device. -/
inductive DeviceStep
  | take
  | transfer (i : ℕ)
  | report (i : ℕ)
  | append (i : ℕ)
  | publish
  deriving DecidableEq, Repr

/-- The device takes chain `i`. -/
def takeChain (s : DiskState P H B) (i : ℕ) : DiskState P H B :=
  let v := s.device
  s.setDevice { v with lastAvail := v.lastAvail + 1, work := update v.work i (some .taken) }

/-- The device is at another point with chain `i`. -/
def setWork (s : DiskState P H B) (i : ℕ) (w : Work B) : DiskState P H B :=
  s.setDevice { s.device with work := update s.device.work i (some w) }

/-- The device writes 0 to a status byte. -/
def writeStatus (s : DiskState P H B) (m : ℕ) : DiskState P H B :=
  let info := update s.disk.info m { s.disk.info m with status := 0 }
  s.setDisk { s.disk with info := info }

/-- The device stores the head of a chain in the used ring. -/
def appendUsed (s : DiskState P H B) (i : ℕ) (r : Request B) : DiskState P H B :=
  let v := s.device
  let ring := update s.disk.used.ring (s.disk.used.idx.toNat % NUM) i
  (s.setDisk { s.disk with used := { s.disk.used with ring := ring } }).setDevice
    { v with work := update v.work i none, appended := some (i, r) }

def publishUsed (s : DiskState P H B) (r : Request B) : DiskState P H B :=
  let v := s.device
  (s.setDisk { s.disk with used := { s.disk.used with idx := s.disk.used.idx + 1 } }).setDevice
    { v with appended := none, done := update v.done r.buf (r :: v.done r.buf) }

/-- Device steps that are possible now. -/
def DeviceStep.run (a : DeviceStep) (s : DiskState P H B) :
    Option (Except DiskError (DiskState P H B)) :=
  match a with
  | .take =>
    if s.device.lastAvail ≠ s.disk.avail.idx then
      some (.ok (takeChain s (s.disk.avail.ring (s.device.lastAvail.toNat % NUM))))
    else none
  | .transfer i =>
    match s.device.work i with
    | some .taken =>
      match findChain s.disk i with
      | some f =>
        let (r, s) := Virtio.transfer s f
        some (.ok (setWork s i (.transferred r)))
      | none => some (.error .badChain)
    | _ => none
  | .report i =>
    match s.device.work i with
    | some (.transferred r) =>
      match findChain s.disk i with
      | some f => some (.ok (setWork (writeStatus s f.status) i (.reported r)))
      | none => some (.error .badChain)
    | _ => none
  | .append i =>
    match s.device.work i, s.device.appended with
    | some (.reported r), none => some (.ok (appendUsed s i r))
    | _, _ => none
  | .publish =>
    match s.device.appended with
    | some (_, r) => some (.ok (publishUsed s r))
    | none => none

/-! ## Runs -/

/-- The events. A call is for a buffer that nobody else has locked, with any contents. -/
inductive Event (P H B : Type)
  | call (p : P) (b : B) (write : Bool) (blockno : UInt32) (data : ℕ → UInt8)
  | interrupt (h : H)
  /-- a thread gets the lock -/
  | acquire (x : P ⊕ H)
  /-- a process goes on -/
  | rw (p : P)
  /-- a hart goes on -/
  | intr (h : H)
  /-- a process wakes up for no reason -/
  | rouse (p : P)
  | device (a : DeviceStep)

/-- The state after a piece of code, or its error. -/
def exec (m : DiskM P H B Unit) (s : DiskState P H B) : Except DiskError (DiskState P H B) :=
  (m.run s).map Prod.snd

/-- `virtio_disk_rw(b, write)` is called, for a buffer with these contents. -/
def enter (s : DiskState P H B) (p : P) (b : B) (write : Bool) (blockno : UInt32) (data : ℕ → UInt8) :
    DiskState P H B :=
  { (s.setBuf b { s.buf b with blockno := blockno, data := data }).setMode (.inl p) .acquiring with
    task := update s.task p (some ⟨b, write, .alloc⟩)
    started := update s.started b (s.started b + 1) }

/-- What an event does, if it can happen. -/
def next [Fintype P] (e : Event P H B) (s : DiskState P H B) :
    Option (Except DiskError (DiskState P H B)) :=
  match e with
  | .call p b write blockno data =>
    if s.task p = none ∧ ∀ q, (s.task q).map Task.buf ≠ some b then
      some (.ok (enter s p b write blockno data))
    else none
  | .interrupt h =>
    if s.intr h = none then some (.ok ((s.gotoIntr h .check).setMode (.inr h) .acquiring)) else none
  | .acquire x => if s.mode x = .acquiring ∧ s.lock = none then some (.ok (s.acquire x)) else none
  | .rw p =>
    match s.task p with
    | some t => if s.mode (.inl p) = .running then some (exec (virtioDiskRw p t) s) else none
    | none => none
  | .intr h =>
    match s.intr h with
    | some l => if s.mode (.inr h) = .running then some (exec (virtioDiskIntr h l) s) else none
    | none => none
  | .rouse p => if s.mode (.inl p) = .asleep then some (.ok (s.setMode (.inl p) .acquiring)) else none
  | .device a => a.run s

def step [Fintype P] (e : Event P H B) (s : DiskState P H B) : Option (DiskState P H B) :=
  (next e s).bind Except.toOption

/-- After `virtio_disk_init`, with any buffers and any contents of the disk. -/
def init (buf : B → DiskBuf) (medium : ℕ → UInt8) : DiskState P H B where
  task := fun _ => none
  intr := fun _ => none
  mode := fun _ => .idle
  lock := none
  disk :=
    { desc := fun _ => ⟨.null, 0, 0, 0⟩
      avail := ⟨0, fun _ => 0⟩
      used := ⟨0, fun _ => 0⟩
      free := fun i => decide (i < NUM)
      usedIdx := 0
      info := fun _ => ⟨none, 0⟩
      ops := fun _ => ⟨0, 0, 0⟩ }
  buf := buf
  medium := medium
  device := ⟨0, fun _ => none, none, fun _ => []⟩
  started := fun _ => 0

/-- The states that are reached by the events, in any order. -/
def Reached [Fintype P] (s : DiskState P H B) : Prop :=
  ∃ buf medium, Transition.Reaches step Transition.anyEvent (init buf medium) s

end Xv6.Virtio
