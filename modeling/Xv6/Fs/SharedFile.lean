import Xv6.Fs.FileIO

/-!
# A shared offset

Processes that have inherited or duplicated a descriptor share one `struct file`, and with it the offset.
It is protected by the lock of the inode: `fileread` and each section of `filewrite` read the offset,
transfer bytes and advance it with the inode locked. Any number of processes execute such sections in
any order (`Sharers.step`); a call of `filewrite` that is under way is a `WriteTask`.

**Transfers.** What is read and written is recorded, newest first (`Transfer`); no code reads it. Two
facts about every run make up the main result, `shared_file`: the transfers tile the file from the first
offset to the current one (`Tiles`), and what has been written is in the file (`Stored`), as all later
writes are behind it.
-/

open Function List Transition

namespace Xv6

open Fs FsState Volume

/-- A section that has moved bytes: where it started, and how many or which. -/
inductive Transfer
  | read (off len : ℕ)
  | wrote (off : ℕ) (bytes : List UInt8)

namespace Transfer

def off : Transfer → ℕ
  | read o _ | wrote o _ => o

def len : Transfer → ℕ
  | read _ n => n
  | wrote _ l => l.length

end Transfer

/-- A call of `filewrite` that is under way. -/
structure WriteTask where
  src : ℕ → Option UInt8
  n : ℕ
  /-- the variable `i` -/
  done : ℕ

structure Sharers (P : Type) where
  fs : FsState P
  task : P → Option WriteTask
  log : List Transfer

inductive SharedEvent (P : Type)
  /-- a call of `filewrite` begins -/
  | write (p : P) (src : ℕ → Option UInt8) (n : ℤ)
  /-- the loop of `filewrite` goes round -/
  | chunk (p : P)
  /-- a call of `fileread` -/
  | read (p : P) (dst : ℕ → Bool) (n : ℤ)

namespace Sharers

variable {P : Type} [DecidableEq P]

/-- The processes share the file, and nobody reads or writes it. -/
def start (s : FsState P) : Sharers P := ⟨s, fun _ => none, []⟩

def setTask (s : Sharers P) (p : P) (x : Option WriteTask) : Sharers P :=
  { s with task := update s.task p x }

def after (s : Sharers P) (t : FsState P) (x : Transfer) : Sharers P :=
  { s with fs := t, log := if x.len = 0 then s.log else x :: s.log }

/-- One iteration of the loop of `filewrite`. -/
def chunkStep (f : FileId) (s : Sharers P) (p : P) (x : WriteTask) : Option (Sharers P) :=
  if x.done < x.n then
    let n1 := min (x.n - x.done) (3 * BSIZE)
    let src := fun j => x.src (x.done + j)
    match (writeSection f src n1).run s.fs with
    | .ok (r, t) =>
      let s := s.after t (.wrote (s.fs.file f).off (copyin src 0 r.toNat))
      some (s.setTask p (if r ≠ n1 then none else some { x with done := x.done + n1 }))
    | .error _ => none
  else some (s.setTask p none)

/-- What the sharers of the file `f` do. -/
def step (f : FileId) (e : SharedEvent P) (s : Sharers P) : Option (Sharers P) :=
  match e with
  | .write p src n =>
    if s.task p = none then
      some (if (s.fs.file f).writable then s.setTask p (some ⟨src, n.toNat, 0⟩) else s)
    else none
  | .chunk p =>
    match s.task p with
    | some x => s.chunkStep f p x
    | none => none
  | .read p dst n =>
    if s.task p = none then
      match (filereadInode f dst n).run s.fs with
      | .ok ((r, _), t) => some (s.after t (.read (s.fs.file f).off r.toNat))
      | .error _ => none
    else none

/-! ## What holds in every run -/

/-- **The transfers tile the file**: they lead from the offset `o` to the offset `o'` without gap and
overlap, in the order in which they were made (the newest is the first of the list). -/
def Tiles (o : ℕ) : List Transfer → ℕ → Prop
  | [], o' => o' = o
  | x :: l, o' => o' = x.off + x.len ∧ Tiles o l x.off

/-- What has been written is in the file. -/
def Stored (x : Node) (l : List Transfer) : Prop :=
  ∀ o bytes, .wrote o bytes ∈ l → o + bytes.length ≤ x.size ∧
    ∀ j < bytes.length, x.byte (o + j) = bytes.getD j 0

theorem Tiles.end_le {o o' : ℕ} {l : List Transfer} (h : Tiles o l o') {x : Transfer} (hx : x ∈ l) :
    x.off + x.len ≤ o' := by
  induction l generalizing o' with
  | nil => exact absurd hx not_mem_nil
  | cons y l ih =>
    have hy := h.1
    rcases mem_cons.1 hx with rfl | hx
    · exact Nat.le_of_eq hy.symm
    · have := ih h.2 hx
      omega

/-- A later transfer starts where an earlier one has ended, or behind. -/
theorem Tiles.pairwise {o o' : ℕ} {l : List Transfer} (h : Tiles o l o') :
    l.Pairwise fun later earlier => earlier.off + earlier.len ≤ later.off := by
  induction l generalizing o' with
  | nil => exact List.Pairwise.nil
  | cons x l ih => exact pairwise_cons.2 ⟨fun y hy => h.2.end_le hy, ih h.2⟩

theorem Tiles.sum {o o' : ℕ} {l : List Transfer} (h : Tiles o l o') :
    o' = o + (l.map Transfer.len).sum := by
  induction l generalizing o' with
  | nil => exact h
  | cons x l ih =>
    have hx := h.1
    have := ih h.2
    rw [map_cons, sum_cons]
    omega

/-- The invariant of the sharers, from the offset `o` of the file of inode `i` on. -/
structure Inv (f : FileId) (i o : ℕ) (s : Sharers P) : Prop where
  opened : Opened s.fs f
  ip : (s.fs.file f).ip = i
  tiles : Tiles o s.log (s.fs.file f).off
  stored : Stored (s.fs.vol.node i) s.log

variable {f : FileId} {i o : ℕ} {s s' : Sharers P}

variable (h : s.Inv f i o)

include h

omit [DecidableEq P] in
/-- A section is over: it has started at the offset and advanced it, what was before the offset is as it
was, and what it has written is in the file. -/
theorem Inv.after {t : FsState P} {x : Transfer} (hopen : Opened t f)
    (hfile : t.file f = { s.fs.file f with off := (s.fs.file f).off + x.len })
    (hx : x.off = (s.fs.file f).off) (hsize : (s.fs.vol.node i).size ≤ (t.vol.node i).size)
    (hbefore : ∀ p < (s.fs.file f).off, (t.vol.node i).byte p = (s.fs.vol.node i).byte p)
    (hnew : x.len ≠ 0 → Stored (t.vol.node i) [x]) : (s.after t x).Inv f i o := by
  have hold : Stored (t.vol.node i) s.log := by
    intro q bytes hq
    obtain ⟨hle, hbytes⟩ := h.stored q bytes hq
    have hend : q + bytes.length ≤ (s.fs.file f).off := h.tiles.end_le hq
    exact ⟨hle.trans hsize, fun j hj => (hbefore _ (by omega)).trans (hbytes j hj)⟩
  have hoff : (t.file f).off = x.off + x.len := by
    rw [hfile, hx]
  refine ⟨hopen, ?_, ?_, ?_⟩
  · show (t.file f).ip = i
    rw [hfile]
    exact h.ip
  · show Tiles o (if x.len = 0 then s.log else x :: s.log) (t.file f).off
    by_cases hz : x.len = 0
    · rw [if_pos hz, hoff, hz, Nat.add_zero, hx]
      exact h.tiles
    · rw [if_neg hz]
      exact ⟨hoff, hx ▸ h.tiles⟩
  · show Stored (t.vol.node i) (if x.len = 0 then s.log else x :: s.log)
    split_ifs with hz
    · exact hold
    · intro q bytes hq
      rcases mem_cons.1 hq with hq | hq
      · exact hnew hz q bytes (mem_singleton.2 hq)
      · exact hold q bytes hq

theorem Inv.setTask (p : P) (x : Option WriteTask) : (s.setTask p x).Inv f i o :=
  ⟨h.opened, h.ip, h.tiles, h.stored⟩

omit [DecidableEq P] in
theorem Inv.wrote {t : FsState P} {src : ℕ → Option UInt8} {n tot : ℕ}
    (ht : Sectioned f src n tot s.fs t) :
    (s.after t (.wrote (s.fs.file f).off (copyin src 0 tot))).Inv f i o := by
  have hlen : (copyin src 0 tot).length = tot := copyin_length_of fun j hj => by
    rw [Nat.zero_add]
    exact ht.mapped j hj
  have hfile : t.file f = { s.fs.file f with off := (s.fs.file f).off + (copyin src 0 tot).length } := by
    rw [ht.file, update_self, hlen]
  have hnode := ht.node
  rw [h.ip] at hnode
  refine h.after ht.opened hfile rfl ?_ (fun p hp => ?_) fun hne => ?_
  · rcases hnode with ⟨hsame, -⟩ | ⟨-, hw⟩
    · rw [hsame]
    · rw [hw.size]
      exact le_max_left _ _
  · rcases hnode with ⟨hsame, -⟩ | ⟨-, hw⟩
    · rw [hsame]
    · exact hw.rest p (.inl hp)
  · intro q bytes hq
    obtain ⟨rfl, rfl⟩ := Transfer.wrote.inj (mem_singleton.1 hq)
    rcases hnode with ⟨-, htot⟩ | ⟨-, hw⟩
    · exact absurd (hlen.trans htot) hne
    · rw [hlen]
      refine ⟨?_, fun j hj => ?_⟩
      · rw [hw.size]
        exact le_max_right _ _
      · have hget := copyin_getD src 0 tot j (by rw [hlen]; exact hj)
        rw [Nat.zero_add, hw.data j hj] at hget
        exact Option.some.inj hget

omit [DecidableEq P] in
/-- A read: the offset does not pass the end of the file. -/
theorem Inv.read (dst : ℕ → Bool) (n : ℤ) :
    ∃ (r : ℤ) (l : List UInt8) (t : FsState P), (filereadInode f dst n).run s.fs = .ok ((r, l), t) ∧
      (s.after t (.read (s.fs.file f).off r.toNat)).Inv f i o := by
  obtain ⟨t, hrun, hvol, hfile, hheld⟩ := filereadInode_run h.opened dst n
  set res := readResult s.fs f dst n with hres
  have hsum : (s.fs.file f).off + res.1.toNat < 2 ^ 32 := by
    have hlt := h.opened.off_lt
    have hsize := size_le h.opened.owned h.opened.live
    have hmax : MAXFILE * BSIZE < 2 ^ 32 := by decide
    have hnode : (s.fs.vol.node (s.fs.file f).ip).size = (s.fs.eff (s.fs.file f).ip).size :=
      node_size h.opened.live
    rw [hres]
    unfold readResult
    split_ifs
    · have := readTo_within (s.fs.vol.node (s.fs.file f).ip) dst (s.fs.file f).off (n % 2 ^ 32).toNat
      omega
    · exact hlt
  rw [addUint_of_lt hsum] at hfile
  have hf : t.file f = { s.fs.file f with off := (s.fs.file f).off + res.1.toNat } := by
    rw [hfile, update_self]
  refine ⟨res.1, res.2, t, hrun, h.after ?_ hf rfl (by rw [hvol]) (fun p _ => by rw [hvol]) ?_⟩
  · refine ⟨hvol ▸ h.opened.owned, ?_, ?_, ?_, ?_⟩
    · rw [hf]
      exact h.opened.type
    · rw [hf]
      exact hheld
    · rw [hf, hvol]
      exact h.opened.live
    · rw [hf]
      exact hsum
  · intro _ q bytes hq
    cases mem_singleton.1 hq

/-- **Every step of the sharers keeps the invariant.** -/
theorem Inv.step {e : SharedEvent P} (he : s.step f e = some s') : s'.Inv f i o := by
  cases e with
  | write p src n =>
    simp only [Sharers.step] at he
    split_ifs at he
    · cases he
      exact h.setTask p _
    · cases he
      exact h
  | chunk p =>
    simp only [Sharers.step] at he
    cases hp : s.task p with
    | none =>
      rw [hp] at he
      contradiction
    | some x =>
      rw [hp] at he
      simp only [chunkStep] at he
      split_ifs at he
      · have hn1 : min (x.n - x.done) (3 * BSIZE) < 2 ^ 32 :=
          lt_of_le_of_lt (Nat.min_le_right _ _) (by decide)
        obtain ⟨r, t, hrun, ht, -⟩ := writeSection_spec h.opened (fun j => x.src (x.done + j)) hn1
        rw [hrun] at he
        cases he
        exact (h.wrote ht).setTask p _
      · cases he
        exact h.setTask p none
  | read p dst n =>
    simp only [Sharers.step] at he
    split_ifs at he
    obtain ⟨r, l, t, hrun, h'⟩ := h.read dst n
    rw [hrun] at he
    cases he
    exact h'

end Sharers

open Sharers

/-- **Sharers of a file do not overwrite each other.** In every run of the processes that share an open
file: the offset is the first one plus what has been read and written; the sections follow one another
in the file without gap and overlap, in the order in which they were executed; every byte that was
written is in the file; and the next section returns. -/
theorem shared_file {P : Type} [DecidableEq P] {s₀ : FsState P} {f : FileId} (hs : Opened s₀ f)
    {s : Sharers P}
    (h : Reaches (Sharers.step f) anyEvent (Sharers.start s₀) s) :
    (s.fs.file f).off = (s₀.file f).off + (s.log.map Transfer.len).sum ∧
    Tiles (s₀.file f).off s.log (s.fs.file f).off ∧
    (s.log.Pairwise fun later earlier => earlier.off + earlier.len ≤ later.off) ∧
    Stored (s.fs.vol.node (s₀.file f).ip) s.log ∧
    (∀ src n1, n1 ≤ 3 * BSIZE → ∃ r t, (writeSection f src n1).run s.fs = .ok (r, t)) ∧
    ∀ dst n, ∃ r t, (filereadInode f dst n).run s.fs = .ok (r, t) := by
  have hinit : (Sharers.start s₀).Inv f (s₀.file f).ip (s₀.file f).off :=
    ⟨hs, rfl, rfl, fun _ _ hx => absurd hx not_mem_nil⟩
  have hinv : s.Inv f (s₀.file f).ip (s₀.file f).off :=
    h.invariant hinit fun e t u ht _ hu => ht.step hu
  refine ⟨hinv.tiles.sum, hinv.tiles, hinv.tiles.pairwise, hinv.stored, fun src n1 hn1 => ?_,
    fun dst n => ?_⟩
  · obtain ⟨r, t, hrun, -⟩ := writeSection_spec hinv.opened src (lt_of_le_of_lt hn1 (by decide))
    exact ⟨r, t, hrun⟩
  · obtain ⟨t, hrun, -⟩ := filereadInode_run hinv.opened dst n
    exact ⟨_, t, hrun⟩

/-- A process opens a new file and forks. -/
def openAndFork : List (FsCall Bool) :=
  [.open true (some [slash, 102]) (O_CREATE + O_RDWR), .fork true false]

/-- Both begin to write, two bytes and one; the one that began last goes first. -/
def twoWriters : List (SharedEvent Bool) :=
  [.write true (fun _ => some 1) 2, .write false (fun _ => some 2) 1, .chunk false, .chunk true]

/-- The bytes are side by side. -/
theorem shared_file_two_writers : ∃ s : Sharers Bool, (∃ s₀, s₀.Reached sample true ∧ Opened s₀ 0 ∧
      Reaches (Sharers.step 0) anyEvent (Sharers.start s₀) s) ∧
    (s.log.map Transfer.off = [1, 0] ∧ s.log.map Transfer.len = [2, 1]) ∧
    s.log.Pairwise fun later earlier => earlier.off + earlier.len ≤ later.off := by
  have hrun : (run FsCall.step anyEvent openAndFork
      (FsState.boot sample true)).any (fun s₀ => decide ((s₀.file 0).type = .inode ∧
        (s₀.file 0).off = 0 ∧ (run (Sharers.step 0) anyEvent twoWriters (Sharers.start s₀)).any (fun s =>
          decide (s.log.map Transfer.off = [1, 0] ∧ s.log.map Transfer.len = [2, 1])) = true)) = true := by
    decide +kernel
  obtain ⟨s₀, hr0, htype, hoff, hrest⟩ := exists_reaches_of_run hrun
  obtain ⟨s, hr, hs⟩ := exists_reaches_of_run hrest
  obtain ⟨g, hg⟩ := FsState.Reached.running hr0 sample_bootable
  have hopen : Opened s₀ 0 := opened_of_running hg htype (by rw [hoff]; decide)
  exact ⟨s, ⟨s₀, hr0, hopen, hr⟩, hs, (shared_file hopen hr).2.2.1⟩

end Xv6
