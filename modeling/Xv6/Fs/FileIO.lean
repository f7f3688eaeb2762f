import Xv6.Fs.WriteCost
import Xv6.Fs.WriteProof

/-!
# Reading and writing open files

`fileread` and `filewrite` of an open file that is an inode, on a volume where every block belongs
to one file (`Opened`).

**Reading.** `readi` reads what the file holds and stops where the destination is not mapped
(`Node.readTo`, `readi_owned`). Its length is a `uint`, that of `fileread` an `int`.

**Writing.** `filewrite` writes in sections of at most three blocks, each with the inode locked,
from the offset that it finds in the open file (`writeSection`). What a section does is what
`writei` does, and the offset is advanced by what it has written (`writeSection_spec`).

Main results: `filewrite_as_one_write` and `fileread_bounded_iff`.
-/

open Function List Transition

namespace Xv6

open Fs FsState Node Volume

/-! ## Reading -/

namespace Fs

theorem copyout_length_le (dst : ℕ → Bool) (k : ℕ) (l : List UInt8) :
    (copyout dst k l).length ≤ l.length := by
  unfold copyout
  rw [length_take]
  exact Nat.min_le_right _ _

theorem copyout_eq_nil (dst : ℕ → Bool) (k : ℕ) {l : List UInt8} (hl : l ≠ []) :
    copyout dst k l = [] ↔ dst k = false := by
  obtain ⟨x, l, rfl⟩ := exists_cons_of_ne_nil hl
  rw [copyout_cons]
  cases dst k <;> simp

end Fs

namespace Fs

variable {P : Type} {s t u : FsState P} {i off n : ℕ} {dst : ℕ → Bool} {src : ℕ → Option UInt8}
  {err : FsError → Prop}

/-- `ilock` of an inode that is allocated changes nothing but the cache. -/
theorem ilock_returns_live {e : Entry} (he : s.itable i = some e) (hl : s.vol.Live i) :
    ∃ t, (ilock i).run s = .ok ((), t) ∧ t.Valid i ∧ t.vol = s.vol ∧ t.file = s.file ∧
      t.logged = s.logged := by
  by_cases hv : e.valid = true
  · refine ⟨s, ?_, ⟨e, he, hv⟩, rfl, rfl, rfl⟩
    unfold ilock
    rw [Wp.run_bind_eq (entry_run he), if_pos hv]
    rfl
  · have hd : s.eff i = s.dinode i := by simp only [eff, he, hv, if_false, Bool.false_eq_true]
    have htype : (s.dinode i).type ≠ 0 := by
      rw [← hd]
      exact hl.2
    have hrun : (ilock i).run s =
        .ok ((), s.setEntry i (some { e with valid := true, din := s.dinode i })) := by
      unfold ilock
      rw [Wp.run_bind_eq (entry_run he), if_neg hv]
      show (if i < s.sb.ninodes then _ else _ : FsM P Unit).run s = _
      rw [if_pos (show i < s.sb.ninodes from hl.1), if_neg htype]
      rfl
    have hspec : Wp (ilock i) _ (fun _ => True) s := ilock_returns
    obtain ⟨hvalid, hvol, -⟩ := hspec.post_of_run hrun
    exact ⟨_, hrun, hvalid, hvol, rfl, rfl⟩

/-! ## Open files -/

/-- **An open file of type `FD_INODE`**, on a volume where every block belongs to one file: its
inode is referenced and allocated, and its offset is a `uint`. -/
structure Opened (s : FsState P) (f : FileId) : Prop where
  owned : s.vol.Owned
  type : (s.file f).type = .inode
  held : s.itable (s.file f).ip ≠ none
  live : s.vol.Live (s.file f).ip
  off_lt : (s.file f).off < 2 ^ 32

variable {f : FileId}

/-- In a state between system calls a file of this type is one. -/
theorem opened_of_running [Fintype P] [DecidableEq P] {img : Volume} {g : Afs P} (h : Running img s g)
    (hf : (s.file f).type = .inode) (hoff : (s.file f).off < 2 ^ 32) : Opened s f := by
  have hfile : (s.file f) = g.file f := congrFun h.1.file f
  have hheld : (g.file f).held = some (s.file f).ip := by
    rw [hfile]
    exact if_pos (by rw [← hfile, hf]; decide)
  have hv := h.1.held (.inr f) _ ((h.1.files.pts f).trans hheld)
  refine ⟨h.1.owned, hf, ?_, h.1.live _ hv, hoff⟩
  obtain ⟨e, he, -⟩ := hv
  rw [he]
  exact Option.some_ne_none e

theorem Opened.ilock (h : Opened s f) :
    ∃ t, (ilock (s.file f).ip).run s = .ok ((), t) ∧ t.Valid (s.file f).ip ∧ t.vol = s.vol ∧
      t.file = s.file ∧ t.logged = s.logged := by
  obtain ⟨e, he⟩ := Option.ne_none_iff_exists'.1 h.held
  exact ilock_returns_live he h.live

/-- The part of `fileread` for an inode: the result, and the bytes that are stored from the address
on. -/
def filereadInode (f : FileId) (dst : ℕ → Bool) (n : ℤ) : FsM P (ℤ × List UInt8) := do
  let s ← get
  let ff := s.file f
  if ¬ ff.readable then pure (-1, [])
  else do
    ilock ff.ip
    let (r, l) ← readi ff.ip dst ff.off (n % 2 ^ 32).toNat
    if r > 0 then
      modify fun s => s.setFile f { s.file f with off := addUint ff.off r.toNat }
    pure (r, l)

theorem fileread_inode (hf : (s.file f).type = .inode) (n dev : ℤ) :
    (fileread f dst n dev).run s = ((filereadInode f dst n).run s).map fun x => (x.1.1, x.2) := by
  unfold fileread filereadInode
  show (if ¬ (s.file f).readable then _ else _ : FsM P ℤ).run s =
    ((if ¬ (s.file f).readable then _ else _ : FsM P (ℤ × List UInt8)).run s).map _
  by_cases hr : ¬ (s.file f).readable
  · rw [if_pos hr, if_pos hr]
    rfl
  · rw [if_neg hr, if_neg hr, hf]
    cases hl : (ilock (s.file f).ip).run s with
    | error e =>
      rw [Wp.run_bind_error hl, Wp.run_bind_error hl]
      rfl
    | ok x =>
      rw [Wp.run_bind_eq hl, Wp.run_bind_eq hl]
      cases hx : (readi (s.file f).ip dst (s.file f).off (n % 2 ^ 32).toNat).run x.2 with
      | error e =>
        rw [Wp.run_bind_error hx, Wp.run_bind_error hx]
        rfl
      | ok y =>
        rw [Wp.run_bind_eq hx, Wp.run_bind_eq hx]
        by_cases hpos : y.1.1 > 0
        · simp only [hpos, if_true]
          rfl
        · simp only [hpos, if_false]
          rfl

/-- What a read of an open file returns and stores. -/
def readResult (s : FsState P) (f : FileId) (dst : ℕ → Bool) (n : ℤ) : ℤ × List UInt8 :=
  if (s.file f).readable then
    (s.vol.node (s.file f).ip).readTo dst (s.file f).off (n % 2 ^ 32).toNat
  else (-1, [])

/-- **A read of an open file** changes the offset only. -/
theorem filereadInode_run (h : Opened s f) (dst : ℕ → Bool) (n : ℤ) :
    ∃ t, (filereadInode f dst n).run s = .ok (readResult s f dst n, t) ∧ t.vol = s.vol ∧
      t.file = update s.file f { s.file f with
        off := addUint (s.file f).off (readResult s f dst n).1.toNat } ∧
      t.itable (s.file f).ip ≠ none := by
  have hsame : addUint (s.file f).off 0 = (s.file f).off := addUint_of_lt h.off_lt
  unfold readResult
  by_cases hr : (s.file f).readable = true
  · obtain ⟨t, hrun, hv, hvol, hfile, -⟩ := h.ilock
    have ho : t.vol.Owned := hvol ▸ h.owned
    have hl : t.vol.Live (s.file f).ip := hvol ▸ h.live
    have hread := readi_owned dst ho hv hl (s.file f).off
      (show (n % 2 ^ 32).toNat < 2 ^ 32 by omega)
    have hheld : t.itable (s.file f).ip ≠ none := by
      obtain ⟨e, he, -⟩ := hv
      rw [he]
      exact Option.some_ne_none e
    have hstart : (filereadInode f dst n).run s = (do
        let (r, l) ← readi (s.file f).ip dst (s.file f).off (n % 2 ^ 32).toNat
        if r > 0 then
          modify fun u => u.setFile f { u.file f with off := addUint (s.file f).off r.toNat }
        pure (r, l) : FsM P (ℤ × List UInt8)).run t := by
      unfold filereadInode
      show (if ¬ (s.file f).readable then _ else _ : FsM P (ℤ × List UInt8)).run s = _
      rw [if_neg (by simp [hr]), Wp.run_bind_eq hrun]
    rw [hstart, Wp.run_bind_eq hread, if_pos hr, ← hvol]
    set res := (t.vol.node (s.file f).ip).readTo dst (s.file f).off (n % 2 ^ 32).toNat
    by_cases hpos : res.1 > 0
    · simp only [hpos, if_true]
      refine ⟨_, rfl, rfl, ?_, hheld⟩
      show update t.file f { t.file f with off := _ } = _
      rw [hfile]
    · simp only [hpos, if_false]
      refine ⟨t, rfl, rfl, ?_, hheld⟩
      rw [hfile, show res.1.toNat = 0 by omega, hsame]
      exact (update_eq_self f s.file).symm
  · refine ⟨s, ?_, rfl, ?_, h.held⟩
    · unfold filereadInode
      show (if ¬ (s.file f).readable then _ else _ : FsM P (ℤ × List UInt8)).run s = _
      rw [if_pos hr, if_neg hr]
      rfl
    · rw [if_neg hr]
      show s.file = update s.file f { s.file f with off := addUint (s.file f).off 0 }
      rw [hsame]
      exact (update_eq_self f s.file).symm

/-- A read of a length that is not negative delivers no more. -/
theorem readTo_le (x : Node) (dst : ℕ → Bool) (off n : ℕ) :
    (x.readTo dst off n).1 ≤ n ∧ (x.readTo dst off n).2.length ≤ n := by
  have hlen := copyout_length_le dst 0 (x.bytes off (min n (x.size - off)))
  rw [bytes_length] at hlen
  unfold readTo
  by_cases hbad : x.size < off ∨ 2 ^ 32 ≤ off + n
  · rw [if_pos hbad]
    exact ⟨Int.natCast_nonneg n, Nat.zero_le n⟩
  · simp only [if_neg hbad]
    split_ifs
    · exact ⟨by omega, hlen.trans (Nat.min_le_left _ _)⟩
    · exact ⟨by omega, hlen.trans (Nat.min_le_left _ _)⟩

theorem readTo_within (x : Node) (dst : ℕ → Bool) (off n : ℕ) :
    off + (x.readTo dst off n).1.toNat ≤ max off x.size := by
  unfold readTo
  by_cases hbad : x.size < off ∨ 2 ^ 32 ≤ off + n
  · rw [if_pos hbad]
    exact le_max_left _ _
  · simp only [if_neg hbad]
    split_ifs
    · exact le_max_left _ _
    · show off + (min n (x.size - off) : ℕ) ≤ _
      omega

/-- **A read of a negative length**: nothing is delivered exactly if the file has no byte at the
offset, the sum of offset and length overflows, or the first byte is not mapped. -/
theorem readTo_negative (x : Node) (dst : ℕ → Bool) (off : ℕ) {n : ℤ} (hlo : -2 ^ 31 ≤ n)
    (hneg : n < 0) :
    (x.readTo dst off (n % 2 ^ 32).toNat).1 ≤ 0 ∧ (x.readTo dst off (n % 2 ^ 32).toNat).2 = [] ↔
      x.size ≤ off ∨ 0 ≤ off + n ∨ dst 0 = false := by
  have hn : ((n % 2 ^ 32).toNat : ℤ) = n + 2 ^ 32 := by omega
  unfold readTo
  by_cases hbad : x.size < off ∨ 2 ^ 32 ≤ off + (n % 2 ^ 32).toNat
  · rw [if_pos hbad]
    refine iff_of_true ⟨le_rfl, rfl⟩ ?_
    rcases hbad with hbad | hbad
    · exact .inl hbad.le
    · exact .inr (.inl (by omega))
  · rw [if_neg hbad]
    by_cases hend : x.size ≤ off
    · refine iff_of_true ?_ (.inl hend)
      have hzero : min (n % 2 ^ 32).toNat (x.size - off) = 0 := by omega
      simp only [hzero, bytes, range_zero, map_nil, copyout_nil, length_nil,
        Nat.lt_irrefl, if_false]
      exact ⟨le_rfl, trivial⟩
    · have hpos : 0 < min (n % 2 ^ 32).toNat (x.size - off) := by omega
      have hne : x.bytes off (min (n % 2 ^ 32).toNat (x.size - off)) ≠ [] := by
        rw [← length_pos_iff, bytes_length]
        exact hpos
      have hnil := copyout_eq_nil dst 0 hne
      have hsum : ¬ 0 ≤ (off : ℤ) + n := by omega
      simp only [hend, hsum, false_or, ← hnil]
      constructor
      · intro hres
        split_ifs at hres
        · exact hres.2
        · exact hres.2
      · intro hc
        simp only [hc, length_nil, hpos, if_true]
        exact ⟨by decide, trivial⟩

end Fs

/-- **What a read delivers.** A read returns no more than was asked for and stores only where it was
asked to exactly if its length is not negative, the file was not opened for reading, there is no byte
at its offset, the sum of offset and length overflows, or the address is not mapped. -/
theorem fileread_bounded_iff {P : Type} {s : FsState P} {f : FileId} (h : Opened s f)
    (mapped : ℕ → Bool) (addr : ℕ) {n : ℤ} (hlo : -2 ^ 31 ≤ n) (hhi : n < 2 ^ 31) (dev : ℤ) :
    ∃ (r : ℤ) (l : List UInt8) (t : FsState P),
      (filereadInode f (fun k => mapped (addr + k)) n).run s = .ok ((r, l), t) ∧
      (fileread f (fun k => mapped (addr + k)) n dev).run s = .ok (r, t) ∧
      ((r ≤ max n 0 ∧ ∀ a : ℕ, addr ≤ a → a < addr + l.length → (a : ℤ) < addr + max n 0) ↔
        0 ≤ n ∨ (s.file f).readable = false ∨ (s.eff (s.file f).ip).size ≤ (s.file f).off ∨
          0 ≤ (s.file f).off + n ∨ mapped addr = false) := by
  obtain ⟨t, hrun, -⟩ := filereadInode_run h (fun k => mapped (addr + k)) n
  set res := readResult s f (fun k => mapped (addr + k)) n with hres
  refine ⟨res.1, res.2, t, hrun, by rw [fileread_inode h.type, hrun]; rfl, ?_⟩
  have hsize : (s.vol.node (s.file f).ip).size = (s.eff (s.file f).ip).size := node_size h.live
  -- nothing is stored outside of the range exactly if no more bytes are stored than asked for
  have hstored : ∀ l : List UInt8, (∀ a : ℕ, addr ≤ a → a < addr + l.length →
      (a : ℤ) < addr + max n 0) ↔ (l.length : ℤ) ≤ max n 0 := by
    intro l
    constructor
    · intro hl
      by_contra hgt
      have := hl (addr + (max n 0).toNat) (Nat.le_add_right _ _) (by omega)
      omega
    · intro hl a _ ha
      omega
  rw [hstored, hres]
  unfold readResult
  by_cases hr : (s.file f).readable = true
  · rw [if_pos hr]
    by_cases hn : 0 ≤ n
    · have hle := readTo_le (s.vol.node (s.file f).ip) (fun k => mapped (addr + k)) (s.file f).off
        (n % 2 ^ 32).toNat
      exact iff_of_true ⟨by omega, by omega⟩ (.inl hn)
    · have hneg := readTo_negative (s.vol.node (s.file f).ip) (fun k => mapped (addr + k))
        (s.file f).off hlo (by omega)
      rw [hsize] at hneg
      have hmax : max n 0 = 0 := max_eq_right (by omega)
      simp only [hmax, hn, hr, Bool.true_eq_false, false_or, ← length_eq_zero_iff] at hneg ⊢
      rw [Nat.add_zero] at hneg
      rw [← hneg, and_congr_right_iff]
      intro _
      omega
  · rw [if_neg hr]
    exact iff_of_true ⟨by show (-1 : ℤ) ≤ _; omega, by show ((0 : ℕ) : ℤ) ≤ _; omega⟩
      (.inr (.inl (Bool.eq_false_iff.2 hr)))

/-- A run of `twoBytes` leaves an open file of two bytes with offset 0. -/
theorem exists_twoBytes : ∃ s : FsState Unit, s.Reached sample () ∧ Opened s 1 ∧
    ((s.file 1).off = 0 ∧ (s.file 1).readable = true) ∧
    ((filereadInode 1 (fun _ => true) (-1)).run s).toOption.map Prod.fst = some (2, [5, 5]) := by
  have hrun : (run FsCall.step anyEvent twoBytes
      (FsState.boot sample ())).any (fun s => decide (((s.file 1).type = .inode ∧
        (s.file 1).off = 0 ∧ (s.file 1).readable = true) ∧
        ((filereadInode 1 (fun _ => true) (-1)).run s).toOption.map Prod.fst = some (2, [5, 5]))) =
          true := by
    decide +kernel
  obtain ⟨s, hs, ⟨htype, hoff, hread⟩, hres⟩ := exists_reaches_of_run hrun
  obtain ⟨g, hg⟩ := FsState.Reached.running hs sample_bootable
  exact ⟨s, hs, opened_of_running hg htype (by rw [hoff]; decide), ⟨hoff, hread⟩, hres⟩

/-- A byte is read from the start of a file of two. -/
theorem fileread_bounded_one : ∃ (s t : FsState Unit) (r : ℤ) (l : List UInt8), Opened s 1 ∧
    (filereadInode 1 (fun k => decide (1 ≤ 4096 + k)) 1).run s = .ok ((r, l), t) ∧ r ≤ 1 := by
  obtain ⟨s, -, h, -⟩ := exists_twoBytes
  obtain ⟨r, l, t, hrun, -, hiff⟩ := fileread_bounded_iff h (fun a => decide (1 ≤ a)) 4096
    (show -2 ^ 31 ≤ (1 : ℤ) by decide) (by decide) 0
  exact ⟨s, t, r, l, h, hrun, (hiff.2 (.inl (by decide))).1⟩

/-- **A read of length -1 at the start of a file of two bytes delivers both.** -/
theorem negative_read_delivers : ∃ s : FsState Unit, s.Reached sample () ∧
    (s.file 1).off = 0 ∧ ∃ t, (filereadInode 1 (fun _ => true) (-1)).run s = .ok ((2, [5, 5]), t) ∧
      ¬ ((2 : ℤ) ≤ max (-1) 0) := by
  obtain ⟨s, hs, -, hoff, hres⟩ := exists_twoBytes
  refine ⟨s, hs, hoff.1, ?_⟩
  cases hr : (filereadInode 1 (fun _ => true) (-1)).run s with
  | error e =>
    rw [hr] at hres
    contradiction
  | ok x =>
    rw [hr] at hres
    exact ⟨x.2, by rw [← Option.some.inj hres], by decide⟩

/-! ## The blocks that a write may take -/

namespace Fs

variable {P : Type} {s t u : FsState P} {i off n bn : ℕ} {src : ℕ → Option UInt8}
  {err : FsError → Prop} {f : FileId}

/-- The slots of inode `i` for the bytes from `off` to `off + n`. -/
def Needs (i off n : ℕ) (x : ℕ × ℕ) : Prop :=
  ∃ p, off ≤ p ∧ p < off + n ∧
    (x = (i, blockSlot (p / BSIZE)) ∨ x = (i, NDIRECT) ∧ NDIRECT ≤ p / BSIZE)

theorem Needs.mono {off' n' : ℕ} {x : ℕ × ℕ} (h : Needs i off n x) (hlo : off' ≤ off)
    (hhi : off + n ≤ off' + n') : Needs i off' n' x := by
  obtain ⟨p, hp, hp', hx⟩ := h
  exact ⟨p, by omega, by omega, hx⟩

/-- No slot but those of `A` has been filled. -/
def Fills (A : ℕ × ℕ → Prop) (s t : FsState P) : Prop :=
  ∀ x, t.vol.addr x ≠ 0 → s.vol.addr x ≠ 0 ∨ A x

namespace Fills

variable {A A' : ℕ × ℕ → Prop}

theorem refl (A : ℕ × ℕ → Prop) (s : FsState P) : Fills A s s := fun _ h => .inl h

theorem trans (h : Fills A s t) (h' : Fills A t u) : Fills A s u :=
  fun x hx => (h' x hx).elim (h x) .inr

theorem mono (h : Fills A s t) (hA : ∀ x, A x → A' x) : Fills A' s t :=
  fun x hx => (h x hx).imp id (hA x)

theorem of_update {x : ℕ × ℕ} {b : ℕ} (hx : A x) (ht : t.vol.addr = update s.vol.addr x b) :
    Fills A s t := by
  intro y hy
  by_cases hyx : y = x
  · exact .inr (hyx ▸ hx)
  · rw [ht, update_of_ne hyx] at hy
    exact .inl hy

end Fills

theorem Attach.fills {A : ℕ × ℕ → Prop} {a k : ℕ} (h : Attach i k s a t) (hA : A (i, k)) :
    Fills A s t := by
  cases h with
  | full _ _ => exact .refl A s
  | there _ => exact .refl A s
  | new h => exact .of_update hA h.addr

/-- **`bmap` fills the slot of its block**, and that of the indirect block if it needs it. -/
theorem BMap.fills {a : ℕ} (h : BMap i bn s a t) :
    Fills (fun x => x = (i, blockSlot bn) ∨ x = (i, NDIRECT) ∧ NDIRECT ≤ bn) s t := by
  cases h with
  | direct _ h => exact h.fills (.inl rfl)
  | full _ _ _ => exact .refl _ s
  | entry hd h1 _ h => exact (h1.fills (.inr ⟨rfl, Nat.le_of_not_lt hd⟩)).trans (h.fills (.inl rfl))

theorem writeLoop_fills (src : ℕ → Option UInt8) (n fuel off tot : ℕ)
    (hmax : off + (n - tot) ≤ MAXFILE * BSIZE) (ho : s.vol.Owned) (hv : s.Valid i)
      (hl : s.vol.Live i) :
    Wp (writeLoop i n src fuel off tot) (fun _ => Fills (Needs i off (n - tot)) s) err s := by
  induction fuel generalizing off tot s with
  | zero => exact Wp.pure (.refl _ s)
  | succ fuel ih =>
    refine Wp.ite (fun hlt => ?_) fun _ => Wp.pure (.refl _ s)
    have hbn : off / BSIZE < MAXFILE := Nat.div_lt_of_lt_mul (by rw [Nat.mul_comm]; omega)
    refine (bmap_cases ho.toMapped hv hl hbn).bind fun a s1 hmap => ?_
    have h1 := hmap.attached ho.toMapped
    have hf1 : Fills (Needs i off (n - tot)) s s1 :=
      hmap.fills.mono fun x hx => ⟨off, le_rfl, by omega, hx⟩
    have hw1 : Written i off off s s1 := .attached ho h1
    obtain rfl := h1.found
    refine Wp.ite (fun hz => Wp.pure hf1) fun hne => ?_
    refine Wp.run_bind (modifyBlock_run (hw1.owned.inData hne) _) ?_
    set m := min (n - tot) (BSIZE - off % BSIZE)
    set l := copyin src tot m
    have hst := Written.store hw1.owned l hne
    have hsame : (s1.setBlock (s1.vol.addr (i, blockSlot (off / BSIZE)))
        ((s1.block (s1.vol.addr (i, blockSlot (off / BSIZE)))).store (off % BSIZE) l)).vol.addr =
          s1.vol.addr := addr_setBlock hw1.owned.toMapped (blockSlot_ne _) hne _
    have hf2 := hf1.trans (u := s1.setBlock (s1.vol.addr (i, blockSlot (off / BSIZE)))
        ((s1.block (s1.vol.addr (i, blockSlot (off / BSIZE)))).store (off % BSIZE) l)) fun x hx => by
      rw [hsame] at hx
      exact .inl hx
    refine Wp.ite (fun _ => Wp.pure hf2) fun _ => Wp.modify_bind ?_
    have hw2 := (hw1.mono le_rfl (Nat.le_add_right off l.length)).trans (hst.setLogged
      (s1.vol.addr (i, blockSlot (off / BSIZE)) :: s1.logged))
    have hm : m ≤ n - tot := Nat.min_le_left _ _
    refine (ih (off + m) (tot + m) (by omega) hw2.owned (hw2.kept.valid hv) (hw2.live hl)).mono
      fun _ t ht => hf2.trans (ht.mono fun x hx => hx.mono (by omega) (by omega))

theorem writei_fills (ho : s.vol.Owned) (hv : s.Valid i) (hl : s.vol.Live i) (src : ℕ → Option UInt8)
    (hoff : off < 2 ^ 32) (hn : n < 2 ^ 32) :
    Wp (writei i src off n) (fun _ => Fills (Needs i off n) s) (fun _ => True) s := by
  refine Wp.run_bind (inode_run hv) (Wp.ite (fun _ => Wp.pure (.refl _ s)) fun hgood => ?_)
  rw [addUint_lt_iff hoff hn] at hgood
  rw [addUint_of_lt (by omega)]
  refine Wp.ite (fun _ => Wp.pure (.refl _ s)) fun hmax => ?_
  refine ((writeLoop_ends src n n off 0 (Nat.zero_le _) le_rfl (by omega) ho hv hl).and
    (writeLoop_fills src n n off 0 (by omega) ho hv hl)).bind fun r t ⟨⟨_, hloop, hend⟩, hf⟩ => ?_
  have h := WriteLoop.of_ending hloop hend
  have hl1 := h.written.live hl
  refine (updateInode_spec (h.written.kept.valid hv) hl1.1 _).bind fun _ u hu => Wp.pure ?_
  have haddr : u.vol.addr = t.vol.addr := by
    rw [hu.vol]
    exact addr_setInode (addr_setInode_fields hl1 rfl hl1.2)
  exact hf.trans fun x hx => .inl (haddr ▸ hx)

/-! ## Sections of a write -/

end Fs

/-! ## Sections of a write -/

/-- The contents when `l` has been written at `off`: nothing happens without bytes. -/
def Node.overwrite (x : Node) (off : ℕ) (l : List UInt8) : Node := if l = [] then x else x.store off l

theorem Node.store_append (x : Node) (off : ℕ) (a b : List UInt8) :
    (x.store off a).store (off + a.length) b = x.store off (a ++ b) := by
  refine Node.ext rfl rfl ?_ (funext fun p => ?_)
  · show max (max x.size (off + a.length)) (off + a.length + b.length) =
      max x.size (off + (a ++ b).length)
    rw [length_append]
    omega
  · show (if off + a.length ≤ p ∧ p < off + a.length + b.length then b.getD (p - (off + a.length)) 0
      else if off ≤ p ∧ p < off + a.length then a.getD (p - off) 0 else x.byte p) =
      if off ≤ p ∧ p < off + (a ++ b).length then (a ++ b).getD (p - off) 0 else x.byte p
    rw [length_append]
    by_cases hb : off + a.length ≤ p ∧ p < off + a.length + b.length
    · rw [if_pos hb, if_pos (by omega), getD_append_right _ _ _ _ (by omega), Nat.sub_add_eq]
    · rw [if_neg hb]
      by_cases ha : off ≤ p ∧ p < off + a.length
      · rw [if_pos ha, if_pos (by omega), getD_append _ _ _ _ (by omega)]
      · rw [if_neg ha, if_neg (by omega)]

theorem Node.overwrite_append (x : Node) (off : ℕ) (a b : List UInt8) :
    (x.overwrite off a).overwrite (off + a.length) b = x.overwrite off (a ++ b) := by
  unfold overwrite
  by_cases ha : a = []
  · simp [ha]
  · by_cases hb : b = []
    · simp [ha, hb]
    · rw [if_neg ha, if_neg hb, if_neg (by simp [ha]), store_append]

theorem Node.overwrite_eq_store (x : Node) {off : ℕ} (hoff : off ≤ x.size) (l : List UInt8) :
    x.overwrite off l = x.store off l := by
  unfold Node.overwrite
  split_ifs with hl
  · subst hl
    refine Node.ext rfl rfl (max_eq_left hoff).symm (funext fun p => ?_)
    show x.byte p = if off ≤ p ∧ p < off + 0 then _ else x.byte p
    rw [if_neg (by omega)]
  · rfl

namespace Fs

variable {P : Type} {s t u : FsState P} {i off n k m : ℕ} {src : ℕ → Option UInt8}
  {err : FsError → Prop} {f : FileId}

theorem copyin_shift (src : ℕ → Option UInt8) (k j m : ℕ) :
    copyin (fun l => src (k + l)) j m = copyin src (k + j) m := by
  induction m generalizing j with
  | zero => rfl
  | succ m ih =>
    unfold copyin
    rw [ih (j + 1)]
    rfl

theorem copyin_succ {x : UInt8} (hx : src k = some x) (m : ℕ) :
    copyin src k (m + 1) = x :: copyin src (k + 1) m := by
  conv_lhs => unfold copyin
  rw [hx]

theorem copyin_add (hsrc : ∀ j < m, src (k + j) ≠ none) :
    copyin src k (m + n) = copyin src k m ++ copyin src (k + m) n := by
  induction m generalizing k with
  | zero => simp [copyin]
  | succ m ih =>
    cases hx : src k with
    | none => exact absurd hx (hsrc 0 (Nat.succ_pos m))
    | some x =>
      have hrest := ih (k := k + 1) fun j hj => by
        rw [Nat.add_right_comm, Nat.add_assoc]
        exact hsrc (j + 1) (Nat.succ_lt_succ hj)
      rw [Nat.add_right_comm m 1 n, copyin_succ hx, copyin_succ hx, hrest, cons_append,
        Nat.add_right_comm k 1 m, Nat.add_assoc k m 1]

/-- No copy stops in the middle of a block: the first byte that is not mapped, if any, is the first of
the request or of a block. -/
def Unbroken (off n : ℕ) (src : ℕ → Option UInt8) : Prop :=
  ∀ j < n, src j = none → (∀ k < j, src k ≠ none) → j = 0 ∨ (off + j) % BSIZE = 0

theorem Block.store_nil (b : Block) (o : ℕ) : b.store o [] = b := by
  funext k
  exact if_neg (by simp)

/-- Where no copy stops in the middle of a block, nothing is stored that does not count. -/
theorem WriteRun.clean {tot : ℕ} {s1 t0 : FsState P} (h : WriteRun s i off n src tot s1 t0 t)
    (hc : Unbroken off n src) : t0 = s1 := by
  obtain ⟨t1, ht1, he⟩ : ∃ t1, t1 = t0 ∧ Ending i n src (tot, off + tot) s1 t1 := ⟨t0, rfl, h.ending⟩
  rw [← ht1]
  cases he with
  | done _ => rfl
  | full _ _ _ => rfl
  | fault hlt ha hshort =>
    obtain ⟨hfn, hmapped, hnone, hblock⟩ := h.loop.fault hshort
    have hlast := hblock _ (Nat.le_add_right _ _) le_rfl
    have hempty : (copyin src tot (chunk n (tot, off + tot))).length = 0 := by
      rcases hc _ hfn hnone hmapped with hz | hz
      · omega
      · simp only [BSIZE] at *
        omega
    rw [length_eq_zero_iff.1 hempty, Block.store_nil]
    show { s1 with block := update s1.block _ (s1.block _) } = s1
    rw [update_eq_self]

/-- **What `writei` does to the file**: if it is not refused, the bytes that count are in the file,
and, where no copy stops in the middle of a block, nothing else has changed. -/
structure WroteTo (i off n : ℕ) (src : ℕ → Option UInt8) (tot : ℕ) (s t : FsState P) : Prop where
  le : tot ≤ n
  start : off ≤ (s.eff i).size
  max : off + tot ≤ MAXFILE * BSIZE
  mapped : ∀ j < tot, src j ≠ none
  changed : Changed i (t.vol.node i) s t
  live : t.vol.Live i
  addr : ∀ x, s.vol.addr x ≠ 0 → t.vol.addr x ≠ 0
  node : WriteNode off n src tot (s.vol.node i) (t.vol.node i)
  exact : Unbroken off n src → t.vol.node i = (s.vol.node i).overwrite off (copyin src 0 tot)
  /-- all is written if the source is mapped and there are free blocks -/
  full : tot < n → (∀ j < n, src j ≠ none) → NoFree t ∧ blockAt t i (off + tot) = 0

theorem writei_wrote (ho : s.vol.Owned) (hv : s.Valid i) (hl : s.vol.Live i) (src : ℕ → Option UInt8)
    (hoff : off < 2 ^ 32) (hn : n < 2 ^ 32) :
    ∃ (r : ℤ) (t : FsState P), (writei i src off n).run s = .ok (r, t) ∧ Fills (Needs i off n) s t ∧
      ((Refused s i off n ∧ r = -1 ∧ t = s) ∨
        (¬ Refused s i off n ∧ ∃ tot : ℕ, r = tot ∧ WroteTo i off n src tot s t)) := by
  obtain ⟨r, t, hrun, hres⟩ := writei_run ho hv hl src hoff hn
  have hspec : Wp (writei i src off n) _ (fun _ => True) s := writei_spec ho hv hl src hn
  have hnode := hspec.post_of_run hrun
  have hends := (writei_ends ho hv hl src hoff hn).post_of_run hrun
  refine ⟨r, t, hrun, (writei_fills ho hv hl src hoff hn).post_of_run hrun, ?_⟩
  rcases hres with ⟨href, hr⟩ | ⟨tot, s1, t0, rfl, h⟩
  · refine .inl ⟨href, hr, ?_⟩
    rcases hends with ⟨-, -, ht⟩ | ⟨hacc, -⟩
    · exact ht
    · exact absurd href hacc
  · have hacc := h.accepted
    refine .inr ⟨hacc, tot, rfl, ?_⟩
    rcases hnode with ⟨hr, -⟩ | ⟨tot', hr, -, hstart, -, y, hy, hch⟩
    · omega
    obtain rfl : tot = tot' := by omega
    have hyt : t.vol.node i = y := by rw [hch.node, update_self]
    have hle := h.loop.le_n
    unfold Refused at hacc
    refine ⟨hle, hstart, by have : tot ≤ n := hle; omega, fun j hj => h.loop.mapped hj,
      by rw [hyt]; exact hch,
      h.live, fun x hx => ?_, h.node, fun hc => ?_, fun hlt hsrc => ?_⟩
    · obtain ⟨hi, -, htook⟩ := h.loop.took
      rw [h.addr, htook.addr x hx]
      exact hx
    · have hsize := h.size hl
      rw [overwrite_eq_store _ (by rw [node_size hl]; exact hstart)]
      refine h.node.eq_store_copyin (fun p => node_byte_of_ge _ i) (fun p => node_byte_of_ge _ i) ?_
      intro p hp hps
      rw [node_size hl] at hps
      have hps : p < (s.eff i).size := hps
      rw [node_byte h.live (show p < (t.eff i).size by omega), node_byte hl hps, h.byte, h.clean hc]
      exact h.loop.written.byte p (ho.addr_ne_zero hl hps) (.inr hp)
    · rcases hends with ⟨href, -⟩ | ⟨-, tot', s2, t2, hr', hloop, hend, hacc', hbit, -, haddr, -⟩
      · exact absurd href h.accepted
      obtain rfl : tot = tot' := by omega
      obtain ⟨t3, ht3, he⟩ : ∃ t3, t3 = t2 ∧ Ending i n src (tot, off + tot) s2 t3 := ⟨t2, rfl, hend⟩
      cases he with
      | done hd => exact absurd hd (Nat.ne_of_lt hlt)
      | full _ ha hfull =>
        subst ht3
        refine ⟨?_, by unfold blockAt; rw [haddr]; exact ha⟩
        unfold NoFree
        rw [hacc'.sb, hbit]
        exact hfull
      | fault _ _ hshort =>
        obtain ⟨hfn, -, hnone, -⟩ := hloop.fault hshort
        exact absurd hnone (hsrc _ hfn)

/-- **A section of `filewrite`**, with the inode locked. -/
def writeSection (f : FileId) (src : ℕ → Option UInt8) (n1 : ℕ) : FsM P ℤ := do
  beginOp
  let s ← get
  let ff := s.file f
  ilock ff.ip
  let r ← writei ff.ip src ff.off n1
  if r > 0 then
    modify fun s => s.setFile f { s.file f with off := addUint ff.off r.toNat }
  endOp
  pure r

theorem filewriteLoop_succ (f : FileId) (src : ℕ → Option UInt8) (n fuel k : ℕ) :
    (filewriteLoop f src n (fuel + 1) k : FsM P ℕ) = if k < n then do
        let r ← writeSection f (fun j => src (k + j)) (min (n - k) (3 * BSIZE))
        if r ≠ (min (n - k) (3 * BSIZE) : ℕ) then pure k
        else filewriteLoop f src n fuel (k + min (n - k) (3 * BSIZE))
      else pure k := by
  conv_lhs => unfold filewriteLoop
  unfold writeSection
  simp only [bind_assoc]
  congr 1
  refine bind_congr fun _ => bind_congr fun s => bind_congr fun _ => bind_congr fun r => ?_
  by_cases hr : r > 0
  · simp only [hr, if_true, bind_assoc, pure_bind]
  · simp only [hr, if_false, bind_assoc, pure_bind]

/-- The state after a section that has written `tot` bytes. -/
structure Sectioned (f : FileId) (src : ℕ → Option UInt8) (n tot : ℕ) (s t : FsState P) : Prop where
  opened : Opened t f
  file : t.file = update s.file f { s.file f with off := (s.file f).off + tot }
  sb : t.sb = s.sb
  addr : ∀ x, s.vol.addr x ≠ 0 → t.vol.addr x ≠ 0
  le : tot ≤ n
  mapped : ∀ j < tot, src j ≠ none
  other : ∀ j, j ≠ (s.file f).ip → t.vol.node j = s.vol.node j
  node : t.vol.node (s.file f).ip = s.vol.node (s.file f).ip ∧ tot = 0 ∨
    (s.file f).off ≤ (s.eff (s.file f).ip).size ∧
    WriteNode (s.file f).off n src tot (s.vol.node (s.file f).ip) (t.vol.node (s.file f).ip)
  exact : Unbroken (s.file f).off n src → t.vol.node (s.file f).ip =
    (s.vol.node (s.file f).ip).overwrite (s.file f).off (copyin src 0 tot)

/-- The end of a section: the offset is advanced, and the transaction ends. -/
theorem section_end (r : ℤ) (hfile : t.file = s.file) (hlt : (s.file f).off + r.toNat < 2 ^ 32) :
    ∃ u, (do
        if r > 0 then
          modify fun v => v.setFile f { v.file f with off := addUint (s.file f).off r.toNat }
        endOp
        pure r : FsM P ℤ).run t = .ok (r, u) ∧ u.vol = t.vol ∧ u.itable = t.itable ∧
      u.file = update s.file f { s.file f with off := (s.file f).off + r.toNat } := by
  rw [addUint_of_lt hlt]
  by_cases hr : r > 0
  · simp only [hr, if_true]
    refine ⟨_, rfl, rfl, rfl, ?_⟩
    show update t.file f { t.file f with off := (s.file f).off + r.toNat } = _
    rw [hfile]
  · simp only [hr, if_false]
    refine ⟨_, rfl, rfl, rfl, ?_⟩
    rw [show r.toNat = 0 by omega, Nat.add_zero]
    exact hfile.trans (update_eq_self f s.file).symm

theorem writeSection_spec (h : Opened s f) (src : ℕ → Option UInt8) (hn : n < 2 ^ 32) :
    ∃ (r : ℤ) (t : FsState P), (writeSection f src n).run s = .ok (r, t) ∧
      Sectioned f src n r.toNat s t ∧ (r = -1 ∨ 0 ≤ r) := by
  have hopen : Opened (s.setLogged []) f := ⟨h.owned, h.type, h.held, h.live, h.off_lt⟩
  obtain ⟨u, hlock, hv, hvol, hfile⟩ : ∃ u, (ilock (s.file f).ip).run (s.setLogged []) =
    .ok ((), u) ∧ u.Valid (s.file f).ip ∧ u.vol = s.vol ∧ u.file = s.file := by
    obtain ⟨u, hlock, hv, hvol, hfile, -⟩ := hopen.ilock
    exact ⟨u, hlock, hv, hvol, hfile⟩
  have heff : u.eff = s.eff := congrArg Volume.inode hvol
  have hsb : u.sb = s.sb := congrArg Volume.sb hvol
  have hl : u.vol.Live (s.file f).ip := hvol ▸ h.live
  obtain ⟨r, t, hrun, -, hres⟩ := writei_wrote (hvol ▸ h.owned) hv hl src h.off_lt hn
  have hstart : (writeSection f src n).run s = (do
      if r > 0 then
        modify fun v => v.setFile f { v.file f with off := addUint (s.file f).off r.toNat }
      endOp
      pure r : FsM P ℤ).run t := by
    unfold writeSection
    show (do
      ilock (s.file f).ip
      let r ← writei (s.file f).ip src (s.file f).off n
      if r > 0 then
        modify fun v => v.setFile f { v.file f with off := addUint (s.file f).off r.toNat }
      endOp
      pure r : FsM P ℤ).run (s.setLogged []) = _
    rw [Wp.run_bind_eq hlock, Wp.run_bind_eq hrun]
  rw [hstart]
  -- the file is still open when the offset is moved
  have hopened : ∀ {w : FsState P}, w.vol.Owned → w.vol.Live (s.file f).ip → w.Valid (s.file f).ip →
      (s.file f).off + r.toNat < 2 ^ 32 →
      w.file = update s.file f { s.file f with off := (s.file f).off + r.toNat } →
      Opened w f := by
    intro w ho hl hv hlt hw
    have hf : w.file f = { s.file f with off := (s.file f).off + r.toNat } := by
      rw [hw, update_self]
    obtain ⟨e, he, -⟩ := hv
    refine ⟨ho, ?_, ?_, ?_, ?_⟩
    · rw [hf]
      exact h.type
    · rw [hf]
      exact he ▸ Option.some_ne_none e
    · rw [hf]
      exact hl
    · rw [hf]
      exact hlt
  rcases hres with ⟨-, rfl, rfl⟩ | ⟨-, tot, rfl, hw⟩
  · obtain ⟨w, hend, hwvol, hwtab, hwfile⟩ := section_end (f := f) (-1) hfile (by
      rw [show (-1 : ℤ).toNat = 0 from rfl]
      exact h.off_lt)
    rw [hvol] at hwvol
    refine ⟨-1, w, hend, ?_, .inl rfl⟩
    have hvalid : w.Valid (s.file f).ip := by
      unfold FsState.Valid
      rw [hwtab]
      exact hv
    refine ⟨hopened (hwvol ▸ h.owned) (hwvol ▸ h.live) hvalid h.off_lt hwfile, hwfile,
      congrArg Volume.sb hwvol, fun x hx => ?_, Nat.zero_le n, fun j hj => absurd hj
        (Nat.not_lt_zero j),
      fun j _ => by rw [hwvol], .inl ⟨by rw [hwvol], rfl⟩, fun _ => by rw [hwvol]; rfl⟩
    rw [hwvol]
    exact hx
  · have hmax := hw.max
    have hlt : (s.file f).off + tot < 2 ^ 32 := lt_of_le_of_lt hmax (by decide)
    have hkept := hw.changed.kept
    obtain ⟨w, hend, hwvol, hwtab, hwfile⟩ := section_end (f := f) (s := s) (tot : ℤ)
      (hkept.file.trans hfile) hlt
    refine ⟨tot, w, hend, ?_, .inr (Int.natCast_nonneg tot)⟩
    have hvalid : w.Valid (s.file f).ip := by
      unfold FsState.Valid
      rw [hwtab]
      exact hkept.valid hv
    rw [Int.toNat_natCast]
    refine ⟨hopened (hwvol ▸ hw.changed.owned) (hwvol ▸ hw.live) hvalid hlt hwfile, hwfile, ?_,
      fun x hx => ?_, hw.le, hw.mapped, fun j hj => ?_, .inr ⟨heff ▸ hw.start, ?_⟩, fun hc => ?_⟩
    · exact (congrArg Volume.sb hwvol).trans (hkept.sb.trans hsb)
    · rw [hwvol]
      exact hw.addr x (hvol ▸ hx)
    · rw [hwvol, hw.changed.node, update_of_ne hj, hvol]
    · rw [hwvol, ← hvol]
      exact hw.node
    · rw [hwvol, ← hvol]
      exact hw.exact hc

/-! ## The loop of sections -/

/-- **The first `k` bytes of the source have been written**, from the state `s` on. -/
structure Prefix (f : FileId) (src : ℕ → Option UInt8) (k : ℕ) (s t : FsState P) : Prop where
  opened : Opened t f
  file : t.file = update s.file f { s.file f with off := (s.file f).off + k }
  sb : t.sb = s.sb
  addr : ∀ x, s.vol.addr x ≠ 0 → t.vol.addr x ≠ 0
  start : 0 < k → (s.file f).off ≤ (s.eff (s.file f).ip).size
  mapped : ∀ j < k, src j ≠ none
  node : t.vol.node = update s.vol.node (s.file f).ip
    ((s.vol.node (s.file f).ip).overwrite (s.file f).off (copyin src 0 k))

namespace Prefix

theorem refl (h : Opened s f) (src : ℕ → Option UInt8) : Prefix f src 0 s s where
  opened := h
  file := (update_eq_self f s.file).symm
  sb := rfl
  addr _ hx := hx
  start hk := absurd hk (Nat.lt_irrefl 0)
  mapped _ hj := absurd hj (Nat.not_lt_zero _)
  node := (update_eq_self _ s.vol.node).symm

theorem next {tot : ℕ} (hs : Opened s f) (h : Prefix f src k s t)
    (h' : Sectioned f (fun j => src (k + j)) n tot t u)
    (hc : Unbroken ((s.file f).off + k) n fun j => src (k + j)) : Prefix f src (k + tot) s u := by
  have hf : t.file f = { s.file f with off := (s.file f).off + k } := by
    rw [h.file, update_self]
  have hlen : (copyin src 0 k).length = k := copyin_length_of fun j hj => by
    rw [Nat.zero_add]
    exact h.mapped j hj
  have hnode := h'.exact (by rw [hf]; exact hc)
  have hnodet : t.vol.node (s.file f).ip =
      (s.vol.node (s.file f).ip).overwrite (s.file f).off (copyin src 0 k) := by
    rw [h.node, update_self]
  refine ⟨h'.opened, ?_, h'.sb.trans h.sb, fun x hx => h'.addr x (h.addr x hx), fun hpos => ?_,
    fun j hj => ?_, ?_⟩
  · rw [h'.file, hf, h.file, update_idem, Nat.add_assoc]
  · rcases Nat.eq_zero_or_pos k with rfl | hk
    · -- the first section that writes starts within the file
      rcases h'.node with ⟨-, htot⟩ | ⟨hle, -⟩
      · omega
      · have hlive : t.vol.Live (s.file f).ip := by
          have := h.opened.live
          rwa [hf] at this
        have hsize : (t.eff (s.file f).ip).size = (s.eff (s.file f).ip).size := by
          have hsame : t.vol.node (s.file f).ip = s.vol.node (s.file f).ip := hnodet
          have := congrArg size hsame
          rwa [node_size hlive, node_size hs.live] at this
        rw [hf] at hle
        rw [← hsize]
        exact hle
    · exact h.start hk
  · by_cases hjk : j < k
    · exact h.mapped j hjk
    · have := h'.mapped (j - k) (by omega)
      rwa [Nat.add_sub_cancel' (Nat.le_of_not_lt hjk)] at this
  · funext j
    by_cases hj : j = (s.file f).ip
    · subst hj
      rw [hf] at hnode
      have hnode : u.vol.node (s.file f).ip = (t.vol.node (s.file f).ip).overwrite
        ((s.file f).off + k) (copyin (fun j => src (k + j)) 0 tot) := hnode
      rw [update_self, hnode, hnodet, copyin_shift, Nat.add_zero]
      have happ := overwrite_append (s.vol.node (s.file f).ip) (s.file f).off (copyin src 0 k)
        (copyin src k tot)
      rw [hlen] at happ
      rw [happ, copyin_add fun j hj => by rw [Nat.zero_add]; exact h.mapped j hj, Nat.zero_add]
    · rw [update_of_ne hj, h'.other j (by rw [hf]; exact hj), h.node, update_of_ne hj]

end Prefix

/-- No copy stops in the middle of a block: the first byte that is not mapped, if any, is the first of
a block or of a section. -/
def Whole (off n : ℕ) (src : ℕ → Option UInt8) : Prop :=
  ∀ j < n, src j = none → (∀ k < j, src k ≠ none) → j % (3 * BSIZE) = 0 ∨ (off + j) % BSIZE = 0

theorem Whole.unbroken (h : Whole off n src) (hk : k % (3 * BSIZE) = 0)
    (hmapped : ∀ j < k, src j ≠ none)
    (hm : k + m ≤ n) (hm3 : m ≤ 3 * BSIZE) : Unbroken (off + k) m fun j => src (k + j) := by
  intro j hj hnone hbefore
  have hall : ∀ l < k + j, src l ≠ none := by
    intro l hl
    by_cases hlk : l < k
    · exact hmapped l hlk
    · have hl : src (k + (l - k)) ≠ none := hbefore (l - k) (by omega)
      rwa [Nat.add_sub_cancel' (Nat.le_of_not_lt hlk)] at hl
  rcases h (k + j) (by omega) hnone hall with hz | hz
  · left
    simp only [BSIZE] at *
    omega
  · right
    rwa [Nat.add_assoc]

theorem filewriteLoop_prefix (hs : Opened s f) (hc : Whole (s.file f).off n src) (fuel k : ℕ)
    (hfuel : n - k ≤ fuel)
    (hk : k = n ∨ k < n ∧ k % (3 * BSIZE) = 0) (h : Prefix f src k s t) :
    ∃ (k' m : ℕ) (u : FsState P), (filewriteLoop f src n fuel k).run t = .ok (k', u) ∧
      Prefix f src m s u ∧ m ≤ n ∧ (k' = n → m = n) := by
  induction fuel generalizing k t with
  | zero => exact ⟨k, k, t, rfl, h, by omega, id⟩
  | succ fuel ih =>
    rw [filewriteLoop_succ]
    by_cases hlt : k < n
    · have hmod : k % (3 * BSIZE) = 0 := by omega
      rw [if_pos hlt]
      have hpos : 0 < 3 * BSIZE := by decide
      set n1 := min (n - k) (3 * BSIZE) with hn1
      have hn1lt : n1 < 2 ^ 32 := lt_of_le_of_lt (Nat.min_le_right _ _) (by decide)
      obtain ⟨r, u, hrun, hsec, hr⟩ := writeSection_spec h.opened (fun j => src (k + j)) hn1lt
      have hnext := h.next hs hsec (hc.unbroken hmod h.mapped (by omega) (Nat.min_le_right _ _))
      have hle := hsec.le
      rw [Wp.run_bind_eq hrun]
      by_cases hne : r ≠ (n1 : ℤ)
      · rw [if_pos hne]
        exact ⟨k, k + r.toNat, u, rfl, hnext, by omega, fun he => by omega⟩
      · rw [if_neg hne]
        have htot : r.toNat = n1 := by omega
        rw [htot] at hnext
        refine ih (k + n1) (by omega) ?_ hnext
        simp only [BSIZE] at *
        omega
    · rw [if_neg hlt]
      exact ⟨k, k, t, rfl, h, by omega, id⟩

/-- **A write that succeeds in sections succeeds at once**: when all its bytes are in the file there
are enough blocks. -/
theorem writei_of_prefix (h : Prefix f src n s t) (hs : Opened s f) (hn : 0 < n) (hn32 : n < 2 ^ 32) :
    ∃ u, (do
        ilock (s.file f).ip
        writei (s.file f).ip src (s.file f).off n : FsM P ℤ).run s = .ok ((n : ℤ), u) ∧
      u.vol.node = t.vol.node := by
  have hfile : t.file f = { s.file f with off := (s.file f).off + n } := by
    rw [h.file, update_self]
  have hlive : t.vol.Live (s.file f).ip := by
    have := h.opened.live
    rwa [hfile] at this
  have hlen : (copyin src 0 n).length = n := copyin_length_of fun j hj => by
    rw [Nat.zero_add]
    exact h.mapped j hj
  have hsize : (t.eff (s.file f).ip).size = max (s.eff (s.file f).ip).size ((s.file f).off + n) := by
    have hnode : t.vol.node (s.file f).ip =
        (s.vol.node (s.file f).ip).store (s.file f).off (copyin src 0 n) := by
      rw [h.node, update_self, overwrite_eq_store]
      rw [Volume.node_size hs.live]
      exact h.start hn
    have hsize := congrArg size hnode
    rw [Volume.node_size hlive] at hsize
    refine hsize.trans ?_
    show max (s.vol.node (s.file f).ip).size ((s.file f).off + (copyin src 0 n).length) = _
    rw [Volume.node_size hs.live, hlen]
    rfl
  have hmax : (s.file f).off + n ≤ MAXFILE * BSIZE := by
    have := size_le h.opened.owned hlive
    omega
  obtain ⟨u0, hlock, hv, hvol, -⟩ := hs.ilock
  have heff : u0.eff = s.eff := congrArg Volume.inode hvol
  obtain ⟨r, u, hrun, hfills, hres⟩ := writei_wrote (hvol ▸ hs.owned) hv
    (hvol ▸ hs.live) src hs.off_lt hn32
  rw [Wp.run_bind_eq hlock, hrun]
  rcases hres with ⟨href, -⟩ | ⟨-, tot, rfl, hw⟩
  · have hstart := h.start hn
    have : MAXFILE * BSIZE < 2 ^ 32 := by decide
    unfold Refused at href
    rw [heff] at href
    omega
  have hle := hw.le
  obtain rfl : tot = n := by
    by_contra hne
    obtain ⟨hfull, hmiss⟩ := hw.full (by omega) h.mapped
    -- the blocks of this write are among those of the sections
    have hneeds : ∀ x, Needs (s.file f).ip (s.file f).off n x → t.vol.addr x ≠ 0 := by
      rintro x ⟨p, hp, hp', hx⟩
      have hblock : t.vol.addr ((s.file f).ip, blockSlot (p / BSIZE)) ≠ 0 :=
        h.opened.owned.addr_ne_zero hlive (show p < (t.eff (s.file f).ip).size by omega)
      rcases hx with rfl | ⟨rfl, hind⟩
      · exact hblock
      · intro hz
        rw [blockSlot_entry (Nat.not_lt.2 hind)] at hblock
        exact hblock (Volume.addr_entry_zero hz)
    have hsub : ∀ x, u.vol.addr x ≠ 0 → t.vol.addr x ≠ 0 := by
      intro x hx
      rcases hfills x hx with hx | hx
      · exact h.addr x (hvol ▸ hx)
      · exact hneeds x hx
    have hsb : t.vol.sb = u.vol.sb := by
      show t.sb = u.sb
      rw [h.sb, hw.changed.kept.sb]
      exact (congrArg Volume.sb hvol).symm
    have hfin : Finite {b // u.vol.sb.InData b} :=
      Finite.of_injective (fun b => (⟨b.1, b.2.2⟩ : Fin u.vol.sb.size)) fun b c hbc =>
        Subtype.ext (congrArg Fin.val hbc)
    have hmap := h.opened.owned.map
    rw [hsb] at hmap
    exact hw.changed.owned.map.own_ne_zero_of_full hmap (fun b hb => hfull b hb.2) hsub
      (hneeds _ ⟨(s.file f).off + tot, by omega, by omega, .inl rfl⟩) hmiss
  refine ⟨u, rfl, ?_⟩
  have hexact := hw.exact fun j hj hnone _ => absurd hnone (h.mapped j hj)
  rw [hw.changed.node, hexact, h.node, hvol]

theorem writei_nothing (src : ℕ → Option UInt8) (hs : Opened s f) : ∃ (r : ℤ) (u : FsState P), (do
      ilock (s.file f).ip
      writei (s.file f).ip src (s.file f).off 0 : FsM P ℤ).run s = .ok (r, u) ∧
    u.vol.node = s.vol.node := by
  obtain ⟨u0, hlock, hv, hvol, -⟩ := hs.ilock
  obtain ⟨r, u, hrun, -, hres⟩ := writei_wrote (hvol ▸ hs.owned) hv (hvol ▸ hs.live) src hs.off_lt
    (show 0 < 2 ^ 32 by decide)
  rw [Wp.run_bind_eq hlock, hrun]
  refine ⟨r, u, rfl, ?_⟩
  rcases hres with ⟨-, -, rfl⟩ | ⟨-, tot, -, hw⟩
  · rw [hvol]
  · obtain rfl : tot = 0 := Nat.le_zero.1 hw.le
    have hexact := hw.exact fun j hj => absurd hj (Nat.not_lt_zero j)
    rw [hw.changed.node, hexact, ← hvol]
    exact update_eq_self _ _

theorem Prefix.result (h : Prefix f src k s t) : (copyin src 0 k).length = k ∧
    t.file = update s.file f { s.file f with off := (s.file f).off + k } ∧
    t.vol.node = update s.vol.node (s.file f).ip
      ((s.vol.node (s.file f).ip).overwrite (s.file f).off (copyin src 0 k)) :=
  ⟨copyin_length_of fun j hj => by rw [Nat.zero_add]; exact h.mapped j hj, h.file, h.node⟩

end Fs

/-- **Chunked writes.** A call of `filewrite` returns `n` or -1. If it returns `n`, the files are as
after one `writei` of all bytes at the old offset, and the offset has moved by `n`; if it returns
-1, a prefix of the source has been written at the old offset, and the offset has moved by its
length. -/
theorem filewrite_as_one_write {P : Type} {s : FsState P} {f : FileId} (hs : Opened s f)
    (src : ℕ → Option UInt8) {n : ℤ} (hn : 0 ≤ n) (hn31 : n < 2 ^ 31)
    (hc : Whole (s.file f).off n.toNat src) (dev : ℤ) :
    ∃ (r : ℤ) (t : FsState P), (filewrite f src n dev).run s = .ok (r, t) ∧ (r = n ∨ r = -1) ∧
      (r = n → (t.file = update s.file f { s.file f with off := (s.file f).off + n.toNat }) ∧
        ∃ (r' : ℤ) (u : FsState P), (do
            ilock (s.file f).ip
            writei (s.file f).ip src (s.file f).off n.toNat : FsM P ℤ).run s = .ok (r', u) ∧
          (0 < n → r' = n) ∧ t.vol.node = u.vol.node) ∧
      (r = -1 → ∃ k : ℕ, k ≤ n.toNat ∧ (copyin src 0 k).length = k ∧
        t.file = update s.file f { s.file f with off := (s.file f).off + k } ∧
        t.vol.node = update s.vol.node (s.file f).ip
          ((s.vol.node (s.file f).ip).overwrite (s.file f).off (copyin src 0 k))) := by
  have hzero : Prefix f src 0 s s := .refl hs src
  by_cases hw : (s.file f).writable = true
  · obtain ⟨k', m, t, hrun, hp, hm, hk⟩ := filewriteLoop_prefix hs hc n.toNat 0 (Nat.sub_le _ _)
      (by rcases Nat.eq_zero_or_pos n.toNat with h0 | hpos
          · exact .inl h0.symm
          · exact .inr ⟨hpos, rfl⟩) hzero
    have hcall : (filewrite f src n dev).run s = .ok (if (k' : ℤ) = n then n else -1, t) := by
      unfold filewrite
      show (if ¬ (s.file f).writable then _ else _ : FsM P ℤ).run s = _
      rw [if_neg (not_not.2 hw), hs.type, Wp.run_bind_eq hrun]
      rfl
    refine ⟨_, t, hcall, ?_, fun hr => ?_, fun _ => ⟨m, hm, hp.result⟩⟩
    · by_cases hkn : (k' : ℤ) = n
      · exact .inl (if_pos hkn)
      · exact .inr (if_neg hkn)
    · have hkn : (k' : ℤ) = n := by
        by_contra hkn
        rw [if_neg hkn] at hr
        omega
      obtain rfl := hk (by omega)
      refine ⟨hp.file, ?_⟩
      rcases Nat.eq_zero_or_pos n.toNat with h0 | hpos
      · rw [h0] at hp ⊢
        obtain ⟨r', u, hrun', hnode⟩ := writei_nothing src hs
        refine ⟨r', u, hrun', fun h => by omega, ?_⟩
        rw [hnode, hp.node]
        exact update_eq_self _ _
      · obtain ⟨u, hrun', hnode⟩ := writei_of_prefix hp hs hpos (by omega)
        exact ⟨_, u, hrun', fun _ => Int.toNat_of_nonneg hn, hnode.symm⟩
  · refine ⟨-1, s, ?_, .inr rfl, fun h => by omega, fun _ => ⟨0, Nat.zero_le _, hzero.result⟩⟩
    unfold filewrite
    show (if ¬ (s.file f).writable then _ else _ : FsM P ℤ).run s = _
    rw [if_pos hw]
    rfl

/-- Two bytes written over a file of two bytes. -/
theorem filewrite_as_one_write_twoBytes : ∃ (s : FsState Unit) (r : ℤ) (t : FsState Unit),
    Opened s 1 ∧ (filewrite 1 (fun _ => some 7) 2 0).run s = .ok (r, t) ∧ (r = 2 ∨ r = -1) := by
  obtain ⟨s, -, hs, -⟩ := exists_twoBytes
  obtain ⟨r, t, hrun, hr, -⟩ := filewrite_as_one_write hs (fun _ => some 7)
    (show (0 : ℤ) ≤ 2 by decide) (by decide) (fun j _ hnone => absurd hnone (Option.some_ne_none _)) 0
  exact ⟨s, r, t, hs, hrun, hr⟩

end Xv6
