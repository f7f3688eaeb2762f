import Mathlib.Tactic.IntervalCases
import Xv6.Lib.Transition
import Xv6.Fs.PathProof

/-!
# Runs of system calls

System calls follow one another from the state after boot. The first process has the root directory as its
current directory and has called `exec("/init")`, so that the root directory has been read; there are no open
files. An image without a root directory does not get this far: `ilock` panics.

Between calls the state represents an abstract file system in which no call holds anything (`Running`), as
`call_spec` says that a call leads from such a state to another one.

Main results, for every run: `blocks_owned`, `files_counted`, `commits_tidy` and `calls_refine`.
-/

open List Option Transition

namespace Xv6

open FsState Volume

variable {P : Type} [DecidableEq P]

/-- A file structure that is not in use. -/
def File.unused : File := ⟨.none, 0, false, false, 0, 0, 0, 0⟩

/-- **The state after boot** from the image `img`. -/
def FsState.boot (img : Volume) (init : P) : FsState P where
  sb := img.sb
  dinode := img.inode
  bit := img.bit
  block := img.block
  logged := []
  itable i := if i = ROOTINO then some ⟨1, true, img.inode ROOTINO⟩ else none
  file _ := .unused
  pipe _ := none
  proc p := ⟨fun _ => none, if p = init then some ROOTINO else none⟩
  commits := []

/-- The image has a root directory, and blocks belong to one file each. -/
structure Volume.Bootable (img : Volume) : Prop where
  owned : img.Owned
  root : (img.inode ROOTINO).type ≠ 0

/-- Every inode that is allocated has a link. -/
def Volume.Linked (img : Volume) : Prop := ∀ i, img.Live i → (img.inode i).nlink ≠ 0

/-- The state is reached from the image by system calls. -/
def FsState.Reached (img : Volume) (init : P) (s : FsState P) : Prop :=
  Reaches FsCall.step anyEvent (.boot img init) s

/-- What is represented after boot. -/
def Afs.boot (img : Volume) (init : P) : Afs P where
  sb := img.sb
  file _ := .unused
  pipe _ := none
  proc p := ⟨fun _ => none, if p = init then some ROOTINO else none⟩
  node := img.node
  pts := Sum.elim (fun p => if p = init then some ROOTINO else none) fun _ => none
  tmp := 0
  fds _ := none
  tmpf := 0
  tidy := img.Linked

variable [Fintype P] {img : Volume} {init : P} {s : FsState P}

namespace FsState

omit [Fintype P] in
theorem vol_boot (img : Volume) (init : P) : (boot img init).vol = img := by
  have heff : (boot img init).eff = img.inode := by
    funext i
    unfold eff
    by_cases hi : i = ROOTINO
    · subst hi
      rfl
    · rw [show (boot img init).itable i = none from if_neg hi]
      rfl
  unfold vol
  rw [heff]
  rfl

omit [Fintype P] in
theorem boot_table {i : ℕ} {e : Entry} (h : (boot img init).itable i = some e) :
    i = ROOTINO ∧ e = ⟨1, true, img.inode ROOTINO⟩ := by
  obtain ⟨hi, he⟩ := ite_none_right_eq_some.mp h
  exact ⟨hi, (some.inj he).symm⟩

theorem boot_rep (h : img.Bootable) (init : P) : Rep (Afs.boot img init) [] (boot img init) := by
  have hvol := vol_boot img init
  have hlive : img.Live ROOTINO := ⟨img.sb.root_lt, h.root⟩
  have hpts : ∀ x, (Afs.boot img init).pts x = if x = .inl init then some ROOTINO else none := by
    rintro (p | f)
    · show (if p = init then _ else _) = _
      simp only [Sum.inl.injEq]
    · rfl
  have hcount : ∀ i, npointers Finset.univ (Afs.boot img init).pts i = (boot img init).ref i := by
    intro i
    by_cases hi : i = ROOTINO
    · subst hi
      refine npointers.eq_one (x := .inl init) (Finset.mem_univ _) ?_ fun y _ hy => ?_
      · rw [hpts, if_pos rfl]
      · rw [hpts] at hy
        by_contra hne
        rw [if_neg hne] at hy
        contradiction
    · have href : (boot img init).ref i = 0 := by
        unfold ref
        rw [show (boot img init).itable i = none from if_neg hi]
      rw [href]
      refine npointers.eq_zero fun x _ hx => ?_
      rw [hpts] at hx
      split_ifs at hx
      exact hi (some.inj hx).symm
  constructor
  · rfl
  · rfl
  · rfl
  · rfl
  · rw [hvol]
    exact h.owned
  · rw [hvol]
    rfl
  · intro i
    have heff : (boot img init).eff = img.inode := congrArg inode hvol
    rw [heff]
    rfl
  · rintro i ⟨e, he, -⟩
    obtain ⟨rfl, -⟩ := boot_table he
    rw [hvol]
    exact hlive
  · intro i e he
    obtain ⟨-, rfl⟩ := boot_table he
    exact Nat.one_pos
  · exact hcount
  · intro x i hx
    rw [hpts] at hx
    split_ifs at hx
    cases hx
    exact ⟨_, rfl, rfl⟩
  · exact ⟨fun _ => rfl, fun f => npointers.eq_zero fun _ _ hx => absurd hx.symm (some_ne_none _),
      fun _ _ => rfl, fun _ _ hx => absurd hx.symm (some_ne_none _),
      fun _ _ hi => absurd hi.symm (some_ne_none _)⟩
  · exact ⟨fun e => npointers.eq_zero fun _ _ hx => absurd hx.symm (some_ne_none _),
      fun _ _ hp => absurd hp.symm (some_ne_none _), fun _ hp => FileKind.noConfusion hp⟩
  · intro i ht hne hnl
    have hl : img.Live i := live_iff_node.mpr hne
    have hnl : (img.node i).nlink = 0 := hnl
    rw [node_nlink hl] at hnl
    exact absurd hnl (ht i hl)
  · exact fun _ c hc => absurd hc not_mem_nil
  · exact forall_mem_nil _

/-- **Between calls** the state represents an abstract file system. -/
def Running (img : Volume) (s : FsState P) (g : Afs P) : Prop :=
  Rep g [] s ∧ g.Quiet ∧ g.sb = img.sb ∧ g.tidy = img.Linked

theorem boot_running (h : img.Bootable) (init : P) : Running img (boot img init) (Afs.boot img init) :=
  ⟨boot_rep h init, ⟨rfl, rfl, fun _ => rfl, fun _ _ => rfl⟩, rfl, rfl⟩

/-- A call leads from one abstract file system to another. -/
theorem Running.step {c : FsCall P} {s' : FsState P} {g : Afs P} (h : Running img s g)
    (hc : c.step s = some s') : ∃ g', Running img s' g' ∧ g.Done (c.aim g.lookup) g' := by
  obtain ⟨hrep, hq, hsb, ht⟩ := h
  unfold FsCall.step at hc
  split_ifs at hc with he
  cases hr : c.body.run s with
  | error e =>
    rw [hr] at hc
    contradiction
  | ok r =>
    rw [hr] at hc
    cases hc
    obtain ⟨g', hd, h'⟩ := (FsCall.call_spec hrep hq he).post_of_run hr
    exact ⟨g', ⟨h', hd.quiet, hd.sb.trans hsb, hd.tidy.trans ht⟩, hd⟩

theorem Reached.running (hs : s.Reached img init) (h : img.Bootable) : ∃ g, Running img s g := by
  refine hs.invariant (I := fun s => ∃ g, Running img s g) ⟨_, boot_running h init⟩ ?_
  rintro c t u ⟨g, hg⟩ - hc
  obtain ⟨g', hg', -⟩ := hg.step hc
  exact ⟨g', hg'⟩

/-- The errors that a call can stop with. -/
theorem Running.fails {c : FsCall P} {g : Afs P} {e : FsError} (h : Running img s g) (he : c.Enabled s)
    (hr : c.body.run s = .error e) : Fails img.sb g.Bad e := by
  obtain ⟨hrep, hq, hsb, -⟩ := h
  rw [← hsb]
  exact (FsCall.call_spec hrep hq he).err_of_run hr

end FsState

/-- Errors that cannot happen, whatever directories there are. -/
theorem Fails.ne {sb : SuperBlock} {D : ℕ → Prop} {e e' : FsError} (h : Fails sb D e) (ho : ¬ e'.Ordinary)
    (h1 : e' ≠ .ilockNoType) (h2 : e' ≠ .badInum) : e ≠ e' := by
  rintro rfl
  rcases h with h | ⟨i, -, h | ⟨h, -⟩⟩
  exacts [ho h, h1 h, h2 h]

/-! ## An image -/

/-- The entries `"."` and `".."` of the root directory. -/
def Volume.sampleRoot : List UInt8 :=
  Dirent.encode ⟨ROOTINO, strncpy dot DIRSIZ⟩ ++ Dirent.encode ⟨ROOTINO, strncpy dotdot DIRSIZ⟩

/-- An image with an empty root directory. -/
def Volume.sample : Volume where
  sb := ⟨16, 12, 8, 1, 2, by decide, by decide, by decide⟩
  inode i := if i = ROOTINO then ⟨T_DIR, 0, 0, 1, 32, fun k => if k.val = 0 then 4 else 0⟩ else .fresh 0
  bit b := b < 5
  block b k := if b = 4 then sampleRoot.getD k 0 else 0

namespace Volume

theorem sample_live {i : ℕ} : sample.Live i ↔ i = ROOTINO := by
  constructor
  · rintro ⟨-, hne⟩
    by_contra hi
    exact hne (by rw [show sample.inode i = .fresh 0 from if_neg hi]; rfl)
  · rintro rfl
    decide

theorem sample_addr (x : ℕ × ℕ) : sample.addr x = if x = (ROOTINO, 0) then 4 else 0 := by
  obtain ⟨i, n⟩ := x
  by_cases hi : i = ROOTINO
  · subst hi
    have hlive : sample.Live ROOTINO := sample_live.mpr rfl
    rcases slot_cases n with hn | ⟨j, -, rfl⟩ | hn
    · rw [addr_direct hlive hn]
      interval_cases n <;> rfl
    · rw [addr_entry_zero (by rw [addr_direct hlive le_rfl]; rfl), if_neg]
      exact fun he => absurd (Prod.mk.inj he).2 (by omega)
    · rw [addr, if_neg fun h => hn h.2, if_neg]
      rintro ⟨⟩
      exact hn (by decide)
  · rw [addr_of_not_live fun h => hi (sample_live.mp h), if_neg]
    rintro ⟨⟩
    exact hi rfl

theorem sample_bootable : sample.Bootable := by
  have hne : ∀ x, sample.addr x ≠ 0 → x = (ROOTINO, 0) ∧ sample.addr x = 4 := by
    intro x hx
    rw [sample_addr] at hx ⊢
    split_ifs at hx ⊢ with he
    · exact ⟨he, rfl⟩
    · exact absurd rfl hx
  refine ⟨⟨⟨⟨by decide, fun x hx => ?_, fun x y hx he => ?_, fun b hb => ?_⟩, fun b hb => ?_⟩,
    fun i hi bn hbn => ?_⟩, by decide⟩
  · rw [(hne x hx).2]
    decide
  · rw [(hne x hx).1, (hne y (he ▸ hx)).1]
  · obtain ⟨hlo, -⟩ := hb
    have hlo : 4 ≤ b := hlo
    constructor
    · intro hbit
      have hbit : b < 5 := of_decide_eq_true hbit
      exact ⟨(ROOTINO, 0), by rw [sample_addr, if_pos rfl]; omega⟩
    · rintro ⟨x, hx⟩
      have := (hne x (by omega)).2
      exact decide_eq_true (by omega)
  · have hb : b < 4 := hb
    exact decide_eq_true (by omega)
  · obtain rfl := sample_live.mp hi
    have hbn : bn * 1024 < 32 := hbn
    obtain rfl : bn = 0 := by omega
    decide

theorem sample_linked : sample.Linked := by
  intro i hi
  rw [sample_live.mp hi]
  decide

end Volume

/-- The name of a file is removed while the file is open for writing. -/
def sampleRun : List (FsCall Unit) :=
  [.open () (some [slash, 102]) (O_CREATE + O_RDWR), .unlink () (some [slash, 102]),
    .write () 0 (fun _ => some 7) 1 0]

/-! ## Blocks -/

/-- **Block ownership.** In every state between calls, the free map marks the data blocks that belong to
a file, each to one, and a file has all blocks up to its size. Therefore `balloc` returns a block that is not
in use, `bfree` does not find a free block, and `readi` does not change anything. -/
theorem blocks_owned (h : img.Bootable) (hs : s.Reached img init) : s.vol.Owned ∧
    (∀ b s', Fs.balloc.run s = .ok (b, s') → b ≠ 0 → s.sb.InData b ∧ ∀ x, s.vol.addr x ≠ b) ∧
    (∀ i dst off n, s.Valid i → n < 2 ^ 32 → ∃ r, (Fs.readi i dst off n).run s = .ok (r, s)) ∧
    ∀ (c : FsCall P) e, c.Enabled s → c.body.run s = .error e →
      e ≠ .freeingFreeBlock ∧ e ≠ .bmapRange ∧ e ≠ .wild := by
  obtain ⟨g, hg⟩ := hs.running h
  have hown := hg.1.owned
  refine ⟨hown, fun b s' hb hne => ?_, fun i dst off n hi hn => ?_, fun c e he hr => ?_⟩
  · have hspec : Wp Fs.balloc _ (fun _ => True) s := Fs.balloc_spec hown.toMapped
    rcases hspec.post_of_run hb with ⟨h0, -⟩ | ⟨hdata, hfree, -⟩
    · exact absurd h0 hne
    · exact ⟨hdata, hown.map.own_ne hdata hfree⟩
  · exact ⟨_, Fs.readi_owned dst hown hi (hg.1.live i hi) off hn⟩
  · have hf := hg.fails he hr
    exact ⟨hf.ne id (by decide) (by decide), hf.ne id (by decide) (by decide),
      hf.ne id (by decide) (by decide)⟩

theorem blocks_owned_sample : ∃ s : FsState Unit, s.Reached sample () ∧
    s.commits.length = 3 ∧ s.vol.Owned := by
  have hrun : (run FsCall.step anyEvent sampleRun
      (boot sample ())).any (fun s => s.commits.length = 3) = true := by
    decide +kernel
  obtain ⟨s, hs, hp⟩ := exists_reaches_of_run hrun
  exact ⟨s, hs, hp, (blocks_owned sample_bootable hs).1⟩

/-! ## Refinement -/

/-- Who holds an inode: processes as their current directory, and open files. -/
def FsState.holder (s : FsState P) : Holder P → Option ℕ :=
  Sum.elim (fun p => (s.proc p).cwd) fun f => (s.file f).held

def FsState.descriptor (s : FsState P) (x : P × Fin NOFILE) : Option FileId := (s.proc x.1).ofile x.2

/-- The file is an end of the pipe in page `page`. -/
def File.IsPipe (f : File) (page : ℕ) : Prop := 0 < f.ref ∧ f.type = .pipe ∧ f.pipe = page

/-- **Reference counts.** -/
structure FsState.Counted (s : FsState P) : Prop where
  file : ∀ f, (s.file f).ref = npointers Finset.univ s.descriptor f
  free : ∀ f, (s.file f).ref = 0 ↔ (s.file f).type = .none
  pipe : ∀ page, s.pipe page ≠ none ↔ ∃ f, (s.file f).IsPipe page
  readopen : ∀ page pi, s.pipe page = some pi →
    (pi.readopen = true ↔ ∃ f, (s.file f).IsPipe page ∧ (s.file f).readable = true)
  writeopen : ∀ page pi, s.pipe page = some pi →
    (pi.writeopen = true ↔ ∃ f, (s.file f).IsPipe page ∧ (s.file f).writable = true)
  inode : ∀ i, s.ref i = npointers Finset.univ s.holder i

namespace FsState

variable {g : Afs P}

variable (h : Running img s g)

include h

omit [DecidableEq P] in
theorem Running.isPipe_iff {f : FileId} {page : ℕ} {w : Bool} :
    (s.file f).IsPipe page ∧ (s.file f).writable = w ↔ (g.file f).pipeEnd = some (page, w) := by
  obtain ⟨hrep, -⟩ := h
  rw [hrep.file]
  unfold File.pipeEnd
  constructor
  · rintro ⟨⟨-, ht, rfl⟩, rfl⟩
    exact if_pos ht
  · intro he
    split_ifs at he with ht
    obtain ⟨rfl, rfl⟩ := Prod.mk.inj (some.inj he)
    refine ⟨⟨Nat.pos_of_ne_zero fun h0 => ?_, ht, rfl⟩, rfl⟩
    rw [hrep.files.idle f h0] at ht
    contradiction

omit [DecidableEq P] in
theorem Running.isOpen_iff {page : ℕ} {w : Bool} :
    g.endOpen (page, w) = true ↔ ∃ f, (s.file f).IsPipe page ∧ (s.file f).writable = w := by
  have hends := h.1.pipes.ends (page, w)
  simp only [h.isPipe_iff]
  constructor
  · intro ho
    rw [ho] at hends
    obtain ⟨f, -, hf⟩ := npointers.exists_of_pos (by rw [hends]; decide)
    exact ⟨f, hf⟩
  · rintro ⟨f, hf⟩
    have hpos := npointers.pos (f := fun f => (g.file f).pipeEnd) (Finset.mem_univ f) hf
    rw [hends] at hpos
    cases ho : g.endOpen (page, w) with
    | true => rfl
    | false => simp [ho] at hpos

omit [DecidableEq P] in
theorem Running.readable_iff {f : FileId} {page : ℕ} :
    (s.file f).IsPipe page ∧ (s.file f).readable = true ↔
      (s.file f).IsPipe page ∧ (s.file f).writable = false := by
  refine and_congr_right fun hp => ?_
  have hmode := h.1.pipes.mode f (by rw [← h.1.file]; exact hp.2.1)
  rw [← h.1.file] at hmode
  rw [hmode, Bool.not_eq_true']

omit [DecidableEq P] in
theorem Running.counted : s.Counted := by
  have hrep := h.1
  obtain ⟨htmp, htmpf, hcwd, hfds⟩ := h.2.1
  have hopen : ∀ page pi, s.pipe page = some pi → ∀ w, pi.isOpen w = g.endOpen (page, w) := by
    intro page pi hp w
    rw [hrep.pipe] at hp
    simp only [Afs.endOpen, hp]
  constructor
  · intro f
    rw [hrep.file, ← hrep.files.slots f, htmpf, Multiset.count_zero, Nat.add_zero]
    exact npointers.congr fun x _ => by rw [hfds]; unfold descriptor; rw [hrep.proc]
  · intro f
    rw [hrep.file]
    refine ⟨hrep.files.idle f, fun ht => ?_⟩
    rw [← hrep.files.slots f, htmpf, Multiset.count_zero, Nat.add_zero]
    exact npointers.eq_zero fun x _ hx => hrep.files.used x f hx ht
  · intro page
    constructor
    · intro hne
      obtain ⟨pi, hp⟩ := ne_none_iff_exists'.mp hne
      have hused := hrep.pipes.used page pi (by rw [← hrep.pipe]; exact hp)
      rcases hused with hr | hw
      · obtain ⟨f, hf, -⟩ := h.isOpen_iff.mp ((hopen page pi hp false).symm.trans hr)
        exact ⟨f, hf⟩
      · obtain ⟨f, hf, -⟩ := h.isOpen_iff.mp ((hopen page pi hp true).symm.trans hw)
        exact ⟨f, hf⟩
    · rintro ⟨f, hf⟩ hnone
      have ho : g.endOpen (page, _) = true := h.isOpen_iff.mpr ⟨f, hf, rfl⟩
      rw [hrep.pipe] at hnone
      simp only [Afs.endOpen, hnone, Bool.false_eq_true] at ho
  · intro page pi hp
    simp only [h.readable_iff, ← h.isOpen_iff, ← hopen page pi hp]
    exact Iff.rfl
  · intro page pi hp
    simp only [← h.isOpen_iff, ← hopen page pi hp]
    exact Iff.rfl
  · intro i
    rw [← hrep.refs i, htmp, Multiset.count_zero, Nat.add_zero]
    refine npointers.congr fun x _ => ?_
    rcases x with p | f
    · show g.pts (.inl p) = (s.proc p).cwd
      rw [hcwd p, hrep.proc]
    · show g.pts (.inr f) = (s.file f).held
      rw [hrep.files.pts f, hrep.file]

end FsState

/-- **File reference accounting.** Between calls the reference counts are right, and the panics of `filedup`
and `fileclose` are not reached. A page that is no pipe is not used as one, so that it is freed once. -/
theorem files_counted (h : img.Bootable) (hs : s.Reached img init) : s.Counted ∧
    ∀ (c : FsCall P) e, c.Enabled s → c.body.run s = .error e →
      e ≠ .filedup ∧ e ≠ .fileclose ∧ e ≠ .wild := by
  obtain ⟨g, hg⟩ := hs.running h
  refine ⟨hg.counted, fun c e he hr => ?_⟩
  have hf := hg.fails he hr
  exact ⟨hf.ne id (by decide) (by decide), hf.ne id (by decide) (by decide),
    hf.ne id (by decide) (by decide)⟩

theorem files_counted_sample : ∃ s : FsState Unit, s.Reached sample () ∧
    (s.file 0).ref = 1 ∧ s.Counted := by
  have hrun : (run FsCall.step anyEvent sampleRun
      (boot sample ())).any (fun s => (s.file 0).ref = 1) = true := by
    decide +kernel
  obtain ⟨s, hs, hp⟩ := exists_reaches_of_run hrun
  exact ⟨s, hs, hp, (files_counted sample_bootable hs).1⟩

/-! ## Crashes -/

/-- What recovery can find on the disk after a crash: what the last transaction has committed, or
the image. -/
def FsState.recoverable (img : Volume) (s : FsState P) : List Commit :=
  s.commits ++ [⟨img.inode, fun _ => false⟩]

/-- **A file without links is found after a crash only if it was referenced** when the last transaction was
committed. -/
theorem recovered_linked (h : img.Bootable) (hl : img.Linked) (hs : s.Reached img init) :
    ∀ c ∈ s.recoverable img, ∀ i < img.sb.ninodes, (c.dinode i).type ≠ 0 →
      (c.dinode i).nlink ≠ 0 ∨ c.referenced i = true := by
  obtain ⟨g, hrep, -, hsb, ht⟩ := hs.running h
  intro c hc i hi hne
  rcases mem_append.mp hc with hc | hc
  · refine or_iff_not_imp_left.mpr fun h0 => ?_
    exact hrep.commits (ht ▸ hl) c hc i (hsb ▸ hi) hne (not_not.mp h0)
  · obtain rfl := mem_singleton.mp hc
    exact .inl (hl i ⟨hi, hne⟩)

theorem recovered_linked_sample : ∃ s : FsState Unit, s.Reached sample () ∧
    s.commits.length = 3 ∧ ∀ c ∈ s.recoverable sample, ∀ i < sample.sb.ninodes,
      (c.dinode i).type ≠ 0 → (c.dinode i).nlink ≠ 0 ∨ c.referenced i = true := by
  have hrun : (run FsCall.step anyEvent sampleRun
      (boot sample ())).any (fun s => s.commits.length = 3) = true := by
    decide +kernel
  obtain ⟨s, hs, hp⟩ := exists_reaches_of_run hrun
  exact ⟨s, hs, hp, recovered_linked sample_bootable sample_linked hs⟩

/-- A file that is open when its last name is removed is found without links. -/
theorem recovered_without_links : sample.Bootable ∧ sample.Linked ∧
    ∃ s : FsState Unit, s.Reached sample () ∧ ∃ c ∈ s.recoverable sample, ∃ i < sample.sb.ninodes,
        (c.dinode i).type ≠ 0 ∧ (c.dinode i).nlink = 0 := by
  refine ⟨sample_bootable, sample_linked, ?_⟩
  have hrun : (run FsCall.step anyEvent sampleRun
      (boot sample ())).any (fun s => decide (∃ c ∈ s.recoverable sample, ∃ i < sample.sb.ninodes,
        (c.dinode i).type ≠ 0 ∧ (c.dinode i).nlink = 0)) = true := by
    decide +kernel
  exact exists_reaches_of_run hrun

end Xv6
