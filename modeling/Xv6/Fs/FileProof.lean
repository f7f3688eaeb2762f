import Xv6.Fs.Abstract
import Xv6.Fs.Sysfile

/-!
# Open files, abstractly

What the functions of `kernel/file.c` and the descriptors of a process are to the abstract file system.
Like inodes, open files are counted by references: those of descriptors (`fds`) and those of the running
call (`tmpf`). A reference passes from the call to a descriptor (`giveFd`) and back (`takeFd`); the last
one of a file passes its inode to the call (`closeFile`) or closes the end of a pipe (`closePipe`).
-/

open Finset

namespace Xv6

open Afs

variable {P : Type}

/-! ## Changes of the tables -/

namespace Afs

/-- The running call takes a reference to an open file. -/
def takeFile (g : Afs P) (f : FileId) : Afs P := { g with tmpf := f ::ₘ g.tmpf }

def setFile (g : Afs P) (f : FileId) (x : File) : Afs P :=
  { g with file := Function.update g.file f x }

def setPipe (g : Afs P) (page : ℕ) (r : Option PipeEnds) : Afs P :=
  { g with pipe := Function.update g.pipe page r }

theorem setFile_self (g : Afs P) (f : FileId) : g.setFile f (g.file f) = g := by
  unfold setFile
  rw [Function.update_eq_self]

theorem file_setFile (g : Afs P) (f : FileId) (x : File) : (g.setFile f x).file f = x :=
  Function.update_self ..

theorem file_setFile_ne {f f' : FileId} (h : f' ≠ f) (g : Afs P) (x : File) :
    (g.setFile f x).file f' = g.file f' :=
  Function.update_of_ne h ..

structure Quiet (g : Afs P) : Prop where
  tmp : g.tmp = 0
  tmpf : g.tmpf = 0
  cwd : ∀ p, g.pts (.inl p) = (g.proc p).cwd
  fds : ∀ p fd, g.fds (p, fd) = (g.proc p).ofile fd

/-- The same files, held by the same holders. -/
structure Like (g g' : Afs P) : Prop where
  sb : g'.sb = g.sb
  tidy : g'.tidy = g.tidy
  node : g'.node = g.node
  pts : g'.pts = g.pts

/-- Files without links have disappeared, and some holders hold nothing any more. -/
structure Shrunk (g g' : Afs P) : Prop where
  sb : g'.sb = g.sb
  tidy : g'.tidy = g.tidy
  node : Sweep g.node g'.node
  pts : ∀ h i, g'.pts h = some i → g.pts h = some i

structure Closed (g g' : Afs P) : Prop extends Shrunk g g' where
  proc : g'.proc = g.proc
  fds : g'.fds = g.fds
  tmp : g'.tmp = g.tmp
  tmpf : g'.tmpf = g.tmpf
  cwd : ∀ p, g'.pts (.inl p) = g.pts (.inl p)

variable {g g' g'' : Afs P} {i : ℕ} {f : FileId} {x : File}

theorem Shrunk.refl (g : Afs P) : g.Shrunk g := ⟨rfl, rfl, .refl _, fun _ _ h => h⟩

theorem Shrunk.trans (h : g.Shrunk g') (h' : g'.Shrunk g'') : g.Shrunk g'' :=
  ⟨h'.sb.trans h.sb, h'.tidy.trans h.tidy, h.node.trans h'.node,
    fun x i hx => h.pts x i (h'.pts x i hx)⟩

theorem Closed.trans (h : g.Closed g') (h' : g'.Closed g'') : g.Closed g'' :=
  ⟨h.toShrunk.trans h'.toShrunk, h'.proc.trans h.proc, h'.fds.trans h.fds, h'.tmp.trans h.tmp,
    h'.tmpf.trans h.tmpf, fun p => (h'.cwd p).trans (h.cwd p)⟩

theorem Closed.quiet (h : g.Closed g') (hq : g.Quiet) : g'.Quiet where
  tmp := h.tmp.trans hq.tmp
  tmpf := h.tmpf.trans hq.tmpf
  cwd p := by
    rw [h.cwd, h.proc]
    exact hq.cwd p
  fds p fd := by
    rw [h.fds, h.proc]
    exact hq.fds p fd

theorem closed_setFile (g : Afs P) (f : FileId) (x : File) : g.Closed (g.setFile f x) :=
  ⟨⟨rfl, rfl, .refl _, fun _ _ h => h⟩, rfl, rfl, rfl, rfl, fun _ => rfl⟩

theorem closed_setPipe (g : Afs P) (page : ℕ) (r : Option PipeEnds) : g.Closed (g.setPipe page r) :=
  ⟨⟨rfl, rfl, .refl _, fun _ _ h => h⟩, rfl, rfl, rfl, rfl, fun _ => rfl⟩

theorem closed_setNode {v : ℕ → Node} (h : Sweep g.node v) : g.Closed (g.setNode v) :=
  ⟨⟨rfl, rfl, h, fun _ _ h => h⟩, rfl, rfl, rfl, rfl, fun _ => rfl⟩

theorem Like.refl (g : Afs P) : g.Like g := ⟨rfl, rfl, rfl, rfl⟩

theorem Like.trans (h : g.Like g') (h' : g'.Like g'') : g.Like g'' :=
  ⟨h'.sb.trans h.sb, h'.tidy.trans h.tidy, h'.node.trans h.node, h'.pts.trans h.pts⟩

theorem PipesOk.replace (h : g.PipesOk) (hfile : g'.file = Function.update g.file f x)
    (hpipe : g'.pipe = g.pipe) (hend : x.pipeEnd = (g.file f).pipeEnd)
    (hmode : x.type = .pipe → x.readable = !x.writable) : g'.PipesOk where
  ends e := by
    have hsame : (fun f' => (g'.file f').pipeEnd) = fun f' => (g.file f').pipeEnd := by
      funext f'
      rw [hfile]
      by_cases hf : f' = f
      · rw [hf, Function.update_self, hend]
      · rw [Function.update_of_ne hf]
    rw [hsame, h.ends e]
    unfold endOpen
    rw [hpipe]
  used := by
    rw [hpipe]
    exact h.used
  mode f' := by
    rw [hfile]
    by_cases hf : f' = f
    · rw [hf, Function.update_self]
      exact hmode
    · rw [Function.update_of_ne hf]
      exact h.mode f'

/-- What closing the last reference leaves of an open file. -/
def closedFile (x : File) : File := { x with ref := 0, type := .none }

theorem PipesOk.close_ne (h : g.PipesOk) (hfile : g'.file = Function.update g.file f (closedFile x))
    (hpipe : g'.pipe = g.pipe) (hne : (g.file f).type ≠ .pipe) : g'.PipesOk := by
  have hnone : (closedFile x).type ≠ .pipe := fun hp => FileKind.noConfusion hp
  refine h.replace hfile hpipe ?_ fun hp => absurd hp hnone
  rw [File.pipeEnd_of_ne hnone, File.pipeEnd_of_ne hne]

section FilesOk

variable [Fintype P]

/-- An open file changes, with what it holds and its reference count. -/
theorem FilesOk.replace (h : g.FilesOk) (hfile : g'.file = Function.update g.file f x)
    (hnode : g'.node = g.node) (hfds : g'.fds = g.fds) (hself : g'.pts (.inr f) = x.held)
    (hpts : ∀ f', f' ≠ f → g'.pts (.inr f') = g.pts (.inr f'))
    (hslots : npointers univ g.fds f + g'.tmpf.count f = x.ref)
    (hcount : ∀ f', f' ≠ f → g'.tmpf.count f' = g.tmpf.count f')
    (hidle : x.ref = 0 → x.type = .none) (hused : ∀ y, g.fds y = some f → x.type ≠ .none)
    (hwrite : ∀ i, x.held = some i → x.writable = true → x.type = .inode → (g.node i).type ≠ T_DIR) :
    g'.FilesOk where
  pts f' := by
    rw [hfile]
    by_cases hf : f' = f
    · rw [hf, Function.update_self]
      exact hself
    · rw [Function.update_of_ne hf, hpts f' hf]
      exact h.pts f'
  slots f' := by
    rw [hfile, hfds]
    by_cases hf : f' = f
    · rw [hf, Function.update_self]
      exact hslots
    · rw [Function.update_of_ne hf, hcount f' hf]
      exact h.slots f'
  idle f' hr := by
    rw [hfile] at hr ⊢
    by_cases hf : f' = f
    · rw [hf, Function.update_self] at hr ⊢
      exact hidle hr
    · rw [Function.update_of_ne hf] at hr ⊢
      exact h.idle f' hr
  used y f' hy := by
    rw [hfds] at hy
    rw [hfile]
    by_cases hf : f' = f
    · subst hf
      rw [Function.update_self]
      exact hused y hy
    · rw [Function.update_of_ne hf]
      exact h.used y f' hy
  writable f' i hi hw ht := by
    rw [hfile] at hi ht hw
    rw [hnode]
    by_cases hf : f' = f
    · rw [hf, Function.update_self] at hi ht hw
      exact hwrite i hi hw ht
    · rw [Function.update_of_ne hf] at hi ht hw
      exact h.writable f' i hi hw ht

/-- The last reference to an open file is dropped, and it does not hold anything. -/
theorem FilesOk.close (h : (g.takeFile f).FilesOk) (href : (g.file f).ref = 1)
    (hfile : g'.file = Function.update g.file f (closedFile (g.file f))) (hnode : g'.node = g.node)
    (hfds : g'.fds = g.fds) (htmpf : g'.tmpf = g.tmpf) (hself : g'.pts (.inr f) = none)
    (hpts : ∀ f', f' ≠ f → g'.pts (.inr f') = g.pts (.inr f')) : g'.FilesOk := by
  have hslots := h.slots f
  simp only [takeFile, Multiset.count_cons_self] at hslots
  have hheld : (closedFile (g.file f)).held = none := File.held_of_none rfl
  refine FilesOk.replace h hfile hnode hfds ?_ hpts ?_ (fun f' hf => ?_) (fun _ => rfl) (fun y hy => ?_)
    fun i hi => ?_
  · rw [hheld]
    exact hself
  · rw [htmpf]
    show npointers univ g.fds f + _ = 0
    omega
  · rw [htmpf]
    exact (Multiset.count_cons_of_ne hf _).symm
  · have := npointers.pos (f := g.fds) (mem_univ y) hy
    omega
  · rw [hheld] at hi
    contradiction

end FilesOk

end Afs

section Tables

variable {g g' : Afs P} {L : List ℕ} {s s' : FsState P} {i page : ℕ} {f : FileId} {x : File}

section

variable [DecidableEq P]

def Afs.setPts (g : Afs P) (h : Holder P) (r : Option ℕ) : Afs P :=
  { g with pts := Function.update g.pts h r }

theorem pts_setPts (g : Afs P) (x : Holder P) (r : Option ℕ) : (g.setPts x r).pts x = r :=
  Function.update_self ..

theorem pts_setPts_ne {x y : Holder P} (h : y ≠ x) (r : Option ℕ) :
    (g.setPts x r).pts y = g.pts y :=
  Function.update_of_ne h ..

theorem held_setPts {x y : Holder P} {j : ℕ} (hy : (g.setPts x none).pts y = some j) :
    g.pts y = some j := by
  by_cases hyx : y = x
  · rw [hyx, pts_setPts] at hy
    contradiction
  · rwa [pts_setPts_ne hyx] at hy

theorem Afs.closed_setPts (g : Afs P) (f : FileId) : g.Closed (g.setPts (.inr f) none) :=
  ⟨⟨rfl, rfl, .refl _, fun _ _ hx => held_setPts hx⟩, rfl, rfl, rfl, rfl,
    fun _ => pts_setPts_ne Sum.inl_ne_inr _⟩

end

/-! ## Pipes -/

/-- What `pipeclose` leaves of a pipe. -/
def PipeEnds.close (pi : PipeEnds) (w : Bool) : Option PipeEnds :=
  let pi : PipeEnds := if w then { pi with writeopen := false } else { pi with readopen := false }
  if pi.readopen = false ∧ pi.writeopen = false then none else some pi

/-- Whether an end is open, when there may be no pipe. -/
def isOpenEnd (r : Option PipeEnds) (w : Bool) : Bool :=
  match r with
  | some pi => pi.isOpen w
  | none => false

theorem isOpenEnd_close (pi : PipeEnds) (w w' : Bool) :
    isOpenEnd (pi.close w) w' = (pi.isOpen w' && w' != w) := by
  obtain ⟨a, b⟩ := pi
  revert a b w w'
  decide

theorem PipeEnds.open_of_close {pi pi' : PipeEnds} {w : Bool} (h : pi.close w = some pi') :
    pi'.readopen = true ∨ pi'.writeopen = true := by
  obtain ⟨a, b⟩ := pi
  obtain ⟨a', b'⟩ := pi'
  revert a b a' b' w
  decide

theorem Afs.endOpen_eq (g : Afs P) (e : ℕ × Bool) : g.endOpen e = isOpenEnd (g.pipe e.1) e.2 := rfl

theorem pipeEnd_update (F : FileId → File) (f : FileId) (x : File) :
    (fun f' => (Function.update F f x f').pipeEnd) =
      Function.update (fun f' => (F f').pipeEnd) f x.pipeEnd :=
  Function.comp_update File.pipeEnd F f x

theorem Afs.PipesOk.close {pi : PipeEnds} {w : Bool} (h : g.PipesOk)
    (hfile : g'.file = Function.update g.file f (closedFile x))
    (hend : (g.file f).pipeEnd = some (page, w)) (hpi : g.pipe page = some pi)
    (hpipe : g'.pipe = Function.update g.pipe page (pi.close w)) : g'.PipesOk where
  ends e := by
    have hnone : (closedFile x).pipeEnd = none := File.pipeEnd_of_ne fun hp => FileKind.noConfusion hp
    have hclear := npointers.clear (f := fun f' => (g.file f').pipeEnd) (mem_univ f) hend e
    rw [h.ends e] at hclear
    rw [hfile, pipeEnd_update, hnone]
    -- the end is not open any more, and the other ends are as before
    have hopen : (g.endOpen e).toNat = (g'.endOpen e).toNat + if (page, w) = e then 1 else 0 := by
      rw [endOpen_eq, endOpen_eq, hpipe]
      obtain ⟨page', w'⟩ := e
      by_cases hp : page' = page
      · subst hp
        rw [Function.update_self, isOpenEnd_close, hpi]
        have hwas : pi.isOpen w = true := by
          have := npointers.pos (f := fun f' => (g.file f').pipeEnd) (mem_univ f) hend
          rw [h.ends, endOpen_eq, hpi] at this
          cases hw : pi.isOpen w with
          | true => rfl
          | false =>
            rw [show isOpenEnd (some pi) w = pi.isOpen w from rfl, hw] at this
            exact absurd this (by decide)
        show (pi.isOpen w').toNat = _
        by_cases hw : w' = w
        · subst hw
          rw [if_pos rfl, hwas, bne_self_eq_false, Bool.and_false]
          rfl
        · rw [if_neg fun he => hw (congrArg Prod.snd he).symm, bne_iff_ne.mpr hw, Bool.and_true]
          rfl
      · rw [Function.update_of_ne hp, if_neg fun he => hp (congrArg Prod.fst he).symm]
        rfl
    omega
  used page' pi' hp := by
    rw [hpipe] at hp
    by_cases hpage : page' = page
    · rw [hpage, Function.update_self] at hp
      exact PipeEnds.open_of_close hp
    · rw [Function.update_of_ne hpage] at hp
      exact h.used page' pi' hp
  mode f' hp := by
    rw [hfile] at hp ⊢
    by_cases hf : f' = f
    · rw [hf, Function.update_self] at hp
      exact FileKind.noConfusion hp
    · rw [Function.update_of_ne hf] at hp ⊢
      exact h.mode f' hp

theorem Afs.PipesOk.pipe_of_end {w : Bool} (h : g.PipesOk) (hend : (g.file f).pipeEnd = some (page, w)) :
    ∃ pi, g.pipe page = some pi := by
  have := npointers.pos (f := fun f' => (g.file f').pipeEnd) (mem_univ f) hend
  rw [h.ends, endOpen_eq] at this
  cases hp : g.pipe page with
  | some pi => exact ⟨pi, rfl⟩
  | none =>
    rw [hp] at this
    exact absurd this (Nat.lt_irrefl 0)

/-- An open file becomes an end of a pipe. -/
def pipeFile (x : File) (page : ℕ) (w : Bool) : File :=
  { x with type := .pipe, readable := !w, writable := w, pipe := page }

theorem Afs.PipesOk.make {f0 f1 : FileId} (h : g.PipesOk) (hne : f1 ≠ f0)
    (h0 : (g.file f0).type = .none) (h1 : (g.file f1).type = .none) (hpage : g.pipe page = none)
    (hfile : g'.file = Function.update (Function.update g.file f0 (pipeFile (g.file f0) page false)) f1
      (pipeFile (g.file f1) page true))
    (hpipe : g'.pipe = Function.update g.pipe page (some ⟨true, true⟩)) : g'.PipesOk where
  ends e := by
    have hend : ∀ x w, (pipeFile x page w).pipeEnd = some (page, w) := fun _ _ => if_pos rfl
    have hold0 : (g.file f0).pipeEnd = none := File.pipeEnd_of_ne (by rw [h0]; decide)
    have hold1 : (g.file f1).pipeEnd = none := File.pipeEnd_of_ne (by rw [h1]; decide)
    rw [hfile, pipeEnd_update, pipeEnd_update, hend, hend,
      npointers.set (mem_univ f1) (by rw [Function.update_of_ne hne]; exact hold1),
      npointers.set (mem_univ f0) hold0, h.ends, endOpen_eq, endOpen_eq, hpipe]
    obtain ⟨page', w⟩ := e
    by_cases hp : page' = page
    · subst hp
      rw [Function.update_self, hpage]
      cases w <;> simp [isOpenEnd, PipeEnds.isOpen]
    · have hoff : ∀ w', (page, w') ≠ (page', w) := fun w' he => hp (congrArg Prod.fst he).symm
      rw [Function.update_of_ne hp, if_neg (hoff false), if_neg (hoff true)]
      rfl
  used page' pi hp := by
    rw [hpipe] at hp
    by_cases hpp : page' = page
    · rw [hpp, Function.update_self] at hp
      cases hp
      exact .inl rfl
    · rw [Function.update_of_ne hpp] at hp
      exact h.used page' pi hp
  mode f' hp := by
    rw [hfile] at hp ⊢
    by_cases hf1 : f' = f1
    · rw [hf1, Function.update_self]
      rfl
    · rw [Function.update_of_ne hf1] at hp ⊢
      by_cases hf0 : f' = f0
      · rw [hf0, Function.update_self]
        rfl
      · rw [Function.update_of_ne hf0] at hp ⊢
        exact h.mode f' hp

/-! ## Open files -/

variable [Fintype P]

/-- **The tables, and who holds what, change**; the number of references to each inode does not. -/
theorem Rep.tables {file file' pipe pipe' proc proc' pts tmp fds tmpf} (h : Rep g L s)
    (hg : g' = { g with
      file := file, pipe := pipe, proc := proc, pts := pts, tmp := tmp, fds := fds, tmpf := tmpf })
    (hs : s' = { s with file := file', pipe := pipe', proc := proc' }) (hfile : file' = file)
    (hpipe : pipe' = pipe) (hproc : proc' = proc)
    (hrefs : ∀ i, npointers univ pts i + tmp.count i = npointers univ g.pts i + g.tmp.count i)
    (hheld : ∀ x i, pts x = some i → s.Valid i) (hfiles : g'.FilesOk) (hpipes : g'.PipesOk) :
    Rep g' L s' := by
  subst hg hs
  refine ⟨h.sb, hfile, hpipe, hproc, h.owned, h.node, h.saved, h.live, h.pos,
    fun i => (hrefs i).trans (h.refs i), hheld, hfiles, hpipes, fun i ht hne hnl => ?_, h.commits,
    h.locked⟩
  rw [held_iff, hrefs]
  exact held_iff.mp (h.orphans i ht hne hnl)

theorem Rep.update_file (h : Rep g L s) (f : FileId) (x : File) :
    Function.update s.file f x = Function.update g.file f x := by
  rw [h.file]

theorem Rep.addFileRef (h : Rep g L s) (f : FileId) :
    Rep ((g.setFile f { g.file f with ref := (g.file f).ref + 1 }).takeFile f) L
      (s.setFile f { g.file f with ref := (g.file f).ref + 1 }) := by
  refine h.tables rfl rfl (h.update_file f _) h.pipe h.proc (fun _ => rfl) h.held
    (h.files.replace rfl rfl rfl (h.files.pts f) (fun _ _ => rfl) ?_ (fun f' hf => ?_)
      (fun hz => absurd hz (Nat.succ_ne_zero _)) (fun y => h.files.used y f) (h.files.writable f))
    (h.pipes.replace rfl rfl rfl (h.pipes.mode f))
  · show _ + (f ::ₘ g.tmpf).count f = (g.file f).ref + 1
    rw [Multiset.count_cons_self, ← h.files.slots f, Nat.add_assoc]
  · exact Multiset.count_cons_of_ne hf _

theorem Rep.dropFileRef (h : Rep (g.takeFile f) L s) (href : 1 < (g.file f).ref) :
    Rep (g.setFile f { g.file f with ref := (g.file f).ref - 1 }) L
      (s.setFile f { g.file f with ref := (g.file f).ref - 1 }) := by
  have hslots := h.files.slots f
  simp only [takeFile, Multiset.count_cons_self] at hslots
  refine h.tables rfl rfl (h.update_file f _) h.pipe h.proc (fun _ => rfl) h.held
    (h.files.replace rfl rfl rfl (h.files.pts f) (fun _ _ => rfl) ?_ (fun f' hf => ?_)
      (fun hz => ?_) (fun y => h.files.used y f) (h.files.writable f))
    (h.pipes.replace rfl rfl rfl (h.pipes.mode f))
  · show npointers univ g.fds f + g.tmpf.count f = (g.file f).ref - 1
    omega
  · exact (Multiset.count_cons_of_ne hf _).symm
  · have hz : (g.file f).ref - 1 = 0 := hz
    omega

theorem Rep.setOff (h : Rep g L s) (f : FileId) (o : ℕ) :
    Rep (g.setFile f { g.file f with off := o }) L (s.setFile f { g.file f with off := o }) := by
  refine h.tables rfl rfl (h.update_file f _) h.pipe h.proc (fun _ => rfl) h.held
    (h.files.replace rfl rfl rfl (h.files.pts f) (fun _ _ => rfl) (h.files.slots f) (fun _ _ => rfl)
      (h.files.idle f) (fun y => h.files.used y f) (h.files.writable f))
    (h.pipes.replace rfl rfl rfl (h.pipes.mode f))

/-- The last reference to a file that does not hold anything is dropped. -/
theorem Rep.closeBlank (h : Rep (g.takeFile f) L s) (href : (g.file f).ref = 1)
    (ht : (g.file f).type = .none) :
    Rep (g.setFile f (closedFile (g.file f))) L (s.setFile f (closedFile (g.file f))) := by
  have hpts : g.pts (.inr f) = none := (h.files.pts f).trans (File.held_of_none ht)
  refine h.tables rfl rfl (h.update_file f _) h.pipe h.proc (fun _ => rfl) h.held
    (h.files.close href rfl rfl rfl rfl hpts fun _ _ => rfl)
    (h.pipes.close_ne rfl rfl (by rw [show (g.takeFile f).file f = g.file f from rfl, ht]; decide))

theorem Rep.closePipe {pi : PipeEnds} (h : Rep (g.takeFile f) L s) (href : (g.file f).ref = 1)
    (ht : (g.file f).type = .pipe) (hpi : g.pipe (g.file f).pipe = some pi) :
    Rep ((g.setFile f (closedFile (g.file f))).setPipe (g.file f).pipe
        (pi.close (g.file f).writable)) L
      ((s.setFile f (closedFile (g.file f))).setPipe (g.file f).pipe
        (pi.close (g.file f).writable)) := by
  have hpts : g.pts (.inr f) = none := (h.files.pts f).trans (File.held_of_pipe ht)
  refine h.tables rfl rfl (h.update_file f _) ?_ h.proc (fun _ => rfl) h.held
    (h.files.close href rfl rfl rfl rfl hpts fun _ _ => rfl)
    (h.pipes.close rfl (if_pos ht) hpi rfl)
  · show Function.update s.pipe _ _ = Function.update g.pipe _ _
    rw [h.pipe]
    rfl

theorem Afs.FilesOk.makeEnd (h : g.FilesOk) (hmem : f ∈ g.tmpf) (hf : (g.file f).type = .none)
    (page : ℕ) (w : Bool) : (g.setFile f (pipeFile (g.file f) page w)).FilesOk := by
  have hheld : (pipeFile (g.file f) page w).held = none := File.held_of_pipe rfl
  refine h.replace rfl rfl rfl ?_ (fun _ _ => rfl) (h.slots f) (fun _ _ => rfl) (fun hz => ?_)
    (fun _ _ hp => FileKind.noConfusion hp) fun i hi => ?_
  · rw [hheld]
    exact (h.pts f).trans (File.held_of_none hf)
  · have hpos := Multiset.count_pos.mpr hmem
    have hslots := h.slots f
    have hz : (g.file f).ref = 0 := hz
    omega
  · rw [hheld] at hi
    contradiction

/-- **A pipe is made** of two open files that the call has allocated, and a free page. -/
theorem Rep.makePipe {f0 f1 : FileId} (h : Rep g L s) (hne : f1 ≠ f0) (hmem0 : f0 ∈ g.tmpf)
    (hmem1 : f1 ∈ g.tmpf) (h0 : (g.file f0).type = .none) (h1 : (g.file f1).type = .none)
    (hpage : g.pipe page = none) :
    Rep (((g.setPipe page (some ⟨true, true⟩)).setFile f0 (pipeFile (g.file f0) page false)).setFile f1
        (pipeFile (g.file f1) page true)) L
      (((s.setPipe page (some ⟨true, true⟩)).setFile f0 (pipeFile (g.file f0) page false)).setFile f1
        (pipeFile (g.file f1) page true)) := by
  have hfile1 : (g.setFile f0 (pipeFile (g.file f0) page false)).file f1 = g.file f1 :=
    file_setFile_ne hne ..
  have hfiles := (h.files.makeEnd hmem0 h0 page false).makeEnd (f := f1) hmem1 (by rw [hfile1, h1]) page
    true
  rw [hfile1] at hfiles
  refine h.tables rfl rfl ?_ ?_ h.proc (fun _ => rfl) h.held
    ⟨hfiles.pts, hfiles.slots, hfiles.idle, hfiles.used, hfiles.writable⟩
    (h.pipes.make hne h0 h1 hpage rfl rfl)
  · show Function.update (Function.update s.file f0 _) f1 _ =
      Function.update (Function.update g.file f0 _) f1 _
    rw [h.file]
  · show Function.update s.pipe _ _ = Function.update g.pipe _ _
    rw [h.pipe]

variable [DecidableEq P]

/-- A holder that has nothing takes over a reference of the call. -/
theorem refs_give {x : Holder P} (hx : g.pts x = none) (j : ℕ) :
    npointers univ (g.setPts x (some i)).pts j + g.tmp.count j =
      npointers univ g.pts j + (g.take i).tmp.count j := by
  have hset := npointers.set (mem_univ x) hx i j
  show npointers univ (Function.update g.pts x (some i)) j + _ = _ + (i ::ₘ g.tmp).count j
  rw [hset]
  by_cases hij : i = j
  · subst hij
    rw [if_pos rfl, Multiset.count_cons_self]
    omega
  · rw [if_neg hij, Multiset.count_cons_of_ne (Ne.symm hij), Nat.add_zero]

theorem refs_retrieve {x : Holder P} (hx : g.pts x = some i) (j : ℕ) :
    npointers univ (g.setPts x none).pts j + (g.take i).tmp.count j =
      npointers univ g.pts j + g.tmp.count j := by
  have hclear := npointers.clear (mem_univ x) hx j
  show npointers univ (Function.update g.pts x none) j + (i ::ₘ g.tmp).count j = _
  by_cases hij : i = j
  · subst hij
    rw [if_pos rfl] at hclear
    rw [Multiset.count_cons_self]
    omega
  · rw [if_neg hij] at hclear
    rw [Multiset.count_cons_of_ne (Ne.symm hij)]
    omega

theorem valid_setPts {x y : Holder P} {j : ℕ} (h : Rep g L s) (hi : i ∈ L)
    (hy : (g.setPts x (some i)).pts y = some j) : s.Valid j := by
  by_cases hyx : y = x
  · rw [hyx, pts_setPts] at hy
    cases hy
    exact h.locked i hi
  · rw [pts_setPts_ne hyx] at hy
    exact h.held y j hy

/-- A file that the call has allocated is opened, and takes over a reference to an inode. -/
theorem Rep.openFile (h : Rep (g.take i) L s) (hi : i ∈ L) (hmem : f ∈ g.tmpf)
    (hf : (g.file f).type = .none)
    (hx : x.held = some i) (href : x.ref = (g.file f).ref)
    (hwrite : x.writable = true → x.type = .inode → (g.node i).type ≠ T_DIR) :
    Rep ((g.setFile f x).setPts (.inr f) (some i)) L (s.setFile f x) := by
  have hpts : g.pts (.inr f) = none := (h.files.pts f).trans (File.held_of_none hf)
  have htype := (File.type_of_held hx).1
  have hpipe : x.type ≠ .pipe := by
    rintro hp
    rw [hp] at htype
    exact absurd htype (by decide)
  have hne : x.type ≠ .none := by
    rintro hp
    rw [hp] at htype
    exact absurd htype (by decide)
  refine h.tables rfl rfl (h.update_file f _) h.pipe h.proc (refs_give hpts)
    (fun _ _ hy => valid_setPts (g := g.take i) h hi hy)
    (h.files.replace rfl rfl rfl ?_ (fun f' hf' => ?_) ?_ (fun _ _ => rfl) (fun hz => ?_)
      (fun _ _ => hne) fun j hj => ?_) (h.pipes.replace rfl rfl ?_ fun hp => absurd hp hpipe)
  · rw [hx]
    exact pts_setPts ..
  · exact pts_setPts_ne (fun he => hf' (Sum.inr.inj he)) _
  · rw [href]
    exact h.files.slots f
  · have hpos := Multiset.count_pos.mpr hmem
    have hslots : npointers univ g.fds f + g.tmpf.count f = (g.file f).ref := h.files.slots f
    omega
  · rw [hx] at hj
    cases hj
    exact hwrite
  · rw [File.pipeEnd_of_ne hpipe]
    exact (File.pipeEnd_of_ne (by rw [show (g.take i).file f = g.file f from rfl, hf]; decide)).symm

/-- An open file is closed, and the call has its reference to the inode. -/
theorem Rep.closeFile (h : Rep (g.takeFile f) L s) (href : (g.file f).ref = 1)
    (hf : (g.file f).held = some i) :
    Rep (((g.setFile f (closedFile (g.file f))).setPts (.inr f) none).take i) (i :: L)
      (s.setFile f (closedFile (g.file f))) := by
  have hpts : g.pts (.inr f) = some i := (h.files.pts f).trans hf
  have hne : (g.file f).type ≠ .pipe := fun hp => by
    have := (File.type_of_held hf).1
    rw [hp] at this
    exact absurd this (by decide)
  refine (h.read (h.held (.inr f) i hpts)).tables rfl rfl (h.update_file f _) h.pipe h.proc
    (refs_retrieve hpts)
    (fun y j hy => h.held y j (held_setPts hy))
    (h.files.close href rfl rfl rfl rfl (pts_setPts ..) fun f' hf' =>
      pts_setPts_ne (fun he => hf' (Sum.inr.inj he)) _) (h.pipes.close_ne rfl rfl hne)

/-! ## Processes -/

namespace Afs

def setProc (g : Afs P) (p : P) (x : ProcFiles) : Afs P :=
  { g with proc := Function.update g.proc p x }

/-- `ofile[fd]` of a process. -/
def setFd (g : Afs P) (p : P) (fd : Fin NOFILE) (r : Option FileId) : Afs P :=
  g.setProc p { g.proc p with ofile := Function.update (g.proc p).ofile fd r }

def setCwd (g : Afs P) (p : P) (r : Option ℕ) : Afs P := g.setProc p { g.proc p with cwd := r }

/-- The open file that a descriptor holds. -/
def setFds (g : Afs P) (y : P × Fin NOFILE) (r : Option FileId) : Afs P :=
  { g with fds := Function.update g.fds y r }

end Afs

/-- The entry of a process changes, but not what is known of who holds what. -/
theorem Rep.setProc (h : Rep g L s) (p : P) (x : ProcFiles) :
    Rep (g.setProc p x) L (s.setProc p x) := by
  refine h.tables rfl rfl h.file h.pipe ?_ (fun _ => rfl) h.held
    ⟨h.files.pts, h.files.slots, h.files.idle, h.files.used, h.files.writable⟩
    ⟨h.pipes.ends, h.pipes.used, h.pipes.mode⟩
  show Function.update s.proc p x = Function.update g.proc p x
  rw [h.proc]

theorem Rep.setFd (h : Rep g L s) (p : P) (fd : Fin NOFILE) (r : Option FileId) :
    Rep (g.setFd p fd r) L (s.setFd p fd r) := by
  unfold Afs.setFd FsState.setFd
  rw [h.proc]
  exact h.setProc p _

theorem Rep.setCwd (h : Rep g L s) (p : P) (r : Option ℕ) : Rep (g.setCwd p r) L (s.setCwd p r) := by
  unfold Afs.setCwd FsState.setCwd
  rw [h.proc]
  exact h.setProc p _

theorem Rep.giveFd {y : P × Fin NOFILE} (h : Rep (g.takeFile f) L s) (hy : g.fds y = none)
    (ht : (g.file f).type ≠ .none) : Rep (g.setFds y (some f)) L s := by
  refine h.tables rfl rfl h.file h.pipe h.proc (fun _ => rfl) h.held
    ⟨h.files.pts, fun f' => ?_, h.files.idle, fun z f' hz => ?_, h.files.writable⟩
    ⟨h.pipes.ends, h.pipes.used, h.pipes.mode⟩
  · have hslots := h.files.slots f'
    have hset := npointers.set (f := g.fds) (mem_univ y) hy f f'
    show npointers univ (Function.update g.fds y (some f)) f' + g.tmpf.count f' = (g.file f').ref
    have hslots' : npointers univ g.fds f' + (f ::ₘ g.tmpf).count f' = (g.file f').ref := hslots
    rw [Multiset.count_cons] at hslots'
    by_cases hf : f' = f
    · rw [if_pos hf] at hslots'
      rw [if_pos hf.symm] at hset
      omega
    · rw [if_neg hf] at hslots'
      rw [if_neg (Ne.symm hf)] at hset
      omega
  · by_cases hzy : z = y
    · rw [hzy, show (g.setFds y (some f)).fds y = some f from Function.update_self ..] at hz
      cases hz
      exact ht
    · rw [show (g.setFds y (some f)).fds z = g.fds z from Function.update_of_ne hzy ..] at hz
      exact h.files.used z f' hz

theorem Rep.takeFd {y : P × Fin NOFILE} (h : Rep g L s) (hy : g.fds y = some f) :
    Rep ((g.setFds y none).takeFile f) L s := by
  refine h.tables rfl rfl h.file h.pipe h.proc (fun _ => rfl) h.held
    ⟨h.files.pts, fun f' => ?_, h.files.idle, fun z f' hz => ?_, h.files.writable⟩
    ⟨h.pipes.ends, h.pipes.used, h.pipes.mode⟩
  · have hslots := h.files.slots f'
    have hclear := npointers.clear (f := g.fds) (mem_univ y) hy f'
    show npointers univ (Function.update g.fds y none) f' + (f ::ₘ g.tmpf).count f' =
      (g.file f').ref
    rw [Multiset.count_cons]
    by_cases hf : f' = f
    · rw [if_pos hf]
      rw [if_pos hf.symm] at hclear
      omega
    · rw [if_neg hf]
      rw [if_neg (Ne.symm hf)] at hclear
      omega
  · by_cases hzy : z = y
    · rw [hzy, show ((g.setFds y none).takeFile f).fds y = none from Function.update_self ..] at hz
      contradiction
    · rw [show ((g.setFds y none).takeFile f).fds z = g.fds z from Function.update_of_ne hzy ..] at hz
      exact h.files.used z f' hz

/-- Files are not concerned when a process changes its current directory. -/
theorem Afs.FilesOk.setCwd (h : g.FilesOk) (p : P) (r : Option ℕ) :
    (g.setPts (.inl p) r).FilesOk where
  pts f := (pts_setPts_ne Sum.inr_ne_inl r).trans (h.pts f)
  slots := h.slots
  idle := h.idle
  used := h.used
  writable := h.writable

theorem Rep.giveCwd {p : P} (h : Rep (g.take i) L s) (hi : i ∈ L) (hp : g.pts (.inl p) = none) :
    Rep (g.setPts (.inl p) (some i)) L s :=
  h.tables rfl rfl h.file h.pipe h.proc (refs_give hp)
    (fun _ _ hy => valid_setPts (g := g.take i) h hi hy)
    (Afs.FilesOk.setCwd (g := g) (h.files.setTmp g.tmp) p (some i)) ⟨h.pipes.ends, h.pipes.used, h.pipes.mode⟩

theorem Rep.takeCwd {p : P} (h : Rep g L s) (hp : g.pts (.inl p) = some i) :
    Rep ((g.setPts (.inl p) none).take i) (i :: L) s :=
  (h.read (h.held (.inl p) i hp)).tables rfl rfl h.file h.pipe h.proc
    (refs_retrieve hp) (fun y j hy => h.held y j (held_setPts hy))
    ((h.files.setCwd p none).setTmp _) ⟨h.pipes.ends, h.pipes.used, h.pipes.mode⟩

end Tables

/-! ## Functions -/

namespace Fs

open FsState

variable {g : Afs P} {L : List ℕ} {s : FsState P} {i : ℕ} {f : FileId} {D : ℕ → Prop} {p : P}

theorem pipeclose_run {page : ℕ} {pi : PipeEnds} (hp : s.pipe page = some pi) (w : Bool) :
    (pipeclose page w).run s = .ok ((), s.setPipe page (pi.close w)) := by
  unfold pipeclose PipeEnds.close
  rw [Wp.run_bind_eq (m := get) rfl, hp]
  dsimp only
  split_ifs <;> rfl

variable [Fintype P]

theorem filealloc_spec (h : Rep g L s) : Wp filealloc (fun r s' => match r with
      | none => Rep g L s'
      | some f => (g.file f).ref = 0 ∧ (g.file f).type = .none ∧
          Rep ((g.setFile f { g.file f with ref := 1 }).takeFile f) L s') (Fails g.sb D) s := by
  refine Wp.get_bind ?_
  rw [h.file]
  cases hf : (List.finRange NFILE).find? fun f => decide ((g.file f).ref = 0) with
  | none => exact Wp.pure h
  | some f =>
    have hzero : (g.file f).ref = 0 := by simpa using List.find?_some hf
    have hrep := h.addFileRef f
    rw [hzero] at hrep
    exact Wp.set_bind (Wp.pure ⟨hzero, h.files.idle f hzero, hrep⟩)

theorem filedup_spec (h : Rep g L s) (hf : (g.file f).ref ≠ 0) : Wp (filedup f) (fun _ =>
      Rep ((g.setFile f { g.file f with ref := (g.file f).ref + 1 }).takeFile f) L) (Fails g.sb D) s := by
  refine Wp.get_bind ?_
  rw [h.file]
  exact Wp.ite (fun hlt => absurd hlt (by omega)) fun _ => Wp.set (h.addFileRef f)

theorem ilock_file (h : Rep g L s) (hf : (g.file f).held = some i) :
    Wp (ilock i) (fun _ => Rep g (i :: L)) (Fails g.sb D) s := by
  have hpts : g.pts (.inr f) = some i := (h.files.pts f).trans hf
  exact (ilock_spec h (.inr ⟨.inr f, hpts⟩) fun hz => absurd hz (h.type_of_held hpts)).mono
    fun _ _ h' => h'.2

theorem filestat_spec (h : Rep g [] s) (f : FileId) (copied : Bool) :
    Wp (filestat f copied) (fun _ => Rep g []) (Fails g.sb D) s := by
  refine Wp.get_bind ?_
  rw [h.file]
  cases ht : (g.file f).type with
  | none | pipe => exact Wp.pure h
  | inode | device =>
    have hheld : (g.file f).held = some (g.file f).ip := if_pos (by rw [ht]; decide)
    exact (ilock_file h hheld).bind fun _ _ h' => Wp.pure (h'.sub (List.forall_mem_nil _))

/-- **`fileread` changes nothing but the offset.** -/
theorem fileread_spec (h : Rep g [] s) (hf : (g.file f).type ≠ .none) (dst : ℕ → Bool) (n dev : ℤ) :
    Wp (fileread f dst n dev) (fun _ s' => ∃ o, Rep (g.setFile f { g.file f with off := o }) [] s')
      (Fails g.sb D) s := by
  have hself : Rep (g.setFile f { g.file f with off := (g.file f).off }) [] s := by
    rw [g.setFile_self f]
    exact h
  refine Wp.get_bind ?_
  rw [h.file]
  refine Wp.ite (fun _ => Wp.pure ⟨_, hself⟩) fun _ => ?_
  cases ht : (g.file f).type with
  | none => exact absurd ht hf
  | pipe | device => exact Wp.pure ⟨_, hself⟩
  | inode =>
    have hheld : (g.file f).held = some (g.file f).ip := if_pos (by rw [ht]; decide)
    refine (ilock_file h hheld).bind fun _ s1 h1 => ?_
    have hn : (n % 2 ^ 32).toNat < 2 ^ 32 := by omega
    refine Wp.run_bind (readi_rep h1 (List.mem_cons_self ..) dst hn) ?_
    obtain ⟨r, out⟩ := Node.readTo ..
    have h2 := h1.sub (List.forall_mem_nil _)
    refine Wp.ite (fun _ => Wp.modify_bind (Wp.pure ⟨addUint (g.file f).off r.toNat, ?_⟩))
      fun _ => Wp.pure ⟨(g.file f).off, ?_⟩
    · rw [h2.file]
      exact h2.setOff f _
    · rw [g.setFile_self f]
      exact h2

theorem filewriteLoop_spec (h : Rep g [] s) (hf : (g.file f).held = some i) (src : ℕ → Option UInt8)
    (n fuel k : ℕ) :
    Wp (filewriteLoop f src n fuel k) (fun _ s' => ∃ o y, y.type = (g.node i).type ∧
      y.nlink = (g.node i).nlink ∧ Rep ((g.setFile f { g.file f with off := o }).update i y) [] s')
      (Fails g.sb D) s := by
  have hself : ∀ {s'}, Rep g [] s' →
      Rep ((g.setFile f { g.file f with off := (g.file f).off }).update i (g.node i)) [] s' := fun h' => by
    rw [g.setFile_self f, g.update_self]
    exact h'
  induction fuel generalizing g s k with
  | zero => exact Wp.pure ⟨_, _, rfl, rfl, hself h⟩
  | succ fuel ih =>
    refine Wp.ite (fun _ => ?_) fun _ => Wp.pure ⟨_, _, rfl, rfl, hself h⟩
    refine Wp.modify_bind (Wp.get_bind ?_)
    have h0 := h.setLogged []
    have hff : (s.setLogged []).file f = g.file f := congrFun h.file f
    have hip : ((s.setLogged []).file f).ip = i := by
      rw [hff]
      exact (File.type_of_held hf).2
    have hn : min (n - k) (3 * BSIZE) < 2 ^ 32 := lt_of_le_of_lt (Nat.min_le_right _ _) (by decide)
    refine Wp.bind (q := fun _ => Rep g [i]) (by rw [hip]; exact ilock_file h0 hf) fun _ s1 h1 => ?_
    refine Wp.bind (q := fun _ s' => ∃ y : Node, y.type = (g.node i).type ∧
      y.nlink = (g.node i).nlink ∧ Rep (g.update i y) [i] s')
      (by rw [hip]; exact writei_user h1 (List.mem_cons_self ..) _ hn) fun r s2 hr => ?_
    obtain ⟨y, hyt, hyn, h2⟩ := hr
    have h2 := h2.sub (List.forall_mem_nil _)
    -- the offset is advanced, and the rest of the loop starts from there
    have hrest : ∀ o s3, Rep ((g.setFile f { g.file f with off := o }).update i y) [] s3 → Wp (do
          endOp
          if r ≠ min (n - k) (3 * BSIZE) then pure k
          else filewriteLoop f src n fuel (k + min (n - k) (3 * BSIZE)))
        (fun _ s' => ∃ o y, y.type = (g.node i).type ∧ y.nlink = (g.node i).nlink ∧
          Rep ((g.setFile f { g.file f with off := o }).update i y) [] s') (Fails g.sb D) s3 := by
      intro o s3 h3
      refine (endOp_spec h3).bind fun _ s4 h4 => Wp.ite (fun _ => Wp.pure ⟨o, y, hyt, hyn, h4⟩) fun _ => ?_
      have hfile : ((g.setFile f { g.file f with off := o }).update i y).file f =
          { g.file f with off := o } := g.file_setFile f _
      refine (ih h4 (by rw [hfile]; exact hf) _ fun h' => ?_).mono fun _ s' hs => ?_
      · rw [Afs.setFile_self, Afs.update_self]
        exact h'
      · obtain ⟨o', y', hyt', hyn', h'⟩ := hs
        have hnode : ((g.setFile f { g.file f with off := o }).update i y).node i = y :=
          Function.update_self ..
        rw [hnode] at hyt' hyn'
        refine ⟨o', y', hyt'.trans hyt, hyn'.trans hyn, ?_⟩
        rw [hfile] at h'
        have heq : ((((g.setFile f { g.file f with off := o }).update i y).setFile f
            { g.file f with off := o' }).update i y') =
            (g.setFile f { g.file f with off := o' }).update i y' := by
          unfold Afs.update Afs.setNode Afs.setFile
          simp only [Function.update_idem]
        rw [← heq]
        exact h'
    refine Wp.ite (fun _ => Wp.modify_bind (hrest (addUint ((s.setLogged []).file f).off r.toNat) _ ?_))
      fun _ => hrest (g.file f).off _ ?_
    · rw [h2.file]
      exact h2.setOff f _
    · rw [g.setFile_self f]
      exact h2

/-- **`filewrite` changes the bytes of a file**, which is not a directory, and the offset. -/
theorem filewrite_spec (h : Rep g [] s) (hf : (g.file f).type ≠ .none) (src : ℕ → Option UInt8)
    (n dev : ℤ) :
    Wp (filewrite f src n dev) (fun _ s' => Rep g [] s' ∨ ∃ i o y, (g.node i).type ≠ T_DIR ∧
      (g.node i).type ≠ 0 ∧ y.type = (g.node i).type ∧ y.nlink = (g.node i).nlink ∧
      Rep ((g.setFile f { g.file f with off := o }).update i y) [] s') (Fails g.sb D) s := by
  refine Wp.get_bind ?_
  rw [h.file]
  refine Wp.ite (fun _ => Wp.pure (.inl h)) fun hw => ?_
  have hw : (g.file f).writable = true := by simpa using hw
  cases ht : (g.file f).type with
  | none => exact absurd ht hf
  | pipe | device => exact Wp.pure (.inl h)
  | inode =>
    have hheld : (g.file f).held = some (g.file f).ip := if_pos (by rw [ht]; decide)
    refine (filewriteLoop_spec h hheld src n.toNat n.toNat 0).bind fun k s' hs => Wp.pure (.inr ?_)
    obtain ⟨o, y, hyt, hyn, h'⟩ := hs
    exact ⟨_, o, y, h.files.writable f _ hheld hw ht, h.type_of_held ((h.files.pts f).trans hheld), hyt,
      hyn, h'⟩

variable [DecidableEq P]

/-- **`fileclose` drops a reference to an open file**, and with the last one what the file holds. -/
theorem fileclose_spec (h : Rep (g.takeFile f) L s) (K : List ℕ) (hK : ∀ j ∈ K, j ∈ L ∧ j ∈ g.tmp) :
    Wp (fileclose f) (fun _ s' => ∃ g', g.Closed g' ∧ Rep g' K s') (Fails g.sb D) s := by
  have hslots : npointers univ g.fds f + (f ::ₘ g.tmpf).count f = (g.file f).ref := h.files.slots f
  rw [Multiset.count_cons_self] at hslots
  have hsub : ∀ j ∈ K, j ∈ L := fun j hj => (hK j hj).1
  have hfile : s.file = g.file := h.file
  refine Wp.get_bind ?_
  rw [hfile]
  refine Wp.ite (fun hlt => absurd hlt (by omega)) fun _ => Wp.ite (fun hlt => Wp.set ?_) fun hle =>
    Wp.set_bind ?_
  · exact ⟨_, closed_setFile g f _, (h.dropFileRef (by omega)).sub hsub⟩
  · have href : (g.file f).ref = 1 := by omega
    cases ht : (g.file f).type with
    | none =>
      exact Wp.pure ⟨_, closed_setFile g f _, (h.closeBlank href ht).sub hsub⟩
    | pipe =>
      obtain ⟨pi, hpi⟩ := h.pipes.pipe_of_end (f := f) (if_pos ht)
      have hpipe : s.pipe (g.file f).pipe = some pi := by
        rw [h.pipe]
        exact hpi
      exact Wp.of_run (pipeclose_run (s := s.setFile f _) hpipe _) ⟨_,
        (closed_setFile g f _).trans (closed_setPipe _ _ _), (h.closePipe href ht hpi).sub hsub⟩
    | inode | device =>
      have hheld : (g.file f).held = some (g.file f).ip := if_pos (by rw [ht]; decide)
      have hrep := (h.closeFile href hheld).setLogged []
      refine Wp.modify_bind ((iput_spec K hrep (.inl (List.mem_cons_self ..)) fun j hj =>
        ⟨List.mem_cons_of_mem _ (hsub j hj), .inl (hK j hj).2⟩).bind fun _ s1 h1 => ?_)
      obtain ⟨v, hv, h1, -⟩ := h1
      exact (endOp_spec h1).mono fun _ s2 h2 => ⟨_, ((closed_setFile g f _).trans
        (closed_setPts _ f)).trans (closed_setNode (.of_reaped hv)), h2⟩

theorem fdalloc_spec (h : Rep g L s) (p : P) (f : FileId) :
    Wp (fdalloc p f) (fun r s' => match r with
      | none => Rep g L s'
      | some fd => (g.proc p).ofile fd = none ∧ Rep (g.setFd p fd (some f)) L s') (Fails g.sb D) s := by
  refine Wp.get_bind ?_
  rw [h.proc]
  cases hf : (List.finRange NOFILE).find? fun fd => decide ((g.proc p).ofile fd = none) with
  | none => exact Wp.pure h
  | some fd =>
    have hnone : (g.proc p).ofile fd = none := by simpa using List.find?_some hf
    exact Wp.set_bind (Wp.pure ⟨hnone, h.setFd p fd (some f)⟩)

end Fs

end Xv6
