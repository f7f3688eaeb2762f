import Xv6.Fs.DirectoryProof
import Xv6.Fs.FileProof

/-!
# What system calls do, abstractly

A system call changes the files in three parts: files without links disappear on the way (`Sweep`),
then there is at most one change proper (`Change`), and then files without links may disappear again.
In between it takes and drops references; in the end open files and current directories hold files
that a path leads to from what was held before, or that have a link (`Step`).

`call_spec` says this of every system call, whatever the image is, and which errors it can stop with.
-/

open Function List

namespace Xv6

open Afs Fs

variable {P : Type}

/-! ## Changes -/

/-- The slot is empty, or the next one at the end of the directory. -/
def Node.Spare (x : Node) (k : ℕ) : Prop :=
  k < x.nslots ∧ (x.slot k).inum = 0 ∨ k * Dirent.SIZE = x.size

/-- The contents of a new directory `i` in directory `d`. -/
def IsNewDir (i d : ℕ) (y : Node) : Prop :=
  ∃ k, ((⟨T_DIR, 1, 0, fun _ => 0⟩ : Node).setSlot 0 (newDirent dot i)).Spare k ∧
    y = ((⟨T_DIR, 1, 0, fun _ => 0⟩ : Node).setSlot 0 (newDirent dot i)).setSlot k
      (newDirent dotdot d)

/-- The entry that `sys_unlink` writes. -/
def emptyDirent : Dirent := ⟨0, replicate DIRSIZ 0⟩

/-- What a system call is to do with a name in a directory. -/
inductive Aim
  | nothing
  /-- make a file of type `t` -/
  | make (t : ℤ) (d : ℕ) (name : List UInt8)
  /-- make a name for file `i` -/
  | link (i d : ℕ) (name : List UInt8)
  | remove (d : ℕ) (name : List UInt8)

/-- With the directory and the name that a path leads to. -/
def Aim.at (f : ℕ → List UInt8 → Aim) : Option (ℕ × List UInt8) → Aim
  | some (d, name) => f d name
  | none => .nothing

/-- **The change of the files that a system call can make.** -/
inductive Change (sb : SuperBlock) (o : Aim) (v : ℕ → Node) :
    (ℕ → Node) → Prop
  | nothing : Change sb o v v
  /-- the contents of a file -/
  | data {i : ℕ} {y : Node} : (v i).type ≠ T_DIR → (v i).type ≠ 0 → y.type = (v i).type →
      y.nlink = (v i).nlink → Change sb o v (update v i y)
  /-- a link that could not be made -/
  | relink {i : ℕ} : (v i).type ≠ T_DIR → (v i).type ≠ 0 →
      Change sb o v
        (update v i { v i with nlink := short (short ((v i).nlink + 1) - 1) })
  /-- a new file or device -/
  | create {d i k : ℕ} {name : List UInt8} {t : ℤ} : o = .make t d name → (v d).type = T_DIR →
      (v d).find name = none → (v d).Spare k → 1 ≤ i → i < sb.ninodes → (v i).type = 0 → t ≠ 0 →
      t ≠ T_DIR → Change sb o v (update (update v i ⟨t, 1, 0, fun _ => 0⟩) d
        ((v d).setSlot k (newDirent name i)))
  /-- a new directory -/
  | mkdir {d i k : ℕ} {name : List UInt8} {y : Node} : o = .make T_DIR d name → (v d).type = T_DIR →
      (v d).find name = none → (v d).Spare k → 1 ≤ i → i < sb.ninodes → (v i).type = 0 →
      IsNewDir i d y → Change sb o v (update (update v i y) d
        { (v d).setSlot k (newDirent name i) with nlink := short ((v d).nlink + 1) })
  /-- a new name -/
  | link {d i k : ℕ} {name : List UInt8} : o = .link i d name →
      (v d).type = T_DIR → (v d).find name = none → (v d).Spare k → (v i).type ≠ T_DIR →
      (v i).type ≠ 0 → Change sb o v (update
        (update v i { v i with nlink := short ((v i).nlink + 1) }) d
        ((v d).setSlot k (newDirent name i)))
  /-- a name of a file is removed -/
  | unlink {d i k : ℕ} {name : List UInt8} : o = .remove d name → (v d).type = T_DIR →
      namecmp name dot ≠ 0 → namecmp name dotdot ≠ 0 → (v d).find name = some k →
      i = ((v d).slot k).inum → (v i).type ≠ T_DIR → (v i).type ≠ 0 → 1 ≤ (v i).nlink →
      Change sb o v (update (update v d ((v d).setSlot k emptyDirent)) i
        { v i with nlink := short ((v i).nlink - 1) })
  /-- a directory is removed -/
  | rmdir {d i k : ℕ} {name : List UInt8} {x y : Node} : o = .remove d name → (v d).type = T_DIR →
      namecmp name dot ≠ 0 → namecmp name dotdot ≠ 0 → (v d).find name = some k →
      i = ((v d).slot k).inum → (v i).type = T_DIR → 1 ≤ (v i).nlink →
      (∀ j, 2 ≤ j → j < (v i).nslots → ((v i).slot j).inum = 0) →
      x = { (v d).setSlot k emptyDirent with nlink := short ((v d).nlink - 1) } →
      y = update v d x i →
      Change sb o v (update (update v d x) i
        { y with nlink := short (y.nlink - 1) })

/-- The files, from the start of a call on. -/
def NodeStep (sb : SuperBlock) (o : Aim) (v v' : ℕ → Node) : Prop :=
  ∃ v₁ v₂, Sweep v v₁ ∧ Change sb o v₁ v₂ ∧ Sweep v₂ v'

theorem NodeStep.reap {sb : SuperBlock} {o : Aim} {v v' v'' : ℕ → Node}
    (h : NodeStep sb o v v') (h' : Sweep v' v'') : NodeStep sb o v v'' := by
  obtain ⟨v1, v2, h1, hc, h2⟩ := h
  exact ⟨v1, v2, h1, hc, h2.trans h'⟩

namespace Afs

/-- A path leads to the file, from the root or from what somebody holds. -/
def Reach (g : Afs P) (t : ℕ) : Prop :=
  ∃ c, (c = ROOTINO ∨ ∃ h, g.pts h = some c) ∧ Fs.Visits g.node c t

/-- A path leads to the file, which does not exist, or is held by nobody and has no links. -/
def Bad (g : Afs P) (t : ℕ) : Prop :=
  g.Reach t ∧ ((g.node t).type = 0 ∨ (g.node t).nlink = 0 ∧ ∀ h, g.pts h ≠ some t)

/-- The files `v` and the holders `pts` come from `g` by a part of a call. -/
structure Step (o : Aim) (g : Afs P) (v : ℕ → Node)
    (pts : Holder P → Option ℕ) : Prop where
  node : NodeStep g.sb o g.node v
  held : ∀ h i, pts h = some i → g.Reach i ∨ 0 < (v i).nlink

variable {g g' g'' : Afs P} {o : Aim} {v v' : ℕ → Node}
  {pts : Holder P → Option ℕ} {c i j t : ℕ}

theorem reach_of_pts {h : Holder P} (hh : g.pts h = some i) : g.Reach i :=
  ⟨i, .inr ⟨h, hh⟩, .refl i⟩

theorem Reach.slot (h : g.Reach i) {k : ℕ} (hdir : (g.node i).type = T_DIR)
    (hk : k < (g.node i).nslots) (hne : ((g.node i).slot k).inum ≠ 0) :
    g.Reach ((g.node i).slot k).inum := by
  obtain ⟨c, hc, hv⟩ := h
  exact ⟨c, hc, hv.trans (.step hdir hk hne (.refl _))⟩

theorem Step.refl (g : Afs P) : Step o g g.node g.pts :=
  ⟨⟨_, _, .refl _, .nothing, .refl _⟩, fun _ _ hh => .inl (reach_of_pts hh)⟩

theorem Step.reap (h : Step o g v pts) (hr : Sweep v v') : Step o g v' pts where
  node := h.node.reap hr
  held x i hx := (h.held x i hx).imp id fun hn => by
    rw [hr.eq_of_nlink (ne_of_gt hn)]
    exact hn

theorem Step.change (h : Sweep g.node v) (hc : Change g.sb o v v') : Step o g v' g.pts :=
  ⟨⟨v, v', h, hc, .refl _⟩, fun _ _ hh => .inl (reach_of_pts hh)⟩

theorem Step.hold (h : Step o g v pts) (x : Holder P) [DecidableEq (Holder P)] {r : Option ℕ}
    (hr : ∀ i ∈ r, g.Reach i ∨ 0 < (v i).nlink) : Step o g v (Function.update pts x r) where
  node := h.node
  held y i hy := by
    by_cases hyx : y = x
    · rw [hyx, Function.update_self] at hy
      exact hr i hy
    · rw [Function.update_of_ne hyx] at hy
      exact h.held y i hy

/-- What a path leads to, while the call holds references of its own. -/
theorem sound_bad (hpts : g'.pts = g.pts) (hc : c = ROOTINO ∨ ∃ h, g.pts h = some c) :
    Fs.Sound g' g.node c g.Bad := by
  intro t ht hbad
  refine ⟨⟨c, hc, ht⟩, hbad.imp id fun hn => ⟨hn.1, fun h hh => hn.2 (.inr ⟨h, ?_⟩)⟩⟩
  rw [hpts]
  exact hh

theorem start_reach {p : P} (hq : g.Quiet) (hp : (g.proc p).cwd = some c) (path : List UInt8) :
    pathStart path c = ROOTINO ∨ ∃ h, g.pts h = some (pathStart path c) := by
  unfold pathStart
  split_ifs
  · exact .inl rfl
  · exact .inr ⟨.inl p, (hq.cwd p).trans hp⟩

/-- **What a call does to the abstract file system.** -/
structure Done (o : Aim) (g g' : Afs P) : Prop where
  quiet : g'.Quiet
  sb : g'.sb = g.sb
  tidy : g'.tidy = g.tidy
  step : Step o g g'.node g'.pts

theorem Done.refl (hq : g.Quiet) : g.Done o g := ⟨hq, rfl, rfl, .refl g⟩

theorem Done.sweep (h : g.Done o g') (hv : Sweep g'.node v) : g.Done o (g'.setNode v) :=
  ⟨⟨h.quiet.tmp, h.quiet.tmpf, h.quiet.cwd, h.quiet.fds⟩, h.sb, h.tidy, h.step.reap hv⟩

theorem Done.change (hq : g.Quiet) (hv : Sweep g.node v) (hc : Change g.sb o v v') :
    g.Done o (g.setNode v') :=
  ⟨⟨hq.tmp, hq.tmpf, hq.cwd, hq.fds⟩, rfl, rfl, .change hv hc⟩

theorem Done.of_shrunk (h : g.Shrunk g') (hq : g'.Quiet) : g.Done o g' where
  quiet := hq
  sb := h.sb
  tidy := h.tidy
  step := ⟨((Step.refl g).reap h.node).node, fun x i hx => .inl (reach_of_pts (h.pts x i hx))⟩

theorem Done.of_like (h : g.Like g') (hq : g'.Quiet) : g.Done o g' :=
  .of_shrunk ⟨h.sb, h.tidy, h.node ▸ .refl _, fun _ _ hx => h.pts ▸ hx⟩ hq

theorem Done.shrunk (h : g.Done o g') (hs : g'.Shrunk g'') (hq : g''.Quiet) : g.Done o g'' where
  quiet := hq
  sb := hs.sb.trans h.sb
  tidy := hs.tidy.trans h.tidy
  step := ⟨(h.step.reap hs.node).node, fun x i hx => (h.step.reap hs.node).held x i (hs.pts x i hx)⟩

section Quiet

variable [DecidableEq P] {p : P} {fd : Fin NOFILE} {r : Option FileId}

theorem proc_setFd (g : Afs P) (p q : P) (fd fd' : Fin NOFILE) (r : Option FileId) :
    ((g.setFd p fd r).proc q).ofile fd' = if q = p ∧ fd' = fd then r else (g.proc q).ofile fd' := by
  unfold setFd setProc
  by_cases hq : q = p
  · subst hq
    by_cases hfd : fd' = fd
    · simp [hfd]
    · simp [hfd]
  · simp [hq]

theorem cwd_setFd (g : Afs P) (p q : P) (fd : Fin NOFILE) (r : Option FileId) :
    ((g.setFd p fd r).proc q).cwd = (g.proc q).cwd := by
  unfold setFd setProc
  by_cases hq : q = p
  · subst hq
    simp
  · simp [hq]

theorem fds_setFds (g : Afs P) (y z : P × Fin NOFILE) (r : Option FileId) :
    (g.setFds y r).fds z = if z = y then r else g.fds z :=
  update_apply ..

theorem Quiet.setFd (hq : g.Quiet) (p : P) (fd : Fin NOFILE) (r : Option FileId) :
    ((g.setFd p fd r).setFds (p, fd) r).Quiet where
  tmp := hq.tmp
  tmpf := hq.tmpf
  cwd q := (hq.cwd q).trans (cwd_setFd g p q fd r).symm
  fds q fd' := by
    rw [fds_setFds]
    refine Eq.trans ?_ (proc_setFd g p q fd fd' r).symm
    simp only [Prod.mk.injEq]
    split_ifs
    exacts [rfl, hq.fds q fd']

theorem cwd_setCwd (g : Afs P) (p q : P) (r : Option ℕ) :
    ((g.setCwd p r).proc q).cwd = if q = p then r else (g.proc q).cwd := by
  unfold setCwd setProc
  by_cases hq : q = p
  · subst hq
    simp
  · simp [hq]

theorem ofile_setCwd (g : Afs P) (p q : P) (r : Option ℕ) :
    ((g.setCwd p r).proc q).ofile = (g.proc q).ofile := by
  unfold setCwd setProc
  by_cases hq : q = p
  · subst hq
    simp
  · simp [hq]

theorem Quiet.setCwd (hq : g.Quiet) (p : P) (r : Option ℕ) :
    ((g.setCwd p r).setPts (.inl p) r).Quiet where
  tmp := hq.tmp
  tmpf := hq.tmpf
  cwd q := by
    refine Eq.trans ?_ (cwd_setCwd g p q r).symm
    by_cases hqp : q = p
    · rw [hqp, pts_setPts, if_pos rfl]
    · rw [pts_setPts_ne fun he => hqp (Sum.inl.inj he), if_neg hqp]
      exact hq.cwd q
  fds q fd := (hq.fds q fd).trans (congrFun (ofile_setCwd g p q r).symm fd)

end Quiet

end Afs

/-! ## Descriptors -/

namespace Fs

open FsState

variable {g : Afs P} {s : FsState P} {p : P} {D : ℕ → Prop} {o : Aim}

/-- A reference of the call to another file outlives the closing of a file. -/
theorem closed_untake {g' : Afs P} {f : FileId} (h : (g.takeFile f).Closed g') :
    ∃ g0, g' = g0.takeFile f ∧ g.Closed g0 := by
  refine ⟨{ g' with tmpf := g.tmpf }, ?_, ⟨h.sb, h.tidy, h.node, h.pts⟩, h.proc, h.fds, h.tmp, rfl, h.cwd⟩
  have htmpf : g'.tmpf = f ::ₘ g.tmpf := h.tmpf
  unfold takeFile
  simp only [← htmpf]

theorem takeFile_comm (g : Afs P) (f f' : FileId) :
    (g.takeFile f).takeFile f' = (g.takeFile f').takeFile f := by
  unfold takeFile
  simp only [Multiset.cons_swap]

/-- Only the entries of processes have been written, and in the end they are as before. -/
theorem quiet_restore {g' : Afs P} (hq : g.Quiet) (hpts : g'.pts = g.pts) (htmp : g'.tmp = g.tmp)
    (hfds : g'.fds = g.fds) (htmpf : g'.tmpf = g.tmpf) (hcwd : ∀ q, (g'.proc q).cwd = (g.proc q).cwd)
    (hofile : ∀ q fd, (g'.proc q).ofile fd = (g.proc q).ofile fd) : g'.Quiet where
  tmp := htmp.trans hq.tmp
  tmpf := htmpf.trans hq.tmpf
  cwd q := by
    rw [hpts, hcwd]
    exact hq.cwd q
  fds q fd := by
    rw [hfds, hofile]
    exact hq.fds q fd

variable [Fintype P]

/-- The state after a call that starts from `g`. -/
def Ends (o : Aim) (g : Afs P) (s : FsState P) : Prop :=
  ∃ g', g.Done o g' ∧ Rep g' [] s

/-- **A call that starts from `g` does what it is to do**, or stops with an error. -/
abbrev Serves (o : Aim) (g : Afs P) (D : ℕ → Prop) (m : FsM P ℤ) (s : FsState P) : Prop :=
  Wp m (fun _ => Ends o g) (Fails g.sb D) s

theorem open_of_fd {y : P × Fin NOFILE} {f : FileId} {L : List ℕ} (h : Rep g L s) (hy : g.fds y = some f) :
    (g.file f).type ≠ .none ∧ (g.file f).ref ≠ 0 := by
  have hpos := npointers.pos (f := g.fds) (Finset.mem_univ y) hy
  have hslots := h.files.slots f
  exact ⟨h.files.used y f hy, by omega⟩

section

variable (h : Rep g [] s) (hq : g.Quiet) (fd : ℤ)

include h hq

/-- A call fails if there is no such descriptor, and goes on with its open file else. -/
theorem argfd_ends {k : Option (Fin NOFILE × FileId) → FsM P ℤ} {r : ℤ} (hk : k none = pure r)
    (hf : ∀ fd' f, g.fds (p, fd') = some f →
      Serves o g D (k (some (fd', f))) s) :
    Serves o g D (argfd p fd >>= k) s := by
  have hnone : Serves o g D (k none) s := by
    rw [hk]
    exact Wp.pure ⟨g, .refl hq, h⟩
  refine Wp.bind (q := fun x t => t = s ∧ Serves o g D (k x) s)
    (Wp.get_bind ?_) fun _ _ hx => hx.1 ▸ hx.2
  split_ifs with hfd
  · cases hx : (s.proc p).ofile ⟨fd.toNat, hfd.2⟩ with
    | none => exact Wp.pure ⟨rfl, hnone⟩
    | some f =>
      refine Wp.pure ⟨rfl, hf _ f ?_⟩
      rw [hq.fds, ← h.proc, hx]
  · exact Wp.pure ⟨rfl, hnone⟩

theorem sysRead_spec (dst : ℕ → Bool) (n dev : ℤ) :
    Serves o g D (sysRead p fd dst n dev) s := by
  refine argfd_ends h hq fd rfl fun fd0 f hf => ?_
  refine (fileread_spec h (open_of_fd h hf).1 dst n dev).mono fun _ s' hs => ?_
  obtain ⟨o, h'⟩ := hs
  exact ⟨_, .of_shrunk (closed_setFile g f _).toShrunk ((closed_setFile g f _).quiet hq), h'⟩

theorem sysWrite_spec (src : ℕ → Option UInt8) (n dev : ℤ) :
    Serves o g D (sysWrite p fd src n dev) s := by
  refine argfd_ends h hq fd rfl fun fd0 f hf => ?_
  refine (filewrite_spec h (open_of_fd h hf).1 src n dev).mono fun _ s' hs => ?_
  rcases hs with h' | ⟨i, o, y, hdir, hne, hyt, hyn, h'⟩
  · exact ⟨g, .refl hq, h'⟩
  · refine ⟨_, ?_, h'⟩
    exact ⟨⟨hq.tmp, hq.tmpf, hq.cwd, hq.fds⟩, rfl, rfl,
      .change (.refl g.node) (.data hdir hne hyt hyn)⟩

theorem sysFstat_spec (copied : Bool) :
    Serves o g D (sysFstat p fd copied) s := by
  exact argfd_ends h hq fd rfl fun _ f _ =>
    (filestat_spec h f copied).mono fun _ s' h' => ⟨g, .refl hq, h'⟩

variable [DecidableEq P]

theorem sysDup_spec : Serves o g D (sysDup p fd) s := by
  refine argfd_ends h hq fd rfl fun fd0 f hf => ?_
  obtain ⟨htype, href⟩ := open_of_fd h hf
  refine (fdalloc_spec h p f).bind fun r s2 h2 => ?_
  match r, h2 with
  | none, h2 => exact Wp.pure ⟨g, .refl hq, h2⟩
  | some fd1, ⟨hfree, h2⟩ =>
    refine (filedup_spec h2 href).bind fun _ s3 h3 => Wp.pure ?_
    have hfds : g.fds (p, fd1) = none := (hq.fds p fd1).trans hfree
    refine ⟨_, ?_, h3.giveFd hfds ?_⟩
    · have hquiet := hq.setFd p fd1 (some f)
      exact .of_like ⟨rfl, rfl, rfl, rfl⟩ ⟨hquiet.tmp, hquiet.tmpf, hquiet.cwd, hquiet.fds⟩
    · rw [file_setFile]
      exact htype

theorem sysClose_spec : Serves o g D (sysClose p fd) s := by
  refine argfd_ends h hq fd rfl fun fd0 f hf => ?_
  have h1 := (h.setFd p fd0 none).takeFd (y := (p, fd0)) hf
  refine Wp.modify_bind ((fileclose_spec h1 [] (forall_mem_nil _)).bind fun _ s' hs => Wp.pure ?_)
  obtain ⟨g', hc, h'⟩ := hs
  exact ⟨g', .of_shrunk ⟨hc.sb, hc.tidy, hc.node, hc.pts⟩ (hc.quiet (hq.setFd p fd0 none)), h'⟩

end

/-! ## Pipes -/

variable [DecidableEq P]

theorem closeBoth_spec {f0 f1 : FileId} (h : Rep ((g.takeFile f0).takeFile f1) [] s) :
    Wp (closeBoth f0 f1) (fun _ s' => ∃ g', g.Closed g' ∧ Rep g' [] s') (Fails g.sb D) s := by
  rw [takeFile_comm] at h
  refine (fileclose_spec h [] (forall_mem_nil _)).bind fun _ s1 hs => ?_
  obtain ⟨g1, hc1, h1⟩ := hs
  obtain ⟨g2, rfl, hc2⟩ := closed_untake hc1
  have hclose := fileclose_spec (D := D) h1 [] (forall_mem_nil _)
  rw [hc2.sb] at hclose
  refine hclose.mono fun _ s2 hs => ?_
  obtain ⟨g', hc', h'⟩ := hs
  exact ⟨g', hc2.trans hc', h'⟩

/-- **`pipealloc` returns two open files that the call holds**, or nothing. -/
theorem pipealloc_spec {page : Option ℕ} (h : Rep g [] s) (hpage : ∀ pi ∈ page, g.pipe pi = none) :
    Wp (pipealloc page) (fun r s' => ∃ g', g.Closed g' ∧ match r with
      | none => Rep g' [] s'
      | some (f0, f1) => (g'.file f0).type ≠ .none ∧ (g'.file f1).type ≠ .none ∧
          Rep ((g'.takeFile f0).takeFile f1) [] s') (Fails g.sb D) s := by
  refine (filealloc_spec h).bind fun r s1 hr => ?_
  match r, hr with
  | none, h1 => exact Wp.pure ⟨g, ⟨.refl g, rfl, rfl, rfl, rfl, fun _ => rfl⟩, h1⟩
  | some f0, ⟨href0, htype0, h1⟩ =>
    have hc1 := closed_setFile g f0 { g.file f0 with ref := 1 }
    refine (filealloc_spec h1).bind fun r s2 hr => ?_
    match r, hr with
    | none, h2 =>
      refine (fileclose_spec h2 [] (forall_mem_nil _)).bind fun _ s3 hs => Wp.pure ?_
      obtain ⟨g', hc, h'⟩ := hs
      exact ⟨g', hc1.trans hc, h'⟩
    | some f1, ⟨href1, htype1, h2⟩ =>
      -- the first file is in use, so that the second one is another
      have hne : f1 ≠ f0 := by
        rintro rfl
        have hone : ((g.setFile f1 { g.file f1 with ref := 1 }).file f1).ref = 1 := by
          rw [file_setFile]
        exact absurd (href1.symm.trans hone) (by decide)
      set x0 : File := { g.file f0 with ref := 1 }
      set x1 : File := { (g.setFile f0 x0).file f1 with ref := 1 }
      set g2 := (g.setFile f0 x0).setFile f1 x1 with hg2
      have hc2 : g.Closed g2 := hc1.trans (closed_setFile _ f1 x1)
      have hrep : Rep ((g2.takeFile f0).takeFile f1) [] s2 := h2
      have hfile0 : g2.file f0 = x0 := by
        rw [hg2, file_setFile_ne (Ne.symm hne), file_setFile]
      have hfile1 : g2.file f1 = x1 := file_setFile ..
      match page with
      | none => exact (closeBoth_spec hrep).bind fun _ s3 hs => Wp.pure (hs.imp fun g' hs =>
          ⟨hc2.trans hs.1, hs.2⟩)
      | some pi =>
        have hmake := hrep.makePipe hne
          (Multiset.mem_cons_of_mem (Multiset.mem_cons_self f0 _)) (Multiset.mem_cons_self f1 _)
          (by rw [show ((g2.takeFile f0).takeFile f1).file f0 = g2.file f0 from rfl, hfile0]; exact htype0)
          (by rw [show ((g2.takeFile f0).takeFile f1).file f1 = g2.file f1 from rfl, hfile1]; exact htype1)
          (hpage pi rfl)
        refine Wp.modify_bind (Wp.modify_bind (Wp.modify_bind (Wp.pure ⟨_, hc2.trans
          ((closed_setPipe g2 pi (some ⟨true, true⟩)).trans ((closed_setFile _ f0
            (pipeFile (g2.file f0) pi false)).trans (closed_setFile _ f1
              (pipeFile (g2.file f1) pi true)))), ?_, ?_, ?_⟩)))
        · rw [file_setFile_ne (Ne.symm hne), file_setFile]
          exact fun hp => FileKind.noConfusion hp
        · rw [file_setFile]
          exact fun hp => FileKind.noConfusion hp
        · have hs0 : s2.file f0 = g2.file f0 := congrFun hrep.file f0
          have hs1 : ∀ y, ((s2.setPipe pi (some ⟨true, true⟩)).setFile f0 y).file f1 = g2.file f1 := fun y =>
            (update_of_ne hne ..).trans (congrFun hrep.file f1)
          rw [hs1]
          show Rep _ [] (((s2.setPipe pi (some ⟨true, true⟩)).setFile f0
            (pipeFile (s2.file f0) pi false)).setFile f1 (pipeFile (g2.file f1) pi true))
          rw [hs0]
          exact hmake

theorem closeBoth_ends {k : Afs P} {f0 f1 : FileId} (h : Rep ((k.takeFile f0).takeFile f1) [] s)
    (hs : g.Shrunk k) (hq : k.Quiet) :
    Serves o g D (do closeBoth f0 f1; pure (-1 : ℤ)) s := by
  unfold Serves
  rw [← hs.sb]
  refine (closeBoth_spec h).bind fun _ s' hc => Wp.pure ?_
  obtain ⟨g', hc, h'⟩ := hc
  exact ⟨g', .of_shrunk (hs.trans hc.toShrunk) (hc.quiet hq), h'⟩

theorem sysPipe_spec {page : Option ℕ} (h : Rep g [] s) (hq : g.Quiet)
    (hpage : ∀ pi ∈ page, g.pipe pi = none) (copied0 copied1 : Bool) :
    Serves o g D (sysPipe p page copied0 copied1) s := by
  refine (pipealloc_spec h hpage).bind fun r s1 hr => ?_
  obtain ⟨g1, hc, hr⟩ := hr
  have hq1 := hc.quiet hq
  have hs1 := hc.toShrunk
  match r, hr with
  | none, h1 => exact Wp.pure ⟨g1, .of_shrunk hs1 hq1, h1⟩
  | some (rf, wf), ⟨ht0, ht1, h1⟩ =>
    have halloc := fdalloc_spec (D := D) h1 p rf
    rw [show ((g1.takeFile rf).takeFile wf).sb = g.sb from hc.sb] at halloc
    refine halloc.bind fun r s2 hr => ?_
    match r, hr with
    | none, h2 => exact closeBoth_ends h2 hs1 hq1
    | some fd0, ⟨hfd0, h2⟩ =>
      have hfd0 : (g1.proc p).ofile fd0 = none := hfd0
      have hs2 : g.Shrunk (g1.setFd p fd0 (some rf)) := ⟨hs1.sb, hs1.tidy, hs1.node, hs1.pts⟩
      have halloc := fdalloc_spec (D := D) h2 p wf
      rw [show (((g1.takeFile rf).takeFile wf).setFd p fd0 (some rf)).sb = g.sb from hc.sb] at halloc
      refine halloc.bind fun r s3 hr => ?_
      match r, hr with
      | none, h3 =>
        refine Wp.modify_bind (closeBoth_ends (k := (g1.setFd p fd0 (some rf)).setFd p fd0 none)
          (h3.setFd p fd0 none) ⟨hs1.sb, hs1.tidy, hs1.node, hs1.pts⟩
          (quiet_restore hq1 rfl rfl rfl rfl (fun q => ?_) fun q fd => ?_))
        · simp only [cwd_setFd]
        · simp only [proc_setFd]
          split_ifs with hfd
          · rw [hfd.1, hfd.2, hfd0]
          · rfl
      | some fd1, ⟨hfd1, h3⟩ =>
        have hfd1 : ((g1.setFd p fd0 (some rf)).proc p).ofile fd1 = none := hfd1
        rw [proc_setFd] at hfd1
        have hne : fd1 ≠ fd0 := by
          rintro rfl
          rw [if_pos ⟨rfl, rfl⟩] at hfd1
          contradiction
        rw [if_neg fun hh => hne hh.2] at hfd1
        refine Wp.ite (fun _ => Wp.pure ?_) fun _ => Wp.modify_bind (Wp.modify_bind ?_)
        · set g3 := (g1.setFd p fd0 (some rf)).setFd p fd1 (some wf)
          have h4 : Rep ((g3.takeFile wf).takeFile rf) [] s3 := by
            rw [takeFile_comm]
            exact h3
          have h5 : Rep ((g3.setFds (p, fd0) (some rf)).takeFile wf) [] s3 :=
            h4.giveFd ((hq1.fds p fd0).trans hfd0) ht0
          have hfree : (g3.setFds (p, fd0) (some rf)).fds (p, fd1) = none := by
            rw [fds_setFds, if_neg fun he => hne (congrArg Prod.snd he)]
            exact (hq1.fds p fd1).trans hfd1
          have hquiet := (hq1.setFd p fd0 (some rf)).setFd p fd1 (some wf)
          refine ⟨(g3.setFds (p, fd0) (some rf)).setFds (p, fd1) (some wf), ?_, h5.giveFd hfree ht1⟩
          exact .of_shrunk ⟨hs1.sb, hs1.tidy, hs1.node, hs1.pts⟩
            ⟨hquiet.tmp, hquiet.tmpf, hquiet.cwd, hquiet.fds⟩
        · refine closeBoth_ends (k := (((g1.setFd p fd0 (some rf)).setFd p fd1 (some wf)).setFd p fd0
            none).setFd p fd1 none) ((h3.setFd p fd0 none).setFd p fd1 none)
            ⟨hs1.sb, hs1.tidy, hs1.node, hs1.pts⟩
            (quiet_restore hq1 rfl rfl rfl rfl (fun q => ?_) fun q fd => ?_)
          · simp only [cwd_setFd]
          · simp only [proc_setFd]
            split_ifs with hfd hfd'
            · rw [hfd.1, hfd.2, hfd1]
            · rw [hfd'.1, hfd'.2, hfd0]
            · rfl

/-! ## Processes -/

theorem forkFd_spec {child : P} {g1 : Afs P} {fd : Fin NOFILE} (h : Rep g1 [] s) (hq : g1.Quiet)
    (hfree : (g1.proc child).ofile fd = none) :
    Wp (forkFd p child fd) (fun _ s' => ∃ r, ∃ g', g1.Like g' ∧ g'.Quiet ∧
      g'.proc = (g1.setFd child fd r).proc ∧ Rep g' [] s') (Fails g1.sb D) s := by
  refine Wp.get_bind ?_
  rw [h.proc]
  cases hf : (g1.proc p).ofile fd with
  | none =>
    refine Wp.pure ⟨none, g1, .refl g1, hq, ?_, h⟩
    unfold Afs.setFd Afs.setProc
    rw [← hfree, update_eq_self, update_eq_self]
  | some f =>
    obtain ⟨htype, href⟩ := open_of_fd h ((hq.fds p fd).trans hf)
    refine (filedup_spec h href).bind fun _ s1 h1 => Wp.modify ?_
    have h2 := (h1.setFd child fd (some f))
    set x : File := { g1.file f with ref := (g1.file f).ref + 1 }
    have h3 : Rep (((g1.setFile f x).setFd child fd (some f)).takeFile f) [] _ := h2
    have hquiet := hq.setFd child fd (some f)
    refine ⟨some f, ((g1.setFile f x).setFd child fd (some f)).setFds (child, fd) (some f),
      ⟨rfl, rfl, rfl, rfl⟩, ⟨hquiet.tmp, hquiet.tmpf, hquiet.cwd, hquiet.fds⟩, rfl,
      h3.giveFd ((hq.fds child fd).trans hfree) ?_⟩
    have hfile : ((g1.setFile f x).setFd child fd (some f)).file f = x := Afs.file_setFile ..
    rw [hfile]
    exact htype

theorem sysFork_spec {child : P} {c : ℕ} (h : Rep g [] s) (hq : g.Quiet) (hp : (g.proc p).cwd = some c)
    (hchild : (g.proc child).cwd = none) (hfree : ∀ fd, (g.proc child).ofile fd = none) :
    Serves o g D (sysFork p child) s := by
  -- the descriptors that have not been duplicated yet are free
  refine Wp.bind (Wp.forM (I := fun fds s' => fds.Nodup ∧ ∃ g', g.Like g' ∧ g'.Quiet ∧
    (∀ q, (g'.proc q).cwd = (g.proc q).cwd) ∧ (∀ fd ∈ fds, (g'.proc child).ofile fd = none) ∧
    Rep g' [] s') (fun fd fds s1 hs => ?_) _ ⟨nodup_finRange _, g, .refl g, hq, fun _ => rfl,
      fun fd _ => hfree fd, h⟩) fun _ s1 hs => Wp.get_bind ?_
  · obtain ⟨hnd, g1, hl, hq1, hcwd, hnone, h1⟩ := hs
    rw [nodup_cons] at hnd
    rw [← hl.sb]
    refine (forkFd_spec h1 hq1 (hnone fd (mem_cons_self ..))).mono fun _ s2 hs => ?_
    obtain ⟨r, g2, hl2, hq2, hproc, h2⟩ := hs
    refine ⟨hnd.2, g2, hl.trans hl2, hq2, fun q => ?_, fun fd' hfd' => ?_, h2⟩
    · rw [hproc, cwd_setFd, hcwd]
    · have hfd : fd' ≠ fd := fun he => hnd.1 (he ▸ hfd')
      rw [hproc, proc_setFd, if_neg fun hh => hfd hh.2]
      exact hnone fd' (mem_cons_of_mem _ hfd')
  · obtain ⟨-, g1, hl, hq1, hcwd, -, h1⟩ := hs
    have hp1 : (g1.proc p).cwd = some c := (hcwd p).trans hp
    have hpts : g1.pts (.inl p) = some c := (hq1.cwd p).trans hp1
    rw [h1.proc, hp1, ← hl.sb]
    refine (idup_spec (h1.read (h1.held _ _ hpts)) (.inr ⟨_, hpts⟩)).bind fun _ s2 h2 =>
      Wp.modify_bind (Wp.pure ?_)
    have h3 : Rep ((g1.setCwd child (some c)).take c) [c] _ := h2.setCwd child (some c)
    have hnone : g1.pts (.inl child) = none := (hq1.cwd child).trans ((hcwd child).trans hchild)
    refine ⟨_, ⟨hq1.setCwd child (some c), hl.sb, hl.tidy, ?_⟩,
      (h3.giveCwd (mem_cons_self ..) hnone).sub (forall_mem_nil _)⟩
    have hstep : Afs.Step o g g.node (update g.pts (.inl child) (some c)) :=
      (Afs.Step.refl g).hold _ fun i hi => .inl (Option.some.inj hi ▸
        reach_of_pts ((hq.cwd p).trans hp))
    rw [← hl.node, ← hl.pts] at hstep
    exact hstep

theorem exitFd_spec {g1 : Afs P} {fd : Fin NOFILE} (h : Rep g1 [] s) (hq : g1.Quiet) :
    Wp (exitFd p fd) (fun _ s' => ∃ g', g1.Shrunk g' ∧ g'.Quiet ∧
      (∀ q, (g'.proc q).cwd = (g1.proc q).cwd) ∧ Rep g' [] s') (Fails g1.sb D) s := by
  refine Wp.get_bind ?_
  rw [h.proc]
  cases hf : (g1.proc p).ofile fd with
  | none => exact Wp.pure ⟨g1, .refl g1, hq, fun _ => rfl, h⟩
  | some f =>
    have h1 := h.takeFd (y := (p, fd)) ((hq.fds p fd).trans hf)
    refine (fileclose_spec h1 [] (forall_mem_nil _)).bind fun _ s2 hs => Wp.modify ?_
    obtain ⟨g2, hc, h2⟩ := hs
    -- the order in which the file is closed and the descriptor is cleared makes no difference
    have hproc : (g2.setFd p fd none).proc = (g1.setFd p fd none).proc := by
      unfold Afs.setFd Afs.setProc
      rw [hc.proc]
      rfl
    have hc' : ((g1.setFd p fd none).setFds (p, fd) none).Closed (g2.setFd p fd none) :=
      ⟨⟨hc.sb, hc.tidy, hc.node, hc.pts⟩, hproc, hc.fds, hc.tmp, hc.tmpf, hc.cwd⟩
    refine ⟨g2.setFd p fd none, ⟨hc.sb, hc.tidy, hc.node, hc.pts⟩, hc'.quiet (hq.setFd p fd none),
      fun q => ?_, h2.setFd p fd none⟩
    rw [hproc, Afs.cwd_setFd]

/-- `iput(p->cwd)`: the call takes over the reference, and drops it. -/
theorem putCwd_spec {g1 : Afs P} {c : ℕ} {L : List ℕ} (h : Rep g1 L s) (hp : (g1.proc p).cwd = some c)
    (hpts : g1.pts (.inl p) = some c) (K : List ℕ) (hK : ∀ j ∈ K, j ∈ L ∧ j ∈ g1.tmp) :
    Wp (putCwd p) (fun _ s' => ∃ v, Sweep g1.node v ∧ Rep ((g1.setPts (.inl p) none).setNode v) K s')
      (Fails g1.sb D) s := by
  refine Wp.get_bind ?_
  rw [h.proc, hp]
  refine (iput_spec K (h.takeCwd hpts) (.inl (mem_cons_self ..)) fun j hj =>
    ⟨mem_cons_of_mem _ (hK j hj).1, .inl (hK j hj).2⟩).mono fun _ s' hs => ?_
  obtain ⟨v, hv, h', -⟩ := hs
  have hsweep := Sweep.of_reaped hv
  exact ⟨v, hsweep, h'⟩

theorem sysExit_spec {c : ℕ} (h : Rep g [] s) (hq : g.Quiet) (hp : (g.proc p).cwd = some c) :
    Serves o g D (sysExit p) s := by
  refine Wp.bind (Wp.forM (I := fun _ s' => ∃ g', g.Shrunk g' ∧ g'.Quiet ∧
    (∀ q, (g'.proc q).cwd = (g.proc q).cwd) ∧ Rep g' [] s') (fun fd fds s1 hs => ?_) _
    ⟨g, .refl g, hq, fun _ => rfl, h⟩) fun _ s1 hs => ?_
  · obtain ⟨g1, hs1, hq1, hcwd, h1⟩ := hs
    rw [← hs1.sb]
    refine (exitFd_spec h1 hq1).mono fun _ s2 hs => ?_
    obtain ⟨g2, hs2, hq2, hcwd2, h2⟩ := hs
    exact ⟨g2, hs1.trans hs2, hq2, fun q => (hcwd2 q).trans (hcwd q), h2⟩
  · obtain ⟨g1, hs1, hq1, hcwd, h1⟩ := hs
    have hp1 : (g1.proc p).cwd = some c := (hcwd p).trans hp
    rw [← hs1.sb]
    refine (beginOp_spec h1).bind fun _ s2 h2 => (putCwd_spec h2 hp1 ((hq1.cwd p).trans hp1) []
      (forall_mem_nil _)).bind fun _ s3 h3 => ?_
    obtain ⟨v, hv, h3⟩ := h3
    refine (endOp_spec h3).bind fun _ s4 h4 => Wp.modify_bind (Wp.pure ⟨_, ?_, h4.setCwd p none⟩)
    have hquiet := hq1.setCwd p none
    exact .of_shrunk (hs1.trans ⟨rfl, rfl, hv, fun x i hx => held_setPts (g := g1) hx⟩)
      ⟨hquiet.tmp, hquiet.tmpf, hquiet.cwd, hquiet.fds⟩

end Fs

end Xv6
