import Xv6.Lib.Pointers
import Xv6.Fs.Settled

/-!
# The abstract file system

What the file system is to the system calls: files (`node`), the open files and current directories
that hold them (`pts`), the descriptors that hold open files (`fds`), and the references that the
running call holds itself (`tmp`, `tmpf`). There are no blocks, no free map and no inode table.

`Rep g L s` says that the state `s` represents `g`, and that the inodes of `L` have been read. In
particular the blocks are owned, every cached inode is what is on disk, and a reference count is the
number of references in `g`, for inodes and for open files.

For each function of `Xv6.Fs.Inode` that the layers above call, there is a specification in these
terms. A file disappears only when `iput` drops the last reference to it and it has no links (`Reaped`),
and it does disappear then: if at first no file without links is held by nobody (`tidy`), there is never
one (`orphans`), in particular not when the system commits (`commits`).

Errors are panics for want of something (`Ordinary`), or `ilock` has come to an inode that is not
allocated; that they come from nothing else is part of every specification (`Fails`).
-/

open List

namespace Xv6

open FsState Volume

/-- Panics that say that something has run out, or that a directory is malformed. -/
def FsError.Ordinary : FsError → Prop
  | .wild | .badInum | .freeingFreeBlock | .ilockNoType | .bmapRange | .filedup | .fileclose
  | .fileread | .filewrite => False
  | _ => True

/-- The error is ordinary, or `ilock` has failed for an inode of `D`. -/
def Fails (sb : SuperBlock) (D : ℕ → Prop) (e : FsError) : Prop :=
  e.Ordinary ∨ ∃ i, D i ∧ (e = .ilockNoType ∨ e = .badInum ∧ sb.ninodes ≤ i)

/-- Who holds an inode between system calls: a process as its current directory, or an open file. -/
abbrev Holder (P : Type) := P ⊕ FileId

structure Afs (P : Type) where
  sb : SuperBlock
  file : FileId → File
  pipe : ℕ → Option PipeEnds
  proc : P → ProcFiles
  node : ℕ → Node
  pts : Holder P → Option ℕ
  tmp : Multiset ℕ
  fds : P × Fin NOFILE → Option FileId
  tmpf : Multiset FileId
  /-- whether files without links are all held -/
  tidy : Prop

variable {P : Type}

namespace File

/-- The inode that an open file holds. -/
def held (f : File) : Option ℕ := if f.type = .inode ∨ f.type = .device then some f.ip else none

/-- The end of a pipe that an open file is: the page, and whether it is the end for writing. -/
def pipeEnd (f : File) : Option (ℕ × Bool) := if f.type = .pipe then some (f.pipe, f.writable) else none

variable {f : File} {i : ℕ}

theorem held_of_none (h : f.type = .none) : f.held = none := if_neg (by rw [h]; decide)

theorem held_of_pipe (h : f.type = .pipe) : f.held = none := if_neg (by rw [h]; decide)

theorem pipeEnd_of_ne (h : f.type ≠ .pipe) : f.pipeEnd = none := if_neg h

theorem type_of_held (h : f.held = some i) : (f.type = .inode ∨ f.type = .device) ∧ f.ip = i := by
  unfold held at h
  split_ifs at h with ht
  exact ⟨ht, Option.some.inj h⟩

end File

/-- The end of a pipe is open. -/
def PipeEnds.isOpen (pi : PipeEnds) (w : Bool) : Bool := if w then pi.writeopen else pi.readopen

namespace Afs

/-- The end `e.2` of the pipe in page `e.1` is open. -/
def endOpen (g : Afs P) (e : ℕ × Bool) : Bool :=
  match g.pipe e.1 with
  | some pi => pi.isOpen e.2
  | none => false

/-- **Pipes.** An end that is open is one file, and an end that is not open is none. A page is freed when
both ends are closed. -/
structure PipesOk (g : Afs P) : Prop where
  ends : ∀ e, npointers Finset.univ (fun f => (g.file f).pipeEnd) e = (g.endOpen e).toNat
  used : ∀ page pi, g.pipe page = some pi → pi.readopen = true ∨ pi.writeopen = true
  mode : ∀ f, (g.file f).type = .pipe → (g.file f).readable = !(g.file f).writable

/-- **The open files.** They hold what `pts` says, their reference counts are right, and no directory is
open for writing. -/
structure FilesOk [Fintype P] (g : Afs P) : Prop where
  pts : ∀ f, g.pts (.inr f) = (g.file f).held
  slots : ∀ f, npointers Finset.univ g.fds f + g.tmpf.count f = (g.file f).ref
  idle : ∀ f, (g.file f).ref = 0 → (g.file f).type = .none
  used : ∀ x f, g.fds x = some f → (g.file f).type ≠ .none
  writable : ∀ f i, (g.file f).held = some i → (g.file f).writable = true → (g.file f).type = .inode →
    (g.node i).type ≠ T_DIR

/-- Somebody has a reference to the inode. -/
def Held (g : Afs P) (i : ℕ) : Prop := i ∈ g.tmp ∨ ∃ h, g.pts h = some i

/-- The file is not one without links that nobody holds. -/
def Safe (g : Afs P) (i : ℕ) : Prop :=
  g.tidy → (g.node i).type ≠ 0 → (g.node i).nlink = 0 → g.Held i

def take (g : Afs P) (i : ℕ) : Afs P := { g with tmp := i ::ₘ g.tmp }

def setNode (g : Afs P) (v : ℕ → Node) : Afs P := { g with node := v }

def update (g : Afs P) (i : ℕ) (x : Node) : Afs P := g.setNode (Function.update g.node i x)

/-- Files without links that nobody holds disappear. -/
def Reaped (g : Afs P) (v : ℕ → Node) : Prop :=
  ∀ j, v j = g.node j ∨ v j = .free ∧ (g.node j).nlink = 0 ∧ ¬ g.Held j

variable {g : Afs P} {v : ℕ → Node} {i j : ℕ}

theorem update_self (g : Afs P) (i : ℕ) : g.update i (g.node i) = g := by
  unfold update
  rw [Function.update_eq_self]
  rfl

theorem FilesOk.setNode [Fintype P] (h : g.FilesOk)
    (hv : ∀ x i, g.pts x = some i → (v i).type = (g.node i).type) : (g.setNode v).FilesOk where
  pts := h.pts
  slots := h.slots
  idle := h.idle
  used := h.used
  writable f i hi hw ht := by
    show (v i).type ≠ T_DIR
    rw [hv (.inr f) i (by rw [h.pts f]; exact hi)]
    exact h.writable f i hi hw ht

theorem FilesOk.setTmp [Fintype P] (h : g.FilesOk) (X : Multiset ℕ) : ({ g with tmp := X } : Afs P).FilesOk :=
  ⟨h.pts, h.slots, h.idle, h.used, h.writable⟩

theorem PipesOk.setNode (h : g.PipesOk) (v : ℕ → Node) : (g.setNode v).PipesOk :=
  ⟨h.ends, h.used, h.mode⟩

theorem PipesOk.setTmp (h : g.PipesOk) (X : Multiset ℕ) : ({ g with tmp := X } : Afs P).PipesOk :=
  ⟨h.ends, h.used, h.mode⟩

theorem held_iff [Fintype P] : g.Held i ↔ 0 < npointers Finset.univ g.pts i + g.tmp.count i := by
  constructor
  · rintro (hi | ⟨x, hx⟩)
    · have := Multiset.count_pos.mpr hi
      omega
    · have := npointers.pos (Finset.mem_univ x) hx
      omega
  · intro h
    by_cases hc : 0 < g.tmp.count i
    · exact .inl (Multiset.count_pos.mp hc)
    · obtain ⟨x, -, hx⟩ := npointers.exists_of_pos (U := Finset.univ) (f := g.pts) (i := i) (by omega)
      exact .inr ⟨x, hx⟩

theorem held_take : (g.take i).Held j ↔ j = i ∨ g.Held j := by
  unfold Held take
  rw [Multiset.mem_cons, or_assoc]

theorem held_take_self (g : Afs P) (i : ℕ) : (g.take i).Held i := .inl (Multiset.mem_cons_self i _)

theorem take_comm (g : Afs P) (i j : ℕ) : (g.take i).take j = (g.take j).take i := by
  unfold take
  simp only [Multiset.cons_swap]

theorem Reaped.refl (g : Afs P) : g.Reaped g.node := fun _ => .inl rfl

theorem Reaped.trans {w : ℕ → Node} (h : g.Reaped v) (h' : (g.setNode v).Reaped w) : g.Reaped w := by
  intro j
  rcases h' j with he | ⟨hf, hn, hh⟩
  · have hw : w j = v j := he
    rw [hw]
    exact h j
  · rcases h j with he | ⟨hf', hn', hh'⟩
    · refine .inr ⟨hf, ?_, hh⟩
      have hv : (v j).nlink = 0 := hn
      rw [← he]
      exact hv
    · exact .inr ⟨hf, hn', hh'⟩

theorem Reaped.of_take (h : (g.take i).Reaped v) : g.Reaped v := by
  intro j
  rcases h j with he | ⟨h1, h2, h3⟩
  · exact .inl he
  · exact .inr ⟨h1, h2, fun hj => h3 (held_take.mpr (.inr hj))⟩

theorem Reaped.eq_of_held (h : g.Reaped v) (hj : g.Held j) : v j = g.node j :=
  (h j).resolve_right fun hr => hr.2.2 hj

theorem Reaped.eq_of_type (h : g.Reaped v) (hj : (v j).type ≠ 0) : v j = g.node j :=
  (h j).resolve_right fun hr => hj (by rw [hr.1]; rfl)

end Afs

/-- Files without links disappear. -/
def Sweep (v v' : ℕ → Node) : Prop := ∀ j, v' j = v j ∨ v' j = .free ∧ (v j).nlink = 0

namespace Sweep

variable {v v' v'' : ℕ → Node} {i j : ℕ}

theorem refl (v : ℕ → Node) : Sweep v v := fun _ => .inl rfl

theorem trans (h : Sweep v v') (h' : Sweep v' v'') : Sweep v v'' := by
  intro j
  rcases h' j with he | ⟨hf, hn⟩
  · rw [he]
    exact h j
  · rcases h j with he | ⟨-, hn'⟩
    · exact .inr ⟨hf, he ▸ hn⟩
    · exact .inr ⟨hf, hn'⟩

theorem of_reaped {g : Afs P} (h : g.Reaped v) : Sweep g.node v :=
  fun j => (h j).imp id fun hr => ⟨hr.1, hr.2.1⟩

theorem of_take {g : Afs P} (h : (g.take i).Reaped v) : Sweep g.node v := of_reaped h.of_take

theorem eq_of_type (h : Sweep v v') (hj : (v' j).type ≠ 0) : v' j = v j :=
  (h j).resolve_right fun hr => hj (by rw [hr.1]; rfl)

theorem eq_of_nlink (h : Sweep v v') (hj : (v j).nlink ≠ 0) : v' j = v j :=
  (h j).resolve_right fun hr => hj hr.2

theorem update (h : Sweep v v') (i : ℕ) (x : Node) :
    Sweep (Function.update v i x) (Function.update v' i x) := by
  intro j
  by_cases hj : j = i
  · rw [hj, Function.update_self, Function.update_self]
    exact .inl rfl
  · rw [Function.update_of_ne hj, Function.update_of_ne hj]
    exact h j

end Sweep

/-- In what a commit has written, files without links are referenced. -/
def Commit.Tidy (c : Commit) (sb : SuperBlock) : Prop :=
  ∀ i < sb.ninodes, (c.dinode i).type ≠ 0 → (c.dinode i).nlink = 0 → c.referenced i = true

/-- The reference count of an inode. -/
def FsState.ref (s : FsState P) (i : ℕ) : ℕ :=
  match s.itable i with
  | some e => e.ref
  | none => 0

/-- **The state represents the abstract file system**, and the inodes of `L` have been read. -/
structure Rep [Fintype P] (g : Afs P) (L : List ℕ) (s : FsState P) : Prop where
  sb : s.sb = g.sb
  file : s.file = g.file
  pipe : s.pipe = g.pipe
  proc : s.proc = g.proc
  owned : s.vol.Owned
  node : s.vol.node = g.node
  saved : ∀ i, s.dinode i = s.eff i
  live : ∀ i, s.Valid i → s.vol.Live i
  pos : ∀ i e, s.itable i = some e → 0 < e.ref
  refs : ∀ i, npointers Finset.univ g.pts i + g.tmp.count i = s.ref i
  held : ∀ h i, g.pts h = some i → s.Valid i
  files : g.FilesOk
  pipes : g.PipesOk
  orphans : ∀ i, g.Safe i
  commits : g.tidy → ∀ c ∈ s.commits, c.Tidy g.sb
  locked : ∀ i ∈ L, s.Valid i

namespace Rep

variable [Fintype P] {g : Afs P} {L L' : List ℕ} {s s' : FsState P} {i j : ℕ} {e : Entry}

section

variable (h : Rep g L s)

include h

theorem settled : s.Settled := ⟨h.owned, h.saved, h.live, h.pos⟩

theorem sub (hL : ∀ i ∈ L', i ∈ L) : Rep g L' s :=
  { h with locked := fun i hi => h.locked i (hL i hi) }

theorem read (hi : s.Valid i) : Rep g (i :: L) s :=
  { h with locked := fun j hj => (mem_cons.mp hj).elim (fun he => he ▸ hi) (h.locked j) }

theorem setLogged (l : List ℕ) : Rep g L (s.setLogged l) :=
  ⟨h.sb, h.file, h.pipe, h.proc, h.owned, h.node, h.saved, h.live, h.pos, h.refs, h.held,
    h.files, h.pipes, h.orphans, h.commits, h.locked⟩

theorem entry_of_held (hi : g.Held i) : ∃ e, s.itable i = some e := by
  have href : 0 < s.ref i := by
    rw [← h.refs i]
    exact Afs.held_iff.mp hi
  unfold ref at href
  cases he : s.itable i with
  | none =>
    rw [he] at href
    exact absurd href (Nat.lt_irrefl 0)
  | some e => exact ⟨e, rfl⟩

end

omit [Fintype P] in
theorem ref_eq (he : s.itable i = some e) : s.ref i = e.ref := by
  simp only [ref, he]

variable (h : Rep g L s)

include h

theorem held_of_entry (he : s.itable i = some e) : g.Held i := by
  rw [Afs.held_iff, h.refs i, ref_eq he]
  exact h.pos i e he

theorem node_eq (hi : s.Valid i) :
    (g.node i).type = (s.eff i).type ∧ (g.node i).nlink = (s.eff i).nlink ∧
      (g.node i).size = (s.eff i).size := by
  have hl := h.live i hi
  rw [← h.node]
  exact ⟨node_type hl, node_nlink hl, node_size hl⟩

theorem type_ne_zero (hi : s.Valid i) : (g.node i).type ≠ 0 := by
  rw [(h.node_eq hi).1]
  exact (h.live i hi).2

theorem free_of_type (hi : (g.node i).type = 0) : g.node i = .free := by
  rw [← h.node] at hi ⊢
  have hdead : ¬ s.vol.Live i := fun hl => Volume.live_iff_node.mp hl hi
  rw [Volume.node, if_neg hdead]

theorem type_of_held {x : Holder P} (hx : g.pts x = some i) : (g.node i).type ≠ 0 :=
  h.type_ne_zero (h.held x i hx)

theorem changed (hi : s.Valid i) {x : Node} (htype : x.type = (g.node i).type)
    (hc : Fs.Changed i x s s') : Rep (g.update i x) L s' := by
  have hx : x.type ≠ 0 := by
    rw [htype]
    exact h.type_ne_zero hi
  have hsame : ∀ j, (Function.update g.node i x j).type = (g.node j).type := fun j => by
    by_cases hj : j = i
    · rw [hj, Function.update_self, htype]
    · rw [Function.update_of_ne hj]
  have hvalid : ∀ j, s.Valid j → s'.Valid j := fun j hj => by
    by_cases hji : j = i
    · rw [hji]
      exact hc.kept.valid hi
    · obtain ⟨e, he, hv⟩ := hj
      exact ⟨e, by rw [hc.kept.itable j hji]; exact he, hv⟩
  have hs := h.settled.changed hi hx hc
  refine ⟨hc.kept.sb.trans h.sb, hc.kept.file.trans h.file, hc.kept.pipe.trans h.pipe,
    hc.kept.proc.trans h.proc, hs.owned, ?_, hs.saved, hs.live, hs.pos, ?_, ?_, ?_, ?_, ?_, ?_, ?_⟩
  · rw [hc.node, h.node]
    rfl
  · intro j
    refine (h.refs j).trans ?_
    by_cases hji : j = i
    · obtain ⟨e0, he0, -⟩ := hi
      obtain ⟨d, hd⟩ := hc.kept.entry e0 he0
      rw [hji, ref_eq he0, ref_eq hd]
    · unfold ref
      rw [hc.kept.itable j hji]
  · exact fun y j hy => hvalid j (h.held y j hy)
  · exact h.files.setNode fun _ j _ => hsame j
  · exact h.pipes.setNode _
  · intro j ht hne hnl
    by_cases hji : j = i
    · obtain ⟨e0, he0, -⟩ := hi
      rw [hji]
      exact h.held_of_entry he0
    · have heq : Function.update g.node i x j = g.node j := Function.update_of_ne hji ..
      exact h.orphans j ht (heq ▸ hne) (heq ▸ hnl)
  · rw [hc.kept.commits]
    exact h.commits
  · exact fun j hj => hvalid j (h.locked j hj)

/-- An entry of the inode table changes, but not what is known of the inode. -/
theorem setEntry {o : Option Entry} {X : Multiset ℕ}
    (hvalid : ∀ e, o = some e → e.valid = true → e.din = s.dinode i ∧ s.vol.Live i)
    (hpos : ∀ e, o = some e → 0 < e.ref) (hheld : ∀ x, g.pts x = some i → (s.setEntry i o).Valid i)
    (hsafe : ({ g with tmp := X } : Afs P).Safe i)
    (hself : npointers Finset.univ g.pts i + X.count i = (s.setEntry i o).ref i)
    (hcount : ∀ j, j ≠ i → X.count j = g.tmp.count j) (hL : ∀ j ∈ L', (s.setEntry i o).Valid j) :
    Rep { g with tmp := X } L' (s.setEntry i o) := by
  have hs := h.settled.setEntry hvalid hpos
  have hvol := vol_setEntry_of (h.saved i) fun e he hv => (hvalid e he hv).1
  have htable : ∀ j, j ≠ i → (s.setEntry i o).itable j = s.itable j := fun j hj =>
    setEntry_itable_of_ne s o hj
  refine ⟨h.sb, h.file, h.pipe, h.proc, hs.owned, ?_, hs.saved, hs.live, hs.pos, ?_, ?_, h.files.setTmp X,
    h.pipes.setTmp X, ?_, h.commits, hL⟩
  · rw [hvol]
    exact h.node
  · intro j
    by_cases hj : j = i
    · rw [hj]
      exact hself
    · show npointers Finset.univ g.pts j + X.count j = _
      rw [hcount j hj, h.refs j]
      unfold ref
      rw [htable j hj]
  · intro x j hx
    by_cases hj : j = i
    · subst hj
      exact hheld x hx
    · obtain ⟨e, he, hv⟩ := h.held x j hx
      exact ⟨e, by rw [htable j hj]; exact he, hv⟩
  · intro j ht hne hnl
    by_cases hj : j = i
    · subst hj
      exact hsafe ht hne hnl
    · have hold := Afs.held_iff.mp (h.orphans j ht hne hnl)
      rw [← hcount j hj] at hold
      exact Afs.held_iff.mpr hold

end Rep

namespace Fs

open FsState

variable [Fintype P] {g : Afs P} {L L' : List ℕ} {s s' : FsState P} {i j : ℕ} {e : Entry} {D : ℕ → Prop}

/-! ## References -/

omit [Fintype P] in
theorem valid_setEntry {e' : Entry} (he : s.itable i = some e) (hv : e.valid = true → e'.valid = true)
    (hj : s.Valid j) : (s.setEntry i (some e')).Valid j := by
  by_cases hji : j = i
  · subst hji
    obtain ⟨e0, he0, hv0⟩ := hj
    rw [he] at he0
    cases he0
    exact ⟨e', Function.update_self .., hv hv0⟩
  · obtain ⟨e0, he0, hv0⟩ := hj
    exact ⟨e0, (Function.update_of_ne hji ..).trans he0, hv0⟩

theorem rep_addRef (h : Rep g L s) (he : s.itable i = some e) :
    Rep (g.take i) L (s.setEntry i (some { e with ref := e.ref + 1 })) := by
  refine h.setEntry (fun e' he' hv => ?_) (fun e' he' => ?_) (fun x hx => ?_) (fun _ _ _ => ?_) ?_
    (fun j hj => ?_) fun j hj => ?_
  · cases he'
    have hval : s.Valid i := ⟨e, he, hv⟩
    exact ⟨by rw [h.saved i, eff_of_valid he hv], h.live i hval⟩
  · cases he'
    exact Nat.succ_pos _
  · exact valid_setEntry he (fun hv => hv) (h.held x i hx)
  · exact .inl (Multiset.mem_cons_self i _)
  · rw [Rep.ref_eq (Function.update_self ..), Multiset.count_cons_self, ← Nat.add_assoc, h.refs i,
      Rep.ref_eq he]
  · exact Multiset.count_cons_of_ne hj _
  · exact valid_setEntry he (fun hv => hv) (h.locked j hj)

/-- The entry of the inode table after `iget`. -/
def newEntry : Option Entry → Entry
  | some e => { e with ref := e.ref + 1 }
  | none => ⟨1, false, .fresh 0⟩

omit [Fintype P] in
theorem iget_wp {q : Unit → FsState P → Prop}
    (hpost : q () (s.setEntry i (some (newEntry (s.itable i))))) :
    Wp (iget i) q (Fails g.sb D) s := by
  refine Wp.get_bind ?_
  cases he : s.itable i with
  | some e =>
    rw [he] at hpost
    exact Wp.set hpost
  | none =>
    rw [he] at hpost
    exact Wp.ite (fun _ => Wp.set hpost) fun _ => Wp.throw (.inl trivial)

theorem rep_newEntry (h : Rep g L s) (i : ℕ) :
    Rep (g.take i) L (s.setEntry i (some (newEntry (s.itable i)))) := by
  cases he : s.itable i with
  | some e => exact rep_addRef h he
  | none =>
    refine h.setEntry (fun e' he' hv => ?_) (fun e' he' => ?_) (fun x hx => ?_) (fun _ _ _ => ?_) ?_
      (fun j hj => ?_) fun j hj => ?_
    · cases he'
      exact absurd hv Bool.false_ne_true
    · cases he'
      exact Nat.one_pos
    · obtain ⟨e0, he0, -⟩ := h.held x i hx
      rw [he] at he0
      contradiction
    · exact .inl (Multiset.mem_cons_self i _)
    · have hzero : s.ref i = 0 := by simp only [ref, he]
      rw [Rep.ref_eq (Function.update_self ..), Multiset.count_cons_self, ← Nat.add_assoc, h.refs i,
        hzero]
      rfl
    · exact Multiset.count_cons_of_ne hj _
    · obtain ⟨e0, he0, hv0⟩ := h.locked j hj
      have hji : j ≠ i := fun hji => by
        rw [hji, he] at he0
        contradiction
      exact ⟨e0, (Function.update_of_ne hji ..).trans he0, hv0⟩

theorem iget_spec (h : Rep g L s) : Wp (iget i) (fun _ => Rep (g.take i) L) (Fails g.sb D) s :=
  iget_wp (rep_newEntry h i)

theorem idup_spec (h : Rep g L s) (hi : g.Held i) :
    Wp (idup i) (fun _ => Rep (g.take i) L) (Fails g.sb D) s := by
  obtain ⟨e, he⟩ := h.entry_of_held hi
  exact Wp.run_bind (entry_run he) (Wp.modify (rep_addRef h he))

theorem ilock_spec (h : Rep g L s) (hi : g.Held i) (hD : (g.node i).type = 0 → D i) :
    Wp (ilock i) (fun _ s' => (g.node i).type ≠ 0 ∧ Rep g (i :: L) s') (Fails g.sb D) s := by
  obtain ⟨e, he⟩ := h.entry_of_held hi
  refine Wp.run_bind (entry_run he) (Wp.ite (fun hv => Wp.pure ?_) fun hv => Wp.get_bind ?_)
  · have hval : s.Valid i := ⟨e, he, hv⟩
    exact ⟨h.type_ne_zero hval, h.read hval⟩
  · have hfree : ¬ s.vol.Live i → (g.node i).type = 0 := fun hl => by
      rw [← h.node, node, if_neg hl]
      rfl
    refine Wp.ite (fun hlt => ?_) fun hge =>
      Wp.throw (.inr ⟨i, hD (hfree fun hl => hge hl.1), .inr ⟨rfl, ?_⟩⟩)
    · have heff := h.saved i
      refine Wp.ite (fun hz => Wp.throw (.inr ⟨i, hD (hfree fun hl => ?_), .inl rfl⟩)) fun hne => ?_
      · rw [heff] at hz
        exact hl.2 hz
      · have hl : s.vol.Live i := by
          refine ⟨hlt, ?_⟩
          show (s.eff i).type ≠ 0
          rw [← heff]
          exact hne
        refine Wp.set ⟨?_, ?_⟩
        · rw [← h.node]
          exact live_iff_node.mp hl
        · refine h.setEntry (fun e' he' _ => ?_) (fun e' he' => ?_) (fun _ _ => ?_) (h.orphans i) ?_
            (fun _ _ => rfl) fun j hj => ?_
          · cases he'
            exact ⟨rfl, hl⟩
          · cases he'
            exact h.pos i e he
          · exact ⟨_, Function.update_self .., rfl⟩
          · rw [Rep.ref_eq (Function.update_self ..), h.refs i, Rep.ref_eq he]
          · rcases mem_cons.mp hj with rfl | hj
            · exact ⟨_, Function.update_self .., rfl⟩
            · exact valid_setEntry he (fun _ => rfl) (h.locked j hj)
    · rw [← h.sb]
      exact Nat.le_of_not_lt hge

theorem rep_dropRef (h : Rep (g.take i) L s) (he : s.itable i = some e) (hsafe : g.Safe i)
    (hL : ∀ j ∈ L', j ∈ L ∧ g.Held j) :
    Rep g L' (s.setEntry i (if e.ref = 1 then none else some { e with ref := e.ref - 1 })) := by
  have href := h.refs i
  rw [Rep.ref_eq he] at href
  simp only [Afs.take, Multiset.count_cons_self] at href
  -- the entry stays, if somebody else holds the inode
  have hstay : ∀ j, g.Held j → s.Valid j → (s.setEntry i
      (if e.ref = 1 then none else some { e with ref := e.ref - 1 })).Valid j := fun j hjh hjv => by
    by_cases hji : j = i
    · subst hji
      have := Afs.held_iff.mp hjh
      rw [if_neg (by omega)]
      exact valid_setEntry he (fun hv => hv) hjv
    · obtain ⟨e0, he0, hv0⟩ := hjv
      exact ⟨e0, (Function.update_of_ne hji ..).trans he0, hv0⟩
  refine Rep.setEntry (g := g.take i) h (X := g.tmp) (fun e' he' hv => ?_) (fun e' he' => ?_)
    (fun x hx => hstay i (.inr ⟨x, hx⟩) (h.held x i hx)) hsafe ?_
    (fun j hj => (Multiset.count_cons_of_ne hj _).symm) fun j hj => ?_
  · split_ifs at he' with h1
    cases he'
    have hval : s.Valid i := ⟨e, he, hv⟩
    exact ⟨by rw [h.saved i, eff_of_valid he hv], h.live i hval⟩
  · split_ifs at he' with h1
    cases he'
    have := h.pos i e he
    show 0 < e.ref - 1
    omega
  · show npointers Finset.univ g.pts i + g.tmp.count i = _
    unfold ref
    rw [show (s.setEntry i _).itable i = _ from Function.update_self ..]
    split_ifs with h1
    · show _ = 0
      omega
    · show _ = e.ref - 1
      omega
  · exact hstay j (hL j hj).2 (h.locked j (hL j hj).1)

/-- The last reference to an inode is dropped after it has been freed. -/
theorem rep_freed (L' : List ℕ) (h : Rep (g.take i) L s) (he : s.itable i = some e) (href : e.ref = 1)
    (hzero : ∀ n, (s.eff i).addr n = 0) (hu : Updated i { s.eff i with type := 0 } s s')
    (hL : ∀ j ∈ L', j ∈ L ∧ g.Held j) : Rep (g.update i .free) L' (s'.setEntry i none) := by
  have hrefs := h.refs i
  rw [Rep.ref_eq he, href] at hrefs
  simp only [Afs.take, Multiset.count_cons_self] at hrefs
  have hnot : ¬ g.Held i := fun hh => by
    have := Afs.held_iff.mp hh
    omega
  have hpts : ∀ x j, g.pts x = some j → j ≠ i := fun x j hx hj => hnot (.inr ⟨x, hj ▸ hx⟩)
  have htable : ∀ j, j ≠ i → (s'.setEntry i none).itable j = s.itable j := fun j hj =>
    (Function.update_of_ne hj ..).trans (hu.kept.itable j hj)
  have hself : (s'.setEntry i none).itable i = none := Function.update_self ..
  obtain ⟨hs, -, hnode⟩ := h.settled.freed hzero hu
  rw [h.node] at hnode
  have hstay : ∀ j, g.Held j → s.Valid j → (s'.setEntry i none).Valid j := by
    rintro j hjh ⟨e0, he0, hv0⟩
    have hji : j ≠ i := fun hji => hnot (hji ▸ hjh)
    exact ⟨e0, by rw [htable j hji]; exact he0, hv0⟩
  refine ⟨hu.kept.sb.trans h.sb, hu.kept.file.trans h.file, hu.kept.pipe.trans h.pipe,
    hu.kept.proc.trans h.proc, hs.owned, hnode, hs.saved, hs.live, hs.pos, ?_, ?_, ?_, ?_, ?_, ?_, ?_⟩
  · intro j
    show npointers Finset.univ g.pts j + g.tmp.count j = _
    by_cases hj : j = i
    · unfold ref
      rw [hj, hself]
      show _ = 0
      omega
    · have hj' := h.refs j
      simp only [Afs.take, Multiset.count_cons_of_ne hj] at hj'
      rw [hj']
      unfold ref
      rw [htable j hj]
  · exact fun x j hx => hstay j (.inr ⟨x, hx⟩) (h.held x j hx)
  · have hfiles : g.FilesOk := h.files.setTmp g.tmp
    exact hfiles.setNode fun x j hx => by rw [Function.update_of_ne (hpts x j hx)]
  · exact (h.pipes.setTmp g.tmp).setNode _
  · intro j ht hne hnl
    by_cases hji : j = i
    · subst hji
      rw [show (g.update j .free).node j = .free from Function.update_self ..] at hne
      exact absurd rfl hne
    · have heq : Function.update g.node i .free j = g.node j := Function.update_of_ne hji ..
      exact (Afs.held_take.mp (h.orphans j ht (heq ▸ hne) (heq ▸ hnl))).resolve_left hji
  · have hcommits : (s'.setEntry i none).commits = s.commits := hu.kept.commits
    rw [hcommits]
    exact h.commits
  · exact fun j hj => hstay j (hL j hj).2 (h.locked j (hL j hj).1)

/-- **`iput` drops a reference**, and frees the inode if it was the last one and there are no links.
It needs to know the link count, or that there are links or other references. -/
theorem iput_spec (L' : List ℕ) (h : Rep (g.take i) L s) (hi : i ∈ L ∨ g.Safe i)
    (hL : ∀ j ∈ L', j ∈ L ∧ g.Held j) :
    Wp (iput i) (fun _ s' => ∃ v, g.Reaped v ∧ Rep (g.setNode v) L' s' ∧
      (i ∈ L → (g.node i).nlink = 0 → ¬ g.Held i → v = Function.update g.node i .free))
      (Fails g.sb D) s := by
  obtain ⟨e, he⟩ := h.entry_of_held (i := i) (.inl (Multiset.mem_cons_self i _))
  have hrefs := h.refs i
  rw [Rep.ref_eq he] at hrefs
  simp only [Afs.take, Multiset.count_cons_self] at hrefs
  refine Wp.run_bind (entry_run he) ?_
  by_cases hfree : e.ref = 1 ∧ e.valid = true ∧ e.din.nlink = 0
  · obtain ⟨href, hv, hnlink⟩ := hfree
    have hval : s.Valid i := ⟨e, he, hv⟩
    have hl := h.live i hval
    have heff := eff_of_valid he hv
    rw [if_pos ⟨href, hv, hnlink⟩]
    refine (itrunc_spec h.owned hval hl).bind fun _ s1 h1 => ?_
    obtain ⟨hc, htrunc, -⟩ := h1
    have hrep := h.changed hval (x := ⟨(s.eff i).type, (s.eff i).nlink, 0, fun _ => 0⟩)
      (h.node_eq hval).1.symm hc
    have hval1 := hc.kept.valid hval
    refine (updateInode_spec hval1 (hrep.live i hval1).1 _).bind fun _ s2 h2 => Wp.modify ?_
    rw [if_pos href]
    obtain ⟨d, hd⟩ := hc.kept.entry e he
    have hzero : ∀ n, (s1.eff i).addr n = 0 := fun n => by
      rw [htrunc]
      unfold Dinode.addr Dinode.truncated
      split_ifs <;> rfl
    have hfinal := rep_freed (g := g.update i _) L' hrep hd href hzero h2 fun j hj => hL j hj
    have hnode : (g.node i).nlink = 0 := by
      have := (h.node_eq hval).2.1
      rw [heff, hnlink] at this
      exact this
    have hnot : ¬ g.Held i := fun hh => by
      have := Afs.held_iff.mp hh
      omega
    refine ⟨Function.update g.node i .free, fun j => ?_, ?_, fun _ _ _ => rfl⟩
    · by_cases hj : j = i
      · subst hj
        exact .inr ⟨Function.update_self .., hnode, hnot⟩
      · exact .inl (Function.update_of_ne hj ..)
    · have hsame : (g.update i ⟨(s.eff i).type, (s.eff i).nlink, 0, fun _ => 0⟩).update i .free =
          g.setNode (Function.update g.node i .free) := by
        unfold Afs.update Afs.setNode
        simp only [Function.update_idem]
      rw [← hsame]
      exact hfinal
  · rw [if_neg hfree]
    -- if it was the last reference and there are no links, the inode has been freed
    have hkeep : i ∈ L → (g.node i).nlink = 0 → g.Held i := fun hiL hn => by
      by_contra hnot
      obtain ⟨e0, he0, hv0⟩ := h.locked i hiL
      rw [he] at he0
      cases he0
      have hnl := (h.node_eq ⟨e, he, hv0⟩).2.1
      rw [eff_of_valid he hv0] at hnl
      have := mt Afs.held_iff.mpr hnot
      exact hfree ⟨by omega, hv0, hnl.symm.trans hn⟩
    have hsafe : g.Safe i := by
      rcases hi with hi | hi
      · exact fun _ _ hn => hkeep hi hn
      · exact hi
    exact Wp.modify ⟨g.node, .refl g, rep_dropRef h he hsafe hL,
      fun hiL hn hnot => absurd (hkeep hiL hn) hnot⟩

theorem beginOp_spec (h : Rep g L s) : Wp beginOp (fun _ => Rep g L) (Fails g.sb D) s :=
  Wp.modify (h.setLogged [])

theorem endOp_spec (h : Rep g L s) : Wp endOp (fun _ => Rep g L) (Fails g.sb D) s := by
  refine Wp.modify { h with commits := fun ht c hc => ?_ }
  rcases mem_cons.mp hc with rfl | hc
  · intro i hi hne hnl
    have hdisk : s.snapshot.dinode i = s.vol.inode i := h.saved i
    rw [hdisk] at hne hnl
    rw [← h.sb] at hi
    have hl : s.vol.Live i := ⟨hi, hne⟩
    have hheld := h.orphans i ht (by rw [← h.node]; exact live_iff_node.mp hl)
      (by rw [← h.node, node_nlink hl]; exact hnl)
    obtain ⟨e, he⟩ := h.entry_of_held hheld
    show (s.itable i).isSome = true
    rw [he]
    rfl
  · exact h.commits ht c hc

/-! ## Allocating an inode -/

/-- An inode that is free on the disk is allocated, by a call that has a reference to it. -/
theorem rep_alloc {t : ℤ} (h : Rep g L s) (hi : i < s.sb.ninodes) (hz : (s.dinode i).type = 0)
    (ht : t ≠ 0) (hheld : g.Held i) (l : List ℕ) :
    Rep (g.update i ⟨t, 0, 0, fun _ => 0⟩) L ((s.setDinode i (.fresh t)).setLogged l) := by
  have hinvalid : ¬ s.Valid i := fun hv => h.settled.not_live_of_type hz (h.live i hv)
  obtain ⟨hs, -, hnode⟩ := h.settled.alloc hi hz ht l
  rw [h.node] at hnode
  have hne : ∀ j, s.Valid j → j ≠ i := fun j hv hj => hinvalid (hj ▸ hv)
  refine ⟨h.sb, h.file, h.pipe, h.proc, hs.owned, hnode, hs.saved, hs.live, hs.pos, h.refs, h.held, ?_,
    h.pipes.setNode _, ?_, h.commits, h.locked⟩
  · exact h.files.setNode fun x j hx => by rw [Function.update_of_ne (hne j (h.held x j hx))]
  · intro j ht' hne' hnl
    by_cases hji : j = i
    · rw [hji]
      exact hheld
    · have heq : Function.update g.node i ⟨t, 0, 0, fun _ => 0⟩ j = g.node j :=
        Function.update_of_ne hji ..
      exact h.orphans j ht' (heq ▸ hne') (heq ▸ hnl)

theorem ialloc_spec {t : ℤ} (h : Rep g L s) (ht : t ≠ 0) : Wp (ialloc t) (fun r s' => match r with
      | none => Rep g L s'
      | some i => 1 ≤ i ∧ i < g.sb.ninodes ∧ (g.node i).type = 0 ∧
          Rep ((g.update i ⟨t, 0, 0, fun _ => 0⟩).take i) L s') (Fails g.sb D) s := by
  refine Wp.get_bind ?_
  cases hf : (range s.sb.ninodes).find? fun i => decide (1 ≤ i ∧ (s.dinode i).type = 0) with
  | none => exact Wp.pure h
  | some i =>
    have hlt := mem_range.mp (mem_of_find?_eq_some hf)
    have hfree : 1 ≤ i ∧ (s.dinode i).type = 0 := by simpa using find?_some hf
    have hdead := h.settled.not_live_of_type hfree.2
    -- it makes no difference whether the reference is taken before the inode is written
    have hrep := rep_alloc (rep_newEntry h i) hlt hfree.2 ht (.inl (Multiset.mem_cons_self i _))
      (s.sb.IBLOCK i :: s.logged)
    refine Wp.set_bind (Wp.modify_bind (Wp.bind (iget_wp (q := fun _ =>
      Rep ((g.update i ⟨t, 0, 0, fun _ => 0⟩).take i) L) hrep) fun _ s' h' =>
        Wp.pure ⟨hfree.1, ?_, ?_, h'⟩))
    · rw [← h.sb]
      exact hlt
    · rw [← h.node, node, if_neg hdead]
      rfl

/-! ## Contents -/

variable (h : Rep g L s) (hi : i ∈ L)

include h hi

theorem inode_spec :
    Wp (inode i) (fun d s' => s' = s ∧ d.type = (g.node i).type ∧ d.nlink = (g.node i).nlink ∧
      d.size = (g.node i).size) (Fails g.sb D) s := by
  have hv := h.locked i hi
  obtain ⟨h1, h2, h3⟩ := h.node_eq hv
  exact Wp.of_run (inode_run hv) ⟨rfl, h1.symm, h2.symm, h3.symm⟩

theorem nlink_spec {f : Dinode → Dinode} {φ : ℤ → ℤ}
    (hf : ∀ d, (f d).type = d.type ∧ (f d).size = d.size ∧ (f d).addrs = d.addrs ∧
      (f d).nlink = φ d.nlink) : Wp (updateInode i f)
      (fun _ => Rep (g.update i { g.node i with nlink := φ (g.node i).nlink }) L) (Fails g.sb D) s := by
  have hv := h.locked i hi
  obtain ⟨h1, h2, h3, h4⟩ := hf (s.eff i)
  refine (updateInode_fields h.owned hv (h.live i hv) h3 h2 h1).mono fun _ s' hc => ?_
  rw [h4, ← (h.node_eq hv).2.1, h.node] at hc
  exact h.changed hv rfl hc

theorem itrunc_rep :
    Wp (itrunc i) (fun _ => Rep (g.update i ⟨(g.node i).type, (g.node i).nlink, 0, fun _ => 0⟩) L)
      (Fails g.sb D) s := by
  have hv := h.locked i hi
  refine (itrunc_spec h.owned hv (h.live i hv)).mono fun _ s' hc => ?_
  rw [(h.node_eq hv).1, (h.node_eq hv).2.1]
  exact h.changed hv (h.node_eq hv).1.symm hc.1

/-- **`readi` reads the bytes of the file** and changes nothing. -/
theorem readi_rep (dst : ℕ → Bool) {off n : ℕ} (hn : n < 2 ^ 32) :
    (readi i dst off n).run s = .ok ((g.node i).readTo dst off n, s) := by
  have hv := h.locked i hi
  rw [← h.node]
  exact readi_owned dst h.owned hv (h.live i hv) off hn

theorem writei_user (src : ℕ → Option UInt8) {off n : ℕ} (hn : n < 2 ^ 32) :
    Wp (writei i src off n) (fun _ s' => ∃ y : Node, y.type = (g.node i).type ∧
      y.nlink = (g.node i).nlink ∧ Rep (g.update i y) L s') (Fails g.sb D) s := by
  have hv := h.locked i hi
  refine (writei_spec h.owned hv (h.live i hv) src hn).mono fun r s' hr => ?_
  rcases hr with ⟨-, rfl⟩ | ⟨tot, -, -, -, -, y, hy, hc⟩
  · exact ⟨g.node i, rfl, rfl, by rw [Afs.update_self]; exact h⟩
  · rw [h.node] at hy
    exact ⟨y, hy.type, hy.nlink, h.changed hv hy.type hc⟩

theorem writei_kernel (l : List UInt8) (off : ℕ) (hl : 0 < l.length)
    (hb : off % BSIZE + l.length ≤ BSIZE) :
    Wp (writei i (fun k => some (l.getD k 0)) off l.length) (fun r s' =>
      (r = l.length ∧ off ≤ (g.node i).size ∧ Rep (g.update i ((g.node i).store off l)) L s') ∨
      (r ≠ l.length ∧ Rep g L s')) (Fails g.sb D) s := by
  have hv := h.locked i hi
  have hlen : l.length < 2 ^ 32 := lt_of_le_of_lt (le_trans (Nat.le_add_left _ _) hb) (by decide)
  refine (writei_spec h.owned hv (h.live i hv) _ hlen).mono fun r s' hr => ?_
  rcases hr with ⟨rfl, rfl⟩ | ⟨tot, rfl, hle, hoff, hend, y, hy, hc⟩
  · exact .inr ⟨by omega, h⟩
  have hsrc : ∀ k, (fun k => some (l.getD k 0)) k ≠ none := fun k => Option.some_ne_none _
  rw [h.node] at hy
  rw [← (h.node_eq hv).2.2] at hoff
  by_cases htot : tot = l.length
  · subst htot
    obtain rfl := hy.eq_store
    exact .inl ⟨rfl, hoff, h.changed hv rfl hc⟩
  · have hzero : tot = 0 := by
      rcases hend hsrc (by omega) with h0 | h0
      · exact h0
      · simp only [BSIZE] at *
        omega
    subst hzero
    obtain rfl := hy.eq_self hsrc hoff
    refine .inr ⟨by omega, ?_⟩
    have hrep := h.changed hv rfl hc
    rwa [Afs.update_self] at hrep

end Fs

end Xv6
