import Xv6.Fs.Itable
import Xv6.Lib.Owners

/-!
# The inode table protocol

The reference count of an entry is the number of references that processes hold, and one for each
process in the freeing part of `iput` (`Counts`). Sleep locks are exclusive (`Locks`). An inode has
one entry at most (`Unique`). A valid entry that is not about to be invalidated has a type, so has
the inode on the disk, and the two agree unless a holder of the lock has changes it has not passed
to `iupdate` (`Sound`).

**Why `ialloc` does no harm.** It writes an on-disk inode only if its type is 0, and then no entry
for it is valid, but for one that a process in `iput` is about to invalidate. A process that waits
for the lock of that entry finds it invalid and reads the inode from the disk.

**Main result.** `itable_protocol`.
-/

open Function List Nat Transition

namespace Xv6

open Owners

namespace ItableState

variable {P : Type*} {s s' : ItableState P} {ninodes : ℕ} {i j : EntryId} {x : Inode P} {t t' : ITask P}
  {st : ITaskStage} {e : ItableEvent P}

/-! ## What a step does -/

theorem setInode_inode (s : ItableState P) (i j : EntryId) (x : Inode P) :
    (s.setInode i x).inode j = if j = i then x else s.inode j := update_apply s.inode i x j

theorem setInode_ref_add (s : ItableState P) (i j : EntryId) :
    ((s.setInode i { s.inode i with ref := (s.inode i).ref + 1 }).inode j).ref =
      (s.inode j).ref + if j = i then 1 else 0 := by
  rw [setInode_inode]
  split_ifs with e
  · rw [e]
  · rfl

/-- An entry with a lower reference count is in use only if it was. -/
theorem setInode_ref_pos (hx : x.ref ≤ (s.inode i).ref) (j : EntryId)
    (hj : 0 < ((s.setInode i x).inode j).ref) : 0 < (s.inode j).ref := by
  rw [setInode_inode] at hj
  split_ifs at hj with e
  · subst e
    omega
  · exact hj

theorem idup_ref_pos (hi : 0 < (s.inode i).ref) (j : EntryId) (hj : 0 < ((s.idup i).inode j).ref) :
    0 < (s.inode j).ref := by
  by_cases e : j = i
  · exact e ▸ hi
  · rwa [show (s.idup i).inode j = s.inode j from update_of_ne e _ _] at hj

theorem held_add (s : ItableState P) (i j : EntryId) :
    update s.held i (s.held i + 1) j = s.held j + if j = i then 1 else 0 := by
  rw [update_apply]
  split_ifs with e
  · rw [e]
  · rfl

/-! ## `iget`'s scan -/

theorem cached_some {dev inum : ℕ} (h : s.cached dev inum = some i) :
    0 < (s.inode i).ref ∧ (s.inode i).dev = dev ∧ (s.inode i).inum = inum := by
  simpa using find?_some h

theorem cached_none {dev inum : ℕ} (h : s.cached dev inum = none) (i : EntryId)
    (hi : 0 < (s.inode i).ref) : ¬ ((s.inode i).dev = dev ∧ (s.inode i).inum = inum) := by
  have := find?_eq_none.mp h i (mem_finRange i)
  simpa [hi] using this

theorem empty_some (h : s.empty = some i) : (s.inode i).ref = 0 := by
  simpa using find?_some h

section

variable [DecidableEq P]

/-- The steps, one constructor for each path through the code. -/
inductive Move (s : ItableState P) : ItableEvent P → ItableState P → Prop
  | hit {e : ItableEvent P} {dev inum : ℕ} {i : EntryId} {l : List (IAlloc P)}
      (hc : s.cached dev inum = some i) : Move s e { s.idup i with allocs := l }
  | recycle {e : ItableEvent P} {dev inum : ℕ} {i : EntryId} {l : List (IAlloc P)}
      (hc : s.cached dev inum = none) (hi : s.empty = some i) :
      Move s e { s.setInode i { s.inode i with
          dev := dev, inum := inum, ref := 1, valid := false, unsaved := false } with
        held := update s.held i 1, allocs := l }
  | idup {i : EntryId} (hi : 0 < s.held i) : Move s (.idup i) (s.idup i)
  | ilock {p : P} {i : EntryId} (hi : 0 < s.held i) :
      Move s (.ilock p i) { s with tasks := ⟨p, i, .waiting⟩ :: s.tasks }
  | acquiresleep {t : ITask P} (ht : t ∈ s.tasks) (hst : t.stage = .waiting)
      (hl : (s.inode t.entry).lock = none) : Move s (.acquiresleep t) (s.acquiresleep t)
  | loadValid {t : ITask P} (ht : t ∈ s.tasks) (hst : t.stage = .loading)
      (hv : (s.inode t.entry).valid = true) :
      Move s (.load t) (s.setTask t { t with stage := .locked })
  | loadDisk {t : ITask P} (ht : t ∈ s.tasks) (hst : t.stage = .loading)
      (hty : (s.dinode t.entry).type ≠ 0) :
      Move s (.load t) ((s.setInode t.entry { s.inode t.entry with
        copy := s.dinode t.entry, valid := true, unsaved := false }).setTask t
          { t with stage := .locked })
  | modify {t : ITask P} {d : Dinode} (ht : t ∈ s.tasks) (hst : t.stage = .locked)
      (hd : d.type ≠ 0) : Move s (.modify t d) (s.modify t d)
  | iupdate {t : ITask P} (ht : t ∈ s.tasks) (hst : t.stage = .locked) :
      Move s (.iupdate t) (s.iupdate t)
  | iunlock {t : ITask P} (ht : t ∈ s.tasks) (hst : t.stage = .locked) :
      Move s (.iunlock t) (s.iunlock t)
  | putLast {p : P} {i : EntryId} (hi : s.MayPut i) (hlast : s.LastPut i)
      (hl : (s.inode i).lock = none) :
      Move s (.iput p i) { s.setInode i { s.inode i with lock := some p } with
        held := update s.held i (s.held i - 1)
        tasks := ⟨p, i, .trunc⟩ :: s.tasks }
  | put {p : P} {i : EntryId} (hi : s.MayPut i) :
      Move s (.iput p i) { s.setInode i { s.inode i with ref := (s.inode i).ref - 1 } with
        held := update s.held i (s.held i - 1) }
  | itrunc {t : ITask P} (ht : t ∈ s.tasks) (hst : t.stage = .trunc) :
      Move s (.itrunc t) (s.itrunc t)
  | clearType {t : ITask P} (ht : t ∈ s.tasks) (hst : t.stage = .clear) :
      Move s (.clearType t) (s.clearType t)
  | invalidate {t : ITask P} (ht : t ∈ s.tasks) (hst : t.stage = .invalidate) :
      Move s (.invalidate t) (s.invalidate t)
  | dropRef {t : ITask P} (ht : t ∈ s.tasks) (hst : t.stage = .drop) :
      Move s (.dropRef t) (s.dropRef t)
  | allocFound {a : IAlloc P} {l : List (IAlloc P)} (hty : (s.disk a.dev a.inum).type = 0) :
      Move s (.iallocOne a) { s.writeDisk a.dev a.inum (.fresh a.type) with allocs := l }
  | allocScan {e : ItableEvent P} {l : List (IAlloc P)} : Move s e { s with allocs := l }

theorem iget_move {dev inum : ℕ} {l : List (IAlloc P)}
    (hs : iget { s with allocs := l } dev inum = some s') : Move s e s' := by
  unfold iget at hs
  split at hs
  case h_1 i hi =>
    cases hs
    exact .hit (l := l) hi
  case h_2 hnone =>
    split at hs
    case h_1 i hi =>
      cases hs
      exact .recycle (l := l) hnone hi
    case h_2 => cases hs

theorem step_move (hs : step ninodes e s = some s') : Move s e s' := by
  cases e with
  | iget dev inum =>
    have hs : iget { s with allocs := s.allocs } dev inum = some s' := hs
    exact iget_move hs
  | idup i =>
    obtain ⟨hi, rfl⟩ := of_guard hs
    exact .idup hi
  | ilock p i =>
    obtain ⟨⟨hi, -⟩, rfl⟩ := of_guard hs
    exact .ilock hi
  | acquiresleep t =>
    obtain ⟨⟨ht, hst, hl⟩, rfl⟩ := of_guard hs
    exact .acquiresleep ht hst hl
  | load t =>
    obtain ⟨⟨ht, hst⟩, hs⟩ := Option.ite_none_right_eq_some.mp hs
    unfold load at hs
    dsimp only at hs
    split_ifs at hs with hv hty
    · cases hs
      exact .loadValid ht hst hv
    · cases hs
      exact .loadDisk ht hst hty
  | modify t d =>
    obtain ⟨⟨ht, hst, hd⟩, rfl⟩ := of_guard hs
    exact .modify ht hst hd
  | iupdate t =>
    obtain ⟨⟨ht, hst⟩, rfl⟩ := of_guard hs
    exact .iupdate ht hst
  | iunlock t =>
    obtain ⟨⟨ht, hst, -⟩, rfl⟩ := of_guard hs
    exact .iunlock ht hst
  | iput p i =>
    obtain ⟨hi, hs⟩ := Option.ite_none_right_eq_some.mp hs
    unfold iput at hs
    dsimp only at hs
    split_ifs at hs with hlast hl
    · cases hs
      exact .putLast hi hlast hl
    · cases hs
      exact .put hi
  | itrunc t =>
    obtain ⟨⟨ht, hst⟩, rfl⟩ := of_guard hs
    exact .itrunc ht hst
  | clearType t =>
    obtain ⟨⟨ht, hst⟩, rfl⟩ := of_guard hs
    exact .clearType ht hst
  | invalidate t =>
    obtain ⟨⟨ht, hst⟩, rfl⟩ := of_guard hs
    exact .invalidate ht hst
  | dropRef t =>
    obtain ⟨⟨ht, hst⟩, rfl⟩ := of_guard hs
    exact .dropRef ht hst
  | ialloc p dev type =>
    cases hs
    exact .allocScan
  | iallocOne a =>
    obtain ⟨-, rfl⟩ := of_guard hs
    unfold iallocOne
    split_ifs with hlt hty
    · exact .allocFound hty
    · exact .allocScan
    · exact .allocScan
  | iallocGet a =>
    obtain ⟨-, hs⟩ := Option.ite_none_right_eq_some.mp hs
    exact iget_move hs

end

/-! ## Reference counts -/

/-- The task is in the freeing part of `iput` for entry `i`. -/
def freeingOn (i : EntryId) (t : ITask P) : Bool := decide (t.entry = i) && t.stage.freeing

/-- The number of processes in the freeing part of `iput` for entry `i`. -/
def frees (s : ItableState P) (i : EntryId) : ℕ := s.tasks.countP (freeingOn i)

structure Counts (s : ItableState P) : Prop where
  ref : ∀ i, (s.inode i).ref = s.held i + s.frees i
  held : ∀ t ∈ s.tasks, t.stage.freeing = false → 0 < s.held t.entry

theorem iinit_counts (disk : ℕ → ℕ → Dinode) (z : Dinode) : Counts (iinit (P := P) disk z) where
  ref _ := rfl
  held _ ht := absurd ht not_mem_nil

section

variable (h : s.Counts)

include h

theorem Counts.ref_pos (ht : t ∈ s.tasks) : 0 < (s.inode t.entry).ref := by
  rw [h.ref]
  cases hf : t.stage.freeing with
  | false =>
    have := h.held t ht hf
    omega
  | true =>
    have : 0 < s.frees t.entry := countP_pos_iff.mpr ⟨t, ht, by simp [freeingOn, hf]⟩
    omega

theorem Counts.rebalance
    (hr : ∀ i, (s'.inode i).ref + (s.held i + s.frees i) = (s.inode i).ref + (s'.held i + s'.frees i))
    (ht : ∀ t ∈ s'.tasks, t.stage.freeing = false → 0 < s'.held t.entry) : s'.Counts := by
  refine ⟨fun i => ?_, ht⟩
  have := h.ref i
  have := hr i
  omega

/-- Neither the contents of the entries nor their locks matter. -/
theorem Counts.congr (hr : ∀ i, (s'.inode i).ref = (s.inode i).ref) (hh : s'.held = s.held)
    (hf : ∀ i, s'.frees i = s.frees i)
    (ht : ∀ t ∈ s'.tasks, t.stage.freeing = false → 0 < s.held t.entry) : s'.Counts := by
  refine h.rebalance (fun i => ?_) (hh ▸ ht)
  rw [hr, hh, hf]

theorem Counts.addRef (hr : ∀ j, (s'.inode j).ref = (s.inode j).ref + if j = i then 1 else 0)
    (hh : ∀ j, s'.held j = s.held j + if j = i then 1 else 0) (ht : s'.tasks = s.tasks) :
    s'.Counts := by
  refine h.rebalance (fun j => ?_) ?_
  · rw [hr, hh, frees, frees, ht]
    omega
  · rw [ht]
    intro t ht hf
    have := h.held t ht hf
    rw [hh]
    omega

/-- A reference passed to `iput`: no task needs it. -/
theorem Counts.held_put (hi : s.MayPut i) (ht : t ∈ s.tasks) (hf : t.stage.freeing = false) :
    0 < update s.held i (s.held i - 1) t.entry := by
  have hheld := h.held t ht hf
  by_cases e : t.entry = i
  · subst e
    rw [update_self]
    rcases hi.2 with hmore | hnone
    · omega
    · rw [hnone t ht rfl] at hf
      cases hf
  · rwa [update_of_ne e]

end

section

variable [DecidableEq P]

theorem frees_setTask (ht : t ∈ s.tasks) (i : EntryId) :
    (s.setTask t t').frees i + (if freeingOn i t then 1 else 0) =
      s.frees i + if freeingOn i t' then 1 else 0 := by
  show (t' :: s.tasks.erase t).countP _ + _ = s.tasks.countP _ + _
  rw [(perm_cons_erase ht).countP_eq (freeingOn i), countP_cons, countP_cons]
  omega

theorem frees_erase (ht : t ∈ s.tasks) (i : EntryId) :
    (s.tasks.erase t).countP (freeingOn i) + (if freeingOn i t then 1 else 0) = s.frees i := by
  rw [frees, (perm_cons_erase ht).countP_eq (freeingOn i), countP_cons]

theorem mem_setTask {x : ITask P} (hx : x ∈ (s.setTask t t').tasks) : x = t' ∨ x ∈ s.tasks := by
  rcases mem_cons.mp hx with rfl | hx
  · exact .inl rfl
  · exact .inr (mem_of_mem_erase hx)

/-- A task that moves on without entering or leaving the freeing part of `iput`. -/
theorem Counts.restage (h : s.Counts) (ht : t ∈ s.tasks) (hst : st.freeing = t.stage.freeing)
    (hr : ∀ i, (s'.inode i).ref = (s.inode i).ref) (hh : s'.held = s.held)
    (hs : s'.tasks = (s.setTask t { t with stage := st }).tasks) : s'.Counts := by
  refine h.congr hr hh (fun i => ?_) ?_
  · have hsame : freeingOn i { t with stage := st } = freeingOn i t := by simp [freeingOn, hst]
    have hcount : (s.setTask t { t with stage := st }).frees i + _ = _ := frees_setTask ht i
    rw [hsame] at hcount
    rw [frees, hs]
    exact add_right_cancel hcount
  · rw [hs]
    intro x hx hf
    rcases mem_setTask hx with rfl | hx
    · exact h.held t ht (hst.symm.trans hf)
    · exact h.held x hx hf

theorem Counts.move (h : s.Counts) (hm : Move s e s') : s'.Counts := by
  cases hm with
  | hit hc | idup hi => exact h.addRef (setInode_ref_add s _) (held_add s _) rfl
  | recycle hc hi =>
    rename_i dev inum i l
    have hfree := empty_some hi
    have hzero := h.ref i
    refine h.rebalance (fun j => ?_) ?_
    · show ((s.setInode i _).inode j).ref + _ = _ + (update s.held i 1 j + s.frees j)
      rw [setInode_inode, update_apply]
      split_ifs with e
      · subst e
        dsimp only
        omega
      · rfl
    · intro t ht hf
      show 0 < update s.held i 1 t.entry
      rw [update_apply]
      split_ifs
      · exact one_pos
      · exact h.held t ht hf
  | ilock hi =>
    refine h.congr (fun _ => rfl) rfl (fun j => ?_) ?_
    · simp [frees, freeingOn, ITaskStage.freeing]
    · intro t ht hf
      rcases mem_cons.mp ht with rfl | ht
      · exact hi
      · exact h.held t ht hf
  | acquiresleep ht hst | loadDisk ht hst | itrunc ht hst | clearType ht hst | invalidate ht hst =>
    exact h.restage ht (by rw [hst]; rfl) (update_keeps Inode.ref rfl) rfl rfl
  | loadValid ht hst => exact h.restage ht (by rw [hst]; rfl) (fun _ => rfl) rfl rfl
  | modify | iupdate => exact h.congr (update_keeps Inode.ref rfl) rfl (fun _ => rfl) h.held
  | iunlock ht hst =>
    refine h.congr (update_keeps Inode.ref rfl) rfl (fun i => ?_) ?_
    · have := frees_erase ht i
      rwa [if_neg (by simp [freeingOn, hst, ITaskStage.freeing])] at this
    · intro x hx
      exact h.held x (mem_of_mem_erase hx)
  | putLast hi hlast hl =>
    rename_i p i
    refine h.rebalance (fun j => ?_) ?_
    · show ((s.setInode i _).inode j).ref + _ =
        _ + (update s.held i (s.held i - 1) j + (⟨p, i, .trunc⟩ :: s.tasks).countP _)
      have hpos := hi.1
      have href : ∀ j, ((s.setInode i { s.inode i with lock := some p }).inode j).ref = (s.inode j).ref :=
        update_keeps Inode.ref rfl
      rw [href, countP_cons, update_apply, frees]
      by_cases e : j = i
      · subst e
        simp only [freeingOn, ITaskStage.freeing, decide_true, Bool.and_true, if_true]
        omega
      · simp [freeingOn, e, Ne.symm e]
    · intro t ht hf
      rcases mem_cons.mp ht with rfl | ht
      · cases hf
      · exact h.held_put hi ht hf
  | put hi =>
    rename_i p i
    refine h.rebalance (fun j => ?_) fun t ht hf => h.held_put hi ht hf
    show ((s.setInode i _).inode j).ref + _ =
      _ + (update s.held i (s.held i - 1) j + s.frees j)
    have := hi.1
    have := h.ref i
    rw [setInode_inode, update_apply]
    split_ifs with e
    · subst e
      dsimp only
      omega
    · rfl
  | dropRef ht hst =>
    rename_i t
    refine h.rebalance (fun j => ?_) fun x hx => h.held x (mem_of_mem_erase hx)
    show ((s.setInode t.entry _).inode j).ref + _ =
      _ + (s.held j + (s.tasks.erase t).countP (freeingOn j))
    have hfree := frees_erase ht j
    have hpos := h.ref_pos ht
    rw [setInode_inode]
    by_cases e : j = t.entry
    · subst e
      simp only [freeingOn, hst, ITaskStage.freeing, decide_true, Bool.and_true, if_true] at hfree ⊢
      omega
    · rw [if_neg (by simp [freeingOn, Ne.symm e])] at hfree
      rw [if_neg e]
      omega
  | allocFound | allocScan => exact h.congr (fun _ => rfl) rfl (fun _ => rfl) h.held

end

/-! ## Locks -/

/-- The task holds the lock of entry `i`. -/
def holding (i : EntryId) (t : ITask P) : Bool := decide (t.entry = i) && t.stage.holds

/-- A sleep lock is held by the process it names and by no other. -/
def Locks (s : ItableState P) : Prop :=
  ∀ i, Exclusive (holding i) ITask.proc s.tasks (s.inode i).lock

theorem iinit_locks (disk : ℕ → ℕ → Dinode) (z : Dinode) : Locks (iinit (P := P) disk z) :=
  fun _ => .nil

theorem Locks.congr (h : s.Locks) (hl : ∀ i, (s'.inode i).lock = (s.inode i).lock)
    (ht : ∀ i k, Exclusive (holding i) ITask.proc s.tasks k →
      Exclusive (holding i) ITask.proc s'.tasks k) : s'.Locks := by
  intro i
  rw [hl i]
  exact ht i _ (h i)

section

variable [DecidableEq P]

theorem exclusive_restage (ht : t ∈ s.tasks) (hst : st.holds = t.stage.holds) (i : EntryId) (k : Option P)
    (h : Exclusive (holding i) ITask.proc s.tasks k) :
    Exclusive (holding i) ITask.proc (s.setTask t { t with stage := st }).tasks k :=
  h.keep ht (by simp [holding, hst]) rfl

theorem exclusive_other (ht : t ∈ s.tasks) (hi : i ≠ t.entry) {k : Option P}
    (h : Exclusive (holding i) ITask.proc s.tasks k) :
    Exclusive (holding i) ITask.proc (s.setTask t { t with stage := st }).tasks k :=
  h.keep ht (by simp [holding, Ne.symm hi]) rfl

theorem Locks.move (h : s.Locks) (hm : Move s e s') : s'.Locks := by
  cases hm with
  | hit | recycle | idup | modify | iupdate | put =>
    exact h.congr (update_keeps Inode.lock rfl) fun _ _ hk => hk
  | ilock => exact h.congr (fun _ => rfl) fun i k hk => hk.add (by simp [holding, ITaskStage.holds])
  | acquiresleep ht hst hl =>
    rename_i t
    refine locks_update Inode.lock h ?_ fun j k hj hk => exclusive_other ht hj hk
    have hfree := h t.entry
    rw [hl] at hfree
    exact hfree.acquire (v := { t with stage := .loading }) ht (by simp [holding, ITaskStage.holds])
  | loadValid ht hst =>
    exact h.congr (fun _ => rfl) (exclusive_restage ht (by rw [hst]; rfl))
  | loadDisk ht hst | itrunc ht hst | clearType ht hst =>
    exact h.congr (update_keeps Inode.lock rfl) (exclusive_restage ht (by rw [hst]; rfl))
  | iunlock ht hst =>
    rename_i t
    refine locks_update Inode.lock h
      ((h t.entry).removeHolder ht (by simp [holding, hst, ITaskStage.holds])) ?_
    intro j k hj hk
    exact hk.remove ht (by simp [holding, Ne.symm hj])
  | putLast hi hlast hl =>
    rename_i p i
    refine locks_update Inode.lock h ?_ fun j k hj hk => hk.add (by simp [holding, Ne.symm hj])
    have hfree := h i
    rw [hl] at hfree
    exact hfree.addHolder (u := ⟨p, i, .trunc⟩) (by simp [holding, ITaskStage.holds])
  | invalidate ht hst =>
    rename_i t
    refine locks_update Inode.lock h ?_ fun j k hj hk => exclusive_other ht hj hk
    exact (h t.entry).release (v := { t with stage := .drop }) ht
      (by simp [holding, hst, ITaskStage.holds]) (by simp [holding, ITaskStage.holds])
  | dropRef ht hst =>
    exact h.congr (update_keeps Inode.lock rfl) fun i k hk =>
      hk.remove ht (by simp [holding, hst, ITaskStage.holds])
  | allocFound | allocScan => exact h.congr (fun _ => rfl) fun _ _ hk => hk

end

/-! ## One entry for each inode -/

/-- The inode an entry is for. -/
def key (x : Inode P) : ℕ × ℕ := (x.dev, x.inum)

def Unique (s : ItableState P) : Prop :=
  ∀ i j, 0 < (s.inode i).ref → 0 < (s.inode j).ref → key (s.inode i) = key (s.inode j) → i = j

theorem iinit_unique (disk : ℕ → ℕ → Dinode) (z : Dinode) : Unique (iinit (P := P) disk z) :=
  fun _ _ h => absurd h (lt_irrefl 0)

theorem Unique.congr (h : s.Unique) (hk : ∀ i, key (s'.inode i) = key (s.inode i))
    (hr : ∀ i, 0 < (s'.inode i).ref → 0 < (s.inode i).ref) : s'.Unique := by
  intro i j hi hj hij
  rw [hk, hk] at hij
  exact h i j (hr i hi) (hr j hj) hij

theorem Unique.addRef (h : s.Unique) (hi : 0 < (s.inode i).ref)
    (hinode : s'.inode = (s.idup i).inode) : s'.Unique := by
  refine h.congr (fun j => ?_) fun j hj => ?_
  · rw [hinode]
    refine update_keeps key ?_ j
    rfl
  · rw [hinode] at hj
    exact idup_ref_pos hi j hj

section

variable [DecidableEq P]

/-- No step but `iget` makes an entry one for another inode. -/
theorem Unique.move (h : s.Unique) (hc : s.Counts) (hm : Move s e s') : s'.Unique := by
  cases hm with
  | hit hcd => exact h.addRef (cached_some hcd).1 rfl
  | recycle hnone hi =>
    rename_i dev inum i l
    have hnew : ∀ j, j ≠ i → 0 < (s.inode j).ref → key (s.inode j) ≠ (dev, inum) := by
      intro j _ hj hk
      exact cached_none hnone j hj (Prod.mk.inj hk)
    intro a b ha hb hab
    by_cases ea : a = i <;> by_cases eb : b = i <;>
      simp only [setInode, update_apply, ea, eb, if_true, if_false] at ha hb hab
    · exact ea.trans eb.symm
    · exact absurd hab.symm (hnew b eb hb)
    · exact absurd hab (hnew a ea ha)
    · exact h a b ha hb hab
  | idup hi =>
    refine h.addRef ?_ rfl
    rw [hc.ref]
    omega
  | put | dropRef => exact h.congr (update_keeps key rfl) (setInode_ref_pos (sub_le _ _))
  | acquiresleep | loadDisk | modify | iupdate | iunlock | putLast | itrunc | clearType |
      invalidate =>
    refine h.congr (update_keeps key ?_) (setInode_ref_pos ?_)
    · rfl
    · exact le_refl _
  | ilock | loadValid | allocFound | allocScan => exact h.congr (fun _ => rfl) fun _ hr => hr

end

/-! ## Entries and the disk -/

/-- A process in `iput` is about to invalidate entry `i`: the inode on the disk is free. -/
def Doomed (s : ItableState P) (i : EntryId) : Prop :=
  ∃ t ∈ s.tasks, t.entry = i ∧ t.stage = .invalidate

/-- A valid entry agrees with the disk. -/
def SoundAt (s : ItableState P) (i : EntryId) : Prop :=
  0 < (s.inode i).ref → (s.inode i).valid = true → ¬ s.Doomed i →
    (s.dinode i).type ≠ 0 ∧ (s.inode i).copy.type ≠ 0 ∧
      ((s.inode i).unsaved = false → (s.inode i).copy = s.dinode i)

def Sound (s : ItableState P) : Prop := ∀ i, s.SoundAt i

theorem iinit_sound (disk : ℕ → ℕ → Dinode) (z : Dinode) : Sound (iinit (P := P) disk z) :=
  fun _ h => absurd h (lt_irrefl 0)

/-- What an entry says about the inode. -/
def body (x : Inode P) : (ℕ × ℕ) × Bool × Dinode × Bool := (key x, x.valid, x.copy, x.unsaved)

theorem dinode_eq (hk : key (s'.inode i) = key (s.inode i))
    (hd : s'.disk (s.inode i).dev (s.inode i).inum = s.dinode i) : s'.dinode i = s.dinode i := by
  obtain ⟨hdev, hinum⟩ := Prod.mk.inj hk
  rw [dinode, hdev, hinum]
  exact hd

theorem SoundAt.congr (h : s.SoundAt i) (hb : body (s'.inode i) = body (s.inode i))
    (hr : 0 < (s'.inode i).ref → 0 < (s.inode i).ref)
    (hd : s'.disk (s.inode i).dev (s.inode i).inum = s.dinode i)
    (hdoom : s.Doomed i → s'.Doomed i) : s'.SoundAt i := by
  obtain ⟨hk, hv, hcopy, hun⟩ : key (s'.inode i) = key (s.inode i) ∧ _ ∧ _ ∧ _ := by
    simpa only [body, Prod.mk.injEq] using hb
  intro href hval hnot
  rw [dinode_eq hk hd, hcopy, hun]
  exact h (hr href) (hv ▸ hval) fun hdm => hnot (hdoom hdm)

theorem SoundAt.setInode_of_ne (h : s.SoundAt j) (hj : j ≠ i) (x : Inode P) :
    (s.setInode i x).SoundAt j := by
  have hinode : (s.setInode i x).inode j = s.inode j := update_of_ne hj _ _
  exact h.congr (congrArg body hinode) (fun hr => hinode ▸ hr) rfl id

theorem SoundAt.update (h : s.SoundAt j) (hi : s'.inode = update s.inode i x)
    (hx : body x = body (s.inode i)) (hr : x.ref ≤ (s.inode i).ref) (hd : s'.disk = s.disk)
    (hdoom : s.Doomed j → s'.Doomed j) : s'.SoundAt j := by
  refine h.congr ?_ (fun hpos => ?_) (by rw [hd]; rfl) hdoom
  · rw [hi]
    exact update_keeps body hx j
  · rw [hi] at hpos
    exact setInode_ref_pos hr j hpos

theorem Sound.addRef (h : s.Sound) (hi : 0 < (s.inode i).ref)
    (hinode : s'.inode = (s.idup i).inode) (hd : s'.disk = s.disk) (ht : s'.tasks = s.tasks) :
    s'.Sound := by
  intro j
  refine (h j).congr ?_ (fun hj => ?_) (by rw [hd]; rfl) fun ⟨t, hmem, hx⟩ => ⟨t, ht ▸ hmem, hx⟩
  · rw [hinode]
    refine update_keeps body ?_ j
    rfl
  · rw [hinode] at hj
    exact idup_ref_pos hi j hj

theorem Doomed.mono (h : s.Doomed i) (ht : ∀ t ∈ s.tasks, t.stage = .invalidate → t ∈ s'.tasks) :
    s'.Doomed i := by
  obtain ⟨t, hmem, hi, hst⟩ := h
  exact ⟨t, ht t hmem hst, hi, hst⟩

theorem writeDisk_self (s : ItableState P) (dev inum : ℕ) (d : Dinode) :
    (s.writeDisk dev inum d).disk dev inum = d := by
  simp [writeDisk]

theorem writeDisk_of_ne {dev inum dev' inum' : ℕ} (h : (dev', inum') ≠ (dev, inum)) (d : Dinode) :
    (s.writeDisk dev inum d).disk dev' inum' = s.disk dev' inum' := by
  by_cases e : dev' = dev
  · subst e
    have : inum' ≠ inum := fun e => h (by rw [e])
    simp [writeDisk, this]
  · simp [writeDisk, e]

/-- The other entries when entry `i` is written to the disk. -/
theorem Sound.save_other (h : s.Sound) (hq : s.Unique) (d : Dinode) (hi : 0 < (s.inode i).ref)
    (hj : j ≠ i) : (s.save i d).SoundAt j := by
  have hinode : (s.save i d).inode j = s.inode j := update_of_ne hj _ _
  intro href
  rw [hinode] at href
  have hsound : (s.save i d).SoundAt j := by
    refine (h j).congr (by rw [hinode]) (fun _ => href) ?_ id
    exact writeDisk_of_ne (fun e => hj (hq j i href hi e)) d
  exact hsound (hinode ▸ href)

theorem Sound.save (h : s.Sound) (hq : s.Unique) {d : Dinode} (hi : 0 < (s.inode i).ref)
    (hd : (s.inode i).copy.type ≠ 0 → d.type ≠ 0) : (s.save i d).Sound := by
  intro j
  by_cases e : j = i
  · subst e
    have hinode : (s.save j d).inode j = { s.inode j with copy := d, unsaved := false } :=
      update_self _ _ _
    have hdisk : (s.save j d).dinode j = d := by
      rw [dinode, hinode]
      exact writeDisk_self _ _ _ d
    intro href hval hnot
    rw [hinode] at href hval
    have htype := hd (h j href hval hnot).2.1
    rw [hdisk, hinode]
    exact ⟨htype, htype, fun _ => rfl⟩
  · exact h.save_other hq d hi e

/-- The task has locked the inode. -/
def Loaded (s : ItableState P) : Prop :=
  ∀ t ∈ s.tasks, t.stage = .locked → (s.inode t.entry).valid = true

theorem iinit_loaded (disk : ℕ → ℕ → Dinode) (z : Dinode) : Loaded (iinit (P := P) disk z) :=
  fun _ h => absurd h not_mem_nil

theorem Loaded.update (h : s.Loaded) (hi : s'.inode = update s.inode i x)
    (hx : x.valid = (s.inode i).valid)
    (ht : ∀ t ∈ s'.tasks, t.stage = .locked → t ∈ s.tasks) : s'.Loaded := by
  intro t hmem hst
  have hkeep : ((s.setInode i x).inode t.entry).valid = (s.inode t.entry).valid :=
    update_keeps Inode.valid hx t.entry
  rw [hi]
  exact hkeep.trans (h t (ht t hmem hst) hst)

/-- Changes that have not been passed to `iupdate` are those of the process that has the inode
locked. -/
def Own (s : ItableState P) : Prop :=
  ∀ i, (s.inode i).unsaved = true → ∃ t ∈ s.tasks, t.entry = i ∧ t.stage = .locked

theorem iinit_own (disk : ℕ → ℕ → Dinode) (z : Dinode) : Own (iinit (P := P) disk z) :=
  fun _ h => absurd h Bool.false_ne_true

theorem Own.congr (h : s.Own) (hi : s'.inode = s.inode)
    (ht : ∀ t ∈ s.tasks, t.stage = .locked → t ∈ s'.tasks) : s'.Own := by
  intro i hun
  rw [hi] at hun
  obtain ⟨t, hmem, hti, hst⟩ := h i hun
  exact ⟨t, ht t hmem hst, hti, hst⟩

theorem Own.update (h : s.Own) (hi : s'.inode = update s.inode i x)
    (hx : x.unsaved = true → (s.inode i).unsaved = true)
    (ht : ∀ t ∈ s.tasks, t.stage = .locked → t ∈ s'.tasks) : s'.Own := by
  intro j hun
  rw [hi, update_apply] at hun
  have hold : (s.inode j).unsaved = true := by
    split_ifs at hun with e
    · exact e ▸ hx hun
    · exact hun
  obtain ⟨t, hmem, htj, hst⟩ := h j hold
  exact ⟨t, ht t hmem hst, htj, hst⟩

instance (e : ItableEvent P) (s : ItableState P) : Decidable (saves e s) := by
  cases e <;> unfold saves <;> infer_instance

/-- The invariants that need no discipline. -/
structure Inv (s : ItableState P) : Prop where
  counts : s.Counts
  locks : s.Locks
  unique : s.Unique
  sound : s.Sound
  loaded : s.Loaded

/-- The process that calls `iput` with the last reference finds the inode unlocked. -/
theorem Inv.unlocked_of_lastPut (h : s.Inv) (hi : s.MayPut i) (hlast : s.LastPut i) :
    (s.inode i).lock = none := by
  have href := h.counts.ref i
  rw [hlast.1] at href
  have hheld := hi.1
  have hfrees : s.frees i = 0 := by omega
  refine (h.locks i).eq_none fun t ht => ?_
  by_contra hhold
  simp only [holding, Bool.not_eq_false, Bool.and_eq_true, decide_eq_true_eq] at hhold
  -- it is not freeing, so it uses a reference, and there is no other
  have hnot : t.stage.freeing = false := by
    have := countP_eq_zero.mp hfrees t ht
    simpa [freeingOn, hhold.1] using this
  rcases hi.2 with hmore | hnone
  · omega
  · rw [hnone t ht hhold.1] at hnot
    cases hnot

section

variable [DecidableEq P]

theorem mem_erase_of_stage (ht : t.stage ≠ st) (x : ITask P) (hx : x ∈ s.tasks) (hst : x.stage = st) :
    x ∈ s.tasks.erase t := by
  refine (mem_erase_of_ne ?_).mpr hx
  rintro rfl
  exact ht hst

theorem mem_setTask_of_stage (ht : t.stage ≠ st) (x : ITask P) (hx : x ∈ s.tasks) (hst : x.stage = st) :
    x ∈ (s.setTask t t').tasks := mem_cons_of_mem _ (mem_erase_of_stage ht x hx hst)

theorem locked_setTask (ht : t'.stage ≠ .locked) (x : ITask P)
    (hx : x ∈ (s.setTask t t').tasks) (hst : x.stage = .locked) : x ∈ s.tasks := by
  rcases mem_setTask hx with rfl | hx
  exacts [absurd hst ht, hx]

theorem SoundAt.setTask (h : s.SoundAt i) (ht : t.stage ≠ .invalidate) : (s.setTask t t').SoundAt i :=
  h.congr rfl id rfl fun hd => hd.mono (mem_setTask_of_stage ht)

theorem Sound.move (h : s.Sound) (hc : s.Counts) (hq : s.Unique) (hm : Move s e s') : s'.Sound := by
  cases hm with
  | hit hcd => exact h.addRef (cached_some hcd).1 rfl rfl rfl
  | recycle hnone hi =>
    rename_i dev inum i l
    intro j
    by_cases e : j = i
    · subst e
      intro _ hval
      simp [setInode] at hval
    · exact ((h j).setInode_of_ne e _).congr rfl id rfl id
  | idup hi =>
    refine h.addRef ?_ rfl rfl rfl
    rw [hc.ref]
    omega
  | ilock hi =>
    exact fun i => (h i).congr rfl id rfl fun hd => hd.mono fun _ ht _ => mem_cons_of_mem _ ht
  | acquiresleep ht hst =>
    exact fun i => (h i).update rfl rfl (le_refl _) rfl fun hd =>
      hd.mono (mem_setTask_of_stage (by simp [hst]))
  | loadValid ht hst => exact fun i => (h i).setTask (by simp [hst])
  | loadDisk ht hst hty =>
    rename_i t
    intro i
    refine SoundAt.setTask ?_ (by simp [hst])
    by_cases e : i = t.entry
    · subst e
      intro _ _ _
      simpa [setInode, dinode] using hty
    · exact (h i).setInode_of_ne e _
  | modify ht hst hd =>
    rename_i t d
    intro i
    by_cases e : i = t.entry
    · subst e
      intro href hval hnot
      have hold := h t.entry (by simpa [ItableState.modify, setInode] using href)
        (by simpa [ItableState.modify, setInode] using hval) hnot
      simpa [ItableState.modify, setInode, dinode, hd] using hold.1
    · exact (h i).setInode_of_ne e _
  | iupdate ht => exact h.save hq (hc.ref_pos ht) id
  | iunlock ht hst =>
    exact fun i => (h i).update rfl rfl (le_refl _) rfl fun hd =>
      hd.mono (mem_erase_of_stage (by simp [hst]))
  | putLast hi hlast hl =>
    exact fun i => (h i).update rfl rfl (le_refl _) rfl fun hd =>
      hd.mono fun _ ht _ => mem_cons_of_mem _ ht
  | put hi =>
    exact fun i => (h i).update rfl rfl (sub_le _ _) rfl id
  | itrunc ht hst =>
    rename_i t
    have hsave : (s.save t.entry (s.inode t.entry).copy.truncated).Sound :=
      h.save hq (hc.ref_pos ht) fun htype => htype
    exact fun i => (hsave i).setTask (by simp [hst])
  | clearType ht hst =>
    rename_i t
    intro i
    by_cases e : i = t.entry
    · subst e
      intro _ _ hnot
      exact absurd ⟨_, mem_cons_self, rfl, rfl⟩ hnot
    · exact (h.save_other hq _ (hc.ref_pos ht) e).setTask (by simp [hst])
  | invalidate ht hst =>
    rename_i t
    intro i
    by_cases e : i = t.entry
    · subst e
      intro _ hval
      simp [ItableState.invalidate, setTask, setInode] at hval
    · refine ((h i).setInode_of_ne e _).congr rfl id rfl fun hd => ?_
      obtain ⟨x, hmem, hxi, hxst⟩ := hd
      have hne : x ≠ t := fun hx => e (hxi.symm.trans (congrArg ITask.entry hx))
      exact ⟨x, mem_cons_of_mem _ ((mem_erase_of_ne hne).mpr hmem), hxi, hxst⟩
  | dropRef ht hst =>
    exact fun i => (h i).update rfl rfl (sub_le _ _) rfl fun hd =>
      hd.mono (mem_erase_of_stage (by simp [hst]))
  | allocFound hty =>
    rename_i a l
    intro i href hval hnot
    have hold := h i href hval hnot
    have hne : ((s.inode i).dev, (s.inode i).inum) ≠ (a.dev, a.inum) := by
      intro e
      obtain ⟨hdev, hinum⟩ := Prod.mk.inj e
      rw [dinode, hdev, hinum] at hold
      exact hold.1 hty
    have hsound : SoundAt { s.writeDisk a.dev a.inum (.fresh a.type) with allocs := l } i :=
      (h i).congr rfl id (writeDisk_of_ne hne _) id
    exact hsound href hval hnot
  | allocScan => exact fun i => (h i).congr rfl id rfl id

/-- An entry is invalidated only when nobody has its inode locked. -/
theorem Loaded.move (h : s.Loaded) (hc : s.Counts) (hl : s.Locks) (hm : Move s e s') : s'.Loaded := by
  cases hm with
  | hit | idup | modify | iupdate | put => exact h.update rfl rfl fun _ hx _ => hx
  | recycle hnone hi =>
    rename_i dev inum i l
    intro t ht hst
    have hne : t.entry ≠ i := by
      rintro rfl
      have hpos := hc.ref_pos ht
      rw [empty_some hi] at hpos
      exact absurd hpos (lt_irrefl 0)
    simpa [setInode, hne] using h t ht hst
  | ilock =>
    intro x hx hst
    rcases mem_cons.mp hx with rfl | hx
    · cases hst
    · exact h x hx hst
  | acquiresleep ht hst | itrunc ht hst | clearType ht hst =>
    exact h.update rfl rfl (locked_setTask (by simp))
  | loadValid ht hst hv =>
    intro x hx hlk
    rcases mem_setTask hx with rfl | hx
    exacts [hv, h x hx hlk]
  | loadDisk ht hst hty =>
    rename_i t
    intro x hx hlk
    by_cases e : x.entry = t.entry
    · simp [setTask, setInode, e]
    · rcases mem_setTask hx with rfl | hx
      · exact absurd rfl e
      · simpa [setTask, setInode, e] using h x hx hlk
  | iunlock ht hst | dropRef ht hst => exact h.update rfl rfl fun _ hx _ => mem_of_mem_erase hx
  | putLast hi hlast hl =>
    refine h.update rfl rfl fun x hx hlk => ?_
    rcases mem_cons.mp hx with rfl | hx
    · cases hlk
    · exact hx
  | invalidate ht hst =>
    rename_i t
    intro x hx hlk
    have hx := locked_setTask (s := s) (by simp) x hx hlk
    have hne : x.entry ≠ t.entry := by
      intro e
      have hxt : x ≠ t := by
        rintro rfl
        rw [hst] at hlk
        cases hlk
      have hfalse := (hl t.entry).other ht (by simp [holding, hst, ITaskStage.holds]) hx hxt
      simp [holding, hlk, e, ITaskStage.holds] at hfalse
    simpa [ItableState.invalidate, setTask, setInode, hne] using h x hx hlk
  | allocFound => exact h
  | allocScan => exact h

/-- Processes that call `iupdate` before `iunlock` leave no changes behind. -/
theorem Own.move (h : s.Own) (hok : saves e s) (hm : Move s e s') : s'.Own := by
  cases hm with
  | hit | idup | put => exact h.update rfl id fun _ hx _ => hx
  | recycle | iupdate =>
    exact h.update rfl (fun hx => absurd hx Bool.false_ne_true) fun _ hx _ => hx
  | ilock => exact h.congr rfl fun _ hx _ => mem_cons_of_mem _ hx
  | acquiresleep ht hst => exact h.update rfl id (mem_setTask_of_stage (by simp [hst]))
  | loadValid ht hst hv => exact h.congr rfl (mem_setTask_of_stage (by simp [hst]))
  | loadDisk ht hst hty | itrunc ht hst | clearType ht hst | invalidate ht hst =>
    exact h.update rfl (fun hx => absurd hx Bool.false_ne_true)
      (mem_setTask_of_stage (by simp [hst]))
  | modify ht hst hd =>
    rename_i t d
    intro i hi
    by_cases e : i = t.entry
    · exact ⟨t, ht, e.symm, hst⟩
    · exact h i (by simpa [ItableState.modify, setInode, e] using hi)
  | iunlock ht hst =>
    rename_i t
    intro i hi
    have hold : (s.inode i).unsaved = true :=
      (update_keeps (a := s.inode) (x := { s.inode t.entry with lock := none }) Inode.unsaved rfl i).symm.trans
        hi
    obtain ⟨x, hx, hxi, hxst⟩ := h i hold
    have hne : x ≠ t := by
      rintro rfl
      have hsaved : (s.inode x.entry).unsaved = false := hok
      rw [hxi, hold] at hsaved
      cases hsaved
    exact ⟨x, (mem_erase_of_ne hne).mpr hx, hxi, hxst⟩
  | putLast => exact h.update rfl id fun _ hx _ => mem_cons_of_mem _ hx
  | dropRef ht hst => exact h.update rfl id (mem_erase_of_stage (by simp [hst]))
  | allocFound => exact h
  | allocScan => exact h

/-! ## Whole runs -/

theorem ReachableBy.inv {ok : ItableEvent P → ItableState P → Prop}
    (h : ReachableBy ninodes ok s) : s.Inv := by
  obtain ⟨disk, z, hr⟩ := h
  refine hr.invariant ⟨iinit_counts disk z, iinit_locks disk z, iinit_unique disk z,
    iinit_sound disk z, iinit_loaded disk z⟩ ?_
  intro e t u ht _ hs
  have hm := step_move hs
  exact ⟨ht.counts.move hm, ht.locks.move hm, ht.unique.move ht.counts hm,
    ht.sound.move ht.counts ht.unique hm, ht.loaded.move ht.counts ht.locks hm⟩

theorem ReachableBy.own (h : ReachableBy ninodes saves s) : s.Own := by
  obtain ⟨disk, z, hr⟩ := h
  refine hr.invariant (iinit_own disk z) ?_
  intro e t u ht hok hs
  exact ht.move hok (step_move hs)

/-- Nobody invalidates an entry whose inode a process has locked. -/
theorem Locks.not_doomed (h : s.Locks) (ht : t ∈ s.tasks)
    (hst : t.stage = .locked) : ¬ s.Doomed t.entry := by
  rintro ⟨x, hx, hxi, hxst⟩
  have hne : x ≠ t := by
    rintro rfl
    rw [hst] at hxst
    cases hxst
  have hfalse := (h t.entry).other ht (by simp [holding, hst, ITaskStage.holds]) hx hne
  simp [holding, hxi, hxst, ITaskStage.holds] at hfalse

/-- **The inode table.** In every state of every run: an inode has one entry in use at most; the
entry that a process has locked is valid, and agrees with the inode on the disk unless changes have
not been passed to `iupdate`, which are those of the process that has it locked if processes call
`iupdate` before `iunlock`; and the `acquiresleep` in `iput` does not sleep. -/
theorem itable_protocol (h : ReachableBy ninodes anyEvent s) :
    (∀ i j, 0 < (s.inode i).ref → 0 < (s.inode j).ref → (s.inode i).dev = (s.inode j).dev →
      (s.inode i).inum = (s.inode j).inum → i = j) ∧
    (∀ t ∈ s.tasks, t.stage = .locked → (s.inode t.entry).valid = true ∧
      ((s.inode t.entry).unsaved = false →
        (s.inode t.entry).copy = s.disk (s.inode t.entry).dev (s.inode t.entry).inum)) ∧
    (ReachableBy ninodes saves s → ∀ i, (s.inode i).unsaved = true →
      ∃ t ∈ s.tasks, t.entry = i ∧ t.stage = .locked) ∧
    (∀ i, s.MayPut i → s.LastPut i → (s.inode i).lock = none) := by
  have hinv := h.inv
  refine ⟨?_, ?_, ReachableBy.own, fun i => hinv.unlocked_of_lastPut⟩
  · intro i j hi hj hdev hinum
    exact hinv.unique i j hi hj (Prod.ext hdev hinum)
  · intro t ht hst
    have hvalid := hinv.loaded t ht hst
    exact ⟨hvalid, (hinv.sound t.entry (hinv.counts.ref_pos ht) hvalid
      (hinv.locks.not_doomed ht hst)).2.2⟩

/-- Process 0 drops the last reference to inode 1, which has no links. While it frees the inode,
process 1 allocates it anew and locks it. -/
theorem itable_protocol_reallocated :
    ∃ s : ItableState ℕ, ReachableBy 10 saves s ∧ ⟨1, 0, .locked⟩ ∈ s.tasks ∧
      ⟨0, 0, .drop⟩ ∈ s.tasks ∧ (s.inode 0).valid = true ∧ (s.inode 0).copy = s.disk 1 1 := by
  have hrun : (run (step 10) saves
      [.iget 1 1, .ilock 0 0, .acquiresleep ⟨0, 0, .waiting⟩, .load ⟨0, 0, .loading⟩,
        .iunlock ⟨0, 0, .locked⟩, .iput 0 0, .itrunc ⟨0, 0, .trunc⟩, .clearType ⟨0, 0, .clear⟩,
        .ialloc 1 1 2, .iallocOne ⟨1, 1, 2, 1, false⟩, .iallocGet ⟨1, 1, 2, 1, true⟩,
        .ilock 1 0, .invalidate ⟨0, 0, .invalidate⟩, .acquiresleep ⟨1, 0, .waiting⟩,
        .load ⟨1, 0, .loading⟩]
      (iinit (fun _ _ => .fresh 2) (.fresh 0))).any
        (fun s => decide (⟨1, 0, .locked⟩ ∈ s.tasks ∧ ⟨0, 0, .drop⟩ ∈ s.tasks ∧
          (s.inode 0).unsaved = false ∧ (s.inode 0).dev = 1 ∧ (s.inode 0).inum = 1)) = true := by
    decide +kernel
  obtain ⟨s, hr, hlocked, hdrop, hsaved, hdev, hinum⟩ := exists_reaches_of_run hrun
  have hany : ReachableBy 10 anyEvent s := ⟨_, _, hr.mono fun _ _ _ => trivial⟩
  obtain ⟨hvalid, heq⟩ := (itable_protocol hany).2.1 _ hlocked rfl
  rw [hdev, hinum] at heq
  exact ⟨s, ⟨_, _, hr⟩, hlocked, hdrop, hvalid, heq hsaved⟩

end

end ItableState

end Xv6
