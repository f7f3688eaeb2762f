import Xv6.Lib.Beside
import Xv6.Fs.Resolve

/-!
# Locks on inodes

The functions that `create` calls, with the sleep locks that the process holds beside the state of
the file system. Waiting for a lock that the process holds itself would last for ever (`deadlock`),
and releasing a lock that it does not hold is a panic.

Each function does what its model without locks does, as long as none of this happens (`Follows`).
-/

open Finset

namespace Xv6

/-- Errors that concern locks. -/
inductive LockError
  /-- the process waits for a lock that it holds -/
  | deadlock
  | iunlock
  deriving DecidableEq, Repr

/-- Programs of a process that holds locks of inodes. -/
abbrev LockM (P : Type) := StateT (FsState P × Finset ℕ) (Except (FsError ⊕ LockError))

namespace Locking

open FsState

variable {P : Type}

def acquiresleep (i : ℕ) : LockM P Unit := do
  let (s, l) ← get
  if i ∈ l then throw (.inr .deadlock) else set (s, insert i l)

def releasesleep (i : ℕ) : LockM P Unit := modify fun (s, l) => (s, l.erase i)

def ilock (i : ℕ) : LockM P Unit := do
  let _ ← liftBeside (Fs.entry i)
  acquiresleep i
  liftBeside (Fs.ilock i)

def iunlock (i : ℕ) : LockM P Unit := do
  let (_, l) ← get
  if i ∈ l then do
    let _ ← liftBeside (Fs.entry i)
    releasesleep i
  else throw (.inr .iunlock)

def iput (i : ℕ) : LockM P Unit := do
  let e ← liftBeside (Fs.entry i)
  if e.ref = 1 ∧ e.valid ∧ e.din.nlink = 0 then do
    acquiresleep i
    liftBeside (Fs.itrunc i)
    liftBeside (Fs.updateInode i fun d => { d with type := 0 })
    releasesleep i
  liftBeside (modify fun s =>
    s.setEntry i (if e.ref = 1 then none else some { e with ref := e.ref - 1 }))

def iunlockput (i : ℕ) : LockM P Unit := do
  iunlock i
  iput i

def dirlink (i : ℕ) (name : List UInt8) (inum : ℕ) : LockM P ℤ := do
  match ← liftBeside (Fs.dirlookup i name) with
  | some (ip, _) => do
    iput ip
    pure (-1)
  | none => do
    let dp ← liftBeside (Fs.inode i)
    let off ← liftBeside (Fs.emptyLoop i (dp.size / Dirent.SIZE + 1) 0)
    let de : Dirent := ⟨inum % 2 ^ 16, strncpy name DIRSIZ⟩
    let r ← liftBeside (Fs.writei i (Fs.kernelSrc de.encode) off Dirent.SIZE)
    if r ≠ Dirent.SIZE then pure (-1) else pure 0

/-! ## Paths -/

def namexLoop (parent : Bool) : List (List UInt8) → ℕ → LockM P (Option (ℕ × List UInt8))
  | [], i =>
    if parent then do
      iput i
      pure none
    else pure (some (i, []))
  | name :: path, i => do
    ilock i
    let ip ← liftBeside (Fs.inode i)
    if ip.type ≠ T_DIR then do
      iunlockput i
      pure none
    else if parent ∧ path = [] then do
      iunlock i
      pure (some (i, name))
    else do
      match ← liftBeside (Fs.dirlookup i name) with
      | none => do
        iunlockput i
        pure none
      | some (next, _) => do
        iunlockput i
        namexLoop parent path next

def namex (p : P) (path : List UInt8) (parent : Bool) : LockM P (Option (ℕ × List UInt8)) := do
  if path.head? = some slash then do
    liftBeside (Fs.iget ROOTINO)
    namexLoop parent (elements path) ROOTINO
  else do
    let (s, _) ← get
    match (s.proc p).cwd with
    | some i => do
      liftBeside (Fs.idup i)
      namexLoop parent (elements path) i
    | none => throw (.inl .wild)

def nameiparent (p : P) (path : List UInt8) : LockM P (Option (ℕ × List UInt8)) := namex p path true

/-! ## `create` -/

def createFail (i dp : ℕ) : LockM P (Option ℕ) := do
  liftBeside (Fs.updateInode i fun d => { d with nlink := 0 })
  iunlockput i
  iunlockput dp
  pure none

def dirInit (type : ℤ) (i dp : ℕ) : LockM P Bool :=
  if type = T_DIR then do
    if (← dirlink i dot i) < 0 then pure false
    else if (← dirlink i dotdot dp) < 0 then pure false
    else pure true
  else pure true

def createDone (i dp : ℕ) : LockM P (Option ℕ) := do
  iunlockput dp
  pure (some i)

def createNew (i dp : ℕ) (name : List UInt8) (type major minor : ℤ) : LockM P (Option ℕ) := do
  ilock i
  liftBeside (Fs.updateInode i fun d =>
    { d with major := short major, minor := short minor, nlink := 1 })
  if ¬ (← dirInit type i dp) then createFail i dp
  else if (← dirlink dp name i) < 0 then createFail i dp
  else if type = T_DIR then do
    liftBeside (Fs.updateInode dp fun d => { d with nlink := short (d.nlink + 1) })
    createDone i dp
  else createDone i dp

def create (p : P) (path : List UInt8) (type major minor : ℤ) : LockM P (Option ℕ) := do
  match ← nameiparent p path with
  | none => pure none
  | some (dp, name) => do
    ilock dp
    match ← liftBeside (Fs.dirlookup dp name) with
    | some (i, _) => do
      iunlockput dp
      ilock i
      let ip ← liftBeside (Fs.inode i)
      if type = T_FILE ∧ (ip.type = T_FILE ∨ ip.type = T_DEVICE) then pure (some i)
      else do
        iunlockput i
        pure none
    | none => do
      match ← liftBeside (Fs.ialloc type) with
      | none => do
        iunlockput dp
        pure none
      | some i => createNew i dp name type major minor

/-! ## What the locks do not change -/

variable {s : FsState P} {i : ℕ} {l : Finset ℕ} {name : List UInt8}

theorem acquiresleep_run (hi : i ∉ l) : (acquiresleep i).run (s, l) = .ok ((), s, insert i l) := by
  unfold acquiresleep
  rw [Wp.run_bind_eq (m := get) rfl]
  simp only [if_neg hi]
  rfl

theorem entry_run_none (h : s.itable i = none) : (Fs.entry i).run s = .error .wild := by
  unfold Fs.entry
  rw [Wp.run_bind_eq (m := get) rfl, h]
  rfl

theorem of_entry_run {s t : FsState P} {e : Entry} (h : (Fs.entry i).run s = .ok (e, t)) :
    s.itable i = some e ∧ t = s := by
  cases he : s.itable i with
  | none =>
    rw [entry_run_none he] at h
    contradiction
  | some e' =>
    rw [Fs.entry_run he] at h
    obtain ⟨rfl, rfl⟩ := Prod.mk.inj (Except.ok.inj h)
    exact ⟨rfl, rfl⟩

/-- The fields of an inode are read only if there is a reference to it. -/
theorem of_inode_run {s t : FsState P} {ip : Dinode} (h : (Fs.inode i).run s = .ok (ip, t)) :
    t.itable i ≠ none := by
  cases he : s.itable i with
  | none =>
    have hrun : (Fs.inode i).run s = .error .wild := Wp.run_bind_error (entry_run_none he)
    rw [hrun] at h
    contradiction
  | some e =>
    have hrun : (Fs.inode i).run s = .ok (e.din, s) := Wp.run_bind_eq (Fs.entry_run he)
    obtain ⟨-, rfl⟩ := Prod.mk.inj (Except.ok.inj (hrun.symm.trans h))
    rw [he]
    exact Option.some_ne_none e

theorem lift_entry_run {e : Entry} (he : s.itable i = some e) (l : Finset ℕ) :
    (liftBeside (Fs.entry i) : LockM P Entry).run (s, l) = .ok (e, s, l) := by
  show beside _ ((Fs.entry i).run s) = _
  rw [Fs.entry_run he]
  rfl

theorem ilock_follows (hi : i ∉ l) (s : FsState P) :
    Follows (ilock i) (Fs.ilock i) l (fun _ => insert i l) s := by
  cases he : s.itable i with
  | none => exact (Follows.lift (Fs.entry i) l s).bind_error (entry_run_none he)
  | some e =>
    unfold Follows ilock
    rw [Wp.run_bind_eq (lift_entry_run he l), Wp.run_bind_eq (acquiresleep_run hi)]
    rfl

theorem iunlock_run (he : s.itable i ≠ none) (hi : i ∈ l) : (iunlock i).run (s, l) =
    .ok ((), s, l.erase i) := by
  obtain ⟨e, he⟩ := Option.ne_none_iff_exists'.1 he
  unfold iunlock
  rw [Wp.run_bind_eq (m := get) rfl]
  simp only [if_pos hi]
  rw [Wp.run_bind_eq (lift_entry_run he l)]
  rfl

theorem iunlock_run_none (he : s.itable i = none) (hi : i ∈ l) :
    (iunlock i).run (s, l) = .error (.inl .wild) := by
  unfold iunlock
  rw [Wp.run_bind_eq (m := get) rfl]
  simp only [if_pos hi]
  refine Wp.run_bind_error ?_
  show beside _ ((Fs.entry i).run s) = _
  rw [entry_run_none he]
  rfl

theorem releasesleep_run (hi : i ∉ l) : (releasesleep i).run (s, insert i l) = .ok ((), s, l) := by
  show Except.ok ((), s, (insert i l).erase i) = _
  rw [erase_insert hi]

/-- `iput` takes the lock only if it frees the inode. -/
theorem iput_follows (hi : ∀ e, s.itable i = some e → e.ref = 1 → e.valid = true → i ∉ l) :
    Follows (iput i) (Fs.iput i) l (fun _ => l) s := by
  refine (Follows.lift (Fs.entry i) l s).bind fun e t ht => ?_
  obtain ⟨he, rfl⟩ := of_entry_run ht
  refine Follows.ite (fun hfree => ?_) fun _ => .lift _ l t
  have hi := hi e he hfree.1 hfree.2.1
  refine Follows.aside (acquiresleep_run hi) ?_
  refine (Follows.lift (Fs.itrunc i) _ t).bind fun _ t1 _ => ?_
  refine (Follows.lift _ _ t1).bind fun _ t2 _ => ?_
  exact Follows.aside (releasesleep_run hi) (.lift _ l t2)

theorem iunlockput_follows (hi : i ∈ l) (s : FsState P) :
    Follows (iunlockput i) (Fs.iput i) l (fun _ => l.erase i) s := by
  by_cases he : s.itable i = none
  · unfold Follows iunlockput Fs.iput
    rw [Wp.run_bind_error (iunlock_run_none he hi), Wp.run_bind_error (entry_run_none he)]
    rfl
  · exact Follows.aside (iunlock_run he hi) (iput_follows fun _ _ _ _ => notMem_erase i l)

/-! ## Paths -/

theorem namexLoop_follows (parent : Bool) (names : List (List UInt8)) (i : ℕ) (s : FsState P) :
    Follows (namexLoop parent names i) (Fs.namexLoop parent names i) ∅ (fun _ => ∅) s := by
  induction names generalizing i s with
  | nil =>
    refine Follows.ite (fun _ => ?_) fun _ => .pure _ rfl
    exact (iput_follows fun _ _ _ _ => notMem_empty i).bind fun _ _ _ => .pure _ rfl
  | cons name names ih =>
    have hi : i ∈ (insert i ∅ : Finset ℕ) := mem_insert_self i ∅
    have herase : (insert i ∅ : Finset ℕ).erase i = ∅ := erase_insert (notMem_empty i)
    have hput : ∀ s : FsState P, Follows (iunlockput i) (Fs.iput i) (insert i ∅) (fun _ => ∅) s := by
      intro s
      have := iunlockput_follows hi s
      rwa [herase] at this
    refine (ilock_follows (notMem_empty i) s).bind fun _ t _ => ?_
    refine (Follows.lift (Fs.inode i) _ t).bind fun ip u hip => ?_
    refine Follows.ite (fun _ => (hput u).bind fun _ _ _ => .pure _ rfl) fun _ => ?_
    refine Follows.ite (fun _ => ?_) fun _ => ?_
    · exact Follows.aside (iunlock_run (of_inode_run hip) hi) (.pure _ herase.symm)
    · refine (Follows.lift (Fs.dirlookup i name) _ u).bind fun r v _ => ?_
      cases r with
      | none => exact (hput v).bind fun _ _ _ => .pure _ rfl
      | some x => exact (hput v).bind fun _ w _ => ih x.1 w

theorem namex_follows (p : P) (path : List UInt8) (parent : Bool) (s : FsState P) :
    Follows (namex p path parent) (Fs.namex p path parent) ∅ (fun _ => ∅) s := by
  refine Follows.ite (fun _ => ?_) fun _ => ?_
  · exact (Follows.lift (Fs.iget ROOTINO) _ s).bind fun _ t _ => namexLoop_follows parent _ _ t
  · unfold Follows
    rw [Wp.run_bind_eq (m := get) rfl, Wp.run_bind_eq (m := get) rfl]
    simp only
    cases (s.proc p).cwd with
    | none => rfl
    | some i => exact (Follows.lift (Fs.idup i) _ s).bind fun _ t _ => namexLoop_follows parent _ _ t

/-! ## Directories -/

/-- `dirlink` drops a reference that is not the last one, so that it takes no lock. -/
theorem dirlink_tracks {inum : ℕ} {post : ℤ → FsState P → Prop} {err : FsError → Prop} (h : s.Settled)
    (hv : s.Valid i) (hdir : (s.vol.node i).type = T_DIR)
      (hwp : Wp (Fs.dirlink i name inum) post err s) :
    Tracks (dirlink i name inum) (Fs.dirlink i name inum) l (fun _ => l) post s := by
  refine ⟨?_, hwp.mono_err fun _ _ => True.intro⟩
  refine (Follows.lift (Fs.dirlookup i name) l s).bind fun r t hr => ?_
  have hpost := (Fs.dirlookup_wp h hv hdir name).post_of_run hr
  cases r with
  | none =>
    refine (Follows.lift (Fs.inode i) l t).bind fun dp t1 _ => ?_
    refine (Follows.lift _ l t1).bind fun off t2 _ => ?_
    refine (Follows.lift _ l t2).bind fun r t3 _ => ?_
    exact Follows.ite (fun _ => .pure _ rfl) fun _ => .pure _ rfl
  | some x =>
    have ht : t = s.take x.1 := by
      cases hf : (s.vol.node i).find name with
      | none =>
        rw [hf] at hpost
        exact absurd hpost.1 (Option.some_ne_none x)
      | some k =>
        rw [hf] at hpost
        obtain ⟨-, hx, rfl⟩ := hpost
        cases hx
        rfl
    subst ht
    refine Follows.bind (iput_follows fun e he href hval => ?_) fun _ _ _ => .pure _ rfl
    exact absurd hval (Fs.take_not_last h he href)

end Locking

end Xv6
