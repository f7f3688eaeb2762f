import Xv6.Fs.Locking

/-!
# `create` is all or nothing

`create` allocates an inode, writes it, and enters it in the directory; for a directory it first
enters `"."` and `".."` in it. Each of these steps may run out of space. Then the new inode gets
link count 0 and its last reference is dropped, which frees it.

**States.** While the new file is made, the files are those before the call, but for the new one and
its directory (`Making`). When the call fails, nothing is different but that blocks may have been
attached to the directory (`RolledBack`).

**Link counts.** The link count of the directory of a new directory is raised by one. It is a
`short`, and nobody checks that it does not wrap around. It cannot: the links of a directory are its
name and the `".."` of the directories named in it, and a directory has at most 17152 entries
(`Ready.nlink_lt`).

Main result: `create_all_or_nothing`.
-/

open Function List Option

namespace Xv6

open FsState Volume

namespace Fs

variable {P : Type} {s t u : FsState P} {p : P} {c dp i j n : ℕ} {path name : List UInt8} {x y z : Node}
  {type : ℤ} {l : Finset ℕ}

/-! ## Before the call -/

/-- **A state in which `create` is called.** Referenced inodes are allocated, an allocated inode on
the path has a link or a reference, inode 0 is not used, and inode numbers fit in directory entries.
A directory has no more links than one, and one for each entry. It is so between system calls
(`ready_of_reaches`). -/
structure Ready (s : FsState P) (p : P) (c : ℕ) (path : List UInt8) : Prop where
  settled : s.Settled
  cwd : (s.proc p).cwd = some c
  held : s.itable c ≠ none
  used : ∀ i, s.itable i ≠ none → s.vol.Live i
  stays : ∀ l r, components path = l ++ r → ∀ j, resolve s.vol.node l (pathStart path c) = some j →
    s.vol.Live j → Stays s j
  zero : ¬ s.vol.Live 0
  ninodes : s.sb.ninodes ≤ 2 ^ 16
  links : ∀ d, (s.vol.node d).type = T_DIR →
    0 ≤ (s.vol.node d).nlink ∧ (s.vol.node d).nlink ≤ (s.vol.node d).nslots + 1

/-- The link count of a directory can be raised. -/
theorem Ready.nlink_lt (hr : Ready s p c path) (hdir : (s.vol.node dp).type = T_DIR) :
    (s.vol.node dp).nlink + 1 < 2 ^ 15 := by
  have hl : s.vol.Live dp := live_iff_node.2 (by rw [hdir]; decide)
  have hsize : (s.vol.node dp).size ≤ MAXFILE * BSIZE := by
    rw [node_size hl]
    exact size_le hr.settled.owned hl
  have hslots : (s.vol.node dp).nslots ≤ MAXFILE * BSIZE / Dirent.SIZE := Nat.div_le_div_right hsize
  have hmax : MAXFILE * BSIZE / Dirent.SIZE = 17152 := rfl
  have := (hr.links dp hdir).2
  omega

/-! ## While the file is made -/

/-- **File `i` is made in directory `dp`.** The files are those of `s`, but that `i` is `y` and `dp`
is `x`. The call has a reference to both. -/
structure Making (s : FsState P) (dp i : ℕ) (y x : Node) (t : FsState P) : Prop where
  settled : t.Settled
  node : t.vol.node = update (update s.vol.node i y) dp x
  ref : t.ref = addRef (addRef s.ref (some dp)) (some i)
  parent : t.Valid dp
  addr : ∀ j n, j ≠ i → j ≠ dp ∨ s.vol.addr (j, n) ≠ 0 → t.vol.addr (j, n) = s.vol.addr (j, n)

namespace Making

variable (h : Making s dp i y x t) (hne : i ≠ dp)

include h hne

theorem new : t.vol.node i = y := by
  rw [h.node, update_of_ne hne, update_self]

omit hne in
theorem dir : t.vol.node dp = x := by rw [h.node, update_self]

omit hne in
theorem ref_new : t.ref i = addRef s.ref (some dp) i + 1 := by
  rw [h.ref, addRef_some _ i, update_self]

theorem ref_dir : t.ref dp = s.ref dp + 1 := by
  rw [h.ref, addRef_some _ i, update_of_ne (Ne.symm hne), addRef_some, update_self]

theorem changeNew (hv : t.Valid i) (hz : z.type ≠ 0) (hc : Changed i z t u) (hsp : Spread i t u) :
    Making s dp i z x u where
  settled := h.settled.changed hv hz hc
  node := by
    rw [hc.node, h.node, update_comm (Ne.symm hne), update_idem]
  ref := (hc.kept.ref (itable_of_valid hv)).trans h.ref
  parent := hc.kept.valid_of_ne (Ne.symm hne) h.parent
  addr j n hj hor := (hsp.others j n hj).trans (h.addr j n hj hor)

omit hne in
theorem changeDir (hz : z.type ≠ 0) (hc : Changed dp z t u) (hsp : Spread dp t u) :
    Making s dp i y z u where
  settled := h.settled.changed h.parent hz hc
  node := by rw [hc.node, h.node, update_idem]
  ref := (hc.kept.ref (itable_of_valid h.parent)).trans h.ref
  parent := hc.kept.valid h.parent
  addr j n hj hor := by
    have hold := h.addr j n hj hor
    by_cases hjd : j = dp
    · subst hjd
      have hs := hor.resolve_left (not_not.2 rfl)
      rw [hsp.same n (hold ▸ hs), hold]
    · rw [hsp.others j n hjd, hold]

theorem lock (hy : y.type ≠ 0) :
    Wp (ilock i) (fun _ u => u.Valid i ∧ Making s dp i y x u) (fun _ => True) t := by
  have hl : t.vol.Live i := by
    rw [live_iff_node, h.new hne]
    exact hy
  have he : t.itable i ≠ none := h.settled.ref_pos_iff.1 (by rw [h.ref_new]; exact Nat.succ_pos _)
  have hvol := h.settled.vol_load i
  refine Wp.of_run (ilock_run h.settled he hl) ⟨valid_load he, ?_⟩
  refine ⟨h.settled.load hl, by rw [hvol, h.node], by rw [ref_load, h.ref],
    h.parent.setEntry_of_ne (Ne.symm hne) _, fun j n hj hor => ?_⟩
  rw [hvol]
  exact h.addr j n hj hor

/-- A name is entered in the new file, which is a directory, if there is space. -/
theorem linkNew {num : ℕ} (hv : t.Valid i) (hdir : y.type = T_DIR) (hf : y.find name = none) :
    Tracks (Locking.dirlink i name num) (dirlink i name num) l (fun _ => l) (fun r u => u.Valid i ∧
      ∃ z, z.type = T_DIR ∧ Making s dp i z x u ∧
        (¬ r < 0 → y.Spare y.firstFree ∧ z = y.setSlot y.firstFree (newDirent name num))) t := by
  have hnew := h.new hne
  have hdir' : (t.vol.node i).type = T_DIR := by rw [hnew, hdir]
  have hwp := dirlink_wp h.settled hv hdir' name num
  rw [hnew, hf] at hwp
  refine Locking.dirlink_tracks h.settled hv hdir' (hwp.mono fun r u hu => ?_)
  obtain ⟨hspare, rfl, hsp, hc⟩ := hu
  refine ⟨hc.kept.valid hv, _, ?_, h.changeNew hne hv ?_ hc hsp, fun hr => ?_⟩
  · split_ifs <;> exact hdir
  · split_ifs <;> exact hdir ▸ by decide
  · split_ifs at hr ⊢ with hfit
    · exact ⟨hspare, rfl⟩
    · exact absurd (by decide) hr

omit hne in
/-- A name is entered in the directory, if there is space. -/
theorem linkDir {num : ℕ} (hdir : x.type = T_DIR) (hf : x.find name = none) (hv : t.Valid i)
    (hne : i ≠ dp) :
    Tracks (Locking.dirlink dp name num) (dirlink dp name num) l (fun _ => l) (fun r u => u.Valid i ∧
      if r < 0 then Making s dp i y x u
      else x.Spare x.firstFree ∧ Making s dp i y (x.setSlot x.firstFree (newDirent name num)) u) t := by
  have hnode := h.dir
  have hdir' : (t.vol.node dp).type = T_DIR := by rw [hnode, hdir]
  have hwp := dirlink_wp h.settled h.parent hdir' name num
  rw [hnode, hf] at hwp
  refine Locking.dirlink_tracks h.settled h.parent hdir' (hwp.mono fun r u hu => ?_)
  obtain ⟨hspare, rfl, hsp, hc⟩ := hu
  refine ⟨hc.kept.valid_of_ne hne hv, ?_⟩
  by_cases hfit : Fits t dp x.firstFree
  · simp only [if_pos hfit] at hc ⊢
    exact ⟨hspare, h.changeDir (by rw [show (x.setSlot _ _).type = x.type from rfl, hdir]; decide)
      hc hsp⟩
  · simp only [if_neg hfit] at hc ⊢
    exact h.changeDir (hdir ▸ by decide) hc hsp

theorem updateNew {f : Dinode → Dinode} {φ : ℤ → ℤ} (hv : t.Valid i) (hy : y.type ≠ 0)
    (hf : ∀ d, (f d).type = d.type ∧ (f d).size = d.size ∧ (f d).addrs = d.addrs ∧
      (f d).nlink = φ d.nlink) :
    Wp (updateInode i f) (fun _ u => u.Valid i ∧ Making s dp i { y with nlink := φ y.nlink } x u)
      (fun _ => False) t := by
  refine (updateInode_nlink h.settled hv hf).mono fun _ u hu => ?_
  rw [h.new hne] at hu
  exact ⟨hu.1.kept.valid hv, h.changeNew hne hv hy hu.1 hu.2⟩

omit hne in
theorem updateDir {f : Dinode → Dinode} {φ : ℤ → ℤ} (hv : t.Valid i) (hne : i ≠ dp) (hx : x.type ≠ 0)
    (hf : ∀ d, (f d).type = d.type ∧ (f d).size = d.size ∧ (f d).addrs = d.addrs ∧
      (f d).nlink = φ d.nlink) :
    Wp (updateInode dp f) (fun _ u => u.Valid i ∧ Making s dp i y { x with nlink := φ x.nlink } u)
      (fun _ => False) t := by
  refine (updateInode_nlink h.settled h.parent hf).mono fun _ u hu => ?_
  rw [h.dir] at hu
  exact ⟨hu.1.kept.valid_of_ne hne hv, h.changeDir hx hu.1 hu.2⟩

end Making

/-! ## The call fails -/

/-- **Nothing has been done.** Files and references are as before; blocks may have been attached to
the directory `o`, after its end or as its indirect block. -/
structure RolledBack (s : FsState P) (o : Option ℕ) (t : FsState P) : Prop where
  node : t.vol.node = s.vol.node
  ref : t.ref = s.ref
  addr : ∀ j n, t.vol.addr (j, n) ≠ s.vol.addr (j, n) → o = some j ∧ s.vol.addr (j, n) = 0 ∧
    (n = NDIRECT ∨ ∃ bn, n = blockSlot bn ∧ (s.vol.node j).size ≤ bn * BSIZE)

theorem Holding.rolledBack (h : Holding s none t) (o : Option ℕ) : RolledBack s o t := by
  refine ⟨by rw [h.vol], h.ref, fun j n hne => absurd ?_ hne⟩
  rw [h.vol]

/-- An address that is missing is that of the indirect block, or after the end of the file. -/
theorem missing_slot (h : s.vol.Owned) (hl : s.vol.Live j) (hn : n < NSLOT)
    (hz : s.vol.addr (j, n) = 0) :
    n = NDIRECT ∨ ∃ bn, n = blockSlot bn ∧ (s.vol.node j).size ≤ bn * BSIZE := by
  by_cases hind : n = NDIRECT
  · exact .inl hind
  obtain ⟨bn, rfl⟩ : ∃ bn, n = blockSlot bn := by
    unfold blockSlot
    by_cases hlt : n < NDIRECT
    · exact ⟨n, (if_pos hlt).symm⟩
    · exact ⟨n - 1, by rw [if_neg (by omega)]; omega⟩
  refine .inr ⟨bn, rfl, Nat.not_lt.1 fun hlt => h.cover j hl bn ?_ hz⟩
  rw [node_size hl] at hlt
  exact hlt

/-- What the call knows about the new inode and the directory. -/
structure Fit (s : FsState P) (dp i : ℕ) : Prop where
  ne : i ≠ dp
  dead : ¬ s.vol.Live i
  unused : s.itable i = none
  live : s.vol.Live dp
  stays : Stays s dp

namespace Fit

variable (hfit : Fit s dp i)

include hfit

theorem ref_eq_zero : s.ref i = 0 := ref_of_none hfit.unused

theorem node_eq_free : s.vol.node i = .free := if_neg hfit.dead

/-- The new inode is freed, and the reference to the directory dropped. -/
theorem rolledBack (hs : s.Settled) (h : Making s dp i y (s.vol.node dp) t) (hf : Freed i t u) :
    Wp (iput dp) (fun _ => RolledBack s (some dp)) (fun _ => True) u := by
  have hdi := Ne.symm hfit.ne
  have hnode : u.vol.node = s.vol.node := by
    rw [hf.node, h.node, update_comm hdi, update_idem, ← hfit.node_eq_free,
      update_eq_self, update_eq_self]
  have href : u.ref = addRef s.ref (some dp) := by
    have hzero : addRef s.ref (some dp) i = 0 := by
      rw [addRef_some, update_of_ne hfit.ne, hfit.ref_eq_zero]
    rw [hf.ref, h.ref, addRef_some _ i, update_idem, ← hzero, update_eq_self]
  have hrefdp : u.ref dp = s.ref dp + 1 := by rw [href, addRef_some, update_self]
  refine Wp.of_run (iput_stays hf.settled (by omega) fun hn => ?_) ⟨?_, ?_, fun j n hne => ?_⟩
  · rw [hnode] at hn
    have := hs.ref_pos_iff.2 (hfit.stays.resolve_left (not_not.2 hn))
    omega
  · rw [hf.settled.vol_put, hnode]
  · rw [ref_put, href, addRef_some, update_self, update_idem, Nat.add_sub_cancel, update_eq_self]
  · rw [hf.settled.vol_put] at hne
    have hlive : ∀ k, u.vol.Live k ↔ s.vol.Live k := fun k => by
      rw [live_iff_node, live_iff_node, hnode]
    have hji : j ≠ i := by
      rintro rfl
      rw [addr_of_not_live hfit.dead, addr_of_not_live (mt (hlive j).1 hfit.dead)] at hne
      exact hne rfl
    have hold : ¬ (j ≠ dp ∨ s.vol.addr (j, n) ≠ 0) := fun hor =>
      hne ((hf.addr j n hji).trans (h.addr j n hji hor))
    obtain ⟨hjd, hz⟩ := not_or.1 hold
    obtain rfl := not_not.1 hjd
    have hz := not_not.1 hz
    have hn : n < NSLOT := by
      by_contra hn
      refine hne ?_
      rw [hz]
      exact if_neg fun hc => hn hc.2
    exact ⟨rfl, hz, missing_slot hs.owned hfit.live hn hz⟩

/-! The locks of the two inodes. -/

theorem notMem : i ∉ (insert dp ∅ : Finset ℕ) := fun hi => by
  rw [Finset.mem_insert] at hi
  exact hi.elim hfit.ne (Finset.notMem_empty i)

theorem erase_new : (insert i (insert dp ∅) : Finset ℕ).erase i = insert dp ∅ :=
  Finset.erase_insert hfit.notMem

theorem erase_dir : (insert i (insert dp ∅) : Finset ℕ).erase dp = insert i ∅ := by
  rw [Finset.erase_insert_of_ne hfit.ne, Finset.erase_insert (Finset.notMem_empty dp)]

end Fit

theorem erase_self (i : ℕ) : (insert i ∅ : Finset ℕ).erase i = ∅ :=
    Finset.erase_insert (Finset.notMem_empty i)

theorem iunlockput_tracks {post : Unit → FsState P → Prop} {err : FsError → Prop} {l' : Finset ℕ}
    (hi : i ∈ l)
    (hl : l.erase i = l') (h : Wp (iput i) post err s) :
    Tracks (Locking.iunlockput i) (iput i) l (fun _ => l') post s := by
  subst hl
  exact ⟨Locking.iunlockput_follows hi s, h.mono_err fun _ _ => True.intro⟩

/-- **The label `fail`**: the new inode is freed. -/
theorem createFail_tracks (hs : s.Settled) (hfit : Fit s dp i) (h : Making s dp i y (s.vol.node dp) t)
    (hv : t.Valid i) (hy : y.type ≠ 0) :
    Tracks (Locking.createFail i dp) (createFail i dp) (insert i (insert dp ∅)) toFinset
      (fun r u => r = none ∧ RolledBack s (some dp) u) t := by
  refine (Tracks.lift (h.updateNew hfit.ne (f := fun d => { d with nlink := 0 }) (φ := fun _ => 0) hv hy
    fun _ => ⟨rfl, rfl, rfl, rfl⟩)).bind fun _ t1 h1 => ?_
  obtain ⟨hv1, h1⟩ := h1
  have hone : t1.ref i = 1 := by
    rw [h1.ref_new, addRef_some, update_of_ne hfit.ne, hfit.ref_eq_zero]
  have hzero : (t1.vol.node i).nlink = 0 := by rw [h1.new hfit.ne]
  refine (iunlockput_tracks (Finset.mem_insert_self i _) hfit.erase_new
    (iput_free h1.settled hv1 hone hzero)).bind fun _ t2 hf => ?_
  refine (iunlockput_tracks (Finset.mem_insert_self dp _) (erase_self dp)
    (hfit.rolledBack hs h1 hf)).bind fun _ t3 h3 => ?_
  exact Tracks.pure rfl ⟨rfl, h3⟩

/-! ## The call succeeds -/

def entered (x : Node) (name : List UInt8) (i : ℕ) (type : ℤ) : Node :=
  { x.setSlot x.firstFree (newDirent name i) with
    nlink := if type = T_DIR then short (x.nlink + 1) else x.nlink }

theorem entered_dir (ht : type = T_DIR) : entered x name i type =
    { x.setSlot x.firstFree (newDirent name i) with
      nlink := short ((x.setSlot x.firstFree (newDirent name i)).nlink + 1) } := by
  unfold entered
  rw [if_pos ht]
  rfl

theorem entered_file (ht : type ≠ T_DIR) :
    entered x name i type = x.setSlot x.firstFree (newDirent name i) := by
  unfold entered
  rw [if_neg ht]
  rfl

/-- **The file has been made.** The directory itself is gone if its link count is 0 now and nobody
else holds it. -/
structure Made (s : FsState P) (dp i : ℕ) (name : List UInt8) (type : ℤ) (t : FsState P) : Prop where
  valid : t.Valid i
  ref : t.ref = addRef s.ref (some i)
  spare : (s.vol.node dp).Spare (s.vol.node dp).firstFree
  node : ∃ y, IsNew type i dp y ∧ t.vol.node = update (update s.vol.node i y) dp
    (if (entered (s.vol.node dp) name i type).nlink = 0 ∧ s.itable dp = none then .free
      else entered (s.vol.node dp) name i type)

theorem addRef_drop (r : ℕ → ℕ) (hne : i ≠ dp) :
    update (addRef (addRef r (some dp)) (some i)) dp (r dp) = addRef r (some i) := by
  rw [addRef_some, addRef_some, addRef_some, update_of_ne hne, update_comm hne,
    update_idem, update_eq_self]

theorem createDone_tracks (hs : s.Settled) (hfit : Fit s dp i)
    (hspare : (s.vol.node dp).Spare (s.vol.node dp).firstFree) (hy : IsNew type i dp y)
    (h : Making s dp i y (entered (s.vol.node dp) name i type) t) (hv : t.Valid i) :
    Tracks (Locking.createDone i dp) (createDone i dp) (insert i (insert dp ∅)) toFinset
      (fun r u => r = some i ∧ Made s dp i name type u) t := by
  have hdp : dp ∈ (insert i (insert dp ∅) : Finset ℕ) :=
    Finset.mem_insert_of_mem (Finset.mem_insert_self dp ∅)
  have hrefdp := h.ref_dir hfit.ne
  have hput : Wp (iput dp) (fun _ u => Made s dp i name type u) (fun _ => False) t := by
    by_cases hgone : (entered (s.vol.node dp) name i type).nlink = 0 ∧ s.itable dp = none
    · -- the link count has wrapped around
      have hone : t.ref dp = 1 := by rw [hrefdp, ref_of_none hgone.2]
      have hzero : (t.vol.node dp).nlink = 0 := by rw [h.dir, hgone.1]
      refine (iput_free h.settled h.parent hone hzero).mono fun _ u hf => ?_
      obtain ⟨e, he, hval⟩ := hv
      refine ⟨⟨e, (hf.itable i hfit.ne).trans he, hval⟩, ?_, hspare, y, hy, ?_⟩
      · rw [hf.ref, h.ref, ← ref_of_none hgone.2, addRef_drop _ hfit.ne]
      · rw [if_pos hgone, hf.node, h.node, update_idem]
    · refine Wp.of_run (iput_stays h.settled (by omega) fun hn => ?_) ⟨?_, ?_, hspare, y, hy, ?_⟩
      · rw [h.dir] at hn
        have := hs.ref_pos_iff.2 fun hnone => hgone ⟨hn, hnone⟩
        omega
      · exact hv.setEntry_of_ne hfit.ne _
      · rw [ref_put, hrefdp, h.ref, Nat.add_sub_cancel, addRef_drop _ hfit.ne]
      · rw [if_neg hgone, h.settled.vol_put, h.node]
  refine (iunlockput_tracks hdp hfit.erase_dir hput).bind fun _ u hu => ?_
  exact Tracks.pure rfl ⟨rfl, hu⟩

/-- `"."` and `".."` are entered in a new directory. -/
theorem dirInit_tracks (hne : i ≠ dp) (ht : type ≠ 0) (h : Making s dp i ⟨type, 1, 0, fun _ => 0⟩ x t)
    (hv : t.Valid i) :
    Tracks (Locking.dirInit type i dp) (dirInit type i dp) l (fun _ => l) (fun b u => u.Valid i ∧
      ∃ y, y.type ≠ 0 ∧ Making s dp i y x u ∧ (b = true → IsNew type i dp y)) t := by
  refine Tracks.ite (fun hdir => ?_) fun hdir => ?_
  · subst hdir
    have hdir0 : T_DIR ≠ 0 := by decide
    have hempty : (⟨T_DIR, 1, 0, fun _ => 0⟩ : Node).firstFree = 0 := rfl
    have hdot : (⟨T_DIR, 1, 0, fun _ => 0⟩ : Node).find dot = none := rfl
    refine (h.linkNew hne hv rfl hdot).bind fun r1 t1 h1 => ?_
    obtain ⟨hv1, y1, hty1, h1, hy1⟩ := h1
    refine Tracks.ite (fun _ => Tracks.pure rfl ⟨hv1, y1, hty1 ▸ hdir0, h1, nofun⟩) fun hr1 => ?_
    obtain ⟨hspare1, rfl⟩ := hy1 hr1
    rw [hempty] at h1 hspare1
    -- the first entry is not `".."`
    have hnot : ¬ (newDirent dot i).Named dotdot := fun hn => by
      have hkey := namecmp_eq_zero_iff.1 hn.2
      rw [show (newDirent dot i).name = strncpy dot DIRSIZ from rfl, cstring_strncpy] at hkey
      exact absurd hkey (by decide)
    have hf : ((⟨T_DIR, 1, 0, fun _ => 0⟩ : Node).setSlot 0 (newDirent dot i)).find dotdot = none :=
      (Node.find_setSlot_of_not_named (newDirent_wf _ _) hspare1 hnot).trans rfl
    refine (h1.linkNew hne hv1 rfl hf).bind fun r2 t2 h2 => ?_
    obtain ⟨hv2, y2, hty2, h2, hy2⟩ := h2
    refine Tracks.ite (fun _ => Tracks.pure rfl ⟨hv2, y2, hty2 ▸ hdir0, h2, nofun⟩) fun hr2 => ?_
    obtain ⟨hspare2, rfl⟩ := hy2 hr2
    exact Tracks.pure rfl ⟨hv2, _, hdir0, h2, fun _ => .inl ⟨rfl, _, hspare2, rfl⟩⟩
  · exact Tracks.pure rfl ⟨hv, _, ht, h, fun _ => .inr ⟨hdir, rfl⟩⟩

/-- **The part of `create` after `ialloc`.** -/
theorem createNew_tracks {major minor : ℤ} (hs : s.Settled) (hfit : Fit s dp i)
    (hdir : (s.vol.node dp).type = T_DIR) (hf : (s.vol.node dp).find name = none) (ht : type ≠ 0)
    (h : Making s dp i ⟨type, 0, 0, fun _ => 0⟩ (s.vol.node dp) t) :
    Tracks (Locking.createNew i dp name type major minor) (createNew i dp name type major minor)
      (insert dp ∅) toFinset (fun r u => match r with
        | none => RolledBack s (some dp) u
        | some j => j = i ∧ Made s dp i name type u) t := by
  have hnone : ∀ {r : Option ℕ} {u : FsState P}, r = none ∧ RolledBack s (some dp) u → match r with
      | none => RolledBack s (some dp) u
      | some j => j = i ∧ Made s dp i name type u := by
    rintro r u ⟨rfl, hu⟩
    exact hu
  have hsome : ∀ {r : Option ℕ} {u : FsState P}, r = some i ∧ Made s dp i name type u → match r with
      | none => RolledBack s (some dp) u
      | some j => j = i ∧ Made s dp i name type u := by
    rintro r u ⟨rfl, hu⟩
    exact ⟨rfl, hu⟩
  refine Tracks.bind ⟨Locking.ilock_follows hfit.notMem t, h.lock hfit.ne ht⟩ fun _ t1 h1 => ?_
  obtain ⟨hv1, h1⟩ := h1
  have hwrite := h1.updateNew hfit.ne (φ := fun _ => 1)
    (f := fun d => { d with major := short major, minor := short minor, nlink := 1 }) hv1 ht
    fun _ => ⟨rfl, rfl, rfl, rfl⟩
  refine (Tracks.lift hwrite).bind fun _ t2 h2 => ?_
  obtain ⟨hv2, h2⟩ := h2
  refine (dirInit_tracks hfit.ne ht h2 hv2).bind fun b t3 h3 => ?_
  obtain ⟨hv3, y, hy, h3, hnew⟩ := h3
  refine Tracks.ite (fun _ => (createFail_tracks hs hfit h3 hv3 hy).mono fun _ _ => hnone) fun hb => ?_
  have hnew := hnew (not_not.1 hb)
  refine (h3.linkDir hdir hf hv3 hfit.ne).bind fun r t4 h4 => ?_
  obtain ⟨hv4, h4⟩ := h4
  refine Tracks.ite (fun hr => ?_) fun hr => ?_
  · rw [if_pos hr] at h4
    exact (createFail_tracks hs hfit h4 hv4 hy).mono fun _ _ => hnone
  rw [if_neg hr] at h4
  obtain ⟨hspare, h4⟩ := h4
  refine Tracks.ite (fun htd => ?_) fun htd => ?_
  · have htype : ((s.vol.node dp).setSlot (s.vol.node dp).firstFree (newDirent name i)).type ≠ 0 := by
      rw [show ((s.vol.node dp).setSlot _ _).type = (s.vol.node dp).type from rfl, hdir]
      decide
    have hraise := h4.updateDir (f := fun d => { d with nlink := short (d.nlink + 1) })
      (φ := fun n => short (n + 1)) hv4 hfit.ne htype fun _ => ⟨rfl, rfl, rfl, rfl⟩
    refine (Tracks.lift hraise).bind fun _ t5 h5 => ?_
    obtain ⟨hv5, h5⟩ := h5
    rw [← entered_dir htd] at h5
    exact (createDone_tracks hs hfit hspare hnew h5 hv5).mono fun _ _ => hsome
  · rw [← entered_file htd] at h4
    exact (createDone_tracks hs hfit hspare hnew h4 hv4).mono fun _ _ => hsome

/-! ## Allocating the inode -/

/-- An inode that is free has no entry in the table. -/
theorem Ready.fit (hr : Ready s p c path) (hl : s.vol.Live dp) (hst : Stays s dp)
    (hi : ¬ s.vol.Live i) :
    Fit s dp i where
  ne := fun he => hi (he ▸ hl)
  dead := hi
  unused := not_not.1 (mt (hr.used i) hi)
  live := hl
  stays := hst

/-- The state in which the inode has been allocated and referenced. -/
theorem Holding.making (h : Holding s (some dp) t) (hv : t.Valid dp) (hfit : Fit s dp i)
    (hlt : i < t.sb.ninodes) (hz : (t.dinode i).type = 0) (ht : type ≠ 0) (l : List ℕ) :
    Making s dp i ⟨type, 0, 0, fun _ => 0⟩ (s.vol.node dp)
      (((t.setDinode i (.fresh type)).setLogged l).take i) := by
  obtain ⟨hsett, hvol, hnode⟩ := h.settled.alloc hlt hz ht l
  refine ⟨hsett.take i, ?_, ?_, hv.take i, fun j n hj _ => ?_⟩
  · have hdp : update s.vol.node i ⟨type, 0, 0, fun _ => 0⟩ dp = s.vol.node dp :=
      update_of_ne (Ne.symm hfit.ne) ..
    rw [hsett.vol_take, hnode, h.vol]
    exact (update_eq_self_iff.2 hdp.symm).symm
  · rw [ref_take, addRef_some _ i, ← h.ref]
    rfl
  · rw [hsett.vol_take, hvol, addr_setInode_of_ne hj, h.vol]

theorem ilock_type_zero (hnone : t.itable i = none) (hlt : i < t.sb.ninodes) (l : List ℕ) :
    (ilock i).run (((t.setDinode i (.fresh 0)).setLogged l).take i) = .error .ilockNoType := by
  have hentry : (((t.setDinode i (.fresh 0)).setLogged l).take i).itable i =
    some ⟨1, false, .fresh 0⟩ := by
    unfold FsState.take
    rw [setEntry_itable_self, show ((t.setDinode i (.fresh 0)).setLogged l).itable i = none from hnone]
    rfl
  have hzero : ((((t.setDinode i (.fresh 0)).setLogged l).take i).dinode i).type = 0 := by
    show (update t.dinode i (.fresh 0) i).type = 0
    rw [update_self]
    rfl
  unfold ilock
  rw [Wp.run_bind_eq (entry_run hentry), if_neg Bool.false_ne_true, Wp.run_bind_eq (m := get) rfl]
  rw [if_pos (show i < (((t.setDinode i (.fresh 0)).setLogged l).take i).sb.ninodes from hlt),
    if_pos hzero]
  rfl

/-- **`ialloc` gives an inode that was free.** If the type is 0, it still is. -/
theorem ialloc_wp (hr : Ready s p c path) (hl : s.vol.Live dp) (hst : Stays s dp)
    (h : Holding s (some dp) t) (hv : t.Valid dp) (type : ℤ) :
    Wp (ialloc type) (fun r u => match r with
      | none => u = t
      | some i => i ≠ 0 ∧ i < s.sb.ninodes ∧ Fit s dp i ∧
          if type = 0 then (ilock i).run u = .error .ilockNoType
          else Making s dp i ⟨type, 0, 0, fun _ => 0⟩ (s.vol.node dp) u) (fun _ => True) t := by
  have hsb : t.sb = s.sb := by rw [h.rest]
  refine Wp.get_bind ?_
  cases hf : (range t.sb.ninodes).find? fun i => decide (1 ≤ i ∧ (t.dinode i).type = 0) with
  | none => exact Wp.pure rfl
  | some i =>
    have hlt := mem_range.1 (mem_of_find?_eq_some hf)
    have hfree : 1 ≤ i ∧ (t.dinode i).type = 0 := by simpa using find?_some hf
    have hfit : Fit s dp i := hr.fit hl hst (by rw [← h.vol]; exact h.settled.not_live_of_type hfree.2)
    have hnone : t.itable i = none := by
      by_contra hne
      have hpos := h.settled.ref_pos_iff.2 hne
      rw [h.ref, addRef_some, update_of_ne hfit.ne, hfit.ref_eq_zero] at hpos
      exact Nat.lt_irrefl 0 hpos
    refine Wp.set_bind (Wp.modify_bind (((iget_room _ i).mono_err fun _ _ => True.intro).bind
      fun _ u hu => Wp.pure ⟨by omega, hsb ▸ hlt, hfit, ?_⟩))
    obtain ⟨-, rfl⟩ := hu
    split_ifs with ht
    · subst ht
      exact ilock_type_zero hnone hlt _
    · exact h.making hv hfit hlt hfree.2 ht _

/-! ## The whole call -/

/-- Where the path leads, but for its last component. -/
theorem of_walk_parent (h : walk s.vol.node true (components path) (pathStart path c) =
    some (dp, name)) :
    resolve s.vol.node (components path).dropLast (pathStart path c) = some dp ∧
      (components path).getLast? = some name ∧ (s.vol.node dp).type = T_DIR := by
  rw [walk_true] at h
  unfold resolveParent at h
  obtain ⟨last, hlast, h⟩ := bind_eq_some_iff.1 h
  obtain ⟨d, hd, h⟩ := bind_eq_some_iff.1 h
  split_ifs at h with hdir
  obtain ⟨rfl, rfl⟩ := Prod.mk.inj (some.inj h)
  exact ⟨hd, hlast, hdir⟩

section

variable (hr : Ready s p c path)
  (hw : walk s.vol.node true (components path) (pathStart path c) = some (dp, name))

include hr hw

theorem Ready.stays_found (hj : lookupIn s.vol.node dp name = some j) (hl : s.vol.Live j) :
    Stays s j := by
  refine hr.stays (components path) [] (append_nil _).symm j ?_ hl
  obtain ⟨-, hlast, -⟩ := of_walk_parent hw
  rw [resolve_eq_parent (fun hnil => by rw [hnil] at hlast; contradiction), ← walk_true, hw]
  exact hj

theorem Ready.stays_parent : Stays s dp := by
  obtain ⟨hd, hlast, hdir⟩ := of_walk_parent hw
  refine hr.stays (components path).dropLast [name] ?_ dp hd ?_
  · exact (dropLast_append_getLast? name hlast).symm
  · rw [live_iff_node, hdir]
    decide

end

/-- What `create` has done when it returns `r`. -/
def Outcome (s : FsState P) (path : List UInt8) (c : ℕ) (type : ℤ) (r : Option ℕ) (t : FsState P) :
    Prop :=
  match r with
  | none => RolledBack s ((resolveParent s.vol.node (components path) (pathStart path c)).map
      Prod.fst) t
  | some i => ∃ dp name, resolveParent s.vol.node (components path) (pathStart path c) =
      some (dp, name) ∧
      match lookupIn s.vol.node dp name with
      | some j => j = i ∧ type = T_FILE ∧ ((s.vol.node i).type = T_FILE ∨ (s.vol.node i).type =
          T_DEVICE) ∧
          t.Valid i ∧ Holding s (some i) t
      | none => i ≠ 0 ∧ i < s.sb.ninodes ∧ Fit s dp i ∧ Made s dp i name type t

/-- Inode `i` is referenced, locked and read, if it is allocated. -/
theorem Holding.lock (h : Holding s (some i) t) :
    Wp (ilock i) (fun _ u => s.vol.Live i ∧ u.Valid i ∧ Holding s (some i) u) (fun _ => True) t := by
  refine ((ilock_wp h.settled h.itable_ne_none).mono fun _ u hu => ?_).mono_err fun _ _ => True.intro
  obtain ⟨hl, rfl⟩ := hu
  rw [h.vol] at hl
  exact ⟨hl, valid_load h.itable_ne_none, h.load hl⟩

theorem Holding.unlockput (hs : s.Settled) (h : Holding s (some i) t) (hst : Stays s i) (o : Option ℕ) :
    Tracks (Locking.iunlockput i) (iput i) (insert i ∅) (fun _ => ∅) (fun _ => RolledBack s o) t := by
  have hput : Wp (iput i) (fun _ => RolledBack s o) (fun _ => True) t :=
    Wp.of_run (Holding.iput_run hs hst h.ref_self.ge h.settled h.vol) (h.put.rolledBack o)
  exact iunlockput_tracks (Finset.mem_insert_self i ∅) (erase_self i) hput

theorem createFound_tracks (hs : s.Settled) (hst : Stays s dp) (hsti : s.vol.Live i → Stays s i)
    (h : Holding s (some dp) t) (type : ℤ) :
    Tracks (do
        Locking.iunlockput dp
        Locking.ilock i
        let ip ← liftBeside (inode i)
        if type = T_FILE ∧ (ip.type = T_FILE ∨ ip.type = T_DEVICE) then pure (some i)
        else do
          Locking.iunlockput i
          pure none)
      (do
        iput dp
        ilock i
        let ip ← inode i
        if type = T_FILE ∧ (ip.type = T_FILE ∨ ip.type = T_DEVICE) then pure (some i)
        else do
          iput i
          pure none) (insert dp ∅) toFinset (fun r u => match r with
        | none => RolledBack s (some dp) u
        | some j => j = i ∧ type = T_FILE ∧ ((s.vol.node i).type = T_FILE ∨ (s.vol.node i).type =
            T_DEVICE) ∧
            u.Valid i ∧ Holding s (some i) u) (t.take i) := by
  have hput := Holding.iput_run (u := t.take i) hs hst (le_trans h.ref_self.ge (le_ref_take _ _ _))
    (h.settled.take i) ((h.settled.vol_take i).trans h.vol)
  have hnext : Wp (iput dp) (fun _ u => Holding s (some i) u) (fun _ => True) (t.take i) :=
    Wp.of_run hput (h.next i)
  refine (iunlockput_tracks (Finset.mem_insert_self dp ∅) (erase_self dp) hnext).bind fun _ t1 h1 => ?_
  refine Tracks.bind ⟨Locking.ilock_follows (Finset.notMem_empty i) t1, h1.lock⟩ fun _ t2 h2 => ?_
  obtain ⟨hl, hv2, h2⟩ := h2
  have hinode : Wp (inode i) (fun ip u => u = t2 ∧ ip.type = (s.vol.node i).type)
    (fun _ => True) t2 := by
    refine Wp.of_run (inode_run hv2) ⟨rfl, ?_⟩
    rw [type_eq h2.settled hv2, h2.vol]
  refine (Tracks.lift hinode).bind fun ip t3 h3 => ?_
  obtain ⟨rfl, hty⟩ := h3
  rw [hty]
  refine Tracks.ite (fun hfile => Tracks.pure rfl ⟨rfl, hfile.1, hfile.2, hv2, h2⟩) fun _ => ?_
  exact (h2.unlockput hs (hsti hl) (some dp)).bind fun _ u hu => Tracks.pure rfl hu

theorem create_tracks (hr : Ready s p c path) (type major minor : ℤ) :
    Tracks (Locking.create p path type major minor) (create p path type major minor) ∅ toFinset
      (Outcome s path c type) s := by
  have hs := hr.settled
  have hparent : Wp (nameiparent p path) (fun r t => r = walk s.vol.node true (components path)
      (pathStart path c) ∧ Holding s (r.map Prod.fst) t) (fun _ => True) s :=
    (namex_wp hs hr.cwd hr.held path true fun l name r hl j hj hlive =>
      hr.stays l (name :: r) hl j hj hlive).mono_err fun _ _ => True.intro
  refine Tracks.bind ⟨Locking.namex_follows p path true s, hparent⟩ fun r t1 h1 => ?_
  obtain ⟨hw, h1⟩ := h1
  have hres := walk_true (v := s.vol.node) (components path) (pathStart path c)
  cases r with
  | none =>
    refine Tracks.pure rfl ?_
    unfold Outcome
    exact h1.rolledBack _
  | some x =>
    obtain ⟨dp, name⟩ := x
    have hst := hr.stays_parent hw.symm
    have hdir := (of_walk_parent hw.symm).2.2
    have hl : s.vol.Live dp := live_iff_node.2 (by rw [hdir]; decide)
    have hnone : ∀ u, RolledBack s (some dp) u → Outcome s path c type none u := fun u hu => by
      unfold Outcome
      rw [← hres, ← hw]
      exact hu
    refine Tracks.bind ⟨Locking.ilock_follows (Finset.notMem_empty dp) t1, h1.lock⟩ fun _ t2 h2 => ?_
    obtain ⟨-, hv2, h2⟩ := h2
    have hlookup := dirlookup_wp h2.settled hv2 (h2.vol.symm ▸ hdir) name
    rw [h2.vol] at hlookup
    refine (Tracks.lift hlookup).bind fun r t3 h3 => ?_
    cases hf : (s.vol.node dp).find name with
    | some k =>
      rw [hf] at h3
      obtain ⟨-, rfl, rfl⟩ := h3
      have hfound : lookupIn s.vol.node dp name = some ((s.vol.node dp).slot k).inum := by
        unfold lookupIn
        rw [if_pos hdir, hf]
        rfl
      refine (createFound_tracks hs hst (hr.stays_found hw.symm hfound) h2 type).mono fun r u hu => ?_
      cases r with
      | none => exact hnone u hu
      | some i =>
        obtain ⟨rfl, hu⟩ := hu
        refine ⟨dp, name, by rw [← hres, ← hw], ?_⟩
        rw [hfound]
        exact ⟨rfl, hu⟩
    | none =>
      rw [hf] at h3
      obtain ⟨rfl, rfl⟩ := h3
      have hunbound : lookupIn s.vol.node dp name = none := by
        unfold lookupIn
        rw [if_pos hdir, hf]
        rfl
      refine (Tracks.lift (ialloc_wp hr hl hst h2 hv2 type)).bind fun r t4 h4 => ?_
      cases r with
      | none =>
        obtain rfl : t4 = t3 := h4
        exact (h2.unlockput hs hst (some dp)).bind fun _ u hu => Tracks.pure rfl (hnone u hu)
      | some i =>
        obtain ⟨h0, hlt, hfit, h4⟩ := h4
        split_ifs at h4 with ht
        · exact Tracks.bind_error (Locking.ilock_follows hfit.notMem t4) h4
        · refine (createNew_tracks hs hfit hdir hf ht h4).mono fun r u hu => ?_
          cases r with
          | none => exact hnone u hu
          | some j =>
            obtain ⟨rfl, hu⟩ := hu
            refine ⟨dp, name, by rw [← hres, ← hw], ?_⟩
            rw [hunbound]
            exact ⟨h0, hlt, hfit, hu⟩

/-! ## What has been made -/

/-- **A new file**: inode `i`, which was free, is bound to the name. It has one link, and if it is a
directory its `"."` and `".."` are right and the link count of the directory is one higher. -/
structure Fresh (s : FsState P) (dp i : ℕ) (name : List UInt8) (type : ℤ) (t : FsState P) : Prop where
  free : ¬ s.vol.Live i
  type_eq : (t.vol.node i).type = type
  nlink : (t.vol.node i).nlink = 1
  bound : lookupIn t.vol.node dp name = some i
  parent : (t.vol.node dp).nlink = (s.vol.node dp).nlink + if type = T_DIR then 1 else 0
  dots : type = T_DIR → lookupIn t.vol.node i dot = some i ∧ lookupIn t.vol.node i dotdot = some dp
  names : ∀ name', cstring name' DIRSIZ ≠ cstring name DIRSIZ →
    lookupIn t.vol.node dp name' = lookupIn s.vol.node dp name'
  others : ∀ j, j ≠ i → j ≠ dp → t.vol.node j = s.vol.node j

theorem newDirent_named (h0 : i ≠ 0) (hlt : i < 2 ^ 16) (name : List UInt8) :
    (newDirent name i).Named name := by
  refine ⟨?_, namecmp_eq_zero_iff.2 (cstring_strncpy name DIRSIZ).symm⟩
  show i % 2 ^ 16 ≠ 0
  rwa [Nat.mod_eq_of_lt hlt]

theorem newDirent_not_named {name' : List UInt8} (h : cstring name' DIRSIZ ≠ cstring name DIRSIZ)
    (i : ℕ) :
    ¬ (newDirent name i).Named name' := fun hn =>
  h ((namecmp_eq_zero_iff.1 hn.2).trans (cstring_strncpy name DIRSIZ))

theorem IsNewDir.lookups (h : IsNewDir i dp y) (hi : i ≠ 0) (hi' : i < 2 ^ 16) (hd : dp ≠ 0)
    (hd' : dp < 2 ^ 16) :
    (y.find dot).map (fun k => (y.slot k).inum) = some i ∧
    (y.find dotdot).map (fun k => (y.slot k).inum) = some dp := by
  obtain ⟨k, hspare, rfl⟩ := h
  have hempty : (⟨T_DIR, 1, 0, fun _ => 0⟩ : Node).Spare 0 := .inr rfl
  have hne : cstring dot DIRSIZ ≠ cstring dotdot DIRSIZ := by decide
  constructor
  · rw [lookup_setSlot_of_not_named (newDirent_wf _ _) hspare (newDirent_not_named hne dp),
      lookup_setSlot_self (newDirent_wf _ _) hempty (newDirent_named hi hi' dot) rfl]
    exact congrArg some (Nat.mod_eq_of_lt hi')
  · have hf := (Node.find_setSlot_of_not_named (newDirent_wf dot i) hempty
      (newDirent_not_named (Ne.symm hne) i)).trans rfl
    rw [lookup_setSlot_self (newDirent_wf _ _) hspare (newDirent_named hd hd' dotdot) hf]
    exact congrArg some (Nat.mod_eq_of_lt hd')

theorem IsNew.fields (h : IsNew type i dp y) : y.type = type ∧ y.nlink = 1 := by
  rcases h with ⟨rfl, k, -, rfl⟩ | ⟨-, rfl⟩ <;> exact ⟨rfl, rfl⟩

/-- **What has been made is a new file.** -/
theorem Made.fresh (h : Made s dp i name type t) (hfit : Fit s dp i)
    (hdir : (s.vol.node dp).type = T_DIR)
    (hf : (s.vol.node dp).find name = none) (hi : i ≠ 0) (hi' : i < 2 ^ 16) (hd : dp ≠ 0)
    (hd' : dp < 2 ^ 16) (hnl : 0 ≤ (s.vol.node dp).nlink) (hnl' : (s.vol.node dp).nlink + 1 < 2 ^ 15) :
    Fresh s dp i name type t := by
  obtain ⟨y, hy, hnode⟩ := h.node
  obtain ⟨hty, hyn⟩ := hy.fields
  have hti : t.vol.node i = y := by rw [hnode, update_of_ne hfit.ne, update_self]
  have hxty : (entered (s.vol.node dp) name i type).type = T_DIR := hdir
  have hx : (entered (s.vol.node dp) name i type).nlink =
      (s.vol.node dp).nlink + if type = T_DIR then 1 else 0 := by
    unfold entered
    split_ifs
    · exact short_eq (by omega) hnl'
    · exact (add_zero _).symm
  -- the directory is not freed when it is released
  have hstays : ¬ ((entered (s.vol.node dp) name i type).nlink = 0 ∧ s.itable dp = none) := by
    rintro ⟨hz, hnone⟩
    rw [hx] at hz
    split_ifs at hz
    · omega
    · rw [add_zero] at hz
      exact hfit.stays.elim (fun hne => hne hz) fun hne => hne hnone
  have htd : t.vol.node dp = entered (s.vol.node dp) name i type := by
    rw [hnode, update_self, if_neg hstays]
  refine ⟨hfit.dead, by rw [hti, hty], by rw [hti, hyn], ?_, by rw [htd, hx], fun ht => ?_,
    fun name' hne => ?_, fun j hj hjd => ?_⟩
  · unfold lookupIn
    rw [htd, if_pos hxty]
    refine (lookup_setSlot_self (newDirent_wf _ _) h.spare (newDirent_named hi hi' name) hf).trans ?_
    exact congrArg some (Nat.mod_eq_of_lt hi')
  · unfold lookupIn
    rw [hti, if_pos (hty.trans ht), if_pos (hty.trans ht)]
    exact IsNewDir.lookups (hy.resolve_right fun hn => hn.1 ht).2 hi hi' hd hd'
  · unfold lookupIn
    rw [htd, if_pos hxty, if_pos hdir]
    exact lookup_setSlot_of_not_named (newDirent_wf _ _) h.spare (newDirent_not_named hne i)
  · rw [hnode, update_of_ne hjd, update_of_ne hj]

end Fs

open Fs

/-- **`create` is all or nothing.** With the locks of inodes it does what it does without them, and
holds in the end the lock of the inode that it returns, and no other. If it returns 0, files and
references are as before, but that blocks may have been attached to the directory, after its end or
as its indirect block. If it returns an inode, there is one reference more to it, and it is the one
that the name was bound to before, which is a file or a device and a file was asked for; or it is
new, and bound to the name. -/
theorem create_all_or_nothing {P : Type} {s : FsState P} {p : P} {c : ℕ} {path : List UInt8}
    (hr : Ready s p c path) (type major minor : ℤ) :
    (Locking.create p path type major minor).run (s, ∅) =
      beside toFinset ((create p path type major minor).run s) ∧
    ∀ r t, (create p path type major minor).run s = .ok (r, t) → match r with
      | none => RolledBack s ((resolveParent s.vol.node (components path) (pathStart path c)).map
          Prod.fst) t
      | some i => ∃ dp name, resolveParent s.vol.node (components path) (pathStart path c) =
          some (dp, name) ∧
          t.Valid i ∧ t.ref = addRef s.ref (some i) ∧
          match lookupIn s.vol.node dp name with
          | some j => j = i ∧ type = T_FILE ∧ ((s.vol.node i).type = T_FILE ∨ (s.vol.node i).type =
              T_DEVICE) ∧
              t.vol.node = s.vol.node
          | none => Fresh s dp i name type t := by
  have h := create_tracks hr type major minor
  refine ⟨h.follows, fun r t hrun => ?_⟩
  have hpost := h.wp.post_of_run hrun
  cases r with
  | none => exact hpost
  | some i =>
    obtain ⟨dp, name, hres, hpost⟩ := hpost
    refine ⟨dp, name, hres, ?_⟩
    rw [← walk_true] at hres
    obtain ⟨-, -, hdir⟩ := of_walk_parent hres
    cases hfound : lookupIn s.vol.node dp name with
    | some j =>
      rw [hfound] at hpost
      obtain ⟨rfl, hty, hfile, hv, hold⟩ := hpost
      exact ⟨hv, hold.ref, rfl, hty, hfile, by rw [hold.vol]⟩
    | none =>
      rw [hfound] at hpost
      obtain ⟨h0, hlt, hfit, hmade⟩ := hpost
      have hf : (s.vol.node dp).find name = none := by
        unfold lookupIn at hfound
        rw [if_pos hdir] at hfound
        exact map_eq_none_iff.1 hfound
      have hd0 : dp ≠ 0 := fun h0 => hr.zero (h0 ▸ hfit.live)
      exact ⟨hmade.valid, hmade.ref, hmade.fresh hfit hdir hf h0 (lt_of_lt_of_le hlt hr.ninodes) hd0
        (lt_of_lt_of_le hfit.live.1 hr.ninodes) (hr.links dp hdir).1 (hr.nlink_lt hdir)⟩

/-! ## Reached states -/

/-- **Between system calls `create` can be called**, in every run as in `links_exact` from an image in
which every allocated inode has a link. -/
theorem ready_of_reaches {P : Type} [DecidableEq P] [Fintype P] {img : Volume} {init p : P}
    {s : FsState P} {c : ℕ} (h : img.WellFormed) (hl : img.Linked)
    (hs : Transition.Reaches FsCall.step FsCall.Proper (.boot img init) s)
    (hc : (s.proc p).cwd = some c) (path : List UInt8) : Ready s p c path := by
  obtain ⟨g, ⟨hrep, hq, hsb, htidy⟩, hlinks⟩ := running_links h hs
  have hheld : ∀ i, s.itable i ≠ none → ∃ x, g.pts x = some i := fun i hi => by
    have href := hrep.settled.ref_pos_iff.2 hi
    rw [← hrep.refs i] at href
    refine (Afs.held_iff.2 href).resolve_left fun hm => ?_
    rw [hq.tmp] at hm
    exact absurd hm (Multiset.notMem_zero i)
  refine ⟨hrep.settled, hc, ?_, fun i hi => ?_, fun l r _ j _ hj => ?_, fun h0 => ?_, ?_, fun d hd => ?_⟩
  · refine itable_of_valid (hrep.held (.inl p) c ?_)
    rw [hq.cwd, ← hrep.proc]
    exact hc
  · obtain ⟨x, hx⟩ := hheld i hi
    exact hrep.live i (hrep.held x i hx)
  · by_cases hnl : (s.vol.node j).nlink = 0
    · have hty := live_iff_node.1 hj
      rw [hrep.node] at hnl hty
      obtain ⟨e, he⟩ := hrep.entry_of_held (hrep.orphans j (htidy ▸ hl) hty hnl)
      exact .inr (by rw [he]; exact some_ne_none e)
    · exact .inl hnl
  · rw [live_iff_node, hrep.node] at h0
    exact ((hlinks.node 0).inum h0).1 rfl
  · rw [hrep.sb, hsb]
    exact h.ninodes
  · rw [hrep.node] at hd ⊢
    exact ⟨hlinks.nlink_nonneg d, hlinks.nlink_le hd⟩

/-! ## A directory is made -/

/-- What `create` returns, if it does. -/
def createdInode {P : Type} (r : Except FsError (Option ℕ × FsState P)) : Option (ℕ × FsState P) :=
  match r with
  | .ok (some i, t) => some (i, t)
  | _ => none

theorem createdInode_eq_some {P : Type} {r : Except FsError (Option ℕ × FsState P)} {x : ℕ × FsState P}
    (h : createdInode r = some x) : r = .ok (some x.1, x.2) := by
  unfold createdInode at h
  split at h
  · cases h
    rfl
  · contradiction

theorem ready_sample (path : List UInt8) : Ready (.boot sample ()) () ROOTINO path :=
  ready_of_reaches sample_wellFormed sample_linked (.refl _) rfl path

/-- A directory is made in the root directory. -/
theorem create_all_or_nothing_directory : ∃ i t,
    (create () [slash, 100] T_DIR 0 0).run (.boot sample ()) = .ok (some i, t) ∧
    Fresh (.boot sample ()) ROOTINO i [100] T_DIR t := by
  have hres : resolveParent (boot sample ()).vol.node (components [slash, 100])
      (pathStart [slash, 100] ROOTINO) = some (ROOTINO, [100]) := by
    rw [vol_boot]
    decide
  have hrun : (createdInode ((create () [slash, 100] T_DIR 0 0).run
    (.boot sample ()))).isSome = true := by
    decide +kernel
  obtain ⟨⟨i, t⟩, hit⟩ := isSome_iff_exists.1 hrun
  have hrun := createdInode_eq_some hit
  refine ⟨i, t, hrun, ?_⟩
  obtain ⟨dp, name, hd, -, -, hnew⟩ := (create_all_or_nothing (ready_sample _) T_DIR 0 0).2 _ t hrun
  obtain ⟨rfl, rfl⟩ := Prod.mk.inj (some.inj (hres.symm.trans hd))
  have hlookup : lookupIn (boot sample ()).vol.node ROOTINO [100] = none := by
    rw [vol_boot]
    decide
  rw [hlookup] at hnew
  exact hnew

end Xv6
