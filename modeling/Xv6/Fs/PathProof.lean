import Xv6.Fs.SysfileProof

/-!
# System calls on paths

The specifications of the calls that follow a path, and `call_spec` for all calls. A call holds what
its path leads to, and has read it, until it drops it at the end; in between files may have
disappeared on the way. What a call changes is one of the changes of `Xv6.Fs.SysfileProof`; when it
fails in the middle (`fail` of `create`, `bad` of `sys_link`), what it has done is undone.
-/

open Function List Option

namespace Xv6

open Fs

variable {P : Type}

/-- Where a path of process `p` leads. -/
def Afs.lookup (g : Afs P) (p : P) (parent : Bool) (path : Option (List UInt8)) :
    Option (ℕ × List UInt8) :=
  path.bind fun path => (g.proc p).cwd.bind fun c => walk g.node parent (elements path)
    (pathStart path c)

/-- What `link` is to do with the file and the name that its paths lead to. -/
def Aim.ofLink (old new : Option (ℕ × List UInt8)) : Aim :=
  match old with
  | some (i, _) => .at (.link i) new
  | none => .nothing

def Aim.ofOpen (omode : ℕ) (r : Option (ℕ × List UInt8)) : Aim :=
  if hasFlag omode O_CREATE then .at (.make T_FILE) r else .nothing

namespace Fs

open FsState

variable {g g1 : Afs P} {s : FsState P} {L : List ℕ} {p : P} {D : ℕ → Prop} {v : ℕ → Node}
  {o : Aim} {c i : ℕ} {path : List UInt8}

theorem done_reaped (hq : g.Quiet) (hv : g.Reaped v) : g.Done o (g.setNode v) :=
  (Afs.Done.refl hq).sweep (.of_reaped hv)

theorem update_update (g : Afs P) (i : ℕ) (x y : Node) : (g.update i x).update i y = g.update i y := by
  unfold Afs.update Afs.setNode
  simp only [update_idem]

theorem held_both {j : ℕ} (hj : g.Held j) : ∀ k ∈ [i, j], (g.take i).Held k := fun k hk => by
  rcases mem_cons.mp hk with rfl | hk
  · exact Afs.held_take_self ..
  · exact Afs.held_take.mpr (.inr (mem_singleton.mp hk ▸ hj))

/-- A reference of the call to an inode outlives the closing of a file. -/
theorem closed_untake_inode {g' : Afs P} (h : (g.take i).Closed g') : ∃ g0, g' = g0.take i ∧ g.Closed g0 := by
  refine ⟨{ g' with tmp := g.tmp }, ?_, ⟨h.sb, h.tidy, h.node, h.pts⟩, h.proc, h.fds, rfl, h.tmpf, h.cwd⟩
  have htmp : g'.tmp = i ::ₘ g.tmp := h.tmp
  unfold Afs.take
  simp only [← htmp]

/-! ## Following a path -/

theorem lookup_eq (hp : (g.proc p).cwd = some c) (parent : Bool) (path : List UInt8) :
    g.lookup p parent (some path) = walk g.node parent (elements path) (pathStart path c) := by
  simp only [Afs.lookup, bind_some, hp]

theorem reach_of_lookup {parent : Bool} {name : List UInt8} (hq : g.Quiet)
    (hp : (g.proc p).cwd = some c) (h : g.lookup p parent (some path) = some (i, name)) : g.Reach i := by
  rw [lookup_eq hp] at h
  exact ⟨_, Afs.start_reach hq hp path, visits_of_walk h⟩

theorem bad_of_type (hv : g.Reaped v) (hr : g.Reach i) (hz : (v i).type = 0) : g.Bad i := by
  refine ⟨hr, ?_⟩
  rcases hv i with he | ⟨-, hn, hh⟩
  · rw [he] at hz
    exact .inl hz
  · exact .inr ⟨hn, fun x hx => hh (.inr ⟨x, hx⟩)⟩

theorem sound_start (hq : g.Quiet) (hp : (g.proc p).cwd = some c) (path : List UInt8) :
    Sound g g.node (pathStart path c) g.Bad :=
  Afs.sound_bad rfl (Afs.start_reach hq hp path)

variable [Fintype P]

theorem ilock_found (h : Rep ((g.setNode v).take i) L s) (hv : g.Reaped v) (hr : g.Reach i) :
    Wp (ilock i) (fun _ s' => (v i).type ≠ 0 ∧ Rep ((g.setNode v).take i) (i :: L) s')
      (Fails g.sb g.Bad) s :=
  ilock_spec h (Afs.held_take_self ..) fun hz => bad_of_type hv hr hz

/-- `iput` while `j` stays locked. -/
theorem iputOther_spec {j : ℕ} (h : Rep (g.take i) L s) (hi : i ∈ L) (hj : j ∈ L) (hh : g.Held j) :
    Wp (iput i) (fun _ s' => ∃ v, g.Reaped v ∧ Rep (g.setNode v) [j] s' ∧
      (i ∈ L → (g.node i).nlink = 0 → ¬ g.Held i → v = update g.node i .free)) (Fails g.sb D) s :=
  iput_spec [j] h (.inl hi) fun k hk => by
    rw [mem_singleton.mp hk]
    exact ⟨hj, hh⟩

theorem iputLast_spec (h : Rep (g.take i) L s) (hi : i ∈ L) :
    Wp (iput i) (fun _ s' => ∃ v, g.Reaped v ∧ Rep (g.setNode v) [] s') (Fails g.sb D) s :=
  (iput_spec [] h (.inl hi) (forall_mem_nil _)).mono fun _ _ h' => by
    obtain ⟨v, hv, h', -⟩ := h'
    exact ⟨v, hv, h'⟩

theorem setNlink_spec (φ : ℤ → ℤ) (h : Rep g L s) (hi : i ∈ L) :
    Wp (updateInode i fun d => { d with nlink := φ d.nlink })
      (fun _ => Rep (g.update i { g.node i with nlink := φ (g.node i).nlink }) L) (Fails g.sb D) s :=
  nlink_spec h hi fun _ => ⟨rfl, rfl, rfl, rfl⟩

/-! ## Ending a call -/

theorem endReturn_spec (h : Rep g1 [] s) (hd : g.Done o g1) (r : ℤ) :
    Serves o g D (endReturn r) s := by
  unfold Serves
  rw [← hd.sb]
  exact (endOp_spec h).bind fun _ s' h' => Wp.pure ⟨g1, hd, h'⟩

theorem putReturn_spec (h : Rep (g1.take i) L s) (hi : i ∈ L) (hd : g.Done o g1) (r : ℤ) :
    Serves o g D (putReturn i r) s := by
  unfold Serves
  rw [← hd.sb]
  refine (iputLast_spec h hi).bind fun _ s1 h1 => ?_
  obtain ⟨v, hv, h1⟩ := h1
  exact (endOp_spec h1).bind fun _ s2 h2 => Wp.pure ⟨_, hd.sweep (.of_reaped hv), h2⟩

/-! ## Directories -/

theorem emptyDirLoop_spec (h : Rep g L s) (hi : i ∈ L) (fuel k : ℕ) (hk : 2 ≤ k)
    (hfuel : (g.node i).nslots < k + fuel) :
    Wp (emptyDirLoop i fuel (k * Dirent.SIZE)) (fun b s' => s' = s ∧
      (b = true → ∀ j, k ≤ j → j < (g.node i).nslots → ((g.node i).slot j).inum = 0)) (Fails g.sb D) s := by
  induction fuel generalizing k with
  | zero => exact Wp.pure ⟨rfl, fun _ j hj hlt => absurd hlt (by omega)⟩
  | succ fuel ih =>
    refine (inode_spec h hi).bind fun d s' hd => ?_
    obtain ⟨rfl, -, -, hsize⟩ := hd
    rw [hsize]
    refine Wp.ite (fun hlt => ?_) fun hge => Wp.pure ⟨rfl, fun _ j hj hlt => ?_⟩
    · refine (readDirent_spec (e := .isdiremptyRead) h hi trivial hlt).bind fun de s' hde => ?_
      obtain ⟨rfl, hks, rfl⟩ := hde
      refine Wp.ite (fun _ => Wp.pure ⟨rfl, fun hb => absurd hb Bool.false_ne_true⟩) fun hz => ?_
      have hrec := ih (k + 1) (by omega) (by omega)
      rw [Nat.succ_mul] at hrec
      refine hrec.mono fun b s' hb => ⟨hb.1, fun ht j hj hlt => ?_⟩
      rcases Nat.eq_or_lt_of_le hj with rfl | hj
      · exact not_not.mp hz
      · exact hb.2 ht j hj hlt
    · have hle : (g.node i).nslots ≤ k := by
        refine Nat.div_le_of_le_mul ?_
        rw [Nat.mul_comm]
        omega
      omega

theorem isdirempty_spec (h : Rep g L s) (hi : i ∈ L) : Wp (isdirempty i) (fun b s' => s' = s ∧
      (b = true → ∀ j, 2 ≤ j → j < (g.node i).nslots → ((g.node i).slot j).inum = 0)) (Fails g.sb D) s := by
  refine (inode_spec h hi).bind fun d s' hd => ?_
  obtain ⟨rfl, -, -, hsize⟩ := hd
  rw [hsize]
  exact emptyDirLoop_spec h hi _ 2 le_rfl (by unfold Node.nslots; omega)

theorem clearSlot_spec (h : Rep g L s) (hi : i ∈ L) (k : ℕ) :
    Wp (writei i (kernelSrc (replicate Dirent.SIZE 0)) (k * Dirent.SIZE) Dirent.SIZE) (fun r s' =>
      (r = Dirent.SIZE ∧ Rep (g.update i ((g.node i).setSlot k emptyDirent)) L s') ∨ r ≠ Dirent.SIZE)
      (Fails g.sb D) s := by
  have hw := writei_kernel (D := D) h hi emptyDirent.encode (k * Dirent.SIZE) (by decide) (by
    show k * Dirent.SIZE % BSIZE + 16 ≤ BSIZE
    simp only [Dirent.SIZE, DIRSIZ, BSIZE]
    omega)
  refine Wp.mono hw fun r s' hr => ?_
  rcases hr with ⟨hr, -, h'⟩ | ⟨hr, -⟩
  · exact .inl ⟨hr, h'⟩
  · exact .inr hr

/-- The files `u` are the files `v`, apart from `i`, and without some that have no links. -/
def SweptBut (i : ℕ) (v u : ℕ → Node) : Prop := ∀ j, j ≠ i → u j = v j ∨ u j = .free ∧ (v j).nlink = 0

theorem SweptBut.of_update {x : Node} {v u : ℕ → Node} (h : Sweep (update v i x) u) :
    SweptBut i v u := fun j hj => by
  have := h j
  rwa [update_of_ne hj] at this

/-- The contents of a new inode of type `t`. -/
def IsNew (t : ℤ) (i dp : ℕ) (y : Node) : Prop :=
  t = T_DIR ∧ IsNewDir i dp y ∨ t ≠ T_DIR ∧ y = ⟨t, 1, 0, fun _ => 0⟩

theorem dirInit_spec {dp : ℕ} {t : ℤ}
    (h : Rep ((((g.setNode v).update i ⟨t, 1, 0, fun _ => 0⟩).take dp).take i) [i, dp] s) :
    Wp (dirInit t i dp) (fun b s' =>
      (b = true ∧ ∃ y, IsNew t i dp y ∧ Rep ((((g.setNode v).update i y).take dp).take i) [i, dp] s') ∨
      (b = false ∧ ∃ u, SweptBut i v u ∧ Rep (((g.setNode u).take dp).take i) [i, dp] s'))
      (Fails g.sb D) s := by
  refine Wp.ite (fun ht => ?_) fun ht => Wp.pure (.inl ⟨rfl, _, .inr ⟨ht, rfl⟩, h⟩)
  subst ht
  have hi : i ∈ [i, dp] := mem_cons_self ..
  have hL : ∀ w, ∀ j ∈ [i, dp], (((g.setNode w).take dp).take i).Held j := fun w =>
    held_both (Afs.held_take_self ..)
  refine (dirlink_spec h hi (hL _) i).bind fun r s1 h1 => ?_
  rcases h1 with ⟨hneg, u, hu, h1⟩ | ⟨hpos, -, -, k, hk, h1⟩
  · rw [if_pos hneg]
    exact Wp.pure (.inr ⟨rfl, u, .of_update (.of_take hu.of_take), h1⟩)
  · rw [if_neg hpos]
    have hnode : ∀ y, ((((g.setNode v).update i y).take dp).take i).node i = y := fun y =>
      update_self ..
    rw [hnode] at hk h1
    -- the directory is empty
    have hk0 : k = 0 := by
      rcases hk with ⟨hk, -⟩ | hk
      · exact absurd hk (Nat.not_lt_zero _)
      · exact (Nat.mul_eq_zero.mp hk).resolve_right (by decide)
    subst hk0
    set y1 := (⟨T_DIR, 1, 0, fun _ => 0⟩ : Node).setSlot 0 (newDirent dot i)
    have h1 : Rep ((((g.setNode v).update i y1).take dp).take i) [i, dp] s1 := by
      rw [← update_update (g.setNode v) i ⟨T_DIR, 1, 0, fun _ => 0⟩ y1]
      exact h1
    refine (dirlink_spec h1 hi (hL _) dp).bind fun r s2 h2 => ?_
    rcases h2 with ⟨hneg, u, hu, h2⟩ | ⟨hpos, -, -, k, hk, h2⟩
    · rw [if_pos hneg]
      exact Wp.pure (.inr ⟨rfl, u, .of_update (.of_take hu.of_take), h2⟩)
    · rw [if_neg hpos]
      rw [hnode] at hk h2
      refine Wp.pure (.inl ⟨rfl, y1.setSlot k (newDirent dotdot dp), .inl ⟨rfl, k, hk, rfl⟩, ?_⟩)
      rw [← update_update (g.setNode v) i y1]
      exact h2

/-- The file without its contents. -/
def emptied (x : Node) : Node := ⟨x.type, x.nlink, 0, fun _ => 0⟩

/-- What `create` returns: a file that the call holds, and that has been read. If it was asked for a file, it
can be emptied. -/
def Created (o : Aim) (g : Afs P) (t : ℤ) (i : ℕ) (s : FsState P) : Prop :=
  ∃ g', g.Done o g' ∧ Rep (g'.take i) [i] s ∧ (g.Reach i ∨ 0 < (g'.node i).nlink) ∧
    (t = T_FILE → (g'.node i).type ≠ T_DIR ∧ g.Done o (g'.update i (emptied (g'.node i))))

/-! ## Removing a name -/

section

variable (hq : g.Quiet) (hv : g.Reaped v)

include hq hv

/-- The end of `sys_unlink`, when the directory has become `x`. -/
theorem unlinkDone_spec {dp : ℕ} {x y : Node} (h : Rep ((((g.setNode v).take dp).take i).update dp x) [i, dp] s) (hy : y = update v dp x i)
    (hc : Change g.sb o v (update (update v dp x) i
      { y with nlink := short (y.nlink - 1) })) :
    Serves o g D (unlinkDone dp i) s := by
  have h1 : Rep (((g.setNode (update v dp x)).take i).take dp) [i, dp] s := by
    rw [Afs.take_comm]
    exact h
  have hheld : ((g.setNode (update v dp x)).take i).Held i := Afs.held_take_self _ i
  refine (iputOther_spec h1 (by simp) (mem_cons_self ..) hheld).bind fun _ s1 h2 => ?_
  obtain ⟨w, hw, h2, -⟩ := h2
  have hi : i ∈ [i] := mem_cons_self ..
  refine (setNlink_spec (fun n => short (n - 1)) h2 hi).bind fun _ s2 h3 => ?_
  have hwi : w i = y := by
    rw [hy]
    exact hw.eq_of_held hheld
  have h4 : Rep ((g.setNode (update w i { w i with nlink := short ((w i).nlink - 1) })).take i) [i]
    s2 := h3
  rw [hwi] at h4
  refine putReturn_spec h4 hi ?_ _
  exact (Afs.Done.change hq (.of_reaped hv) hc).sweep ((Sweep.of_take hw).update i _)

/-- **`sys_unlink` removes the entry that it has found**, or fails. -/
theorem unlinkEntry_spec {dp k : ℕ} {name : List UInt8} (hreach : g.Reach dp) (ho : o = .remove dp name) (hdir : (v dp).type = T_DIR)
    (hname : ¬ (namecmp name dot = 0 ∨ namecmp name dotdot = 0)) (hf : (v dp).find name = some k)
    (hi : i = ((v dp).slot k).inum) (h : Rep (((g.setNode v).take dp).take i) [dp] s) :
    Serves o g g.Bad (unlinkEntry dp i (k * Dirent.SIZE)) s := by
  obtain ⟨hk, hne, -⟩ := Node.find_some hf
  rw [not_or] at hname
  have hsame : v dp = g.node dp := hv.eq_of_type (by rw [hdir]; decide)
  have hreach' : g.Reach i := by
    rw [hi, hsame]
    rw [hsame] at hdir hk hne
    exact hreach.slot hdir hk hne
  have hheld : (((g.setNode v).take dp).take i).Held i := Afs.held_take_self _ i
  refine (ilock_spec h hheld fun hz => bad_of_type hv hreach' hz).bind fun _ s1 h1 => ?_
  obtain ⟨htype, h1⟩ := h1
  have htype : (v i).type ≠ 0 := htype
  have hmi : i ∈ [i, dp] := mem_cons_self ..
  have hmd : dp ∈ [i, dp] := mem_cons_of_mem _ (mem_cons_self ..)
  refine (inode_spec h1 hmi).bind fun ip s2 hip => ?_
  obtain ⟨rfl, hipt, hipn, -⟩ := hip
  have hipt : ip.type = (v i).type := hipt
  have hipn : ip.nlink = (v i).nlink := hipn
  rw [hipt, hipn]
  refine Wp.ite (fun _ => Wp.throw (.inl trivial)) fun hnl => ?_
  have hnl : 1 ≤ (v i).nlink := by omega
  refine Wp.bind (q := fun b s' => s' = s2 ∧ (b = true → (v i).type = T_DIR →
    ∀ j, 2 ≤ j → j < (v i).nslots → ((v i).slot j).inum = 0)) ?_ fun b s' hb => ?_
  · unfold removable
    rw [hipt]
    refine Wp.ite (fun _ => (isdirempty_spec h1 hmi).mono fun b s' hb => ⟨hb.1, fun ht _ => hb.2 ht⟩)
      fun hnd => Wp.pure ⟨rfl, fun _ hd => absurd hd hnd⟩
  obtain ⟨rfl, hempty⟩ := hb
  refine Wp.ite (fun _ => ?_) fun hb => ?_
  · -- the directory is not empty
    refine (iputOther_spec h1 hmi hmd (Afs.held_take_self ..)).bind fun _ s3 h3 => ?_
    obtain ⟨w, hw, h3, -⟩ := h3
    have h3 : Rep ((g.setNode w).take dp) [dp] s3 := h3
    exact putReturn_spec h3 (mem_cons_self ..) ((done_reaped hq hv).sweep (.of_take hw)) _
  · have hempty := hempty (by simpa using hb)
    refine (clearSlot_spec h1 hmd k).bind fun r s3 hr => ?_
    rcases hr with ⟨rfl, h3⟩ | hr
    · rw [if_neg (not_not.mpr rfl)]
      have h3 : Rep ((((g.setNode v).take dp).take i).update dp ((v dp).setSlot k emptyDirent)) [i, dp]
        s3 := h3
      refine Wp.ite (fun hd => ?_) fun hnd => ?_
      · refine (setNlink_spec (fun n => short (n - 1)) h3 hmd).bind fun _ s4 h4 => ?_
        rw [update_update, show ((((g.setNode v).take dp).take i).update dp ((v dp).setSlot k
          emptyDirent)).node dp = (v dp).setSlot k emptyDirent from update_self ..] at h4
        exact unlinkDone_spec hq hv h4 rfl
          (.rmdir ho hdir hname.1 hname.2 hf hi hd hnl (hempty hd) rfl rfl)
      · have hdi : i ≠ dp := fun he => hnd (he ▸ hdir)
        refine unlinkDone_spec (y := v i) hq hv h3 (update_of_ne hdi ..).symm ?_
        exact .unlink ho hdir hname.1 hname.2 hf hi hnd htype hnl
    · rw [if_pos hr]
      exact Wp.throw (.inl trivial)

/-! ## A new name -/

/-- `bad` of `sys_link`: the link count is as before. -/
theorem linkBad_spec {u : ℕ → Node} (hdir : (v i).type ≠ T_DIR)
    (hne : (v i).type ≠ 0) (hu : Sweep (update v i { v i with nlink := short ((v i).nlink + 1) }) u)
    (hui : u i = { v i with nlink := short ((v i).nlink + 1) }) (h : Rep ((g.setNode u).take i) [i] s) :
    Serves o g D (linkBad i) s := by
  refine (ilock_spec h (Afs.held_take_self ..) fun hz => ?_).bind fun _ s1 h1 => ?_
  · rw [show ((g.setNode u).take i).node i = u i from rfl, hui] at hz
    exact absurd hz hne
  have hi : i ∈ [i, i] := mem_cons_self ..
  refine (setNlink_spec (fun n => short (n - 1)) h1.2 hi).bind fun _ s2 h2 => ?_
  have h3 : Rep ((g.setNode (update u i { u i with nlink := short ((u i).nlink - 1) })).take i)
    [i, i] s2 := h2
  rw [hui] at h3
  refine putReturn_spec h3 hi ?_ _
  have hsweep := hu.update i { v i with nlink := short (short ((v i).nlink + 1) - 1) }
  rw [update_idem] at hsweep
  exact (Afs.Done.change hq (.of_reaped hv) (.relink hdir hne)).sweep hsweep

/-- **The part of `sys_link` after the link count has been raised.** -/
theorem linkNew_spec {new : List UInt8} (hp : (g.proc p).cwd = some c) (hdir : (v i).type ≠ T_DIR) (hne : (v i).type ≠ 0)
    (h : Rep (((g.setNode v).update i { v i with nlink := short ((v i).nlink + 1) }).take i) [i] s) :
    Serves (.at (.link i) (g.lookup p true (some new))) g g.Bad (linkNew p i new) s := by
  set x : Node := { v i with nlink := short ((v i).nlink + 1) } with hx
  set G := ((g.setNode v).update i x).take i with hG
  have hGi : G.Held i := Afs.held_take_self _ i
  have hnode : G.node = update v i x := rfl
  have hsame : v i = g.node i := hv.eq_of_type hne
  -- the path is followed in the files the call has started with, apart from the link count
  set w := update g.node i x with hw
  have hrel : ∀ j, ∃ n, w j = { g.node j with nlink := n } := fun j => by
    by_cases hj : j = i
    · rw [hj, hw, update_self, hx, hsame]
      exact ⟨_, rfl⟩
    · rw [hw, update_of_ne hj]
      exact ⟨_, rfl⟩
  have hreaped : (G.setNode w).Reaped G.node := fun j => by
    by_cases hj : j = i
    · rw [hj, hnode, show (G.setNode w).node = w from rfl, hw, update_self, update_self]
      exact .inl rfl
    · rw [hnode, show (G.setNode w).node = w from rfl, hw, update_of_ne hj, update_of_ne hj]
      exact (hv j).imp id fun hr => ⟨hr.1, hr.2.1, fun hh => hr.2.2 ((Afs.held_take.mp hh).resolve_left hj)⟩
  have hD : Sound G w (pathStart new c) g.Bad := fun t ht hbad => by
    have hti : t ≠ i := by
      rintro rfl
      rcases hbad with hz | hz
      · rw [hw, update_self] at hz
        exact hne hz
      · exact hz.2 hGi
    rw [hw, update_of_ne hti] at hbad
    exact ⟨⟨_, Afs.start_reach hq hp new, ht.relinked hrel⟩,
      hbad.imp id fun hb => ⟨hb.1, fun y hy => hb.2 (.inr ⟨y, hy⟩)⟩⟩
  have hK : ∀ j ∈ [i], j ∈ [i] ∧ G.Held j := fun j hj => ⟨hj, mem_singleton.mp hj ▸ hGi⟩
  refine (nameiparent_spec h hp (.inr ⟨.inl p, (hq.cwd p).trans hp⟩) hreaped hD [i] hK).bind
    fun r s1 hr => ?_
  obtain ⟨hr, u, hu, h1⟩ := hr
  rw [walk_relinked hrel, ← lookup_eq hp] at hr
  rw [← hr]
  have hsweep : Sweep (update v i x) u := .of_reaped hu
  have hui : u i = x := by
    rw [hu.eq_of_held hGi, hnode, update_self]
  match r, h1 with
  | none, h1 => exact linkBad_spec hq hv hdir hne hsweep hui h1
  | some (dp, name), ⟨hdp, h1⟩ =>
    have hdi : dp ≠ i := by
      rintro rfl
      rw [hui] at hdp
      exact hdir hdp
    refine (ilock_spec h1 (Afs.held_take_self ..) fun hz => ?_).bind fun _ s2 h2 => ?_
    · exact absurd (hdp.symm.trans hz) (by decide)
    refine (dirlink_spec h2.2 (mem_cons_self ..) (held_both hGi) i).bind fun r s3 h3 => ?_
    have hi : i ∈ [dp, i] := mem_cons_of_mem _ (mem_cons_self ..)
    rcases h3 with ⟨hneg, u', hu', h3⟩ | ⟨hpos, -, hfind, k, hk, h3⟩
    · have h3 : Rep ((G.setNode u').take dp) [dp, i] s3 := h3
      refine (iputOther_spec h3 (mem_cons_self ..) hi hGi).bind fun _ s4 h4 => ?_
      obtain ⟨u4, hu4, h4, -⟩ := h4
      rw [if_pos hneg]
      have hu₄i : u4 i = x := by
        rw [hu4.eq_of_held hGi]
        exact (hu'.eq_of_held (Afs.held_take.mpr (.inr hGi))).trans hui
      exact linkBad_spec hq hv hdir hne ((hsweep.trans (.of_take hu')).trans (.of_reaped hu4)) hu₄i h4
    · set y := (u dp).setSlot k (newDirent name i) with hy
      have h3 : Rep ((G.setNode (update u dp y)).take dp) [dp, i] s3 := h3
      refine (iputOther_spec h3 (mem_cons_self ..) hi hGi).bind fun _ s4 h4 => ?_
      obtain ⟨u4, hu4, h4, -⟩ := h4
      rw [if_neg hpos]
      have h4 : Rep ((g.setNode u4).take i) [i] s4 := h4
      refine putReturn_spec h4 (mem_cons_self ..) ?_ _
      have hud : u dp = v dp := by
        rw [hsweep.eq_of_type (by rw [hdp]; decide), update_of_ne hdi]
      have hfind : (u dp).find name = none := hfind
      have hk : (u dp).Spare k := hk
      rw [hud] at hdp hfind hk
      have hchange : Change g.sb (.link i dp name) v (update (update v i x) dp y) := by
        rw [hy, hud]
        exact .link rfl hdp hfind hk hdir hne
      exact (Afs.Done.change hq (.of_reaped hv) hchange).sweep
        ((hsweep.update dp y).trans (.of_reaped hu4))

/-! ## New files -/

/-- `fail` of `create`: the new inode disappears. -/
theorem createFail_spec {dp : ℕ} {u : ℕ → Node} (hvi : v i = .free)
    (hdi : i ≠ dp) (hnot : ∀ x, g.pts x ≠ some i) (hu : SweptBut i v u)
    (h : Rep (((g.setNode u).take dp).take i) [i, dp] s) :
    Wp (createFail i dp) (fun r s' => r = none ∧ Ends o g s') (Fails g.sb D) s := by
  have hi : i ∈ [i, dp] := mem_cons_self ..
  refine (setNlink_spec (fun _ => 0) h hi).bind fun _ s1 h1 => ?_
  set z : Node := { u i with nlink := 0 }
  have h1 : Rep (((g.setNode (update u i z)).take dp).take i) [i, dp] s1 := h1
  refine (iputOther_spec h1 hi (mem_cons_of_mem _ (mem_cons_self ..))
    (Afs.held_take_self ..)).bind fun _ s2 h2 => ?_
  obtain ⟨w, -, h2, hfree⟩ := h2
  have hlast : ¬ ((g.setNode (update u i z)).take dp).Held i := fun hh => by
    rcases (Afs.held_take.mp hh).resolve_left hdi with hm | ⟨x, hx⟩
    · have hm : i ∈ g.tmp := hm
      rw [hq.tmp] at hm
      exact absurd hm (Multiset.notMem_zero i)
    · exact hnot x hx
  have hw : w = update u i .free := by
    refine (hfree hi ?_ hlast).trans (update_idem ..)
    rw [show ((g.setNode (update u i z)).take dp).node i = z from update_self ..]
  have hsweep : Sweep v w := fun j => by
    rw [hw]
    by_cases hj : j = i
    · rw [hj, update_self, hvi]
      exact .inl rfl
    · rw [update_of_ne hj]
      exact hu j hj
  have h2 : Rep ((g.setNode w).take dp) [dp] s2 := h2
  refine (iputLast_spec h2 (mem_cons_self ..)).bind fun _ s3 h3 => Wp.pure ⟨rfl, ?_⟩
  obtain ⟨w', hw', h3⟩ := h3
  exact ⟨_, ((done_reaped hq hv).sweep hsweep).sweep (.of_reaped hw'), h3⟩

/-- The end of `create`, when the directory has become `x`. -/
theorem createDone_spec {dp : ℕ} {x y : Node} {t : ℤ} (hdi : i ≠ dp)
    (hy : IsNew t i dp y) (hc : Change g.sb o v (update (update v i y) dp x))
    (h : Rep ((((g.setNode v).update i y).take dp).take i |>.update dp x) [i, dp] s) :
    Wp (createDone i dp) (fun r s' => ∃ j, r = some j ∧ Created o g t j s') (Fails g.sb D) s := by
  have h1 : Rep (((g.setNode (update (update v i y) dp x)).take i).take dp) [i, dp] s := by
    rw [Afs.take_comm]
    exact h
  set G := (g.setNode (update (update v i y) dp x)).take i
  have hheld : G.Held i := Afs.held_take_self _ i
  refine (iputOther_spec h1 (by simp) (mem_cons_self ..) hheld).bind
    fun _ s1 h2 => Wp.pure ⟨i, rfl, ?_⟩
  obtain ⟨w, hw, h2, -⟩ := h2
  have hd : g.Done o (g.setNode w) := (Afs.Done.change hq (.of_reaped hv) hc).sweep (.of_take hw)
  have hwi : w i = y := by
    refine (hw.eq_of_held hheld).trans ?_
    show update (update v i y) dp x i = y
    rw [update_of_ne hdi, update_self]
  have hnode : (g.setNode w).node i = y := hwi
  refine ⟨g.setNode w, hd, h2, .inr ?_, fun ht => ?_⟩
  · rw [hnode]
    have hone : (0 : ℤ) < 1 := by decide
    rcases hy with ⟨-, k, -, rfl⟩ | ⟨-, rfl⟩ <;> exact hone
  · rcases hy with ⟨ht', -⟩ | ⟨-, rfl⟩
    · exact absurd (ht.symm.trans ht') (by decide)
    · rw [hnode, ht]
      refine ⟨by decide, ?_⟩
      have hempty : (g.setNode w).update i (emptied ⟨T_FILE, 1, 0, fun _ => 0⟩) = g.setNode w := by
        rw [show emptied ⟨T_FILE, 1, 0, fun _ => 0⟩ = (g.setNode w).node i by rw [hnode, ht]; rfl,
          Afs.update_self]
      rw [hempty]
      exact hd

/-- **The part of `create` after `ialloc`.** -/
theorem createNew_spec {dp : ℕ} {name : List UInt8} {t major minor : ℤ} (ho : o = .make t dp name) (hdir : (v dp).type = T_DIR) (hfind : (v dp).find name = none)
    (h1 : 1 ≤ i) (hlt : i < g.sb.ninodes) (hvi : v i = .free) (hnot : ∀ x, g.pts x ≠ some i) (ht : t ≠ 0)
    (h : Rep ((((g.setNode v).take dp).update i ⟨t, 0, 0, fun _ => 0⟩).take i) [dp] s) :
    Wp (createNew i dp name t major minor) (fun r s' => match r with
      | none => Ends o g s'
      | some j => Created o g t j s') (Fails g.sb D) s := by
  have hdi : i ≠ dp := by
    rintro rfl
    rw [hvi] at hdir
    exact absurd hdir (by decide)
  have hzero : (v i).type = 0 := by
    rw [hvi]
    rfl
  refine (ilock_spec h (Afs.held_take_self ..) fun hz => ?_).bind fun _ s1 h₁ => ?_
  · rw [show ((((g.setNode v).take dp).update i ⟨t, 0, 0, fun _ => 0⟩).take i).node i =
      ⟨t, 0, 0, fun _ => 0⟩ from update_self ..] at hz
    exact absurd hz ht
  have hi : i ∈ [i, dp] := mem_cons_self ..
  have hd : dp ∈ [i, dp] := mem_cons_of_mem _ (mem_cons_self ..)
  refine (nlink_spec (f := fun d => { d with major := short major, minor := short minor, nlink := 1 })
    (φ := fun _ => 1) h₁.2 hi fun _ => ⟨rfl, rfl, rfl, rfl⟩).bind fun _ s2 h2 => ?_
  have h2 : Rep ((((g.setNode v).update i ⟨t, 1, 0, fun _ => 0⟩).take dp).take i) [i, dp] s2 := by
    rw [show (((g.setNode v).take dp).update i ⟨t, 0, 0, fun _ => 0⟩).take i =
      ((((g.setNode v).update i ⟨t, 0, 0, fun _ => 0⟩).take dp).take i) from rfl] at h2
    rw [← update_update (g.setNode v) i ⟨t, 0, 0, fun _ => 0⟩]
    have hself : ((((g.setNode v).update i ⟨t, 0, 0, fun _ => 0⟩).take dp).take i).node i =
      ⟨t, 0, 0, fun _ => 0⟩ := update_self ..
    rw [hself] at h2
    exact h2
  -- the label `fail`
  have hfail : ∀ {u s'}, SweptBut i v u → Rep (((g.setNode u).take dp).take i) [i, dp] s' →
      Wp (createFail i dp) (fun r s' => match r with
        | none => Ends o g s'
        | some j => Created o g t j s') (Fails g.sb D) s' := fun hu h' =>
    (createFail_spec hq hv hvi hdi hnot hu h').mono fun r s' hr => by
      obtain ⟨rfl, hr⟩ := hr
      exact hr
  refine (dirInit_spec h2).bind fun b s3 h3 => ?_
  rcases h3 with ⟨rfl, y, hy, h3⟩ | ⟨rfl, u, hu, h3⟩
  · rw [if_neg (by decide)]
    refine (dirlink_spec h3 hd (held_both (Afs.held_take_self ..)) i).bind fun r s4 h4 => ?_
    rcases h4 with ⟨hneg, u, hu, h4⟩ | ⟨hpos, -, -, k, hk, h4⟩
    · rw [if_pos hneg]
      exact hfail (.of_update (.of_take hu.of_take)) h4
    · rw [if_neg hpos]
      have hdp : ((((g.setNode v).update i y).take dp).take i).node dp = v dp :=
        update_of_ne (Ne.symm hdi) ..
      rw [hdp] at hk h4
      have hsome : ∀ {r : Option ℕ} {s' : FsState P}, (∃ j, r = some j ∧ Created o g t j s') →
          match r with
          | none => Ends o g s'
          | some j => Created o g t j s' := by
        rintro r s' ⟨j, rfl, hj⟩
        exact hj
      refine Wp.ite (fun hdirt => ?_) fun hndt => ?_
      · subst hdirt
        refine (setNlink_spec (fun n => short (n + 1)) h4 hd).bind fun _ s5 h5 => ?_
        rw [update_update, show (((((g.setNode v).update i y).take dp).take i).update dp ((v dp).setSlot k
          (newDirent name i))).node dp = (v dp).setSlot k (newDirent name i) from
            update_self ..] at h5
        have hnew : IsNewDir i dp y := (hy.resolve_right fun hh => hh.1 rfl).2
        exact (createDone_spec hq hv hdi hy (.mkdir ho hdir hfind hk h1 hlt hzero hnew) h5).mono
          fun _ _ => hsome
      · have hnew : y = ⟨t, 1, 0, fun _ => 0⟩ := (hy.resolve_left fun hh => hndt hh.1).2
        refine (createDone_spec hq hv hdi hy ?_ h4).mono fun _ _ => hsome
        rw [hnew]
        exact .create ho hdir hfind hk h1 hlt hzero ht hndt
  · rw [if_pos (by decide)]
    exact hfail hu h3

end

/-! ## Opening -/

theorem openFile_held (x : File) (i : ℕ) (ip : Dinode) (omode : ℕ) : (openFile x i ip omode).held =
    some i := by
  refine if_pos ?_
  show (if ip.type = T_DEVICE then FileKind.device else FileKind.inode) = _ ∨
    (if ip.type = T_DEVICE then FileKind.device else FileKind.inode) = _
  split_ifs <;> simp

/-- **The part of `sys_open` after the inode has been found.** -/
theorem openInode_spec [DecidableEq P] {omode : ℕ} (h : Rep (g1.take i) [i] s) (hd : g.Done o g1)
    (hreach : g.Reach i ∨ 0 < (g1.node i).nlink) (hmode : (g1.node i).type = T_DIR → omode = O_RDONLY)
    (hempty : (g1.node i).type = T_FILE → g.Done o (g1.update i (emptied (g1.node i)))) :
    Serves o g D (openInode p i omode) s := by
  have hi : i ∈ [i] := mem_cons_self ..
  unfold Serves
  rw [← hd.sb]
  have hput : ∀ {s'} r, Rep (g1.take i) [i] s' → Wp (putReturn i r) (fun _ => Ends o g) (Fails g1.sb D) s' :=
    fun r h' => by
      rw [hd.sb]
      exact putReturn_spec h' hi hd r
  refine (inode_spec h hi).bind fun ip s1 hip => ?_
  obtain ⟨rfl, hipt, -⟩ := hip
  have hipt : ip.type = (g1.node i).type := hipt
  refine Wp.ite (fun _ => hput _ h) fun _ => ?_
  refine (filealloc_spec h).bind fun r s2 hr => ?_
  match r, hr with
  | none, h2 => exact hput _ h2
  | some f, ⟨href, htype, h2⟩ =>
    have htype : (g1.file f).type = .none := htype
    set x0 : File := { (g1.take i).file f with ref := 1 }
    set g2 := g1.setFile f x0
    have h2 : Rep ((g2.take i).takeFile f) [i] s2 := h2
    refine (fdalloc_spec h2 p f).bind fun r s3 hr => ?_
    match r, hr with
    | none, h3 =>
      refine (fileclose_spec h3 [i] fun j hj => ⟨hj, ?_⟩).bind fun _ s4 h4 => ?_
      · rw [mem_singleton.mp hj]
        exact Multiset.mem_cons_self i _
      obtain ⟨g3, hc, h4⟩ := h4
      obtain ⟨g4, rfl, hc'⟩ := closed_untake_inode hc
      have hc4 : g1.Closed g4 := (Afs.closed_setFile g1 f x0).trans hc'
      rw [show (g2.take i).sb = g.sb from hd.sb]
      exact putReturn_spec h4 hi (hd.shrunk hc4.toShrunk (hc4.quiet hd.quiet)) _
    | some fd, ⟨hfd, h3⟩ =>
      have hfd : (g1.proc p).ofile fd = none := hfd
      set g3 := (g2.takeFile f).setFd p fd (some f)
      have h3 : Rep (g3.take i) [i] s3 := h3
      have hf3 : g3.file f = x0 := Afs.file_setFile ..
      set x := openFile x0 i ip omode with hx
      have hsx : openFile (s3.file f) i ip omode = x := by
        rw [h3.file, show (g3.take i).file f = x0 from hf3]
      have hopen := h3.openFile (f := f) (x := x) hi (Multiset.mem_cons_self f _) (by rw [hf3]; exact htype)
        (openFile_held ..) (by rw [hf3]; rfl) fun hw _ hdir => ?_
      · -- the descriptor takes over the reference to the file
        set g4 := ((g2.setFd p fd (some f)).setFile f x).setPts (.inr f) (some i)
        have hopen : Rep (g4.takeFile f) [i] (s3.setFile f x) := hopen
        have hx4 : g4.file f = x := Afs.file_setFile ..
        have hgive := hopen.giveFd (y := (p, fd)) ((hd.quiet.fds p fd).trans hfd) (by
          rw [hx4]
          have := (File.type_of_held (openFile_held x0 i ip omode)).1
          rintro hnone
          rw [hx] at hnone
          rw [hnone] at this
          exact absurd this (by decide))
        have hq4 : (g4.setFds (p, fd) (some f)).Quiet := by
          have hquiet := hd.quiet.setFd p fd (some f)
          have hpts : ∀ q, g4.pts (.inl q) = g1.pts (.inl q) := fun q => pts_setPts_ne Sum.inl_ne_inr _
          exact ⟨hquiet.tmp, hquiet.tmpf, fun q => (hpts q).trans (hquiet.cwd q), hquiet.fds⟩
        refine Wp.modify_bind ?_
        rw [hsx]
        have hhold : ∀ j ∈ some i, g.Reach j ∨ 0 < (g1.node j).nlink := fun j hj =>
          some.inj hj ▸ hreach
        refine Wp.ite (fun htrunc => ?_) fun _ => ?_
        · refine (itrunc_rep hgive hi).bind fun _ s5 h5 => ?_
          have hemp := hempty (hipt ▸ htrunc.2)
          have h5 : Rep ((g4.setFds (p, fd) (some f)).update i (emptied (g1.node i))) [i] s5 := h5
          rw [show (g4.setFds (p, fd) (some f)).sb = g.sb from hd.sb]
          refine endReturn_spec (h5.sub (forall_mem_nil _)) ⟨⟨hq4.tmp, hq4.tmpf, hq4.cwd, hq4.fds⟩,
            hd.sb, hd.tidy, ?_⟩ _
          refine hemp.step.hold (.inr f) fun j hj => (hhold j hj).imp id fun hn => ?_
          cases hj
          rw [show (g1.update i (emptied (g1.node i))).node i = emptied (g1.node i) from
            update_self ..]
          exact hn
        · rw [show ((g2.take i).takeFile f).sb = g.sb from hd.sb]
          exact endReturn_spec (hgive.sub (forall_mem_nil _))
            ⟨hq4, hd.sb, hd.tidy, hd.step.hold (.inr f) hhold⟩ _
      · -- a directory is open for reading
        have hw : (hasFlag omode O_WRONLY || hasFlag omode O_RDWR) = true := hw
        rw [hmode hdir] at hw
        exact absurd hw (by decide)

/-! ## The calls -/

variable (h : Rep g [] s) (hq : g.Quiet) (hp : (g.proc p).cwd = some c)

include h hq hp

theorem nameiparent_start (path : List UInt8) :
    Wp (nameiparent p path) (fun r s' => r = g.lookup p true (some path) ∧ ∃ v, g.Reaped v ∧ match r with
      | none => Rep (g.setNode v) [] s'
      | some (d, _) => g.Reach d ∧ (v d).type = T_DIR ∧ Rep ((g.setNode v).take d) [] s')
      (Fails g.sb g.Bad) s := by
  refine (nameiparent_spec h hp (.inr ⟨.inl p, (hq.cwd p).trans hp⟩) (.refl g)
    (sound_start hq hp path) [] (forall_mem_nil _)).mono fun r s' hr => ?_
  obtain ⟨hr, v, hv, h'⟩ := hr
  rw [← lookup_eq hp] at hr
  refine ⟨hr, v, hv, ?_⟩
  cases r with
  | none => exact h'
  | some x =>
    obtain ⟨d, name⟩ := x
    exact ⟨reach_of_lookup hq hp hr.symm, h'⟩

/-- A call that follows a path ends there, or goes on with the file locked. -/
theorem namei_ends {k : Option ℕ → FsM P ℤ} {k' : ℕ → FsM P ℤ} (hnone : k none = endReturn (-1))
    (hsome : ∀ i, k (some i) = ilock i >>= fun _ => k' i)
    (hk : ∀ v i n s', g.Reaped v → g.lookup p false (some path) = some (i, n) → g.Reach i →
      (v i).type ≠ 0 → Rep ((g.setNode v).take i) [i] s' →
      Serves o g g.Bad (k' i) s') :
    Serves o g g.Bad (namei p path >>= k) s := by
  refine (namei_spec h hp (.inr ⟨.inl p, (hq.cwd p).trans hp⟩) (.refl g)
    (sound_start hq hp path)).bind fun r s1 hr => ?_
  obtain ⟨v, hv, h1⟩ := hr
  match r, h1 with
  | none, h1 =>
    rw [hnone]
    exact endReturn_spec h1 (done_reaped hq hv) _
  | some i, ⟨⟨n, hn⟩, h1⟩ =>
    rw [← lookup_eq hp] at hn
    have hreach := reach_of_lookup hq hp hn
    rw [hsome]
    exact (ilock_found h1 hv hreach).bind fun _ s2 h2 => hk v i n s2 hv hn hreach h2.1 h2.2

theorem sysLink_spec (old new : Option (List UInt8)) :
    Serves (.ofLink (g.lookup p false old) (g.lookup p true new)) g g.Bad (sysLink p old new) s := by
  match old, new with
  | none, _ => exact Wp.pure ⟨g, .refl hq, h⟩
  | some _, none => exact Wp.pure ⟨g, .refl hq, h⟩
  | some old, some new =>
    refine (beginOp_spec h).bind fun _ s1 h1 =>
      namei_ends h1 hq hp rfl (fun _ => rfl) fun v i n s3 hv hn _ hne h3 => ?_
    rw [hn]
    have hi : i ∈ [i] := mem_cons_self ..
    refine (inode_spec h3 hi).bind fun ip s4 hip => ?_
    obtain ⟨rfl, hipt, -⟩ := hip
    rw [hipt]
    refine Wp.ite (fun _ => putReturn_spec h3 hi (done_reaped hq hv) _) fun hdir => ?_
    refine (setNlink_spec (fun n => short (n + 1)) h3 hi).bind fun _ s5 h5 => ?_
    exact linkNew_spec hq hv hp hdir hne h5

/-- **`create` returns a file with the name**, a new one or one that was there, or nothing. -/
theorem create_spec {t major minor : ℤ} (path : List UInt8) (ht : t ≠ 0) :
    Wp (create p path t major minor) (fun r s' => match r with
      | none => Ends (.at (.make t) (g.lookup p true (some path))) g s'
      | some i => Created (.at (.make t) (g.lookup p true (some path))) g t i s')
      (Fails g.sb g.Bad) s := by
  refine (nameiparent_start h hq hp path).bind fun r s1 hr => ?_
  obtain ⟨hr, v, hv, h₁⟩ := hr
  rw [← hr]
  have hd : ∀ o, g.Done o (g.setNode v) := fun _ => done_reaped hq hv
  match r, h₁ with
  | none, h₁ => exact Wp.pure ⟨_, hd _, h₁⟩
  | some (dp, name), ⟨hreach, hdir, h₁⟩ =>
    refine (ilock_found h₁ hv hreach).bind fun _ s2 h2 => ?_
    have hdp : dp ∈ [dp] := mem_cons_self ..
    refine (dirlookup_spec h2.2 hdp).bind fun r s3 h3 => ?_
    obtain ⟨-, h3⟩ := h3
    rw [show ((g.setNode v).take dp).node = v from rfl] at h3
    cases hf : (v dp).find name with
    | some k =>
      rw [hf] at h3
      obtain ⟨rfl, h3⟩ := h3
      set i := ((v dp).slot k).inum
      obtain ⟨hk, hne, -⟩ := Node.find_some hf
      have hsame : v dp = g.node dp := hv.eq_of_type (by rw [hdir]; decide)
      have hreach' : g.Reach i := by
        have hdir' := hdir
        rw [hsame] at hdir' hk hne
        show g.Reach ((v dp).slot k).inum
        rw [hsame]
        exact hreach.slot hdir' hk hne
      rw [Afs.take_comm] at h3
      refine (iputLast_spec h3 hdp).bind fun _ s4 h4 => ?_
      obtain ⟨w, hw, h4⟩ := h4
      have hwg : g.Reaped w := hv.trans hw.of_take
      have h4 : Rep ((g.setNode w).take i) [] s4 := h4
      refine (ilock_found h4 hwg hreach').bind fun _ s5 h5 => ?_
      obtain ⟨hwi, h5⟩ := h5
      have hi : i ∈ [i] := mem_cons_self ..
      refine (inode_spec h5 hi).bind fun ip s6 hip => ?_
      obtain ⟨rfl, hipt, -⟩ := hip
      have hipt : ip.type = (w i).type := hipt
      rw [hipt]
      refine Wp.ite (fun hfile => Wp.pure ?_) fun _ => ?_
      · have hnd : (w i).type ≠ T_DIR := by
          rcases hfile.2 with hty | hty <;> rw [hty] <;> decide
        exact ⟨g.setNode w, done_reaped hq hwg, h5, .inl hreach', fun _ => ⟨hnd,
          .change hq (.of_reaped hwg) (.data hnd hwi rfl rfl)⟩⟩
      · refine (iputLast_spec h5 hi).bind fun _ s7 h7 => Wp.pure ?_
        obtain ⟨w', hw', h7⟩ := h7
        exact ⟨_, (done_reaped hq hwg).sweep (.of_reaped hw'), h7⟩
    | none =>
      rw [hf] at h3
      obtain ⟨rfl, h3⟩ := h3
      refine (ialloc_spec h3 ht).bind fun r s4 h4 => ?_
      match r, h4 with
      | none, h4 =>
        refine (iputLast_spec h4 hdp).bind fun _ s5 h5 => Wp.pure ?_
        obtain ⟨w, hw, h5⟩ := h5
        exact ⟨_, (hd _).sweep (.of_reaped hw), h5⟩
      | some i, ⟨h1, hlt, hzero, h4⟩ =>
        have hvi : v i = .free := h3.free_of_type hzero
        have hnot : ∀ x, g.pts x ≠ some i := fun x hx => h3.type_of_held (x := x) hx hzero
        exact createNew_spec hq hv rfl hdir hf h1 hlt hvi hnot ht h4

variable (path : Option (List UInt8))

theorem sysExec_spec (pieces : List (UInt32 × UInt32)) :
    Serves o g g.Bad (sysExec p path pieces) s := by
  match path with
  | none => exact Wp.pure ⟨g, .refl hq, h⟩
  | some path =>
    refine (beginOp_spec h).bind fun _ s1 h1 =>
      namei_ends h1 hq hp rfl (fun _ => rfl) fun v i _ s3 hv _ _ _ h3 => ?_
    have hi : i ∈ [i] := mem_cons_self ..
    refine Wp.bind (Wp.forM (I := fun _ s' => s' = s3) (fun x xs s' hs => ?_) pieces rfl) fun _ s4 hs => ?_
    · subst hs
      exact Wp.run_bind (readi_rep h3 hi kernelDst x.2.toNat_lt) (Wp.pure rfl)
    · subst hs
      exact putReturn_spec h3 hi (done_reaped hq hv) _

theorem sysUnlink_spec :
    Serves (.at .remove (g.lookup p true path)) g g.Bad (sysUnlink p path) s := by
  match path with
  | none => exact Wp.pure ⟨g, .refl hq, h⟩
  | some path =>
    refine (beginOp_spec h).bind fun _ s1 h1 => (nameiparent_start h1 hq hp path).bind fun r s2 hr => ?_
    obtain ⟨hr, v, hv, h2⟩ := hr
    rw [← hr]
    have hd : ∀ o, g.Done o (g.setNode v) := fun _ => done_reaped hq hv
    match r, h2 with
    | none, h2 => exact endReturn_spec h2 (hd _) _
    | some (dp, name), ⟨hreach, hdir, h2⟩ =>
      refine (ilock_found h2 hv hreach).bind fun _ s3 h3 => ?_
      have hdp : dp ∈ [dp] := mem_cons_self ..
      refine Wp.ite (fun _ => putReturn_spec h3.2 hdp (hd _) _) fun hname => ?_
      refine (dirlookup_spec h3.2 hdp).bind fun r s4 h4 => ?_
      obtain ⟨-, h4⟩ := h4
      rw [show ((g.setNode v).take dp).node = v from rfl] at h4
      cases hf : (v dp).find name with
      | none =>
        rw [hf] at h4
        obtain ⟨rfl, h4⟩ := h4
        exact putReturn_spec h4 hdp (hd _) _
      | some k =>
        rw [hf] at h4
        obtain ⟨rfl, h4⟩ := h4
        exact unlinkEntry_spec hq hv hreach rfl hdir hname hf rfl h4

theorem createAndPut_spec {t major minor : ℤ} (ht : t ≠ 0) :
    Serves (.at (.make t) (g.lookup p true path)) g g.Bad (createAndPut p path t major minor) s := by
  refine (beginOp_spec h).bind fun _ s1 h1 => ?_
  match path with
  | none => exact endReturn_spec h1 (.refl hq) _
  | some path =>
    refine (create_spec h1 hq hp path ht).bind fun r s2 hr => ?_
    match r, hr with
    | none, ⟨g', hd, h2⟩ => exact endReturn_spec h2 hd _
    | some i, ⟨g', hd, h2, _⟩ => exact putReturn_spec h2 (mem_cons_self ..) hd _

variable [DecidableEq P]

theorem sysOpen_spec (omode : ℕ) :
    Serves (.ofOpen omode (g.lookup p true path)) g g.Bad (sysOpen p path omode) s := by
  match path with
  | none => exact Wp.pure ⟨g, .refl hq, h⟩
  | some path =>
    refine (beginOp_spec h).bind fun _ s1 h1 => Wp.ite (fun hc => ?_) fun _ => ?_
    · rw [Aim.ofOpen, if_pos hc]
      refine (create_spec h1 hq hp path (t := T_FILE) (by decide)).bind fun r s2 hr => ?_
      match r, hr with
      | none, ⟨g', hd, h2⟩ => exact endReturn_spec h2 hd _
      | some i, ⟨g', hd, h2, hreach, hfile⟩ =>
        obtain ⟨hnd, hempty⟩ := hfile rfl
        exact openInode_spec h2 hd hreach (fun hdir => absurd hdir hnd) fun _ => hempty
    · refine namei_ends h1 hq hp rfl (fun _ => rfl) fun v i _ s3 hv _ hreach _ h3 => ?_
      have hi : i ∈ [i] := mem_cons_self ..
      refine (inode_spec h3 hi).bind fun ip s4 hip => ?_
      obtain ⟨rfl, hipt, -⟩ := hip
      have hipt : ip.type = (v i).type := hipt
      rw [hipt]
      refine Wp.ite (fun _ => putReturn_spec h3 hi (done_reaped hq hv) _) fun hmode => ?_
      refine openInode_spec h3 (done_reaped hq hv) (.inl hreach) (fun hdir => ?_) fun hfile => ?_
      · by_contra hne
        exact hmode ⟨hdir, hne⟩
      · have hfile : (v i).type = T_FILE := hfile
        exact .change hq (.of_reaped hv) (.data (by rw [hfile]; decide) (by rw [hfile]; decide) rfl rfl)

theorem sysChdir_spec : Serves o g g.Bad (sysChdir p path) s := by
  refine (beginOp_spec h).bind fun _ s1 h1 => ?_
  match path with
  | none => exact endReturn_spec h1 (.refl hq) _
  | some path =>
    refine namei_ends h1 hq hp rfl (fun _ => rfl) fun v i _ s3 hv _ hreach _ h3 => ?_
    have hi : i ∈ [i] := mem_cons_self ..
    refine (inode_spec h3 hi).bind fun d s' hs => ?_
    obtain ⟨rfl, -⟩ := hs
    refine Wp.ite (fun _ => putReturn_spec h3 hi (done_reaped hq hv) _) fun _ => ?_
    have hcwd : g.pts (.inl p) = some c := (hq.cwd p).trans hp
    refine (putCwd_spec h3 hp hcwd [i] fun j hj => ⟨hj, ?_⟩).bind fun _ s4 h4 => ?_
    · rw [mem_singleton.mp hj]
      exact Multiset.mem_cons_self i _
    obtain ⟨w, hw, h4⟩ := h4
    refine (endOp_spec h4).bind fun _ s5 h5 => Wp.modify_bind (Wp.pure ?_)
    set g2 := ((g.setPts (.inl p) none).setNode w).setCwd p (some i)
    have h6 : Rep (g2.take i) [i] _ := h5.setCwd p (some i)
    refine ⟨g2.setPts (.inl p) (some i), ⟨?_, rfl, rfl, ?_⟩,
      (h6.giveCwd hi (pts_setPts g (.inl p) none)).sub (forall_mem_nil _)⟩
    · have hquiet := hq.setCwd p (some i)
      refine ⟨hquiet.tmp, hquiet.tmpf, fun q => Eq.trans ?_ (hquiet.cwd q), hquiet.fds⟩
      show update (update g.pts (.inl p) none) (.inl p) (some i) (.inl q) = _
      rw [update_idem]
      rfl
    · show Afs.Step o g w (update (update g.pts (.inl p) none) (.inl p) (some i))
      rw [update_idem]
      have hstep := (Afs.Step.refl g).reap (o := o) ((Sweep.of_reaped hv).trans hw)
      exact hstep.hold _ fun j hj => .inl (some.inj hj ▸ hreach)

end Fs

/-! ## All calls -/

namespace FsCall

variable {P : Type} [Fintype P] [DecidableEq P]

/-- What the call is to do, where `lookup` says where paths lead. -/
def aim (c : FsCall P) (lookup : P → Bool → Option (List UInt8) → Option (ℕ × List UInt8)) : Aim :=
  match c with
  | .link p old new => .ofLink (lookup p false old) (lookup p true new)
  | .unlink p path => .at .remove (lookup p true path)
  | .open p path omode => .ofOpen omode (lookup p true path)
  | .mkdir p path => .at (.make T_DIR) (lookup p true path)
  | .mknod p path _ _ => .at (.make T_DEVICE) (lookup p true path)
  | _ => .nothing

/-- **What a system call does**, and the errors it can stop with. -/
theorem call_spec {c : FsCall P} {g : Afs P} {s : FsState P} (h : Rep g [] s) (hq : g.Quiet)
    (he : c.Enabled s) :
    Wp c.body (fun _ => Fs.Ends (c.aim g.lookup) g) (Fails g.sb g.Bad) s := by
  obtain ⟨hcwd, hchild, hpage⟩ := he
  obtain ⟨i, hi⟩ := ne_none_iff_exists'.mp hcwd
  rw [h.proc] at hi hchild
  rw [h.pipe] at hpage
  cases c with
  | dup p fd => exact sysDup_spec h hq fd
  | read p fd dst n dev => exact sysRead_spec h hq fd dst n dev
  | write p fd src n dev => exact sysWrite_spec h hq fd src n dev
  | close p fd => exact sysClose_spec h hq fd
  | fstat p fd copied => exact sysFstat_spec h hq fd copied
  | link p old new => exact sysLink_spec h hq hi old new
  | unlink p path => exact sysUnlink_spec h hq hi path
  | «open» p path omode => exact sysOpen_spec h hq hi path omode
  | mkdir p path | mknod p path major minor => exact createAndPut_spec h hq hi path (by decide)
  | chdir p path => exact sysChdir_spec h hq hi path
  | exec p path pieces => exact sysExec_spec h hq hi path pieces
  | pipe p page copied0 copied1 => exact sysPipe_spec h hq hpage copied0 copied1
  | fork p child =>
    obtain ⟨hnone, hfree⟩ := hchild child rfl
    exact sysFork_spec h hq hi hnone hfree
  | exit p => exact sysExit_spec h hq hi

end FsCall

end Xv6
