import Mathlib.Data.List.GetD
import Xv6.Fs.Abstract
import Xv6.Fs.Directory

/-!
# Directories and paths, abstractly

A directory is a file that consists of slots. `find` is the first slot with a name in it, and `walk`
follows the elements of a path through the directories of an abstract file system. The functions of
`Xv6.Fs.Directory` compute these: a lookup finds the slot that `find` gives, and `namex` ends at the
file that `walk` gives. On the way directories may disappear that have no links; one that the path
comes to later makes `ilock` panic.
-/

open List Option

namespace Xv6

open Dirent Node

variable {P : Type}

/-! ## Slots -/

namespace Dirent

/-- The name fits, and the inode number is a `ushort`. -/
structure Wf (de : Dirent) : Prop where
  inum : de.inum < 2 ^ 16
  name : de.name.length = DIRSIZ

theorem decode_encode {de : Dirent} (h : de.Wf) : decode de.encode = de := by
  unfold decode encode
  have hinum : (UInt8.ofNat de.inum).toNat + 256 * (UInt8.ofNat (de.inum / 256)).toNat = de.inum := by
    have := h.inum
    simp only [UInt8.toNat_ofNat']
    omega
  have hname : ((UInt8.ofNat de.inum :: UInt8.ofNat (de.inum / 256) :: de.name).drop 2).take DIRSIZ =
      de.name := by
    rw [drop_succ_cons, drop_succ_cons, drop_zero, ← h.name, take_length]
  cases de with
  | mk inum name =>
    simp only [getD_cons_zero, getD_cons_succ] at hinum hname ⊢
    rw [hinum, hname]

theorem encode_length {de : Dirent} (h : de.Wf) : de.encode.length = SIZE := by
  rw [encode, length_cons, length_cons, h.name]
  rfl

/-- The entry is in use and has the name. -/
def Named (name : List UInt8) (de : Dirent) : Prop := de.inum ≠ 0 ∧ namecmp name de.name = 0

instance (name : List UInt8) : DecidablePred (Named name) := fun _ => inferInstanceAs (Decidable (_ ∧ _))

end Dirent

namespace Node

variable {x : Node} {j k : ℕ} {de : Dirent}

def nslots (x : Node) : ℕ := x.size / Dirent.SIZE

def slot (x : Node) (k : ℕ) : Dirent := .decode (x.bytes (k * Dirent.SIZE) Dirent.SIZE)

def setSlot (x : Node) (k : ℕ) (de : Dirent) : Node := x.store (k * Dirent.SIZE) de.encode

def find (x : Node) (name : List UInt8) : Option ℕ :=
  (range x.nslots).find? fun k => decide ((x.slot k).Named name)

theorem slot_setSlot (h : de.Wf) (x : Node) (j k : ℕ) :
    (x.setSlot k de).slot j = if j = k then de else x.slot j := by
  have hlen := encode_length h
  unfold slot
  split_ifs with hjk
  · subst hjk
    have hbytes : (x.setSlot j de).bytes (j * Dirent.SIZE) Dirent.SIZE = de.encode := by
      refine ext_getElem (by simp [bytes, hlen]) fun m h1 h2 => ?_
      simp only [bytes, getElem_map, getElem_range, setSlot, store]
      rw [if_pos (by omega), Nat.add_sub_cancel_left, getD_eq_getElem _ _ h2]
    rw [hbytes, decode_encode h]
  · congr 1
    refine map_congr_left fun m hm => ?_
    have hm := mem_range.mp hm
    show (if _ then _ else _) = _
    refine if_neg fun hr => hjk ?_
    rw [hlen] at hr
    simp only [Dirent.SIZE, DIRSIZ] at hr hm
    omega

theorem setSlot_size (h : de.Wf) (x : Node) (k : ℕ) :
    (x.setSlot k de).size = max x.size ((k + 1) * Dirent.SIZE) := by
  show max x.size (k * Dirent.SIZE + de.encode.length) = _
  rw [encode_length h, Nat.succ_mul]

theorem nslots_le (h : x.size ≤ k * Dirent.SIZE) : x.nslots ≤ k := by
  refine Nat.div_le_of_le_mul ?_
  rw [Nat.mul_comm]
  exact h

theorem find_some {name : List UInt8} (h : x.find name = some k) :
    k < x.nslots ∧ (x.slot k).Named name :=
  ⟨mem_range.mp (mem_of_find?_eq_some h), by simpa using find?_some h⟩

theorem find_none {name : List UInt8} (h : x.find name = none) (hk : k < x.nslots) :
    ¬ (x.slot k).Named name := by
  have := find?_eq_none.mp h k (mem_range.mpr hk)
  simpa using this

end Node

/-! ## Scanning a directory -/

namespace Fs

open FsState

variable [Fintype P] {g : Afs P} {L L' : List ℕ} {s s' : FsState P} {i j k : ℕ} {D : ℕ → Prop}
  {name : List UInt8}

/-- The entries from `k` on. -/
theorem range_find (n k : ℕ) (p : ℕ → Bool) (hk : k < n) : (range' k (n - k)).find? p =
      if p k then some k else (range' (k + 1) (n - (k + 1))).find? p := by
  rw [show n - k = n - (k + 1) + 1 by omega, range'_succ, find?_cons]
  cases p k <;> rfl

theorem range_find_nil {n k : ℕ} (p : ℕ → Bool) (hk : n ≤ k) :
    (range' k (n - k)).find? p = none := by
  rw [Nat.sub_eq_zero_of_le hk]
  rfl

section Volume

variable (ho : s.vol.Owned) (hv : s.Valid i) (hl : s.vol.Live i)

include ho hv hl

omit [Fintype P]

theorem readDirent_vol (e : FsError) (hk : k * Dirent.SIZE < (s.vol.node i).size) :
    Wp (readDirent e i (k * Dirent.SIZE))
      (fun de s' => s' = s ∧ k < (s.vol.node i).nslots ∧ de = (s.vol.node i).slot k)
      (fun e' => e' = e ∧ ¬ Dirent.SIZE ∣ (s.vol.node i).size) s := by
  have hsize := size_le ho hl
  have hmax : MAXFILE * BSIZE + Dirent.SIZE < 2 ^ 32 := by decide
  have hnode : (s.vol.node i).size = (s.eff i).size := Volume.node_size hl
  refine Wp.run_bind (readi_owned kernelDst ho hv hl _ (by decide)) ?_
  rw [readTo_all kernelDst (fun _ => rfl) hl (by omega) (by omega), ← hnode]
  refine Wp.ite (fun hpart => Wp.throw ⟨rfl, fun hdvd => hpart ?_⟩) fun hfull => Wp.pure ⟨rfl, ?_, ?_⟩
  · obtain ⟨n, hn⟩ := hdvd
    rw [hn, Nat.mul_comm, Nat.mul_lt_mul_left (by decide)] at hk
    have hle : (k + 1) * Dirent.SIZE ≤ (s.vol.node i).size := by
      rw [hn, Nat.mul_comm]
      exact Nat.mul_le_mul_left _ hk
    rw [Nat.succ_mul] at hle
    rw [Nat.min_eq_left (by omega)]
  all_goals
    have hmin : min Dirent.SIZE ((s.vol.node i).size - k * Dirent.SIZE) = Dirent.SIZE := by
      exact_mod_cast not_not.mp hfull
  · unfold nslots
    rw [Nat.lt_iff_add_one_le, Nat.le_div_iff_mul_le (by decide), Nat.succ_mul]
    omega
  · rw [hmin]
    rfl

/-- The loop of `dirlookup` finds the first entry with the name. -/
theorem lookupLoop_vol (name : List UInt8) (fuel k : ℕ) (hfuel : (s.vol.node i).nslots < k + fuel) :
    Wp (lookupLoop i name fuel (k * Dirent.SIZE)) (fun r s' => s' = s ∧
      r = ((range' k ((s.vol.node i).nslots - k)).find? fun k =>
        decide (((s.vol.node i).slot k).Named name)).map fun k =>
          (((s.vol.node i).slot k).inum, k * Dirent.SIZE))
      (fun e => e = .dirlookupRead ∧ ¬ Dirent.SIZE ∣ (s.vol.node i).size) s := by
  induction fuel generalizing k with
  | zero =>
    refine Wp.pure ⟨rfl, ?_⟩
    rw [range_find_nil _ (by omega)]
    rfl
  | succ fuel ih =>
    refine Wp.run_bind (inode_run hv) ?_
    have hsize : (s.eff i).size = (s.vol.node i).size := (Volume.node_size hl).symm
    rw [hsize]
    refine Wp.ite (fun hlt => ?_) fun hge => Wp.pure ⟨rfl, ?_⟩
    · refine (readDirent_vol ho hv hl _ hlt).bind fun de s' hde => ?_
      obtain ⟨rfl, hk, rfl⟩ := hde
      rw [range_find _ _ _ hk]
      refine Wp.ite (fun hn => Wp.pure ⟨rfl, ?_⟩) fun hn => ?_
      · have hnamed : ((s'.vol.node i).slot k).Named name := hn
        rw [if_pos (decide_eq_true hnamed)]
        rfl
      · have hnamed : ¬ ((s'.vol.node i).slot k).Named name := hn
        rw [if_neg fun hd => hnamed (of_decide_eq_true hd)]
        have hrec := ih (k + 1) (by omega)
        rw [Nat.succ_mul] at hrec
        exact hrec
    · rw [range_find_nil _ (nslots_le (Nat.le_of_not_lt hge))]
      rfl

/-- The loop of `dirlink` finds the first empty entry, or the end of the directory. -/
theorem emptyLoop_vol (fuel k : ℕ) (hfuel : (s.vol.node i).nslots < k + fuel)
    (hk : k * Dirent.SIZE ≤ (s.vol.node i).size) :
    Wp (emptyLoop i fuel (k * Dirent.SIZE)) (fun off s' => s' = s ∧
      match (range' k ((s.vol.node i).nslots - k)).find? fun k =>
        decide (((s.vol.node i).slot k).inum = 0) with
      | some j => off = j * Dirent.SIZE
      | none => off = (s.vol.node i).nslots * Dirent.SIZE ∧ off = (s.vol.node i).size)
      (fun e => e = .dirlinkRead ∧ ¬ Dirent.SIZE ∣ (s.vol.node i).size) s := by
  have hle : k ≤ (s.vol.node i).nslots := (Nat.le_div_iff_mul_le (by decide)).mpr hk
  induction fuel generalizing k with
  | zero => omega
  | succ fuel ih =>
    refine Wp.run_bind (inode_run hv) ?_
    have hsize : (s.eff i).size = (s.vol.node i).size := (Volume.node_size hl).symm
    rw [hsize]
    refine Wp.ite (fun hlt => ?_) fun hge => Wp.pure ⟨rfl, ?_⟩
    · refine (readDirent_vol ho hv hl _ hlt).bind fun de s' hde => ?_
      obtain ⟨rfl, hks, rfl⟩ := hde
      rw [range_find _ _ _ hks]
      refine Wp.ite (fun hz => Wp.pure ⟨rfl, ?_⟩) fun hz => ?_
      · rw [if_pos (decide_eq_true hz)]
      · rw [if_neg fun hd => hz (of_decide_eq_true hd)]
        have hrec := ih (k + 1) (by omega) ((Nat.le_div_iff_mul_le (by decide)).mp hks) hks
        rw [Nat.succ_mul] at hrec
        exact hrec
    · have hn := nslots_le (Nat.le_of_not_lt hge)
      rw [range_find_nil _ hn]
      refine ⟨by rw [Nat.le_antisymm hle hn], ?_⟩
      omega

end Volume

theorem readDirent_spec (h : Rep g L s) (hi : i ∈ L) {e : FsError} (he : e.Ordinary)
    (hk : k * Dirent.SIZE < (g.node i).size) :
    Wp (readDirent e i (k * Dirent.SIZE))
      (fun de s' => s' = s ∧ k < (g.node i).nslots ∧ de = (g.node i).slot k) (Fails g.sb D) s := by
  have hv := h.locked i hi
  rw [← h.node] at hk ⊢
  refine (readDirent_vol h.owned hv (h.live i hv) e hk).mono_err fun e' he' => .inl ?_
  rw [he'.1]
  exact he

/-- **`dirlookup` finds the first entry with the name**, and takes a reference to its inode. -/
theorem dirlookup_spec (h : Rep g L s) (hi : i ∈ L) :
    Wp (dirlookup i name) (fun r s' => (g.node i).type = T_DIR ∧ match (g.node i).find name with
      | none => r = none ∧ Rep g L s'
      | some k => r = some (((g.node i).slot k).inum, k * Dirent.SIZE) ∧
          Rep (g.take ((g.node i).slot k).inum) L s') (Fails g.sb D) s := by
  refine (inode_spec h hi).bind fun d s' hd => ?_
  obtain ⟨rfl, htype, -, hsize⟩ := hd
  refine Wp.ite (fun _ => Wp.throw (.inl trivial)) fun hdir => ?_
  rw [hsize]
  have hv := h.locked i hi
  have hloop := lookupLoop_vol h.owned hv (h.live i hv) name ((g.node i).size / Dirent.SIZE + 1) 0
    (by rw [h.node]; unfold nslots; omega)
  rw [Nat.zero_mul] at hloop
  refine (hloop.mono_err fun e he => .inl (he.1.symm ▸ trivial)).bind fun r s' hr => ?_
  obtain ⟨rfl, rfl⟩ := hr
  rw [h.node]
  have hfind : (range' 0 ((g.node i).nslots - 0)).find? (fun k =>
      decide (((g.node i).slot k).Named name)) = (g.node i).find name := by
    rw [Nat.sub_zero, ← range_eq_range']
    rfl
  rw [hfind]
  have hdir' : (g.node i).type = T_DIR := htype ▸ not_not.mp hdir
  cases (g.node i).find name with
  | none => exact Wp.pure ⟨hdir', rfl, h⟩
  | some k => exact (iget_spec h).bind fun _ s' h' => Wp.pure ⟨hdir', rfl, h'⟩

/-- The loop of `dirlink` finds an empty entry, or the end of the directory. -/
theorem emptyLoop_spec (h : Rep g L s) (hi : i ∈ L) :
    Wp (emptyLoop i ((g.node i).size / Dirent.SIZE + 1) 0) (fun off s' => s' = s ∧
      ∃ j, off = j * Dirent.SIZE ∧ (j < (g.node i).nslots ∧ ((g.node i).slot j).inum = 0 ∨
        j * Dirent.SIZE = (g.node i).size)) (Fails g.sb D) s := by
  have hv := h.locked i hi
  have hloop := emptyLoop_vol h.owned hv (h.live i hv) ((g.node i).size / Dirent.SIZE + 1) 0
    (by rw [h.node]; unfold nslots; omega) (by omega)
  rw [Nat.zero_mul, h.node] at hloop
  refine (hloop.mono_err fun e he => .inl (he.1.symm ▸ trivial)).mono fun off s' ho => ⟨ho.1, ?_⟩
  obtain ⟨-, ho⟩ := ho
  cases hf : (range' 0 ((g.node i).nslots - 0)).find? fun k =>
      decide (((g.node i).slot k).inum = 0) with
  | none =>
    rw [hf] at ho
    exact ⟨_, ho.1, .inr (ho.1.symm.trans ho.2)⟩
  | some j =>
    rw [hf] at ho
    have hj := mem_of_find?_eq_some hf
    rw [Nat.sub_zero, ← range_eq_range', mem_range] at hj
    have hz : ((g.node i).slot j).inum = 0 := by simpa using find?_some hf
    exact ⟨j, ho, .inl ⟨hj, hz⟩⟩

theorem strncpy_length (t : List UInt8) (n : ℕ) : (strncpy t n).length = n := by
  induction n generalizing t with
  | zero => rfl
  | succ n ih =>
    unfold strncpy
    split_ifs
    · simp
    · rw [length_cons, ih]

/-- The entry that `dirlink` writes. -/
def newDirent (name : List UInt8) (inum : ℕ) : Dirent := ⟨inum % 2 ^ 16, strncpy name DIRSIZ⟩

theorem newDirent_wf (name : List UInt8) (inum : ℕ) : (newDirent name inum).Wf :=
  ⟨Nat.mod_lt _ (by decide), strncpy_length _ _⟩

/-- **`dirlink` writes an entry with a new name**, into an empty slot or at the end, or fails. -/
theorem dirlink_spec (h : Rep g L s) (hi : i ∈ L) (hL : ∀ j ∈ L, g.Held j) (inum : ℕ) :
    Wp (dirlink i name inum) (fun r s' =>
      (r < 0 ∧ ∃ v, g.Reaped v ∧ Rep (g.setNode v) L s') ∨
      (¬ r < 0 ∧ (g.node i).type = T_DIR ∧ (g.node i).find name = none ∧ ∃ k,
        (k < (g.node i).nslots ∧ ((g.node i).slot k).inum = 0 ∨ k * Dirent.SIZE = (g.node i).size) ∧
        Rep (g.update i ((g.node i).setSlot k (newDirent name inum))) L s')) (Fails g.sb D) s := by
  refine (dirlookup_spec h hi).bind fun r s' hr => ?_
  obtain ⟨hdir, hr⟩ := hr
  cases hf : (g.node i).find name with
  | some k =>
    rw [hf] at hr
    obtain ⟨rfl, h'⟩ := hr
    refine (iput_spec L h' (.inr (h.orphans _)) fun j hj => ⟨hj, hL j hj⟩).bind
      fun _ s' hs => Wp.pure ?_
    obtain ⟨v, hv, hrep, -⟩ := hs
    exact .inl ⟨by decide, v, hv, hrep⟩
  | none =>
    rw [hf] at hr
    obtain ⟨rfl, h'⟩ := hr
    refine (inode_spec h' hi).bind fun d s'' hd => ?_
    obtain ⟨rfl, -, -, hsize⟩ := hd
    rw [hsize]
    refine (emptyLoop_spec h' hi).bind fun off s'' ho => ?_
    obtain ⟨rfl, k, rfl, hk⟩ := ho
    have hlen := encode_length (newDirent_wf name inum)
    have hblock : k * Dirent.SIZE % BSIZE + (newDirent name inum).encode.length ≤ BSIZE := by
      rw [hlen]
      simp only [Dirent.SIZE, DIRSIZ, BSIZE]
      omega
    have hw := writei_kernel (D := D) h' hi (newDirent name inum).encode (k * Dirent.SIZE)
      (by rw [hlen]; decide) hblock
    rw [hlen] at hw
    refine hw.bind fun r s'' hr => ?_
    rcases hr with ⟨rfl, -, hrep⟩ | ⟨hne, hrep⟩
    · rw [if_neg (not_not.mpr rfl)]
      exact Wp.pure (.inr ⟨by decide, hdir, rfl, k, hk, hrep⟩)
    · rw [if_pos hne]
      exact Wp.pure (.inl ⟨by decide, g.node, .refl g, hrep⟩)

/-! ## Paths -/

/-- **Following a path** from file `i`. -/
def walk (v : ℕ → Node) (parent : Bool) : List (List UInt8) → ℕ → Option (ℕ × List UInt8)
  | [], i => if parent then none else some (i, [])
  | name :: path, i =>
    if (v i).type ≠ T_DIR then none
    else if parent ∧ path = [] then some (i, name)
    else
      match (v i).find name with
      | none => none
      | some k => walk v parent path ((v i).slot k).inum

/-- A path leads from `i` to `t`. -/
inductive Visits (v : ℕ → Node) : ℕ → ℕ → Prop
  | refl (i : ℕ) : Visits v i i
  | step {i k t : ℕ} : (v i).type = T_DIR → k < (v i).nslots → ((v i).slot k).inum ≠ 0 →
      Visits v ((v i).slot k).inum t → Visits v i t

theorem Visits.trans {v : ℕ → Node} {t u : ℕ} (h : Visits v i t) (h' : Visits v t u) :
    Visits v i u := by
  induction h with
  | refl => exact h'
  | step hdir hk hne _ ih => exact .step hdir hk hne (ih h')

theorem visits_of_walk {v : ℕ → Node} {parent : Bool} {path : List (List UInt8)} {t : ℕ}
    (h : walk v parent path i = some (t, name)) : Visits v i t := by
  induction path generalizing i with
  | nil =>
    unfold walk at h
    split_ifs at h
    obtain ⟨rfl, -⟩ := Prod.mk.inj (some.inj h)
    exact .refl _
  | cons name' path ih =>
    unfold walk at h
    split_ifs at h with hdir hlast
    · obtain ⟨rfl, -⟩ := Prod.mk.inj (some.inj h)
      exact .refl _
    · cases hf : (v i).find name' with
      | none =>
        rw [hf] at h
        contradiction
      | some k =>
        rw [hf] at h
        obtain ⟨hk, hne, -⟩ := find_some hf
        exact .step (not_not.mp hdir) hk hne (ih h)

/-- Link counts do not matter to a path. -/
theorem walk_relinked {v w : ℕ → Node} {parent : Bool} (h : ∀ j, ∃ n, w j = { v j with nlink := n })
    (path : List (List UInt8)) (i : ℕ) : walk w parent path i = walk v parent path i := by
  induction path generalizing i with
  | nil => rfl
  | cons name path ih =>
    obtain ⟨n, hn⟩ := h i
    unfold walk
    rw [hn]
    show (if (v i).type ≠ T_DIR then none else if _ then _ else
      match (v i).find name with
      | none => none
      | some k => walk w parent path ((v i).slot k).inum) = _
    simp only [ih]

theorem Visits.relinked {v w : ℕ → Node} {t : ℕ} (h : ∀ j, ∃ n, w j = { v j with nlink := n })
    (ht : Visits w i t) : Visits v i t := by
  induction ht with
  | refl i => exact .refl i
  | @step i k t hdir hk hne _ ih =>
    obtain ⟨n, hn⟩ := h i
    rw [hn] at hdir hk hne ih
    exact .step hdir hk hne ih

/-- The file that the call has found is held. -/
def takeFound (g : Afs P) : Option (ℕ × List UInt8) → Afs P
  | none => g
  | some (i, _) => g.take i

/-- What is visited from `i` and is missing, or could disappear, is in `D`. -/
def Sound (g : Afs P) (w : ℕ → Node) (i : ℕ) (D : ℕ → Prop) : Prop :=
  ∀ t, Visits w i t → (w t).type = 0 ∨ (w t).nlink = 0 ∧ ¬ g.Held t → D t

omit [Fintype P] in
theorem Sound.of_type {w : ℕ → Node} (h : Sound g w i D) (hw : (g.setNode w).Reaped g.node)
    {t : ℕ} (ht : Visits w i t) (hz : (g.node t).type = 0) : D t := by
  rcases hw t with he | ⟨-, hn, hh⟩
  · refine h t ht (.inl ?_)
    have hsame : g.node t = w t := he
    rw [← hsame]
    exact hz
  · exact h t ht (.inr ⟨hn, hh⟩)

/-- The loop of `namex` follows the path. The files it started with are `w`; other inodes `K` that the
call has read and holds stay. -/
theorem namexLoop_spec {parent : Bool} {w : ℕ → Node} (K : List ℕ) (path : List (List UInt8)) (i : ℕ)
    (h : Rep (g.take i) L s) (hK : ∀ j ∈ K, j ∈ L ∧ g.Held j)
    (hsafe : parent = true → path = [] → g.Safe i) (hw : (g.setNode w).Reaped g.node)
    (hD : Sound g w i D) :
    Wp (namexLoop parent path i) (fun r s' => r = walk w parent path i ∧ ∃ v, g.Reaped v ∧
      Rep (takeFound (g.setNode v) r) K s' ∧
      (parent = true → ∀ t n, r = some (t, n) → (v t).type = T_DIR)) (Fails g.sb D) s := by
  induction path generalizing i g L s with
  | nil =>
    unfold namexLoop walk
    cases parent with
    | true =>
      refine (iput_spec K h (.inr (hsafe rfl rfl)) hK).bind fun _ s' hs => Wp.pure ?_
      obtain ⟨v, hv, hrep, -⟩ := hs
      exact ⟨rfl, v, hv, hrep, fun _ t n ht => absurd ht.symm (some_ne_none _)⟩
    | false =>
      refine Wp.pure ⟨rfl, g.node, .refl g, ?_, fun ht => absurd ht Bool.false_ne_true⟩
      exact h.sub fun j hj => (hK j hj).1
  | cons name path ih =>
    have hheld : (g.take i).Held i := .inl (Multiset.mem_cons_self i _)
    refine (ilock_spec h hheld fun hz => hD.of_type hw (.refl i) hz).bind fun _ s1 h1 => ?_
    obtain ⟨hne, h1⟩ := h1
    have hi : i ∈ i :: L := mem_cons_self ..
    have hK1 : ∀ j ∈ K, j ∈ i :: L ∧ g.Held j := fun j hj =>
      ⟨mem_cons_of_mem _ (hK j hj).1, (hK j hj).2⟩
    -- `i` is still there, so that the directory is the same
    have hsame : g.node i = w i := hw.eq_of_type hne
    refine (inode_spec h1 hi).bind fun d s' hd => ?_
    obtain ⟨rfl, htype, -, -⟩ := hd
    have htype : d.type = (g.node i).type := htype
    unfold walk
    rw [htype, ← hsame]
    refine Wp.ite (fun hnd => ?_) fun hdir => ?_
    · rw [if_pos hnd]
      refine (iput_spec K h1 (.inl hi) hK1).bind fun _ s' hs => Wp.pure ?_
      obtain ⟨v, hv, hrep, -⟩ := hs
      exact ⟨rfl, v, hv, hrep, fun _ t n ht => absurd ht.symm (some_ne_none _)⟩
    · rw [if_neg hdir]
      refine Wp.ite (fun hlast => ?_) fun hlast => ?_
      · rw [if_pos hlast]
        refine Wp.pure ⟨rfl, g.node, .refl g, ?_, fun _ t n ht => ?_⟩
        · exact h1.sub fun j hj => (hK1 j hj).1
        · obtain ⟨rfl, -⟩ := Prod.mk.inj (some.inj ht)
          exact not_not.mp hdir
      · rw [if_neg hlast]
        refine (dirlookup_spec h1 hi).bind fun r s2 h2 => ?_
        obtain ⟨-, h2⟩ := h2
        have hnode : (g.take i).node = g.node := rfl
        rw [hnode] at h2
        cases hf : (g.node i).find name with
        | none =>
          rw [hf] at h2
          obtain ⟨rfl, h2⟩ := h2
          refine (iput_spec K h2 (.inl hi) hK1).bind fun _ s' hs => Wp.pure ?_
          obtain ⟨v, hv, hrep, -⟩ := hs
          exact ⟨rfl, v, hv, hrep, fun _ t n ht => absurd ht.symm (some_ne_none _)⟩
        | some k =>
          rw [hf] at h2
          obtain ⟨rfl, h2⟩ := h2
          rw [Afs.take_comm] at h2
          refine (iput_spec K h2 (.inl hi) fun j hj =>
            ⟨(hK1 j hj).1, Afs.held_take.mpr (.inr (hK j hj).2)⟩).bind fun _ s3 h3 => ?_
          obtain ⟨v, hv, hrep, -⟩ := h3
          have hv' : g.Reaped v := Afs.Reaped.of_take hv
          have hw' : ((g.setNode v).setNode w).Reaped (g.setNode v).node := hw.trans hv'
          obtain ⟨hk, hinum, -⟩ := find_some hf
          have hstep : ∀ t, Visits w ((g.node i).slot k).inum t → Visits w i t := fun t ht => by
            rw [hsame] at ht hdir hk hinum
            exact .step (not_not.mp hdir) hk hinum ht
          refine (ih ((g.node i).slot k).inum (g := g.setNode v) hrep (fun j hj => ⟨hj, (hK j hj).2⟩)
            (fun hp he => absurd ⟨hp, he⟩ hlast) hw'
            fun t ht hbad => hD t (hstep t ht) hbad).mono fun r s' hr => ?_
          obtain ⟨hr, v', hv'', hrep', hlast'⟩ := hr
          exact ⟨hr, v', hv'.trans hv'', hrep', hlast'⟩

/-- Where a path starts: the root, or the current directory `c`. -/
def pathStart (path : List UInt8) (c : ℕ) : ℕ := if path.head? = some slash then ROOTINO else c

variable {p : P} {path : List UInt8} {parent : Bool} {c : ℕ} {w : ℕ → Node} (h : Rep g L s)
  (hp : (g.proc p).cwd = some c) (hc : g.Held c) (hw : (g.setNode w).Reaped g.node)
  (hD : Sound g w (pathStart path c) D)

include h hp hc hw hD

/-- **`namex` ends where the path leads.** The files that the call started with are `w`. -/
theorem namex_spec (K : List ℕ) (hK : ∀ j ∈ K, j ∈ L ∧ g.Held j) :
    Wp (namex p path parent) (fun r s' =>
      r = walk w parent (elements path) (pathStart path c) ∧ ∃ v, g.Reaped v ∧
      Rep (takeFound (g.setNode v) r) K s' ∧
      (parent = true → ∀ t n, r = some (t, n) → (v t).type = T_DIR)) (Fails g.sb D) s := by
  refine Wp.ite (fun habs => ?_) fun hrel => Wp.get_bind ?_
  · have hstart : pathStart path c = ROOTINO := if_pos habs
    rw [hstart] at hD ⊢
    exact (iget_spec h).bind fun _ s' h' =>
      namexLoop_spec K _ _ h' hK (fun _ _ => h.orphans _) hw hD
  · have hstart : pathStart path c = c := if_neg hrel
    rw [hstart] at hD ⊢
    rw [h.proc, hp]
    exact (idup_spec h hc).bind fun _ s' h' =>
      namexLoop_spec K _ _ h' hK (fun _ _ => h.orphans _) hw hD

theorem nameiparent_spec (K : List ℕ) (hK : ∀ j ∈ K, j ∈ L ∧ g.Held j) :
    Wp (nameiparent p path) (fun r s' => r = walk w true (elements path) (pathStart path c) ∧
      ∃ v, g.Reaped v ∧ match r with
        | none => Rep (g.setNode v) K s'
        | some (d, _) => (v d).type = T_DIR ∧ Rep ((g.setNode v).take d) K s') (Fails g.sb D) s := by
  refine (namex_spec h hp hc hw hD K hK).mono fun r s' hr => ?_
  obtain ⟨hr, v, hv, hrep, hdir⟩ := hr
  refine ⟨hr, v, hv, ?_⟩
  cases r with
  | none => exact hrep
  | some x =>
    obtain ⟨d, n⟩ := x
    exact ⟨hdir rfl d n rfl, hrep⟩

theorem namei_spec : Wp (namei p path) (fun r s' => ∃ v, g.Reaped v ∧ match r with
        | none => Rep (g.setNode v) [] s'
        | some i => (∃ n, walk w false (elements path) (pathStart path c) = some (i, n)) ∧
            Rep ((g.setNode v).take i) [] s') (Fails g.sb D) s := by
  refine (namex_spec h hp hc hw hD [] (forall_mem_nil _)).bind fun r s' hr => ?_
  obtain ⟨hr, v, hv, hrep, -⟩ := hr
  cases r with
  | none => exact Wp.pure ⟨v, hv, hrep⟩
  | some x =>
    obtain ⟨i, n⟩ := x
    exact Wp.pure ⟨v, hv, ⟨n, hr.symm⟩, hrep⟩

end Fs

end Xv6
