import Xv6.Fs.Links
import Xv6.Fs.TableRuns
import Xv6.Mkfs.Contents

/-!
# What the kernel reads from an image

`dirlookup` on the root directory finds every file that `mkfs` put into the image, and `readi`
returns its bytes (`kernel_reads_image`), in spite of the hole that the root directory may have: the
entries come before it.

The entries `"."` and `".."` come before those of the files. A file with one of these names is not
found (`dot_file_hidden`).
-/

open Function List Nat

namespace Xv6

open FsState Node Volume

variable {P : Type}

namespace FsState

/-- An entry of the inode table that does not change what the inode is. -/
theorem vol_setEntry_same {s : FsState P} {i : ℕ} {e : Entry}
    (h : (if e.valid then e.din else s.dinode i) = s.eff i) : (s.setEntry i (some e)).vol = s.vol := by
  refine Volume.ext rfl (funext fun j => ?_) rfl rfl
  by_cases hj : j = i
  · subst hj
    show (s.setEntry j (some e)).eff j = s.eff j
    rw [← h, eff]
    simp only [setEntry, update_self]
  · refine eff_congr ?_ rfl
    simp only [setEntry, update_of_ne hj]

end FsState

/-! ## Looking a name up -/

namespace Fs

open FsState

variable {s : FsState P} {i k m : ℕ} {name : List UInt8} {e : Entry}

section Found

variable (h : s.vol.Mapped) (hv : s.Valid i) (hi : s.vol.Live i) (hsize : (s.eff i).size < 2 ^ 32)
  (hm : (m + 1) * Dirent.SIZE ≤ (s.eff i).size) (hc : Covered s i 0 ((m + 1) * Dirent.SIZE))
  (hnamed : ((s.vol.node i).slot m).Named name)
  (hnot : ∀ k < m, ¬ ((s.vol.node i).slot k).Named name)

include h hv hi hsize hm hc hnamed hnot

/-- The loop comes to the first entry with the name, if the directory has its blocks up to there. -/
theorem lookupLoop_found (fuel : ℕ) (hk : k ≤ m) (hfuel : m < k + fuel) :
    Wp (lookupLoop i name fuel (k * Dirent.SIZE)) (fun r t =>
      r = some (((s.vol.node i).slot m).inum, m * Dirent.SIZE) ∧ t = s) (fun _ => False) s := by
  induction fuel generalizing k with
  | zero => omega
  | succ fuel ih =>
    have hend : k * Dirent.SIZE + Dirent.SIZE ≤ (m + 1) * Dirent.SIZE := by
      rw [← succ_mul]
      exact mul_le_mul_right _ (by omega)
    have hpos : 0 < Dirent.SIZE := by decide
    have hmin : min Dirent.SIZE ((s.eff i).size - k * Dirent.SIZE) = Dirent.SIZE := by omega
    refine Wp.run_bind (inode_run hv) (Wp.ite (fun _ => ?_) fun hge => absurd ?_ hge)
    · have hread := readi_to kernelDst h hv hi hsize (k * Dirent.SIZE) (n := Dirent.SIZE) (by decide) (by
        rw [hmin]
        exact fun p _ hp => hc p (zero_le p) (by omega))
      refine Wp.bind (q := fun de t => de = (s.vol.node i).slot k ∧ t = s)
        (Wp.run_bind hread ?_) fun de t hde => ?_
      · rw [readTo_all kernelDst (fun _ => rfl) hi (by omega) (by omega), hmin]
        exact Wp.ite (fun hne => absurd rfl hne) fun _ => Wp.pure ⟨rfl, rfl⟩
      · obtain ⟨rfl, rfl⟩ := hde
        refine Wp.ite (fun hfound => Wp.pure ?_) fun hnext => ?_
        · have hkm : k = m := by
            by_contra hne
            exact hnot k (by omega) hfound
          rw [hkm]
          exact ⟨rfl, rfl⟩
        · have hkm : k ≠ m := fun he => hnext (he ▸ hnamed)
          have hrec := ih (k := k + 1) (by omega) (by omega)
          rwa [succ_mul] at hrec
    · omega

theorem dirlookup_found (hdir : (s.eff i).type = T_DIR) {t : FsState P}
    (hget : (iget ((s.vol.node i).slot m).inum).run s = .ok ((), t)) :
    (dirlookup i name).run s = .ok (some (((s.vol.node i).slot m).inum, m * Dirent.SIZE), t) := by
  have hmul : m * Dirent.SIZE ≤ (s.eff i).size :=
    le_trans (mul_le_mul_right _ (le_succ m)) hm
  have hfuel : m < 0 + ((s.eff i).size / Dirent.SIZE + 1) := by
    have := (le_div_iff_mul_le (by decide)).mpr hmul
    omega
  have hloop := lookupLoop_found h hv hi hsize hm hc hnamed hnot _ (zero_le m) hfuel
  rw [zero_mul] at hloop
  obtain ⟨r, u, hrun, rfl, rfl⟩ := hloop.exists_run
  unfold dirlookup
  rw [Wp.run_bind_eq (inode_run hv), if_neg (not_not.mpr hdir), Wp.run_bind_eq hrun]
  show (_ >>= _ : FsM P _).run _ = _
  rw [Wp.run_bind_eq hget]
  rfl

end Found

theorem iget_new (hnone : s.itable i = none) (hspace : s.nentries < NINODE) :
    (iget i).run s = .ok ((), s.setEntry i (some ⟨1, false, .fresh 0⟩)) := by
  rw [iget_run (.inr hspace), FsState.take, hnone]
  rfl

theorem iget_again (he : s.itable i = some e) :
    (iget i).run s = .ok ((), s.setEntry i (some { e with ref := e.ref + 1 })) := by
  rw [iget_run (.inl (by simp [he])), FsState.take, he]
  rfl

theorem ilock_again (hv : s.Valid i) : (ilock i).run s = .ok ((), s) := by
  obtain ⟨e, he, hvalid⟩ := hv
  unfold ilock
  rw [Wp.run_bind_eq (entry_run he), hvalid]
  rfl

theorem ilock_new (he : s.itable i = some e) (hv : e.valid = false) (hi : i < s.sb.ninodes)
    (ht : (s.dinode i).type ≠ 0) :
    (ilock i).run s = .ok ((), s.setEntry i (some { e with valid := true, din := s.dinode i })) := by
  unfold ilock
  rw [Wp.run_bind_eq (entry_run he), hv]
  show (if i < s.sb.ninodes then if (s.dinode i).type = 0 then _ else _ else _ : FsM P Unit).run s = _
  rw [if_pos hi, if_neg ht]
  rfl

end Fs

/-! ## The root directory of an image -/

namespace Mkfs

open Volume NamedFiles

variable {s : Mkfs} {fs : NamedFiles} {k : ℕ} {name : List UInt8} {d : Dirent}

theorem round_up {z : ℕ} (hz : z ≤ MAXFILE * BSIZE) :
    z ≤ (z / BSIZE + 1) * BSIZE ∧ (z / BSIZE + 1) * BSIZE < 2 ^ 32 := by
  simp only [MAXFILE, NDIRECT, NINDIRECT, BSIZE] at *
  omega

namespace Made

variable (h : Made fs s)

include h

theorem live_root : s.volume.Live ROOTINO := by
  obtain ⟨v, hv, hview⟩ := h.files
  have hlive : s.view.Live ROOTINO := by
    rw [hview]
    exact live_setInode_self.mpr ⟨hv.live_root.1, hv.live_root.2⟩
  exact volume_live.mpr hlive

theorem root_type : (s.volume.inode ROOTINO).type = T_DIR := by
  obtain ⟨v, hv, hview⟩ := h.files
  have htype : (v.inode ROOTINO).type = T_DIR := by
    rw [← node_type hv.live_root, hv.root]
    rfl
  rw [volume_inode (by decide), hview]
  simp only [setSize, Volume.setInode, update_self]
  exact htype

/-- The entries are before the end of the directory, and before its hole. -/
theorem root_covered : (fs.length + 2) * Dirent.SIZE ≤ (s.volume.inode ROOTINO).size ∧
    (s.volume.inode ROOTINO).size < 2 ^ 32 ∧
    ∀ p < (fs.length + 2) * Dirent.SIZE, s.volume.addr (ROOTINO, blockSlot (p / BSIZE)) ≠ 0 := by
  obtain ⟨v, hv, haddr, hsize, -⟩ := h.volume_eq
  have hroot : (v.inode ROOTINO).size = (fs.length + 2) * Dirent.SIZE := by
    rw [← node_size hv.live_root, hv.root_size]
  have hle := hv.exact.size_le hv.live_root
  have hcov : ∀ p < (fs.length + 2) * Dirent.SIZE, v.addr (ROOTINO, blockSlot (p / BSIZE)) ≠ 0 :=
    fun p hp => hv.exact.addr_ne_zero hv.live_root (by rw [hroot]; exact hp)
  rw [hroot] at hsize hle
  rw [hsize, haddr]
  exact ⟨(round_up hle).1, (round_up hle).2, hcov⟩

/-- **The entries of the root directory.** -/
theorem root_slot (hk : (dirents fs)[k]? = some d) : (s.volume.node ROOTINO).slot k = d := by
  obtain ⟨v, hv, hview⟩ := h.files
  have hklt : k < fs.length + 2 := by
    rw [← dirents_length]
    exact (List.getElem?_eq_some_iff.mp hk).1
  have hroot : (v.inode ROOTINO).size = (fs.length + 2) * Dirent.SIZE := by
    rw [← node_size hv.live_root, hv.root_size]
  have hcov := h.root_covered
  rw [← slot_flatMap dirents_wf T_DIR hk, ← hv.root]
  refine congrArg Dirent.decode (List.map_congr_left fun r hr => ?_)
  have hp : k * Dirent.SIZE + r < (fs.length + 2) * Dirent.SIZE := by
    have := List.mem_range.mp hr
    have := mul_le_mul_right Dirent.SIZE (show k + 1 ≤ fs.length + 2 from hklt)
    rw [succ_mul] at this
    omega
  rw [node_byte h.live_root (lt_of_lt_of_le hp hcov.1),
    node_byte hv.live_root (by rw [hroot]; exact hp)]
  -- the size is all that differs from `v`, which has the blocks of the entries
  have haddr : s.view.addr = v.addr := by
    rw [hview]
    exact addr_setInode (addr_setInode_fields hv.live_root rfl hv.live_root.2)
  have hne := hcov.2.2 _ hp
  rw [volume_addr h.mapped.1] at hne
  have hblock := view_block (s := s) (h.mapped.1.inData hne)
  rw [haddr, show s.view.block = v.block by rw [hview]; rfl] at hblock
  exact byte_congr ((congrFun (volume_addr h.mapped.1) _).trans (congrFun haddr _)) hblock.symm

theorem volume_file {x : List UInt8 × List UInt8} (hk : fs[k]? = some x) :
    s.volume.Live (k + 2) ∧ s.volume.node (k + 2) = .ofBytes T_FILE x.2 ∧
    ∀ p < (s.volume.inode (k + 2)).size, s.volume.addr (k + 2, blockSlot (p / BSIZE)) ≠ 0 := by
  obtain ⟨v, hv, hview⟩ := h.files
  have hne : k + 2 ≠ ROOTINO := by
    simp only [ROOTINO]
    omega
  have hlive : s.view.Live (k + 2) := by
    rw [hview]
    exact (live_setInode_of_ne hne).mpr (hv.live_file hk)
  have hinode : s.view.inode (k + 2) = v.inode (k + 2) := by
    rw [hview]
    simp only [setSize, Volume.setInode, update_of_ne hne]
  have haddr : ∀ n, s.view.addr (k + 2, n) = v.addr (k + 2, n) := fun n => by
    rw [hview]
    exact addr_setInode_of_ne hne
  have hcover : ∀ bn, bn * BSIZE < (s.view.inode (k + 2)).size →
      s.view.addr (k + 2, blockSlot bn) ≠ 0 := by
    rw [hinode]
    intro bn hbn
    rw [haddr]
    exact hv.exact.cover _ (hv.live_file hk) bn hbn
  refine ⟨volume_live.mpr hlive, ?_, fun p hp => ?_⟩
  · rw [volume_node h.mapped.1 hlive hcover, hview]
    exact (node_setInode_of_ne hne).trans (hv.file k x hk)
  · rw [volume_inode hlive.1] at hp
    rw [volume_addr h.mapped.1]
    exact hcover _ (lt_of_le_of_lt (div_mul_le_self _ _) hp)

end Made

/-! ## Booting -/

section Boot

variable [DecidableEq P] (init : P) (h : Made fs s)

include h

theorem dirlookup_boot (hk : (dirents fs)[k]? = some d) (hnamed : d.Named name)
    (hnot : ∀ j < k, ∀ e, (dirents fs)[j]? = some e → ¬ e.Named name) {t : FsState P}
    (hget : (Fs.iget d.inum).run (.boot s.volume init) = .ok ((), t)) :
    (Fs.dirlookup ROOTINO name).run (.boot s.volume init) =
      .ok (some (d.inum, k * Dirent.SIZE), t) := by
  have hvol := vol_boot s.volume init
  have heff : (boot s.volume init).eff = s.volume.inode := congrArg inode hvol
  have hklt : k < fs.length + 2 := by
    rw [← dirents_length]
    exact (List.getElem?_eq_some_iff.mp hk).1
  have hslot : ((boot s.volume init).vol.node ROOTINO).slot k = d := by
    rw [hvol]
    exact h.root_slot hk
  have hend : (k + 1) * Dirent.SIZE ≤ (fs.length + 2) * Dirent.SIZE := mul_le_mul_right _ hklt
  obtain ⟨hsize, hlt, hcov⟩ := h.root_covered
  rw [← hslot] at hget ⊢
  refine Fs.dirlookup_found (by rw [hvol]; exact h.mapped.2) ⟨⟨1, true, s.volume.inode ROOTINO⟩, rfl, rfl⟩
    (by rw [hvol]; exact h.live_root) (by rw [heff]; exact hlt) (by rw [heff]; omega)
    (fun p _ hp => ?_) (by rw [hslot]; exact hnamed) (fun j hj => ?_)
    (by rw [heff]; exact h.root_type) hget
  · rw [hvol]
    exact hcov p (by omega)
  · have hjlt : j < (dirents fs).length := by
      rw [dirents_length]
      omega
    rw [hvol, h.root_slot (List.getElem?_eq_getElem hjlt)]
    exact hnot j hj _ (List.getElem?_eq_getElem hjlt)

omit h in
theorem nentries_boot (img : Volume) : (boot img init).nentries < NINODE := by
  unfold nentries
  rw [← countP_eq_length_filter]
  have hcount : (range img.sb.ninodes).countP
      (fun i => ((boot img init).itable i).isSome) = (range img.sb.ninodes).count ROOTINO := by
    refine countP_congr fun i _ => ?_
    show ((if i = ROOTINO then some _ else none : Option Entry).isSome = true) ↔ _
    by_cases hi : i = ROOTINO <;> simp [hi]
  rw [show (boot img init).sb = img.sb from rfl, hcount]
  exact lt_of_le_of_lt (nodup_iff_count_le_one.mp nodup_range ROOTINO) (by decide)

end Boot

/-- **The kernel finds the file**: after boot, `dirlookup` on the root directory finds the name, and `readi`
on the inode returns the bytes. -/
def Reads [DecidableEq P] (img : Volume) (init : P) (name contents : List UInt8) : Prop :=
  ∃ inum off s₁ s₂,
    (Fs.dirlookup ROOTINO name).run (boot img init) = .ok (some (inum, off), s₁) ∧
    (Fs.ilock inum).run s₁ = .ok ((), s₂) ∧
    ∀ n, contents.length ≤ n → n < 2 ^ 32 →
      (Fs.readi inum Fs.kernelDst 0 n).run s₂ = .ok ((contents.length, contents), s₂)

/-- What the list of input files has to meet. -/
structure Suitable (inputs : List MkfsInput) : Prop where
  opens : ∀ a ∈ inputs, a.opens = true
  nonempty : ∀ a ∈ inputs, shortname a.path ≠ []
  length : ∀ a ∈ inputs, (shortname a.path).length ≤ DIRSIZ
  slash : ∀ a ∈ inputs, slash ∉ shortname a.path
  distinct : (inputs.map fun a => shortname a.path).Nodup
  size : ∀ a ∈ inputs, a.contents.length ≤ MAXFILE * BSIZE
  inodes : inputs.length + 2 ≤ NINODES
  blocks : nmeta + blocks (inputs.map MkfsInput.file) ≤ FSSIZE

theorem mem_of_mem_filename {path : List UInt8} {c : UInt8} (hc : c ≠ 95) (h : c ∈ filename path) :
    c ∈ shortname path := by
  unfold shortname
  split_ifs with hu
  · cases hf : filename path with
    | nil =>
      rw [hf] at h
      contradiction
    | cons x l =>
      rw [hf] at h hu
      cases hu
      exact (mem_cons.mp h).resolve_left hc
  · exact h

theorem Suitable.exists_run {inputs : List MkfsInput} (h : Suitable inputs) :
    ∃ s, run inputs = some s ∧ Made (inputs.map MkfsInput.file) s :=
  Mkfs.exists_run (fun a ha => ⟨fun hs => h.slash a ha (mem_of_mem_filename (by decide) hs),
    h.opens a ha, h.length a ha, h.size a ha⟩) h.inodes h.blocks

theorem nul_not_mem_shortname (a : MkfsInput) : (0 : UInt8) ∉ shortname a.path := by
  have hf : (0 : UInt8) ∉ filename a.path := by
    unfold filename
    split_ifs
    · exact fun hz => a.path_nul (mem_of_mem_drop hz)
    · exact a.path_nul
  unfold shortname
  split_ifs
  · exact fun hz => hf (mem_of_mem_tail hz)
  · exact hf

theorem cstring_of_nul_not_mem {l : List UInt8} (h : (0 : UInt8) ∉ l) (hl : l.length ≤ DIRSIZ) :
    cstring l DIRSIZ = l := by
  unfold cstring
  rw [take_of_length_le hl, takeWhile_eq_self_iff]
  intro c hc
  simp only [ne_eq, decide_not, Bool.not_eq_true', decide_eq_false_iff_not]
  rintro rfl
  exact h hc

/-- The entry with a name is the entry that was made with this name. -/
theorem named_iff {i : ℕ} {l : List UInt8} (hi : i ≠ 0) (hn : (0 : UInt8) ∉ name)
    (hlen : name.length ≤ DIRSIZ) (hl : (0 : UInt8) ∉ l) (hllen : l.length ≤ DIRSIZ) :
    Dirent.Named name ⟨i, strncpy l DIRSIZ⟩ ↔ name = l := by
  unfold Dirent.Named
  rw [namecmp_eq_zero_iff, cstring_strncpy, cstring_of_nul_not_mem hn hlen,
    cstring_of_nul_not_mem hl hllen]
  exact and_iff_right hi

theorem dirents_file {x : List UInt8 × List UInt8} (hk : fs[k]? = some x) :
    (dirents fs)[k + 2]? = some ⟨(k + 2) % 2 ^ 16, strncpy x.1 DIRSIZ⟩ := by
  unfold dirents
  rw [getElem?_append_right (by simp), getElem?_mapIdx]
  simp [hk]

theorem bytes_ofBytes (type : ℤ) (l : List UInt8) : (ofBytes type l).bytes 0 l.length = l := by
  refine ext_getElem (by simp [bytes]) fun p h1 h2 => ?_
  simp only [bytes, ofBytes, getElem_map, getElem_range, zero_add]
  exact getD_eq_getElem _ _ h2

theorem readi_all {t : FsState P} {i : ℕ} {type : ℤ} {l : List UInt8} (hm : t.vol.Mapped) (hv : t.Valid i)
    (hi : t.vol.Live i) (hnode : t.vol.node i = .ofBytes type l) (hl : l.length ≤ MAXFILE * BSIZE)
    (hc : Fs.Covered t i 0 l.length) {n : ℕ} (hle : l.length ≤ n) (hlt : n < 2 ^ 32) :
    (Fs.readi i Fs.kernelDst 0 n).run t = .ok ((l.length, l), t) := by
  have hsize : (t.eff i).size = l.length := by
    have := node_size hi
    rw [hnode] at this
    exact this.symm
  have hmin : min n ((t.eff i).size - 0) = l.length := by omega
  have hrun := Fs.readi_to Fs.kernelDst hm hv hi (lt_of_le_of_lt (hsize ▸ hl) (by decide)) 0 hlt
    (by rw [hmin]; exact hc)
  rw [hrun, Fs.readTo_all Fs.kernelDst (fun _ => rfl) hi (zero_le _) (by omega), hmin, hnode, bytes_ofBytes]

theorem reads_of_found [DecidableEq P] {img : Volume} {init : P} {l : List UInt8} {i off : ℕ} {type : ℤ}
    (hlook : (Fs.dirlookup ROOTINO name).run (.boot img init) =
      .ok (some (i, off), (boot img init).setEntry i (some ⟨1, false, .fresh 0⟩)))
    (hm : img.Mapped) (hlive : img.Live i) (hnode : img.node i = .ofBytes type l)
    (hl : l.length ≤ MAXFILE * BSIZE) (hcov : ∀ p < l.length, img.addr (i, blockSlot (p / BSIZE)) ≠ 0) :
    Reads img init name l := by
  have hboot := vol_boot img init
  have heff : (boot img init).eff i = img.inode i := congrFun (congrArg inode hboot) i
  -- neither `iget` nor `ilock` changes the volume
  have hvol1 : ((boot img init).setEntry i (some ⟨1, false, .fresh 0⟩)).vol = img :=
    (vol_setEntry_same (s := .boot img init) (e := ⟨1, false, .fresh 0⟩) heff.symm).trans hboot
  have hvol2 : (((boot img init).setEntry i (some ⟨1, false, .fresh 0⟩)).setEntry i
      (some ⟨1, true, img.inode i⟩)).vol = img :=
    (vol_setEntry_same (e := ⟨1, true, img.inode i⟩)
      (congrFun (congrArg inode hvol1) i).symm).trans hvol1
  refine ⟨_, _, _, _, hlook, Fs.ilock_new (update_self ..) rfl hlive.1 hlive.2, ?_⟩
  intro n hle hlt
  have hnode2 := (congrArg (fun v => node v i) hvol2).trans hnode
  refine readi_all ?_ ⟨_, update_self .., rfl⟩ ?_ hnode2 hl (fun p _ hp => ?_) hle hlt
  · exact hvol2.symm ▸ hm
  · exact hvol2.symm ▸ hlive
  · exact fun hz => hcov p (by omega) ((congrArg (fun v => addr v _) hvol2).symm.trans hz)

/-- **The kernel finds what `mkfs` wrote.** -/
theorem Made.reads [DecidableEq P] (h : Made fs s) (hn : fs.length + 2 ≤ NINODES)
    (hname : ∀ x ∈ fs, (0 : UInt8) ∉ x.1 ∧ x.1.length ≤ DIRSIZ ∧ x.1 ≠ dot ∧ x.1 ≠ dotdot)
    (hdistinct : (fs.map Prod.fst).Nodup) (init : P) {x : List UInt8 × List UInt8}
    (hk : fs[k]? = some x) (hsize : x.2.length ≤ MAXFILE * BSIZE) : Reads s.volume init x.1 x.2 := by
  have hklt := (List.getElem?_eq_some_iff.mp hk).1
  obtain ⟨hx0, hxlen, hxdot, hxdotdot⟩ := hname x (List.mem_of_getElem? hk)
  have hmod : ∀ j ≤ k, (j + 2) % 2 ^ 16 = j + 2 := fun j hj => mod_eq_of_lt (by
    simp only [NINODES] at hn
    omega)
  have hdirent := dirents_file hk
  rw [hmod k le_rfl] at hdirent
  have hother : ∀ j < k + 2, ∀ e, (dirents fs)[j]? = some e → ¬ e.Named x.1 := by
    intro j hj e he
    match j with
    | 0 =>
      cases he
      exact fun hx => hxdot ((named_iff (by decide) hx0 hxlen (by decide) (by decide)).mp hx)
    | 1 =>
      cases he
      exact fun hx => hxdotdot ((named_iff (by decide) hx0 hxlen (by decide) (by decide)).mp hx)
    | j + 2 =>
      have hj : fs[j]? = some fs[j] := List.getElem?_eq_getElem (by omega)
      rw [dirents_file hj, hmod j (by omega)] at he
      cases he
      obtain ⟨hy0, hylen, -, -⟩ := hname _ (List.mem_of_getElem? hj)
      intro hx
      have heq := (named_iff (by omega) hx0 hxlen hy0 hylen).mp hx
      have hmap : (fs.map Prod.fst)[k]? = (fs.map Prod.fst)[j]? := by
        rw [List.getElem?_map, List.getElem?_map, hk, hj]
        exact congrArg some heq
      have := (List.getElem?_inj (by simpa using hklt) hdistinct).mp hmap
      omega
  have hnone : (boot s.volume init).itable (k + 2) = none := rfl
  have hlook := dirlookup_boot init h hdirent ((named_iff (by omega) hx0 hxlen hx0 hxlen).mpr rfl) hother
    (Fs.iget_new hnone (nentries_boot init _))
  obtain ⟨hlive, hnode, hcov⟩ := h.volume_file hk
  refine reads_of_found hlook h.mapped.2 hlive hnode hsize fun p hp => ?_
  refine hcov p ?_
  rw [← node_size hlive, hnode]
  exact hp

theorem sbBlock_word : ∀ k < 8, sbBlock.word k = sbFields.getD k 0 := by decide +kernel

/-- **`mkfs` and the kernel agree on the format.** -/
theorem kernel_reads_image [DecidableEq P] (init : P) {inputs : List MkfsInput} (h : Suitable inputs)
    (hdot : ∀ a ∈ inputs, shortname a.path ≠ dot ∧ shortname a.path ≠ dotdot) :
    ∃ s, run inputs = some s ∧ (∀ k < 8, (s.disk 1).word k = sbFields.getD k 0) ∧
      (∀ b < BPB, (s.disk sb.bmapstart).bit b = true ↔ b < s.freeblock) ∧
      ∀ a ∈ inputs, Reads s.volume init (shortname a.path) a.contents := by
  obtain ⟨s, hs, hmade⟩ := h.exists_run
  refine ⟨s, hs, ?_, fun b _ => ?_, fun a ha => ?_⟩
  · rw [hmade.super]
    exact sbBlock_word
  · rw [hmade.bitmap]
    exact bit_bitmap _ b
  · obtain ⟨k, hk⟩ := mem_iff_getElem?.mp ha
    have hfile : (inputs.map MkfsInput.file)[k]? = some a.file := by
      rw [getElem?_map, hk]
      rfl
    have hn : (inputs.map MkfsInput.file).length + 2 ≤ NINODES := by
      rw [length_map]
      exact h.inodes
    have hdistinct : ((inputs.map MkfsInput.file).map Prod.fst).Nodup := by
      rw [map_map]
      exact h.distinct
    have hname : ∀ x ∈ inputs.map MkfsInput.file,
        (0 : UInt8) ∉ x.1 ∧ x.1.length ≤ DIRSIZ ∧ x.1 ≠ dot ∧ x.1 ≠ dotdot := fun x hx => by
      obtain ⟨b, hb, rfl⟩ := mem_map.mp hx
      exact ⟨nul_not_mem_shortname b, h.length b hb, hdot b hb⟩
    have hreads := hmade.reads hn hname hdistinct init hfile (h.size a ha)
    unfold MkfsInput.file at hreads
    exact hreads

/-- A file of one byte whose short name is a letter. -/
def letterInput (c x : UInt8) (hc : c ≠ 0) : MkfsInput where
  path := [95, c]
  opens := true
  chunks := [[x]]
  path_nul := by
    simp only [mem_cons, not_mem_nil, or_false, not_or]
    exact ⟨by decide, hc.symm⟩
  chunk d hd := by
    obtain rfl := mem_singleton.mp hd
    exact ⟨cons_ne_nil _ _, by simp⟩

theorem suitable_letter {c x : UInt8} (hc : c ≠ 0) (hs : c ≠ slash) :
    Suitable [letterInput c x hc] := by
  have hname : shortname (letterInput c x hc).path = [c] := by
    simp [shortname, filename, userPrefix, letterInput]
  constructor
  · simp [letterInput]
  · simp [hname]
  · simp [hname]
  · simp [hname, hs.symm]
  · simp
  · simp [letterInput, MkfsInput.contents, MAXFILE, NDIRECT, NINDIRECT, BSIZE]
  · exact show 1 + 2 ≤ NINODES by decide
  · exact show nmeta + (blocksFor (3 * Dirent.SIZE) + (blocksFor 1 + 0)) ≤ FSSIZE by decide

/-- A file with the name `"a"`. -/
def aInput : MkfsInput := letterInput 97 7 (by decide)

theorem kernel_reads_a : ∃ s, run [aInput] = some s ∧
    Reads s.volume () (shortname aInput.path) aInput.contents := by
  have hdot : ∀ a ∈ [aInput], shortname a.path ≠ dot ∧ shortname a.path ≠ dotdot := fun a ha => by
    obtain rfl := mem_singleton.mp ha
    decide
  obtain ⟨s, hs, -, -, hreads⟩ := kernel_reads_image () (suitable_letter (by decide) (by decide)) hdot
  exact ⟨s, hs, hreads _ mem_cons_self⟩

/-- A file with the name `"."`. -/
def dotInput : MkfsInput := letterInput 46 7 (by decide)

theorem slot_zero_inum (x : Node) : (x.slot 0).inum = (x.byte 0).toNat + 256 * (x.byte 1).toNat := rfl

theorem bytes_one (x : Node) : x.bytes 0 1 = [x.byte 0] := rfl

theorem Made.readi_root (h : Made fs s) {t : FsState P} (hvol : t.vol = s.volume) (hv : t.Valid ROOTINO) :
    ∃ x, x ≠ 7 ∧ (Fs.readi ROOTINO Fs.kernelDst 0 1).run t = .ok ((1, [x]), t) := by
  obtain ⟨hsize, hlt, hcov⟩ := h.root_covered
  have heff : t.eff ROOTINO = s.volume.inode ROOTINO := congrFun (congrArg inode hvol) ROOTINO
  have hpos : 1 ≤ (fs.length + 2) * Dirent.SIZE := by
    simp only [Dirent.SIZE, DIRSIZ]
    omega
  have hmin : min 1 ((t.eff ROOTINO).size - 0) = 1 := by
    rw [heff]
    omega
  have hlive : t.vol.Live ROOTINO := by
    rw [hvol]
    exact h.live_root
  have hrun := Fs.readi_to Fs.kernelDst (by rw [hvol]; exact h.mapped.2) hv hlive
    (by rw [heff]; exact hlt) 0 (n := 1) (by decide) (by
      rw [hmin, Fs.Covered, hvol]
      exact fun p _ hp => hcov p (by omega))
  rw [Fs.readTo_all Fs.kernelDst (fun _ => rfl) hlive (zero_le _) (by decide), hmin, hvol] at hrun
  refine ⟨(s.volume.node ROOTINO).byte 0, fun hx => ?_, ?_⟩
  · -- the first byte is that of the number of the root directory
    have hinum : ((s.volume.node ROOTINO).slot 0).inum = 1 := by rw [h.root_slot (k := 0) rfl]
    rw [slot_zero_inum, hx, show (7 : UInt8).toNat = 7 from rfl] at hinum
    omega
  · rw [hrun, bytes_one]
    rfl

/-- **A file with the name `"."` is not found**: the root directory is. -/
theorem dot_file_hidden : Suitable [dotInput] ∧ shortname dotInput.path = dot ∧
    ∃ s, run [dotInput] = some s ∧ ¬ Reads s.volume () (shortname dotInput.path) dotInput.contents := by
  have hsuit : Suitable [dotInput] := suitable_letter (by decide) (by decide)
  obtain ⟨s, hs, hmade⟩ := hsuit.exists_run
  refine ⟨hsuit, by decide, s, hs, ?_⟩
  have hentry : (boot s.volume ()).itable ROOTINO = some ⟨1, true, s.volume.inode ROOTINO⟩ := rfl
  have hdot : shortname dotInput.path = dot := by decide
  have hnamed : Dirent.Named dot ⟨ROOTINO, strncpy dot DIRSIZ⟩ := by decide
  have hfound := dirlookup_boot (k := 0) () hmade rfl hnamed
    (fun j hj => absurd hj (not_lt_zero j)) (Fs.iget_again hentry)
  rintro ⟨inum, off, s1, s2, hlook, hlock, hread⟩
  rw [hdot, hfound] at hlook
  obtain ⟨hsome, hstate⟩ := Prod.mk.inj (Except.ok.inj hlook)
  obtain ⟨rfl, -⟩ := Prod.mk.inj (Option.some.inj hsome)
  have hvol : s1.vol = s.volume := by
    rw [← hstate]
    exact (vol_setEntry_same rfl).trans (vol_boot _ _)
  have hvalid : s1.Valid ROOTINO := by
    rw [← hstate]
    exact ⟨⟨2, true, s.volume.inode ROOTINO⟩, rfl, rfl⟩
  have hsame : s1 = s2 := congrArg Prod.snd (Except.ok.inj ((Fs.ilock_again hvalid).symm.trans hlock))
  subst hsame
  obtain ⟨x, hx, hrun⟩ := hmade.readi_root hvol hvalid
  have hbytes := congrArg Prod.fst (Except.ok.inj (hrun.symm.trans (hread 1 (by decide) (by decide))))
  have hlist : [x] = [7] := congrArg Prod.snd hbytes
  exact hx (cons.inj hlist).1

/-! ## Running from an image -/

theorem Made.bootable (h : Made fs s) (hmod : (fs.length + 2) % (BSIZE / Dirent.SIZE) ≠ 0) :
    s.volume.Bootable := by
  refine ⟨⟨h.mapped.2, fun i hi bn hbn => ?_⟩, by rw [h.root_type]; decide⟩
  by_cases hroot : i = ROOTINO
  · subst hroot
    exact h.cover_root.mpr hmod bn hbn
  · obtain ⟨v, hv, hview⟩ := h.files
    have hlive : v.Live i := by
      have hlive := volume_live.mp hi
      rw [hview] at hlive
      exact (live_setInode_of_ne hroot).mp hlive
    have haddr : s.volume.addr = v.addr := by
      rw [volume_addr h.mapped.1, hview]
      exact addr_setInode (addr_setInode_fields hv.live_root rfl hv.live_root.2)
    rw [volume_inode hi.1, hview] at hbn
    rw [haddr]
    refine hv.exact.cover i hlive bn (lt_of_lt_of_eq hbn ?_)
    exact congrArg Dinode.size (update_of_ne hroot ..)

end Mkfs

end Xv6
