import Xv6.Fs.DirectoryProof
import Xv6.Mkfs.Append

/-!
# The contents of an image

What `mkfs` makes of its input files: a list of names with contents is in the image (`Contains`) when file
number `k` of the list is inode `k + 2` and the root directory has the names in this order. The passes of the
loop of `main` append to the list. At the end the size of the root directory is rounded up, to the next block
even if it is a multiple of the block size, and the free map is written (`Made`).

Nothing checks that the inodes are enough. When there are too many files the inodes end up in the free map
and in data blocks, and all that is known is how many were written (`main_freeinode`).

Main results: `exists_run` and `wellFormed_iff`.
-/

open Function List Nat

namespace Xv6

open Dinode Dirent Node

/-! ## Directories -/

namespace Dirent

theorem wf_mk (i : ℕ) (name : List UInt8) : Wf ⟨i % 2 ^ 16, strncpy name DIRSIZ⟩ :=
  ⟨Nat.mod_lt _ (Nat.two_pow_pos 16), Fs.strncpy_length name DIRSIZ⟩

theorem length_flatMap_encode {ds : List Dirent} (h : ∀ d ∈ ds, d.Wf) :
    (ds.flatMap encode).length = ds.length * SIZE := by
  induction ds with
  | nil => rfl
  | cons d ds ih =>
    rw [flatMap_cons, length_append, encode_length (h d mem_cons_self),
      ih fun e he => h e (mem_cons_of_mem d he), length_cons, succ_mul, add_comm]

end Dirent

theorem Node.slot_flatMap {ds : List Dirent} (h : ∀ d ∈ ds, d.Wf) (type : ℤ) {k : ℕ} {d : Dirent}
    (hk : ds[k]? = some d) : (ofBytes type (ds.flatMap encode)).slot k = d := by
  induction ds using List.reverseRecOn generalizing d with
  | nil => contradiction
  | append_singleton ds e ih =>
    have hds : ∀ d ∈ ds, d.Wf := fun d hd => h d (List.mem_append_left _ hd)
    have he : e.Wf := h e (List.mem_append_right _ List.mem_cons_self)
    have hset : ofBytes type ((ds ++ [e]).flatMap encode) =
        (ofBytes type (ds.flatMap encode)).setSlot ds.length e := by
      unfold setSlot
      rw [← length_flatMap_encode hds, store_ofBytes, List.flatMap_append, List.flatMap_singleton]
    rw [hset, slot_setSlot he]
    by_cases hlt : k < ds.length
    · rw [if_neg (Nat.ne_of_lt hlt)]
      rw [List.getElem?_append_left hlt] at hk
      exact ih hds hk
    · have hlen := (List.getElem?_eq_some_iff.mp hk).1
      have hkl : k = ds.length := by
        rw [List.length_append, List.length_singleton] at hlen
        omega
      rw [if_pos hkl]
      rw [hkl, List.getElem?_concat_length] at hk
      exact Option.some.inj hk

/-! ## Lists of files -/

/-- Names with contents. -/
abbrev NamedFiles := List (List UInt8 × List UInt8)

/-- The file that an input becomes. -/
def MkfsInput.file (a : MkfsInput) : List UInt8 × List UInt8 := (Mkfs.shortname a.path, a.contents)

namespace NamedFiles

variable (fs : NamedFiles)

/-- The entries of the root directory. -/
def dirents : List Dirent :=
  [⟨ROOTINO, strncpy dot DIRSIZ⟩, ⟨ROOTINO, strncpy dotdot DIRSIZ⟩] ++
    fs.mapIdx fun k x => ⟨(k + 2) % 2 ^ 16, strncpy x.1 DIRSIZ⟩

def fileBlocks : NamedFiles → ℕ
  | [] => 0
  | x :: fs => blocksFor x.2.length + fileBlocks fs

/-- All blocks, with those of the root directory. -/
def blocks : ℕ := blocksFor ((fs.length + 2) * Dirent.SIZE) + fileBlocks fs

variable {fs} {x : List UInt8 × List UInt8}

theorem dirents_length : (dirents fs).length = fs.length + 2 := by
  simp only [dirents, length_append, length_mapIdx, length_cons, length_nil]
  omega

theorem dirents_wf : ∀ d ∈ dirents fs, d.Wf := by
  intro d hd
  rcases mem_append.mp hd with hd | hd
  · simp only [mem_cons, not_mem_nil, or_false] at hd
    rcases hd with rfl | rfl
    exacts [wf_mk 1 dot, wf_mk 1 dotdot]
  · obtain ⟨k, hk, rfl⟩ := mem_mapIdx.mp hd
    exact wf_mk _ _

theorem dirents_append : dirents (fs ++ [x]) =
    dirents fs ++ [⟨(fs.length + 2) % 2 ^ 16, strncpy x.1 DIRSIZ⟩] := by
  unfold dirents
  rw [mapIdx_append, mapIdx_singleton, ← append_assoc, zero_add]

theorem fileBlocks_append (gs : NamedFiles) :
    fileBlocks (fs ++ gs) = fileBlocks fs + fileBlocks gs := by
  induction fs with
  | nil => simp only [nil_append, fileBlocks, zero_add]
  | cons x fs ih => simp only [cons_append, fileBlocks, ih, add_assoc]

theorem blocks_concat : blocks (fs ++ [x]) =
    blocksFor ((fs.length + 3) * Dirent.SIZE) + fileBlocks fs + blocksFor x.2.length := by
  unfold blocks
  rw [fileBlocks_append, length_append, ← add_assoc]
  rfl

theorem blocks_le_append (gs : NamedFiles) : blocks fs ≤ blocks (fs ++ gs) := by
  unfold blocks
  rw [fileBlocks_append, length_append]
  have hsize : (fs.length + 2) * Dirent.SIZE ≤ (fs.length + gs.length + 2) * Dirent.SIZE :=
    mul_le_mul_right _ (by omega)
  have := blocksFor_mono hsize
  omega

end NamedFiles

open NamedFiles

namespace Mkfs

open Volume

variable {s s' : Mkfs} {i : ℕ} {fs gs : NamedFiles} {v : Volume} {err : MkfsError → Prop}

/-! ## Passes of the loop -/

/-- A new inode. -/
structure Allocated (type : ℤ) (s : Mkfs) (i : ℕ) (s' : Mkfs) : Prop where
  inum : i = s.freeinode
  built : s'.Built
  freeinode : s'.freeinode = s.freeinode + 1
  node : s'.view.node = update s.view.node i (.ofBytes type [])
  super : s'.disk 1 = s.disk 1
  freeblock : s'.freeblock = s.freeblock

theorem ialloc_spec {type : ℤ} (h : s.Built) (hlt : s.freeinode < NINODES) (hlo : 0 < type)
    (hhi : type < 2 ^ 15) : Wp (ialloc type) (Allocated type s) err s := by
  have hwf : ({ Dinode.fresh type with nlink := 1 } : Dinode).Wf := Dinode.fresh_wf (by omega) hhi
  refine Wp.get_bind (Wp.set_bind (Wp.run_bind (winode_run hlt _) (Wp.pure ?_)))
  have hview : ((⟨s.disk, s.freeinode + 1, s.freeblock⟩ : Mkfs).setInode s.freeinode
      { Dinode.fresh type with nlink := 1 }).view =
      s.view.setInode s.freeinode { Dinode.fresh type with nlink := 1 } := view_setInode hlt hwf
  have hdead : ¬ s.view.Live s.freeinode := h.unused _ le_rfl
  have hzero : ∀ n, (s.view.setInode s.freeinode { Dinode.fresh type with nlink := 1 }).addr
      (s.freeinode, n) = 0 := addr_eq_zero fun n => by
    simp only [Volume.setInode, update_self]
    unfold Dinode.addr Dinode.fresh
    split_ifs <;> rfl
  have haddr : (s.view.setInode s.freeinode { Dinode.fresh type with nlink := 1 }).addr =
      s.view.addr := addr_setInode fun n => (hzero n).trans (addr_of_not_live hdead).symm
  refine ⟨rfl, ⟨?_, ?_, fun j hj hlive => ?_⟩, rfl, ?_, ?_, rfl⟩
  · exact Fresh.setInode (s := ⟨s.disk, s.freeinode + 1, s.freeblock⟩) ⟨h.fresh.clear, h.fresh.lo, h.fresh.hi⟩
      hlt _
  · rw [hview]
    refine ⟨h.exact.toOwned.setInode (fun n => (hzero n).trans (addr_of_not_live hdead).symm)
      fun _ bn hbn => absurd hbn (not_lt_zero _), fun j bn hx => ?_, fun j hx => ?_⟩
    all_goals
      have hj : j ≠ s.freeinode := fun he => hx (by rw [he]; exact hzero _)
      rw [haddr] at hx
      have hsame : (s.view.setInode s.freeinode { Dinode.fresh type with nlink := 1 }).inode j =
        s.view.inode j := update_of_ne hj ..
      rw [hsame]
    exacts [h.exact.exact j bn hx, h.exact.indirect j hx]
  · have hj' : s.freeinode < j := hj
    rw [hview, live_setInode_of_ne (ne_of_gt hj')] at hlive
    exact h.unused j (le_of_lt hj') hlive
  · rw [hview, node_setInode, node_setInode_empty hlt (by exact Int.ne_of_gt hlo) rfl]
    rfl
  · exact (Kept.setInode (s := ⟨s.disk, s.freeinode + 1, s.freeblock⟩) hlt _).super

/-- The files are in the volume. -/
structure HasFiles (fs : NamedFiles) (v : Volume) : Prop where
  exact : v.Exact
  root : v.node ROOTINO = .ofBytes T_DIR ((dirents fs).flatMap encode)
  file : ∀ k x, fs[k]? = some x → v.node (k + 2) = .ofBytes T_FILE x.2

/-- **The files are in the image.** -/
structure Contains (fs : NamedFiles) (s : Mkfs) : Prop where
  built : s.Built
  files : HasFiles fs s.view
  freeinode : s.freeinode = fs.length + 2
  freeblock : s.freeblock = nmeta + blocks fs
  super : s.disk 1 = sbBlock

theorem HasFiles.live_root (h : HasFiles fs v) : v.Live ROOTINO := by
  rw [live_iff_node, h.root]
  exact show T_DIR ≠ 0 by decide

theorem HasFiles.live_file (h : HasFiles fs v) {k : ℕ} {x : List UInt8 × List UInt8}
    (hk : fs[k]? = some x) : v.Live (k + 2) := by
  rw [live_iff_node, h.file k x hk]
  exact show T_FILE ≠ 0 by decide

theorem HasFiles.root_size (h : HasFiles fs v) : (v.node ROOTINO).size = (fs.length + 2) * Dirent.SIZE := by
  rw [h.root]
  show ((dirents fs).flatMap encode).length = _
  rw [length_flatMap_encode dirents_wf, dirents_length]

theorem Contains.iappend {name l : List UInt8} (h : Contains (fs ++ [(name, l)]) s) (c : List UInt8) :
    Wp (Mkfs.iappend (fs.length + 2) c) (fun _ => Contains (fs ++ [(name, l ++ c)]))
      (fun _ => ¬ (l.length + c.length ≤ MAXFILE * BSIZE ∧
        nmeta + blocks (fs ++ [(name, l ++ c)]) ≤ FSSIZE)) s := by
  have hlast : (fs ++ [(name, l)])[fs.length]? = some (name, l) := List.getElem?_concat_length
  have hnode := h.files.file _ _ hlast
  have hfree := h.freeblock
  rw [blocks_concat] at hfree ⊢
  simp only at hfree
  rw [List.length_append]
  refine ((iappend_spec h.built (h.files.live_file hlast) c).mono_err fun _ hnot hfits => hnot ?_).mono
    fun _ s' hs' => ?_
  · rw [hnode]
    unfold Fits
    simp only [ofBytes]
    omega
  · have hstore := hs'.node
    have hcount := hs'.count
    rw [hnode] at hstore hcount
    simp only [ofBytes] at hcount
    have hother : ∀ j, j ≠ fs.length + 2 → s'.view.node j = s.view.node j := fun j hj => by
      rw [hstore, update_of_ne hj]
    refine ⟨hs'.built, ⟨hs'.built.exact, ?_, fun k x hk => ?_⟩, ?_, ?_, ?_⟩
    · have hroot : (1 : ℕ) ≠ fs.length + 2 := by omega
      rw [hother _ hroot, h.files.root, dirents_append, dirents_append]
    · by_cases hlt : k < fs.length
      · rw [hother _ (by omega)]
        refine h.files.file k x ?_
        rw [List.getElem?_append_left hlt] at hk ⊢
        exact hk
      · have hlen := (List.getElem?_eq_some_iff.mp hk).1
        have hkl : k = fs.length := by
          rw [List.length_append, List.length_singleton] at hlen
          omega
        rw [hkl, List.getElem?_concat_length] at hk
        cases hk
        rw [hkl, hstore, update_self]
        exact store_ofBytes T_FILE l c
    · rw [hs'.kept.freeinode, h.freeinode, List.length_append, List.length_append]
      rfl
    · rw [blocks_concat, List.length_append]
      omega
    · rw [hs'.kept.super, h.super]

theorem Contains.chunks {name l : List UInt8} (h : Contains (fs ++ [(name, l)]) s)
    (cs : List (List UInt8)) :
    Wp (cs.forM (Mkfs.iappend (fs.length + 2))) (fun _ => Contains (fs ++ [(name, l ++ cs.flatten)]))
      (fun _ => ¬ ((l ++ cs.flatten).length ≤ MAXFILE * BSIZE ∧
        nmeta + blocks (fs ++ [(name, l ++ cs.flatten)]) ≤ FSSIZE)) s := by
  induction cs generalizing l s with
  | nil =>
    rw [flatten_nil, append_nil]
    exact Wp.pure h
  | cons c cs ih =>
    rw [flatten_cons, ← append_assoc]
    refine ((h.iappend c).mono_err fun _ hnot hfits => hnot ?_).bind fun _ s1 h1 => ih h1
    -- what has been read so far is not more than the whole file
    obtain ⟨hsize, hblocks⟩ := hfits
    rw [length_append, length_append] at hsize
    rw [blocks_concat] at hblocks ⊢
    have hlen : (l ++ c).length ≤ (l ++ c ++ cs.flatten).length := by simp
    have := blocksFor_mono hlen
    exact ⟨by omega, by simp only at *; omega⟩

/-- `mkfs` accepts the input. -/
structure Acceptable (a : MkfsInput) : Prop where
  slash : slash ∉ filename a.path
  opens : a.opens = true
  name : (shortname a.path).length ≤ DIRSIZ
  size : a.contents.length ≤ MAXFILE * BSIZE

theorem Contains.entry (h : Contains fs s) (hn : fs.length + 2 < NINODES) (name : List UInt8)
    {f : ℕ → MkfsM Unit} {post : Unit → Mkfs → Prop}
    (herr : ∀ e, nmeta + blocks (fs ++ [(name, [])]) > FSSIZE → err e)
    (hf : ∀ t, Contains (fs ++ [(name, [])]) t → Wp (f (fs.length + 2)) post err t) :
    Wp (do
      let inum ← ialloc T_FILE
      Mkfs.iappend ROOTINO (dirent inum name)
      f inum) post err s := by
  have hlt : s.freeinode < NINODES := h.freeinode ▸ hn
  refine (ialloc_spec h.built hlt (by decide) (by decide)).bind fun i s1 h1 => ?_
  have hi : i = fs.length + 2 := h1.inum.trans h.freeinode
  subst hi
  have hother : ∀ j, j < fs.length + 2 → s1.view.node j = s.view.node j := fun j hj => by
    rw [h1.node, update_of_ne (Nat.ne_of_lt hj)]
  have hroot : s1.view.node ROOTINO = s.view.node ROOTINO := hother 1 (by omega)
  have hlive : s1.view.Live ROOTINO := by
    rw [live_iff_node, hroot, ← live_iff_node]
    exact h.files.live_root
  have hlen : (dirent (fs.length + 2) name).length = Dirent.SIZE :=
    encode_length (wf_mk _ name)
  have hfree := h1.freeblock.trans h.freeblock
  have hsize := h.files.root_size
  refine Wp.bind (q := fun _ => Contains (fs ++ [(name, [])]))
    (((iappend_spec h1.built hlive _).mono_err fun e hnot => herr e ?_).mono fun _ s2 h2 => ?_)
    fun _ => hf
  · rw [hroot, hsize] at hnot
    rw [blocks_concat]
    by_contra hle
    refine hnot ⟨?_, ?_⟩
    · rw [hlen]
      simp only [NINODES, Dirent.SIZE, DIRSIZ, MAXFILE, NDIRECT, NINDIRECT, BSIZE] at *
      omega
    · rw [hlen, hfree, show (fs.length + 2) * Dirent.SIZE + Dirent.SIZE =
        (fs.length + 3) * Dirent.SIZE from (Nat.succ_mul _ _).symm]
      unfold blocks
      simp only [List.length_nil] at hle
      omega
  · have hnode := h2.node
    have hcount := h2.count
    rw [hroot] at hnode hcount
    rw [hsize, hlen, hfree] at hcount
    refine ⟨h2.built, ⟨h2.built.exact, ?_, fun k x hk => ?_⟩, ?_, ?_, ?_⟩
    · rw [hnode, update_self, h.files.root]
      refine (store_ofBytes T_DIR _ _).trans ?_
      rw [dirents_append, List.flatMap_append, List.flatMap_singleton]
      rfl
    · have hne : k + 2 ≠ ROOTINO := by
        simp only [ROOTINO]
        omega
      rw [hnode, update_of_ne hne]
      by_cases hk' : k < fs.length
      · rw [hother _ (by omega)]
        rw [List.getElem?_append_left hk'] at hk
        exact h.files.file k x hk
      · have hlen := (List.getElem?_eq_some_iff.mp hk).1
        have hkl : k = fs.length := by
          rw [List.length_append, List.length_singleton] at hlen
          omega
        rw [hkl, List.getElem?_concat_length] at hk
        cases hk
        rw [hkl, h1.node, update_self]
    · rw [h2.kept.freeinode, h1.freeinode, h.freeinode, List.length_append]
      rfl
    · rw [blocks_concat]
      unfold blocks at hcount
      rw [show (fs.length + 2) * Dirent.SIZE + Dirent.SIZE =
        (fs.length + 3) * Dirent.SIZE from (Nat.succ_mul _ _).symm] at hcount
      have h0 : blocksFor ([] : List UInt8).length = 0 := rfl
      rw [h0]
      omega
    · rw [h2.kept.super, h1.super, h.super]

theorem addFile_spec (h : Contains fs s) (hn : fs.length + 2 < NINODES) (a : MkfsInput) :
    Wp (addFile a) (fun _ => Contains (fs ++ [a.file]))
      (fun _ => ¬ (Acceptable a ∧ nmeta + blocks (fs ++ [a.file]) ≤ FSSIZE)) s := by
  refine Wp.ite (fun hs => Wp.throw fun ha => ha.1.slash hs) fun _ => ?_
  refine Wp.ite (fun ho => Wp.throw fun ha => ?_) fun _ => ?_
  · rw [ha.1.opens] at ho
    contradiction
  refine Wp.ite (fun hl => Wp.throw fun ha => absurd ha.1.name (not_le.mpr hl)) fun _ => ?_
  refine h.entry hn _ (f := fun inum => a.chunks.forM (Mkfs.iappend inum)) (fun e hlt ha => ?_)
    fun t ht => ?_
  · have hle := ha.2
    rw [blocks_concat] at hle hlt
    have := blocksFor_mono (zero_le a.file.2.length)
    simp only [length_nil] at hlt
    omega
  · refine (ht.chunks a.chunks).mono_err fun _ hnot ha => hnot ⟨?_, ha.2⟩
    exact ha.1.size

theorem files_spec (inputs : List MkfsInput) (h : Contains fs s)
    (hn : fs.length + inputs.length + 2 ≤ NINODES) :
    Wp (inputs.forM addFile) (fun _ => Contains (fs ++ inputs.map MkfsInput.file))
      (fun _ => ¬ ((∀ a ∈ inputs, Acceptable a) ∧
        nmeta + blocks (fs ++ inputs.map MkfsInput.file) ≤ FSSIZE)) s := by
  induction inputs generalizing fs s with
  | nil =>
    rw [map_nil, append_nil]
    exact Wp.pure h
  | cons a inputs ih =>
    rw [length_cons] at hn
    rw [map_cons, append_cons]
    refine ((addFile_spec h (by omega) a).mono_err fun _ hnot hall => hnot ?_).bind fun _ s1 h1 => ?_
    · refine ⟨hall.1 a mem_cons_self, le_trans (Nat.add_le_add_left ?_ nmeta) hall.2⟩
      exact blocks_le_append _
    · refine (ih h1 ?_).mono_err fun _ hnot hall => hnot ⟨fun b hb => ?_, hall.2⟩
      · rw [length_append, length_singleton]
        omega
      · exact hall.1 b (mem_cons_of_mem a hb)

/-! ## Before and after the loop -/

/-- A block is written that is neither an inode block nor a data block. -/
theorem view_setBlock_meta {b : ℕ} (hb : b < sb.inodestart ∨ b = sb.bmapstart) (x : Block) :
    (s.setBlock b x).view = s.view := by
  have hdata : ∀ c, sb.InData c → c ≠ b := fun c hc he => by
    refine not_inData_of_lt ?_ hc
    rw [he]
    rcases hb with hb | rfl
    exacts [lt_trans hb (by decide), by decide]
  refine Volume.ext rfl (funext fun j => ?_) rfl (funext fun c => ?_)
  · show (if j < NINODES then .load (update s.disk b x _) _ else _) = s.view.inode j
    split_ifs with hj
    · have hne : sb.IBLOCK j ≠ b := fun he => by
        rcases hb with hb | rfl
        · exact absurd (he ▸ Nat.le_add_left _ _ : sb.inodestart ≤ b) (Nat.not_le.mpr hb)
        · exact absurd he (Nat.ne_of_lt (iblock_lt hj).2)
      rw [update_of_ne hne]
      exact (if_pos hj).symm
    · exact (if_neg hj).symm
  · show (if sb.InData c then update s.disk b x c else _) = if _ then _ else _
    split_ifs with hc
    · exact update_of_ne (hdata c hc) ..
    · rfl

theorem start_not_live (i : ℕ) : ¬ start.view.Live i := fun hi => by
  refine hi.2 ?_
  show (if _ then load (fun _ => 0) _ else fresh 0 : Dinode).type = 0
  split_ifs
  · rw [load]
    simp [loadShort, Block.half, Xv6.short]
  · rfl

theorem start_built : start.Built where
  fresh := ⟨fun _ _ => rfl, le_rfl, by decide⟩
  unused i _ := start_not_live i
  exact := by
    have hzero : ∀ x, start.view.addr x = 0 := fun x => addr_of_not_live (start_not_live x.1)
    refine ⟨⟨⟨⟨by decide, fun x hx => absurd (hzero x) hx, fun x _ hx => absurd (hzero x) hx,
      fun b hb => ?_⟩, fun b hb => decide_eq_true hb⟩, fun i hi => absurd hi (start_not_live i)⟩,
      fun i bn hx => absurd (hzero _) hx, fun i hx => absurd (hzero _) hx⟩
    refine iff_of_false (fun hbit => ?_) fun ⟨x, hx⟩ => ?_
    · exact absurd (of_decide_eq_true hbit) (not_lt.mpr hb.1)
    · rw [hzero x] at hx
      exact sb.not_inData_zero (hx ▸ hb)

theorem makeRoot_spec : Wp makeRoot (fun _ => Contains []) err (start.setBlock 1 sbBlock) := by
  have hview : (start.setBlock 1 sbBlock).view = start.view := view_setBlock_meta (.inl (by decide)) _
  have hbuilt : (start.setBlock 1 sbBlock).Built :=
    ⟨start_built.fresh.setBlock (by decide) _, hview ▸ start_built.exact, hview ▸ start_built.unused⟩
  refine (ialloc_spec hbuilt (by decide) (by decide) (by decide)).bind fun i s1 h1 => ?_
  obtain rfl : i = ROOTINO := h1.inum
  refine Wp.ite (fun hne => absurd rfl hne) fun _ => ?_
  have hnode1 : s1.view.node ROOTINO = .ofBytes T_DIR [] := by rw [h1.node, update_self]
  have hlive : ∀ {t : Mkfs} {l}, t.view.node ROOTINO = .ofBytes T_DIR l → t.view.Live ROOTINO :=
    fun hl => by
      rw [live_iff_node, hl]
      exact show T_DIR ≠ 0 by decide
  have hfree1 : s1.freeblock = nmeta := h1.freeblock
  refine ((iappend_spec h1.built (hlive hnode1) _).mono_err fun e hnot => (hnot ?_).elim).bind
    fun _ s2 h2 => ?_
  · rw [hnode1]
    unfold Fits
    rw [hfree1]
    decide
  have hcount2 := h2.count
  have hnode2 := congrFun h2.node ROOTINO
  rw [hnode1, hfree1] at hcount2
  rw [update_self, hnode1] at hnode2
  replace hnode2 := hnode2.trans (store_ofBytes T_DIR [] _)
  have hfree2 : s2.freeblock = nmeta + 1 := hcount2
  refine ((iappend_spec h2.built (hlive hnode2) _).mono_err fun e hnot => (hnot ?_).elim).mono
    fun _ s3 h3 => ?_
  · rw [hnode2]
    unfold Fits
    rw [hfree2]
    decide
  have hcount3 := h3.count
  have hnode3 := congrFun h3.node ROOTINO
  rw [hnode2, hfree2] at hcount3
  rw [update_self, hnode2] at hnode3
  replace hnode3 := hnode3.trans (store_ofBytes T_DIR _ _)
  refine ⟨h3.built, ⟨h3.built.exact, hnode3, fun k x hk => ?_⟩, ?_, ?_, ?_⟩
  · rw [getElem?_nil] at hk
    exact nomatch hk
  · rw [h3.kept.freeinode, h2.kept.freeinode, h1.freeinode]
    rfl
  · have hcount : s3.freeblock + 1 = nmeta + 1 + 1 := hcount3
    exact succ.inj hcount
  · rw [h3.kept.super, h2.kept.super, h1.super]
    exact setBlock_self 1 sbBlock

/-- **The image that `mkfs` makes of the files.** -/
structure Made (fs : NamedFiles) (s : Mkfs) : Prop where
  freeinode : s.freeinode = fs.length + 2
  freeblock : s.freeblock = nmeta + blocks fs
  room : s.freeblock ≤ FSSIZE
  super : s.disk 1 = sbBlock
  bitmap : s.disk sb.bmapstart = bitmap s.freeblock
  /-- the view, but for the size of the root directory -/
  files : ∃ v, HasFiles fs v ∧
    s.view = v.setSize ROOTINO (((v.inode ROOTINO).size / BSIZE + 1) * BSIZE)

theorem main_spec (inputs : List MkfsInput) (hn : inputs.length + 2 ≤ NINODES) :
    Wp (main inputs) (fun _ => Made (inputs.map MkfsInput.file))
      (fun _ => ¬ ((∀ a ∈ inputs, Acceptable a) ∧
        nmeta + blocks (inputs.map MkfsInput.file) ≤ FSSIZE)) start := by
  refine Wp.run_bind (wsect_run 1 sbBlock) (makeRoot_spec.bind fun _ s1 h1 => ?_)
  refine (files_spec inputs h1 (by rw [length_nil]; omega)).bind fun _ s2 h2 => ?_
  rw [nil_append] at h2
  have hroot := h2.files.live_root
  have hsize := h2.built.exact.size_le hroot
  have hwf : ({ s2.view.inode ROOTINO with
      size := ((s2.view.inode ROOTINO).size / BSIZE + 1) * BSIZE } : Dinode).Wf := by
    refine Dinode.Wf.setSize (load_wf _ _) ?_
    simp only [MAXFILE, NDIRECT, NINDIRECT, BSIZE] at *
    omega
  have hlt : ROOTINO < NINODES := by decide
  refine Wp.run_bind ((Wp.run_bind_eq (rinode_run hlt)).trans (winode_run hlt _)) (Wp.get_bind ?_)
  have hfull := h2.built.fresh.hi
  refine Wp.ite (fun _ => Wp.of_run (wsect_run _ _) ?_) fun hge => absurd ?_ hge
  · refine ⟨h2.freeinode, h2.freeblock, hfull, ?_, setBlock_self .., _, h2.files, ?_⟩
    · have hne : 1 ≠ sb.bmapstart := by decide
      refine (setBlock_of_ne hne _).trans ?_
      exact (Kept.setInode hlt _).super.trans h2.super
    · rw [view_setBlock_meta (.inr rfl), view_setInode hlt hwf]
      rfl
  · exact lt_of_le_of_lt hfull (by decide)

/-- **`mkfs` makes the image**, if the inputs are acceptable and there is space. -/
theorem exists_run {inputs : List MkfsInput} (hacc : ∀ a ∈ inputs, Acceptable a)
    (hn : inputs.length + 2 ≤ NINODES) (hb : nmeta + blocks (inputs.map MkfsInput.file) ≤ FSSIZE) :
    ∃ s, run inputs = some s ∧ Made (inputs.map MkfsInput.file) s := by
  have hspec := main_spec inputs hn
  unfold run
  cases hr : (main inputs).run start with
  | error e => exact absurd ⟨hacc, hb⟩ (hspec.err_of_run hr)
  | ok r => exact ⟨r.2, rfl, hspec.post_of_run hr⟩

theorem main_run_of_run {inputs : List MkfsInput} (h : run inputs = some s) :
    (main inputs).run start = .ok ((), s) := by
  unfold run at h
  cases hr : (main inputs).run start with
  | error e =>
    rw [hr] at h
    contradiction
  | ok r =>
    rw [hr] at h
    cases h
    rfl

/-! ## The number of inodes -/

/-- The program does not allocate inodes. -/
def KeepsInodes {α : Type} (m : MkfsM α) : Prop :=
  ∀ s, Wp m (fun _ s' => s'.freeinode = s.freeinode) (fun _ => True) s

namespace KeepsInodes

variable {α β : Type} {m m' : MkfsM α} {f : α → MkfsM β}

theorem pure (a : α) : KeepsInodes (Pure.pure a : MkfsM α) := fun _ => Wp.pure rfl

theorem throw (e : MkfsError) : KeepsInodes (MonadExcept.throw e : MkfsM α) := fun _ => Wp.throw trivial

theorem bind (hm : KeepsInodes m) (hf : ∀ a, KeepsInodes (f a)) : KeepsInodes (m >>= f) := fun s =>
  (hm s).bind fun a t ht => (hf a t).mono fun _ _ hu => hu.trans ht

theorem ite {c : Prop} [Decidable c] (h : KeepsInodes m) (h' : KeepsInodes m') :
    KeepsInodes (if c then m else m') := by
  split_ifs
  exacts [h, h']

theorem rsect (b : ℕ) : KeepsInodes (Mkfs.rsect b) := fun _ =>
  Wp.get_bind (Wp.ite (fun _ => Wp.pure rfl) fun _ => Wp.throw trivial)

theorem wsect (b : ℕ) (x : Block) : KeepsInodes (Mkfs.wsect b x) := fun _ => Wp.modify rfl

theorem winode (i : ℕ) (d : Dinode) : KeepsInodes (Mkfs.winode i d) := (rsect _).bind fun _ => wsect _ _

theorem rinode (i : ℕ) : KeepsInodes (Mkfs.rinode i) := (rsect _).bind fun _ => pure _

theorem nextBlock : KeepsInodes Mkfs.nextBlock := fun _ => Wp.of_run nextBlock_run rfl

theorem mapAddr (din : Dinode) (k : ℕ) : KeepsInodes (Mkfs.mapAddr din k) :=
  ite (nextBlock.bind fun _ => pure _) (pure _)

theorem mapBlock (din : Dinode) (fbn : ℕ) : KeepsInodes (Mkfs.mapBlock din fbn) :=
  ite ((mapAddr din fbn).bind fun _ => pure _) ((mapAddr din NDIRECT).bind fun _ => (rsect _).bind
    fun _ => ite (nextBlock.bind fun _ => (wsect _ _).bind fun _ => pure _) (pure _))

theorem iappendLoop (fuel : ℕ) (din : Dinode) (off : ℕ) (p : List UInt8) :
    KeepsInodes (Mkfs.iappendLoop fuel din off p) := by
  induction fuel generalizing din off p with
  | zero => exact pure _
  | succ fuel ih =>
    refine ite (pure _) (ite ((mapBlock din _).bind fun r => ?_) (throw _))
    exact (rsect _).bind fun _ => (wsect _ _).bind fun _ => ih _ _ _

theorem iappend (i : ℕ) (p : List UInt8) : KeepsInodes (Mkfs.iappend i p) :=
  (rinode i).bind fun _ => (iappendLoop _ _ _ _).bind fun _ => winode _ _

end KeepsInodes

theorem ialloc_freeinode (type : ℤ) :
    Wp (ialloc type) (fun _ s' => s'.freeinode = s.freeinode + 1) (fun _ => True) s :=
  Wp.get_bind (Wp.set_bind ((KeepsInodes.winode _ _ _).bind fun _ _ ht => Wp.pure ht))

theorem addFile_freeinode (a : MkfsInput) :
    Wp (addFile a) (fun _ s' => s'.freeinode = s.freeinode + 1) (fun _ => True) s := by
  refine Wp.ite (fun _ => Wp.throw trivial) fun _ => Wp.ite (fun _ => Wp.throw trivial) fun _ =>
    Wp.ite (fun _ => Wp.throw trivial) fun _ => ?_
  refine (ialloc_freeinode T_FILE).bind fun i s1 h1 => ?_
  refine (KeepsInodes.iappend _ _ s1).bind fun _ s2 h2 => ?_
  refine (Wp.forM (I := fun _ t => t.freeinode = s2.freeinode) (fun c cs t ht => ?_) a.chunks rfl).mono
    fun _ s3 h3 => h3.trans (h2.trans h1)
  exact (KeepsInodes.iappend i c t).mono fun _ u hu => hu.trans ht

/-- **The inodes from 1 to `inputs.length + 1` have been written**, whatever the inputs are. -/
theorem main_freeinode (inputs : List MkfsInput) :
    Wp (main inputs) (fun _ s' => s'.freeinode = inputs.length + 2) (fun _ => True) start := by
  refine (KeepsInodes.wsect 1 sbBlock start).bind fun _ s1 h1 => ?_
  refine Wp.bind (q := fun _ t => t.freeinode = 2) ?_ fun _ s2 h2 => ?_
  · refine (ialloc_freeinode T_DIR).bind fun i t ht => Wp.ite (fun _ => Wp.throw trivial) fun _ => ?_
    refine (KeepsInodes.iappend _ _ t).bind fun _ u hu => (KeepsInodes.iappend _ _ u).mono fun _ w hw => ?_
    rw [hw, hu, ht, h1]
    rfl
  refine (Wp.forM (I := fun rest t => t.freeinode + rest.length = inputs.length + 2)
    (fun a rest t ht => ?_) inputs (by rw [h2, add_comm])).bind fun _ s3 h3 => ?_
  · refine (addFile_freeinode a).mono fun _ u hu => ?_
    rw [length_cons] at ht
    omega
  refine (((KeepsInodes.rinode ROOTINO).bind fun _ => KeepsInodes.winode _ _) s3).bind fun _ s4 h4 => ?_
  refine Wp.get_bind ((KeepsInodes.ite (KeepsInodes.wsect _ _) (KeepsInodes.throw _) s4).mono
    fun _ s5 h5 => ?_)
  exact h5.trans (h4.trans h3)

/-! ## The image that the kernel finds -/

theorem bit_bitmap (n b : ℕ) : (bitmap n).bit b = true ↔ b < n := by
  unfold bitmap
  induction n with
  | zero => simp [Block.bit]
  | succ n ih =>
    rw [range_succ, foldl_append]
    refine (Block.bit_setBit _ n b).trans ?_
    rw [ih]
    omega

theorem volume_inode (hi : i < NINODES) : s.volume.inode i = s.view.inode i := (if_pos hi).symm

theorem volume_live : s.volume.Live i ↔ s.view.Live i :=
  and_congr_right fun hi => by rw [volume_inode hi]

theorem volume_addr (h : s.view.Mapped) : s.volume.addr = s.view.addr := by
  funext x
  obtain ⟨j, n⟩ := x
  by_cases hj : j < NINODES
  · exact addr_congr rfl (volume_inode hj) fun hne => (view_block (h.inData hne)).symm
  · rw [addr_of_not_live fun hl => hj hl.1, addr_of_not_live fun hl => hj hl.1]

theorem volume_node (h : s.view.Mapped) (hi : s.view.Live i)
    (hc : ∀ bn, bn * BSIZE < (s.view.inode i).size → s.view.addr (i, blockSlot bn) ≠ 0) :
    s.volume.node i = s.view.node i := by
  have hinode := volume_inode (s := s) hi.1
  refine node_congr rfl (by rw [hinode]) (by rw [hinode]) (by rw [hinode]) fun _ p hp => ?_
  have hne := hc (p / BSIZE) (lt_of_le_of_lt (div_mul_le_self _ _) hp)
  exact byte_congr (congrFun (volume_addr h) _) (view_block (h.inData hne)).symm

namespace Made

variable (h : Made fs s)

include h

theorem mapped : s.view.Mapped ∧ s.volume.Mapped := by
  obtain ⟨v, hv, hview⟩ := h.files
  have haddr : s.view.addr = v.addr := by
    rw [hview]
    exact addr_setInode (addr_setInode_fields hv.live_root rfl hv.live_root.2)
  have hm : s.view.Mapped := by
    refine ⟨by rw [haddr, hview]; exact hv.exact.map, ?_⟩
    rw [hview]
    exact hv.exact.metadata
  refine ⟨hm, ?_⟩
  have hbit : ∀ b < FSSIZE, s.volume.bit b = s.view.bit b := fun b hb => by
    have h0 : b / BPB = 0 := div_eq_of_lt (lt_trans hb (by decide))
    have hmod : b % BPB = b := mod_eq_of_lt (lt_trans hb (by decide))
    show (s.disk (b / BPB + sb.bmapstart)).bit (b % BPB) = decide (b < s.freeblock)
    rw [h0, zero_add, h.bitmap, hmod, Bool.eq_iff_iff, bit_bitmap, decide_eq_true_iff]
  refine ⟨⟨hm.map.zero, ?_, ?_, fun b hb => ?_⟩, fun b hb => ?_⟩
  · rw [volume_addr hm]
    exact hm.map.mem
  · rw [volume_addr hm]
    exact hm.map.inj
  · rw [volume_addr hm, hbit b hb.2]
    exact hm.map.used_iff b hb
  · rw [hbit b (lt_of_lt_of_le hb (sub_le _ _))]
    exact hm.metadata b hb

end Made

/-- **A well-formed image**: the inodes that have been written are there, none has holes, the blocks
are data blocks and belong to one file each, and the inode blocks end before the free map. -/
structure WellFormed (s : Mkfs) : Prop where
  inum : ∀ i, 1 ≤ i → i < s.freeinode → i < sb.ninodes
  cover : ∀ i, 1 ≤ i → i < s.freeinode → ∀ bn, bn * BSIZE < (s.volume.inode i).size →
    s.volume.addr (i, blockSlot bn) ≠ 0
  data : ∀ x, s.volume.addr x ≠ 0 → nmeta ≤ s.volume.addr x ∧ s.volume.addr x < sb.size
  once : ∀ x y, s.volume.addr x ≠ 0 → s.volume.addr x = s.volume.addr y → x = y
  iblock : ∀ i, 1 ≤ i → i < s.freeinode → sb.IBLOCK i < sb.bmapstart

namespace Made

variable (h : Made fs s)

include h

theorem volume_eq : ∃ v, HasFiles fs v ∧ s.volume.addr = v.addr ∧
    (s.volume.inode ROOTINO).size = ((v.inode ROOTINO).size / BSIZE + 1) * BSIZE ∧
    ∀ i < NINODES, i ≠ ROOTINO → s.volume.inode i = v.inode i := by
  obtain ⟨v, hv, hview⟩ := h.files
  refine ⟨v, hv, ?_, ?_, fun i hi hne => ?_⟩
  · rw [volume_addr h.mapped.1, hview]
    exact addr_setInode (addr_setInode_fields hv.live_root rfl hv.live_root.2)
  · rw [volume_inode (by decide), hview]
    simp only [setSize, Volume.setInode, update_self]
  · rw [volume_inode hi, hview]
    exact update_of_ne hne ..

/-- The root directory has a hole if its entries fill their last block. -/
theorem cover_root :
    (∀ bn, bn * BSIZE < (s.volume.inode ROOTINO).size → s.volume.addr (ROOTINO, blockSlot bn) ≠ 0) ↔
      (fs.length + 2) % (BSIZE / Dirent.SIZE) ≠ 0 := by
  obtain ⟨v, hv, haddr, hsize, -⟩ := h.volume_eq
  have hroot : (v.inode ROOTINO).size = (fs.length + 2) * Dirent.SIZE := by
    rw [← node_size hv.live_root, hv.root_size]
  have hzero : ∀ bn, v.addr (ROOTINO, blockSlot bn) ≠ 0 ↔ bn * BSIZE < (fs.length + 2) * Dirent.SIZE := by
    intro bn
    rw [ne_eq, hv.exact.addr_eq_zero hv.live_root, hroot, not_le]
  rw [hsize, haddr, hroot]
  simp only [hzero, BSIZE, Dirent.SIZE, DIRSIZ]
  constructor
  · intro hall hmod
    have := hall ((fs.length + 2) * 16 / 1024) (by omega)
    omega
  · intro hmod bn hbn
    omega

theorem wellFormed_iff (hn : fs.length + 2 ≤ NINODES) :
    s.WellFormed ↔ (fs.length + 2) % (BSIZE / Dirent.SIZE) ≠ 0 := by
  have hlt : ∀ i, i < s.freeinode → i < NINODES := fun i hi => by
    rw [h.freeinode] at hi
    omega
  refine ⟨fun hw => h.cover_root.mp (hw.cover ROOTINO le_rfl ?_), fun hmod => ?_⟩
  · rw [h.freeinode]
    exact Nat.lt_add_left fs.length (by decide)
  · have hm := h.mapped.2
    refine ⟨fun i _ hi => hlt i hi, fun i hi1 hi => ?_, fun x hx => inData_iff.mp (hm.map.mem x hx),
      hm.map.inj, fun i _ hi => (iblock_lt (hlt i hi)).2⟩
    by_cases hroot : i = ROOTINO
    · rw [hroot]
      exact h.cover_root.mpr hmod
    · -- a file has the blocks up to its size
      obtain ⟨v, hv, haddr, -, hinode⟩ := h.volume_eq
      obtain ⟨k, rfl⟩ := Nat.exists_eq_add_of_le' (show 2 ≤ i by
        simp only [ROOTINO] at hroot
        omega)
      have hk : k < fs.length := by
        rw [h.freeinode] at hi
        omega
      rw [haddr, hinode _ (hlt _ hi) hroot]
      exact hv.exact.cover _ (hv.live_file (getElem?_eq_getElem hk))

end Made

/-- An empty file with the name `a`. -/
def emptyInput : MkfsInput := ⟨[97], true, [], by decide, fun _ hc => nomatch hc⟩

end Mkfs

end Xv6
