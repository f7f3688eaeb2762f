import Mathlib.Data.List.GetD
import Mathlib.Tactic.IntervalCases
import Xv6.Lib.Wp
import Xv6.Mkfs.Mkfs

/-!
# Appending to the files of an image

While `mkfs` runs there is no free map yet: the blocks below `freeblock` are in use. With these as
free map the image is a volume (`Mkfs.view`), in which `freeblock++` attaches a block as `balloc`
does in the kernel, so that the lemmas of `Xv6.Fs.Volume` apply. In `iappend` the inode that counts
is the local variable `din` with the size `off` (`Mkfs.draft`).

**No more blocks than needed.** `Volume.Exact` says that a file has the blocks up to its size and no
others. It determines how far `freeblock` has come (`blocksFor`).

Main result: `iappend_spec`.
-/

open Function List Nat

namespace Xv6

/-! ## Inodes -/

namespace Dinode

variable {d : Dinode} {k a : ℕ}

theorem loadShort_bounds (b : Block) (j k : ℕ) :
    -2 ^ 15 ≤ loadShort b j k ∧ loadShort b j k < 2 ^ 15 := by
  unfold loadShort Xv6.short Int.bmod
  generalize (b.half (32 * j + k) : ℤ) = x
  simp only [reducePow, cast_ofNat]
  omega

theorem loadUint_lt (b : Block) (j k : ℕ) : loadUint b j k < 2 ^ 32 := by
  unfold loadUint Block.word
  generalize 16 * j + 2 + k = m
  have h0 := (b (4 * m)).toNat_lt
  have h1 := (b (4 * m + 1)).toNat_lt
  have h2 := (b (4 * m + 2)).toNat_lt
  have h3 := (b (4 * m + 3)).toNat_lt
  omega

theorem wf_of_fields {f : ℕ → ℤ} {u : ℕ → ℕ} (hf : ∀ k, -2 ^ 15 ≤ f k ∧ f k < 2 ^ 15)
    (hu : ∀ k, u k < 2 ^ 32) : Wf ⟨f 0, f 1, f 2, f 3, u 0, fun k => u (k + 1)⟩ where
  short k hk := by
    interval_cases k
    exacts [hf 0, hf 1, hf 2, hf 3]
  uint k hk := by
    cases k with
    | zero => exact hu 0
    | succ k =>
      show addr _ k < _
      unfold addr
      rw [dif_pos (lt_of_succ_lt_succ hk)]
      exact hu _

theorem load_wf (b : Block) (j : ℕ) : (load b j).Wf := by
  unfold load
  exact wf_of_fields (loadShort_bounds b j) (loadUint_lt b j)

theorem Wf.setAddr (h : d.Wf) (hk : k ≤ NDIRECT) (ha : a < 2 ^ 32) : (d.setAddr k a).Wf where
  short := h.short
  uint m hm := by
    cases m with
    | zero => exact h.uint 0 hm
    | succ m =>
      show (d.setAddr k a).addr m < _
      rw [Volume.addr_setAddr d hk]
      split_ifs
      exacts [ha, h.uint (m + 1) hm]

theorem Wf.setSize (h : d.Wf) {z : ℕ} (hz : z < 2 ^ 32) : ({ d with size := z } : Dinode).Wf where
  short := h.short
  uint m hm := by
    cases m with
    | zero => exact hz
    | succ m => exact h.uint (m + 1) hm

/-- A new inode of `mkfs`. -/
theorem fresh_wf {type : ℤ} (hlo : -2 ^ 15 ≤ type) (hhi : type < 2 ^ 15) :
    ({ fresh type with nlink := 1 } : Dinode).Wf where
  short k hk := by
    interval_cases k
    · exact ⟨hlo, hhi⟩
    all_goals simp [Dinode.short, fresh]
  uint k _ := by
    cases k with
    | zero => exact Nat.two_pow_pos 32
    | succ k =>
      show (fresh type).addr k < _
      unfold addr fresh
      split_ifs <;> exact Nat.two_pow_pos 32

end Dinode

/-! ## Files -/

namespace Node

/-- The file with the given bytes. -/
def ofBytes (type : ℤ) (l : List UInt8) : Node := ⟨type, 1, l.length, fun p => l.getD p 0⟩

theorem store_store (x : Node) (o : ℕ) (l l' : List UInt8) :
    (x.store o l).store (o + l.length) l' = x.store o (l ++ l') := by
  refine Node.ext rfl rfl ?_ (funext fun p => ?_)
  · simp only [store, length_append]
    omega
  · simp only [store, length_append]
    by_cases h1 : p < o + l.length
    · rw [if_neg (by omega)]
      by_cases h2 : o ≤ p
      · rw [if_pos ⟨h2, h1⟩, if_pos ⟨h2, by omega⟩, getD_append _ _ _ _ (by omega)]
      · rw [if_neg fun h => h2 h.1, if_neg fun h => h2 h.1]
    · by_cases h2 : p < o + l.length + l'.length
      · rw [if_pos ⟨by omega, h2⟩, if_pos (by omega), getD_append_right _ _ _ _ (by omega),
          Nat.sub_sub]
      · rw [if_neg fun h => h2 h.2, if_neg (by omega), if_neg (by omega)]

theorem store_nil {x : Node} {o : ℕ} (h : o ≤ x.size) : x.store o [] = x := by
  refine Node.ext rfl rfl ?_ (funext fun p => ?_)
  · exact max_eq_left h
  · exact if_neg fun hp => absurd hp.2 (not_lt.mpr hp.1)

theorem store_ofBytes (type : ℤ) (l l' : List UInt8) :
    (ofBytes type l).store l.length l' = ofBytes type (l ++ l') := by
  refine Node.ext rfl rfl ?_ (funext fun p => ?_)
  · simp only [store, ofBytes, length_append]
    omega
  · simp only [store, ofBytes]
    by_cases h1 : p < l.length
    · rw [if_neg (by omega), getD_append _ _ _ _ h1]
    · rw [getD_append_right _ _ _ _ (by omega)]
      by_cases h2 : p < l.length + l'.length
      · rw [if_pos (by omega)]
      · rw [if_neg (by omega), getD_eq_default _ _ (by omega), getD_eq_default _ _ (by omega)]

end Node

/-! ## The blocks of a file -/

/-- The number of blocks of a file of size `z`, with its indirect block. -/
def blocksFor (z : ℕ) : ℕ := (z + (BSIZE - 1)) / BSIZE + if NDIRECT * BSIZE < z then 1 else 0

theorem blocksFor_mono {z z' : ℕ} (h : z ≤ z') : blocksFor z ≤ blocksFor z' := by
  unfold blocksFor
  refine Nat.add_le_add (Nat.div_le_div_right (by omega)) ?_
  split_ifs <;> omega

namespace Volume

variable {v v' : Volume} {i n k b : ℕ}

/-- **A file has the blocks up to its size, and no others.** -/
structure Exact (v : Volume) : Prop extends Owned v where
  exact : ∀ i bn, v.addr (i, blockSlot bn) ≠ 0 → bn * BSIZE < (v.inode i).size
  indirect : ∀ i, v.addr (i, NDIRECT) ≠ 0 → NDIRECT * BSIZE < (v.inode i).size

theorem Exact.addr_eq_zero (h : v.Exact) (hi : v.Live i) (bn : ℕ) :
    v.addr (i, blockSlot bn) = 0 ↔ (v.inode i).size ≤ bn * BSIZE := by
  rw [← not_iff_not, not_le]
  exact ⟨h.exact i bn, h.cover i hi bn⟩

theorem Exact.indirect_eq_zero (h : v.Exact) (hi : v.Live i) :
    v.addr (i, NDIRECT) = 0 ↔ (v.inode i).size ≤ NDIRECT * BSIZE := by
  rw [← not_iff_not, not_le]
  refine ⟨h.indirect i, fun hlt hz => ?_⟩
  -- the first entry of the indirect block would be empty
  have hne := h.cover i hi NDIRECT hlt
  exact hne (addr_entry_zero (j := 0) hz)

theorem Exact.size_le (h : v.Exact) (hi : v.Live i) : (v.inode i).size ≤ MAXFILE * BSIZE := by
  by_contra hlt
  have hne := h.cover i hi MAXFILE (Nat.lt_of_not_le hlt)
  exact absurd (blockSlot_lt.mp (live_of_addr hne).2) (Nat.lt_irrefl _)

/-- What attaching a block to a slot does, if the slot is empty. -/
structure Attach (i n : ℕ) (v v' : Volume) : Prop where
  mapped : v'.Mapped
  grown : Grown i v v'
  addr : ∀ x, v'.addr x ≠ 0 ↔ v.addr x ≠ 0 ∨ x = (i, n)

namespace Attach

theorem refl (h : v.Mapped) (hne : v.addr (i, n) ≠ 0) : Attach i n v v where
  mapped := h
  grown := .refl i v
  addr x := by
    refine (or_iff_left_of_imp ?_).symm
    rintro rfl
    exact hne

theorem of_update (hm : v'.Mapped) (hg : Grown i v v')
    (haddr : v'.addr = update v.addr (i, n) b) (hb : b ≠ 0) : Attach i n v v' where
  mapped := hm
  grown := hg
  addr x := by
    rw [haddr]
    by_cases hx : x = (i, n)
    · rw [hx, update_self]
      exact iff_of_true hb (.inr rfl)
    · rw [update_of_ne hx]
      exact (or_iff_left hx).symm

variable (h : v.Mapped) (hi : v.Live i) (hb : v.sb.InData b) (hfree : v.bit b = false)

include h hi hb hfree

theorem attachAddr (hk : k ≤ NDIRECT) (hzero : v.addr (i, k) = 0) :
    Attach i k v (v.attachAddr i k b) :=
  of_update (h.attachAddr hi hb hfree hk hzero) (grown_attachAddr h hi hb hfree hk hzero)
    (addr_attachAddr h hi hb hfree hk hzero) (h.map.ne_zero hb)

theorem attachEntry {j : ℕ} (hj : j < NINDIRECT) (ha : v.addr (i, NDIRECT) ≠ 0)
    (hzero : v.addr (i, NDIRECT + 1 + j) = 0) :
    Attach i (NDIRECT + 1 + j) v (v.attachEntry i j b) :=
  of_update (h.attachEntry hi hb hfree hj ha hzero) (grown_attachEntry h hi hb hfree hj ha hzero)
    (addr_attachEntry h hi hb hfree hj ha) (h.map.ne_zero hb)

end Attach

/-- `v'` is `v` with block `bn` of the file `i`, and the indirect block if it is needed. -/
structure WithBlock (i bn : ℕ) (v v' : Volume) : Prop where
  mapped : v'.Mapped
  grown : Grown i v v'
  addr : ∀ x, v'.addr x ≠ 0 ↔
    v.addr x ≠ 0 ∨ x = (i, blockSlot bn) ∨ x = (i, NDIRECT) ∧ NDIRECT ≤ bn

/-- The number of blocks that are attached. -/
def missing (v : Volume) (i bn : ℕ) : ℕ :=
  (if v.addr (i, blockSlot bn) = 0 then 1 else 0) +
    if NDIRECT ≤ bn ∧ v.addr (i, NDIRECT) = 0 then 1 else 0

section Append

variable {off : ℕ} {l : List UInt8}

/-- Blocks are attached as the size asks for them. -/
theorem Exact.missing_add (h : v.Exact) (hi : v.Live i) (hoff : (v.inode i).size = off) {m : ℕ}
    (hm : 0 < m) (hend : off % BSIZE + m ≤ BSIZE) :
    v.missing i (off / BSIZE) + blocksFor off = blocksFor (off + m) := by
  have h1 := h.addr_eq_zero hi (off / BSIZE)
  have h2 := h.indirect_eq_zero hi
  rw [hoff] at h1 h2
  unfold missing blocksFor
  simp only [h1, h2]
  simp only [BSIZE, NDIRECT] at *
  split_ifs <;> omega

variable (h : v.Exact) (hi : v.Live i) (hoff : (v.inode i).size = off)
  (hw : WithBlock i (off / BSIZE) v v') (hl : 0 < l.length) (hend : off % BSIZE + l.length ≤ BSIZE)

/-- The volume `v` with the bytes `l` in the block of position `off` of the file `i`. -/
def storeAt (v : Volume) (i off : ℕ) (l : List UInt8) : Volume :=
  v.setBlock (v.addr (i, blockSlot (off / BSIZE)))
    ((v.block (v.addr (i, blockSlot (off / BSIZE)))).store (off % BSIZE) l)

def setSize (v : Volume) (i z : ℕ) : Volume := v.setInode i { v.inode i with size := z }

include h hi hoff hw hl hend

/-- **A piece of a block is appended**, after its block has been attached. -/
theorem Exact.append : ((v'.storeAt i off l).setSize i (off + l.length)).Exact := by
  have ho' : v'.Owned := ⟨hw.mapped, hw.grown.cover h.toOwned⟩
  have hi' : v'.Live i := hw.grown.live.mpr hi
  have hne : v'.addr (i, blockSlot (off / BSIZE)) ≠ 0 := (hw.addr _).mpr (.inr (.inl rfl))
  have haddr1 : (v'.storeAt i off l).addr = v'.addr :=
    addr_setBlock hw.mapped (blockSlot_ne _) hne _
  have ho1 : (v'.storeAt i off l).Owned := ho'.setBlock (blockSlot_ne _) hne _
  have hi1 : (v'.storeAt i off l).Live i := hi'
  have haddr2 : ((v'.storeAt i off l).setSize i (off + l.length)).addr = v'.addr := by
    rw [← haddr1]
    exact addr_setInode (addr_setInode_fields hi1 rfl hi1.2)
  have hself : (((v'.storeAt i off l).setSize i (off + l.length)).inode i).size = off + l.length := by
    simp only [setSize, setInode, update_self]
  have hother : ∀ j, j ≠ i → ((v'.storeAt i off l).setSize i (off + l.length)).inode j =
      v.inode j := fun j hj => (update_of_ne hj _ _).trans (hw.grown.inode j hj)
  have hfloor := div_mul_le_self off BSIZE
  have hold : ∀ {j n}, j ≠ i → v'.addr (j, n) ≠ 0 → v.addr (j, n) ≠ 0 := fun hj hx =>
    ((hw.addr _).mp hx).resolve_right fun he =>
      hj (he.elim (congrArg Prod.fst) fun he => congrArg Prod.fst he.1)
  refine ⟨ho1.setSize hi1 fun bn hbn => ?_, fun j bn hx => ?_, fun j hx => ?_⟩
  · rw [haddr1, hw.addr]
    by_cases hlt : bn * BSIZE < off
    · exact .inl (h.cover i hi bn (by rw [hoff]; exact hlt))
    · right; left
      have hbn' : bn = off / BSIZE := by
        simp only [BSIZE] at *
        omega
      rw [hbn']
  · rw [haddr2] at hx
    by_cases hj : j = i
    · subst hj
      rw [hself]
      rcases (hw.addr _).mp hx with hx | hx | ⟨hx, -⟩
      · have := h.exact j bn hx
        omega
      · rw [blockSlot_inj (congrArg Prod.snd hx)]
        omega
      · exact absurd (congrArg Prod.snd hx) (blockSlot_ne bn)
    · rw [hother j hj]
      exact h.exact j bn (hold hj hx)
  · rw [haddr2] at hx
    by_cases hj : j = i
    · subst hj
      rw [hself]
      rcases (hw.addr _).mp hx with hx | hx | ⟨-, hx⟩
      · have := h.indirect j hx
        omega
      · exact absurd (congrArg Prod.snd hx).symm (blockSlot_ne _)
      · have := mul_le_mul_right BSIZE hx
        omega
    · rw [hother j hj]
      exact h.indirect j (hold hj hx)

theorem Exact.node_append : ((v'.storeAt i off l).setSize i (off + l.length)).node =
    update v.node i ((v.node i).store off l) := by
  have hi' : v'.Live i := hw.grown.live.mpr hi
  have hne : v'.addr (i, blockSlot (off / BSIZE)) ≠ 0 := (hw.addr _).mpr (.inr (.inl rfl))
  have hi1 : (v'.storeAt i off l).Live i := hi'
  have hbyte : ∀ p, (v'.storeAt i off l).byte i p = if p / BSIZE = off / BSIZE then
      ((v'.block (v'.addr (i, blockSlot (off / BSIZE)))).store (off % BSIZE) l) (p % BSIZE)
      else v'.byte i p := fun p => by
    refine (byte_setBlock hw.mapped (blockSlot_ne _) hne _ i p).trans (if_congr ?_ rfl rfl)
    exact ⟨fun he => blockSlot_inj (congrArg Prod.snd he), fun he => by rw [he]⟩
  funext j
  by_cases hj : j = i
  · subst hj
    rw [update_self, setSize, node_setSize hi1]
    refine Node.ext (hw.grown.type.trans (node_type hi).symm)
      (hw.grown.nlink.trans (node_nlink hi).symm) ?_ (funext fun p => ?_)
    · show _ = max (v.node j).size _
      rw [node_size hi, hoff]
      exact (max_eq_right (le_add_right _ _)).symm
    · show (if p < off + l.length then _ else _) = if _ then _ else (v.node j).byte p
      by_cases hp : p < off
      · -- a byte that was there before
        have hv := h.cover j hi (p / BSIZE) (lt_of_le_of_lt (div_mul_le_self _ _) (hoff ▸ hp))
        rw [if_pos (by omega), if_neg (by omega), node_byte hi (by rw [hoff]; exact hp),
          ← hw.grown.byte hv, hbyte]
        split_ifs with hdiv
        · have h1 := div_add_mod p BSIZE
          have h2 := div_add_mod off BSIZE
          rw [hdiv] at h1
          rw [Block.store, if_neg (by omega), Volume.byte, hdiv]
        · rfl
      · by_cases hp' : p < off + l.length
        · have h1 := div_add_mod p BSIZE
          have h2 := div_add_mod off BSIZE
          have hdiv : p / BSIZE = off / BSIZE := by
            simp only [BSIZE] at *
            omega
          rw [hdiv] at h1
          rw [if_pos hp', if_pos ⟨by omega, hp'⟩, hbyte, if_pos hdiv, Block.store,
            if_pos (by omega)]
          congr 1
          omega
        · rw [if_neg hp', if_neg (by omega)]
          unfold node
          rw [if_pos hi]
          exact (if_neg (by rw [hoff]; omega)).symm
  · rw [update_of_ne hj, setSize, node_setInode_of_ne hj]
    refine (node_setBlock_of_ne hw.mapped (blockSlot_ne _) hne _ hj).trans ?_
    exact congrFun (hw.grown.node h.toOwned) j

end Append

end Volume

/-! ## The image as a volume -/

namespace Mkfs

open Volume

variable {s s' s1 : Mkfs} {i k off fbn : ℕ} {din din' d : Dinode} {p : List UInt8}

/-- **The image as a volume**: the blocks below `freeblock` are in use. -/
def view (s : Mkfs) : Volume where
  sb := sb
  inode i := if i < NINODES then .load (s.disk (sb.IBLOCK i)) (i % IPB) else .fresh 0
  bit b := b < s.freeblock
  block b := if sb.InData b then s.disk b else fun _ => 0

/-- The image, with `din` and `off` of `iappend` as inode `i`. -/
def draft (s : Mkfs) (i : ℕ) (din : Dinode) (off : ℕ) : Volume :=
  s.view.setInode i { din with size := off }

theorem draft_size : ((s.draft i din off).inode i).size = off := by
  simp only [draft, Volume.setInode, update_self]

/-- The blocks from `freeblock` on have not been used. -/
structure Fresh (s : Mkfs) : Prop where
  clear : ∀ b, s.freeblock ≤ b → s.disk b = fun _ => 0
  lo : nmeta ≤ s.freeblock
  hi : s.freeblock ≤ FSSIZE

/-- What appending leaves as it is. -/
structure Kept (s s' : Mkfs) : Prop where
  freeinode : s'.freeinode = s.freeinode
  super : s'.disk 1 = s.disk 1

theorem Kept.refl (s : Mkfs) : Kept s s := ⟨rfl, rfl⟩

theorem Kept.trans (h : Kept s s1) (h' : Kept s1 s') : Kept s s' :=
  ⟨h'.freeinode.trans h.freeinode, h'.super.trans h.super⟩

theorem inData_iff {b : ℕ} : sb.InData b ↔ nmeta ≤ b ∧ b < FSSIZE := Iff.rfl

theorem not_inData_of_lt {b : ℕ} (hb : b < nmeta) : ¬ sb.InData b := fun h => absurd h.1 (not_le.mpr hb)

theorem iblock_lt (hi : i < NINODES) : 1 < sb.IBLOCK i ∧ sb.IBLOCK i < sb.bmapstart := by
  unfold SuperBlock.IBLOCK sb
  simp only [NINODES, IPB, nlog, ninodeblocks, LOGSIZE] at *
  omega

theorem rsect_run {b : ℕ} (hb : b < FSSIZE) : (rsect b).run s = .ok (s.disk b, s) := by
  show (if b < FSSIZE then _ else _ : MkfsM Block).run s = _
  rw [if_pos hb]
  rfl

theorem rsect_bind {α : Type} {k : Block → MkfsM α} {b : ℕ} {post : α → Mkfs → Prop}
    {err : MkfsError → Prop} (hlt : b < FSSIZE → Wp (k (s.disk b)) post err s)
    (hge : FSSIZE ≤ b → err .die) : Wp (rsect b >>= k) post err s := by
  by_cases hb : b < FSSIZE
  · exact Wp.run_bind (rsect_run hb) (hlt hb)
  · refine Wp.bind (q := fun _ _ => False) (Wp.get_bind ?_) fun _ _ => False.elim
    exact Wp.ite (absurd · hb) fun _ => Wp.throw (hge (Nat.le_of_not_lt hb))

theorem view_block {b : ℕ} (hb : sb.InData b) : s.view.block b = s.disk b := if_pos hb

/-! ### Blocks of the image -/

/-- The state after `wsect`. -/
def setBlock (s : Mkfs) (b : ℕ) (x : Block) : Mkfs := { s with disk := update s.disk b x }

theorem setBlock_self (b : ℕ) (x : Block) : (s.setBlock b x).disk b = x := update_self ..

theorem setBlock_of_ne {b c : ℕ} (hc : c ≠ b) (x : Block) : (s.setBlock b x).disk c = s.disk c :=
  update_of_ne hc ..

/-- The state after `freeblock++`. -/
def next (s : Mkfs) : Mkfs := { s with freeblock := s.freeblock + 1 }

theorem view_setBlock {b : ℕ} (hb : sb.InData b) (x : Block) :
    (s.setBlock b x).view = s.view.setBlock b x := by
  refine Volume.ext rfl (funext fun j => ?_) rfl (funext fun c => ?_)
  · show (if j < NINODES then .load (update s.disk b x _) _ else _) = s.view.inode j
    split_ifs with hj
    · have hne : sb.IBLOCK j ≠ b := fun he =>
        not_inData_of_lt (lt_of_lt_of_le (he ▸ (iblock_lt hj).2) (by decide)) hb
      rw [update_of_ne hne]
      exact (if_pos hj).symm
    · exact (if_neg hj).symm
  · show (if sb.InData c then update s.disk b x c else _) = update s.view.block b x c
    by_cases hc : c = b
    · subst hc
      rw [update_self, if_pos hb, update_self]
    · rw [update_of_ne hc, update_of_ne hc]
      rfl

/-- `freeblock++` marks a block, which is clear. -/
theorem view_next (hs : s.Fresh) : s.next.view = s.view.alloc s.freeblock := by
  refine Volume.ext rfl rfl (funext fun b => ?_) ?_
  · show decide (b < s.freeblock + 1) = update s.view.bit s.freeblock true b
    by_cases hb : b = s.freeblock
    · rw [hb, update_self]
      exact decide_eq_true (lt_succ_self _)
    · rw [update_of_ne hb]
      exact decide_eq_decide.mpr (by omega)
  · have hzero : s.view.block s.freeblock = fun _ => 0 := by
      show (if _ then _ else _) = _
      rw [hs.clear _ le_rfl, ite_self]
    show s.view.block = update s.view.block s.freeblock _
    rw [← hzero, update_eq_self]

theorem nextBlock_run : nextBlock.run s = .ok (s.freeblock, s.next) := rfl

theorem wsect_run (b : ℕ) (x : Block) : (wsect b x).run s = .ok ((), s.setBlock b x) := rfl

theorem Fresh.next (hs : s.Fresh) (hlt : s.freeblock < FSSIZE) : s.next.Fresh :=
  ⟨fun b hb => hs.clear b (le_of_succ_le hb), le_succ_of_le hs.lo, hlt⟩

theorem Fresh.setBlock (hs : s.Fresh) {b : ℕ} (hb : b < s.freeblock) (x : Block) :
    (s.setBlock b x).Fresh where
  clear c hc := by
    have hne : c ≠ b := fun he => absurd hb (not_lt.mpr (he ▸ hc))
    exact (update_of_ne hne ..).trans (hs.clear c hc)
  lo := hs.lo
  hi := hs.hi

theorem Kept.setBlock {b : ℕ} (hb : sb.InData b) (x : Block) : Kept s (s.setBlock b x) where
  freeinode := rfl
  super := by
    have hne : 1 ≠ b := fun he => not_inData_of_lt (by decide) (he ▸ hb)
    exact update_of_ne hne ..

/-- The state after `winode`. -/
def setInode (s : Mkfs) (i : ℕ) (d : Dinode) : Mkfs :=
  s.setBlock (sb.IBLOCK i) (d.store (s.disk (sb.IBLOCK i)) (i % IPB))

theorem winode_run (hi : i < NINODES) (d : Dinode) :
    (winode i d).run s = .ok ((), s.setInode i d) := by
  have hlt : sb.IBLOCK i < FSSIZE := lt_of_lt_of_le (iblock_lt hi).2 (by decide)
  unfold winode
  rw [Wp.run_bind_eq (rsect_run hlt)]
  rfl

theorem rinode_run (hi : i < NINODES) : (rinode i).run s = .ok (s.view.inode i, s) := by
  have hlt : sb.IBLOCK i < FSSIZE := lt_of_lt_of_le (iblock_lt hi).2 (by decide)
  unfold rinode
  rw [Wp.run_bind_eq (rsect_run hlt)]
  show Except.ok (_, _) = Except.ok (if i < NINODES then _ else _, _)
  rw [if_pos hi]

theorem view_setInode (hi : i < NINODES) (hd : d.Wf) :
    (s.setInode i d).view = s.view.setInode i d := by
  have hib := iblock_lt hi
  refine Volume.ext rfl (funext fun j => ?_) rfl (funext fun b => ?_)
  · show (if j < NINODES then .load (update s.disk (sb.IBLOCK i) _ _) _ else _) =
      update s.view.inode i d j
    by_cases hj : j < NINODES
    · rw [if_pos hj]
      by_cases hb : sb.IBLOCK j = sb.IBLOCK i
      · -- another inode of the block, or this one
        rw [hb, update_self, Dinode.load_store hd]
        by_cases hji : j = i
        · rw [hji, if_pos rfl, update_self]
        · have hmod : j % IPB ≠ i % IPB := fun he => hji (by
            unfold SuperBlock.IBLOCK at hb
            simp only [IPB] at *
            omega)
          rw [if_neg hmod, update_of_ne hji, ← hb]
          exact (if_pos hj).symm
      · have hji : j ≠ i := fun he => hb (he ▸ rfl)
        rw [update_of_ne hb, update_of_ne hji]
        exact (if_pos hj).symm
    · have hji : j ≠ i := fun he => hj (he ▸ hi)
      rw [if_neg hj, update_of_ne hji]
      exact (if_neg hj).symm
  · show (if _ then _ else _) = if _ then _ else _
    split_ifs with hb
    · have hne : b ≠ sb.IBLOCK i := fun he =>
        not_inData_of_lt (lt_of_lt_of_le hib.2 (by decide)) (he ▸ hb)
      exact update_of_ne hne ..
    · rfl

theorem Fresh.setInode (hs : s.Fresh) (hi : i < NINODES) (d : Dinode) : (s.setInode i d).Fresh :=
  hs.setBlock (lt_of_lt_of_le (iblock_lt hi).2 (le_trans (by decide) hs.lo)) _

theorem Kept.setInode (hi : i < NINODES) (d : Dinode) : Kept s (s.setInode i d) where
  freeinode := rfl
  super := update_of_ne (Nat.ne_of_lt (iblock_lt hi).1)
    (d.store (s.disk (sb.IBLOCK i)) (i % IPB)) s.disk

/-! ### Mapping a block -/

/-- The state in the loop of `iappend`. -/
structure Draft (i : ℕ) (din : Dinode) (off : ℕ) (s : Mkfs) : Prop where
  fresh : s.Fresh
  wf : din.Wf
  mapped : (s.draft i din off).Mapped
  live : (s.draft i din off).Live i

namespace Draft

variable (h : Draft i din off s)

include h

theorem addr (hk : k ≤ NDIRECT) : (s.draft i din off).addr (i, k) = din.addr k := by
  rw [addr_direct h.live hk]
  simp only [draft, Volume.setInode, update_self]
  rfl

theorem addr_used (hne : (s.draft i din off).addr (i, k) ≠ 0) :
    (s.draft i din off).addr (i, k) < s.freeblock :=
  of_decide_eq_true (h.mapped.map.used_own hne)

theorem free (hlt : s.freeblock < FSSIZE) :
    sb.InData s.freeblock ∧ (s.draft i din off).bit s.freeblock = false :=
  ⟨⟨h.fresh.lo, hlt⟩, decide_eq_false (lt_irrefl _)⟩

theorem setAddr (hk : k ≤ NDIRECT) (hlt : s.freeblock < FSSIZE) (hzero : din.addr k = 0) :
    Draft i (din.setAddr k s.freeblock) off s.next ∧ Attach i k (s.draft i din off)
        (s.next.draft i (din.setAddr k s.freeblock) off) := by
  have hvol : s.next.draft i (din.setAddr k s.freeblock) off =
      (s.draft i din off).attachAddr i k s.freeblock := by
    unfold draft
    rw [view_next h.fresh]
    show Volume.mk _ _ _ _ = Volume.mk _ _ _ _
    congr 1
    simp only [Volume.setInode, Volume.alloc, update_self, update_idem]
    rfl
  have hatt := Attach.attachAddr h.mapped h.live (h.free hlt).1 (h.free hlt).2 hk
    ((h.addr hk).trans hzero)
  rw [← hvol] at hatt
  have hwf := h.wf.setAddr hk (lt_trans hlt (by decide) : s.freeblock < 2 ^ 32)
  exact ⟨⟨h.fresh.next hlt, hwf, hatt.mapped, hatt.grown.live.mpr h.live⟩, hatt⟩

end Draft

/-- What `mapAddr` does: the address is there, unless the image is full. -/
structure MapAddr (i k : ℕ) (din : Dinode) (off : ℕ) (s : Mkfs) (din' : Dinode) (s' : Mkfs) : Prop where
  kept : Kept s s'
  count : s'.freeblock = s.freeblock + if din.addr k = 0 then 1 else 0
  full : FSSIZE ≤ din'.addr k → FSSIZE < s'.freeblock
  draft : din'.addr k < FSSIZE → Draft i din' off s' ∧
    Attach i k (s.draft i din off) (s'.draft i din' off)

theorem mapAddr_spec (h : Draft i din off s) (hk : k ≤ NDIRECT) {err : MkfsError → Prop} :
    Wp (mapAddr din k) (MapAddr i k din off s) err s := by
  refine Wp.ite (fun hzero => Wp.run_bind nextBlock_run (Wp.pure ?_)) fun hne => Wp.pure ?_
  · have haddr : (din.setAddr k s.freeblock).addr k = s.freeblock := by
      rw [addr_setAddr din hk, if_pos rfl]
    refine ⟨⟨rfl, rfl⟩, by rw [if_pos hzero]; rfl, fun hfull => ?_, fun hlt => ?_⟩
    · rw [haddr] at hfull
      exact lt_succ_of_le hfull
    · rw [haddr] at hlt
      exact h.setAddr hk hlt hzero
  · have hne' : (s.draft i din off).addr (i, k) ≠ 0 := by rwa [h.addr hk]
    refine ⟨.refl s, by rw [if_neg hne]; rfl, fun hfull => ?_, fun _ => ⟨h, .refl h.mapped hne'⟩⟩
    have hdata := h.mapped.inData hne'
    rw [h.addr hk] at hdata
    exact absurd hdata.2 (not_lt.mpr hfull)

/-- `freeblock++` becomes entry `j` of the indirect block. -/
theorem Draft.putWord (h : Draft i din off s) {j : ℕ} (hj : j < NINDIRECT) (hlt : s.freeblock < FSSIZE)
    (hne : (s.draft i din off).addr (i, NDIRECT) ≠ 0)
    (hzero : (s.draft i din off).addr (i, NDIRECT + 1 + j) = 0) (hs' : s' = s.next.setBlock
      (din.addr NDIRECT) ((s.disk (din.addr NDIRECT)).putWord j s.freeblock)) :
    Draft i din off s' ∧ Attach i (NDIRECT + 1 + j) (s.draft i din off) (s'.draft i din off) ∧
      (s'.draft i din off).addr (i, NDIRECT + 1 + j) = s.freeblock := by
  have hind : (s.draft i din off).addr (i, NDIRECT) = din.addr NDIRECT := h.addr le_rfl
  have hdata : sb.InData (din.addr NDIRECT) := hind ▸ h.mapped.inData hne
  have hused : din.addr NDIRECT < s.freeblock := hind ▸ h.addr_used hne
  have hvol : s'.draft i din off = (s.draft i din off).attachEntry i j s.freeblock := by
    have hblock : (s.draft i din off).block (din.addr NDIRECT) = s.disk (din.addr NDIRECT) :=
      view_block hdata
    unfold Volume.attachEntry
    rw [hs', hind, hblock]
    unfold draft
    rw [view_setBlock hdata, view_next h.fresh]
    rfl
  obtain ⟨hfree, hbit⟩ := h.free hlt
  have hatt := Attach.attachEntry h.mapped h.live hfree hbit hj hne hzero
  have haddr := addr_attachEntry h.mapped h.live hfree hbit hj hne
  rw [← hvol] at hatt haddr
  have hfresh : s'.Fresh := by
    rw [hs']
    exact (h.fresh.next hlt).setBlock (lt_succ_of_lt hused) _
  refine ⟨⟨hfresh, h.wf, hatt.mapped, hatt.grown.live.mpr h.live⟩, hatt, ?_⟩
  rw [haddr, update_self]

/-- What `mapBlock` does: the block is there, unless the image is full. -/
structure MapBlock (i fbn : ℕ) (din : Dinode) (off : ℕ) (s : Mkfs) (r : Dinode × ℕ) (s' : Mkfs) : Prop where
  kept : Kept s s'
  count : s'.freeblock = s.freeblock + (s.draft i din off).missing i fbn
  full : FSSIZE ≤ r.2 → FSSIZE < s'.freeblock
  draft : r.2 < FSSIZE → Draft i r.1 off s' ∧
    WithBlock i fbn (s.draft i din off) (s'.draft i r.1 off) ∧
    (s'.draft i r.1 off).addr (i, blockSlot fbn) = r.2

theorem mapBlock_spec (h : Draft i din off s) (hfbn : fbn < MAXFILE) :
    Wp (mapBlock din fbn) (MapBlock i fbn din off s)
      (fun _ => FSSIZE < s.freeblock + (s.draft i din off).missing i fbn) s := by
  refine Wp.ite (fun hd => ?_) fun hd => ?_
  · -- a direct address
    have hslot : blockSlot fbn = fbn := if_pos hd
    refine (mapAddr_spec h (le_of_lt hd)).bind fun din' s' h' => Wp.pure ?_
    refine ⟨h'.kept, ?_, h'.full, fun hlt => ?_⟩
    · rw [h'.count]
      unfold missing
      have hge : ¬ NDIRECT ≤ fbn := Nat.not_le.mpr hd
      rw [hslot, h.addr (le_of_lt hd)]
      simp only [hge, false_and, if_false, Nat.add_zero]
    · obtain ⟨hdraft, hatt⟩ := h'.draft hlt
      refine ⟨hdraft, ⟨hatt.mapped, hatt.grown, fun x => ?_⟩, ?_⟩
      · rw [hatt.addr, hslot]
        refine or_congr_right (or_iff_left fun hx => absurd hd (Nat.not_lt.mpr hx.2)).symm
      · rw [hslot, hdraft.addr (le_of_lt hd)]
  · -- an entry of the indirect block
    obtain ⟨j, rfl⟩ := Nat.exists_eq_add_of_le (Nat.le_of_not_lt hd)
    have hj : j < NINDIRECT := by
      simp only [MAXFILE] at hfbn
      omega
    have hslot : blockSlot (NDIRECT + j) = NDIRECT + 1 + j := by
      rw [blockSlot, if_neg hd]
      omega
    have hmiss : (s.draft i din off).missing i (NDIRECT + j) =
        (if (s.draft i din off).addr (i, NDIRECT + 1 + j) = 0 then 1 else 0) +
          if din.addr NDIRECT = 0 then 1 else 0 := by
      unfold missing
      rw [hslot, h.addr le_rfl]
      simp only [Nat.le_add_right, true_and]
    refine (mapAddr_spec h le_rfl).bind fun din1 s1 h1 => ?_
    have hle : s1.freeblock ≤ s.freeblock + (s.draft i din off).missing i (NDIRECT + j) := by
      rw [h1.count, hmiss]
      omega
    refine rsect_bind (fun hlt => ?_) fun hge => lt_of_lt_of_le (h1.full hge) hle
    obtain ⟨hdraft, hatt⟩ := h1.draft hlt
    have hind : (s1.draft i din1 off).addr (i, NDIRECT) = din1.addr NDIRECT := hdraft.addr le_rfl
    have hne : (s1.draft i din1 off).addr (i, NDIRECT) ≠ 0 := (hatt.addr _).mpr (.inr rfl)
    have hdata : sb.InData (din1.addr NDIRECT) := hind ▸ hdraft.mapped.inData hne
    have hentry : (s1.draft i din1 off).addr (i, NDIRECT + 1 + j) =
        (s1.disk (din1.addr NDIRECT)).word j := by
      rw [addr_entry hdraft.live hne hj, hind]
      exact congrArg (Block.word · j) (view_block hdata)
    have hsame : (s1.draft i din1 off).addr (i, NDIRECT + 1 + j) = 0 ↔
        (s.draft i din off).addr (i, NDIRECT + 1 + j) = 0 := by
      rw [← not_iff_not]
      refine (hatt.addr _).trans (or_iff_left fun he => ?_)
      have := congrArg Prod.snd he
      simp only at this
      omega
    -- the two blocks that are attached
    have hboth : ∀ v, Attach i (NDIRECT + 1 + j) (s1.draft i din1 off) v →
        WithBlock i (NDIRECT + j) (s.draft i din off) v := fun v hv => by
      refine ⟨hv.mapped, hatt.grown.trans hv.grown, fun x => ?_⟩
      rw [hv.addr, hatt.addr, hslot]
      simp only [Nat.le_add_right, and_true, or_assoc, or_comm (a := x = (i, NDIRECT))]
    rw [Nat.add_sub_cancel_left, ← hentry]
    refine Wp.ite (fun hz => Wp.run_bind nextBlock_run (Wp.run_bind (wsect_run _ _) (Wp.pure ?_)))
      fun hnz => Wp.pure ?_
    · have hkept : Kept s1 s1.next := ⟨rfl, rfl⟩
      refine ⟨h1.kept.trans (hkept.trans (.setBlock hdata _)), ?_, Nat.lt_succ_of_le, fun hlt => ?_⟩
      · rw [hmiss, if_pos (hsame.mp hz)]
        show s1.freeblock + 1 = _
        rw [h1.count]
        omega
      · obtain ⟨hdraft', hatt', haddr'⟩ := hdraft.putWord hj hlt hne hz rfl
        refine ⟨hdraft', hboth _ hatt', ?_⟩
        rw [hslot]
        exact haddr'
    · have hin := hdraft.mapped.inData hnz
      refine ⟨h1.kept, ?_, fun hge => absurd hin.2 (Nat.not_lt.mpr hge), fun _ => ?_⟩
      · rw [hmiss, if_neg fun hx => hnz (hsame.mpr hx), Nat.zero_add]
        exact h1.count
      · refine ⟨hdraft, hboth _ (.refl hdraft.mapped hnz), ?_⟩
        rw [hslot]

/-! ### `iappend` -/

/-- The bytes fit into the file and into the image. -/
def Fits (s : Mkfs) (off : ℕ) (p : List UInt8) : Prop :=
  off + p.length ≤ MAXFILE * BSIZE ∧ s.freeblock + blocksFor (off + p.length) ≤ FSSIZE + blocksFor off

/-- What the loop of `iappend` does. -/
structure Appended (i : ℕ) (din : Dinode) (off : ℕ) (p : List UInt8) (s : Mkfs) (r : Dinode × ℕ)
    (s' : Mkfs) : Prop where
  off_eq : r.2 = off + p.length
  draft : Draft i r.1 r.2 s'
  exact : (s'.draft i r.1 r.2).Exact
  node : (s'.draft i r.1 r.2).node =
    update (s.draft i din off).node i (((s.draft i din off).node i).store off p)
  kept : Kept s s'
  count : s'.freeblock + blocksFor off = s.freeblock + blocksFor r.2

/-- The blocks that are attached for a piece of `p`. -/
theorem Fits.missing (h : Draft i din off s) (he : (s.draft i din off).Exact) {m : ℕ} (hm : 0 < m)
    (hend : off % BSIZE + m ≤ BSIZE) :
    (s.draft i din off).missing i (off / BSIZE) + blocksFor off = blocksFor (off + m) :=
  he.missing_add h.live draft_size hm hend

/-- One pass of the loop, after the block has been mapped. -/
theorem Draft.store (h : Draft i din off s) (he : (s.draft i din off).Exact) {r : Dinode × ℕ}
    {s1 : Mkfs} (h1 : MapBlock i (off / BSIZE) din off s r s1) (hlt : r.2 < FSSIZE) {l : List UInt8}
    (hl : 0 < l.length) (hend : off % BSIZE + l.length ≤ BSIZE)
    (hs' : s' = s1.setBlock r.2 ((s1.disk r.2).store (off - off / BSIZE * BSIZE) l)) :
    Appended i din off l s (r.1, off + l.length) s' := by
  obtain ⟨hdraft, hwith, haddr⟩ := h1.draft hlt
  have hne : (s1.draft i r.1 off).addr (i, blockSlot (off / BSIZE)) ≠ 0 :=
    (hwith.addr _).mpr (.inr (.inl rfl))
  have hdata : sb.InData r.2 := haddr ▸ hdraft.mapped.inData hne
  have hused : r.2 < s1.freeblock := haddr ▸ hdraft.addr_used hne
  have hvol : s'.draft i r.1 (off + l.length) =
      ((s1.draft i r.1 off).storeAt i off l).setSize i (off + l.length) := by
    have hblock : (s1.draft i r.1 off).block r.2 = s1.disk r.2 := view_block hdata
    have hmod : off - off / BSIZE * BSIZE = off % BSIZE := by
      simp only [BSIZE]
      omega
    unfold storeAt setSize
    rw [haddr, hblock, hs', hmod]
    unfold Mkfs.draft
    rw [view_setBlock hdata]
    refine Volume.ext rfl ?_ rfl rfl
    simp only [Volume.setInode, Volume.setBlock, update_self, update_idem]
  have hexact := he.append h.live draft_size hwith hl hend
  rw [← hvol] at hexact
  have hlive : (s'.draft i r.1 (off + l.length)).Live i := ⟨hdraft.live.1, by
    have := hdraft.live.2
    simp only [Mkfs.draft, Volume.setInode, update_self] at this ⊢
    exact this⟩
  refine ⟨rfl, ⟨?_, hdraft.wf, hexact.toMapped, hlive⟩, hexact, ?_, ?_, ?_⟩
  · rw [hs']
    exact hdraft.fresh.setBlock hused _
  · show (s'.draft i r.1 (off + l.length)).node = _
    rw [hvol]
    exact he.node_append h.live draft_size hwith hl hend
  · rw [hs']
    exact h1.kept.trans (.setBlock hdata _)
  · have hmiss := Fits.missing h he hl hend
    have hcount := h1.count
    show s'.freeblock + blocksFor off = s.freeblock + blocksFor (off + l.length)
    have hs1 : s'.freeblock = s1.freeblock := by rw [hs']; rfl
    omega

theorem Appended.trans {l : List UInt8} {r : Dinode × ℕ}
    (h : Appended i din off l s (din', off + l.length) s1)
    (h' : Appended i din' (off + l.length) p s1 r s') : Appended i din off (l ++ p) s r s' where
  off_eq := by
    rw [h'.off_eq, length_append, add_assoc]
  draft := h'.draft
  exact := h'.exact
  node := by
    rw [h'.node, h.node, update_self, update_idem, Node.store_store]
  kept := h.kept.trans h'.kept
  count := by
    have h1 := h.count
    have h2 := h'.count
    simp only at h1
    omega

theorem Appended.nil (h : Draft i din off s) (he : (s.draft i din off).Exact) :
    Appended i din off [] s (din, off) s where
  off_eq := rfl
  draft := h
  exact := he
  node := by
    have hsize : off ≤ ((s.draft i din off).node i).size := by
      rw [node_size h.live, draft_size]
    rw [Node.store_nil hsize, update_eq_self]
  kept := .refl s
  count := rfl

/-- What comes after a piece of `p` fits, if `p` does. -/
theorem Appended.fits {l : List UInt8} {r : Dinode × ℕ} (h : Appended i din off l s r s1)
    (hf : s.Fits off (l ++ p)) : s1.Fits (off + l.length) p := by
  have hcount := h.count
  have hoff := h.off_eq
  unfold Fits at hf ⊢
  rw [length_append, ← add_assoc] at hf
  rw [hoff] at hcount
  omega

theorem iappendLoop_spec (fuel : ℕ) (hfuel : p.length ≤ fuel) (h : Draft i din off s)
    (he : (s.draft i din off).Exact) :
    Wp (iappendLoop fuel din off p) (Appended i din off p s) (fun _ => ¬ s.Fits off p) s := by
  induction fuel generalizing din off p s with
  | zero =>
    obtain rfl := eq_nil_of_length_eq_zero (le_zero.mp hfuel)
    exact Wp.pure (.nil h he)
  | succ fuel ih =>
    refine Wp.ite (fun hp => Wp.pure (by rw [hp]; exact .nil h he)) fun hp => ?_
    have hpos : 0 < p.length := length_pos_iff.mpr hp
    refine Wp.ite (fun hfbn => ?_) fun hfbn => Wp.throw fun hfits => ?_
    · -- the piece that goes into the block of position `off`
      obtain ⟨n, hn⟩ : ∃ n, n = min p.length ((off / BSIZE + 1) * BSIZE - off) := ⟨_, rfl⟩
      have hlen : (p.take n).length = n := by
        rw [length_take]
        omega
      have hn_pos : 0 < (p.take n).length := by
        rw [hlen, hn]
        simp only [BSIZE]
        omega
      have hend : off % BSIZE + (p.take n).length ≤ BSIZE := by
        rw [hlen, hn]
        simp only [BSIZE]
        omega
      have hfull : FSSIZE < s.freeblock + (s.draft i din off).missing i (off / BSIZE) →
          ¬ s.Fits off p := fun hlt hfits => by
        have hmiss := Fits.missing h he hn_pos hend
        have hmono := blocksFor_mono (show off + (p.take n).length ≤ off + p.length by omega)
        have := hfits.2
        omega
      refine ((mapBlock_spec h hfbn).mono_err fun _ => hfull).bind fun r s1 h1 => ?_
      obtain ⟨din1, x⟩ := r
      simp only [← hn]
      refine rsect_bind (fun hlt => ?_) fun hge => hfull (h1.count ▸ h1.full hge)
      refine Wp.run_bind (wsect_run _ _) ?_
      have hstore := h.store he h1 hlt hn_pos hend rfl
      have hrest : (p.drop n).length ≤ fuel := by
        rw [length_drop]
        omega
      rw [show off + n = off + (p.take n).length by rw [hlen]]
      refine ((ih hrest hstore.draft hstore.exact).mono_err fun _ hnot hfits => hnot ?_).mono
        fun r s' hr => ?_
      · rw [← take_append_drop n p] at hfits
        exact hstore.fits hfits
      · have := hstore.trans hr
        rwa [take_append_drop] at this
    · refine hfbn ?_
      have := hfits.1
      simp only [MAXFILE, NDIRECT, NINDIRECT, BSIZE] at *
      omega

/-- **The image while `mkfs` runs.** -/
structure Built (s : Mkfs) : Prop where
  fresh : s.Fresh
  exact : s.view.Exact
  unused : ∀ i, s.freeinode ≤ i → ¬ s.view.Live i

/-- The bytes `p` have been appended to the file `i`. -/
structure AppendedTo (i : ℕ) (p : List UInt8) (s s' : Mkfs) : Prop where
  built : s'.Built
  node : s'.view.node =
    update s.view.node i ((s.view.node i).store (s.view.node i).size p)
  kept : Kept s s'
  count : s'.freeblock + blocksFor (s.view.node i).size =
    s.freeblock + blocksFor ((s.view.node i).size + p.length)

/-- **`iappend` appends**, unless the file gets too long or the image is full. -/
theorem iappend_spec (h : s.Built) (hi : s.view.Live i) (p : List UInt8) :
    Wp (iappend i p) (fun _ => AppendedTo i p s) (fun _ => ¬ s.Fits (s.view.node i).size p) s := by
  have hlt : i < NINODES := hi.1
  have hself : s.draft i (s.view.inode i) (s.view.inode i).size = s.view :=
    Volume.ext rfl (update_eq_self ..) rfl rfl
  have hwf : (s.view.inode i).Wf := by
    show (if i < NINODES then _ else _ : Dinode).Wf
    rw [if_pos hlt]
    exact Dinode.load_wf _ _
  have hdraft : Draft i (s.view.inode i) (s.view.inode i).size s :=
    ⟨h.fresh, hwf, by rw [hself]; exact h.exact.toMapped, by rw [hself]; exact hi⟩
  rw [node_size hi]
  refine Wp.run_bind (rinode_run hlt) ?_
  refine (iappendLoop_spec _ le_rfl hdraft (by rw [hself]; exact h.exact)).bind fun r s1 h1 => ?_
  obtain ⟨din, off⟩ := r
  have hoff : off < 2 ^ 32 := by
    have hle := h1.exact.size_le h1.draft.live
    rw [draft_size] at hle
    exact lt_of_le_of_lt hle (by decide)
  have hwf' : ({ din with size := off } : Dinode).Wf := h1.draft.wf.setSize hoff
  refine Wp.of_run (winode_run hlt _) ?_
  have hview := view_setInode (s := s1) hlt hwf'
  have hnode := h1.node
  have hoff_eq := h1.off_eq
  have hcount := h1.count
  rw [hself] at hnode
  simp only at hnode hoff_eq hcount
  refine ⟨⟨h1.draft.fresh.setInode hlt _, by rw [hview]; exact h1.exact, fun j hj hlive => ?_⟩, ?_,
    h1.kept.trans (.setInode hlt _), ?_⟩
  · -- an inode that is not used is not `i`
    have hj' : s.freeinode ≤ j := h1.kept.freeinode ▸ hj
    have hji : j ≠ i := fun he => h.unused j hj' (he ▸ hi)
    rw [live_iff_node, hview] at hlive
    have hsame : (s1.view.setInode i { din with size := off }).node j = s.view.node j :=
      (congrFun hnode j).trans (update_of_ne hji ..)
    rw [hsame, ← live_iff_node] at hlive
    exact h.unused j hj' hlive
  · rw [hview, node_size hi]
    exact hnode
  · rw [node_size hi, ← hoff_eq]
    exact hcount

end Mkfs

end Xv6
