import Mathlib.Algebra.GroupWithZero.Nat
import Xv6.Lib.AllocMap
import Xv6.Fs.Layout

/-!
# Volumes

A volume is the disk as the file system sees it: its inodes (the cached one, when it is valid), the
free map, and the data blocks.

**Slots.** The addresses of an inode are numbered: the direct addresses, then the indirect block, then
the entries of the indirect block. `addr (i, n)` is the address in slot `n` of inode `i`, and `0` if
there is none.

**Ownership.** `Owned` says that the free map marks exactly the data blocks that are in some slot, none
being in two, that the metadata blocks are marked, and that the blocks of a file are there up to its
size. The first two parts are an allocation map of `Xv6.Lib.AllocMap`, and stay true at every step; the
third does not while a file is truncated.

**Contents.** `node i` is what a file is to its users: its type, its link count and its bytes.
-/

open Function Nat

namespace Xv6

/-! ## Words and bytes of blocks -/

namespace Block

theorem word_zero (j : ℕ) : word (fun _ => 0) j = 0 := rfl

theorem word_putWord (b : Block) (j j' : ℕ) {a : ℕ} (ha : a < 2 ^ 32) :
    (b.putWord j a).word j' = if j' = j then a else b.word j' := by
  have hdiv : ∀ r < 4, (4 * j' + r) / 4 = j' ∧ (4 * j' + r) % 4 = r := fun r hr => by omega
  have h0 := hdiv 0 (by decide)
  have h1 := hdiv 1 (by decide)
  have h2 := hdiv 2 (by decide)
  have h3 := hdiv 3 (by decide)
  rw [add_zero] at h0
  unfold word putWord
  simp only [h0, h1, h2, h3]
  split_ifs
  · simp only [UInt8.toNat_ofNat']
    omega
  · rfl

end Block

/-! ## Volumes -/

/-- The number of slots of an inode. -/
abbrev NSLOT : ℕ := NDIRECT + 1 + NINDIRECT

/-- The slot of the block with index `bn` of a file. -/
def blockSlot (bn : ℕ) : ℕ := if bn < NDIRECT then bn else bn + 1

theorem blockSlot_ne (bn : ℕ) : blockSlot bn ≠ NDIRECT := by
  unfold blockSlot
  split_ifs <;> omega

theorem blockSlot_inj {bn bn' : ℕ} (h : blockSlot bn = blockSlot bn') : bn = bn' := by
  unfold blockSlot at h
  split_ifs at h <;> omega

theorem blockSlot_lt {bn : ℕ} : blockSlot bn < NSLOT ↔ bn < MAXFILE := by
  unfold blockSlot
  simp only [NSLOT, MAXFILE, NDIRECT, NINDIRECT]
  split_ifs <;> omega

/-- A file, as its users see it. -/
@[ext] structure Node where
  type : ℤ
  nlink : ℤ
  size : ℕ
  byte : ℕ → UInt8

def Node.free : Node := ⟨0, 0, 0, fun _ => 0⟩

namespace Node

def bytes (x : Node) (off n : ℕ) : List UInt8 := (List.range n).map fun k => x.byte (off + k)

theorem bytes_add (x : Node) (off m n : ℕ) :
    x.bytes off (m + n) = x.bytes off m ++ x.bytes (off + m) n := by
  simp only [bytes, List.range_add, List.map_append, List.map_map, Function.comp_def, add_assoc]

/-- The bytes of `l` from position `off` on. -/
def store (x : Node) (off : ℕ) (l : List UInt8) : Node :=
  { x with
    size := max x.size (off + l.length)
    byte := fun p => if off ≤ p ∧ p < off + l.length then l.getD (p - off) 0 else x.byte p }

end Node

@[ext] structure Volume where
  sb : SuperBlock
  inode : ℕ → Dinode
  bit : ℕ → Bool
  block : ℕ → Block

theorem SuperBlock.not_inData_zero (sb : SuperBlock) : ¬ sb.InData 0 := by
  have := sb.nblocks_lt
  unfold InData dataStart
  omega

namespace Volume

variable {v v' v'' : Volume} {i j k n a b : ℕ}

def Live (v : Volume) (i : ℕ) : Prop := i < v.sb.ninodes ∧ (v.inode i).type ≠ 0

instance (v : Volume) : DecidablePred v.Live := fun _ => inferInstanceAs (Decidable (_ ∧ _))

/-- The address in slot `x.2` of inode `x.1`. -/
def addr (v : Volume) (x : ℕ × ℕ) : ℕ :=
  if v.Live x.1 ∧ x.2 < NSLOT then
    if x.2 ≤ NDIRECT then (v.inode x.1).addr x.2
    else if (v.inode x.1).addr NDIRECT = 0 then 0
    else (v.block ((v.inode x.1).addr NDIRECT)).word (x.2 - (NDIRECT + 1))
  else 0

/-- The byte at position `p` of the file `i`. -/
def byte (v : Volume) (i p : ℕ) : UInt8 :=
  v.block (v.addr (i, blockSlot (p / BSIZE))) (p % BSIZE)

def node (v : Volume) (i : ℕ) : Node :=
  if v.Live i then
    ⟨(v.inode i).type, (v.inode i).nlink, (v.inode i).size,
      fun p => if p < (v.inode i).size then v.byte i p else 0⟩
  else .free

/-- The free map marks the blocks that are in some slot. -/
structure Mapped (v : Volume) : Prop where
  map : AllocMap v.sb.InData v.addr v.bit
  metadata : ∀ b < v.sb.dataStart, v.bit b = true

/-- **Block ownership.** -/
structure Owned (v : Volume) : Prop extends Mapped v where
  cover : ∀ i, v.Live i → ∀ bn, bn * BSIZE < (v.inode i).size → v.addr (i, blockSlot bn) ≠ 0

def setInode (v : Volume) (i : ℕ) (d : Dinode) : Volume :=
  { v with inode := update v.inode i d }

def setBlock (v : Volume) (b : ℕ) (x : Block) : Volume :=
  { v with block := update v.block b x }

def setBit (v : Volume) (bit : ℕ → Bool) : Volume := { v with bit := bit }

/-- Mark a block and clear it. -/
def alloc (v : Volume) (b : ℕ) : Volume :=
  { v with bit := update v.bit b true, block := update v.block b fun _ => 0 }

/-! ## Addresses -/

theorem addr_direct (hi : v.Live i) (hn : n ≤ NDIRECT) : v.addr (i, n) = (v.inode i).addr n := by
  have hlt : n < NSLOT := by simp only [NSLOT, NDIRECT, NINDIRECT] at *; omega
  simp only [addr, hi, hlt, hn, and_self, if_true]

theorem addr_entry (hi : v.Live i) (ha : v.addr (i, NDIRECT) ≠ 0) (hj : j < NINDIRECT) :
    v.addr (i, NDIRECT + 1 + j) = (v.block (v.addr (i, NDIRECT))).word j := by
  have hlt : NDIRECT + 1 + j < NSLOT := by simp only [NSLOT]; omega
  have hle : ¬ NDIRECT + 1 + j ≤ NDIRECT := by omega
  rw [addr_direct hi le_rfl] at ha ⊢
  simp only [addr, hi, hlt, hle, ha, and_self, if_true, if_false, Nat.add_sub_cancel_left]

theorem addr_entry_zero (ha : v.addr (i, NDIRECT) = 0) : v.addr (i, NDIRECT + 1 + j) = 0 := by
  unfold addr
  split_ifs with h1 h2 h3
  · omega
  · rfl
  · rw [addr_direct h1.1 le_rfl] at ha
    exact absurd ha h3
  · rfl

theorem live_of_addr (h : v.addr (i, n) ≠ 0) : v.Live i ∧ n < NSLOT := by
  unfold addr at h
  split_ifs at h with h1 <;> first | exact h1 | exact absurd rfl h

theorem addr_of_not_live (h : ¬ v.Live i) : v.addr (i, n) = 0 :=
  if_neg fun h1 => h h1.1

/-- A slot is direct, or an entry of the indirect block, or there is no such slot. -/
theorem slot_cases (n : ℕ) :
    n ≤ NDIRECT ∨ (∃ j < NINDIRECT, n = NDIRECT + 1 + j) ∨ ¬ n < NSLOT := by
  by_cases hn : n ≤ NDIRECT
  · exact .inl hn
  · by_cases hlt : n < NSLOT
    · exact .inr (.inl ⟨n - (NDIRECT + 1), by simp only [NSLOT] at hlt; omega, by omega⟩)
    · exact .inr (.inr hlt)

/-- The addresses of an inode depend on the inode and its indirect block. -/
theorem addr_congr (hsb : v'.sb = v.sb) (hd : v'.inode j = v.inode j)
    (hb : v.addr (j, NDIRECT) ≠ 0 →
      v'.block (v.addr (j, NDIRECT)) = v.block (v.addr (j, NDIRECT))) :
    v'.addr (j, n) = v.addr (j, n) := by
  have hlive : v'.Live j ↔ v.Live j := by unfold Live; rw [hsb, hd]
  by_cases hj : v.Live j
  · rw [addr_direct hj le_rfl] at hb
    unfold addr
    simp only [hlive, hd]
    split_ifs with h1 h2 h3 <;> first | rfl | rw [hb h3]
  · rw [addr_of_not_live hj, addr_of_not_live fun h => hj (hlive.mp h)]

namespace Mapped

variable (h : v.Mapped)

include h

theorem inData (ha : v.addr (i, n) ≠ 0) : v.sb.InData (v.addr (i, n)) := h.map.mem _ ha

theorem inData_of_free (hb : b < v.sb.size) (hbit : v.bit b = false) : v.sb.InData b := by
  refine ⟨Nat.le_of_not_lt fun hlt => ?_, hb⟩
  rw [h.metadata b hlt] at hbit
  contradiction

end Mapped

/-! ## Contents -/

theorem byte_congr {p : ℕ} (ha : v'.addr (i, blockSlot (p / BSIZE)) = v.addr (i, blockSlot (p / BSIZE)))
    (hb : v'.block (v.addr (i, blockSlot (p / BSIZE))) = v.block (v.addr (i, blockSlot (p / BSIZE)))) :
    v'.byte i p = v.byte i p := by
  unfold byte
  rw [ha, hb]

/-- A file is the same if its fields and its bytes below its size are. -/
theorem node_congr (hsb : v'.sb = v.sb) (htype : (v'.inode j).type = (v.inode j).type)
    (hnlink : (v'.inode j).nlink = (v.inode j).nlink) (hsize : (v'.inode j).size = (v.inode j).size)
    (hbyte : v.Live j → ∀ p < (v.inode j).size, v'.byte j p = v.byte j p) :
    v'.node j = v.node j := by
  have hlive : v'.Live j ↔ v.Live j := by unfold Live; rw [hsb, htype]
  unfold node
  simp only [hlive, htype, hnlink, hsize]
  split_ifs with hj
  · congr 1
    funext p
    split_ifs with hp
    exacts [hbyte hj p hp, rfl]
  · rfl

theorem node_type (hi : v.Live i) : (v.node i).type = (v.inode i).type := by
  unfold node
  rw [if_pos hi]

theorem node_nlink (hi : v.Live i) : (v.node i).nlink = (v.inode i).nlink := by
  unfold node
  rw [if_pos hi]

theorem node_size (hi : v.Live i) : (v.node i).size = (v.inode i).size := by
  unfold node
  rw [if_pos hi]

theorem node_byte (hi : v.Live i) {p : ℕ} (hp : p < (v.inode i).size) :
    (v.node i).byte p = v.byte i p := by
  unfold node
  rw [if_pos hi]
  exact if_pos hp

theorem live_iff_node : v.Live i ↔ (v.node i).type ≠ 0 := by
  constructor
  · intro hi
    rw [node_type hi]
    exact hi.2
  · intro h
    by_contra hi
    rw [node, if_neg hi] at h
    exact h rfl

/-- The block that holds a byte below the size is there. -/
theorem Owned.addr_ne_zero (h : v.Owned) (hi : v.Live i) {p : ℕ} (hp : p < (v.inode i).size) :
    v.addr (i, blockSlot (p / BSIZE)) ≠ 0 :=
  h.cover i hi _ (lt_of_le_of_lt (div_mul_le_self p BSIZE) hp)

/-! ## Attaching blocks -/

/-- `v'` is `v` with more blocks attached to inode `i`. -/
structure Grown (i : ℕ) (v v' : Volume) : Prop where
  sb : v'.sb = v.sb
  inode : ∀ j, j ≠ i → v'.inode j = v.inode j
  type : (v'.inode i).type = (v.inode i).type
  nlink : (v'.inode i).nlink = (v.inode i).nlink
  size : (v'.inode i).size = (v.inode i).size
  addr : ∀ x, v.addr x ≠ 0 → v'.addr x = v.addr x
  block : ∀ j n, n ≠ NDIRECT → v.addr (j, n) ≠ 0 → v'.block (v.addr (j, n)) = v.block (v.addr (j, n))

namespace Grown

theorem refl (i : ℕ) (v : Volume) : Grown i v v :=
  ⟨rfl, fun _ _ => rfl, rfl, rfl, rfl, fun _ _ => rfl, fun _ _ _ _ => rfl⟩

variable (h : Grown i v v')

include h

theorem trans (h' : Grown i v' v'') : Grown i v v'' where
  sb := h'.sb.trans h.sb
  inode j hj := (h'.inode j hj).trans (h.inode j hj)
  type := h'.type.trans h.type
  nlink := h'.nlink.trans h.nlink
  size := h'.size.trans h.size
  addr x hx := by
    have he := h.addr x hx
    rw [h'.addr x (by rw [he]; exact hx), he]
  block j n hn hx := by
    have he := h.addr (j, n) hx
    have hb := h'.block j n hn (by rw [he]; exact hx)
    rw [he] at hb
    rw [hb, h.block j n hn hx]

theorem inode_type (j : ℕ) : (v'.inode j).type = (v.inode j).type := by
  by_cases hj : j = i
  · rw [hj, h.type]
  · rw [h.inode j hj]

theorem inode_nlink (j : ℕ) : (v'.inode j).nlink = (v.inode j).nlink := by
  by_cases hj : j = i
  · rw [hj, h.nlink]
  · rw [h.inode j hj]

theorem inode_size (j : ℕ) : (v'.inode j).size = (v.inode j).size := by
  by_cases hj : j = i
  · rw [hj, h.size]
  · rw [h.inode j hj]

theorem live : v'.Live j ↔ v.Live j := by
  unfold Live
  rw [h.sb, h.inode_type]

theorem byte {p : ℕ} (hp : v.addr (j, blockSlot (p / BSIZE)) ≠ 0) : v'.byte j p = v.byte j p :=
  byte_congr (h.addr _ hp) (h.block j _ (blockSlot_ne _) hp)

theorem node (ho : v.Owned) : v'.node = v.node := by
  funext j
  exact node_congr h.sb (h.inode_type j) (h.inode_nlink j) (h.inode_size j) fun hj p hp =>
    h.byte (ho.addr_ne_zero hj hp)

theorem cover (ho : v.Owned) (j : ℕ) (hj : v'.Live j) (bn : ℕ)
    (hbn : bn * BSIZE < (v'.inode j).size) : v'.addr (j, blockSlot bn) ≠ 0 := by
  rw [h.inode_size] at hbn
  have hne := ho.cover j (h.live.mp hj) bn hbn
  rw [h.addr _ hne]
  exact hne

end Grown

/-- What a new block in a slot leaves as it is, if the map of addresses changes in this slot only. -/
theorem grown_of_update (h : v.Mapped) (hzero : v.addr (i, n) = 0) (hsb : v'.sb = v.sb)
    (hinode : ∀ j, j ≠ i → v'.inode j = v.inode j) (htype : (v'.inode i).type = (v.inode i).type)
    (hnlink : (v'.inode i).nlink = (v.inode i).nlink) (hsize : (v'.inode i).size = (v.inode i).size)
    (haddr : v'.addr = update v.addr (i, n) b)
    (hblock : ∀ a, a ≠ b → a ≠ v.addr (i, NDIRECT) → v'.block a = v.block a)
    (hb : v.sb.InData b) (hfree : v.bit b = false) : Grown i v v' where
  sb := hsb
  inode := hinode
  type := htype
  nlink := hnlink
  size := hsize
  addr x hx := by
    have hne : x ≠ (i, n) := fun he => hx (he ▸ hzero)
    rw [haddr, update_of_ne hne]
  block j m hm hx := by
    refine hblock _ (h.map.own_ne hb hfree _) fun he => ?_
    have := h.map.inj _ _ hx he
    exact hm (congrArg Prod.snd this)

section Attach

variable (h : v.Mapped) (hi : v.Live i) (hb : v.sb.InData b) (hfree : v.bit b = false)

/-- Attach the block `b` to a direct slot, or as indirect block. -/
def attachAddr (v : Volume) (i k b : ℕ) : Volume :=
  (v.alloc b).setInode i ((v.inode i).setAddr k b)

theorem addr_setAddr (d : Dinode) (hk : k ≤ NDIRECT) (n a : ℕ) :
    (d.setAddr k a).addr n = if n = k then a else d.addr n := by
  unfold Dinode.addr Dinode.setAddr
  by_cases hn : n < NDIRECT + 1
  · simp only [hn, dif_pos]
  · have hnk : n ≠ k := by omega
    simp only [hn, hnk, dif_neg, if_neg, not_false_iff]

include h hi hb hfree

section

variable (hk : k ≤ NDIRECT) (hzero : v.addr (i, k) = 0)

include hk hzero

theorem addr_attachAddr : (v.attachAddr i k b).addr = update v.addr (i, k) b := by
  have hlive : (v.attachAddr i k b).Live i := by
    refine ⟨hi.1, ?_⟩
    simp only [attachAddr, setInode, update_self]
    exact hi.2
  have hinode : (v.attachAddr i k b).inode i = (v.inode i).setAddr k b := by
    simp only [attachAddr, setInode, update_self]
  have hblock : ∀ a, a ≠ b → (v.attachAddr i k b).block a = v.block a := fun a ha => by
    simp only [attachAddr, setInode, alloc, update_of_ne ha]
  have hdirect : ∀ n ≤ NDIRECT,
      (v.attachAddr i k b).addr (i, n) = if n = k then b else v.addr (i, n) := fun n hn => by
    rw [addr_direct hlive hn, addr_direct hi hn, hinode, addr_setAddr _ hk]
  funext x
  obtain ⟨j, n⟩ := x
  by_cases hj : j = i
  · subst hj
    rcases slot_cases n with hn | ⟨m, hm, rfl⟩ | hn
    · rw [hdirect n hn]
      by_cases hnk : n = k
      · simp [hnk]
      · have hne : (j, n) ≠ (j, k) := by simpa using hnk
        rw [if_neg hnk, update_of_ne hne]
    · -- an entry of the indirect block, which may be the new block
      have hne : (j, NDIRECT + 1 + m) ≠ (j, k) := fun he => by
        have := congrArg Prod.snd he
        simp only at this
        omega
      rw [update_of_ne hne]
      have hind := hdirect NDIRECT le_rfl
      by_cases hk12 : NDIRECT = k
      · rw [if_pos hk12] at hind
        have hb0 : b ≠ 0 := h.map.ne_zero hb
        rw [addr_entry hlive (by rw [hind]; exact hb0) hm, hind,
          addr_entry_zero (by rw [hk12]; exact hzero)]
        simp only [attachAddr, setInode, alloc, update_self]
        exact Block.word_zero m
      · rw [if_neg hk12] at hind
        by_cases ha : v.addr (j, NDIRECT) = 0
        · rw [addr_entry_zero ha, addr_entry_zero (by rw [hind]; exact ha)]
        · rw [addr_entry hi ha hm, addr_entry hlive (by rw [hind]; exact ha) hm, hind,
            hblock _ (h.map.own_ne hb hfree _)]
    · have hne : (j, n) ≠ (j, k) := fun he => by
        have := congrArg Prod.snd he
        simp only [NSLOT] at hn this
        omega
      rw [update_of_ne hne]
      simp only [addr, hn, and_false, if_false]
  · have hne : (j, n) ≠ (i, k) := fun he => hj (congrArg Prod.fst he)
    rw [update_of_ne hne]
    refine addr_congr rfl ?_ fun _ => hblock _ (h.map.own_ne hb hfree _)
    simp only [attachAddr, setInode, update_of_ne hj, alloc]

theorem Mapped.attachAddr : (v.attachAddr i k b).Mapped where
  map := by
    rw [addr_attachAddr h hi hb hfree hk hzero]
    exact h.map.assign hzero hb hfree
  metadata c hc := by
    by_cases hcb : c = b
    · subst hcb
      exact update_self ..
    · exact (update_of_ne hcb ..).trans (h.metadata c hc)

theorem grown_attachAddr : Grown i v (v.attachAddr i k b) := by
  have hinode : (v.attachAddr i k b).inode i = (v.inode i).setAddr k b := by
    simp only [Volume.attachAddr, setInode, update_self]
  refine grown_of_update h hzero rfl (fun j hj => ?_) ?_ ?_ ?_
    (addr_attachAddr h hi hb hfree hk hzero) (fun a ha _ => ?_) hb hfree
  · simp only [Volume.attachAddr, setInode, update_of_ne hj, alloc]
  · rw [hinode]; rfl
  · rw [hinode]; rfl
  · rw [hinode]; rfl
  · simp only [Volume.attachAddr, setInode, alloc, update_of_ne ha]

end

/-- Attach the block `b` to an entry of the indirect block. -/
def attachEntry (v : Volume) (i j b : ℕ) : Volume :=
  (v.alloc b).setBlock (v.addr (i, NDIRECT)) ((v.block (v.addr (i, NDIRECT))).putWord j b)

omit h hi hb hfree in
theorem attachEntry_block (ha : a ≠ b) (hne : a ≠ v.addr (i, NDIRECT)) :
    (v.attachEntry i j b).block a = v.block a := by
  simp only [attachEntry, setBlock, update_of_ne hne, alloc, update_of_ne ha]

variable (hj : j < NINDIRECT) (ha : v.addr (i, NDIRECT) ≠ 0)

include hj ha

theorem addr_attachEntry : (v.attachEntry i j b).addr = update v.addr (i, NDIRECT + 1 + j) b := by
  have hlive : ∀ l, (v.attachEntry i j b).Live l ↔ v.Live l := fun l => Iff.rfl
  have hdirect : ∀ l, v.Live l →
      (v.attachEntry i j b).addr (l, NDIRECT) = v.addr (l, NDIRECT) := fun l hl => by
    rw [addr_direct hl le_rfl, addr_direct ((hlive l).mpr hl) le_rfl]
    rfl
  funext x
  obtain ⟨l, n⟩ := x
  by_cases hl : l = i
  · subst hl
    rcases slot_cases n with hn | ⟨m, hm, rfl⟩ | hn
    · have hne : (l, n) ≠ (l, NDIRECT + 1 + j) := fun he => by
        have := congrArg Prod.snd he
        simp only at this
        omega
      rw [update_of_ne hne, addr_direct hi hn, addr_direct ((hlive l).mpr hi) hn]
      rfl
    · rw [addr_entry ((hlive l).mpr hi) (by rw [hdirect l hi]; exact ha) hm, hdirect l hi]
      simp only [attachEntry, setBlock, update_self]
      have hlt : b < 2 ^ 32 := lt_trans hb.2 v.sb.size_lt
      rw [Block.word_putWord _ _ _ hlt]
      by_cases hmj : m = j
      · simp [hmj]
      · have hne : (l, NDIRECT + 1 + m) ≠ (l, NDIRECT + 1 + j) := by simpa using hmj
        rw [if_neg hmj, update_of_ne hne, addr_entry hi ha hm]
    · have hne : (l, n) ≠ (l, NDIRECT + 1 + j) := fun he => by
        have := congrArg Prod.snd he
        simp only [NSLOT] at hn this
        omega
      rw [update_of_ne hne]
      simp only [addr, hn, and_false, if_false]
  · have hne : (l, n) ≠ (i, NDIRECT + 1 + j) := fun he => hl (congrArg Prod.fst he)
    rw [update_of_ne hne]
    refine addr_congr rfl rfl fun _ => ?_
    refine attachEntry_block (h.map.own_ne hb hfree _) (h.map.own_ne_of_ne ha ?_)
    exact fun he => hl (congrArg Prod.fst he)

theorem Mapped.attachEntry (hzero : v.addr (i, NDIRECT + 1 + j) = 0) :
    (v.attachEntry i j b).Mapped where
  map := by
    rw [addr_attachEntry h hi hb hfree hj ha]
    exact h.map.assign hzero hb hfree
  metadata c hc := by
    by_cases hcb : c = b
    · subst hcb
      exact update_self ..
    · exact (update_of_ne hcb ..).trans (h.metadata c hc)

theorem grown_attachEntry (hzero : v.addr (i, NDIRECT + 1 + j) = 0) :
    Grown i v (v.attachEntry i j b) :=
  grown_of_update h hzero rfl (fun _ _ => rfl) rfl rfl rfl (addr_attachEntry h hi hb hfree hj ha)
    (fun _ hab ha => attachEntry_block hab ha) hb hfree

end Attach

/-! ## Writing to a block of a file -/

section SetBlock

variable (h : v.Mapped) (hn : n ≠ NDIRECT) (ha : v.addr (i, n) ≠ 0) (x : Block)

include h hn ha

theorem addr_setBlock : (v.setBlock (v.addr (i, n)) x).addr = v.addr := by
  funext y
  obtain ⟨j, m⟩ := y
  refine addr_congr rfl rfl fun _ => ?_
  have hne : v.addr (j, NDIRECT) ≠ v.addr (i, n) :=
    h.map.own_ne_of_ne ha fun he => hn (congrArg Prod.snd he).symm
  simp only [setBlock, update_of_ne hne]

theorem Mapped.setBlock : (v.setBlock (v.addr (i, n)) x).Mapped where
  map := by
    rw [addr_setBlock h hn ha]
    exact h.map
  metadata := h.metadata

theorem byte_setBlock (j p : ℕ) : (v.setBlock (v.addr (i, n)) x).byte j p =
    if (j, blockSlot (p / BSIZE)) = (i, n) then x (p % BSIZE) else v.byte j p := by
  unfold byte
  rw [addr_setBlock h hn ha]
  split_ifs with he
  · rw [he]
    simp only [Volume.setBlock, update_self]
  · have hne := h.map.own_ne_of_ne ha he
    simp only [Volume.setBlock, update_of_ne hne]

omit h hn ha in
theorem Owned.setBlock (h : v.Owned) (hn : n ≠ NDIRECT) (ha : v.addr (i, n) ≠ 0) (x : Block) :
    (v.setBlock (v.addr (i, n)) x).Owned where
  toMapped := h.toMapped.setBlock hn ha x
  cover := by
    rw [addr_setBlock h.toMapped hn ha]
    exact h.cover

theorem node_setBlock_of_ne (hj : j ≠ i) : (v.setBlock (v.addr (i, n)) x).node j = v.node j :=
  node_congr rfl rfl rfl rfl fun _ p _ => by
    rw [byte_setBlock h hn ha, if_neg fun he => hj (congrArg Prod.fst he)]

end SetBlock

/-! ## Changing an inode -/

section SetInode

variable {d : Dinode}

theorem addr_setInode_of_ne (hj : j ≠ i) : (v.setInode i d).addr (j, n) = v.addr (j, n) :=
  addr_congr rfl (by simp only [setInode, update_of_ne hj]) fun _ => rfl

theorem addr_setInode (h : ∀ n, (v.setInode i d).addr (i, n) = v.addr (i, n)) :
    (v.setInode i d).addr = v.addr := by
  funext x
  obtain ⟨j, n⟩ := x
  by_cases hj : j = i
  · rw [hj, h n]
  · exact addr_setInode_of_ne hj

theorem live_setInode_of_ne (hj : j ≠ i) : (v.setInode i d).Live j ↔ v.Live j := by
  unfold Live
  simp only [setInode, update_of_ne hj]

theorem live_setInode_self : (v.setInode i d).Live i ↔ i < v.sb.ninodes ∧ d.type ≠ 0 := by
  unfold Live
  simp only [setInode, update_self]

theorem Owned.setInode (ho : v.Owned) (h : ∀ n, (v.setInode i d).addr (i, n) = v.addr (i, n))
    (hc : d.type ≠ 0 → ∀ bn, bn * BSIZE < d.size → v.addr (i, blockSlot bn) ≠ 0) :
    (v.setInode i d).Owned where
  map := by
    rw [addr_setInode h]
    exact ho.map
  metadata := ho.metadata
  cover j hj bn hbn := by
    rw [addr_setInode h]
    by_cases hji : j = i
    · subst hji
      simp only [Volume.setInode, update_self] at hbn
      exact hc (live_setInode_self.mp hj).2 bn hbn
    · simp only [Volume.setInode, update_of_ne hji] at hbn
      exact ho.cover j ((live_setInode_of_ne hji).mp hj) bn hbn

theorem node_setInode_of_ne (hj : j ≠ i) : (v.setInode i d).node j = v.node j := by
  have hd : (v.setInode i d).inode j = v.inode j := by
    simp only [setInode, update_of_ne hj]
  exact node_congr rfl (by rw [hd]) (by rw [hd]) (by rw [hd]) fun _ p _ =>
    byte_congr (addr_setInode_of_ne hj) rfl

theorem node_setInode : (v.setInode i d).node = update v.node i ((v.setInode i d).node i) := by
  funext j
  by_cases hj : j = i
  · rw [hj, update_self]
  · rw [update_of_ne hj, node_setInode_of_ne hj]

theorem addr_setInode_fields (hi : v.Live i) (hd : d.addrs = (v.inode i).addrs) (ht : d.type ≠ 0)
    (n : ℕ) : (v.setInode i d).addr (i, n) = v.addr (i, n) := by
  have hl : (v.setInode i d).Live i := live_setInode_self.mpr ⟨hi.1, ht⟩
  have hinode : (v.setInode i d).inode i = d := by simp only [setInode, update_self]
  have haddr : ∀ n, d.addr n = (v.inode i).addr n := fun n => by unfold Dinode.addr; rw [hd]
  unfold addr
  simp only [hinode, haddr, hi, hl]
  rfl

theorem node_setInode_fields (hi : v.Live i) (hd : d.addrs = (v.inode i).addrs) (ht : d.type ≠ 0)
    (hsize : d.size = (v.inode i).size) :
    (v.setInode i d).node i = ⟨d.type, d.nlink, (v.node i).size, (v.node i).byte⟩ := by
  have hl : (v.setInode i d).Live i := live_setInode_self.mpr ⟨hi.1, ht⟩
  have hinode : (v.setInode i d).inode i = d := by simp only [setInode, update_self]
  have hbyte : (v.setInode i d).byte i = v.byte i := by
    funext p
    exact byte_congr (addr_setInode_fields hi hd ht _) rfl
  unfold node
  rw [if_pos hl, if_pos hi, hinode, hbyte, hsize]

theorem Owned.setSize (ho : v.Owned) (hi : v.Live i) {z : ℕ}
    (hc : ∀ bn, bn * BSIZE < z → v.addr (i, blockSlot bn) ≠ 0) :
    (v.setInode i { v.inode i with size := z }).Owned :=
  ho.setInode (d := { v.inode i with size := z }) (addr_setInode_fields hi rfl hi.2) fun _ => hc

theorem node_setSize (hi : v.Live i) (z : ℕ) : (v.setInode i { v.inode i with size := z }).node i =
      ⟨(v.inode i).type, (v.inode i).nlink, z, fun p => if p < z then v.byte i p else 0⟩ := by
  have hl : (v.setInode i { v.inode i with size := z }).Live i :=
    live_setInode_self.mpr ⟨hi.1, hi.2⟩
  have hbyte : (v.setInode i { v.inode i with size := z }).byte i = v.byte i := by
    funext p
    exact byte_congr (addr_setInode_fields (d := { v.inode i with size := z }) hi rfl hi.2 _) rfl
  unfold node
  rw [if_pos hl, hbyte]
  simp only [setInode, update_self]

theorem node_setInode_empty (hi : i < v.sb.ninodes) (ht : d.type ≠ 0) (hsize : d.size = 0) :
    (v.setInode i d).node i = ⟨d.type, d.nlink, 0, fun _ => 0⟩ := by
  have hl : (v.setInode i d).Live i := live_setInode_self.mpr ⟨hi, ht⟩
  have hinode : (v.setInode i d).inode i = d := by simp only [setInode, update_self]
  unfold node
  rw [if_pos hl, hinode, hsize]
  rfl

theorem node_setInode_free (ht : d.type = 0) : (v.setInode i d).node i = .free := by
  have hl : ¬ (v.setInode i d).Live i := fun h => (live_setInode_self.mp h).2 ht
  exact if_neg hl

theorem addr_eq_zero (hd : ∀ n, (v.inode i).addr n = 0) (n : ℕ) : v.addr (i, n) = 0 := by
  unfold addr
  simp only [hd, if_true, ite_self]

end SetInode

/-! ## Truncating -/

/-- The addresses of `v` without those in the slots `D` of inode `i`. -/
def addrBut (v : Volume) (i : ℕ) (D : ℕ → Prop) [DecidablePred D] (x : ℕ × ℕ) : ℕ :=
  if x.1 = i ∧ D x.2 then 0 else v.addr x

/-- The free map `bit` is that of `v` after the blocks in the slots `D` of inode `i` have been
freed. -/
structure Freed (v : Volume) (i : ℕ) (D : ℕ → Prop) [DecidablePred D] (bit : ℕ → Bool) : Prop where
  map : AllocMap v.sb.InData (v.addrBut i D) bit
  metadata : ∀ b < v.sb.dataStart, bit b = true

section Freed

variable {D D' : ℕ → Prop} [DecidablePred D] [DecidablePred D'] {bit : ℕ → Bool}

theorem addrBut_self (hn : ¬ D n) : v.addrBut i D (i, n) = v.addr (i, n) := if_neg fun hx => hn hx.2

theorem addrBut_congr (h : ∀ n, v.addr (i, n) ≠ 0 → (D n ↔ D' n)) :
    v.addrBut i D = v.addrBut i D' := by
  funext x
  obtain ⟨j, n⟩ := x
  unfold addrBut
  by_cases hj : j = i
  · subst hj
    by_cases hzero : v.addr (j, n) = 0
    · simp only [hzero, ite_self]
    · simp only [h n hzero]
  · simp only [hj, false_and, if_false]

theorem Mapped.freed (h : v.Mapped) (hD : ∀ n, ¬ D n) : v.Freed i D v.bit := by
  have howns : v.addrBut i D = v.addr := by
    funext x
    exact if_neg fun hx => hD _ hx.2
  exact ⟨by rw [howns]; exact h.map, h.metadata⟩

theorem Freed.congr (h : v.Freed i D bit) (hD : ∀ n, v.addr (i, n) ≠ 0 → (D n ↔ D' n)) :
    v.Freed i D' bit :=
  ⟨by rw [← addrBut_congr hD]; exact h.map, h.metadata⟩

/-- A block of the inode that has not been freed is marked. -/
theorem Freed.bit_eq (h : v.Freed i D bit) (hn : ¬ D n) (hne : v.addr (i, n) ≠ 0) :
    bit (v.addr (i, n)) = true := by
  rw [← addrBut_self hn] at hne ⊢
  exact h.map.used_own hne

theorem Freed.free (h : v.Freed i D bit) (hn : ¬ D n) (hne : v.addr (i, n) ≠ 0)
    (hD : ∀ m, D' m ↔ D m ∨ m = n) :
    v.Freed i D' (update bit (v.addr (i, n)) false) := by
  have howns : v.addrBut i D' = update (v.addrBut i D) (i, n) 0 := by
    funext x
    obtain ⟨j, m⟩ := x
    by_cases hx : (j, m) = (i, n)
    · rw [hx, update_self]
      exact if_pos ⟨rfl, (hD n).mpr (.inr rfl)⟩
    · rw [update_of_ne hx]
      have hiff : j = i ∧ D' m ↔ j = i ∧ D m := by
        refine and_congr_right fun hj => ?_
        rw [hD]
        exact or_iff_left fun hm => hx (by rw [hj, hm])
      simp only [addrBut, hiff]
  rw [← addrBut_self hn] at hne
  have hdata := h.map.mem _ hne
  refine ⟨by rw [howns, ← addrBut_self hn]; exact h.map.release hne, fun b hb => ?_⟩
  rw [addrBut_self hn] at hdata
  have hbne : b ≠ v.addr (i, n) := fun he => by
    rw [he] at hb
    exact absurd hb (not_lt.mpr hdata.1)
  rw [update_of_ne hbne]
  exact h.metadata b hb

end Freed

/-- All blocks of an inode have been freed, and its addresses cleared. -/
theorem Owned.truncate (h : v.Owned) {D : ℕ → Prop} [DecidablePred D] {bit : ℕ → Bool}
    (hf : v.Freed i D bit) (hD : ∀ n < NSLOT, D n) {d : Dinode} (hd : ∀ n, d.addr n = 0)
    (hsize : d.size = 0) : ((v.setBit bit).setInode i d).Owned := by
  have hinode : ((v.setBit bit).setInode i d).inode i = d := by
    simp only [Volume.setInode, update_self]
  have hself : ∀ n, ((v.setBit bit).setInode i d).addr (i, n) = 0 :=
    addr_eq_zero (by rw [hinode]; exact hd)
  have hother : ∀ j, j ≠ i → ∀ n,
      ((v.setBit bit).setInode i d).addr (j, n) = v.addr (j, n) := fun j hj n =>
    addr_setInode_of_ne hj
  have howns : ((v.setBit bit).setInode i d).addr = v.addrBut i D := by
    funext x
    obtain ⟨j, n⟩ := x
    by_cases hj : j = i
    · subst hj
      rw [hself]
      by_cases hn : n < NSLOT
      · exact (if_pos ⟨rfl, hD n hn⟩).symm
      · have hzero : v.addr (j, n) = 0 := if_neg fun hx => hn hx.2
        simp only [addrBut, hzero, ite_self]
    · rw [hother j hj]
      exact (if_neg fun hx => hj hx.1).symm
  constructor
  · constructor
    · rw [howns]
      exact hf.map
    · exact hf.metadata
  · intro j hj bn hbn
    by_cases hji : j = i
    · subst hji
      rw [hinode, hsize] at hbn
      exact absurd hbn (not_lt_zero _)
    · rw [hother j hji]
      have hlive : v.Live j := (live_setInode_of_ne hji).mp hj
      have hsame : ((v.setBit bit).setInode i d).inode j = v.inode j :=
        update_of_ne hji ..
      rw [hsame] at hbn
      exact h.cover j hlive bn hbn

end Volume

end Xv6
