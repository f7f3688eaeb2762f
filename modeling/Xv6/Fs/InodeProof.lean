import Mathlib.Data.List.TakeWhile
import Xv6.Lib.Wp
import Xv6.Fs.Inode
import Xv6.Fs.Volume

/-!
# Blocks of inodes

What the functions of `Xv6.Fs.Inode` that work on blocks do to the volume.
-/

open Function List Nat

namespace Xv6

open Volume

variable {P : Type}

namespace FsState

/-- The inode: the cached one, when it is valid. -/
def eff (s : FsState P) (i : ℕ) : Dinode :=
  match s.itable i with
  | some e => if e.valid then e.din else s.dinode i
  | none => s.dinode i

/-- The volume, as the file system sees it. -/
def vol (s : FsState P) : Volume := ⟨s.sb, s.eff, s.bit, s.block⟩

/-- The inode has been read. -/
def Valid (s : FsState P) (i : ℕ) : Prop := ∃ e, s.itable i = some e ∧ e.valid = true

variable {s s' s'' : FsState P} {i j : ℕ} {e : Entry}

theorem eff_of_valid (he : s.itable i = some e) (hv : e.valid = true) : s.eff i = e.din := by
  simp only [eff, he, hv, if_true]

theorem eff_of_not_valid (hv : ¬ s.Valid i) : s.eff i = s.dinode i := by
  unfold eff
  split
  · next e he => exact if_neg fun h => hv ⟨e, he, h⟩
  · rfl

theorem eff_congr (ht : s'.itable j = s.itable j) (hd : s'.dinode j = s.dinode j) :
    s'.eff j = s.eff j := by
  simp only [eff, ht, hd]

/-- Everything but inode `i`, the free map and the data blocks is as before. -/
structure Kept (i : ℕ) (s s' : FsState P) : Prop where
  sb : s'.sb = s.sb
  file : s'.file = s.file
  proc : s'.proc = s.proc
  pipe : s'.pipe = s.pipe
  commits : s'.commits = s.commits
  itable : ∀ j, j ≠ i → s'.itable j = s.itable j
  entry : ∀ e, s.itable i = some e → ∃ d, s'.itable i = some { e with din := d }
  dinode : ∀ j, j ≠ i → s'.dinode j = s.dinode j

namespace Kept

theorem blocks {bit block logged} :
    Kept i s { s with bit := bit, block := block, logged := logged } :=
  ⟨rfl, rfl, rfl, rfl, rfl, fun _ _ => rfl, fun e he => ⟨e.din, he⟩, fun _ _ => rfl⟩

theorem refl (i : ℕ) (s : FsState P) : Kept i s s := blocks

theorem trans (h : Kept i s s') (h' : Kept i s' s'') : Kept i s s'' where
  sb := h'.sb.trans h.sb
  file := h'.file.trans h.file
  proc := h'.proc.trans h.proc
  pipe := h'.pipe.trans h.pipe
  commits := h'.commits.trans h.commits
  itable j hj := (h'.itable j hj).trans (h.itable j hj)
  entry e he := by
    obtain ⟨d, hd⟩ := h.entry e he
    obtain ⟨d', hd'⟩ := h'.entry _ hd
    exact ⟨d', hd'⟩
  dinode j hj := (h'.dinode j hj).trans (h.dinode j hj)

theorem setLogged (h : Kept i s s') (l : List ℕ) : Kept i s (s'.setLogged l) :=
  ⟨h.sb, h.file, h.proc, h.pipe, h.commits, h.itable, h.entry, h.dinode⟩

theorem valid (h : Kept i s s') (hi : s.Valid i) : s'.Valid i := by
  obtain ⟨e, he, hv⟩ := hi
  obtain ⟨d, hd⟩ := h.entry e he
  exact ⟨_, hd, hv⟩

theorem eff (h : Kept i s s') (hj : j ≠ i) : s'.eff j = s.eff j :=
  eff_congr (h.itable j hj) (h.dinode j hj)

end Kept

theorem vol_setEntry (he : s.itable i = some e) (hv : e.valid = true) (d : Dinode) :
    (s.setEntry i (some { e with din := d })).vol = s.vol.setInode i d := by
  have heff : (s.setEntry i (some { e with din := d })).eff = update s.eff i d := by
    funext j
    by_cases hj : j = i
    · subst hj
      simp only [eff, setEntry, update_self, hv, if_true]
    · rw [update_of_ne hj]
      refine eff_congr ?_ rfl
      simp only [setEntry, update_of_ne hj]
  unfold vol
  rw [heff]
  rfl

theorem kept_setEntry (he : s.itable i = some e) (d : Dinode) :
    Kept i s (s.setEntry i (some { e with din := d })) where
  sb := rfl
  file := rfl
  proc := rfl
  pipe := rfl
  commits := rfl
  itable j hj := by simp only [setEntry, update_of_ne hj]
  entry e' he' := by
    rw [he] at he'
    cases he'
    exact ⟨d, by simp only [setEntry, update_self]⟩
  dinode _ _ := rfl

end FsState

/-- **What `readi` returns**, and what it stores, with a destination that may not be mapped. -/
def Node.readTo (x : Node) (dst : ℕ → Bool) (off n : ℕ) : ℤ × List UInt8 :=
  if x.size < off ∨ 2 ^ 32 ≤ off + n then (0, [])
  else
    let l := Fs.copyout dst 0 (x.bytes off (min n (x.size - off)))
    if l.length < min n (x.size - off) then (-1, l) else (((min n (x.size - off) : ℕ) : ℤ), l)

theorem Node.bytes_length (x : Node) (off n : ℕ) : (x.bytes off n).length = n := by
  simp [Node.bytes]

namespace Fs

open FsState

variable {s s' s0 : FsState P} {i j k n a b bn : ℕ} {e : Entry} {err : FsError → Prop}

/-! ## Reading the table and blocks -/

theorem entry_run (he : s.itable i = some e) : (entry i).run s = .ok (e, s) := by
  show (match s.itable i with | some e => pure e | none => throw .wild : FsM P Entry).run s = _
  rw [he]
  rfl

theorem inode_run (hi : s.Valid i) : (inode i).run s = .ok (s.eff i, s) := by
  obtain ⟨e, he, hv⟩ := hi
  unfold inode
  rw [Wp.run_bind_eq (entry_run he), eff_of_valid he hv]
  rfl

theorem setInode_run (he : s.itable i = some e) (f : Dinode → Dinode) :
    (setInode i f).run s = .ok ((), s.setEntry i (some { e with din := f e.din })) := by
  unfold setInode
  rw [Wp.run_bind_eq (entry_run he)]
  rfl

theorem readBlock_run (hb : s.sb.InData b) : (readBlock b).run s = .ok (s.block b, s) := by
  show (if s.sb.InData b then pure (s.block b) else throw .wild : FsM P Block).run s = _
  rw [if_pos hb]
  rfl

theorem modifyBlock_run (hb : s.sb.InData b) (f : Block → Block) :
    (modifyBlock b f).run s = .ok ((), s.setBlock b (f (s.block b))) := by
  show (if s.sb.InData b then set (s.setBlock b (f (s.block b))) else throw .wild :
    FsM P Unit).run s = _
  rw [if_pos hb]
  rfl

theorem bzero_run (hb : s.sb.InData b) :
    (bzero b).run s = .ok ((), (s.setBlock b fun _ => 0).setLogged (b :: s.logged)) := by
  unfold bzero
  rw [Wp.run_bind_eq (modifyBlock_run hb _)]
  rfl

/-! ## Allocation -/

/-- The state after `balloc` has returned the block `b`. -/
def allocState (s : FsState P) (b : ℕ) (l : List ℕ) : FsState P :=
  { s with
    bit := update s.bit b true
    block := update s.block b fun _ => 0
    logged := l }

theorem kept_alloc (i b : ℕ) (l : List ℕ) : Kept i s (allocState s b l) := .blocks

/-- All blocks are in use. -/
def NoFree (s : FsState P) : Prop := ∀ b < s.sb.size, s.bit b = true

/-- **`balloc` returns 0 if all blocks are in use, and else a block that is not**, which it clears. -/
theorem balloc_spec (h : s.vol.Mapped) :
    Wp balloc (fun b t => (b = 0 ∧ t = s ∧ NoFree s) ∨ (s.sb.InData b ∧ s.bit b = false ∧
      t = allocState s b (b :: s.sb.BBLOCK b :: s.logged))) err s := by
  refine Wp.get_bind ?_
  cases hf : (range s.sb.size).find? fun b => !s.bit b with
  | none =>
    refine Wp.pure (.inl ⟨rfl, rfl, fun b hb => ?_⟩)
    have := find?_eq_none.1 hf b (mem_range.2 hb)
    simpa using this
  | some b =>
    have hmem := mem_range.mp (mem_of_find?_eq_some hf)
    have hfree : s.bit b = false := by simpa using find?_some hf
    have hdata : s.sb.InData b := h.inData_of_free hmem hfree
    refine Wp.set_bind (Wp.modify_bind (Wp.run_bind (bzero_run ?_) (Wp.pure ?_)))
    · exact hdata
    · exact .inr ⟨hdata, hfree, rfl⟩

/-- **What attaching a block to slot `n` of inode `i` does.** The result is the block in the slot, or 0
if there was none and no block is free. -/
structure Attached (i n : ℕ) (s : FsState P) (a : ℕ) (s' : FsState P) : Prop where
  kept : Kept i s s'
  mapped : s'.vol.Mapped
  grown : Volume.Grown i s.vol s'.vol
  found : s'.vol.addr (i, n) = a
  same : s.vol.addr (i, n) ≠ 0 → a = s.vol.addr (i, n) ∧ s' = s

theorem Attached.refl (h : s.vol.Mapped) (i n : ℕ) : Attached i n s (s.vol.addr (i, n)) s where
  kept := .refl i s
  mapped := h
  grown := .refl i _
  found := rfl
  same _ := ⟨rfl, rfl⟩

/-- **A free block has been put into an empty slot.** It is cleared and marked, and it is logged with
its block of the free map and the indirect block, if the slot is there. -/
structure NewBlock (i n b : ℕ) (s s' : FsState P) : Prop where
  zero : s.vol.addr (i, n) = 0
  data : s.sb.InData b
  free : s.bit b = false
  kept : Kept i s s'
  mapped : s'.vol.Mapped
  grown : Volume.Grown i s.vol s'.vol
  addr : s'.vol.addr = update s.vol.addr (i, n) b
  bit : s'.bit = update s.bit b true
  dinode : s'.dinode = s.dinode
  log : ∃ L, s'.logged = L ++ s.logged ∧ b ∈ L ∧ s.sb.BBLOCK b ∈ L ∧
    (∀ c ∈ L, c = b ∨ c = s.sb.BBLOCK b ∨ c = s.vol.addr (i, NDIRECT)) ∧
    ∀ c, s'.block c ≠ s.block c → c ∈ L

/-- **What the code that attaches a block to slot `n` can do.** -/
inductive Attach (i n : ℕ) (s : FsState P) : ℕ → FsState P → Prop
  | full (hz : s.vol.addr (i, n) = 0) (hf : NoFree s) : Attach i n s 0 s
  | there (hne : s.vol.addr (i, n) ≠ 0) : Attach i n s (s.vol.addr (i, n)) s
  | new {b : ℕ} {s' : FsState P} (h : NewBlock i n b s s') : Attach i n s b s'

theorem NewBlock.ne_zero (hm : s.vol.Mapped) (h : NewBlock i n b s s') : b ≠ 0 :=
  hm.map.ne_zero h.data

theorem Attach.attached (hm : s.vol.Mapped) (h : Attach i n s a s') : Attached i n s a s' := by
  cases h with
  | full hz _ =>
    rw [← hz]
    exact .refl hm i n
  | there _ => exact .refl hm i n
  | new h =>
    refine ⟨h.kept, h.mapped, h.grown, ?_, fun hne => absurd h.zero hne⟩
    rw [h.addr, update_self]

theorem ballocAddr_spec (h : s.vol.Mapped) (hv : s.Valid i) (hi : s.vol.Live i) (hk : k ≤ NDIRECT) :
    Wp (ballocAddr i k) (Attach i k s) err s := by
  have haddr : s.vol.addr (i, k) = (s.eff i).addr k := addr_direct hi hk
  refine Wp.run_bind (inode_run hv) (Wp.ite (fun hzero => ?_) fun hne => ?_)
  · refine (balloc_spec h).bind fun b t ht => ?_
    rw [← haddr] at hzero
    rcases ht with ⟨rfl, rfl, hfull⟩ | ⟨hdata, hfree, rfl⟩
    · exact Wp.ite (fun _ => Wp.pure (.full hzero hfull)) fun hb => absurd rfl hb
    · obtain ⟨e, he, hvalid⟩ := hv
      rw [if_neg (h.map.ne_zero hdata)]
      refine Wp.run_bind (setInode_run (s := allocState s b _) he _) (Wp.pure (.new ?_))
      have hvol : ((allocState s b (b :: s.sb.BBLOCK b :: s.logged)).setEntry i
          (some { e with din := e.din.setAddr k b })).vol = s.vol.attachAddr i k b := by
        rw [vol_setEntry (s := allocState s b _) he hvalid, ← eff_of_valid he hvalid]
        rfl
      refine ⟨hzero, hdata, hfree, ?_, ?_, ?_, ?_, rfl, rfl, [b, s.sb.BBLOCK b], rfl, by simp, by simp,
        fun c hc => ?_, fun c hc => ?_⟩
      · exact (kept_alloc i b _).trans (kept_setEntry (s := allocState s b _) he _)
      · rw [hvol]
        exact h.attachAddr hi hdata hfree hk hzero
      · rw [hvol]
        exact grown_attachAddr h hi hdata hfree hk hzero
      · rw [hvol]
        exact addr_attachAddr h hi hdata hfree hk hzero
      · have hc' : c = b ∨ c = s.sb.BBLOCK b := by simpa using hc
        exact hc'.imp id .inl
      · have hcb : c = b := by
          by_contra hcb
          exact hc (update_of_ne hcb ..)
        exact hcb ▸ mem_cons_self
  · rw [← haddr] at hne ⊢
    exact Wp.pure (.there hne)

theorem blockSlot_direct (hbn : bn < NDIRECT) : blockSlot bn = bn := if_pos hbn

theorem blockSlot_entry (hbn : ¬ bn < NDIRECT) : blockSlot bn = NDIRECT + 1 + (bn - NDIRECT) := by
  rw [blockSlot, if_neg hbn]
  omega

theorem newBlock_entry (h : s.vol.Mapped) (hi : s.vol.Live i) (hj : j < NINDIRECT)
    (ha : s.vol.addr (i, NDIRECT) ≠ 0) (hzero : s.vol.addr (i, NDIRECT + 1 + j) = 0)
    (hdata : s.sb.InData b) (hfree : s.bit b = false) (hk : Kept i s s')
    (hvol : s'.vol = s.vol.attachEntry i j b) (hdinode : s'.dinode = s.dinode)
    (hlog : s'.logged = s.vol.addr (i, NDIRECT) :: b :: s.sb.BBLOCK b :: s.logged) :
    NewBlock i (NDIRECT + 1 + j) b s s' := by
  refine ⟨hzero, hdata, hfree, hk, ?_, ?_, ?_, congrArg Volume.bit hvol, hdinode,
    [s.vol.addr (i, NDIRECT), b, s.sb.BBLOCK b], hlog, by simp, by simp, fun c hc => ?_, fun c hc => ?_⟩
  · rw [hvol]
    exact h.attachEntry hi hdata hfree hj ha hzero
  · rw [hvol]
    exact Volume.grown_attachEntry h hi hdata hfree hj ha hzero
  · rw [hvol]
    exact Volume.addr_attachEntry h hi hdata hfree hj ha
  · have hc' : c = s.vol.addr (i, NDIRECT) ∨ c = b ∨ c = s.sb.BBLOCK b := by simpa using hc
    exact hc'.elim (fun hc => .inr (.inr hc)) (Or.imp id .inl)
  · by_contra hcL
    simp only [mem_cons, not_mem_nil, or_false, not_or] at hcL
    exact hc ((congrFun (congrArg Volume.block hvol) c).trans
      (Volume.attachEntry_block hcL.2.1 hcL.1))

/-- **What `bmap` does**: it attaches the block, after the indirect block if the address is there. -/
inductive BMap (i bn : ℕ) (s : FsState P) : ℕ → FsState P → Prop
  | direct {a : ℕ} {s' : FsState P} (hd : bn < NDIRECT) (h : Attach i (blockSlot bn) s a s') :
      BMap i bn s a s'
  /-- there is no free block for the indirect block -/
  | full (hd : ¬ bn < NDIRECT) (hz : s.vol.addr (i, NDIRECT) = 0) (hf : NoFree s) : BMap i bn s 0 s
  | entry {a a₁ : ℕ} {s₁ s' : FsState P} (hd : ¬ bn < NDIRECT) (h₁ : Attach i NDIRECT s a₁ s₁)
      (hne : a₁ ≠ 0) (h : Attach i (blockSlot bn) s₁ a s') : BMap i bn s a s'

theorem bmap_cases (h : s.vol.Mapped) (hv : s.Valid i) (hi : s.vol.Live i) (hbn : bn < MAXFILE) :
    Wp (bmap i bn) (BMap i bn s) err s := by
  refine Wp.ite (fun hd => ?_) fun hd => ?_
  · refine (ballocAddr_spec h hv hi (le_of_lt hd)).mono fun a t ht => .direct hd ?_
    rwa [blockSlot_direct hd]
  · have hj : bn - NDIRECT < NINDIRECT := by
      simp only [MAXFILE, NDIRECT] at *
      omega
    have hslot := blockSlot_entry hd
    rw [if_pos hj]
    refine (ballocAddr_spec h hv hi le_rfl).bind fun a1 s1 h1 => ?_
    have hat := h1.attached h
    have hm1 := hat.mapped
    have hi1 : s1.vol.Live i := hat.grown.live.mpr hi
    refine Wp.ite (fun h0 => Wp.pure ?_) fun hne => ?_
    · cases h1 with
      | full hz hf => exact .full hd hz hf
      | there hne => exact absurd h0 hne
      | new hnew => exact absurd h0 (hnew.ne_zero h)
    · refine Wp.mono ?_ fun a t ht => .entry hd h1 hne ht
      obtain rfl := hat.found
      have hentry : s1.vol.addr (i, blockSlot bn) =
          (s1.block (s1.vol.addr (i, NDIRECT))).word (bn - NDIRECT) := by
        rw [hslot]
        exact addr_entry hi1 hne hj
      refine Wp.run_bind (readBlock_run (hm1.inData hne)) (Wp.ite (fun hz => ?_) fun hnz => ?_)
      · have hzero : s1.vol.addr (i, blockSlot bn) = 0 := hentry.trans hz
        refine (balloc_spec hm1).bind fun b s2 h2 => ?_
        rcases h2 with ⟨rfl, rfl, hf⟩ | ⟨hdata, hfree, rfl⟩
        · exact Wp.ite (fun _ => Wp.pure (.full hzero hf)) fun hb => absurd rfl hb
        · rw [if_neg (hm1.map.ne_zero hdata)]
          refine Wp.run_bind (modifyBlock_run (s := allocState s1 b _) (hm1.inData hne) _) ?_
          refine Wp.modify_bind (Wp.pure (.new ?_))
          rw [hslot] at hzero ⊢
          refine newBlock_entry hm1 hi1 hj hne hzero hdata hfree .blocks ?_ rfl rfl
          have hblock : (allocState s1 b (b :: s1.sb.BBLOCK b :: s1.logged)).block
              (s1.vol.addr (i, NDIRECT)) = s1.block (s1.vol.addr (i, NDIRECT)) :=
            update_of_ne (hm1.map.own_ne hdata hfree _) ..
          rw [hblock]
          rfl
      · rw [← hentry] at hnz ⊢
        exact Wp.pure (.there hnz)

theorem BMap.attached (hm : s.vol.Mapped) (h : BMap i bn s a s') : Attached i (blockSlot bn) s a s' := by
  cases h with
  | direct _ h => exact h.attached hm
  | full hd hz _ =>
    have hzero : s.vol.addr (i, blockSlot bn) = 0 := by
      rw [blockSlot_entry hd]
      exact addr_entry_zero hz
    rw [← hzero]
    exact .refl hm i _
  | entry hd h1 _ h =>
    have h1 := h1.attached hm
    have h := h.attached h1.mapped
    refine ⟨h1.kept.trans h.kept, h.mapped, h1.grown.trans h.grown, h.found, fun hne => ?_⟩
    have hind : s.vol.addr (i, NDIRECT) ≠ 0 := fun hz => hne (by
      rw [blockSlot_entry hd]
      exact addr_entry_zero hz)
    obtain ⟨-, rfl⟩ := h1.same hind
    exact h.same hne

theorem bmap_spec (h : s.vol.Mapped) (hv : s.Valid i) (hi : s.vol.Live i) (hbn : bn < MAXFILE) :
    Wp (bmap i bn) (Attached i (blockSlot bn) s) err s :=
  (bmap_cases h hv hi hbn).mono fun _ _ ht => ht.attached h

/-! ## Reading -/

theorem copyout_nil (dst : ℕ → Bool) (k : ℕ) : copyout dst k [] = [] := rfl

theorem copyout_cons (dst : ℕ → Bool) (k : ℕ) (x : UInt8) (l : List UInt8) :
    copyout dst k (x :: l) = if dst k then x :: copyout dst (k + 1) l else [] := by
  unfold copyout
  rw [length_cons, range_succ_eq_map, takeWhile_cons, add_zero]
  by_cases hk : dst k = true
  · simp only [hk, if_true, length_cons, take_succ_cons, takeWhile_map,
      length_map, comp_def, succ_eq_add_one]
    congr 4
    funext j
    rw [add_right_comm, add_assoc]
  · simp only [hk, if_false, length_nil, take_zero, Bool.false_eq_true]

/-- A copy in two parts: the second follows if the first is complete. -/
theorem copyout_append (dst : ℕ → Bool) (k : ℕ) (a b : List UInt8) :
    copyout dst k (a ++ b) = if (copyout dst k a).length < a.length then copyout dst k a
      else copyout dst k a ++ copyout dst (k + a.length) b := by
  induction a generalizing k with
  | nil => simp [copyout_nil]
  | cons x a ih =>
    rw [cons_append, copyout_cons, copyout_cons]
    by_cases hk : dst k = true
    · simp only [hk, if_true, ih, length_cons, Nat.add_lt_add_iff_right]
      split_ifs
      · rfl
      · rw [cons_append, show k + 1 + a.length = k + (a.length + 1) by omega]
    · simp [hk]

theorem copyout_eq_self {dst : ℕ → Bool} {k : ℕ} {l : List UInt8}
    (h : ¬ (copyout dst k l).length < l.length) : copyout dst k l = l := by
  unfold copyout at h ⊢
  rw [length_take] at h
  exact take_of_length_le (by omega)

theorem copyout_all {dst : ℕ → Bool} (hdst : ∀ k, dst k = true) (k : ℕ) (l : List UInt8) :
    copyout dst k l = l := by
  rw [copyout, takeWhile_eq_self_iff.mpr fun j _ => hdst (k + j), length_range, take_length]

theorem size_le (ho : s.vol.Owned) (hi : s.vol.Live i) : (s.eff i).size ≤ MAXFILE * BSIZE := by
  by_contra hlt
  have hne := ho.cover i hi MAXFILE (Nat.lt_of_not_le hlt)
  exact absurd (blockSlot_lt.mp (live_of_addr hne).2) (Nat.lt_irrefl _)

theorem bytes_block (hi : s.vol.Live i) {off m : ℕ} (hm : off + m ≤ (s.eff i).size)
    (hb : m ≤ BSIZE - off % BSIZE) :
    (s.block (s.vol.addr (i, blockSlot (off / BSIZE)))).bytes (off % BSIZE) m =
      (s.vol.node i).bytes off m := by
  refine map_congr_left fun k hk => ?_
  have hk := mem_range.mp hk
  have hdiv : (off + k) / BSIZE = off / BSIZE := by
    simp only [BSIZE] at *
    omega
  have hmod : (off + k) % BSIZE = off % BSIZE + k := by
    simp only [BSIZE] at *
    omega
  rw [node_byte hi (show off + k < (s.vol.inode i).size by exact lt_of_lt_of_le (by omega) hm)]
  unfold byte
  rw [hdiv, hmod]
  rfl

/-- The blocks that hold the bytes from `off` to `off + n` are there. -/
def Covered (s : FsState P) (i off n : ℕ) : Prop :=
  ∀ p, off ≤ p → p < off + n → s.vol.addr (i, blockSlot (p / BSIZE)) ≠ 0

/-- **The loop of `readi` changes nothing**, and reads up to where the destination is not mapped. -/
theorem readLoop_spec {dst : ℕ → Bool} (h : s.vol.Mapped) (hv : s.Valid i) (hi : s.vol.Live i)
    (fuel off tot : ℕ) (out : List UInt8) (hfuel : n - tot ≤ fuel) (htot : tot ≤ n)
    (hoff : off + (n - tot) ≤ (s.eff i).size) (hc : Covered s i off (n - tot)) :
    Wp (readLoop i n dst fuel off tot out) (fun r t => t = s ∧
      r = (if (copyout dst tot ((s.vol.node i).bytes off (n - tot))).length < n - tot then -1 else
        (n : ℤ),
        out ++ copyout dst tot ((s.vol.node i).bytes off (n - tot)))) err s := by
  have hdone : ∀ {off tot : ℕ} {out : List UInt8}, n - tot = 0 → tot ≤ n →
      ((tot : ℤ), out) = (if (copyout dst tot ((s.vol.node i).bytes off (n - tot))).length < n - tot
        then -1 else (n : ℤ), out ++ copyout dst tot ((s.vol.node i).bytes off (n - tot))) := by
    intro off tot out hz hle
    have htn : tot = n := by omega
    rw [hz]
    simp [Node.bytes, copyout_nil, htn]
  induction fuel generalizing off tot out with
  | zero => exact Wp.pure ⟨rfl, hdone (by omega) htot⟩
  | succ fuel ih =>
    refine Wp.ite (fun hlt => ?_) fun hge => Wp.pure ⟨rfl, hdone (by omega) htot⟩
    have hne := hc off le_rfl (by omega)
    have hbn : off / BSIZE < MAXFILE := blockSlot_lt.mp (live_of_addr hne).2
    refine (bmap_spec h hv hi hbn).bind fun a t ht => ?_
    obtain ⟨rfl, rfl⟩ := ht.same hne
    rw [if_neg hne]
    refine Wp.run_bind (readBlock_run (h.inData hne)) ?_
    have hmod := mod_lt off (show 0 < BSIZE by decide)
    set m := min (n - tot) (BSIZE - off % BSIZE)
    have hbytes : (t.block (t.vol.addr (i, blockSlot (off / BSIZE)))).bytes (off % BSIZE) m =
        (t.vol.node i).bytes off m := bytes_block hi (by omega) (min_le_right _ _)
    simp only [hbytes]
    -- the bytes of this block come first
    have hsplit : (t.vol.node i).bytes off (n - tot) =
        (t.vol.node i).bytes off m ++ (t.vol.node i).bytes (off + m) (n - (tot + m)) := by
      rw [← Node.bytes_add, show m + (n - (tot + m)) = n - tot by omega]
    rw [hsplit, copyout_append, Node.bytes_length]
    refine Wp.ite (fun hshort => Wp.pure ⟨rfl, ?_⟩) fun hfull => ?_
    · rw [if_pos hshort, if_pos (by omega)]
    · rw [if_neg hfull, copyout_eq_self (by rw [Node.bytes_length]; exact hfull)]
      refine (ih (off + m) (tot + m) _ (by omega) (by omega) (by omega) fun p hp hp' => ?_).mono ?_
      · exact hc p (by omega) (by omega)
      · rintro r u ⟨hu, hr⟩
        refine ⟨hu, hr.trans ?_⟩
        rw [length_append, Node.bytes_length, append_assoc]
        congr 2
        exact propext (by omega)

theorem addUint_lt_iff {off : ℕ} (hoff : off < 2 ^ 32) (hn : n < 2 ^ 32) :
    addUint off n < off ↔ 2 ^ 32 ≤ off + n := by
  unfold addUint
  omega

theorem addUint_of_lt {off : ℕ} (h : off + n < 2 ^ 32) : addUint off n = off + n := mod_eq_of_lt h

/-- **`readi` reads the bytes of the file**, if their blocks are there. -/
theorem readi_to (dst : ℕ → Bool) (h : s.vol.Mapped) (hv : s.Valid i) (hi : s.vol.Live i)
    (hsize : (s.eff i).size < 2 ^ 32) (off : ℕ) (hn : n < 2 ^ 32)
    (hc : Covered s i off (min n ((s.eff i).size - off))) :
    (readi i dst off n).run s = .ok ((s.vol.node i).readTo dst off n, s) := by
  have hwp : Wp (readi i dst off n) (fun r t => t = s ∧ r = (s.vol.node i).readTo dst off n)
      (fun _ => False) s := by
    have hnode : (s.vol.node i).size = (s.eff i).size := node_size hi
    unfold Node.readTo
    rw [hnode]
    refine Wp.run_bind (inode_run hv) (Wp.ite (fun hbad => ?_) fun hgood => ?_)
    · have hout : (s.eff i).size < off ∨ 2 ^ 32 ≤ off + n := by
        unfold addUint at hbad
        omega
      rw [if_pos hout]
      exact Wp.pure ⟨rfl, rfl⟩
    · have hadd : off + n < 2 ^ 32 := by
        unfold addUint at hgood
        omega
      have hin : ¬ ((s.eff i).size < off ∨ 2 ^ 32 ≤ off + n) := by omega
      rw [if_neg hin, addUint_of_lt hadd]
      have hmin : (if off + n > (s.eff i).size then (s.eff i).size - off else n) =
          min n ((s.eff i).size - off) := by
        split_ifs <;> omega
      simp only [hmin]
      refine (readLoop_spec (n := min n ((s.eff i).size - off)) h hv hi _ off 0 [] (by omega)
        (Nat.zero_le _) (by omega) hc).mono ?_
      rintro r t ⟨rfl, rfl⟩
      refine ⟨rfl, ?_⟩
      rw [Nat.sub_zero, nil_append]
      split_ifs <;> rfl
  obtain ⟨r, t, hrun, rfl, rfl⟩ := hwp.exists_run
  exact hrun

/-- **`readi` reads the bytes of the file** up to where the destination is not mapped. -/
theorem readi_owned (dst : ℕ → Bool) (ho : s.vol.Owned) (hv : s.Valid i) (hi : s.vol.Live i)
    (off : ℕ) (hn : n < 2 ^ 32) :
    (readi i dst off n).run s = .ok ((s.vol.node i).readTo dst off n, s) := by
  refine readi_to dst ho.toMapped hv hi (lt_of_le_of_lt (size_le ho hi) (by decide)) off hn ?_
  intro p hp hp'
  exact ho.addr_ne_zero hi (show p < (s.eff i).size by omega)

theorem readTo_all (dst : ℕ → Bool) (hdst : ∀ k, dst k = true) (hi : s.vol.Live i) {off : ℕ}
    (hle : off ≤ (s.eff i).size) (hlt : off + n < 2 ^ 32) :
    (s.vol.node i).readTo dst off n = (((min n ((s.eff i).size - off) : ℕ) : ℤ),
      (s.vol.node i).bytes off (min n ((s.eff i).size - off))) := by
  have hnode : (s.vol.node i).size = (s.eff i).size := node_size hi
  unfold Node.readTo
  simp only [hnode, copyout_all hdst, Node.bytes_length]
  rw [if_neg (by omega), if_neg (lt_irrefl _)]

/-! ## Writing an inode back -/

theorem updateInode_wp {post : Unit → FsState P → Prop} (he : s.itable i = some e)
    (f : Dinode → Dinode) (hlt : i < s.sb.ninodes → post () (((s.setEntry i (some { e with
      din := f e.din })).setDinode i (f e.din)).setLogged (s.sb.IBLOCK i :: s.logged)))
    (hge : ¬ i < s.sb.ninodes → err .wild) : Wp (updateInode i f) post err s := by
  have he' : (s.setEntry i (some { e with din := f e.din })).itable i =
      some { e with din := f e.din } := update_self ..
  refine Wp.run_bind (setInode_run he f) (Wp.run_bind (entry_run he') (Wp.get_bind ?_))
  exact Wp.ite (fun hi => Wp.set_bind (Wp.modify (hlt hi))) fun hi => Wp.throw (hge hi)

/-- **What a change of the fields of an inode does**, with the inode written back. -/
structure Updated (i : ℕ) (d : Dinode) (s s' : FsState P) : Prop where
  kept : Kept i s s'
  vol : s'.vol = s.vol.setInode i d
  saved : s'.dinode i = s'.eff i

theorem updateInode_spec (hv : s.Valid i) (hi : i < s.sb.ninodes) (f : Dinode → Dinode) :
    Wp (updateInode i f) (fun _ => Updated i (f (s.eff i)) s) err s := by
  obtain ⟨e, he, hvalid⟩ := hv
  refine updateInode_wp he f (fun _ => ?_) (absurd hi)
  have he' : (s.setEntry i (some { e with din := f e.din })).itable i =
      some { e with din := f e.din } := update_self ..
  have heff := eff_of_valid he hvalid
  have hk := kept_setEntry he (f e.din)
  have hself : ((s.setEntry i (some { e with din := f e.din })).setDinode i (f e.din)).eff i =
      f e.din := by
    refine eff_of_valid (e := { e with din := f e.din }) ?_ hvalid
    exact he'
  have hsame : ((s.setEntry i (some { e with din := f e.din })).setDinode i (f e.din)).eff =
      (s.setEntry i (some { e with din := f e.din })).eff := by
    funext j
    by_cases hj : j = i
    · rw [hj, hself, eff_of_valid he' hvalid]
    · exact eff_congr rfl (update_of_ne hj ..)
  constructor
  · exact { hk with dinode := fun j hj => update_of_ne hj .. }
  · rw [heff, ← vol_setEntry he hvalid (f e.din)]
    show Volume.mk _ _ _ _ = Volume.mk _ _ _ _
    congr 1
  · refine Eq.trans ?_ hself.symm
    exact update_self ..

/-- **What an operation on the contents of one inode does**: the file is `x` afterwards, and the inode
has been written back. -/
structure Changed (i : ℕ) (x : Node) (s s' : FsState P) : Prop where
  kept : Kept i s s'
  owned : s'.vol.Owned
  node : s'.vol.node = update s.vol.node i x
  saved : s'.dinode i = s'.eff i

theorem Updated.changed {d : Dinode} (h : Updated i d s s') (ho : (s.vol.setInode i d).Owned) :
    Changed i ((s.vol.setInode i d).node i) s s' where
  kept := h.kept
  owned := by
    rw [h.vol]
    exact ho
  node := by
    rw [h.vol]
    exact node_setInode
  saved := h.saved

theorem updateInode_fields (ho : s.vol.Owned) (hv : s.Valid i) (hi : s.vol.Live i)
    {f : Dinode → Dinode} (haddrs : (f (s.eff i)).addrs = (s.eff i).addrs)
    (hsize : (f (s.eff i)).size = (s.eff i).size) (htype : (f (s.eff i)).type = (s.eff i).type) :
    Wp (updateInode i f) (fun _ => Changed i { s.vol.node i with nlink := (f (s.eff i)).nlink } s)
      err s := by
  refine (updateInode_spec hv hi.1 f).mono fun _ s' h => ?_
  have ht : (f (s.eff i)).type ≠ 0 := by
    rw [htype]
    exact hi.2
  have hsame := addr_setInode_fields hi haddrs ht
  have hnode : (s.vol.setInode i (f (s.eff i))).node i =
      { s.vol.node i with nlink := (f (s.eff i)).nlink } := by
    rw [node_setInode_fields hi haddrs ht hsize, htype]
    congr 1
    exact (node_type hi).symm
  rw [← hnode]
  refine h.changed (ho.setInode hsame fun _ bn hbn => ?_)
  rw [hsize] at hbn
  exact ho.cover i hi bn hbn

/-! ## Truncating -/

theorem bfree_run (hb : b < s.sb.size) (hbit : s.bit b = true) :
    (bfree b).run s = .ok ((), (s.setBit b false).setLogged (s.sb.BBLOCK b :: s.logged)) := by
  show (if s.sb.size ≤ b then throw .wild else if s.bit b then _ else _ : FsM P Unit).run s = _
  rw [if_neg (not_le.mpr hb), if_pos hbit]
  rfl

/-- The inode without the first `k` addresses. -/
def clearAddrs (d : Dinode) (k : ℕ) : Dinode :=
  { d with addrs := fun j => if j.val < k then 0 else d.addrs j }

theorem clearAddrs_addr (d : Dinode) (k n : ℕ) :
    (clearAddrs d k).addr n = if n < k then 0 else d.addr n := by
  unfold Dinode.addr clearAddrs
  by_cases hn : n < NDIRECT + 1
  · simp only [hn, dif_pos]
  · simp only [hn, dif_neg, not_false_iff, ite_self]

theorem clearAddrs_zero (d : Dinode) : clearAddrs d 0 = d := by
  simp only [clearAddrs, not_lt_zero, if_false]

theorem clearAddrs_setAddr (d : Dinode) (k : ℕ) :
    (clearAddrs d k).setAddr k 0 = clearAddrs d (k + 1) := by
  unfold clearAddrs Dinode.setAddr
  congr 1
  funext j
  by_cases hjk : j.val = k
  · simp [hjk]
  · have hiff : j.val < k + 1 ↔ j.val < k := by omega
    simp [hjk, hiff]

theorem clearAddrs_succ (d : Dinode) {k : ℕ} (hzero : d.addr k = 0) :
    clearAddrs d (k + 1) = clearAddrs d k := by
  unfold clearAddrs
  congr 1
  funext j
  by_cases hjk : j.val = k
  · have hlt : k < NDIRECT + 1 := hjk ▸ j.isLt
    have hz : d.addrs j = 0 := by
      rw [Dinode.addr, dif_pos hlt] at hzero
      rw [← hzero]
      congr 1
      exact Fin.ext hjk
    simp [hz]
  · have hiff : j.val < k + 1 ↔ j.val < k := by omega
    simp only [hiff]

/-- **The state while an inode is truncated**: the blocks in the slots `D` have been freed, and the
first `k` addresses cleared. -/
structure Truncating (i k : ℕ) (D : ℕ → Prop) [DecidablePred D] (s s' : FsState P) : Prop where
  kept : Kept i s s'
  vol : s'.vol = (s.vol.setBit s'.bit).setInode i (clearAddrs (s.eff i) k)
  freed : s.vol.Freed i D s'.bit

namespace Truncating

variable {D D' : ℕ → Prop} [DecidablePred D] [DecidablePred D']

theorem init (h : s.vol.Mapped) (hD : ∀ n, ¬ D n) : Truncating i 0 D s s where
  kept := .refl i s
  vol := by
    rw [clearAddrs_zero]
    show Volume.mk _ _ _ _ = Volume.mk _ _ _ _
    congr 1
    exact (update_eq_self ..).symm
  freed := h.freed hD

variable (h : Truncating i k D s s')

include h

theorem congr (hD : ∀ n, s.vol.addr (i, n) ≠ 0 → (D n ↔ D' n)) : Truncating i k D' s s' :=
  ⟨h.kept, h.vol, h.freed.congr hD⟩

theorem eff : s'.eff i = clearAddrs (s.eff i) k := by
  have heff : s'.eff = update s.eff i (clearAddrs (s.eff i) k) :=
    congrArg Volume.inode h.vol
  rw [heff, update_self]

theorem free (hn : ¬ D n) (hne : s.vol.addr (i, n) ≠ 0) (hD : ∀ m, D' m ↔ D m ∨ m = n)
    (hdata : s.sb.InData (s.vol.addr (i, n))) :
    Wp (bfree (s.vol.addr (i, n))) (fun _ => Truncating i k D' s) err s' := by
  have hlt : s.vol.addr (i, n) < s'.sb.size := by
    rw [h.kept.sb]
    exact hdata.2
  refine Wp.of_run (bfree_run hlt (h.freed.bit_eq hn hne)) ⟨?_, ?_, h.freed.free hn hne hD⟩
  · exact h.kept.trans .blocks
  · show s'.vol.setBit _ = _
    rw [h.vol]
    rfl

theorem clear (hv : s.Valid i) :
    Wp (setInode i fun d => d.setAddr k 0) (fun _ => Truncating i (k + 1) D s) err s' := by
  obtain ⟨e, he, hvalid⟩ := h.kept.valid hv
  have heff : e.din = clearAddrs (s.eff i) k := by
    rw [← eff_of_valid he hvalid]
    exact h.eff
  refine Wp.of_run (setInode_run he _) ⟨h.kept.trans (kept_setEntry he _), ?_, h.freed⟩
  rw [vol_setEntry he hvalid, heff, clearAddrs_setAddr, h.vol]
  show Volume.mk _ _ _ _ = Volume.mk _ _ _ _
  congr 1
  exact update_idem ..

end Truncating

theorem Truncating.addr {D : ℕ → Prop} [DecidablePred D] (h : Truncating i k D s s')
    (hi : s.vol.Live i) (hk : k ≤ NDIRECT) : (s'.eff i).addr k = s.vol.addr (i, k) := by
  rw [h.eff, clearAddrs_addr, if_neg (lt_irrefl k)]
  exact (addr_direct hi hk).symm

section Truncate

variable (ho : s.vol.Owned) (hv : s.Valid i) (hi : s.vol.Live i)

include ho hv hi

theorem truncDirect_spec (hk : k < NDIRECT) (h : Truncating i k (· < k) s s') :
    Wp (truncDirect i k) (fun _ => Truncating i (k + 1) (· < k + 1) s) err s' := by
  have haddr := h.addr hi (le_of_lt hk)
  refine Wp.run_bind (inode_run (h.kept.valid hv)) (Wp.ite (fun hz => Wp.pure ?_) fun hne => ?_)
  · rw [haddr] at hz
    have hzero : (s.eff i).addr k = 0 := (addr_direct hi (le_of_lt hk)).symm.trans hz
    refine ⟨h.kept, by rw [clearAddrs_succ _ hzero]; exact h.vol, h.freed.congr fun n hn => ?_⟩
    have hnk : n ≠ k := fun he => hn (he ▸ hz)
    omega
  · rw [haddr] at hne ⊢
    have hstep : ∀ m, m < k + 1 ↔ m < k ∨ m = k := fun m => by omega
    refine (h.free (lt_irrefl k) hne hstep (ho.inData hne)).bind fun _ s1 h1 => ?_
    exact h1.clear hv

/-- The slots whose blocks have been freed when the loop over the indirect block is at entry `j`. -/
def BeforeEntry (j n : ℕ) : Prop := n < NDIRECT ∨ NDIRECT < n ∧ n < NDIRECT + 1 + j

instance (j : ℕ) : DecidablePred (BeforeEntry j) := fun _ => inferInstanceAs (Decidable (_ ∨ _))

omit hv in
theorem truncEntry_spec (hne : s.vol.addr (i, NDIRECT) ≠ 0) (hj : j < NINDIRECT)
    (h : Truncating i NDIRECT (BeforeEntry j) s s') :
    Wp (truncEntry (s.block (s.vol.addr (i, NDIRECT))) j)
      (fun _ => Truncating i NDIRECT (BeforeEntry (j + 1)) s) err s' := by
  have hstep : ∀ m, BeforeEntry (j + 1) m ↔ BeforeEntry j m ∨ m = NDIRECT + 1 + j := fun m => by
    unfold BeforeEntry
    omega
  have hentry : s.vol.addr (i, NDIRECT + 1 + j) =
      (s.block (s.vol.addr (i, NDIRECT))).word j := addr_entry hi hne hj
  unfold truncEntry
  rw [← hentry]
  refine Wp.ite (fun hz => Wp.pure (h.congr fun n hn => ?_)) fun hnz => ?_
  · rw [hstep]
    refine (or_iff_left fun he => hn ?_).symm
    rw [he]
    exact hz
  · refine h.free ?_ hnz hstep (ho.inData hnz)
    unfold BeforeEntry
    omega

theorem truncIndirect_spec (h : Truncating i NDIRECT (· < NDIRECT) s s') :
    Wp (truncIndirect i) (fun _ => Truncating i (NDIRECT + 1) (· < NSLOT) s) err s' := by
  have haddr := h.addr hi le_rfl
  refine Wp.run_bind (inode_run (h.kept.valid hv)) (Wp.ite (fun hz => Wp.pure ?_) fun hne => ?_)
  · -- without an indirect block there are no entries
    rw [haddr] at hz
    have hzero : (s.eff i).addr NDIRECT = 0 := (Volume.addr_direct hi le_rfl).symm.trans hz
    refine ⟨h.kept, by rw [clearAddrs_succ _ hzero]; exact h.vol, h.freed.congr fun n hn => ?_⟩
    refine iff_of_true ?_ (Volume.live_of_addr hn).2
    rcases Volume.slot_cases n with hn' | ⟨j, -, rfl⟩ | hn'
    · have hne : n ≠ NDIRECT := fun he => hn (he ▸ hz)
      omega
    · exact absurd (Volume.addr_entry_zero hz) hn
    · exact absurd (Volume.live_of_addr hn).2 hn'
  · rw [haddr] at hne ⊢
    have hblock : s'.block = s.block := congrArg Volume.block h.vol
    have hdata : s'.sb.InData (s.vol.addr (i, NDIRECT)) := by
      rw [h.kept.sb]
      exact ho.inData hne
    refine Wp.run_bind (readBlock_run hdata) ?_
    rw [hblock]
    have h0 : Truncating i NDIRECT (BeforeEntry 0) s s' := h.congr fun n _ => by
      unfold BeforeEntry
      omega
    refine (Wp.forM_range (I := fun j => Truncating i NDIRECT (BeforeEntry j) s) NINDIRECT
      (fun j hj s1 h1 => truncEntry_spec ho hi hne hj h1) h0).bind fun _ s1 h1 => ?_
    have hlast : ¬ BeforeEntry NINDIRECT NDIRECT := by
      unfold BeforeEntry
      omega
    have hstep : ∀ m, m < NSLOT ↔ BeforeEntry NINDIRECT m ∨ m = NDIRECT := fun m => by
      unfold BeforeEntry
      simp only [NSLOT]
      omega
    refine (h1.free hlast hne hstep (ho.inData hne)).bind fun _ s2 h2 => ?_
    exact h2.clear hv

/-- **`itrunc` frees the blocks of the inode.** -/
theorem itrunc_spec :
    Wp (itrunc i) (fun _ s' => Changed i ⟨(s.eff i).type, (s.eff i).nlink, 0, fun _ => 0⟩ s s' ∧
      s'.eff i = (s.eff i).truncated ∧ s'.block = s.block) err s := by
  refine (Wp.forM_range (I := fun k => Truncating i k (· < k) s) NDIRECT
    (fun k hk s1 h1 => truncDirect_spec ho hv hi hk h1)
    (.init ho.toMapped fun _ => not_lt_zero _)).bind fun _ s1 h1 => ?_
  refine (truncIndirect_spec ho hv hi h1).bind fun _ s2 h2 => ?_
  have hi2 : i < s2.sb.ninodes := by
    rw [h2.kept.sb]
    exact hi.1
  refine (updateInode_spec (h2.kept.valid hv) hi2 _).mono fun _ s3 h3 => ?_
  have htrunc : ({ s2.eff i with size := 0 } : Dinode) = (s.eff i).truncated := by
    rw [h2.eff]
    refine Dinode.ext rfl rfl rfl rfl rfl (funext fun j => ?_)
    exact if_pos j.isLt
  rw [htrunc] at h3
  have hvol : s3.vol = (s.vol.setBit s2.bit).setInode i (s.eff i).truncated := by
    rw [h3.vol, h2.vol]
    show Volume.mk _ _ _ _ = Volume.mk _ _ _ _
    congr 1
    exact update_idem ..
  have hzero : ∀ n, (s.eff i).truncated.addr n = 0 := fun n => by
    unfold Dinode.addr Dinode.truncated
    split_ifs <;> rfl
  refine ⟨⟨h2.kept.trans h3.kept, ?_, ?_, h3.saved⟩, ?_⟩
  · rw [hvol]
    exact ho.truncate h2.freed (fun n hn => hn) hzero rfl
  · have hempty : ((s.vol.setBit s2.bit).setInode i (s.eff i).truncated).node i =
        ⟨(s.eff i).type, (s.eff i).nlink, 0, fun _ => 0⟩ := Volume.node_setInode_empty hi.1 hi.2 rfl
    rw [hvol, ← hempty]
    exact Volume.node_setInode
  · have heff : s3.eff = update s.eff i (s.eff i).truncated :=
      congrArg Volume.inode hvol
    exact ⟨by rw [heff, update_self], congrArg Volume.block hvol⟩

end Truncate

end Fs

end Xv6
