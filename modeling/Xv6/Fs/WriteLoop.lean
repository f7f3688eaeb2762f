import Mathlib.Algebra.BigOperators.Intervals
import Xv6.Fs.InodeProof

/-!
# The loop of `writei`

**Written.** A write changes the bytes of one file between two positions (`Written`).

**The loop** (`writeLoop_ends`). Up to the offset where the loop ends, the bytes of the source are
in the file and all blocks that differ are logged (`Loop`). It ends because all has been written,
because there is no free block, or because the source faults (`Ending`); in the last case what was
mapped of the chunk has been stored in the block, which is then given up without `log_write`.

**Free blocks** (`Took`). How many blocks the loop has taken follows from the blocks that the file
lacks.

Main results: `writei_spec` and `writei_ends`.
-/

open Finset Function List Nat

namespace Xv6

open FsState Volume

namespace Volume

variable {v v' : Volume} {i lo mid hi b bn : ℕ}

def free (v : Volume) : ℕ := ((Finset.range v.sb.size).filter fun b => v.bit b = false).card

/-- The number of blocks with an index from `lo` to `hi` that inode `i` does not have. -/
def lacking (v : Volume) (i lo hi : ℕ) : ℕ :=
  ∑ bn ∈ Finset.Ico lo hi, if v.addr (i, blockSlot bn) = 0 then 1 else 0

theorem lacking_self (v : Volume) (i lo : ℕ) : v.lacking i lo lo = 0 := by
  simp [lacking]

theorem lacking_add (v : Volume) (i : ℕ) (h : lo ≤ mid) (h' : mid ≤ hi) :
    v.lacking i lo mid + v.lacking i mid hi = v.lacking i lo hi :=
  sum_Ico_consecutive _ h h'

theorem lacking_succ (v : Volume) (i bn : ℕ) :
    v.lacking i bn (bn + 1) = if v.addr (i, blockSlot bn) = 0 then 1 else 0 := by
  unfold lacking
  rw [Nat.Ico_succ_singleton, Finset.sum_singleton]

theorem lacking_congr (h : ∀ bn, lo ≤ bn → v'.addr (i, blockSlot bn) = v.addr (i, blockSlot bn)) :
    v'.lacking i lo hi = v.lacking i lo hi :=
  sum_congr rfl fun bn hbn => by rw [h bn (mem_Ico.1 hbn).1]

theorem free_update (hsb : v'.sb = v.sb) (hbit : v'.bit = update v.bit b true)
    (hb : b < v.sb.size) (hfree : v.bit b = false) : v.free = v'.free + 1 := by
  unfold free
  rw [hsb, hbit]
  have herase : (Finset.range v.sb.size).filter (fun c => update v.bit b true c = false) =
      ((Finset.range v.sb.size).filter fun c => v.bit c = false).erase b := by
    ext c
    by_cases hc : c = b
    · subst hc
      simp
    · simp [hc]
  rw [herase, Finset.card_erase_add_one (by simp [hb, hfree])]

theorem free_eq_zero (h : ∀ b < v.sb.size, v.bit b = true) : v.free = 0 := by
  refine Finset.card_eq_zero.2 (Finset.filter_eq_empty_iff.2 fun b hb => ?_)
  rw [h b (Finset.mem_range.1 hb)]
  decide

end Volume

/-- No data block holds inodes or the free map. -/
def SuperBlock.Apart (sb : SuperBlock) : Prop :=
  ∀ b, sb.InData b → (∀ c < sb.size, b ≠ sb.BBLOCK c) ∧ ∀ j < sb.ninodes, b ≠ sb.IBLOCK j

namespace Fs

variable {P : Type} {s s' t u : FsState P} {i j a b n lo mid hi bn off tot : ℕ}
  {src : ℕ → Option UInt8}
  {err : FsError → Prop}

/-! ## Parts of a file that are written -/

theorem copyin_length_le (src : ℕ → Option UInt8) (k m : ℕ) : (copyin src k m).length ≤ m := by
  induction m generalizing k with
  | zero => exact le_refl 0
  | succ m ih =>
    unfold copyin
    cases src k with
    | none => exact zero_le _
    | some x => exact succ_le_succ (ih (k + 1))

theorem copyin_length_of {k m : ℕ} (h : ∀ j < m, src (k + j) ≠ none) : (copyin src k m).length = m := by
  induction m generalizing k with
  | zero => rfl
  | succ m ih =>
    unfold copyin
    cases hx : src k with
    | none => exact absurd hx (h 0 (succ_pos m))
    | some x =>
      refine congrArg (· + 1) (ih fun j hj => ?_)
      have := h (j + 1) (by omega)
      rwa [show k + (j + 1) = k + 1 + j by omega] at this

theorem copyin_length (hsrc : ∀ k, src k ≠ none) (k m : ℕ) : (copyin src k m).length = m :=
  copyin_length_of fun j _ => hsrc (k + j)

theorem copyin_getD (src : ℕ → Option UInt8) (k m j : ℕ) (hj : j < (copyin src k m).length) :
    src (k + j) = some ((copyin src k m).getD j 0) := by
  induction m generalizing k j with
  | zero => exact absurd hj (not_lt_zero j)
  | succ m ih =>
    unfold copyin at hj ⊢
    cases hx : src k with
    | none =>
      rw [hx] at hj
      exact absurd hj (not_lt_zero j)
    | some x =>
      rw [hx] at hj
      cases j with
      | zero => simpa using hx
      | succ j =>
        have := ih (k + 1) j (lt_of_succ_lt_succ hj)
        simpa [add_assoc, add_comm 1 j] using this

/-- **Writes to the blocks of inode `i`**, at positions from `lo` to `hi`. -/
structure Written (i lo hi : ℕ) (s s' : FsState P) : Prop where
  kept : Kept i s s'
  owned : s'.vol.Owned
  type : (s'.eff i).type = (s.eff i).type
  nlink : (s'.eff i).nlink = (s.eff i).nlink
  size : (s'.eff i).size = (s.eff i).size
  node : ∀ j, j ≠ i → s'.vol.node j = s.vol.node j
  addr : ∀ n, s.vol.addr (i, n) ≠ 0 → s'.vol.addr (i, n) ≠ 0
  byte : ∀ p, s.vol.addr (i, blockSlot (p / BSIZE)) ≠ 0 → p < lo ∨ hi ≤ p →
    s'.vol.byte i p = s.vol.byte i p

namespace Written

variable {lo hi lo' hi' : ℕ} {s₁ s2 : FsState P}

section

variable (h : Written i lo hi s s₁)

include h

theorem trans (h' : Written i lo hi s₁ s2) : Written i lo hi s s2 where
  kept := h.kept.trans h'.kept
  owned := h'.owned
  type := h'.type.trans h.type
  nlink := h'.nlink.trans h.nlink
  size := h'.size.trans h.size
  node j hj := (h'.node j hj).trans (h.node j hj)
  addr n hn := h'.addr n (h.addr n hn)
  byte p hp hr := (h'.byte p (h.addr _ hp) hr).trans (h.byte p hp hr)

theorem mono (hlo : lo' ≤ lo) (hhi : hi ≤ hi') : Written i lo' hi' s s₁ :=
  { h with byte := fun p hp hr => h.byte p hp (by omega) }

theorem live (hi : s.vol.Live i) : s₁.vol.Live i := by
  refine ⟨?_, ?_⟩
  · show i < s₁.sb.ninodes
    rw [h.kept.sb]
    exact hi.1
  · show (s₁.eff i).type ≠ 0
    rw [h.type]
    exact hi.2

theorem setLogged (l : List ℕ) : Written i lo hi s (s₁.setLogged l) :=
  ⟨h.kept.setLogged l, h.owned, h.type, h.nlink, h.size, h.node, h.addr, h.byte⟩

end

theorem attached {a : ℕ} (ho : s.vol.Owned) (h : Attached i n s a s₁) : Written i lo lo s s₁ where
  kept := h.kept
  owned := ⟨h.mapped, h.grown.cover ho⟩
  type := h.grown.type
  nlink := h.grown.nlink
  size := h.grown.size
  node j _ := congrFun (h.grown.node ho) j
  addr n hn := by
    rw [h.grown.addr _ hn]
    exact hn
  byte _ hp _ := h.grown.byte hp

theorem store (ho : s.vol.Owned) {off : ℕ} (l : List UInt8)
    (ha : s.vol.addr (i, blockSlot (off / BSIZE)) ≠ 0) :
    Written i off (off + l.length) s (s.setBlock (s.vol.addr (i, blockSlot (off / BSIZE)))
      ((s.block (s.vol.addr (i, blockSlot (off / BSIZE)))).store (off % BSIZE) l)) where
  kept := .blocks
  owned := ho.setBlock (blockSlot_ne _) ha _
  type := rfl
  nlink := rfl
  size := rfl
  node j hj := Volume.node_setBlock_of_ne ho.toMapped (blockSlot_ne _) ha _ hj
  addr n hn := by
    have := Volume.addr_setBlock ho.toMapped (blockSlot_ne _) ha
      ((s.block (s.vol.addr (i, blockSlot (off / BSIZE)))).store (off % BSIZE) l)
    exact fun hz => hn ((congrFun this (i, n)).symm.trans hz)
  byte p _ hr := by
    refine (Volume.byte_setBlock ho.toMapped (blockSlot_ne _) ha _ i p).trans ?_
    split_ifs with he
    · -- the same block, outside the part that is written
      have hbn : p / BSIZE = off / BSIZE := blockSlot_inj (congrArg Prod.snd he)
      have hout : ¬ (off % BSIZE ≤ p % BSIZE ∧ p % BSIZE < off % BSIZE + l.length) := by
        have h1 := div_add_mod p BSIZE
        have h2 := div_add_mod off BSIZE
        rw [hbn] at h1
        omega
      rw [Block.store, if_neg hout, Volume.byte, hbn]
      rfl
    · rfl

end Written

theorem byte_store (ho : s.vol.Owned) {off p : ℕ} (l : List UInt8)
    (hl : off % BSIZE + l.length ≤ BSIZE) (ha : s.vol.addr (i, blockSlot (off / BSIZE)) ≠ 0)
    (hp : off ≤ p) (hp' : p < off + l.length) :
    (s.setBlock (s.vol.addr (i, blockSlot (off / BSIZE)))
      ((s.block (s.vol.addr (i, blockSlot (off / BSIZE)))).store (off % BSIZE) l)).vol.byte i p =
      l.getD (p - off) 0 := by
  have h2 := Nat.div_add_mod off BSIZE
  have hbn : p / BSIZE = off / BSIZE := by
    simp only [BSIZE] at *
    omega
  have hmod : p % BSIZE = off % BSIZE + (p - off) := by
    simp only [BSIZE] at *
    omega
  refine (byte_setBlock ho.toMapped (blockSlot_ne _) ha _ i p).trans ?_
  rw [if_pos (by rw [hbn]), Block.store, if_pos (by omega), hmod, Nat.add_sub_cancel_left]

/-! ## What is logged -/

/-- **Every block that differs has been passed to `log_write`.** -/
structure Accounted (s t : FsState P) : Prop where
  sb : t.sb = s.sb
  logged : s.logged ⊆ t.logged
  block : ∀ b, t.block b ≠ s.block b → b ∈ t.logged
  bit : ∀ b, t.bit b ≠ s.bit b → t.sb.BBLOCK b ∈ t.logged
  dinode : ∀ j, t.dinode j ≠ s.dinode j → t.sb.IBLOCK j ∈ t.logged

namespace Accounted

theorem refl (s : FsState P) : Accounted s s :=
  ⟨rfl, List.Subset.refl _, fun _ h => absurd rfl h, fun _ h => absurd rfl h, fun _ h => absurd rfl h⟩

theorem trans (h : Accounted s t) (h' : Accounted t u) : Accounted s u where
  sb := h'.sb.trans h.sb
  logged := List.Subset.trans h.logged h'.logged
  block b hb := by
    by_cases hbt : t.block b = s.block b
    · exact h'.block b (hbt ▸ hb)
    · exact h'.logged (h.block b hbt)
  bit b hb := by
    by_cases hbt : t.bit b = s.bit b
    · exact h'.bit b (hbt ▸ hb)
    · rw [h'.sb]
      exact h'.logged (h.bit b hbt)
  dinode j hj := by
    by_cases hjt : t.dinode j = s.dinode j
    · exact h'.dinode j (hjt ▸ hj)
    · rw [h'.sb]
      exact h'.logged (h.dinode j hjt)

theorem write (h : Accounted s t) (b : ℕ) (x : Block) :
    Accounted s ((t.setBlock b x).setLogged (b :: t.logged)) where
  sb := h.sb
  logged c hc := mem_cons_of_mem _ (h.logged hc)
  block c hc := by
    by_cases hcb : c = b
    · exact hcb ▸ mem_cons_self
    · refine mem_cons_of_mem _ (h.block c ?_)
      rwa [show ((t.setBlock b x).setLogged (b :: t.logged)).block c = t.block c from
        update_of_ne hcb ..] at hc
  bit c hc := mem_cons_of_mem _ (h.bit c hc)
  dinode j hj := mem_cons_of_mem _ (h.dinode j hj)

end Accounted

/-! ## Blocks that a write takes -/

/-- **From `s` to `t`, inode `i` has been given its blocks with an index from `lo` to `hi`**, and
these blocks may have been written. -/
structure Took (i lo hi : ℕ) (s t : FsState P) : Prop where
  accounted : Accounted s t
  addr : ∀ x, s.vol.addr x ≠ 0 → t.vol.addr x = s.vol.addr x
  /-- new blocks have been logged -/
  fresh : ∀ n, s.vol.addr (i, n) = 0 → t.vol.addr (i, n) ≠ 0 → t.vol.addr (i, n) ∈ t.logged
  bit : ∀ b, s.bit b = true → t.bit b = true
  log : ∀ b ∈ t.logged, b ∈ s.logged ∨ s.bit b = false ∨ (∃ c < s.sb.size, b = s.sb.BBLOCK c) ∨
    b = s.vol.addr (i, NDIRECT) ∨ ∃ bn, lo ≤ bn ∧ bn < hi ∧ b = s.vol.addr (i, blockSlot bn)
  /-- unless the indirect block was new, free blocks went to the blocks of the file only -/
  spent : hi < NDIRECT ∨ s.vol.addr (i, NDIRECT) ≠ 0 →
    s.vol.free = t.vol.free + s.vol.lacking i lo hi ∧
      ∀ bn, hi ≤ bn → t.vol.addr (i, blockSlot bn) = s.vol.addr (i, blockSlot bn)

namespace Took

theorem refl (i lo : ℕ) (s : FsState P) : Took i lo lo s s where
  accounted := .refl s
  addr _ _ := rfl
  fresh _ h h' := absurd h h'
  bit _ h := h
  log _ hb := .inl hb
  spent _ := ⟨by rw [lacking_self, add_zero], fun _ _ => rfl⟩

/-- A block that `s` had not given to the inode was free. -/
theorem bit_eq_false (h : Took i lo hi s t) (hs : s.vol.Mapped) (ht : t.vol.Mapped)
    (hz : s.vol.addr (i, n) = 0) (hne : t.vol.addr (i, n) ≠ 0) :
    s.bit (t.vol.addr (i, n)) = false := by
  by_contra hbit
  have hdata : s.vol.sb.InData (t.vol.addr (i, n)) := by
    have := ht.inData hne
    rwa [show t.vol.sb = s.vol.sb from h.accounted.sb] at this
  obtain ⟨x, hx⟩ := (hs.map.used_iff _ hdata).1 (Bool.eq_true_of_not_eq_false hbit)
  have hxne : s.vol.addr x ≠ 0 := hx ▸ hne
  have hinj := ht.map.inj x (i, n) (by rw [h.addr x hxne]; exact hxne) ((h.addr x hxne).trans hx)
  rw [hinj, hz] at hxne
  exact hxne rfl

theorem trans (hs : s.vol.Mapped) (ht : t.vol.Mapped) (hlo : lo ≤ mid) (hhi : mid ≤ hi)
    (h : Took i lo mid s t) (h' : Took i mid hi t u) : Took i lo hi s u where
  accounted := h.accounted.trans h'.accounted
  addr x hx := by
    have ht := h.addr x hx
    rw [h'.addr x (ht ▸ hx), ht]
  fresh n hz hne := by
    by_cases hzt : t.vol.addr (i, n) = 0
    · exact h'.fresh n hzt hne
    · rw [h'.addr _ hzt]
      exact h'.accounted.logged (h.fresh n hz hzt)
  bit b hb := h'.bit b (h.bit b hb)
  log b hb := by
    -- a block that was logged later is as new in `s`, or was there already
    have hold : ∀ n, b = t.vol.addr (i, n) → b = s.vol.addr (i, n) ∨ s.bit b = false := by
      rintro n rfl
      by_cases hz : s.vol.addr (i, n) = 0
      · by_cases hzt : t.vol.addr (i, n) = 0
        · exact .inl (hzt.trans hz.symm)
        · exact .inr (h.bit_eq_false hs ht hz hzt)
      · exact .inl (h.addr _ hz)
    rcases h'.log b hb with hb | hb | ⟨c, hc, hb⟩ | hb | ⟨bn, hbn, hbn', hb⟩
    · rcases h.log b hb with hb | hb | hb | hb | ⟨bn, hbn, hbn', hb⟩
      · exact .inl hb
      · exact .inr (.inl hb)
      · exact .inr (.inr (.inl hb))
      · exact .inr (.inr (.inr (.inl hb)))
      · exact .inr (.inr (.inr (.inr ⟨bn, hbn, by omega, hb⟩)))
    · refine .inr (.inl ?_)
      by_contra hbit
      rw [h.bit b (Bool.eq_true_of_not_eq_false hbit)] at hb
      contradiction
    · rw [h.accounted.sb] at hc hb
      exact .inr (.inr (.inl ⟨c, hc, hb⟩))
    · rcases hold NDIRECT hb with hb | hb
      · exact .inr (.inr (.inr (.inl hb)))
      · exact .inr (.inl hb)
    · rcases hold (blockSlot bn) hb with hb | hb
      · exact .inr (.inr (.inr (.inr ⟨bn, by omega, hbn', hb⟩)))
      · exact .inr (.inl hb)
  spent hc := by
    obtain ⟨hfree, haddr⟩ := h.spent (hc.imp (fun h => by omega) id)
    obtain ⟨hfree', haddr'⟩ := h'.spent (hc.imp id fun hne => by rw [h.addr _ hne]; exact hne)
    refine ⟨?_, fun bn hbn => (haddr' bn hbn).trans (haddr bn (by omega))⟩
    rw [hfree, hfree', lacking_congr haddr, ← lacking_add _ _ hlo hhi]
    omega

end Took

theorem NewBlock.took (h : NewBlock i n b s t)
    (hspent : hi < NDIRECT ∨ s.vol.addr (i, NDIRECT) ≠ 0 →
      s.vol.lacking i lo hi = 1 ∧ ∀ bn, hi ≤ bn → blockSlot bn ≠ n) : Took i lo hi s t := by
  obtain ⟨L, hlog, hbL, hBL, hL, hblock⟩ := h.log
  have hother : ∀ x, x ≠ (i, n) → t.vol.addr x = s.vol.addr x := fun x hx => by
    rw [h.addr, update_of_ne hx]
  refine ⟨⟨h.kept.sb, ?_, fun c hc => ?_, fun c hc => ?_, fun j hj => ?_⟩, fun x hx => ?_,
    fun m hz hne => ?_, fun c hc => ?_, fun c hc => ?_, fun hc => ?_⟩
  · rw [hlog]
    exact subset_append_right _ _
  · rw [hlog]
    exact mem_append_left _ (hblock c hc)
  · rw [hlog, h.kept.sb]
    have hcb : c = b := by
      by_contra hcb
      rw [h.bit, update_of_ne hcb] at hc
      exact hc rfl
    exact hcb ▸ mem_append_left _ hBL
  · rw [h.dinode] at hj
    exact absurd rfl hj
  · refine hother x fun hxe => ?_
    rw [hxe] at hx
    exact hx h.zero
  · have hm : (i, m) = (i, n) := by
      by_contra hm
      rw [hother _ hm] at hne
      exact hne hz
    rw [hm, h.addr, update_self, hlog]
    exact mem_append_left _ hbL
  · rw [h.bit]
    by_cases hcb : c = b
    · rw [hcb, update_self]
    · rw [update_of_ne hcb]
      exact hc
  · rw [hlog] at hc
    rcases mem_append.1 hc with hc | hc
    · rcases hL c hc with rfl | rfl | rfl
      · exact .inr (.inl h.free)
      · exact .inr (.inr (.inl ⟨b, h.data.2, rfl⟩))
      · exact .inr (.inr (.inr (.inl rfl)))
    · exact .inl hc
  · obtain ⟨hmiss, hslot⟩ := hspent hc
    refine ⟨?_, fun bn hbn => hother _ fun he => hslot bn hbn (congrArg Prod.snd he)⟩
    rw [hmiss]
    exact free_update h.kept.sb h.bit h.data.2 h.free

theorem Took.there (ha : s.vol.addr (i, blockSlot bn) ≠ 0) : Took i bn (bn + 1) s s :=
  { Took.refl i bn s with
    log := fun _ hb => .inl hb
    spent := fun _ => ⟨by rw [lacking_succ, if_neg ha, add_zero], fun _ _ => rfl⟩ }

/-- The slot of the block with index `bn`. -/
theorem Attach.took (hs : s.vol.Mapped) (h : Attach i (blockSlot bn) s a t) :
    (a = 0 ∧ t = s ∧ NoFree s) ∨ (a ≠ 0 ∧ Took i bn (bn + 1) s t) := by
  cases h with
  | full _ hf => exact .inl ⟨rfl, rfl, hf⟩
  | there hne => exact .inr ⟨hne, .there hne⟩
  | new h =>
    refine .inr ⟨h.ne_zero hs, h.took fun _ => ⟨?_, fun bn' hbn' he => ?_⟩⟩
    · rw [lacking_succ, if_pos h.zero]
    · have := blockSlot_inj he
      omega

/-- **The block with index `bn`**: 0 is returned only when there is no free block. -/
theorem BMap.took (hs : s.vol.Mapped) (h : BMap i bn s a t) :
    (a = 0 ∧ Took i bn bn s t ∧ NoFree t) ∨ (a ≠ 0 ∧ Took i bn (bn + 1) s t) := by
  cases h with
  | direct _ h =>
    refine (h.took hs).imp ?_ id
    rintro ⟨ha, rfl, hf⟩
    exact ⟨ha, .refl i bn t, hf⟩
  | full _ _ hf => exact .inl ⟨rfl, .refl i bn s, hf⟩
  | @entry _ _ s₁ _ hd h1 hne h =>
    have hm1 := (h1.attached hs).mapped
    have htook1 : Took i bn bn s s₁ := by
      cases h1 with
      | full _ _ => exact absurd rfl hne
      | there _ => exact .refl i bn s
      | new h1 => exact h1.took fun hc => (hc.elim hd fun hne => hne h1.zero).elim
    rcases h.took hm1 with ⟨ha, rfl, hf⟩ | ⟨ha, htook⟩
    · exact .inl ⟨ha, htook1, hf⟩
    · exact .inr ⟨ha, htook1.trans hs hm1 le_rfl (le_succ bn) htook⟩

theorem Took.write (h : Took i bn (bn + 1) s t) (hs : s.vol.Mapped) (ht : t.vol.Mapped)
    (ha : t.vol.addr (i, blockSlot bn) ≠ 0) (x : Block) :
    Took i bn (bn + 1) s ((t.setBlock (t.vol.addr (i, blockSlot bn)) x).setLogged
      (t.vol.addr (i, blockSlot bn) :: t.logged)) := by
  have hvol : ((t.setBlock (t.vol.addr (i, blockSlot bn)) x).setLogged
      (t.vol.addr (i, blockSlot bn) :: t.logged)).vol.addr = t.vol.addr :=
    addr_setBlock ht (blockSlot_ne bn) ha x
  refine ⟨h.accounted.write _ x, fun y hy => ?_, fun m hz hne => ?_, h.bit, fun b hb => ?_,
    fun hc => ?_⟩
  · rw [hvol, h.addr y hy]
  · rw [hvol] at hne ⊢
    exact mem_cons_of_mem _ (h.fresh m hz hne)
  · rcases mem_cons.1 hb with rfl | hb
    · by_cases hz : s.vol.addr (i, blockSlot bn) = 0
      · exact .inr (.inl (h.bit_eq_false hs ht hz ha))
      · exact .inr (.inr (.inr (.inr ⟨bn, le_rfl, lt_succ_self bn, h.addr _ hz⟩)))
    · exact h.log b hb
  · rw [hvol]
    exact h.spent hc

/-! ## The loop of `writei` -/

/-- The number of bytes of the next chunk, when `r.1` bytes have been written up to offset `r.2`. -/
def chunk (n : ℕ) (r : ℕ × ℕ) : ℕ := min (n - r.1) (BSIZE - r.2 % BSIZE)

/-- The block of inode `i` at offset `off`. -/
def blockAt (s : FsState P) (i off : ℕ) : ℕ := s.vol.addr (i, blockSlot (off / BSIZE))

/-- **How the loop ends**, from the state `s₁` in which all bytes that count have been written. -/
inductive Ending (i n : ℕ) (src : ℕ → Option UInt8) (r : ℕ × ℕ) (s₁ : FsState P) : FsState P → Prop
  /-- all bytes have been written -/
  | done (h : r.1 = n) : Ending i n src r s₁ s₁
  /-- there is no block -/
  | full (h : r.1 < n) (ha : blockAt s₁ i r.2 = 0) (hf : NoFree s₁) : Ending i n src r s₁ s₁
  /-- the source is not mapped, and what was mapped of the chunk is in the block -/
  | fault (h : r.1 < n) (ha : blockAt s₁ i r.2 ≠ 0)
      (hl : (copyin src r.1 (chunk n r)).length < chunk n r) :
      Ending i n src r s₁ (s₁.setBlock (blockAt s₁ i r.2)
        ((s₁.block (blockAt s₁ i r.2)).store (r.2 % BSIZE) (copyin src r.1 (chunk n r))))

/-- How the loop ends does not change inodes and addresses. -/
theorem Ending.vol {r : ℕ × ℕ} {s₁ : FsState P} (h : Ending i n src r s₁ t) (hm : s₁.vol.Mapped) :
    t.sb = s₁.sb ∧ t.itable = s₁.itable ∧ t.eff = s₁.eff ∧ t.vol.addr = s₁.vol.addr ∧
      t.bit = s₁.bit ∧ t.logged = s₁.logged := by
  cases h with
  | done _ | full _ _ _ => exact ⟨rfl, rfl, rfl, rfl, rfl, rfl⟩
  | fault _ ha _ =>
    exact ⟨rfl, rfl, rfl, addr_setBlock hm (blockSlot_ne _) ha _, rfl, rfl⟩

/-- **What the loop has written** when it has come to `r.1` bytes. -/
structure Loop (i n : ℕ) (src : ℕ → Option UInt8) (off tot : ℕ) (s : FsState P) (r : ℕ × ℕ)
    (s₁ : FsState P) : Prop where
  le : tot ≤ r.1
  le_n : r.1 ≤ n
  off_eq : r.2 = off + (r.1 - tot)
  written : Written i off r.2 s s₁
  addr : ∀ p, off ≤ p → p < r.2 → blockAt s₁ i p ≠ 0
  data : ∀ p, off ≤ p → p < r.2 → src (tot + (p - off)) = some (s₁.vol.byte i p)
  stop : r.1 < n → r.1 = tot ∨ r.2 % BSIZE = 0
  took : ∃ hi, off / BSIZE ≤ hi ∧ Took i (off / BSIZE) hi s s₁
  reached : r.1 < n → blockAt s₁ i r.2 = 0 ∨ blockAt s i r.2 ≠ 0 →
    Took i (off / BSIZE) (r.2 / BSIZE) s s₁

namespace Loop

variable {s₁ s2 : FsState P} {m : ℕ} {r : ℕ × ℕ}

theorem stopped (htot : tot ≤ n) (hw : Written i off off s s₁)
    (htook : ∃ hi, off / BSIZE ≤ hi ∧ Took i (off / BSIZE) hi s s₁)
    (hreach : tot < n → blockAt s₁ i off = 0 ∨ blockAt s i off ≠ 0 →
      Took i (off / BSIZE) (off / BSIZE) s s₁) : Loop i n src off tot s (tot, off) s₁ where
  le := le_rfl
  le_n := htot
  off_eq := by simp
  written := hw
  addr p hp hp' := absurd hp' (not_lt.mpr hp)
  data p hp hp' := absurd hp' (not_lt.mpr hp)
  stop _ := .inl rfl
  took := htook
  reached := hreach

/-- `m` bytes are written, and the loop is at its end. -/
theorem last (hw : Written i off (off + m) s s₁)
    (haddr : ∀ p, off ≤ p → p < off + m → blockAt s₁ i p ≠ 0)
    (hdata : ∀ p, off ≤ p → p < off + m → src (tot + (p - off)) = some (s₁.vol.byte i p))
    (hm : tot + m = n) (htook : ∃ hi, off / BSIZE ≤ hi ∧ Took i (off / BSIZE) hi s s₁) :
    Loop i n src off tot s (tot + m, off + m) s₁ where
  le := le_add_right _ _
  le_n := hm.le
  off_eq := by
    show off + m = off + (tot + m - tot)
    omega
  written := hw
  addr := haddr
  data := hdata
  stop h := absurd h (by rw [hm]; exact lt_irrefl n)
  took := htook
  reached h := absurd h (by rw [hm]; exact lt_irrefl n)

/-- `m` bytes are written up to the end of a block, and the loop goes on. -/
theorem next (hs : s.vol.Mapped) (hw : Written i off (off + m) s s₁)
    (haddr : ∀ p, off ≤ p → p < off + m → blockAt s₁ i p ≠ 0)
    (hdata : ∀ p, off ≤ p → p < off + m → src (tot + (p - off)) = some (s₁.vol.byte i p))
    (hend : (off + m) % BSIZE = 0) (hbn : (off + m) / BSIZE = off / BSIZE + 1)
    (htook : Took i (off / BSIZE) (off / BSIZE + 1) s s₁)
    (h : Loop i n src (off + m) (tot + m) s₁ r s2) : Loop i n src off tot s r s2 where
  le := le_trans (Nat.le_add_right _ _) h.le
  le_n := h.le_n
  off_eq := by
    have h1 := h.off_eq
    have h2 := h.le
    omega
  written := by
    have := h.off_eq
    exact (hw.mono le_rfl (by omega)).trans (h.written.mono (by omega) le_rfl)
  addr p hp hp' := by
    by_cases hlt : p < off + m
    · exact h.written.addr _ (haddr p hp hlt)
    · exact h.addr p (Nat.le_of_not_lt hlt) hp'
  data p hp hp' := by
    by_cases hlt : p < off + m
    · rw [h.written.byte p (haddr p hp hlt) (.inl hlt)]
      exact hdata p hp hlt
    · have := h.data p (Nat.le_of_not_lt hlt) hp'
      rw [show tot + m + (p - (off + m)) = tot + (p - off) by omega] at this
      exact this
  stop hlt := by
    have hoff := h.off_eq
    rcases h.stop hlt with he | he
    · refine .inr ?_
      rw [show r.2 = off + m by omega]
      exact hend
    · exact .inr he
  took := by
    obtain ⟨hi, hle, hrest⟩ := h.took
    rw [hbn] at hle hrest
    exact ⟨hi, by omega, htook.trans hs hw.owned.toMapped (Nat.le_succ _) hle hrest⟩
  reached hlt hc := by
    have hoff := h.off_eq
    have hle : off / BSIZE + 1 ≤ r.2 / BSIZE := by
      rw [← hbn]
      exact Nat.div_le_div_right (by omega)
    have hrest := h.reached hlt (hc.imp id fun hne => by
      unfold blockAt at hne ⊢
      rw [htook.addr _ hne]
      exact hne)
    rw [hbn] at hrest
    exact htook.trans hs hw.owned.toMapped (Nat.le_succ _) hle hrest

end Loop

theorem writeLoop_done (fuel : ℕ) (h : ¬ tot < n) :
    (writeLoop i n src fuel off tot : FsM P (ℕ × ℕ)) = pure (tot, off) := by
  cases fuel with
  | zero => rfl
  | succ fuel => exact if_neg h

/-- **The loop of `writei`.** -/
theorem writeLoop_ends (src : ℕ → Option UInt8) (n fuel off tot : ℕ) (htot : tot ≤ n)
    (hfuel : n - tot ≤ fuel) (hmax : off + (n - tot) ≤ MAXFILE * BSIZE)
    (ho : s.vol.Owned) (hv : s.Valid i) (hl : s.vol.Live i) :
    Wp (writeLoop i n src fuel off tot) (fun r t => ∃ s₁, Loop i n src off tot s r s₁ ∧
      Ending i n src r s₁ t) err s := by
  have hsame : ∀ (s : FsState P) off, s.vol.Owned → Written i off off s s := fun s off ho =>
    .attached ho (.refl ho.toMapped i 0)
  have hdone : ∀ (s : FsState P) off tot, s.vol.Owned → tot ≤ n → ¬ tot < n →
      ∃ s₁, Loop i n src off tot s (tot, off) s₁ ∧ Ending i n src (tot, off) s₁ s := by
    intro s off tot ho htot hge
    refine ⟨s, .stopped htot (hsame s off ho) ⟨_, le_rfl, .refl i _ s⟩ fun hlt => absurd hlt hge, ?_⟩
    exact .done (by show tot = n; omega)
  induction fuel generalizing off tot s with
  | zero => exact Wp.pure (hdone s off tot ho htot (by omega))
  | succ fuel ih =>
    refine Wp.ite (fun hlt => ?_) fun hge => Wp.pure (hdone s off tot ho htot hge)
    have hbn : off / BSIZE < MAXFILE := Nat.div_lt_of_lt_mul (by rw [Nat.mul_comm]; omega)
    refine (bmap_cases ho.toMapped hv hl hbn).bind fun a s₁ hmap => ?_
    have h1 := hmap.attached ho.toMapped
    have ht1 := hmap.took ho.toMapped
    have hw1 : Written i off off s s₁ := .attached ho h1
    obtain rfl := h1.found
    refine Wp.ite (fun hz => Wp.pure ?_) fun hne => ?_
    · -- no block
      obtain ⟨-, htook, hfull⟩ := ht1.resolve_right fun h => h.1 hz
      exact ⟨s₁, .stopped htot hw1 ⟨_, le_rfl, htook⟩ fun _ _ => htook, .full hlt hz hfull⟩
    have htook : Took i (off / BSIZE) (off / BSIZE + 1) s s₁ := (ht1.resolve_left fun h => hne h.1).2
    have hpos := Nat.mod_lt off (show 0 < BSIZE by decide)
    have hle := copyin_length_le src tot (min (n - tot) (BSIZE - off % BSIZE))
    refine Wp.run_bind (modifyBlock_run (hw1.owned.inData hne) _)
      (Wp.ite (fun hshort => ?_) fun hfull => ?_)
    · refine Wp.pure ⟨s₁, .stopped htot hw1 ⟨_, Nat.le_succ _, htook⟩ fun _ hc => ?_,
        .fault hlt hne hshort⟩
      -- the block was there, so that `bmap` has done nothing
      obtain ⟨-, rfl⟩ := h1.same (hc.resolve_left hne)
      exact .refl i _ _
    · refine Wp.modify_bind ?_
      have hlen : (copyin src tot (min (n - tot) (BSIZE - off % BSIZE))).length =
          min (n - tot) (BSIZE - off % BSIZE) := by omega
      set m := min (n - tot) (BSIZE - off % BSIZE) with hm
      set l := copyin src tot m with hl'
      have hst := Written.store hw1.owned l hne
      have hbound : off % BSIZE + l.length ≤ BSIZE := by omega
      have hw2 := (hw1.mono le_rfl (show off ≤ off + l.length by omega)).trans
        (hst.setLogged (s₁.vol.addr (i, blockSlot (off / BSIZE)) :: s₁.logged))
      have htook2 := htook.write ho.toMapped hw1.owned.toMapped hne
        ((s₁.block (s₁.vol.addr (i, blockSlot (off / BSIZE)))).store (off % BSIZE) l)
      rw [hlen] at hw2
      have haddr2 : ∀ p, off ≤ p → p < off + m → blockAt ((s₁.setBlock
          (s₁.vol.addr (i, blockSlot (off / BSIZE)))
          ((s₁.block (s₁.vol.addr (i, blockSlot (off / BSIZE)))).store (off % BSIZE) l)).setLogged
          (s₁.vol.addr (i, blockSlot (off / BSIZE)) :: s₁.logged)) i p ≠ 0 := by
        intro p hp hp'
        have hbn' : p / BSIZE = off / BSIZE := by
          simp only [BSIZE] at *
          omega
        unfold blockAt
        rw [hbn']
        exact hst.addr _ hne
      have hdata2 : ∀ p, off ≤ p → p < off + m → src (tot + (p - off)) = some (((s₁.setBlock
          (s₁.vol.addr (i, blockSlot (off / BSIZE)))
          ((s₁.block (s₁.vol.addr (i, blockSlot (off / BSIZE)))).store (off % BSIZE) l)).setLogged
          (s₁.vol.addr (i, blockSlot (off / BSIZE)) :: s₁.logged)).vol.byte i p) := by
        intro p hp hp'
        refine Eq.trans (copyin_getD src tot m (p - off) (by rw [← hl']; omega)) (congrArg some ?_)
        exact (byte_store hw1.owned l hbound hne hp (by omega)).symm
      by_cases hgo : tot + m < n
      · have hend : (off + m) % BSIZE = 0 := by
          simp only [BSIZE] at *
          omega
        have hdiv : (off + m) / BSIZE = off / BSIZE + 1 := by
          simp only [BSIZE] at *
          omega
        refine (ih (off + m) (tot + m) (by omega) (by omega) (by omega) hw2.owned (hw2.kept.valid hv)
          (hw2.live hl)).mono fun r t ⟨s2, h2, he⟩ => ⟨s2, ?_, he⟩
        exact .next ho.toMapped hw2 haddr2 hdata2 hend hdiv htook2 h2
      · have hn : tot + m = n := by omega
        rw [writeLoop_done fuel hgo]
        exact Wp.pure ⟨_, .last hw2 haddr2 hdata2 hn ⟨_, Nat.le_succ _, htook2⟩, .done hn⟩

/-- What the loop of `writei` has done when it ends with `tot'` bytes written. -/
structure WriteLoop (i n : ℕ) (src : ℕ → Option UInt8) (off tot : ℕ) (s : FsState P) (r : ℕ × ℕ)
    (s' : FsState P) : Prop where
  le : tot ≤ r.1
  le_n : r.1 ≤ n
  off_eq : r.2 = off + (r.1 - tot)
  written : Written i off (off + (n - tot)) s s'
  addr : ∀ p, off ≤ p → p < r.2 → s'.vol.addr (i, blockSlot (p / BSIZE)) ≠ 0
  data : ∀ p, off ≤ p → p < r.2 → src (tot + (p - off)) = some (s'.vol.byte i p)
  /-- without a fault of the source, the loop stops at the end of a block -/
  total : (∀ k, src k ≠ none) → Written i off r.2 s s' ∧
    (r.1 < n → r.1 = tot ∨ r.2 % BSIZE = 0)
theorem WriteLoop.of_ending {s₁ : FsState P} {r : ℕ × ℕ} (h : Loop i n src off tot s r s₁)
    (he : Ending i n src r s₁ t) : WriteLoop i n src off tot s r t := by
  have hoff := h.off_eq
  have hle := h.le_n
  have htot := h.le
  have hout : Written i r.2 (off + (n - tot)) s₁ t ∧ ((∀ k, src k ≠ none) → t = s₁) := by
    have hsame : Written i r.2 r.2 s₁ s₁ :=
      .attached h.written.owned (.refl h.written.owned.toMapped i 0)
    cases he with
    | done _ | full _ _ _ => exact ⟨hsame.mono le_rfl (by omega), fun _ => rfl⟩
    | fault hlt ha hshort =>
      refine ⟨(Written.store h.written.owned _ ha).mono le_rfl ?_, fun hsrc => ?_⟩
      · unfold chunk at hshort ⊢
        omega
      · rw [copyin_length hsrc] at hshort
        exact absurd hshort (lt_irrefl _)
  refine ⟨htot, hle, hoff, ?_, fun p hp hp' => hout.1.addr _ (h.addr p hp hp'), fun p hp hp' => ?_,
    fun hsrc => ?_⟩
  · exact (h.written.mono le_rfl (by omega)).trans (hout.1.mono (by omega) le_rfl)
  · rw [hout.1.byte p (h.addr p hp hp') (.inl hp')]
    exact h.data p hp hp'
  · rw [hout.2 hsrc]
    exact ⟨h.written, h.stop⟩

/-- **What writing `len` bytes at `off` does to a file**, if `tot` bytes have been written. -/
structure WriteNode (off len : ℕ) (src : ℕ → Option UInt8) (tot : ℕ) (x y : Node) : Prop where
  type : y.type = x.type
  nlink : y.nlink = x.nlink
  size : y.size = max x.size (off + tot)
  data : ∀ k < tot, src k = some (y.byte (off + k))
  rest : ∀ p, p < off ∨ off + len ≤ p → y.byte p = x.byte p
  total : (∀ k, src k ≠ none) → ∀ p, p < off ∨ off + tot ≤ p → y.byte p = x.byte p

theorem WriteNode.eq_store {off : ℕ} {l : List UInt8} {x y : Node}
    (h : WriteNode off l.length (fun k => some (l.getD k 0)) l.length x y) : y = x.store off l := by
  refine Node.ext h.type h.nlink h.size (funext fun p => ?_)
  show y.byte p = if off ≤ p ∧ p < off + l.length then l.getD (p - off) 0 else x.byte p
  by_cases hp : off ≤ p ∧ p < off + l.length
  · rw [if_pos hp]
    have hk := h.data (p - off) (by omega)
    rw [Nat.add_sub_cancel' hp.1] at hk
    exact (Option.some.inj hk).symm
  · rw [if_neg hp]
    exact h.total (fun _ => Option.some_ne_none _) p (by omega)

theorem WriteNode.eq_self {off len : ℕ} {src : ℕ → Option UInt8} {x y : Node}
    (h : WriteNode off len src 0 x y) (hsrc : ∀ k, src k ≠ none) (hoff : off ≤ x.size) : y = x := by
  refine Node.ext h.type h.nlink ?_ (funext fun p => h.total hsrc p (by omega))
  rw [h.size]
  omega

theorem Changed.refl (ho : s.vol.Owned) (hsaved : s.dinode i = s.eff i) :
    Changed i (s.vol.node i) s s :=
  ⟨.refl i s, ho, (Function.update_eq_self ..).symm, hsaved⟩

/-- The bytes that a write leaves, after the size has been set. -/
theorem Written.rest {lo hi' z : ℕ} {s₁ : FsState P} (h : Written i lo hi' s s₁) (ho : s.vol.Owned)
    (hi : s.vol.Live i) {p : ℕ} (hz : p < z ↔ p < (s.eff i).size) (hp : p < lo ∨ hi' ≤ p) :
    (if p < z then s₁.vol.byte i p else 0) = (s.vol.node i).byte p := by
  have hold : (s.vol.node i).byte p = if p < (s.eff i).size then s.vol.byte i p else 0 := by
    rw [Volume.node, if_pos hi]
    rfl
  rw [hold]
  by_cases hps : p < (s.eff i).size
  · rw [if_pos (hz.mpr hps), if_pos hps]
    exact h.byte p (ho.addr_ne_zero hi hps) hp
  · rw [if_neg fun h => hps (hz.mp h), if_neg hps]

theorem Changed.of_written {lo hi' : ℕ} {y : Node} {s₁ s2 : FsState P} (hw : Written i lo hi' s s₁)
    (h : Changed i y s₁ s2) : Changed i y s s2 where
  kept := hw.kept.trans h.kept
  owned := h.owned
  node := by
    rw [h.node]
    funext j
    by_cases hj : j = i
    · rw [hj, update_self, update_self]
    · rw [update_of_ne hj, update_of_ne hj, hw.node j hj]
  saved := h.saved

theorem WriteLoop.changed {src : ℕ → Option UInt8} {off len : ℕ} {r : ℕ × ℕ} {s₁ s2 : FsState P}
    (ho : s.vol.Owned) (hi : s.vol.Live i) (hoff : off ≤ (s.eff i).size)
    (h : WriteLoop i len src off 0 s r s₁)
    (hu : Updated i { s₁.eff i with
      size := if r.2 > (s₁.eff i).size then r.2 else (s₁.eff i).size } s₁ s2) :
    ∃ y, WriteNode off len src r.1 (s.vol.node i) y ∧ Changed i y s s2 := by
  have hw := h.written
  have hi1 := hw.live hi
  have hr : r.2 = off + r.1 := h.off_eq
  have hsz : (if r.2 > (s₁.eff i).size then r.2 else (s₁.eff i).size) =
      max (s.eff i).size (off + r.1) := by
    rw [hw.size, ← hr]
    split_ifs <;> omega
  rw [hsz] at hu
  have hown : (s₁.vol.setInode i { s₁.eff i with size := max (s.eff i).size (off + r.1) }).Owned := by
    refine hw.owned.setSize hi1 fun bn hbn => ?_
    by_cases hlt : bn * BSIZE < (s.eff i).size
    · refine hw.owned.cover i hi1 bn ?_
      show bn * BSIZE < (s₁.eff i).size
      rw [hw.size]
      exact hlt
    · have hp := h.addr (bn * BSIZE) (by omega) (by omega)
      rwa [Nat.mul_div_cancel bn (by decide : 0 < BSIZE)] at hp
  have hch := hu.changed hown
  rw [show s₁.eff i = s₁.vol.inode i from rfl, node_setSize hi1] at hch
  refine ⟨_, ?_, hch.of_written hw⟩
  constructor
  · exact hw.type.trans (node_type hi).symm
  · exact hw.nlink.trans (node_nlink hi).symm
  · rw [node_size hi]
    rfl
  · intro k hk
    have hk' := h.data (off + k) (by omega) (by omega)
    rw [Nat.zero_add, Nat.add_sub_cancel_left] at hk'
    exact hk'.trans (congrArg some (if_pos (by omega)).symm)
  · intro p hp
    have := h.le_n
    exact hw.rest ho hi (by omega) (by rw [Nat.sub_zero]; exact hp)
  · intro hsrc p hp
    exact (h.total hsrc).1.rest ho hi (by omega) (by rw [hr]; exact hp)

theorem writei_spec (ho : s.vol.Owned) (hv : s.Valid i) (hi : s.vol.Live i)
    (src : ℕ → Option UInt8) {off len : ℕ} (hlen : len < 2 ^ 32) :
    Wp (writei i src off len) (fun r s' => (r = -1 ∧ s' = s) ∨ ∃ tot : ℕ, r = tot ∧ tot ≤ len ∧
      off ≤ (s.eff i).size ∧ ((∀ k, src k ≠ none) → tot < len → tot = 0 ∨ (off + tot) % BSIZE = 0) ∧
      ∃ y, WriteNode off len src tot (s.vol.node i) y ∧ Changed i y s s') err s := by
  have hsize := size_le ho hi
  refine Wp.run_bind (inode_run hv) (Wp.ite (fun _ => Wp.pure (.inl ⟨rfl, rfl⟩)) fun hgood => ?_)
  refine Wp.ite (fun _ => Wp.pure (.inl ⟨rfl, rfl⟩)) fun hmax => ?_
  have hadd : addUint off len = off + len := by
    have : MAXFILE * BSIZE < 2 ^ 32 := by decide
    unfold addUint at hgood ⊢
    omega
  rw [hadd] at hgood hmax
  refine (writeLoop_ends src len len off 0 (zero_le _) le_rfl (by omega) ho hv hi).bind
    fun r s₁ ⟨_, hloop, hend⟩ => ?_
  have h := WriteLoop.of_ending hloop hend
  obtain ⟨tot, off'⟩ := r
  have hi1 := h.written.live hi
  refine (updateInode_spec (h.written.kept.valid hv) hi1.1 _).bind fun _ s2 h2 => Wp.pure (.inr ?_)
  refine ⟨tot, rfl, h.le_n, by omega, fun hsrc hlt => ?_, h.changed ho hi (by omega) h2⟩
  have hr : off' = off + tot := h.off_eq
  rw [← hr]
  exact (h.total hsrc).2 hlt

/-! ## `writei` -/

/-- The requests that `writei` refuses. -/
def Refused (s : FsState P) (i off n : ℕ) : Prop :=
  (s.eff i).size < off ∨ 2 ^ 32 ≤ off + n ∨ MAXFILE * BSIZE < off + n

theorem updateInode_accounted (hv : s.Valid i) (f : Dinode → Dinode) :
    Wp (updateInode i f) (fun _ t => Accounted s t ∧ t.bit = s.bit ∧ t.block = s.block ∧
      t.logged = s.sb.IBLOCK i :: s.logged) (fun _ => True) s := by
  obtain ⟨e, he, hvalid⟩ := hv
  refine updateInode_wp he f (fun _ => ⟨⟨rfl, fun c hc => mem_cons_of_mem _ hc, fun b hb => absurd rfl hb,
    fun b hb => absurd rfl hb, fun j hj => ?_⟩, rfl, rfl, rfl⟩) fun _ => trivial
  have hji : j = i := by
    by_contra hji
    exact hj (update_of_ne hji ..)
  exact hji ▸ mem_cons_self

/-- **What `writei` does**: it refuses the request, or executes the loop and writes the inode back. -/
theorem writei_ends (ho : s.vol.Owned) (hv : s.Valid i) (hl : s.vol.Live i) (src : ℕ → Option UInt8)
    (hoff : off < 2 ^ 32) (hn : n < 2 ^ 32) :
    Wp (writei i src off n) (fun r t => (Refused s i off n ∧ r = -1 ∧ t = s) ∨
      (¬ Refused s i off n ∧ ∃ (tot : ℕ) (s₁ t0 : FsState P), r = tot ∧
        Loop i n src off 0 s (tot, off + tot) s₁ ∧ Ending i n src (tot, off + tot) s₁ t0 ∧
        Accounted t0 t ∧ t.bit = t0.bit ∧ t.block = t0.block ∧ t.vol.addr = t0.vol.addr ∧
        t.logged = s.sb.IBLOCK i :: t0.logged)) (fun _ => True) s := by
  have hmax32 : MAXFILE * BSIZE < 2 ^ 32 := by decide
  refine Wp.run_bind (inode_run hv) (Wp.ite (fun hbad => Wp.pure (.inl ⟨?_, rfl, rfl⟩)) fun hgood => ?_)
  · unfold addUint at hbad
    unfold Refused
    omega
  have hadd : addUint off n = off + n := by
    unfold addUint at hgood ⊢
    omega
  rw [hadd] at hgood ⊢
  refine Wp.ite (fun hbig => Wp.pure (.inl ⟨.inr (.inr hbig), rfl, rfl⟩)) fun hmax => ?_
  refine (writeLoop_ends src n n off 0 (zero_le _) le_rfl (by omega) ho hv hl).bind
    fun r t0 ⟨s₁, h, he⟩ => ?_
  obtain ⟨tot, off'⟩ := r
  have hr : off' = off + tot := h.off_eq
  subst hr
  have hl1 := h.written.live hl
  obtain ⟨hsb0, htable, heff0, -, -, -⟩ := he.vol h.written.owned.toMapped
  have hv0 : t0.Valid i := by
    unfold FsState.Valid
    rw [htable]
    exact h.written.kept.valid hv
  have hl0 : t0.vol.Live i := by
    refine ⟨?_, ?_⟩
    · show i < t0.sb.ninodes
      rw [hsb0]
      exact hl1.1
    · show (t0.eff i).type ≠ 0
      rw [heff0]
      exact hl1.2
  refine ((updateInode_spec hv0 hl0.1 _).and (updateInode_accounted hv0 _)).bind
    fun _ t ⟨hu, hacc, hbit, hblock, hlog⟩ => Wp.pure (.inr ⟨?_, ?_⟩)
  · unfold Refused
    omega
  · refine ⟨tot, s₁, t0, rfl, h, he, hacc, hbit, hblock, ?_, by rw [hlog, hsb0, h.written.kept.sb]⟩
    rw [hu.vol]
    exact addr_setInode (addr_setInode_fields hl0 rfl hl0.2)

end Fs

end Xv6
