import Xv6.Fs.Log
import Xv6.Fs.Runs

/-!
# The blocks that a write logs

`filewrite` cuts a write into chunks, each of which is a transaction of its own and must not log
more than `MAXOPBLOCKS` blocks.

**Counting.** A chunk logs the inode's block, and if there is an indirect block perhaps that block
and the block of the free map that has its bit (`OfIndirect`). Beyond these, each block of the file
that it touches costs two at most: the block, and the block of the free map when it is new
(`writeLoop_logs`). A chunk of three blocks' length touches four blocks if it does not begin at a
block's start, but then the first of them is there, and costs one.

Nothing is assumed here about the free map or the other inodes; what is proved is about the calls
that return.
-/

open Function List Nat

namespace Xv6

open FsState Volume

namespace Fs

variable {P : Type} {s t u : FsState P} {i a b c k n off tot bn fuel : ℕ} {L L' : List ℕ}
  {src : ℕ → Option UInt8}

/-- The indirect block of inode `i`, or the block of the free map with its bit. -/
def OfIndirect (s : FsState P) (i b : ℕ) : Prop :=
  (s.eff i).addr NDIRECT ≠ 0 ∧
    (b = (s.eff i).addr NDIRECT ∨ b = s.sb.BBLOCK ((s.eff i).addr NDIRECT))

/-- From `s` to `t`, no blocks have been logged but those of `L` and those of the indirect block. -/
structure Logs (i : ℕ) (L : List ℕ) (s t : FsState P) : Prop where
  sb : t.sb = s.sb
  valid : t.Valid i
  indirect : (s.eff i).addr NDIRECT ≠ 0 → (t.eff i).addr NDIRECT = (s.eff i).addr NDIRECT
  logged : ∀ b ∈ t.logged, b ∈ s.logged ∨ b ∈ L ∨ OfIndirect t i b

namespace Logs

theorem refl (hv : s.Valid i) (L : List ℕ) : Logs i L s s :=
  ⟨rfl, hv, fun _ => rfl, fun _ hb => .inl hb⟩

section

variable (h : Logs i L s t)

include h

theorem ofIndirect (hb : OfIndirect s i b) : OfIndirect t i b := by
  unfold OfIndirect at *
  rw [h.indirect hb.1, h.sb]
  exact hb

theorem trans (h' : Logs i L' t u) : Logs i (L ++ L') s u where
  sb := h'.sb.trans h.sb
  valid := h'.valid
  indirect hs := by
    have ht := h.indirect hs
    rw [← ht] at hs ⊢
    exact h'.indirect hs
  logged b hb := by
    rcases h'.logged b hb with hb | hb | hb
    · rcases h.logged b hb with hb | hb | hb
      · exact .inl hb
      · exact .inr (.inl (mem_append_left _ hb))
      · exact .inr (.inr (h'.ofIndirect hb))
    · exact .inr (.inl (mem_append_right _ hb))
    · exact .inr (.inr hb)

theorem mono (hL : L ⊆ L') : Logs i L' s t :=
  { h with logged := fun b hb => (h.logged b hb).imp id (Or.imp (fun hb => hL hb) id) }

theorem setBlock (b : ℕ) (x : Block) : Logs i L s (t.setBlock b x) :=
  ⟨h.sb, h.valid, h.indirect, h.logged⟩

theorem log (hb : b ∈ L ∨ OfIndirect t i b) : Logs i L s (t.setLogged (b :: t.logged)) where
  sb := h.sb
  valid := h.valid
  indirect := h.indirect
  logged c hc := by
    rcases mem_cons.1 hc with rfl | hc
    · exact .inr hb
    · exact h.logged c hc

end

theorem alloc (hv : s.Valid i) (b : ℕ) :
    Logs i [b, s.sb.BBLOCK b] s (allocState s b (b :: s.sb.BBLOCK b :: s.logged)) where
  sb := rfl
  valid := hv
  indirect _ := rfl
  logged c hc := by
    rcases mem_cons.1 hc with rfl | hc
    · exact .inr (.inl mem_cons_self)
    · rcases mem_cons.1 hc with rfl | hc
      · exact .inr (.inl (mem_cons_of_mem _ mem_cons_self))
      · exact .inl hc

end Logs

theorem eff_setEntry {e : Entry} (hv : e.valid = true) (d : Dinode) :
    (s.setEntry i (some { e with din := d })).eff i = d :=
  eff_of_valid (e := { e with din := d }) (update_self ..) hv

/-! ## Allocation -/

theorem modifyBlock_returns (b : ℕ) (f : Block → Block) :
    Wp (modifyBlock b f) (fun _ t => s.sb.InData b ∧ t = s.setBlock b (f (s.block b)))
      (fun _ => True) s := by
  refine Wp.get_bind (Wp.ite (fun hb => ?_) fun _ => Wp.throw trivial)
  exact Wp.set ⟨hb, rfl⟩

theorem readBlock_returns (b : ℕ) :
    Wp (readBlock b) (fun x t => x = s.block b ∧ t = s) (fun _ => True) s := by
  refine Wp.get_bind (Wp.ite (fun _ => ?_) fun _ => Wp.throw trivial)
  exact Wp.pure ⟨rfl, rfl⟩

theorem balloc_returns : Wp balloc (fun b t => (b = 0 ∧ t = s) ∨
    (b ≠ 0 ∧ t = allocState s b (b :: s.sb.BBLOCK b :: s.logged))) (fun _ => True) s := by
  refine Wp.get_bind ?_
  cases (range s.sb.size).find? fun b => !s.bit b with
  | none => exact Wp.pure (.inl ⟨rfl, rfl⟩)
  | some b =>
    refine Wp.set_bind (Wp.modify_bind ?_)
    refine ((modifyBlock_returns b _).bind fun _ t ht => ?_).bind fun _ t ht => Wp.pure (.inr ht)
    obtain ⟨hb, rfl⟩ := ht
    refine Wp.modify ⟨fun h0 => ?_, rfl⟩
    rw [h0] at hb
    exact s.sb.not_inData_zero hb

theorem ballocAddr_logs (hv : s.Valid i) (hk : k ≤ NDIRECT) :
    Wp (ballocAddr i k) (fun a t => Logs i (if k = NDIRECT then [] else [a, s.sb.BBLOCK a]) s t ∧
      (a ≠ 0 → (t.eff i).addr k = a)) (fun _ => True) s := by
  refine Wp.run_bind (inode_run hv) (Wp.ite (fun hz => ?_) fun hne => ?_)
  · refine balloc_returns.bind fun b t ht => ?_
    rcases ht with ⟨rfl, rfl⟩ | ⟨hb, rfl⟩
    · exact Wp.ite (fun _ => Wp.pure ⟨.refl hv _, fun h => absurd rfl h⟩) fun h => absurd rfl h
    · obtain ⟨e, he, hvalid⟩ := hv
      rw [if_neg hb]
      have hlog := Logs.alloc (s := s) ⟨e, he, hvalid⟩ b
      refine Wp.run_bind (setInode_run (s := allocState s b _) he _) (Wp.pure ?_)
      have heff := eff_setEntry (s := allocState s b (b :: s.sb.BBLOCK b :: s.logged)) (i := i) hvalid
        (e.din.setAddr k b)
      have hsame : s.eff i = e.din := eff_of_valid he hvalid
      refine ⟨⟨rfl, ⟨_, update_self .., hvalid⟩, fun h => ?_, fun c hc => ?_⟩, fun _ => ?_⟩
      · rw [heff, addr_setAddr _ hk, if_neg, hsame]
        intro hkn
        rw [hkn] at h
        exact h hz
      · rcases hlog.logged c hc with hc | hc | hc
        · exact .inl hc
        · split_ifs with hkn
          · refine .inr (.inr ?_)
            unfold OfIndirect
            rw [heff, addr_setAddr _ hk, if_pos hkn.symm]
            have hcb : c = b ∨ c = s.sb.BBLOCK b := by simpa using hc
            exact ⟨hb, hcb⟩
          · exact .inr (.inl hc)
        · refine .inr (.inr ?_)
          have hind : (s.eff i).addr NDIRECT ≠ 0 := hc.1
          have hkn : NDIRECT ≠ k := fun hkn => by
            rw [hkn] at hind
            exact hind hz
          unfold OfIndirect at *
          rw [heff, addr_setAddr _ hk, if_neg hkn, ← hsame]
          exact hc
      · rw [heff, addr_setAddr _ hk, if_pos rfl]
  · exact Wp.pure ⟨.refl hv _, fun _ => rfl⟩

theorem bmap_logs (hv : s.Valid i) :
    Wp (bmap i bn) (fun a t => Logs i [a, s.sb.BBLOCK a] s t) (fun _ => True) s := by
  refine Wp.ite (fun hd => ?_) fun _ => Wp.ite (fun _ => ?_) fun _ => Wp.throw trivial
  · refine (ballocAddr_logs hv (le_of_lt hd)).mono fun a t ht => ?_
    have hne : bn ≠ NDIRECT := by omega
    rw [if_neg hne] at ht
    exact ht.1
  · refine (ballocAddr_logs hv le_rfl).bind fun a1 t1 ht1 => ?_
    obtain ⟨h1, hfound⟩ := ht1
    rw [if_pos rfl] at h1
    refine Wp.ite (fun _ => Wp.pure (h1.mono (nil_subset _))) fun hne => ?_
    refine (readBlock_returns a1).bind fun bp t ht => ?_
    obtain ⟨-, rfl⟩ := ht
    refine Wp.ite (fun _ => ?_) fun _ => Wp.pure (h1.mono (nil_subset _))
    refine balloc_returns.bind fun b t2 ht2 => ?_
    rcases ht2 with ⟨rfl, rfl⟩ | ⟨hb, rfl⟩
    · exact Wp.ite (fun _ => Wp.pure (h1.mono (nil_subset _))) fun h => absurd rfl h
    · rw [if_neg hb]
      have hlog : [] ++ [b, t.sb.BBLOCK b] ⊆ [b, s.sb.BBLOCK b] := by
        rw [h1.sb]
        exact List.Subset.refl _
      have h2 := (h1.trans (Logs.alloc h1.valid b)).mono hlog
      refine (modifyBlock_returns a1 _).bind fun _ t3 ht3 => ?_
      obtain ⟨-, rfl⟩ := ht3
      refine Wp.modify_bind (Wp.pure ((h2.setBlock a1 _).log (.inr ?_)))
      -- the entry of the indirect block
      exact ⟨(hfound hne).trans_ne hne, .inl (hfound hne).symm⟩

theorem bmap_there (hv : s.Valid i) (ha : s.vol.addr (i, blockSlot bn) ≠ 0) :
    Wp (bmap i bn) (fun _ t => t = s) (fun _ => True) s := by
  obtain ⟨hi, hlt⟩ := live_of_addr ha
  have hbn := blockSlot_lt.1 hlt
  refine Wp.ite (fun hd => ?_) fun hd => ?_
  · rw [blockSlot_direct hd, addr_direct hi (le_of_lt hd)] at ha
    refine Wp.run_bind (inode_run hv) (Wp.ite (fun hz => absurd hz ha) fun _ => Wp.pure rfl)
  · have hj : bn - NDIRECT < NINDIRECT := by
      simp only [MAXFILE, NDIRECT] at *
      omega
    rw [blockSlot_entry hd] at ha
    have hind : s.vol.addr (i, NDIRECT) ≠ 0 := fun hz => ha (addr_entry_zero hz)
    rw [addr_entry hi hind hj] at ha
    rw [addr_direct hi le_rfl] at ha hind
    have hind : (s.eff i).addr NDIRECT ≠ 0 := hind
    rw [if_pos hj]
    refine Wp.run_bind (a := (s.eff i).addr NDIRECT) (t := s) ?_ ?_
    · unfold ballocAddr
      rw [Wp.run_bind_eq (inode_run hv), if_neg hind]
      rfl
    · refine Wp.ite (fun hz => absurd hz hind) fun _ => ?_
      refine (readBlock_returns _).bind fun bp t ht => ?_
      obtain ⟨rfl, rfl⟩ := ht
      exact Wp.ite (fun hz => absurd hz ha) fun _ => Wp.pure rfl

/-! ## The loop -/

/-- One iteration, if `bmap` and the block cost `c`, and the rest of the loop costs two for each of `k`
blocks. -/
theorem writeLoop_step
    (hb : Wp (bmap i (off / BSIZE)) (fun a t => ∃ L, Logs i (a :: L) s t ∧ L.length + 1 ≤ c)
      (fun _ => True) s)
    (hlen : tot < n → off % BSIZE + (n - tot) ≤ (k + 1) * BSIZE)
    (hv : s.Valid i)
    (hrest : ∀ (t : FsState P) (off tot : ℕ), t.Valid i →
      (tot < n → off % BSIZE + (n - tot) ≤ k * BSIZE) →
      Wp (writeLoop i n src fuel off tot) (fun _ u => ∃ L, Logs i L t u ∧ L.length ≤ 2 * k)
        (fun _ => True) t) :
    Wp (writeLoop i n src (fuel + 1) off tot) (fun _ u => ∃ L, Logs i L s u ∧ L.length ≤ c + 2 * k)
      (fun _ => True) s := by
  refine Wp.ite (fun hlt => ?_) fun _ => Wp.pure ⟨[], .refl hv _, zero_le _⟩
  refine hb.bind fun a t ⟨L, h, hL⟩ => ?_
  refine Wp.ite (fun _ => Wp.pure ⟨a :: L, h, by rw [length_cons]; omega⟩) fun _ => ?_
  refine (modifyBlock_returns a _).bind fun _ t1 ht1 => ?_
  obtain ⟨-, rfl⟩ := ht1
  have h1 := h.setBlock a ((t.block a).store (off % BSIZE)
    (copyin src tot (min (n - tot) (BSIZE - off % BSIZE))))
  refine Wp.ite (fun _ => Wp.pure ⟨a :: L, h1, by rw [length_cons]; omega⟩) fun _ => ?_
  have h2 := h1.log (.inl mem_cons_self)
  refine Wp.modify_bind ?_
  refine (hrest _ _ _ h2.valid fun hlt' => ?_).mono fun _ u ⟨L', h', hL'⟩ => ?_
  · -- the loop goes on, so that this block has been written to its end
    have hlen := hlen hlt
    simp only [BSIZE] at *
    omega
  · refine ⟨a :: L ++ L', h2.trans h', ?_⟩
    rw [length_append, length_cons]
    omega

theorem writeLoop_logs (hv : s.Valid i) (hlen : tot < n → off % BSIZE + (n - tot) ≤ k * BSIZE) :
    Wp (writeLoop i n src fuel off tot) (fun _ t => ∃ L, Logs i L s t ∧ L.length ≤ 2 * k)
      (fun _ => True) s := by
  induction fuel generalizing s off tot k with
  | zero => exact Wp.pure ⟨[], .refl hv _, zero_le _⟩
  | succ fuel ih =>
    by_cases hlt : tot < n
    · have hk : 0 < k := by
        refine pos_of_ne_zero fun h0 => ?_
        have := hlen hlt
        rw [h0] at this
        omega
      obtain ⟨k, rfl⟩ := exists_eq_succ_of_ne_zero hk.ne'
      refine (writeLoop_step (c := 2) (k := k) ?_ hlen hv fun t off tot hv hlen => ih hv hlen).mono
        fun _ t ⟨L, h, hL⟩ => ⟨L, h, by omega⟩
      exact (bmap_logs hv).mono fun a t h => ⟨_, h, le_rfl⟩
    · exact Wp.ite (fun h => absurd h hlt) fun _ => Wp.pure ⟨[], .refl hv _, zero_le _⟩

/-- **The loop of `writei` over a chunk**: three blocks, or four of which the first is there. -/
theorem writeLoop_chunk (hv : s.Valid i) (hn : n ≤ 3 * BSIZE)
    (hthere : off % BSIZE ≠ 0 → s.vol.addr (i, blockSlot (off / BSIZE)) ≠ 0) :
    Wp (writeLoop i n src n off 0) (fun _ t => ∃ L, Logs i L s t ∧ L.length ≤ 7)
      (fun _ => True) s := by
  by_cases h0 : off % BSIZE = 0
  · refine (writeLoop_logs (k := 3) hv fun _ => ?_).mono fun _ t ⟨L, h, hL⟩ => ⟨L, h, by omega⟩
    omega
  · cases n with
    | zero => exact Wp.pure ⟨[], .refl hv _, zero_le _⟩
    | succ n =>
      refine writeLoop_step (c := 1) (k := 3) ?_ (fun _ => ?_) hv fun t off tot hv hlen =>
        writeLoop_logs hv hlen
      · refine (bmap_there hv (hthere h0)).mono fun a t ht => ⟨[], ?_, le_rfl⟩
        rw [ht]
        exact .refl hv _
      · have := mod_lt off (show 0 < BSIZE by decide)
        simp only [BSIZE] at *
        omega

theorem updateInode_logs (hv : s.Valid i) {f : Dinode → Dinode}
    (hf : ∀ d, (f d).addr NDIRECT = d.addr NDIRECT) :
    Wp (updateInode i f) (fun _ t => Logs i [s.sb.IBLOCK i] s t) (fun _ => True) s := by
  obtain ⟨e, he, hvalid⟩ := hv
  refine updateInode_wp he f (fun _ => ?_) fun _ => trivial
  have hsame : ∀ (t : FsState P), t.itable i = some { e with din := f e.din } →
      (t.eff i).addr NDIRECT = (s.eff i).addr NDIRECT := by
    intro t ht
    rw [eff_of_valid ht hvalid, eff_of_valid he hvalid]
    exact hf e.din
  refine ⟨rfl, ⟨_, update_self .., hvalid⟩, fun _ => hsame _ (update_self ..), fun b hb => ?_⟩
  rcases mem_cons.1 hb with rfl | hb
  · exact .inr (.inl mem_cons_self)
  · exact .inl hb

theorem writei_logs (hv : s.Valid i) (hn : n ≤ 3 * BSIZE) (hoff : off ≤ (s.eff i).size)
    (hcover : Covered s i 0 (s.eff i).size) :
    Wp (writei i src off n) (fun _ t => ∃ L, Logs i L s t ∧ L.length ≤ 8) (fun _ => True) s := by
  have hnone : ∃ L, Logs i L s s ∧ L.length ≤ 8 := ⟨[], .refl hv _, zero_le _⟩
  refine Wp.run_bind (inode_run hv) (Wp.ite (fun _ => Wp.pure hnone) fun _ => ?_)
  refine Wp.ite (fun _ => Wp.pure hnone) fun _ => ?_
  refine (writeLoop_chunk hv hn fun h0 => ?_).bind fun r t ⟨L, h, hL⟩ => ?_
  · -- the byte before the offset is one of the file, in the same block
    have hpos : off ≠ 0 := fun hz => h0 (by rw [hz]; rfl)
    have hp := hcover (off - 1) (zero_le _) (by omega)
    rwa [show (off - 1) / BSIZE = off / BSIZE by simp only [BSIZE] at *; omega] at hp
  · obtain ⟨tot, off'⟩ := r
    refine (updateInode_logs (f := fun d => { d with size := if off' > d.size then off' else d.size })
      h.valid fun _ => rfl).bind fun _ u h' => Wp.pure ?_
    refine ⟨L ++ [t.sb.IBLOCK i], h.trans h', ?_⟩
    rw [length_append, length_singleton]
    omega

theorem ilock_returns : Wp (ilock i) (fun _ t => t.Valid i ∧ t.vol = s.vol ∧ t.logged = s.logged)
    (fun _ => True) s := by
  refine Wp.bind (q := fun e t => t = s ∧ s.itable i = some e) ?_ fun e t ht => ?_
  · refine Wp.get_bind ?_
    cases he : s.itable i with
    | none => exact Wp.throw trivial
    | some e => exact Wp.pure ⟨rfl, rfl⟩
  · obtain ⟨rfl, he⟩ := ht
    refine Wp.ite (fun hv => Wp.pure ⟨⟨e, he, hv⟩, rfl, rfl⟩) fun hv => Wp.get_bind ?_
    refine Wp.ite (fun _ => Wp.ite (fun _ => Wp.throw trivial) fun _ => ?_) fun _ => Wp.throw trivial
    refine Wp.set ⟨⟨_, update_self .., rfl⟩, ?_, rfl⟩
    have heff : (t.setEntry i (some { e with valid := true, din := t.dinode i })).eff = t.eff := by
      funext j
      by_cases hj : j = i
      · subst hj
        rw [eff_of_valid (update_self ..) rfl]
        simp only [eff, he, hv, if_false, Bool.false_eq_true]
      · exact eff_congr (update_of_ne hj ..) rfl
    unfold vol
    rw [heff]
    rfl

/-- What `filewrite` does between `begin_op` and `end_op`, up to the file's offset. -/
def writeChunk (i : ℕ) (src : ℕ → Option UInt8) (off n1 : ℕ) : FsM P ℤ := do
  beginOp
  ilock i
  writei i src off n1

end Fs

open Fs

/-- **The chunks of `filewrite` fit a transaction**: on an inode without holes, from an offset that
is not beyond its size, at most `MAXOPBLOCKS` blocks are logged, whatever blocks are free and
however many blocks the free map has. -/
theorem filewrite_chunk_fits {P : Type} {s t : FsState P} {i off n1 : ℕ} {src : ℕ → Option UInt8}
    {r : ℤ}
    (hcover : Covered s i 0 (s.eff i).size) (hoff : off ≤ (s.eff i).size)
    (hn : n1 ≤ ((MAXOPBLOCKS - 1 - 1 - 2) / 2) * BSIZE)
    (hrun : (writeChunk i src off n1).run s = .ok (r, t)) :
    t.logged.toFinset.card ≤ MAXOPBLOCKS := by
  have hspec : Wp (writeChunk i src off n1)
      (fun _ t => ∃ u L, u.logged = [] ∧ Logs i L u t ∧ L.length ≤ 8) (fun _ => True) s := by
    refine Wp.modify_bind (ilock_returns.bind fun _ u ⟨hv, hvol, hlog⟩ => ?_)
    have heff : u.eff = s.eff := congrArg Volume.inode hvol
    have hcover' : Covered u i 0 (u.eff i).size := by
      unfold Covered
      rw [hvol, heff]
      exact hcover
    refine (writei_logs hv hn (by rw [heff]; exact hoff) hcover').mono fun _ t ⟨L, h, hL⟩ => ?_
    exact ⟨u, L, hlog, h, hL⟩
  obtain ⟨u, L, hlog, h, hL⟩ := hspec.post_of_run hrun
  have hsub : t.logged ⊆ L ++ [(t.eff i).addr NDIRECT, t.sb.BBLOCK ((t.eff i).addr NDIRECT)] := by
    intro b hb
    rcases h.logged b hb with hb | hb | hb
    · rw [hlog] at hb
      exact absurd hb not_mem_nil
    · exact mem_append_left _ hb
    · refine mem_append_right _ ?_
      rcases hb.2 with rfl | rfl
      · exact mem_cons_self
      · exact mem_cons_of_mem _ mem_cons_self
  calc t.logged.toFinset.card
      ≤ (L ++ [(t.eff i).addr NDIRECT, t.sb.BBLOCK ((t.eff i).addr NDIRECT)]).toFinset.card :=
        Finset.card_le_card fun b hb => mem_toFinset.2 (hsub (mem_toFinset.1 hb))
    _ ≤ (L ++ [(t.eff i).addr NDIRECT, t.sb.BBLOCK ((t.eff i).addr NDIRECT)]).length :=
        toFinset_card_le _
    _ ≤ MAXOPBLOCKS := by
        rw [length_append]
        simp only [length_cons, length_nil, MAXOPBLOCKS]
        omega

/-- Three blocks' length written from the middle of the first block on: four data blocks, the block
of the free map and that of the inode. -/
theorem filewrite_chunk_fits_unaligned : ∃ (r : ℤ) (t : FsState Unit),
    (writeChunk ROOTINO (fun _ => some 7) 32 3072).run (boot sample ()) = .ok (r, t) ∧
    t.logged.toFinset.card ≤ MAXOPBLOCKS := by
  have hrun : ((writeChunk ROOTINO (fun _ => some 7) 32 3072).run
      (boot sample ())).toOption.isSome = true := by decide +kernel
  have hcover : Covered (boot sample ()) ROOTINO 0 32 := by
    intro p _ hp
    have hp0 : p / BSIZE = 0 := div_eq_of_lt (by simp only [BSIZE]; omega)
    rw [vol_boot, hp0]
    decide
  cases hr : (writeChunk ROOTINO (fun _ => some 7) 32 3072).run (boot sample ()) with
  | error e =>
    rw [hr] at hrun
    contradiction
  | ok x => exact ⟨x.1, x.2, rfl, filewrite_chunk_fits hcover (by decide) (by decide) hr⟩

end Xv6
