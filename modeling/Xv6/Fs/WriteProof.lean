import Xv6.Fs.Runs

/-!
# Writes, block by block

What `writei` does when it does not write all it was asked for: there may be no free block, or the
source may not be mapped.

Blocks that the file lacks and free blocks tell whether the loop gets to the block where the source
faults (`Took`), so that the state before the call tells whether the write is torn.

Main results: `inode_is_byte_array` and `write_reported_iff`.
-/

open Function List Nat Option Transition

namespace Xv6

open FsState Volume

/-- **What `readi` returns** for a file: the number of bytes, and the bytes. -/
def Node.read (x : Node) (off n : ℕ) : ℤ × List UInt8 :=
  if x.size < off ∨ 2 ^ 32 ≤ off + n then (0, [])
  else (((min n (x.size - off) : ℕ) : ℤ), x.bytes off (min n (x.size - off)))

namespace Fs

variable {P : Type} {s t u : FsState P} {i a b n lo mid hi bn off tot : ℕ} {src : ℕ → Option UInt8}
  {err : FsError → Prop}

/-! ## Contents -/

theorem copyin_total (src : ℕ → UInt8) (m : ℕ) :
    copyin (fun k => some (src k)) 0 m = (range m).map src := by
  have hlen : (copyin (fun k => some (src k)) 0 m).length = m :=
    copyin_length (fun k => some_ne_none _) 0 m
  refine ext_getElem (by rw [hlen, length_map, length_range]) fun j hj hj' => ?_
  have hget := copyin_getD (fun k => some (src k)) 0 m j hj
  rw [zero_add, getD_eq_getElem _ _ hj] at hget
  rw [getElem_map, getElem_range]
  exact (some.inj hget).symm

/-- **The file holds the bytes of the source up to `off + tot`, and else what it held.** -/
theorem WriteNode.eq_store_copyin {x y : Node} (h : WriteNode off n src tot x y)
    (hx : ∀ p, x.size ≤ p → x.byte p = 0) (hy : ∀ p, y.size ≤ p → y.byte p = 0)
    (hmid : ∀ p, off + tot ≤ p → p < x.size → y.byte p = x.byte p) :
    y = x.store off (copyin src 0 tot) := by
  have hlen : (copyin src 0 tot).length = tot := copyin_length_of fun j hj => by
    rw [Nat.zero_add, h.data j hj]
    exact some_ne_none _
  refine Node.ext h.type h.nlink ?_ (funext fun p => ?_)
  · show y.size = max x.size (off + (copyin src 0 tot).length)
    rw [hlen, h.size]
  show y.byte p = if off ≤ p ∧ p < off + (copyin src 0 tot).length then
    (copyin src 0 tot).getD (p - off) 0 else x.byte p
  rw [hlen]
  split_ifs with hp
  · have hk := h.data (p - off) (by omega)
    have hget := copyin_getD src 0 tot (p - off) (by omega)
    rw [Nat.add_sub_cancel' hp.1] at hk
    rw [Nat.zero_add, hk] at hget
    exact some.inj hget
  · by_cases hrest : p < off ∨ off + n ≤ p
    · exact h.rest p hrest
    · by_cases hps : p < x.size
      · exact hmid p (by omega) hps
      · rw [hx p (by omega), hy p (by rw [h.size]; omega)]

theorem node_byte_of_ge (v : Volume) (i : ℕ) {p : ℕ} (hp : (v.node i).size ≤ p) :
    (v.node i).byte p = 0 := by
  unfold node at hp ⊢
  split_ifs with hl
  · rw [if_pos hl] at hp
    exact if_neg (not_lt.2 hp)
  · rfl

theorem readi_exact (ho : s.vol.Owned) (hv : s.Valid i) (hl : s.vol.Live i) (off : ℕ)
    (hn : n < 2 ^ 32) :
    (readi i (fun _ => true) off n).run s = .ok ((s.vol.node i).read off n, s) := by
  rw [readi_owned _ ho hv hl off hn]
  unfold Node.read Node.readTo
  simp only [copyout_all fun _ => rfl, Node.bytes_length, lt_irrefl, if_false]

/-- The source is mapped, so that only a lack of blocks ends the loop early. -/
theorem Ending.total {r : ℕ × ℕ} {s₁ : FsState P} (h : Ending i n src r s₁ t)
    (hsrc : ∀ k, src k ≠ none) :
    t = s₁ ∧ (r.1 < n → NoFree s₁) := by
  cases h with
  | done h => exact ⟨rfl, fun hlt => absurd hlt (by omega)⟩
  | full _ _ hf => exact ⟨rfl, fun _ => hf⟩
  | fault _ _ hl =>
    rw [copyin_length hsrc] at hl
    exact absurd hl (lt_irrefl _)

end Fs

open Fs

namespace Fs

variable {P : Type} {s t : FsState P} {i off n tot : ℕ} {src : ℕ → Option UInt8}

/-- Every `readi` on inode `i` sees the file `y`. -/
def Reads (t : FsState P) (i : ℕ) (y : Node) : Prop :=
  ∀ off n, off < 2 ^ 32 → n < 2 ^ 32 → (readi i (fun _ => true) off n).run t = .ok (y.read off n, t)

/-- **A write changes what it reports**: later reads see the bytes that it counts, and every block
that it has changed is logged. -/
def Reported (s : FsState P) (i off n : ℕ) (src : ℕ → Option UInt8) : Prop :=
  ∀ (r : ℤ) (t : FsState P), (writei i src off n).run s = .ok (r, t) → 0 ≤ r →
    Reads t i ((s.vol.node i).store off (copyin src 0 r.toNat)) ∧ Accounted s t

/-- **The source ends in the middle of a block.** Byte `f` of the source is the first that is not
mapped; the file has the block it was for, and enough blocks are free to get there; a byte `k` for
the same block, which comes before, differs from what the block holds; and it is a byte of the file,
or the block has not been logged. -/
def Torn (s : FsState P) (i off n : ℕ) (src : ℕ → Option UInt8) : Prop :=
  ¬ Refused s i off n ∧ ∃ f < n, (∀ k < f, src k ≠ none) ∧ src f = none ∧ blockAt s i (off + f) ≠ 0 ∧
    s.vol.lacking i (off / BSIZE) ((off + f) / BSIZE) ≤ s.vol.free ∧
    ∃ k < f, (off + k) / BSIZE = (off + f) / BSIZE ∧ src k ≠ some (s.vol.byte i (off + k)) ∧
      (off + k < (s.eff i).size ∨ blockAt s i (off + f) ∉ s.logged)

theorem copyin_short {k m : ℕ} (h : (copyin src k m).length < m) :
    src (k + (copyin src k m).length) = none := by
  induction m generalizing k with
  | zero => exact absurd h (not_lt_zero _)
  | succ m ih =>
    unfold copyin at h ⊢
    cases hx : src k with
    | none => exact hx
    | some x =>
      rw [hx] at h
      have := ih (lt_of_succ_lt_succ h)
      rw [show k + (x :: copyin src (k + 1) m).length = k + 1 + (copyin src (k + 1) m).length by
        rw [length_cons]; omega]
      exact this

theorem Loop.mapped {s₁ : FsState P} (h : Loop i n src off 0 s (tot, off + tot) s₁) {k : ℕ}
    (hk : k < tot) :
    src k ≠ none := by
  have hdata := h.data (off + k) (by omega) (by show off + k < off + tot; omega)
  rw [Nat.zero_add, Nat.add_sub_cancel_left] at hdata
  rw [hdata]
  exact some_ne_none _

/-- When the source faults, the byte it faults at is the first that is not mapped, and belongs to
the block that was to be written. -/
theorem Loop.fault {s₁ : FsState P} (h : Loop i n src off 0 s (tot, off + tot) s₁)
    (hl : (copyin src tot (chunk n (tot, off + tot))).length < chunk n (tot, off + tot)) :
    tot + (copyin src tot (chunk n (tot, off + tot))).length < n ∧
    (∀ k < tot + (copyin src tot (chunk n (tot, off + tot))).length, src k ≠ none) ∧
    src (tot + (copyin src tot (chunk n (tot, off + tot))).length) = none ∧
    ∀ k, tot ≤ k → k ≤ tot + (copyin src tot (chunk n (tot, off + tot))).length →
      (off + k) / BSIZE = (off + tot) / BSIZE := by
  refine ⟨?_, fun k hk => ?_, copyin_short hl, fun k hk hk' => ?_⟩
  · unfold chunk at *
    simp only at *
    omega
  · by_cases hlt : k < tot
    · exact h.mapped hlt
    · have hget := copyin_getD src tot (chunk n (tot, off + tot)) (k - tot) (by omega)
      rw [Nat.add_sub_cancel' (Nat.le_of_not_lt hlt)] at hget
      rw [hget]
      exact some_ne_none _
  · have hlt : k - tot < BSIZE - (off + tot) % BSIZE := by
      have : chunk n (tot, off + tot) ≤ BSIZE - (off + tot) % BSIZE := Nat.min_le_right _ _
      omega
    simp only [BSIZE] at *
    omega

/-- The bytes of the file in the state with the part of a chunk. -/
theorem byte_fault {s₁ : FsState P} (ho : s₁.vol.Owned) (ha : blockAt s₁ i off ≠ 0) {l : List UInt8}
    (hl : off % BSIZE + l.length ≤ BSIZE) {p : ℕ} (hp : off ≤ p) (hpa : blockAt s₁ i p ≠ 0) :
    (s₁.setBlock (blockAt s₁ i off) ((s₁.block (blockAt s₁ i off)).store (off % BSIZE) l)).vol.byte
      i p =
      if p < off + l.length then l.getD (p - off) 0 else s₁.vol.byte i p := by
  split_ifs with hlt
  · exact byte_store ho l hl ha hp hlt
  · exact (Written.store ho l ha).byte p hpa (.inr (Nat.le_of_not_lt hlt))

theorem Reads.byte_eq {y : Node} (h : Reads t i y) (ho : t.vol.Owned) (hv : t.Valid i)
    (hl : t.vol.Live i)
    {p : ℕ} (hp : p < (t.eff i).size) (hy : p < y.size) : t.vol.byte i p = y.byte p := by
  have hsize := size_le ho hl
  have hp32 : p < 2 ^ 32 := by
    have : MAXFILE * BSIZE < 2 ^ 32 := by decide
    omega
  have h1 := h p 1 hp32 (by decide)
  rw [readi_exact ho hv hl _ (by decide)] at h1
  have hread : ∀ x : Node, p < x.size → x.read p 1 = (1, [x.byte p]) := by
    intro x hx
    have : MAXFILE * BSIZE + 1 < 2 ^ 32 := by decide
    unfold Node.read Node.bytes
    rw [if_neg (by omega), min_eq_left (by omega)]
    rfl
  rw [hread _ (by rw [node_size hl]; exact hp), hread y hy] at h1
  have h2 := (cons.inj (Prod.mk.inj (Prod.mk.inj (Except.ok.inj h1)).1).2).1
  rwa [node_byte hl hp] at h2

theorem reads_node (ho : t.vol.Owned) (hv : t.Valid i) (hl : t.vol.Live i) : Reads t i (t.vol.node i) :=
  fun off _ _ hn => readi_exact ho hv hl off hn

theorem indirect_of_blockAt {bn : ℕ} (ha : s.vol.addr (i, blockSlot bn) ≠ 0) {hi : ℕ} (hle : hi ≤ bn) :
    hi < NDIRECT ∨ s.vol.addr (i, NDIRECT) ≠ 0 := by
  by_cases hd : bn < NDIRECT
  · exact .inl (by omega)
  · refine .inr fun hz => ha ?_
    rw [blockSlot_entry hd]
    exact addr_entry_zero hz

section Faults

variable {s₁ : FsState P} (h : Loop i n src off 0 s (tot, off + tot) s₁)

include h

theorem Loop.not_torn_done (hn : tot = n) : ¬ Torn s i off n src := by
  rintro ⟨-, f, hf, -, hnone, -⟩
  exact h.mapped (by omega) hnone

theorem Loop.not_torn_full (hlt : tot < n) (ha : blockAt s₁ i (off + tot) = 0) (hfull : NoFree s₁) :
    ¬ Torn s i off n src := by
  rintro ⟨-, f, -, -, hnone, hfa, hroom, -⟩
  have hle : tot ≤ f := Nat.le_of_not_lt fun hft => h.mapped hft hnone
  have htook : Took i (off / BSIZE) ((off + tot) / BSIZE) s s₁ := h.reached hlt (.inl ha)
  have hbn : (off + tot) / BSIZE ≤ (off + f) / BSIZE := Nat.div_le_div_right (by omega)
  have hne : (off + tot) / BSIZE ≠ (off + f) / BSIZE := by
    intro he
    unfold blockAt at ha hfa
    rw [he, htook.addr _ hfa] at ha
    exact hfa ha
  have hzero : s.vol.addr (i, blockSlot ((off + tot) / BSIZE)) = 0 := by
    by_contra hz
    unfold blockAt at ha
    rw [htook.addr _ hz] at ha
    exact hz ha
  -- all free blocks went to blocks before this one, which is lacking too
  obtain ⟨hspent, -⟩ := htook.spent (indirect_of_blockAt hfa hbn)
  have hnone1 : s₁.vol.free = 0 := free_eq_zero (v := s₁.vol) hfull
  rw [hnone1, Nat.zero_add] at hspent
  have hlo : off / BSIZE ≤ (off + tot) / BSIZE := Nat.div_le_div_right (by omega)
  have hsplit := lacking_add s.vol i hlo hbn
  have hnext := lacking_add s.vol i (Nat.le_succ ((off + tot) / BSIZE))
    (show (off + tot) / BSIZE + 1 ≤ (off + f) / BSIZE by omega)
  rw [Nat.succ_eq_add_one, lacking_succ, if_pos hzero] at hnext
  omega

variable (hl : (copyin src tot (chunk n (tot, off + tot))).length < chunk n (tot, off + tot))

include hl

/-- The source faults: the write is torn if a byte that was copied makes a difference. -/
theorem Loop.torn_iff (href : ¬ Refused s i off n) : Torn s i off n src ↔
    blockAt s i (off + tot) ≠ 0 ∧ ∃ j < (copyin src tot (chunk n (tot, off + tot))).length,
      (copyin src tot (chunk n (tot, off + tot))).getD j 0 ≠ s.vol.byte i (off + tot + j) ∧
      (off + tot + j < (s.eff i).size ∨ blockAt s i (off + tot) ∉ s.logged) := by
  obtain ⟨hfn, hmapped, hnone, hblock⟩ := h.fault hl
  set l := copyin src tot (chunk n (tot, off + tot))
  have hlast : (off + (tot + l.length)) / BSIZE = (off + tot) / BSIZE := hblock _ (by omega) le_rfl
  have hat : blockAt s i (off + (tot + l.length)) = blockAt s i (off + tot) := by
    unfold blockAt
    rw [hlast]
  have hget : ∀ j < l.length, src (tot + j) = some (l.getD j 0) := fun j hj =>
    copyin_getD src tot (chunk n (tot, off + tot)) j hj
  have htn : tot < n := by omega
  constructor
  · rintro ⟨-, f, hf, hbefore, hfnone, hfa, -, k, hk, hkb, hdiff, hvis⟩
    have hff : f = tot + l.length := by
      rcases Nat.lt_trichotomy f (tot + l.length) with hlt | he | hgt
      · exact absurd hfnone (hmapped f hlt)
      · exact he
      · exact absurd hnone (hbefore _ hgt)
    subst hff
    rw [hat] at hfa hvis
    have hktot : tot ≤ k := by
      -- the chunk begins at the first byte of the request or at the start of the block
      rcases h.stop htn with h0 | h0
      · have : tot = 0 := h0
        omega
      · have : (off + tot) % BSIZE = 0 := h0
        rw [hlast] at hkb
        simp only [BSIZE] at *
        omega
    refine ⟨hfa, k - tot, by omega, ?_, ?_⟩
    · rw [show off + tot + (k - tot) = off + k by omega]
      intro he
      have hkget := hget (k - tot) (by omega)
      rw [Nat.add_sub_cancel' hktot, he] at hkget
      exact hdiff hkget
    · rwa [show off + tot + (k - tot) = off + k by omega]
  · rintro ⟨ha, j, hj, hdiff, hvis⟩
    have htook : Took i (off / BSIZE) ((off + tot) / BSIZE) s s₁ := h.reached htn (.inr ha)
    obtain ⟨hspent, -⟩ := htook.spent (indirect_of_blockAt ha le_rfl)
    refine ⟨href, tot + l.length, hfn, hmapped, hnone, by rw [hat]; exact ha, by rw [hlast]; omega,
      tot + j, by omega, ?_, ?_, ?_⟩
    · rw [hlast]
      exact hblock _ (by omega) (by omega)
    · rw [hget j hj, ← Nat.add_assoc]
      exact fun he => hdiff (some.inj he)
    · rw [hat, ← Nat.add_assoc]
      exact hvis

end Faults

/-- What is known of a request that is not refused, when it has returned `tot`. -/
structure WriteRun (s : FsState P) (i off n : ℕ) (src : ℕ → Option UInt8) (tot : ℕ)
    (s₁ t₀ t : FsState P) :
    Prop where
  accepted : ¬ Refused s i off n
  loop : Loop i n src off 0 s (tot, off + tot) s₁
  ending : Ending i n src (tot, off + tot) s₁ t₀
  accounted : Accounted t₀ t
  block : t.block = t₀.block
  addr : t.vol.addr = s₁.vol.addr
  logged : t.logged = s.sb.IBLOCK i :: s₁.logged
  owned : t.vol.Owned
  valid : t.Valid i
  live : t.vol.Live i
  node : WriteNode off n src tot (s.vol.node i) (t.vol.node i)

theorem writei_run (ho : s.vol.Owned) (hv : s.Valid i) (hl : s.vol.Live i) (src : ℕ → Option UInt8)
    (hoff : off < 2 ^ 32) (hn : n < 2 ^ 32) :
    ∃ (r : ℤ) (t : FsState P), (writei i src off n).run s = .ok (r, t) ∧
      ((Refused s i off n ∧ r = -1) ∨ ∃ (tot : ℕ) (s₁ t₀ : FsState P), r = tot ∧
        WriteRun s i off n src tot s₁ t₀ t) := by
  have hspec : Wp (writei i src off n) _ (fun _ => False) s :=
    (writei_spec ho hv hl src hn).and (writei_ends ho hv hl src hoff hn)
  obtain ⟨r, t, hrun, hnode, hends⟩ := hspec.exists_run
  refine ⟨r, t, hrun, ?_⟩
  rcases hends with ⟨href, hr, -⟩ | ⟨href, tot, s₁, t₀, hr, hloop, hend, hacc, -, hblock, haddr, hlog⟩
  · exact .inl ⟨href, hr⟩
  rcases hnode with ⟨h, -⟩ | ⟨tot', hr', -, -, -, y, hy, hch⟩
  · omega
  obtain rfl : tot = tot' := by omega
  obtain ⟨-, -, -, haddr0, -, hlog0⟩ := hend.vol hloop.written.owned.toMapped
  have hnode : t.vol.node i = y := by rw [hch.node, update_self]
  refine .inr ⟨tot, s₁, t₀, hr, href, hloop, hend, hacc, hblock, haddr.trans haddr0,
    by rw [hlog, hlog0],
    hch.owned, hch.kept.valid hv, ?_, by rw [hnode]; exact hy⟩
  rw [live_iff_node, hnode, hy.type]
  exact live_iff_node.1 hl

namespace WriteRun

variable {s₁ t₀ : FsState P} (h : WriteRun s i off n src tot s₁ t₀ t)

include h

theorem byte (p : ℕ) : t.vol.byte i p = t₀.vol.byte i p := by
  obtain ⟨-, -, -, haddr0, -, -⟩ := h.ending.vol h.loop.written.owned.toMapped
  unfold Volume.byte
  rw [h.addr, haddr0]
  show t.block _ _ = t₀.block _ _
  rw [h.block]

theorem copyin_length : (copyin src 0 tot).length = tot := copyin_length_of fun j hj => by
  rw [zero_add, h.node.data j hj]
  exact some_ne_none _

theorem size (hl : s.vol.Live i) : (t.eff i).size = max (s.eff i).size (off + tot) := by
  have := h.node.size
  rwa [node_size h.live, node_size hl] at this

/-- **The bytes that are read** are those that count if the others are as before. -/
theorem reads_iff (hl : s.vol.Live i) : Reads t i ((s.vol.node i).store off (copyin src 0 tot)) ↔
    ∀ p, off + tot ≤ p → p < (s.eff i).size → t.vol.byte i p = s.vol.byte i p := by
  have hsize := h.size hl
  have hlen := h.copyin_length
  constructor
  · intro hr p hp hps
    have hstore : p < ((s.vol.node i).store off (copyin src 0 tot)).size := by
      show p < max (s.vol.node i).size _
      rw [node_size hl]
      exact lt_max_of_lt_left hps
    rw [hr.byte_eq h.owned h.valid h.live (by omega) hstore]
    show (if off ≤ p ∧ p < off + (copyin src 0 tot).length then _ else (s.vol.node i).byte p) = _
    rw [if_neg (by omega), node_byte hl hps]
  · intro hsame
    have heq := h.node.eq_store_copyin (fun p => node_byte_of_ge _ i) (fun p => node_byte_of_ge _ i)
      fun p hp hps => by
        rw [node_size hl] at hps
        have hps : p < (s.eff i).size := hps
        rw [node_byte h.live (show p < (t.eff i).size by omega), node_byte hl hps]
        exact hsame p hp hps
    rw [← heq]
    exact reads_node h.owned h.valid h.live

/-- Nothing of a chunk that does not count has been stored. -/
theorem reported_of_clean (hl : s.vol.Live i) (ho : s.vol.Owned) (ht : t₀ = s₁) :
    Reads t i ((s.vol.node i).store off (copyin src 0 tot)) ∧ Accounted s t := by
  obtain ⟨hi, -, htook⟩ := h.loop.took
  refine ⟨(h.reads_iff hl).2 fun p hp hps => ?_, ?_⟩
  · rw [h.byte, ht]
    exact h.loop.written.byte p (ho.addr_ne_zero hl hps) (.inr hp)
  · refine htook.accounted.trans ?_
    rw [← ht]
    exact h.accounted

variable (ha : blockAt s₁ i (off + tot) ≠ 0)
  (hc : (copyin src tot (chunk n (tot, off + tot))).length < chunk n (tot, off + tot))
  (ht : t₀ = s₁.setBlock (blockAt s₁ i (off + tot)) ((s₁.block (blockAt s₁ i (off + tot))).store
    ((off + tot) % BSIZE) (copyin src tot (chunk n (tot, off + tot)))))

include ha hc ht

theorem byte_of_fault {p : ℕ} (hp : off + tot ≤ p) (hpa : blockAt s i p ≠ 0) : t.vol.byte i p =
    if p < off + tot + (copyin src tot (chunk n (tot, off + tot))).length then
      (copyin src tot (chunk n (tot, off + tot))).getD (p - (off + tot)) 0
    else s.vol.byte i p := by
  have hmin : chunk n (tot, off + tot) ≤ BSIZE - (off + tot) % BSIZE := min_le_right _ _
  have hpos := mod_lt (off + tot) (show 0 < BSIZE by decide)
  have hold := h.loop.written.byte p hpa (.inr hp)
  have hpa1 : blockAt s₁ i p ≠ 0 := h.loop.written.addr _ hpa
  rw [h.byte, ht, byte_fault h.loop.written.owned ha (by omega) hp hpa1, hold]

theorem not_reported_of_fault (hl : s.vol.Live i) (ho : s.vol.Owned) (hap : s.sb.Apart)
    (ha0 : blockAt s i (off + tot) ≠ 0) {j : ℕ}
    (hj : j < (copyin src tot (chunk n (tot, off + tot))).length)
    (hdiff : (copyin src tot (chunk n (tot, off + tot))).getD j 0 ≠ s.vol.byte i (off + tot + j))
    (hvis : off + tot + j < (s.eff i).size ∨ blockAt s i (off + tot) ∉ s.logged) :
    ¬ (Reads t i ((s.vol.node i).store off (copyin src 0 tot)) ∧ Accounted s t) := by
  obtain ⟨hfn, -, -, hblock⟩ := h.loop.fault hc
  have hbn : (off + tot + j) / BSIZE = (off + tot) / BSIZE := by
    rw [Nat.add_assoc]
    exact hblock _ (by omega) (by omega)
  have hpa : blockAt s i (off + tot + j) ≠ 0 := by
    unfold blockAt
    rw [hbn]
    exact ha0
  have hbyte := h.byte_of_fault ha hc ht (Nat.le_add_right (off + tot) j) hpa
  rw [if_pos (by omega), Nat.add_sub_cancel_left] at hbyte
  rintro ⟨hreads, hacc⟩
  rcases hvis with hvis | hvis
  · exact hdiff (hbyte ▸ (h.reads_iff hl).1 hreads _ (by omega) hvis)
  · -- the block is among those that have changed, and not among those that were logged
    have htook : Took i (off / BSIZE) ((off + tot) / BSIZE) s s₁ :=
      h.loop.reached (by show tot < n; omega) (.inr ha0)
    have haddr : t.vol.addr (i, blockSlot ((off + tot) / BSIZE)) = blockAt s i (off + tot) := by
      rw [h.addr]
      exact htook.addr _ ha0
    have hchanged : t.block (blockAt s i (off + tot)) ≠ s.block (blockAt s i (off + tot)) := by
      intro he
      refine hdiff ?_
      rw [← hbyte]
      unfold Volume.byte
      rw [hbn, haddr]
      exact congrFun he _
    have hdata : s.sb.InData (blockAt s i (off + tot)) := ho.inData ha0
    have hmem := hacc.block _ hchanged
    rw [h.logged] at hmem
    rcases mem_cons.1 hmem with he | hmem
    · exact (hap _ hdata).2 i hl.1 he
    · rcases htook.log _ hmem with hm | hm | ⟨c, hcs, hm⟩ | hm | ⟨bn, -, hlt, hm⟩
      · exact hvis hm
      · have hused : s.bit (blockAt s i (off + tot)) = true := ho.map.used_own ha0
        rw [hused] at hm
        contradiction
      · exact (hap _ hdata).1 c hcs hm
      · have := ho.map.inj _ _ ha0 hm
        exact blockSlot_ne _ (congrArg Prod.snd this)
      · have := blockSlot_inj (congrArg Prod.snd (ho.map.inj _ _ ha0 hm))
        omega

/-- A source that faults does no harm if the bytes that were copied are there already, or do not
matter. -/
theorem reported_of_fault (hl : s.vol.Live i) (ho : s.vol.Owned)
    (hsame : blockAt s i (off + tot) ≠ 0 → ∀ j < (copyin src tot (chunk n (tot, off + tot))).length,
      (copyin src tot (chunk n (tot, off + tot))).getD j 0 ≠ s.vol.byte i (off + tot + j) →
      (s.eff i).size ≤ off + tot + j ∧ blockAt s i (off + tot) ∈ s.logged) :
    Reads t i ((s.vol.node i).store off (copyin src 0 tot)) ∧ Accounted s t := by
  obtain ⟨hfn, -, -, hblock⟩ := h.loop.fault hc
  set l := copyin src tot (chunk n (tot, off + tot)) with hldef
  obtain ⟨hi, -, htook⟩ := h.loop.took
  have hat : ∀ j < l.length, blockAt s i (off + tot + j) = blockAt s i (off + tot) := fun j hj => by
    unfold blockAt
    rw [Nat.add_assoc, hblock _ (by omega) (by omega)]
  refine ⟨(h.reads_iff hl).2 fun p hp hps => ?_, ?_⟩
  · have hpa : blockAt s i p ≠ 0 := ho.addr_ne_zero hl hps
    rw [h.byte_of_fault ha hc ht hp hpa, ← hldef]
    split_ifs with hlt
    · by_contra hdiff
      obtain ⟨j, rfl⟩ := Nat.exists_eq_add_of_le hp
      rw [hat j (by omega)] at hpa
      rw [Nat.add_sub_cancel_left] at hdiff
      have := (hsame hpa j (by omega) hdiff).1
      omega
    · rfl
  · refine Accounted.trans (t := t₀) ?_ h.accounted
    have hacc := htook.accounted
    rw [ht]
    refine ⟨hacc.sb, hacc.logged, fun b hb => ?_, hacc.bit, hacc.dinode⟩
    by_cases hba : b = blockAt s₁ i (off + tot)
    swap
    · exact hacc.block b (by rwa [show (s₁.setBlock (blockAt s₁ i (off + tot)) _).block b =
        s₁.block b from
        update_of_ne hba ..] at hb)
    subst hba
    by_cases ha0 : blockAt s i (off + tot) = 0
    · exact htook.fresh _ ha0 ha
    have haddr : blockAt s₁ i (off + tot) = blockAt s i (off + tot) := htook.addr _ ha0
    by_cases hlog : blockAt s i (off + tot) ∈ s.logged
    · rw [haddr]
      exact hacc.logged hlog
    · -- the bytes that were copied were there already
      refine hacc.block _ fun he => hb ?_
      rw [← he]
      show update s₁.block _ _ _ = _
      rw [update_self]
      funext k
      unfold Block.store
      split_ifs with hk
      · have hj : k - (off + tot) % BSIZE < l.length := by omega
        have hpa : blockAt s i (off + tot + (k - (off + tot) % BSIZE)) ≠ 0 := by
          rw [hat _ hj]
          exact ha0
        have heq : l.getD (k - (off + tot) % BSIZE) 0 =
            s.vol.byte i (off + tot + (k - (off + tot) % BSIZE)) := by
          by_contra hdiff
          exact hlog (hsame ha0 _ hj hdiff).2
        have hold := h.loop.written.byte _ hpa (.inr (by show off + tot ≤ _; omega))
        rw [heq, ← hold]
        have hbn : (off + tot + (k - (off + tot) % BSIZE)) / BSIZE = (off + tot) / BSIZE := by
          rw [Nat.add_assoc]
          exact hblock _ (by omega) (by omega)
        have hmod : (off + tot + (k - (off + tot) % BSIZE)) % BSIZE = k := by
          simp only [BSIZE] at *
          omega
        unfold Volume.byte
        rw [hbn, hmod]
        rfl
      · rfl

end WriteRun

end Fs

open Fs

/-- **A write that fails midway** changes only what it reports, unless it is torn. -/
theorem write_reported_iff {P : Type} {s : FsState P} {i off n : ℕ} {src : ℕ → Option UInt8}
    (ho : s.vol.Owned) (hv : s.Valid i) (hl : s.vol.Live i) (hap : s.sb.Apart) (hoff : off < 2 ^ 32)
    (hn : n < 2 ^ 32) : Reported s i off n src ↔ ¬ Torn s i off n src := by
  obtain ⟨r, t, hrun, href | ⟨tot, s₁, t₀, rfl, h⟩⟩ := writei_run ho hv hl src hoff hn
  · -- the request is refused
    refine iff_of_true (fun r' t' hrun' hr => ?_) fun htorn => htorn.1 href.1
    rw [hrun, Except.ok.injEq, Prod.mk.injEq] at hrun'
    omega
  have hrep : Reported s i off n src ↔
      Reads t i ((s.vol.node i).store off (copyin src 0 tot)) ∧ Accounted s t := by
    constructor
    · exact fun hr => hr tot t hrun (Int.natCast_nonneg tot)
    · intro hr r' t' hrun' _
      rw [hrun, Except.ok.injEq, Prod.mk.injEq] at hrun'
      obtain ⟨rfl, rfl⟩ := hrun'
      exact hr
  rw [hrep]
  obtain ⟨t1, ht1, he⟩ : ∃ t1, t1 = t₀ ∧ Ending i n src (tot, off + tot) s₁ t1 := ⟨t₀, rfl, h.ending⟩
  cases he with
  | done hd => exact iff_of_true (h.reported_of_clean hl ho ht1.symm) (h.loop.not_torn_done hd)
  | full hlt ha hf =>
    exact iff_of_true (h.reported_of_clean hl ho ht1.symm) (h.loop.not_torn_full hlt ha hf)
  | fault _ ha hc =>
    rw [h.loop.torn_iff hc h.accepted]
    constructor
    · rintro hr ⟨ha0, j, hj, hdiff, hvis⟩
      exact h.not_reported_of_fault ha hc ht1.symm hl ho hap ha0 hj hdiff hvis hr
    · intro hnot
      refine h.reported_of_fault ha hc ht1.symm hl ho fun ha0 j hj hdiff => ?_
      by_contra hvis
      rw [not_and_or, not_le] at hvis
      exact hnot ⟨ha0, j, hj, hdiff, hvis⟩

theorem SuperBlock.apart_sample : sample.sb.Apart := by
  rintro b ⟨hlo, -⟩
  have hlo : 4 ≤ b := hlo
  refine ⟨fun c hc => ?_, fun j hj => ?_⟩
  · have hc : c < 16 := hc
    show b ≠ c / 8192 + 2
    omega
  · have hj : j < 8 := hj
    show b ≠ j / 16 + 1
    omega

/-- A source that is mapped is reported. -/
theorem write_reported_mapped : Reported (boot sample ()) ROOTINO 0 2 fun _ =>
    some 7 := by
  have ho : (boot sample ()).vol.Owned := by
    rw [vol_boot]
    exact sample_bootable.owned
  have hl : (boot sample ()).vol.Live ROOTINO := by
    rw [vol_boot]
    exact sample_live.2 rfl
  refine (write_reported_iff ho ⟨_, rfl, rfl⟩ hl SuperBlock.apart_sample (by decide) (by decide)).2 ?_
  rintro ⟨-, f, -, -, hnone, -⟩
  exact some_ne_none _ hnone

/-- One byte is mapped: the last byte of a page, say, before a page that is not. -/
def oneByte (k : ℕ) : Option UInt8 := if k = 0 then some 7 else none

/-- A file of two bytes is written, and opened again. -/
def twoBytes : List (FsCall Unit) :=
  [.open () (some [slash, 102]) (O_CREATE + O_RDWR), .write () 0 (fun _ => some 5) 2 0,
    .open () (some [slash, 102]) O_RDWR]

/-- What has gone wrong when a write has returned: it reports nothing, but a byte of block `b` has
changed, and the block is not logged. -/
def lostIn (b : ℕ) (s : FsState Unit) (res : Except FsError (ℤ × FsState Unit)) : Bool :=
  match res with
  | .ok (r, t) => decide (r = 0 ∧ s.block b 0 ≠ t.block b 0 ∧ b ∉ t.logged)
  | .error _ => false

theorem not_reported_of_lost {s : FsState Unit} {i off n b : ℕ} {src : ℕ → Option UInt8}
    (h : lostIn b s ((writei i src off n).run s) = true) : ¬ Reported s i off n src := by
  intro hrep
  unfold Reported at hrep
  revert h hrep
  cases (writei i src off n).run s with
  | error e => exact fun h => Bool.noConfusion h
  | ok x =>
    intro hlost hrep
    obtain ⟨hr, hdiff, hlog⟩ := of_decide_eq_true hlost
    have hacc := (hrep x.1 x.2 rfl hr.ge).2
    exact hlog (hacc.block b fun he => hdiff (by rw [he]))

/-- **A byte that is not reported is written, and its block is not logged.** -/
theorem torn_write_unreported : ∃ s : FsState Unit, s.Reached sample () ∧
    ¬ Reported s 2 0 2 oneByte := by
  have hrun : (run FsCall.step anyEvent twoBytes
      (boot sample ())).any (fun s => decide (lostIn 5 s ((writei 2 oneByte 0 2).run s) = true)) =
        true := by decide +kernel
  obtain ⟨s, hs, hlost⟩ := exists_reaches_of_run hrun
  exact ⟨s, hs, not_reported_of_lost hlost⟩

end Xv6
