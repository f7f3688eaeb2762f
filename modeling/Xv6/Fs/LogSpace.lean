import Mathlib.Data.Finset.Card
import Xv6.Fs.LogProof

/-!
# Is there room in the log?

`begin_op` admits an operation if the log has `MAXOPBLOCKS` blocks left for it and for each of the
operations in progress. `log_write` gives up when the table has `log.size - 1` entries, and tests
that before it looks whether the block is in the table already. With the `LOGSIZE` blocks that
`mkfs` gives the log, header included, three operations of `MAXOPBLOCKS` blocks each are one too
many.

Main results: `log_write_panics_iff` and `log_write_panics`.
-/

open List Transition

namespace Xv6

open LogState

namespace LogState

variable {P B : Type*} {lg : LogArea} {s s' : LogState P B}

/-- Each operation passes at most `m` different blocks to `log_write`. -/
def opBlocksAtMost [DecidableEq P] (m : ℕ) (e : Event P B) (s : LogState P B) : Prop :=
  match e with
  | .logWrite p b => ∀ o ∈ s.opOf p, (b :: o.blocks).toFinset.card ≤ m
  | _ => True

instance [DecidableEq P] (m : ℕ) (e : Event P B) (s : LogState P B) :
    Decidable (opBlocksAtMost m e s) := by
  unfold opBlocksAtMost
  split <;> infer_instance

/-- While operations run, the table has one entry for each block passed to `log_write`. -/
theorem Book.card_calls (h : s.Book) (hup : s.phase = .up) : s.calls.toFinset.card = s.lh.n := by
  have hset : s.calls.toFinset = s.lh.blocks.toFinset := by
    ext b
    simpa using h.calls hup b
  have hd : s.lh.blocks.Nodup := h.distinct (by rw [hup]; rfl)
  rw [hset, toFinset_card_of_nodup hd]
  simp [LogHeader.blocks]

/-! ## Operations one below the limit -/

/-- How many blocks an operation may still add, if it has at most `m`. -/
def room (m : ℕ) (o : LogOp P) : ℕ := m - o.blocks.toFinset.card

/-- How many blocks the operations in progress may still add. -/
def reserve (m : ℕ) : List (LogOp P) → ℕ
  | [] => 0
  | o :: active => room m o + reserve m active

theorem reserve_le (m : ℕ) (active : List (LogOp P)) : reserve m active ≤ active.length * m := by
  induction active with
  | nil => exact Nat.zero_le _
  | cons o active ih =>
    have : room m o ≤ m := Nat.sub_le _ _
    rw [reserve, length_cons, Nat.add_mul]
    omega

theorem reserve_filter_le (m : ℕ) (active : List (LogOp P)) (f : LogOp P → Bool) :
    reserve m (active.filter f) ≤ reserve m active := by
  induction active with
  | nil => exact Nat.zero_le _
  | cons o active ih =>
    rw [filter_cons]
    split_ifs
    · exact Nat.add_le_add_left ih _
    · exact ih.trans (Nat.le_add_left _ _)

/-- One operation has passed one more block to `log_write`. -/
theorem reserve_map [DecidableEq P] (m : ℕ) {active : List (LogOp P)}
    (hn : (active.map LogOp.proc).Nodup) {o : LogOp P} (ho : o ∈ active) (b : ℕ) :
    reserve m (active.map fun x =>
        if x.proc = o.proc then { x with blocks := b :: x.blocks } else x) + room m o =
      reserve m active + room m { o with blocks := b :: o.blocks } := by
  induction active with
  | nil => cases ho
  | cons x active ih =>
    rw [map_cons, nodup_cons] at hn
    simp only [reserve, map_cons]
    rcases mem_cons.mp ho with rfl | ho
    · have hsame : (active.map fun x =>
          if x.proc = o.proc then { x with blocks := b :: x.blocks } else x) = active := by
        conv_rhs => rw [← map_id active]
        apply map_congr_left
        intro x hx
        rw [if_neg, id]
        intro e
        exact hn.1 (e ▸ mem_map_of_mem hx)
      rw [hsame, if_pos rfl]
      omega
    · have hne : x.proc ≠ o.proc := fun e => hn.1 (e ▸ mem_map_of_mem ho)
      have := ih hn.2 ho
      rw [if_neg hne]
      omega

/-- What has been logged and what may still be logged fits, with two blocks to spare. -/
structure Fits (s : LogState P B) : Prop where
  total : s.phase = .up → s.lh.n + reserve (MAXOPBLOCKS - 1) s.active ≤ LOGSIZE - 2
  blocks : s.phase = .up → ∀ o ∈ s.active, o.blocks ⊆ s.calls

theorem Fits.of_not_up (h : s.phase ≠ .up) : s.Fits :=
  ⟨fun hup => absurd hup h, fun hup => absurd hup h⟩

theorem Book.fits_of_idle (h : s.Book) (ha : s.active = []) : s.Fits where
  total hup := by
    obtain ⟨-, -, h0⟩ := h.quiet ha (by rw [hup]; rfl)
    simp [h0 hup, ha, reserve]
  blocks _ o ho := by
    rw [ha] at ho
    cases ho

theorem Fits.beginOp (h : s.Fits) (hb : s.Book) (p : P) : (s.beginOp p).Fits := by
  unfold LogState.beginOp
  split_ifs with hc hfull
  · exact ⟨h.total, h.blocks⟩
  · exact ⟨h.total, h.blocks⟩
  · refine ⟨fun hup => ?_, fun hup o ho => ?_⟩
    · -- the new operation is alone with an empty table, or there are two to share the spare blocks
      have hup : s.phase = .up := hup
      have hle := reserve_le (MAXOPBLOCKS - 1) s.active
      have hout := hb.outstanding
      have hnew : reserve (MAXOPBLOCKS - 1) (⟨p, s.nextOp, []⟩ :: s.active) =
          (MAXOPBLOCKS - 1) + reserve (MAXOPBLOCKS - 1) s.active := by
        simp [reserve, room]
      show s.lh.n + reserve _ (_ :: s.active) ≤ _
      rw [hnew]
      by_cases ha : s.active = []
      · obtain ⟨-, -, h0⟩ := hb.quiet ha (by rw [hup]; rfl)
        rw [h0 hup, ha]
        simp [reserve, LOGSIZE, MAXOPBLOCKS]
      · have hpos := length_pos_iff.mpr ha
        simp only [LOGSIZE, MAXOPBLOCKS] at hfull hle ⊢
        omega
    · rcases mem_cons.mp ho with rfl | ho
      · exact nil_subset _
      · exact h.blocks hup o ho

section

variable [DecidableEq P]

theorem Fits.logWrite (h : s.Fits) (hb : s.Book) {o : LogOp P} (ho : o ∈ s.active) {b : ℕ}
    (hsize : (b :: o.blocks).toFinset.card ≤ MAXOPBLOCKS - 1) : (s.logWrite o b).Fits := by
  have hup := hb.up ho
  have htotal := h.total hup
  have hmap := reserve_map (MAXOPBLOCKS - 1) hb.procs ho b
  refine ⟨fun _ => ?_, fun _ x hx => ?_⟩
  · show (s.logEntry b).n + reserve (MAXOPBLOCKS - 1) (s.active.map _) ≤ _
    rcases s.logEntry_cases b with ⟨-, he⟩ | ⟨hnew, he⟩
    · -- absorbed: the operation may now add one block less, or the same
      rw [he]
      have hmono : o.blocks.toFinset.card ≤ (b :: o.blocks).toFinset.card := by
        rw [toFinset_cons]
        exact Finset.card_le_card (Finset.subset_insert _ _)
      simp only [room] at hmap
      omega
    · -- a new entry, of a block that is new to the operation
      have hb' : b ∉ o.blocks.toFinset := fun hbo =>
        hnew ((hb.calls hup b).mp (h.blocks hup o ho (by simpa using hbo)))
      rw [toFinset_cons, Finset.card_insert_of_notMem hb'] at hsize
      simp only [room, toFinset_cons, Finset.card_insert_of_notMem hb'] at hmap
      rw [he]
      show s.lh.n + 1 + _ ≤ _
      omega
  · obtain ⟨y, hy, rfl⟩ := mem_map.mp hx
    show _ ⊆ b :: s.calls
    split_ifs
    · exact cons_subset_cons b (h.blocks hup y hy)
    · exact subset_cons_of_subset b (h.blocks hup y hy)

theorem Fits.endOp (h : s.Fits) (o : LogOp P) : (s.endOp o).Fits := by
  by_cases h0 : s.outstanding - 1 = 0
  · rw [show s.endOp o = _ from if_pos h0]
    apply Fits.of_not_up
    dsimp only
    split_ifs <;> decide
  · rw [show s.endOp o = _ from if_neg h0]
    refine ⟨fun hup => ?_, fun hup x hx => h.blocks hup x (mem_of_mem_filter hx)⟩
    have hle := reserve_filter_le (MAXOPBLOCKS - 1) s.active fun x => decide (x.proc ≠ o.proc)
    exact (Nat.add_le_add_left hle _).trans (h.total hup)

theorem step_fits {e : Event P B} (hs : step lg e s = some s') (hb : s.Book) (h : s.Fits)
    (hok : opBlocksAtMost (MAXOPBLOCKS - 1) e s) : s'.Fits := by
  have hb' := step_book hs hb
  cases e with
  | beginOp p =>
    obtain ⟨-, rfl⟩ := of_guard hs
    exact h.beginOp hb p
  | modify p b v =>
    obtain ⟨o, -, -, -, rfl⟩ := of_opOf hs
    exact ⟨h.total, h.blocks⟩
  | logWrite p b =>
    obtain ⟨o, hp, ho, -, rfl⟩ := of_opOf hs
    exact h.logWrite hb ho (hok o hp)
  | endOp p =>
    obtain ⟨o, -, -, -, rfl⟩ := of_opOf hs
    exact h.endOp o
  | rouse p =>
    cases hs
    exact ⟨h.total, h.blocks⟩
  | advance =>
    -- nobody is in an operation while a commit or a recovery advances
    refine hb'.fits_of_idle ?_
    have ha : s.active = [] := by
      by_contra hne
      simp [step, advance, hb.busy hne] at hs
    rw [← ha]
    simp only [step, advance] at hs
    split at hs <;> (try split_ifs at hs) <;> cases hs <;> rfl
  | crash =>
    cases hs
    exact .of_not_up (by simp [crash])
  | initlog =>
    obtain ⟨-, rfl⟩ := of_guard hs
    exact .of_not_up (by simp [initlog])
  | start =>
    obtain ⟨hp, rfl⟩ := of_guard hs
    refine hb'.fits_of_idle ?_
    exact by_contra fun hne => by simpa [hp] using hb.busy hne

/-- **When the log is full.** `log_write` panics exactly when `LOGSIZE - 1` different blocks have
been passed to it since the last commit. If each operation passes at most `MAXOPBLOCKS - 1`
different blocks to it, that never happens. -/
theorem log_write_panics_iff (lg : LogArea) (hsize : lg.size = LOGSIZE) (s : LogState P B) (p : P)
    (hp : s.opOf p ≠ none) :
    (s.Reachable lg → (s.TooBig lg ↔ LOGSIZE - 1 ≤ s.calls.toFinset.card)) ∧
      (s.ReachableBy lg (opBlocksAtMost (MAXOPBLOCKS - 1)) → ¬ s.TooBig lg) := by
  obtain ⟨o, ho⟩ := Option.ne_none_iff_exists'.mp hp
  have hmem := (opOf_mem ho).1
  constructor
  · intro h
    have hb := (ReachableBy.inv h).1
    rw [hb.card_calls (hb.up hmem), TooBig, hsize]
    omega
  · intro h
    have hb := (ReachableBy.inv h).1
    have hfits : s.Book ∧ s.Fits := by
      obtain ⟨disk, head, -, hr⟩ := h
      refine hr.invariant (I := fun s => s.Book ∧ s.Fits)
        ⟨powerOff_book lg disk head, .of_not_up (by simp [powerOff])⟩ ?_
      rintro e t u ⟨hb, hf⟩ hok hs
      exact ⟨step_book hs hb, step_fits hs hb hf hok⟩
    have := hfits.2.total (hb.up hmem)
    rw [TooBig, hsize]
    simp only [LOGSIZE, MAXOPBLOCKS] at this ⊢
    omega

/-- Three operations of ten blocks each, up to the last block. -/
def fullLogRun : List (Event ℕ ℕ) :=
  [.initlog, .advance, .start, .beginOp 0, .beginOp 1, .beginOp 2] ++
    (range 29).map fun i => .logWrite (i / 10) (100 + i)

/-- The third operation passes its tenth block to `log_write`, which panics. -/
theorem log_write_panics :
    ∃ s : LogState ℕ ℕ, s.ReachableBy ⟨2, LOGSIZE⟩ (opBlocksAtMost MAXOPBLOCKS) ∧
      opBlocksAtMost MAXOPBLOCKS (.logWrite 2 129) s ∧ (s.opOf 2).isSome = true ∧
      s.TooBig ⟨2, LOGSIZE⟩ := by
  have hrun : (run (step ⟨2, LOGSIZE⟩) (opBlocksAtMost MAXOPBLOCKS) fullLogRun
      (powerOff ⟨2, LOGSIZE⟩ (fun _ => 0) ⟨0, fun _ => 0⟩)).any
      (fun s => decide (opBlocksAtMost MAXOPBLOCKS (.logWrite 2 129) s ∧
        (s.opOf 2).isSome = true ∧ s.TooBig ⟨2, LOGSIZE⟩)) = true := by decide +kernel
  obtain ⟨s, hr, hs⟩ := exists_reaches_of_run hrun
  exact ⟨s, ⟨_, _, Sound.of_zero rfl, hr⟩, hs⟩

/-- Two operations are in progress and nothing is logged. -/
theorem log_write_panics_iff_at_start :
    ∃ s : LogState ℕ ℕ, (s.opOf 1).isSome = true ∧ ¬ s.TooBig ⟨2, LOGSIZE⟩ := by
  have hrun : (run (step ⟨2, LOGSIZE⟩) (opBlocksAtMost (MAXOPBLOCKS - 1))
      [.initlog, .advance, .start, .beginOp 0, .beginOp 1]
      (powerOff ⟨2, LOGSIZE⟩ (fun _ => 0) ⟨0, fun _ => 0⟩)).any
      (fun s : LogState ℕ ℕ => decide ((s.opOf 1).isSome = true)) = true := by decide +kernel
  obtain ⟨s, hr, hs⟩ := exists_reaches_of_run hrun
  refine ⟨s, hs, (log_write_panics_iff ⟨2, LOGSIZE⟩ rfl s 1 ?_).2 ⟨_, _, Sound.of_zero rfl, hr⟩⟩
  exact Option.isSome_iff_ne_none.mp hs

end

end LogState

end Xv6
