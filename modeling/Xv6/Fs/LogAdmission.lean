import Xv6.Fs.LogProof

/-!
# Waiting for the log

`begin_op` lets an operation in, or puts the process to sleep while there is a commit or too little room.
Who comes to the log, and with which blocks, is left open here (`LogCall`): processes call `begin_op`,
`log_write` and `end_op` in any order in which the calls of one process can come, and `commit` goes on
block by block in between.

Main result: `log_admission`. There is a `wakeup` on each of the two paths on which the test of `begin_op`
can change to the better: an operation ends while others go on, and a commit ends.
-/

open List Transition

namespace Xv6

namespace LogState

variable {P B : Type*} {lg : LogArea} {s s' : LogState P B}

/-- What processes and `commit` do. -/
inductive LogCall (P : Type*)
  | beginOp (p : P)
  | logWrite (p : P) (b : ℕ)
  | endOp (p : P)
  /-- `kill` wakes a process that sleeps in `begin_op` -/
  | rouse (p : P)
  /-- the next disk write of `commit`, or the end of `end_op` -/
  | advance

/-- The log after `initlog`, on any disk. -/
def booted (disk : ℕ → B) (head : LogHeader) (block : ℕ → ℕ) : LogState P B where
  disk := disk
  head := head
  mem := disk
  lh := ⟨0, block⟩
  outstanding := 0
  committing := false
  phase := .up
  active := []
  asleep := []
  dirty := []
  nextOp := 0
  base := disk
  txs := []
  finished := 0
  cur := []
  calls := []

variable [DecidableEq P]

/-- One call, or a step of `commit`; the panics of `log_write` and `end_op` end the run. -/
def callStep (lg : LogArea) (c : LogCall P) (s : LogState P B) : Option (LogState P B) :=
  match c with
  | .beginOp p => if s.opOf p = none ∧ p ∉ s.asleep then some (s.beginOp p) else none
  | .logWrite p b => (s.opOf p).bind fun o => if ¬ s.TooBig lg then some (s.logWrite o b) else none
  | .endOp p => (s.opOf p).bind fun o => if s.committing = false then some (s.endOp o) else none
  | .rouse p => some { s with asleep := s.asleep.filter fun x => decide (x ≠ p) }
  | .advance => s.advance lg

/-- Reached by calls in any order. -/
def Called (lg : LogArea) (s : LogState P B) : Prop :=
  ∃ disk head block, Reaches (callStep lg) anyEvent (booted disk head block) s

/-- The test of `begin_op` for which a process sleeps. -/
def Refuses (s : LogState P B) : Prop :=
  s.committing = true ∨ LOGSIZE < s.lh.n + (s.outstanding + 1) * MAXOPBLOCKS

/-- Who sleeps, and why. -/
structure Sleepers (s : LogState P B) : Prop where
  running : s.phase.running = true
  clean : s.dirty = []
  waits : ∀ p ∈ s.asleep, s.Refuses
  outside : ∀ p ∈ s.asleep, ∀ o ∈ s.active, o.proc ≠ p

omit [DecidableEq P] in
theorem Sleepers.of_nil (hr : s.phase.running = true) (hd : s.dirty = []) (ha : s.asleep = []) :
    s.Sleepers := by
  refine ⟨hr, hd, fun p hp => ?_, fun p hp => ?_⟩ <;> rw [ha] at hp <;> cases hp

theorem opOf_none {p : P} (h : s.opOf p = none) : ∀ o ∈ s.active, o.proc ≠ p := by
  intro o ho he
  have := find?_eq_none.mp h o ho
  simp [he] at this

theorem Sleepers.beginOp (h : s.Sleepers) {p : P} (hp : s.opOf p = none) (hsleep : p ∉ s.asleep) :
    (s.beginOp p).Sleepers := by
  have hnew : ∀ q ∈ p :: s.asleep, ∀ o ∈ s.active, o.proc ≠ q := by
    intro q hq
    rcases mem_cons.mp hq with rfl | hq
    · exact opOf_none hp
    · exact h.outside q hq
  unfold LogState.beginOp
  split_ifs with hc hfull
  · exact ⟨h.running, h.clean, fun _ _ => .inl hc, hnew⟩
  · exact ⟨h.running, h.clean, fun _ _ => .inr hfull, hnew⟩
  · refine ⟨h.running, h.clean, fun q hq => ?_, fun q hq o ho => ?_⟩
    · -- one more operation needs room
      refine (h.waits q hq).imp id fun hlt => lt_of_lt_of_le hlt ?_
      exact Nat.add_le_add_left (Nat.mul_le_mul_right _ (Nat.le_succ _)) _
    · rcases mem_cons.mp ho with rfl | ho
      · intro he
        have he : p = q := he
        exact hsleep (he ▸ hq)
      · exact h.outside q hq o ho

theorem Sleepers.logWrite (h : s.Sleepers) (o : LogOp P) (b : ℕ) : (s.logWrite o b).Sleepers where
  running := h.running
  clean := by
    show s.dirty.filter _ = []
    rw [h.clean]
    rfl
  waits q hq := by
    have hle : s.lh.n ≤ (s.logEntry b).n := by
      rcases s.logEntry_cases b with ⟨-, he⟩ | ⟨-, he⟩
      · rw [he]
      · rw [he]
        exact Nat.le_succ _
    exact (h.waits q hq).imp id fun hlt => lt_of_lt_of_le hlt (Nat.add_le_add_right hle _)
  outside q hq x hx := by
    obtain ⟨y, hy, rfl⟩ := mem_map.mp hx
    have := h.outside q hq y hy
    split_ifs <;> exact this

theorem Sleepers.endOp (h : s.Sleepers) (o : LogOp P) : (s.endOp o).Sleepers := by
  unfold LogState.endOp
  dsimp only
  by_cases hlast : s.outstanding - 1 = 0
  · rw [if_pos hlast]
    refine ⟨?_, h.clean, fun _ _ => .inl rfl, fun q hq x hx => ?_⟩
    · dsimp only
      split_ifs <;> rfl
    · exact h.outside q hq x (mem_of_mem_filter hx)
  · rw [if_neg hlast]
    exact .of_nil h.running h.clean rfl

omit [DecidableEq P] in
theorem Sleepers.advance (h : s.Sleepers) (hb : s.Book) (hs : s.advance lg = some s') :
    s'.Sleepers := by
  have hup : s.phase ≠ .up := fun he => by simp [LogState.advance, he] at hs
  have hc : s.committing = true := hb.committing.mpr ⟨h.running, hup⟩
  have hrun := h.running
  have hclean := h.clean
  have hout := h.outside
  unfold LogState.advance at hs
  generalize s.phase = ph at hs hrun hup
  cases ph with
  | off | recovering t | recovered => cases hrun
  | up => exact absurd rfl hup
  | writeLog t | install t =>
    dsimp only at hs
    split_ifs at hs <;> obtain rfl := Option.some.inj hs
    · exact ⟨rfl, hclean, fun _ _ => .inl hc, hout⟩
    · exact ⟨rfl, hclean, fun _ _ => .inl hc, hout⟩
  | finish =>
    cases hs
    exact .of_nil rfl hclean rfl

/-- **One call keeps the books and wakes whom it must.** -/
theorem callStep_inv {c : LogCall P} (hs : callStep lg c s = some s') (h : s.Book ∧ s.Sleepers) :
    s'.Book ∧ s'.Sleepers := by
  obtain ⟨hb, hsl⟩ := h
  cases c with
  | beginOp p =>
    obtain ⟨⟨hp, hsleep⟩, rfl⟩ := of_guard hs
    exact ⟨hb.beginOp hsl.running hp, hsl.beginOp hp hsleep⟩
  | logWrite p b =>
    obtain ⟨o, -, ho, -, rfl⟩ := of_opOf hs
    exact ⟨hb.logWrite ho b, hsl.logWrite o b⟩
  | endOp p =>
    obtain ⟨o, -, ho, -, rfl⟩ := of_opOf hs
    refine ⟨hb.endOp ho fun x hx => ?_, hsl.endOp o⟩
    rw [hsl.clean] at hx
    cases hx
  | rouse p =>
    cases hs
    refine ⟨hb.asleep _, hsl.running, hsl.clean, fun q hq => ?_, fun q hq => ?_⟩
    · exact hsl.waits q (mem_of_mem_filter hq)
    · exact hsl.outside q (mem_of_mem_filter hq)
  | advance => exact ⟨hb.advance hs, hsl.advance hb hs⟩

omit [DecidableEq P] in
theorem booted_book (disk : ℕ → B) (head : LogHeader) (block : ℕ → ℕ) :
    Book (booted (P := P) disk head block) where
  outstanding := rfl
  procs := nodup_nil
  nums o ho := by cases ho
  busy _ := rfl
  committing := by simp [booted, Committing]
  dirty x hx := by cases hx
  quiet _ _ := ⟨rfl, rfl, fun _ => rfl⟩
  cleared _ := rfl
  calls _ b := Iff.rfl
  distinct _ := nodup_nil
  mods tx htx m hm := by
    rw [mem_singleton.mp htx] at hm
    cases hm
  order := pairwise_singleton _ _
  later tx htx := by cases htx

theorem Called.inv (h : s.Called lg) : s.Book ∧ s.Sleepers := by
  obtain ⟨disk, head, block, h⟩ := h
  refine h.invariant (I := fun s => s.Book ∧ s.Sleepers) ⟨booted_book disk head block, ?_⟩
    fun c t u ht _ hs => callStep_inv hs ht
  exact .of_nil rfl rfl rfl

/-- **Admission to the log cannot wedge.** In every run, `outstanding` is the number of operations
between `begin_op` and `end_op`, the table is empty when there are none and nobody commits, and its
blocks are distinct. Nobody sleeps in `begin_op` whom the test of `begin_op` would let in. So `end_op` does
not find a commit going on, and who sleeps waits for a commit or for an operation of somebody else. -/
theorem log_admission {P B : Type*} [DecidableEq P] (lg : LogArea) (s : LogState P B)
    (h : s.Called lg) :
    s.outstanding = s.active.length ∧ (s.active.map LogOp.proc).Nodup ∧
    (s.committing = false → s.outstanding = 0 → s.lh.n = 0) ∧
    s.lh.blocks.Nodup ∧
    (∀ p ∈ s.asleep, ¬ (s.committing = false ∧
      s.lh.n + (s.outstanding + 1) * MAXOPBLOCKS ≤ LOGSIZE)) ∧
    (∀ p o, s.opOf p = some o → s.committing = false) ∧
    (∀ p ∈ s.asleep, s.committing = true ∨ ∃ o ∈ s.active, o.proc ≠ p) := by
  obtain ⟨hb, hsl⟩ := h.inv
  have hempty : s.committing = false → s.active = [] → s.lh.n = 0 := fun hc ha => by
    have hup : s.phase = .up := by
      by_contra hne
      rw [hb.committing.mpr ⟨hsl.running, hne⟩] at hc
      cases hc
    exact (hb.quiet ha hsl.running).2.2 hup
  refine ⟨hb.outstanding, hb.procs, fun hc h0 => hempty hc ?_, hb.distinct hsl.running,
    fun p hp hfree => ?_, fun p o ho => hb.not_committing (opOf_mem ho).1, fun p hp => ?_⟩
  · exact length_eq_zero_iff.mp (hb.outstanding ▸ h0)
  · rcases hsl.waits p hp with hc | hfull
    · rw [hfree.1] at hc
      cases hc
    · exact Nat.not_le_of_lt hfull hfree.2
  · by_cases ha : s.active = []
    · -- an empty log has room for one operation
      refine .inl (by_contra fun hc => ?_)
      have hc := eq_false_of_ne_true hc
      rcases hsl.waits p hp with hc' | hfull
      · rw [hc] at hc'
        cases hc'
      · rw [hempty hc ha, hb.outstanding, ha, length_nil] at hfull
        exact absurd hfull (by decide)
    · obtain ⟨o, ho⟩ := exists_mem_of_ne_nil _ ha
      exact .inr ⟨o, ho, hsl.outside p hp o ho⟩

/-- Three operations are let in, and the fourth process sleeps. -/
theorem log_admission_fourth_waits :
    ∃ s : LogState (Fin 4) ℕ, s.Called ⟨2, LOGSIZE⟩ ∧ (3 : Fin 4) ∈ s.asleep ∧
      (s.committing = true ∨ ∃ o ∈ s.active, o.proc ≠ 3) := by
  have hrun : (run (callStep ⟨2, LOGSIZE⟩) anyEvent
      [.beginOp (0 : Fin 4), .beginOp 1, .beginOp 2, .beginOp 3]
      (booted (fun _ => 0) ⟨0, fun _ => 0⟩ fun _ => 0)).any
      (fun s => decide ((3 : Fin 4) ∈ s.asleep)) = true := by
    decide +kernel
  obtain ⟨s, hr, hs⟩ := exists_reaches_of_run hrun
  have hreach : s.Called ⟨2, LOGSIZE⟩ := ⟨_, _, _, hr⟩
  exact ⟨s, hreach, hs, (log_admission _ s hreach).2.2.2.2.2.2 3 hs⟩

end LogState

end Xv6
