import Mathlib.Data.List.Nodup
import Mathlib.Order.Nat
import Xv6.Fs.Log

/-!
# The redo log is atomic with respect to crashes

Two invariants of the log, one about who is in an operation and whose modifications are in which
transaction (`Book`), one about what the disk stands for in each phase (`Stored`).

**The disk.** At every moment there is a number `k` of transactions, at least the finished ones
and at most those whose commit has started, such that replaying the log on the disk gives the
blocks after these `k` transactions. Before the header is written the log is empty and the home
blocks are those of the finished transactions. Writing the header makes it one transaction more,
at once: the log then holds the new contents of every block that differs. Copying home changes
nothing that a replay would not write again, and once all is copied the log may be emptied.

Main result: `log_crash_atomic`.
-/

open Function List Nat Transition

namespace Xv6

/-! ## Headers -/

namespace LogHeader

variable {h h' : LogHeader} {b : ℕ}

theorem mem_blocks : b ∈ h.blocks ↔ ∃ i < h.n, h.block i = b := by
  simp [blocks]

/-- `log_write` finds the entry of the block, if there is one. -/
theorem find_spec (h : LogHeader) (b : ℕ) :
    (h.find b < h.n ∧ h.block (h.find b) = b) ∨ h.find b = h.n ∧ b ∉ h.blocks := by
  unfold find
  cases hf : (range h.n).find? fun i => decide (h.block i = b) with
  | some i =>
    have hi := mem_of_find?_eq_some hf
    exact .inl ⟨mem_range.mp hi, by simpa using find?_some hf⟩
  | none =>
    refine .inr ⟨rfl, fun hb => ?_⟩
    obtain ⟨i, hi, hib⟩ := mem_blocks.mp hb
    have := find?_eq_none.mp hf i (mem_range.mpr hi)
    simp [hib] at this

/-- The headers have the same entries. -/
def Same (h h' : LogHeader) : Prop := h.n = h'.n ∧ ∀ i < h.n, h.block i = h'.block i

theorem copy_same (h old : LogHeader) : Same h (h.copy old) :=
  ⟨rfl, fun _ hi => (if_pos hi).symm⟩

theorem Same.symm (hs : Same h h') : Same h' h :=
  ⟨hs.1.symm, fun i hi => (hs.2 i (hs.1 ▸ hi)).symm⟩

end LogHeader

namespace LogState

open Redo

variable {P B : Type*} {lg : LogArea} {s s' : LogState P B}

theorem Sound.of_same {h h' : LogHeader} (hs : h.Same h') (hh : Sound lg h) : Sound lg h' where
  home i hi := by
    rw [← hs.1] at hi
    rw [← hs.2 i hi]
    exact hh.home i hi
  room i hi := hh.room i (hs.1 ▸ hi)

theorem Sound.of_zero {h : LogHeader} (h0 : h.n = 0) : Sound lg h where
  home i hi := by omega
  room i hi := by omega

theorem logEntry_cases (s : LogState P B) (b : ℕ) : (b ∈ s.lh.blocks ∧ s.logEntry b = s.lh) ∨
      b ∉ s.lh.blocks ∧ s.logEntry b = ⟨s.lh.n + 1, update s.lh.block s.lh.n b⟩ := by
  rcases s.lh.find_spec b with ⟨hlt, hb⟩ | ⟨heq, hb⟩
  · refine .inl ⟨LogHeader.mem_blocks.mpr ⟨_, hlt, hb⟩, ?_⟩
    have hne : s.lh.find b ≠ s.lh.n := by omega
    have hsame : update s.lh.block (s.lh.find b) b = s.lh.block := by
      rw [update_eq_self_iff]
      exact hb.symm
    simp [logEntry, hne, hsame]
  · exact .inr ⟨hb, by simp [logEntry, heq]⟩

theorem logEntry_blocks (s : LogState P B) (b : ℕ) :
    (s.logEntry b).blocks = if b ∈ s.lh.blocks then s.lh.blocks else s.lh.blocks ++ [b] := by
  rcases s.logEntry_cases b with ⟨hb, he⟩ | ⟨hb, he⟩
  · rw [he, if_pos hb]
  · rw [he, if_neg hb]
    simp only [LogHeader.blocks, range_succ, map_append, map_cons, map_nil, update_self]
    congr 1
    apply map_congr_left
    intro i hi
    exact update_of_ne (mem_range.mp hi).ne _ _

theorem logEntry_sound (h : Sound lg s.lh) {b : ℕ} (hb : lg.Home b) (hbig : ¬ s.TooBig lg) :
    Sound lg (s.logEntry b) := by
  rcases s.logEntry_cases b with ⟨-, he⟩ | ⟨-, he⟩
  · rwa [he]
  · rw [he]
    constructor
    · intro i hi
      by_cases hin : i = s.lh.n
      · simpa [hin] using hb
      · simpa [hin] using h.home i (by simp only at hi; omega)
    · intro i hi
      simp only [TooBig, not_or] at hbig
      simp only at hi
      omega

/-! ## Operations and transactions -/

/-- `commit` is being executed. -/
def Committing (s : LogState P B) : Prop := s.phase.running = true ∧ s.phase ≠ .up

/-- All the operations of the first transaction are earlier than those of the second. -/
def Earlier (tx tx' : List (LogMod B)) : Prop := ∀ m ∈ tx, ∀ m' ∈ tx', m.op < m'.op

/-- Who is in an operation, and whose modifications are in which transaction. -/
structure Book (s : LogState P B) : Prop where
  outstanding : s.outstanding = s.active.length
  procs : (s.active.map LogOp.proc).Nodup
  nums : ∀ o ∈ s.active, o.num < s.nextOp
  /-- operations run only while nobody commits -/
  busy : s.active ≠ [] → s.phase = .up
  committing : s.committing = true ↔ s.Committing
  dirty : ∀ x ∈ s.dirty, ∃ o ∈ s.active, o.proc = x.1
  /-- the transaction is open as long as it has operations -/
  quiet : s.active = [] → s.phase.running = true →
    s.cur = [] ∧ s.calls = [] ∧ (s.phase = .up → s.lh.n = 0)
  cleared : s.phase = .recovered ∨ s.phase = .finish → s.lh.n = 0
  calls : s.phase = .up → ∀ b, b ∈ s.calls ↔ b ∈ s.lh.blocks
  distinct : s.phase.running = true → s.lh.blocks.Nodup
  mods : ∀ tx ∈ s.txs ++ [s.cur], ∀ m ∈ tx, m.op < s.nextOp
  order : (s.txs ++ [s.cur]).Pairwise Earlier
  later : ∀ tx ∈ s.txs, ∀ m ∈ tx, ∀ o ∈ s.active, m.op < o.num

theorem Book.asleep (h : s.Book) (xs : List P) : Book { s with asleep := xs } := { h with }

theorem Book.up (h : s.Book) {o : LogOp P} (ho : o ∈ s.active) : s.phase = .up :=
  h.busy (ne_nil_of_mem ho)

theorem Book.not_committing (h : s.Book) {o : LogOp P} (ho : o ∈ s.active) :
    s.committing = false := by
  by_contra hc
  rw [Bool.not_eq_false, h.committing] at hc
  exact hc.2 (h.up ho)

theorem Book.of_off (hp : s.phase = .off) (ha : s.active = []) (ho : s.outstanding = 0)
    (hc : s.committing = false) (hd : s.dirty = [])
    (hmods : ∀ tx ∈ s.txs ++ [s.cur], ∀ m ∈ tx, m.op < s.nextOp)
    (horder : (s.txs ++ [s.cur]).Pairwise Earlier) : s.Book := by
  constructor
  case mods => exact hmods
  case order => exact horder
  all_goals simp [Committing, LogPhase.running, hp, ha, ho, hc, hd]

theorem powerOff_book (lg : LogArea) (disk : ℕ → B) (head : LogHeader) :
    Book (powerOff (P := P) lg disk head) :=
  .of_off rfl rfl rfl rfl rfl (by simp [powerOff]) (pairwise_singleton _ _)

theorem Book.modify (h : s.Book) {o : LogOp P} (ho : o ∈ s.active) (b : ℕ) (v : B) :
    (s.modify o b v).Book := by
  refine
    { h with
      dirty := ?_
      quiet := fun he => absurd he (ne_nil_of_mem ho)
      mods := ?_
      order := ?_ }
  · intro x hx
    rcases mem_cons.mp hx with rfl | hx
    · exact ⟨o, ho, rfl⟩
    · exact h.dirty x hx
  · intro tx htx m hm
    rcases mem_append.mp htx with htx | htx
    · exact h.mods tx (mem_append_left _ htx) m hm
    · rw [mem_singleton] at htx
      subst htx
      rcases mem_append.mp hm with hm | hm
      · exact h.mods s.cur (by simp) m hm
      · rw [mem_singleton] at hm
        subst hm
        exact h.nums o ho
  · have horder := pairwise_append.mp h.order
    refine pairwise_append.mpr ⟨horder.1, pairwise_singleton _ _, ?_⟩
    intro tx htx tx' htx' m hm m' hm'
    rw [mem_singleton] at htx'
    subst htx'
    rcases mem_append.mp hm' with hm' | hm'
    · exact horder.2.2 tx htx s.cur (by simp) m hm m' hm'
    · rw [mem_singleton] at hm'
      subst hm'
      exact h.later tx htx m hm o ho

section

variable [DecidableEq P]

theorem opOf_mem {p : P} {o : LogOp P} (h : s.opOf p = some o) : o ∈ s.active ∧ o.proc = p :=
  ⟨mem_of_find?_eq_some h, by simpa using find?_some h⟩

theorem of_opOf {p : P} {c : LogOp P → Prop} [DecidablePred c] {f : LogOp P → LogState P B}
    (hs : ((s.opOf p).bind fun o => if c o then some (f o) else none) = some s') :
    ∃ o, s.opOf p = some o ∧ o ∈ s.active ∧ c o ∧ f o = s' := by
  obtain ⟨o, ho, hs⟩ := Option.bind_eq_some_iff.mp hs
  obtain ⟨hc, he⟩ := of_guard hs
  exact ⟨o, ho, (opOf_mem ho).1, hc, he⟩

theorem Book.beginOp (h : s.Book) {p : P} (hr : s.phase.running = true) (hp : s.opOf p = none) :
    (s.beginOp p).Book := by
  unfold LogState.beginOp
  split_ifs with hc hfull
  · exact h.asleep _
  · exact h.asleep _
  · have hup : s.phase = .up := by
      by_contra hne
      exact hc (h.committing.mpr ⟨hr, hne⟩)
    have hnew : ∀ tx ∈ s.txs, ∀ m ∈ tx, m.op < s.nextOp :=
      fun tx htx => h.mods tx (mem_append_left _ htx)
    refine
      { h with
        outstanding := by simp [h.outstanding]
        procs := ?_
        nums := ?_
        busy := fun _ => hup
        dirty := ?_
        quiet := fun he => by cases he
        mods := fun tx htx m hm => lt_succ_of_lt (h.mods tx htx m hm)
        later := ?_ }
    · rw [map_cons, nodup_cons]
      refine ⟨fun hmem => ?_, h.procs⟩
      obtain ⟨o, ho, rfl⟩ := mem_map.mp hmem
      have := find?_eq_none.mp hp o ho
      simp at this
    · intro o ho
      rcases mem_cons.mp ho with rfl | ho
      · exact lt_succ_self _
      · exact lt_succ_of_lt (h.nums o ho)
    · intro x hx
      obtain ⟨o, ho, hox⟩ := h.dirty x hx
      exact ⟨o, mem_cons_of_mem _ ho, hox⟩
    · intro tx htx m hm o ho
      rcases mem_cons.mp ho with rfl | ho
      · exact hnew tx htx m hm
      · exact h.later tx htx m hm o ho

variable {o : LogOp P} (h : s.Book) (ho : o ∈ s.active)

include h ho

theorem Book.logWrite (b : ℕ) : (s.logWrite o b).Book := by
  have hup := h.up ho
  -- the entries of `active` keep their process and number
  have hmem : ∀ x ∈ (s.logWrite o b).active, ∃ y ∈ s.active, x.proc = y.proc ∧ x.num = y.num := by
    intro x hx
    obtain ⟨y, hy, rfl⟩ := mem_map.mp hx
    refine ⟨y, hy, ?_⟩
    split_ifs <;> exact ⟨rfl, rfl⟩
  have hprocs : (s.logWrite o b).active.map LogOp.proc = s.active.map LogOp.proc := by
    simp only [LogState.logWrite, map_map]
    apply map_congr_left
    intro x _
    simp only [comp_apply]
    split_ifs <;> rfl
  refine
    { h with
      outstanding := by simp [LogState.logWrite, h.outstanding]
      procs := hprocs ▸ h.procs
      nums := ?_
      busy := fun _ => hup
      dirty := ?_
      quiet := fun he => absurd (map_eq_nil_iff.mp he) (ne_nil_of_mem ho)
      cleared := fun hc => absurd hc (by simp [LogState.logWrite, hup])
      calls := ?_
      distinct := ?_
      later := ?_ }
  · intro x hx
    obtain ⟨y, hy, -, hnum⟩ := hmem x hx
    exact hnum ▸ h.nums y hy
  · intro x hx
    obtain ⟨y, hy, hyx⟩ := h.dirty x (mem_of_mem_filter hx)
    have : x.1 ∈ (s.logWrite o b).active.map LogOp.proc := hprocs ▸ mem_map.mpr ⟨y, hy, hyx⟩
    exact mem_map.mp this
  · intro _ b'
    show b' ∈ b :: s.calls ↔ b' ∈ (s.logEntry b).blocks
    rw [logEntry_blocks, mem_cons, h.calls hup]
    split_ifs with hb
    · exact ⟨fun h => h.elim (fun e => e ▸ hb) id, .inr⟩
    · rw [mem_append, mem_singleton, or_comm]
  · intro hr
    show (s.logEntry b).blocks.Nodup
    have hd := h.distinct hr
    rw [logEntry_blocks]
    split_ifs with hb
    · exact hd
    · rw [nodup_append]
      refine ⟨hd, nodup_singleton b, ?_⟩
      intro x hx y hy
      rw [mem_singleton] at hy
      exact fun e => hb (hy ▸ e ▸ hx)
  · intro tx htx m hm x hx
    obtain ⟨y, hy, -, hnum⟩ := hmem x hx
    exact hnum ▸ h.later tx htx m hm y hy

theorem Book.length_filter :
    (s.active.filter fun x => decide (x.proc ≠ o.proc)).length = s.outstanding - 1 := by
  have hmap : (s.active.filter fun x => decide (x.proc ≠ o.proc)).map LogOp.proc =
      (s.active.map LogOp.proc).erase o.proc := by
    rw [h.procs.erase_eq_filter, filter_map]
    congr 1
    apply filter_congr
    intro x _
    by_cases hx : x.proc = o.proc <;> simp [hx]
  rw [← length_map (f := LogOp.proc), hmap,
    length_erase_of_mem (mem_map_of_mem ho), length_map, h.outstanding]

theorem Book.endOp (hdirty : ∀ x ∈ s.dirty, x.1 ≠ o.proc) : (s.endOp o).Book := by
  have hup := h.up ho
  have hlen := h.length_filter ho
  have hsub : ∀ x ∈ s.active.filter fun x => decide (x.proc ≠ o.proc), x ∈ s.active :=
    fun x hx => mem_of_mem_filter hx
  have hprocs : ((s.active.filter fun x => decide (x.proc ≠ o.proc)).map LogOp.proc).Nodup :=
    h.procs.sublist (filter_sublist.map _)
  have hd : ∀ x ∈ s.dirty, ∃ y ∈ s.active.filter fun x => decide (x.proc ≠ o.proc),
      y.proc = x.1 := by
    intro x hx
    obtain ⟨y, hy, hyx⟩ := h.dirty x hx
    exact ⟨y, mem_filter.mpr ⟨hy, by simpa [hyx] using hdirty x hx⟩, hyx⟩
  by_cases h0 : s.outstanding - 1 = 0
  · -- the transaction is closed, and its commit starts
    have hnil := length_eq_zero_iff.mp (hlen.trans h0)
    have hph : ∀ {ph : LogPhase}, ph = (if s.lh.n > 0 then LogPhase.writeLog 0 else .finish) →
        ph.running = true ∧ ph ≠ .up ∧ (ph = .recovered ∨ ph = .finish → s.lh.n = 0) := by
      rintro ph rfl
      split_ifs with hn
      · exact ⟨rfl, by decide, by simp⟩
      · exact ⟨rfl, by decide, fun _ => by omega⟩
    obtain ⟨hr, hne, hcl⟩ := hph rfl
    rw [show s.endOp o = _ from if_pos h0]
    refine
      { outstanding := hlen.symm
        procs := hprocs
        nums := fun x hx => h.nums x (hsub x hx)
        busy := fun hb => absurd hnil hb
        committing := ⟨fun _ => ⟨hr, hne⟩, fun _ => rfl⟩
        dirty := hd
        quiet := fun _ _ => ⟨rfl, rfl, fun hup => absurd hup hne⟩
        cleared := hcl
        calls := fun hup => absurd hup hne
        distinct := fun _ => h.distinct (by rw [hup]; rfl)
        mods := ?_
        order := ?_
        later := fun tx _ m _ x hx => ?_ }
    · intro tx htx m hm
      rcases mem_append.mp htx with htx | htx
      · exact h.mods tx htx m hm
      · rw [mem_singleton.mp htx] at hm
        cases hm
    · refine pairwise_append.mpr ⟨h.order, pairwise_singleton _ _, ?_⟩
      intro tx _ tx' htx' m _ m' hm'
      rw [mem_singleton.mp htx'] at hm'
      cases hm'
    · rw [hnil] at hx
      cases hx
  · rw [show s.endOp o = _ from if_neg h0]
    exact
      { h with
        outstanding := hlen.symm
        procs := hprocs
        nums := fun x hx => h.nums x (hsub x hx)
        busy := fun _ => hup
        dirty := hd
        quiet := fun hnil => absurd (hlen.symm.trans (length_eq_zero_iff.mpr hnil)) h0
        later := fun tx htx m hm x hx => h.later tx htx m hm x (hsub x hx) }

end

section

variable (h : s.Book)

include h

/-- A step of `commit` or `recover_from_log`, which only moves blocks and changes the phase. -/
theorem Book.rephase (ha : s.active = []) {disk mem : ℕ → B} {head lh : LogHeader} {ph : LogPhase}
    (hr : ph.running = s.phase.running) (hne : ph ≠ .up) (hold : s.phase ≠ .up)
    (hcl : ph = .recovered ∨ ph = .finish → lh.n = 0) (hd : s.lh.blocks.Nodup → lh.blocks.Nodup) :
    Book { s with disk := disk, mem := mem, head := head, lh := lh, phase := ph } where
  __ := h
  busy hb := absurd ha hb
  committing := by
    rw [h.committing]
    exact ⟨fun hc => ⟨hr.trans hc.1, hne⟩, fun hc => ⟨hr.symm.trans hc.1, hold⟩⟩
  quiet _ hr' := by
    obtain ⟨hcur, hcalls, -⟩ := h.quiet ha (hr.symm.trans hr')
    exact ⟨hcur, hcalls, fun hup => absurd hup hne⟩
  cleared := hcl
  calls hup := absurd hup hne
  distinct hr' := hd (h.distinct (hr.symm.trans hr'))

theorem Book.advance (hs : s.advance lg = some s') : s'.Book := by
  have ha : s.phase ≠ .up → s.active = [] := fun hne => by_contra fun hn => hne (h.busy hn)
  have hnil : ∀ f : ℕ → ℕ, (LogHeader.mk 0 f).blocks.Nodup := fun _ => by simp [LogHeader.blocks]
  unfold LogState.advance at hs
  generalize hph : s.phase = ph at hs
  cases ph with
  | off | recovered | up => cases hs
  | recovering t | install t =>
    have ha := ha (by simp [hph])
    dsimp only at hs
    split_ifs at hs with ht <;> obtain rfl := Option.some.inj hs
    · exact h.rephase ha (by simp [hph, LogPhase.running]) (by simp) (by simp [hph]) (by simp) id
    · exact h.rephase ha (by simp [hph, LogPhase.running]) (by simp) (by simp [hph])
        (fun _ => rfl) fun _ => hnil _
  | writeLog t =>
    have ha := ha (by simp [hph])
    dsimp only at hs
    split_ifs at hs with ht <;> obtain rfl := Option.some.inj hs
    · exact h.rephase ha (by simp [hph, LogPhase.running]) (by simp) (by simp [hph]) (by simp) id
    · exact h.rephase ha (by simp [hph, LogPhase.running]) (by simp) (by simp [hph]) (by simp) id
  | finish =>
    cases hs
    have ha := ha (by simp [hph])
    obtain ⟨hcur, hcalls, -⟩ := h.quiet ha (by simp [hph, LogPhase.running])
    have h0 := h.cleared (.inr hph)
    refine
      { h with
        busy := fun _ => rfl
        committing := by simp [Committing]
        quiet := fun _ _ => ⟨hcur, hcalls, fun _ => h0⟩
        cleared := by simp
        calls := fun _ b => ?_
        distinct := fun _ => h.distinct (by simp [hph, LogPhase.running]) }
    simp [hcalls, LogHeader.blocks, h0]

theorem Book.crash : s.crash.Book :=
  .of_off rfl rfl rfl rfl rfl h.mods h.order

theorem Book.initlog (hp : s.phase = .off) : s.initlog.Book := by
  have ha : s.active = [] := by_contra fun hn => by simpa [hp] using h.busy hn
  exact
    { h with
      busy := fun hb => absurd ha hb
      committing := by
        rw [show s.initlog.committing = s.committing from rfl, h.committing]
        simp [Committing, LogState.initlog, hp, LogPhase.running]
      quiet := fun _ hr => by simp [LogState.initlog, LogPhase.running] at hr
      cleared := fun hc => by simp [LogState.initlog] at hc
      calls := fun hup => by simp [LogState.initlog] at hup
      distinct := fun hr => by simp [LogState.initlog, LogPhase.running] at hr }

theorem Book.start (hp : s.phase = .recovered) : s.start.Book := by
  have h0 := h.cleared (.inl hp)
  have hblocks : s.lh.blocks = [] := by simp [LogHeader.blocks, h0]
  exact
    { h with
      busy := fun _ => rfl
      committing := by
        rw [show s.start.committing = s.committing from rfl, h.committing]
        simp [Committing, LogState.start, hp, LogPhase.running]
      quiet := fun _ _ => ⟨rfl, rfl, fun _ => h0⟩
      cleared := fun hc => by simp [LogState.start] at hc
      calls := fun _ b => by
        show b ∈ [] ↔ b ∈ s.lh.blocks
        rw [hblocks]
      distinct := fun _ => by
        show s.lh.blocks.Nodup
        rw [hblocks]
        exact nodup_nil
      mods := fun tx htx m hm => by
        rw [mem_singleton.mp htx] at hm
        cases hm
      order := pairwise_singleton _ _
      later := fun tx htx => by cases htx }

end

theorem step_book [DecidableEq P] {e : Event P B} (hs : step lg e s = some s') (h : s.Book) :
    s'.Book := by
  cases e with
  | beginOp p =>
    obtain ⟨⟨hr, hp, -⟩, rfl⟩ := of_guard hs
    exact h.beginOp hr hp
  | modify p b v =>
    obtain ⟨o, -, ho, -, rfl⟩ := of_opOf hs
    exact h.modify ho b v
  | logWrite p b =>
    obtain ⟨o, -, ho, -, rfl⟩ := of_opOf hs
    exact h.logWrite ho b
  | endOp p =>
    obtain ⟨o, hp, ho, ⟨hd, -⟩, rfl⟩ := of_opOf hs
    exact h.endOp ho fun x hx => (opOf_mem hp).2 ▸ hd x hx
  | rouse p =>
    cases hs
    exact h.asleep _
  | advance => exact h.advance hs
  | crash =>
    cases hs
    exact h.crash
  | initlog =>
    obtain ⟨hp, rfl⟩ := of_guard hs
    exact h.initlog hp
  | start =>
    obtain ⟨hp, rfl⟩ := of_guard hs
    exact h.start hp

/-! ## What the disk stands for -/

/-- `m` holds the blocks after the first `k` transactions. -/
def Holds (lg : LogArea) (s : LogState P B) (k : ℕ) (m : ℕ → B) : Prop :=
  ∀ b, lg.Home b → m b = after s.base (s.txs.take k).flatten b

/-- `k` transactions, among them the finished ones. -/
def Whole (s : LogState P B) (k : ℕ) : Prop := s.finished ≤ k ∧ k ≤ s.txs.length

/-- While `recover_from_log` installs. -/
structure Recovering (lg : LogArea) (s : LogState P B) (t : ℕ) : Prop where
  mem : s.mem = s.disk
  same : s.lh.Same s.head
  tail : t ≤ s.lh.n
  replay : ∃ k, s.Whole k ∧ s.Holds lg k (apply (entries lg s.head s.disk) s.disk) ∧
    s.Holds lg k (apply ((entries lg s.head s.disk).drop t) s.disk)

structure Up (lg : LogArea) (s : LogState P B) : Prop where
  head : s.head.n = 0
  finished : s.finished = s.txs.length
  disk : s.Holds lg s.txs.length s.disk
  mem : ∀ b, lg.Home b → s.mem b = after s.base (s.txs.flatten ++ s.cur) b
  clean : ∀ b, lg.Home b → b ∉ s.lh.blocks → (∀ x ∈ s.dirty, x.2 ≠ b) → s.mem b = s.disk b

structure Commit (lg : LogArea) (s : LogState P B) : Prop where
  finished : s.finished + 1 = s.txs.length
  mem : ∀ b, lg.Home b → s.mem b = after s.base s.txs.flatten b
  clean : ∀ b, lg.Home b → b ∉ s.lh.blocks → s.mem b = s.disk b

/-- The first `t` blocks have been copied to the log. -/
def Copied (lg : LogArea) (s : LogState P B) (t : ℕ) : Prop :=
  ∀ i < t, s.disk (lg.start + i + 1) = s.mem (s.lh.block i) ∧
    s.mem (lg.start + i + 1) = s.mem (s.lh.block i)

structure WritingLog (lg : LogArea) (s : LogState P B) (t : ℕ) : Prop extends Commit lg s where
  head : s.head.n = 0
  tail : t ≤ s.lh.n
  disk : s.Holds lg s.finished s.disk
  copied : s.Copied lg t

structure Installing (lg : LogArea) (s : LogState P B) (t : ℕ) : Prop extends Commit lg s where
  same : s.lh.Same s.head
  tail : t ≤ s.lh.n
  copied : s.Copied lg s.lh.n
  installed : ∀ i < t, s.disk (s.lh.block i) = s.mem (s.lh.block i)

/-- What the disk and the cache hold in each phase. -/
def PhaseInv (lg : LogArea) (s : LogState P B) : Prop :=
  match s.phase with
  | .off => ∃ k, s.Whole k ∧ s.Holds lg k (apply (entries lg s.head s.disk) s.disk)
  | .recovering t => s.Recovering lg t
  | .recovered => s.head.n = 0 ∧ s.mem = s.disk ∧ ∃ k, s.Whole k ∧ s.Holds lg k s.disk
  | .up => s.Up lg
  | .writeLog t => s.WritingLog lg t
  | .install t => s.Installing lg t
  | .finish => s.Commit lg ∧ s.head.n = 0 ∧ s.lh.n = 0

structure Stored (lg : LogArea) (s : LogState P B) : Prop where
  lh : Sound lg s.lh
  head : Sound lg s.head
  phase : s.PhaseInv lg

/-! ### Log blocks and home blocks -/

theorem not_home_log {i : ℕ} (hi : i + 1 < lg.size) : ¬ lg.Home (lg.start + i + 1) := by
  simp only [LogArea.Home, not_or]
  omega

theorem home_ne_log {b i : ℕ} (hb : lg.Home b) (hi : i + 1 < lg.size) : b ≠ lg.start + i + 1 := by
  rintro rfl
  exact not_home_log hi hb

theorem entries_of_zero {h : LogHeader} {disk : ℕ → B} (h0 : h.n = 0) : entries lg h disk = [] := by
  simp [entries, h0]

theorem entries_fst (h : LogHeader) (disk : ℕ → B) :
    (entries lg h disk).map Prod.fst = h.blocks := by
  simp [entries, LogHeader.blocks, comp_def]

theorem entries_update {h : LogHeader} (hh : Sound lg h) {disk : ℕ → B} {b : ℕ} {v : B}
    (hb : lg.Home b) : entries lg h (update disk b v) = entries lg h disk := by
  apply map_congr_left
  intro i hi
  have hi := hh.room i (mem_range.mp hi)
  rw [update_of_ne (home_ne_log hb hi).symm]

theorem after_append (base : ℕ → B) (ms ms' : List (LogMod B)) :
    after base (ms ++ ms') = after (after base ms) ms' := by
  rw [after, map_append, apply_append]
  rfl

theorem Holds.congr {k : ℕ} {m m' : ℕ → B} (h : s.Holds lg k m)
    (hm : ∀ b, lg.Home b → m' b = m b) : s.Holds lg k m' :=
  fun b hb => (hm b hb).trans (h b hb)

theorem Holds.replay {k : ℕ} (h : s.Holds lg k s.disk) (h0 : s.head.n = 0) :
    s.Holds lg k (apply (entries lg s.head s.disk) s.disk) := by
  rw [entries_of_zero h0]
  exact h

/-! ### Each step -/

theorem powerOff_stored (disk : ℕ → B) {head : LogHeader} (h : Sound lg head) :
    Stored lg (powerOff (P := P) lg disk head) where
  lh := Sound.of_zero rfl
  head := h
  phase := ⟨0, ⟨le_refl 0, zero_le _⟩, fun _ _ => rfl⟩

theorem Up.modify (h : s.Up lg) (o : LogOp P) (b : ℕ) (v : B) : (s.modify o b v).Up lg where
  head := h.head
  finished := h.finished
  disk := h.disk
  mem b' hb' := by
    show update s.mem b v b' = after s.base (s.txs.flatten ++ (s.cur ++ [⟨o.num, b, v⟩])) b'
    rw [← append_assoc, after_append]
    by_cases hbb : b' = b
    · subst hbb
      simp [after]
    · simpa [after, hbb] using h.mem b' hb'
  clean b' hb' hlh hd := by
    have hbb : b' ≠ b := fun e => hd (o.proc, b) mem_cons_self e.symm
    rw [show (s.modify o b v).mem b' = s.mem b' from update_of_ne hbb _ _]
    exact h.clean b' hb' hlh fun x hx => hd x (mem_cons_of_mem _ hx)

theorem Up.logWrite [DecidableEq P] (h : s.Up lg) (o : LogOp P) (b : ℕ) :
    (s.logWrite o b).Up lg where
  head := h.head
  finished := h.finished
  disk := h.disk
  mem := h.mem
  clean b' hb' hlh hd := by
    have hlh' : b' ∉ s.lh.blocks ∧ b' ≠ b := by
      have := hlh
      rw [show (s.logWrite o b).lh.blocks = _ from logEntry_blocks s b] at this
      split_ifs at this with hb
      · exact ⟨this, fun e => this (e ▸ hb)⟩
      · simpa using this
    refine h.clean b' hb' hlh'.1 fun x hx hxb => ?_
    by_cases hx' : x = (o.proc, b)
    · exact hlh'.2 (by rw [← hxb, hx'])
    · exact hd x (mem_filter.mpr ⟨hx, by simpa using hx'⟩) hxb

/-- The transaction is closed: every block that differs from the disk is in the table. -/
theorem Up.commit (h : s.Up lg) (hd : s.dirty = []) (hcur : s'.txs = s.txs ++ [s.cur])
    (hbase : s'.base = s.base) (hfin : s'.finished = s.finished) (hmem : s'.mem = s.mem)
    (hdisk : s'.disk = s.disk) (hlh : s'.lh = s.lh) :
    s'.Commit lg ∧ s'.Holds lg s'.finished s'.disk := by
  refine ⟨⟨?_, ?_, ?_⟩, ?_⟩
  · rw [hfin, hcur, h.finished, length_append, length_singleton]
  · intro b hb
    rw [hmem, hbase, hcur, flatten_append, flatten_singleton]
    exact h.mem b hb
  · intro b hb hbl
    rw [hmem, hdisk]
    exact h.clean b hb (hlh ▸ hbl) (by simp [hd])
  · intro b hb
    rw [hdisk, hbase, hcur, hfin, h.finished, take_left]
    simpa using h.disk b hb

theorem WritingLog.writeLogOne {t : ℕ} (h : s.WritingLog lg t) (hlh : Sound lg s.lh)
    (ht : t < s.lh.n) :
    WritingLog lg { s.writeLogOne lg t with phase := .writeLog (t + 1) } (t + 1) := by
  have hhome : ∀ (m : ℕ → B) v b, lg.Home b →
      update m (lg.start + t + 1) v b = m b := fun m v b hb =>
    update_of_ne (home_ne_log hb (hlh.room t ht)) _ _
  refine
    { finished := h.finished
      mem := fun b hb => (hhome _ _ b hb).trans (h.mem b hb)
      clean := fun b hb hbl => ?_
      head := h.head
      tail := ht
      disk := h.disk.congr fun b hb => hhome _ _ b hb
      copied := ?_ }
  · show update s.mem _ _ b = update s.disk _ _ b
    rw [hhome _ _ b hb, hhome _ _ b hb]
    exact h.clean b hb hbl
  · intro i hi
    show update s.disk _ _ _ = update s.mem _ _ (s.lh.block i) ∧
      update s.mem _ _ _ = update s.mem _ _ (s.lh.block i)
    rw [hhome _ _ _ (hlh.home i (by omega))]
    by_cases hit : i = t
    · subst hit
      simp
    · have hne : lg.start + i + 1 ≠ lg.start + t + 1 := by omega
      rw [update_of_ne hne, update_of_ne hne]
      exact h.copied i (by omega)

theorem WritingLog.writeHead {t : ℕ} (h : s.WritingLog lg t) (ht : ¬ t < s.lh.n) :
    Installing lg { s.writeHead with phase := .install 0 } 0 where
  finished := h.finished
  mem := h.mem
  clean := h.clean
  same := s.lh.copy_same s.head
  tail := zero_le _
  copied := fun i hi => h.copied i (by have : i < s.lh.n := hi; omega)
  installed i hi := absurd hi (not_lt_zero i)

theorem Installing.installOne {t : ℕ} (h : s.Installing lg t) (hlh : Sound lg s.lh)
    (ht : t < s.lh.n) :
    Installing lg { s.installOne lg t with phase := .install (t + 1) } (t + 1) := by
  have hb := hlh.home t ht
  -- the buffer already holds what is copied into it
  have hv := (h.copied t ht).2
  have hmem : update s.mem (s.lh.block t) (s.mem (lg.start + t + 1)) = s.mem := by
    rw [update_eq_self_iff, hv]
  have hother : ∀ b, b ≠ s.lh.block t →
      update s.disk (s.lh.block t) (s.mem (lg.start + t + 1)) b = s.disk b :=
    fun b hne => update_of_ne hne _ _
  unfold LogState.installOne
  dsimp only
  rw [hmem]
  refine
    { finished := h.finished
      mem := h.mem
      clean := fun b hbh hbl => ?_
      same := h.same
      tail := ht
      copied := fun i hi => ?_
      installed := fun i hi => ?_ }
  · have hne : b ≠ s.lh.block t := fun e => hbl (LogHeader.mem_blocks.mpr ⟨t, ht, e.symm⟩)
    exact (h.clean b hbh hbl).trans (hother b hne).symm
  · have hne := (home_ne_log hb (hlh.room i hi)).symm
    exact ⟨(hother _ hne).trans (h.copied i hi).1, (h.copied i hi).2⟩
  · by_cases hit : s.lh.block i = s.lh.block t
    · show update s.disk _ _ (s.lh.block i) = s.mem (s.lh.block i)
      rw [hit, update_self, hv]
    · show update s.disk _ _ (s.lh.block i) = s.mem (s.lh.block i)
      rw [hother _ hit]
      refine h.installed i ?_
      have : i ≠ t := fun e => hit (e ▸ rfl)
      omega

theorem Installing.clearHead {t : ℕ} (h : s.Installing lg t) (ht : ¬ t < s.lh.n) :
    Commit lg { s.clearHead with phase := .finish } where
  finished := h.finished
  mem := h.mem
  clean b hb _ := by
    by_cases hbl : b ∈ s.lh.blocks
    · obtain ⟨i, hi, rfl⟩ := LogHeader.mem_blocks.mp hbl
      exact (h.installed i (by omega)).symm
    · exact h.clean b hb hbl

/-- A replay of the log gives the contents of the cache. -/
theorem Installing.replay {t : ℕ} (h : s.Installing lg t) :
    s.Holds lg s.txs.length (apply (entries lg s.head s.disk) s.disk) := by
  have hvalues : ∀ w ∈ entries lg s.head s.disk, w.2 = s.mem w.1 := by
    intro w hw
    obtain ⟨i, hi, rfl⟩ := mem_map.mp hw
    have hi : i < s.lh.n := h.same.1 ▸ mem_range.mp hi
    rw [← h.same.2 i hi]
    exact (h.copied i hi).1
  have hkeys : s.lh.blocks = s.head.blocks := by
    rw [LogHeader.blocks, LogHeader.blocks, ← h.same.1]
    exact map_congr_left fun i hi => h.same.2 i (mem_range.mp hi)
  intro b hb
  rw [take_length, ← h.mem b hb]
  by_cases hbl : b ∈ s.head.blocks
  · exact apply_of_values hvalues (by rwa [entries_fst])
  · rw [apply_of_notMem (by rwa [entries_fst])]
    exact (h.clean b hb (hkeys ▸ hbl)).symm

theorem Recovering.installOne {t : ℕ} (h : s.Recovering lg t) (hlh : Sound lg s.lh)
    (hhead : Sound lg s.head) (ht : t < s.lh.n) :
    Recovering lg { s.installOne lg t with phase := .recovering (t + 1) } (t + 1) := by
  have hb := hlh.home t ht
  obtain ⟨k, hk, hall, hrest⟩ := h.replay
  have hlen : t < (entries lg s.head s.disk).length := by
    simpa [entries, ← h.same.1] using ht
  have hget : (entries lg s.head s.disk)[t] = (s.lh.block t, s.disk (lg.start + t + 1)) := by
    simp [entries, h.same.2 t ht]
  unfold LogState.installOne
  dsimp only
  rw [h.mem]
  refine { mem := rfl, same := h.same, tail := ht, replay := ⟨k, hk, ?_, ?_⟩ }
  · show s.Holds lg k (apply (entries lg s.head (update s.disk _ _)) _)
    rw [entries_update hhead hb, apply_update_of_mem]
    · exact hall
    · rw [entries_fst, LogHeader.mem_blocks]
      exact ⟨t, h.same.1 ▸ ht, (h.same.2 t ht).symm⟩
  · show s.Holds lg k (apply ((entries lg s.head (update s.disk _ _)).drop (t + 1)) _)
    rw [entries_update hhead hb]
    rw [drop_eq_getElem_cons hlen, hget, apply_cons] at hrest
    exact hrest

theorem Recovering.clearHead {t : ℕ} (h : s.Recovering lg t) (ht : ¬ t < s.lh.n) :
    PhaseInv lg { s.clearHead with phase := .recovered } := by
  obtain ⟨k, hk, -, hrest⟩ := h.replay
  refine ⟨rfl, h.mem, k, hk, ?_⟩
  rwa [drop_of_length_le] at hrest
  simpa [entries, ← h.same.1] using ht

theorem Stored.advance (h : s.Stored lg) (hb : s.Book) (hs : s.advance lg = some s') :
    s'.Stored lg := by
  have hphase := h.phase
  unfold LogState.advance at hs
  unfold PhaseInv at hphase
  generalize hph : s.phase = ph at hs hphase
  cases ph with
  | off | recovered | up => cases hs
  | recovering t =>
    dsimp only at hs
    split_ifs at hs with ht <;> obtain rfl := Option.some.inj hs
    · exact ⟨h.lh, h.head, hphase.installOne h.lh h.head ht⟩
    · exact ⟨Sound.of_zero rfl, Sound.of_zero rfl, hphase.clearHead ht⟩
  | writeLog t =>
    dsimp only at hs
    split_ifs at hs with ht <;> obtain rfl := Option.some.inj hs
    · exact ⟨h.lh, h.head, hphase.writeLogOne h.lh ht⟩
    · exact ⟨h.lh, h.lh.of_same (s.lh.copy_same s.head), hphase.writeHead ht⟩
  | install t =>
    dsimp only at hs
    split_ifs at hs with ht <;> obtain rfl := Option.some.inj hs
    · exact ⟨h.lh, h.head, hphase.installOne h.lh ht⟩
    · exact ⟨Sound.of_zero rfl, Sound.of_zero rfl, hphase.clearHead ht, rfl, rfl⟩
  | finish =>
    cases hs
    obtain ⟨hc, hhead, hlh⟩ := hphase
    have ha : s.active = [] := by_contra fun hn => by simpa [hph] using hb.busy hn
    obtain ⟨hcur, -⟩ := hb.quiet ha (by simp [hph, LogPhase.running])
    have hclean : ∀ b, lg.Home b → s.mem b = s.disk b := fun b hbh =>
      hc.clean b hbh (by simp [LogHeader.blocks, hlh])
    refine ⟨h.lh, h.head, ⟨hhead, hc.finished, ?_, ?_, fun b hbh _ _ => hclean b hbh⟩⟩
    · intro b hbh
      show s.disk b = after s.base (s.txs.take s.txs.length).flatten b
      rw [take_length, ← hclean b hbh]
      exact hc.mem b hbh
    · intro b hbh
      show s.mem b = after s.base (s.txs.flatten ++ s.cur) b
      rw [hcur, append_nil]
      exact hc.mem b hbh

theorem Up.phaseInv (h : s.Up lg) (hp : s.phase = .up) : s.PhaseInv lg := by
  rwa [PhaseInv, hp]

theorem Stored.up (h : s.Stored lg) (hb : s.Book) {o : LogOp P} (ho : o ∈ s.active) : s.Up lg := by
  have := h.phase
  rwa [PhaseInv, hb.up ho] at this

theorem Stored.crash (h : s.Stored lg) : s.crash.Stored lg := by
  refine ⟨Sound.of_zero rfl, h.head, ?_⟩
  show ∃ k, s.Whole k ∧ s.Holds lg k (apply (entries lg s.head s.disk) s.disk)
  have hphase := h.phase
  unfold PhaseInv at hphase
  generalize s.phase = ph at hphase
  cases ph with
  | off => exact hphase
  | recovering t =>
    obtain ⟨k, hk, hall, -⟩ := hphase.replay
    exact ⟨k, hk, hall⟩
  | recovered =>
    obtain ⟨h0, -, k, hk, hd⟩ := hphase
    exact ⟨k, hk, hd.replay h0⟩
  | up =>
    exact ⟨_, ⟨hphase.finished.le, le_refl _⟩, hphase.disk.replay hphase.head⟩
  | writeLog t =>
    have := hphase.finished
    exact ⟨_, ⟨le_refl _, by omega⟩, hphase.disk.replay hphase.head⟩
  | install t =>
    have := hphase.finished
    exact ⟨_, ⟨by omega, le_refl _⟩, hphase.replay⟩
  | finish =>
    obtain ⟨hc, h0, hlh⟩ := hphase
    have := hc.finished
    refine ⟨_, ⟨by omega, le_refl s.txs.length⟩, Holds.replay (fun b hb => ?_) h0⟩
    rw [take_length, ← hc.mem b hb]
    exact (hc.clean b hb (by simp [LogHeader.blocks, hlh])).symm

/-- The disk and the cache stand for the same whoever is in an operation or asleep. -/
theorem Stored.frame (h : s.Stored lg) (outstanding nextOp : ℕ) (active : List (LogOp P))
    (asleep : List P) :
    Stored lg { s with
      outstanding := outstanding, active := active, asleep := asleep, nextOp := nextOp } := by
  refine ⟨h.lh, h.head, ?_⟩
  have hphase := h.phase
  unfold PhaseInv at hphase ⊢
  dsimp only
  generalize s.phase = ph at hphase ⊢
  cases ph with
  | off | recovered => exact hphase
  | recovering t | up | writeLog t | install t => exact { hphase with }
  | finish => exact ⟨{ hphase.1 with }, hphase.2⟩

theorem Stored.endOp [DecidableEq P] (h : s.Stored lg) (hb : s.Book) {o : LogOp P}
    (ho : o ∈ s.active) (hdirty : ∀ x ∈ s.dirty, x.1 ≠ o.proc) : (s.endOp o).Stored lg := by
  have hup := h.up hb ho
  by_cases h0 : s.outstanding - 1 = 0
  · -- nobody is left who could have a modified block
    have hnil := length_eq_zero_iff.mp ((hb.length_filter ho).trans h0)
    have hd : s.dirty = [] := by
      by_contra hne
      obtain ⟨x, hx⟩ := exists_mem_of_ne_nil _ hne
      obtain ⟨y, hy, hyx⟩ := hb.dirty x hx
      have : y ∈ s.active.filter fun x => decide (x.proc ≠ o.proc) :=
        mem_filter.mpr ⟨hy, by simpa [hyx] using hdirty x hx⟩
      rw [hnil] at this
      cases this
    have hclose : Commit lg (s.endOp o) ∧ Holds lg (s.endOp o) s.finished s.disk := by
      rw [show s.endOp o = _ from if_pos h0]
      exact hup.commit hd rfl rfl rfl rfl rfl rfl
    rw [show s.endOp o = _ from if_pos h0] at hclose ⊢
    refine ⟨h.lh, h.head, ?_⟩
    obtain ⟨hc, hdisk⟩ := hclose
    by_cases hn : s.lh.n > 0
    · simp only [PhaseInv, hn, if_true] at hc hdisk ⊢
      exact ⟨hc, hup.head, zero_le _, hdisk, fun i hi => absurd hi (not_lt_zero i)⟩
    · simp only [PhaseInv, hn, if_false] at hc ⊢
      exact ⟨hc, hup.head, by omega⟩
  · rw [show s.endOp o = _ from if_neg h0]
    exact h.frame _ _ _ _

theorem step_stored [DecidableEq P] {e : Event P B} (hs : step lg e s = some s') (hb : s.Book)
    (h : s.Stored lg) : s'.Stored lg := by
  cases e with
  | beginOp p =>
    obtain ⟨-, rfl⟩ := of_guard hs
    unfold LogState.beginOp
    split_ifs <;> exact h.frame _ _ _ _
  | modify p b v =>
    obtain ⟨o, -, ho, -, rfl⟩ := of_opOf hs
    exact ⟨h.lh, h.head, ((h.up hb ho).modify o b v).phaseInv (hb.up ho)⟩
  | logWrite p b =>
    obtain ⟨o, -, ho, ⟨hbh, -, hbig⟩, rfl⟩ := of_opOf hs
    exact ⟨logEntry_sound h.lh hbh hbig, h.head, ((h.up hb ho).logWrite o b).phaseInv (hb.up ho)⟩
  | endOp p =>
    obtain ⟨o, hp, ho, ⟨hd, -⟩, rfl⟩ := of_opOf hs
    exact h.endOp hb ho fun x hx => (opOf_mem hp).2 ▸ hd x hx
  | rouse p =>
    cases hs
    exact h.frame _ _ _ _
  | advance => exact h.advance hb hs
  | crash =>
    cases hs
    exact h.crash
  | initlog =>
    obtain ⟨hp, rfl⟩ := of_guard hs
    have hphase := h.phase
    simp only [PhaseInv, hp] at hphase
    obtain ⟨k, hk, hall⟩ := hphase
    have hsame := s.head.copy_same s.lh
    exact ⟨h.head.of_same hsame, h.head, rfl, hsame.symm, zero_le _, k, hk, hall, hall⟩
  | start =>
    obtain ⟨hp, rfl⟩ := of_guard hs
    have hphase := h.phase
    simp only [PhaseInv, hp] at hphase
    obtain ⟨h0, hmem, -⟩ := hphase
    exact ⟨h.lh, h.head, h0, rfl, fun _ _ => rfl, fun b _ => congrFun hmem b,
      fun b _ _ _ => congrFun hmem b⟩

/-! ## Crash atomicity -/

section

variable [DecidableEq P]

theorem ReachableBy.inv {ok : Event P B → LogState P B → Prop} (h : s.ReachableBy lg ok) :
    s.Book ∧ s.Stored lg := by
  obtain ⟨disk, head, hh, hr⟩ := h
  refine hr.invariant (I := fun s => s.Book ∧ s.Stored lg)
    ⟨powerOff_book lg disk head, powerOff_stored disk hh⟩ ?_
  rintro e t u ⟨hb, hst⟩ - hs
  exact ⟨step_book hs hb, step_stored hs hb hst⟩

/-- **Crash atomicity.** In whatever state the machine went down, and however often it went down
again while it recovered: when `recover_from_log` has returned, the blocks outside the log are as
the first `k` transactions since the last boot left them, and these contain all whose `end_op` has
returned. No operation has modifications in two transactions, or in a transaction and in what had
not been committed. -/
theorem log_crash_atomic (lg : LogArea) (s : LogState P B) (h : s.Reachable lg)
    (hrec : s.phase = .recovered) :
    (∃ k, s.finished ≤ k ∧ k ≤ s.txs.length ∧
      ∀ b, lg.Home b → s.disk b = after s.base (s.txs.take k).flatten b) ∧
    (s.txs ++ [s.cur]).Pairwise fun tx tx' => ∀ m ∈ tx, ∀ m' ∈ tx', m.op ≠ m'.op := by
  obtain ⟨hb, hst⟩ := ReachableBy.inv h
  have hphase := hst.phase
  simp only [PhaseInv, hrec] at hphase
  obtain ⟨-, -, k, hk, hd⟩ := hphase
  refine ⟨⟨k, hk.1, hk.2, hd⟩, hb.order.imp ?_⟩
  intro tx tx' hlt m hm m' hm'
  exact (hlt m hm m' hm').ne

/-- A blank disk is booted and an operation writes `7` to block `40`. The power fails when the
header has been written, and again when the block has been copied home. -/
def twoCrashes : List (Event ℕ ℕ) :=
  [.initlog, .advance, .start, .beginOp 0, .modify 0 40 7, .logWrite 0 40, .endOp 0, .advance,
    .advance, .crash, .initlog, .advance, .crash, .initlog, .advance, .advance]

/-- After that the operation is there as a whole. -/
theorem log_crash_atomic_two_crashes :
    ∃ s : LogState ℕ ℕ, s.Reachable ⟨2, LOGSIZE⟩ ∧ s.disk 40 = 7 ∧
      ∃ k, s.finished ≤ k ∧ k ≤ s.txs.length ∧
        ∀ b, LogArea.Home ⟨2, LOGSIZE⟩ b → s.disk b = after s.base (s.txs.take k).flatten b := by
  have hrun : (run (step ⟨2, LOGSIZE⟩) anyEvent twoCrashes
      (powerOff ⟨2, LOGSIZE⟩ (fun _ => 0) ⟨0, fun _ => 0⟩)).any
      (fun s => decide (s.phase = .recovered ∧ s.disk 40 = 7)) = true := by decide +kernel
  obtain ⟨s, hr, hrec, hdisk⟩ := exists_reaches_of_run hrun
  have hreach : s.Reachable ⟨2, LOGSIZE⟩ := ⟨_, _, Sound.of_zero rfl, hr⟩
  exact ⟨s, hreach, hdisk, (log_crash_atomic _ s hreach hrec).1⟩

end

end LogState

end Xv6
