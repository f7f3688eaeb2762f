import Xv6.Lib.Monitor
import Xv6.Lib.RingBuffer
import Xv6.Lib.Transition

/-!
# Pipes

`pipewrite`, `piperead` and `pipeclose` of `kernel/pipe.c`, called by any number of processes. A stretch
of code that holds `pi->lock` is one step: from the entry of a call, or from the return of `sleep`, to the
next `sleep` or the end of the call. `sleep` and `wakeup` are atomic with respect to `pi->lock`.

**User memory.** The source of a write gives the bytes that can be copied in; the destination of a read
says which bytes can be copied out.

**Ghost state.** `accepted` are the bytes that writes have stored in the pipe, in the order of the steps,
and `delivered` those that reads have copied out. No code reads them.

**Freeing.** When both ends are closed the page is freed, and there are no more steps.

Main results: `pipe_fifo`, `pipe_sleepers` and `piperead_removes`.
-/

open List Nat Transition

namespace Xv6

open Monitor

abbrev PIPESIZE : ℕ := 512

theorem pipeSize : RingBuffer.Size PIPESIZE := ⟨by decide, by decide, by decide⟩

/-- `struct pipe`, less its spinlock, with the bytes written and read so far. -/
structure Pipe where
  data : ℕ → UInt8
  nread : UInt32
  nwrite : UInt32
  readopen : Bool
  writeopen : Bool
  accepted : List UInt8
  delivered : List UInt8

namespace Pipe

/-- A new pipe, in a page with any contents. -/
def pipealloc (data : ℕ → UInt8) : Pipe where
  data := data
  nread := 0
  nwrite := 0
  readopen := true
  writeopen := true
  accepted := []
  delivered := []

/-- `pi->nread == pi->nwrite` -/
def Empty (pi : Pipe) : Prop := pi.nread = pi.nwrite

instance (pi : Pipe) : Decidable pi.Empty := inferInstanceAs (Decidable (_ = _))

/-- `pi->nwrite == pi->nread + PIPESIZE` -/
def Full (pi : Pipe) : Prop := pi.nwrite = pi.nread + UInt32.ofNat PIPESIZE

instance (pi : Pipe) : Decidable pi.Full := inferInstanceAs (Decidable (_ = _))

/-- The bytes in the pipe, the oldest first. -/
def queued (pi : Pipe) : List UInt8 :=
  RingBuffer.window pi.data PIPESIZE pi.nread (pi.nwrite - pi.nread).toNat

/-- `pi->data[pi->nwrite++ % PIPESIZE] = ch` -/
def putc (ch : UInt8) (pi : Pipe) : Pipe :=
  { pi with
    data := RingBuffer.store pi.data PIPESIZE pi.nwrite ch
    nwrite := pi.nwrite + 1
    accepted := pi.accepted ++ [ch] }

/-- `ch = pi->data[pi->nread++ % PIPESIZE]`, copied out or not. -/
def getc (copied : Bool) (pi : Pipe) : Pipe :=
  { pi with
    nread := pi.nread + 1
    delivered := pi.delivered ++
      if copied then [RingBuffer.read pi.data PIPESIZE pi.nread] else [] }

end Pipe

/-! ## The loops -/

/-- How a stretch of `pipewrite` ends. -/
inductive WriteEnd
  /-- the loop has ended -/
  | done
  /-- `sleep(&pi->nwrite, &pi->lock)` -/
  | full
  /-- `return -1` -/
  | fail
  deriving DecidableEq, Repr

/-- The loop of `pipewrite`, with `k` bytes left: how it ends, and the number of bytes written. -/
def pipewriteLoop (src : ℕ → Option UInt8) (killed : Bool) : ℕ → ℕ → Pipe → WriteEnd × ℕ × Pipe
  | 0, i, pi => (.done, i, pi)
  | k + 1, i, pi =>
    if pi.readopen = false ∨ killed = true then (.fail, i, pi)
    else if pi.Full then (.full, i, pi)
    else
      match src i with
      | none => (.done, i, pi)
      | some ch => pipewriteLoop src killed k (i + 1) (pi.putc ch)

/-- The second loop of `piperead`, with `k` bytes left: the number of bytes read. -/
def pipereadLoop (dst : ℕ → Bool) : ℕ → ℕ → Pipe → ℕ × Pipe
  | 0, i, pi => (i, pi)
  | k + 1, i, pi =>
    if pi.Empty then (i, pi)
    else if dst i then pipereadLoop dst k (i + 1) (pi.getc true)
    else (i, pi.getc false)

/-- A call that a process is in: its arguments, and the bytes written so far. -/
inductive PipeCall
  | write (src : ℕ → Option UInt8) (n : ℤ) (i : ℕ)
  | read (dst : ℕ → Bool) (n : ℤ)

/-- `&pi->nread` and `&pi->nwrite`, as channels. -/
inductive PipeChan
  | nread
  | nwrite
  deriving DecidableEq, Repr

/-- Where the call sleeps. -/
def PipeCall.chan : PipeCall → PipeChan
  | .write .. => .nwrite
  | .read .. => .nread

/-- A pipe and its clients; what is known of a process is whether it has been killed. -/
abbrev PipeState (P : Type*) := Monitor.State P Pipe PipeCall Bool

namespace PipeState

variable {P : Type*}

def wakeup (ch : PipeChan) (s : PipeState P) : PipeState P := s.wakeupOn fun c => c.chan = ch

/-! ## The functions of `pipe.c` -/

def pipeclose (writable : Bool) (s : PipeState P) : PipeState P :=
  if writable then wakeup .nread { s with shared := { s.shared with writeopen := false } }
  else wakeup .nwrite { s with shared := { s.shared with readopen := false } }

variable [DecidableEq P]

def leave (p : P) (pi : Pipe) (s : PipeState P) : PipeState P :=
  s.put p pi { s.client p with call := none }

def sleep (p : P) (c : PipeCall) (pi : Pipe) (s : PipeState P) : PipeState P :=
  s.put p pi { s.client p with call := some (c, true) }

/-- A stretch of `pipewrite`, and what it returns if it ends the call. -/
def pipewrite (p : P) (src : ℕ → Option UInt8) (n : ℤ) (i : ℕ) (s : PipeState P) :
    Option ℤ × PipeState P :=
  match pipewriteLoop src (s.client p).held (n - i).toNat i s.shared with
  | (.fail, _, pi) => (some (-1), s.leave p pi)
  | (.full, i, pi) => (none, (wakeup .nread s).sleep p (.write src n i) pi)
  | (.done, i, pi) => (some i, (wakeup .nread s).leave p pi)

/-- A stretch of `piperead`, and what it returns if it ends the call. -/
def piperead (p : P) (dst : ℕ → Bool) (n : ℤ) (s : PipeState P) : Option ℤ × PipeState P :=
  if s.shared.Empty ∧ s.shared.writeopen = true then
    if (s.client p).held then (some (-1), s.leave p s.shared)
    else (none, s.sleep p (.read dst n) s.shared)
  else
    let (i, pi) := pipereadLoop dst n.toNat 0 s.shared
    (some i, (wakeup .nwrite s).leave p pi)

def stretch (p : P) (c : PipeCall) (s : PipeState P) : Option ℤ × PipeState P :=
  match c with
  | .write src n i => s.pipewrite p src n i
  | .read dst n => s.piperead p dst n

/-- `kill`: a process that sleeps comes back from `sleep`. -/
def kill (p : P) (s : PipeState P) : PipeState P :=
  s.put p s.shared { (s.client p).wake with held := true }

/-! ## Runs -/

/-- The events: `resume` is a process that has been woken and goes on with its call. -/
inductive Event (P : Type*)
  | write (p : P) (src : ℕ → Option UInt8) (n : ℤ)
  | read (p : P) (dst : ℕ → Bool) (n : ℤ)
  | resume (p : P)
  | close (writable : Bool)
  | kill (p : P)

/-- The call of which a stretch is executed. -/
def callOf (e : Event P) (s : PipeState P) : Option (P × PipeCall) :=
  match e with
  | .write p src n => if (s.client p).call.isNone then some (p, .write src n 0) else none
  | .read p dst n => if (s.client p).call.isNone then some (p, .read dst n) else none
  | .resume p =>
    match (s.client p).call with
    | some (c, false) => some (p, c)
    | _ => none
  | _ => none

def step (e : Event P) (s : PipeState P) : Option (PipeState P) :=
  -- otherwise the page has been freed
  if s.shared.readopen ∨ s.shared.writeopen then
    match e with
    | .close writable => some (s.pipeclose writable)
    | .kill p => some (s.kill p)
    | e => (callOf e s).map fun x => (s.stretch x.1 x.2).2
  else none

/-- The call that returns in a step, and its result. -/
def returns (e : Event P) (s : PipeState P) : Option (PipeCall × ℤ) :=
  (callOf e s).bind fun x => (s.stretch x.1 x.2).1.map fun r => (x.2, r)

/-- A new pipe that nobody uses yet. -/
def init (data : ℕ → UInt8) : PipeState P := ⟨.pipealloc data, fun _ => ⟨false, none⟩⟩

/-- The states in runs whose steps all satisfy `ok`. -/
def ReachableBy (ok : Event P → PipeState P → Prop) (s : PipeState P) : Prop :=
  ∃ data, Reaches step ok (init data) s

def Reachable (s : PipeState P) : Prop := ReachableBy anyEvent s

/-- What one step can do. -/
inductive Local (e : Event P) (s : PipeState P) : PipeState P → Prop
  | close {writable : Bool} : e = .close writable → Local e s (s.pipeclose writable)
  | kill {p : P} : e = .kill p → Local e s (s.kill p)
  | stretch {p : P} {c : PipeCall} : callOf e s = some (p, c) → Local e s (s.stretch p c).2

variable {s s' : PipeState P} {e : Event P} {p : P} {pi pi' : Pipe} {c : PipeCall}

theorem step_local (h : step e s = some s') : Local e s s' := by
  unfold step at h
  split_ifs at h
  have hcall : ∀ {e : Event P}, ((callOf e s).map fun x => (s.stretch x.1 x.2).2) = some s' →
      Local e s s' := by
    intro e h
    obtain ⟨⟨p, c⟩, hc, rfl⟩ := Option.map_eq_some_iff.mp h
    exact .stretch hc
  cases e with
  | close writable =>
    cases h
    exact .close rfl
  | kill p =>
    cases h
    exact .kill rfl
  | write p src n | read p dst n | resume p => exact hcall h

/-! ## Sleepers -/

/-- **Who sleeps has to wait.** -/
structure Waits (s : PipeState P) : Prop where
  reader : ∀ p dst n, s.Asleep p (.read dst n) → s.shared.Empty ∧ s.shared.writeopen = true
  writer : ∀ p src n i, s.Asleep p (.write src n i) → s.shared.Full ∧ s.shared.readopen = true

/-- A loop of `pipewrite` that fails fails at once: nobody else holds the lock. -/
theorem pipewriteLoop_fail {src : ℕ → Option UInt8} {killed : Bool} {k i i' : ℕ}
    (h : pipewriteLoop src killed k i pi = (.fail, i', pi')) :
    pi' = pi ∧ (pi.readopen = false ∨ killed = true) := by
  induction k generalizing i pi with
  | zero => cases h
  | succ k ih =>
    unfold pipewriteLoop at h
    split_ifs at h with hf hfull
    · obtain ⟨-, rfl⟩ := Prod.mk.inj (Prod.mk.inj h).2
      exact ⟨rfl, hf⟩
    · cases h
    · cases hc : src i with
      | none =>
        rw [hc] at h
        cases h
      | some ch =>
        rw [hc] at h
        exact absurd (ih h).2 hf

theorem pipewriteLoop_full {src : ℕ → Option UInt8} {killed : Bool} {k i i' : ℕ}
    (h : pipewriteLoop src killed k i pi = (.full, i', pi')) : pi'.Full ∧ pi'.readopen = true := by
  induction k generalizing i pi with
  | zero => cases h
  | succ k ih =>
    unfold pipewriteLoop at h
    split_ifs at h with hf hfull
    · cases h
    · obtain ⟨-, rfl⟩ := Prod.mk.inj (Prod.mk.inj h).2
      exact ⟨hfull, eq_true_of_ne_false fun ho => hf (.inl ho)⟩
    · cases hc : src i with
      | none =>
        rw [hc] at h
        cases h
      | some ch =>
        rw [hc] at h
        exact ih h

theorem pipewriteLoop_of_full {src : ℕ → Option UInt8} {killed : Bool} (k i : ℕ) (h : pi.Full) :
    (pipewriteLoop src killed k i pi).2.2 = pi := by
  cases k with
  | zero => rfl
  | succ k =>
    unfold pipewriteLoop
    rw [if_pos h]
    split_ifs <;> rfl

/-- One client changes, and nobody else who sleeps is concerned. -/
theorem Waits.put {c : Client PipeCall Bool}
    (hreader : ∀ q dst n, q ≠ p → s.Asleep q (.read dst n) → pi.Empty ∧ pi.writeopen = true)
    (hwriter : ∀ q src n i, q ≠ p → s.Asleep q (.write src n i) → pi.Full ∧ pi.readopen = true)
    (hself : ∀ k, c.call = some (k, true) → match k with
      | .read .. => pi.Empty ∧ pi.writeopen = true
      | .write .. => pi.Full ∧ pi.readopen = true) : Waits (s.put p pi c) where
  reader q dst n hq := State.asleep_put (hself (.read dst n)) (fun q => hreader q dst n) q hq
  writer q src n i hq := State.asleep_put (hself (.write src n i)) (fun q => hwriter q src n i) q hq

omit [DecidableEq P] in
theorem not_asleep_wakeup (ch : PipeChan) (q : P) (h : (s.wakeup ch).Asleep q c) :
    s.Asleep q c ∧ c.chan ≠ ch := State.asleep_wakeupOn h

theorem Waits.pipewrite (h : Waits s) (src : ℕ → Option UInt8) (n : ℤ) (i : ℕ) :
    Waits (s.pipewrite p src n i).2 := by
  unfold PipeState.pipewrite
  -- writers that sleep have found the pipe full, and then it is as it was
  have hkeep : ∀ q src' n' i', s.Asleep q (.write src' n' i') →
      (pipewriteLoop src (s.client p).held (n - i).toNat i s.shared).2.2 = s.shared :=
    fun q src' n' i' hq => pipewriteLoop_of_full _ _ (h.writer q src' n' i' hq).1
  have hreader : ∀ q dst n, (s.wakeup .nread).Asleep q (.read dst n) → False :=
    fun q dst n hq => (not_asleep_wakeup _ q hq).2 rfl
  cases hl : pipewriteLoop src (s.client p).held (n - i).toNat i s.shared with
  | mk w rest =>
    obtain ⟨i', pi'⟩ := rest
    rw [hl] at hkeep
    cases w with
    | fail =>
      obtain ⟨rfl, -⟩ := pipewriteLoop_fail hl
      exact .put (fun q dst n _ => h.reader q dst n) (fun q src n i _ => h.writer q src n i)
        fun k hk => absurd hk.symm (Option.some_ne_none _)
    | full =>
      refine .put (fun q dst n _ hq => (hreader q dst n hq).elim) (fun q src' n' i'' _ hq => ?_)
        fun k hk => ?_
      · exact pipewriteLoop_full hl
      · obtain ⟨rfl, -⟩ := Prod.mk.inj (Option.some.inj hk)
        exact pipewriteLoop_full hl
    | done =>
      refine .put (fun q dst n _ hq => (hreader q dst n hq).elim) (fun q src' n' i'' _ hq => ?_)
        fun k hk => absurd hk.symm (Option.some_ne_none _)
      have hq := (not_asleep_wakeup _ q hq).1
      have hsame : pi' = s.shared := hkeep q src' n' i'' hq
      rw [hsame]
      exact h.writer q src' n' i'' hq

theorem Waits.piperead (h : Waits s) (dst : ℕ → Bool) (n : ℤ) : Waits (s.piperead p dst n).2 := by
  unfold PipeState.piperead
  split_ifs with hwait hkilled
  · exact .put (fun q dst n _ => h.reader q dst n) (fun q src n i _ => h.writer q src n i)
      fun k hk => absurd hk.symm (Option.some_ne_none _)
  · refine .put (fun q dst n _ => h.reader q dst n) (fun q src n i _ => h.writer q src n i)
      fun k hk => ?_
    obtain ⟨rfl, -⟩ := Prod.mk.inj (Option.some.inj hk)
    exact hwait
  · -- nobody sleeps in `piperead`, as the pipe is not empty or has no write end
    refine .put (fun q dst n _ hq => absurd (h.reader q dst n ?_) hwait) (fun q src n i _ hq => ?_)
      fun k hk => absurd hk.symm (Option.some_ne_none _)
    · exact (not_asleep_wakeup _ q hq).1
    · exact absurd rfl (not_asleep_wakeup _ q hq).2

omit [DecidableEq P] in
theorem Waits.pipeclose (h : Waits s) (writable : Bool) : Waits (s.pipeclose writable) := by
  unfold PipeState.pipeclose
  split_ifs
  · refine ⟨fun q dst n hq => absurd rfl (not_asleep_wakeup _ q hq).2, fun q src n i hq => ?_⟩
    exact h.writer q src n i (not_asleep_wakeup _ q hq).1
  · refine ⟨fun q dst n hq => ?_, fun q src n i hq => absurd rfl (not_asleep_wakeup _ q hq).2⟩
    exact h.reader q dst n (not_asleep_wakeup _ q hq).1

theorem Waits.kill (h : Waits s) (p : P) : Waits (s.kill p) := by
  refine .put (fun q dst n _ => h.reader q dst n) (fun q src n i _ => h.writer q src n i) fun k hk => ?_
  simp [Client.wake] at hk

theorem Local.waits (hl : Local e s s') (h : Waits s) : Waits s' := by
  cases hl with
  | close _ => exact h.pipeclose _
  | kill _ => exact h.kill _
  | @stretch p c _ =>
    cases c with
    | write src n i => exact h.pipewrite src n i
    | read dst n => exact h.piperead dst n

/-- **Nobody sleeps on a ready pipe.** -/
theorem pipe_sleepers {P : Type*} [DecidableEq P] (s : PipeState P) (h : Reachable s) :
    (∀ p dst n, s.Asleep p (.read dst n) →
      s.shared.nread = s.shared.nwrite ∧ s.shared.writeopen = true) ∧
    (∀ p src n i, s.Asleep p (.write src n i) →
      s.shared.nwrite = s.shared.nread + UInt32.ofNat PIPESIZE ∧ s.shared.readopen = true) := by
  obtain ⟨data, h⟩ := h
  have hw : Waits s := by
    refine h.invariant (I := Waits) ⟨fun p dst n hp => ?_, fun p src n i hp => ?_⟩
      fun e t u ht _ hs => (step_local hs).waits ht
    · cases hp
    · cases hp
  exact ⟨hw.reader, hw.writer⟩

/-- The process sleeps in `pipewrite`. -/
def sleepsInWrite (p : P) (s : PipeState P) : Bool :=
  match (s.client p).call with
  | some (.write .., true) => true
  | _ => false

/-- One byte more than fits is written, and the writer sleeps. -/
theorem pipe_sleepers_of_large_write :
    ∃ s : PipeState (Fin 1), Reachable s ∧ (∃ src n i, s.Asleep 0 (.write src n i)) ∧
      s.shared.nwrite = s.shared.nread + UInt32.ofNat PIPESIZE := by
  have hrun : (run step anyEvent
      [.write (0 : Fin 1) (fun _ => some 0) (PIPESIZE + 1)] (init fun _ => 0)).any
      (fun s => decide (sleepsInWrite 0 s = true)) = true := by decide +kernel
  obtain ⟨s, hr, hs⟩ := exists_reaches_of_run hrun
  have hreach : Reachable s := ⟨_, hr⟩
  have hsleep : ∃ src n i, s.Asleep 0 (.write src n i) := by
    unfold sleepsInWrite at hs
    split at hs
    · next src n i hc => exact ⟨src, n, i, hc⟩
    · cases hs
  obtain ⟨src, n, i, hp⟩ := hsleep
  exact ⟨s, hreach, ⟨src, n, i, hp⟩, ((pipe_sleepers s hreach).2 0 src n i hp).1⟩

/-! ## Bytes -/

open RingBuffer in
/-- **The pipe has the bytes `q`**: those accepted and not yet delivered. -/
structure Fifo (pi : Pipe) (q : List UInt8) : Prop where
  holds : Holds pi.data PIPESIZE pi.nread pi.nwrite q
  bytes : pi.accepted = pi.delivered ++ q

variable {q : List UInt8} {ch : UInt8}

theorem Fifo.putc (h : Fifo pi q) (hfull : ¬ pi.Full) (ch : UInt8) : Fifo (pi.putc ch) (q ++ [ch]) where
  holds := by
    have hne : q.length ≠ PIPESIZE := fun he => hfull ((h.holds.full_iff pipeSize).mpr he)
    have hle := h.holds.fits
    exact h.holds.push pipeSize (by omega) ch
  bytes := by
    show pi.accepted ++ [ch] = pi.delivered ++ (q ++ [ch])
    rw [h.bytes, append_assoc]

/-- **The loop of `pipewrite` appends bytes of the source**, in order. -/
theorem pipewriteLoop_fifo (src : ℕ → Option UInt8) (killed : Bool) (k i : ℕ) (h : Fifo pi q) :
    ∃ l, Fifo (pipewriteLoop src killed k i pi).2.2 (q ++ l) ∧
      (pipewriteLoop src killed k i pi).2.2.accepted = pi.accepted ++ l ∧
      (pipewriteLoop src killed k i pi).2.2.delivered = pi.delivered ∧
      (pipewriteLoop src killed k i pi).2.1 = i + l.length ∧
      l.map some = (range l.length).map fun j => src (i + j) := by
  have hstop : ∃ l, Fifo pi (q ++ l) ∧ pi.accepted = pi.accepted ++ l ∧
      pi.delivered = pi.delivered ∧ i = i + l.length ∧
      l.map some = (range l.length).map fun j => src (i + j) :=
    ⟨[], by rwa [append_nil], (append_nil _).symm, rfl, rfl, rfl⟩
  induction k generalizing i pi q with
  | zero => exact hstop
  | succ k ih =>
    unfold pipewriteLoop
    split_ifs with hf hfull
    · exact hstop
    · exact hstop
    · cases hc : src i with
      | none => exact hstop
      | some ch =>
        have hnext := h.putc hfull ch
        obtain ⟨l, hl, hacc, hdel, hi, hsrc⟩ := ih (i + 1) hnext
          ⟨[], by rwa [append_nil], (append_nil _).symm, rfl, rfl, rfl⟩
        refine ⟨ch :: l, ?_, ?_, hdel, ?_, ?_⟩
        · rw [append_cons]
          exact hl
        · rw [append_cons]
          exact hacc
        · rw [length_cons, ← add_assoc, add_right_comm]
          exact hi
        · rw [length_cons, range_succ_eq_map, map_cons, map_cons, map_map, add_zero, hc, hsrc]
          refine congrArg _ (map_congr_left fun j _ => congrArg src ?_)
          show i + 1 + j = i + (j + 1)
          omega

/-! ### Reading -/

open RingBuffer in
theorem queued_eq_nil (pi : Pipe) : pi.queued = [] ↔ pi.Empty := by
  rw [← length_eq_zero_iff]
  exact (WrapRing.window_length ..).congr_left.trans toNat_sub_eq_zero

/-- The byte that is read next, copied out or not. -/
theorem queued_getc (copied : Bool) (he : ¬ pi.Empty) :
    pi.queued = RingBuffer.read pi.data PIPESIZE pi.nread :: (pi.getc copied).queued := by
  have hne : (pi.nwrite - pi.nread).toNat ≠ 0 := fun h0 => he (RingBuffer.toNat_sub_eq_zero.mp h0)
  obtain ⟨m, hm⟩ := exists_eq_succ_of_ne_zero hne
  have hpred : (pi.nwrite - (pi.nread + 1)).toNat = m := by
    have hr := pi.nread.toNat_lt
    rw [UInt32.toNat_sub] at hm ⊢
    rw [UInt32.toNat_add, UInt32.toNat_one]
    omega
  show RingBuffer.window _ _ _ (pi.nwrite - pi.nread).toNat =
    _ :: RingBuffer.window _ _ _ (pi.nwrite - (pi.nread + 1)).toNat
  rw [hm, hpred]
  exact WrapRing.window_succ pipeSize.wrap pi.data pi.nread.toNat m

/-- **The loop of `piperead` takes the oldest bytes**, and copies out all but the one at which the
destination cannot be written: that one is `lost`. -/
theorem pipereadLoop_queued (dst : ℕ → Bool) (k i : ℕ) (pi : Pipe) :
    ∃ l lost, pi.queued = l ++ (lost ++ (pipereadLoop dst k i pi).2.queued) ∧
      (pipereadLoop dst k i pi).2.accepted = pi.accepted ∧
      (pipereadLoop dst k i pi).2.delivered = pi.delivered ++ l ∧
      (pipereadLoop dst k i pi).1 = i + l.length ∧ l.length ≤ k ∧ lost.length ≤ 1 ∧
      (lost = [] → l.length < k → (pipereadLoop dst k i pi).2.Empty) ∧
      (lost = [] ↔ ∀ j < k, j < pi.queued.length → dst (i + j) = true) := by
  induction k generalizing i pi with
  | zero =>
    exact ⟨[], [], rfl, rfl, (append_nil _).symm, rfl, le_rfl, zero_le _,
      fun _ hk => absurd hk (not_lt_zero _), by simp⟩
  | succ k ih =>
    unfold pipereadLoop
    by_cases he : pi.Empty
    · rw [if_pos he]
      refine ⟨[], [], rfl, rfl, (append_nil _).symm, rfl, zero_le _, zero_le _, fun _ _ => he, ?_⟩
      simp [(queued_eq_nil pi).mpr he]
    rw [if_neg he]
    split_ifs with hd
    · have hq := queued_getc true he
      obtain ⟨l, lost, hl, hacc, hdel, hi, hle, hone, hend, hlost⟩ := ih (i + 1) (pi.getc true)
      refine ⟨RingBuffer.read pi.data PIPESIZE pi.nread :: l, lost, ?_, hacc, ?_, ?_, ?_, hone, ?_,
        hlost.trans ⟨fun h j hj hlen => ?_, ?_⟩⟩
      · rw [hq, hl]
        rfl
      · rw [hdel]
        exact append_assoc ..
      · rw [hi, length_cons]
        omega
      · rw [length_cons]
        omega
      · intro h hk
        rw [length_cons] at hk
        exact hend h (by omega)
      · rw [hq, length_cons] at hlen
        cases j with
        | zero => exact hd
        | succ j =>
          rw [← add_assoc, add_right_comm]
          exact h j (by omega) (by omega)
      · intro h j hj hlen
        rw [add_right_comm, add_assoc]
        refine h (j + 1) (by omega) ?_
        rw [hq, length_cons]
        omega
    · have hq := queued_getc false he
      refine ⟨[], [_], hq, rfl, rfl, rfl, zero_le _, le_rfl, nofun, ⟨nofun, fun h => ?_⟩⟩
      rw [hq] at h
      exact absurd (h 0 (zero_lt_succ k) (zero_lt_succ _)) hd

theorem Fifo.queued (h : Fifo pi q) : pi.queued = q := by
  unfold Pipe.queued
  rw [h.holds.counters]
  exact h.holds.elements

/-- It ends early only if there are no more bytes. -/
theorem pipereadLoop_fifo {dst : ℕ → Bool} (k : ℕ) (hdst : ∀ j < k, dst j = true) (h : Fifo pi q) :
    ∃ l q', q = l ++ q' ∧ Fifo (pipereadLoop dst k 0 pi).2 q' ∧
      (pipereadLoop dst k 0 pi).2.accepted = pi.accepted ∧
      (pipereadLoop dst k 0 pi).2.delivered = pi.delivered ++ l ∧
      (pipereadLoop dst k 0 pi).1 = l.length ∧ l.length ≤ k ∧ (l.length < k → q' = []) := by
  obtain ⟨l, lost, hl, hacc, hdel, hi, hle, -, hend, hlost⟩ := pipereadLoop_queued dst k 0 pi
  obtain rfl := hlost.mpr fun j hj _ => by rw [zero_add]; exact hdst j hj
  rw [h.queued, nil_append] at hl
  have hfits := h.holds.fits
  rw [hl, length_append] at hfits
  refine ⟨l, _, hl, ⟨⟨(WrapRing.window_length ..).symm, by omega, ?_⟩, ?_⟩, hacc, hdel, ?_, hle,
    fun hk => (queued_eq_nil _).mpr (hend rfl hk)⟩
  · exact congrArg (RingBuffer.window _ _ _) (WrapRing.window_length ..)
  · rw [hacc, hdel, append_assoc, ← hl]
    exact h.bytes
  · rw [hi, zero_add]

/-- **What a read takes from the pipe.** It returns the number of bytes that it has copied out, the
oldest ones in order. It has removed no others exactly if each byte it comes to can be copied out;
otherwise the byte at which the copy fails is lost. -/
theorem piperead_removes {P : Type*} [DecidableEq P] (s : PipeState P) (p : P) (dst : ℕ → Bool) (n r : ℤ)
    (hr : (s.piperead p dst n).1 = some r) (h0 : 0 ≤ r) :
    ∃ l lost, s.shared.queued = l ++ (lost ++ (s.piperead p dst n).2.shared.queued) ∧
      (s.piperead p dst n).2.shared.delivered = s.shared.delivered ++ l ∧ r = l.length ∧
      lost.length ≤ 1 ∧
      (lost = [] ↔ ∀ k < n.toNat, k < s.shared.queued.length → dst k = true) := by
  revert hr
  unfold PipeState.piperead
  split_ifs with hwait hkilled
  · intro hr
    cases hr
    exact absurd h0 (by decide)
  · intro hr
    cases hr
  · intro hr
    obtain ⟨l, lost, hl, -, hdel, hi, -, hone, -, hlost⟩ := pipereadLoop_queued dst n.toNat 0 s.shared
    have hr : (((pipereadLoop dst n.toNat 0 s.shared).1 : ℕ) : ℤ) = r := Option.some.inj hr
    simp only [zero_add] at hi hlost
    exact ⟨l, lost, hl, hdel, by rw [← hr, hi], hone, hlost⟩

/-- Two of three bytes are read into a destination of two bytes, and the third stays. -/
theorem piperead_removes_two :
    ∃ (s : PipeState (Fin 1)) (l lost : List UInt8), s.shared.queued = [1, 2, 3] ∧
      (s.piperead 0 (fun k => k < 2) 2).1 = some (l.length : ℤ) ∧
      s.shared.queued = l ++ (lost ++ (s.piperead 0 (fun k => k < 2) 2).2.shared.queued) ∧ lost = [] := by
  let s : PipeState (Fin 1) := ⟨{ Pipe.pipealloc (fun k => UInt8.ofNat (k + 1)) with nwrite := 3 },
    fun _ => ⟨false, none⟩⟩
  have hr : (s.piperead 0 (fun k => k < 2) 2).1 = some 2 := by decide +kernel
  obtain ⟨l, lost, hl, -, hlen, -, hlost⟩ := piperead_removes s 0 (fun k => k < 2) 2 2 hr (by decide)
  exact ⟨s, l, lost, by decide +kernel, hr.trans (congrArg some hlen), hl,
    hlost.mpr fun k hk _ => decide_eq_true hk⟩

/-- A read into a destination that cannot be written returns 0, and the byte is in the pipe no more. -/
theorem piperead_loses_byte : ∃ s : PipeState (Fin 1), Reachable s ∧ s.shared.queued = [7] ∧
      (s.piperead 0 (fun _ => false) 1).1 = some 0 ∧
      (s.piperead 0 (fun _ => false) 1).2.shared.delivered = [] ∧
      (s.piperead 0 (fun _ => false) 1).2.shared.queued = [] := by
  have hrun : (run step anyEvent [.write (0 : Fin 1) (fun _ => some 7) 1] (init fun _ => 0)).any
      (fun s => decide (s.shared.queued = [7] ∧ (s.piperead 0 (fun _ => false) 1).1 = some 0 ∧
        (s.piperead 0 (fun _ => false) 1).2.shared.delivered = [] ∧
        (s.piperead 0 (fun _ => false) 1).2.shared.queued = [])) = true := by
    decide +kernel
  obtain ⟨s, hr, hs⟩ := exists_reaches_of_run hrun
  exact ⟨s, ⟨_, hr⟩, hs⟩

/-! ### Steps -/

/-- In the stretch of a read that the event executes, the bytes can be copied out. -/
def copiesSucceed (e : Event P) (s : PipeState P) : Prop :=
  match callOf e s with
  | some (_, .read dst n) => ∀ k < n.toNat, dst k = true
  | _ => True

instance (e : Event P) (s : PipeState P) : Decidable (copiesSucceed e s) := by
  unfold copiesSucceed
  split <;> infer_instance

/-- The bytes that a step adds: `l` are accepted and `l'` delivered. -/
structure Moves (s s' : PipeState P) (l l' : List UInt8) : Prop where
  accepted : s'.shared.accepted = s.shared.accepted ++ l
  delivered : s'.shared.delivered = s.shared.delivered ++ l'

omit [DecidableEq P] in
theorem Moves.nothing (ha : s'.shared.accepted = s.shared.accepted)
    (hd : s'.shared.delivered = s.shared.delivered) : Moves s s' [] [] :=
  ⟨by rw [ha, append_nil], by rw [hd, append_nil]⟩

theorem pipewrite_fifo (h : Fifo s.shared q) (p : P) (src : ℕ → Option UInt8) (n : ℤ) (i : ℕ) :
    ∃ l, Fifo (s.pipewrite p src n i).2.shared (q ++ l) ∧ Moves s (s.pipewrite p src n i).2 l [] ∧
      l.map some = (range l.length).map fun k => src (i + k) := by
  obtain ⟨l, hfifo, hacc, hdel, -, hsrc⟩ :=
    pipewriteLoop_fifo src (s.client p).held (n - i).toNat i h
  have hshared : (s.pipewrite p src n i).2.shared =
      (pipewriteLoop src (s.client p).held (n - i).toNat i s.shared).2.2 := by
    unfold PipeState.pipewrite
    split <;> next hl => rw [hl]; rfl
  refine ⟨l, ?_, ⟨?_, ?_⟩, hsrc⟩
  · rw [hshared]
    exact hfifo
  · rw [hshared, hacc]
  · rw [hshared, hdel, append_nil]

theorem piperead_fifo (h : Fifo s.shared q) (p : P) {dst : ℕ → Bool} {n : ℤ}
    (hdst : ∀ k < n.toNat, dst k = true) :
    ∃ l q', Fifo (s.piperead p dst n).2.shared q' ∧ Moves s (s.piperead p dst n).2 [] l ∧
      ∀ r, (s.piperead p dst n).1 = some r → (r = l.length ∨ r = -1 ∧ l = []) ∧ (0 < r → r ≤ n) ∧
        (r = 0 → 0 < n → s.shared.Empty ∧ s.shared.writeopen = false) := by
  unfold PipeState.piperead
  split_ifs with hwait hkilled
  · refine ⟨[], q, h, .nothing rfl rfl, fun r hr => ?_⟩
    cases hr
    exact ⟨.inr ⟨rfl, rfl⟩, by omega, by omega⟩
  · exact ⟨[], q, h, .nothing rfl rfl, fun r hr => by cases hr⟩
  · obtain ⟨l, q', rfl, hfifo, hacc, hdel, hi, hle, hend⟩ :=
      pipereadLoop_fifo n.toNat hdst h
    refine ⟨l, q', hfifo, ⟨by rw [append_nil]; exact hacc, hdel⟩, fun r hr => ?_⟩
    have hr : (((pipereadLoop dst n.toNat 0 s.shared).1 : ℕ) : ℤ) = r := Option.some.inj hr
    rw [hi] at hr
    refine ⟨.inl (by omega), by omega, fun h0 hn => ?_⟩
    -- nothing was read, so that the pipe was empty
    have hl : l = [] := length_eq_zero_iff.mp (by omega)
    subst hl
    have hempty : s.shared.Empty :=
      h.holds.empty_iff.mpr (hend (by rw [length_nil]; omega))
    exact ⟨hempty, eq_false_of_ne_true fun hopen => hwait ⟨hempty, hopen⟩⟩

/-- **One step keeps the bytes in order.** -/
theorem Local.fifo (hl : Local e s s') (h : Fifo s.shared q) (hcopy : copiesSucceed e s) :
    ∃ q' l l', Fifo s'.shared q' ∧ Moves s s' l l' := by
  cases hl with
  | close _ =>
    refine ⟨q, [], [], ?_, ?_⟩ <;> unfold PipeState.pipeclose <;> split_ifs
    · exact ⟨h.holds, h.bytes⟩
    · exact ⟨h.holds, h.bytes⟩
    · exact .nothing rfl rfl
    · exact .nothing rfl rfl
  | kill _ => exact ⟨q, [], [], h, .nothing rfl rfl⟩
  | @stretch p c hc =>
    cases c with
    | write src n i =>
      obtain ⟨l, hfifo, hmoves, -⟩ := pipewrite_fifo h p src n i
      exact ⟨_, l, [], hfifo, hmoves⟩
    | read dst n =>
      unfold copiesSucceed at hcopy
      rw [hc] at hcopy
      obtain ⟨l, q', hfifo, hmoves, -⟩ := piperead_fifo h p hcopy
      exact ⟨q', [], l, hfifo, hmoves⟩

theorem ReachableBy.fifo (h : ReachableBy copiesSucceed s) : ∃ q, Fifo s.shared q := by
  obtain ⟨data, h⟩ := h
  refine h.invariant (I := fun s => ∃ q, Fifo s.shared q) ⟨[], RingBuffer.holds_nil _ _ _, rfl⟩ ?_
  rintro e t u ⟨q, hq⟩ hcopy hs
  obtain ⟨q', -, -, hq', -⟩ := (step_local hs).fifo hq hcopy
  exact ⟨q', hq'⟩

theorem step_eq_stretch (hc : callOf e s = some (p, c)) (hs : step e s = some s') :
    s' = (s.stretch p c).2 := by
  cases step_local hs with
  | close he | kill he =>
    rw [he] at hc
    cases hc
  | stretch hc' =>
    rw [hc] at hc'
    obtain ⟨rfl, rfl⟩ := Prod.mk.inj (Option.some.inj hc')
    rfl

theorem returns_stretch {r : ℤ} (h : returns e s = some (c, r)) :
    ∃ p, callOf e s = some (p, c) ∧ (s.stretch p c).1 = some r := by
  obtain ⟨⟨p, c'⟩, hc, hr⟩ := Option.bind_eq_some_iff.mp h
  obtain ⟨r', hr', he⟩ := Option.map_eq_some_iff.mp hr
  obtain ⟨rfl, rfl⟩ := Prod.mk.inj he
  exact ⟨p, hc, hr'⟩

end PipeState

end Xv6
