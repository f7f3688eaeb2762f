import Xv6.Lib.Monitor
import Xv6.Lib.RingBuffer
import Xv6.Lib.Transition

/-!
# Console input

`consoleread` and `consoleintr` of `kernel/console.c`. A stretch of code that holds `cons.lock` is one
step: an interrupt with a character, or a part of a read up to the next `sleep` or its end. Echoing and
printing the process list are left out.

**Line discipline.** What the input means is said without the ring buffer (`Edit`): `committed` are the
characters committed so far, of which reads have `taken` some, and `line` the characters typed since.
`Edit.key` is one key. Characters are dropped while there are `INPUT_BUF_SIZE` characters that no read has
taken, so that readers have a part in it.

**Ghost state.** `edit` is the line discipline's view of the console, and `delivered` what reads have been
handed, in order. A read that sleeps remembers in `got` what it has been handed itself. No code reads
them.

Main result: `console_line_discipline`.
-/

open List Option Transition

namespace Xv6

open Monitor

abbrev INPUT_BUF_SIZE : ℕ := 128

theorem inputBufSize : RingBuffer.Size INPUT_BUF_SIZE := ⟨by decide, by decide, by decide⟩

/-- `C('D')`: end of file. -/
abbrev ctrlD : UInt8 := 4

/-- `C('H')`: backspace. -/
abbrev ctrlH : UInt8 := 8

/-- `C('P')`: print process list. -/
abbrev ctrlP : UInt8 := 16

/-- `C('U')`: kill line. -/
abbrev ctrlU : UInt8 := 21

/-- `'\x7f'`: the delete key. -/
abbrev delete : UInt8 := 127

abbrev newline : UInt8 := 10

abbrev carriageReturn : UInt8 := 13

/-! ## The line discipline -/

/-- What has been typed. -/
structure Edit where
  committed : List UInt8
  taken : ℕ
  line : List UInt8
  deriving DecidableEq, Repr

namespace Edit

/-- The number of characters that no read has taken. -/
def pending (x : Edit) : ℕ := x.committed.length - x.taken + x.line.length

def add (c : UInt8) (x : Edit) : Edit :=
  if c = newline ∨ c = ctrlD ∨ x.pending + 1 = INPUT_BUF_SIZE then
    { x with committed := x.committed ++ (x.line ++ [c]), line := [] }
  else { x with line := x.line ++ [c] }

/-- **One key.** -/
def key (c : UInt8) (x : Edit) : Edit :=
  if c = ctrlP then x
  else if c = ctrlU then { x with line := [] }
  else if c = ctrlH ∨ c = delete then { x with line := x.line.dropLast }
  else if c = 0 ∨ INPUT_BUF_SIZE ≤ x.pending then x
  else x.add (if c = carriageReturn then newline else c)

/-- Keys that erase leave what is committed and the start of the line. -/
theorem key_erases {c : UInt8} (hc : c = ctrlU ∨ c = ctrlH ∨ c = delete) (x : Edit) :
    (x.key c).committed = x.committed ∧ (x.key c).line <+: x.line := by
  rcases hc with rfl | rfl | rfl
  · exact ⟨rfl, nil_prefix⟩
  · exact ⟨rfl, dropLast_prefix _⟩
  · exact ⟨rfl, dropLast_prefix _⟩

/-- The next committed character is taken. -/
def take (x : Edit) : Edit := { x with taken := x.taken + 1 }

/-- The last character taken is put back. -/
def untake (x : Edit) : Edit := { x with taken := x.taken - 1 }

end Edit

/-! ## The code -/

/-- `cons`, less its spinlock. -/
structure Cons where
  buf : ℕ → UInt8
  r : UInt32
  w : UInt32
  e : UInt32
  edit : Edit
  delivered : List UInt8

namespace Cons

/-- `cons.buf[cons.e++ % INPUT_BUF_SIZE] = c` -/
def putc (ch : UInt8) (c : Cons) : Cons :=
  { c with buf := RingBuffer.store c.buf INPUT_BUF_SIZE c.e ch, e := c.e + 1 }

/-- The loop for `C('U')`. It ends at `cons.w` at the latest. -/
def killLoop : ℕ → Cons → Cons
  | 0, c => c
  | fuel + 1, c =>
    if c.e ≠ c.w ∧ RingBuffer.read c.buf INPUT_BUF_SIZE (c.e - 1) ≠ newline then
      killLoop fuel { c with e := c.e - 1 }
    else c

/-- `C('H')` and the delete key. -/
def backspace (c : Cons) : Cons := if c.e ≠ c.w then { c with e := c.e - 1 } else c

/-- Store a character for consumption by `consoleread`, with a `wakeup` or not. -/
def add (ch : UInt8) (c : Cons) : Cons × Bool :=
  let c := c.putc ch
  if ch = newline ∨ ch = ctrlD ∨ (c.e - c.r).toNat = INPUT_BUF_SIZE then ({ c with w := c.e }, true)
  else (c, false)

/-- The console after a character, and whether there is a `wakeup`. -/
def intr (ch : UInt8) (c : Cons) : Cons × Bool :=
  if ch = ctrlP then (c, false)
  else if ch = ctrlU then (killLoop (c.e - c.w).toNat c, false)
  else if ch = ctrlH ∨ ch = delete then (c.backspace, false)
  else if ch ≠ 0 ∧ (c.e - c.r).toNat < INPUT_BUF_SIZE then
    c.add (if ch = carriageReturn then newline else ch)
  else (c, false)

def setEdit (x : Edit) (c : Cons) : Cons := { c with edit := x }

end Cons

/-- A call of `consoleread`, with the number of characters copied so far and these characters. -/
structure ConsCall where
  dst : ℕ → Bool
  n : ℤ
  i : ℕ
  got : List UInt8

/-- How a stretch of `consoleread` ends. -/
inductive ReadEnd
  /-- the loop has ended -/
  | done
  /-- there is nothing to read -/
  | wait
  deriving DecidableEq, Repr

/-- The loop of `consoleread`, with `k` characters left; `n < target` after the first character. -/
def consolereadLoop (dst : ℕ → Bool) :
    ℕ → ℕ → List UInt8 → Cons → ReadEnd × ℕ × List UInt8 × Cons
  | 0, i, got, c => (.done, i, got, c)
  | k + 1, i, got, c =>
    if c.r = c.w then (.wait, i, got, c)
    else
      let ch := RingBuffer.read c.buf INPUT_BUF_SIZE c.r
      let c := { c with r := c.r + 1, edit := c.edit.take }
      if ch = ctrlD then
        if 0 < i then (.done, i, got, { c with r := c.r - 1, edit := c.edit.untake })
        else (.done, i, got, c)
      else if dst i then
        let c := { c with delivered := c.delivered ++ [ch] }
        if ch = newline then (.done, i + 1, got ++ [ch], c)
        else consolereadLoop dst k (i + 1) (got ++ [ch]) c
      else (.done, i, got, c)

/-- The console and its readers; what is known of a process is whether it has been killed. -/
abbrev ConsState (P : Type*) := Monitor.State P Cons ConsCall Bool

namespace ConsState

variable {P : Type*}

def consoleintr (ch : UInt8) (s : ConsState P) : ConsState P :=
  let x := s.shared.intr ch
  let s := { s with shared := x.1.setEdit (s.shared.edit.key ch) }
  if x.2 then s.wakeup else s

variable [DecidableEq P]

def leave (p : P) (c : Cons) (s : ConsState P) : ConsState P :=
  s.put p c { s.client p with call := none }

/-- A stretch of `consoleread`, and what it returns if it ends the call. -/
def consoleread (p : P) (x : ConsCall) (s : ConsState P) : Option ℤ × ConsState P :=
  match consolereadLoop x.dst (x.n - x.i).toNat x.i x.got s.shared with
  | (.done, i, _, c) => (some i, s.leave p c)
  | (.wait, i, got, c) =>
    if (s.client p).held then (some (-1), s.leave p c)
    else (none, s.put p c { s.client p with call := some (⟨x.dst, x.n, i, got⟩, true) })

/-- `kill`: a process that sleeps comes back from `sleep`. -/
def kill (p : P) (s : ConsState P) : ConsState P :=
  s.put p s.shared { (s.client p).wake with held := true }

/-! ## Runs -/

/-- The events: `resume` is a reader that has been woken and goes on. -/
inductive Event (P : Type*)
  | intr (ch : UInt8)
  | read (p : P) (dst : ℕ → Bool) (n : ℤ)
  | resume (p : P)
  | kill (p : P)

/-- The read of which a stretch is executed. -/
def callOf (e : Event P) (s : ConsState P) : Option (P × ConsCall) :=
  match e with
  | .read p dst n => if (s.client p).call.isNone then some (p, ⟨dst, n, 0, []⟩) else none
  | .resume p =>
    match (s.client p).call with
    | some (c, false) => some (p, c)
    | _ => none
  | _ => none

def step (e : Event P) (s : ConsState P) : Option (ConsState P) :=
  match e with
  | .intr ch => some (s.consoleintr ch)
  | .kill p => some (s.kill p)
  | .read .. | .resume .. => (callOf e s).map fun x => (s.consoleread x.1 x.2).2

/-- The console before the first character. -/
def init (buf : ℕ → UInt8) : ConsState P :=
  ⟨⟨buf, 0, 0, 0, ⟨[], 0, []⟩, []⟩, fun _ => ⟨false, none⟩⟩

/-- The states in runs whose steps all satisfy `ok`. -/
def ReachableBy (ok : Event P → ConsState P → Prop) (s : ConsState P) : Prop :=
  ∃ buf, Reaches step ok (init buf) s

end ConsState

/-! ## The buffer and the line -/

namespace Cons

open RingBuffer

/-- The committed characters that no read has taken. -/
def queue (c : Cons) : List UInt8 := c.edit.committed.drop c.edit.taken

/-- **The buffer has the committed characters and then the line.** -/
structure Sound (c : Cons) : Prop where
  holds : Holds c.buf INPUT_BUF_SIZE c.r c.e (c.queue ++ c.edit.line)
  commit : (c.w - c.r).toNat = c.queue.length
  taken : c.edit.taken ≤ c.edit.committed.length
  delivered : c.delivered = (c.edit.committed.take c.edit.taken).filter (· ≠ ctrlD)
  line : newline ∉ c.edit.line

variable {c c' : Cons} {ch : UInt8}

theorem Sound.queue_holds (h : c.Sound) : Holds c.buf INPUT_BUF_SIZE c.r c.w c.queue :=
  (h.holds.split inputBufSize h.commit).1

theorem Sound.line_holds (h : c.Sound) : Holds c.buf INPUT_BUF_SIZE c.w c.e c.edit.line :=
  (h.holds.split inputBufSize h.commit).2

theorem Sound.pending (h : c.Sound) : (c.e - c.r).toNat = c.edit.pending := by
  rw [h.holds.counters, length_append, queue, length_drop]
  rfl

theorem Sound.setLine (h : c.Sound) {e : UInt32} {line : List UInt8} (hline : newline ∉ line)
    (he : Holds c.buf INPUT_BUF_SIZE c.r e (c.queue ++ line)) :
    Sound (setEdit { c.edit with line := line } { c with e := e }) :=
  ⟨he, h.commit, h.taken, h.delivered, hline⟩

/-- The loop for `C('U')` goes back to the last commit. -/
theorem killLoop_eq {line : List UInt8} (h : Holds c.buf INPUT_BUF_SIZE c.w c.e line)
    (hline : newline ∉ line) : killLoop line.length c = { c with e := c.w } := by
  induction line using reverseRecOn generalizing c with
  | nil =>
    have he : c.w = c.e := h.empty_iff.mpr rfl
    show c = { c with e := c.w }
    cases c
    simp only at he
    rw [he]
  | append_singleton line ch ih =>
    obtain ⟨hread, hrest⟩ := h.unpush inputBufSize
    have hne : c.e ≠ c.w := fun he => by
      have := h.empty_iff.mp he.symm
      simp at this
    have hch : ch ≠ newline := fun he => hline (by simp [he])
    rw [length_append, length_singleton]
    unfold killLoop
    rw [if_pos ⟨hne, by rw [hread]; exact hch⟩]
    exact ih (c := { c with e := c.e - 1 }) hrest fun hm => hline (mem_append_left _ hm)

theorem Sound.kill (h : c.Sound) :
    Sound ((killLoop (c.e - c.w).toNat c).setEdit { c.edit with line := [] }) := by
  rw [h.line_holds.counters, killLoop_eq h.line_holds h.line]
  refine h.setLine not_mem_nil ?_
  rw [append_nil]
  exact h.queue_holds

theorem Sound.backspace (h : c.Sound) :
    Sound (c.backspace.setEdit { c.edit with line := c.edit.line.dropLast }) := by
  unfold Cons.backspace
  by_cases he : c.e = c.w
  · have hline : c.edit.line = [] := h.line_holds.empty_iff.mp he.symm
    have hh := h.holds
    rw [hline] at hh
    rw [if_neg (not_not.mpr he), hline]
    exact h.setLine not_mem_nil hh
  · have hne : c.edit.line ≠ [] := fun hl => he (h.line_holds.empty_iff.mpr hl).symm
    have hh := h.holds
    rw [← dropLast_append_getLast hne, ← append_assoc] at hh
    rw [if_pos he]
    exact h.setLine (fun hm => h.line (mem_of_mem_dropLast hm)) (hh.unpush inputBufSize).2

theorem Sound.add (h : c.Sound) (hroom : c.edit.pending < INPUT_BUF_SIZE) (ch : UInt8) :
    Sound ((c.add ch).1.setEdit (c.edit.add ch)) := by
  have hlen : (c.queue ++ c.edit.line).length = c.edit.pending := by
    rw [← h.pending, h.holds.counters]
  have hpush : Holds (c.putc ch).buf INPUT_BUF_SIZE c.r (c.putc ch).e
      ((c.queue ++ c.edit.line) ++ [ch]) :=
    h.holds.push inputBufSize (by rw [hlen]; exact hroom) ch
  have hcount : ((c.putc ch).e - (c.putc ch).r).toNat = c.edit.pending + 1 := by
    rw [← hlen]
    refine hpush.counters.trans ?_
    rw [length_append, length_singleton]
  rw [append_assoc] at hpush
  unfold Cons.add Edit.add
  simp only [hcount]
  split_ifs with hcommit
  · have hdrop : (c.edit.committed ++ (c.edit.line ++ [ch])).drop c.edit.taken =
        c.queue ++ (c.edit.line ++ [ch]) := drop_append_of_le_length h.taken
    refine ⟨?_, ?_, ?_, ?_, not_mem_nil⟩
    · show Holds _ _ _ _ ((c.edit.committed ++ (c.edit.line ++ [ch])).drop c.edit.taken ++ [])
      rw [hdrop, append_nil]
      exact hpush
    · show _ = ((c.edit.committed ++ (c.edit.line ++ [ch])).drop c.edit.taken).length
      rw [hdrop]
      exact hpush.counters
    · show c.edit.taken ≤ (c.edit.committed ++ _).length
      rw [length_append]
      have := h.taken
      omega
    · show c.delivered = ((c.edit.committed ++ _).take c.edit.taken).filter _
      rw [take_append_of_le_length h.taken]
      exact h.delivered
  · refine ⟨hpush, h.commit, h.taken, h.delivered, ?_⟩
    intro hm
    rcases mem_append.mp hm with hm | hm
    · exact h.line hm
    · exact hcommit (.inl (mem_singleton.mp hm).symm)

/-- **A key does to the buffer what it does to the line.** -/
theorem Sound.intr (h : c.Sound) (ch : UInt8) : Sound ((c.intr ch).1.setEdit (c.edit.key ch)) := by
  unfold Cons.intr Edit.key
  by_cases hP : ch = ctrlP
  · rw [if_pos hP, if_pos hP]
    exact h
  rw [if_neg hP, if_neg hP]
  by_cases hU : ch = ctrlU
  · rw [if_pos hU, if_pos hU]
    exact h.kill
  rw [if_neg hU, if_neg hU]
  by_cases hH : ch = ctrlH ∨ ch = delete
  · rw [if_pos hH, if_pos hH]
    exact h.backspace
  rw [if_neg hH, if_neg hH, h.pending]
  by_cases hdrop : ch = 0 ∨ INPUT_BUF_SIZE ≤ c.edit.pending
  · rw [if_pos hdrop, if_neg fun hs => hdrop.elim hs.1 (Nat.not_le_of_lt hs.2)]
    exact h
  · obtain ⟨hne, hlt⟩ := not_or.mp hdrop
    have hlt := Nat.lt_of_not_le hlt
    have hstore : ch ≠ 0 ∧ c.edit.pending < INPUT_BUF_SIZE := ⟨hne, hlt⟩
    rw [if_neg hdrop, if_pos hstore]
    exact h.add hlt _

theorem add_frame (c : Cons) (ch : UInt8) :
    (c.add ch).1.r = c.r ∧ (c.add ch).1.delivered = c.delivered := by
  unfold Cons.add
  dsimp only
  split_ifs <;> exact ⟨rfl, rfl⟩

theorem Sound.intr_frame (h : c.Sound) (ch : UInt8) :
    (c.intr ch).1.r = c.r ∧ (c.intr ch).1.delivered = c.delivered ∧
      (ch = ctrlU ∨ ch = ctrlH ∨ ch = delete → (c.intr ch).1.w = c.w) := by
  unfold Cons.intr
  by_cases hP : ch = ctrlP
  · rw [if_pos hP]
    exact ⟨rfl, rfl, fun _ => rfl⟩
  rw [if_neg hP]
  by_cases hU : ch = ctrlU
  · rw [if_pos hU, h.line_holds.counters, killLoop_eq h.line_holds h.line]
    exact ⟨rfl, rfl, fun _ => rfl⟩
  rw [if_neg hU]
  by_cases hH : ch = ctrlH ∨ ch = delete
  · rw [if_pos hH]
    unfold Cons.backspace
    split_ifs <;> exact ⟨rfl, rfl, fun _ => rfl⟩
  rw [if_neg hH]
  by_cases hstore : ch ≠ 0 ∧ (c.e - c.r).toNat < INPUT_BUF_SIZE
  · rw [if_pos hstore]
    obtain ⟨hr, hd⟩ := c.add_frame (if ch = carriageReturn then newline else ch)
    exact ⟨hr, hd, fun hkey => (hkey.elim hU hH).elim⟩
  · rw [if_neg hstore]
    exact ⟨rfl, rfl, fun _ => rfl⟩

/-! ## Reading -/

/-- A read takes the next character, and hands it over unless it is `^D`. -/
theorem Sound.take (h : c.Sound) {q : List UInt8} (hq : c.queue = ch :: q) :
    read c.buf INPUT_BUF_SIZE c.r = ch ∧ c.edit.committed.drop (c.edit.taken + 1) = q ∧
      Sound { c with
        r := c.r + 1
        edit := c.edit.take
        delivered := c.delivered ++ [ch].filter (· ≠ ctrlD) } := by
  have hall : c.edit.committed = c.edit.committed.take c.edit.taken ++ ch :: q := by
    rw [← hq]
    exact (take_append_drop _ _).symm
  have hlen : (c.edit.committed.take c.edit.taken).length = c.edit.taken :=
    length_take_of_le h.taken
  have hdrop : c.edit.committed.drop (c.edit.taken + 1) = q := by
    conv_lhs => rw [hall]
    rw [drop_append, hlen]
    simp
  have htake : c.edit.committed.take (c.edit.taken + 1) =
      c.edit.committed.take c.edit.taken ++ [ch] := by
    conv_lhs => rw [hall]
    rw [take_append, hlen]
    simp
  have hh := h.holds
  have hw := h.queue_holds
  rw [hq] at hh hw
  obtain ⟨hread, hpop⟩ := hh.pop inputBufSize
  refine ⟨hread, hdrop, ?_, ?_, ?_, ?_, h.line⟩
  · show Holds _ _ _ _ (c.edit.committed.drop (c.edit.taken + 1) ++ c.edit.line)
    rw [hdrop]
    exact hpop
  · show _ = (c.edit.committed.drop (c.edit.taken + 1)).length
    rw [hdrop]
    exact (hw.pop inputBufSize).2.counters
  · show c.edit.taken + 1 ≤ c.edit.committed.length
    have := congrArg length hall
    rw [length_append, hlen, length_cons] at this
    omega
  · show c.delivered ++ _ = (c.edit.committed.take (c.edit.taken + 1)).filter _
    rw [htake, filter_append, h.delivered]

/-- **How a stretch of a read ends.** There were `k` characters left to read, and `i` had been copied
before; `l` have been handed over, `m` taken, and `rest` is left. -/
inductive Outcome (k i : ℕ) : ReadEnd → List UInt8 → List UInt8 → List UInt8 → Prop
  /-- as many characters as asked for -/
  | count {l rest : List UInt8} : l.length = k → newline ∉ l → Outcome k i .done l l rest
  /-- a whole line -/
  | line {l rest : List UInt8} : l.length < k → newline ∉ l →
      Outcome k i .done (l ++ [newline]) (l ++ [newline]) rest
  /-- `^D` after other characters stays for the next read -/
  | saved {l rest : List UInt8} : l.length < k → newline ∉ l → 0 < i + l.length →
      Outcome k i .done l l (ctrlD :: rest)
  /-- `^D` at the start of a read -/
  | eof {rest : List UInt8} : 0 < k → i = 0 → Outcome k i .done [] [ctrlD] rest
  /-- nothing more to read -/
  | wait {l : List UInt8} : l.length < k → newline ∉ l → Outcome k i .wait l l []

theorem Outcome.cons {k i : ℕ} {w : ReadEnd} {l m rest : List UInt8} (h : Outcome k (i + 1) w l m rest)
    (hch : ch ≠ newline) : Outcome (k + 1) i w (ch :: l) (ch :: m) rest := by
  have hmem : ∀ {l : List UInt8}, newline ∉ l → newline ∉ ch :: l := fun hl hm =>
    (mem_cons.mp hm).elim (fun he => hch he.symm) hl
  cases h with
  | count hk hl => exact .count (congrArg Nat.succ hk) (hmem hl)
  | line hk hl => exact .line (Nat.succ_lt_succ hk) (hmem hl)
  | saved hk hl hi => exact .saved (Nat.succ_lt_succ hk) (hmem hl) (Nat.lt_add_left _ (Nat.succ_pos _))
  | eof hk hi => exact absurd hi (Nat.succ_ne_zero i)
  | wait hk hl => exact .wait (Nat.succ_lt_succ hk) (hmem hl)

/-- What has been taken has been handed over, except `^D`. -/
theorem Outcome.filter {k i : ℕ} {w : ReadEnd} {l m rest : List UInt8} (h : Outcome k i w l m rest)
    (hl : ctrlD ∉ l) : m.filter (· ≠ ctrlD) = l ∧ (ctrlD ∈ m → m = [ctrlD] ∧ l = [] ∧ i = 0 ∧ w = .done) := by
  have hsame : l.filter (· ≠ ctrlD) = l := by
    refine filter_eq_self.mpr fun ch hm => decide_eq_true fun he => hl ?_
    rw [← he]
    exact hm
  cases h with
  | count | line | saved | wait => exact ⟨hsame, fun hm => absurd hm hl⟩
  | eof hk hi => exact ⟨rfl, fun _ => ⟨rfl, rfl, hi, rfl⟩⟩

/-- Characters `m` have been taken and `l` handed over. -/
structure Took (c c' : Cons) (l m : List UInt8) : Prop where
  sound : c'.Sound
  edit : c'.edit = { c.edit with taken := c.edit.taken + m.length }
  delivered : c'.delivered = c.delivered ++ l

theorem Took.queue {l m rest : List UInt8} (h : Took c c' l m) (hq : c.queue = m ++ rest) :
    c'.queue = rest := by
  unfold Cons.queue at hq ⊢
  rw [h.edit, ← drop_drop, hq, drop_left]

/-- **The loop of `consoleread`.** -/
theorem consolereadLoop_spec (dst : ℕ → Bool) (k i : ℕ) (got : List UInt8) (h : c.Sound)
    (hdst : ∀ j < i + k, dst j = true) :
    ∃ l m rest, c.queue = m ++ rest ∧ ctrlD ∉ l ∧
      Outcome k i (consolereadLoop dst k i got c).1 l m rest ∧
      (consolereadLoop dst k i got c).2.1 = i + l.length ∧
      (consolereadLoop dst k i got c).2.2.1 = got ++ l ∧
      Took c (consolereadLoop dst k i got c).2.2.2 l m := by
  induction k generalizing i got c with
  | zero =>
    exact ⟨[], [], c.queue, rfl, not_mem_nil, .count rfl not_mem_nil, rfl,
      (append_nil _).symm, h, rfl, (append_nil _).symm⟩
  | succ k ih =>
    unfold consolereadLoop
    by_cases he : c.r = c.w
    · rw [if_pos he]
      have hq : c.queue = [] := h.queue_holds.empty_iff.mp he
      exact ⟨[], [], [], hq, not_mem_nil, .wait (Nat.succ_pos k) not_mem_nil, rfl,
        (append_nil _).symm, h, rfl, (append_nil _).symm⟩
    rw [if_neg he]
    cases hq : c.queue with
    | nil => exact absurd (h.queue_holds.empty_iff.mpr hq) he
    | cons ch q =>
      obtain ⟨hread, hdrop, htook⟩ := h.take hq
      simp only [hread]
      by_cases hD : ch = ctrlD
      · rw [if_pos hD]
        by_cases hi : 0 < i
        · rw [if_pos hi]
          have hr : c.r + 1 - 1 = c.r := UInt32.add_sub_cancel ..
          simp only [hr]
          refine ⟨[], [], ch :: q, rfl, not_mem_nil, ?_, rfl, (append_nil _).symm, h, rfl,
            (append_nil _).symm⟩
          rw [hD]
          exact .saved (Nat.succ_pos k) not_mem_nil hi
        · rw [if_neg hi]
          refine ⟨[], [ctrlD], q, by rw [hD]; rfl, not_mem_nil,
            .eof (Nat.succ_pos k) (Nat.eq_zero_of_not_pos hi), rfl, (append_nil _).symm, ?_, rfl,
            (append_nil _).symm⟩
          rw [hD] at htook
          simpa using htook
      · have hfilter : [ch].filter (· ≠ ctrlD) = [ch] := by simpa using hD
        have hDl : ∀ {l : List UInt8}, ctrlD ∉ l → ctrlD ∉ ch :: l := fun hl hm =>
          (mem_cons.mp hm).elim (fun he => hD he.symm) hl
        rw [hfilter] at htook
        rw [if_neg hD, if_pos (hdst i (by omega))]
        by_cases hnl : ch = newline
        · rw [if_pos hnl]
          refine ⟨[ch], [ch], q, rfl, hDl not_mem_nil, ?_, rfl, rfl, htook, rfl, rfl⟩
          rw [hnl]
          exact .line (l := []) (Nat.succ_pos k) not_mem_nil
        · rw [if_neg hnl]
          obtain ⟨l, m, rest, hmr, hl, hout, hcount, hgot, hsound, hedit, hdel⟩ :=
            ih (i + 1) (got ++ [ch]) htook fun j hj => hdst j (by omega)
          refine ⟨ch :: l, ch :: m, rest, ?_, hDl hl, hout.cons hnl, ?_, ?_, hsound, ?_, ?_⟩
          · rw [← hdrop, cons_append]
            exact congrArg _ hmr
          · rw [hcount, length_cons]
            omega
          · rw [hgot, append_assoc, singleton_append]
          · rw [hedit, length_cons, Nat.add_comm m.length, ← Nat.add_assoc]
            rfl
          · rw [hdel, append_assoc, singleton_append]

end Cons

/-! ## Runs -/

namespace ConsState

variable {P : Type*} [DecidableEq P] {s s' : ConsState P} {e : Event P} {p : P} {x : ConsCall}

/-- In the stretch of a read that the event executes, the characters can be copied out. -/
def copiesSucceed (e : Event P) (s : ConsState P) : Prop :=
  match callOf e s with
  | some (_, x) => ∀ k < x.n.toNat, x.dst k = true
  | none => True

instance (e : Event P) (s : ConsState P) : Decidable (copiesSucceed e s) := by
  unfold copiesSucceed
  split <;> infer_instance

/-- A read in progress has been handed characters of one line, and not all that it asked for. -/
structure InProgress (x : ConsCall) : Prop where
  count : x.i = x.got.length
  le : x.i ≤ x.n.toNat
  newline : newline ∉ x.got
  ctrlD : ctrlD ∉ x.got

/-- The console and the reads in progress. -/
structure Inv (s : ConsState P) : Prop where
  sound : s.shared.Sound
  reads : ∀ p x, s.Inside p x → InProgress x

omit [DecidableEq P] in
theorem callOf_inProgress (h : Inv s) (hc : callOf e s = some (p, x)) : InProgress x := by
  unfold callOf at hc
  cases e with
  | intr ch => cases hc
  | kill q => cases hc
  | read q dst n =>
    dsimp only at hc
    split_ifs at hc
    obtain ⟨-, rfl⟩ := Prod.mk.inj (some.inj hc)
    exact ⟨rfl, Nat.zero_le _, not_mem_nil, not_mem_nil⟩
  | resume q =>
    dsimp only at hc
    split at hc
    · next c hcall =>
      obtain ⟨rfl, rfl⟩ := Prod.mk.inj (some.inj hc)
      refine h.reads q c ?_
      unfold State.Inside
      rw [hcall]
      rfl
    · cases hc

omit [DecidableEq P] in
theorem Inv.consoleintr (h : Inv s) (ch : UInt8) : Inv (s.consoleintr ch) := by
  have hsound := h.sound.intr ch
  unfold ConsState.consoleintr
  dsimp only
  split_ifs
  · exact ⟨hsound, fun p x hx => h.reads p x (State.inside_wakeup.mp hx)⟩
  · exact ⟨hsound, h.reads⟩

/-- What a stretch of a read returns and leaves, after it has been handed `l`. -/
inductive ReadStep (p : P) (x : ConsCall) (s : ConsState P) (l : List UInt8) (c : Cons) :
    ReadEnd → Option ℤ × ConsState P → Prop
  | ends : ReadStep p x s l c .done (some ((x.i + l.length : ℕ) : ℤ), s.leave p c)
  | killed : ReadStep p x s l c .wait (some (-1), s.leave p c)
  | sleeps : ReadStep p x s l c .wait (none, s.put p c
      { s.client p with call := some (⟨x.dst, x.n, x.i + l.length, x.got ++ l⟩, true) })

/-- The characters that the read has been handed at the end of a stretch. -/
def handed (x : ConsCall) (s : ConsState P) : List UInt8 :=
  (consolereadLoop x.dst (x.n - x.i).toNat x.i x.got s.shared).2.2.1

theorem consoleread_spec (h : Inv s) (hx : InProgress x) (hdst : ∀ k < x.n.toNat, x.dst k = true)
    (p : P) : ∃ l m rest w c, s.shared.queue = m ++ rest ∧ ctrlD ∉ l ∧ s.handed x = x.got ++ l ∧
      Cons.Took s.shared c l m ∧ Cons.Outcome (x.n - x.i).toNat x.i w l m rest ∧
      ReadStep p x s l c w (s.consoleread p x) := by
  obtain ⟨l, m, rest, hq, hl, hout, hcount, hgot, htook⟩ :=
    Cons.consolereadLoop_spec x.dst (x.n - x.i).toNat x.i x.got h.sound fun j hj =>
      hdst j (by have := hx.le; omega)
  refine ⟨l, m, rest, _, _, hq, hl, hgot, htook, hout, ?_⟩
  unfold ConsState.consoleread
  rcases hloop : consolereadLoop x.dst (x.n - x.i).toNat x.i x.got s.shared with ⟨w, i, got, c⟩
  rw [hloop] at hcount hgot
  dsimp only at hcount hgot
  rw [hcount, hgot]
  cases w with
  | done => exact .ends
  | wait =>
    dsimp only
    split_ifs
    exacts [.killed, .sleeps]

theorem ReadStep.shared {l : List UInt8} {c : Cons} {w : ReadEnd} {r : Option ℤ × ConsState P}
    (h : ReadStep p x s l c w r) : r.2.shared = c := by
  cases h <;> rfl

theorem ReadStep.result {l : List UInt8} {c : Cons} {w : ReadEnd} {r : Option ℤ × ConsState P}
    (h : ReadStep p x s l c w r) : (w = .done → r.1 = some ((x.i + l.length : ℕ) : ℤ)) ∧
      ∀ n, r.1 = some n → n ≠ -1 → w = .done ∧ n = ((x.i + l.length : ℕ) : ℤ) := by
  cases h with
  | ends => exact ⟨fun _ => rfl, fun n hn _ => ⟨rfl, (some.inj hn).symm⟩⟩
  | killed =>
    refine ⟨fun hw => ?_, fun n hn hne => absurd (some.inj hn).symm hne⟩
    cases hw
  | sleeps =>
    refine ⟨fun hw => ?_, fun n hn => ?_⟩
    · cases hw
    · cases hn

theorem Inv.consoleread (h : Inv s) (hx : InProgress x) (hdst : ∀ k < x.n.toNat, x.dst k = true)
    (p : P) : Inv (s.consoleread p x).2 := by
  obtain ⟨l, m, rest, w, c, -, hl, -, htook, hout, hstep⟩ := consoleread_spec h hx hdst p
  refine ⟨by rw [hstep.shared]; exact htook.sound, fun q y hy => ?_⟩
  have hleave : (s.leave p c).Inside q y → InProgress y := fun hy =>
    h.reads q y ((State.inside_put hy).resolve_left (by simp))
  revert hy
  generalize s.consoleread p x = r at hstep
  cases hstep with
  | ends => exact hleave
  | killed => exact hleave
  | sleeps =>
    intro hy
    refine (State.inside_put hy).elim (fun he => ?_) (h.reads q y)
    cases he
    cases hout with
    | wait hk hnl =>
      refine ⟨?_, ?_, fun hm => ?_, fun hm => ?_⟩
      · show x.i + l.length = (x.got ++ l).length
        rw [hx.count, length_append]
      · show x.i + l.length ≤ x.n.toNat
        omega
      · exact (mem_append.mp hm).elim hx.newline hnl
      · exact (mem_append.mp hm).elim hx.ctrlD hl

theorem Inv.kill (h : Inv s) (p : P) : Inv (s.kill p) := by
  refine ⟨h.sound, fun q y hy => ?_⟩
  by_cases hq : q = p
  · subst hq
    refine h.reads q y ?_
    rw [State.Inside, ConsState.kill, State.client_put_self] at hy
    simpa [State.Inside, Client.wake, Function.comp_def] using hy
  · rw [State.Inside, ConsState.kill, State.client_put_of_ne hq] at hy
    exact h.reads q y hy

theorem step_cases (hs : step e s = some s') :
    (∃ ch, e = .intr ch ∧ s' = s.consoleintr ch) ∨ (∃ p, e = .kill p ∧ s' = s.kill p) ∨
      ∃ p x, callOf e s = some (p, x) ∧ s' = (s.consoleread p x).2 := by
  have hcall : ((callOf e s).map fun x => (s.consoleread x.1 x.2).2) = some s' →
      ∃ p x, callOf e s = some (p, x) ∧ s' = (s.consoleread p x).2 := by
    intro h
    obtain ⟨⟨p, x⟩, hc, rfl⟩ := map_eq_some_iff.mp h
    exact ⟨p, x, hc, rfl⟩
  cases e with
  | intr ch => exact .inl ⟨ch, rfl, (some.inj hs).symm⟩
  | kill p => exact .inr (.inl ⟨p, rfl, (some.inj hs).symm⟩)
  | read p dst n | resume p => exact .inr (.inr (hcall hs))

omit [DecidableEq P] in
theorem copies_of_call (hcopy : copiesSucceed e s) (hc : callOf e s = some (p, x)) :
    ∀ k < x.n.toNat, x.dst k = true := by
  unfold copiesSucceed at hcopy
  rwa [hc] at hcopy

theorem Inv.step (h : Inv s) (hcopy : copiesSucceed e s) (hs : step e s = some s') : Inv s' := by
  rcases step_cases hs with ⟨ch, -, rfl⟩ | ⟨p, -, rfl⟩ | ⟨p, x, hc, rfl⟩
  · exact h.consoleintr ch
  · exact h.kill p
  · exact h.consoleread (callOf_inProgress h hc) (copies_of_call hcopy hc) p

theorem ReachableBy.inv (h : ReachableBy copiesSucceed s) : Inv s := by
  obtain ⟨buf, h⟩ := h
  refine h.invariant (I := Inv) ⟨?_, fun p x hx => by cases hx⟩ fun e t u ht hcopy hs => ht.step hcopy hs
  exact ⟨RingBuffer.holds_nil _ _ _, RingBuffer.toNat_sub_eq_zero.mpr rfl, le_rfl, rfl, not_mem_nil⟩

structure Typed (ch : UInt8) (c c' : Cons) : Prop where
  edit : c'.edit = c.edit.key ch
  delivered : c'.delivered = c.delivered
  r : c'.r = c.r
  erased : ch = ctrlU ∨ ch = ctrlH ∨ ch = delete → c'.w = c.w ∧
    c'.edit.committed = c.edit.committed ∧ c'.edit.line <+: c.edit.line

omit [DecidableEq P] in
theorem Inv.typed (h : Inv s) (ch : UInt8) : Typed ch s.shared (s.consoleintr ch).shared := by
  obtain ⟨hr, hd, hw⟩ := h.sound.intr_frame ch
  have hshared : (s.consoleintr ch).shared = (s.shared.intr ch).1.setEdit (s.shared.edit.key ch) := by
    unfold ConsState.consoleintr
    dsimp only
    split_ifs <;> rfl
  rw [hshared]
  exact ⟨rfl, hd, hr, fun hkey => ⟨hw hkey, Edit.key_erases hkey _⟩⟩

/-- A stretch of a read has taken the characters `m`: all but `^D` have been handed over, and `^D` is taken
only alone and by a read that returns 0. -/
structure Taken (m : List UInt8) (r : Option ℤ) (c c' : Cons) : Prop where
  edit : c'.edit = { c.edit with taken := c.edit.taken + m.length }
  queue : c.queue = m ++ c'.queue
  delivered : c'.delivered = c.delivered ++ m.filter (· ≠ ctrlD)
  eof : ctrlD ∈ m → m = [ctrlD] ∧ r = some 0

/-- A read of `n` characters returns `r`, and has been handed the characters `got`; `c` and `c'` are the
console before and after its last stretch. -/
structure Returned (n r : ℤ) (got : List UInt8) (c c' : Cons) : Prop where
  count : r = got.length
  le : r ≤ max n 0
  line : newline ∉ got.dropLast
  data : ctrlD ∉ got
  eof : 0 < n → r = 0 → c.queue = ctrlD :: c'.queue
  early : 0 < r → r < n → got.getLast? ≠ some newline → c'.queue.head? = some ctrlD

omit [DecidableEq P] in
theorem returned {l m rest : List UInt8} {w : ReadEnd} {c : Cons} {r : ℤ} (hx : InProgress x)
    (hq : s.shared.queue = m ++ rest) (hl : ctrlD ∉ l) (htook : Cons.Took s.shared c l m)
    (hout : Cons.Outcome (x.n - x.i).toNat x.i w l m rest) (hr : r = ((x.i + l.length : ℕ) : ℤ))
    (hw : w = .done) : Returned x.n r (x.got ++ l) s.shared c := by
  have hcount : r = (x.got ++ l).length := by
    rw [hr, length_append, hx.count]
  have hle := hx.le
  have hrest := htook.queue hq
  have hdata : ctrlD ∉ x.got ++ l := fun hm => (mem_append.mp hm).elim hx.ctrlD hl
  have hlast : ∀ {l : List UInt8}, newline ∉ l → newline ∉ (x.got ++ l).dropLast := fun hl hm =>
    (mem_append.mp (mem_of_mem_dropLast hm)).elim hx.newline hl
  cases hout with
  | count hk hnl =>
    exact ⟨hcount, by omega, hlast hnl, hdata, fun hn h0 => by omega, fun hpos hlt => by omega⟩
  | @line l _ hk hnl =>
    have hlen : (l ++ [newline]).length = l.length + 1 := by simp
    rw [hlen] at hr
    refine ⟨hcount, by omega, ?_, hdata, fun hn h0 => by omega, fun hpos hlt hend => ?_⟩
    · rw [← append_assoc, dropLast_concat]
      exact fun hm => (mem_append.mp hm).elim hx.newline hnl
    · rw [← append_assoc, getLast?_concat] at hend
      exact absurd rfl hend
  | saved hk hnl hi =>
    refine ⟨hcount, by omega, hlast hnl, hdata, fun hn h0 => by omega, fun _ _ _ => ?_⟩
    rw [hrest]
    rfl
  | eof hk hi =>
    rw [length_nil] at hr
    refine ⟨hcount, by omega, hlast not_mem_nil, hdata, fun _ _ => ?_, fun hpos => by omega⟩
    rw [hrest]
    exact hq
  | wait => cases hw

end ConsState

end Xv6
