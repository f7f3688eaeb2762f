import Mathlib.Computability.Language
import Mathlib.Data.List.TakeWhile

/-!
# `grep`

`user/grep.c`. Strings are lists of characters, and a list ends where the string has its null.

**Patterns.** `parse` reads a pattern as items and perhaps a final `$`; `Item.lang` is the language of
an item, and the language of a pattern is the product of those of its items.

**Lines.** `grep` reads into a buffer of 1024 bytes and keeps an unfinished line at its start. A line that
fills the buffer is never finished, and `grepLoop_eq` says that nothing is reported from there on.

Main results: `match_correct`, `grep_correct`.
-/

open Computability List

namespace Xv6.Grep

/-- `matchstar`, where `here` is `matchhere` with the rest of the pattern. -/
def matchstar (here : List Char → Bool) (c : Char) : List Char → Bool
  | [] => here []
  | x :: text => here (x :: text) || (x = c || c = '.') && matchstar here c text

def matchhere : List Char → List Char → Bool
  | [] => fun _ => true
  | c :: '*' :: re => matchstar (matchhere re) c
  | ['$'] => isEmpty
  | c :: re => fun
    | x :: text => (c = '.' || c = x) && matchhere re text
    | [] => false

def matchLoop (here : List Char → Bool) : List Char → Bool
  | [] => here []
  | x :: text => here (x :: text) || matchLoop here text

/-- `match` -/
def matchText : List Char → List Char → Bool
  | '^' :: re => matchhere re
  | re => matchLoop (matchhere re)

/-! ## The language of a pattern -/

structure Item where
  char : Char
  star : Bool
  deriving DecidableEq, Repr

/-- The characters that an item is for. -/
def Item.Accepts (i : Item) (x : Char) : Prop := i.char = '.' ∨ x = i.char

/-- The strings of one such character. -/
def Item.one (i : Item) : Language Char := { w | ∃ x, i.Accepts x ∧ w = [x] }

def Item.lang (i : Item) : Language Char := if i.star then i.one∗ else i.one

/-- The items of a pattern after its `^`, and whether it ends with `$`. -/
def parse : List Char → List Item × Bool
  | [] => ([], false)
  | c :: '*' :: re => (⟨c, true⟩ :: (parse re).1, (parse re).2)
  | ['$'] => ([], true)
  | c :: re => (⟨c, false⟩ :: (parse re).1, (parse re).2)

/-- A pattern: whether it begins with `^`, its items, and whether it ends with `$`. -/
def pattern : List Char → Bool × List Item × Bool
  | '^' :: re => (true, parse re)
  | re => (false, parse re)

/-- The language of the items. -/
def lang (items : List Item) : Language Char := (items.map Item.lang).prod

/-- **What a pattern says of a text**: a part of it is a string of the items, at the start after `^` and
at the end before `$`. -/
def Says : Bool × List Item × Bool → List Char → Prop
  | (start, items, stop), text => ∃ pre mid suf, text = pre ++ mid ++ suf ∧ mid ∈ lang items ∧
      (start → pre = []) ∧ (stop → suf = [])

theorem mem_star (i : Item) (w : List Char) : w ∈ i.one∗ ↔ ∀ x ∈ w, i.Accepts x := by
  rw [Language.mem_kstar]
  constructor
  · rintro ⟨L, rfl, hL⟩ x hx
    obtain ⟨y, hy, hxy⟩ := mem_flatten.1 hx
    obtain ⟨z, hz, rfl⟩ := hL y hy
    rwa [mem_singleton.1 hxy]
  · intro h
    refine ⟨w.map fun x => [x], (flatMap_singleton' w).symm, fun y hy => ?_⟩
    obtain ⟨x, hx, rfl⟩ := mem_map.1 hy
    exact ⟨x, h x hx, rfl⟩

/-! ## The matcher -/

theorem matchstar_iff (here : List Char → Bool) (c : Char) (text : List Char) :
    matchstar here c text ↔
      ∃ pre suf, text = pre ++ suf ∧ (∀ x ∈ pre, c = '.' ∨ x = c) ∧ here suf := by
  induction text with
  | nil => simp [matchstar]
  | cons x text ih =>
    simp only [matchstar, Bool.or_eq_true, Bool.and_eq_true, decide_eq_true_eq, ih]
    constructor
    · rintro (h | ⟨hx, pre, suf, rfl, hpre, h⟩)
      · exact ⟨[], x :: text, rfl, by simp, h⟩
      · exact ⟨x :: pre, suf, rfl, forall_mem_cons.2 ⟨hx.symm, hpre⟩, h⟩
    · rintro ⟨_ | ⟨y, pre⟩, suf, he, hpre, h⟩
      · exact .inl (he ▸ h)
      · obtain ⟨rfl, hsplit⟩ := cons.inj he
        obtain ⟨hx, hpre⟩ := forall_mem_cons.1 hpre
        exact .inr ⟨hx.symm, pre, suf, hsplit, hpre, h⟩

/-- **`matchhere` is true if a string of the pattern is at the start of the text.** -/
theorem matchhere_iff (re text : List Char) : matchhere re text ↔ ∃ mid suf, text = mid ++ suf ∧
    mid ∈ lang (parse re).1 ∧ ((parse re).2 → suf = []) := by
  induction re using parse.induct generalizing text with
  | case1 | case3 => simp [matchhere, parse, lang]
  | case2 c re ih =>
    simp only [matchhere, parse, matchstar_iff, ih, lang, map_cons, prod_cons, Language.mem_mul]
    constructor
    · rintro ⟨pre, _, rfl, hpre, mid, suf, rfl, hmid, hend⟩
      exact ⟨pre ++ mid, suf, by simp, ⟨pre, (mem_star ⟨c, true⟩ pre).2 hpre, mid, hmid, rfl⟩, hend⟩
    · rintro ⟨_, suf, rfl, ⟨pre, hpre, mid, hmid, rfl⟩, hend⟩
      exact ⟨pre, mid ++ suf, by simp, (mem_star ⟨c, true⟩ pre).1 hpre, mid, suf, rfl, hmid, hend⟩
  | case4 c re hstar hdollar ih =>
    rw [matchhere.eq_4 c re hstar hdollar, parse.eq_4 c re hstar hdollar]
    simp only [lang, map_cons, prod_cons, Language.mem_mul]
    cases text with
    | nil =>
      refine iff_of_false Bool.false_ne_true ?_
      rintro ⟨_, suf, he, ⟨_, ⟨x, hx, rfl⟩, mid, hmid, rfl⟩, hend⟩
      contradiction
    | cons y text =>
      simp only [Bool.and_eq_true, Bool.or_eq_true, decide_eq_true_eq, ih]
      constructor
      · rintro ⟨hy, mid, suf, rfl, hmid, hend⟩
        exact ⟨y :: mid, suf, rfl, ⟨[y], ⟨y, hy.imp_right Eq.symm, rfl⟩, mid, hmid, rfl⟩, hend⟩
      · rintro ⟨_, suf, he, ⟨_, ⟨x, hx, rfl⟩, mid, hmid, rfl⟩, hend⟩
        obtain ⟨rfl, rfl⟩ := cons.inj he
        exact ⟨hx.imp_right Eq.symm, mid, suf, rfl, hmid, hend⟩

theorem matchLoop_eq (here : List Char → Bool) (text : List Char) :
    matchLoop here text = matchstar here '.' text := by
  induction text with
  | nil => rfl
  | cons x text ih => simp [matchLoop, matchstar, ih]

/-- **`match` is correct.** -/
theorem match_correct (re text : List Char) : matchText re text ↔ Says (pattern re) text := by
  unfold matchText pattern
  split
  · next re =>
    rw [matchhere_iff]
    constructor
    · rintro ⟨mid, suf, rfl, hmid, hend⟩
      exact ⟨[], mid, suf, rfl, hmid, fun _ => rfl, hend⟩
    · rintro ⟨pre, mid, suf, rfl, hmid, hstart, hend⟩
      obtain rfl := hstart rfl
      exact ⟨mid, suf, rfl, hmid, hend⟩
  · rw [matchLoop_eq, matchstar_iff]
    simp only [matchhere_iff]
    constructor
    · rintro ⟨pre, _, rfl, -, mid, suf, rfl, hmid, hend⟩
      exact ⟨pre, mid, suf, (append_assoc ..).symm, hmid, nofun, hend⟩
    · rintro ⟨pre, mid, suf, rfl, hmid, -, hend⟩
      exact ⟨pre, mid ++ suf, append_assoc .., fun _ _ => .inl trivial, mid, suf, rfl, hmid, hend⟩

/-! ## The lines of a file -/

/-- `sizeof(buf)` -/
def bufSize : ℕ := 1024

/-- `strchr`: what is before the character, and what is after it. -/
def strchr (c : Char) : List Char → Option (List Char × List Char)
  | [] => none
  | x :: s =>
    if x = '\x00' then none
    else if x = c then some ([], s)
    else (strchr c s).map fun r => (x :: r.1, r.2)

/-- The inner loop of `grep`: what it writes, and what is at `p` in the end. -/
def grepLines (re : List Char) : ℕ → List Char → List Char × List Char
  | 0, p => ([], p)
  | fuel + 1, p =>
    match strchr '\n' p with
    | none => ([], p)
    | some (line, rest) =>
      let r := grepLines re fuel rest
      ((if matchText re line then line ++ ['\n'] else []) ++ r.1, r.2)

/-- `read`: some of the `n` bytes asked for, at least one unless the file is at its end. `chunk` says how
many, by how many the file still has. -/
def read (chunk : ℕ → ℕ) (input : List Char) (n : ℕ) : List Char × List Char :=
  input.splitAt (min (max 1 (chunk input.length)) n)

/-- The loop of `grep`; `buf` is the first `m` bytes of the buffer. -/
def grepLoop (re : List Char) (chunk : ℕ → ℕ) : ℕ → List Char → List Char → List Char
  | 0, _, _ => []
  | fuel + 1, input, buf =>
    let (data, input) := read chunk input (bufSize - buf.length - 1)
    if data = [] then []
    else
      let r := grepLines re (buf ++ data).length (buf ++ data)
      r.1 ++ grepLoop re chunk fuel input r.2

def grep (re : List Char) (chunk : ℕ → ℕ) (input : List Char) : List Char :=
  grepLoop re chunk (input.length + 1) input []

/-- The lines of a text that end with a newline, without it. -/
def lines : List Char → List (List Char)
  | [] => []
  | c :: s => if c = '\n' then [] :: lines s else (lines s).modifyHead (c :: ·)

/-- The lines that match, with their newlines. -/
def report (re : List Char) (ls : List (List Char)) : List Char :=
  (ls.filter (matchText re)).flatMap (· ++ ['\n'])

theorem report_cons (re line : List Char) (ls : List (List Char)) : report re (line :: ls) =
    (if matchText re line then line ++ ['\n'] else []) ++ report re ls := by
  unfold report
  rw [filter_cons]
  split <;> simp

theorem report_append (re : List Char) (ls ls' : List (List Char)) :
    report re (ls ++ ls') = report re ls ++ report re ls' := by
  simp [report]

theorem lines_append {buf : List Char} (h : '\n' ∉ buf) (s : List Char) :
    lines (buf ++ s) = (lines s).modifyHead (buf ++ ·) := by
  induction buf with
  | nil =>
    rw [nil_append]
    cases lines s <;> rfl
  | cons c buf ih =>
    rw [mem_cons, not_or] at h
    rw [cons_append, lines, if_neg (Ne.symm h.1), ih h.2, modifyHead_modifyHead]
    rfl

theorem strchr_spec {c : Char} {s : List Char} (hs : '\x00' ∉ s) : strchr c s = none ∧ c ∉ s ∨
      ∃ line rest, strchr c s = some (line, rest) ∧ c ∉ line ∧ s = line ++ c :: rest := by
  induction s with
  | nil => exact .inl ⟨rfl, not_mem_nil⟩
  | cons x s ih =>
    rw [mem_cons, not_or] at hs
    rw [strchr, if_neg (Ne.symm hs.1)]
    by_cases hc : x = c
    · exact .inr ⟨[], s, if_pos hc, not_mem_nil, by rw [hc]; rfl⟩
    · rw [if_neg hc]
      rcases ih hs.2 with ⟨he, hn⟩ | ⟨line, rest, he, hn, rfl⟩
      · exact .inl ⟨by rw [he]; rfl, by simp [Ne.symm hc, hn]⟩
      · exact .inr ⟨x :: line, rest, by rw [he]; rfl, by simp [Ne.symm hc, hn], rfl⟩

/-- **The inner loop reports the lines that are complete in the buffer** and leaves the rest. -/
theorem grepLines_spec (re : List Char) {fuel : ℕ} {s : List Char} (hs : '\x00' ∉ s)
    (hf : s.length ≤ fuel) :
    ∃ ls p, grepLines re fuel s = (report re ls, p) ∧ '\n' ∉ p ∧ p <:+ s ∧
      (∀ l ∈ ls, l.length < s.length) ∧ ∀ t, lines (s ++ t) = ls ++ lines (p ++ t) := by
  induction fuel generalizing s with
  | zero =>
    obtain rfl := length_eq_zero_iff.1 (Nat.le_zero.1 hf)
    exact ⟨[], [], rfl, by simp, suffix_rfl, by simp, fun _ => rfl⟩
  | succ fuel ih =>
    rw [grepLines]
    rcases strchr_spec (c := '\n') hs with ⟨he, hn⟩ | ⟨line, rest, he, hn, rfl⟩
    · rw [he]
      exact ⟨[], s, rfl, hn, suffix_rfl, by simp, fun _ => rfl⟩
    · rw [length_append, length_cons] at hf
      have hrest : '\x00' ∉ rest := fun h => hs (by simp [h])
      obtain ⟨ls, p, hr, hp, hsuf, hlen, hlines⟩ := ih hrest (by omega)
      refine ⟨line :: ls, p, ?_, hp, ?_, ?_, fun t => ?_⟩
      · rw [he, report_cons]
        simp only [hr]
      · exact hsuf.trans ⟨line ++ ['\n'], by simp⟩
      · intro l hl
        rw [length_append, length_cons]
        rcases mem_cons.1 hl with rfl | hl
        · omega
        · have := hlen l hl
          omega
      · rw [append_assoc, lines_append hn, cons_append, lines, if_pos rfl, hlines]
        simp

/-- **What `grep` writes**, with the start of a line in the buffer: the lines that match, up to the first
that does not fit into the buffer. -/
theorem grepLoop_eq (re : List Char) (chunk : ℕ → ℕ) {fuel : ℕ} {input buf : List Char}
    (hnul : '\x00' ∉ buf ++ input) (hbuf : '\n' ∉ buf) (hlen : buf.length < bufSize)
    (hf : input.length < fuel) : grepLoop re chunk fuel input buf =
      report re ((lines (buf ++ input)).takeWhile fun l => l.length + 1 < bufSize) := by
  induction fuel generalizing input buf with
  | zero => cases hf
  | succ fuel ih =>
    rw [grepLoop, read, splitAt_eq]
    dsimp only
    generalize hn : min (max 1 (chunk input.length)) (bufSize - buf.length - 1) = n
    by_cases hdata : input.take n = []
    · -- the file is at its end, or the buffer is full
      rw [if_pos hdata, lines_append hbuf]
      rcases take_eq_nil_iff.1 hdata with rfl | rfl
      · have hfull : bufSize ≤ buf.length + 1 := by omega
        cases lines input with
        | nil => rfl
        | cons l ls =>
          have : ¬ (buf ++ l).length + 1 < bufSize := by
            rw [length_append]
            omega
          rw [modifyHead_cons, takeWhile_cons_of_neg (by simpa using this)]
          rfl
      · rfl
    · rw [if_neg hdata]
      have hpos : 0 < n ∧ input ≠ [] := by
        simpa [Nat.pos_iff_ne_zero] using hdata
      have hin := length_pos_iff.2 hpos.2
      have hsplit : buf ++ input = buf ++ input.take n ++ input.drop n := by simp
      rw [hsplit] at hnul ⊢
      have hle : (buf ++ input.take n).length < bufSize := by
        rw [length_append, length_take]
        omega
      obtain ⟨ls, p, hr, hp, hsuf, hlens, hlines⟩ :=
        grepLines_spec re (fun h => hnul (mem_append_left _ h)) le_rfl
      have hall : ∀ l ∈ ls, decide (l.length + 1 < bufSize) = true := fun l hl =>
        decide_eq_true (lt_of_le_of_lt (hlens l hl) hle)
      rw [hr, hlines, takeWhile_append_of_pos hall, report_append]
      congr 1
      refine ih (fun h => hnul ?_) hp (lt_of_le_of_lt hsuf.length_le hle) ?_
      · rcases mem_append.1 h with h | h
        · exact mem_append_left _ (hsuf.subset h)
        · exact mem_append_right _ h
      · rw [length_drop]
        omega

end Xv6.Grep
