import Mathlib.Data.List.TakeWhile
import Xv6.Fs.Sysfile
import Xv6.Lib.Wp

/-!
# The shell's parser

The parsing half of `user/sh.c`. A pointer into the command line is the part of the line that starts
there: two pointers into one line are equal iff these parts are. Memory is a function of such pointers,
and the end `es` of the line is the empty part.

**Words.** `IsWord` says what a word of the line is, without the parser: a run of word characters that
cannot be longer. The cursor is never inside a word (`Cursor`), so that `gettoken` reads whole words,
and the trees have no others. A null is written where a word ends, and no word has a character there.

Main result: `nulterminate_correct`.
-/

open Function List

namespace Xv6.Sh

abbrev Ptr : Type := List Char

/-- The pointers `q` and `eq` to the start and the end of a word. -/
abbrev Word : Type := Ptr × Ptr

inductive Cmd where
  | exec (argv : List Word)
  | redir (cmd : Cmd) (file : Word) (mode fd : ℕ)
  | pipe (left right : Cmd)
  | list (left right : Cmd)
  | back (cmd : Cmd)

inductive Error where
  | panic (msg : String)
  | outOfFuel

/-- The state is the cursor `*ps`. -/
abbrev Parser : Type → Type := StateT Ptr (Except Error)

def whitespace : List Char := [' ', '\t', '\r', '\n', '\x0b']

def symbols : List Char := ['<', '|', '>', '&', ';', '(', ')']

def MAXARGS : ℕ := 10

def isWordChar (c : Char) : Bool := c ∉ whitespace ∧ c ∉ symbols

def skip (s : Ptr) : Ptr := s.dropWhile (· ∈ whitespace)

/-- The `switch` of `gettoken`: the token's code, and where the token ends. -/
def scan : Ptr → Char × Ptr
  | [] => ('\x00', [])
  | c :: s =>
    if c ∈ symbols then
      if c = '>' ∧ s.head? = some '>' then ('+', s.tail) else (c, s)
    else ('a', (c :: s).dropWhile isWordChar)

def gettoken : Parser (Char × Word) :=
  modifyGet fun ps => (((scan (skip ps)).1, skip ps, (scan (skip ps)).2), skip (scan (skip ps)).2)

def peek (toks : List Char) : Parser Bool :=
  modifyGet fun ps => ((skip ps).head?.any (· ∈ toks), skip ps)

/-- The `switch` of `parseredirs`. -/
def redirect (tok : Char) (cmd : Cmd) (file : Word) : Cmd :=
  match tok with
  | '<' => .redir cmd file O_RDONLY 0
  | '>' => .redir cmd file (O_WRONLY ||| O_CREATE ||| O_TRUNC) 1
  | '+' => .redir cmd file (O_WRONLY ||| O_CREATE) 1
  | _ => cmd

def parseredirs : ℕ → Cmd → Parser Cmd
  | 0, _ => throw .outOfFuel
  | fuel + 1, cmd => do
    if ← peek ['<', '>'] then
      let (tok, _) ← gettoken
      let (ret, file) ← gettoken
      if ret ≠ 'a' then throw (.panic "missing file for redirection")
      else parseredirs fuel (redirect tok cmd file)
    else return cmd

/-- `parseexec` stores into the `EXEC` node, which is below the redirections it has read. -/
def Cmd.addArg : Cmd → Word → Cmd
  | .exec argv, w => .exec (argv ++ [w])
  | .redir cmd file mode fd, w => .redir (cmd.addArg w) file mode fd
  | cmd, _ => cmd

/-- The loop of `parseexec`. -/
def args : ℕ → ℕ → Cmd → Parser Cmd
  | 0, _, _ => throw .outOfFuel
  | fuel + 1, argc, ret => do
    if ← peek ['|', ')', '&', ';'] then return ret
    else
      let (tok, w) ← gettoken
      if tok = '\x00' then return ret
      else if tok ≠ 'a' then throw (.panic "syntax")
      else if MAXARGS ≤ argc + 1 then throw (.panic "too many args")
      else
        let ret ← parseredirs fuel (ret.addArg w)
        args fuel (argc + 1) ret

/-- The loop of `parseline`. -/
def backs : ℕ → Cmd → Parser Cmd
  | 0, _ => throw .outOfFuel
  | fuel + 1, cmd => do
    if ← peek ['&'] then
      let _ ← gettoken
      backs fuel (.back cmd)
    else return cmd

mutual

def parseline : ℕ → Parser Cmd
  | 0 => throw .outOfFuel
  | fuel + 1 => do
    let cmd ← parsepipe fuel
    let cmd ← backs fuel cmd
    if ← peek [';'] then
      let _ ← gettoken
      let right ← parseline fuel
      return .list cmd right
    else return cmd

def parsepipe : ℕ → Parser Cmd
  | 0 => throw .outOfFuel
  | fuel + 1 => do
    let cmd ← parseexec fuel
    if ← peek ['|'] then
      let _ ← gettoken
      let right ← parsepipe fuel
      return .pipe cmd right
    else return cmd

def parseexec : ℕ → Parser Cmd
  | 0 => throw .outOfFuel
  | fuel + 1 => do
    if ← peek ['('] then parseblock fuel
    else
      let ret ← parseredirs fuel (.exec [])
      args fuel 0 ret

def parseblock : ℕ → Parser Cmd
  | 0 => throw .outOfFuel
  | fuel + 1 => do
    if ← peek ['('] then
      let _ ← gettoken
      let cmd ← parseline fuel
      if ← peek [')'] then
        let _ ← gettoken
        parseredirs fuel cmd
      else throw (.panic "syntax - missing )")
    else throw (.panic "parseblock")

end

/-- The bytes at the pointers. -/
abbrev Memory : Type := Ptr → Char

/-- The line before a null is written into it. -/
def line : Memory := fun p => p.headD '\x00'

def nulterminate : Cmd → Memory → Memory
  | .exec argv, m => argv.foldl (fun m w => update m w.2 '\x00') m
  | .redir cmd file _ _, m => update (nulterminate cmd m) file.2 '\x00'
  | .pipe left right, m | .list left right, m => nulterminate right (nulterminate left m)
  | .back cmd, m => nulterminate cmd m

/-- The tree, and the memory that is left. -/
def parsecmd (fuel : ℕ) : Parser (Cmd × Memory) := do
  let cmd ← parseline fuel
  let _ ← peek []
  if (← get) ≠ [] then throw (.panic "syntax")
  else return (cmd, nulterminate cmd line)

/-! ## Words -/

/-- The string at a pointer into the line. At `es` there is a null. -/
def cstring (m : Memory) : Ptr → List Char
  | [] => []
  | c :: p => if m (c :: p) = '\x00' then [] else m (c :: p) :: cstring m p

/-- The characters from `q` up to `eq`. -/
def text (w : Word) : List Char := w.1.take (w.1.length - w.2.length)

/-- The command, file and argument strings of a tree. -/
def Cmd.words : Cmd → List Word
  | .exec argv => argv
  | .redir cmd file _ _ => cmd.words ++ [file]
  | .pipe left right | .list left right => left.words ++ right.words
  | .back cmd => cmd.words

/-- **A word of the line `s`**: characters outside whitespace and symbols, as many as there are. -/
def IsWord (s : Ptr) (w : Word) : Prop := ∃ pre l, s = pre ++ (l ++ w.2) ∧ w.1 = l ++ w.2 ∧ l ≠ [] ∧
  (∀ c ∈ l, isWordChar c) ∧ (∀ c ∈ pre.getLast?, ¬ isWordChar c) ∧ ∀ c ∈ w.2.head?, ¬ isWordChar c

/-- A pointer into the line that is not inside a word. -/
def Cursor (s t : Ptr) : Prop :=
  ∃ pre, s = pre ++ t ∧ ∀ c ∈ pre.getLast?, ∀ d ∈ t.head?, isWordChar c → ¬ isWordChar d

variable {s t : Ptr} {w : Word} {cmd : Cmd} {α β : Type}

theorem not_of_head_dropWhile {p : Char → Bool} {l : List Char} :
    ∀ c ∈ (l.dropWhile p).head?, ¬ p c := fun c hc => by
  simpa [Option.mem_def.1 hc] using head?_dropWhile_not p l

theorem Cursor.advance {l r : List Char} (h : Cursor s (l ++ r))
    (hl : ∀ c ∈ l.getLast?, ∀ d ∈ r.head?, isWordChar c → ¬ isWordChar d) : Cursor s r := by
  obtain ⟨pre, rfl, hpre⟩ := h
  refine ⟨pre ++ l, (append_assoc ..).symm, ?_⟩
  rcases l.eq_nil_or_concat with rfl | ⟨l, a, rfl⟩
  · rwa [append_nil]
  · rwa [concat_eq_append, ← append_assoc, getLast?_concat, ← getLast?_concat (l := l), ← concat_eq_append]

theorem Cursor.skip (h : Cursor s t) : Cursor s (skip t) := by
  rw [← takeWhile_append_dropWhile (p := (· ∈ whitespace)) (l := t)] at h
  refine h.advance fun c hc _ _ hword => ?_
  have hblank := mem_takeWhile_imp (mem_of_mem_getLast? hc)
  exact absurd (of_decide_eq_true hblank) (of_decide_eq_true hword).1

/-- **`gettoken` reads a word as a whole.** -/
theorem Cursor.scan (h : Cursor s t) (ht : ∀ c ∈ t.head?, c ∉ whitespace) :
    Cursor s (scan t).2 ∧ ((scan t).1 = 'a' → IsWord s (t, (scan t).2)) := by
  cases t with
  | nil => exact ⟨h, nofun⟩
  | cons c t =>
    simp only [Sh.scan]
    split_ifs with hc hgt
    · obtain ⟨rfl, hhead⟩ := hgt
      obtain ⟨t, rfl⟩ := head?_eq_some_iff.1 hhead
      exact ⟨h.advance (l := ['>', '>']) (by simp [isWordChar, hc]), nofun⟩
    · refine ⟨h.advance (l := [c]) (by simp [isWordChar, hc]), ?_⟩
      rintro rfl
      exact absurd hc (by decide)
    · have hword : isWordChar c := decide_eq_true ⟨ht c rfl, hc⟩
      have hend := not_of_head_dropWhile (p := isWordChar) (l := c :: t)
      have hsplit := takeWhile_append_dropWhile (p := isWordChar) (l := c :: t)
      refine ⟨Cursor.advance (hsplit.symm ▸ h) fun _ _ d hd _ => hend d hd, fun _ => ?_⟩
      obtain ⟨pre, rfl, hpre⟩ := h
      refine ⟨pre, (c :: t).takeWhile isWordChar, by rw [hsplit], hsplit.symm, ?_,
        fun _ => mem_takeWhile_imp, fun d hd hw => hpre d hd c rfl hw hword, hend⟩
      rw [takeWhile_cons_of_pos hword]
      exact cons_ne_nil _ _

/-! ## Programs that move the cursor -/

/-- The cursor stays outside words, and a program returns what `Q` says. -/
def Keeps (s : Ptr) (Q : α → Prop) (m : Parser α) : Prop :=
  ∀ t, Cursor s t → Wp m (fun a t' => Cursor s t' ∧ Q a) (fun _ => True) t

/-- The strings of a tree are words of the line. -/
def Cmd.Of (s : Ptr) (cmd : Cmd) : Prop := ∀ w ∈ cmd.words, IsWord s w

namespace Keeps

variable {m m' : Parser α} {f : α → Parser β} {Q : α → Prop} {R : β → Prop}

theorem pure {a : α} (h : Q a) : Keeps s Q (Pure.pure a) := fun _ ht => Wp.pure ⟨ht, h⟩

theorem throw (e : Error) : Keeps s Q (MonadExcept.throw e : Parser α) := fun _ _ => Wp.throw trivial

theorem bind (hm : Keeps s Q m) (hf : ∀ a, Q a → Keeps s R (f a)) : Keeps s R (m >>= f) :=
  fun t ht => (hm t ht).bind fun a u hu => hf a hu.2 u hu.1

theorem ite {c : Prop} [Decidable c] (h : Keeps s Q m) (h' : ¬ c → Keeps s Q m') :
    Keeps s Q (if c then m else m') := fun t ht => Wp.ite (fun _ => h t ht) fun hc => h' hc t ht

theorem peek (toks : List Char) {k : Bool → Parser α} (h : ∀ b, Keeps s Q (k b)) :
    Keeps s Q (Sh.peek toks >>= k) := fun _ ht => Wp.run_bind rfl (h _ _ ht.skip)

theorem gettoken {k : Char × Word → Parser α} (h : ∀ c w, (c = 'a' → IsWord s w) → Keeps s Q (k (c, w))) :
    Keeps s Q (Sh.gettoken >>= k) := fun t ht => by
  obtain ⟨hcursor, hword⟩ := ht.skip.scan fun c hc hblank =>
    not_of_head_dropWhile c hc (decide_eq_true hblank)
  exact Wp.run_bind rfl (h _ _ hword _ hcursor.skip)

end Keeps

theorem Cmd.Of.redirect (h : cmd.Of s) (hw : IsWord s w) (tok : Char) : (redirect tok cmd w).Of s := by
  unfold Sh.redirect
  split
  all_goals grind [Cmd.Of, Cmd.words]

theorem Cmd.Of.addArg (h : cmd.Of s) (hw : IsWord s w) : (cmd.addArg w).Of s := by
  induction cmd with
  | exec argv => grind [Cmd.Of, Cmd.words, Cmd.addArg]
  | redir cmd file mode fd ih => grind [Cmd.Of, Cmd.words, Cmd.addArg]
  | pipe | list | back => exact h

theorem parseredirs_keeps (fuel : ℕ) (h : cmd.Of s) : Keeps s (Cmd.Of s) (parseredirs fuel cmd) := by
  induction fuel generalizing cmd with
  | zero => exact .throw _
  | succ fuel ih =>
    refine .peek _ fun _ => .ite ?_ fun _ => .pure h
    refine .gettoken fun tok _ _ => .gettoken fun ret file hfile => .ite (.throw _) fun hret => ?_
    exact ih (h.redirect (hfile (not_not.1 hret)) tok)

theorem args_keeps (fuel argc : ℕ) (h : cmd.Of s) : Keeps s (Cmd.Of s) (args fuel argc cmd) := by
  induction fuel generalizing argc cmd with
  | zero => exact .throw _
  | succ fuel ih =>
    refine .peek _ fun _ => .ite (.pure h) fun _ => .gettoken fun tok w hw => .ite (.pure h) fun _ => ?_
    refine .ite (.throw _) fun htok => .ite (.throw _) fun _ => ?_
    exact (parseredirs_keeps fuel (h.addArg (hw (not_not.1 htok)))).bind fun _ => ih _

theorem backs_keeps (fuel : ℕ) (h : cmd.Of s) : Keeps s (Cmd.Of s) (backs fuel cmd) := by
  induction fuel generalizing cmd with
  | zero => exact .throw _
  | succ fuel ih => exact .peek _ fun _ => .ite (.gettoken fun _ _ _ => ih h) fun _ => .pure h

theorem parse_keeps (s : Ptr) (fuel : ℕ) :
    Keeps s (Cmd.Of s) (parseline fuel) ∧ Keeps s (Cmd.Of s) (parsepipe fuel) ∧
    Keeps s (Cmd.Of s) (parseexec fuel) ∧ Keeps s (Cmd.Of s) (parseblock fuel) := by
  induction fuel with
  | zero => exact ⟨.throw _, .throw _, .throw _, .throw _⟩
  | succ fuel ih =>
    obtain ⟨hline, hpipe, hexec, hblock⟩ := ih
    refine ⟨?_, ?_, ?_, ?_⟩
    · refine hpipe.bind fun _ h => (backs_keeps fuel h).bind fun _ h => .peek _ fun _ => .ite ?_ fun _ => .pure h
      exact .gettoken fun _ _ _ => hline.bind fun _ h' => .pure (forall_mem_append.2 ⟨h, h'⟩)
    · refine hexec.bind fun _ h => .peek _ fun _ => .ite ?_ fun _ => .pure h
      exact .gettoken fun _ _ _ => hpipe.bind fun _ h' => .pure (forall_mem_append.2 ⟨h, h'⟩)
    · exact .peek _ fun _ => .ite hblock fun _ =>
        .bind (parseredirs_keeps fuel nofun) fun _ => args_keeps fuel 0
    · refine .peek _ fun _ => .ite (.gettoken fun _ _ _ => hline.bind fun _ h => ?_) fun _ => .throw _
      exact .peek _ fun _ => .ite (.gettoken fun _ _ _ => parseredirs_keeps fuel h) fun _ => .throw _

/-! ## Nulls -/

theorem nulterminate_eq (cmd : Cmd) (m : Memory) :
    nulterminate cmd m = cmd.words.foldl (fun m w => update m w.2 '\x00') m := by
  induction cmd generalizing m with
  | exec argv => rfl
  | redir cmd file mode fd ih => simp [nulterminate, Cmd.words, ih]
  | pipe _ _ ih ih' | list _ _ ih ih' => simp [nulterminate, Cmd.words, ih, ih']
  | back cmd ih => exact ih m

/-- Nulls are written at the ends of the words only. -/
theorem nulterminate_apply (cmd : Cmd) (m : Memory) (p : Ptr) :
    nulterminate cmd m p = if p ∈ cmd.words.map Prod.snd then '\x00' else m p := by
  rw [nulterminate_eq]
  induction cmd.words generalizing m with
  | nil => rfl
  | cons w ws ih =>
    rw [foldl_cons, ih, map_cons]
    by_cases hp : p = w.2
    · rw [hp, update_self, ite_self, if_pos mem_cons_self]
    · simp only [mem_cons, hp, false_or, update_of_ne, ne_eq, not_false_eq_true]

theorem cstring_word {m : Memory} (hm : ∀ c p, isWordChar c → m (c :: p) = c) {l r : List Char}
    (hl : ∀ c ∈ l, isWordChar c ∧ c ≠ '\x00') (hr : m r = '\x00') : cstring m (l ++ r) = l := by
  induction l with
  | nil =>
    cases r with
    | nil => rfl
    | cons c r => exact if_pos hr
  | cons c l ih =>
    obtain ⟨hc, hl⟩ := forall_mem_cons.1 hl
    rw [cons_append, cstring, hm _ _ hc.1, if_neg hc.2, ih hl]

/-- **After `nulterminate` each string of the tree is a word of the line**, and nothing of it is
missing or changed. -/
theorem nulterminate_correct (fuel : ℕ) (s : Ptr) {m : Memory} (hs : '\x00' ∉ s)
    (h : (parsecmd fuel).run s = .ok ((cmd, m), t)) :
    ∀ w ∈ cmd.words, IsWord s w ∧ cstring m w.1 = text w := by
  have hwp : Wp (parsecmd fuel) (fun r _ => r.1.Of s ∧ r.2 = nulterminate r.1 line) (fun _ => True) s := by
    refine ((parse_keeps s fuel).1 s ⟨[], rfl, nofun⟩).bind fun c u hu => Wp.run_bind rfl (Wp.get_bind ?_)
    exact Wp.ite (fun _ => Wp.throw trivial) fun _ => Wp.pure ⟨hu.2, rfl⟩
  obtain ⟨hof, rfl⟩ : cmd.Of s ∧ m = nulterminate cmd line := hwp.post_of_run h
  -- no word ends where a word character is
  have hchar : ∀ c p, isWordChar c → nulterminate cmd line (c :: p) = c := fun c p hc => by
    rw [nulterminate_apply, if_neg fun hp => ?_]
    · rfl
    · obtain ⟨v, hv, hend⟩ := mem_map.1 hp
      obtain ⟨_, _, _, _, _, _, _, hstop⟩ := hof v hv
      exact hstop c (by rw [hend]; rfl) hc
  intro w hw
  obtain ⟨pre, l, hsl, hw1, -, hl, -⟩ := hof w hw
  have htext : text w = l := by simp [text, hw1]
  refine ⟨hof w hw, ?_⟩
  rw [htext, hw1]
  refine cstring_word hchar (fun c hc => ⟨hl c hc, ?_⟩) ?_
  · rintro rfl
    exact hs (by simp [hsl, hc])
  · rw [nulterminate_apply, if_pos (mem_map_of_mem hw)]

/-- In `a>b` a word is followed by a symbol, which is overwritten, and another by the end of the line. -/
theorem nulterminate_correct_packed : ∃ cmd m t, (parsecmd 6).run ['a', '>', 'b'] = .ok ((cmd, m), t) ∧
    cmd.words.map text = [['a'], ['b']] ∧ m ['>', 'b'] = '\x00' ∧
    ∀ w ∈ cmd.words, cstring m w.1 = text w := by
  refine ⟨_, _, _, rfl, rfl, rfl, fun w hw => ?_⟩
  exact (nulterminate_correct 6 ['a', '>', 'b'] (by decide) rfl w hw).2

end Xv6.Sh
