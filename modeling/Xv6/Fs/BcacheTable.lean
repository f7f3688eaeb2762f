import Mathlib.Data.Fintype.Card
import Xv6.Fs.Bcache
import Xv6.Lib.Owners

/-!
# The buffer cache: list, reference counts and locks

What holds of the buffer cache whatever its users store in the buffers. The buffers form a ring
(`Ringed`). A block is cached by one buffer at most, and the reference count of a buffer is the
number of its uses, and one more if the log has pinned it (`Refs`). A sleep lock is held by one use
(`Locks`). The log's table has no block twice (`LogTable`).

`Move` lists the paths through the code; each of the invariants is followed along it.
-/

open List Transition

namespace Xv6

open LinkedChain Owners

theorem UseStage.holds_of_returned {st : UseStage} (h : st.returned = true) : st.holds = true := by
  cases st <;> first | rfl | cases h

namespace CacheState

variable {P B : Type*} {lg : LogArea} {s s' : CacheState P B} {b : BufId} {n : ℕ} {u u' : BufUse P}
  {st : UseStage} {e : CacheEvent P B}

theorem setBuf_buf (s : CacheState P B) (b c : BufId) (x : Buf P B) :
    (s.setBuf b x).buf c = if c = b then x else s.buf c := Function.update_apply s.buf b x c

theorem setBuf_refcnt_add (s : CacheState P B) (b : BufId) (k : ℕ) (c : BufId) :
    ((s.setBuf b { s.buf b with refcnt := (s.buf b).refcnt + k }).buf c).refcnt =
      (s.buf c).refcnt + if c = b then k else 0 := by
  rw [setBuf_buf]
  split_ifs with e
  · rw [e]
  · rfl

theorem setBuf_refcnt_sub (s : CacheState P B) (b : BufId) (k : ℕ) (c : BufId) :
    ((s.setBuf b { s.buf b with refcnt := (s.buf b).refcnt - k }).buf c).refcnt =
      (s.buf c).refcnt - if c = b then k else 0 := by
  rw [setBuf_buf]
  split_ifs with e
  · rw [e]
  · rfl

/-! ## The ring -/

def Ringed (s : CacheState P B) : Prop := ∃ l, Ring s.links l ∧ ∀ b, b ∈ l

theorem binit_ringed (disk : ℕ → B) (z : B) : Ringed (binit (P := P) disk z) := by
  have key : ∀ (xs l : List BufId) (r : Links BufId), Ring r l → xs.Nodup → (∀ b ∈ xs, b ∉ l) →
      Ring (xs.foldl (fun r b => r.pushFront b) r) (xs.reverse ++ l) := by
    intro xs
    induction xs with
    | nil => intro l r h _ _; exact h
    | cons x xs ih =>
      intro l r h hn hl
      rw [nodup_cons] at hn
      rw [foldl_cons, reverse_cons, append_assoc, singleton_append]
      refine ih (x :: l) _ (h.pushFront (hl x mem_cons_self)) hn.2 fun b hb hbl => ?_
      rcases mem_cons.mp hbl with rfl | hbl
      · exact hn.1 hb
      · exact hl b (mem_cons_of_mem _ hb) hbl
  have h := key (finRange NBUF) [] _ .empty (nodup_finRange _) fun _ _ => not_mem_nil
  exact ⟨_, h, fun b => by simp⟩

theorem ring_move {r : Links BufId} {l : List BufId} (h : Ring r l) (hl : ∀ b, b ∈ l)
    (b : BufId) : ∃ l', Ring ((r.unlink b).pushFront b) l' ∧ ∀ c, c ∈ l' := by
  obtain ⟨l1, l2, rfl⟩ := append_of_mem (hl b)
  have hb : b ∉ l1 ++ l2 := by
    have := h.nodup
    rw [nodup_middle, nodup_cons] at this
    exact this.1
  refine ⟨_, h.unlink.pushFront hb, fun c => ?_⟩
  have := hl c
  simp only [mem_append, mem_cons] at this ⊢
  tauto

theorem ring_length {r : Links BufId} {l : List BufId} (h : Ring r l) : l.length ≤ NBUF := by
  simpa using List.Nodup.length_le_card h.nodup

/-- The scans of `bget` see every buffer once, in opposite orders. -/
theorem scans {l : List BufId} (h : Ring s.links l) : s.scanNext = l ∧ s.scanPrev = l.reverse := by
  have hlen := ring_length h
  exact ⟨follow_eq h.forward hlen, follow_eq h.backward (by simpa using hlen)⟩

theorem Ringed.cached_none (h : s.Ringed) (hc : s.cached n = none) (b : BufId) :
    ¬ ((s.buf b).dev = ROOTDEV ∧ (s.buf b).blockno = n) := by
  obtain ⟨l, hr, hl⟩ := h
  rw [cached, (scans hr).1] at hc
  simpa using find?_eq_none.mp hc b (hl b)

theorem cached_some (hc : s.cached n = some b) :
    (s.buf b).dev = ROOTDEV ∧ (s.buf b).blockno = n := by
  simpa using find?_some hc

theorem lru_some (hc : s.lru = some b) : (s.buf b).refcnt = 0 := by
  simpa using find?_some hc

/-! ## Reference counts -/

/-- The buffers in use, once for each use. -/
def inUse (s : CacheState P B) : List BufId := s.uses.map BufUse.buf

/-- The blocks whose buffers the log has pinned. -/
def pinned (s : CacheState P B) : List ℕ :=
  match s.phase with
  | .install t => s.lh.drop t
  | .unpin t => s.lh.drop t
  | _ => s.lh

def Caches (s : CacheState P B) (b : BufId) (n : ℕ) : Prop :=
  (s.buf b).dev = ROOTDEV ∧ (s.buf b).blockno = n

instance (s : CacheState P B) (b : BufId) (n : ℕ) : Decidable (s.Caches b n) :=
  inferInstanceAs (Decidable (_ ∧ _))

/-- How often the log has pinned buffer `b`. -/
def pins (s : CacheState P B) (b : BufId) : ℕ :=
  if (s.buf b).dev = ROOTDEV ∧ (s.buf b).blockno ∈ s.pinned then 1 else 0

/-- Which buffer caches which block, and who refers to it. -/
structure Refs (s : CacheState P B) : Prop where
  unique : ∀ b b' n, s.Caches b n → s.Caches b' n → b = b'
  dev : ∀ b ∈ s.inUse, (s.buf b).dev = ROOTDEV
  refcnt : ∀ b, (s.buf b).refcnt = s.inUse.count b + s.pins b
  pin : ∀ n ∈ s.pinned, ∃ b, s.Caches b n

theorem binit_refs (disk : ℕ → B) (z : B) : Refs (binit (P := P) disk z) where
  unique b b' n h := absurd h.1 (by simp [binit])
  dev b hb := absurd hb not_mem_nil
  refcnt b := by simp [binit, inUse, pins]
  pin n hn := absurd hn not_mem_nil

theorem Refs.pos_of_inUse (h : s.Refs) (hb : b ∈ s.inUse) : 0 < (s.buf b).refcnt := by
  have := count_pos_iff.mpr hb
  have := h.refcnt b
  omega

theorem Refs.pos_of_pinned (h : s.Refs) (hb : s.Caches b n) (hn : n ∈ s.pinned) :
    0 < (s.buf b).refcnt := by
  have hpin : s.pins b = 1 := if_pos ⟨hb.1, hb.2 ▸ hn⟩
  have := h.refcnt b
  omega

/-- The block a buffer is for. -/
def block (x : Buf P B) : ℕ × ℕ := (x.dev, x.blockno)

theorem caches_congr (hb : block (s'.buf b) = block (s.buf b)) : s'.Caches b n ↔ s.Caches b n := by
  obtain ⟨hd, hn⟩ := Prod.mk.inj hb
  rw [Caches, Caches, hd, hn]

/-- No buffer is given to another block, and the counts follow the uses and pins. -/
theorem Refs.rebalance (h : s.Refs) (hb : ∀ b, block (s'.buf b) = block (s.buf b))
    (hu : ∀ b ∈ s'.inUse, (s.buf b).dev = ROOTDEV)
    (hp : ∀ n ∈ s'.pinned, ∃ b, s.Caches b n)
    (hr : ∀ b, (s'.buf b).refcnt + (s.inUse.count b + s.pins b) =
      (s.buf b).refcnt + (s'.inUse.count b + s'.pins b)) : s'.Refs := by
  refine ⟨?_, ?_, ?_, ?_⟩
  · intro b b' n h1 h2
    exact h.unique b b' n ((caches_congr (hb b)).mp h1) ((caches_congr (hb b')).mp h2)
  · intro b hb'
    rw [(Prod.mk.inj (hb b)).1]
    exact hu b hb'
  · intro b
    have := h.refcnt b
    have := hr b
    omega
  · intro n hn
    obtain ⟨b, hbn⟩ := hp n hn
    exact ⟨b, (caches_congr (hb b)).mpr hbn⟩

theorem pins_congr (hb : block (s'.buf b) = block (s.buf b))
    (hp : s'.pinned = s.pinned) : s'.pins b = s.pins b := by
  obtain ⟨hd, hn⟩ := Prod.mk.inj hb
  rw [pins, pins, hd, hn, hp]

/-- Neither the data of the buffers, nor the locks, nor the disk matter. -/
theorem Refs.congr (h : s.Refs) (hb : ∀ b, block (s'.buf b) = block (s.buf b))
    (hr : ∀ b, (s'.buf b).refcnt = (s.buf b).refcnt) (hu : s'.inUse.Perm s.inUse)
    (hp : s'.pinned = s.pinned) : s'.Refs := by
  refine h.rebalance hb ?_ ?_ ?_
  · intro b hb'
    exact h.dev b (hu.mem_iff.mp hb')
  · intro n hn
    exact h.pin n (hp ▸ hn)
  · intro b
    rw [hr b, hu.count_eq b, pins_congr (hb b) hp]

theorem count_cons_eq (b c : BufId) (l : List BufId) :
    (b :: l).count c = l.count c + if c = b then 1 else 0 := by
  by_cases e : c = b
  · subst e
    simp
  · simp [e, Ne.symm e]

theorem pins_insert (huniq : ∀ c, s.Caches c n → c = b) (hb : s.Caches b n)
    (hn : n ∉ s.pinned) (hblock : ∀ c, block (s'.buf c) = block (s.buf c))
    (hp : ∀ m, m ∈ s'.pinned ↔ m = n ∨ m ∈ s.pinned) (c : BufId) :
    s'.pins c = s.pins c + if c = b then 1 else 0 := by
  obtain ⟨hd, hno⟩ := Prod.mk.inj (hblock c)
  by_cases e : c = b
  · subst e
    have hnew : s'.pins c = 1 := if_pos ⟨hd.trans hb.1, (hp _).mpr (.inl (hno.trans hb.2))⟩
    have hold : s.pins c = 0 := if_neg fun hin => hn (hb.2 ▸ hin.2)
    simp [hnew, hold]
  · rw [if_neg e, Nat.add_zero, pins, pins, hd, hno]
    refine if_congr ⟨fun hin => ⟨hin.1, ?_⟩, fun hin => ⟨hin.1, (hp _).mpr (.inr hin.2)⟩⟩ rfl rfl
    rcases (hp _).mp hin.2 with hm | hm
    · exact absurd (huniq c ⟨hin.1, hm⟩) e
    · exact hm

section

variable (h : s.Refs)

include h

theorem Refs.addUse (hb : (s.buf b).dev = ROOTDEV)
    (hblock : ∀ c, block (s'.buf c) = block (s.buf c))
    (hr : ∀ c, (s'.buf c).refcnt = (s.buf c).refcnt + if c = b then 1 else 0)
    (hu : s'.inUse = b :: s.inUse) (hp : s'.pinned = s.pinned) : s'.Refs := by
  refine h.rebalance hblock ?_ ?_ ?_
  · intro c hc
    rcases mem_cons.mp (hu ▸ hc) with rfl | hc
    exacts [hb, h.dev c hc]
  · intro n hn
    exact h.pin n (hp ▸ hn)
  · intro c
    rw [pins_congr (hblock c) hp, hr, hu, count_cons_eq]
    omega

theorem Refs.dropUse (hblock : ∀ c, block (s'.buf c) = block (s.buf c))
    (hr : ∀ c, (s'.buf c).refcnt = (s.buf c).refcnt - if c = b then 1 else 0)
    (hu : s.inUse.Perm (b :: s'.inUse)) (hp : s'.pinned = s.pinned) : s'.Refs := by
  refine h.rebalance hblock ?_ ?_ ?_
  · intro c hc
    exact h.dev c (hu.mem_iff.mpr (mem_cons_of_mem b hc))
  · intro n hn
    exact h.pin n (hp ▸ hn)
  · intro c
    have hcount := hu.count_eq c
    have hold := h.refcnt c
    rw [count_cons_eq] at hcount
    rw [pins_congr (hblock c) hp, hr]
    omega

theorem Refs.bpin (hb : s.Caches b n) (hn : n ∉ s.pinned)
    (hblock : ∀ c, block (s'.buf c) = block (s.buf c))
    (hr : ∀ c, (s'.buf c).refcnt = (s.buf c).refcnt + if c = b then 1 else 0)
    (hu : s'.inUse.Perm s.inUse) (hp : ∀ m, m ∈ s'.pinned ↔ m = n ∨ m ∈ s.pinned) : s'.Refs := by
  refine h.rebalance hblock ?_ ?_ ?_
  · intro c hc
    exact h.dev c (hu.mem_iff.mp hc)
  · intro m hm
    rcases (hp m).mp hm with rfl | hm
    exacts [⟨b, hb⟩, h.pin m hm]
  · intro c
    rw [pins_insert (fun c hc => h.unique c b n hc hb) hb hn hblock hp, hr, hu.count_eq]
    omega

theorem Refs.bunpin (hb : s.Caches b n) (hn : n ∉ s'.pinned)
    (hblock : ∀ c, block (s'.buf c) = block (s.buf c))
    (hr : ∀ c, (s'.buf c).refcnt = (s.buf c).refcnt - if c = b then 1 else 0)
    (hu : s'.inUse = s.inUse) (hp : ∀ m, m ∈ s.pinned ↔ m = n ∨ m ∈ s'.pinned) : s'.Refs := by
  have huniq : ∀ c, s'.Caches c n → c = b := fun c hc =>
    h.unique c b n ((caches_congr (hblock c)).mp hc) hb
  refine h.rebalance hblock ?_ ?_ ?_
  · intro c hc
    exact h.dev c (hu ▸ hc)
  · intro m hm
    exact h.pin m ((hp m).mpr (.inr hm))
  · intro c
    have hpins := pins_insert huniq ((caches_congr (hblock b)).mpr hb) hn
      (fun c => (hblock c).symm) hp c
    have hold := h.refcnt c
    rw [hr, hu]
    omega

/-- A buffer is given to another block only when it is not in use. -/
theorem Refs.recycle (hn : ∀ c, ¬ s.Caches c n) (hb : (s.buf b).refcnt = 0) (p : P) :
    Refs { s.setBuf b { s.buf b with dev := ROOTDEV, blockno := n, valid := false, refcnt := 1 } with
      uses := ⟨p, b, .waiting⟩ :: s.uses } := by
  have hunused : b ∉ s.inUse := fun hin => absurd (h.pos_of_inUse hin) (by omega)
  have hpinned : n ∉ s.pinned := fun hin => (h.pin n hin).elim hn
  have hne : ∀ c, (s.buf c).refcnt ≠ 0 → c ≠ b := by
    rintro c hc rfl
    exact hc hb
  refine ⟨?_, ?_, ?_, ?_⟩
  · intro c c' m hc hc'
    by_cases e : c = b <;> by_cases e' : c' = b <;>
      simp only [Caches, setBuf, Function.update_apply, e, e', if_true, if_false] at hc hc'
    · exact e.trans e'.symm
    · exact absurd (hc.2 ▸ hc') (hn c')
    · exact absurd (hc'.2 ▸ hc) (hn c)
    · exact h.unique c c' m hc hc'
  · intro c hc
    rcases mem_cons.mp hc with rfl | hc
    · simp [setBuf]
    · have hcb : c ≠ b := ne_of_mem_of_not_mem hc hunused
      simpa [setBuf, hcb] using h.dev c hc
  · intro c
    have hr := h.refcnt c
    by_cases e : c = b
    · subst e
      have hcount : s.inUse.count c = 0 := count_eq_zero.mpr hunused
      show _ = (c :: s.inUse).count c + if _ ∧ _ ∈ s.pinned then 1 else 0
      simp [setBuf, hpinned, hcount]
    · show _ = (b :: s.inUse).count c + if _ ∧ _ ∈ s.pinned then 1 else 0
      rw [count_cons_of_ne (Ne.symm e)]
      simpa [setBuf, e, pins] using hr
  · intro m hm
    obtain ⟨c, hc⟩ := h.pin m hm
    have hcb : c ≠ b := hne c (h.pos_of_pinned hc hm).ne'
    exact ⟨c, by simpa [Caches, setBuf, hcb] using hc⟩

end

/-! ## Locks -/

/-- The use is of buffer `b` and holds its lock. -/
def holding (b : BufId) (u : BufUse P) : Bool := decide (u.buf = b) && u.stage.holds

/-- A sleep lock is held by the process it names and by no other. -/
def Locks (s : CacheState P B) : Prop :=
  ∀ b, Exclusive (holding b) BufUse.proc s.uses (s.buf b).lock

theorem binit_locks (disk : ℕ → B) (z : B) : Locks (binit (P := P) disk z) := fun _ => .nil

theorem Locks.congr (h : s.Locks) (hl : ∀ b, (s'.buf b).lock = (s.buf b).lock)
    (hu : ∀ b k, Exclusive (holding b) BufUse.proc s.uses k →
      Exclusive (holding b) BufUse.proc s'.uses k) : s'.Locks := by
  intro b
  rw [hl b]
  exact hu b _ (h b)

section

variable [DecidableEq P]

theorem inUse_erase (hu : u ∈ s.uses) : s.inUse.Perm (u.buf :: (s.uses.erase u).map BufUse.buf) :=
  (perm_cons_erase hu).map BufUse.buf

theorem setUse_inUse (hu : u ∈ s.uses) (hb : u'.buf = u.buf) : (s.setUse u u').inUse.Perm s.inUse := by
  show (u'.buf :: (s.uses.erase u).map BufUse.buf).Perm s.inUse
  rw [hb]
  exact (inUse_erase hu).symm

theorem exclusive_restage (hu : u ∈ s.uses) (hst : st.holds = u.stage.holds) (b : BufId) (k : Option P)
    (h : Exclusive (holding b) BufUse.proc s.uses k) :
    Exclusive (holding b) BufUse.proc (s.setUse u { u with stage := st }).uses k :=
  h.keep hu (by simp [holding, hst]) rfl

theorem exclusive_other (hu : u ∈ s.uses) (hb : b ≠ u.buf) {k : Option P}
    (h : Exclusive (holding b) BufUse.proc s.uses k) :
    Exclusive (holding b) BufUse.proc (s.setUse u { u with stage := st }).uses k :=
  h.keep hu (by simp [holding, Ne.symm hb]) rfl

theorem Locks.acquiresleep (h : s.Locks) (hu : u ∈ s.uses) (hl : (s.buf u.buf).lock = none) :
    (s.acquiresleep u).Locks := by
  refine locks_update Buf.lock h ?_ fun b k hb hk => exclusive_other hu hb hk
  have hfree := h u.buf
  rw [hl] at hfree
  exact hfree.acquire (v := { u with stage := .locked }) hu (by simp [holding, UseStage.holds])

theorem Locks.releasesleep (h : s.Locks) (hu : u ∈ s.uses) (hst : u.stage.holds = true) :
    (s.releasesleep u).Locks := by
  refine locks_update Buf.lock h ?_ fun b k hb hk => exclusive_other hu hb hk
  exact (h u.buf).release (v := { u with stage := .released }) hu (by simp [holding, hst])
    (by simp [holding, UseStage.holds])

end

/-! ## The table of the log -/

/-- The index in the table that `commit` has reached. -/
def InTable (s : CacheState P B) : Prop :=
  match s.phase with
  | .writeLog t => t ≤ s.lh.length
  | .install t => t ≤ s.lh.length
  | .unpin t => t < s.lh.length
  | .finish => s.lh = []
  | .idle => True

structure LogTable (s : CacheState P B) : Prop where
  nodup : s.lh.Nodup
  inTable : s.InTable
  quiet : s.phase ≠ .idle → s.active = []

theorem binit_logTable (disk : ℕ → B) (z : B) : LogTable (binit (P := P) disk z) :=
  ⟨nodup_nil, trivial, fun h => absurd rfl h⟩

theorem LogTable.idle (h : s.LogTable) {p : P} (hp : p ∈ s.active) : s.phase = .idle := by
  by_contra hph
  rw [h.quiet hph] at hp
  exact not_mem_nil hp

/-! ## What a step does -/

section

variable [DecidableEq P]

/-- The steps, one constructor for each path through the code. -/
inductive Move (lg : LogArea) (s : CacheState P B) : CacheEvent P B → CacheState P B → Prop
  | hit {p : P} {n : ℕ} {b : BufId} (hc : s.cached n = some b) :
      Move lg s (.bget p n) { s.setBuf b { s.buf b with refcnt := (s.buf b).refcnt + 1 } with
        uses := ⟨p, b, .waiting⟩ :: s.uses }
  | recycle {p : P} {n : ℕ} {b : BufId} (hc : s.cached n = none) (hb : s.lru = some b) :
      Move lg s (.bget p n) { s.setBuf b { s.buf b with
          dev := ROOTDEV, blockno := n, valid := false, refcnt := 1 } with
        uses := ⟨p, b, .waiting⟩ :: s.uses }
  | acquiresleep {u : BufUse P} (hu : u ∈ s.uses) (hst : u.stage = .waiting)
      (hl : (s.buf u.buf).lock = none) : Move lg s (.acquiresleep u) (s.acquiresleep u)
  | bread {u : BufUse P} (hu : u ∈ s.uses) (hst : u.stage = .locked) :
      Move lg s (.bread u) (s.bread u)
  | modify {u : BufUse P} {v : B} (hu : u ∈ s.uses) (hst : u.stage.returned = true) :
      Move lg s (.modify u v) (s.modify u v)
  | bwrite {u : BufUse P} (hu : u ∈ s.uses) (hst : u.stage.returned = true) :
      Move lg s (.bwrite u) (s.bwrite u)
  | logAgain {u : BufUse P} (hu : u ∈ s.uses) (hst : u.stage.returned = true)
      (hact : u.proc ∈ s.active) (hn : (s.buf u.buf).blockno ∈ s.lh) :
      Move lg s (.logWrite u) (s.setUse u { u with stage := .ready })
  | logNew {u : BufUse P} (hu : u ∈ s.uses) (hst : u.stage.returned = true)
      (hact : u.proc ∈ s.active) (hfit : ¬ s.TooBig lg) (hn : (s.buf u.buf).blockno ∉ s.lh) :
      Move lg s (.logWrite u)
        { (s.setBuf u.buf { s.buf u.buf with refcnt := (s.buf u.buf).refcnt + 1 }).setUse u
            { u with stage := .ready } with
          lh := s.lh ++ [(s.buf u.buf).blockno] }
  | releasesleep {u : BufUse P} (hu : u ∈ s.uses) (hst : u.stage = .ready) :
      Move lg s (.releasesleep u) (s.releasesleep u)
  | brelse {u : BufUse P} (hu : u ∈ s.uses) (hst : u.stage = .released) :
      Move lg s (.brelse u) (s.brelse u)
  | beginOp {p : P} (hidle : s.phase = .idle) :
      Move lg s (.beginOp p) { s with active := p :: s.active }
  | endOp {p : P} (hidle : s.phase = .idle) :
      Move lg s (.endOp p) { s with active := s.active.erase p }
  | commit {p : P} (hidle : s.phase = .idle) :
      Move lg s (.endOp p) { s with active := [], phase := .writeLog 0, committer := some p }
  | noCommit {p : P} (hidle : s.phase = .idle) (hlh : s.lh = []) :
      Move lg s (.endOp p) { s with active := [], phase := .finish, committer := some p }
  | writeLog {t n : ℕ} {tobuf frombuf : BufUse P} (hph : s.phase = .writeLog t)
      (ht : s.Holds tobuf (lg.start + t + 1)) (hn : s.lh[t]? = some n) (hf : s.Holds frombuf n) :
      Move lg s (.writeLog tobuf frombuf) (s.writeLogOne t tobuf frombuf)
  | startInstall (hph : s.phase = .writeLog s.lh.length) :
      Move lg s .startInstall { s with phase := .install 0 }
  | install {t n : ℕ} {lbuf dbuf : BufUse P} (hph : s.phase = .install t)
      (hl : s.Holds lbuf (lg.start + t + 1)) (hn : s.lh[t]? = some n) (hd : s.Holds dbuf n) :
      Move lg s (.install lbuf dbuf) (s.installOne t lbuf dbuf)
  | bunpin {t n : ℕ} {dbuf : BufUse P} (hph : s.phase = .unpin t) (hn : s.lh[t]? = some n)
      (hd : s.Holds dbuf n) : Move lg s (.bunpin dbuf) (s.bunpin t dbuf)
  | clear (hph : s.phase = .install s.lh.length) :
      Move lg s .clear { s with lh := [], phase := .finish }
  | finish (hph : s.phase = .finish) :
      Move lg s .finish { s with phase := .idle, committer := none }

theorem step_move (hs : step lg e s = some s') : Move lg s e s' := by
  cases e with
  | bget p n =>
    simp only [step, bget] at hs
    split at hs
    case h_1 b hb =>
      cases hs
      exact .hit hb
    case h_2 hnone =>
      split at hs
      case h_1 b hb =>
        cases hs
        exact .recycle hnone hb
      case h_2 => cases hs
  | acquiresleep u =>
    obtain ⟨⟨hu, hst, hl⟩, rfl⟩ := of_guard hs
    exact .acquiresleep hu hst hl
  | bread u =>
    obtain ⟨⟨hu, hst⟩, rfl⟩ := of_guard hs
    exact .bread hu hst
  | modify u v =>
    obtain ⟨⟨hu, hst⟩, rfl⟩ := of_guard hs
    exact .modify hu hst
  | bwrite u =>
    obtain ⟨⟨hu, hst⟩, rfl⟩ := of_guard hs
    exact .bwrite hu hst
  | logWrite u =>
    obtain ⟨⟨hu, hst, hact, hfit⟩, rfl⟩ := of_guard hs
    by_cases hn : (s.buf u.buf).blockno ∈ s.lh
    · rw [show s.logWrite u = _ from if_pos hn]
      exact .logAgain hu hst hact hn
    · rw [show s.logWrite u = _ from if_neg hn]
      exact .logNew hu hst hact hfit hn
  | releasesleep u =>
    obtain ⟨⟨hu, hst⟩, rfl⟩ := of_guard hs
    exact .releasesleep hu hst
  | brelse u =>
    obtain ⟨⟨hu, hst⟩, rfl⟩ := of_guard hs
    exact .brelse hu hst
  | beginOp p =>
    obtain ⟨⟨hidle, -⟩, rfl⟩ := of_guard hs
    exact .beginOp hidle
  | endOp p =>
    obtain ⟨⟨hidle, -⟩, rfl⟩ := of_guard hs
    unfold CacheState.endOp
    dsimp only
    split_ifs with hlast hlh
    · rw [hlast]
      exact .noCommit hidle hlh
    · rw [hlast]
      exact .commit hidle
    · exact .endOp hidle
  | writeLog tobuf frombuf =>
    simp only [step] at hs
    split at hs
    case h_2 => cases hs
    case h_1 t hph =>
      obtain ⟨⟨ht, n, hn, hf⟩, rfl⟩ := of_guard hs
      exact .writeLog hph ht hn hf
  | startInstall =>
    obtain ⟨hph, rfl⟩ := of_guard hs
    exact .startInstall hph
  | install lbuf dbuf =>
    simp only [step] at hs
    split at hs
    case h_2 => cases hs
    case h_1 t hph =>
      obtain ⟨⟨hl, n, hn, hd⟩, rfl⟩ := of_guard hs
      exact .install hph hl hn hd
  | bunpin dbuf =>
    simp only [step] at hs
    split at hs
    case h_2 => cases hs
    case h_1 t hph =>
      obtain ⟨⟨n, hn, hd⟩, rfl⟩ := of_guard hs
      exact .bunpin hph hn hd
  | clear =>
    obtain ⟨hph, rfl⟩ := of_guard hs
    exact .clear hph
  | finish =>
    obtain ⟨hph, rfl⟩ := of_guard hs
    exact .finish hph

/-! ## Every step keeps the ring, the table of the log, the counts and the locks -/

/-- Only `brelse` moves a buffer. -/
theorem Ringed.move (h : s.Ringed) (hs : Move lg s e s') : s'.Ringed := by
  cases hs with
  | brelse hu hst =>
    rename_i u
    obtain ⟨l, hr, hl⟩ := h
    unfold CacheState.brelse Ringed
    dsimp only
    split_ifs
    · exact ring_move hr hl u.buf
    · exact ⟨l, hr, hl⟩
  | _ => exact h

theorem LogTable.move (h : s.LogTable) (hs : Move lg s e s') : s'.LogTable := by
  cases hs with
  | logNew hu hst hact hfit hn =>
    have hidle := h.idle hact
    refine ⟨?_, ?_, fun hph => absurd hidle hph⟩
    · refine List.nodup_append.mpr ⟨h.nodup, List.nodup_singleton _, ?_⟩
      rintro a ha b hb rfl
      rw [List.mem_singleton] at hb
      exact hn (hb ▸ ha)
    · show InTable { s with lh := _ }
      simp only [InTable, hidle]
  | beginOp hidle | endOp hidle => exact ⟨h.nodup, h.inTable, fun hph => absurd hidle hph⟩
  | commit hidle => exact ⟨h.nodup, Nat.zero_le _, fun _ => rfl⟩
  | noCommit hidle hlh => exact ⟨h.nodup, hlh, fun _ => rfl⟩
  | writeLog hph ht hn hf | install hph hl hn hd | bunpin hph hn hd =>
    exact ⟨h.nodup, (List.getElem?_eq_some_iff.mp hn).1, fun _ => h.quiet (by simp [hph])⟩
  | startInstall hph => exact ⟨h.nodup, Nat.zero_le _, fun _ => h.quiet (by simp [hph])⟩
  | clear hph => exact ⟨List.nodup_nil, rfl, fun _ => h.quiet (by simp [hph])⟩
  | finish hph => exact ⟨h.nodup, trivial, fun hph => absurd rfl hph⟩
  | _ => exact ⟨h.nodup, h.inTable, h.quiet⟩

/-- `acquiresleep` and `releasesleep` apart, nobody takes or gives up a lock. -/
theorem Locks.move (h : s.Locks) (hs : Move lg s e s') : s'.Locks := by
  cases hs with
  | hit | recycle =>
    exact h.congr (update_keeps Buf.lock rfl) fun b k hk => hk.add (by simp [holding, UseStage.holds])
  | acquiresleep hu hst hl => exact h.acquiresleep hu hl
  | bread hu hst =>
    refine h.congr (update_keeps Buf.lock ?_) (exclusive_restage hu ?_)
    · split_ifs <;> rfl
    · rw [hst]; rfl
  | modify hu hst | logNew hu hst =>
    exact h.congr (update_keeps Buf.lock rfl)
      (exclusive_restage hu (UseStage.holds_of_returned hst).symm)
  | bwrite hu hst | logAgain hu hst =>
    exact h.congr (fun _ => rfl) (exclusive_restage hu (UseStage.holds_of_returned hst).symm)
  | releasesleep hu hst => exact h.releasesleep hu (by rw [hst]; rfl)
  | brelse hu hst =>
    exact h.congr (update_keeps Buf.lock rfl) fun b k hk =>
      hk.remove hu (by simp [holding, hst, UseStage.holds])
  | writeLog | install | bunpin => exact h.congr (update_keeps Buf.lock rfl) fun _ _ hk => hk
  | _ => exact h.congr (fun _ => rfl) fun _ _ hk => hk

theorem Refs.move (h : s.Refs) (hr : s.Ringed) (hl : s.LogTable) (hs : Move lg s e s') : s'.Refs := by
  cases hs with
  | hit hc =>
    exact h.addUse (cached_some hc).1 (update_keeps block rfl) (setBuf_refcnt_add s _ 1) rfl rfl
  | recycle hc hb => exact h.recycle (hr.cached_none hc) (lru_some hb) _
  | acquiresleep hu hst | modify hu hst | releasesleep hu hst =>
    exact h.congr (update_keeps block rfl) (update_keeps Buf.refcnt rfl) (setUse_inUse hu rfl) rfl
  | bread hu hst =>
    refine h.congr (update_keeps block ?_) (update_keeps Buf.refcnt ?_) (setUse_inUse hu rfl) rfl
    all_goals split_ifs <;> rfl
  | bwrite hu hst | logAgain hu hst =>
    exact h.congr (fun _ => rfl) (fun _ => rfl) (setUse_inUse hu rfl) rfl
  | logNew hu hst hact hfit hn =>
    have hpin : s.pinned = s.lh := by simp [pinned, hl.idle hact]
    refine h.bpin ⟨h.dev _ (List.mem_map_of_mem hu), rfl⟩ (hpin ▸ hn) (update_keeps block rfl)
      (setBuf_refcnt_add s _ 1) (setUse_inUse hu rfl) fun m => ?_
    simp [pinned, setUse, setBuf, hl.idle hact, or_comm]
  | brelse hu hst =>
    exact h.dropUse (update_keeps block rfl) (setBuf_refcnt_sub s _ 1) (inUse_erase hu) rfl
  | beginOp | endOp => exact h.congr (fun _ => rfl) (fun _ => rfl) .rfl rfl
  | commit hidle | noCommit hidle =>
    exact h.congr (fun _ => rfl) (fun _ => rfl) .rfl (by simp [pinned, hidle])
  | writeLog hph =>
    exact h.congr (update_keeps block rfl) (update_keeps Buf.refcnt rfl) .rfl
      (by simp [pinned, hph, writeLogOne, copyBuf, setBuf])
  | startInstall hph | clear hph | finish hph =>
    exact h.congr (fun _ => rfl) (fun _ => rfl) .rfl (by simp [pinned, hph])
  | install hph =>
    exact h.congr (update_keeps block rfl) (update_keeps Buf.refcnt rfl) .rfl
      (by simp [pinned, hph, installOne, copyBuf, setBuf])
  | bunpin hph hn hd =>
    obtain ⟨ht, rfl⟩ := List.getElem?_eq_some_iff.mp hn
    rename_i t dbuf
    have hdrop := List.drop_eq_getElem_cons ht
    have hnot : s.lh[t] ∉ s.lh.drop (t + 1) := by
      have := hl.nodup.sublist (List.drop_sublist t s.lh)
      rw [hdrop, List.nodup_cons] at this
      exact this.1
    refine h.bunpin ⟨h.dev _ (List.mem_map_of_mem hd.1), hd.2.2.2⟩ hnot (update_keeps block rfl)
      (setBuf_refcnt_sub s _ 1) rfl fun m => ?_
    show m ∈ s.pinned ↔ m = s.lh[t] ∨ m ∈ s.lh.drop (t + 1)
    simp only [pinned, hph, hdrop, List.mem_cons]

end

end CacheState

end Xv6
