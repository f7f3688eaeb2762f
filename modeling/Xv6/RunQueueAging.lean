import Xv6.RunQueueProof

/-!
# Aging

What a tick does to the lists of the abstract queue. A process is due when its next tick is the
twentieth and there is a level above its own. The loop of `prio_on_tick` moves the processes that
are due to the end of the level above, in the order of their level (`Fifo.onTick_q`); as that level
has been treated already, no process is treated twice.

**Order.** On every level but the first the waiting times do not increase from head to tail, and
none has come to twenty (`Fifo.Sorted`): a process enters a level at its end, with nothing waited.
So the processes that are due are a first part of their level, and moving them to the end of the
level above does not change the order in which processes will be picked (`aging_keeps_order`).

**No starvation.** While a process is in the queue, its level after `t` ticks is determined, and
once it is on the first level nobody overtakes it (`aging_prevents_starvation`).
-/

open Function List Option Transition

namespace Xv6

open Fifo

namespace Fifo

variable {a b : Fifo} {p x : ProcId} {l : Level} {m : ℕ}

/-- A process on a level has the priority of the level, and no level has a process twice. -/
structure Wf (a : Fifo) : Prop where
  prio : ∀ l, ∀ p ∈ a.q l, a.prio p = l
  nodup : ∀ l, (a.q l).Nodup

theorem Wf.level_unique (h : a.Wf) {k : Level} (hl : p ∈ a.q l) (hk : p ∈ a.q k) : l = k := by
  have h1 := h.prio l p hl
  have h2 := h.prio k p hk
  exact Fin.ext (by omega)

/-- The processes of a list that are due. -/
def due (a : Fifo) (L : List ProcId) : List ProcId := L.filter fun p => a.aged p

/-- The processes of a list that stay. -/
def stay (a : Fifo) (L : List ProcId) : List ProcId := L.filter fun p => ¬ a.aged p

/-! ## One level -/

/-- What the loop does to the processes `L` of level `l`, where `pre` have been treated before. -/
structure Aged (l : Level) (pre L : List ProcId) (a b : Fifo) : Prop where
  here : b.q l = pre ++ a.stay L
  above : ∀ k : Level, (k : ℕ) + 1 = l → b.q k = a.q k ++ a.due L
  other : ∀ k : Level, k ≠ l → (k : ℕ) + 1 ≠ l → b.q k = a.q k
  prio : ∀ p, b.prio p = if p ∈ L ∧ a.aged p then a.prio p - 1 else a.prio p
  wait : ∀ p, b.waitTicks p =
    if p ∈ L then (if a.aged p then 0 else a.waitTicks p + 1) else a.waitTicks p

theorem aged_congr (h : b.prio p = a.prio p ∧ b.waitTicks p = a.waitTicks p) :
    b.aged p ↔ a.aged p := by
  unfold aged
  rw [h.1, h.2]

theorem due_congr {L : List ProcId} (h : ∀ x ∈ L, b.aged x ↔ a.aged x) :
    b.due L = a.due L ∧ b.stay L = a.stay L :=
  ⟨filter_congr fun x hx => decide_eq_decide.2 (h x hx),
    filter_congr fun x hx => decide_eq_decide.2 (not_congr (h x hx))⟩

theorem age_due (hp : a.prio p = l) (hdue : a.aged p) {k : Level} (hk : (k : ℕ) + 1 = l) :
    age l a p = ⟨RunQueue.append (RunQueue.erase a.q l p) k p,
      update a.prio p (a.prio p - 1), update a.waitTicks p 0⟩ := by
  have hlev : level? (a.prio p - 1) = some k := by
    rw [level?_eq_some, hp]
    omega
  unfold age
  rw [if_pos hdue, hlev]

theorem age_stay (hdue : ¬ a.aged p) : age l a p =
    { a with waitTicks := update a.waitTicks p (a.waitTicks p + 1) } := if_neg hdue

theorem exists_above (hp : a.prio p = l) (hdue : a.aged p) : ∃ k : Level, (k : ℕ) + 1 = l := by
  have hpos := hdue.2
  rw [hp, prioMin] at hpos
  have := l.isLt
  exact ⟨⟨l - 1, by omega⟩, by simp only; omega⟩

theorem age_fields (hx : x ≠ p) :
    (age l a p).prio x = a.prio x ∧ (age l a p).waitTicks x = a.waitTicks x := by
  unfold age
  split_ifs
  · exact ⟨update_of_ne hx _ _, update_of_ne hx _ _⟩
  · exact ⟨rfl, update_of_ne hx _ _⟩

theorem age_self (hp : a.prio p = l) :
    (age l a p).prio p = (if a.aged p then a.prio p - 1 else a.prio p) ∧
      (age l a p).waitTicks p = if a.aged p then 0 else a.waitTicks p + 1 := by
  split_ifs with hdue
  · obtain ⟨k, hk⟩ := exists_above hp hdue
    rw [age_due hp hdue hk]
    exact ⟨update_self .., update_self ..⟩
  · rw [age_stay hdue]
    exact ⟨rfl, update_self ..⟩

theorem foldl_age (L pre : List ProcId) (hq : a.q l = pre ++ L) (hnd : (pre ++ L).Nodup)
    (hprio : ∀ p ∈ L, a.prio p = l) : Aged l pre L a (L.foldl (age l) a) := by
  induction L generalizing a pre with
  | nil =>
    constructor
    · exact hq
    · intro k _
      exact (append_nil _).symm
    · intro k _ _
      rfl
    · intro p
      simp
    · intro p
      simp
  | cons c L ih =>
    have hcL : c ∉ L := (nodup_cons.1 (nodup_append.1 hnd).2.1).1
    have hne : ∀ x ∈ L, x ≠ c := fun x hx => ne_of_mem_of_not_mem hx hcL
    have haged : ∀ x ∈ L, (age l a c).aged x ↔ a.aged x := fun x hx =>
      aged_congr (age_fields (hne x hx))
    obtain ⟨hfdue, hfstay⟩ := due_congr haged
    have hprio' : ∀ x ∈ L, (age l a c).prio x = l := fun x hx => by
      rw [(age_fields (hne x hx)).1]
      exact hprio x (mem_cons_of_mem c hx)
    have hc : a.prio c = l := hprio c mem_cons_self
    -- the fields after the whole loop, from those after the first process
    have hfields : ∀ (b : Fifo) (pre' : List ProcId), Aged l pre' L (age l a c) b →
        (∀ p, b.prio p = if p ∈ c :: L ∧ a.aged p then a.prio p - 1 else a.prio p) ∧
        ∀ p, b.waitTicks p =
          if p ∈ c :: L then (if a.aged p then 0 else a.waitTicks p + 1) else a.waitTicks p := by
      intro b pre' hb
      refine ⟨fun p => ?_, fun p => ?_⟩
      · rw [hb.prio]
        by_cases hp : p = c
        · subst hp
          simp only [hcL, false_and, if_false, mem_cons_self, true_and, (age_self hc).1]
        · rw [(age_fields hp).1]
          by_cases hpL : p ∈ L
          · simp only [hpL, haged p hpL, mem_cons, hp, false_or]
          · simp only [hpL, mem_cons, hp, false_or, false_and, if_false]
      · rw [hb.wait]
        by_cases hp : p = c
        · subst hp
          simp only [hcL, if_false, mem_cons_self, if_true, (age_self hc).2]
        · rw [(age_fields hp).2]
          by_cases hpL : p ∈ L
          · simp only [hpL, haged p hpL, mem_cons, hp, false_or]
          · simp only [hpL, mem_cons, hp, false_or, if_false]
    rw [foldl_cons]
    by_cases hdue : a.aged c
    · obtain ⟨k, hk⟩ := exists_above hc hdue
      have hkl : k ≠ l := fun e => by rw [e] at hk; omega
      have hhere : (age l a c).q l = pre ++ L := by
        rw [age_due hc hdue hk]
        simp only [RunQueue.append, update_of_ne hkl.symm, RunQueue.erase, update_self]
        exact RunQueue.erase_of_split hq (hq ▸ hnd)
      have hnd' : (pre ++ L).Nodup :=
        hnd.sublist (List.Sublist.append_left (sublist_cons_self c L) pre)
      have hrest := ih pre hhere hnd' hprio'
      have hqk : ∀ j : Level, j ≠ l → (age l a c).q j = if j = k then a.q j ++ [c] else a.q j := by
        intro j hj
        rw [age_due hc hdue hk]
        simp only [RunQueue.append, RunQueue.erase]
        by_cases hjk : j = k
        · rw [hjk, update_self, if_pos rfl, update_of_ne (hjk ▸ hj)]
        · rw [update_of_ne hjk, if_neg hjk, update_of_ne hj]
      constructor
      · rw [hrest.here, hfstay]
        simp only [stay, filter_cons, hdue, not_true, decide_false, Bool.false_eq_true, if_false]
      · intro j hj
        have hjk : j = k := Fin.ext (by omega)
        rw [hrest.above j hj, hqk j (hjk ▸ hkl), if_pos hjk, hfdue, append_assoc]
        simp only [due, filter_cons, hdue, decide_true, if_true, singleton_append]
      · intro j hj hj'
        have hjk : j ≠ k := fun e => hj' (e ▸ hk)
        rw [hrest.other j hj hj', hqk j hj, if_neg hjk]
      · exact (hfields _ _ hrest).1
      · exact (hfields _ _ hrest).2
    · have hqs : (age l a c).q = a.q := by rw [age_stay hdue]
      have hhere : (age l a c).q l = (pre ++ [c]) ++ L := by
        rw [hqs, hq, append_assoc, singleton_append]
      have hnd' : ((pre ++ [c]) ++ L).Nodup := by
        rw [append_assoc, singleton_append]
        exact hnd
      have hrest := ih (pre ++ [c]) hhere hnd' hprio'
      constructor
      · rw [hrest.here, hfstay, append_assoc]
        simp only [stay, filter_cons, hdue, not_false_iff, decide_true, if_true, singleton_append]
      · intro j hj
        rw [hrest.above j hj, hqs, hfdue]
        simp only [due, filter_cons, hdue, decide_false, Bool.false_eq_true, if_false]
      · intro j hj hj'
        rw [hrest.other j hj hj', hqs]
      · exact (hfields _ _ hrest).1
      · exact (hfields _ _ hrest).2

/-! ## All levels -/

/-- The list of a level given by its number; empty beyond the last level. -/
def lev (a : Fifo) (n : ℕ) : List ProcId := if h : n < NPRIO then a.q ⟨n, h⟩ else []

theorem lev_coe (a : Fifo) (l : Level) : a.lev l = a.q l := dif_pos l.isLt

theorem lev_of_ge {n : ℕ} (h : NPRIO ≤ n) : a.lev n = [] := dif_neg (by omega)

/-- The state `b` of the loop over the levels that began in `a` and has treated the first `m` levels. -/
structure Partway (a : Fifo) (m : ℕ) (b : Fifo) : Prop where
  q : ∀ l : Level, b.q l = (if (l : ℕ) < m then a.stay (a.q l) else a.q l) ++
    (if (l : ℕ) + 1 < m then a.due (a.lev (l + 1)) else [])
  prio : ∀ p, b.prio p =
    if (∃ l : Level, (l : ℕ) < m ∧ p ∈ a.q l) ∧ a.aged p then a.prio p - 1 else a.prio p
  wait : ∀ p, b.waitTicks p = if ∃ l : Level, (l : ℕ) < m ∧ p ∈ a.q l
    then (if a.aged p then 0 else a.waitTicks p + 1) else a.waitTicks p

theorem partway_zero (a : Fifo) : Partway a 0 a := by
  constructor
  · intro l
    simp
  · intro p
    simp
  · intro p
    simp

theorem Partway.step (h : Partway a m b) (hwf : a.Wf) (hl : (l : ℕ) = m) :
    Partway a (m + 1) ((b.q l).foldl (age l) b) := by
  have hq : b.q l = a.q l := by
    rw [h.q l, if_neg (by omega), if_neg (by omega), append_nil]
  have hlow : ∀ p ∈ a.q l, ¬ ∃ k : Level, (k : ℕ) < m ∧ p ∈ a.q k := by
    rintro p hp ⟨k, hk, hpk⟩
    have := hwf.level_unique hp hpk
    subst this
    omega
  have hsame : ∀ p ∈ a.q l, b.prio p = a.prio p ∧ b.waitTicks p = a.waitTicks p := by
    intro p hp
    rw [h.prio, h.wait]
    simp only [hlow p hp, false_and, if_false, and_self]
  have haged : ∀ p ∈ a.q l, b.aged p ↔ a.aged p := fun p hp => aged_congr (hsame p hp)
  obtain ⟨hdue, hstay⟩ := due_congr haged
  have hmem : ∀ p, (∃ k : Level, (k : ℕ) < m + 1 ∧ p ∈ a.q k) ↔
      (∃ k : Level, (k : ℕ) < m ∧ p ∈ a.q k) ∨ p ∈ a.q l := by
    intro p
    constructor
    · rintro ⟨k, hk, hp⟩
      rcases Nat.lt_succ_iff_lt_or_eq.1 hk with hk | hk
      · exact .inl ⟨k, hk, hp⟩
      · exact .inr ((Fin.ext (by omega) : k = l) ▸ hp)
    · rintro (⟨k, hk, hp⟩ | hp)
      · exact ⟨k, by omega, hp⟩
      · exact ⟨l, by omega, hp⟩
  rw [hq]
  have hlevel := foldl_age (a := b) (a.q l) [] hq (hwf.nodup l)
    (fun p hp => (hsame p hp).1.trans (hwf.prio l p hp))
  constructor
  · intro k
    rcases Nat.lt_trichotomy (k + 1) m with hk | hk | hk
    · rw [hlevel.other k (fun e => by rw [e] at hk; omega) (by omega), h.q k, if_pos (by omega),
        if_pos (by omega), if_pos (by omega), if_pos (by omega)]
    · -- the level above has been treated, and now receives the processes that are due
      rw [hlevel.above k (by omega), h.q k, if_pos (by omega), if_neg (by omega), if_pos (by omega),
        if_pos (by omega), append_nil, hdue, hk, ← hl, lev_coe]
    · rcases eq_or_ne k l with rfl | hkl
      · rw [hlevel.here, hstay, if_pos (by omega), if_neg (by omega), nil_append, append_nil]
      · have hne : (k : ℕ) ≠ m := fun e => hkl (Fin.ext (by omega))
        rw [hlevel.other k hkl (by omega), h.q k, if_neg (by omega), if_neg (by omega),
          if_neg (by omega), if_neg (by omega)]
  · intro p
    rw [hlevel.prio]
    by_cases hp : p ∈ a.q l
    · simp only [hp, haged p hp, (hsame p hp).1, hmem, or_true]
    · rw [h.prio]
      simp only [hp, hmem, or_false, false_and, if_false]
  · intro p
    rw [hlevel.wait]
    by_cases hp : p ∈ a.q l
    · simp only [hp, haged p hp, (hsame p hp).2, hmem, or_true]
    · rw [h.wait]
      simp only [hp, hmem, or_false, if_false]

theorem Partway.finish (hwf : a.Wf) (n : ℕ) (h : Partway a m b) (hm : m + n = NPRIO) :
    Partway a NPRIO (((finRange NPRIO).drop m).foldl (fun a l => (a.q l).foldl (age l) a) b) := by
  induction n generalizing m b with
  | zero =>
    have hm' : m = NPRIO := by omega
    subst hm'
    rw [drop_of_length_le (by rw [length_finRange]), foldl_nil]
    exact h
  | succ n ih =>
    have hlt : m < (finRange NPRIO).length := by
      rw [length_finRange]
      omega
    rw [drop_eq_getElem_cons hlt, foldl_cons]
    exact ih (h.step hwf (by rw [getElem_finRange]; rfl)) (by omega)

theorem onTick_partway (hwf : a.Wf) : Partway a NPRIO a.onTick := by
  have h := (partway_zero a).finish hwf NPRIO (Nat.zero_add _)
  rw [drop_zero] at h
  exact h

theorem onTick_q (hwf : a.Wf) (l : Level) :
    a.onTick.q l = a.stay (a.q l) ++ a.due (a.lev (l + 1)) := by
  rw [(onTick_partway hwf).q l, if_pos l.isLt]
  split_ifs with h
  · rfl
  · rw [lev_of_ge (by omega)]
    rfl

theorem onTick_prio (hwf : a.Wf) (hp : p ∈ a.q l) :
    a.onTick.prio p = if a.aged p then a.prio p - 1 else a.prio p := by
  have hex : ∃ l : Level, (l : ℕ) < NPRIO ∧ p ∈ a.q l := ⟨l, l.isLt, hp⟩
  rw [(onTick_partway hwf).prio]
  simp only [hex, true_and]

theorem onTick_wait (hwf : a.Wf) (hp : p ∈ a.q l) :
    a.onTick.waitTicks p = if a.aged p then 0 else a.waitTicks p + 1 := by
  have hex : ∃ l : Level, (l : ℕ) < NPRIO ∧ p ∈ a.q l := ⟨l, l.isLt, hp⟩
  rw [(onTick_partway hwf).wait, if_pos hex]

theorem mem_onTick (hwf : a.Wf) (hp : p ∈ a.q l) :
    if a.aged p then ∃ k : Level, (k : ℕ) + 1 = l ∧ p ∈ a.onTick.q k else p ∈ a.onTick.q l := by
  split_ifs with hdue
  · obtain ⟨k, hk⟩ := exists_above (hwf.prio l p hp) hdue
    refine ⟨k, hk, ?_⟩
    rw [onTick_q hwf, hk, lev_coe]
    exact mem_append_right _ (mem_filter.2 ⟨hp, decide_eq_true hdue⟩)
  · rw [onTick_q hwf]
    exact mem_append_left _ (mem_filter.2 ⟨hp, decide_eq_true hdue⟩)

/-! ## Waiting times along a level -/

/-- On every level but the first, waiting times do not increase from head to tail and have not come to
twenty. -/
structure Sorted (a : Fifo) : Prop where
  nonneg : ∀ l, ∀ p ∈ a.q l, 0 ≤ a.waitTicks p
  below : ∀ l : Level, 0 < (l : ℕ) → ∀ p ∈ a.q l, a.waitTicks p < agingTicks
  sorted : ∀ l : Level, 0 < (l : ℕ) → (a.q l).Pairwise fun x y => a.waitTicks y ≤ a.waitTicks x

theorem Sorted.sublist (h : a.Sorted) (hq : ∀ l, (b.q l).Sublist (a.q l))
    (hw : b.waitTicks = a.waitTicks) : b.Sorted where
  nonneg l p hp := by
    rw [hw]
    exact h.nonneg l p ((hq l).subset hp)
  below l hl p hp := by
    rw [hw]
    exact h.below l hl p ((hq l).subset hp)
  sorted l hl := by
    rw [hw]
    exact (h.sorted l hl).sublist (hq l)

theorem Sorted.enqueue (h : a.Sorted) (hp : ∀ k, p ∉ a.q k) : (a.enqueue l p).Sorted := by
  have hw : ∀ k, ∀ x ∈ a.q k, (a.enqueue l p).waitTicks x = a.waitTicks x := fun k x hx =>
    update_of_ne (ne_of_mem_of_not_mem hx (hp k)) _ _
  have hw0 : (a.enqueue l p).waitTicks p = 0 := update_self _ _ _
  constructor
  · intro k x hx
    rcases RunQueue.mem_append.1 hx with hx | ⟨rfl, -⟩
    · rw [hw k x hx]
      exact h.nonneg k x hx
    · exact hw0.ge
  · intro k hk x hx
    rcases RunQueue.mem_append.1 hx with hx | ⟨rfl, -⟩
    · rw [hw k x hx]
      exact h.below k hk x hx
    · rw [hw0]
      decide
  · intro k hk
    have hold : (a.q k).Pairwise fun x y =>
        (a.enqueue l p).waitTicks y ≤ (a.enqueue l p).waitTicks x := by
      refine (h.sorted k hk).imp_of_mem fun {x y} hx hy hle => ?_
      rw [hw k x hx, hw k y hy]
      exact hle
    by_cases hkl : k = l
    · subst hkl
      simp only [Fifo.enqueue, RunQueue.append, update_self]
      refine pairwise_append.2 ⟨hold, pairwise_singleton _ _, fun x hx y hy => ?_⟩
      rw [mem_singleton] at hy
      subst hy
      -- the process that comes in last has not waited yet
      change (a.enqueue k y).waitTicks y ≤ (a.enqueue k y).waitTicks x
      rw [hw0, hw k x hx]
      exact h.nonneg k x hx
    · simp only [Fifo.enqueue, RunQueue.append, update_of_ne hkl]
      exact hold

theorem mem_stay {L : List ProcId} : p ∈ a.stay L ↔ p ∈ L ∧ ¬ a.aged p := by
  simp [stay]

theorem mem_due {L : List ProcId} : p ∈ a.due L ↔ p ∈ L ∧ a.aged p := by
  simp [due]

theorem mem_lev {n : ℕ} (h : p ∈ a.lev n) : ∃ l : Level, (l : ℕ) = n ∧ p ∈ a.q l := by
  unfold lev at h
  split_ifs at h with hn
  · exact ⟨⟨n, hn⟩, rfl, h⟩
  · exact absurd h not_mem_nil

theorem Sorted.onTick (h : a.Sorted) (hwf : a.Wf) : a.onTick.Sorted := by
  -- who stays has waited one tick more, who comes from below starts again
  have hstay : ∀ l : Level, ∀ p ∈ a.stay (a.q l), a.onTick.waitTicks p = a.waitTicks p + 1 := by
    intro l p hp
    obtain ⟨hp, hdue⟩ := mem_stay.1 hp
    rw [onTick_wait hwf hp, if_neg hdue]
  have hcome : ∀ n, ∀ p ∈ a.due (a.lev n), a.onTick.waitTicks p = 0 := by
    intro n p hp
    obtain ⟨hp, hdue⟩ := mem_due.1 hp
    obtain ⟨l, -, hpl⟩ := mem_lev hp
    rw [onTick_wait hwf hpl, if_pos hdue]
  have hstay_nonneg : ∀ l : Level, ∀ p ∈ a.stay (a.q l), 0 ≤ a.onTick.waitTicks p := by
    intro l p hp
    have := h.nonneg l p (mem_stay.1 hp).1
    rw [hstay l p hp]
    omega
  constructor
  · intro l p hp
    rw [onTick_q hwf] at hp
    rcases mem_append.1 hp with hp | hp
    · exact hstay_nonneg l p hp
    · exact (hcome _ p hp).ge
  · intro l hl p hp
    rw [onTick_q hwf] at hp
    rcases mem_append.1 hp with hp | hp
    · obtain ⟨hpl, hdue⟩ := mem_stay.1 hp
      have hprio := hwf.prio l p hpl
      rw [hstay l p hp]
      unfold aged at hdue
      rw [prioMin] at hdue
      omega
    · rw [hcome _ p hp]
      decide
  · intro l hl
    rw [onTick_q hwf]
    refine pairwise_append.2 ⟨?_, ?_, fun x hx y hy => ?_⟩
    · have hold : (a.stay (a.q l)).Pairwise fun x y => a.waitTicks y ≤ a.waitTicks x :=
        (h.sorted l hl).sublist filter_sublist
      refine hold.imp_of_mem fun {x y} hx hy hle => ?_
      rw [hstay l x hx, hstay l y hy]
      omega
    · refine pairwise_of_forall_mem_list fun x hx y hy => ?_
      rw [hcome _ x hx, hcome _ y hy]
    · rw [hcome _ y hy]
      exact hstay_nonneg l x hx

/-! ## The dispatch order -/

/-- The order in which processes are picked as long as nothing else happens. -/
def order (a : Fifo) : List ProcId := (finRange NPRIO).flatMap a.q

/-- On a list where everyone before a process that is due is due too, those who are due are a first
part. -/
theorem due_append_stay {L : List ProcId} (h : L.Pairwise fun x y => a.aged y → a.aged x) :
    a.due L ++ a.stay L = L := by
  induction L with
  | nil => rfl
  | cons c L ih =>
    obtain ⟨hc, hL⟩ := pairwise_cons.1 h
    by_cases hdue : a.aged c
    · have hd : a.due (c :: L) = c :: a.due L := filter_cons_of_pos (by simp [hdue])
      have hs : a.stay (c :: L) = a.stay L := filter_cons_of_neg (by simp [hdue])
      rw [hd, hs, cons_append, ih hL]
    · have hnone : ∀ x ∈ c :: L, ¬ a.aged x := by
        intro x hx
        rcases mem_cons.1 hx with rfl | hx
        · exact hdue
        · exact fun hx' => hdue (hc x hx hx')
      have hd : a.due (c :: L) = [] := filter_eq_nil_iff.2 (by simpa using hnone)
      have hs : a.stay (c :: L) = c :: L := filter_eq_self.2 (by simpa using hnone)
      rw [hd, hs, nil_append]

theorem not_aged_first (hwf : a.Wf) (hl : (l : ℕ) = 0) (hp : p ∈ a.q l) : ¬ a.aged p := by
  intro hdue
  have hpos := hdue.2
  rw [hwf.prio l p hp, prioMin] at hpos
  omega

theorem Sorted.lev_eq (h : a.Sorted) (hwf : a.Wf) (n : ℕ) :
    a.due (a.lev n) ++ a.stay (a.lev n) = a.lev n := by
  refine due_append_stay ?_
  by_cases hn : n < NPRIO
  · have hlev : a.lev n = a.q ⟨n, hn⟩ := lev_coe a ⟨n, hn⟩
    rw [hlev]
    rcases Nat.eq_zero_or_pos n with h0 | hpos
    · refine pairwise_of_forall_mem_list fun x _ y hy hdue => ?_
      exact absurd hdue (not_aged_first hwf h0 hy)
    · refine (h.sorted ⟨n, hn⟩ hpos).imp_of_mem fun {x y} hx hy hle hdue => ⟨?_, ?_⟩
      · have := hdue.1
        omega
      · rw [hwf.prio _ x hx, ← hwf.prio _ y hy]
        exact hdue.2
  · rw [lev_of_ge (not_lt.1 hn)]
    exact List.Pairwise.nil

theorem flatMap_telescope {α : Type*} (f g : ℕ → List α) (hf : f 0 = []) (n : ℕ) :
    (range n).flatMap (fun i => g i ++ f (i + 1)) =
      (range n).flatMap (fun i => f i ++ g i) ++ f n := by
  induction n with
  | zero => simp [hf]
  | succ n ih => simp only [range_succ, flatMap_append, ih, flatMap_singleton, append_assoc]

theorem order_eq (a : Fifo) : a.order = (range NPRIO).flatMap a.lev := by
  have hmap : range NPRIO = (finRange NPRIO).map Fin.val :=
    (map_coe_finRange_eq_range).symm
  rw [hmap, flatMap_map]
  exact flatMap_congr fun l _ => (lev_coe a l).symm

/-- **A tick does not change the dispatch order.** -/
theorem Sorted.order_onTick (h : a.Sorted) (hwf : a.Wf) : a.onTick.order = a.order := by
  have hafter : ∀ n ∈ range NPRIO, a.onTick.lev n = a.stay (a.lev n) ++ a.due (a.lev (n + 1)) := by
    intro n hn
    have hn' := mem_range.1 hn
    have := onTick_q hwf ⟨n, hn'⟩
    rw [← lev_coe, ← lev_coe] at this
    exact this
  have hfirst : a.due (a.lev 0) = [] := by
    refine filter_eq_nil_iff.2 fun p hp => ?_
    obtain ⟨l, hl, hpl⟩ := mem_lev hp
    simpa using not_aged_first hwf hl hpl
  have hlast : a.due (a.lev NPRIO) = [] := by
    rw [lev_of_ge le_rfl]
    rfl
  calc a.onTick.order
      = (range NPRIO).flatMap fun n => a.stay (a.lev n) ++ a.due (a.lev (n + 1)) := by
        rw [order_eq]
        exact flatMap_congr hafter
    _ = (range NPRIO).flatMap (fun n => a.due (a.lev n) ++ a.stay (a.lev n)) ++
          a.due (a.lev NPRIO) :=
        flatMap_telescope (fun n => a.due (a.lev n)) (fun n => a.stay (a.lev n)) hfirst NPRIO
    _ = a.order := by
        rw [hlast, append_nil, order_eq]
        exact flatMap_congr fun n _ => h.lev_eq hwf n

theorem Wf.order_nodup (h : a.Wf) : a.order.Nodup := by
  refine nodup_flatMap.2 ⟨fun l _ => h.nodup l, ?_⟩
  refine (nodup_finRange NPRIO).imp fun {l k} hne => ?_
  exact fun p hl hk => hne (h.level_unique hl hk)

/-! ## The operations keep the lists sorted -/

/-- What an operation can do. The process that is picked is the head of the first list that is not
empty. -/
inductive Exec (a : Fifo) : RqOp → Option ProcId → Fifo → Prop
  | enqueue {p : ProcId} (l : Level) (hp : ∀ k, p ∉ a.q k) : Exec a (.enqueue p) none (a.enqueue l p)
  | dequeue (p : ProcId) : Exec a (.dequeue p) none (a.dequeue p)
  | empty (hq : ∀ l, a.q l = []) : Exec a .pickNext none a
  | pick {l : Level} {c : ProcId} {L : List ProcId} (hq : a.q l = c :: L) (hlow : ∀ k < l, a.q k = []) :
    Exec a .pickNext (some c) { a with q := update a.q l L }
  | onTick : Exec a .onTick none a.onTick
  | setPrio (p : ProcId) (v : ℤ) : Exec a (.setPrio p v) none { a with prio := update a.prio p v }

theorem exec_cases {e : RqOp} {y : Option ProcId} (he : a.exec e = some (y, b)) : Exec a e y b := by
  cases e with
  | enqueue p =>
    simp only [exec, ite_none_right_eq_some, map_eq_some_iff, Prod.mk.injEq] at he
    obtain ⟨hp, l, -, rfl, rfl⟩ := he
    exact .enqueue l hp
  | dequeue p =>
    simp only [exec, map_eq_some_iff, Prod.mk.injEq] at he
    obtain ⟨l, -, rfl, rfl⟩ := he
    exact .dequeue p
  | pickNext =>
    simp only [exec, some.injEq, pickNext] at he
    cases hlow : lowest? a.q with
    | none =>
      simp only [hlow, Prod.mk.injEq] at he
      obtain ⟨rfl, rfl⟩ := he
      exact .empty (lowest?_eq_none.1 hlow)
    | some l =>
      obtain ⟨hne, hfirst⟩ := lowest?_eq_some.1 hlow
      obtain ⟨c, L, hq⟩ := exists_cons_of_ne_nil hne
      simp only [hlow, hq, head?_cons, tail_cons, Prod.mk.injEq] at he
      obtain ⟨rfl, rfl⟩ := he
      exact .pick hq hfirst
  | onTick =>
    simp only [exec, some.injEq, Prod.mk.injEq] at he
    obtain ⟨rfl, rfl⟩ := he
    exact .onTick
  | setPrio p v =>
    simp only [exec, ite_none_right_eq_some, some.injEq, Prod.mk.injEq] at he
    obtain ⟨-, rfl, rfl⟩ := he
    exact .setPrio p v

theorem Sorted.exec {e : RqOp} {y : Option ProcId} (h : a.Sorted) (hwf : a.Wf) (he : Exec a e y b) :
    b.Sorted := by
  cases he with
  | enqueue l hp => exact h.enqueue hp
  | dequeue p => exact h.sublist (fun l => erase_sublist) rfl
  | empty => exact h
  | @pick l c L hq hlow =>
    refine h.sublist (fun k => ?_) rfl
    by_cases hk : k = l
    · subst hk
      simp only [update_self, hq]
      exact sublist_cons_self c L
    · simp only [update_of_ne hk]
      exact List.Sublist.refl _
  | onTick => exact h.onTick hwf
  | setPrio p v => exact h.sublist (fun l => List.Sublist.refl _) rfl

end Fifo

/-! ## Reachable run queues -/

namespace RunQueue

variable {r r' : RunQueue} {a : Fifo} {p : ProcId} {l : Level}

/-- A call that keeps to the contract of the run queue: a process that is enqueued, or gets another
priority, is not linked. -/
def call (e : RqOp) (r : RunQueue) : Option (Option ProcId × RunQueue) :=
  match e with
  | .enqueue p => if r.Linked p then none else r.exec e
  | .setPrio p _ => if r.Linked p then none else r.exec e
  | _ => r.exec e

/-- What the operations make of the queue after `prio_init`. -/
def Reachable (r : RunQueue) : Prop :=
  ∃ (r₀ : RunQueue) (ops : List RqOp) (picked : List (Option ProcId)),
    runOut call ops r₀.prioInit = some (picked, r)

/-- The dispatch order: the levels one after the other. -/
def order (r : RunQueue) : List ProcId := (finRange NPRIO).flatMap r.queue

theorem Refines.queue_eq (h : r.Refines a) (l : Level) : r.queue l = a.q l := h.rep.queue_eq l

theorem Refines.order_eq (h : r.Refines a) : r.order = a.order :=
  flatMap_congr fun l _ => h.queue_eq l

theorem Refines.wf (h : r.Refines a) : a.Wf where
  prio l p hp := by
    rw [← h.prio]
    exact h.rep.prio l p hp
  nodup l := h.rep.nodup l

theorem call_refines (e : RqOp) (h : r.Refines a) {y : Option ProcId}
    (he : r.call e = some (y, r')) : ∃ a', a.exec e = some (y, a') ∧ r'.Refines a' := by
  have hof : ∀ (y' : Option ProcId) (a' : Fifo), a.exec e = some (y', a') → r.exec e = some (y, r') →
      ∃ a', a.exec e = some (y, a') ∧ r'.Refines a' := by
    intro y' a' ha hr
    obtain ⟨r'', hr'', href⟩ := exec_refines e r a y' a' h ha
    rw [hr, some.injEq, Prod.mk.injEq] at hr''
    obtain ⟨rfl, rfl⟩ := hr''
    exact ⟨a', ha, href⟩
  have hlinked : ∀ p, ¬ r.Linked p → ∀ l, p ∉ a.q l := fun p hp l hl =>
    hp (h.rep.linked_iff.2 ⟨l, hl⟩)
  cases e with
  | enqueue p =>
    simp only [call, ite_none_left_eq_some] at he
    obtain ⟨hp, he⟩ := he
    have hlev : ∃ l, level? (a.prio p) = some l := by
      simp only [exec, prioEnqueue, rqPushTail, map_eq_some_iff, h.prio] at he
      obtain ⟨-, ⟨l, hl, -⟩, -⟩ := he
      exact ⟨l, hl⟩
    obtain ⟨l, hl⟩ := hlev
    exact hof none (a.enqueue l p)
      (by simp only [Fifo.exec, if_pos (hlinked p hp), hl, map_some]) he
  | dequeue p =>
    have hlev : ∃ l, level? (a.prio p) = some l := by
      simp only [call, exec, prioDequeue, rqRemove, map_eq_some_iff, h.prio,
        bind_eq_bind, bind_eq_some_iff] at he
      obtain ⟨-, ⟨l, hl, -⟩, -⟩ := he
      exact ⟨l, hl⟩
    obtain ⟨l, hl⟩ := hlev
    exact hof none (a.dequeue p) (by simp only [Fifo.exec, hl, map_some]) he
  | pickNext => exact hof a.pickNext.1 a.pickNext.2 rfl he
  | onTick => exact hof none a.onTick rfl he
  | setPrio p v =>
    simp only [call, ite_none_left_eq_some] at he
    obtain ⟨hp, he⟩ := he
    exact hof none { a with prio := update a.prio p v }
      (by simp only [Fifo.exec, if_pos (hlinked p hp)]) he

theorem Reachable.refines (h : r.Reachable) : ∃ a : Fifo, r.Refines a ∧ a.Sorted := by
  obtain ⟨r0, ops, picked, hrun⟩ := h
  refine runOut_invariant (I := fun r => ∃ a : Fifo, r.Refines a ∧ a.Sorted) ?_ ?_ hrun
  · rintro e r y r' ⟨a, href, hsorted⟩ he
    obtain ⟨a', ha', href'⟩ := call_refines e href he
    exact ⟨a', href', hsorted.exec href.wf (exec_cases ha')⟩
  · refine ⟨init r0, ⟨prioInit_rep r0, rfl, rfl⟩, ?_, ?_, ?_⟩
    · exact fun l p hp => absurd hp not_mem_nil
    · exact fun l _ p hp => absurd hp not_mem_nil
    · exact fun l _ => List.Pairwise.nil

end RunQueue

/-- **Aging never reorders.** A tick leaves the dispatch order as it is, and treats every linked process
once: it moves up one level and starts to wait anew, or stays and has waited one tick more. -/
theorem aging_keeps_order {r : RunQueue} (h : r.Reachable) :
    ∃ r', r.prioOnTick = some r' ∧ r'.order = r.order ∧ r.order.Nodup ∧ ∀ l, ∀ p ∈ r.queue l,
        if agingTicks ≤ r.waitTicks p + 1 ∧ prioMin < r.prio p then
          (∃ k : Level, (k : ℕ) + 1 = l ∧ p ∈ r'.queue k) ∧ r'.prio p = r.prio p - 1 ∧
            r'.waitTicks p = 0
        else p ∈ r'.queue l ∧ r'.prio p = r.prio p ∧ r'.waitTicks p = r.waitTicks p + 1 := by
  obtain ⟨a, href, hsorted⟩ := h.refines
  have hwf := href.wf
  obtain ⟨r', hr', href', -⟩ := RunQueue.prioOnTick_refines href
  refine ⟨r', hr', ?_, ?_, fun l p hp => ?_⟩
  · rw [href'.order_eq, href.order_eq, hsorted.order_onTick hwf]
  · rw [href.order_eq]
    exact hwf.order_nodup
  · rw [href.queue_eq] at hp
    have hmem := mem_onTick hwf hp
    have hprio := onTick_prio hwf hp
    have hwait := onTick_wait hwf hp
    simp only [href'.queue_eq, href'.prio, href'.waitTicks, href.prio, href.waitTicks]
    change if a.aged p then _ else _
    split_ifs at hmem hprio hwait ⊢
    · exact ⟨hmem, hprio, hwait⟩
    · exact ⟨hmem, hprio, hwait⟩

/-- Two processes of level 1 that came one tick apart, and one of level 0, when the first is due. -/
def agingOps : List RqOp :=
  [.setPrio 3 1, .setPrio 5 1, .enqueue 3, .onTick, .enqueue 5, .enqueue 7] ++ replicate 18 .onTick

theorem aging_keeps_order_sample : ∃ r r' : RunQueue,
    r.order = [7, 3, 5] ∧ r.queue 1 = [3, 5] ∧ r.prioOnTick = some r' ∧ r'.order = [7, 3, 5] := by
  have hrun : ((runOut RunQueue.call agingOps RunQueue.zero.prioInit).map fun x =>
      (x.2.order, x.2.queue 1)) = some ([7, 3, 5], [3, 5]) := by decide +kernel
  obtain ⟨⟨picked, r⟩, hr, hq⟩ := map_eq_some_iff.1 hrun
  rw [Prod.mk.injEq] at hq
  obtain ⟨r', htick, horder, -⟩ := aging_keeps_order ⟨_, _, _, hr⟩
  exact ⟨r, r', hq.1, hq.2, htick, horder.trans hq.1⟩

/-! ## No starvation -/

namespace RqOp

/-- How often the clock ticks in a sequence of calls. -/
def ticks (ops : List RqOp) : ℕ := ops.count .onTick

/-- How often `prio_pick_next` is called. -/
def picks (ops : List RqOp) : ℕ := ops.count .pickNext

end RqOp

namespace Fifo

variable {a b : Fifo} {p : ProcId} {l : Level} {e : RqOp} {y : Option ProcId}

/-- Only a tick changes the level or the waiting time of a process that is neither dequeued nor
picked. -/
theorem exec_keeps (he : Exec a e y b) (hp : p ∈ a.q l) (htick : e ≠ .onTick)
    (hdeq : e ≠ .dequeue p) (hy : y ≠ some p) : p ∈ b.q l ∧ b.waitTicks p = a.waitTicks p := by
  cases he with
  | enqueue k hx =>
    refine ⟨RunQueue.mem_append.2 (.inl hp), ?_⟩
    exact update_of_ne (ne_of_mem_of_not_mem hp (hx l)) _ _
  | dequeue x =>
    have hne : p ≠ x := fun h => hdeq (h ▸ rfl)
    exact ⟨(mem_erase_of_ne hne).2 hp, rfl⟩
  | empty | setPrio => exact ⟨hp, rfl⟩
  | @pick k c L hq hlow =>
    have hne : p ≠ c := fun h => hy (h ▸ rfl)
    refine ⟨?_, rfl⟩
    by_cases hl : l = k
    · subst hl
      rw [hq] at hp
      simp only [update_self]
      exact mem_of_ne_of_mem hne hp
    · simp only [update_of_ne hl]
      exact hp
  | onTick => exact absurd rfl htick

/-- On the first level nobody comes in before `p`, and every pick takes one of those who were there. -/
theorem exec_ahead (hwf : a.Wf) (he : Exec a e y b) {pre suf : List ProcId}
    (hq : a.q 0 = pre ++ p :: suf) (hdeq : e ≠ .dequeue p) (hy : y ≠ some p) :
    ∃ pre' suf', b.q 0 = pre' ++ p :: suf' ∧
      pre'.length + (if e = .pickNext then 1 else 0) ≤ pre.length := by
  cases he with
  | @enqueue x k hx =>
    by_cases hk : k = 0
    · subst hk
      refine ⟨pre, suf ++ [x], ?_, by simp⟩
      simp only [enqueue, RunQueue.append, update_self, hq, append_assoc, cons_append]
    · refine ⟨pre, suf, ?_, by simp⟩
      simp only [enqueue, RunQueue.append, update_of_ne (Ne.symm hk), hq]
  | dequeue x =>
    have hne : p ≠ x := fun h => hdeq (h ▸ rfl)
    simp only [dequeue, hq]
    by_cases hx : x ∈ pre
    · refine ⟨pre.erase x, suf, erase_append_left _ hx, ?_⟩
      simpa using length_erase_le
    · refine ⟨pre, suf.erase x, ?_, by simp⟩
      rw [erase_append_right _ hx, erase_cons_tail (by simpa using hne)]
  | empty hempty => simp [hempty 0] at hq
  | @pick k c L hk hlow =>
    have hk0 : k = 0 := by
      by_contra hne
      have := hlow 0 (Fin.pos_iff_ne_zero.2 hne)
      simp [this] at hq
    subst hk0
    rw [hk] at hq
    cases pre with
    | nil =>
      rw [nil_append, cons.injEq] at hq
      exact absurd (congrArg some hq.1) hy
    | cons d pre =>
      rw [cons_append, cons.injEq] at hq
      refine ⟨pre, suf, ?_, by simp⟩
      simp only [update_self]
      exact hq.2
  | onTick =>
    have hstay : a.stay (a.q 0) = a.q 0 :=
      filter_eq_self.2 fun x hx => decide_eq_true (not_aged_first hwf rfl hx)
    refine ⟨pre, suf ++ a.due (a.lev ((0 : Level) + 1)), ?_, by simp⟩
    rw [onTick_q hwf, hstay, hq, append_assoc, cons_append]
  | setPrio => exact ⟨pre, suf, hq, by simp⟩

/-- The level after `t` more ticks of a process that has waited `w` ticks on level `l`. -/
def levelAfter (l w t : ℤ) : ℤ := max 0 (l - (w + t) / agingTicks)

theorem Sorted.levelAfter_zero (h : a.Sorted) (hp : p ∈ a.q l) :
    levelAfter l (a.waitTicks p) 0 = l := by
  have hnonneg := h.nonneg l p hp
  have hbelow := h.below l
  unfold levelAfter
  rw [agingTicks] at *
  rcases Nat.eq_zero_or_pos (l : ℕ) with h0 | hpos
  · omega
  · have := hbelow hpos p hp
    omega

/-- A tick leads to a level and a waiting time from which the same levels follow, one tick earlier. -/
theorem Sorted.levelAfter_onTick (h : a.Sorted) (hwf : a.Wf) (hp : p ∈ a.q l) (t : ℕ) :
    ∃ k, p ∈ a.onTick.q k ∧
      levelAfter k (a.onTick.waitTicks p) t = levelAfter l (a.waitTicks p) (t + 1) := by
  have hmem := mem_onTick hwf hp
  have hwait := onTick_wait hwf hp
  split_ifs at hmem hwait with hdue
  · obtain ⟨k, hk, hpk⟩ := hmem
    refine ⟨k, hpk, ?_⟩
    have hbelow := h.below l (by omega) p hp
    have hdue' := hdue.1
    rw [hwait]
    unfold levelAfter
    rw [agingTicks] at *
    omega
  · refine ⟨l, hmem, ?_⟩
    rw [hwait]
    unfold levelAfter
    rw [add_assoc, add_comm 1 (t : ℤ)]

end Fifo

namespace RunQueue

variable {r r' : RunQueue} {a : Fifo} {p : ProcId} {l : Level} {ops : List RqOp}
  {picked : List (Option ProcId)}

/-- While a process is not picked, its level follows from the number of ticks. -/
theorem calls_level (href : r.Refines a) (hsorted : a.Sorted) (hp : p ∈ a.q l)
    (hops : RqOp.dequeue p ∉ ops) (hrun : runOut call ops r = some (picked, r'))
    (hnot : some p ∉ picked) :
    ∃ a' k, r'.Refines a' ∧ a'.Sorted ∧ p ∈ a'.q k ∧
      (k : ℤ) = levelAfter l (a.waitTicks p) (RqOp.ticks ops) := by
  induction ops generalizing r a l picked with
  | nil =>
    simp only [runOut, some.injEq, Prod.mk.injEq] at hrun
    obtain ⟨-, rfl⟩ := hrun
    exact ⟨a, l, href, hsorted, hp, (hsorted.levelAfter_zero hp).symm⟩
  | cons e ops ih =>
    obtain ⟨y, r1, ys, he, hrest, rfl⟩ := runOut_cons hrun
    rw [mem_cons, not_or] at hops hnot
    obtain ⟨a1, ha1, href1⟩ := call_refines e href he
    have hstep := exec_cases ha1
    have hsorted1 := hsorted.exec href.wf hstep
    by_cases htick : e = .onTick
    · subst htick
      cases hstep
      obtain ⟨k, hpk, hk⟩ := hsorted.levelAfter_onTick href.wf hp (RqOp.ticks ops)
      obtain ⟨a', k', href', hsorted', hpk', hk'⟩ := ih href1 hsorted1 hpk hops.2 hrest hnot.2
      refine ⟨a', k', href', hsorted', hpk', ?_⟩
      rw [hk', hk, RqOp.ticks, RqOp.ticks, count_cons_self, Int.natCast_succ]
    · obtain ⟨hpl, hw⟩ := exec_keeps hstep hp htick (Ne.symm hops.1) (Ne.symm hnot.1)
      obtain ⟨a', k, href', hsorted', hpk, hk⟩ := ih href1 hsorted1 hpl hops.2 hrest hnot.2
      refine ⟨a', k, href', hsorted', hpk, ?_⟩
      rw [hk, hw, RqOp.ticks, RqOp.ticks, count_cons_of_ne htick]

/-- On the first level a process is picked at the latest when all those before it have been. -/
theorem calls_pick (href : r.Refines a) {pre suf : List ProcId} (hq : a.q 0 = pre ++ p :: suf)
    (hops : RqOp.dequeue p ∉ ops) (hrun : runOut call ops r = some (picked, r'))
    (hpicks : pre.length < RqOp.picks ops) : some p ∈ picked := by
  induction ops generalizing r a pre suf picked with
  | nil => exact absurd hpicks (Nat.not_lt_zero _)
  | cons e ops ih =>
    obtain ⟨y, r1, ys, he, hrest, rfl⟩ := runOut_cons hrun
    rw [mem_cons, not_or] at hops
    obtain ⟨a1, ha1, href1⟩ := call_refines e href he
    by_cases hy : y = some p
    · exact mem_cons.2 (.inl hy.symm)
    · obtain ⟨pre', suf', hq', hlen⟩ := exec_ahead href.wf (exec_cases ha1) hq (Ne.symm hops.1) hy
      refine mem_cons_of_mem y (ih href1 hq' hops.2 hrest ?_)
      unfold RqOp.picks at *
      by_cases hpick : e = .pickNext
      · rw [if_pos hpick] at hlen
        rw [hpick, count_cons_self] at hpicks
        omega
      · rw [if_neg hpick] at hlen
        rw [count_cons_of_ne hpick] at hpicks
        omega

end RunQueue

/-- **Aging rules out starvation.** As long as a process of level `k` is not picked its level falls
by one each twenty ticks; and when there are `20 * k` ticks, followed by as many picks as there are
processes, it is picked, whatever other processes come and go. -/
theorem aging_prevents_starvation {r r' : RunQueue} {p : ProcId} {k : Level} {ops : List RqOp}
    {picked : List (Option ProcId)} (h : r.Reachable) (hp : p ∈ r.queue k)
    (hops : ∀ e ∈ ops, e ≠ .enqueue p ∧ e ≠ .dequeue p)
    (hrun : runOut RunQueue.call ops r = some (picked, r')) :
    (some p ∉ picked →
      r'.prio p = max 0 ((k : ℤ) - (r.waitTicks p + RqOp.ticks ops) / agingTicks)) ∧
    ∀ ops₁ ops₂, ops = ops₁ ++ ops₂ → agingTicks * k ≤ RqOp.ticks ops₁ →
      NPROC ≤ RqOp.picks ops₂ → some p ∈ picked := by
  obtain ⟨a, href, hsorted⟩ := h.refines
  rw [href.queue_eq] at hp
  have hdeq : RqOp.dequeue p ∉ ops := fun hmem => (hops _ hmem).2 rfl
  constructor
  · intro hnot
    obtain ⟨a', k', href', -, hpk, hk⟩ := RunQueue.calls_level href hsorted hp hdeq hrun hnot
    rw [href'.prio, href'.wf.prio k' p hpk, hk, href.waitTicks]
    rfl
  · rintro ops₁ ops₂ rfl hticks hpicks
    obtain ⟨ys, r1, zs, hrun1, hrun2, rfl⟩ := runOut_append hrun
    rw [mem_append, not_or] at hdeq
    rw [mem_append]
    by_contra hnot
    rw [not_or] at hnot
    -- after the ticks the process is on the first level, with less than all processes before it
    obtain ⟨a1, k1, href1, -, hpk, hk⟩ :=
      RunQueue.calls_level href hsorted hp hdeq.1 hrun1 hnot.1
    have hk0 : k1 = 0 := by
      have hnonneg := hsorted.nonneg k p hp
      unfold levelAfter at hk
      rw [agingTicks] at *
      refine Fin.ext ?_
      change (k1 : ℕ) = 0
      omega
    subst hk0
    obtain ⟨pre, suf, hq⟩ := append_of_mem hpk
    have hlen : pre.length < NPROC := by
      have := href1.rep.length_le 0
      rw [hq, length_append, length_cons] at this
      omega
    exact hnot.2 (RunQueue.calls_pick href1 hq hdeq.2 hrun2 (by omega))

/-- Twenty ticks and then as many picks as there are processes. -/
def starvingOps : List RqOp := replicate 20 .onTick ++ replicate 64 .pickNext

/-- A process of level 1 behind one of level 0 comes up and is picked. -/
theorem aging_prevents_starvation_sample : ∃ (r r' : RunQueue) (picked : List (Option ProcId)),
    r.queue 1 = [3] ∧ runOut RunQueue.call starvingOps r = some (picked, r') ∧ some 3 ∈ picked := by
  have hrun : ((runOut RunQueue.call [.setPrio 3 1, .enqueue 3, .enqueue 7]
      RunQueue.zero.prioInit).bind fun x => (runOut RunQueue.call starvingOps x.2).map
        fun _ => x.2.queue 1) = some [3] := by decide +kernel
  obtain ⟨⟨picked0, r⟩, hr, hrest⟩ := bind_eq_some_iff.1 hrun
  obtain ⟨⟨picked, r'⟩, hr', hq⟩ := map_eq_some_iff.1 hrest
  have hp : (3 : ProcId) ∈ r.queue 1 := by
    rw [hq]
    exact mem_singleton_self 3
  have hstarve := aging_prevents_starvation ⟨_, _, _, hr⟩ hp (by decide) hr'
  exact ⟨r, r', picked, hq, hr', hstarve.2 _ _ rfl (by decide) (by decide)⟩

end Xv6
