import Mathlib.Data.Fintype.Fin
import Xv6.Lib.Transition
import Xv6.RunQueue

/-!
# The run queue refines 32 FIFO lists

**The abstract queue** (`Fifo`). A list of processes per level, with the priority and the
waiting time of every process. Enqueueing appends, dequeueing erases, picking takes the head of
the lowest-numbered non-empty list, and a tick ages the processes one after the other, moving a
process that has waited long enough to the end of the next list.

**The relation** (`RunQueue.Rep r Q`). Following `rq_next` from each head visits exactly the
list of that level and ends in null, the tail pointer is its last element, no process is
visited twice, every linked process is at the level its `prio` names, and the cached level is
the lowest non-empty one.

Main result: `runQueue_refines_fifo`.
-/

open Function Option Transition

namespace Xv6

open LinkedChain RunQueue

/-! ## The lowest non-empty level -/

theorem find_finRange_eq_some {n : ℕ} {f : Fin n → Bool} {i : Fin n} :
    (List.finRange n).find? f = some i ↔ f i = true ∧ ∀ j < i, f j = false := by
  rw [List.find?_eq_some_iff_getElem]
  simp only [List.getElem_finRange, List.length_finRange]
  constructor
  · rintro ⟨hi, k, hk, rfl, hall⟩
    refine ⟨hi, fun j hj => ?_⟩
    have := hall j.val (by simpa [Fin.lt_def] using hj)
    simpa using this
  · rintro ⟨hi, hall⟩
    refine ⟨hi, i.val, i.isLt, by simp, fun j hj => ?_⟩
    simpa using hall ⟨j, by omega⟩ (by simpa [Fin.lt_def] using hj)

/-- The lowest non-empty level of a family of lists, if there is one. -/
def lowest? (Q : Level → List ProcId) : Option Level :=
  (List.finRange NPRIO).find? fun l => !(Q l).isEmpty

/-- The value `highest_nonempty` should have. -/
def lowest (Q : Level → List ProcId) : ℤ :=
  match lowest? Q with
  | some l => l
  | none => -1

theorem lowest?_eq_some {Q : Level → List ProcId} {l : Level} :
    lowest? Q = some l ↔ Q l ≠ [] ∧ ∀ m < l, Q m = [] := by
  simp [lowest?, find_finRange_eq_some]

theorem lowest?_eq_none {Q : Level → List ProcId} : lowest? Q = none ↔ ∀ l, Q l = [] := by
  simp [lowest?]

theorem lowest_eq_coe {Q : Level → List ProcId} {l : Level} :
    lowest Q = l ↔ Q l ≠ [] ∧ ∀ m < l, Q m = [] := by
  rw [← lowest?_eq_some, lowest]
  cases lowest? Q with
  | none => simp
  | some m => simp only [some.injEq, Fin.ext_iff]; omega

theorem lowest_eq_neg {Q : Level → List ProcId} : lowest Q = -1 ↔ ∀ l, Q l = [] := by
  rw [← lowest?_eq_none, lowest]
  cases lowest? Q with
  | none => simp
  | some m => simp

theorem lowest_neg_or (Q : Level → List ProcId) : lowest Q = -1 ∨ ∃ l : Level, lowest Q = l := by
  unfold lowest
  cases lowest? Q with
  | none => exact .inl rfl
  | some l => exact .inr ⟨l, rfl⟩

theorem level?_coe (l : Level) : level? (l : ℤ) = some l := by
  have := l.isLt
  simp only [level?, Int.toNat_natCast]
  exact dif_pos (by omega)

theorem level?_eq_some {v : ℤ} {l : Level} : level? v = some l ↔ v = l := by
  constructor
  · intro h
    simp only [level?] at h
    split at h
    · simp only [some.injEq, Fin.ext_iff] at h
      omega
    · cases h
  · rintro rfl; exact level?_coe l

theorem exists_level {v : ℤ} (h : 0 ≤ v ∧ v < NPRIO) : ∃ l : Level, v = l :=
  ⟨⟨v.toNat, by omega⟩, by simp; omega⟩

/-! ## The representation relation -/

/-- The links of `r` represent the lists `Q`. -/
structure RunQueue.Links (r : RunQueue) (Q : Level → List ProcId) : Prop where
  chain : ∀ l, Chain r.rqNext (r.q l).head (Q l)
  tail : ∀ l, (r.q l).tail = (Q l).getLast?
  nodup : ∀ l, (Q l).Nodup
  prio : ∀ l, ∀ p ∈ Q l, r.prio p = l

/-- The links of `r` represent the lists `Q`, the cached level is the right one, and no linked
process has been linked again. -/
structure RunQueue.Rep (r : RunQueue) (Q : Level → List ProcId) : Prop
    extends RunQueue.Links r Q where
  highest : r.highestNonempty = lowest Q
  relinked : r.relinked = false

instance (r : RunQueue) (Q : Level → List ProcId) : Decidable (r.Rep Q) :=
  decidable_of_iff
    ((∀ l, Chain r.rqNext (r.q l).head (Q l)) ∧ (∀ l, (r.q l).tail = (Q l).getLast?) ∧
      (∀ l, (Q l).Nodup) ∧ (∀ l, ∀ p ∈ Q l, r.prio p = l) ∧ r.highestNonempty = lowest Q ∧
      r.relinked = false)
    ⟨fun ⟨hc, ht, hn, hp, hh, hr⟩ => ⟨⟨hc, ht, hn, hp⟩, hh, hr⟩,
      fun h => ⟨h.chain, h.tail, h.nodup, h.prio, h.highest, h.relinked⟩⟩

namespace RunQueue.Links

variable {r : RunQueue} {Q : Level → List ProcId} {p : ProcId} {l m : Level}

variable (h : r.Links Q)

include h

theorem head (l : Level) : (r.q l).head = (Q l).head? := (h.chain l).head_eq

theorem level_unique (hl : p ∈ Q l) (hm : p ∈ Q m) : l = m := by
  have h1 := h.prio l p hl
  have h2 := h.prio m p hm
  rw [h1] at h2
  exact Fin.ext (by omega)

theorem length_le (l : Level) : (Q l).length ≤ NPROC := by
  simpa using (h.nodup l).length_le_card

theorem queue_eq (l : Level) : r.queue l = Q l :=
  follow_eq (h.chain l) (h.length_le l)

theorem linked_iff : r.Linked p ↔ ∃ l, p ∈ Q l := by
  simp only [Linked, h.queue_eq]

theorem firstNonempty_eq : r.firstNonempty = lowest Q := by
  have hd : ∀ i, (r.q i).head.isSome = !(Q i).isEmpty := by
    intro i
    rw [h.head]
    cases Q i <;> rfl
  have hfind : (List.finRange NPRIO).find? (fun i => (r.q i).head.isSome) = lowest? Q := by
    simp only [lowest?, hd]
  cases hl : lowest? Q <;> simp only [firstNonempty, lowest, hfind, hl]

end RunQueue.Links

namespace RunQueue.Rep

variable {r : RunQueue} {Q : Level → List ProcId} {p : ProcId}

/-- A change of the scheduling fields of processes that are not linked keeps the lists. -/
theorem of_unlinked {r' : RunQueue} (h : r.Rep Q) (hq : r'.q = r.q)
    (hh : r'.highestNonempty = r.highestNonempty) (hr : r'.relinked = r.relinked)
    (hp : ∀ l, ∀ p ∈ Q l, r'.rqNext p = r.rqNext p ∧ r'.prio p = r.prio p) : r'.Rep Q where
  chain l := by
    rw [hq]
    exact (h.chain l).congr fun p hm => (hp l p hm).1
  tail l := by rw [hq]; exact h.tail l
  nodup := h.nodup
  prio l p hm := by rw [(hp l p hm).2]; exact h.prio l p hm
  highest := by rw [hh]; exact h.highest
  relinked := hr.trans h.relinked

theorem setWait (h : r.Rep Q) (p : ProcId) (v : ℤ) : (r.setWait p v).Rep Q :=
  h.of_unlinked rfl rfl rfl fun _ _ _ => ⟨rfl, rfl⟩

theorem setPrio (h : r.Rep Q) (hp : ∀ l, p ∉ Q l) (v : ℤ) : (r.setPrio p v).Rep Q :=
  h.of_unlinked rfl rfl rfl fun l _ hm =>
    ⟨rfl, update_of_ne (ne_of_mem_of_not_mem hm (hp l)) _ _⟩

theorem setNext (h : r.Rep Q) (hp : ∀ l, p ∉ Q l) (v : Option ProcId) : (r.setNext p v).Rep Q :=
  h.of_unlinked rfl rfl rfl fun l _ hm =>
    ⟨update_of_ne (ne_of_mem_of_not_mem hm (hp l)) _ _, rfl⟩

end RunQueue.Rep

/-- `prio_init` represents 32 empty lists, whatever the process table holds. -/
theorem prioInit_rep (r : RunQueue) : r.prioInit.Rep fun _ => [] where
  chain _ := rfl
  tail _ := rfl
  nodup _ := List.nodup_nil
  prio _ _ h := absurd h List.not_mem_nil
  highest := (lowest_eq_neg.2 fun _ => rfl).symm
  relinked := rfl

/-! ## Linking a process -/

namespace RunQueue

variable {r : RunQueue} {Q : Level → List ProcId} {p : ProcId} {l : Level}

theorem pushAt_eq (r : RunQueue) (l : Level) (p : ProcId) : r.pushAt l p =
    { rqNext := match (r.q l).tail with
        | some t => update (update r.rqNext p none) t (some p)
        | none => update r.rqNext p none
      prio := r.prio
      waitTicks := r.waitTicks
      q := update r.q l
        (if (r.q l).tail.isSome then ⟨(r.q l).head, some p⟩ else ⟨some p, some p⟩)
      highestNonempty :=
        if r.highestNonempty < 0 ∨ (l : ℤ) < r.highestNonempty then (l : ℤ)
        else r.highestNonempty
      relinked := r.relinked || decide (r.Linked p) } := by
  unfold pushAt
  cases h : (r.q l).tail <;> simp only [setNext, setQ, h] <;> split_ifs <;> simp_all

@[simp] theorem pushAt_prio (r : RunQueue) (l : Level) (p : ProcId) :
    (r.pushAt l p).prio = r.prio := by rw [pushAt_eq]

@[simp] theorem pushAt_waitTicks (r : RunQueue) (l : Level) (p : ProcId) :
    (r.pushAt l p).waitTicks = r.waitTicks := by rw [pushAt_eq]

/-- The lists after linking `p` at the end of level `l`. -/
def append (Q : Level → List ProcId) (l : Level) (p : ProcId) : Level → List ProcId :=
  update Q l (Q l ++ [p])

theorem lowest_append (Q : Level → List ProcId) (l : Level) (p : ProcId) :
    lowest (append Q l p) = if lowest Q < 0 ∨ (l : ℤ) < lowest Q then (l : ℤ) else lowest Q := by
  have hne : ∀ m, m ≠ l → append Q l p m = Q m := fun m hm => update_of_ne hm _ _
  have hl : append Q l p l ≠ [] := by simp [append]
  rcases lowest_neg_or Q with h | ⟨k, h⟩
  · rw [if_pos (by omega)]
    refine lowest_eq_coe.2 ⟨hl, fun m hm => ?_⟩
    rw [hne m hm.ne]
    exact lowest_eq_neg.1 h m
  · obtain ⟨hk, hlow⟩ := lowest_eq_coe.1 h
    rw [h]
    split_ifs with hlt
    · -- the new level is below every level in use
      refine lowest_eq_coe.2 ⟨hl, fun m hm => ?_⟩
      rw [hne m hm.ne]
      exact hlow m (hm.trans (Fin.lt_def.2 (by omega)))
    · have hkl : k ≤ l := Fin.le_def.2 (by omega)
      refine lowest_eq_coe.2 ⟨?_, fun m hm => ?_⟩
      · by_cases e : k = l
        · rw [e]; exact hl
        · rw [hne k e]; exact hk
      · rw [hne m (hm.trans_le hkl).ne]
        exact hlow m hm

/-- **`rq_push_tail` appends** a process that is not linked. -/
theorem pushAt_rep (h : r.Rep Q) (hp : ∀ m, p ∉ Q m) (hl : r.prio p = l) :
    (r.pushAt l p).Rep (append Q l p) where
  chain m := by
    simp only [pushAt_eq, h.tail l]
    by_cases hm : m = l
    · subst hm
      simp only [append, update_self]
      rcases List.eq_nil_or_concat (Q m) with hQ | ⟨L, b, hQ⟩
      · simp [hQ, Chain]
      · rw [List.concat_eq_append] at hQ
        have hc := h.chain m
        have hnd := h.nodup m
        have hpm := hp m
        rw [hQ] at hc hnd hpm ⊢
        simpa using hc.push_back hnd hpm
    · simp only [append, update_of_ne hm]
      have hc := (h.chain m).update_of_notMem (v := none) (hp m)
      cases hlast : (Q l).getLast? with
      | none => exact hc
      | some t =>
        exact hc.update_of_notMem fun ht =>
          hm (h.level_unique ht (List.mem_of_getLast? hlast))
  tail m := by
    rw [pushAt_eq]
    by_cases hm : m = l
    · subst hm
      simp only [append, update_self]
      split_ifs <;> simp
    · simp only [append, update_of_ne hm]
      exact h.tail m
  nodup m := by
    by_cases hm : m = l
    · subst hm
      simp only [append, update_self]
      exact List.nodup_append.2 ⟨h.nodup m, by simp, fun a ha b hb e => by
        rw [List.mem_singleton] at hb
        exact hp m (hb ▸ e ▸ ha)⟩
    · simp only [append, update_of_ne hm]
      exact h.nodup m
  prio m x hx := by
    rw [pushAt_prio]
    by_cases hm : m = l
    · subst hm
      simp only [append, update_self, List.mem_append, List.mem_singleton] at hx
      rcases hx with hx | rfl
      · exact h.prio m x hx
      · exact hl
    · rw [append, update_of_ne hm] at hx
      exact h.prio m x hx
  highest := by rw [pushAt_eq, h.highest, lowest_append]
  relinked := by
    have hfree : ¬ r.Linked p := fun hl => by
      obtain ⟨m, hm⟩ := h.linked_iff.1 hl
      exact hp m hm
    simp [pushAt_eq, h.relinked, hfree]

theorem rqPushTail_eq {v : ℤ} (hv : v = l) : r.rqPushTail v p = some (r.pushAt l p) := by
  rw [hv, rqPushTail, level?_coe]; rfl

/-! ## Unlinking a process -/

theorem lowest_congr {Q Q' : Level → List ProcId} (h : ∀ l, Q' l = [] ↔ Q l = []) :
    lowest Q' = lowest Q := by
  rcases lowest_neg_or Q with hQ | ⟨k, hQ⟩
  · rw [hQ]
    exact lowest_eq_neg.2 fun l => (h l).2 (lowest_eq_neg.1 hQ l)
  · obtain ⟨hk, hlow⟩ := lowest_eq_coe.1 hQ
    rw [hQ]
    exact lowest_eq_coe.2 ⟨fun e => hk ((h k).1 e), fun m hm => (h m).2 (hlow m hm)⟩

/-- Emptying a level other than the lowest one in use does not change the lowest one. -/
theorem lowest_update_nil {Q : Level → List ProcId} {l : Level} (h : lowest Q ≠ l) :
    lowest (update Q l []) = lowest Q := by
  rcases lowest_neg_or Q with hQ | ⟨k, hQ⟩
  · refine lowest_congr fun m => ?_
    rw [lowest_eq_neg] at hQ
    by_cases hm : m = l <;> simp [hm, hQ]
  · have hkl : k ≠ l := fun e => h (by rw [hQ, e])
    obtain ⟨hk, hlow⟩ := lowest_eq_coe.1 hQ
    rw [hQ]
    refine lowest_eq_coe.2 ⟨by rwa [update_of_ne hkl], fun m hm => ?_⟩
    by_cases e : m = l
    · rw [e, update_self]
    · rw [update_of_ne e]
      exact hlow m hm

theorem unlinkAt_eq (r : RunQueue) (l : Level) (prev : Option ProcId) (cur : ProcId) :
    r.unlinkAt l prev cur =
    { rqNext := update (match prev with
        | some pv => update r.rqNext pv (r.rqNext cur)
        | none => r.rqNext) cur none
      prio := r.prio
      waitTicks := r.waitTicks
      q := update r.q l
        ⟨if prev.isSome then (r.q l).head else r.rqNext cur,
          if (r.q l).tail = some cur then prev else (r.q l).tail⟩
      highestNonempty := r.highestNonempty
      relinked := r.relinked } := by
  unfold unlinkAt
  cases prev <;> simp only [setNext, setQ] <;> split_ifs <;> simp_all

/-- The lists after unlinking `p` from level `l`. -/
def erase (Q : Level → List ProcId) (l : Level) (p : ProcId) : Level → List ProcId :=
  update Q l ((Q l).erase p)

theorem mem_erase (h : r.Links Q) {x : ProcId} {m : Level} (hp : p ∈ Q l) :
    x ∈ erase Q l p m ↔ x ≠ p ∧ x ∈ Q m := by
  by_cases hm : m = l
  · subst hm
    rw [erase, update_self, (h.nodup m).mem_erase_iff]
  · rw [erase, update_of_ne hm]
    exact ⟨fun hx => ⟨fun e => hm (h.level_unique (e ▸ hx) hp), hx⟩, And.right⟩

theorem erase_of_split {l1 l2 : List ProcId} (hQ : Q l = l1 ++ p :: l2) (hnd : (Q l).Nodup) :
    (Q l).erase p = l1 ++ l2 := by
  rw [hQ] at hnd ⊢
  have hp : p ∉ l1 := fun hp => (List.nodup_append.1 hnd).2.2 p hp p (by simp) rfl
  rw [List.erase_append_right _ hp, List.erase_cons_head]

/-- Unlinking through the predecessor removes exactly the process. -/
theorem unlinkAt_links {l1 l2 : List ProcId} (h : r.Links Q) (hQ : Q l = l1 ++ p :: l2) :
    (r.unlinkAt l l1.getLast? p).Links (erase Q l p) where
  chain m := by
    simp only [unlinkAt_eq]
    have hpl : p ∈ Q l := by simp [hQ]
    by_cases hm : m = l
    · subst hm
      have hc := h.chain m
      have hnd := h.nodup m
      simp only [erase, update_self, erase_of_split hQ hnd]
      rw [hQ] at hc hnd
      rcases List.eq_nil_or_concat l1 with rfl | ⟨L, b, rfl⟩
      · simpa using hc.unlink_head hnd
      · simp only [List.concat_eq_append, List.append_assoc, List.cons_append,
          List.nil_append] at hc hnd ⊢
        simpa using hc.unlink hnd
    · simp only [erase, update_of_ne hm]
      have hne : ∀ x ∈ Q l, x ∉ Q m := fun x hx hx' => hm (h.level_unique hx' hx)
      refine Seg.update_of_notMem ?_ (hne p hpl)
      cases hlast : l1.getLast? with
      | none => exact h.chain m
      | some b =>
        exact (h.chain m).update_of_notMem
          (hne b (by rw [hQ]; exact List.mem_append_left _ (List.mem_of_getLast? hlast)))
  tail m := by
    simp only [unlinkAt_eq]
    by_cases hm : m = l
    · subst hm
      have hnd := h.nodup m
      simp only [erase, update_self, erase_of_split hQ hnd, h.tail m]
      rw [hQ] at hnd ⊢
      rcases List.eq_nil_or_concat l2 with rfl | ⟨L, b, rfl⟩
      · simp
      · -- the last process of the level stands behind `p`, so it is not `p`
        have hbp : b ≠ p := by
          rintro rfl
          simp [List.nodup_append] at hnd
        have hlast : (p :: (L ++ [b])).getLast? = some b := by
          rw [← List.cons_append, List.getLast?_append]; rfl
        simp [List.concat_eq_append, hlast, hbp]
    · simp only [erase, update_of_ne hm]
      exact h.tail m
  nodup m := by
    by_cases hm : m = l
    · subst hm
      rw [erase, update_self]
      exact (h.nodup m).erase p
    · rw [erase, update_of_ne hm]
      exact h.nodup m
  prio m x hx := by
    rw [unlinkAt_eq]
    exact h.prio m x ((mem_erase h (by simp [hQ])).1 hx).2

/-- The loop of `rq_remove` unlinks `p`, or leaves everything alone when `p` is not there. The
list of the level is split at the current node; `p` is not in the part already passed. -/
theorem removeLoop_spec (h : r.Links Q) :
    ∀ (fuel : ℕ) (pre suf : List ProcId), Q l = pre ++ suf → p ∉ pre → suf.length < fuel →
      (p ∈ suf → ∃ l1 l2, Q l = l1 ++ p :: l2 ∧
        r.removeLoop l p fuel pre.getLast? suf.head? = some (r.unlinkAt l l1.getLast? p)) ∧
      (p ∉ suf → r.removeLoop l p fuel pre.getLast? suf.head? = some r) := by
  intro fuel
  induction fuel with
  | zero => intro _ _ _ _ hlt; exact absurd hlt (Nat.not_lt_zero _)
  | succ fuel ih =>
    intro pre suf hQ hpre hlt
    cases suf with
    | nil => exact ⟨fun hp => absurd hp List.not_mem_nil, fun _ => rfl⟩
    | cons c suf =>
      simp only [List.head?_cons, removeLoop]
      by_cases hc : c = p
      · subst hc
        exact ⟨fun _ => ⟨pre, suf, hQ, by simp⟩, fun hp => absurd List.mem_cons_self hp⟩
      · have hnext : r.rqNext c = suf.head? := (hQ ▸ h.chain l).next_eq
        have hrest := ih (pre ++ [c]) suf (by simp [hQ]) (by simp [hpre, Ne.symm hc])
          (by simpa using hlt)
        simp only [List.getLast?_append, List.getLast?_singleton, some_or] at hrest
        simp only [if_neg hc, hnext, List.mem_cons, Ne.symm hc, false_or]
        exact hrest

theorem refreshHighest_eq (r : RunQueue) (l : Level) : r.refreshHighest l =
    { r with highestNonempty :=
        if (r.q l).head = none ∧ r.highestNonempty = l then r.firstNonempty
        else r.highestNonempty } := by
  unfold refreshHighest
  split_ifs <;> rfl

variable (h : r.Rep Q)

include h

/-- **`rq_remove` erases** a process from the level it is linked in. -/
theorem rqRemove_rep (hp : p ∈ Q l) : ∃ r', r.rqRemove l p = some r' ∧ r'.Rep (erase Q l p) ∧
      r'.prio = r.prio ∧ r'.waitTicks = r.waitTicks := by
  have hlen : (Q l).length < NPROC + 1 := Nat.lt_succ_of_le (h.length_le l)
  obtain ⟨l1, l2, hQ, hloop⟩ :=
    (removeLoop_spec h.toLinks _ [] (Q l) rfl List.not_mem_nil hlen).1 hp
  have hl := unlinkAt_links h.toLinks hQ
  have hhigh : (r.unlinkAt l l1.getLast? p).highestNonempty = lowest Q := by
    rw [unlinkAt_eq]; exact h.highest
  refine ⟨(r.unlinkAt l l1.getLast? p).refreshHighest l, ?_, ?_, ?_, ?_⟩
  · rw [List.getLast?_nil, ← h.head] at hloop
    simp [rqRemove, level?_coe, hloop]
  · rw [refreshHighest_eq]
    refine ⟨⟨hl.chain, hl.tail, hl.nodup, hl.prio⟩, ?_, by rw [unlinkAt_eq]; exact h.relinked⟩
    simp only [hl.head, hhigh, hl.firstNonempty_eq, List.head?_eq_none_iff]
    split_ifs with hdry
    · rfl
    · by_cases he : erase Q l p l = []
      · have he' : erase Q l p = update Q l [] := by
          rw [erase, update_self] at he
          rw [erase, he]
        rw [he', lowest_update_nil fun e => hdry ⟨he, e⟩]
      · refine (lowest_congr fun m => ?_).symm
        by_cases hm : m = l
        · subst hm
          simp [he, List.ne_nil_of_mem hp]
        · rw [erase, update_of_ne hm]
  · rw [refreshHighest_eq, unlinkAt_eq]
  · rw [refreshHighest_eq, unlinkAt_eq]

/-- `rq_remove` is a no-op on a process that is not linked in the level. -/
theorem rqRemove_absent (hp : p ∉ Q l) : r.rqRemove l p = some r := by
  have hlen : (Q l).length < NPROC + 1 := Nat.lt_succ_of_le (h.length_le l)
  have hloop := (removeLoop_spec h.toLinks _ [] (Q l) rfl List.not_mem_nil hlen).2 hp
  rw [List.getLast?_nil, ← h.head] at hloop
  have hfresh : r.refreshHighest l = r := by
    unfold refreshHighest
    refine if_neg ?_
    rintro ⟨hhead, hhigh⟩
    rw [h.head, List.head?_eq_none_iff] at hhead
    exact (lowest_eq_coe.1 (h.highest.symm.trans hhigh)).1 hhead
  simp [rqRemove, level?_coe, hloop, hfresh]

/-! ## Picking the next process -/

/-- **`prio_pick_next` returns the head of the lowest non-empty level** and unlinks it. -/
theorem prioPickNext_some {L : List ProcId} (hlow : lowest? Q = some l) (hQ : Q l = p :: L) :
    ∃ r', r.prioPickNext = some (some p, r') ∧
      r'.Rep (erase Q l p) ∧ r'.prio = r.prio ∧ r'.waitTicks = r.waitTicks := by
  have hhigh : r.highestNonempty = l := h.highest.trans (by rw [lowest, hlow])
  obtain ⟨r', hr, hrest⟩ := rqRemove_rep h (p := p) (l := l) (by simp [hQ])
  refine ⟨r', ?_, hrest⟩
  have hneg : ¬ (l : ℤ) < 0 := by omega
  simp [prioPickNext, hhigh, hneg, level?_coe, h.head, hQ, hr]

theorem prioPickNext_none (hlow : lowest? Q = none) : r.prioPickNext = some (none, r) := by
  have hhigh : r.highestNonempty = -1 := h.highest.trans (by rw [lowest, hlow])
  simp [prioPickNext, hhigh]

/-- `prio_should_preempt` says whether some process waits at the level or a higher one. -/
theorem prioShouldPreempt_iff {v : ℤ} :
    r.prioShouldPreempt v = true ↔ ∃ m : Level, Q m ≠ [] ∧ (m : ℤ) ≤ v := by
  simp only [prioShouldPreempt, prioHighestNonempty, h.highest]
  rcases lowest_neg_or Q with hQ | ⟨k, hQ⟩
  · have hall := lowest_eq_neg.1 hQ
    simp [hQ, hall]
  · obtain ⟨hk, hlow⟩ := lowest_eq_coe.1 hQ
    have hneg : ¬ (k : ℤ) < 0 := by omega
    simp only [hQ, if_neg hneg, decide_eq_true_eq]
    constructor
    · exact fun hkv => ⟨k, hk, hkv⟩
    · rintro ⟨m, hm, hmv⟩
      have hkm : k ≤ m := not_lt.1 fun hlt => hm (hlow m hlt)
      have := Fin.le_def.1 hkm
      omega

end RunQueue

/-! ## The abstract queue -/

/-- 32 FIFO lists, with the priority and the waiting time of every process. -/
structure Fifo where
  q : Level → List ProcId
  prio : ProcId → ℤ
  waitTicks : ProcId → ℤ

namespace Fifo

variable (a : Fifo)

/-- The process has waited long enough to move up. -/
def aged (p : ProcId) : Prop := agingTicks ≤ a.waitTicks p + 1 ∧ prioMin < a.prio p

instance (p : ProcId) : Decidable (a.aged p) := by unfold aged; infer_instance

def enqueue (l : Level) (p : ProcId) : Fifo :=
  { a with q := append a.q l p, waitTicks := update a.waitTicks p 0 }

def dequeue (p : ProcId) : Fifo := { a with q := fun l => (a.q l).erase p }

def pickNext : Option ProcId × Fifo :=
  match lowest? a.q with
  | none => (none, a)
  | some l => ((a.q l).head?, { a with q := update a.q l (a.q l).tail })

/-- One process of level `l` grows older: it waits one tick more, or moves to the end of the
level above. -/
def age (l : Level) (a : Fifo) (p : ProcId) : Fifo :=
  if a.aged p then
    { q := match level? (a.prio p - 1) with
        | some m => append (erase a.q l p) m p
        | none => a.q
      prio := update a.prio p (a.prio p - 1)
      waitTicks := update a.waitTicks p 0 }
  else { a with waitTicks := update a.waitTicks p (a.waitTicks p + 1) }

/-- A tick: the processes of all levels grow older, one after the other, the highest priority
first. -/
def onTick : Fifo := (List.finRange NPRIO).foldl (fun a l => (a.q l).foldl (age l) a) a

/-- The same processes are linked, and the others keep their priority. -/
structure SameMembers (a a' : Fifo) : Prop where
  mem : ∀ x, (∃ m, x ∈ a'.q m) ↔ ∃ m, x ∈ a.q m
  prio : ∀ x, (∀ m, x ∉ a.q m) → a'.prio x = a.prio x

theorem SameMembers.refl (a : Fifo) : a.SameMembers a := ⟨fun _ => Iff.rfl, fun _ _ => rfl⟩

theorem SameMembers.trans {a b c : Fifo} (h : a.SameMembers b) (h' : b.SameMembers c) :
    a.SameMembers c where
  mem x := (h'.mem x).trans (h.mem x)
  prio x hx := by
    have hb : ∀ m, x ∉ b.q m := by simpa using mt (h.mem x).1 (by simpa using hx)
    rw [h'.prio x hb, h.prio x hx]

end Fifo

/-! ## Refinement -/

/-- The run queue `r` implements the abstract queue `a`. -/
structure RunQueue.Refines (r : RunQueue) (a : Fifo) : Prop where
  rep : r.Rep a.q
  prio : r.prio = a.prio
  waitTicks : r.waitTicks = a.waitTicks

namespace RunQueue

variable {r : RunQueue} {a : Fifo} {p : ProcId} {l : Level}

theorem mem_append {Q : Level → List ProcId} {x : ProcId} {m : Level} :
    x ∈ append Q l p m ↔ x ∈ Q m ∨ x = p ∧ m = l := by
  by_cases hm : m = l
  · subst hm; simp [append]
  · simp [append, hm]

theorem Refines.level_above (h : r.Refines a) (hp : p ∈ a.q l) (hpos : prioMin < a.prio p) :
    ∃ m : Level, a.prio p - 1 = m := by
  have hl : a.prio p = l := by rw [← h.prio]; exact h.rep.prio l p hp
  rw [prioMin] at hpos
  exact exists_level (by have := l.isLt; omega)

/-- One iteration of the loop of `prio_on_tick` on a process that is due for promotion. -/
theorem promote_refines (h : r.Refines a) (hp : p ∈ a.q l) (hdue : a.aged p) :
    ∃ r1 r2, (r.setWait p (r.waitTicks p + 1)).rqRemove l p = some r1 ∧
      ((r1.setPrio p (r1.prio p - 1)).setWait p 0).rqPushTail (r1.prio p - 1) p = some r2 ∧
      r2.Refines (Fifo.age l a p) ∧ a.SameMembers (Fifo.age l a p) := by
  obtain ⟨r1, hrem, hrep, hprio, hwait⟩ :=
    rqRemove_rep (h.rep.setWait p (r.waitTicks p + 1)) hp
  have hr1 : r1.prio p = a.prio p := by rw [hprio, ← h.prio]; rfl
  obtain ⟨m, hm⟩ := h.level_above hp hdue.2
  have hmem : ∀ x k, x ∈ erase a.q l p k ↔ x ≠ p ∧ x ∈ a.q k :=
    fun x k => mem_erase h.rep.toLinks hp
  have hfree : ∀ k, p ∉ erase a.q l p k := fun k hk => ((hmem p k).1 hk).1 rfl
  have hpush := pushAt_rep (p := p) (l := m)
    ((hrep.setPrio hfree (r1.prio p - 1)).setWait p 0) hfree (by simp [setWait, setPrio, hr1, hm])
  have hage : Fifo.age l a p = ⟨append (erase a.q l p) m p,
      update a.prio p (a.prio p - 1), update a.waitTicks p 0⟩ := by
    simp [Fifo.age, hdue, hm, level?_coe]
  refine ⟨r1, _, hrem, rqPushTail_eq (by rw [hr1, hm]), ?_, ?_⟩
  · rw [hage]
    refine ⟨hpush, ?_, ?_⟩
    · simp [setPrio, setWait, hprio, h.prio]
    · simp [setPrio, setWait, hwait, h.waitTicks]
  · rw [hage]
    refine ⟨fun x => ?_, fun x hx => ?_⟩
    swap
    · have hxp : x ≠ p := fun e => hx l (by rw [e]; exact hp)
      exact update_of_ne hxp _ _
    simp only [mem_append, hmem]
    by_cases hx : x = p
    · subst hx
      exact ⟨fun _ => ⟨l, hp⟩, fun _ => ⟨m, .inr ⟨rfl, rfl⟩⟩⟩
    · simp [hx]

theorem wait_refines (h : r.Refines a) (hdue : ¬ a.aged p) :
    (r.setWait p (r.waitTicks p + 1)).Refines (Fifo.age l a p) ∧
      a.SameMembers (Fifo.age l a p) := by
  have hage : Fifo.age l a p =
      { a with waitTicks := update a.waitTicks p (a.waitTicks p + 1) } := by
    simp [Fifo.age, hdue]
  rw [hage]
  refine ⟨⟨h.rep.setWait p _, h.prio, ?_⟩, ⟨fun _ => Iff.rfl, fun _ _ => rfl⟩⟩
  simp [setWait, h.waitTicks]

/-- The loop of `prio_on_tick` over one level ages the processes of the level in order. `pre`
are the processes that have been visited and stay, `suf` those still to be visited. -/
theorem tickLoop_refines :
    ∀ (suf : List ProcId) (fuel : ℕ) (pre : List ProcId) (r : RunQueue) (a : Fifo),
      r.Refines a → a.q l = pre ++ suf → suf.length < fuel →
      ∃ r', tickLoop l fuel suf.head? r = some r' ∧ r'.Refines (suf.foldl (Fifo.age l) a) ∧
        a.SameMembers (suf.foldl (Fifo.age l) a) := by
  intro suf
  induction suf with
  | nil =>
    intro fuel _ r a h _ hlt
    obtain ⟨fuel, rfl⟩ := Nat.exists_eq_add_of_lt hlt
    exact ⟨r, by simp [tickLoop], h, .refl a⟩
  | cons c suf ih =>
    intro fuel pre r a h hQ hlt
    obtain ⟨fuel, rfl⟩ : ∃ n, fuel = n + 1 := ⟨fuel - 1, by omega⟩
    have hc : c ∈ a.q l := by simp [hQ]
    have hlen : suf.length < fuel := by simpa using hlt
    have hnext : r.rqNext c = suf.head? := (hQ ▸ h.rep.chain l).next_eq
    have htest : (agingTicks ≤ (r.setWait c (r.waitTicks c + 1)).waitTicks c ∧
        prioMin < (r.setWait c (r.waitTicks c + 1)).prio c) ↔ a.aged c := by
      simp [Fifo.aged, setWait, h.waitTicks, h.prio]
    simp only [List.head?_cons, tickLoop, List.foldl_cons, htest]
    by_cases hdue : a.aged c
    · obtain ⟨r1, r2, hrem, hpush, href, hsame⟩ := promote_refines h hc hdue
      have hQ' : (Fifo.age l a c).q l = pre ++ suf := by
        obtain ⟨m, hm⟩ := h.level_above hc hdue.2
        have hml : l ≠ m := by
          have hl : a.prio c = l := by rw [← h.prio]; exact h.rep.prio l c hc
          exact fun e => by subst e; omega
        simp only [Fifo.age, hdue, if_true, hm, level?_coe, append, update_of_ne hml,
          erase, update_self]
        exact erase_of_split hQ (h.rep.nodup l)
      obtain ⟨r', hloop, href', hsame'⟩ := ih fuel pre r2 _ href hQ' hlen
      refine ⟨r', ?_, href', hsame.trans hsame'⟩
      have hnext' : (r.setWait c (r.waitTicks c + 1)).rqNext c = suf.head? := hnext
      have hprio : ((r1.setPrio c (r1.prio c - 1)).setWait c 0).prio c = r1.prio c - 1 := by
        simp [setPrio, setWait]
      simp only [hdue, if_true, hrem, bind_eq_bind, bind_some, hprio, hpush, hnext', hloop]
    · obtain ⟨href, hsame⟩ := wait_refines (l := l) h hdue
      have hQ' : (Fifo.age l a c).q l = (pre ++ [c]) ++ suf := by
        simp [Fifo.age, hdue, hQ]
      obtain ⟨r', hloop, href', hsame'⟩ :=
        ih fuel (pre ++ [c]) _ _ href hQ' hlen
      refine ⟨r', ?_, href', hsame.trans hsame'⟩
      simp only [hdue, if_false]
      exact (congrArg (tickLoop l fuel · _) hnext).trans hloop

theorem foldlM_tick_refines : ∀ (ls : List Level) (r : RunQueue) (a : Fifo), r.Refines a →
      ∃ r', ls.foldlM (fun r l => tickLoop l (NPROC + 1) (r.q l).head r) r = some r' ∧
        r'.Refines (ls.foldl (fun a l => (a.q l).foldl (Fifo.age l) a) a) ∧
        a.SameMembers (ls.foldl (fun a l => (a.q l).foldl (Fifo.age l) a) a) := by
  intro ls
  induction ls with
  | nil => intro r a h; exact ⟨r, rfl, h, .refl a⟩
  | cons l ls ih =>
    intro r a h
    obtain ⟨r1, hloop, href, hsame⟩ := tickLoop_refines (l := l) (a.q l) (NPROC + 1) [] r a h rfl
      (Nat.lt_succ_of_le (h.rep.length_le l))
    rw [← h.rep.head] at hloop
    obtain ⟨r', hrest, href', hsame'⟩ := ih r1 _ href
    refine ⟨r', ?_, href', hsame.trans hsame'⟩
    rw [List.foldlM_cons, hloop]
    exact hrest

/-- **`prio_on_tick` ages the lists.** -/
theorem prioOnTick_refines (h : r.Refines a) :
    ∃ r', r.prioOnTick = some r' ∧ r'.Refines a.onTick ∧ a.SameMembers a.onTick :=
  foldlM_tick_refines _ r a h

/-- **`prio_enqueue` appends** a process that is not linked to the level of its priority. -/
theorem prioEnqueue_refines (h : r.Refines a) (hp : ∀ m, p ∉ a.q m) (hl : a.prio p = l) :
    ∃ r', r.prioEnqueue p = some r' ∧ r'.Refines (a.enqueue l p) := by
  have hprio : r.prio p = l := by rw [h.prio, hl]
  refine ⟨_, rqPushTail_eq hprio, pushAt_rep (h.rep.setWait p 0) hp hprio, ?_, ?_⟩
  · simp [setWait, Fifo.enqueue, h.prio]
  · simp [setWait, Fifo.enqueue, h.waitTicks]

/-- **`prio_dequeue` erases exactly the process**, wherever it is linked. -/
theorem prioDequeue_refines (h : r.Refines a) (hl : a.prio p = l) :
    ∃ r', r.prioDequeue p = some r' ∧ r'.Refines (a.dequeue p) := by
  have hprio : r.prio p = l := by rw [h.prio, hl]
  have hother : ∀ m, m ≠ l → (a.q m).erase p = a.q m := fun m hm => by
    refine List.erase_of_not_mem fun hp => hm (Fin.ext ?_)
    have := h.rep.prio m p hp
    omega
  rw [prioDequeue, hprio]
  by_cases hp : p ∈ a.q l
  · obtain ⟨r', hr, hrep, hpr, hwt⟩ := rqRemove_rep h.rep hp
    have hq : erase a.q l p = (a.dequeue p).q := by
      funext m
      by_cases hm : m = l
      · subst hm; simp [erase, Fifo.dequeue]
      · simp [erase, Fifo.dequeue, hm, hother m hm]
    exact ⟨r', hr, hq ▸ hrep, hpr.trans h.prio, hwt.trans h.waitTicks⟩
  · have hq : (a.dequeue p).q = a.q := by
      funext m
      by_cases hm : m = l
      · subst hm; exact List.erase_of_not_mem hp
      · exact hother m hm
    exact ⟨r, rqRemove_absent h.rep hp, hq ▸ h.rep, h.prio, h.waitTicks⟩

theorem prioPickNext_refines (h : r.Refines a) :
    ∃ r', r.prioPickNext = some (a.pickNext.1, r') ∧ r'.Refines a.pickNext.2 := by
  cases hlow : lowest? a.q with
  | none =>
    refine ⟨r, ?_, ?_⟩
    · rw [prioPickNext_none h.rep hlow]; simp [Fifo.pickNext, hlow]
    · simpa [Fifo.pickNext, hlow] using h
  | some l =>
    obtain ⟨p, L, hQ⟩ := List.exists_cons_of_ne_nil (lowest?_eq_some.1 hlow).1
    obtain ⟨r', hr, hrep, hpr, hwt⟩ := prioPickNext_some h.rep hlow hQ
    refine ⟨r', ?_, ?_⟩
    · simp [hr, Fifo.pickNext, hlow, hQ]
    · have hq : erase a.q l p = update a.q l (a.q l).tail := by simp [erase, hQ]
      simp only [Fifo.pickNext, hlow]
      exact ⟨hq ▸ hrep, hpr.trans h.prio, hwt.trans h.waitTicks⟩

end RunQueue

/-! ## Sequences of operations -/

/-- A call of one of the operations, or a new priority given to a process that is not linked
(as `allocproc` and `fork` do). -/
inductive RqOp
  | enqueue (p : ProcId)
  | dequeue (p : ProcId)
  | pickNext
  | onTick
  | setPrio (p : ProcId) (v : ℤ)
  deriving DecidableEq, Repr

/-- Execute an operation on the pointers. Only `prio_pick_next` returns something. -/
def RunQueue.exec : RqOp → RunQueue → Option (Option ProcId × RunQueue)
  | .enqueue p, r => (r.prioEnqueue p).map (none, ·)
  | .dequeue p, r => (r.prioDequeue p).map (none, ·)
  | .pickNext, r => r.prioPickNext
  | .onTick, r => r.prioOnTick.map (none, ·)
  | .setPrio p v, r => some (none, r.setPrio p v)

/-- Execute an operation on the lists; `none` when the caller breaks its side of the contract:
a process must not be linked when it is enqueued or given a new priority, and the priority of a
process that is enqueued or dequeued must name a level. -/
def Fifo.exec : RqOp → Fifo → Option (Option ProcId × Fifo)
  | .enqueue p, a =>
    if ∀ l, p ∉ a.q l then (level? (a.prio p)).map fun l => (none, a.enqueue l p) else none
  | .dequeue p, a => (level? (a.prio p)).map fun _ => (none, a.dequeue p)
  | .pickNext, a => some a.pickNext
  | .onTick, a => some (none, a.onTick)
  | .setPrio p v, a =>
    if ∀ l, p ∉ a.q l then some (none, { a with prio := update a.prio p v }) else none

/-- The lists after `prio_init`: all empty. -/
def Fifo.init (r : RunQueue) : Fifo := ⟨fun _ => [], r.prio, r.waitTicks⟩

theorem exec_refines (e : RqOp) (r : RunQueue) (a : Fifo) (x : Option ProcId) (a' : Fifo)
    (h : r.Refines a) (he : a.exec e = some (x, a')) :
    ∃ r', r.exec e = some (x, r') ∧ r'.Refines a' := by
  cases e with
  | enqueue p =>
    simp only [Fifo.exec, ite_none_right_eq_some, map_eq_some_iff, Prod.mk.injEq] at he
    obtain ⟨hp, l, hl, rfl, rfl⟩ := he
    obtain ⟨r', hr, href⟩ := prioEnqueue_refines h hp (level?_eq_some.1 hl)
    exact ⟨r', by simp [exec, hr], href⟩
  | dequeue p =>
    simp only [Fifo.exec, map_eq_some_iff, Prod.mk.injEq] at he
    obtain ⟨l, hl, rfl, rfl⟩ := he
    obtain ⟨r', hr, href⟩ := prioDequeue_refines h (level?_eq_some.1 hl)
    exact ⟨r', by simp [exec, hr], href⟩
  | pickNext =>
    simp only [Fifo.exec, some.injEq] at he
    obtain ⟨r', hr, href⟩ := prioPickNext_refines h
    rw [he] at hr href
    exact ⟨r', hr, href⟩
  | onTick =>
    simp only [Fifo.exec, some.injEq, Prod.mk.injEq] at he
    obtain ⟨rfl, rfl⟩ := he
    obtain ⟨r', hr, href, -⟩ := prioOnTick_refines h
    exact ⟨r', by simp [exec, hr], href⟩
  | setPrio p v =>
    simp only [Fifo.exec, ite_none_right_eq_some, some.injEq, Prod.mk.injEq] at he
    obtain ⟨hp, rfl, rfl⟩ := he
    refine ⟨r.setPrio p v, rfl, h.rep.setPrio hp v, ?_, h.waitTicks⟩
    simp [setPrio, h.prio]

/-- **The pointer-based run queue refines 32 FIFO lists.** Every sequence of operations that
keeps to the contract runs to completion on the pointers from `prio_init`, picks the same
processes as the lists, and ends with pointers that represent the lists. -/
theorem runQueue_refines_fifo (r : RunQueue) (ops : List RqOp) (picked : List (Option ProcId))
    (a : Fifo) (h : runOut Fifo.exec ops (Fifo.init r) = some (picked, a)) :
    ∃ r', runOut exec ops r.prioInit = some (picked, r') ∧
      r'.Refines a ∧ ∀ p l m, p ∈ a.q l → p ∈ a.q m → l = m := by
  obtain ⟨r', hr, href⟩ := runOut_simulates (R := RunQueue.Refines)
    (fun e r a x a' => exec_refines e r a x a') ops r.prioInit (Fifo.init r) picked a
    ⟨prioInit_rep r, rfl, rfl⟩ h
  exact ⟨r', hr, href, fun p l m hl hm => href.rep.level_unique hl hm⟩

/-- A process table as the kernel finds it at boot: all zero. -/
def RunQueue.zero : RunQueue :=
  ⟨fun _ => none, fun _ => 0, fun _ => 0, fun _ => ⟨none, none⟩, 0, false⟩

/-- Three processes at levels 1, 1 and 0; the second is taken out of the middle of the run. -/
def sampleOps : List RqOp :=
  [.setPrio 3 1, .setPrio 5 1, .enqueue 3, .enqueue 5, .enqueue 7, .onTick, .dequeue 5,
    .pickNext, .pickNext, .pickNext]

theorem runQueue_refines_fifo_sample : ∃ r', runOut exec sampleOps zero.prioInit =
      some ([none, none, none, none, none, none, none, some 7, some 3, none], r') := by
  have hrun : (runOut Fifo.exec sampleOps (Fifo.init zero)).map Prod.fst =
      some [none, none, none, none, none, none, none, some 7, some 3, none] := by decide +kernel
  obtain ⟨⟨_, a⟩, ha, rfl⟩ := map_eq_some_iff.1 hrun
  obtain ⟨r', hr, -⟩ := runQueue_refines_fifo zero sampleOps _ a ha
  exact ⟨r', hr⟩

end Xv6
