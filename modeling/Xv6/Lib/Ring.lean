import Xv6.Lib.Chain

/-!
# Doubly linked rings

Nodes of a type `α` and one more node, the head (`none`), linked in both directions by pointers
`next` and `prev`. `Ring r l` says that following `next` from the head visits the nodes of `l`, each
once, and comes back to the head, and that following `prev` visits them in the opposite order.

A ring is two chains of `Xv6.Lib.Chain` that end in the head instead of null. Reversing the list and
swapping the two kinds of pointers gives a ring again (`Ring.swap`), so that each edit, `unlink` or
`pushFront`, has to be followed in one direction only.
-/

open Function List

namespace LinkedChain

variable {α : Type*}

/-- The pointers of the nodes (`some a`) and of the head (`none`). -/
structure Links (α : Type*) where
  next : Option α → Option α
  prev : Option α → Option α

namespace Links

/-- The same nodes, seen from the other side. -/
def swap (r : Links α) : Links α := ⟨r.prev, r.next⟩

variable [DecidableEq α]

/-- `b->next->prev = b->prev; b->prev->next = b->next;` -/
def unlink (b : α) (r : Links α) : Links α where
  next := update r.next (r.prev (some b)) (r.next (some b))
  prev := update r.prev (r.next (some b)) (r.prev (some b))

/-- `b->next = head.next; b->prev = &head; head.next->prev = b; head.next = b;` -/
def pushFront (b : α) (r : Links α) : Links α where
  next := update (update r.next (some b) (r.next none)) none (some b)
  prev := update (update r.prev (some b) none) (r.next none) (some b)

end Links

/-- `l` are the nodes of the ring, in the order of `next`. -/
structure Ring (r : Links α) (l : List α) : Prop where
  nodup : l.Nodup
  forward : Chain (fun a => r.next (some a)) (r.next none) l
  backward : Chain (fun a => r.prev (some a)) (r.prev none) l.reverse

namespace Ring

variable {r : Links α} {l l1 l2 : List α} {b : α}

theorem swap (h : Ring r l) : Ring r.swap l.reverse where
  nodup := nodup_reverse.mpr h.nodup
  forward := h.backward
  backward := by
    rw [reverse_reverse]
    exact h.forward

/-! ## Neighbours -/

theorem next_head (h : Ring r l) : r.next none = l.head? := Chain.head_eq h.forward

theorem next_eq (h : Ring r (l1 ++ b :: l2)) : r.next (some b) = l2.head? :=
  Chain.next_eq h.forward

theorem prev_head (h : Ring r l) : r.prev none = l.getLast? := by
  rw [← head?_reverse]
  exact Chain.head_eq h.backward

theorem prev_eq (h : Ring r (l1 ++ b :: l2)) : r.prev (some b) = l1.getLast? := by
  have hb := h.backward
  rw [reverse_append, reverse_cons, append_assoc, singleton_append] at hb
  rw [← head?_reverse]
  exact Chain.next_eq hb

theorem prev_next (h : Ring r l) {x : Option α} (hx : ∀ a ∈ x, a ∈ l) : r.prev (r.next x) = x := by
  cases x with
  | none =>
    rw [h.next_head]
    cases l with
    | nil => exact h.prev_head
    | cons a l =>
      have h' : Ring r ([] ++ a :: l) := h
      exact h'.prev_eq
  | some b =>
    obtain ⟨l1, l2, rfl⟩ := append_of_mem (hx b rfl)
    rw [h.next_eq]
    cases l2 with
    | nil => simpa using h.prev_head
    | cons c l2 =>
      rw [append_cons] at h
      simpa using h.prev_eq

theorem next_prev (h : Ring r l) {x : Option α} (hx : ∀ a ∈ x, a ∈ l) : r.next (r.prev x) = x :=
  h.swap.prev_next fun a ha => mem_reverse.mpr (hx a ha)

/-! ## Edits -/

theorem empty : Ring (⟨fun _ => none, fun _ => none⟩ : Links α) [] := ⟨nodup_nil, rfl, rfl⟩

variable [DecidableEq α]

theorem unlink_forward (h : Ring r (l1 ++ b :: l2)) :
    Chain (fun a => (r.unlink b).next (some a)) ((r.unlink b).next none) (l1 ++ l2) := by
  have hf := h.forward
  have hprev := h.prev_eq
  unfold Links.unlink
  rcases eq_nil_or_concat l1 with rfl | ⟨l1, x, rfl⟩
  · -- `b` is behind the head
    simp only [getLast?_nil] at hprev
    simp only [hprev, update_self]
    exact hf.2
  · simp only [concat_eq_append, append_assoc, singleton_append] at h hf ⊢
    have hx : r.prev (some b) = some x := by simpa using hprev
    have hxb : x ≠ b := by
      rintro rfl
      have := h.nodup
      simp [nodup_append] at this
    have hnext : (fun a => update r.next (some x) (r.next (some b)) (some a)) =
        update (update (fun a => r.next (some a)) x (r.next (some b))) b (r.next (some b)) := by
      funext a
      by_cases hab : a = b
      · subst hab
        simp [hxb.symm]
      · by_cases hax : a = x
        · subst hax
          simp [hab]
        · simp [hab, hax]
    rw [hx, hnext]
    exact Chain.unlink hf h.nodup

theorem unlink (h : Ring r (l1 ++ b :: l2)) : Ring (r.unlink b) (l1 ++ l2) where
  nodup := h.nodup.sublist (List.Sublist.append_left (sublist_cons_self b l2) l1)
  forward := h.unlink_forward
  backward := by
    have hs := h.swap
    rw [reverse_append, reverse_cons, append_assoc, singleton_append] at hs
    rw [reverse_append]
    exact hs.unlink_forward

theorem pushFront (h : Ring r l) (hb : b ∉ l) : Ring (r.pushFront b) (b :: l) where
  nodup := nodup_cons.mpr ⟨hb, h.nodup⟩
  forward := by
    refine ⟨by simp [Links.pushFront], ?_⟩
    have hnext : (r.pushFront b).next (some b) = r.next none := by simp [Links.pushFront]
    show Seg _ ((r.pushFront b).next (some b)) l none
    rw [hnext]
    refine Seg.congr h.forward fun a ha => ?_
    have hab : a ≠ b := ne_of_mem_of_not_mem ha hb
    simp [Links.pushFront, hab]
  backward := by
    have hfirst := h.next_head
    rw [reverse_cons]
    cases l with
    | nil =>
      have hn : r.next none = none := hfirst
      simp [Links.pushFront, hn, Chain]
    | cons a l =>
      have hn : r.next none = some a := hfirst
      have hab : b ≠ a := fun e => hb (by simp [e])
      have hbk := h.backward
      rw [reverse_cons] at hbk ⊢
      have hpush := Chain.push_back hbk (by rw [← reverse_cons]; exact nodup_reverse.mpr h.nodup)
        (a := b) (by simpa [and_comm] using hb)
      have hprev : (fun c => (r.pushFront b).prev (some c)) =
          update (update (fun c => r.prev (some c)) b none) a (some b) := by
        funext c
        by_cases hca : c = a
        · subst hca; simp [Links.pushFront, hn]
        · by_cases hcb : c = b
          · subst hcb; simp [Links.pushFront, hn, hca]
          · simp [Links.pushFront, hn, hca, hcb]
      have hhead : (r.pushFront b).prev none = r.prev none := by simp [Links.pushFront, hn]
      rw [hprev, hhead]
      exact hpush

end Ring

end LinkedChain
