import Mathlib.Data.List.Infix
import Xv6.Lib.Radix
import Xv6.Vm.Pages

/-!
# Page tables

A page table is a radix tree of pages (`sv39`): 512 entries in a page, and a valid entry above level 0
that has none of the flags R, W and X points to the page of the level below. The map that it stands for
is `lookup`: the valid entry of level 0 for a page number.

`Table k s F r` says that there is a page table with root `r` beside the free pages `F`: no page of it is
reached along two paths, its pages are pages of the allocator and not free, and no entry above level 0 is
a leaf, so that the early exit of `walk` is never taken. Then `walk` finds the entry
(`walk_run`), and with `alloc` set it adds pages of entries that map nothing
(`Table.walk_alloc`); a store through the address it returns changes the map for one page number
(`Table.store`).
-/

open ByteMem Function List Nat

namespace Xv6

namespace Vm

open RadixScheme

/-! ## The tree -/

/-- Pointers to page tables. -/
def sv39 : RadixScheme ℕ ℕ where
  B := 512
  pos := by decide
  down e := if Has e PTE_V ∧ ¬ Leaf e then some (pte2pa e) else none

/-- The entry `i` of the page table in the page `t`. -/
def entry (m : ℕ → UInt8) (t i : ℕ) : ℕ := load m (t + 8 * i) 8

/-- The page table that is `d` levels below the root `r`, for the addresses with the prefix `p`. -/
abbrev tableAt (m : ℕ → UInt8) (r d p : ℕ) : Option ℕ := sv39.node (entry m) r d p

/-- The pages of the page table with root `r`. -/
def tables (m : ℕ → UInt8) (r : ℕ) : Set ℕ := {t | sv39.Has 2 (entry m) r t}

/-- **The map that a page table stands for**, from page numbers to valid entries. -/
def lookup (m : ℕ → UInt8) (r v : ℕ) : Option ℕ :=
  if v < 512 ^ 3 then (sv39.get 2 (entry m) r v).filter fun e => Has e PTE_V else none

variable {m m' : ℕ → UInt8} {r t u v w i j d p q e va : ℕ}

theorem loadEntry_run (s : PhysMem) (t i : ℕ) :
    (loadWord (t + 8 * i)).run s = .ok (entry s.mem t i, s) := rfl

theorem entry_keeps {S : Set ℕ} (h : Keeps S m m') (ht : t % PGSIZE = 0) (hS : t ∉ S)
    (hi : i < 512) : entry m' t i = entry m t i :=
  h.load ht hS (by simp only [PGSIZE]; omega)

theorem entry_put_self (hw : w < 2 ^ 64) : entry (put m (t + 8 * i) 8 (digits w)) t i = w :=
  load_put_digits hw

theorem entry_put {f : ℕ → UInt8} (ht : t % PGSIZE = 0) (hu : u % PGSIZE = 0) (hi : i < 512)
    (hj : j < 512) (hne : u = t → j ≠ i) :
    entry (put m (t + 8 * i) 8 f) u j = entry m u j := by
  refine load_put_of_disjoint ?_
  simp only [PGSIZE] at ht hu
  by_cases hut : u = t
  · have := hne hut
    omega
  · omega

theorem put_keeps {f : ℕ → UInt8} (ht : t % PGSIZE = 0) (hi : i < 512) (m : ℕ → UInt8) :
    Keeps {t} m (put m (t + 8 * i) 8 f) :=
  Keeps.put ht (by simp only [PGSIZE]; omega) m

theorem sv39_down (e : ℕ) :
    sv39.down e = if Has e PTE_V ∧ ¬ Leaf e then some (pte2pa e) else none := rfl

theorem vpn_lt (hva : va < MAXVA) : va / PGSIZE < 512 ^ 3 := by
  have : va < 2 ^ 38 := hva
  simp only [PGSIZE]
  omega

/-- The prefix for a level, in a page number of three digits. -/
theorem prefix_lt {level : ℕ} (hv : v < 512 ^ 3) (hd : level + 1 + d = 2) :
    v / 512 ^ (level + 2) < 512 ^ d := by
  rw [Nat.div_lt_iff_lt_mul (Nat.pow_pos (by decide)), ← Nat.pow_add]
  rwa [show d + (level + 2) = 3 by omega]

theorem prefix_succ (v level : ℕ) :
    v / 512 ^ (level + 2) * 512 + v / 512 ^ (level + 1) % 512 = v / 512 ^ (level + 1) := by
  rw [Nat.pow_succ 512 (level + 1), ← Nat.div_div_eq_div_mul]
  exact Nat.div_add_mod' _ _

theorem tableAt_succ {level pt : ℕ} (hn : tableAt m r d (v / 512 ^ (level + 2)) = some pt) :
    tableAt m r (d + 1) (v / 512 ^ (level + 1)) =
      sv39.down (entry m pt (v / 512 ^ (level + 1) % 512)) := by
  have hdiv : v / 512 ^ (level + 1) / 512 = v / 512 ^ (level + 2) := by
    rw [Nat.div_div_eq_div_mul, ← Nat.pow_succ]
  show (tableAt m r d (v / 512 ^ (level + 1) / 512)).bind _ = _
  rw [hdiv, hn]
  rfl

theorem lookup_of_ge (h : ¬ v < 512 ^ 3) : lookup m r v = none := if_neg h

theorem lookup_of_table (hv : v < 512 ^ 3) (ht : tableAt m r 2 (v / 512) = some t) :
    lookup m r v = if Has (entry m t (v % 512)) PTE_V then some (entry m t (v % 512)) else none := by
  have hget : sv39.get 2 (entry m) r v = some (entry m t (v % 512)) := by
    unfold RadixScheme.get
    rw [show sv39.node (entry m) r 2 (v / sv39.B) = some t from ht]
    rfl
  unfold lookup
  rw [if_pos hv, hget, Option.filter_some]
  simp only [decide_eq_true_eq]

theorem lookup_of_no_table (ht : tableAt m r 2 (v / 512) = none) : lookup m r v = none := by
  have hget : sv39.get 2 (entry m) r v = none := by
    unfold RadixScheme.get
    rw [show sv39.node (entry m) r 2 (v / sv39.B) = none from ht]
    rfl
  unfold lookup
  rw [hget]
  split_ifs <;> rfl

theorem exists_of_lookup (h : lookup m r v = some e) : v < 512 ^ 3 ∧
    ∃ t, tableAt m r 2 (v / 512) = some t ∧ entry m t (v % 512) = e ∧ Has e PTE_V := by
  have hv : v < 512 ^ 3 := by
    by_contra hge
    rw [lookup_of_ge hge] at h
    contradiction
  refine ⟨hv, ?_⟩
  cases ht : tableAt m r 2 (v / 512) with
  | none =>
    rw [lookup_of_no_table ht] at h
    contradiction
  | some t =>
    rw [lookup_of_table hv ht] at h
    split_ifs at h with hV
    cases h
    exact ⟨t, rfl, rfl, hV⟩

/-- No entry above level 0 is a leaf: there are no superpages. -/
def Regular (m : ℕ → UInt8) (r : ℕ) : Prop :=
  ∀ d < 2, ∀ p < 512 ^ d, ∀ t, tableAt m r d p = some t → ∀ i < 512,
    Has (entry m t i) PTE_V → ¬ Leaf (entry m t i)

/-! ## `walk` -/

variable {s : PhysMem}

theorem walkLoop_run (h : Regular s.mem r) (hv : va / PGSIZE < 512 ^ 3) (level d pt : ℕ)
    (hd : level + d = 2) (hn : tableAt s.mem r d (va / PGSIZE / 512 ^ (level + 1)) = some pt) :
    (walkLoop va false level pt).run s = .ok ((tableAt s.mem r 2 (va / PGSIZE / 512)).map fun t =>
      t + 8 * (va / PGSIZE % 512), s) := by
  induction level generalizing d pt with
  | zero =>
    obtain rfl : d = 2 := by omega
    rw [Nat.zero_add, Nat.pow_one] at hn
    rw [hn]
    unfold walkLoop
    rw [px_eq, Nat.pow_zero, Nat.div_one]
    rfl
  | succ level ih =>
    set v := va / PGSIZE
    have hlt : v / 512 ^ (level + 2) < 512 ^ d := prefix_lt hv hd
    have hpx : px (level + 1) va = v / 512 ^ (level + 1) % 512 := px_eq _ _
    have hpxlt : px (level + 1) va < 512 := hpx ▸ Nat.mod_lt _ (by decide)
    have hstep := tableAt_succ hn
    rw [← hpx] at hstep
    unfold walkLoop
    rw [Wp.run_bind_eq (loadEntry_run s pt (px (level + 1) va))]
    by_cases hV : Has (entry s.mem pt (px (level + 1) va)) PTE_V
    · have hleaf := h d (by omega) _ hlt pt hn _ hpxlt hV
      rw [if_pos hV, if_neg hleaf]
      refine ih (d + 1) _ (by omega) (hstep.trans ?_)
      rw [sv39_down, if_pos ⟨hV, hleaf⟩]
    · -- an entry that is not valid: there is no page table below
      rw [sv39_down, if_neg fun hc => hV hc.1] at hstep
      have hnone : tableAt s.mem r (d + 1 + level) (v / 512) = none := by
        refine node_eq_none ?_
        show tableAt s.mem r (d + 1) (v / 512 / 512 ^ level) = none
        rw [Nat.div_div_eq_div_mul, ← Nat.pow_succ']
        exact hstep
      rw [show d + 1 + level = 2 by omega] at hnone
      rw [if_neg hV, hnone]
      rfl

/-- **`walk` finds the entry**, and changes nothing. -/
theorem walk_run (h : Regular s.mem r) (hva : va < MAXVA) :
    (walk r va false).run s = .ok ((tableAt s.mem r 2 (va / PGSIZE / 512)).map fun t =>
      t + 8 * (va / PGSIZE % 512), s) := by
  unfold walk
  rw [if_neg (not_le.2 hva)]
  refine walkLoop_run h (vpn_lt hva) 2 0 r rfl ?_
  rfl

/-! ## Page tables beside the free list -/

/-- **A page table beside the free pages `F`.** -/
structure Table (k : KernelImage) (s : PhysMem) (F : List ℕ) (r : ℕ) : Prop where
  free : FreeList k s F
  shape : sv39.Shape 2 (entry s.mem) r
  inner : Regular s.mem r
  page : ∀ t ∈ tables s.mem r, k.Page t
  apart : ∀ t ∈ tables s.mem r, t ∉ F

variable {k : KernelImage} {s' s'' : PhysMem} {F F' F'' : List ℕ} {E : VmPanic → Prop}

theorem mem_tables (hd : d ≤ 2) (hp : p < 512 ^ d) (ht : tableAt m r d p = some t) : t ∈ tables m r :=
  ⟨d, hd, p, hp, ht⟩

theorem root_mem_tables (m : ℕ → UInt8) (r : ℕ) : r ∈ tables m r := Has.root 2 (entry m) r

section Frame

variable (hsame : ∀ t ∈ tables m r, ∀ i < 512, entry m' t i = entry m t i)

include hsame

theorem tables_frame : tables m' r = tables m r := Set.ext fun _ => has_frame hsame

theorem lookup_frame : lookup m' r = lookup m r := by
  funext v
  unfold lookup
  split_ifs with hv
  · rw [get_frame hsame hv]
  · rfl

end Frame

namespace Table

theorem aligned (h : Table k s F r) (ht : t ∈ tables s.mem r) : t % PGSIZE = 0 := (h.page t ht).aligned

theorem root_page (h : Table k s F r) : k.Page r := h.page r (root_mem_tables s.mem r)

variable {S : Set ℕ} (h : Table k s F r) (hk : Keeps S s.mem s'.mem)
  (hS : ∀ t ∈ tables s.mem r, t ∉ S)

include h hk hS

theorem entry_frame (ht : t ∈ tables s.mem r) (hi : i < 512) :
    entry s'.mem t i = entry s.mem t i :=
  entry_keeps hk (h.aligned ht) (hS t ht) hi

/-- **A page table that nobody writes to**, beside another free list. -/
theorem frame (hfree : FreeList k s' F') (hF : ∀ t ∈ tables s.mem r, t ∉ F') :
    Table k s' F' r ∧ tables s'.mem r = tables s.mem r ∧ lookup s'.mem r = lookup s.mem r := by
  have hsame : ∀ t ∈ tables s.mem r, ∀ i < 512, entry s'.mem t i = entry s.mem t i :=
    fun t ht i hi => h.entry_frame hk hS ht hi
  have htab := tables_frame hsame
  refine ⟨⟨hfree, h.shape.frame hsame, ?_, ?_, ?_⟩, htab, lookup_frame hsame⟩
  · intro d hd p hp t ht i hi
    rw [tableAt, node_frame hsame hd.le hp] at ht
    rw [hsame t (mem_tables hd.le hp ht) i hi]
    exact h.inner d hd p hp t ht i hi
  · rw [htab]
    exact h.page
  · rw [htab]
    exact hF

end Table

/-! ## New page tables -/

/-- **Pages have been taken from the free list for page tables**; the other pages keep their contents. -/
structure Grown (k : KernelImage) (s : PhysMem) (F : List ℕ) (r : ℕ) (s' : PhysMem) (F' : List ℕ) :
    Prop where
  table : Table k s' F' r
  taken : F' <:+ F
  tables : tables s'.mem r = tables s.mem r ∪ {t | t ∈ F ∧ t ∉ F'}
  keeps : Keeps (Vm.tables s'.mem r) s.mem s'.mem

namespace Grown

theorem refl (h : Table k s F r) : Grown k s F r s F := by
  refine ⟨h, suffix_rfl, ?_, Keeps.refl _ _⟩
  ext t
  simp

theorem trans (h : Grown k s F r s' F') (h' : Grown k s' F' r s'' F'') : Grown k s F r s'' F'' := by
  refine ⟨h'.table, h'.taken.trans h.taken, ?_, ?_⟩
  · ext t
    have h1 : t ∈ F' → t ∈ F := fun ht => h.taken.subset ht
    have h2 : t ∈ F'' → t ∈ F' := fun ht => h'.taken.subset ht
    rw [h'.tables, h.tables]
    show (t ∈ Vm.tables s.mem r ∨ t ∈ F ∧ t ∉ F') ∨ t ∈ F' ∧ t ∉ F'' ↔
      t ∈ Vm.tables s.mem r ∨ t ∈ F ∧ t ∉ F''
    tauto
  · refine Keeps.trans (h.keeps.mono ?_) h'.keeps
    rw [h'.tables]
    exact Set.subset_union_left

end Grown

namespace Table

/-- **A new page table is linked into an empty entry.** -/
theorem grow (h : Table k s (p :: F) r) (hd : d < 2) (hq : q < 512 ^ d)
    (ht : tableAt s.mem r d q = some t) (hi : i < 512) (hV : ¬ Has (entry s.mem t i) PTE_V)
    (hfree : FreeList k s' F) (hk : Keeps {p} s.mem s'.mem) :
    let s'' := (s'.put p PGSIZE fun _ => 0).put (t + 8 * i) 8 (digits (pa2pte p ||| PTE_V))
    Grown k s (p :: F) r s'' F ∧ lookup s''.mem r = lookup s.mem r ∧
      tableAt s''.mem r (d + 1) (q * 512 + i) = some p := by
  intro s''
  obtain ⟨-, -, hpF, hpage⟩ := h.free.cons
  have htm := mem_tables hd.le hq ht
  have hta := h.aligned htm
  have hfresh : p ∉ tables s.mem r := fun hp => h.apart p hp mem_cons_self
  have hpt : p ≠ t := by
    rintro rfl
    exact hfresh htm
  obtain ⟨hpV, hpL, hpp⟩ := table_entry hpage.aligned hpage.lt_64
  set m1 := (s'.put p PGSIZE fun _ => 0).mem with hm1
  set m2 := s''.mem with hm2
  have hk1 : Keeps {p} s.mem m1 := hk.trans (Keeps.put_page (f := fun _ => 0) hpage.aligned s'.mem)
  have hk2 : Keeps {t} m1 m2 := put_keeps hta hi m1
  have hnone : sv39.down (entry s.mem t i) = none := by
    rw [sv39_down, if_neg fun hc => hV hc.1]
  have hsame : ∀ u ∈ tables s.mem r, ∀ j < 512, (u = t → j ≠ i) → entry m2 u j = entry s.mem u j := by
    intro u hu j hj hne
    have hup : u ∉ ({p} : Set ℕ) := by
      rintro rfl
      exact hfresh hu
    exact (entry_put hta (h.aligned hu) hi hj hne).trans (entry_keeps hk1 (h.aligned hu) hup hj)
  have hself : entry m2 t i = pa2pte p ||| PTE_V := entry_put_self (pte_lt hpage.lt_64 (by decide))
  have hzero : ∀ j < 512, entry m2 p j = 0 := by
    intro j hj
    refine (entry_put hta hpage.aligned hi hj fun hpt' => absurd hpt' hpt).trans ?_
    refine load_eq_zero fun n hn => ?_
    rw [add_assoc]
    exact put_add (f := fun _ => 0) (show 8 * j + n < PGSIZE by simp only [PGSIZE]; omega)
  have hnew : sv39.down (entry m2 t i) = some p := by
    rw [hself, sv39_down, if_pos ⟨hpV, hpL⟩, hpp]
  have hempty : ∀ j < 512, sv39.down (entry m2 p j) = none := by
    intro j hj
    rw [hzero j hj]
    rfl
  have hnode : ∀ {e q'}, e ≤ 2 → q' < 512 ^ e → tableAt m2 r e q' =
      if e = d + 1 ∧ q' = q * 512 + i then some p else tableAt s.mem r e q' :=
    fun he hq' => h.shape.node_grow hd hq ht hi hnone hsame hnew hempty he hq'
  have htab : tables m2 r = tables s.mem r ∪ {u | u ∈ p :: F ∧ u ∉ F} := by
    ext u
    have := h.shape.has_grow hd hq ht hi hnone hsame hnew hempty (u := u)
    refine this.trans (or_congr Iff.rfl ?_)
    constructor
    · rintro rfl
      exact ⟨mem_cons_self, hpF⟩
    · rintro ⟨hu, hu'⟩
      exact (mem_cons.1 hu).resolve_right hu'
  have hin : ∀ u ∈ tables m2 r, u ∈ tables s.mem r ∨ u = p := by
    intro u hu
    rw [htab] at hu
    exact hu.imp id fun hu => (mem_cons.1 hu.1).resolve_right hu.2
  refine ⟨⟨⟨?_, ?_, ?_, ?_, ?_⟩, suffix_cons p F, htab, ?_⟩, ?_, ?_⟩
  · refine hfree.frame rfl (S := {p, t}) ?_ ?_
    · have hk3 : Keeps {p} s'.mem m1 :=
        Keeps.put_page (f := fun _ => 0) hpage.aligned s'.mem
      exact (hk3.mono (by simp)).trans (hk2.mono (by simp))
    · rintro u hu (rfl | rfl)
      · exact hpF hu
      · exact h.apart u htm (mem_cons_of_mem p hu)
  · exact h.shape.grow hd hq ht hi hnone hsame hnew hempty hfresh
  · intro e he q' hq' u hu j hj hVu
    rw [hnode he.le hq'] at hu
    split_ifs at hu with hslot
    · cases hu
      rw [hzero j hj] at hVu
      exact absurd hVu (by decide)
    · by_cases hut : u = t ∧ j = i
      · obtain ⟨rfl, rfl⟩ := hut
        rw [hself]
        exact hpL
      · have he' := hsame u (mem_tables he.le hq' hu) j hj fun h1 h2 => hut ⟨h1, h2⟩
        rw [he'] at hVu ⊢
        exact h.inner e he q' hq' u hu j hj hVu
  · intro u hu
    rcases hin u hu with hu | rfl
    · exact h.page u hu
    · exact hpage
  · intro u hu
    rcases hin u hu with hu | rfl
    · exact fun huF => h.apart u hu (mem_cons_of_mem p huF)
    · exact hpF
  · show Keeps (tables m2 r) s.mem m2
    refine (hk1.mono ?_).trans (hk2.mono ?_)
    · rw [htab]
      rintro u rfl
      exact .inr ⟨mem_cons_self, hpF⟩
    · rw [htab]
      rintro u rfl
      exact .inl htm
  · funext v
    show lookup m2 r v = lookup s.mem r v
    unfold lookup
    split_ifs with hv
    · rw [h.shape.get_grow hd hq ht hi hnone hsame hnew hempty hv]
      split_ifs with hslot
      · -- the new page table is at level 0: its entries are not valid, and there was none
        obtain ⟨hd2, hvq⟩ := hslot
        have hno : sv39.get 2 (entry s.mem) r v = none := by
          unfold RadixScheme.get
          rw [hd2, hvq, node_join hi, show sv39.node (entry s.mem) r d q = some t from ht,
            Option.bind_some, hnone]
          rfl
        have hz : entry m2 p (v % sv39.B) = 0 := hzero _ (mod_lt _ (by decide))
        rw [hno, hz]
        rfl
      · rfl
    · rfl
  · have hlt : q * 512 + i < 512 ^ (d + 1) := join_lt (S := sv39) hq hi
    show tableAt m2 r (d + 1) (q * 512 + i) = some p
    rw [hnode hd hlt, if_pos ⟨rfl, rfl⟩]

/-- What `walk` with `alloc` leads to: the address of the entry for the page number `v`, or there is no
free page left. -/
def Walked (s' : PhysMem) (F' : List ℕ) (r v : ℕ) : Option ℕ → Prop
  | none => F' = []
  | some a => ∃ t, tableAt s'.mem r 2 (v / 512) = some t ∧ a = t + 8 * (v % 512)

theorem walkLoop_alloc (h : Table k s F r) (hv : va / PGSIZE < 512 ^ 3) (level d pt : ℕ)
    (hd : level + d = 2) (hn : tableAt s.mem r d (va / PGSIZE / 512 ^ (level + 1)) = some pt) :
    Wp (walkLoop va true level pt) (fun o s' => ∃ F', Grown k s F r s' F' ∧
      lookup s'.mem r = lookup s.mem r ∧ Walked s' F' r (va / PGSIZE) o) E s := by
  induction level generalizing d pt s F with
  | zero =>
    obtain rfl : d = 2 := by omega
    rw [Nat.zero_add, Nat.pow_one] at hn
    refine Wp.pure ⟨F, .refl h, rfl, pt, hn, ?_⟩
    rw [px_eq, Nat.pow_zero, Nat.div_one]
  | succ level ih =>
    set v := va / PGSIZE
    have hlt : v / 512 ^ (level + 2) < 512 ^ d := prefix_lt hv hd
    have hpx : px (level + 1) va = v / 512 ^ (level + 1) % 512 := px_eq _ _
    have hpxlt : px (level + 1) va < 512 := hpx ▸ Nat.mod_lt _ (by decide)
    have hstep := tableAt_succ hn
    rw [← hpx] at hstep
    unfold walkLoop
    refine Wp.run_bind (loadEntry_run s pt (px (level + 1) va)) ?_
    refine Wp.ite (fun hV => ?_) fun hV => ?_
    · have hleaf := h.inner d (by omega) _ hlt pt hn _ hpxlt hV
      rw [if_neg hleaf]
      refine ih h (d + 1) _ (by omega) (hstep.trans ?_)
      rw [sv39_down, if_pos ⟨hV, hleaf⟩]
    · rw [if_neg (by decide)]
      refine (kalloc_spec h.free).bind fun o s1 ho => ?_
      rcases ho with ⟨rfl, rfl, rfl⟩ | ⟨p, F1, rfl, rfl, hfree, hk⟩
      · exact Wp.pure ⟨[], .refl h, rfl, rfl⟩
      · obtain ⟨hgrown, hlook, hnode⟩ := h.grow (by omega) hlt hn hpxlt hV hfree hk
        refine Wp.modify_bind (Wp.modify_bind ?_)
        rw [hpx, prefix_succ] at hnode
        rw [← hpx] at hnode
        refine (ih hgrown.table (d + 1) p (by omega) hnode).mono ?_
        rintro o s3 ⟨F3, hgrown3, hlook3, hw⟩
        exact ⟨F3, hgrown.trans hgrown3, hlook3.trans hlook, hw⟩

/-- **`walk` with `alloc`** adds page tables, and the map stays as it is. -/
theorem walk_alloc (h : Table k s F r) (hva : va < MAXVA) :
    Wp (walk r va true) (fun o s' => ∃ F', Grown k s F r s' F' ∧
      lookup s'.mem r = lookup s.mem r ∧ Walked s' F' r (va / PGSIZE) o) E s := by
  unfold walk
  rw [if_neg (not_le.2 hva)]
  exact h.walkLoop_alloc (vpn_lt hva) 2 0 r rfl rfl

/-! ## Stores into entries -/

/-- **A store into an entry of level 0** changes the map for one page number. -/
theorem store (h : Table k s F r) (hv : v < 512 ^ 3) (ht : tableAt s.mem r 2 (v / 512) = some t)
    (hw : w < 2 ^ 64) :
    let s' := s.put (t + 8 * (v % 512)) 8 (digits w)
    Table k s' F r ∧ tables s'.mem r = tables s.mem r ∧ Keeps {t} s.mem s'.mem ∧
      lookup s'.mem r = update (lookup s.mem r) v (if Has w PTE_V then some w else none) := by
  intro s'
  have hi : v % 512 < 512 := mod_lt _ (by decide)
  have hq : v / 512 < 512 ^ 2 := by omega
  have htm := mem_tables le_rfl hq ht
  have hta := h.aligned htm
  set m1 := s'.mem with hm1
  have hk : Keeps {t} s.mem m1 := put_keeps hta hi s.mem
  have hsame : ∀ u ∈ tables s.mem r, ∀ j < 512, (u = t → j ≠ v % 512) →
      entry m1 u j = entry s.mem u j :=
    fun u hu j hj hne => entry_put hta (h.aligned hu) hi hj hne
  have hself : entry m1 t (v % 512) = w := entry_put_self hw
  have htab : tables m1 r = tables s.mem r := Set.ext fun u => h.shape.has_leaf hq ht hsame
  have hnode : ∀ {e q'}, e ≤ 2 → q' < 512 ^ e → tableAt m1 r e q' = tableAt s.mem r e q' :=
    fun he hq' => h.shape.node_leaf hq ht hsame he hq'
  refine ⟨⟨?_, h.shape.leaf hq ht hsame, ?_, ?_, ?_⟩, htab, hk, ?_⟩
  · refine h.free.frame rfl hk ?_
    rintro u hu rfl
    exact h.apart u htm hu
  · intro e he q' hq' u hu j hj
    rw [hnode he.le hq'] at hu
    have hne : u = t → j ≠ v % 512 := by
      rintro rfl
      have := (h.shape e he.le q' hq' 2 le_rfl _ hq u hu ht).1
      omega
    rw [hsame u (mem_tables he.le hq' hu) j hj hne]
    exact h.inner e he q' hq' u hu j hj
  · show ∀ u ∈ tables m1 r, k.Page u
    rw [htab]
    exact h.page
  · show ∀ u ∈ tables m1 r, u ∉ F
    rw [htab]
    exact h.apart
  · funext x
    show lookup m1 r x = _
    by_cases hx : x = v
    · subst hx
      rw [update_self, lookup_of_table hv ((hnode le_rfl hq).trans ht), hself]
    · rw [update_of_ne hx]
      unfold lookup
      split_ifs with hx3
      · rw [h.shape.get_leaf hq ht hsame hi hx3, if_neg]
        rw [show v / 512 * sv39.B + v % 512 = v from eq_join (S := sv39) v]
        exact hx
      · rfl

end Table

theorem Grown.store (h : Grown k s F r s' F') (hv : v < 512 ^ 3)
    (ht : tableAt s'.mem r 2 (v / 512) = some t) (hw : w < 2 ^ 64) :
    let s'' := s'.put (t + 8 * (v % 512)) 8 (digits w)
    Grown k s F r s'' F' ∧
      lookup s''.mem r = update (lookup s'.mem r) v (if Has w PTE_V then some w else none) := by
  obtain ⟨htable, htab, hk, hlook⟩ := h.table.store hv ht hw
  refine ⟨⟨htable, h.taken, htab.trans h.tables, ?_⟩, hlook⟩
  rw [htab]
  refine h.keeps.trans (hk.mono ?_)
  rintro u rfl
  exact mem_tables le_rfl (by omega) ht

end Vm

end Xv6
