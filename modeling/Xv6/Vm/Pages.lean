import Mathlib.Data.Nat.Bitwise
import Mathlib.Data.Set.Insert
import Xv6.Lib.Chain
import Xv6.Lib.Transition
import Xv6.Vm.Vm

/-!
# Pages

What page table entries and addresses are in terms of numbers, what it means that memory changes in some
pages only (`Keeps`), and the free list: `FreeList k s F` says that the pages of `F` are linked from
`kmem.freelist` in this order, each once. `kalloc` takes the first of them (`kalloc_spec`), and `kfree`
puts a page that is not among them in front (`kfree_spec`). In every run a page is free or held, and
not both (`pages_partitioned`).
-/

open ByteMem List Nat

namespace Xv6

namespace Vm

/-! ## Page table entries -/

variable {e f i pa va : ℕ}

theorem has_iff (e i : ℕ) : Has e (1 <<< i) ↔ e.testBit i = true := by
  unfold Has
  rw [one_shiftLeft, and_two_pow]
  cases e.testBit i <;> simp

theorem leaf_iff (e : ℕ) : Leaf e ↔ e.testBit 1 = true ∨ e.testBit 2 = true ∨ e.testBit 3 = true := by
  unfold Leaf
  rw [← has_iff, ← has_iff, ← has_iff]
  unfold Has
  rw [Ne, or_eq_zero_iff, or_eq_zero_iff]
  tauto

theorem pteFlags_eq (e : ℕ) : pteFlags e = e % 2 ^ 10 := and_two_pow_sub_one_eq_mod e 10

theorem pte2pa_eq (e : ℕ) : pte2pa e = e / 2 ^ 10 * PGSIZE % 2 ^ 64 := by
  unfold pte2pa
  rw [shiftRight_eq_div_pow, shiftLeft_eq]

/-- `PA2PTE(pa) | flags` -/
theorem pa2pte_or (pa : ℕ) (hf : f < 2 ^ 10) : pa2pte pa ||| f = pa / PGSIZE * 2 ^ 10 + f := by
  unfold pa2pte
  rw [← shiftLeft_add_eq_or_of_lt hf, shiftLeft_eq, shiftRight_eq_div_pow]

theorem pte2pa_or (hpa : pa % PGSIZE = 0) (hlt : pa < 2 ^ 64) (hf : f < 2 ^ 10) :
    pte2pa (pa2pte pa ||| f) = pa := by
  rw [pte2pa_eq, pa2pte_or pa hf]
  simp only [PGSIZE] at hpa ⊢
  omega

/-- `PTE2PA(PA2PTE(pa))` -/
theorem pte2pa_pa2pte (hpa : pa % PGSIZE = 0) (hlt : pa < 2 ^ 64) : pte2pa (pa2pte pa) = pa := by
  have := pte2pa_or hpa hlt (f := 0) (by decide)
  rwa [or_zero] at this

theorem pteFlags_or (pa : ℕ) (hf : f < 2 ^ 10) : pteFlags (pa2pte pa ||| f) = f := by
  rw [pteFlags_eq, pa2pte_or pa hf, mul_add_mod_self_right, mod_eq_of_lt hf]

theorem testBit_pteFlags (e : ℕ) (hi : i < 10) : (pteFlags e).testBit i = e.testBit i := by
  rw [pteFlags_eq, testBit_mod_two_pow, decide_eq_true hi, Bool.true_and]

theorem testBit_or (pa : ℕ) (hf : f < 2 ^ 10) (hi : i < 10) :
    (pa2pte pa ||| f).testBit i = f.testBit i := by
  rw [← testBit_pteFlags _ hi, pteFlags_or pa hf]

theorem or_lt (hf : e < 2 ^ i) (hg : f < 2 ^ i) : e ||| f < 2 ^ i := or_lt_two_pow hf hg

/-- A flag of an entry that has been made from `pa` and `f`. -/
theorem has_or (pa : ℕ) (hf : f < 2 ^ 10) (hi : i < 10) :
    Has (pa2pte pa ||| f) (1 <<< i) ↔ Has f (1 <<< i) := by
  rw [has_iff, has_iff, testBit_or pa hf hi]

theorem pte_lt (hlt : pa < 2 ^ 64) (hf : f < 2 ^ 10) : pa2pte pa ||| f < 2 ^ 64 := by
  rw [pa2pte_or pa hf]
  simp only [PGSIZE]
  omega

theorem table_entry (hpa : pa % PGSIZE = 0) (hlt : pa < 2 ^ 64) :
    Has (pa2pte pa ||| PTE_V) PTE_V ∧ ¬ Leaf (pa2pte pa ||| PTE_V) ∧
      pte2pa (pa2pte pa ||| PTE_V) = pa := by
  refine ⟨(has_or pa (by decide) (by decide)).2 (by decide), ?_, pte2pa_or hpa hlt (by decide)⟩
  rw [leaf_iff, testBit_or pa (by decide) (by decide), testBit_or pa (by decide) (by decide),
    testBit_or pa (by decide) (by decide)]
  decide

theorem pte2pa_aligned (e : ℕ) : pte2pa e % PGSIZE = 0 := by
  rw [pte2pa_eq]
  simp only [PGSIZE]
  omega

/-! ## Addresses -/

/-- `PX(level, va)` is a digit of the page number. -/
theorem px_eq (level va : ℕ) : px level va = va / PGSIZE / 512 ^ level % 512 := by
  unfold px
  rw [Nat.shiftRight_eq_div_pow, show 0x1FF = 2 ^ 9 - 1 from rfl, Nat.and_two_pow_sub_one_eq_mod,
    Nat.pow_add, Nat.pow_mul, ← Nat.div_div_eq_div_mul]
  rfl

theorem pgrounddown_of_lt {p a : ℕ} (hp : p % PGSIZE = 0) (h : p ≤ a) (h' : a < p + PGSIZE) :
    pgrounddown a = p := by
  unfold pgrounddown
  simp only [PGSIZE] at *
  omega

theorem pgrounddown_le (a : ℕ) : pgrounddown a ≤ a := div_mul_le_self a PGSIZE

theorem lt_pgrounddown (a : ℕ) : a < pgrounddown a + PGSIZE := by
  unfold pgrounddown
  simp only [PGSIZE]
  omega

theorem pgrounddown_aligned (a : ℕ) : pgrounddown a % PGSIZE = 0 := mul_mod_left _ _

/-! ## Memory that changes in some pages only -/

/-- **What is not in the pages of `S` stays.** -/
def Keeps (S : Set ℕ) (m m' : ℕ → UInt8) : Prop := ∀ a, pgrounddown a ∉ S → m' a = m a

namespace Keeps

variable {S S' : Set ℕ} {m m' m'' : ℕ → UInt8}

theorem refl (S : Set ℕ) (m : ℕ → UInt8) : Keeps S m m := fun _ _ => rfl

theorem trans (h : Keeps S m m') (h' : Keeps S m' m'') : Keeps S m m'' :=
  fun a ha => (h' a ha).trans (h a ha)

theorem mono (h : Keeps S m m') (hs : S ⊆ S') : Keeps S' m m' := fun a ha => h a fun hS => ha (hs hS)

theorem page (h : Keeps S m m') {p j : ℕ} (hp : p % PGSIZE = 0) (hS : p ∉ S) (hj : j < PGSIZE) :
    m' (p + j) = m (p + j) := by
  refine h _ ?_
  rwa [pgrounddown_of_lt hp (Nat.le_add_right p j) (Nat.add_lt_add_left hj p)]

theorem load (h : Keeps S m m') {p j n : ℕ} (hp : p % PGSIZE = 0) (hS : p ∉ S)
    (hj : j + n ≤ PGSIZE) : load m' (p + j) n = load m (p + j) n := by
  refine load_congr fun i hi => ?_
  rw [Nat.add_assoc]
  exact h.page hp hS (Nat.lt_of_lt_of_le (Nat.add_lt_add_left hi j) hj)

theorem put {p j n : ℕ} {f : ℕ → UInt8} (hp : p % PGSIZE = 0) (hj : j + n ≤ PGSIZE) (m : ℕ → UInt8) :
    Keeps {p} m (put m (p + j) n f) := by
  intro a ha
  refine put_of_not ?_
  rintro ⟨hle, hlt⟩
  refine ha (pgrounddown_of_lt hp ?_ ?_)
  · omega
  · omega

theorem put_page {p : ℕ} {f : ℕ → UInt8} (hp : p % PGSIZE = 0) (m : ℕ → UInt8) :
    Keeps {p} m (ByteMem.put m p PGSIZE f) := put hp (j := 0) (by decide) m

end Keeps

/-! ## The free list -/

end Vm

/-- A page of the allocator. -/
structure KernelImage.Page (k : KernelImage) (p : ℕ) : Prop where
  aligned : p % PGSIZE = 0
  ge : k.kend ≤ p
  lt : p < PHYSTOP

/-- A kernel that ends at page 33 of physical memory. -/
def KernelImage.sample : KernelImage where
  kend := KERNBASE + 33 * PGSIZE
  trampoline := KERNBASE + 7 * PGSIZE
  trampoline_aligned := by decide
  trampoline_pos := by decide
  trampoline_lt := by decide
  kend_le := by decide

/-- A kernel that leaves 16 pages. -/
def KernelImage.small : KernelImage where
  kend := PHYSTOP - 16 * PGSIZE
  trampoline := PHYSTOP - 32 * PGSIZE
  trampoline_aligned := by decide
  trampoline_pos := by decide
  trampoline_lt := by decide
  kend_le := by decide

def PhysMem.zero : PhysMem := ⟨fun _ => 0, 0⟩

/-- Physical memory with one free page, the last one. -/
def PhysMem.onePage : PhysMem := ⟨fun _ => 0, PHYSTOP - PGSIZE⟩

namespace KernelImage.Page

variable {k : KernelImage} {p : ℕ}

theorem pos (h : k.Page p) : 0 < p := by
  have h1 := k.trampoline_lt
  have h2 := h.ge
  simp only [PGSIZE] at h1
  omega

theorem lt_64 (h : k.Page p) : p < 2 ^ 64 := lt_trans h.lt (by decide)

theorem ne_zero (h : k.Page p) : p ≠ 0 := Nat.pos_iff_ne_zero.1 h.pos

end KernelImage.Page

namespace Vm

open LinkedChain

/-- A pointer that may be null. -/
def ptr (a : ℕ) : Option ℕ := if a = 0 then none else some a

theorem ptr_eq_some {a p : ℕ} : ptr a = some p ↔ a = p ∧ a ≠ 0 := by
  unfold ptr
  split_ifs with h
  · simp [h]
  · simp [h]

theorem ptr_eq_none {a : ℕ} : ptr a = none ↔ a = 0 := by
  unfold ptr
  split_ifs with h <;> simp [h]

/-- `r->next` -/
def next (m : ℕ → UInt8) (r : ℕ) : Option ℕ := ptr (load m r 8)

/-- **The free list**: the pages of `F` are linked from `kmem.freelist` in this order. -/
structure FreeList (k : KernelImage) (s : PhysMem) (F : List ℕ) : Prop where
  chain : Chain (next s.mem) (ptr s.freelist) F
  nodup : F.Nodup
  page : ∀ p ∈ F, k.Page p

variable {k : KernelImage} {s t : PhysMem} {F : List ℕ} {p : ℕ} {E : VmPanic → Prop}

namespace FreeList

theorem next_of_keeps {S : Set ℕ} {m m' : ℕ → UInt8} (h : Keeps S m m') (hp : p % PGSIZE = 0)
    (hS : p ∉ S) : next m' p = next m p := by
  have := h.load hp hS (j := 0) (n := 8) (by decide)
  rw [add_zero] at this
  unfold next
  rw [this]

theorem frame {S : Set ℕ} (h : FreeList k s F) (hf : t.freelist = s.freelist)
    (hk : Keeps S s.mem t.mem) (hS : ∀ p ∈ F, p ∉ S) : FreeList k t F := by
  refine ⟨?_, h.nodup, h.page⟩
  rw [hf]
  exact h.chain.congr fun p hp => next_of_keeps hk (h.page p hp).aligned (hS p hp)

theorem nil (h : FreeList k s []) : s.freelist = 0 := ptr_eq_none.1 h.chain

theorem cons (h : FreeList k s (p :: F)) :
    s.freelist = p ∧ Chain (next s.mem) (next s.mem p) F ∧ p ∉ F ∧ k.Page p := by
  obtain ⟨hhead, htail⟩ := h.chain
  exact ⟨(ptr_eq_some.1 hhead).1, htail, (nodup_cons.1 h.nodup).1, h.page p mem_cons_self⟩

end FreeList

theorem kalloc_nil (h : FreeList k s []) : kalloc.run s = .ok (none, s) := by
  unfold kalloc
  rw [Wp.run_bind_eq (m := get) rfl, if_pos h.nil]
  rfl

/-- **`kalloc` takes the first page.** -/
theorem kalloc_cons (h : FreeList k s (p :: F)) : ∃ t, kalloc.run s = .ok (some p, t) ∧
    FreeList k t F ∧ Keeps {p} s.mem t.mem := by
  obtain ⟨hhead, htail, hp, hpage⟩ := h.cons
  have hne : s.freelist ≠ 0 := hhead ▸ hpage.ne_zero
  have hkeeps : Keeps {p} s.mem (put s.mem p PGSIZE fun _ => 5) :=
    Keeps.put_page hpage.aligned s.mem
  refine ⟨⟨put s.mem p PGSIZE fun _ => 5, load s.mem p 8⟩, ?_, ?_, hkeeps⟩
  · unfold kalloc
    rw [Wp.run_bind_eq (m := get) rfl, if_neg hne, hhead]
    rfl
  · refine ⟨?_, (nodup_cons.1 h.nodup).2, fun q hq => h.page q (mem_cons_of_mem p hq)⟩
    refine htail.congr fun q hq => ?_
    refine FreeList.next_of_keeps hkeeps (h.page q (mem_cons_of_mem p hq)).aligned ?_
    rintro rfl
    exact hp hq

theorem kalloc_spec (h : FreeList k s F) : Wp kalloc (fun r t => (r = none ∧ F = [] ∧ t = s) ∨
    ∃ p F', F = p :: F' ∧ r = some p ∧ FreeList k t F' ∧ Keeps {p} s.mem t.mem) E s := by
  cases F with
  | nil => exact Wp.of_run (kalloc_nil h) (.inl ⟨rfl, rfl, rfl⟩)
  | cons p F =>
    obtain ⟨t, hrun, ht, hk⟩ := kalloc_cons h
    exact Wp.of_run hrun (.inr ⟨p, F, rfl, rfl, ht, hk⟩)

/-- **`kfree` puts a page in front.** -/
theorem kfree_spec (h : FreeList k s F) (hpage : k.Page p) (hp : p ∉ F) :
    Wp (kfree k p) (fun _ t => FreeList k t (p :: F) ∧ Keeps {p} s.mem t.mem) E s := by
  have hok : ¬ (p % PGSIZE ≠ 0 ∨ p < k.kend ∨ PHYSTOP ≤ p) := by
    rintro (hn | hn | hn)
    · exact hn hpage.aligned
    · exact not_lt.2 hpage.ge hn
    · exact not_le.2 hpage.lt hn
  unfold kfree
  rw [if_neg hok]
  have hkeeps : Keeps {p} s.mem (ByteMem.put (ByteMem.put s.mem p PGSIZE fun _ => 1) p 8
      (ByteMem.digits s.freelist)) :=
    (Keeps.put_page hpage.aligned _).trans (Keeps.put hpage.aligned (j := 0) (by decide) _)
  refine Wp.modify_bind (Wp.get_bind (Wp.modify_bind (Wp.modify ⟨⟨⟨?_, ?_⟩, ?_, ?_⟩, hkeeps⟩)))
  · exact ptr_eq_some.2 ⟨rfl, hpage.ne_zero⟩
  · -- the word in the page is the old head of the list
    have hlt : s.freelist < 256 ^ 8 := by
      have hhead := h.chain.head_eq
      cases F with
      | nil =>
        rw [ptr_eq_none.1 hhead]
        decide
      | cons q F =>
        rw [(ptr_eq_some.1 hhead).1]
        exact (h.page q mem_cons_self).lt_64
    have hnext : next (ByteMem.put (ByteMem.put s.mem p PGSIZE fun _ => 1) p 8
        (ByteMem.digits s.freelist)) p = ptr s.freelist := by
      unfold next
      rw [ByteMem.load_put_digits hlt]
    have hchain : Chain (next (ByteMem.put (ByteMem.put s.mem p PGSIZE fun _ => 1) p 8
        (ByteMem.digits s.freelist))) (ptr s.freelist) F := by
      refine h.chain.congr fun q hq => ?_
      refine FreeList.next_of_keeps hkeeps (h.page q hq).aligned ?_
      rintro rfl
      exact hp hq
    rw [← hnext] at hchain
    exact hchain
  · exact nodup_cons.2 ⟨hp, h.nodup⟩
  · intro q hq
    rcases mem_cons.1 hq with rfl | hq
    · exact hpage
    · exact h.page q hq

/-- The loop of `freerange`: the pages from `p` on are put on the list. -/
theorem freeLoop_spec {paEnd : ℕ} (fuel : ℕ) (h : FreeList k s F) (hp : p % PGSIZE = 0)
    (hge : k.kend ≤ p) (hend : paEnd ≤ PHYSTOP) (hF : ∀ q ∈ F, q < p) (hfuel : paEnd ≤ p + fuel * PGSIZE) :
    Wp (freeLoop k paEnd fuel p) (fun _ t => ∃ F', FreeList k t F' ∧
      ∀ q, q ∈ F' ↔ q ∈ F ∨ q % PGSIZE = 0 ∧ p ≤ q ∧ q + PGSIZE ≤ paEnd) E s := by
  have hdone : ∀ {F : List ℕ} {p : ℕ}, paEnd < p + PGSIZE →
      ∀ q, q ∈ F ↔ q ∈ F ∨ q % PGSIZE = 0 ∧ p ≤ q ∧ q + PGSIZE ≤ paEnd := by
    intro F p hlt q
    constructor
    · exact .inl
    · rintro (hq | ⟨-, hle, hle'⟩)
      · exact hq
      · omega
  induction fuel generalizing s F p with
  | zero => exact Wp.pure ⟨F, h, hdone (by simp only [PGSIZE] at hfuel ⊢; omega)⟩
  | succ fuel ih =>
    unfold freeLoop
    refine Wp.ite (fun hle => ?_) fun hgt => Wp.pure ⟨F, h, hdone (by omega)⟩
    have hpage : k.Page p := ⟨hp, hge, by simp only [PGSIZE] at hle; omega⟩
    have hnew : ∀ q ∈ p :: F, q < p + PGSIZE := by
      intro q hq
      rcases mem_cons.1 hq with rfl | hq
      · simp only [PGSIZE]
        omega
      · have := hF q hq
        simp only [PGSIZE]
        omega
    refine (kfree_spec h hpage fun hpF => lt_irrefl p (hF p hpF)).bind fun _ s1 ⟨h₁, _⟩ => ?_
    have hp' : (p + PGSIZE) % PGSIZE = 0 := by rw [add_mod_right, hp]
    refine (ih h₁ hp' (by omega) hnew (by rw [succ_mul] at hfuel; omega)).mono ?_
    rintro _ t ⟨F', hfree, hmem⟩
    refine ⟨F', hfree, fun q => ?_⟩
    rw [hmem, mem_cons]
    simp only [PGSIZE] at hp hle ⊢
    constructor
    · rintro ((rfl | hq) | ⟨h1, h2, h3⟩)
      · exact .inr ⟨hp, le_rfl, hle⟩
      · exact .inl hq
      · exact .inr ⟨h1, by omega, h3⟩
    · rintro (hq | ⟨h1, h2, h3⟩)
      · exact .inl (.inr hq)
      · by_cases hqp : q = p
        · exact .inl (.inl hqp)
        · exact .inr ⟨h1, by omega, h3⟩

/-- **After `kinit` all pages of the allocator are free.** -/
theorem kinit_spec (hs : s.freelist = 0) :
    Wp (kinit k) (fun _ t => ∃ F, FreeList k t F ∧ ∀ p, p ∈ F ↔ k.Page p) E s := by
  have hnil : FreeList k s [] :=
    ⟨ptr_eq_none.2 hs, nodup_nil, fun p hp => absurd hp not_mem_nil⟩
  have hkend := k.kend_le
  have hup : pgroundup k.kend = (k.kend + (PGSIZE - 1)) / PGSIZE * PGSIZE := by
    unfold pgroundup add64
    rw [mod_eq_of_lt]
    simp only [PGSIZE, PHYSTOP, KERNBASE] at hkend ⊢
    omega
  unfold kinit freerange
  rw [hup]
  refine (freeLoop_spec _ hnil (mul_mod_left _ _) ?_ le_rfl (fun q hq => absurd hq not_mem_nil)
    ?_).mono ?_
  · simp only [PGSIZE]
    omega
  · simp only [PGSIZE, PHYSTOP, KERNBASE]
    omega
  · rintro _ t ⟨F, hF, hmem⟩
    refine ⟨F, hF, fun p => ?_⟩
    rw [hmem]
    constructor
    · rintro (hp | ⟨h1, h2, h3⟩)
      · exact absurd hp not_mem_nil
      · simp only [PGSIZE] at h1 h2 h3
        exact ⟨h1, by omega, by omega⟩
    · rintro ⟨h1, h2, h3⟩
      refine .inr ⟨h1, ?_, ?_⟩
      · simp only [PGSIZE] at h1 ⊢
        omega
      · simp only [PGSIZE, PHYSTOP, KERNBASE] at h1 h3 ⊢
        omega

/-! ## Runs of the allocator -/

/-- Memory, and the pages that the callers of `kalloc` hold. -/
structure Heap where
  mem : PhysMem
  held : List ℕ

inductive HeapEvent
  | kalloc
  | kfree (p : ℕ)
  | write (m : ℕ → UInt8)

namespace Heap

def step (k : KernelImage) : HeapEvent → Heap → Option Heap
  | .kalloc, h => (kalloc.run h.mem).toOption.map fun (r, t) => ⟨t, r.toList ++ h.held⟩
  | .kfree p, h => ((kfree k p).run h.mem).toOption.map fun (_, t) => ⟨t, h.held.erase p⟩
  | .write m, h => some { h with mem := { h.mem with mem := m } }

/-- Callers free pages that they hold, and write to no others. -/
def client : HeapEvent → Heap → Prop
  | .kalloc, _ => True
  | .kfree p, h => p ∈ h.held
  | .write m, h => Keeps {p | p ∈ h.held} h.mem.mem m

/-- **Every page is free or held**, not both, and held once. -/
def Inv (k : KernelImage) (h : Heap) : Prop :=
  ∃ F, FreeList k h.mem F ∧ (F ++ h.held).Nodup ∧ ∀ p, p ∈ F ++ h.held ↔ k.Page p

variable {h : Heap} {e : HeapEvent}

/-- The pages change hands. -/
theorem Inv.perm {F' H : List ℕ} (hnd : (F ++ h.held).Nodup) (hmem : ∀ p, p ∈ F ++ h.held ↔ k.Page p)
    (hF : FreeList k t F') (hp : F' ++ H ~ F ++ h.held) : Inv k ⟨t, H⟩ :=
  ⟨F', hF, hp.nodup_iff.2 hnd, fun p => hp.mem_iff.trans (hmem p)⟩

theorem Inv.step (hI : h.Inv k) (hok : client e h) : ∃ h', step k e h = some h' ∧ h'.Inv k := by
  obtain ⟨F, hF, hnd, hmem⟩ := hI
  have hdis : ∀ p ∈ F, p ∉ h.held := fun p hp hh => disjoint_of_nodup_append hnd hp hh
  cases e with
  | kalloc =>
    obtain ⟨r, t, hrun, hpost⟩ := (kalloc_spec (E := fun _ => False) hF).exists_run
    refine ⟨⟨t, r.toList ++ h.held⟩, by simp only [Heap.step, hrun]; rfl, ?_⟩
    rcases hpost with ⟨rfl, rfl, rfl⟩ | ⟨p, F', rfl, rfl, hF', -⟩
    · exact .perm hnd hmem hF (.refl _)
    · exact .perm hnd hmem hF' perm_middle
  | kfree p =>
    have hpage : k.Page p := (hmem p).1 (mem_append_right F hok)
    obtain ⟨_, t, hrun, hF', -⟩ :=
      (kfree_spec (E := fun _ => False) hF hpage fun hp => hdis p hp hok).exists_run
    refine ⟨⟨t, h.held.erase p⟩, by simp only [Heap.step, hrun]; rfl, .perm hnd hmem hF' ?_⟩
    exact perm_middle.symm.trans ((perm_cons_erase hok).symm.append_left F)
  | write m => exact ⟨_, rfl, .perm hnd hmem (hF.frame rfl hok hdis) (.refl _)⟩

end Heap

theorem freeList_onePage : FreeList .sample .onePage [PHYSTOP - PGSIZE] := by
  refine ⟨⟨rfl, ?_⟩, nodup_singleton _, ?_⟩
  · show next (fun _ => 0) (PHYSTOP - PGSIZE) = none
    unfold next
    rw [load_eq_zero fun _ _ => rfl]
    rfl
  · intro p hp
    obtain rfl := mem_singleton.1 hp
    exact ⟨by decide, by decide, by decide⟩

end Vm

end Xv6
