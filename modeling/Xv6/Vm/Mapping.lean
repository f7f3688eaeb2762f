import Xv6.Vm.Tables

/-!
# Mappings

What `mappages` and `uvmunmap` do to the map that a page table stands for, to the free list and to
memory, and when they panic (`Table.mappages_spec`, `Table.uvmunmap_spec`). From that, what holds of every
page table that is built by them (`Built`): it is a finite map from page numbers to entries.
-/

open ByteMem Function Nat

namespace Xv6

namespace Vm

/-- What `mappages` writes for the page that is `j` pages after `pa`. -/
def mapEntry (pa perm j : ℕ) : ℕ := pa2pte ((pa + j * PGSIZE) % 2 ^ 64) ||| perm ||| PTE_V

/-- The map `L` with `n` pages from page number `v` on mapped to the pages from `pa` on. -/
def mapped (L : ℕ → Option ℕ) (v n pa perm : ℕ) : ℕ → Option ℕ := fun w =>
  if v ≤ w ∧ w < v + n then some (mapEntry pa perm (w - v)) else L w

/-- The map `L` without `n` pages from page number `v` on. -/
def removed (L : ℕ → Option ℕ) (v n : ℕ) : ℕ → Option ℕ := fun w =>
  if v ≤ w ∧ w < v + n then none else L w

variable {k : KernelImage} {s s' : PhysMem} {F F' : List ℕ} {r t v w n pa perm va j e : ℕ}
  {L : ℕ → Option ℕ} {E : VmPanic → Prop}

theorem add64_page (hv : v < MAXVA / PGSIZE) : add64 (v * PGSIZE) PGSIZE = (v + 1) * PGSIZE := by
  unfold add64
  rw [← succ_mul, mod_eq_of_lt]
  simp only [PGSIZE, MAXVA] at hv ⊢
  omega

/-! ## New entries -/

theorem or_valid_lt (hperm : perm < 2 ^ 10) : perm ||| PTE_V < 2 ^ 10 := or_lt hperm (by decide)

theorem mapEntry_eq (pa perm j : ℕ) :
    mapEntry pa perm j = pa2pte ((pa + j * PGSIZE) % 2 ^ 64) ||| (perm ||| PTE_V) := Nat.or_assoc ..

theorem mapEntry_zero (hpa : pa < 2 ^ 64) : mapEntry pa perm 0 = pa2pte pa ||| perm ||| PTE_V := by
  unfold mapEntry
  rw [zero_mul, add_zero, mod_eq_of_lt hpa]

theorem mapEntry_lt (pa j : ℕ) (hperm : perm < 2 ^ 10) : mapEntry pa perm j < 2 ^ 64 := by
  rw [mapEntry_eq]
  exact pte_lt (mod_lt _ (by decide)) (or_valid_lt hperm)

theorem has_mapEntry (hperm : perm < 2 ^ 10) : Has (mapEntry pa perm j) PTE_V := by
  rw [mapEntry_eq, has_or _ (or_valid_lt hperm) (by decide), has_iff, Nat.testBit_or]
  simp

theorem pteFlags_mapEntry (hperm : perm < 2 ^ 10) : pteFlags (mapEntry pa perm j) = perm ||| PTE_V := by
  rw [mapEntry_eq, pteFlags_or _ (or_valid_lt hperm)]

theorem pte2pa_mapEntry (hperm : perm < 2 ^ 10) (hpa : pa % PGSIZE = 0)
    (hlt : pa + j * PGSIZE < 2 ^ 64) : pte2pa (mapEntry pa perm j) = pa + j * PGSIZE := by
  rw [mapEntry_eq, mod_eq_of_lt hlt]
  refine pte2pa_or ?_ hlt (or_valid_lt hperm)
  rw [add_mul_mod_self_right]
  exact hpa

theorem mapEntry_succ (pa perm j : ℕ) : mapEntry (add64 pa PGSIZE) perm j = mapEntry pa perm (j + 1) := by
  unfold mapEntry add64
  rw [mod_add_mod, succ_mul, add_comm (j * PGSIZE), add_assoc]

theorem mapped_zero (L : ℕ → Option ℕ) (v pa perm : ℕ) : mapped L v 0 pa perm = L := by
  funext w
  exact if_neg (by omega)

theorem mapped_succ (L : ℕ → Option ℕ) (v n pa perm : ℕ) :
    mapped (update L v (some (mapEntry pa perm 0))) (v + 1) n (add64 pa PGSIZE) perm =
      mapped L v (n + 1) pa perm := by
  funext w
  unfold mapped
  by_cases hw : w = v
  · subst hw
    rw [if_neg (by omega), update_self, if_pos (by omega), Nat.sub_self]
  · by_cases hin : v ≤ w ∧ w < v + (n + 1)
    · rw [if_pos (by omega), if_pos hin, mapEntry_succ, show w - (v + 1) + 1 = w - v by omega]
    · rw [if_neg (by omega), if_neg hin, update_of_ne hw]

theorem removed_zero (L : ℕ → Option ℕ) (v : ℕ) : removed L v 0 = L := by
  funext w
  exact if_neg (by omega)

theorem removed_succ (L : ℕ → Option ℕ) (v n : ℕ) :
    removed (update L v none) (v + 1) n = removed L v (n + 1) := by
  funext w
  unfold removed
  by_cases hw : w = v
  · subst hw
    rw [if_neg (by omega), update_self, if_pos (by omega)]
  · by_cases hin : v ≤ w ∧ w < v + (n + 1)
    · rw [if_pos (by omega), if_pos hin]
    · rw [if_neg (by omega), if_neg hin, update_of_ne hw]

/-! ## `mappages` -/

/-- **What `mappages` leads to**: all pages of the range are mapped, or a prefix of it, and then no free
page is left. -/
def MapsTo (k : KernelImage) (s : PhysMem) (F : List ℕ) (r v n pa perm : ℕ) (ret : ℤ) (s' : PhysMem) :
    Prop :=
  ∃ F' j, Grown k s F r s' F' ∧ lookup s'.mem r = mapped (lookup s.mem r) v j pa perm ∧
    (ret = 0 ∧ j = n ∧ v + n ≤ MAXVA / PGSIZE ∨ ret = -1 ∧ j < n ∧ F' = [])

/-- When `mappages` panics: the range is not below `MAXVA`, or a page of it is mapped. -/
def MapPanics (s : PhysMem) (r v n : ℕ) (e : VmPanic) : Prop :=
  e = .walk ∧ MAXVA / PGSIZE < v + n ∨
    e = .mappagesRemap ∧ ∃ w, v ≤ w ∧ w < v + n ∧ lookup s.mem r w ≠ none

namespace Table

theorem mapLoop_spec (h : Table k s F r) (hperm : perm < 2 ^ 10) (hpa : pa < 2 ^ 64)
    (hn : n * PGSIZE ≤ 2 ^ 64) (hpos : 0 < n) :
    Wp (mapLoop r ((v + n - 1) * PGSIZE % 2 ^ 64) perm n (v * PGSIZE) pa)
      (MapsTo k s F r v n pa perm) (MapPanics s r v n) s := by
  induction n generalizing s F v pa with
  | zero => exact absurd hpos (Nat.lt_irrefl 0)
  | succ n ih =>
    unfold mapLoop
    by_cases hva : v * PGSIZE < MAXVA
    · have hvlt : v < MAXVA / PGSIZE := (Nat.lt_div_iff_mul_lt' (by decide) v).2 (by rwa [Nat.mul_comm])
      have hvpn : v * PGSIZE / PGSIZE = v := Nat.mul_div_cancel v (by decide)
      have hv3 : v < 512 ^ 3 := by
        rw [← hvpn]
        exact vpn_lt hva
      refine (h.walk_alloc hva).bind fun o s1 ho => ?_
      rw [hvpn] at ho
      obtain ⟨F1, hgrown, hlook, hw⟩ := ho
      cases o with
      | none =>
        refine Wp.pure ⟨F1, 0, hgrown, ?_, .inr ⟨rfl, Nat.succ_pos n, hw⟩⟩
        rw [hlook, mapped_zero]
      | some a =>
        obtain ⟨t, ht, rfl⟩ := hw
        refine Wp.run_bind (loadEntry_run s1 t (v % 512)) (Wp.ite (fun hV => ?_) fun hV => ?_)
        · refine Wp.throw (.inr ⟨rfl, v, le_rfl, by omega, ?_⟩)
          rw [← hlook, lookup_of_table hv3 ht, if_pos hV]
          exact Option.some_ne_none _
        · rw [← mapEntry_zero hpa]
          obtain ⟨hgrown2, hlook2⟩ := hgrown.store hv3 ht (mapEntry_lt pa 0 hperm)
          rw [if_pos (has_mapEntry hperm), hlook] at hlook2
          refine Wp.modify_bind (Wp.ite (fun hlast => Wp.pure ?_) fun hlast => ?_)
          · -- the last page
            have hn0 : n = 0 := by
              simp only [PGSIZE, MAXVA] at hlast hn hvlt
              omega
            subst hn0
            refine ⟨F1, 1, hgrown2, ?_, .inl ⟨rfl, rfl, by omega⟩⟩
            rw [hlook2, ← mapped_succ, mapped_zero]
          · have hn0 : 0 < n := by
              rw [Nat.pos_iff_ne_zero]
              rintro rfl
              refine hlast ?_
              rw [Nat.add_sub_cancel, Nat.mod_eq_of_lt]
              exact lt_trans hva (by decide)
            have hpa' : add64 pa PGSIZE < 2 ^ 64 := Nat.mod_lt _ (by decide)
            have hn' : n * PGSIZE ≤ 2 ^ 64 := le_trans (Nat.mul_le_mul_right _ (Nat.le_succ n)) hn
            rw [add64_page hvlt, show v + (n + 1) - 1 = v + 1 + n - 1 by omega]
            refine ((ih hgrown2.table hpa' hn' hn0).mono ?_).mono_err ?_
            · rintro ret s3 ⟨F3, j, hgrown3, hlook3, hret⟩
              refine ⟨F3, j + 1, hgrown2.trans hgrown3, ?_, ?_⟩
              · rw [hlook3, hlook2, mapped_succ]
              · rcases hret with ⟨rfl, rfl, hle⟩ | ⟨rfl, hj, hF⟩
                · exact .inl ⟨rfl, rfl, by omega⟩
                · exact .inr ⟨rfl, by omega, hF⟩
            · rintro e (⟨rfl, hlt⟩ | ⟨rfl, w, hle, hlt, hw⟩)
              · exact .inl ⟨rfl, by omega⟩
              · refine .inr ⟨rfl, w, by omega, by omega, ?_⟩
                rwa [hlook2, update_of_ne (by omega)] at hw
    · refine Wp.run_bind_err ?_ (.inl ⟨rfl, ?_⟩)
      · unfold walk
        rw [if_pos (Nat.not_lt.1 hva)]
        rfl
      · simp only [PGSIZE, MAXVA] at hva ⊢
        omega

theorem mappages_spec {size : ℕ} (h : Table k s F r) (hva : va % PGSIZE = 0)
    (hsize : size % PGSIZE = 0) (hpos : 0 < size) (hlt : size < 2 ^ 64) (hperm : perm < 2 ^ 10)
    (hpa : pa < 2 ^ 64) :
    Wp (mappages r va size pa perm) (MapsTo k s F r (va / PGSIZE) (size / PGSIZE) pa perm)
      (MapPanics s r (va / PGSIZE) (size / PGSIZE)) s := by
  unfold mappages
  rw [if_neg (not_not.2 hva), if_neg (not_not.2 hsize), if_neg (by omega)]
  obtain ⟨v, rfl⟩ : ∃ v, va = v * PGSIZE := ⟨va / PGSIZE, (Nat.div_mul_cancel
    (Nat.dvd_of_mod_eq_zero hva)).symm⟩
  obtain ⟨n, rfl⟩ : ∃ n, size = n * PGSIZE := ⟨size / PGSIZE, (Nat.div_mul_cancel
    (Nat.dvd_of_mod_eq_zero hsize)).symm⟩
  have hn : 0 < n := Nat.pos_of_mul_pos_right hpos
  have hlast : add64 (v * PGSIZE) (n * PGSIZE - PGSIZE) = (v + n - 1) * PGSIZE % 2 ^ 64 := by
    unfold add64
    rw [← Nat.sub_one_mul, ← Nat.add_mul, Nat.add_sub_assoc hn]
  rw [Nat.mul_div_cancel v (by decide), Nat.mul_div_cancel n (by decide), hlast]
  exact h.mapLoop_spec hperm hpa hlt.le hn

theorem mapPage_spec (h : Table k s F r) (v : ℕ) (hperm : perm < 2 ^ 10) (hpa : pa < 2 ^ 64) :
    Wp (mappages r (v * PGSIZE) PGSIZE pa perm) (MapsTo k s F r v 1 pa perm) (MapPanics s r v 1) s := by
  have hspec := h.mappages_spec (Nat.mul_mod_left v PGSIZE) (Nat.mod_self PGSIZE) (by decide)
    (by decide) hperm hpa
  rwa [Nat.mul_div_cancel v (by decide), Nat.div_self (by decide)] at hspec

end Table

/-! ## `uvmunmap` -/

/-- The pages that the page numbers from `v` to `v + n` are mapped to. -/
def pagesOf (L : ℕ → Option ℕ) (v n : ℕ) : Set ℕ :=
  {p | ∃ w e, v ≤ w ∧ w < v + n ∧ L w = some e ∧ pte2pa e = p}

/-- **The pages of a range can be freed**: they are pages of the allocator that are neither free nor page
tables, and no two page numbers are mapped to one of them. -/
structure Freeable (k : KernelImage) (s : PhysMem) (F : List ℕ) (r v n : ℕ) : Prop where
  page : ∀ p ∈ pagesOf (lookup s.mem r) v n, k.Page p ∧ p ∉ F ∧ p ∉ tables s.mem r
  inj : ∀ w w' e e', v ≤ w → w < v + n → v ≤ w' → w' < v + n → lookup s.mem r w = some e →
    lookup s.mem r w' = some e' → pte2pa e = pte2pa e' → w = w'

/-- **What `uvmunmap` leads to**: the pages of the range are not mapped any more, and are free if
`do_free` is set. -/
structure Unmaps (k : KernelImage) (s : PhysMem) (F : List ℕ) (r v n : ℕ) (doFree : Bool)
    (s' : PhysMem) (F' : List ℕ) : Prop where
  table : Table k s' F' r
  tables : tables s'.mem r = tables s.mem r
  lookup : lookup s'.mem r = removed (lookup s.mem r) v n
  free : ∀ p, p ∈ F' ↔ p ∈ F ∨ doFree = true ∧ p ∈ pagesOf (Vm.lookup s.mem r) v n
  keeps : Keeps (Vm.tables s.mem r ∪ {p | doFree = true ∧ p ∈ pagesOf (Vm.lookup s.mem r) v n}) s.mem
    s'.mem

/-- When `uvmunmap` panics: a page of the range is not mapped, or mapped with no flag but V. -/
def UnmapPanics (s : PhysMem) (r v n : ℕ) (p : VmPanic) : Prop :=
  (p = .uvmunmapWalk ∨ p = .uvmunmapNotMapped) ∧
      (∃ w, v ≤ w ∧ w < v + n ∧ lookup s.mem r w = none) ∨
    p = .uvmunmapNotLeaf ∧
      ∃ w e, v ≤ w ∧ w < v + n ∧ lookup s.mem r w = some e ∧ pteFlags e = PTE_V

theorem mem_pagesOf_succ {p : ℕ} (hv : L v = some e) :
    p ∈ pagesOf L v (n + 1) ↔ p = pte2pa e ∨ p ∈ pagesOf (update L v none) (v + 1) n := by
  constructor
  · rintro ⟨w, e', hle, hlt, hw, rfl⟩
    by_cases hwv : w = v
    · subst hwv
      rw [hv] at hw
      cases hw
      exact .inl rfl
    · exact .inr ⟨w, e', by omega, by omega, by rwa [update_of_ne hwv], rfl⟩
  · rintro (rfl | ⟨w, e', hle, hlt, hw, rfl⟩)
    · exact ⟨v, e, le_rfl, by omega, hv, rfl⟩
    · rw [update_of_ne (by omega)] at hw
      exact ⟨w, e', by omega, by omega, hw, rfl⟩

namespace Table

theorem freeIf_spec {doFree : Bool} {p : ℕ} (h : Table k s F r)
    (hp : doFree = true → k.Page p ∧ p ∉ F ∧ p ∉ tables s.mem r) :
    Wp (freeIf k doFree p) (fun _ s' => ∃ F', Table k s' F' r ∧ tables s'.mem r = tables s.mem r ∧
      lookup s'.mem r = lookup s.mem r ∧ (∀ q, q ∈ F' ↔ q ∈ F ∨ doFree = true ∧ q = p) ∧
      Keeps {q | doFree = true ∧ q = p} s.mem s'.mem) E s := by
  unfold freeIf
  cases doFree with
  | false => exact Wp.pure ⟨F, h, rfl, rfl, fun q => by simp, Keeps.refl _ _⟩
  | true =>
    obtain ⟨hpage, hpF, hpt⟩ := hp rfl
    refine (kfree_spec h.free hpage hpF).mono fun _ s' ⟨hfree, hk⟩ => ?_
    have hnp : ∀ t ∈ tables s.mem r, t ≠ p := fun t ht htp => hpt (htp ▸ ht)
    obtain ⟨htable, htab, hlook⟩ := h.frame hk hnp hfree fun t ht hmem =>
      (List.mem_cons.1 hmem).elim (hnp t ht) (h.apart t ht)
    refine ⟨p :: F, htable, htab, hlook, fun q => ?_, hk.mono ?_⟩
    · rw [List.mem_cons, or_comm]
      simp
    · rintro q rfl
      exact ⟨rfl, rfl⟩

theorem unmapLoop_spec {doFree : Bool} (h : Table k s F r) (hlt : v + n ≤ MAXVA / PGSIZE)
    (hfree : doFree = true → Freeable k s F r v n) :
    Wp (unmapLoop k r ((v + n) * PGSIZE) doFree n (v * PGSIZE))
      (fun _ s' => ∃ F', Unmaps k s F r v n doFree s' F') (UnmapPanics s r v n) s := by
  induction n generalizing s F v with
  | zero =>
    refine Wp.pure ⟨F, h, rfl, (removed_zero _ _).symm, fun p => ?_, Keeps.refl _ _⟩
    constructor
    · exact .inl
    · rintro (hp | ⟨-, w, e, hle, hlt', -⟩)
      · exact hp
      · omega
  | succ n ih =>
    have hvpn : v * PGSIZE / PGSIZE = v := Nat.mul_div_cancel v (by decide)
    have hva : v * PGSIZE < MAXVA := by
      simp only [PGSIZE, MAXVA] at hlt ⊢
      omega
    have hv3 : v < 512 ^ 3 := by
      rw [← hvpn]
      exact vpn_lt hva
    unfold unmapLoop
    rw [if_pos (Nat.mul_lt_mul_of_pos_right (by omega) (by decide))]
    refine Wp.run_bind (walk_run h.inner hva) ?_
    rw [hvpn]
    cases ht : tableAt s.mem r 2 (v / 512) with
    | none =>
      exact Wp.throw (.inl ⟨.inl rfl, v, le_rfl, by omega, lookup_of_no_table ht⟩)
    | some t =>
      have hlv := lookup_of_table hv3 ht
      refine Wp.run_bind (loadEntry_run s t (v % 512)) ?_
      set e := entry s.mem t (v % 512)
      refine Wp.ite (fun hV => ?_) fun hV => ?_
      · rw [if_neg hV] at hlv
        exact Wp.throw (.inl ⟨.inr rfl, v, le_rfl, by omega, hlv⟩)
      rw [not_not] at hV
      rw [if_pos hV] at hlv
      refine Wp.ite (fun hfl => Wp.throw (.inr ⟨rfl, v, e, le_rfl, by omega, hlv, hfl⟩)) fun hfl => ?_
      have hmem : pte2pa e ∈ pagesOf (lookup s.mem r) v (n + 1) :=
        (mem_pagesOf_succ hlv).2 (.inl rfl)
      refine (h.freeIf_spec fun hf => (hfree hf).page _ hmem).bind fun _ s1 hs1 => ?_
      obtain ⟨F1, h1, htab1, hlook1, hF1, hk1⟩ := hs1
      have hsame : tableAt s1.mem r 2 (v / 512) = some t := by
        have hnot : ∀ u ∈ tables s.mem r, u ∉ ({q | doFree = true ∧ q = pte2pa e} : Set ℕ) := by
          rintro u hu ⟨hf, rfl⟩
          exact ((hfree hf).page _ hmem).2.2 hu
        rw [← ht]
        refine RadixScheme.node_frame (fun u hu i hi => ?_) le_rfl (show v / 512 < 512 ^ 2 by omega)
        exact h.entry_frame hk1 hnot hu hi
      obtain ⟨h2, htab2, hk2, hlook2⟩ := h1.store hv3 hsame (w := 0) (by decide)
      rw [if_neg (by decide), hlook1] at hlook2
      have hfree2 : doFree = true → Freeable k (s1.put (t + 8 * (v % 512)) 8 (digits 0)) F1 r
          (v + 1) n := by
        intro hf
        refine ⟨fun p hp => ?_, fun w w' e1 e2 hw hw' hx hx' h1 h2 heq => ?_⟩
        · rw [hlook2] at hp
          obtain ⟨hpage, hpF, hpt⟩ := (hfree hf).page p ((mem_pagesOf_succ hlv).2 (.inr hp))
          refine ⟨hpage, ?_, ?_⟩
          · rw [hF1]
            rintro (hpF' | ⟨-, rfl⟩)
            · exact hpF hpF'
            · -- the page just freed is mapped once
              obtain ⟨w, e', hle, hlt', hw, hpe⟩ := hp
              rw [update_of_ne (by omega)] at hw
              have := (hfree hf).inj w v e' e (by omega) (by omega) le_rfl (by omega) hw hlv hpe
              omega
          · rw [htab2, htab1]
            exact hpt
        · rw [hlook2, update_of_ne (by omega)] at h1 h2
          exact (hfree hf).inj w w' e1 e2 (by omega) (by omega) (by omega) (by omega) h1 h2 heq
      rw [add64_page (by omega), show v + (n + 1) = v + 1 + n by omega]
      refine Wp.modify_bind (((ih h2 (by omega) hfree2).mono ?_).mono_err ?_)
      · rintro _ s3 ⟨F3, hu⟩
        have hpages : ∀ p, p ∈ pagesOf (lookup s.mem r) v (n + 1) ↔ p = pte2pa e ∨
            p ∈ pagesOf (lookup (s1.put (t + 8 * (v % 512)) 8 (digits 0)).mem r) (v + 1) n := by
          intro p
          rw [hlook2]
          exact mem_pagesOf_succ hlv
        refine ⟨F3, hu.table, hu.tables.trans (htab2.trans htab1), ?_, fun p => ?_, ?_⟩
        · rw [hu.lookup, hlook2, removed_succ]
        · rw [hu.free, hF1, hpages, and_or_left, or_assoc]
        · refine Keeps.trans (hk1.mono ?_) (Keeps.trans (hk2.mono ?_) (hu.keeps.mono ?_))
          · rintro p ⟨hf, rfl⟩
            exact .inr ⟨hf, hmem⟩
          · rintro p rfl
            exact .inl (mem_tables le_rfl (by omega) ht)
          · rw [htab2, htab1]
            rintro p (hp | ⟨hf, hp⟩)
            · exact .inl hp
            · exact .inr ⟨hf, (hpages p).2 (.inr hp)⟩
      · rintro p (⟨hp, w, hle, hlt', hw⟩ | ⟨rfl, w, e', hle, hlt', hw, hfl'⟩)
        · rw [hlook2, update_of_ne (by omega)] at hw
          exact .inl ⟨hp, w, by omega, by omega, hw⟩
        · rw [hlook2, update_of_ne (by omega)] at hw
          exact .inr ⟨rfl, w, e', by omega, by omega, hw, hfl'⟩

/-- **What `uvmunmap` does**, for a range below `MAXVA`. -/
theorem uvmunmap_spec {doFree : Bool} (h : Table k s F r) (hva : va % PGSIZE = 0)
    (hlt : va / PGSIZE + n ≤ MAXVA / PGSIZE)
    (hfree : doFree = true → Freeable k s F r (va / PGSIZE) n) :
    Wp (uvmunmap k r va n doFree) (fun _ s' => ∃ F', Unmaps k s F r (va / PGSIZE) n doFree s' F')
      (UnmapPanics s r (va / PGSIZE) n) s := by
  obtain ⟨v, rfl⟩ : ∃ v, va = v * PGSIZE := ⟨va / PGSIZE, (Nat.div_mul_cancel
    (Nat.dvd_of_mod_eq_zero hva)).symm⟩
  rw [Nat.mul_div_cancel v (by decide)] at hlt hfree ⊢
  have hstop : add64 (v * PGSIZE) (n * PGSIZE) = (v + n) * PGSIZE := by
    unfold add64
    rw [← Nat.add_mul, Nat.mod_eq_of_lt]
    simp only [PGSIZE, MAXVA] at hlt ⊢
    omega
  unfold uvmunmap
  rw [if_neg (not_not.2 hva), hstop]
  exact h.unmapLoop_spec hlt hfree

/-! ## Page tables that have been built -/

/-- **An empty page table**: the root has no valid entry. -/
theorem empty (hfree : FreeList k s F) (hpage : k.Page r) (hr : r ∉ F)
    (hzero : ∀ i < 512, entry s.mem r i = 0) :
    Table k s F r ∧ tables s.mem r = {r} ∧ lookup s.mem r = fun _ => none := by
  have hnone : ∀ d p, tableAt s.mem r (d + 1) p = none := by
    intro d
    induction d with
    | zero =>
      intro p
      show sv39.down (entry s.mem r (p % 512)) = none
      rw [hzero _ (mod_lt _ (by decide))]
      rfl
    | succ d ih =>
      intro p
      show (tableAt s.mem r (d + 1) (p / 512)).bind _ = none
      rw [ih]
      rfl
  have hroot : ∀ d p t, p < 512 ^ d → tableAt s.mem r d p = some t → d = 0 ∧ p = 0 ∧ t = r := by
    intro d p t hp ht
    cases d with
    | zero => exact ⟨rfl, by simpa using hp, (Option.some.inj ht).symm⟩
    | succ d =>
      rw [hnone] at ht
      contradiction
  have htab : tables s.mem r = {r} := by
    ext t
    constructor
    · rintro ⟨d, hd, p, hp, ht⟩
      exact (hroot d p t hp ht).2.2
    · rintro rfl
      exact root_mem_tables s.mem t
  refine ⟨⟨hfree, ?_, ?_, ?_, ?_⟩, htab, ?_⟩
  · intro d hd p hp d' hd' p' hp' t ht ht'
    obtain ⟨rfl, rfl, -⟩ := hroot d p t hp ht
    obtain ⟨rfl, rfl, -⟩ := hroot d' p' t hp' ht'
    exact ⟨rfl, rfl⟩
  · intro d hd p hp t ht i hi hV
    obtain ⟨-, -, rfl⟩ := hroot d p t hp ht
    rw [hzero i hi] at hV
    exact absurd hV (by decide)
  · rw [htab]
    rintro t rfl
    exact hpage
  · rw [htab]
    rintro t rfl
    exact hr
  · funext v
    exact lookup_of_no_table (hnone 1 _)

end Table

/-- **`uvmcreate` makes an empty page table.** -/
theorem uvmcreate_spec (h : FreeList k s F) : Wp uvmcreate (fun o s' => o = none ∧ F = [] ∧ s' = s ∨
    ∃ r F', F = r :: F' ∧ o = some r ∧ Table k s' F' r ∧ tables s'.mem r = {r} ∧
      lookup s'.mem r = (fun _ => none) ∧ Keeps {r} s.mem s'.mem) E s := by
  refine (kalloc_spec h).bind fun o s1 ho => ?_
  rcases ho with ⟨rfl, rfl, rfl⟩ | ⟨r, F', rfl, rfl, hfree, hk⟩
  · exact Wp.pure (.inl ⟨rfl, rfl, rfl⟩)
  · obtain ⟨-, -, hr, hpage⟩ := h.cons
    have hk1 : Keeps {r} s1.mem (s1.put r PGSIZE fun _ => 0).mem :=
      Keeps.put_page (f := fun _ => 0) hpage.aligned s1.mem
    have hfree1 : FreeList k (s1.put r PGSIZE fun _ => 0) F' := by
      refine hfree.frame rfl hk1 ?_
      rintro p hp rfl
      exact hr hp
    have hzero : ∀ i < 512, entry (s1.put r PGSIZE fun _ => 0).mem r i = 0 := by
      intro i hi
      refine load_eq_zero fun n hn => ?_
      rw [add_assoc]
      exact put_add (f := fun _ => 0) (show 8 * i + n < PGSIZE by simp only [PGSIZE]; omega)
    obtain ⟨htable, htab, hlook⟩ := Table.empty hfree1 hpage hr hzero
    exact Wp.modify_bind (Wp.pure (.inr ⟨r, F', rfl, rfl, htable, htab, hlook, hk.trans hk1⟩))

/-- What happens to a page table, and what others do meanwhile. -/
inductive PtOp
  | walk (va : ℕ) (alloc : Bool)
  | mappages (va size pa perm : ℕ)
  | uvmunmap (va npages : ℕ) (doFree : Bool)
  /-- others allocate, free and write pages -/
  | other (s : PhysMem)

namespace PtOp

/-- The state after a call that returns. -/
def after {α : Type} (m : VmM α) (s : PhysMem) : Option PhysMem :=
  match m.run s with
  | .ok (_, s') => some s'
  | .error _ => none

def step (k : KernelImage) (r : ℕ) : PtOp → PhysMem → Option PhysMem
  | walk va alloc, s => after (Vm.walk r va alloc) s
  | mappages va size pa perm, s => after (Vm.mappages r va size pa perm) s
  | uvmunmap va npages doFree, s => after (Vm.uvmunmap k r va npages doFree) s
  | other s', _ => some s'

/-- Arguments are `uint64`s and flags, the range of `uvmunmap` is below `MAXVA` and its pages can be freed,
and others do not write into the pages of the table. -/
def Allowed (k : KernelImage) (r : ℕ) : PtOp → PhysMem → Prop
  | walk _ _, _ => True
  | mappages _ size pa perm, _ => size < 2 ^ 64 ∧ pa < 2 ^ 64 ∧ perm < 2 ^ 10
  | uvmunmap va npages doFree, s => va / PGSIZE + npages ≤ MAXVA / PGSIZE ∧
      (doFree = true → ∃ F, FreeList k s F ∧ Freeable k s F r (va / PGSIZE) npages)
  | other s', s => ∃ F, FreeList k s' F ∧ ∀ p ∈ tables s.mem r, p ∉ F ∧ ∀ j < PGSIZE,
      s'.mem (p + j) = s.mem (p + j)

end PtOp

/-- **A page table that has been built by `walk`, `mappages` and `uvmunmap`** from an empty one. -/
def Built (k : KernelImage) (s : PhysMem) (r : ℕ) : Prop :=
  ∃ s₀ F₀ s₁, FreeList k s₀ F₀ ∧ uvmcreate.run s₀ = .ok (some r, s₁) ∧
    Transition.Reaches (PtOp.step k r) (PtOp.Allowed k r) s₁ s

theorem PtOp.exists_run {α : Type} {m : VmM α} (h : PtOp.after m s = some s') :
    ∃ a, m.run s = .ok (a, s') := by
  unfold PtOp.after at h
  cases hrun : m.run s with
  | error e =>
    rw [hrun] at h
    contradiction
  | ok x =>
    rw [hrun] at h
    cases h
    exact ⟨x.1, rfl⟩

theorem walk_lt {alloc : Bool} {o : Option ℕ} (h : (walk r va alloc).run s = .ok (o, s')) : va < MAXVA := by
  by_contra hva
  unfold walk at h
  rw [if_pos (not_lt.1 hva)] at h
  contradiction

theorem mappages_args {size : ℕ} {ret : ℤ} (h : (mappages r va size pa perm).run s = .ok (ret, s')) :
    va % PGSIZE = 0 ∧ size % PGSIZE = 0 ∧ 0 < size := by
  unfold mappages at h
  split_ifs at h with h1 h2 h3
  · contradiction
  · contradiction
  · contradiction
  · exact ⟨not_not.1 h1, not_not.1 h2, pos_of_ne_zero h3⟩

theorem uvmunmap_arg {npages : ℕ} {doFree : Bool} {u : Unit}
    (h : (uvmunmap k r va npages doFree).run s = .ok (u, s')) : va % PGSIZE = 0 := by
  unfold uvmunmap at h
  split_ifs at h with h1
  · contradiction
  · exact not_not.1 h1

theorem FreeList.unique (h : FreeList k s F) (h' : FreeList k s F') : F = F' := by
  have h1 := LinkedChain.follow_eq h.chain (le_max_left F.length F'.length)
  have h2 := LinkedChain.follow_eq h'.chain (le_max_right F.length F'.length)
  exact h1.symm.trans h2

/-- The free list that the condition of `uvmunmap` speaks of is the one beside the table. -/
theorem Table.freeable {doFree : Bool} (h : Table k s F r)
    (hf : doFree = true → ∃ F, FreeList k s F ∧ Freeable k s F r v n) (hd : doFree = true) :
    Freeable k s F r v n := by
  obtain ⟨F1, hF1, hfr⟩ := hf hd
  rwa [h.free.unique hF1]

theorem Table.other (h : Table k s F r) (hfree : FreeList k s' F')
    (hsame : ∀ p ∈ tables s.mem r, p ∉ F' ∧ ∀ j < PGSIZE, s'.mem (p + j) = s.mem (p + j)) :
    Table k s' F' r := by
  have hkeeps : Keeps {a | a ∉ tables s.mem r} s.mem s'.mem := by
    intro a ha
    have ha' : pgrounddown a ∈ tables s.mem r := not_not.1 ha
    have hle := pgrounddown_le a
    have hlt := lt_pgrounddown a
    have := (hsame _ ha').2 (a - pgrounddown a) (by omega)
    rwa [Nat.add_sub_cancel' hle] at this
  exact (h.frame hkeeps (fun t ht hn => hn ht) hfree fun t ht => (hsame t ht).1).1

theorem Built.table (h : Built k s r) : ∃ F, Table k s F r := by
  obtain ⟨s0, F0, s1, hfree, hcreate, hreach⟩ := h
  refine hreach.invariant (I := fun s => ∃ F, Table k s F r) ?_ ?_
  · have hspec := (uvmcreate_spec hfree (E := fun _ => True)).post_of_run hcreate
    rcases hspec with ⟨hr, -⟩ | ⟨r', F', -, hr, htable, -⟩
    · contradiction
    · cases hr
      exact ⟨F', htable⟩
  · rintro op s s' ⟨F, h⟩ hok hstep
    cases op with
    | walk va alloc =>
      obtain ⟨o, hrun⟩ := PtOp.exists_run hstep
      have hva := walk_lt hrun
      cases alloc with
      | false =>
        rw [walk_run h.inner hva, Except.ok.injEq, Prod.mk.injEq] at hrun
        exact ⟨F, hrun.2 ▸ h⟩
      | true =>
        obtain ⟨F', hg, -⟩ := (h.walk_alloc hva (E := fun _ => True)).post_of_run hrun
        exact ⟨F', hg.table⟩
    | mappages va size pa perm =>
      obtain ⟨hsize, hpa, hperm⟩ := hok
      obtain ⟨ret, hrun⟩ := PtOp.exists_run hstep
      obtain ⟨h1, h2, h3⟩ := mappages_args hrun
      obtain ⟨F', j, hg, -⟩ := (h.mappages_spec h1 h2 h3 hsize hperm hpa).post_of_run hrun
      exact ⟨F', hg.table⟩
    | uvmunmap va npages doFree =>
      obtain ⟨hlt, hf⟩ := hok
      obtain ⟨u, hrun⟩ := PtOp.exists_run hstep
      have hspec := h.uvmunmap_spec (uvmunmap_arg hrun) hlt (h.freeable hf)
      obtain ⟨F', hu⟩ := hspec.post_of_run hrun
      exact ⟨F', hu.table⟩
    | other t =>
      cases hstep
      obtain ⟨F', hF', hsame⟩ := hok
      exact ⟨F', h.other hF' hsame⟩

/-- The entry at the address `a`, if it is valid. -/
def validAt (s : PhysMem) (a : ℕ) : Option ℕ :=
  if Has (load s.mem a 8) PTE_V then some (load s.mem a 8) else none

/-- `walk` returns the address of the entry that the map has. -/
theorem Table.lookup_eq (h : Table k s F r) (hva : va < MAXVA) : ∃ o, (walk r va false).run s = .ok (o, s) ∧
    lookup s.mem r (va / PGSIZE) = o.bind (validAt s) := by
  refine ⟨_, walk_run h.inner hva, ?_⟩
  cases ht : tableAt s.mem r 2 (va / PGSIZE / 512) with
  | none => exact lookup_of_no_table ht
  | some t => exact lookup_of_table (vpn_lt hva) ht

/-- **Different pages have different entries.** -/
theorem Table.walk_inj {va' a : ℕ} (h : Table k s F r) (hva : va < MAXVA) (hva' : va' < MAXVA)
    (hrun : (walk r va false).run s = .ok (some a, s)) (hrun' : (walk r va' false).run s = .ok (some a, s)) :
    va / PGSIZE = va' / PGSIZE := by
  rw [walk_run h.inner hva, Except.ok.injEq, Prod.mk.injEq, Option.map_eq_some_iff] at hrun
  rw [walk_run h.inner hva', Except.ok.injEq, Prod.mk.injEq, Option.map_eq_some_iff] at hrun'
  obtain ⟨⟨t, ht, ha⟩, -⟩ := hrun
  obtain ⟨⟨t', ht', ha'⟩, -⟩ := hrun'
  have hv := vpn_lt hva
  have hv' := vpn_lt hva'
  have hq : va / PGSIZE / 512 < 512 ^ 2 := by omega
  have hq' : va' / PGSIZE / 512 < 512 ^ 2 := by omega
  -- entries are at different places of a page, and page tables are different pages
  have hal := h.aligned (mem_tables le_rfl hq ht)
  have hal' := h.aligned (mem_tables le_rfl hq' ht')
  have htt : t = t' ∧ va / PGSIZE % 512 = va' / PGSIZE % 512 := by
    simp only [PGSIZE] at hal hal' ha ha' ⊢
    omega
  obtain ⟨rfl, hmod⟩ := htt
  have hdiv := (h.shape 2 le_rfl _ hq 2 le_rfl _ hq' t ht ht').2
  omega

end Vm

end Xv6
