import Xv6.Vm.Mapping

/-!
# Copies between the kernel and users

`copyout`, `copyin` and `copyinstr` go through user memory page by page, with arbitrary addresses that a
user has passed.

**User memory.** `userEntry m r va` is the entry for the address `va` if it is below `MAXVA` and its page is
mapped with V and U; `userAddr` is the physical address there and `userByte` the byte. Of the page table
it is assumed that there are no superpages and that no user page is at physical address 0, where there is
no memory (`Regular`, `NotAtZero`); for `copyout` also that user pages are different pages and not page
tables (`UserPages`).

Main results: `user_copies` and `copyinstr_exact`.
-/

open ByteMem Nat Option

namespace Xv6

namespace Vm

/-! ## User memory -/

/-- The entry of the user page at `va`. -/
def userEntry (m : ℕ → UInt8) (r va : ℕ) : Option ℕ :=
  if va < MAXVA then (lookup m r (va / PGSIZE)).filter fun e => Has e PTE_U else none

/-- The physical address of the user address `va`. -/
def userAddr (m : ℕ → UInt8) (r va : ℕ) : Option ℕ :=
  (userEntry m r va).map fun e => pte2pa e + va % PGSIZE

/-- The byte at the user address `va`. -/
def userByte (m : ℕ → UInt8) (r va : ℕ) : Option UInt8 := (userAddr m r va).map m

/-- The page at `va` is below `MAXVA` and mapped with V and U. -/
def Readable (m : ℕ → UInt8) (r va : ℕ) : Prop :=
  va < MAXVA ∧ ∃ e, lookup m r (va / PGSIZE) = some e ∧ Has e PTE_U

/-- The page at `va` is below `MAXVA` and mapped with V, U and W. -/
def Writable (m : ℕ → UInt8) (r va : ℕ) : Prop :=
  va < MAXVA ∧ ∃ e, lookup m r (va / PGSIZE) = some e ∧ Has e PTE_U ∧ Has e PTE_W

/-- No user page is at physical address 0, which `walkaddr` returns if there is no user page. -/
def NotAtZero (m : ℕ → UInt8) (r : ℕ) : Prop := ∀ va e, userEntry m r va = some e → pte2pa e ≠ 0

/-- **User pages are different pages of physical memory**, and not page tables. -/
structure UserPages (m : ℕ → UInt8) (r : ℕ) : Prop where
  regular : Regular m r
  aligned : r % PGSIZE = 0
  notAtZero : NotAtZero m r
  apart : ∀ va e, userEntry m r va = some e → pte2pa e ∉ tables m r
  inj : ∀ va va' e e', userEntry m r va = some e → userEntry m r va' = some e' →
    pte2pa e = pte2pa e' → va / PGSIZE = va' / PGSIZE

variable {m m' : ℕ → UInt8} {r va va' e i n j len max : ℕ} {s t : PhysMem} {src : ℕ → UInt8}

theorem userEntry_eq_some : userEntry m r va = some e ↔
    va < MAXVA ∧ lookup m r (va / PGSIZE) = some e ∧ Has e PTE_U := by
  unfold userEntry
  by_cases hva : va < MAXVA
  · rw [if_pos hva, filter_eq_some_iff]
    simp [hva]
  · rw [if_neg hva]
    simp [hva]

theorem readable_iff : Readable m r va ↔ ∃ e, userEntry m r va = some e := by
  simp only [Readable, userEntry_eq_some]
  tauto

theorem readable_iff_byte : Readable m r va ↔ ∃ b, userByte m r va = some b := by
  rw [readable_iff]
  unfold userByte userAddr
  cases userEntry m r va <;> simp

theorem Writable.readable (h : Writable m r va) : Readable m r va := by
  obtain ⟨hva, e, he, hU, -⟩ := h
  exact ⟨hva, e, he, hU⟩

theorem userEntry_page (h : va / PGSIZE = va' / PGSIZE) : userEntry m r va = userEntry m r va' := by
  have hlt : va < MAXVA ↔ va' < MAXVA := by
    simp only [PGSIZE, MAXVA] at h ⊢
    omega
  unfold userEntry
  rw [h]
  by_cases hva : va < MAXVA
  · rw [if_pos hva, if_pos (hlt.1 hva)]
  · rw [if_neg hva, if_neg fun hva' => hva (hlt.2 hva')]

theorem tables_aligned (hr : r % PGSIZE = 0) {t : ℕ} (ht : t ∈ tables m r) : t % PGSIZE = 0 := by
  obtain ⟨d, -, p, -, hn⟩ := ht
  cases d with
  | zero =>
    cases hn
    exact hr
  | succ d =>
    obtain ⟨u, -, hdown⟩ := bind_eq_some_iff.1 hn
    rw [sv39_down] at hdown
    split_ifs at hdown
    cases hdown
    exact pte2pa_aligned _

/-- The user pages. -/
def userPageSet (m : ℕ → UInt8) (r : ℕ) : Set ℕ := {p | ∃ va e, userEntry m r va = some e ∧ pte2pa e = p}

/-- **Writes into user pages** leave the page table as it is. -/
theorem UserPages.write (h : UserPages m r) (hk : Keeps (userPageSet m r) m m') :
    lookup m' r = lookup m r ∧ UserPages m' r := by
  have hsame : ∀ t ∈ tables m r, ∀ i < 512, entry m' t i = entry m t i := by
    intro t ht i hi
    refine entry_keeps hk (tables_aligned h.aligned ht) ?_ hi
    rintro ⟨va, e, he, rfl⟩
    exact h.apart va e he ht
  have hlook := lookup_frame hsame
  have htab := tables_frame hsame
  have huser : userEntry m' r = userEntry m r := by
    funext va
    unfold userEntry
    rw [hlook]
  refine ⟨hlook, ?_, h.aligned, ?_, ?_, ?_⟩
  · intro d hd p hp t ht i hi
    rw [tableAt, RadixScheme.node_frame hsame hd.le hp] at ht
    rw [hsame t (mem_tables hd.le hp ht) i hi]
    exact h.regular d hd p hp t ht i hi
  · unfold NotAtZero
    rw [huser]
    exact h.notAtZero
  · rw [huser, htab]
    exact h.apart
  · rw [huser]
    exact h.inj

/-- **`walkaddr` returns the page of a user address**, and 0 if there is none. -/
theorem walkaddr_run (h : Regular s.mem r) :
    (walkaddr r va).run s = .ok ((userEntry s.mem r va).elim 0 pte2pa, s) := by
  unfold walkaddr userEntry
  by_cases hva : va < MAXVA
  · rw [if_neg (not_le.2 hva), if_pos hva, Wp.run_bind_eq (walk_run h hva)]
    cases ht : tableAt s.mem r 2 (va / PGSIZE / 512) with
    | none =>
      rw [lookup_of_no_table ht]
      rfl
    | some t =>
      rw [lookup_of_table (vpn_lt hva) ht, map_some]
      rw [Wp.run_bind_eq (loadEntry_run s t (va / PGSIZE % 512))]
      by_cases hV : Has (entry s.mem t (va / PGSIZE % 512)) PTE_V
      · rw [if_neg (not_not.2 hV), if_pos hV, filter_some]
        by_cases hU : Has (entry s.mem t (va / PGSIZE % 512)) PTE_U
        · rw [if_neg (not_not.2 hU), if_pos (decide_eq_true hU)]
          rfl
        · rw [if_pos hU, if_neg (by simpa using hU)]
          rfl
      · rw [if_pos hV, if_neg hV]
        rfl
  · rw [if_pos (not_lt.1 hva), if_neg hva]
    rfl

/-! ## Pieces of a range -/

theorem pgrounddown_div (va : ℕ) : pgrounddown va / PGSIZE = va / PGSIZE :=
  Nat.mul_div_cancel _ (by decide)

theorem sub_pgrounddown (va : ℕ) : va - pgrounddown va = va % PGSIZE := by
  unfold pgrounddown
  simp only [PGSIZE]
  omega

/-- The part of a range in the first page. -/
def piece (va len : ℕ) : ℕ := min (PGSIZE - va % PGSIZE) len

theorem piece_pos (va : ℕ) (hlen : 0 < len) : 0 < piece va len := by
  unfold piece
  simp only [PGSIZE]
  omega

theorem piece_le (va len : ℕ) : piece va len ≤ len := min_le_right _ _

theorem piece_page (va : ℕ) (hi : i < piece va len) :
    (va + i) / PGSIZE = va / PGSIZE ∧ (va + i) % PGSIZE = va % PGSIZE + i := by
  unfold piece at hi
  simp only [PGSIZE] at hi ⊢
  omega

theorem piece_end (va len : ℕ) : va % PGSIZE + piece va len ≤ PGSIZE := by
  unfold piece
  simp only [PGSIZE]
  omega

theorem keeps_piece (he : userEntry s.mem r va = some e) (len : ℕ) (f : ℕ → UInt8) :
    Keeps (userPageSet s.mem r) s.mem (s.put (pte2pa e + va % PGSIZE) (piece va len) f).mem := by
  have hk : Keeps {pte2pa e} s.mem (s.put (pte2pa e + va % PGSIZE) (piece va len) f).mem :=
    Keeps.put (pte2pa_aligned e) (piece_end va _) s.mem
  refine hk.mono ?_
  rintro p rfl
  exact ⟨va, e, he, rfl⟩

theorem piece_next (va k : ℕ) (h : piece va len < len) :
    va + (piece va len + k) = pgrounddown va + PGSIZE + k := by
  unfold piece pgrounddown at *
  simp only [PGSIZE] at *
  omega

theorem next_page (hva : va < MAXVA) : add64 (pgrounddown va) PGSIZE = pgrounddown va + PGSIZE := by
  have hle := pgrounddown_le va
  unfold add64
  rw [mod_eq_of_lt]
  simp only [PGSIZE, MAXVA] at *
  omega

/-- **`j` bytes of the range can be accessed**: all of them, or those before the first page that
cannot. -/
structure Accessible (P : ℕ → Prop) (va len j : ℕ) : Prop where
  le : j ≤ len
  good : ∀ i < j, P (va + i)
  bad : j < len → ¬ P (va + j)
  whole : j < len → j = 0 ∨ (va + j) % PGSIZE = 0

namespace Accessible

variable {P : ℕ → Prop}

theorem none (h : ¬ P va) : Accessible P va len 0 :=
  ⟨zero_le _, fun _ hi => absurd hi (not_lt_zero _), fun _ => h, fun _ => .inl rfl⟩

theorem empty (P : ℕ → Prop) (va : ℕ) : Accessible P va 0 0 :=
  ⟨le_rfl, fun _ hi => absurd hi (not_lt_zero _), fun h => absurd h (lt_irrefl 0),
    fun _ => .inl rfl⟩

/-- All of it can be accessed exactly if every byte can. -/
theorem eq_len_iff (h : Accessible P va len j) : j = len ↔ ∀ i < len, P (va + i) := by
  constructor
  · rintro rfl
    exact h.good
  · intro hall
    by_contra hne
    exact h.bad (lt_of_le_of_ne h.le hne) (hall j (lt_of_le_of_ne h.le hne))

/-- The first page can be accessed, and `j` bytes after it. -/
theorem cons (hpage : ∀ i < piece va len, P (va + i))
    (h : Accessible P (pgrounddown va + PGSIZE) (len - piece va len) j) :
    Accessible P va len (piece va len + j) := by
  have hle := piece_le va len
  have hj := h.le
  refine ⟨by omega, fun i hi => ?_, fun hlt => ?_, fun hlt => .inr ?_⟩
  · by_cases hip : i < piece va len
    · exact hpage i hip
    · obtain ⟨k, rfl⟩ := Nat.exists_eq_add_of_le (not_lt.1 hip)
      rw [piece_next va k (by omega)]
      exact h.good k (by omega)
  · rw [piece_next va j (by omega)]
    exact h.bad (by omega)
  · rw [piece_next va j (by omega)]
    rcases h.whole (by omega) with rfl | hw
    · rw [add_zero, add_mod_right]
      exact pgrounddown_aligned va
    · exact hw

end Accessible

/-! ## `copyout` -/

/-- **`j` bytes have been copied to `va`**, and nothing else has changed. -/
structure CopiedOut (s t : PhysMem) (r va : ℕ) (src : ℕ → UInt8) (j : ℕ) : Prop where
  bytes : ∀ i < j, userByte t.mem r (va + i) = some (src i)
  rest : ∀ a, (∀ i < j, userAddr s.mem r (va + i) ≠ some a) → t.mem a = s.mem a
  freelist : t.freelist = s.freelist
  lookup : lookup t.mem r = lookup s.mem r

theorem userAddr_congr (h : lookup m' r = lookup m r) : userAddr m' r = userAddr m r := by
  funext va
  unfold userAddr userEntry
  rw [h]

theorem CopiedOut.nil (s : PhysMem) (r va : ℕ) (src : ℕ → UInt8) : CopiedOut s s r va src 0 :=
  ⟨fun _ hi => absurd hi (not_lt_zero _), fun _ _ => rfl, rfl, rfl⟩

theorem userAddr_piece (he : userEntry m r va = some e) (hi : i < piece va len) :
    userAddr m r (va + i) = some (pte2pa e + va % PGSIZE + i) := by
  obtain ⟨hdiv, hmod⟩ := piece_page va hi
  unfold userAddr
  rw [userEntry_page hdiv, he, map_some, hmod, add_assoc]

theorem UserPages.userAddr_next (h : UserPages m r) (he : userEntry m r va = some e) {a k : ℕ}
    (ha : userAddr m r (pgrounddown va + PGSIZE + k) = some a) : pgrounddown a ≠ pte2pa e := by
  intro hpage
  obtain ⟨e', he', rfl⟩ := map_eq_some_iff.1 ha
  rw [pgrounddown_of_lt (pte2pa_aligned e') (Nat.le_add_right _ _)
    (Nat.add_lt_add_left (Nat.mod_lt _ (by decide)) _)] at hpage
  have := h.inj _ _ e' e he' he hpage
  unfold pgrounddown at this
  simp only [PGSIZE] at this
  omega

/-- A piece is written to the first page, then the rest to the pages after it. -/
theorem CopiedOut.cons (h : UserPages s.mem r) (he : userEntry s.mem r va = some e)
    (hj : j ≤ len - piece va len)
    (hc : CopiedOut (s.put (pte2pa e + va % PGSIZE) (piece va len) src) t r (pgrounddown va + PGSIZE)
      (fun i => src (piece va len + i)) j) : CopiedOut s t r va src (piece va len + j) := by
  obtain ⟨hlook, -⟩ := h.write (keeps_piece he len src)
  have haddr := userAddr_congr hlook
  have htaddr : userAddr t.mem r = userAddr s.mem r := userAddr_congr (hc.lookup.trans hlook)
  refine ⟨fun i hi => ?_, fun a ha => ?_, hc.freelist, hc.lookup.trans hlook⟩
  · by_cases hip : i < piece va len
    · -- the pages after the first one are other pages
      have hkept : t.mem (pte2pa e + va % PGSIZE + i) = src i := by
        rw [hc.rest]
        · exact put_add hip
        · intro k hk hka
          rw [haddr] at hka
          refine h.userAddr_next he hka ?_
          have hend := piece_end va len
          rw [add_assoc]
          exact pgrounddown_of_lt (pte2pa_aligned e) (le_add_right _ _) (by omega)
      unfold userByte
      rw [htaddr, userAddr_piece he hip, map_some, hkept]
    · obtain ⟨k, rfl⟩ := Nat.exists_eq_add_of_le (not_lt.1 hip)
      rw [piece_next va k (by omega)]
      exact hc.bytes k (by omega)
  · rw [hc.rest a]
    · refine put_of_not ?_
      rintro ⟨hle, hlt⟩
      refine ha (a - (pte2pa e + va % PGSIZE)) (by omega) ?_
      rw [userAddr_piece he (show a - (pte2pa e + va % PGSIZE) < piece va len by omega)]
      congr 1
      omega
    · intro k hk
      rw [haddr, ← piece_next va k (show piece va len < len by omega)]
      exact ha _ (by omega)

theorem pgrounddown_lt_maxva : pgrounddown va < MAXVA ↔ va < MAXVA := by
  unfold pgrounddown
  simp only [PGSIZE, MAXVA]
  omega

section

variable (h : UserPages s.mem r)

include h

/-- `copyout` fails at a page that cannot be written. -/
theorem copyoutLoop_bad (hlen : 0 < len) (hbad : ¬ Writable s.mem r va) (fuel pos : ℕ) :
    (copyoutLoop r src (fuel + 1) va len pos).run s = .ok (-1, s) := by
  unfold copyoutLoop
  rw [if_pos hlen]
  by_cases hva : va < MAXVA
  · have hlow := pgrounddown_lt_maxva.2 hva
    rw [if_neg (not_le.2 hlow), Wp.run_bind_eq (walk_run h.regular hlow), pgrounddown_div]
    cases ht : tableAt s.mem r 2 (va / PGSIZE / 512) with
    | none => rfl
    | some u =>
      have hlv := lookup_of_table (vpn_lt hva) ht
      show ((loadWord (u + 8 * (va / PGSIZE % 512)) >>= _ : VmM ℤ)).run s = _
      rw [Wp.run_bind_eq (loadEntry_run s u (va / PGSIZE % 512))]
      by_cases hW : Has (entry s.mem u (va / PGSIZE % 512)) PTE_W
      · rw [if_neg (not_not.2 hW), Wp.run_bind_eq (walkaddr_run h.regular),
          userEntry_page (pgrounddown_div va)]
        cases he : userEntry s.mem r va with
        | none => rfl
        | some e =>
          obtain ⟨-, hlv', hU⟩ := userEntry_eq_some.1 he
          refine absurd ⟨hva, e, hlv', hU, ?_⟩ hbad
          rw [hlv] at hlv'
          split_ifs at hlv'
          rwa [← some.inj hlv']
      · rw [if_pos hW]
        rfl
  · rw [if_pos (not_lt.1 fun hlow => hva (pgrounddown_lt_maxva.1 hlow))]
    rfl

/-- `copyout` writes a piece to a page that can be written. -/
theorem copyoutLoop_good (hlen : 0 < len) (he : userEntry s.mem r va = some e) (hW : Has e PTE_W)
    (fuel pos : ℕ) : (copyoutLoop r src (fuel + 1) va len pos).run s =
      (copyoutLoop r src fuel (pgrounddown va + PGSIZE) (len - piece va len) (pos + piece va len)).run
        (s.put (pte2pa e + va % PGSIZE) (piece va len) fun i => src (pos + i)) := by
  obtain ⟨hva, hlv, hU⟩ := userEntry_eq_some.1 he
  obtain ⟨-, u, ht, hent, -⟩ := exists_of_lookup hlv
  have hlow := pgrounddown_lt_maxva.2 hva
  rw [copyoutLoop, if_pos hlen, if_neg (not_le.2 hlow),
    Wp.run_bind_eq (walk_run h.regular hlow), pgrounddown_div, ht]
  show ((loadWord (u + 8 * (va / PGSIZE % 512)) >>= _ : VmM ℤ)).run s = _
  rw [Wp.run_bind_eq (loadEntry_run s u (va / PGSIZE % 512)), hent, if_neg (not_not.2 hW),
    Wp.run_bind_eq (walkaddr_run h.regular), userEntry_page (pgrounddown_div va), he,
    elim_some, if_neg (h.notAtZero va e he), sub_pgrounddown, next_page hva]
  rfl

theorem copyoutLoop_run (src : ℕ → UInt8) (fuel va len pos : ℕ) (hlen : len ≤ fuel) :
    ∃ j t, (copyoutLoop r src fuel va len pos).run s = .ok (if j = len then 0 else -1, t) ∧
      Accessible (Writable s.mem r) va len j ∧ CopiedOut s t r va (fun i => src (pos + i)) j := by
  induction fuel generalizing s va len pos with
  | zero =>
    obtain rfl := Nat.le_zero.1 hlen
    exact ⟨0, s, rfl, .empty _ va, .nil s r va _⟩
  | succ fuel ih =>
    rcases Nat.eq_zero_or_pos len with rfl | hpos
    · exact ⟨0, s, rfl, .empty _ va, .nil s r va _⟩
    by_cases hw : Writable s.mem r va
    · obtain ⟨hva, e, hlv, hU, hW⟩ := hw
      have he : userEntry s.mem r va = some e := userEntry_eq_some.2 ⟨hva, hlv, hU⟩
      set s1 := s.put (pte2pa e + va % PGSIZE) (piece va len) fun i => src (pos + i)
      obtain ⟨hlook, h1⟩ := h.write (keeps_piece he len fun i => src (pos + i))
      have hsame : Writable s1.mem r = Writable s.mem r := by
        funext x
        unfold Writable
        rw [hlook]
      have hple := piece_le va len
      have hppos := piece_pos va hpos
      obtain ⟨j, t, hrun, hacc, hc⟩ := ih h1 (pgrounddown va + PGSIZE) (len - piece va len)
        (pos + piece va len) (by omega)
      rw [hsame] at hacc
      have hpage : ∀ i < piece va len, Writable s.mem r (va + i) := by
        intro i hi
        obtain ⟨hdiv, -⟩ := piece_page va hi
        refine ⟨(userEntry_eq_some.1 ((userEntry_page hdiv).trans he)).1, e, ?_, hU, hW⟩
        rw [hdiv]
        exact hlv
      have hassoc : (fun i => src (pos + piece va len + i)) = fun i => src (pos + (piece va len + i)) := by
        funext i
        rw [Nat.add_assoc]
      rw [hassoc] at hc
      refine ⟨piece va len + j, t, ?_, .cons hpage hacc, .cons h he hacc.le hc⟩
      have hret : piece va len + j = len ↔ j = len - piece va len := by omega
      rw [copyoutLoop_good h hpos he hW, hrun]
      simp only [hret]
    · refine ⟨0, s, ?_, .none hw, .nil s r va _⟩
      rw [copyoutLoop_bad h hpos hw, if_neg (by omega)]

end

/-! ## `copyin` -/

/-- **`j` bytes from `va` have been copied to the buffer `dst` from the offset `pos` on.** -/
structure CopiedIn (m : ℕ → UInt8) (r va : ℕ) (dst dst' : ℕ → UInt8) (pos j : ℕ) : Prop where
  bytes : ∀ i < j, userByte m r (va + i) = some (dst' (pos + i))
  rest : ∀ x, ¬ (pos ≤ x ∧ x < pos + j) → dst' x = dst x

theorem CopiedIn.nil (m : ℕ → UInt8) (r va : ℕ) (dst : ℕ → UInt8) (pos : ℕ) :
    CopiedIn m r va dst dst pos 0 :=
  ⟨fun _ hi => absurd hi (not_lt_zero _), fun _ _ => rfl⟩

/-- A piece comes from the first page, then the rest from the pages after it. -/
theorem CopiedIn.cons {dst dst' : ℕ → UInt8} {pos : ℕ} (he : userEntry m r va = some e)
    (hj : j ≤ len - piece va len)
    (hc : CopiedIn m r (pgrounddown va + PGSIZE)
      (put dst pos (piece va len) fun i => m (pte2pa e + va % PGSIZE + i)) dst'
      (pos + piece va len) j) : CopiedIn m r va dst dst' pos (piece va len + j) := by
  refine ⟨fun i hi => ?_, fun x hx => ?_⟩
  · by_cases hip : i < piece va len
    · unfold userByte
      rw [userAddr_piece he hip, map_some, hc.rest _ (by omega), put_add hip]
    · obtain ⟨k, rfl⟩ := Nat.exists_eq_add_of_le (not_lt.1 hip)
      rw [piece_next va k (by omega), ← add_assoc pos]
      exact hc.bytes k (by omega)
  · rw [hc.rest x (by omega), put_of_not (by omega)]

theorem copyinLoop_run (h : Regular s.mem r) (hnz : NotAtZero s.mem r) (fuel va len pos : ℕ)
    (dst : ℕ → UInt8) (hlen : len ≤ fuel) :
    ∃ j dst', (copyinLoop r fuel va len pos dst).run s = .ok ((if j = len then 0 else -1, dst'), s) ∧
      Accessible (Readable s.mem r) va len j ∧ CopiedIn s.mem r va dst dst' pos j := by
  induction fuel generalizing va len pos dst with
  | zero =>
    obtain rfl := Nat.le_zero.1 hlen
    exact ⟨0, dst, rfl, .empty _ va, .nil s.mem r va dst pos⟩
  | succ fuel ih =>
    rcases Nat.eq_zero_or_pos len with rfl | hpos
    · exact ⟨0, dst, rfl, .empty _ va, .nil s.mem r va dst pos⟩
    rw [copyinLoop, if_pos hpos, Wp.run_bind_eq (walkaddr_run h), userEntry_page (pgrounddown_div va)]
    cases he : userEntry s.mem r va with
    | none =>
      refine ⟨0, dst, ?_, .none fun hr => ?_, .nil s.mem r va dst pos⟩
      · rw [if_neg (show ¬ 0 = len by omega)]
        rfl
      · obtain ⟨e, he'⟩ := readable_iff.1 hr
        rw [he] at he'
        contradiction
    | some e =>
      obtain ⟨hva, -, -⟩ := userEntry_eq_some.1 he
      have hple := piece_le va len
      have hppos := piece_pos va hpos
      obtain ⟨j, dst', hrun, hacc, hc⟩ := ih (pgrounddown va + PGSIZE) (len - piece va len)
        (pos + piece va len)
        (put dst pos (piece va len) fun i => s.mem (pte2pa e + va % PGSIZE + i)) (by omega)
      have hpage : ∀ i < piece va len, Readable s.mem r (va + i) := fun i hi =>
        readable_iff.2 ⟨e, (userEntry_page (piece_page va hi).1).trans he⟩
      refine ⟨piece va len + j, dst', ?_, .cons hpage hacc, .cons he hacc.le hc⟩
      have hret : piece va len + j = len ↔ j = len - piece va len := by omega
      rw [elim_some, if_neg (hnz va e he), sub_pgrounddown, next_page hva]
      simp only [hret]
      exact hrun

/-! ## Both -/

theorem copyout_run (h : UserPages s.mem r) (va : ℕ) (src : ℕ → UInt8) (len : ℕ) :
    ∃ j t, (copyout r va src len).run s = .ok (if j = len then 0 else -1, t) ∧
      Accessible (Writable s.mem r) va len j ∧ CopiedOut s t r va src j := by
  obtain ⟨j, t, hrun, hacc, hc⟩ := copyoutLoop_run h src len va len 0 le_rfl
  simp only [zero_add] at hc
  exact ⟨j, t, hrun, hacc, hc⟩

theorem copyin_run (h : Regular s.mem r) (hnz : NotAtZero s.mem r) (va : ℕ) (dst : ℕ → UInt8) (len : ℕ) :
    ∃ j dst', (copyin r dst va len).run s = .ok ((if j = len then 0 else -1, dst'), s) ∧
      Accessible (Readable s.mem r) va len j ∧ CopiedIn s.mem r va dst dst' 0 j :=
  copyinLoop_run h hnz len va len 0 dst le_rfl

theorem mem_userPageSet {a : ℕ} (h : userAddr m r va = some a) : pgrounddown a ∈ userPageSet m r := by
  obtain ⟨e, he, rfl⟩ := map_eq_some_iff.1 h
  refine ⟨va, e, he, (pgrounddown_of_lt (pte2pa_aligned e) (Nat.le_add_right _ _) ?_).symm⟩
  exact Nat.add_lt_add_left (Nat.mod_lt _ (by decide)) _

theorem CopiedOut.userPages (h : UserPages s.mem r) (hc : CopiedOut s t r va src j) :
    UserPages t.mem r := by
  refine (h.write fun a ha => hc.rest a fun i _ hai => ?_).2
  exact ha (mem_userPageSet hai)

theorem returned_cases (j len : ℕ) : ((if j = len then (0 : ℤ) else -1) = 0 ↔ j = len) ∧
    ((if j = len then (0 : ℤ) else -1) = 0 ∨ (if j = len then (0 : ℤ) else -1) = -1) := by
  split_ifs with hj <;> simp [hj]

/-- **Copies to and from user memory.** For every page table whose user pages are different pages of
physical memory, every address and every length: `copyout` returns 0 exactly if every page of the range
is below `MAXVA` and mapped with V, U and W, and `copyin` exactly if every page is below `MAXVA` and
mapped with V and U. They transfer the `j` bytes of the range before the first page for which this does
not hold (all of them on success), and touch nothing else; and what has been copied out is copied in
again. -/
theorem user_copies {s : PhysMem} {r : ℕ} (h : UserPages s.mem r) (va len : ℕ) :
    (∀ src, ∃ ret t j, (copyout r va src len).run s = .ok (ret, t) ∧
      (ret = 0 ∨ ret = -1) ∧ (ret = 0 ↔ ∀ i < len, Writable s.mem r (va + i)) ∧ (ret = 0 ↔ j = len) ∧
      Accessible (Writable s.mem r) va len j ∧ CopiedOut s t r va src j ∧
      (ret = 0 → ∀ dst, ∃ dst', (copyin r dst va len).run t = .ok ((0, dst'), t) ∧
        (∀ i < len, dst' i = src i) ∧ ∀ i, len ≤ i → dst' i = dst i)) ∧
    (∀ dst, ∃ ret dst' j, (copyin r dst va len).run s = .ok ((ret, dst'), s) ∧
      (ret = 0 ∨ ret = -1) ∧ (ret = 0 ↔ ∀ i < len, Readable s.mem r (va + i)) ∧ (ret = 0 ↔ j = len) ∧
      Accessible (Readable s.mem r) va len j ∧ CopiedIn s.mem r va dst dst' 0 j) := by
  constructor
  · intro src
    obtain ⟨j, t, hrun, hacc, hc⟩ := copyout_run h va src len
    obtain ⟨hret, hcase⟩ := returned_cases j len
    refine ⟨_, t, j, hrun, hcase, hret.trans hacc.eq_len_iff, hret, hacc, hc, fun hz dst => ?_⟩
    -- every byte of the range can be read as well
    obtain rfl := hret.1 hz
    have ht := hc.userPages h
    obtain ⟨i, dst', hrun', hacc', hc'⟩ := copyin_run ht.regular ht.notAtZero va dst j
    have hread : ∀ i < j, Readable t.mem r (va + i) := by
      intro i hi
      have hw := hacc.good i hi
      unfold Writable at hw
      rw [← hc.lookup] at hw
      exact Writable.readable hw
    obtain rfl := hacc'.eq_len_iff.2 hread
    rw [if_pos rfl] at hrun'
    refine ⟨dst', hrun', fun k hk => ?_, fun k hk => hc'.rest k (by omega)⟩
    have hbyte := (hc'.bytes k hk).symm.trans (hc.bytes k hk)
    rw [zero_add] at hbyte
    exact some.inj hbyte
  · intro dst
    obtain ⟨j, dst', hrun, hacc, hc⟩ := copyin_run h.regular h.notAtZero va dst len
    obtain ⟨hret, hcase⟩ := returned_cases j len
    exact ⟨_, dst', j, hrun, hcase, hret.trans hacc.eq_len_iff, hret, hacc, hc⟩

/-- A page table that is made after boot, with a page that users can read and write. -/
def firstPage (k : KernelImage) : VmM (Option (ℕ × ℤ)) := do
  kinit k
  match ← uvmcreate with
  | none => pure none
  | some r => do
    match ← kalloc with
    | none => pure none
    | some p => do
      let ret ← mappages r 0 PGSIZE p (PTE_R ||| PTE_W ||| PTE_U)
      pure (some (r, ret))

theorem firstPage_spec (k : KernelImage) : Wp (firstPage k) (fun o s => ∀ r, o = some (r, 0) →
    UserPages s.mem r ∧ Writable s.mem r 0) (fun _ => True) .zero := by
  refine (kinit_spec rfl).bind fun _ s1 ⟨F1, h1, _⟩ => ?_
  refine (uvmcreate_spec h1).bind fun o s2 ho => ?_
  rcases ho with ⟨rfl, -, -⟩ | ⟨r, F2, -, rfl, h2, htab, hlook, -⟩
  · exact Wp.pure fun r hr => by contradiction
  refine (kalloc_spec h2.free).bind fun o s3 ho => ?_
  rcases ho with ⟨rfl, -, -⟩ | ⟨p, F3, rfl, rfl, hfree, hk⟩
  · exact Wp.pure fun r hr => by contradiction
  obtain ⟨-, -, hpF, hpage⟩ := h2.free.cons
  have hp : ∀ t ∈ tables s2.mem r, t ≠ p := fun t ht htp => h2.apart t ht (htp ▸ List.mem_cons_self)
  obtain ⟨h3, htab3, hlook3⟩ := h2.frame hk hp hfree fun t ht hF =>
    h2.apart t ht (List.mem_cons_of_mem p hF)
  have hperm : PTE_R ||| PTE_W ||| PTE_U < 2 ^ 10 := by decide
  have hmap := h3.mapPage_spec 0 hperm hpage.lt_64
  rw [zero_mul] at hmap
  refine (hmap.mono_err fun _ _ => trivial).bind fun ret s4 hs4 => Wp.pure fun r' hr => ?_
  rw [some.injEq, Prod.mk.injEq] at hr
  obtain ⟨rfl, rfl⟩ := hr
  obtain ⟨F4, j, hg, hlook4, ⟨-, rfl, -⟩ | ⟨hret, -⟩⟩ := hs4
  · rw [hlook3, hlook] at hlook4
    have hpa : pte2pa (mapEntry p (PTE_R ||| PTE_W ||| PTE_U) 0) = p := by
      have := pte2pa_mapEntry hperm hpage.aligned (j := 0) (by have := hpage.lt_64; omega)
      rwa [zero_mul, add_zero] at this
    have huser : ∀ va e, userEntry s4.mem r va = some e → va / PGSIZE = 0 ∧ pte2pa e = p := by
      intro va e he
      obtain ⟨-, he, -⟩ := userEntry_eq_some.1 he
      rw [hlook4] at he
      unfold mapped at he
      split_ifs at he with hva
      rw [some.injEq] at he
      obtain hz : va / PGSIZE = 0 := by omega
      rw [hz] at he
      exact ⟨hz, he ▸ hpa⟩
    have hflag : ∀ i < 10, (mapEntry p (PTE_R ||| PTE_W ||| PTE_U) 0).testBit i =
        (PTE_R ||| PTE_W ||| PTE_U ||| PTE_V).testBit i := by
      intro i hi
      rw [← testBit_pteFlags _ hi, pteFlags_mapEntry hperm]
    refine ⟨⟨hg.table.inner, hg.table.root_page.aligned, fun va e he => ?_, fun va e he => ?_,
      fun va va' e e' he he' _ => ?_⟩, by decide, mapEntry p (PTE_R ||| PTE_W ||| PTE_U) 0, ?_, ?_, ?_⟩
    · rw [(huser va e he).2]
      exact hpage.ne_zero
    · rw [(huser va e he).2, hg.tables, htab3]
      rintro (ht | ht)
      · exact hp p ht rfl
      · exact hpF ht.1
    · rw [(huser va e he).1, (huser va' e' he').1]
    · rw [hlook4]
      exact if_pos ⟨le_rfl, one_pos⟩
    · exact (has_iff _ 4).2 ((hflag 4 (by decide)).trans (by decide))
    · exact (has_iff _ 2).2 ((hflag 2 (by decide)).trans (by decide))
  · contradiction

theorem exists_userPages : ∃ (s : PhysMem) (r : ℕ), UserPages s.mem r ∧ Writable s.mem r 0 := by
  have hrun : ((firstPage .small).run .zero).toOption.map Prod.fst =
      some (some (PHYSTOP - PGSIZE, 0)) := by decide +kernel
  obtain ⟨s, -, hpost⟩ := (firstPage_spec .small).exists_of_value hrun
  exact ⟨s, _, hpost _ rfl⟩

/-- A byte can be copied to address 0 of such a page table, and none from `MAXVA`. -/
theorem user_copies_one : ∃ (s : PhysMem) (r : ℕ), UserPages s.mem r ∧
    (∀ src, ∃ t, (copyout r 0 src 1).run s = .ok (0, t)) ∧
    ∀ dst, ∃ ret dst', (copyin r dst MAXVA 1).run s = .ok ((ret, dst'), s) ∧ ret = -1 := by
  obtain ⟨s, r, h, hw⟩ := exists_userPages
  refine ⟨s, r, h, fun src => ?_, fun dst => ?_⟩
  · obtain ⟨ret, t, j, hrun, -, hret, -⟩ := (user_copies h 0 1).1 src
    obtain rfl := hret.2 fun i hi => by
      obtain rfl : i = 0 := by omega
      exact hw
    exact ⟨t, hrun⟩
  · obtain ⟨ret, dst', j, hrun, hcase, hret, -⟩ := (user_copies h MAXVA 1).2 dst
    refine ⟨ret, dst', hrun, hcase.resolve_left fun hz => ?_⟩
    exact absurd ((hret.1 hz) 0 one_pos).1 (by decide)

/-! ## `copyinstr` -/

/-- **There is a string of `k` bytes at `va`**: the bytes up to its NUL are in user pages, and no byte
before is NUL. -/
def StringAt (m : ℕ → UInt8) (r va k : ℕ) : Prop :=
  userByte m r (va + k) = some 0 ∧ ∀ i < k, ∃ b, b ≠ 0 ∧ userByte m r (va + i) = some b

theorem StringAt.unique {k k' : ℕ} (h : StringAt m r va k) (h' : StringAt m r va k') : k = k' := by
  rcases lt_trichotomy k k' with hlt | rfl | hlt
  · obtain ⟨b, hb, hbyte⟩ := h'.2 k hlt
    rw [h.1] at hbyte
    exact absurd (some.inj hbyte).symm hb
  · rfl
  · obtain ⟨b, hb, hbyte⟩ := h.2 k' hlt
    rw [h'.1] at hbyte
    exact absurd (some.inj hbyte).symm hb

theorem StringAt.readable {k : ℕ} (h : StringAt m r va k) (hi : i ≤ k) : Readable m r (va + i) := by
  rw [readable_iff_byte]
  rcases lt_or_eq_of_le hi with hlt | rfl
  · obtain ⟨b, -, hb⟩ := h.2 i hlt
    exact ⟨b, hb⟩
  · exact ⟨0, h.1⟩

theorem put_update (m dst : ℕ → UInt8) (p pos j : ℕ) :
    put (Function.update dst pos (m p)) (pos + 1) j (fun i => m (p + 1 + i)) =
      put dst pos (j + 1) fun i => m (p + i) := by
  rw [← put_succ]
  congr 1
  funext i
  congr 1
  omega

/-- The inner loop stops at a NUL or after `n` bytes. -/
theorem copyPiece_cases (m : ℕ → UInt8) (n p : ℕ) (c : StrCopy) :
    (∃ k < n, m (p + k) = 0 ∧ (∀ i < k, m (p + i) ≠ 0) ∧ (copyPiece m n p c).gotNull = true ∧
      (copyPiece m n p c).dst = put c.dst c.pos (k + 1) fun i => m (p + i)) ∨
    ((∀ i < n, m (p + i) ≠ 0) ∧ copyPiece m n p c =
      ⟨c.gotNull, c.max - n, c.pos + n, put c.dst c.pos n fun i => m (p + i)⟩) := by
  induction n generalizing p c with
  | zero =>
    refine .inr ⟨fun i hi => absurd hi (not_lt_zero i), ?_⟩
    have hnone : put c.dst c.pos 0 (fun i => m (p + i)) = c.dst := by
      funext x
      exact put_of_not (by omega)
    rw [hnone]
    rfl
  | succ n ih =>
    rw [copyPiece]
    by_cases hz : m p = 0
    · refine .inl ⟨0, succ_pos n, hz, fun i hi => absurd hi (not_lt_zero i), ?_, ?_⟩
      · rw [if_pos hz]
      · rw [if_pos hz, ← put_update, hz]
        funext x
        exact (put_of_not (by omega)).symm
    · rw [if_neg hz]
      have hall : ∀ {j}, (∀ i < j, m (p + 1 + i) ≠ 0) → ∀ i < j + 1, m (p + i) ≠ 0 := by
        intro j hj i hi
        cases i with
        | zero => exact hz
        | succ i =>
          rw [show p + (i + 1) = p + 1 + i by omega]
          exact hj i (by omega)
      rcases ih (p + 1) ⟨c.gotNull, c.max - 1, c.pos + 1, Function.update c.dst c.pos (m p)⟩
        with ⟨k, hk, hnul, hnon, hgot, hdst⟩ | ⟨hnon, hc⟩
      · refine .inl ⟨k + 1, by omega, ?_, hall hnon, hgot, ?_⟩
        · rw [show p + (k + 1) = p + 1 + k by omega]
          exact hnul
        · rw [hdst, put_update]
      · refine .inr ⟨hall hnon, ?_⟩
        rw [hc, put_update, show c.max - 1 - n = c.max - (n + 1) by omega,
          show c.pos + 1 + n = c.pos + (n + 1) by omega]

theorem copyinstrLoop_done {c : StrCopy} (h : c.gotNull = true) (r fuel va : ℕ) (s : PhysMem) :
    (copyinstrLoop r fuel va c).run s = .ok ((0, c.dst), s) := by
  cases fuel with
  | zero =>
    rw [copyinstrLoop, h]
    rfl
  | succ fuel =>
    rw [copyinstrLoop, if_neg (by simp [h]), h]
    rfl

theorem userByte_piece (he : userEntry m r va = some e) (hi : i < piece va len) :
    userByte m r (va + i) = some (m (pte2pa e + va % PGSIZE + i)) := by
  unfold userByte
  rw [userAddr_piece he hi]
  rfl

theorem copyinstrLoop_run (h : Regular s.mem r) (hnz : NotAtZero s.mem r) (fuel va : ℕ) (c : StrCopy)
    (hgot : c.gotNull = false) (hfuel : c.max < fuel) :
    ∃ dst', (∃ k < c.max, StringAt s.mem r va k ∧
        (copyinstrLoop r fuel va c).run s = .ok ((0, dst'), s) ∧
        CopiedIn s.mem r va c.dst dst' c.pos (k + 1)) ∨
      ((∀ k < c.max, ¬ StringAt s.mem r va k) ∧
        (copyinstrLoop r fuel va c).run s = .ok ((-1, dst'), s) ∧
        ∀ x, ¬ (c.pos ≤ x ∧ x < c.pos + c.max) → dst' x = c.dst x) := by
  induction fuel generalizing va c with
  | zero => exact absurd hfuel (Nat.not_lt_zero _)
  | succ fuel ih =>
    rcases Nat.eq_zero_or_pos c.max with hmax | hmax
    · refine ⟨c.dst, .inr ⟨fun k hk => absurd hk (by omega), ?_, fun _ _ => rfl⟩⟩
      rw [copyinstrLoop, if_neg (by omega), hgot]
      rfl
    rw [copyinstrLoop, if_pos ⟨hgot, hmax⟩, Wp.run_bind_eq (walkaddr_run h),
      userEntry_page (pgrounddown_div va)]
    cases he : userEntry s.mem r va with
    | none =>
      refine ⟨c.dst, .inr ⟨fun k hk hstr => ?_, rfl, fun _ _ => rfl⟩⟩
      obtain ⟨e, he'⟩ := readable_iff.1 (hstr.readable (Nat.zero_le k))
      rw [Nat.add_zero, he] at he'
      contradiction
    | some e =>
      obtain ⟨hva, -, -⟩ := userEntry_eq_some.1 he
      have hple := piece_le va c.max
      have hppos := piece_pos va hmax
      have hbyte : ∀ {i}, i < piece va c.max → userByte s.mem r (va + i) =
          some (s.mem (pte2pa e + va % PGSIZE + i)) := fun hi => userByte_piece he hi
      rw [elim_some, if_neg (hnz va e he), sub_pgrounddown, next_page hva]
      show ∃ dst', (∃ k < c.max, _ ∧ (copyinstrLoop r fuel (pgrounddown va + PGSIZE)
        (copyPiece s.mem (piece va c.max) (pte2pa e + va % PGSIZE) c)).run s = _ ∧ _) ∨
        (_ ∧ (copyinstrLoop r fuel (pgrounddown va + PGSIZE)
          (copyPiece s.mem (piece va c.max) (pte2pa e + va % PGSIZE) c)).run s = _ ∧ _)
      rcases copyPiece_cases s.mem (piece va c.max) (pte2pa e + va % PGSIZE) c with
        ⟨k, hk, hnul, hnon, hgot', hdst⟩ | ⟨hnon, hc⟩
      · -- the NUL is in this page
        refine ⟨_, .inl ⟨k, by omega, ⟨?_, fun i hi => ?_⟩, copyinstrLoop_done hgot' .., ?_⟩⟩
        · rw [hbyte hk, hnul]
        · exact ⟨_, hnon i hi, hbyte (by omega)⟩
        · rw [hdst]
          refine ⟨fun i hi => ?_, fun x hx => put_of_not hx⟩
          rw [hbyte (by omega), put_add hi]
      · -- the string goes on in the next page
        rw [hc]
        obtain ⟨dst', hcase⟩ := ih (pgrounddown va + PGSIZE) ⟨c.gotNull, c.max - piece va c.max,
          c.pos + piece va c.max, _⟩ hgot (show c.max - piece va c.max < fuel by omega)
        refine ⟨dst', hcase.imp ?_ ?_⟩
        · rintro ⟨k, hk, ⟨hz, hnz⟩, hrun, hcopied⟩
          have hk' : k < c.max - piece va c.max := hk
          have hlt : piece va c.max < c.max := by omega
          refine ⟨piece va c.max + k, by omega, ⟨?_, fun i hi => ?_⟩, hrun, ?_⟩
          · rw [piece_next va k hlt]
            exact hz
          · by_cases hip : i < piece va c.max
            · exact ⟨_, hnon i hip, hbyte hip⟩
            · obtain ⟨j, rfl⟩ := Nat.exists_eq_add_of_le (not_lt.1 hip)
              rw [piece_next va j hlt]
              exact hnz j (by omega)
          · exact CopiedIn.cons he (by omega) hcopied
        · rintro ⟨hnone, hrun, hrest⟩
          refine ⟨fun k hk hstr => ?_, hrun, fun x hx => ?_⟩
          · by_cases hkp : k < piece va c.max
            · have := hstr.1
              rw [hbyte hkp] at this
              exact hnon k hkp (some.inj this)
            · obtain ⟨j, rfl⟩ := Nat.exists_eq_add_of_le (not_lt.1 hkp)
              have hlt : piece va c.max < c.max := by omega
              refine hnone j (show j < c.max - piece va c.max by omega) ⟨?_, fun i hi => ?_⟩
              · rw [← piece_next va j hlt]
                exact hstr.1
              · rw [← piece_next va i hlt]
                exact hstr.2 _ (by omega)
          · have hx' : ¬ (c.pos + piece va c.max ≤ x ∧
                x < c.pos + piece va c.max + (c.max - piece va c.max)) := by omega
            have hpiece : ¬ (c.pos ≤ x ∧ x < c.pos + piece va c.max) := by omega
            rw [hrest x hx']
            dsimp only
            exact put_of_not hpiece

/-- `strlen` finds the NUL that has been copied. -/
theorem strlen_eq {buf : ℕ → UInt8} {k : ℕ} (hk : k < max) (hz : buf k = 0) (hnz : ∀ i < k, buf i ≠ 0) :
    strlen buf max = some k := by
  unfold strlen
  rw [List.find?_range_eq_some]
  refine ⟨by simpa using hz, List.mem_range.2 hk, fun j hj => ?_⟩
  simpa using hnz j hj

/-- **`copyinstr` is exact.** It returns 0 exactly if there is a string of less than `max` bytes at `va`,
and then the buffer has the string with its NUL and is the same beyond; otherwise it returns -1, and
nothing is written beyond the first `max` bytes. So `fetchstr` and `argstr` return the length of the
string. -/
theorem copyinstr_exact {s : PhysMem} {r : ℕ} (h : Regular s.mem r) (hnz : NotAtZero s.mem r)
    (va max : ℕ) (dst : ℕ → UInt8) :
    ∃ ret dst', (copyinstr r dst va max).run s = .ok ((ret, dst'), s) ∧ (ret = 0 ∨ ret = -1) ∧
      (ret = 0 ↔ ∃ k < max, StringAt s.mem r va k) ∧
      (∀ k < max, StringAt s.mem r va k →
        (∀ i ≤ k, userByte s.mem r (va + i) = some (dst' i)) ∧ ∀ i, k < i → dst' i = dst i) ∧
      (∀ i, max ≤ i → dst' i = dst i) ∧
      ∀ (a : Fin 6 → ℕ) (n : Fin 6), a n = va → ∃ len,
        (fetchstr r va dst max).run s = .ok ((len, dst'), s) ∧
        (argstr r a n dst max).run s = .ok ((len, dst'), s) ∧
        (∀ k < max, StringAt s.mem r va k → len = k) ∧
        ((∀ k < max, ¬ StringAt s.mem r va k) → len = -1) := by
  obtain ⟨dst', ⟨k, hk, hstr, hrun, hc⟩ | ⟨hnone, hrun, hrest⟩⟩ :=
    copyinstrLoop_run h hnz (max + 1) va ⟨false, max, 0, dst⟩ rfl (lt_succ_self max)
  · have hrun' : (copyinstr r dst va max).run s = .ok ((0, dst'), s) := hrun
    have hc' : CopiedIn s.mem r va dst dst' 0 (k + 1) := hc
    have huniq : ∀ k' < max, StringAt s.mem r va k' → k' = k := fun k' _ hk' => hk'.unique hstr
    have hbytes : ∀ i ≤ k, userByte s.mem r (va + i) = some (dst' i) := by
      intro i hi
      have := hc'.bytes i (by omega)
      rwa [zero_add] at this
    refine ⟨0, dst', hrun', .inl rfl, ⟨fun _ => ⟨k, hk, hstr⟩, fun _ => rfl⟩, ?_, ?_, ?_⟩
    · intro k' hk' hstr'
      obtain rfl := huniq k' hk' hstr'
      exact ⟨hbytes, fun i hi => hc'.rest i (by omega)⟩
    · intro i hi
      have hk' : k < max := hk
      exact hc'.rest i (by omega)
    · rintro a n rfl
      have hlen : strlen dst' max = some k := by
        refine strlen_eq hk ?_ fun i hi => ?_
        · have := (hbytes k le_rfl).symm.trans hstr.1
          exact some.inj this
        · obtain ⟨b, hb, hbyte⟩ := hstr.2 i hi
          rw [hbytes i hi.le, some.injEq] at hbyte
          rwa [hbyte]
      have hfetch : (fetchstr r (a n) dst max).run s = .ok ((k, dst'), s) := by
        unfold fetchstr
        rw [Wp.run_bind_eq hrun']
        dsimp only
        rw [if_neg (by decide), hlen]
        rfl
      refine ⟨k, hfetch, hfetch, fun k' hk' hstr' => ?_, fun hn => absurd hstr (hn k hk)⟩
      rw [huniq k' hk' hstr']
  · have hrun' : (copyinstr r dst va max).run s = .ok ((-1, dst'), s) := hrun
    refine ⟨-1, dst', hrun', .inr rfl, ⟨fun hz => absurd hz (by decide), ?_⟩, ?_, ?_, ?_⟩
    · rintro ⟨k, hk, hstr⟩
      exact absurd hstr (hnone k hk)
    · intro k hk hstr
      exact absurd hstr (hnone k hk)
    · intro i hi
      exact hrest i (by show ¬ (0 ≤ i ∧ i < 0 + max); omega)
    · rintro a n rfl
      have hfetch : (fetchstr r (a n) dst max).run s = .ok ((-1, dst'), s) := by
        unfold fetchstr
        rw [Wp.run_bind_eq hrun']
        rfl
      exact ⟨-1, hfetch, hfetch, fun k hk hstr => absurd hstr (hnone k hk), fun _ => rfl⟩

/-- There is no string at `MAXVA`. -/
theorem copyinstr_exact_maxva : ∃ (s : PhysMem) (r : ℕ), Regular s.mem r ∧ NotAtZero s.mem r ∧
    Readable s.mem r 0 ∧ ∀ dst, ∃ dst', (copyinstr r dst MAXVA 8).run s = .ok ((-1, dst'), s) := by
  obtain ⟨s, r, h, hw⟩ := exists_userPages
  refine ⟨s, r, h.regular, h.notAtZero, hw.readable, fun dst => ?_⟩
  obtain ⟨ret, dst', hrun, hcase, hret, -⟩ := copyinstr_exact h.regular h.notAtZero MAXVA 8 dst
  obtain rfl : ret = -1 := hcase.resolve_left fun hz => by
    obtain ⟨k, -, hstr⟩ := hret.1 hz
    exact absurd (hstr.readable (zero_le k)).1 (by decide)
  exact ⟨dst', hrun⟩

end Vm

end Xv6
