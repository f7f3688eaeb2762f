import Xv6.Fs.DirectoryProof

/-!
# References to inodes, run by run

In a settled state `iget`, `idup`, `ilock` and `iput` have exactly one result: the state with
another entry in the inode table (`take`, `load`, `put`), or a panic that the state tells in advance
(`Room`, `Live`). A reference that is taken and dropped again leaves the state as it was.
-/

open Function Option

namespace Xv6

open FsState Volume

variable {P : Type}

namespace FsState

variable {s t : FsState P} {i j : ℕ} {e : Entry} {o : Option Entry}

/-- There is an entry of the inode table for inode `j`. -/
def Room (s : FsState P) (j : ℕ) : Prop := s.itable j ≠ none ∨ s.nentries < NINODE

def take (s : FsState P) (j : ℕ) : FsState P := s.setEntry j (some (Fs.newEntry (s.itable j)))

def put (s : FsState P) (j : ℕ) : FsState P :=
  s.setEntry j ((s.itable j).bind fun e => if e.ref = 1 then none else some { e with ref := e.ref - 1 })

/-- Inode `j` has been read. -/
def load (s : FsState P) (j : ℕ) : FsState P :=
  s.setEntry j ((s.itable j).map fun e => { e with valid := true, din := s.eff j })

theorem setEntry_self (s : FsState P) (i : ℕ) : s.setEntry i (s.itable i) = s := by
  unfold setEntry
  rw [update_eq_self]

theorem setEntry_setEntry (s : FsState P) (i : ℕ) (o o' : Option Entry) :
    (s.setEntry i o).setEntry i o' = s.setEntry i o' := by
  unfold setEntry
  rw [update_idem]

/-- **A reference that is taken and dropped again.** -/
theorem put_take (hpos : ∀ e, s.itable j = some e → 0 < e.ref) : (s.take j).put j = s := by
  unfold put take
  rw [setEntry_setEntry, setEntry_itable_self, bind_some]
  cases he : s.itable j with
  | none =>
    rw [show (Fs.newEntry none).ref = 1 from rfl, if_pos rfl, ← he, setEntry_self]
  | some e =>
    have := hpos e he
    rw [show (Fs.newEntry (some e)).ref = e.ref + 1 from rfl, if_neg (by omega),
      show ({ Fs.newEntry (some e) with ref := e.ref + 1 - 1 } : Entry) = e from rfl, ← he,
        setEntry_self]

/-! ## Reference counts -/

theorem ref_of_none (h : s.itable j = none) : s.ref j = 0 := by
  unfold ref
  rw [h]

theorem Settled.ref_pos_iff (h : s.Settled) : 0 < s.ref j ↔ s.itable j ≠ none := by
  cases he : s.itable j with
  | none => simp [ref_of_none he]
  | some e => simp [Rep.ref_eq he, h.pos j e he]

theorem ref_setEntry (s : FsState P) (i : ℕ) (o : Option Entry) :
    (s.setEntry i o).ref = update s.ref i (o.elim 0 Entry.ref) := by
  funext j
  unfold ref
  by_cases hj : j = i
  · subst hj
    rw [setEntry_itable_self, update_self]
    cases o <;> rfl
  · rw [setEntry_itable_of_ne s o hj, update_of_ne hj]

theorem ref_take (s : FsState P) (j : ℕ) : (s.take j).ref = update s.ref j (s.ref j + 1) := by
  unfold take
  rw [ref_setEntry]
  congr 1
  unfold ref
  cases s.itable j <;> rfl

theorem le_ref_take (s : FsState P) (i j : ℕ) : s.ref i ≤ (s.take j).ref i := by
  rw [ref_take, update_apply]
  split_ifs with h
  · rw [h]
    exact Nat.le_succ _
  · exact le_rfl

theorem ref_load (s : FsState P) (j : ℕ) : (s.load j).ref = s.ref := by
  unfold load
  rw [ref_setEntry]
  refine update_eq_self_iff.2 ?_
  unfold ref
  cases s.itable j <;> rfl

theorem ref_put (s : FsState P) (j : ℕ) : (s.put j).ref = update s.ref j (s.ref j - 1) := by
  unfold put
  rw [ref_setEntry]
  congr 1
  unfold ref
  cases s.itable j with
  | none => rfl
  | some e =>
    show (if e.ref = 1 then none else some { e with ref := e.ref - 1 } : Option Entry).elim 0
      Entry.ref =
      e.ref - 1
    split_ifs with h1
    · rw [h1]
      rfl
    · rfl

/-! ## Inodes that have been read -/

theorem Valid.take (h : s.Valid i) (j : ℕ) : (s.take j).Valid i := by
  obtain ⟨e, he, hval⟩ := h
  by_cases hij : i = j
  · subst hij
    refine ⟨Fs.newEntry (s.itable i), setEntry_itable_self .., ?_⟩
    rw [he]
    exact hval
  · exact ⟨e, (setEntry_itable_of_ne s _ hij).trans he, hval⟩

theorem Valid.setEntry_of_ne (h : s.Valid i) (hij : i ≠ j) (o : Option Entry) :
    (s.setEntry j o).Valid i := by
  obtain ⟨e, he, hval⟩ := h
  exact ⟨e, (setEntry_itable_of_ne s o hij).trans he, hval⟩

theorem valid_load (h : s.itable i ≠ none) : (s.load i).Valid i := by
  obtain ⟨e, he⟩ := ne_none_iff_exists'.1 h
  refine ⟨{ e with valid := true, din := s.eff i }, ?_, rfl⟩
  unfold load
  rw [setEntry_itable_self, he]
  rfl

theorem Kept.ref (h : Kept i s t) (hi : s.itable i ≠ none) : t.ref = s.ref := by
  funext j
  by_cases hj : j = i
  · subst hj
    obtain ⟨e, he⟩ := ne_none_iff_exists'.1 hi
    obtain ⟨d, hd⟩ := h.entry e he
    rw [Rep.ref_eq he, Rep.ref_eq hd]
  · unfold FsState.ref
    rw [h.itable j hj]

theorem Kept.valid_of_ne (h : Kept i s t) (hj : j ≠ i) (hv : s.Valid j) : t.Valid j := by
  obtain ⟨e, he, hval⟩ := hv
  exact ⟨e, (h.itable j hj).trans he, hval⟩

theorem itable_of_valid (h : s.Valid i) : s.itable i ≠ none := by
  obtain ⟨e, he, -⟩ := h
  rw [he]
  exact some_ne_none e

/-! ## Settled states -/

namespace Settled

theorem keep (h : s.Settled) {e' : Entry} (he : s.itable i = some e) (hd : e'.din = e.din)
    (hv : e'.valid = e.valid) (hval : e'.valid = true) : e'.din = s.dinode i ∧ s.vol.Live i := by
  rw [hv] at hval
  exact ⟨by rw [hd, h.saved i, eff_of_valid he hval], h.live i ⟨e, he, hval⟩⟩

section

variable (h : s.Settled) (j : ℕ)

include h

/-- The new entry of the table has nothing new about the inode. -/
theorem take_entry (e : Entry) (he : some (Fs.newEntry (s.itable j)) = some e) (hv : e.valid = true)
    : e.din = s.dinode j ∧ s.vol.Live j := by
  cases he
  cases hj : s.itable j with
  | none =>
    rw [hj] at hv
    exact absurd hv Bool.false_ne_true
  | some e =>
    rw [hj] at hv
    exact h.keep hj rfl rfl hv

theorem put_entry (e : Entry) (he : ((s.itable j).bind fun e =>
      if e.ref = 1 then none else some { e with ref := e.ref - 1 }) = some e) :
    0 < e.ref ∧ (e.valid = true → e.din = s.dinode j ∧ s.vol.Live j) := by
  cases hj : s.itable j with
  | none =>
    rw [hj] at he
    contradiction
  | some e0 =>
    rw [hj, bind_some] at he
    split_ifs at he with h1
    cases he
    have := h.pos j e0 hj
    exact ⟨by show 0 < e0.ref - 1; omega, fun hv => h.keep hj rfl rfl hv⟩

theorem load_entry (e : Entry) (he : ((s.itable j).map fun e =>
      { e with valid := true, din := s.eff j }) = some e) : 0 < e.ref ∧ e.din = s.dinode j := by
  cases hj : s.itable j with
  | none =>
    rw [hj] at he
    contradiction
  | some e0 =>
    rw [hj, map_some] at he
    cases he
    exact ⟨h.pos j e0 hj, (h.saved j).symm⟩

theorem vol_take : (s.take j).vol = s.vol :=
  vol_setEntry_of (h.saved j) fun e he hv => (h.take_entry j e he hv).1

theorem vol_put : (s.put j).vol = s.vol :=
  vol_setEntry_of (h.saved j) fun e he hv => ((h.put_entry j e he).2 hv).1

theorem vol_load : (s.load j).vol = s.vol :=
  vol_setEntry_of (h.saved j) fun e he _ => (h.load_entry j e he).2

theorem take : (s.take j).Settled := by
  refine h.setEntry (fun e he hv => h.take_entry j e he hv) fun e he => ?_
  cases he
  cases s.itable j with
  | none => exact Nat.one_pos
  | some e => exact Nat.succ_pos _

theorem put : (s.put j).Settled :=
  h.setEntry (fun e he => (h.put_entry j e he).2) fun e he => (h.put_entry j e he).1

end

theorem load (h : s.Settled) (hl : s.vol.Live j) : (s.load j).Settled :=
  h.setEntry (fun e he _ => ⟨(h.load_entry j e he).2, hl⟩) fun e he => (h.load_entry j e he).1

end Settled

end FsState

namespace Fs

open FsState

variable {s t : FsState P} {i j : ℕ} {e : Entry}

/-! ## Runs -/

theorem iget_run (h : s.Room j) : (iget j).run s = .ok ((), s.take j) := by
  unfold iget take
  rw [Wp.run_bind_eq (m := get) rfl]
  cases he : s.itable j with
  | some e => rfl
  | none =>
    have hlt : s.nentries < NINODE := h.resolve_left fun hne => hne he
    simp only [if_pos hlt]
    rfl

theorem iget_full (h : ¬ s.Room j) : (iget j).run s = .error .igetNoInodes := by
  have he : s.itable j = none := not_not.1 fun hne => h (.inl hne)
  have hge : ¬ s.nentries < NINODE := fun hlt => h (.inr hlt)
  unfold iget
  rw [Wp.run_bind_eq (m := get) rfl, he]
  simp only [if_neg hge]
  rfl

theorem iget_room (s : FsState P) (j : ℕ) :
    Wp (iget j) (fun _ t => s.Room j ∧ t = s.take j) (fun e => e = .igetNoInodes ∧ ¬ s.Room j) s := by
  by_cases hroom : s.Room j
  · exact Wp.of_run (iget_run hroom) ⟨hroom, rfl⟩
  · unfold Wp
    rw [iget_full hroom]
    exact ⟨rfl, hroom⟩

theorem idup_run (h : s.itable j ≠ none) : (idup j).run s = .ok ((), s.take j) := by
  obtain ⟨e, he⟩ := ne_none_iff_exists'.1 h
  unfold idup
  rw [Wp.run_bind_eq (entry_run he)]
  unfold take
  rw [he]
  rfl

theorem ilock_run (h : s.Settled) (hj : s.itable j ≠ none) (hl : s.vol.Live j) :
    (ilock j).run s = .ok ((), s.load j) := by
  obtain ⟨e, he⟩ := ne_none_iff_exists'.1 hj
  unfold ilock
  rw [Wp.run_bind_eq (entry_run he)]
  unfold load
  rw [he, map_some]
  split_ifs with hv
  · rw [eff_of_valid he hv]
    have hsame : ({ e with valid := true, din := e.din } : Entry) = e := by rw [← hv]
    rw [hsame, ← he, setEntry_self]
    rfl
  · have htype : (s.dinode j).type ≠ 0 := by
      rw [h.saved j]
      exact hl.2
    have hlt : j < s.sb.ninodes := hl.1
    rw [Wp.run_bind_eq (m := get) rfl, if_pos hlt, if_neg htype, h.saved j]
    rfl

theorem ilock_wp (h : s.Settled) (hj : s.itable j ≠ none) :
    Wp (ilock j) (fun _ t => s.vol.Live j ∧ t = s.load j)
      (fun e => ¬ s.vol.Live j ∧ (e = .ilockNoType ∨ e = .badInum)) s := by
  by_cases hl : s.vol.Live j
  · exact Wp.of_run (ilock_run h hj hl) ⟨hl, rfl⟩
  · obtain ⟨e, he⟩ := ne_none_iff_exists'.1 hj
    refine Wp.run_bind (entry_run he) (Wp.ite (fun hv => absurd (h.live j ⟨e, he, hv⟩) hl) fun _ => ?_)
    refine Wp.get_bind (Wp.ite (fun hlt => ?_) fun _ => Wp.throw ⟨hl, .inr rfl⟩)
    refine Wp.ite (fun _ => Wp.throw ⟨hl, .inl rfl⟩) fun hne => absurd ⟨hlt, ?_⟩ hl
    rw [h.saved j] at hne
    exact hne

/-- `iput` drops a reference, unless the inode is to be freed. -/
theorem iput_run (h : s.itable j ≠ none)
    (hkeep : ∀ e, s.itable j = some e → ¬ (e.ref = 1 ∧ e.valid = true ∧ e.din.nlink = 0)) :
    (iput j).run s = .ok ((), s.put j) := by
  obtain ⟨e, he⟩ := ne_none_iff_exists'.1 h
  unfold iput
  rw [Wp.run_bind_eq (entry_run he), if_neg (hkeep e he)]
  unfold put
  rw [he]
  rfl

theorem iput_stays (h : s.Settled) (hr : 0 < s.ref j) (hk : (s.vol.node j).nlink = 0 → 1 < s.ref j) :
    (iput j).run s = .ok ((), s.put j) := by
  refine iput_run (h.ref_pos_iff.1 hr) ?_
  rintro e he ⟨href, hv, hnlink⟩
  have hone : 1 < s.ref j := by
    refine hk ?_
    rw [node_nlink (h.live j ⟨e, he, hv⟩)]
    show (s.eff j).nlink = 0
    rw [eff_of_valid he hv]
    exact hnlink
  rw [Rep.ref_eq he, href] at hone
  exact absurd hone (Nat.lt_irrefl 1)

/-- What has just been taken is not the last reference to an inode that has been read. -/
theorem take_not_last (h : s.Settled) (he : (s.take j).itable j = some e) (href : e.ref = 1) :
    e.valid ≠ true := by
  unfold take at he
  rw [setEntry_itable_self] at he
  cases he
  cases hj : s.itable j with
  | none => exact Bool.false_ne_true
  | some e =>
    rw [hj] at href
    have := h.pos j e hj
    have href' : e.ref + 1 = 1 := href
    omega

theorem iput_take (h : s.Settled) (j : ℕ) : (iput j).run (s.take j) = .ok ((), s) := by
  have hentry : (s.take j).itable j = some (newEntry (s.itable j)) := setEntry_itable_self ..
  rw [iput_run (by rw [hentry]; exact some_ne_none _), put_take (h.pos j)]
  rintro e he ⟨href, hv, -⟩
  exact take_not_last h he href hv

/-- **An inode has been freed**: the file is gone, and so is the last reference to it. -/
structure Freed (i : ℕ) (s t : FsState P) : Prop where
  settled : t.Settled
  node : t.vol.node = update s.vol.node i .free
  ref : t.ref = update s.ref i 0
  addr : ∀ j n, j ≠ i → t.vol.addr (j, n) = s.vol.addr (j, n)
  itable : ∀ j, j ≠ i → t.itable j = s.itable j

/-- **The last reference to an inode without links is dropped.** -/
theorem iput_free (h : s.Settled) (hv : s.Valid i) (href : s.ref i = 1) (hn : (s.vol.node i).nlink =
    0) :
    Wp (iput i) (fun _ => Freed i s) (fun _ => False) s := by
  have hl := h.live i hv
  obtain ⟨e, he, hval⟩ := hv
  rw [Rep.ref_eq he] at href
  have hnlink : e.din.nlink = 0 := by
    rw [node_nlink hl] at hn
    rw [← eff_of_valid he hval]
    exact hn
  refine Wp.run_bind (entry_run he) ?_
  rw [if_pos ⟨href, hval, hnlink⟩]
  refine (itrunc_spec h.owned ⟨e, he, hval⟩ hl).bind fun _ s1 h1 => ?_
  obtain ⟨hc, htrunc, hblock⟩ := h1
  have hx : (⟨(s.eff i).type, (s.eff i).nlink, 0, fun _ => 0⟩ : Node).type ≠ 0 := hl.2
  have hs1 := h.changed ⟨e, he, hval⟩ hx hc
  have hv1 := hc.kept.valid ⟨e, he, hval⟩
  refine (updateInode_spec hv1 (hs1.live i hv1).1 _).bind fun _ s2 h2 => Wp.modify ?_
  rw [if_pos href]
  have hzero : ∀ n, (s1.eff i).addr n = 0 := fun n => by
    rw [htrunc]
    unfold Dinode.addr Dinode.truncated
    split_ifs <;> rfl
  obtain ⟨hs, hvol, hnode⟩ := hs1.freed hzero h2
  have htable : ∀ j, j ≠ i → (s2.setEntry i none).itable j = s.itable j := fun j hj => by
    rw [setEntry_itable_of_ne s2 none hj, h2.kept.itable j hj, hc.kept.itable j hj]
  refine ⟨hs, ?_, ?_, fun j n hj => ?_, htable⟩
  · rw [hnode, hc.node, update_idem]
  · funext j
    by_cases hj : j = i
    · subst hj
      rw [ref_setEntry, update_self, update_self]
      rfl
    · rw [update_of_ne hj]
      unfold ref
      rw [htable j hj]
  · rw [hvol, addr_setInode_of_ne hj]
    refine addr_congr hc.kept.sb (hc.kept.eff hj) fun _ => ?_
    show s1.block _ = s.block _
    rw [hblock]

end Fs

end Xv6
