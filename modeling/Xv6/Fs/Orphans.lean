import Xv6.Fs.Links

/-!
# Directories that have been removed

A directory that is removed while it is open, or somebody's current directory, stays until it is
closed. It is empty but for `"."` and `".."`, and its `".."` still names the directory that it was in. Nothing
keeps this one: it may be removed as well, and is then freed.

As long as that does not happen (`Careful`), the parent of a removed directory that is held is linked
(`Anchored`), every path leads to files that are linked or held, and `ilock` finds them allocated.
-/

open Function Option Transition

namespace Xv6

open Volume

variable {P : Type}

/-- The parents of removed directories that somebody holds are linked. -/
def Anchored (v : ℕ → Node) (pts : Holder P → Option ℕ) : Prop :=
  ∀ x j, pts x = some j → (v j).type = T_DIR → (v j).nlink = 0 →
    (v ((v j).slot 1).inum).type = T_DIR ∧ 0 < (v ((v j).slot 1).inum).nlink

/-- **The condition**: no directory is removed that is the parent of a removed directory that is held. -/
def Aim.Spares (v : ℕ → Node) (pts : Holder P → Option ℕ) : Aim → Prop
  | .remove d name => ∀ k ∈ (v d).find name, ∀ x, ∀ j ∈ pts x, (v j).type = T_DIR → (v j).nlink = 0 →
      ((v j).slot 1).inum ≠ ((v d).slot k).inum
  | _ => True

/-! ## Paths -/

section Paths

variable {v : ℕ → Node} {pts : Holder P → Option ℕ} {i k t : ℕ}

/-- The file has a link, or somebody holds it. -/
def Alive (v : ℕ → Node) (pts : Holder P → Option ℕ) (i : ℕ) : Prop :=
  0 < (v i).nlink ∨ ∃ x, pts x = some i

theorem Links.alive_slot (h : Links v) (ha : Anchored v pts) (hi : Alive v pts i)
    (hdir : (v i).type = T_DIR) (hk : k < (v i).nslots) (hne : ((v i).slot k).inum ≠ 0) :
    Alive v pts ((v i).slot k).inum := by
  have hd := (h.node i).dir hdir
  by_cases h0 : k = 0
  · rw [h0, hd.self]
    exact hi
  · by_cases hl : (v i).nlink = 0
    · -- a directory that has been removed has no other entry than its parent
      by_cases h1 : k = 1
      · obtain ⟨x, hx⟩ := hi.resolve_left (by omega)
        rw [h1]
        exact .inl (ha x i hx hdir hl).2
      · exact absurd ((h.node i).empty hdir hl k (by omega) hk) hne
    · have hl : 0 < (v i).nlink := by
        have := h.nlink_nonneg i
        omega
      have hentry : entries v (i, k) = some ((v i).slot k).inum := by
        by_cases h1 : k = 1
        · rw [h1]
          exact h.up hdir hl
        · exact hd.entry_name hdir hl (by omega) hk hne
      exact .inl (h.count.pos hentry)

/-- **Paths lead to files that are linked or held.** -/
theorem Links.alive_of_visits (h : Links v) (ha : Anchored v pts) (hi : Alive v pts i)
    (ht : Fs.Visits v i t) : Alive v pts t := by
  induction ht with
  | refl => exact hi
  | step hdir hk hne _ ih => exact ih (h.alive_slot ha hi hdir hk hne)

end Paths

theorem Links.alive_of_reach {g : Afs P} {t : ℕ} (h : Links g.node) (ha : Anchored g.node g.pts)
    (ht : g.Reach t) : Alive g.node g.pts t := by
  obtain ⟨c, hc, hv⟩ := ht
  refine h.alive_of_visits ha (hc.imp (fun he => ?_) id) hv
  rw [he]
  exact h.count.pos h.tree.root

/-! ## Changes -/

section Changes

variable {sb : SuperBlock} {v v' : ℕ → Node} {d i j k : ℕ} {a : Aim}

def LinkedDir (v : ℕ → Node) (i : ℕ) : Prop := (v i).type = T_DIR ∧ 0 < (v i).nlink

theorem LinkedDir.sweep (h : LinkedDir v i) (hs : Sweep v v') : LinkedDir v' i := by
  unfold LinkedDir
  rw [hs.eq_of_nlink (by have := h.2; omega)]
  exact h

theorem linkedDir_update {y : Node} (ht : (v i).type ≠ T_DIR) (hj : LinkedDir v j) :
    LinkedDir (update v i y) j := by
  unfold LinkedDir
  rw [update_of_ne fun he : j = i => ht (he ▸ hj.1)]
  exact hj

theorem linkedDir_update_two {x y : Node} (hd : x.type = T_DIR) (hl : 0 < x.nlink) (hji : j ≠ i)
    (hj : LinkedDir v j) : LinkedDir (update (update v i y) d x) j := by
  unfold LinkedDir
  by_cases hjd : j = d
  · rw [hjd, update_self]
    exact ⟨hd, hl⟩
  · rw [update_of_ne hjd, update_of_ne hji]
    exact hj

theorem Links.rmdir_facts (h : Links v) {name : List UInt8} (hd : (v d).type = T_DIR)
    (h1 : namecmp name dot ≠ 0) (h2 : namecmp name dotdot ≠ 0) (hf : (v d).find name = some k)
    (hi : i = ((v d).slot k).inum) (ht : (v i).type = T_DIR) (hempty : (v i).Empty) :
    d ≠ i ∧ 0 < short ((v d).nlink - 1) ∧ LinkedDir v i ∧ ((v i).slot 1).inum = d := by
  obtain ⟨hl, hk2, hentry⟩ := h.linked_of_find hd h1 h2 hf
  obtain ⟨hlt, hne, -⟩ := Node.find_some hf
  rw [← hi] at hentry
  obtain ⟨hup, htwo⟩ := h.two_le_nlink hk2 hentry ht
  have hpos : 0 < (v i).nlink := h.count.pos hentry
  have hs := (h.node d).small
  refine ⟨?_, ?_, ⟨ht, hpos⟩, ?_⟩
  · rintro rfl
    exact hne (hempty k hk2 hlt)
  · rw [short_eq (by omega) (by omega)]
    omega
  · rw [h.up ht hpos] at hup
    exact some.inj hup

theorem Links.linkedDir (h : Links v) (ha : a.Proper v) (hc : Change sb a v v') (hj : LinkedDir v j) :
    LinkedDir v' j ∨ ∃ d name k, a = .remove d name ∧ (v d).find name = some k ∧
      j = ((v d).slot k).inum := by
  cases hc with
  | nothing => exact .inl hj
  | data hnd _ _ _ | relink hnd _ => exact .inl (linkedDir_update hnd hj)
  | create ho hd hf _ _ _ hz _ _ =>
    subst ho
    refine .inl (linkedDir_update_two hd (ha hd hf).1 ?_ hj)
    rintro rfl
    exact absurd (hz.symm.trans hj.1) (by decide)
  | mkdir ho hd hf _ _ _ hz _ =>
    subst ho
    obtain ⟨hl, hs⟩ := ha hd hf
    refine .inl (linkedDir_update_two hd ?_ ?_ hj)
    · show 0 < short _
      rw [short_eq (by omega) (hs rfl)]
      omega
    · rintro rfl
      exact absurd (hz.symm.trans hj.1) (by decide)
  | link ho hd hf _ hnd _ =>
    subst ho
    refine .inl (linkedDir_update_two hd (ha hd hf).1 ?_ hj)
    rintro rfl
    exact hnd hj.1
  | @unlink d i k name ho hd h1 h2 hf hi hnd _ _ =>
    have hdi : d ≠ i := Links.ne_of_type hd hnd
    rw [update_comm hdi]
    refine .inl (linkedDir_update_two hd (h.linked_of_find hd h1 h2 hf).1 ?_ hj)
    rintro rfl
    exact hnd hj.1
  | @rmdir d i k name x y ho hd h1 h2 hf hi ht hn hempty hx hy =>
    obtain ⟨hdi, hl, -⟩ := h.rmdir_facts hd h1 h2 hf hi ht hempty
    by_cases hji : j = i
    · exact .inr ⟨d, name, k, ho, hf, hji.trans hi⟩
    · rw [update_comm hdi]
      exact .inl (linkedDir_update_two (hx ▸ hd) (hx ▸ hl) hji hj)

/-- A directory without links is not one that such a change is about. -/
theorem eq_of_update_two {x y : Node} (hl : 0 < x.nlink) (hy : y.type = T_DIR → y.nlink ≠ 0)
    (hj : (update (update v i y) d x j).type = T_DIR)
    (h0 : (update (update v i y) d x j).nlink = 0) :
    update (update v i y) d x j = v j := by
  have hjd : j ≠ d := by
    rintro rfl
    rw [update_self] at h0
    omega
  have hji : j ≠ i := by
    rintro rfl
    rw [update_of_ne hjd, update_self] at hj h0
    exact hy hj h0
  rw [update_of_ne hjd, update_of_ne hji]

/-- A directory without links was so before a change, or has been removed. -/
theorem Links.removed (h : Links v) (ha : a.Proper v) (hc : Change sb a v v')
    (hj : (v' j).type = T_DIR) (h0 : (v' j).nlink = 0) :
    v' j = v j ∨ (v' j).slot 1 = (v j).slot 1 ∧ LinkedDir v' ((v j).slot 1).inum := by
  cases hc with
  | nothing => exact .inl rfl
  | data hnd _ hty _ =>
    refine .inl (update_of_ne ?_ ..)
    rintro rfl
    rw [update_self, hty] at hj
    exact hnd hj
  | relink hnd _ =>
    refine .inl (update_of_ne ?_ ..)
    rintro rfl
    rw [update_self] at hj
    exact hnd hj
  | create ho hd hf _ _ _ _ _ hnd | link ho hd hf _ hnd _ =>
    subst ho
    exact .inl (eq_of_update_two (ha hd hf).1 (fun h1 => absurd h1 hnd) hj h0)
  | mkdir ho hd hf _ _ _ _ hnew =>
    subst ho
    obtain ⟨hl, hs⟩ := ha hd hf
    obtain ⟨k, -, rfl⟩ := hnew
    refine .inl (eq_of_update_two ?_ (fun _ => Int.one_ne_zero) hj h0)
    show 0 < short _
    rw [short_eq (by omega) (hs rfl)]
    omega
  | @unlink d i k name ho hd h1 h2 hf hi hnd _ _ =>
    rw [update_comm (Links.ne_of_type hd hnd)] at hj h0 ⊢
    exact .inl (eq_of_update_two (h.linked_of_find hd h1 h2 hf).1 (fun h1 => absurd h1 hnd) hj h0)
  | @rmdir d i k name x y ho hd h1 h2 hf hi ht hn hempty hx hy =>
    obtain ⟨hdi, hl, -, hup⟩ := h.rmdir_facts hd h1 h2 hf hi ht hempty
    rw [update_comm hdi] at hj h0 ⊢
    obtain ⟨e1, e2, hother⟩ := Links.update_two hdi v x { y with nlink := short (y.nlink - 1) }
    have hy : y = v i := by
      rw [hy, update_of_ne hdi.symm]
    by_cases hji : j = i
    · subst hji
      refine .inr ⟨?_, ?_⟩
      · rw [e2, hy]
        rfl
      · rw [hup]
        unfold LinkedDir
        rw [e1, hx]
        exact ⟨hd, hl⟩
    · have hjd : j ≠ d := by
        rintro rfl
        rw [e1, hx] at h0
        have : short ((v j).nlink - 1) = 0 := h0
        omega
      exact .inl (hother j hjd hji)

end Changes

/-- **A call that meets the conditions keeps the parents of removed directories.** -/
theorem Anchored.step {g g' : Afs P} {a : Aim} (h : Anchored g.node g.pts) (hl : Links g.node)
    (hp : a.Proper g.node) (hsp : a.Spares g.node g.pts) (hd : g.Done a g') :
    Anchored g'.node g'.pts := by
  intro x j hx hj h0
  obtain ⟨⟨v1, v2, h1, hc, h2⟩, hheld⟩ := hd.step
  have hl1 := hl.sweep h1
  have hp1 := Links.proper_of_sweep hp h1
  have e2 : g'.node j = v2 j := h2.eq_of_type (by rw [hj]; decide)
  have hreach : g.Reach j := (hheld x j hx).resolve_right (by omega)
  rw [e2] at hj h0 ⊢
  rcases hl1.removed hp1 hc hj h0 with he | ⟨hslot, hpar⟩
  · -- it was without links before, so that somebody has held it, and its parent stays
    have e1 : v1 j = g.node j := h1.eq_of_type (by rw [← he, hj]; decide)
    rw [he, e1] at hj h0 ⊢
    obtain ⟨y, hy⟩ := (hl.alive_of_reach h hreach).resolve_left (by omega)
    have hpar : LinkedDir g.node ((g.node j).slot 1).inum := h y j hy hj h0
    refine LinkedDir.sweep ?_ h2
    refine (hl1.linkedDir hp1 hc (hpar.sweep h1)).resolve_right ?_
    rintro ⟨d, name, k, rfl, hf, hi⟩
    have hd : v1 d = g.node d := by
      refine (h1 d).resolve_right fun hfree => ?_
      rw [hfree.1] at hf
      contradiction
    rw [hd] at hf hi
    exact hsp k hf y j hy hj h0 hi
  · rw [hslot]
    exact hpar.sweep h2

/-! ## Runs -/

variable [DecidableEq P]

/-- The call enters no name into a removed directory, and removes no directory that is the parent of
a removed directory that somebody holds. -/
def FsCall.Careful (c : FsCall P) (s : FsState P) : Prop :=
  c.Proper s ∧ (c.aim s.lookup).Spares s.vol.node s.holder

variable [Fintype P] {img : Volume} {init : P} {s : FsState P}

omit [DecidableEq P] in
theorem FsState.Running.holder {g : Afs P} (h : FsState.Running img s g) : s.holder = g.pts := by
  funext x
  rcases x with p | f
  · show (s.proc p).cwd = g.pts (.inl p)
    rw [h.2.1.cwd p, h.1.proc]
  · show (s.file f).held = g.pts (.inr f)
    rw [h.1.files.pts f, h.1.file]

omit [DecidableEq P] in
theorem FsState.Running.live {g : Afs P} {i : ℕ} (h : FsState.Running img s g) (hl : Links g.node)
    (hi : Alive g.node g.pts i) : (g.node i).type ≠ 0 := by
  rcases hi with hn | ⟨x, hx⟩
  · intro h0
    have := (hl.node i).unused h0
    omega
  · exact h.1.type_of_held hx

theorem careful_running (h : img.WellFormed)
    (hs : Reaches FsCall.step FsCall.Careful (.boot img init) s) :
    ∃ g, FsState.Running img s g ∧ Links g.node ∧ Anchored g.node g.pts := by
  refine hs.invariant (I := fun s => ∃ g, FsState.Running img s g ∧ Links g.node ∧ Anchored g.node g.pts)
    ⟨_, FsState.boot_running h.toBootable init, h.links, fun x j hx hj h0 => ?_⟩ ?_
  · -- nobody holds a directory but the root, which is linked
    have hroot : j = ROOTINO := by
      rcases x with p | f
      · exact (some.inj (ite_none_right_eq_some.mp hx).2).symm
      · contradiction
    have hpos := h.links.count.pos h.links.tree.root
    rw [hroot] at h0
    exact absurd h0 (ne_of_gt hpos)
  · rintro c t u ⟨g, hg, hl, ha⟩ ⟨hp, hsp⟩ hstep
    obtain ⟨g', hg', hd⟩ := hg.step hstep
    rw [FsCall.Proper, hg.lookup, hg.1.node] at hp
    rw [hg.lookup, hg.1.node, hg.holder] at hsp
    exact ⟨g', hg', hl.step (hg.2.2.1 ▸ h.ninodes) hp hd.step.node, ha.step hl hp hsp hd⟩

/-- **No live directory entry dangles** in a run in which calls meet the conditions, and `ilock` does
not panic. -/
theorem no_dangling_entries (h : img.WellFormed)
    (hs : Reaches FsCall.step FsCall.Careful (.boot img init) s) :
    (∀ d, (s.vol.node d).type = T_DIR → 0 < (s.vol.node d).nlink ∨ (∃ x, s.holder x = some d) →
      ∀ k < (s.vol.node d).nslots, ((s.vol.node d).slot k).inum ≠ 0 →
        ((s.vol.node d).slot k).inum < s.sb.ninodes ∧
          (s.dinode ((s.vol.node d).slot k).inum).type ≠ 0) ∧
    ∀ (c : FsCall P) e, c.Enabled s → c.body.run s = .error e → e ≠ .ilockNoType := by
  obtain ⟨g, hg, hl, ha⟩ := careful_running h hs
  refine ⟨fun d hd hk k hlt hne => ?_, fun c e he hr => ?_⟩
  · rw [hg.holder, hg.1.node] at hk
    rw [hg.1.node] at hd hlt hne ⊢
    have hlive : s.vol.Live ((g.node d).slot k).inum := by
      rw [live_iff_node, hg.1.node]
      exact hg.live hl (hl.alive_slot ha hk hd hlt hne)
    exact ⟨hlive.1, hg.1.saved _ ▸ hlive.2⟩
  · rcases hg.fails he hr with ho | ⟨i, ⟨hreach, hbad⟩, -⟩
    · rintro rfl
      exact ho
    · have hi := hl.alive_of_reach ha hreach
      rcases hbad with hz | ⟨hz, hnone⟩
      · exact absurd hz (hg.live hl hi)
      · rcases hi with hn | ⟨x, hx⟩
        · omega
        · exact absurd hx (hnone x)

instance (v : ℕ → Node) (pts : Holder P → Option ℕ) : DecidablePred (Aim.Spares v pts)
  | .nothing | .make .. | .link .. => inferInstanceAs (Decidable True)
  | .remove .. => inferInstanceAs (Decidable (∀ k ∈ _, ∀ x, ∀ j ∈ pts x, _ → _ → _))

instance (c : FsCall P) (s : FsState P) : Decidable (c.Careful s) := inferInstanceAs (Decidable (_ ∧ _))

/-- The error that a call stops with. -/
def FsCall.error (c : FsCall P) (s : FsState P) : Option FsError :=
  match c.body.run s with
  | .error e => some e
  | .ok _ => none

omit [Fintype P] in
theorem FsCall.run_of_error {c : FsCall P} {e : FsError} (h : c.error s = some e) :
    c.body.run s = .error e := by
  unfold FsCall.error at h
  cases hr : c.body.run s with
  | error e' =>
    rw [hr] at h
    exact congrArg Except.error (some.inj h)
  | ok r =>
    rw [hr] at h
    contradiction

/-- A directory is removed while it is the current directory. -/
theorem no_dangling_entries_sample : ∃ s : FsState Unit,
    Reaches FsCall.step FsCall.Careful (.boot .sample ()) s ∧ (s.proc ()).cwd = some 2 ∧
      (s.dinode 2).nlink = 0 ∧
      ∀ (c : FsCall Unit) e, c.Enabled s → c.body.run s = .error e → e ≠ .ilockNoType := by
  have hrun : (run FsCall.step FsCall.Careful
      [.mkdir () (some [slash, 100]), .chdir () (some [slash, 100]), .unlink () (some [slash, 100])]
      (FsState.boot sample ())).any (fun s => decide ((s.proc ()).cwd = some 2 ∧
        (s.dinode 2).nlink = 0)) = true := by
    decide +kernel
  obtain ⟨s, hs, hcwd, h0⟩ := exists_reaches_of_run hrun
  exact ⟨s, hs, hcwd, h0, (no_dangling_entries sample_wellFormed hs).2⟩

/-- The current directory is removed, and then the directory that it was in: `".."` names a free inode, and
`chdir("..")` panics. -/
theorem dangling_entry : sample.WellFormed ∧
    ∃ s : FsState Unit, s.Reached .sample () ∧ s.holder (.inl ()) = some 3 ∧
      (s.vol.node 3).type = T_DIR ∧ 1 < (s.vol.node 3).nslots ∧ ((s.vol.node 3).slot 1).inum = 2 ∧
      (s.dinode 2).type = 0 ∧
      ∃ c : FsCall Unit, c.Enabled s ∧ c.body.run s = .error .ilockNoType := by
  refine ⟨sample_wellFormed, ?_⟩
  have hrun : (run FsCall.step anyEvent
      [.mkdir () (some [slash, 97]), .mkdir () (some [slash, 97, slash, 98]),
        .chdir () (some [slash, 97, slash, 98]), .unlink () (some [slash, 97, slash, 98]),
        .unlink () (some [slash, 97])]
      (FsState.boot sample ())).any (fun s => decide (s.holder (.inl ()) = some 3 ∧
        (s.vol.node 3).type = T_DIR ∧ 1 < (s.vol.node 3).nslots ∧ ((s.vol.node 3).slot 1).inum = 2 ∧
        (s.dinode 2).type = 0 ∧ (FsCall.chdir () (some dotdot)).Enabled s ∧
        FsCall.error (.chdir () (some dotdot)) s = some .ilockNoType)) = true := by
    decide +kernel
  obtain ⟨s, hs, h1, h2, h3, h4, h5, he, hr⟩ := exists_reaches_of_run hrun
  exact ⟨s, hs, h1, h2, h3, h4, h5, _, he, FsCall.run_of_error hr⟩

end Xv6
