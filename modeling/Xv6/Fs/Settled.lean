import Xv6.Fs.WriteLoop

/-!
# Settled states

Between operations on files every cached inode has been saved (`Settled`). Entries of the inode
table that come and go do not change files then (`Settled.setEntry`); what does are changes of one
file that are saved, and inodes that are allocated and freed.
-/

open Function

namespace Xv6

open Volume

variable {P : Type}

namespace FsState

variable {s t : FsState P} {i j : ℕ} {e : Entry} {o : Option Entry}

/-- **No operation on the contents of a file is in progress.** Every block belongs to one file,
cached inodes have been saved and are allocated, and the entries of the inode table are in use. -/
structure Settled (s : FsState P) : Prop where
  owned : s.vol.Owned
  saved : ∀ i, s.dinode i = s.eff i
  live : ∀ i, s.Valid i → s.vol.Live i
  pos : ∀ i e, s.itable i = some e → 0 < e.ref

@[simp] theorem setEntry_itable_self (s : FsState P) (i : ℕ) (o : Option Entry) :
    (s.setEntry i o).itable i = o :=
  update_self ..

theorem setEntry_itable_of_ne (s : FsState P) (o : Option Entry) (hj : j ≠ i) :
    (s.setEntry i o).itable j = s.itable j :=
  update_of_ne hj ..

theorem eff_setEntry_of (hs : s.dinode i = s.eff i)
    (hd : ∀ e, o = some e → e.valid = true → e.din = s.dinode i) : (s.setEntry i o).eff = s.eff := by
  funext j
  by_cases hj : j = i
  · rw [hj, ← hs]
    unfold eff
    rw [setEntry_itable_self]
    cases o with
    | none => rfl
    | some e =>
      show (if e.valid then e.din else s.dinode i) = s.dinode i
      split_ifs with hv
      exacts [hd e rfl hv, rfl]
  · exact eff_congr (setEntry_itable_of_ne s o hj) rfl

theorem vol_setEntry_of (hs : s.dinode i = s.eff i)
    (hd : ∀ e, o = some e → e.valid = true → e.din = s.dinode i) : (s.setEntry i o).vol = s.vol := by
  unfold vol
  rw [eff_setEntry_of hs hd]
  rfl

namespace Settled

variable (h : s.Settled)

include h

theorem setEntry (hd : ∀ e, o = some e → e.valid = true → e.din = s.dinode i ∧ s.vol.Live i)
    (hpos : ∀ e, o = some e → 0 < e.ref) : (s.setEntry i o).Settled := by
  have hd' : ∀ e, o = some e → e.valid = true → e.din = s.dinode i := fun e he hv => (hd e he hv).1
  have hvol := vol_setEntry_of (h.saved i) hd'
  refine ⟨by rw [hvol]; exact h.owned, fun j => ?_, fun j => ?_, fun j e he => ?_⟩
  · rw [eff_setEntry_of (h.saved i) hd']
    exact h.saved j
  · rintro ⟨e, he, hv⟩
    rw [hvol]
    by_cases hj : j = i
    · subst hj
      rw [setEntry_itable_self] at he
      exact (hd e he hv).2
    · rw [setEntry_itable_of_ne s o hj] at he
      exact h.live j ⟨e, he, hv⟩
  · by_cases hj : j = i
    · subst hj
      rw [setEntry_itable_self] at he
      exact hpos e he
    · rw [setEntry_itable_of_ne s o hj] at he
      exact h.pos j e he

/-- **The contents of one file have been changed.** -/
theorem changed (hv : s.Valid i) {x : Node} (hx : x.type ≠ 0) (hc : Fs.Changed i x s t) :
    t.Settled := by
  refine ⟨hc.owned, fun j => ?_, fun j hj => ?_, fun j e he => ?_⟩
  · by_cases hji : j = i
    · rw [hji]
      exact hc.saved
    · rw [hc.kept.dinode j hji, hc.kept.eff hji]
      exact h.saved j
  · rw [live_iff_node, hc.node]
    by_cases hji : j = i
    · rw [hji, update_self]
      exact hx
    · obtain ⟨e, he, hval⟩ := hj
      rw [hc.kept.itable j hji] at he
      rw [update_of_ne hji, ← live_iff_node]
      exact h.live j ⟨e, he, hval⟩
  · by_cases hji : j = i
    · obtain ⟨e0, he0, -⟩ := hv
      obtain ⟨d, hd⟩ := hc.kept.entry e0 he0
      rw [hji, hd] at he
      cases he
      exact h.pos i e0 he0
    · rw [hc.kept.itable j hji] at he
      exact h.pos j e he

/-- The inode has no blocks and is freed, and the entry of the table goes. -/
theorem freed (hzero : ∀ n, (s.eff i).addr n = 0) (hu : Fs.Updated i { s.eff i with type := 0 } s t)
    : (t.setEntry i none).Settled ∧ (t.setEntry i none).vol =
      s.vol.setInode i { s.eff i with type := 0 } ∧
      (t.setEntry i none).vol.node = update s.vol.node i .free := by
  have hvol : (t.setEntry i none).vol = s.vol.setInode i { s.eff i with type := 0 } := by
    rw [← hu.vol]
    exact vol_setEntry_of hu.saved fun e he => absurd he.symm (Option.some_ne_none e)
  have hnode : (t.setEntry i none).vol.node = update s.vol.node i .free := by
    rw [hvol, node_setInode, node_setInode_free rfl]
  have hold : ∀ j e, (t.setEntry i none).itable j = some e → j ≠ i ∧ s.itable j = some e := by
    intro j e he
    have hji : j ≠ i := by
      rintro rfl
      rw [setEntry_itable_self] at he
      contradiction
    rw [setEntry_itable_of_ne t none hji, hu.kept.itable j hji] at he
    exact ⟨hji, he⟩
  refine ⟨⟨?_, fun j => ?_, ?_, fun j e he => h.pos j e (hold j e he).2⟩, hvol, hnode⟩
  · rw [hvol]
    refine h.owned.setInode (fun n => ?_) fun ht => absurd rfl ht
    rw [addr_of_not_live fun hl => (live_setInode_self.mp hl).2 rfl]
    exact (addr_eq_zero hzero n).symm
  · rw [eff_setEntry_of hu.saved fun e he => absurd he.symm (Option.some_ne_none e)]
    by_cases hj : j = i
    · rw [hj]
      exact hu.saved
    · show t.dinode j = t.eff j
      rw [hu.kept.dinode j hj, hu.kept.eff hj]
      exact h.saved j
  · rintro j ⟨e, he, hv⟩
    obtain ⟨hji, he⟩ := hold j e he
    rw [live_iff_node, hnode, update_of_ne hji, ← live_iff_node]
    exact h.live j ⟨e, he, hv⟩

theorem not_live_of_type (hz : (s.dinode i).type = 0) : ¬ s.vol.Live i :=
    fun hl => hl.2 (by
  show (s.eff i).type = 0
  rw [← h.saved i]
  exact hz)

theorem alloc {ty : ℤ} (hi : i < s.sb.ninodes) (hz : (s.dinode i).type = 0) (ht : ty ≠ 0)
    (l : List ℕ) : ((s.setDinode i (.fresh ty)).setLogged l).Settled ∧
      ((s.setDinode i (.fresh ty)).setLogged l).vol = s.vol.setInode i (.fresh ty) ∧
      ((s.setDinode i (.fresh ty)).setLogged l).vol.node =
        update s.vol.node i ⟨ty, 0, 0, fun _ => 0⟩ := by
  have hdead := h.not_live_of_type hz
  have hinvalid : ¬ s.Valid i := fun hv => hdead (h.live i hv)
  have heff : ((s.setDinode i (.fresh ty)).setLogged l).eff = update s.eff i (.fresh ty) := by
    funext j
    by_cases hj : j = i
    · rw [hj, update_self, eff_of_not_valid (s := (s.setDinode i (.fresh ty)).setLogged l) hinvalid]
      exact update_self ..
    · rw [update_of_ne hj]
      exact eff_congr rfl (update_of_ne hj ..)
  have hvol : ((s.setDinode i (.fresh ty)).setLogged l).vol = s.vol.setInode i (.fresh ty) := by
    unfold FsState.vol
    rw [heff]
    rfl
  have hnode : ((s.setDinode i (.fresh ty)).setLogged l).vol.node =
      update s.vol.node i ⟨ty, 0, 0, fun _ => 0⟩ := by
    have hempty : (s.vol.setInode i (.fresh ty)).node i = ⟨ty, 0, 0, fun _ => 0⟩ :=
      node_setInode_empty hi ht rfl
    rw [hvol, node_setInode, hempty]
  refine ⟨⟨?_, fun j => ?_, fun j hj => ?_, h.pos⟩, hvol, hnode⟩
  · rw [hvol]
    refine h.owned.setInode (fun n => ?_) fun _ bn hbn => absurd hbn (Nat.not_lt_zero _)
    rw [addr_of_not_live hdead]
    refine addr_eq_zero (fun n => ?_) n
    rw [show (s.vol.setInode i (.fresh ty)).inode i = .fresh ty from update_self ..]
    unfold Dinode.addr Dinode.fresh
    split_ifs <;> rfl
  · rw [heff]
    by_cases hj : j = i
    · rw [hj, update_self]
      exact update_self ..
    · rw [update_of_ne hj, ← h.saved j]
      exact update_of_ne hj ..
  · have hv : s.Valid j := hj
    have hji : j ≠ i := fun hji => hinvalid (hji ▸ hv)
    rw [live_iff_node, hnode, update_of_ne hji, ← live_iff_node]
    exact h.live j hv

end Settled

end FsState

end Xv6
