import Mathlib.Order.Lattice.Nat
import Xv6.Lib.LinkTree
import Xv6.Fs.Runs

/-!
# Link counts

The directories of a well-formed image are a tree: every directory begins with `"."` and `".."`, and a
directory other than the root has one name, in the directory that its `".."` leads to. The entries
that count as links are those of linked directories, `"."` apart; they are a link tree
of `Xv6.Lib.LinkTree`.

`Links.step` says that system calls keep this, and that link counts are then right, if no name is entered into
a directory that has been removed (`Proper`). A call that does so leaves a file with a link that does not
count.
-/

open Finset Function Nat Option Transition

namespace Xv6

open Fs FsState Node Volume

/-! ## Names -/

/-- The first `n` bytes of a string, up to its end. -/
def cstring (l : List UInt8) (n : ℕ) : List UInt8 := (l.take n).takeWhile (· ≠ 0)

theorem cstring_succ (l : List UInt8) (n : ℕ) :
    cstring l (n + 1) = if l.headD 0 = 0 then [] else l.headD 0 :: cstring l.tail n := by
  cases l with
  | nil => simp [cstring]
  | cons a l =>
    by_cases ha : a = 0 <;> simp [cstring, ha]

theorem strncmp_eq_zero_iff (p q : List UInt8) (n : ℕ) :
    strncmp p q n = 0 ↔ cstring p n = cstring q n := by
  induction n generalizing p q with
  | zero => simp [strncmp, cstring]
  | succ n ih =>
    rw [cstring_succ, cstring_succ, strncmp]
    by_cases heq : p.headD 0 = q.headD 0
    · rw [← heq]
      by_cases hp : p.headD 0 = 0
      · rw [if_neg fun h => h.1 hp, if_pos hp, if_pos hp, hp]
        exact iff_of_true rfl rfl
      · rw [if_pos ⟨hp, rfl⟩, if_neg hp, if_neg hp, ih]
        exact (List.cons_inj_right _).symm
    · have hne : ((p.headD 0).toNat : ℤ) - (q.headD 0).toNat ≠ 0 := by
        intro h
        exact heq (UInt8.toNat_inj.mp (by omega))
      rw [if_neg fun h => heq h.2]
      refine iff_of_false hne ?_
      split_ifs with h1 h2 h2
      · exact absurd (h1.trans h2.symm) heq
      · exact id
      · exact id
      · exact fun h => heq (List.cons.inj h).1

theorem cstring_strncpy (l : List UInt8) (n : ℕ) : cstring (strncpy l n) n = cstring l n := by
  induction n generalizing l with
  | zero => rfl
  | succ n ih =>
    rw [cstring_succ, cstring_succ, strncpy]
    by_cases hl : l.headD 0 = 0
    · rw [if_pos hl, if_pos hl]
      exact if_pos rfl
    · rw [if_neg hl, if_neg hl]
      simp only [List.headD_cons, List.tail_cons, ih]
      exact if_neg hl

theorem namecmp_eq_zero_iff {p q : List UInt8} :
    namecmp p q = 0 ↔ cstring p DIRSIZ = cstring q DIRSIZ :=
  strncmp_eq_zero_iff p q DIRSIZ

/-! ## Entries that count -/

namespace Node

variable {x : Node} {i j k : ℕ} {de : Dirent}

/-- What entry `k` of a linked directory names, if it is not `"."`. -/
def entry (x : Node) (k : ℕ) : Option ℕ :=
  if x.type = T_DIR ∧ 0 < x.nlink ∧ k < x.nslots ∧ (x.slot k).inum ≠ 0 ∧
    namecmp dot (x.slot k).name ≠ 0 then some (x.slot k).inum
  else none

/-- **A directory** begins with `"."` and `".."`. -/
structure IsDir (i : ℕ) (x : Node) : Prop where
  nslots : 2 ≤ x.nslots
  self : (x.slot 0).inum = i
  dot : namecmp dot (x.slot 0).name = 0
  parent : (x.slot 1).inum ≠ 0
  dotdot : namecmp dotdot (x.slot 1).name = 0
  names : ∀ k, 2 ≤ k → k < x.nslots → (x.slot k).inum ≠ 0 → namecmp Xv6.dot (x.slot k).name ≠ 0

/-- The directory has no entries but `"."` and `".."`. -/
def Empty (x : Node) : Prop := ∀ k, 2 ≤ k → k < x.nslots → (x.slot k).inum = 0

theorem entry_eq_some (h : x.entry k = some i) :
    x.type = T_DIR ∧ 0 < x.nlink ∧ k < x.nslots ∧ (x.slot k).inum = i ∧ i ≠ 0 ∧
      namecmp dot (x.slot k).name ≠ 0 := by
  unfold entry at h
  split_ifs at h with hc
  cases h
  exact ⟨hc.1, hc.2.1, hc.2.2.1, rfl, hc.2.2.2⟩

theorem entry_of_type (h : x.type ≠ T_DIR) (k : ℕ) : x.entry k = none := if_neg fun hc => h hc.1

theorem entry_of_nlink (h : x.nlink = 0) (k : ℕ) : x.entry k = none :=
  if_neg fun hc => absurd hc.2.1 (by omega)

theorem IsDir.entry_one (h : x.IsDir i) (ht : x.type = T_DIR) (hl : 0 < x.nlink) :
    x.entry 1 = some (x.slot 1).inum := by
  refine if_pos ⟨ht, hl, h.nslots, h.parent, fun hd => ?_⟩
  have hdd := h.dotdot
  rw [namecmp_eq_zero_iff] at hd hdd
  exact absurd (hd.trans hdd.symm) (by decide)

theorem IsDir.entry_zero (h : x.IsDir i) : x.entry 0 = none := if_neg fun hc => hc.2.2.2.2 h.dot

theorem IsDir.entry_name (h : x.IsDir i) (ht : x.type = T_DIR) (hl : 0 < x.nlink) (hk : 2 ≤ k)
    (hlt : k < x.nslots) (hne : (x.slot k).inum ≠ 0) : x.entry k = some (x.slot k).inum :=
  if_pos ⟨ht, hl, hlt, hne, h.names k hk hlt hne⟩

theorem IsDir.entry_of_empty (h : x.IsDir i) (he : x.Empty) (hj : j ≠ 1) : x.entry j = none := by
  obtain rfl | hj : j = 0 ∨ 2 ≤ j := by omega
  · exact h.entry_zero
  · exact if_neg fun hc => hc.2.2.2.1 (he j hj hc.2.2.1)

/-! ### Writing an entry -/

/-- The place for an entry: a slot, or the next one at the end. -/
def Place (x : Node) (k : ℕ) : Prop := k < x.nslots ∨ k * Dirent.SIZE = x.size

theorem Spare.place (h : x.Spare k) : x.Place k := h.imp And.left id

/-- `y` is the directory `x` with the entry `de` in slot `k`. -/
structure Wrote (k : ℕ) (de : Dirent) (x y : Node) : Prop where
  type : y.type = x.type
  nslots : ∀ j, j < y.nslots ↔ j < x.nslots ∨ j = k
  slot : ∀ j, y.slot j = if j = k then de else x.slot j

theorem wrote_setSlot (hk : x.Place k) (hw : de.Wf) : Wrote k de x (x.setSlot k de) where
  type := rfl
  nslots j := by
    unfold Place nslots at hk
    unfold nslots
    rw [setSlot_size hw]
    simp only [Dirent.SIZE, DIRSIZ] at hk ⊢
    omega
  slot j := slot_setSlot hw x j k

namespace Wrote

variable {y : Node}

variable (h : Wrote k de x y)

include h

theorem setNlink (n : ℤ) : Wrote k de x { y with nlink := n } :=
  ⟨h.type, h.nslots, h.slot⟩

theorem slot_ne (hj : j ≠ k) : y.slot j = x.slot j := by
  rw [h.slot, if_neg hj]

theorem slot_self : y.slot k = de := by
  rw [h.slot, if_pos rfl]

theorem entry_ne (hx : 0 < x.nlink) (hy : 0 < y.nlink) (hj : j ≠ k) : y.entry j = x.entry j := by
  have hn : j < y.nslots ↔ j < x.nslots := by
    rw [h.nslots]
    exact or_iff_left hj
  simp only [entry, h.type, hx, hy, hn, h.slot_ne hj]

theorem entry_self (ht : x.type = T_DIR) (hy : 0 < y.nlink) (hne : de.inum ≠ 0)
    (hdot : namecmp Xv6.dot de.name ≠ 0) : y.entry k = some de.inum := by
  have hk : k < y.nslots := (h.nslots k).mpr (.inr rfl)
  unfold entry
  rw [h.slot_self, h.type]
  exact if_pos ⟨ht, hy, hk, hne, hdot⟩

theorem entry_clear (hz : de.inum = 0) : y.entry k = none := by
  refine if_neg fun hc => hc.2.2.2.1 ?_
  rw [h.slot_self]
  exact hz

theorem isDir (hx : x.IsDir i) (hk : 2 ≤ k) (hdot : de.inum ≠ 0 → namecmp Xv6.dot de.name ≠ 0) :
    y.IsDir i where
  nslots := (h.nslots 1).mpr (.inl hx.nslots)
  self := by
    rw [h.slot_ne (by omega)]
    exact hx.self
  dot := by
    rw [h.slot_ne (by omega)]
    exact hx.dot
  parent := by
    rw [h.slot_ne (by omega)]
    exact hx.parent
  dotdot := by
    rw [h.slot_ne (by omega)]
    exact hx.dotdot
  names j hj hlt hne := by
    by_cases hjk : j = k
    · subst hjk
      rw [h.slot_self] at hne ⊢
      exact hdot hne
    · rw [h.slot_ne hjk] at hne ⊢
      exact hx.names j hj (((h.nslots j).mp hlt).resolve_right hjk) hne

end Wrote

theorem IsDir.two_le_of_spare (h : x.IsDir i) (hi : i ≠ 0) (hk : x.Spare k) : 2 ≤ k := by
  by_contra hlt
  rcases hk with ⟨-, hz⟩ | hsize
  · obtain rfl | rfl : k = 0 ∨ k = 1 := by omega
    · exact hi (h.self.symm.trans hz)
    · exact h.parent hz
  · have := h.nslots
    unfold Node.nslots at this
    rw [← hsize, Nat.mul_div_cancel _ (by decide)] at this
    omega

theorem IsDir.two_le_of_find (h : x.IsDir i) {name : List UInt8} (hk : x.find name = some k)
    (h1 : namecmp name Xv6.dot ≠ 0) (h2 : namecmp name Xv6.dotdot ≠ 0) : 2 ≤ k := by
  by_contra hlt
  obtain ⟨-, -, hname⟩ := find_some hk
  have hdot := h.dot
  have hdotdot := h.dotdot
  rw [namecmp_eq_zero_iff] at hname hdot hdotdot
  obtain rfl | rfl : k = 0 ∨ k = 1 := by omega
  · exact h1 (namecmp_eq_zero_iff.mpr (hname.trans hdot.symm))
  · exact h2 (namecmp_eq_zero_iff.mpr (hname.trans hdotdot.symm))

theorem IsDir.new_name (h : x.IsDir i) (hi : i ≠ 0) {name : List UInt8} (hf : x.find name = none)
    (n : ℕ) : namecmp Xv6.dot (newDirent name n).name ≠ 0 := by
  intro hd
  have hnot := find_none hf (show 0 < x.nslots by have := h.nslots; omega)
  refine hnot ⟨fun hz => hi (h.self.symm.trans hz), ?_⟩
  have hdot := h.dot
  rw [namecmp_eq_zero_iff] at hd hdot ⊢
  rw [show (newDirent name n).name = strncpy name DIRSIZ from rfl, cstring_strncpy] at hd
  exact hd.symm.trans hdot

theorem Spare.entry (h : x.Spare k) : x.entry k = none := by
  refine if_neg fun hc => ?_
  rcases h with ⟨-, hz⟩ | hsize
  · exact hc.2.2.2.1 hz
  · have := hc.2.2.1
    unfold nslots at this
    rw [← hsize, Nat.mul_div_cancel _ (by decide)] at this
    omega

end Node

/-! ## Link counts -/

/-- The entries that count. -/
def entries (v : ℕ → Node) (x : ℕ × ℕ) : Option ℕ := (v x.1).entry x.2

/-- What holds of every file by itself. -/
structure Node.Sane (i : ℕ) (x : Node) : Prop where
  inum : x.type ≠ 0 → i ≠ 0 ∧ i < 2 ^ 16
  dir : x.type = T_DIR → x.IsDir i
  empty : x.type = T_DIR → x.nlink = 0 → x.Empty
  unused : x.type = 0 → x.nlink = 0
  small : x.nlink < 2 ^ 15

theorem Node.Sane.free (i : ℕ) : free.Sane i :=
  ⟨fun h1 => absurd rfl h1, fun h1 => absurd h1 (by decide), fun h1 => absurd h1 (by decide), fun _ => rfl,
    by decide⟩

/-- **Directories are a tree, and link counts are right.** -/
structure Links (v : ℕ → Node) : Prop where
  tree : LinkTree ROOTINO 1 (entries v)
  count : HasLinks (entries v) fun i => (v i).nlink
  node : ∀ i, (v i).Sane i

namespace Links

variable {v v' : ℕ → Node} {d i j k : ℕ} {de : Dirent}

theorem nlink_nonneg (h : Links v) (i : ℕ) : 0 ≤ (v i).nlink := h.count.nonneg i

theorem up (h : Links v) (ht : (v i).type = T_DIR) (hl : 0 < (v i).nlink) :
    entries v (i, 1) = some ((v i).slot 1).inum :=
  ((h.node i).dir ht).entry_one ht hl

theorem up_ne_none (h : Links v) (ht : (v i).type = T_DIR) (hl : 0 < (v i).nlink) :
    entries v (i, 1) ≠ none := by
  rw [h.up ht hl]
  exact some_ne_none _

/-- **The links of a directory**: one, and one for each directory named in it. -/
theorem nlink_le (h : Links v) (ht : (v i).type = T_DIR) : (v i).nlink ≤ (v i).nslots + 1 := by
  by_cases hl : 0 < (v i).nlink
  · obtain ⟨W, -, hcount⟩ := h.count
    have hle := h.tree.npointers_le (U := W) (K := range (v i).nslots) (h.up_ne_none ht hl)
      fun k hk => by
        obtain ⟨j, hj⟩ := ne_none_iff_exists'.mp hk
        exact mem_range.mpr (entry_eq_some hj).2.2.1
    rw [card_range] at hle
    calc (v i).nlink = (npointers W (entries v) i : ℤ) := hcount i
      _ ≤ (v i).nslots + 1 := by exact_mod_cast hle
  · omega

theorem up_of_type (ht : (v i).type ≠ T_DIR) : entries v (i, 1) = none := entry_of_type ht 1

theorem ne_of_type (hd : (v d).type = T_DIR) (hi : (v i).type ≠ T_DIR) : d ≠ i := by
  rintro rfl
  exact hi hd

theorem node_of_two (h : Links v) (hother : ∀ j, j ≠ d → j ≠ i → v' j = v j) (hd : (v' d).Sane d)
    (hi : (v' i).Sane i) (j : ℕ) : (v' j).Sane j := by
  by_cases hjd : j = d
  · rw [hjd]
    exact hd
  · by_cases hji : j = i
    · rw [hji]
      exact hi
    · rw [hother j hjd hji]
      exact h.node j

theorem sane_wrote (h : Links v) (hd : (v d).type = T_DIR) (hk : 2 ≤ k)
    (hw : Node.Wrote k de (v d) (v' d)) (hl : 0 < (v' d).nlink) (hs : (v' d).nlink < 2 ^ 15)
    (hdot : de.inum ≠ 0 → namecmp dot de.name ≠ 0) : (v' d).Sane d where
  inum _ := (h.node d).inum (by rw [hd]; decide)
  dir _ := hw.isDir ((h.node d).dir hd) hk hdot
  empty _ h0 := absurd h0 (by omega)
  unused h0 := by
    rw [hw.type, hd] at h0
    contradiction
  small := hs

/-! ### Two files change

In the moves below the entry `k` of directory `d` changes, and so does the file `i` that it names. -/

structure Rewrites (d i k : ℕ) (de : Dirent) (v v' : ℕ → Node) : Prop where
  dir : (v d).type = T_DIR
  linked : 0 < (v d).nlink
  two_le : 2 ≤ k
  wrote : Node.Wrote k de (v d) (v' d)
  other : ∀ j, j ≠ d → j ≠ i → v' j = v j

section

variable {o : Option ℕ} (hdi : d ≠ i) (hother : ∀ j, j ≠ d → j ≠ i → v' j = v j)
  (hk : (v' d).entry k = o) (hd : ∀ j, j ≠ k → (v' d).entry j = (v d).entry j)

include hdi hother hk hd

theorem entries_of_two {o' : Option ℕ} (h1 : (v' i).entry 1 = o')
    (hi : ∀ j, j ≠ 1 → (v' i).entry j = (v i).entry j) :
    entries v' = update (update (entries v) (d, k) o) (i, 1) o' := by
  funext ⟨e, j⟩
  simp only [update_apply, Prod.mk.injEq, entries]
  by_cases hei : e = i
  · subst hei
    split_ifs with hj hj'
    · rw [hj.2, h1]
    · exact absurd hj'.1.symm hdi
    · exact hi j fun he => hj ⟨rfl, he⟩
  · rw [if_neg fun he => hei he.1]
    split_ifs with hj
    · rw [hj.1, hj.2, hk]
    · by_cases hed : e = d
      · subst hed
        exact hd j fun he => hj ⟨rfl, he⟩
      · rw [hother e hed hei]

theorem entries_of_file (ht : (v i).type ≠ T_DIR) (ht' : (v' i).type ≠ T_DIR) :
    entries v' = update (entries v) (d, k) o := by
  rw [entries_of_two hdi hother hk hd (entry_of_type ht' 1) fun j _ =>
    (entry_of_type ht' j).trans (entry_of_type ht j).symm]
  refine update_eq_self_iff.mpr ?_
  rw [update_of_ne fun he => hdi (congrArg Prod.fst he).symm]
  exact (up_of_type ht).symm

end

theorem nlink_of_two {a b : ℤ} (hother : ∀ j, j ≠ d → j ≠ i → v' j = v j) (hi : (v' i).nlink = a)
    (hd : (v' d).nlink = b) :
    (fun j => (v' j).nlink) = update (update (fun j => (v j).nlink) i a) d b := by
  funext j
  simp only [update_apply]
  split_ifs with hjd hji
  · rw [hjd, hd]
  · rw [hji, hi]
  · rw [hother j hjd hji]

theorem nlink_of_file {a : ℤ} (hdi : d ≠ i) (hother : ∀ j, j ≠ d → j ≠ i → v' j = v j)
    (hi : (v' i).nlink = a) (hd : (v' d).nlink = (v d).nlink) :
    (fun j => (v' j).nlink) = update (fun j => (v j).nlink) i a := by
  rw [nlink_of_two hother hi hd]
  refine update_eq_self_iff.mpr ?_
  rw [update_of_ne hdi]

theorem addFile (h : Links v) (hr : Rewrites d i k de v v') (hfree : entries v (d, k) = none)
    (hdl : (v' d).nlink = (v d).nlink) (hde : de.inum = i) (hi : i ≠ 0) (hi' : i < 2 ^ 16)
    (hname : namecmp dot de.name ≠ 0) (ht : (v i).type ≠ T_DIR) (ht' : (v' i).type ≠ T_DIR)
    (hz : (v' i).type ≠ 0) (hn : (v' i).nlink = (v i).nlink + 1) (hs : (v' i).nlink < 2 ^ 15) :
    Links v' := by
  obtain ⟨hd, hl, hk, hw, hother⟩ := hr
  have hdi := ne_of_type hd ht
  have hl' : 0 < (v' d).nlink := by rwa [hdl]
  have hentry : (v' d).entry k = some i := by
    rw [← hde]
    exact hw.entry_self hd hl' (hde ▸ hi) hname
  have hentries := entries_of_file hdi hother hentry (fun j hj => hw.entry_ne hl hl' hj) ht ht'
  refine ⟨?_, ?_, h.node_of_two hother ?_ ?_⟩
  · rw [hentries]
    exact h.tree.addFile (by omega) hfree (h.up_ne_none hd hl) (up_of_type ht)
  · rw [hentries, nlink_of_file hdi hother hn hdl]
    exact h.count.set hfree i
  · exact h.sane_wrote hd hk hw hl' (hdl ▸ (h.node d).small) fun _ => hname
  · exact ⟨fun _ => ⟨hi, hi'⟩, fun h1 => absurd h1 ht', fun h1 => absurd h1 ht', fun h0 => absurd h0 hz, hs⟩

theorem removeFile (h : Links v) (hr : Rewrites d i k de v v') (hx : entries v (d, k) = some i)
    (hdl : (v' d).nlink = (v d).nlink) (hde : de.inum = 0) (ht : (v i).type ≠ T_DIR)
    (ht' : (v' i).type = (v i).type) (hn : (v' i).nlink = (v i).nlink - 1) : Links v' := by
  obtain ⟨hd, hl, hk, hw, hother⟩ := hr
  have hdi := ne_of_type hd ht
  have hl' : 0 < (v' d).nlink := by rwa [hdl]
  have hentries := entries_of_file hdi hother (hw.entry_clear hde)
    (fun j hj => hw.entry_ne hl hl' hj) ht (ht' ▸ ht)
  have hpos : 0 < (v i).nlink := h.count.pos hx
  refine ⟨?_, ?_, h.node_of_two hother ?_ ?_⟩
  · rw [hentries]
    exact h.tree.removeFile (by omega) hx (up_of_type ht)
  · rw [hentries, nlink_of_file hdi hother hn hdl]
    exact h.count.clear hx
  · exact h.sane_wrote hd hk hw hl' (hdl ▸ (h.node d).small) fun hne => absurd hde hne
  · refine ⟨fun h1 => (h.node i).inum (ht' ▸ h1), fun h1 => absurd h1 (ht' ▸ ht),
      fun h1 => absurd h1 (ht' ▸ ht), fun h0 => ?_, ?_⟩
    · have := (h.node i).unused (ht' ▸ h0)
      omega
    · have := (h.node i).small
      omega

theorem addDir (h : Links v) (hr : Rewrites d i k de v v') (hfree : entries v (d, k) = none)
    (hdl : (v' d).nlink = (v d).nlink + 1) (hds : (v' d).nlink < 2 ^ 15) (hde : de.inum = i)
    (hi : i ≠ 0) (hi' : i < 2 ^ 16) (hname : namecmp dot de.name ≠ 0) (ht : (v i).type = 0)
    (ht' : (v' i).type = T_DIR) (hn : (v' i).nlink = 1) (hdir : (v' i).IsDir i)
    (hempty : (v' i).Empty) (hup : ((v' i).slot 1).inum = d) : Links v' := by
  obtain ⟨hd, hl, hk, hw, hother⟩ := hr
  have hnd : (v i).type ≠ T_DIR := by
    rw [ht]
    decide
  have hdi := ne_of_type hd hnd
  have hl' : 0 < (v' d).nlink := by omega
  have hentry : (v' d).entry k = some i := by
    rw [← hde]
    exact hw.entry_self hd hl' (hde ▸ hi) hname
  have hentry1 : (v' i).entry 1 = some d := by
    rw [hdir.entry_one ht' (by omega), hup]
  have hentry2 : ∀ j, j ≠ 1 → (v' i).entry j = (v i).entry j := fun j hj => by
    rw [entry_of_type hnd, hdir.entry_of_empty hempty hj]
  have hzero : (v i).nlink = 0 := (h.node i).unused ht
  have hentries := entries_of_two hdi hother hentry (fun j hj => hw.entry_ne hl hl' hj) hentry1 hentry2
  have hup0 : entries v (i, 1) = none := up_of_type hnd
  refine ⟨?_, ?_, h.node_of_two hother ?_ ?_⟩
  · rw [hentries]
    refine h.tree.addDir (by omega) hfree (h.up_ne_none hd hl) hup0 fun y hy => ?_
    have := h.count.pos hy
    omega
  · have hcount := (h.count.set hfree i).set (x := (i, 1))
      (by rw [update_of_ne fun he => hdi (congrArg Prod.fst he).symm]; exact hup0) d
    rw [update_of_ne hdi] at hcount
    rw [hentries, nlink_of_two hother (show (v' i).nlink = (v i).nlink + 1 by omega) hdl]
    exact hcount
  · exact h.sane_wrote hd hk hw hl' hds fun _ => hname
  · refine ⟨fun _ => ⟨hi, hi'⟩, fun _ => hdir, fun _ h0 => absurd h0 (by omega), fun h0 => ?_, by omega⟩
    rw [ht'] at h0
    contradiction

/-- A directory with a directory in it has another link than the `".."` there. -/
theorem two_le_nlink (h : Links v) (hk : 2 ≤ k) (hx : entries v (d, k) = some i)
    (ht : (v i).type = T_DIR) : entries v (i, 1) = some d ∧ 2 ≤ (v d).nlink := by
  have hpos : 0 < (v i).nlink := h.count.pos hx
  obtain ⟨hroot, hup⟩ := h.tree.up d k i _ (by omega) hx (h.up ht hpos)
  have hupd : entries v (i, 1) = some d := by
    rw [h.up ht hpos, hup]
  obtain ⟨y, hy, hyd⟩ := h.tree.exists_ne_up hupd hroot
  exact ⟨hupd, h.count.two_le hy hyd hupd⟩

theorem removeDir (h : Links v) (hr : Rewrites d i k de v v') (hx : entries v (d, k) = some i)
    (hdl : (v' d).nlink = (v d).nlink - 1) (hde : de.inum = 0) (ht : (v i).type = T_DIR)
    (hempty : (v i).Empty) (ht' : (v' i).type = T_DIR) (hn : (v' i).nlink = (v i).nlink - 1)
    (hslots : (v' i).nslots = (v i).nslots) (hslot : ∀ j, (v' i).slot j = (v i).slot j) :
    Links v' := by
  obtain ⟨hd, hl, hk, hw, hother⟩ := hr
  have hpos : 0 < (v i).nlink := h.count.pos hx
  have hdir := (h.node i).dir ht
  have hnone : ∀ j, j ≠ 1 → entries v (i, j) = none := fun j => hdir.entry_of_empty hempty
  have hdi : d ≠ i := by
    rintro rfl
    rw [hnone k (by omega)] at hx
    contradiction
  -- it has one link, and its parent has another one than its `".."`
  have hone : (v i).nlink = 1 := h.count.eq_one hx fun y hy =>
    h.tree.eq_of_empty (by omega) hx (h.up_ne_none ht hpos) hnone hy
  obtain ⟨hupd, htwo⟩ := h.two_le_nlink hk hx ht
  have hl' : 0 < (v' d).nlink := by omega
  have hzero : (v' i).nlink = 0 := by omega
  have hentries := entries_of_two hdi hother (hw.entry_clear hde) (fun j hj => hw.entry_ne hl hl' hj)
    (entry_of_nlink hzero 1) fun j hj => (entry_of_nlink hzero j).trans (hnone j hj).symm
  refine ⟨?_, ?_, h.node_of_two hother ?_ ?_⟩
  · rw [hentries]
    exact h.tree.removeDir (by omega) hx (h.up_ne_none ht hpos) hnone
  · have hcount := (h.count.clear hx).clear (x := (i, 1)) (i := d)
      (by rw [update_of_ne fun he => hdi (congrArg Prod.fst he).symm]; exact hupd)
    rw [update_of_ne hdi] at hcount
    rw [hentries, nlink_of_two hother hn hdl]
    exact hcount
  · have hs := (h.node d).small
    exact h.sane_wrote hd hk hw hl' (by omega) fun hne => absurd hde hne
  · refine ⟨fun _ => (h.node i).inum (by rw [ht]; decide), fun _ => ?_, fun _ _ j hj hlt => ?_,
      fun h0 => ?_, by omega⟩
    · exact ⟨hslots ▸ hdir.nslots, (hslot 0) ▸ hdir.self, (hslot 0) ▸ hdir.dot, (hslot 1) ▸ hdir.parent,
        (hslot 1) ▸ hdir.dotdot, fun j hj hlt => (hslot j) ▸ hdir.names j hj (hslots ▸ hlt)⟩
    · rw [hslot j]
      exact hempty j hj (hslots ▸ hlt)
    · rw [ht'] at h0
      contradiction

theorem of_same (h : Links v) (hentry : ∀ j k, (v' j).entry k = (v j).entry k)
    (hnlink : ∀ j, (v' j).nlink = (v j).nlink) (hnode : ∀ j, (v' j).Sane j) : Links v' := by
  have hentries : entries v' = entries v := funext fun x => hentry x.1 x.2
  refine ⟨hentries ▸ h.tree, ?_, hnode⟩
  rw [hentries, funext hnlink]
  exact h.count

theorem setFile (h : Links v) {y : Node} (ht : (v i).type ≠ T_DIR) (hty : y.type = (v i).type)
    (hn : y.nlink = (v i).nlink) : Links (update v i y) := by
  refine h.of_same (fun j k => ?_) (fun j => ?_) fun j => ?_
  all_goals
    by_cases hj : j = i
    · subst hj
      rw [update_self]
      first
        | exact (entry_of_type (hty ▸ ht) k).trans (entry_of_type ht k).symm
        | exact hn
        | exact ⟨fun h1 => (h.node j).inum (hty ▸ h1), fun h1 => absurd h1 (hty ▸ ht),
            fun h1 => absurd h1 (hty ▸ ht), fun h0 => hn.trans ((h.node j).unused (hty ▸ h0)),
            hn ▸ (h.node j).small⟩
    · rw [update_of_ne hj]
      try exact h.node j

/-- **Files without links disappear.** -/
theorem sweep (h : Links v) (hs : Sweep v v') : Links v' := by
  refine h.of_same (fun j k => ?_) (fun j => ?_) fun j => ?_
  · rcases hs j with he | ⟨he, hn⟩
    · rw [he]
    · rw [he, entry_of_nlink hn, entry_of_type (by decide)]
  · rcases hs j with he | ⟨he, hn⟩
    · rw [he]
    · rw [he, hn]
      rfl
  · rcases hs j with he | ⟨he, -⟩
    · rw [he]
      exact h.node j
    · rw [he]
      exact .free j

end Links

/-! ## System calls -/

/-- **The condition**: names are entered into linked directories only, and no link count is raised above the
largest `short`. -/
def Aim.Proper (v : ℕ → Node) : Aim → Prop
  | .make t d name => (v d).type = T_DIR → (v d).find name = none →
      0 < (v d).nlink ∧ (t = T_DIR → (v d).nlink + 1 < 2 ^ 15)
  | .link i d name => (v d).type = T_DIR → (v d).find name = none →
      0 < (v d).nlink ∧ (v i).nlink + 1 < 2 ^ 15
  | _ => True

theorem short_eq {n : ℤ} (h0 : 0 ≤ n) (h : n < 2 ^ 15) : short n = n := by
  unfold short
  exact Int.bmod_eq_of_le (by omega) (by omega)

theorem emptyDirent_wf : emptyDirent.Wf := ⟨by decide, rfl⟩

/-- A link count that is raised and lowered again. -/
theorem short_relink {n : ℤ} (h0 : 0 ≤ n) (h : n < 2 ^ 15) : short (short (n + 1) - 1) = n := by
  simp only [short, Int.bmod]
  omega

theorem IsNewDir.spec {i d : ℕ} {y : Node} (h : IsNewDir i d y) (hi : i ≠ 0) (hi' : i < 2 ^ 16)
    (hd : d ≠ 0) (hd' : d < 2 ^ 16) :
    y.type = T_DIR ∧ y.nlink = 1 ∧ y.IsDir i ∧ y.Empty ∧ (y.slot 1).inum = d := by
  obtain ⟨k, hk, rfl⟩ := h
  set x : Node := ⟨T_DIR, 1, 0, fun _ => 0⟩ with hx
  have hw : Node.Wrote 0 (newDirent dot i) x (x.setSlot 0 (newDirent dot i)) :=
    wrote_setSlot (.inr rfl) (newDirent_wf dot i)
  have hinum : ∀ name n, n < 2 ^ 16 → (newDirent name n).inum = n := fun _ _ hn => mod_eq_of_lt hn
  have hslots : ∀ j, j < (x.setSlot 0 (newDirent dot i)).nslots ↔ j = 0 := by
    intro j
    rw [hw.nslots]
    exact or_iff_right (show ¬ j < 0 / 16 from not_lt_zero j)
  have hk1 : k = 1 := by
    rcases hk with ⟨hlt, hz⟩ | hsize
    · rw [(hslots k).mp hlt, hw.slot_self, hinum dot i hi'] at hz
      exact absurd hz hi
    · rw [setSlot_size (newDirent_wf dot i)] at hsize
      simp only [hx, Dirent.SIZE, DIRSIZ] at hsize
      omega
  subst hk1
  have hw' : Node.Wrote 1 (newDirent dotdot d) (x.setSlot 0 (newDirent dot i))
      ((x.setSlot 0 (newDirent dot i)).setSlot 1 (newDirent dotdot d)) :=
    wrote_setSlot hk.place (newDirent_wf dotdot d)
  have hslots' : ∀ j, j < ((x.setSlot 0 (newDirent dot i)).setSlot 1 (newDirent dotdot d)).nslots ↔
      j < 2 := by
    intro j
    rw [hw'.nslots, hslots]
    omega
  refine ⟨rfl, rfl, ⟨?_, ?_, ?_, ?_, ?_, fun j hj hlt => ?_⟩, fun j hj hlt => ?_, ?_⟩
  · exact (hslots' 1).mpr (by decide)
  · rw [hw'.slot_ne (by decide), hw.slot_self, hinum dot i hi']
  · rw [hw'.slot_ne (by decide), hw.slot_self]
    exact show namecmp dot (strncpy dot DIRSIZ) = 0 by decide
  · rw [hw'.slot_self, hinum dotdot d hd']
    exact hd
  · rw [hw'.slot_self]
    exact show namecmp dotdot (strncpy dotdot DIRSIZ) = 0 by decide
  · have := (hslots' j).mp hlt
    omega
  · have := (hslots' j).mp hlt
    omega
  · rw [hw'.slot_self, hinum dotdot d hd']

namespace Links

variable {sb : SuperBlock} {v v' : ℕ → Node} {d i k : ℕ} {a : Aim} {name : List UInt8}

theorem update_two (hdi : d ≠ i) (v : ℕ → Node) (x y : Node) :
    update (update v i y) d x d = x ∧ update (update v i y) d x i = y ∧
      ∀ j, j ≠ d → j ≠ i → update (update v i y) d x j = v j :=
  ⟨update_self .., by rw [update_of_ne hdi.symm, update_self],
    fun j hjd hji => by rw [update_of_ne hjd, update_of_ne hji]⟩

theorem enterFile (h : Links v) {y : Node} (hd : (v d).type = T_DIR) (hl : 0 < (v d).nlink)
    (hf : (v d).find name = none) (hk : (v d).Spare k) (hi : i ≠ 0) (hi' : i < 2 ^ 16)
    (ht : (v i).type ≠ T_DIR) (ht' : y.type ≠ T_DIR) (hz : y.type ≠ 0)
    (hn : y.nlink = (v i).nlink + 1) (hs : y.nlink < 2 ^ 15) :
    Links (update (update v i y) d ((v d).setSlot k (newDirent name i))) := by
  have hdi := ne_of_type hd ht
  have hdir := (h.node d).dir hd
  have hd0 := ((h.node d).inum (by rw [hd]; decide)).1
  obtain ⟨e1, e2, hother⟩ := update_two hdi v ((v d).setSlot k (newDirent name i)) y
  have hw := e1.symm ▸ wrote_setSlot hk.place (newDirent_wf name i)
  refine h.addFile ⟨hd, hl, hdir.two_le_of_spare hd0 hk, hw, hother⟩ hk.entry
    ((congrArg nlink e1).trans rfl) (mod_eq_of_lt hi') hi hi' (hdir.new_name hd0 hf i) ht
    ?_ ?_ ?_ ?_
  all_goals
    rw [e2]
    assumption

/-- The directory of an entry that is not one of the first two is linked. -/
theorem linked_of_find (h : Links v) (hd : (v d).type = T_DIR) (h1 : namecmp name dot ≠ 0)
    (h2 : namecmp name dotdot ≠ 0) (hf : (v d).find name = some k) :
    0 < (v d).nlink ∧ 2 ≤ k ∧ entries v (d, k) = some ((v d).slot k).inum := by
  have hdir := (h.node d).dir hd
  obtain ⟨hlt, hne, -⟩ := find_some hf
  have hk2 := hdir.two_le_of_find hf h1 h2
  have hl : 0 < (v d).nlink := by
    have := h.nlink_nonneg d
    by_contra hle
    exact hne ((h.node d).empty hd (by omega) k hk2 hlt)
  exact ⟨hl, hk2, hdir.entry_name hd hl hk2 hlt hne⟩

/-- **A change that meets the condition keeps the tree and the link counts.** -/
theorem change (h : Links v) (hsb : sb.ninodes ≤ 2 ^ 16) (ha : a.Proper v) (hc : Change sb a v v') :
    Links v' := by
  cases hc with
  | nothing => exact h
  | data hnd _ hty hn => exact h.setFile hnd hty hn
  | relink hnd _ => exact h.setFile hnd rfl (short_relink (h.nlink_nonneg _) (h.node _).small)
  | create ho hd hf hk h1 hlt hz ht hnd =>
    subst ho
    have hnz := (h.node _).unused hz
    exact h.enterFile hd (ha hd hf).1 hf hk (by omega) (by omega) (by rw [hz]; decide) hnd ht
      (by rw [hnz]; rfl) (by norm_num)
  | @mkdir d i k name y ho hd hf hk h1 hlt hz hnew =>
    subst ho
    obtain ⟨hl, hs⟩ := ha hd hf
    have hs := hs rfl
    have hdir := (h.node d).dir hd
    obtain ⟨hd0, hd16⟩ := (h.node d).inum (by rw [hd]; decide)
    obtain ⟨hyt, hyn, hyd, hye, hyu⟩ := hnew.spec (by omega) (by omega) hd0 hd16
    have hdi : d ≠ i := ne_of_type hd (by rw [hz]; decide)
    have hnl : short ((v d).nlink + 1) = (v d).nlink + 1 := short_eq (by omega) hs
    obtain ⟨e1, e2, hother⟩ := update_two hdi v
      { (v d).setSlot k (newDirent name i) with nlink := short ((v d).nlink + 1) } y
    have hw := (wrote_setSlot hk.place (newDirent_wf name i)).setNlink (short ((v d).nlink + 1))
    refine h.addDir ⟨hd, hl, hdir.two_le_of_spare hd0 hk, e1.symm ▸ hw, hother⟩ hk.entry ?_ ?_
      (mod_eq_of_lt (by omega)) (by omega) (by omega) (hdir.new_name hd0 hf i) hz ?_ ?_ ?_ ?_ ?_
    · rw [e1]
      exact hnl
    · rw [e1]
      exact hnl.trans_lt hs
    all_goals
      rw [e2]
      assumption
  | @link d i k name ho hd hf hk hnd hz =>
    subst ho
    obtain ⟨hl, hs⟩ := ha hd hf
    obtain ⟨hi, hi'⟩ := (h.node i).inum hz
    have hnl : short ((v i).nlink + 1) = (v i).nlink + 1 := by
      have := h.nlink_nonneg i
      exact short_eq (by omega) hs
    exact h.enterFile hd hl hf hk hi hi' hnd hnd hz hnl (hnl.trans_lt hs)
  | @unlink d i k name ho hd h1 h2 hf hi hnd hz hn =>
    subst ho
    obtain ⟨hl, hk2, hx⟩ := h.linked_of_find hd h1 h2 hf
    rw [← hi] at hx
    have hdi : d ≠ i := ne_of_type hd hnd
    have hs := (h.node i).small
    obtain ⟨e1, e2, hother⟩ := update_two hdi.symm v { v i with nlink := short ((v i).nlink - 1) }
      ((v d).setSlot k emptyDirent)
    have hw := e2.symm ▸ wrote_setSlot (.inl (find_some hf).1) emptyDirent_wf
    refine h.removeFile ⟨hd, hl, hk2, hw, fun j hjd hji => hother j hji hjd⟩ hx ?_ rfl hnd ?_ ?_
    · rw [e2]
      rfl
    · rw [e1]
    · rw [e1]
      exact short_eq (by omega) (by omega)
  | @rmdir d i k name x y ho hd h1 h2 hf hi ht hn hempty hx hy =>
    subst ho
    obtain ⟨hl, hk2, hentry⟩ := h.linked_of_find hd h1 h2 hf
    obtain ⟨hlt, hne, -⟩ := find_some hf
    rw [← hi] at hentry
    have hdi : d ≠ i := by
      rintro rfl
      exact hne (hempty k hk2 hlt)
    have hy : y = v i := by
      rw [hy, update_of_ne hdi.symm]
    subst hy
    have hs := (h.node i).small
    have hsd := (h.node d).small
    obtain ⟨e1, e2, hother⟩ := update_two hdi.symm v { v i with nlink := short ((v i).nlink - 1) } x
    have hw := (wrote_setSlot (.inl hlt) emptyDirent_wf).setNlink (short ((v d).nlink - 1))
    rw [← hx, ← e2] at hw
    refine h.removeDir ⟨hd, hl, hk2, hw, fun j hjd hji => hother j hji hjd⟩ hentry ?_ rfl ht hempty
      ?_ ?_ ?_ ?_
    · rw [e2, hx]
      exact short_eq (by omega) (by omega)
    · rw [e1]
      exact ht
    · rw [e1]
      exact short_eq (by omega) (by omega)
    · rw [e1]
      rfl
    · intro j
      rw [e1]
      rfl

/-- The condition speaks of the files at the start of a call. -/
theorem proper_of_sweep (ha : a.Proper v) (hs : Sweep v v') : a.Proper v' := by
  cases a with
  | nothing => trivial
  | make t d name =>
    intro hd hf
    have he : v' d = v d := hs.eq_of_type (by rw [hd]; decide)
    rw [he] at hd hf ⊢
    exact ha hd hf
  | link i d name =>
    intro hd hf
    have he : v' d = v d := hs.eq_of_type (by rw [hd]; decide)
    rw [he] at hd hf ⊢
    obtain ⟨hl, hi⟩ := ha hd hf
    refine ⟨hl, ?_⟩
    rcases hs i with he | ⟨he, -⟩
    · rwa [he]
    · rw [he]
      decide
  | remove d name => trivial

/-- **A call that meets the condition keeps the tree and the link counts.** -/
theorem step (h : Links v) (hsb : sb.ninodes ≤ 2 ^ 16) (ha : a.Proper v) (hs : NodeStep sb a v v') :
    Links v' := by
  obtain ⟨v1, v2, h1, hc, h2⟩ := hs
  exact ((h.sweep h1).change hsb (proper_of_sweep ha h1) hc).sweep h2

end Links

/-! ## Runs -/

namespace Volume

variable {vol : Volume}

/-- The places of directory entries. -/
def places (vol : Volume) : Finset (ℕ × ℕ) :=
  range vol.sb.ninodes ×ˢ
    range ((range vol.sb.ninodes).sup fun d => (vol.node d).nslots)

/-- The number of entries for inode `i` in linked directories, other than `"."`. -/
def linkCount (vol : Volume) (i : ℕ) : ℕ := npointers vol.places (entries vol.node) i

/-- **Link counts are exact.** -/
def LinksExact (vol : Volume) : Prop := ∀ i, vol.Live i → (vol.inode i).nlink = vol.linkCount i

/-- **A well-formed image**: the directories are a tree, no entry names an inode that is not
allocated, and link counts are exact. -/
structure WellFormed (vol : Volume) : Prop extends Bootable vol where
  tree : LinkTree ROOTINO 1 (entries vol.node)
  node : ∀ i, (vol.node i).Sane i
  exact : vol.LinksExact
  unused : ∀ i, ¬ vol.Live i → vol.linkCount i = 0
  ninodes : vol.sb.ninodes ≤ 2 ^ 16

theorem mem_places {x : ℕ × ℕ} (hx : entries vol.node x ≠ none) : x ∈ vol.places := by
  obtain ⟨i, hi⟩ := ne_none_iff_exists'.mp hx
  obtain ⟨ht, -, hk, -⟩ := entry_eq_some hi
  have hlive : vol.Live x.1 := live_iff_node.mpr (by rw [ht]; decide)
  refine mem_product.mpr ⟨mem_range.mpr hlive.1, mem_range.mpr ?_⟩
  exact lt_of_lt_of_le hk (le_sup (f := fun d => (vol.node d).nslots) (mem_range.mpr hlive.1))

theorem WellFormed.links (h : vol.WellFormed) : Links vol.node := by
  refine ⟨h.tree, ⟨vol.places, fun x => mem_places, fun i => ?_⟩, h.node⟩
  by_cases hi : vol.Live i
  · exact (node_nlink hi).trans (h.exact i hi)
  · show (vol.node i).nlink = vol.linkCount i
    rw [h.unused i hi, Volume.node, if_neg hi]
    rfl

theorem linksExact_of_links (h : Links vol.node) : vol.LinksExact := by
  intro i hi
  rw [← node_nlink hi]
  exact h.count.eq_npointers (fun x => mem_places) i

theorem sample_entries : entries sample.node = update (fun _ => none) (ROOTINO, 1) (some ROOTINO) := by
  funext ⟨d, k⟩
  by_cases hd : d = ROOTINO
  · subst hd
    have hslots : (sample.node ROOTINO).nslots = 2 := by decide
    by_cases hk : k < 2
    · interval_cases k <;> decide +kernel
    · rw [update_of_ne fun he => hk ((congrArg Prod.snd he).trans_lt (by decide))]
      exact if_neg fun hc => hk (hslots ▸ hc.2.2.1)
  · rw [update_of_ne fun he => hd (congrArg Prod.fst he)]
    have hdead : ¬ sample.Live d := fun hl => hd (sample_live.mp hl)
    rw [entries, node, if_neg hdead]
    exact entry_of_type (by decide) k

theorem sample_wellFormed : sample.WellFormed := by
  have hentry : ∀ x i, entries sample.node x = some i → x = (ROOTINO, 1) ∧ i = ROOTINO := by
    intro x i hx
    rw [sample_entries, update_apply] at hx
    split_ifs at hx with he
    exact ⟨he, (some.inj hx).symm⟩
  refine ⟨sample_bootable, ⟨?_, ?_, ?_, ?_, ?_⟩, fun i => ?_, fun i hi => ?_, fun i hi => ?_, by decide⟩
  · rw [sample_entries, update_self]
  · intro d k hd
    obtain ⟨i, hi⟩ := ne_none_iff_exists'.mp hd
    obtain ⟨rfl, rfl⟩ := Prod.mk.inj (hentry _ _ hi).1
    exact hd
  · intro i d hi hne
    exact absurd (Prod.mk.inj (hentry _ _ hi).1).1 hne
  · intro d k i e hk hd
    exact absurd (Prod.mk.inj (hentry _ _ hd).1).2 hk
  · intro d k k' i hk _ hd
    exact absurd (Prod.mk.inj (hentry _ _ hd).1).2 hk
  · by_cases hi : i = ROOTINO
    · subst hi
      refine ⟨fun _ => by decide, fun _ => ⟨by decide, by decide +kernel, by decide +kernel,
        by decide +kernel, by decide +kernel, fun k hk hlt => ?_⟩, fun _ h0 => absurd h0 (by decide),
        fun h0 => absurd h0 (by decide), by decide⟩
      have hslots : (sample.node ROOTINO).nslots = 2 := by decide
      omega
    · have hdead : ¬ sample.Live i := fun hl => hi (sample_live.mp hl)
      rw [node, if_neg hdead]
      exact .free i
  · obtain rfl := sample_live.mp hi
    decide +kernel
  · refine npointers.eq_zero fun x _ hx => hi ?_
    rw [(hentry x i hx).2]
    exact sample_live.mpr rfl

end Volume

variable {P : Type} [DecidableEq P]

/-- Where a path of process `p` leads. -/
def FsState.lookup (s : FsState P) (p : P) (parent : Bool) (path : Option (List UInt8)) :
    Option (ℕ × List UInt8) :=
  path.bind fun path => (s.proc p).cwd.bind fun c =>
    walk s.vol.node parent (elements path) (pathStart path c)

/-- The call enters no name into a directory without links, and raises no link count beyond a `short`. -/
def FsCall.Proper (c : FsCall P) (s : FsState P) : Prop := (c.aim s.lookup).Proper s.vol.node

variable [Fintype P] {img : Volume} {init : P} {s : FsState P}

omit [DecidableEq P] in
theorem FsState.Running.lookup {g : Afs P} (h : FsState.Running img s g) : s.lookup = g.lookup := by
  unfold FsState.lookup Afs.lookup
  rw [h.1.node, h.1.proc]

theorem FsState.running_links (h : img.WellFormed)
    (hs : Reaches FsCall.step FsCall.Proper (.boot img init) s) :
    ∃ g, FsState.Running img s g ∧ Links g.node := by
  refine hs.invariant (I := fun s => ∃ g, FsState.Running img s g ∧ Links g.node)
    ⟨_, boot_running h.toBootable init, h.links⟩ ?_
  rintro c t u ⟨g, hg, hl⟩ hc hstep
  obtain ⟨g', hg', hd⟩ := hg.step hstep
  refine ⟨g', hg', hl.step (hg.2.2.1 ▸ h.ninodes) ?_ hd.step.node⟩
  rw [← hg.lookup, ← hg.1.node]
  exact hc

/-- **Link counts are exact in every run in which calls meet the condition.** -/
theorem links_exact (h : img.WellFormed)
    (hs : Reaches FsCall.step FsCall.Proper (.boot img init) s) : s.vol.LinksExact := by
  obtain ⟨g, hg, hl⟩ := running_links h hs
  rw [← hg.1.node] at hl
  exact linksExact_of_links hl

instance (v : ℕ → Node) : DecidablePred (Aim.Proper v)
  | .nothing => inferInstanceAs (Decidable True)
  | .make .. => inferInstanceAs (Decidable (_ → _ → _ ∧ (_ → _)))
  | .link .. => inferInstanceAs (Decidable (_ → _ → _ ∧ _))
  | .remove .. => inferInstanceAs (Decidable True)

instance (c : FsCall P) (s : FsState P) : Decidable (c.Proper s) :=
  inferInstanceAs (Decidable (Aim.Proper _ _))

/-- A directory is made, and a file in it. -/
theorem links_exact_sample : ∃ s : FsState Unit,
    Reaches FsCall.step FsCall.Proper (.boot .sample ()) s ∧ (s.vol.inode 3).type = T_FILE ∧
      s.vol.LinksExact := by
  have hrun : (run FsCall.step FsCall.Proper
      [.mkdir () (some [slash, 100]), .open () (some [slash, 100, slash, 120]) O_CREATE]
      (boot sample ())).any (fun s => (s.vol.inode 3).type = T_FILE) = true := by
    decide +kernel
  obtain ⟨s, hs, hp⟩ := exists_reaches_of_run hrun
  exact ⟨s, hs, hp, links_exact sample_wellFormed hs⟩

/-- A file is made in the current directory after this has been removed: its link does not count. -/
theorem links_not_exact : sample.WellFormed ∧
    ∃ s : FsState Unit, s.Reached .sample () ∧ ¬ s.vol.LinksExact := by
  refine ⟨sample_wellFormed, ?_⟩
  have hrun : (run FsCall.step anyEvent
      [.mkdir () (some [slash, 100]), .chdir () (some [slash, 100]), .unlink () (some [slash, 100]),
        .open () (some [120]) O_CREATE]
      (boot sample ())).any (fun s => decide (s.vol.Live 3 ∧
        (s.vol.inode 3).nlink ≠ s.vol.linkCount 3)) = true := by
    decide +kernel
  obtain ⟨s, hs, hlive, hne⟩ := exists_reaches_of_run hrun
  exact ⟨s, hs, fun h => hne (h 3 hlive)⟩

end Xv6
