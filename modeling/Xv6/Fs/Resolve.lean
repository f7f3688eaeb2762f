import Xv6.Fs.DirectoryMap
import Xv6.Fs.Orphans

/-!
# Resolving paths

**Components.** What calls of `skipelem` find are the parts of the path between slashes that are not
empty, cut to `DIRSIZ` bytes (`components`).

**Files.** `namei` looks one component after the other up (`resolve`), and `nameiparent` all but the
last (`resolveParent`). On the way the inode that has been reached is referenced, and what is passed
is released again: in the end there is one reference more to the result, and nothing else has
changed (`Holding`).

The code does not check that what an entry names is allocated. A path is `Passable` if every inode
that a component is applied to is allocated, and has a link or a reference so that it does not go
away on the way.

Main result: `path_resolution`.
-/

open Function List Nat Option Transition

namespace Xv6

open FsState Node Volume

/-! ## Components -/

/-- The parts of a path between slashes, without the empty ones, cut to `DIRSIZ` bytes. -/
def components (path : List UInt8) : List (List UInt8) :=
  ((path.splitOnP (· = slash)).filter (· ≠ [])).map (·.take DIRSIZ)

theorem components_slash (path : List UInt8) : components (slash :: path) = components path := by
  unfold components
  rw [splitOnP_cons_eq_if_modifyHead, if_pos (decide_eq_true rfl)]
  rfl

theorem components_dropWhile (path : List UInt8) :
    components (path.dropWhile (· = slash)) = components path := by
  induction path with
  | nil => rfl
  | cons a path ih =>
    rw [dropWhile_cons]
    split_ifs with ha
    · obtain rfl : a = slash := of_decide_eq_true ha
      rw [ih, components_slash]
    · rfl

/-- A path that does not begin with a slash begins with a component. -/
theorem components_cons {path : List UInt8} (h : path ≠ []) (hslash : path.head? ≠ some slash) :
    components path = (path.takeWhile (· ≠ slash)).take DIRSIZ ::
      components (path.dropWhile (· ≠ slash)) := by
  have hfree : ∀ x ∈ path.takeWhile (· ≠ slash), decide (x = slash) = false := by
    intro x hx
    have := mem_takeWhile_imp hx
    simpa using this
  have hne : path.takeWhile (· ≠ slash) ≠ [] := by
    obtain ⟨a, path, rfl⟩ := exists_cons_of_ne_nil h
    have ha : a ≠ slash := fun ha => hslash (congrArg some ha)
    rw [takeWhile_cons_of_pos (by simpa using ha)]
    exact cons_ne_nil _ _
  have hsplit : path = path.takeWhile (· ≠ slash) ++ path.dropWhile (· ≠ slash) :=
    takeWhile_append_dropWhile.symm
  cases hrest : path.dropWhile (· ≠ slash) with
  | nil =>
    rw [hrest, append_nil] at hsplit
    rw [← hsplit] at hfree ⊢
    unfold components
    rw [splitOnP_eq_singleton hfree]
    simp [h]
  | cons a rest =>
    have ha : a = slash := by
      have := head?_dropWhile_not (fun x => decide (x ≠ slash)) path
      rw [hrest] at this
      simpa using this
    subst ha
    rw [hrest] at hsplit
    rw [components_slash]
    conv_lhs => rw [hsplit]
    unfold components
    rw [splitOnP_append_cons_of_forall_mem hfree _ (decide_eq_true rfl),
      filter_cons_of_pos (by simpa using hne), map_cons]

/-- **One call of `skipelem` takes one component off the path.** -/
theorem skipelem_components (path : List UInt8) : (skipelem path = none ↔ components path = []) ∧
    ∀ name rest, skipelem path = some (name, rest) → components path = name :: components rest ∧
      (rest = [] ↔ components rest = []) ∧ rest.length < path.length := by
  have hhead : (path.dropWhile (· = slash)).head? ≠ some slash := by
    intro hh
    have := head?_dropWhile_not (fun x => decide (x = slash)) path
    rw [hh] at this
    simp at this
  unfold skipelem
  simp only
  by_cases hp : path.dropWhile (· = slash) = []
  · have hc : components path = [] := by
      rw [← components_dropWhile, hp]
      rfl
    rw [if_pos hp]
    exact ⟨iff_of_true rfl hc, fun _ _ h => absurd h.symm (some_ne_none _)⟩
  · have hcons := components_cons hp hhead
    rw [components_dropWhile] at hcons
    rw [if_neg hp]
    refine ⟨iff_of_false (some_ne_none _) (by rw [hcons]; exact cons_ne_nil _ _), ?_⟩
    rintro name rest h
    obtain ⟨rfl, rfl⟩ := Prod.mk.inj (some.inj h)
    refine ⟨by rw [hcons, components_dropWhile], ?_, ?_⟩
    · -- what is left begins with a component
      constructor
      · intro he
        rw [he]
        rfl
      · intro hc
        by_contra hne
        rw [components_cons hne] at hc
        · exact absurd hc (cons_ne_nil _ _)
        · intro hh
          have := head?_dropWhile_not (fun x => decide (x = slash))
            ((path.dropWhile (· = slash)).dropWhile (· ≠ slash))
          rw [hh] at this
          simp at this
    · have hlen : ((path.dropWhile (· = slash)).dropWhile (· ≠ slash)).length <
          (path.dropWhile (· = slash)).length := by
        obtain ⟨a, l, hl⟩ := exists_cons_of_ne_nil hp
        rw [hl] at hhead ⊢
        have ha : a ≠ slash := fun ha => hhead (congrArg some ha)
        rw [dropWhile_cons_of_pos (by simpa using ha)]
        exact lt_succ_of_le (length_dropWhile_le _ _)
      have h1 := length_dropWhile_le (fun x => decide (x = slash))
        ((path.dropWhile (· = slash)).dropWhile (· ≠ slash))
      have h2 := length_dropWhile_le (fun x => decide (x = slash)) path
      omega

theorem skipelems_eq (fuel : ℕ) (path : List UInt8) (h : path.length ≤ fuel) :
    skipelems fuel path = components path := by
  induction fuel generalizing path with
  | zero =>
    obtain rfl := eq_nil_of_length_eq_zero (le_zero.1 h)
    rfl
  | succ fuel ih =>
    obtain ⟨hnone, hsome⟩ := skipelem_components path
    unfold skipelems
    cases hs : skipelem path with
    | none => exact (hnone.1 hs).symm
    | some x =>
      obtain ⟨name, rest⟩ := x
      obtain ⟨hc, -, hlen⟩ := hsome name rest hs
      rw [hc]
      exact congrArg (name :: ·) (ih rest (by omega))

theorem elements_eq (path : List UInt8) : elements path = components path :=
  skipelems_eq path.length path le_rfl

/-! ## Files -/

/-- The file with a name in directory `i`. -/
def lookupIn (v : ℕ → Node) (i : ℕ) (name : List UInt8) : Option ℕ :=
  if (v i).type = T_DIR then ((v i).find name).map fun k => ((v i).slot k).inum else none

theorem lookup_setSlot_self {x : Node} {k : ℕ} {de : Dirent} {name : List UInt8} (hw : de.Wf)
    (hs : x.Spare k)
    (hn : de.Named name) (hf : x.find name = none) :
    (((x.setSlot k de).find name).map fun k' => ((x.setSlot k de).slot k').inum) = some de.inum := by
  rw [find_setSlot_self hw hs hn hf, map_some, slot_setSlot hw, if_pos rfl]

theorem lookup_setSlot_of_not_named {x : Node} {k : ℕ} {de : Dirent} {name : List UInt8} (hw : de.Wf)
    (hs : x.Spare k) (hn : ¬ de.Named name) :
    (((x.setSlot k de).find name).map fun k' => ((x.setSlot k de).slot k').inum) =
      (x.find name).map fun k' => (x.slot k').inum := by
  rw [find_setSlot_of_not_named hw hs hn]
  refine map_congr fun k' hk' => ?_
  obtain ⟨hlt, hnamed⟩ := find_some hk'
  have hne : k' ≠ k := by
    rintro rfl
    rcases hs with ⟨-, hz⟩ | hz
    · exact hnamed.1 hz
    · exact absurd hlt (not_lt.2 (nslots_le hz.ge))
  rw [slot_setSlot hw, if_neg hne]

/-- **The file that a path leads to** from `i`: one component is looked up after the other. -/
def resolve (v : ℕ → Node) (names : List (List UInt8)) (i : ℕ) : Option ℕ := names.foldlM (lookupIn v) i

/-- **The directory of the last component**, and the component. -/
def resolveParent (v : ℕ → Node) (names : List (List UInt8)) (i : ℕ) : Option (ℕ × List UInt8) :=
  names.getLast?.bind fun last => (resolve v names.dropLast i).bind fun d =>
    if (v d).type = T_DIR then some (d, last) else none

section Walk

variable {v : ℕ → Node} {name : List UInt8} {names : List (List UInt8)} {i j : ℕ}

theorem resolve_nil (v : ℕ → Node) (i : ℕ) : resolve v [] i = some i := rfl

theorem resolve_cons (v : ℕ → Node) (name : List UInt8) (names : List (List UInt8)) (i : ℕ) :
    resolve v (name :: names) i = (lookupIn v i name).bind (resolve v names) := rfl

/-- The last component is looked up in the directory of the path. -/
theorem resolve_eq_parent (h : names ≠ []) :
    resolve v names i = (resolveParent v names i).bind fun x => lookupIn v x.1 x.2 := by
  obtain ⟨l, last, rfl⟩ := eq_nil_or_concat'  names |>.resolve_left h
  unfold resolveParent
  rw [getLast?_concat, dropLast_concat, bind_some]
  unfold resolve
  rw [foldlM_append]
  show bind _ (fun d => (lookupIn v d last).bind some) = _
  rw [bind_assoc]
  refine congrArg _ (funext fun d => ?_)
  unfold lookupIn
  split_ifs with hdir
  · rw [bind_some, if_pos hdir, bind_fun_some]
  · rfl

/-- `walk` is how the loop of `namex` goes. -/
theorem walk_false (names : List (List UInt8)) (i : ℕ) :
    Fs.walk v false names i = (resolve v names i).map fun j => (j, []) := by
  induction names generalizing i with
  | nil => rfl
  | cons name names ih =>
    unfold Fs.walk
    rw [resolve_cons]
    unfold lookupIn
    by_cases hdir : (v i).type = T_DIR
    · simp only [ne_eq, hdir, not_true_eq_false, if_false, Bool.false_eq_true, false_and, if_true]
      cases (v i).find name with
      | none => rfl
      | some k => exact ih _
    · simp [hdir]

theorem walk_true (names : List (List UInt8)) (i : ℕ) :
    Fs.walk v true names i = resolveParent v names i := by
  induction names generalizing i with
  | nil => rfl
  | cons name names ih =>
    unfold Fs.walk
    by_cases hdir : (v i).type = T_DIR
    · rw [if_neg (not_not.2 hdir)]
      by_cases hlast : names = []
      · subst hlast
        rw [if_pos ⟨rfl, rfl⟩]
        unfold resolveParent
        simp [resolve_nil, hdir]
      · rw [if_neg fun h => hlast h.2]
        unfold resolveParent at ih ⊢
        rw [getLast?_cons_of_ne_nil hlast, dropLast_cons_of_ne_nil hlast, resolve_cons]
        unfold lookupIn
        rw [if_pos hdir]
        cases (v i).find name with
        | none => simp
        | some k =>
          simp only [ih, map_some, bind_some]
    · rw [if_pos hdir]
      unfold resolveParent
      cases names with
      | nil => simp [resolve_nil, hdir]
      | cons name' names =>
        rw [dropLast_cons_of_ne_nil (cons_ne_nil _ _), resolve_cons]
        unfold lookupIn
        rw [if_neg hdir]
        simp

end Walk

namespace Fs

variable {P : Type} {s t u : FsState P} {i j c : ℕ} {o : Option ℕ} {p : P} {path : List UInt8}
  {name : List UInt8} {names : List (List UInt8)}

/-! ## What a path can pass -/

/-- **A path can pass inode `j`**: it is allocated, it is no directory that ends in the middle of an
entry, and it has a link or a reference. -/
structure Passable (s : FsState P) (j : ℕ) : Prop where
  live : s.vol.Live j
  whole : (s.vol.node j).type = T_DIR → Dirent.SIZE ∣ (s.vol.node j).size
  stays : (s.vol.node j).nlink ≠ 0 ∨ s.itable j ≠ none

/-- Every inode that a component is applied to can be passed. -/
def Passes (s : FsState P) (names : List (List UInt8)) (i : ℕ) : Prop :=
  ∀ l name r, names = l ++ name :: r → ∀ j, resolve s.vol.node l i = some j → Passable s j

/-- Every inode that a component is applied to has the property `Q`. -/
def OnPath (v : ℕ → Node) (names : List (List UInt8)) (i : ℕ) (Q : ℕ → Prop) : Prop :=
  ∀ l name r, names = l ++ name :: r → ∀ j, resolve v l i = some j → Q j

/-- `ilock` and `dirlookup` do not panic on inode `j`. -/
def Sturdy (s : FsState P) (j : ℕ) : Prop :=
  s.vol.Live j ∧ ((s.vol.node j).type = T_DIR → Dirent.SIZE ∣ (s.vol.node j).size)

/-- Inode `j` does not go away when a reference to it is dropped. -/
def Stays (s : FsState P) (j : ℕ) : Prop := (s.vol.node j).nlink ≠ 0 ∨ s.itable j ≠ none

namespace OnPath

variable {v : ℕ → Node} {Q R : ℕ → Prop}

theorem mono (h : OnPath v names i Q) (hQ : ∀ j, Q j → R j) : OnPath v names i R :=
  fun l name r hn j hj => hQ j (h l name r hn j hj)

theorem head (h : OnPath v (name :: names) i Q) : Q i := h [] name names rfl i rfl

theorem tail (h : OnPath v (name :: names) i Q) (hj : lookupIn v i name = some j) :
    OnPath v names j Q := by
  intro l name' r hn j' hj'
  refine h (name :: l) name' r (by rw [hn]; rfl) j' ?_
  rw [resolve_cons, hj]
  exact hj'

end OnPath

/-! ## References on the way -/

/-- The reference counts with one reference more to `o`. -/
def addRef (ref : ℕ → ℕ) : Option ℕ → ℕ → ℕ
  | none => ref
  | some i => update ref i (ref i + 1)

theorem addRef_some (ref : ℕ → ℕ) (i : ℕ) : addRef ref (some i) = update ref i (ref i + 1) := rfl

/-- **`t` is `s`, with one reference more to `o`.** Only the inode table differs. -/
structure Holding (s : FsState P) (o : Option ℕ) (t : FsState P) : Prop where
  settled : t.Settled
  vol : t.vol = s.vol
  ref : t.ref = addRef s.ref o
  rest : t = { s with itable := t.itable }

namespace Holding

theorem refl (h : s.Settled) : Holding s none s := ⟨h, rfl, rfl, rfl⟩

theorem rest_setEntry (h : t = { s with itable := t.itable }) (i : ℕ) (e : Option Entry) :
    t.setEntry i e = { s with itable := (t.setEntry i e).itable } := by
  conv_lhs => rw [h]
  rfl

theorem take (h : Holding s none t) (i : ℕ) : Holding s (some i) (t.take i) where
  settled := h.settled.take i
  vol := (h.settled.vol_take i).trans h.vol
  ref := by
    rw [ref_take, h.ref]
    rfl
  rest := rest_setEntry h.rest i _

section

variable (h : Holding s (some i) t)

include h

theorem load (hl : s.vol.Live i) : Holding s (some i) (t.load i) where
  settled := h.settled.load (h.vol.symm ▸ hl)
  vol := (h.settled.vol_load i).trans h.vol
  ref := (ref_load t i).trans h.ref
  rest := rest_setEntry h.rest i _

theorem put : Holding s none (t.put i) where
  settled := h.settled.put i
  vol := (h.settled.vol_put i).trans h.vol
  ref := by
    rw [ref_put, h.ref, addRef_some, update_self, update_idem, Nat.add_sub_cancel, update_eq_self]
    rfl
  rest := rest_setEntry h.rest i _

theorem next (j : ℕ) : Holding s (some j) ((t.take j).put i) where
  settled := (h.settled.take j).put i
  vol := by rw [(h.settled.take j).vol_put, h.settled.vol_take, h.vol]
  ref := by
    rw [ref_put, ref_take, h.ref, addRef_some, addRef_some]
    by_cases hij : i = j
    · subst hij
      rw [update_self, update_self, update_idem, update_idem, Nat.add_sub_cancel]
    · rw [update_of_ne hij, update_self, update_of_ne (Ne.symm hij),
        Nat.add_sub_cancel, update_comm hij, update_idem, update_eq_self_iff.2]
      exact (update_of_ne hij ..).symm
  rest := rest_setEntry (rest_setEntry h.rest j _) i _

theorem itable_ne_none : t.itable i ≠ none := by
  rw [← h.settled.ref_pos_iff, h.ref, addRef_some, update_self]
  exact succ_pos _

end

/-- An inode that stays is not freed when it is released. -/
theorem iput_run (hs : s.Settled) (hstay : Stays s i) (hr : s.ref i + 1 ≤ u.ref i) (hsett : u.Settled)
    (hvol : u.vol = s.vol) : (iput i).run u = .ok ((), u.put i) := by
  refine iput_stays hsett (by omega) fun hn => ?_
  rw [hvol] at hn
  have := hs.ref_pos_iff.2 (hstay.resolve_left (not_not.2 hn))
  omega

theorem ref_self (h : Holding s (some i) t) : t.ref i = s.ref i + 1 := by
  rw [h.ref, addRef_some, update_self]

end Holding

theorem Holding.nentries_le (h : Holding s o t) (hs : s.Settled) : t.nentries ≤ s.nentries + 1 := by
  have hsome : ∀ {u : FsState P}, u.Settled → ∀ k, (u.itable k).isSome = true ↔ 0 < u.ref k :=
    fun hu k => by
    rw [hu.ref_pos_iff, isSome_iff_ne_none]
  have hsub : (range t.sb.ninodes).filter (fun k => (t.itable k).isSome) ⊆
      o.getD 0 :: (range s.sb.ninodes).filter fun k => (s.itable k).isSome := by
    intro k hk
    obtain ⟨hk, hsk⟩ := mem_filter.1 hk
    have hsb : t.sb = s.sb := by rw [h.rest]
    rw [hsome h.settled, h.ref] at hsk
    rw [mem_cons, mem_filter, hsome hs, ← hsb]
    cases o with
    | none => exact .inr ⟨hk, hsk⟩
    | some i =>
      by_cases hki : k = i
      · exact .inl hki
      · rw [addRef_some, update_of_ne hki] at hsk
        exact .inr ⟨hk, hsk⟩
  exact (subperm_of_subset (nodup_range.filter _) hsub).length_le

/-! ## The loop of `namex` -/

/-- The call panics, as the inode table is full but for one entry at most. -/
def TableFull {α : Type} (m : FsM P α) (s u : FsState P) : Prop :=
  m.run u = .error .igetNoInodes ∧ NINODE ≤ s.nentries + 1

/-- Why a walk panics: the inode table is full, or `ilock` or `dirlookup` stops at an inode. -/
def Stuck (s : FsState P) (names : List (List UInt8)) (i : ℕ) (e : FsError) : Prop :=
  (e = .igetNoInodes ∧ NINODE ≤ s.nentries + 1) ∨ ¬ OnPath s.vol.node names i (Sturdy s)

theorem Holding.put_none {err : FsError → Prop} (hs : s.Settled) (hstay : Stays s i)
    (h : Holding s (some i) t) : Wp (do iput i; pure none : FsM P (Option (ℕ × List UInt8)))
      (fun r u => r = none ∧ Holding s (r.map Prod.fst) u) err t :=
  Wp.run_bind (Holding.iput_run hs hstay h.ref_self.ge h.settled h.vol) (Wp.pure ⟨rfl, h.put⟩)

/-- **The loop of `namex` follows the path**, if the inodes on the way stay. -/
theorem namexLoop_wp (hs : s.Settled) (parent : Bool) (names : List (List UInt8)) (i : ℕ)
    (hstay : OnPath s.vol.node names i fun j => s.vol.Live j → Stays s j) (h : Holding s (some i) u)
    (hstart : parent = true → names = [] → u = s.take i) :
    Wp (namexLoop parent names i) (fun r t => r = walk s.vol.node parent names i ∧
      Holding s (r.map Prod.fst) t) (Stuck s names i) u := by
  induction names generalizing i u with
  | nil =>
    unfold namexLoop walk
    cases parent with
    | true =>
      rw [hstart rfl rfl]
      exact Wp.run_bind (iput_take hs i) (Wp.pure ⟨rfl, .refl hs⟩)
    | false => exact Wp.pure ⟨rfl, h⟩
  | cons name names ih =>
    unfold namexLoop walk
    have hlock := ilock_wp h.settled h.itable_ne_none
    rw [h.vol] at hlock
    refine (hlock.mono_err fun e he => .inr fun hst => he.1 hst.head.1).bind fun _ u1 hu1 => ?_
    obtain ⟨hl, rfl⟩ := hu1
    have hst := hstay.head hl
    have h1 := h.load hl
    have hv1 := valid_load h.itable_ne_none
    refine Wp.run_bind (inode_run hv1) ?_
    rw [type_eq h1.settled hv1, h1.vol]
    by_cases hdir : (s.vol.node i).type = T_DIR
    · rw [if_neg (not_not.2 hdir), if_neg (not_not.2 hdir)]
      by_cases hlast : parent = true ∧ names = []
      · rw [if_pos hlast, if_pos hlast]
        exact Wp.pure ⟨rfl, h1⟩
      rw [if_neg hlast, if_neg hlast]
      have hlookup := dirlookup_wp h1.settled hv1 (h1.vol.symm ▸ hdir) name
      rw [h1.vol] at hlookup
      refine (hlookup.mono_err fun e he => ?_).bind fun r u2 hr => ?_
      · rcases he with ⟨-, hw⟩ | ⟨rfl, k, -, hroom⟩
        · exact .inr fun hst => hw (hst.head.2 hdir)
        · refine .inl ⟨rfl, ?_⟩
          have hle := h1.nentries_le hs
          have : ¬ (u.load i).nentries < NINODE := fun hlt => hroom (.inr hlt)
          omega
      cases hf : (s.vol.node i).find name with
      | none =>
        rw [hf] at hr
        obtain ⟨rfl, rfl⟩ := hr
        exact h1.put_none hs hst
      | some k =>
        rw [hf] at hr
        obtain ⟨-, rfl, rfl⟩ := hr
        -- the next inode has a reference before the last one is released
        have hnext : lookupIn s.vol.node i name = some ((s.vol.node i).slot k).inum := by
          unfold lookupIn
          rw [if_pos hdir, hf]
          rfl
        have hput := Holding.iput_run (u := (u.load i).take ((s.vol.node i).slot k).inum) hs hst
          (le_trans h1.ref_self.ge (le_ref_take _ _ _)) (h1.settled.take _)
          ((h1.settled.vol_take _).trans h1.vol)
        refine Wp.run_bind hput ?_
        exact (ih _ (hstay.tail hnext) (h1.next _) fun hpar hn => absurd ⟨hpar, hn⟩ hlast).mono_err
          fun e he => he.imp id fun hbad hst => hbad (hst.tail hnext)
    · rw [if_pos hdir, if_pos hdir]
      exact h1.put_none hs hst

/-- The panic that a call ends in. -/
def panicOf {α : Type} : Except FsError α → Option FsError
  | .error e => some e
  | .ok _ => none

theorem panicOf_eq_some {α : Type} {r : Except FsError α} {e : FsError} : panicOf r = some e ↔ r =
    .error e := by
  cases r <;> simp [panicOf]

variable (hs : s.Settled) (hc : (s.proc p).cwd = some c) (href : s.itable c ≠ none)
  (path : List UInt8) (parent : Bool)

include hs hc href

theorem namex_wp
    (hstay : OnPath s.vol.node (components path) (pathStart path c) fun j => s.vol.Live j → Stays s j) :
    Wp (namex p path parent) (fun r t =>
      r = walk s.vol.node parent (components path) (pathStart path c) ∧ Holding s (r.map Prod.fst) t)
      (Stuck s (components path) (pathStart path c)) s := by
  have hloop := namexLoop_wp hs parent (components path) (pathStart path c) hstay
    ((Holding.refl hs).take _) fun _ _ => rfl
  unfold namex
  rw [elements_eq]
  unfold pathStart at *
  by_cases habs : path.head? = some slash
  · rw [if_pos habs] at hloop ⊢
    rw [if_pos habs]
    have hget : Wp (iget ROOTINO) _ (Stuck s (components path) ROOTINO) s :=
      (iget_room s ROOTINO).mono_err fun e he => by
        have : ¬ s.nentries < NINODE := fun hlt => he.2 (.inr hlt)
        exact .inl ⟨he.1, by omega⟩
    refine hget.bind fun _ u hu => ?_
    rw [hu.2]
    exact hloop
  · rw [if_neg habs] at hloop ⊢
    rw [if_neg habs]
    refine Wp.get_bind ?_
    rw [hc]
    exact Wp.run_bind (idup_run href) hloop

/-- **`namex` follows the path**, unless the inode table is full. -/
theorem namex_run (hpass : Passes s (components path) (pathStart path c)) :
    (∃ t, (namex p path parent).run s =
        .ok (walk s.vol.node parent (components path) (pathStart path c), t) ∧
      Holding s ((walk s.vol.node parent (components path) (pathStart path c)).map Prod.fst) t) ∨
    TableFull (namex p path parent) s s := by
  have hon : OnPath s.vol.node (components path) (pathStart path c) (Passable s) := hpass
  have hwp := namex_wp hs hc href path parent (hon.mono fun j hj _ => hj.stays)
  cases hrun : (namex p path parent).run s with
  | ok x =>
    obtain ⟨r, t⟩ := x
    obtain ⟨rfl, hold⟩ := hwp.post_of_run hrun
    exact .inl ⟨t, rfl, hold⟩
  | error e =>
    rcases hwp.err_of_run hrun with ⟨rfl, hfull⟩ | hbad
    · exact .inr ⟨hrun, hfull⟩
    · exact absurd (hon.mono fun j hj => ⟨hj.live, hj.whole⟩) hbad

end Fs

open Fs

theorem passable_sample : Passable (boot sample ()) ROOTINO := by
  have hd := directoryAt_sample
  refine ⟨hd.settled.live ROOTINO hd.valid, fun _ => hd.map.whole, .inr ?_⟩
  exact some_ne_none _

end Xv6
