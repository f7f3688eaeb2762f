import Xv6.Lib.SlotMap
import Xv6.Fs.Links
import Xv6.Fs.TableRuns
import Xv6.Fs.WriteProof

/-!
# Directories as finite maps

A directory whose live names are distinct is a finite map from names, cut to `DIRSIZ` bytes, to
inode numbers (`Node.IsMap`, an instance of `Xv6.Lib.SlotMap`).

**Runs.** In a settled state the result of `dirlookup` and `dirlink` on a locked directory is
determined: `dirlookup` finds the slot of the name, and `dirlink` uses the first free slot, if
there is space (`Fits`).

Main result: `directory_is_map`.
-/

open Function List

namespace Xv6

open FsState Node Volume

/-! ## The map -/

namespace Node

variable {x : Node} {j k : ℕ} {de : Dirent} {name key : List UInt8}

/-- The name and the inode number in slot `k`, if it is in use. -/
def binding (x : Node) (k : ℕ) : Option (List UInt8 × ℕ) :=
  if (x.slot k).inum = 0 then none else some (cstring (x.slot k).name DIRSIZ, (x.slot k).inum)

/-- The inode number of a name that has been cut to `DIRSIZ` bytes. -/
def bound (x : Node) : List UInt8 → Option ℕ := SlotMap.get x.nslots x.binding

/-- The slot for a new entry. -/
def firstFree (x : Node) : ℕ := SlotMap.firstFree x.nslots x.binding

structure Slotted (x : Node) : Prop where
  type : x.type = T_DIR
  whole : Dirent.SIZE ∣ x.size

/-- **A directory with distinct names.** -/
structure IsMap (x : Node) : Prop extends Slotted x where
  names : SlotMap x.nslots x.binding

theorem binding_eq_none : x.binding k = none ↔ (x.slot k).inum = 0 := by
  unfold binding
  split_ifs with hz
  · exact iff_of_true rfl hz
  · exact iff_of_false not_false hz

theorem binding_eq_some : x.binding k = some (key, j) ↔
    (x.slot k).inum = j ∧ j ≠ 0 ∧ cstring (x.slot k).name DIRSIZ = key := by
  unfold binding
  split_ifs with hz
  · refine iff_of_false not_false ?_
    rintro ⟨rfl, hne, -⟩
    exact hne hz
  · rw [Option.some.injEq, Prod.mk.injEq]
    constructor
    · rintro ⟨hname, rfl⟩
      exact ⟨rfl, hz, hname⟩
    · rintro ⟨rfl, -, hname⟩
      exact ⟨hname, rfl⟩

theorem named_iff : (x.slot k).Named name ↔
    x.binding k = some (cstring name DIRSIZ, (x.slot k).inum) := by
  unfold Dirent.Named
  rw [binding_eq_some, namecmp_eq_zero_iff]
  constructor
  · rintro ⟨hne, hname⟩
    exact ⟨rfl, hne, hname.symm⟩
  · rintro ⟨-, hne, hname⟩
    exact ⟨hne, hname.symm⟩

theorem bound_of_find (h : x.IsMap) (hf : x.find name = some k) :
    x.bound (cstring name DIRSIZ) = some (x.slot k).inum := by
  obtain ⟨hk, hn⟩ := find_some hf
  exact (SlotMap.get_eq_some_iff h.names).2 ⟨k, hk, named_iff.1 hn⟩

theorem bound_eq_none_iff : x.bound (cstring name DIRSIZ) = none ↔ x.find name = none := by
  unfold bound
  rw [SlotMap.get_eq_none_iff]
  constructor
  · intro h
    cases hf : x.find name with
    | none => rfl
    | some k =>
      obtain ⟨hk, hn⟩ := find_some hf
      exact absurd (named_iff.1 hn) (h k hk _)
  · intro hf k hk j hb
    obtain ⟨rfl, -, -⟩ := binding_eq_some.1 hb
    exact find_none hf hk (named_iff.2 hb)

theorem Slotted.size (h : x.Slotted) : x.size = x.nslots * Dirent.SIZE :=
  (Nat.div_mul_cancel h.whole).symm

/-! ### Writing an entry -/

/-- What an entry that is written binds. -/
def bindingOf (de : Dirent) : Option (List UInt8 × ℕ) :=
  if de.inum = 0 then none else some (cstring de.name DIRSIZ, de.inum)

theorem binding_setSlot (hw : de.Wf) (x : Node) (k : ℕ) :
    (x.setSlot k de).binding = update x.binding k (bindingOf de) := by
  funext j
  unfold binding
  rw [slot_setSlot hw]
  by_cases hj : j = k
  · rw [if_pos hj, hj, update_self]
    rfl
  · rw [if_neg hj, update_of_ne hj]

theorem Slotted.place (h : x.Slotted) (hw : de.Wf) (hk : k ≤ x.nslots) :
    SlotMap.Place x.nslots k (x.setSlot k de).nslots := by
  have hsize := h.size
  unfold SlotMap.Place nslots at *
  rw [setSlot_size hw]
  simp only [Dirent.SIZE, DIRSIZ] at *
  omega

theorem Slotted.setSlot (h : x.Slotted) (hw : de.Wf) (hk : k ≤ x.nslots) :
    (x.setSlot k de).Slotted where
  type := h.type
  whole := by
    have hsize := h.size
    rw [setSlot_size hw]
    rcases Nat.lt_or_eq_of_le hk with hlt | rfl
    · rw [max_eq_left]
      · exact h.whole
      · rw [hsize]
        exact Nat.mul_le_mul_right _ hlt
    · rw [max_eq_right]
      · exact Dvd.intro_left _ rfl
      · rw [hsize]
        exact Nat.mul_le_mul_right _ (Nat.le_succ _)

theorem range_find_congr {n : ℕ} {p q : ℕ → Bool} (h : ∀ j < n, p j = q j) :
    (range n).find? p = (range n).find? q := by
  induction n with
  | zero => rfl
  | succ n ih =>
    rw [range_succ, find?_append, find?_append, ih fun j hj => h j (Nat.lt_succ_of_lt hj),
      find?_singleton, find?_singleton, h n (Nat.lt_succ_self n)]

theorem not_named_of_free (h : (x.slot k).inum = 0) : ¬ (x.slot k).Named name := fun hn => hn.1 h

theorem Spare.setSlot_place (hs : x.Spare k) (hw : de.Wf) :
    SlotMap.Place x.nslots k (x.setSlot k de).nslots := by
  unfold SlotMap.Place nslots
  rw [setSlot_size hw]
  rcases hs with ⟨hk, -⟩ | hk
  · have hle : (k + 1) * Dirent.SIZE ≤ x.size := (Nat.le_div_iff_mul_le (by decide)).1 hk
    rw [max_eq_left hle]
    exact .inl ⟨hk, rfl⟩
  · rw [← hk, max_eq_right (Nat.mul_le_mul_right _ (Nat.le_succ k)), Nat.mul_div_cancel _ (by decide),
      Nat.mul_div_cancel _ (by decide)]
    exact .inr ⟨rfl, rfl⟩

/-- **A new entry is found under its name.** -/
theorem find_setSlot_self (hw : de.Wf) (hs : x.Spare k) (hn : de.Named name) (hf : x.find name = none) :
    (x.setSlot k de).find name = some k := by
  have hplace := hs.setSlot_place hw
  refine find?_range_eq_some.2 ⟨?_, mem_range.2 ?_, fun j hj => ?_⟩
  · rw [slot_setSlot hw, if_pos rfl]
    exact decide_eq_true hn
  · rcases hplace with ⟨hk, hn⟩ | ⟨hk, hn⟩ <;> omega
  · have hlt : j < x.nslots := by rcases hplace with ⟨hk, hn⟩ | ⟨hk, hn⟩ <;> omega
    rw [slot_setSlot hw, if_neg (Nat.ne_of_lt hj)]
    simpa using find_none hf hlt

/-- **Other names are found where they were.** -/
theorem find_setSlot_of_not_named (hw : de.Wf) (hs : x.Spare k) (hn : ¬ de.Named name) :
    (x.setSlot k de).find name = x.find name := by
  have hsame : ∀ j < x.nslots, decide (((x.setSlot k de).slot j).Named name) =
      decide ((x.slot j).Named name) := by
    intro j hj
    rw [slot_setSlot hw]
    split_ifs with hjk
    · subst hjk
      have hfree : (x.slot j).inum = 0 := by
        rcases hs with ⟨-, hz⟩ | hz
        · exact hz
        · exact absurd hj (Nat.not_lt.2 (nslots_le hz.ge))
      rw [decide_eq_false hn, decide_eq_false (not_named_of_free hfree)]
    · rfl
  have hrange : (range x.nslots).find? (fun j => decide (((x.setSlot k de).slot j).Named name)) =
      x.find name :=
    range_find_congr hsame
  unfold find at hrange ⊢
  rcases hs.setSlot_place hw with ⟨-, hslots⟩ | ⟨hk, hslots⟩
  · rw [hslots]
    exact hrange
  · rw [hslots, range_succ, find?_append, hrange, find?_cons_of_neg, find?_nil, Option.or_none]
    rw [slot_setSlot hw, if_pos hk.symm]
    simpa using hn

theorem IsMap.clear (h : x.IsMap) (hw : de.Wf) (hz : de.inum = 0) (hk : k ≤ x.nslots) :
    (x.setSlot k de).IsMap := by
  have hof : bindingOf de = none := if_pos hz
  refine ⟨h.toSlotted.setSlot hw hk, ?_⟩
  rw [binding_setSlot hw, hof]
  exact h.names.erase (h.toSlotted.place hw hk)

/-- **A new name is entered.** -/
theorem IsMap.link (h : x.IsMap) (hw : de.Wf) (hne : de.inum ≠ 0)
    (hnew : x.bound (cstring de.name DIRSIZ) = none) :
    (x.setSlot x.firstFree de).IsMap ∧ (x.setSlot x.firstFree de).bound =
      update x.bound (cstring de.name DIRSIZ) (some de.inum) := by
  have hle : x.firstFree ≤ x.nslots := SlotMap.firstFree_le _ _
  have hplace := h.toSlotted.place hw hle
  have hof : bindingOf de = some (cstring de.name DIRSIZ, de.inum) := if_neg hne
  have hb := binding_setSlot hw x x.firstFree
  rw [hof] at hb
  refine ⟨⟨h.toSlotted.setSlot hw hle, ?_⟩, ?_⟩
  · rw [hb]
    exact h.names.insert hplace (SlotMap.get_eq_none_iff.1 hnew)
  · unfold bound
    rw [hb]
    exact SlotMap.get_insert h.names hplace SlotMap.slot_firstFree hnew

/-- **A name is removed.** -/
theorem IsMap.unlink (h : x.IsMap) (hw : de.Wf) (hz : de.inum = 0) (hk : k < x.nslots)
    (hb : x.binding k = some (key, j)) :
    (x.setSlot k de).IsMap ∧ (x.setSlot k de).bound = update x.bound key none := by
  have hn : (x.setSlot k de).nslots = x.nslots := by
    rcases h.toSlotted.place hw (le_of_lt hk) with ⟨-, hn⟩ | ⟨hk', -⟩
    · exact hn
    · exact absurd hk (hk' ▸ Nat.lt_irrefl _)
  have hof : bindingOf de = none := if_pos hz
  refine ⟨h.clear hw hz (le_of_lt hk), ?_⟩
  unfold bound
  rw [binding_setSlot hw, hof, hn]
  exact SlotMap.get_erase h.names hk hb

end Node

/-! ## Space for an entry -/

/-- The number of free blocks that inode `i` takes to get its block with index `bn`. -/
def Volume.needed (v : Volume) (i bn : ℕ) : ℕ :=
  if v.addr (i, blockSlot bn) ≠ 0 then 0
  else if bn < NDIRECT ∨ v.addr (i, NDIRECT) ≠ 0 then 1
  else 2

namespace Fs

variable {P : Type} {s t u : FsState P} {i a n bn off k : ℕ} {name : List UInt8} {de : Dirent}

theorem free_of_noFree (h : NoFree s) : s.vol.free = 0 := free_eq_zero h

/-- **Blocks may have been attached to inode `i`**; no other address has changed. -/
structure Spread (i : ℕ) (s t : FsState P) : Prop where
  others : ∀ j n, j ≠ i → t.vol.addr (j, n) = s.vol.addr (j, n)
  same : ∀ n, s.vol.addr (i, n) ≠ 0 → t.vol.addr (i, n) = s.vol.addr (i, n)

namespace Spread

theorem refl (i : ℕ) (s : FsState P) : Spread i s s := ⟨fun _ _ _ => rfl, fun _ _ => rfl⟩

theorem of_eq (h : t.vol.addr = s.vol.addr) : Spread i s t :=
  ⟨fun _ _ _ => by rw [h], fun _ _ => by rw [h]⟩

theorem trans (h : Spread i s t) (h' : Spread i t u) : Spread i s u where
  others j n hj := (h'.others j n hj).trans (h.others j n hj)
  same n hn := by
    have ht := h.same n hn
    rw [h'.same n (ht ▸ hn), ht]

theorem of_update {b : ℕ} (hz : s.vol.addr (i, n) = 0)
    (haddr : t.vol.addr = update s.vol.addr (i, n) b) : Spread i s t where
  others j m hj := by
    rw [haddr, update_of_ne fun he => hj (congrArg Prod.fst he)]
  same m hm := by
    rw [haddr, update_of_ne]
    rintro ⟨⟩
    exact hm hz

end Spread

/-- A field other than the size and the addresses of an inode changes. -/
theorem updateInode_nlink {f : Dinode → Dinode} {φ : ℤ → ℤ} {err : FsError → Prop} (h : s.Settled)
    (hv : s.Valid i) (hf : ∀ d, (f d).type = d.type ∧ (f d).size = d.size ∧ (f d).addrs = d.addrs ∧
      (f d).nlink = φ d.nlink) :
    Wp (updateInode i f) (fun _ t => Changed i { s.vol.node i with nlink := φ (s.vol.node i).nlink }
      s t ∧
      Spread i s t) err s := by
  have hl := h.live i hv
  obtain ⟨htype, hsize, haddrs, hnlink⟩ := hf (s.eff i)
  have hchanged : Wp (updateInode i f) _ err s := updateInode_fields h.owned hv hl haddrs hsize htype
  rw [hnlink, show (s.eff i).nlink = (s.vol.node i).nlink from (node_nlink hl).symm] at hchanged
  refine hchanged.and ((updateInode_spec hv hl.1 f).mono fun _ t ht => .of_eq ?_)
  rw [ht.vol]
  exact addr_setInode (addr_setInode_fields hl haddrs (htype ▸ hl.2))

theorem Attach.spread (h : Attach i k s a t) : Spread i s t := by
  cases h with
  | full _ _ => exact .refl i s
  | there _ => exact .refl i s
  | new h => exact .of_update h.zero h.addr

theorem Attach.free (hs : s.vol.Mapped) (h : Attach i k s a t) :
    (a = 0 ↔ s.vol.addr (i, k) = 0 ∧ s.vol.free = 0) ∧
      (a ≠ 0 → s.vol.free = t.vol.free + if s.vol.addr (i, k) = 0 then 1 else 0) := by
  cases h with
  | full hz hf => simp [hz, free_of_noFree hf]
  | there hne => simp [hne]
  | new h =>
    have hfree : s.vol.free = t.vol.free + 1 :=
      free_update h.kept.sb h.bit h.data.2 h.free
    simp [h.zero, h.ne_zero hs, hfree]

/-- **`bmap` returns 0 exactly if there are not enough free blocks.** -/
theorem BMap.room (hs : s.vol.Mapped) (h : BMap i bn s a t) :
    (a = 0 ↔ s.vol.free < s.vol.needed i bn) ∧ Spread i s t := by
  unfold needed
  cases h with
  | direct hd h =>
    refine ⟨(h.free hs).1.trans ?_, h.spread⟩
    by_cases hz : s.vol.addr (i, blockSlot bn) = 0 <;> simp [hz, hd]
  | full hd hz hf =>
    -- there is no indirect block, and no block for it
    have hentry : s.vol.addr (i, blockSlot bn) = 0 := by
      rw [blockSlot_entry hd]
      exact addr_entry_zero hz
    exact ⟨by simp [hentry, hz, hd, free_of_noFree hf], .refl i s⟩
  | @entry _ _ s1 _ hd h1 hne h =>
    refine ⟨?_, h1.spread.trans h.spread⟩
    have hsame : s1.vol.addr (i, blockSlot bn) = s.vol.addr (i, blockSlot bn) := by
      cases h1 with
      | full _ _ => exact absurd rfl hne
      | there _ => rfl
      | new h1 => rw [h1.addr, update_of_ne fun he => blockSlot_ne bn (congrArg Prod.snd he)]
    rw [(h.free (h1.attached hs).mapped).1, hsame, (h1.free hs).2 hne]
    by_cases hz : s.vol.addr (i, blockSlot bn) = 0
    · by_cases hi : s.vol.addr (i, NDIRECT) = 0 <;> simp [hz, hi, hd]
    · simp [hz]

/-- There is space for an entry in slot `k`. -/
def Fits (s : FsState P) (i k : ℕ) : Prop :=
  (k + 1) * Dirent.SIZE ≤ MAXFILE * BSIZE ∧ s.vol.needed i (k * Dirent.SIZE / BSIZE) ≤ s.vol.free

instance (s : FsState P) (i k : ℕ) : Decidable (Fits s i k) := inferInstanceAs (Decidable (_ ∧ _))

/-- A write into one block writes all if there are enough free blocks. -/
theorem writeLoop_room {src : ℕ → Option UInt8} (h : s.vol.Mapped) (hv : s.Valid i) (hl : s.vol.Live i)
    (hsrc : ∀ k, src k ≠ none) (hn : 0 < n) (hb : off % BSIZE + n ≤ BSIZE)
    (hmax : off / BSIZE < MAXFILE) (fuel : ℕ) :
    Wp (writeLoop i n src (fuel + 1) off 0)
      (fun r t => (r.1 = n ↔ s.vol.needed i (off / BSIZE) ≤ s.vol.free) ∧ Spread i s t ∧ t.Valid i ∧
        t.vol.Live i) (fun _ => True) s := by
  refine Wp.ite (fun _ => ?_) fun hn' => absurd hn hn'
  refine (bmap_cases h hv hl hmax).bind fun a t hmap => ?_
  have hat := hmap.attached h
  obtain ⟨hroom, hsp⟩ := hmap.room h
  have hvt := hat.kept.valid hv
  have hlt : t.vol.Live i := hat.grown.live.mpr hl
  refine Wp.ite (fun hz => Wp.pure ⟨?_, hsp, hvt, hlt⟩) fun hne => ?_
  · exact iff_of_false (Nat.ne_of_lt hn) (Nat.not_le.2 (hroom.1 hz))
  have hm : min (n - 0) (BSIZE - off % BSIZE) = n := by omega
  obtain rfl := hat.found
  rw [hm]
  refine Wp.run_bind (modifyBlock_run (hat.mapped.inData hne) _) (Wp.ite (fun hshort => ?_) fun _ => ?_)
  · rw [copyin_length hsrc] at hshort
    exact absurd hshort (Nat.lt_irrefl n)
  · refine Wp.modify_bind ?_
    rw [Nat.zero_add, writeLoop_done fuel (Nat.lt_irrefl n)]
    refine Wp.pure ⟨iff_of_true rfl (Nat.not_lt.1 fun hlt => hne (hroom.2 hlt)), hsp.trans
      (.of_eq ?_), hvt, hlt⟩
    exact addr_setBlock hat.mapped (blockSlot_ne _) hne _

theorem writei_room {src : ℕ → Option UInt8} (ho : s.vol.Owned) (hv : s.Valid i) (hl : s.vol.Live i)
    (hsrc : ∀ k, src k ≠ none) (hn : 0 < n) (hb : off % BSIZE + n ≤ BSIZE)
      (hoff : off ≤ (s.eff i).size) :
    Wp (writei i src off n) (fun r t => (r = n ↔
      off + n ≤ MAXFILE * BSIZE ∧ s.vol.needed i (off / BSIZE) ≤ s.vol.free) ∧ Spread i s t)
      (fun _ => True) s := by
  have hsize := size_le ho hl
  have hmax32 : MAXFILE * BSIZE + BSIZE < 2 ^ 32 := by decide
  have hadd : addUint off n = off + n := Nat.mod_eq_of_lt (by omega)
  refine Wp.run_bind (inode_run hv) ?_
  rw [hadd, if_neg (by omega)]
  refine Wp.ite (fun hbig => Wp.pure ⟨iff_of_false (by omega) fun hc => ?_, .refl i s⟩) fun hfit => ?_
  · exact absurd hc.1 (Nat.not_le.2 hbig)
  have hbn : off / BSIZE < MAXFILE := (Nat.div_lt_iff_lt_mul (by decide)).2 (by omega)
  obtain ⟨fuel, rfl⟩ : ∃ fuel, n = fuel + 1 := ⟨n - 1, by omega⟩
  refine (writeLoop_room ho.toMapped hv hl hsrc hn hb hbn fuel).bind fun r t ⟨hr, hsp, hvt, hlt⟩ => ?_
  obtain ⟨tot, off'⟩ := r
  refine (updateInode_spec hvt hlt.1 _).bind fun _ u hu => Wp.pure ⟨?_, hsp.trans (.of_eq ?_)⟩
  · rw [Nat.cast_inj]
    exact hr.trans (and_iff_right (Nat.not_lt.1 hfit)).symm
  · rw [hu.vol]
    exact addr_setInode (addr_setInode_fields hlt rfl hlt.2)

section

variable (h : s.Settled) (hv : s.Valid i)

include h hv

/-- **An entry is written into slot `k`**, if there is space for it. -/
theorem writei_slot (hw : de.Wf) (hk : k * Dirent.SIZE ≤ (s.vol.node i).size) :
    ∃ r t, (writei i (kernelSrc de.encode) (k * Dirent.SIZE) Dirent.SIZE).run s = .ok (r, t) ∧
      (r = Dirent.SIZE ↔ Fits s i k) ∧ Spread i s t ∧
      Changed i (if Fits s i k then (s.vol.node i).setSlot k de else s.vol.node i) s t := by
  have hl := h.live i hv
  have hlen := Dirent.encode_length hw
  have hsrc : ∀ k, kernelSrc de.encode k ≠ none := fun k => Option.some_ne_none _
  have hoff : k * Dirent.SIZE ≤ (s.eff i).size := by
    rw [node_size hl] at hk
    exact hk
  have hb : k * Dirent.SIZE % BSIZE + Dirent.SIZE ≤ BSIZE := by
    simp only [Dirent.SIZE, DIRSIZ, BSIZE]
    omega
  have hspec : Wp (writei i (kernelSrc de.encode) (k * Dirent.SIZE) Dirent.SIZE) _ (fun _ => False) s :=
    (writei_spec h.owned hv hl _ (by decide)).and (writei_room h.owned hv hl hsrc (by decide) hb hoff)
  obtain ⟨r, t, hrun, hnode, hr, hsp⟩ := hspec.exists_run
  have hroom : r = Dirent.SIZE ↔ Fits s i k := by
    unfold Fits
    rw [Nat.succ_mul]
    exact hr
  refine ⟨r, t, hrun, hroom, hsp, ?_⟩
  rcases hnode with ⟨rfl, rfl⟩ | ⟨tot, rfl, hle, -, hend, y, hy, hc⟩
  · rw [if_neg (mt hroom.2 (by decide))]
    exact .refl h.owned (h.saved i)
  · by_cases htot : tot = Dirent.SIZE
    · subst htot
      rw [if_pos (hroom.1 rfl)]
      have hall : WriteNode (k * Dirent.SIZE) de.encode.length (kernelSrc de.encode) de.encode.length
          (s.vol.node i) y := by
        rw [hlen]
        exact hy
      obtain rfl := hall.eq_store
      exact hc
    · have hzero : tot = 0 := by
        rcases hend hsrc (by omega) with h0 | h0
        · exact h0
        · simp only [Dirent.SIZE, DIRSIZ, BSIZE] at *
          omega
      subst hzero
      rw [if_neg fun hf => htot (by exact_mod_cast hroom.2 hf)]
      obtain rfl := hy.eq_self hsrc hk
      exact hc

/-! ## Lookups -/

theorem nslots_eq : (s.eff i).size / Dirent.SIZE = (s.vol.node i).nslots := by
  unfold nslots
  rw [node_size (h.live i hv)]
  rfl

theorem type_eq : (s.eff i).type = (s.vol.node i).type :=
  (node_type (h.live i hv)).symm

theorem dirlookup_wp (hdir : (s.vol.node i).type = T_DIR) (name : List UInt8) :
    Wp (dirlookup i name) (fun r t => match (s.vol.node i).find name with
      | none => r = none ∧ t = s
      | some k => s.Room ((s.vol.node i).slot k).inum ∧
          r = some (((s.vol.node i).slot k).inum, k * Dirent.SIZE) ∧ t =
            s.take ((s.vol.node i).slot k).inum)
      (fun e => (e = .dirlookupRead ∧ ¬ Dirent.SIZE ∣ (s.vol.node i).size) ∨ (e = .igetNoInodes ∧
        ∃ k, (s.vol.node i).find name = some k ∧ ¬ s.Room ((s.vol.node i).slot k).inum)) s := by
  refine Wp.run_bind (inode_run hv) ?_
  rw [type_eq h hv, if_neg (not_not.2 hdir), nslots_eq h hv]
  have hloop := lookupLoop_vol h.owned hv (h.live i hv) name ((s.vol.node i).nslots + 1) 0 (by omega)
  rw [Nat.zero_mul, Nat.sub_zero, ← range_eq_range', ← find] at hloop
  refine (hloop.mono_err fun e he => .inl he).bind fun r t hr => ?_
  obtain ⟨rfl, rfl⟩ := hr
  cases hf : (t.vol.node i).find name with
  | none => exact Wp.pure ⟨rfl, rfl⟩
  | some k =>
    refine ((iget_room t _).mono_err fun e he => .inr ⟨he.1, k, rfl, he.2⟩).bind fun _ u hu => ?_
    exact Wp.pure ⟨hu.1, rfl, hu.2⟩

theorem dirlookup_none (hd : (s.vol.node i).Slotted) (hf : (s.vol.node i).find name = none) :
    (dirlookup i name).run s = .ok (none, s) := by
  have hwp := dirlookup_wp h hv hd.type name
  rw [hf] at hwp
  have hsafe : Wp (dirlookup i name) _ (fun _ => False) s := hwp.mono_err fun e he => by
    rcases he with ⟨-, hw⟩ | ⟨-, k, hk, -⟩
    · exact hw hd.whole
    · contradiction
  obtain ⟨r, t, hrun, rfl, rfl⟩ := hsafe.exists_run
  exact hrun

theorem dirlookup_some (hd : (s.vol.node i).Slotted) (hf : (s.vol.node i).find name = some k) :
    (s.Room ((s.vol.node i).slot k).inum → (dirlookup i name).run s =
      .ok (some (((s.vol.node i).slot k).inum, k * Dirent.SIZE), s.take ((s.vol.node i).slot k).inum)) ∧
    (¬ s.Room ((s.vol.node i).slot k).inum → (dirlookup i name).run s = .error .igetNoInodes) := by
  have hwp := dirlookup_wp h hv hd.type name
  rw [hf] at hwp
  cases hrun : (dirlookup i name).run s with
  | ok x =>
    obtain ⟨hroom, hr, ht⟩ := hwp.post_of_run hrun
    exact ⟨fun _ => by rw [← hr, ← ht], fun hn => absurd hroom hn⟩
  | error e =>
    rcases hwp.err_of_run hrun with ⟨-, hw⟩ | ⟨rfl, k', hk, hroom⟩
    · exact absurd hd.whole hw
    · cases hk
      exact ⟨fun hr => absurd hr hroom, fun _ => rfl⟩

/-! ## New entries -/

/-- The loop of `dirlink` ends at the first free slot. -/
theorem emptyLoop_wp : Wp (emptyLoop i ((s.eff i).size / Dirent.SIZE + 1) 0) (fun off t => t = s ∧
      off = (s.vol.node i).firstFree * Dirent.SIZE ∧ (s.vol.node i).Spare (s.vol.node i).firstFree)
      (fun e => e = .dirlinkRead ∧ ¬ Dirent.SIZE ∣ (s.vol.node i).size) s := by
  have hloop := emptyLoop_vol h.owned hv (h.live i hv) ((s.vol.node i).nslots + 1) 0 (by omega)
    (by omega)
  have hsame : (fun k => decide (((s.vol.node i).slot k).inum = 0)) =
      fun k => ((s.vol.node i).binding k).isNone := by
    funext k
    rw [Bool.eq_iff_iff, decide_eq_true_iff, Option.isNone_iff_eq_none, binding_eq_none]
  rw [Nat.zero_mul, Nat.sub_zero, ← range_eq_range', hsame] at hloop
  rw [nslots_eq h hv]
  refine hloop.mono fun off t ⟨ht, hoff⟩ => ⟨ht, ?_⟩
  unfold firstFree SlotMap.firstFree
  cases hf : (range (s.vol.node i).nslots).find? fun k => ((s.vol.node i).binding k).isNone with
  | none =>
    rw [hf] at hoff
    exact ⟨hoff.1, .inr (hoff.1.symm.trans hoff.2)⟩
  | some k =>
    rw [hf] at hoff
    have hz := (find?_range_eq_some.1 hf).1
    rw [Option.isNone_iff_eq_none, binding_eq_none] at hz
    exact ⟨hoff, .inl ⟨mem_range.1 (mem_of_find?_eq_some hf), hz⟩⟩

end

theorem Node.Spare.le_size {x : Node} (h : x.Spare k) : k * Dirent.SIZE ≤ x.size := by
  rcases h with ⟨hk, -⟩ | hk
  · exact le_trans (Nat.mul_le_mul_right _ (le_of_lt hk)) (Nat.div_mul_le_self _ _)
  · exact hk.le

/-- **What `dirlink` does.** A name that is there stays as it is; a new name is written into the
first free slot if there is space. -/
theorem dirlink_wp (h : s.Settled) (hv : s.Valid i) (hdir : (s.vol.node i).type = T_DIR)
    (name : List UInt8)
    (inum : ℕ) :
    Wp (dirlink i name inum) (fun r t => match (s.vol.node i).find name with
      | some k => s.Room ((s.vol.node i).slot k).inum ∧ r = -1 ∧ t = s
      | none => (s.vol.node i).Spare (s.vol.node i).firstFree ∧
          r = (if Fits s i (s.vol.node i).firstFree then 0 else -1) ∧ Spread i s t ∧
          Changed i (if Fits s i (s.vol.node i).firstFree then
            (s.vol.node i).setSlot (s.vol.node i).firstFree (newDirent name inum) else s.vol.node i)
              s t)
      (fun e => ((e = .dirlookupRead ∨ e = .dirlinkRead) ∧ ¬ Dirent.SIZE ∣ (s.vol.node i).size) ∨
        (e = .igetNoInodes ∧ ∃ k, (s.vol.node i).find name = some k ∧
          ¬ s.Room ((s.vol.node i).slot k).inum)) s := by
  refine ((dirlookup_wp h hv hdir name).mono_err fun e he =>
    he.imp (fun hw => ⟨.inl hw.1, hw.2⟩) id).bind fun r t hr => ?_
  cases hf : (s.vol.node i).find name with
  | some k =>
    rw [hf] at hr
    obtain ⟨hroom, rfl, rfl⟩ := hr
    exact Wp.run_bind (iput_take h _) (Wp.pure ⟨hroom, rfl, rfl⟩)
  | none =>
    rw [hf] at hr
    obtain ⟨rfl, rfl⟩ := hr
    refine Wp.run_bind (inode_run hv) ?_
    refine ((emptyLoop_wp h hv).mono_err fun e he => .inl ⟨.inr he.1, he.2⟩).bind fun off t' ho => ?_
    obtain ⟨rfl, rfl, hspare⟩ := ho
    obtain ⟨r, u, hrun, hr, hsp, hc⟩ := writei_slot h hv (newDirent_wf name inum)
      (Node.Spare.le_size hspare)
    refine Wp.run_bind hrun ?_
    by_cases hfit : Fits t' i (t'.vol.node i).firstFree
    · rw [if_neg (not_not.2 (hr.2 hfit))]
      exact Wp.pure ⟨hspare, (if_pos hfit).symm, hsp, hc⟩
    · rw [if_pos (mt hr.1 hfit)]
      exact Wp.pure ⟨hspare, (if_neg hfit).symm, hsp, hc⟩

/-- **What `dirlink` does with a new name.** -/
theorem dirlink_new (h : s.Settled) (hv : s.Valid i) (hd : (s.vol.node i).Slotted)
    (hf : (s.vol.node i).find name = none) (inum : ℕ) :
    ∃ t, (dirlink i name inum).run s = .ok (if Fits s i (s.vol.node i).firstFree then 0 else -1, t) ∧
      Changed i (if Fits s i (s.vol.node i).firstFree then
        (s.vol.node i).setSlot (s.vol.node i).firstFree (newDirent name inum) else s.vol.node i) s
          t := by
  have hwp := dirlink_wp h hv hd.type name inum
  rw [hf] at hwp
  have hsafe : Wp (dirlink i name inum) _ (fun _ => False) s := hwp.mono_err fun e he => by
    rcases he with ⟨-, hw⟩ | ⟨-, k, hk, -⟩
    · exact hw hd.whole
    · contradiction
  obtain ⟨r, t, hrun, -, rfl, -, hc⟩ := hsafe.exists_run
  exact ⟨t, hrun, hc⟩

/-- **What `dirlink` does with a name that is there**: nothing. -/
theorem dirlink_bound (h : s.Settled) (hv : s.Valid i) (hd : (s.vol.node i).Slotted)
    (hf : (s.vol.node i).find name = some k) (inum : ℕ) :
    (s.Room ((s.vol.node i).slot k).inum → (dirlink i name inum).run s = .ok (-1, s)) ∧
    (¬ s.Room ((s.vol.node i).slot k).inum → (dirlink i name inum).run s = .error .igetNoInodes) := by
  have hwp := dirlink_wp h hv hd.type name inum
  rw [hf] at hwp
  cases hrun : (dirlink i name inum).run s with
  | ok x =>
    obtain ⟨hroom, hr, ht⟩ := hwp.post_of_run hrun
    exact ⟨fun _ => by rw [← hr, ← ht], fun hn => absurd hroom hn⟩
  | error e =>
    rcases hwp.err_of_run hrun with ⟨-, hw⟩ | ⟨rfl, k', hk, hroom⟩
    · exact absurd hd.whole hw
    · cases hk
      exact ⟨fun hr => absurd hr hroom, fun _ => rfl⟩

/-! ## Removed entries -/

/-- The entry at `off` is removed, as in `sys_unlink`. -/
def clearEntry (i off : ℕ) : FsM P Unit := do
  let r ← writei i (kernelSrc (replicate Dirent.SIZE 0)) off Dirent.SIZE
  if r ≠ Dirent.SIZE then throw .unlinkWritei

theorem clearEntry_bind {α : Type} (i off : ℕ) (m : FsM P α) : (do clearEntry i off; m) = (do
      let r ← writei i (kernelSrc (replicate Dirent.SIZE 0)) off Dirent.SIZE
      if r ≠ Dirent.SIZE then throw .unlinkWritei else m) := by
  unfold clearEntry
  rw [bind_assoc]
  refine congrArg _ (funext fun r => ?_)
  split_ifs <;> rfl

/-- This is how `sys_unlink` changes the directory. -/
theorem unlinkEntry_eq [DecidableEq P] (dp i off : ℕ) : (unlinkEntry dp i off : FsM P ℤ) = (do
    ilock i
    let ip ← inode i
    if ip.nlink < 1 then throw .unlinkNlink
    else do
      if ¬ (← removable i ip) then do
        iput i
        putReturn dp (-1)
      else do
        clearEntry dp off
        if ip.type = T_DIR then do
          updateInode dp fun d => { d with nlink := short (d.nlink - 1) }
          unlinkDone dp i
        else unlinkDone dp i) := by
  unfold unlinkEntry
  simp only [clearEntry_bind]

/-- An entry in use is in the file, so that there is space for it. -/
theorem fits_of_lt (h : s.Settled) (hv : s.Valid i) (hk : k < (s.vol.node i).nslots) : Fits s i k := by
  have hl := h.live i hv
  have hsize := size_le h.owned hl
  have hend : (k + 1) * Dirent.SIZE ≤ (s.eff i).size := by
    have := (Nat.le_div_iff_mul_le (by decide)).1 hk
    rw [node_size hl] at this
    exact this
  have hblock : s.vol.addr (i, blockSlot (k * Dirent.SIZE / BSIZE)) ≠ 0 := by
    refine h.owned.addr_ne_zero hl (p := k * Dirent.SIZE) ?_
    rw [Nat.succ_mul] at hend
    exact Nat.lt_of_lt_of_le (Nat.lt_add_of_pos_right (by decide)) hend
  refine ⟨le_trans hend hsize, ?_⟩
  unfold needed
  rw [if_pos hblock]
  exact Nat.zero_le _

theorem clearEntry_run (h : s.Settled) (hv : s.Valid i) (hk : k < (s.vol.node i).nslots) :
    ∃ t, (clearEntry i (k * Dirent.SIZE)).run s = .ok ((), t) ∧
      Changed i ((s.vol.node i).setSlot k emptyDirent) s t := by
  have hfit := fits_of_lt h hv hk
  have hle : k * Dirent.SIZE ≤ (s.vol.node i).size :=
    le_trans (Nat.mul_le_mul_right _ (le_of_lt hk)) (Nat.div_mul_le_self _ _)
  obtain ⟨r, t, hrun, hr, -, hc⟩ := writei_slot h hv emptyDirent_wf hle
  have henc : emptyDirent.encode = replicate Dirent.SIZE 0 := rfl
  rw [henc] at hrun
  rw [if_pos hfit] at hc
  refine ⟨t, ?_, hc⟩
  unfold clearEntry
  rw [Wp.run_bind_eq hrun, if_neg (not_not.2 (hr.2 hfit))]
  rfl

/-! ## Sequences of operations -/

/-- **Inode `i` is locked, and is a directory with distinct names.** -/
structure DirectoryAt (s : FsState P) (i : ℕ) : Prop where
  settled : s.Settled
  valid : s.Valid i
  map : (s.vol.node i).IsMap

namespace DirectoryAt

theorem changed {x : Node} (h : DirectoryAt s i) (hx : x.IsMap) (hc : Changed i x s t) :
    DirectoryAt t i := by
  refine ⟨h.settled.changed h.valid (by rw [hx.type]; decide) hc, hc.kept.valid h.valid, ?_⟩
  rw [hc.node, update_self]
  exact hx

theorem take (h : DirectoryAt s i) (j : ℕ) : DirectoryAt (s.take j) i :=
  ⟨h.settled.take j, h.valid.take j, by rw [h.settled.vol_take]; exact h.map⟩

end DirectoryAt

inductive DirOp
  | lookup (name : List UInt8)
  | link (name : List UInt8) (inum : ℕ)
  | unlink (name : List UInt8)

/-- What an operation executes; `sys_unlink` removes the entry that `dirlookup` has found. -/
def DirOp.exec (i : ℕ) : DirOp → FsM P Unit
  | .lookup name => do
    let _ ← dirlookup i name
  | .link name inum => do
    let _ ← dirlink i name inum
  | .unlink name => do
    match ← dirlookup i name with
    | none => pure ()
    | some (_, off) => clearEntry i off

theorem dirlookup_keeps (h : DirectoryAt s i) (name : List UInt8) :
    Wp (dirlookup i name) (fun r t => DirectoryAt t i ∧ t.vol = s.vol ∧
      ∀ j off, r = some (j, off) → ∃ k < (s.vol.node i).nslots, off = k * Dirent.SIZE)
      (· = .igetNoInodes) s := by
  cases hf : (s.vol.node i).find name with
  | none =>
    refine Wp.of_run (dirlookup_none h.settled h.valid h.map.toSlotted hf) ⟨h, rfl, ?_⟩
    intro j off hr
    contradiction
  | some k =>
    obtain ⟨hsome, hfull⟩ := dirlookup_some h.settled h.valid h.map.toSlotted hf
    by_cases hroom : s.Room ((s.vol.node i).slot k).inum
    · refine Wp.of_run (hsome hroom) ⟨h.take _, h.settled.vol_take _, ?_⟩
      intro j off hr
      obtain ⟨-, rfl⟩ := Prod.mk.inj (Option.some.inj hr)
      exact ⟨k, (find_some hf).1, rfl⟩
    · unfold Wp
      rw [hfull hroom]

theorem dirlink_keeps (h : DirectoryAt s i) (name : List UInt8) (inum : ℕ) :
    Wp (dirlink i name inum) (fun _ t => DirectoryAt t i) (· = .igetNoInodes) s := by
  cases hf : (s.vol.node i).find name with
  | none =>
    obtain ⟨t, hrun, hc⟩ := dirlink_new h.settled h.valid h.map.toSlotted hf inum
    refine Wp.of_run hrun (h.changed ?_ hc)
    split_ifs
    · by_cases hz : (newDirent name inum).inum = 0
      · exact h.map.clear (newDirent_wf _ _) hz (SlotMap.firstFree_le _ _)
      · refine (h.map.link (newDirent_wf _ _) hz ?_).1
        show (s.vol.node i).bound (cstring (strncpy name DIRSIZ) DIRSIZ) = none
        rw [cstring_strncpy]
        exact bound_eq_none_iff.2 hf
    · exact h.map
  | some k =>
    obtain ⟨hsome, hfull⟩ := dirlink_bound h.settled h.valid h.map.toSlotted hf inum
    by_cases hroom : s.Room ((s.vol.node i).slot k).inum
    · exact Wp.of_run (hsome hroom) h
    · unfold Wp
      rw [hfull hroom]

/-- **One operation keeps names distinct.** -/
theorem DirOp.exec_keeps (h : DirectoryAt s i) (op : DirOp) :
    Wp (op.exec i) (fun _ t => DirectoryAt t i) (· = .igetNoInodes) s := by
  cases op with
  | lookup name => exact (dirlookup_keeps h name).bind fun _ t ht => Wp.pure ht.1
  | link name inum => exact (dirlink_keeps h name inum).bind fun _ t ht => Wp.pure ht
  | unlink name =>
    refine (dirlookup_keeps h name).bind fun r t ⟨ht, hvol, hr⟩ => ?_
    cases r with
    | none => exact Wp.pure ht
    | some x =>
      obtain ⟨j, off⟩ := x
      obtain ⟨k, hk, rfl⟩ := hr j off rfl
      rw [← hvol] at hk
      obtain ⟨u, hrun, hc⟩ := clearEntry_run ht.settled ht.valid hk
      exact Wp.of_run hrun (ht.changed (ht.map.clear emptyDirent_wf rfl (le_of_lt hk)) hc)

/-- **So does every sequence of operations.** -/
theorem DirOp.execs_keep (h : DirectoryAt s i) (ops : List DirOp) :
    Wp (ops.forM (DirOp.exec i)) (fun _ t => DirectoryAt t i) (· = .igetNoInodes) s :=
  Wp.forM (I := fun _ t => DirectoryAt t i) (fun op _ _ ht => DirOp.exec_keeps ht op) ops h

end Fs

open Fs

/-- **A directory is a finite map** from names, cut to `DIRSIZ` bytes, to inode numbers. `dirlookup`
returns what is bound to a name and the offset of its entry, or 0 if there is nothing. `dirlink` of
a number that fits in an entry fails if the name is bound or there is no space; else it adds the
binding, in the first free slot. An entry that is cleared takes its binding away. Every sequence of
these operations keeps the names distinct. The only panic is that of `iget` when the inode table has
no entry for the inode that was found. -/
theorem directory_is_map {P : Type} {s : FsState P} {i : ℕ} (h : DirectoryAt s i) :
    (∀ name, (∀ j, (s.vol.node i).bound (cstring name DIRSIZ) = some j →
        ∃ k < (s.vol.node i).nslots, (s.vol.node i).binding k = some (cstring name DIRSIZ, j) ∧
          (s.Room j → (dirlookup i name).run s = .ok (some (j, k * Dirent.SIZE), s.take j)) ∧
          (¬ s.Room j → (dirlookup i name).run s = .error .igetNoInodes)) ∧
      ((s.vol.node i).bound (cstring name DIRSIZ) = none → (dirlookup i name).run s = .ok (none, s))) ∧
    (∀ name inum, inum ≠ 0 → inum < 2 ^ 16 →
      (∀ j, (s.vol.node i).bound (cstring name DIRSIZ) = some j →
        (s.Room j → (dirlink i name inum).run s = .ok (-1, s)) ∧
        (¬ s.Room j → (dirlink i name inum).run s = .error .igetNoInodes)) ∧
      ((s.vol.node i).bound (cstring name DIRSIZ) = none → ∃ t,
        (dirlink i name inum).run s = .ok (if Fits s i (s.vol.node i).firstFree then 0 else -1, t) ∧
        DirectoryAt t i ∧
        if Fits s i (s.vol.node i).firstFree then
          t.vol.node = update s.vol.node i
            ((s.vol.node i).setSlot (s.vol.node i).firstFree ⟨inum, strncpy name DIRSIZ⟩) ∧
          (t.vol.node i).bound = update (s.vol.node i).bound (cstring name DIRSIZ) (some inum)
        else t.vol.node = s.vol.node)) ∧
    (∀ k key j, k < (s.vol.node i).nslots → (s.vol.node i).binding k = some (key, j) → ∃ t,
      (clearEntry i (k * Dirent.SIZE)).run s = .ok ((), t) ∧ DirectoryAt t i ∧
      (∀ i' ≠ i, t.vol.node i' = s.vol.node i') ∧
      (t.vol.node i).bound = update (s.vol.node i).bound key none) ∧
    ∀ ops : List DirOp,
      Wp (ops.forM (DirOp.exec i)) (fun _ t => DirectoryAt t i) (· = .igetNoInodes) s := by
  have hd := h.map.toSlotted
  refine ⟨fun name => ⟨fun j hj => ?_, fun hn => ?_⟩, fun name inum h0 hinum =>
    ⟨fun j hj => ?_, fun hn => ?_⟩,
    fun k key j hk hb => ?_, DirOp.execs_keep h⟩
  · cases hf : (s.vol.node i).find name with
    | none =>
      rw [bound_eq_none_iff.2 hf] at hj
      contradiction
    | some k =>
      obtain rfl : ((s.vol.node i).slot k).inum = j :=
        Option.some.inj ((bound_of_find h.map hf).symm.trans hj)
      obtain ⟨hk, hnamed⟩ := find_some hf
      exact ⟨k, hk, named_iff.1 hnamed, dirlookup_some h.settled h.valid hd hf⟩
  · exact dirlookup_none h.settled h.valid hd (bound_eq_none_iff.1 hn)
  · cases hf : (s.vol.node i).find name with
    | none =>
      rw [bound_eq_none_iff.2 hf] at hj
      contradiction
    | some k =>
      obtain rfl : ((s.vol.node i).slot k).inum = j :=
        Option.some.inj ((bound_of_find h.map hf).symm.trans hj)
      exact dirlink_bound h.settled h.valid hd hf inum
  · obtain ⟨t, hrun, hc⟩ := dirlink_new h.settled h.valid hd (bound_eq_none_iff.1 hn) inum
    have hde : newDirent name inum = ⟨inum, strncpy name DIRSIZ⟩ := by
      unfold newDirent
      rw [Nat.mod_eq_of_lt hinum]
    have hwf := newDirent_wf name inum
    rw [hde] at hc hwf
    have hkey : cstring (strncpy name DIRSIZ) DIRSIZ = cstring name DIRSIZ :=
      cstring_strncpy name DIRSIZ
    obtain ⟨hmap, hbound⟩ := h.map.link hwf h0 (by
      show (s.vol.node i).bound (cstring (strncpy name DIRSIZ) DIRSIZ) = none
      rw [hkey]
      exact hn)
    refine ⟨t, hrun, ?_⟩
    split_ifs at hc ⊢ with hfit
    · refine ⟨h.changed hmap hc, hc.node, ?_⟩
      rw [hc.node, update_self, hbound]
      show update _ (cstring (strncpy name DIRSIZ) DIRSIZ) _ = _
      rw [hkey]
    · refine ⟨h.changed h.map hc, ?_⟩
      rw [hc.node, Function.update_eq_self]
  · obtain ⟨t, hrun, hc⟩ := clearEntry_run h.settled h.valid hk
    obtain ⟨hmap, hbound⟩ := h.map.unlink emptyDirent_wf rfl hk hb
    refine ⟨t, hrun, h.changed hmap hc, fun i' hi' => ?_, ?_⟩
    · rw [hc.node, update_of_ne hi']
    · rw [hc.node, update_self, hbound]

theorem directoryAt_sample : DirectoryAt (boot sample ()) ROOTINO := by
  have hvol := vol_boot sample ()
  refine ⟨(boot_rep sample_bootable ()).settled, ⟨_, rfl, rfl⟩, ?_⟩
  rw [hvol]
  refine ⟨⟨by decide, by decide⟩, ?_⟩
  have hn : (sample.node ROOTINO).nslots = 2 := by decide
  have hdot : (sample.node ROOTINO).binding 0 = some (dot, ROOTINO) := by decide
  have hdotdot : (sample.node ROOTINO).binding 1 = some (dotdot, ROOTINO) := by decide
  rw [hn]
  have hne : ∀ key a b, ¬ ((sample.node ROOTINO).binding 0 = some (key, a) ∧
      (sample.node ROOTINO).binding 1 = some (key, b)) := by
    rintro key a b ⟨h0, h1⟩
    have hkey := (Prod.mk.inj (Option.some.inj (hdot.symm.trans h0))).1
    have hkey' := (Prod.mk.inj (Option.some.inj (hdotdot.symm.trans h1))).1
    exact absurd (hkey.trans hkey'.symm) (by decide)
  intro k hk k' hk' key a b hb hb'
  interval_cases k <;> interval_cases k'
  exacts [rfl, absurd ⟨hb, hb'⟩ (hne key a b), absurd ⟨hb', hb⟩ (hne key b a), rfl]

theorem directory_is_map_root : (dirlookup ROOTINO [97]).run (boot sample ()) =
      .ok (none, boot sample ()) := by
  refine ((directory_is_map directoryAt_sample).1 [97]).2 ?_
  rw [vol_boot]
  decide

/-- **An inode number that does not fit in an entry.** `dirlink` reports success, but the name is
not bound. -/
theorem dirlink_truncates : ∃ t, (dirlink ROOTINO [97] 65536).run (boot sample ()) = .ok (0, t) ∧
    (t.vol.node ROOTINO).bound (cstring [97] DIRSIZ) = none := by
  have hd := directoryAt_sample
  have hvol := vol_boot sample ()
  have hf : ((boot sample ()).vol.node ROOTINO).find [97] = none := by
    rw [hvol]
    decide
  obtain ⟨t, hrun, hc⟩ := dirlink_new hd.settled hd.valid hd.map.toSlotted hf 65536
  have hfit : Fits (boot sample ()) ROOTINO ((boot sample ()).vol.node ROOTINO).firstFree := by
    unfold Fits
    rw [hvol]
    decide
  rw [if_pos hfit] at hrun hc
  refine ⟨t, hrun, ?_⟩
  rw [hc.node, update_self, hvol]
  decide

end Xv6
