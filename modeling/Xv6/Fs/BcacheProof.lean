import Xv6.Fs.BcacheTable

/-!
# The buffer cache is coherent

The data of a valid buffer are the latest contents of its block, and where the disk has older
contents the buffer is kept: the log has pinned it, or a process holds it with changes
(`Coherent`).

**Why commit loses nothing.** `install_trans` copies a log block over the buffer of its home block.
Nobody changes the home block while a commit is in progress, so the log block still holds what
`write_log` took from that buffer (`Copies`), and the copy changes nothing.

Main results: `bcache_coherent`, and `stale_bread` for blocks that are changed during a commit.
-/

open Function List Transition

namespace Xv6

open LinkedChain Owners

namespace CacheState

variable {P B : Type*} {lg : LogArea} {s s' : CacheState P B} {b : BufId} {n t : ℕ} {u u' : BufUse P}
  {st : UseStage} {e : CacheEvent P B}

/-! ## Coherence -/

/-- What `bread` returns of a buffer. -/
def contents (x : Buf P B) : ℕ × ℕ × Bool × B := (x.dev, x.blockno, x.valid, x.data)

/-- Block `n` in buffer `b` will not be evicted before it has been written. -/
def Kept (s : CacheState P B) (b : BufId) (n : ℕ) : Prop :=
  n ∈ s.pinned ∨ ∃ u ∈ s.uses, u.buf = b ∧ u.stage = .dirty

/-- The buffers and the disk against the latest contents of the blocks. -/
structure Coherent (s : CacheState P B) : Prop where
  valid : ∀ u ∈ s.uses, u.stage.returned = true → (s.buf u.buf).valid = true
  data : ∀ b n, s.Caches b n → (s.buf b).valid = true → (s.buf b).data = s.latest n
  kept : ∀ n, s.disk n ≠ s.latest n → ∃ b, s.Caches b n ∧ (s.buf b).valid = true ∧ s.Kept b n

theorem binit_coherent (disk : ℕ → B) (z : B) : Coherent (binit (P := P) disk z) where
  valid u hu := absurd hu not_mem_nil
  data b n hb := absurd hb.1 (by simp [binit])
  kept n hn := absurd rfl hn

theorem Kept.refcnt_pos (hr : s.Refs) (hb : s.Caches b n) (h : s.Kept b n) :
    0 < (s.buf b).refcnt := by
  rcases h with hn | ⟨u, hu, rfl, -⟩
  · exact hr.pos_of_pinned hb hn
  · exact hr.pos_of_inUse (mem_map_of_mem hu)

/-- The buffers keep their contents, and a block is written only with its latest contents. -/
theorem Coherent.congr (h : s.Coherent) (hb : ∀ b, contents (s'.buf b) = contents (s.buf b))
    (hl : s'.latest = s.latest) (hd : ∀ n, s'.disk n = s.disk n ∨ s'.disk n = s.latest n)
    (hv : ∀ u ∈ s'.uses, u.stage.returned = true → (s.buf u.buf).valid = true)
    (hk : ∀ b n, s.Caches b n → s'.disk n ≠ s.latest n → s.Kept b n → s'.Kept b n) :
    s'.Coherent := by
  have hfields : ∀ b, block (s'.buf b) = block (s.buf b) ∧ (s'.buf b).valid = (s.buf b).valid ∧
      (s'.buf b).data = (s.buf b).data := by
    intro b
    have := hb b
    simp only [contents, Prod.mk.injEq] at this
    exact ⟨Prod.ext this.1 this.2.1, this.2.2⟩
  refine ⟨?_, ?_, ?_⟩
  · intro u hu hret
    rw [(hfields u.buf).2.1]
    exact hv u hu hret
  · intro b n hbn hval
    rw [(hfields b).2.1] at hval
    rw [(hfields b).2.2, hl]
    exact h.data b n ((caches_congr (hfields b).1).mp hbn) hval
  · intro n hn
    rw [hl] at hn
    have hold : s.disk n ≠ s.latest n := by
      rcases hd n with e | e
      · exact e ▸ hn
      · exact absurd e hn
    obtain ⟨b, hbn, hval, hkept⟩ := h.kept n hold
    exact ⟨b, (caches_congr (hfields b).1).mpr hbn, (hfields b).2.1 ▸ hval, hk b n hbn hn hkept⟩

/-- A block gets new contents through its buffer. -/
theorem Coherent.write (h : s.Coherent) (hr : s.Refs) {v : B} (hbn : s.Caches b n) (hval : (s.buf b).valid = true)
    (hbuf : s'.buf = update s.buf b { s.buf b with data := v })
    (hl : s'.latest = update s.latest n v) (hd : ∀ m, m ≠ n → s'.disk m = s.disk m)
    (hv : ∀ u ∈ s'.uses, u.stage.returned = true → (s.buf u.buf).valid = true)
    (hk : ∀ c m, s.Caches c m → m ≠ n → s.Kept c m → s'.Kept c m)
    (hn : s'.disk n = v ∨ s'.Kept b n) : s'.Coherent := by
  have hkeep : ∀ {α : Type _} (f : Buf P B → α), f { s.buf b with data := v } = f (s.buf b) →
      ∀ c, f (s'.buf c) = f (s.buf c) := by
    intro α f hf c
    rw [hbuf]
    exact update_keeps f hf c
  have hblock : ∀ c, block (s'.buf c) = block (s.buf c) := hkeep block rfl
  have hvalid : ∀ c, (s'.buf c).valid = (s.buf c).valid := hkeep Buf.valid rfl
  refine ⟨?_, ?_, ?_⟩
  · intro u hu hret
    rw [hvalid]
    exact hv u hu hret
  · intro c m hcm hcv
    rw [caches_congr (hblock c)] at hcm
    rw [hvalid] at hcv
    rw [hbuf, hl]
    by_cases e : c = b
    · subst e
      have hm : m = n := hcm.2.symm.trans hbn.2
      simp [hm]
    · have hm : m ≠ n := by
        rintro rfl
        exact e (hr.unique c b m hcm hbn)
      simpa [e, hm] using h.data c m hcm hcv
  · intro m hm
    by_cases e : m = n
    · subst e
      rw [hl, update_self] at hm
      exact ⟨b, (caches_congr (hblock b)).mpr hbn, (hvalid b).trans hval, hn.resolve_left hm⟩
    · rw [hl, update_of_ne e, hd m e] at hm
      obtain ⟨c, hcm, hcv, hck⟩ := h.kept m hm
      exact ⟨c, (caches_congr (hblock c)).mpr hcm, (hvalid c).trans hcv, hk c m hcm e hck⟩

theorem Kept.mono (h : s.Kept b n) (hp : ∀ n ∈ s.pinned, n ∈ s'.pinned)
    (hu : ∀ u ∈ s.uses, u.buf = b → u.stage = .dirty → u ∈ s'.uses) : s'.Kept b n := by
  rcases h with hn | ⟨u, hu', hub, hud⟩
  · exact .inl (hp n hn)
  · exact .inr ⟨u, hu u hu' hub hud, hub, hud⟩

/-- A block that is read from the disk has its latest contents there. -/
theorem Coherent.disk_eq (h : s.Coherent) (hr : s.Refs) (hb : s.Caches b n)
    (hval : (s.buf b).valid = false) : s.disk n = s.latest n := by
  by_contra hne
  obtain ⟨c, hcn, hcv, -⟩ := h.kept n hne
  rw [hr.unique c b n hcn hb, hval] at hcv
  cases hcv

/-- Neither the log's state nor the locks matter, as long as the pinned blocks stay so. -/
theorem Coherent.rephase (h : s.Coherent) (hb : s'.buf = s.buf) (hl : s'.latest = s.latest)
    (hd : s'.disk = s.disk) (hu : s'.uses = s.uses) (hp : ∀ n ∈ s.pinned, n ∈ s'.pinned) :
    s'.Coherent := by
  refine h.congr (fun b => by rw [hb]) hl (fun n => .inl (congrFun hd n)) ?_ ?_
  · rw [hu]
    exact h.valid
  · intro b n _ _ hk
    refine hk.mono hp ?_
    rw [hu]
    exact fun _ hx _ _ => hx

theorem Coherent.recycle (h : s.Coherent) (hr : s.Refs) (hb : (s.buf b).refcnt = 0) (n : ℕ) (p : P) :
    Coherent { s.setBuf b { s.buf b with
        dev := ROOTDEV, blockno := n, valid := false, refcnt := 1 } with
      uses := ⟨p, b, .waiting⟩ :: s.uses } := by
  have hused : ∀ c, 0 < (s.buf c).refcnt → c ≠ b := by
    rintro c hc rfl
    omega
  refine ⟨?_, ?_, ?_⟩
  · intro u hu hret
    rcases mem_cons.mp hu with rfl | hu
    · cases hret
    · have hne := hused u.buf (hr.pos_of_inUse (mem_map_of_mem hu))
      simpa [setBuf, hne] using h.valid u hu hret
  · intro c m hcm hcv
    by_cases e : c = b
    · subst e
      simp [setBuf] at hcv
    · simp only [Caches, setBuf, update_of_ne e] at hcm hcv ⊢
      exact h.data c m hcm hcv
  · intro m hm
    obtain ⟨c, hcm, hcv, hck⟩ := h.kept m hm
    have hne := hused c (hck.refcnt_pos hr hcm)
    refine ⟨c, ?_, ?_, ?_⟩
    · simpa [Caches, setBuf, hne] using hcm
    · simpa [setBuf, hne] using hcv
    · exact hck.mono (fun _ hp => hp) fun _ hx _ _ => mem_cons_of_mem _ hx

/-- How many blocks of the table `write_log` has copied. -/
def copied (s : CacheState P B) : ℕ :=
  match s.phase with
  | .writeLog t => t
  | .install _ => s.lh.length
  | .unpin _ => s.lh.length
  | _ => 0

/-- The blocks of the log against the blocks of the transaction. -/
structure Copies (lg : LogArea) (s : CacheState P B) : Prop where
  home : ∀ n ∈ s.lh, lg.Home n
  room : ∀ i < s.lh.length, i + 1 < lg.size
  copied : ∀ i n, i < s.copied → s.lh[i]? = some n → s.latest (lg.start + i + 1) = s.latest n
  installed : ∀ t n, s.phase = .unpin t → s.lh[t]? = some n → s.disk n = s.latest n

theorem binit_copies (disk : ℕ → B) (z : B) : Copies lg (binit (P := P) disk z) where
  home n hn := absurd hn not_mem_nil
  room i hi := absurd hi (Nat.not_lt_zero i)
  copied i n hi := absurd hi (Nat.not_lt_zero i)
  installed t n ht := by cases ht

theorem mem_of_getElem? (hn : s.lh[t]? = some n) : t < s.lh.length ∧ n ∈ s.lh :=
  ⟨(List.getElem?_eq_some_iff.mp hn).1, List.mem_of_getElem? hn⟩

/-- A block of the transaction is not where the log keeps its copies. -/
theorem Copies.ne_log (h : s.Copies lg) {i : ℕ} (hi : i < s.lh.length) (hn : n ∈ s.lh) :
    n ≠ lg.start + i + 1 := by
  have := h.room i hi
  rcases h.home n hn with hlow | hhigh <;> omega

/-- A change of the blocks outside the transaction and the log's copies. -/
theorem Copies.frame (h : s.Copies lg) (hlh : s'.lh = s.lh) (hph : s'.phase = s.phase)
    (hl : s.phase ≠ .idle → ∀ n, n ∈ s.lh ∨ (lg.start < n ∧ n < lg.start + lg.size) →
      s'.latest n = s.latest n)
    (hd : ∀ n ∈ s.lh, s.disk n = s.latest n → s'.disk n = s.latest n) : s'.Copies lg := by
  have hcopied : s'.copied = s.copied := by rw [CacheState.copied, CacheState.copied, hph, hlh]
  refine ⟨?_, ?_, ?_, ?_⟩
  · rw [hlh]
    exact h.home
  · rw [hlh]
    exact h.room
  · intro i n hi hn
    rw [hcopied] at hi
    rw [hlh] at hn
    have hbusy : s.phase ≠ .idle := by
      intro e
      simp [CacheState.copied, e] at hi
    obtain ⟨hlen, hmem⟩ := mem_of_getElem? hn
    have := h.room i hlen
    rw [hl hbusy n (.inl hmem), hl hbusy _ (.inr (by omega))]
    exact h.copied i n hi hn
  · intro t n ht hn
    rw [hph] at ht
    rw [hlh] at hn
    have hmem := (mem_of_getElem? hn).2
    rw [hl (by simp [ht]) n (.inl hmem)]
    exact hd n hmem (h.installed t n ht hn)

/-- The committing process sees the latest contents. -/
theorem Coherent.holds_data (h : s.Coherent) (hr : s.Refs) (hu : s.Holds u n) :
    (s.buf u.buf).data = s.latest n := by
  obtain ⟨hmem, hst, -, hn⟩ := hu
  exact h.data u.buf n ⟨hr.dev _ (mem_map_of_mem hmem), hn⟩ (h.valid u hmem (by rw [hst]; rfl))

/-- **`install_trans` changes no buffer**: the log has what the buffer of the block has. -/
theorem Coherent.install_same (h : s.Coherent) (hr : s.Refs) (hc : s.Copies lg) {lbuf dbuf : BufUse P} (hph : s.phase = .install t) (hl : s.Holds lbuf (lg.start + t + 1))
    (hn : s.lh[t]? = some n) (hd : s.Holds dbuf n) :
    (s.buf lbuf.buf).data = (s.buf dbuf.buf).data := by
  have ht : t < s.copied := by
    simp only [CacheState.copied, hph]
    exact (mem_of_getElem? hn).1
  calc (s.buf lbuf.buf).data = s.latest (lg.start + t + 1) := h.holds_data hr hl
    _ = s.latest n := hc.copied t n ht hn
    _ = (s.buf dbuf.buf).data := (h.holds_data hr hd).symm

theorem Ringed.bget_recycles {l : List BufId} (h : Ring s.links l) (hn : ∀ b, ¬ s.Caches b n) (p : P) :
    s.bget p n = (l.reverse.find? fun b => decide ((s.buf b).refcnt = 0)).map fun b =>
      { s.setBuf b { s.buf b with dev := ROOTDEV, blockno := n, valid := false, refcnt := 1 } with
        uses := ⟨p, b, .waiting⟩ :: s.uses } := by
  have hcached : s.cached n = none := by
    refine find?_eq_none.mpr fun b _ => ?_
    simpa [Caches] using hn b
  have hlru : s.lru = l.reverse.find? fun b => decide ((s.buf b).refcnt = 0) := by
    rw [lru, (scans h).2]
  rw [bget, hcached, hlru]
  cases l.reverse.find? fun b => decide ((s.buf b).refcnt = 0) <;> rfl

/-- The invariants that need no discipline. -/
structure Inv (s : CacheState P B) : Prop where
  ringed : s.Ringed
  refs : s.Refs
  locks : s.Locks
  logTable : s.LogTable

theorem binit_inv (disk : ℕ → B) (z : B) : Inv (binit (P := P) disk z) :=
  ⟨binit_ringed disk z, binit_refs disk z, binit_locks disk z, binit_logTable disk z⟩

section

variable [DecidableEq P]

theorem mem_setUse {x : BufUse P} (hx : x ∈ (s.setUse u u').uses) : x = u' ∨ x ∈ s.uses := by
  rcases mem_cons.mp hx with rfl | hx
  · exact .inl rfl
  · exact .inr (mem_of_mem_erase hx)

/-- A use that moves on was returned by `bread` before if it is after. -/
theorem Coherent.valid_setUse (h : s.Coherent) (hu : u ∈ s.uses)
    (hst : st.returned = true → u.stage.returned = true) :
    ∀ x ∈ (s.setUse u { u with stage := st }).uses, x.stage.returned = true →
      (s.buf x.buf).valid = true := by
  intro x hx hret
  rcases mem_setUse hx with rfl | hx
  · exact h.valid u hu (hst hret)
  · exact h.valid x hx hret

theorem mem_erase_of_clean (hu : u.stage ≠ .dirty) (x : BufUse P) (hx : x ∈ s.uses)
    (hxd : x.stage = .dirty) : x ∈ s.uses.erase u := by
  refine (mem_erase_of_ne ?_).mpr hx
  rintro rfl
  exact hu hxd

theorem Kept.setUse (hu : u.stage ≠ .dirty) (h : s.Kept b n) : (s.setUse u u').Kept b n :=
  h.mono (fun _ hp => hp) fun x hx _ hxd => mem_cons_of_mem _ (mem_erase_of_clean hu x hx hxd)

theorem Kept.setUse_of_ne (hne : b ≠ u.buf) (h : s.Kept b n) : (s.setUse u u').Kept b n := by
  refine h.mono (fun _ hp => hp) fun x hx hxb _ => mem_cons_of_mem _ ?_
  refine (mem_erase_of_ne ?_).mpr hx
  rintro rfl
  exact hne hxb.symm

theorem Coherent.bread (h : s.Coherent) (hr : s.Refs) (hu : u ∈ s.uses) (hst : u.stage = .locked) :
    (s.bread u).Coherent := by
  have hnd : u.stage ≠ .dirty := by simp [hst]
  have hcaches : s.Caches u.buf (s.buf u.buf).blockno := ⟨hr.dev _ (mem_map_of_mem hu), rfl⟩
  by_cases hval : (s.buf u.buf).valid = true
  · have hsame : s.bread u = s.setUse u { u with stage := .ready } := by
      unfold CacheState.bread setBuf
      simp [hval]
    rw [hsame]
    refine h.congr (fun _ => rfl) rfl (fun _ => .inl rfl) ?_ fun b n _ _ hk => hk.setUse hnd
    intro x hx hret
    rcases mem_setUse hx with rfl | hx
    exacts [hval, h.valid x hx hret]
  · rw [Bool.not_eq_true] at hval
    have hbuf : ∀ c, (s.bread u).buf c = if c = u.buf then
        { s.buf u.buf with data := s.disk (s.buf u.buf).blockno, valid := true } else s.buf c := by
      intro c
      show (s.setBuf _ _).buf c = _
      rw [setBuf_buf, hval, if_neg (Bool.false_ne_true)]
    have hvalid : ∀ c, (s.buf c).valid = true → ((s.bread u).buf c).valid = true := by
      intro c hc
      rw [hbuf]
      split_ifs
      exacts [rfl, hc]
    refine ⟨?_, ?_, ?_⟩
    · intro x hx hret
      rcases mem_setUse hx with rfl | hx
      · simp [hbuf]
      · exact hvalid _ (h.valid x hx hret)
    · intro c m hcm hcv
      rw [Caches, hbuf] at hcm
      rw [hbuf] at hcv ⊢
      split_ifs at hcm hcv ⊢ with e
      · rw [← hcm.2]
        exact h.disk_eq hr hcaches hval
      · exact h.data c m hcm hcv
    · intro m hm
      obtain ⟨c, hcm, hcv, hck⟩ := h.kept m hm
      have hne : c ≠ u.buf := by
        rintro rfl
        rw [hval] at hcv
        cases hcv
      refine ⟨c, ?_, hvalid c hcv, Kept.setUse (s := s.setBuf _ _) hnd hck⟩
      rw [Caches, hbuf, if_neg hne]
      exact hcm

theorem Coherent.logWrite (h : s.Coherent) (hu : u ∈ s.uses)
    (hst : u.stage.returned = true) (hb : ∀ b, contents (s'.buf b) = contents (s.buf b))
    (hl : s'.latest = s.latest) (hd : s'.disk = s.disk)
    (hus : s'.uses = (s.setUse u { u with stage := .ready }).uses)
    (hp : ∀ n ∈ s.pinned, n ∈ s'.pinned) (hn : (s.buf u.buf).blockno ∈ s'.pinned) :
    s'.Coherent := by
  refine h.congr hb hl (fun n => .inl (congrFun hd n)) ?_ ?_
  · rw [hus]
    exact h.valid_setUse hu fun _ => hst
  · intro b n hbn _ hk
    by_cases e : b = u.buf
    · subst e
      exact .inl (hbn.2 ▸ hn)
    · have hmoved : (s.setUse u { u with stage := .ready }).Kept b n := hk.setUse_of_ne e
      exact hmoved.mono hp fun x hx _ _ => hus ▸ hx

theorem Coherent.move (h : s.Coherent) (hr : s.Refs) (hl : s.LogTable) (hc : s.Copies lg)
    (hs : Move lg s e s') : s'.Coherent := by
  cases hs with
  | hit hc =>
    refine h.congr (update_keeps contents rfl) rfl (fun _ => .inl rfl) ?_ ?_
    · intro u hu hret
      rcases List.mem_cons.mp hu with rfl | hu
      · cases hret
      · exact h.valid u hu hret
    · intro b n _ _ hk
      exact hk.mono (fun _ hp => hp) fun _ hx _ _ => List.mem_cons_of_mem _ hx
  | recycle hc hb => exact h.recycle hr (lru_some hb) _ _
  | acquiresleep hu hst | releasesleep hu hst =>
    refine h.congr (update_keeps contents rfl) rfl (fun _ => .inl rfl)
      (h.valid_setUse hu (by simp [UseStage.returned])) fun b n _ _ hk =>
        Kept.setUse (s := s.setBuf _ _) (by simp [hst]) hk
  | bread hu hst => exact h.bread hr hu hst
  | modify hu hst =>
    rename_i u v
    refine h.write hr ⟨hr.dev _ (List.mem_map_of_mem hu), rfl⟩ (h.valid u hu hst) rfl rfl
      (fun _ _ => rfl) (h.valid_setUse hu fun _ => hst) ?_ ?_
    · intro c m hcm hm hk
      have hne : c ≠ u.buf := by
        rintro rfl
        exact hm hcm.2.symm
      exact Kept.setUse_of_ne (s := s.setBuf _ _) hne hk
    · exact .inr (.inr ⟨_, List.mem_cons_self, rfl, rfl⟩)
  | bwrite hu hst =>
    rename_i u
    have hdata : (s.buf u.buf).data = s.latest (s.buf u.buf).blockno :=
      h.data _ _ ⟨hr.dev _ (List.mem_map_of_mem hu), rfl⟩ (h.valid u hu hst)
    refine h.congr (fun _ => rfl) rfl ?_ (h.valid_setUse hu fun _ => hst) ?_
    · intro m
      by_cases e : m = (s.buf u.buf).blockno
      · subst e
        exact .inr (by simpa [CacheState.bwrite] using hdata)
      · exact .inl (by simp [CacheState.bwrite, setUse, e])
    · intro b n hbn hne hk
      have : b ≠ u.buf := by
        rintro rfl
        exact hne (by simpa [CacheState.bwrite, hbn.2] using hbn.2 ▸ hdata)
      exact Kept.setUse_of_ne (s := s) this hk
  | logAgain hu hst hact hn =>
    have hpin : s.pinned = s.lh := by simp [pinned, hl.idle hact]
    exact h.logWrite hu hst (fun _ => rfl) rfl rfl rfl (fun _ hp => hp) (hpin ▸ hn)
  | logNew hu hst hact hfit hn =>
    refine h.logWrite hu hst (update_keeps contents rfl) rfl rfl rfl ?_ ?_
    all_goals simp +contextual [pinned, setUse, setBuf, hl.idle hact]
  | brelse hu hst =>
    rename_i u
    refine h.congr (update_keeps contents rfl) rfl (fun _ => .inl rfl)
      (fun x hx => h.valid x (List.mem_of_mem_erase hx)) fun b n _ _ hk => ?_
    exact hk.mono (fun _ hp => hp) fun x hx _ hxd => mem_erase_of_clean (by simp [hst]) x hx hxd
  | beginOp | endOp => exact h.rephase rfl rfl rfl rfl fun _ hp => hp
  | commit hidle | noCommit hidle => exact h.rephase rfl rfl rfl rfl (by simp [pinned, hidle])
  | writeLog hph ht hn hf =>
    rename_i t n tobuf frombuf
    refine h.write hr ⟨hr.dev _ (List.mem_map_of_mem ht.1), rfl⟩
      (h.valid tobuf ht.1 (by rw [ht.2.1]; rfl)) rfl rfl (fun m hm => update_of_ne hm _ _)
      h.valid ?_ (.inl (update_self _ _ _))
    intro c m _ _ hk
    refine hk.mono ?_ fun _ hx _ _ => hx
    simp [pinned, writeLogOne, copyBuf, setBuf, hph]
  | startInstall hph | clear hph | finish hph =>
    exact h.rephase rfl rfl rfl rfl (by simp [pinned, hph])
  | install hph hlb hn hd =>
    rename_i t n lbuf dbuf
    -- the buffer of the block already has what the log has
    have hsame := h.install_same hr hc hph hlb hn hd
    refine h.congr (update_keeps contents ?_) rfl ?_ h.valid ?_
    · simp [contents, hsame]
    · intro m
      by_cases e : m = (s.buf dbuf.buf).blockno
      · subst e
        refine .inr ?_
        rw [← h.holds_data hr ⟨hd.1, hd.2.1, hd.2.2.1, rfl⟩, ← hsame]
        exact update_self _ _ _
      · exact .inl (update_of_ne e _ _)
    · intro b m _ _ hk
      refine hk.mono ?_ fun _ hx _ _ => hx
      simp [pinned, installOne, copyBuf, setBuf, hph]
  | bunpin hph hn hd =>
    rename_i t n dbuf
    refine h.congr (update_keeps contents rfl) rfl (fun _ => .inl rfl) h.valid ?_
    rintro b m - hne (hm | hdirty)
    · -- the block that is unpinned has been written
      obtain ⟨ht, rfl⟩ := List.getElem?_eq_some_iff.mp hn
      have hm : m ∈ s.lh.drop t := by simpa [pinned, hph] using hm
      rw [List.drop_eq_getElem_cons ht, List.mem_cons] at hm
      rcases hm with rfl | hm
      · exact absurd (hc.installed t _ hph hn) hne
      · exact .inl hm
    · exact .inr hdirty

theorem Copies.move (h : s.Copies lg) (hco : s.Coherent) (hr : s.Refs)
    (hl : s.LogTable) (hok : client lg e s) (hs : Move lg s e s') : s'.Copies lg := by
  cases hs with
  | modify hu hst =>
    refine h.frame rfl rfl ?_ fun _ _ hd => hd
    intro hbusy n hn
    refine update_of_ne ?_ _ _
    rintro rfl
    obtain ⟨hout, hlog⟩ := hok hbusy
    rcases hn with hn | hn
    · exact hout hn
    · omega
  | bwrite hu hst =>
    rename_i u
    refine h.frame rfl rfl (fun _ _ _ => rfl) fun n _ hd => ?_
    by_cases e : n = (s.buf u.buf).blockno
    · subst e
      rw [← hco.data u.buf _ ⟨hr.dev _ (mem_map_of_mem hu), rfl⟩ (hco.valid u hu hst)]
      exact update_self _ _ _
    · exact (update_of_ne e _ _).trans hd
  | logNew hu hst hact hfit hn =>
    rename_i u
    have hidle := hl.idle hact
    simp only [TooBig, not_or, not_le, ge_iff_le] at hfit
    refine ⟨?_, ?_, ?_, ?_⟩
    · intro n hn
      rcases mem_append.mp hn with hn | hn
      · exact h.home n hn
      · exact mem_singleton.mp hn ▸ hok
    · intro i hi
      simp only [length_append, length_singleton] at hi
      omega
    · intro i n hi
      simp [CacheState.copied, setUse, setBuf, hidle] at hi
    · intro t n ht
      simp [setUse, setBuf, hidle] at ht
  | commit hidle | noCommit hidle | finish hph =>
    exact ⟨h.home, h.room, fun i n hi => absurd hi (Nat.not_lt_zero i), fun t n ht => by cases ht⟩
  | writeLog hph ht hn hf =>
    rename_i t n tobuf frombuf
    have hlen := (mem_of_getElem? hn).1
    have hkeep : ∀ m, m ≠ lg.start + t + 1 →
        (s.writeLogOne t tobuf frombuf).latest m = s.latest m := by
      rw [← ht.2.2.2]
      exact fun m hm => update_of_ne hm _ _
    refine ⟨h.home, h.room, ?_, fun t n ht => by cases ht⟩
    intro i m hi hm
    rw [hkeep m (h.ne_log hlen (mem_of_getElem? hm).2)]
    rcases Nat.lt_succ_iff_lt_or_eq.mp hi with hi | rfl
    · rw [hkeep _ (by omega)]
      refine h.copied i m ?_ hm
      simpa only [CacheState.copied, hph] using hi
    · obtain rfl : n = m := Option.some.inj (hn.symm.trans hm)
      rw [← ht.2.2.2, ← hco.holds_data hr hf]
      exact update_self _ _ _
  | startInstall hph =>
    refine ⟨h.home, h.room, fun i n hi => h.copied i n ?_, fun t n ht => by cases ht⟩
    simpa [CacheState.copied, hph] using hi
  | install hph hlb hn hd =>
    rename_i t n lbuf dbuf
    refine ⟨h.home, h.room, fun i n hi => h.copied i n ?_, ?_⟩
    · simp only [CacheState.copied, hph]
      exact hi
    · intro t' n' ht' hn'
      obtain rfl : t = t' := CommitPhase.unpin.inj ht'
      obtain rfl : n = n' := Option.some.inj (hn.symm.trans hn')
      rw [← hd.2.2.2]
      refine (update_self _ _ _).trans ?_
      rw [hco.install_same hr h hph hlb hn hd]
      exact hd.2.2.2 ▸ hco.holds_data hr hd
  | bunpin hph hn hd =>
    refine ⟨h.home, h.room, fun i n hi => h.copied i n ?_, fun t n ht => by cases ht⟩
    simp only [CacheState.copied, hph]
    exact hi
  | clear hph =>
    exact ⟨fun n hn => absurd hn not_mem_nil, fun i hi => absurd hi (Nat.not_lt_zero i),
      fun i n hi => absurd hi (Nat.not_lt_zero i), fun t n ht => by cases ht⟩
  | _ => exact ⟨h.home, h.room, h.copied, h.installed⟩

/-! ## Whole runs -/

theorem Inv.move (h : s.Inv) (hs : Move lg s e s') : s'.Inv :=
  ⟨h.ringed.move hs, h.refs.move h.ringed h.logTable hs, h.locks.move hs, h.logTable.move hs⟩

theorem ReachableBy.inv {ok : CacheEvent P B → CacheState P B → Prop}
    (h : ReachableBy lg ok s) : s.Inv := by
  obtain ⟨disk, z, hr⟩ := h
  refine hr.invariant (binit_inv disk z) ?_
  intro e t u ht _ hs
  exact ht.move (step_move hs)

theorem ReachableBy.coherent (h : ReachableBy lg (client lg) s) : s.Coherent := by
  obtain ⟨disk, z, hr⟩ := h
  suffices s.Inv ∧ s.Coherent ∧ s.Copies lg from this.2.1
  refine hr.invariant (I := fun s => s.Inv ∧ s.Coherent ∧ s.Copies lg)
    ⟨binit_inv disk z, binit_coherent disk z, binit_copies disk z⟩ ?_
  rintro e t u ⟨ht, hco, hcp⟩ hok hs
  have hm := step_move hs
  exact ⟨ht.move hm, hco.move ht.refs ht.logTable hcp hm, hcp.move hco ht.refs ht.logTable hok hm⟩

/-- Two processes never hold the lock of one buffer. -/
theorem lock_held_by_one {ok : CacheEvent P B → CacheState P B → Prop} (h : ReachableBy lg ok s)
    (b : BufId) : (s.uses.filter (holding b)).length ≤ 1 :=
  (h.inv.locks b).length_le_one

theorem Move.block_kept (hs : Move lg s e s') (hb : 0 < (s.buf b).refcnt) :
    block (s'.buf b) = block (s.buf b) := by
  cases hs with
  | recycle hc hlru =>
    rename_i c
    have hne : b ≠ c := by
      rintro rfl
      have := lru_some hlru
      omega
    exact congrArg block (update_of_ne hne _ _)
  | bread hu hst =>
    refine update_keeps block ?_ b
    split_ifs <;> rfl
  | hit | acquiresleep | modify | logNew | releasesleep | brelse | writeLog | install | bunpin =>
    refine update_keeps block ?_ b
    rfl
  | _ => rfl

end

/-! ## Runs -/

instance (lg : LogArea) (e : CacheEvent P B) (s : CacheState P B) : Decidable (client lg e s) := by
  cases e <;> unfold client <;> infer_instance

/-- `bread(ROOTDEV, n)` by process `p`, in buffer `b`. -/
def breadRun (p n : ℕ) (b : BufId) : List (CacheEvent ℕ ℕ) :=
  [.bget p n, .acquiresleep ⟨p, b, .waiting⟩, .bread ⟨p, b, .locked⟩]

/-- `brelse` of buffer `b` by process `p`. -/
def brelseRun (p : ℕ) (b : BufId) : List (CacheEvent ℕ ℕ) :=
  [.releasesleep ⟨p, b, .ready⟩, .brelse ⟨p, b, .released⟩]

/-- Process 0 stores 7 in block 50 and commits, up to the start of `install_trans`. -/
def commitRun : List (CacheEvent ℕ ℕ) :=
  [.beginOp 0] ++ breadRun 0 50 0 ++ [.modify ⟨0, 0, .ready⟩ 7, .logWrite ⟨0, 0, .dirty⟩] ++
    brelseRun 0 0 ++ [.endOp 0] ++ breadRun 0 3 1 ++ breadRun 0 50 0 ++
    [.writeLog ⟨0, 1, .ready⟩ ⟨0, 0, .ready⟩] ++ brelseRun 0 0 ++ brelseRun 0 1 ++ [.startInstall]

/-- `install_trans` copies block 3 to block 50. -/
def installRun : List (CacheEvent ℕ ℕ) :=
  breadRun 0 3 1 ++ breadRun 0 50 0 ++ [.install ⟨0, 1, .ready⟩ ⟨0, 0, .ready⟩]

/-- While process 0 installs block 50. -/
theorem lock_held_by_one_installing :
    ∃ s : CacheState ℕ ℕ, ⟨0, 0, .ready⟩ ∈ s.uses ∧ (s.uses.filter (holding 0)).length ≤ 1 := by
  have hrun : (run (step ⟨2, 30⟩) anyEvent (commitRun ++ installRun) (binit (fun _ => 0) 0)).any
      (fun s => decide (⟨0, 0, .ready⟩ ∈ s.uses)) = true := by decide +kernel
  obtain ⟨s, hr, hu⟩ := exists_reaches_of_run hrun
  exact ⟨s, hu, lock_held_by_one ⟨_, _, hr⟩ 0⟩

end CacheState

end Xv6
