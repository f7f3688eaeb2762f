import Xv6.Lib.Pool
import Xv6.Lib.WrapRing
import Xv6.Virtio.Disk

/-!
# The protocol of driver and device

**Stages.** From the moment `avail->idx` counts it until `virtio_disk_intr` has seen it, a request
is in one of the stages of `Stage`: in the avail ring, in the device, in the used ring. The stage of
a request is found by the head of its chain, and every step of the device moves one request to the
next stage.

**Invariant.** `Inv s stage` has one part for each thing the driver and the device rely on: the
lock, the descriptors (a `Pool`), the two rings (`WrapRing.Lists`), what the device knows, and for
each call what holds at its location (`TaskOk`). `TaskOk` of a call depends on its own descriptors
and its own buffer only (`TaskOk.agree`), so that a step concerns one call.

Main result: `virtio_protocol`.
-/

open Function List Option

namespace Xv6.Virtio

open DiskState

variable {P H B : Type}

/-! ## The invariant -/

/-- The stages of a request that has been made available. -/
inductive Stage (B : Type)
  | avail
  | taken
  | transferred (r : Request B)
  | reported (r : Request B)
  | appended (r : Request B)
  | used

/-- What the device has of a request in its stage. -/
def Stage.work : Stage B → Option (Work B)
  | .taken => some .taken
  | .transferred r => some (.transferred r)
  | .reported r => some (.reported r)
  | _ => none

/-- The stage of a request that the device works on. -/
def Work.stage : Work B → Stage B
  | .taken => .taken
  | .transferred r => .transferred r
  | .reported r => .reported r

/-- The descriptors a call has at a location. -/
def Loc.own : Loc → List ℕ
  | .alloc | .release => []
  | .format c | .ring c | .bump c | .wait c | .clear c => c.list
  | .freeChain c i => c.list.dropWhile (· ≠ i)

/-- The locations where the process has the lock. -/
def Loc.inside : Loc → Bool
  | .alloc | .wait _ => false
  | _ => true

/-- The chain of a request, from when it has been filled in until it is freed. -/
def Loc.inFlight : Loc → Option Chain
  | .ring c | .bump c | .wait c | .clear c => some c
  | _ => none

/-- What is stored in descriptor `i` of a chain. -/
def Chain.desc (c : Chain) (t : Task B) (i : ℕ) : VirtqDesc B :=
  if i = c.head then headDesc c else if i = c.data then dataDesc c t else statusDesc c

namespace DiskState

variable (s : DiskState P H B)

def own (p : P) : List ℕ := (s.task p).elim [] fun t => t.loc.own

/-- The transfer that a call asks for, with the bytes of its buffer as they are now. -/
def request (t : Task B) : Request B :=
  ⟨t.buf, t.write, (s.buf t.buf).sector, BSIZE, (s.buf t.buf).data⟩

/-- The device has not completed the request of the call. -/
def Awaited (t : Task B) : Prop := (s.device.done t.buf).length + 1 = s.started t.buf

/-- **The device has completed the request of the call**: as many requests for the buffer as there
have been calls, and this one last. -/
def Served (t : Task B) : Prop :=
  (s.device.done t.buf).length = s.started t.buf ∧ (s.device.done t.buf).head? = some (s.request t)

/-- **The chain of a call is header, data and status.** -/
structure Filled (t : Task B) (c : Chain) : Prop where
  desc : ∀ i ∈ c.list, s.disk.desc i = c.desc t i
  op : s.disk.ops c.head = header t.write (s.buf t.buf)
  buf : (s.disk.info c.head).b = some t.buf

/-- What holds of a request in its stage. -/
def StageOk (t : Task B) (c : Chain) : Stage B → Prop
  | .avail | .taken => s.Awaited t
  | .transferred r => r = s.request t ∧ s.Awaited t
  | .reported r | .appended r => r = s.request t ∧ (s.disk.info c.head).status = 0 ∧ s.Awaited t
  | .used => (s.disk.info c.head).status = 0 ∧ s.Served t

/-- What holds of a call at its location. -/
def TaskOk (stage : ℕ → Option (Stage B)) (t : Task B) : Prop :=
  match t.loc with
  | .alloc | .format _ => s.Awaited t
  | .ring c => s.Filled t c ∧ (s.buf t.buf).disk = 1 ∧ s.Awaited t
  | .bump c => s.Filled t c ∧ (s.buf t.buf).disk = 1 ∧ s.Awaited t ∧
      s.disk.avail.ring (s.disk.avail.idx.toNat % NUM) = c.head
  | .wait c => s.Filled t c ∧
      if (s.buf t.buf).disk = 1 then ∃ x, stage c.head = some x ∧ s.StageOk t c x else s.Served t
  | .clear c => s.Filled t c ∧ s.Served t
  | .freeChain c i => c.list.Nodup ∧ i ∈ c.list ∧
      (∀ j ∈ (Loc.freeChain c i).own, s.disk.desc j = c.desc t j) ∧ s.Served t
  | .release => s.Served t

/-- What holds of an interrupt handler at its location. -/
def IntrOk : IntrLoc → Prop
  | .check | .release => True
  | .readId => s.disk.usedIdx ≠ s.disk.used.idx
  | .status id | .finish id => s.disk.usedIdx ≠ s.disk.used.idx ∧
      s.disk.used.ring (s.disk.usedIdx.toNat % NUM) = id

/-- The thread is in a call. -/
def Busy : P ⊕ H → Prop
  | .inl p => s.task p ≠ none
  | .inr h => s.intr h ≠ none

/-- **Who runs has the lock.** -/
structure Mutex : Prop where
  busy : ∀ x, s.mode x ≠ .idle → s.Busy x
  running : ∀ x, s.mode x = .running → s.lock = some x
  task : ∀ p t, s.task p = some t → t.loc.inside = true → s.mode (.inl p) = .running
  intr : ∀ h l, s.intr h = some l → l ≠ .check → s.mode (.inr h) = .running

/-- **The rings and the device**, given the stages of the requests. -/
structure Queues (stage : ℕ → Option (Stage B)) : Prop where
  work : ∀ i, s.device.work i = (stage i).bind Stage.work
  appended : ∀ i r, s.device.appended = some (i, r) ↔ stage i = some (.appended r)
  slot : ∀ i r, s.device.appended = some (i, r) →
    s.disk.used.ring (s.disk.used.idx.toNat % NUM) = i
  avail : WrapRing.Lists s.disk.avail.ring NUM (2 ^ 16) s.device.lastAvail.toNat
    s.disk.avail.idx.toNat fun i => stage i = some .avail
  used : WrapRing.Lists s.disk.used.ring NUM (2 ^ 16) s.disk.usedIdx.toNat
    s.disk.used.idx.toNat fun i => stage i = some .used

structure Inv (stage : ℕ → Option (Stage B)) : Prop where
  mutex : s.Mutex
  pool : Pool (Finset.range NUM) s.disk.free s.own
  bufs : ∀ p q t u, s.task p = some t → s.task q = some u → t.buf = u.buf → p = q
  task : ∀ p t, s.task p = some t → s.TaskOk stage t
  posted : ∀ i, stage i ≠ none → ∃ p t c, s.task p = some t ∧ t.loc = .wait c ∧ c.head = i ∧
    (s.buf t.buf).disk = 1
  queues : s.Queues stage
  intr : ∀ h l, s.intr h = some l → s.IntrOk l
  rest : ∀ b, (∀ p t, s.task p = some t → t.buf ≠ b) → (s.device.done b).length = s.started b

end DiskState

variable {s s' : DiskState P H B} {stage stage' : ℕ → Option (Stage B)} {p q : P} {k : H}
  {t u : Task B}
  {c : Chain} {i : ℕ}

/-! ## What a call depends on -/

/-- **Two states agree on a call**: on its descriptors and its buffer. -/
structure Agree (s s' : DiskState P H B) (stage stage' : ℕ → Option (Stage B)) (t : Task B) :
    Prop where
  desc : ∀ i ∈ t.loc.own, s'.disk.desc i = s.disk.desc i
  ops : ∀ i ∈ t.loc.own, s'.disk.ops i = s.disk.ops i
  info : ∀ i ∈ t.loc.own, s'.disk.info i = s.disk.info i
  stage : ∀ i ∈ t.loc.own, stage' i = stage i
  buf : s'.buf t.buf = s.buf t.buf
  done : s'.device.done t.buf = s.device.done t.buf
  started : s'.started t.buf = s.started t.buf
  slot : t.loc.inside = true → s'.disk.avail.ring (s'.disk.avail.idx.toNat % NUM) =
    s.disk.avail.ring (s.disk.avail.idx.toNat % NUM)

/-- Where `free_chain` goes from descriptor `i`. -/
def Chain.after (c : Chain) (t : Task B) (i : ℕ) : Loc :=
  if (c.desc t i).flags &&& VRING_DESC_F_NEXT ≠ 0 then .freeChain c (c.desc t i).next else .release

/-- **`free_chain` frees the whole chain**: it goes to the next descriptor that the call has. -/
theorem Chain.own_after (c : Chain) (hn : c.list.Nodup) (hi : i ∈ c.list) :
    (Loc.freeChain c i).own = i :: (c.after t i).own ∧
      (c.after t i = .release ∨ ∃ j ∈ c.list, c.after t i = .freeChain c j) := by
  obtain ⟨x, y, z⟩ := c
  simp only [Chain.list, nodup_cons, mem_cons, not_mem_nil, or_false, not_or] at hn hi
  obtain ⟨⟨hxy, hxz⟩, hyz, -⟩ := hn
  have hflags : ((if t.write then 0 else VRING_DESC_F_WRITE) ||| VRING_DESC_F_NEXT) &&&
    VRING_DESC_F_NEXT ≠ 0 := by
    cases t.write <;> decide
  rcases hi with rfl | rfl | rfl
  · have hafter : Chain.after ⟨i, y, z⟩ t i = .freeChain ⟨i, y, z⟩ y := by
      simp [Chain.after, Chain.desc, headDesc]
    rw [hafter]
    refine ⟨?_, .inr ⟨y, by simp [Chain.list], rfl⟩⟩
    simp [Loc.own, Chain.list, hxy]
  · have hafter : Chain.after ⟨x, i, z⟩ t i = .freeChain ⟨x, i, z⟩ z := by
      simp only [Chain.after, Chain.desc, dataDesc, if_neg (Ne.symm hxy), if_true]
      exact if_pos hflags
    rw [hafter]
    refine ⟨?_, .inr ⟨z, by simp [Chain.list], rfl⟩⟩
    simp [Loc.own, Chain.list, hxy, hxz, hyz]
  · have hafter : Chain.after ⟨x, y, i⟩ t i = .release := by
      simp only [Chain.after, Chain.desc, statusDesc, if_neg (Ne.symm hxz), if_neg (Ne.symm hyz)]
      exact if_neg (by decide)
    rw [hafter]
    exact ⟨by simp [Loc.own, Chain.list, hxz, hyz], .inl rfl⟩

theorem Chain.head_mem (c : Chain) : c.head ∈ c.list := mem_cons_self

namespace Agree

variable (ha : Agree s s' stage stage' t)

include ha

theorem request : s'.request t = s.request t := by
  unfold DiskState.request
  rw [ha.buf]

theorem awaited : s'.Awaited t ↔ s.Awaited t := by
  unfold Awaited
  rw [ha.done, ha.started]

theorem served : s'.Served t ↔ s.Served t := by
  unfold Served
  rw [ha.done, ha.started, ha.request]

theorem filled (hown : t.loc.own = c.list) (h : s.Filled t c) : s'.Filled t c := by
  have hhead : c.head ∈ t.loc.own := hown ▸ c.head_mem
  refine ⟨fun i hi => ?_, ?_, ?_⟩
  · rw [ha.desc i (hown ▸ hi), h.desc i hi]
  · rw [ha.ops _ hhead, ha.buf, h.op]
  · rw [ha.info _ hhead, h.buf]

theorem stageOk (hhead : c.head ∈ t.loc.own) (x : Stage B) : s'.StageOk t c x ↔ s.StageOk t c x := by
  cases x <;> simp only [StageOk, ha.info _ hhead, ha.request, ha.awaited, ha.served]

/-- **A call is as it should be in both states, or in none.** -/
theorem taskOk (h : s.TaskOk stage t) : s'.TaskOk stage' t := by
  unfold TaskOk at h ⊢
  rw [ha.buf]
  cases hl : t.loc with
  | alloc | format c =>
    rw [hl] at h
    exact ha.awaited.2 h
  | ring c =>
    rw [hl] at h
    exact ⟨ha.filled (by rw [hl]; rfl) h.1, h.2.1, ha.awaited.2 h.2.2⟩
  | bump c =>
    rw [hl] at h
    refine ⟨ha.filled (by rw [hl]; rfl) h.1, h.2.1, ha.awaited.2 h.2.2.1, ?_⟩
    rw [ha.slot (by rw [hl]; rfl)]
    exact h.2.2.2
  | wait c =>
    rw [hl] at h
    have hown : t.loc.own = c.list := by rw [hl]; rfl
    have hhead : c.head ∈ t.loc.own := hown ▸ c.head_mem
    refine ⟨ha.filled hown h.1, ?_⟩
    simp only [ha.stage _ hhead, ha.stageOk hhead, ha.served]
    exact h.2
  | clear c =>
    rw [hl] at h
    exact ⟨ha.filled (by rw [hl]; rfl) h.1, ha.served.2 h.2⟩
  | freeChain c i =>
    rw [hl] at h
    refine ⟨h.1, h.2.1, fun j hj => ?_, ha.served.2 h.2.2.2⟩
    rw [ha.desc j (by rw [hl]; exact hj)]
    exact h.2.2.1 j hj
  | release =>
    rw [hl] at h
    exact ha.served.2 h

end Agree

theorem Agree.of_eq (hdisk : s'.disk = s.disk) (hbuf : s'.buf = s.buf) (hdev : s'.device = s.device)
    (hstarted : s'.started = s.started) (t : Task B) : Agree s s' stage stage t where
  desc _ _ := by rw [hdisk]
  ops _ _ := by rw [hdisk]
  info _ _ := by rw [hdisk]
  stage _ _ := rfl
  buf := by rw [hbuf]
  done := by rw [hdev]
  started := by rw [hstarted]
  slot _ := by rw [hdisk]

/-! ## The lock -/

/-- Some threads that sleep have been woken. -/
def Woken (m m' : P ⊕ H → Mode) : Prop := ∀ x, m' x = m x ∨ m x = .asleep ∧ m' x = .acquiring

theorem Woken.running_iff {m m' : P ⊕ H → Mode} (hw : Woken m m') (x : P ⊕ H) :
    m' x = .running ↔ m x = .running := by
  rcases hw x with he | ⟨h1, h2⟩
  · rw [he]
  · rw [h1, h2]
    decide

theorem Woken.trans {m1 m2 m3 : P ⊕ H → Mode} (h1 : Woken m1 m2) (h2 : Woken m2 m3) : Woken m1 m3 := by
  intro x
  rcases h2 x with he2 | ⟨ha2, hb2⟩
  · rw [he2]
    exact h1 x
  · rcases h1 x with he1 | ⟨-, hb1⟩
    · exact .inr ⟨he1 ▸ ha2, hb2⟩
    · rw [hb1] at ha2
      contradiction

/-- The thread is where it has the lock. -/
def DiskState.Inside (s : DiskState P H B) : P ⊕ H → Prop
  | .inl p => ∃ t, s.task p = some t ∧ t.loc.inside = true
  | .inr k => ∃ l, s.intr k = some l ∧ l ≠ .check

namespace DiskState.Mutex

variable (hm : s.Mutex)

include hm

theorem eq_of_running {x y : P ⊕ H} (hx : s.mode x = .running) (hy : s.mode y = .running) : x = y :=
  some.inj ((hm.running x hx).symm.trans (hm.running y hy))

theorem inside {x : P ⊕ H} (hx : s.Inside x) : s.mode x = .running := by
  cases x with
  | inl p =>
    obtain ⟨t, hp, hin⟩ := hx
    exact hm.task p t hp hin
  | inr k =>
    obtain ⟨l, hk, hne⟩ := hx
    exact hm.intr k l hk hne

theorem not_inside (hp : s.mode (.inl p) = .running) (hq : s.task q = some u) (hne : q ≠ p) :
    u.loc.inside = false := by
  by_contra hin
  have hrun := hm.inside (x := .inl q) ⟨u, hq, by simpa using hin⟩
  exact hne (Sum.inl_injective (hm.eq_of_running hrun hp))

/-- **A step of one thread.** The others are in the same calls and keep the lock, and may be woken. -/
theorem change {x : P ⊕ H} (htask : ∀ q, .inl q ≠ x → s'.task q = s.task q)
    (hintr : ∀ j, .inr j ≠ x → s'.intr j = s.intr j)
    (hmode : ∀ y, y ≠ x → s'.mode y = s.mode y ∨ s.mode y = .asleep ∧ s'.mode y = .acquiring)
    (hlock : ∀ y, y ≠ x → s.lock = some y → s'.lock = some y)
    (hbusy : s'.mode x ≠ .idle → s'.Busy x) (hrun : s'.mode x = .running → s'.lock = some x)
    (hin : s'.Inside x → s'.mode x = .running) : s'.Mutex := by
  have hother : ∀ y, y ≠ x → (s.Busy y → s'.Busy y) ∧ (s'.Inside y → s.mode y = .running) := by
    rintro (q | j) hy
    · refine ⟨fun hb => (htask q hy).trans_ne hb, ?_⟩
      rintro ⟨t, hq, ht⟩
      exact hm.task q t ((htask q hy).symm.trans hq) ht
    · refine ⟨fun hb => (hintr j hy).trans_ne hb, ?_⟩
      rintro ⟨l, hj, hl⟩
      exact hm.intr j l ((hintr j hy).symm.trans hj) hl
  have hinside : ∀ y, s'.Inside y → s'.mode y = .running := fun y hy => by
    by_cases hyx : y = x
    · subst hyx
      exact hin hy
    · have hyr := (hother y hyx).2 hy
      rcases hmode y hyx with he | ⟨ha, -⟩
      · exact he.trans hyr
      · rw [hyr] at ha
        contradiction
  refine ⟨fun y hy => ?_, fun y hy => ?_, fun q t hq ht => hinside _ ⟨t, hq, ht⟩,
    fun j l hj hl => hinside _ ⟨l, hj, hl⟩⟩
  · by_cases hyx : y = x
    · subst hyx
      exact hbusy hy
    · refine (hother y hyx).1 (hm.busy y ?_)
      rcases hmode y hyx with he | ⟨ha, -⟩
      · rwa [he] at hy
      · rw [ha]
        decide
  · by_cases hyx : y = x
    · subst hyx
      exact hrun hy
    · refine hlock y hyx (hm.running y ?_)
      rcases hmode y hyx with he | ⟨-, ha⟩
      · rwa [he] at hy
      · rw [ha] at hy
        contradiction

theorem congr (htask : s'.task = s.task) (hintr : s'.intr = s.intr) (hmode : s'.mode = s.mode)
    (hlock : s'.lock = s.lock) : s'.Mutex := by
  refine ⟨fun x hx => ?_, by rw [hmode, hlock]; exact hm.running, by rw [htask, hmode]; exact hm.task,
    by rw [hintr, hmode]; exact hm.intr⟩
  have hbusy := hm.busy x (hmode ▸ hx)
  cases x with
  | inl p => exact (congrFun htask p).trans_ne hbusy
  | inr k => exact (congrFun hintr k).trans_ne hbusy

theorem gotoIntr [DecidableEq H] {l : IntrLoc} (hk : s.mode (.inr k) = .running)
    (hmode : Woken s.mode s'.mode) (hlock : s'.lock = s.lock) (htask : s'.task = s.task)
    (hintr : s'.intr = update s.intr k (some l)) : s'.Mutex := by
  refine hm.change (x := .inr k) (fun q _ => congrFun htask q) (fun j hj => ?_) (fun y _ => hmode y)
    (fun _ _ hy => hlock.trans hy) (fun _ => ?_) (fun _ => hlock.trans (hm.running _ hk))
    fun _ => (hmode.running_iff _).2 hk
  · rw [hintr, update_of_ne fun he => hj (congrArg Sum.inr he)]
  · show s'.intr k ≠ none
    rw [hintr, update_self]
    exact some_ne_none l

variable [DecidableEq P]

theorem goto {w : Task B} (hp : s.mode (.inl p) = .running) (hmode : Woken s.mode s'.mode)
    (hlock : s'.lock = s.lock) (htask : s'.task = update s.task p (some w))
    (hintr : s'.intr = s.intr) : s'.Mutex := by
  refine hm.change (x := .inl p) (fun q hq => ?_) (fun j _ => congrFun hintr j) (fun y _ => hmode y)
    (fun _ _ hy => hlock.trans hy) (fun _ => ?_) (fun _ => hlock.trans (hm.running _ hp))
    fun _ => (hmode.running_iff _).2 hp
  · rw [htask, update_of_ne fun he => hq (congrArg Sum.inl he)]
  · show s'.task p ≠ none
    rw [htask, update_self]
    exact some_ne_none w

/-- **A thread gives the lock up**, where it may sleep or at the end of its call. -/
theorem release [DecidableEq H] {x : P ⊕ H} {m : Mode} (hx : s.mode x = .running)
    (hr : m ≠ .running) (hmode : s'.mode = update s.mode x m)
    (htask : ∀ q, .inl q ≠ x → s'.task q = s.task q)
    (hintr : ∀ j, .inr j ≠ x → s'.intr j = s.intr j) (hbusy : m ≠ .idle → s'.Busy x)
    (hin : ¬ s'.Inside x) : s'.Mutex := by
  have hself : s'.mode x = m := by rw [hmode, update_self]
  refine hm.change htask hintr (fun y hy => .inl (by rw [hmode, update_of_ne hy]))
    (fun y hy hl => ?_) (fun h => hbusy (hself ▸ h)) (fun h => absurd (hself.symm.trans h) hr)
    fun h => absurd h hin
  rw [hm.running x hx] at hl
  exact absurd (some.inj hl).symm hy

theorem sleep [DecidableEq H] (hp : s.task p = some t) (hrun : s.mode (.inl p) = .running)
    (hl : t.loc.inside = false) : (s.release (.inl p) .asleep).Mutex := by
  refine hm.release hrun (m := .asleep) (by decide) rfl (fun _ _ => rfl) (fun _ _ => rfl)
    (fun _ => ?_) ?_
  · show s.task p ≠ none
    rw [hp]
    exact some_ne_none t
  · rintro ⟨u, hu, hin⟩
    rw [show s.task p = some u from hu] at hp
    rw [some.inj hp, hl] at hin
    contradiction

theorem leave [DecidableEq H] (hrun : s.mode (.inl p) = .running) : (s.leave p).Mutex := by
  refine hm.release hrun (m := .idle) (by decide) rfl
    (fun q hq => update_of_ne (fun he => hq (congrArg Sum.inl he)) ..) (fun _ _ => rfl)
    (fun h => absurd rfl h) ?_
  rintro ⟨u, hu, -⟩
  rw [show (s.leave p).task p = none from update_self ..] at hu
  contradiction

theorem leaveIntr [DecidableEq H] (hrun : s.mode (.inr k) = .running) : (s.leaveIntr k).Mutex := by
  refine hm.release hrun (m := .idle) (by decide) rfl (fun _ _ => rfl)
    (fun j hj => update_of_ne (fun he => hj (congrArg Sum.inr he)) ..) (fun h => absurd rfl h) ?_
  rintro ⟨l, hl, -⟩
  rw [show (s.leaveIntr k).intr k = none from update_self ..] at hl
  contradiction

theorem acquire [DecidableEq H] {x : P ⊕ H} (hx : s.mode x = .acquiring) (hlock : s.lock = none) :
    (s.acquire x).Mutex := by
  refine hm.change (x := x) (fun _ _ => rfl) (fun _ _ => rfl) (fun y hy => .inl (update_of_ne hy ..))
    (fun y _ hl => ?_) (fun _ => ?_) (fun _ => rfl) fun _ => update_self ..
  · rw [hlock] at hl
    contradiction
  · have hbusy := hm.busy x (by rw [hx]; decide)
    cases x <;> exact hbusy

/-- **A thread begins to wait for the lock**, in a new call or after it has slept. -/
theorem await [DecidableEq H] {x : P ⊕ H} (hmode : s'.mode = update s.mode x .acquiring)
    (hlock : s'.lock = s.lock) (htask : ∀ q, .inl q ≠ x → s'.task q = s.task q)
    (hintr : ∀ j, .inr j ≠ x → s'.intr j = s.intr j) (hbusy : s'.Busy x) (hin : ¬ s'.Inside x) :
    s'.Mutex := by
  refine hm.change htask hintr (fun y hy => .inl (by rw [hmode, update_of_ne hy]))
    (fun _ _ hl => hlock.trans hl) (fun _ => hbusy) (fun h => ?_) fun h => absurd h hin
  rw [hmode, update_self] at h
  contradiction

end DiskState.Mutex

/-! ## Calls and their stages -/

theorem own_of_task (hp : s.task p = some t) : s.own p = t.loc.own := by
  unfold DiskState.own
  rw [hp]
  rfl

theorem update_stage_iff {o o' : Option (Stage B)} {x : Stage B} (hs : stage i = o)
    (ho : o ≠ some x) (ho' : o' ≠ some x) (j : ℕ) :
    stage j = some x ↔ update stage i o' j = some x := by
  by_cases hji : j = i
  · rw [hji, update_self, hs]
    exact iff_of_false ho ho'
  · rw [update_of_ne hji]

theorem update_stage_enter {x : Stage B} (i j : ℕ) :
    stage j = some x ∨ j = i ↔ update stage i (some x) j = some x := by
  by_cases hji : j = i
  · rw [hji, update_self]
    exact iff_of_true (.inr rfl) rfl
  · rw [update_of_ne hji]
    exact or_iff_left hji

theorem update_stage_leave {o : Option (Stage B)} {x : Stage B} (ho : o ≠ some x) (i j : ℕ) :
    stage j = some x ∧ j ≠ i ↔ update stage i o j = some x := by
  by_cases hji : j = i
  · rw [hji, update_self]
    exact iff_of_false (fun h => h.2 rfl) ho
  · rw [update_of_ne hji]
    exact and_iff_left hji

/-- What the device has of chain `i` after a request has gone to another stage. -/
theorem work_update {work : ℕ → Option (Work B)} (hwork : ∀ i, work i = (stage i).bind Stage.work)
    (o : Option (Stage B)) (i j : ℕ) :
    update work i (o.bind Stage.work) j = (update stage i o j).bind Stage.work := by
  by_cases hji : j = i
  · rw [hji, update_self, update_self]
  · rw [update_of_ne hji, update_of_ne hji, hwork]

theorem work_same {work : ℕ → Option (Work B)} (hwork : ∀ i, work i = (stage i).bind Stage.work)
    {o : Option (Stage B)} (hi : (stage i).bind Stage.work = none) (ho : o.bind Stage.work = none)
      (j : ℕ) :
    work j = (update stage i o j).bind Stage.work := by
  rw [← work_update hwork, ho, update_eq_self_iff.2]
  rw [hwork, hi]

theorem Stage.eq_of_work {x : Option (Stage B)} {w : Work B} (hw : x.bind Stage.work = some w) :
    x = some w.stage := by
  obtain ⟨y, rfl, hy⟩ := bind_eq_some_iff.1 hw
  cases y <;> cases hy <;> rfl

theorem numSize : WrapRing.Size NUM (2 ^ 16) := ⟨by decide, by decide, by decide⟩

theorem DiskState.Queues.congr (h : s.Queues stage) (hdev : s'.device = s.device)
    (havail : s'.disk.avail = s.disk.avail) (hused : s'.disk.used = s.disk.used)
    (hidx : s'.disk.usedIdx = s.disk.usedIdx) : s'.Queues stage where
  work i := by rw [hdev, h.work]
  appended i r := by rw [hdev, h.appended]
  slot i r hr := by
    rw [hused]
    exact h.slot i r (hdev ▸ hr)
  avail := by
    rw [havail, hdev]
    exact h.avail
  used := by
    rw [hused, hidx]
    exact h.used

theorem DiskState.IntrOk.congr {l : IntrLoc} (h : s.IntrOk l) (hused : s'.disk.used = s.disk.used)
    (hidx : s'.disk.usedIdx = s.disk.usedIdx) : s'.IntrOk l := by
  cases l <;> simp only [IntrOk, hused, hidx] at h ⊢ <;> exact h

theorem intr_gotoIntr [DecidableEq H] {j : H} {l l' : IntrLoc} (hj : (s.gotoIntr k l).intr j = some l') :
    j = k ∧ l = l' ∨ j ≠ k ∧ s.intr j = some l' := by
  by_cases hjk : j = k
  · rw [hjk, show (s.gotoIntr k l).intr k = some l from update_self ..] at hj
    exact .inl ⟨hjk, some.inj hj⟩
  · exact .inr ⟨hjk, (update_of_ne hjk ..).symm.trans hj⟩

namespace DiskState.Inv

variable (h : s.Inv stage)

include h

theorem ok {l : Loc} (hp : s.task p = some t) (hl : t.loc = l) :
    s.TaskOk stage { t with loc := l } := by
  subst hl
  exact h.task p t hp

/-- A descriptor of a call that has a stage is the head of a call that waits. -/
theorem stage_own (hp : s.task p = some t) (hi : i ∈ t.loc.own) (hs : stage i ≠ none) :
    ∃ c, t.loc = .wait c ∧ c.head = i ∧ (s.buf t.buf).disk = 1 := by
  obtain ⟨q, u, c, hq, hl, hhead, hdisk⟩ := h.posted i hs
  have hiq : i ∈ s.own q := by
    rw [own_of_task hq, hl, ← hhead]
    exact c.head_mem
  obtain rfl := h.pool.apart q p i hiq (by rwa [own_of_task hp])
  rw [hp] at hq
  cases hq
  exact ⟨c, hl, hhead, hdisk⟩

theorem stage_lt (hs : stage i ≠ none) : i ∈ Finset.range NUM := by
  obtain ⟨q, u, c, hq, hl, hhead, -⟩ := h.posted i hs
  refine h.pool.mem q i ?_
  rw [own_of_task hq, hl, ← hhead]
  exact c.head_mem

theorem room {x : Stage B} (hi : i ∈ Finset.range NUM) (hs : stage i ≠ some x) :
    WrapRing.Room NUM (fun j => stage j = some x) i :=
  ⟨hs, Finset.range NUM, (Finset.card_range NUM).le, hi,
    fun _ hj => h.stage_lt (hj.trans_ne (some_ne_none _))⟩

theorem used_room {x : Stage B} (hs : stage i = some x) (hx : some x ≠ some .used) :
    WrapRing.Room NUM (fun j => stage j = some .used) i :=
  h.room (h.stage_lt (hs.trans_ne (some_ne_none x))) (hs.trans_ne hx)

theorem not_mem_own (hp : s.task p = some t) (hq : s.task q = some u) (hne : q ≠ p)
    (hi : i ∈ u.loc.own) :
    i ∉ t.loc.own := fun hit =>
  hne (h.pool.apart q p i (by rwa [own_of_task hq]) (by rwa [own_of_task hp]))

theorem buf_ne (hp : s.task p = some t) (hq : s.task q = some u) (hne : q ≠ p) : u.buf ≠ t.buf :=
  fun he => hne (h.bufs q p u t hq hp he)

theorem nodup_own {l : List ℕ} (hp : s.task p = some t) (hown : t.loc.own = l) : l.Nodup := by
  rw [← hown, ← own_of_task hp]
  exact h.pool.nodup p

theorem waiting {x : Stage B} (hs : stage i = some x) :
    ∃ p t c, s.task p = some t ∧ t.loc = .wait c ∧ c.head = i ∧ (s.buf t.buf).disk = 1 ∧
      s.Filled t c ∧ s.StageOk t c x := by
  obtain ⟨p, t, c, hp, hl, rfl, hdisk⟩ := h.posted i (by rw [hs]; exact some_ne_none x)
  have hok := h.task p t hp
  unfold TaskOk at hok
  rw [hl] at hok
  obtain ⟨hf, hstage⟩ := hok
  obtain ⟨y, hy, hok⟩ := (if_pos hdisk).mp hstage
  rw [hs] at hy
  cases hy
  exact ⟨p, t, c, hp, hl, rfl, hdisk, hf, hok⟩

theorem queues_move {x y : Stage B} (hi : stage i = some x) (hx : ∀ r, x ≠ .appended r)
    (hy : ∀ r, y ≠ .appended r)
    (hxa : x ≠ .avail) (hya : y ≠ .avail) (hxu : x ≠ .used) (hyu : y ≠ .used)
    (hwork : s'.device.work = update s.device.work i y.work)
    (happ : s'.device.appended = s.device.appended) (hlast : s'.device.lastAvail = s.device.lastAvail)
    (havail : s'.disk.avail = s.disk.avail) (hused : s'.disk.used = s.disk.used)
    (hidx : s'.disk.usedIdx = s.disk.usedIdx) : s'.Queues (update stage i (some y)) := by
  have hq := h.queues
  have hstage : ∀ {z : Stage B}, x ≠ z → y ≠ z → ∀ j, stage j = some z ↔
      update stage i (some y) j = some z := fun hxz hyz =>
    update_stage_iff hi (fun he => hxz (some.inj he)) fun he => hyz (some.inj he)
  refine ⟨fun j => ?_, fun j r => ?_, fun j r hr => ?_, ?_, ?_⟩
  · rw [hwork]
    exact work_update hq.work (some y) i j
  · rw [happ, hq.appended, hstage (hx r) (hy r)]
  · rw [hused]
    exact hq.slot j r (happ ▸ hr)
  · rw [havail, hlast]
    exact hq.avail.congr (hstage hxa hya)
  · rw [hused, hidx]
    exact hq.used.congr (hstage hxu hyu)

/-- The oldest entry of the used ring is a request that is completed. -/
theorem used_first (hne : s.disk.usedIdx ≠ s.disk.used.idx) :
    stage (s.disk.used.ring (s.disk.usedIdx.toNat % NUM)) = some .used :=
  (h.queues.used.pop numSize (UInt16.toNat_lt _) fun he => hne (UInt16.toNat_inj.1 he)).1

section

variable (hp : s.task p = some t) (hi : i ∈ t.loc.own)
  (hl : ∀ c, t.loc = .wait c → (s.buf t.buf).disk ≠ 1)

include hp hi hl

/-- Nothing has a stage that belongs to a call before it is made available. -/
theorem stage_eq_none : stage i = none := by
  by_contra hs
  obtain ⟨c, hc, -, hdisk⟩ := h.stage_own hp hi hs
  exact hl c hc hdisk

theorem avail_room : stage i = none ∧ WrapRing.Room NUM (fun j => stage j = some .avail) i := by
  have hnone := h.stage_eq_none hp hi hl
  exact ⟨hnone, h.room (h.pool.mem p _ (by rwa [own_of_task hp])) (by rw [hnone]; nofun)⟩

end

theorem inFlight (hp : s.task p = some t) (hl : t.loc.inFlight = some c) :
    t.loc.own = c.list ∧ s.Filled t c := by
  have hok := h.task p t hp
  unfold TaskOk at hok
  cases hloc : t.loc with
  | ring d | bump d | wait d | clear d =>
    rw [hloc] at hok hl
    cases hl
    exact ⟨rfl, hok.1⟩
  | alloc | format d | freeChain d i | release =>
    rw [hloc] at hl
    contradiction

section

variable (htask : s'.task = s.task) (hmutex : s'.Mutex)

include htask hmutex

/-- **A step that no call depends on.** -/
theorem same (hfree : s'.disk.free = s.disk.free) (hother : ∀ q u, s.task q = some u →
      Agree s s' stage stage u) (hqueues : s'.Queues stage)
    (hintr : ∀ h l, s'.intr h = some l → s'.IntrOk l) (hdone : s'.device.done = s.device.done)
    (hstarted : s'.started = s.started) : s'.Inv stage := by
  have hown : s'.own = s.own := by
    unfold DiskState.own
    rw [htask]
  refine ⟨hmutex, by rw [hfree, hown]; exact h.pool, by rw [htask]; exact h.bufs, fun q u hq => ?_,
    fun i hi => ?_, hqueues, hintr, by rw [htask, hdone, hstarted]; exact h.rest⟩
  · rw [htask] at hq
    exact (hother q u hq).taskOk (h.task q u hq)
  · obtain ⟨q, u, c, hq, hl, hhead, hdisk⟩ := h.posted i hi
    refine ⟨q, u, c, by rw [htask, hq], hl, hhead, ?_⟩
    rw [(hother q u hq).buf]
    exact hdisk

theorem control (hdisk : s'.disk = s.disk) (hbuf : s'.buf = s.buf)
    (hdev : s'.device = s.device) (hstarted : s'.started = s.started)
    (hintr : ∀ h l, s'.intr h = some l → s'.IntrOk l) : s'.Inv stage :=
  h.same htask hmutex (by rw [hdisk]) (fun _ u _ => .of_eq hdisk hbuf hdev hstarted u)
    (h.queues.congr hdev (by rw [hdisk]) (by rw [hdisk]) (by rw [hdisk])) hintr
      (by rw [hdev]) hstarted

end

theorem gotoIntr [DecidableEq H] {l : IntrLoc} (hrun : s.mode (.inr k) = .running) (hok : s.IntrOk l) :
    (s.gotoIntr k l).Inv stage := by
  refine h.control rfl (h.mutex.gotoIntr hrun (fun _ => .inl rfl) rfl rfl rfl) rfl rfl rfl rfl
    fun j l' hj => ?_
  rcases intr_gotoIntr hj with ⟨-, rfl⟩ | ⟨-, hj⟩
  · exact hok.congr rfl rfl
  · exact (h.intr j l' hj).congr rfl rfl

end DiskState.Inv

theorem DiskState.Filled.descs (hf : s.Filled t c) (hn : c.list.Nodup) :
    s.disk.desc c.head = headDesc c ∧
    s.disk.desc c.data = dataDesc c t ∧ s.disk.desc c.status = statusDesc c := by
  have h0 := hf.desc c.head (by simp [Chain.list])
  have h1 := hf.desc c.data (by simp [Chain.list])
  have h2 := hf.desc c.status (by simp [Chain.list])
  simp only [Chain.list, nodup_cons, mem_cons, not_mem_nil, or_false, not_or] at hn
  obtain ⟨⟨hxy, hxz⟩, hyz, -⟩ := hn
  rw [Chain.desc, if_pos rfl] at h0
  rw [Chain.desc, if_neg (Ne.symm hxy), if_pos rfl] at h1
  rw [Chain.desc, if_neg (Ne.symm hxz), if_neg (Ne.symm hyz)] at h2
  exact ⟨h0, h1, h2⟩

/-- **The device understands a chain that is filled in.** -/
theorem findChain_filled (hf : s.Filled t c) (hn : c.list.Nodup) :
    findChain s.disk c.head = some ⟨header t.write (s.buf t.buf), t.buf, BSIZE, c.head⟩ := by
  obtain ⟨h0, h1, h2⟩ := hf.descs hn
  unfold findChain
  simp only [h0, headDesc, h1, dataDesc, h2, statusDesc, hf.op]
  cases t.write <;> simp [header]

/-- The state after a transfer to or from the buffer of a call. -/
def DiskState.transferTo [DecidableEq B] (s : DiskState P H B) (t : Task B) (medium data : ℕ →
    UInt8) :
    DiskState P H B :=
  { s.setBuf t.buf { s.buf t.buf with data := data } with medium := medium }

/-- **The transfer is the one that the call asks for.** -/
theorem transfer_spec [DecidableEq B] (s : DiskState P H B) (t : Task B) (m : ℕ) : ∃ medium data,
    transfer s ⟨header t.write (s.buf t.buf), t.buf, BSIZE, m⟩ =
      ((s.transferTo t medium data).request t, s.transferTo t medium data) := by
  have hrequest : ∀ medium data, (s.transferTo t medium data).request t =
      ⟨t.buf, t.write, (s.buf t.buf).sector, BSIZE, data⟩ := fun medium data => by
    unfold DiskState.request
    rw [show (s.transferTo t medium data).buf t.buf = { s.buf t.buf with data := data } from
      update_self ..]
    rfl
  cases hw : t.write with
  | true =>
    refine ⟨writeSectors (s.buf t.buf).data (s.buf t.buf).sector BSIZE s.medium, (s.buf t.buf).data,
      ?_⟩
    have hsame : s.setBuf t.buf { s.buf t.buf with data := (s.buf t.buf).data } = s := by
      unfold DiskState.setBuf
      rw [update_eq_self]
    rw [hrequest, hw, transferTo, hsame]
    rfl
  | false =>
    refine ⟨s.medium, readSectors s.medium (s.buf t.buf).sector BSIZE (s.buf t.buf).data, ?_⟩
    rw [hrequest, hw]
    rfl

theorem inv_init (buf : B → DiskBuf) (medium : ℕ → UInt8) :
    (init buf medium : DiskState P H B).Inv fun _ => none := by
  refine ⟨⟨fun _ hx => absurd rfl hx, fun _ hx => ?_, fun _ _ hp => ?_, fun _ _ hk => ?_⟩,
    ⟨fun _ => nodup_nil, fun _ _ hi => absurd hi not_mem_nil,
      fun _ _ _ hi => absurd hi not_mem_nil, fun i hi => ?_⟩,
    fun _ _ _ _ hp => ?_, fun _ _ hp => ?_, fun _ hi => absurd rfl hi,
    ⟨fun _ => rfl, fun _ _ => ?_, fun _ _ hr => ?_, ?_, ?_⟩, fun _ _ hk => ?_, fun _ _ => rfl⟩
  any_goals contradiction
  · refine iff_of_false ?_ fun ⟨_, hp⟩ => not_mem_nil hp
    rw [show (init buf medium : DiskState P H B).disk.free i = decide (i < NUM) from rfl,
      decide_eq_true (Finset.mem_range.1 hi)]
    decide
  · exact iff_of_false nofun nofun
  · exact WrapRing.lists_nil _ _ (UInt16.toNat_lt _) fun _ => by rintro ⟨⟩
  · exact WrapRing.lists_nil _ _ (UInt16.toNat_lt _) fun _ => by rintro ⟨⟩

/-! ## What a step keeps -/

/-- The entries of the avail ring that the device has not taken. -/
def DiskState.untaken (s : DiskState P H B) : ℕ := (s.disk.avail.idx - s.device.lastAvail).toNat

/-- The place of the `k`-th of these entries. -/
def DiskState.place (s : DiskState P H B) (k : ℕ) : ℕ := (s.device.lastAvail.toNat + k) % NUM

/-- **What a step keeps**: the invariant, and the entries of the avail ring that the device has not
taken. A call returns after its request has been completed. -/
structure Safe (s s' : DiskState P H B) : Prop where
  inv : ∃ stage, s'.Inv stage
  untaken : ∀ k < s.untaken, s'.disk.avail.ring (s.place k) = s.disk.avail.ring (s.place k)
  served : ∀ p t, s.task p = some t → s'.task p = none → s.Served t

/-- No call returns, and nothing is stored in the avail ring. -/
theorem Safe.of_inv (h : ∃ stage, s'.Inv stage) (htask : ∀ p, s.task p ≠ none → s'.task p ≠ none)
    (hring : s'.disk.avail.ring = s.disk.avail.ring) : Safe s s' :=
  ⟨h, fun _ _ => by rw [hring],
    fun p t hp hret => absurd hret (htask p (hp.trans_ne (some_ne_none t)))⟩

/-- The event, if it can happen, is safe and no error. -/
def Fine (s : DiskState P H B) (r : Option (Except DiskError (DiskState P H B))) : Prop :=
  match r with
  | none => True
  | some (.ok s') => Safe s s'
  | some (.error _) => False

theorem fine_exec {m : DiskM P H B Unit} (hm : Wp m (fun _ => Safe s) (fun _ => False) s) :
    Fine s (some (exec m s)) := by
  obtain ⟨a, t, hrun, ht⟩ := hm.exists_run
  unfold exec
  rw [hrun]
  exact ht

variable [DecidableEq P]

theorem woken_wakeup [DecidableEq B] (ch : Chan B) : Woken s.mode (s.wakeup ch).mode := by
  rintro (p | h)
  · show (if _ then _ else _) = _ ∨ _
    split_ifs with hw
    · exact .inr ⟨hw.1, if_pos hw⟩
    · exact .inl rfl
  · exact .inl rfl

/-! ## One call goes on -/

theorem own_update {o : Option (Task B)} (htask : s'.task = update s.task p o) :
    s'.own = update s.own p (o.elim [] fun w => w.loc.own) := by
  funext q
  unfold DiskState.own
  rw [htask]
  by_cases hqp : q = p
  · rw [hqp, update_self, update_self]
  · rw [update_of_ne hqp, update_of_ne hqp]

/-- **A step of one process**, which may begin or end its call. What holds of the other calls is not
concerned. -/
theorem DiskState.Inv.change {o : Option (Task B)} (h : s.Inv stage)
    (htask : s'.task = update s.task p o) (hmutex : s'.Mutex)
    (hpool : Pool (Finset.range NUM) s'.disk.free (update s.own p (o.elim [] fun w => w.loc.own)))
    (hbuf : ∀ w, o = some w → ∀ q u, q ≠ p → s.task q = some u → u.buf ≠ w.buf)
    (hok : ∀ w, o = some w → s'.TaskOk stage' w)
    (hother : ∀ q u, q ≠ p → s.task q = some u → Agree s s' stage stage' u)
    (hposted : ∀ i, stage' i ≠ none →
      (∃ w c, o = some w ∧ w.loc = .wait c ∧ c.head = i ∧ (s'.buf w.buf).disk = 1) ∨
      stage i ≠ none ∧ ∀ t c, s.task p = some t → t.loc = .wait c → c.head = i →
        (s.buf t.buf).disk ≠ 1)
    (hqueues : s'.Queues stage') (hintr : ∀ h l, s'.intr h = some l → s'.IntrOk l)
    (hrest : ∀ b, (∀ w, o = some w → w.buf ≠ b) → (∀ q u, q ≠ p → s.task q = some u → u.buf ≠ b) →
      (s'.device.done b).length = s'.started b) :
    s'.Inv stage' := by
  have hself : s'.task p = o := by rw [htask, update_self]
  have hne : ∀ {q}, q ≠ p → s'.task q = s.task q := fun hq => by rw [htask, update_of_ne hq]
  refine ⟨hmutex, own_update htask ▸ hpool, fun q r u v hq hr he => ?_, fun q u hq => ?_,
    fun i hi => ?_, hqueues, hintr, fun b hb => ?_⟩
  · by_cases hqp : q = p <;> by_cases hrp : r = p
    · rw [hqp, hrp]
    · rw [hqp, hself] at hq
      exact absurd he.symm (hbuf u hq r v hrp (hne hrp ▸ hr))
    · rw [hrp, hself] at hr
      exact absurd he (hbuf v hr q u hqp (hne hqp ▸ hq))
    · exact h.bufs q r u v (hne hqp ▸ hq) (hne hrp ▸ hr) he
  · by_cases hqp : q = p
    · rw [hqp, hself] at hq
      exact hok u hq
    · rw [hne hqp] at hq
      exact (hother q u hqp hq).taskOk (h.task q u hq)
  · rcases hposted i hi with ⟨w, c, hw, hc⟩ | ⟨hi, hp⟩
    · exact ⟨p, w, c, hself.trans hw, hc⟩
    · obtain ⟨q, u, c, hq, hl, hhead, hdisk⟩ := h.posted i hi
      have hqp : q ≠ p := by
        rintro rfl
        exact hp u c hq hl hhead hdisk
      refine ⟨q, u, c, (hne hqp).trans hq, hl, hhead, ?_⟩
      rw [(hother q u hqp hq).buf]
      exact hdisk
  · exact hrest b (fun w hw => hb p w (hself.trans hw)) fun q u hqp hq => hb q u ((hne hqp).trans hq)

theorem DiskState.Inv.step {w : Task B} (h : s.Inv stage) (hp : s.task p = some t)
    (htask : s'.task = update s.task p (some w)) (hbuf : w.buf = t.buf) (hmutex : s'.Mutex)
    (hpool : Pool (Finset.range NUM) s'.disk.free (update s.own p w.loc.own))
    (hok : s'.TaskOk stage' w)
    (hother : ∀ q u, q ≠ p → s.task q = some u → Agree s s' stage stage' u)
    (hposted : ∀ i, stage' i ≠ none →
      (∃ c, w.loc = .wait c ∧ c.head = i ∧ (s'.buf w.buf).disk = 1) ∨
      stage i ≠ none ∧ ∀ c, t.loc = .wait c → c.head = i → (s.buf t.buf).disk ≠ 1)
    (hqueues : s'.Queues stage') (hintr : ∀ h l, s'.intr h = some l → s'.IntrOk l)
    (hrest : ∀ b, b ≠ t.buf → s'.device.done b = s.device.done b ∧ s'.started b = s.started b) :
    s'.Inv stage' := by
  refine h.change htask hmutex hpool (fun v hv q u hqp hq he => ?_) (fun v hv => ?_) hother
    (fun i hi => (hposted i hi).imp ?_ (And.imp_right ?_)) hqueues hintr fun b hb hq => ?_
  · cases hv
    exact hqp (h.bufs q p u t hq hp (he.trans hbuf))
  · cases hv
    exact hok
  · rintro ⟨c, hc⟩
    exact ⟨w, c, rfl, hc⟩
  · intro hi u c hu
    cases hp.symm.trans hu
    exact hi c
  · have hbt : b ≠ t.buf := fun he => hb w rfl (hbuf.trans he.symm)
    rw [(hrest b hbt).1, (hrest b hbt).2]
    refine h.rest b fun q u hu => ?_
    by_cases hqp : q = p
    · rw [hqp, hp] at hu
      cases hu
      exact Ne.symm hbt
    · exact hq q u hqp hu

/-! ## Allocating descriptors -/

section

/-- The state while the descriptors of `l` are allocated. -/
def taking (s : DiskState P H B) (l : List ℕ) : DiskState P H B :=
  s.setDisk { s.disk with free := fun i => if i ∈ l then false else s.disk.free i }

/-- **Nothing has been allocated.** Sleepers may have been woken, and free descriptors cleared. -/
def Untouched (s t : DiskState P H B) : Prop :=
  ∃ desc mode, t = { s with mode := mode, disk := { s.disk with desc := desc } } ∧
    (∀ i, s.disk.free i = false → desc i = s.disk.desc i) ∧
    Woken s.mode mode

omit [DecidableEq P] in
theorem allocDesc_wp (s : DiskState P H B) (l : List ℕ) : Wp allocDesc (fun r t => match r with
      | some i => i < NUM ∧ s.disk.free i = true ∧ i ∉ l ∧ t = taking s (l ++ [i])
      | none => t = taking s l) (fun _ => False) (taking s l) := by
  refine Wp.get_bind ?_
  cases hf : (range NUM).find? (taking s l).disk.free with
  | none => exact Wp.pure rfl
  | some i =>
    have hlt := mem_range.1 (mem_of_find?_eq_some hf)
    have hfree : (taking s l).disk.free i = true := find?_some hf
    change (if i ∈ l then false else s.disk.free i) = true at hfree
    split_ifs at hfree with hil
    have hupdate : update (taking s l).disk.free i false =
        fun j => if j ∈ l ++ [i] then false else s.disk.free j := by
      funext j
      show update (fun j => if j ∈ l then false else s.disk.free j) i false j = _
      by_cases hji : j = i <;> simp [hji]
    refine Wp.set_bind (Wp.pure ⟨hlt, hfree, hil, ?_⟩)
    rw [hupdate]
    rfl

variable [DecidableEq B]

theorem freeDesc_wp (hi : i < NUM) (hfree : s.disk.free i = false) :
    Wp (freeDesc i) (fun _ t => t = markFree s i) (fun _ => False) s := by
  refine Wp.ite (fun hge => absurd hge (by omega)) fun _ => Wp.get_bind
    (Wp.ite (fun hf => ?_) fun _ => ?_)
  · rw [hfree] at hf
    contradiction
  · exact Wp.set rfl

theorem markFree_taking (s : DiskState P H B) {l : List ℕ} (hil : i ∉ l) (hfree : s.disk.free i =
    true) :
    markFree (taking s (i :: l)) i = taking ((s.setDisk { s.disk with
      desc := update s.disk.desc i ⟨.null, 0, 0, 0⟩ }).wakeup .free) l := by
  have hupdate : update (taking s (i :: l)).disk.free i true =
      fun j => if j ∈ l then false else s.disk.free j := by
    funext j
    show update (fun j => if j ∈ i :: l then false else s.disk.free j) i true j = _
    by_cases hji : j = i <;> simp [hji, hil, hfree]
  unfold markFree
  rw [hupdate]
  rfl

/-- The rollback of `alloc3_desc`: those that are left are still allocated. -/
theorem freeAll_wp (s : DiskState P H B) {l : List ℕ} (hn : l.Nodup)
    (hl : ∀ i ∈ l, i < NUM ∧ s.disk.free i = true) :
    Wp (l.forM freeDesc) (fun _ => Untouched s) (fun _ => False) (taking s l) := by
  have hloop : Wp (l.forM freeDesc) (fun _ t =>
      (([] : List ℕ).Nodup ∧ ∀ i ∈ ([] : List ℕ), i < NUM ∧ s.disk.free i = true) ∧
        ∃ u, Untouched s u ∧ t = taking u []) (fun _ => False) (taking s l) := by
    refine Wp.forM (I := fun l t => (l.Nodup ∧ ∀ i ∈ l, i < NUM ∧ s.disk.free i = true) ∧
      ∃ u, Untouched s u ∧ t = taking u l) (fun i l t ht => ?_) l
      ⟨⟨hn, hl⟩, s, ⟨s.disk.desc, s.mode, rfl, fun _ _ => rfl, fun _ => .inl rfl⟩, rfl⟩
    obtain ⟨⟨hn, hl⟩, u, hu, rfl⟩ := ht
    obtain ⟨hi, hfree⟩ := hl i mem_cons_self
    obtain ⟨hil, hn⟩ := nodup_cons.mp hn
    have hfreeu : u.disk.free = s.disk.free := by
      obtain ⟨desc, mode, rfl, -⟩ := hu
      rfl
    refine (freeDesc_wp hi (if_pos mem_cons_self)).mono fun _ t ht => ?_
    refine ⟨⟨hn, fun j hj => hl j (mem_cons_of_mem i hj)⟩, _, ?_,
      ht.trans (markFree_taking u hil (by rw [hfreeu, hfree]))⟩
    have hmode := woken_wakeup (s := u.setDisk { u.disk with
      desc := update u.disk.desc i ⟨.null, 0, 0, 0⟩ }) .free
    obtain ⟨desc, mode, rfl, hdesc, hmode0⟩ := hu
    refine ⟨_, _, rfl, fun j hj => ?_, hmode0.trans hmode⟩
    refine (update_of_ne ?_ ..).trans (hdesc j hj)
    rintro rfl
    rw [hfree] at hj
    contradiction
  refine hloop.mono fun _ t ht => ?_
  obtain ⟨-, u, hu, rfl⟩ := ht
  simpa [taking, DiskState.setDisk] using hu

theorem alloc3Loop_wp (s : DiskState P H B) (n : ℕ) (l : List ℕ) (hn : l.Nodup)
    (hl : ∀ i ∈ l, i < NUM ∧ s.disk.free i = true) :
    Wp (alloc3Loop n l) (fun r t => match r with
      | some m => m.length = l.length + n ∧ m.Nodup ∧ (∀ i ∈ m, i < NUM ∧ s.disk.free i = true) ∧
          t = taking s m
      | none => Untouched s t) (fun _ => False) (taking s l) := by
  induction n generalizing l with
  | zero => exact Wp.pure ⟨rfl, hn, hl, rfl⟩
  | succ n ih =>
    refine (allocDesc_wp s l).bind fun r t ht => ?_
    cases r with
    | none =>
      obtain rfl : t = taking s l := ht
      exact (freeAll_wp s hn hl).bind fun _ t ht => Wp.pure ht
    | some i =>
      obtain ⟨hi, hfree, hil, rfl⟩ := ht
      have hn' : (l ++ [i]).Nodup :=
        hn.append (nodup_singleton i) (disjoint_singleton.mpr hil)
      refine (ih (l ++ [i]) hn' fun j hj => ?_).mono fun r t ht => ?_
      · rcases mem_append.mp hj with hj | hj
        · exact hl j hj
        · rw [mem_singleton.mp hj]
          exact ⟨hi, hfree⟩
      · cases r with
        | none => exact ht
        | some m =>
          refine ⟨?_, ht.2⟩
          rw [ht.1, length_append, length_singleton]
          omega

/-- **`alloc3_desc` gives three free descriptors, or changes nothing.** -/
theorem alloc3Desc_wp (s : DiskState P H B) : Wp alloc3Desc (fun r t => match r with
      | some c => c.list.Nodup ∧ (∀ i ∈ c.list, i < NUM ∧ s.disk.free i = true) ∧ t = taking s c.list
      | none => Untouched s t) (fun _ => False) s := by
  have hstart : taking s [] = s := by simp [taking, DiskState.setDisk]
  have hloop := alloc3Loop_wp s 3 [] nodup_nil fun i hi => absurd hi not_mem_nil
  rw [hstart] at hloop
  refine hloop.bind fun r t ht => ?_
  match r, ht with
  | none, ht => exact Wp.pure ht
  | some [i, j, k], ht => exact Wp.pure ⟨ht.2.1, ht.2.2.1, ht.2.2.2⟩
  | some [], ht => exact absurd ht.1 (by simp)
  | some [_], ht => exact absurd ht.1 (by simp)
  | some [_, _], ht => exact absurd ht.1 (by simp)
  | some (_ :: _ :: _ :: _ :: _), ht => exact absurd ht.1 (by simp)

end

/-! ## Steps of `virtio_disk_rw` -/

namespace DiskState.Inv

variable (h : s.Inv stage)

include h

theorem pool_same {l : List ℕ} (hp : s.task p = some t) (hl : l = t.loc.own) :
    Pool (Finset.range NUM) s.disk.free (update s.own p l) := by
  have hsame : update s.own p l = s.own :=
    update_eq_self_iff.2 (hl.trans (own_of_task hp).symm)
  rw [hsame]
  exact h.pool

/-- The process sleeps: descriptors could not be allocated, or the device is not ready. -/
theorem asleep [DecidableEq H] (hp : s.task p = some t) (hrun : s.mode (.inl p) = .running) (hl : t.loc.inside =
    false)
    (hs' : Untouched s s') : (s'.release (.inl p) .asleep).Inv stage := by
  obtain ⟨desc, mode, rfl, hdesc, hmode⟩ := hs'
  have hm : ({ s with mode := mode, disk := { s.disk with desc := desc } } : DiskState P H
    B).Mutex := by
    refine h.mutex.goto (p := p) (w := t) hrun hmode rfl ?_ rfl
    exact (update_eq_self_iff.2 hp.symm).symm
  refine h.same rfl (hm.sleep hp ((hmode.running_iff _).2 hrun) hl)
    rfl (fun q u hq => ⟨fun i hi => ?_, fun _ _ => rfl, fun _ _ => rfl, fun _ _ => rfl, rfl, rfl, rfl,
      fun _ => rfl⟩)
    (h.queues.congr rfl rfl rfl rfl) (fun k l hk => (h.intr k l hk).congr rfl rfl) rfl rfl
  exact hdesc i (h.pool.not_free (by rwa [own_of_task hq]))

variable (hp : s.task p = some t) (hrun : s.mode (.inl p) = .running)

include hp hrun

/-- **A call goes on to `l`**, and neither the rings nor the device are concerned. -/
theorem onward {v : DiskState P H B} {l : Loc} {mode buf free desc ops info} (hv : v = { s with
      mode := mode, buf := buf, disk := { s.disk with
        free := free, desc := desc, ops := ops, info := info } }) (hmode : Woken s.mode mode)
    (hpool : Pool (Finset.range NUM) free (update s.own p l.own))
    (hok : (v.goto p t l).TaskOk stage { t with loc := l })
    (hother : ∀ q u, q ≠ p → s.task q = some u → Agree s (v.goto p t l) stage stage u)
    (hl : ∀ c, t.loc = .wait c → (s.buf t.buf).disk ≠ 1) : (v.goto p t l).Inv stage := by
  subst hv
  exact h.step hp rfl rfl (h.mutex.goto hrun hmode rfl rfl rfl) hpool hok hother
    (fun _ hi => .inr ⟨hi, fun c hc _ => hl c hc⟩) (h.queues.congr rfl rfl rfl rfl)
    (fun k l hk => (h.intr k l hk).congr rfl rfl) fun _ _ => ⟨rfl, rfl⟩

theorem allocated (hl : t.loc = .alloc) (hn : c.list.Nodup)
    (hfree : ∀ i ∈ c.list, i < NUM ∧ s.disk.free i = true) :
    ((taking s c.list).goto p t (.format c)).Inv stage := by
  refine h.onward hp hrun rfl (fun _ => .inl rfl) ?_ (h.ok hp hl)
    (fun q u _ _ => ⟨fun _ _ => rfl, fun _ _ => rfl, fun _ _ => rfl, fun _ _ => rfl, rfl, rfl, rfl,
      fun _ => rfl⟩)
    fun c hc => by rw [hl] at hc; contradiction
  refine h.pool.take ?_ hn fun i hi => ⟨Finset.mem_range.2 (hfree i hi).1, (hfree i hi).2⟩
  rw [own_of_task hp, hl]
  rfl

/-- **The descriptors are filled in.** -/
theorem filled [DecidableEq B] (hl : t.loc = .format c) :
    ((fill s t c).goto p t (.ring c)).Inv stage := by
  have hown : t.loc.own = c.list := by rw [hl]; rfl
  have hn := h.nodup_own hp hown
  have hok := h.ok hp hl
  have hbuf : (fill s t c).buf t.buf = { s.buf t.buf with disk := 1 } := update_self ..
  refine h.onward hp hrun rfl (fun _ => .inl rfl) ?_ ⟨⟨fun i hi => ?_, ?_, ?_⟩, ?_, hok⟩
    (fun q u hne hq => ?_)
    fun c hc => by rw [hl] at hc; contradiction
  · exact h.pool_same hp hown.symm
  · show update (update (update s.disk.desc c.head (headDesc c)) c.data
      (dataDesc c t)) c.status (statusDesc c) i = c.desc t i
    unfold Chain.desc
    simp only [Chain.list, nodup_cons, mem_cons, not_mem_nil, or_false, not_or] at hn hi
    obtain ⟨⟨h1, h2⟩, h3, -⟩ := hn
    rcases hi with rfl | rfl | rfl
    · rw [update_of_ne h2, update_of_ne h1, update_self, if_pos rfl]
    · rw [update_of_ne h3, update_self, if_neg (Ne.symm h1), if_pos rfl]
    · rw [update_self, if_neg (Ne.symm h2), if_neg (Ne.symm h3)]
  · show update s.disk.ops c.head _ c.head = header t.write ((fill s t c).buf t.buf)
    rw [update_self, hbuf]
    rfl
  · simp [fill, DiskState.setDisk, DiskState.goto]
  · show ((fill s t c).buf t.buf).disk = 1
    rw [hbuf]
  · have hnot : ∀ i ∈ u.loc.own, i ∉ c.list := fun i hi => hown ▸ h.not_mem_own hp hq hne hi
    have hhead : ∀ i ∈ u.loc.own, i ≠ c.head := fun i hi he => hnot i hi (he ▸ c.head_mem)
    refine ⟨fun i hi => ?_, fun i hi => update_of_ne (hhead i hi) .., fun i hi => ?_,
      fun _ _ => rfl, update_of_ne (h.buf_ne hp hq hne) .., rfl, rfl, fun _ => rfl⟩
    · have hi := hnot i hi
      simp only [Chain.list, mem_cons, not_mem_nil, or_false, not_or] at hi
      show update (update (update s.disk.desc c.head _) c.data _) c.status _ i = _
      rw [update_of_ne hi.2.2, update_of_ne hi.2.1, update_of_ne hi.1]
    · show update (update s.disk.info c.head _) c.head _ i = _
      rw [update_of_ne (hhead i hi), update_of_ne (hhead i hi)]

/-- **The head is stored in the avail ring**, and does not overwrite anything there. -/
theorem ringed (hl : t.loc = .ring c) : ((storeHead s c).goto p t (.bump c)).Inv stage := by
  have hown : t.loc.own = c.list := by rw [hl]; rfl
  obtain ⟨hf, hdisk, hawait⟩ := h.ok hp hl
  have hroom := h.avail_room hp (hown ▸ c.head_mem) fun c' hc => by rw [hl] at hc; contradiction
  refine h.step hp (w := { t with loc := .bump c }) rfl rfl
    (h.mutex.goto hrun (fun _ => .inl rfl) rfl rfl rfl) ?_
    ⟨⟨hf.desc, hf.op, hf.buf⟩, hdisk, hawait, update_self ..⟩
    (fun q u hne hq => ⟨fun _ _ => rfl, fun _ _ => rfl, fun _ _ => rfl, fun _ _ => rfl, rfl, rfl, rfl,
      fun hin => ?_⟩)
    (fun i hi => .inr ⟨hi, fun c hc _ => by rw [hl] at hc; contradiction⟩)
    ⟨h.queues.work, h.queues.appended, h.queues.slot, ?_, h.queues.used⟩
    (fun k l hk => (h.intr k l hk).congr rfl rfl) fun _ _ => ⟨rfl, rfl⟩
  · exact h.pool_same hp hown.symm
  · rw [h.mutex.not_inside hrun hq hne] at hin
    contradiction
  · exact h.queues.avail.store hroom.2 numSize _

/-- **The request is made available.** -/
theorem bumped (hl : t.loc = .bump c) :
    ((bumpAvail s).goto p t (.wait c)).Inv (update stage c.head (some .avail)) := by
  have hown : t.loc.own = c.list := by rw [hl]; rfl
  obtain ⟨hf, hdisk, hawait, hslot⟩ := h.ok hp hl
  have hmem : c.head ∈ t.loc.own := hown ▸ c.head_mem
  obtain ⟨hnone, hroom⟩ := h.avail_room hp hmem fun c' hc => by rw [hl] at hc; contradiction
  have hq := h.queues
  refine h.step hp (w := { t with loc := .wait c }) rfl rfl
    (h.mutex.goto hrun (fun _ => .inl rfl) rfl rfl rfl) ?_
    ⟨⟨hf.desc, hf.op, hf.buf⟩, ?_⟩ (fun q u hne hq => ?_) (fun i hi => ?_)
    ⟨fun i => ?_, fun i r => ?_, hq.slot, ?_, ?_⟩
    (fun k l hk => (h.intr k l hk).congr rfl rfl) fun _ _ => ⟨rfl, rfl⟩
  · exact h.pool_same hp hown.symm
  · refine (if_pos hdisk).mpr ⟨.avail, update_self .., hawait⟩
  · refine ⟨fun _ _ => rfl, fun _ _ => rfl, fun _ _ => rfl, fun i hi => update_of_ne ?_ ..,
      rfl, rfl, rfl, fun hin => ?_⟩
    · rintro rfl
      exact h.not_mem_own hp hq hne hi hmem
    · rw [h.mutex.not_inside hrun hq hne] at hin
      contradiction
  · by_cases hic : i = c.head
    · exact .inl ⟨c, rfl, hic.symm, hdisk⟩
    · rw [update_of_ne hic] at hi
      exact .inr ⟨hi, fun c hc _ => by rw [hl] at hc; contradiction⟩
  · refine (hq.work i).trans ?_
    by_cases hic : i = c.head
    · rw [hic, update_self, hnone]
      rfl
    · rw [update_of_ne hic]
  · exact (hq.appended i r).trans (update_stage_iff hnone (by nofun) (by nofun) i)
  · show WrapRing.Lists s.disk.avail.ring NUM (2 ^ 16) s.device.lastAvail.toNat
      (s.disk.avail.idx + 1).toNat _
    rw [UInt16.toNat_add, UInt16.toNat_one]
    exact (hq.avail.push hroom numSize hslot).congr (update_stage_enter c.head)
  · exact hq.used.congr (update_stage_iff hnone (by nofun) (by nofun))

/-- **The loop ends**: the device has completed the request. -/
theorem ended (hl : t.loc = .wait c) (hdisk : (s.buf t.buf).disk ≠ 1) :
    (s.goto p t (.clear c)).Inv stage := by
  obtain ⟨hf, hserved⟩ := h.ok hp hl
  rw [if_neg hdisk] at hserved
  exact h.onward hp hrun rfl (fun _ => .inl rfl) (h.pool_same hp (by rw [hl]; rfl))
    ⟨⟨hf.desc, hf.op, hf.buf⟩, hserved⟩ (fun _ u _ _ =>
      show Agree s (s.goto p t (.clear c)) _ _ u by apply Agree.of_eq <;> rfl)
    fun _ _ => hdisk

theorem cleared (hl : t.loc = .clear c) :
    ((clearInfo s c).goto p t (.freeChain c c.head)).Inv stage := by
  have hown : t.loc.own = c.list := by rw [hl]; rfl
  have hall : (Loc.freeChain c c.head).own = c.list := by simp [Loc.own, Chain.list]
  have hn := h.nodup_own hp hown
  obtain ⟨hf, hserved⟩ := h.ok hp hl
  refine h.onward hp hrun rfl (fun _ => .inl rfl) (h.pool_same hp (hall.trans hown.symm))
    ⟨hn, c.head_mem, fun j hj => hf.desc j (hall ▸ hj), hserved⟩
    (fun q u hne hq => ⟨fun _ _ => rfl, fun _ _ => rfl, fun i hi => update_of_ne ?_ ..,
      fun _ _ => rfl, rfl, rfl, rfl, fun _ => rfl⟩)
    fun c hc => by rw [hl] at hc; contradiction
  rintro rfl
  exact h.not_mem_own hp hq hne hi (hown ▸ c.head_mem)

/-- **A descriptor is freed**, and the call goes on to the rest of its chain. -/
theorem freed [DecidableEq B] {l : Loc} (hl : t.loc = .freeChain c i)
    (hown : (Loc.freeChain c i).own = i :: l.own)
    (hnext : l = .release ∨ ∃ j ∈ c.list, l = .freeChain c j) :
    ((markFree s i).goto p t l).Inv stage := by
  have hmem : i ∈ t.loc.own := by
    rw [hl, hown]
    exact mem_cons_self
  have hsub : ∀ j ∈ l.own, j ∈ t.loc.own ∧ j ≠ i := fun j hj => by
    have hn := h.nodup_own hp (by rw [hl, hown])
    rw [hl, hown]
    exact ⟨mem_cons_of_mem i hj, fun he => (nodup_cons.mp hn).1 (he ▸ hj)⟩
  obtain ⟨hn, -, hdesc, hserved⟩ := h.ok hp hl
  refine h.onward hp hrun rfl (woken_wakeup (s := s.setDisk _) .free) ?_ ?_ (fun q u hne hq => ?_)
    fun c hc => by rw [hl] at hc; contradiction
  · exact h.pool.drop (by rw [own_of_task hp, hl, hown])
  · rcases hnext with rfl | ⟨j, hj, rfl⟩
    · exact hserved
    · refine ⟨hn, hj, fun k hk => ?_, hserved⟩
      obtain ⟨hk, hki⟩ := hsub k hk
      rw [hl] at hk
      exact (update_of_ne hki ..).trans (hdesc k hk)
  · refine ⟨fun j hj => update_of_ne ?_ .., fun _ _ => rfl, fun _ _ => rfl, fun _ _ => rfl, rfl,
      rfl, rfl, fun _ => rfl⟩
    rintro rfl
    exact h.not_mem_own hp hq hne hj hmem

theorem released [DecidableEq H] (hl : t.loc = .release) : (s.leave p).Inv stage := by
  refine h.change (o := none) rfl (h.mutex.leave hrun) (h.pool_same hp (by rw [hl]; rfl)) nofun nofun
    (fun _ u _ _ => show Agree s (s.leave p) _ _ u by apply Agree.of_eq <;> rfl)
    (fun i hi => .inr ⟨hi, fun u c hu hlu => ?_⟩) (h.queues.congr rfl rfl rfl rfl)
    (fun k l hk => (h.intr k l hk).congr rfl rfl) fun b _ hq => ?_
  · cases hp.symm.trans hu
    rw [hl] at hlu
    contradiction
  · by_cases hbt : b = t.buf
    · rw [hbt]
      exact (h.ok hp hl).1
    · refine h.rest b fun q u hu => ?_
      by_cases hqp : q = p
      · rw [hqp, hp] at hu
        rw [← some.inj hu]
        exact Ne.symm hbt
      · exact hq q u hqp hu

end DiskState.Inv

namespace Safe

theorem task_goto {v : DiskState P H B} {l : Loc} (hv : v.task = s.task) (q : P)
    (hq : s.task q ≠ none) : (v.goto p t l).task q ≠ none := by
  by_cases hqp : q = p
  · rw [hqp]
    exact (update_self ..).trans_ne (some_ne_none _)
  · exact ((update_of_ne hqp ..).trans (congrFun hv q)).trans_ne hq

theorem goto {v : DiskState P H B} {l : Loc} (h : (v.goto p t l).Inv stage) (hv : v.task = s.task)
    (hring : v.disk.avail.ring = s.disk.avail.ring) : Safe s (v.goto p t l) :=
  of_inv ⟨stage, h⟩ (task_goto hv) hring

end Safe

/-- **Each step of `virtio_disk_rw` is safe, and does not panic.** -/
theorem virtioDiskRw_wp [DecidableEq H] [DecidableEq B] (h : s.Inv stage) (hp : s.task p = some t)
    (hrun : s.mode (.inl p) = .running) :
    Wp (virtioDiskRw p t) (fun _ => Safe s) (fun _ => False) s := by
  unfold virtioDiskRw
  cases hl : t.loc with
  | alloc =>
    refine (alloc3Desc_wp s).bind fun r u hu => ?_
    cases r with
    | none =>
      have hinv := h.asleep hp hrun (by rw [hl]; rfl) hu
      obtain ⟨desc, mode, rfl, -⟩ := hu
      exact Wp.modify (.of_inv ⟨stage, hinv⟩ (fun _ => id) rfl)
    | some c =>
      obtain ⟨hn, hfree, rfl⟩ := hu
      exact Wp.modify (.goto (h.allocated hp hrun hl hn hfree) rfl rfl)
  | format c => exact Wp.modify (.goto (h.filled hp hrun hl) rfl rfl)
  | ring c =>
    refine Wp.modify ⟨⟨stage, h.ringed hp hrun hl⟩, fun k hk => ?_, fun q u hq hret =>
      absurd hret (Safe.task_goto rfl q (hq.trans_ne (some_ne_none u)))⟩
    obtain ⟨-, hroom⟩ := h.avail_room hp (i := c.head) (by rw [hl]; exact c.head_mem) fun c' hc => by
      rw [hl] at hc; contradiction
    have h1 := s.device.lastAvail.toNat_lt
    have h2 := s.disk.avail.idx.toNat_lt
    unfold DiskState.untaken at hk
    rw [UInt16.toNat_sub] at hk
    exact h.queues.avail.update_get hroom numSize h1 c.head (by omega)
  | bump c => exact Wp.modify (.goto (h.bumped hp hrun hl) rfl rfl)
  | wait c =>
    refine Wp.modify ?_
    split_ifs with hdisk
    · exact .of_inv ⟨stage, h.asleep hp hrun (by rw [hl]; rfl)
        ⟨s.disk.desc, s.mode, rfl, fun _ _ => rfl, fun _ => .inl rfl⟩⟩ (fun _ => id) rfl
    · exact .goto (h.ended hp hrun hl hdisk) rfl rfl
  | clear c => exact Wp.modify (.goto (h.cleared hp hrun hl) rfl rfl)
  | freeChain c i =>
    obtain ⟨hn, hic, hdesc, -⟩ := h.ok hp hl
    obtain ⟨hown, hnext⟩ := c.own_after (t := t) hn hic
    have hi : i ∈ (Loc.freeChain c i).own := by
      rw [hown]
      exact mem_cons_self
    have hip : i ∈ s.own p := by rwa [own_of_task hp, hl]
    have hinv := h.freed hp hrun hl hown hnext
    refine Wp.get_bind ((freeDesc_wp (Finset.mem_range.1 (h.pool.mem p i hip))
      (h.pool.not_free hip)).bind fun _ u hu => ?_)
    obtain rfl : u = markFree s i := hu
    rw [show s.disk.desc i = c.desc t i from hdesc i hi]
    unfold Chain.after at hinv
    refine Wp.ite (fun hf => ?_) fun hf => ?_
    · rw [if_pos hf] at hinv
      exact Wp.modify (.goto hinv rfl rfl)
    · rw [if_neg hf] at hinv
      exact Wp.modify (.goto hinv rfl rfl)
  | release =>
    refine Wp.modify ⟨⟨stage, h.released hp hrun hl⟩, fun _ _ => rfl, fun q u hq hret => ?_⟩
    by_cases hqp : q = p
    · rw [hqp, hp] at hq
      cases hq
      exact h.ok hp hl
    · rw [show (s.leave p).task q = s.task q from update_of_ne hqp .., hq] at hret
      contradiction

/-! ## A request goes to its next stage -/

/-- **A step concerns one request**: its status, its buffer and what the device has done for it. -/
structure Concerns (s s' : DiskState P H B) (t : Task B) (c : Chain) : Prop where
  task : s'.task = s.task
  free : s'.disk.free = s.disk.free
  desc : s'.disk.desc = s.disk.desc
  ops : s'.disk.ops = s.disk.ops
  avail : s'.disk.avail = s.disk.avail
  info : ∀ i, i ≠ c.head → s'.disk.info i = s.disk.info i
  info_b : (s'.disk.info c.head).b = (s.disk.info c.head).b
  buf : ∀ b, b ≠ t.buf → s'.buf b = s.buf b
  sector : (s'.buf t.buf).sector = (s.buf t.buf).sector
  done : ∀ b, b ≠ t.buf → s'.device.done b = s.device.done b
  started : s'.started = s.started

namespace DiskState.Inv

variable (h : s.Inv stage)

include h

/-- **A request goes to another stage.** -/
theorem advance {o : Option (Stage B)} (hp : s.task p = some t) (hl : t.loc = .wait c)
    (hc : Concerns s s' t c) (hmutex : s'.Mutex)
    (hok : if (s'.buf t.buf).disk = 1 then ∃ x, o = some x ∧ s'.StageOk t c x else o = none ∧
      s'.Served t)
    (hqueues : s'.Queues (update stage c.head o))
    (hintr : ∀ k l, s'.intr k = some l → s'.IntrOk l) :
    s'.Inv (update stage c.head o) := by
  have hmem : c.head ∈ t.loc.own := by
    rw [hl]
    exact c.head_mem
  have hokp := h.task p t hp
  unfold TaskOk at hokp
  rw [hl] at hokp
  have hf := hokp.1
  refine h.step hp (w := t) ?_ rfl hmutex (by rw [hc.free]; exact h.pool_same hp rfl) ?_
    (fun q u hne hq => ?_) (fun i hi => ?_) hqueues hintr fun b hb =>
      ⟨hc.done b hb, by rw [hc.started]⟩
  · rw [hc.task, update_eq_self_iff.2 hp.symm]
  · unfold TaskOk
    rw [hl]
    refine ⟨⟨fun i hi => by rw [hc.desc, hf.desc i hi], ?_, by rw [hc.info_b, hf.buf]⟩, ?_⟩
    · rw [hc.ops, hf.op]
      unfold header
      rw [hc.sector]
    · rw [update_self]
      split_ifs at hok ⊢
      · exact hok
      · exact hok.2
  · have hne' : ∀ i ∈ u.loc.own, i ≠ c.head := fun i hi he => h.not_mem_own hp hq hne hi (he ▸ hmem)
    exact ⟨fun i _ => by rw [hc.desc], fun i _ => by rw [hc.ops], fun i hi => hc.info i (hne' i hi),
      fun i hi => update_of_ne (hne' i hi) .., hc.buf _ (h.buf_ne hp hq hne),
      hc.done _ (h.buf_ne hp hq hne), by rw [hc.started], fun _ => by rw [hc.avail]⟩
  · by_cases hic : i = c.head
    · rw [hic, update_self] at hi
      have hdisk : (s'.buf t.buf).disk = 1 := by
        by_contra hne
        rw [if_neg hne] at hok
        exact hi hok.1
      exact .inl ⟨c, hl, hic.symm, hdisk⟩
    · rw [update_of_ne hic] at hi
      refine .inr ⟨hi, fun c' hc' he => ?_⟩
      rw [hl] at hc'
      obtain rfl : c = c' := Loc.wait.inj hc'
      exact absurd he.symm hic

end DiskState.Inv

namespace DiskState.Inv

variable (h : s.Inv stage)

include h

/-- **The device takes a request.** -/
theorem take (hne : s.device.lastAvail ≠ s.disk.avail.idx) : ∃ stage',
    (takeChain s (s.disk.avail.ring (s.device.lastAvail.toNat % NUM))).Inv stage' := by
  have hq := h.queues
  obtain ⟨hs, hpop⟩ := hq.avail.pop numSize (UInt16.toNat_lt _) fun he => hne (UInt16.toNat_inj.1 he)
  obtain ⟨p, t, c, hp, hl, hhead, hdisk, hf, hawait⟩ := h.waiting hs
  rw [← hhead] at hs hpop ⊢
  refine ⟨_, h.advance (o := some .taken) hp hl ⟨rfl, rfl, rfl, rfl, rfl, fun _ _ => rfl, rfl,
    fun _ _ => rfl,
    rfl, fun _ _ => rfl, rfl⟩ (h.mutex.congr rfl rfl rfl rfl)
    ((if_pos hdisk).mpr ⟨.taken, rfl, hawait⟩)
    ⟨fun j => work_update hq.work (some .taken) c.head j, fun j r => ?_, hq.slot, ?_, ?_⟩
    fun k l hk => (h.intr k l hk).congr rfl rfl⟩
  · exact (hq.appended j r).trans (update_stage_iff hs (by nofun) (by nofun) j)
  · show WrapRing.Lists s.disk.avail.ring NUM (2 ^ 16) (s.device.lastAvail + 1).toNat _ _
    rw [UInt16.toNat_add, UInt16.toNat_one]
    exact hpop.congr (update_stage_leave (by nofun) c.head)
  · exact hq.used.congr (update_stage_iff hs (by nofun) (by nofun))

/-- **The device transfers a block.** -/
theorem transferred [DecidableEq B] (hw : s.device.work i = some .taken) : ∃ f, findChain s.disk i = some f ∧
      Safe s (setWork (transfer s f).2 i (.transferred (transfer s f).1)) := by
  have hs := Stage.eq_of_work ((h.queues.work i).symm.trans hw)
  obtain ⟨p, t, c, hp, hl, rfl, hdisk, hf, hawait⟩ := h.waiting hs
  refine ⟨_, findChain_filled hf (h.nodup_own hp (by rw [hl]; rfl)), ?_⟩
  obtain ⟨medium, data, he⟩ := transfer_spec s t c.head
  rw [he]
  have hbuf : (s.transferTo t medium data).buf t.buf = { s.buf t.buf with data := data } :=
    update_self ..
  refine .of_inv ⟨_, h.advance (o := some (.transferred ((s.transferTo t medium data).request t))) hp hl
    ⟨rfl, rfl, rfl, rfl, rfl, fun _ _ => rfl, rfl, fun b hb => update_of_ne hb .., ?_,
      fun _ _ => rfl,
    rfl⟩ (h.mutex.congr rfl rfl rfl rfl) ?_
    (h.queues_move hs nofun nofun nofun nofun nofun
      nofun rfl rfl rfl rfl rfl rfl) fun k l hk => (h.intr k l hk).congr rfl rfl⟩ (fun _ => id) rfl
  · show ((s.transferTo t medium data).buf t.buf).sector = _
    rw [hbuf]
    rfl
  · refine (if_pos ?_).mpr ⟨_, rfl, rfl, hawait⟩
    show ((s.transferTo t medium data).buf t.buf).disk = 1
    rw [hbuf]
    exact hdisk

/-- **The device writes the status.** -/
theorem reported {r : Request B} (hw : s.device.work i = some (.transferred r)) :
    ∃ f, findChain s.disk i = some f ∧
      ∃ stage', (setWork (writeStatus s f.status) i (.reported r)).Inv stage' := by
  have hs := Stage.eq_of_work ((h.queues.work i).symm.trans hw)
  obtain ⟨p, t, c, hp, hl, rfl, hdisk, hf, rfl, hawait⟩ := h.waiting hs
  have hinfo : (writeStatus s c.head).disk.info c.head = { s.disk.info c.head with status := 0 } :=
    update_self ..
  refine ⟨_, findChain_filled hf (h.nodup_own hp (by rw [hl]; rfl)), _, h.advance
    (o := some (.reported (s.request t))) hp hl
    ⟨rfl, rfl, rfl, rfl, rfl, fun i hi => update_of_ne hi .., ?_, fun _ _ => rfl, rfl,
      fun _ _ => rfl,
    rfl⟩ (h.mutex.congr rfl rfl rfl rfl) ((if_pos hdisk).mpr ⟨_, rfl, rfl, ?_, hawait⟩)
    (h.queues_move hs nofun nofun nofun nofun nofun
      nofun rfl rfl rfl rfl rfl rfl) fun k l hk => (h.intr k l hk).congr rfl rfl⟩
  · have hb := congrArg Info.b hinfo
    exact hb
  · have hstatus := congrArg Info.status hinfo
    exact hstatus

/-- **The device stores the head in the used ring**, and does not overwrite what is there. -/
theorem appendedUsed {r : Request B} (hw : s.device.work i = some (.reported r))
    (happ : s.device.appended = none) : ∃ stage', (appendUsed s i r).Inv stage' := by
  have hq := h.queues
  have hs := Stage.eq_of_work ((hq.work i).symm.trans hw)
  have hroom := h.used_room hs nofun
  obtain ⟨p, t, c, hp, hl, rfl, hdisk, hf, rfl, hstatus, hawait⟩ := h.waiting hs
  refine ⟨_, h.advance (o := some (.appended (s.request t))) hp hl
    ⟨rfl, rfl, rfl, rfl, rfl, fun _ _ => rfl, rfl, fun _ _ => rfl, rfl, fun _ _ => rfl, rfl⟩
    (h.mutex.congr rfl rfl rfl rfl) ((if_pos hdisk).mpr ⟨_, rfl, rfl, hstatus, hawait⟩)
    ⟨fun j => work_update hq.work (some (.appended (s.request t))) c.head j, fun j r => ?_,
      fun j r hr => ?_, ?_,
      ?_⟩ fun k l hk => ?_⟩
  · show some (c.head, s.request t) = some (j, r) ↔ _
    by_cases hj : j = c.head
    · subst hj
      rw [update_self]
      constructor
      · rintro ⟨⟩
        rfl
      · rintro ⟨⟩
        rfl
    · rw [update_of_ne hj, ← hq.appended, happ]
      exact iff_of_false (fun he => hj (congrArg Prod.fst (some.inj he)).symm) nofun
  · obtain ⟨rfl, -⟩ := Prod.mk.inj (some.inj hr)
    exact update_self ..
  · exact hq.avail.congr (update_stage_iff hs (by nofun) (by nofun))
  · exact (hq.used.store hroom numSize c.head).congr (update_stage_iff hs (by nofun) (by nofun))
  · have hok := h.intr k l hk
    have hfirst : s.disk.usedIdx ≠ s.disk.used.idx →
        update s.disk.used.ring (s.disk.used.idx.toNat % NUM) c.head (s.disk.usedIdx.toNat % NUM) =
          s.disk.used.ring (s.disk.usedIdx.toNat % NUM) := fun hne => by
      have h1 := s.disk.usedIdx.toNat_lt
      have h2 := s.disk.used.idx.toNat_lt
      have hne : s.disk.usedIdx.toNat ≠ s.disk.used.idx.toNat := fun he => hne (UInt16.toNat_inj.1 he)
      exact hq.used.update_get hroom numSize h1 c.head (k := 0) (by omega)
    cases l with
    | check | release => trivial
    | readId => exact hok
    | status id | finish id => exact ⟨hok.1, (hfirst hok.1).trans hok.2⟩

/-- **The device counts the used ring up**: the request is completed. -/
theorem published [DecidableEq B] {r : Request B} (happ : s.device.appended = some (i, r)) :
    ∃ stage', (publishUsed s r).Inv stage' := by
  have hq := h.queues
  have hs := (hq.appended i r).1 happ
  have hroom := h.used_room hs nofun
  have hslot := hq.slot i r happ
  obtain ⟨p, t, c, hp, hl, rfl, hdisk, hf, rfl, hstatus, hawait⟩ := h.waiting hs
  have hdone : (publishUsed s (s.request t)).device.done t.buf = s.request t :: s.device.done t.buf :=
    update_self ..
  have hused : WrapRing.Lists s.disk.used.ring NUM (2 ^ 16) s.disk.usedIdx.toNat
    (s.disk.used.idx + 1).toNat fun j => update stage c.head (some Stage.used) j = some .used := by
    rw [UInt16.toNat_add, UInt16.toNat_one]
    exact (hq.used.push hroom numSize hslot).congr (update_stage_enter c.head)
  refine ⟨_, h.advance (o := some .used) hp hl
    ⟨rfl, rfl, rfl, rfl, rfl, fun _ _ => rfl, rfl, fun _ _ => rfl, rfl, fun b hb =>
      update_of_ne hb ..,
      rfl⟩
    (h.mutex.congr rfl rfl rfl rfl) ((if_pos hdisk).mpr ⟨_, rfl, hstatus, ?_, ?_⟩)
    ⟨work_same hq.work (by rw [hs]; rfl) rfl, fun j r => ?_, fun j r hr => ?_, ?_, hused⟩ fun k l
      hk => ?_⟩
  · rw [hdone]
    exact hawait
  · rw [hdone]
    rfl
  · show none = some (j, r) ↔ _
    by_cases hj : j = c.head
    · rw [hj, update_self]
      exact iff_of_false nofun nofun
    · rw [update_of_ne hj, ← hq.appended, happ]
      exact iff_of_false nofun fun he => hj (congrArg Prod.fst (some.inj he)).symm
  · cases hr
  · exact hq.avail.congr (update_stage_iff hs (by nofun) (by nofun))
  · have hne : s.disk.usedIdx ≠ s.disk.used.idx + 1 := fun he => by
      refine (hused.ne_iff numSize (UInt16.toNat_lt _)).2 ⟨c.head, update_self ..⟩ ?_
      rw [he]
    have hok := h.intr k l hk
    cases l with
    | check | release => trivial
    | readId => exact hne
    | status id | finish id => exact ⟨hne, hok.2⟩

/-! ## Steps of `virtio_disk_intr` -/

/-- **A completion is seen**: who waits for it may go on. -/
theorem finished [DecidableEq H] [DecidableEq B] (hk : s.intr k = some (.finish i))
    (hrun : s.mode (.inr k) = .running) :
    ∃ b, (s.disk.info i).b = some b ∧ ∃ stage', ((finish s b).gotoIntr k .check).Inv stage' := by
  obtain ⟨hne, hid⟩ := h.intr k _ hk
  have hq := h.queues
  have hs := h.used_first hne
  have hpop := (hq.used.pop numSize (UInt16.toNat_lt _) fun he => hne (UInt16.toNat_inj.1 he)).2
  rw [hid] at hs hpop
  obtain ⟨p, t, c, hp, hl, rfl, hdisk, hf, hstatus, hserved⟩ := h.waiting hs
  have hbuf : ((finish s t.buf).gotoIntr k .check).buf t.buf = { s.buf t.buf with disk := 0 } :=
    update_self ..
  refine ⟨t.buf, hf.buf, _, h.advance (o := none) hp hl
    ⟨rfl, rfl, rfl, rfl, rfl, fun _ _ => rfl, rfl, fun b hb => update_of_ne hb ..,
      by rw [hbuf]; rfl,
      fun _ _ => rfl, rfl⟩
    (h.mutex.gotoIntr hrun (woken_wakeup (s := s.setBuf _ _) _) rfl rfl rfl) ?_
    ⟨work_same hq.work (by rw [hs]; rfl) rfl, fun j r => ?_, hq.slot, ?_, ?_⟩ fun j l hj => ?_⟩
  · rw [hbuf]
    refine (if_neg Nat.zero_ne_one).mpr ⟨rfl, hserved.1, ?_⟩
    unfold DiskState.request
    rw [hbuf]
    exact hserved.2
  · exact (hq.appended j r).trans (update_stage_iff hs (by nofun) (by nofun) j)
  · exact hq.avail.congr (update_stage_iff hs (by nofun) (by nofun))
  · show WrapRing.Lists s.disk.used.ring NUM (2 ^ 16) (s.disk.usedIdx + 1).toNat _ _
    rw [UInt16.toNat_add, UInt16.toNat_one]
    exact hpop.congr (update_stage_leave (by nofun) c.head)
  · -- every other hart waits for the lock
    rcases intr_gotoIntr hj with ⟨-, rfl⟩ | ⟨hjk, hj⟩
    · trivial
    · by_cases hcheck : l = .check
      · rw [hcheck]
        trivial
      · exact absurd (Sum.inr_injective (h.mutex.eq_of_running (h.mutex.intr j l hj hcheck) hrun)) hjk

end DiskState.Inv

/-- **Each step of `virtio_disk_intr` is safe, and does not panic.** -/
theorem virtioDiskIntr_wp [DecidableEq H] [DecidableEq B] {l : IntrLoc} (h : s.Inv stage) (hk : s.intr k = some l)
    (hrun : s.mode (.inr k) = .running) :
    Wp (virtioDiskIntr k l) (fun _ => Safe s) (fun _ => False) s := by
  have hok := h.intr k l hk
  cases l with
  | check =>
    refine Wp.modify (.of_inv ⟨stage, h.gotoIntr hrun ?_⟩ (fun _ => id) rfl)
    split_ifs with hne
    · exact hne
    · trivial
  | readId => exact Wp.modify (.of_inv ⟨stage, h.gotoIntr hrun ⟨hok, rfl⟩⟩ (fun _ => id) rfl)
  | status id =>
    obtain ⟨hne, rfl⟩ := hok
    have hs := h.used_first hne
    have hlt := Finset.mem_range.1 (h.stage_lt (by rw [hs]; exact some_ne_none _))
    obtain ⟨p, t, c, -, -, hhead, -, -, hstatus, -⟩ := h.waiting hs
    rw [hhead] at hstatus
    refine Wp.get_bind (Wp.ite (fun hge => absurd hge (by omega)) fun _ => Wp.ite
      (fun hbad => ?_) fun _ => ?_)
    · exact absurd hstatus hbad
    · exact Wp.set (.of_inv ⟨stage, h.gotoIntr hrun ⟨hne, rfl⟩⟩ (fun _ => id) rfl)
  | finish id =>
    obtain ⟨b, hb, hinv⟩ := h.finished hk hrun
    refine Wp.get_bind ?_
    rw [hb]
    exact Wp.set (.of_inv hinv (fun _ hq => hq) rfl)
  | release =>
    refine Wp.modify (.of_inv ⟨stage, h.control rfl (h.mutex.leaveIntr hrun) rfl rfl rfl rfl
      fun j l hj => ?_⟩ (fun _ => id) rfl)
    have hjk : j ≠ k := by
      rintro rfl
      rw [show (s.leaveIntr j).intr j = none from update_self ..] at hj
      contradiction
    have hj : s.intr j = some l := (update_of_ne hjk ..).symm.trans hj
    exact (h.intr j l hj).congr rfl rfl

/-! ## Events -/

namespace DiskState.Inv

variable [DecidableEq H] (h : s.Inv stage)

include h

theorem interrupted : ((s.gotoIntr k .check).setMode (.inr k) .acquiring).Inv stage := by
  have hself : (s.gotoIntr k .check).intr k = some .check := update_self ..
  refine h.control rfl (h.mutex.await (x := .inr k) rfl rfl (fun _ _ => rfl)
    (fun j hj => update_of_ne (fun he => hj (congrArg Sum.inr he)) ..) ?_ ?_) rfl rfl rfl rfl
    fun j l hj => ?_
  · exact hself.trans_ne (some_ne_none _)
  · rintro ⟨l, hl, hne⟩
    exact hne (some.inj (hl.symm.trans hself))
  · rcases intr_gotoIntr hj with ⟨-, rfl⟩ | ⟨-, hj⟩
    · trivial
    · exact (h.intr j l hj).congr rfl rfl

theorem roused (hp : s.mode (.inl p) = .asleep) : (s.setMode (.inl p) .acquiring).Inv stage := by
  refine h.control rfl (h.mutex.await (x := .inl p) rfl rfl (fun _ _ => rfl) (fun _ _ => rfl) ?_
    fun hin => ?_) rfl rfl rfl rfl fun k l hk => (h.intr k l hk).congr rfl rfl
  · exact h.mutex.busy (.inl p) (by rw [hp]; decide)
  · have hrun := h.mutex.inside (x := .inl p) hin
    rw [hp] at hrun
    contradiction

theorem entered [DecidableEq B] {b : B} (hp : s.task p = none) (hb : ∀ q, (s.task q).map Task.buf ≠ some b)
    (write : Bool) (blockno : UInt32) (data : ℕ → UInt8) :
    (enter s p b write blockno data).Inv stage := by
  have hbuf : ∀ {q u}, s.task q = some u → u.buf ≠ b :=
    fun {q u} hq he => hb q (by rw [hq, ← he]; rfl)
  have hself : (enter s p b write blockno data).task p = some ⟨b, write, .alloc⟩ :=
    update_self ..
  have hnot : ∀ {u}, s.task p ≠ some u := fun {u} hu => by
    rw [hp] at hu
    contradiction
  refine h.change (o := some ⟨b, write, .alloc⟩) rfl (h.mutex.await (x := .inl p) rfl rfl
      (fun q hq => update_of_ne (fun he => hq (congrArg Sum.inl he)) ..) (fun _ _ => rfl)
      (hself.trans_ne (some_ne_none _)) ?_) ?_
    (fun w hw q u _ hq => ?_) (fun w hw => ?_)
    (fun q u _ hq => ⟨fun _ _ => rfl, fun _ _ => rfl, fun _ _ => rfl, fun _ _ => rfl,
      update_of_ne (hbuf hq) .., rfl, update_of_ne (hbuf hq) .., fun _ => rfl⟩)
    (fun i hi => .inr ⟨hi, fun u _ hu => absurd hu hnot⟩) (h.queues.congr rfl rfl rfl rfl)
    (fun k l hk => (h.intr k l hk).congr rfl rfl) fun c hw hq => ?_
  · rintro ⟨u, hu, hin⟩
    cases hself.symm.trans hu
    contradiction
  · have hsame : update s.own p [] = s.own := by
      refine update_eq_self_iff.2 ?_
      unfold DiskState.own
      rw [hp]
      rfl
    show Pool _ s.disk.free (update s.own p [])
    rw [hsame]
    exact h.pool
  · cases hw
    exact hbuf hq
  · cases hw
    show (s.device.done b).length + 1 = update s.started b (s.started b + 1) b
    rw [update_self, h.rest b fun _ _ => hbuf]
  · refine (h.rest c fun q u hu => ?_).trans (update_of_ne (hw _ rfl).symm ..).symm
    refine hq q u ?_ hu
    rintro rfl
    exact hnot hu

end DiskState.Inv

theorem fine_device [DecidableEq B] (h : s.Inv stage) (a : DeviceStep) : Fine s (a.run s) := by
  cases a with
  | take =>
    simp only [DeviceStep.run]
    split_ifs with hne
    · exact .of_inv (h.take hne) (fun _ => id) rfl
    · trivial
  | transfer i =>
    simp only [DeviceStep.run]
    split
    · next hw =>
      obtain ⟨f, hf, hsafe⟩ := h.transferred hw
      rw [hf]
      exact hsafe
    · trivial
  | report i =>
    simp only [DeviceStep.run]
    split
    · next hw =>
      obtain ⟨f, hf, hinv⟩ := h.reported hw
      rw [hf]
      exact .of_inv hinv (fun _ => id) rfl
    · trivial
  | append i =>
    simp only [DeviceStep.run]
    split
    · next hw happ => exact .of_inv (h.appendedUsed hw happ) (fun _ => id) rfl
    · trivial
  | publish =>
    simp only [DeviceStep.run]
    split
    · next happ => exact .of_inv (h.published happ) (fun _ => id) rfl
    · trivial

variable [DecidableEq H] [DecidableEq B]

/-- **Every event is safe, and none is an error.** -/
theorem next_fine [Fintype P] (h : s.Inv stage) (e : Event P H B) : Fine s (next e s) := by
  cases e with
  | call p b write blockno data =>
    simp only [next]
    split_ifs with hc
    · refine .of_inv ⟨stage, h.entered hc.1 hc.2 write blockno data⟩ (fun q hq => ?_) rfl
      have hqp : q ≠ p := fun he => hq (he ▸ hc.1)
      exact (update_of_ne hqp ..).trans_ne hq
    · trivial
  | interrupt k =>
    simp only [next]
    split_ifs
    · exact .of_inv ⟨stage, h.interrupted⟩ (fun _ => id) rfl
    · trivial
  | acquire x =>
    simp only [next]
    split_ifs with hx
    · exact .of_inv ⟨stage, h.control rfl (h.mutex.acquire hx.1 hx.2) rfl rfl rfl rfl
        fun k l hk => (h.intr k l hk).congr rfl rfl⟩ (fun _ => id) rfl
    · trivial
  | rw p =>
    simp only [next]
    split
    · next t hp =>
      split_ifs with hrun
      · exact fine_exec (virtioDiskRw_wp h hp hrun)
      · trivial
    · trivial
  | intr k =>
    simp only [next]
    split
    · next l hk =>
      split_ifs with hrun
      · exact fine_exec (virtioDiskIntr_wp h hk hrun)
      · trivial
    · trivial
  | rouse p =>
    simp only [next]
    split_ifs with hp
    · exact .of_inv ⟨stage, h.roused hp⟩ (fun _ => id) rfl
    · trivial
  | device a => exact fine_device h a

theorem safe_of_next [Fintype P] {e : Event P H B} (h : s.Inv stage)
    (he : next e s = some (.ok s')) : Safe s s' := by
  have hfine := next_fine h e
  rwa [he] at hfine

theorem Reached.inv [Fintype P] (hs : Reached s) : ∃ stage, s.Inv stage := by
  obtain ⟨buf, medium, hs⟩ := hs
  refine hs.invariant (I := fun s => ∃ stage, s.Inv stage) ⟨_, inv_init buf medium⟩ ?_
  rintro e t u ⟨stage, h⟩ - hstep
  have hfine := next_fine h e
  obtain ⟨r, hr, hru⟩ := bind_eq_some_iff.1 hstep
  rw [hr] at hfine
  cases r with
  | error x => exact hfine.elim
  | ok v =>
    cases hru
    exact hfine.inv

/-! ## The protocol -/

/-- **The protocol of driver and device.** In every state that is reached: the descriptors of
requests in flight are disjoint and not free, and form a chain of header, data and status; no event
overwrites an entry of the avail ring that the device has not taken; a call returns only when the
device has completed as many requests for its buffer as there have been calls, its own last; no
event is a panic; and without requests all descriptors are free. -/
theorem virtio_protocol [Fintype P] (hs : Reached s) :
    (∀ p t c, s.task p = some t → t.loc.inFlight = some c →
      (c.list.Nodup ∧ ∀ i ∈ c.list, i < NUM ∧ s.disk.free i = false) ∧
      (∀ q u d, q ≠ p → s.task q = some u → u.loc.inFlight = some d → c.list.Disjoint d.list) ∧
      s.disk.desc c.head = headDesc c ∧ s.disk.ops c.head = header t.write (s.buf t.buf) ∧
      s.disk.desc c.data = dataDesc c t ∧ s.disk.desc c.status = statusDesc c) ∧
    (∀ e s', next e s = some (.ok s') → ∀ k < s.untaken,
      s'.disk.avail.ring (s.place k) = s.disk.avail.ring (s.place k)) ∧
    (∀ e s' p t, next e s = some (.ok s') → s.task p = some t → s'.task p = none → s.Served t) ∧
    (∀ e x, next e s ≠ some (.error x)) ∧
    ((∀ p t, s.task p = some t → t.loc.own = []) → ∀ i < NUM, s.disk.free i = true) := by
  obtain ⟨stage, h⟩ := hs.inv
  refine ⟨fun p t c hp hl => ?_, fun e s' he => (safe_of_next h he).untaken,
    fun e s' p t he => (safe_of_next h he).served p t, fun e x he => ?_, fun hown i hi => ?_⟩
  · obtain ⟨hown, hf⟩ := h.inFlight hp hl
    have hn := h.nodup_own hp hown
    have hmem : ∀ i ∈ c.list, i ∈ s.own p := fun i hi => by rwa [own_of_task hp, hown]
    refine ⟨⟨hn, fun i hi => ⟨Finset.mem_range.1 (h.pool.mem p i (hmem i hi)), h.pool.not_free
      (hmem i hi)⟩⟩,
      fun q u d hqp hq hd i hi hid => ?_, ?_⟩
    · obtain ⟨hown', -⟩ := h.inFlight hq hd
      exact hqp (h.pool.apart q p i (by rwa [own_of_task hq, hown']) (hmem i hi))
    · obtain ⟨h0, h1, h2⟩ := hf.descs hn
      exact ⟨h0, hf.op, h1, h2⟩
  · have hfine := next_fine h e
    rw [he] at hfine
    exact hfine
  · refine h.pool.all_free (fun p => ?_) (Finset.mem_range.2 hi)
    cases hp : s.task p with
    | none =>
      unfold DiskState.own
      rw [hp]
      rfl
    | some t => rw [own_of_task hp, hown p t hp]

/-- A read by the only process, up to where it waits for the device. -/
def readUpToWait : List (Event Unit Unit Unit) :=
  [.call () () false 3 fun _ => 0, .acquire (.inl ()), .rw (), .rw (), .rw (), .rw ()]

/-- A process waits for a read with the descriptors 0, 1 and 2, and the device has one entry to take. -/
theorem virtio_protocol_read : ∃ s : DiskState Unit Unit Unit,
    (s.task () = some ⟨(), false, .wait ⟨0, 1, 2⟩⟩ ∧ s.untaken = 1) ∧
    s.disk.desc 0 = headDesc ⟨0, 1, 2⟩ ∧ s.disk.free 2 = false ∧
    ∀ e x, next e s ≠ some (.error x) := by
  have hrun : (Transition.run step Transition.anyEvent readUpToWait
      (init (fun _ => ⟨0, 0, fun _ => 0⟩) fun _ => 0)).any (fun s =>
        decide (s.task () = some ⟨(), false, .wait ⟨0, 1, 2⟩⟩ ∧ s.untaken = 1)) = true := by
    decide +kernel
  obtain ⟨s, hr, htask, huntaken⟩ := Transition.exists_reaches_of_run hrun
  obtain ⟨hflight, -, -, herr, -⟩ := virtio_protocol (s := s) ⟨_, _, hr⟩
  obtain ⟨⟨-, hfree⟩, -, hdesc, -⟩ := hflight () _ ⟨0, 1, 2⟩ htask rfl
  exact ⟨s, ⟨htask, huntaken⟩, hdesc, (hfree 2 (by decide)).2, herr⟩

end Xv6.Virtio
