import Mathlib.Data.BitVec
import Xv6.Lib.SaveArea
import Xv6.Lib.Transition

/-!
# Context Switch and Trap Entry

`swtch.S` and `trampoline.S`, instruction by instruction up to the jump that ends them. Memory is
a doubleword for each address, as all accesses are aligned, and is what the installed page table
shows: the trampoline reaches the trap frame under the user's table only. `sfence.vma` does
nothing here.

**Threads.** Between two switches the running thread may change every register, and all memory
but the saved contexts of the others.

Main results: `swtch_round_trip` and `trap_round_trip`.
-/

namespace Xv6.Asm

open Transition

/-- The integer registers in the order of their numbers, and two control registers. -/
inductive Reg
  | ra | sp | gp | tp | t0 | t1 | t2 | s0 | s1 | a0 | a1 | a2 | a3 | a4 | a5 | a6 | a7
  | s2 | s3 | s4 | s5 | s6 | s7 | s8 | s9 | s10 | s11 | t3 | t4 | t5 | t6 | sscratch | satp
  deriving DecidableEq

abbrev Word := BitVec 64
abbrev Hart := Machine Reg Word

/-! ## The context switch -/

/-- The fields of `struct context`. -/
def context : List Reg := [.ra, .sp, .s0, .s1, .s2, .s3, .s4, .s5, .s6, .s7, .s8, .s9, .s10, .s11]

def contextOff (r : Reg) : Word := BitVec.ofNat 64 (8 * context.idxOf r)

def swtch (m : Hart) : Hart :=
  (m.save contextOff .a0 context).restore contextOff .a1 context

theorem contextOff_injOn : Set.InjOn contextOff {r | r ∈ context} := by
  have h : ∀ r ∈ context, ∀ q ∈ context, contextOff r = contextOff q → r = q := by decide +kernel
  exact h

theorem swtch_reg {m : Hart} {r : Reg} (hr : r ∈ context) :
    (swtch m).reg r = (swtch m).mem (m.reg .a1 + contextOff r) := by
  rw [swtch, Machine.restore_eq (by decide), Machine.save_eq]
  exact if_pos hr

theorem swtch_mem (m : Hart) : (swtch m).mem = (m.save contextOff .a0 context).mem := by
  rw [swtch, Machine.restore_eq (by decide)]

/-- The threads of one CPU: its hart, and the thread that runs on it. -/
structure Threads (T : Type*) where
  hart : Hart
  cur : T

inductive Event (T : Type*)
  | compute (m : Hart)
  | swtch (t : T)

section Threads

variable {T : Type*} (ctx : T → Word)

def step : Event T → Threads T → Option (Threads T)
  | .compute m, s => some { s with hart := m }
  | .swtch t, s =>
    if s.hart.reg .a0 = ctx s.cur ∧ s.hart.reg .a1 = ctx t then some ⟨swtch s.hart, t⟩ else none

/-- What is computed between two switches leaves the contexts of the other threads alone. -/
def Leaves : Event T → Threads T → Prop
  | .compute m, s => ∀ t ≠ s.cur, ∀ r ∈ context,
    m.mem (ctx t + contextOff r) = s.hart.mem (ctx t + contextOff r)
  | .swtch _, _ => True

/-- Thread `t` is parked with the registers `R`, or has just come back to them. -/
def Parked (t : T) (R : Reg → Word) (s : Threads T) : Prop :=
  ∀ r ∈ context, s.hart.mem (ctx t + contextOff r) = R r ∧ (s.cur = t → s.hart.reg r = R r)

variable {ctx} {t u : T} {s s' : Threads T} {R : Reg → Word}

/-- Whoever is switched to loads what its context holds. -/
theorem parked_after (h : step ctx (.swtch u) s = some s')
    (hmem : ∀ r ∈ context, (s.hart.save contextOff .a0 context).mem (ctx t + contextOff r) = R r) :
    Parked ctx t R s' := by
  obtain ⟨⟨-, ha1⟩, rfl⟩ := of_guard h
  intro r hr
  rw [← swtch_mem] at hmem
  refine ⟨hmem r hr, fun hu => ?_⟩
  rw [swtch_reg hr, ha1, show u = t from hu, hmem r hr]

theorem parked_of_swtch (h : step ctx (.swtch u) s = some s') :
    Parked ctx s.cur s.hart.reg s' := by
  refine parked_after h fun r hr => ?_
  rw [← (of_guard h).1.1]
  exact Machine.save_mem contextOff_injOn r hr

theorem Parked.step {e : Event T} (h : Parked ctx t R s)
    (hctx : ∀ v ≠ t, ∀ r ∈ context, ∀ q ∈ context, ctx t + contextOff r ≠ ctx v + contextOff q)
    (hcur : s.cur ≠ t) (hok : Leaves ctx e s) (hs : step ctx e s = some s') :
    Parked ctx t R s' := by
  cases e with
  | compute m =>
    cases hs
    exact fun r hr => ⟨(hok t hcur.symm r hr).trans (h r hr).1, fun hc => absurd hc hcur⟩
  | swtch u =>
    -- the switch stores into the context of the running thread only
    refine parked_after hs fun r hr => ?_
    rw [Machine.save_off, (h r hr).1]
    rw [(of_guard hs).1.1]
    exact hctx s.cur hcur r hr

variable (ctx) in
/-- **A thread comes back to the registers it called `swtch` with**, whatever the others do, and
however often they switch among themselves. -/
theorem swtch_round_trip {s₁ s₂ : Threads T}
    (hctx : ∀ v ≠ s.cur, ∀ r ∈ context, ∀ q ∈ context,
      ctx s.cur + contextOff r ≠ ctx v + contextOff q)
    (hout : step ctx (.swtch u) s = some s₁)
    (hrun : Reaches (step ctx) (fun e x => x.cur ≠ s.cur ∧ Leaves ctx e x) s₁ s₂)
    (hback : s₂.cur = s.cur) : ∀ r ∈ context, s₂.hart.reg r = s.hart.reg r := by
  intro r hr
  have hparked : Parked ctx s.cur s.hart.reg s₂ :=
    hrun.invariant (parked_of_swtch hout) fun _ _ _ h hok => h.step hctx hok.1 hok.2
  exact (hparked r hr).2 hback

end Threads

/-- Two contexts, and the registers of a thread about to switch to the other. -/
def twoContexts (t : Bool) : Word := if t then 512 else 0

def handOver (t : Bool) (v : Word) : Reg → Word
  | .a0 => twoContexts t
  | .a1 => twoContexts !t
  | _ => v

theorem swtch_round_trip_two : ∃ s s₁ s₂ : Threads Bool,
    step twoContexts (.swtch true) s = some s₁ ∧ s₁.hart.reg .s0 ≠ s.hart.reg .s0 ∧
    ∀ r ∈ context, s₂.hart.reg r = s.hart.reg r := by
  let m : Hart := ⟨handOver false 7, fun _ => 0⟩
  let m' : Hart := ⟨handOver true 9, (swtch m).mem⟩
  have hrun : Reaches (step twoContexts) (fun e x => x.cur ≠ false ∧ Leaves twoContexts e x)
      ⟨swtch m, true⟩ ⟨swtch m', false⟩ :=
    .tail (.tail (.refl _) (a := .compute m') ⟨nofun, fun _ _ _ _ => rfl⟩ rfl)
      (a := .swtch false) ⟨nofun, trivial⟩ rfl
  refine ⟨⟨m, false⟩, ⟨swtch m, true⟩, ⟨swtch m', false⟩, rfl, by decide +kernel, ?_⟩
  exact swtch_round_trip twoContexts (u := true) (s := ⟨m, false⟩) (by decide +kernel) rfl hrun rfl

/-! ## Traps from user space -/

/-- The field of a register in `struct trapframe`, which has five other words first. -/
def field (r : Reg) : Word := BitVec.ofNat 64 (40 + 8 * r.ctorIdx)

/-- Two pages below `MAXVA`. -/
def TRAPFRAME : Word := BitVec.ofNat 64 (2 ^ 38 - 2 * 4096)

/-- Every register but `a0`. -/
def userRegs : List Reg := [.ra, .sp, .gp, .tp, .t0, .t1, .t2, .s0, .s1, .a1, .a2, .a3, .a4, .a5,
  .a6, .a7, .s2, .s3, .s4, .s5, .s6, .s7, .s8, .s9, .s10, .s11, .t3, .t4, .t5, .t6]

def uservec (m : Hart) : Hart :=
  m.mv .sscratch .a0 |>.li .a0 TRAPFRAME |>.save field .a0 userRegs
    |>.mv .t0 .sscratch |>.sd .t0 112 .a0
    |>.ld .sp 8 .a0 |>.ld .tp 32 .a0 |>.ld .t0 16 .a0 |>.ld .t1 0 .a0 |>.mv .satp .t1

def userret (m : Hart) : Hart :=
  m.mv .satp .a0 |>.li .a0 TRAPFRAME |>.restore field .a0 userRegs |>.ld .a0 112 .a0

theorem field_injective : Function.Injective field :=
  Function.LeftInverse.injective (g := fun w => Reg.ofNat ((w.toNat - 40) / 8)) fun r => by
    cases r <;> rfl

theorem ne_of_mem_userRegs : ∀ r ∈ userRegs, r ≠ .a0 ∧ r ≠ .sscratch := by decide

theorem uservec_mem (m : Hart) :
    ∀ r ∈ Reg.a0 :: userRegs, (uservec m).mem (TRAPFRAME + field r) = m.reg r := by
  let m₁ := m.mv .sscratch .a0 |>.li .a0 TRAPFRAME
  have hrow : ∀ r ∈ userRegs, (m₁.save field .a0 userRegs).mem (TRAPFRAME + field r) = m₁.reg r :=
    Machine.save_mem field_injective.injOn
  rw [uservec, Machine.save_eq]
  generalize (m₁.save field .a0 userRegs).mem = M at hrow ⊢
  -- the store of the user's `a0` is the last one
  change ∀ r ∈ Reg.a0 :: userRegs,
    Function.update M (TRAPFRAME + field .a0) (m.reg .a0) (TRAPFRAME + field r) = m.reg r
  rw [List.forall_mem_cons]
  refine ⟨Function.update_self _ _ _, fun r hr => ?_⟩
  obtain ⟨ha0, hscratch⟩ := ne_of_mem_userRegs r hr
  rw [Function.update_of_ne fun h => ha0 (field_injective (add_left_cancel h)), hrow r hr]
  exact (Function.update_of_ne ha0 _ _).trans (Function.update_of_ne hscratch _ _)

theorem userret_reg (m : Hart) :
    ∀ r ∈ Reg.a0 :: userRegs, (userret m).reg r = m.mem (TRAPFRAME + field r) := by
  rw [userret, Machine.restore_eq (by decide), List.forall_mem_cons]
  refine ⟨rfl, fun r hr => ?_⟩
  exact (Function.update_of_ne (ne_of_mem_userRegs r hr).1 _ _).trans (if_pos hr)

/-- **A trap is transparent to the user program.** Whatever the kernel does, if it leaves the saved
registers but `a0` in the trap frame, they are back on return, and `a0` is the result. -/
theorem trap_round_trip {m k : Hart}
    (h : ∀ r ∈ userRegs, k.mem (TRAPFRAME + field r) = (uservec m).mem (TRAPFRAME + field r)) :
    (uservec m).mem (TRAPFRAME + field .a0) = m.reg .a0 ∧
    (userret k).reg .a0 = k.mem (TRAPFRAME + field .a0) ∧
    ∀ r ∈ userRegs, (userret k).reg r = m.reg r := by
  refine ⟨uservec_mem m .a0 List.mem_cons_self, userret_reg k .a0 List.mem_cons_self, ?_⟩
  intro r hr
  have hr' := List.mem_cons_of_mem Reg.a0 hr
  rw [userret_reg k r hr', h r hr, uservec_mem m r hr']

/-- The kernel returns 5. -/
theorem trap_round_trip_five : ∃ m' : Hart, (userret m').reg .a0 = 5 ∧
    ∀ r ∈ userRegs, (userret m').reg r = field r := by
  let m : Hart := ⟨field, fun _ => 0⟩
  let m' : Hart := ⟨m.reg, Function.update (uservec m).mem (TRAPFRAME + field .a0) 5⟩
  have hframe : ∀ r ∈ userRegs,
      m'.mem (TRAPFRAME + field r) = (uservec m).mem (TRAPFRAME + field r) := by
    intro r hr
    refine Function.update_of_ne (fun h => ?_) _ _
    exact (ne_of_mem_userRegs r hr).1 (field_injective (add_left_cancel h))
  obtain ⟨-, ha0, hregs⟩ := trap_round_trip hframe
  refine ⟨m', ha0.trans ?_, hregs⟩
  exact Function.update_self (TRAPFRAME + field .a0) 5 (uservec m).mem

end Xv6.Asm
