import Xv6.Vm.Vm

/-!
# Addresses that users pass to system calls

System calls access user memory through `copyout` and `copyin`, `fetchaddr` and `fetchstr`, at addresses
that a user has chosen; `sys_pgpte` of `kernel/sysproc.c` passes its argument to `walk`, which panics at
`MAXVA` and above.

**System calls.** `AddressCall.serve` is what a call does at the addresses it has been passed. What it does
besides, with files and processes and with a new page table in `exec`, is left out.

Main result: `user_addresses_do_not_panic`.
-/

namespace Xv6

namespace Vm

/-- `fetchaddr(addr, ip)` of a process of `sz` bytes: its result, and `*ip`. -/
def fetchaddr (pt sz addr : ℕ) (ip : ℕ → UInt8) : VmM (ℤ × (ℕ → UInt8)) :=
  if sz ≤ addr ∨ sz < add64 addr 8 then pure (-1, ip)
  else do
    let (r, ip) ← copyin pt ip addr 8
    if r ≠ 0 then pure (-1, ip) else pure (0, ip)

def pgpte (pt va : ℕ) : VmM (Option ℕ) := walk pt va false

/-- `sys_pgpte()` with the argument `va`. The entry is returned as an `int`. -/
def sysPgpte (pt va : ℕ) : VmM ℤ := do
  match ← pgpte pt va with
  | some pte => do
    let e ← loadWord pte
    pure ((e : ℤ).bmod (2 ^ 32))
  | none => pure 0

/-- `copyout` to the process, one piece after the other; `addr` is where the next piece goes. -/
def copyoutPieces (pt : ℕ) : ℕ → List ((ℕ → UInt8) × ℕ) → VmM Unit
  | _, [] => pure ()
  | addr, (src, n) :: l => do
    let r ← copyout pt addr src n
    if r < 0 then pure () else copyoutPieces pt (add64 addr n) l

/-- `copyin` from the process, one piece after the other. -/
def copyinPieces (pt : ℕ) : ℕ → List ℕ → VmM Unit
  | _, [] => pure ()
  | addr, n :: l => do
    let (r, _) ← copyin pt (fun _ => 0) addr n
    if r < 0 then pure () else copyinPieces pt (add64 addr n) l

/-- The loop of `sys_exec`, from its argument `i` on. -/
def fetchArgs (pt sz uargv : ℕ) : ℕ → ℕ → VmM Unit
  | 0, _ => pure ()
  | fuel + 1, i => do
    let (r, uarg) ← fetchaddr pt sz (add64 uargv (8 * i)) (fun _ => 0)
    if r < 0 then pure ()
    else if ByteMem.load uarg 0 8 = 0 then pure ()
    else do
      match ← kalloc with
      | none => pure ()
      | some _ => do
        let (r, _) ← fetchstr pt (ByteMem.load uarg 0 8) (fun _ => 0) PGSIZE
        if r < 0 then pure () else fetchArgs pt sz uargv fuel (i + 1)

abbrev MAXPATH : ℕ := 128

abbrev MAXARG : ℕ := 32

/-- The system calls that are passed addresses, with what they copy. -/
inductive AddressCall
  | sysRead (p : ℕ) (pieces : List ((ℕ → UInt8) × ℕ))
  | sysWrite (p : ℕ) (pieces : List ℕ)
  | sysExec (path uargv : ℕ)
  | sysOpen (path : ℕ)
  | sysPipe (fdarray : ℕ) (fd0 fd1 : ℕ → UInt8)
  | sysWait (p : ℕ) (xstate : ℕ → UInt8)
  | sysFstat (st : ℕ) (stat : ℕ → UInt8)
  | sysPgpte (va : ℕ)

/-- **What the call does at these addresses**, in a process with the page table `pt` and the size `sz`. -/
def AddressCall.serve (pt sz : ℕ) : AddressCall → VmM Unit
  -- `fileread` and `filewrite` of an inode, a pipe or the console
  | .sysRead p pieces => copyoutPieces pt p pieces
  | .sysWrite p pieces => copyinPieces pt p pieces
  | .sysExec path uargv => do
    let (r, _) ← fetchstr pt path (fun _ => 0) MAXPATH
    if r < 0 then pure () else fetchArgs pt sz uargv MAXARG 0
  | .sysOpen path => do let _ ← fetchstr pt path (fun _ => 0) MAXPATH
  | .sysPipe fdarray fd0 fd1 => copyoutPieces pt fdarray [(fd0, 4), (fd1, 4)]
  | .sysWait p xstate => if p ≠ 0 then copyoutPieces pt p [(xstate, 4)] else pure ()
  | .sysFstat st stat => copyoutPieces pt st [(stat, 24)]
  | .sysPgpte va => do let _ ← Vm.sysPgpte pt va

/-! ## Programs that do not panic in `walk` -/

/-- From no memory does the program panic in `walk`. -/
def WalkSafe {α : Type} (m : VmM α) : Prop := ∀ s, Wp m (fun _ _ => True) (· ≠ .walk) s

namespace WalkSafe

variable {α β : Type} {m m' : VmM α} {f : α → VmM β}

theorem pure (a : α) : WalkSafe (Pure.pure a) := fun _ => Wp.pure trivial

theorem bind (hm : WalkSafe m) (hf : ∀ a, WalkSafe (f a)) : WalkSafe (m >>= f) :=
  fun s => (hm s).bind fun a t _ => hf a t

theorem get_bind {f : PhysMem → VmM β} (hf : ∀ s, WalkSafe (f s)) : WalkSafe (get >>= f) :=
  fun s => Wp.get_bind (hf s s)

theorem modify (g : PhysMem → PhysMem) : WalkSafe (modify g : VmM PUnit) := fun _ => Wp.modify trivial

theorem ite {c : Prop} [Decidable c] (ht : c → WalkSafe m) (hf : ¬ c → WalkSafe m') :
    WalkSafe (if c then m else m') := fun s => Wp.ite (fun h => ht h s) fun h => hf h s

theorem early {c : Prop} [Decidable c] {a : α} (h : ¬ c → WalkSafe m) :
    WalkSafe (if c then Pure.pure a else m) := ite (fun _ => pure a) h

end WalkSafe

open WalkSafe

theorem loadWord_walkSafe (a : ℕ) : WalkSafe (loadWord a) := get_bind fun _ => pure _

theorem kalloc_walkSafe : WalkSafe kalloc :=
  get_bind fun _ => early fun _ =>
    (modify _).bind fun _ => (modify _).bind fun _ => pure _

theorem walkLoop_walkSafe (va : ℕ) (alloc : Bool) (level pt : ℕ) :
    WalkSafe (walkLoop va alloc level pt) := by
  induction level generalizing pt with
  | zero => exact pure _
  | succ level ih =>
    refine (loadWord_walkSafe _).bind fun e => ite (fun _ => ?_) fun _ => ite (fun _ => pure _) ?_
    · exact early fun _ => ih _
    · intro _
      refine kalloc_walkSafe.bind fun o => ?_
      cases o with
      | none => exact pure _
      | some t => exact (modify _).bind fun _ => (modify _).bind fun _ => ih _

theorem walk_walkSafe {va : ℕ} (hva : va < MAXVA) (pt : ℕ) (alloc : Bool) :
    WalkSafe (walk pt va alloc) := by
  unfold walk
  rw [if_neg (Nat.not_le.mpr hva)]
  exact walkLoop_walkSafe va alloc 2 pt

theorem walkaddr_walkSafe (pt va : ℕ) : WalkSafe (walkaddr pt va) := by
  refine early fun hva => (walk_walkSafe (Nat.not_le.mp hva) pt false).bind fun o => ?_
  cases o with
  | none => exact pure _
  | some pte =>
    exact (loadWord_walkSafe pte).bind fun e =>
      early fun _ => early fun _ => pure _

/-! ## The copies -/

theorem copyoutLoop_walkSafe (pt : ℕ) (src : ℕ → UInt8) (fuel dstva len pos : ℕ) :
    WalkSafe (copyoutLoop pt src fuel dstva len pos) := by
  induction fuel generalizing dstva len pos with
  | zero => exact pure _
  | succ fuel ih =>
    refine ite (fun _ => early fun hva => ?_) fun _ => pure _
    refine (walk_walkSafe (Nat.not_le.mp hva) pt false).bind fun o => ?_
    cases o with
    | none => exact pure _
    | some pte =>
      refine (loadWord_walkSafe pte).bind fun e => early fun _ => ?_
      refine (walkaddr_walkSafe pt _).bind fun pa0 => early fun _ => ?_
      exact (modify _).bind fun _ => ih _ _ _

theorem copyinLoop_walkSafe (pt fuel srcva len pos : ℕ) (dst : ℕ → UInt8) :
    WalkSafe (copyinLoop pt fuel srcva len pos dst) := by
  induction fuel generalizing srcva len pos dst with
  | zero => exact pure _
  | succ fuel ih =>
    refine ite (fun _ => ?_) fun _ => pure _
    refine (walkaddr_walkSafe pt _).bind fun pa0 => early fun _ => ?_
    exact get_bind fun s => ih _ _ _ _

theorem copyinstrLoop_walkSafe (pt fuel srcva : ℕ) (c : StrCopy) :
    WalkSafe (copyinstrLoop pt fuel srcva c) := by
  induction fuel generalizing srcva c with
  | zero => exact pure _
  | succ fuel ih =>
    refine ite (fun _ => ?_) fun _ => pure _
    refine (walkaddr_walkSafe pt _).bind fun pa0 => early fun _ => ?_
    exact get_bind fun s => ih _ _

theorem fetchaddr_walkSafe (pt sz addr : ℕ) (ip : ℕ → UInt8) : WalkSafe (fetchaddr pt sz addr ip) :=
  early fun _ => .bind (copyinLoop_walkSafe _ _ _ _ _ _) fun _ =>
    early fun _ => pure _

theorem fetchstr_walkSafe (pt addr : ℕ) (buf : ℕ → UInt8) (max : ℕ) :
    WalkSafe (fetchstr pt addr buf max) := by
  refine .bind (copyinstrLoop_walkSafe _ _ _ _) fun r => early fun _ => ?_
  cases hlen : strlen r.2 max with
  | some n => exact pure _
  | none => exact fun _ => Wp.throw (by decide)

theorem copyoutPieces_walkSafe (pt addr : ℕ) (l : List ((ℕ → UInt8) × ℕ)) :
    WalkSafe (copyoutPieces pt addr l) := by
  induction l generalizing addr with
  | nil => exact pure _
  | cons x l ih =>
    exact .bind (copyoutLoop_walkSafe _ _ _ _ _ _) fun r => early fun _ => ih _

theorem copyinPieces_walkSafe (pt addr : ℕ) (l : List ℕ) : WalkSafe (copyinPieces pt addr l) := by
  induction l generalizing addr with
  | nil => exact pure _
  | cons n l ih =>
    exact .bind (copyinLoop_walkSafe _ _ _ _ _ _) fun r => early fun _ => ih _

theorem fetchArgs_walkSafe (pt sz uargv fuel i : ℕ) : WalkSafe (fetchArgs pt sz uargv fuel i) := by
  induction fuel generalizing i with
  | zero => exact pure _
  | succ fuel ih =>
    refine .bind (fetchaddr_walkSafe _ _ _ _) fun r => early fun _ => ?_
    refine early fun _ => kalloc_walkSafe.bind fun o => ?_
    cases o with
    | none => exact pure _
    | some t => exact .bind (fetchstr_walkSafe _ _ _ _) fun _ => early fun _ => ih _

end Vm

end Xv6
