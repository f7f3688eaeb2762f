import Xv6.Lib.ByteMem
import Xv6.Lib.Wp

/-!
# Physical pages and page tables

`kernel/kalloc.c`, `kernel/vm.c` and the macros of `kernel/riscv.h` and `kernel/memlayout.h` that they
use, for the configuration of `conf/lab.mk` (`LAB_PGTBL` is defined). A function is a program with the
physical memory as its state (`PhysMem`) that may stop with a panic (`VmPanic`).

**Memory.** Physical memory is bytes by address. Free pages are linked through their first word, and page
tables are pages of 64-bit words in little-endian order, so that a stray write corrupts both here as it
does there. The kernel maps physical memory at its own addresses: a `void *` is a physical address.

**Numbers.** A `uint64` is a natural number; sums wrap (`add64`). An address that may be 0 is an
`Option` where the code tests for 0 at once.

**Kernel buffers.** What `copyout` reads and what `copyin` and `copyinstr` write is a buffer of the
kernel, a function from offsets that is kept apart from the pages of users.

The spin lock of the free list is left out: each function below takes and returns pages one at a time.
The loops have a bound on the number of their iterations that they do not reach.
-/

open ByteMem

namespace Xv6

/-! ## Constants -/

abbrev PGSIZE : ℕ := 4096

abbrev PGSHIFT : ℕ := 12

/-- One beyond the highest possible virtual address. -/
abbrev MAXVA : ℕ := 1 <<< (9 + 9 + 9 + 12 - 1)

abbrev KERNBASE : ℕ := 0x80000000

abbrev PHYSTOP : ℕ := KERNBASE + 128 * 1024 * 1024

/-- Where the linker has put the kernel: `end`, and the page of `trampoline.S`. -/
structure KernelImage where
  kend : ℕ
  trampoline : ℕ
  trampoline_aligned : trampoline % PGSIZE = 0
  trampoline_pos : 0 < trampoline
  trampoline_lt : trampoline + PGSIZE ≤ kend
  kend_le : kend ≤ PHYSTOP

inductive VmPanic
  | kfree
  | walk
  | mappagesVa
  | mappagesSizeNotAligned
  | mappagesSize
  | mappagesRemap
  | uvmunmapNotAligned
  | uvmunmapWalk
  | uvmunmapNotMapped
  | uvmunmapNotLeaf
  /-- `strlen` has read past the buffer -/
  | strlenPast
  deriving DecidableEq, Repr

/-- Physical memory, and `kmem.freelist`. -/
structure PhysMem where
  mem : ℕ → UInt8
  freelist : ℕ

abbrev VmM := StateT PhysMem (Except VmPanic)

/-- Store `n` bytes from the address `a` on. -/
def PhysMem.put (s : PhysMem) (a n : ℕ) (f : ℕ → UInt8) : PhysMem :=
  { s with mem := ByteMem.put s.mem a n f }

namespace Vm

/-! ## Numbers -/

def add64 (a b : ℕ) : ℕ := (a + b) % 2 ^ 64

/-- `PGROUNDUP(sz)`: the low bits are cleared. -/
def pgroundup (sz : ℕ) : ℕ := add64 sz (PGSIZE - 1) / PGSIZE * PGSIZE

def pgrounddown (a : ℕ) : ℕ := a / PGSIZE * PGSIZE

/-! ## Page table entries -/

abbrev PTE_V : ℕ := 1 <<< 0

abbrev PTE_R : ℕ := 1 <<< 1

abbrev PTE_W : ℕ := 1 <<< 2

abbrev PTE_X : ℕ := 1 <<< 3

/-- The user can access it. -/
abbrev PTE_U : ℕ := 1 <<< 4

/-- `pte & flags`, as a condition. -/
abbrev Has (pte flags : ℕ) : Prop := pte &&& flags ≠ 0

/-- `PTE_LEAF(pte)` -/
abbrev Leaf (pte : ℕ) : Prop := pte &&& PTE_R ||| pte &&& PTE_W ||| pte &&& PTE_X ≠ 0

def pa2pte (pa : ℕ) : ℕ := (pa >>> 12) <<< 10

def pte2pa (pte : ℕ) : ℕ := ((pte >>> 10) <<< 12) % 2 ^ 64

def pteFlags (pte : ℕ) : ℕ := pte &&& 0x3FF

def px (level va : ℕ) : ℕ := (va >>> (PGSHIFT + 9 * level)) &&& 0x1FF

/-! ## Memory -/

/-- `*(uint64 *)a` -/
def loadWord (a : ℕ) : VmM ℕ := do
  let s ← get
  pure (load s.mem a 8)

/-- `*(uint64 *)a = w` -/
def storeWord (a w : ℕ) : VmM Unit := modify fun s => s.put a 8 (digits w)

def memset (a : ℕ) (c : UInt8) (n : ℕ) : VmM Unit := modify fun s => s.put a n fun _ => c

/-- `memmove` into a page from `f`. -/
def memmove (a : ℕ) (f : ℕ → UInt8) (n : ℕ) : VmM Unit := modify fun s => s.put a n f

/-! ## `kalloc.c` -/

def kfree (k : KernelImage) (pa : ℕ) : VmM Unit :=
  if pa % PGSIZE ≠ 0 ∨ pa < k.kend ∨ PHYSTOP ≤ pa then throw .kfree
  else do
    memset pa 1 PGSIZE
    let s ← get
    storeWord pa s.freelist
    modify fun s => { s with freelist := pa }

def kalloc : VmM (Option ℕ) := do
  let s ← get
  if s.freelist = 0 then pure none
  else do
    let r := s.freelist
    modify fun s => { s with freelist := load s.mem r 8 }
    memset r 5 PGSIZE
    pure (some r)

/-- The loop of `freerange`. -/
def freeLoop (k : KernelImage) (paEnd : ℕ) : ℕ → ℕ → VmM Unit
  | 0, _ => pure ()
  | fuel + 1, p =>
    if p + PGSIZE ≤ paEnd then do
      kfree k p
      freeLoop k paEnd fuel (p + PGSIZE)
    else pure ()

def freerange (k : KernelImage) (paStart paEnd : ℕ) : VmM Unit :=
  freeLoop k paEnd (paEnd / PGSIZE) (pgroundup paStart)

def kinit (k : KernelImage) : VmM Unit := freerange k k.kend PHYSTOP

/-! ## Page tables -/

/-- The loop of `walk`, which goes down from `level`. -/
def walkLoop (va : ℕ) (alloc : Bool) : ℕ → ℕ → VmM (Option ℕ)
  | 0, pt => pure (some (pt + 8 * px 0 va))
  | level + 1, pt => do
    let pte := pt + 8 * px (level + 1) va
    let e ← loadWord pte
    if Has e PTE_V then
      if Leaf e then pure (some pte)
      else walkLoop va alloc level (pte2pa e)
    else if !alloc then pure none
    else do
      match ← kalloc with
      | none => pure none
      | some pt => do
        memset pt 0 PGSIZE
        storeWord pte (pa2pte pt ||| PTE_V)
        walkLoop va alloc level pt

/-- The address of the PTE for `va`. -/
def walk (pt va : ℕ) (alloc : Bool) : VmM (Option ℕ) :=
  if MAXVA ≤ va then throw .walk else walkLoop va alloc 2 pt

def walkaddr (pt va : ℕ) : VmM ℕ :=
  if MAXVA ≤ va then pure 0
  else do
    match ← walk pt va false with
    | none => pure 0
    | some pte => do
      let e ← loadWord pte
      if ¬ Has e PTE_V then pure 0
      else if ¬ Has e PTE_U then pure 0
      else pure (pte2pa e)

/-- The loop of `mappages`. -/
def mapLoop (pt last perm : ℕ) : ℕ → ℕ → ℕ → VmM ℤ
  | 0, _, _ => pure 0
  | fuel + 1, a, pa => do
    match ← walk pt a true with
    | none => pure (-1)
    | some pte => do
      let e ← loadWord pte
      if Has e PTE_V then throw .mappagesRemap
      else do
        storeWord pte (pa2pte pa ||| perm ||| PTE_V)
        if a = last then pure 0 else mapLoop pt last perm fuel (add64 a PGSIZE) (add64 pa PGSIZE)

def mappages (pt va size pa perm : ℕ) : VmM ℤ :=
  if va % PGSIZE ≠ 0 then throw .mappagesVa
  else if size % PGSIZE ≠ 0 then throw .mappagesSizeNotAligned
  else if size = 0 then throw .mappagesSize
  else mapLoop pt (add64 va (size - PGSIZE)) perm (size / PGSIZE) va pa

/-- `if(do_free)` -/
def freeIf (k : KernelImage) (doFree : Bool) (pa : ℕ) : VmM Unit :=
  if doFree then kfree k pa else pure ()

/-- The loop of `uvmunmap`. -/
def unmapLoop (k : KernelImage) (pt stop : ℕ) (doFree : Bool) : ℕ → ℕ → VmM Unit
  | 0, _ => pure ()
  | fuel + 1, a =>
    if a < stop then do
      match ← walk pt a false with
      | none => throw .uvmunmapWalk
      | some pte => do
        let e ← loadWord pte
        if ¬ Has e PTE_V then throw .uvmunmapNotMapped
        else if pteFlags e = PTE_V then throw .uvmunmapNotLeaf
        else do
          freeIf k doFree (pte2pa e)
          storeWord pte 0
          unmapLoop k pt stop doFree fuel (add64 a PGSIZE)
    else pure ()

def uvmunmap (k : KernelImage) (pt va npages : ℕ) (doFree : Bool) : VmM Unit :=
  if va % PGSIZE ≠ 0 then throw .uvmunmapNotAligned
  else unmapLoop k pt (add64 va (npages * PGSIZE)) doFree npages va

def uvmcreate : VmM (Option ℕ) := do
  match ← kalloc with
  | none => pure none
  | some pt => do
    memset pt 0 PGSIZE
    pure (some pt)

/-! ## Copies between the kernel and users -/

/-- The loop of `copyout`: `pos` bytes of `src` have been copied. -/
def copyoutLoop (pt : ℕ) (src : ℕ → UInt8) : ℕ → ℕ → ℕ → ℕ → VmM ℤ
  | 0, _, _, _ => pure 0
  | fuel + 1, dstva, len, pos =>
    if len > 0 then do
      let va0 := pgrounddown dstva
      if va0 ≥ MAXVA then pure (-1)
      else do
        match ← walk pt va0 false with
        | none => pure (-1)
        | some pte => do
          let e ← loadWord pte
          if ¬ Has e PTE_W then pure (-1)
          else do
            let pa0 ← walkaddr pt va0
            if pa0 = 0 then pure (-1)
            else do
              let n := min (PGSIZE - (dstva - va0)) len
              memmove (pa0 + (dstva - va0)) (fun j => src (pos + j)) n
              copyoutLoop pt src fuel (add64 va0 PGSIZE) (len - n) (pos + n)
    else pure 0

/-- Copy from the kernel to user address `dstva`. -/
def copyout (pt dstva : ℕ) (src : ℕ → UInt8) (len : ℕ) : VmM ℤ := copyoutLoop pt src len dstva len 0

/-- The loop of `copyin`, with `dst` as it is after `pos` bytes. -/
def copyinLoop (pt : ℕ) : ℕ → ℕ → ℕ → ℕ → (ℕ → UInt8) → VmM (ℤ × (ℕ → UInt8))
  | 0, _, _, _, dst => pure (0, dst)
  | fuel + 1, srcva, len, pos, dst =>
    if len > 0 then do
      let va0 := pgrounddown srcva
      let pa0 ← walkaddr pt va0
      if pa0 = 0 then pure (-1, dst)
      else do
        let n := min (PGSIZE - (srcva - va0)) len
        let s ← get
        copyinLoop pt fuel (add64 va0 PGSIZE) (len - n) (pos + n)
          (put dst pos n fun j => s.mem (pa0 + (srcva - va0) + j))
    else pure (0, dst)

/-- Copy from user address `srcva` to the kernel. -/
def copyin (pt : ℕ) (dst : ℕ → UInt8) (srcva len : ℕ) : VmM (ℤ × (ℕ → UInt8)) :=
  copyinLoop pt len srcva len 0 dst

/-- The variables of `copyinstr` that its inner loop changes. -/
structure StrCopy where
  gotNull : Bool
  max : ℕ
  /-- the offset of `dst` -/
  pos : ℕ
  dst : ℕ → UInt8

/-- The inner loop of `copyinstr`: `n` bytes at `p` at most. -/
def copyPiece (m : ℕ → UInt8) : ℕ → ℕ → StrCopy → StrCopy
  | 0, _, c => c
  | n + 1, p, c =>
    if m p = 0 then { c with gotNull := true, dst := Function.update c.dst c.pos 0 }
    else copyPiece m n (p + 1)
      { c with max := c.max - 1, pos := c.pos + 1, dst := Function.update c.dst c.pos (m p) }

/-- The outer loop of `copyinstr`. -/
def copyinstrLoop (pt : ℕ) : ℕ → ℕ → StrCopy → VmM (ℤ × (ℕ → UInt8))
  | 0, _, c => pure (if c.gotNull then 0 else -1, c.dst)
  | fuel + 1, srcva, c =>
    if c.gotNull = false ∧ c.max > 0 then do
      let va0 := pgrounddown srcva
      let pa0 ← walkaddr pt va0
      if pa0 = 0 then pure (-1, c.dst)
      else do
        let n := min (PGSIZE - (srcva - va0)) c.max
        let s ← get
        copyinstrLoop pt fuel (add64 va0 PGSIZE) (copyPiece s.mem n (pa0 + (srcva - va0)) c)
    else pure (if c.gotNull then 0 else -1, c.dst)

/-- Copy a string from user address `srcva`, `max` bytes at most. -/
def copyinstr (pt : ℕ) (dst : ℕ → UInt8) (srcva max : ℕ) : VmM (ℤ × (ℕ → UInt8)) :=
  copyinstrLoop pt (max + 1) srcva ⟨false, max, 0, dst⟩

/-- `strlen(buf)`, if there is a NUL among the first `max` bytes. -/
def strlen (buf : ℕ → UInt8) (max : ℕ) : Option ℕ := (List.range max).find? fun j => buf j = 0

/-- `fetchstr(addr, buf, max)` of the process with this page table. It is an error of its own if `strlen`
does not find a NUL in the buffer. -/
def fetchstr (pt addr : ℕ) (buf : ℕ → UInt8) (max : ℕ) : VmM (ℤ × (ℕ → UInt8)) := do
  let (r, buf) ← copyinstr pt buf addr max
  if r < 0 then pure (-1, buf)
  else
    match strlen buf max with
    | some n => pure (n, buf)
    | none => throw .strlenPast

/-- `argstr(n, buf, max)` with the registers `a0` to `a5` of the trapframe. -/
def argstr (pt : ℕ) (a : Fin 6 → ℕ) (n : Fin 6) (buf : ℕ → UInt8) (max : ℕ) :
    VmM (ℤ × (ℕ → UInt8)) := fetchstr pt (a n) buf max

end Vm

end Xv6
