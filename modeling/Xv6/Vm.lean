import Xv6.Param
import Mathlib.Data.Fin.Basic
import Mathlib.Tactic.Simps.Basic

/-!
# Virtual memory

The page allocator (`kalloc.c`) and the page tables (`vm.c`), over physical memory. A physical address is a page number and an offset, so
a page-table entry holds a page number. A page is used as bytes or as a table of 512 entries; a page that `memset` has cleared is
written as what it is used as next, and code that reads the one as the other stops. `kalloc` fails when its list is empty, and also
wherever `fail` says so. A `uint64` is a number, reduced where the source's arithmetic can wrap.
-/

namespace Xv6.Vm

def PGSIZE : Nat := 4096

/-- One beyond the highest virtual address. -/
def MAXVA : Nat := 2 ^ 38

def TRAMPOLINE : Nat := MAXVA - PGSIZE

def TRAPFRAME : Nat := TRAMPOLINE - PGSIZE

/-- The value of an expression of type `uint64`. -/
def u64 (x : Int) : Nat := (x % 2 ^ 64).toNat

def pgroundup (sz : Nat) : Nat := (sz + PGSIZE - 1) % 2 ^ 64 / PGSIZE * PGSIZE

def pgrounddown (a : Nat) : Nat := a / PGSIZE * PGSIZE

/-- The index into a page table of a level. -/
def PX (level va : Nat) : Fin 512 := ⟨va / 2 ^ (12 + 9 * level) % 512, Nat.mod_lt _ (by decide)⟩

/-- The flag bits of a page-table entry. -/
structure Perm where
  v : Bool
  r : Bool
  w : Bool
  x : Bool
  u : Bool
  deriving DecidableEq

instance : OrOp Perm := ⟨fun a b => ⟨a.v || b.v, a.r || b.r, a.w || b.w, a.x || b.x, a.u || b.u⟩⟩

def PTE_V : Perm := ⟨true, false, false, false, false⟩
def PTE_R : Perm := ⟨false, true, false, false, false⟩
def PTE_W : Perm := ⟨false, false, true, false, false⟩
def PTE_X : Perm := ⟨false, false, false, true, false⟩
def PTE_U : Perm := ⟨false, false, false, false, true⟩

/-- `pte_t`: the page `PTE2PA(pte)` and `PTE_FLAGS(pte)`. -/
structure Pte where
  ppn : Nat
  flags : Perm
  deriving DecidableEq

/-- The entry 0. -/
def Pte.zero : Pte := ⟨0, ⟨false, false, false, false, false⟩⟩

/-- What a page holds. -/
inductive Page where
  | bytes (f : Nat → Byte)
  | table (f : Fin 512 → Pte)

/-- Physical memory, the list of free pages, whether each of the coming calls of `kalloc` fails for another reason than an empty list,
the bounds of the pages that may be freed, and the page of the trampoline. `nomem` says that some `kalloc` has failed. -/
structure Memory where
  mem : Nat → Page
  freelist : List Nat
  fail : Nat → Bool
  kend : Nat
  phystop : Nat
  trampoline : Nat
  nomem : Bool

/-- The panics of the functions below; `confused` stands for a read of bytes as page-table entries, or the reverse. -/
inductive Panic where
  | kfree
  | walk
  | mappagesVa
  | mappagesSize
  | mappagesZero
  | remap
  | uvmunmap
  | freewalkLeaf
  | uvmclear
  | loadseg
  | confused
  deriving DecidableEq

abbrev VmM := StateT Memory (Except Panic)

/-! ### Pages -/

@[simps] def Memory.setPage (s : Memory) (p : Nat) (page : Page) : Memory := { s with mem := Function.update s.mem p page }

/-- The page is written as a whole. -/
def writePage (p : Nat) (page : Page) : VmM Unit := fun s => .ok ((), s.setPage p page)

/-- The bytes of a page. -/
def readPage (p : Nat) : VmM (Nat → Byte) := fun s =>
  match s.mem p with
  | .bytes f => .ok (f, s)
  | .table _ => .error .confused

/-- `*pte`, for entry `i` of the table in page `p`. -/
def readPte (pte : Nat × Fin 512) : VmM Pte := fun s =>
  match s.mem pte.1 with
  | .table f => .ok (f pte.2, s)
  | .bytes _ => .error .confused

/-- `*pte = e`. -/
def writePte (pte : Nat × Fin 512) (e : Pte) : VmM Unit := fun s =>
  match s.mem pte.1 with
  | .table f => .ok ((), s.setPage pte.1 (.table (Function.update f pte.2 e)))
  | .bytes _ => .error .confused

/-- `memmove` of `src` to place `i` of a page. -/
def writeBytes (p i : Nat) (src : List Byte) : VmM Unit := do
  let f ← readPage p
  writePage p (.bytes fun j => if i ≤ j ∧ j < i + src.length then src.getD (j - i) 0 else f j)

/-- `memmove` of `n` bytes from place `i` of a page. -/
def readBytes (p i n : Nat) : VmM (List Byte) := do
  let f ← readPage p
  pure ((List.range n).map fun j => f (i + j))

/-! ### `kalloc.c` -/

/-- The next call of `kalloc` has been made. -/
@[simps] def Memory.called (s : Memory) (nomem : Bool) : Memory := { s with fail := fun n => s.fail (n + 1), nomem := s.nomem || nomem }

@[simps] def Memory.setFreelist (s : Memory) (l : List Nat) : Memory := { s with freelist := l }

/-- `kalloc`: the page, filled with 5, or 0. -/
def kalloc : VmM (Option Nat) := fun s =>
  if s.fail 0 then .ok (none, s.called true)
  else
    match s.freelist with
    | [] => .ok (none, s.called true)
    | r :: rest => .ok (some r, ((s.called false).setFreelist rest).setPage r (.bytes fun _ => 5))

/-- `kfree`: the page is filled with 1 and put at the head of the list. -/
def kfree (pa : Nat) : VmM Unit := fun s =>
  if pa < s.kend ∨ s.phystop ≤ pa then .error .kfree else .ok ((), (s.setPage pa (.bytes fun _ => 1)).setFreelist (pa :: s.freelist))

/-! ### Page tables -/

/-- The loop of `walk`, from a table at `level` down. -/
def walkFrom (va : Nat) (alloc : Bool) : Nat → Nat → VmM (Option (Nat × Fin 512))
  | 0, pagetable => pure (some (pagetable, PX 0 va))
  | level + 1, pagetable => do
    let pte ← readPte (pagetable, PX (level + 1) va)
    if pte.flags.v then walkFrom va alloc level pte.ppn
    else if alloc then
      match ← kalloc with
      | none => pure none
      | some child =>
        writePage child (.table fun _ => .zero)
        writePte (pagetable, PX (level + 1) va) ⟨child, PTE_V⟩
        walkFrom va alloc level child
    else pure none

def walk (pagetable va : Nat) (alloc : Bool) : VmM (Option (Nat × Fin 512)) :=
  if MAXVA ≤ va then throw .walk else walkFrom va alloc 2 pagetable

def walkaddr (pagetable va : Nat) : VmM (Option Nat) :=
  if MAXVA ≤ va then pure none
  else do
    match ← walk pagetable va false with
    | none => pure none
    | some pte =>
      let e ← readPte pte
      pure (if e.flags.v = false then none else if e.flags.u = false then none else some e.ppn)

/-- The loop of `mappages`, with `n` pages to come after the one at `a`; whether it succeeds. -/
def mappagesLoop (pagetable : Nat) (perm : Perm) : Nat → Nat → Nat → VmM Bool
  | n, a, pa => do
    match ← walk pagetable a true with
    | none => pure false
    | some pte =>
      if (← readPte pte).flags.v then throw .remap
      else
        writePte pte ⟨pa, perm ||| PTE_V⟩
        match n with
        | 0 => pure true
        | n + 1 => mappagesLoop pagetable perm n (a + PGSIZE) (pa + 1)

def mappages (pagetable va size pa : Nat) (perm : Perm) : VmM Bool :=
  if va % PGSIZE ≠ 0 then throw .mappagesVa
  else if size % PGSIZE ≠ 0 then throw .mappagesSize
  else if size = 0 then throw .mappagesZero
  else mappagesLoop pagetable perm (size / PGSIZE - 1) va pa

def uvmcreate : VmM (Option Nat) := do
  match ← kalloc with
  | none => pure none
  | some pagetable =>
    writePage pagetable (.table fun _ => .zero)
    pure (some pagetable)

/-- The body of the loop of `uvmunmap`. -/
def unmapPage (pagetable a : Nat) (doFree : Bool) : VmM Unit := do
  match ← walk pagetable a false with
  | none => pure ()
  | some pte =>
    let e ← readPte pte
    if e.flags.v then
      if doFree then kfree e.ppn
      writePte pte .zero

/-- The loop of `uvmunmap`, with `n` pages to come. -/
def uvmunmapLoop (pagetable : Nat) (doFree : Bool) : Nat → Nat → VmM Unit
  | 0, _ => pure ()
  | n + 1, a => do
    unmapPage pagetable a doFree
    uvmunmapLoop pagetable doFree n (a + PGSIZE)

def uvmunmap (pagetable va npages : Nat) (doFree : Bool) : VmM Unit :=
  if va % PGSIZE ≠ 0 then throw .uvmunmap else uvmunmapLoop pagetable doFree npages va

def uvmdealloc (pagetable oldsz newsz : Nat) : VmM Nat :=
  if oldsz ≤ newsz then pure oldsz
  else do
    if pgroundup newsz < pgroundup oldsz then
      uvmunmap pagetable (pgroundup newsz) ((pgroundup oldsz - pgroundup newsz) / PGSIZE) true
    pure newsz

/-- The loop of `uvmalloc`, with `n` pages to come; whether it reaches the end. -/
def uvmallocLoop (pagetable oldsz : Nat) (xperm : Perm) : Nat → Nat → VmM Bool
  | 0, _ => pure true
  | n + 1, a => do
    match ← kalloc with
    | none =>
      let _ ← uvmdealloc pagetable a oldsz
      pure false
    | some mem =>
      writePage mem (.bytes fun _ => 0)
      if ← mappages pagetable a PGSIZE mem (PTE_R ||| PTE_U ||| xperm) then uvmallocLoop pagetable oldsz xperm n (a + PGSIZE)
      else
        kfree mem
        let _ ← uvmdealloc pagetable a oldsz
        pure false

/-- `uvmalloc`. The loop stops when it has passed `newsz`; long before an address could wrap `walk` stops it. -/
def uvmalloc (pagetable oldsz newsz : Nat) (xperm : Perm) : VmM Nat :=
  if newsz < oldsz then pure oldsz
  else do
    let ok ← uvmallocLoop pagetable (pgroundup oldsz) xperm ((newsz + PGSIZE - 1) / PGSIZE - pgroundup oldsz / PGSIZE) (pgroundup oldsz)
    pure (if ok then newsz else 0)

/-- The body of the loop of `freewalk`; `freewalk` itself frees the tables below. -/
def freeEntry (freewalk : Nat → VmM Unit) (pagetable : Nat) (i : Fin 512) : VmM Unit := do
  let pte ← readPte (pagetable, i)
  if pte.flags.v && !(pte.flags.r || pte.flags.w || pte.flags.x) then
    freewalk pte.ppn
    writePte (pagetable, i) .zero
  else if pte.flags.v then throw .freewalkLeaf

/-- `i = 0; i < 512; i++`, as a list that is not unfolded in proofs. -/
@[irreducible] def indices : List (Fin 512) := List.finRange 512

/-- `freewalk`, on a table with at most `depth` levels below it. -/
def freewalk : Nat → Nat → VmM Unit
  | 0, _ => throw .confused
  | depth + 1, pagetable => do
    indices.forM (freeEntry (freewalk depth) pagetable)
    kfree pagetable

def uvmfree (pagetable sz : Nat) : VmM Unit := do
  if 0 < sz then uvmunmap pagetable 0 (pgroundup sz / PGSIZE) true
  freewalk 3 pagetable

/-- The loop of `uvmcopy`, with `n` pages to come; whether it reaches the end. -/
def uvmcopyLoop (old new : Nat) : Nat → Nat → VmM Bool
  | 0, _ => pure true
  | n + 1, i => do
    match ← walk old i false with
    | none => uvmcopyLoop old new n (i + PGSIZE)
    | some pte =>
      let e ← readPte pte
      if e.flags.v then
        match ← kalloc with
        | none =>
          uvmunmap new 0 (i / PGSIZE) true
          pure false
        | some mem =>
          let f ← readPage e.ppn
          writePage mem (.bytes f)
          if ← mappages new i PGSIZE mem e.flags then uvmcopyLoop old new n (i + PGSIZE)
          else
            kfree mem
            uvmunmap new 0 (i / PGSIZE) true
            pure false
      else uvmcopyLoop old new n (i + PGSIZE)

/-- `uvmcopy`: whether it succeeds. -/
def uvmcopy (old new sz : Nat) : VmM Bool := uvmcopyLoop old new ((sz + PGSIZE - 1) / PGSIZE) 0

def uvmclear (pagetable va : Nat) : VmM Unit := do
  match ← walk pagetable va false with
  | none => throw .uvmclear
  | some pte =>
    let e ← readPte pte
    writePte pte ⟨e.ppn, { e.flags with u := false }⟩

def ismapped (pagetable va : Nat) : VmM Bool := do
  match ← walk pagetable va false with
  | none => pure false
  | some pte => pure (← readPte pte).flags.v

/-- The fields of `struct proc` that say what memory the process has. -/
structure Mm where
  sz : Nat
  pagetable : Nat
  trapframe : Nat
  deriving DecidableEq

/-- `vmfault`, in process `p`. -/
def vmfault (p : Mm) (pagetable va : Nat) : VmM (Option Nat) :=
  if p.sz ≤ va then pure none
  else do
    let va := pgrounddown va
    if ← ismapped pagetable va then pure none
    else
      match ← kalloc with
      | none => pure none
      | some mem =>
        writePage mem (.bytes fun _ => 0)
        if ← mappages p.pagetable va PGSIZE mem (PTE_W ||| PTE_U ||| PTE_R) then pure (some mem)
        else
          kfree mem
          pure none

/-! ### Copies between the kernel and a process -/

/-- The page at `va0`: the one that is mapped, or one that `vmfault` maps. -/
def userPage (p : Mm) (pagetable va0 : Nat) : VmM (Option Nat) := do
  match ← walkaddr pagetable va0 with
  | some pa0 => pure (some pa0)
  | none => vmfault p pagetable va0

/-- The loop of `copyout`; an iteration takes at least one byte, so `src.length` of them are enough. -/
def copyoutLoop (p : Mm) (pagetable : Nat) : Nat → Nat → List Byte → VmM Bool
  | _, _, [] => pure true
  | 0, _, _ => pure false
  | fuel + 1, dstva, src => do
    let va0 := pgrounddown dstva
    if MAXVA ≤ va0 then pure false
    else
      match ← userPage p pagetable va0 with
      | none => pure false
      | some pa0 =>
        match ← walk pagetable va0 false with
        | none => throw .confused
        | some pte =>
          if (← readPte pte).flags.w = false then pure false
          else
            let n := min (PGSIZE - (dstva - va0)) src.length
            writeBytes pa0 (dstva - va0) (src.take n)
            copyoutLoop p pagetable fuel (va0 + PGSIZE) (src.drop n)

/-- `copyout` in process `p`: whether it succeeds. -/
def copyout (p : Mm) (pagetable dstva : Nat) (src : List Byte) : VmM Bool := copyoutLoop p pagetable src.length dstva src

/-- The loop of `copyin`; the bytes copied. -/
def copyinLoop (p : Mm) (pagetable : Nat) : Nat → Nat → Nat → VmM (Option (List Byte))
  | _, _, 0 => pure (some [])
  | 0, _, _ => pure none
  | fuel + 1, srcva, len => do
    let va0 := pgrounddown srcva
    match ← userPage p pagetable va0 with
    | none => pure none
    | some pa0 =>
      let n := min (PGSIZE - (srcva - va0)) len
      let b ← readBytes pa0 (srcva - va0) n
      match ← copyinLoop p pagetable fuel (va0 + PGSIZE) (len - n) with
      | none => pure none
      | some rest => pure (some (b ++ rest))

/-- `copyin` in process `p`: the bytes, if it succeeds. -/
def copyin (p : Mm) (pagetable srcva len : Nat) : VmM (Option (List Byte)) := copyinLoop p pagetable len srcva len

/-- The loop of `copyinstr`; the bytes before the NUL. -/
def copyinstrLoop (pagetable : Nat) : Nat → Nat → Nat → VmM (Option (List Byte))
  | _, _, 0 => pure none
  | 0, _, _ => pure none
  | fuel + 1, srcva, max => do
    let va0 := pgrounddown srcva
    match ← walkaddr pagetable va0 with
    | none => pure none
    | some pa0 =>
      let n := min (PGSIZE - (srcva - va0)) max
      let b ← readBytes pa0 (srcva - va0) n
      if b.contains 0 then pure (some (b.takeWhile (· ≠ 0)))
      else
        match ← copyinstrLoop pagetable fuel (va0 + PGSIZE) (max - n) with
        | none => pure none
        | some rest => pure (some (b ++ rest))

/-- `copyinstr`: the string without its NUL, if there is one within `max` bytes. -/
def copyinstr (pagetable srcva max : Nat) : VmM (Option (List Byte)) := copyinstrLoop pagetable max srcva max

/-- The inner loop of `copyinstr`, over the bytes on a page: `got_null`, and what is stored at `dst`. -/
def storeString : List Byte → Bool × List Byte
  | [] => (false, [])
  | b :: bs => if b = 0 then (true, [0]) else ((storeString bs).1, b :: (storeString bs).2)

/-- The loop of `copyinstr` once more, with `got_null` and all that is stored at `dst`. -/
def copyinstrDstLoop (pagetable : Nat) : Nat → Nat → Nat → VmM (Bool × List Byte)
  | _, _, 0 => pure (false, [])
  | 0, _, _ => pure (false, [])
  | fuel + 1, srcva, max => do
    let va0 := pgrounddown srcva
    match ← walkaddr pagetable va0 with
    | none => pure (false, [])
    | some pa0 =>
      let n := min (PGSIZE - (srcva - va0)) max
      let b ← readBytes pa0 (srcva - va0) n
      if (storeString b).1 then pure (storeString b)
      else
        let rest ← copyinstrDstLoop pagetable fuel (va0 + PGSIZE) (max - n)
        pure (rest.1, (storeString b).2 ++ rest.2)

/-- `copyinstr`, as `got_null` and what is stored at `dst`, also where it fails. -/
def copyinstrDst (pagetable srcva max : Nat) : VmM (Bool × List Byte) := copyinstrDstLoop pagetable max srcva max

/-! ### Accesses from user space -/

/-- The page that the hardware finds for an access by a user, if it does not fault. -/
def translate (pagetable va : Nat) (write : Bool) : VmM (Option Nat) :=
  if MAXVA ≤ va then pure none
  else do
    match ← walk pagetable va false with
    | none => pure none
    | some pte =>
      let e ← readPte pte
      pure (if e.flags.v && e.flags.u && (if write then e.flags.w else e.flags.r) then some e.ppn else none)

/-- An access by a user: at a fault `usertrap` calls `vmfault`, and kills the process if that fails. -/
def access (p : Mm) (va : Nat) (write : Bool) : VmM (Option Nat) := do
  match ← translate p.pagetable va write with
  | some pa => pure (some pa)
  | none =>
    match ← vmfault p p.pagetable va with
    | none => pure none
    | some _ => translate p.pagetable va write

/-- A load of the byte at `va`. -/
def load (p : Mm) (va : Nat) : VmM (Option Byte) := do
  match ← access p va false with
  | none => pure none
  | some pa => pure (some ((← readPage pa) (va % PGSIZE)))

/-- A store to the byte at `va`: whether it succeeds. -/
def store (p : Mm) (va : Nat) (b : Byte) : VmM Bool := do
  match ← access p va true with
  | none => pure false
  | some pa =>
    writeBytes pa (va % PGSIZE) [b]
    pure true

end Xv6.Vm
