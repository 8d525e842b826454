import Xv6.Vm
import Mathlib.Data.Nat.Basic

/-!
# `malloc` and `free`

The user library's allocator (`umalloc.c`): a circular list of free blocks, each with a header that has the next block and the size in
units of a header. Memory is read and written header by header, at any address; an access past the last page of the process stops it.
A block is searched for by following the list, which is modelled for a number of steps that no list in an address space can exceed.
-/

namespace Xv6.Umalloc

open Vm (TRAPFRAME u64 pgroundup)

/-- `union header`. -/
structure Header where
  ptr : Nat
  size : Uint
deriving DecidableEq

/-- `sizeof(Header)`. -/
def HEADER : Nat := 16

/-- The size of the process, the headers that its memory can be read as, where `base` is, and `freep`. -/
structure Heap where
  brk : Nat
  mem : Nat → Header
  base : Nat
  freep : Nat

/-- Why a call does not return: the process was killed for an access, or has followed a list for ever. -/
inductive Stop where
  | fault
  | endless
deriving DecidableEq, Repr

abbrev M := StateT Heap (Except Stop)

namespace Heap

variable (s : Heap)

def withPtr (a p : Nat) : Heap := { s with mem := Function.update s.mem a { s.mem a with ptr := p } }

def withSize (a : Nat) (n : Uint) : Heap := { s with mem := Function.update s.mem a { s.mem a with size := n } }

def withFreep (p : Nat) : Heap := { s with freep := p }

def withBrk (brk : Nat) : Heap := { s with brk := brk }

/-- A header at `a` is in pages of the process. -/
def Mapped (a : Nat) : Prop := a + HEADER ≤ pgroundup s.brk

instance (a : Nat) : Decidable (s.Mapped a) := inferInstanceAs (Decidable (_ ≤ _))

end Heap

/-- `*a`. -/
def load (a : Nat) : M Header := fun s => if s.Mapped a then .ok (s.mem a, s) else .error .fault

/-- `a->s.ptr = p`. -/
def setPtr (a p : Nat) : M Unit := fun s => if s.Mapped a then .ok ((), s.withPtr a p) else .error .fault

/-- `a->s.size = n`. -/
def setSize (a : Nat) (n : Uint) : M Unit := fun s => if s.Mapped a then .ok ((), s.withSize a n) else .error .fault

/-- The value of `freep`. -/
def getFreep : M Nat := fun s => .ok (s.freep, s)

/-- `freep = p`. -/
def setFreep (p : Nat) : M Unit := fun s => .ok ((), s.withFreep p)

/-- How far a list is followed. -/
def STEPS : Nat := 2 ^ 80

/-- `a + n` for a pointer to headers. -/
def after (a : Nat) (n : Uint) : Nat := a + n.toNat * HEADER

/-- The loop of `free`: the block to put `bp` behind. -/
def freeLoop (bp : Nat) : Nat → Nat → M Nat
  | 0, _ => throw .endless
  | fuel + 1, p => do
    let hp ← load p
    if p < bp ∧ bp < hp.ptr then pure p
    else if hp.ptr ≤ p ∧ (p < bp ∨ bp < hp.ptr) then pure p
    else freeLoop bp fuel hp.ptr

/-- The first half of what `free` does behind block `p`: join to the block after. -/
def joinUpper (bp p : Nat) : M Unit := do
  let hb ← load bp
  let hp ← load p
  if after bp hb.size = hp.ptr then do
    let hn ← load hp.ptr
    setSize bp (hb.size + hn.size)
    setPtr bp hn.ptr
  else setPtr bp hp.ptr

/-- The second half: join to the block before. -/
def joinLower (bp p : Nat) : M Unit := do
  let hp ← load p
  if after p hp.size = bp then do
    let hb ← load bp
    setSize p (hp.size + hb.size)
    setPtr p hb.ptr
  else setPtr p bp

/-- `free`. -/
def free (ap : Nat) : M Unit := do
  let p ← getFreep
  let p ← freeLoop (ap - HEADER) STEPS p
  joinUpper (ap - HEADER) p
  joinLower (ap - HEADER) p
  setFreep p

/-- `sbrk`, that is `growproc`: the old size, or `none` when it fails; `grant` says whether there are pages when the size is `brk`. -/
def sbrk (grant : Nat → Bool) (n : Int) : M (Option Nat) := fun s =>
  if 0 < n then
    if TRAPFRAME < u64 (s.brk + n) ∨ grant s.brk = false then .ok (none, s)
    else .ok (some s.brk, s.withBrk (u64 (s.brk + n)))
  else if u64 (s.brk + n) < s.brk then .ok (some s.brk, s.withBrk (u64 (s.brk + n)))
  else .ok (some s.brk, s)

/-- The number of units that `morecore` asks for. -/
def coreUnits (nu : Uint) : Uint := if nu.toNat < 4096 then 4096 else nu

/-- `nu * sizeof(Header)`, passed as an `int`. -/
def coreArg (nu : Uint) : Int := (BitVec.ofNat 32 ((coreUnits nu).toNat * HEADER)).toInt

/-- `morecore`. -/
def morecore (grant : Nat → Bool) (nu : Uint) : M Nat := do
  match ← sbrk grant (coreArg nu) with
  | none => pure 0
  | some hp => do
    setSize hp (coreUnits nu)
    free (hp + HEADER)
    getFreep

/-- Take the units of block `p`, or its last ones if it has more; `prevp` is the block before. -/
def carve (nunits : Uint) (prevp p : Nat) (hp : Header) : M Nat :=
  if hp.size = nunits then do
    setPtr prevp hp.ptr
    setFreep prevp
    pure (p + HEADER)
  else do
    setSize p (hp.size - nunits)
    setSize (after p (hp.size - nunits)) nunits
    setFreep prevp
    pure (after p (hp.size - nunits) + HEADER)

/-- The loop of `malloc`. -/
def mallocLoop (grant : Nat → Bool) (nunits : Uint) : Nat → Nat → Nat → M Nat
  | 0, _, _ => throw .endless
  | fuel + 1, prevp, p => do
    let hp ← load p
    if nunits.toNat ≤ hp.size.toNat then carve nunits prevp p hp
    else do
      let freep ← getFreep
      if p = freep then do
        let p ← morecore grant nunits
        if p = 0 then pure 0
        else do
          let hp ← load p
          mallocLoop grant nunits fuel p hp.ptr
      else mallocLoop grant nunits fuel p hp.ptr

/-- `nunits` for a number of bytes: the sum is of type `unsigned long`. -/
def units (nbytes : Uint) : Uint := BitVec.ofNat 32 ((nbytes.toNat + HEADER - 1) / HEADER + 1)

/-- The list with `base` only, which the first call makes. -/
def initList : M Unit := fun s =>
  if s.freep = 0 then (do
    setPtr s.base s.base
    setFreep s.base
    setSize s.base 0) s
  else .ok ((), s)

/-- `malloc`. -/
def malloc (grant : Nat → Bool) (nbytes : Uint) : M Nat := do
  initList
  let prevp ← getFreep
  let hp ← load prevp
  mallocLoop grant (units nbytes) STEPS prevp hp.ptr

/-! ## A program that uses them -/

namespace Heap

variable (s : Heap)

/-- The block at `a` is on the free list. -/
def OnList (a : Nat) : Prop := s.freep ≠ 0 ∧ ∃ k, (fun a => (s.mem a).ptr)^[k] s.freep = a

/-- `sbrk` fails. -/
def Refuses (grant : Nat → Bool) (n : Int) : Prop := 0 < n ∧ (TRAPFRAME < u64 (s.brk + n) ∨ grant s.brk = false)

/-- `malloc` has to ask for memory, so much that the argument of `sbrk` is not what is meant, and is not refused. -/
def Overasks (grant : Nat → Bool) (nbytes : Uint) : Prop :=
  2 ^ 27 ≤ (units nbytes).toNat ∧ (∀ a, s.OnList a → (s.mem a).size.toNat < (units nbytes).toNat) ∧
    ¬ s.Refuses grant (coreArg (units nbytes))

end Heap

/-- The process, and the pointers it has got from `malloc` and not given to `free`, with the number of bytes it asked for. -/
structure World where
  heap : Heap
  live : List (Nat × Nat)

/-- What the program does: call `malloc` or `free`, or write to memory. -/
inductive Event where
  | malloc (nbytes : Uint) (grant : Nat → Bool)
  | free (ap : Nat)
  | store (mem : Nat → Header)

namespace World

def step (w : World) : Event → Option World
  | .malloc nbytes grant =>
    match Umalloc.malloc grant nbytes w.heap with
    | .ok (0, s) => some ⟨s, w.live⟩
    | .ok (ap, s) => some ⟨s, (ap, nbytes.toNat) :: w.live⟩
    | .error _ => none
  | .free ap =>
    match Umalloc.free ap w.heap with
    | .ok (_, s) => some ⟨s, w.live.filter fun r => r.1 ≠ ap⟩
    | .error _ => none
  | .store mem => some ⟨{ w.heap with mem := mem }, w.live⟩

/-- The program keeps to what it owns: it frees live pointers, and writes nowhere but where they point to. -/
def Fair (w : World) : Event → Prop
  | .malloc _ _ => True
  | .free ap => ∃ n, (ap, n) ∈ w.live
  | .store mem => ∀ a, (∀ r ∈ w.live, a + HEADER ≤ r.1 ∨ r.1 + r.2 ≤ a) → mem a = w.heap.mem a

/-- The program starts: nothing has been allocated, and `base` is below the break. -/
structure Start (w : World) : Prop where
  freep : w.heap.freep = 0
  live : w.live = []
  base : 0 < w.heap.base ∧ w.heap.base + HEADER ≤ w.heap.brk
  brk : w.heap.brk ≤ TRAPFRAME

/-- What was handed out lies between `lo` and the break, and overlaps with nothing else that was handed out nor with a header of the
free list. -/
structure Sound (lo : Nat) (w : World) : Prop where
  inside : ∀ r ∈ w.live, lo ≤ r.1 ∧ r.1 + r.2 ≤ w.heap.brk
  apart : w.live.Pairwise fun r r' => r.1 + r.2 ≤ r'.1 ∨ r'.1 + r'.2 ≤ r.1
  headers : ∀ r ∈ w.live, ∀ a, w.heap.OnList a → r.1 + r.2 ≤ a ∨ a + HEADER ≤ r.1

end World

end Xv6.Umalloc
