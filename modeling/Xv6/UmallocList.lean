import Xv6.Umalloc
import Xv6.Lib.Linked

/-!
# The free list of a program

A program that calls `malloc` and `free`, writes to what it holds, and may call `sbrk` itself in between, so that the memory `malloc` gets
next is higher up. The units that `malloc` has got from `sbrk` are counted. `FreeList` says what the free list should be.
-/

namespace Xv6.Umalloc

open Lib

open Vm (TRAPFRAME)

namespace Heap

variable (s : Heap)

/-- The number of units of the block at `a`. -/
def units (a : Nat) : Nat := (s.mem a).size.toNat

/-- The block at `bp` and the free blocks before and after it are in all no more units than a header can say. -/
def JoinFits (bp : Nat) : Prop :=
  ∀ m n, (m = 0 ∨ ∃ x, s.OnList x ∧ x + s.units x * HEADER = bp ∧ m = s.units x) →
    (n = 0 ∨ ∃ y, s.OnList y ∧ bp + s.units bp * HEADER = y ∧ n = s.units y) → m + s.units bp + n < 2 ^ 32

end Heap

/-- The program, and the number of units that `malloc` has got from `sbrk`. -/
structure Arena where
  world : World
  obtained : Nat

/-- What the program does: what `malloc` and `free` are about, or a call of `sbrk` of its own. -/
inductive Call where
  | event (e : Event)
  | sbrk (n : Nat)

namespace Arena

def step (a : Arena) : Call → Option Arena
  | .event e => (a.world.step e).map fun w => ⟨w, a.obtained + (w.heap.brk - a.world.heap.brk) / HEADER⟩
  | .sbrk n =>
    if a.world.heap.brk + n ≤ TRAPFRAME then some ⟨⟨a.world.heap.withBrk (a.world.heap.brk + n), a.world.live⟩, a.obtained⟩ else some a

/-- The program frees live pointers, writes nowhere but where they point to, and asks for fewer than `2 ^ 31` bytes at a time, headers
included. -/
def Meets (a : Arena) : Call → Prop
  | .event e => a.world.Fair e ∧ ∀ nbytes grant, e = .malloc nbytes grant → (Umalloc.units nbytes).toNat * HEADER < 2 ^ 31
  | .sbrk _ => True

/-- No call of `free` joins more units than a header can say. -/
def Sized (a : Arena) (c : Call) : Prop := ∀ ap, c = .event (.free ap) → a.world.heap.JoinFits (ap - HEADER)

/-- The free list, where `l` are its blocks other than `base`. -/
structure FreeList (a : Arena) (l : List Nat) : Prop where
  cycle : Linked (fun x => (a.world.heap.mem x).ptr) a.world.heap.base l a.world.heap.base
  freep : a.world.heap.freep ∈ a.world.heap.base :: l
  reached : ∀ x, a.world.heap.OnList x ↔ x ∈ a.world.heap.base :: l
  ascending : (a.world.heap.base :: l).Pairwise (· < ·)
  apart : l.Pairwise fun x y => Apart x (a.world.heap.units x * HEADER) y (a.world.heap.units y * HEADER)
  clear : ∀ r ∈ a.world.live, ∀ x ∈ l,
    Apart x (a.world.heap.units x * HEADER) (r.1 - HEADER) (a.world.heap.units (r.1 - HEADER) * HEADER)
  coalesced : ∀ x ∈ l, x + a.world.heap.units x * HEADER ≠ (a.world.heap.mem x).ptr
  total : (l.map a.world.heap.units).sum + (a.world.live.map fun r => a.world.heap.units (r.1 - HEADER)).sum = a.obtained

/-- There is no list yet, and nothing has been allocated, or the list is in order. -/
def Orderly (a : Arena) : Prop := a.world.heap.freep = 0 ∧ a.world.live = [] ∧ a.obtained = 0 ∨ ∃ l, a.FreeList l

/-- The program starts. -/
def Start (a : Arena) : Prop := a.world.Start ∧ a.obtained = 0

end Arena

end Xv6.Umalloc
