import Mathlib.Data.Finset.Card
import Xv6.Lib.Run

/-!
# Spinlocks

`acquire` and `release` of kernel/spinlock.c for any number of CPUs and locks, one access of shared memory or of the interrupt
flag a step. The code that calls them is arbitrary. An interrupt is taken wherever the flag allows one; its handler is such code
too, and returns when `noff` is back at 0.
-/

namespace Xv6.Spin

variable {C K : Type}

/-- Where a CPU stands: in `code` between the calls, or before the named access. The flag of `locked` and `owner`, the reads of
`holding`, says that `release` is the caller. -/
inductive Pc (K : Type)
  | code
  | intrGet (lk : K)
  | intrOff (lk : K) (old : Bool)
  | locked (lk : K) (rel : Bool)
  | owner (lk : K) (rel : Bool)
  | swap (lk : K)
  | record (lk : K)
  | clear (lk : K)
  | unlock (lk : K)
  | popOff (lk : K)
  | panic (msg : String) (lk : K)

/-- Where the result of `holding` leads. -/
def Pc.ofHolding (lk : K) (rel r : Bool) : Pc K :=
  if rel then if r then .clear lk else .panic "release" lk else if r then .panic "acquire" lk else .swap lk

/-- A CPU: the interrupt flag, `struct cpu`, the place and, in a handler, the interrupted place; and for the code, the locks it
holds and the flag as `intr_on` and `intr_off` last left it. -/
structure Cpu (K : Type) where
  intr : Bool := false
  noff : Nat := 0
  intena : Bool := false
  pc : Pc K := .code
  below : Option (Pc K) := none
  held : Finset K := ∅
  want : Bool := false

structure State (C K : Type) where
  locked : K → Bool := fun _ => false
  cpu : K → Option C := fun _ => none
  cpus : C → Cpu K := fun _ => {}

inductive Act (K : Type)
  | acquire (lk : K)
  | release (lk : K)
  | intrSet (on : Bool)
  | trap
  | ret
  | next

/-- What the code between the calls can do. -/
def Cpu.call (u : Cpu K) : Act K → Option (Cpu K)
  | .acquire lk => some { u with pc := .intrGet lk }
  | .release lk => some { u with pc := .locked lk true }
  | .intrSet on => if u.noff = 0 ∧ u.below.isNone then some { u with intr := on, want := on } else none
  | .ret => if u.noff = 0 then u.below.map fun pc => { u with intr := true, pc := pc, below := none } else none
  | _ => none

def Cpu.popOff (u : Cpu K) (lk : K) : Cpu K :=
  if u.intr then { u with pc := .panic "pop_off - interruptible" lk }
  else if u.noff < 1 then { u with pc := .panic "pop_off" lk }
  else { u with noff := u.noff - 1, intr := u.noff - 1 = 0 && u.intena, pc := .code }

variable [DecidableEq C] [DecidableEq K]

def State.put (s : State C K) (c : C) (u : Cpu K) : State C K := { s with cpus := Function.update s.cpus c u }

/-- The next access of the call that CPU `c` is in. -/
def State.next (s : State C K) (c : C) : Option (State C K) :=
  let u := s.cpus c
  match u.pc with
  | .intrGet lk => some (s.put c { u with pc := .intrOff lk u.intr })
  | .intrOff lk old =>
    some (s.put c { u with
      intr := false, intena := if u.noff = 0 then old else u.intena, noff := u.noff + 1, pc := .locked lk false })
  | .locked lk rel => some (s.put c { u with pc := if s.locked lk then .owner lk rel else .ofHolding lk rel false })
  | .owner lk rel => some (s.put c { u with pc := .ofHolding lk rel (s.cpu lk = some c) })
  | .swap lk =>
    some { s.put c { u with pc := if s.locked lk then .swap lk else .record lk } with locked := Function.update s.locked lk true }
  | .record lk =>
    some { s.put c { u with pc := .code, held := insert lk u.held } with cpu := Function.update s.cpu lk (some c) }
  | .clear lk => some { s.put c { u with pc := .unlock lk } with cpu := Function.update s.cpu lk none }
  | .unlock lk =>
    some { s.put c { u with pc := .popOff lk, held := u.held.erase lk } with locked := Function.update s.locked lk false }
  | .popOff lk => some (s.put c (u.popOff lk))
  | _ => none

def State.step (s : State C K) : C × Act K → Option (State C K)
  | (c, .next) => s.next c
  | (c, .trap) =>
    if (s.cpus c).intr then some (s.put c { s.cpus c with intr := false, pc := .code, below := some (s.cpus c).pc }) else none
  | (c, a) => match (s.cpus c).pc with
    | .code => ((s.cpus c).call a).map (s.put c)
    | _ => none

end Xv6.Spin
