import Xv6.Param

/-!
# Transactions: `begin_op`, `log_write` and `end_op`

Any number of processes run operations of the file system, each between `begin_op` and `end_op`; the last to end commits. A step is
what one process does while it holds `log.lock`, or its part of `commit` that touches the log in memory. `log.lh` is again the list
`log.lh.block[0..n)`; which blocks an operation has named is not in the code and is kept here to say how many they are.
-/

namespace Xv6.Trans

/-- The fields of `struct log` that change while the system runs. -/
structure Log where
  lh : List Uint
  outstanding : Int
  committing : Bool
deriving DecidableEq

/-- The panics of `log.c`. -/
inductive Panic where
  | tooBig
  | outsideTrans
  | committing
deriving DecidableEq, Repr

/-- One round of the loop of `begin_op`: `none` is `sleep(&log, &log.lock)`. -/
def beginOp (log : Log) : Option Log :=
  if log.committing then none
  else if (LOGBLOCKS : Int) < log.lh.length + (log.outstanding + 1) * MAXOPBLOCKS then none
  else some { log with outstanding := log.outstanding + 1 }

/-- `log_write`, for a buffer that holds block `blockno`; a block that is in the log already is not added again. -/
def logWrite (log : Log) (blockno : Uint) : Except Panic Log :=
  if LOGBLOCKS ≤ log.lh.length then .error .tooBig
  else if log.outstanding < 1 then .error .outsideTrans
  else .ok (if blockno ∈ log.lh then log else { log with lh := log.lh ++ [blockno] })

/-- The first part of `end_op`, and `do_commit`. -/
def endOp (log : Log) : Except Panic (Log × Bool) :=
  if log.committing then .error .committing
  else if log.outstanding - 1 = 0 then .ok ({ log with outstanding := log.outstanding - 1, committing := true }, true)
  else .ok ({ log with outstanding := log.outstanding - 1 }, false)

/-- `log.lh.n = 0` in `commit`. -/
def clear (log : Log) : Log := { log with lh := [] }

/-- The last part of `end_op`, after `commit`. -/
def endCommit (log : Log) : Log := { log with committing := false }

/-- Where a process is: it sleeps in `begin_op` or has been woken there; it runs an operation that has named these blocks; it is in
`commit`, before or after the log is cleared. -/
inductive Pc where
  | idle
  | asleep
  | woken
  | inOp (named : List Uint)
  | commit
  | committed
deriving DecidableEq

structure State (P : Type) where
  log : Log
  pc : P → Pc

inductive Label (P : Type) where
  | beginOp (p : P)
  | logWrite (p : P) (blockno : Uint)
  | endOp (p : P)
  | commit (p : P)
  | endCommit (p : P)
deriving DecidableEq

variable {P : Type} [DecidableEq P]

/-- No operation is running and nothing is logged. -/
def boot : State P := ⟨⟨[], 0, false⟩, fun _ => .idle⟩

/-- `wakeup(&log)`. -/
def wake : Pc → Pc
  | .asleep => .woken
  | c => c

def State.setPc (s : State P) (log : Log) (p : P) (c : Pc) : State P := ⟨log, Function.update s.pc p c⟩

def State.wakeup (s : State P) : State P := ⟨s.log, fun p => wake (s.pc p)⟩

/-- What a step does: nothing if the process is not there, a panic, or a new state. -/
def State.exec (s : State P) : Label P → Option (Except Panic (State P))
  | .beginOp p =>
    if s.pc p = .idle ∨ s.pc p = .woken then
      match Trans.beginOp s.log with
      | none => some (.ok (s.setPc s.log p .asleep))
      | some log => some (.ok (s.setPc log p (.inOp [])))
    else none
  | .logWrite p blockno =>
    match s.pc p with
    | .inOp named =>
      match Trans.logWrite s.log blockno with
      | .error e => some (.error e)
      | .ok log => some (.ok (s.setPc log p (.inOp (named.insert blockno))))
    | _ => none
  | .endOp p =>
    match s.pc p with
    | .inOp _ =>
      match Trans.endOp s.log with
      | .error e => some (.error e)
      | .ok (log, true) => some (.ok (s.setPc log p .commit))
      | .ok (log, false) => some (.ok (s.setPc log p .idle).wakeup)
    | _ => none
  | .commit p => if s.pc p = .commit then some (.ok (s.setPc (clear s.log) p .committed)) else none
  | .endCommit p => if s.pc p = .committed then some (.ok (s.setPc (Trans.endCommit s.log) p .idle).wakeup) else none

def State.step (s : State P) (l : Label P) : Option (State P) :=
  match s.exec l with
  | some (.ok t) => some t
  | _ => none

/-- The panic a step runs into, if any. -/
def State.panic (s : State P) (l : Label P) : Option Panic :=
  match s.exec l with
  | some (.error e) => some e
  | _ => none

/-- The blocks that the operation has named. -/
def Pc.named : Pc → List Uint
  | .inOp named => named
  | _ => []

/-- An operation names at most `MAXOPBLOCKS` blocks. -/
def State.Within (s : State P) : Label P → Prop
  | .logWrite p blockno => ((s.pc p).named.insert blockno).length ≤ MAXOPBLOCKS
  | _ => True

instance (s : State P) : DecidablePred s.Within
  | .logWrite _ _ => Nat.decLe ..
  | .beginOp _ => isTrue trivial
  | .endOp _ => isTrue trivial
  | .commit _ => isTrue trivial
  | .endCommit _ => isTrue trivial

/-- A full log is given no block again that it has already. -/
def State.Spare (s : State P) : Label P → Prop
  | .logWrite p blockno => (∃ named, s.pc p = .inOp named) → ¬ (blockno ∈ s.log.lh ∧ LOGBLOCKS ≤ s.log.lh.length)
  | _ => True

/-- The log in order: no block twice, not more than fit, and when a process commits no operation is running. -/
structure State.Sound (s : State P) : Prop where
  nodup : s.log.lh.Nodup
  le : s.log.lh.length ≤ LOGBLOCKS
  quiet : ∀ p, s.pc p = .commit → s.log.outstanding = 0 ∧ ∀ q named, s.pc q ≠ .inOp named

end Xv6.Trans
