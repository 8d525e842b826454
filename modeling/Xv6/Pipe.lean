import Xv6.Param
import Xv6.Lib.Run
import Xv6.Lib.Peterson

/-!
# Pipes: `pipe.c`

`pipewrite` and `piperead` take turns on the buffer through a two-party Peterson lock, writers as participant 0 and readers as
participant 1, and give the CPU up with `yield` where they used to sleep. Any number of processes may hold either end.

The model is a transition system over the shared `struct pipe` and, for each process, its place in the code and its local
variables. One step makes one access to shared memory (`want`, `turn`, `nread`, `nwrite`, `data`, `readopen`, `writeopen`),
together with the local work up to the next one, so every interleaving of atomic accesses is a run. `nwrite++` and the store
to `data` are separate steps, in either order. `yield` is not a step: any process may run next anyway. What the environment
decides, whether `killed` and the user copies fail and the order of the two stores, comes with the label of a step.

`stored`, `taken` and `counted` are history variables: the bytes stored with the call that stored them, the bytes removed by
readers, and for each call of `pipewrite` the bytes it has counted in `i`. No step reads them.
-/

namespace Xv6

open Lib Peterson Function

def PIPESIZE : Nat := 512

/-- `x % PIPESIZE` as an index of `data`. -/
def slot (x : Uint) : Fin PIPESIZE := ⟨x.toNat % PIPESIZE, Nat.mod_lt _ (by decide)⟩

/-- The participants of the lock: 0 is the writer, 1 is the reader. -/
abbrev writer : Party := .zero
abbrev reader : Party := .one

/-- `struct pipe`, without the spinlock that only `pipeclose` uses. -/
structure Pipe where
  data : Fin PIPESIZE → Byte
  nread : Uint
  nwrite : Uint
  readopen : Bool
  writeopen : Bool
  lock : Lock

/-- The pipe as `pipealloc` leaves it. The page comes from `kalloc`, so the buffer holds anything. -/
def pipealloc (data : Fin PIPESIZE → Byte) : Pipe := ⟨data, 0, 0, true, true, ⟨fun _ => false, .zero⟩⟩

/-- A place in the code: the access to shared memory the process makes next, with the values it has loaded and still needs. -/
inductive PC where
  | idle
  -- `peterson_enter(pi, me)`: the two stores, then the two loads of the loop condition
  | want (me : Party)
  | turn (me : Party)
  | spinWant (me : Party)
  | spinTurn (me : Party)
  -- `pipewrite`: head of the loop, the re-check of `readopen`, the test for full, the store and the increment, the exit
  | wLoop
  | wOpen
  | wFail
  | wNwrite
  | wNread (nw : Uint)
  | wFull
  | wSlot
  | wStore (t : Uint)
  | wData (t : Uint)
  | wIncr (t : Uint)
  | wExit
  -- `piperead`: head of the loop, the test for empty, end of file, the load and the increment, the exit
  | rLoop
  | rNread
  | rNwrite (nr : Uint)
  | rOpen
  | rEof
  | rEmpty
  | rSlot
  | rData (t : Uint)
  | rLoad (ch : Byte)
  | rStore (ch : Byte) (t : Uint)
  | rExit (ch : Byte)

/-- A process: its place, the user buffer of `pipewrite` (its length is `n`), the `n` of `piperead`, the loop variable `i`, the
bytes `piperead` has copied out, the value the last call returned, and how many calls of `pipewrite` it has started. -/
structure PipeProc where
  pc : PC
  buf : List Byte
  n : Nat
  i : Nat
  got : List Byte
  ret : Int
  call : Nat

/-- What the environment decides in a step: whether `killed` is true, whether the user copy fails, and whether the store to `data`
comes before the increment of `nwrite`. -/
structure PipeEnv where
  killed : Bool
  copyFail : Bool
  dataFirst : Bool

/-- What a step adds to the history: nothing, a byte whose two stores are now both done, a byte removed from the buffer, or a byte
counted in `i`. -/
inductive PipeEvent where
  | quiet
  | stored
  | took (c : Byte)
  | counted

/-- `pi->want[me] = v`. -/
def Pipe.setWant (pi : Pipe) (me : Party) (v : Bool) : Pipe :=
  { pi with lock := { pi.lock with want := update pi.lock.want me v } }

/-- `pi->data[t % PIPESIZE] = c`. -/
def Pipe.setData (pi : Pipe) (t : Uint) (c : Byte) : Pipe := { pi with data := update pi.data (slot t) c }

/-- The byte of the user buffer at `i`, which `copyin` has read. -/
def PipeProc.ch (l : PipeProc) : Byte := l.buf.getD l.i 0

/-- Return from the call with a value. -/
def PipeProc.return_ (l : PipeProc) (v : Int) : PipeProc := { l with pc := .idle, ret := v }

/-- Where `peterson_enter` returns to. -/
def entered : Party → PC
  | .zero => .wOpen
  | .one => .rNread

/-- One step of `peterson_enter(pi, me)`. -/
def petersonEnter (pi : Pipe) : PC → Option (Pipe × PC)
  | .want me => some (pi.setWant me true, .turn me)
  | .turn me => some ({ pi with lock := { pi.lock with turn := me.other } }, .spinWant me)
  | .spinWant me => some (pi, if pi.lock.want me.other then .spinTurn me else entered me)
  | .spinTurn me => some (pi, if pi.lock.turn = me.other then .spinWant me else entered me)
  | _ => none

/-- `peterson_exit(pi, me)`. -/
def petersonExit (pi : Pipe) (me : Party) : Pipe := pi.setWant me false

/-- One step of `pipewrite`. -/
def pipewrite (pi : Pipe) (e : PipeEnv) (l : PipeProc) : Option (Pipe × PipeProc × PipeEvent) :=
  match l.pc with
  | .wLoop =>
    if l.i < l.buf.length then
      if pi.readopen = false ∨ e.killed = true then some (pi, l.return_ (-1), .quiet)
      else if e.copyFail then some (pi, l.return_ l.i, .quiet)
      else some (pi, { l with pc := .want writer }, .quiet)
    else some (pi, l.return_ l.i, .quiet)
  | .wOpen => some (pi, { l with pc := if pi.readopen then .wNwrite else .wFail }, .quiet)
  | .wFail => some (petersonExit pi writer, l.return_ (-1), .quiet)
  | .wNwrite => some (pi, { l with pc := .wNread pi.nwrite }, .quiet)
  | .wNread nw => some (pi, { l with pc := if nw = pi.nread + BitVec.ofNat 32 PIPESIZE then .wFull else .wSlot }, .quiet)
  | .wFull => some (petersonExit pi writer, { l with pc := .wLoop }, .quiet)
  | .wSlot => some (pi, { l with pc := .wStore pi.nwrite }, .quiet)
  | .wStore t =>
    if e.dataFirst then some (pi.setData t l.ch, { l with pc := .wIncr t }, .quiet)
    else some ({ pi with nwrite := t + 1 }, { l with pc := .wData t }, .quiet)
  | .wData t => some (pi.setData t l.ch, { l with pc := .wExit }, .stored)
  | .wIncr t => some ({ pi with nwrite := t + 1 }, { l with pc := .wExit }, .stored)
  | .wExit => some (petersonExit pi writer, { l with pc := .wLoop, i := l.i + 1 }, .counted)
  | _ => none

/-- One step of `piperead`. -/
def piperead (pi : Pipe) (e : PipeEnv) (l : PipeProc) : Option (Pipe × PipeProc × PipeEvent) :=
  match l.pc with
  | .rLoop =>
    if l.i < l.n then
      if e.killed then some (pi, l.return_ (-1), .quiet) else some (pi, { l with pc := .want reader }, .quiet)
    else some (pi, l.return_ l.i, .quiet)
  | .rNread => some (pi, { l with pc := .rNwrite pi.nread }, .quiet)
  | .rNwrite nr => some (pi, { l with pc := if nr = pi.nwrite then .rOpen else .rSlot }, .quiet)
  | .rOpen => some (pi, { l with pc := if pi.writeopen then .rEmpty else .rEof }, .quiet)
  | .rEof => some (petersonExit pi reader, l.return_ l.i, .quiet)
  | .rEmpty => some (petersonExit pi reader, { l with pc := .rLoop }, .quiet)
  | .rSlot => some (pi, { l with pc := .rData pi.nread }, .quiet)
  | .rData t => some (pi, { l with pc := .rLoad (pi.data (slot t)) }, .quiet)
  | .rLoad c => some (pi, { l with pc := .rStore c pi.nread }, .quiet)
  | .rStore c t => some ({ pi with nread := t + 1 }, { l with pc := .rExit c }, .took c)
  | .rExit c =>
    if e.copyFail then some (petersonExit pi reader, l.return_ (if l.i = 0 then -1 else l.i), .quiet)
    else some (petersonExit pi reader, { l with pc := .rLoop, i := l.i + 1, got := l.got ++ [c] }, .quiet)
  | _ => none

/-- What a process does next: call `pipewrite` on a buffer, call `piperead` for `n` bytes, or go on with the call it is in. -/
inductive PipeAct where
  | write (buf : List Byte)
  | read (n : Nat)
  | go (e : PipeEnv)

/-- One step of a process. A process can call `pipewrite` or `piperead` only while a descriptor of that end is open. -/
def PipeProc.step (pi : Pipe) (l : PipeProc) : PipeAct → Option (Pipe × PipeProc × PipeEvent)
  | .write buf =>
    match l.pc with
    | .idle => if pi.writeopen then some (pi, { l with pc := .wLoop, buf := buf, i := 0, call := l.call + 1 }, .quiet) else none
    | _ => none
  | .read n =>
    match l.pc with
    | .idle => if pi.readopen then some (pi, { l with pc := .rLoop, n := n, i := 0, got := [] }, .quiet) else none
    | _ => none
  | .go e =>
    match petersonEnter pi l.pc with
    | some (pi', pc) => some (pi', { l with pc := pc }, .quiet)
    | none => (pipewrite pi e l).or (piperead pi e l)

/-- The pipe, the processes that use it, and the history. -/
structure PipeSys (P : Type) where
  pipe : Pipe
  proc : P → PipeProc
  stored : List ((P × Nat) × Byte)
  taken : List Byte
  counted : P × Nat → List Byte

/-- The side of the pipe a place belongs to: that of the call the process is in. -/
def PC.side : PC → Option Party
  | .idle => none
  | .want me | .turn me | .spinWant me | .spinTurn me => some me
  | .wLoop | .wOpen | .wFail | .wNwrite | .wNread _ | .wFull | .wSlot | .wStore _ | .wData _ | .wIncr _ | .wExit => some writer
  | .rLoop | .rNread | .rNwrite _ | .rOpen | .rEof | .rEmpty | .rSlot | .rData _ | .rLoad _ | .rStore .. | .rExit _ => some reader

/-- The place as the lock sees it. -/
def PC.phase : PC → Phase
  | .turn me => .flag me
  | .spinWant me => .spinWant me
  | .spinTurn me => .spinTurn me
  | .wOpen | .wFail | .wNwrite | .wNread _ | .wFull | .wSlot | .wStore _ | .wData _ | .wIncr _ | .wExit => .crit writer
  | .rNread | .rNwrite _ | .rOpen | .rEof | .rEmpty | .rSlot | .rData _ | .rLoad _ | .rStore .. | .rExit _ => .crit reader
  | _ => .out

inductive PipeLabel (P : Type) where
  | proc (p : P) (a : PipeAct)
  | closeWrite
  | closeRead

variable {P : Type} [DecidableEq P]

/-- The system after a step of process `p`: the pipe and the process as the step leaves them, and what it adds to the history. -/
def PipeSys.after (s : PipeSys P) (p : P) (r : Pipe × PipeProc × PipeEvent) : PipeSys P :=
  let key := (p, (s.proc p).call)
  { pipe := r.1
    proc := update s.proc p r.2.1
    stored := match r.2.2 with
      | .stored => s.stored ++ [(key, (s.proc p).ch)]
      | _ => s.stored
    taken := match r.2.2 with
      | .took c => s.taken ++ [c]
      | _ => s.taken
    counted := match r.2.2 with
      | .counted => update s.counted key (s.counted key ++ [(s.proc p).ch])
      | _ => s.counted }

/-- The steps of the system. `pipeclose` runs when the last descriptor of an end is closed; a process inside a call holds a
descriptor of its end, so there is none. -/
inductive PipeStep : PipeSys P → PipeLabel P → PipeSys P → Prop where
  | proc {s : PipeSys P} {r : Pipe × PipeProc × PipeEvent} (p : P) (a : PipeAct) : (s.proc p).step s.pipe a = some r →
      PipeStep s (.proc p a) (s.after p r)
  | closeWrite {s : PipeSys P} : (∀ p, (s.proc p).pc.side ≠ some writer) →
      PipeStep s .closeWrite { s with pipe := { s.pipe with writeopen := false } }
  | closeRead {s : PipeSys P} : (∀ p, (s.proc p).pc.side ≠ some reader) →
      PipeStep s .closeRead { s with pipe := { s.pipe with readopen := false } }

/-- A pipe just allocated, no process in a call. -/
structure PipeInit (s : PipeSys P) : Prop where
  pipe : ∃ data, s.pipe = pipealloc data
  idle : ∀ p, (s.proc p).pc = .idle
  stored : s.stored = []
  taken : s.taken = []
  counted : ∀ k, s.counted k = []

/-! ## What the buffer holds -/

/-- `l` is an interleaving of the sequences `f k`: its elements can be attributed so that those of `k` are, in order, `f k`. -/
def Interleaving {κ β : Type} [DecidableEq κ] (f : κ → List β) (l : List β) : Prop :=
  ∃ L : List (κ × β), L.map Prod.snd = l ∧ ∀ k, (L.filter (fun x => x.1 = k)).map Prod.snd = f k

namespace PipeSys

/-- A writer has taken a place in the buffer, by incrementing `nwrite`, and has not yet stored its byte there. -/
def Reserved (s : PipeSys P) : Prop := ∃ p t, (s.proc p).pc = .wData t

open Classical in
/-- The value of `nwrite` up to which the buffer is filled. -/
noncomputable def published (s : PipeSys P) : Uint := if s.Reserved then s.pipe.nwrite - 1 else s.pipe.nwrite

/-- The bytes in the buffer, oldest first. -/
noncomputable def buffered (s : PipeSys P) : List Byte :=
  (List.range (s.published - s.pipe.nread).toNat).map fun j => s.pipe.data (slot (s.pipe.nread + BitVec.ofNat 32 j))

/-- The byte a call has stored and not yet counted: `i++` comes after `peterson_exit`. -/
def inFlight (s : PipeSys P) (k : P × Nat) : List Byte :=
  match (s.proc k.1).pc with
  | .wExit => if (s.proc k.1).call = k.2 then [(s.proc k.1).ch] else []
  | _ => []

/-- No byte is lost, duplicated or overwritten: the bytes removed by readers followed by those in the buffer are an interleaving
of what the calls of `pipewrite` have written. -/
def NoLostBytes (s : PipeSys P) : Prop := Interleaving (fun k => s.counted k ++ s.inFlight k) (s.taken ++ s.buffered)

end PipeSys

/-- No process raises the flag of its side while another process is between `peterson_enter` and the end of `peterson_exit` for
the same side. -/
def OnePerSide (s : PipeSys P) : PipeLabel P → Prop
  | .proc p _ => ∀ me, (s.proc p).pc = .want me → ∀ q, ¬(s.proc q).pc.phase.inside me
  | _ => True

/-- One process writes and one reads, each in any number of calls. -/
def TwoParty : PipeLabel Party → Prop
  | .proc p (.write _) => p = writer
  | .proc p (.read _) => p = reader
  | _ => True

/-- Both processes are in the entry loop of `peterson_enter`. -/
def PipeSys.BothSpin (s : PipeSys Party) : Prop := ∀ me, (s.proc me).pc.phase.spinning me

/-- The label is a step of process `p`. -/
def PipeLabel.isOf (p : P) : PipeLabel P → Bool
  | .proc q _ => q = p
  | _ => false

/-! ## One call of `piperead` -/

/-- The bytes between the two counters, oldest first. -/
def Pipe.held (pi : Pipe) : List Byte :=
  (List.range (pi.nwrite - pi.nread).toNat).map fun j => pi.data (slot (pi.nread + BitVec.ofNat 32 j))

/-- A step beside a call of `piperead` by `p`: `p` goes on with the call, and nobody else starts to read. -/
def Beside (p : P) : PipeLabel P → Prop
  | .proc _ (.go _) => True
  | .proc q (.write _) => q ≠ p
  | .proc _ (.read _) => False
  | _ => True

/-- A call of `piperead` by `p` for `n` bytes, from its start to its return, among any steps of other processes that write, and of
`pipeclose`. -/
structure ReadCall (s : PipeSys P) (p : P) (n : Nat) (labels : List (PipeLabel P)) (t : PipeSys P) : Prop where
  alone : ∀ q ≠ p, (s.proc q).pc.side ≠ some reader
  run : Run PipeStep s (.proc p (.read n) :: labels) t
  beside : ∀ label ∈ labels, Beside p label
  returned : (t.proc p).pc = .idle

/-- In a step of `piperead` by `p`, `copyout` does not fail, and `killed` is not seen once a byte has been taken. -/
def Delivers (p : P) (s : PipeSys P) (label : PipeLabel P) : Prop :=
  ∀ e, label = .proc p (.go e) → (∀ c, (s.proc p).pc = .rExit c → e.copyFail = false) ∧
    ((s.proc p).pc = .rLoop → 0 < (s.proc p).i → (s.proc p).i < (s.proc p).n → e.killed = false)

end Xv6
