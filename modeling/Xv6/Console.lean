import Xv6.Param
import Mathlib.Tactic.Simps.Basic

/-!
# Console input

The line discipline of the console (`console.c`): the interrupt handler puts characters into a circular buffer and edits the last line,
readers take what has been committed. The indices `r`, `w` and `e` are of type `uint`. A reader holds the lock from its first statement
on and gives it up only where it sleeps, so a part of `consoleread` from one such place to the next is one step. At the end stands what
this is for: a line editor on lists of bytes.
-/

namespace Xv6.Console

def INPUT_BUF_SIZE : Nat := 128

/-- `C(x)`. -/
def ctrl (x : Char) : Byte := BitVec.ofNat 8 (x.toNat - '@'.toNat)

/-- `'\n'`. -/
def NEWLINE : Byte := 10

/-- `struct cons`, and the bytes that have been sent to the uart for it. -/
structure Cons where
  buf : Nat → Byte
  r : Uint
  w : Uint
  e : Uint
  out : List Byte

/-- Where an index points to. -/
def slot (x : Uint) : Nat := x.toNat % INPUT_BUF_SIZE

namespace Cons

variable (s : Cons)

/-- `consputc`. -/
@[simps] def consputc (c : Byte) : Cons := { s with out := s.out ++ [c] }

/-- `consputc(BACKSPACE)`. -/
@[simps] def backspace : Cons := { s with out := s.out ++ [8, 32, 8] }

@[simps] def withE (e : Uint) : Cons := { s with e := e }

@[simps] def withR (r : Uint) : Cons := { s with r := r }

@[simps] def commit : Cons := { s with w := s.e }

/-- `cons.buf[cons.e++ % INPUT_BUF_SIZE] = c`. -/
@[simps] def put (c : Byte) : Cons := { s with buf := Function.update s.buf (slot s.e) c, e := s.e + 1 }

/-- The loop for control-U, for a number of characters. -/
def killLoop : Nat → Cons → Cons
  | 0, s => s
  | n + 1, s => if s.e ≠ s.w ∧ s.buf (slot (s.e - 1)) ≠ NEWLINE then killLoop n (s.withE (s.e - 1)).backspace else s

/-- Control-U; after as many characters as there are from `w` to `e` the two are equal. -/
def kill : Cons := killLoop (s.e - s.w).toNat s

/-- Control-H or delete. -/
def erase : Cons := if s.e ≠ s.w then (s.withE (s.e - 1)).backspace else s

/-- Any other character. -/
def insert (c : Byte) : Cons :=
  if c ≠ 0 ∧ (s.e - s.r).toNat < INPUT_BUF_SIZE then
    let c := if c = 13 then NEWLINE else c
    let t := (s.consputc c).put c
    if c = NEWLINE ∨ c = ctrl 'D' ∨ (t.e - t.r).toNat = INPUT_BUF_SIZE then t.commit else t
  else s

/-- `consoleintr`; for control-P it prints a list of processes only. -/
def consoleintr (c : Byte) : Cons :=
  if c = ctrl 'P' then s
  else if c = ctrl 'U' then s.kill
  else if c = ctrl 'H' ∨ c = 127 then s.erase
  else s.insert c

end Cons

/-- What a reader gets: a byte, or the end of the file. -/
inductive Item where
  | byte (c : Byte)
  | eof
deriving DecidableEq, Repr

/-- How a part of `consoleread` ends: it returns, or sleeps with `n` bytes still to read. -/
inductive Outcome where
  | returned (result : Int)
  | asleep (n : Nat)
deriving DecidableEq, Repr

/-- The loop of `consoleread`, from where `n` bytes are to be read, until it sleeps or returns; `killed` is what `killed(myproc())` gives
where there is nothing to read. Copies to `dst` succeed. -/
def readLoop (target : Nat) (killed : Bool) : Nat → Cons → List Item × Outcome × Cons
  | 0, s => ([], .returned target, s)
  | n + 1, s =>
    if s.r = s.w then ([], if killed then .returned (-1) else .asleep (n + 1), s)
    else
      let c := s.buf (slot s.r)
      let s := s.withR (s.r + 1)
      if c = ctrl 'D' then
        if n + 1 < target then ([], .returned (target - (n + 1)), s.withR (s.r - 1))
        else ([.eof], .returned (target - (n + 1)), s)
      else if c = NEWLINE then ([.byte c], .returned (target - n), s)
      else
        let p := readLoop target killed n s
        (.byte c :: p.1, p.2)

/-! ## Readers and the interrupt handler together -/

/-- The console, and for each reader that is in `consoleread` the length of its buffer and how much of it is still to be filled. -/
structure System (ι : Type) where
  cons : Cons
  reading : ι → Option (Nat × Nat)

/-- A character comes in, a reader calls `consoleread`, or one that was asleep goes on. -/
inductive Event (ι : Type) where
  | key (c : Byte)
  | read (i : ι) (n : Int) (killed : Bool)
  | resume (i : ι) (killed : Bool)

namespace System

variable {ι : Type} [DecidableEq ι]

/-- A reader's part of the loop, and where that leaves it. -/
def serve (s : System ι) (i : ι) (target n : Nat) (killed : Bool) : List Item × System ι :=
  let p := readLoop target killed n s.cons
  let reading : Option (Nat × Nat) :=
    match p.2.1 with
    | .returned _ => none
    | .asleep n => some (target, n)
  (p.1, ⟨p.2.2, Function.update s.reading i reading⟩)

/-- What is handed to readers in a step, and the state after it. -/
def step (s : System ι) : Event ι → Option (List Item × System ι)
  | .key c => some ([], ⟨s.cons.consoleintr c, s.reading⟩)
  | .read i n killed =>
    match s.reading i with
    | none => some (s.serve i n.toNat n.toNat killed)
    | some _ => none
  | .resume i killed =>
    match s.reading i with
    | none => none
    | some (target, n) => some (s.serve i target n killed)

/-- A step with what it hands out. -/
def Steps (s : System ι) (l : Event ι × List Item) (t : System ι) : Prop := s.step l.1 = some (l.2, t)

/-- Nothing has been typed; the indices may have any value. -/
structure Init (s : System ι) : Prop where
  w : s.cons.w = s.cons.r
  e : s.cons.e = s.cons.r
  reading : ∀ i, s.reading i = none

end System

/-- What is in the buffer from one index to another. -/
def Cons.between (s : Cons) (x y : Uint) : List Byte := (List.range (y - x).toNat).map fun k => s.buf (slot (x + BitVec.ofNat 32 k))

/-! ## The line editor -/

/-- A line editor: the input committed so far, the unfinished line, and how much of the input has been delivered. -/
structure Editor where
  committed : List Byte
  line : List Byte
  taken : Nat

namespace Editor

/-- How many characters are pending. -/
def pending (ed : Editor) : Nat := ed.committed.length - ed.taken + ed.line.length

/-- A character is added to the line, which is committed if it is complete or the last place is filled. -/
def add (ed : Editor) (c : Byte) : Editor :=
  if c = NEWLINE ∨ c = ctrl 'D' ∨ ed.pending + 1 = INPUT_BUF_SIZE then ⟨ed.committed ++ (ed.line ++ [c]), [], ed.taken⟩
  else ⟨ed.committed, ed.line ++ [c], ed.taken⟩

/-- A character is typed. -/
def key (ed : Editor) (c : Byte) : Editor :=
  if c = 0 ∨ c = ctrl 'P' then ed
  else if c = ctrl 'U' then ⟨ed.committed, [], ed.taken⟩
  else if c = ctrl 'H' ∨ c = 127 then ⟨ed.committed, ed.line.dropLast, ed.taken⟩
  else if INPUT_BUF_SIZE ≤ ed.pending then ed
  else ed.add (if c = 13 then NEWLINE else c)

def step {ι : Type} (ed : Editor) : Event ι × List Item → Editor
  | (.key c, _) => ed.key c
  | (_, items) => ⟨ed.committed, ed.line, ed.taken + items.length⟩

def init : Editor := ⟨[], [], 0⟩

/-- What a read of the rest of a line is to give: bytes up to the end of the line, of the buffer or of what is there. A control-D ends
it; one that comes first is the end of the file, any other is left for the next read. -/
def read (target : Nat) (killed : Bool) : Nat → List Byte → List Item × Outcome
  | 0, _ => ([], .returned target)
  | n + 1, [] => ([], if killed then .returned (-1) else .asleep (n + 1))
  | n + 1, c :: q =>
    if c = ctrl 'D' then if n + 1 < target then ([], .returned (target - (n + 1))) else ([.eof], .returned (target - (n + 1)))
    else if c = NEWLINE then ([.byte c], .returned (target - n))
    else (.byte c :: (read target killed n q).1, (read target killed n q).2)

end Editor

/-- The character that an item was made from. -/
def Item.char : Item → Byte
  | .byte c => c
  | .eof => ctrl 'D'

/-- What readers have received. -/
def received {ι : Type} (ls : List (Event ι × List Item)) : List Byte := (ls.flatMap Prod.snd).map Item.char

end Xv6.Console
