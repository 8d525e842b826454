import Xv6.Log
import Xv6.Trans
import Xv6.Lib.Ring
import Mathlib.Tactic.Simps.Basic

/-!
# The buffer cache: `bio.c`, and the log as its client

`NBUF` buffers, linked into a ring by how recently they were used, hold copies of disk blocks. A step is what a process does while it
holds `bcache.lock`, `log.lock` or the inner lock of a sleep-lock, one access to the disk, or one change of a buffer that it has
locked. Processes get, change, write and release buffers in any order; the process that commits does what `commit` says, which is
given as the list of its steps. What was left in a block, and by whom, is not in the code and is kept here to say what `bread` returns.
-/

namespace Xv6.Bio

open Function
open Lib (scan)

/-- A buffer by its place in `bcache.buf`. -/
abbrev Slot := Fin NBUF

instance : NeZero NBUF := ⟨by decide⟩

/-- A block by device and number. -/
abbrev Key := Uint × Uint

/-- `struct buf` without its links; `lock` is the process that holds the sleep-lock. -/
structure Buf (P : Type) where
  valid : Bool
  dev : Uint
  blockno : Uint
  refcnt : Nat
  lock : Option P
  data : Block

/-- `bcache`, and the disk behind it. In the links `none` is `bcache.head`. -/
structure Cache (P : Type) where
  buf : Slot → Buf P
  next : Option Slot → Option Slot
  prev : Option Slot → Option Slot
  disk : Key → Block

variable {P : Type}

namespace Buf

variable (b : Buf P)

def key : Key := (b.dev, b.blockno)

@[simps] def withRefcnt (n : Nat) : Buf P := { b with refcnt := n }

@[simps] def withLock (lock : Option P) : Buf P := { b with lock := lock }

@[simps] def withData (d : Block) : Buf P := { b with data := d }

/-- The buffer is given to a block and has to be read. -/
@[simps] def assign (dev blockno : Uint) : Buf P := { b with dev := dev, blockno := blockno, valid := false, refcnt := 1 }

/-- The buffer has been read. -/
@[simps] def read (d : Block) : Buf P := { b with data := d, valid := true }

end Buf

namespace Cache

variable (c : Cache P)

def setBuf (i : Slot) (f : Buf P → Buf P) : Cache P := { c with buf := update c.buf i (f (c.buf i)) }

/-- `b->next->prev = b->prev; b->prev->next = b->next`. -/
def unlink (i : Slot) : Cache P :=
  let prev := update c.prev (c.next (some i)) (c.prev (some i))
  { c with next := update c.next (prev (some i)) (c.next (some i)), prev := prev }

/-- `b->next = bcache.head.next; b->prev = &bcache.head; bcache.head.next->prev = b; bcache.head.next = b`. -/
def pushFront (i : Slot) : Cache P :=
  let next := update c.next (some i) (c.next none)
  { c with next := update next none (some i),
           prev := update (update c.prev (some i) none) (next none) (some i) }

/-- `binit`, in front of a disk. -/
def binit (disk : Key → Block) : Cache P :=
  (List.finRange NBUF).foldl pushFront ⟨fun _ => ⟨false, 0, 0, 0, none, fun _ => 0⟩, fun _ => none, fun _ => none, disk⟩

/-- The first loop of `bget`: the buffer that has the block. -/
def lookup (dev blockno : Uint) : Option Slot :=
  scan c.next (fun i => decide ((c.buf i).dev = dev ∧ (c.buf i).blockno = blockno)) (NBUF + 1) (c.next none)

/-- The second loop of `bget`: the least recently used buffer that nobody refers to. -/
def victim : Option Slot := scan c.prev (fun i => decide ((c.buf i).refcnt = 0)) (NBUF + 1) (c.prev none)

/-- `bget` up to the release of `bcache.lock`: the buffer and one more reference to it, or `none` for `bget: no buffers`. -/
def bget (dev blockno : Uint) : Option (Slot × Cache P) :=
  match c.lookup dev blockno with
  | some i => some (i, c.setBuf i fun b => b.withRefcnt (b.refcnt + 1))
  | none =>
    match c.victim with
    | some i => some (i, c.setBuf i fun b => b.assign dev blockno)
    | none => none

/-- `acquiresleep(&b->lock)`; `none` while another process holds it. -/
def acquiresleep (p : P) (i : Slot) : Option (Cache P) :=
  match (c.buf i).lock with
  | none => some (c.setBuf i fun b => b.withLock (some p))
  | some _ => none

/-- The rest of `bread`: the disk is read if the buffer is not valid. -/
def fill (i : Slot) : Cache P :=
  if (c.buf i).valid then c else c.setBuf i fun b => b.read (c.disk b.key)

/-- A change of the data of a buffer. -/
def store (i : Slot) (d : Block) : Cache P := c.setBuf i fun b => b.withData d

/-- `virtio_disk_rw(b, 1)`. -/
def write (i : Slot) : Cache P := { c with disk := update c.disk (c.buf i).key (c.buf i).data }

/-- `releasesleep(&b->lock)`. -/
def releasesleep (i : Slot) : Cache P := c.setBuf i fun b => b.withLock none

/-- The second part of `brelse`. -/
def decref (i : Slot) : Cache P :=
  let c := c.setBuf i fun b => b.withRefcnt (b.refcnt - 1)
  if (c.buf i).refcnt = 0 then (c.unlink i).pushFront i else c

def bpin (i : Slot) : Cache P := c.setBuf i fun b => b.withRefcnt (b.refcnt + 1)

def bunpin (i : Slot) : Cache P := c.setBuf i fun b => b.withRefcnt (b.refcnt - 1)

end Cache

/-! ## `commit`, step by step -/

/-- The two buffers that `commit` holds at a time: `to` and `from`, or `lbuf` and `dbuf`. -/
inductive Reg where
  | a
  | b
deriving DecidableEq

/-- The steps of the process that commits. -/
inductive Act where
  | bget (blockno : Uint)
  | acquiresleep (r : Reg)
  | fill (r : Reg)
  | memmove (dst src : Reg)
  | header (r : Reg) (lh : List Uint)
  | bwrite (r : Reg)
  | bunpin (r : Reg)
  | releasesleep (r : Reg)
  | decref
  | clear
deriving DecidableEq

/-- `bread`. -/
def breadActs (r : Reg) (blockno : Uint) : List Act := [.bget blockno, .acquiresleep r, .fill r]

/-- `brelse`. -/
def brelseActs (r : Reg) : List Act := [.releasesleep r, .decref]

/-- The loop of `write_log`, from place `tail` on: `to` is `a`, `from` is `b`. -/
def writeLogActs (start : Uint) : Nat → List Uint → List Act
  | _, [] => []
  | tail, x :: xs =>
    breadActs .a (logSlot start tail) ++ breadActs .b x ++ [.memmove .a .b, .bwrite .a] ++ brelseActs .b ++ brelseActs .a ++
      writeLogActs start (tail + 1) xs

/-- `write_head`. -/
def writeHeadActs (start : Uint) (lh : List Uint) : List Act := breadActs .a start ++ [.header .a lh, .bwrite .a] ++ brelseActs .a

/-- The loop of `install_trans(0)`, from place `tail` on: `lbuf` is `a`, `dbuf` is `b`. -/
def installActs (start : Uint) : Nat → List Uint → List Act
  | _, [] => []
  | tail, x :: xs =>
    breadActs .a (logSlot start tail) ++ breadActs .b x ++ [.memmove .b .a, .bwrite .b, .bunpin .b] ++ brelseActs .a ++ brelseActs .b ++
      installActs start (tail + 1) xs

/-- `commit`. -/
def commitActs (start : Uint) (lh : List Uint) : List Act :=
  if 0 < lh.length then
    writeLogActs start 0 lh ++ writeHeadActs start lh ++ installActs start 0 lh ++ [.clear] ++ writeHeadActs start []
  else []

/-- Where the log is: `log.dev` and `log.start`. -/
structure Layout where
  dev : Uint
  start : Uint

/-- `commit` needs no more buffers than there are, and copies no block onto itself. -/
def Fits (L : Layout) (lh : List Uint) : Prop := lh.length < NBUF ∧ ∀ n b, lh[n]? = some b → b ≠ logSlot L.start n

/-! ## The system -/

/-- What no variable of the code holds: which buffers have been assigned a block; which have been changed since they were last written
or logged; which blocks are pinned; what was last left in each block, by any process or by a process other than the one that commits;
and whether processes have left alone what the log relies on. -/
structure History where
  given : Slot → Bool
  dirty : Slot → Bool
  pins : List Uint
  left : Key → Block
  clients : Key → Block
  polite : Bool

/-- `want` and `drop` are the buffers that a process waits for in `bget`, or has unlocked in `brelse` and not yet let go of. -/
structure State (P : Type) extends Cache P, History where
  trans : Trans.State P
  want : P → Option Slot
  drop : P → Option Slot
  regs : P → Reg → Option Slot
  script : P → List Act

/-- Why a step is not taken: the panics of `bio.c` and `log.c`, a sleep-lock that is held, or a process that is not there. -/
inductive Stop where
  | noBuffers
  | bwrite
  | brelse
  | asleep
  | log
  | absent
deriving DecidableEq, Repr

variable [DecidableEq P]

namespace State

variable (L : Layout) (s : State P)

/-- The state after `binit` and `initlog` in front of a disk. -/
def boot (disk : Key → Block) : State P :=
  ⟨Cache.binit disk, ⟨fun _ => false, fun _ => false, [], disk, disk, true⟩, Trans.boot, fun _ => none, fun _ => none, fun _ _ => none,
    fun _ => []⟩

def bget (p : P) (dev blockno : Uint) : Except Stop (State P) :=
  match s.toCache.bget dev blockno with
  | none => .error .noBuffers
  | some (i, c) =>
    .ok { s with toCache := c, want := update s.want p (some i), given := update s.given i true }

/-- The process gets the lock it waits for. -/
def acquiresleep (p : P) : Except Stop (Slot × State P) :=
  match s.want p with
  | none => .error .absent
  | some i =>
    match s.toCache.acquiresleep p i with
    | none => .error .asleep
    | some c => .ok (i, { s with toCache := c, want := update s.want p none })

def fill (i : Slot) : State P := { s with toCache := s.toCache.fill i }

def store (i : Slot) (d : Block) : State P :=
  { s with toCache := s.toCache.store i d, dirty := update s.dirty i true }

/-- `bwrite`; `clients` are the contents as the processes that do not commit left them. -/
def bwrite (p : P) (i : Slot) (clients : Key → Block) : Except Stop (State P) :=
  if (s.buf i).lock = some p then
    .ok { s with toCache := s.toCache.write i, dirty := update s.dirty i false, clients := clients,
                 left := update s.left (s.buf i).key (s.buf i).data }
  else .error .bwrite

/-- The first part of `brelse`. -/
def releasesleep (p : P) (i : Slot) : Except Stop (State P) :=
  if (s.buf i).lock = some p then .ok { s with toCache := s.toCache.releasesleep i, drop := update s.drop p (some i) }
  else .error .brelse

/-- The second part of `brelse`. -/
def decref (p : P) : Except Stop (State P) :=
  match s.drop p with
  | none => .error .absent
  | some i => .ok { s with toCache := s.toCache.decref i, drop := update s.drop p none }

/-- The block of the buffer is logged, and the buffer pinned if the block was not. -/
def logWrite (p : P) (i : Slot) : Except Stop (State P) :=
  match s.trans.step (.logWrite p (s.buf i).blockno) with
  | none => .error .log
  | some trans =>
    let t := { s with trans := trans, dirty := update s.dirty i false, left := update s.left (s.buf i).key (s.buf i).data,
                      clients := update s.clients (s.buf i).key (s.buf i).data }
    if (s.buf i).blockno ∈ s.trans.log.lh then .ok t
    else .ok { t with toCache := s.toCache.bpin i, pins := (s.buf i).blockno :: s.pins }

def bunpin (i : Slot) : State P :=
  { s with toCache := s.toCache.bunpin i, pins := s.pins.erase (s.buf i).blockno }

/-- A step of `commit`. -/
def exec (p : P) : Act → Except Stop (State P)
  | .bget blockno => s.bget p L.dev blockno
  | .acquiresleep r => do
    let (i, s) ← s.acquiresleep p
    pure { s with regs := update s.regs p (update (s.regs p) r (some i)) }
  | .fill r =>
    match s.regs p r with
    | some i => .ok (s.fill i)
    | none => .error .absent
  | .memmove dst src =>
    match s.regs p dst, s.regs p src with
    | some i, some j => .ok (s.store i (s.buf j).data)
    | _, _ => .error .absent
  | .header r lh =>
    match s.regs p r with
    | some i => .ok (s.store i (putHead lh (s.buf i).data))
    | none => .error .absent
  | .bwrite r =>
    match s.regs p r with
    | some i => s.bwrite p i s.clients
    | none => .error .absent
  | .bunpin r =>
    match s.regs p r with
    | some i => .ok (s.bunpin i)
    | none => .error .absent
  | .releasesleep r =>
    match s.regs p r with
    | some i => do
      let s ← s.releasesleep p i
      pure { s with regs := update s.regs p (update (s.regs p) r none) }
    | none => .error .absent
  | .decref => s.decref p
  | .clear =>
    match s.trans.step (.commit p) with
    | some trans => .ok { s with trans := trans }
    | none => .error .absent

/-- `commit`, with nobody else at work. -/
def commit (p : P) : Except Stop (State P) := (commitActs L.start s.trans.log.lh).foldlM (fun s a => s.exec L p a) s

/-- The process that commits takes its next step. -/
def act (p : P) : Except Stop (State P) :=
  match s.script p with
  | [] => .error .absent
  | a :: script => do
    let s ← s.exec L p a
    pure { s with script := update s.script p script }

end State

/-- What processes do. -/
inductive Label (P : Type) where
  | beginOp (p : P)
  | endOp (p : P)
  | act (p : P)
  | endCommit (p : P)
  | bget (p : P) (dev blockno : Uint)
  | acquiresleep (p : P)
  | fill (p : P) (i : Slot)
  | modify (p : P) (i : Slot) (d : Block)
  | logWrite (p : P) (i : Slot)
  | bwrite (p : P) (i : Slot)
  | releasesleep (p : P) (i : Slot)
  | decref (p : P)

def Label.proc : Label P → P
  | .beginOp p => p
  | .endOp p => p
  | .act p => p
  | .endCommit p => p
  | .bget p _ _ => p
  | .acquiresleep p => p
  | .fill p _ => p
  | .modify p _ _ => p
  | .logWrite p _ => p
  | .bwrite p _ => p
  | .releasesleep p _ => p
  | .decref p => p

namespace State

variable (L : Layout) (s : State P)

/-- The process has the buffer: `bread` has returned it and it has not been released. -/
def Has (p : P) (i : Slot) : Prop := (s.buf i).lock = some p ∧ (s.buf i).valid = true

instance (p : P) (i : Slot) : Decidable (s.Has p i) := inferInstanceAs (Decidable (_ ∧ _))

/-- Whether a block is one of the log. -/
def inLog (b : Uint) : Bool := (List.range (LOGBLOCKS + 1)).any fun t => b = L.start + BitVec.ofNat 32 t

/-- What the log relies on: nobody else writes its blocks, nor a logged block while it is being committed. -/
def spares (k : Key) (logged : Bool) : Bool :=
  !(decide (k.1 = L.dev) && (inLog L k.2 || !logged && s.trans.log.committing && decide (k.2 ∈ s.trans.log.lh)))

/-- The steps a process may take when it is not in `commit`: it uses a buffer that it has, and releases it only when it has written or
logged what it changed. Blocks that are logged are on the device of the log. -/
def client : Label P → Except Stop (State P)
  | .beginOp p =>
    match s.trans.step (.beginOp p) with
    | some trans => .ok { s with trans := trans }
    | none => .error .absent
  | .endOp p =>
    match s.trans.step (.endOp p) with
    | some trans =>
      if trans.pc p = .commit then .ok { s with trans := trans, script := update s.script p (commitActs L.start trans.log.lh) }
      else .ok { s with trans := trans }
    | none => .error .log
  | .endCommit p =>
    -- with nothing logged `commit` has done nothing
    match (if s.trans.pc p = .commit then s.trans.step (.commit p) else some s.trans).bind (·.step (.endCommit p)) with
    | some trans => .ok { s with trans := trans }
    | none => .error .absent
  | .act _ => .error .absent
  | .bget p dev blockno => s.bget p dev blockno
  | .acquiresleep p => (s.acquiresleep p).map Prod.snd
  | .fill p i => if (s.buf i).lock = some p then .ok (s.fill i) else .error .absent
  | .modify p i d => if s.Has p i then .ok (s.store i d) else .error .absent
  | .logWrite p i =>
    if s.Has p i ∧ (s.buf i).dev = L.dev then do
      let t ← s.logWrite p i
      pure { t with polite := s.polite && s.spares L (s.buf i).key true }
    else .error .absent
  | .bwrite p i =>
    if s.Has p i then do
      let t ← s.bwrite p i (update s.clients (s.buf i).key (s.buf i).data)
      pure { t with polite := s.polite && s.spares L (s.buf i).key false }
    else .error .absent
  | .releasesleep p i => if s.Has p i ∧ s.dirty i = false then s.releasesleep p i else .error .absent
  | .decref p => s.decref p

/-- A process that is inside `bget` or `brelse` first goes on there. -/
def Able : Label P → Prop
  | .acquiresleep _ => True
  | .decref _ => True
  | l => s.want l.proc = none ∧ s.drop l.proc = none

instance : DecidablePred s.Able := fun l => by
  cases l <;> unfold Able <;> infer_instance

def run (l : Label P) : Except Stop (State P) :=
  if s.script l.proc = [] then
    if s.Able l then s.client L l else .error .absent
  else s.act L l.proc

def step (l : Label P) : Option (State P) :=
  match s.run L l with
  | .ok t => some t
  | .error _ => none

end State

end Xv6.Bio
