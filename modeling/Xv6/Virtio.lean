import Xv6.Param
import Mathlib.Tactic.Simps.Basic

/-!
# The disk driver

`virtio_disk.c`: processes that call `virtio_disk_rw`, the interrupt handler, and the device. What a process does between two places
where it gives up `vdisk_lock` is one step: the device sees a new request when `avail->idx` is written, and what the process does after
that the device does not read. The interrupt handler holds the lock as well, but each turn of its loop is a step of its own, because the
device may add to the used ring in between. `virtio_disk_rw` is called by `bread` and `bwrite` only, on a buffer whose sleep-lock the
process holds. Processes and buffers are of any type.
-/

namespace Xv6.Virtio

open Function

/-- This many descriptors. -/
def NUM : Nat := 8

/-- `uint16`. -/
abbrev Uint16 := BitVec 16

/-- Chained with another descriptor. -/
def VRING_DESC_F_NEXT : Uint16 := 1

/-- The device writes (and does not read). -/
def VRING_DESC_F_WRITE : Uint16 := 2

/-- Read the disk. -/
def VIRTIO_BLK_T_IN : Uint := 0

/-- Write the disk. -/
def VIRTIO_BLK_T_OUT : Uint := 1

/-- What the address in a descriptor points to: nothing, `disk.ops[i]`, `b->data`, or `disk.info[i].status`. -/
inductive Addr (B : Type) where
  | null
  | op (i : Nat)
  | data (b : B)
  | status (i : Nat)

/-- `struct virtq_desc`. -/
structure Desc (B : Type) where
  addr : Addr B
  len : Uint
  flags : Uint16
  next : Uint16

/-- `struct virtio_blk_req`. -/
structure BlkReq where
  type : Uint
  reserved : Uint
  sector : BitVec 64

/-- `disk.info[i]`. -/
structure Info (B : Type) where
  b : Option B
  status : Byte

/-- `struct virtq_avail`. -/
structure Avail where
  idx : Uint16
  ring : Nat → Uint16

/-- `struct virtq_used`; of an entry only the `id` is read. -/
structure Used where
  idx : Uint16
  ring : Nat → Uint

/-- `struct disk`. -/
structure Disk (B : Type) where
  desc : Nat → Desc B
  avail : Avail
  used : Used
  free : Nat → Bool
  usedIdx : Uint16
  info : Nat → Info B
  ops : Nat → BlkReq

/-- The arguments of `virtio_disk_rw`, and the sector it computes. -/
structure Call (B : Type) where
  b : B
  write : Bool
  sector : BitVec 64

/-- Where a process is: not in `virtio_disk_rw`, in the loop that allocates descriptors, or in the one that waits for the device. -/
inductive Pc (B : Type) where
  | idle
  | alloc (c : Call B)
  | wait (c : Call B) (idx : List Nat)

/-- A request as the device reads it from a chain: what to do, where the data are and whether the device writes them, and the place for
the status. -/
structure Op (B : Type) where
  type : Uint
  sector : BitVec 64
  b : B
  len : Uint
  writes : Bool
  status : Nat

/-- The device: how far it has read the avail ring, and the requests it has taken and not completed. -/
structure Device (B : Type) where
  next : Uint16
  taken : List (Nat × Op B)

/-- The driver, `b->disk` and `b->lock` of each buffer, the processes, whether the interrupt handler is running, and the device. -/
structure System (P B : Type) where
  disk : Disk B
  bdisk : B → Bool
  lock : B → Option P
  pc : P → Pc B
  asleep : P → Bool
  intr : Bool
  dev : Device B

/-- The panics of the driver, a null pointer in `info`, and a chain that is no request. -/
inductive Fault where
  | freeDesc1
  | freeDesc2
  | intrStatus
  | nullBuf
  | badChain
deriving DecidableEq, Repr

/-! ## Descriptors -/

namespace Disk

variable {B : Type} (d : Disk B)

@[simps] def withFree (free : Nat → Bool) : Disk B := { d with free := free }

/-- A descriptor is cleared and marked as free. -/
@[simps] def release (i : Nat) : Disk B :=
  { d with desc := update d.desc i ⟨.null, 0, 0, 0⟩, free := update d.free i true }

@[simps] def withInfoB (i : Nat) (b : Option B) : Disk B := { d with info := update d.info i ⟨b, (d.info i).status⟩ }

/-- The three descriptors are formatted, and `info` is filled in. -/
@[simps] def format (c : Call B) (i j k : Nat) : Disk B :=
  { d with
    ops := update d.ops i ⟨if c.write then VIRTIO_BLK_T_OUT else VIRTIO_BLK_T_IN, 0, c.sector⟩
    desc := update (update (update d.desc
      i ⟨.op i, 16, VRING_DESC_F_NEXT, BitVec.ofNat 16 j⟩)
      j ⟨.data c.b, BitVec.ofNat 32 BSIZE, (if c.write then 0 else VRING_DESC_F_WRITE) ||| VRING_DESC_F_NEXT, BitVec.ofNat 16 k⟩)
      k ⟨.status i, 1, VRING_DESC_F_WRITE, 0⟩
    info := update d.info i ⟨some c.b, 0xff⟩ }

/-- `disk.avail->ring[disk.avail->idx % NUM] = i; disk.avail->idx += 1`. -/
@[simps] def publish (i : Nat) : Disk B :=
  { d with avail := ⟨d.avail.idx + 1, update d.avail.ring (d.avail.idx.toNat % NUM) (BitVec.ofNat 16 i)⟩ }

/-- `disk.used_idx += 1`. -/
@[simps] def advance : Disk B := { d with usedIdx := d.usedIdx + 1 }

/-- The device writes 0 to a status and adds the head of the chain to the used ring. -/
@[simps] def complete (h status : Nat) : Disk B :=
  { d with
    info := update d.info status ⟨(d.info status).b, 0⟩
    used := ⟨d.used.idx + 1, update d.used.ring (d.used.idx.toNat % NUM) (BitVec.ofNat 32 h)⟩ }

/-- What the device reads from the chain that starts at `h`. -/
def fetch (h : Nat) : Option (Op B) :=
  let d₀ := d.desc h
  let d₁ := d.desc d₀.next.toNat
  let d₂ := d.desc d₁.next.toNat
  match d₀.addr, d₁.addr, d₂.addr with
  | .op i, .data b, .status j =>
    if d₀.flags &&& VRING_DESC_F_NEXT ≠ 0 ∧ d₁.flags &&& VRING_DESC_F_NEXT ≠ 0 ∧ d₂.flags &&& VRING_DESC_F_NEXT = 0 then
      some ⟨(d.ops i).type, (d.ops i).sector, b, d₁.len, decide (d₁.flags &&& VRING_DESC_F_WRITE ≠ 0), j⟩
    else none
  | _, _, _ => none

end Disk

namespace System

variable {P B : Type} [DecidableEq P] [DecidableEq B] (s : System P B)

@[simps] def withDisk (d : Disk B) : System P B := { s with disk := d }

@[simps] def withBdisk (b : B) (x : Bool) : System P B := { s with bdisk := update s.bdisk b x }

@[simps] def withLock (b : B) (p : Option P) : System P B := { s with lock := update s.lock b p }

/-- The process goes to another place. -/
@[simps] def withPc (p : P) (pc : Pc B) : System P B := { s with pc := update s.pc p pc }

@[simps] def withAsleep (p : P) (x : Bool) : System P B := { s with asleep := update s.asleep p x }

@[simps] def withIntr (x : Bool) : System P B := { s with intr := x }

@[simps] def withDev (dev : Device B) : System P B := { s with dev := dev }

/-- `wakeup(&disk.free[0])`. -/
@[simps] def wakeupFree : System P B :=
  { s with asleep := fun q =>
      match s.pc q with
      | .alloc _ => false
      | _ => s.asleep q }

/-- `wakeup(b)`. -/
@[simps] def wakeupBuf (b : B) : System P B :=
  { s with asleep := fun q =>
      match s.pc q with
      | .wait c _ => if c.b = b then false else s.asleep q
      | _ => s.asleep q }

/-- `alloc_desc`: the first free descriptor, or `none` for -1. -/
def allocDesc : Option (Nat × System P B) :=
  match (List.range NUM).find? s.disk.free with
  | some i => some (i, s.withDisk (s.disk.withFree (update s.disk.free i false)))
  | none => none

/-- `free_desc`. -/
def freeDesc (i : Nat) : Except Fault (System P B) :=
  if NUM ≤ i then .error .freeDesc1
  else if s.disk.free i then .error .freeDesc2
  else .ok (s.withDisk (s.disk.release i)).wakeupFree

/-- The loop of `free_chain`, for a number of turns. -/
def freeChainLoop : Nat → Nat → System P B → Except Fault (System P B)
  | 0, _, s => .ok s
  | n + 1, i, s => do
    let flag := (s.disk.desc i).flags
    let nxt := (s.disk.desc i).next
    let t ← s.freeDesc i
    if flag &&& VRING_DESC_F_NEXT ≠ 0 then freeChainLoop n nxt.toNat t else .ok t

/-- `free_chain`: no turn succeeds in freeing a descriptor that is free, so there are at most `NUM` of them and one that panics. -/
def freeChain (i : Nat) : Except Fault (System P B) := freeChainLoop (NUM + 1) i s

/-- The loop of `alloc3_desc`, with `n` descriptors to go. -/
def alloc3Loop : Nat → List Nat → System P B → Except Fault (Option (List Nat) × System P B)
  | 0, idx, s => .ok (some idx, s)
  | n + 1, idx, s =>
    match s.allocDesc with
    | some (i, t) => alloc3Loop n (idx ++ [i]) t
    | none => do
      let t ← idx.foldlM freeDesc s
      .ok (none, t)

/-- `alloc3_desc`: the array `idx`, or `none` for -1. -/
def alloc3Desc : Except Fault (Option (List Nat) × System P B) := alloc3Loop 3 [] s

end System

/-! ## Steps -/

/-- What happens to a buffer: a process gives it to the device, the device completes the request, `b->disk` is cleared, the process
returns from `virtio_disk_rw`. -/
inductive Act (P : Type) where
  | submit (p : P)
  | complete
  | clear
  | ret (p : P)
deriving DecidableEq, Repr

/-- A process acquires or releases the sleep-lock of a buffer, calls `virtio_disk_rw`, goes on after a sleep, or is woken by `kill`; an
interrupt comes, its handler goes on; the device takes the next request or completes one it has taken. -/
inductive Event (P B : Type) where
  | acquiresleep (p : P) (b : B)
  | releasesleep (p : P) (b : B)
  | call (p : P) (b : B) (blockno : Uint) (write : Bool)
  | resume (p : P)
  | kill (p : P)
  | interrupt
  | handle
  | take
  | complete (k : Nat)

namespace System

variable {P B : Type} [DecidableEq P] [DecidableEq B] (s : System P B)

/-- `virtio_disk_rw` from `alloc3_desc` on, up to the first sleep. -/
def allocate (p : P) (c : Call B) : Except Fault (List (B × Act P) × System P B) := do
  let (idx, t) ← s.alloc3Desc
  match idx with
  | none => .ok ([], (t.withPc p (.alloc c)).withAsleep p true)
  | some idx =>
    let d := (t.disk.format c (idx.getD 0 0) (idx.getD 1 0) (idx.getD 2 0)).publish (idx.getD 0 0)
    .ok ([(c.b, .submit p)], (((t.withDisk d).withBdisk c.b true).withPc p (.wait c idx)).withAsleep p true)

/-- `virtio_disk_rw` from the test of `b->disk` on. -/
def finish (p : P) (c : Call B) (idx : List Nat) : Except Fault (List (B × Act P) × System P B) :=
  if s.bdisk c.b then .ok ([], s.withAsleep p true)
  else do
    let t ← (s.withDisk (s.disk.withInfoB (idx.getD 0 0) none)).freeChain (idx.getD 0 0)
    .ok ([(c.b, .ret p)], t.withPc p .idle)

/-- One turn of the loop of `virtio_disk_intr`. -/
def handle : Except Fault (List (B × Act P) × System P B) :=
  if s.disk.usedIdx ≠ s.disk.used.idx then
    let id := (s.disk.used.ring (s.disk.usedIdx.toNat % NUM)).toNat
    if (s.disk.info id).status ≠ 0 then .error .intrStatus
    else
      match (s.disk.info id).b with
      | none => .error .nullBuf
      | some b => .ok ([(b, .clear)], ((s.withBdisk b false).wakeupBuf b).withDisk s.disk.advance)
  else .ok ([], s.withIntr false)

/-- The device takes the next entry of the avail ring. -/
def take : Except Fault (List (B × Act P) × System P B) :=
  let h := (s.disk.avail.ring (s.dev.next.toNat % NUM)).toNat
  match s.disk.fetch h with
  | none => .error .badChain
  | some op => .ok ([], s.withDev ⟨s.dev.next + 1, s.dev.taken ++ [(h, op)]⟩)

/-- What happens to buffers in a step, and the state after it, or the fault; `none` where the step cannot be taken. -/
def step : Event P B → Option (Except Fault (List (B × Act P) × System P B))
  | .acquiresleep p b =>
    match s.pc p, s.lock b with
    | .idle, none => some (.ok ([], s.withLock b (some p)))
    | _, _ => none
  | .releasesleep p b =>
    match s.pc p with
    | .idle => if s.lock b = some p then some (.ok ([], s.withLock b none)) else none
    | _ => none
  | .call p b blockno write =>
    match s.pc p with
    | .idle =>
      if s.intr = false ∧ s.lock b = some p then
        some (s.allocate p ⟨b, write, (blockno * BitVec.ofNat 32 (BSIZE / 512)).setWidth 64⟩)
      else none
    | _ => none
  | .resume p =>
    if s.intr = false ∧ s.asleep p = false then
      match s.pc p with
      | .idle => none
      | .alloc c => some (s.allocate p c)
      | .wait c idx => some (s.finish p c idx)
    else none
  | .kill p => some (.ok ([], s.withAsleep p false))
  | .interrupt => if s.intr then none else some (.ok ([], s.withIntr true))
  | .handle => if s.intr then some s.handle else none
  | .take => if s.dev.next ≠ s.disk.avail.idx then some s.take else none
  | .complete k =>
    match s.dev.taken[k]? with
    | none => none
    | some (h, op) =>
      some (.ok ([(op.b, .complete)], (s.withDisk (s.disk.complete h op.status)).withDev ⟨s.dev.next, s.dev.taken.eraseIdx k⟩))

/-- A step without a fault, with what happens to buffers in it. -/
def Steps (s : System P B) (l : Event P B × List (B × Act P)) (t : System P B) : Prop := s.step l.1 = some (.ok (l.2, t))

omit [DecidableEq P] [DecidableEq B] in
/-- After `virtio_disk_init`: nothing has been submitted, taken or completed; the counters may have any value. -/
structure Init : Prop where
  free : ∀ i < NUM, s.disk.free i = true
  avail : s.dev.next = s.disk.avail.idx
  used : s.disk.usedIdx = s.disk.used.idx
  taken : s.dev.taken = []
  bdisk : ∀ b, s.bdisk b = false
  pc : ∀ p, s.pc p = .idle

end System

/-! ## What it is for -/

/-- Where a buffer is on its way: with nobody, given to the device for a process, completed by the device, done with. -/
inductive Phase (P : Type) where
  | idle
  | submitted (p : P)
  | completed (p : P)
  | cleared (p : P)
deriving DecidableEq, Repr

/-- The way of a buffer is always the same: one completion for a request, then one clearing of `b->disk`, then the return. -/
def Phase.next {P : Type} [DecidableEq P] : Phase P → Act P → Option (Phase P)
  | .idle, .submit p => some (.submitted p)
  | .submitted p, .complete => some (.completed p)
  | .completed p, .clear => some (.cleared p)
  | .cleared p, .ret q => if p = q then some .idle else none
  | _, _ => none

/-- The device has the buffer, or has completed the request and the handler has not seen it: this is what `b->disk` is to say. -/
def Phase.pending {P : Type} : Phase P → Bool
  | .submitted _ | .completed _ => true
  | .idle | .cleared _ => false

/-- What happens to a buffer in a run. -/
def acts {P B : Type} [DecidableEq B] (ls : List (Event P B × List (B × Act P))) (b : B) : List (Act P) :=
  (ls.flatMap Prod.snd).filterMap fun x => if x.1 = b then some x.2 else none

/-- The descriptors of the list are linked, each to the next one. -/
def Chained {B : Type} (d : Disk B) : List Nat → Prop
  | [] => False
  | [i] => (d.desc i).flags &&& VRING_DESC_F_NEXT = 0
  | i :: j :: idx => ((d.desc i).flags &&& VRING_DESC_F_NEXT ≠ 0 ∧ (d.desc i).next.toNat = j) ∧ Chained d (j :: idx)

/-- What the device is to do for a call. -/
def Call.op {B : Type} (c : Call B) (head : Nat) : Op B :=
  ⟨if c.write then VIRTIO_BLK_T_OUT else VIRTIO_BLK_T_IN, c.sector, c.b, BitVec.ofNat 32 BSIZE, !c.write, head⟩

end Xv6.Virtio
