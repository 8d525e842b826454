import Xv6.Param
import Xv6.Lib.Crash

/-!
# The redo log: `log.c`

The on-disk log is a header block at `log.start`, holding the number of logged blocks and their block numbers, followed by the
copies of those blocks. `commit` writes the copies, writes the header (the commit point), copies the blocks home and writes the
header again with no blocks; `recoverFromLog` does the last two from whatever header it finds.

The code reads and writes the disk through the buffer cache. Here a buffer that is cached is served from memory and one that is
not is read from the disk and cached; `bwrite` changes one block of the disk. What is in memory, the cache and `log.lh`, is
passed along explicitly and is lost when the machine stops. `log.lh` is the list `log.lh.block[0..n)`, its length is `log.lh.n`.
-/

namespace Xv6

open Lib

/-- A locked buffer as `bread` returns it: the number of its block and its data. -/
structure Buf where
  blockno : Uint
  data : Block

/-- What the log uses of the memory: the cached blocks and the in-memory header `log.lh`. -/
structure LogMem where
  cache : Uint → Option Block
  lh : List Uint

/-- The memory at boot: nothing is cached, the log header is empty. -/
def LogMem.boot : LogMem := ⟨fun _ => none, []⟩

/-- The disk as a map from block number to block, and programs over it. -/
abbrev Disk := Uint → Block

/-- A kernel function that uses the disk: it stops at a result or at a write. -/
abbrev DiskProg := Prog Uint Block

/-- `bread`: the buffer for a block, read from the disk if it is not cached. -/
def bread (b : Uint) (m : LogMem) : DiskProg (Buf × LogMem) :=
  match m.cache b with
  | some d => .ret (⟨b, d⟩, m)
  | none => .read b (fun d => .ret (⟨b, d⟩, { m with cache := Function.update m.cache b (some d) }))

/-- `bwrite`: the buffer's data, which is what the cache now holds, goes to the disk. -/
def bwrite (buf : Buf) (m : LogMem) : DiskProg LogMem :=
  .write buf.blockno buf.data (.ret { m with cache := Function.update m.cache buf.blockno (some buf.data) })

/-- The block number of the log's copy of the block logged at place `tail`: `log.start+tail+1`. -/
def logSlot (start : Uint) (tail : Nat) : Uint := start + BitVec.ofNat 32 tail + 1

/-- `((struct logheader*)data)->n`. -/
def headN (d : Block) : Int := (d.word 0).toInt

/-- The header a header block holds: `n`, and the block numbers that follow it. -/
def headBlocks (d : Block) : List Uint := (List.range (headN d).toNat).map (fun i => d.word (i + 1))

/-- The stores of the loop of `write_head`, from place `i` on. -/
def putBlocks : Nat → List Uint → Block → Block
  | _, [], d => d
  | i, b :: bs, d => putBlocks (i + 1) bs (d.setWord (i + 1) b)

/-- A header block with the given header stored in it; the rest of the block is as it was. -/
def putHead (lh : List Uint) (d : Block) : Block := putBlocks 0 lh (d.setWord 0 (BitVec.ofNat 32 lh.length))

/-- `read_head`: read the log header from disk into the in-memory log header. -/
def readHead (start : Uint) (m : LogMem) : DiskProg LogMem := do
  let (buf, m) ← bread start m
  return { m with lh := headBlocks buf.data }

/-- `write_head`: write the in-memory log header to disk. -/
def writeHead (start : Uint) (m : LogMem) : DiskProg LogMem := do
  let (buf, m) ← bread start m
  bwrite { buf with data := putHead m.lh buf.data } m

/-- The loop of `install_trans`, from place `tail` on. -/
def installFrom (start : Uint) : Nat → List Uint → LogMem → DiskProg LogMem
  | _, [], m => return m
  | tail, b :: bs, m => do
    let (lbuf, m) ← bread (logSlot start tail) m
    let (dbuf, m) ← bread b m
    let m ← bwrite { dbuf with data := lbuf.data } m
    installFrom start (tail + 1) bs m

/-- `install_trans`: copy committed blocks from the log to their home location. Its argument `recovering` only chooses between
printing a line and unpinning the buffer; neither touches a block. -/
def installTrans (start : Uint) (m : LogMem) : DiskProg LogMem := installFrom start 0 m.lh m

/-- The loop of `write_log`, from place `tail` on. -/
def writeLogFrom (start : Uint) : Nat → List Uint → LogMem → DiskProg LogMem
  | _, [], m => return m
  | tail, b :: bs, m => do
    let (dst, m) ← bread (logSlot start tail) m
    let (src, m) ← bread b m
    let m ← bwrite { dst with data := src.data } m
    writeLogFrom start (tail + 1) bs m

/-- `write_log`: copy modified blocks from the cache to the log. -/
def writeLog (start : Uint) (m : LogMem) : DiskProg LogMem := writeLogFrom start 0 m.lh m

/-- `commit`. -/
def commit (start : Uint) (m : LogMem) : DiskProg LogMem :=
  if 0 < m.lh.length then do
    let m ← writeLog start m
    let m ← writeHead start m
    let m ← installTrans start m
    writeHead start { m with lh := [] }
  else return m

/-- `recover_from_log`: if the log holds a committed transaction, copy it home; then clear the log. -/
def recoverFromLog (start : Uint) (m : LogMem) : DiskProg LogMem := do
  let m ← readHead start m
  let m ← installTrans start m
  writeHead start { m with lh := [] }

/-- `initlog` at boot: the log's place is known from the superblock, the memory is fresh. (`sizeof(struct logheader)` is
`4 + 4 * LOGBLOCKS`, below `BSIZE`: the panic of `initlog` is not reached.) -/
def initlog (start : Uint) : DiskProg LogMem := recoverFromLog start LogMem.boot

/-- The blocks of the log: the header and the copies. -/
def InLog (start b : Uint) : Prop := ∃ t ≤ LOGBLOCKS, b = start + BitVec.ofNat 32 t

/-- Two disks with the same home blocks: they agree on every block that is not in the log. -/
def HomeEq (start : Uint) (D D' : Disk) : Prop := ∀ b, ¬InLog start b → D b = D' b

/-- A disk with the blocks named replaced by new contents. -/
def applyNew (bs : List Uint) (new : Uint → Block) (D : Disk) : Disk := fun b => if b ∈ bs then new b else D b

end Xv6
