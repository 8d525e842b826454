import Xv6.Inode
import Xv6.Lib.Owns

/-!
# Who owns a block, and what a file is

The pointers of an inode are its block addresses and the entries of its indirect block. A consistent disk has every data block that is
marked in the free map pointed to exactly once, and none that is not marked. To a program an inode is a list of bytes.
-/

namespace Xv6.Ino

open Fs (IType)

/-- The number of blocks before the data blocks. -/
def Superblock.nmeta (sb : Superblock) : Nat := sb.size - sb.nblocks

/-- Pointer `k` of an inode: the addresses in the inode, then the entries of the indirect block. An inode marked free has none. -/
def Dinode.ptr (d : Dinode) (disk : Nat → Block) (k : Nat) : Nat :=
  if d.type = .free then 0
  else if k ≤ NDIRECT then d.addrs k
  else if d.addrs NDIRECT = 0 then 0
  else if k < NDIRECT + 1 + NINDIRECT then ((disk (d.addrs NDIRECT)).word (k - (NDIRECT + 1))).toNat
  else 0

/-- The pointer to block `bn` of the contents. -/
def slot (bn : Nat) : Nat := if bn < NDIRECT then bn else bn + 1

/-- Every block below the size is there. -/
def Dinode.NoHoles (d : Dinode) (disk : Nat → Block) : Prop :=
  ∀ bn, bn * BSIZE < d.size → bn < MAXFILE ∧ d.ptr disk (slot bn) ≠ 0

namespace State

variable (s : State)

/-- Pointer `q.2` of inode `q.1` on disk. -/
def ptr (q : Nat × Nat) : Nat := (s.dinode q.1).ptr s.disk q.2

/-- A data block is marked if and only if exactly one pointer refers to it, and no pointer refers to a block that is not marked, that
holds metadata or that is past the end. -/
structure Owned : Prop where
  marked : ∀ b, s.sb.nmeta ≤ b → b < s.sb.size → (s.bitmap b = true ↔ ∃! q, s.ptr q = b)
  clear : ∀ b, s.bitmap b = false → ∀ q, s.ptr q ≠ b
  range : ∀ q, s.ptr q ≠ 0 → s.sb.nmeta ≤ s.ptr q ∧ s.ptr q < s.sb.size

/-- A consistent file system between two calls: the metadata blocks are marked, data blocks are owned, files have no holes, and the
table's copies of inodes are what is on disk. -/
structure Consistent : Prop where
  owned : s.Owned
  pos : 0 < s.sb.nmeta
  uint : s.sb.size ≤ 2 ^ 32
  metadata : ∀ b < s.sb.nmeta, s.bitmap b = true
  holes : ∀ i, (s.dinode i).type ≠ .free → (s.dinode i).NoHoles s.disk
  synced : ∀ i, s.valid i = true → s.inode i = s.dinode i ∧ (s.dinode i).type ≠ .free

/-- The byte at place `o` of inode `i`. -/
def byteAt (i o : Nat) : Byte := (s.disk (s.ptr (i, slot (o / BSIZE)))).byte (o % BSIZE)

/-- What a program sees of an inode. -/
def bytes (i : Nat) : List Byte :=
  if (s.dinode i).type = .free then [] else (List.range (s.dinode i).size).map (s.byteAt i)

/-- The number of free blocks. -/
def nfree : Nat := Lib.room s.sb.size s.bitmap

end State

/-! ## Files as lists of bytes -/

/-- How many blocks are missing for blocks `lo` up to `hi` of an inode with these pointers. -/
def missing (ptr : Nat → Nat) (lo hi : Nat) : Nat :=
  (List.range' lo (hi - lo)).countP (fun bn => ptr (slot bn) = 0) + if lo < hi ∧ NDIRECT < hi ∧ ptr NDIRECT = 0 then 1 else 0

/-- The number of the first block past the bytes before place `o`. -/
def blocksTo (o : Nat) : Nat := (o + BSIZE - 1) / BSIZE

/-- An access to the contents of an inode in which all copies succeed. -/
inductive FileOp where
  | read (i : Nat) (off n : Uint)
  | write (i : Nat) (byte : Nat → Byte) (off n : Uint)
  | trunc (i : Nat)

namespace FileOp

/-- The call that makes the access. -/
def call : FileOp → Call
  | read i off n => .readi i (fun _ => false) off n
  | write i byte off n => .writei i ⟨byte, fun _ => none⟩ off n
  | trunc i => .itrunc i

def inum : FileOp → Nat
  | read i _ _ => i
  | write i _ _ _ => i
  | trunc i => i

/-- What the access gives back, and what it makes of the list of bytes. -/
def spec (f : List Byte) : FileOp → Reply × List Byte
  | read _ off n =>
    if f.length < off.toNat ∨ 2 ^ 32 ≤ off.toNat + n.toNat then (⟨0, []⟩, f)
    else (⟨((f.drop off.toNat).take n.toNat).length, (f.drop off.toNat).take n.toNat⟩, f)
  | write _ byte off n =>
    if f.length < off.toNat ∨ 2 ^ 32 ≤ off.toNat + n.toNat ∨ MAXFILE * BSIZE < off.toNat + n.toNat then (⟨-1, []⟩, f)
    else (⟨n.toNat, []⟩, f.take off.toNat ++ (List.range n.toNat).map byte ++ f.drop (off.toNat + n.toNat))
  | trunc _ => (⟨0, []⟩, [])

/-- The contents of all inodes after the access. -/
def apply (op : FileOp) (files : Nat → List Byte) : Nat → List Byte := Function.update files op.inum (op.spec (files op.inum)).2

/-- How many blocks the access allocates at most; a write that is refused allocates none. -/
def blocks (s : State) : FileOp → Nat
  | write i byte off n =>
    if ((write i byte off n).spec (s.bytes i)).1.result = -1 then 0
    else missing (fun k => s.ptr (i, k)) (off.toNat / BSIZE) (blocksTo (off.toNat + n.toNat))
  | _ => 0

end FileOp

/-- The inode is in use, a reference to it is held, and there are enough free blocks. -/
structure State.Ready (s : State) (op : FileOp) : Prop where
  used : (s.dinode op.inum).type ≠ .free
  ref : 0 < s.ref op.inum
  room : op.blocks s ≤ s.nfree

/-! ## Copies that fail -/

/-- In `writei`, byte `j` of a failed copy has spoilt a block. The copy is of the part of the source from `d` on, all copies before it
succeed and find a block, and it stops after `k` bytes in a block that is there; byte `j` of them is not what the block holds, and it is
below the size of the file or the block has not been passed to `log_write`. The first arguments are the pointers and bytes of the inode. -/
structure Torn (ptr : Nat → Nat) (byte : Nat → Byte) (logged : Nat → Bool) (nfree size : Nat) (src : Source) (off n d k j : Nat) : Prop where
  part : d < n ∧ (d = 0 ∨ (off + d) % BSIZE = 0)
  before : ∀ c < d, c = 0 ∨ (off + c) % BSIZE = 0 → src.fails c = none
  room : missing ptr (off / BSIZE) ((off + d) / BSIZE) ≤ nfree
  fails : src.fails d = some k
  there : ptr (slot ((off + d) / BSIZE)) ≠ 0
  copied : j < k ∧ d + j < n ∧ (off + d) % BSIZE + j < BSIZE
  differs : src.byte (d + j) ≠ byte (off + d + j)
  seen : off + d + j < size ∨ logged (ptr (slot ((off + d) / BSIZE))) = false

namespace State

variable (s : State) (i : Nat) (src : Source) (off n : Uint)

/-- A copy of `writei` fails after it has changed bytes of a block. -/
def Tears : Prop :=
  off.toNat ≤ (s.dinode i).size ∧ off.toNat + n.toNat ≤ MAXFILE * BSIZE ∧
    ∃ d k j, Torn (fun k => s.ptr (i, k)) (s.byteAt i) s.logged s.nfree (s.dinode i).size src off.toNat n.toNat d k j

/-- What `writei` reports as `r` is what it has changed: the first `r` bytes of the source are in the file and nothing else of any file
has changed, or nothing has if `r` is -1, and the buffers that have changed have been passed to `log_write`. -/
structure WritesExactly (r : Int) (t : State) : Prop where
  refused : r = -1 → t.bytes = s.bytes
  wrote : 0 ≤ r → t.bytes = Function.update s.bytes i
    ((s.bytes i).take off.toNat ++ (List.range r.toNat).map src.byte ++ (s.bytes i).drop (off.toNat + r.toNat))
  size : 0 ≤ r → (t.bytes i).length = max (s.bytes i).length (off.toNat + r.toNat)
  logged : ∀ b, t.disk b ≠ s.disk b → t.logged b = true

end State

end Xv6.Ino
