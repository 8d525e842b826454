import Xv6.Fs
import Mathlib.Tactic.Simps.Basic

/-!
# What inodes hold: blocks and bytes

The block allocator, the inode table and the contents of inodes (`fs.c`), with `create` on top (`sysfile.c`), each call run alone from
its first statement to its last. The free map is read bit by bit and the inode blocks `struct dinode` by `struct dinode`, so here they
are maps from numbers; all other blocks are bytes, and an indirect block is read as an array of `uint`. A table entry has its own copy
of the fields of the inode, which `iupdate` writes back. Buffers show what was last left in a block, whether or not the block has been
passed to `log_write`. What is passed to `log_write` is on record: whether a block of the second kind has ever been, and the numbers of
all blocks in order, those of the free map and of inodes included.
-/

namespace Xv6

open Function

/-- Bits in a block of the free map. -/
def BPB : Nat := BSIZE * 8

/-- Inodes in a block, `sizeof(struct dinode)` being 64. -/
def IPB : Nat := BSIZE / 64

namespace Block

/-- `memset(data, 0, BSIZE)`. -/
def zero : Block := fun _ => 0

/-- `m` bytes stored from place `i` on. -/
def store (d : Block) (i m : Nat) (src : Nat → Byte) : Block := fun j => if i ≤ j.val ∧ j.val < i + m then src (j.val - i) else d j

/-- `m` bytes from place `i` on. -/
def load (d : Block) (i m : Nat) : List Byte := (List.range m).map fun k => d.byte (i + k)

end Block

namespace Ino

open Fs (IType Name namecmp)

/-- The fields of `struct superblock` that say how the disk is laid out; the data blocks are the last `nblocks` ones. -/
structure Superblock where
  size : Nat
  nblocks : Nat
  ninodes : Nat
  inodestart : Nat
  bmapstart : Nat

def IBLOCK (i : Nat) (sb : Superblock) : Nat := i / IPB + sb.inodestart

def BBLOCK (b : Nat) (sb : Superblock) : Nat := b / BPB + sb.bmapstart

/-- `struct dinode`; `addrs` counts up to `NDIRECT`. -/
structure Dinode where
  type : IType
  major : Int
  minor : Int
  nlink : Int
  size : Nat
  addrs : Nat → Nat

/-- The disk as the buffers show it, the inode table with its copies of inodes, and what has been passed to `log_write`. -/
structure State where
  sb : Superblock
  bitmap : Nat → Bool
  disk : Nat → Block
  logged : Nat → Bool
  writes : List Nat
  dinode : Nat → Dinode
  ref : Nat → Nat
  valid : Nat → Bool
  inode : Nat → Dinode

/-- The panics of the functions below. -/
inductive Panic where
  | freeingFreeBlock
  | bmapRange
  | igetNoInodes
  | ilock
  | ilockNoType
  | dirlookupNotDir
  | dirlookupRead
  | dirlinkRead
deriving DecidableEq, Repr

abbrev M := StateT State (Except Panic)

namespace Dinode

@[simps] def withAddr (d : Dinode) (k addr : Nat) : Dinode := { d with addrs := update d.addrs k addr }

@[simps] def withSize (d : Dinode) (size : Nat) : Dinode := { d with size := size }

@[simps] def withNlink (d : Dinode) (nlink : Int) : Dinode := { d with nlink := nlink }

@[simps] def withType (d : Dinode) (type : IType) : Dinode := { d with type := type }

end Dinode

namespace State

variable (s : State)

/-- The bit of block `b` in the free map, and `log_write` has been called. -/
@[simps] def withBit (b : Nat) (bit : Bool) : State :=
  { s with bitmap := update s.bitmap b bit, writes := s.writes ++ [BBLOCK b s.sb] }

/-- The buffer of block `b` holds `d`, and `log_write` has been called. -/
@[simps] def withBlock (b : Nat) (d : Block) : State :=
  { s with disk := update s.disk b d, logged := update s.logged b true, writes := s.writes ++ [b] }

/-- The buffer of block `b` holds `d`. -/
@[simps] def withBuffer (b : Nat) (d : Block) : State := { s with disk := update s.disk b d }

/-- Inode `i` on disk, and `log_write` has been called. -/
@[simps] def withDinode (i : Nat) (d : Dinode) : State :=
  { s with dinode := update s.dinode i d, writes := s.writes ++ [IBLOCK i s.sb] }

@[simps] def withInode (i : Nat) (d : Dinode) : State := { s with inode := update s.inode i d }

@[simps] def withRef (i n : Nat) : State := { s with ref := update s.ref i n }

@[simps] def withValid (i : Nat) (v : Bool) : State := { s with valid := update s.valid i v }

/-- The number of table entries in use. -/
def active : Nat := (List.range s.sb.ninodes).countP fun i => 0 < s.ref i

end State

/-! ## Blocks -/

/-- `bread`: what the block holds. -/
def bread (b : Nat) : M Block := fun s => .ok (s.disk b, s)

/-- The buffer of block `b`, modified and passed to `log_write`. -/
def modifyBlock (b : Nat) (f : Block → Block) : M Unit := fun s => .ok ((), s.withBlock b (f (s.disk b)))

/-- The buffer of block `b`, modified and released without `log_write`. -/
def modifyBuffer (b : Nat) (f : Block → Block) : M Unit := fun s => .ok ((), s.withBuffer b (f (s.disk b)))

/-- `bzero`. -/
def bzero (bno : Nat) : M Unit := modifyBlock bno fun _ => Block.zero

/-- `balloc`: the first block that is not marked, marked and zeroed, or 0. -/
def balloc : M Nat := fun s =>
  match (List.range s.sb.size).find? fun b => !s.bitmap b with
  | none => .ok (0, s)
  | some b => (do bzero b; pure b) (s.withBit b true)

/-- `bfree`. -/
def bfree (b : Nat) : M Unit := fun s =>
  if s.bitmap b = false then .error .freeingFreeBlock else .ok ((), s.withBit b false)

/-! ## The inode table -/

/-- The fields of the table entry of inode `ip`. -/
def readInode (ip : Nat) : M Dinode := fun s => .ok (s.inode ip, s)

/-- Change fields of the table entry of inode `ip`. -/
def modifyInode (ip : Nat) (f : Dinode → Dinode) : M Unit := fun s => .ok ((), s.withInode ip (f (s.inode ip)))

/-- `iupdate`. -/
def iupdate (ip : Nat) : M Unit := fun s => .ok ((), s.withDinode ip (s.inode ip))

/-- `iget`. -/
def iget (inum : Nat) : M Unit := fun s =>
  if 0 < s.ref inum then .ok ((), s.withRef inum (s.ref inum + 1))
  else if NINODE ≤ s.active then .error .igetNoInodes
  else .ok ((), (s.withRef inum 1).withValid inum false)

/-- `ialloc`: the first inode marked free, from 1 on, cleared and given the type. -/
def ialloc (type : IType) : M (Option Nat) := fun s =>
  match (List.range s.sb.ninodes).find? fun i => 1 ≤ i ∧ (s.dinode i).type = .free with
  | none => .ok (none, s)
  | some inum => (do iget inum; pure (some inum)) (s.withDinode inum ⟨type, 0, 0, 0, 0, fun _ => 0⟩)

/-- `ilock`: the lock is free between calls; the inode is read from disk if it has not been. -/
def ilock (ip : Nat) : M Unit := fun s =>
  if s.ref ip < 1 then .error .ilock
  else if s.valid ip then .ok ((), s)
  else if (s.dinode ip).type = .free then .error .ilockNoType
  else .ok ((), (s.withInode ip (s.dinode ip)).withValid ip true)

/-! ## Block addresses -/

/-- The address at place `k` of the inode, a new block if there is none; 0 if the disk is full. -/
def bmapAddr (ip k : Nat) : M Nat := do
  let d ← readInode ip
  if d.addrs k = 0 then do
    let addr ← balloc
    if addr = 0 then pure 0
    else do
      modifyInode ip fun d => d.withAddr k addr
      pure addr
  else pure (d.addrs k)

/-- The address at place `bn` of the indirect block `bno`, a new block if there is none; 0 if the disk is full. -/
def bmapIndirect (bno bn : Nat) : M Nat := do
  let a ← bread bno
  if a.word bn = 0 then do
    let addr ← balloc
    if addr = 0 then pure 0
    else do
      modifyBlock bno fun a => a.setWord bn (BitVec.ofNat 32 addr)
      pure addr
  else pure (a.word bn).toNat

/-- `bmap`: the block that holds block `bn` of the inode, which it allocates if there is none; 0 if the disk is full. -/
def bmap (ip bn : Nat) : M Nat :=
  if bn < NDIRECT then bmapAddr ip bn
  else if bn - NDIRECT < NINDIRECT then do
    let addr ← bmapAddr ip NDIRECT
    if addr = 0 then pure 0 else bmapIndirect addr (bn - NDIRECT)
  else throw .bmapRange

/-- The first loop of `itrunc`. -/
def truncDirect (ip : Nat) : List Nat → M Unit
  | [] => pure ()
  | i :: is => do
    let d ← readInode ip
    if d.addrs i ≠ 0 then do
      bfree (d.addrs i)
      modifyInode ip fun d => d.withAddr i 0
      truncDirect ip is
    else truncDirect ip is

/-- The second loop of `itrunc`, over the entries of the indirect block. -/
def truncIndirect (a : Block) : List Nat → M Unit
  | [] => pure ()
  | j :: js =>
    if a.word j ≠ 0 then do
      bfree (a.word j).toNat
      truncIndirect a js
    else truncIndirect a js

/-- The part of `itrunc` that frees the indirect block and what it refers to. -/
def truncLast (ip : Nat) : M Unit := do
  let d ← readInode ip
  if d.addrs NDIRECT ≠ 0 then do
    let a ← bread (d.addrs NDIRECT)
    truncIndirect a (List.range NINDIRECT)
    bfree (d.addrs NDIRECT)
    modifyInode ip fun d => d.withAddr NDIRECT 0
  else pure ()

/-- `itrunc`. -/
def itrunc (ip : Nat) : M Unit := do
  truncDirect ip (List.range NDIRECT)
  truncLast ip
  modifyInode ip fun d => d.withSize 0
  iupdate ip

/-- The part of `iput` that truncates and frees the inode. -/
def iputLast (ip : Nat) : M Unit := do
  itrunc ip
  modifyInode ip fun d => d.withType .free
  iupdate ip
  fun s => .ok ((), s.withValid ip false)

/-- `ip->ref--`; whoever calls `iput` has a reference. -/
def unref (ip : Nat) : M Unit := fun s => .ok ((), s.withRef ip (s.ref ip - 1))

/-- `iput`. -/
def iput (ip : Nat) : M Unit := do
  let last : Bool ← fun s => .ok (decide (s.ref ip = 1 ∧ s.valid ip = true ∧ (s.inode ip).nlink = 0), s)
  if last then do
    iputLast ip
    unref ip
  else unref ip

/-- `iunlockput`. -/
def iunlockput (ip : Nat) : M Unit := iput ip

/-! ## Contents -/

/-- What `either_copyin` finds: the bytes from `src` on, and whether the copy of the part that starts at `tot` fails, and after how
many bytes. -/
structure Source where
  byte : Nat → Byte
  fails : Nat → Option Nat

/-- The loop of `readi`; an iteration takes at least one byte, so `n` of them are enough. What was copied out is the second result. -/
def readiLoop (ip : Nat) (fails : Nat → Bool) (n : Nat) : Nat → Nat → Nat → M (Int × List Byte)
  | 0, tot, _ => pure (tot, [])
  | fuel + 1, tot, off =>
    if tot < n then do
      let addr ← bmap ip (off / BSIZE)
      if addr = 0 then pure (tot, [])
      else do
        let bp ← bread addr
        if fails tot then pure (-1, [])
        else do
          let r ← readiLoop ip fails n fuel (tot + min (n - tot) (BSIZE - off % BSIZE)) (off + min (n - tot) (BSIZE - off % BSIZE))
          pure (r.1, bp.load (off % BSIZE) (min (n - tot) (BSIZE - off % BSIZE)) ++ r.2)
    else pure (tot, [])

/-- `readi`: its result and the bytes that were copied out; `fails` says where `either_copyout` fails. -/
def readi (ip : Nat) (fails : Nat → Bool) (off n : Uint) : M (Int × List Byte) := do
  let d ← readInode ip
  if d.size < off.toNat ∨ (off + n).toNat < off.toNat then pure (0, [])
  else do
    let n := if d.size < (off + n).toNat then d.size - off.toNat else n.toNat
    readiLoop ip fails n n 0 off.toNat

/-- The loop of `writei`: how much was written and where it stopped. -/
def writeiLoop (ip : Nat) (src : Source) (n : Nat) : Nat → Nat → Nat → M (Nat × Nat)
  | 0, tot, off => pure (tot, off)
  | fuel + 1, tot, off =>
    if tot < n then do
      let addr ← bmap ip (off / BSIZE)
      if addr = 0 then pure (tot, off)
      else
        match src.fails tot with
        | some k => do
          modifyBuffer addr fun d => d.store (off % BSIZE) (min k (min (n - tot) (BSIZE - off % BSIZE))) fun j => src.byte (tot + j)
          pure (tot, off)
        | none => do
          modifyBlock addr fun d => d.store (off % BSIZE) (min (n - tot) (BSIZE - off % BSIZE)) fun j => src.byte (tot + j)
          writeiLoop ip src n fuel (tot + min (n - tot) (BSIZE - off % BSIZE)) (off + min (n - tot) (BSIZE - off % BSIZE))
    else pure (tot, off)

/-- `writei`. -/
def writei (ip : Nat) (src : Source) (off n : Uint) : M Int := do
  let d ← readInode ip
  if d.size < off.toNat ∨ (off + n).toNat < off.toNat then pure (-1)
  else if MAXFILE * BSIZE < (off + n).toNat then pure (-1)
  else do
    let r ← writeiLoop ip src n.toNat n.toNat 0 off.toNat
    modifyInode ip fun d => if d.size < r.2 then d.withSize r.2 else d
    iupdate ip
    pure r.1

/-! ## Directories -/

/-- `de.inum` of the `struct dirent` in the bytes read. -/
def direntInum (bs : List Byte) : Nat := (bs.getD 0 0).toNat + 256 * (bs.getD 1 0).toNat

/-- `de.name`, up to the NUL if there is one. -/
def direntName (bs : List Byte) : Name := (((bs.drop 2).take DIRSIZ).takeWhile (· ≠ 0)).map fun b => Char.ofNat b.toNat

/-- The bytes of a `struct dirent`, the name filled up by `strncpy`. -/
def direntBytes (inum : Nat) (name : Name) (k : Nat) : Byte :=
  if k = 0 then BitVec.ofNat 8 inum
  else if k = 1 then BitVec.ofNat 8 (inum / 256)
  else BitVec.ofNat 8 (((name.take DIRSIZ).getD (k - 2) (Char.ofNat 0)).toNat)

/-- The loop of `dirlookup`, at most `fuel` entries of it. -/
def dirlookupLoop (dp : Nat) (name : Name) (size : Nat) : Nat → Nat → M (Option (Nat × Nat))
  | 0, _ => pure none
  | fuel + 1, off =>
    if off < size then do
      let r ← readi dp (fun _ => false) (BitVec.ofNat 32 off) (BitVec.ofNat 32 DIRENT)
      if r.1 ≠ DIRENT then throw .dirlookupRead
      else if direntInum r.2 ≠ 0 ∧ namecmp name (direntName r.2) = 0 then do
        iget (direntInum r.2)
        pure (some (direntInum r.2, off))
      else dirlookupLoop dp name size fuel (off + DIRENT)
    else pure none

/-- `dirlookup`. -/
def dirlookup (dp : Nat) (name : Name) : M (Option (Nat × Nat)) := do
  let d ← readInode dp
  if d.type ≠ .dir then throw .dirlookupNotDir
  else dirlookupLoop dp name d.size d.size 0

/-- The loop of `dirlink` that looks for an empty entry. -/
def dirlinkLoop (dp size : Nat) : Nat → Nat → M Nat
  | 0, off => pure off
  | fuel + 1, off =>
    if off < size then do
      let r ← readi dp (fun _ => false) (BitVec.ofNat 32 off) (BitVec.ofNat 32 DIRENT)
      if r.1 ≠ DIRENT then throw .dirlinkRead
      else if direntInum r.2 = 0 then pure off
      else dirlinkLoop dp size fuel (off + DIRENT)
    else pure off

/-- `dirlink`. -/
def dirlink (dp : Nat) (name : Name) (inum : Nat) : M Bool := do
  match ← dirlookup dp name with
  | some (ip, _) => do
    iput ip
    pure false
  | none => do
    let d ← readInode dp
    let off ← dirlinkLoop dp d.size d.size 0
    let r ← writei dp ⟨direntBytes inum name, fun _ => none⟩ (BitVec.ofNat 32 off) (BitVec.ofNat 32 DIRENT)
    pure (decide (r = DIRENT))

/-- The two entries of a new directory. -/
def dotEntries (dp ip : Nat) (type : IType) : M Bool :=
  if type = .dir then do
    if ← dirlink ip ['.'] ip then dirlink ip ['.', '.'] dp
    else pure false
  else pure true

/-- The entries `create` makes: those of a new directory, then the one that names the new inode. -/
def newEntries (dp ip : Nat) (name : Name) (type : IType) : M Bool := do
  if ← dotEntries dp ip type then dirlink dp name ip
  else pure false

/-- `dp->nlink++` for the `..` of a new directory. -/
def countSubdir (dp : Nat) (type : IType) : M Unit :=
  if type = .dir then do
    modifyInode dp fun d => d.withNlink (toShort (d.nlink + 1))
    iupdate dp
  else pure ()

/-- The second half of `create`: a new inode, when the name is not present. -/
def createNew (dp : Nat) (name : Name) (type : IType) (major minor : Int) : M (Option Nat) := do
  match ← ialloc type with
  | none => do
    iunlockput dp
    pure none
  | some ip => do
    ilock ip
    modifyInode ip fun d => { d with major := major, minor := minor, nlink := 1 }
    iupdate ip
    if ← newEntries dp ip name type then do
      countSubdir dp type
      iunlockput dp
      pure (some ip)
    else do
      modifyInode ip fun d => d.withNlink 0
      iupdate ip
      iunlockput ip
      iunlockput dp
      pure none

/-- `create` from the directory `dp` on that `nameiparent` found. -/
def create (dp : Nat) (name : Name) (type : IType) (major minor : Int) : M (Option Nat) := do
  ilock dp
  match ← dirlookup dp name with
  | some (ip, _) => do
    iunlockput dp
    ilock ip
    let d ← readInode ip
    if type = .file ∧ (d.type = .file ∨ d.type = .device) then pure (some ip)
    else do
      iunlockput ip
      pure none
  | none => createNew dp name type major minor

/-! ## Calls -/

/-- What is done to inodes; `nlink` is what `sys_link` and `sys_unlink` do to the count of links. -/
inductive Call where
  | iget (ip : Nat)
  | readi (ip : Nat) (fails : Nat → Bool) (off n : Uint)
  | writei (ip : Nat) (src : Source) (off n : Uint)
  | itrunc (ip : Nat)
  | nlink (ip : Nat) (n : Int)
  | ialloc (type : IType)
  | create (dp : Nat) (name : Name) (type : IType) (major minor : Int)
  | iput (ip : Nat)

/-- What a call gives back: the result of `readi` or `writei`, and what `readi` copied out. -/
structure Reply where
  result : Int
  data : List Byte
deriving DecidableEq, Repr

def Call.run : Call → M Reply
  | .iget ip => do
    Ino.iget ip
    pure ⟨0, []⟩
  | .readi ip fails off n => do
    ilock ip
    let r ← Ino.readi ip fails off n
    pure ⟨r.1, r.2⟩
  | .writei ip src off n => do
    ilock ip
    let r ← Ino.writei ip src off n
    pure ⟨r, []⟩
  | .itrunc ip => do
    ilock ip
    Ino.itrunc ip
    pure ⟨0, []⟩
  | .nlink ip n => do
    ilock ip
    modifyInode ip fun d => d.withNlink n
    iupdate ip
    pure ⟨0, []⟩
  | .ialloc type => do
    let _ ← Ino.ialloc type
    pure ⟨0, []⟩
  | .create dp name type major minor => do
    let _ ← Ino.create dp name type major minor
    pure ⟨0, []⟩
  | .iput ip => do
    Ino.iput ip
    pure ⟨0, []⟩

/-- One call; a panic stops the machine. -/
def State.step (s : State) (call : Call) : Option State :=
  match call.run s with
  | .ok (_, t) => some t
  | .error _ => none

/-- The panic a call runs into, if any. -/
def State.panic (s : State) (call : Call) : Option Panic :=
  match call.run s with
  | .ok _ => none
  | .error e => some e

end Ino

end Xv6
