import Xv6.InodeSpec

/-!
# Writing to a shared file

`filewrite` (`file.c`) on an open file of type `FD_INODE`, by any number of processes that share the `struct file`. A write is cut into
chunks, each of them from `begin_op` to `end_op`; between two chunks of a call others may run. A chunk is one step, since `f->off` is read
and written with the inode locked.
-/

namespace Xv6.Ino

/-- A call of `filewrite`: the bytes of the buffer, its length `n`, `i` of them written so far, and the result once it has returned. -/
structure Writer where
  src : Source
  n : Nat
  i : Nat
  ret : Option Int

/-- The file system, the fields of the `struct file`, and the calls on it. -/
structure Shared (P : Type) where
  fs : State
  ip : Nat
  off : Uint
  writer : P → Writer

/-- `((MAXOPBLOCKS-1-1-2) / 2) * BSIZE`. -/
def maxChunk : Nat := (MAXOPBLOCKS - 1 - 1 - 2) / 2 * BSIZE

namespace Writer

variable (w : Writer)

/-- `n1`: what is left, at most a chunk. -/
def n1 : Nat := min (w.n - w.i) maxChunk

/-- The buffer from `addr + i` on. -/
def rest : Source := ⟨fun k => w.src.byte (w.i + k), fun k => w.src.fails (w.i + k)⟩

/-- `ret = (i == n ? n : -1)`. -/
@[simps] def finish : Writer := { w with ret := some (if w.i = w.n then w.n else -1) }

/-- `i += r`. -/
@[simps] def advance (r : Nat) : Writer := { w with i := w.i + r }

/-- What follows a chunk in which `writei` returns `r`. -/
def after (r : Int) : Writer := if r ≠ w.n1 then w.finish else w.advance w.n1

end Writer

namespace Shared

variable {P : Type} [DecidableEq P]

/-- Process `p` goes on: a chunk if something is left to write, and otherwise it returns. -/
def step (s : Shared P) (p : P) : Option (Shared P) :=
  if (s.writer p).ret.isSome then none
  else if (s.writer p).i < (s.writer p).n then
    match (Call.writei s.ip (s.writer p).rest s.off (BitVec.ofNat 32 (s.writer p).n1)).run s.fs with
    | .error _ => none
    | .ok (r, fs) =>
      some ⟨fs, s.ip, if 0 < r.result then s.off + BitVec.ofInt 32 r.result else s.off,
        Function.update s.writer p ((s.writer p).after r.result)⟩
  else some ⟨s.fs, s.ip, s.off, Function.update s.writer p (s.writer p).finish⟩

/-- The buffer can be read, and there is enough space for the next chunk: in the file and on the disk. -/
def Enough (s : Shared P) (p : P) : Prop :=
  (s.writer p).i < (s.writer p).n → (∀ k < (s.writer p).n, (s.writer p).src.fails k = none) ∧ s.off.toNat + (s.writer p).n1 ≤ MAXFILE * BSIZE ∧
    (FileOp.write s.ip (s.writer p).rest.byte s.off (BitVec.ofNat 32 (s.writer p).n1)).blocks s.fs ≤ s.fs.nfree

instance (s : Shared P) (p : P) : Decidable (s.Enough p) := inferInstanceAs (Decidable (_ → _))

/-- The inode is in use and open, the offset is within the file, and the calls are about to start. -/
structure Start (s : Shared P) : Prop where
  consistent : s.fs.Consistent
  used : (s.fs.dinode s.ip).type ≠ .free
  ref : 0 < s.fs.ref s.ip
  off : s.off.toNat ≤ (s.fs.bytes s.ip).length
  fresh : ∀ p, (s.writer p).i = 0 ∧ (s.writer p).ret = none

end Shared

end Xv6.Ino
