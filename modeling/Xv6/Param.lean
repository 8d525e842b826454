import Mathlib.Data.BitVec
import Mathlib.Logic.Function.Basic

/-!
# Constants, machine integers and disk blocks

The constants of `param.h` and `fs.h`, the C integer types the kernel uses, and the block of `BSIZE` bytes that `struct buf`
holds. `(uint*)bp->data` and `(struct logheader*)buf->data` read a block as little-endian 32-bit words: `Block.word`.
-/

namespace Xv6

/-- Maximum number of processes. -/
def NPROC : Nat := 64

/-- Open files per process. -/
def NOFILE : Nat := 16

/-- Open files per system. -/
def NFILE : Nat := 100

/-- Maximum number of active inodes. -/
def NINODE : Nat := 50

/-- Maximum major device number. -/
def NDEV : Nat := 10

/-- Maximum number of blocks any file-system operation writes. -/
def MAXOPBLOCKS : Nat := 10

/-- Maximum number of data blocks in the on-disk log. -/
def LOGBLOCKS : Nat := MAXOPBLOCKS * 3

/-- The number of buffers in the block cache. -/
def NBUF : Nat := MAXOPBLOCKS * 3

/-- The block size in bytes. -/
def BSIZE : Nat := 1024

/-- `uint`. -/
abbrev Uint := BitVec 32

instance : LawfulBEq Uint := inferInstance

/-- `uchar`. -/
abbrev Byte := BitVec 8

/-- The largest value of a 32-bit `int`. -/
def INT_MAX : Int := 2 ^ 31 - 1

/-- `x++` on an `int`: past the largest value it wraps, as the target machine does. -/
def intIncr (x : Int) : Int := if x = INT_MAX then -2 ^ 31 else x + 1

/-- The value of an integer stored in a `short`. -/
def toShort (x : Int) : Int := (x + 2 ^ 15) % 2 ^ 16 - 2 ^ 15

/-- `strncmp` on strings without their NUL. -/
def strncmp : List Char → List Char → Nat → Int
  | _, _, 0 => 0
  | [], [], _ + 1 => 0
  | p :: _, [], _ + 1 => p.toNat
  | [], q :: _, _ + 1 => -q.toNat
  | p :: ps, q :: qs, n + 1 => if p = q then strncmp ps qs n else p.toNat - q.toNat

/-- The contents of a disk block, or of the buffer that caches it. -/
abbrev Block := Fin BSIZE → Byte

namespace Block

/-- Byte `j` of a block; a block has no byte past its end. -/
def byte (d : Block) (j : Nat) : Byte := if h : j < BSIZE then d ⟨j, h⟩ else 0

/-- `((uint*)data)[i]`, the words being little-endian. -/
def word (d : Block) (i : Nat) : Uint := d.byte (4 * i + 3) ++ d.byte (4 * i + 2) ++ d.byte (4 * i + 1) ++ d.byte (4 * i)

/-- `((uint*)data)[i] = v`. -/
def setWord (d : Block) (i : Nat) (v : Uint) : Block :=
  fun j => if j.val / 4 = i then v.extractLsb' (8 * (j.val % 4)) 8 else d j

variable (d : Block) (i j : Nat) (v : Uint)

/-- The bytes of a word that was stored. -/
theorem byte_setWord_self (i r : Nat) (v : Uint) (hr : r < 4) (hi : 4 * i + r < BSIZE) :
    (d.setWord i v).byte (4 * i + r) = v.extractLsb' (8 * r) 8 := by
  have h1 : (4 * i + r) / 4 = i := by omega
  have h2 : (4 * i + r) % 4 = r := by omega
  simp only [byte, hi, dif_pos, setWord, h1, if_true, h2]

/-- The bytes of another word are not touched by a store. -/
theorem byte_setWord_of_ne (hj : j / 4 ≠ i) : (d.setWord i v).byte j = d.byte j := by
  simp only [byte, setWord, if_neg hj]

/-- A word that was stored is read back. -/
@[simp] theorem word_setWord_self (i : Nat) (v : Uint) (hi : 4 * i + 3 < BSIZE) : (d.setWord i v).word i = v := by
  unfold word
  rw [byte_setWord_self d i 3 v (by omega) hi, byte_setWord_self d i 2 v (by omega) (by omega),
    byte_setWord_self d i 1 v (by omega) (by omega), show 4 * i = 4 * i + 0 from rfl,
    byte_setWord_self d i 0 v (by omega) (by omega)]
  ext k hk
  simp only [BitVec.getElem_append, BitVec.getElem_extractLsb']
  split_ifs <;> rw [← BitVec.getLsbD_eq_getElem] <;> congr 1 <;> omega

/-- A store to another word does not change a word. -/
@[simp] theorem word_setWord_of_ne (h : j ≠ i) : (d.setWord i v).word j = d.word j := by
  unfold word
  rw [byte_setWord_of_ne d i _ v (by omega), byte_setWord_of_ne d i _ v (by omega), byte_setWord_of_ne d i _ v (by omega),
    byte_setWord_of_ne d i _ v (by omega)]

end Block

end Xv6
