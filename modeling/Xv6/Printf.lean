import Xv6.Param

/-!
# Printing numbers

`printint` of the kernel and of the user library. The buffer is what has been stored in it, and a store beyond its end gives `none`.
-/

namespace Xv6.Printf

/-- The size of `buf`. -/
def SIZE : Nat := 20

/-- `do { buf[i++] = digits[x % base]; } while((x /= base) != 0);` with room for this many characters: what is stored. -/
def store (digits : List Char) (base : Nat) : Nat → Nat → Option (List Char)
  | 0, _ => none
  | room + 1, x =>
    if x / base = 0 then some [digits.getD (x % base) '?']
    else (store digits base room (x / base)).map (digits.getD (x % base) '?' :: ·)

/-- `printint` with its table of digits: what is printed. -/
def printint (digits : List Char) (xx : BitVec 64) (base : Nat) (sign : Bool) : Option (List Char) :=
  let neg := sign && xx.slt 0
  let x := if neg then -xx else xx
  match store digits base SIZE x.toNat with
  | none => none
  | some buf =>
    if neg then if SIZE ≤ buf.length then none else some (buf ++ ['-']).reverse
    else some buf.reverse

/-- The table of the kernel. -/
def kernelDigits : List Char := ['0', '1', '2', '3', '4', '5', '6', '7', '8', '9', 'a', 'b', 'c', 'd', 'e', 'f']

/-- The table of the user library. -/
def userDigits : List Char := ['0', '1', '2', '3', '4', '5', '6', '7', '8', '9', 'A', 'B', 'C', 'D', 'E', 'F']

def kernelPrintint : BitVec 64 → Nat → Bool → Option (List Char) := printint kernelDigits

def userPrintint : BitVec 64 → Nat → Bool → Option (List Char) := printint userDigits

end Xv6.Printf
