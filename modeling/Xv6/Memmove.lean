import Xv6.Param

/-!
# Moving bytes

`memmove` of the kernel (`string.c`) and of the user library (`ulib.c`), on a memory that has a byte at each address. The ranges are in
the memory, so no address wraps.
-/

namespace Xv6.Memmove

abbrev Bytes := Nat → Byte

/-- `while(n-- > 0) *d++ = *s++;` -/
def copyUp : Nat → Nat → Nat → Bytes → Bytes
  | 0, _, _, m => m
  | n + 1, d, s, m => copyUp n (d + 1) (s + 1) (Function.update m d (m s))

/-- `while(n-- > 0) *--d = *--s;` -/
def copyDown : Nat → Nat → Nat → Bytes → Bytes
  | 0, _, _, m => m
  | n + 1, d, s, m => copyDown n (d - 1) (s - 1) (Function.update m (d - 1) (m (s - 1)))

/-- `memmove` of the kernel. -/
def memmove (dst src : Nat) (n : Uint) (m : Bytes) : Bytes :=
  if n = 0 then m
  else if src < dst ∧ dst < src + n.toNat then copyDown n.toNat (dst + n.toNat) (src + n.toNat) m
  else copyUp n.toNat dst src m

/-- `memmove` of the user library, where `n` is an `int`. -/
def ulibMemmove (dst src : Nat) (n : Int) (m : Bytes) : Bytes :=
  if dst < src then copyUp n.toNat dst src m else copyDown n.toNat (dst + n).toNat (src + n).toNat m

end Xv6.Memmove
