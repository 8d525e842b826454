import Xv6.Memmove

/-!
# Moves between ranges that overlap

Both versions of `memmove` choose the direction in which no byte of the source is overwritten before it has been read.
-/

namespace Xv6.Memmove

open Function

/-- The destination holds what the source held, and nothing else has changed. -/
def Moved (dst src n : Nat) (m m' : Bytes) : Prop :=
  (∀ i < n, m' (dst + i) = m (src + i)) ∧ ∀ a, ¬(dst ≤ a ∧ a < dst + n) → m' a = m a

namespace MoveAux

variable {n d s : Nat} {m : Bytes}

/-- Upwards, from a source that does not start below the destination and reach into it. -/
theorem copyUp_moved (h : ¬(s < d ∧ d < s + n)) : Moved d s n m (copyUp n d s m) := by
  induction n generalizing d s m with
  | zero => exact ⟨fun i hi => absurd hi (Nat.not_lt_zero i), fun _ _ => rfl⟩
  | succ n ih =>
    obtain ⟨hmoved, hsame⟩ := @ih (d + 1) (s + 1) (update m d (m s)) (by omega)
    refine ⟨fun i hi => ?_, fun a ha => ?_⟩
    · cases i with
      | zero =>
        rw [copyUp, hsame _ (by omega)]
        exact update_self ..
      | succ i =>
        have hi' := hmoved i (by omega)
        -- what is still to be read is not the byte just written
        rw [update_of_ne (by omega)] at hi'
        rw [copyUp, show d + (i + 1) = d + 1 + i by omega, hi', show s + 1 + i = s + (i + 1) by omega]
    · rw [copyUp, hsame a (by omega), update_of_ne (by omega)]

/-- Downwards, from a source that does not start inside the destination. -/
theorem copyDown_moved (h : ¬(d < s ∧ s < d + n)) : Moved d s n m (copyDown n (d + n) (s + n) m) := by
  induction n generalizing m with
  | zero => exact ⟨fun i hi => absurd hi (Nat.not_lt_zero i), fun _ _ => rfl⟩
  | succ n ih =>
    obtain ⟨hmoved, hsame⟩ := @ih (update m (d + n) (m (s + n))) (by omega)
    have hrun : copyDown (n + 1) (d + (n + 1)) (s + (n + 1)) m = copyDown n (d + n) (s + n) (update m (d + n) (m (s + n))) := rfl
    refine ⟨fun i hi => ?_, fun a ha => ?_⟩
    · rcases Nat.lt_succ_iff_lt_or_eq.1 hi with hlt | rfl
      · rw [hrun, hmoved i hlt, update_of_ne (by omega)]
      · rw [hrun, hsame _ (by omega), update_self]
    · rw [hrun, hsame a (by omega), update_of_ne (by omega)]

end MoveAux

open MoveAux

/-- For every memory and all ranges of fewer than 2^31 bytes, however they overlap: both versions of `memmove` leave the bytes of the
source in the destination, and change nothing else. -/
theorem memmove_moves (m : Bytes) (dst src n : Nat) (hn : n < 2 ^ 31) :
    Moved dst src n m (memmove dst src (BitVec.ofNat 32 n) m) ∧ Moved dst src n m (ulibMemmove dst src n m) := by
  have htoNat : (BitVec.ofNat 32 n).toNat = n := by
    rw [BitVec.toNat_ofNat]
    exact Nat.mod_eq_of_lt (by omega)
  constructor
  · rw [memmove, htoNat]
    split
    · rename_i hzero
      have hn0 : n = 0 := by rw [← htoNat, hzero]; rfl
      subst hn0
      exact ⟨fun i hi => absurd hi (Nat.not_lt_zero i), fun _ _ => rfl⟩
    · split
      · exact copyDown_moved (by omega)
      · rename_i hover
        exact copyUp_moved hover
  · rw [ulibMemmove, Int.toNat_natCast]
    split
    · exact copyUp_moved (by omega)
    · exact copyDown_moved (by omega)

/-- Three bytes are moved by one place, up and down. -/
theorem memmove_moves_overlapping :
    (Moved 1 0 3 (BitVec.ofNat 8) (memmove 1 0 3 (BitVec.ofNat 8)) ∧ Moved 1 0 3 (BitVec.ofNat 8) (ulibMemmove 1 0 3 (BitVec.ofNat 8))) ∧
    Moved 0 1 3 (BitVec.ofNat 8) (memmove 0 1 3 (BitVec.ofNat 8)) ∧ Moved 0 1 3 (BitVec.ofNat 8) (ulibMemmove 0 1 3 (BitVec.ofNat 8)) :=
  ⟨memmove_moves _ 1 0 3 (by decide), memmove_moves _ 0 1 3 (by decide)⟩

end Xv6.Memmove
