import Mathlib.Algebra.BigOperators.Group.Finset.Basic
import Mathlib.Algebra.Order.BigOperators.Group.Finset
import Mathlib.Data.Fintype.Basic

/-!
# Counting who holds what

`tally f i` is the number of holders `x` with `f x = some i`. Changing one holder changes the tallies of what it held before and
what it holds now, and no others; the same holds of any sum of which one term changes (`sum_change`).
-/

namespace Lib

open Function

variable {κ ι ν : Type*}

/-- A sum of which one term changes. -/
theorem sum_change [DecidableEq κ] {S : Finset κ} {f g : κ → ℕ} {x : κ} (hx : x ∈ S) (h : ∀ y ∈ S, y ≠ x → g y = f y) :
    ∑ y ∈ S, g y + f x = ∑ y ∈ S, f y + g x := by
  have hrest : ∑ y ∈ S.erase x, g y = ∑ y ∈ S.erase x, f y :=
    Finset.sum_congr rfl fun y hy => h y (Finset.mem_of_mem_erase hy) (Finset.ne_of_mem_erase hy)
  rw [← Finset.add_sum_erase S g hx, ← Finset.add_sum_erase S f hx, hrest]
  omega

variable [Fintype ι] [DecidableEq ν] {f : ι → Option ν} {i : ν}

/-- The number of holders of `i`. -/
def tally (f : ι → Option ν) (i : ν) : ℕ := ∑ x, if f x = some i then 1 else 0

theorem tally_pos {x : ι} (h : f x = some i) : 0 < tally f i := by
  refine Finset.sum_pos' (fun _ _ => Nat.zero_le _) ⟨x, Finset.mem_univ x, ?_⟩
  rw [if_pos h]
  exact Nat.one_pos

theorem exists_of_tally_pos (h : 0 < tally f i) : ∃ x, f x = some i := by
  by_contra hnone
  refine absurd (Finset.sum_eq_zero fun x _ => if_neg fun hx => hnone ⟨x, hx⟩) (Nat.pos_iff_ne_zero.1 h)

/-- Changing what one holder holds. -/
theorem tally_update [DecidableEq ι] (f : ι → Option ν) (x : ι) (v : Option ν) (i : ν) :
    tally (update f x v) i + (if f x = some i then 1 else 0) = tally f i + (if v = some i then 1 else 0) := by
  have h := sum_change (f := fun y => if f y = some i then 1 else 0)
    (g := fun y => if update f x v y = some i then 1 else 0) (Finset.mem_univ x) fun y _ hy => by
      rw [update_of_ne hy]
  rw [update_self] at h
  exact h

end Lib
