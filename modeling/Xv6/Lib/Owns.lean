import Mathlib.Data.Finset.Card
import Mathlib.Data.Finset.Range
import Mathlib.Logic.Function.Basic

/-!
# Who owns a unit of an allocator

A map `used` marks units by number, slots of any kind point to units, and 0 is the null pointer. `Owns` says that the units from `lo`
up to `hi` that are marked are exactly those a slot points to, each pointed to once, and that those below `lo` are marked for good.
It is kept when a unit that is not marked is given to an empty slot (`Owns.alloc`) and when a slot gives its unit back (`Owns.free`).
-/

namespace Lib

open Function

variable {κ : Type} {lo hi : Nat} {used : Nat → Bool} {ptr : κ → Nat}

structure Owns (lo hi : Nat) (used : Nat → Bool) (ptr : κ → Nat) : Prop where
  pos : 0 < lo
  low : ∀ b < lo, used b = true
  range : ∀ k, ptr k ≠ 0 → lo ≤ ptr k ∧ ptr k < hi
  marked : ∀ k, ptr k ≠ 0 → used (ptr k) = true
  inj : ∀ k k', ptr k ≠ 0 → ptr k' = ptr k → k' = k
  owner : ∀ b, lo ≤ b → b < hi → used b = true → ∃ k, ptr k = b

/-- The number of units that are not marked. -/
def room (hi : Nat) (used : Nat → Bool) : Nat := ((Finset.range hi).filter fun b => used b = false).card

theorem room_eq_zero (h : ∀ b < hi, used b = true) : room hi used = 0 := by
  refine Finset.card_eq_zero.2 (Finset.filter_eq_empty_iff.2 fun b hb hfree => ?_)
  rw [h b (Finset.mem_range.1 hb)] at hfree
  cases hfree

/-- Marking a unit takes one from the room left. -/
theorem room_mark {b : Nat} (hb : b < hi) (hfree : used b = false) :
    room hi (update used b true) + 1 = room hi used := by
  have herase : (Finset.range hi).filter (fun c => update used b true c = false) =
      ((Finset.range hi).filter fun c => used c = false).erase b := by
    ext c
    by_cases hc : c = b
    · simp [hc]
    · simp [hc]
  unfold room
  rw [herase]
  exact Finset.card_erase_add_one (Finset.mem_filter.2 ⟨Finset.mem_range.2 hb, hfree⟩)

namespace Owns

variable (h : Owns lo hi used ptr) {b : Nat}

include h

theorem lo_le (hfree : used b = false) : lo ≤ b := by
  by_contra hlt
  rw [h.low b (by omega)] at hfree
  cases hfree

/-- No slot points to a unit that is not marked. -/
theorem ne_of_free (hfree : used b = false) (k : κ) : ptr k ≠ b := by
  rintro rfl
  have hlo := h.lo_le hfree
  have hpos := h.pos
  rw [h.marked k (by omega)] at hfree
  cases hfree

theorem existsUnique_iff (hlo : lo ≤ b) (hhi : b < hi) : used b = true ↔ ∃! k, ptr k = b := by
  have hb : b ≠ 0 := by
    have := h.pos
    omega
  constructor
  · intro hu
    obtain ⟨k, hk⟩ := h.owner b hlo hhi hu
    exact ⟨k, hk, fun k' hk' => h.inj k k' (hk ▸ hb) (hk'.trans hk.symm)⟩
  · rintro ⟨k, hk, -⟩
    rw [← hk]
    exact h.marked k (hk ▸ hb)

/-- Two slots point to different units. -/
theorem ne_of_ne {k k' : κ} (hk : ptr k ≠ 0) (hne : k' ≠ k) : ptr k' ≠ ptr k := fun heq => hne (h.inj k k' hk heq)

variable [DecidableEq κ] {k : κ}

/-- A unit that is not marked is given to an empty slot. -/
theorem alloc (hfree : used b = false) (hhi : b < hi) (hk : ptr k = 0) :
    Owns lo hi (update used b true) (update ptr k b) := by
  have hne := h.ne_of_free hfree
  constructor
  · exact h.pos
  · intro c hc
    by_cases hcb : c = b
    · rw [hcb, update_self]
    · rw [update_of_ne hcb]
      exact h.low c hc
  · intro k' hk'
    by_cases hkk : k' = k
    · rw [hkk, update_self]
      exact ⟨h.lo_le hfree, hhi⟩
    · rw [update_of_ne hkk] at hk' ⊢
      exact h.range k' hk'
  · intro k' hk'
    by_cases hkk : k' = k
    · rw [hkk, update_self, update_self]
    · rw [update_of_ne hkk] at hk' ⊢
      rw [update_of_ne (hne k')]
      exact h.marked k' hk'
  · intro k₁ k₂ hk₁ heq
    by_cases h₁ : k₁ = k
    · by_cases h₂ : k₂ = k
      · rw [h₁, h₂]
      · rw [h₁, update_self, update_of_ne h₂] at heq
        exact absurd heq (hne k₂)
    · rw [update_of_ne h₁] at hk₁ heq
      by_cases h₂ : k₂ = k
      · rw [h₂, update_self] at heq
        exact absurd heq.symm (hne k₁)
      · rw [update_of_ne h₂] at heq
        exact h.inj k₁ k₂ hk₁ heq
  · intro c hlo hc hu
    by_cases hcb : c = b
    · exact ⟨k, by rw [update_self, hcb]⟩
    · rw [update_of_ne hcb] at hu
      obtain ⟨k', hk'⟩ := h.owner c hlo hc hu
      by_cases hkk : k' = k
      · -- the slot was empty, so `c` would be 0 and below `lo`
        have hpos := h.pos
        rw [hkk, hk] at hk'
        omega
      · exact ⟨k', by rw [update_of_ne hkk]; exact hk'⟩

/-- A slot gives its unit back. -/
theorem free (hk : ptr k ≠ 0) : Owns lo hi (update used (ptr k) false) (update ptr k 0) := by
  have hlo := (h.range k hk).1
  have hsub : ∀ k', update ptr k 0 k' ≠ 0 → k' ≠ k ∧ update ptr k 0 k' = ptr k' ∧ ptr k' ≠ ptr k := by
    intro k' hk'
    have hkk : k' ≠ k := by
      rintro rfl
      exact hk' (update_self ..)
    exact ⟨hkk, update_of_ne hkk .., h.ne_of_ne hk hkk⟩
  constructor
  · exact h.pos
  · intro c hc
    rw [update_of_ne (by omega)]
    exact h.low c hc
  · intro k' hk'
    obtain ⟨-, heq, -⟩ := hsub k' hk'
    rw [heq] at hk' ⊢
    exact h.range k' hk'
  · intro k' hk'
    obtain ⟨-, heq, hne⟩ := hsub k' hk'
    rw [heq] at hk' ⊢
    rw [update_of_ne hne]
    exact h.marked k' hk'
  · intro k₁ k₂ hk₁ heq
    obtain ⟨-, h₁, -⟩ := hsub k₁ hk₁
    obtain ⟨-, h₂, -⟩ := hsub k₂ (heq ▸ hk₁)
    rw [h₁] at hk₁
    exact h.inj k₁ k₂ hk₁ (h₂.symm.trans (heq.trans h₁))
  · intro c hloc hc hu
    have hcne : c ≠ ptr k := by
      rintro rfl
      rw [update_self] at hu
      cases hu
    rw [update_of_ne hcne] at hu
    obtain ⟨k', hk'⟩ := h.owner c hloc hc hu
    have hkk : k' ≠ k := by
      rintro rfl
      exact hcne hk'.symm
    exact ⟨k', by rw [update_of_ne hkk]; exact hk'⟩

end Owns

end Lib
