import Mathlib.Logic.Function.Basic
import Mathlib.Data.BitVec
import Mathlib.Data.Nat.ModEq

/-!
# Circular buffers

`Stored buf size start l` says that the places from `start` on, counted round a buffer of the size, hold the list. Values are put in at
the end (`Stored.push`), taken from the front (`Stored.tail`) and dropped from the end (`Stored.of_append`).

A `Queue` is such a list between two counters of `w` bits that wrap; the size of the buffer divides their range and is less than it.
-/

namespace Lib

open Function List

variable {α : Type*} {buf : Nat → α} {size start : Nat} {l m : List α} {a : α}

structure Stored (buf : Nat → α) (size start : Nat) (l : List α) : Prop where
  le : l.length ≤ size
  get : ∀ k (h : k < l.length), buf ((start + k) % size) = l[k]

namespace Stored

theorem nil (buf : Nat → α) (size start : Nat) : Stored buf size start [] :=
  ⟨Nat.zero_le _, fun _ h => absurd h (Nat.not_lt_zero _)⟩

/-- Only the place in the buffer counts. -/
theorem congr_start (h : Stored buf size start l) {start' : Nat} (heq : start' % size = start % size) : Stored buf size start' l := by
  refine ⟨h.le, fun k hk => ?_⟩
  rw [← h.get k hk, Nat.add_mod, heq, ← Nat.add_mod]

theorem push (h : Stored buf size start l) (hlt : l.length < size) (a : α) :
    Stored (update buf ((start + l.length) % size) a) size start (l ++ [a]) := by
  refine ⟨by rw [length_append, length_singleton]; exact hlt, fun k hk => ?_⟩
  rw [length_append, length_singleton] at hk
  by_cases hlast : k = l.length
  · subst hlast
    rw [update_self, getElem_concat_length]
    rfl
  · have hk' : k < l.length := by omega
    have hne : (start + k) % size ≠ (start + l.length) % size := by
      intro heq
      have hmod : (k : ℕ) % size = l.length % size := (Nat.ModEq.add_left_cancel' start heq)
      rw [Nat.mod_eq_of_lt (by omega), Nat.mod_eq_of_lt hlt] at hmod
      omega
    rw [update_of_ne hne, getElem_append_left hk', h.get k hk']

theorem of_append (h : Stored buf size start (l ++ m)) : Stored buf size start l := by
  refine ⟨?_, fun k hk => ?_⟩
  · have := h.le
    rw [length_append] at this
    omega
  · have hk' : k < (l ++ m).length := by
      rw [length_append]
      omega
    rw [h.get k hk', getElem_append_left hk]

theorem drop (h : Stored buf size start (l ++ m)) : Stored buf size (start + l.length) m := by
  have hle := h.le
  rw [length_append] at hle
  refine ⟨by omega, fun k hk => ?_⟩
  have hk' : l.length + k < (l ++ m).length := by
    rw [length_append]
    omega
  rw [Nat.add_assoc, h.get _ hk', getElem_append_right (Nat.le_add_right ..)]
  congr 1
  omega

theorem head (h : Stored buf size start (a :: l)) : buf (start % size) = a := h.get 0 (Nat.succ_pos _)

theorem tail (h : Stored buf size start (a :: l)) : Stored buf size (start + 1) l := h.drop (l := [a])

/-- The list can be read off the buffer. -/
theorem eq_map (h : Stored buf size start l) : (range l.length).map (fun k => buf ((start + k) % size)) = l := by
  refine ext_getElem (by rw [length_map, length_range]) fun k hk hk' => ?_
  rw [getElem_map, getElem_range, h.get k hk']

end Stored

/-! ## Counters that wrap -/

section Counters

variable {w : Nat}

theorem toNat_add_mod (hdvd : size ∣ 2 ^ w) (x : BitVec w) (k : Nat) : (x + BitVec.ofNat w k).toNat % size = (x.toNat + k) % size := by
  rw [BitVec.toNat_add, BitVec.toNat_ofNat, Nat.mod_mod_of_dvd _ hdvd, Nat.add_mod, Nat.mod_mod_of_dvd _ hdvd, ← Nat.add_mod]

theorem toNat_add_sub (x : BitVec w) {k : Nat} (hk : k < 2 ^ w) : (x + BitVec.ofNat w k - x).toNat = k := by
  rw [BitVec.add_comm, BitVec.add_sub_cancel, BitVec.toNat_ofNat, Nat.mod_eq_of_lt hk]

theorem eq_add_sub (x y : BitVec w) : y = x + BitVec.ofNat w (y - x).toNat := by
  rw [BitVec.ofNat_toNat, BitVec.setWidth_eq, BitVec.add_comm, BitVec.sub_add_cancel]

/-- A counter less than the size of the buffer ahead is not at a place that is in use. -/
theorem mod_ne_of_sub_lt (hdvd : size ∣ 2 ^ w) {first last j : BitVec w} (hj : (j - first).toNat < (last - first).toNat)
    (hroom : (last - first).toNat < size) : j.toNat % size ≠ last.toNat % size := by
  intro heq
  rw [eq_add_sub first j, eq_add_sub first last, toNat_add_mod hdvd, toNat_add_mod hdvd] at heq
  have hmod := Nat.ModEq.add_left_cancel' first.toNat heq
  unfold Nat.ModEq at hmod
  rw [Nat.mod_eq_of_lt (by omega), Nat.mod_eq_of_lt hroom] at hmod
  omega

/-- The buffer holds the list from one counter up to another. -/
structure Queue (buf : Nat → α) (size : Nat) (first last : BitVec w) (l : List α) : Prop where
  stored : Stored buf size first.toNat l
  last : last = first + BitVec.ofNat w l.length

namespace Queue

variable {first last : BitVec w}

theorem nil (buf : Nat → α) (size : Nat) (first : BitVec w) : Queue buf size first first [] := ⟨.nil .., (BitVec.add_zero first).symm⟩

section

variable (h : Queue buf size first last l)

include h

theorem length_le : l.length ≤ size := h.stored.le

theorem sub (hlt : size < 2 ^ w) : (last - first).toNat = l.length := by
  rw [h.last, toNat_add_sub first (h.length_le.trans_lt hlt)]

theorem eq_iff (hlt : size < 2 ^ w) : first = last ↔ l = [] := by
  rw [← length_eq_zero_iff, ← h.sub hlt]
  constructor
  · intro heq
    rw [heq, BitVec.sub_self]
    rfl
  · intro hzero
    have hlast := eq_add_sub first last
    rw [hzero] at hlast
    exact (hlast.trans (BitVec.add_zero first)).symm

theorem last_succ (a : α) : last + 1 = first + BitVec.ofNat w (l ++ [a]).length := by
  rw [length_append, length_singleton, BitVec.ofNat_add, ← BitVec.add_assoc, ← h.last]
  rfl

theorem push (hdvd : size ∣ 2 ^ w) (hroom : l.length < size) (a : α) :
    Queue (update buf (last.toNat % size) a) size first (last + 1) (l ++ [a]) := by
  have hplace : last.toNat % size = (first.toNat + l.length) % size := by rw [h.last, toNat_add_mod hdvd]
  rw [hplace]
  exact ⟨h.stored.push hroom a, h.last_succ a⟩

end

theorem pop (h : Queue buf size first last (a :: l)) (hdvd : size ∣ 2 ^ w) :
    buf (first.toNat % size) = a ∧ Queue buf size (first + 1) last l := by
  have hplace : (first + 1).toNat % size = (first.toNat + 1) % size := toNat_add_mod hdvd first 1
  refine ⟨h.stored.head, h.stored.tail.congr_start hplace, ?_⟩
  rw [h.last, length_cons, Nat.add_comm l.length 1, BitVec.ofNat_add, ← BitVec.add_assoc]
  rfl

/-- The last value is given up. -/
theorem unpush (h : Queue buf size first last (l ++ [a])) (hdvd : size ∣ 2 ^ w) :
    buf ((last - 1).toNat % size) = a ∧ Queue buf size first (last - 1) l := by
  have hpred : last - 1 = first + BitVec.ofNat w l.length := by
    rw [h.last, length_append, length_singleton, BitVec.ofNat_add, ← BitVec.add_assoc]
    exact BitVec.add_sub_cancel ..
  have hlt : l.length < (l ++ [a]).length := by
    rw [length_append, length_singleton]
    exact Nat.lt_succ_self _
  refine ⟨?_, h.stored.of_append, hpred⟩
  rw [hpred, toNat_add_mod hdvd, h.stored.get _ hlt, getElem_concat_length]
  rfl

/-- The counter that comes after the first part of the list. -/
theorem drop (h : Queue buf size first last (l ++ m)) (hdvd : size ∣ 2 ^ w) :
    Queue buf size (first + BitVec.ofNat w l.length) last m := by
  refine ⟨h.stored.drop.congr_start (toNat_add_mod hdvd first l.length), ?_⟩
  rw [h.last, length_append, BitVec.ofNat_add, ← BitVec.add_assoc]

/-- The list can be read off the buffer. -/
theorem eq_map (h : Queue buf size first last l) (hdvd : size ∣ 2 ^ w) (hlt : size < 2 ^ w) :
    (range (last - first).toNat).map (fun k => buf ((first + BitVec.ofNat w k).toNat % size)) = l := by
  rw [h.sub hlt]
  simp only [toNat_add_mod hdvd]
  exact h.stored.eq_map

end Queue

end Counters

end Lib
