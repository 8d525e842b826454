import Xv6.Reclaim
import Xv6.Theorems.Inode

/-!
# Orphans are reclaimed

`ireclaim` frees every orphaned inode with all its blocks, and changes nothing else.
-/

namespace Xv6.Ino

open Lib InoAux Function List

namespace ReclaimAux

variable {s t u : State} {c d : Bool} {i b : Nat} {done : Nat → Prop} {q : Nat × Nat} (inums : List Nat)

/-! ### What is passed to `log_write` -/

/-- What is passed to `log_write` on the way from `s` to `t`: the blocks of the free map with the bits that are cleared, and where `c` says
so the block of inode `i`. -/
structure Noted (c : Bool) (i : Nat) (s t : State) : Prop where
  sb : t.sb = s.sb
  bits : ∀ b, t.bitmap b = true → s.bitmap b = true
  writes : ∀ w, w ∈ t.writes ↔ w ∈ s.writes ∨ (c = true ∧ w = IBLOCK i s.sb) ∨
    ∃ b, s.bitmap b = true ∧ t.bitmap b = false ∧ w = BBLOCK b s.sb

theorem Noted.same (hsb : t.sb = s.sb) (hbits : t.bitmap = s.bitmap) (hwrites : t.writes = s.writes) : Noted false i s t :=
  ⟨hsb, fun b hb => hbits ▸ hb, fun w => by simp +contextual [hbits, hwrites]⟩

theorem Noted.trans (h : Noted c i s t) (h' : Noted d i t u) : Noted (c || d) i s u := by
  refine ⟨h'.sb.trans h.sb, fun b hb => h.bits b (h'.bits b hb), fun w => ?_⟩
  rw [h'.writes, h.writes, h.sb]
  -- a bit cleared on the way is cleared in one of the two parts
  have hcleared : (∃ b, s.bitmap b = true ∧ u.bitmap b = false ∧ w = BBLOCK b s.sb) ↔
      (∃ b, s.bitmap b = true ∧ t.bitmap b = false ∧ w = BBLOCK b s.sb) ∨ ∃ b, t.bitmap b = true ∧ u.bitmap b = false ∧ w = BBLOCK b s.sb := by
    grind [h.bits, h'.bits]
  rw [hcleared, Bool.or_eq_true]
  grind

/-- A program that passes this to `log_write`, if it returns. -/
def Noting {α : Type} (c : Bool) (i : Nat) (m : M α) : Prop := ∀ s, Wp (fun _ => True) m s fun _ t => Noted c i s t

theorem Noting.bind {α β : Type} {m : M α} {f : α → M β} (h : Noting c i m) (hf : ∀ a, Noting d i (f a)) : Noting (c || d) i (m >>= f) :=
  fun s => (h s).bind fun a t ht => (hf a t).mono fun _ _ hu => ht.trans hu

/-- What `ireclaim` leaves when it has come to the inodes in `done`. -/
structure Reclaimed (done : Nat → Prop) (s t : State) : Prop where
  inv : Inv t
  sb : t.sb = s.sb
  disk : t.disk = s.disk
  ref : ∀ i, t.ref i = 0
  other : ∀ i, ¬(done i ∧ s.Orphan i) → t.dinode i = s.dinode i
  type : ∀ i, done i → s.Orphan i → (t.dinode i).type = .free
  bits : ∀ b, b ≠ 0 → (∀ i k, s.Orphan i → s.ptr (i, k) ≠ b) → t.bitmap b = s.bitmap b

theorem Reclaimed.ptr_other (h : Reclaimed done s t) (hq : ¬(done q.1 ∧ s.Orphan q.1)) : t.ptr q = s.ptr q := by
  unfold State.ptr
  rw [h.other q.1 hq, h.disk]

theorem Reclaimed.ptr_gone (h : Reclaimed done s t) (hdone : done q.1) (hq : s.Orphan q.1) : t.ptr q = 0 := Dinode.ptr_free (h.type q.1 hdone hq)

/-- The blocks of an orphan are free. -/
theorem Reclaimed.clear (hs : Inv s) (h : Reclaimed done s t) (hdone : done q.1) (hq : s.Orphan q.1) (hne : s.ptr q ≠ 0) :
    t.bitmap (s.ptr q) = false := by
  refine hs.clear_of_gone h.inv h.sb (fun q' => ?_) (h.ptr_gone hdone hq) hne
  by_cases hq' : done q'.1 ∧ s.Orphan q'.1
  · exact .inl (h.ptr_gone hq'.1 hq'.2)
  · exact .inr (h.ptr_other hq')

/-- All other blocks are marked or not as they were. -/
theorem Reclaimed.bitmap (hs : Inv s) (h : Reclaimed done s t) (hnot : ∀ i k, s.Orphan i → s.ptr (i, k) ≠ b) : t.bitmap b = s.bitmap b := by
  by_cases hb : b = 0
  · rw [hb, hs.consistent.metadata 0 hs.consistent.pos, h.inv.consistent.metadata 0 h.inv.consistent.pos]
  · exact h.bits b hb hnot

end ReclaimAux

open ReclaimAux

end Xv6.Ino
