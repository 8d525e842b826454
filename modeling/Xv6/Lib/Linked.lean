import Mathlib.Data.List.Nodup
import Mathlib.Data.List.Pairwise
import Mathlib.Logic.Function.Iterate
import Mathlib.Order.Basic

/-!
# Circular lists of segments

`Linked next a l b` says that following `next` from `a` one comes to the nodes of `l` in turn and then to `b`; with `b = a` it is a
circular list. A change behind one node leaves the part before it (`Linked.splice`). `Spaced len lo hi l` says that the nodes are
places of segments, in order and without overlap, between `lo` and `hi`.
-/

namespace Lib

open List

section Linked

variable {α : Type*} {next next' : α → α} {a b x : α} {l u v : List α}

def Linked (next : α → α) (a : α) : List α → α → Prop
  | [], b => next a = b
  | x :: l, b => next a = x ∧ Linked next x l b

/-- A node of a list, counted from its end: the nodes up to it, and those behind. -/
theorem exists_split (hx : x ∈ a :: l) : ∃ u v, l = u ++ v ∧ u.getLastD a = x := by
  induction l generalizing a with
  | nil => exact ⟨[], [], rfl, (mem_singleton.1 hx).symm⟩
  | cons y l ih =>
    rcases mem_cons.1 hx with rfl | hx
    · exact ⟨[], y :: l, rfl, rfl⟩
    · obtain ⟨u, v, rfl, hlast⟩ := ih hx
      refine ⟨y :: u, v, rfl, ?_⟩
      rw [getLastD_cons]
      exact hlast

/-- In an ordered list every other node is before the last. -/
theorem rel_getLastD {r : α → α → Prop} (h : (a :: u).Pairwise r) (hx : x ∈ a :: u) : x = u.getLastD a ∨ r x (u.getLastD a) := by
  induction u generalizing a with
  | nil => exact .inl (mem_singleton.1 hx)
  | cons y u ih =>
    rw [getLastD_cons]
    obtain ⟨ha, hu⟩ := pairwise_cons.1 h
    rcases mem_cons.1 hx with rfl | hx
    · exact .inr (ha _ getLastD_mem_cons)
    · exact ih hu hx

namespace Linked

theorem next_eq (h : Linked next a l b) : next a = l.headD b := by
  cases l with
  | nil => exact h
  | cons x l => exact h.1

theorem tail (h : Linked next a (u ++ v) b) : Linked next (u.getLastD a) v b := by
  induction u generalizing a with
  | nil => exact h
  | cons y u ih =>
    rw [getLastD_cons]
    exact ih h.2

/-- What is behind one node is replaced. -/
theorem splice {w : List α} (h : Linked next a (u ++ v) b) (hnodup : (a :: u).Nodup)
    (hsame : ∀ y ∈ a :: u, y ≠ u.getLastD a → next' y = next y) (hw : Linked next' (u.getLastD a) w b) : Linked next' a (u ++ w) b := by
  induction u generalizing a with
  | nil => exact hw
  | cons y u ih =>
    rw [getLastD_cons] at hsame hw
    obtain ⟨hay, hnodup⟩ := nodup_cons.1 hnodup
    refine ⟨?_, ih h.2 hnodup (fun z hz => hsame z (mem_cons_of_mem a hz)) hw⟩
    rw [hsame a mem_cons_self fun heq => hay (heq ▸ getLastD_mem_cons (l := u) (a := y))]
    exact h.1

theorem congr (h : Linked next a l b) (hsame : ∀ y ∈ a :: l, next' y = next y) : Linked next' a l b := by
  induction l generalizing a with
  | nil => exact (hsame a mem_cons_self).trans h
  | cons x l ih => exact ⟨(hsame a mem_cons_self).trans h.1, ih h.2 fun y hy => hsame y (mem_cons_of_mem a hy)⟩

/-- The same nodes behind another one. -/
theorem start {a' : α} (h : Linked next a l b) (ha : next' a' = next a) (hsame : ∀ y ∈ l, next' y = next y) : Linked next' a' l b := by
  cases l with
  | nil => exact ha.trans h
  | cons x l => exact ⟨ha.trans h.1, h.2.congr hsame⟩

/-- A circular list, seen from another of its nodes. -/
theorem rotate (h : Linked next a l a) (hx : x ∈ a :: l) : ∃ m, Linked next x m x ∧ (x :: m).Perm (a :: l) := by
  have hjoin : ∀ {a b c : α} {l m : List α}, Linked next a l b → Linked next b m c → Linked next a (l ++ b :: m) c := by
    intro a b c l m hl hm
    induction l generalizing a with
    | nil => exact ⟨hl, hm⟩
    | cons y l ih => exact ⟨hl.1, ih hl.2⟩
  have hcut : ∀ {a b c : α} {l m : List α}, Linked next a (l ++ b :: m) c → Linked next a l b := by
    intro a b c l m hl
    induction l generalizing a with
    | nil => exact hl.1
    | cons y l ih => exact ⟨hl.1, ih hl.2⟩
  obtain ⟨u, v, rfl, rfl⟩ := exists_split hx
  have hv := h.tail
  rcases eq_nil_or_concat u with rfl | ⟨u, z, rfl⟩
  · exact ⟨v, hv, .refl _⟩
  · rw [concat_eq_append, getLastD_concat] at *
    rw [append_assoc] at h
    refine ⟨v ++ a :: u, hjoin hv (hcut h), ?_⟩
    rw [append_assoc, singleton_append, ← cons_append, ← cons_append]
    exact perm_append_comm

/-- Following a circular list one comes to its nodes and no others. -/
theorem iterate_iff (h : Linked next a l a) : (∃ k, next^[k] a = x) ↔ x ∈ a :: l := by
  have hnext : ∀ {a b : α} {l : List α}, Linked next a l b → ∀ y ∈ a :: l, next y ∈ l ∨ next y = b := by
    intro a b l h y hy
    obtain ⟨u, v, rfl, rfl⟩ := exists_split hy
    rw [h.tail.next_eq]
    cases v with
    | nil => exact .inr rfl
    | cons z v => exact .inl (mem_append_right u mem_cons_self)
  have hreach : ∀ {a b : α} {l : List α}, Linked next a l b → ∀ y ∈ a :: l, ∃ k, next^[k] a = y := by
    intro a b l h y hy
    induction l generalizing a with
    | nil => exact ⟨0, (mem_singleton.1 hy).symm⟩
    | cons z l ih =>
      rcases mem_cons.1 hy with rfl | hy
      · exact ⟨0, rfl⟩
      · obtain ⟨k, hk⟩ := ih h.2 hy
        exact ⟨k + 1, by rw [Function.iterate_succ_apply, h.1]; exact hk⟩
  constructor
  · rintro ⟨k, rfl⟩
    induction k with
    | zero => exact mem_cons_self
    | succ k ih =>
      rw [Function.iterate_succ_apply']
      rcases hnext h _ ih with hmem | heq
      · exact mem_cons_of_mem a hmem
      · rw [heq]
        exact mem_cons_self
  · exact hreach h x

end Linked

end Linked

section Spaced

variable {len len' : Nat → Nat} {lo hi x y n m : Nat} {l u v : List Nat}

/-- Two segments that do not overlap. -/
def Apart (x n y m : Nat) : Prop := x + n ≤ y ∨ y + m ≤ x

structure Spaced (len : Nat → Nat) (lo hi : Nat) (l : List Nat) : Prop where
  bound : ∀ x ∈ l, lo ≤ x ∧ x + len x ≤ hi
  order : l.Pairwise fun x y => x + len x ≤ y

namespace Spaced

theorem nil : Spaced len lo hi [] := ⟨fun _ h => absurd h not_mem_nil, .nil⟩

theorem sublist (h : Spaced len lo hi l) (hu : u.Sublist l) : Spaced len lo hi u :=
  ⟨fun x hx => h.bound x (hu.subset hx), h.order.sublist hu⟩

theorem mono {hi' : Nat} (h : Spaced len lo hi l) (hhi : hi ≤ hi') : Spaced len lo hi' l :=
  ⟨fun x hx => ⟨(h.bound x hx).1, Nat.le_trans (h.bound x hx).2 hhi⟩, h.order⟩

/-- Segments may get shorter. -/
theorem shrink (h : Spaced len lo hi l) (hlen : ∀ x ∈ l, len' x ≤ len x) : Spaced len' lo hi l := by
  refine ⟨fun x hx => ⟨(h.bound x hx).1, ?_⟩, h.order.imp_of_mem fun hx _ hxy => ?_⟩
  · have := (h.bound x hx).2
    have := hlen x hx
    omega
  · have := hlen _ hx
    omega

/-- A segment is put between those before and those after it. -/
theorem insert (h : Spaced len lo hi (u ++ v)) (hlo : lo ≤ x) (hhi : x + len x ≤ hi) (hu : ∀ y ∈ u, y + len y ≤ x)
    (hv : ∀ y ∈ v, x + len x ≤ y) : Spaced len lo hi (u ++ x :: v) := by
  obtain ⟨hordu, hordv, huv⟩ := pairwise_append.1 h.order
  refine ⟨fun y hy => ?_, pairwise_append.2 ⟨hordu, pairwise_cons.2 ⟨hv, hordv⟩, fun y hy z hz => ?_⟩⟩
  · rcases mem_append.1 hy with hy | hy
    · exact h.bound y (mem_append_left v hy)
    · rcases mem_cons.1 hy with rfl | hy
      · exact ⟨hlo, hhi⟩
      · exact h.bound y (mem_append_right u hy)
  · rcases mem_cons.1 hz with rfl | hz
    · exact hu y hy
    · exact huv y hy z hz

/-- The nodes of a list whose segments are not empty are in order. -/
theorem sorted (h : Spaced len lo hi l) (hpos : ∀ x ∈ l, 0 < len x) : l.Pairwise (· < ·) :=
  h.order.imp_of_mem fun hx _ hxy => by
    have := hpos _ hx
    omega

/-- Different nodes have segments that do not overlap. -/
theorem apart (h : Spaced len lo hi l) (hx : x ∈ l) (hy : y ∈ l) (hxy : x ≠ y) : Apart x (len x) y (len y) := by
  have hpair : l.Pairwise fun x y => Apart x (len x) y (len y) := h.order.imp .inl
  have hsymm : Std.Symm fun x y => Apart x (len x) y (len y) := ⟨fun _ _ hab => hab.symm⟩
  exact hpair.forall hx hy hxy

/-- There is not room for more nodes than that. -/
theorem length_le (h : Spaced len lo hi l) (hlo : lo ≤ hi) (hpos : ∀ x ∈ l, 0 < len x) : l.length + lo ≤ hi := by
  induction l generalizing lo with
  | nil => simpa using hlo
  | cons x l ih =>
    obtain ⟨hx, horder⟩ := pairwise_cons.1 h.order
    obtain ⟨hlx, hxh⟩ := h.bound x mem_cons_self
    have hposx := hpos x mem_cons_self
    have hrest : Spaced len (x + len x) hi l := ⟨fun y hy => ⟨hx y hy, (h.bound y (mem_cons_of_mem x hy)).2⟩, horder⟩
    have := ih hrest hxh fun y hy => hpos y (mem_cons_of_mem x hy)
    rw [length_cons]
    omega

end Spaced

end Spaced

end Lib
