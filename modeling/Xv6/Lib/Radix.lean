import Mathlib.Data.Set.Basic
import Mathlib.Data.List.Induction

/-!
# Trees of pointers

A node at address `p` has an outgoing pointer `e p i` for each label `i`, or none. `follow e p l` is the node at the end of the path `l`
from `p`; `TreeTo e r d` says that each node at less than depth `d` is reached by one path only, so that no such node is shared. Nothing
here names a particular memory: a memory gives `e`, and a write to it changes `e` at one node.
-/

namespace Lib

open List

variable {α ι : Type} {e e' : α → ι → Option α} {p q r : α} {l l' : List ι} {i : ι} {d : Nat}

/-- The node at the end of a path. -/
def follow (e : α → ι → Option α) : α → List ι → Option α
  | p, [] => some p
  | p, i :: l => (e p i).bind fun q => follow e q l

namespace follow

theorem cons : follow e p (i :: l) = (e p i).bind fun q => follow e q l := rfl

theorem append (l l' : List ι) : follow e p (l ++ l') = (follow e p l).bind fun q => follow e q l' := by
  induction l generalizing p with
  | nil => rfl
  | cons i l ih =>
    rw [cons_append, cons, cons]
    cases e p i with
    | none => rfl
    | some q => exact ih

theorem snoc (l : List ι) (i : ι) : follow e p (l ++ [i]) = (follow e p l).bind fun q => e q i := by
  rw [append]
  cases follow e p l with
  | none => rfl
  | some q =>
    rw [Option.bind_some, Option.bind_some, cons]
    cases e q i <;> rfl

end follow

/-- The nodes at less than a depth. -/
def upper (e : α → ι → Option α) (r : α) (d : Nat) : Set α := {p | ∃ l, l.length < d ∧ follow e r l = some p}

/-- Each node at less than a depth is reached by one path of less than that depth; below, pointers may lead anywhere. -/
def TreeTo (e : α → ι → Option α) (r : α) (d : Nat) : Prop :=
  ∀ l l' p, l.length < d → l'.length < d → follow e r l = some p → follow e r l' = some p → l = l'

/-- A path sees the nodes before its end only. -/
theorem follow_congr_upper (h : ∀ x ∈ upper e r d, e' x = e x) (l : List ι) (hl : l.length ≤ d) : follow e' r l = follow e r l := by
  induction l using reverseRecOn with
  | nil => rfl
  | append_singleton l i ih =>
    rw [length_append, length_singleton] at hl
    rw [follow.snoc, follow.snoc, ih (by omega)]
    cases hp : follow e r l with
    | none => rfl
    | some p => rw [Option.bind_some, Option.bind_some, h p ⟨l, by omega, hp⟩]

theorem upper_congr (h : ∀ x ∈ upper e r d, e' x = e x) : upper e' r (d + 1) = upper e r (d + 1) := by
  ext p
  constructor
  · rintro ⟨l, hl, hp⟩
    exact ⟨l, hl, by rw [← follow_congr_upper h l (by omega)]; exact hp⟩
  · rintro ⟨l, hl, hp⟩
    exact ⟨l, hl, by rw [follow_congr_upper h l (by omega)]; exact hp⟩

theorem TreeTo.congr (hr : TreeTo e r (d + 1)) (h : ∀ x ∈ upper e r d, e' x = e x) : TreeTo e' r (d + 1) := by
  intro l l' p hl hl' hp hp'
  rw [follow_congr_upper h l (by omega)] at hp
  rw [follow_congr_upper h l' (by omega)] at hp'
  exact hr l l' p hl hl' hp hp'

/-- A new node without pointers is hung up where there was none. -/
theorem TreeTo.follow_attach (hr : TreeTo e r d) (hl : follow e r l = some p) (hlen : l.length < d)
    (hother : ∀ x ∈ upper e r d, x ≠ p → e' x = e x) (hkeep : ∀ j, j ≠ i → e' p j = e p j) (hnone : e p i = none) (hq : e' p i = some q)
    (hbare : ∀ j, e' q j = none) (m : List ι) (hm : m.length ≤ d) (x : α) :
    follow e' r m = some x ↔ x = q ∧ m = l ++ [i] ∨ follow e r m = some x := by
  induction m using reverseRecOn generalizing x with
  | nil =>
    refine ⟨.inr, ?_⟩
    rintro (⟨-, heq⟩ | h)
    · exact absurd heq.symm (concat_ne_nil _ _)
    · exact h
  | append_singleton m j ih =>
    rw [length_append, length_singleton] at hm
    rw [follow.snoc, follow.snoc, Option.bind_eq_some_iff, Option.bind_eq_some_iff]
    constructor
    · rintro ⟨y, hy, hx⟩
      rcases (ih (by omega) y).1 hy with ⟨rfl, -⟩ | hy
      · rw [hbare] at hx
        cases hx
      · by_cases hyp : y = p
        · subst hyp
          obtain rfl := hr m l y (by omega) hlen hy hl
          by_cases hji : j = i
          · subst hji
            exact .inl ⟨Option.some.inj (hx.symm.trans hq), rfl⟩
          · rw [hkeep j hji] at hx
            exact .inr ⟨y, hy, hx⟩
        · rw [hother y ⟨m, by omega, hy⟩ hyp] at hx
          exact .inr ⟨y, hy, hx⟩
    · rintro (⟨rfl, heq⟩ | ⟨y, hy, hx⟩)
      · obtain ⟨rfl, hji⟩ := append_inj' heq rfl
        obtain rfl : j = i := singleton_inj.1 hji
        exact ⟨p, (ih (by omega) p).2 (.inr hl), hq⟩
      · refine ⟨y, (ih (by omega) y).2 (.inr hy), ?_⟩
        by_cases hyp : y = p
        · subst hyp
          rw [hkeep j]
          · exact hx
          · rintro rfl
            rw [hnone] at hx
            cases hx
        · rw [hother y ⟨m, by omega, hy⟩ hyp]
          exact hx

theorem TreeTo.attach (hr : TreeTo e r d) (hfresh : q ∉ upper e r d)
    (hfollow : ∀ m x, m.length < d → (follow e' r m = some x ↔ x = q ∧ m = l ++ [i] ∨ follow e r m = some x)) : TreeTo e' r d := by
  intro m m' x hm hm' hx hx'
  rcases (hfollow m x hm).1 hx with ⟨rfl, heq⟩ | h
  · rcases (hfollow m' x hm').1 hx' with ⟨-, heq'⟩ | h'
    · rw [heq, heq']
    · exact absurd ⟨m', hm', h'⟩ hfresh
  · rcases (hfollow m' x hm').1 hx' with ⟨rfl, -⟩ | h'
    · exact absurd ⟨m, hm, h⟩ hfresh
    · exact hr m m' x hm hm' h h'

end Lib
