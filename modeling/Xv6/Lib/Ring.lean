import Mathlib.Data.List.Nodup
import Mathlib.Logic.Function.Basic

/-!
# Doubly linked rings

Nodes are linked by `next` and `prev` into a ring through an anchor, which is `none`. `Ring next prev l` says that `l` is the order of
the nodes from the anchor on: wherever `l` is cut in two, the last node before the cut and the first one after it are linked to each
other. A node can be taken out (`Ring.unlink`) and put in first place (`Ring.push`), and going along either link searches the order
(`Ring.scan_next`, `Ring.scan_prev`).
-/

namespace Lib

open Function List

variable {κ : Type*} {next prev : Option κ → Option κ} {l l₁ l₂ : List κ} {x : κ} {p : κ → Bool} {n : Nat}

structure Ring (next prev : Option κ → Option κ) (l : List κ) : Prop where
  nodup : l.Nodup
  links : ∀ l₁ l₂, l₁ ++ l₂ = l → next l₁.getLast? = l₂.head? ∧ prev l₂.head? = l₁.getLast?

/-- Go along a link from a node until one is found or the anchor is reached, for at most this many nodes. -/
def scan (link : Option κ → Option κ) (p : κ → Bool) : Nat → Option κ → Option κ
  | 0, _ => none
  | _ + 1, none => none
  | n + 1, some x => if p x then some x else scan link p n (link (some x))

namespace Ring

theorem nil (hnext : next none = none) (hprev : prev none = none) : Ring next prev [] := by
  refine ⟨nodup_nil, fun l₁ l₂ h => ?_⟩
  obtain ⟨rfl, rfl⟩ := append_eq_nil_iff.1 h
  exact ⟨hnext, hprev⟩

theorem symm (h : Ring next prev l) : Ring prev next l.reverse := by
  refine ⟨nodup_reverse.2 h.nodup, fun l₁ l₂ heq => ?_⟩
  have hsplit : l₂.reverse ++ l₁.reverse = l := by rw [← reverse_append, heq, reverse_reverse]
  obtain ⟨hnext, hprev⟩ := h.links _ _ hsplit
  rw [getLast?_reverse, head?_reverse] at hnext hprev
  exact ⟨hprev, hnext⟩

theorem next_none (h : Ring next prev l) : next none = l.head? := (h.links [] l rfl).1

theorem next_mid (h : Ring next prev (l₁ ++ x :: l₂)) : next (some x) = l₂.head? := by
  have := (h.links (l₁ ++ [x]) l₂ (by rw [append_assoc]; rfl)).1
  rwa [getLast?_concat] at this

theorem prev_mid (h : Ring next prev (l₁ ++ x :: l₂)) : prev (some x) = l₁.getLast? := (h.links l₁ (x :: l₂) rfl).2

/-- If the ring has all nodes, `prev` undoes `next`. -/
theorem prev_next (h : Ring next prev l) (hall : ∀ x, x ∈ l) (a : Option κ) : prev (next a) = a := by
  cases a with
  | none => rw [h.next_none, (h.links [] l rfl).2]; rfl
  | some x =>
    obtain ⟨l₁, l₂, rfl⟩ := append_of_mem (hall x)
    have := (h.links (l₁ ++ [x]) l₂ (by rw [append_assoc]; rfl)).2
    rwa [getLast?_concat, ← h.next_mid] at this

theorem next_prev (h : Ring next prev l) (hall : ∀ x, x ∈ l) (a : Option κ) : next (prev a) = a :=
  h.symm.prev_next (fun x => mem_reverse.2 (hall x)) a

variable {a b : List κ}

/-- The last node of a list is not the last node of another one, nor the anchor. -/
theorem getLast?_ne (hb : b ≠ []) (hdisj : ∀ x ∈ a, x ∉ b) : a.getLast? ≠ b.getLast? := by
  intro heq
  rw [getLast?_eq_some_getLast hb] at heq
  exact hdisj _ (mem_of_getLast? heq) (getLast_mem hb)

theorem getLast?_append_right (hb : b ≠ []) : (a ++ b).getLast? = b.getLast? := by
  rw [getLast?_append, getLast?_eq_some_getLast hb]
  rfl

theorem head?_append_left (ha : a ≠ []) : (a ++ b).head? = a.head? := by
  rw [head?_append, head?_eq_some_head ha]
  rfl

variable [DecidableEq κ]

/-- Taking a node out: the links forward. -/
theorem unlink_next (h : Ring next prev (l₁ ++ x :: l₂)) {m₁ m₂ : List κ} (heq : m₁ ++ m₂ = l₁ ++ l₂) :
    update next l₁.getLast? l₂.head? m₁.getLast? = m₂.head? := by
  obtain ⟨-, hnodup, hdisj⟩ := nodup_append.1 h.nodup
  rcases append_eq_append_iff.1 heq with ⟨c, rfl, rfl⟩ | ⟨c, rfl, rfl⟩
  · -- the cut is before the node
    by_cases hc : c = []
    · subst hc
      rw [append_nil, nil_append, update_self]
    · have hne : m₁.getLast? ≠ (m₁ ++ c).getLast? := by
        rw [getLast?_append_right hc]
        refine getLast?_ne hc fun y hy hyc => ?_
        exact (nodup_append.1 (nodup_append.1 h.nodup).1).2.2 y hy y hyc rfl
      rw [update_of_ne hne, (h.links m₁ (c ++ x :: l₂) (append_assoc ..).symm).1, head?_append_left hc, head?_append_left hc]
  · -- the cut is after it
    by_cases hc : c = []
    · subst hc
      rw [append_nil, nil_append, update_self]
    · have hne : (l₁ ++ c).getLast? ≠ l₁.getLast? := by
        rw [getLast?_append_right hc]
        refine Ne.symm (getLast?_ne hc fun y hy hyc => ?_)
        exact hdisj y hy y (mem_cons_of_mem x (mem_append_left _ hyc)) rfl
      have hlink := (h.links (l₁ ++ x :: c) m₂ (by rw [append_assoc]; rfl)).1
      rw [getLast?_append_right (cons_ne_nil x c), ← singleton_append, getLast?_append_right hc] at hlink
      rw [update_of_ne hne, getLast?_append_right hc, hlink]

/-- A node is taken out. -/
theorem unlink (h : Ring next prev (l₁ ++ x :: l₂)) :
    Ring (update next (prev (some x)) (next (some x))) (update prev (next (some x)) (prev (some x))) (l₁ ++ l₂) := by
  rw [h.next_mid, h.prev_mid]
  refine ⟨h.nodup.sublist (sublist_append_right [x] l₂ |>.append_left l₁), fun m₁ m₂ heq => ⟨h.unlink_next heq, ?_⟩⟩
  have hsymm : Ring prev next (l₂.reverse ++ x :: l₁.reverse) := by
    have := h.symm
    rwa [reverse_append, reverse_cons, append_assoc] at this
  have heq' : m₂.reverse ++ m₁.reverse = l₂.reverse ++ l₁.reverse := by rw [← reverse_append, heq, reverse_append]
  have hback := hsymm.unlink_next heq'
  rwa [getLast?_reverse, head?_reverse, getLast?_reverse, head?_reverse] at hback

/-- A node is put in first place. -/
theorem push (h : Ring next prev l) (hx : x ∉ l) :
    Ring (update (update next (some x) (next none)) none (some x))
      (update (update prev (some x) none) (next none) (some x)) (x :: l) := by
  rw [h.next_none]
  have hhead : ∀ m : List κ, (∀ y ∈ m, y ∈ l) → m.head? ≠ some x := fun m hm heq => hx (hm x (mem_of_head? heq))
  refine ⟨nodup_cons.2 ⟨hx, h.nodup⟩, fun m₁ m₂ heq => ?_⟩
  cases m₁ with
  | nil =>
    obtain rfl : m₂ = x :: l := heq
    rw [show ([] : List κ).getLast? = none from rfl, show (x :: l).head? = some x from rfl, update_self,
      update_of_ne (hhead l fun _ hy => hy).symm, update_self]
    exact ⟨rfl, rfl⟩
  | cons y m =>
    rw [cons_append] at heq
    obtain ⟨rfl, rfl⟩ := cons.inj heq
    by_cases hm : m = []
    · subst hm
      rw [nil_append, show [y].getLast? = some y from rfl, update_of_ne (Option.some_ne_none y), update_self,
        update_self]
      exact ⟨rfl, rfl⟩
    · obtain ⟨hnext, hprev⟩ := h.links m m₂ rfl
      have hdisj := (nodup_append.1 h.nodup).2.2
      have hlast : (y :: m).getLast? = m.getLast? := by rw [← singleton_append, getLast?_append_right hm]
      have hne : m.getLast? ≠ some y := fun heq => hx (mem_append_left _ (mem_of_getLast? heq))
      have hne' : m₂.head? ≠ (m ++ m₂).head? := by
        rw [head?_append_left hm, head?_eq_some_head hm]
        exact fun heq => hdisj _ (head_mem hm) _ (mem_of_head? heq) rfl
      rw [hlast, update_of_ne (by rw [getLast?_eq_some_getLast hm]; exact Option.some_ne_none _), update_of_ne hne,
        update_of_ne hne', update_of_ne (hhead m₂ fun z hz => mem_append_right _ hz)]
      exact ⟨hnext, hprev⟩

end Ring

theorem Ring.scan_next (h : Ring next prev (l₁ ++ l₂)) (hn : l₂.length ≤ n) :
    scan next p n l₂.head? = l₂.find? p := by
  induction l₂ generalizing l₁ n with
  | nil => cases n <;> rfl
  | cons x l₂ ih =>
    obtain ⟨n, rfl⟩ : ∃ m, n = m + 1 := ⟨n - 1, by rw [length_cons] at hn; omega⟩
    have hnext := h.next_mid
    rw [show l₁ ++ x :: l₂ = (l₁ ++ [x]) ++ l₂ by rw [append_assoc]; rfl] at h
    show (if p x then some x else scan next p n (next (some x))) = _
    rw [hnext, ih h (by rw [length_cons] at hn; omega), find?_cons]
    cases p x <;> rfl

theorem Ring.scan_prev (h : Ring next prev l) (hn : l.length ≤ n) :
    scan prev p n (prev none) = l.reverse.find? p := by
  have h' : Ring prev next ([] ++ l.reverse) := h.symm
  rw [h.symm.next_none]
  exact h'.scan_next (by rw [length_reverse]; exact hn)

end Lib
