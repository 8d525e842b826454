import Mathlib.Logic.Basic

/-!
# Weakest preconditions for programs with a state that may stop

A program of type `StateT σ (Except ε) α` run from `s` gives a result and a new state, or stops with a reason. `Wp allowed m s Q`
says that a run from `s` ends with `Q`, or stops for a reason that is allowed. The rules follow the program: a function called has
one lemma of this form, and its caller goes on from what that lemma says (`Wp.bind`).
-/

namespace Lib

variable {σ ε α β : Type}

/-- Run from `s`, the program ends with a result and a state that meet `Q`, or stops for an allowed reason. -/
def Wp (allowed : ε → Prop) (m : StateT σ (Except ε) α) (s : σ) (Q : α → σ → Prop) : Prop :=
  match m s with
  | .ok (a, t) => Q a t
  | .error e => allowed e

/-- A program whose first part has a known outcome goes on from there. -/
theorem run_bind {m : StateT σ (Except ε) α} {f : α → StateT σ (Except ε) β} {s t : σ} {a : α} (heq : m s = .ok (a, t)) :
    (m >>= f) s = f a t := by
  have hrun : (m >>= f) s = (m s).bind fun r => f r.1 r.2 := rfl
  rw [hrun, heq]
  rfl

namespace Wp

variable {allowed : ε → Prop} {m : StateT σ (Except ε) α} {f : α → StateT σ (Except ε) β} {s : σ} {Q R : α → σ → Prop}
  {S : β → σ → Prop} {a : α} {t : σ} {e : ε}

theorem pure (h : Q a s) : Wp allowed (Pure.pure a) s Q := h

theorem throw (h : allowed e) : Wp allowed (MonadExcept.throw e) s Q := h

theorem mono (h : Wp allowed m s R) (hQ : ∀ a t, R a t → Q a t) : Wp allowed m s Q := by
  unfold Wp at h ⊢
  split
  · next heq => rw [heq] at h; exact hQ _ _ h
  · next heq => rw [heq] at h; exact h

/-- Where every reason to stop is allowed, nothing need be known of a program that nothing is asked of. -/
theorem any (m : StateT σ (Except ε) α) (s : σ) : Wp (fun _ => True) m s fun _ _ => True := by
  unfold Wp
  split <;> trivial

/-- Two things that hold after the same run. -/
theorem and (h : Wp allowed m s Q) (h' : Wp allowed m s R) : Wp allowed m s fun a t => Q a t ∧ R a t := by
  unfold Wp at h h' ⊢
  split
  · next heq => rw [heq] at h h'; exact ⟨h, h'⟩
  · next heq => rw [heq] at h; exact h

/-- More reasons to stop may be allowed. -/
theorem weaken {allowed' : ε → Prop} (h : Wp allowed m s Q) (ha : ∀ e, allowed e → allowed' e) : Wp allowed' m s Q := by
  unfold Wp at h ⊢
  split
  · next heq => rw [heq] at h; exact h
  · next heq => rw [heq] at h; exact ha _ h

/-- A program and then a second one: the second starts from whatever the first may leave. -/
theorem bind (h : Wp allowed m s R) (hf : ∀ a t, R a t → Wp allowed (f a) t S) : Wp allowed (m >>= f) s S := by
  have hrun : (m >>= f) s = (m s).bind fun r => f r.1 r.2 := rfl
  unfold Wp at h ⊢
  rw [hrun]
  cases hm : m s with
  | error e => rw [hm] at h; exact h
  | ok r => rw [hm] at h; exact hf r.1 r.2 h

/-- A program whose outcome is known, and then a second one. -/
theorem bind_eq (heq : m s = .ok (a, t)) (hf : Wp allowed (f a) t S) : Wp allowed (m >>= f) s S := by
  unfold Wp
  rw [run_bind heq]
  exact hf

/-- A program and then a result that says nothing about the state. -/
theorem then_pure {P : σ → Prop} {b : β} (h : Wp allowed m s fun _ t => P t) :
    Wp allowed (m >>= fun _ => Pure.pure b) s fun _ t => P t := h.bind fun _ _ ht => ht

/-- From `s`, the program does what another one does from `t`. -/
theorem congr {m' : StateT σ (Except ε) α} (heq : m s = m' t) (h : Wp allowed m' t Q) : Wp allowed m s Q := by
  unfold Wp at h ⊢
  rw [heq]
  exact h

/-- A program whose outcome is known. -/
theorem of_eq (heq : m s = .ok (a, t)) (h : Q a t) : Wp allowed m s Q := by
  unfold Wp
  rw [heq]
  exact h

/-- What holds after a run that ended. -/
theorem ok (h : Wp allowed m s Q) (heq : m s = .ok (a, t)) : Q a t := by
  unfold Wp at h
  rw [heq] at h
  exact h

/-- A run that stopped did so for an allowed reason. -/
theorem error (h : Wp allowed m s Q) (heq : m s = .error e) : allowed e := by
  unfold Wp at h
  rw [heq] at h
  exact h

/-- Where no reason to stop is allowed, the run ends. -/
theorem returns (h : Wp (fun _ => False) m s Q) : ∃ a t, m s = .ok (a, t) ∧ Q a t := by
  cases hm : m s with
  | error e => exact (h.error hm).elim
  | ok r => exact ⟨r.1, r.2, rfl, h.ok hm⟩

end Wp

end Lib
