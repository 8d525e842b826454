import Mathlib.Data.List.Basic

/-!
# Runs of a labelled transition relation

A system is given by a relation `step s a t`: in state `s` the step with label `a` leads to `t`. Nothing here names a
particular system. A property of every run is proved from what one step preserves (`Run.invariant`); a run that keeps to a
condition on its steps is a run of the guarded relation (`Guarded`).
-/

namespace Lib

open List

variable {σ α : Type*}

/-- A run from the first state to the last, with the labels of the steps taken, in order. -/
inductive Run (step : σ → α → σ → Prop) : σ → List α → σ → Prop where
  | nil (s : σ) : Run step s [] s
  | snoc {s t u : σ} {as : List α} {a : α} : Run step s as t → step t a u → Run step s (as ++ [a]) u

/-- The steps of a relation that meet a condition on the state before the step and the label. -/
def Guarded (ok : σ → α → Prop) (step : σ → α → σ → Prop) (s : σ) (a : α) (t : σ) : Prop := ok s a ∧ step s a t

/-- The relation of a partial step function. -/
def StepOf (f : σ → α → Option σ) (s : σ) (a : α) (t : σ) : Prop := f s a = some t

namespace Run

variable {step step' : σ → α → σ → Prop} {as : List α} {s t : σ} {a : α}

theorem single (h : step s a t) : Run step s [a] t := .snoc (.nil s) h

/-- What holds at the start and is kept by every step holds at the end of every run. -/
theorem invariant {I : σ → Prop} (hstep : ∀ s a t, I s → step s a t → I t)
    (h : Run step s as t) (hs : I s) : I t := by
  induction h with
  | nil => exact hs
  | snoc _ ha ih => exact hstep _ _ _ ih ha

/-- A run of one relation is a run of every relation that allows its steps. -/
theorem mono (hsub : ∀ s a t, step s a t → step' s a t) (h : Run step s as t) :
    Run step' s as t := by
  induction h with
  | nil => exact .nil _
  | snoc _ ha ih => exact .snoc ih (hsub _ _ _ ha)

/-- A run whose labels all meet a condition is a run of the guarded relation. -/
theorem guard {ok : α → Prop} (h : Run step s as t) (hall : ∀ a ∈ as, ok a) :
    Run (Guarded (fun _ => ok) step) s as t := by
  induction h with
  | nil => exact .nil _
  | snoc _ ha ih =>
    exact .snoc (ih fun b hb => hall b (mem_append_left _ hb)) ⟨hall _ (mem_append_right _ (mem_singleton_self _)), ha⟩

/-- Two runs, one starting where the other ends, make one run. -/
theorem append {s t u : σ} {as bs : List α} (h : Run step s as t) (h' : Run step t bs u) :
    Run step s (as ++ bs) u := by
  induction h' with
  | nil => rw [append_nil]; exact h
  | snoc _ ha ih => rw [← append_assoc]; exact .snoc ih ha

theorem eq_of_nil (h : Run step s [] t) : s = t := by
  generalize hl : ([] : List α) = l at h
  cases h with
  | nil => rfl
  | snoc _ _ => exact absurd hl.symm (concat_ne_nil _ _)

/-- The last step of a run. -/
theorem unsnoc {s u : σ} (h : Run step s (as ++ [a]) u) : ∃ t, Run step s as t ∧ step t a u := by
  generalize hl : as ++ [a] = l at h
  cases h with
  | nil => exact absurd hl (concat_ne_nil _ _)
  | @snoc t _ bs b hrun hb =>
    obtain ⟨rfl, rfl⟩ := append_inj' hl rfl |>.imp id (fun h => singleton_inj.1 h)
    exact ⟨t, hrun, hb⟩

/-- Where a step has one outcome at most, so has a run. -/
theorem det (hdet : ∀ s a t t', step s a t → step s a t' → t = t') {s t t' : σ} (h : Run step s as t)
    (h' : Run step s as t') : t = t' := by
  induction h generalizing t' with
  | nil => exact h'.eq_of_nil
  | snoc _ ha ih =>
    obtain ⟨u, hu, ha'⟩ := h'.unsnoc
    obtain rfl := ih hu
    exact hdet _ _ _ _ ha ha'

/-- The first step of a run. -/
theorem uncons {s u : σ} (h : Run step s (a :: as) u) : ∃ t, step s a t ∧ Run step t as u := by
  generalize hl : a :: as = l at h
  induction h generalizing as with
  | nil => cases hl
  | @snoc t u bs b hrun hb ih =>
    cases bs with
    | nil =>
      obtain ⟨rfl, rfl⟩ := cons.inj hl
      obtain rfl := hrun.eq_of_nil
      exact ⟨u, hb, .nil u⟩
    | cons c cs =>
      obtain ⟨rfl, rfl⟩ := cons.inj hl
      obtain ⟨t', ht', hrest⟩ := ih rfl
      exact ⟨t', ht', .snoc hrest hb⟩

theorem cons {s t u : σ} (ha : step s a t) (h : Run step t as u) : Run step s (a :: as) u := append (single ha) h

/-- Folding a partial step function over the labels gives a run of its relation. -/
theorem of_foldlM (f : σ → α → Option σ) : ∀ (as : List α) (s t : σ), as.foldlM f s = some t → Run (StepOf f) s as t := by
  intro as
  induction as with
  | nil =>
    intro s t h
    simp only [foldlM_nil, Option.pure_def, Option.some.injEq] at h
    exact h ▸ .nil s
  | cons a as ih =>
    intro s t h
    rw [foldlM_cons, Option.bind_eq_bind, Option.bind_eq_some_iff] at h
    obtain ⟨u, hu, hrest⟩ := h
    exact append (single hu) (ih u t hrest)

/-- A fold that succeeds is a run, and what it computes is seen in the last state. -/
theorem exists_of_foldlM (f : σ → α → Option σ) (as : List α) (s : σ) (h : (as.foldlM f s).isSome = true) :
    ∃ t, Run (StepOf f) s as t ∧ ∀ {β : Type} (g : σ → β) {b : β}, (as.foldlM f s).map g = some b → g t = b := by
  obtain ⟨t, ht⟩ := Option.isSome_iff_exists.1 h
  refine ⟨t, of_foldlM f as s t ht, fun g b hb => ?_⟩
  rw [ht] at hb
  exact Option.some.inj hb

/-- A fold in which every step is checked to meet a condition is a run of the guarded relation. -/
theorem guarded_of_foldlM (ok : σ → α → Prop) [∀ s a, Decidable (ok s a)] (f : σ → α → Option σ) (as : List α) (s : σ)
    (h : (as.foldlM (fun s a => if ok s a then f s a else none) s).isSome = true) :
    ∃ t, Run (Guarded ok (StepOf f)) s as t ∧
      ∀ {β : Type} (g : σ → β) {b : β}, (as.foldlM (fun s a => if ok s a then f s a else none) s).map g = some b → g t = b := by
  obtain ⟨t, hrun, hview⟩ := exists_of_foldlM _ as s h
  refine ⟨t, hrun.mono fun s a t hstep => ?_, hview⟩
  have hstep : (if ok s a then f s a else none) = some t := hstep
  by_cases hok : ok s a
  · rw [if_pos hok] at hstep
    exact ⟨hok, hstep⟩
  · rw [if_neg hok] at hstep
    cases hstep

end Run

end Lib
