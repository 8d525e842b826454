import Xv6.Lemmas.PipeInv

/-!
# A pipe with one writer and one reader

With one process on each side no process enters the lock twice, so the invariant holds in every run. While both are in the entry
loop of `peterson_enter` the lock does not change, and the one whose turn it is finds the loop condition false at its second load.
-/

namespace Xv6

open Lib Peterson List

namespace PipeAux

variable {s t u : PipeSys Party} {labels : List (PipeLabel Party)} {pi' : Pipe} {l' : PipeProc} {ev : PipeEvent} {a : PipeAct}
  {me : Party} {pc : PC}

/-- Each process is in calls of its own side only. -/
def OnSide (s : PipeSys Party) : Prop := ∀ me x, (s.proc me).pc.side = some x → x = me

theorem side_of_inside (h : pc.phase.inside me) : pc.side = some me := by
  cases pc <;> first | exact h.elim | exact congrArg some h

theorem onSide_step {label : PipeLabel Party} (h : OnSide s) (hok : TwoParty label) (hstep : PipeStep s label t) : OnSide t := by
  cases hstep with
  | closeWrite | closeRead => exact h
  | proc p a hr =>
    intro me x hx
    by_cases hme : me = p
    · subst hme
      rw [proc_after] at hx
      have hs := step_side hr
      cases a with
      | write buf =>
        rw [hs.2] at hx
        cases hx
        exact hok.symm
      | read n =>
        rw [show _ = some reader from hs] at hx
        cases hx
        exact hok.symm
      | go e =>
        rcases hs with hs | hs
        · rw [hs] at hx
          nomatch hx
        · exact h me x (hs.symm.trans hx)
    · rw [proc_after_of_ne hme] at hx
      exact h me x hx

theorem onePerSide_of_onSide (h : OnSide s) (label : PipeLabel Party) : OnePerSide s label := by
  cases label with
  | closeWrite | closeRead => trivial
  | proc p a =>
    intro me hp q hq
    have hmp : me = p := h p me (by rw [hp]; rfl)
    have hmq : me = q := h q me (side_of_inside hq)
    rw [← hmq, hmp, hp] at hq
    exact hq

/-- With one writer and one reader every run uses each side by one process at a time. -/
theorem onePerSide_run (hinit : PipeInit s) (hrun : Run (Guarded (fun _ => TwoParty) PipeStep) s labels t) :
    Run (Guarded OnePerSide PipeStep) s labels t ∧ OnSide t := by
  induction hrun with
  | nil => exact ⟨.nil _, fun me x hx => by rw [hinit.idle me] at hx; nomatch hx⟩
  | snoc _ hstep ih =>
    obtain ⟨hrun, hside⟩ := ih
    exact ⟨.snoc hrun ⟨onePerSide_of_onSide hside _, hstep.2⟩, onSide_step hside hstep.1 hstep.2⟩

/-- While both processes spin, both flags are up. -/
theorem want_of_bothSpin (h : Inv s) (hs : s.BothSpin) (me : Party) : s.pipe.lock.want me = true :=
  (h.lock.flag me).2 ⟨me, (hs me).inside⟩

/-- A process in the entry loop is at one of its two loads. -/
theorem pc_of_spinning (h : pc.phase.spinning me) : pc = .spinWant me ∨ pc = .spinTurn me := by
  cases pc <;> first | exact h.elim | exact Or.inl (congrArg _ h) | exact Or.inr (congrArg _ h)

/-- A step that leaves both processes in the loop changes nothing of the lock, and if the turn is with the process that takes it
then it is the load of the other flag. -/
theorem bothSpin_step (h : Inv s) (hs : s.BothSpin) {p : Party} (hstep : (s.proc p).step s.pipe a = some (pi', l', ev))
    (hl : l'.pc.phase.spinning p) :
    pi'.lock = s.pipe.lock ∧ (s.pipe.lock.turn = p → (s.proc p).pc = .spinWant p ∧ l'.pc = .spinTurn p) := by
  have hwant := want_of_bothSpin h hs p.other
  rcases pc_of_spinning (hs p) with hpc | hpc
  · cases a <;> simp only [PipeProc.step, hpc, petersonEnter, reduceCtorEq, if_pos hwant] at hstep
    cases hstep
    exact ⟨rfl, fun _ => ⟨hpc, rfl⟩⟩
  · cases a <;> simp only [PipeProc.step, hpc, petersonEnter, reduceCtorEq] at hstep
    cases hstep
    refine ⟨rfl, fun hturn => ?_⟩
    rw [if_neg (by rw [hturn]; exact p.other_ne.symm), entered_phase] at hl
    exact hl.elim

/-- The loads the process whose turn it is has made since it last looked at the other flag. -/
def loads (s : PipeSys Party) : Nat := if (s.proc s.pipe.lock.turn).pc.phase = .spinTurn s.pipe.lock.turn then 1 else 0

theorem bothSpin_run (h : Inv t) (hs : t.BothSpin) (hrun : Run (fun x a y => PipeStep x a y ∧ y.BothSpin) t labels u) :
    (Inv u ∧ u.BothSpin) ∧ u.pipe.lock.turn = t.pipe.lock.turn ∧
      labels.countP (PipeLabel.isOf t.pipe.lock.turn) + loads t = loads u := by
  induction hrun with
  | nil => exact ⟨⟨h, hs⟩, rfl, by rw [countP_nil, Nat.zero_add]⟩
  | @snoc x y labels label _ hstep ih =>
    obtain ⟨⟨hinv, hspin⟩, hturn, hcount⟩ := ih
    obtain ⟨hstep, hspin'⟩ := hstep
    cases hstep with
    | closeWrite hnone => exact absurd (side_of_inside (hspin writer).inside) (hnone writer)
    | closeRead hnone => exact absurd (side_of_inside (hspin reader).inside) (hnone reader)
    | @proc r p a hr =>
      obtain ⟨pi', l', ev⟩ := r
      have hl := hspin' p
      rw [proc_after] at hl
      obtain ⟨hlock, hfirst⟩ := bothSpin_step hinv hspin hr hl
      have hone : OnePerSide x (.proc p a) := by
        intro me hp
        rcases pc_of_spinning (hspin p) with h | h <;> exact nomatch h.symm.trans hp
      have hturn' : (x.after p (pi', l', ev)).pipe.lock.turn = t.pipe.lock.turn := (congrArg Lock.turn hlock).trans hturn
      refine ⟨⟨inv_proc hinv hr hone, hspin'⟩, hturn', ?_⟩
      rw [countP_append, countP_singleton]
      by_cases hp : p = t.pipe.lock.turn
      · obtain ⟨hbefore, hafter⟩ := hfirst (hturn.trans hp.symm)
        have hx : loads x = 0 := by rw [loads, hturn, ← hp, hbefore]; rfl
        have hy : loads (x.after p (pi', l', ev)) = 1 := by rw [loads, hturn', ← hp, proc_after, hafter]; exact if_pos rfl
        rw [if_pos (by simpa [PipeLabel.isOf] using hp)]
        omega
      · have hy : loads (x.after p (pi', l', ev)) = loads x := by
          rw [loads, loads, hturn', hturn, proc_after_of_ne (Ne.symm hp)]
        rw [if_neg (by simpa [PipeLabel.isOf] using hp)]
        omega

end PipeAux

end Xv6
