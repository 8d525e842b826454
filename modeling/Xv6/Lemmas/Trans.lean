import Xv6.Trans
import Xv6.Lib.Tally

/-!
# Whose turn it is to commit

What a step of a transaction can do (`Moves`), and what holds in every state whatever the operations log (`Turns`): the operations that
run are those outstanding, at most one process commits, and then no operation runs.
-/

namespace Xv6.Trans

open Lib List

variable {P : Type}

namespace TransAux

/-- Whether an operation is running. -/
def ops : Pc → Nat
  | .inOp _ => 1
  | _ => 0

theorem ops_wake (c : Pc) : ops (wake c) = ops c := by cases c <;> rfl

theorem ops_pos {c : Pc} (h : 0 < ops c) : ∃ named, c = .inOp named := by
  cases c with
  | inOp named => exact ⟨named, rfl⟩
  | _ => exact absurd h (lt_irrefl 0)

theorem wake_eq_inOp {c : Pc} {named : List Uint} : wake c = .inOp named ↔ c = .inOp named := by cases c <;> simp [wake]

theorem wake_eq_commit {c : Pc} : wake c = .commit ↔ c = .commit := by cases c <;> simp [wake]

theorem wake_eq_committed {c : Pc} : wake c = .committed ↔ c = .committed := by cases c <;> simp [wake]

/-- A process that is in `commit`. -/
def Busy (c : Pc) : Prop := c = .commit ∨ c = .committed

theorem busy_wake {c : Pc} : Busy (wake c) ↔ Busy c := or_congr wake_eq_commit wake_eq_committed

theorem not_busy_inOp {named : List Uint} : ¬ Busy (.inOp named) := by rintro (h | h) <;> cases h

theorem not_busy_idle : ¬ Busy .idle := by rintro (h | h) <;> cases h

theorem not_busy_asleep : ¬ Busy .asleep := by rintro (h | h) <;> cases h

section

variable [DecidableEq P] {s t : State P} {p q : P} {c : Pc} {log : Log} {l : Label P}

theorem setPc_self (s : State P) (log : Log) (p : P) (c : Pc) : (s.setPc log p c).pc p = c := Function.update_self ..

theorem setPc_of_ne (s : State P) (log : Log) (c : Pc) (hq : q ≠ p) : (s.setPc log p c).pc q = s.pc q := Function.update_of_ne hq ..

/-- What a step does. -/
inductive Moves (s : State P) : Label P → State P → Prop where
  | sleep {p : P} (hp : s.pc p = .idle ∨ s.pc p = .woken) : Moves s (.beginOp p) (s.setPc s.log p .asleep)
  | beginOp {p : P} (hp : s.pc p = .idle ∨ s.pc p = .woken) (hc : s.log.committing ≠ true)
      (hroom : s.log.lh.length + (s.log.outstanding + 1) * MAXOPBLOCKS ≤ (LOGBLOCKS : Int)) :
      Moves s (.beginOp p) (s.setPc { s.log with outstanding := s.log.outstanding + 1 } p (.inOp []))
  | absorb {p : P} {named : List Uint} {b : Uint} (hp : s.pc p = .inOp named) (hb : b ∈ s.log.lh) :
      Moves s (.logWrite p b) (s.setPc s.log p (.inOp (named.insert b)))
  | append {p : P} {named : List Uint} {b : Uint} (hp : s.pc p = .inOp named) (hb : b ∉ s.log.lh) (hlt : s.log.lh.length < LOGBLOCKS) :
      Moves s (.logWrite p b) (s.setPc { s.log with lh := s.log.lh ++ [b] } p (.inOp (named.insert b)))
  | last {p : P} {named : List Uint} (hp : s.pc p = .inOp named) (hc : s.log.committing ≠ true) (hlast : s.log.outstanding - 1 = 0) :
      Moves s (.endOp p) (s.setPc { s.log with outstanding := s.log.outstanding - 1, committing := true } p .commit)
  | leave {p : P} {named : List Uint} (hp : s.pc p = .inOp named) (hc : s.log.committing ≠ true) :
      Moves s (.endOp p) (s.setPc { s.log with outstanding := s.log.outstanding - 1 } p .idle).wakeup
  | commit {p : P} (hp : s.pc p = .commit) : Moves s (.commit p) (s.setPc (clear s.log) p .committed)
  | endCommit {p : P} (hp : s.pc p = .committed) : Moves s (.endCommit p) (s.setPc (Trans.endCommit s.log) p .idle).wakeup

theorem exec_of_step (h : s.step l = some t) : s.exec l = some (.ok t) := by
  unfold State.step at h
  split at h
  · next heq => exact heq.trans (by rw [Option.some.inj h])
  · cases h

theorem moves_of_step (h : s.step l = some t) : Moves s l t := by
  have hexec := exec_of_step h
  cases l with
  | beginOp p =>
    simp only [State.exec, Trans.beginOp] at hexec
    split at hexec
    · next hp =>
      split at hexec
      · cases hexec
        exact .sleep hp
      · next log hb =>
        cases hexec
        split at hb
        · cases hb
        · next hc =>
          split at hb
          · cases hb
          · next hroom =>
            cases hb
            exact .beginOp hp hc (not_lt.1 hroom)
    · cases hexec
  | logWrite p b =>
    simp only [State.exec, Trans.logWrite] at hexec
    split at hexec
    · next named hp =>
      split at hexec
      · cases Option.some.inj hexec
      · next log hlog =>
        cases hexec
        split at hlog
        · cases hlog
        · next hlt =>
          split at hlog
          · cases hlog
          · cases hlog
            by_cases hb : b ∈ s.log.lh
            · rw [if_pos hb]
              exact .absorb hp hb
            · rw [if_neg hb]
              exact .append hp hb (not_le.1 hlt)
    · cases hexec
  | endOp p =>
    simp only [State.exec, Trans.endOp] at hexec
    split at hexec
    · next named hp =>
      split at hexec
      · cases Option.some.inj hexec
      · next log he =>
        cases hexec
        split at he
        · cases he
        · next hc =>
          split at he
          · next hlast =>
            obtain ⟨rfl, -⟩ := Prod.mk.inj (Except.ok.inj he)
            exact .last hp hc hlast
          · cases (Prod.mk.inj (Except.ok.inj he)).2
      · next log he =>
        cases hexec
        split at he
        · cases he
        · next hc =>
          split at he
          · cases (Prod.mk.inj (Except.ok.inj he)).2
          · obtain ⟨rfl, -⟩ := Prod.mk.inj (Except.ok.inj he)
            exact .leave hp hc
    · cases hexec
  | commit p =>
    simp only [State.exec] at hexec
    split at hexec
    · next hp =>
      cases hexec
      exact .commit hp
    · cases hexec
  | endCommit p =>
    simp only [State.exec] at hexec
    split at hexec
    · next hp =>
      cases hexec
      exact .endCommit hp
    · cases hexec

end

/-- What holds in every state. -/
structure Turns [Fintype P] (s : State P) : Prop where
  count : s.log.outstanding = (∑ p, ops (s.pc p) : Nat)
  nodup : s.log.lh.Nodup
  le : s.log.lh.length ≤ LOGBLOCKS
  busy : ∀ p, Busy (s.pc p) → s.log.committing = true
  alone : ∀ p q, Busy (s.pc p) → Busy (s.pc q) → p = q
  quiet : s.log.committing = true → ∀ p named, s.pc p ≠ .inOp named

variable [Fintype P] {s t : State P} {p q : P} {c : Pc} {log : Log} {named : List Uint}

/-- The operation that runs is one of those outstanding. -/
theorem Turns.outstanding_pos (h : Turns s) (hp : s.pc p = .inOp named) : 1 ≤ s.log.outstanding := by
  have hle : ops (s.pc p) ≤ ∑ q, ops (s.pc q) := Finset.single_le_sum (fun q _ => Nat.zero_le (ops (s.pc q))) (Finset.mem_univ p)
  rw [hp] at hle
  rw [h.count]
  exact_mod_cast hle

theorem Turns.outstanding_eq_zero (h : Turns s) (hnone : ∀ p named, s.pc p ≠ .inOp named) : s.log.outstanding = 0 := by
  have hzero : ∑ p, ops (s.pc p) = 0 := by
    refine Finset.sum_eq_zero fun p _ => ?_
    by_contra hne
    obtain ⟨named, hp⟩ := ops_pos (Nat.pos_of_ne_zero hne)
    exact hnone p named hp
  rw [h.count, hzero]
  rfl

/-- When the last operation ends, no other is running. -/
theorem Turns.eq_of_last (h : Turns s) (hp : s.pc p = .inOp named) (hlast : s.log.outstanding - 1 = 0) (hqp : q ≠ p) (l : List Uint) :
    s.pc q ≠ .inOp l := by
  classical
  intro hq
  have htwo : ops (s.pc p) + ops (s.pc q) ≤ ∑ r, ops (s.pc r) :=
    Finset.add_le_sum (f := fun r => ops (s.pc r)) (fun r _ => Nat.zero_le _) (Finset.mem_univ p) (Finset.mem_univ q) (Ne.symm hqp)
  rw [hp, hq] at htwo
  have hcount := h.count
  have : ops (.inOp l) = 1 ∧ ops (.inOp named) = 1 := ⟨rfl, rfl⟩
  omega

theorem Turns.wakeup (h : Turns s) : Turns s.wakeup := by
  refine ⟨?_, h.nodup, h.le, fun p hp => h.busy p (busy_wake.1 hp), fun p q hp hq => h.alone p q (busy_wake.1 hp) (busy_wake.1 hq),
    fun hc p named hp => h.quiet hc p named (wake_eq_inOp.1 hp)⟩
  rw [State.wakeup]
  simp only [ops_wake]
  exact h.count

theorem boot_turns : Turns (boot : State P) := by
  refine ⟨?_, nodup_nil, Nat.zero_le _, ?_, ?_, ?_⟩
  · rw [show ∑ p, ops ((boot : State P).pc p) = 0 from Finset.sum_eq_zero fun p _ => rfl]
    rfl
  · exact fun p hp => absurd hp not_busy_idle
  · exact fun p q hp => absurd hp not_busy_idle
  · intro hc
    cases hc

variable [DecidableEq P]

/-- Sums over the processes when one of them has moved. -/
theorem sum_setPc (f : Pc → Nat) (s : State P) (log : Log) (p : P) (c : Pc) :
    ∑ q, f ((s.setPc log p c).pc q) + f (s.pc p) = ∑ q, f (s.pc q) + f c := by
  have h := sum_change (f := fun q => f (s.pc q)) (g := fun q => f ((s.setPc log p c).pc q)) (Finset.mem_univ p) fun q _ hq => by
    rw [setPc_of_ne s log c hq]
  rw [setPc_self] at h
  exact h

/-- One process has moved and the log may have changed. -/
theorem Turns.move (h : Turns s) (hcount : log.outstanding + ops (s.pc p) = s.log.outstanding + ops c) (hnodup : log.lh.Nodup)
    (hle : log.lh.length ≤ LOGBLOCKS) (hbusy : ∀ q, q = p ∧ Busy c ∨ q ≠ p ∧ Busy (s.pc q) → log.committing = true)
    (halone : Busy c → ∀ q, Busy (s.pc q) → q = p)
    (hquiet : log.committing = true → (∀ named, c ≠ .inOp named) ∧ ∀ q named, q ≠ p → s.pc q ≠ .inOp named) :
    Turns (s.setPc log p c) := by
  have hops := sum_setPc ops s log p c
  have hcnt := h.count
  refine ⟨?_, hnodup, hle, fun q hq => ?_, fun q r hq hr => ?_, fun hc q named => ?_⟩
  · show log.outstanding = _
    omega
  · by_cases hqp : q = p
    · rw [hqp, setPc_self] at hq
      exact hbusy q (.inl ⟨hqp, hq⟩)
    · rw [setPc_of_ne s log c hqp] at hq
      exact hbusy q (.inr ⟨hqp, hq⟩)
  · by_cases hqp : q = p
    · rw [hqp, setPc_self] at hq
      by_cases hrp : r = p
      · rw [hqp, hrp]
      · rw [setPc_of_ne s log c hrp] at hr
        exact hqp.trans (halone hq r hr).symm
    · rw [setPc_of_ne s log c hqp] at hq
      by_cases hrp : r = p
      · rw [hrp, setPc_self] at hr
        exact (halone hr q hq).trans hrp.symm
      · rw [setPc_of_ne s log c hrp] at hr
        exact h.alone q r hq hr
  · by_cases hqp : q = p
    · rw [hqp, setPc_self]
      exact (hquiet hc).1 named
    · rw [setPc_of_ne s log c hqp]
      exact (hquiet hc).2 q named hqp

omit [DecidableEq P] in
/-- Those that were busy before still find the log committing. -/
theorem Turns.keep_busy (h : Turns s) (hc : ¬ Busy c) (q : P) (hq : q = p ∧ Busy c ∨ q ≠ p ∧ Busy (s.pc q)) : s.log.committing = true :=
  hq.elim (fun hq => absurd hq.2 hc) fun hq => h.busy q hq.2

theorem Turns.moves {l : Label P} (h : Turns s) (hm : Moves s l t) : Turns t := by
  cases hm with
  | @sleep p hp =>
    have hops : ops (s.pc p) = 0 := by rcases hp with hp | hp <;> rw [hp] <;> rfl
    exact h.move (by rw [hops]; rfl) h.nodup h.le (h.keep_busy not_busy_asleep) (fun hb => absurd hb not_busy_asleep)
      fun hc => ⟨fun _ => Pc.noConfusion, fun q named _ => h.quiet hc q named⟩
  | @beginOp p hp hc hroom =>
    have hops : ops (s.pc p) = 0 := by rcases hp with hp | hp <;> rw [hp] <;> rfl
    refine h.move ?_ h.nodup h.le (h.keep_busy not_busy_inOp) (fun hb => absurd hb not_busy_inOp) fun hcom => absurd hcom hc
    show s.log.outstanding + 1 + (ops (s.pc p) : Int) = s.log.outstanding + 1
    omega
  | @absorb p named b hp hb =>
    exact h.move (by rw [hp]; rfl) h.nodup h.le (h.keep_busy not_busy_inOp) (fun hq => absurd hq not_busy_inOp)
      fun hc => absurd hp (h.quiet hc p named)
  | @append p named b hp hb hlt =>
    refine h.move (by rw [hp]; rfl) (nodup_append.2 ⟨h.nodup, nodup_singleton b, ?_⟩) ?_ (h.keep_busy not_busy_inOp)
      (fun hq => absurd hq not_busy_inOp) fun hc => absurd hp (h.quiet hc p named)
    · rintro x hx y hy rfl
      exact hb (mem_singleton.1 hy ▸ hx)
    · show (s.log.lh ++ [b]).length ≤ LOGBLOCKS
      rw [length_append, length_singleton]
      omega
  | @last p named hp hc hlast =>
    refine h.move ?_ h.nodup h.le (fun _ _ => rfl) (fun _ q hq => absurd (h.busy q hq) hc)
      fun _ => ⟨fun _ => Pc.noConfusion, fun q l hqp => h.eq_of_last hp hlast hqp l⟩
    rw [hp]
    show s.log.outstanding - 1 + 1 = s.log.outstanding + 0
    omega
  | @leave p named hp hc =>
    refine Turns.wakeup (h.move ?_ h.nodup h.le (h.keep_busy not_busy_idle) (fun hq => absurd hq not_busy_idle) fun hcom => absurd hcom hc)
    rw [hp]
    show s.log.outstanding - 1 + 1 = s.log.outstanding + 0
    omega
  | @commit p hp =>
    have hcom := h.busy p (.inl hp)
    exact h.move (by rw [hp]; rfl) nodup_nil (Nat.zero_le _) (fun _ _ => hcom) (fun _ q hq => h.alone q p hq (.inl hp))
      fun hc => ⟨fun _ => Pc.noConfusion, fun q l _ => h.quiet hc q l⟩
  | @endCommit p hp =>
    refine Turns.wakeup (h.move (by rw [hp]; rfl) h.nodup h.le ?_ (fun hq => absurd hq not_busy_idle) fun hc => by cases hc)
    rintro q (⟨-, hq⟩ | ⟨hqp, hq⟩)
    · exact absurd hq not_busy_idle
    · exact absurd (h.alone q p hq (.inr hp)) hqp

end TransAux

end Xv6.Trans
