import Xv6.Lemmas.Trans
import Xv6.Lib.Run
import Mathlib.Algebra.BigOperators.Ring.Finset

/-!
# Log space is enough, but for absorption

Every operation that runs has room for the blocks it has not named yet: the blocks in the log and what all operations may still add
never exceed `LOGBLOCKS`. So a block that is new to the log fits. `log_write` asks whether the log is full before it looks whether the
block is there already, and a full log is allowed: a block that is logged again then runs into the panic.
-/

namespace Xv6.Trans

open Lib List

variable {P : Type}

namespace TransAux

/-- The number of blocks that the operation may still name. -/
def slack : Pc → Nat
  | .inOp named => MAXOPBLOCKS - named.length
  | _ => 0

theorem slack_wake (c : Pc) : slack (wake c) = slack c := by cases c <;> rfl

theorem slack_le (c : Pc) : slack c ≤ ops c * MAXOPBLOCKS := by
  cases c with
  | inOp named => exact (Nat.sub_le ..).trans (Nat.one_mul _).ge
  | _ => exact Nat.zero_le _

/-- What the operations may still log has a place in the log. -/
structure Room [Fintype P] (s : State P) : Prop where
  room : s.log.lh.length + ∑ p, slack (s.pc p) ≤ LOGBLOCKS
  named : ∀ p named, s.pc p = .inOp named → named.length ≤ MAXOPBLOCKS ∧ named ⊆ s.log.lh

section

variable [Fintype P] {s t : State P} {p q : P} {c : Pc} {log : Log} {named : List Uint} {b : Uint}

/-- What the operations may still add is at most `MAXOPBLOCKS` for each. -/
theorem Turns.slack_le (h : Turns s) : (∑ p, slack (s.pc p) : Nat) ≤ s.log.outstanding * MAXOPBLOCKS := by
  rw [h.count]
  have hle : ∑ p, slack (s.pc p) ≤ (∑ p, ops (s.pc p)) * MAXOPBLOCKS := by
    rw [Finset.sum_mul]
    exact Finset.sum_le_sum fun p _ => TransAux.slack_le (s.pc p)
  exact_mod_cast hle

theorem boot_room : Room (boot : State P) := by
  refine ⟨?_, fun p named hp => by cases hp⟩
  rw [show ∑ p, slack ((boot : State P).pc p) = 0 from Finset.sum_eq_zero fun p _ => rfl]
  exact Nat.zero_le _

theorem Room.wakeup (h : Room s) : Room s.wakeup := by
  refine ⟨?_, fun p named hp => h.named p named (wake_eq_inOp.1 hp)⟩
  rw [State.wakeup]
  simp only [slack_wake]
  exact h.room

/-- The room that an operation has left is enough for a block it has not named. -/
theorem Room.lt_of_inOp (h : Room s) (hp : s.pc p = .inOp named) (hlen : named.length < MAXOPBLOCKS) : s.log.lh.length < LOGBLOCKS := by
  have hle : slack (s.pc p) ≤ ∑ q, slack (s.pc q) := Finset.single_le_sum (fun q _ => Nat.zero_le (slack (s.pc q))) (Finset.mem_univ p)
  have hroom := h.room
  rw [hp] at hle
  have : slack (.inOp named) = MAXOPBLOCKS - named.length := rfl
  omega

/-- A block that is new to the log is new to the operation. -/
theorem Room.insert_eq (h : Room s) (hp : s.pc p = .inOp named) (hb : b ∉ s.log.lh) : named.insert b = b :: named :=
  insert_of_not_mem fun hn => hb ((h.named p named hp).2 hn)

omit [Fintype P] in
theorem within_inOp (hp : s.pc p = .inOp named) (hw : s.Within (.logWrite p b)) : (named.insert b).length ≤ MAXOPBLOCKS := by
  have hw : ((s.pc p).named.insert b).length ≤ MAXOPBLOCKS := hw
  rw [hp] at hw
  exact hw

variable [DecidableEq P]

theorem Room.move (h : Room s) (hroom : log.lh.length + (∑ q, slack (s.pc q) + slack c) ≤ LOGBLOCKS + slack (s.pc p))
    (hself : ∀ named, c = .inOp named → named.length ≤ MAXOPBLOCKS ∧ named ⊆ log.lh)
    (hother : ∀ q named, q ≠ p → s.pc q = .inOp named → s.log.lh ⊆ log.lh) : Room (s.setPc log p c) := by
  have hslack := sum_setPc slack s log p c
  refine ⟨?_, fun q named hq => ?_⟩
  · show log.lh.length + _ ≤ _
    omega
  · by_cases hqp : q = p
    · rw [hqp, setPc_self] at hq
      exact hself named hq
    · rw [setPc_of_ne s log c hqp] at hq
      exact ⟨(h.named q named hq).1, List.Subset.trans (h.named q named hq).2 (hother q named hqp hq)⟩

theorem Room.moves {l : Label P} (ht : Turns s) (h : Room s) (hw : s.Within l) (hm : Moves s l t) : Room t := by
  have hroom := h.room
  cases hm with
  | @sleep p hp | @last p named hp hc hlast =>
    exact h.move (show s.log.lh.length + (_ + 0) ≤ _ by omega) (fun _ hn => by cases hn) fun _ _ _ _ => List.Subset.refl _
  | @beginOp p hp hc hadmit =>
    have hslack := ht.slack_le
    refine h.move ?_ (fun named hn => ?_) fun _ _ _ _ => List.Subset.refl _
    · show s.log.lh.length + (_ + MAXOPBLOCKS) ≤ _
      rw [Int.add_mul] at hadmit
      omega
    · obtain rfl := Pc.inOp.inj hn
      exact ⟨Nat.zero_le _, nil_subset _⟩
  | @absorb p named b hp hb =>
    have hslack : slack (s.pc p) = MAXOPBLOCKS - named.length := by rw [hp]; rfl
    have hmore : named.length ≤ (named.insert b).length := length_le_length_insert
    refine h.move ?_ (fun l hl => ?_) fun _ _ _ _ => List.Subset.refl _
    · show _ + (_ + (MAXOPBLOCKS - (named.insert b).length)) ≤ _
      omega
    · obtain rfl := Pc.inOp.inj hl
      exact ⟨within_inOp hp hw, fun x hx => (mem_insert_iff.1 hx).elim (fun heq => heq ▸ hb) fun hx => (h.named p named hp).2 hx⟩
  | @append p named b hp hb hlt =>
    have hslack : slack (s.pc p) = MAXOPBLOCKS - named.length := by rw [hp]; rfl
    have hlen := within_inOp hp hw
    rw [h.insert_eq hp hb] at hlen ⊢
    rw [length_cons] at hlen
    refine h.move ?_ (fun l hl => ?_) fun _ _ _ _ => subset_append_left ..
    · show (s.log.lh ++ [b]).length + (_ + (MAXOPBLOCKS - (named.length + 1))) ≤ _
      rw [length_append, length_singleton]
      omega
    · obtain rfl := Pc.inOp.inj hl
      refine ⟨hlen, cons_subset.2 ⟨mem_append_right _ (mem_singleton_self b), ?_⟩⟩
      exact List.Subset.trans (h.named p named hp).2 (subset_append_left ..)
  | @leave p named hp hc | @endCommit p hp =>
    exact Room.wakeup (h.move (show s.log.lh.length + (_ + 0) ≤ _ by omega) (fun _ hn => by cases hn) fun _ _ _ _ => List.Subset.refl _)
  | @commit p hp =>
    exact h.move (show 0 + (_ + 0) ≤ _ by omega) (fun _ hn => by cases hn)
      fun q l _ hq => absurd hq (ht.quiet (ht.busy p (.inl hp)) q l)

end

section

variable [Fintype P] {s t : State P} {p : P} {named : List Uint}

theorem Turns.sound (h : Turns s) : s.Sound := by
  refine ⟨h.nodup, h.le, fun p hp => ?_⟩
  have hnone := h.quiet (h.busy p (.inl hp))
  exact ⟨h.outstanding_eq_zero hnone, hnone⟩

/-- Whether `log_write` panics in an operation that keeps to its number of blocks. -/
theorem Room.logWrite_panics (ht : Turns s) (h : Room s) {b : Uint} (hp : s.pc p = .inOp named)
    (hlen : (named.insert b).length ≤ MAXOPBLOCKS) :
    (∃ e, Trans.logWrite s.log b = .error e) ↔ b ∈ s.log.lh ∧ LOGBLOCKS ≤ s.log.lh.length := by
  have hout := ht.outstanding_pos hp
  unfold Trans.logWrite
  by_cases hfull : LOGBLOCKS ≤ s.log.lh.length
  · rw [if_pos hfull]
    refine ⟨fun _ => ⟨?_, hfull⟩, fun _ => ⟨_, rfl⟩⟩
    by_contra hb
    rw [h.insert_eq hp hb, length_cons] at hlen
    exact absurd hfull (not_le.2 (h.lt_of_inOp hp hlen))
  · rw [if_neg hfull, if_neg (by omega)]
    refine ⟨?_, fun hc => absurd hc.2 hfull⟩
    rintro ⟨e, he⟩
    cases he

end

variable [DecidableEq P] {s t : State P} {p : P} {named : List Uint} {l : Label P} {e : Panic}

/-- The panics are those of `log_write` and `end_op`. -/
theorem of_panic (h : s.panic l = some e) :
    (∃ p b named, l = .logWrite p b ∧ s.pc p = .inOp named ∧ Trans.logWrite s.log b = .error e) ∨
      ∃ p named, l = .endOp p ∧ s.pc p = .inOp named ∧ Trans.endOp s.log = .error e := by
  unfold State.panic at h
  split at h
  · next e' hexec =>
    cases h
    cases l with
    | beginOp p =>
      simp only [State.exec] at hexec
      split at hexec
      · split at hexec <;> cases Option.some.inj hexec
      · cases hexec
    | logWrite p b =>
      simp only [State.exec] at hexec
      split at hexec
      · next named hp =>
        split at hexec
        · next e' hw =>
          obtain rfl := Except.error.inj (Option.some.inj hexec)
          exact .inl ⟨p, b, named, rfl, hp, hw⟩
        · cases Option.some.inj hexec
      · cases hexec
    | endOp p =>
      simp only [State.exec] at hexec
      split at hexec
      · next named hp =>
        split at hexec
        · next e' he =>
          obtain rfl := Except.error.inj (Option.some.inj hexec)
          exact .inr ⟨p, named, rfl, hp, he⟩
        · cases Option.some.inj hexec
        · cases Option.some.inj hexec
      · cases hexec
    | commit p | endCommit p =>
      simp only [State.exec] at hexec
      split at hexec
      · cases Option.some.inj hexec
      · cases hexec
  · cases h

theorem panic_logWrite {b : Uint} (hp : s.pc p = .inOp named) (he : Trans.logWrite s.log b = .error e) :
    s.panic (.logWrite p b) = some e := by
  simp only [State.panic, State.exec, hp, he]

theorem panic_iff [Fintype P] (ht : Turns s) (h : Room s) (hw : s.Within l) : s.panic l = none ↔ s.Spare l := by
  constructor
  · intro hnone
    cases l with
    | logWrite p b =>
      rintro ⟨named, hp⟩ hfull
      obtain ⟨e, he⟩ := (h.logWrite_panics ht hp (within_inOp hp hw)).2 hfull
      rw [panic_logWrite hp he] at hnone
      cases hnone
    | _ => exact trivial
  · intro hspare
    by_contra hne
    obtain ⟨e, he⟩ := Option.ne_none_iff_exists'.1 hne
    rcases of_panic he with ⟨p, b, named, rfl, hp, hlog⟩ | ⟨p, named, rfl, hp, hend⟩
    · exact hspare ⟨named, hp⟩ ((h.logWrite_panics ht hp (within_inOp hp hw)).1 ⟨e, hlog⟩)
    · unfold Trans.endOp at hend
      rw [if_neg fun hc => ht.quiet hc p named hp] at hend
      split at hend <;> cases hend

end TransAux

open TransAux

/-- Log space is enough: in every run of operations that each name at most `MAXOPBLOCKS` blocks, the log has no block twice and never
more than `LOGBLOCKS`, a commit runs only when no operation does, and a step panics if and only if it is a `log_write` of a block that
is in the log already, when the log is full. -/
theorem log_space_suffices [Fintype P] [DecidableEq P] {t : State P} {ls : List (Label P)}
    (hrun : Run (Guarded State.Within (StepOf State.step)) boot ls t) :
    t.Sound ∧ ∀ l, t.Within l → (t.panic l = none ↔ t.Spare l) := by
  obtain ⟨hturns, hroom⟩ := hrun.invariant (I := fun s => Turns s ∧ Room s) (fun s l t h hstep => by
    have hm := moves_of_step hstep.2
    exact ⟨h.1.moves hm, h.2.moves h.1 hstep.1 hm⟩) ⟨boot_turns, boot_room⟩
  exact ⟨hturns.sound, fun l hw => panic_iff hturns hroom hw⟩

/-- Two operations that log a block each. -/
def twoOps : List (Label (Fin 3)) := [.beginOp 0, .beginOp 1, .logWrite 0 5, .logWrite 0 5, .logWrite 1 6]

/-- The second operation logs the block of the first. -/
theorem log_space_suffices_twoOps : ∃ t : State (Fin 3), Run (Guarded State.Within (StepOf State.step)) boot twoOps t ∧
    t.log.outstanding = 2 ∧ t.log.lh = [5, 6] ∧ t.Sound ∧ t.panic (.logWrite 1 5) = none := by
  obtain ⟨t, hrun, hview⟩ := Run.guarded_of_foldlM State.Within State.step twoOps boot rfl
  obtain ⟨hout, hlh, hnamed⟩ := of_decide_eq_true (hview (fun t => decide (t.log.outstanding = 2 ∧ t.log.lh = [5, 6] ∧
    t.Within (.logWrite 1 5))) rfl)
  obtain ⟨hsound, hpanic⟩ := log_space_suffices hrun
  refine ⟨t, hrun, hout, hlh, hsound, (hpanic _ hnamed).2 fun _ hfull => ?_⟩
  exact absurd hfull.2 (by rw [hlh]; decide)

/-- Three operations, each of which logs ten blocks of its own. -/
def threeOps : List (Label (Fin 3)) :=
  [.beginOp 0, .beginOp 1, .beginOp 2] ++
    (List.finRange 3).flatMap fun p => (List.range 10).map fun k => .logWrite p (BitVec.ofNat 32 (10 * p.val + k))

/-- The log is full, as it may be, and an operation logs a block again that it has named before. -/
theorem full_log_panics : ∃ t : State (Fin 3), Run (Guarded State.Within (StepOf State.step)) boot threeOps t ∧
    t.Within (.logWrite 0 0) ∧ t.panic (.logWrite 0 0) = some .tooBig := by
  obtain ⟨t, hrun, hview⟩ := Run.guarded_of_foldlM State.Within State.step threeOps boot rfl
  refine ⟨t, hrun, ?_, hview (fun t => t.panic (.logWrite 0 0)) rfl⟩
  have hnamed : ((t.pc 0).named.insert 0).length = 10 := hview (fun t => ((t.pc 0).named.insert 0).length) rfl
  exact hnamed.le

end Xv6.Trans
