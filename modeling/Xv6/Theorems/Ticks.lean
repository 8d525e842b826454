import Xv6.Theorems.Threads
import Xv6.Ticks

/-!
# What `waiting_tick` measures

`kwait` prints `waiting_tick` as the time a process has waited. The counter goes up once for every scheduling decision of any CPU that
passes the process over, whether or not the clock has ticked since the last one.
-/

namespace Xv6.Threads

open Lib ProcState Function

/-- The next step of CPU `c` prints the line of `pp`: the `kwait` of its parent has come to it and finds it `ZOMBIE`. -/
structure Prints {C M D A : Type} (s : State C M D A) (c : C) (pp : Slot) : Prop where
  scan : ∃ p addr havekids rest, At s c p (.scan addr havekids (pp :: rest)) ∧ (s.task pp).parent = some p
  lock : s.lock pp = none
  state : (s.task pp).state = zombie

namespace TickAux

variable {C M D A : Type} {pr : Protocol D A} {eco : EcoMode} {s t : State C M D A} {c : C} {act : Act M D A}
  {l : Label C M D A} {k k' : Clocked C M D A} {i : Slot}

/-- The step of `scheduler` that counts: the slot is `RUNNABLE`. -/
theorem runnable_of_counts (h : s.counts eco l = some i) : (s.task i).state = runnable := by
  unfold State.counts at h
  split at h
  · split at h
    · rename_i hi
      cases h
      simp only [Proc.eligible, Bool.and_eq_true, decide_eq_true_eq] at hi
      exact hi.2.1
    · cases h
  · cases h

/-- What a step does to `waiting_tick` of slot `i`: it keeps it, and makes no process there; it sets it to 0; or it counts. -/
inductive Wait (eco : EcoMode) (s : State C M D A) (l : Label C M D A) (t : State C M D A) (i : Slot) : Prop where
  | kept (hnot : s.counts eco l ≠ some i) (hmade : ¬Made s t i) (htick : (t.task i).waitingTick = (s.task i).waitingTick)
  | zero (hnot : s.counts eco l ≠ some i) (hlive : (s.task i).state = unused) (htick : (t.task i).waitingTick = 0)
  | counted (hcounts : s.counts eco l = some i) (htick : (t.task i).waitingTick = intIncr (s.task i).waitingTick)

/-- A step keeps `waiting_tick` and makes no process, or sets the counter to 0, in slot `i`. -/
def Keeps (s t : State C M D A) (i : Slot) : Prop :=
  (¬Made s t i ∧ (t.task i).waitingTick = (s.task i).waitingTick) ∨
    (s.task i).state = unused ∧ (t.task i).waitingTick = 0

theorem Keeps.same (h : t.task i = s.task i) : Keeps s t i :=
  .inl ⟨fun hm => hm.2 (by rw [h]; exact hm.1), by rw [h]⟩

theorem Keeps.update {i j : Slot} {x : Task M} (ht : t.task = update s.task j x)
    (hstate : (s.task j).state = unused → x.state = unused)
    (htick : x.waitingTick = (s.task j).waitingTick) : Keeps s t i := by
  by_cases hi : i = j
  · subst hi
    have hx : t.task i = x := by rw [ht, update_self]
    exact .inl ⟨fun hm => hm.2 (by rw [hx]; exact hstate hm.1), by rw [hx, htick]⟩
  · exact .same (by rw [ht, update_of_ne hi])

theorem Proc.waitingTick_wakeup (p : Proc) : p.wakeup.waitingTick = p.waitingTick := by
  unfold Proc.wakeup
  split <;> rfl

theorem waitingTick_wakeup [DecidableEq M] (x : Task M) (ch : Option (Chan M)) :
    (x.wakeup ch).waitingTick = x.waitingTick := by
  unfold Task.wakeup
  split
  · exact Proc.waitingTick_wakeup x.toProc
  · rfl

theorem Keeps.wait (h : Keeps s t i) (hnot : s.counts eco l ≠ some i) : Wait eco s l t i := by
  rcases h with ⟨hmade, htick⟩ | ⟨hlive, htick⟩
  · exact .kept hnot hmade htick
  · exact .zero hnot hlive htick

/-- The third loop of `scheduler` at slot `j`. -/
theorem wait_of_age {j chosen : Slot} (htask : t.task = if j ≠ chosen then update s.task j ((s.task j).waited eco) else s.task)
    (hcounts : s.counts eco l = if j ≠ chosen ∧ (s.task j).toProc.eligible eco = true then some j else none) (i : Slot) :
    Wait eco s l t i := by
  by_cases hj : j ≠ chosen ∧ (s.task j).toProc.eligible eco = true
  · rw [if_pos hj] at hcounts
    rw [if_pos hj.1] at htask
    by_cases hi : i = j
    · subst hi
      refine .counted hcounts ?_
      rw [htask, update_self, Task.waited, if_pos hj.2]
      rfl
    · refine Keeps.wait (.same (by rw [htask, update_of_ne hi])) ?_
      rw [hcounts]
      exact fun h => hi (Option.some.inj h).symm
  · rw [if_neg hj] at hcounts
    refine Keeps.wait (.same ?_) (by simp [hcounts])
    by_cases hc : j = chosen
    · rw [htask, if_neg (not_not.2 hc)]
    · have he : (s.task j).toProc.eligible eco = false := by simpa [hc] using hj
      have hw : (s.task j).waited eco = s.task j := by simp [Task.waited, he]
      rw [htask, if_pos hc, hw, update_eq_self]

section moves

variable [DecidableEq C] [DecidableEq M]

/-- Only the third loop of `scheduler` advances `waiting_tick`. -/
theorem keeps_of_move (hsane : s.Sane) (h : Move pr s c act t) (hage : ¬Aging s c act) (i : Slot) : Keeps s t i := by
  have live : ∀ {p : Slot} {st st' : ProcState}, (s.task p).state = st → st ≠ unused → ((s.task p).state = unused → st' = unused) :=
    fun hp hst hp' => absurd (hp.symm.trans hp') hst
  cases h with
  | look task mode hirq hmode hidle hsame hticks =>
    rcases hticks with rfl | hticks
    · exact .same rfl
    · exact absurd hticks hage
  | account task hsame hticks => exact .inl ⟨fun hm => hm.2 ((hsame i).state.trans hm.1), hticks i⟩
  | switchTo p hirq hmode hlock hstate => exact .update rfl (live hstate (by decide)) rfl
  | resume p =>
    unfold State.resumeStep
    by_cases hc : (s.thread p).ctx = .sleep
    · simp only [hc, if_true]
      exact .update rfl id rfl
    · simp only [hc, if_false]
      exact .same rfl
  | yield p pc hat | exitMark p status hat | asleep p w hat => exact .update rfl (live (hsane.running hat.mode) (by decide)) rfl
  | file | callExit | adopt | reparent => exact .update rfl id rfl
  | forked p j rest hat hlock hstate =>
    by_cases hi : i = j
    · subst hi
      exact .inr ⟨hstate, by simp [Proc.allocproc]⟩
    · exact .same (update_of_ne hi ..)
  | forkFailed p j rest hat hlock hstate =>
    by_cases hi : i = j
    · subst hi
      exact .inr ⟨hstate, by simp [Proc.allocproc, Proc.freeproc]⟩
    · exact .same (update_of_ne hi ..)
  | publish p np pid hat => exact .update rfl (live (hsane.made (congrArg Pc.making hat.pc)) (by decide)) rfl
  | wake p j pc pc' ch =>
    exact .update rfl (Task.Alike.wakeup _ ch).unused.2 (waitingTick_wakeup _ ch)
  | reap => exact .update rfl (fun _ => rfl) rfl
  | kill =>
    exact .update rfl (Task.Alike.kkill _).unused.2 (Proc.waitingTick_wakeup _)
  | sleepRelease p w => cases w <;> exact .same rfl
  | intrWake =>
    exact .update rfl (Task.Alike.wakeup _ _).unused.2 (waitingTick_wakeup _ _)
  | _ => exact .same rfl

/-- What a step of the kernel does to `waiting_tick`. -/
theorem wait_of_step (hsane : s.Sane) (h : s.step pr eco l = some t) (i : Slot) : Wait eco s l t i := by
  by_cases hage : Aging s l.cpu l.act
  · obtain ⟨j, rest, chosen, fault, hmode, hact⟩ := hage
    cases hirq : (s.cpu l.cpu).irq with
    | some =>
      -- an interrupt handler runs on the CPU
      refine Keeps.wait ?_ (by simp [State.counts, hirq])
      simp only [State.step, hirq, hmode, hact] at h
      obtain ⟨r, hr, rfl⟩ := Option.map_eq_some_iff.1 h
      rcases State.sigStep_cases hr with ⟨m, f, rfl, hheld, rfl⟩ | ⟨m, rfl, rfl⟩ | ⟨m, w, ws, rfl, hproc, rfl⟩ |
        ⟨m, w, ws, rfl, hproc, hlock, rfl⟩
      · exact .same rfl
      · exact .same rfl
      · exact .same rfl
      · exact .update rfl (Task.Alike.wakeup _ _).unused.2 (waitingTick_wakeup _ _)
    | none =>
      have hcounts : s.counts eco l = if j ≠ chosen ∧ (s.task j).toProc.eligible eco = true then some j else none := by
        simp only [State.counts, hirq, hmode, hact]
      simp only [State.step, hirq, hmode, hact, State.schedStep] at h
      split at h
      · cases h
        exact wait_of_age rfl hcounts i
      · cases h
  · refine Keeps.wait (keeps_of_move hsane (Move.of_step h) hage i) ?_
    intro hc
    unfold State.counts at hc
    split at hc
    · rename_i j rest chosen fault _ hmode hact
      exact hage ⟨j, rest, chosen, fault, hmode, hact⟩
    · cases hc

end moves

/-! ### The record -/

/-- What is on record is in order, and no later than now. -/
structure Timely (k : Clocked C M D A) : Prop where
  born : ∀ i, k.born i ≤ k.counted i
  counted : ∀ i, k.counted i ≤ k.ticks
  exited : ∀ i, k.exited i ≤ k.ticks

theorem Timely.tick (h : Timely k) : Timely { k with ticks := k.ticks + 1 } :=
  ⟨h.born, fun i => Nat.le_succ_of_le (h.counted i), fun i => Nat.le_succ_of_le (h.exited i)⟩

theorem Timely.record (h : Timely k) : Timely (k.record eco l t) where
  born i := by
    have hb := h.born i
    have hc := h.counted i
    simp only [Clocked.record]
    split_ifs <;> first | omega | grind
  counted i := by
    have hc := h.counted i
    simp only [Clocked.record]
    split_ifs <;> omega
  exited i := by
    have he := h.exited i
    simp only [Clocked.record]
    split_ifs <;> omega

/-- `waiting_tick` of a process is the number of decisions that have counted it, as an `int`. -/
def Counts (k : Clocked C M D A) : Prop :=
  ∀ i, (k.kernel.task i).state ≠ unused → (k.kernel.task i).waitingTick = intIncr^[k.decisions i] 0

/-- `waiting_tick` is at most the time from allocation to the last count, and a `ZOMBIE` is not counted any more. -/
structure Bounded (k : Clocked C M D A) : Prop where
  bound : ∀ i, (k.kernel.task i).waitingTick + k.born i ≤ k.counted i
  ended : ∀ i, (k.kernel.task i).state = zombie → k.counted i ≤ k.exited i

theorem Counts.record (h : Counts k) (hwait : ∀ i, Wait eco k.kernel l t i) : Counts (k.record eco l t) := by
  intro i hi
  have hi : (t.task i).state ≠ unused := hi
  simp only [Clocked.record]
  cases hwait i with
  | kept hnot hmade htick =>
    have hlive : (k.kernel.task i).state ≠ unused := fun hu => hmade ⟨hu, hi⟩
    rw [htick, if_neg hmade, if_neg hnot, h i hlive]
  | zero hnot hu htick =>
    rw [htick, if_pos ⟨hu, hi⟩]
    rfl
  | counted hcounts htick =>
    have hlive : (k.kernel.task i).state ≠ unused := by
      rw [runnable_of_counts hcounts]
      decide
    rw [htick, if_neg (fun hm => hlive hm.1), if_pos hcounts, Function.iterate_succ_apply', h i hlive]

theorem intIncr_le (x : Int) : intIncr x ≤ x + 1 := by
  unfold intIncr
  split_ifs with h
  · rw [h]
    decide
  · exact le_rfl

theorem Bounded.tick (h : Bounded k) : Bounded { k with ticks := k.ticks + 1 } := ⟨h.bound, h.ended⟩

theorem Bounded.record (h : Bounded k) (htime : Timely k) (hok : Paced eco k (.step l)) (hwait : ∀ i, Wait eco k.kernel l t i) :
    Bounded (k.record eco l t) where
  bound i := by
    have hb := h.bound i
    have hborn := htime.born i
    simp only [Clocked.record]
    cases hwait i with
    | kept hnot hmade htick => rwa [htick, if_neg hmade, if_neg (not_or.2 ⟨hmade, hnot⟩)]
    | zero hnot hu htick =>
      rw [htick]
      split_ifs with hm ho ho
      · omega
      · exact absurd (.inl hm) ho
      · exact absurd (ho.resolve_left hm) hnot
      · omega
    | counted hcounts htick =>
      have hnot : ¬Made k.kernel t i := fun hm => by
        have hr := runnable_of_counts hcounts
        rw [hm.1] at hr
        cases hr
      have hlt := hok i hcounts
      have hle := intIncr_le (k.kernel.task i).waitingTick
      rw [htick, if_neg hnot, if_pos (.inr hcounts)]
      omega
  ended i hz := by
    have hz : (t.task i).state = zombie := hz
    have hc := htime.counted i
    have he := h.ended i
    simp only [Clocked.record]
    by_cases hold : (k.kernel.task i).state = zombie
    · have hmade : ¬Made k.kernel t i := fun hm => by
        rw [hm.1] at hold
        cases hold
      have hnot : k.kernel.counts eco l ≠ some i := fun hcounts => by
        rw [runnable_of_counts hcounts] at hold
        cases hold
      rw [if_neg (not_or.2 ⟨hmade, hnot⟩), if_neg (fun hne => hne.1 hold)]
      exact he hold
    · have hends : (k.kernel.task i).state ≠ zombie ∧ (t.task i).state = zombie := ⟨hold, hz⟩
      rw [if_pos hends]
      split_ifs <;> omega

theorem boot_timely (data : M → D) : Timely (Clocked.boot data : Clocked C M D A) :=
  ⟨fun _ => le_rfl, fun _ => le_rfl, fun _ => le_rfl⟩

theorem boot_waitingTick (data : M → D) (i : Slot) : ((State.boot data : State C M D A).task i).waitingTick = 0 := by
  rw [State.boot_task]
  split_ifs <;> rfl

theorem boot_bounded (data : M → D) : Bounded (Clocked.boot data : Clocked C M D A) where
  bound i := by
    show ((State.boot data : State C M D A).task i).waitingTick + ((0 : Nat) : Int) ≤ ((0 : Nat) : Int)
    rw [boot_waitingTick]
    decide
  ended i _ := le_rfl

variable [DecidableEq C] [DecidableEq M] {es : List (ClockEvent C M D A)} {data : M → D}

theorem invariant_of_run
    (hrun : Run (StepOf (Clocked.step pr eco)) (.boot data) es k) : k.kernel.Sane ∧ Timely k ∧ Counts k := by
  refine hrun.invariant (I := fun k => k.kernel.Sane ∧ Timely k ∧ Counts k) (fun k e k' hk hstep => ?_)
    ⟨.boot data, boot_timely data, fun i _ => boot_waitingTick data i⟩
  cases e with
  | tick =>
    cases hstep
    exact ⟨hk.1, hk.2.1.tick, hk.2.2⟩
  | step =>
    obtain ⟨t, ht, rfl⟩ := Option.map_eq_some_iff.1 hstep
    exact ⟨(Move.of_step ht).sane hk.1, hk.2.1.record, hk.2.2.record (wait_of_step hk.1 ht)⟩

theorem bounded_of_run
    (hrun : Run (Guarded (Paced eco) (StepOf (Clocked.step pr eco))) (.boot data) es k) : k.kernel.Sane ∧ Timely k ∧ Bounded k := by
  refine hrun.invariant (I := fun k => k.kernel.Sane ∧ Timely k ∧ Bounded k) (fun k e k' hk hstep => ?_)
    ⟨.boot data, boot_timely data, boot_bounded data⟩
  cases e with
  | tick =>
    obtain rfl := Option.some.inj hstep.2
    exact ⟨hk.1, hk.2.1.tick, hk.2.2.tick⟩
  | step =>
    obtain ⟨t, ht, rfl⟩ := Option.map_eq_some_iff.1 hstep.2
    exact ⟨(Move.of_step ht).sane hk.1, hk.2.1.record, hk.2.2.record hk.2.1 hstep.1 (wait_of_step hk.1 ht)⟩

end TickAux

/-- What `waiting_tick` is. In every run the value that `kwait` prints is the number of scheduling decisions, of any CPU, that have
counted the process, as an `int`. In every run in which a process is counted at most once in a tick, it is at most the number of ticks
from the allocation of the process to its exit. -/
theorem waiting_tick_of_decisions {C M D A : Type} [DecidableEq C] [DecidableEq M] {pr : Protocol D A} {eco : EcoMode} {data : M → D}
    {es : List (ClockEvent C M D A)} {k : Clocked C M D A} :
    (Run (StepOf (Clocked.step pr eco)) (.boot data) es k → ∀ c pp, Prints k.kernel c pp →
      (k.kernel.task pp).waitingTick = intIncr^[k.decisions pp] 0) ∧
    (Run (Guarded (Paced eco) (StepOf (Clocked.step pr eco))) (.boot data) es k → ∀ c pp, Prints k.kernel c pp →
      (k.kernel.task pp).waitingTick ≤ (k.exited pp : Int) - k.born pp) := by
  refine ⟨fun hrun c pp hprints => ?_, fun hrun c pp hprints => ?_⟩
  · refine (TickAux.invariant_of_run hrun).2.2 pp ?_
    rw [hprints.state]
    decide
  · obtain ⟨-, -, hbounded⟩ := TickAux.bounded_of_run hrun
    have hbound := hbounded.bound pp
    have hended := hbounded.ended pp hprints.state
    omega

namespace RunAux

/-- `init` forks, is made to yield and is chosen again; it waits, the child runs and exits, and `init` comes to it in `kwait`. -/
def passedOver : List (Label Bool Unit Sleeplock Int) :=
  go false 133 ++ [⟨false, .call .fork⟩] ++ go false 4 ++ [⟨false, .yield⟩] ++ go false 134 ++ [⟨false, .call (.wait 0)⟩] ++
    go false 205 ++ [⟨false, .call (.exit 0)⟩] ++ go false 268

/-- The same with a tick of the clock after the fork. -/
def passedOverOnce : List (ClockEvent Bool Unit Sleeplock Int) :=
  (passedOver.take 138).map .step ++ [.tick] ++ (passedOver.drop 138).map .step

/-- `Paced`, as a test. -/
def paced (k : Clocked Bool Unit Sleeplock Int) : ClockEvent Bool Unit Sleeplock Int → Bool
  | .tick => true
  | .step l =>
    match k.kernel.counts .off l with
    | none => true
    | some i => k.counted i < k.ticks

theorem paced_sound {k : Clocked Bool Unit Sleeplock Int} {e : ClockEvent Bool Unit Sleeplock Int} (h : paced k e = true) : Paced .off k e := by
  cases e with
  | tick => trivial
  | step =>
    intro i hi
    simp only [paced, hi, decide_eq_true_eq] at h
    exact h

/-- The CPU's `kwait` is at slot 1 and finds it `ZOMBIE`, as a test. -/
def printsSlot1 (s : State Bool Unit Sleeplock Int) : Bool :=
  (s.cpu false).irq.isNone && (s.cpu false).mode = .running initproc && (s.thread initproc).ctx = .out &&
    (match (s.thread initproc).pc with
    | .scan _ _ (pp :: _) => pp = slot1
    | _ => false) &&
    (s.task slot1).parent = some initproc && s.lock slot1 = none && (s.task slot1).state = zombie

theorem prints_of_printsSlot1 {s : State Bool Unit Sleeplock Int} (h : printsSlot1 s = true) : Prints s false slot1 := by
  simp only [printsSlot1, Bool.and_eq_true, decide_eq_true_eq] at h
  obtain ⟨⟨⟨⟨⟨⟨hirq, hmode⟩, hctx⟩, hpc⟩, hparent⟩, hlock⟩, hstate⟩ := h
  split at hpc
  · rename_i addr havekids pp rest hscan
    obtain rfl := of_decide_eq_true hpc
    exact ⟨⟨initproc, addr, havekids, rest, ⟨Option.isNone_iff_eq_none.1 hirq, hmode, hctx, hscan⟩, hparent⟩, hlock, hstate⟩
  · cases hpc

end RunAux

open RunAux in
theorem waiting_tick_of_decisions_passedOverOnce : ∃ k : Clocked Bool Unit Sleeplock Int,
    Run (Guarded (Paced .off) (StepOf (Clocked.step acquiresleep .off))) (.boot fun _ => ⟨false, 0⟩) passedOverOnce k ∧
      Prints k.kernel false slot1 ∧ (k.kernel.task slot1).waitingTick = 1 ∧ (k.exited slot1 : Int) - k.born slot1 = 1 ∧
      (k.kernel.task slot1).waitingTick ≤ (k.exited slot1 : Int) - k.born slot1 := by
  obtain ⟨k, hrun, hview⟩ := Run.guarded_of_foldlM (fun k e => paced k e = true) (Clocked.step acquiresleep .off) passedOverOnce
    (.boot fun _ => ⟨false, 0⟩) (by decide +kernel)
  have hguard : Run (Guarded (Paced .off) (StepOf (Clocked.step acquiresleep .off))) (.boot fun _ => ⟨false, 0⟩) passedOverOnce k :=
    hrun.mono fun _ _ _ h => ⟨paced_sound h.1, h.2⟩
  obtain ⟨hprints, htick, htime⟩ := of_decide_eq_true (hview (fun k : Clocked Bool Unit Sleeplock Int => decide (printsSlot1 k.kernel = true ∧
    (k.kernel.task slot1).waitingTick = 1 ∧ (k.exited slot1 : Int) - k.born slot1 = 1)) (by decide +kernel))
  have hprints := prints_of_printsSlot1 hprints
  exact ⟨k, hguard, hprints, htick, htime, waiting_tick_of_decisions.2 hguard false slot1 hprints⟩

open RunAux in
/-- `kwait` prints a waiting time of 1 for a child in whose whole life the clock has not ticked. -/
theorem waited_without_a_tick : ∃ (es : List (ClockEvent Bool Unit Sleeplock Int)) (k : Clocked Bool Unit Sleeplock Int),
    Run (StepOf (Clocked.step acquiresleep .off)) (.boot fun _ => ⟨false, 0⟩) es k ∧ Prints k.kernel false slot1 ∧
      (k.kernel.task slot1).waitingTick = 1 ∧ (k.exited slot1 : Int) - k.born slot1 = 0 := by
  obtain ⟨k, hrun, hview⟩ := Run.exists_of_foldlM (Clocked.step acquiresleep .off) (passedOver.map .step) (.boot fun _ => ⟨false, 0⟩)
    (by decide +kernel)
  obtain ⟨hprints, htick, htime⟩ := of_decide_eq_true (hview (fun k : Clocked Bool Unit Sleeplock Int => decide (printsSlot1 k.kernel = true ∧
    (k.kernel.task slot1).waitingTick = 1 ∧ (k.exited slot1 : Int) - k.born slot1 = 0)) (by decide +kernel))
  exact ⟨_, k, hrun, prints_of_printsSlot1 hprints, htick, htime⟩

end Xv6.Threads
