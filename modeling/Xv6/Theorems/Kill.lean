import Xv6.Theorems.Sleep

/-!
# What `kkill` hits

`kkill` compares pids and does not look at the state of a slot. A free slot keeps the pid 0 that `freeproc`, or the boot, left in it, so
`kkill(0)` finds one; `allocproc` does not clear `killed`, so the next process in that slot is born killed.
-/

namespace Xv6.Threads

open Lib ProcState Function List

/-- What `kkill(pid)` should do to a table: it returns 0 exactly when some process has the pid; it then marks one such process killed,
which becomes `RUNNABLE` if it was `SLEEPING`, and changes nothing else; and it never changes a free slot. -/
structure KillsLive {M : Type} (task : Slot → Task M) (pid : Int) (r : (Slot → Task M) × Int) : Prop where
  ret : r.2 = 0 ↔ ∃ i, (task i).state ≠ unused ∧ (task i).pid = pid
  marks : r.2 = 0 → ∃ i, (task i).state ≠ unused ∧ (task i).pid = pid ∧ (∀ j ≠ i, r.1 j = task j) ∧
    r.1 i = (task i).setProc { (task i).toProc with
      killed := true, state := if (task i).state = sleeping then runnable else (task i).state }
  fails : r.2 ≠ 0 → r = (task, -1)
  free : ∀ i, (task i).state = unused → r.1 i = task i

/-- No `kkill(0)` comes to a free slot. -/
def KillsNamed {C M D A : Type} (s : State C M D A) (l : Label C M D A) : Prop :=
  ∀ p i rest, At s l.cpu p (.kill 0 (i :: rest)) → (s.task i).state ≠ unused

namespace KillAux

section table

variable {M : Type} {task : Slot → Task M} {pid : Int}

/-- The loop stops at the first slot with the pid. -/
theorem kkill_cases (pid : Int) (task : Slot → Task M) (rest : List Slot) :
    (∃ i ∈ rest, (task i).pid = pid ∧
      kkill pid task rest = (update task i ((task i).setProc (task i).toProc.kkill), 0)) ∨
    ((∀ i ∈ rest, (task i).pid ≠ pid) ∧ kkill pid task rest = (task, -1)) := by
  induction rest with
  | nil => exact .inr ⟨fun i hi => absurd hi not_mem_nil, rfl⟩
  | cons i rest ih =>
    by_cases hi : (task i).pid = pid
    · exact .inl ⟨i, mem_cons_self, hi, by rw [kkill, if_pos hi]⟩
    · rw [kkill, if_neg hi]
      rcases ih with ⟨j, hj, hpid, h⟩ | ⟨hno, h⟩
      · exact .inl ⟨j, mem_cons_of_mem i hj, hpid, h⟩
      · refine .inr ⟨fun j hj => ?_, h⟩
        rcases mem_cons.1 hj with rfl | hj
        · exact hi
        · exact hno j hj

theorem proc_kkill (p : Proc) :
    p.kkill = { p with killed := true, state := if p.state = sleeping then runnable else p.state } := by
  unfold Proc.kkill Proc.wakeup
  by_cases h : p.state = sleeping
  · simp [h]
  · simp [h]

/-- When every slot with the pid holds a process, `kkill` hits only that. -/
theorem killsLive_of_live (h : ∀ i, (task i).pid = pid → (task i).state ≠ unused) :
    KillsLive task pid (kkill pid task allSlots) := by
  rcases kkill_cases pid task allSlots with ⟨i, -, hpid, hk⟩ | ⟨hno, hk⟩
  · rw [hk]
    refine ⟨⟨fun _ => ⟨i, h i hpid, hpid⟩, fun _ => rfl⟩, fun _ => ⟨i, h i hpid, hpid, fun j hj => update_of_ne hj .., ?_⟩,
      fun hne => absurd rfl hne, fun j hj => update_of_ne ?_ ..⟩
    · dsimp only
      rw [update_self, proc_kkill]
    · rintro rfl
      exact h j hpid hj
  · rw [hk]
    have hne : (-1 : Int) ≠ 0 := by decide
    exact ⟨⟨fun h0 => absurd h0 hne, fun ⟨i, _, hpid⟩ => absurd hpid (hno i (mem_allSlots i))⟩, fun h0 => absurd h0 hne, fun _ => rfl,
      fun _ _ => rfl⟩

/-- A slot with the pid is enough for `kkill` to return 0. -/
theorem kkill_ret {i : Slot} (hi : (task i).pid = pid) : (kkill pid task allSlots).2 = 0 := by
  rcases kkill_cases pid task allSlots with ⟨j, -, -, hk⟩ | ⟨hno, -⟩
  · rw [hk]
  · exact absurd hi (hno i (mem_allSlots i))

end table

variable {C M D A : Type} {pr : Protocol D A} {eco : EcoMode} {s t : State C M D A} {c : C} {act : Act M D A} (x : Task M)
  (ch : Option (Chan M))

/-- What a step does to slot `i`: it stays free, or not free, with its pid and `killed`; it is freed; a process is made in it; or
`kkill` marks it. -/
inductive Fate (s : State C M D A) (c : C) (t : State C M D A) (i : Slot) : Prop where
  | kept (hstate : (t.task i).state = unused ↔ (s.task i).state = unused) (hpid : (t.task i).pid = (s.task i).pid)
    (hkilled : (t.task i).killed = (s.task i).killed)
  | freed (hpid : (t.task i).pid = 0) (hkilled : (t.task i).killed = false)
  | made (hstate : (s.task i).state = unused) (hstate' : (t.task i).state = used)
    (hkilled : (t.task i).killed = (s.task i).killed)
  | marked (p : Slot) (rest : List Slot) (hat : At s c p (.kill (s.task i).pid (i :: rest)))
    (hstate : (t.task i).state = unused ↔ (s.task i).state = unused) (hpid : (t.task i).pid = (s.task i).pid)

/-- A slot that is not looked at. -/
theorem Fate.same {i : Slot} (h : t.task i = s.task i) : Fate s c t i :=
  .kept (by rw [h]) (by rw [h]) (by rw [h])

/-- A slot whose process only changes in what does not matter here, or another slot. -/
theorem Fate.update {i j : Slot} {x : Task M} (ht : t.task = update s.task j x)
    (hstate : x.state = unused ↔ (s.task j).state = unused) (hpid : x.pid = (s.task j).pid)
    (hkilled : x.killed = (s.task j).killed) : Fate s c t i := by
  by_cases hi : i = j
  · subst hi
    rw [← update_self i x s.task, ← ht] at hstate hpid hkilled
    exact .kept hstate hpid hkilled
  · exact .same (by rw [ht, update_of_ne hi])

theorem wakeup_unused [DecidableEq M] : (x.wakeup ch).state = unused ↔ x.state = unused :=
  (Task.Alike.wakeup x ch).unused

/-- A free slot has pid 0. -/
def Unnamed (s : State C M D A) : Prop := ∀ i, (s.task i).state = unused → (s.task i).pid = 0

/-- A free slot is not killed. -/
def Spotless (s : State C M D A) : Prop := ∀ i, (s.task i).state = unused → (s.task i).killed = false

theorem Unnamed.step (hs : Unnamed s) (h : ∀ i, Fate s c t i) : Unnamed t := by
  intro i hi
  cases h i with
  | kept hstate hpid | marked p rest hat hstate hpid => rw [hpid, hs i (hstate.1 hi)]
  | freed hpid => exact hpid
  | made hstate hstate' => cases hi.symm.trans hstate'

theorem Spotless.step {l : Label C M D A} (hs : Spotless s) (hpids : Unnamed s) (hok : KillsNamed s l) (h : ∀ i, Fate s l.cpu t i) :
    Spotless t := by
  intro i hi
  cases h i with
  | kept hstate hpid hkilled => rw [hkilled, hs i (hstate.1 hi)]
  | freed hpid hkilled => exact hkilled
  | made hstate hstate' => cases hi.symm.trans hstate'
  | marked p rest hat hstate =>
    have hfree := hstate.1 hi
    rw [hpids i hfree] at hat
    exact absurd hfree (hok p i rest hat)

theorem boot_unnamed (data : M → D) : Unnamed (State.boot data : State C M D A) := by
  intro i hi
  rw [State.boot_task] at hi ⊢
  split_ifs at hi ⊢
  · cases hi
  · rfl

theorem boot_spotless (data : M → D) : Spotless (State.boot data : State C M D A) := by
  intro i hi
  rw [State.boot_task] at hi ⊢
  split_ifs at hi ⊢
  · cases hi
  · rfl

variable [DecidableEq C] [DecidableEq M] {ls : List (Label C M D A)} {data : M → D}

theorem fate_of_move (hsane : s.Sane) (h : Move pr s c act t) (i : Slot) : Fate s c t i := by
  cases h with
  | look task mode hirq hmode hidle hsame => exact .kept (by rw [← (hsame i).state]; rfl) (hsame i).pid (hsame i).killed
  | account task hsame => exact .kept (by rw [← (hsame i).state]) (hsame i).pid (hsame i).killed
  | switchTo p hirq hmode hlock hstate => exact .update rfl (by simp [hstate]) rfl rfl
  | resume p =>
    unfold State.resumeStep
    by_cases hc : (s.thread p).ctx = .sleep
    · simp only [hc, if_true]
      exact .update rfl .rfl rfl rfl
    · simp only [hc, if_false]
      exact .same rfl
  | yield p pc hat | exitMark p status hat | asleep p w hat => exact .update rfl (by simp [hsane.running hat.mode]) rfl rfl
  | file | callExit | adopt | reparent =>
    exact .update rfl .rfl rfl rfl
  | forked p j rest hat hlock hstate =>
    by_cases hi : i = j
    · subst hi
      refine .made hstate ?_ ?_ <;> simp [Proc.allocproc]
    · exact .same (update_of_ne hi ..)
  | forkFailed p j =>
    by_cases hi : i = j
    · subst hi
      refine .freed ?_ ?_ <;> simp [Proc.freeproc]
    · exact .same (update_of_ne hi ..)
  | publish p np pid hat =>
    exact .update rfl (by simp [hsane.made (congrArg Pc.making hat.pc)]) rfl rfl
  | wake p j pc pc' ch =>
    exact .update rfl (wakeup_unused _ ch) (Task.Alike.wakeup _ ch).pid (Task.wakeup_killed _ ch)
  | reap p pp =>
    by_cases hi : i = pp
    · subst hi
      refine .freed ?_ ?_ <;> simp [Proc.freeproc]
    · exact .same (update_of_ne hi ..)
  | kill p j pid rest hat hlock hpid =>
    by_cases hi : i = j
    · subst hi
      have hx : (State.ret { s with task := update s.task i ((s.task i).setProc (s.task i).toProc.kkill) } p 0).task i =
          (s.task i).setProc (s.task i).toProc.kkill := update_self ..
      refine .marked p rest (hpid ▸ hat) ?_ ?_
      · rw [hx]
        exact (Task.Alike.kkill (s.task i)).unused
      · rw [hx]
        exact (Task.Alike.kkill (s.task i)).pid
    · exact .same (update_of_ne hi ..)
  | sleepRelease p w => cases w <;> exact .same rfl
  | intrWake =>
    exact .update rfl (wakeup_unused _ _) (Task.Alike.wakeup _ _).pid (Task.wakeup_killed _ _)
  | _ => exact .same rfl

theorem unnamed_of_run (hrun : Run (StepOf (State.step pr eco)) (.boot data) ls s) :
    Unnamed s := by
  have h : s.Sane ∧ Unnamed s := hrun.invariant (I := fun s => s.Sane ∧ Unnamed s)
    (fun s l t hs hstep => ⟨(Move.of_step hstep).sane hs.1, hs.2.step (fate_of_move hs.1 (Move.of_step hstep))⟩)
    ⟨.boot data, boot_unnamed data⟩
  exact h.2

/-- What holds in every run in which no `kkill(0)` comes to a free slot. -/
theorem spotless_of_run
    (hrun : Run (Guarded KillsNamed (StepOf (State.step pr eco))) (.boot data) ls s) : s.Sane ∧ Unnamed s ∧ Spotless s := by
  refine hrun.invariant (I := fun s => s.Sane ∧ Unnamed s ∧ Spotless s) (fun s l t hs hstep => ?_)
    ⟨.boot data, boot_unnamed data, boot_spotless data⟩
  have hmove := Move.of_step hstep.2
  have hfate := fate_of_move hs.1 hmove
  exact ⟨hmove.sane hs.1, hs.2.1.step hfate, hs.2.2.step hs.2.1 hstep.1 hfate⟩

/-- A thread that is in `kkill` and runs while nobody else does, by induction on the slots still to come. -/
theorem kkill_alone {p : Slot} {pid : Int} {rest : List Slot} (hat : At s c p (.kill pid rest)) (hfree : ∀ i, s.lock i = none) :
    ∃ n t, Run (StepOf (State.step pr eco)) s (replicate n ⟨c, .step .none⟩) t ∧ t.task = (kkill pid s.task rest).1 ∧
      (t.thread p).pc = .user ∧ (t.thread p).a0 = (kkill pid s.task rest).2 := by
  have hstep : ∀ {s : State C M D A} {rest : List Slot}, At s c p (.kill pid rest) →
      s.step pr eco ⟨c, .step .none⟩ = s.killStep p (.kill pid rest) := by
    intro s rest hat
    simp only [State.step, hat.irq, hat.mode, State.runStep, hat.ctx, hat.pc, if_true, State.threadStep]
  induction rest generalizing s with
  | nil =>
    have h1 : s.step pr eco ⟨c, .step .none⟩ = some (s.ret p (-1)) := hstep hat
    refine ⟨1, s.ret p (-1), .single h1, rfl, ?_, ?_⟩
    · simp [State.ret]
    · simp [State.ret, kkill]
  | cons i rest ih =>
    by_cases hi : (s.task i).pid = pid
    · have h1 : s.step pr eco ⟨c, .step .none⟩ =
          some (State.ret { s with task := update s.task i ((s.task i).setProc (s.task i).toProc.kkill) } p 0) := by
        rw [hstep hat]
        simp only [State.killStep, hfree i, hi, if_true]
      refine ⟨1, _, .single h1, ?_, ?_, ?_⟩
      · simp [State.ret, kkill, hi]
      · simp [State.ret]
      · simp [State.ret, kkill, hi]
    · have hnext : At (s.goto p (.kill pid rest)) c p (.kill pid rest) :=
        ⟨hat.irq, hat.mode, by simp [State.goto, hat.ctx], by simp [State.goto]⟩
      obtain ⟨n, t, hrun, htask, hpc, ha0⟩ := ih hnext hfree
      refine ⟨n + 1, t, ?_, ?_, hpc, ?_⟩
      · rw [replicate_succ]
        refine .cons ((hstep hat).trans ?_) hrun
        simp only [State.killStep, hfree i, hi, if_true, if_false]
      · rw [htask, kkill, if_neg hi]
        rfl
      · rw [ha0, kkill, if_neg hi]
        rfl

end KillAux

/-- `kkill`, exactly. In every state reached `kkill(pid)` hits only live processes if `pid` is not 0 or no slot is free, and, as long as
fewer than `2 ^ 31` pids have been allocated, only then; the value and the table are those a thread computes that runs `kkill` while
nobody else moves. In every run in which no `kkill(0)` comes to a free slot, no free slot is marked killed, so every process is made
with `killed` 0. -/
theorem kkill_hits_live {C M D A : Type} [DecidableEq C] [DecidableEq M] {pr : Protocol D A} {eco : EcoMode} {data : M → D}
    {ls : List (Label C M D A)} {s : State C M D A} :
    (Run (StepOf (State.step pr eco)) (.boot data) ls s →
      (∀ pid, pid ≠ 0 ∨ (∀ i, (s.task i).state ≠ unused) → KillsLive s.task pid (kkill pid s.task allSlots)) ∧
      (s.allocated < 2 ^ 31 → ∀ pid, KillsLive s.task pid (kkill pid s.task allSlots) →
        pid ≠ 0 ∨ ∀ i, (s.task i).state ≠ unused) ∧
      ∀ c p pid, At s c p (.kill pid allSlots) → (∀ i, s.lock i = none) → ∃ n t,
        Run (StepOf (State.step pr eco)) s (List.replicate n ⟨c, .step .none⟩) t ∧ t.task = (kkill pid s.task allSlots).1 ∧
          (t.thread p).pc = .user ∧ (t.thread p).a0 = (kkill pid s.task allSlots).2) ∧
    (Run (Guarded KillsNamed (StepOf (State.step pr eco))) (.boot data) ls s →
      (∀ i, (s.task i).state = unused → (s.task i).killed = false) ∧
      ∀ l t i, s.step pr eco l = some t → (s.task i).state = unused → (t.task i).state ≠ unused →
        (t.task i).killed = false) := by
  refine ⟨fun hrun => ⟨fun pid hpid => ?_, fun hlt pid hkill => ?_, fun c p pid hat hfree => KillAux.kkill_alone hat hfree⟩,
    fun hrun => ?_⟩
  · have hfree := KillAux.unnamed_of_run hrun
    refine KillAux.killsLive_of_live fun i hi hunused => ?_
    rcases hpid with hpid | hpid
    · exact hpid (hi.symm.trans (hfree i hunused))
    · exact hpid i hunused
  · by_contra hno
    push Not at hno
    obtain ⟨rfl, i, hi⟩ := hno
    -- the free slot makes `kkill(0)` return 0, but no process has pid 0
    have hzero := KillAux.kkill_ret (KillAux.unnamed_of_run hrun i hi)
    obtain ⟨j, hj, hpid⟩ := hkill.ret.1 hzero
    have hpos := ((State.Census.of_run hrun hlt).range j hj).1
    omega
  · obtain ⟨hsane, -, hspotless⟩ := KillAux.spotless_of_run hrun
    refine ⟨hspotless, fun l t i hstep hi hi' => ?_⟩
    cases KillAux.fate_of_move hsane (Move.of_step hstep) i with
    | kept hstate | marked p rest hat hstate => exact absurd (hstate.2 hi) hi'
    | freed hpid hkilled => exact hkilled
    | made hstate hstate' hkilled => rw [hkilled, hspotless i hi]

namespace RunAux

/-- `init` calls `kill(0)` and forks. -/
def killZeroFork : List (Label Bool Unit Device DeviceLoop) :=
  go false 133 ++ [⟨false, .call (.kill 0)⟩] ++ go false 2 ++ [⟨false, .call .fork⟩] ++ go false 2

end RunAux

open RunAux in
theorem kkill_hits_live_killAsleep : ∃ s : State Bool Unit Device DeviceLoop,
    Run (Guarded KillsNamed (StepOf (State.step devices .off))) (.boot idle) killAsleep s ∧ (s.task initproc).killed = true ∧
      KillsLive s.task 1 (kkill 1 s.task allSlots) ∧ ∀ i, (s.task i).state = unused → (s.task i).killed = false := by
  obtain ⟨s, hrun, hview⟩ := Run.guarded_of_foldlM (fun s l => killsWell s l = true) (State.step devices .off) killAsleep (.boot idle)
    (by decide +kernel)
  have hguard : Run (Guarded KillsNamed (StepOf (State.step devices .off))) (.boot idle) killAsleep s := by
    refine hrun.mono fun s l t h => ⟨fun p i rest hat => ?_, h.2⟩
    have hwell : killsWell s l = true := h.1
    simp [killsWell, hat.mode, hat.pc] at hwell
  exact ⟨s, hguard, hview (fun s => (s.task initproc).killed) (by decide +kernel),
    (kkill_hits_live.1 (hguard.mono fun _ _ _ h => h.2)).1 1 (.inl (by decide)), (kkill_hits_live.2 hguard).1⟩

open RunAux in
/-- `kkill(0)` returns 0 though no process has pid 0, and marks the free slot 1; the child that `init` then forks is made in that slot,
already killed. -/
theorem kkill_zero_marks_free : ∃ s t u : State Bool Unit Device DeviceLoop,
    Run (StepOf (State.step devices .off)) (.boot idle) (killZeroFork.take 136) s ∧ (s.thread initproc).a0 = 0 ∧
      (s.task slot1).state = unused ∧ (s.task slot1).killed = true ∧
      (∀ i, (s.task i).state ≠ unused → (s.task i).pid ≠ 0) ∧
      Run (StepOf (State.step devices .off)) (.boot idle) (killZeroFork.take 138) t ∧ (t.task slot1).state = unused ∧
      t.step devices .off ⟨false, .step .none⟩ = some u ∧ (u.task slot1).state = used ∧ (u.task slot1).killed = true := by
  obtain ⟨s, hrun, hview⟩ := Run.exists_of_foldlM (State.step devices .off) (killZeroFork.take 136) (.boot idle) (by decide +kernel)
  obtain ⟨t, hrun', hview'⟩ := Run.exists_of_foldlM (State.step devices .off) (killZeroFork.take 138) (.boot idle) (by decide +kernel)
  have hs := of_decide_eq_true (hview (fun s : State Bool Unit Device DeviceLoop => decide
    ((s.thread initproc).a0 = 0 ∧ (s.task slot1).state = unused ∧ (s.task slot1).killed = true ∧
      ∀ i, (s.task i).state ≠ unused → (s.task i).pid ≠ 0)) (by decide +kernel))
  have ht := of_decide_eq_true (hview' (fun t : State Bool Unit Device DeviceLoop => decide
    ((t.task slot1).state = unused ∧ ((t.step devices .off ⟨false, .step .none⟩).map fun u =>
      decide ((u.task slot1).state = used ∧ (u.task slot1).killed = true)) = some true)) (by decide +kernel))
  obtain ⟨u, hu, hborn⟩ := Option.map_eq_some_iff.1 ht.2
  have hborn := of_decide_eq_true hborn
  exact ⟨s, t, u, hrun, hs.1, hs.2.1, hs.2.2.1, hs.2.2.2, hrun', ht.1, hu, hborn.1, hborn.2⟩

end Xv6.Threads
