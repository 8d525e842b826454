import Xv6.Sched

namespace Xv6

open Lib Function List

namespace SchedAux

variable {eco : EcoMode} {table : Table} {i : Fin NPROC} {s : SchedSys}

theorem state_of_eligible {p : Proc} (h : p.eligible eco = true) : p.state = .runnable := by
  simp only [Proc.eligible, Bool.and_eq_true, decide_eq_true_eq] at h
  exact h.1

/-- Without children of `schedtest` the first scan finds nothing. -/
theorem chosenSchedtest_eq_none (h : NoSchedtest table) : table.chosenSchedtest eco = none := by
  have hpick : ∀ i, table.pickSchedtest eco none i = none := by
    intro i
    unfold Table.pickSchedtest
    by_cases he : (table i).eligible eco = true
    · have hi : (table i).state ≠ .unused := by rw [state_of_eligible he]; decide
      rw [h i hi, Bool.and_false]
      rfl
    · rw [Bool.eq_false_of_not_eq_true he, Bool.false_and]
      rfl
  unfold Table.chosenSchedtest
  induction finRange NPROC with
  | nil => rfl
  | cons i is ih => rw [foldl_cons, hpick, ih]

/-- The fallback scan finds the eligible process in the lowest slot. -/
theorem chosenFallback_eq_some_iff :
    table.chosenFallback eco = some i ↔ (table i).eligible eco = true ∧ FirstEligible eco table i := by
  unfold Table.chosenFallback FirstEligible
  rw [find?_eq_some_iff_getElem]
  constructor
  · rintro ⟨he, k, hk, hki, hbefore⟩
    rw [getElem_finRange] at hki
    refine ⟨he, fun j hj => ?_⟩
    have hjk : j.val < k := by
      rw [← hki] at hj
      exact hj
    have := hbefore j.val hjk
    simpa using this
  · rintro ⟨he, hbefore⟩
    refine ⟨he, i.val, by simp, by simp, fun j hj => ?_⟩
    have hjn : j < NPROC := lt_trans hj i.isLt
    have := hbefore ⟨j, hjn⟩ hj
    simpa using this

theorem chosen_eq_fallback (h : NoSchedtest table) : table.chosen eco = table.chosenFallback eco := by
  rw [Table.chosen, chosenSchedtest_eq_none h]

/-- The re-check finds the slot as the scan left it. -/
theorem schedule_eq (hi : table.chosen eco = some i) (he : (table i).eligible eco = true) :
    table.schedule eco = (some i, update (table.countWaiting eco i) i { table i with state := .running }) := by
  have hwait : table.countWaiting eco i i = table i := by
    simp [Table.countWaiting]
  simp only [Table.schedule, hi, hwait, he, if_true]

theorem chosen_of_schedule {after : Table} (h : table.schedule eco = (some i, after)) :
    table.chosen eco = some i := by
  unfold Table.schedule at h
  split at h
  · cases h
  · rename_i j hj
    dsimp only at h
    split_ifs at h <;> cases h
    exact hj

/-- The slot switched to, on a table without children of `schedtest`. -/
theorem schedule_iff (eco : EcoMode) (h : NoSchedtest table) :
    (table.schedule eco).1 = some i ↔ (table i).eligible eco = true ∧ FirstEligible eco table i := by
  rw [← chosenFallback_eq_some_iff, ← chosen_eq_fallback h]
  constructor
  · intro hs
    exact chosen_of_schedule (Prod.ext hs rfl : table.schedule eco = (some i, (table.schedule eco).2))
  · intro hc
    have he := (chosenFallback_eq_some_iff.1 ((chosen_eq_fallback h).symm.trans hc)).1
    rw [schedule_eq hc he]

theorem exists_schedule (h : NoSchedtest table) {r : Fin NPROC} (hr : (table r).eligible eco = true) :
    ∃ i, (table.schedule eco).1 = some i := by
  have hsome : (table.chosenFallback eco).isSome = true :=
    find?_isSome.2 ⟨r, mem_finRange r, hr⟩
  obtain ⟨i, hi⟩ := Option.isSome_iff_exists.1 hsome
  exact ⟨i, (schedule_iff eco h).2 (chosenFallback_eq_some_iff.1 hi)⟩

/-- Every decision on record is what `schedule` computes on its table. -/
def Recorded (eco : EcoMode) (s : SchedSys) : Prop := ∀ d ∈ s.decisions, (d.1.schedule eco).1 = some d.2

theorem recorded_step {s t : SchedSys} {label : SchedLabel} (h : Recorded eco s) (hstep : s.step eco label = some t) :
    Recorded eco t := by
  cases label with
  | schedule =>
    simp only [SchedSys.step] at hstep
    split at hstep
    case h_1 i after _ hs =>
      cases hstep
      intro d hd
      rcases mem_append.1 hd with hd | hd
      · exact h d hd
      · rw [mem_singleton.1 hd, hs]
    case h_2 =>
      cases hstep
      exact h
    case h_3 => cases hstep
  | yield | leave state =>
    obtain ⟨i, -, rfl⟩ := Option.map_eq_some_iff.1 hstep
    exact h
  | table i p =>
    cases hstep
    exact h

theorem recorded_run {s t : SchedSys} {labels : List SchedLabel} (hinit : SchedInit s)
    (hrun : Run (StepOf (SchedSys.step eco)) s labels t) : Recorded eco t :=
  Run.invariant (I := Recorded eco) (fun _ _ _ h hs => recorded_step h hs) hrun (fun d hd => by
    rw [hinit.decisions] at hd
    exact absurd hd not_mem_nil)

/-- An iteration that finds somebody to run. -/
theorem step_schedule (hs : s.running = none) (hi : (s.table.schedule eco).1 = some i) :
    s.step eco .schedule = some ⟨(s.table.schedule eco).2, some i, s.decisions ++ [(s.table, i)]⟩ := by
  have hpair : s.table.schedule eco = (some i, (s.table.schedule eco).2) := Prod.ext hi rfl
  simp only [SchedSys.step, hs]
  rw [hpair]

/-! ### A process that only yields -/

/-- The scheduler is about to run and slots 0 and 1 hold processes that are eligible; no process has a parent. -/
structure Waiting (s : SchedSys) : Prop where
  running : s.running = none
  parent : ∀ i, (s.table i).parent = none
  first : (s.table slot0).eligible .quota = true
  second : (s.table slot1).eligible .quota = true

theorem Waiting.noSchedtest (h : Waiting s) : NoSchedtest s.table := by
  intro i _
  rw [Table.schedtestChild, h.parent i]

/-- The scheduler switches to slot 0, which yields at once. -/
theorem Waiting.round (h : Waiting s) : ∃ t, Run (StepOf (SchedSys.step .quota)) s [.schedule, .yield] t ∧
    Waiting t ∧ t.decisions = s.decisions ++ [(s.table, slot0)] := by
  have hchosen : s.table.chosen .quota = some slot0 := by
    rw [chosen_eq_fallback h.noSchedtest, chosenFallback_eq_some_iff]
    exact ⟨h.first, fun j hj => absurd hj (Nat.not_lt_zero _)⟩
  have hs := schedule_eq hchosen h.first
  let table := update (s.table.countWaiting .quota slot0) slot0 { s.table slot0 with state := .running }
  let u : SchedSys := ⟨table, some slot0, s.decisions ++ [(s.table, slot0)]⟩
  have hstep : s.step .quota .schedule = some u := by
    rw [step_schedule h.running (i := slot0) (by rw [hs]), hs]
  let t : SchedSys := { u with table := update table slot0 { table slot0 with state := .runnable }, running := none }
  have hyield : u.step .quota .yield = some t := rfl
  refine ⟨t, (Run.single hstep).append (Run.single hyield), ?_, rfl⟩
  obtain ⟨-, hthrottled⟩ := Proc.eligible_quota.1 h.first
  refine ⟨rfl, fun i => ?_, ?_, ?_⟩
  · by_cases hi : i = slot0
    · subst hi
      simp [t, table, h.parent]
    · simp only [t, table, ne_eq, hi, not_false_eq_true, update_of_ne, Table.countWaiting]
      split_ifs <;> exact h.parent i
  · simp [t, table, Proc.eligible_quota, hthrottled]
  · have hne : slot1 ≠ slot0 := by decide
    have hwait : (Table.countWaiting .quota s.table slot0 slot1).eligible .quota = true := by
      unfold Table.countWaiting
      split_ifs <;> exact h.second
    simpa [t, table, update_of_ne hne] using hwait

theorem Waiting.rounds (h : Waiting s) (n : Nat) : ∃ t labels ds, Run (StepOf (SchedSys.step .quota)) s labels t ∧
    Waiting t ∧ (∀ label ∈ labels, label = .schedule ∨ label = .yield) ∧ t.decisions = s.decisions ++ ds ∧ ds.length = n ∧
    ∀ d ∈ ds, NoSchedtest d.1 ∧ (d.1 slot1).eligible .quota = true ∧ d.2 = slot0 := by
  induction n with
  | zero => exact ⟨s, [], [], .nil s, h, by simp, by simp, rfl, by simp⟩
  | succ n ih =>
    obtain ⟨t, labels, ds, hrun, ht, hlabels, hdec, hlen, hds⟩ := ih
    obtain ⟨u, hround, hu, hdec'⟩ := ht.round
    refine ⟨u, _, ds ++ [(t.table, slot0)], hrun.append hround, hu, ?_, by rw [hdec', hdec, append_assoc], by simp [hlen], ?_⟩
    · intro label hl
      rcases mem_append.1 hl with hl | hl
      · exact hlabels label hl
      · simpa using hl
    · intro d hd
      rcases mem_append.1 hd with hd | hd
      · exact hds d hd
      · rw [mem_singleton.1 hd]
        exact ⟨ht.noSchedtest, ht.second, rfl⟩

/-- Two processes ready to run. -/
def twoReady : SchedSys :=
  ⟨fun i => ⟨if i.val < 2 then .runnable else .unused, false, i.val + 1, 0, none, [], 20, 0, false, 0⟩, none, []⟩

theorem twoReady_init : SchedInit twoReady := ⟨rfl, rfl⟩

theorem twoReady_waiting : Waiting twoReady := ⟨rfl, fun _ => rfl, rfl, rfl⟩

end SchedAux

/-- Bypass, exactly. In every run of `scheduler` on one CPU: over any stretch of consecutive decisions on tables without children
of `schedtest` on which `q` is always eligible, `q` is switched to if and only if at one of them no lower slot is eligible; and when
`p` has yielded while another process is eligible, the next process switched to is not `p` if and only if `p` is not eligible
(throttled) or a lower slot than `p`'s is. -/
theorem bypass_iff {eco : EcoMode} {s t : SchedSys} {labels : List SchedLabel} (hinit : SchedInit s)
    (hrun : Run (StepOf (SchedSys.step eco)) s labels t) :
    (∀ (ds : List (Table × Fin NPROC)) (q : Fin NPROC), ds <:+: t.decisions →
      (∀ d ∈ ds, NoSchedtest d.1 ∧ (d.1 q).eligible eco = true) →
      ((∃ d ∈ ds, d.2 = q) ↔ ∃ d ∈ ds, FirstEligible eco d.1 q)) ∧
    (∀ (p : Fin NPROC) (u v : SchedSys), t.running = some p → t.step eco .yield = some u → NoSchedtest u.table →
      (∃ r, r ≠ p ∧ (u.table r).eligible eco = true) → u.step eco .schedule = some v →
      (v.running ≠ some p ↔ (u.table p).eligible eco = false ∨ ¬FirstEligible eco u.table p)) := by
  have hrec := SchedAux.recorded_run hinit hrun
  refine ⟨fun ds q hds hq => exists_congr fun d => and_congr_right fun hd => ?_, fun p u v hp hu hno hr hv => ?_⟩
  · obtain ⟨hno, he⟩ := hq d hd
    have hd' := hrec d (hds.subset hd)
    have hiff := SchedAux.schedule_iff eco hno (i := q)
    rw [hd', Option.some.injEq] at hiff
    rw [hiff]
    exact and_iff_right he
  · obtain ⟨i, -, rfl⟩ := Option.map_eq_some_iff.1 hu
    obtain ⟨r, -, hr⟩ := hr
    obtain ⟨j, hj⟩ := SchedAux.exists_schedule hno hr
    rw [SchedAux.step_schedule rfl hj] at hv
    cases hv
    have hiff := SchedAux.schedule_iff eco hno (i := p)
    rw [hj] at hiff
    rw [ne_eq, hiff, not_and_or, Bool.not_eq_true]

open SchedAux in
theorem bypass_iff_twoReady : ∃ (t : SchedSys) (labels : List SchedLabel),
    Run (StepOf (SchedSys.step .quota)) twoReady labels t ∧ t.decisions.length = NPROC ∧
    ((∃ d ∈ t.decisions, d.2 = slot1) ↔ ∃ d ∈ t.decisions, FirstEligible .quota d.1 slot1) := by
  obtain ⟨t, labels, ds, hrun, -, -, hdec, hlen, hds⟩ := twoReady_waiting.rounds NPROC
  have hdec' : t.decisions = ds := hdec
  refine ⟨t, labels, hrun, hdec' ▸ hlen, ?_⟩
  exact (bypass_iff twoReady_init hrun).1 t.decisions slot1 List.infix_rfl fun d hd =>
    ⟨(hds d (hdec' ▸ hd)).1, (hds d (hdec' ▸ hd)).2.1⟩

open SchedAux in
/-- A process in slot 0 that does nothing but yield is switched to at `NPROC` decisions in a row, while the process in slot 1 is
ready to run at every one of them. -/
theorem yield_starves : ∃ (s t : SchedSys) (labels : List SchedLabel) (ds : List (Table × Fin NPROC)), SchedInit s ∧
    Run (StepOf (SchedSys.step .quota)) s labels t ∧ (∀ label ∈ labels, label = .schedule ∨ label = .yield) ∧
    t.decisions = ds ∧ ds.length = NPROC ∧
    ∀ d ∈ ds, NoSchedtest d.1 ∧ (d.1 slot1).state = .runnable ∧ (d.1 slot1).throttled = false ∧ d.2 = slot0 := by
  obtain ⟨t, labels, ds, hrun, -, hlabels, hdec, hlen, hds⟩ := twoReady_waiting.rounds NPROC
  refine ⟨twoReady, t, labels, ds, twoReady_init, hrun, hlabels, hdec, hlen, fun d hd => ?_⟩
  obtain ⟨hno, he, hslot⟩ := hds d hd
  obtain ⟨hstate, hthrottled⟩ := Proc.eligible_quota.1 he
  exact ⟨hno, hstate, hthrottled, hslot⟩

/-! ## One decision -/

namespace SchedAux

variable {eco : EcoMode} {table : Table} {chosen : Option (Fin NPROC)} {is : List (Fin NPROC)} {i : Fin NPROC}

/-- `strncmp` over the length of a string without NUL compares with a beginning. -/
theorem strncmp_eq_zero_iff {q : List Char} (hq : ∀ c ∈ q, c.toNat ≠ 0) (p : List Char) :
    strncmp p q q.length = 0 ↔ q <+: p := by
  induction q generalizing p with
  | nil => cases p <;> simp [strncmp]
  | cons c q ih =>
    have hc : c.toNat ≠ 0 := hq c (by simp)
    cases p with
    | nil =>
      simp only [length_cons, strncmp, prefix_nil, reduceCtorEq, iff_false]
      omega
    | cons d p =>
      simp only [length_cons, strncmp, cons_prefix_cons]
      by_cases hd : d = c
      · rw [if_pos hd, ih (fun x hx => hq x (mem_cons_of_mem c hx)) p, hd]
        exact (and_iff_right rfl).symm
      · rw [if_neg hd]
        have hne : d.toNat ≠ c.toNat := fun h => hd (Char.toNat_inj.1 h)
        constructor
        · intro h
          omega
        · intro h
          exact absurd h.1.symm hd

theorem eligible_iff {p : Proc} : p.eligible eco = true ↔ p.Eligible eco := by
  simp [Proc.eligible, Proc.Eligible]

theorem schedtestChild_iff : table.schedtestChild i = true ↔ table.UnderSchedtest i := by
  unfold Table.schedtestChild Table.UnderSchedtest
  cases (table i).parent with
  | none => simp
  | some j =>
    have hall : ("schedtest".toList.all fun c => decide (c.toNat ≠ 0)) = true := by decide
    have h := strncmp_eq_zero_iff (fun c hc => of_decide_eq_true (all_eq_true.1 hall c hc)) (table j).name
    rw [show "schedtest".toList.length = 9 from rfl] at h
    simp only [h, decide_eq_true_eq, Option.some.injEq, exists_eq_left']

/-- What the first scan has found after some slots: nothing while no slot is an eligible child of `schedtest`, else one of those with
the least pid. -/
def Least (eco : EcoMode) (table : Table) (is : List (Fin NPROC)) : Option (Fin NPROC) → Prop
  | none => ∀ j ∈ is, ¬((table j).Eligible eco ∧ table.UnderSchedtest j)
  | some i => i ∈ is ∧ ((table i).Eligible eco ∧ table.UnderSchedtest i) ∧
      ∀ j ∈ is, (table j).Eligible eco ∧ table.UnderSchedtest j → (table i).pid ≤ (table j).pid

/-- One slot of the first scan. -/
theorem Least.pick (h : Least eco table is chosen) (i : Fin NPROC) :
    Least eco table (is ++ [i]) (table.pickSchedtest eco chosen i) := by
  have htest : ((table i).eligible eco && table.schedtestChild i) = true ↔
      (table i).Eligible eco ∧ table.UnderSchedtest i := by
    rw [Bool.and_eq_true, eligible_iff, schedtestChild_iff]
  unfold Table.pickSchedtest
  by_cases hi : (table i).Eligible eco ∧ table.UnderSchedtest i
  · rw [if_pos (htest.2 hi)]
    cases chosen with
    | none =>
      refine ⟨by simp, hi, fun j hj hj' => ?_⟩
      rcases mem_append.1 hj with hj | hj
      · exact absurd hj' (h j hj)
      · rw [mem_singleton.1 hj]
    | some k =>
      obtain ⟨hk, hk', hmin⟩ := h
      dsimp only
      split_ifs with hlt
      · refine ⟨by simp, hi, fun j hj hj' => ?_⟩
        rcases mem_append.1 hj with hj | hj
        · exact hlt.le.trans (hmin j hj hj')
        · rw [mem_singleton.1 hj]
      · refine ⟨mem_append_left _ hk, hk', fun j hj hj' => ?_⟩
        rcases mem_append.1 hj with hj | hj
        · exact hmin j hj hj'
        · rw [mem_singleton.1 hj]
          exact not_lt.1 hlt
  · rw [if_neg (fun h' => hi (htest.1 h'))]
    cases chosen with
    | none =>
      intro j hj
      rcases mem_append.1 hj with hj | hj
      · exact h j hj
      · rw [mem_singleton.1 hj]
        exact hi
    | some k =>
      obtain ⟨hk, hk', hmin⟩ := h
      refine ⟨mem_append_left _ hk, hk', fun j hj hj' => ?_⟩
      rcases mem_append.1 hj with hj | hj
      · exact hmin j hj hj'
      · rw [mem_singleton.1 hj] at hj'
        exact absurd hj' hi

/-- The whole first scan, by induction on the slots still to come. -/
theorem Least.scan (h : Least eco table is chosen)
    (js : List (Fin NPROC)) : Least eco table (is ++ js) (js.foldl (table.pickSchedtest eco) chosen) := by
  induction js generalizing is chosen with
  | nil => simpa using h
  | cons j js ih => simpa using ih (h.pick j)

theorem chosenSchedtest_least (eco : EcoMode) (table : Table) :
    Least eco table (finRange NPROC) (table.chosenSchedtest eco) := by
  have hnil : Least eco table [] none := fun j hj => absurd hj not_mem_nil
  unfold Table.chosenSchedtest
  simpa using hnil.scan (finRange NPROC)

/-- The slot chosen is eligible. -/
theorem eligible_of_chosen (h : table.chosen eco = some i) : (table i).eligible eco = true := by
  have hleast := chosenSchedtest_least eco table
  unfold Table.chosen at h
  cases hs : table.chosenSchedtest eco with
  | none =>
    rw [hs] at h
    exact (chosenFallback_eq_some_iff.1 h).1
  | some j =>
    rw [hs] at h hleast
    cases h
    exact eligible_iff.2 hleast.2.1.1

/-- The slot switched to is the slot chosen. -/
theorem schedule_fst (eco : EcoMode) (table : Table) : (table.schedule eco).1 = table.chosen eco := by
  cases hc : table.chosen eco with
  | none => simp [Table.schedule, hc]
  | some i => rw [schedule_eq hc (eligible_of_chosen hc)]

end SchedAux

/-- One iteration of `scheduler` after the quota check, on a table that no other CPU changes. If some eligible process has a parent
whose name starts with `schedtest`, one of those with the smallest pid is switched to; otherwise the eligible process in the lowest
slot is; if none is eligible, nothing is switched to and the table stays. The process switched to becomes `RUNNING`, every other
eligible process has `waiting_tick` incremented, and nothing else changes. -/
theorem one_decision (eco : EcoMode) (table : Table) :
    ((∃ i, (table i).Eligible eco ∧ table.UnderSchedtest i) → ∃ i, (table.schedule eco).1 = some i ∧
      ((table i).Eligible eco ∧ table.UnderSchedtest i) ∧
      ∀ j, (table j).Eligible eco ∧ table.UnderSchedtest j → (table i).pid ≤ (table j).pid) ∧
    ((∀ i, ¬((table i).Eligible eco ∧ table.UnderSchedtest i)) → ∀ i, (table.schedule eco).1 = some i ↔
      (table i).Eligible eco ∧ ∀ j < i, ¬(table j).Eligible eco) ∧
    ((∀ i, ¬(table i).Eligible eco) → table.schedule eco = (none, table)) ∧
    ∀ i, (table.schedule eco).1 = some i → (table.schedule eco).2 i = { table i with state := .running } ∧
      ∀ j ≠ i, ((table j).Eligible eco → (table.schedule eco).2 j = { table j with waitingTick := intIncr (table j).waitingTick }) ∧
        (¬(table j).Eligible eco → (table.schedule eco).2 j = table j) := by
  have hleast := SchedAux.chosenSchedtest_least eco table
  refine ⟨fun ⟨k, hk⟩ => ?_, fun hno i => ?_, fun hno => ?_, fun i hi => ?_⟩
  · cases hs : table.chosenSchedtest eco with
    | none =>
      rw [hs] at hleast
      exact absurd hk (hleast k (List.mem_finRange k))
    | some i =>
      rw [hs] at hleast
      refine ⟨i, ?_, hleast.2.1, fun j => hleast.2.2 j (List.mem_finRange j)⟩
      rw [SchedAux.schedule_fst, Table.chosen, hs]
  · cases hs : table.chosenSchedtest eco with
    | none =>
      rw [SchedAux.schedule_fst, Table.chosen, hs]
      refine SchedAux.chosenFallback_eq_some_iff.trans ?_
      simp only [SchedAux.eligible_iff, FirstEligible, ← Bool.not_eq_true]
    | some j =>
      rw [hs] at hleast
      exact absurd hleast.2.1 (hno j)
  · cases hc : table.chosen eco with
    | none => simp only [Table.schedule, hc]
    | some i => exact absurd (SchedAux.eligible_iff.1 (SchedAux.eligible_of_chosen hc)) (hno i)
  · have hc : table.chosen eco = some i := (SchedAux.schedule_fst eco table).symm.trans hi
    rw [SchedAux.schedule_eq hc (SchedAux.eligible_of_chosen hc)]
    refine ⟨update_self .., fun j hj => ?_⟩
    dsimp only
    rw [update_of_ne hj, Table.countWaiting]
    refine ⟨fun he => ?_, fun he => ?_⟩
    · rw [if_pos (by simp [SchedAux.eligible_iff.2 he, hj])]
    · rw [if_neg (by simp [SchedAux.eligible_iff, he])]

open SchedAux in
theorem one_decision_twoReady : (twoReady.table.schedule .quota).1 = some slot0 :=
  ((one_decision .quota twoReady.table).2.1 (fun _ h => by
    obtain ⟨j, hj, -⟩ := h.2
    cases hj) slot0).2 ⟨⟨rfl, .inr rfl⟩, fun j hj => absurd hj (Nat.not_lt_zero _)⟩

end Xv6
