import Xv6.Lemmas.QuotaInv

namespace Xv6

open Lib

namespace QuotaAux

variable {C : Type} [DecidableEq C] {s t u : QuotaSys C} {labels : List (QuotaLabel C)}

/-- Only the locked re-check of the scheduler puts a process on a CPU. -/
theorem switch_free {label : QuotaLabel C} {c : C} {i : Fin NPROC} (hstep : t.step label = some u) (hbefore : t.cpu c ≠ .running i)
    (hafter : u.cpu c = .running i) : (t.slot i).throttled = false := by
  have hset : ∀ {v : QuotaSys C} {d : C} {x : Cpu}, v.cpu = t.cpu → (v.setCpu d x).cpu c = .running i → d = c ∧ x = .running i := by
    intro v d x hv hx
    by_cases hd : c = d
    · subst hd
      rw [QuotaSys.setCpu_cpu_self] at hx
      exact ⟨rfl, hx⟩
    · rw [QuotaSys.setCpu_cpu_of_ne _ hd, hv] at hx
      exact absurd hx hbefore
  cases label with
  | timer =>
    simp only [QuotaSys.step, QuotaSys.timer] at hstep
    split at hstep
    case h_2 => exact absurd (Option.some.inj hstep ▸ hafter) hbefore
    case h_1 =>
      split at hstep
      case h_1 => cases hstep; exact absurd hafter hbefore
      case h_2 => cases hstep
      case h_3 => cases hstep; cases (hset rfl hafter).2
  | trap =>
    simp only [QuotaSys.step] at hstep
    split at hstep
    case h_2 => cases hstep
    case h_1 =>
      split at hstep
      case h_2 => cases hstep
      case h_1 => cases hstep; exact absurd hafter hbefore
  | go =>
    simp only [QuotaSys.step] at hstep
    split at hstep
    case h_2 => cases hstep
    case h_1 =>
      obtain ⟨⟨x, keeps⟩, -, rfl⟩ := Option.map_eq_some_iff.1 hstep
      cases keeps with
      | true => exact absurd hafter hbefore
      | false => cases (hset rfl hafter).2
  | pick =>
    simp only [QuotaSys.step] at hstep
    split at hstep
    case h_2 => cases hstep
    case h_1 =>
      split_ifs at hstep
      cases hstep
      cases (hset rfl hafter).2
  | run =>
    simp only [QuotaSys.step] at hstep
    split at hstep
    case h_2 => cases hstep
    case h_1 j hd =>
      split_ifs at hstep with he <;> cases hstep
      · obtain ⟨-, hj⟩ := hset rfl hafter
        cases hj
        exact (Proc.eligible_quota.1 he).2
      · cases (hset rfl hafter).2
  | alloc | ready | free =>
    simp only [QuotaSys.step] at hstep
    split_ifs at hstep
    cases hstep
    exact absurd hafter hbefore
  | reset | wakeup | kill =>
    cases hstep
    exact absurd hafter hbefore

/-! ### Runs of one process on one CPU -/

/-- The table as `procinit` leaves it, on one CPU. -/
def boot : QuotaSys Unit :=
  ⟨fun _ => ⟨⟨.unused, false, 0, 0, none, [], 0, 0, false, 0⟩, .user, 0, 0, 0, 0⟩, fun _ => .idle⟩

theorem boot_init : QuotaInit boot := ⟨fun _ => rfl, fun _ => rfl⟩

/-- A process is allocated, chosen, returns from `forkret` and sets its quota to one tick. -/
def start : List (QuotaLabel Unit) :=
  [.alloc slot0 1, .ready slot0, .pick () slot0, .run (), .go () 1, .go () 0,
    .trap () (.syscall (.setquota 1)), .go () 0, .go () 0]

/-- It then takes a timer interrupt in user mode. -/
def throttleOnce : List (QuotaLabel Unit) := start ++ [.timer ()]

theorem throttleOnce_run : ∃ t, Run (StepOf QuotaSys.step) boot throttleOnce t ∧ (t.slot slot0).state ≠ .unused ∧
    (t.slot slot0).throttled = true := by
  obtain ⟨t, hrun, hview⟩ := Run.exists_of_foldlM QuotaSys.step throttleOnce boot rfl
  have hstate : (t.slot slot0).state = .running := hview (fun t => (t.slot slot0).state) rfl
  exact ⟨t, hrun, by rw [hstate]; decide, hview (fun t => (t.slot slot0).throttled) rfl⟩

end QuotaAux

section

variable {C : Type} [DecidableEq C] {s t : QuotaSys C} {labels : List (QuotaLabel C)}

/-- Enforcement of the quota, in every state of every run on any number of CPUs. The scheduler switches to no throttled process;
and for every slot in use, a throttled process has used its quota up and the quota is positive, the ticks used are at most the
largest quota in force since the counters were zeroed, and `quota_violations` has risen at most once since then. -/
theorem quota_enforced (hinit : QuotaInit s) (hrun : Run (StepOf QuotaSys.step) s labels t) :
    (∀ label u c i, t.step label = some u → t.cpu c ≠ .running i → u.cpu c = .running i →
      (t.slot i).throttled = false) ∧
    ∀ i, (t.slot i).state ≠ .unused →
      ((t.slot i).throttled = true →
        (t.slot i).cpuQuota ≤ (t.slot i).cpuUsedInWindow ∧ 1 ≤ (t.slot i).cpuQuota) ∧
      (t.slot i).cpuUsedInWindow ≤ (t.slot i).maxQuota ∧
      (t.slot i).rises ≤ 1 := by
  have h := QuotaAux.inv_run hinit hrun
  refine ⟨fun label u c i hstep => QuotaAux.switch_free hstep, fun i hi => ?_⟩
  have hok := h.slot i hi
  refine ⟨fun ht => ⟨(hok.throttled ht).1, hok.quotaPos⟩, ?_⟩
  by_cases ht : (t.slot i).throttled = true
  · obtain ⟨-, hle, hrises, -⟩ := hok.throttled ht
    exact ⟨hle, hrises.le⟩
  · obtain ⟨hlt, hrises⟩ := hok.free (Bool.eq_false_of_not_eq_true ht)
    exact ⟨hlt.le, hrises.le.trans (Nat.zero_le 1)⟩

open QuotaAux in
theorem quota_enforced_throttleOnce : ∃ t, Run (StepOf QuotaSys.step) boot throttleOnce t ∧
    (t.slot slot0).throttled = true ∧ (t.slot slot0).cpuQuota ≤ (t.slot slot0).cpuUsedInWindow ∧
    (t.slot slot0).cpuUsedInWindow ≤ (t.slot slot0).maxQuota ∧ (t.slot slot0).rises ≤ 1 := by
  obtain ⟨t, hrun, hi, ht⟩ := throttleOnce_run
  obtain ⟨hthrottled, hused, hrises⟩ := (quota_enforced boot_init hrun).2 slot0 hi
  exact ⟨t, hrun, ht, (hthrottled ht).1, hused, hrises⟩

/-- A throttled process holds nothing: no sleep-lock of an inode or a buffer, no place in `log.outstanding`, no side of a pipe's
lock. -/
theorem throttled_holds_nothing (hinit : QuotaInit s) (hrun : Run (StepOf QuotaSys.step) s labels t) (i : Fin NPROC)
    (hi : (t.slot i).state ≠ .unused) (ht : (t.slot i).throttled = true) : ∀ r, r ∉ (t.slot i).held := by
  have hok := (QuotaAux.inv_run hinit hrun).slot i hi
  have hheld := hok.held
  cases hctl : (t.slot i).ctl with
  | kernel b k => exact absurd hctl ((hok.throttled ht).2.2.2 b k)
  | user | charged =>
    rw [hctl] at hheld
    rw [show (t.slot i).held = 0 from hheld]
    exact fun r => Multiset.notMem_zero r

open QuotaAux in
theorem throttled_holds_nothing_throttleOnce : ∃ t, Run (StepOf QuotaSys.step) boot throttleOnce t ∧
    (t.slot slot0).throttled = true ∧ ∀ r, r ∉ (t.slot slot0).held := by
  obtain ⟨t, hrun, hi, ht⟩ := throttleOnce_run
  exact ⟨t, hrun, ht, throttled_holds_nothing boot_init hrun slot0 hi ht⟩

end

/-! ## Charging -/

namespace QuotaAux

/-- Every timer interrupt taken since the counters were zeroed has been charged. -/
def Charged (s : Slot) : Prop := s.state ≠ .unused → (s.taken : Int) = s.cpuUsedInWindow

theorem charged_of_eq {s x : Slot} (h : Charged s) (hs : s.state ≠ .unused) (ht : x.taken = s.taken)
    (hu : x.cpuUsedInWindow = s.cpuUsedInWindow) : Charged x := fun _ => by rw [ht, hu, h hs]

theorem setquota_used (p : Proc) (quota : Int) : (p.setquota quota).cpuUsedInWindow = p.cpuUsedInWindow := by
  unfold Proc.setquota
  split_ifs <;> rfl

/-- Inside the kernel a process is not charged and, under no timer interrupt, takes none. -/
theorem charged_go {s x : Slot} (h : Charged s) (hr : s.state = .running) {n : Nat} {keeps : Bool}
    (hgo : s.go n = some (x, keeps)) : Charged x := by
  have hs : s.state ≠ .unused := by rw [hr]; decide
  unfold Slot.go at hgo
  split at hgo <;> cases hgo
  case h_3 => split_ifs <;> exact charged_of_eq h hs rfl rfl
  case h_10 => exact charged_of_eq h hs rfl (setquota_used _ _)
  all_goals exact charged_of_eq h hs rfl rfl

theorem charged_timer {s : Slot} (h : Charged s) (hok : SlotOk s) (hu : s.ctl = .user) (hr : s.state = .running)
    (hk : s.killed = false) : Charged s.usertrapTimer := by
  have ht := hok.user hu hr
  have heq := h (by rw [hr]; decide)
  intro _
  rw [Slot.usertrapTimer, if_neg (by rw [hk]; decide)]
  rcases charge_cases hr ht (lt_of_lt_of_le (hok.free ht).1 hok.maxLe) with ⟨-, he⟩ | ⟨-, he⟩ <;>
  · rw [he]
    push_cast
    rw [heq]

variable {C : Type} {s t : QuotaSys C}

theorem charged_setSlot {i j : Fin NPROC} {x : Slot} (h : Charged (s.slot i)) (hx : Charged (s.slot j) → Charged x) :
    Charged ((s.setSlot j x).slot i) := by
  by_cases hij : i = j
  · subst hij
    rw [QuotaSys.setSlot_slot_self]
    exact hx h
  · rw [QuotaSys.setSlot_slot_of_ne _ _ hij]
    exact h

variable [DecidableEq C]

theorem charged_step {i : Fin NPROC} {label : QuotaLabel C} (h : Inv s) (hguard : TimerInUser i s label)
    (hstep : s.step label = some t) (hc : Charged (s.slot i)) : Charged (t.slot i) := by
  cases label with
  | timer c =>
    simp only [QuotaSys.step, QuotaSys.timer] at hstep
    split at hstep
    case h_2 => exact Option.some.inj hstep ▸ hc
    case h_1 j hj =>
      have hr := h.running c j hj
      by_cases hij : i = j
      · subst hij
        obtain ⟨hu, hk⟩ := hguard hj
        rw [hu] at hstep
        cases hstep
        exact charged_setSlot hc fun hx => charged_timer hx (h.slot i (by rw [hr]; decide)) hu hr hk
      · split at hstep <;> cases hstep
        · rwa [QuotaSys.setSlot_slot_of_ne _ _ hij]
        · rwa [QuotaSys.setCpu_slot, QuotaSys.setSlot_slot_of_ne _ _ hij]
  | trap c cause =>
    simp only [QuotaSys.step] at hstep
    split at hstep
    case h_2 => cases hstep
    case h_1 j hj =>
      have hs : (s.slot j).state ≠ .unused := by rw [h.running c j hj]; decide
      split at hstep
      case h_2 => cases hstep
      case h_1 =>
        cases hstep
        exact charged_setSlot hc fun hx => by cases cause <;> exact charged_of_eq hx hs rfl rfl
  | go c =>
    simp only [QuotaSys.step] at hstep
    split at hstep
    case h_2 => cases hstep
    case h_1 j hj =>
      obtain ⟨⟨x, keeps⟩, hgo, rfl⟩ := Option.map_eq_some_iff.1 hstep
      have hx : Charged ((s.setSlot j x).slot i) := charged_setSlot hc fun hx => charged_go hx (h.running c j hj) hgo
      cases keeps <;> exact hx
  | pick =>
    simp only [QuotaSys.step] at hstep
    split at hstep
    case h_2 => cases hstep
    case h_1 =>
      split_ifs at hstep
      cases hstep
      exact hc
  | run =>
    simp only [QuotaSys.step] at hstep
    split at hstep
    case h_2 => cases hstep
    case h_1 j _ =>
      split_ifs at hstep with he <;> cases hstep
      · have hs : (s.slot j).state ≠ .unused := by rw [(Proc.eligible_quota.1 he).1]; decide
        exact charged_setSlot hc fun hx => charged_of_eq hx hs rfl rfl
      · exact hc
  | reset =>
    cases hstep
    refine charged_setSlot hc fun hx => ?_
    unfold Slot.reset
    split_ifs with hs
    · intro _
      rw [Proc.resetCpuQuota, if_pos hs]
      rfl
    · exact hx
  | alloc =>
    simp only [QuotaSys.step] at hstep
    split_ifs at hstep
    cases hstep
    exact charged_setSlot hc fun _ _ => rfl
  | ready =>
    simp only [QuotaSys.step] at hstep
    split_ifs at hstep with hs
    cases hstep
    exact charged_setSlot hc fun hx => charged_of_eq hx (by rw [hs]; decide) rfl rfl
  | free =>
    simp only [QuotaSys.step] at hstep
    split_ifs at hstep
    cases hstep
    exact charged_setSlot hc fun _ hx => absurd rfl hx
  | wakeup =>
    cases hstep
    refine charged_setSlot hc fun hx => ?_
    unfold Proc.wakeup
    split_ifs with hs
    · exact charged_of_eq hx (by rw [hs]; decide) rfl rfl
    · exact hx
  | kill j =>
    cases hstep
    refine charged_setSlot hc fun hx => ?_
    unfold Proc.kkill Proc.wakeup
    split_ifs with hs
    · exact charged_of_eq hx (by rw [show (s.slot j).state = _ from hs]; decide) rfl rfl
    · exact hx

/-- Two timer interrupts inside `uptime`, with a quota of one tick. -/
def kernelTicks : List (QuotaLabel Unit) :=
  start ++ [.reset slot0, .trap () (.syscall .uptime), .timer (), .pick () slot0, .run (), .timer ()]

end QuotaAux

/-- In every run in which the timer interrupts that slot `i` takes find its process in user mode and not killed, every one of them
since its counters were zeroed is in `cpu_used_in_window`, and there are no more than the largest quota it had. -/
theorem ticks_charged {C : Type} [DecidableEq C] {s t : QuotaSys C} {labels : List (QuotaLabel C)} (i : Fin NPROC)
    (hinit : QuotaInit s) (hrun : Run (Guarded (TimerInUser i) (StepOf QuotaSys.step)) s labels t)
    (hi : (t.slot i).state ≠ .unused) :
    ((t.slot i).taken : Int) = (t.slot i).cpuUsedInWindow ∧ ((t.slot i).taken : Int) ≤ (t.slot i).maxQuota := by
  have h : QuotaAux.Inv t ∧ QuotaAux.Charged (t.slot i) :=
    Run.invariant (I := fun s => QuotaAux.Inv s ∧ QuotaAux.Charged (s.slot i))
      (fun _ _ _ hs hstep => ⟨QuotaAux.inv_step hs.1 hstep.2, QuotaAux.charged_step hs.1 hstep.1 hstep.2 hs.2⟩) hrun
      ⟨QuotaAux.inv_init hinit, fun hs => absurd (hinit.unused i) hs⟩
  have hok := h.1.slot i hi
  have heq := h.2 hi
  refine ⟨heq, heq ▸ ?_⟩
  by_cases ht : (t.slot i).throttled = true
  · exact (hok.throttled ht).2.1
  · exact (hok.free (Bool.eq_false_of_not_eq_true ht)).1.le

open QuotaAux in
theorem ticks_charged_throttleOnce : ∃ t, Run (Guarded (TimerInUser slot0) (StepOf QuotaSys.step)) boot throttleOnce t ∧
    (t.slot slot0).taken = 1 ∧ ((t.slot slot0).taken : Int) = (t.slot slot0).cpuUsedInWindow ∧
    ((t.slot slot0).taken : Int) ≤ (t.slot slot0).maxQuota := by
  obtain ⟨t, hrun, hview⟩ := Run.exists_of_foldlM QuotaSys.step start boot rfl
  have hcpu : t.cpu () = .running slot0 := hview (fun t => t.cpu ()) rfl
  have hctl : (t.slot slot0).ctl = .user := hview (fun t => (t.slot slot0).ctl) rfl
  have hkilled : (t.slot slot0).killed = false := hview (fun t => (t.slot slot0).killed) rfl
  have hstate : (t.slot slot0).state = .running := hview (fun t => (t.slot slot0).state) rfl
  have htaken : (t.slot slot0).taken = 0 := hview (fun t => (t.slot slot0).taken) rfl
  have hstep : t.step (.timer ()) = some (t.setSlot slot0 (t.slot slot0).usertrapTimer) := by
    simp only [QuotaSys.step, QuotaSys.timer, hcpu, hctl]
  have hnone : ∀ label ∈ start, ∀ c, label ≠ .timer c := by
    simp [start]
  have hguarded : Run (Guarded (TimerInUser slot0) (StepOf QuotaSys.step)) boot throttleOnce
      (t.setSlot slot0 (t.slot slot0).usertrapTimer) := by
    refine .snoc ((hrun.guard hnone).mono fun s label u h => ⟨?_, h.2⟩) ⟨fun _ => ⟨hctl, hkilled⟩, hstep⟩
    cases label with
    | timer c => exact absurd rfl (h.1 c)
    | _ => trivial
  have htimer : (t.slot slot0).usertrapTimer.taken = 1 ∧ (t.slot slot0).usertrapTimer.state = .running := by
    rw [Slot.usertrapTimer, if_neg (by rw [hkilled]; decide), htaken]
    exact ⟨rfl, (charge_state _).trans hstate⟩
  have hslot := QuotaSys.setSlot_slot_self t slot0 (t.slot slot0).usertrapTimer
  refine ⟨_, hguarded, by rw [hslot]; exact htimer.1, ?_⟩
  exact ticks_charged slot0 boot_init hguarded (by rw [hslot, htimer.2]; decide)

open QuotaAux in
/-- Interrupts that arrive inside a system call go uncharged: with a quota of one tick, two are taken and none is counted. -/
theorem kernel_ticks_uncharged : ∃ (t : QuotaSys Unit), QuotaInit boot ∧ Run (StepOf QuotaSys.step) boot kernelTicks t ∧
    (t.slot slot0).state ≠ .unused ∧ (t.slot slot0).taken = 2 ∧ (t.slot slot0).maxQuota = 1 ∧
    (t.slot slot0).cpuUsedInWindow = 0 := by
  obtain ⟨t, hrun, hview⟩ := Run.exists_of_foldlM QuotaSys.step kernelTicks boot rfl
  have hstate : (t.slot slot0).state = .runnable := hview (fun t => (t.slot slot0).state) rfl
  exact ⟨t, boot_init, hrun, by rw [hstate]; decide, hview (fun t => (t.slot slot0).taken) rfl,
    hview (fun t => (t.slot slot0).maxQuota) rfl, hview (fun t => (t.slot slot0).cpuUsedInWindow) rfl⟩

end Xv6
