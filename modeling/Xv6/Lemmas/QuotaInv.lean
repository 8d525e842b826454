import Xv6.Quota
import Xv6.Lemmas.KernelBalance

/-!
# The invariant of the CPU quota

`SlotOk` is what holds of one slot: the counters against the largest quota, and where a throttled process can be. It is throttled
in `usertrap` with nothing held, yields at once and is not chosen again before it is reset, so it is never inside the kernel.
-/

namespace Xv6

open Lib KernelAux

namespace QuotaAux

/-- What the process of a slot holds: nothing in user mode, and in the kernel what the rest of its path gives back. -/
def HeldOk : Ctl → Multiset Res → Prop
  | .kernel _ k, h => Clean k h
  | _, h => h = 0

/-- The invariant of a slot in use. -/
structure SlotOk (s : Slot) : Prop where
  quotaPos : 1 ≤ s.cpuQuota
  quotaLe : s.cpuQuota ≤ s.maxQuota
  maxLe : s.maxQuota ≤ INT_MAX
  usedNonneg : 0 ≤ s.cpuUsedInWindow
  free : s.throttled = false → s.cpuUsedInWindow < s.maxQuota ∧ s.rises = 0
  throttled : s.throttled = true →
    s.cpuQuota ≤ s.cpuUsedInWindow ∧ s.cpuUsedInWindow ≤ s.maxQuota ∧ s.rises = 1 ∧ ∀ b k, s.ctl ≠ .kernel b k
  charged : s.ctl = .charged → s.state = .running
  user : s.ctl = .user → s.state = .running → s.throttled = false
  held : HeldOk s.ctl s.held

variable {s x : Slot}

theorem intIncr_of_lt {n : Int} (h : n < INT_MAX) : intIncr n = n + 1 := if_neg (ne_of_lt h)

theorem intIncr_ne (n : Int) : intIncr n ≠ n := by
  unfold intIncr INT_MAX
  split_ifs <;> omega

/-- A process in the kernel is not throttled. -/
theorem SlotOk.free_of_kernel (h : SlotOk s) {b : Bool} {k : Kpath Unit} (hk : s.ctl = .kernel b k) :
    s.throttled = false := by
  by_contra ht
  exact (h.throttled (Bool.eq_true_of_not_eq_false ht)).2.2.2 b k hk

/-! ### One slot -/

/-- A change of `state` alone. -/
theorem SlotOk.setState (h : SlotOk s) {state : ProcState} (hc : s.ctl ≠ .charged)
    (hu : s.ctl = .user → state = .running → s.throttled = false) : SlotOk (s.setState state) where
  quotaPos := h.quotaPos
  quotaLe := h.quotaLe
  maxLe := h.maxLe
  usedNonneg := h.usedNonneg
  free := h.free
  throttled := h.throttled
  charged := fun hx => absurd hx hc
  user := hu
  held := h.held

/-- A process that is not throttled goes somewhere else. -/
theorem SlotOk.setCtl (h : SlotOk s) (ctl : Ctl) {held : Multiset Res} (ht : s.throttled = false) (hc : ctl ≠ .charged)
    (hh : HeldOk ctl held) : SlotOk { s with ctl := ctl, held := held } where
  quotaPos := h.quotaPos
  quotaLe := h.quotaLe
  maxLe := h.maxLe
  usedNonneg := h.usedNonneg
  free := h.free
  throttled := fun hx => absurd (ht.symm.trans hx) Bool.false_ne_true
  charged := fun hx => absurd hx hc
  user := fun _ _ => ht
  held := hh

/-- The history of interrupts taken, and `killed`, are free. -/
theorem SlotOk.congr (h : SlotOk s) {k : Bool} {t : Nat} :
    SlotOk { s with killed := k, taken := t } where
  quotaPos := h.quotaPos
  quotaLe := h.quotaLe
  maxLe := h.maxLe
  usedNonneg := h.usedNonneg
  free := h.free
  throttled := h.throttled
  charged := h.charged
  user := h.user
  held := h.held

/-- A tick charged to a running process that is not throttled: it is throttled if it has now used its quota up. -/
theorem charge_cases {p : Proc} (hr : p.state = .running) (ht : p.throttled = false) (hlt : p.cpuUsedInWindow < INT_MAX) :
    (p.cpuUsedInWindow + 1 < p.cpuQuota ∧ p.charge = { p with cpuUsedInWindow := p.cpuUsedInWindow + 1 }) ∨
    (p.cpuQuota ≤ p.cpuUsedInWindow + 1 ∧ p.charge =
      { p with cpuUsedInWindow := p.cpuUsedInWindow + 1, throttled := true, quotaViolations := intIncr p.quotaViolations }) := by
  unfold Proc.charge
  rw [if_pos hr, intIncr_of_lt hlt]
  by_cases hq : p.cpuQuota ≤ p.cpuUsedInWindow + 1
  · exact Or.inr ⟨hq, if_pos ⟨hq, ht⟩⟩
  · exact Or.inl ⟨not_le.1 hq, if_neg fun h => hq h.1⟩

theorem charge_state (p : Proc) : p.charge.state = p.state := by
  unfold Proc.charge
  split_ifs
  · dsimp only
    split_ifs <;> rfl
  · rfl

theorem held_of_user (h : SlotOk s) (hu : s.ctl = .user) : s.held = 0 := by
  have := h.held
  rwa [hu] at this

/-- The charge of a tick: the counter stays within the largest quota, and the process is throttled when it reaches its own. -/
theorem SlotOk.usertrapTimer (h : SlotOk s) (hu : s.ctl = .user) (hr : s.state = .running) : SlotOk s.usertrapTimer := by
  have ht := h.user hu hr
  have hheld := held_of_user h hu
  obtain ⟨hlt, hrises⟩ := h.free ht
  have hnonneg := h.usedNonneg
  unfold Slot.usertrapTimer
  by_cases hk : s.killed = true
  · rw [if_pos hk]
    exact (h.congr (k := s.killed)).setCtl _ ht nofun (hheld ▸ kexit_clean)
  · rw [if_neg hk]
    rcases charge_cases hr ht (lt_of_lt_of_le hlt h.maxLe) with ⟨hq, he⟩ | ⟨hq, he⟩
    · rw [he, if_neg (not_not.2 rfl)]
      refine ⟨h.quotaPos, h.quotaLe, h.maxLe, by dsimp only; omega, fun _ => ⟨lt_of_lt_of_le hq h.quotaLe, hrises⟩, ?_, fun _ => hr,
        nofun, hheld⟩
      exact fun hx => absurd (ht.symm.trans hx) Bool.false_ne_true
    · rw [he, if_pos (intIncr_ne _)]
      refine ⟨h.quotaPos, h.quotaLe, h.maxLe, by dsimp only; omega, nofun, ?_, fun _ => hr, nofun, hheld⟩
      exact fun _ => ⟨hq, hlt, by rw [hrises], nofun⟩

/-- Entering the kernel from user mode. -/
theorem SlotOk.usertrap (h : SlotOk s) (hu : s.ctl = .user) (hr : s.state = .running) (cause : Trap) :
    SlotOk (s.usertrap cause) := by
  have ht := h.user hu hr
  have hheld := held_of_user h hu
  have hpure : Clean (pure ()) s.held := by rw [hheld]; rfl
  cases cause with
  | syscall num =>
    refine h.setCtl _ ht nofun ?_
    rw [hheld]
    split_ifs
    · exact kexit_clean
    · exact syscall_clean num
  | device => exact h.setCtl _ ht nofun hpure
  | fault => exact (h.congr (t := s.taken)).setCtl _ ht nofun hpure

/-- `sys_setquota` by a process that is not throttled. -/
theorem SlotOk.setquota (h : SlotOk s) (ht : s.throttled = false) {quota : Int} (hle : quota ≤ INT_MAX) :
    SlotOk (s.setquota quota) := by
  obtain ⟨hlt, hrises⟩ := h.free ht
  have hmax := h.maxLe
  have hquota := h.quotaLe
  by_cases hq : quota ≤ 0
  · have he : s.toProc.setquota quota = s.toProc := if_pos hq
    have : s.setquota quota = s := by
      rw [Slot.setquota, he, max_eq_left hquota]
    rwa [this]
  · have he : s.toProc.setquota quota = { s.toProc with cpuQuota := quota, throttled := false } := by
      rw [Proc.setquota, if_neg hq, ht, ite_self]
    rw [Slot.setquota, he]
    refine ⟨by dsimp only; omega, le_max_right _ _, max_le hmax hle, h.usedNonneg, ?_, nofun, h.charged, fun _ _ => rfl, h.held⟩
    exact fun _ => ⟨lt_of_lt_of_le hlt (le_max_left _ _), hrises⟩

/-- The reset of a slot. -/
theorem SlotOk.reset (h : SlotOk s) : SlotOk s.reset := by
  unfold Slot.reset
  split_ifs with hs
  · have he : s.resetCpuQuota = { s.toProc with cpuUsedInWindow := 0, throttled := false } := if_pos hs
    rw [he]
    have hpos := h.quotaPos
    refine ⟨hpos, le_rfl, le_trans h.quotaLe h.maxLe, le_rfl, fun _ => ⟨by dsimp only; omega, rfl⟩, nofun, h.charged,
      fun _ _ => rfl, h.held⟩
  · exact h

theorem SlotOk.alloc (pid : Int) : SlotOk (s.alloc pid) := by
  have hpos : 1 ≤ defaultQuota := by decide
  have hle : defaultQuota ≤ INT_MAX := by decide
  exact ⟨hpos, le_rfl, hle, le_rfl, fun _ => ⟨hpos, rfl⟩, nofun, nofun, fun _ _ => rfl, clean_of_balanced forkret_balanced⟩

theorem SlotOk.wakeup (h : SlotOk s) : SlotOk { s with toProc := s.wakeup } := by
  unfold Proc.wakeup
  split_ifs with hs
  · refine h.setState (fun hc => ?_) nofun
    exact absurd ((h.charged hc).symm.trans hs) nofun
  · exact h

/-- A step of a running process. -/
theorem SlotOk.go (h : SlotOk s) (hr : s.state = .running) {n : Nat} {keeps : Bool} (hgo : s.go n = some (x, keeps)) :
    SlotOk x ∧ (keeps = true → x.state = .running) := by
  have hheld := h.held
  unfold Slot.go at hgo
  split at hgo
  case h_1 => nomatch hgo
  case h_2 hctl =>
    cases hgo
    refine ⟨?_, nofun⟩
    rw [hctl] at hheld
    exact ⟨h.quotaPos, h.quotaLe, h.maxLe, h.usedNonneg, h.free,
      fun ht => ⟨(h.throttled ht).1, (h.throttled ht).2.1, (h.throttled ht).2.2.1, nofun⟩, nofun, nofun, hheld⟩
  case h_4 => nomatch hgo
  all_goals
    rename_i hctl
    rw [hctl] at hheld
    have ht := h.free_of_kernel hctl
    cases hgo
  case h_3 viaTrap =>
    split_ifs
    · exact ⟨h.setCtl _ ht nofun (hheld ▸ kexit_clean), fun _ => hr⟩
    · exact ⟨h.setCtl _ ht nofun hheld, fun _ => hr⟩
  case h_5 => exact ⟨h.setState (by rw [hctl]; nofun) (by rw [hctl]; nofun), nofun⟩
  case h_6 => exact ⟨h.setCtl _ ht nofun hheld, fun _ => hr⟩
  case h_7 r k =>
    obtain ⟨g, hg, hk⟩ := hheld
    refine ⟨h.setCtl _ ht nofun ?_, fun _ => hr⟩
    rw [hg, Multiset.erase_cons_head]
    exact hk
  case h_8 k | h_9 k => exact ⟨(h.setCtl (.kernel _ k) ht nofun hheld).setState nofun nofun, nofun⟩
  case h_10 quota k =>
    have hle : quota.toInt ≤ INT_MAX := by
      have := BitVec.toInt_lt (x := quota)
      unfold INT_MAX
      omega
    refine ⟨(h.setCtl (.kernel _ k) ht nofun hheld).setquota ht hle, fun _ => ?_⟩
    unfold Slot.setquota Proc.setquota
    split_ifs <;> exact hr
  case h_11 => exact ⟨h.setCtl _ ht nofun (hheld n), fun _ => hr⟩

/-! ### The system -/

variable {C : Type}

structure Inv (s : QuotaSys C) : Prop where
  running : ∀ c i, s.cpu c = .running i → (s.slot i).state = .running
  unique : ∀ c d i, s.cpu c = .running i → s.cpu d = .running i → c = d
  slot : ∀ i, (s.slot i).state ≠ .unused → SlotOk (s.slot i)

variable {s t : QuotaSys C} {i : Fin NPROC}

theorem inv_init (h : QuotaInit s) : Inv s where
  running := fun c i hc => by rw [h.idle c] at hc; nomatch hc
  unique := fun c _ i hc => by rw [h.idle c] at hc; nomatch hc
  slot := fun i hi => absurd (h.unused i) hi

/-- One slot changes and stays on its CPU, if it is on one. -/
theorem Inv.setSlot (h : Inv s)
    (hrun : (s.slot i).state = .running → x.state = .running) (hok : x.state ≠ .unused → SlotOk x) :
    Inv (s.setSlot i x) where
  running := by
    intro c j hc
    by_cases hj : j = i
    · subst hj
      simpa using hrun (h.running c j hc)
    · simpa [hj] using h.running c j hc
  unique := h.unique
  slot := by
    intro j
    by_cases hj : j = i
    · subst hj
      simpa using hok
    · simpa [hj] using h.slot j

variable [DecidableEq C] {c : C}

/-- A CPU turns to something other than running a process. -/
theorem Inv.setCpu (h : Inv s) {x : Cpu} (hx : ∀ i, x ≠ .running i) : Inv (s.setCpu c x) := by
  have hcpu : ∀ d i, (s.setCpu c x).cpu d = .running i → s.cpu d = .running i := by
    intro d i hd
    by_cases hdc : d = c
    · subst hdc
      rw [QuotaSys.setCpu_cpu_self] at hd
      exact absurd hd (hx i)
    · rwa [QuotaSys.setCpu_cpu_of_ne _ hdc] at hd
  exact ⟨fun d i hd => h.running d i (hcpu d i hd), fun d e i hd he => h.unique d e i (hcpu d i hd) (hcpu e i he), h.slot⟩

/-- The process of CPU `c` gives it up. -/
theorem Inv.leave (h : Inv s) (hc : s.cpu c = .running i) (hok : SlotOk x) :
    Inv ((s.setSlot i x).setCpu c .idle) := by
  have hcpu : ∀ d j, ((s.setSlot i x).setCpu c .idle).cpu d = .running j → d ≠ c ∧ s.cpu d = .running j := by
    intro d j hd
    by_cases hdc : d = c
    · subst hdc
      rw [QuotaSys.setCpu_cpu_self] at hd
      nomatch hd
    · rw [QuotaSys.setCpu_cpu_of_ne _ hdc] at hd
      exact ⟨hdc, hd⟩
  refine ⟨fun d j hd => ?_, fun d e j hd he => h.unique d e j (hcpu d j hd).2 (hcpu e j he).2, fun j => ?_⟩
  · obtain ⟨hdc, hd⟩ := hcpu d j hd
    have hji : j ≠ i := fun e => hdc (h.unique d c i (e ▸ hd) hc)
    simpa [hji] using h.running d j hd
  · by_cases hj : j = i
    · subst hj
      simpa using fun _ => hok
    · simpa [hj] using h.slot j

/-- CPU `c` switches to a runnable process. -/
theorem Inv.switch (h : Inv s) (hi : (s.slot i).state = .runnable)
    (hok : SlotOk ((s.slot i).setState .running)) :
    Inv ((s.setSlot i ((s.slot i).setState .running)).setCpu c (.running i)) := by
  have hcpu : ∀ d j, ((s.setSlot i ((s.slot i).setState .running)).setCpu c (.running i)).cpu d = .running j →
      (d = c ∧ j = i) ∨ (j ≠ i ∧ s.cpu d = .running j) := by
    intro d j hd
    by_cases hdc : d = c
    · subst hdc
      rw [QuotaSys.setCpu_cpu_self] at hd
      cases hd
      exact Or.inl ⟨rfl, rfl⟩
    · rw [QuotaSys.setCpu_cpu_of_ne _ hdc] at hd
      refine Or.inr ⟨fun e => ?_, hd⟩
      subst e
      have := h.running d j hd
      rw [hi] at this
      nomatch this
  refine ⟨fun d j hd => ?_, fun d e j hd he => ?_, fun j => ?_⟩
  · rcases hcpu d j hd with ⟨-, rfl⟩ | ⟨hj, hd⟩
    · simp [Slot.setState]
    · simpa [hj] using h.running d j hd
  · rcases hcpu d j hd with ⟨rfl, rfl⟩ | ⟨hj, hd⟩ <;> rcases hcpu e j he with ⟨rfl, hj'⟩ | ⟨hj', he⟩
    · rfl
    · exact absurd rfl hj'
    · exact absurd hj' hj
    · exact h.unique d e j hd he
  · by_cases hj : j = i
    · subst hj
      simpa using fun _ => hok
    · simpa [hj] using h.slot j

theorem Inv.timer (h : Inv s) (hstep : s.timer c = some t) : Inv t := by
  unfold QuotaSys.timer at hstep
  split at hstep
  case h_2 => exact Option.some.inj hstep ▸ h
  case h_1 i hc =>
    have hr := h.running c i hc
    have hok := h.slot i (by rw [hr]; nofun)
    split at hstep
    case h_1 hu =>
      cases hstep
      refine h.setSlot (fun _ => ?_) fun _ => hok.usertrapTimer hu hr
      unfold Slot.usertrapTimer
      split_ifs
      · exact hr
      · exact (charge_state _).trans hr
      · exact (charge_state _).trans hr
    case h_2 => nomatch hstep
    case h_3 hk =>
      cases hstep
      have ht := hok.free_of_kernel hk
      exact h.leave hc ((hok.congr (k := (s.slot i).killed)).setState (by rw [hk]; nofun) (fun _ _ => ht))

theorem inv_step {label : QuotaLabel C} (h : Inv s) (hstep : s.step label = some t) : Inv t := by
  cases label with
  | timer c => exact h.timer hstep
  | trap c cause =>
    simp only [QuotaSys.step] at hstep
    split at hstep
    case h_2 => nomatch hstep
    case h_1 i hc =>
      have hr := h.running c i hc
      have hok := h.slot i (by rw [hr]; nofun)
      split at hstep
      case h_2 => nomatch hstep
      case h_1 hu =>
        cases hstep
        refine h.setSlot (fun _ => ?_) fun _ => hok.usertrap hu hr cause
        cases cause <;> exact hr
  | go c n =>
    simp only [QuotaSys.step] at hstep
    split at hstep
    case h_2 => nomatch hstep
    case h_1 i hc =>
      have hr := h.running c i hc
      have hok := h.slot i (by rw [hr]; nofun)
      obtain ⟨⟨x, keeps⟩, hgo, rfl⟩ := Option.map_eq_some_iff.1 hstep
      obtain ⟨hx, hkeeps⟩ := hok.go hr hgo
      cases keeps with
      | true => exact h.setSlot (fun _ => hkeeps rfl) fun _ => hx
      | false => exact h.leave hc hx
  | pick c i =>
    simp only [QuotaSys.step] at hstep
    split at hstep
    case h_2 => nomatch hstep
    case h_1 =>
      split_ifs at hstep
      cases hstep
      exact h.setCpu nofun
  | run c =>
    simp only [QuotaSys.step] at hstep
    split at hstep
    case h_2 => nomatch hstep
    case h_1 i hc =>
      split_ifs at hstep with he <;> cases hstep
      · obtain ⟨hi, ht⟩ := Proc.eligible_quota.1 he
        have hok := h.slot i (by rw [hi]; nofun)
        refine h.switch hi (hok.setState (fun hx => ?_) fun _ _ => ht)
        have := hok.charged hx
        rw [hi] at this
        nomatch this
      · exact h.setCpu nofun
  | reset i =>
    cases hstep
    refine h.setSlot (fun hr => ?_) fun hx => ?_
    · unfold Slot.reset Proc.resetCpuQuota
      split_ifs <;> exact hr
    · by_cases hi : (s.slot i).state = .unused
      · have : (s.slot i).reset = s.slot i := if_neg (not_not.2 hi)
        rw [this] at hx
        exact absurd hi hx
      · exact (h.slot i hi).reset
  | alloc i pid =>
    simp only [QuotaSys.step] at hstep
    split_ifs at hstep with hi
    cases hstep
    refine h.setSlot (fun hr => ?_) fun _ => SlotOk.alloc pid
    rw [hi] at hr
    nomatch hr
  | ready i =>
    simp only [QuotaSys.step] at hstep
    split_ifs at hstep with hi
    cases hstep
    have hok := h.slot i (by rw [hi]; nofun)
    refine h.setSlot (fun hr => ?_) fun _ => hok.setState (fun hx => ?_) nofun
    · rw [hi] at hr
      nomatch hr
    · have := hok.charged hx
      rw [hi] at this
      nomatch this
  | free i =>
    simp only [QuotaSys.step] at hstep
    split_ifs at hstep with hi
    cases hstep
    refine h.setSlot (fun hr => ?_) fun hx => absurd rfl hx
    rw [hr] at hi
    rcases hi with hi | hi <;> nomatch hi
  | wakeup i =>
    cases hstep
    refine h.setSlot (fun hr => ?_) fun hx => ?_
    · rw [Proc.wakeup, if_neg (by rw [hr]; nofun)]
      exact hr
    · refine (h.slot i fun hi => hx ?_).wakeup
      rw [Proc.wakeup, if_neg (by rw [hi]; nofun)]
      exact hi
  | kill i =>
    cases hstep
    refine h.setSlot (fun hr => ?_) fun hx => ?_
    · rw [Proc.kkill, Proc.wakeup, if_neg (by rw [hr]; nofun)]
      exact hr
    · refine ((h.slot i fun hi => hx ?_).congr (k := true) (t := (s.slot i).taken)).wakeup
      rw [Proc.kkill, Proc.wakeup, if_neg (by rw [hi]; nofun)]
      exact hi

theorem inv_run {labels : List (QuotaLabel C)} (hinit : QuotaInit s) (hrun : Run (StepOf QuotaSys.step) s labels t) : Inv t :=
  Run.invariant (I := Inv) (fun _ _ _ h hs => inv_step h hs) hrun (inv_init hinit)

end QuotaAux

end Xv6
