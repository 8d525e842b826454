import Xv6.Window

namespace Xv6

open Lib List

namespace WindowAux

variable {C : Type}

/-- While every store finds the other CPUs outside: the counters are the times without wrap, a CPU inside has read `ticks` since
the last store, one CPU resets at a time, and the windows and the zeroings of each slot follow each other at a distance. -/
structure Inv (s : WindowSys C) : Prop where
  ticks : s.ticks = BitVec.ofNat 32 s.time
  start : s.quotaWindowStart = BitVec.ofNat 32 s.startTime
  startLe : s.startTime ≤ s.time
  read : ∀ c x n, s.cpu c = .read x n → x = BitVec.ofNat 32 n ∧ s.startTime ≤ n ∧ n ≤ s.time
  tested : ∀ c x n, s.cpu c = .tested x n → x = BitVec.ofNat 32 n ∧ s.startTime + WINDOW_SIZE ≤ n ∧ n ≤ s.time
  unique : ∀ c d i j, s.cpu c = .reset i → s.cpu d = .reset j → c = d
  windows : s.windows.Pairwise fun a b => a + WINDOW_SIZE ≤ b
  windowsLe : ∀ w ∈ s.windows, w ≤ s.startTime
  zeroed : ∀ i, (s.zeroed i).Pairwise fun a b => a + WINDOW_SIZE ≤ b
  zeroedLe : ∀ i, ∀ w ∈ s.zeroed i, w ≤ s.startTime
  pending : ∀ c j, s.cpu c = .reset j → ∀ i, j ≤ i.val → ∀ w ∈ s.zeroed i, w + WINDOW_SIZE ≤ s.startTime

theorem inv_init {s : WindowSys C} (h : WindowInit s) : Inv s := by
  have hcpu : ∀ {c : C} {x : WindowPC}, s.cpu c = x → x = .idle := fun {c x} hx => hx ▸ h.idle c
  refine ⟨by rw [h.ticks, h.time]; rfl, by rw [h.start, h.startTime]; rfl, by rw [h.startTime]; exact Nat.zero_le _, ?_, ?_, ?_,
    by rw [h.windows]; exact .nil, by rw [h.windows]; simp, fun i => by rw [h.zeroed i]; exact .nil,
    fun i => by rw [h.zeroed i]; simp, fun c j hc i _ => by rw [h.zeroed i]; simp⟩
  · exact fun c x n hc => absurd (hcpu hc) nofun
  · exact fun c x n hc => absurd (hcpu hc) nofun
  · exact fun c d i j hc => absurd (hcpu hc) nofun

/-- The unsigned difference of two counters passes the test only if the times are that far apart. -/
theorem window_of_test {m n : Nat} (hmn : m ≤ n) (h : (BitVec.ofNat 32 n - BitVec.ofNat 32 m : Uint).toNat ≥ WINDOW_SIZE) :
    m + WINDOW_SIZE ≤ n := by
  simp only [BitVec.toNat_sub, BitVec.toNat_ofNat, WINDOW_SIZE] at h ⊢
  omega

variable {s : WindowSys C} {c : C}

theorem inv_clockintr (h : Inv s) : Inv { s with ticks := s.ticks + 1, time := s.time + 1 } where
  ticks := by
    rw [h.ticks, BitVec.ofNat_add]
    rfl
  start := h.start
  startLe := Nat.le_succ_of_le h.startLe
  read := fun c x n hc => ⟨(h.read c x n hc).1, (h.read c x n hc).2.1, Nat.le_succ_of_le (h.read c x n hc).2.2⟩
  tested := fun c x n hc => ⟨(h.tested c x n hc).1, (h.tested c x n hc).2.1, Nat.le_succ_of_le (h.tested c x n hc).2.2⟩
  unique := h.unique
  windows := h.windows
  windowsLe := h.windowsLe
  zeroed := h.zeroed
  zeroedLe := h.zeroedLe
  pending := h.pending

variable [DecidableEq C] {t : WindowSys C} {label : WindowLabel C}

/-- The place of a CPU after a change of CPU `c`'s. -/
theorem cpu_cases {x y : WindowPC} {d : C} (hd : (s.setCpu c x).cpu d = y) : (d = c ∧ x = y) ∨ (d ≠ c ∧ s.cpu d = y) := by
  by_cases hdc : d = c
  · subst hdc
    exact Or.inl ⟨rfl, by simpa [WindowSys.setCpu] using hd⟩
  · exact Or.inr ⟨hdc, by simpa [WindowSys.setCpu, hdc] using hd⟩

/-- CPU `c` goes to a place that the invariant allows it. -/
theorem Inv.setCpu (h : Inv s) {x : WindowPC} (hread : ∀ v n, x = .read v n → v = BitVec.ofNat 32 n ∧ s.startTime ≤ n ∧ n ≤ s.time)
    (htested : ∀ v n, x = .tested v n → v = BitVec.ofNat 32 n ∧ s.startTime + WINDOW_SIZE ≤ n ∧ n ≤ s.time)
    (hreset : ∀ j, x = .reset j → (∀ d i, d ≠ c → s.cpu d ≠ .reset i) ∧
      ∀ i : Fin NPROC, j ≤ i.val → ∀ w ∈ s.zeroed i, w + WINDOW_SIZE ≤ s.startTime) : Inv (s.setCpu c x) where
  ticks := h.ticks
  start := h.start
  startLe := h.startLe
  read := by
    intro d v n hd
    rcases cpu_cases hd with ⟨-, hx⟩ | ⟨-, hd⟩
    · exact hread v n hx
    · exact h.read d v n hd
  tested := by
    intro d v n hd
    rcases cpu_cases hd with ⟨-, hx⟩ | ⟨-, hd⟩
    · exact htested v n hx
    · exact h.tested d v n hd
  unique := by
    intro d e i j hd he
    rcases cpu_cases hd with ⟨hdc, hx⟩ | ⟨hdc, hd'⟩ <;> rcases cpu_cases he with ⟨hec, hx'⟩ | ⟨hec, he'⟩
    · exact hdc.trans hec.symm
    · exact absurd he' ((hreset i hx).1 e j hec)
    · exact absurd hd' ((hreset j hx').1 d i hdc)
    · exact h.unique d e i j hd' he'
  windows := h.windows
  windowsLe := h.windowsLe
  zeroed := h.zeroed
  zeroedLe := h.zeroedLe
  pending := by
    intro d j hd
    rcases cpu_cases hd with ⟨-, hx⟩ | ⟨-, hd⟩
    · exact (hreset j hx).2
    · exact h.pending d j hd

/-- The reset of a slot by the CPU whose turn at it is pending. -/
theorem Inv.resetSlot (h : Inv s) {i : Fin NPROC} (hc : s.cpu c = .reset i.val) :
    Inv ((s.resetSlot i).setCpu c (.reset (i.val + 1))) := by
  have hzeroed : ∀ j, (s.resetSlot i).zeroed j = s.zeroed j ∨ j = i ∧ (s.resetSlot i).zeroed j = s.zeroed j ++ [s.startTime] := by
    intro j
    unfold WindowSys.resetSlot
    split_ifs
    · by_cases hj : j = i
      · subst hj
        exact Or.inr ⟨rfl, Function.update_self ..⟩
      · exact Or.inl (Function.update_of_ne hj ..)
    · exact Or.inl rfl
  have hslot : Inv { s.resetSlot i with zeroed := s.zeroed } :=
    ⟨h.ticks, h.start, h.startLe, h.read, h.tested, h.unique, h.windows, h.windowsLe, h.zeroed, h.zeroedLe, h.pending⟩
  have hnew : Inv ({ s.resetSlot i with zeroed := s.zeroed }.setCpu c (.reset (i.val + 1))) := by
    refine hslot.setCpu nofun nofun fun j hj => ⟨fun d k hd hk => hd (h.unique d c k i hk hc), fun k hk => ?_⟩
    cases hj
    exact h.pending c i hc k (by omega)
  refine ⟨hnew.ticks, hnew.start, hnew.startLe, hnew.read, hnew.tested, hnew.unique, hnew.windows, hnew.windowsLe, fun j => ?_,
    fun j w hw => ?_, fun d k hd j hkj w hw => ?_⟩
  · rcases hzeroed j with he | ⟨rfl, he⟩
    · exact he ▸ h.zeroed j
    · refine he ▸ pairwise_append.2 ⟨h.zeroed j, pairwise_singleton _ _, fun w hw v hv => ?_⟩
      rw [mem_singleton.1 hv]
      exact h.pending c j hc j le_rfl w hw
  · rcases hzeroed j with he | ⟨rfl, he⟩
    · exact h.zeroedLe j w (he ▸ hw)
    · rcases mem_append.1 (he ▸ hw) with hw | hw
      · exact h.zeroedLe j w hw
      · exact (mem_singleton.1 hw).le
  · have hdc : d = c := hnew.unique d c k (i.val + 1) hd (by simp [WindowSys.setCpu])
    subst hdc
    have hk : k = i.val + 1 := by
      have : WindowPC.reset (i.val + 1) = .reset k := by simpa [WindowSys.setCpu] using hd
      cases this
      rfl
    have hji : j ≠ i := fun e => by subst e; omega
    rcases hzeroed j with he | ⟨e, -⟩
    · exact h.pending d i hc j (by omega) w (he ▸ hw)
    · exact absurd e hji

/-- The store to `quota_window_start` while every other CPU is outside. -/
theorem Inv.store (h : Inv s) {x : Uint} {n : Nat} (hc : s.cpu c = .tested x n) (halone : ∀ d, d ≠ c → s.cpu d = .idle) :
    Inv ({ s with quotaWindowStart := x, startTime := n, windows := s.windows ++ [n] }.setCpu c (.reset 0)) := by
  obtain ⟨hx, hlater, hn⟩ := h.tested c x n hc
  have hcpu : ∀ {d : C} {y : WindowPC},
      ({ s with quotaWindowStart := x, startTime := n, windows := s.windows ++ [n] }.setCpu c (.reset 0)).cpu d = y →
        (d = c ∧ .reset 0 = y) ∨ y = .idle := by
    intro d y hd
    rcases cpu_cases hd with ⟨hdc, hy⟩ | ⟨hdc, hy⟩
    · exact Or.inl ⟨hdc, hy⟩
    · exact Or.inr (hy.symm.trans (halone d hdc))
  have hfar : ∀ {w}, w ≤ s.startTime → w + WINDOW_SIZE ≤ n := fun hw => le_trans (Nat.add_le_add_right hw _) hlater
  refine ⟨h.ticks, hx, hn, ?_, ?_, ?_, ?_, ?_, h.zeroed, fun i w hw => ?_, fun d j _ i _ w hw => hfar (h.zeroedLe i w hw)⟩
  · intro d v m hd
    rcases hcpu hd with ⟨-, he⟩ | he <;> cases he
  · intro d v m hd
    rcases hcpu hd with ⟨-, he⟩ | he <;> cases he
  · intro d e i j hd he
    rcases hcpu hd with ⟨hdc, -⟩ | hi
    · rcases hcpu he with ⟨hec, -⟩ | hj
      · exact hdc.trans hec.symm
      · cases hj
    · cases hi
  · refine pairwise_append.2 ⟨h.windows, pairwise_singleton _ _, fun w hw v hv => ?_⟩
    rw [mem_singleton.1 hv]
    exact hfar (h.windowsLe w hw)
  · intro w hw
    rcases mem_append.1 hw with hw | hw
    · exact le_trans (Nat.le_add_right _ _) (hfar (h.windowsLe w hw))
    · exact (mem_singleton.1 hw).le
  · exact le_trans (Nat.le_add_right _ _) (hfar (h.zeroedLe i w hw))

theorem inv_step (h : Inv s) (hguard : AloneAtStore s label)
    (hstep : s.step label = some t) : Inv t := by
  cases label with
  | clockintr =>
    cases hstep
    exact inv_clockintr h
  | table i p =>
    cases hstep
    exact ⟨h.ticks, h.start, h.startLe, h.read, h.tested, h.unique, h.windows, h.windowsLe, h.zeroed, h.zeroedLe, h.pending⟩
  | go c =>
    cases hstep
    unfold WindowSys.checkAndResetQuotaWindow
    split
    case h_1 =>
      refine h.setCpu (fun v n hx => ?_) (fun v n hx => by cases hx) (fun j hx => by cases hx)
      cases hx
      exact ⟨h.ticks, h.startLe, le_rfl⟩
    case h_2 x n hc =>
      obtain ⟨hx, hle, hn⟩ := h.read c x n hc
      split_ifs with htest
      · refine h.setCpu (fun v m hy => by cases hy) (fun v m hy => ?_) (fun j hy => by cases hy)
        cases hy
        rw [hx, h.start] at htest
        exact ⟨hx, window_of_test hle htest, hn⟩
      · exact h.setCpu (fun v m hy => by cases hy) (fun v m hy => by cases hy) (fun j hy => by cases hy)
    case h_3 x n hc => exact h.store hc (hguard x n hc)
    case h_4 i hc =>
      split_ifs with hi
      · exact Inv.resetSlot (i := ⟨i, hi⟩) h hc
      · exact h.setCpu (fun v m hy => by cases hy) (fun v m hy => by cases hy) (fun j hy => by cases hy)

theorem inv_run {labels : List (WindowLabel C)} (hinit : WindowInit s)
    (hrun : Run (Guarded AloneAtStore (StepOf WindowSys.step)) s labels t) : Inv t :=
  Run.invariant (I := Inv) (fun _ _ _ h hs => inv_step h hs.1 hs.2) hrun (inv_init hinit)

/-- No step moves the start of the window back. -/
theorem startTime_mono (h : Inv s) (hstep : s.step label = some t) :
    s.startTime ≤ t.startTime := by
  cases label with
  | clockintr | table =>
    cases hstep
    exact le_rfl
  | go c =>
    cases hstep
    unfold WindowSys.checkAndResetQuotaWindow
    split
    case h_1 | h_2 => exact le_rfl
    case h_3 x n hc => exact le_trans (Nat.le_add_right _ _) (h.tested c x n hc).2.1
    case h_4 => split_ifs <;> exact le_rfl

/-! ### Runs from the start of the machine -/

def boot (C : Type) : WindowSys C :=
  ⟨0, 0, fun _ => ⟨.runnable, false, 1, 0, none, [], 20, 0, false, 0⟩, fun _ => .idle, 0, 0, [], fun _ => []⟩

theorem boot_init (C : Type) : WindowInit (boot C) := ⟨rfl, rfl, fun _ => rfl, rfl, rfl, rfl, fun _ => rfl⟩

/-- The state `n` ticks later. -/
def later (s : WindowSys C) (n : Nat) : WindowSys C := { s with ticks := s.ticks + BitVec.ofNat 32 n, time := s.time + n }

theorem later_run (s : WindowSys C) (n : Nat) : Run (StepOf WindowSys.step) s (replicate n .clockintr) (later s n) := by
  induction n with
  | zero =>
    have : later s 0 = s := by simp [later]
    rw [this]
    exact .nil s
  | succ n ih =>
    rw [replicate_succ']
    refine .snoc ih ?_
    simp only [StepOf, WindowSys.step, later, Option.some.injEq]
    rw [BitVec.ofNat_add, add_assoc, add_assoc]
    rfl

/-- CPU `false` resets the slots in the first window, in which CPU `true` finds that it is not yet time for another, and CPU `true` resets
them in the second. -/
def twoWindows : List (WindowLabel Bool) :=
  replicate 100 .clockintr ++ replicate 40 (.go false) ++ replicate 2 (.go true) ++ replicate 28 (.go false) ++
    replicate 100 .clockintr ++ replicate 68 (.go true)

/-- `AloneAtStore` for two CPUs, as a test. -/
def aloneAtStore (s : WindowSys Bool) : WindowLabel Bool → Bool
  | .go c =>
    match s.cpu c, s.cpu (!c) with
    | .tested _ _, .idle => true
    | .tested _ _, _ => false
    | _, _ => true
  | _ => true

theorem aloneAtStore_sound {s : WindowSys Bool} {label : WindowLabel Bool} (h : aloneAtStore s label = true) : AloneAtStore s label := by
  cases label with
  | clockintr | table => trivial
  | go c =>
    intro x n hc d hd
    obtain rfl : d = !c := Bool.eq_not_of_ne hd
    simp only [aloneAtStore, hc] at h
    split at h
    case h_1 _ _ _ hidle => exact hidle
    case h_2 => cases h
    case h_3 hnot _ => exact absurd rfl (hnot x n)

/-- CPU `false` reads `ticks` at 100, CPU `true` at 101; CPU `true` opens its window and resets a slot, and CPU `false` passes the
test with its old value. -/
def staleTicks : List (WindowLabel Bool) :=
  List.replicate 100 .clockintr ++ ([.go false, .clockintr] ++ List.replicate 4 (.go true) ++ [.go false])

end WindowAux

/-- In every run in which each store to `quota_window_start` finds the other CPUs outside `check_and_reset_quota_window`: any two
executions of `reset_cpu_quotas` start from windows at least `WINDOW_SIZE` ticks apart; any two zeroings of a slot happen in such
windows, so not in the same one; and, before `ticks` wraps, no step moves `quota_window_start` back. -/
theorem windows_spaced {C : Type} [DecidableEq C] {s t : WindowSys C} {labels : List (WindowLabel C)} (hinit : WindowInit s)
    (hrun : Run (Guarded AloneAtStore (StepOf WindowSys.step)) s labels t) :
    t.windows.Pairwise Apart ∧ (∀ i, (t.zeroed i).Pairwise Apart) ∧
    ∀ label u, Guarded AloneAtStore (StepOf WindowSys.step) t label u → u.time < 2 ^ 32 →
      t.quotaWindowStart.toNat ≤ u.quotaWindowStart.toNat := by
  have h := WindowAux.inv_run hinit hrun
  refine ⟨h.windows.imp Or.inl, fun i => (h.zeroed i).imp Or.inl, fun label u hstep htime => ?_⟩
  have hu := WindowAux.inv_step h hstep.1 hstep.2
  have hmono := WindowAux.startTime_mono h hstep.2
  have hle := hu.startLe
  rw [h.start, hu.start, BitVec.toNat_ofNat, BitVec.toNat_ofNat]
  omega

open WindowAux in
theorem windows_spaced_twoWindows : ∃ t, Run (Guarded AloneAtStore (StepOf WindowSys.step)) (boot Bool) twoWindows t ∧
    t.windows = [100, 200] ∧ t.windows.Pairwise Apart ∧ t.zeroed slot0 = [100, 200] ∧ ∀ i, (t.zeroed i).Pairwise Apart := by
  obtain ⟨t, hrun, hview⟩ := Run.guarded_of_foldlM (fun s l => aloneAtStore s l = true) WindowSys.step twoWindows (boot Bool)
    (by decide +kernel)
  have hguarded : Run (Guarded AloneAtStore (StepOf WindowSys.step)) (boot Bool) twoWindows t :=
    hrun.mono fun _ _ _ h => ⟨aloneAtStore_sound h.1, h.2⟩
  obtain ⟨hwindows, hzeroed, -⟩ := windows_spaced (boot_init Bool) hguarded
  exact ⟨t, hguarded, hview (fun t => t.windows) (by decide +kernel), hwindows, hview (fun t => t.zeroed slot0) (by decide +kernel), hzeroed⟩

open WindowAux in
/-- A CPU with an old value of `ticks` passes the unsigned test after another CPU has opened a later window: it moves
`quota_window_start` back from 101 to 100, and slot 0 is zeroed in the windows 101 and 100. -/
theorem stale_ticks_reset_twice : ∃ t u v : WindowSys Bool, WindowInit (boot Bool) ∧
    Run (StepOf WindowSys.step) (boot Bool) staleTicks t ∧ t.step (.go false) = some u ∧ u.step (.go false) = some v ∧
    u.time < 2 ^ 32 ∧ ¬t.quotaWindowStart.toNat ≤ u.quotaWindowStart.toNat ∧ ¬u.windows.Pairwise Apart ∧
    ¬(v.zeroed slot0).Pairwise Apart := by
  obtain ⟨t, hafter, hview⟩ := Run.exists_of_foldlM WindowSys.step
    ([.go false, .clockintr] ++ List.replicate 4 (.go true) ++ [.go false]) (later (boot Bool) 100) rfl
  have hrun : Run (StepOf WindowSys.step) (boot Bool) staleTicks t := (later_run (boot Bool) 100).append hafter
  let u := t.checkAndResetQuotaWindow false
  have htime : u.time = 101 := hview (fun t => (t.checkAndResetQuotaWindow false).time) rfl
  have hstart : t.quotaWindowStart.toNat = 101 := hview (fun t => t.quotaWindowStart.toNat) rfl
  have hback : u.quotaWindowStart.toNat = 100 := hview (fun t => (t.checkAndResetQuotaWindow false).quotaWindowStart.toNat) rfl
  have hwindows : u.windows = [101, 100] := hview (fun t => (t.checkAndResetQuotaWindow false).windows) rfl
  have hzeroed : (u.checkAndResetQuotaWindow false).zeroed slot0 = [101, 100] :=
    hview (fun t => ((t.checkAndResetQuotaWindow false).checkAndResetQuotaWindow false).zeroed slot0) rfl
  have hclose : ¬[101, 100].Pairwise Apart := by simp [Apart, WINDOW_SIZE]
  refine ⟨t, u, u.checkAndResetQuotaWindow false, boot_init Bool, hrun, rfl, rfl, ?_, ?_, hwindows ▸ hclose, hzeroed ▸ hclose⟩
  · rw [htime]
    decide
  · rw [hstart, hback]
    decide

end Xv6
