import Xv6.Lemmas.ThreadWaits
import Xv6.Theorems.Threads

/-!
# Sleeping and waking
-/

namespace Xv6.Threads

open Lib ProcState

/-! ## No lost wakeup -/

section wakeup

variable {C M D A : Type} {pr : Protocol D A} {s : State C M D A} {m : M} {p : Slot}

/-- While the lock of a monitor is free no waker of it is in its loop. -/
theorem State.Inv.not_pending_mon (hs : s.Inv pr) (hfree : s.held m = none) (p : Slot) : ¬s.Pending (.mon m) p := by
  rintro (⟨q, ws, hq, -⟩ | ⟨m', d, ws, hm, hirq, -⟩)
  · have hholds : (s.thread q).pc.holdsMon = some m := by
      cases hpc : (s.thread q).pc with
      | sig x =>
        rw [hpc] at hq
        cases x with
        | signal => cases hq
        | notify => cases hq; rfl
      | wakeParent status ch ws =>
        -- `kexit` wakes the parent's channel, which is no monitor's
        have hch := hs.alert.chans q status ch ws hpc
        rw [hpc] at hq
        cases hq
        cases hpar : (s.task q).parent <;> rw [hpar] at hch <;> cases hch
      | _ => rw [hpc] at hq; cases hq
    cases hfree.symm.trans (hs.locks.mon m (.inl q) hholds)
  · cases hm
    cases hfree.symm.trans (hs.locks.mon m (.inr d) ⟨ws, hirq⟩)

/-- While `wait_lock` is free no thread wakes parents. -/
theorem State.Inv.not_pending_proc (hs : s.Inv pr) (hfree : s.wait = none) (p q : Slot) : ¬s.Pending (.proc q) p := by
  rintro (⟨r, ws, hr, -⟩ | ⟨m', d, ws, hm, -, -⟩)
  · have hholds : (s.thread r).pc.holdsWait = true := by
      cases hpc : (s.thread r).pc with
      | sig x =>
        rw [hpc] at hr
        cases x <;> cases hr
      | wakeParent | reparentWake => rfl
      | _ => rw [hpc] at hr; cases hr
    cases hfree.symm.trans (hs.locks.wait r hholds)
  · cases hm

/-- A process `SLEEPING` on the channel of a monitor dozes in one of its loops. -/
theorem State.Inv.sleeping_mon (hs : s.Inv pr) (hst : (s.task p).state = sleeping)
    (hchan : (s.task p).chan = some (.mon m)) : ∃ a, (s.thread p).pc = .retry m a ∧ s.doze p = some (.mon m a) := by
  obtain ⟨w, hpc, hw⟩ := hs.alert.sleepers p hst
  cases w with
  | kwait => cases hchan.symm.trans hw
  | mon m' a =>
    cases hchan.symm.trans hw
    exact ⟨a, hpc, by rw [State.doze, hpc, hst]; exact Pc.doze_again (.mon m a)⟩

/-- While the lock of a monitor is free, nobody sleeps in a loop on it whose condition is true or has become so since it was
tested. -/
theorem State.Inv.noLostWakeup (hs : s.Inv pr) (hfree : s.held m = none) (hst : (s.task p).state = sleeping)
    (hchan : (s.task p).chan = some (.mon m)) :
    s.met p = false ∧ ∃ a, (s.thread p).pc = .retry m a ∧ pr.ready a (s.data m) = false := by
  obtain ⟨a, hpc, hdoze⟩ := hs.sleeping_mon hst hchan
  have hnot : ¬(pr.ready a (s.data m) = true ∨ s.met p = true) := fun h =>
    hs.not_pending_mon hfree p (hs.alert.armed p m a hdoze h)
  rw [not_or, Bool.not_eq_true, Bool.not_eq_true] at hnot
  exact ⟨hnot.2, a, hpc, hnot.1⟩

/-- While `wait_lock` is free, nobody sleeps in `kwait` with a `ZOMBIE` child. -/
theorem State.Inv.noZombieChild (hs : s.Inv pr) {p pp : Slot} (hfree : s.wait = none) (hst : (s.task p).state = sleeping)
    (hchan : (s.task p).chan = some (.proc p)) (hparent : (s.task pp).parent = some p) : (s.task pp).state ≠ zombie := by
  intro hz
  obtain ⟨w, hpc, hw⟩ := hs.alert.sleepers p hst
  cases w with
  | mon => cases hchan.symm.trans hw
  | kwait addr =>
    have hdoze : s.doze p = some (.kwait addr) := by
      rw [State.doze, hpc, hst]
      exact Pc.doze_again (.kwait addr)
    exact hs.not_pending_proc hfree p p (hs.alert.pending p pp addr hdoze hparent hz)

end wakeup

/-- In every state reached, for any loops `while(condition false) sleep(chan, lk)` and any wakers that change the condition and call
`wakeup(chan)` with `lk` held: while `lk` is free, no process is `SLEEPING` on `chan` whose condition is true or became true after it
last tested it; and while `wait_lock` is free, no process is `SLEEPING` in `kwait` with a `ZOMBIE` child. For the sleep-locks: while
the inner lock is free, no process is `SLEEPING` on a sleep-lock that is not locked; and if `releasesleep` is called only by a process
that holds the lock, then a locked one is held, and at most one process is between `acquiresleep` and `releasesleep`. -/
theorem no_lost_wakeup {C M D A : Type} [DecidableEq C] [DecidableEq M] (pr : Protocol D A) (eco : EcoMode) (data : M → D)
    (locks : M → Sleeplock) (hlocks : ∀ m, (locks m).locked = false) :
    (∀ (ls : List (Label C M D A)) (s : State C M D A), Run (StepOf (State.step pr eco)) (.boot data) ls s →
      (∀ p m, s.held m = none → (s.task p).state = sleeping → (s.task p).chan = some (.mon m) →
        s.met p = false ∧ ∃ a, (s.thread p).pc = .retry m a ∧ pr.ready a (s.data m) = false) ∧
      ∀ p pp, s.wait = none → (s.task p).state = sleeping → (s.task p).chan = some (.proc p) →
        (s.task pp).parent = some p → (s.task pp).state ≠ zombie) ∧
    (∀ (ls : List (Label C M Sleeplock Int)) (s : State C M Sleeplock Int), Run (StepOf (State.step acquiresleep eco)) (.boot locks) ls s →
      ∀ p m, s.held m = none → (s.task p).state = sleeping → (s.task p).chan = some (.mon m) → (s.data m).locked = true) ∧
    ∀ (ls : List (Label C M Sleeplock Int)) (s : State C M Sleeplock Int),
      Run (Guarded HolderReleases (StepOf (State.step acquiresleep eco))) (.boot locks) ls s →
      (∀ m, (s.data m).locked = true → ∃ q, s.inside m q = true) ∧ ∀ m p q, s.inside m p = true → s.inside m q = true → p = q := by
  refine ⟨fun ls s hrun => ?_, fun ls s hrun p m hfree hst hchan => ?_, fun ls s hrun => ?_⟩
  · have hs := State.Inv.of_run hrun
    exact ⟨fun p m => hs.noLostWakeup, fun p pp => hs.noZombieChild⟩
  · obtain ⟨-, a, -, hready⟩ := (State.Inv.of_run hrun).noLostWakeup hfree hst hchan
    simpa [acquiresleep] using hready
  · have hs : s.Inv acquiresleep ∧ s.Held := by
      refine hrun.invariant (I := fun s => s.Inv acquiresleep ∧ s.Held) (fun s l t hs hstep => ?_)
        ⟨.boot acquiresleep locks, .boot hlocks⟩
      exact ⟨(Move.of_step hstep.2).inv hs.1, hs.2.step hs.1 hstep.1 hstep.2⟩
    exact ⟨hs.2.holder, hs.2.one⟩

namespace RunAux

/-- The sleep-lock of the runs below, not locked. -/
def unlocked (_ : Unit) : Sleeplock := ⟨false, 0⟩

/-- `init` takes a sleep-lock and forks; the child goes to sleep on the lock, and `init` in `kwait`. -/
def bothSleep : List (Label Bool Unit Sleeplock Int) :=
  go false 133 ++ [⟨false, .call (.await () 1)⟩] ++ go false 2 ++ [⟨false, .call .fork⟩] ++ go false 4 ++ go true 134 ++
    [⟨true, .call (.await () 2)⟩] ++ go true 6 ++ [⟨false, .call (.wait 0)⟩] ++ go false 71

/-- The steps that call no waker, whatever the state. -/
def quiet (l : Label Bool Unit Sleeplock Int) : Bool :=
  match l.act with
  | .call (.signal _ _) | .irq _ _ => false
  | _ => true

theorem holderReleases_of_quiet {s : State Bool Unit Sleeplock Int} {l : Label Bool Unit Sleeplock Int} (h : quiet l = true) :
    HolderReleases s l := by
  refine ⟨fun m f hact => ?_, fun m f hact => ?_⟩
  · rw [quiet, hact] at h
    cases h
  · rw [quiet, hact] at h
    cases h

theorem bothSleep_run : ∃ s : State Bool Unit Sleeplock Int, Run (StepOf (State.step acquiresleep .off)) (.boot unlocked) bothSleep s ∧
    s.held () = none ∧ s.wait = none ∧ (s.task slot1).state = sleeping ∧ (s.task slot1).chan = some (.mon ()) ∧
      (s.task initproc).state = sleeping ∧ (s.task initproc).chan = some (.proc initproc) ∧
      (s.task slot1).parent = some initproc := by
  obtain ⟨s, hrun, hview⟩ := Run.exists_of_foldlM (State.step acquiresleep .off) bothSleep (.boot unlocked) (by decide +kernel)
  exact ⟨s, hrun, of_decide_eq_true (hview (fun s : State Bool Unit Sleeplock Int => decide
    (s.held () = none ∧ s.wait = none ∧ (s.task slot1).state = sleeping ∧ (s.task slot1).chan = some (.mon ()) ∧
      (s.task initproc).state = sleeping ∧ (s.task initproc).chan = some (.proc initproc) ∧
      (s.task slot1).parent = some initproc)) (by decide +kernel))⟩

end RunAux

open RunAux in
theorem no_lost_wakeup_bothSleep : ∃ s : State Bool Unit Sleeplock Int,
    Run (StepOf (State.step acquiresleep .off)) (.boot unlocked) bothSleep s ∧ s.met slot1 = false ∧
      (s.task slot1).state ≠ zombie ∧ (s.data ()).locked = true ∧ ∃ q, s.inside () q = true := by
  obtain ⟨s, hrun, hheld, hwait, hst, hchan, hinit, hproc, hparent⟩ := bothSleep_run
  have hquiet : ∀ l ∈ bothSleep, quiet l = true := by decide +kernel
  have hguard : Run (Guarded HolderReleases (StepOf (State.step acquiresleep .off))) (.boot unlocked) bothSleep s :=
    (hrun.guard hquiet).mono fun s l t h => ⟨holderReleases_of_quiet h.1, h.2⟩
  obtain ⟨hany, hlock, hholder⟩ := no_lost_wakeup (C := Bool) acquiresleep .off unlocked unlocked fun _ => rfl
  have hlocked := hlock bothSleep s hrun slot1 () hheld hst hchan
  exact ⟨s, hrun, ((hany bothSleep s hrun).1 slot1 () hheld hst hchan).1, (hany bothSleep s hrun).2 initproc slot1 hwait hinit hproc hparent,
    hlocked, (hholder bothSleep s hguard).1 () hlocked⟩

/-! ## Kills -/

namespace RunAux

/-- Nothing has happened yet. -/
def idle (_ : Unit) : Device := ⟨0, 0, 0, fun _ => 0⟩

/-- `init` forks and goes to `kwait`, up to the call of `sleep`; then the child kills it; then it goes on. -/
def killBeforeSleep : List (Label Bool Unit Device DeviceLoop) :=
  go false 133 ++ [⟨false, .call .fork⟩] ++ go false 4 ++ go true 134 ++ [⟨false, .call (.wait 0)⟩] ++ go false 67 ++
    [⟨true, .call (.kill 1)⟩] ++ go true 1 ++ go false 4

/-- `init` forks and goes to sleep in `kwait`; then the child kills it. -/
def killAsleep : List (Label Bool Unit Device DeviceLoop) :=
  go false 133 ++ [⟨false, .call .fork⟩] ++ go false 4 ++ [⟨false, .call (.wait 0)⟩] ++ go false 71 ++ go true 134 ++
    [⟨true, .call (.kill 1)⟩] ++ go true 1

end RunAux

open RunAux in
/-- A kill is lost: `kkill` has returned 0, and its victim sleeps in `kwait` with both locks free. -/
theorem kill_lost : ∃ s : State Bool Unit Device DeviceLoop, Run (StepOf (State.step devices .off)) (.boot idle) killBeforeSleep s ∧
    s.lock initproc = none ∧ s.wait = none ∧ (s.task initproc).state = sleeping ∧ (s.task initproc).chan = some (.proc initproc) ∧
      (s.task initproc).killed = true ∧ (s.thread slot1).a0 = 0 := by
  obtain ⟨s, hrun, hview⟩ := Run.exists_of_foldlM (State.step devices .off) killBeforeSleep (.boot idle) (by decide +kernel)
  exact ⟨s, hrun, of_decide_eq_true (hview (fun s : State Bool Unit Device DeviceLoop => decide
    (s.lock initproc = none ∧ s.wait = none ∧ (s.task initproc).state = sleeping ∧ (s.task initproc).chan = some (.proc initproc) ∧
      (s.task initproc).killed = true ∧ (s.thread slot1).a0 = 0)) (by decide +kernel))⟩

/-- In every run in which no `kkill` marks a process between its test of `killed` and the `acquire(&p->lock)` of `sleep`: a process that
sleeps in `kwait`, or in a loop that a kill should end, as those of `sys_pause` and `consoleread` are, has not been killed. -/
theorem kill_ends_sleep {C M D A : Type} [DecidableEq C] [DecidableEq M] {pr : Protocol D A} {eco : EcoMode} {data : M → D}
    {ls : List (Label C M D A)} {s : State C M D A}
    (hrun : Run (Guarded (KillsInTime pr) (StepOf (State.step pr eco))) (.boot data) ls s) :
    (∀ p, (s.task p).state = sleeping → (s.task p).chan = some (.proc p) → (s.task p).killed = false) ∧
      (∀ p m a, (s.task p).state = sleeping → (s.thread p).pc = .retry m a → pr.killable a = true →
        (s.task p).killed = false) ∧ ∀ a, devices.killable a = true := by
  have hs : s.Inv pr ∧ s.Spared pr := by
    refine hrun.invariant (I := fun s => s.Inv pr ∧ s.Spared pr) (fun s l t hs hstep => ?_) ⟨.boot pr data, .boot pr data⟩
    exact ⟨(Move.of_step hstep.2).inv hs.1, hs.2.step hs.1 hstep.1 hstep.2⟩
  have spared : ∀ p (w : Wait M A), (s.task p).state = sleeping → (s.thread p).pc = w.again → w.killable pr = true →
      (s.task p).killed = false := by
    intro p w hst hpc hk
    refine hs.2 p w (Pc.bound_of_doze ?_) hk
    rw [hpc, hst]
    exact Pc.doze_again w
  refine ⟨fun p hst hchan => ?_, fun p m a hst hpc hk => spared p (.mon m a) hst hpc hk, fun a => rfl⟩
  obtain ⟨w, hpc, hw⟩ := hs.1.alert.sleepers p hst
  cases w with
  | kwait addr => exact spared p (.kwait addr) hst hpc rfl
  | mon => cases hchan.symm.trans hw

namespace RunAux

/-- A `kkill` of a pid other than 0 comes to a slot whose thread is not about to sleep, as a test. -/
def killsWell (s : State Bool Unit Device DeviceLoop) (l : Label Bool Unit Device DeviceLoop) : Bool :=
  match (s.cpu l.cpu).mode with
  | .running p =>
    match (s.thread p).pc with
    | .kill pid (i :: _) =>
      pid ≠ 0 && match (s.thread i).pc with
        | .sleep _ => false
        | _ => true
    | _ => true
  | _ => true

theorem killsInTime_of_killsWell {s : State Bool Unit Device DeviceLoop} {l : Label Bool Unit Device DeviceLoop} (h : killsWell s l = true) :
    KillsInTime devices s l := by
  intro q i pid rest fault _ hat _ _ w _ hpc
  simp only [killsWell, hat.mode, hat.pc, hpc, Bool.and_false] at h
  cases h

end RunAux

open RunAux in
theorem kill_ends_sleep_killAsleep : ∃ s : State Bool Unit Device DeviceLoop,
    Run (Guarded (KillsInTime devices) (StepOf (State.step devices .off))) (.boot idle) killAsleep s ∧
      (s.thread slot1).a0 = 0 ∧ (s.task initproc).killed = true ∧ (s.task initproc).state = runnable ∧
      ∀ p, (s.task p).state = sleeping → (s.task p).chan = some (.proc p) → (s.task p).killed = false := by
  obtain ⟨s, hrun, hview⟩ := Run.guarded_of_foldlM (fun s l => killsWell s l = true) (State.step devices .off) killAsleep (.boot idle)
    (by decide +kernel)
  obtain ⟨hret, hkilled, hstate⟩ := of_decide_eq_true (hview (fun s : State Bool Unit Device DeviceLoop => decide
    ((s.thread slot1).a0 = 0 ∧ (s.task initproc).killed = true ∧ (s.task initproc).state = runnable)) (by decide +kernel))
  have hguard : Run (Guarded (KillsInTime devices) (StepOf (State.step devices .off))) (.boot idle) killAsleep s :=
    hrun.mono fun s l t h => ⟨killsInTime_of_killsWell h.1, h.2⟩
  exact ⟨s, hguard, hret, hkilled, hstate, (kill_ends_sleep hguard).1⟩

end Xv6.Threads
