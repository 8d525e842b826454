import Xv6.Lemmas.ThreadAlert
import Xv6.Waits

/-!
# Processes and CPUs

What holds of the process table and of the CPUs in every state that the kernel reaches, whatever the interleaving of `kfork`,
`kexit`, `kwait`, `kkill`, `sleep`, `wakeup`, `yield` and `scheduler`.
-/

namespace Xv6.Threads

open Lib ProcState Function List

variable {C M D A : Type} {pr : Protocol D A} {eco : EcoMode} {data : M → D} {ls : List (Label C M D A)} {s t : State C M D A} {p : Slot}
  {c : C}

/-- While `p->lock` is free, a process is `RUNNING` exactly when one CPU has it as `c->proc`. -/
theorem State.Sane.running_iff (hs : s.Sane) (hlock : s.lock p = none) :
    (s.task p).state = .running ↔ ∃! c, (s.cpu c).proc = some p := by
  constructor
  · intro hst
    obtain ⟨c, hc⟩ := hs.core.runs p hst
    have hmode : (s.cpu c).mode.proc = some p := Mode.proc_eq_some.2 (.inl hc)
    refine ⟨c, (hs.procSet c).trans hmode, fun d hd => ?_⟩
    exact hs.core.uniq d c p ((hs.procSet d).symm.trans hd) hmode
  · rintro ⟨c, hc, -⟩
    rcases Mode.proc_eq_some.1 ((hs.procSet c).symm.trans hc) with hmode | hmode
    · exact hs.running hmode
    · have hback := (hs.core.back c p hmode).1
      cases hlock.symm.trans hback

/-- What has become of a process that exited with this pid and status: it is still a `ZOMBIE`, or it was freed once, by a `kwait` that
returned the pid and, if asked, the status. -/
inductive State.Settled (s : State C M D A) (pid status : Int) : Prop where
  | waiting (p : Slot) (hstate : (s.task p).state = zombie) (hpid : (s.task p).pid = pid) (hxstate : (s.task p).xstate = status)
    (hcount : (s.reaps.map Reap.pid).count pid = 0)
  | freed (r : Reap) (hr : r ∈ s.reaps) (hpid : r.pid = pid) (hstatus : r.status = none ∨ r.status = some status)
    (hcount : (s.reaps.map Reap.pid).count pid = 1) (hgone : ∀ p, (s.task p).state ≠ unused → (s.task p).pid ≠ pid)

theorem State.Census.settled (hs : s.Census) {e : Int × Int} (he : e ∈ s.exits) : s.Settled e.1 e.2 := by
  rcases hs.exited e he with ⟨p, hstate, hpid, hxstate⟩ | ⟨r, hr, hpid, hstatus⟩
  · refine .waiting p hstate hpid hxstate (count_eq_zero_of_not_mem ?_)
    rw [← hpid]
    exact (hs.zombies p hstate).2
  · have hmem : e.1 ∈ s.reaps.map Reap.pid := mem_map.2 ⟨r, hr, hpid⟩
    refine .freed r hr hpid ?_ (count_eq_one_of_mem hs.reaps hmem) fun p hne hp => ?_
    · cases hst : r.status with
      | none => exact .inl rfl
      | some st => exact .inr (congrArg some (hstatus st hst))
    · by_cases hz : (s.task p).state = zombie
      · exact (hs.zombies p hz).2 (hp ▸ hmem)
      · exact hs.alive p hne hz (hp ▸ mem_map.2 ⟨e, he, rfl⟩)

/-- The step in which the `kwait` of `p`, on CPU `c`, finds its child `pp` and frees it: no CPU refers to the child, and the call
returns the child's pid and status. -/
structure Reaps (s : State C M D A) (c : C) (p pp : Slot) (t : State C M D A) : Prop where
  parent : (s.task pp).parent = some p
  scan : ∃ addr k rest, At s c p (.scan addr k (pp :: rest)) ∧
    t.reaps = s.reaps ++ [⟨p, (s.task pp).pid, if addr = 0 then none else some (s.task pp).xstate⟩]
  returns : (t.thread p).pc = .user ∧ (t.thread p).a0 = (s.task pp).pid
  freed : (t.task pp).state = unused
  off : ∀ d, (s.cpu d).proc ≠ some pp

/-- A `ZOMBIE` is freed by its parent's `kwait` alone, when its lock is free, and then no CPU refers to it. -/
theorem Change.reaps (hs : s.Sane) (h : Change s c t) {pp : Slot} (hz : (s.task pp).state = zombie)
    (hz' : (t.task pp).state ≠ zombie) : ∃ p, Reaps s c p pp t := by
  cases h with
  | same h => exact absurd ((h.task pp).zombie.2 hz) hz'
  | alloc i x h =>
    have hne : pp ≠ i := fun heq => by
      rw [heq, h.free] at hz
      cases hz
    rw [h.task, update_of_ne hne] at hz'
    exact absurd hz hz'
  | exit p x h =>
    have hne : pp ≠ p := fun heq => by
      rw [heq, h.runs] at hz
      cases hz
    rw [h.task, update_of_ne hne] at hz'
    exact absurd hz hz'
  | reap p q addr h =>
    obtain rfl : pp = q := by
      by_contra hne
      rw [h.task, update_of_ne hne] at hz'
      exact hz' hz
    obtain ⟨k, rest, hat⟩ := h.scan
    refine ⟨p, h.parent, ⟨addr, k, rest, hat, h.reaps⟩, h.thread, ?_, fun d => ?_⟩
    · rw [h.task, update_self]
      rfl
    · rw [hs.procSet d]
      refine hs.core.not_on h.lock ?_
      simp [State.core, hz]

/-- A process becomes a `ZOMBIE` by an exit that is recorded with its pid and status. -/
theorem Change.exits (h : Change s c t) (hz : (s.task p).state ≠ zombie)
    (hz' : (t.task p).state = zombie) : t.exits = s.exits ++ [((s.task p).pid, (t.task p).xstate)] := by
  have hother : ∀ {i x}, t.task = update s.task i x → p = i := fun htask => by
    by_contra hp
    rw [htask, update_of_ne hp] at hz'
    exact hz hz'
  cases h with
  | same h => exact absurd ((h.task p).zombie.1 hz') hz
  | alloc i x h =>
    obtain rfl := hother h.task
    rw [h.task, update_self] at hz'
    rcases h.made with hx | ⟨hx, -⟩ <;> cases hz'.symm.trans hx
  | exit q x h =>
    obtain rfl := hother h.task
    rw [h.task, update_self]
    exact h.exits
  | reap q pp addr h =>
    obtain rfl := hother h.task
    exact absurd h.ended hz

variable [DecidableEq C] [DecidableEq M]

/-! ## One process, one CPU -/

/-- A CPU comes to run a process by a switch of its own, from `RUNNABLE`. -/
theorem Move.switched {c d : C} {act : Act M D A} (h : Move pr s c act t)
    (ht : (t.cpu d).mode = .running p) (hs : (s.cpu d).mode ≠ .running p) : d = c ∧ (s.task p).state = runnable := by
  by_cases hd : d = c
  · subst hd
    refine ⟨rfl, ?_⟩
    cases h with
    | switchTo q hirq hmode hlock hstate =>
      simp only [update_self, Mode.running.injEq] at ht
      exact ht ▸ hstate
    | look task mode hirq hmode hidle =>
      simp only [State.setMode, update_self] at ht
      rw [ht] at hidle
      cases hidle
    | back =>
      simp only [State.setMode, update_self] at ht
      cases ht
    | yield | exitMark | asleep =>
      simp at ht
    | sleepRelease q w => cases w <;> exact absurd ht hs
    | intr | intrSkip | intrWake | intrDone =>
      exact absurd (by simpa [State.setIrq] using ht) hs
    | intrSignal => exact absurd (by simpa [State.setIrq, State.signalled] using ht) hs
    | _ => exact absurd ht hs
  · rw [h.other_cpu hd] at ht
    exact absurd ht hs

/-- In every state reached: a process whose lock is free is `RUNNING` exactly when one CPU has it as `c->proc`; no process runs on
two CPUs; and a CPU that starts to run a process does so by its own step, from state `RUNNABLE`. -/
theorem one_cpu_per_process (hrun : Run (StepOf (State.step pr eco)) (.boot data) ls s) :
    (∀ p, s.lock p = none → ((s.task p).state = running ↔ ∃! c, (s.cpu c).proc = some p)) ∧
      (∀ c d p, (s.cpu c).mode = .running p → (s.cpu d).mode = .running p → c = d) ∧
      ∀ l t d p, s.step pr eco l = some t → (t.cpu d).mode = .running p → (s.cpu d).mode ≠ .running p →
        d = l.cpu ∧ (s.task p).state = runnable := by
  have hs := (State.Inv.of_run hrun).sane
  refine ⟨fun p hlock => hs.running_iff hlock, fun c d p hc hd => ?_, fun l t d p hstep ht hne => ?_⟩
  · exact hs.core.uniq c d p (Mode.proc_eq_some.2 (.inl hc)) (Mode.proc_eq_some.2 (.inl hd))
  · exact (Move.of_step hstep).switched ht hne

namespace RunAux

/-- `n` steps of a CPU, in which nothing fails. -/
def go {A D M : Type} (c : Bool) (n : Nat) : List (Label Bool M D A) := List.replicate n ⟨c, .step .none⟩

/-- One CPU runs `init`, which forks; the other runs the child, which exits with status 7; then `init` waits for it. -/
def forkExitWait : List (Label Bool Unit Sleeplock Int) :=
  go false 133 ++ [⟨false, .call .fork⟩] ++ go false 4 ++ go true 134 ++ [⟨true, .call (.exit 7)⟩] ++ go true 133 ++
    [⟨false, .call (.wait 8)⟩] ++ go false 3

theorem forkExitWait_run : ∃ s : State Bool Unit Sleeplock Int,
    Run (StepOf (State.step acquiresleep .off)) (.boot fun _ => ⟨false, 0⟩) forkExitWait s ∧
      s.exits = [(2, 7)] ∧ s.reaps = [⟨initproc, 2, some 7⟩] ∧ s.allocated = 2 ∧ s.lock initproc = none := by
  obtain ⟨s, hrun, hview⟩ := Run.exists_of_foldlM (State.step acquiresleep .off) forkExitWait
    (.boot fun _ => ⟨false, 0⟩) (by decide +kernel)
  exact ⟨s, hrun, of_decide_eq_true (hview (fun s : State Bool Unit Sleeplock Int => decide
    (s.exits = [(2, 7)] ∧ s.reaps = [⟨initproc, 2, some 7⟩] ∧ s.allocated = 2 ∧ s.lock initproc = none)) (by decide +kernel))⟩

end RunAux

open RunAux in
theorem one_cpu_per_process_forkExitWait : ∃ s : State Bool Unit Sleeplock Int,
    Run (StepOf (State.step acquiresleep .off)) (.boot fun _ => ⟨false, 0⟩) forkExitWait s ∧ s.lock initproc = none ∧
      ((s.task initproc).state = running ↔ ∃! c, (s.cpu c).proc = some initproc) := by
  obtain ⟨s, hrun, -, -, -, hlock⟩ := forkExitWait_run
  exact ⟨s, hrun, hlock, (one_cpu_per_process hrun).1 initproc hlock⟩

/-! ## The process tree and reaping -/

/-- In every state reached with fewer than `2 ^ 31` pids allocated: a parent pointer leads to a process that is neither `UNUSED` nor
`ZOMBIE`; two processes have different pids; an `UNUSED` slot owns no page table, trapframe, file or directory; every process that has
exited is still a `ZOMBIE` or was freed once, by a `kwait` that returned its pid and status; a step that makes a process `ZOMBIE` is
its recorded exit; and a step that frees a `ZOMBIE` is its parent's `kwait`, when no CPU refers to it. -/
theorem process_tree_reaped (hrun : Run (StepOf (State.step pr eco)) (.boot data) ls s) (hlt : s.allocated < 2 ^ 31) :
    (∀ pp p, (s.task pp).parent = some p → (s.task p).state ≠ unused ∧ (s.task p).state ≠ zombie) ∧
      (∀ p q, (s.task p).state ≠ unused → (s.task q).state ≠ unused → (s.task p).pid = (s.task q).pid → p = q) ∧
      (∀ p, (s.task p).state = unused → (s.task p).pagetable = false ∧ (s.task p).trapframe = false ∧
        (∀ fd, (s.task p).ofile fd = false) ∧ (s.task p).cwd = false) ∧
      (∀ e ∈ s.exits, s.Settled e.1 e.2) ∧
      ∀ l t, s.step pr eco l = some t →
        (∀ p, (s.task p).state ≠ zombie → (t.task p).state = zombie →
          t.exits = s.exits ++ [((s.task p).pid, (t.task p).xstate)]) ∧
        ∀ pp, (s.task pp).state = zombie → (t.task pp).state ≠ zombie → ∃ p, Reaps s l.cpu p pp t := by
  have hs := State.Inv.of_run hrun
  have hcensus := State.Census.of_run hrun hlt
  refine ⟨fun pp p => hs.tree.parent, hcensus.inj, fun p hp => ?_, fun e => hcensus.settled, fun l t hstep => ?_⟩
  · have hpages := hs.tree.pages p hp
    have hdead : (s.thread p).pc.isDead = true := (hs.tree.dead p).2 (.inl hp)
    have hclosed : (s.thread p).pc.closed = true := by
      revert hdead
      cases (s.thread p).pc <;> simp [Pc.isDead, Pc.closed]
    exact ⟨hpages.2, hpages.1, hs.tree.closed p hclosed⟩
  · have hchange := (Move.of_step hstep).change hs.sane
    exact ⟨fun p => hchange.exits, fun pp => hchange.reaps hs.sane⟩

open RunAux in
theorem process_tree_reaped_forkExitWait : ∃ s : State Bool Unit Sleeplock Int,
    Run (StepOf (State.step acquiresleep .off)) (.boot fun _ => ⟨false, 0⟩) forkExitWait s ∧ s.allocated < 2 ^ 31 ∧
      s.reaps = [⟨initproc, 2, some 7⟩] ∧ s.Settled 2 7 := by
  obtain ⟨s, hrun, hexits, hreaps, hall, -⟩ := forkExitWait_run
  have hlt : s.allocated < 2 ^ 31 := by
    rw [hall]
    decide
  exact ⟨s, hrun, hlt, hreaps, (process_tree_reaped hrun hlt).2.2.2.1 (2, 7) (by simp [hexits])⟩

end Xv6.Threads
