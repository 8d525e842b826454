import Xv6.Lemmas.ThreadMove

/-!
# One process, one CPU

What keeps a process on one CPU, with everything else left out: the state of each slot, its lock, and the CPUs that are switched to
it. `Core.Step` are the ways in which the kernel changes these, and each keeps `Core.Ok`; every step of the kernel is one of them.
-/

namespace Xv6.Threads

open ProcState Function

variable {C M D A : Type} {m : Mode} (data : M → D)

/-- The thread holds `p->lock` in `sleep`. -/
def Pc.ownLock : Pc M D A → Bool
  | .sleepLocked _ | .sleepReleased _ => true
  | _ => false

/-- The thread holds `p->lock` when it runs. -/
def Thread.own (th : Thread M D A) : Bool := th.ctx ≠ .out || th.pc.ownLock

/-- The child that a thread in `kfork` has allocated and not yet made `RUNNABLE`. -/
def Pc.making : Pc M D A → Option Slot
  | .adopt np _ | .publish np _ => some np
  | _ => none

/-- The process that a CPU is switched to or comes back from. -/
def Mode.proc : Mode → Option Slot
  | .running p | .back p => some p
  | _ => none

theorem Mode.proc_eq_some {p : Slot} : m.proc = some p ↔ m = .running p ∨ m = .back p := by
  cases m <;> simp [Mode.proc]

theorem Mode.free_of_proc (h : m.proc = none) (p : Slot) : ¬(m = .running p ∨ m = .back p) := by
  rw [← Mode.proc_eq_some, h]
  exact fun h => (by cases h)

theorem Mode.proc_eq_none : m.proc = none ↔ m.idle = true := by cases m <;> simp [Mode.proc, Mode.idle]

/-- The slots' states and locks, whether their threads hold them, the children being made, and the modes of the CPUs. -/
structure Core (C : Type) where
  st : Slot → ProcState
  own : Slot → Bool
  making : Slot → Option Slot
  lock : Slot → Option C
  mode : C → Mode

def State.core (s : State C M D A) : Core C :=
  ⟨fun p => (s.task p).state, fun p => (s.thread p).own, fun p => (s.thread p).pc.making, s.lock, fun c => (s.cpu c).mode⟩

namespace Core

structure Ok (k : Core C) : Prop where
  uniq : ∀ c c' p, (k.mode c).proc = some p → (k.mode c').proc = some p → c = c'
  run : ∀ c p, k.mode c = .running p → k.st p = running
  runs : ∀ p, k.st p = running → ∃ c, k.mode c = .running p
  back : ∀ c p, k.mode c = .back p → k.lock p = some c ∧ (k.st p = runnable ∨ k.st p = sleeping ∨ k.st p = zombie)
  lock : ∀ c p, k.lock p = some c → k.mode c = .back p ∨ k.mode c = .running p ∧ k.own p = true
  own : ∀ c p, k.mode c = .running p → k.own p = true → k.lock p = some c
  parked : ∀ p, k.st p = used ∨ k.st p = runnable ∨ k.st p = sleeping → k.own p = true
  made : ∀ p np, k.making p = some np → k.st np = used
  maker : ∀ p q np, k.making p = some np → k.making q = some np → p = q

variable {k : Core C} {p : Slot} {c : C} {st : ProcState} {own : Bool}

/-- A process whose lock is free and that does not run is on no CPU: one that comes back from it would hold the lock. -/
theorem Ok.not_on (hk : k.Ok) (hlock : k.lock p = none) (hst : k.st p ≠ running) :
    (k.mode c).proc ≠ some p := by
  intro h
  rcases Mode.proc_eq_some.1 h with h | h
  · exact hst (hk.run c p h)
  · rw [(hk.back c p h).1] at hlock
    cases hlock

/-- What is known of the CPUs, with the two ways in which one has a process told apart. -/
theorem Ok.flat (hk : k.Ok) :
    (∀ c c' p, k.mode c = .running p ∨ k.mode c = .back p → k.mode c' = .running p ∨ k.mode c' = .back p → c = c') ∧
      ∀ c p, k.lock p = none → k.st p ≠ running → ¬(k.mode c = .running p ∨ k.mode c = .back p) := by
  refine ⟨fun c c' p h h' => hk.uniq c c' p (Mode.proc_eq_some.2 h) (Mode.proc_eq_some.2 h'), fun c p hlock hst h => ?_⟩
  exact hk.not_on hlock hst (Mode.proc_eq_some.2 h)

/-- The thread that a CPU runs takes the lock of its process, or releases it. -/
theorem Ok.setLock (hk : k.Ok) {lock : Option C} (hmode : k.mode c = .running p)
    (h : own = false ∧ lock = none ∨ own = true ∧ lock = some c ∧ k.lock p = none) :
    Ok { k with own := update k.own p own, lock := update k.lock p lock } := by
  obtain ⟨uniq, not_on⟩ := hk.flat
  refine ⟨hk.uniq, hk.run, hk.runs, ?_, ?_, ?_, ?_, hk.made, hk.maker⟩ <;> simp only [update_apply]
  · grind [hk.back]
  · grind [hk.lock]
  · grind [hk.own]
  · grind [hk.parked, hk.run]

/-- A process that is on no CPU wakes up, or is freed. -/
theorem Ok.setState (hk : k.Ok) {j : Slot} (hlock : k.lock j = none)
    (hst : k.st j = sleeping ∧ st = runnable ∨ k.st j = zombie ∧ st = unused) : Ok { k with st := update k.st j st } := by
  obtain ⟨uniq, not_on⟩ := hk.flat
  refine ⟨hk.uniq, ?_, ?_, ?_, hk.lock, hk.own, ?_, ?_, hk.maker⟩ <;> simp only [update_apply]
  · grind [hk.run]
  · grind [hk.runs]
  · grind [hk.back]
  · grind [hk.parked]
  · grind [hk.made]

variable [DecidableEq C] {mode : Mode}

inductive Step (k : Core C) : Core C → Prop where
  | same : Step k k
  | look (c : C) (mode : Mode) (hmode : (k.mode c).proc = none) (hidle : mode.proc = none) :
    Step k { k with mode := update k.mode c mode }
  | switchTo (c : C) (p : Slot) (hmode : (k.mode c).proc = none) (hlock : k.lock p = none) (hst : k.st p = runnable) :
    Step k { k with
      st := update k.st p running
      lock := update k.lock p (some c)
      mode := update k.mode c (.running p) }
  | back (c : C) (p : Slot) (mode : Mode) (hmode : k.mode c = .back p) (hidle : mode.proc = none) :
    Step k { k with lock := update k.lock p none, mode := update k.mode c mode }
  | resume (c : C) (p : Slot) (hmode : k.mode c = .running p) (hown : k.own p = true) :
    Step k { k with own := update k.own p false, lock := update k.lock p none }
  | take (c : C) (p : Slot) (hmode : k.mode c = .running p) (hlock : k.lock p = none) :
    Step k { k with own := update k.own p true, lock := update k.lock p (some c) }
  | leaveHeld (c : C) (p : Slot) (st : ProcState) (hmode : k.mode c = .running p) (hown : k.own p = true)
    (hst : st = runnable ∨ st = sleeping ∨ st = zombie) :
    Step k { k with st := update k.st p st, mode := update k.mode c (.back p) }
  | leaveFree (c : C) (p : Slot) (st : ProcState) (own : Bool) (hmode : k.mode c = .running p) (hlock : k.lock p = none)
    (hst : (st = runnable ∨ st = sleeping) ∧ own = true ∨ st = zombie) :
    Step k { k with
      st := update k.st p st
      own := update k.own p own
      lock := update k.lock p (some c)
      mode := update k.mode c (.back p) }
  | wake (j : Slot) (hlock : k.lock j = none) (hst : k.st j = sleeping) : Step k { k with st := update k.st j runnable }
  | alloc (c : C) (p i : Slot) (hmode : k.mode c = .running p) (hlock : k.lock i = none) (hst : k.st i = unused) :
    Step k { k with
      st := update k.st i used
      own := update k.own i true
      making := update (update k.making i none) p (some i) }
  | publish (c : C) (p i : Slot) (hmode : k.mode c = .running p) (hmaking : k.making p = some i) (hlock : k.lock i = none) :
    Step k { k with st := update k.st i runnable, making := update k.making p none }
  | free (i : Slot) (hlock : k.lock i = none) (hst : k.st i = zombie) : Step k { k with st := update k.st i unused }

/-- Every step keeps a process on one CPU. -/
theorem Ok.step {k' : Core C} (hk : k.Ok) (h : k.Step k') : k'.Ok := by
  obtain ⟨uniq, not_on⟩ := hk.flat
  cases h with
  | same => exact hk
  | resume c p hmode => exact hk.setLock hmode (.inl ⟨rfl, rfl⟩)
  | take c p hmode hlock => exact hk.setLock hmode (.inr ⟨rfl, rfl, hlock⟩)
  | wake j hlock hst => exact hk.setState hlock (.inl ⟨hst, rfl⟩)
  | free i hlock hst => exact hk.setState hlock (.inr ⟨hst, rfl⟩)
  | look c mode hmode hidle =>
    -- a CPU that has no process goes on without one
    have hfree : ∀ p, ¬(k.mode c = .running p ∨ k.mode c = .back p) := Mode.free_of_proc hmode
    have hfree' : ∀ p, ¬(mode = .running p ∨ mode = .back p) := Mode.free_of_proc hidle
    refine ⟨?_, ?_, ?_, ?_, ?_, ?_, hk.parked, hk.made, hk.maker⟩ <;> simp only [update_apply, Mode.proc_eq_some]
    · grind
    · grind [hk.run]
    · grind [hk.runs]
    · grind [hk.back]
    · grind [hk.lock]
    · grind [hk.own]
  | switchTo c p hmode =>
    -- a CPU takes a process that no CPU has: one that is `RUNNABLE`, with its lock free
    have hfree : ∀ p, ¬(k.mode c = .running p ∨ k.mode c = .back p) := Mode.free_of_proc hmode
    refine ⟨?_, ?_, ?_, ?_, ?_, ?_, ?_, ?_, hk.maker⟩ <;> simp only [update_apply, Mode.proc_eq_some]
    · grind
    · grind [hk.run]
    · grind [hk.runs]
    · grind [hk.back]
    · grind [hk.lock, hk.parked]
    · grind [hk.own]
    · grind [hk.parked]
    · grind [hk.made]
  | back c p mode hmode hidle =>
    have hfree : ∀ p, ¬(mode = .running p ∨ mode = .back p) := Mode.free_of_proc hidle
    refine ⟨?_, ?_, ?_, ?_, ?_, ?_, hk.parked, hk.made, hk.maker⟩ <;> simp only [update_apply, Mode.proc_eq_some]
    · grind
    · grind [hk.run]
    · grind [hk.runs]
    · grind [hk.back]
    · grind [hk.lock]
    · grind [hk.own]
  | leaveHeld =>
    refine ⟨?_, ?_, ?_, ?_, ?_, ?_, ?_, ?_, hk.maker⟩ <;> simp only [update_apply, Mode.proc_eq_some]
    · grind
    · grind [hk.run]
    · grind [hk.runs]
    · grind [hk.back, hk.own]
    · grind [hk.lock]
    · grind [hk.own]
    · grind [hk.parked]
    · grind [hk.made, hk.run]
  | leaveFree c p st own =>
    refine ⟨?_, ?_, ?_, ?_, ?_, ?_, ?_, ?_, hk.maker⟩ <;> simp only [update_apply, Mode.proc_eq_some]
    · grind
    · grind [hk.run]
    · grind [hk.runs]
    · grind [hk.back]
    · grind [hk.lock]
    · grind [hk.own]
    · grind [hk.parked]
    · grind [hk.made]
  | alloc =>
    refine ⟨hk.uniq, ?_, ?_, ?_, ?_, ?_, ?_, ?_, ?_⟩ <;> simp only [update_apply]
    · grind [hk.run]
    · grind [hk.runs]
    · grind [hk.back]
    · grind [hk.lock]
    · grind [hk.own]
    · grind [hk.parked]
    · grind [hk.made]
    · grind [hk.maker, hk.made, hk.run]
  | publish =>
    refine ⟨hk.uniq, ?_, ?_, ?_, hk.lock, hk.own, ?_, ?_, ?_⟩ <;> simp only [update_apply]
    · grind [hk.run, hk.made]
    · grind [hk.runs]
    · grind [hk.back]
    · grind [hk.parked, hk.made]
    · grind [hk.made, hk.maker]
    · grind [hk.maker]

end Core

section views

variable {ι α β : Type} [DecidableEq ι] {f : α → β} {g : ι → α} {i : ι} {x : α} {y : β}

/-- A view of an updated function is the updated view. -/
theorem view_update (h : f x = y) (j : ι) : f (update g i x j) = update (fun j => f (g j)) i y j := by
  rw [← h]
  exact apply_update (fun _ => f) g i x j

/-- A view that an update does not change. -/
theorem view_same (h : f x = f (g i)) (j : ι) : f (update g i x j) = f (g j) := by
  rw [update_apply]
  split_ifs with hj
  · subst hj
    rw [h]
  · rfl

end views

section refinement

variable {pr : Protocol D A} {s t : State C M D A} {c : C} {act : Act M D A} {p : Slot} {pc pc' : Pc M D A} {th : Thread M D A}
  {j : Slot}

theorem At.own (hat : At s c p pc) : (s.thread p).own = pc.ownLock := by simp [Thread.own, hat.ctx, hat.pc]

theorem Plain.core (h : Plain s c p pc pc') : pc'.ownLock = pc.ownLock ∧ pc'.making = pc.making := by
  cases h <;> exact ⟨rfl, rfl⟩

theorem Waking.core {ch : Option (Chan M)} (h : Waking pc ch j pc') : pc'.ownLock = pc.ownLock ∧ pc'.making = pc.making := by
  cases h <;> exact ⟨rfl, rfl⟩

theorem Ends.core (h : Ends pc) : pc.ownLock = false ∧ pc.making = none := by
  cases h <;> exact ⟨rfl, rfl⟩

theorem LockWait.core (h : LockWait pc pc') : pc'.ownLock = pc.ownLock ∧ pc'.making = pc.making := by
  cases h <;> exact ⟨rfl, rfl⟩

theorem Unwaited.core (h : Unwaited pc) : pc.ownLock = false ∧ pc.making = none := by
  cases h <;> exact ⟨rfl, rfl⟩

theorem LockLoop.core {m : M} {a : A} (h : LockLoop pc m a) : pc.ownLock = false ∧ pc.making = none := by
  cases h <;> exact ⟨rfl, rfl⟩

/-- A thread in `sched` goes on at a place where it holds no lock. -/
def State.Parked (s : State C M D A) : Prop := ∀ p, (s.thread p).ctx ≠ .out → (s.thread p).pc.interruptible = true

/-- A thread that holds no lock does not hold `p->lock`. -/
theorem Pc.ownLock_of_interruptible (h : pc.interruptible = true) : pc.ownLock = false := by
  cases pc <;> first | rfl | cases h

theorem State.Parked.update (hs : s.Parked) (hthread : t.thread = update s.thread p th)
    (hth : th.ctx ≠ .out → th.pc.interruptible = true) : t.Parked := by
  intro q hq
  rw [hthread] at hq ⊢
  rw [update_apply] at hq ⊢
  split_ifs at hq ⊢ with h
  · subst h
    exact hth hq
  · exact hs q hq

/-- A thread that goes on is not in `sched`. -/
theorem State.Parked.goto (hs : s.Parked) (hat : At s c p pc) (hthread : t.thread = Function.update s.thread p th)
    (hctx : th.ctx = (s.thread p).ctx) : t.Parked :=
  hs.update hthread fun h => absurd (hctx.trans hat.ctx) h

/-- A thread that goes on may hold the same lock and make the same child. -/
theorem At.same (hat : At s c p pc) (hctx : th.ctx = (s.thread p).ctx)
    (hcore : th.pc.ownLock = pc.ownLock ∧ th.pc.making = pc.making) (q : Slot) :
    (update s.thread p th q).own = (s.thread q).own ∧ (update s.thread p th q).pc.making = (s.thread q).pc.making := by
  constructor
  · refine view_same (f := Thread.own) ?_ q
    rw [hat.own, ← hcore.1, Thread.own, hctx, hat.ctx]
    rfl
  · refine view_same (f := fun th : Thread M D A => th.pc.making) ?_ q
    rw [hcore.2, hat.pc]

theorem state_set {x : Task M} {st : ProcState} (h : x.state = st) :
    ∀ q, (update s.task j x q).state = update (fun q => (s.task q).state) j st q :=
  view_update (f := fun t : Task M => t.state) h

theorem state_same {x : Task M} (h : x.state = (s.task j).state) : ∀ q, (update s.task j x q).state = (s.task q).state :=
  view_same (f := fun t : Task M => t.state) h

theorem making_same (h : th.pc.making = (s.thread p).pc.making) : ∀ q, (update s.thread p th q).pc.making = (s.thread q).pc.making :=
  view_same (f := fun th : Thread M D A => th.pc.making) h

/-- The thread of `p` is in `sched` after it has left the CPU. -/
theorem Thread.leave_own (th : Thread M D A) {ctx : Ctx} (hctx : ctx ≠ .out) (pc : Pc M D A) : (th.leave ctx pc).own = true := by
  simp [Thread.own, hctx]

/-- `c->proc` is the process that the CPU is switched to or comes back from. -/
def State.ProcSet (s : State C M D A) : Prop := ∀ c, (s.cpu c).proc = (s.cpu c).mode.proc

/-- `myproc()` is the process that runs. -/
theorem State.ProcSet.myproc (hs : s.ProcSet) (hat : At s c p pc) : (s.cpu c).proc = some p := by
  rw [hs c, hat.mode]
  rfl

/-- What holds of the CPUs and the processes they run in every state the kernel reaches. -/
structure State.Sane (s : State C M D A) : Prop where
  core : s.core.Ok
  parked : s.Parked
  procSet : s.ProcSet

/-- A process whose thread takes a step is `RUNNING`. -/
theorem State.Sane.running (hs : s.Sane) (hmode : (s.cpu c).mode = .running p) : (s.task p).state = running := hs.core.run c p hmode

/-- A child that `kfork` has not yet made `RUNNABLE` is `USED`. -/
theorem State.Sane.made (hs : s.Sane) {np : Slot} (h : (s.thread p).pc.making = some np) : (s.task np).state = used :=
  hs.core.made p np h

variable [DecidableEq C] {k : Core C}

/-- The step of the core, seen slot by slot. -/
theorem State.core_step (h : s.core.Step k) (hst : ∀ q, (t.task q).state = k.st q)
    (hown : ∀ q, (t.thread q).own = k.own q) (hmaking : ∀ q, (t.thread q).pc.making = k.making q) (hlock : t.lock = k.lock)
    (hmode : ∀ c, (t.cpu c).mode = k.mode c) : s.core.Step t.core := by
  have : t.core = k := by
    unfold State.core
    rw [funext hst, funext hown, funext hmaking, hlock, funext hmode]
  rw [this]
  exact h

/-- A step in which a thread goes on that holds the same lock and makes the same child. -/
theorem State.core_goto (hat : At s c p pc) (hthread : t.thread = update s.thread p th)
    (hctx : th.ctx = (s.thread p).ctx) (hcore : th.pc.ownLock = pc.ownLock ∧ th.pc.making = pc.making) (h : s.core.Step k)
    (hk : k.own = s.core.own ∧ k.making = s.core.making) (hst : ∀ q, (t.task q).state = k.st q) (hlock : t.lock = k.lock)
    (hmode : ∀ c, (t.cpu c).mode = k.mode c) : s.core.Step t.core := by
  refine State.core_step h hst (fun q => ?_) (fun q => ?_) hlock hmode
  · rw [hthread, hk.1]
    exact (hat.same hctx hcore q).1
  · rw [hthread, hk.2]
    exact (hat.same hctx hcore q).2

/-- A step in which nothing but a thread's place changes. -/
theorem State.core_same (hat : At s c p pc) (hthread : t.thread = update s.thread p th)
    (hctx : th.ctx = (s.thread p).ctx) (hcore : th.pc.ownLock = pc.ownLock ∧ th.pc.making = pc.making)
    (hst : ∀ q, (t.task q).state = (s.task q).state) (hlock : t.lock = s.lock) (hcpu : t.cpu = s.cpu) :
    s.core.Step t.core :=
  State.core_goto hat hthread hctx hcore .same ⟨rfl, rfl⟩ hst hlock fun c => by rw [hcpu]; rfl

/-- `wakeup` and `kkill` wake a process that sleeps, and leave the state of any other. -/
theorem State.core_wake {x : Task M} (hlock : s.lock j = none)
    (hx : x.state = (s.task j).state ∨ (s.task j).state = sleeping ∧ x.state = runnable) :
    ∃ k, s.core.Step k ∧ (k.own = s.core.own ∧ k.making = s.core.making) ∧
      (∀ q, (update s.task j x q).state = k.st q) ∧ s.lock = k.lock ∧ ∀ c, (s.cpu c).mode = k.mode c := by
  rcases hx with hx | ⟨hs, hx⟩
  · exact ⟨s.core, .same, ⟨rfl, rfl⟩, state_same hx, rfl, fun _ => rfl⟩
  · exact ⟨_, .wake j hlock hs, ⟨rfl, rfl⟩, state_set hx, rfl, fun _ => rfl⟩

theorem State.ProcSet.update (hs : s.ProcSet) {x : Cpu M D} (hcpu : t.cpu = update s.cpu c x) (hx : x.proc = x.mode.proc) :
    t.ProcSet := by
  intro d
  rw [hcpu]
  rw [update_apply]
  split_ifs with h
  · subst h
    exact hx
  · exact hs d

variable [DecidableEq M]

theorem Proc.wakeup_state (p : Proc) : p.wakeup.state = p.state ∨ p.state = sleeping ∧ p.wakeup.state = runnable := by
  unfold Proc.wakeup
  split
  · exact .inr ⟨‹_›, rfl⟩
  · exact .inl rfl

theorem Task.wakeup_state (t : Task M) (ch : Option (Chan M)) :
    (t.wakeup ch).state = t.state ∨ t.state = sleeping ∧ (t.wakeup ch).state = runnable := by
  unfold Task.wakeup
  split
  · exact Proc.wakeup_state t.toProc
  · exact .inl rfl

theorem Proc.kkill_state (p : Proc) : p.kkill.state = p.state ∨ p.state = sleeping ∧ p.kkill.state = runnable :=
  Proc.wakeup_state { p with killed := true }

/-- Every step of the kernel is a step of the core. -/
theorem Move.core (hok : s.core.Ok) (hparked : s.Parked) (h : Move pr s c act t) : s.core.Step t.core := by
  cases h with
  | look task mode hirq hmode hidle hsame =>
    exact State.core_step (.look c mode (Mode.proc_eq_none.2 hmode) (Mode.proc_eq_none.2 hidle)) (fun q => (hsame q).state)
      (fun _ => rfl) (fun _ => rfl) rfl (view_update (f := Cpu.mode) rfl)
  | account task hsame => exact State.core_step .same (fun q => (hsame q).state) (fun _ => rfl) (fun _ => rfl) rfl (fun _ => rfl)
  | switchTo p hirq hmode hlock hstate =>
    have hidle : (s.cpu c).mode.proc = none := hmode ▸ rfl
    exact State.core_step (.switchTo c p hidle hlock hstate) (state_set rfl)
      (fun _ => rfl) (fun _ => rfl) rfl (view_update (f := Cpu.mode) rfl)
  | back p hirq hmode =>
    exact State.core_step (.back c p .top hmode rfl) (fun _ => rfl) (fun _ => rfl) (fun _ => rfl) rfl (view_update (f := Cpu.mode) rfl)
  | resume p hirq hmode hctx =>
    refine State.core_step (.resume c p hmode ?_) (fun q => ?_) (view_update (f := Thread.own) ?_)
      (making_same rfl) rfl (fun _ => rfl)
    · show (s.thread p).own = true
      simp [Thread.own, hctx]
    · unfold State.resumeStep
      simp only
      split
      · exact state_same (s := s) (j := p) (x := (s.task p).setChan none) rfl q
      · rfl
    · simp [Thread.own, Pc.ownLock_of_interruptible (hparked p hctx)]
  | yield p pc hat hpc hlock =>
    exact State.core_step (.leaveFree c p runnable true hat.mode hlock (.inl ⟨.inl rfl, rfl⟩))
      (state_set rfl) (view_update (f := Thread.own) (Thread.leave_own _ (by decide) _))
      (making_same rfl) rfl (view_update (f := Cpu.mode) rfl)
  | file =>
    exact State.core_step .same (state_same rfl) (fun _ => rfl) (fun _ => rfl) rfl (fun _ => rfl)
  | plain p pc pc' hat h | lockWait p pc pc' hat h => exact State.core_same hat rfl rfl h.core (fun _ => rfl) rfl rfl
  | ends p pc v hat h | unwaited p pc hat h | lockLoop p pc m a hat h =>
    exact State.core_same hat rfl rfl ⟨h.core.1.symm, h.core.2.symm⟩ (fun _ => rfl) rfl rfl
  | callExit p status hat | adopt p np pid hat | reparent p pp status rest hat =>
    exact State.core_same hat rfl rfl ⟨rfl, rfl⟩ (state_same rfl) rfl rfl
  | forked p i rest hat hlock hstate =>
    have hne : p ≠ i := by
      rintro rfl
      have hrun := hok.run c p hat.mode
      exact absurd (hrun.symm.trans hstate) (by decide)
    refine State.core_step (.alloc c p i hat.mode hlock hstate) (state_set rfl)
      (fun q => ?_) (fun q => ?_) rfl (fun _ => rfl)
    · refine (view_same (f := Thread.own) (i := p) ?_ q).trans (view_update (f := Thread.own) rfl q)
      simp [update_of_ne hne, Thread.own, hat.ctx, hat.pc, Pc.ownLock]
    · refine (view_update (f := fun th : Thread M D A => th.pc.making) (i := p) rfl q).trans ?_
      rw [funext (view_update (f := fun th : Thread M D A => th.pc.making) (g := s.thread) (i := i) (x := ⟨.user, .yield, 0⟩) rfl)]
      rfl
  | forkFailed p i rest hat hlock hstate =>
    exact State.core_same hat rfl rfl ⟨rfl, rfl⟩ (state_same hstate.symm) rfl rfl
  | publish p np pid hat hlock =>
    refine State.core_step (.publish c p np hat.mode ?_ hlock) (state_set rfl)
      (view_same (f := Thread.own) ?_) (view_update (f := fun th : Thread M D A => th.pc.making) rfl) rfl (fun _ => rfl)
    · exact congrArg Pc.making hat.pc
    · rw [hat.own]
      simp [Thread.own, hat.ctx, Pc.ownLock]
  | wake p j pc pc' ch hat h hproc hlock =>
    obtain ⟨k, hk, hsame, hst, hl, hm⟩ := State.core_wake hlock ((s.task j).wakeup_state ch)
    exact State.core_goto hat rfl rfl h.core hk hsame hst hl hm
  | exitMark p status hat hlock =>
    refine State.core_step (.leaveFree c p zombie false hat.mode hlock (.inr rfl))
      (state_set rfl) (view_update (f := Thread.own) ?_)
      (making_same ?_) rfl (view_update (f := Cpu.mode) rfl)
    · simp [Thread.own, hat.ctx, Pc.ownLock]
    · exact (congrArg Pc.making hat.pc).symm
  | reap p pp addr k rest hat hparent hlock hstate =>
    exact State.core_goto hat rfl rfl ⟨rfl, rfl⟩ (.free pp hlock hstate) ⟨rfl, rfl⟩
      (state_set rfl) rfl (fun _ => rfl)
  | kill p i pid rest hat hlock =>
    obtain ⟨k, hk, hsame, hst, hl, hm⟩ := State.core_wake (x := (s.task i).setProc (s.task i).toProc.kkill) hlock
      (Proc.kkill_state (s.task i).toProc)
    exact State.core_goto hat rfl rfl ⟨rfl, rfl⟩ hk hsame hst hl hm
  | pass p m a b hat | passed p m a hat | loopKilled p m a hat | signal p m f hat | notified p m hat =>
    exact State.core_same hat rfl rfl ⟨rfl, rfl⟩ (fun _ => rfl) rfl rfl
  | unready p m a hat =>
    refine State.core_same hat rfl rfl ?_ (fun _ => rfl) rfl rfl
    simp only [Thread.goto_pc]
    split <;> exact ⟨rfl, rfl⟩
  | sleepLock p w hat hlock =>
    refine State.core_step (.take c p hat.mode hlock) (fun _ => rfl) (view_update (f := Thread.own) ?_)
      (making_same ?_) rfl (fun _ => rfl)
    · simp [Thread.own, Pc.ownLock]
    · exact (congrArg Pc.making hat.pc).symm
  | sleepRelease p w hat =>
    cases w with
    | kwait | mon => exact State.core_same hat rfl rfl ⟨rfl, rfl⟩ (fun _ => rfl) rfl rfl
  | asleep p w hat =>
    refine State.core_step (.leaveHeld c p sleeping hat.mode (hat.own.trans rfl) (.inr (.inl rfl)))
      (state_set rfl) (view_same (f := Thread.own) ?_)
      (making_same ?_) rfl (view_update (f := Cpu.mode) rfl)
    · exact (Thread.leave_own _ (by decide) _).trans hat.own.symm
    · rw [hat.pc]
      cases w <;> rfl
  | intr m f | intrSignal m f | intrSkip | intrDone =>
    exact State.core_step .same (fun _ => rfl) (fun _ => rfl) (fun _ => rfl) rfl (view_same (f := Cpu.mode) rfl)
  | intrWake m j ws hirq hproc hlock =>
    obtain ⟨k, hk, hsame, hst, hl, hm⟩ := State.core_wake hlock ((s.task j).wakeup_state (some (.mon m)))
    refine State.core_step hk hst (fun q => ?_) (fun q => ?_) hl fun d => ?_
    · rw [hsame.1]
      rfl
    · rw [hsame.2]
      rfl
    · rw [← hm d]
      exact view_same (f := Cpu.mode) (g := s.cpu) (i := c) (x := ⟨_, _, some (.notify m ws)⟩) rfl d

/-- A step leaves the threads in `sched` where they hold no lock. -/
theorem Move.parked (hs : s.Parked) (h : Move pr s c act t) : t.Parked := by
  cases h with
  | look | account | switchTo | back | file | intr | intrSignal | intrSkip | intrWake | intrDone => exact hs
  | resume => exact hs.update rfl fun h => absurd rfl h
  | yield p pc hat hpc => exact hs.update rfl fun _ => hat.pc ▸ hpc
  | forked p i =>
    have hi : State.Parked { s with thread := update s.thread i ⟨.user, .yield, 0⟩ } := hs.update rfl fun _ => rfl
    exact hi.update rfl fun _ => rfl
  | sleepRelease p w hat =>
    cases w with
    | kwait | mon => exact hs.goto hat rfl rfl
  | asleep p w =>
    refine hs.update rfl fun _ => ?_
    cases w <;> rfl
  | _ => exact hs.goto (by assumption) rfl rfl

theorem Move.procSet (hs : s.ProcSet) (h : Move pr s c act t) : t.ProcSet := by
  cases h with
  | look task mode hirq hmode hidle => exact hs.update rfl (Mode.proc_eq_none.2 hidle).symm
  | switchTo | back => exact hs.update rfl rfl
  | yield p pc hat | exitMark p status hat | asleep p w hat => exact hs.update rfl (hs.myproc hat)
  | sleepRelease p w =>
    cases w with
    | kwait | mon => exact hs
  | intr | intrSignal | intrSkip | intrWake | intrDone =>
    exact hs.update rfl (hs c)
  | _ => exact hs

theorem Move.sane (hs : s.Sane) (h : Move pr s c act t) : t.Sane :=
  ⟨hs.core.step (h.core hs.core hs.parked), h.parked hs.parked, h.procSet hs.procSet⟩

end refinement

/-- The slots at boot: `init`, and those that are free. -/
theorem State.boot_task (p : Slot) : (State.boot data : State C M D A).task p = if p = initproc then .init else .free := by
  simp only [State.boot, update_apply]

theorem State.boot_thread (p : Slot) :
    (State.boot data : State C M D A).thread p = if p = initproc then ⟨.user, .yield, 0⟩ else ⟨.dead, .out, 0⟩ := by
  simp only [State.boot, update_apply]

/-- At boot every CPU is in the scheduler and only `init` has a slot. -/
theorem State.Sane.boot : (State.boot data : State C M D A).Sane where
  core := by
    have hmaking : ∀ p : Slot, (State.boot data : State C M D A).core.making p = none := by
      intro p
      simp only [State.core, State.boot_thread]
      split_ifs <;> rfl
    refine ⟨fun c c' p h => (by cases h), fun c p h => (by cases h), fun p h => ?_, fun c p h => (by cases h), fun c p h => (by cases h),
      fun c p h => (by cases h), fun p h => ?_, fun p np h => ?_, fun p q np h => ?_⟩
    · simp only [State.core, State.boot_task] at h
      split_ifs at h <;> cases h
    · simp only [State.core, State.boot_task, State.boot_thread] at h ⊢
      split_ifs at h ⊢
      · rfl
      · rcases h with h | h | h <;> cases h
    · rw [hmaking p] at h
      cases h
    · rw [hmaking p] at h
      cases h
  parked := by
    intro p hp
    rw [State.boot_thread] at hp ⊢
    split_ifs at hp ⊢
    · rfl
    · exact absurd rfl hp
  procSet := fun _ => rfl

end Xv6.Threads
