import Xv6.Threads

/-!
# What one step of the kernel can do

`Move` lists the steps of `State.step` by what they change, each with the conditions under which it is taken. Everything that is
proved of the threads goes through it.
-/

namespace Xv6.Threads

open ProcState Function Option

variable {C M D A : Type} (p : Proc)

/-- The same process to everything but the scheduler's choice: only the name and the fields of the quota may differ. -/
structure Task.Same (t u : Task M) : Prop where
  state : u.state = t.state
  killed : u.killed = t.killed
  pid : u.pid = t.pid
  parent : u.parent = t.parent
  chan : u.chan = t.chan
  xstate : u.xstate = t.xstate
  trapframe : u.trapframe = t.trapframe
  pagetable : u.pagetable = t.pagetable
  ofile : u.ofile = t.ofile
  cwd : u.cwd = t.cwd

namespace Task.Same

variable (t : Task M)

theorem refl : t.Same t := ⟨rfl, rfl, rfl, rfl, rfl, rfl, rfl, rfl, rfl, rfl⟩

theorem update {task : Slot → Task M} {i : Slot} {u : Task M} (h : (task i).Same u) (j : Slot) :
    (task j).Same (update task i u j) := by
  rw [update_apply]
  split_ifs with hj
  · subst hj
    exact h
  · exact refl _

theorem setProc {t : Task M} {p : Proc} (hstate : p.state = t.state) (hkilled : p.killed = t.killed) (hpid : p.pid = t.pid)
    (hparent : p.parent = t.parent) : t.Same (t.setProc p) :=
  ⟨hstate, hkilled, hpid, hparent, rfl, rfl, rfl, rfl, rfl, rfl⟩

theorem waited (eco : EcoMode) : t.Same (t.waited eco) := by
  unfold Task.waited
  split
  · exact setProc rfl rfl rfl rfl
  · exact refl t

theorem setName (name : List Char) : t.Same (t.setProc (t.toProc.setName name)) := setProc rfl rfl rfl rfl

theorem setquota (quota : Int) : t.Same (t.setProc (t.toProc.setquota quota)) := by
  unfold Proc.setquota
  split <;> exact setProc rfl rfl rfl rfl

theorem charge : t.Same (t.setProc t.toProc.charge) := by
  unfold Proc.charge
  split
  · simp only
    split <;> exact setProc rfl rfl rfl rfl
  · exact setProc rfl rfl rfl rfl

theorem resetCpuQuota : t.Same (t.setProc t.toProc.resetCpuQuota) := by
  unfold Proc.resetCpuQuota
  split <;> exact setProc rfl rfl rfl rfl

end Task.Same

/-- A slot changes, but not in `waiting_tick`. -/
theorem Task.waitingTick_update {task : Slot → Task M} {i : Slot} {u : Task M} (h : u.waitingTick = (task i).waitingTick)
    (j : Slot) : (update task i u j).waitingTick = (task j).waitingTick := by
  rw [update_apply]
  split_ifs with hj
  · subst hj
    rw [h]
  · rfl

theorem Proc.waitingTick_setquota (quota : Int) : (p.setquota quota).waitingTick = p.waitingTick := by
  unfold Proc.setquota
  split <;> rfl

theorem Proc.waitingTick_charge : p.charge.waitingTick = p.waitingTick := by
  unfold Proc.charge
  split
  · dsimp only
    split <;> rfl
  · rfl

theorem Proc.waitingTick_resetCpuQuota : p.resetCpuQuota.waitingTick = p.waitingTick := by
  unfold Proc.resetCpuQuota
  split <;> rfl

/-- A place of `scheduler` in which the CPU is switched to no process. -/
def Mode.idle : Mode → Bool
  | .running _ | .back _ => false
  | _ => true

/-- CPU `c` runs the thread of `p`, which is at `pc` and not in `sched`. -/
structure At (s : State C M D A) (c : C) (p : Slot) (pc : Pc M D A) : Prop where
  irq : (s.cpu c).irq = none
  mode : (s.cpu c).mode = .running p
  ctx : (s.thread p).ctx = .out
  pc : (s.thread p).pc = pc

/-- The step of a thread goes from one place to the next, and does nothing else. -/
inductive Plain (s : State C M D A) (c : C) (p : Slot) : Pc M D A → Pc M D A → Prop where
  | callFork : Plain s c p .user (.fork allSlots)
  | callWait (addr : Nat) : Plain s c p .user (.kwait addr)
  | callKill (pid : Int) : Plain s c p .user (.kill pid allSlots)
  | callAwait (m : M) (a : A) : Plain s c p .user (.await m a)
  | callSignal (m : M) (f : D → D) : Plain s c p .user (.sig (.signal m f))
  | fork {i : Slot} {rest : List Slot} : Plain s c p (.fork (i :: rest)) (.fork rest)
  | reparented {status : Int} :
    Plain s c p (.reparent status []) (.wakeParent status ((s.task p).parent.map .proc) allSlots)
  | notChild {status : Int} {pp : Slot} {rest : List Slot} (h : (s.task pp).parent ≠ some p) :
    Plain s c p (.reparent status (pp :: rest)) (.reparent status rest)
  | wokeInit {status : Int} {rest : List Slot} : Plain s c p (.reparentWake status rest []) (.reparent status rest)
  | skipInit {status : Int} {rest ws : List Slot} {j : Slot} (h : (s.cpu c).proc = some j) :
    Plain s c p (.reparentWake status rest (j :: ws)) (.reparentWake status rest ws)
  | wokeParent {status : Int} {ch : Option (Chan M)} : Plain s c p (.wakeParent status ch []) (.exitMark status)
  | skipParent {status : Int} {ch : Option (Chan M)} {ws : List Slot} {j : Slot} (h : (s.cpu c).proc = some j) :
    Plain s c p (.wakeParent status ch (j :: ws)) (.wakeParent status ch ws)
  | scan {addr : Nat} {k k' : Bool} {pp : Slot} {rest : List Slot}
    (h : (s.task pp).parent = some p → (s.task pp).state ≠ zombie) : Plain s c p (.scan addr k (pp :: rest)) (.scan addr k' rest)
  | scanned {addr : Nat} {k : Bool} : Plain s c p (.scan addr k []) (.scanned addr k)
  | kwaitSleep {addr : Nat} {k : Bool} (h : (s.task p).killed = false) : Plain s c p (.scanned addr k) (.sleep (.kwait addr))
  | kill {pid : Int} {i : Slot} {rest : List Slot} : Plain s c p (.kill pid (i :: rest)) (.kill pid rest)
  | loopSleep {m : M} {a : A} (h : (s.task p).killed = false) : Plain s c p (.testKilled m a) (.sleep (.mon m a))
  | skipNotify {m : M} {ws : List Slot} {j : Slot} (h : (s.cpu c).proc = some j) :
    Plain s c p (.sig (.notify m (j :: ws))) (.sig (.notify m ws))

/-- The loops of `wakeup` that a thread runs, at slot `j` and the channel they wake. -/
inductive Waking : Pc M D A → Option (Chan M) → Slot → Pc M D A → Prop where
  | init {status : Int} {rest ws : List Slot} {j : Slot} :
    Waking (.reparentWake status rest (j :: ws)) (some (.proc initproc)) j (.reparentWake status rest ws)
  | parent {status : Int} {ch : Option (Chan M)} {ws : List Slot} {j : Slot} :
    Waking (.wakeParent status ch (j :: ws)) ch j (.wakeParent status ch ws)
  | notify {m : M} {ws : List Slot} {j : Slot} : Waking (.sig (.notify m (j :: ws))) (some (.mon m)) j (.sig (.notify m ws))

/-- The calls that end without a change but the returned value. -/
inductive Ends : Pc M D A → Prop where
  | fork : Ends (.fork [])
  | kill (pid : Int) : Ends (.kill pid [])

/-- The places at which `wait_lock` is taken. -/
inductive LockWait : Pc M D A → Pc M D A → Prop where
  | exit (status : Int) : LockWait (.exit status) (.reparent status allSlots)
  | kwait (addr : Nat) : LockWait (.kwait addr) (.scan addr false allSlots)

/-- The places at which `kwait` returns without a child. -/
inductive Unwaited : Pc M D A → Prop where
  | scan {addr : Nat} {k : Bool} {rest : List Slot} : Unwaited (.scan addr k rest)
  | scanned {addr : Nat} {k : Bool} : Unwaited (.scanned addr k)

/-- The places at which the lock of a monitor is taken for a loop. -/
inductive LockLoop : Pc M D A → M → A → Prop where
  | await {m : M} (a b : A) : LockLoop (.await m a) m b
  | retry {m : M} {a : A} : LockLoop (.retry m a) m a

/-- The child of a `kfork` that succeeds, and the slot after one that fails. -/
theorem Task.kfork_cases (np p : Task M) (pid : Int) (fault : Fault) :
    np.kfork p pid fault = (((np.setProc ((np.toProc.allocproc pid).setName p.name)).setPages true true).setFiles
        (fun fd => p.ofile fd || np.ofile fd) p.cwd, true) ∨
      np.kfork p pid fault = ((np.setProc (np.toProc.allocproc pid)).freeproc, false) := by
  cases fault with
  | none | copyout => exact .inl rfl
  | trapframe | pagetable | uvmcopy => exact .inr rfl

variable [DecidableEq C] [DecidableEq M]

/-- The state after a waker's `signal` by `h`. -/
def State.signalled (pr : Protocol D A) (s : State C M D A) (h : Slot ⊕ C) (m : M) (f : D → D) : State C M D A :=
  { s with
    data := update s.data m (f (s.data m))
    held := update s.held m (some h)
    met := fun q => s.met q || (s.thread q).pc.loop.any fun w => w.1 = m && pr.ready w.2 (f (s.data m))
    inside := update s.inside m fun q => s.inside m q && h ≠ .inl q }

/-- The handler on CPU `c` goes on at `x`. -/
def State.setIrq (s : State C M D A) (c : C) (x : Option (Sig M D)) : State C M D A :=
  { s with cpu := update s.cpu c ⟨(s.cpu c).proc, (s.cpu c).mode, x⟩ }

/-- The third loop of `scheduler` comes to a slot. -/
def Aging (s : State C M D A) (c : C) (act : Act M D A) : Prop :=
  ∃ i rest chosen fault, (s.cpu c).mode = .age (i :: rest) chosen ∧ act = .step fault

/-- A step of CPU `c` that does `act`. -/
inductive Move (pr : Protocol D A) (s : State C M D A) (c : C) (act : Act M D A) : State C M D A → Prop where
  | look (task : Slot → Task M) (mode : Mode) (hirq : (s.cpu c).irq = none) (hmode : (s.cpu c).mode.idle = true)
    (hidle : mode.idle = true) (hsame : ∀ i, (s.task i).Same (task i)) (hticks : task = s.task ∨ Aging s c act) :
    Move pr s c act (State.setMode { s with task := task } c mode)
  | account (task : Slot → Task M) (hsame : ∀ i, (s.task i).Same (task i))
    (hticks : ∀ i, (task i).waitingTick = (s.task i).waitingTick) : Move pr s c act { s with task := task }
  | switchTo (p : Slot) (hirq : (s.cpu c).irq = none) (hmode : (s.cpu c).mode = .pick p) (hlock : s.lock p = none)
    (hstate : (s.task p).state = runnable) :
    Move pr s c act { s with
      task := update s.task p ((s.task p).setProc ((s.task p).toProc.setState running))
      lock := update s.lock p (some c)
      cpu := update s.cpu c ⟨some p, .running p, none⟩ }
  | back (p : Slot) (hirq : (s.cpu c).irq = none) (hmode : (s.cpu c).mode = .back p) :
    Move pr s c act (State.setMode { s with lock := update s.lock p none } c .top)
  | resume (p : Slot) (hirq : (s.cpu c).irq = none) (hmode : (s.cpu c).mode = .running p) (hctx : (s.thread p).ctx ≠ .out) :
    Move pr s c act (s.resumeStep p)
  | yield (p : Slot) (pc : Pc M D A) (hat : At s c p pc) (hpc : pc.interruptible = true) (hlock : s.lock p = none) :
    Move pr s c act { s with
      task := update s.task p ((s.task p).setProc ((s.task p).toProc.setState runnable))
      thread := update s.thread p ((s.thread p).leave .yield (s.thread p).pc)
      lock := update s.lock p (some c)
      cpu := update s.cpu c ⟨(s.cpu c).proc, .back p, none⟩ }
  | file (p : Slot) (hat : At s c p .user) (ofile : Fin NOFILE → Bool) :
    Move pr s c act { s with task := update s.task p ((s.task p).setFiles ofile (s.task p).cwd) }
  | plain (p : Slot) (pc pc' : Pc M D A) (hat : At s c p pc) (h : Plain s c p pc pc') : Move pr s c act (s.goto p pc')
  | ends (p : Slot) (pc : Pc M D A) (v : Int) (hat : At s c p pc) (h : Ends pc) : Move pr s c act (s.ret p v)
  | callExit (p : Slot) (status : Int) (hat : At s c p .user) (hinit : p ≠ initproc) :
    Move pr s c act (State.goto { s with task := update s.task p ((s.task p).setFiles (fun _ => false) false) } p (.exit status))
  | forked (p i : Slot) (rest : List Slot) (hat : At s c p (.fork (i :: rest))) (hlock : s.lock i = none)
    (hstate : (s.task i).state = unused) :
    Move pr s c act (State.goto { s with
      task := update s.task i ((((s.task i).setProc (((s.task i).toProc.allocproc s.nextpid).setName (s.task p).name)).setPages
        true true).setFiles (fun fd => (s.task p).ofile fd || (s.task i).ofile fd) (s.task p).cwd)
      thread := update s.thread i ⟨.user, .yield, 0⟩
      nextpid := intIncr s.nextpid
      allocated := s.allocated + 1 } p (.adopt i s.nextpid))
  | forkFailed (p i : Slot) (rest : List Slot) (hat : At s c p (.fork (i :: rest))) (hlock : s.lock i = none)
    (hstate : (s.task i).state = unused) :
    Move pr s c act (State.ret { s with
      task := update s.task i ((s.task i).setProc ((s.task i).toProc.allocproc s.nextpid)).freeproc
      nextpid := intIncr s.nextpid
      allocated := s.allocated + 1 } p (-1))
  | adopt (p np : Slot) (pid : Int) (hat : At s c p (.adopt np pid)) (hwait : s.wait = none) :
    Move pr s c act (State.goto { s with
      task := update s.task np ((s.task np).setProc ((s.task np).toProc.setParent (some p))) } p (.publish np pid))
  | publish (p np : Slot) (pid : Int) (hat : At s c p (.publish np pid)) (hlock : s.lock np = none) :
    Move pr s c act (State.ret { s with
      task := update s.task np ((s.task np).setProc ((s.task np).toProc.setState runnable)) } p pid)
  | lockWait (p : Slot) (pc pc' : Pc M D A) (hat : At s c p pc) (h : LockWait pc pc') (hwait : s.wait = none) :
    Move pr s c act (State.goto { s with wait := some p } p pc')
  | reparent (p pp : Slot) (status : Int) (rest : List Slot) (hat : At s c p (.reparent status (pp :: rest)))
    (hparent : (s.task pp).parent = some p) :
    Move pr s c act (State.goto { s with
      task := update s.task pp ((s.task pp).setProc ((s.task pp).toProc.setParent (some initproc))) } p
      (.reparentWake status rest allSlots))
  | wake (p j : Slot) (pc pc' : Pc M D A) (ch : Option (Chan M)) (hat : At s c p pc) (h : Waking pc ch j pc')
    (hproc : (s.cpu c).proc ≠ some j) (hlock : s.lock j = none) :
    Move pr s c act (State.goto { s with task := update s.task j ((s.task j).wakeup ch) } p pc')
  | exitMark (p : Slot) (status : Int) (hat : At s c p (.exitMark status)) (hlock : s.lock p = none) :
    Move pr s c act (State.goto { s with
      task := update s.task p (((s.task p).setXstate status).setProc ((s.task p).toProc.setState zombie))
      lock := update s.lock p (some c)
      cpu := update s.cpu c ⟨(s.cpu c).proc, .back p, none⟩
      wait := none
      exits := s.exits ++ [((s.task p).pid, status)] } p .dead)
  | reap (p pp : Slot) (addr : Nat) (k : Bool) (rest : List Slot) (hat : At s c p (.scan addr k (pp :: rest)))
    (hparent : (s.task pp).parent = some p) (hlock : s.lock pp = none) (hstate : (s.task pp).state = zombie) :
    Move pr s c act (State.ret { s with
      task := update s.task pp (s.task pp).freeproc
      wait := none
      reaps := s.reaps ++ [⟨p, (s.task pp).pid, if addr = 0 then none else some (s.task pp).xstate⟩] } p (s.task pp).pid)
  | unwaited (p : Slot) (pc : Pc M D A) (hat : At s c p pc) (h : Unwaited pc) :
    Move pr s c act (State.ret { s with wait := none } p (-1))
  | kill (p i : Slot) (pid : Int) (rest : List Slot) (hat : At s c p (.kill pid (i :: rest))) (hlock : s.lock i = none)
    (hpid : (s.task i).pid = pid) (hact : ∃ fault, act = .step fault) :
    Move pr s c act (State.ret { s with task := update s.task i ((s.task i).setProc (s.task i).toProc.kkill) } p 0)
  | lockLoop (p : Slot) (pc : Pc M D A) (m : M) (a : A) (hat : At s c p pc) (h : LockLoop pc m a) (hheld : s.held m = none) :
    Move pr s c act (State.goto { s with held := update s.held m (some (.inl p)) } p (.test m a))
  | pass (p : Slot) (m : M) (a b : A) (hat : At s c p (.test m a)) (hready : pr.ready a (s.data m) = true)
    (hnext : (pr.pass a (s.data m)).2 = some b) :
    Move pr s c act (State.goto { s with data := update s.data m (pr.pass a (s.data m)).1 } p (.test m b))
  | passed (p : Slot) (m : M) (a : A) (hat : At s c p (.test m a)) (hready : pr.ready a (s.data m) = true) :
    Move pr s c act (State.ret { s with
      data := update s.data m (pr.pass a (s.data m)).1
      held := update s.held m none
      inside := update s.inside m (update (s.inside m) p true) } p 0)
  | unready (p : Slot) (m : M) (a : A) (hat : At s c p (.test m a)) (hready : pr.ready a (s.data m) = false) :
    Move pr s c act (State.goto { s with met := update s.met p false } p
      (if pr.killable a then .testKilled m a else .sleep (.mon m a)))
  | loopKilled (p : Slot) (m : M) (a : A) (hat : At s c p (.testKilled m a)) :
    Move pr s c act (State.ret { s with held := update s.held m none } p (-1))
  | sleepLock (p : Slot) (w : Wait M A) (hat : At s c p (.sleep w)) (hlock : s.lock p = none) :
    Move pr s c act (State.goto { s with lock := update s.lock p (some c) } p (.sleepLocked w))
  | sleepRelease (p : Slot) (w : Wait M A) (hat : At s c p (.sleepLocked w)) : Move pr s c act ((s.releaseLk w).goto p (.sleepReleased w))
  | asleep (p : Slot) (w : Wait M A) (hat : At s c p (.sleepReleased w)) :
    Move pr s c act { s with
      task := update s.task p (((s.task p).setChan (some (w.chan p))).setProc ((s.task p).toProc.setState sleeping))
      thread := update s.thread p ((s.thread p).leave .sleep w.again)
      cpu := update s.cpu c ⟨(s.cpu c).proc, .back p, none⟩ }
  | signal (p : Slot) (m : M) (f : D → D) (hat : At s c p (.sig (.signal m f))) (hheld : s.held m = none) :
    Move pr s c act ((s.signalled pr (.inl p) m f).goto p (.sig (.notify m allSlots)))
  | notified (p : Slot) (m : M) (hat : At s c p (.sig (.notify m []))) :
    Move pr s c act (State.ret { s with held := update s.held m none } p 0)
  | intr (m : M) (f : D → D) (hirq : (s.cpu c).irq = none)
    (h : (s.cpu c).mode = .top ∨ ∃ p, (s.cpu c).mode = .running p ∧ (s.thread p).ctx = .out ∧ (s.thread p).pc.interruptible = true)
    (hact : act = .irq m f) : Move pr s c act (s.setIrq c (some (.signal m f)))
  | intrSignal (m : M) (f : D → D) (hirq : (s.cpu c).irq = some (.signal m f)) (hheld : s.held m = none) :
    Move pr s c act ((s.signalled pr (.inr c) m f).setIrq c (some (.notify m allSlots)))
  | intrSkip (m : M) (j : Slot) (ws : List Slot) (hirq : (s.cpu c).irq = some (.notify m (j :: ws))) (hproc : (s.cpu c).proc = some j) :
    Move pr s c act (s.setIrq c (some (.notify m ws)))
  | intrWake (m : M) (j : Slot) (ws : List Slot) (hirq : (s.cpu c).irq = some (.notify m (j :: ws)))
    (hproc : (s.cpu c).proc ≠ some j) (hlock : s.lock j = none) :
    Move pr s c act (State.setIrq { s with task := update s.task j ((s.task j).wakeup (some (.mon m))) } c (some (.notify m ws)))
  | intrDone (m : M) (hirq : (s.cpu c).irq = some (.notify m [])) :
    Move pr s c act (State.setIrq { s with held := update s.held m none } c none)

section inversion

variable {pr : Protocol D A} {eco : EcoMode} {s t : State C M D A} {c : C} {act : Act M D A} {p : Slot} {pc : Pc M D A}
  {ch : Option (Chan M)} {x : Sig M D} {j : Slot} (fault : Fault)

omit [DecidableEq C] in
/-- What `wakeup` does at a slot: it passes over the CPU's own process, and takes the lock of any other. -/
theorem State.wakeupAt_cases {task : Slot → Task M} (h : s.wakeupAt c ch j = some task) :
    ((s.cpu c).proc = some j ∧ task = s.task) ∨
      ((s.cpu c).proc ≠ some j ∧ s.lock j = none ∧ task = update s.task j ((s.task j).wakeup ch)) := by
  unfold State.wakeupAt at h
  split at h
  · exact .inl ⟨‹_›, (some.inj h).symm⟩
  · split at h
    · exact .inr ⟨‹_›, ‹_›, (some.inj h).symm⟩
    · cases h

theorem Move.of_forkStep (hat : At s c p pc) (h : s.forkStep p fault pc = some t) : Move pr s c act t := by
  unfold State.forkStep at h
  split at h
  · cases h
    exact .ends p _ _ hat .fork
  · rename_i i rest
    split at h
    · rename_i hlock
      split at h
      · rename_i hstate
        rcases Task.kfork_cases (s.task i) (s.task p) s.nextpid fault with hk | hk
        · rw [hk] at h
          cases h
          exact .forked p i rest hat hlock hstate
        · rw [hk] at h
          cases h
          exact .forkFailed p i rest hat hlock hstate
      · cases h
        exact .plain p _ _ hat .fork
    · cases h
  · rename_i np pid
    split at h
    · cases h
      exact .adopt p np pid hat ‹_›
    · cases h
  · rename_i np pid
    split at h
    · cases h
      exact .publish p np pid hat ‹_›
    · cases h
  · cases h

theorem Move.of_wakeupAt {pc pc' : Pc M D A} (hat : At s c p pc) (hw : Waking pc ch j pc')
    (hskip : (s.cpu c).proc = some j → Plain s c p pc pc')
    (h : (s.wakeupAt c ch j).map (fun task => State.goto { s with task := task } p pc') = some t) : Move pr s c act t := by
  obtain ⟨task, htask, rfl⟩ := map_eq_some_iff.1 h
  rcases State.wakeupAt_cases htask with ⟨hproc, rfl⟩ | ⟨hproc, hlock, rfl⟩
  · exact .plain p pc pc' hat (hskip hproc)
  · exact .wake p j pc pc' ch hat hw hproc hlock

section

variable (hat : At s c p pc)

include hat

theorem Move.of_exitStep (h : s.exitStep c p pc = some t) : Move pr s c act t := by
  unfold State.exitStep at h
  split at h
  · split at h
    · cases h
      exact .lockWait p _ _ hat (.exit _) ‹_›
    · cases h
  · cases h
    exact .plain p _ _ hat .reparented
  · rename_i status pp rest
    split at h
    · cases h
      exact .reparent p pp status rest hat ‹_›
    · cases h
      exact .plain p _ _ hat (.notChild ‹_›)
  · cases h
    exact .plain p _ _ hat .wokeInit
  · exact .of_wakeupAt hat .init .skipInit h
  · cases h
    exact .plain p _ _ hat .wokeParent
  · exact .of_wakeupAt hat .parent .skipParent h
  · split at h
    · cases h
      exact .exitMark p _ hat ‹_›
    · cases h
  · cases h

theorem Move.of_kwaitStep (h : s.kwaitStep p fault pc = some t) : Move pr s c act t := by
  unfold State.kwaitStep at h
  split at h
  · split at h
    · cases h
      exact .lockWait p _ _ hat (.kwait _) ‹_›
    · cases h
  · cases h
    exact .plain p _ _ hat .scanned
  · rename_i addr k pp rest
    split at h
    · rename_i hparent
      split at h
      · rename_i hlock
        split at h
        · rename_i hstate
          split at h
          · cases h
            exact .unwaited p _ hat .scan
          · cases h
            exact .reap p pp addr k rest hat hparent hlock hstate
        · rename_i hstate
          cases h
          exact .plain p _ _ hat (.scan fun _ => hstate)
      · cases h
    · rename_i hparent
      cases h
      exact .plain p _ _ hat (.scan fun hp => absurd hp hparent)
  · split at h
    · cases h
      exact .unwaited p _ hat .scanned
    · split at h
      · split at h
        · cases h
          exact .unwaited p _ hat .scanned
        · rename_i hkilled
          cases h
          exact .plain p _ _ hat (.kwaitSleep (Bool.eq_false_iff.2 hkilled))
      · cases h
  · cases h

theorem Move.of_killStep (hact : ∃ fault, act = .step fault) (h : s.killStep p pc = some t) : Move pr s c act t := by
  unfold State.killStep at h
  split at h
  · cases h
    exact .ends p _ _ hat (.kill _)
  · rename_i pid i rest
    split at h
    · split at h
      · cases h
        exact .kill p i pid rest hat ‹_› ‹_› hact
      · cases h
        exact .plain p _ _ hat .kill
    · cases h
  · cases h

theorem Move.of_loopStep (h : s.loopStep pr p pc = some t) : Move pr s c act t := by
  unfold State.loopStep at h
  split at h
  · split at h
    · cases h
      exact .lockLoop p _ _ _ hat (.await _ _) ‹_›
    · cases h
  · split at h
    · cases h
      exact .lockLoop p _ _ _ hat .retry ‹_›
    · cases h
  · rename_i m a
    split at h
    · rename_i hready
      split at h
      · cases h
        exact .pass p m a _ hat hready ‹_›
      · cases h
        exact .passed p m a hat hready
    · rename_i hready
      cases h
      exact .unready p m a hat (Bool.eq_false_iff.2 hready)
  · rename_i m a
    split at h
    · split at h
      · cases h
        exact .loopKilled p m a hat
      · rename_i hkilled
        cases h
        exact .plain p _ _ hat (.loopSleep (Bool.eq_false_iff.2 hkilled))
    · cases h
  · cases h

theorem Move.of_sleepStep (h : s.sleepStep c p pc = some t) : Move pr s c act t := by
  unfold State.sleepStep at h
  split at h
  · split at h
    · cases h
      exact .sleepLock p _ hat ‹_›
    · cases h
  · cases h
    exact .sleepRelease p _ hat
  · cases h
    exact .asleep p _ hat
  · cases h

end

/-- What one step of a waker does. -/
theorem State.sigStep_cases {h : Slot ⊕ C} {r : State C M D A × Option (Sig M D)} (hstep : s.sigStep pr c h x = some r) :
    (∃ m f, x = .signal m f ∧ s.held m = none ∧ r = (s.signalled pr h m f, some (.notify m allSlots))) ∨
      (∃ m, x = .notify m [] ∧ r = ({ s with held := update s.held m none }, none)) ∨
      (∃ m j ws, x = .notify m (j :: ws) ∧ (s.cpu c).proc = some j ∧ r = (s, some (.notify m ws))) ∨
      ∃ m j ws, x = .notify m (j :: ws) ∧ (s.cpu c).proc ≠ some j ∧ s.lock j = none ∧
        r = ({ s with task := update s.task j ((s.task j).wakeup (some (.mon m))) }, some (.notify m ws)) := by
  unfold State.sigStep at hstep
  split at hstep
  · split at hstep
    · exact .inl ⟨_, _, rfl, ‹_›, (some.inj hstep).symm⟩
    · cases hstep
  · exact .inr (.inl ⟨_, rfl, (some.inj hstep).symm⟩)
  · rename_i m j ws
    obtain ⟨task, htask, rfl⟩ := map_eq_some_iff.1 hstep
    rcases State.wakeupAt_cases htask with ⟨hproc, rfl⟩ | ⟨hproc, hlock, rfl⟩
    · exact .inr (.inr (.inl ⟨m, j, ws, rfl, hproc, rfl⟩))
    · exact .inr (.inr (.inr ⟨m, j, ws, rfl, hproc, hlock, rfl⟩))

theorem Move.of_sigThread (hat : At s c p (.sig x)) (h : s.sigThread pr c p x = some t) : Move pr s c act t := by
  unfold State.sigThread at h
  split at h
  · rename_i hr
    rcases State.sigStep_cases hr with ⟨m, f, rfl, hheld, h'⟩ | ⟨m, rfl, h'⟩ | ⟨m, j, ws, rfl, hproc, h'⟩ | ⟨m, j, ws, rfl, hproc, hlock, h'⟩
    · obtain ⟨rfl, hy⟩ := Prod.mk.inj h'
      cases hy
      exact some.inj h ▸ .signal p m f hat hheld
    · cases (Prod.mk.inj h').2
    · obtain ⟨rfl, hy⟩ := Prod.mk.inj h'
      cases hy
      exact some.inj h ▸ .plain p _ _ hat (.skipNotify hproc)
    · obtain ⟨rfl, hy⟩ := Prod.mk.inj h'
      cases hy
      exact some.inj h ▸ .wake p j _ _ _ hat .notify hproc hlock
  · rename_i hr
    rcases State.sigStep_cases hr with ⟨m, f, rfl, hheld, h'⟩ | ⟨m, rfl, h'⟩ | ⟨m, j, ws, rfl, hproc, h'⟩ | ⟨m, j, ws, rfl, hproc, hlock, h'⟩
    · cases (Prod.mk.inj h').2
    · obtain ⟨rfl, -⟩ := Prod.mk.inj h'
      exact some.inj h ▸ .notified p m hat
    · cases (Prod.mk.inj h').2
    · cases (Prod.mk.inj h').2
  · cases h

theorem Move.of_threadStep {fault : Fault} (hat : At s c p pc) (hact : ∃ fault, act = .step fault)
    (h : s.threadStep pr c p fault pc = some t) : Move pr s c act t := by
  cases pc with
  | fork | adopt | publish => exact .of_forkStep fault hat h
  | exit | reparent | reparentWake | wakeParent | exitMark => exact .of_exitStep hat h
  | kwait | scan | scanned => exact .of_kwaitStep fault hat h
  | kill => exact .of_killStep hat hact h
  | await | retry | test | testKilled => exact .of_loopStep hat h
  | sleep | sleepLocked | sleepReleased => exact .of_sleepStep hat h
  | sig => exact .of_sigThread hat h
  | user | dead => cases h

theorem Move.of_callStep {x : Syscall M D A} (hat : At s c p .user) (h : s.callStep p x = some t) : Move pr s c act t := by
  cases x with
  | fork => exact some.inj h ▸ .plain p _ _ hat .callFork
  | exit status =>
    simp only [State.callStep] at h
    split at h
    · cases h
    · cases h
      exact .callExit p status hat ‹_›
  | wait addr => exact some.inj h ▸ .plain p _ _ hat (.callWait addr)
  | kill pid => exact some.inj h ▸ .plain p _ _ hat (.callKill pid)
  | await m a => exact some.inj h ▸ .plain p _ _ hat (.callAwait m a)
  | signal m f => exact some.inj h ▸ .plain p _ _ hat (.callSignal m f)
  | file => exact some.inj h ▸ .file p hat _
  | exec name => exact some.inj h ▸ .account _ (Task.Same.update (.setName _ name)) (Task.waitingTick_update rfl)
  | setquota quota =>
    simp only [State.callStep] at h
    split at h
    · cases h
      exact .account _ (Task.Same.update (.setquota _ quota)) (Task.waitingTick_update (Proc.waitingTick_setquota _ quota))
    · cases h
  | tick =>
    simp only [State.callStep] at h
    split at h
    · cases h
      exact .account _ (Task.Same.update (.charge _)) (Task.waitingTick_update (Proc.waitingTick_charge _))
    · cases h

theorem Move.of_runStep (hirq : (s.cpu c).irq = none) (hmode : (s.cpu c).mode = .running p)
    (h : s.runStep pr c p act = some t) : Move pr s c act t := by
  cases act with
  | step fault =>
    simp only [State.runStep] at h
    split at h
    · exact .of_threadStep ⟨hirq, hmode, ‹_›, rfl⟩ ⟨fault, rfl⟩ h
    · cases h
      exact .resume p hirq hmode ‹_›
  | call =>
    simp only [State.runStep] at h
    split at h
    · split at h
      · exact .of_callStep ⟨hirq, hmode, ‹_›, ‹_›⟩ h
      · cases h
    · cases h
  | yield =>
    simp only [State.runStep] at h
    split at h
    · rename_i hpc
      unfold State.yieldStep at h
      split at h
      · cases h
        exact .yield p _ ⟨hirq, hmode, hpc.1, rfl⟩ hpc.2 ‹_›
      · cases h
    · cases h
  | irq m f =>
    simp only [State.runStep] at h
    split at h
    · rename_i hpc
      cases h
      exact .intr m f hirq (.inr ⟨p, hmode, hpc.1, hpc.2⟩) rfl
    · cases h
  | reset => cases h

theorem Move.of_schedStep (hirq : (s.cpu c).irq = none) (h : s.schedStep eco c (s.cpu c).mode = some t) :
    Move pr s c (.step fault) t := by
  generalize hmode : (s.cpu c).mode = mode at h
  have look : ∀ mode', (s.cpu c).mode.idle = true → mode'.idle = true → Move pr s c (.step fault) (s.setMode c mode') := fun mode' hi hi' =>
    .look s.task mode' hirq hi hi' (fun i => .refl _) (.inl rfl)
  unfold State.schedStep at h
  split at h
  · exact some.inj h ▸ look _ (hmode ▸ rfl) rfl
  · exact some.inj h ▸ look _ (hmode ▸ rfl) rfl
  · split at h
    · exact some.inj h ▸ look _ (hmode ▸ rfl) rfl
    · cases h
  · exact some.inj h ▸ look _ (hmode ▸ rfl) rfl
  · split at h
    · refine some.inj h ▸ look _ (hmode ▸ rfl) ?_
      split
      · rfl
      · rfl
    · cases h
  · exact some.inj h ▸ look _ (hmode ▸ rfl) rfl
  · split at h
    · refine some.inj h ▸ .look _ _ hirq (hmode ▸ rfl) rfl ?_ (.inr ⟨_, _, _, fault, hmode, rfl⟩)
      split
      · exact Task.Same.update (.waited _ eco)
      · exact fun i => .refl _
    · cases h
  · rename_i chosen
    split at h
    · rename_i hlock
      split at h
      · rename_i hel
        cases h
        simp only [Proc.eligible, Bool.and_eq_true, decide_eq_true_eq] at hel
        exact .switchTo chosen hirq hmode hlock hel.1
      · exact some.inj h ▸ look _ (hmode ▸ rfl) rfl
    · cases h
  · exact some.inj h ▸ .back _ hirq hmode
  · cases h

/-- Every step of the kernel is a move. -/
theorem Move.of_step {l : Label C M D A} (h : s.step pr eco l = some t) : Move pr s l.cpu l.act t := by
  unfold State.step at h
  split at h
  · rename_i hirq _
    obtain ⟨r, hr, rfl⟩ := map_eq_some_iff.1 h
    rcases State.sigStep_cases hr with ⟨m, f, rfl, hheld, rfl⟩ | ⟨m, rfl, rfl⟩ | ⟨m, j, ws, rfl, hproc, rfl⟩ |
      ⟨m, j, ws, rfl, hproc, hlock, rfl⟩
    · exact .intrSignal m f hirq hheld
    · exact .intrDone m hirq
    · exact .intrSkip m j ws hirq hproc
    · exact .intrWake m j ws hirq hproc hlock
  · cases h
  · exact .of_runStep ‹_› ‹_› h
  · rename_i fault hirq hact _
    rw [hact]
    exact .of_schedStep fault hirq h
  · rename_i m f hirq _ _
    split at h
    · cases h
      exact .intr m f hirq (.inl ‹_›) ‹_›
    · cases h
  · split at h
    · cases h
      exact .account _ (Task.Same.update (.resetCpuQuota _)) (Task.waitingTick_update (Proc.waitingTick_resetCpuQuota _))
    · cases h
  · cases h

end inversion

end Xv6.Threads
