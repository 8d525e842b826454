import Xv6.Sched

/-!
# Kernel threads on many CPUs

`kfork`, `kexit`, `kwait`, `kkill`, `sleep`, `wakeup`, `yield` and `scheduler` as they interleave on any number of CPUs, at the grain
of `p->lock` and `wait_lock`: a section of code under one `p->lock` is one step, taken only when the lock is free, and a lock that is
held across steps (`wait_lock` in `kexit` and `kwait`, a condition lock, `p->lock` from `sched` to the scheduler's `release` and back)
is a field of the state. A CPU is in the loop of `scheduler` or runs the kernel thread of a process; the thread's place in the
kernel is kept with the slot, as its kernel stack is, so nothing here keeps two CPUs from running one thread.

A timer interrupt can make a thread that holds no lock call `yield`, and a device interrupt can run a waker on a CPU whose thread
holds no lock. The loops `while(condition false) sleep(chan, lk)` other than `kwait`'s are given by a `Protocol`.
-/

namespace Xv6

open Function

namespace Proc

@[simps] def setState (p : Proc) (st : ProcState) : Proc := { p with state := st }

@[simps] def setParent (p : Proc) (parent : Option (Fin NPROC)) : Proc := { p with parent := parent }

@[simps] def setName (p : Proc) (name : List Char) : Proc := { p with name := name }

@[simps] def setWaitingTick (p : Proc) (n : Int) : Proc := { p with waitingTick := n }

end Proc

namespace Threads

abbrev Slot := Fin NPROC

/-- The process table in the order in which every loop goes through it. -/
def allSlots : List Slot := List.finRange NPROC

/-- `userinit` allocates the first slot. -/
def initproc : Slot := slot0

/-- The loops `acquire(lk); while(condition false) sleep(chan, lk)` over data of type `D` that `lk` protects. An `A` says which loop
a thread is in and what its condition is: `start` is what the code between `acquire` and the loop makes of it, `pass` what is done to
the data when the condition is true, with the next loop if the thread goes on holding `lk`. No thread's `pass` makes the condition
of another true: who does that has to call `wakeup`. -/
structure Protocol (D A : Type) where
  start : A → D → A
  ready : A → D → Bool
  pass : A → D → D × Option A
  killable : A → Bool
  quiet : ∀ a b d, ready a d = true → ready b d = false → ready b (pass a d).1 = false

/-- What a process sleeps on: `kwait` sleeps on the process itself, a loop of the protocol on its monitor. -/
inductive Chan (M : Type) where
  | proc (p : Slot)
  | mon (m : M)
  deriving DecidableEq

/-- `struct proc`: the fields of `Proc`, the channel, the exit status and what the process owns. -/
structure Task (M : Type) extends Proc where
  chan : Option (Chan M)
  xstate : Int
  trapframe : Bool
  pagetable : Bool
  ofile : Fin NOFILE → Bool
  cwd : Bool

/-- Where `kalloc` or `copyout` fails in a step, if it does. -/
inductive Fault where
  | none | trapframe | pagetable | uvmcopy | copyout
  deriving DecidableEq

namespace Task

variable {M : Type}

@[simps toProc chan xstate trapframe pagetable ofile cwd] def setProc (t : Task M) (p : Proc) : Task M := { t with toProc := p }

@[simps toProc chan xstate trapframe pagetable ofile cwd] def setPages (t : Task M) (trapframe pagetable : Bool) : Task M := { t with trapframe := trapframe, pagetable := pagetable }

@[simps toProc chan xstate trapframe pagetable ofile cwd] def setFiles (t : Task M) (ofile : Fin NOFILE → Bool) (cwd : Bool) : Task M := { t with ofile := ofile, cwd := cwd }

@[simps toProc chan xstate trapframe pagetable ofile cwd] def setChan (t : Task M) (ch : Option (Chan M)) : Task M := { t with chan := ch }

@[simps toProc chan xstate trapframe pagetable ofile cwd] def setXstate (t : Task M) (status : Int) : Task M := { t with xstate := status }

@[simps toProc chan xstate trapframe pagetable ofile cwd] def freeproc (t : Task M) : Task M :=
  { t with toProc := t.toProc.freeproc, chan := none, xstate := 0, trapframe := false, pagetable := false }

/-- The part of `allocproc` after `found:`, and whether it succeeds. -/
def allocproc (t : Task M) (pid : Int) (fault : Fault) : Task M × Bool :=
  let found := t.setProc (t.toProc.allocproc pid)
  match fault with
  | .trapframe => ((found.setPages false t.pagetable).freeproc, false)
  | .pagetable => ((found.setPages true false).freeproc, false)
  | _ => (found.setPages true true, true)

/-- `kfork` on the child's slot, from `found:` of `allocproc` to the first `release(&np->lock)`, and whether it succeeds. -/
def kfork (np p : Task M) (pid : Int) (fault : Fault) : Task M × Bool :=
  match np.allocproc pid fault with
  | (np, false) => (np, false)
  | (np, true) =>
    if fault = .uvmcopy then (np.freeproc, false)
    else ((np.setFiles (fun fd => p.ofile fd || np.ofile fd) p.cwd).setProc (np.toProc.setName p.name), true)

/-- `wakeup(chan)` at this slot. -/
def wakeup [DecidableEq M] (t : Task M) (ch : Option (Chan M)) : Task M := if t.chan = ch then t.setProc t.toProc.wakeup else t

/-- The part of the third loop of `scheduler` under `p->lock`. -/
def waited (t : Task M) (eco : EcoMode) : Task M :=
  if t.toProc.eligible eco then t.setProc (t.toProc.setWaitingTick (intIncr t.waitingTick)) else t

end Task

/-- `kkill(pid)` over the slots still to come, when nobody else changes the table: the table then, and the value returned. -/
def kkill {M : Type} (pid : Int) (task : Slot → Task M) : List Slot → (Slot → Task M) × Int
  | [] => (task, -1)
  | i :: rest =>
    if (task i).pid = pid then (update task i ((task i).setProc (task i).toProc.kkill), 0) else kkill pid task rest

/-- A waker: `acquire(lk)`, the change that makes conditions true, and `wakeup(chan)` at the slots still to come. -/
inductive Sig (M D : Type) where
  | signal (m : M) (f : D → D)
  | notify (m : M) (ws : List Slot)

/-- The loop from which a thread calls `sleep`. -/
inductive Wait (M A : Type) where
  | kwait (addr : Nat)
  | mon (m : M) (a : A)

/-- Where a thread is in the kernel; a list holds the slots that a loop has still to come to. -/
inductive Pc (M D A : Type) where
  | user
  | fork (rest : List Slot)
  | adopt (np : Slot) (pid : Int)
  | publish (np : Slot) (pid : Int)
  | exit (status : Int)
  | reparent (status : Int) (rest : List Slot)
  | reparentWake (status : Int) (rest ws : List Slot)
  | wakeParent (status : Int) (ch : Option (Chan M)) (ws : List Slot)
  | exitMark (status : Int)
  | dead
  | kwait (addr : Nat)
  | scan (addr : Nat) (havekids : Bool) (rest : List Slot)
  | scanned (addr : Nat) (havekids : Bool)
  | kill (pid : Int) (rest : List Slot)
  | await (m : M) (a : A)
  | retry (m : M) (a : A)
  | test (m : M) (a : A)
  | testKilled (m : M) (a : A)
  | sleep (w : Wait M A)
  | sleepLocked (w : Wait M A)
  | sleepReleased (w : Wait M A)
  | sig (x : Sig M D)

/-- What `p->chan` is in `sleep`. -/
def Wait.chan {M A : Type} (p : Slot) : Wait M A → Chan M
  | .kwait _ => .proc p
  | .mon m _ => .mon m

/-- Where a thread goes on after `sleep`: at `acquire(lk)`. -/
def Wait.again {M D A : Type} : Wait M A → Pc M D A
  | .kwait addr => .kwait addr
  | .mon m a => .retry m a

/-- Whether a thread is inside `sched`: called from `yield` (or not yet past `forkret`), or from `sleep`. -/
inductive Ctx where
  | out | yield | sleep
  deriving DecidableEq

/-- A kernel thread: its place, and the value its last system call returned. -/
structure Thread (M D A : Type) where
  pc : Pc M D A
  ctx : Ctx
  a0 : Int

namespace Thread

variable {M D A : Type}

@[simps] def goto (th : Thread M D A) (pc : Pc M D A) : Thread M D A := { th with pc := pc }

@[simps] def ret (th : Thread M D A) (v : Int) : Thread M D A := { th with pc := .user, a0 := v }

/-- In `sched`, to go on at `pc` after it. -/
@[simps] def leave (th : Thread M D A) (ctx : Ctx) (pc : Pc M D A) : Thread M D A := { th with pc := pc, ctx := ctx }

@[simps] def resume (th : Thread M D A) : Thread M D A := { th with ctx := .out }

end Thread

/-- Where a CPU is in `scheduler`: in one of its three loops, before `acquire(&chosen->lock)`, switched to the chosen process, or back
from it. -/
inductive Mode where
  | first (rest : List Slot) (chosen : Option Slot)
  | second (rest : List Slot)
  | age (rest : List Slot) (chosen : Slot)
  | pick (chosen : Slot)
  | running (chosen : Slot)
  | back (chosen : Slot)
  deriving DecidableEq

/-- The head of the loop of `scheduler`. -/
def Mode.top : Mode := .first allSlots none

/-- `struct cpu`, with the place of its scheduler and of an interrupt handler that runs on it. -/
structure Cpu (M D : Type) where
  proc : Option Slot
  mode : Mode
  irq : Option (Sig M D)

/-- A `freeproc` of a `ZOMBIE` by `kwait`: who called it, the pid it returns and the status it copies out. -/
structure Reap where
  parent : Slot
  pid : Int
  status : Option Int
  deriving DecidableEq

/-- The kernel. `held` says who holds the lock of a monitor: a thread or an interrupt handler. The last five fields are history: the
number of pids allocated, the pid and status of each exit, each `freeproc` of a `ZOMBIE`, whether a thread's condition became true
after the thread last tested it, and who is between a completed loop on a monitor and its next `signal` there. -/
structure State (C M D A : Type) where
  task : Slot → Task M
  thread : Slot → Thread M D A
  lock : Slot → Option C
  cpu : C → Cpu M D
  wait : Option Slot
  data : M → D
  held : M → Option (Slot ⊕ C)
  nextpid : Int
  allocated : Nat
  exits : List (Int × Int)
  reaps : List Reap
  met : Slot → Bool
  inside : M → Slot → Bool

/-- What a thread does from user space: a system call, a change of its own files or name, or the section of `usertrap` that charges a
timer tick. -/
inductive Syscall (M D A : Type) where
  | fork
  | exit (status : Int)
  | wait (addr : Nat)
  | kill (pid : Int)
  | await (m : M) (a : A)
  | signal (m : M) (f : D → D)
  | file (fd : Fin NOFILE) (f : Bool)
  | exec (name : List Char)
  | setquota (quota : Int)
  | tick

/-- What the CPU does next: goes on where it is, starts a system call, yields after a timer interrupt, takes a device interrupt, or
resets the quota of a slot at the head of the loop of `scheduler`. -/
inductive Act (M D A : Type) where
  | step (fault : Fault)
  | call (x : Syscall M D A)
  | yield
  | irq (m : M) (f : D → D)
  | reset (i : Slot)

structure Label (C M D A : Type) where
  cpu : C
  act : Act M D A

/-- A thread that holds no lock can be interrupted. -/
def Pc.interruptible {M D A : Type} : Pc M D A → Bool
  | .user | .fork _ | .adopt _ _ | .publish _ _ | .exit _ | .kwait _ | .kill _ _ | .await _ _ | .retry _ _ | .sig (.signal _ _) => true
  | _ => false

/-- The loop of the protocol that a thread is in, with the condition it tests there. -/
def Pc.loop {M D A : Type} : Pc M D A → Option (M × A)
  | .retry m a | .test m a | .testKilled m a | .sleep (.mon m a) | .sleepLocked (.mon m a) | .sleepReleased (.mon m a) => some (m, a)
  | _ => none

namespace State

variable {C M D A : Type}

/-- The thread of `p` goes to another place. -/
@[simps -fullyApplied] def goto (s : State C M D A) (p : Slot) (pc : Pc M D A) : State C M D A :=
  { s with thread := update s.thread p ((s.thread p).goto pc) }

/-- The system call of `p` returns. -/
@[simps -fullyApplied] def ret (s : State C M D A) (p : Slot) (v : Int) : State C M D A :=
  { s with thread := update s.thread p ((s.thread p).ret v) }

variable [DecidableEq C] [DecidableEq M]

/-- The body of the loop of `wakeup(ch)` at slot `j`, on CPU `c`. -/
def wakeupAt (s : State C M D A) (c : C) (ch : Option (Chan M)) (j : Slot) : Option (Slot → Task M) :=
  if (s.cpu c).proc = some j then some s.task
  else if s.lock j = none then some (update s.task j ((s.task j).wakeup ch))
  else none

/-- A step of `kfork`. -/
def forkStep (s : State C M D A) (p : Slot) (fault : Fault) : Pc M D A → Option (State C M D A)
  | .fork [] => some (s.ret p (-1))
  | .fork (i :: rest) =>
    if s.lock i = none then
      if (s.task i).state = .unused then
        let (np, ok) := (s.task i).kfork (s.task p) s.nextpid fault
        let s' := { s with task := update s.task i np, nextpid := intIncr s.nextpid, allocated := s.allocated + 1 }
        if ok then
          some (State.goto { s' with thread := update s.thread i ⟨.user, .yield, 0⟩ } p (.adopt i s.nextpid))
        else some (s'.ret p (-1))
      else some (s.goto p (.fork rest))
    else none
  | .adopt np pid =>
    if s.wait = none then
      some (State.goto { s with task := update s.task np ((s.task np).setProc ((s.task np).toProc.setParent (some p))) } p (.publish np pid))
    else none
  | .publish np pid =>
    if s.lock np = none then
      some (State.ret { s with task := update s.task np ((s.task np).setProc ((s.task np).toProc.setState .runnable)) } p pid)
    else none
  | _ => none

/-- A step of `kexit` after the files are closed. `p->lock` is held from `ZOMBIE` until the scheduler releases it. -/
def exitStep (s : State C M D A) (c : C) (p : Slot) : Pc M D A → Option (State C M D A)
  | .exit status => if s.wait = none then some (State.goto { s with wait := some p } p (.reparent status allSlots)) else none
  | .reparent status [] => some (s.goto p (.wakeParent status ((s.task p).parent.map .proc) allSlots))
  | .reparent status (pp :: rest) =>
    if (s.task pp).parent = some p then
      some (State.goto { s with task := update s.task pp ((s.task pp).setProc ((s.task pp).toProc.setParent (some initproc))) } p
        (.reparentWake status rest allSlots))
    else some (s.goto p (.reparent status rest))
  | .reparentWake status rest [] => some (s.goto p (.reparent status rest))
  | .reparentWake status rest (j :: ws) =>
    (s.wakeupAt c (some (.proc initproc)) j).map fun task => State.goto { s with task := task } p (.reparentWake status rest ws)
  | .wakeParent status _ [] => some (s.goto p (.exitMark status))
  | .wakeParent status ch (j :: ws) =>
    (s.wakeupAt c ch j).map fun task => State.goto { s with task := task } p (.wakeParent status ch ws)
  | .exitMark status =>
    if s.lock p = none then
      some (State.goto { s with
        task := update s.task p (((s.task p).setXstate status).setProc ((s.task p).toProc.setState .zombie))
        lock := update s.lock p (some c)
        cpu := update s.cpu c ⟨(s.cpu c).proc, .back p, none⟩
        wait := none
        exits := s.exits ++ [((s.task p).pid, status)] } p .dead)
    else none
  | _ => none

/-- A step of `kwait` up to its call of `sleep`. -/
def kwaitStep (s : State C M D A) (p : Slot) (fault : Fault) : Pc M D A → Option (State C M D A)
  | .kwait addr => if s.wait = none then some (State.goto { s with wait := some p } p (.scan addr false allSlots)) else none
  | .scan addr havekids [] => some (s.goto p (.scanned addr havekids))
  | .scan addr havekids (pp :: rest) =>
    if (s.task pp).parent = some p then
      if s.lock pp = none then
        if (s.task pp).state = .zombie then
          if addr ≠ 0 ∧ fault = .copyout then some (State.ret { s with wait := none } p (-1))
          else
            some (State.ret { s with
              task := update s.task pp (s.task pp).freeproc
              wait := none
              reaps := s.reaps ++ [⟨p, (s.task pp).pid, if addr = 0 then none else some (s.task pp).xstate⟩] } p
              (s.task pp).pid)
        else some (s.goto p (.scan addr true rest))
      else none
    else some (s.goto p (.scan addr havekids rest))
  | .scanned addr havekids =>
    if havekids = false then some (State.ret { s with wait := none } p (-1))
    else if s.lock p = none then
      if (s.task p).killed then some (State.ret { s with wait := none } p (-1))
      else some (s.goto p (.sleep (.kwait addr)))
    else none
  | _ => none

/-- A step of `kkill`. -/
def killStep (s : State C M D A) (p : Slot) : Pc M D A → Option (State C M D A)
  | .kill _ [] => some (s.ret p (-1))
  | .kill pid (i :: rest) =>
    if s.lock i = none then
      if (s.task i).pid = pid then some (State.ret { s with task := update s.task i ((s.task i).setProc (s.task i).toProc.kkill) } p 0)
      else some (s.goto p (.kill pid rest))
    else none
  | _ => none

/-- A step of a loop of the protocol up to its call of `sleep`. -/
def loopStep (pr : Protocol D A) (s : State C M D A) (p : Slot) : Pc M D A → Option (State C M D A)
  | .await m a =>
    if s.held m = none then
      some (State.goto { s with held := update s.held m (some (.inl p)) } p (.test m (pr.start a (s.data m))))
    else none
  | .retry m a =>
    if s.held m = none then some (State.goto { s with held := update s.held m (some (.inl p)) } p (.test m a)) else none
  | .test m a =>
    if pr.ready a (s.data m) then
      match (pr.pass a (s.data m)).2 with
      | some b => some (State.goto { s with data := update s.data m (pr.pass a (s.data m)).1 } p (.test m b))
      | none =>
        some (State.ret { s with
          data := update s.data m (pr.pass a (s.data m)).1
          held := update s.held m none
          inside := update s.inside m (update (s.inside m) p true) } p 0)
    else
      some (State.goto { s with met := update s.met p false } p
        (if pr.killable a then .testKilled m a else .sleep (.mon m a)))
  | .testKilled m a =>
    if s.lock p = none then
      if (s.task p).killed then some (State.ret { s with held := update s.held m none } p (-1))
      else some (s.goto p (.sleep (.mon m a)))
    else none
  | _ => none

/-- `release(lk)` in `sleep`. -/
def releaseLk (s : State C M D A) : Wait M A → State C M D A
  | .kwait _ => { s with wait := none }
  | .mon m _ => { s with held := update s.held m none }

/-- A step of `sleep` up to `sched`. -/
def sleepStep (s : State C M D A) (c : C) (p : Slot) : Pc M D A → Option (State C M D A)
  | .sleep w =>
    if s.lock p = none then some (State.goto { s with lock := update s.lock p (some c) } p (.sleepLocked w)) else none
  | .sleepLocked w => some ((s.releaseLk w).goto p (.sleepReleased w))
  | .sleepReleased w =>
    some { s with
      task := update s.task p (((s.task p).setChan (some (w.chan p))).setProc ((s.task p).toProc.setState .sleeping))
      thread := update s.thread p ((s.thread p).leave .sleep w.again)
      cpu := update s.cpu c ⟨(s.cpu c).proc, .back p, none⟩ }
  | _ => none

/-- A step of a waker on CPU `c` that holds locks as `h`: a thread or the handler of an interrupt. -/
def sigStep (pr : Protocol D A) (s : State C M D A) (c : C) (h : Slot ⊕ C) : Sig M D → Option (State C M D A × Option (Sig M D))
  | .signal m f =>
    if s.held m = none then
      some ({ s with
        data := update s.data m (f (s.data m))
        held := update s.held m (some h)
        met := fun q => s.met q || (s.thread q).pc.loop.any fun w => w.1 = m && pr.ready w.2 (f (s.data m))
        inside := update s.inside m fun q => s.inside m q && h ≠ .inl q }, some (.notify m allSlots))
    else none
  | .notify m [] => some ({ s with held := update s.held m none }, none)
  | .notify m (j :: ws) =>
    (s.wakeupAt c (some (.mon m)) j).map fun task => ({ s with task := task }, some (.notify m ws))

/-- A step of a waker in the thread of `p`. -/
def sigThread (pr : Protocol D A) (s : State C M D A) (c : C) (p : Slot) (x : Sig M D) : Option (State C M D A) :=
  match s.sigStep pr c (.inl p) x with
  | some (s', some y) => some (s'.goto p (.sig y))
  | some (s', none) => some (s'.ret p 0)
  | none => none

/-- A step of the thread of `p` on CPU `c`. -/
def threadStep (pr : Protocol D A) (s : State C M D A) (c : C) (p : Slot) (fault : Fault) : Pc M D A → Option (State C M D A)
  | .fork rest => s.forkStep p fault (.fork rest)
  | .adopt np pid => s.forkStep p fault (.adopt np pid)
  | .publish np pid => s.forkStep p fault (.publish np pid)
  | .exit status => s.exitStep c p (.exit status)
  | .reparent status rest => s.exitStep c p (.reparent status rest)
  | .reparentWake status rest ws => s.exitStep c p (.reparentWake status rest ws)
  | .wakeParent status ch ws => s.exitStep c p (.wakeParent status ch ws)
  | .exitMark status => s.exitStep c p (.exitMark status)
  | .kwait addr => s.kwaitStep p fault (.kwait addr)
  | .scan addr havekids rest => s.kwaitStep p fault (.scan addr havekids rest)
  | .scanned addr havekids => s.kwaitStep p fault (.scanned addr havekids)
  | .kill pid rest => s.killStep p (.kill pid rest)
  | .await m a => s.loopStep pr p (.await m a)
  | .retry m a => s.loopStep pr p (.retry m a)
  | .test m a => s.loopStep pr p (.test m a)
  | .testKilled m a => s.loopStep pr p (.testKilled m a)
  | .sleep w => s.sleepStep c p (.sleep w)
  | .sleepLocked w => s.sleepStep c p (.sleepLocked w)
  | .sleepReleased w => s.sleepStep c p (.sleepReleased w)
  | .sig x => s.sigThread pr c p x
  | .user | .dead => none

/-- The thread of `p` starts a system call; `init` does not exit. -/
def callStep (s : State C M D A) (p : Slot) : Syscall M D A → Option (State C M D A)
  | .fork => some (s.goto p (.fork allSlots))
  | .exit status =>
    if p = initproc then none
    else some (State.goto { s with task := update s.task p ((s.task p).setFiles (fun _ => false) false) } p (.exit status))
  | .wait addr => some (s.goto p (.kwait addr))
  | .kill pid => some (s.goto p (.kill pid allSlots))
  | .await m a => some (s.goto p (.await m a))
  | .signal m f => some (s.goto p (.sig (.signal m f)))
  | .file fd f =>
    some { s with task := update s.task p ((s.task p).setFiles (update (s.task p).ofile fd f) (s.task p).cwd) }
  | .exec name => some { s with task := update s.task p ((s.task p).setProc ((s.task p).toProc.setName name)) }
  | .setquota quota =>
    if s.lock p = none then some { s with task := update s.task p ((s.task p).setProc ((s.task p).toProc.setquota quota)) }
    else none
  | .tick =>
    if s.lock p = none then some { s with task := update s.task p ((s.task p).setProc (s.task p).toProc.charge) } else none

/-- `yield` up to `sched`. -/
def yieldStep (s : State C M D A) (c : C) (p : Slot) : Option (State C M D A) :=
  if s.lock p = none then
    some { s with
      task := update s.task p ((s.task p).setProc ((s.task p).toProc.setState .runnable))
      thread := update s.thread p ((s.thread p).leave .yield (s.thread p).pc)
      lock := update s.lock p (some c)
      cpu := update s.cpu c ⟨(s.cpu c).proc, .back p, none⟩ }
  else none

/-- What follows `sched`, in `yield`, `forkret` or `sleep`, up to `release(&p->lock)`. -/
def resumeStep (s : State C M D A) (p : Slot) : State C M D A :=
  { s with
    task := if (s.thread p).ctx = .sleep then update s.task p ((s.task p).setChan none) else s.task
    thread := update s.thread p (s.thread p).resume
    lock := update s.lock p none }

/-- A step of CPU `c` that runs the thread of `p`. -/
def runStep (pr : Protocol D A) (s : State C M D A) (c : C) (p : Slot) : Act M D A → Option (State C M D A)
  | .step fault => if (s.thread p).ctx = .out then s.threadStep pr c p fault (s.thread p).pc else some (s.resumeStep p)
  | .call x =>
    match (s.thread p).pc with
    | .user => if (s.thread p).ctx = .out then s.callStep p x else none
    | _ => none
  | .yield => if (s.thread p).ctx = .out ∧ (s.thread p).pc.interruptible then s.yieldStep c p else none
  | .irq m f =>
    if (s.thread p).ctx = .out ∧ (s.thread p).pc.interruptible then
      some { s with cpu := update s.cpu c ⟨(s.cpu c).proc, (s.cpu c).mode, some (.signal m f)⟩ }
    else none
  | .reset _ => none

/-- The test of the first loop of `scheduler`: a child of a `schedtest` process, with a lower pid than the one chosen so far. -/
def prefers (eco : EcoMode) (s : State C M D A) (i : Slot) (chosen : Option Slot) : Bool :=
  (s.task i).toProc.eligible eco && Table.schedtestChild (fun j => (s.task j).toProc) i &&
    chosen.all fun j => (s.task i).pid < (s.task j).pid

/-- The mode of the CPU becomes another one in which no process is switched to. -/
def setMode (s : State C M D A) (c : C) (mode : Mode) : State C M D A := { s with cpu := update s.cpu c ⟨none, mode, none⟩ }

/-- A step of `scheduler` on CPU `c`. -/
def schedStep (eco : EcoMode) (s : State C M D A) (c : C) : Mode → Option (State C M D A)
  | .first [] none => some (s.setMode c (.second allSlots))
  | .first [] (some chosen) => some (s.setMode c (.age allSlots chosen))
  | .first (i :: rest) chosen =>
    if s.lock i = none then some (s.setMode c (.first rest (if s.prefers eco i chosen then some i else chosen))) else none
  | .second [] => some (s.setMode c .top)
  | .second (i :: rest) =>
    if s.lock i = none then
      some (s.setMode c (if (s.task i).toProc.eligible eco then .age allSlots i else .second rest))
    else none
  | .age [] chosen => some (s.setMode c (.pick chosen))
  | .age (i :: rest) chosen =>
    if s.lock i = none then
      some (State.setMode { s with task := if i ≠ chosen then update s.task i ((s.task i).waited eco) else s.task } c
        (.age rest chosen))
    else none
  | .pick chosen =>
    if s.lock chosen = none then
      if (s.task chosen).toProc.eligible eco then
        some { s with
          task := update s.task chosen ((s.task chosen).setProc ((s.task chosen).toProc.setState .running))
          lock := update s.lock chosen (some c)
          cpu := update s.cpu c ⟨some chosen, .running chosen, none⟩ }
      else some (s.setMode c .top)
    else none
  | .back chosen => some (State.setMode { s with lock := update s.lock chosen none } c .top)
  | .running _ => none

/-- A step of one CPU: of an interrupt handler, of the thread it runs, or of `scheduler`. -/
def step (pr : Protocol D A) (eco : EcoMode) (s : State C M D A) (l : Label C M D A) : Option (State C M D A) :=
  match (s.cpu l.cpu).irq, (s.cpu l.cpu).mode, l.act with
  | some x, _, .step _ =>
    (s.sigStep pr l.cpu (.inr l.cpu) x).map fun r =>
      { r.1 with cpu := update r.1.cpu l.cpu ⟨(r.1.cpu l.cpu).proc, (r.1.cpu l.cpu).mode, r.2⟩ }
  | some _, _, _ => none
  | none, .running p, act => s.runStep pr l.cpu p act
  | none, mode, .step _ => s.schedStep eco l.cpu mode
  | none, mode, .irq m f =>
    if mode = .top then some { s with cpu := update s.cpu l.cpu ⟨(s.cpu l.cpu).proc, mode, some (.signal m f)⟩ } else none
  | none, mode, .reset i =>
    if mode = .top ∧ s.lock i = none then
      some { s with task := update s.task i ((s.task i).setProc (s.task i).toProc.resetCpuQuota) }
    else none
  | none, _, _ => none

end State

/-- A slot that `procinit` has left `UNUSED`. -/
def Task.free {M : Type} : Task M :=
  { toProc := ⟨.unused, false, 0, 0, none, [], 0, 0, false, 0⟩, chan := none, xstate := 0, trapframe := false, pagetable := false,
    ofile := fun _ => false, cwd := false }

/-- `userinit`: `init` is allocated in a free slot, has a directory and is `RUNNABLE`. -/
def Task.init {M : Type} : Task M :=
  { toProc := ⟨.runnable, false, 1, 0, none, [], defaultQuota, 0, false, 0⟩, chan := none, xstate := 0, trapframe := true,
    pagetable := true, ofile := fun _ => false, cwd := true }

/-- The kernel after `userinit`, every CPU at the head of the loop of `scheduler`. -/
def State.boot {C M D A : Type} (data : M → D) : State C M D A where
  task := update (fun _ => .free) initproc .init
  thread := update (fun _ => ⟨.dead, .out, 0⟩) initproc ⟨.user, .yield, 0⟩
  lock := fun _ => none
  cpu := fun _ => ⟨none, .top, none⟩
  wait := none
  data := data
  held := fun _ => none
  nextpid := 2
  allocated := 1
  exits := []
  reaps := []
  met := fun _ => false
  inside := fun _ _ => false

end Threads

end Xv6
