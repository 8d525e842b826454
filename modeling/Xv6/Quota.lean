import Xv6.Proc
import Xv6.Kernel
import Xv6.Lib.Run

/-!
# The CPU quota: `trap.c`, `proc.c`, `sysproc.c`

Any number of CPUs run processes, are interrupted by the timer in either mode, and choose processes to run. Each section under
`p->lock` is one step. A process is in user mode, in `usertrap` between the charge of a tick and `yield`, or inside the kernel, on
one of the paths of `Kernel`; a step of it there is one step of the path. What a process decides, what the scheduler chooses and
when processes are allocated, freed, woken, killed and reset is left open: the label of a step says it. `eco_mode` is
`ECO_QUOTA`, as `proc.c` sets it.

`maxQuota`, `rises` and `taken` are history variables of a slot, all since its counters were last zeroed: the largest quota in
force, how often `quota_violations` rose, and the timer interrupts taken while its process was current. No step reads them.
-/

namespace Xv6

open Lib Function

/-- Where a process is: in user mode, in `usertrap` on the way from the charge of a tick to `yield`, or inside the kernel with the
rest of its path. A path that came through `usertrap` ends with its last test of `killed`, one from `forkret` does not. -/
inductive Ctl where
  | user
  | charged
  | kernel (viaTrap : Bool) (k : Kpath Unit)

/-- A slot of the process table with what its process is doing and holds, and the history since its counters were zeroed. -/
structure Slot extends Proc where
  ctl : Ctl
  held : Multiset Res
  maxQuota : Int
  rises : Nat
  taken : Nat

/-- A CPU is in `scheduler`, before or after it has chosen a process, or runs a process. -/
inductive Cpu where
  | idle
  | chosen (i : Fin NPROC)
  | running (i : Fin NPROC)

structure QuotaSys (C : Type) where
  slot : Fin NPROC → Slot
  cpu : C → Cpu

/-- Why a process in user mode enters the kernel, other than for the timer: a system call, a device interrupt or a page fault that
`vmfault` repairs, or a fault for which `usertrap` kills it. -/
inductive Trap where
  | syscall (num : Syscall)
  | device
  | fault

inductive QuotaLabel (C : Type) where
  | timer (c : C)
  | trap (c : C) (cause : Trap)
  | go (c : C) (n : Nat)
  | pick (c : C) (i : Fin NPROC)
  | run (c : C)
  | reset (i : Fin NPROC)
  | alloc (i : Fin NPROC) (pid : Int)
  | ready (i : Fin NPROC)
  | free (i : Fin NPROC)
  | wakeup (i : Fin NPROC)
  | kill (i : Fin NPROC)

namespace Slot

/-- The process goes on in the kernel, through `usertrap`. -/
def enter (s : Slot) (k : Kpath Unit) : Slot := { s with ctl := .kernel true k }

def setState (s : Slot) (state : ProcState) : Slot := { s with state := state }

/-- A timer interrupt in user mode, up to `yield`: `usertrap` tests `killed` before it charges the tick. -/
def usertrapTimer (s : Slot) : Slot :=
  if s.killed then { s with taken := s.taken + 1 }.enter Kernel.kexit
  else
    { s with
      toProc := s.charge
      ctl := .charged
      rises := s.rises + if s.charge.quotaViolations ≠ s.quotaViolations then 1 else 0
      taken := s.taken + 1 }

/-- Any other trap from user mode. -/
def usertrap (s : Slot) : Trap → Slot
  | .syscall num => s.enter (if s.killed then Kernel.kexit else num.path)
  | .device => s.enter (pure ())
  | .fault => { s with killed := true }.enter (pure ())

def setquota (s : Slot) (quota : Int) : Slot :=
  { s with toProc := s.toProc.setquota quota, maxQuota := max s.maxQuota (s.toProc.setquota quota).cpuQuota }

/-- The loop body of `reset_cpu_quotas`, which zeroes the counters. -/
def reset (s : Slot) : Slot :=
  if s.state ≠ .unused then
    { s with toProc := s.resetCpuQuota, maxQuota := s.cpuQuota, rises := 0, taken := 0 }
  else s

/-- `allocproc`: a new process will start in `forkret`. -/
def alloc (s : Slot) (pid : Int) : Slot :=
  { toProc := s.allocproc pid
    ctl := .kernel false Kernel.forkret
    held := 0
    maxQuota := (s.allocproc pid).cpuQuota
    rises := 0
    taken := 0 }

/-- The next step of a process that runs, and whether it keeps the CPU. -/
def go (s : Slot) (n : Nat) : Option (Slot × Bool) :=
  match s.ctl with
  | .user => none
  | .charged => some ({ s with ctl := .user }.setState .runnable, false)
  | .kernel viaTrap (.ret ()) =>
    some (if viaTrap && s.killed then s.enter Kernel.kexit else { s with ctl := .user }, true)
  | .kernel _ .halt => none
  | .kernel _ .exit => some (s.setState .zombie, false)
  | .kernel viaTrap (.acquire r k) => some ({ s with held := r ::ₘ s.held, ctl := .kernel viaTrap k }, true)
  | .kernel viaTrap (.release r k) => some ({ s with held := s.held.erase r, ctl := .kernel viaTrap k }, true)
  | .kernel viaTrap (.act .sleep k) => some ({ s with ctl := .kernel viaTrap k }.setState .sleeping, false)
  | .kernel viaTrap (.act .yield k) => some ({ s with ctl := .kernel viaTrap k }.setState .runnable, false)
  | .kernel viaTrap (.act (.setquota quota) k) => some ({ s with ctl := .kernel viaTrap k }.setquota quota.toInt, true)
  | .kernel viaTrap (.choose k) => some ({ s with ctl := .kernel viaTrap (k n) }, true)

end Slot

namespace QuotaSys

variable {C : Type} (s : QuotaSys C) (i : Fin NPROC) (x : Slot)

def setSlot (s : QuotaSys C) (i : Fin NPROC) (x : Slot) : QuotaSys C := { s with slot := update s.slot i x }

@[simp] theorem setSlot_slot_self : (s.setSlot i x).slot i = x :=
  update_self ..

@[simp] theorem setSlot_slot_of_ne {i j : Fin NPROC} (h : j ≠ i) :
    (s.setSlot i x).slot j = s.slot j := update_of_ne h ..

variable [DecidableEq C] (c : C)

def setCpu (s : QuotaSys C) (c : C) (x : Cpu) : QuotaSys C := { s with cpu := update s.cpu c x }

@[simp] theorem setCpu_slot (x : Cpu) : (s.setCpu c x).slot = s.slot := rfl

@[simp] theorem setCpu_cpu_self (x : Cpu) : (s.setCpu c x).cpu c = x := update_self ..

theorem setCpu_cpu_of_ne {c d : C} {x : Cpu} (h : d ≠ c) : (s.setCpu c x).cpu d = s.cpu d :=
  update_of_ne h ..

/-- A timer interrupt on CPU `c`. While the scheduler runs it only starts the next one; in user mode `usertrap` charges the tick;
in the kernel `kerneltrap` yields. Interrupts are off between the charge and `yield`. -/
def timer (s : QuotaSys C) (c : C) : Option (QuotaSys C) :=
  match s.cpu c with
  | .running i =>
    match (s.slot i).ctl with
    | .user => some (s.setSlot i (s.slot i).usertrapTimer)
    | .charged => none
    | .kernel .. =>
      some ((s.setSlot i ({ s.slot i with taken := (s.slot i).taken + 1 }.setState .runnable)).setCpu c .idle)
  | _ => some s

def step (s : QuotaSys C) : QuotaLabel C → Option (QuotaSys C)
  | .timer c => s.timer c
  | .trap c cause =>
    match s.cpu c with
    | .running i =>
      match (s.slot i).ctl with
      | .user => some (s.setSlot i ((s.slot i).usertrap cause))
      | _ => none
    | _ => none
  | .go c n =>
    match s.cpu c with
    | .running i => ((s.slot i).go n).map fun r => if r.2 then s.setSlot i r.1 else (s.setSlot i r.1).setCpu c .idle
    | _ => none
  | .pick c i =>
    match s.cpu c with
    | .idle => if (s.slot i).eligible .quota then some (s.setCpu c (.chosen i)) else none
    | _ => none
  | .run c =>
    match s.cpu c with
    | .chosen i =>
      if (s.slot i).eligible .quota then some ((s.setSlot i ((s.slot i).setState .running)).setCpu c (.running i))
      else some (s.setCpu c .idle)
    | _ => none
  | .reset i => some (s.setSlot i (s.slot i).reset)
  | .alloc i pid => if (s.slot i).state = .unused then some (s.setSlot i ((s.slot i).alloc pid)) else none
  | .ready i => if (s.slot i).state = .used then some (s.setSlot i ((s.slot i).setState .runnable)) else none
  | .free i =>
    if (s.slot i).state = .used ∨ (s.slot i).state = .zombie then
      some (s.setSlot i { s.slot i with toProc := (s.slot i).freeproc })
    else none
  | .wakeup i => some (s.setSlot i { s.slot i with toProc := (s.slot i).wakeup })
  | .kill i => some (s.setSlot i { s.slot i with toProc := (s.slot i).kkill })

end QuotaSys

/-- As `procinit` leaves the table: every slot is unused and no CPU runs a process. -/
structure QuotaInit {C : Type} (s : QuotaSys C) : Prop where
  unused : ∀ i, (s.slot i).state = .unused
  idle : ∀ c, s.cpu c = .idle

/-- The timer interrupts taken while slot `i` is current find it in user mode and not killed. -/
def TimerInUser {C : Type} (i : Fin NPROC) (s : QuotaSys C) : QuotaLabel C → Prop
  | .timer c => s.cpu c = .running i → (s.slot i).ctl = .user ∧ (s.slot i).killed = false
  | _ => True

end Xv6
