import Xv6.Param

/-!
# The process table: `struct proc` and what is done to it under `p->lock`

The fields of `struct proc` that the scheduler and the CPU quota read, and each section of code that runs under `p->lock` as a
function on them. `throttled` is an `int` that only ever holds 0 and 1; `name` is without its terminating NUL.
-/

namespace Xv6

inductive ProcState where
  | unused | used | sleeping | runnable | running | zombie
  deriving DecidableEq, Repr

inductive EcoMode where
  | off | quota
  deriving DecidableEq, Repr

/-- The default quota that `allocproc` gives. -/
def defaultQuota : Int := 20

/-- Length of a quota window in ticks. -/
def WINDOW_SIZE : Nat := 100

/-- The first two slots of the process table. -/
def slot0 : Fin NPROC := ⟨0, by decide⟩

def slot1 : Fin NPROC := ⟨1, by decide⟩

structure Proc where
  state : ProcState
  killed : Bool
  pid : Int
  waitingTick : Int
  parent : Option (Fin NPROC)
  name : List Char
  cpuQuota : Int
  cpuUsedInWindow : Int
  throttled : Bool
  quotaViolations : Int

namespace Proc

/-- The part of `allocproc` after `found:` that sets the fields. -/
def allocproc (p : Proc) (pid : Int) : Proc :=
  { p with
    pid := pid
    state := .used
    waitingTick := 0
    cpuQuota := defaultQuota
    cpuUsedInWindow := 0
    throttled := false
    quotaViolations := 0 }

/-- `freeproc`. It leaves the fields of the quota as they are. -/
def freeproc (p : Proc) : Proc :=
  { p with pid := 0, parent := none, name := [], killed := false, state := .unused }

/-- The section of `usertrap` that charges a tick to the running process. -/
def charge (p : Proc) : Proc :=
  if p.state = .running then
    let used := intIncr p.cpuUsedInWindow
    if used ≥ p.cpuQuota ∧ p.throttled = false then
      { p with cpuUsedInWindow := used, throttled := true, quotaViolations := intIncr p.quotaViolations }
    else { p with cpuUsedInWindow := used }
  else p

/-- `sys_setquota`; a quota that is not positive changes nothing. -/
def setquota (p : Proc) (quota : Int) : Proc :=
  if quota ≤ 0 then p
  else { p with cpuQuota := quota, throttled := if p.cpuUsedInWindow < quota then false else p.throttled }

/-- The loop body of `reset_cpu_quotas`. -/
def resetCpuQuota (p : Proc) : Proc :=
  if p.state ≠ .unused then { p with cpuUsedInWindow := 0, throttled := false } else p

/-- `wakeup` on a process that sleeps on the channel. -/
def wakeup (p : Proc) : Proc := if p.state = .sleeping then { p with state := .runnable } else p

/-- The part of `kkill` that acts on the process found. -/
def kkill (p : Proc) : Proc := { p with killed := true }.wakeup

/-- The test that `scheduler` makes before it chooses a process and again before it switches to it. -/
def eligible (eco : EcoMode) (p : Proc) : Bool := p.state = .runnable && (eco ≠ .quota || p.throttled = false)

theorem eligible_quota {p : Proc} : p.eligible .quota = true ↔ p.state = .runnable ∧ p.throttled = false := by
  simp [eligible]

end Proc

end Xv6
