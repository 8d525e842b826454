import Xv6.Proc
import Xv6.Lib.Run

/-!
# Quota windows: `check_and_reset_quota_window`

Several CPUs run `check_and_reset_quota_window` from their scheduler loops while CPU 0 increments `ticks`. Reading `ticks` under
`tickslock`, the test, the store to `quota_window_start` and the reset of each slot are separate steps; the rest of the kernel may
change the process table at any time.

`time` and `startTime` are `ticks` and `quota_window_start` without wrap, and the CPU's place in the code keeps the time at which it
read `ticks`. `windows` are the windows that executions of `reset_cpu_quotas` start from, in order, and `zeroed i` the window in
force at each zeroing of slot `i`. No step reads any of them.
-/

namespace Xv6

open Lib Function

/-- Where a CPU is: outside, having read `ticks`, having passed the test, or about to reset a slot. -/
inductive WindowPC where
  | idle
  | read (currentTicks : Uint) (at_ : Nat)
  | tested (currentTicks : Uint) (at_ : Nat)
  | reset (i : Nat)

structure WindowSys (C : Type) where
  ticks : Uint
  quotaWindowStart : Uint
  proc : Fin NPROC → Proc
  cpu : C → WindowPC
  time : Nat
  startTime : Nat
  windows : List Nat
  zeroed : Fin NPROC → List Nat

inductive WindowLabel (C : Type) where
  | clockintr
  | go (c : C)
  | table (i : Fin NPROC) (p : Proc)

namespace WindowSys

variable {C : Type} [DecidableEq C]

def setCpu (s : WindowSys C) (c : C) (x : WindowPC) : WindowSys C := { s with cpu := update s.cpu c x }

/-- The loop body of `reset_cpu_quotas` for slot `i`. -/
def resetSlot (s : WindowSys C) (i : Fin NPROC) : WindowSys C :=
  { s with
    proc := update s.proc i (s.proc i).resetCpuQuota
    zeroed := if (s.proc i).state ≠ .unused then update s.zeroed i (s.zeroed i ++ [s.startTime]) else s.zeroed }

/-- One step of `check_and_reset_quota_window` on CPU `c`. -/
def checkAndResetQuotaWindow (s : WindowSys C) (c : C) : WindowSys C :=
  match s.cpu c with
  | .idle => s.setCpu c (.read s.ticks s.time)
  | .read currentTicks at_ =>
    s.setCpu c (if (currentTicks - s.quotaWindowStart).toNat ≥ WINDOW_SIZE then .tested currentTicks at_ else .idle)
  | .tested currentTicks at_ =>
    { s with quotaWindowStart := currentTicks, startTime := at_, windows := s.windows ++ [at_] }.setCpu c (.reset 0)
  | .reset i => if h : i < NPROC then (s.resetSlot ⟨i, h⟩).setCpu c (.reset (i + 1)) else s.setCpu c .idle

def step (s : WindowSys C) : WindowLabel C → Option (WindowSys C)
  | .clockintr => some { s with ticks := s.ticks + 1, time := s.time + 1 }
  | .go c => some (s.checkAndResetQuotaWindow c)
  | .table i p => some { s with proc := update s.proc i p }

end WindowSys

/-- As the machine starts. -/
structure WindowInit {C : Type} (s : WindowSys C) : Prop where
  ticks : s.ticks = 0
  start : s.quotaWindowStart = 0
  idle : ∀ c, s.cpu c = .idle
  time : s.time = 0
  startTime : s.startTime = 0
  windows : s.windows = []
  zeroed : ∀ i, s.zeroed i = []

/-- Two windows are at least `WINDOW_SIZE` ticks apart. -/
def Apart (a b : Nat) : Prop := a + WINDOW_SIZE ≤ b ∨ b + WINDOW_SIZE ≤ a

/-- No CPU stores `quota_window_start` while another is inside `check_and_reset_quota_window`, from its read of `ticks` to the end
of its resets. -/
def AloneAtStore {C : Type} (s : WindowSys C) : WindowLabel C → Prop
  | .go c => ∀ currentTicks at_, s.cpu c = .tested currentTicks at_ → ∀ d, d ≠ c → s.cpu d = .idle
  | _ => True

end Xv6
