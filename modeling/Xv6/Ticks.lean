import Xv6.Threads

/-!
# Waiting time and the clock

The kernel of `Threads` beside the counter `ticks` that `clockintr` advances, at any time as far as the other CPUs are concerned. For
each slot it is on record at which tick its process was allocated and exited, at which tick the third loop of `scheduler` last counted it
as waiting (or it was allocated), and how often that loop has counted it. No step reads the record.
-/

namespace Xv6.Threads

structure Clocked (C M D A : Type) where
  kernel : State C M D A
  ticks : Nat
  born : Slot → Nat
  counted : Slot → Nat
  decisions : Slot → Nat
  exited : Slot → Nat

/-- A tick of the clock, or a step of the kernel. -/
inductive ClockEvent (C M D A : Type) where
  | tick
  | step (l : Label C M D A)

variable {C M D A : Type}

/-- The slot whose `waiting_tick` a step increments, if it does. -/
def State.counts (eco : EcoMode) (s : State C M D A) (l : Label C M D A) : Option Slot :=
  match (s.cpu l.cpu).irq, (s.cpu l.cpu).mode, l.act with
  | none, .age (i :: _) chosen, .step _ => if i ≠ chosen ∧ (s.task i).toProc.eligible eco = true then some i else none
  | _, _, _ => none

/-- A process is made in slot `i`. -/
def Made (s t : State C M D A) (i : Slot) : Prop := (s.task i).state = .unused ∧ (t.task i).state ≠ .unused

instance (s t : State C M D A) (i : Slot) : Decidable (Made s t i) := inferInstanceAs (Decidable (_ ∧ _))

/-- What is on record after a step of the kernel from `k.kernel` to `t`. -/
def Clocked.record (eco : EcoMode) (k : Clocked C M D A) (l : Label C M D A) (t : State C M D A) : Clocked C M D A where
  kernel := t
  ticks := k.ticks
  born i := if Made k.kernel t i then k.ticks else k.born i
  counted i := if Made k.kernel t i ∨ k.kernel.counts eco l = some i then k.ticks else k.counted i
  decisions i := if Made k.kernel t i then 0 else if k.kernel.counts eco l = some i then k.decisions i + 1 else k.decisions i
  exited i := if (k.kernel.task i).state ≠ .zombie ∧ (t.task i).state = .zombie then k.ticks else k.exited i

variable [DecidableEq C] [DecidableEq M]

def Clocked.step (pr : Protocol D A) (eco : EcoMode) (k : Clocked C M D A) : ClockEvent C M D A → Option (Clocked C M D A)
  | .tick => some { k with ticks := k.ticks + 1 }
  | .step l => (k.kernel.step pr eco l).map (k.record eco l)

omit [DecidableEq C] [DecidableEq M] in
/-- The kernel after `userinit`, before the first tick. -/
def Clocked.boot (data : M → D) : Clocked C M D A := ⟨.boot data, 0, fun _ => 0, fun _ => 0, fun _ => 0, fun _ => 0⟩

/-- A process is counted as waiting at most once in a tick: no decision counts it before a tick has passed since it was counted last, or
was allocated. -/
def Paced (eco : EcoMode) (k : Clocked C M D A) : ClockEvent C M D A → Prop
  | .tick => True
  | .step l => ∀ i, k.kernel.counts eco l = some i → k.counted i < k.ticks

end Xv6.Threads
