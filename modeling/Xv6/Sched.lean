import Xv6.Proc
import Xv6.Lib.Run
import Mathlib.Data.List.FinRange

/-!
# `scheduler` on one CPU

One iteration of `scheduler` as a function of the process table: the scan for an eligible child of a `schedtest` process with the
least pid, the fallback scan from slot 0, the count of waiting time and the locked re-check. The system runs iterations and the
processes they switch to; a process gives the CPU back by `yield` or by leaving it in some other state, and the rest of the kernel
may change any slot in between. `decisions` is a history variable: the table each decision was made on and the slot switched to.
-/

namespace Xv6

open Lib Function

abbrev Table := Fin NPROC → Proc

namespace Table

/-- `p->parent != 0 && strncmp(p->parent->name, "schedtest", 9) == 0`. -/
def schedtestChild (table : Table) (i : Fin NPROC) : Bool :=
  match (table i).parent with
  | some j => strncmp (table j).name "schedtest".toList 9 = 0
  | none => false

/-- The loop body of the first scan. -/
def pickSchedtest (eco : EcoMode) (table : Table) (chosen : Option (Fin NPROC)) (i : Fin NPROC) : Option (Fin NPROC) :=
  if (table i).eligible eco && table.schedtestChild i then
    match chosen with
    | none => some i
    | some j => if (table i).pid < (table j).pid then some i else some j
  else chosen

/-- The first scan: the eligible child of a `schedtest` process with the least pid. -/
def chosenSchedtest (eco : EcoMode) (table : Table) : Option (Fin NPROC) :=
  (List.finRange NPROC).foldl (table.pickSchedtest eco) none

/-- The fallback scan: the first eligible slot. -/
def chosenFallback (eco : EcoMode) (table : Table) : Option (Fin NPROC) :=
  (List.finRange NPROC).find? fun i => (table i).eligible eco

def chosen (eco : EcoMode) (table : Table) : Option (Fin NPROC) :=
  match table.chosenSchedtest eco with
  | some i => some i
  | none => table.chosenFallback eco

/-- The loop that counts waiting time. -/
def countWaiting (eco : EcoMode) (table : Table) (chosen : Fin NPROC) : Table := fun i =>
  if (table i).eligible eco && i ≠ chosen then { table i with waitingTick := intIncr (table i).waitingTick } else table i

/-- One iteration of `scheduler` after the quota check: the slot it switches to, if any, and the table then. -/
def schedule (eco : EcoMode) (table : Table) : Option (Fin NPROC) × Table :=
  match table.chosen eco with
  | none => (none, table)
  | some i =>
    let waited := table.countWaiting eco i
    if (waited i).eligible eco then (some i, update waited i { waited i with state := .running }) else (none, waited)

end Table

/-- The table, the process that runs, and the decisions made so far. -/
structure SchedSys where
  table : Table
  running : Option (Fin NPROC)
  decisions : List (Table × Fin NPROC)

/-- An iteration of `scheduler`; the running process calls `yield`, or gives the CPU up in another state (it sleeps or exits); some
other code changes a slot. -/
inductive SchedLabel where
  | schedule
  | yield
  | leave (state : ProcState)
  | table (i : Fin NPROC) (p : Proc)

def SchedSys.step (eco : EcoMode) (s : SchedSys) : SchedLabel → Option SchedSys
  | .schedule =>
    match s.running, s.table.schedule eco with
    | none, (some i, table) => some ⟨table, some i, s.decisions ++ [(s.table, i)]⟩
    | none, (none, table) => some { s with table := table }
    | some _, _ => none
  | .yield => s.running.map fun i =>
    { s with table := update s.table i { s.table i with state := .runnable }, running := none }
  | .leave state => s.running.map fun i =>
    { s with table := update s.table i { s.table i with state := state }, running := none }
  | .table i p => some { s with table := update s.table i p }

/-- The scheduler is about to run and nothing has been decided yet. -/
structure SchedInit (s : SchedSys) : Prop where
  running : s.running = none
  decisions : s.decisions = []

/-- The process is `RUNNABLE`, and not throttled while quotas are enforced. -/
def Proc.Eligible (eco : EcoMode) (p : Proc) : Prop := p.state = .runnable ∧ (eco ≠ .quota ∨ p.throttled = false)

/-- The process has a parent, and the parent's name starts with `schedtest`. -/
def Table.UnderSchedtest (table : Table) (i : Fin NPROC) : Prop :=
  ∃ j, (table i).parent = some j ∧ "schedtest".toList <+: (table j).name

/-- No process has a parent whose name starts with `schedtest`. -/
def NoSchedtest (table : Table) : Prop := ∀ i, (table i).state ≠ .unused → table.schedtestChild i = false

/-- No process in a lower slot is eligible. -/
def FirstEligible (eco : EcoMode) (table : Table) (q : Fin NPROC) : Prop := ∀ j < q, (table j).eligible eco = false

end Xv6
