import Mathlib.Logic.Function.Basic
import Mathlib.Data.List.Basic

/-!
# Programs over a disk that can stop at any write

A program reads and writes blocks of a disk, one block at a time and in program order; what it keeps in memory is its own
business and is lost when the machine stops. `Prog.run` is the program run to its end; `Prog.disks` lists every disk the
program passes through, so a crash leaves one of them. A triple `Triple P p Q C` says what holds of the disk at the end (`Q`)
and of every disk on the way (`C`). `Recovers r` is a recovery program started on the disk a crash left, interrupted any number
of times and started again, until a start of it runs to the end.
-/

namespace Lib

open Function List

/-- A program over a disk of blocks `β` at addresses `ι`: it ends with a result, reads a block, or writes a block. -/
inductive Prog (ι β ρ : Type) : Type where
  | ret (r : ρ)
  | read (b : ι) (k : β → Prog ι β ρ)
  | write (b : ι) (v : β) (k : Prog ι β ρ)

namespace Prog

variable {ι β ρ τ : Type} (p : Prog ι β ρ)

/-- One program after another, the second given the result of the first. -/
def bind : Prog ι β ρ → (ρ → Prog ι β τ) → Prog ι β τ
  | ret r, f => f r
  | read b k, f => read b (fun v => (k v).bind f)
  | write b v k, f => write b v (k.bind f)

instance : Monad (Prog ι β) where
  pure := ret
  bind := bind

@[simp] theorem write_bind (b : ι) (v : β) (k : Prog ι β ρ) (f : ρ → Prog ι β τ) :
    (write b v k >>= f) = write b v (k >>= f) := rfl

theorem bind_assoc {υ : Type} (f : ρ → Prog ι β τ) (g : τ → Prog ι β υ) :
    (p >>= f >>= g) = (p >>= fun r => f r >>= g) := by
  induction p with
  | ret r => rfl
  | read b k ih => exact congrArg (read b) (funext ih)
  | write b v k ih => exact congrArg (write b v) ih

variable [DecidableEq ι]

/-- The program run to its end: its result and the disk it leaves. -/
def run : Prog ι β ρ → (ι → β) → ρ × (ι → β)
  | ret r, D => (r, D)
  | read b k, D => (k (D b)).run D
  | write b v k, D => k.run (update D b v)

/-- The disks the program passes through, in order: the first one, and the disk after each write. -/
def disks : Prog ι β ρ → (ι → β) → List (ι → β)
  | ret _, D => [D]
  | read b k, D => (k (D b)).disks D
  | write b v k, D => D :: k.disks (update D b v)

/-- The program passes through the disk it starts from. -/
theorem mem_disks_self (D : ι → β) : D ∈ p.disks D := by
  induction p with
  | ret r => exact mem_singleton_self D
  | read b k ih => exact ih (D b)
  | write b v k ih => exact mem_cons_self

/-- The first of the disks a program passes through is the one it starts from. -/
theorem disks_head? (D : ι → β) : (p.disks D).head? = some D := by
  induction p with
  | ret r | write b v k ih => rfl
  | read b k ih => exact ih (D b)

/-- The disks of a sequence: those of the first program but the last, then those of the second from where the first ends. -/
theorem disks_bind (f : ρ → Prog ι β τ) (D : ι → β) :
    (p >>= f).disks D = (p.disks D).dropLast ++ (f (p.run D).1).disks (p.run D).2 := by
  induction p generalizing D with
  | ret r => rfl
  | read b k ih => exact ih (D b) D
  | write b v k ih =>
    have hne : k.disks (update D b v) ≠ [] := ne_nil_of_mem (mem_disks_self k _)
    rw [write_bind, disks, disks, ih, dropLast_cons_of_ne_nil hne, cons_append]
    rfl

/-- A sequence run to its end. -/
theorem run_bind (f : ρ → Prog ι β τ) (D : ι → β) :
    (p >>= f).run D = (f (p.run D).1).run (p.run D).2 := by
  induction p generalizing D with
  | ret r => rfl
  | read b k ih => exact ih (D b) D
  | write b v k ih => exact ih (update D b v)

end Prog

/-! ## Triples -/

variable {ι β ρ τ : Type} [DecidableEq ι]

/-- From a disk with `P` the program ends with `Q`, and `C` holds of every disk it passes through. -/
def Triple (P : (ι → β) → Prop) (p : Prog ι β ρ) (Q : ρ → (ι → β) → Prop) (C : (ι → β) → Prop) : Prop :=
  ∀ D, P D → Q (p.run D).1 (p.run D).2 ∧ ∀ D' ∈ p.disks D, C D'

namespace Triple

variable {P P' : (ι → β) → Prop} {Q Q' : ρ → (ι → β) → Prop} {R : τ → (ι → β) → Prop} {C C' : (ι → β) → Prop} {p : Prog ι β ρ} {b : ι}

/-- A program that ends at once. -/
theorem ret {r : ρ} (hQ : ∀ D, P D → Q r D) (hC : ∀ D, P D → C D) : Triple P (Prog.ret r : Prog ι β ρ) Q C := by
  intro D hD
  refine ⟨hQ D hD, fun D' hD' => ?_⟩
  rw [mem_singleton.1 hD']
  exact hC D hD

/-- A read: the rest is given what the disk holds. -/
theorem read {k : β → Prog ι β ρ} (h : ∀ v, Triple (fun D => P D ∧ D b = v) (k v) Q C) :
    Triple P (Prog.read b k) Q C :=
  fun D hD => h (D b) D ⟨hD, rfl⟩

/-- A write: the disk before it is one a crash can leave, and the rest starts from the disk with the block changed. -/
theorem write {v : β} {k : Prog ι β ρ} (hC : ∀ D, P D → C D) (hw : ∀ D, P D → P' (update D b v))
    (hk : Triple P' k Q C) : Triple P (Prog.write b v k) Q C := by
  intro D hD
  obtain ⟨hq, hc⟩ := hk _ (hw D hD)
  refine ⟨hq, fun D' hD' => ?_⟩
  rcases mem_cons.1 hD' with rfl | hD'
  · exact hC _ hD
  · exact hc D' hD'

/-- A sequence: what the first program ends with is what the second starts from. -/
theorem bind {f : ρ → Prog ι β τ} (hp : Triple P p Q C) (hf : ∀ r, Triple (Q r) (f r) R C) :
    Triple P (p >>= f) R C := by
  intro D hD
  obtain ⟨hq, hc⟩ := hp D hD
  obtain ⟨hr, hc'⟩ := hf _ _ hq
  rw [Prog.run_bind, Prog.disks_bind]
  refine ⟨hr, fun D' hD' => ?_⟩
  rcases mem_append.1 hD' with hD' | hD'
  · exact hc D' (dropLast_subset _ hD')
  · exact hc' D' hD'

/-- The rule of consequence, for the disk before, at the end and on the way. -/
theorem conseq (h : Triple P p Q C) (hP : ∀ D, P' D → P D) (hQ : ∀ r D, Q r D → Q' r D)
    (hC : ∀ D, C D → C' D) : Triple P' p Q' C' :=
  fun D hD => ⟨hQ _ _ (h D (hP D hD)).1, fun D' hD' => hC D' ((h D (hP D hD)).2 D' hD')⟩

end Triple

/-! ## Recovery -/

/-- Recovery from a disk: the recovery program runs to its end, or is interrupted on one of the disks it passes through and
recovery starts again from there. -/
inductive Recovers (r : Prog ι β ρ) : (ι → β) → (ι → β) → Prop where
  | done (D : ι → β) : Recovers r D (r.run D).2
  | again {D D' D'' : ι → β} : D' ∈ r.disks D → Recovers r D' D'' → Recovers r D D''

/-- A recovery program that keeps, on every disk it passes through, what it needs to start from ends as its triple says, however
often it is interrupted. -/
theorem Recovers.post {r : Prog ι β ρ} {I : (ι → β) → Prop} {Q : (ι → β) → Prop} (h : Triple I r (fun _ => Q) I)
    {D D' : ι → β} (hr : Recovers r D D') (hD : I D) : Q D' := by
  induction hr with
  | done D => exact (h D hD).1
  | again hmem _ ih => exact ih ((h _ hD).2 _ hmem)

end Lib
