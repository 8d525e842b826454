import Mathlib.Algebra.Order.Group.Multiset

/-!
# Paths through code that takes and gives back resources

A `Path R E α` is a piece of sequential code as far as the resources it takes and gives back go: it acquires and releases
resources of type `R`, does other visible actions of type `E`, and branches on data that is not tracked (`choose`); it ends by
returning, by halting the machine, or by leaving for good (`exit`). Every finite piece of a run of a loop is a path of
`Path.loop`, which makes any number of rounds.

`Triple P p Q` says that `p`, started by a holder of `P`, holds `Q a` when it returns `a`, whatever else the holder has: what else
is held is never touched, so triples compose without side conditions on it. A path is `Balanced` if it keeps nothing.
-/

namespace Lib

inductive Path (R E α : Type) where
  | ret (a : α)
  | halt
  | exit
  | acquire (r : R) (k : Path R E α)
  | release (r : R) (k : Path R E α)
  | act (e : E) (k : Path R E α)
  | choose (k : Nat → Path R E α)

namespace Path

variable {R E α β σ : Type} {body : σ → Path R E (σ ⊕ β)} {Q : β → Multiset R} (c : String) (r : R)

def bind : Path R E α → (α → Path R E β) → Path R E β
  | .ret a, f => f a
  | .halt, _ => .halt
  | .exit, _ => .exit
  | .acquire r k, f => .acquire r (k.bind f)
  | .release r k, f => .release r (k.bind f)
  | .act e k, f => .act e (k.bind f)
  | .choose k, f => .choose fun n => (k n).bind f

instance : Monad (Path R E) where
  pure := .ret
  bind := .bind

/-! ### Code -/

def take (r : R) : Path R E Unit := .acquire r (.ret ())

def give (r : R) : Path R E Unit := .release r (.ret ())

def emit (e : E) : Path R E Unit := .act e (.ret ())

/-- A value that depends on data not tracked. -/
def any : Path R E Nat := .choose .ret

/-- The outcome of a test on data not tracked; the text is the test. -/
def test (_ : String) : Path R E Bool := .choose fun n => .ret (n = 0)

/-- `if(test) halt`. -/
def haltIf (_ : String) : Path R E Unit := .choose fun n => if n = 0 then .halt else .ret ()

/-- `if(test) p`. -/
def whenever (_ : String) (p : Path R E Unit) : Path R E Unit := .choose fun n => if n = 0 then p else .ret ()

/-- At most `n` rounds: each goes on with a new state or leaves with a result. -/
def rounds (body : σ → Path R E (σ ⊕ β)) : Nat → σ → Path R E (σ ⊕ β)
  | 0, s => .ret (.inl s)
  | n + 1, s => (body s).bind fun
    | .inl s' => rounds body n s'
    | .inr b => .ret (.inr b)

/-- Any number of rounds of a loop. -/
def loop (body : σ → Path R E (σ ⊕ β)) (s : σ) : Path R E (σ ⊕ β) := .choose fun n => rounds body n s

/-- Any number of repetitions. -/
def repeatAny (body : Path R E Unit) : Path R E Unit :=
  (loop (fun _ => body.bind fun _ => .ret (.inl ())) () : Path R E (Unit ⊕ Unit)).bind fun _ => .ret ()

/-! ### What is held -/

/-- The path, started by a holder of `h`, gives back only what is held, holds nothing when it leaves for good, and returns with
a value and holdings that meet `Q`. -/
def Keeps : Path R E α → Multiset R → (α → Multiset R → Prop) → Prop
  | .ret a, h, Q => Q a h
  | .halt, _, _ => True
  | .exit, h, _ => h = 0
  | .acquire r k, h, Q => k.Keeps (r ::ₘ h) Q
  | .release r k, h, Q => ∃ g, h = r ::ₘ g ∧ k.Keeps g Q
  | .act _ k, h, Q => k.Keeps h Q
  | .choose k, h, Q => ∀ n, (k n).Keeps h Q

theorem Keeps.bind {p : Path R E α} {f : α → Path R E β} {h : Multiset R} {M : α → Multiset R → Prop}
    {Q : β → Multiset R → Prop} (hp : p.Keeps h M) (hf : ∀ a g, M a g → (f a).Keeps g Q) : (p.bind f).Keeps h Q := by
  induction p generalizing h with
  | ret a => exact hf a h hp
  | halt => trivial
  | exit => exact hp
  | acquire r k ih | act e k ih => exact ih hp
  | release r k ih =>
    obtain ⟨g, hg, hk⟩ := hp
    exact ⟨g, hg, ih hk⟩
  | choose k ih => exact fun n => ih n (hp n)

def Triple (P : Multiset R) (p : Path R E α) (Q : α → Multiset R) : Prop :=
  ∀ F, p.Keeps (P + F) fun a h => h = Q a + F

/-- The path keeps nothing. -/
def Balanced (p : Path R E α) : Prop := Triple 0 p fun _ => 0

/-- The path returns holding one resource more. -/
def Takes (p : Path R E α) (r : R) : Prop := Triple 0 p fun _ => {r}

/-- The path returns holding one resource less. -/
def Gives (p : Path R E α) (r : R) : Prop := Triple {r} p fun _ => 0

section Rules

variable {P G : Multiset R} {p : Path R E α} {f : α → Path R E β} {M : α → Multiset R} {Q : β → Multiset R} {r : R}

theorem Triple.bind (hp : Triple P p M) (hf : ∀ a, Triple (M a) (f a) Q) : Triple P (p >>= f) Q := by
  intro F
  refine Keeps.bind (hp F) fun a g hg => ?_
  subst hg
  exact hf a F

theorem Triple.frame (hp : Triple P p M) (G : Multiset R) : Triple (P + G) p fun a => M a + G := by
  intro F
  simp only [add_assoc]
  exact hp (G + F)

theorem Triple.halt : Triple P (.halt : Path R E α) M := fun _ => trivial

theorem Balanced.then (hp : Balanced p) (hf : ∀ a, Triple G (f a) Q) : Triple G (p >>= f) Q := by
  have := hp.frame G
  simp only [zero_add] at this
  exact this.bind hf

theorem Takes.then (hp : Takes p r) (hf : ∀ a, Triple (r ::ₘ G) (f a) Q) : Triple G (p >>= f) Q := by
  have := hp.frame G
  simp only [zero_add, Multiset.singleton_add] at this
  exact this.bind hf

theorem Gives.then (hp : Gives p r) (hf : ∀ a, Triple G (f a) Q) : Triple (r ::ₘ G) (p >>= f) Q := by
  have := hp.frame G
  simp only [zero_add, Multiset.singleton_add] at this
  exact this.bind hf

/-- The last call of a path that keeps what its caller holds. -/
theorem Balanced.last {p : Path R E β} (hp : Balanced p) : Triple G p fun _ => G := by
  have := hp.frame G
  simpa only [zero_add] using this

theorem Balanced.ret (b : β) : Triple G (pure b : Path R E β) fun _ => G := fun _ => rfl

end Rules

theorem take_takes : Takes (take r : Path R E Unit) r := fun F => by
  rw [zero_add]
  exact (Multiset.singleton_add r F).symm

theorem give_gives : Gives (give r : Path R E Unit) r := fun F =>
  ⟨F, Multiset.singleton_add r F, (zero_add F).symm⟩

theorem emit_balanced (e : E) : Balanced (emit e : Path R E Unit) := fun _ => rfl

theorem any_balanced : Balanced (any : Path R E Nat) := fun _ _ => rfl

theorem test_balanced : Balanced (test c : Path R E Bool) := fun _ _ => rfl

/-- A branch on a test. -/
theorem Triple.branch {G : Multiset R} {p q : Path R E β} (hp : Triple G p Q)
    (hq : Triple G q Q) : Triple G (test c >>= fun b => if b = true then p else q) Q := by
  refine (test_balanced c).then fun b => ?_
  cases b with
  | true => exact hp
  | false => exact hq

theorem haltIf_balanced : Balanced (haltIf c : Path R E Unit) := by
  intro F n
  dsimp only
  split_ifs
  · trivial
  · rfl

theorem whenever_balanced {p : Path R E Unit} (hp : Balanced p) : Balanced (whenever c p) := by
  intro F n
  dsimp only
  split_ifs
  · exact hp F
  · rfl

/-- The invariant of a loop: what is held at its head, and what is held when it is left. -/
theorem loop_triple {I : σ → Multiset R}
    (hbody : ∀ s, Triple (I s) (body s) (Sum.elim I Q)) (s : σ) : Triple (I s) (loop body s) (Sum.elim I Q) := by
  have hrounds : ∀ n s, Triple (I s) (rounds body n s) (Sum.elim I Q) := by
    intro n
    induction n with
    | zero => exact fun s F => rfl
    | succ n ih =>
      intro s
      refine (hbody s).bind fun x => ?_
      cases x with
      | inl s' => exact ih s'
      | inr b => exact fun F => rfl
  exact fun F n => hrounds n s F

theorem loop_balanced (hbody : ∀ s, Balanced (body s)) (s : σ) : Balanced (loop body s) := by
  have hconst : ∀ x : σ ⊕ β, Sum.elim (fun _ => (0 : Multiset R)) (fun _ => 0) x = 0 := fun x => by cases x <;> rfl
  have hsum : (Sum.elim (fun _ => 0) (fun _ => 0) : σ ⊕ β → Multiset R) = fun _ => 0 := funext hconst
  have h : ∀ s, Triple 0 (body s) (Sum.elim (fun _ => 0) (fun _ => 0)) := by
    rw [hsum]
    exact hbody
  have hloop := loop_triple (I := fun _ => 0) h s
  rwa [hsum] at hloop

theorem repeatAny_balanced {body : Path R E Unit} (hbody : Balanced body) : Balanced (repeatAny body) :=
  (loop_balanced (fun _ => hbody.then fun _ => Balanced.ret _) ()).then fun _ => Balanced.ret _

end Path

end Lib
