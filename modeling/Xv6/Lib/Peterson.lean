import Mathlib.Logic.Function.Basic

/-!
# Peterson's lock for two parties

The lock has a flag for each party and a turn. A process that enters on behalf of a party raises the party's flag, gives the
turn to the other party and then spins, reading the other flag and the turn in two separate steps; on leaving it lowers the
flag. Any number of processes may act for one party. The lock excludes the two parties from each other (`Inv.mutex`) as long as
no process enters for a party while another process is between its own entry and exit for the same party: that is the
hypothesis of `Inv.enter`, and of no other rule.
-/

namespace Lib

open Function

namespace Peterson

/-- The two participants of the lock. -/
inductive Party where
  | zero | one
  deriving DecidableEq, Repr

def Party.other : Party → Party
  | .zero => .one
  | .one => .zero

@[simp] theorem Party.other_other (me : Party) : me.other.other = me := by cases me <;> rfl

theorem Party.other_ne (me : Party) : me.other ≠ me := by cases me <;> nofun

theorem Party.eq_or_eq_other (me you : Party) : you = me ∨ you = me.other := by cases me <;> cases you <;> simp [other]

variable {me : Party}

theorem Party.ne_other_iff {you : Party} : you ≠ me.other ↔ you = me := by cases me <;> cases you <;> simp [other]

/-- The shared variables of the lock. -/
structure Lock where
  want : Party → Bool
  turn : Party

/-- Where a process is with respect to the lock: outside, its flag raised, about to read the other flag, about to read the turn,
or inside. -/
inductive Phase where
  | out
  | flag (me : Party)
  | spinWant (me : Party)
  | spinTurn (me : Party)
  | crit (me : Party)
  deriving DecidableEq

/-- The process is between raising the flag and lowering it. -/
def Phase.inside (me : Party) : Phase → Prop
  | .out => False
  | .flag x | .spinWant x | .spinTurn x | .crit x => x = me

/-- The process has given the turn away and has not yet left. -/
def Phase.asked (me : Party) : Phase → Prop
  | .spinWant x | .spinTurn x | .crit x => x = me
  | _ => False

/-- The process is in the entry loop. -/
def Phase.spinning (me : Party) : Phase → Prop
  | .spinWant x | .spinTurn x => x = me
  | _ => False

variable {x : Phase}

theorem Phase.asked.inside (h : x.asked me) : x.inside me := by
  cases x <;> first | exact h | exact h.elim

theorem Phase.spinning.inside (h : x.spinning me) : x.inside me := by
  cases x <;> first | exact h | exact h.elim

variable {P : Type}

/-- One step of a process as the lock sees it: the lock and the process's phase, before and after. -/
inductive Move (k : Lock) : Phase → Lock → Phase → Prop where
  | stay (x : Phase) : Move k x k x
  | enter (me : Party) : Move k .out { k with want := update k.want me true } (.flag me)
  | yieldTurn (me : Party) : Move k (.flag me) { k with turn := me.other } (.spinWant me)
  | wanted (me : Party) : k.want me.other = true → Move k (.spinWant me) k (.spinTurn me)
  | unwanted (me : Party) : k.want me.other = false → Move k (.spinWant me) k (.crit me)
  | retry (me : Party) : k.turn = me.other → Move k (.spinTurn me) k (.spinWant me)
  | pass (me : Party) : k.turn ≠ me.other → Move k (.spinTurn me) k (.crit me)
  | exit (me : Party) : Move k (.crit me) { k with want := update k.want me false } .out

/-- The lock's invariant: one process inside for each party, the flags say whether there is one, and a process that is in the
critical section while one of the other party has asked holds the turn. -/
structure Inv (k : Lock) (ph : P → Phase) : Prop where
  unique : ∀ me p q, (ph p).inside me → (ph q).inside me → p = q
  flag : ∀ me, k.want me = true ↔ ∃ p, (ph p).inside me
  turn : ∀ me p q, ph p = .crit me → (ph q).asked me.other → k.turn = me

theorem Inv.init (turn : Party) : Inv ⟨fun _ => false, turn⟩ (fun _ : P => Phase.out) where
  unique := fun _ _ _ h => h.elim
  flag := fun me => by simp [Phase.inside]
  turn := fun _ _ _ h => nomatch h

namespace Inv

variable {k : Lock} {ph : P → Phase} {k' : Lock}

/-- No two processes are in the critical section: not for the same party, since they would be one process, and not for
different parties, since each would hold the turn. -/
theorem mutex (h : Inv k ph) {p q : P} {me you : Party} (hp : ph p = .crit me) (hq : ph q = .crit you) : p = q := by
  rcases Party.eq_or_eq_other me you with rfl | rfl
  · exact h.unique you p q (by rw [hp]; rfl) (by rw [hq]; rfl)
  · have h1 := h.turn me p q hp (by rw [hq]; rfl)
    have h2 := h.turn me.other q p hq (by rw [hp, Party.other_other]; rfl)
    exact absurd (h2.symm.trans h1) me.other_ne

/-- Two assignments of phases that put the same processes inside for each party. -/
theorem of_inside {ph' : P → Phase} (h : Inv k ph) (hwant : k'.want = k.want)
    (hsame : ∀ me q, (ph' q).inside me ↔ (ph q).inside me)
    (hturn : ∀ me p q, ph' p = .crit me → (ph' q).asked me.other → k'.turn = me) : Inv k' ph' where
  unique := fun me p q hp hq => h.unique me p q ((hsame me p).1 hp) ((hsame me q).1 hq)
  flag := fun me => by
    rw [hwant, h.flag me]
    exact exists_congr fun q => (hsame me q).symm
  turn := hturn

variable [DecidableEq P] {x : Phase} {p : P}

theorem inside_update (hx : ∀ me, x.inside me ↔ (ph p).inside me) (me : Party) (q : P) :
    (update ph p x q).inside me ↔ (ph q).inside me := by
  by_cases hq : q = p
  · subst hq
    rw [update_self]
    exact hx me
  · rw [update_of_ne hq]

/-- A process that has asked moves on, the lock unchanged: only its own entry into the critical section needs the turn. -/
theorem of_asked (h : Inv k ph) (hin : ∀ you, x.inside you ↔ (ph p).inside you)
    (has : ∀ you, x.asked you ↔ (ph p).asked you)
    (hcrit : ∀ you, x = .crit you → ∀ q, (ph q).asked you.other → k.turn = you) : Inv k (update ph p x) := by
  refine h.of_inside rfl (inside_update hin) ?_
  intro you q r hq hr
  have hr' : (ph r).asked you.other := by
    by_cases hrp : r = p
    · subst hrp
      rw [update_self] at hr
      exact (has _).1 hr
    · rwa [update_of_ne hrp] at hr
  by_cases hqp : q = p
  · subst hqp
    rw [update_self] at hq
    exact hcrit you hq r hr'
  · rw [update_of_ne hqp] at hq
    exact h.turn you q r hq hr'

/-- Every step keeps the invariant, if a process that enters for a party finds no other process inside for that party. -/
theorem move (h : Inv k ph) (hm : Move k (ph p) k' x)
    (hfree : ∀ me, ph p = .out → x = .flag me → ∀ q, ¬(ph q).inside me) : Inv k' (update ph p x) := by
  generalize hp : ph p = y at hm
  cases hm with
  | stay =>
    subst hp
    rw [update_eq_self]
    exact h
  | enter me =>
    have hnone := hfree me hp rfl
    refine ⟨?_, ?_, ?_⟩
    · intro you q r hq hr
      by_cases hqp : q = p <;> by_cases hrp : r = p
      · rw [hqp, hrp]
      · subst hqp
        rw [update_self] at hq
        rw [update_of_ne hrp] at hr
        exact absurd (hq ▸ hr) (hnone r)
      · subst hrp
        rw [update_self] at hr
        rw [update_of_ne hqp] at hq
        exact absurd (hr ▸ hq) (hnone q)
      · rw [update_of_ne hqp] at hq
        rw [update_of_ne hrp] at hr
        exact h.unique you q r hq hr
    · intro you
      by_cases hyou : you = me
      · subst hyou
        simp only [update_self, true_iff]
        exact ⟨p, by rw [update_self]; rfl⟩
      · simp only [update_of_ne hyou]
        rw [h.flag you]
        refine ⟨fun ⟨q, hq⟩ => ⟨q, ?_⟩, fun ⟨q, hq⟩ => ⟨q, ?_⟩⟩
        · rw [update_of_ne]
          · exact hq
          · rintro rfl
            rw [hp] at hq
            exact hq
        · by_cases hqp : q = p
          · subst hqp
            rw [update_self] at hq
            exact absurd hq.symm hyou
          · rwa [update_of_ne hqp] at hq
    · intro you q r hq hr
      have hqp : q ≠ p := by
        rintro rfl
        rw [update_self] at hq
        nomatch hq
      have hrp : r ≠ p := by
        rintro rfl
        rw [update_self] at hr
        exact hr
      rw [update_of_ne hqp] at hq
      rw [update_of_ne hrp] at hr
      exact h.turn you q r hq hr
  | yieldTurn me =>
    refine h.of_inside rfl (inside_update (fun you => by rw [hp]; exact Iff.rfl)) ?_
    intro you q r hq _
    have hqp : q ≠ p := by
      rintro rfl
      rw [update_self] at hq
      nomatch hq
    rw [update_of_ne hqp] at hq
    rcases Party.eq_or_eq_other me you with rfl | rfl
    · exact absurd (h.unique you q p (by rw [hq]; rfl) (by rw [hp]; rfl)) hqp
    · rfl
  | wanted me _ | retry me _ =>
    exact h.of_asked (fun you => by rw [hp]; exact Iff.rfl) (fun you => by rw [hp]; exact Iff.rfl) (fun _ hx => nomatch hx)
  | unwanted me hw =>
    refine h.of_asked (fun you => by rw [hp]; exact Iff.rfl) (fun you => by rw [hp]; exact Iff.rfl) ?_
    intro you hx q hq
    cases hx
    -- the other party's flag is down, so none of its processes has asked
    exact absurd ((h.flag me.other).2 ⟨q, hq.inside⟩) (by rw [hw]; nofun)
  | pass me ht =>
    refine h.of_asked (fun you => by rw [hp]; exact Iff.rfl) (fun you => by rw [hp]; exact Iff.rfl) ?_
    intro you hx q _
    cases hx
    exact Party.ne_other_iff.1 ht
  | exit me =>
    have hout : ∀ you q, (update ph p .out q).inside you → (ph q).inside you ∧ q ≠ p := by
      intro you q hq
      have hqp : q ≠ p := by
        rintro rfl
        rw [update_self] at hq
        exact hq
      rw [update_of_ne hqp] at hq
      exact ⟨hq, hqp⟩
    refine ⟨fun you q r hq hr => h.unique you q r (hout you q hq).1 (hout you r hr).1, ?_, ?_⟩
    · intro you
      by_cases hyou : you = me
      · subst hyou
        simp only [update_self, Bool.false_eq_true, false_iff, not_exists]
        intro q hq
        obtain ⟨hq, hqp⟩ := hout you q hq
        exact hqp (h.unique you q p hq (by rw [hp]; rfl))
      · simp only [update_of_ne hyou]
        rw [h.flag you]
        refine ⟨fun ⟨q, hq⟩ => ⟨q, ?_⟩, fun ⟨q, hq⟩ => ⟨q, (hout you q hq).1⟩⟩
        rw [update_of_ne]
        · exact hq
        · rintro rfl
          rw [hp] at hq
          exact hyou hq.symm
    · intro you q r hq hr
      have hqp := (hout you q (by rw [hq]; rfl)).2
      have hrp := (hout _ r hr.inside).2
      rw [update_of_ne hqp] at hq
      rw [update_of_ne hrp] at hr
      exact h.turn you q r hq hr

end Inv

end Peterson

end Lib
