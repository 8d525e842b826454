import Xv6.Lemmas.ThreadSleep
import Xv6.Lemmas.ThreadCensus

/-!
# A dozing thread whose condition is true will be woken

`Alert` says of every thread that dozes with a true condition that a waker has still to come to its slot, and of every thread on its
way into `sleep` that its condition is false. A step keeps it because the waker of a channel and the thread that goes to sleep on it
hold the same lock.
-/

namespace Xv6.Threads

open ProcState Function List

variable {C M D A : Type} {pc : Pc M D A} {m : M} {a : A} (data : M → D)

/-- Some `wakeup(ch)` has still to come to slot `p`. -/
def State.Pending (s : State C M D A) (ch : Chan M) (p : Slot) : Prop :=
  (∃ q ws, (s.thread q).pc.waking = some (some ch, ws) ∧ p ∈ ws) ∨
    ∃ m d ws, ch = .mon m ∧ (s.cpu d).irq = some (.notify m ws) ∧ p ∈ ws

/-- The children that the thread knows not to be `ZOMBIE`: in `kwait`, those that the scan has passed. -/
def Pc.cleared : Pc M D A → Slot → Prop
  | .scan _ _ rest, pp => pp ∉ rest
  | .scanned _ _, _ | .sleep (.kwait _), _ | .sleepLocked (.kwait _), _ => True
  | _, _ => False

/-- The slots that `wakeup(p->parent)` of `kexit` has passed. -/
def Pc.woken : Pc M D A → Slot → Prop
  | .wakeParent _ _ ws, p => p ∉ ws
  | .exitMark _, _ => True
  | _, _ => False

/-- The condition that the thread has found false and still holds the lock of. -/
def Pc.tested : Pc M D A → Option (M × A)
  | .testKilled m a | .sleep (.mon m a) | .sleepLocked (.mon m a) => some (m, a)
  | _ => none

structure State.Alert (pr : Protocol D A) (s : State C M D A) : Prop where
  sleepers : ∀ p, (s.task p).state = sleeping → ∃ w : Wait M A, (s.thread p).pc = w.again ∧ (s.task p).chan = some (w.chan p)
  cleared : ∀ p pp, (s.thread p).pc.cleared pp → (s.task pp).parent = some p → (s.task pp).state ≠ zombie
  chans : ∀ q status ch ws, (s.thread q).pc = .wakeParent status ch ws → ch = (s.task q).parent.map .proc
  woken : ∀ q p addr, (s.thread q).pc.woken p → (s.task q).parent = some p → s.doze p ≠ some (.kwait addr)
  pending : ∀ p pp addr, s.doze p = some (.kwait addr) → (s.task pp).parent = some p → (s.task pp).state = zombie →
    s.Pending (.proc p) p
  tested : ∀ p m a, (s.thread p).pc.tested = some (m, a) → pr.ready a (s.data m) = false ∧ s.met p = false
  armed : ∀ p m a, s.doze p = some (.mon m a) → pr.ready a (s.data m) = true ∨ s.met p = true → s.Pending (.mon m) p

theorem Pc.holdsWait_of_cleared {pp : Slot} (h : pc.cleared pp) : pc.holdsWait = true := by
  cases pc with
  | sleep w | sleepLocked w => cases w <;> first | rfl | cases h
  | scan | scanned => rfl
  | _ => cases h

theorem Pc.holdsWait_of_woken {p : Slot} (h : pc.woken p) : pc.holdsWait = true := by
  cases pc with
  | wakeParent | exitMark => rfl
  | _ => cases h

theorem Pc.holdsMon_of_tested (h : pc.tested = some (m, a)) : pc.holdsMon = some m := by
  cases pc with
  | testKilled => cases h; rfl
  | sleep w | sleepLocked w => cases w <;> cases h; rfl
  | _ => cases h

theorem Pc.not_cleared (h : pc.indifferent = true) (pp : Slot) : ¬pc.cleared pp := by
  cases pc <;> first | exact id | cases h

theorem Pc.not_woken (h : pc.indifferent = true) (p : Slot) : ¬pc.woken p := by
  cases pc <;> first | exact id | cases h

theorem Pc.not_tested (h : pc.indifferent = true) : pc.tested = none := by
  cases pc <;> first | rfl | cases h

theorem Pc.loop_of_tested {x : M × A} (h : pc.tested = some x) : pc.loop = some x := by
  cases pc with
  | testKilled => exact h
  | sleep w | sleepLocked w => cases w <;> exact h
  | _ => cases h

theorem Pc.loop_of_doze {st : ProcState} (h : pc.doze st = some (.mon m a)) : pc.loop = some (m, a) := by
  rcases Pc.doze_cases h with rfl | ⟨-, rfl⟩ <;> rfl

/-- A waker does not doze. -/
theorem Pc.doze_waking {x : Option (Chan M) × List Slot} (h : pc.waking = some x) (st : ProcState) : pc.doze st = none := by
  cases pc <;> first | rfl | cases h

section moves

variable [DecidableEq C] [DecidableEq M] {pr : Protocol D A} {s t : State C M D A} {c : C} {act : Act M D A} {p q : Slot}
  {w : Wait M A}

/-- What a step does to the data of the monitors and to the history of their conditions. -/
inductive Datum (pr : Protocol D A) (s : State C M D A) (c : C) (t : State C M D A) : Prop where
  | same (hdata : t.data = s.data) (hmet : ∀ q, t.met q = true → s.met q = true)
  | pass (p : Slot) (m : M) (a : A) (hat : At s c p (.test m a)) (hready : pr.ready a (s.data m) = true)
    (hdata : t.data = update s.data m (pr.pass a (s.data m)).1) (hmet : t.met = s.met)
  | signal (m : M) (f : D → D) (hfree : s.held m = none) (hdata : t.data = update s.data m (f (s.data m)))
    (hmet : t.met = fun q => s.met q || (s.thread q).pc.loop.any fun w => w.1 = m && pr.ready w.2 (f (s.data m)))
    (hpending : ∀ p, t.Pending (.mon m) p)

theorem Move.datum (h : Move pr s c act t) : Datum pr s c t := by
  cases h with
  | pass p m a b hat hready | passed p m a hat hready => exact .pass p m a hat hready rfl rfl
  | unready p =>
    refine .same rfl fun q hq => ?_
    by_cases h : q = p
    · subst h
      simp at hq
    · simpa [update_of_ne h] using hq
  | signal p m f hat hheld =>
    refine .signal m f hheld rfl rfl fun q => .inl ⟨p, allSlots, ?_, mem_allSlots q⟩
    simp [Pc.waking]
  | intrSignal m f hirq hheld =>
    refine .signal m f hheld rfl rfl fun q => .inr ⟨m, c, allSlots, rfl, ?_, mem_allSlots q⟩
    simp [State.setIrq]
  | sleepRelease p w => cases w <;> exact .same rfl fun _ h => h
  | _ => exact .same rfl fun _ h => h

/-- The handler of an interrupt goes on to the next slot, or is done. -/
theorem Move.irq {d : C} {j : Slot} {ws : List Slot} (h : Move pr s c act t) (hirq : (s.cpu d).irq = some (.notify m ws))
    (hj : j ∈ ws) :
    (∃ ws', (t.cpu d).irq = some (.notify m ws') ∧ j ∈ ws') ∨ (s.cpu d).proc = some j ∨
      (s.lock j = none ∧ t.task j = (s.task j).wakeup (some (.mon m))) := by
  by_cases hd : d = c
  · subst hd
    have busy : (s.cpu d).irq ≠ none := by rw [hirq]; exact Option.some_ne_none _
    cases h with
    | account => exact .inl ⟨ws, hirq, hj⟩
    | look task mode h | switchTo p h | back p h | resume p h | intr m f h => exact absurd h busy
    | intrSignal m f h => cases hirq.symm.trans h
    | intrSkip m' j' ws' h hproc =>
      cases hirq.symm.trans h
      rcases mem_cons.1 hj with rfl | hj
      · exact .inr (.inl hproc)
      · exact .inl ⟨ws', by simp [State.setIrq], hj⟩
    | intrWake m' j' ws' h hproc hlock =>
      cases hirq.symm.trans h
      rcases mem_cons.1 hj with rfl | hj
      · exact .inr (.inr ⟨hlock, update_self ..⟩)
      · exact .inl ⟨ws', by simp [State.setIrq], hj⟩
    | intrDone m' h =>
      cases hirq.symm.trans h
      cases hj
    | _ => exact absurd ‹At s d _ _›.irq busy
  · exact .inl ⟨ws, by rw [h.other_cpu hd, hirq], hj⟩

/-- A thread that `wakeup` finds dozing on its channel does not doze any more. -/
theorem Move.woken (hsane : s.Sane) (hbusy : s.Busy) (hs : s.Alert pr) (h : Move pr s c act t) (hd : s.doze p = some w)
    (hlock : s.lock p = none) (htask : t.task p = (s.task p).wakeup (some (w.chan p))) : t.doze p = none := by
  rcases Pc.doze_cases hd with hpc | ⟨hst, hpc⟩
  · exact absurd hlock (hbusy.locked hsane (by rw [hpc]; rfl))
  · obtain ⟨v, hv, hchan⟩ := hs.sleepers p hst
    obtain rfl := Wait.again_inj (hpc.symm.trans hv)
    have hstate : (t.task p).state = runnable := by
      rw [htask, Task.wakeup, if_pos hchan, Task.setProc_toProc, Proc.wakeup, if_pos hst]
    have hthread : t.thread p = s.thread p := by
      refine h.other_thread (fun hmode => ?_) (by rw [hst]; decide)
      rw [hsane.running hmode] at hst
      cases hst
    rw [State.doze, hthread, hpc, hstate]
    cases w <;> rfl

/-- A waker that comes to the slot of a dozing thread wakes it: it passes over the process of its own CPU only, and that does not
doze. -/
theorem Move.pending (hsane : s.Sane) (hbusy : s.Busy) (htree : s.Tree) (hlocks : s.Locks) (hs : s.Alert pr)
    (h : Move pr s c act t) (hd : s.doze p = some w) (hd' : t.doze p ≠ none) (hp : s.Pending (w.chan p) p) : t.Pending (w.chan p) p := by
  have awake : ∀ {ch : Option (Chan M)}, ch = some (w.chan p) → s.lock p = none → t.task p ≠ (s.task p).wakeup ch :=
    fun hch hlock htask => hd' (h.woken hsane hbusy hs hd hlock (hch ▸ htask))
  rcases hp with ⟨q, ws, hq, hws⟩ | ⟨m, d, ws, hm, hirq, hws⟩
  · have hne : ∀ {pc}, At s c q pc → (s.cpu c).proc ≠ some p := by
      intro pc hat hproc
      rw [hsane.procSet.myproc hat] at hproc
      cases hproc
      rw [State.doze, Pc.doze_waking hq] at hd
      cases hd
    generalize w.chan p = ch at hq awake ⊢
    left
    cases h.arrive htree q with
    | stay hpc => exact ⟨q, ws, by rw [hpc, hq], hws⟩
    | plain pc pc' hat hplain ht =>
      subst ht
      rw [hat.pc] at hq
      cases hplain with
      | wokeInit | wokeParent => cases hq; cases hws
      | skipInit hproc | skipParent hproc | skipNotify hproc =>
        cases hq
        rcases mem_cons.1 hws with rfl | hws
        · exact absurd hproc (hne hat)
        · exact ⟨q, _, by rw [State.goto_thread, update_self]; rfl, hws⟩
      | _ => cases hq
    | wake pc pc' ch j hat hwake hlock hpc htask =>
      rw [hat.pc] at hq
      cases hwake with
      | init | parent | notify =>
        cases hq
        rcases mem_cons.1 hws with rfl | hws
        · exact absurd htask (awake rfl hlock)
        · exact ⟨q, _, by rw [hpc]; rfl, hws⟩
    | other hpc hw =>
      cases ws with
      | nil => cases hws
      | cons j ws => exact absurd hq (hw _ j ws)
    | scan addr hat | reparent status pp rest hat | unready m a hat | sleepLock w hat | sleepRelease w hat | signal m f hat =>
      rw [hat.pc] at hq; cases hq
  · rcases h.irq hirq hws with ⟨ws', hirq', hws'⟩ | hproc | ⟨hlock, htask⟩
    · exact .inr ⟨m, d, ws', hm, hirq', hws'⟩
    · -- the handler interrupted the thread of `p`, which holds no lock, so it is not in `sleep`
      obtain ⟨hmode, hown⟩ := hlocks.frozen d (by rw [hirq]; exact Option.some_ne_none _) p hproc
      have hpc := Pc.doze_awake (by rw [hsane.running hmode]; decide) hd
      simp [Thread.own, hpc, Pc.ownLock] at hown
    · exact absurd htask (awake (congrArg some hm.symm) hlock)

/-- While a thread holds `wait_lock` elsewhere than in `reparent`, no parent changes and no child exits. -/
theorem Move.kin_held (hsane : s.Sane) (hlocks : s.Locks) (h : Move pr s c act t) (hw : (t.thread q).pc.holdsWait = true)
    (hne : ∀ status rest, (t.thread q).pc ≠ .reparentWake status rest allSlots) (x : Slot) :
    ((t.task x).parent = (s.task x).parent ∨ (t.task x).parent = none ∧ (t.task x).state = unused) ∧
      ((t.task x).state = zombie → (s.task x).state = zombie) := by
  have hwait := (h.locks hsane hlocks).wait q hw
  cases h.kin hsane with
  | same htask => exact htask x
  | adopt hfree | exit p status hat hfree => cases hwait.symm.trans hfree
  | reparent p pp status rest hat hsame hpc =>
    have hp := hlocks.wait p (by rw [hat.pc]; rfl)
    cases hwait.symm.trans (hsame.trans hp)
    exact absurd hpc (hne status rest)

section alert

variable (hsane : s.Sane) (hbusy : s.Busy) (htree : s.Tree) (hlocks : s.Locks) (hs : s.Alert pr) (h : Move pr s c act t)
include hsane hs h

theorem Move.alert_sleepers (p : Slot) (hst : (t.task p).state = sleeping) :
    ∃ w : Wait M A, (t.thread p).pc = w.again ∧ (t.task p).chan = some (w.chan p) := by
  rcases h.falls_asleep hsane hst with ⟨hst', hchan⟩ | hw
  · obtain ⟨w, hpc, hch⟩ := hs.sleepers p hst'
    have hthread : t.thread p = s.thread p := by
      refine h.other_thread (fun hmode => ?_) (by rw [hst']; decide)
      rw [hsane.running hmode] at hst'
      cases hst'
    exact ⟨w, by rw [hthread, hpc], hchan.trans hch⟩
  · exact hw

include htree hlocks

theorem Move.alert_cleared (p pp : Slot) (hc : (t.thread p).pc.cleared pp) (hparent : (t.task pp).parent = some p) :
    (t.task pp).state ≠ zombie := by
  intro hz
  have hne : ∀ status rest, (t.thread p).pc ≠ .reparentWake status rest allSlots := fun status rest hpc => by
    rw [hpc] at hc
    exact hc
  obtain ⟨hpar, hz'⟩ := h.kin_held hsane hlocks (Pc.holdsWait_of_cleared hc) hne pp
  have hparent' : (s.task pp).parent = some p := by
    rcases hpar with hpar | ⟨hpar, -⟩
    · rw [← hpar, hparent]
    · rw [hpar] at hparent
      cases hparent
  refine hs.cleared p pp ?_ hparent' (hz' hz)
  cases h.arrive htree p with
  | stay hpc => exact hpc ▸ hc
  | plain pc pc' hat hplain ht =>
    subst ht
    rw [State.goto_thread, update_self, Thread.goto_pc] at hc
    rw [hat.pc]
    cases hplain with
    | scan hnot =>
      refine fun hmem => ?_
      rcases mem_cons.1 hmem with rfl | hmem
      · exact hnot hparent' (hz' hz)
      · exact hc hmem
    | scanned => exact not_mem_nil
    | kwaitSleep => trivial
    | _ => cases hc
  | wake pc pc' ch j hat hwake hlock hpc =>
    rw [hpc] at hc
    cases hwake <;> cases hc
  | scan addr hat hpc =>
    rw [hpc] at hc
    exact absurd (mem_allSlots pp) hc
  | sleepLock w hat hpc =>
    rw [hpc] at hc
    rw [hat.pc]
    cases w with
    | kwait => trivial
    | mon => cases hc
  | unready m a hat hready hpc =>
    rw [hpc] at hc
    split at hc <;> cases hc
  | reparent status pp rest hat hpc | sleepRelease w hat hpc | signal m f hat hpc => rw [hpc] at hc; cases hc
  | other hpc => exact absurd hc (Pc.not_cleared hpc pp)

theorem Move.alert_chans (q : Slot) (status : Int) (ch : Option (Chan M)) (ws : List Slot)
    (hpc : (t.thread q).pc = .wakeParent status ch ws) : ch = (t.task q).parent.map .proc := by
  have hpar : (t.task q).parent = (s.task q).parent := by
    rcases (h.kin_held hsane hlocks (q := q) (by rw [hpc]; rfl) (fun _ _ h => by rw [hpc] at h; cases h) q).1 with h | ⟨-, hst⟩
    · exact h
    · exact absurd hst ((h.tree hsane htree).alive hpc rfl).1
  rw [hpar]
  cases h.arrive htree q with
  | stay hsame => exact hs.chans q status ch ws (hsame ▸ hpc)
  | plain pc pc' hat hplain ht =>
    subst ht
    rw [State.goto_thread, update_self, Thread.goto_pc] at hpc
    cases hplain with
    | reparented => cases hpc; rfl
    | skipParent => cases hpc; exact hs.chans q status ch _ hat.pc
    | _ => cases hpc
  | wake pc pc' ch' j hat hwake hlock hpc' =>
    rw [hpc'] at hpc
    cases hwake with
    | parent => cases hpc; exact hs.chans q status ch _ hat.pc
    | init | notify => cases hpc
  | unready m a hat hready hpc' =>
    rw [hpc'] at hpc
    split at hpc <;> cases hpc
  | other hpc' =>
    rw [hpc] at hpc'
    cases hpc'
  | _ => cases ‹(t.thread q).pc = _›.symm.trans hpc

omit hsane htree in
/-- While a thread holds the lock of a monitor between the test and `sleep`, nobody changes the data or its history. -/
theorem Move.tested_stay (ht : (s.thread p).pc.tested = some (m, a)) :
    pr.ready a (t.data m) = false ∧ t.met p = false := by
  obtain ⟨hready, hnot⟩ := hs.tested p m a ht
  have hheld := hlocks.mon m (.inl p) (Pc.holdsMon_of_tested ht)
  cases h.datum with
  | same hdata hmet =>
    refine ⟨by rw [hdata, hready], Bool.eq_false_iff.2 fun hm => ?_⟩
    cases hnot.symm.trans (hmet p hm)
  | pass q m' b hat hb hdata hmet =>
    have hne : m ≠ m' := by
      rintro rfl
      cases hheld.symm.trans (hlocks.mon m (.inl q) (congrArg Pc.holdsMon hat.pc))
      rw [hat.pc] at ht
      cases ht
    exact ⟨by rw [hdata, update_of_ne hne, hready], by rw [hmet, hnot]⟩
  | signal m' f hfree hdata hmet =>
    have hne : m ≠ m' := by
      rintro rfl
      cases hheld.symm.trans hfree
    exact ⟨by rw [hdata, update_of_ne hne, hready], by simp [hmet, hnot, Pc.loop_of_tested ht, hne]⟩

omit hsane in
theorem Move.alert_tested (p : Slot) (m : M) (a : A) (ht : (t.thread p).pc.tested = some (m, a)) :
    pr.ready a (t.data m) = false ∧ t.met p = false := by
  cases h.arrive htree p with
  | stay hpc => exact h.tested_stay hlocks hs (hpc ▸ ht)
  | plain pc pc' hat hplain hgoto =>
    subst hgoto
    rw [State.goto_thread, update_self, Thread.goto_pc] at ht
    cases hplain with
    | loopSleep =>
      cases ht
      exact hs.tested p m a (by rw [hat.pc]; rfl)
    | _ => cases ht
  | wake pc pc' ch j hat hwake hlock hpc =>
    rw [hpc] at ht
    cases hwake <;> cases ht
  | unready m' a' hat hready hpc hdata hmet =>
    have heq : (m', a') = (m, a) := by
      rw [hpc] at ht
      split at ht <;> exact Option.some.inj ht
    cases heq
    exact ⟨by rw [hdata, hready], hmet⟩
  | sleepLock w hat hpc hdata hmet =>
    rw [hpc] at ht
    cases w with
    | kwait => cases ht
    | mon =>
      cases ht
      rw [hdata, hmet]
      exact hs.tested p m a (by rw [hat.pc]; rfl)
  | scan addr hat hpc | reparent status pp rest hat hpc | sleepRelease w hat hpc | signal m f hat hpc => rw [hpc] at ht; cases ht
  | other hpc =>
    rw [Pc.not_tested hpc] at ht
    cases ht

include hbusy

theorem Move.alert_woken (q p : Slot) (addr : Nat) (hw : (t.thread q).pc.woken p) (hparent : (t.task q).parent = some p) :
    t.doze p ≠ some (.kwait addr) := by
  intro hd
  have hwait := (h.locks hsane hlocks).wait q (Pc.holdsWait_of_woken hw)
  have hne : ∀ status rest, (t.thread q).pc ≠ .reparentWake status rest allSlots := fun status rest hpc => by
    rw [hpc] at hw
    exact hw
  have hparent' : (s.task q).parent = some p := by
    rcases (h.kin_held hsane hlocks (Pc.holdsWait_of_woken hw) hne q).1 with hpar | ⟨hpar, -⟩
    · rw [← hpar, hparent]
    · rw [hpar] at hparent
      cases hparent
  have hd' : s.doze p = some (.kwait addr) := by
    rcases h.doze hsane hd with hd | ⟨-, rfl⟩
    · exact hd
    · cases hwait
  refine hs.woken q p addr ?_ hparent' hd'
  cases h.arrive htree q with
  | stay hpc => exact hpc ▸ hw
  | plain pc pc' hat hplain ht =>
    subst ht
    rw [State.goto_thread, update_self, Thread.goto_pc] at hw
    rw [hat.pc]
    cases hplain with
    | reparented => exact absurd (mem_allSlots p) hw
    | wokeParent => exact not_mem_nil
    | skipParent hproc =>
      refine fun hmem => ?_
      rcases mem_cons.1 hmem with rfl | hmem
      · cases (hsane.procSet.myproc hat).symm.trans hproc
        simp [State.doze, hat.pc, Pc.doze] at hd'
      · exact hw hmem
    | _ => cases hw
  | wake pc pc' ch j hat hwake hlock hpc htask =>
    rw [hpc] at hw
    rw [hat.pc]
    cases hwake with
    | parent =>
      refine fun hmem => ?_
      rcases mem_cons.1 hmem with rfl | hmem
      · rw [hs.chans q _ _ _ hat.pc, hparent'] at htask
        rw [h.woken hsane hbusy hs hd' hlock htask] at hd
        cases hd
      · exact hw hmem
    | init | notify => cases hw
  | unready m a hat hready hpc =>
    rw [hpc] at hw
    split at hw <;> cases hw
  | scan addr hat hpc | reparent status pp rest hat hpc | sleepLock w hat hpc | sleepRelease w hat hpc | signal m f hat hpc =>
    rw [hpc] at hw; cases hw
  | other hpc => exact absurd hw (Pc.not_woken hpc p)

theorem Move.alert_pending (p pp : Slot) (addr : Nat) (hd : t.doze p = some (.kwait addr)) (hparent : (t.task pp).parent = some p)
    (hz : (t.task pp).state = zombie) : t.Pending (.proc p) p := by
  rcases h.doze hsane hd with hd' | ⟨hat, rfl⟩
  · have keep : (s.task pp).parent = some p → (s.task pp).state = zombie → t.Pending (.proc p) p := fun hparent' hz' =>
      h.pending hsane hbusy htree hlocks hs hd' (by rw [hd]; exact Option.some_ne_none _) (hs.pending p pp addr hd' hparent' hz')
    cases h.kin hsane with
    | same htask =>
      rcases (htask pp).1 with hpar | ⟨-, hst⟩
      · exact keep (hpar ▸ hparent) ((htask pp).2 hz)
      · cases hz.symm.trans hst
    | adopt hfree htask => exact keep ((htask pp hz).1 ▸ hparent) (htask pp hz).2
    | reparent q x status rest hat hsame hpc htask =>
      rcases (htask pp).1 with hpar | hpar
      · exact keep (hpar ▸ hparent) ((htask pp).2 ▸ hz)
      · cases hparent.symm.trans hpar
        exact .inl ⟨q, allSlots, by rw [hpc]; rfl, mem_allSlots _⟩
    | exit q status hat hfree htask =>
      rcases (htask pp).2 hz with rfl | hz'
      · exact absurd hd' (hs.woken pp p addr (by rw [hat.pc]; trivial) ((htask pp).1 ▸ hparent))
      · exact keep ((htask pp).1 ▸ hparent) hz'
  · exact absurd hz (hs.cleared p pp (by rw [hat.pc]; trivial) hparent)

theorem Move.alert_armed (p : Slot) (m : M) (a : A) (hd : t.doze p = some (.mon m a))
    (hready : pr.ready a (t.data m) = true ∨ t.met p = true) : t.Pending (.mon m) p := by
  rcases h.doze hsane hd with hd' | ⟨hat, rfl⟩
  · have keep : pr.ready a (s.data m) = true ∨ s.met p = true → t.Pending (.mon m) p := fun hc =>
      h.pending hsane hbusy htree hlocks hs hd' (by rw [hd]; exact Option.some_ne_none _) (hs.armed p m a hd' hc)
    cases h.datum with
    | same hdata hmet => exact keep (hready.imp (fun h => hdata ▸ h) (hmet p))
    | pass q m' b hat hb hdata hmet =>
      refine keep (hready.imp (fun h => ?_) fun h => hmet ▸ h)
      rw [hdata] at h
      rw [update_apply] at h
      split_ifs at h with hm
      · subst hm
        -- what another thread passes with does not make this condition true
        by_contra hfalse
        cases h.symm.trans (pr.quiet b a _ hb (Bool.eq_false_iff.2 hfalse))
      · assumption
    | signal m' f hfree hdata hmet hpending =>
      by_cases hm : m = m'
      · subst hm
        exact hpending p
      · refine keep (hready.imp (fun h => ?_) fun h => ?_)
        · rwa [hdata, update_of_ne hm] at h
        · simpa [hmet, Pc.loop_of_doze hd', hm] using h
  · obtain ⟨hnot, hmet⟩ := hs.tested p m a (by rw [hat.pc]; rfl)
    rcases hready with hready | hready
    · cases hnot.symm.trans hready
    · cases hmet.symm.trans hready

theorem Move.alert : t.Alert pr where
  sleepers := h.alert_sleepers hsane hs
  cleared := h.alert_cleared hsane htree hlocks hs
  chans := h.alert_chans hsane htree hlocks hs
  woken := h.alert_woken hsane hbusy htree hlocks hs
  pending := h.alert_pending hsane hbusy htree hlocks hs
  tested := h.alert_tested htree hlocks hs
  armed := h.alert_armed hsane hbusy htree hlocks hs

end alert

end moves

/-- At boot no thread is in the kernel but that of `init`, which is about to return to user space. -/
theorem State.boot_pc (p : Slot) : ((State.boot data : State C M D A).thread p).pc.indifferent = true ∧
    ((State.boot data : State C M D A).thread p).pc.waking = none ∧ (State.boot data : State C M D A).doze p = none := by
  rw [State.doze, State.boot_thread]
  split_ifs <;> exact ⟨rfl, rfl, rfl⟩

theorem State.Locks.boot : (State.boot data : State C M D A).Locks where
  wait p h := by
    rw [State.boot_thread] at h
    split_ifs at h <;> cases h
  mon m x h := by
    cases x with
    | inl p =>
      rw [State.Holding, State.boot_thread] at h
      split_ifs at h <;> cases h
    | inr =>
      obtain ⟨ws, h⟩ := h
      cases h
  frozen c h := absurd rfl h

theorem State.Busy.boot : (State.boot data : State C M D A).Busy := by
  intro p hpc hdead
  rw [State.boot_thread] at hpc hdead
  split_ifs at hpc hdead
  · cases hpc
  · cases hdead

theorem State.Alert.boot (pr : Protocol D A) (data : M → D) : (State.boot data : State C M D A).Alert pr where
  sleepers p h := by
    rw [State.boot_task] at h
    split_ifs at h <;> cases h
  cleared p pp h := absurd h (Pc.not_cleared (State.boot_pc data p).1 pp)
  chans q status ch ws h := by
    have hpc := (State.boot_pc (C := C) (A := A) data q).1
    rw [h] at hpc
    cases hpc
  woken q p addr h := absurd h (Pc.not_woken (State.boot_pc data q).1 p)
  pending p pp addr h := by
    rw [(State.boot_pc data p).2.2] at h
    cases h
  tested p m a h := by
    rw [Pc.not_tested (State.boot_pc data p).1] at h
    cases h
  armed p m a h := by
    rw [(State.boot_pc data p).2.2] at h
    cases h

/-- What holds in every state the kernel reaches. -/
structure State.Inv (pr : Protocol D A) (s : State C M D A) : Prop where
  sane : s.Sane
  tree : s.Tree
  locks : s.Locks
  busy : s.Busy
  alert : s.Alert pr

theorem State.Inv.boot (pr : Protocol D A) (data : M → D) : (State.boot data : State C M D A).Inv pr :=
  ⟨.boot data, .boot data, .boot data, .boot data, .boot pr data⟩

section runs

open Lib

variable [DecidableEq C] [DecidableEq M] {pr : Protocol D A} {eco : EcoMode} {data : M → D} {ls : List (Label C M D A)}
  {s t : State C M D A} {c : C} {act : Act M D A}

theorem Move.inv (hs : s.Inv pr) (h : Move pr s c act t) : t.Inv pr where
  sane := h.sane hs.sane
  tree := h.tree hs.sane hs.tree
  locks := h.locks hs.sane hs.locks
  busy := h.busy hs.busy
  alert := h.alert hs.sane hs.busy hs.tree hs.locks hs.alert

theorem State.Inv.of_run (h : Run (StepOf (State.step pr eco)) (.boot data) ls s) : s.Inv pr :=
  h.invariant (fun _ _ _ hs hstep => (Move.of_step hstep).inv hs) (.boot pr data)

/-- The census holds as long as no pid has been allocated twice. -/
theorem State.Census.of_run (h : Run (StepOf (State.step pr eco)) (.boot data) ls s) (hlt : s.allocated < 2 ^ 31) : s.Census := by
  have hinv : s.Inv pr ∧ (s.allocated < 2 ^ 31 → s.Census) := by
    refine h.invariant (I := fun s => s.Inv pr ∧ (s.allocated < 2 ^ 31 → s.Census)) (fun s l t hs hstep => ?_)
      ⟨.boot pr data, fun _ => .boot data⟩
    have hmove := Move.of_step hstep
    have hchange := hmove.change hs.1.sane
    exact ⟨hmove.inv hs.1, fun hlt => hchange.census (hs.2 (lt_of_le_of_lt hchange.allocated_le hlt)) hlt⟩
  exact hinv.2 hlt

end runs

end Xv6.Threads
