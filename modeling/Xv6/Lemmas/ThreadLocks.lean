import Xv6.Lemmas.ThreadTree

/-!
# Who holds `wait_lock` and the condition locks

A place of the kernel says which lock the thread holds there; the lock then names the thread, so at most one thread is at such a
place. A step of one CPU leaves alone the threads that the other CPUs run.
-/

namespace Xv6.Threads

open ProcState Function

variable {C M D A : Type}

/-- The thread holds `wait_lock`. -/
def Pc.holdsWait : Pc M D A → Bool
  | .reparent _ _ | .reparentWake _ _ _ | .wakeParent _ _ _ | .exitMark _ | .scan _ _ _ | .scanned _ _ | .sleep (.kwait _)
  | .sleepLocked (.kwait _) => true
  | _ => false

/-- The monitor whose lock the thread holds. -/
def Pc.holdsMon : Pc M D A → Option M
  | .test m _ | .testKilled m _ | .sleep (.mon m _) | .sleepLocked (.mon m _) | .sig (.notify m _) => some m
  | _ => none

section footprint

variable {pr : Protocol D A} {s t : State C M D A} {c : C} {act : Act M D A} {p : Slot} {pc pc' : Pc M D A}

/-- The threads that a step changes: none, the one its CPU runs, or in `kfork` that one and the child's. -/
inductive Footprint (s : State C M D A) (c : C) (t : State C M D A) : Prop where
  | none (hthread : t.thread = s.thread)
  | one (p : Slot) (th : Thread M D A) (hirq : (s.cpu c).irq = none) (hmode : (s.cpu c).mode = .running p)
    (hthread : t.thread = update s.thread p th)
  | fork (p i : Slot) (th : Thread M D A) (hirq : (s.cpu c).irq = none) (hmode : (s.cpu c).mode = .running p)
    (hi : (s.task i).state = unused) (hthread : t.thread = update (update s.thread i ⟨.user, .yield, 0⟩) p th)

theorem At.footprint (hat : At s c p pc) {th : Thread M D A} (hthread : t.thread = update s.thread p th) : Footprint s c t :=
  .one p th hat.irq hat.mode hthread

variable [DecidableEq C] [DecidableEq M]

theorem Move.footprint (h : Move pr s c act t) : Footprint s c t := by
  cases h with
  | look | account | switchTo | back | file | intr | intrSignal | intrSkip | intrWake | intrDone => exact .none rfl
  | resume p hirq hmode => exact .one p _ hirq hmode rfl
  | forked p i rest hat hlock hstate => exact .fork p i _ hat.irq hat.mode hstate rfl
  | sleepRelease p w hat => cases w <;> exact hat.footprint rfl
  | _ => exact At.footprint (by assumption) rfl

theorem Move.other_cpu (h : Move pr s c act t) {d : C} (hd : d ≠ c) : t.cpu d = s.cpu d := by
  cases h with
  | sleepRelease p w => cases w <;> rfl
  | look | switchTo | back | yield | exitMark | asleep | intr | intrSignal | intrSkip | intrWake | intrDone => exact update_of_ne hd _ _
  | _ => rfl

/-- A thread that is not run by the CPU that takes the step, and is not being made, stays where it is. -/
theorem Move.other_thread (h : Move pr s c act t) {q : Slot} (hq : (s.cpu c).mode ≠ .running q)
    (hst : (s.task q).state ≠ unused) : t.thread q = s.thread q := by
  cases h.footprint with
  | none hthread => rw [hthread]
  | one p th hirq hmode hthread =>
    have hne : q ≠ p := fun h => hq (h ▸ hmode)
    rw [hthread, update_of_ne hne]
  | fork p i th hirq hmode hi hthread =>
    have hne : q ≠ p := fun h => hq (h ▸ hmode)
    have hne' : q ≠ i := fun h => hst (h ▸ hi)
    rw [hthread, update_of_ne hne, update_of_ne hne']

end footprint

/-- Who is at a place where the lock of `m` is held: a thread, or the interrupt handler of a CPU. -/
def State.Holding (s : State C M D A) (m : M) : Slot ⊕ C → Prop
  | .inl p => (s.thread p).pc.holdsMon = some m
  | .inr c => ∃ ws, (s.cpu c).irq = some (.notify m ws)

/-- The locks name those who hold them, and a CPU that handles an interrupt runs no thread that holds its own lock. -/
structure State.Locks (s : State C M D A) : Prop where
  wait : ∀ p, (s.thread p).pc.holdsWait = true → s.wait = some p
  mon : ∀ m h, s.Holding m h → s.held m = some h
  frozen : ∀ c, (s.cpu c).irq ≠ none → ∀ p, (s.cpu c).proc = some p → (s.cpu c).mode = .running p ∧ (s.thread p).own = false

namespace State.Locks

variable {s t : State C M D A} {c : C} {p : Slot} {pc : Pc M D A} {m : M} {h : Slot ⊕ C}

section wait

theorem wait_keep (hs : s.Locks) (hthread : ∀ q, (t.thread q).pc.holdsWait = true → (s.thread q).pc.holdsWait = true)
    (hwait : t.wait = s.wait) (q : Slot) (hq : (t.thread q).pc.holdsWait = true) : t.wait = some q :=
  hwait.trans (hs.wait q (hthread q hq))

variable {th : Thread M D A}

theorem wait_take (hs : s.Locks) (hthread : t.thread = update s.thread p th) (hfree : s.wait = none)
    (hwait : t.wait = some p) (q : Slot) (hq : (t.thread q).pc.holdsWait = true) : t.wait = some q := by
  by_cases hp : q = p
  · rw [hp, hwait]
  · rw [hthread, update_of_ne hp] at hq
    rw [hs.wait q hq] at hfree
    cases hfree

theorem wait_give (hs : s.Locks) (hthread : t.thread = update s.thread p th)
    (hheld : (s.thread p).pc.holdsWait = true) (hth : th.pc.holdsWait = false) (q : Slot) (hq : (t.thread q).pc.holdsWait = true) :
    t.wait = some q := by
  exfalso
  rw [hthread, update_apply] at hq
  split_ifs at hq with hp
  · subst hp
    rw [hth] at hq
    cases hq
  · exact hp (Option.some.inj ((hs.wait q hq).symm.trans (hs.wait p hheld)))

end wait

section mon

theorem mon_keep (hs : s.Locks) (hhold : ∀ m h, t.Holding m h → s.Holding m h) (hheld : t.held = s.held) (m : M) (h : Slot ⊕ C)
    (hm : t.Holding m h) : t.held m = some h := by
  rw [hheld]
  exact hs.mon m h (hhold m h hm)

variable [DecidableEq M]

theorem mon_take (hs : s.Locks) (hfree : s.held m = none) (hhold : ∀ m' h', t.Holding m' h' → (m' = m ∧ h' = h) ∨ s.Holding m' h')
    (hheld : t.held = update s.held m (some h)) (m' : M) (h' : Slot ⊕ C) (hm : t.Holding m' h') : t.held m' = some h' := by
  rw [hheld]
  rcases hhold m' h' hm with ⟨rfl, rfl⟩ | hm'
  · rw [update_self]
  · have hne : m' ≠ m := by
      rintro rfl
      rw [hs.mon m' h' hm'] at hfree
      cases hfree
    rw [update_of_ne hne]
    exact hs.mon m' h' hm'

theorem mon_give (hs : s.Locks) (hm : s.Holding m h) (hhold : ∀ m' h', t.Holding m' h' → h' ≠ h ∧ s.Holding m' h')
    (hheld : t.held = update s.held m none) (m' : M) (h' : Slot ⊕ C) (hm' : t.Holding m' h') : t.held m' = some h' := by
  obtain ⟨hne, hold⟩ := hhold m' h' hm'
  have hmon : m' ≠ m := by
    rintro rfl
    exact hne (Option.some.inj ((hs.mon m' h' hold).symm.trans (hs.mon m' h hm)))
  rw [hheld, update_of_ne hmon]
  exact hs.mon m' h' hold

end mon

end State.Locks

section moves

variable {pr : Protocol D A} {s t : State C M D A} {c : C} {act : Act M D A} {p : Slot} {pc pc' : Pc M D A} {h : Slot ⊕ C} {m : M}

/-- Who holds a lock after a thread has gone on: the thread as its new place says, and all others as before. -/
theorem State.Holding.goto {th : Thread M D A} (hthread : t.thread = update s.thread p th) (hirq : ∀ c, (t.cpu c).irq = (s.cpu c).irq)
    (hm : t.Holding m h) : (h = .inl p ∧ th.pc.holdsMon = some m) ∨ (h ≠ .inl p ∧ s.Holding m h) := by
  cases h with
  | inl q =>
    by_cases hq : q = p
    · subst hq
      simp only [State.Holding, hthread, update_self] at hm
      exact .inl ⟨rfl, hm⟩
    · simp only [State.Holding, hthread, update_of_ne hq] at hm
      exact .inr ⟨fun h => hq (Sum.inl.inj h), hm⟩
  | inr d =>
    obtain ⟨ws, hws⟩ := hm
    exact .inr ⟨fun h => (by cases h), ws, (hirq d) ▸ hws⟩

theorem Plain.holds (h : Plain s c p pc pc') : pc'.holdsWait = pc.holdsWait ∧ pc'.holdsMon = pc.holdsMon := by
  cases h <;> exact ⟨rfl, rfl⟩

theorem Waking.holds {ch : Option (Chan M)} {j : Slot} (h : Waking pc ch j pc') : pc'.holdsWait = pc.holdsWait ∧ pc'.holdsMon = pc.holdsMon := by
  cases h <;> exact ⟨rfl, rfl⟩

theorem LockWait.holds (h : LockWait pc pc') : pc'.holdsMon = pc.holdsMon := by
  cases h <;> rfl

theorem Unwaited.holds (h : Unwaited pc) : pc.holdsWait = true ∧ pc.holdsMon = none := by
  cases h <;> exact ⟨rfl, rfl⟩

/-- The two clauses of `Locks` on locks, which a step keeps. -/
def State.Named (s : State C M D A) : Prop :=
  (∀ p, (s.thread p).pc.holdsWait = true → s.wait = some p) ∧ ∀ m h, s.Holding m h → s.held m = some h

section goto

variable {th : Thread M D A} (hs : s.Locks) (hpc : (s.thread p).pc = pc) (hthread : t.thread = update s.thread p th)
include hs hpc hthread

/-- A thread goes on and does not take `wait_lock`. -/
theorem State.Locks.goto_wait (hw : th.pc.holdsWait = true → pc.holdsWait = true) (hwait : t.wait = s.wait) :
    ∀ q, (t.thread q).pc.holdsWait = true → t.wait = some q := by
  refine hs.wait_keep (fun q hq => ?_) hwait
  rw [hthread, update_apply] at hq
  split_ifs at hq with h
  · subst h
    exact hpc ▸ hw hq
  · exact hq

/-- A thread goes on and takes the lock of no monitor. -/
theorem State.Locks.goto_mon (hm : ∀ m, th.pc.holdsMon = some m → pc.holdsMon = some m) (hheld : t.held = s.held)
    (hirq : ∀ c, (t.cpu c).irq = (s.cpu c).irq) : ∀ m h, t.Holding m h → t.held m = some h := by
  refine hs.mon_keep (fun m h hmh => ?_) hheld
  rcases hmh.goto hthread hirq with ⟨rfl, h⟩ | ⟨-, h⟩
  · exact (congrArg Pc.holdsMon hpc).trans (hm m h)
  · exact h

theorem State.Locks.goto (hw : th.pc.holdsWait = true → pc.holdsWait = true) (hm : ∀ m, th.pc.holdsMon = some m → pc.holdsMon = some m)
    (hwait : t.wait = s.wait) (hheld : t.held = s.held) (hirq : ∀ c, (t.cpu c).irq = (s.cpu c).irq) : t.Named :=
  ⟨hs.goto_wait hpc hthread hw hwait, hs.goto_mon hpc hthread hm hheld hirq⟩

/-- A thread goes on to a place where it holds no lock, and has held none. -/
theorem State.Locks.goto_free (hw : th.pc.holdsWait = false) (hm : th.pc.holdsMon = none) (hwait : t.wait = s.wait) (hheld : t.held = s.held)
    (hirq : ∀ c, (t.cpu c).irq = (s.cpu c).irq) : t.Named := by
  refine hs.goto hpc hthread (fun h => ?_) (fun m h => ?_) hwait hheld hirq
  · rw [hw] at h
    cases h
  · rw [hm] at h
    cases h

/-- A thread releases `wait_lock`. -/
theorem State.Locks.give_wait (hheld : pc.holdsWait = true) (hw : th.pc.holdsWait = false) (hm : th.pc.holdsMon = none)
    (hmon : t.held = s.held) (hirq : ∀ c, (t.cpu c).irq = (s.cpu c).irq) : t.Named := by
  refine ⟨hs.wait_give hthread (hpc ▸ hheld) hw, hs.goto_mon hpc hthread (fun m h => ?_) hmon hirq⟩
  rw [hm] at h
  cases h

variable [DecidableEq M] {m : M}

/-- A thread takes the lock of a monitor. -/
theorem State.Locks.take_mon (hfree : s.held m = none) (hw : th.pc.holdsWait = false) (hm : th.pc.holdsMon = some m)
    (hwait : t.wait = s.wait) (hheld : t.held = update s.held m (some (.inl p))) (hirq : ∀ c, (t.cpu c).irq = (s.cpu c).irq) :
    t.Named := by
  refine ⟨hs.goto_wait hpc hthread (fun h => ?_) hwait, hs.mon_take hfree (fun m' h' hmh => ?_) hheld⟩
  · rw [hw] at h
    cases h
  · rcases hmh.goto hthread hirq with ⟨rfl, h⟩ | ⟨-, h⟩
    · exact .inl ⟨Option.some.inj (h.symm.trans hm), rfl⟩
    · exact .inr h

/-- A thread releases the lock of a monitor. -/
theorem State.Locks.give_mon (hpm : pc.holdsMon = some m) (hw : th.pc.holdsWait = false) (hm : th.pc.holdsMon = none)
    (hwait : t.wait = s.wait) (hheld : t.held = update s.held m none) (hirq : ∀ c, (t.cpu c).irq = (s.cpu c).irq) : t.Named := by
  refine ⟨hs.goto_wait hpc hthread (fun h => ?_) hwait,
    hs.mon_give (h := .inl p) ((congrArg Pc.holdsMon hpc).trans hpm) (fun m' h' hmh => ?_) hheld⟩
  · rw [hw] at h
    cases h
  · rcases hmh.goto hthread hirq with ⟨rfl, h⟩ | h
    · rw [hm] at h
      cases h
    · exact h

end goto

/-- The threads stay where they are. -/
theorem State.Locks.still (hs : s.Locks) (hthread : ∀ q, (t.thread q).pc = (s.thread q).pc) (hwait : t.wait = s.wait) (hheld : t.held = s.held)
    (hirq : ∀ c, (t.cpu c).irq = (s.cpu c).irq) : t.Named := by
  refine ⟨hs.wait_keep (fun q hq => hthread q ▸ hq) hwait, hs.mon_keep (fun m h hmh => ?_) hheld⟩
  cases h with
  | inl q => exact (congrArg Pc.holdsMon (hthread q)).symm.trans hmh
  | inr d =>
    obtain ⟨ws, hws⟩ := hmh
    exact ⟨ws, hirq d ▸ hws⟩

/-- A handler goes on: who holds a lock is it, as its new place says, or another as before. -/
theorem State.Holding.intr [DecidableEq C] {x : Cpu M D} (hm : t.Holding m h) (hthread : t.thread = s.thread)
    (hcpu : t.cpu = update s.cpu c x) : (h = .inr c ∧ ∃ ws, x.irq = some (.notify m ws)) ∨ (h ≠ .inr c ∧ s.Holding m h) := by
  cases h with
  | inl =>
    simp only [State.Holding, hthread] at hm
    exact .inr ⟨fun h => (by cases h), hm⟩
  | inr d =>
    obtain ⟨ws, hws⟩ := hm
    rw [hcpu, update_apply] at hws
    split_ifs at hws with hd
    · subst hd
      exact .inl ⟨rfl, ws, hws⟩
    · exact .inr ⟨fun h => hd (Sum.inr.inj h), ws, hws⟩

variable [DecidableEq C] [DecidableEq M]

theorem Move.named (hsane : s.Sane) (hs : s.Locks) (h : Move pr s c act t) : t.Named := by
  -- a CPU that does not handle an interrupt does not start to in these steps
  have idle : ∀ {a b}, (s.cpu c).irq = none → ∀ d, (update s.cpu c ⟨a, b, none⟩ d).irq = (s.cpu d).irq :=
    fun hirq => view_same (f := Cpu.irq) hirq.symm
  cases h with
  | look task mode hirq | switchTo p hirq | back p hirq =>
    exact hs.still (fun _ => rfl) rfl rfl (idle hirq)
  | account | file => exact ⟨hs.wait, hs.mon⟩
  | resume => exact hs.still (view_same (f := Thread.pc) rfl) rfl rfl fun _ => rfl
  | yield p pc hat => exact hs.still (view_same (f := Thread.pc) rfl) rfl rfl (idle hat.irq)
  | plain p pc pc' hat h | wake p j pc pc' ch hat h =>
    exact hs.goto hat.pc rfl (fun h' => h.holds.1 ▸ h') (fun m h' => h.holds.2 ▸ h') rfl rfl fun _ => rfl
  | ends p pc v hat | callExit p status hat | forkFailed p i rest hat | adopt p np pid hat | publish p np pid hat | kill p i pid rest hat =>
    exact hs.goto_free hat.pc rfl rfl rfl rfl rfl fun _ => rfl
  | forked p i rest hat hlock hstate =>
    have h1 : State.Locks { s with thread := update s.thread i ⟨.user, .yield, 0⟩ } := by
      obtain ⟨hw, hm⟩ : State.Named { s with thread := update s.thread i ⟨.user, .yield, 0⟩ } :=
        hs.goto_free (p := i) rfl rfl rfl rfl rfl rfl fun _ => rfl
      refine ⟨hw, hm, fun d hd q hq => ?_⟩
      obtain ⟨hmode, hown⟩ := hs.frozen d hd q hq
      have hne : q ≠ i := by
        rintro rfl
        rw [hsane.running hmode] at hstate
        cases hstate
      exact ⟨hmode, by simp only [update_of_ne hne]; exact hown⟩
    exact h1.goto_free (p := p) rfl rfl rfl rfl rfl rfl fun _ => rfl
  | lockWait p pc pc' hat h hwait =>
    exact ⟨hs.wait_take rfl hwait rfl, hs.goto_mon hat.pc rfl (fun m h' => h.holds ▸ h') rfl fun _ => rfl⟩
  | reparent p pp status rest hat => exact hs.goto hat.pc rfl (fun _ => rfl) (fun m h => by cases h) rfl rfl fun _ => rfl
  | exitMark p status hat => exact hs.give_wait hat.pc rfl rfl rfl rfl rfl (idle hat.irq)
  | reap p pp addr k rest hat => exact hs.give_wait hat.pc rfl rfl rfl rfl rfl fun _ => rfl
  | unwaited p pc hat h => exact hs.give_wait hat.pc rfl h.holds.1 rfl rfl rfl fun _ => rfl
  | lockLoop p pc m a hat h hheld | signal p m f hat hheld => exact hs.take_mon hat.pc rfl hheld rfl rfl rfl rfl fun _ => rfl
  | pass p m a b hat => exact hs.goto hat.pc rfl (fun h => by cases h) (fun m h => h) rfl rfl fun _ => rfl
  | passed p m a hat | loopKilled p m a hat | notified p m hat => exact hs.give_mon hat.pc rfl rfl rfl rfl rfl rfl fun _ => rfl
  | unready p m a hat =>
    refine hs.goto hat.pc rfl (fun h => ?_) (fun m h => ?_) rfl rfl fun _ => rfl
    · simp only [Thread.goto_pc] at h
      split at h <;> cases h
    · simp only [Thread.goto_pc] at h
      split at h <;> exact h
  | sleepLock p w hat => cases w <;> exact hs.goto hat.pc rfl (fun h => h) (fun m h => h) rfl rfl fun _ => rfl
  | sleepRelease p w hat =>
    cases w with
    | kwait => exact hs.give_wait hat.pc rfl rfl rfl rfl rfl fun _ => rfl
    | mon => exact hs.give_mon hat.pc rfl rfl rfl rfl rfl rfl fun _ => rfl
  | asleep p w hat =>
    refine hs.goto hat.pc rfl (fun h => ?_) (fun m h => ?_) rfl rfl (idle hat.irq)
    · cases w <;> cases h
    · cases w <;> cases h
  | intr m f hirq h =>
    refine ⟨hs.wait, hs.mon_keep (fun m' h' hmh => ?_) rfl⟩
    rcases hmh.intr (s := s) rfl rfl with ⟨-, ws, h⟩ | ⟨-, h⟩
    · cases h
    · exact h
  | intrSignal m f hirq hheld =>
    refine ⟨hs.wait, hs.mon_take (h := .inr c) hheld (fun m' h' hmh => ?_) rfl⟩
    rcases hmh.intr (s := s) rfl rfl with ⟨rfl, ws, h⟩ | ⟨-, h⟩
    · cases h
      exact .inl ⟨rfl, rfl⟩
    · exact .inr h
  | intrSkip m j ws hirq | intrWake m j ws hirq =>
    refine ⟨hs.wait, hs.mon_keep (fun m' h' hmh => ?_) rfl⟩
    rcases hmh.intr (s := s) rfl rfl with ⟨rfl, ws', h⟩ | ⟨-, h⟩
    · cases h
      exact ⟨_, hirq⟩
    · exact h
  | intrDone m hirq =>
    refine ⟨hs.wait, hs.mon_give (h := .inr c) ⟨_, hirq⟩ (fun m' h' hmh => ?_) rfl⟩
    rcases hmh.intr (s := s) rfl rfl with ⟨-, ws, h⟩ | h
    · cases h
    · exact h

/-- The CPU that takes a step handles an interrupt after it only if it did before, or its thread held no lock. -/
theorem Move.frozen (hsane : s.Sane) (hs : s.Locks) (h : Move pr s c act t) :
    ∀ d, (t.cpu d).irq ≠ none → ∀ p, (t.cpu d).proc = some p → (t.cpu d).mode = .running p ∧ (t.thread p).own = false := by
  intro d hd p hp
  by_cases hdc : d = c
  · subst hdc
    -- an interrupt is taken only where the thread holds no lock, and the thread waits for the handler
    have keep : t.cpu d = s.cpu d → t.thread = s.thread → (t.cpu d).mode = .running p ∧ (t.thread p).own = false := fun hcpu hthread => by
      rw [hcpu] at hd hp ⊢
      rw [hthread]
      exact hs.frozen d hd p hp
    have none : ∀ {x : Cpu M D}, t.cpu = update s.cpu d x → x.irq = none → False := fun hcpu hx => by
      rw [hcpu, update_self] at hd
      exact hd hx
    have cont : ∀ {x : Sig M D}, (s.cpu d).irq = some x → (s.cpu d).proc = some p → t.thread = s.thread →
        (s.cpu d).mode = .running p ∧ (t.thread p).own = false := fun hirq hproc hthread => by
      rw [hthread]
      exact hs.frozen d (by rw [hirq]; exact Option.some_ne_none _) p hproc
    cases h with
    | look | switchTo | back | yield | exitMark | asleep | intrDone => exact (none rfl rfl).elim
    | account => exact keep rfl rfl
    | resume p hirq => exact absurd hirq hd
    | sleepRelease p w hat => cases w <;> exact absurd hat.irq hd
    | intr m f hirq h =>
      simp only [State.setIrq, update_self] at hp ⊢
      have hmode := hsane.procSet d
      rw [hp] at hmode
      rcases h with h | ⟨q, hq, hctx, hpc⟩
      · rw [h] at hmode
        cases hmode
      · rw [hq] at hmode ⊢
        cases hmode
        exact ⟨rfl, by simp [Thread.own, hctx, Pc.ownLock_of_interruptible hpc]⟩
    | intrSignal m f hirq | intrSkip m j ws hirq | intrWake m j ws hirq =>
      simp only [State.setIrq, update_self] at hp ⊢
      exact cont hirq hp rfl
    | _ => exact absurd ‹At s d _ _›.irq hd
  · rw [h.other_cpu hdc] at hd hp ⊢
    obtain ⟨hmode, hown⟩ := hs.frozen d hd p hp
    have hc : (s.cpu c).mode ≠ .running p := fun hc =>
      hdc (hsane.core.uniq d c p (Mode.proc_eq_some.2 (.inl hmode)) (Mode.proc_eq_some.2 (.inl hc)))
    rw [h.other_thread hc (by rw [hsane.running hmode]; decide)]
    exact ⟨hmode, hown⟩

theorem Move.locks (hsane : s.Sane) (hs : s.Locks) (h : Move pr s c act t) : t.Locks :=
  ⟨(h.named hsane hs).1, (h.named hsane hs).2, h.frozen hsane hs⟩

end moves

end Xv6.Threads
