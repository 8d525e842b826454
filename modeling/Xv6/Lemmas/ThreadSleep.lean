import Xv6.Lemmas.ThreadLocks

/-!
# No lost wakeup

A thread dozes from the moment it has released the condition lock in `sleep` until a `wakeup` or `kkill` finds it `SLEEPING`. While it
dozes and its condition is true, some waker is in its loop over the process table and has still to come to its slot; the waker holds
the condition lock, so once that is free nobody dozes whose condition is true.
-/

namespace Xv6.Threads

open ProcState Function

variable {C M D A : Type} {st : ProcState} {pc : Pc M D A} {w : Wait M A}

/-- The loop in which a thread dozes, by its place and the state of its process. -/
def Pc.doze : Pc M D A → ProcState → Option (Wait M A)
  | .sleepReleased w, _ => some w
  | .kwait addr, st => if st = sleeping then some (.kwait addr) else none
  | .retry m a, st => if st = sleeping then some (.mon m a) else none
  | _, _ => none

def State.doze (s : State C M D A) (p : Slot) : Option (Wait M A) := (s.thread p).pc.doze (s.task p).state

/-- The channel that a thread wakes and the slots it has still to come to. -/
def Pc.waking : Pc M D A → Option (Option (Chan M) × List Slot)
  | .reparentWake _ _ ws => some (some (.proc initproc), ws)
  | .wakeParent _ ch ws => some (ch, ws)
  | .sig (.notify m ws) => some (some (.mon m), ws)
  | _ => none

theorem Pc.doze_awake (hst : st ≠ sleeping) (h : pc.doze st = some w) :
    pc = .sleepReleased w := by
  cases pc <;> simp [Pc.doze, hst] at h
  rw [h]

theorem Pc.doze_again (w : Wait M A) : (w.again : Pc M D A).doze sleeping = some w := by
  cases w <;> rfl

/-- A thread that dozes either holds `p->lock` still, or is `SLEEPING`. -/
theorem Pc.doze_cases (h : pc.doze st = some w) :
    pc = .sleepReleased w ∨ st = sleeping ∧ pc = w.again := by
  by_cases hst : st = sleeping
  · cases pc <;> simp [Pc.doze, hst] at h
    · exact .inr ⟨hst, h ▸ rfl⟩
    · exact .inr ⟨hst, h ▸ rfl⟩
    · exact .inl (h ▸ rfl)
  · exact .inl (Pc.doze_awake hst h)

theorem Wait.again_inj {v w : Wait M A} (h : (v.again : Pc M D A) = w.again) : v = w := by
  cases v <;> cases w <;> cases h <;> rfl

section doze

variable {pr : Protocol D A} {s t : State C M D A} {c : C} {act : Act M D A} {p q : Slot} {pc pc' : Pc M D A} {w : Wait M A}

theorem State.doze_keep (h : t.doze q = some w) (hpc : (t.thread q).pc = (s.thread q).pc)
    (hst : (t.task q).state = (s.task q).state ∨ (t.task q).state ≠ sleeping) : s.doze q = some w := by
  unfold State.doze at h ⊢
  rw [hpc] at h
  rcases hst with hst | hst
  · rw [← hst]
    exact h
  · rw [Pc.doze_awake hst h]
    rfl

/-- A thread that runs and goes on to another place than the middle of `sleep` does not doze. -/
theorem State.doze_goto (h : t.doze q = some w) (hsane : s.Sane) (hat : At s c p pc) {th : Thread M D A}
    (hthread : t.thread q = update s.thread p th q) (hnot : ∀ st, st ≠ sleeping → th.pc.doze st = none)
    (hst : (t.task q).state = (s.task q).state ∨ (t.task q).state ≠ sleeping) : s.doze q = some w := by
  by_cases hq : q = p
  · subst hq
    have hne : (t.task q).state ≠ sleeping := by
      rcases hst with h | h
      · rw [h, hsane.running hat.mode]
        decide
      · exact h
    rw [State.doze, hthread, update_self, hnot _ hne] at h
    cases h
  · exact State.doze_keep h (by rw [hthread, update_of_ne hq]) hst

theorem state_update {task : Slot → Task M} {i q : Slot} {x : Task M}
    (hx : x.state = (task i).state ∨ x.state ≠ sleeping) :
    (update task i x q).state = (task q).state ∨ (update task i x q).state ≠ sleeping := by
  rw [update_apply]
  split_ifs with hq
  · subst hq
    exact hx
  · exact .inl rfl

theorem state_wake {st st' : ProcState} (h : st' = st ∨ st = sleeping ∧ st' = runnable) : st' = st ∨ st' ≠ sleeping := by
  rcases h with h | ⟨-, h⟩
  · exact .inl h
  · rw [h]
    exact .inr (by decide)

theorem Plain.doze (h : Plain s c p pc pc') (st : ProcState) (hst : st ≠ sleeping) : pc'.doze st = none := by
  cases h <;> simp [Pc.doze, hst]

theorem Waking.doze {ch : Option (Chan M)} {j : Slot} (h : Waking pc ch j pc') (st : ProcState) : pc'.doze st = none := by
  cases h <;> rfl

theorem LockWait.doze (h : LockWait pc pc') (st : ProcState) : pc'.doze st = none := by
  cases h <;> rfl

variable [DecidableEq C] [DecidableEq M]

/-- A thread starts to doze only when it releases the condition lock in `sleep`. -/
theorem Move.doze (hsane : s.Sane) (h : Move pr s c act t) (hq : t.doze q = some w) :
    s.doze q = some w ∨ At s c q (.sleepLocked w) ∧ t = (s.releaseLk w).goto q (.sleepReleased w) := by
  cases h with
  | look task mode hirq hmode hidle hsame | account task hsame => exact .inl (State.doze_keep hq rfl (.inl (hsame q).state))
  | switchTo => exact .inl (State.doze_keep hq rfl (state_update (.inr (by simp))))
  | back | intr | intrSignal | intrSkip | intrDone => exact .inl hq
  | resume p =>
    refine .inl (State.doze_keep hq (view_same (f := Thread.pc) (g := s.thread) (i := p) (x := (s.thread p).resume) rfl q) (.inl ?_))
    unfold State.resumeStep
    simp only
    split
    · exact view_same (f := fun t : Task M => t.state) (g := s.task) (i := p) (x := (s.task p).setChan none) rfl q
    · rfl
  | yield p pc =>
    exact .inl (State.doze_keep hq (view_same (f := Thread.pc) (g := s.thread) (i := p) (x := (s.thread p).leave .yield (s.thread p).pc)
      rfl q) (state_update (.inr (by simp))))
  | file => exact .inl (State.doze_keep hq rfl (state_update (.inl rfl)))
  | plain p pc pc' hat h => exact .inl (State.doze_goto hq hsane hat rfl h.doze (.inl rfl))
  | callExit p status hat | adopt p np pid hat | reparent p pp status rest hat =>
    exact .inl (State.doze_goto hq hsane hat rfl (fun _ _ => rfl) (state_update (.inl rfl)))
  | forked p i rest hat hlock hstate =>
    by_cases hi : q = i
    · subst hi
      have hp : q ≠ p := fun h => by rw [h, hsane.running hat.mode] at hstate; cases hstate
      simp [State.doze, update_of_ne hp, Pc.doze] at hq
    · have hthread : update (update s.thread i ⟨.user, .yield, 0⟩) p
          ((update s.thread i ⟨.user, .yield, 0⟩ p).goto (.adopt i s.nextpid)) q =
          update s.thread p ((s.thread p).goto (.adopt i s.nextpid)) q := by
        by_cases hp : q = p
        · subst hp
          simp [update_of_ne hi]
        · simp [update_of_ne hi, update_of_ne hp]
      exact .inl (State.doze_goto hq hsane hat hthread (fun _ _ => rfl) (.inl (by simp [update_of_ne hi])))
  | forkFailed p i rest hat | reap p pp addr k rest hat =>
    exact .inl (State.doze_goto hq hsane hat rfl (fun _ _ => rfl) (state_update (.inr (by simp [Proc.freeproc]))))
  | publish p np pid hat | exitMark p status hat =>
    exact .inl (State.doze_goto hq hsane hat rfl (fun _ _ => rfl) (state_update (.inr (by simp))))
  | lockWait p pc pc' hat h => exact .inl (State.doze_goto hq hsane hat rfl (fun st _ => h.doze st) (.inl rfl))
  | wake p j pc pc' ch hat h =>
    exact .inl (State.doze_goto hq hsane hat rfl (fun st _ => h.doze st) (state_update (state_wake ((s.task j).wakeup_state ch))))
  | kill p i pid rest hat =>
    exact .inl (State.doze_goto hq hsane hat rfl (fun _ _ => rfl) (state_update (state_wake (Proc.kkill_state _))))
  | unready p m a hat =>
    refine .inl (State.doze_goto hq hsane hat rfl (fun st hst => ?_) (.inl rfl))
    simp only [Thread.goto_pc]
    split <;> rfl
  | sleepRelease p v hat =>
    by_cases hp : q = p
    · subst hp
      have hv : v = w := by
        cases v <;> simpa [State.doze, State.releaseLk, Pc.doze] using hq
      subst hv
      exact .inr ⟨hat, rfl⟩
    · left
      cases v <;> exact State.doze_keep hq (by simp [State.releaseLk, update_of_ne hp]) (.inl rfl)
  | asleep p v hat =>
    left
    by_cases hp : q = p
    · subst hp
      simp only [State.doze, update_self, Thread.leave_pc, Task.setProc_toProc, Proc.setState_state, Pc.doze_again] at hq
      rw [State.doze, hat.pc, ← hq]
      rfl
    · exact State.doze_keep hq (by simp [update_of_ne hp]) (.inl (by simp [update_of_ne hp]))
  | intrWake m j => exact .inl (State.doze_keep hq rfl (state_update (state_wake ((s.task j).wakeup_state _))))
  | _ => exact .inl (State.doze_goto hq hsane ‹At s c _ _› rfl (fun _ _ => rfl) (.inl rfl))

end doze

section classification

variable {pr : Protocol D A} {s t : State C M D A} {c : C} {act : Act M D A} {p q i : Slot} {pc pc' : Pc M D A} {th : Thread M D A}
  {x : Task M}

theorem Pc.waking_nil (hpc : (s.thread p).pc = pc) (h : ∀ x ∈ pc.waking, x.2 = []) (ch : Option (Chan M)) (j : Slot) (ws : List Slot) :
    (s.thread p).pc.waking ≠ some (ch, j :: ws) := by
  intro hw
  rw [hpc] at hw
  cases h _ hw

/-- What a step does to the parents and to the exited children. -/
inductive Kin (s : State C M D A) (c : C) (t : State C M D A) : Prop where
  | same (htask : ∀ q, ((t.task q).parent = (s.task q).parent ∨ (t.task q).parent = none ∧ (t.task q).state = unused) ∧
      ((t.task q).state = zombie → (s.task q).state = zombie))
  | adopt (hwait : t.wait = none)
    (htask : ∀ q, (t.task q).state = zombie → (t.task q).parent = (s.task q).parent ∧ (s.task q).state = zombie)
  | reparent (p pp : Slot) (status : Int) (rest : List Slot) (hat : At s c p (.reparent status (pp :: rest))) (hwait : t.wait = s.wait)
    (hpc : (t.thread p).pc = .reparentWake status rest allSlots)
    (htask : ∀ q, ((t.task q).parent = (s.task q).parent ∨ (t.task q).parent = some initproc) ∧
      (t.task q).state = (s.task q).state)
  | exit (p : Slot) (status : Int) (hat : At s c p (.exitMark status)) (hwait : t.wait = none)
    (htask : ∀ q, (t.task q).parent = (s.task q).parent ∧
      ((t.task q).state = zombie → q = p ∨ (s.task q).state = zombie))

theorem Kin.of_alike (h : ∀ q, (s.task q).Alike (t.task q)) : Kin s c t := .same fun q => ⟨.inl (h q).parent, (h q).zombie.1⟩

/-- The tasks that a step leaves in the tree where they are, or frees. -/
theorem Kin.of_update (htask : t.task = update s.task i x)
    (hparent : x.parent = (s.task i).parent ∨ x.parent = none ∧ x.state = unused)
    (hst : x.state = zombie → (s.task i).state = zombie) : Kin s c t := by
  refine .same fun q => ?_
  rw [htask, update_apply]
  split_ifs with hq
  · subst hq
    exact ⟨hparent, hst⟩
  · exact ⟨.inl rfl, id⟩

/-- A thread at a place where it can hold a lock runs. -/
def State.Busy (s : State C M D A) : Prop :=
  ∀ p, (s.thread p).pc.interruptible = false → (s.thread p).pc.isDead = false → ∃ c, (s.cpu c).mode = .running p

/-- A thread in the part of `sleep` under `p->lock` holds it. -/
theorem State.Busy.locked (hsane : s.Sane) (hs : s.Busy) (hpc : (s.thread p).pc.ownLock = true) : s.lock p ≠ none := by
  have hint : (s.thread p).pc.interruptible = false ∧ (s.thread p).pc.isDead = false := by
    revert hpc
    cases (s.thread p).pc <;> simp [Pc.ownLock, Pc.interruptible, Pc.isDead]
  obtain ⟨d, hd⟩ := hs p hint.1 hint.2
  have hlock := hsane.core.own d p hd (by simp [State.core, Thread.own, hpc])
  exact fun h => Option.some_ne_none d (hlock.symm.trans h)

theorem sleeping_update {task : Slot → Task M}
    (hx : x.state = sleeping → (task i).state = sleeping ∧ x.chan = (task i).chan)
    (h : (update task i x q).state = sleeping) :
    (task q).state = sleeping ∧ (update task i x q).chan = (task q).chan := by
  rw [update_apply] at h ⊢
  split_ifs at h ⊢ with hq
  · subst hq
    exact hx h
  · exact ⟨h, rfl⟩

variable [DecidableEq M]

/-- A place that says nothing of a sleep or of a wakeup. -/
def Pc.indifferent : Pc M D A → Bool
  | .reparentWake _ _ _ | .wakeParent _ _ _ | .exitMark _ | .scan _ _ _ | .scanned _ _ | .testKilled _ _ | .sleep _ | .sleepLocked _
  | .sleepReleased _ | .sig _ => false
  | _ => true

/-- How a thread comes to its place in a step. -/
inductive Arrive (pr : Protocol D A) (s : State C M D A) (c : C) (t : State C M D A) (q : Slot) : Prop where
  | stay (hpc : (t.thread q).pc = (s.thread q).pc)
  | plain (pc pc' : Pc M D A) (hat : At s c q pc) (h : Plain s c q pc pc') (ht : t = s.goto q pc')
  | wake (pc pc' : Pc M D A) (ch : Option (Chan M)) (j : Slot) (hat : At s c q pc) (h : Waking pc ch j pc') (hlock : s.lock j = none)
    (hpc : (t.thread q).pc = pc') (hj : t.task j = (s.task j).wakeup ch)
  | scan (addr : Nat) (hat : At s c q (.kwait addr)) (hpc : (t.thread q).pc = .scan addr false allSlots)
  | reparent (status : Int) (pp : Slot) (rest : List Slot) (hat : At s c q (.reparent status (pp :: rest)))
    (hpc : (t.thread q).pc = .reparentWake status rest allSlots)
  | unready (m : M) (a : A) (hat : At s c q (.test m a)) (hready : pr.ready a (s.data m) = false)
    (hpc : (t.thread q).pc = if pr.killable a then .testKilled m a else .sleep (.mon m a)) (hdata : t.data = s.data) (hmet : t.met q = false)
  | sleepLock (w : Wait M A) (hat : At s c q (.sleep w)) (hpc : (t.thread q).pc = .sleepLocked w) (hdata : t.data = s.data)
    (hmet : t.met = s.met)
  | sleepRelease (w : Wait M A) (hat : At s c q (.sleepLocked w)) (hpc : (t.thread q).pc = .sleepReleased w)
  | signal (m : M) (f : D → D) (hat : At s c q (.sig (.signal m f))) (hpc : (t.thread q).pc = .sig (.notify m allSlots))
  | other (hpc : (t.thread q).pc.indifferent = true) (hw : ∀ ch j ws, (s.thread q).pc.waking ≠ some (ch, j :: ws))

/-- Only the thread that runs comes to another place. -/
theorem Arrive.of_goto (hthread : t.thread = update s.thread p th)
    (h : (t.thread p) = th → Arrive pr s c t p) : Arrive pr s c t q := by
  by_cases hq : q = p
  · subst hq
    exact h (by rw [hthread, update_self])
  · exact .stay (by rw [hthread, update_of_ne hq])

theorem Arrive.of_indifferent (hat : At s c p pc) (hthread : t.thread = update s.thread p th)
    (hpc : th.pc.indifferent = true) (hw : ∀ x ∈ pc.waking, x.2 = []) : Arrive pr s c t q :=
  .of_goto hthread fun h => .other (h ▸ hpc) (Pc.waking_nil hat.pc hw)

variable [DecidableEq C]

theorem Move.arrive (htree : s.Tree) (h : Move pr s c act t) (q : Slot) : Arrive pr s c t q := by
  cases h with
  | look | account | switchTo | back | file | intr | intrSignal | intrSkip | intrWake | intrDone => exact .stay rfl
  | resume | yield => exact .of_goto rfl fun h => .stay (by rw [h]; rfl)
  | plain p pc pc' hat h => exact .of_goto rfl fun _ => .plain pc pc' hat h rfl
  | ends p pc v hat h | unwaited p pc hat h | lockLoop p pc m a hat h => exact .of_indifferent hat rfl rfl (by cases h <;> simp [Pc.waking])
  | forked p i rest hat hlock hstate =>
    by_cases hq : q = p
    · subst hq
      exact .other (by simp [Pc.indifferent]) (Pc.waking_nil hat.pc (by simp [Pc.waking]))
    · by_cases hi : q = i
      · subst hi
        have hdead := (htree.dead q).2 (.inl hstate)
        refine .other (by simp [update_of_ne hq, Pc.indifferent]) fun ch j ws hw => ?_
        revert hdead hw
        cases (s.thread q).pc <;> simp [Pc.waking, Pc.isDead]
      · exact .stay (by simp [update_of_ne hq, update_of_ne hi])
  | lockWait p pc pc' hat h =>
    cases h with
    | exit => exact .of_indifferent hat rfl rfl (by simp [Pc.waking])
    | kwait addr => exact .of_goto rfl fun h => .scan addr hat (by rw [h]; rfl)
  | reparent p pp status rest hat => exact .of_goto rfl fun h => .reparent status pp rest hat (by rw [h]; rfl)
  | wake p j pc pc' ch hat h hproc hlock =>
    exact .of_goto rfl fun hth => .wake pc pc' ch j hat h hlock (by rw [hth]; rfl) (update_self ..)
  | unready p m a hat hready =>
    exact .of_goto rfl fun h => .unready m a hat hready (by rw [h]; rfl) rfl (update_self ..)
  | sleepLock p w hat => exact .of_goto rfl fun h => .sleepLock w hat (by rw [h]; rfl) rfl rfl
  | sleepRelease p w hat => cases w <;> exact .of_goto rfl fun h => .sleepRelease _ hat (by rw [h]; rfl)
  | asleep p w hat => cases w <;> exact .of_indifferent hat rfl rfl (by simp [Pc.waking])
  | signal p m f hat => exact .of_goto rfl fun h => .signal m f hat (by rw [h]; rfl)
  | _ => exact .of_indifferent ‹At s c _ _› rfl rfl (by simp [Pc.waking])

theorem Move.kin (hsane : s.Sane) (h : Move pr s c act t) : Kin s c t := by
  have refl : ∀ q, (s.task q).Alike (s.task q) := fun q => Task.Alike.refl _
  cases h with
  | look task mode hirq hmode hidle hsame | account task hsame => exact .of_alike fun q => .of_same (hsame q)
  | switchTo | yield | publish | asleep =>
    exact .of_update rfl (.inl rfl) (by simp)
  | resume =>
    refine .of_alike fun q => ?_
    unfold State.resumeStep
    simp only
    split
    · exact .update (.setChan ..) q
    · exact refl q
  | file | callExit => exact .of_update rfl (.inl rfl) id
  | forked => exact .of_update rfl (.inl rfl) (by simp [Proc.allocproc])
  | forkFailed | reap =>
    exact .of_update rfl (.inr ⟨rfl, rfl⟩) (by simp [Proc.freeproc])
  | adopt p np pid hat hwait =>
    refine .adopt hwait fun q hz => ?_
    by_cases hq : q = np
    · subst hq
      have hst : (s.task q).state = used := hsane.made (p := p) (by rw [hat.pc]; rfl)
      simp [hst] at hz
    · simp only [State.goto_task, update_of_ne hq] at hz ⊢
      exact ⟨trivial, hz⟩
  | reparent p pp status rest hat =>
    refine .reparent p pp status rest hat rfl (by simp) fun q => ?_
    by_cases hq : q = pp
    · subst hq
      simp
    · simp [update_of_ne hq]
  | wake | intrWake => exact .of_alike fun q => .update (.wakeup ..) q
  | exitMark p status hat =>
    refine .exit p status hat rfl fun q => ?_
    by_cases hq : q = p
    · subst hq
      simp
    · simp only [State.goto_task, update_of_ne hq]
      exact ⟨trivial, .inr⟩
  | kill => exact .of_alike fun q => .update (.kkill _) q
  | sleepRelease p w => cases w <;> exact .of_alike refl
  | _ => exact .of_alike refl

theorem Move.busy_self (h : Move pr s c act t) (hmode : (s.cpu c).mode = .running q) (hpc : (t.thread q).pc.interruptible = false)
    (hdead : (t.thread q).pc.isDead = false) : (t.cpu c).mode = .running q := by
  cases h with
  | look task mode hirq hidle =>
    rw [hmode] at hidle
    cases hidle
  | switchTo p hirq hpick => cases hmode.symm.trans hpick
  | back p hirq hback => cases hmode.symm.trans hback
  | yield p pc hat hint =>
    cases hmode.symm.trans hat.mode
    simp [hat.pc, hint] at hpc
  | exitMark p status hat =>
    cases hmode.symm.trans hat.mode
    simp [Pc.isDead] at hdead
  | asleep p w hat =>
    cases hmode.symm.trans hat.mode
    cases w <;> simp [Wait.again, Pc.interruptible] at hpc
  | sleepRelease p w => cases w <;> exact hmode
  | intr | intrSkip | intrWake | intrDone => simpa [State.setIrq] using hmode
  | intrSignal => simpa [State.setIrq, State.signalled] using hmode
  | _ => exact hmode

theorem Move.busy (hs : s.Busy) (h : Move pr s c act t) : t.Busy := by
  intro q hpc hdead
  by_cases hmode : (s.cpu c).mode = .running q
  · exact ⟨c, h.busy_self hmode hpc hdead⟩
  · have hsame : t.thread q = s.thread q := by
      cases h.footprint with
      | none hthread => rw [hthread]
      | one p th hirq hp hthread =>
        have hne : q ≠ p := fun h => hmode (h ▸ hp)
        rw [hthread, update_of_ne hne]
      | fork p i th hirq hp hi hthread =>
        have hne : q ≠ p := fun h => hmode (h ▸ hp)
        by_cases hqi : q = i
        · subst hqi
          rw [hthread, update_of_ne hne, update_self] at hpc
          cases hpc
        · rw [hthread, update_of_ne hne, update_of_ne hqi]
    rw [hsame] at hpc hdead
    obtain ⟨d, hd⟩ := hs q hpc hdead
    have hne : d ≠ c := fun h => hmode (h ▸ hd)
    exact ⟨d, by rw [h.other_cpu hne, hd]⟩

theorem Task.wakeup_sleeping (x : Task M) (ch : Option (Chan M)) (h : (x.wakeup ch).state = sleeping) :
    x.state = sleeping ∧ (x.wakeup ch).chan = x.chan := by
  have hst : x.state = sleeping := by
    rcases x.wakeup_state ch with h' | ⟨h', -⟩
    · rw [← h', h]
    · exact h'
  refine ⟨hst, ?_⟩
  unfold Task.wakeup
  split <;> rfl

/-- A process becomes `SLEEPING` only at the end of `sleep`, on the channel of the loop it sleeps in. -/
theorem Move.falls_asleep (hsane : s.Sane) (h : Move pr s c act t) (hq : (t.task q).state = sleeping) :
    ((s.task q).state = sleeping ∧ (t.task q).chan = (s.task q).chan) ∨
      ∃ w : Wait M A, (t.thread q).pc = w.again ∧ (t.task q).chan = some (w.chan q) := by
  cases h with
  | look task mode hirq hmode hidle hsame | account task hsame => exact .inl ⟨(hsame q).state ▸ hq, (hsame q).chan⟩
  | switchTo | yield | publish | exitMark =>
    exact .inl (sleeping_update (by simp) hq)
  | resume p hirq hmode hctx =>
    left
    unfold State.resumeStep at hq ⊢
    by_cases hctx : (s.thread p).ctx = .sleep
    · simp only [if_pos hctx] at hq ⊢
      refine sleeping_update (fun h => ?_) hq
      simp [hsane.running hmode] at h
    · simp only [if_neg hctx] at hq ⊢
      exact ⟨hq, trivial⟩
  | file | callExit | adopt | reparent =>
    exact .inl (sleeping_update (fun h => ⟨h, rfl⟩) hq)
  | forked => exact .inl (sleeping_update (by simp [Proc.allocproc]) hq)
  | forkFailed | reap => exact .inl (sleeping_update (by simp [Proc.freeproc]) hq)
  | wake p j pc pc' ch => exact .inl (sleeping_update ((s.task j).wakeup_sleeping ch) hq)
  | kill p i =>
    refine .inl (sleeping_update (fun h => ⟨?_, rfl⟩) hq)
    rcases Proc.kkill_state (s.task i).toProc with h' | ⟨h', -⟩
    · exact h' ▸ h
    · exact h'
  | asleep p w =>
    by_cases hp : q = p
    · subst hp
      exact .inr ⟨w, by simp, by simp⟩
    · simp only [update_of_ne hp] at hq ⊢
      exact .inl ⟨hq, trivial⟩
  | intrWake m j => exact .inl (sleeping_update ((s.task j).wakeup_sleeping _) hq)
  | sleepRelease p w => cases w <;> exact .inl ⟨hq, rfl⟩
  | _ => exact .inl ⟨hq, rfl⟩

end classification

end Xv6.Threads
