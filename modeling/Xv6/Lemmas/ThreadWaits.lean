import Xv6.Lemmas.ThreadAlert
import Xv6.Waits

/-!
# Sleep-locks and kills

What a step does to the holder of a sleep-lock, when only the holder calls `releasesleep`, and to `p->killed`.
-/

namespace Xv6.Threads

open ProcState Function

variable {C M D A : Type}

section calls

variable [DecidableEq C] [DecidableEq M] {pr : Protocol D A} {eco : EcoMode} {s t : State C M D A} {l : Label C M D A} {p : Slot}
  {f : D → D} {m : M}

/-- A thread comes to a waker's `acquire` only by the system call that starts it. -/
theorem State.step_signal (h : s.step pr eco l = some t) (hat : At s l.cpu p .user)
    (hpc : (t.thread p).pc = .sig (.signal m f)) : l.act = .call (.signal m f) := by
  have hrun : s.runStep pr l.cpu p l.act = some t := by
    rw [← h, State.step, hat.irq, hat.mode]
  cases hact : l.act with
  | step =>
    rw [hact] at hrun
    simp [State.runStep, hat.ctx, hat.pc, State.threadStep] at hrun
  | call x =>
    rw [hact] at hrun
    simp only [State.runStep, hat.ctx, hat.pc, if_true] at hrun
    cases x with
    | signal =>
      cases hrun
      simp only [State.goto_thread, update_self, Thread.goto_pc, Pc.sig.injEq, Sig.signal.injEq] at hpc
      rw [hpc.1, hpc.2]
    | exit =>
      simp only [State.callStep] at hrun
      split at hrun
      · cases hrun
      · cases hrun
        simp at hpc
    | setquota | tick =>
      simp only [State.callStep] at hrun
      split at hrun
      · cases hrun
        cases hat.pc.symm.trans hpc
      · cases hrun
    | file | exec =>
      cases hrun
      cases hat.pc.symm.trans hpc
    | fork | wait | kill | await =>
      cases hrun
      simp at hpc
  | yield =>
    rw [hact] at hrun
    simp only [State.runStep] at hrun
    split at hrun
    · unfold State.yieldStep at hrun
      split at hrun
      · cases hrun
        simp [hat.pc] at hpc
      · cases hrun
    · cases hrun
  | irq =>
    rw [hact] at hrun
    simp only [State.runStep] at hrun
    split at hrun
    · cases hrun
      cases hat.pc.symm.trans hpc
    · cases hrun
  | reset =>
    rw [hact] at hrun
    cases hrun

/-- Who is at a waker's `acquire` has been there, or has just called. -/
theorem Move.signal_pc {c : C} {act : Act M D A} (htree : s.Tree) (h : Move pr s c act t)
    (hpc : (t.thread p).pc = .sig (.signal m f)) : (s.thread p).pc = .sig (.signal m f) ∨ At s c p .user := by
  cases h.arrive htree p with
  | stay hsame => exact .inl (hsame ▸ hpc)
  | plain pc pc' hat hplain ht =>
    subst ht
    rw [State.goto_thread, update_self, Thread.goto_pc] at hpc
    cases hplain with
    | callSignal => exact .inr hat
    | _ => cases hpc
  | wake pc pc' ch j hat hwake hlock hpc' =>
    rw [hpc'] at hpc
    cases hwake <;> cases hpc
  | unready m a hat hready hpc' =>
    rw [hpc'] at hpc
    split at hpc <;> cases hpc
  | other hpc' =>
    rw [hpc] at hpc'
    cases hpc'
  | _ => cases ‹(t.thread p).pc = _›.symm.trans hpc

end calls

section sleeplocks

variable {eco : EcoMode} {s t : State C M Sleeplock Int} {c : C} {act : Act M Sleeplock Int} {l : Label C M Sleeplock Int} {p q : Slot}

/-- The steps of a kernel in which a sleep-lock is released only by `releasesleep`, and only by a process that holds it. -/
def HolderReleases (s : State C M Sleeplock Int) (l : Label C M Sleeplock Int) : Prop :=
  (∀ m f, l.act = .call (.signal m f) → f = releasesleep ∧ ∀ p, (s.cpu l.cpu).mode = .running p → s.inside m p = true) ∧
    ∀ m f, l.act ≠ .irq m f

structure State.Held (s : State C M Sleeplock Int) : Prop where
  locked : ∀ m p, s.inside m p = true → (s.data m).locked = true
  holder : ∀ m, (s.data m).locked = true → ∃ p, s.inside m p = true
  one : ∀ m p q, s.inside m p = true → s.inside m q = true → p = q
  release : ∀ p m f, (s.thread p).pc = .sig (.signal m f) → f = releasesleep ∧ s.inside m p = true
  irq : ∀ c, (s.cpu c).irq = none

/-- A step that changes no sleep-lock keeps what is known of them. -/
theorem State.Held.same (hs : s.Held) (hdata : t.data = s.data) (hinside : t.inside = s.inside)
    (hpc : ∀ p m f, (t.thread p).pc = .sig (.signal m f) →
      (s.thread p).pc = .sig (.signal m f) ∨ f = releasesleep ∧ s.inside m p = true)
    (hirq : ∀ c, (t.cpu c).irq = none) : t.Held where
  locked := by rw [hdata, hinside]; exact hs.locked
  holder := by rw [hdata, hinside]; exact hs.holder
  one := by rw [hinside]; exact hs.one
  release p m f h := by
    rw [hinside]
    rcases hpc p m f h with h | h
    · exact hs.release p m f h
    · exact h
  irq := hirq

theorem State.Held.boot {data : M → Sleeplock} (hdata : ∀ m, (data m).locked = false) : (State.boot data : State C M Sleeplock Int).Held where
  locked m p h := by cases h
  holder m h := by cases (hdata m).symm.trans h
  one m p q h := by cases h
  release p m f h := by
    have hpc := (State.boot_pc (C := C) (A := Int) data p).1
    rw [h] at hpc
    cases hpc
  irq c := rfl

variable [DecidableEq M] {m : M}

/-- A process that finds the lock free holds it. -/
theorem State.Held.acquire {pid : Int} (hs : s.Held) (hfree : (s.data m).locked = false)
    (hdata : t.data = update s.data m ⟨true, pid⟩)
    (hinside : t.inside = update s.inside m (update (s.inside m) p true))
    (hpc : ∀ p m f, (t.thread p).pc = .sig (.signal m f) → (s.thread p).pc = .sig (.signal m f))
    (hirq : ∀ c, (t.cpu c).irq = none) : t.Held := by
  have hnone : ∀ q, s.inside m q = false := fun q => Bool.eq_false_iff.2 fun h => by
    cases hfree.symm.trans (hs.locked m q h)
  have hkeep : ∀ {m' q}, s.inside m' q = true → m' ≠ m := fun {m' q} h hm => by
    rw [hm, hnone q] at h
    cases h
  have hself : ∀ q, t.inside m q = true ↔ q = p := by
    intro q
    rw [hinside, update_self]
    by_cases hq : q = p
    · simp [hq]
    · simp [hq, hnone q]
  refine ⟨fun m' q h => ?_, fun m' h => ?_, fun m' q r hq hr => ?_, fun q m' f h => ?_, hirq⟩
  · by_cases hm : m' = m
    · rw [hm, hdata, update_self]
    · rw [hinside, update_of_ne hm] at h
      rw [hdata, update_of_ne hm]
      exact hs.locked m' q h
  · by_cases hm : m' = m
    · subst hm
      exact ⟨p, (hself p).2 rfl⟩
    · rw [hdata, update_of_ne hm] at h
      rw [hinside, update_of_ne hm]
      exact hs.holder m' h
  · by_cases hm : m' = m
    · subst hm
      rw [(hself q).1 hq, (hself r).1 hr]
    · rw [hinside, update_of_ne hm] at hq hr
      exact hs.one m' q r hq hr
  · obtain ⟨hf, hin⟩ := hs.release q m' f (hpc q m' f h)
    rw [hinside, update_of_ne (hkeep hin)]
    exact ⟨hf, hin⟩

variable [DecidableEq C]

/-- The holder releases the lock, and nobody holds it. -/
theorem State.Held.signal (hs : s.Held) (hin : s.inside m p = true)
    (hdata : t.data = update s.data m (releasesleep (s.data m)))
    (hinside : t.inside = update s.inside m fun q => s.inside m q && (Sum.inl p : Slot ⊕ C) ≠ .inl q)
    (hpc : ∀ q m f, (t.thread q).pc = .sig (.signal m f) → q ≠ p ∧ (s.thread q).pc = .sig (.signal m f))
    (hirq : ∀ c, (t.cpu c).irq = none) : t.Held := by
  have hnone : ∀ q, t.inside m q = false := by
    intro q
    rw [hinside, update_self]
    by_cases hq : q = p
    · simp [hq]
    · have hout : s.inside m q = false := Bool.eq_false_iff.2 fun h => hq (hs.one m q p h hin)
      simp [hout]
  have hother : ∀ {m'}, m' ≠ m → t.inside m' = s.inside m' ∧ t.data m' = s.data m' := fun hm => by
    rw [hinside, hdata, update_of_ne hm, update_of_ne hm]
    exact ⟨rfl, rfl⟩
  have hne : ∀ {m' q}, t.inside m' q = true → m' ≠ m := fun {m' q} h hm => by
    rw [hm, hnone q] at h
    cases h
  refine ⟨fun m' q h => ?_, fun m' h => ?_, fun m' q r hq hr => ?_, fun q m' f h => ?_, hirq⟩
  · rw [(hother (hne h)).2]
    exact hs.locked m' q ((hother (hne h)).1 ▸ h)
  · have hm : m' ≠ m := by
      rintro rfl
      rw [hdata, update_self] at h
      cases h
    rw [(hother hm).1]
    exact hs.holder m' ((hother hm).2 ▸ h)
  · have h := (hother (hne hq)).1
    exact hs.one m' q r (h ▸ hq) (h ▸ hr)
  · obtain ⟨hqp, hsig⟩ := hpc q m' f h
    obtain ⟨hf, hin'⟩ := hs.release q m' f hsig
    have hm : m' ≠ m := by
      rintro rfl
      exact hqp (hs.one m' q p hin' hin)
    rw [(hother hm).1]
    exact ⟨hf, hin'⟩

theorem State.Held.step (hinv : s.Inv acquiresleep) (hs : s.Held) (hok : HolderReleases s l) (h : s.step acquiresleep eco l = some t) :
    t.Held := by
  have hmove := Move.of_step h
  have hpc : ∀ p m f, (t.thread p).pc = .sig (.signal m f) →
      (s.thread p).pc = .sig (.signal m f) ∨ f = releasesleep ∧ s.inside m p = true := by
    intro p m f hpc
    rcases hmove.signal_pc hinv.tree hpc with hpc' | hat
    · exact .inl hpc'
    · obtain ⟨hf, hin⟩ := hok.1 m f (State.step_signal h hat hpc)
      exact .inr ⟨hf, hin p hat.mode⟩
  have busy : ∀ {x}, (s.cpu l.cpu).irq ≠ some x := fun {x} h => by
    rw [hs.irq] at h
    cases h
  have hirq : ∀ {x : Cpu M Sleeplock}, x.irq = none → ∀ c, (update s.cpu l.cpu x c).irq = none := fun {x} hx c => by
    rw [update_apply]
    split_ifs
    · exact hx
    · exact hs.irq c
  cases hmove with
  | look | switchTo | back | yield | exitMark | asleep => exact hs.same rfl rfl hpc (hirq rfl)
  | sleepRelease p w => cases w <;> exact hs.same rfl rfl hpc hs.irq
  | pass p m a b hat hready hnext => cases hnext
  | passed p m a hat hready =>
    refine hs.acquire (by simpa [acquiresleep] using hready) rfl rfl (fun q m' f h => ?_) hs.irq
    by_cases hq : q = p
    · subst hq
      simp at h
    · simpa [update_of_ne hq] using h
  | signal p m f hat =>
    obtain ⟨rfl, hin⟩ := hs.release p m f hat.pc
    refine hs.signal hin rfl rfl (fun q m' f h => ?_) hs.irq
    by_cases hq : q = p
    · subst hq
      simp at h
    · exact ⟨hq, by simpa [State.signalled, update_of_ne hq] using h⟩
  | intr m f hirq' hmode hact => exact absurd hact (hok.2 m f)
  | intrSignal m f hirq' | intrSkip m j ws hirq' | intrWake m j ws hirq' | intrDone m hirq' => exact absurd hirq' busy
  | _ => exact hs.same rfl rfl hpc hs.irq

end sleeplocks

section kills

variable {pr : Protocol D A} {eco : EcoMode} {s t : State C M D A} {c : C} {act : Act M D A} {l : Label C M D A} {p q : Slot} {w : Wait M A}
  {st : ProcState} {pc : Pc M D A}

/-- The loops that give up when the process is killed: that of `kwait`, and those of the protocol that say so. -/
def Wait.killable (pr : Protocol D A) : Wait M A → Bool
  | .kwait _ => true
  | .mon _ a => pr.killable a

/-- The loop in which a thread has found `killed` clear and goes to sleep, or sleeps. -/
def Pc.bound : Pc M D A → ProcState → Option (Wait M A)
  | .sleep w, _ | .sleepLocked w, _ => some w
  | pc, st => pc.doze st

/-- A `kkill` comes in time: its victim is not between its test of `killed` and the `acquire(&p->lock)` of `sleep`. -/
def KillsInTime (pr : Protocol D A) (s : State C M D A) (l : Label C M D A) : Prop :=
  ∀ q i pid rest fault, l.act = .step fault → At s l.cpu q (.kill pid (i :: rest)) → s.lock i = none → (s.task i).pid = pid →
    ∀ w : Wait M A, w.killable pr = true → (s.thread i).pc ≠ .sleep w

/-- Who sleeps in a loop that a kill should end has not been killed. -/
def State.Spared (pr : Protocol D A) (s : State C M D A) : Prop :=
  ∀ p (w : Wait M A), (s.thread p).pc.bound (s.task p).state = some w → w.killable pr = true → (s.task p).killed = false

theorem killed_update {task : Slot → Task M} {i : Slot} {x : Task M} (h : (update task i x q).killed = true)
    (hx : x.killed = true → (task i).killed = true) : (task q).killed = true := by
  rw [update_apply] at h
  split_ifs at h with hq
  · subst hq
    exact hx h
  · assumption

theorem Pc.bound_of_doze (h : pc.doze st = some w) : pc.bound st = some w := by
  cases pc <;> first | exact h | cases h

/-- The places of a thread that goes to sleep, before it takes `p->lock`, with it held, and after it has left the CPU. -/
theorem Pc.bound_cases (h : pc.bound st = some w) :
    pc = .sleep w ∨ pc = .sleepLocked w ∨ pc.doze st = some w := by
  cases pc with
  | sleep => exact .inl (congrArg _ (Option.some.inj h))
  | sleepLocked => exact .inr (.inl (congrArg _ (Option.some.inj h)))
  | _ => exact .inr (.inr h)

theorem State.Spared.boot (pr : Protocol D A) (data : M → D) : (State.boot data : State C M D A).Spared pr := by
  intro p w hb
  have hpc := State.boot_pc (C := C) (A := A) data p
  rcases Pc.bound_cases hb with h | h | h
  · rw [h] at hpc
    cases hpc.1
  · rw [h] at hpc
    cases hpc.1
  · cases hpc.2.2.symm.trans h

variable [DecidableEq M]

theorem Task.wakeup_killed (x : Task M) (ch : Option (Chan M)) : (x.wakeup ch).killed = x.killed := by
  unfold Task.wakeup Proc.wakeup
  split
  · simp only [Task.setProc_toProc]
    split <;> rfl
  · rfl

variable [DecidableEq C]

/-- Only `kkill` marks a process as killed, with its lock free. -/
theorem Move.killed (h : Move pr s c act t) (hq : (t.task q).killed = true) :
    (s.task q).killed = true ∨ ∃ p pid rest, At s c p (.kill pid (q :: rest)) ∧ s.lock q = none ∧ (s.task q).pid = pid ∧
      (∃ fault, act = .step fault) ∧ t = State.ret { s with task := update s.task q ((s.task q).setProc (s.task q).toProc.kkill) } p 0 := by
  cases h with
  | look task mode hirq hmode hidle hsame | account task hsame => exact .inl ((hsame q).killed ▸ hq)
  | switchTo | yield | file | callExit | forked | adopt | publish | reparent | exitMark | asleep => exact .inl (killed_update hq id)
  | resume p hirq hmode hctx =>
    left
    unfold State.resumeStep at hq
    by_cases hctx : (s.thread p).ctx = .sleep
    · simp only [if_pos hctx] at hq
      exact killed_update hq id
    · simpa only [if_neg hctx] using hq
  | forkFailed | reap => exact .inl (killed_update hq (fun h => by cases h))
  | wake p j pc pc' ch hat h => exact .inl (killed_update hq (fun h => (s.task j).wakeup_killed ch ▸ h))
  | kill p i pid rest hat hlock hpid hact =>
    by_cases hi : q = i
    · subst hi
      exact .inr ⟨p, pid, rest, hat, hlock, hpid, hact, rfl⟩
    · left
      simpa only [State.ret_task, update_of_ne hi] using hq
  | intrWake m j => exact .inl (killed_update hq (fun h => (s.task j).wakeup_killed _ ▸ h))
  | sleepRelease p w => cases w <;> exact .inl hq
  | _ => exact .inl hq

/-- A thread comes to sleep in a loop that a kill should end after it has found `killed` clear. -/
theorem Move.bound (hsane : s.Sane) (htree : s.Tree) (h : Move pr s c act t)
    (hb : (t.thread p).pc.bound (t.task p).state = some w) (hk : w.killable pr = true) :
    (s.thread p).pc.bound (s.task p).state = some w ∨ (s.task p).killed = false := by
  rcases Pc.bound_cases hb with hpc | hpc | hd
  · cases h.arrive htree p with
    | stay hsame => exact .inl (by rw [← hsame, hpc]; rfl)
    | plain pc pc' hat hplain ht =>
      subst ht
      rw [State.goto_thread, update_self, Thread.goto_pc] at hpc
      cases hplain with
      | kwaitSleep hkilled | loopSleep hkilled => exact .inr hkilled
      | _ => cases hpc
    | wake pc pc' ch j hat hwake hlock hpc' =>
      rw [hpc'] at hpc
      cases hwake <;> cases hpc
    | unready m a hat hready hpc' =>
      rw [hpc'] at hpc
      split at hpc
      · cases hpc
      · rename_i hnot
        cases hpc
        exact absurd hk hnot
    | other hpc' =>
      rw [hpc] at hpc'
      cases hpc'
    | _ => cases ‹(t.thread p).pc = _›.symm.trans hpc
  · cases h.arrive htree p with
    | stay hsame => exact .inl (by rw [← hsame, hpc]; rfl)
    | plain pc pc' hat hplain ht =>
      subst ht
      rw [State.goto_thread, update_self, Thread.goto_pc] at hpc
      cases hplain <;> cases hpc
    | wake pc pc' ch j hat hwake hlock hpc' =>
      rw [hpc'] at hpc
      cases hwake <;> cases hpc
    | unready m a hat hready hpc' =>
      rw [hpc'] at hpc
      split at hpc <;> cases hpc
    | sleepLock v hat hpc' =>
      cases hpc'.symm.trans hpc
      exact .inl (by rw [hat.pc]; rfl)
    | other hpc' =>
      rw [hpc] at hpc'
      cases hpc'
    | _ => cases ‹(t.thread p).pc = _›.symm.trans hpc
  · rcases h.doze hsane hd with hd' | ⟨hat, -⟩
    · exact .inl (Pc.bound_of_doze hd')
    · exact .inl (by rw [hat.pc]; rfl)

theorem State.Spared.step (hinv : s.Inv pr) (hs : s.Spared pr) (hok : KillsInTime pr s l) (h : s.step pr eco l = some t) : t.Spared pr := by
  have hmove := Move.of_step h
  intro p w hb hk
  by_contra hkilled
  rw [Bool.not_eq_false] at hkilled
  rcases hmove.killed hkilled with hkilled | ⟨q, pid, rest, hat, hlock, hpid, ⟨fault, hact⟩, rfl⟩
  · rcases hmove.bound hinv.sane hinv.tree hb hk with hb' | hnot
    · cases (hs p w hb' hk).symm.trans hkilled
    · cases hnot.symm.trans hkilled
  · -- the victim is not about to sleep; with its lock free it is not in `sleep`, and if it was asleep it is so no more
    have hq : p ≠ q := by
      rintro rfl
      simp [Pc.bound, Pc.doze] at hb
    simp only [State.ret_thread, State.ret_task, update_of_ne hq, update_self, Task.setProc_toProc] at hb
    rcases Pc.bound_cases hb with hpc | hpc | hd
    · exact hok q p pid rest fault hact hat hlock hpid w hk hpc
    · exact hinv.busy.locked hinv.sane (by rw [hpc]; rfl) hlock
    · rcases Pc.doze_cases hd with hpc | ⟨hst, -⟩
      · exact hinv.busy.locked hinv.sane (by rw [hpc]; rfl) hlock
      · simp only [Proc.kkill, Proc.wakeup] at hst
        split at hst
        · cases hst
        · contradiction

end kills

end Xv6.Threads
