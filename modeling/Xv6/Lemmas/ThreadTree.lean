import Xv6.Lemmas.ThreadCore

/-!
# The process tree

A slot's parent pointer is only ever set to a process that is still alive, and `reparent` takes it away before that process becomes
a `ZOMBIE`; so a parent that is pointed to is neither `UNUSED` nor `ZOMBIE`, whoever holds `wait_lock`. With it goes what a slot
owns: a process that has closed its files keeps them closed, and an `UNUSED` slot has no page.
-/

namespace Xv6.Threads

open ProcState Function List

variable {C M D A : Type} {pc : Pc M D A}

/-- The thread is in `kexit` past the closing of its files, or has left it. -/
def Pc.closed : Pc M D A → Bool
  | .exit _ | .reparent _ _ | .reparentWake _ _ _ | .wakeParent _ _ _ | .exitMark _ | .dead => true
  | _ => false

/-- The thread is gone. -/
def Pc.isDead : Pc M D A → Bool
  | .dead => true
  | _ => false

/-- The slots that may still be children of the thread's process: in `kexit`, those that `reparent` has still to come to. -/
def Pc.kept : Pc M D A → Slot → Prop
  | .reparent _ rest, pp | .reparentWake _ rest _, pp => pp ∈ rest
  | .wakeParent _ _ _, _ | .exitMark _, _ | .dead, _ => False
  | _, _ => True

theorem Pc.kept_of_open (h : pc.closed = false) (pp : Slot) : pc.kept pp := by
  cases pc <;> trivial

theorem Pc.not_dead_of_kept {pp : Slot} (h : pc.kept pp) : pc.isDead = false := by
  cases pc <;> trivial

theorem Pc.not_dead_of_open (h : pc.closed = false) : pc.isDead = false := by
  cases pc <;> trivial

theorem mem_allSlots (p : Slot) : p ∈ allSlots := mem_finRange p

/-- The same process in its slot, as far as pids and exits go. -/
structure Task.Peer (t u : Task M) : Prop where
  unused : u.state = unused ↔ t.state = unused
  zombie : u.state = zombie ↔ t.state = zombie
  pid : u.pid = t.pid
  xstate : u.xstate = t.xstate

/-- The same process in its slot, as far as the tree and what it owns go: only its state may differ, and not between free, exited
and alive. -/
structure Task.Alike (t u : Task M) : Prop extends t.Peer u where
  parent : u.parent = t.parent
  trapframe : u.trapframe = t.trapframe
  pagetable : u.pagetable = t.pagetable
  ofile : u.ofile = t.ofile
  cwd : u.cwd = t.cwd

namespace Task.Alike

variable (t : Task M) (ch : Option (Chan M))

theorem refl : t.Alike t := ⟨⟨.rfl, .rfl, rfl, rfl⟩, rfl, rfl, rfl, rfl, rfl⟩

theorem of_same {t u : Task M} (h : t.Same u) : t.Alike u :=
  ⟨⟨by rw [h.state], by rw [h.state], h.pid, h.xstate⟩, h.parent, h.trapframe, h.pagetable, h.ofile, h.cwd⟩

/-- A live process stays alive in any other such state. -/
theorem setState {t : Task M} {st : ProcState} (ht : t.state ≠ .unused ∧ t.state ≠ .zombie) (hst : st ≠ .unused ∧ st ≠ .zombie) :
    t.Alike (t.setProc (t.toProc.setState st)) :=
  ⟨⟨iff_of_false hst.1 ht.1, iff_of_false hst.2 ht.2, rfl, rfl⟩, rfl, rfl, rfl, rfl, rfl⟩

theorem setChan : t.Alike (t.setChan ch) := ⟨⟨.rfl, .rfl, rfl, rfl⟩, rfl, rfl, rfl, rfl, rfl⟩

theorem trans {t u v : Task M} (h : t.Alike u) (h' : u.Alike v) : t.Alike v :=
  ⟨⟨h'.unused.trans h.unused, h'.zombie.trans h.zombie, h'.pid.trans h.pid, h'.xstate.trans h.xstate⟩, h'.parent.trans h.parent,
    h'.trapframe.trans h.trapframe, h'.pagetable.trans h.pagetable, h'.ofile.trans h.ofile, h'.cwd.trans h.cwd⟩

/-- Waking a process changes its state alone, from `SLEEPING`. -/
theorem wake {t : Task M} {p : Proc} (hst : p.state = t.state ∨ t.state = sleeping ∧ p.state = runnable)
    (hpid : p.pid = t.pid) (hparent : p.parent = t.parent) : t.Alike (t.setProc p) := by
  have hiff : ∀ st, st ≠ sleeping → st ≠ runnable → (p.state = st ↔ t.state = st) := by
    intro st h1 h2
    rcases hst with h | ⟨h, h'⟩
    · rw [h]
    · rw [h, h']
      exact iff_of_false (Ne.symm h2) (Ne.symm h1)
  exact ⟨⟨hiff _ (by decide) (by decide), hiff _ (by decide) (by decide), hpid, rfl⟩, hparent, rfl, rfl, rfl, rfl⟩

theorem kkill : t.Alike (t.setProc t.toProc.kkill) := by
  refine wake (Proc.kkill_state t.toProc) ?_ ?_
  · unfold Proc.kkill Proc.wakeup
    split <;> rfl
  · unfold Proc.kkill Proc.wakeup
    split <;> rfl

theorem wakeup [DecidableEq M] : t.Alike (t.wakeup ch) := by
  unfold Task.wakeup
  split
  · refine wake (Proc.wakeup_state t.toProc) ?_ ?_
    · unfold Proc.wakeup
      split <;> rfl
    · unfold Proc.wakeup
      split <;> rfl
  · exact refl t

theorem update {task : Slot → Task M} {i : Slot} {u : Task M} (h : (task i).Alike u) (j : Slot) :
    (task j).Alike (update task i u j) := by
  rw [update_apply]
  split_ifs with hj
  · subst hj
    exact h
  · exact refl _

end Task.Alike

structure State.Tree (s : State C M D A) : Prop where
  dead : ∀ p, (s.thread p).pc.isDead = true ↔ (s.task p).state = unused ∨ (s.task p).state = zombie
  kept : ∀ pp p, (s.task pp).parent = some p → (s.thread p).pc.kept pp
  init : (s.thread initproc).pc.closed = false
  closed : ∀ p, (s.thread p).pc.closed = true → (∀ fd, (s.task p).ofile fd = false) ∧ (s.task p).cwd = false
  pages : ∀ p, (s.task p).state = unused → (s.task p).trapframe = false ∧ (s.task p).pagetable = false

namespace State.Tree

variable {s t : State C M D A} {c : C} {p : Slot} {pc : Pc M D A} {th : Thread M D A} {x : Task M} {i : Slot}

section

variable (hs : s.Tree)

include hs

/-- A parent that is pointed to is neither `UNUSED` nor `ZOMBIE`. -/
theorem parent {pp p : Slot} (h : (s.task pp).parent = some p) :
    (s.task p).state ≠ unused ∧ (s.task p).state ≠ zombie := by
  have hdead := mt (hs.dead p).2 (Bool.eq_false_iff.1 (Pc.not_dead_of_kept (hs.kept pp p h)))
  exact ⟨fun h => hdead (.inl h), fun h => hdead (.inr h)⟩

/-- The thread at a place of the kernel is that of a live process. -/
theorem alive (hpc : (s.thread p).pc = pc) (h : pc.isDead = false) :
    (s.task p).state ≠ unused ∧ (s.task p).state ≠ zombie := by
  have hdead := mt (hs.dead p).2 (Bool.eq_false_iff.1 (hpc ▸ h))
  exact ⟨fun h => hdead (.inl h), fun h => hdead (.inr h)⟩

theorem alike (hthread : ∀ q, (t.thread q).pc = (s.thread q).pc) (htask : ∀ q, (s.task q).Alike (t.task q)) : t.Tree where
  dead q := by rw [hthread, (htask q).unused, (htask q).zombie, hs.dead]
  kept pp q h := by
    rw [hthread]
    exact hs.kept pp q ((htask pp).parent ▸ h)
  init := by rw [hthread, hs.init]
  closed q h := by
    rw [(htask q).ofile, (htask q).cwd]
    exact hs.closed q (hthread q ▸ h)
  pages q h := by
    rw [(htask q).trapframe, (htask q).pagetable]
    exact hs.pages q ((htask q).unused.1 h)

/-- One slot and its thread change. -/
theorem change (hthread : t.thread = update s.thread i th)
    (htask : t.task = update s.task i x) (hdead : th.pc.isDead = true ↔ x.state = unused ∨ x.state = zombie)
    (hparent : ∀ q, q ≠ i → x.parent = some q → (s.thread q).pc.kept i)
    (hkept : ∀ pp, (t.task pp).parent = some i → th.pc.kept pp) (hinit : initproc = i → th.pc.closed = false)
    (hclosed : th.pc.closed = true → (∀ fd, x.ofile fd = false) ∧ x.cwd = false)
    (hpages : x.state = unused → x.trapframe = false ∧ x.pagetable = false) : t.Tree := by
  have hself : t.task i = x ∧ t.thread i = th := by rw [htask, hthread, update_self, update_self]; exact ⟨rfl, rfl⟩
  have hother : ∀ q, q ≠ i → t.task q = s.task q ∧ t.thread q = s.thread q := fun q hq => by
    rw [htask, hthread, update_of_ne hq, update_of_ne hq]
    exact ⟨rfl, rfl⟩
  refine ⟨fun q => ?_, fun pp q h => ?_, ?_, fun q h => ?_, fun q h => ?_⟩
  · by_cases hq : q = i
    · subst hq
      rw [hself.1, hself.2, hdead]
    · rw [(hother q hq).1, (hother q hq).2, hs.dead]
  · by_cases hq : q = i
    · subst hq
      rw [hself.2]
      exact hkept pp h
    · rw [(hother q hq).2]
      by_cases hp : pp = i
      · subst hp
        exact hparent q hq (hself.1 ▸ h)
      · exact hs.kept pp q ((hother pp hp).1 ▸ h)
  · by_cases hq : initproc = i
    · rw [hq, hself.2, hinit hq]
    · rw [(hother _ hq).2, hs.init]
  · by_cases hq : q = i
    · subst hq
      rw [hself.2] at h
      rw [hself.1]
      exact hclosed h
    · rw [(hother q hq).2] at h
      rw [(hother q hq).1]
      exact hs.closed q h
  · by_cases hq : q = i
    · subst hq
      rw [hself.1] at h ⊢
      exact hpages h
    · rw [(hother q hq).1] at h ⊢
      exact hs.pages q h

/-- A live process goes on to a place where it has closed no more and may still have its children. -/
theorem goto (hpc : (s.thread p).pc = pc) (hdead : pc.isDead = false)
    (hthread : t.thread = update s.thread p th) (htask : ∀ q, (s.task q).Alike (t.task q)) (hdead' : th.pc.isDead = false)
    (hclosed : th.pc.closed = true → pc.closed = true ∨ p ≠ initproc ∧ (∀ fd, (s.task p).ofile fd = false) ∧ (s.task p).cwd = false)
    (hkept : ∀ pp, (s.task pp).parent = some p → pc.kept pp → th.pc.kept pp) : t.Tree := by
  have hmoved : State.Tree { s with thread := update s.thread p th } := by
    refine hs.change rfl (update_eq_self p s.task).symm ?_ (fun q _ => hs.kept p q) (fun pp h => hkept pp h (hpc ▸ hs.kept pp p h)) ?_ ?_
      (hs.pages p)
    · rw [← hs.dead, hpc, hdead, hdead']
    · intro hp
      refine Bool.eq_false_iff.2 fun h => ?_
      rcases hclosed h with hc | ⟨hne, -⟩
      · rw [← hpc, ← hp, hs.init] at hc
        cases hc
      · exact hne hp.symm
    · intro h
      rcases hclosed h with hc | ⟨-, hfiles⟩
      · exact hs.closed p (hpc ▸ hc)
      · exact hfiles
  exact hmoved.alike (fun q => by rw [hthread]) htask

/-- A slot is written, while no thread moves. -/
theorem put (hthread : t.thread = s.thread) (htask : t.task = update s.task i x)
    (hst : (s.task i).state = unused ∨ (s.task i).state = zombie ↔ x.state = unused ∨ x.state = zombie)
    (hparent : ∀ q, x.parent = some q → (s.thread q).pc.kept i)
    (hfiles : (s.thread i).pc.closed = true → (∀ fd, x.ofile fd = false) ∧ x.cwd = false)
    (hpages : x.state = unused → x.trapframe = false ∧ x.pagetable = false) : t.Tree := by
  refine hs.change (hthread.trans (update_eq_self i s.thread).symm) htask ((hs.dead i).trans hst) (fun q _ => hparent q) (fun pp h => ?_)
    (fun h => h ▸ hs.init) hfiles hpages
  rw [htask] at h
  by_cases hp : pp = i
  · subst hp
    exact hparent pp (by rwa [update_self] at h)
  · exact hs.kept pp i (by rwa [update_of_ne hp] at h)

/-- What a live process does to its own slot keeps the tree, if it keeps its parent and, past the closing, no file. -/
theorem own (hthread : t.thread = s.thread) (htask : t.task = update s.task i x)
    (hst : x.state = (s.task i).state) (hparent : x.parent = (s.task i).parent ∨ ∃ q, x.parent = some q ∧ (s.thread q).pc.closed = false)
    (hfiles : (s.thread i).pc.closed = true → (∀ fd, x.ofile fd = false) ∧ x.cwd = false)
    (hpages : x.trapframe = (s.task i).trapframe ∧ x.pagetable = (s.task i).pagetable) : t.Tree := by
  refine hs.put hthread htask (by rw [hst]) (fun q h => ?_) hfiles fun h => ?_
  · rcases hparent with hp | ⟨q', hp, hopen⟩
    · exact hs.kept i q (hp ▸ h)
    · obtain rfl := Option.some.inj (hp.symm.trans h)
      exact Pc.kept_of_open hopen i
  · rw [hpages.1, hpages.2]
    exact hs.pages i (hst ▸ h)

/-- A slot whose process has no thread any more is freed. -/
theorem free (hthread : t.thread = s.thread) (htask : t.task = update s.task i x)
    (hst : (s.task i).state = unused ∨ (s.task i).state = zombie) (hx : x.state = unused) (hparent : x.parent = none)
    (hfiles : x.ofile = (s.task i).ofile ∧ x.cwd = (s.task i).cwd) (hpages : x.trapframe = false ∧ x.pagetable = false) : t.Tree := by
  refine hs.put hthread htask (iff_of_true hst (.inl hx)) (fun q h => ?_) (fun h => ?_) fun _ => hpages
  · rw [hparent] at h
    cases h
  · rw [hfiles.1, hfiles.2]
    exact hs.closed i h

/-- A free slot gets a process, which is in no part of `kexit`. -/
theorem born (hthread : t.thread = update s.thread i th)
    (htask : t.task = update s.task i x) (hx : x.state = used)
    (hparent : x.parent = (s.task i).parent) (hth : th.pc.closed = false) : t.Tree := by
  refine hs.change hthread htask (iff_of_false (Bool.eq_false_iff.1 (Pc.not_dead_of_open hth)) ?_) (fun q _ h => hs.kept i q (hparent ▸ h))
    (fun pp _ => Pc.kept_of_open hth pp) (fun _ => hth) (fun h => ?_) fun h => ?_
  · rw [hx]
    decide
  · rw [hth] at h
    cases h
  · rw [hx] at h
    cases h

/-- A process that has no child any more becomes a `ZOMBIE`. -/
theorem exited (hpc : (s.thread p).pc = pc) (hkept : ∀ pp, ¬pc.kept pp)
    (hclosed : pc.closed = true) (hthread : t.thread = update s.thread p th) (htask : t.task = update s.task p x)
    (hx : x.state = zombie) (hparent : x.parent = (s.task p).parent)
    (hfiles : x.ofile = (s.task p).ofile ∧ x.cwd = (s.task p).cwd) (hth : th.pc = .dead) : t.Tree := by
  refine hs.change hthread htask (iff_of_true (hth ▸ rfl) (.inr hx)) (fun q _ h => hs.kept p q (hparent ▸ h)) (fun pp h => ?_) (fun h => ?_)
    (fun _ => ?_) fun h => ?_
  · rw [htask, view_same (f := fun u : Task M => u.parent) hparent] at h
    exact absurd (hpc ▸ hs.kept pp p h) (hkept pp)
  · rw [← hpc, ← h, hs.init] at hclosed
    cases hclosed
  · rw [hfiles.1, hfiles.2]
    exact hs.closed p (hpc ▸ hclosed)
  · rw [hx] at h
    cases h

end

end State.Tree

section moves

variable {pr : Protocol D A} {s t : State C M D A} {c : C} {act : Act M D A} {p : Slot} {pc pc' : Pc M D A}

/-- A place in `kexit` is followed only by places in `kexit`, and `reparent` passes over a slot only when it is no child. -/
theorem Plain.tree (h : Plain s c p pc pc') :
    pc.isDead = false ∧ pc'.isDead = false ∧ (pc'.closed = true → pc.closed = true) ∧ ∀ pp, (s.task pp).parent = some p → pc.kept pp → pc'.kept pp := by
  cases h with
  | reparented =>
    refine ⟨rfl, rfl, fun _ => rfl, fun pp _ hk => ?_⟩
    cases hk
  | notChild hne =>
    refine ⟨rfl, rfl, fun _ => rfl, fun pp hp hk => ?_⟩
    rcases mem_cons.1 hk with rfl | hk
    · exact absurd hp hne
    · exact hk
  | _ => exact ⟨rfl, rfl, id, fun _ _ hk => hk⟩

theorem Waking.tree {ch : Option (Chan M)} {j : Slot} (h : Waking pc ch j pc') :
    pc.isDead = false ∧ pc'.isDead = false ∧ (pc'.closed = true → pc.closed = true) ∧ ∀ pp, pc.kept pp → pc'.kept pp := by
  cases h <;> exact ⟨rfl, rfl, id, fun _ hk => hk⟩

theorem LockWait.tree (h : LockWait pc pc') :
    pc.isDead = false ∧ pc'.isDead = false ∧ (pc'.closed = true → pc.closed = true) ∧ ∀ pp, pc.kept pp → pc'.kept pp := by
  cases h with
  | exit => exact ⟨rfl, rfl, id, fun pp _ => mem_allSlots pp⟩
  | kwait => exact ⟨rfl, rfl, id, fun _ hk => hk⟩

theorem Ends.not_dead (h : Ends pc) : pc.isDead = false := by
  cases h <;> rfl

theorem Unwaited.not_dead (h : Unwaited pc) : pc.isDead = false := by
  cases h <;> rfl

theorem LockLoop.not_dead {m : M} {a : A} (h : LockLoop pc m a) : pc.isDead = false := by
  cases h <;> rfl

/-- A system call that returns, or a thread that goes on outside `kexit`. -/
theorem State.Tree.open (hs : s.Tree) (hat : At s c p pc) (hdead : pc.isDead = false) {th : Thread M D A}
    (hthread : t.thread = update s.thread p th) (htask : ∀ q, (s.task q).Alike (t.task q)) (hth : th.pc.closed = false) : t.Tree := by
  refine hs.goto hat.pc hdead hthread htask (Pc.not_dead_of_open hth) ?_ fun pp _ _ => Pc.kept_of_open hth pp
  intro h
  rw [hth] at h
  cases h

variable [DecidableEq C] [DecidableEq M]

theorem Move.tree (hsane : s.Sane) (hs : s.Tree) (h : Move pr s c act t) : t.Tree := by
  have refl : ∀ q, (s.task q).Alike (s.task q) := fun q => .refl _
  cases h with
  | look task mode hirq hmode hidle hsame | account task hsame => exact hs.alike (fun _ => rfl) fun q => .of_same (hsame q)
  | switchTo p hirq hmode hlock hstate =>
    refine hs.alike (fun _ => rfl) (Task.Alike.update (.setState ?_ (by decide)))
    rw [hstate]
    decide
  | back | intr | intrSignal | intrSkip | intrDone =>
    exact hs.alike (fun _ => rfl) refl
  | resume =>
    refine hs.alike (view_same (f := Thread.pc) rfl) ?_
    unfold State.resumeStep
    simp only
    split
    · exact Task.Alike.update (.setChan _ _)
    · exact refl
  | yield p pc hat =>
    refine hs.alike (view_same (f := Thread.pc) rfl) (Task.Alike.update (.setState ?_ (by decide)))
    rw [hsane.running hat.mode]
    decide
  | file p hat =>
    refine hs.own rfl rfl rfl (.inl rfl) (fun h => ?_) ⟨rfl, rfl⟩
    rw [hat.pc] at h
    cases h
  | plain p pc pc' hat h =>
    obtain ⟨hd, hd', hc, hk⟩ := h.tree
    exact hs.goto hat.pc hd rfl refl hd' (fun h => .inl (hc h)) hk
  | ends p pc v hat h | unwaited p pc hat h | lockLoop p pc m a hat h => exact hs.open hat h.not_dead rfl refl rfl
  | callExit p status hat hinit =>
    have h1 : State.Tree { s with task := update s.task p ((s.task p).setFiles (fun _ => false) false) } :=
      hs.own rfl rfl rfl (.inl rfl) (fun _ => ⟨fun _ => rfl, rfl⟩) ⟨rfl, rfl⟩
    have hpc : (s.thread p).pc = .user := hat.pc
    refine h1.goto (p := p) hpc rfl rfl (fun q => .refl _) rfl (fun _ => .inr ⟨hinit, ?_⟩) fun _ _ hk => hk
    simp
  | forked p i rest hat hlock hstate =>
    have hne : p ≠ i := by
      rintro rfl
      rw [hsane.running hat.mode] at hstate
      cases hstate
    have h1 : State.Tree { s with
        task := update s.task i ((((s.task i).setProc (((s.task i).toProc.allocproc s.nextpid).setName (s.task p).name)).setPages
          true true).setFiles (fun fd => (s.task p).ofile fd || (s.task i).ofile fd) (s.task p).cwd)
        thread := update s.thread i ⟨.user, .yield, 0⟩ } := hs.born rfl rfl rfl rfl rfl
    have hpc : (update s.thread i ⟨.user, .yield, 0⟩ p).pc = .fork (i :: rest) := by rw [update_of_ne hne, hat.pc]
    exact h1.goto hpc rfl rfl (fun q => .refl _) rfl .inl fun _ _ hk => hk
  | forkFailed p i rest hat hlock hstate =>
    have h1 : State.Tree { s with task := update s.task i ((s.task i).setProc ((s.task i).toProc.allocproc s.nextpid)).freeproc } :=
      hs.free rfl rfl (.inl hstate) rfl rfl ⟨rfl, rfl⟩ ⟨rfl, rfl⟩
    exact h1.goto (p := p) hat.pc rfl rfl (fun q => .refl _) rfl .inl fun _ _ hk => hk
  | adopt p np pid hat =>
    have h1 : State.Tree { s with task := update s.task np ((s.task np).setProc ((s.task np).toProc.setParent (some p))) } :=
      hs.own rfl rfl rfl (.inr ⟨p, rfl, hat.pc ▸ rfl⟩) (fun h => hs.closed np h) ⟨rfl, rfl⟩
    exact h1.goto (p := p) hat.pc rfl rfl (fun q => .refl _) rfl .inl fun _ _ hk => hk
  | publish p np pid hat =>
    refine hs.open hat rfl rfl (Task.Alike.update (.setState ?_ (by decide))) rfl
    rw [hsane.made (congrArg Pc.making hat.pc)]
    decide
  | lockWait p pc pc' hat h =>
    obtain ⟨hd, hd', hc, hk⟩ := h.tree
    exact hs.goto hat.pc hd rfl refl hd' (fun h => .inl (hc h)) fun pp _ => hk pp
  | reparent p pp status rest hat =>
    have hne : initproc ≠ p := by
      intro h
      have hinit := hs.init
      rw [h, hat.pc] at hinit
      cases hinit
    have h1 : State.Tree { s with task := update s.task pp ((s.task pp).setProc ((s.task pp).toProc.setParent (some initproc))) } :=
      hs.own rfl rfl rfl (.inr ⟨initproc, rfl, hs.init⟩) (fun h => hs.closed pp h) ⟨rfl, rfl⟩
    refine h1.goto (p := p) hat.pc rfl rfl (fun q => .refl _) rfl .inl fun q hq hk => ?_
    -- the slot that has just been handed to `init` is no child of `p` any more
    rcases mem_cons.1 hk with rfl | hk
    · simp only [update_self] at hq
      exact absurd (Option.some.inj hq) hne
    · exact hk
  | wake p j pc pc' ch hat h =>
    obtain ⟨hd, hd', hc, hk⟩ := h.tree
    exact hs.goto hat.pc hd rfl (Task.Alike.update (.wakeup _ ch)) hd' (fun h => .inl (hc h)) fun pp _ => hk pp
  | exitMark p status hat =>
    exact hs.exited hat.pc (fun _ h => h) rfl rfl rfl rfl rfl ⟨rfl, rfl⟩ rfl
  | reap p pp addr k rest hat hparent hlock hstate =>
    have h1 : State.Tree { s with task := update s.task pp (s.task pp).freeproc } :=
      hs.free rfl rfl (.inr hstate) rfl rfl ⟨rfl, rfl⟩ ⟨rfl, rfl⟩
    exact h1.goto (p := p) hat.pc rfl rfl (fun q => .refl _) rfl .inl fun _ _ hk => hk
  | kill p i pid rest hat => exact hs.open hat rfl rfl (Task.Alike.update (.kkill _)) rfl
  | pass p m a b hat | passed p m a hat | loopKilled p m a hat | sleepLock p w hat | signal p m f hat | notified p m hat =>
    exact hs.open hat rfl rfl refl rfl
  | unready p m a hat =>
    refine hs.open hat rfl rfl refl ?_
    simp only [Thread.goto_pc]
    split <;> rfl
  | sleepRelease p w hat =>
    cases w with
    | kwait | mon => exact hs.open hat rfl rfl refl rfl
  | asleep p w hat =>
    refine hs.open hat rfl rfl (Task.Alike.update ?_) ?_
    · refine (Task.Alike.setChan _ _).trans (.setState ?_ (by decide))
      show (s.task p).state ≠ unused ∧ (s.task p).state ≠ zombie
      rw [hsane.running hat.mode]
      decide
    · cases w <;> rfl
  | intrWake => exact hs.alike (fun _ => rfl) (Task.Alike.update (.wakeup _ _))

end moves

theorem State.Tree.boot (data : M → D) : (State.boot data : State C M D A).Tree where
  dead p := by
    rw [State.boot_task, State.boot_thread]
    split_ifs
    · exact iff_of_false (fun h => by cases h) fun h => by rcases h with h | h <;> cases h
    · exact iff_of_true rfl (.inl rfl)
  kept pp p h := by
    rw [State.boot_task] at h
    split_ifs at h <;> cases h
  init := by
    rw [State.boot_thread, if_pos rfl]
    rfl
  closed p h := by
    rw [State.boot_thread] at h
    split_ifs at h with hp
    · cases h
    · rw [State.boot_task, if_neg hp]
      exact ⟨fun _ => rfl, rfl⟩
  pages p h := by
    rw [State.boot_task] at h ⊢
    split_ifs at h ⊢
    · cases h
    · exact ⟨rfl, rfl⟩

end Xv6.Threads
