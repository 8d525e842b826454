import Xv6.Lemmas.ThreadTree

/-!
# Pids, exits and reaping

As long as fewer than `2 ^ 31` pids have been allocated, `allocpid` never returns a pid twice. So a pid names one process for ever: it
is alive in one slot, or it has exited and its status is kept in the one `ZOMBIE` with that pid, or `kwait` has freed it, once.
-/

namespace Xv6.Threads

open ProcState Function List

variable {C M D A : Type}

structure State.Census (s : State C M D A) : Prop where
  next : s.allocated + 1 < 2 ^ 31 → s.nextpid = s.allocated + 1
  range : ∀ p, (s.task p).state ≠ unused → 0 < (s.task p).pid ∧ (s.task p).pid ≤ s.allocated
  inj : ∀ p q, (s.task p).state ≠ unused → (s.task q).state ≠ unused → (s.task p).pid = (s.task q).pid → p = q
  past : ∀ e ∈ s.exits, e.1 ≤ s.allocated
  alive : ∀ p, (s.task p).state ≠ unused → (s.task p).state ≠ zombie → (s.task p).pid ∉ s.exits.map Prod.fst
  zombies : ∀ p, (s.task p).state = zombie →
    ((s.task p).pid, (s.task p).xstate) ∈ s.exits ∧ (s.task p).pid ∉ s.reaps.map Reap.pid
  exited : ∀ e ∈ s.exits, (∃ p, (s.task p).state = zombie ∧ (s.task p).pid = e.1 ∧ (s.task p).xstate = e.2) ∨
    ∃ r ∈ s.reaps, r.pid = e.1 ∧ ∀ st, r.status = some st → st = e.2
  exits : (s.exits.map Prod.fst).Nodup
  reaps : (s.reaps.map Reap.pid).Nodup
  reaped : ∀ r ∈ s.reaps, r.pid ∈ s.exits.map Prod.fst

/-- A slot changes in fields that are not counted. -/
theorem Task.Peer.update {task : Slot → Task M} {i : Slot} {x : Task M} (hst : x.state = (task i).state)
    (hpid : x.pid = (task i).pid) (hxstate : x.xstate = (task i).xstate) (q : Slot) :
    (task q).Peer (update task i x q) := by
  have hstate := view_same (f := fun t : Task M => t.state) hst q
  exact ⟨by rw [hstate], by rw [hstate], view_same (f := fun t : Task M => t.pid) hpid q, view_same (f := Task.xstate) hxstate q⟩

variable {s t : State C M D A} {p : Slot} {x : Task M} {i : Slot} {c : C}

/-- No pid is allocated, and nobody exits or is freed. -/
structure Unchanged (s t : State C M D A) : Prop where
  task : ∀ q, (s.task q).Peer (t.task q)
  nextpid : t.nextpid = s.nextpid
  allocated : t.allocated = s.allocated
  exits : t.exits = s.exits
  reaps : t.reaps = s.reaps

/-- A pid is taken from `allocpid`, for a slot that then holds a process or is free again. -/
structure Allocates (s t : State C M D A) (i : Slot) (x : Task M) : Prop where
  task : t.task = update s.task i x
  free : (s.task i).state = unused
  made : x.state = unused ∨ x.state = used ∧ x.pid = s.nextpid
  nextpid : t.nextpid = intIncr s.nextpid
  allocated : t.allocated = s.allocated + 1
  exits : t.exits = s.exits
  reaps : t.reaps = s.reaps

/-- A process that runs becomes a `ZOMBIE` that keeps its status. -/
structure Exits (s t : State C M D A) (p : Slot) (x : Task M) : Prop where
  task : t.task = update s.task p x
  runs : (s.task p).state = running
  ended : x.state = zombie
  pid : x.pid = (s.task p).pid
  nextpid : t.nextpid = s.nextpid
  allocated : t.allocated = s.allocated
  exits : t.exits = s.exits ++ [((s.task p).pid, x.xstate)]
  reaps : t.reaps = s.reaps

/-- The `kwait` of `p` frees the `ZOMBIE` in slot `pp` and hands out its pid and status. -/
structure Frees (s : State C M D A) (c : C) (t : State C M D A) (p pp : Slot) (addr : Nat) : Prop where
  scan : ∃ k rest, At s c p (.scan addr k (pp :: rest))
  parent : (s.task pp).parent = some p
  lock : s.lock pp = none
  ended : (s.task pp).state = zombie
  task : t.task = update s.task pp (s.task pp).freeproc
  thread : (t.thread p).pc = .user ∧ (t.thread p).a0 = (s.task pp).pid
  nextpid : t.nextpid = s.nextpid
  allocated : t.allocated = s.allocated
  exits : t.exits = s.exits
  reaps : t.reaps = s.reaps ++ [⟨p, (s.task pp).pid, if addr = 0 then none else some (s.task pp).xstate⟩]

/-- What a step does to the pids, exits and reaped children. -/
inductive Change (s : State C M D A) (c : C) (t : State C M D A) : Prop where
  | same (h : Unchanged s t)
  | alloc (i : Slot) (x : Task M) (h : Allocates s t i x)
  | exit (p : Slot) (x : Task M) (h : Exits s t p x)
  | reap (p pp : Slot) (addr : Nat) (h : Frees s c t p pp addr)

theorem Unchanged.census (h : Unchanged s t) (hs : s.Census) : t.Census where
  next := by rw [h.nextpid, h.allocated]; exact hs.next
  range q hq := by
    rw [(h.task q).pid, h.allocated]
    exact hs.range q (mt (h.task q).unused.2 hq)
  inj q r hq hr := by
    rw [(h.task q).pid, (h.task r).pid]
    exact hs.inj q r (mt (h.task q).unused.2 hq) (mt (h.task r).unused.2 hr)
  past := by rw [h.exits, h.allocated]; exact hs.past
  alive q hq hq' := by
    rw [(h.task q).pid, h.exits]
    exact hs.alive q (mt (h.task q).unused.2 hq) (mt (h.task q).zombie.2 hq')
  zombies q hq := by
    rw [(h.task q).pid, (h.task q).xstate, h.exits, h.reaps]
    exact hs.zombies q ((h.task q).zombie.1 hq)
  exited e he := by
    rw [h.reaps]
    refine (hs.exited e (h.exits ▸ he)).imp ?_ id
    rintro ⟨q, hq, hpid, hst⟩
    exact ⟨q, (h.task q).zombie.2 hq, (h.task q).pid.trans hpid, (h.task q).xstate.trans hst⟩
  exits := by rw [h.exits]; exact hs.exits
  reaps := by rw [h.reaps]; exact hs.reaps
  reaped := by rw [h.exits, h.reaps]; exact hs.reaped

theorem Allocates.census (h : Allocates s t i x) (hs : s.Census) (hlt : s.allocated + 1 < 2 ^ 31) : t.Census := by
  obtain ⟨htask, hi, hx, hnext, hall, hexits, hreaps⟩ := h
  have hself : t.task i = x := by rw [htask, update_self]
  have hother : ∀ q, q ≠ i → t.task q = s.task q := fun q hq => by rw [htask, update_of_ne hq]
  have hfresh : x.state ≠ unused → x.pid = s.allocated + 1 := by
    intro h
    rw [(hx.resolve_left h).2, hs.next hlt]
  have hnz : x.state ≠ .zombie := by
    rcases hx with h | ⟨h, -⟩
    · rw [h]; decide
    · rw [h]; decide
  have hpast : ∀ q, q ≠ i → (s.task q).state ≠ unused → (s.task q).pid ≠ s.allocated + 1 := by
    intro q _ hq h
    have := (hs.range q hq).2
    omega
  refine ⟨fun h => ?_, fun q h => ?_, fun q r h h' hpid => ?_, fun e he => ?_, fun q h h' => ?_, fun q h => ?_, fun e he => ?_, ?_, ?_, ?_⟩
  · rw [hnext, hall, hs.next hlt]
    unfold intIncr
    rw [if_neg]
    · push_cast
      rfl
    · unfold INT_MAX
      rw [hall] at h
      omega
  · rw [hall]
    by_cases hq : q = i
    · subst hq
      rw [hself] at h ⊢
      rw [hfresh h]
      omega
    · rw [hother q hq] at h ⊢
      have := hs.range q h
      omega
  · by_cases hq : q = i <;> by_cases hr : r = i
    · rw [hq, hr]
    · subst hq
      rw [hself] at h hpid
      rw [hother r hr] at h' hpid
      exact absurd (hpid.symm.trans (hfresh h)) (hpast r hr h')
    · subst hr
      rw [hself] at h' hpid
      rw [hother q hq] at h hpid
      exact absurd (hpid.trans (hfresh h')) (hpast q hq h)
    · rw [hother q hq] at h hpid
      rw [hother r hr] at h' hpid
      exact hs.inj q r h h' hpid
  · rw [hall]
    have := hs.past e (hexits ▸ he)
    omega
  · rw [hexits]
    by_cases hq : q = i
    · subst hq
      rw [hself] at h ⊢
      intro hmem
      obtain ⟨e, he, heq⟩ := mem_map.1 hmem
      have := hs.past e he
      rw [hfresh h] at heq
      omega
    · rw [hother q hq] at h h' ⊢
      exact hs.alive q h h'
  · rw [hexits, hreaps]
    by_cases hq : q = i
    · subst hq
      rw [hself] at h
      exact absurd h hnz
    · rw [hother q hq] at h ⊢
      exact hs.zombies q h
  · rw [hreaps]
    refine (hs.exited e (hexits ▸ he)).imp ?_ id
    rintro ⟨q, h, h', h''⟩
    have hq : q ≠ i := by
      rintro rfl
      rw [hi] at h
      cases h
    exact ⟨q, by rw [hother q hq]; exact ⟨h, h', h''⟩⟩
  · rw [hexits]
    exact hs.exits
  · rw [hreaps]
    exact hs.reaps
  · rw [hexits, hreaps]
    exact hs.reaped

theorem Exits.census (h : Exits s t p x) (hs : s.Census) : t.Census := by
  obtain ⟨htask, hrun, hx, hpid, hnext, hall, hexits, hreaps⟩ := h
  have hp : (s.task p).state ≠ unused ∧ (s.task p).state ≠ .zombie := by
    rw [hrun]
    decide
  have hself : t.task p = x := by rw [htask, update_self]
  have hother : ∀ q, q ≠ p → t.task q = s.task q := fun q hq => by rw [htask, update_of_ne hq]
  have hpids : ∀ q, (t.task q).pid = (s.task q).pid := by
    intro q
    by_cases hq : q = p
    · subst hq
      rw [hself, hpid]
    · rw [hother q hq]
  have hunused : ∀ q, (t.task q).state ≠ unused → (s.task q).state ≠ unused := by
    intro q h
    by_cases hq : q = p
    · subst hq
      exact hp.1
    · rw [hother q hq] at h
      exact h
  have hnew := hs.alive p hp.1 hp.2
  have hmap : t.exits.map Prod.fst = s.exits.map Prod.fst ++ [(s.task p).pid] := by
    rw [hexits, map_append]
    rfl
  refine ⟨?_, fun q h => ?_, fun q r h h' => ?_, fun e he => ?_, fun q h h' => ?_, fun q h => ?_, fun e he => ?_, ?_, ?_, fun r hr => ?_⟩
  · rw [hnext, hall]
    exact hs.next
  · rw [hpids, hall]
    exact hs.range q (hunused q h)
  · rw [hpids, hpids]
    exact hs.inj q r (hunused q h) (hunused r h')
  · rw [hall]
    rw [hexits, mem_append, mem_singleton] at he
    rcases he with he | rfl
    · exact hs.past e he
    · exact (hs.range p hp.1).2
  · have hq : q ≠ p := by
      rintro rfl
      rw [hself, hx] at h'
      exact h' rfl
    rw [hother q hq] at h h' ⊢
    rw [hmap, mem_append, mem_singleton, not_or]
    exact ⟨hs.alive q h h', fun heq => hq (hs.inj q p h hp.1 heq)⟩
  · rw [hreaps, hexits]
    by_cases hq : q = p
    · subst hq
      rw [hself, hpid]
      refine ⟨mem_append_right _ (mem_singleton_self _), fun hmem => hnew ?_⟩
      obtain ⟨r, hr, heq⟩ := mem_map.1 hmem
      rw [← heq]
      exact hs.reaped r hr
    · rw [hother q hq] at h ⊢
      exact ⟨mem_append_left _ (hs.zombies q h).1, (hs.zombies q h).2⟩
  · rw [hreaps]
    rw [hexits, mem_append, mem_singleton] at he
    rcases he with he | rfl
    · refine (hs.exited e he).imp ?_ id
      rintro ⟨q, h, h', h''⟩
      have hq : q ≠ p := by
        rintro rfl
        exact hp.2 h
      exact ⟨q, by rw [hother q hq]; exact ⟨h, h', h''⟩⟩
    · exact .inl ⟨p, by rw [hself]; exact hx, by rw [hself]; exact hpid, by rw [hself]⟩
  · rw [hmap]
    exact hs.exits.append (nodup_singleton _) (disjoint_singleton.2 hnew)
  · rw [hreaps]
    exact hs.reaps
  · rw [hmap]
    exact mem_append_left _ (hs.reaped r (hreaps ▸ hr))

theorem Frees.census {addr : Nat} (h : Frees s c t p i addr) (hs : s.Census) : t.Census := by
  obtain ⟨-, -, -, hi, htask, -, hnext, hall, hexits, hreaps⟩ := h
  have hself : t.task i = (s.task i).freeproc := by rw [htask, update_self]
  have hother : ∀ q, q ≠ i → t.task q = s.task q := fun q hq => by rw [htask, update_of_ne hq]
  have hne : ∀ q, (t.task q).state ≠ unused → q ≠ i := by
    rintro q h rfl
    rw [hself] at h
    exact h rfl
  have hnu : (s.task i).state ≠ unused := by
    rw [hi]
    decide
  obtain ⟨hin, hout⟩ := hs.zombies i hi
  have hmap : t.reaps.map Reap.pid = s.reaps.map Reap.pid ++ [(s.task i).pid] := by
    rw [hreaps, map_append]
    rfl
  refine ⟨?_, fun q h => ?_, fun q q' h h' => ?_, ?_, fun q h h' => ?_, fun q h => ?_, fun e he => ?_, ?_, ?_, fun r' hr' => ?_⟩
  · rw [hnext, hall]
    exact hs.next
  · rw [hall, hother q (hne q h)]
    exact hs.range q (hother q (hne q h) ▸ h)
  · rw [hother q (hne q h), hother q' (hne q' h')]
    exact hs.inj q q' (hother q (hne q h) ▸ h) (hother q' (hne q' h') ▸ h')
  · rw [hexits, hall]
    exact hs.past
  · rw [hexits, hother q (hne q h)]
    exact hs.alive q (hother q (hne q h) ▸ h) (hother q (hne q h) ▸ h')
  · have hq : q ≠ i := hne q (by rw [h]; decide)
    rw [hother q hq] at h ⊢
    rw [hexits, hmap, mem_append, mem_singleton, not_or]
    refine ⟨(hs.zombies q h).1, (hs.zombies q h).2, fun heq => hq (hs.inj q i ?_ hnu heq)⟩
    rw [h]
    decide
  · rw [hreaps]
    rw [hexits] at he
    rcases hs.exited e he with ⟨q, h, h', h''⟩ | ⟨r', hr', h, h'⟩
    · by_cases hq : q = i
      · subst hq
        refine .inr ⟨_, mem_append_right _ (mem_singleton_self _), h', fun st hst => ?_⟩
        simp only at hst
        split at hst
        · cases hst
        · exact (Option.some.inj hst).symm.trans h''
      · exact .inl ⟨q, by rw [hother q hq]; exact ⟨h, h', h''⟩⟩
    · exact .inr ⟨r', mem_append_left _ hr', h, h'⟩
  · rw [hexits]
    exact hs.exits
  · rw [hmap]
    exact hs.reaps.append (nodup_singleton _) (disjoint_singleton.2 hout)
  · rw [hexits]
    rw [hreaps, mem_append, mem_singleton] at hr'
    rcases hr' with hr' | rfl
    · exact hs.reaped r' hr'
    · exact mem_map.2 ⟨_, hin, rfl⟩

theorem State.Census.boot (data : M → D) : (State.boot data : State C M D A).Census where
  next := fun _ => rfl
  range p h := by
    rw [State.boot_task] at h ⊢
    split_ifs at h ⊢
    · exact ⟨Int.zero_lt_one, le_of_eq rfl⟩
    · exact absurd rfl h
  inj p q h h' _ := by
    rw [State.boot_task] at h h'
    split_ifs at h h' with hp hq
    · rw [hp, hq]
    · exact absurd rfl h'
    · exact absurd rfl h
    · exact absurd rfl h
  past e he := absurd he not_mem_nil
  alive p _ _ := not_mem_nil
  zombies p h := by
    rw [State.boot_task] at h
    split_ifs at h <;> cases h
  exited e he := absurd he not_mem_nil
  exits := nodup_nil
  reaps := nodup_nil
  reaped r hr := absurd hr not_mem_nil

/-- The number of pids allocated never falls. -/
theorem Change.allocated_le (h : Change s c t) : s.allocated ≤ t.allocated := by
  cases h with
  | same h | exit _ _ h | reap _ _ _ h => exact h.allocated.ge
  | alloc _ _ h =>
    rw [h.allocated]
    omega

theorem Change.census (hs : s.Census) (h : Change s c t) (hlt : t.allocated < 2 ^ 31) : t.Census := by
  cases h with
  | same h | exit p x h | reap p pp addr h => exact h.census hs
  | alloc i x h => exact h.census hs (h.allocated ▸ hlt)

section moves

variable [DecidableEq C] [DecidableEq M] {pr : Protocol D A} {act : Act M D A}

theorem Move.change (hsane : s.Sane) (h : Move pr s c act t) : Change s c t := by
  have refl : ∀ q, (s.task q).Peer (s.task q) := fun q => (Task.Alike.refl _).toPeer
  -- a process that a CPU runs, or that is being made, stays alive
  have live : ∀ {p : Slot} {st st' : ProcState}, (s.task p).state = st → st ≠ unused ∧ st ≠ zombie → st' ≠ unused ∧ st' ≠ zombie →
      ∀ q, (s.task q).Peer (update s.task p ((s.task p).setProc ((s.task p).toProc.setState st')) q) := fun hp hst hst' q =>
    (Task.Alike.update (.setState (hp ▸ hst) hst') q).toPeer
  cases h with
  | look task mode hirq hmode hidle hsame | account task hsame => exact .same ⟨fun q => (Task.Alike.of_same (hsame q)).toPeer, rfl, rfl, rfl, rfl⟩
  | switchTo p hirq hmode hlock hstate => exact .same ⟨live hstate (by decide) (by decide), rfl, rfl, rfl, rfl⟩
  | resume =>
    refine .same ⟨?_, rfl, rfl, rfl, rfl⟩
    unfold State.resumeStep
    simp only
    split
    · exact Task.Peer.update rfl rfl rfl
    · exact refl
  | yield p pc hat => exact .same ⟨live (hsane.running hat.mode) (by decide) (by decide), rfl, rfl, rfl, rfl⟩
  | file | callExit | adopt | reparent =>
    exact .same ⟨Task.Peer.update rfl rfl rfl, rfl, rfl, rfl, rfl⟩
  | forked p i rest hat hlock hstate => exact .alloc i _ ⟨rfl, hstate, .inr ⟨rfl, rfl⟩, rfl, rfl, rfl, rfl⟩
  | forkFailed p i rest hat hlock hstate => exact .alloc i _ ⟨rfl, hstate, .inl rfl, rfl, rfl, rfl, rfl⟩
  | publish p np pid hat =>
    exact .same ⟨live (hsane.made (congrArg Pc.making hat.pc)) (by decide) (by decide), rfl, rfl, rfl, rfl⟩
  | wake p j pc pc' ch => exact .same ⟨fun q => (Task.Alike.update (.wakeup _ ch) q).toPeer, rfl, rfl, rfl, rfl⟩
  | exitMark p status hat => exact .exit p _ ⟨rfl, hsane.running hat.mode, rfl, rfl, rfl, rfl, rfl, rfl⟩
  | reap p pp addr k rest hat hparent hlock hstate =>
    refine .reap p pp addr ⟨⟨k, rest, hat⟩, hparent, hlock, hstate, rfl, ?_, rfl, rfl, rfl, rfl⟩
    simp [State.ret]
  | kill => exact .same ⟨fun q => (Task.Alike.update (.kkill _) q).toPeer, rfl, rfl, rfl, rfl⟩
  | sleepRelease p w => cases w <;> exact .same ⟨refl, rfl, rfl, rfl, rfl⟩
  | asleep p w hat =>
    refine .same ⟨fun q => ?_, rfl, rfl, rfl, rfl⟩
    refine (Task.Alike.update ((Task.Alike.setChan _ _).trans (.setState ?_ (by decide))) q).toPeer
    show (s.task p).state ≠ unused ∧ (s.task p).state ≠ zombie
    rw [hsane.running hat.mode]
    decide
  | intrWake => exact .same ⟨fun q => (Task.Alike.update (.wakeup _ _) q).toPeer, rfl, rfl, rfl, rfl⟩
  | _ => exact .same ⟨refl, rfl, rfl, rfl, rfl⟩

end moves

end Xv6.Threads
