import Xv6.Lemmas.VirtioInv
import Xv6.Lib.Run

/-!
# The protocol of the disk driver

Every buffer goes the same way, over and over: it is given to the device, the device completes the request, the interrupt handler clears
`b->disk`, and the process returns from `virtio_disk_rw`. No step of the driver panics, and the device is never given anything but a
request.
-/

namespace Xv6.Virtio

open Lib Function List

namespace VirtioAux

variable {P B : Type} {s t : System P B} {A U U' : List Nat} {p q : P} {c c' : Call B} {idx : List Nat} {b : B} {ph : Phase P}

/-! ## Where a buffer is -/

/-- The state has the buffer where the phase says. -/
def Tracks (s : System P B) (U : List Nat) (b : B) : Phase P → Prop
  | .idle => ∀ p c idx, s.pc p = .wait c idx → c.b ≠ b
  | .submitted p => ∃ c h l, s.pc p = .wait c (h :: l) ∧ c.b = b ∧ s.bdisk b = true ∧ h ∉ U
  | .completed p => ∃ c h l, s.pc p = .wait c (h :: l) ∧ c.b = b ∧ s.bdisk b = true ∧ h ∈ U
  | .cleared p => ∃ c idx, s.pc p = .wait c idx ∧ c.b = b ∧ s.bdisk b = false

/-- What does not concern the buffer leaves it where it is. -/
theorem Tracks.frame (h : Tracks s U b ph) (hpc : ∀ p c idx, c.b = b → (t.pc p = .wait c idx ↔ s.pc p = .wait c idx))
    (hb : t.bdisk b = s.bdisk b) (hU : ∀ p c x l, s.pc p = .wait c (x :: l) → c.b = b → (x ∈ U' ↔ x ∈ U)) : Tracks t U' b ph := by
  cases ph with
  | idle => exact fun p c idx hp hcb => h p c idx ((hpc p c idx hcb).1 hp) hcb
  | submitted p =>
    obtain ⟨c, x, l, hp, hcb, hbusy, hx⟩ := h
    exact ⟨c, x, l, (hpc p c _ hcb).2 hp, hcb, hb.trans hbusy, fun hmem => hx ((hU p c x l hp hcb).1 hmem)⟩
  | completed p =>
    obtain ⟨c, x, l, hp, hcb, hbusy, hx⟩ := h
    exact ⟨c, x, l, (hpc p c _ hcb).2 hp, hcb, hb.trans hbusy, (hU p c x l hp hcb).2 hx⟩
  | cleared p =>
    obtain ⟨c, idx, hp, hcb, hbusy⟩ := h
    exact ⟨c, idx, (hpc p c _ hcb).2 hp, hcb, hb.trans hbusy⟩

/-- The phase of a buffer that nobody waits for. -/
theorem Tracks.eq_idle (h : Tracks s U b ph) (hnone : ∀ p c idx, s.pc p = .wait c idx → c.b ≠ b) : ph = .idle := by
  cases ph with
  | idle => rfl
  | submitted p | completed p =>
    obtain ⟨c, x, l, hp, hcb, -⟩ := h
    exact absurd hcb (hnone p c _ hp)
  | cleared p =>
    obtain ⟨c, idx, hp, hcb, -⟩ := h
    exact absurd hcb (hnone p c _ hp)

/-- The phase of a buffer that a process waits for. -/
theorem Tracks.of_wait {x : Nat} {l : List Nat} (h : Tracks s U c.b ph) (howned : Owned s) (hp : s.pc p = .wait c (x :: l)) :
    ph = .submitted p ∧ s.bdisk c.b = true ∧ x ∉ U ∨ ph = .completed p ∧ s.bdisk c.b = true ∧ x ∈ U ∨
      ph = .cleared p ∧ s.bdisk c.b = false := by
  cases ph with
  | idle => exact absurd rfl (h p c _ hp)
  | submitted | completed =>
    obtain ⟨c', y, l', hq, hcb, hbusy, hy⟩ := h
    obtain rfl := howned.unique hq hp hcb
    obtain ⟨-, hl⟩ := Pc.wait.inj (hq.symm.trans hp)
    rw [(cons.inj hl).1] at hy
    simp [hbusy, hy]
  | cleared =>
    obtain ⟨c', idx', hq, hcb, hbusy⟩ := h
    obtain rfl := howned.unique hq hp hcb
    exact .inr (.inr ⟨rfl, hbusy⟩)

/-- What `b->disk` says. -/
theorem Tracks.pending (h : Tracks s U b ph) (hinv : Inv s A U) : s.bdisk b = ph.pending := by
  cases ph with
  | idle =>
    cases hb : s.bdisk b with
    | false => rfl
    | true =>
      obtain ⟨p, c, idx, hp, hcb⟩ := hinv.pending b hb
      exact absurd hcb (h p c idx hp)
  | submitted | completed =>
    obtain ⟨c, x, l, -, -, hbusy, -⟩ := h
    exact hbusy
  | cleared =>
    obtain ⟨c, idx, -, -, hbusy⟩ := h
    exact hbusy

/-! ## One step -/

/-- Entries of the avail ring that the device has not taken are not written. -/
def Intact (s t : System P B) : Prop :=
  ∀ j : Uint16, (j - s.dev.next).toNat < (s.disk.avail.idx - s.dev.next).toNat →
    t.disk.avail.ring (j.toNat % NUM) = s.disk.avail.ring (j.toNat % NUM)

theorem Intact.of_eq (h : t.disk.avail = s.disk.avail) : Intact s t := fun j _ => by rw [h]

theorem inv_init (h : s.Init) : Inv s [] [] := by
  have hpc : ∀ p c idx, s.pc p ≠ .wait c idx := by
    intro p c idx heq
    rw [h.pc p] at heq
    cases heq
  refine ⟨⟨fun p c hc => ?_, fun p c idx hp => absurd hp (hpc p c idx), fun p q c c' idx idx' i hp => absurd hp (hpc p c idx),
    fun i hi hfree => ?_⟩, ⟨?_, fun x hx => ?_, fun p c x l hp => absurd hp (hpc p c _)⟩, ?_, ?_, fun b hb => ?_, fun x hx => ?_,
    fun x hx => absurd hx not_mem_nil⟩
  · rw [h.pc p] at hc
    cases hc
  · rw [h.free i hi] at hfree
    cases hfree
  · rw [h.taken]
    exact nodup_nil
  · rw [h.taken] at hx
    exact absurd hx not_mem_nil
  · rw [h.avail]
    exact .nil ..
  · rw [h.used]
    exact .nil ..
  · rw [h.bdisk b] at hb
    cases hb
  · rw [h.taken] at hx
    exact absurd hx not_mem_nil

section Steps

variable [DecidableEq B]

/-- What happens to a buffer in one step. -/
def actsIn (xs : List (B × Act P)) (b : B) : List (Act P) := xs.filterMap fun x => if x.1 = b then some x.2 else none

theorem actsIn_self (b : B) (a : Act P) : actsIn [(b, a)] b = [a] := by
  unfold actsIn
  simp

theorem actsIn_other {b b' : B} (a : Act P) (hne : b' ≠ b) : actsIn [(b', a)] b = [] := by
  unfold actsIn
  simp [hne]

theorem acts_concat (ls : List (Event P B × List (B × Act P))) (l : Event P B × List (B × Act P)) (b : B) :
    acts (ls ++ [l]) b = acts ls b ++ actsIn l.2 b := by
  unfold acts actsIn
  rw [flatMap_append, filterMap_append, flatMap_singleton]

variable [DecidableEq P]

/-- Every buffer goes on as it is to. -/
def Follows (s t : System P B) (U U' : List Nat) (xs : List (B × Act P)) : Prop :=
  ∀ b ph, Tracks s U b ph → ∃ ph', (actsIn xs b).foldlM Phase.next ph = some ph' ∧ Tracks t U' b ph'

/-- The step is taken without a fault, the invariant is kept, and so are the other two. -/
def Good (s : System P B) (U : List Nat) (r : Except Fault (List (B × Act P) × System P B)) : Prop :=
  ∃ xs t A' U', r = .ok (xs, t) ∧ Inv t A' U' ∧ Follows s t U U' xs ∧ Intact s t

/-- Nothing happens to a buffer. -/
theorem Follows.nil (hpc : ∀ p c idx, t.pc p = .wait c idx ↔ s.pc p = .wait c idx) (hb : t.bdisk = s.bdisk) : Follows s t U U [] :=
  fun b ph h => ⟨ph, rfl, h.frame (fun p c idx _ => hpc p c idx) (congrFun hb b) fun _ _ _ _ _ _ => Iff.rfl⟩

/-- Something happens to one buffer, and the others are where they were. -/
theorem Follows.single {a : Act P} (hself : ∀ ph, Tracks s U b ph → ∃ ph', ph.next a = some ph' ∧ Tracks t U' b ph')
    (hother : ∀ b' ph, b' ≠ b → Tracks s U b' ph → Tracks t U' b' ph) : Follows s t U U' [(b, a)] := by
  intro b' ph h
  by_cases heq : b' = b
  · subst heq
    obtain ⟨ph', hnext, htracks⟩ := hself ph h
    refine ⟨ph', ?_, htracks⟩
    rw [actsIn_self, foldlM_cons, hnext]
    rfl
  · refine ⟨ph, ?_, hother b' ph heq h⟩
    rw [actsIn_other a (Ne.symm heq)]
    rfl

section

variable (h : Inv s A U)

include h

theorem good_agrees (hagrees : Agrees s t) : Good s U (.ok ([], t)) :=
  ⟨[], t, A, U, rfl, hagrees.inv h, .nil (fun p c idx => by rw [hagrees.pc]) hagrees.bdisk, .of_eq hagrees.avail⟩

/-- A process in the first loop gets its descriptors and submits the request, or sleeps. -/
theorem good_allocate (hp : ∀ c idx, s.pc p ≠ .wait c idx) (hlock : s.lock c.b = some p) : Good s U (s.allocate p c) := by
  rcases alloc3Desc_eq s with ⟨t, halloc, hagrees⟩ | ⟨i, j, k, halloc, hnodup, hidx⟩
  · have hpc : ∀ c idx, t.pc p ≠ .wait c idx := by
      rw [hagrees.pc]
      exact hp
    have hinv : Inv (t.withPc p (.alloc c)) A U := by
      refine (hagrees.inv h).withPc hpc (fun _ _ heq => by cases heq) fun c' hc => ?_
      obtain rfl : c = c' := Option.some.inj hc
      rw [hagrees.lock]
      exact hlock
    have hagrees' : Agrees (t.withPc p (.alloc c)) ((t.withPc p (.alloc c)).withAsleep p true) :=
      ⟨⟨rfl, rfl, rfl, rfl, rfl, rfl, rfl, rfl, rfl⟩, fun _ => rfl, fun _ _ => rfl⟩
    refine ⟨[], _, A, U, ?_, hagrees'.inv hinv, .nil (fun q c' idx => ?_) hagrees.bdisk, .of_eq hagrees.avail⟩
    · unfold System.allocate
      rw [halloc]
      rfl
    · show update t.pc p (.alloc c) q = .wait c' idx ↔ _
      rw [← hagrees.pc]
      rw [update_apply]
      split_ifs with hq
      · subst hq
        exact ⟨fun heq => (by cases heq), fun heq => absurd heq (hpc c' idx)⟩
      · rfl
  · obtain ⟨hroom, hnot, hinv⟩ := h.submitted (c := c) hp hlock hnodup hidx
    have hnone : ∀ q c' idx, s.pc q = .wait c' idx → c'.b ≠ c.b := by
      intro q c' idx hq heq
      have hlock' := h.lock q c' (by rw [hq]; rfl)
      rw [heq, hlock] at hlock'
      cases hlock'
      exact hp c' idx hq
    refine ⟨[(c.b, .submit p)], s.submitted p c i j k, A ++ [i], U, ?_, hinv, .single (fun ph hph => ?_) fun b' ph hne hph => ?_, fun l hl => ?_⟩
    · unfold System.allocate
      rw [halloc]
      rfl
    · obtain rfl := hph.eq_idle hnone
      refine ⟨.submitted p, rfl, c, i, [j, k], submitted_self s p c i j k, rfl, update_self .., fun hmem => hnot ?_⟩
      exact mem_append_right A (mem_append_right _ hmem)
    · refine hph.frame (fun q c' idx hcb => ⟨fun hq => ?_, fun hq => (submitted_other hp hq).2⟩) (update_of_ne hne ..)
        fun _ _ _ _ _ _ => Iff.rfl
      rcases submitted_wait hq with ⟨-, rfl, -⟩ | ⟨-, hold⟩
      · exact absurd hcb.symm hne
      · exact hold
    · have hlen : (s.disk.avail.idx - s.dev.next).toNat < NUM := by
        rw [h.avail.sub num_lt, length_map]
        exact hroom
      exact update_of_ne (mod_ne_of_sub_lt num_dvd hl hlen) ..

/-- A process in the second loop sleeps again, or frees its chain and returns. -/
theorem good_finish (hp : s.pc p = .wait c idx) : Good s U (s.finish p c idx) := by
  cases hb : s.bdisk c.b with
  | true =>
    have hagrees : Agrees s (s.withAsleep p true) := ⟨⟨rfl, rfl, rfl, rfl, rfl, rfl, rfl, rfl, rfl⟩, fun _ => rfl, fun _ _ => rfl⟩
    have hsleep : s.finish p c idx = .ok ([], s.withAsleep p true) := if_pos hb
    rw [hsleep]
    exact good_agrees h hagrees
  | false =>
    obtain ⟨t, hrun, hrest, hinv⟩ := h.finish hp hb
    obtain ⟨x, l, rfl⟩ := (h.request p c idx hp).cons
    have hpc : (t.withPc p .idle).pc = update s.pc p .idle := by
      show update t.pc p .idle = _
      rw [hrest.pc]
      rfl
    refine ⟨_, _, A, U, hrun, hinv, .single (fun ph hph => ?_) fun b' ph hne hph => ?_, .of_eq hrest.avail⟩
    · rcases hph.of_wait h.toOwned hp with ⟨-, hbusy, -⟩ | ⟨-, hbusy, -⟩ | ⟨rfl, -⟩
      · cases hb.symm.trans hbusy
      · cases hb.symm.trans hbusy
      · refine ⟨.idle, if_pos rfl, fun q c' idx hq hcb => ?_⟩
        rw [hpc] at hq
        obtain ⟨hne, hq⟩ := wait_of_idle hq
        exact hne (h.unique hq hp hcb)
    · refine hph.frame (fun q c' idx hcb => ?_) (congrFun hrest.bdisk b') fun _ _ _ _ _ _ => Iff.rfl
      rw [hpc]
      rw [update_apply]
      split_ifs with hq
      · subst hq
        refine ⟨fun heq => (by cases heq), fun heq => absurd hcb ?_⟩
        rw [← (Pc.wait.inj (hp.symm.trans heq)).1]
        exact Ne.symm hne
      · rfl

/-- A turn of the interrupt handler clears `b->disk` of a request that has been completed, or is the last one. -/
theorem good_handle : Good s U s.handle := by
  by_cases hne : s.disk.usedIdx ≠ s.disk.used.idx
  · obtain ⟨x, U', p, c, l, rfl, hp, hb, hrun, hinv⟩ := h.handle hne
    refine ⟨_, _, A, U', hrun, hinv, .single (fun ph hph => ?_) fun b' ph hne' hph => ?_, .of_eq rfl⟩
    · rcases hph.of_wait h.toOwned hp with ⟨-, -, hx⟩ | ⟨rfl, -, -⟩ | ⟨-, hclear⟩
      · exact absurd (mem_cons_self ..) hx
      · exact ⟨.cleared p, rfl, c, x :: l, hp, rfl, update_self ..⟩
      · cases hb.symm.trans hclear
    · refine hph.frame (fun _ _ _ _ => Iff.rfl) (update_of_ne hne' ..) fun q c' y l' hq hcb => ?_
      have hyx : y ≠ x := fun heq => hne' (hcb.symm.trans (congrArg Call.b (h.same (heq ▸ hq) hp).2))
      rw [mem_cons, or_iff_right hyx]
  · have hend : s.handle = .ok (([], s.withIntr false) : List (B × Act P) × System P B) := if_neg hne
    rw [hend]
    exact good_agrees h ⟨⟨rfl, rfl, rfl, rfl, rfl, rfl, rfl, rfl, rfl⟩, fun _ => rfl, fun _ _ => rfl⟩

theorem good_take (hne : s.dev.next ≠ s.disk.avail.idx) : Good s U s.take := by
  obtain ⟨x, A', p, c, l, rfl, hp, hrun, hinv⟩ := h.take hne
  exact ⟨_, _, A', U, hrun, hinv, .nil (fun _ _ _ => Iff.rfl) rfl, .of_eq rfl⟩

/-- The device completes a request that has been submitted. -/
theorem good_complete {k x : Nat} {op : Op B} (hk : s.dev.taken[k]? = some (x, op)) :
    Good s U (.ok ([(op.b, .complete)], (s.withDisk (s.disk.complete x op.status)).withDev ⟨s.dev.next, s.dev.taken.eraseIdx k⟩)) := by
  obtain ⟨p, c, l, hp, rfl, hnot, hinv⟩ := h.complete hk
  have hb : s.bdisk c.b = true := by
    have hx : x ∈ s.dev.taken.map Prod.fst := mem_map_of_mem (f := Prod.fst) (mem_of_getElem? hk)
    obtain ⟨q, c', l', hq, hb⟩ := h.live x (mem_append_right A (mem_append_left U hx))
    rwa [(h.same hq hp).2] at hb
  refine ⟨_, _, A, U ++ [x], rfl, hinv, .single (fun ph hph => ?_) fun b' ph hne hph => ?_, .of_eq rfl⟩
  · rcases Tracks.of_wait hph h.toOwned hp with ⟨rfl, -, -⟩ | ⟨-, -, hx⟩ | ⟨-, hclear⟩
    · exact ⟨.completed p, rfl, c, x, l, hp, rfl, hb, mem_append_right U (mem_singleton_self x)⟩
    · exact absurd hx hnot
    · cases hb.symm.trans hclear
  · refine hph.frame (fun _ _ _ _ => Iff.rfl) rfl fun q c' y l' hq hcb => ?_
    have hyx : y ≠ x := fun heq => hne (hcb.symm.trans (congrArg Call.b (h.same (heq ▸ hq) hp).2))
    rw [mem_append, mem_singleton, or_iff_left hyx]

/-- Every step that can be taken is taken without a fault. -/
theorem good_step {event : Event P B} {r : Except Fault (List (B × Act P) × System P B)} (hstep : s.step event = some r) :
    Good s U r := by
  unfold System.step at hstep
  cases event with
  | acquiresleep =>
    dsimp only at hstep
    split at hstep
    · next hlock =>
      cases hstep
      refine ⟨[], _, A, U, rfl, h.withLock fun q c hq heq => ?_, .nil (fun _ _ _ => Iff.rfl) rfl, .of_eq rfl⟩
      have hq := h.lock q c hq
      rw [heq, hlock] at hq
      cases hq
    · cases hstep
  | releasesleep =>
    dsimp only at hstep
    split at hstep
    · next hp =>
      obtain ⟨hlock, hstep⟩ := Option.ite_none_right_eq_some.1 hstep
      cases hstep
      refine ⟨[], _, A, U, rfl, h.withLock fun q c hq heq => ?_, .nil (fun _ _ _ => Iff.rfl) rfl, .of_eq rfl⟩
      have hq' := h.lock q c hq
      rw [heq, hlock] at hq'
      cases hq'
      rw [hp] at hq
      cases hq
    · cases hstep
  | call =>
    dsimp only at hstep
    split at hstep
    · next hp =>
      obtain ⟨hlock, hstep⟩ := Option.ite_none_right_eq_some.1 hstep
      cases hstep
      exact good_allocate h (fun c idx heq => by rw [hp] at heq; cases heq) hlock.2
    · cases hstep
  | resume p =>
    obtain ⟨-, hstep⟩ := Option.ite_none_right_eq_some.1 hstep
    split at hstep
    · cases hstep
    · next c hp =>
      cases hstep
      exact good_allocate h (fun c idx heq => by rw [hp] at heq; cases heq) (h.lock p c (by rw [hp]; rfl))
    · next c idx hp =>
      cases hstep
      exact good_finish h hp
  | kill =>
    cases hstep
    exact good_agrees h ⟨⟨rfl, rfl, rfl, rfl, rfl, rfl, rfl, rfl, rfl⟩, fun _ => rfl, fun _ _ => rfl⟩
  | interrupt =>
    obtain ⟨-, hstep⟩ := Option.ite_none_left_eq_some.1 hstep
    cases hstep
    exact good_agrees h ⟨⟨rfl, rfl, rfl, rfl, rfl, rfl, rfl, rfl, rfl⟩, fun _ => rfl, fun _ _ => rfl⟩
  | handle =>
    obtain ⟨-, hstep⟩ := Option.ite_none_right_eq_some.1 hstep
    cases hstep
    exact good_handle h
  | take =>
    obtain ⟨hne, hstep⟩ := Option.ite_none_right_eq_some.1 hstep
    cases hstep
    exact good_take h hne
  | complete =>
    dsimp only at hstep
    split at hstep
    · cases hstep
    · next hk =>
      cases hstep
      exact good_complete h hk

end

/-! ## Runs -/

/-- After every run the invariant holds, and every buffer has gone its way. -/
theorem inv_run {ls : List (Event P B × List (B × Act P))} (hinit : s.Init) (hrun : Run System.Steps s ls t) :
    ∃ A U, Inv t A U ∧ ∀ b, ∃ ph, (acts ls b).foldlM Phase.next .idle = some ph ∧ Tracks t U b ph := by
  induction hrun with
  | nil =>
    refine ⟨[], [], inv_init hinit, fun b => ⟨.idle, rfl, fun p c idx heq => ?_⟩⟩
    rw [hinit.pc p] at heq
    cases heq
  | @snoc t u ls l _ hstep ih =>
    obtain ⟨A, U, hinv, hacts⟩ := ih
    obtain ⟨xs, u', A', U', hok, hinv', hfollows, -⟩ := good_step hinv hstep
    cases hok
    refine ⟨A', U', hinv', fun b => ?_⟩
    obtain ⟨ph, hph, htracks⟩ := hacts b
    obtain ⟨ph', hph', htracks'⟩ := hfollows b ph htracks
    refine ⟨ph', ?_, htracks'⟩
    rw [acts_concat, foldlM_append, hph]
    exact hph'

end Steps

end VirtioAux

open VirtioAux

/-- The protocol of the disk driver. After every run, of any number of processes with the interrupt handler and the device:
* requests that are outstanding own chains of three descriptors, disjoint from each other, and the other descriptors are those marked free;
* the device has read from the chains it has taken what their callers asked for;
* no step can be taken that panics, finds no buffer in `info`, or gives the device something that is not a request;
* no step writes an entry of the avail ring that the device has not taken;
* each buffer has gone through submission, completion by the device, clearing of `b->disk` and return, each once and in this order, over
  and over; and `b->disk` is set from the submission to the clearing. -/
theorem virtio_protocol {P B : Type} [DecidableEq P] [DecidableEq B] {s t : System P B} {ls : List (Event P B × List (B × Act P))}
    (hinit : s.Init) (hrun : Run System.Steps s ls t) :
    ((∀ p c idx, t.pc p = .wait c idx → idx.length = 3 ∧ idx.Nodup ∧ (∀ i ∈ idx, i < NUM) ∧ Chained t.disk idx) ∧
        (∀ p q c c' idx idx', t.pc p = .wait c idx → t.pc q = .wait c' idx' → p ≠ q → idx.Disjoint idx') ∧
        ∀ i < NUM, t.disk.free i = true ↔ ∀ p c idx, t.pc p = .wait c idx → i ∉ idx) ∧
      (∀ x ∈ t.dev.taken, ∃ p c l, t.pc p = .wait c (x.1 :: l) ∧ x.2 = c.op x.1) ∧
      (∀ event fault, t.step event ≠ some (.error fault)) ∧
      (∀ l u, System.Steps t l u → ∀ j : Uint16, (j - t.dev.next).toNat < (t.disk.avail.idx - t.dev.next).toNat →
        u.disk.avail.ring (j.toNat % NUM) = t.disk.avail.ring (j.toNat % NUM)) ∧
      ∀ b, ∃ ph, (acts ls b).foldlM Phase.next .idle = some ph ∧ t.bdisk b = ph.pending := by
  obtain ⟨A, U, hinv, hacts⟩ := inv_run hinit hrun
  refine ⟨⟨fun p c idx hp => ?_, fun p q c c' idx idx' hp hq hne i hi hi' => ?_, fun i hi => ⟨fun hfree p c idx hp hmem => ?_, fun hnone => ?_⟩⟩,
    fun x hx => ?_, fun event fault hstep => ?_, fun l u hstep => ?_, fun b => ?_⟩
  · have hreq := hinv.request p c idx hp
    obtain ⟨i, j, k, rfl, -⟩ := hreq.shape
    exact ⟨rfl, hreq.nodup, fun x hx => (hreq.busy x hx).1, hreq.chained⟩
  · exact hne (hinv.apart p q c c' idx idx' i hp hq hi hi')
  · rw [((hinv.request p c idx hp).busy i hmem).2] at hfree
    cases hfree
  · cases hfree : t.disk.free i with
    | true => rfl
    | false =>
      obtain ⟨p, c, idx, hp, hmem⟩ := hinv.owner i hi hfree
      exact absurd hmem (hnone p c idx hp)
  · have hmem : x.1 ∈ t.dev.taken.map Prod.fst := List.mem_map_of_mem hx
    obtain ⟨p, c, l, hp, -⟩ := hinv.live x.1 (List.mem_append_right A (List.mem_append_left U hmem))
    exact ⟨p, c, l, hp, hinv.taken x hx p c l hp⟩
  · obtain ⟨xs, u, A', U', hok, -⟩ := good_step hinv hstep
    cases hok
  · obtain ⟨xs, u', A', U', hok, -, -, hintact⟩ := good_step hinv hstep
    cases hok
    exact hintact
  · obtain ⟨ph, hph, htracks⟩ := hacts b
    exact ⟨ph, hph, htracks.pending hinv⟩

/-- The driver after `virtio_disk_init`, with counters that are about to wrap. -/
def aboutToWrap : System Nat Nat :=
  ⟨⟨fun _ => ⟨.null, 0, 0, 0⟩, ⟨65535, fun _ => 0⟩, ⟨65535, fun _ => 0⟩, fun _ => true, 65535, fun _ => ⟨none, 0⟩, fun _ => ⟨0, 0, 0⟩⟩,
    fun _ => false, fun _ => none, fun _ => .idle, fun _ => false, false, ⟨65535, []⟩⟩

/-- Two requests are submitted, a third process gets only two descriptors and gives them back; the device completes the second request
first, and its process returns. -/
def outOfOrder : List (Event Nat Nat × List (Nat × Act Nat)) :=
  [(.acquiresleep 0 10, []), (.acquiresleep 1 11, []), (.acquiresleep 2 12, []), (.call 0 10 5 false, [(10, .submit 0)]),
    (.call 1 11 6 true, [(11, .submit 1)]), (.call 2 12 7 false, []), (.take, []), (.take, []), (.complete 1, [(11, .complete)]),
    (.interrupt, []), (.handle, [(11, .clear)]), (.handle, []), (.resume 1, [(11, .ret 1)]), (.resume 2, [(12, .submit 2)])]

theorem virtio_protocol_outOfOrder :
    aboutToWrap.Init ∧ ∃ t, Run System.Steps aboutToWrap outOfOrder t ∧ t.disk.usedIdx = 0 ∧
      ∃ ph, (acts outOfOrder 10).foldlM Phase.next .idle = some ph ∧ t.bdisk 10 = ph.pending := by
  have hinit : aboutToWrap.Init := ⟨fun _ _ => rfl, rfl, rfl, rfl, fun _ => rfl, fun _ => rfl⟩
  refine ⟨hinit, ?_⟩
  have hrun : ∃ t, Run System.Steps aboutToWrap outOfOrder t ∧ t.disk.usedIdx = 0 :=
    ⟨_, .cons rfl (.cons rfl (.cons rfl (.cons rfl (.cons rfl (.cons rfl (.cons rfl (.cons rfl (.cons rfl (.cons rfl (.cons rfl
      (.cons rfl (.cons rfl (.cons rfl (.nil _)))))))))))))), rfl⟩
  obtain ⟨t, hrun, hidx⟩ := hrun
  exact ⟨t, hrun, hidx, (virtio_protocol hinit hrun).2.2.2.2 10⟩

end Xv6.Virtio
