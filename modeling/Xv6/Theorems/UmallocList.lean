import Xv6.Lemmas.UmallocUnits
import Xv6.Theorems.Umalloc

/-!
# The free list stays in order

A program calls `malloc` and `free`, and extends its memory. As long as no `free` joins blocks of `2 ^ 32` units or more, whose number
the header has no room for, the list is a cycle through `base` in the order of addresses, no two of its blocks adjoin, and no unit is
lost.
-/

namespace Xv6.Umalloc

open Lib List

open Vm (TRAPFRAME)

namespace UmallocAux

variable {s t : Heap} {lo bp n : Nat} {l l' : List Nat} {w : World} {a : Arena} {nbytes : Uint} {ap : Nat} {c : Call}

/-- The units of the blocks that are live. -/
def liveUnits (s : Heap) (live : List (Nat × Nat)) : Nat := (live.map fun r => s.units (r.1 - HEADER)).sum

theorem liveUnits_congr {live : List (Nat × Nat)} (h : ∀ r ∈ live, bytes t r = bytes s r) : liveUnits t live = liveUnits s live := by
  have hunits : ∀ r ∈ live, t.units (r.1 - HEADER) = s.units (r.1 - HEADER) := fun r hr => Nat.eq_of_mul_eq_mul_right (by decide) (h r hr)
  unfold liveUnits
  rw [map_congr_left hunits]

/-- The blocks of the program: the list, what is live, and that they are all there is. -/
structure Kept (lo : Nat) (a : Arena) (l : List Nat) : Prop where
  inv : Inv lo a.world l
  tight : Tight a.world.heap l
  sum : total a.world.heap l + liveUnits a.world.heap a.world.live = a.obtained

/-- A program that has not called `malloc` yet, or whose blocks are in order. -/
def Whole (a : Arena) : Prop := a.Start ∨ ∃ lo l, Kept lo a l

/-! ## The list -/

/-- A block ends before the next one on the list. -/
theorem coalesced (h : Free lo s l) (htight : Tight s l) {x : Nat} (hx : x ∈ l) : x + s.units x * HEADER ≠ next s x := by
  obtain ⟨u, v, rfl⟩ := append_of_mem hx
  have hlinks : Linked (next s) x v s.base := by
    have htail : Linked (next s) s.base ((u ++ [x]) ++ v) s.base := by
      rw [append_assoc]
      exact h.links
    have := htail.tail
    rwa [getLastD_concat] at this
  have hgap := (pairwise_cons.1 (pairwise_append.1 htight.gaps).2.1).1
  cases v with
  | nil =>
    have hnext : next s x = s.base := hlinks
    have := h.base_lt (h.bound hx).1
    omega
  | cons y v =>
    have hnext : next s x = y := hlinks.1
    have := hgap y mem_cons_self
    omega

theorem Kept.freeList (h : Kept lo a l) : a.FreeList l := by
  have hfree := h.inv.free
  have hlen : ∀ x ∈ l, len a.world.heap x = a.world.heap.units x * HEADER := fun x hx => len_eq (h.tight.pos x hx)
  refine ⟨hfree.links, hfree.freep, fun x => hfree.onList_iff, hfree.sorted, ?_, fun r hr x hx => ?_, fun x hx => coalesced hfree h.tight hx, h.sum⟩
  · exact h.tight.gaps.imp fun hxy => .inl hxy.le
  · have := (h.inv.held r hr).clear x hx
    rwa [hlen x hx] at this

theorem Whole.orderly (h : Whole a) : a.Orderly := by
  rcases h with ⟨hstart, hobtained⟩ | ⟨lo, l, h⟩
  · exact .inl ⟨hstart.freep, hstart.live, hobtained⟩
  · exact .inr ⟨l, h.freeList⟩

/-! ## Steps -/

theorem room_of_joinFits (h : Free lo s l) (hfits : s.JoinFits bp) : Room s l bp := by
  refine ⟨fun m n hm hn => hfits m n (hm.imp_right ?_) (hn.imp_right ?_)⟩
  · rintro ⟨x, hx, hm⟩
    exact ⟨x, h.onList_iff.2 (mem_cons_of_mem _ hx), hm⟩
  · rintro ⟨y, hy, hn⟩
    exact ⟨y, h.onList_iff.2 (mem_cons_of_mem _ hy), hn⟩

/-- The units of the blocks that stay live, and those of the one that is freed. -/
theorem liveUnits_filter (h : Inv lo w l) (hap : (ap, n) ∈ w.live) :
    liveUnits w.heap w.live = w.heap.units (ap - HEADER) + liveUnits w.heap (w.live.filter fun r => r.1 ≠ ap) := by
  -- two pointers to one block would be one
  have hne : ∀ r ∈ w.live, r ≠ (ap, n) → r.1 ≠ ap := by
    intro r hr hne heq
    have := h.apart_of_ne hr hap hne
    have := (h.held r hr).pos
    have := (h.held _ hap).pos
    subst heq
    unfold Apart at *
    dsimp only at *
    omega
  have hnodup : w.live.Nodup := by
    refine h.apart.imp_of_mem fun {r r'} hr _ hap heq => ?_
    have := (h.held r hr).pos
    subst heq
    unfold Apart at hap
    omega
  obtain ⟨u, v, huv⟩ := append_of_mem hap
  rw [huv] at hnodup hne ⊢
  obtain ⟨-, hapv, hdisj⟩ := nodup_append.1 hnodup
  have hu : u.filter (fun r => r.1 ≠ ap) = u := filter_eq_self.2 fun r hr =>
    decide_eq_true (hne r (mem_append_left _ hr) (hdisj r hr _ mem_cons_self))
  have hv : v.filter (fun r => r.1 ≠ ap) = v := filter_eq_self.2 fun r hr =>
    decide_eq_true (hne r (mem_append_right u (mem_cons_of_mem _ hr)) fun heq => (nodup_cons.1 hapv).1 (heq ▸ hr))
  rw [filter_append, filter_cons_of_neg (by simp), hu, hv]
  unfold liveUnits
  simp only [map_append, map_cons, sum_append, sum_cons]
  omega

theorem Kept.free_step (h : Kept lo a l) (hap : (ap, n) ∈ a.world.live) (hfits : a.world.heap.JoinFits (ap - HEADER)) :
    ∃ b l', a.step (.event (.free ap)) = some b ∧ Kept lo b l' := by
  have hge := (h.inv.held _ hap).ge
  obtain ⟨hloose, -⟩ := h.inv.loose hap
  have hwp := free_joins_wp h.inv.free hloose
  rw [Nat.sub_add_cancel ((Nat.le_add_left ..).trans hge)] at hwp
  cases hcase : free ap a.world.heap with
  | error e => exact (hwp.error hcase).elim
  | ok p =>
    obtain ⟨_, t⟩ := p
    obtain ⟨l', hfreed, hjoined⟩ := hwp.ok hcase
    obtain ⟨hinv, hbytes⟩ := h.inv.freed hap hfreed
    obtain ⟨htight, htotal⟩ := hjoined.tight h.inv.free h.tight hloose (room_of_joinFits h.inv.free hfits)
    have hbrk : t.brk = a.world.heap.brk := hfreed.brk
    refine ⟨⟨⟨t, a.world.live.filter fun r => r.1 ≠ ap⟩, a.obtained⟩, l', ?_, hinv, htight, ?_⟩
    · unfold Arena.step World.step
      dsimp only
      rw [hcase]
      simp only [Option.map_some, hbrk, Nat.sub_self, Nat.zero_div, Nat.add_zero]
    · have hlive : liveUnits t (a.world.live.filter fun r => r.1 ≠ ap) = liveUnits a.world.heap (a.world.live.filter fun r => r.1 ≠ ap) :=
        liveUnits_congr fun r hr => hbytes r (mem_filter.1 hr).1 (of_decide_eq_true (mem_filter.1 hr).2)
      have hsum := h.sum
      rw [liveUnits_filter h.inv hap] at hsum
      show total t l' + liveUnits t _ = a.obtained
      rw [htotal, hlive]
      dsimp only
      omega

/-- What a call of `malloc` does when there is a list. -/
theorem Kept.malloc_wp (h : Kept lo a l) (grant : Nat → Bool) (hsmall : (units nbytes).toNat < 2 ^ 27) :
    Wp (fun _ => False) (malloc grant nbytes) a.world.heap fun ap t => ∃ l',
      Kept lo ⟨⟨t, if ap = 0 then a.world.live else (ap, nbytes.toNat) :: a.world.live⟩, a.obtained + (t.brk - a.world.heap.brk) / HEADER⟩ l' := by
  refine (malloc_steps_wp h.inv.free (.inl hsmall)).mono ?_
  rintro ap t ⟨l', hsteps⟩
  obtain ⟨hsafe, hap⟩ := hsteps.safe h.inv.free
  obtain ⟨hinv, hbytes⟩ := h.inv.took hsafe hap
  obtain ⟨htight, k, hbrk, htotal⟩ := hsteps.tight hsmall h.inv.free h.tight
  refine ⟨l', hinv, htight, ?_⟩
  have hk : (t.brk - a.world.heap.brk) / HEADER = k := by
    rw [hbrk, Nat.add_sub_cancel_left]
    exact Nat.mul_div_cancel k (by decide)
  have hlive : liveUnits t (if ap = 0 then a.world.live else (ap, nbytes.toNat) :: a.world.live) =
      liveUnits a.world.heap a.world.live + if ap = 0 then 0 else (units nbytes).toNat := by
    have hold := liveUnits_congr hbytes
    rcases hap with rfl | ⟨b, rfl, htaken⟩
    · rw [if_pos rfl, if_pos rfl]
      exact hold
    · have hne : b + HEADER ≠ 0 := by
        unfold HEADER
        omega
      have hnew : t.units (b + HEADER - HEADER) = (units nbytes).toNat := by
        rw [Nat.add_sub_cancel]
        exact congrArg BitVec.toNat htaken.size
      rw [if_neg hne, if_neg hne, ← hold]
      unfold liveUnits
      rw [map_cons, sum_cons, hnew, Nat.add_comm]
  have hsum := h.sum
  show total t l' + liveUnits t _ = a.obtained + _
  rw [hlive, hk]
  omega

theorem Kept.malloc_step (h : Kept lo a l) (grant : Nat → Bool) (hsmall : (units nbytes).toNat < 2 ^ 27) :
    ∃ b l', a.step (.event (.malloc nbytes grant)) = some b ∧ Kept lo b l' := by
  have hwp := h.malloc_wp grant hsmall
  cases hcase : malloc grant nbytes a.world.heap with
  | error e => exact (hwp.error hcase).elim
  | ok p =>
    obtain ⟨ap, t⟩ := p
    obtain ⟨l', hkept⟩ := hwp.ok hcase
    refine ⟨_, l', ?_, hkept⟩
    unfold Arena.step World.step
    dsimp only
    rw [hcase]
    cases ap with
    | zero | succ ap => rfl

/-- The first call of `malloc` is one with a list of `base` only. -/
theorem malloc_first (hstart : a.Start) : ∃ t, Kept a.world.heap.brk ⟨⟨t, a.world.live⟩, a.obtained⟩ [] ∧
    ∀ nbytes grant, a.step (.event (.malloc nbytes grant)) = Arena.step ⟨⟨t, a.world.live⟩, a.obtained⟩ (.event (.malloc nbytes grant)) := by
  obtain ⟨hstart, hobtained⟩ := hstart
  obtain ⟨t, hinit, hinit', hfree, hbrk⟩ := initList_eq hstart.freep hstart.base.1 hstart.base.2 hstart.brk
  have hnone : ∀ r ∈ a.world.live, False := fun r hr => by
    rw [hstart.live] at hr
    exact not_mem_nil hr
  refine ⟨t, ⟨⟨hfree, fun r hr => (hnone r hr).elim, by dsimp only; rw [hstart.live]; exact .nil⟩,
    ⟨fun x hx => absurd hx not_mem_nil, .nil⟩, ?_⟩, fun nbytes grant => ?_⟩
  · dsimp only
    rw [hstart.live, hobtained]
    rfl
  · have hsame : malloc grant nbytes a.world.heap = malloc grant nbytes t := by
      unfold malloc
      rw [run_bind hinit, run_bind hinit']
    unfold Arena.step World.step
    dsimp only
    rw [hsame, hbrk]

theorem Kept.store_step {mem : Nat → Header} (h : Kept lo a l) (hfair : a.world.Fair (.store mem)) :
    ∃ b, a.step (.event (.store mem)) = some b ∧ Kept lo b l := by
  obtain ⟨hnode, hheader⟩ := h.inv.headers hfair
  refine ⟨⟨⟨{ a.world.heap with mem := mem }, a.world.live⟩, a.obtained⟩, ?_, store_good h.inv hfair, ?_, ?_⟩
  · show some (Arena.mk _ (a.obtained + (a.world.heap.brk - a.world.heap.brk) / HEADER)) = _
    rw [Nat.sub_self, Nat.zero_div, Nat.add_zero]
  · exact h.tight.congr fun x hx => units_of_size (congrArg Header.size (hnode x (mem_cons_of_mem _ hx)))
  · have hsum := h.sum
    show total { a.world.heap with mem := mem } l + liveUnits { a.world.heap with mem := mem } a.world.live = a.obtained
    rw [total_congr (s := a.world.heap) fun x hx => units_of_size (congrArg Header.size (hnode x (mem_cons_of_mem _ hx))),
      liveUnits_congr (s := a.world.heap) fun r hr => bytes_congr (hheader r hr)]
    exact hsum

/-- More memory at the top leaves everything as it is. -/
theorem Inv.raise (h : Inv lo w l) (hle : w.heap.brk ≤ n) (htop : n ≤ TRAPFRAME) : Inv lo ⟨w.heap.withBrk n, w.live⟩ l := by
  have hfree := h.free
  refine ⟨⟨hfree.pos, hfree.below, hfree.start.trans hle, htop, hfree.links, hfree.empty, hfree.spaced.mono hle, hfree.freep⟩, fun r hr => ?_, h.apart⟩
  have hheld := h.held r hr
  exact ⟨hheld.ge, hheld.fits, hheld.le.trans hle, hheld.clear⟩

theorem Whole.sbrk_step (h : Whole a) (n : Nat) : ∃ b, a.step (.sbrk n) = some b ∧ Whole b := by
  unfold Arena.step
  dsimp only
  by_cases hroom : a.world.heap.brk + n ≤ TRAPFRAME
  · rw [if_pos hroom]
    refine ⟨_, rfl, ?_⟩
    rcases h with ⟨hstart, hobtained⟩ | ⟨lo, l, h⟩
    · have hlive := hstart.live
      have hfreep := hstart.freep
      obtain ⟨hpos, hbase⟩ := hstart.base
      exact .inl ⟨⟨hfreep, hlive, ⟨hpos, hbase.trans (Nat.le_add_right ..)⟩, hroom⟩, hobtained⟩
    · exact .inr ⟨lo, l, h.inv.raise (Nat.le_add_right ..) hroom, ⟨h.tight.pos, h.tight.gaps⟩, h.sum⟩
  · rw [if_neg hroom]
    exact ⟨a, rfl, h⟩

theorem lt_of_meets (h : (units nbytes).toNat * HEADER < 2 ^ 31) : (units nbytes).toNat < 2 ^ 27 := by
  unfold HEADER at h
  omega

/-- Every call returns. -/
theorem Whole.returns (h : Whole a) (hmeets : a.Meets c) : ∃ b, a.step c = some b := by
  cases c with
  | sbrk n =>
    obtain ⟨b, hstep, -⟩ := h.sbrk_step n
    exact ⟨b, hstep⟩
  | event e =>
    have hgood : ∃ lo, Good lo a.world := by
      rcases h with ⟨hstart, -⟩ | ⟨lo, l, h⟩
      · exact ⟨_, .inl ⟨hstart, rfl⟩⟩
      · exact ⟨lo, .inr ⟨l, h.inv⟩⟩
    obtain ⟨lo, hgood⟩ := hgood
    obtain ⟨v, hstep, -, -⟩ := step_good hgood
      ⟨hmeets.1, fun nbytes grant heq hover => absurd hover.1 (not_le.2 (lt_of_meets (hmeets.2 nbytes grant heq)))⟩
    unfold Arena.step
    dsimp only
    rw [hstep]
    exact ⟨_, rfl⟩

theorem Whole.step {b : Arena} (h : Whole a) (hmeets : a.Meets c) (hsized : a.Sized c) (hstep : a.step c = some b) : Whole b := by
  suffices hsome : ∃ b', a.step c = some b' ∧ Whole b' by
    obtain ⟨b', hb', hwhole⟩ := hsome
    exact Option.some.inj (hb'.symm.trans hstep) ▸ hwhole
  cases c with
  | sbrk n => exact h.sbrk_step n
  | event e =>
    cases e with
    | malloc nbytes grant =>
      have hsmall := lt_of_meets (hmeets.2 nbytes grant rfl)
      rcases h with hstart | ⟨lo, l, h⟩
      · obtain ⟨t, hkept, hsame⟩ := malloc_first hstart
        obtain ⟨b', l', hb', hkept'⟩ := hkept.malloc_step grant hsmall
        exact ⟨b', (hsame nbytes grant).trans hb', .inr ⟨_, l', hkept'⟩⟩
      · obtain ⟨b', l', hb', hkept⟩ := h.malloc_step grant hsmall
        exact ⟨b', hb', .inr ⟨lo, l', hkept⟩⟩
    | free ap =>
      obtain ⟨n, hap⟩ := hmeets.1
      rcases h with ⟨hstart, -⟩ | ⟨lo, l, h⟩
      · rw [hstart.live] at hap
        exact absurd hap not_mem_nil
      · obtain ⟨b', l', hb', hkept⟩ := h.free_step hap (hsized ap rfl)
        exact ⟨b', hb', .inr ⟨lo, l', hkept⟩⟩
    | store mem =>
      rcases h with ⟨hstart, hobtained⟩ | ⟨lo, l, h⟩
      · have hlive := hstart.live
        refine ⟨_, rfl, .inl ⟨⟨hstart.freep, hlive, hstart.base, hstart.brk⟩, ?_⟩⟩
        show a.obtained + (a.world.heap.brk - a.world.heap.brk) / HEADER = 0
        rw [hobtained, Nat.sub_self, Nat.zero_div]
      · obtain ⟨b', hb', hkept⟩ := h.store_step hmeets.1
        exact ⟨b', hb', .inr ⟨lo, l, hkept⟩⟩

end UmallocAux

open UmallocAux

/-- In every run in which `free` is given live pointers, no request is for `2 ^ 31` bytes or more, and no `free` joins blocks of
`2 ^ 32` units or more in all, the free list is one cycle through `base` in the order of addresses; its blocks overlap with each other
and with live blocks nowhere, and no one ends where the next begins; the units on the list and of live blocks are those got from `sbrk`.
Whatever is called next returns. -/
theorem freeList_orderly {a b : Arena} {cs : List Call} (h : a.Start)
    (hrun : Run (Guarded (fun a c => a.Meets c ∧ a.Sized c) (StepOf Arena.step)) a cs b) :
    b.Orderly ∧ ∀ c, b.Meets c → ∃ b', b.step c = some b' := by
  have hwhole : Whole b := hrun.invariant (I := Whole) (fun u c u' hu hstep => hu.step hstep.1.1 hstep.1.2 hstep.2) (.inl h)
  exact ⟨hwhole.orderly, fun c hc => hwhole.returns hc⟩

namespace UmallocAux

variable {s : Heap} {a : Arena}

/-- What holds of `freep` and of the next of every block it holds of holds of the whole list. -/
theorem onList_of_step {P : Nat → Prop} (hfreep : P s.freep) (hstep : ∀ x, P x → P (next s x)) {x : Nat} (h : s.OnList x) : P x := by
  obtain ⟨-, k, rfl⟩ := h
  induction k with
  | zero => exact hfreep
  | succ k ih =>
    rw [Function.iterate_succ_apply']
    exact hstep _ ih

/-- The program of four pages, before it gets memory. -/
def fourPagesArena : Arena := ⟨fourPages, 0⟩

theorem fourPagesArena_start : fourPagesArena.Start := ⟨fourPages_start, rfl⟩

/-- A call that may be made, as one can compute. -/
def Call.Modest (a : Arena) : Call → Prop
  | .event e => Small a.world e
  | .sbrk _ => True

instance (a : Arena) : (c : Call) → Decidable (Call.Modest a c)
  | .event e => inferInstanceAs (Decidable (Small a.world e))
  | .sbrk _ => inferInstanceAs (Decidable True)

theorem Call.Modest.meets {c : Call} (h : Call.Modest a c) : a.Meets c := by
  cases c with
  | sbrk n => trivial
  | event e =>
    have hsmall : Small a.world e := h
    refine ⟨hsmall.proper.1, fun nbytes grant heq => ?_⟩
    subst heq
    have hlt : (units nbytes).toNat < 2 ^ 27 := hsmall
    unfold HEADER
    omega

end UmallocAux

/-- Two blocks are taken from the memory of one call of `sbrk`, and the program itself gets some more. -/
def twoCalls : List Call := [.event (.malloc 10 fun _ => true), .event (.malloc 40 fun _ => true), .sbrk 4096]

/-- The list that the two blocks were taken from has one block. -/
theorem twoCalls_view : ∃ a b, Run (Guarded Call.Modest (StepOf Arena.step)) fourPagesArena twoCalls a ∧
    a.step (.event (.free 81904)) = some b ∧ (81904, 10) ∈ a.world.live ∧ a.world.heap.freep = 4096 ∧ (a.world.heap.mem 4096).ptr = 16384 ∧
    (a.world.heap.mem 16384).ptr = 4096 ∧ a.world.heap.units 4096 = 0 ∧ a.world.heap.units 16384 = 4090 ∧ a.world.heap.units 81888 = 2 := by
  obtain ⟨a, hrun, hview⟩ := Run.guarded_of_foldlM Call.Modest Arena.step twoCalls fourPagesArena rfl
  have hstep : (a.step (.event (.free 81904))).isSome = true := hview (fun a => (a.step (.event (.free 81904))).isSome) (by decide)
  obtain ⟨b, hstep⟩ := Option.isSome_iff_exists.1 hstep
  have hlive : a.world.live = [(81840, 40), (81904, 10)] := hview (fun a => a.world.live) rfl
  exact ⟨a, b, hrun, hstep, by rw [hlive]; decide, hview (fun a => a.world.heap.freep) rfl,
    hview (fun a => (a.world.heap.mem 4096).ptr) rfl, hview (fun a => (a.world.heap.mem 16384).ptr) rfl,
    hview (fun a => a.world.heap.units 4096) rfl, hview (fun a => a.world.heap.units 16384) rfl,
    hview (fun a => a.world.heap.units 81888) rfl⟩

theorem freeList_orderly_twoCalls : ∃ b, Run (Guarded (fun a c => a.Meets c ∧ a.Sized c) (StepOf Arena.step)) fourPagesArena
    (twoCalls ++ [.event (.free 81904)]) b ∧ b.Orderly := by
  obtain ⟨a, b, hrun, hstep, hlive, hfreep, hnext, hlast, hbase, hunits, hfreed⟩ := twoCalls_view
  have hnofree : ∀ c ∈ twoCalls, ∀ ap, c ≠ .event (.free ap) := by
    intro c hc ap
    simp only [twoCalls, List.mem_cons, List.not_mem_nil, or_false] at hc
    rcases hc with rfl | rfl | rfl <;> simp
  have hprefix : Run (Guarded (fun a c => a.Meets c ∧ a.Sized c) (StepOf Arena.step)) fourPagesArena twoCalls a := by
    refine (hrun.guard hnofree).mono fun _ _ _ hstep => ⟨⟨hstep.2.1.meets, fun ap heq => absurd heq (hstep.1 ap)⟩, hstep.2.2⟩
  have hon : ∀ x, a.world.heap.OnList x → a.world.heap.units x ≤ 4090 := by
    intro x hx
    have hx : x = 4096 ∨ x = 16384 := by
      refine onList_of_step (P := fun x => x = 4096 ∨ x = 16384) (.inl hfreep) ?_ hx
      rintro y (rfl | rfl)
      · exact .inr hnext
      · exact .inl hlast
    rcases hx with rfl | rfl <;> omega
  have hsized : a.Sized (.event (.free 81904)) := by
    rintro ap heq m n hm hn
    obtain rfl : 81904 = ap := by simpa using heq
    have hfreed : a.world.heap.units (81904 - HEADER) = 2 := hfreed
    have hm : m ≤ 4090 := by
      rcases hm with rfl | ⟨x, hx, -, rfl⟩
      · omega
      · exact hon x hx
    have hn : n ≤ 4090 := by
      rcases hn with rfl | ⟨x, hx, -, rfl⟩
      · omega
      · exact hon x hx
    rw [hfreed]
    omega
  have hmeets : a.Meets (.event (.free 81904)) := ⟨⟨10, hlive⟩, fun _ _ heq => by cases heq⟩
  have hall := hprefix.snoc (u := b) ⟨⟨hmeets, hsized⟩, hstep⟩
  exact ⟨b, hall, (freeList_orderly fourPagesArena_start hall).1⟩

/-- A request for all the bytes that an `int` can say, headers included. -/
def large : Call := .event (.malloc 2147483616 fun _ => true)

/-- Thirty-three blocks are taken, and given back in the order of their addresses. -/
def largeCalls : List Call := List.replicate 33 large ++ (List.range 33).map fun i => .event (.free (16400 + i * 2147483632))

/-- The thirty-three blocks are joined to one, of `33 * (2 ^ 27 - 1)` units, which its header gives without the carry: the others
are lost. -/
theorem freeList_loses_units : fourPagesArena.Start ∧ ∃ a, Run (Guarded Arena.Meets (StepOf Arena.step)) fourPagesArena largeCalls a ∧
    a.obtained = 33 * (2 ^ 27 - 1) ∧ a.world.live = [] ∧ ¬ a.Orderly := by
  obtain ⟨a, hrun, hview⟩ := Run.guarded_of_foldlM Call.Modest Arena.step largeCalls fourPagesArena (by decide +kernel)
  have hbase : a.world.heap.base = 4096 := hview (fun a => a.world.heap.base) (by decide +kernel)
  have hfreep : a.world.heap.freep = 16384 := hview (fun a => a.world.heap.freep) (by decide +kernel)
  have hnext : (a.world.heap.mem 4096).ptr = 16384 := hview (fun a => (a.world.heap.mem 4096).ptr) (by decide +kernel)
  have hlast : (a.world.heap.mem 16384).ptr = 4096 := hview (fun a => (a.world.heap.mem 16384).ptr) (by decide +kernel)
  have hunits : a.world.heap.units 16384 = 134217695 := hview (fun a => a.world.heap.units 16384) (by decide +kernel)
  have hlive : a.world.live = [] := hview (fun a => a.world.live) (by decide +kernel)
  have hobtained : a.obtained = 33 * (2 ^ 27 - 1) := hview Arena.obtained (by decide +kernel)
  refine ⟨fourPagesArena_start, a, hrun.mono fun _ _ _ hstep => ⟨hstep.1.meets, hstep.2⟩, hobtained, hlive, ?_⟩
  rintro (⟨hnone, -, -⟩ | ⟨l, h⟩)
  · rw [hfreep] at hnone
    cases hnone
  · have hcycle := h.cycle
    have hsorted := h.ascending
    have htotal := h.total
    rw [hbase] at hcycle hsorted
    rw [hlive, hobtained] at htotal
    cases l with
    | nil =>
      have hself : (a.world.heap.mem 4096).ptr = 4096 := hcycle
      omega
    | cons x l =>
      obtain ⟨hx, hrest⟩ := hcycle
      obtain rfl : x = 16384 := hx.symm.trans hnext
      cases l with
      | nil =>
        have hsum : a.world.heap.units 16384 + 0 + 0 = 33 * (2 ^ 27 - 1) := htotal
        omega
      | cons y l =>
        have hy : y = 4096 := hrest.1.symm.trans hlast
        have := (List.pairwise_cons.1 hsorted).1 y (by simp)
        omega

end Xv6.Umalloc
