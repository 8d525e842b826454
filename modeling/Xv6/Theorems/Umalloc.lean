import Xv6.Lemmas.UmallocGet
import Xv6.Lib.Run

/-!
# `malloc` hands out memory of the process

A program calls `malloc` and `free` and writes to what it got. As long as no request is so large that the argument of `sbrk` is cut to
another number, what is handed out lies above the initial break and below the break, and overlaps with nothing.
-/

namespace Xv6.Umalloc

open Lib List

open Vm (TRAPFRAME)

namespace UmallocAux

variable {s t : Heap} {lo a n : Nat} {l l' : List Nat} {w v : World} {r : Nat × Nat} {grant : Nat → Bool} {nbytes : Uint} {ap : Nat}
  {mem : Nat → Header}

/-- The number of bytes of the block that a pointer was made from, its header counted. -/
def bytes (s : Heap) (r : Nat × Nat) : Nat := (s.mem (r.1 - HEADER)).size.toNat * HEADER

/-- A pointer that has been handed out: a block stands behind it that is large enough and clear of the list. -/
structure Held (lo : Nat) (s : Heap) (l : List Nat) (r : Nat × Nat) : Prop where
  ge : lo + HEADER ≤ r.1
  fits : r.2 + HEADER ≤ bytes s r
  le : r.1 - HEADER + bytes s r ≤ s.brk
  clear : Clear s l (r.1 - HEADER) (bytes s r)

structure Inv (lo : Nat) (w : World) (l : List Nat) : Prop where
  free : Free lo w.heap l
  held : ∀ r ∈ w.live, Held lo w.heap l r
  apart : w.live.Pairwise fun r r' => Apart (r.1 - HEADER) (bytes w.heap r) (r'.1 - HEADER) (bytes w.heap r')

theorem Held.pos (h : Held lo s l r) : 0 < bytes s r := by
  have := h.fits
  unfold HEADER at this
  omega

theorem Held.low (h : Held lo s l r) : lo ≤ r.1 - HEADER := by
  have := h.ge
  omega

theorem bytes_congr (h : t.mem (r.1 - HEADER) = s.mem (r.1 - HEADER)) : bytes t r = bytes s r := by
  unfold bytes
  rw [h]

/-- What is held stays so when its header and its being clear are kept. -/
theorem Held.keep (h : Held lo s l r) (hbrk : s.brk ≤ t.brk) (hkeep : t.mem (r.1 - HEADER) = s.mem (r.1 - HEADER) ∧
    Clear t l' (r.1 - HEADER) (bytes s r)) : Held lo t l' r ∧ bytes t r = bytes s r := by
  have hbytes := bytes_congr hkeep.1
  refine ⟨⟨h.ge, by rw [hbytes]; exact h.fits, ?_, by rw [hbytes]; exact hkeep.2⟩, hbytes⟩
  rw [hbytes]
  exact h.le.trans hbrk

theorem Inv.sound (h : Inv lo w l) : w.Sound lo := by
  refine ⟨fun r hr => ?_, ?_, fun r hr a ha => ?_⟩
  · have hheld := h.held r hr
    have := hheld.ge
    have := hheld.le
    have := hheld.fits
    exact ⟨by omega, by omega⟩
  · refine h.apart.imp_of_mem fun hr hr' hap => ?_
    have hheld := h.held _ hr
    have hheld' := h.held _ hr'
    have := hheld.ge
    have := hheld'.ge
    have := hheld.fits
    have := hheld'.fits
    unfold Apart at hap
    omega
  · have hheld := h.held r hr
    have := hheld.ge
    have := hheld.fits
    have := hheld.low
    rcases mem_cons.1 (h.free.onList_iff.1 ha) with rfl | ha
    · have := h.free.below
      exact .inr (by omega)
    · have := hheld.clear a ha
      have := le_len w.heap a
      unfold Apart at *
      omega

/-! ## Calls -/

theorem asks_of (h : Free lo s l) (hask : ¬ s.Overasks grant nbytes) : Asks grant (units nbytes) s l := by
  unfold Asks
  by_contra hno
  rw [not_or, not_or] at hno
  obtain ⟨hlarge, hsmall, hrefuse⟩ := hno
  refine hask ⟨not_lt.1 hlarge, fun a ha => ?_, hrefuse⟩
  exact not_le.1 fun hle => hsmall ⟨a, h.onList_iff.1 ha, hle⟩

/-- What a call of `malloc` returns, beside what is held already. -/
structure Returned (lo : Nat) (nbytes : Nat) (w : World) (ap : Nat) (t : Heap) : Prop where
  brk : w.heap.brk ≤ t.brk
  null : ap = 0 → ∃ l, Inv lo ⟨t, w.live⟩ l
  region : ap ≠ 0 → ∃ l, Inv lo ⟨t, (ap, nbytes) :: w.live⟩ l

/-- Behind the header there are the bytes asked for. -/
theorem units_bytes (nbytes : Uint) : nbytes.toNat + HEADER ≤ (units nbytes).toNat * HEADER := by
  rw [units_toNat]
  unfold HEADER
  omega

/-- What `malloc` returns is held, and what was held stays. -/
theorem Inv.took (h : Inv lo w l) (hsafe : Safe lo w.heap l t l')
    (hap : ap = 0 ∨ ∃ a, ap = a + HEADER ∧ Taken lo (units nbytes) w.heap l a t l') :
    Inv lo ⟨t, if ap = 0 then w.live else (ap, nbytes.toNat) :: w.live⟩ l' ∧ ∀ r ∈ w.live, bytes t r = bytes w.heap r := by
  have hkeep : ∀ r ∈ w.live, Held lo t l' r ∧ bytes t r = bytes w.heap r := fun r hr =>
    (h.held r hr).keep hsafe.brk (hsafe.keep _ _ (h.held r hr).pos (h.held r hr).low (h.held r hr).le (h.held r hr).clear)
  have hapart : w.live.Pairwise fun r r' => Apart (r.1 - HEADER) (bytes t r) (r'.1 - HEADER) (bytes t r') :=
    h.apart.imp_of_mem fun hr hr' hrr' => by rw [(hkeep _ hr).2, (hkeep _ hr').2]; exact hrr'
  refine ⟨?_, fun r hr => (hkeep r hr).2⟩
  rcases hap with rfl | ⟨a, rfl, ht⟩
  · rw [if_pos rfl]
    exact ⟨hsafe.free, fun r hr => (hkeep r hr).1, hapart⟩
  · rw [if_neg (by unfold HEADER; omega)]
    have hbytes : bytes t (a + HEADER, nbytes.toNat) = (units nbytes).toNat * HEADER := by
      unfold bytes
      rw [Nat.add_sub_cancel, ht.size]
    have hnew : Held lo t l' (a + HEADER, nbytes.toNat) := by
      refine ⟨Nat.add_le_add_right ht.ge _, by rw [hbytes]; exact units_bytes nbytes, ?_, ?_⟩
      · rw [hbytes, Nat.add_sub_cancel]
        exact ht.le
      · rw [hbytes, Nat.add_sub_cancel]
        exact ht.clear
    refine ⟨hsafe.free, fun r hr => ?_, pairwise_cons.2 ⟨fun r hr => ?_, hapart⟩⟩
    · rcases mem_cons.1 hr with rfl | hr
      · exact hnew
      · exact (hkeep r hr).1
    · rw [hbytes, Nat.add_sub_cancel, (hkeep r hr).2]
      exact ht.apart _ _ (h.held r hr).pos (h.held r hr).low (h.held r hr).le (h.held r hr).clear

theorem Got.returned (h : Inv lo w l) (hgot : Got lo (units nbytes) w.heap l ap t) : Returned lo nbytes.toNat w ap t := by
  obtain ⟨l', hsafe, hap⟩ := hgot
  have hinv := (h.took hsafe hap).1
  refine ⟨hsafe.brk, fun hnull => ⟨l', ?_⟩, fun hne => ⟨l', ?_⟩⟩
  · rwa [if_pos hnull] at hinv
  · rwa [if_neg hne] at hinv

/-- A program that has not called `malloc` yet, or whose blocks are in order. -/
def Good (lo : Nat) (w : World) : Prop := w.Start ∧ w.heap.brk = lo ∨ ∃ l, Inv lo w l

theorem malloc_good (h : Good lo w) (hask : ¬ w.heap.Overasks grant nbytes) :
    Wp (fun _ => False) (malloc grant nbytes) w.heap fun ap t => Returned lo nbytes.toNat w ap t := by
  rcases h with ⟨hstart, rfl⟩ | ⟨l, h⟩
  · obtain ⟨t, hinit, hinit', hfree, hbrk⟩ := initList_eq hstart.freep hstart.base.1 hstart.base.2 hstart.brk
    have hinv : Inv w.heap.brk ⟨t, w.live⟩ [] := by
      rw [hstart.live]
      exact ⟨hfree, fun r hr => absurd hr not_mem_nil, .nil⟩
    have hsame : malloc grant nbytes w.heap = malloc grant nbytes t := by
      unfold malloc
      rw [run_bind hinit, run_bind hinit']
    have hask' : Asks grant (units nbytes) t [] := by
      refine asks_of hfree fun hover => hask ⟨hover.1, fun a ha => absurd hstart.freep ha.1, fun hrefuse => hover.2.2 ?_⟩
      unfold Heap.Refuses
      rw [hbrk]
      exact hrefuse
    refine Wp.congr hsame ((malloc_wp hfree hask').mono fun ap u hu => ?_)
    have hret := hu.returned hinv
    exact ⟨hbrk ▸ hret.brk, hret.null, hret.region⟩
  · exact (malloc_wp h.free (asks_of h.free hask)).mono fun ap t ht => ht.returned h

section

variable (h : Inv lo w l)

include h

/-- No two pointers are to blocks that overlap. -/
theorem Inv.apart_of_ne {r' : Nat × Nat} (hr : r ∈ w.live) (hr' : r' ∈ w.live) (hne : r ≠ r') :
    Apart (r.1 - HEADER) (bytes w.heap r) (r'.1 - HEADER) (bytes w.heap r') := by
  have hsymm : Std.Symm fun r r' : Nat × Nat => Apart (r.1 - HEADER) (bytes w.heap r) (r'.1 - HEADER) (bytes w.heap r') :=
    ⟨fun _ _ hab => hab.symm⟩
  exact h.apart.forall hr hr' hne

/-- The block behind a live pointer can be put on the list. -/
theorem Inv.loose (hr : r ∈ w.live) : Loose lo w.heap l (r.1 - HEADER) ∧ len w.heap (r.1 - HEADER) = bytes w.heap r := by
  have hheld := h.held r hr
  have hpos : 1 ≤ (w.heap.mem (r.1 - HEADER)).size.toNat := Nat.pos_of_mul_pos_right hheld.pos
  have hlen : len w.heap (r.1 - HEADER) = bytes w.heap r := len_eq hpos
  have hle := hheld.le
  have hclear := hheld.clear
  rw [← hlen] at hle hclear
  exact ⟨⟨hheld.low, hle, hpos, hclear⟩, hlen⟩

/-- What else is held stays when a pointer is freed. -/
theorem Inv.freed (hap : (ap, n) ∈ w.live) (ht : Freed lo (ap - HEADER) w.heap l t l') :
    Inv lo ⟨t, w.live.filter fun r => r.1 ≠ ap⟩ l' ∧ ∀ r ∈ w.live, r.1 ≠ ap → bytes t r = bytes w.heap r := by
  obtain ⟨-, hlen⟩ := h.loose hap
  have hother : ∀ r ∈ w.live, r.1 ≠ ap → Held lo t l' r ∧ bytes t r = bytes w.heap r := by
    intro r hr hne
    have hheld := h.held r hr
    have hapart := h.apart_of_ne hap hr fun heq => hne (by rw [← heq])
    rw [← hlen] at hapart
    exact hheld.keep ht.brk.ge (ht.keep _ _ hheld.pos hheld.low hheld.clear hapart)
  have hfilter : ∀ r ∈ w.live.filter (fun r => r.1 ≠ ap), Held lo t l' r ∧ bytes t r = bytes w.heap r := fun r hr =>
    hother r (mem_filter.1 hr).1 (of_decide_eq_true (mem_filter.1 hr).2)
  refine ⟨⟨ht.free, fun r hr => (hfilter r hr).1, ?_⟩, fun r hr hne => (hother r hr hne).2⟩
  refine (h.apart.sublist filter_sublist).imp_of_mem fun hr hr' hrr' => ?_
  rw [(hfilter _ hr).2, (hfilter _ hr').2]
  exact hrr'

/-- A live pointer can be freed; what else is held stays. -/
theorem free_good (hap : (ap, n) ∈ w.live) : Wp (fun _ => False) (free ap) w.heap fun _ t =>
    t.brk = w.heap.brk ∧ ∃ l', Inv lo ⟨t, w.live.filter fun r => r.1 ≠ ap⟩ l' := by
  have hge := (h.held _ hap).ge
  have hwp := free_wp h.free (h.loose hap).1
  rw [Nat.sub_add_cancel ((Nat.le_add_left ..).trans hge)] at hwp
  refine hwp.mono ?_
  rintro _ t ⟨l', ht⟩
  exact ⟨ht.brk, l', (h.freed hap ht).1⟩

/-- Writing to what is held changes no header. -/
theorem Inv.headers (hfair : w.Fair (.store mem)) :
    (∀ x ∈ w.heap.base :: l, mem x = w.heap.mem x) ∧ ∀ r ∈ w.live, mem (r.1 - HEADER) = w.heap.mem (r.1 - HEADER) := by
  constructor
  · intro x hx
    refine hfair x fun r hr => ?_
    have := h.sound.headers r hr x (h.free.onList_iff.2 hx)
    omega
  · intro r hr
    refine hfair _ fun r' hr' => ?_
    have hheld := h.held r hr
    have hheld' := h.held r' hr'
    have := hheld.ge
    have := hheld'.ge
    by_cases heq : r = r'
    · subst heq
      exact .inl (by omega)
    · have := h.apart_of_ne hr hr' heq
      have := hheld.fits
      have := hheld'.fits
      unfold Apart at *
      omega

/-- The program may write to what it holds. -/
theorem store_good (hfair : w.Fair (.store mem)) : Inv lo ⟨{ w.heap with mem := mem }, w.live⟩ l := by
  have hfree := h.free
  obtain ⟨hnode, hheader⟩ := h.headers hfair
  have hlen : ∀ x ∈ l, len { w.heap with mem := mem } x = len w.heap x := fun x hx => len_congr (hnode x (mem_cons_of_mem _ hx))
  refine ⟨⟨hfree.pos, hfree.below, hfree.start, hfree.top, ?_, ?_, hfree.spaced.shrink fun x hx => (hlen x hx).le, hfree.freep⟩, fun r hr => ?_, ?_⟩
  · refine hfree.links.congr fun y hy => ?_
    show (mem y).ptr = (w.heap.mem y).ptr
    rw [hnode y hy]
  · show (mem w.heap.base).size = 0
    rw [hnode _ mem_cons_self]
    exact hfree.empty
  · refine ((h.held r hr).keep (t := { w.heap with mem := mem }) le_rfl ⟨hheader r hr, fun x hx => ?_⟩).1
    rw [hlen x hx]
    exact (h.held r hr).clear x hx
  · refine h.apart.imp_of_mem fun hr hr' hrr' => ?_
    rw [bytes_congr (t := { w.heap with mem := mem }) (hheader _ hr), bytes_congr (t := { w.heap with mem := mem }) (hheader _ hr')]
    exact hrr'

end

/-! ## Runs -/

theorem Good.sound (h : Good lo w) : w.Sound lo := by
  rcases h with ⟨hstart, -⟩ | ⟨l, h⟩
  · refine ⟨?_, ?_, ?_⟩ <;> rw [hstart.live]
    · exact fun r hr => absurd hr not_mem_nil
    · exact .nil
    · exact fun r hr => absurd hr not_mem_nil
  · exact h.sound

end UmallocAux

open UmallocAux

namespace World

/-- The program keeps to what it owns, and asks for no more than an `int` can say. -/
def Proper (w : World) (e : Event) : Prop := w.Fair e ∧ ∀ nbytes grant, e = .malloc nbytes grant → ¬ w.heap.Overasks grant nbytes

end World

namespace UmallocAux

variable {s t : Heap} {lo a n : Nat} {l l' : List Nat} {w v : World} {r : Nat × Nat} {grant : Nat → Bool} {nbytes : Uint}

/-- A call of `malloc` returns, and the step that records it. -/
theorem malloc_step (h : Good lo w) (hask : ¬ w.heap.Overasks grant nbytes) : ∃ ap t, malloc grant nbytes w.heap = .ok (ap, t) ∧
    Returned lo nbytes.toNat w ap t ∧ w.step (.malloc nbytes grant) = some ⟨t, if ap = 0 then w.live else (ap, nbytes.toNat) :: w.live⟩ := by
  have hwp := malloc_good h hask
  cases hcase : malloc grant nbytes w.heap with
  | error => exact (hwp.error hcase).elim
  | ok p =>
    obtain ⟨ap, t⟩ := p
    refine ⟨ap, t, rfl, hwp.ok hcase, ?_⟩
    unfold World.step
    dsimp only
    rw [hcase]
    cases ap with
    | zero | succ => rfl

theorem free_step {ap : Nat} (h : Inv lo w l) (hap : (ap, n) ∈ w.live) : ∃ t, w.step (.free ap) = some ⟨t, w.live.filter fun r => r.1 ≠ ap⟩ ∧
    t.brk = w.heap.brk ∧ ∃ l', Inv lo ⟨t, w.live.filter fun r => r.1 ≠ ap⟩ l' := by
  have hwp := free_good h hap
  cases hcase : free ap w.heap with
  | error => exact (hwp.error hcase).elim
  | ok p =>
    obtain ⟨_, t⟩ := p
    refine ⟨t, ?_, hwp.ok hcase⟩
    unfold World.step
    dsimp only
    rw [hcase]

/-- Every step that the program may take is taken, and leaves the blocks in order. -/
theorem step_good {e : Event} (h : Good lo w) (he : w.Proper e) : ∃ v, w.step e = some v ∧ Good lo v ∧ w.heap.brk ≤ v.heap.brk := by
  cases e with
  | malloc nbytes grant =>
    obtain ⟨ap, t, -, hret, hstep⟩ := malloc_step h (he.2 nbytes grant rfl)
    refine ⟨_, hstep, .inr ?_, hret.brk⟩
    split
    · next hnull => exact hret.null hnull
    · next hne => exact hret.region hne
  | free =>
    obtain ⟨n, hap⟩ := he.1
    rcases h with ⟨hstart, -⟩ | ⟨l, h⟩
    · rw [hstart.live] at hap
      exact absurd hap not_mem_nil
    · obtain ⟨t, hstep, hbrk, hinv⟩ := free_step h hap
      exact ⟨_, hstep, .inr hinv, hbrk.ge⟩
  | store =>
    refine ⟨_, rfl, ?_, le_rfl⟩
    rcases h with ⟨hstart, hbrk⟩ | ⟨l, h⟩
    · have hlive := hstart.live
      exact .inl ⟨⟨hstart.freep, hlive, hstart.base, hstart.brk⟩, hbrk⟩
    · exact .inr ⟨l, store_good h he.1⟩

theorem run_good {es : List Event} (h : w.Start) (hrun : Run (Guarded World.Proper (StepOf World.step)) w es v) : Good w.heap.brk v := by
  refine hrun.invariant (I := Good w.heap.brk) (fun u e u' hu hstep => ?_) (.inl ⟨h, rfl⟩)
  obtain ⟨v, hv, hgood, -⟩ := step_good hu hstep.1
  obtain rfl : v = u' := Option.some.inj (hv.symm.trans hstep.2)
  exact hgood

end UmallocAux

/-- `malloc` hands out memory that the process owns: in a program that frees and writes only what it holds, and makes no request for
which `malloc` would have to pass `sbrk` a number of bytes that no `int` has, every call returns and the break is never lowered. What is
handed out lies between the initial break and the break, and overlaps with nothing else handed out nor with a header of the free list;
so does what the next call returns. -/
theorem malloc_owned {w v : World} {es : List Event} (h : w.Start) (hrun : Run (Guarded World.Proper (StepOf World.step)) w es v) :
    v.Sound w.heap.brk ∧ (∀ e, v.Proper e → ∃ v', v.step e = some v' ∧ v.heap.brk ≤ v'.heap.brk) ∧
      ∀ nbytes grant, ¬ v.heap.Overasks grant nbytes → ∃ ap t, malloc grant nbytes v.heap = .ok (ap, t) ∧ v.heap.brk ≤ t.brk ∧
        (ap ≠ 0 → World.Sound w.heap.brk ⟨t, (ap, nbytes.toNat) :: v.live⟩) := by
  have hgood := run_good h hrun
  refine ⟨hgood.sound, fun e he => ?_, fun nbytes grant hask => ?_⟩
  · obtain ⟨v', hstep, -, hbrk⟩ := step_good hgood he
    exact ⟨v', hstep, hbrk⟩
  · obtain ⟨ap, t, hcall, hret, -⟩ := malloc_step hgood hask
    refine ⟨ap, t, hcall, hret.brk, fun hne => ?_⟩
    obtain ⟨l, hinv⟩ := hret.region hne
    exact hinv.sound

/-- A process of four pages, with `base` in the second. -/
def fourPages : World := ⟨⟨16384, fun _ => ⟨0, 0⟩, 4096, 0⟩, []⟩

theorem fourPages_start : fourPages.Start := ⟨rfl, rfl, by decide, by decide⟩

/-- Requests that an `int` can say, and live pointers to free. -/
def Small (w : World) : Event → Prop
  | .malloc nbytes _ => (units nbytes).toNat < 2 ^ 27
  | .free ap => ap ∈ w.live.map Prod.fst
  | .store _ => False

instance (w : World) : (e : Event) → Decidable (Small w e)
  | .malloc nbytes _ => inferInstanceAs (Decidable ((units nbytes).toNat < 2 ^ 27))
  | .free ap => inferInstanceAs (Decidable (ap ∈ w.live.map Prod.fst))
  | .store _ => inferInstanceAs (Decidable False)

theorem Small.proper {w : World} {e : Event} (h : Small w e) : w.Proper e := by
  cases e with
  | malloc =>
    refine ⟨trivial, fun nbytes' grant' heq hover => ?_⟩
    obtain ⟨rfl, rfl⟩ := Event.malloc.inj heq
    exact absurd hover.1 (not_le.2 h)
  | free =>
    obtain ⟨r, hr, rfl⟩ := mem_map.1 h
    exact ⟨⟨r.2, hr⟩, fun _ _ heq => by cases heq⟩
  | store => exact absurd h id

/-- Two blocks are taken from the memory of one call of `sbrk`, and the first is given back. -/
def twoBlocks : List Event := [.malloc 10 fun _ => true, .malloc 40 fun _ => true, .free 81904]

theorem malloc_owned_twoBlocks : ∃ v, Run (Guarded World.Proper (StepOf World.step)) fourPages twoBlocks v ∧ v.live = [(81840, 40)] ∧
    v.Sound fourPages.heap.brk := by
  obtain ⟨v, hrun, hview⟩ := Run.guarded_of_foldlM Small World.step twoBlocks fourPages (by decide +kernel)
  have hproper : Run (Guarded World.Proper (StepOf World.step)) fourPages twoBlocks v :=
    hrun.mono fun _ _ _ hstep => ⟨hstep.1.proper, hstep.2⟩
  exact ⟨v, hproper, hview World.live (by decide +kernel), (malloc_owned fourPages_start hproper).1⟩

/-- A request for `0xffffffff` bytes: `sbrk` is asked for 16 and grants them, and what is returned, with nothing behind it, is the
break. -/
theorem malloc_past_break : fourPages.Start ∧ ∃ t, malloc (fun _ => true) 0xffffffff fourPages.heap = .ok (16400, t) ∧ t.brk = 16400 ∧
    ¬ World.Sound fourPages.heap.brk ⟨t, [(16400, 0xffffffff)]⟩ := by
  have hrun : ((malloc (fun _ => true) 0xffffffff fourPages.heap).toOption.any fun p => decide (p.1 = 16400 ∧ p.2.brk = 16400)) = true := by
    decide +kernel
  cases hcase : malloc (fun _ => true) 0xffffffff fourPages.heap with
  | error =>
    rw [hcase] at hrun
    cases hrun
  | ok p =>
    obtain ⟨ap, t⟩ := p
    rw [hcase] at hrun
    obtain ⟨rfl, hbrk⟩ := of_decide_eq_true hrun
    refine ⟨fourPages_start, t, rfl, hbrk, fun hsound => ?_⟩
    have hend : 16400 + 0xffffffff ≤ t.brk := (hsound.inside _ List.mem_cons_self).2
    have hbrk : t.brk = 16400 := hbrk
    omega

end Xv6.Umalloc
