import Xv6.Spinlock

namespace Xv6.Spin

open Lib Function

variable {C K : Type} {s t : State C K} {u v : Cpu K} {c : C} {lk : K}

namespace SpinAux

/-- 1 where the call has called `push_off` and not undone it. -/
def depth : Pc K → Nat
  | .swap _ | .record _ | .popOff _ => 1
  | .locked _ rel | .owner _ rel => if rel then 0 else 1
  | .panic msg _ => if msg = "acquire" then 1 else 0
  | _ => 0

/-- What a place says of the locks held and of the interrupt flag. -/
def Placed (held : Finset K) (intr : Bool) : Pc K → Prop
  | .intrOff _ old => old = intr
  | .clear lk | .unlock lk => lk ∈ held
  | .record lk => lk ∉ held
  | .panic msg lk => msg = "acquire" ∧ lk ∈ held ∨ msg = "release" ∧ lk ∉ held
  | _ => True

/-- `noff` counts the locks, the flag is as the code wants it where that is 0, and interrupted code held no lock. -/
structure Tidy (u : Cpu K) : Prop where
  noff : u.noff = u.held.card + depth u.pc
  intr : u.intr = (u.want && u.below.isNone && u.noff == 0)
  intena : u.noff ≠ 0 → u.intena = (u.want && u.below.isNone)
  placed : Placed u.held u.intr u.pc
  below : ∀ pc, u.below = some pc → u.want = true ∧ depth pc = 0 ∧ Placed ∅ true pc

theorem Tidy.intr_eq_false (h : Tidy u) (hn : u.noff ≠ 0) : u.intr = false := by
  rw [h.intr, beq_false_of_ne hn, Bool.and_false]

/-- The flag is on only where code runs that wants it, outside a handler and without a lock. -/
theorem Tidy.of_intr (h : Tidy u) (hi : u.intr = true) :
    u.want = true ∧ u.below = none ∧ u.noff = 0 ∧ u.held = ∅ ∧ depth u.pc = 0 := by
  have hintr := h.intr
  simp only [hi, Bool.true_eq, Bool.and_eq_true, Option.isNone_iff_eq_none, beq_iff_eq] at hintr
  have hnoff := h.noff
  exact ⟨hintr.1.1, hintr.1.2, hintr.2, Finset.card_eq_zero.1 (by omega), by omega⟩

/-- The call goes on to a place of the same depth. -/
theorem Tidy.goto (h : Tidy u) {pc : Pc K} (hdepth : depth pc = depth u.pc) (hplaced : Placed u.held u.intr pc) :
    Tidy { u with pc := pc } :=
  ⟨h.noff.trans (by rw [hdepth]), h.intr, h.intena, hplaced, h.below⟩

/-- Without a lock held a CPU is not at the places where `record` and `unlock` are done. -/
theorem away {pc : Pc K} {intr : Bool} (hdepth : depth pc = 0) (hplaced : Placed ∅ intr pc) (lk : K) : pc ≠ .record lk ∧ pc ≠ .unlock lk := by
  constructor
  · rintro rfl
    cases hdepth
  · rintro rfl
    exact Finset.notMem_empty lk hplaced

/-! ### The code between the calls -/

theorem call_tidy {a : Act K} (h : Tidy u) (hpc : u.pc = .code) (hv : u.call a = some v) :
    Tidy v ∧ v.held = u.held ∧ ∀ lk, v.pc ≠ .record lk ∧ v.pc ≠ .unlock lk := by
  have hdepth : depth u.pc = 0 := by rw [hpc]; rfl
  cases a with
  | acquire lk =>
    cases hv
    exact ⟨h.goto hdepth.symm trivial, rfl, by simp⟩
  | release lk =>
    cases hv
    exact ⟨h.goto hdepth.symm trivial, rfl, by simp⟩
  | intrSet b =>
    obtain ⟨⟨hnoff, hbelow⟩, hv⟩ := Option.ite_none_right_eq_some.1 hv
    cases hv
    rw [Option.isNone_iff_eq_none] at hbelow
    refine ⟨⟨h.noff, ?_, fun hn => absurd hnoff hn, ?_, ?_⟩, rfl, by simp [hpc]⟩
    · simp [hbelow, hnoff]
    · simp only [hpc]
      trivial
    · intro pc hsome
      cases hbelow.symm.trans hsome
  | ret =>
    obtain ⟨hnoff, hv⟩ := Option.ite_none_right_eq_some.1 hv
    obtain ⟨pc, hbelow, rfl⟩ := Option.map_eq_some_iff.1 hv
    obtain ⟨hwant, hdepth', hplaced⟩ := h.below pc hbelow
    have hcard := h.noff
    have hheld : u.held = ∅ := Finset.card_eq_zero.1 (by omega)
    refine ⟨⟨?_, ?_, fun hn => absurd hnoff hn, ?_, nofun⟩, rfl, away hdepth' hplaced⟩
    · simp [hnoff, hheld, hdepth']
    · simp [hwant, hnoff]
    · simpa only [hheld] using hplaced
  | trap => cases hv
  | next => cases hv

/-- An interrupt finds the CPU without a lock. -/
theorem trap_tidy (h : Tidy u) (hi : u.intr = true) : Tidy { u with intr := false, pc := .code, below := some u.pc } := by
  obtain ⟨hwant, -, hnoff, hheld, hdepth⟩ := h.of_intr hi
  have hplaced := h.placed
  rw [hheld, hi] at hplaced
  refine ⟨?_, ?_, fun hn => absurd hnoff hn, trivial, ?_⟩
  · simp [hnoff, hheld, depth]
  · simp
  · rintro _ ⟨⟩
    exact ⟨hwant, hdepth, hplaced⟩

/-! ### The steps of the calls -/

theorem pushOff_tidy {old : Bool} (h : Tidy u) (hpc : u.pc = .intrOff lk old) :
    Tidy { u with intr := false, intena := if u.noff = 0 then old else u.intena, noff := u.noff + 1, pc := .locked lk false } := by
  have hnoff := h.noff
  have hold := h.placed
  rw [hpc] at hnoff hold
  refine ⟨congrArg (· + 1) hnoff, by simp, fun _ => ?_, trivial, h.below⟩
  by_cases h0 : u.noff = 0
  · rw [if_pos h0, hold, h.intr, h0, beq_self_eq_true, Bool.and_true]
  · rw [if_neg h0, h.intena h0]

theorem popOff_tidy (h : Tidy u) (hpc : u.pc = .popOff lk) : Tidy (u.popOff lk) ∧ (u.popOff lk).pc = .code ∧ (u.popOff lk).held = u.held := by
  have hnoff : u.noff = u.held.card + 1 := by rw [h.noff, hpc]; rfl
  have hpop : u.popOff lk = { u with noff := u.noff - 1, intr := u.noff - 1 = 0 && u.intena, pc := .code } := by
    rw [Cpu.popOff, if_neg (by rw [h.intr_eq_false (by omega)]; decide), if_neg (by omega)]
  rw [hpop]
  refine ⟨⟨by simp [hnoff, depth], ?_, fun _ => h.intena (by omega), trivial, h.below⟩, rfl, rfl⟩
  rw [h.intena (by omega), Bool.and_comm]
  rfl

/-- `holding` tells its caller whether the lock is held. -/
theorem ofHolding_tidy {rel r : Bool} (h : Tidy u) (hpc : u.pc = .locked lk rel ∨ u.pc = .owner lk rel) (hr : r = true ↔ lk ∈ u.held) :
    Tidy { u with pc := .ofHolding lk rel r } := by
  have hdepth : depth u.pc = if rel then 0 else 1 := by rcases hpc with hpc | hpc <;> rw [hpc] <;> rfl
  cases rel <;> cases r
  · exact h.goto hdepth.symm trivial
  · exact h.goto hdepth.symm (.inl ⟨rfl, hr.1 rfl⟩)
  · exact h.goto hdepth.symm (.inr ⟨rfl, fun hin => Bool.false_ne_true (hr.2 hin)⟩)
  · exact h.goto hdepth.symm (hr.1 rfl)

theorem ofHolding_ne (lk : K) (rel r : Bool) (x : K) : Pc.ofHolding lk rel r ≠ .record x ∧ Pc.ofHolding lk rel r ≠ .unlock x := by
  cases rel <;> cases r <;> simp [Pc.ofHolding]

/-! ### The locks -/

/-- The CPU has set `locked`, and has not yet cleared it. -/
def Owns (lk : K) (u : Cpu K) : Prop := lk ∈ u.held ∨ u.pc = .record lk

/-- The CPU has stored itself in `cpu`, and has not yet cleared it. -/
def Named (lk : K) (u : Cpu K) : Prop := lk ∈ u.held ∧ u.pc ≠ .unlock lk

/-- `o` is the CPU with the property, if there is one. -/
def Holder (p : Cpu K → Prop) (s : State C K) (o : Option C) : Prop := ∀ d, p (s.cpus d) ↔ o = some d

/-- One CPU at most owns a lock and none one that is not taken; a lock names the CPU that has stored itself there. -/
structure Guards (s : State C K) (lk : K) : Prop where
  owner : ∃ o, Holder (Owns lk) s o ∧ (s.locked lk = false → o = none)
  cpu : Holder (Named lk) s (s.cpu lk)

structure Inv (s : State C K) : Prop where
  tidy : ∀ c, Tidy (s.cpus c)
  guards : ∀ lk, Guards s lk

theorem inv_boot : Inv ({} : State C K) :=
  ⟨fun _ => ⟨rfl, rfl, nofun, trivial, nofun⟩, fun _ => ⟨⟨none, fun _ => by simp [Owns], fun _ => rfl⟩, fun _ => by simp [Named]⟩⟩

theorem Inv.not_owns (h : Inv s) (hfree : s.locked lk = false) (d : C) : ¬Owns lk (s.cpus d) := by
  obtain ⟨o, ho, hnone⟩ := (h.guards lk).owner
  rw [ho d, hnone hfree]
  nofun

theorem Inv.held_of_pc (h : Inv s) (hpc : (s.cpus c).pc = .clear lk ∨ (s.cpus c).pc = .unlock lk) : lk ∈ (s.cpus c).held := by
  have hplaced := (h.tidy c).placed
  rcases hpc with hpc | hpc <;> rwa [hpc] at hplaced

variable [DecidableEq C]

/-- CPU `c` moves, and the holder is another one only where `c` gains or loses the property. -/
theorem Holder.step {p : Cpu K → Prop} {o o' : Option C} (h : Holder p s o) (hcpus : t.cpus = update s.cpus c u) (hc : p u ↔ o' = some c)
    (hd : ∀ d, d ≠ c → (o' = some d ↔ o = some d)) : Holder p t o' := by
  intro d
  rw [hcpus]
  rw [update_apply]
  split_ifs with hdc
  · rw [hdc, hc]
  · rw [h d, hd d hdc]

theorem Holder.keep {p : Cpu K → Prop} {o : Option C} (h : Holder p s o) (hcpus : t.cpus = update s.cpus c u) (hc : p u ↔ p (s.cpus c)) :
    Holder p t o := h.step hcpus (hc.trans (h c)) fun _ _ => Iff.rfl

/-- A step of CPU `c` that leaves a lock alone. -/
theorem Guards.keep (h : Guards s lk) (hcpus : t.cpus = update s.cpus c u) (hlocked : t.locked lk = s.locked lk) (hcpu : t.cpu lk = s.cpu lk)
    (howns : Owns lk u ↔ Owns lk (s.cpus c)) (hnamed : Named lk u ↔ Named lk (s.cpus c)) : Guards t lk := by
  obtain ⟨o, ho, hnone⟩ := h.owner
  exact ⟨⟨o, ho.keep hcpus howns, hlocked ▸ hnone⟩, hcpu ▸ h.cpu.keep hcpus hnamed⟩

theorem Inv.step (h : Inv s) (hcpus : t.cpus = update s.cpus c u) (hu : Tidy u) (hguards : ∀ lk, Guards t lk) : Inv t := by
  refine ⟨fun d => ?_, hguards⟩
  rw [hcpus, update_apply]
  split_ifs
  · exact hu
  · exact h.tidy d

/-- A step that only moves CPU `c` on, away from the accesses of `locked` and `cpu`. -/
theorem Inv.put (h : Inv s) (hu : Tidy u) (hheld : u.held = (s.cpus c).held)
    (hs : ∀ lk, (s.cpus c).pc ≠ .record lk ∧ (s.cpus c).pc ≠ .unlock lk) (hpc : ∀ lk, u.pc ≠ .record lk ∧ u.pc ≠ .unlock lk) :
    Inv (s.put c u) := by
  refine h.step rfl hu fun lk => (h.guards lk).keep rfl rfl rfl ?_ ?_
  · rw [Owns, Owns, hheld, or_iff_left (hpc lk).1, or_iff_left (hs lk).1]
  · rw [Named, Named, hheld, and_iff_left (hpc lk).2, and_iff_left (hs lk).2]

/-! ### The four steps that write `locked` or `cpu` -/

variable [DecidableEq K]

theorem record_tidy (h : Tidy u) (hpc : u.pc = .record lk) : Tidy { u with pc := .code, held := insert lk u.held } := by
  have hout := h.placed
  have hnoff := h.noff
  rw [hpc] at hout hnoff
  exact ⟨by rw [Finset.card_insert_of_notMem hout]; exact hnoff, h.intr, h.intena, trivial, h.below⟩

theorem unlock_tidy (h : Tidy u) (hpc : u.pc = .unlock lk) : Tidy { u with pc := .popOff lk, held := u.held.erase lk } := by
  have hin := h.placed
  have hnoff := h.noff
  rw [hpc] at hin hnoff
  exact ⟨by rw [depth, Finset.card_erase_add_one hin]; exact hnoff, h.intr, h.intena, trivial, h.below⟩

theorem swap_inv (h : Inv s) (hpc : (s.cpus c).pc = .swap lk) (hfree : s.locked lk = false) :
    Inv { s.put c { s.cpus c with pc := .record lk } with locked := update s.locked lk true } := by
  have hnot := h.not_owns hfree
  have hnamed : ∀ x, Named x { s.cpus c with pc := .record lk } ↔ Named x (s.cpus c) := fun x => by simp [Named, hpc]
  refine h.step rfl ((h.tidy c).goto (by rw [hpc]; rfl) fun hin => hnot c (.inl hin)) fun x => ?_
  by_cases hx : x = lk
  · subst hx
    obtain ⟨o, ho, hnone⟩ := (h.guards x).owner
    obtain rfl := hnone hfree
    refine ⟨⟨some c, ho.step rfl (iff_of_true (.inr rfl) rfl) fun d hd => ?_, by simp⟩, (h.guards x).cpu.keep rfl (hnamed x)⟩
    simp [Ne.symm hd]
  · exact (h.guards x).keep rfl (update_of_ne hx ..) rfl (by simp [Owns, hpc, Ne.symm hx]) (hnamed x)

theorem record_inv (h : Inv s) (hpc : (s.cpus c).pc = .record lk) :
    Inv { s.put c { s.cpus c with pc := .code, held := insert lk (s.cpus c).held } with cpu := update s.cpu lk (some c) } := by
  refine h.step rfl (record_tidy (h.tidy c) hpc) fun x => ?_
  by_cases hx : x = lk
  · subst hx
    obtain ⟨o, ho, hnone⟩ := (h.guards x).owner
    have hc : o = some c := (ho c).1 (.inr hpc)
    refine ⟨⟨o, ho.keep rfl (by simp [Owns, hpc]), hnone⟩, (h.guards x).cpu.step rfl (by simp [Named]) fun d hd => ?_⟩
    -- no other CPU is named, since none owns the lock
    have hother : ¬Named x (s.cpus d) := fun hn => hd (Option.some.inj (((ho d).1 (.inl hn.1)).symm.trans hc))
    rw [← (h.guards x).cpu d]
    simp [hother, Ne.symm hd]
  · exact (h.guards x).keep rfl rfl (update_of_ne hx ..) (by simp [Owns, hpc, hx, Ne.symm hx]) (by simp [Named, hpc, hx])

theorem clear_inv (h : Inv s) (hpc : (s.cpus c).pc = .clear lk) :
    Inv { s.put c { s.cpus c with pc := .unlock lk } with cpu := update s.cpu lk none } := by
  have hin := h.held_of_pc (.inl hpc)
  have howns : ∀ x, Owns x { s.cpus c with pc := .unlock lk } ↔ Owns x (s.cpus c) := fun x => by simp [Owns, hpc]
  refine h.step rfl ((h.tidy c).goto (by rw [hpc]; rfl) hin) fun x => ?_
  by_cases hx : x = lk
  · subst hx
    obtain ⟨o, ho, hnone⟩ := (h.guards x).owner
    have hc : s.cpu x = some c := ((h.guards x).cpu c).1 ⟨hin, by simp [hpc]⟩
    refine ⟨⟨o, ho.keep rfl (howns x), hnone⟩, (h.guards x).cpu.step rfl (by simp [Named]) fun d hd => ?_⟩
    simp [hc, Ne.symm hd]
  · exact (h.guards x).keep rfl rfl (update_of_ne hx ..) (howns x) (by simp [Named, hpc, Ne.symm hx])

theorem unlock_inv (h : Inv s) (hpc : (s.cpus c).pc = .unlock lk) :
    Inv { s.put c { s.cpus c with pc := .popOff lk, held := (s.cpus c).held.erase lk } with locked := update s.locked lk false } := by
  have hin := h.held_of_pc (.inr hpc)
  refine h.step rfl (unlock_tidy (h.tidy c) hpc) fun x => ?_
  by_cases hx : x = lk
  · subst hx
    obtain ⟨o, ho, -⟩ := (h.guards x).owner
    have hc : o = some c := (ho c).1 (.inl hin)
    refine ⟨⟨none, ho.step rfl (by simp [Owns]) fun d hd => ?_, fun _ => rfl⟩, (h.guards x).cpu.keep rfl (by simp [Named, hpc])⟩
    simp [hc, Ne.symm hd]
  · exact (h.guards x).keep rfl (update_of_ne hx ..) rfl (by simp [Owns, hpc, hx]) (by simp [Named, hpc, hx, Ne.symm hx])

/-! ### Runs -/

theorem next_inv (h : Inv s) (ht : s.next c = some t) : Inv t := by
  have hc := h.tidy c
  unfold State.next at ht
  cases hpc : (s.cpus c).pc <;> simp only [hpc, reduceCtorEq, Option.some.injEq] at ht <;> subst ht
  case intrGet lk => exact h.put (hc.goto (by rw [hpc]; rfl) rfl) rfl (by simp [hpc]) (by simp)
  case intrOff lk old => exact h.put (pushOff_tidy hc hpc) rfl (by simp [hpc]) (by simp)
  case locked lk rel =>
    by_cases hl : s.locked lk = true
    · rw [if_pos hl]
      exact h.put (hc.goto (by rw [hpc]; rfl) trivial) rfl (by simp [hpc]) (by simp)
    · rw [if_neg hl]
      have hout : lk ∉ (s.cpus c).held := fun hin => h.not_owns (Bool.not_eq_true _ ▸ hl) c (.inl hin)
      exact h.put (ofHolding_tidy hc (.inl hpc) (by simp [hout])) rfl (by simp [hpc]) (ofHolding_ne lk rel false)
  case owner lk rel =>
    have howner : decide (s.cpu lk = some c) = true ↔ lk ∈ (s.cpus c).held := by
      rw [decide_eq_true_iff, ← (h.guards lk).cpu c, Named, hpc, and_iff_left nofun]
    exact h.put (ofHolding_tidy hc (.inr hpc) howner) rfl (by simp [hpc]) (ofHolding_ne lk rel _)
  case swap lk =>
    by_cases hl : s.locked lk = true
    · have hsame : update s.locked lk true = s.locked := by rw [← hl, update_eq_self]
      rw [if_pos hl, hsame]
      exact h.put (hc.goto (by rw [hpc]) trivial) rfl (by simp [hpc]) (by simp)
    · rw [if_neg hl]
      exact swap_inv h hpc (Bool.not_eq_true _ ▸ hl)
  case record lk => exact record_inv h hpc
  case clear lk => exact clear_inv h hpc
  case unlock lk => exact unlock_inv h hpc
  case popOff lk =>
    obtain ⟨htidy, hcode, hheld⟩ := popOff_tidy hc hpc
    exact h.put htidy hheld (by simp [hpc]) (by simp [hcode])

theorem step_inv {x : C × Act K} (h : Inv s) (ht : s.step x = some t) : Inv t := by
  have hc := h.tidy x.1
  unfold State.step at ht
  split at ht
  next => exact next_inv h ht
  next =>
    obtain ⟨hi, ht⟩ := Option.ite_none_right_eq_some.1 ht
    cases ht
    obtain ⟨-, -, -, hheld, hdepth⟩ := hc.of_intr hi
    exact h.put (trap_tidy hc hi) rfl (away hdepth (hheld ▸ hc.placed)) (by simp)
  next =>
    split at ht
    next hpc =>
      obtain ⟨u, hu, rfl⟩ := Option.map_eq_some_iff.1 ht
      obtain ⟨htidy, hheld, hne⟩ := call_tidy hc hpc hu
      exact h.put htidy hheld (by simp [hpc]) hne
    next => cases ht

end SpinAux

variable [DecidableEq C] [DecidableEq K]

open SpinAux in
/-- Whatever code runs on the CPUs and whenever interrupts come, as long as code sets the flag itself only with `noff` 0 and outside a
handler (`sched`, which saves `intena`, and context switches are left out): a lock is held by one CPU at a time; a CPU that holds one
takes no interrupt, and between the calls the flag is what the code wants unless a lock is held or a handler runs; and the only panics
are the re-acquiring of a lock held and the release of one not held, however `holding` races. -/
theorem spinlocks_exclude {as : List (C × Act K)} (h : Run (StepOf State.step) ({} : State C K) as s) :
    (∀ lk c d, lk ∈ (s.cpus c).held → lk ∈ (s.cpus d).held → c = d) ∧
    ∀ c, ((s.cpus c).held.Nonempty → (s.cpus c).intr = false) ∧
      ((s.cpus c).pc = .code →
        (s.cpus c).intr = ((s.cpus c).want && (s.cpus c).below.isNone && (s.cpus c).held = ∅)) ∧
      ∀ msg lk, (s.cpus c).pc = .panic msg lk →
        msg = "acquire" ∧ lk ∈ (s.cpus c).held ∨ msg = "release" ∧ lk ∉ (s.cpus c).held := by
  have hinv := h.invariant (I := Inv) (fun _ _ _ => step_inv) inv_boot
  refine ⟨fun lk c d hc hd => ?_, fun c => ?_⟩
  · obtain ⟨o, ho, -⟩ := (hinv.guards lk).owner
    exact Option.some.inj (((ho c).1 (.inl hc)).symm.trans ((ho d).1 (.inl hd)))
  have hc := hinv.tidy c
  refine ⟨fun hheld => hc.intr_eq_false ?_, fun hpc => ?_, fun msg lk hpc => ?_⟩
  · have hcard := Finset.card_pos.2 hheld
    have hnoff := hc.noff
    omega
  · have hnoff : (s.cpus c).noff = (s.cpus c).held.card := by rw [hc.noff, hpc]; rfl
    rw [hc.intr, hnoff, Bool.eq_iff_iff]
    simp
  · have hplaced := hc.placed
    rwa [hpc] at hplaced

/-- One CPU holds the lock while another runs a handler. -/
theorem spinlocks_exclude_handler : ∃ s : State Bool Unit, () ∈ (s.cpus true).held ∧ (s.cpus false).below.isSome ∧
    () ∉ (s.cpus false).held := by
  obtain ⟨s, hs, hg⟩ := Run.exists_of_foldlM State.step
    ((false, .intrSet true) :: (true, .acquire ()) :: (List.replicate 5 (true, .next) ++ [(false, .trap)])) {} rfl
  have h1 : () ∈ (s.cpus true).held := of_decide_eq_true (hg (fun s => decide (() ∈ (s.cpus true).held)) rfl)
  exact ⟨s, h1, hg (fun s => (s.cpus false).below.isSome) rfl, fun h2 => Bool.false_ne_true ((spinlocks_exclude hs).1 () _ _ h2 h1)⟩

end Xv6.Spin
