import Xv6.Lemmas.BioCommit

/-!
# `commit` with nobody else at work

The buffers that are referred to are then those that are pinned and those in the hands of `commit` (`Alone`). A sequence of moves that fits
the cache is carried out to its end (`Linked.run_alone`); and whenever `write_log` gets to its end, each block was found in another buffer
than its copy in the log, and if every buffer is pinned, the copies are all among the pinned blocks (`writeLog_ok`).
-/

namespace Xv6.Bio

open Lib Trans.TransAux List

namespace BioAux

variable {P : Type} [Fintype P] {L : Layout} {s t : State P} {p q : P} {i j : Slot} {y y' : Sym} {a : Act}

/-- The cache is in order and what the process that commits knows is so. -/
structure Linked (L : Layout) (p : P) (s : State P) (y : Sym) : Prop where
  good : Good L s
  turns : Turns s.trans
  link : Link L p s y
  home : s.polite = true → ∀ b ∈ s.trans.log.lh, ¬ InLog L.start b

/-- Nobody else refers to a buffer, and only what the process has in its hands is locked. -/
structure Alone (p : P) (s : State P) : Prop where
  want : ∀ q, q ≠ p → s.want q = none
  drop : ∀ q, q ≠ p → s.drop q = none
  lock : InHand p s

/-- The blocks of the buffers that are pinned are different. -/
theorem exists_not_pinned (h : Good L s) (hlt : s.pins.length < NBUF) : ∃ i, ¬ Pinned L s i := by
  by_contra hall
  have hall : ∀ i, Pinned L s i := fun i => by
    by_contra hi
    exact hall ⟨i, hi⟩
  have hinj : Function.Injective fun i => (s.buf i).blockno := fun i j hij => by
    refine h.unique i j (hall i).1 (hall j).1 (Prod.ext ?_ hij)
    exact (hall i).2.1.trans (hall j).2.1.symm
  have hsub : (finRange NBUF).map (fun i => (s.buf i).blockno) ⊆ s.pins := fun b hb => by
    obtain ⟨i, -, rfl⟩ := mem_map.1 hb
    exact (hall i).2.2
  have hlen := (((nodup_finRange NBUF).map hinj).subperm hsub).length_le
  rw [length_map, length_finRange] at hlen
  omega

/-- If as many blocks are pinned as there are buffers, every buffer is pinned. -/
theorem pinned_of_full (h : Good L s) (hle : NBUF ≤ s.pins.length) (i : Slot) : Pinned L s i := by
  choose f hf using fun m : Fin s.pins.length => h.pinned (s.pins.get m) (get_mem ..)
  have hinj : Function.Injective f := fun m n hmn => by
    have hm := (hf m).2.1
    rw [hmn, (hf n).2.1] at hm
    exact (nodup_iff_injective_get.1 h.nodup) (Prod.mk.inj hm).2.symm
  have hcard : Fintype.card (Fin s.pins.length) = Fintype.card Slot := by
    have := Fintype.card_le_of_injective f hinj
    rw [Fintype.card_fin, Fintype.card_fin] at this ⊢
    omega
  obtain ⟨m, rfl⟩ := ((Fintype.bijective_iff_injective_and_card f).2 ⟨hinj, hcard⟩).2 i
  exact Good.pinned_of_key (hf m).1 (hf m).2.1 (get_mem ..)

/-- With nobody else at work and nothing in hand, a buffer that is not pinned is free. -/
theorem Alone.refcnt (h : Alone p s) (hg : Good L s) (hw : s.want p = none) (hd : s.drop p = none) (hr : ∀ r, s.regs p r = none)
    (hi : ¬ Pinned L s i) : (s.buf i).refcnt = 0 := by
  have hwant : tally s.want i = 0 := by
    by_contra hne
    obtain ⟨q, hq⟩ := exists_of_tally_pos (Nat.pos_of_ne_zero hne)
    by_cases hqp : q = p
    · simp [hqp, hw] at hq
    · simp [h.want q hqp] at hq
  have hdrop : tally s.drop i = 0 := by
    by_contra hne
    obtain ⟨q, hq⟩ := exists_of_tally_pos (Nat.pos_of_ne_zero hne)
    by_cases hqp : q = p
    · simp [hqp, hd] at hq
    · simp [h.drop q hqp] at hq
  have hlock : (s.buf i).lock = none := by
    cases hl : (s.buf i).lock with
    | none => rfl
    | some q =>
      obtain ⟨r, hri⟩ := h.lock i q hl
      simp [hr r] at hri
  rw [hg.refs_of_unlocked hlock, hwant, hdrop, if_neg hi]

/-- `commit` is called: the blocks in the log are pinned, each in its own buffer, and nothing else is referred to. -/
structure Loaded (L : Layout) (p : P) (s : State P) : Prop where
  good : Good L s
  turns : Turns s.trans
  home : s.polite = true → ∀ b ∈ s.trans.log.lh, ¬ InLog L.start b
  pc : s.trans.pc p = .commit
  pins : ∀ b, b ∈ s.pins ↔ b ∈ s.trans.log.lh
  refs : ∀ i, (s.buf i).refcnt = if Pinned L s i then 1 else 0
  regs : ∀ r, s.regs p r = none

/-- Where nothing is pinned, the disk holds what was left. -/
theorem Good.disk_eq (h : Good L s) {b : Uint} (hb : b ∉ s.pins) : s.disk (L.dev, b) = s.left (L.dev, b) :=
  (h.disk _).resolve_right fun hpin => hb hpin.2

/-- Only the pins count. -/
theorem Loaded.quiet (h : Loaded L p s) (i : Slot) : tally s.want i = 0 ∧ tally s.drop i = 0 ∧ (s.buf i).lock = none := by
  have hrefs := h.good.refs i
  rw [h.refs i] at hrefs
  refine ⟨by omega, by omega, ?_⟩
  by_contra hl
  rw [if_neg hl] at hrefs
  omega

theorem eq_none_of_tally {f : P → Option Slot} (h : ∀ i, tally f i = 0) (q : P) : f q = none := by
  cases hq : f q with
  | none => rfl
  | some i =>
    have := tally_pos hq
    have := h i
    omega

theorem Loaded.linked (h : Loaded L p s) : Linked L p s (.empty s.pins s.trans.log.lh 0 false) := by
  have hwant := eq_none_of_tally fun i => (h.quiet i).1
  have hdrop := eq_none_of_tally fun i => (h.quiet i).2.1
  refine ⟨h.good, h.turns, ⟨fun _ => hwant p, fun b hb => ?_, ?_, fun r _ => h.regs r, fun r b v hr => ?_, fun r i hr => ?_, rfl, rfl, h.pc,
    fun _ n b hn => absurd hn (Nat.not_lt_zero n)⟩, h.home⟩
  · cases hb
  · rw [hdrop p]
    rfl
  · cases r <;> cases hr
  · simp [h.regs r] at hr

theorem Loaded.alone (h : Loaded L p s) : Alone p s where
  want q _ := eq_none_of_tally (fun i => (h.quiet i).1) q
  drop q _ := eq_none_of_tally (fun i => (h.quiet i).2.1) q
  lock i q hi := by
    rw [(h.quiet i).2.2] at hi
    cases hi

variable [DecidableEq P]

theorem Linked.step {alone : Prop} (h : Linked L p s y) (hm : Move L alone y a y') (hx : s.exec L p a = .ok t) : Linked L p t y' := by
  have hstep := stepped h.good h.turns h.link (fun hr b hb => h.home hr b (h.link.lh ▸ hb)) hm hx
  exact ⟨hstep.good, hstep.turns, hstep.link, fun hr b hb => h.home (hstep.polite ▸ hr) b (hstep.lh b hb)⟩

theorem Linked.run {alone : Prop} {as : List Act} (h : Linked L p s y) (hrun : Run (Move L alone) y as y')
    (hx : as.foldlM (fun s a => s.exec L p a) s = .ok t) : Linked L p t y' := by
  induction as generalizing s y with
  | nil =>
    obtain rfl := hrun.eq_of_nil
    cases hx
    exact h
  | cons a as ih =>
    obtain ⟨y₁, hm, hrest⟩ := hrun.uncons
    rw [foldlM_cons] at hx
    obtain ⟨u, hu, hx⟩ := ok_of_bind hx
    exact ih (h.step hm hu) hrest hx

/-- Nothing new is left in a block of the file system. -/
theorem Linked.run_left {alone : Prop} {as : List Act} (h : Linked L p s y) (hrun : Run (Move L alone) y as y')
    (hpolite : s.polite = true) (hx : as.foldlM (fun s a => s.exec L p a) s = .ok t) {k : Key}
    (hk : ¬ (k.1 = L.dev ∧ InLog L.start k.2)) : t.left k = s.left k := by
  induction as generalizing s y with
  | nil =>
    cases hx
    rfl
  | cons a as ih =>
    obtain ⟨y₁, hm, hrest⟩ := hrun.uncons
    rw [foldlM_cons] at hx
    obtain ⟨u, hu, hx⟩ := ok_of_bind hx
    have hstep := stepped h.good h.turns h.link (fun hr b hb => h.home hr b (h.link.lh ▸ hb)) hm hu
    rw [ih (h.step hm hu) hrest (hstep.polite ▸ hpolite) hx, hstep.left hpolite k hk]

/-- With nobody else at work, a move that fits can be made. -/
theorem Linked.exists_exec (h : Linked L p s y) (ha : Alone p s) (hm : Move L True y a y') : ∃ t, s.exec L p a = .ok t := by
  cases hm with
  | @bget g pins lh k c b hfree =>
    obtain ⟨order, ho⟩ := h.good.order
    have hsome : s.toCache.bget L.dev b ≠ none := by
      rcases hfree trivial with hb | ⟨hr, hlt⟩
      · obtain ⟨i, -, hk, -⟩ := h.good.pinned b (h.link.pins ▸ hb)
        exact bget_ne_none ho.ring ho.all (.inl hk)
      · obtain ⟨i, hi⟩ := exists_not_pinned h.good (by rw [h.link.pins]; exact hlt)
        exact bget_ne_none ho.ring ho.all
          (.inr (ha.refcnt h.good (h.link.idle rfl) (by simpa using h.link.drop) (fun r => h.link.empty r (hr r)) hi))
    obtain ⟨⟨i, c⟩, hc⟩ := Option.ne_none_iff_exists'.1 hsome
    exact ⟨_, by simp only [State.exec, State.bget, hc]; rfl⟩
  | @acquiresleep g pins lh k c b r hr ho hne =>
    obtain ⟨i, hi, hk⟩ := h.link.want b rfl
    have hl : (s.buf i).lock = none := by
      cases hl : (s.buf i).lock with
      | none => rfl
      | some q =>
        obtain ⟨r', hr'⟩ := ha.lock i q hl
        rcases Reg.eq_or r r' with rfl | rfl
        · simp [h.link.empty r' hr] at hr'
        · cases hg : g (Reg.other r) with
          | none => simp [h.link.empty _ hg] at hr'
          | some x =>
            obtain ⟨j, hj, hh⟩ := h.link.holds _ x.1 x.2 hg
            obtain rfl := Option.some.inj (hr'.symm.trans hj)
            refine absurd ?_ (hne trivial x.2)
            rw [hg, ← (Prod.mk.inj (hh.key.symm.trans hk)).2]
    exact ⟨_, by simp only [State.exec, State.acquiresleep, Cache.acquiresleep, hi, hl]; rfl⟩
  | fill r hr | header r lh' hr | bunpin r hr =>
    obtain ⟨i, hi, -⟩ := h.link.holds r _ _ hr
    exact ⟨_, by simp only [State.exec, hi]; rfl⟩
  | @memmove g pins lh k c b b' r hr ho =>
    obtain ⟨i, hi, -⟩ := h.link.holds r _ _ hr
    obtain ⟨j, hj, -⟩ := h.link.holds _ _ _ ho
    exact ⟨_, by simp only [State.exec, hi, hj]; rfl⟩
  | writeLog r hb hr | writeHead r hr | install r hb hn hr =>
    obtain ⟨i, hi, hh⟩ := h.link.holds r _ _ hr
    exact ⟨_, by simp only [State.exec, State.bwrite, hi, if_pos hh.lock]; rfl⟩
  | releasesleep r hr =>
    obtain ⟨i, hi, hh⟩ := h.link.holds r _ _ hr
    exact ⟨_, by simp only [State.exec, State.releasesleep, hi, if_pos hh.lock]; rfl⟩
  | decref =>
    obtain ⟨i, hi⟩ := Option.isSome_iff_exists.1 h.link.drop
    exact ⟨_, by simp only [State.exec, State.decref, hi]; rfl⟩
  | clear =>
    exact ⟨_, by simp only [State.exec, Trans.State.step, Trans.State.exec, if_pos (show s.trans.pc p = .commit from h.link.pc)]; rfl⟩

theorem Alone.step {alone : Prop} (h : Alone p s) (hl : Linked L p s y) (hm : Move L alone y a y') (hx : s.exec L p a = .ok t) : Alone p t := by
  have hstep := stepped hl.good hl.turns hl.link (fun hr b hb => hl.home hr b (hl.link.lh ▸ hb)) hm hx
  obtain ⟨k, hf⟩ := hstep.frame
  exact ⟨fun q hq => (hf.want q hq).trans (h.want q hq), fun q hq => (hf.drop q hq).trans (h.drop q hq), hstep.locked h.lock⟩

/-- Moves that fit are made to the end. -/
theorem Linked.run_alone {as : List Act} (h : Linked L p s y) (ha : Alone p s) (hrun : Run (Move L True) y as y') :
    ∃ t, as.foldlM (fun s a => s.exec L p a) s = .ok t := by
  induction as generalizing s y with
  | nil => exact ⟨s, rfl⟩
  | cons a as ih =>
    obtain ⟨y₁, hm, hrest⟩ := hrun.uncons
    obtain ⟨u, hu⟩ := h.exists_exec ha hm
    obtain ⟨t, ht⟩ := ih (h.step hm hu) (ha.step h hm hu) hrest
    refine ⟨t, ?_⟩
    rw [foldlM_cons, hu]
    exact ht

/-! ## The other way round -/

/-- If every buffer is pinned, `bget` finds none but the pinned blocks. -/
theorem mem_pins_of_bget {b : Uint} (h : Good L s) (hfull : NBUF ≤ s.pins.length) (hx : s.bget p L.dev b = .ok t) : b ∈ s.pins := by
  obtain ⟨order, ho⟩ := h.order
  unfold State.bget at hx
  split at hx
  · cases hx
  · next i c hc =>
    have hpin := pinned_of_full h hfull i
    cases found_of_bget ho.ring hc with
    | cached horder hbefore hi =>
      obtain ⟨-, rfl⟩ := Prod.mk.inj hi
      exact hpin.2.2
    | recycled =>
      have := h.refcnt_of_pinned hpin
      omega

/-- The lock of a buffer in the other hand is not got. -/
theorem ne_of_acquiresleep {g : Reg → Option (Uint × Val)} {pins lh : List Uint} {k : Nat} {c : Bool} {b b' : Uint} {v : Val} {r : Reg}
    (h : Linked L p s ⟨some b, false, g, pins, lh, k, c⟩) (ho : g (Reg.other r) = some (b', v)) (hx : s.exec L p (.acquiresleep r) = .ok t) :
    b ≠ b' := by
  rintro rfl
  obtain ⟨⟨i, u⟩, hu, -⟩ := ok_of_bind hx
  obtain ⟨hw, hl, -⟩ := acquiresleep_eq hu
  obtain ⟨i', hi', hk⟩ := h.link.want b rfl
  obtain rfl := Option.some.inj (hw.symm.trans hi')
  obtain ⟨j, hj, hh⟩ := h.link.holds _ _ _ ho
  have hij : i = j := h.good.unique i j (h.good.given_of_refcnt (h.good.refcnt_of_want hw)) (h.good.given_of_lock hh.lock) (hk.trans hh.key.symm)
  rw [hij, hh.lock] at hl
  cases hl

omit [Fintype P] in
theorem foldlM_append {as bs : List Act} (hx : (as ++ bs).foldlM (fun s a => s.exec L p a) s = .ok t) :
    ∃ u, as.foldlM (fun s a => s.exec L p a) s = .ok u ∧ bs.foldlM (fun s a => s.exec L p a) u = .ok t := by
  rw [List.foldlM_append] at hx
  exact ok_of_bind hx

omit [Fintype P] in
theorem foldlM_cons {as : List Act} (hx : (a :: as).foldlM (fun s a => s.exec L p a) s = .ok t) :
    ∃ u, s.exec L p a = .ok u ∧ as.foldlM (fun s a => s.exec L p a) u = .ok t := by
  rw [List.foldlM_cons] at hx
  exact ok_of_bind hx

section

variable {pins lh : List Uint} {k : Nat} {c : Bool} {b : Uint}

/-- A round of `write_log` that gets to its end. -/
theorem writeLog_round_ok (h : Linked L p s (.empty pins lh k c)) {as : List Act}
    (hx : (breadActs .a (logSlot L.start k) ++ breadActs .b b ++ as).foldlM (fun s a => s.exec L p a) s = .ok t) :
    b ≠ logSlot L.start k ∧ (NBUF ≤ pins.length → logSlot L.start k ∈ pins) := by
  obtain ⟨u, hu, -⟩ := foldlM_append hx
  obtain ⟨u₁, hu₁, hu₂⟩ := foldlM_append hu
  have hlinked : Linked L p u₁ (.still (hands (some (logSlot L.start k, .clean)) none) pins lh k c) :=
    h.run (breadFirst_moves False.elim) hu₁
  obtain ⟨v₁, hv₁, -⟩ := foldlM_cons hu₁
  obtain ⟨v₂, hv₂, hv₃⟩ := foldlM_cons hu₂
  obtain ⟨v₃, hv₃, -⟩ := foldlM_cons hv₃
  refine ⟨?_, fun hfull => ?_⟩
  · have hmove : Move L False (.still (hands (some (logSlot L.start k, .clean)) none) pins lh k c) (.bget b) _ := .bget False.elim
    exact ne_of_acquiresleep (hlinked.step hmove hv₂) rfl hv₃
  · have hpins : s.pins = pins := h.link.pins
    rw [← hpins] at hfull ⊢
    exact mem_pins_of_bget h.good hfull hv₁

/-- The loop of `write_log` when it gets to its end. -/
theorem writeLog_ok {bs : List Uint} (hbs : lh.drop k = bs) (hmem : ∀ b ∈ lh, b ∈ pins)
    (h : Linked L p s (.empty pins lh k c))
    (hx : (writeLogActs L.start k bs).foldlM (fun s a => s.exec L p a) s = .ok t) :
    ∀ n b, k ≤ n → lh[n]? = some b → b ≠ logSlot L.start n ∧ (NBUF ≤ pins.length → logSlot L.start n ∈ pins) := by
  induction bs generalizing k s with
  | nil =>
    intro n b hn hb
    have hlt := (List.getElem?_eq_some_iff.1 hb).1
    have := drop_eq_nil_iff.1 hbs
    omega
  | cons x bs ih =>
    obtain ⟨hk, hx', hdrop⟩ := LogAux.drop_eq_cons hbs
    have hxk := List.getElem?_eq_some_iff.2 ⟨hk, hx'⟩
    obtain ⟨u, hu, hrest⟩ := foldlM_append hx
    have hround : Run (Move L False) (.empty pins lh k c) _ (.empty pins lh (k + 1) c) :=
      writeLog_round hxk (hmem x (mem_of_getElem? hxk)) False.elim
    have hlinked := h.run hround hu
    intro n b hn hb
    by_cases hnk : n = k
    · subst hnk
      obtain rfl := Option.some.inj (hxk.symm.trans hb)
      simp only [append_assoc] at hu
      rw [← append_assoc] at hu
      exact writeLog_round_ok h hu
    · exact ih hdrop hlinked hrest n b (by omega) hb

end

/-! ## The state in which `commit` is called -/

/-- The header and the copies in the log are more blocks than there are buffers. -/
theorem not_all_pinned {pins : List Uint} {start : Uint} (hlen : pins.length ≤ LOGBLOCKS) (hstart : start ∈ pins) :
    ∃ n < LOGBLOCKS, logSlot start n ∉ pins := by
  by_contra hall
  have hall : ∀ n < LOGBLOCKS, logSlot start n ∈ pins := fun n hn => by
    by_contra hne
    exact hall ⟨n, hn, hne⟩
  have hnodup : (start :: (range LOGBLOCKS).map (logSlot start)).Nodup := by
    refine nodup_cons.2 ⟨fun hmem => ?_, ?_⟩
    · obtain ⟨n, hn, heq⟩ := mem_map.1 hmem
      exact LogAux.logSlot_ne_start start n (mem_range.1 hn) heq
    · refine nodup_range.map_on fun m hm n hn heq => ?_
      exact LogAux.logSlot_inj start (mem_range.1 hm) (mem_range.1 hn) heq
  have hsub : start :: (range LOGBLOCKS).map (logSlot start) ⊆ pins := fun b hb => by
    rcases mem_cons.1 hb with rfl | hb
    · exact hstart
    · obtain ⟨n, hn, rfl⟩ := mem_map.1 hb
      exact hall n (mem_range.1 hn)
  have hle := (hnodup.subperm hsub).length_le
  rw [length_cons, length_map, length_range] at hle
  omega

end BioAux

end Xv6.Bio
