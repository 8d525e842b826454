import Xv6.Lemmas.Umalloc

/-!
# What `malloc` takes from the free list

`morecore` puts a new block on the list if the number of bytes fits an `int`; `malloc` goes round the list until it comes to a block
that is large enough, asking for more memory whenever it has been round. It always comes to an end, since memory does.
-/

namespace Xv6.Umalloc

open Lib List

open Vm (TRAPFRAME TRAMPOLINE MAXVA PGSIZE u64 pgroundup)

namespace UmallocAux

variable {s t u : Heap} {lo p q bp a n : Nat} {l l' v w : List Nat} {grant : Nat → Bool} {nu nunits : Uint} {todo : List Nat}
  {l'' : List Nat} {nbytes : Uint}

/-- The list has changed, and segments that were clear of it have been left alone. -/
structure Safe (lo : Nat) (s : Heap) (l : List Nat) (t : Heap) (l' : List Nat) : Prop where
  free : Free lo t l'
  base : t.base = s.base
  brk : s.brk ≤ t.brk
  keep : ∀ a n, 0 < n → lo ≤ a → a + n ≤ s.brk → Clear s l a n → t.mem a = s.mem a ∧ Clear t l' a n

theorem Safe.refl (h : Free lo s l) : Safe lo s l s l := ⟨h, rfl, le_rfl, fun _ _ _ _ _ hc => ⟨rfl, hc⟩⟩

theorem Safe.trans (h : Safe lo s l t l') (h' : Safe lo t l' u l'') : Safe lo s l u l'' := by
  refine ⟨h'.free, h'.base.trans h.base, h.brk.trans h'.brk, fun a n hn hlo hhi hc => ?_⟩
  obtain ⟨hmem, hclear⟩ := h.keep a n hn hlo hhi hc
  obtain ⟨hmem', hclear'⟩ := h'.keep a n hn hlo (hhi.trans h.brk) hclear
  exact ⟨hmem'.trans hmem, hclear'⟩

/-! ## `morecore` -/

theorem coreUnits_toNat (nu : Uint) : (coreUnits nu).toNat = max nu.toNat 4096 := by
  unfold coreUnits
  split
  · next hlt => rw [max_eq_right (by omega)]; rfl
  · next hge => rw [max_eq_left (by omega)]

/-- The argument of `sbrk` is what is meant. -/
theorem coreArg_eq (h : nu.toNat < 2 ^ 27) : coreArg nu = ((coreUnits nu).toNat * HEADER : Nat) := by
  have hunits := coreUnits_toNat nu
  unfold coreArg HEADER
  rw [BitVec.toInt_eq_toNat_cond, BitVec.toNat_ofNat]
  have hmod : (coreUnits nu).toNat * 16 % 2 ^ 32 = (coreUnits nu).toNat * 16 := Nat.mod_eq_of_lt (by omega)
  rw [hmod, if_pos (by omega)]

theorem sbrk_wp (h : s.brk ≤ TRAPFRAME) (hn : n < 2 ^ 31) (hpos : 0 < n) :
    Wp (fun _ => False) (sbrk grant n) s fun r t => r = none ∧ t = s ∨ r = some s.brk ∧ s.brk + n ≤ TRAPFRAME ∧ t = s.withBrk (s.brk + n) := by
  have hsum : u64 (s.brk + (n : Int)) = s.brk + n := by
    unfold u64
    rw [← Int.natCast_add, Int.emod_eq_of_lt (Int.natCast_nonneg _), Int.toNat_natCast]
    simp only [TRAPFRAME, TRAMPOLINE, MAXVA, PGSIZE] at h
    omega
  unfold Wp sbrk
  rw [if_pos (by omega), hsum]
  by_cases hfail : TRAPFRAME < s.brk + n ∨ grant s.brk = false
  · rw [if_pos hfail]
    exact .inl ⟨rfl, rfl⟩
  · rw [if_neg hfail]
    exact .inr ⟨rfl, not_lt.1 fun hlt => hfail (.inl hlt), rfl⟩

theorem sbrk_refuses {n : Int} (h : s.Refuses grant n) : sbrk grant n s = .ok (none, s) := by
  unfold sbrk
  rw [if_pos h.1, if_pos h.2]

/-- The new memory as a block. -/
theorem Free.grow (h : Free lo s l) {units : Uint} (hunits : 1 ≤ units.toNat) (htop : s.brk + units.toNat * HEADER ≤ TRAPFRAME)
    (ht : t = (s.withBrk (s.brk + units.toNat * HEADER)).withSize s.brk units) :
    Free lo t l ∧ Loose lo t l s.brk ∧ (∀ x, x ≠ s.brk → t.mem x = s.mem x) ∧ t.base = s.base := by
  have hself : (t.mem s.brk).size = units := by rw [ht, withSize_self]
  have hmem : ∀ x, x ≠ s.brk → t.mem x = s.mem x := fun x hx => by
    rw [ht, withSize_of_ne hx]
    rfl
  have hbrk : t.brk = s.brk + units.toNat * HEADER := by rw [ht]; rfl
  have hbase : t.base = s.base := by rw [ht]; rfl
  have hfreep : t.freep = s.freep := by rw [ht]; rfl
  have hstart := h.start
  have hnode : ∀ x ∈ s.base :: l, x ≠ s.brk := by
    intro x hx
    rcases mem_cons.1 hx with rfl | hx
    · exact (h.base_lt hstart).ne
    · have := (h.bound hx).2
      unfold HEADER at this
      omega
  have hlen : ∀ x ∈ l, len t x = len s x := fun x hx => len_congr (hmem x (hnode x (mem_cons_of_mem _ hx)))
  have hspaced : Spaced (len t) lo s.brk l := h.spaced.shrink fun x hx => (hlen x hx).le
  refine ⟨⟨hbase ▸ h.pos, hbase ▸ h.below, by omega, hbrk ▸ htop, ?_, ?_, hspaced.mono (by omega), by rw [hfreep, hbase]; exact h.freep⟩,
    ⟨hstart, ?_, by rw [hself]; exact hunits, fun x hx => .inl ?_⟩, hmem, hbase⟩
  · rw [hbase]
    refine h.links.congr fun y hy => ?_
    unfold next
    rw [hmem y (hnode y hy)]
  · rw [hbase, hmem _ (hnode _ mem_cons_self)]
    exact h.empty
  · rw [hbrk, len_eq (by rw [hself]; exact hunits), hself]
  · exact (hspaced.bound x hx).2

/-- What `morecore` does to the list: a block is made of the new memory, and freed. -/
def Grown (lo : Nat) (nu : Uint) (s : Heap) (l : List Nat) (t : Heap) (l' : List Nat) : Prop :=
  ∃ g, Free lo g l ∧ Loose lo g l s.brk ∧ (∀ x, x ≠ s.brk → g.mem x = s.mem x) ∧ (g.mem s.brk).size = coreUnits nu ∧
    Joined g l s.brk t l' ∧ t.brk = s.brk + (coreUnits nu).toNat * HEADER

theorem morecore_wp (h : Free lo s l) (hnu : nu.toNat < 2 ^ 27) : Wp (fun _ => False) (morecore grant nu) s fun r t =>
    r = 0 ∧ t = s ∨ r = t.freep ∧ s.brk < t.brk ∧ ∃ l', Safe lo s l t l' ∧ Grown lo nu s l t l' := by
  have hunits := coreUnits_toNat nu
  unfold morecore
  rw [coreArg_eq hnu]
  refine (sbrk_wp h.top (by unfold HEADER; omega) (by unfold HEADER; omega)).bind ?_
  rintro r t (⟨rfl, rfl⟩ | ⟨rfl, htop, rfl⟩)
  · exact Wp.pure (.inl ⟨rfl, rfl⟩)
  · have hmapped : (s.withBrk (s.brk + (coreUnits nu).toNat * HEADER)).Mapped s.brk := mapped htop (by
      show s.brk + HEADER ≤ s.brk + _
      unfold HEADER
      omega)
    refine Wp.bind_eq (setSize_eq hmapped) ?_
    obtain ⟨hfree, hloose, hmem, hbase⟩ := h.grow (by omega) htop rfl
    refine (free_joins_wp hfree hloose).bind ?_
    rintro _ u ⟨l', hu, hjoined⟩
    have hbrk : u.brk = s.brk + (coreUnits nu).toNat * HEADER := hu.brk
    refine Wp.of_eq (show getFreep u = .ok (u.freep, u) from rfl) (.inr ⟨rfl, by unfold HEADER at hbrk; omega, l',
      ⟨hu.free, hu.base.trans hbase, by omega, fun a n hn hlo hhi hc => ?_⟩, _, hfree, hloose, hmem, by rw [withSize_self], hjoined, hbrk⟩)
    have hclear : Clear ((s.withBrk (s.brk + (coreUnits nu).toNat * HEADER)).withSize s.brk (coreUnits nu)) l a n := fun x hx => by
      rw [len_congr (hmem x ?_)]
      · exact hc x hx
      · have := (h.bound hx).2
        unfold HEADER at this
        omega
    obtain ⟨hkeep, hclear'⟩ := hu.keep a n hn hlo hclear (.inr hhi)
    exact ⟨hkeep.trans (hmem a (by omega)), hclear'⟩

/-! ## Taking a block -/

/-- A block has been taken from the list, clear of what was held before. -/
structure Taken (lo : Nat) (nunits : Uint) (s : Heap) (l : List Nat) (a : Nat) (t : Heap) (l' : List Nat) : Prop where
  ge : lo ≤ a
  le : a + nunits.toNat * HEADER ≤ t.brk
  size : (t.mem a).size = nunits
  clear : Clear t l' a (nunits.toNat * HEADER)
  apart : ∀ b m, 0 < m → lo ≤ b → b + m ≤ s.brk → Clear s l b m → Apart a (nunits.toNat * HEADER) b m

/-- A block of the list that is not `base`, and the one before it. -/
theorem Free.pred (h : Free lo s l) (hq : q ∈ s.base :: l) (hp : next s q = p) (hne : p ≠ s.base) :
    ∃ u v, l = u ++ p :: v ∧ u.getLastD s.base = q ∧ Linked (next s) p v s.base := by
  obtain ⟨u, v, hl, hlast⟩ := exists_split hq
  have htail := h.links
  rw [hl] at htail
  have htail := htail.tail
  rw [hlast] at htail
  cases v with
  | nil => exact absurd (hp.symm.trans htail) hne
  | cons y v =>
    obtain rfl : y = p := htail.1.symm.trans hp
    exact ⟨u, v, hl, hlast, htail.2⟩

/-- The whole block is taken. -/
theorem Free.unlink {u v : List Nat} (h : Free lo s l) (hl : l = u ++ p :: v) (hlast : u.getLastD s.base = q) (htail : Linked (next s) p v s.base)
    (hbrk : t.brk = s.brk) (hbase : t.base = s.base) (hfreep : t.freep = q) (hself : t.mem q = ⟨(s.mem p).ptr, (s.mem q).size⟩)
    (hmem : ∀ x, x ≠ q → t.mem x = s.mem x) : Safe lo s l t (u ++ v) ∧ p ≠ q ∧ Clear t (u ++ v) p (len s p) := by
  have hnodup := h.nodup
  rw [hl, ← cons_append, nodup_append] at hnodup
  obtain ⟨hnodup, hpv, hdisj⟩ := hnodup
  have hqu : q ∈ s.base :: u := hlast ▸ getLastD_mem_cons
  have hlen : ∀ x, len t x = len s x := by
    intro x
    by_cases hx : x = q
    · unfold len
      rw [hx, hself]
    · exact len_congr (hmem x hx)
  have hsub : (u ++ v).Sublist l := by
    rw [hl]
    exact (List.Sublist.refl u).append (sublist_cons_self p v)
  have hlinks := h.links
  rw [hl] at hlinks
  have hring : Linked (next t) s.base (u ++ v) s.base := by
    refine hlinks.splice hnodup (fun y hy hyq => ?_) ?_
    · rw [hlast] at hyq
      unfold next
      rw [hmem y hyq]
    · rw [hlast]
      refine htail.start ?_ fun y hy => ?_
      · unfold next
        rw [hself]
      · unfold next
        rw [hmem y fun heq => hdisj q hqu y (mem_cons_of_mem p hy) heq.symm]
  refine ⟨⟨⟨hbase ▸ h.pos, hbase ▸ h.below, hbrk ▸ h.start, hbrk ▸ h.top, hbase ▸ hring, ?_, ?_, ?_⟩, hbase, hbrk.ge, fun a n hn hlo _ hc => ?_⟩, ?_,
    fun x hx => ?_⟩
  · rw [hbase]
    by_cases hq : s.base = q
    · rw [hq, hself, ← hq]
      exact h.empty
    · rw [hmem _ hq]
      exact h.empty
  · rw [hbrk]
    exact (h.spaced.sublist hsub).shrink fun x _ => (hlen x).le
  · rw [hfreep, hbase, ← cons_append]
    exact mem_append_left v hqu
  · refine ⟨hmem a ?_, fun x hx => by rw [hlen]; exact hc x (hsub.subset hx)⟩
    rintro rfl
    refine h.notMem hlo hn hc ?_
    rw [hl, ← cons_append]
    exact mem_append_left _ hqu
  · exact fun heq => hdisj q hqu p mem_cons_self heq.symm
  · rw [hlen]
    refine h.spaced.apart (hsub.subset hx) (hl ▸ mem_append_right u mem_cons_self) ?_
    rintro rfl
    rcases mem_append.1 hx with hx | hx
    · exact hdisj x (mem_cons_of_mem _ hx) x mem_cons_self rfl
    · exact (nodup_cons.1 hpv).1 hx

/-- The last part of a block is taken. -/
theorem Free.cut {m : Nat} (h : Free lo s l) (hpl : p ∈ l) (hq : q ∈ s.base :: l) (hm : 0 < m) (hcut : p + m * HEADER = a) (hn : 0 < n)
    (hplen : len s p = m * HEADER + n) (hbrk : t.brk = s.brk) (hbase : t.base = s.base) (hfreep : t.freep = q) (hptr : (t.mem p).ptr = (s.mem p).ptr)
    (hsize : (t.mem p).size.toNat = m) (hmem : ∀ x, x ≠ p → x ≠ a → t.mem x = s.mem x) : Safe lo s l t l ∧ Clear t l a n := by
  have hplen' : len t p = m * HEADER := by rw [len_eq (by omega), hsize]
  have hout : ∀ x ∈ l, x ≠ p → x ≠ a := by
    intro x hx hxp
    have := h.spaced.apart hx hpl hxp
    have := le_len s x
    unfold Apart HEADER at *
    omega
  have hlen : ∀ x ∈ l, x ≠ p → len t x = len s x := fun x hx hxp => len_congr (hmem x hxp (hout x hx hxp))
  have hle : ∀ x ∈ l, len t x ≤ len s x := by
    intro x hx
    by_cases hxp : x = p
    · rw [hxp, hplen', hplen]
      omega
    · exact (hlen x hx hxp).le
  have hplo := (h.bound hpl).1
  have hbasemem : t.mem s.base = s.mem s.base := by
    refine hmem _ (h.base_lt hplo).ne ?_
    have := h.base_lt hplo
    omega
  refine ⟨⟨⟨hbase ▸ h.pos, hbase ▸ h.below, hbrk ▸ h.start, hbrk ▸ h.top, ?_, by rw [hbase, hbasemem]; exact h.empty, ?_, by rw [hfreep, hbase]; exact hq⟩,
    hbase, hbrk.ge, fun b k hk hlo _ hc => ⟨hmem b ?_ ?_, fun x hx => ?_⟩⟩, fun x hx => ?_⟩
  · rw [hbase]
    refine h.links.congr fun y hy => ?_
    unfold next
    rcases mem_cons.1 hy with rfl | hy
    · rw [hbasemem]
    · by_cases hyp : y = p
      · rw [hyp, hptr]
      · rw [hmem y hyp (hout y hy hyp)]
  · rw [hbrk]
    exact h.spaced.shrink hle
  · rintro rfl
    exact h.notMem hlo hk hc (mem_cons_of_mem _ hpl)
  · rintro rfl
    have := hc p hpl
    unfold Apart HEADER at *
    omega
  · have := hc x hx
    have := hle x hx
    unfold Apart at *
    omega
  · by_cases hxp : x = p
    · refine .inl ?_
      rw [hxp, hplen']
      exact hcut.le
    · have := h.spaced.apart hx hpl hxp
      rw [hlen x hx hxp]
      unfold Apart at *
      omega

/-- What taking a block does to the list: it is taken off, or made shorter. -/
def Carved (nunits : Uint) (s : Heap) (l : List Nat) (t : Heap) (l' : List Nat) : Prop :=
  t.brk = s.brk ∧ ((∃ u p v, l = u ++ p :: v ∧ l' = u ++ v ∧ (s.mem p).size = nunits ∧ ∀ x, (t.mem x).size = (s.mem x).size) ∨
    ∃ p ∈ l, l' = l ∧ nunits.toNat < (s.mem p).size.toNat ∧ (t.mem p).size.toNat = (s.mem p).size.toNat - nunits.toNat ∧
      ∀ x ∈ l, x ≠ p → (t.mem x).size = (s.mem x).size)

theorem carve_wp (h : Free lo s l) (hq : q ∈ s.base :: l) (hp : next s q = p) (hpos : 1 ≤ nunits.toNat) (hfit : nunits.toNat ≤ (s.mem p).size.toNat) :
    Wp (fun _ => False) (carve nunits q p (s.mem p)) s fun ap t =>
      ∃ a l', ap = a + HEADER ∧ Safe lo s l t l' ∧ Taken lo nunits s l a t l' ∧ Carved nunits s l t l' := by
  have hne : p ≠ s.base := by
    rintro rfl
    rw [h.empty] at hfit
    exact absurd (hpos.trans hfit) (by decide)
  obtain ⟨u, v, hl, hlast, htail⟩ := h.pred hq hp hne
  have hpl : p ∈ l := hl ▸ mem_append_right u mem_cons_self
  have hplen : len s p = (s.mem p).size.toNat * HEADER := len_eq (hpos.trans hfit)
  have hpmap := h.mapped_node (mem_cons_of_mem _ hpl)
  obtain ⟨hplo, hphi⟩ := h.spaced.bound p hpl
  unfold carve
  by_cases hexact : (s.mem p).size = nunits
  · rw [if_pos hexact]
    refine Wp.bind_eq (setPtr_eq (h.mapped_node hq)) (Wp.of_eq (t := (s.withPtr q (s.mem p).ptr).withFreep q) rfl ⟨p, u ++ v, rfl, ?_⟩)
    obtain ⟨hsafe, hpq, hclear⟩ := h.unlink (t := (s.withPtr q (s.mem p).ptr).withFreep q) hl hlast htail rfl rfl rfl withPtr_self
      fun x hx => withPtr_of_ne hx
    rw [hplen, hexact] at hclear hphi
    have hsize : ∀ x, ((s.withPtr q (s.mem p).ptr).mem x).size = (s.mem x).size := by
      intro x
      by_cases hx : x = q
      · rw [hx, withPtr_self]
      · rw [withPtr_of_ne hx]
    refine ⟨hsafe, ⟨hplo, hphi, (hsize p).trans hexact, hclear, fun b m _ _ _ hc => ?_⟩, rfl, .inl ⟨u, p, v, hl, rfl, hexact, hsize⟩⟩
    have := hc p hpl
    rw [hplen, hexact] at this
    exact this
  · rw [if_neg hexact]
    have hrest : ((s.mem p).size - nunits).toNat = (s.mem p).size.toNat - nunits.toNat := BitVec.toNat_sub_of_le (BitVec.le_def.2 hfit)
    have hless : nunits.toNat < (s.mem p).size.toNat := by
      refine Nat.lt_of_le_of_ne hfit fun heq => hexact (BitVec.eq_of_toNat_eq heq.symm)
    generalize ha : after p ((s.mem p).size - nunits) = a
    have ha' : p + ((s.mem p).size.toNat - nunits.toNat) * HEADER = a := by rw [← hrest]; exact ha
    have hparts : len s p = ((s.mem p).size.toNat - nunits.toNat) * HEADER + nunits.toNat * HEADER := by
      rw [hplen, ← Nat.add_mul]
      congr 1
      omega
    have hpa : p ≠ a := by
      unfold HEADER at ha'
      omega
    have hamap : (s.withSize p ((s.mem p).size - nunits)).Mapped a := mapped h.top (by
      show a + HEADER ≤ s.brk
      unfold HEADER at *
      omega)
    refine Wp.bind_eq (setSize_eq hpmap) (Wp.bind_eq (setSize_eq hamap) ?_)
    generalize ht : ((s.withSize p ((s.mem p).size - nunits)).withSize a nunits).withFreep q = t
    refine Wp.of_eq (t := t) (by rw [← ht]; rfl) ⟨a, l, rfl, ?_⟩
    have hself : t.mem p = ⟨(s.mem p).ptr, (s.mem p).size - nunits⟩ := by
      rw [← ht]
      show ((s.withSize p _).withSize a nunits).mem p = _
      rw [withSize_of_ne hpa, withSize_self]
    have hmema : (t.mem a).size = nunits := by
      rw [← ht]
      show (((s.withSize p _).withSize a nunits).mem a).size = _
      rw [withSize_self]
    have hmem : ∀ x, x ≠ p → x ≠ a → t.mem x = s.mem x := fun x hxp hxa => by
      rw [← ht]
      show ((s.withSize p _).withSize a nunits).mem x = _
      rw [withSize_of_ne hxa, withSize_of_ne hxp]
    have hbrk : t.brk = s.brk := by rw [← ht]; rfl
    obtain ⟨hsafe, hclear⟩ := h.cut hpl hq (show 0 < (s.mem p).size.toNat - nunits.toNat by omega) ha' (by unfold HEADER; omega) hparts hbrk
      (by rw [← ht]; rfl) (by rw [← ht]; rfl) (by rw [hself]) (by rw [hself]; exact hrest) hmem
    refine ⟨hsafe, ⟨by omega, by rw [hbrk]; omega, hmema, hclear, fun b m _ _ _ hc => ?_⟩,
      hbrk, .inr ⟨p, hpl, rfl, hless, by rw [hself]; exact hrest, fun x hx hxp => ?_⟩⟩
    · have := hc p hpl
      unfold Apart at *
      omega
    · -- the new block starts inside the old one
      have hxa : x ≠ a := by
        have := h.spaced.apart hx hpl hxp
        have := le_len s x
        unfold Apart HEADER at *
        omega
      rw [hmem x hxp hxa]

/-! ## `malloc` -/

/-- What `malloc` returns: 0, or the place behind the header of a block it has taken. -/
def Got (lo : Nat) (nunits : Uint) (s : Heap) (l : List Nat) (ap : Nat) (t : Heap) : Prop :=
  ∃ l', Safe lo s l t l' ∧ (ap = 0 ∨ ∃ a, ap = a + HEADER ∧ Taken lo nunits s l a t l')

theorem Taken.of_safe (h : Safe lo s l t l') (ht : Taken lo nunits t l' a u l'') : Taken lo nunits s l a u l'' := by
  refine ⟨ht.ge, ht.le, ht.size, ht.clear, fun b m hm hlo hhi hc => ?_⟩
  exact ht.apart b m hm hlo (hhi.trans h.brk) (h.keep b m hm hlo hhi hc).2

/-- How `malloc` gets there: it finds nothing, or takes a block, or gets more memory and goes on. -/
inductive Mallocs (lo : Nat) (nunits : Uint) : Heap → List Nat → Nat → Heap → List Nat → Prop where
  | null {s : Heap} {l : List Nat} : Mallocs lo nunits s l 0 s l
  | take {s t : Heap} {l l' : List Nat} {a : Nat} :
      Safe lo s l t l' → Taken lo nunits s l a t l' → Carved nunits s l t l' → Mallocs lo nunits s l (a + HEADER) t l'
  | more {s t u : Heap} {l l' l'' : List Nat} {ap : Nat} : (∀ x ∈ s.base :: l, (s.mem x).size.toNat < nunits.toNat) →
      Safe lo s l t l' → Grown lo nunits s l t l' → Mallocs lo nunits t l' ap u l'' → Mallocs lo nunits s l ap u l''

theorem Mallocs.safe {ap : Nat} (h : Mallocs lo nunits s l ap t l') (hfree : Free lo s l) :
    Safe lo s l t l' ∧ (ap = 0 ∨ ∃ a, ap = a + HEADER ∧ Taken lo nunits s l a t l') := by
  induction h with
  | null => exact ⟨.refl hfree, .inl rfl⟩
  | take hsafe htaken _ => exact ⟨hsafe, .inr ⟨_, rfl, htaken⟩⟩
  | more _ hsafe _ _ ih =>
    obtain ⟨hsafe', hap⟩ := ih hsafe.free
    refine ⟨hsafe.trans hsafe', hap.imp_right ?_⟩
    rintro ⟨a, rfl, ht⟩
    exact ⟨a, rfl, ht.of_safe hsafe⟩

/-- The request can be met: the number of bytes fits an `int`, or a block of the list is large enough, or `sbrk` refuses. -/
def Asks (grant : Nat → Bool) (nunits : Uint) (s : Heap) (l : List Nat) : Prop :=
  nunits.toNat < 2 ^ 27 ∨ (∃ x ∈ s.base :: l, nunits.toNat ≤ (s.mem x).size.toNat) ∨ s.Refuses grant (coreArg nunits)

/-- Where `malloc` is on its way round: `todo` are the blocks it has not seen, before it comes to `freep` again. -/
structure Round (nunits : Uint) (s : Heap) (l : List Nat) (prevp : Nat) (todo : List Nat) : Prop where
  mem : prevp ∈ s.base :: l
  links : Linked (next s) prevp todo s.freep
  sub : ∀ x ∈ todo, x ∈ s.base :: l
  fresh : s.freep ∉ todo
  seen : ∀ x ∈ s.base :: l, x ∈ todo ∨ x = s.freep ∨ (s.mem x).size.toNat < nunits.toNat

/-- The start of a round. -/
theorem Free.round (h : Free lo s l) (nunits : Uint) : ∃ todo, Round nunits s l s.freep todo ∧ todo.length = l.length := by
  obtain ⟨m, hm, hperm⟩ := h.fromFreep
  have hlen := hperm.length_eq
  rw [length_cons, length_cons] at hlen
  refine ⟨m, ⟨h.freep, hm, fun x hx => hperm.mem_iff.1 (mem_cons_of_mem _ hx), ?_, fun x hx => ?_⟩, by omega⟩
  · exact (nodup_cons.1 (hperm.nodup_iff.2 h.nodup)).1
  · rcases mem_cons.1 (hperm.mem_iff.2 hx) with rfl | hx
    · exact .inr (.inl rfl)
    · exact .inl hx

/-- How many blocks may still be looked at. -/
def budget (s : Heap) (todo : List Nat) : Nat := todo.length + (TRAPFRAME - s.brk) * TRAPFRAME

/-- New memory pays for another round. -/
theorem budget_round (h : Free lo t l) (hbrk : s.brk < t.brk) (hlen : todo.length = l.length) : budget t todo < budget s [] := by
  have hlt := h.length_lt
  have htop := h.top
  unfold budget
  obtain ⟨k, hk⟩ : ∃ k, TRAPFRAME - s.brk = TRAPFRAME - t.brk + 1 + k := ⟨TRAPFRAME - s.brk - (TRAPFRAME - t.brk + 1), by omega⟩
  rw [hk, Nat.add_mul, Nat.add_mul, Nat.one_mul, hlen, length_nil]
  omega

theorem mallocLoop_wp (fuel : Nat) {prevp : Nat} (h : Free lo s l) (hpos : 1 ≤ nunits.toNat) (hround : Round nunits s l prevp todo)
    (hfuel : budget s todo < fuel) (hask : Asks grant nunits s l) :
    Wp (fun _ => False) (mallocLoop grant nunits fuel prevp (next s prevp)) s fun ap t => ∃ l', Mallocs lo nunits s l ap t l' := by
  induction fuel generalizing s l prevp todo with
  | zero => exact absurd hfuel (Nat.not_lt_zero _)
  | succ fuel ih =>
    have hnext := hround.links.next_eq
    have hmem : next s prevp ∈ s.base :: l := by
      rw [hnext]
      cases todo with
      | nil => exact h.freep
      | cons x todo => exact hround.sub x mem_cons_self
    refine Wp.bind_eq (load_eq (h.mapped_node hmem)) ?_
    by_cases hfit : nunits.toNat ≤ (s.mem (next s prevp)).size.toNat
    · rw [if_pos hfit]
      refine (carve_wp h hround.mem rfl hpos hfit).mono ?_
      rintro ap t ⟨a, l', rfl, hsafe, htaken, hcarved⟩
      exact ⟨l', .take hsafe htaken hcarved⟩
    · rw [if_neg hfit]
      refine Wp.bind_eq (show getFreep s = .ok (s.freep, s) from rfl) ?_
      cases todo with
      | cons x todo =>
        -- the next block, which is not `freep`
        obtain ⟨hx, hlinks⟩ := hround.links
        rw [hx] at hfit hmem ⊢
        have hne : x ≠ s.freep := by
          rintro rfl
          exact hround.fresh mem_cons_self
        rw [if_neg hne]
        refine ih h ⟨hmem, hlinks, fun y hy => hround.sub y (mem_cons_of_mem x hy), fun hf => hround.fresh (mem_cons_of_mem x hf), fun y hy => ?_⟩
          ?_ hask
        · rcases hround.seen y hy with hy | hy
          · rcases mem_cons.1 hy with rfl | hy
            · exact .inr (.inr (not_le.1 hfit))
            · exact .inl hy
          · exact .inr hy
        · unfold budget at *
          rw [length_cons] at hfuel
          omega
      | nil =>
        -- all blocks have been seen
        have hx : next s prevp = s.freep := hround.links
        rw [hx] at hfit ⊢
        rw [if_pos rfl]
        have hsmall : ∀ x ∈ s.base :: l, (s.mem x).size.toNat < nunits.toNat := by
          intro x hxl
          rcases hround.seen x hxl with hnil | rfl | hlt
          · exact absurd hnil not_mem_nil
          · exact not_le.1 hfit
          · exact hlt
        have hcore : Wp (fun _ => False) (morecore grant nunits) s fun r t =>
            r = 0 ∧ t = s ∨ r = t.freep ∧ s.brk < t.brk ∧ nunits.toNat < 2 ^ 27 ∧ ∃ l', Safe lo s l t l' ∧ Grown lo nunits s l t l' := by
          rcases hask with hint | ⟨x, hxl, hle⟩ | hrefuse
          · refine (morecore_wp h hint).mono fun r t ht => ht.imp_right ?_
            rintro ⟨hr, hbrk, hl'⟩
            exact ⟨hr, hbrk, hint, hl'⟩
          · exact absurd (hsmall x hxl) (not_lt.2 hle)
          · exact Wp.bind_eq (sbrk_refuses hrefuse) (Wp.pure (.inl ⟨rfl, rfl⟩))
        refine hcore.bind ?_
        rintro r t (⟨rfl, rfl⟩ | ⟨rfl, hbrk, hint, l', hsafe, hgrown⟩)
        · rw [if_pos rfl]
          exact Wp.pure ⟨l, .null⟩
        · rw [if_neg hsafe.free.freep_ne]
          refine Wp.bind_eq (load_eq (hsafe.free.mapped_node hsafe.free.freep)) ?_
          obtain ⟨todo, hround', hlen⟩ := hsafe.free.round nunits
          have hpay := budget_round hsafe.free hbrk hlen
          refine (ih hsafe.free hround' (by omega) (.inl hint)).mono ?_
          rintro ap u ⟨l'', hu⟩
          exact ⟨l'', .more hsmall hsafe hgrown hu⟩

theorem units_toNat (nbytes : Uint) : (units nbytes).toNat = (nbytes.toNat + HEADER - 1) / HEADER + 1 := by
  have := nbytes.isLt
  unfold units
  rw [BitVec.toNat_ofNat, Nat.mod_eq_of_lt]
  unfold HEADER
  omega

theorem malloc_steps_wp (h : Free lo s l) (hask : Asks grant (units nbytes) s l) :
    Wp (fun _ => False) (malloc grant nbytes) s fun ap t => ∃ l', Mallocs lo (units nbytes) s l ap t l' := by
  obtain ⟨todo, hround, hlen⟩ := h.round (units nbytes)
  have hlt := h.length_lt
  have hfuel : budget s todo < STEPS := by
    have hle : (TRAPFRAME - s.brk) * TRAPFRAME ≤ TRAPFRAME * TRAPFRAME := Nat.mul_le_mul_right _ (Nat.sub_le ..)
    unfold budget
    simp only [TRAPFRAME, TRAMPOLINE, MAXVA, PGSIZE, STEPS] at *
    omega
  refine Wp.bind_eq (show initList s = .ok ((), s) from if_neg h.freep_ne) ?_
  refine Wp.bind_eq (show getFreep s = .ok (s.freep, s) from rfl) ?_
  refine Wp.bind_eq (load_eq (h.mapped_node h.freep)) ?_
  exact mallocLoop_wp STEPS h (by rw [units_toNat]; exact Nat.le_add_left ..) hround hfuel hask

theorem malloc_wp (h : Free lo s l) (hask : Asks grant (units nbytes) s l) :
    Wp (fun _ => False) (malloc grant nbytes) s fun ap t => Got lo (units nbytes) s l ap t := by
  refine (malloc_steps_wp h hask).mono ?_
  rintro ap t ⟨l', ht⟩
  exact ⟨l', ht.safe h⟩

/-- The first call starts the list, and goes on as every other. -/
theorem initList_eq (hfreep : s.freep = 0) (hpos : 0 < s.base) (hbase : s.base + HEADER ≤ s.brk) (htop : s.brk ≤ TRAPFRAME) :
    ∃ t, initList s = .ok ((), t) ∧ initList t = .ok ((), t) ∧ Free s.brk t [] ∧ t.brk = s.brk := by
  have hmapped := mapped htop hbase
  have hself : (((s.withPtr s.base s.base).withFreep s.base).withSize s.base 0).mem s.base = ⟨s.base, 0⟩ := by
    rw [withSize_self]
    show ({ (s.withPtr s.base s.base).mem s.base with size := 0 } : Header) = _
    rw [withPtr_self]
  have hrun : initList s = .ok ((), ((s.withPtr s.base s.base).withFreep s.base).withSize s.base 0) := by
    unfold initList
    rw [if_pos hfreep, run_bind (setPtr_eq hmapped)]
    exact setSize_eq (s := (s.withPtr s.base s.base).withFreep s.base) hmapped
  refine ⟨_, hrun, if_neg hpos.ne', ⟨hpos, hbase, le_rfl, htop, ?_, ?_, .nil, mem_cons_self⟩, rfl⟩
  · show next _ s.base = s.base
    unfold next
    rw [hself]
  · show (Heap.mem _ s.base).size = 0
    rw [hself]

end UmallocAux

end Xv6.Umalloc
