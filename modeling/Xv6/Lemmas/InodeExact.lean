import Xv6.Lemmas.InodeBytes

/-!
# Writes whose copies fail

When a copy of `writei` fails, what it copied stays in the buffer. That is what a write that reports less than it changed comes from:
the loop leaves alone all bytes past the place where it stopped, and passes all buffers it changed to `log_write`, if and only if no
copy has failed in the middle of a block that was there (`writeiLoop_exact_wp`).
-/

namespace Xv6.Ino

open Lib Function List

open Fs (IType)

/-- The source from byte `m` on. -/
def Source.drop (src : Source) (m : Nat) : Source := ⟨fun k => src.byte (m + k), fun k => src.fails (m + k)⟩

theorem Source.drop_drop (src : Source) (m n : Nat) : (src.drop m).drop n = src.drop (m + n) := by
  simp only [Source.drop, Nat.add_assoc]

namespace InoAux

variable {s t u : State} {i j k b r bn : Nat} {q : Nat × Nat} {src : Source} {off n : Uint} {f : Nat → Byte} {d : Block}
  {rest m size o addr : Nat}

/-- A copy fails so in a call that is still to write the `n` bytes of `src` from `off` on. -/
def Tearing (i size off n : Nat) (src : Source) (s : State) : Prop :=
  ∃ d k j, Torn (fun k => eptr s (i, k)) (ebyte s i) s.logged s.nfree size src off n d k j

/-! ## Parts -/

/-- Only the first part starts within a block. -/
theorem Chunk.le_start {off d : Nat} (h : Chunk off rest m) (hd : 0 < d) (hstart : (off + d) % BSIZE = 0) : m ≤ d := by
  have := h.block
  by_contra hlt
  obtain ⟨-, hmod⟩ := div_mod_add (k := d) h.block (by omega)
  omega

/-- The next part starts a block. -/
theorem Chunk.next {off : Nat} (h : Chunk off rest m) (hlt : m < rest) : (off + m) % BSIZE = 0 := by
  have := h.block
  have := h.full hlt
  simp only [BSIZE] at *
  omega

/-- Places of later parts are in later blocks. -/
theorem Chunk.lt_div {off : Nat} (h : Chunk off rest m) (hlt : m < rest) (ho : off + m ≤ o) : off / BSIZE < o / BSIZE := by
  have := h.full hlt
  have := Nat.div_le_div_right (c := BSIZE) ho
  omega

/-- How the pointers, the bytes and the record of one inode look after a part has been written. -/
structure PartDone (i off m : Nat) (s u : State) : Prop where
  missing : ∀ hi, off / BSIZE < hi → missing (fun k => eptr u (i, k)) (off / BSIZE + 1) hi + need s i (off / BSIZE) =
    missing (fun k => eptr s (i, k)) (off / BSIZE) hi
  nfree : u.nfree + need s i (off / BSIZE) = s.nfree
  ptr : ∀ bn, off / BSIZE < bn → eptr u (i, slot bn) = eptr s (i, slot bn)
  byte : ∀ o, off + m ≤ o → eptr s (i, slot (o / BSIZE)) ≠ 0 → ebyte u i o = ebyte s i o
  logged : ∀ bn, off / BSIZE < bn → eptr s (i, slot bn) ≠ 0 → u.logged (eptr s (i, slot bn)) = s.logged (eptr s (i, slot bn))

theorem Bmapped.partDone {off : Nat} (ht : Bmapped i (off / BSIZE) s addr t) (haddr : addr ≠ 0)
    (hm : m ≤ BSIZE - off % BSIZE) : PartDone i off m s (t.withBlock addr ((t.disk addr).store (off % BSIZE) m f)) := by
  have hptr := ht.ptr haddr
  have hkeep := eptr_withBlock (q := (i, slot (off / BSIZE))) ht.core (slot_ne _) hptr ((t.disk addr).store (off % BSIZE) m f)
  have hsame : ∀ bn, off / BSIZE < bn → eptr t (i, slot bn) = eptr s (i, slot bn) := by
    intro bn hbn
    refine ht.only _ (fun heq => ?_) fun heq => slot_ne bn (Prod.mk.inj heq).2
    have := slot_inj (Prod.mk.inj heq).2
    omega
  refine ⟨fun hi hhi => ?_, ht.nfree haddr, fun bn hbn => ?_, fun o ho hq => ?_, fun bn hbn hq => ?_⟩
  · rw [hkeep]
    refine missing_step hhi (fun hlo hlast => ?_) (fun k hk hk' => ?_) ht.last
    · refine haddr (hptr.symm.trans (Dinode.ptr_of_last hlast ?_))
      unfold slot
      split <;> omega
    · exact ht.only (i, k) (fun heq => hk (Prod.mk.inj heq).2) fun heq => hk' (Prod.mk.inj heq).2
  · rw [hkeep, hsame bn hbn]
  · rw [ht.store haddr hm (.inl hq), if_neg fun hc => absurd hc.2.2 (by omega)]
  · have hne : eptr s (i, slot bn) ≠ addr := by
      intro heq
      have hinj := ht.core.owns.inj (i, slot (off / BSIZE)) (i, slot bn) (by rw [hptr]; exact haddr) (by rw [hsame bn hbn, heq, hptr])
      have := slot_inj (Prod.mk.inj hinj).2
      omega
    exact (update_of_ne hne ..).trans (ht.quiet _ (slot_ne bn) hq)

/-- The parts that start before a later one: those of the rest of the call, and the first one, whose copy succeeds. -/
theorem Chunk.before_iff {off d : Nat} (hc : Chunk off rest m) (hlt : m < rest) (hnone : src.fails 0 = none) :
    (∀ c < m + d, c = 0 ∨ (off + c) % BSIZE = 0 → src.fails c = none) ↔
      ∀ c < d, c = 0 ∨ (off + m + c) % BSIZE = 0 → (src.drop m).fails c = none := by
  constructor
  · intro h c hcd hstart
    refine h (m + c) (by omega) (.inr ?_)
    rw [← Nat.add_assoc]
    rcases hstart with rfl | hstart
    · exact hc.next hlt
    · exact hstart
  · intro h c hcd hstart
    by_cases hc0 : c = 0
    · rw [hc0]
      exact hnone
    · have hle := hc.le_start (by omega) (hstart.resolve_left hc0)
      obtain ⟨c, rfl⟩ := Nat.exists_eq_add_of_le hle
      rw [← Nat.add_assoc] at hstart
      exact h c (by omega) (hstart.imp (by omega) id)

/-- A copy that fails after a part has been written fails in the rest of the call. -/
theorem PartDone.torn_iff {off d : Nat} (hc : Chunk off rest m) (hu : PartDone i off m s u)
    (hnone : src.fails 0 = none) (hlt : m < rest) :
    Torn (fun k => eptr s (i, k)) (ebyte s i) s.logged s.nfree size src off rest (m + d) k j ↔
      Torn (fun k => eptr u (i, k)) (ebyte u i) u.logged u.nfree size (src.drop m) (off + m) (rest - m) d k j := by
  have hpos := hc.pos
  have hnext := hc.next hlt
  have hbefore := hc.before_iff (d := d) hlt hnone
  have hdiv := hc.lt_div hlt (Nat.le_add_right (off + m) d)
  have hptr := hu.ptr _ hdiv
  have hlog := hu.logged _ hdiv
  have hmissing := hu.missing _ hdiv
  have hnfree := hu.nfree
  have hplace : (off + m + d) % BSIZE + j < BSIZE → (off + m + d + j) / BSIZE = (off + m + d) / BSIZE :=
    fun hj => (div_mod_add (k := j) (m := BSIZE - (off + m + d) % BSIZE) le_rfl (by omega)).1
  have hbyte : (off + m + d) % BSIZE + j < BSIZE → eptr s (i, slot ((off + m + d) / BSIZE)) ≠ 0 →
      ebyte u i (off + m + d + j) = ebyte s i (off + m + d + j) :=
    fun hj hq => hu.byte _ (by omega) (by rw [hplace hj]; exact hq)
  have hsrc : src.byte (m + d + j) = (src.drop m).byte (d + j) := by
    rw [Nat.add_assoc]
    rfl
  constructor
  · rintro ⟨hpart, hb, hroom, hfails, hthere, hcopied, hdiffers, hseen⟩
    rw [← Nat.add_assoc] at hpart hroom hthere hcopied hdiffers hseen
    refine ⟨⟨by omega, hpart.2.imp (by omega) id⟩, hbefore.1 hb, ?_, hfails, ?_, ⟨hcopied.1, by omega, hcopied.2.2⟩, ?_, ?_⟩
    · rw [hc.full hlt]
      omega
    · rw [hptr]
      exact hthere
    · rw [hbyte hcopied.2.2 hthere, ← hsrc]
      exact hdiffers
    · rw [hptr, hlog hthere]
      exact hseen
  · rintro ⟨hpart, hb, hroom, hfails, hthere, hcopied, hdiffers, hseen⟩
    rw [hptr] at hthere
    rw [hptr, hlog hthere] at hseen
    rw [hc.full hlt] at hroom
    rw [hbyte hcopied.2.2 hthere, ← hsrc] at hdiffers
    have hstart : (off + m + d) % BSIZE = 0 := by
      rcases hpart.2 with rfl | hstart
      · exact hnext
      · exact hstart
    rw [Nat.add_assoc off m d] at *
    exact ⟨⟨by omega, .inr hstart⟩, hbefore.2 hb, by omega, hfails, hthere, ⟨hcopied.1, by omega, hcopied.2.2⟩, hdiffers, hseen⟩

/-- Nothing fails in a part that is written, and what fails after it fails in the rest of the call. -/
theorem PartDone.tearing_iff (size : Nat) {off : Nat} (hc : Chunk off rest m) (hu : PartDone i off m s u)
    (hnone : src.fails 0 = none) : Tearing i size off rest src s ↔ Tearing i size (off + m) (rest - m) (src.drop m) u := by
  have hpos := hc.pos
  constructor
  · rintro ⟨d, k, j, h⟩
    obtain ⟨hlt, hstart⟩ := h.part
    have hd : d ≠ 0 := by
      rintro rfl
      exact Option.some_ne_none k (h.fails.symm.trans hnone)
    have hle := hc.le_start (by omega) (hstart.resolve_left hd)
    obtain ⟨d, rfl⟩ := Nat.exists_eq_add_of_le hle
    exact ⟨d, k, j, (hu.torn_iff hc hnone (by omega)).1 h⟩
  · rintro ⟨d, k, j, h⟩
    have hlt := h.part.1
    exact ⟨m + d, k, j, (hu.torn_iff hc hnone (by omega)).2 h⟩

/-! ## Failed copies -/

/-- Storing what is there changes nothing. -/
theorem Block.store_eq_self (h : ∀ j < m, o + j < BSIZE → f j = d.byte (o + j)) : d.store o m f = d := by
  funext j
  unfold Block.store
  split
  · next hin =>
    have hj := h (j.val - o) (by omega) (by have := j.isLt; omega)
    rw [hj, show o + (j.val - o) = j.val by omega]
    unfold Block.byte
    rw [dif_pos j.isLt]
  · rfl

/-- What a stopped loop leaves for the inode: if no copy has failed in the middle, the bytes from `hi` on are as they were and all
buffers that changed have been passed to `log_write`; else a byte from there on has changed that can be seen, or its block has not. -/
structure Stopped (i size off rest hi : Nat) (src : Source) (s t : State) : Prop where
  clean : ¬ Tearing i size off rest src s → Logs s t ∧
    ∀ o, hi ≤ o → o < size → eptr s (i, slot (o / BSIZE)) ≠ 0 → ebyte t i o = ebyte s i o
  torn : Tearing i size off rest src s → ∃ o, hi ≤ o ∧ eptr s (i, slot (o / BSIZE)) ≠ 0 ∧ ebyte t i o ≠ ebyte s i o ∧
    (o < size ∨ t.logged (eptr s (i, slot (o / BSIZE))) = false)

theorem Stopped.done {off : Nat} (s : State) (hrest : rest = 0) : Stopped i size off rest off src s s := by
  refine ⟨fun _ => ⟨.refl s, fun _ _ _ _ => rfl⟩, fun ⟨d, k, j, h⟩ => ?_⟩
  have := h.part.1
  omega

/-- No block could be found. -/
theorem Bmapped.stopped {off : Nat} (ht : Bmapped i (off / BSIZE) s 0 t) : Stopped i size off rest off src s t := by
  refine ⟨fun _ => ⟨ht.logs, fun o _ _ hq => ht.ebyte_eq hq⟩, fun ⟨d, k, j, h⟩ => ?_⟩
  -- the failing copy is in this block, which then is there, or in a later one, for which there is room
  by_cases hdiv : off / BSIZE < (off + d) / BSIZE
  · exact absurd rfl (ht.missing_le hdiv h.room).1
  · have heq : (off + d) / BSIZE = off / BSIZE := by
      have := Nat.div_le_div_right (c := BSIZE) (Nat.le_add_right off d)
      omega
    have hthere := h.there
    rw [heq] at hthere
    exact absurd (ht.same hthere).2 (Ne.symm hthere)

/-- When the copy of the first part fails, no other one matters. -/
theorem tearing_first (size off : Nat) (hfail : src.fails 0 = some k) (hrest : 0 < rest) :
    Tearing i size off rest src s ↔ eptr s (i, slot (off / BSIZE)) ≠ 0 ∧ ∃ j < min k (min rest (BSIZE - off % BSIZE)),
      src.byte j ≠ ebyte s i (off + j) ∧ (off + j < size ∨ s.logged (eptr s (i, slot (off / BSIZE))) = false) := by
  have hmod : off % BSIZE < BSIZE := Nat.mod_lt _ (by decide)
  constructor
  · rintro ⟨d, k', j, h⟩
    have hd : d = 0 := by
      by_contra hd
      exact Option.some_ne_none k (hfail.symm.trans (h.before 0 (by omega) (.inl rfl)))
    subst hd
    obtain rfl : k' = k := Option.some.inj (h.fails.symm.trans hfail)
    obtain ⟨-, -, -, -, hthere, hcopied, hdiffers, hseen⟩ := h
    simp only [Nat.add_zero, Nat.zero_add] at hthere hcopied hdiffers hseen
    exact ⟨hthere, j, by omega, hdiffers, hseen⟩
  · rintro ⟨hthere, j, hj, hdiffers, hseen⟩
    refine ⟨0, k, j, ⟨hrest, .inl rfl⟩, fun c hc => absurd hc (by omega), ?_, hfail, hthere, ⟨by omega, by omega, ?_⟩, ?_, hseen⟩
    · unfold missing
      simp
    · rw [Nat.add_zero]
      omega
    · rw [Nat.zero_add]
      exact hdiffers

/-- A buffer that has been passed to `log_write`, or that gets what it holds, may be changed. -/
theorem Logs.withBuffer (h : Logs s t) (hb : t.logged b = true ∨ d = t.disk b) : Logs s (t.withBuffer b d) := by
  refine ⟨h.mono, fun c hc => ?_⟩
  by_cases hcb : c = b
  · subst hcb
    rw [show (t.withBuffer c d).disk c = d from update_self ..] at hc
    rcases hb with hb | rfl
    · exact hb
    · exact h.changed c hc
  · rw [show (t.withBuffer b d).disk c = t.disk c from update_of_ne hcb ..] at hc
    exact h.changed c hc

/-- The copy of the first part has failed. -/
theorem Bmapped.stopped_copy {off : Nat} (hrest : 0 < rest) (ht : Bmapped i (off / BSIZE) s addr t)
    (haddr : addr ≠ 0) (hfail : src.fails 0 = some k) :
    Stopped i size off rest off src s
      (t.withBuffer addr ((t.disk addr).store (off % BSIZE) (min k (min rest (BSIZE - off % BSIZE))) src.byte)) := by
  have hiff := tearing_first (s := s) (i := i) size off hfail hrest
  have hm : min k (min rest (BSIZE - off % BSIZE)) ≤ BSIZE - off % BSIZE := (Nat.min_le_right ..).trans (Nat.min_le_right ..)
  generalize min k (min rest (BSIZE - off % BSIZE)) = m at hiff hm
  have hbyte : ∀ o, eptr s (i, slot (o / BSIZE)) ≠ 0 → ebyte (t.withBuffer addr ((t.disk addr).store (off % BSIZE) m src.byte)) i o =
      if i = i ∧ off ≤ o ∧ o < off + m then src.byte (o - off) else ebyte s i o := fun o hq => ht.store haddr hm (.inl hq)
  have hin : ∀ j < m, (off + j) / BSIZE = off / BSIZE ∧ (off + j) % BSIZE = off % BSIZE + j := fun j hj => div_mod_add hm hj
  refine ⟨fun hno => ⟨ht.logs.withBuffer ?_, fun o hlo hsize hq => ?_⟩, fun hyes => ?_⟩
  · by_cases hthere : eptr s (i, slot (off / BSIZE)) = 0
    · exact .inl (ht.log haddr hthere)
    · obtain ⟨rfl, rfl⟩ := ht.same hthere
      rcases Bool.eq_false_or_eq_true (t.logged (eptr t (i, slot (off / BSIZE)))) with hlog | hlog
      · exact .inl hlog
      · refine .inr (Block.store_eq_self fun j hj _ => ?_)
        by_contra hne
        refine hno (hiff.2 ⟨hthere, j, hj, ?_, .inr hlog⟩)
        unfold ebyte
        rw [(hin j hj).1, (hin j hj).2]
        exact hne
  · rw [hbyte o hq]
    split
    · next hc =>
      obtain ⟨j, rfl⟩ := Nat.exists_eq_add_of_le hlo
      have hj : j < m := by omega
      rw [(hin j hj).1] at hq
      rw [Nat.add_sub_cancel_left]
      by_contra hne
      exact hno (hiff.2 ⟨hq, j, hj, hne, .inl hsize⟩)
    · rfl
  · obtain ⟨hthere, j, hj, hdiffers, hseen⟩ := hiff.1 hyes
    obtain ⟨rfl, rfl⟩ := ht.same hthere
    have hdiv := (hin j hj).1
    refine ⟨off + j, Nat.le_add_right .., by rw [hdiv]; exact hthere, ?_, by rw [hdiv]; exact hseen⟩
    rw [hbyte _ (by rw [hdiv]; exact hthere), if_pos ⟨rfl, by omega, by omega⟩, Nat.add_sub_cancel_left]
    exact hdiffers

/-- A part has been written and the loop gone on. -/
theorem Stopped.step {off hi : Nat} (hc : Chunk off rest m) (hpart : PartDone i off m s u) (hlogs : Logs s u)
    (hne : ∀ q, eptr s q ≠ 0 → eptr u q ≠ 0) (hnone : src.fails 0 = none) (hhi : off + m ≤ hi)
    (h : Stopped i size (off + m) (rest - m) hi (src.drop m) u t) : Stopped i size off rest hi src s t := by
  have hiff := hpart.tearing_iff size hc hnone
  refine ⟨fun hno => ?_, fun hyes => ?_⟩
  · obtain ⟨hlog, hsame⟩ := h.clean fun hyes => hno (hiff.2 hyes)
    refine ⟨hlogs.trans hlog, fun o ho hsize hq => ?_⟩
    rw [hsame o ho hsize (hne _ hq), hpart.byte o (by omega) hq]
  · obtain ⟨o, ho, hq, hbyte, hseen⟩ := h.torn (hiff.1 hyes)
    have hlt : m < rest := by
      obtain ⟨d, k, j, hd⟩ := hiff.1 hyes
      have := hd.part.1
      omega
    rw [hpart.ptr _ (hc.lt_div hlt (by omega))] at hq hseen
    refine ⟨o, ho, hq, ?_, hseen⟩
    rw [← hpart.byte o (by omega) hq]
    exact hbyte

/-! ## The loop -/

theorem writeiLoop_exact_wp (src : Source) (size n fuel tot off : Nat) (h : Core s) (hv : s.valid i = true)
    (hmax : off + (n - tot) ≤ MAXFILE * BSIZE) (hfuel : n - tot ≤ fuel) (hle : tot ≤ n) :
    Wp (fun _ => False) (writeiLoop i src n fuel tot off) s fun r t => off + (r.1 - tot) = r.2 ∧ tot ≤ r.1 ∧ r.1 ≤ n ∧
      Stopped i size off (n - tot) r.2 (src.drop tot) s t := by
  induction fuel generalizing s tot off with
  | zero => exact ⟨by simp, le_rfl, hle, .done s (by omega)⟩
  | succ fuel ih =>
    unfold writeiLoop
    by_cases hlt : tot < n
    · rw [if_pos hlt]
      refine (bmap_wp h hv (div_lt_maxfile (by omega) hmax)).bind fun addr t ht => ?_
      by_cases haddr : addr = 0
      · rw [if_pos haddr]
        subst haddr
        exact ⟨by simp, le_rfl, hle, ht.stopped⟩
      · rw [if_neg haddr]
        have hchunk := chunk_min off (show 0 < n - tot by omega)
        cases hfail : src.fails tot with
        | some k => exact ⟨by simp, le_rfl, hle, ht.stopped_copy (by omega) haddr hfail⟩
        | none =>
          generalize hm : min (n - tot) (BSIZE - off % BSIZE) = m at hchunk
          have hpos := hchunk.pos
          have hmle := hchunk.le
          refine Wp.bind (R := fun _ u => u = t.withBlock addr ((t.disk addr).store (off % BSIZE) m fun j => src.byte (tot + j))) rfl ?_
          rintro _ u rfl
          have htouch := ht.toTouched.trans (Touched.withBlock (q := (i, slot (off / BSIZE))) ht.core (slot_ne _) (ht.ptr haddr)
            ((t.disk addr).store (off % BSIZE) m fun j => src.byte (tot + j)))
          refine (ih (tot + m) (off + m) htouch.core (show t.valid i = true by rw [ht.valid]; exact hv) (by omega) (by omega)
            (by omega)).mono fun r u hu => ?_
          obtain ⟨hend, hlo, hhi, hstop⟩ := hu
          refine ⟨by omega, by omega, hhi, ?_⟩
          rw [← Nat.sub_sub, ← Source.drop_drop] at hstop
          exact hstop.step hchunk (ht.partDone haddr hchunk.block) (ht.logs.trans (Logs.withBlock ..)) (fun _ => htouch.ne_zero) hfail
            (by omega)
    · rw [if_neg hlt]
      exact ⟨by simp, le_rfl, hle, .done s (by omega)⟩

/-! ## The call -/

theorem tearing_iff (h : Inv s) (hn : ¬ Refused (s.dinode i).size off n) :
    Tearing i (s.dinode i).size off.toNat n.toNat src s ↔ s.Tears i src off n := by
  unfold Refused at hn
  have hbyte : s.byteAt i = ebyte s i := funext fun o => h.byteAt_eq i o
  unfold Tearing State.Tears
  rw [hbyte, h.eptr_eq]
  exact ⟨fun hyes => ⟨by omega, by omega, hyes⟩, fun hyes => hyes.2.2⟩

theorem not_tears (hr : Refused (s.dinode i).size off n) : ¬ s.Tears i src off n := by
  rintro ⟨hsize, hmax, -⟩
  unfold Refused at hr
  simp only [MAXFILE, NDIRECT, NINDIRECT, BSIZE] at *
  omega

/-- What is past the bytes written. -/
theorem getElem?_written {f : List Byte} {off n : Nat} (src : Nat → Byte) (hoff : off ≤ f.length) (ho : off + n ≤ o) :
    (f.take off ++ (range n).map src ++ f.drop (off + n))[o]? = f[o]? := by
  have hlen : (f.take off ++ (range n).map src).length = off + n := by
    rw [length_append, length_take, length_map, length_range, min_eq_left hoff]
  rw [getElem?_append_right (by omega), hlen, getElem?_drop, Nat.add_sub_cancel' ho]

/-- Where the loop stopped, seen on the lists of bytes. -/
theorem Stopped.writesExactly {p : Nat × Nat} (h : Inv s) (hu : (s.dinode i).type ≠ .free)
    (hn : ¬ Refused (s.dinode i).size off n) (hend : off.toNat + p.1 = p.2) (hwrote : Wrote i off.toNat n.toNat src.byte s p.2 u)
    (hupdate : Updated i p.2 s u t) (hstop : Stopped i (s.dinode i).size off.toNat n.toNat p.2 src s u) :
    s.WritesExactly i src off (p.1 : Int) t ↔ ¬ s.Tears i src off n := by
  have hlen := length_bytes hu
  have hoff : off.toNat ≤ (s.dinode i).size := not_lt.1 fun hc => hn (.inl hc)
  have hu' : (t.dinode i).type ≠ .free := by
    rw [hupdate.type]
    exact hu
  have hlen' : (t.bytes i).length = max (s.bytes i).length p.2 := by rw [length_bytes hu', hlen, hupdate.size]
  rw [← tearing_iff h hn]
  constructor
  · rintro ⟨-, hbytes, -, hlog⟩ hyes
    obtain ⟨o, ho, hq, hbyte, hsize | hquiet⟩ := hstop.torn hyes
    · -- a byte past what is reported has changed
      have hself := congrFun (hbytes (Int.natCast_nonneg _)) i
      rw [update_self, Int.toNat_natCast] at hself
      have hget := getElem?_written src.byte (n := p.1) (hlen ▸ hoff) (show off.toNat + p.1 ≤ o by omega)
      rw [← hself, getElem?_eq_getElem (by rw [hlen', hlen]; omega), getElem?_eq_getElem (by rw [hlen]; exact hsize),
        getElem_bytes hu', getElem_bytes hu, hupdate.byte, h.byteAt_eq] at hget
      exact hbyte (Option.some.inj hget)
    · -- a buffer has changed that has not been passed to `log_write`
      have hsame : t.disk (eptr s (i, slot (o / BSIZE))) = s.disk (eptr s (i, slot (o / BSIZE))) := by
        by_contra hne
        have := hlog _ hne
        rw [hupdate.logged, hquiet] at this
        cases this
      refine hbyte ?_
      unfold ebyte
      rw [hwrote.touched.ptrs _ hq, ← hupdate.disk, hsame]
  · intro hno
    obtain ⟨hlog, hafter⟩ := hstop.clean hno
    have hwritten := hupdate.written h hwrote fun o ho _ hsize hq => hafter o ho hsize hq
    rw [show p.2 - off.toNat = p.1 by omega] at hwritten
    refine ⟨fun hc => absurd hc (by omega), fun _ => ?_, fun _ => ?_, fun b hb => ?_⟩
    · rw [Int.toNat_natCast]
      exact hwritten.bytes hu hoff
    · rw [Int.toNat_natCast, hend]
      exact hlen'
    · rw [hupdate.disk] at hb
      rw [hupdate.logged]
      exact hlog.changed b hb

theorem writei_exact_wp (src : Source) (off n : Uint) (h : Inv s) (hv : s.valid i = true) (hu : (s.dinode i).type ≠ .free) :
    Wp (fun _ => False) (writei i src off n) s fun r t =>
      Kept s t ∧ (r = -1 ∨ 0 ≤ r ∧ r ≤ n.toNat) ∧ (s.WritesExactly i src off r t ↔ ¬ s.Tears i src off n) := by
  have hloop : ¬ Refused (s.dinode i).size off n → Wp (fun _ => False) (writeiLoop i src n.toNat n.toNat 0 off.toNat) s fun p t =>
      Wrote i off.toNat n.toNat src.byte s p.2 t ∧ off.toNat + p.1 = p.2 ∧ p.1 ≤ n.toNat ∧
        Stopped i (s.dinode i).size off.toNat n.toNat p.2 src s t := by
    intro hn
    have hmax : off.toNat + n.toNat ≤ MAXFILE * BSIZE := not_lt.1 fun hc => hn (.inr (.inr hc))
    refine ((writeiLoop_start_wp src h hv hn).and
      (writeiLoop_exact_wp src (s.dinode i).size n.toNat n.toNat 0 off.toNat h.core hv hmax le_rfl (Nat.zero_le _))).mono fun p t hp => ?_
    obtain ⟨⟨hwrote, -⟩, hend, -, hle, hstop⟩ := hp
    rw [Nat.sub_zero] at hend hstop
    have hsrc : src.drop 0 = src := by simp only [Source.drop, Nat.zero_add]
    rw [hsrc] at hstop
    exact ⟨hwrote, hend, hle, hstop⟩
  refine (writei_of_loop h hv hloop).mono fun r t ht => ?_
  rcases ht with ⟨hr, rfl, rfl⟩ | ⟨hn, p, v, d, ⟨hwrote, hend, hle, hstop⟩, rfl, rfl, hd⟩
  · refine ⟨⟨h, rfl, rfl, rfl⟩, .inl rfl, fun _ => not_tears hr, fun _ => ?_⟩
    exact ⟨fun _ => rfl, fun hc => absurd hc (by omega), fun hc => absurd hc (by omega), fun b hb => absurd rfl hb⟩
  · have hmax : off.toNat + n.toNat ≤ MAXFILE * BSIZE := not_lt.1 fun hc => hn (.inr (.inr hc))
    have hupdate := hwrote.update h hv hmax hd
    exact ⟨hupdate.kept, .inr (by omega), hstop.writesExactly h hu hn hend hwrote hupdate⟩

theorem Locked.writesExactly_iff (ht : Locked i s t) {r : Int} :
    t.WritesExactly i src off r u ↔ s.WritesExactly i src off r u := by
  constructor
  · rintro ⟨hrefused, hwrote, hsize, hlog⟩
    rw [ht.bytes] at hrefused hwrote hsize
    rw [ht.disk] at hlog
    exact ⟨hrefused, hwrote, hsize, hlog⟩
  · rintro ⟨hrefused, hwrote, hsize, hlog⟩
    rw [← ht.bytes] at hrefused hwrote hsize
    rw [← ht.disk] at hlog
    exact ⟨hrefused, hwrote, hsize, hlog⟩

theorem Locked.tears_iff (ht : Locked i s t) : t.Tears i src off n ↔ s.Tears i src off n := by
  have hbyte : t.byteAt i = s.byteAt i := by
    funext o
    unfold State.byteAt
    rw [ht.ptr_eq, ht.disk]
  unfold State.Tears
  rw [ht.dinode, ht.ptr_eq, ht.nfree_eq, ht.logged, hbyte]

/-- `writei` after `ilock`: it always returns, and what it reports is what it has changed unless a copy has torn a block. -/
theorem writei_call_wp (src : Source) (off n : Uint) (h : Inv s) (hr : 0 < s.ref i) (hu : (s.dinode i).type ≠ .free) :
    Wp (fun _ => False) (Call.writei i src off n).run s fun r t => Inv t ∧ r.data = [] ∧ (r.result = -1 ∨ 0 ≤ r.result ∧ r.result ≤ n.toNat) ∧
      (s.WritesExactly i src off r.result t ↔ ¬ s.Tears i src off n) := by
  refine (ilock_ready_wp (i := i) h hr hu).bind fun _ t ht => ?_
  refine (writei_exact_wp src off n ht.inv ht.self.2 (by rw [ht.dinode]; exact hu)).bind fun r u hwrite => ?_
  obtain ⟨hkept, hrange, hexact⟩ := hwrite
  rw [ht.writesExactly_iff, ht.tears_iff] at hexact
  exact ⟨hkept.inv, rfl, hrange, hexact⟩

end InoAux

end Xv6.Ino
