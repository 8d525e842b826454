import Xv6.Lemmas.InodeOwn
import Mathlib.Data.List.Range

/-!
# What `writei` does to contents

The loop of `writei` maps a block, stores part of the bytes in it and goes on. It keeps the ownership of blocks however it stops; the
bytes it has passed are those of the source, and all bytes outside the range it was called for, of this inode and of any other, are
what they were. It gets to the end if no copy fails and there are blocks for all that is missing.
-/

namespace Xv6.Ino

open Lib Function List

open Fs (IType Name)

namespace InoAux

variable {s t u : State} {i j k b r bn : Nat} {q : Nat × Nat} {src : Nat → Byte} {off n : Uint} {f : Nat → Byte} {o : Nat}
  {lo hi : Nat} {d : Dinode} {m rest addr : Nat}

/-- The byte at place `o` of inode `i` as the kernel sees it. -/
def ebyte (s : State) (i o : Nat) : Byte := (s.disk (eptr s (i, slot (o / BSIZE)))).byte (o % BSIZE)

theorem Inv.byteAt_eq (h : Inv s) (i o : Nat) : s.byteAt i o = ebyte s i o := by
  unfold ebyte
  rw [h.eptr_eq]
  rfl

/-! ## Places -/

theorem slot_ne (bn : Nat) : slot bn ≠ NDIRECT := by
  unfold slot
  split <;> omega

theorem slot_inj {bn bn' : Nat} (h : slot bn = slot bn') : bn = bn' := by
  unfold slot at h
  split at h <;> split at h <;> omega

/-- What `bmap` is called for is within the largest file. -/
theorem div_lt_maxfile {off : Nat} (hm : 0 < m) (h : off + m ≤ MAXFILE * BSIZE) : off / BSIZE < MAXFILE :=
  Nat.div_lt_of_lt_mul (by rw [Nat.mul_comm]; omega)

/-- Within a block, the place in the block goes with the place in the file. -/
theorem div_mod_add {off k : Nat} (hm : m ≤ BSIZE - off % BSIZE) (hk : k < m) :
    (off + k) / BSIZE = off / BSIZE ∧ (off + k) % BSIZE = off % BSIZE + k := by
  simp only [BSIZE] at *
  omega

/-- The part that one iteration copies. -/
structure Chunk (off rest m : Nat) : Prop where
  pos : 0 < m
  le : m ≤ rest
  block : m ≤ BSIZE - off % BSIZE
  full : m < rest → (off + m) / BSIZE = off / BSIZE + 1

theorem chunk_min (off : Nat) (h : 0 < rest) : Chunk off rest (min rest (BSIZE - off % BSIZE)) := by
  refine ⟨?_, Nat.min_le_left .., Nat.min_le_right .., ?_⟩ <;> simp only [BSIZE] <;> omega

/-- A block that starts before the end of the part starts before the part, or is the block of the part. -/
theorem Chunk.lt_or_eq {off bn : Nat} (h : Chunk off rest m) (hbn : bn * BSIZE < off + m) : bn * BSIZE < off ∨ bn = off / BSIZE := by
  have := h.block
  have := h.pos
  simp only [BSIZE] at *
  omega

/-! ## Steps of the loop -/

/-- What is mapped stays mapped. -/
theorem Touched.ne_zero (h : Touched i s t) (hq : eptr s q ≠ 0) : eptr t q ≠ 0 := by
  rw [h.ptrs q hq]
  exact hq

/-- Blocks that are there keep their contents when others are allocated. -/
theorem Grown.ebyte_eq (h : Grown i s t) (hq : eptr s (j, slot (o / BSIZE)) ≠ 0) : ebyte t j o = ebyte s j o := by
  unfold ebyte
  rw [h.ptrs _ hq, h.data _ (slot_ne _) hq]

/-- Writing a block of contents leaves all pointers. -/
theorem eptr_withBlock (h : Core s) (hq : q.2 ≠ NDIRECT) (hb : eptr s q = b) (d : Block) :
    eptr (s.withBlock b d) = eptr s := by
  refine eptr_keep (r := b) (fun j => rfl) (fun c hc => update_of_ne hc ..) fun j hj heq => ?_
  have := h.owns.inj (j, NDIRECT) q hj (hb.trans heq.symm)
  exact hq (by rw [this])

theorem Touched.withBlock (h : Core s) (hq : q.2 ≠ NDIRECT) (hb : eptr s q = b) (d : Block) :
    Touched i s (s.withBlock b d) := by
  have heptr := eptr_withBlock h hq hb d
  refine ⟨⟨rfl, rfl, rfl, rfl, fun _ _ => rfl, rfl⟩, ⟨?_, h.uint, h.free, h.type⟩, fun q _ => congrFun heptr q, fun q _ => congrFun heptr q⟩
  rw [heptr]
  exact h.owns

/-- So does leaving something in its buffer. -/
theorem Touched.withBuffer (h : Core s) (hq : q.2 ≠ NDIRECT) (hb : eptr s q = b) (d : Block) : Touched i s (s.withBuffer b d) := by
  have ht := Touched.withBlock (i := i) h hq hb d
  exact ⟨⟨rfl, rfl, rfl, rfl, fun _ _ => rfl, rfl⟩, ⟨ht.core.owns, ht.core.uint, ht.core.free, ht.core.type⟩, ht.ptrs, ht.other⟩

/-- Storing `m` bytes at place `off` of inode `i`, within one block, changes these bytes only. -/
theorem ebyte_store {off : Nat} (h : Core s) (hptr : eptr s (i, slot (off / BSIZE)) = b) (hm : m ≤ BSIZE - off % BSIZE)
    (hq : eptr s (j, slot (o / BSIZE)) ≠ 0) :
    ebyte (s.withBlock b ((s.disk b).store (off % BSIZE) m f)) j o = if j = i ∧ off ≤ o ∧ o < off + m then f (o - off) else ebyte s j o := by
  have hlt : o % BSIZE < BSIZE := Nat.mod_lt _ (by decide)
  unfold ebyte
  rw [eptr_withBlock (q := (i, slot (off / BSIZE))) h (slot_ne _) hptr]
  by_cases hb : eptr s (j, slot (o / BSIZE)) = b
  · -- the same block, so the same inode and the same block of it
    have hsame := h.owns.inj _ _ hq (hptr.trans hb.symm)
    obtain ⟨rfl, hslot⟩ := Prod.mk.inj hsame
    have hdiv := slot_inj hslot
    rw [hb, show State.disk _ b = _ from update_self ..]
    have hwithin : (off % BSIZE ≤ o % BSIZE ∧ o % BSIZE < off % BSIZE + m) ↔ off ≤ o ∧ o < off + m := by
      simp only [BSIZE] at *
      omega
    unfold Block.byte Block.store
    rw [dif_pos hlt, dif_pos hlt]
    by_cases hin : off ≤ o ∧ o < off + m
    · rw [if_pos (hwithin.2 hin), if_pos ⟨rfl, hin⟩]
      congr 1
      simp only [BSIZE] at *
      omega
    · rw [if_neg fun hc => hin (hwithin.1 hc), if_neg fun hc => hin hc.2]
  · rw [show State.disk (s.withBlock b _) (eptr s (j, slot (o / BSIZE))) = s.disk (eptr s (j, slot (o / BSIZE))) from
      update_of_ne hb ..]
    refine (if_neg ?_).symm
    rintro ⟨rfl, hlo, hhi⟩
    obtain ⟨hdiv, -⟩ := div_mod_add (k := o - off) hm (by omega)
    rw [show off + (o - off) = o by omega] at hdiv
    rw [hdiv] at hb
    exact hb hptr

/-! ## Blocks that are missing -/

/-- One block has been mapped, with the indirect block if it is behind it. -/
theorem missing_step {ptr ptr' : Nat → Nat} (hlt : lo < hi) (hlast : NDIRECT ≤ lo → ptr' NDIRECT ≠ 0)
    (hother : ∀ k, k ≠ slot lo → k ≠ NDIRECT → ptr' k = ptr k) (hsame : lo < NDIRECT → ptr' NDIRECT = ptr NDIRECT) :
    missing ptr' (lo + 1) hi + ((if ptr (slot lo) = 0 then 1 else 0) + if NDIRECT ≤ lo ∧ ptr NDIRECT = 0 then 1 else 0) = missing ptr lo hi := by
  obtain ⟨n, rfl⟩ : ∃ n, hi = lo + (n + 1) := ⟨hi - lo - 1, by omega⟩
  have hcount : (range' (lo + 1) n).countP (fun bn => ptr' (slot bn) = 0) = (range' (lo + 1) n).countP fun bn => ptr (slot bn) = 0 := by
    refine countP_congr fun bn hbn => ?_
    obtain ⟨hlo, -⟩ := mem_range'_1.1 hbn
    rw [hother (slot bn) (fun heq => absurd (slot_inj heq) (by omega)) (slot_ne bn)]
  unfold missing
  rw [show lo + (n + 1) - (lo + 1) = n by omega, show lo + (n + 1) - lo = n + 1 by omega, range'_succ, countP_cons, hcount]
  simp only [decide_eq_true_eq]
  by_cases hlo : NDIRECT ≤ lo
  · have := hlast hlo
    split_ifs <;> omega
  · have := hsame (by omega)
    split_ifs <;> omega

/-- What `bmap` allocates for one block is part of what is missing. -/
theorem need_le_missing (hlt : lo < hi) : need s i lo ≤ missing (fun k => eptr s (i, k)) lo hi := by
  obtain ⟨n, rfl⟩ : ∃ n, hi = lo + (n + 1) := ⟨hi - lo - 1, by omega⟩
  unfold need missing
  rw [show lo + (n + 1) - lo = n + 1 by omega, range'_succ, countP_cons]
  simp only [decide_eq_true_eq]
  split_ifs <;> omega

/-! ## The loop -/

/-- What the loop has done, from place `off` on and with `rest` bytes to write, when it stops at `hi`; `src` gives the bytes from there. -/
structure Wrote (i off rest : Nat) (src : Nat → Byte) (s : State) (hi : Nat) (t : State) : Prop where
  touched : Touched i s t
  ge : off ≤ hi
  le : hi ≤ off + rest
  covered : ∀ bn, bn * BSIZE < hi → eptr t (i, slot bn) ≠ 0
  wrote : ∀ o, off ≤ o → o < hi → ebyte t i o = src (o - off)
  other : ∀ j o, eptr s (j, slot (o / BSIZE)) ≠ 0 → (j = i → o < off ∨ off + rest ≤ o) → ebyte t j o = ebyte s j o

theorem Wrote.stop {off : Nat} (ht : Touched i s t) (hcov : ∀ bn, bn * BSIZE < off → eptr t (i, slot bn) ≠ 0)
    (hother : ∀ j o, eptr s (j, slot (o / BSIZE)) ≠ 0 → (j = i → o < off ∨ off + rest ≤ o) → ebyte t j o = ebyte s j o) :
    Wrote i off rest src s off t :=
  ⟨ht, le_rfl, Nat.le_add_right .., hcov, fun o hlo hhi => absurd hhi (by omega), hother⟩

/-- The rest of the loop after one part has been written. -/
theorem Wrote.step {off hi : Nat} (hc : Chunk off rest m) (ht : Touched i s t)
    (hmap : eptr t (i, slot (off / BSIZE)) ≠ 0)
    (hstore : ∀ j o, eptr s (j, slot (o / BSIZE)) ≠ 0 ∨ j = i ∧ off ≤ o ∧ o < off + m →
      ebyte t j o = if j = i ∧ off ≤ o ∧ o < off + m then src (o - off) else ebyte s j o)
    (hu : Wrote i (off + m) (rest - m) (fun k => src (m + k)) t hi u) : Wrote i off rest src s hi u := by
  have hle := hc.le
  have hge := hu.ge
  have hle' := hu.le
  have hin : ∀ o, off ≤ o → o < off + m → eptr t (i, slot (o / BSIZE)) ≠ 0 := by
    intro o hlo hhi
    obtain ⟨hdiv, -⟩ := div_mod_add (k := o - off) hc.block (by omega)
    rw [show off + (o - off) = o by omega] at hdiv
    rw [hdiv]
    exact hmap
  refine ⟨ht.trans hu.touched, by omega, by omega, hu.covered, fun o hlo hhi => ?_, fun j o hq hout => ?_⟩
  · by_cases ho : o < off + m
    · rw [hu.other i o (hin o hlo ho) fun _ => .inl ho, hstore i o (.inr ⟨rfl, hlo, ho⟩), if_pos ⟨rfl, hlo, ho⟩]
    · rw [hu.wrote o (by omega) hhi]
      congr 1
      omega
  · rw [hu.other j o (ht.ne_zero hq) fun hj => by have := hout hj; omega, hstore j o (.inl hq), if_neg]
    rintro ⟨hj, hlo, hhi⟩
    have := hout hj
    omega

/-- A part has been stored in the block that `bmap` found. -/
theorem Bmapped.store {off : Nat} (ht : Bmapped i (off / BSIZE) s addr t) (haddr : addr ≠ 0) (hm : m ≤ BSIZE - off % BSIZE)
    (hq : eptr s (j, slot (o / BSIZE)) ≠ 0 ∨ j = i ∧ off ≤ o ∧ o < off + m) :
    ebyte (t.withBlock addr ((t.disk addr).store (off % BSIZE) m f)) j o = if j = i ∧ off ≤ o ∧ o < off + m then f (o - off) else ebyte s j o := by
  have hptr := ht.ptr haddr
  rcases hq with hq | hin
  · rw [ebyte_store ht.core hptr hm (ht.toTouched.ne_zero hq), ht.ebyte_eq hq]
  · obtain ⟨rfl, hlo, hhi⟩ := hin
    obtain ⟨hdiv, -⟩ := div_mod_add (k := o - off) hm (by omega)
    rw [show off + (o - off) = o by omega] at hdiv
    rw [ebyte_store ht.core hptr hm (by rw [hdiv, hptr]; exact haddr), if_pos ⟨rfl, hlo, hhi⟩, if_pos ⟨rfl, hlo, hhi⟩]

/-- `bmap` finds a block if what is missing is free, and leaves enough for the rest. -/
theorem Bmapped.missing_le {lo hi : Nat} (ht : Bmapped i lo s addr t) (hlt : lo < hi)
    (hroom : missing (fun k => eptr s (i, k)) lo hi ≤ s.nfree) : addr ≠ 0 ∧ missing (fun k => eptr t (i, k)) (lo + 1) hi ≤ t.nfree := by
  have hslot : lo < NDIRECT ∨ NDIRECT ≤ slot lo := by
    unfold slot
    split <;> omega
  have hstep : addr ≠ 0 → missing (fun k => eptr t (i, k)) (lo + 1) hi + need s i lo = missing (fun k => eptr s (i, k)) lo hi := by
    intro haddr
    have hne : eptr t (i, slot lo) ≠ 0 := by
      rw [ht.ptr haddr]
      exact haddr
    refine missing_step hlt (fun hlo hlast => hne (Dinode.ptr_of_last hlast (by omega))) (fun k hk hk' => ?_) ht.last
    exact ht.only (i, k) (fun heq => hk (Prod.mk.inj heq).2) fun heq => hk' (Prod.mk.inj heq).2
  have hneed : need s i lo ≤ missing (fun k => eptr s (i, k)) lo hi := need_le_missing hlt
  obtain ⟨haddr, hfree⟩ := ht.enough (hneed.trans hroom)
  have := hstep haddr
  exact ⟨haddr, by omega⟩

theorem writeiLoop_wp (src : Source) (n fuel tot off : Nat) (h : Core s) (hv : s.valid i = true)
    (hmax : off + (n - tot) ≤ MAXFILE * BSIZE) (hcov : ∀ bn, bn * BSIZE < off → eptr s (i, slot bn) ≠ 0) :
    Wp (fun _ => False) (writeiLoop i src n fuel tot off) s fun r t => Wrote i off (n - tot) (fun k => src.byte (tot + k)) s r.2 t ∧
      ((∀ k < n, src.fails k = none) → n - tot ≤ fuel → tot ≤ n →
        (tot < n → missing (fun k => eptr s (i, k)) (off / BSIZE) (blocksTo (off + (n - tot))) ≤ s.nfree) → r = (n, off + (n - tot))) := by
  have hstop : Wrote i off (n - tot) (fun k => src.byte (tot + k)) s off s := .stop (.refl h) hcov fun _ _ _ _ => rfl
  induction fuel generalizing s tot off with
  | zero =>
    refine ⟨hstop, fun _ hfuel htot _ => ?_⟩
    obtain rfl : tot = n := by omega
    rw [Nat.sub_self]
    rfl
  | succ fuel ih =>
    unfold writeiLoop
    by_cases hlt : tot < n
    · rw [if_pos hlt]
      refine (bmap_wp h hv (div_lt_maxfile (by omega) hmax)).bind fun addr t ht => ?_
      have htouch := ht.toTouched
      have hlast : off / BSIZE < blocksTo (off + (n - tot)) := by
        unfold blocksTo
        simp only [BSIZE]
        omega
      by_cases haddr : addr = 0
      · rw [if_pos haddr]
        refine ⟨.stop htouch (fun bn hbn => htouch.ne_zero (hcov bn hbn)) fun j o hq _ => ht.ebyte_eq hq, fun _ _ _ hroom => ?_⟩
        exact absurd haddr (ht.missing_le hlast (hroom hlt)).1
      · rw [if_neg haddr]
        have hptr := ht.ptr haddr
        have hwrite := fun d => htouch.trans (Touched.withBlock (q := (i, slot (off / BSIZE))) ht.core (slot_ne _) hptr d)
        have hkeep := fun d => eptr_withBlock (q := (i, slot (off / BSIZE))) ht.core (slot_ne _) hptr d
        have hchunk := chunk_min off (show 0 < n - tot by omega)
        have hle := hchunk.le
        cases hfail : src.fails tot with
        | some k =>
          have hleft := fun d => htouch.trans (Touched.withBuffer (q := (i, slot (off / BSIZE))) ht.core (slot_ne _) hptr d)
          refine ⟨.stop (hleft _) (fun bn hbn => (hleft _).ne_zero (hcov bn hbn)) fun j o hq hout => ?_, fun hnone => ?_⟩
          · show ebyte (t.withBlock addr _) j o = _
            rw [ht.store haddr ((Nat.min_le_right ..).trans hchunk.block) (.inl hq), if_neg]
            rintro ⟨hj, hlo, hhi⟩
            have := hout hj
            have : min k (min (n - tot) (BSIZE - off % BSIZE)) ≤ min (n - tot) (BSIZE - off % BSIZE) := Nat.min_le_right ..
            omega
          · rw [hnone tot hlt] at hfail
            cases hfail
        | none =>
          generalize hm : min (n - tot) (BSIZE - off % BSIZE) = m at hchunk hle
          have hpos := hchunk.pos
          refine Wp.bind (R := fun _ u => u = t.withBlock addr ((t.disk addr).store (off % BSIZE) m fun j => src.byte (tot + j))) rfl ?_
          rintro _ u rfl
          have hmap : eptr (t.withBlock addr ((t.disk addr).store (off % BSIZE) m fun j => src.byte (tot + j))) (i, slot (off / BSIZE)) ≠ 0 := by
            rw [hkeep, hptr]
            exact haddr
          have hcov' : ∀ bn, bn * BSIZE < off + m →
              eptr (t.withBlock addr ((t.disk addr).store (off % BSIZE) m fun j => src.byte (tot + j))) (i, slot bn) ≠ 0 := by
            intro bn hbn
            rcases hchunk.lt_or_eq hbn with hlow | rfl
            · exact (hwrite _).ne_zero (hcov bn hlow)
            · exact hmap
          refine (ih (tot + m) (off + m) (hwrite _).core (show t.valid i = true by rw [htouch.valid]; exact hv) (by omega) hcov'
            (.stop (.refl (hwrite _).core) hcov' fun _ _ _ _ => rfl)).mono fun r u hu => ⟨?_, fun hnone hfuel htot hroom => ?_⟩
          · refine Wrote.step hchunk (hwrite _) hmap (fun j o hq => ht.store haddr hchunk.block hq) ?_
            rw [Nat.sub_sub]
            simpa only [Nat.add_assoc] using hu.1
          · have hsum : off + m + (n - (tot + m)) = off + (n - tot) := by omega
            rw [hu.2 hnone (by omega) (by omega) fun hmore => ?_, hsum]
            rw [hkeep, hsum, hchunk.full (by omega)]
            exact (ht.missing_le hlast (hroom hlt)).2
    · rw [if_neg hlt]
      refine ⟨hstop, fun _ _ htot _ => ?_⟩
      obtain rfl : tot = n := by omega
      rw [Nat.sub_self]
      rfl

/-! ## `writei` -/

theorem Touched.update (h : Inv s) (hv : s.valid i = true) (ht : Touched i s t) (htype : d.type = (t.inode i).type)
    (haddrs : d.addrs = (t.inode i).addrs) (hholes : ∀ bn, bn * BSIZE < d.size → bn < MAXFILE ∧ eptr t (i, slot bn) ≠ 0) :
    Kept s ((t.withInode i d).withDinode i d) ∧ eptr ((t.withInode i d).withDinode i d) = eptr t := by
  have hsynced : ∀ j, j ≠ i → t.valid j = true → t.inode j = t.dinode j := by
    intro j hj hvj
    rw [ht.inode j hj, ht.dinode]
    exact h.synced j (by rw [← ht.valid]; exact hvj)
  obtain ⟨hinv, heptr⟩ := ht.core.sync (d := d) (by rw [ht.valid]; exact hv) hsynced
    (fun j hj => h.holes_of_eq (ino_congr (congrFun ht.valid j) (ht.inode j hj) (congrFun ht.dinode j)) fun k => ht.other (j, k) hj)
    htype haddrs hholes
  exact ⟨⟨hinv, ht.sb, ht.ref, ht.valid⟩, heptr⟩

/-- The size of inode `i` has been set to `hi`, if it was less, and the inode written to the disk. -/
structure Updated (i hi : Nat) (s t u : State) : Prop where
  kept : Kept s u
  type : (u.dinode i).type = (s.dinode i).type
  size : (u.dinode i).size = max (s.dinode i).size hi
  dinode : ∀ j, j ≠ i → u.dinode j = s.dinode j
  byte : ∀ j o, u.byteAt j o = ebyte t j o
  disk : u.disk = t.disk
  logged : u.logged = t.logged

/-- The end of `writei`, from the place where the loop stopped. -/
theorem Wrote.update {off n hi : Nat} (h : Inv s) (hv : s.valid i = true) (hmax : off + n ≤ MAXFILE * BSIZE)
    (ht : Wrote i off n src s hi t) (hd : d = if (t.inode i).size < hi then (t.inode i).withSize hi else t.inode i) :
    Updated i hi s t ((t.withInode i d).withDinode i d) := by
  have htouch := ht.touched
  have hle := ht.le
  have htype : d.type = (t.inode i).type := by
    rw [hd]
    split <;> rfl
  have haddrs : d.addrs = (t.inode i).addrs := by
    rw [hd]
    split <;> rfl
  have hsize : d.size = max (s.inode i).size hi := by
    rw [hd, htouch.fields]
    split
    · next hlt => exact (max_eq_right hlt.le).symm
    · next hge => exact (max_eq_left (not_lt.1 hge)).symm
  have hblocks : ∀ bn, bn * BSIZE < d.size → bn < MAXFILE ∧ eptr t (i, slot bn) ≠ 0 := by
    intro bn hbn
    rw [hsize, lt_max_iff] at hbn
    rcases hbn with hbn | hbn
    · obtain ⟨hlt, hne⟩ := h.block hv hbn
      exact ⟨hlt, htouch.ne_zero hne⟩
    · exact ⟨Nat.lt_of_mul_lt_mul_right (hbn.trans_le (hle.trans hmax)), ht.covered bn hbn⟩
  obtain ⟨hkept, hptr⟩ := htouch.update h hv htype haddrs hblocks
  have hself : ((t.withInode i d).withDinode i d).dinode i = d := update_self ..
  refine ⟨hkept, ?_, ?_, fun j hj => ?_, fun j o => ?_, rfl, rfl⟩
  · rw [hself, htype, htouch.fields, ← h.synced i hv]
  · rw [hself, hsize, h.synced i hv]
  · exact (update_of_ne hj ..).trans (congrFun htouch.dinode j)
  · rw [hkept.inv.byteAt_eq]
    unfold ebyte
    rw [hptr]
    rfl

/-- The first `n` bytes of the source are in the file from `off` on, and the rest of all files is as it was. -/
structure Written (i off n : Nat) (src : Nat → Byte) (s t : State) : Prop where
  type : (t.dinode i).type = (s.dinode i).type
  size : (t.dinode i).size = max (s.dinode i).size (off + n)
  dinode : ∀ j, j ≠ i → t.dinode j = s.dinode j
  wrote : ∀ o, off ≤ o → o < off + n → t.byteAt i o = src (o - off)
  other : ∀ j o, (s.dinode j).type ≠ .free → o < (s.dinode j).size → (j = i → o < off ∨ off + n ≤ o) → t.byteAt j o = s.byteAt j o

/-- The bytes before the place where the loop stopped are written; it is enough that those from there on have not changed. -/
theorem Updated.written {off n hi : Nat} (h : Inv s) (ht : Wrote i off n src s hi t) (hu : Updated i hi s t u)
    (hafter : ∀ o, hi ≤ o → o < off + n → o < (s.dinode i).size → eptr s (i, slot (o / BSIZE)) ≠ 0 → ebyte t i o = ebyte s i o) :
    Written i off (hi - off) src s u := by
  have hge := ht.ge
  have hsum : off + (hi - off) = hi := by omega
  refine ⟨hu.type, by rw [hsum]; exact hu.size, hu.dinode, fun o hlo hlt => ?_, fun j o hused ho hout => ?_⟩
  · rw [hu.byte]
    exact ht.wrote o hlo (by omega)
  · have hq : eptr s (j, slot (o / BSIZE)) ≠ 0 := by
      rw [h.eptr_eq]
      exact (h.consistent.holes j hused _ ((Nat.div_mul_le_self o BSIZE).trans_lt ho)).2
    rw [hu.byte, h.byteAt_eq]
    by_cases hin : j = i ∧ hi ≤ o ∧ o < off + n
    · obtain ⟨rfl, hlo, hlt⟩ := hin
      exact hafter o hlo hlt ho hq
    · refine ht.other j o hq fun hj => ?_
      have := hout hj
      have : ¬ (hi ≤ o ∧ o < off + n) := fun hc => hin ⟨hj, hc⟩
      omega

/-- Whether the sum of two `uint`s wraps around. -/
theorem wrap_iff (off n : Uint) : (off + n).toNat < off.toNat ↔ 2 ^ 32 ≤ off.toNat + n.toNat := by
  have hoff := off.isLt
  have hn := n.isLt
  rw [BitVec.toNat_add]
  omega

theorem toNat_add_of_le (h : ¬ (off + n).toNat < off.toNat) : (off + n).toNat = off.toNat + n.toNat := by
  rw [wrap_iff] at h
  rw [BitVec.toNat_add]
  omega

/-- What `writei` refuses. -/
def Refused (size : Nat) (off n : Uint) : Prop :=
  size < off.toNat ∨ 2 ^ 32 ≤ off.toNat + n.toNat ∨ MAXFILE * BSIZE < off.toNat + n.toNat

/-- What is left of `writei` when it is known what its loop does. -/
theorem writei_of_loop {src : Source} {R : Nat × Nat → State → Prop} (h : Inv s) (hv : s.valid i = true)
    (hloop : ¬ Refused (s.dinode i).size off n → Wp (fun _ => False) (writeiLoop i src n.toNat n.toNat 0 off.toNat) s R) :
    Wp (fun _ => False) (writei i src off n) s fun r t => Refused (s.dinode i).size off n ∧ r = -1 ∧ t = s ∨
      ¬ Refused (s.dinode i).size off n ∧ ∃ p u d, R p u ∧ r = (p.1 : Int) ∧ t = (u.withInode i d).withDinode i d ∧
        d = if (u.inode i).size < p.2 then (u.inode i).withSize p.2 else u.inode i := by
  rw [← h.synced i hv] at hloop ⊢
  refine Wp.bind (R := fun d t => d = s.inode i ∧ t = s) ⟨rfl, rfl⟩ ?_
  rintro d t ⟨rfl, rfl⟩
  by_cases hwrap : (t.inode i).size < off.toNat ∨ (off + n).toNat < off.toNat
  · rw [if_pos hwrap]
    rw [wrap_iff] at hwrap
    exact .inl ⟨hwrap.imp_right .inl, rfl, rfl⟩
  · rw [if_neg hwrap]
    rw [not_or] at hwrap
    have hsum := toNat_add_of_le hwrap.2
    rw [hsum]
    by_cases hmax : MAXFILE * BSIZE < off.toNat + n.toNat
    · rw [if_pos hmax]
      exact .inl ⟨.inr (.inr hmax), rfl, rfl⟩
    · rw [if_neg hmax]
      have haccept : ¬ Refused (t.inode i).size off n := by
        rintro (hc | hc | hc)
        · exact hwrap.1 hc
        · exact hwrap.2 ((wrap_iff off n).2 hc)
        · exact hmax hc
      refine (hloop haccept).bind fun p u hu => ?_
      refine Wp.of_eq (a := (p.1 : Int)) ?_ (.inr ⟨haccept, p, u, _, hu, rfl, rfl, rfl⟩)
      show Except.ok ((p.1 : Int), State.withDinode _ i (State.inode _ i)) = _
      rw [State.withInode_inode, update_self]

/-- The loop of a call that is not refused. -/
theorem writeiLoop_start_wp (src : Source) (h : Inv s) (hv : s.valid i = true) (hn : ¬ Refused (s.dinode i).size off n) :
    Wp (fun _ => False) (writeiLoop i src n.toNat n.toNat 0 off.toNat) s fun r t => Wrote i off.toNat n.toNat src.byte s r.2 t ∧
      ((∀ k < n.toNat, src.fails k = none) → missing (fun k => eptr s (i, k)) (off.toNat / BSIZE) (blocksTo (off.toNat + n.toNat)) ≤ s.nfree →
        r = (n.toNat, off.toNat + n.toNat)) := by
  unfold Refused at hn
  have hcov : ∀ bn, bn * BSIZE < off.toNat → eptr s (i, slot bn) ≠ 0 := fun bn hbn => (h.block hv (by rw [h.synced i hv]; omega)).2
  refine (writeiLoop_wp src n.toNat n.toNat 0 off.toNat h.core hv (by omega) hcov).mono fun r t ht => ?_
  simp only [Nat.sub_zero, Nat.zero_add, Nat.zero_le, forall_const] at ht
  exact ⟨ht.1, fun hnone hroom => ht.2 hnone le_rfl fun _ => hroom⟩

theorem writei_wp (src : Source) (off n : Uint) (h : Inv s) (hv : s.valid i = true) :
    Wp (fun _ => False) (writei i src off n) s fun r t => Kept s t ∧ (Refused (s.dinode i).size off n → r = -1 ∧ t = s) ∧
      (¬ Refused (s.dinode i).size off n → (∀ k < n.toNat, src.fails k = none) →
        missing (fun k => s.ptr (i, k)) (off.toNat / BSIZE) (blocksTo (off.toNat + n.toNat)) ≤ s.nfree →
        r = n.toNat ∧ Written i off.toNat n.toNat src.byte s t) := by
  refine (writei_of_loop h hv (writeiLoop_start_wp src h hv)).mono fun r t ht => ?_
  rcases ht with ⟨hr, rfl, rfl⟩ | ⟨hn, p, u, d, ⟨hwrote, hall⟩, rfl, rfl, hd⟩
  · exact ⟨⟨h, rfl, rfl, rfl⟩, fun _ => ⟨rfl, rfl⟩, fun hn => absurd hr hn⟩
  · have hupdate := hwrote.update h hv (not_lt.1 fun hc => hn (.inr (.inr hc))) hd
    refine ⟨hupdate.kept, fun hr => absurd hr hn, fun _ hnone hroom => ?_⟩
    rw [h.eptr_eq] at hall
    obtain rfl := hall hnone hroom
    have hwritten := hupdate.written h hwrote fun o hlo hlt _ _ => absurd hlt (by dsimp only at hlo; omega)
    dsimp only at hwritten
    rw [Nat.add_sub_cancel_left] at hwritten
    exact ⟨rfl, hwritten⟩

end InoAux

end Xv6.Ino
