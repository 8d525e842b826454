import Xv6.Lemmas.InodeWrite

/-!
# `readi`, `iput`, `ialloc` and `create`

What these functions keep, and what `readi` reads: in a file without holes `bmap` finds every block below the size, so reading changes
nothing. `create` is put together from functions that each keep `Inv`; along the way it holds on to the inodes it has locked.
-/

namespace Xv6.Ino

open Lib Function List

open Fs (IType Name)

namespace InoAux

variable {s t u : State} {i j k b r bn : Nat} {q : Nat × Nat} (dp : Nat) (fails : Nat → Bool) (type : IType) (name : Name)

/-- The panics that may be reached. -/
def Safe (e : Panic) : Prop := e ≠ .freeingFreeBlock

theorem wp_safe {α : Type} {m : M α} {Q : α → State → Prop} (h : Wp (fun _ => False) m s Q) : Wp Safe m s Q :=
  h.weaken fun _ he => he.elim

/-! ## `readi` -/

theorem readiLoop_wp (n fuel tot off : Nat) (h : Inv s) (hv : s.valid i = true)
    (hsize : off + (n - tot) ≤ (s.inode i).size) :
    Wp (fun _ => False) (readiLoop i fails n fuel tot off) s fun r t => t = s ∧ ((∀ k, fails k = false) → n - tot ≤ fuel → tot ≤ n →
      r = ((n : Int), (range (n - tot)).map fun k => s.byteAt i (off + k))) := by
  induction fuel generalizing tot off with
  | zero =>
    refine ⟨rfl, fun _ hfuel htot => ?_⟩
    obtain rfl : tot = n := by omega
    rw [Nat.sub_self]
    rfl
  | succ fuel ih =>
    unfold readiLoop
    by_cases hlt : tot < n
    · rw [if_pos hlt]
      have hlt : off / BSIZE * BSIZE < (s.inode i).size := (Nat.div_mul_le_self off BSIZE).trans_lt (by omega)
      have hblock := h.block hv hlt
      refine (bmap_wp h.core hv hblock.1).bind fun addr t ht => ?_
      obtain ⟨rfl, hptr⟩ := ht.same hblock.2
      have haddr : addr ≠ 0 := by rw [hptr]; exact hblock.2
      rw [if_neg haddr]
      refine Wp.bind (R := fun d u => d = t.disk addr ∧ u = t) ⟨rfl, rfl⟩ ?_
      rintro d u ⟨rfl, rfl⟩
      cases hfail : fails tot with
      | true => exact ⟨rfl, fun hnone => absurd (hnone tot) (by rw [hfail]; decide)⟩
      | false =>
        generalize hm : min (n - tot) (BSIZE - off % BSIZE) = m
        have hmn : m ≤ n - tot := hm ▸ Nat.min_le_left ..
        have hmb : m ≤ BSIZE - off % BSIZE := hm ▸ Nat.min_le_right ..
        have hmpos : 0 < m := by
          have : off % BSIZE < BSIZE := Nat.mod_lt _ (by decide)
          omega
        refine (ih (tot + m) (off + m) (by omega)).bind ?_
        rintro r u ⟨rfl, hr⟩
        refine ⟨rfl, fun hnone hfuel htot => ?_⟩
        have hr := hr hnone (by omega) (by omega)
        rw [hr]
        refine Prod.ext rfl ?_
        show Block.load _ _ _ ++ _ = _
        rw [show n - tot = m + (n - (tot + m)) by omega, range_add, map_append, map_map]
        congr 1
        · unfold Block.load
          refine map_congr_left fun k hk => ?_
          obtain ⟨hdiv, hmod⟩ := div_mod_add hmb (mem_range.1 hk)
          unfold State.byteAt
          rw [← h.eptr_eq, hdiv, hmod, ← hptr]
        · refine map_congr_left fun k _ => ?_
          rw [Function.comp_apply, Nat.add_assoc]
    · rw [if_neg hlt]
      refine ⟨rfl, fun _ _ htot => ?_⟩
      obtain rfl : tot = n := by omega
      rw [Nat.sub_self]
      rfl

theorem readi_wp (off n : Uint) (h : Inv s) (hv : s.valid i = true) :
    Wp (fun _ => False) (readi i fails off n) s fun r t => t = s ∧ ((∀ k, fails k = false) →
      r = if (s.inode i).size < off.toNat ∨ 2 ^ 32 ≤ off.toNat + n.toNat then (0, [])
        else (((min n.toNat ((s.inode i).size - off.toNat) : Nat) : Int),
          (range (min n.toNat ((s.inode i).size - off.toNat))).map fun k => s.byteAt i (off.toNat + k))) := by
  refine Wp.bind (R := fun d t => d = s.inode i ∧ t = s) ⟨rfl, rfl⟩ ?_
  rintro d t ⟨rfl, rfl⟩
  by_cases hout : (t.inode i).size < off.toNat ∨ (off + n).toNat < off.toNat
  · rw [if_pos hout]
    rw [wrap_iff] at hout
    exact ⟨rfl, fun _ => (if_pos hout).symm⟩
  · have hin := hout
    rw [wrap_iff] at hin
    rw [if_neg hout, if_neg hin]
    rw [not_or, not_lt] at hout
    have hmin : (if (t.inode i).size < (off + n).toNat then (t.inode i).size - off.toNat else n.toNat) =
        min n.toNat ((t.inode i).size - off.toNat) := by
      rw [toNat_add_of_le hout.2]
      split <;> omega
    show Wp _ (readiLoop i fails (if (t.inode i).size < (off + n).toNat then (t.inode i).size - off.toNat else n.toNat)
      (if (t.inode i).size < (off + n).toNat then (t.inode i).size - off.toNat else n.toNat) 0 off.toNat) t _
    rw [hmin]
    refine (readiLoop_wp fails _ _ 0 off.toNat h hv (by omega)).mono fun r t ht => ⟨ht.1, fun hnone => ?_⟩
    rw [ht.2 hnone (by omega) (by omega)]
    rfl

/-! ## The inode table -/

/-- The addresses of blocks are as they were, inodes that are changed are free or empty, and the copies in the table are what is there. -/
theorem Inv.of_ptr (h : Inv s) (hsb : t.sb = s.sb) (hbitmap : t.bitmap = s.bitmap) (hdisk : t.disk = s.disk) (hptr : t.ptr = s.ptr)
    (hdinode : ∀ i, t.dinode i = s.dinode i ∨ (t.dinode i).type = .free ∨ (t.dinode i).size = 0)
    (hsynced : ∀ i, t.valid i = true → t.inode i = t.dinode i ∧ (t.dinode i).type ≠ .free) : Inv t := by
  have hc := h.consistent
  refine Consistent.inv ⟨⟨?_, ?_, ?_⟩, ?_, ?_, ?_, fun i hi bn hbn => ?_, hsynced⟩
  · rw [hsb, hbitmap, hptr]
    exact hc.owned.marked
  · rw [hbitmap, hptr]
    exact hc.owned.clear
  · rw [hsb, hptr]
    exact hc.owned.range
  · rw [hsb]
    exact hc.pos
  · rw [hsb]
    exact hc.uint
  · rw [hsb, hbitmap]
    exact hc.metadata
  · rcases hdinode i with hsame | hfree | hempty
    · rw [hsame] at hi hbn ⊢
      rw [hdisk]
      exact hc.holes i hi bn hbn
    · exact absurd hfree hi
    · rw [hempty] at hbn
      exact absurd hbn (Nat.not_lt_zero _)

/-- The disk is as it was, and the copies in the table are what is there. -/
theorem Inv.of_table (h : Inv s) (hsb : t.sb = s.sb) (hbitmap : t.bitmap = s.bitmap) (hdisk : t.disk = s.disk)
    (hdinode : t.dinode = s.dinode) (hsynced : ∀ i, t.valid i = true → t.inode i = s.dinode i ∧ (s.dinode i).type ≠ .free) : Inv t := by
  refine h.of_ptr hsb hbitmap hdisk ?_ (fun i => .inl (congrFun hdinode i)) (by rwa [hdinode])
  funext q
  unfold State.ptr
  rw [hdinode, hdisk]

/-- An entry of the table that has been referred to and read. -/
def Held (s : State) (i : Nat) : Prop := 0 < s.ref i ∧ s.valid i = true

/-- What a call that holds on to inodes keeps: those it has referred to and read stay so. -/
structure Holds (s t : State) : Prop where
  inv : Inv t
  held : ∀ i, Held s i → Held t i

theorem Holds.refl (h : Inv s) : Holds s s := ⟨h, fun _ hi => hi⟩

theorem Holds.trans (h : Holds s t) (h' : Holds t u) : Holds s u := ⟨h'.inv, fun i hi => h'.held i (h.held i hi)⟩

theorem Kept.holds (h : Kept s t) : Holds s t := by
  refine ⟨h.inv, fun i hi => ?_⟩
  unfold Held
  rw [h.ref, h.valid]
  exact hi

/-- What `iget` does: one reference more, and a new entry is not valid. -/
structure Got (i : Nat) (s t : State) : Prop where
  inv : Inv t
  ref : t.ref = update s.ref i (s.ref i + 1)
  valid : ∀ j, 0 < s.ref j → t.valid j = s.valid j

theorem iget_wp (i : Nat) (h : Inv s) : Wp Safe (iget i) s fun _ t => Got i s t := by
  have hc := h.consistent
  by_cases hr : 0 < s.ref i
  · refine Wp.of_eq (show iget i s = .ok ((), s.withRef i (s.ref i + 1)) by rw [iget, if_pos hr]) ⟨?_, rfl, fun _ _ => rfl⟩
    exact h.of_table rfl rfl rfl rfl hc.synced
  · by_cases hfull : NINODE ≤ s.active
    · unfold Wp
      rw [show iget i s = .error .igetNoInodes by rw [iget, if_neg hr, if_pos hfull]]
      exact Panic.noConfusion
    · refine Wp.of_eq (show iget i s = .ok ((), (s.withRef i 1).withValid i false) by rw [iget, if_neg hr, if_neg hfull]) ⟨?_, ?_, fun j hj => ?_⟩
      · refine h.of_table rfl rfl rfl rfl fun j hvj => ?_
        have hji : j ≠ i := by
          rintro rfl
          rw [State.withValid_valid, update_self] at hvj
          cases hvj
        rw [State.withValid_valid, update_of_ne hji] at hvj
        exact hc.synced j hvj
      · show update s.ref i 1 = _
        rw [show s.ref i = 0 by omega]
      · have hji : j ≠ i := by
          rintro rfl
          exact hr hj
        exact update_of_ne hji ..

theorem Got.holds (h : Got i s t) : Holds s t := by
  refine ⟨h.inv, fun j hj => ⟨?_, by rw [h.valid j hj.1]; exact hj.2⟩⟩
  rw [h.ref, update_apply]
  split_ifs
  · omega
  · exact hj.1

/-- An inode that was locked is referred to twice once `iget` has found it again. -/
theorem Got.ref_two (h : Got i s t) (hr : 0 < s.ref i) : 2 ≤ t.ref i := by
  rw [h.ref, update_self]
  omega

/-- What `ilock` does: the entry has been read, the disk is as it was. -/
structure Locked (i : Nat) (s t : State) : Prop extends Holds s t where
  self : Held t i
  ref : t.ref = s.ref
  sb : t.sb = s.sb
  bitmap : t.bitmap = s.bitmap
  disk : t.disk = s.disk
  logged : t.logged = s.logged
  dinode : t.dinode = s.dinode
  writes : t.writes = s.writes

theorem ilock_wp (i : Nat) (h : Inv s) :
    Wp (fun e => Safe e ∧ (s.ref i = 0 ∨ (s.dinode i).type = .free)) (ilock i) s fun _ t => Locked i s t := by
  have hc := h.consistent
  by_cases hr : s.ref i < 1
  · unfold Wp
    rw [show ilock i s = .error .ilock by rw [ilock, if_pos hr]]
    exact ⟨Panic.noConfusion, .inl (by omega)⟩
  · by_cases hv : s.valid i = true
    · exact Wp.of_eq (show ilock i s = .ok ((), s) by rw [ilock, if_neg hr, if_pos hv])
        ⟨.refl h, ⟨by omega, hv⟩, rfl, rfl, rfl, rfl, rfl, rfl, rfl⟩
    · by_cases hfree : (s.dinode i).type = .free
      · unfold Wp
        rw [show ilock i s = .error .ilockNoType by rw [ilock, if_neg hr, if_neg hv, if_pos hfree]]
        exact ⟨Panic.noConfusion, .inr hfree⟩
      · have hself : ((s.withInode i (s.dinode i)).withValid i true).valid i = true := update_self ..
        refine Wp.of_eq (show ilock i s = .ok ((), (s.withInode i (s.dinode i)).withValid i true) by
          rw [ilock, if_neg hr, if_neg hv, if_neg hfree])
          ⟨⟨?_, fun j hj => ⟨hj.1, ?_⟩⟩, ⟨not_lt.1 hr, hself⟩, rfl, rfl, rfl, rfl, rfl, rfl, rfl⟩
        · refine h.of_table rfl rfl rfl rfl fun j hvj => ?_
          by_cases hj : j = i
          · subst hj
            exact ⟨update_self .., hfree⟩
          · have hvj' : s.valid j = true := (update_of_ne hj ..).symm.trans hvj
            exact ⟨(update_of_ne hj ..).trans (hc.synced j hvj').1, (hc.synced j hvj').2⟩
        · by_cases hji : j = i
          · rw [hji]
            exact hself
          · exact (update_of_ne hji ..).trans hj.2

theorem ilock_safe_wp (i : Nat) (h : Inv s) : Wp Safe (ilock i) s fun _ t => Locked i s t := (ilock_wp i h).weaken fun _ he => he.1

/-- Fields other than the size and the addresses are changed, and written to the disk. -/
theorem update_wp {α : Type} {m : M α} {Q : α → State → Prop} {allowed : Panic → Prop} {f : Dinode → Dinode} (h : Inv s) (hv : s.valid i = true)
    (htype : ∀ d, (f d).type = d.type) (hsize : ∀ d, (f d).size = d.size) (haddrs : ∀ d, (f d).addrs = d.addrs)
    (hm : ∀ t, Kept s t → Wp allowed m t Q) :
    Wp allowed (do modifyInode i f; iupdate i; m) s Q := by
  have hkept := ((Touched.refl (i := i) h.core).update (d := f (s.inode i)) h hv (htype _) (haddrs _) fun bn hbn => h.block hv (hsize _ ▸ hbn)).1
  refine Wp.bind (R := fun _ t => t = s.withInode i (f (s.inode i))) rfl ?_
  rintro _ t rfl
  refine Wp.bind (R := fun _ t => t = (s.withInode i (f (s.inode i))).withDinode i (f (s.inode i))) ?_ ?_
  · show State.withDinode _ i (State.inode _ i) = _
    rw [State.withInode_inode, update_self]
  · rintro _ t rfl
    exact hm _ hkept

/-! ## `iput` -/

/-- What `iput` does: one reference less, and if that frees the inode, all its blocks are given back. -/
structure Given (i : Nat) (s t : State) : Prop where
  inv : Inv t
  ref : t.ref = update s.ref i (s.ref i - 1)
  valid : ∀ j, (j = i → 2 ≤ s.ref i) → t.valid j = s.valid j
  blocks : (s.dinode i).type ≠ .free → (t.dinode i).type = .free → ∀ k, s.ptr (i, k) ≠ 0 → t.bitmap (s.ptr (i, k)) = false

/-- A block whose pointer is gone, while the others are as they were or gone too, is free. -/
theorem Inv.clear_of_gone (h : Inv s) (h' : Inv t) (hsb : t.sb = s.sb) (hptr : ∀ q, t.ptr q = 0 ∨ t.ptr q = s.ptr q) (hgone : t.ptr q = 0)
    (hq : s.ptr q ≠ 0) : t.bitmap (s.ptr q) = false := by
  by_contra hmarked
  have howns := h.core.owns
  have howns' := h'.core.owns
  rw [h.eptr_eq] at howns
  rw [h'.eptr_eq] at howns'
  obtain ⟨hlo, hhi⟩ := howns.range q hq
  rw [← hsb] at hlo hhi
  obtain ⟨q', hq'⟩ := howns'.owner _ hlo hhi (by simpa using hmarked)
  have hsame : s.ptr q' = s.ptr q := (hptr q').elim (fun hz => absurd (hq'.symm.trans hz) hq) fun heq => heq.symm.trans hq'
  obtain rfl := howns.inj q q' hq hsame
  exact hq (hq'.symm.trans hgone)

/-- `itrunc` gives back all blocks of the inode. -/
theorem Emptied.clear (h : Inv s) (ht : Emptied i s t) (hk : s.ptr (i, k) ≠ 0) : t.bitmap (s.ptr (i, k)) = false := by
  refine h.clear_of_gone ht.kept.inv ht.kept.sb (fun q => ?_) ?_ hk
  · rw [← ht.kept.inv.eptr_eq, ← h.eptr_eq]
    obtain ⟨j, k'⟩ := q
    by_cases hj : j = i
    · exact .inl (hj ▸ ht.none k')
    · exact .inr (ht.other (j, k') hj)
  · rw [← ht.kept.inv.eptr_eq]
    exact ht.none k

/-- What is left when the last reference to an inode without links is given back. -/
structure Freed (i : Nat) (s t : State) : Prop where
  inv : Inv t
  sb : t.sb = s.sb
  disk : t.disk = s.disk
  dinode : ∀ j, j ≠ i → t.dinode j = s.dinode j
  type : (t.dinode i).type = .free
  valid : ∀ j, j ≠ i → t.valid j = s.valid j
  bits : ∀ b, b ≠ 0 → (∀ k, s.ptr (i, k) ≠ b) → t.bitmap b = s.bitmap b

theorem Freed.ptr_self (h : Freed i s t) (k : Nat) : t.ptr (i, k) = 0 := Dinode.ptr_free h.type

theorem Freed.ptr_other (h : Freed i s t) (hq : q.1 ≠ i) : t.ptr q = s.ptr q := by
  unfold State.ptr
  rw [h.dinode q.1 hq, h.disk]

theorem Freed.clear (h : Inv s) (ht : Freed i s t) (hk : s.ptr (i, k) ≠ 0) : t.bitmap (s.ptr (i, k)) = false := by
  refine h.clear_of_gone ht.inv ht.sb (fun q => ?_) (ht.ptr_self k) hk
  obtain ⟨j, k'⟩ := q
  by_cases hj : j = i
  · exact .inl (hj ▸ ht.ptr_self k')
  · exact .inr (ht.ptr_other hj)

theorem iputLast_wp (h : Inv s) (hv : s.valid i = true) : Wp (fun _ => False) (iputLast i) s fun _ t => Freed i s t ∧ t.ref = s.ref := by
  refine (itrunc_wp h hv).bind fun _ t ht => ?_
  obtain ⟨u, hu⟩ : ∃ u, u = ((t.withInode i ((t.inode i).withType .free)).withDinode i ((t.inode i).withType .free)).withValid i false := ⟨_, rfl⟩
  have hdisk : u.disk = t.disk := by rw [hu]; rfl
  have hdi : u.dinode i = (t.inode i).withType .free := by rw [hu]; exact update_self ..
  have hdj : ∀ j, j ≠ i → u.dinode j = t.dinode j := fun j hj => by rw [hu]; exact update_of_ne hj ..
  have hvj : ∀ j, j ≠ i → u.valid j = t.valid j := fun j hj => by rw [hu]; exact update_of_ne hj ..
  have huptr : u.ptr = t.ptr := by
    funext q
    by_cases hq : q.1 = i
    · obtain ⟨j, k⟩ := q
      obtain rfl : j = i := hq
      rw [← ht.kept.inv.eptr_eq, ht.none k]
      unfold State.ptr
      rw [hdi]
      exact Dinode.ptr_free rfl
    · unfold State.ptr
      rw [hdj q.1 hq, hdisk]
  have hinv : Inv u := by
    refine ht.kept.inv.of_ptr (by rw [hu]; rfl) (by rw [hu]; rfl) hdisk huptr (fun j => ?_) fun j hvu => ?_
    · by_cases hji : j = i
      · rw [hji, hdi]
        exact .inr (.inl rfl)
      · exact .inl (hdj j hji)
    · have hji : j ≠ i := by
        rintro rfl
        rw [hu, State.withValid_valid, update_self] at hvu
        cases hvu
      rw [hdj j hji, show u.inode j = t.inode j by rw [hu]; exact update_of_ne hji ..]
      exact ht.kept.inv.consistent.synced j (by rw [← hvj j hji]; exact hvu)
  refine Wp.of_eq (a := ()) (t := u) ?_ ⟨⟨hinv, ?_, hdisk.trans ht.disk, fun j hj => (hdj j hj).trans (ht.dinode j hj), ?_, fun j hj => ?_,
    fun b hb hk => ?_⟩, ?_⟩
  · show Except.ok ((), State.withValid (State.withDinode _ i (State.inode _ i)) i false) = _
    rw [State.withInode_inode, update_self, hu]
  · rw [hu]
    exact ht.kept.sb
  · rw [hdi]
    rfl
  · rw [hvj j hj, ht.kept.valid]
  · rw [hu]
    exact ht.bits b hb (by rw [h.eptr_eq]; exact hk)
  · rw [hu]
    exact ht.kept.ref

/-- The last reference to an inode without links is given back. -/
theorem iput_last_wp (h : Inv s) (hlast : s.ref i = 1 ∧ s.valid i = true ∧ (s.inode i).nlink = 0) :
    Wp (fun _ => False) (iput i) s fun _ t => Freed i s t ∧ t.ref = update s.ref i 0 := by
  refine Wp.bind_eq (a := true) (t := s) (by rw [decide_eq_true hlast]) ((iputLast_wp h hlast.2.1).bind ?_)
  rintro _ u ⟨hfreed, hsame⟩
  refine Wp.of_eq (t := u.withRef i (u.ref i - 1)) rfl ⟨⟨hfreed.inv.of_table rfl rfl rfl rfl hfreed.inv.consistent.synced, hfreed.sb, hfreed.disk,
    hfreed.dinode, hfreed.type, hfreed.valid, hfreed.bits⟩, ?_⟩
  show update u.ref i (u.ref i - 1) = _
  rw [hsame, hlast.1]

theorem iput_unref (hlast : ¬(s.ref i = 1 ∧ s.valid i = true ∧ (s.inode i).nlink = 0)) :
    iput i s = .ok ((), s.withRef i (s.ref i - 1)) := run_bind (a := false) (t := s) (by rw [decide_eq_false hlast])

theorem iput_wp (i : Nat) (h : Inv s) : Wp (fun _ => False) (iput i) s fun _ t => Given i s t := by
  by_cases hlast : s.ref i = 1 ∧ s.valid i = true ∧ (s.inode i).nlink = 0
  · refine (iput_last_wp h hlast).mono ?_
    rintro _ u ⟨hfreed, href⟩
    refine ⟨hfreed.inv, by rw [href, hlast.1], fun j hj => hfreed.valid j fun hji => ?_, fun _ _ k hk => hfreed.clear h hk⟩
    have := hj hji
    omega
  · exact Wp.of_eq (iput_unref hlast)
      ⟨h.of_table rfl rfl rfl rfl h.consistent.synced, rfl, fun _ _ => rfl, fun hne hfree => absurd hfree hne⟩

/-- Giving back one of two references, or another inode, lets go of nothing. -/
theorem Given.holds (h : Given i s t) (hi : j ≠ i ∨ 2 ≤ s.ref j) (hj : Held s j) : Held t j := by
  unfold Held
  by_cases hji : j = i
  · subst hji
    have htwo : 2 ≤ s.ref j := hi.resolve_left fun hne => hne rfl
    rw [h.ref, update_self, h.valid j fun _ => htwo]
    exact ⟨by omega, hj.2⟩
  · rw [h.ref, update_of_ne hji, h.valid j fun heq => absurd heq hji]
    exact hj

/-! ## `ialloc` -/

theorem ptr_new (disk : Nat → Block) (k : Nat) : (⟨type, 0, 0, 0, 0, fun _ => 0⟩ : Dinode).ptr disk k = 0 := by
  by_cases hk : NDIRECT ≤ k
  · exact Dinode.ptr_none rfl hk
  · by_cases ht : type = .free
    · exact Dinode.ptr_free ht
    · exact Dinode.ptr_direct ht (by omega)

/-- A free inode is cleared and given a type. -/
theorem Inv.new (h : Inv s) (hfree : (s.dinode i).type = .free) (type : IType) :
    Inv (s.withDinode i ⟨type, 0, 0, 0, 0, fun _ => 0⟩) := by
  have hv := h.core.free i hfree
  have hself : (s.withDinode i ⟨type, 0, 0, 0, 0, fun _ => 0⟩).dinode i = ⟨type, 0, 0, 0, 0, fun _ => 0⟩ := update_self ..
  have hother : ∀ j, j ≠ i → (s.withDinode i ⟨type, 0, 0, 0, 0, fun _ => 0⟩).dinode j = s.dinode j := fun j hj => update_of_ne hj ..
  have hptr : (s.withDinode i ⟨type, 0, 0, 0, 0, fun _ => 0⟩).ptr = s.ptr := by
    funext q
    unfold State.ptr
    by_cases hq : q.1 = i
    · rw [hq, hself, ptr_new, Dinode.ptr_free hfree]
    · rw [hother q.1 hq]
      rfl
  refine h.of_ptr rfl rfl rfl hptr (fun j => ?_) fun j hvj => ?_
  · by_cases hji : j = i
    · rw [hji, hself]
      exact .inr (.inr rfl)
    · exact .inl (hother j hji)
  · have hji : j ≠ i := by
      rintro rfl
      exact absurd (hv.symm.trans hvj) Bool.noConfusion
    rw [hother j hji]
    exact h.consistent.synced j hvj

theorem ialloc_wp (h : Inv s) :
    Wp Safe (ialloc type) s fun _ t => Holds s t := by
  cases hf : (range s.sb.ninodes).find? fun i => 1 ≤ i ∧ (s.dinode i).type = .free with
  | none =>
    exact Wp.of_eq (show ialloc type s = .ok (none, s) by rw [ialloc, hf]) (.refl h)
  | some i =>
    have hfree : (s.dinode i).type = .free := (by simpa using find?_some hf : 1 ≤ i ∧ _).2
    have hnew := h.new hfree type
    refine Wp.congr (show ialloc type s = (do iget i; pure (some i) : M (Option Nat)) (s.withDinode i ⟨type, 0, 0, 0, 0, fun _ => 0⟩) by
      rw [ialloc, hf]) ((iget_wp i hnew).bind fun _ t ht => ⟨ht.inv, ht.holds.held⟩)

/-! ## Directories and `create` -/

/-- What `dirlookup` leaves: the inode it found, if any, has one reference more. -/
structure Looked (s : State) (r : Option (Nat × Nat)) (t : State) : Prop extends Holds s t where
  got : ∀ ip off, r = some (ip, off) → Got ip s t

theorem dirlookupLoop_wp (size fuel off : Nat) (h : Inv s) (hv : s.valid dp = true) :
    Wp Safe (dirlookupLoop dp name size fuel off) s fun r t => Looked s r t := by
  have hnone : Looked s none s := ⟨.refl h, fun ip off hr => by cases hr⟩
  induction fuel generalizing off with
  | zero => exact hnone
  | succ fuel ih =>
    unfold dirlookupLoop
    split
    · refine (wp_safe (readi_wp _ _ _ h hv)).bind ?_
      rintro r t ⟨rfl, -⟩
      split
      · exact Panic.noConfusion
      · split
        · refine (iget_wp _ h).bind fun _ u hu => ⟨hu.holds, fun ip off' hr => ?_⟩
          obtain ⟨rfl, -⟩ := Prod.mk.inj (Option.some.inj hr)
          exact hu
        · exact ih _
    · exact hnone

theorem dirlookup_wp (h : Inv s) (hv : s.valid dp = true) :
    Wp Safe (dirlookup dp name) s fun r t => Looked s r t := by
  refine Wp.bind (R := fun d t => d = s.inode dp ∧ t = s) ⟨rfl, rfl⟩ ?_
  rintro d t ⟨rfl, rfl⟩
  split
  · exact Panic.noConfusion
  · exact dirlookupLoop_wp dp name _ _ _ h hv

theorem dirlinkLoop_wp (dp size fuel off : Nat) (h : Inv s) (hv : s.valid dp = true) :
    Wp Safe (dirlinkLoop dp size fuel off) s fun _ t => t = s := by
  induction fuel generalizing off with
  | zero => exact rfl
  | succ fuel ih =>
    unfold dirlinkLoop
    split
    · refine (wp_safe (readi_wp _ _ _ h hv)).bind ?_
      rintro r t ⟨rfl, -⟩
      split
      · exact Panic.noConfusion
      · split
        · exact rfl
        · exact ih _
    · exact rfl

/-- Giving back what `dirlookup` found. -/
theorem Looked.given {ip off : Nat} (h : Looked s (some (ip, off)) t) (hg : Given ip t u) : Holds s u := by
  have hgot := h.got ip off rfl
  refine ⟨hg.inv, fun j hj => hg.holds ?_ (hgot.holds.held j hj)⟩
  by_cases hji : j = ip
  · exact .inr (hji ▸ hgot.ref_two (hji ▸ hj.1))
  · exact .inl hji

theorem dirlink_wp (inum : Nat) (h : Inv s) (hd : Held s dp) :
    Wp Safe (dirlink dp name inum) s fun _ t => Holds s t := by
  refine (dirlookup_wp dp name h hd.2).bind fun r t ht => ?_
  cases r with
  | some r =>
    obtain ⟨ip, off⟩ := r
    exact (wp_safe (iput_wp ip ht.inv)).bind fun _ u hu => ht.given hu
  | none =>
    have hdt := ht.held _ hd
    refine Wp.bind (R := fun d u => u = t) rfl ?_
    rintro d u rfl
    refine (dirlinkLoop_wp dp _ _ _ ht.inv hdt.2).bind ?_
    rintro off u rfl
    exact (wp_safe (writei_wp _ _ _ ht.inv hdt.2)).bind fun _ v hv => ht.toHolds.trans hv.1.holds

theorem newEntries_wp (dp ip : Nat) (name : Name) (type : IType) (h : Inv s) (hd : Held s dp) (hi : Held s ip) :
    Wp Safe (newEntries dp ip name type) s fun _ t => Holds s t := by
  have hdots : Wp Safe (dotEntries dp ip type) s fun _ t => Holds s t := by
    unfold dotEntries
    split
    · refine (dirlink_wp ip ['.'] ip h hi).bind fun r t ht => ?_
      split
      · exact (dirlink_wp ip ['.', '.'] dp ht.inv (ht.held _ hi)).mono fun _ u hu => ht.trans hu
      · exact ht
    · exact .refl h
  refine hdots.bind fun r t ht => ?_
  split
  · exact (dirlink_wp dp name ip ht.inv (ht.held _ hd)).mono fun _ u hu => ht.trans hu
  · exact ht

theorem iunlockput_wp (i : Nat) (h : Inv s) : Wp Safe (iunlockput i) s fun _ t => Inv t :=
  (wp_safe (iput_wp i h)).mono fun _ _ ht => ht.inv

theorem createNew_wp (type : IType) (major minor : Int) (h : Inv s) (hd : Held s dp) :
    Wp Safe (createNew dp name type major minor) s fun _ t => Inv t := by
  refine (ialloc_wp type h).bind fun r t ht => ?_
  cases r with
  | none => exact (iunlockput_wp dp ht.inv).bind fun _ _ hu => hu
  | some ip =>
    refine (ilock_safe_wp ip ht.inv).bind fun _ u hu => ?_
    have hdu := hu.held _ (ht.held _ hd)
    have hiu := hu.self
    refine update_wp hu.inv hiu.2 (fun _ => rfl) (fun _ => rfl) (fun _ => rfl) fun v hv => ?_
    refine (newEntries_wp dp ip name type hv.inv (hv.holds.held _ hdu) (hv.holds.held _ hiu)).bind fun r w hw => ?_
    have hdw := hw.held _ (hv.holds.held _ hdu)
    split
    · have hcount : Wp Safe (countSubdir dp type) w fun _ x => Inv x := by
        unfold countSubdir
        split
        · exact update_wp (m := pure ()) hw.inv hdw.2 (fun _ => rfl) (fun _ => rfl) (fun _ => rfl) fun x hx => hx.inv
        · exact hw.inv
      refine hcount.bind fun _ x hx => ?_
      exact (iunlockput_wp dp hx).bind fun _ _ hy => hy
    · refine update_wp hw.inv (hw.held _ (hv.holds.held _ hiu)).2 (fun _ => rfl) (fun _ => rfl) (fun _ => rfl) fun x hx => ?_
      refine (iunlockput_wp ip hx.inv).bind fun _ y hy => ?_
      exact (iunlockput_wp dp hy).bind fun _ _ hz => hz

theorem create_wp (type : IType) (major minor : Int) (h : Inv s) :
    Wp Safe (create dp name type major minor) s fun _ t => Inv t := by
  refine (ilock_safe_wp dp h).bind fun _ t ht => ?_
  refine (dirlookup_wp dp name ht.inv ht.self.2).bind fun r u hu => ?_
  cases r with
  | some r =>
    obtain ⟨ip, off⟩ := r
    refine (iunlockput_wp dp hu.inv).bind fun _ v hv => ?_
    refine (ilock_safe_wp ip hv).bind fun _ w hw => ?_
    refine Wp.bind (R := fun _ x => x = w) rfl ?_
    rintro d x rfl
    split
    · exact hw.inv
    · exact (iunlockput_wp ip hw.inv).bind fun _ _ hy => hy
  | none => exact createNew_wp dp name type major minor hu.inv (hu.held _ ht.self)

/-! ## Calls -/

theorem run_wp (call : Call) (h : Inv s) : Wp Safe call.run s fun _ t => Inv t := by
  cases call with
  | iget ip => exact (iget_wp ip h).bind fun _ t ht => ht.inv
  | readi ip fails off n =>
    refine (ilock_safe_wp ip h).bind fun _ t ht => ?_
    refine (wp_safe (readi_wp fails off n ht.inv ht.self.2)).bind fun r u hu => ?_
    exact hu.1 ▸ ht.inv
  | writei ip src off n =>
    refine (ilock_safe_wp ip h).bind fun _ t ht => ?_
    exact (wp_safe (writei_wp src off n ht.inv ht.self.2)).bind fun r u hu => hu.1.inv
  | itrunc ip =>
    refine (ilock_safe_wp ip h).bind fun _ t ht => ?_
    exact (wp_safe (itrunc_wp ht.inv ht.self.2)).bind fun _ u hu => hu.kept.inv
  | nlink ip n =>
    refine (ilock_safe_wp ip h).bind fun _ t ht => ?_
    exact update_wp ht.inv ht.self.2 (fun _ => rfl) (fun _ => rfl) (fun _ => rfl) fun u hu => hu.inv
  | ialloc type => exact (ialloc_wp type h).bind fun _ t ht => ht.inv
  | create dp name type major minor => exact (create_wp dp name type major minor h).bind fun _ t ht => ht
  | iput ip => exact (wp_safe (iput_wp ip h)).bind fun _ t ht => ht.inv

end InoAux

end Xv6.Ino
