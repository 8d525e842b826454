import Xv6.Lemmas.InodePtr

/-!
# Every call keeps the ownership of blocks

`Inv` is what holds between the functions that `create` and the system calls are made of: blocks are owned, files have no holes, and the
copies in the inode table are what is on disk. `writei` and `itrunc` change the copy first and the disk last; in between `Core` holds.
-/

namespace Xv6.Ino

open Lib Function List

open Fs (IType Name)

namespace InoAux

variable {s t u : State} {i j k b r bn : Nat} {q : Nat × Nat} {p : Nat × Nat → Nat}

/-- What holds between two functions. -/
structure Inv (s : State) : Prop where
  core : Core s
  holes : ∀ i, (ino s i).type ≠ .free → (ino s i).NoHoles s.disk
  synced : ∀ i, s.valid i = true → s.inode i = s.dinode i

theorem Inv.ino_eq (h : Inv s) (i : Nat) : ino s i = s.dinode i := by
  unfold ino
  split
  · next hv => exact h.synced i hv
  · rfl

theorem Inv.eptr_eq (h : Inv s) : eptr s = s.ptr := by
  funext q
  unfold eptr State.ptr
  rw [h.ino_eq]

theorem Consistent.inv (h : s.Consistent) : Inv s := by
  have hino : ∀ i, ino s i = s.dinode i := by
    intro i
    unfold ino
    split
    · next hv => exact (h.synced i hv).1
    · rfl
  have heptr : eptr s = s.ptr := by
    funext q
    unfold eptr State.ptr
    rw [hino]
  have hmarked : ∀ q, s.ptr q ≠ 0 → s.bitmap (s.ptr q) = true := by
    intro q _
    by_contra hne
    exact h.owned.clear _ (Bool.eq_false_iff.2 hne) q rfl
  refine ⟨⟨⟨h.pos, h.metadata, ?_, ?_, ?_, ?_⟩, h.uint, fun i hfree => ?_, fun i hv => ?_⟩, fun i => ?_, fun i hv => (h.synced i hv).1⟩
  · rw [heptr]
    exact h.owned.range
  · rw [heptr]
    exact hmarked
  · rw [heptr]
    intro q q' hq heq
    obtain ⟨hlo, hhi⟩ := h.owned.range q hq
    exact ((h.owned.marked _ hlo hhi).1 (hmarked q hq)).unique heq rfl
  · rw [heptr]
    intro b hlo hhi hb
    exact ((h.owned.marked b hlo hhi).1 hb).exists
  · by_contra hv
    exact (h.synced i (by simpa using hv)).2 hfree
  · rw [(h.synced i hv).1]
  · rw [hino]
    exact h.holes i

theorem Inv.consistent (h : Inv s) : s.Consistent := by
  have howns := h.core.owns
  rw [h.eptr_eq] at howns
  refine ⟨⟨fun b hlo hhi => howns.existsUnique_iff hlo hhi, fun b hb q => howns.ne_of_free hb q, howns.range⟩, howns.pos, h.core.uint,
    howns.low, fun i hi => ?_, fun i hv => ⟨h.synced i hv, fun hfree => ?_⟩⟩
  · rw [← h.ino_eq] at hi ⊢
    exact h.holes i hi
  · rw [h.core.free i hfree] at hv
    cases hv

/-- What a call keeps for the other functions of the same system call. -/
structure Kept (s t : State) : Prop where
  inv : Inv t
  sb : t.sb = s.sb
  ref : t.ref = s.ref
  valid : t.valid = s.valid

/-- The copy of inode `i`, whose blocks are in order, is written to the disk. -/
theorem Core.sync {d : Dinode} (h : Core t) (hv : t.valid i = true) (hsynced : ∀ j, j ≠ i → t.valid j = true → t.inode j = t.dinode j)
    (hother : ∀ j, j ≠ i → (ino t j).type ≠ .free → (ino t j).NoHoles t.disk) (htype : d.type = (t.inode i).type)
    (haddrs : d.addrs = (t.inode i).addrs) (hholes : ∀ bn, bn * BSIZE < d.size → bn < MAXFILE ∧ eptr t (i, slot bn) ≠ 0) :
    Inv ((t.withInode i d).withDinode i d) ∧ eptr ((t.withInode i d).withDinode i d) = eptr t := by
  have hinoi : ino ((t.withInode i d).withDinode i d) i = d := (if_pos hv).trans (update_self ..)
  have hinoj : ∀ j, j ≠ i → ino ((t.withInode i d).withDinode i d) j = ino t j := fun j hj =>
    ino_congr rfl (update_of_ne hj ..) (update_of_ne hj ..)
  have hptr : ∀ k, d.ptr t.disk k = (ino t i).ptr t.disk k := fun k => by
    rw [ino_valid hv]
    exact Dinode.ptr_congr htype haddrs fun _ _ => rfl
  have heptr : eptr ((t.withInode i d).withDinode i d) = eptr t := by
    funext q
    by_cases hq : q.1 = i
    · unfold eptr
      rw [hq, hinoi]
      exact hptr q.2
    · unfold eptr
      rw [hinoj q.1 hq]
      rfl
  refine ⟨⟨⟨by rw [heptr]; exact h.owns, h.uint, fun j => ?_, fun j => ?_⟩, fun j => ?_, fun j hvj => ?_⟩, heptr⟩
  · rw [State.withDinode_dinode, update_apply]
    split_ifs with hj
    · rw [htype]
      exact fun hfree => absurd hfree (h.type_ino hv)
    · exact h.free j
  · show _ → (update t.inode i d j).type = (update t.dinode i d j).type
    rw [update_apply, update_apply]
    split_ifs with hj
    · rw [hj]
      exact fun _ => rfl
    · exact h.type j
  · by_cases hj : j = i
    · rw [hj, hinoi]
      intro _ bn hbn
      obtain ⟨hlt, hne⟩ := hholes bn hbn
      exact ⟨hlt, (hptr (slot bn)).trans_ne hne⟩
    · rw [hinoj j hj]
      exact hother j hj
  · show update t.inode i d j = update t.dinode i d j
    rw [update_apply, update_apply]
    split_ifs with hj
    · rfl
    · exact hsynced j hj hvj

/-- Inodes that are as they were, with pointers as they were, have no holes. -/
theorem Inv.holes_of_eq (h : Inv s) (hino : ino t j = ino s j) (hptr : ∀ k, eptr t (j, k) = eptr s (j, k)) (hfree : (ino t j).type ≠ .free) :
    (ino t j).NoHoles t.disk := by
  intro bn hbn
  rw [hino] at hfree hbn
  obtain ⟨hlt, hne⟩ := h.holes j hfree bn hbn
  exact ⟨hlt, (hptr (slot bn)).trans_ne hne⟩

/-- The blocks of a file without holes are there. -/
theorem Inv.block (h : Inv s) (hv : s.valid i = true) (hbn : bn * BSIZE < (s.inode i).size) : bn < MAXFILE ∧ eptr s (i, slot bn) ≠ 0 := by
  have htype := h.core.type_ino hv
  rw [← ino_valid hv] at htype hbn
  exact h.holes i htype bn hbn

/-! ## `itrunc` -/

/-- Blocks of inode `i` have been given back. -/
structure Trunc (i : Nat) (s t : State) : Prop extends OnlyAddrs i s t where
  core : Core t
  disk : t.disk = s.disk
  ptrs : ∀ q, eptr t q = eptr s q ∨ q.1 = i ∧ eptr t q = 0
  bits : ∀ b, b ≠ 0 → (∀ k, eptr s (i, k) ≠ b) → t.bitmap b = s.bitmap b

theorem Trunc.refl (h : Core s) : Trunc i s s :=
  ⟨.refl, h, rfl, fun _ => .inl rfl, fun _ _ _ => rfl⟩

theorem Trunc.trans (h : Trunc i s t) (h' : Trunc i t u) : Trunc i s u := by
  refine ⟨h.toOnlyAddrs.trans h'.toOnlyAddrs, h'.core, h'.disk.trans h.disk, fun q => ?_, fun b hb hk => ?_⟩
  · rcases h'.ptrs q with heq | hz
    · rw [heq]
      exact h.ptrs q
    · exact .inr hz
  · refine (h'.bits b hb fun k => ?_).trans (h.bits b hb hk)
    rcases h.ptrs (i, k) with heq | ⟨-, hz⟩
    · exact heq.trans_ne (hk k)
    · exact hz.trans_ne hb.symm

theorem Trunc.zero (h : Trunc i s t) (hq : eptr s q = 0) : eptr t q = 0 := by
  rcases h.ptrs q with heq | ⟨-, hz⟩
  · exact heq.trans hq
  · exact hz

theorem bfree_wp {m : M Unit} {Q : Unit → State → Prop} (hb : s.bitmap b = true) (h : Wp (fun _ => False) m (s.withBit b false) Q) :
    Wp (fun _ => False) (do bfree b; m) s Q := by
  refine Wp.bind (R := fun _ t => t = s.withBit b false) (Wp.of_eq (a := ()) (t := s.withBit b false) ?_ rfl) ?_
  · unfold bfree
    rw [if_neg (by rw [hb]; decide)]
  · rintro _ t rfl
    exact h

/-- One address is given back. -/
theorem Trunc.addr (h : Core s) (hv : s.valid i = true) (hk : k < NDIRECT) (hne : (s.inode i).addrs k ≠ 0) :
    Trunc i s ((s.withBit ((s.inode i).addrs k) false).withInode i ((s.inode i).withAddr k 0)) ∧
      eptr ((s.withBit ((s.inode i).addrs k) false).withInode i ((s.inode i).withAddr k 0)) (i, k) = 0 := by
  have hptr := h.addr_eq hv hk.le
  have hino : ino ((s.withBit ((s.inode i).addrs k) false).withInode i ((s.inode i).withAddr k 0)) i = (s.inode i).withAddr k 0 :=
    (if_pos hv).trans (update_self ..)
  have heptr : eptr ((s.withBit ((s.inode i).addrs k) false).withInode i ((s.inode i).withAddr k 0)) =
      update (eptr s) (i, k) 0 := by
    refine eptr_update (fun j hj => ptr_keep (ino_congr rfl (update_of_ne hj ..) rfl) fun _ => rfl) ?_
    rw [hino, ino_valid hv]
    exact Dinode.ptr_withAddr (h.type_ino hv) hk fun _ => rfl
  refine ⟨⟨⟨rfl, rfl, rfl, rfl, fun j hj => update_of_ne hj .., ?_⟩, ⟨?_, h.uint, h.free, fun j => ?_⟩, rfl,
    fun q => ?_, fun b _ hb => ?_⟩, ?_⟩
  · rw [State.withInode_inode, update_self]
    rfl
  · rw [heptr, hptr]
    exact h.owns.free (by rw [← hptr]; exact hne)
  · rw [State.withInode_inode, update_apply]
    split_ifs with hj
    · rw [hj]
      exact h.type i
    · exact h.type j
  · rw [heptr, update_apply]
    split_ifs with hq
    · rw [hq]
      exact .inr ⟨rfl, rfl⟩
    · exact .inl rfl
  · exact update_of_ne (fun heq => hb k (hptr.symm.trans heq.symm)) ..
  · rw [heptr, update_self]

theorem truncDirect_wp (ks : List Nat) (hks : ∀ k ∈ ks, k < NDIRECT) (h : Core s) (hv : s.valid i = true) :
    Wp (fun _ => False) (truncDirect i ks) s fun _ t => Trunc i s t ∧ ∀ k ∈ ks, eptr t (i, k) = 0 := by
  induction ks generalizing s with
  | nil => exact ⟨.refl h, fun k hk => absurd hk not_mem_nil⟩
  | cons k ks ih =>
    have hk := hks k mem_cons_self
    have hks' : ∀ k ∈ ks, k < NDIRECT := fun k' hk' => hks k' (mem_cons_of_mem k hk')
    refine Wp.bind (R := fun d t => d = s.inode i ∧ t = s) ⟨rfl, rfl⟩ ?_
    rintro d t ⟨rfl, rfl⟩
    have hptr := h.addr_eq hv hk.le
    by_cases hne : (t.inode i).addrs k ≠ 0
    · rw [if_pos hne]
      have hmarked : t.bitmap ((t.inode i).addrs k) = true := by
        rw [hptr] at hne ⊢
        exact h.owns.marked _ hne
      refine bfree_wp hmarked ?_
      obtain ⟨htr, hzero⟩ := Trunc.addr h hv hk hne
      refine Wp.bind (R := fun _ u => u = (t.withBit ((t.inode i).addrs k) false).withInode i ((t.inode i).withAddr k 0)) rfl ?_
      rintro _ u rfl
      refine (ih hks' htr.core (show t.valid i = true from hv)).mono fun _ u hu => ⟨htr.trans hu.1, fun k' hk' => ?_⟩
      rcases mem_cons.1 hk' with rfl | hk'
      · exact hu.1.zero hzero
      · exact hu.2 k' hk'
    · rw [if_neg hne]
      refine (ih hks' h hv).mono fun _ u hu => ⟨hu.1, fun k' hk' => ?_⟩
      rcases mem_cons.1 hk' with rfl | hk'
      · exact hu.1.zero (hptr.symm.trans (not_not.1 hne))
      · exact hu.2 k' hk'

/-- Only the free map differs. -/
structure OnlyBits (s t : State) : Prop where
  sb : t.sb = s.sb
  disk : t.disk = s.disk
  dinode : t.dinode = s.dinode
  ref : t.ref = s.ref
  valid : t.valid = s.valid
  inode : t.inode = s.inode

/-- The loop over the indirect block gives back what `p` says its entries refer to; the block itself is not written. -/
theorem truncIndirect_wp {a : Block} (js : List Nat) (hnodup : js.Nodup)
    (h : Owns s.sb.nmeta s.sb.size s.bitmap p) (hp : ∀ j ∈ js, p (i, NDIRECT + 1 + j) = (a.word j).toNat) :
    Wp (fun _ => False) (truncIndirect a js) s fun _ t => OnlyBits s t ∧ ∃ p', Owns s.sb.nmeta s.sb.size t.bitmap p' ∧
      (∀ j ∈ js, p' (i, NDIRECT + 1 + j) = 0) ∧ (∀ q, (∀ j ∈ js, q ≠ (i, NDIRECT + 1 + j)) → p' q = p q) ∧
      ∀ b, (∀ j ∈ js, p (i, NDIRECT + 1 + j) ≠ b) → t.bitmap b = s.bitmap b := by
  induction js generalizing s p with
  | nil => exact ⟨⟨rfl, rfl, rfl, rfl, rfl, rfl⟩, p, h, fun j hj => absurd hj not_mem_nil, fun _ _ => rfl, fun _ _ => rfl⟩
  | cons j js ih =>
    obtain ⟨hj, hnodup⟩ := nodup_cons.1 hnodup
    have hword := hp j mem_cons_self
    have hp' : ∀ j' ∈ js, p (i, NDIRECT + 1 + j') = (a.word j').toNat := fun j' hj' => hp j' (mem_cons_of_mem j hj')
    have hne : ∀ j' ∈ js, (i, NDIRECT + 1 + j') ≠ (i, NDIRECT + 1 + j) := by
      intro j' hj' heq
      have heq := (Prod.mk.inj heq).2
      exact hj ((show j' = j by omega) ▸ hj')
    unfold truncIndirect
    by_cases hzero : a.word j ≠ 0
    · rw [if_pos hzero]
      have hpj : p (i, NDIRECT + 1 + j) ≠ 0 := by
        rw [hword]
        exact fun h0 => hzero (BitVec.eq_of_toNat_eq h0)
      rw [← hword]
      refine bfree_wp (h.marked _ hpj) ?_
      refine (ih (s := s.withBit _ false) hnodup (h.free hpj) fun j' hj' => ?_).mono fun _ t ht => ?_
      · rw [update_of_ne (hne j' hj')]
        exact hp' j' hj'
      · obtain ⟨hbits, p', hown, hz, hsame, hkept⟩ := ht
        refine ⟨⟨hbits.sb, hbits.disk, hbits.dinode, hbits.ref, hbits.valid, hbits.inode⟩, p', hown, fun j' hj' => ?_, fun q hq => ?_, fun b hb => ?_⟩
        · rcases mem_cons.1 hj' with rfl | hj'
          · rw [hsame _ fun j'' hj'' => (hne j'' hj'').symm, update_self]
          · exact hz j' hj'
        · rw [hsame q fun j' hj' => hq j' (mem_cons_of_mem j hj'), update_of_ne (hq j mem_cons_self)]
        · refine (hkept b fun j' hj' => ?_).trans (update_of_ne (hb j mem_cons_self).symm ..)
          rw [update_of_ne (hne j' hj')]
          exact hb j' (mem_cons_of_mem j hj')
    · rw [if_neg hzero]
      refine (ih hnodup h hp').mono fun _ t ht => ?_
      obtain ⟨hbits, p', hown, hz, hsame, hkept⟩ := ht
      refine ⟨hbits, p', hown, fun j' hj' => ?_, fun q hq => hsame q fun j' hj' => hq j' (mem_cons_of_mem j hj'),
        fun b hb => hkept b fun j' hj' => hb j' (mem_cons_of_mem j hj')⟩
      rcases mem_cons.1 hj' with rfl | hj'
      · rw [hsame _ fun j'' hj'' => (hne j'' hj'').symm, hword, not_not.1 hzero]
        rfl
      · exact hz j' hj'

/-- The indirect block is given back after what its entries refer to. -/
theorem Trunc.last (h : Core s) (hv : s.valid i = true) (hb : (s.inode i).addrs NDIRECT = b) (hb0 : b ≠ 0)
    (ht : OnlyBits s t) (hown : Owns s.sb.nmeta s.sb.size t.bitmap p) (hz : ∀ j ∈ range NINDIRECT, p (i, NDIRECT + 1 + j) = 0)
    (hsame : ∀ q, (∀ j ∈ range NINDIRECT, q ≠ (i, NDIRECT + 1 + j)) → p q = eptr s q)
    (hkept : ∀ b, (∀ j ∈ range NINDIRECT, eptr s (i, NDIRECT + 1 + j) ≠ b) → t.bitmap b = s.bitmap b) :
    t.bitmap b = true ∧ Trunc i s ((t.withBit b false).withInode i ((s.inode i).withAddr NDIRECT 0)) ∧
      ∀ k, NDIRECT ≤ k → eptr ((t.withBit b false).withInode i ((s.inode i).withAddr NDIRECT 0)) (i, k) = 0 := by
  have htype := h.type_ino hv
  have hplast : p (i, NDIRECT) = b := by
    rw [hsame _ fun j _ heq => absurd (Prod.mk.inj heq).2 (by omega), ← h.addr_eq hv le_rfl, hb]
  generalize hu : (t.withBit b false).withInode i ((s.inode i).withAddr NDIRECT 0) = u
  have hself : u.inode i = (s.inode i).withAddr NDIRECT 0 := by rw [← hu]; exact update_self ..
  have honly : OnlyAddrs i s u := by
    refine ⟨?_, ?_, ?_, ?_, fun j hj => ?_, by rw [hself]; rfl⟩ <;> rw [← hu]
    exacts [ht.sb, ht.dinode, ht.ref, ht.valid, (update_of_ne hj ..).trans (congrFun ht.inode j)]
  have hdisk : u.disk = s.disk := by rw [← hu]; exact ht.disk
  have hbits : u.bitmap = update t.bitmap b false := by rw [← hu]; rfl
  have hptr : ∀ k, eptr u (i, k) = if k < NDIRECT then eptr s (i, k) else 0 := by
    intro k
    unfold eptr
    rw [ino_valid hv, ino_valid (by rw [honly.valid]; exact hv), hself]
    split
    · next hk =>
      rw [Dinode.ptr_direct (by exact htype) hk.le, Dinode.ptr_direct htype hk.le, Dinode.withAddr_addrs, update_of_ne (by omega)]
    · next hk => exact Dinode.ptr_none (by rw [Dinode.withAddr_addrs, update_self]) (by omega)
  have hother : ∀ q : Nat × Nat, q.1 ≠ i → eptr u q = eptr s q := by
    intro q hq
    unfold eptr
    rw [ino_congr (congrFun honly.valid q.1) (honly.inode q.1 hq) (congrFun honly.dinode q.1), hdisk]
  have heptr : eptr u = update p (i, NDIRECT) 0 := by
    funext q
    obtain ⟨j, k⟩ := q
    by_cases hj : j = i
    · subst hj
      rw [hptr]
      by_cases hk : k = NDIRECT
      · rw [hk, update_self, if_neg (lt_irrefl _)]
      · rw [update_of_ne fun heq => hk (Prod.mk.inj heq).2]
        by_cases hlt : k < NDIRECT
        · rw [if_pos hlt, hsame]
          exact fun j' _ heq => absurd (Prod.mk.inj heq).2 (by omega)
        · rw [if_neg hlt]
          by_cases hpast : k < NDIRECT + 1 + NINDIRECT
          · have hz' := hz (k - (NDIRECT + 1)) (mem_range.2 (by omega))
            rw [show NDIRECT + 1 + (k - (NDIRECT + 1)) = k by omega] at hz'
            exact hz'.symm
          · rw [hsame _ fun j' hj' heq => absurd (Prod.mk.inj heq).2 (by have := mem_range.1 hj'; omega)]
            exact (Dinode.ptr_past (by omega)).symm
    · rw [hother _ hj, update_of_ne fun heq => hj (Prod.mk.inj heq).1, hsame]
      exact fun j' _ heq => hj (Prod.mk.inj heq).1
  have hfree := hown.free (k := (i, NDIRECT)) (by rw [hplast]; exact hb0)
  rw [hplast] at hfree
  refine ⟨?_, ⟨honly, ⟨by rw [honly.sb, hbits, heptr]; exact hfree, by rw [honly.sb]; exact h.uint, fun j => ?_, fun j => ?_⟩, hdisk,
    fun q => ?_, fun b' _ hb' => ?_⟩, fun k hk => ?_⟩
  · rw [← hplast]
    exact hown.marked _ (by rw [hplast]; exact hb0)
  · rw [honly.dinode, honly.valid]
    exact h.free j
  · rw [honly.dinode, honly.valid]
    by_cases hj : j = i
    · rw [hj, hself]
      exact h.type i
    · rw [honly.inode j hj]
      exact h.type j
  · by_cases hq : q.1 = i
    · obtain ⟨j, k⟩ := q
      obtain rfl : j = i := hq
      rw [hptr]
      split
      · exact .inl rfl
      · exact .inr ⟨rfl, rfl⟩
    · exact .inl (hother q hq)
  · have hne : b' ≠ b := fun heq => hb' NDIRECT ((h.addr_eq hv le_rfl).symm.trans (hb.trans heq.symm))
    rw [hbits, update_of_ne hne]
    exact hkept b' fun j _ => hb' _
  · rw [hptr, if_neg (by omega)]

theorem truncLast_wp (h : Core s) (hv : s.valid i = true) :
    Wp (fun _ => False) (truncLast i) s fun _ t => Trunc i s t ∧ ∀ k, NDIRECT ≤ k → eptr t (i, k) = 0 := by
  refine Wp.bind (R := fun d t => d = s.inode i ∧ t = s) ⟨rfl, rfl⟩ ?_
  rintro d t ⟨rfl, rfl⟩
  by_cases hne : (t.inode i).addrs NDIRECT ≠ 0
  · rw [if_pos hne]
    refine Wp.bind (R := fun a u => a = t.disk ((t.inode i).addrs NDIRECT) ∧ u = t) ⟨rfl, rfl⟩ ?_
    rintro a t ⟨rfl, rfl⟩
    have hentry : ∀ j ∈ range NINDIRECT, eptr t (i, NDIRECT + 1 + j) = ((t.disk ((t.inode i).addrs NDIRECT)).word j).toNat := by
      intro j hj
      unfold eptr
      rw [ino_valid hv, Dinode.ptr_indirect (h.type_ino hv) hne (mem_range.1 hj)]
    refine (truncIndirect_wp _ nodup_range h.owns hentry).bind fun _ u hu => ?_
    obtain ⟨hbits, p, hown, hz, hsame, hkept⟩ := hu
    obtain ⟨hmarked, htr, hzero⟩ := Trunc.last h hv rfl hne hbits hown hz hsame hkept
    refine bfree_wp hmarked ?_
    rw [← hbits.inode] at htr hzero ⊢
    exact ⟨htr, hzero⟩
  · rw [if_neg hne]
    refine ⟨.refl h, fun k hk => ?_⟩
    unfold eptr
    rw [ino_valid hv]
    exact Dinode.ptr_none (not_not.1 hne) hk

/-- What `itrunc` leaves: the inode has no blocks, all else is as it was. -/
structure Emptied (i : Nat) (s t : State) : Prop where
  kept : Kept s t
  disk : t.disk = s.disk
  dinode : ∀ j, j ≠ i → t.dinode j = s.dinode j
  fields : t.dinode i = { s.dinode i with size := 0, addrs := (t.dinode i).addrs }
  none : ∀ k, eptr t (i, k) = 0
  other : ∀ q, q.1 ≠ i → eptr t q = eptr s q
  bits : ∀ b, b ≠ 0 → (∀ k, eptr s (i, k) ≠ b) → t.bitmap b = s.bitmap b

theorem itrunc_wp (h : Inv s) (hv : s.valid i = true) : Wp (fun _ => False) (itrunc i) s fun _ t => Emptied i s t := by
  refine (truncDirect_wp _ (fun k hk => mem_range.1 hk) h.core hv).bind fun _ t ht => ?_
  refine (truncLast_wp ht.1.core (by rw [ht.1.valid]; exact hv)).bind fun _ u hu => ?_
  have htr := ht.1.trans hu.1
  have hvu : u.valid i = true := by rw [htr.valid]; exact hv
  have hnone : ∀ k, eptr u (i, k) = 0 := by
    intro k
    by_cases hk : k < NDIRECT
    · exact hu.1.zero (ht.2 k (mem_range.2 hk))
    · exact hu.2 k (by omega)
  have hother : ∀ q : Nat × Nat, q.1 ≠ i → eptr u q = eptr s q := fun q hq => (htr.ptrs q).resolve_right fun hc => hq hc.1
  have hsynced : ∀ j, j ≠ i → u.valid j = true → u.inode j = u.dinode j := by
    intro j hj hvj
    rw [htr.inode j hj, htr.dinode]
    exact h.synced j (by rw [← htr.valid]; exact hvj)
  obtain ⟨hinv, heptr⟩ := htr.core.sync (d := (u.inode i).withSize 0) hvu hsynced
    (fun j hj => h.holes_of_eq (ino_congr (congrFun htr.valid j) (htr.inode j hj) (congrFun htr.dinode j)) fun k => hother (j, k) hj)
    rfl rfl fun bn hbn => absurd hbn (Nat.not_lt_zero _)
  have hfinal : Emptied i s ((u.withInode i ((u.inode i).withSize 0)).withDinode i ((u.inode i).withSize 0)) := by
    refine ⟨⟨hinv, htr.sb, htr.ref, htr.valid⟩, htr.disk, fun j hj => ?_, ?_, fun k => ?_, fun q hq => ?_, htr.bits⟩
    · exact (update_of_ne hj ..).trans (congrFun htr.dinode j)
    · rw [State.withDinode_dinode, update_self, htr.fields, h.synced i hv]
      rfl
    · rw [heptr]
      exact hnone k
    · rw [heptr]
      exact hother q hq
  refine Wp.of_eq (a := ()) ?_ hfinal
  show Except.ok ((), State.withDinode _ i (State.inode _ i)) = _
  rw [State.withInode_inode, update_self]

end InoAux

end Xv6.Ino
