import Xv6.InodeSpec
import Xv6.Lib.Wp

/-!
# What the code does to the pointers of an inode

In the middle of a call the table's copy of an inode is what counts. `Core` is what holds there: the blocks marked are those that the
pointers of inodes, so read, refer to. `balloc`, `bfree` and the stores to `addrs` and to an indirect block change one pointer at a
time, and `bmap` fills up to two that were empty (`bmap_wp`).
-/

namespace Xv6

theorem Block.word_zero (j : Nat) : Block.zero.word j = 0 := by
  have hbyte : ∀ j, Block.zero.byte j = 0 := by
    intro j
    unfold Block.byte Block.zero
    split <;> rfl
  unfold Block.word
  rw [hbyte, hbyte, hbyte, hbyte]
  rfl

namespace Ino

open Lib Function List

open Fs (IType)

namespace Dinode

variable {d : Dinode} {disk disk' : Nat → Block} {k k' j r : Nat}

theorem ptr_free (ht : d.type = .free) : d.ptr disk k = 0 := if_pos ht

theorem ptr_direct (ht : d.type ≠ .free) (hk : k ≤ NDIRECT) : d.ptr disk k = d.addrs k := by
  unfold ptr
  rw [if_neg ht, if_pos hk]

theorem ptr_indirect (ht : d.type ≠ .free) (hd : d.addrs NDIRECT ≠ 0) (hj : j < NINDIRECT) :
    d.ptr disk (NDIRECT + 1 + j) = ((disk (d.addrs NDIRECT)).word j).toNat := by
  unfold ptr
  rw [if_neg ht, if_neg (by omega), if_neg hd, if_pos (by omega), Nat.add_sub_cancel_left]

theorem ptr_none (hd : d.addrs NDIRECT = 0) (hk : NDIRECT ≤ k) : d.ptr disk k = 0 := by
  unfold ptr
  split
  · rfl
  · split
    · rw [← hd]
      congr 1
      omega
    · simp

/-- Without an indirect block there is nothing behind it. -/
theorem ptr_of_last (hd : d.ptr disk NDIRECT = 0) (hk : NDIRECT ≤ k) : d.ptr disk k = 0 := by
  by_cases ht : d.type = .free
  · exact ptr_free ht
  · exact ptr_none ((ptr_direct ht le_rfl).symm.trans hd) hk

theorem ptr_past (hk : NDIRECT + 1 + NINDIRECT ≤ k) : d.ptr disk k = 0 := by
  unfold ptr
  rw [if_neg (show ¬ k ≤ NDIRECT by omega), if_neg (show ¬ k < NDIRECT + 1 + NINDIRECT by omega)]
  split <;> simp

/-- A pointer depends on the type, the addresses and the indirect block only. -/
theorem ptr_congr {d' : Dinode} (ht : d'.type = d.type) (ha : d'.addrs = d.addrs)
    (hdisk : d.type ≠ .free → d.addrs NDIRECT ≠ 0 → disk' (d.addrs NDIRECT) = disk (d.addrs NDIRECT)) :
    d'.ptr disk' k = d.ptr disk k := by
  by_cases hfree : d.type = .free
  · rw [ptr_free hfree, ptr_free (ht.trans hfree)]
  · by_cases hd : d.addrs NDIRECT = 0
    · unfold ptr
      rw [ht, ha, if_pos hd, if_pos hd]
    · unfold ptr
      rw [ht, ha, hdisk hfree hd]

/-- Storing the address of a direct block. -/
theorem ptr_withAddr (ht : d.type ≠ .free) (hk : k < NDIRECT) (hdisk : d.addrs NDIRECT ≠ 0 → disk' (d.addrs NDIRECT) = disk (d.addrs NDIRECT)) :
    (d.withAddr k r).ptr disk' = update (d.ptr disk) k r := by
  have hlast : (d.withAddr k r).addrs NDIRECT = d.addrs NDIRECT := by
    rw [withAddr_addrs, update_of_ne (by omega)]
  funext k'
  rw [update_apply]
  split_ifs with hkk
  · rw [hkk, ptr_direct (by exact ht) hk.le, withAddr_addrs, update_self]
  · by_cases hk' : k' ≤ NDIRECT
    · rw [ptr_direct (by exact ht) hk', ptr_direct ht hk', withAddr_addrs, update_of_ne hkk]
    · unfold ptr
      rw [hlast, withAddr_type, if_neg hk', if_neg hk']
      by_cases hd : d.addrs NDIRECT = 0
      · rw [if_pos hd, if_pos hd]
      · rw [if_neg hd, if_neg hd, hdisk hd]

/-- Storing the address of a new indirect block, or taking it away when the entries are gone. -/
theorem ptr_withAddr_last (ht : d.type ≠ .free) (hnone : ∀ j < NINDIRECT, d.ptr disk (NDIRECT + 1 + j) = 0)
    (hzero : r ≠ 0 → ∀ j, (disk' r).word j = 0) : (d.withAddr NDIRECT r).ptr disk' = update (d.ptr disk) NDIRECT r := by
  have hlast : (d.withAddr NDIRECT r).addrs NDIRECT = r := by rw [withAddr_addrs, update_self]
  funext k'
  rw [update_apply]
  split_ifs with hkk
  · rw [hkk, ptr_direct (by exact ht) le_rfl, hlast]
  · by_cases hk' : k' ≤ NDIRECT
    · rw [ptr_direct (by exact ht) hk', ptr_direct ht hk', withAddr_addrs, update_of_ne hkk]
    · by_cases hpast : NDIRECT + 1 + NINDIRECT ≤ k'
      · rw [ptr_past hpast, ptr_past hpast]
      · obtain ⟨j, rfl⟩ : ∃ j, k' = NDIRECT + 1 + j := ⟨k' - (NDIRECT + 1), by omega⟩
        have hj : j < NINDIRECT := by omega
        rw [hnone j hj]
        by_cases hr : r = 0
        · exact ptr_none (hlast.trans hr) (by omega)
        · rw [ptr_indirect (by exact ht) (by rw [hlast]; exact hr) hj, hlast, hzero hr]
          rfl

/-- Storing an entry of the indirect block. -/
theorem ptr_setWord (ht : d.type ≠ .free) (hd : d.addrs NDIRECT ≠ 0) (hj : j < NINDIRECT) (hr : r < 2 ^ 32)
    (hdisk : disk' (d.addrs NDIRECT) = (disk (d.addrs NDIRECT)).setWord j (BitVec.ofNat 32 r)) :
    d.ptr disk' = update (d.ptr disk) (NDIRECT + 1 + j) r := by
  have hsize : 4 * j + 3 < BSIZE := by
    have : NINDIRECT * 4 = BSIZE := rfl
    omega
  funext k'
  by_cases hkk : k' = NDIRECT + 1 + j
  · rw [hkk, update_self, ptr_indirect ht hd hj, hdisk, Block.word_setWord_self _ _ _ hsize, BitVec.toNat_ofNat,
      Nat.mod_eq_of_lt hr]
  · rw [update_of_ne hkk]
    by_cases hk' : k' ≤ NDIRECT
    · rw [ptr_direct ht hk', ptr_direct ht hk']
    · by_cases hpast : NDIRECT + 1 + NINDIRECT ≤ k'
      · rw [ptr_past hpast, ptr_past hpast]
      · obtain ⟨i, rfl⟩ : ∃ i, k' = NDIRECT + 1 + i := ⟨k' - (NDIRECT + 1), by omega⟩
        rw [ptr_indirect ht hd (by omega), ptr_indirect ht hd (by omega), hdisk, Block.word_setWord_of_ne _ _ _ _ (by omega)]

end Dinode

namespace InoAux

/-- The inode as the kernel sees it: the table's copy if there is a valid one. -/
def ino (s : State) (i : Nat) : Dinode := if s.valid i = true then s.inode i else s.dinode i

/-- Pointer `q.2` of inode `q.1` as the kernel sees it. -/
def eptr (s : State) (q : Nat × Nat) : Nat := (ino s q.1).ptr s.disk q.2

/-- What holds in the middle of a call. -/
structure Core (s : State) : Prop where
  owns : Owns s.sb.nmeta s.sb.size s.bitmap (eptr s)
  uint : s.sb.size ≤ 2 ^ 32
  free : ∀ i, (s.dinode i).type = .free → s.valid i = false
  type : ∀ i, s.valid i = true → (s.inode i).type = (s.dinode i).type

variable {s t u : State} {i j k b r bn : Nat} {q : Nat × Nat}

theorem ino_valid (hv : s.valid i = true) : ino s i = s.inode i := if_pos hv

theorem ino_congr (hv : t.valid i = s.valid i) (hi : t.inode i = s.inode i) (hd : t.dinode i = s.dinode i) : ino t i = ino s i := by
  unfold ino
  rw [hv, hi, hd]

/-- One pointer changes. -/
theorem eptr_update (hother : ∀ j, j ≠ i → (ino t j).ptr t.disk = (ino s j).ptr s.disk)
    (hself : (ino t i).ptr t.disk = update ((ino s i).ptr s.disk) k r) : eptr t = update (eptr s) (i, k) r := by
  funext q
  obtain ⟨j, k'⟩ := q
  by_cases hj : j = i
  · subst hj
    by_cases hk : k' = k
    · rw [hk, update_self]
      exact (congrFun hself k).trans (update_self ..)
    · rw [update_of_ne (fun h => hk (Prod.mk.inj h).2)]
      exact (congrFun hself k').trans (update_of_ne hk ..)
  · rw [update_of_ne (fun h => hj (Prod.mk.inj h).1)]
    exact congrFun (hother j hj) k'

/-- The indirect block of an inode is the block its last address refers to. -/
theorem last_eq (ht : (ino s j).type ≠ .free) : (ino s j).addrs NDIRECT = eptr s (j, NDIRECT) := (Dinode.ptr_direct ht le_rfl).symm

/-- The pointers of an inode stay if its indirect block does. -/
theorem ptr_keep (hino : ino t j = ino s j) (hdisk : eptr s (j, NDIRECT) ≠ 0 → t.disk (eptr s (j, NDIRECT)) = s.disk (eptr s (j, NDIRECT))) :
    (ino t j).ptr t.disk = (ino s j).ptr s.disk := by
  funext k
  rw [hino]
  refine Dinode.ptr_congr rfl rfl fun ht hd => ?_
  rw [last_eq ht] at hd ⊢
  exact hdisk hd

/-- A block that no pointer to an indirect block refers to may be written. -/
theorem eptr_keep (hino : ∀ j, ino t j = ino s j) (hdisk : ∀ b, b ≠ r → t.disk b = s.disk b) (hr : ∀ j, eptr s (j, NDIRECT) ≠ 0 → eptr s (j, NDIRECT) ≠ r) :
    eptr t = eptr s := by
  funext q
  exact congrFun (ptr_keep (hino q.1) fun hd => hdisk _ (hr q.1 hd)) q.2

namespace Core

variable (h : Core s)

include h

theorem type_ino (hv : s.valid i = true) : (s.inode i).type ≠ .free := by
  rw [h.type i hv]
  intro hfree
  rw [h.free i hfree] at hv
  cases hv

theorem addr_eq (hv : s.valid i = true) (hk : k ≤ NDIRECT) : (s.inode i).addrs k = eptr s (i, k) := by
  unfold eptr
  rw [ino_valid hv, Dinode.ptr_direct (h.type_ino hv) hk]

end Core

/-! ## `balloc` -/

theorem balloc_wp (h : Core s) : Wp (fun _ => False) balloc s fun r t =>
    r = 0 ∧ t = s ∧ s.nfree = 0 ∨ r ≠ 0 ∧ r < s.sb.size ∧ s.bitmap r = false ∧ t = (s.withBit r true).withBlock r Block.zero := by
  cases hf : (range s.sb.size).find? fun b => !s.bitmap b with
  | none =>
    refine Wp.of_eq (show balloc s = .ok (0, s) by rw [balloc, hf]) (.inl ⟨rfl, rfl, ?_⟩)
    refine room_eq_zero fun b hb => ?_
    simpa using find?_eq_none.1 hf b (mem_range.2 hb)
  | some b =>
    have hlt := mem_range.1 (mem_of_find?_eq_some hf)
    have hfree : s.bitmap b = false := by simpa using find?_some hf
    have hlo := h.owns.lo_le hfree
    have hpos := h.owns.pos
    refine Wp.of_eq (show balloc s = .ok (b, (s.withBit b true).withBlock b Block.zero) by rw [balloc, hf]; rfl)
      (.inr ⟨by omega, hlt, hfree, rfl⟩)

/-- Every buffer that has changed has been passed to `log_write`. -/
structure Logs (s t : State) : Prop where
  mono : ∀ b, s.logged b = true → t.logged b = true
  changed : ∀ b, t.disk b ≠ s.disk b → t.logged b = true

theorem Logs.refl (s : State) : Logs s s := ⟨fun _ h => h, fun _ h => absurd rfl h⟩

theorem Logs.trans (h : Logs s t) (h' : Logs t u) : Logs s u := by
  refine ⟨fun b hb => h'.mono b (h.mono b hb), fun b hb => ?_⟩
  by_cases hu : u.disk b = t.disk b
  · exact h'.mono b (h.changed b (hu ▸ hb))
  · exact h'.changed b hu

theorem Logs.withBlock (s : State) (b : Nat) (d : Block) : Logs s (s.withBlock b d) := by
  refine ⟨fun c hc => ?_, fun c hc => ?_⟩
  · by_cases hcb : c = b
    · rw [hcb]
      exact update_self ..
    · exact (update_of_ne hcb ..).trans hc
  · by_cases hcb : c = b
    · rw [hcb]
      exact update_self ..
    · exact absurd (update_of_ne hcb ..) hc

/-- Of the inodes, only the addresses that the table has for inode `i` may differ. -/
structure OnlyAddrs (i : Nat) (s t : State) : Prop where
  sb : t.sb = s.sb
  dinode : t.dinode = s.dinode
  ref : t.ref = s.ref
  valid : t.valid = s.valid
  inode : ∀ j, j ≠ i → t.inode j = s.inode j
  fields : t.inode i = { s.inode i with addrs := (t.inode i).addrs }

theorem OnlyAddrs.refl : OnlyAddrs i s s := ⟨rfl, rfl, rfl, rfl, fun _ _ => rfl, rfl⟩

theorem OnlyAddrs.trans (h : OnlyAddrs i s t) (h' : OnlyAddrs i t u) : OnlyAddrs i s u :=
  ⟨h'.sb.trans h.sb, h'.dinode.trans h.dinode, h'.ref.trans h.ref, h'.valid.trans h.valid,
    fun j hj => (h'.inode j hj).trans (h.inode j hj), by rw [h'.fields, h.fields]⟩

/-- What a new block in an empty slot of inode `i` changes. -/
structure Filled (s t : State) (i k r : Nat) : Prop extends OnlyAddrs i s t where
  empty : eptr s (i, k) = 0
  lt : r < s.sb.size
  fresh : s.bitmap r = false
  bitmap : t.bitmap = Function.update s.bitmap r true
  ptrs : eptr t = Function.update (eptr s) (i, k) r
  zero : t.disk r = Block.zero
  data : ∀ b, b ≠ r → eptr s (i, NDIRECT) ≠ b → t.disk b = s.disk b
  logs : Logs s t
  log : t.logged r = true
  quiet : ∀ b, b ≠ r → eptr s (i, NDIRECT) ≠ b → t.logged b = s.logged b

theorem Filled.core (h : Core s) (hf : Filled s t i k r) : Core t := by
  have htype : ∀ j, (t.inode j).type = (s.inode j).type := by
    intro j
    by_cases hj : j = i
    · rw [hj, hf.fields]
    · rw [hf.inode j hj]
  refine ⟨?_, by rw [hf.sb]; exact h.uint, fun j => ?_, fun j => ?_⟩
  · rw [hf.sb, hf.bitmap, hf.ptrs]
    exact h.owns.alloc hf.fresh hf.lt hf.empty
  · rw [hf.dinode, hf.valid]
    exact h.free j
  · rw [hf.dinode, hf.valid, htype]
    exact h.type j

theorem Filled.nfree (hf : Filled s t i k r) : t.nfree + 1 = s.nfree := by
  unfold State.nfree
  rw [hf.sb, hf.bitmap]
  exact room_mark hf.lt hf.fresh

/-- A block just allocated is not an indirect block. -/
theorem Core.fresh_ne (h : Core s) (hr : s.bitmap r = false) (j k : Nat) : eptr s (j, k) ≠ r := h.owns.ne_of_free hr (j, k)

/-- The block is stored as an address of the inode. -/
theorem filled_addr (h : Core s) (hv : s.valid i = true) (hk : k ≤ NDIRECT) (hzero : (s.inode i).addrs k = 0) (hlt : r < s.sb.size)
    (hr : s.bitmap r = false) :
    Filled s (((s.withBit r true).withBlock r Block.zero).withInode i ((s.inode i).withAddr k r)) i k r := by
  have ht := h.type_ino hv
  have hdisk : ∀ b, b ≠ r → (((s.withBit r true).withBlock r Block.zero).withInode i ((s.inode i).withAddr k r)).disk b = s.disk b :=
    fun b hb => update_of_ne hb ..
  refine ⟨⟨rfl, rfl, rfl, rfl, fun j hj => update_of_ne hj .., ?_⟩, by rw [← h.addr_eq hv hk]; exact hzero, hlt, hr, rfl, ?_,
    update_self .., fun b hb _ => hdisk b hb, ?_, update_self .., fun b hb _ => update_of_ne hb ..⟩
  rotate_right
  · have hl := Logs.withBlock (s.withBit r true) r Block.zero
    exact ⟨hl.mono, hl.changed⟩
  · rw [State.withInode_inode, update_self]
    rfl
  · refine eptr_update (fun j hj => ptr_keep (ino_congr rfl (update_of_ne hj ..) rfl) fun _ => hdisk _ (h.fresh_ne hr j NDIRECT)) ?_
    have hino : ino (((s.withBit r true).withBlock r Block.zero).withInode i ((s.inode i).withAddr k r)) i = (s.inode i).withAddr k r :=
      (if_pos hv).trans (update_self ..)
    rw [hino, ino_valid hv]
    rcases Nat.lt_or_eq_of_le hk with hlt | rfl
    · refine Dinode.ptr_withAddr ht hlt fun hd => hdisk _ ?_
      rw [h.addr_eq hv le_rfl]
      exact h.fresh_ne hr i NDIRECT
    · refine Dinode.ptr_withAddr_last ht (fun j _ => Dinode.ptr_none hzero (by omega)) fun _ j => ?_
      rw [show State.disk _ r = Block.zero from update_self ..]
      exact Block.word_zero j

/-- The block is stored as an entry of the indirect block. -/
theorem filled_word (h : Core s) (hv : s.valid i = true) (hd : (s.inode i).addrs NDIRECT ≠ 0) (hj : j < NINDIRECT)
    (hzero : (s.disk ((s.inode i).addrs NDIRECT)).word j = 0) (hlt : r < s.sb.size) (hr : s.bitmap r = false) :
    Filled s (((s.withBit r true).withBlock r Block.zero).withBlock ((s.inode i).addrs NDIRECT)
      ((s.disk ((s.inode i).addrs NDIRECT)).setWord j (BitVec.ofNat 32 r))) i (NDIRECT + 1 + j) r := by
  have ht := h.type_ino hv
  have hbno := h.addr_eq hv (le_refl NDIRECT)
  have hne : r ≠ (s.inode i).addrs NDIRECT := by
    rw [hbno]
    exact Ne.symm (h.fresh_ne hr i NDIRECT)
  have hold : eptr s (i, NDIRECT + 1 + j) = 0 := by
    unfold eptr
    rw [ino_valid hv, Dinode.ptr_indirect ht hd hj, hzero]
    rfl
  generalize hbno' : (s.inode i).addrs NDIRECT = bno at *
  have hself : (((s.withBit r true).withBlock r Block.zero).withBlock bno ((s.disk bno).setWord j (BitVec.ofNat 32 r))).disk bno =
      (s.disk bno).setWord j (BitVec.ofNat 32 r) := update_self ..
  have hdisk : ∀ b, b ≠ r → b ≠ bno →
      (((s.withBit r true).withBlock r Block.zero).withBlock bno ((s.disk bno).setWord j (BitVec.ofNat 32 r))).disk b = s.disk b :=
    fun b hb hb' => (update_of_ne hb' ..).trans (update_of_ne hb ..)
  refine ⟨⟨rfl, rfl, rfl, rfl, fun _ _ => rfl, rfl⟩, hold, hlt, hr, rfl, ?_, (update_of_ne hne ..).trans (update_self ..),
    fun b hb hb' => hdisk b hb fun heq => hb' (hbno.symm.trans heq.symm), ?_, ?_, fun b hb hb' => ?_⟩
  rotate_left
  · have hl := (Logs.withBlock (s.withBit r true) r Block.zero).trans (Logs.withBlock _ bno ((s.disk bno).setWord j (BitVec.ofNat 32 r)))
    exact ⟨hl.mono, hl.changed⟩
  · exact (update_of_ne hne ..).trans (update_self ..)
  · exact (update_of_ne (fun heq => hb' (hbno.symm.trans heq.symm)) ..).trans (update_of_ne hb ..)
  refine eptr_update (fun j' hj' => ptr_keep rfl fun hd' => hdisk _ (h.fresh_ne hr j' NDIRECT) ?_) ?_
  · rw [hbno]
    exact h.owns.ne_of_ne (hbno ▸ hd) fun heq => hj' (Prod.mk.inj heq).1
  · have hino : ino (((s.withBit r true).withBlock r Block.zero).withBlock bno ((s.disk bno).setWord j (BitVec.ofNat 32 r))) i =
        s.inode i := if_pos hv
    rw [hino, ino_valid hv]
    refine Dinode.ptr_setWord ht (by rw [hbno']; exact hd) hj (hlt.trans_le h.uint) ?_
    rw [hbno']
    exact hself

/-! ## `bmap` -/

/-- Contents and empty slots of inode `i` may have changed. -/
structure Touched (i : Nat) (s t : State) : Prop extends OnlyAddrs i s t where
  core : Core t
  ptrs : ∀ q, eptr s q ≠ 0 → eptr t q = eptr s q
  other : ∀ q, q.1 ≠ i → eptr t q = eptr s q

theorem Touched.refl (h : Core s) : Touched i s s := ⟨.refl, h, fun _ _ => rfl, fun _ _ => rfl⟩

theorem Touched.trans (h : Touched i s t) (h' : Touched i t u) : Touched i s u := by
  refine ⟨h.toOnlyAddrs.trans h'.toOnlyAddrs, h'.core, fun q hq => ?_, fun q hq => (h'.other q hq).trans (h.other q hq)⟩
  have heq := h.ptrs q hq
  rw [h'.ptrs q (by rw [heq]; exact hq), heq]

/-- Some empty slots of inode `i` have been filled; nothing else that a pointer refers to has changed. -/
structure Grown (i : Nat) (s t : State) : Prop extends Touched i s t where
  data : ∀ q, q.2 ≠ NDIRECT → eptr s q ≠ 0 → t.disk (eptr s q) = s.disk (eptr s q)
  logs : Logs s t
  quiet : ∀ q, q.2 ≠ NDIRECT → eptr s q ≠ 0 → t.logged (eptr s q) = s.logged (eptr s q)

theorem Grown.refl (h : Core s) : Grown i s s :=
  ⟨.refl h, fun _ _ _ => rfl, .refl s, fun _ _ _ => rfl⟩

theorem Grown.trans (h : Grown i s t) (h' : Grown i t u) : Grown i s u := by
  refine ⟨h.toTouched.trans h'.toTouched, fun q hq hq0 => ?_, h.logs.trans h'.logs, fun q hq hq0 => ?_⟩
  · have heq := h.ptrs q hq0
    have hdata := h'.data q hq (by rw [heq]; exact hq0)
    rw [heq] at hdata
    rw [hdata, h.data q hq hq0]
  · have heq := h.ptrs q hq0
    have hquiet := h'.quiet q hq (by rw [heq]; exact hq0)
    rw [heq] at hquiet
    rw [hquiet, h.quiet q hq hq0]

theorem Filled.grown (h : Core s) (hf : Filled s t i k r) : Grown i s t := by
  have hother : ∀ q, q.2 ≠ NDIRECT → eptr s q ≠ 0 → eptr s q ≠ r ∧ eptr s (i, NDIRECT) ≠ eptr s q := by
    intro q hq hq0
    refine ⟨h.owns.ne_of_free hf.fresh q, h.owns.ne_of_ne hq0 ?_⟩
    rintro rfl
    exact hq rfl
  refine ⟨⟨hf.toOnlyAddrs, hf.core h, fun q hq => ?_, fun q hq => ?_⟩, fun q hq hq0 => ?_, hf.logs,
    fun q hq hq0 => hf.quiet _ (hother q hq hq0).1 (hother q hq hq0).2⟩
  · have hne : q ≠ (i, k) := by
      rintro rfl
      exact hq hf.empty
    rw [hf.ptrs, update_of_ne hne]
  · have hne : q ≠ (i, k) := by
      rintro rfl
      exact hq rfl
    rw [hf.ptrs, update_of_ne hne]
  · exact hf.data _ (hother q hq hq0).1 (hother q hq hq0).2

/-- What `bmapAddr` and `bmapIndirect` do to the slot they are for. -/
structure Mapped (i k : Nat) (s : State) (r : Nat) (t : State) : Prop extends Grown i s t where
  same : eptr s (i, k) ≠ 0 → t = s ∧ r = eptr s (i, k)
  full : r = 0 → t.nfree = 0 ∧ eptr s (i, k) = 0 ∧ t = s
  ptr : r ≠ 0 → eptr t (i, k) = r
  only : ∀ q, q ≠ (i, k) → eptr t q = eptr s q
  zero : r ≠ 0 → eptr s (i, k) = 0 → t.disk r = Block.zero
  nfree : r ≠ 0 → t.nfree + (if eptr s (i, k) = 0 then 1 else 0) = s.nfree
  log : r ≠ 0 → eptr s (i, k) = 0 → t.logged r = true

theorem Filled.mapped (h : Core s) (hf : Filled s t i k r) (hr : r ≠ 0) : Mapped i k s r t := by
  refine ⟨hf.grown h, fun hne => absurd hf.empty hne, fun h0 => absurd h0 hr, fun _ => ?_, fun q hq => ?_, fun _ _ => hf.zero, fun _ => ?_, fun _ _ => hf.log⟩
  · rw [hf.ptrs, update_self]
  · rw [hf.ptrs, update_of_ne hq]
  · rw [if_pos hf.empty]
    exact hf.nfree

theorem Mapped.of_ptr (h : Core s) (hr : eptr s (i, k) = r) (hr0 : r ≠ 0) : Mapped i k s r s := by
  refine ⟨.refl h, fun _ => ⟨rfl, hr.symm⟩, fun h0 => absurd h0 hr0, fun _ => hr, fun _ _ => rfl, fun _ h0 => absurd (hr.symm.trans h0) hr0,
    fun _ => ?_, fun _ h0 => absurd (hr.symm.trans h0) hr0⟩
  rw [if_neg (by rw [hr]; exact hr0)]
  rfl

theorem Mapped.of_full (h : Core s) (hn : s.nfree = 0) (hk : eptr s (i, k) = 0) : Mapped i k s 0 s :=
  ⟨.refl h, fun hne => absurd hk hne, fun _ => ⟨hn, hk, rfl⟩, fun h0 => absurd rfl h0, fun _ _ => rfl, fun h0 => absurd rfl h0, fun h0 => absurd rfl h0,
    fun h0 => absurd rfl h0⟩

theorem bmapAddr_wp (h : Core s) (hv : s.valid i = true) (hk : k ≤ NDIRECT) :
    Wp (fun _ => False) (bmapAddr i k) s fun r t => Mapped i k s r t := by
  have hptr := h.addr_eq hv hk
  refine Wp.bind (R := fun d t => d = s.inode i ∧ t = s) ⟨rfl, rfl⟩ ?_
  rintro d t ⟨rfl, rfl⟩
  by_cases hzero : (t.inode i).addrs k = 0
  · rw [if_pos hzero]
    refine (balloc_wp h).bind fun r u hu => ?_
    rcases hu with ⟨rfl, rfl, hn⟩ | ⟨hr, hlt, hfree, rfl⟩
    · exact Mapped.of_full h hn (hptr ▸ hzero)
    · rw [if_neg hr]
      exact (filled_addr h hv hk hzero hlt hfree).mapped h hr
  · rw [if_neg hzero]
    exact Mapped.of_ptr h hptr.symm hzero

theorem bmapIndirect_wp (h : Core s) (hv : s.valid i = true) (hj : j < NINDIRECT) (hb : eptr s (i, NDIRECT) = b) (hb0 : b ≠ 0) :
    Wp (fun _ => False) (bmapIndirect b j) s fun r t => Mapped i (NDIRECT + 1 + j) s r t := by
  have hlast := (h.addr_eq hv le_rfl).trans hb
  subst hlast
  have hptr : eptr s (i, NDIRECT + 1 + j) = ((s.disk ((s.inode i).addrs NDIRECT)).word j).toNat := by
    unfold eptr
    rw [ino_valid hv, Dinode.ptr_indirect (h.type_ino hv) hb0 hj]
  refine Wp.bind (R := fun a t => a = s.disk ((s.inode i).addrs NDIRECT) ∧ t = s) ⟨rfl, rfl⟩ ?_
  rintro a t ⟨rfl, rfl⟩
  by_cases hzero : (t.disk ((t.inode i).addrs NDIRECT)).word j = 0
  · rw [if_pos hzero]
    refine (balloc_wp h).bind fun r u hu => ?_
    rcases hu with ⟨rfl, rfl, hn⟩ | ⟨hr, hlt, hfree, rfl⟩
    · refine Mapped.of_full h hn ?_
      rw [hptr, hzero]
      rfl
    · rw [if_neg hr]
      have hne : (t.inode i).addrs NDIRECT ≠ r := by
        rw [h.addr_eq hv le_rfl]
        exact h.fresh_ne hfree i NDIRECT
      have hfill := (filled_word h hv hb0 hj hzero hlt hfree).mapped h hr
      have hblk : ((t.withBit r true).withBlock r Block.zero).disk ((t.inode i).addrs NDIRECT) = t.disk ((t.inode i).addrs NDIRECT) :=
        update_of_ne hne ..
      rw [← hblk] at hfill
      exact hfill
  · rw [if_neg hzero]
    exact Mapped.of_ptr h hptr fun h0 => hzero (BitVec.eq_of_toNat_eq h0)

/-- The blocks that `bmap` allocates for block `bn` of inode `i`. -/
def need (s : State) (i bn : Nat) : Nat :=
  (if eptr s (i, slot bn) = 0 then 1 else 0) + if NDIRECT ≤ bn ∧ eptr s (i, NDIRECT) = 0 then 1 else 0

/-- What `bmap` does. -/
structure Bmapped (i bn : Nat) (s : State) (r : Nat) (t : State) : Prop extends Grown i s t where
  same : eptr s (i, slot bn) ≠ 0 → t = s ∧ r = eptr s (i, slot bn)
  ptr : r ≠ 0 → eptr t (i, slot bn) = r
  only : ∀ q, q ≠ (i, slot bn) → q ≠ (i, NDIRECT) → eptr t q = eptr s q
  last : bn < NDIRECT → eptr t (i, NDIRECT) = eptr s (i, NDIRECT)
  enough : need s i bn ≤ s.nfree → r ≠ 0 ∧ t.nfree + need s i bn = s.nfree
  nfree : r ≠ 0 → t.nfree + need s i bn = s.nfree
  log : r ≠ 0 → eptr s (i, slot bn) = 0 → t.logged r = true

theorem bmap_wp (h : Core s) (hv : s.valid i = true) (hbn : bn < MAXFILE) :
    Wp (fun _ => False) (bmap i bn) s fun r t => Bmapped i bn s r t := by
  unfold bmap
  by_cases hlt : bn < NDIRECT
  · rw [if_pos hlt]
    refine (bmapAddr_wp h hv hlt.le).mono fun r t hm => ?_
    have hslot : slot bn = bn := if_pos hlt
    have hneed : need s i bn = if eptr s (i, bn) = 0 then 1 else 0 := by
      unfold need
      rw [hslot, if_neg (show ¬ (NDIRECT ≤ bn ∧ _) from fun hc => absurd hc.1 (by omega)), Nat.add_zero]
    refine ⟨hm.toGrown, by rw [hslot]; exact hm.same, by rw [hslot]; exact hm.ptr, fun q hq _ => hm.only q (by rwa [hslot] at hq),
      fun _ => hm.only _ (fun heq => absurd (Prod.mk.inj heq).2 (by omega)), fun hn => ?_, fun hr => by rw [hneed]; exact hm.nfree hr,
      by rw [hslot]; exact hm.log⟩
    rw [hneed] at hn ⊢
    have hr : r ≠ 0 := by
      rintro rfl
      obtain ⟨hn0, hk, rfl⟩ := hm.full rfl
      rw [if_pos hk] at hn
      omega
    exact ⟨hr, hm.nfree hr⟩
  · have hj : bn - NDIRECT < NINDIRECT := by
      have : MAXFILE = NDIRECT + NINDIRECT := rfl
      omega
    have hslot : slot bn = NDIRECT + 1 + (bn - NDIRECT) := by
      unfold slot
      rw [if_neg hlt]
      omega
    have hne : (i, NDIRECT + 1 + (bn - NDIRECT)) ≠ (i, NDIRECT) := fun heq => absurd (Prod.mk.inj heq).2 (by omega)
    have hneed : need s i bn = (if eptr s (i, NDIRECT + 1 + (bn - NDIRECT)) = 0 then 1 else 0) +
        if eptr s (i, NDIRECT) = 0 then 1 else 0 := by
      unfold need
      rw [hslot]
      simp only [show NDIRECT ≤ bn by omega, true_and]
    rw [if_neg hlt, if_pos hj]
    refine (bmapAddr_wp h hv le_rfl).bind fun r t hm => ?_
    by_cases hr : r = 0
    · subst hr
      obtain ⟨hn0, hk, rfl⟩ := hm.full rfl
      rw [if_pos rfl]
      have hnone : eptr t (i, slot bn) = 0 := Dinode.ptr_of_last hk (by omega)
      refine ⟨hm.toGrown, fun hne => absurd hnone hne, fun h0 => absurd rfl h0, fun _ _ _ => rfl, fun hc => absurd hc hlt, fun hn => ?_,
        fun h0 => absurd rfl h0, fun h0 => absurd rfl h0⟩
      rw [hneed, if_pos hk] at hn
      omega
    · rw [if_neg hr]
      refine (bmapIndirect_wp hm.core (hm.valid ▸ hv) hj (hm.ptr hr) hr).mono fun r' u hm' => ?_
      have hsame := hm.only _ hne
      have hcount : r' ≠ 0 → u.nfree + need s i bn = s.nfree := by
        intro hr'
        have hfree := hm.nfree hr
        have hfree' := hm'.nfree hr'
        rw [hsame] at hfree'
        rw [hneed]
        omega
      refine ⟨hm.trans hm'.toGrown, fun hq => ?_, by rw [hslot]; exact hm'.ptr,
        fun q hq hq' => (hm'.only q (by rwa [hslot] at hq)).trans (hm.only q hq'), fun hc => absurd hc hlt, fun hn => ?_, hcount,
        by rw [hslot, ← hsame]; exact hm'.log⟩
      · -- a block at the slot means that the indirect block is there
        rw [hslot] at hq
        have hlast : eptr s (i, NDIRECT) ≠ 0 := fun h0 => hq (Dinode.ptr_of_last h0 (by omega))
        have hfound := hm'.same (by rw [hsame]; exact hq)
        rw [hslot, hfound.1, (hm.same hlast).1, ← hsame]
        exact ⟨rfl, hfound.2⟩
      · have hfree := hm.nfree hr
        have hr' : r' ≠ 0 := by
          rintro rfl
          obtain ⟨hn0, hk, -⟩ := hm'.full rfl
          have heq := hm'.full rfl
          rw [heq.2.2] at hn0
          rw [hsame] at hk
          rw [hneed, if_pos hk] at hn
          omega
        exact ⟨hr', hcount hr'⟩

end InoAux

end Ino

end Xv6
