import Xv6.Umalloc
import Xv6.Lib.Linked
import Xv6.Lib.Wp

/-!
# The free list of `malloc`

The free list is circular and in the order of addresses, with `base` at its start, and its blocks do not overlap (`Free`). What `free`
and `malloc` do to the list is said with what they leave alone: a segment that no block of the list overlaps stays so, and its header
is not written (`Safe`).
-/

namespace Xv6.Umalloc

open Lib Function List

open Vm (TRAPFRAME TRAMPOLINE MAXVA PGSIZE u64 pgroundup)

namespace UmallocAux

variable {s t u : Heap} {lo p q bp a n : Nat} {l l' v w : List Nat} {r : Heap}

/-- The block after the one at `a`. -/
def next (s : Heap) (a : Nat) : Nat := (s.mem a).ptr

/-- The number of bytes of the block at `a`; a header takes up its own place even if the size has wrapped to 0. -/
def len (s : Heap) (a : Nat) : Nat := max 1 (s.mem a).size.toNat * HEADER

theorem le_len (s : Heap) (a : Nat) : HEADER ≤ len s a := Nat.le_mul_of_pos_left _ (by omega)

theorem len_eq (h : 1 ≤ (s.mem a).size.toNat) : len s a = (s.mem a).size.toNat * HEADER := by
  unfold len
  rw [max_eq_right h]

theorem len_congr (h : t.mem a = s.mem a) : len t a = len s a := by
  unfold len
  rw [h]

structure Free (lo : Nat) (s : Heap) (l : List Nat) : Prop where
  pos : 0 < s.base
  below : s.base + HEADER ≤ lo
  start : lo ≤ s.brk
  top : s.brk ≤ TRAPFRAME
  links : Linked (next s) s.base l s.base
  empty : (s.mem s.base).size = 0
  spaced : Spaced (len s) lo s.brk l
  freep : s.freep ∈ s.base :: l

/-- No block of the list overlaps with the segment. -/
def Clear (s : Heap) (l : List Nat) (a n : Nat) : Prop := ∀ x ∈ l, Apart x (len s x) a n

/-! ## Headers -/

theorem mapped (htop : s.brk ≤ TRAPFRAME) (ha : a + HEADER ≤ s.brk) : s.Mapped a := by
  unfold Heap.Mapped pgroundup
  simp only [TRAPFRAME, TRAMPOLINE, MAXVA, PGSIZE] at *
  omega

theorem load_eq (h : s.Mapped a) : load a s = .ok (s.mem a, s) := if_pos h

theorem setPtr_eq (h : s.Mapped a) : setPtr a p s = .ok ((), s.withPtr a p) := if_pos h

theorem setSize_eq {n : Uint} (h : s.Mapped a) : setSize a n s = .ok ((), s.withSize a n) := if_pos h

@[simp] theorem withPtr_self : (s.withPtr a p).mem a = { s.mem a with ptr := p } := update_self ..

theorem withPtr_of_ne (h : q ≠ a) : (s.withPtr a p).mem q = s.mem q := update_of_ne h ..

@[simp] theorem withSize_self {n : Uint} : (s.withSize a n).mem a = { s.mem a with size := n } := update_self ..

theorem withSize_of_ne {n : Uint} (h : q ≠ a) : (s.withSize a n).mem q = s.mem q := update_of_ne h ..

namespace Free

variable (h : Free lo s l)

include h

theorem base_lt (ha : lo ≤ a) : s.base < a := by
  have := h.below
  unfold HEADER at this
  omega

theorem bound (hx : p ∈ l) : lo ≤ p ∧ p + HEADER ≤ s.brk := by
  obtain ⟨hlo, hhi⟩ := h.spaced.bound p hx
  have := le_len s p
  exact ⟨hlo, by omega⟩

theorem sorted : (s.base :: l).Pairwise (· < ·) := by
  refine pairwise_cons.2 ⟨fun x hx => h.base_lt (h.bound hx).1, h.spaced.sorted fun x _ => ?_⟩
  have := le_len s x
  unfold HEADER at this
  omega

theorem nodup : (s.base :: l).Nodup := h.sorted.imp fun hxy => by omega

theorem mapped_node (hx : p ∈ s.base :: l) : s.Mapped p := by
  refine mapped h.top ?_
  rcases mem_cons.1 hx with rfl | hx
  · have := h.below
    have := h.start
    omega
  · exact (h.bound hx).2

/-- There are not more blocks than addresses. -/
theorem length_lt : l.length < TRAPFRAME := by
  have hle := h.spaced.length_le h.start fun x _ => by
    have := le_len s x
    unfold HEADER at this
    omega
  have := h.top
  have := h.below
  have := h.pos
  omega

/-- A segment that is clear of the list does not start at one of its headers. -/
theorem notMem (hlo : lo ≤ a) (hn : 0 < n) (hc : Clear s l a n) : a ∉ s.base :: l := by
  intro ha
  rcases mem_cons.1 ha with rfl | ha
  · exact absurd (h.base_lt hlo) (Nat.lt_irrefl _)
  · have hap := hc a ha
    have := le_len s a
    unfold Apart HEADER at *
    omega

/-- The list seen from `freep`. -/
theorem fromFreep : ∃ m, Linked (next s) s.freep m s.freep ∧ (s.freep :: m).Perm (s.base :: l) := h.links.rotate h.freep

theorem freep_ne : s.freep ≠ 0 := by
  have := h.pos
  rcases mem_cons.1 h.freep with heq | hmem
  · omega
  · have := h.base_lt (h.bound hmem).1
    omega

theorem onList_iff : s.OnList a ↔ a ∈ s.base :: l := by
  obtain ⟨m, hm, hperm⟩ := h.fromFreep
  unfold Heap.OnList
  rw [← hperm.mem_iff, ← hm.iterate_iff]
  exact ⟨fun hon => hon.2, fun hk => ⟨h.freep_ne, hk⟩⟩

end Free

/-! ## `free` -/

/-- The place for a block between those of lower and those of higher addresses. -/
structure Place (s : Heap) (l : List Nat) (bp q : Nat) (u v : List Nat) : Prop where
  list : l = u ++ v
  last : u.getLastD s.base = q
  lower : ∀ y ∈ u, y < bp
  upper : ∀ y ∈ v, bp < y

/-- Going round the list from any block, `free` comes to the place: the blocks still ahead before the place is passed are counted down. -/
theorem freeLoop_wp {u v : List Nat} (fuel : Nat) (h : Free lo s l) (hbp : lo ≤ bp) (hne : bp ∉ l) (hl : l = u ++ v)
    (hp : u.getLastD s.base = p) (hfuel : (if p < bp then v.length else v.length + 1 + l.length) < fuel) :
    Wp (fun _ => False) (freeLoop bp fuel p) s fun q t => t = s ∧ ∃ u v, Place s l bp q u v := by
  have hbase := h.base_lt hbp
  induction fuel generalizing p u v with
  | zero => exact absurd hfuel (Nat.not_lt_zero _)
  | succ fuel ih =>
    have hmem : p ∈ s.base :: u := hp ▸ getLastD_mem_cons
    have hnode : p ∈ s.base :: l := by
      rw [hl, ← cons_append]
      exact mem_append_left v hmem
    have hpbp : p ≠ bp := by
      rintro rfl
      rcases mem_cons.1 hnode with heq | hin
      · omega
      · exact hne hin
    have hnext : (s.mem p).ptr = v.headD s.base := by
      have := h.links
      rw [hl] at this
      rw [← hp]
      exact this.tail.next_eq
    -- blocks up to `p` are not above it, blocks after it are
    have hsorted := h.sorted
    rw [hl, ← cons_append, pairwise_append] at hsorted
    obtain ⟨hsu, hsv, huv⟩ := hsorted
    have hdown : ∀ y ∈ u, y ≤ p := fun y hy => by
      have := rel_getLastD hsu (mem_cons_of_mem s.base hy)
      omega
    refine Wp.bind_eq (load_eq (h.mapped_node hnode)) ?_
    rw [hnext]
    cases v with
    | nil =>
      have hle : s.base ≤ p := by
        rcases mem_cons.1 hnode with rfl | hin
        · exact Nat.le_refl _
        · exact (h.base_lt (h.bound hin).1).le
      rw [headD_nil, if_neg (by omega)]
      by_cases hlt : p < bp
      · rw [if_pos ⟨hle, .inl hlt⟩]
        exact ⟨rfl, u, [], hl, hp, fun y hy => by have := hdown y hy; omega, fun y hy => absurd hy not_mem_nil⟩
      · rw [if_neg (by omega)]
        refine ih (u := []) rfl rfl ?_
        rw [if_pos hbase]
        rw [if_neg hlt, length_nil] at hfuel
        omega
    | cons y v =>
      have hy := huv p hmem y mem_cons_self
      have hybp : y ≠ bp := by
        rintro rfl
        exact hne (hl ▸ mem_append_right u mem_cons_self)
      rw [headD_cons]
      by_cases hstop : p < bp ∧ bp < y
      · rw [if_pos hstop]
        refine ⟨rfl, u, y :: v, hl, hp, fun z hz => by have := hdown z hz; omega, fun z hz => ?_⟩
        rcases mem_cons.1 hz with rfl | hz
        · exact hstop.2
        · have := (pairwise_cons.1 hsv).1 z hz
          omega
      · rw [if_neg hstop, if_neg (by omega)]
        refine ih (u := u ++ [y]) (v := v) (by rw [hl, append_assoc]; rfl) (getLastD_concat ..) ?_
        rw [length_cons] at hfuel
        split at hfuel
        · rw [if_pos (by omega)]
          omega
        · rw [if_neg (by omega)]
          omega

/-- A block that may be put on the list. -/
structure Loose (lo : Nat) (s : Heap) (l : List Nat) (bp : Nat) : Prop where
  ge : lo ≤ bp
  le : bp + len s bp ≤ s.brk
  pos : 1 ≤ (s.mem bp).size.toNat
  clear : Clear s l bp (len s bp)

theorem Loose.notMem (h : Free lo s l) (hbp : Loose lo s l bp) : bp ∉ s.base :: l := by
  have := le_len s bp
  unfold HEADER at this
  exact h.notMem hbp.ge (by omega) hbp.clear

theorem Loose.mapped (h : Free lo s l) (hbp : Loose lo s l bp) : s.Mapped bp := by
  have := le_len s bp
  have := hbp.le
  exact UmallocAux.mapped h.top (by omega)

/-- Two blocks that have been joined are not longer than both. -/
theorem len_join {x y : Nat} (hsize : (t.mem x).size = (s.mem x).size + (u.mem y).size) : len t x ≤ len s x + len u y := by
  unfold len
  rw [hsize, ← Nat.add_mul]
  refine Nat.mul_le_mul_right _ ?_
  rw [BitVec.toNat_add]
  have := Nat.mod_le ((s.mem x).size.toNat + (u.mem y).size.toNat) (2 ^ 32)
  omega

/-- What the first half of `free` does: `bp` leads on to the blocks `w` that are left above it. -/
structure Upper (s : Heap) (bp : Nat) (v : List Nat) (t : Heap) (w : List Nat) : Prop where
  brk : t.brk = s.brk
  base : t.base = s.base
  mem : ∀ x, x ≠ bp → t.mem x = s.mem x
  sub : w.Sublist v
  links : Linked (next t) bp w s.base
  top : bp + len t bp ≤ s.brk
  above : ∀ y ∈ w, bp + len t bp ≤ y
  clear : ∀ a n, 0 < n → Apart bp (len s bp) a n → Clear s v a n → Apart bp (len t bp) a n

/-- How the first half of `free` joins: the block is left as it is, or the one that starts where it ends becomes part of it. -/
def Raised (s : Heap) (bp : Nat) (v : List Nat) (t : Heap) (w : List Nat) : Prop :=
  w = v ∧ (t.mem bp).size = (s.mem bp).size ∧ (∀ y ∈ v.head?, bp + len s bp ≠ y) ∨
    ∃ y, v = y :: w ∧ bp + len s bp = y ∧ (t.mem bp).size = (s.mem bp).size + (s.mem y).size

theorem joinUpper_wp {u v : List Nat} (h : Free lo s l) (hbp : Loose lo s l bp) (hq : Place s l bp q u v) :
    Wp (fun _ => False) (joinUpper bp q) s fun _ t => ∃ w, Upper s bp v t w ∧ Raised s bp v t w := by
  have hlist := hq.list
  have hlinks := h.links
  rw [hlist] at hlinks
  have htail := hlinks.tail
  rw [hq.last] at htail
  have hqmem : q ∈ s.base :: l := by
    rw [hlist, ← cons_append, ← hq.last]
    exact mem_append_left v getLastD_mem_cons
  have hvl : ∀ y ∈ v, y ∈ l := fun y hy => hlist ▸ mem_append_right u hy
  have hmapped := hbp.mapped h
  have hlen := len_eq hbp.pos
  refine Wp.bind_eq (load_eq hmapped) (Wp.bind_eq (load_eq (h.mapped_node hqmem)) ?_)
  by_cases hjoin : after bp (s.mem bp).size = (s.mem q).ptr
  · rw [if_pos hjoin]
    cases v with
    | nil =>
      have hnext : (s.mem q).ptr = s.base := htail
      have := h.base_lt hbp.ge
      unfold after at hjoin
      omega
    | cons y v =>
      obtain ⟨hnext, htail⟩ : (s.mem q).ptr = y ∧ Linked (next s) y v s.base := htail
      have hy : y = bp + len s bp := by rw [← hnext, ← hjoin, hlen]; rfl
      have hyl := hvl y mem_cons_self
      have hyne : ∀ z ∈ y :: v, z ≠ bp := fun z hz => by have := hq.upper z hz; omega
      obtain ⟨-, hyorder, -⟩ := pairwise_append.1 (hlist ▸ h.spaced.order)
      rw [hnext]
      refine Wp.bind_eq (load_eq (h.mapped_node (mem_cons_of_mem _ hyl))) (Wp.bind_eq (setSize_eq hmapped) ?_)
      refine Wp.of_eq (setPtr_eq hmapped) ⟨v, ?_⟩
      generalize ht : (s.withSize bp _).withPtr bp _ = t
      have hself : t.mem bp = ⟨(s.mem y).ptr, (s.mem bp).size + (s.mem y).size⟩ := by rw [← ht, withPtr_self, withSize_self]
      refine ⟨?_, .inr ⟨y, rfl, hy.symm, by rw [hself]⟩⟩
      have hmem : ∀ x, x ≠ bp → t.mem x = s.mem x := fun x hx => by rw [← ht, withPtr_of_ne hx, withSize_of_ne hx]
      have hjoined : len t bp ≤ len s bp + len s y := len_join (by rw [hself])
      have hyend := (h.spaced.bound y hyl).2
      refine ⟨by rw [← ht]; rfl, by rw [← ht]; rfl, hmem, sublist_cons_self .., htail.start ?_ fun z hz => ?_, by omega, fun z hz => ?_,
        fun a n hn hbpa hva => ?_⟩
      · unfold next
        rw [hself]
      · unfold next
        rw [hmem z (hyne z (mem_cons_of_mem y hz))]
      · have := (pairwise_cons.1 hyorder).1 z hz
        omega
      · have hya := hva y mem_cons_self
        unfold Apart at *
        omega
  · rw [if_neg hjoin]
    refine Wp.of_eq (setPtr_eq hmapped) ⟨v, ?_⟩
    generalize ht : s.withPtr bp _ = t
    have hself : t.mem bp = ⟨(s.mem q).ptr, (s.mem bp).size⟩ := by rw [← ht, withPtr_self]
    have hmem : ∀ x, x ≠ bp → t.mem x = s.mem x := fun x hx => by rw [← ht, withPtr_of_ne hx]
    have hsame : len t bp = len s bp := by
      unfold len
      rw [hself]
    have happart : ∀ y ∈ v.head?, bp + len s bp ≠ y := by
      intro y hy heq
      have hnext : (s.mem q).ptr = v.headD s.base := htail.next_eq
      rw [headD_eq_head?_getD, hy, Option.getD_some] at hnext
      exact hjoin (by rw [hnext, ← heq, hlen]; rfl)
    refine ⟨?_, .inl ⟨rfl, by rw [hself], happart⟩⟩
    refine ⟨by rw [← ht]; rfl, by rw [← ht]; rfl, hmem, List.Sublist.refl _, htail.start ?_ fun z hz => ?_, by rw [hsame]; exact hbp.le,
      fun z hz => ?_, fun a n _ hbpa _ => by rw [hsame]; exact hbpa⟩
    · unfold next
      rw [hself]
    · unfold next
      rw [hmem z (by have := hq.upper z hz; omega)]
    · have hap := hbp.clear z (hvl z hz)
      have := hq.upper z hz
      rw [hsame]
      unfold Apart at hap
      omega

/-- What `free` does to the list, and what it leaves alone. -/
structure Freed (lo bp : Nat) (s : Heap) (l : List Nat) (t : Heap) (l' : List Nat) : Prop where
  free : Free lo t l'
  base : t.base = s.base
  brk : t.brk = s.brk
  keep : ∀ a n, 0 < n → lo ≤ a → Clear s l a n → Apart bp (len s bp) a n → t.mem a = s.mem a ∧ Clear t l' a n

/-- The facts about the place that the second half of `free` needs. -/
structure Below (lo : Nat) (s : Heap) (bp q : Nat) (u : List Nat) : Prop where
  mem : q ∈ s.base :: u
  lt : ∀ y ∈ s.base :: u, y < bp
  fits : ∀ y ∈ u, y + len s y ≤ bp
  nodup : (s.base :: u).Nodup

theorem Place.below {u v : List Nat} (h : Free lo s l) (hbp : Loose lo s l bp) (hq : Place s l bp q u v) : Below lo s bp q u := by
  have hsub : (s.base :: u).Sublist (s.base :: l) := by
    rw [hq.list]
    exact (sublist_append_left u v).cons_cons _
  refine ⟨hq.last ▸ getLastD_mem_cons, fun y hy => ?_, fun y hy => ?_, h.nodup.sublist hsub⟩
  · rcases mem_cons.1 hy with rfl | hy
    · exact h.base_lt hbp.ge
    · exact hq.lower y hy
  · have hap := hbp.clear y (hq.list ▸ mem_append_left v hy)
    have := hq.lower y hy
    have := le_len s bp
    unfold Apart at hap
    omega

/-- A segment clear of the list and of the block has its header elsewhere. -/
theorem Loose.elsewhere (h : Free lo s l) (hn : 0 < n) (hlo : lo ≤ a) (hc : Clear s l a n) (hap : Apart bp (len s bp) a n) :
    a ∉ s.base :: l ∧ a ≠ bp := by
  refine ⟨h.notMem hlo hn hc, ?_⟩
  rintro rfl
  have := le_len s a
  unfold Apart HEADER at *
  omega

/-- The block is joined to the one below it. -/
theorem Upper.join {u v w : List Nat} (h : Free lo s l) (hbp : Loose lo s l bp) (hq : Place s l bp q u v) (ht : Upper s bp v t w)
    (hjoin : after q (s.mem q).size = bp) (hbrk : r.brk = s.brk) (hbase : r.base = s.base) (hfreep : r.freep = q)
    (hself : r.mem q = ⟨(t.mem bp).ptr, (s.mem q).size + (t.mem bp).size⟩) (hmem : ∀ x, x ≠ q → r.mem x = t.mem x) :
    Freed lo bp s l r (u ++ w) := by
  have hbelow := hq.below h hbp
  have hlt := hbelow.lt q hbelow.mem
  have hpos : 1 ≤ (s.mem q).size.toNat := by
    unfold after at hjoin
    by_contra hzero
    rw [show (s.mem q).size.toNat = 0 by omega] at hjoin
    omega
  have hqu : q ∈ u := by
    rcases mem_cons.1 hbelow.mem with rfl | hqu
    · rw [h.empty] at hpos
      exact absurd hpos (by decide)
    · exact hqu
  have hqend : q + len s q = bp := by rw [len_eq hpos]; exact hjoin
  have hjoined : len r q ≤ len s q + len t bp := len_join (by rw [hself])
  have hother : ∀ x, x ≠ q → x ≠ bp → r.mem x = s.mem x := fun x hx hx' => (hmem x hx).trans (ht.mem x hx')
  have hw : ∀ y ∈ w, y ≠ q ∧ y ≠ bp := fun y hy => by
    have := hq.upper y (ht.sub.subset hy)
    omega
  have hql : q ∈ l := hq.list ▸ mem_append_left v hqu
  have hlinks := h.links
  rw [hq.list] at hlinks
  have hring : Linked (next r) s.base (u ++ w) s.base := by
    refine hlinks.splice hbelow.nodup (fun y hy hyq => ?_) ?_
    · rw [hq.last] at hyq
      unfold next
      rw [hother y hyq (hbelow.lt y hy).ne]
    · rw [hq.last]
      refine ht.links.start ?_ fun y hy => ?_
      · unfold next
        rw [hself]
      · unfold next
        rw [hmem y (hw y hy).1]
  have hbaseq : s.base ≠ q := fun heq => (nodup_cons.1 hbelow.nodup).1 (heq ▸ hqu)
  have hspaced : Spaced (len r) lo s.brk (u ++ w) := by
    obtain ⟨u, rfl⟩ : ∃ u₀, u = u₀ ++ [q] := by
      rcases eq_nil_or_concat u with rfl | ⟨u₀, z, rfl⟩
      · exact absurd hqu not_mem_nil
      · have hlast := hq.last
        rw [concat_eq_append, getLastD_concat] at hlast
        exact ⟨u₀, by rw [concat_eq_append, hlast]⟩
    have hnodup := (nodup_cons.1 hbelow.nodup).2
    have hqu₀ : q ∉ u := fun hmem => (nodup_append.1 hnodup).2.2 q hmem q (mem_singleton_self q) rfl
    have hsub : (u ++ w).Sublist l := by
      rw [hq.list]
      exact (sublist_append_left u [q]).append ht.sub
    rw [append_assoc]
    refine ((h.spaced.sublist hsub).shrink fun y hy => ?_).insert (h.bound hql).1 ?_ (fun y hy => ?_) fun y hy => ?_
    · refine (len_congr ?_).le
      rcases mem_append.1 hy with hy | hy
      · exact hother y (fun heq => hqu₀ (heq ▸ hy)) (hbelow.lt y (mem_cons_of_mem _ (mem_append_left _ hy))).ne
      · exact hother y (hw y hy).1 (hw y hy).2
    · have := ht.top
      omega
    · have horder := h.spaced.order
      rw [hq.list, append_assoc, pairwise_append] at horder
      have := horder.2.2 y hy q mem_cons_self
      rw [len_congr (hother y (fun heq => hqu₀ (heq ▸ hy)) (hbelow.lt y (mem_cons_of_mem _ (mem_append_left _ hy))).ne)]
      exact this
    · have := ht.above y hy
      omega
  refine ⟨⟨hbase ▸ h.pos, hbase ▸ h.below, hbrk ▸ h.start, hbrk ▸ h.top, hbase ▸ hring, ?_, hbrk ▸ hspaced, ?_⟩, hbase, hbrk, fun a n hn hlo hc hap => ?_⟩
  · rw [hbase, hother _ hbaseq (h.base_lt hbp.ge).ne]
    exact h.empty
  · rw [hfreep, hbase]
    exact mem_cons_of_mem _ (mem_append_left w hqu)
  · obtain ⟨hal, habp⟩ := Loose.elsewhere h hn hlo hc hap
    refine ⟨hother a (fun heq => hal (heq ▸ mem_cons_of_mem _ hql)) habp, fun x hx => ?_⟩
    have hxl : x ∈ l := by
      rw [hq.list]
      rcases mem_append.1 hx with hx | hx
      · exact mem_append_left v hx
      · exact mem_append_right u (ht.sub.subset hx)
    by_cases hxq : x = q
    · subst hxq
      have hqa := hc x hxl
      have hbpa := ht.clear a n hn hap fun y hy => hc y (hq.list ▸ mem_append_right u hy)
      unfold Apart at *
      omega
    · rw [len_congr (hother x hxq fun heq => hbp.notMem h (mem_cons_of_mem _ (heq ▸ hxl)))]
      exact hc x hxl

/-- The block is put behind the one below it. -/
theorem Upper.link {u v w : List Nat} (h : Free lo s l) (hbp : Loose lo s l bp) (hq : Place s l bp q u v) (ht : Upper s bp v t w)
    (hbrk : r.brk = s.brk) (hbase : r.base = s.base) (hfreep : r.freep = q) (hself : r.mem q = ⟨bp, (s.mem q).size⟩)
    (hmem : ∀ x, x ≠ q → r.mem x = t.mem x) : Freed lo bp s l r (u ++ bp :: w) := by
  have hbelow := hq.below h hbp
  have hlt := hbelow.lt q hbelow.mem
  have hother : ∀ x, x ≠ q → x ≠ bp → r.mem x = s.mem x := fun x hx hx' => (hmem x hx).trans (ht.mem x hx')
  have hlen : ∀ x, x ≠ bp → len r x = len s x := by
    intro x hx
    by_cases hxq : x = q
    · unfold len
      rw [hxq, hself]
    · exact len_congr (hother x hxq hx)
  have hlenbp : len r bp = len t bp := len_congr (hmem bp (by omega))
  have hw : ∀ y ∈ w, bp < y := fun y hy => hq.upper y (ht.sub.subset hy)
  have hlinks := h.links
  rw [hq.list] at hlinks
  have hring : Linked (next r) s.base (u ++ bp :: w) s.base := by
    refine hlinks.splice hbelow.nodup (fun y hy hyq => ?_) ?_
    · rw [hq.last] at hyq
      unfold next
      rw [hother y hyq (hbelow.lt y hy).ne]
    · rw [hq.last]
      refine ⟨?_, ht.links.congr fun y hy => ?_⟩
      · unfold next
        rw [hself]
      · unfold next
        rw [hmem y]
        rcases mem_cons.1 hy with rfl | hy
        · omega
        · have := hw y hy
          omega
  have hspaced : Spaced (len r) lo s.brk (u ++ bp :: w) := by
    have hsub : (u ++ w).Sublist l := by
      rw [hq.list]
      exact (List.Sublist.refl u).append ht.sub
    refine ((h.spaced.sublist hsub).shrink fun y hy => ?_).insert hbp.ge (by rw [hlenbp]; exact ht.top) (fun y hy => ?_) fun y hy => ?_
    · refine (hlen y ?_).le
      rcases mem_append.1 hy with hy | hy
      · exact (hbelow.lt y (mem_cons_of_mem _ hy)).ne
      · exact (hw y hy).ne'
    · rw [hlen y (hbelow.lt y (mem_cons_of_mem _ hy)).ne]
      exact hbelow.fits y hy
    · rw [hlenbp]
      exact ht.above y hy
  refine ⟨⟨hbase ▸ h.pos, hbase ▸ h.below, hbrk ▸ h.start, hbrk ▸ h.top, hbase ▸ hring, ?_, hbrk ▸ hspaced, ?_⟩, hbase, hbrk, fun a n hn hlo hc hap => ?_⟩
  · rw [hbase]
    by_cases hbq : s.base = q
    · rw [hbq, hself, ← hbq]
      exact h.empty
    · rw [hother _ hbq (h.base_lt hbp.ge).ne]
      exact h.empty
  · rw [hfreep, hbase, ← cons_append]
    exact mem_append_left _ hbelow.mem
  · obtain ⟨hal, habp⟩ := Loose.elsewhere h hn hlo hc hap
    have hqbl : q ∈ s.base :: l := by
      rw [hq.list, ← cons_append]
      exact mem_append_left v hbelow.mem
    refine ⟨hother a (fun heq => hal (heq ▸ hqbl)) habp, fun x hx => ?_⟩
    have hxl : ∀ y ∈ u ++ w, y ∈ l := fun y hy => by
      rw [hq.list]
      rcases mem_append.1 hy with hy | hy
      · exact mem_append_left v hy
      · exact mem_append_right u (ht.sub.subset hy)
    by_cases hxbp : x = bp
    · subst hxbp
      rw [hlenbp]
      exact ht.clear a n hn hap fun y hy => hc y (hq.list ▸ mem_append_right u hy)
    · rw [hlen x hxbp]
      refine hc x (hxl x ?_)
      rcases mem_append.1 hx with hx | hx
      · exact mem_append_left w hx
      · exact mem_append_right u ((mem_cons.1 hx).resolve_left hxbp)

/-- How the second half of `free` joins: the block is put on the list, or becomes part of the one that ends where it starts. -/
def Lowered (s t : Heap) (bp q : Nat) (u w : List Nat) (r : Heap) (l' : List Nat) : Prop :=
  l' = u ++ bp :: w ∧ (∀ x, (r.mem x).size = (t.mem x).size) ∧ after q (s.mem q).size ≠ bp ∨
    l' = u ++ w ∧ (∀ x, x ≠ q → (r.mem x).size = (t.mem x).size) ∧ after q (s.mem q).size = bp ∧
      (r.mem q).size = (s.mem q).size + (t.mem bp).size

theorem joinLower_wp {u v w : List Nat} (h : Free lo s l) (hbp : Loose lo s l bp) (hq : Place s l bp q u v) (ht : Upper s bp v t w) :
    Wp (fun _ => False) (joinLower bp q) t fun _ r => ∃ l', Freed lo bp s l (r.withFreep q) l' ∧ Lowered s t bp q u w (r.withFreep q) l' := by
  have hbelow := hq.below h hbp
  have hlt := hbelow.lt q hbelow.mem
  have hmapped : ∀ {x}, s.Mapped x → t.Mapped x := fun {x} hx => by
    unfold Heap.Mapped at *
    rw [ht.brk]
    exact hx
  have hqmap : t.Mapped q := hmapped (h.mapped_node (by
    rw [hq.list, ← cons_append]
    exact mem_append_left v hbelow.mem))
  refine Wp.bind_eq (load_eq hqmap) ?_
  rw [ht.mem q (by omega)]
  by_cases hjoin : after q (s.mem q).size = bp
  · rw [if_pos hjoin]
    refine Wp.bind_eq (load_eq (hmapped (hbp.mapped h))) (Wp.bind_eq (setSize_eq hqmap) (Wp.of_eq (setPtr_eq hqmap) ⟨u ++ w, ?_⟩))
    have hself : ((t.withSize q ((s.mem q).size + (t.mem bp).size)).withPtr q (t.mem bp).ptr).mem q =
        ⟨(t.mem bp).ptr, (s.mem q).size + (t.mem bp).size⟩ := by rw [withPtr_self, withSize_self]
    have hmem : ∀ x, x ≠ q → ((t.withSize q ((s.mem q).size + (t.mem bp).size)).withPtr q (t.mem bp).ptr).mem x = t.mem x :=
      fun x hx => by rw [withPtr_of_ne hx, withSize_of_ne hx]
    exact ⟨ht.join h hbp hq hjoin ht.brk ht.base rfl hself hmem,
      .inr ⟨rfl, fun x hx => congrArg Header.size (hmem x hx), hjoin, congrArg Header.size hself⟩⟩
  · rw [if_neg hjoin]
    refine Wp.of_eq (setPtr_eq hqmap) ⟨u ++ bp :: w, ?_⟩
    have hself : (t.withPtr q bp).mem q = ⟨bp, (s.mem q).size⟩ := by rw [withPtr_self, ht.mem q (by omega)]
    have hmem : ∀ x, x ≠ q → (t.withPtr q bp).mem x = t.mem x := fun x hx => withPtr_of_ne hx
    refine ⟨ht.link h hbp hq ht.brk ht.base rfl hself hmem, .inl ⟨rfl, fun x => ?_, hjoin⟩⟩
    by_cases hx : x = q
    · rw [hx]
      exact (congrArg Header.size hself).trans (congrArg Header.size (ht.mem q (by omega))).symm
    · exact congrArg Header.size (hmem x hx)

/-- Where `free` puts the block, and how it joins it. -/
def Joined (s : Heap) (l : List Nat) (bp : Nat) (r : Heap) (l' : List Nat) : Prop :=
  ∃ q u v t w, Place s l bp q u v ∧ Upper s bp v t w ∧ Raised s bp v t w ∧ Lowered s t bp q u w r l'

theorem free_joins_wp (h : Free lo s l) (hbp : Loose lo s l bp) :
    Wp (fun _ => False) (free (bp + HEADER)) s fun _ t => ∃ l', Freed lo bp s l t l' ∧ Joined s l bp t l' := by
  unfold free
  rw [Nat.add_sub_cancel]
  obtain ⟨u, v, hl, hlast⟩ := exists_split h.freep
  have hlen := h.length_lt
  have hvlen : v.length ≤ l.length := by
    rw [hl, length_append]
    omega
  have hfuel : (if s.freep < bp then v.length else v.length + 1 + l.length) < STEPS := by
    simp only [TRAPFRAME, TRAMPOLINE, MAXVA, PGSIZE, STEPS] at *
    split <;> omega
  refine Wp.bind_eq (show getFreep s = .ok (s.freep, s) from rfl) ?_
  refine (freeLoop_wp STEPS h hbp.ge (fun hm => hbp.notMem h (mem_cons_of_mem _ hm)) hl hlast hfuel).bind ?_
  rintro q t ⟨rfl, u, v, hq⟩
  refine (joinUpper_wp h hbp hq).bind ?_
  rintro _ r ⟨w, hr, hraised⟩
  refine (joinLower_wp h hbp hq hr).bind ?_
  rintro _ x ⟨l', hfreed, hlowered⟩
  exact ⟨l', hfreed, q, u, v, r, w, hq, hr, hraised, hlowered⟩

theorem free_wp (h : Free lo s l) (hbp : Loose lo s l bp) :
    Wp (fun _ => False) (free (bp + HEADER)) s fun _ t => ∃ l', Freed lo bp s l t l' := by
  refine (free_joins_wp h hbp).mono ?_
  rintro _ t ⟨l', hfreed, -⟩
  exact ⟨l', hfreed⟩

end UmallocAux

end Xv6.Umalloc
