import Xv6.UmallocList
import Xv6.Lemmas.UmallocGet

/-!
# Units on the free list

What `free` and `malloc` do to the sizes of the blocks, where no size wraps: no unit is lost, and no two blocks of the list adjoin
(`Tight`).
-/

namespace Xv6.Umalloc

open Lib List

namespace UmallocAux

variable {s t r : Heap} {lo p q bp a n : Nat} {l l' u v w : List Nat} {nu nunits : Uint}

/-- The units of the blocks. -/
def total (s : Heap) (l : List Nat) : Nat := (l.map s.units).sum

structure Tight (s : Heap) (l : List Nat) : Prop where
  pos : ∀ x ∈ l, 1 ≤ s.units x
  gaps : l.Pairwise fun x y => x + s.units x * HEADER < y

@[simp] theorem total_nil : total s [] = 0 := rfl

@[simp] theorem total_cons : total s (p :: l) = s.units p + total s l := sum_cons

@[simp] theorem total_append : total s (u ++ v) = total s u + total s v := by
  unfold total
  rw [map_append, sum_append]

theorem total_congr (h : ∀ x ∈ l, t.units x = s.units x) : total t l = total s l := by
  unfold total
  rw [map_congr_left h]

theorem Tight.congr (h : Tight s l) (hsame : ∀ x ∈ l, t.units x = s.units x) : Tight t l := by
  refine ⟨fun x hx => by rw [hsame x hx]; exact h.pos x hx, h.gaps.imp_of_mem fun hx _ hxy => ?_⟩
  rw [hsame _ hx]
  exact hxy

theorem Tight.sublist (h : Tight s l) (hsub : l'.Sublist l) : Tight s l' := ⟨fun x hx => h.pos x (hsub.subset hx), h.gaps.sublist hsub⟩

theorem units_of_size (h : (t.mem a).size = (s.mem a).size) : t.units a = s.units a := congrArg BitVec.toNat h

/-- A block between those below and those above it. -/
theorem Tight.insert (h : Tight s (u ++ v)) (hpos : 1 ≤ s.units p) (hu : ∀ y ∈ u, y + s.units y * HEADER < p)
    (hv : ∀ y ∈ v, p + s.units p * HEADER < y) : Tight s (u ++ p :: v) := by
  obtain ⟨hgapu, hgapv, huv⟩ := pairwise_append.1 h.gaps
  refine ⟨fun x hx => ?_, pairwise_append.2 ⟨hgapu, pairwise_cons.2 ⟨hv, hgapv⟩, fun x hx y hy => ?_⟩⟩
  · rcases mem_append.1 hx with hx | hx
    · exact h.pos x (mem_append_left v hx)
    · rcases mem_cons.1 hx with rfl | hx
      · exact hpos
      · exact h.pos x (mem_append_right u hx)
  · rcases mem_cons.1 hy with rfl | hy
    · exact hu x hx
    · exact huv x hx y hy

/-! ## `free` -/

/-- The joined block is no larger than a header can say. -/
structure Room (s : Heap) (l : List Nat) (bp : Nat) : Prop where
  room : ∀ m n, (m = 0 ∨ ∃ x ∈ l, x + s.units x * HEADER = bp ∧ m = s.units x) →
    (n = 0 ∨ ∃ y ∈ l, bp + s.units bp * HEADER = y ∧ n = s.units y) → m + s.units bp + n < 2 ^ 32

/-- What the first half of `free` makes of the block: the units of those joined. -/
structure Risen (s : Heap) (l : List Nat) (bp : Nat) (v : List Nat) (t : Heap) (w : List Nat) : Prop where
  pos : 1 ≤ t.units bp
  above : ∀ y ∈ w, bp + t.units bp * HEADER < y
  sum : t.units bp + total s w = s.units bp + total s v
  grown : ∃ n, t.units bp = s.units bp + n ∧ (n = 0 ∨ ∃ y ∈ l, bp + s.units bp * HEADER = y ∧ n = s.units y)

theorem Raised.risen (htight : Tight s l) (hbp : Loose lo s l bp) (hq : Place s l bp q u v) (hroom : Room s l bp) (h : Raised s bp v t w) :
    Risen s l bp v t w := by
  have hlen : len s bp = s.units bp * HEADER := len_eq hbp.pos
  have hvl : ∀ y ∈ v, y ∈ l := fun y hy => hq.list ▸ mem_append_right u hy
  have hgaps := htight.gaps
  rw [hq.list] at hgaps
  have hgapv := (pairwise_append.1 hgaps).2.1
  have hpos : 1 ≤ s.units bp := hbp.pos
  rcases h with ⟨rfl, hsize, hhead⟩ | ⟨y, rfl, hy, hsize⟩
  · have hsame := units_of_size hsize
    refine ⟨by rw [hsame]; exact hpos, fun y hy => ?_, by rw [hsame], 0, hsame, .inl rfl⟩
    rw [hsame, ← hlen]
    cases w with
    | nil => exact absurd hy not_mem_nil
    | cons z w =>
      have hz : bp + len s bp < z := by
        have hap := hbp.clear z (hvl z mem_cons_self)
        have := hq.upper z mem_cons_self
        have := hhead z rfl
        unfold Apart at hap
        omega
      rcases mem_cons.1 hy with rfl | hy
      · exact hz
      · have := (pairwise_cons.1 hgapv).1 y hy
        omega
  · have hyl := hvl y mem_cons_self
    rw [hlen] at hy
    have hfit := hroom.room 0 (s.units y) (.inl rfl) (.inr ⟨y, hyl, hy, rfl⟩)
    have hsum : t.units bp = s.units bp + s.units y := by
      show (t.mem bp).size.toNat = _
      rw [hsize, BitVec.toNat_add]
      exact Nat.mod_eq_of_lt (by unfold Heap.units at hfit; omega)
    refine ⟨by omega, fun z hz => ?_, by rw [hsum, total_cons]; omega, s.units y, hsum, .inr ⟨y, hyl, hy, rfl⟩⟩
    have := (pairwise_cons.1 hgapv).1 z hz
    rw [hsum, Nat.add_mul]
    omega

/-- `free` loses no unit, and leaves no two blocks that adjoin. -/
theorem Joined.tight (h : Free lo s l) (htight : Tight s l) (hbp : Loose lo s l bp) (hroom : Room s l bp) (hjoined : Joined s l bp r l') :
    Tight r l' ∧ total r l' = total s l + s.units bp := by
  obtain ⟨q, u, v, t, w, hq, hupper, hraised, hlowered⟩ := hjoined
  obtain ⟨hpos, habove, hsum, n, hgrown, hn⟩ := Raised.risen htight hbp hq hroom hraised
  have hbelow := hq.below h hbp
  have hltq := hbelow.lt q hbelow.mem
  have hlist := hq.list
  have hsub : (u ++ w).Sublist l := hlist ▸ (List.Sublist.refl u).append hupper.sub
  have hrest : Tight s (u ++ w) := htight.sublist hsub
  -- the sizes of the other blocks
  have hne : ∀ x ∈ u ++ w, x ≠ bp := fun x hx heq => hbp.notMem h (mem_cons_of_mem _ (hsub.subset (heq ▸ hx)))
  have hsame : ∀ x, x ≠ bp → t.units x = s.units x := fun x hx => units_of_size (congrArg Header.size (hupper.mem x hx))
  have hgapu : u.Pairwise fun x y => x + s.units x * HEADER < y := (pairwise_append.1 hrest.gaps).1
  have hfitu : ∀ y ∈ u, y + s.units y * HEADER ≤ bp := fun y hy => by
    have := hbelow.fits y hy
    rwa [len_eq (hrest.pos y (mem_append_left w hy))] at this
  rcases hlowered with ⟨rfl, hsizes, hgap⟩ | ⟨rfl, hsizes, hjoin, hsize⟩
  · -- the block is put on the list
    have hunits : ∀ x, r.units x = t.units x := fun x => units_of_size (hsizes x)
    have hother : ∀ x ∈ u ++ w, r.units x = s.units x := fun x hx => (hunits x).trans (hsame x (hne x hx))
    constructor
    · refine (hrest.congr hother).insert (by rw [hunits]; exact hpos) (fun y hy => ?_) fun y hy => by rw [hunits]; exact habove y hy
      rw [hother y (mem_append_left w hy)]
      have hle := hfitu y hy
      have hlast : y = q ∨ y + s.units y * HEADER < q := by
        rcases eq_nil_or_concat u with rfl | ⟨u₀, z, rfl⟩
        · exact absurd hy not_mem_nil
        · have hz := hq.last
          rw [concat_eq_append, getLastD_concat] at hz
          subst hz
          rw [concat_eq_append] at hy hgapu
          rcases mem_append.1 hy with hy | hy
          · exact .inr ((pairwise_append.1 hgapu).2.2 y hy z (mem_singleton_self z))
          · exact .inl (mem_singleton.1 hy)
      rcases hlast with rfl | hlast
      · exact lt_of_le_of_ne hle hgap
      · omega
    · rw [total_append, total_cons, hunits, total_congr fun x hx => hother x (mem_append_left w hx),
        total_congr fun x hx => hother x (mem_append_right u hx), hlist, total_append]
      omega
  · -- the block is joined to the one below it
    have hqpos : s.units q ≠ 0 := by
      intro hzero
      have : after q (s.mem q).size = q := by
        unfold after
        rw [show (s.mem q).size.toNat = 0 from hzero]
        omega
      omega
    have hqu : q ∈ u := by
      rcases mem_cons.1 hbelow.mem with rfl | hqu
      · exact absurd (congrArg BitVec.toNat h.empty) hqpos
      · exact hqu
    have hql : q ∈ l := hlist ▸ mem_append_left v hqu
    have hunitsq : r.units q = s.units q + t.units bp := by
      have hfit := hroom.room (s.units q) n (.inr ⟨q, hql, hjoin, rfl⟩) hn
      show (r.mem q).size.toNat = _
      rw [hsize, BitVec.toNat_add]
      refine Nat.mod_eq_of_lt ?_
      show s.units q + t.units bp < 2 ^ 32
      omega
    have hother : ∀ x ∈ u ++ w, x ≠ q → r.units x = s.units x := fun x hx hxq =>
      (units_of_size (hsizes x hxq)).trans (hsame x (hne x hx))
    obtain ⟨u₀, rfl⟩ : ∃ u₀, u = u₀ ++ [q] := by
      rcases eq_nil_or_concat u with rfl | ⟨u₀, z, rfl⟩
      · exact absurd hqu not_mem_nil
      · have hz := hq.last
        rw [concat_eq_append, getLastD_concat] at hz
        exact ⟨u₀, by rw [concat_eq_append, hz]⟩
    have hnodup := (nodup_cons.1 hbelow.nodup).2
    have hqu₀ : ∀ x ∈ u₀, x ≠ q := fun x hx heq => (nodup_append.1 hnodup).2.2 x hx q (mem_singleton_self q) heq
    have hqw : ∀ x ∈ w, x ≠ q := fun x hx heq => by
      have := hq.upper x (hupper.sub.subset hx)
      omega
    have hsub₀ : (u₀ ++ w).Sublist (u₀ ++ [q] ++ w) := (sublist_append_left u₀ [q]).append (List.Sublist.refl w)
    have hother₀ : ∀ x ∈ u₀ ++ w, r.units x = s.units x := fun x hx =>
      hother x (hsub₀.subset hx) ((mem_append.1 hx).elim (hqu₀ x) (hqw x))
    have hend : q + s.units q * HEADER = bp := hjoin
    constructor
    · rw [append_assoc]
      refine ((hrest.sublist hsub₀).congr hother₀).insert (by omega) (fun y hy => ?_) fun y hy => ?_
      · rw [hother₀ y (mem_append_left w hy)]
        exact (pairwise_append.1 hgapu).2.2 y hy q (mem_singleton_self q)
      · have := habove y hy
        rw [hunitsq, Nat.add_mul]
        omega
    · have htotal : total r (u₀ ++ w) = total s (u₀ ++ w) := total_congr hother₀
      rw [total_append, total_append] at htotal
      rw [hlist, total_append, total_append, total_append, total_append, total_cons, total_cons, hunitsq, total_nil, total_nil]
      omega

/-! ## `malloc` -/

theorem Tight.sorted (h : Tight s l) : l.Pairwise (· < ·) := h.gaps.imp fun hxy => Nat.lt_of_le_of_lt (Nat.le_add_right ..) hxy

/-- `malloc` takes its units from the list. -/
theorem Carved.tight (htight : Tight s l) (h : Carved nunits s l t l') : Tight t l' ∧ total t l' + nunits.toNat = total s l := by
  obtain ⟨-, ⟨u, p, v, rfl, rfl, hsize, hsame⟩ | ⟨p, hp, rfl, hless, hrest, hsame⟩⟩ := h
  · have hunits : ∀ x, t.units x = s.units x := fun x => units_of_size (hsame x)
    constructor
    · exact (htight.sublist ((List.Sublist.refl u).append (sublist_cons_self p v))).congr fun x _ => hunits x
    · have hp : s.units p = nunits.toNat := congrArg BitVec.toNat hsize
      rw [total_congr fun x _ => hunits x, total_append, total_append, total_cons]
      omega
  · have hunits : ∀ x ∈ l', x ≠ p → t.units x = s.units x := fun x hx hxp => units_of_size (hsame x hx hxp)
    have hp' : t.units p = s.units p - nunits.toNat := hrest
    have hless : nunits.toNat < s.units p := hless
    constructor
    · refine ⟨fun x hx => ?_, htight.gaps.imp_of_mem fun {x y} hx _ hxy => ?_⟩
      · by_cases hxp : x = p
        · rw [hxp]
          omega
        · rw [hunits x hx hxp]
          exact htight.pos x hx
      · by_cases hxp : x = p
        · rw [hxp] at hxy ⊢
          rw [hp', Nat.sub_mul]
          omega
        · rw [hunits x hx hxp]
          exact hxy
    · obtain ⟨u, v, rfl⟩ := append_of_mem hp
      have hnodup : (u ++ p :: v).Nodup := htight.sorted.imp fun hxy => hxy.ne
      obtain ⟨-, hpv, hdisj⟩ := nodup_append.1 hnodup
      have hu : total t u = total s u := total_congr fun x hx =>
        hunits x (mem_append_left _ hx) (hdisj x hx p mem_cons_self)
      have hv : total t v = total s v := total_congr fun x hx =>
        hunits x (mem_append_right u (mem_cons_of_mem p hx)) fun heq => (nodup_cons.1 hpv).1 (heq ▸ hx)
      rw [total_append, total_append, total_cons, total_cons, hu, hv, hp']
      omega

/-- New memory is joined to no more than fits: the blocks of the list are smaller than what is asked for. -/
theorem Grown.tight (h : Free lo s l) (htight : Tight s l) (hnu : nu.toNat < 2 ^ 27) (hsmall : ∀ x ∈ l, s.units x < nu.toNat)
    (hgrown : Grown lo nu s l t l') : Tight t l' ∧ ∃ k, t.brk = s.brk + k * HEADER ∧ total t l' = total s l + k := by
  obtain ⟨g, hfree, hloose, hmem, hsize, hjoined, hbrk⟩ := hgrown
  have hnode : ∀ x ∈ l, g.units x = s.units x := by
    intro x hx
    refine units_of_size (congrArg Header.size (hmem x ?_))
    have := (h.bound hx).2
    unfold HEADER at this
    omega
  have hnew : g.units s.brk = (coreUnits nu).toNat := congrArg BitVec.toNat hsize
  have hcore := coreUnits_toNat nu
  have hroom : Room g l s.brk := by
    refine ⟨fun m n hm hn => ?_⟩
    replace hm : m < 2 ^ 27 := by
      rcases hm with rfl | ⟨x, hx, -, rfl⟩
      · omega
      · have := hsmall x hx
        rw [hnode x hx]
        omega
    replace hn : n < 2 ^ 27 := by
      rcases hn with rfl | ⟨x, hx, -, rfl⟩
      · omega
      · have := hsmall x hx
        rw [hnode x hx]
        omega
    omega
  obtain ⟨htight', htotal⟩ := hjoined.tight hfree (htight.congr hnode) hloose hroom
  exact ⟨htight', (coreUnits nu).toNat, hbrk, by rw [htotal, total_congr hnode, hnew]⟩

/-- In all, `malloc` adds to the list what it has got from `sbrk`, and takes off it what it returns. -/
theorem Mallocs.tight {ap : Nat} (hnunits : nunits.toNat < 2 ^ 27) (h : Mallocs lo nunits s l ap t l') (hfree : Free lo s l) (htight : Tight s l) :
    Tight t l' ∧ ∃ k, t.brk = s.brk + k * HEADER ∧ total t l' + (if ap = 0 then 0 else nunits.toNat) = total s l + k := by
  induction h with
  | null => exact ⟨htight, 0, by rw [Nat.zero_mul, Nat.add_zero], by rw [if_pos rfl]⟩
  | take _ _ hcarved =>
    obtain ⟨htight', htotal⟩ := hcarved.tight htight
    refine ⟨htight', 0, by rw [Nat.zero_mul, Nat.add_zero]; exact hcarved.1, ?_⟩
    rw [if_neg (by unfold HEADER; omega), htotal, Nat.add_zero]
  | more hsmall hsafe hgrown _ ih =>
    obtain ⟨htight', k, hbrk, htotal⟩ := hgrown.tight hfree htight hnunits fun x hx => hsmall x (mem_cons_of_mem _ hx)
    obtain ⟨htight'', k', hbrk', htotal'⟩ := ih hsafe.free htight'
    refine ⟨htight'', k + k', ?_, by omega⟩
    rw [hbrk', hbrk, Nat.add_mul, Nat.add_assoc]

end UmallocAux

end Xv6.Umalloc
