import Xv6.Virtio
import Mathlib.Data.List.Nodup

/-!
# Descriptors of the disk driver

What `free_desc`, `free_chain` and `alloc3_desc` do: descriptors that are not free are freed without a panic, a chain is freed in the
order of its links, and an allocation that does not get all three leaves every descriptor in use as it was.
-/

namespace Xv6.Virtio

open Function List

variable {P B : Type} {s t u : System P B} {idx : List Nat} {i : Nat}

/-- Nothing differs but descriptors, who is asleep, and whether the interrupt handler is running. -/
structure Rest (s t : System P B) : Prop where
  pc : t.pc = s.pc
  lock : t.lock = s.lock
  bdisk : t.bdisk = s.bdisk
  dev : t.dev = s.dev
  avail : t.disk.avail = s.disk.avail
  used : t.disk.used = s.disk.used
  usedIdx : t.disk.usedIdx = s.disk.usedIdx
  info : t.disk.info = s.disk.info
  ops : t.disk.ops = s.disk.ops

theorem Rest.refl (s : System P B) : Rest s s := ⟨rfl, rfl, rfl, rfl, rfl, rfl, rfl, rfl, rfl⟩

theorem Rest.trans (h : Rest s t) (h' : Rest t u) : Rest s u :=
  ⟨h'.pc.trans h.pc, h'.lock.trans h.lock, h'.bdisk.trans h.bdisk, h'.dev.trans h.dev, h'.avail.trans h.avail, h'.used.trans h.used,
    h'.usedIdx.trans h.usedIdx, h'.info.trans h.info, h'.ops.trans h.ops⟩

/-- The descriptors of a list have been freed. -/
structure Freed (idx : List Nat) (s t : System P B) : Prop extends Rest s t where
  free : ∀ i, t.disk.free i = (s.disk.free i || decide (i ∈ idx))
  desc : ∀ i, i ∉ idx → t.disk.desc i = s.disk.desc i

/-- The descriptors that are not free are as they were, and so are those that are. -/
structure Agrees (s t : System P B) : Prop extends Rest s t where
  free : ∀ i, t.disk.free i = s.disk.free i
  desc : ∀ i, s.disk.free i = false → t.disk.desc i = s.disk.desc i

/-! ## Freeing -/

theorem freeDesc_eq (hi : i < NUM) (hfree : s.disk.free i = false) :
    s.freeDesc i = .ok (s.withDisk (s.disk.release i)).wakeupFree := by
  unfold System.freeDesc
  rw [if_neg (Nat.not_le.2 hi), if_neg (by rw [hfree]; exact Bool.false_ne_true)]

theorem Freed.single (s : System P B) (i : Nat) : Freed [i] s (s.withDisk (s.disk.release i)).wakeupFree := by
  refine ⟨⟨rfl, rfl, rfl, rfl, rfl, rfl, rfl, rfl, rfl⟩, fun j => ?_, fun j hj => ?_⟩
  · show update s.disk.free i true j = _
    rw [update_apply]
    split_ifs with hj
    · rw [hj, decide_eq_true (mem_singleton_self i), Bool.or_true]
    · rw [decide_eq_false (fun hmem => hj (mem_singleton.1 hmem)), Bool.or_false]
  · exact update_of_ne (fun heq => hj (mem_singleton.2 heq)) ..

theorem Freed.trans {idx idx' : List Nat} (h : Freed idx s t) (h' : Freed idx' t u) : Freed (idx ++ idx') s u := by
  refine ⟨h.toRest.trans h'.toRest, fun i => ?_, fun i hi => ?_⟩
  · rw [h'.free, h.free, Bool.or_assoc]
    congr 1
    rw [← Bool.decide_or]
    exact decide_eq_decide.2 mem_append.symm
  · rw [mem_append, not_or] at hi
    rw [h'.desc i hi.2, h.desc i hi.1]

/-- Descriptors that are not free are freed one after the other. -/
theorem foldlM_freeDesc (hnodup : idx.Nodup) (hidx : ∀ i ∈ idx, i < NUM ∧ s.disk.free i = false) :
    ∃ t, idx.foldlM System.freeDesc s = .ok t ∧ Freed idx s t := by
  induction idx generalizing s with
  | nil => exact ⟨s, rfl, .refl s, fun i => (Bool.or_false _).symm, fun _ _ => rfl⟩
  | cons i idx ih =>
    obtain ⟨hi, hfree⟩ := hidx i (mem_cons_self ..)
    obtain ⟨hnot, hnodup⟩ := nodup_cons.1 hnodup
    have hone := Freed.single s i
    have hrest : ∀ j ∈ idx, j < NUM ∧ (s.withDisk (s.disk.release i)).wakeupFree.disk.free j = false := by
      intro j hj
      obtain ⟨hlt, hjfree⟩ := hidx j (mem_cons_of_mem i hj)
      refine ⟨hlt, ?_⟩
      rw [hone.free, hjfree, decide_eq_false (fun hmem => hnot (by rwa [← mem_singleton.1 hmem])), Bool.or_false]
    obtain ⟨t, hrun, hfreed⟩ := ih hnodup hrest
    refine ⟨t, ?_, hone.trans hfreed⟩
    rw [foldlM_cons, freeDesc_eq hi hfree]
    exact hrun

theorem Chained.congr {d d' : Disk B} (h : Chained d idx) (hdesc : ∀ i ∈ idx, d'.desc i = d.desc i) : Chained d' idx := by
  induction idx with
  | nil => exact h
  | cons i idx ih =>
    have hi := hdesc i (mem_cons_self ..)
    cases idx with
    | nil =>
      unfold Chained at h ⊢
      rw [hi]
      exact h
    | cons j idx =>
      unfold Chained at h ⊢
      rw [hi]
      exact ⟨h.1, ih h.2 fun x hx => hdesc x (mem_cons_of_mem i hx)⟩

/-- The loop of `free_chain` follows the links. -/
theorem freeChainLoop_eq (hchained : Chained s.disk (i :: idx)) (hnodup : (i :: idx).Nodup)
    (hidx : ∀ x ∈ i :: idx, x < NUM ∧ s.disk.free x = false) {n : Nat} (hn : idx.length < n) :
    System.freeChainLoop n i s = (i :: idx).foldlM System.freeDesc s := by
  induction idx generalizing s i n with
  | nil =>
    obtain ⟨n, rfl⟩ := Nat.exists_eq_succ_of_ne_zero (Nat.ne_of_gt hn)
    have hlast : (s.disk.desc i).flags &&& VRING_DESC_F_NEXT = 0 := hchained
    obtain ⟨hi, hfree⟩ := hidx i (mem_cons_self ..)
    rw [System.freeChainLoop, foldlM_cons, freeDesc_eq hi hfree]
    exact if_neg (not_not.2 hlast)
  | cons j idx ih =>
    obtain ⟨n, rfl⟩ := Nat.exists_eq_succ_of_ne_zero (Nat.ne_of_gt (Nat.zero_lt_of_lt hn))
    obtain ⟨⟨hnext, hj⟩, htail⟩ := hchained
    obtain ⟨hi, hfree⟩ := hidx i (mem_cons_self ..)
    obtain ⟨hnot, hnodup⟩ := nodup_cons.1 hnodup
    have hone := Freed.single s i
    have hoff : ∀ x ∈ j :: idx, x ∉ [i] := fun x hx hmem => hnot (by rwa [← mem_singleton.1 hmem])
    have hrest : ∀ x ∈ j :: idx, x < NUM ∧ (s.withDisk (s.disk.release i)).wakeupFree.disk.free x = false := by
      intro x hx
      obtain ⟨hlt, hxfree⟩ := hidx x (mem_cons_of_mem i hx)
      refine ⟨hlt, ?_⟩
      rw [hone.free, hxfree, decide_eq_false (hoff x hx), Bool.or_false]
    have hgo := ih (htail.congr fun x hx => hone.desc x (hoff x hx)) hnodup hrest (Nat.lt_of_succ_lt_succ hn)
    rw [System.freeChainLoop, foldlM_cons, freeDesc_eq hi hfree]
    refine (if_pos hnext).trans ?_
    rw [hj]
    exact hgo

theorem freeChain_eq (hchained : Chained s.disk (i :: idx)) (hnodup : (i :: idx).Nodup)
    (hidx : ∀ x ∈ i :: idx, x < NUM ∧ s.disk.free x = false) (hlen : idx.length ≤ NUM) :
    ∃ t, s.freeChain i = .ok t ∧ Freed (i :: idx) s t := by
  obtain ⟨t, hrun, hfreed⟩ := foldlM_freeDesc hnodup hidx
  exact ⟨t, (freeChainLoop_eq hchained hnodup hidx (Nat.lt_succ_of_le hlen)).trans hrun, hfreed⟩

/-! ## Allocating -/

/-- The descriptors of a list have been taken. -/
def System.taking (s : System P B) (idx : List Nat) : System P B :=
  s.withDisk (s.disk.withFree fun i => s.disk.free i && decide (i ∉ idx))

theorem taking_nil (s : System P B) : s.taking [] = s := by
  have hfree : (fun i => s.disk.free i && decide (i ∉ ([] : List Nat))) = s.disk.free := by
    funext i
    rw [decide_eq_true not_mem_nil, Bool.and_true]
  unfold System.taking
  rw [hfree]
  rfl

/-- `alloc_desc` takes a descriptor that is free, or there is none. -/
theorem allocDesc_taking (s : System P B) (idx : List Nat) :
    (s.taking idx).allocDesc = none ∨
      ∃ i, i < NUM ∧ s.disk.free i = true ∧ i ∉ idx ∧ (s.taking idx).allocDesc = some (i, s.taking (idx ++ [i])) := by
  unfold System.allocDesc
  cases hfind : (range NUM).find? (s.taking idx).disk.free with
  | none => exact .inl rfl
  | some i =>
    have hi := mem_range.1 (mem_of_find?_eq_some hfind)
    have hfree := find?_some hfind
    change (s.disk.free i && decide (i ∉ idx)) = true at hfree
    rw [Bool.and_eq_true, decide_eq_true_iff] at hfree
    refine .inr ⟨i, hi, hfree.1, hfree.2, ?_⟩
    have hupdate : update (s.taking idx).disk.free i false = fun j => s.disk.free j && decide (j ∉ idx ++ [i]) := by
      funext j
      rw [update_apply]
      split_ifs with hj
      · subst hj
        rw [decide_eq_false (not_not.2 (mem_append_right idx (mem_singleton_self j))), Bool.and_false]
      · show (s.disk.free j && decide (j ∉ idx)) = _
        congr 1
        rw [decide_eq_decide, mem_append, mem_singleton, or_iff_left hj]
    dsimp only
    rw [hupdate]
    rfl

/-- What was taken is given back: the descriptors in use are as they were. -/
theorem Freed.agrees (h : Freed idx (s.taking idx) t) (hidx : ∀ i ∈ idx, s.disk.free i = true) : Agrees s t := by
  refine ⟨(show Rest s (s.taking idx) from ⟨rfl, rfl, rfl, rfl, rfl, rfl, rfl, rfl, rfl⟩).trans h.toRest, fun i => ?_, fun i hi => ?_⟩
  · rw [h.free]
    show (s.disk.free i && decide (i ∉ idx) || decide (i ∈ idx)) = _
    by_cases hmem : i ∈ idx
    · rw [decide_eq_true hmem, Bool.or_true, hidx i hmem]
    · rw [decide_eq_true hmem, decide_eq_false hmem, Bool.and_true, Bool.or_false]
  · refine h.desc i fun hmem => ?_
    rw [hidx i hmem] at hi
    cases hi

/-- `alloc3_desc` takes descriptors that are free, or gives back what it has taken. -/
theorem alloc3Loop_eq (n : Nat) (hnodup : idx.Nodup) (hidx : ∀ i ∈ idx, i < NUM ∧ s.disk.free i = true) :
    (∃ t, System.alloc3Loop n idx (s.taking idx) = .ok (none, t) ∧ Agrees s t) ∨
      ∃ idx', System.alloc3Loop n idx (s.taking idx) = .ok (some idx', s.taking idx') ∧ idx'.Nodup ∧
        (∀ i ∈ idx', i < NUM ∧ s.disk.free i = true) ∧ idx'.length = idx.length + n := by
  induction n generalizing idx with
  | zero => exact .inr ⟨idx, rfl, hnodup, hidx, rfl⟩
  | succ n ih =>
    rw [System.alloc3Loop]
    rcases allocDesc_taking s idx with hnone | ⟨i, hi, hfree, hnot, hsome⟩
    · have hbusy : ∀ i ∈ idx, i < NUM ∧ (s.taking idx).disk.free i = false := by
        intro i hmem
        refine ⟨(hidx i hmem).1, ?_⟩
        show (s.disk.free i && decide (i ∉ idx)) = false
        rw [decide_eq_false (not_not.2 hmem), Bool.and_false]
      obtain ⟨t, hrun, hfreed⟩ := foldlM_freeDesc hnodup hbusy
      rw [hnone]
      refine .inl ⟨t, ?_, hfreed.agrees fun i hmem => (hidx i hmem).2⟩
      dsimp only
      rw [hrun]
      rfl
    · have hnodup' : (idx ++ [i]).Nodup :=
        nodup_append.2 ⟨hnodup, nodup_singleton i, fun a ha b hb hab => hnot (by rwa [← mem_singleton.1 hb, ← hab])⟩
      have hidx' : ∀ j ∈ idx ++ [i], j < NUM ∧ s.disk.free j = true := by
        intro j hj
        rcases mem_append.1 hj with hj | hj
        · exact hidx j hj
        · rw [mem_singleton.1 hj]
          exact ⟨hi, hfree⟩
      rw [hsome]
      have hgo := ih hnodup' hidx'
      rw [length_append, length_singleton, Nat.add_assoc, Nat.add_comm 1 n] at hgo
      exact hgo

theorem alloc3Desc_eq (s : System P B) :
    (∃ t, s.alloc3Desc = .ok (none, t) ∧ Agrees s t) ∨
      ∃ i j k, s.alloc3Desc = .ok (some [i, j, k], s.taking [i, j, k]) ∧ [i, j, k].Nodup ∧
        ∀ x ∈ [i, j, k], x < NUM ∧ s.disk.free x = true := by
  have hloop := alloc3Loop_eq (s := s) 3 nodup_nil fun i hi => absurd hi not_mem_nil
  rw [taking_nil] at hloop
  rcases hloop with hnone | ⟨idx, hsome, hnodup, hidx, hlen⟩
  · exact .inl hnone
  · obtain ⟨i, j, k, rfl⟩ := length_eq_three.1 hlen
    exact .inr ⟨i, j, k, hsome, hnodup, hidx⟩

end Xv6.Virtio
