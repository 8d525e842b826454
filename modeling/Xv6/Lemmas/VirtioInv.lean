import Xv6.Lemmas.Virtio
import Xv6.Lib.Circular

/-!
# The invariant of the disk driver

Who owns which descriptors (`Owned`), which chains are on their way to the device, with it, or on their way back (`Flying`), and what
the two rings hold (`Inv`). Every step keeps the three.
-/

namespace Xv6.Virtio

open Lib Function List

variable {P B : Type} {s t : System P B} {d d' : Disk B} {c c' : Call B} {idx idx' : List Nat} {i : Nat} {l : List Nat} {F : List Nat}

/-! ## Requests -/

/-- The three descriptors of a request, its header, and the buffer recorded for it. -/
structure Formatted (d : Disk B) (c : Call B) (i j k : Nat) : Prop where
  head : d.desc i = ⟨.op i, 16, VRING_DESC_F_NEXT, BitVec.ofNat 16 j⟩
  mid : d.desc j =
    ⟨.data c.b, BitVec.ofNat 32 BSIZE, (if c.write then 0 else VRING_DESC_F_WRITE) ||| VRING_DESC_F_NEXT, BitVec.ofNat 16 k⟩
  last : d.desc k = ⟨.status i, 1, VRING_DESC_F_WRITE, 0⟩
  op : d.ops i = ⟨if c.write then VIRTIO_BLK_T_OUT else VIRTIO_BLK_T_IN, 0, c.sector⟩
  info : (d.info i).b = some c.b

/-- Three descriptors that are not free and are formatted for the call. -/
structure Request (d : Disk B) (c : Call B) (idx : List Nat) : Prop where
  shape : ∃ i j k, idx = [i, j, k] ∧ Formatted d c i j k
  nodup : idx.Nodup
  busy : ∀ i ∈ idx, i < NUM ∧ d.free i = false

theorem toNat_ofNat16 (hi : i < NUM) : (BitVec.ofNat 16 i).toNat = i := by
  unfold NUM at hi
  rw [BitVec.toNat_ofNat]
  omega

theorem toNat_ofNat32 (hi : i < NUM) : (BitVec.ofNat 32 i).toNat = i := by
  unfold NUM at hi
  rw [BitVec.toNat_ofNat]
  omega

theorem Request.cons (h : Request d c idx) : ∃ i l, idx = i :: l := by
  obtain ⟨i, j, k, hidx, -⟩ := h.shape
  exact ⟨i, [j, k], hidx⟩

/-- Descriptors in use are not free. -/
theorem Request.not_mem (h : Request d c idx) (hfree : ∀ x ∈ l, d.free x = true) : ∀ x ∈ idx, x ∉ l := by
  intro x hx hx'
  have := hfree x hx'
  rw [(h.busy x hx).2] at this
  cases this

theorem Request.chained (h : Request d c idx) : Chained d idx := by
  obtain ⟨i, j, k, rfl, hf⟩ := h.shape
  have hj := (h.busy j (by simp)).1
  have hk := (h.busy k (by simp)).1
  refine ⟨⟨?_, ?_⟩, ⟨?_, ?_⟩, ?_⟩
  · rw [hf.head]
    show VRING_DESC_F_NEXT &&& VRING_DESC_F_NEXT ≠ 0
    decide
  · rw [hf.head]
    exact toNat_ofNat16 hj
  · rw [hf.mid]
    cases c.write
    · show (VRING_DESC_F_WRITE ||| VRING_DESC_F_NEXT) &&& VRING_DESC_F_NEXT ≠ 0
      decide
    · show (0 ||| VRING_DESC_F_NEXT) &&& VRING_DESC_F_NEXT ≠ 0
      decide
  · rw [hf.mid]
    exact toNat_ofNat16 hk
  · show (d.desc k).flags &&& VRING_DESC_F_NEXT = 0
    rw [hf.last]
    show VRING_DESC_F_WRITE &&& VRING_DESC_F_NEXT = 0
    decide

/-- The buffer recorded for the chain. -/
theorem Request.info (h : Request d c (i :: l)) : (d.info i).b = some c.b := by
  obtain ⟨i', j, k, hidx, hf⟩ := h.shape
  obtain ⟨rfl, rfl⟩ := cons.inj hidx
  exact hf.info

/-- The device reads from the chain what the call asks for. -/
theorem Request.fetch (h : Request d c (i :: l)) : d.fetch i = some (c.op i) := by
  obtain ⟨i', j, k, hidx, hf⟩ := h.shape
  obtain ⟨rfl, rfl⟩ := cons.inj hidx
  have hj := (h.busy j (by simp)).1
  have hk := (h.busy k (by simp)).1
  unfold Disk.fetch Call.op
  simp only [hf.head, toNat_ofNat16 hj, hf.mid, toNat_ofNat16 hk, hf.last, hf.op]
  cases c.write
  · exact if_pos (by decide)
  · exact if_pos (by decide)

/-- What is written elsewhere does not change a request. -/
theorem Request.congr (h : Request d c (i :: l)) (hdesc : ∀ x ∈ i :: l, d'.desc x = d.desc x)
    (hfree : ∀ x ∈ i :: l, d'.free x = d.free x) (hops : d'.ops i = d.ops i) (hinfo : (d'.info i).b = (d.info i).b) :
    Request d' c (i :: l) := by
  obtain ⟨i', j, k, hidx, hf⟩ := h.shape
  obtain ⟨rfl, rfl⟩ := cons.inj hidx
  refine ⟨⟨i, j, k, rfl, ⟨?_, ?_, ?_, hops.trans hf.op, hinfo.trans hf.info⟩⟩, h.nodup, fun x hx => ?_⟩
  · exact (hdesc i (by simp)).trans hf.head
  · exact (hdesc j (by simp)).trans hf.mid
  · exact (hdesc k (by simp)).trans hf.last
  · rw [hfree x hx]
    exact h.busy x hx

/-! ## Ownership -/

/-- The call that a process is in. -/
def Pc.call? : Pc B → Option (Call B)
  | .idle => none
  | .alloc c => some c
  | .wait c _ => some c

/-- A process in a call holds the lock of its buffer; descriptors that are not free belong to one request each. -/
structure Owned (s : System P B) : Prop where
  lock : ∀ p c, (s.pc p).call? = some c → s.lock c.b = some p
  request : ∀ p c idx, s.pc p = .wait c idx → Request s.disk c idx
  apart : ∀ p q c c' idx idx' i, s.pc p = .wait c idx → s.pc q = .wait c' idx' → i ∈ idx → i ∈ idx' → p = q
  owner : ∀ i < NUM, s.disk.free i = false → ∃ p c idx, s.pc p = .wait c idx ∧ i ∈ idx

/-- A buffer is used by one process at a time. -/
theorem Owned.unique (h : Owned s) {p q : P} (hp : s.pc p = .wait c idx) (hq : s.pc q = .wait c' idx') (hb : c.b = c'.b) : p = q := by
  have hlock := h.lock p c (by rw [hp]; rfl)
  have hlock' := h.lock q c' (by rw [hq]; rfl)
  rw [hb, hlock'] at hlock
  exact (Option.some.inj hlock).symm

/-- A chain belongs to one call. -/
theorem Owned.same (h : Owned s) {p q : P} {l' : List Nat} (hq : s.pc q = .wait c' (i :: l')) (hp : s.pc p = .wait c (i :: l)) :
    q = p ∧ c' = c := by
  obtain rfl := h.apart q p c' c _ _ i hq hp mem_cons_self mem_cons_self
  exact ⟨rfl, (Pc.wait.inj (hq.symm.trans hp)).1⟩

/-- The chains on their way: each is that of a request whose `b->disk` is set, and each such request is among them. -/
structure Flying (s : System P B) (F : List Nat) : Prop where
  nodup : F.Nodup
  live : ∀ h ∈ F, ∃ p c l, s.pc p = .wait c (h :: l) ∧ s.bdisk c.b = true
  flies : ∀ p c h l, s.pc p = .wait c (h :: l) → s.bdisk c.b = true → h ∈ F

theorem Flying.perm {F F' : List Nat} (h : Flying s F) (hperm : F.Perm F') : Flying s F' :=
  ⟨hperm.nodup h.nodup, fun x hx => h.live x (hperm.mem_iff.2 hx), fun p c x l hp hb => hperm.mem_iff.1 (h.flies p c x l hp hb)⟩

theorem Flying.congr (h : Flying s F) (hpc : t.pc = s.pc) (hbdisk : t.bdisk = s.bdisk) : Flying t F := by
  refine ⟨h.nodup, ?_, ?_⟩
  · rw [hpc, hbdisk]
    exact h.live
  · rw [hpc, hbdisk]
    exact h.flies

theorem Flying.lt (h : Flying s F) (howned : Owned s) {x : Nat} (hx : x ∈ F) : x < NUM ∧ s.disk.free x = false := by
  obtain ⟨p, c, l, hp, -⟩ := h.live x hx
  exact (howned.request p c _ hp).busy x mem_cons_self

/-- There are as many places in a ring as descriptors. -/
theorem Flying.length_le (h : Flying s F) (howned : Owned s) : F.length ≤ NUM := by
  have hsub : F ⊆ range NUM := fun x hx => mem_range.2 (h.lt howned hx).1
  have hlen := (h.nodup.subperm hsub).length_le
  rwa [length_range] at hlen

/-- The invariant: ownership, what the rings hold (`A` published and not taken, `U` completed and not seen), and what `b->disk` says. -/
structure Inv (s : System P B) (A U : List Nat) : Prop extends Owned s, Flying s (A ++ (s.dev.taken.map Prod.fst ++ U)) where
  avail : Queue s.disk.avail.ring NUM s.dev.next s.disk.avail.idx (A.map (BitVec.ofNat 16))
  used : Queue s.disk.used.ring NUM s.disk.usedIdx s.disk.used.idx (U.map (BitVec.ofNat 32))
  pending : ∀ b, s.bdisk b = true → ∃ p c idx, s.pc p = .wait c idx ∧ c.b = b
  taken : ∀ x ∈ s.dev.taken, ∀ p c l, s.pc p = .wait c (x.1 :: l) → x.2 = c.op x.1
  status : ∀ h ∈ U, (s.disk.info h).status = 0

theorem num_dvd : NUM ∣ 2 ^ 16 := by decide

theorem num_lt : NUM < 2 ^ 16 := by decide

/-! ## Steps that change nothing of this -/

theorem Agrees.toOwned (h : Agrees s t) (howned : Owned s) : Owned t := by
  refine ⟨?_, fun p c idx hp => ?_, ?_, fun i hi hfree => ?_⟩
  · rw [h.pc, h.lock]
    exact howned.lock
  · rw [h.pc] at hp
    have hreq := howned.request p c idx hp
    obtain ⟨i, l, rfl⟩ := hreq.cons
    exact hreq.congr (fun x hx => h.desc x (hreq.busy x hx).2) (fun x _ => h.free x) (by rw [h.ops]) (by rw [h.info])
  · rw [h.pc]
    exact howned.apart
  · rw [h.free] at hfree
    rw [h.pc]
    exact howned.owner i hi hfree

theorem Agrees.inv {A U : List Nat} (h : Agrees s t) (hinv : Inv s A U) : Inv t A U := by
  refine ⟨h.toOwned hinv.toOwned, ?_, ?_, ?_, ?_, ?_, ?_⟩
  · rw [h.dev]
    exact hinv.toFlying.congr h.pc h.bdisk
  · rw [h.avail, h.dev]
    exact hinv.avail
  · rw [h.used, h.usedIdx]
    exact hinv.used
  · rw [h.bdisk, h.pc]
    exact hinv.pending
  · rw [h.dev, h.pc]
    exact hinv.taken
  · rw [h.info]
    exact hinv.status

section Steps

variable {A U : List Nat} {p q : P} {i j k : Nat} {x : Pc B}

/-! ## The device -/

/-- The device takes the first chain that is published, and reads the request from it. -/
theorem Inv.take (h : Inv s A U) (hne : s.dev.next ≠ s.disk.avail.idx) :
    ∃ x A' p c l, A = x :: A' ∧ s.pc p = .wait c (x :: l) ∧
      s.take = .ok (([], s.withDev ⟨s.dev.next + 1, s.dev.taken ++ [(x, c.op x)]⟩) : List (B × Act P) × System P B) ∧
      Inv (s.withDev ⟨s.dev.next + 1, s.dev.taken ++ [(x, c.op x)]⟩) A' U := by
  cases A with
  | nil => exact absurd ((h.avail.eq_iff num_lt).2 rfl) hne
  | cons x A =>
    obtain ⟨p, c, l, hp, hb⟩ := h.live x (mem_append_left _ mem_cons_self)
    have hreq := h.request p c _ hp
    obtain ⟨hhead, hrest⟩ := h.avail.pop num_dvd
    refine ⟨x, A, p, c, l, rfl, hp, ?_, ⟨h.lock, h.request, h.apart, h.owner⟩, ?_, hrest, h.used, h.pending, ?_,
      h.status⟩
    · unfold System.take
      rw [hhead, toNat_ofNat16 (hreq.busy x mem_cons_self).1]
      dsimp only
      rw [hreq.fetch]
    · refine Flying.perm (h.toFlying.congr rfl rfl) ?_
      show (x :: (A ++ (s.dev.taken.map Prod.fst ++ U))).Perm (A ++ ((s.dev.taken ++ [(x, c.op x)]).map Prod.fst ++ U))
      rw [map_append, append_assoc _ _ U, ← append_assoc A _ U, ← append_assoc A _ (_ ++ U)]
      exact perm_middle.symm
    · intro y hy q c' l' hq
      rcases mem_append.1 hy with hy | hy
      · exact h.taken y hy q c' l' hq
      · obtain rfl := mem_singleton.1 hy
        rw [(h.same hq hp).2]

/-- The device completes a request that it has taken. -/
theorem Inv.complete (h : Inv s A U) {k x : Nat} {op : Op B} (hk : s.dev.taken[k]? = some (x, op)) :
    ∃ p c l, s.pc p = .wait c (x :: l) ∧ op = c.op x ∧ x ∉ U ∧
      Inv ((s.withDisk (s.disk.complete x op.status)).withDev ⟨s.dev.next, s.dev.taken.eraseIdx k⟩) A (U ++ [x]) := by
  obtain ⟨hlt, hget⟩ := List.getElem?_eq_some_iff.1 hk
  have hmem : (x, op) ∈ s.dev.taken := List.mem_of_getElem? hk
  have hx : x ∈ s.dev.taken.map Prod.fst := mem_map_of_mem (f := Prod.fst) hmem
  obtain ⟨p, c, l, hp, hb⟩ := h.live x (mem_append_right A (mem_append_left U hx))
  obtain rfl : op = c.op x := h.taken _ hmem p c l hp
  have hperm : (A ++ (s.dev.taken.map Prod.fst ++ U)).Perm (A ++ ((s.dev.taken.eraseIdx k).map Prod.fst ++ (U ++ [x]))) := by
    have hone : (s.dev.taken.map Prod.fst).Perm ((s.dev.taken.eraseIdx k).map Prod.fst ++ [x]) := by
      have := (getElem_cons_eraseIdx_perm hlt).symm.map Prod.fst
      rw [hget] at this
      exact this.trans (perm_append_singleton x _).symm
    refine (List.Perm.append_right U hone).trans ?_ |>.append_left A
    rw [append_assoc]
    exact perm_append_comm.append_left _
  have hflying := h.toFlying.perm hperm
  have hroom : U.length < NUM := by
    have hle := hflying.length_le h.toOwned
    rw [length_append, length_append, length_append, length_singleton] at hle
    omega
  have hnot : x ∉ U := fun hmemU => by
    have hnodup := (nodup_append.1 (nodup_append.1 hflying.nodup).2.1).2.1
    exact (nodup_append.1 hnodup).2.2 x hmemU x (mem_singleton_self x) rfl
  refine ⟨p, c, l, hp, rfl, hnot, ⟨h.lock, fun q c' idx hq => ?_, h.apart, h.owner⟩, hflying.congr rfl rfl, h.avail, ?_,
    h.pending, fun y hy => h.taken y (mem_of_mem_eraseIdx hy), ?_⟩
  · have hreq := h.request q c' idx hq
    obtain ⟨i, l', rfl⟩ := hreq.cons
    refine hreq.congr (fun _ _ => rfl) (fun _ _ => rfl) rfl ?_
    show (update s.disk.info x ⟨(s.disk.info x).b, 0⟩ i).b = _
    rw [update_apply]
    split_ifs with hi
    · rw [hi]
    · rfl
  · show Queue _ NUM _ _ ((U ++ [x]).map (BitVec.ofNat 32))
    rw [map_append]
    exact h.used.push num_dvd (by rw [length_map]; exact hroom) (BitVec.ofNat 32 x)
  · intro y hy
    show (update s.disk.info x ⟨(s.disk.info x).b, 0⟩ y).status = 0
    rw [update_apply]
    split_ifs with hyx
    · rfl
    · rcases mem_append.1 hy with hy | hy
      · exact h.status y hy
      · exact absurd (mem_singleton.1 hy) hyx

/-! ## The interrupt handler -/

section

variable [DecidableEq B]

/-- A lock that no process in a call holds changes hands. -/
theorem Inv.withLock (h : Inv s A U) {b : B} {x : Option P} (hb : ∀ p c, (s.pc p).call? = some c → c.b ≠ b) : Inv (s.withLock b x) A U := by
  refine ⟨⟨fun q c hq => ?_, h.request, h.apart, h.owner⟩, h.toFlying.congr rfl rfl, h.avail, h.used, h.pending, h.taken, h.status⟩
  exact (update_of_ne (hb q c hq) ..).trans (h.lock q c hq)

/-- A flag that is set after another one has been cleared was set before. -/
theorem of_update_false {g : B → Bool} {b b' : B} (h : update g b false b' = true) : b' ≠ b ∧ g b' = true := by
  have hne : b' ≠ b := by
    rintro rfl
    rw [update_self] at h
    cases h
  rw [update_of_ne hne] at h
  exact ⟨hne, h⟩

/-- The handler finds the buffer of the first completed chain, and `b->disk` set. -/
theorem Inv.handle (h : Inv s A U) (hne : s.disk.usedIdx ≠ s.disk.used.idx) :
    ∃ x U' p c l, U = x :: U' ∧ s.pc p = .wait c (x :: l) ∧ s.bdisk c.b = true ∧
      s.handle = .ok (([(c.b, .clear)], ((s.withBdisk c.b false).wakeupBuf c.b).withDisk s.disk.advance) : List (B × Act P) × System P B) ∧
      Inv (((s.withBdisk c.b false).wakeupBuf c.b).withDisk s.disk.advance) A U' := by
  cases U with
  | nil => exact absurd ((h.used.eq_iff (by decide)).2 rfl) hne
  | cons x U =>
    have hmem : x ∈ A ++ (s.dev.taken.map Prod.fst ++ x :: U) :=
      mem_append_right _ (mem_append_right _ mem_cons_self)
    obtain ⟨p, c, l, hp, hb⟩ := h.live x hmem
    have hreq := h.request p c _ hp
    obtain ⟨hhead, hrest⟩ := h.used.pop num_dvd
    have hperm : (A ++ (s.dev.taken.map Prod.fst ++ x :: U)).Perm (x :: (A ++ (s.dev.taken.map Prod.fst ++ U))) := by
      rw [← append_assoc, ← append_assoc]
      exact perm_middle
    have hflying := h.toFlying.perm hperm
    obtain ⟨hnot, hnodup⟩ := nodup_cons.1 hflying.nodup
    refine ⟨x, U, p, c, l, rfl, hp, hb, ?_, ⟨h.lock, ?_, h.apart, h.owner⟩, ⟨hnodup, fun y hy => ?_, fun q c' y l' hq hb' => ?_⟩,
      h.avail, hrest, fun b hb' => h.pending b (of_update_false hb').2, h.taken,
      fun y hy => h.status y (mem_cons_of_mem x hy)⟩
    · unfold System.handle
      rw [if_pos hne, hhead, toNat_ofNat32 (hreq.busy x mem_cons_self).1]
      dsimp only
      rw [if_neg (not_not.2 (h.status x mem_cons_self)), hreq.info]
    · intro q c' idx hq
      have hreq' := h.request q c' idx hq
      obtain ⟨i, l', rfl⟩ := hreq'.cons
      exact hreq'.congr (fun _ _ => rfl) (fun _ _ => rfl) rfl rfl
    · -- Another chain is that of another process, whose buffer is another one.
      obtain ⟨q, c', l', hq, hb'⟩ := hflying.live y (mem_cons_of_mem x hy)
      refine ⟨q, c', l', hq, (update_of_ne (fun heq => hnot ?_) ..).trans hb'⟩
      have hqp := h.unique hq hp heq
      subst hqp
      obtain ⟨-, hl⟩ := Pc.wait.inj (hq.symm.trans hp)
      rw [← (cons.inj hl).1]
      exact hy
    · obtain ⟨hne', hb'⟩ := of_update_false hb'
      refine (mem_cons.1 (hflying.flies q c' y l' hq hb')).resolve_left fun heq => hne' ?_
      exact congrArg Call.b (h.same (heq ▸ hq) hp).2

end

/-! ## Processes -/

variable [DecidableEq P]

/-- A process that does not get to the second loop is not the one that waits there. -/
theorem wait_of_update (hx : ∀ c idx, x ≠ .wait c idx) (h : update s.pc p x q = .wait c idx) :
    q ≠ p ∧ s.pc q = .wait c idx := by
  rw [update_apply] at h
  split_ifs at h with hq
  · exact absurd h (hx c idx)
  · exact ⟨hq, h⟩

/-- A process goes to another place, and neither is in the second loop. -/
theorem Inv.withPc (h : Inv s A U) (hp : ∀ c idx, s.pc p ≠ .wait c idx) (hx : ∀ c idx, x ≠ .wait c idx)
    (hlock : ∀ c, x.call? = some c → s.lock c.b = some p) : Inv (s.withPc p x) A U := by
  have hkeep : ∀ {q c idx}, s.pc q = .wait c idx → (s.withPc p x).pc q = .wait c idx := by
    intro q c idx hq
    have hne : q ≠ p := fun heq => hp c idx (by rw [← heq]; exact hq)
    exact (update_of_ne hne ..).trans hq
  have hback : ∀ {q c idx}, (s.withPc p x).pc q = .wait c idx → s.pc q = .wait c idx := fun hq => (wait_of_update hx hq).2
  refine ⟨⟨fun q c hq => ?_, fun q c idx hq => h.request q c idx (hback hq), ?_, fun i hi hfree => ?_⟩,
    ⟨h.nodup, fun x hx => ?_, fun q c x l hq => h.flies q c x l (hback hq)⟩, h.avail, h.used, fun b hb => ?_,
    fun x hx q c l hq => h.taken x hx q c l (hback hq), h.status⟩
  · by_cases hqp : q = p
    · subst hqp
      have hq : (update s.pc q x q).call? = some c := hq
      rw [update_self] at hq
      exact hlock c hq
    · have hq : (update s.pc p x q).call? = some c := hq
      rw [update_of_ne hqp] at hq
      exact h.lock q c hq
  · intro q q' c c' idx idx' i hq hq'
    exact h.apart q q' c c' idx idx' i (hback hq) (hback hq')
  · obtain ⟨q, c, idx, hq, hmem⟩ := h.owner i hi hfree
    exact ⟨q, c, idx, hkeep hq, hmem⟩
  · obtain ⟨q, c, l, hq, hb⟩ := h.live x hx
    exact ⟨q, c, l, hkeep hq, hb⟩
  · obtain ⟨q, c, idx, hq, hb⟩ := h.pending b hb
    exact ⟨q, c, idx, hkeep hq, hb⟩

theorem wait_of_idle (h : update s.pc p .idle q = .wait c idx) : q ≠ p ∧ s.pc q = .wait c idx :=
  wait_of_update (fun _ _ heq => by cases heq) h

/-- A process gives up its descriptors: what the others own is not touched. -/
theorem Owned.leave (h : Owned s) (hp : s.pc p = .wait c (i :: l))
    (hfreed : Freed (i :: l) (s.withDisk (s.disk.withInfoB i none)) t) : Owned (t.withPc p .idle) := by
  have hpc : (t.withPc p .idle).pc = update s.pc p .idle := by
    show update t.pc p .idle = _
    rw [hfreed.pc]
    rfl
  have hdisj : ∀ {q c' idx'}, s.pc q = .wait c' idx' → q ≠ p → ∀ x ∈ idx', x ∉ i :: l := by
    intro q c' idx' hq hne x hx hx'
    exact hne (h.apart q p c' c idx' _ x hq hp hx hx')
  refine ⟨fun q c' hq => ?_, fun q c' idx' hq => ?_, fun q q' c' c'' idx' idx'' x hq hq' => ?_, fun x hx hfree => ?_⟩
  · rw [hpc] at hq
    rw [update_apply] at hq
    split_ifs at hq
    · cases hq
    · exact (congrFun hfreed.lock c'.b).trans (h.lock q c' hq)
  · rw [hpc] at hq
    obtain ⟨hne, hq⟩ := wait_of_idle hq
    have hreq := h.request q c' idx' hq
    obtain ⟨j, l', rfl⟩ := hreq.cons
    have hoff := hdisj hq hne
    have hji : j ≠ i := fun heq => hoff j mem_cons_self (by rw [heq]; exact mem_cons_self)
    refine hreq.congr (fun x hx => hfreed.desc x (hoff x hx)) (fun x hx => ?_) (congrFun hfreed.ops j) ?_
    · refine (hfreed.free x).trans ?_
      rw [decide_eq_false (hoff x hx), Bool.or_false]
      rfl
    · refine (congrArg Info.b (congrFun hfreed.info j)).trans ?_
      exact congrArg Info.b (update_of_ne hji ..)
  · rw [hpc] at hq hq'
    exact h.apart q q' c' c'' idx' idx'' x (wait_of_idle hq).2 (wait_of_idle hq').2
  · have hfree := (hfreed.free x).symm.trans hfree
    rw [Bool.or_eq_false_iff, decide_eq_false_iff_not] at hfree
    obtain ⟨q, c', idx', hq, hmem⟩ := h.owner x hx hfree.1
    have hne : q ≠ p := fun heq => hfree.2 (by
      subst heq
      rw [← (Pc.wait.inj (hq.symm.trans hp)).2]
      exact hmem)
    exact ⟨q, c', idx', (congrFun hpc q).trans ((update_of_ne hne ..).trans hq), hmem⟩

/-- A process whose `b->disk` has been cleared frees its chain and returns. -/
theorem Inv.finish (h : Inv s A U) (hp : s.pc p = .wait c idx) (hb : s.bdisk c.b = false) :
    ∃ t, s.finish p c idx = .ok ([(c.b, .ret p)], t.withPc p .idle) ∧ Rest (s.withDisk (s.disk.withInfoB (idx.getD 0 0) none)) t ∧
      Inv (t.withPc p .idle) A U := by
  have hreq := h.request p c idx hp
  obtain ⟨i, l, rfl⟩ := hreq.cons
  have hlen : l.length ≤ NUM := by
    obtain ⟨i', j, k, hidx, -⟩ := hreq.shape
    rw [(cons.inj hidx).2]
    exact (by decide : 2 ≤ NUM)
  have hchained : Chained (s.disk.withInfoB i none) (i :: l) := hreq.chained.congr fun _ _ => rfl
  obtain ⟨t, hrun, hfreed⟩ := freeChain_eq (s := s.withDisk (s.disk.withInfoB i none)) hchained hreq.nodup hreq.busy hlen
  have hrest := hfreed.toRest
  have hpc : (t.withPc p .idle).pc = update s.pc p .idle := by
    show update t.pc p .idle = _
    rw [hrest.pc]
    rfl
  -- A process whose buffer is still with the device is another one.
  have hkeep : ∀ {q c' idx'}, s.pc q = .wait c' idx' → s.bdisk c'.b = true → (t.withPc p .idle).pc q = .wait c' idx' := by
    intro q c' idx' hq hb'
    have hne : q ≠ p := fun heq => by
      subst heq
      rw [(Pc.wait.inj (hq.symm.trans hp)).1, hb] at hb'
      cases hb'
    rw [hpc, update_of_ne hne]
    exact hq
  have hdev : (t.withPc p .idle).dev = s.dev := hrest.dev
  have hbdisk : (t.withPc p .idle).bdisk = s.bdisk := hrest.bdisk
  refine ⟨t, ?_, hrest, h.toOwned.leave hp hfreed, ?_, ?_, ?_, fun b hb' => ?_, fun x hx q c' l' hq => ?_, fun x hx => ?_⟩
  · unfold System.finish
    rw [if_neg (by rw [hb]; exact Bool.false_ne_true)]
    show ((s.withDisk (s.disk.withInfoB i none)).freeChain i >>= fun t => _) = _
    rw [hrun]
    rfl
  · rw [hdev]
    refine ⟨h.nodup, fun x hx => ?_, fun q c' x l' hq hb' => ?_⟩
    · obtain ⟨q, c', l', hq, hb'⟩ := h.live x hx
      exact ⟨q, c', l', hkeep hq hb', (congrFun hbdisk c'.b).trans hb'⟩
    · rw [hpc] at hq
      rw [hbdisk] at hb'
      exact h.flies q c' x l' (wait_of_idle hq).2 hb'
  · rw [hdev]
    show Queue t.disk.avail.ring NUM s.dev.next t.disk.avail.idx _
    rw [hrest.avail]
    exact h.avail
  · show Queue t.disk.used.ring NUM t.disk.usedIdx t.disk.used.idx _
    rw [hrest.used, hrest.usedIdx]
    exact h.used
  · rw [hbdisk] at hb'
    obtain ⟨q, c', idx', hq, rfl⟩ := h.pending b hb'
    exact ⟨q, c', idx', hkeep hq hb', rfl⟩
  · rw [hdev] at hx
    rw [hpc] at hq
    exact h.taken x hx q c' l' (wait_of_idle hq).2
  · refine (congrArg Info.status (congrFun hrest.info x)).trans ((?_ : _ = (s.disk.info x).status).trans (h.status x hx))
    show (update s.disk.info i ⟨none, (s.disk.info i).status⟩ x).status = _
    rw [update_apply]
    split_ifs with hxi
    · rw [hxi]
    · rfl

variable [DecidableEq B]

/-- The state in which a process has submitted a request with three descriptors. -/
def System.submitted (s : System P B) (p : P) (c : Call B) (i j k : Nat) : System P B :=
  ((((s.taking [i, j, k]).withDisk (((s.taking [i, j, k]).disk.format c i j k).publish i)).withBdisk c.b true).withPc p
    (.wait c [i, j, k])).withAsleep p true

/-- Three free descriptors are formatted for the call. -/
theorem Request.submitted (s : System P B) (p : P) (c : Call B) (hnodup : [i, j, k].Nodup) (hlt : ∀ x ∈ [i, j, k], x < NUM) :
    Request (s.submitted p c i j k).disk c [i, j, k] := by
  obtain ⟨hij, hik, hjk⟩ : i ≠ j ∧ i ≠ k ∧ j ≠ k := by simpa [and_assoc] using hnodup
  refine ⟨⟨i, j, k, rfl, ?_, ?_, ?_, ?_, ?_⟩, hnodup, fun x hx => ⟨hlt x hx, ?_⟩⟩
  · exact (update_of_ne hik ..).trans ((update_of_ne hij ..).trans (update_self ..))
  · exact (update_of_ne hjk ..).trans (update_self ..)
  · exact update_self ..
  · exact update_self ..
  · show (update s.disk.info i ⟨some c.b, 0xff⟩ i).b = some c.b
    rw [update_self]
  · show (s.disk.free x && decide (x ∉ [i, j, k])) = false
    rw [decide_eq_false (not_not.2 hx), Bool.and_false]

/-- Descriptors in use are not touched by a new request. -/
theorem Request.kept (h : Request s.disk c' idx) (hfree : ∀ x ∈ [i, j, k], s.disk.free x = true) :
    Request (s.submitted p c i j k).disk c' idx := by
  have hoff := h.not_mem hfree
  obtain ⟨y, l, rfl⟩ := h.cons
  have hyi : y ≠ i := fun heq => hoff y mem_cons_self (by rw [heq]; exact mem_cons_self)
  refine h.congr (fun x hx => ?_) (fun x hx => ?_) (update_of_ne hyi ..) (congrArg Info.b (update_of_ne hyi ..))
  · obtain ⟨hxi, hxj, hxk⟩ : x ≠ i ∧ x ≠ j ∧ x ≠ k := by simpa using hoff x hx
    exact (update_of_ne hxk ..).trans ((update_of_ne hxj ..).trans (update_of_ne hxi ..))
  · show (s.disk.free x && decide (x ∉ [i, j, k])) = s.disk.free x
    rw [decide_eq_true (hoff x hx), Bool.and_true]

/-- Who waits after a submission: the process that submits, and those that did before. -/
theorem submitted_wait (h : (s.submitted p c i j k).pc q = .wait c' idx) :
    q = p ∧ c' = c ∧ idx = [i, j, k] ∨ q ≠ p ∧ s.pc q = .wait c' idx := by
  have h : update s.pc p (.wait c [i, j, k]) q = .wait c' idx := h
  rw [update_apply] at h
  split_ifs at h with hq
  · obtain ⟨rfl, rfl⟩ := Pc.wait.inj h
    exact .inl ⟨hq, rfl, rfl⟩
  · exact .inr ⟨hq, h⟩

theorem submitted_self (s : System P B) (p : P) (c : Call B) (i j k : Nat) : (s.submitted p c i j k).pc p = .wait c [i, j, k] :=
  update_self ..

theorem submitted_other (hp : ∀ c idx, s.pc p ≠ .wait c idx) (hq : s.pc q = .wait c' idx) :
    q ≠ p ∧ (s.submitted p c i j k).pc q = .wait c' idx := by
  have hne : q ≠ p := fun heq => hp c' idx (by rw [← heq]; exact hq)
  exact ⟨hne, (update_of_ne hne ..).trans hq⟩

/-- The descriptors of a new request belong to the process that submits it. -/
theorem Owned.submitted (h : Owned s) (hp : ∀ c idx, s.pc p ≠ .wait c idx) (hlock : s.lock c.b = some p)
    (hnodup : [i, j, k].Nodup) (hidx : ∀ x ∈ [i, j, k], x < NUM ∧ s.disk.free x = true) : Owned (s.submitted p c i j k) := by
  have hfree : ∀ x ∈ [i, j, k], s.disk.free x = true := fun x hx => (hidx x hx).2
  have hbusy : ∀ {q c' idx' x}, s.pc q = .wait c' idx' → x ∈ idx' → x ∉ [i, j, k] := fun hq => (h.request _ _ _ hq).not_mem hfree _
  refine ⟨fun q c' hq => ?_, fun q c' idx hq => ?_, fun q q' c' c'' idx idx' x hq hq' hx hx' => ?_, fun x hx hxfree => ?_⟩
  · have hq : (update s.pc p (.wait c [i, j, k]) q).call? = some c' := hq
    rw [update_apply] at hq
    split_ifs at hq with hqp
    · obtain rfl : c = c' := Option.some.inj hq
      rw [hqp]
      exact hlock
    · exact h.lock q c' hq
  · rcases submitted_wait hq with ⟨rfl, rfl, rfl⟩ | ⟨-, hq⟩
    · exact .submitted s q c' hnodup fun x hx => (hidx x hx).1
    · exact (h.request q c' idx hq).kept hfree
  · rcases submitted_wait hq with ⟨rfl, rfl, rfl⟩ | ⟨-, hold⟩
    · rcases submitted_wait hq' with ⟨rfl, -, -⟩ | ⟨-, hold'⟩
      · rfl
      · exact absurd hx (hbusy hold' hx')
    · rcases submitted_wait hq' with ⟨rfl, rfl, rfl⟩ | ⟨-, hold'⟩
      · exact absurd hx' (hbusy hold hx)
      · exact h.apart q q' c' c'' idx idx' x hold hold' hx hx'
  · have hxfree : (s.disk.free x && decide (x ∉ [i, j, k])) = false := hxfree
    by_cases hmem : x ∈ [i, j, k]
    · exact ⟨p, c, _, submitted_self s p c i j k, hmem⟩
    · rw [decide_eq_true hmem, Bool.and_true] at hxfree
      obtain ⟨q, c', idx, hq, hx'⟩ := h.owner x hx hxfree
      exact ⟨q, c', idx, (submitted_other hp hq).2, hx'⟩

/-- The new chain is on its way, with the others. -/
theorem Flying.submitted (h : Flying s F) (howned : Owned s) (hp : ∀ c idx, s.pc p ≠ .wait c idx)
    (hlock : s.lock c.b = some p) (hnot : i ∉ F) : Flying (s.submitted p c i j k) (i :: F) := by
  refine ⟨nodup_cons.2 ⟨hnot, h.nodup⟩, fun x hx => ?_, fun q c' x l hq hb => ?_⟩
  · rcases mem_cons.1 hx with rfl | hx
    · exact ⟨p, c, [j, k], submitted_self s p c x j k, update_self ..⟩
    · obtain ⟨q, c', l, hq, hb⟩ := h.live x hx
      refine ⟨q, c', l, (submitted_other hp hq).2, ?_⟩
      show update s.bdisk c.b true c'.b = true
      rw [update_apply]
      split_ifs
      · rfl
      · exact hb
  · rcases submitted_wait hq with ⟨rfl, rfl, hl⟩ | ⟨hne, hq⟩
    · rw [(cons.inj hl).1]
      exact mem_cons_self
    · -- The buffer is another one, because this process has the lock of the new one.
      have hb' : c'.b ≠ c.b := fun heq => hne (by
        have hlock' := howned.lock q c' (by rw [hq]; rfl)
        rw [heq, hlock] at hlock'
        exact (Option.some.inj hlock').symm)
      exact mem_cons_of_mem i (h.flies q c' x l hq ((update_of_ne hb' ..).symm.trans hb))

/-- A process submits a request: its chain is published behind those already there. -/
theorem Inv.submitted (h : Inv s A U) (hp : ∀ c idx, s.pc p ≠ .wait c idx) (hlock : s.lock c.b = some p)
    (hnodup : [i, j, k].Nodup) (hidx : ∀ x ∈ [i, j, k], x < NUM ∧ s.disk.free x = true) :
    A.length < NUM ∧ i ∉ A ++ (s.dev.taken.map Prod.fst ++ U) ∧ Inv (s.submitted p c i j k) (A ++ [i]) U := by
  have hnot : i ∉ A ++ (s.dev.taken.map Prod.fst ++ U) := by
    intro hmem
    have hbusy := (h.toFlying.lt h.toOwned hmem).2
    rw [(hidx i mem_cons_self).2] at hbusy
    cases hbusy
  have howned := h.toOwned.submitted hp hlock hnodup hidx
  have hflying : Flying (s.submitted p c i j k) (A ++ ([i] ++ (s.dev.taken.map Prod.fst ++ U))) :=
    (h.toFlying.submitted h.toOwned hp hlock hnot).perm perm_middle.symm
  have hroom : A.length < NUM := by
    have hle := hflying.length_le howned
    rw [length_append, length_append, length_singleton] at hle
    omega
  refine ⟨hroom, hnot, howned, ?_, ?_, h.used, fun b hb => ?_, fun x hx q c' l hq => ?_, fun x hx => ?_⟩
  · rw [append_assoc]
    exact hflying
  · rw [map_append]
    exact h.avail.push num_dvd (by rw [length_map]; exact hroom) (BitVec.ofNat 16 i)
  · by_cases heq : b = c.b
    · exact ⟨p, c, _, submitted_self s p c i j k, heq.symm⟩
    · obtain ⟨q, c', idx, hq, hb'⟩ := h.pending b ((update_of_ne heq ..).symm.trans hb)
      exact ⟨q, c', idx, (submitted_other hp hq).2, hb'⟩
  · rcases submitted_wait hq with ⟨rfl, rfl, hl⟩ | ⟨-, hq⟩
    · refine absurd (mem_append_right A (mem_append_left U ?_)) hnot
      rw [← (cons.inj hl).1]
      exact mem_map_of_mem hx
    · exact h.taken x hx q c' l hq
  · have hxi : x ≠ i := fun heq => hnot (mem_append_right A (mem_append_right _ (by rw [← heq]; exact hx)))
    exact (congrArg Info.status (update_of_ne hxi ..)).trans (h.status x hx)

end Steps

end Xv6.Virtio
