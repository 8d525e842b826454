import Xv6.Log

/-!
# What each disk write of the log leaves behind

Triples for `bread`, `bwrite`, the loops of `write_log` and `install_trans`, and `write_head`. Between the two writes of the
header the disk is `Committed`: the header names the logged blocks, the log holds their new contents, and every home block that
is not logged is untouched. `Committed` says nothing of the logged home blocks, which is why an interrupted installation can
be started again.
-/

namespace Xv6

open Lib Function List

namespace LogAux

/-! ### The header block -/

variable (bs : List Uint) (d : Block)

/-- The word `n` is not one of the words the loop of `write_head` stores. -/
theorem word_putBlocks_of_lt : ∀ (i j : Nat) (d : Block), j ≤ i → (putBlocks i bs d).word j = d.word j := by
  induction bs with
  | nil => intro i j d _; rfl
  | cons b bs ih =>
    intro i j d hj
    rw [putBlocks, ih (i + 1) j _ (by omega), Block.word_setWord_of_ne d (i + 1) j b (by omega)]

/-- The words the loop of `write_head` stores are read back. -/
theorem word_putBlocks : ∀ (i k : Nat) (d : Block) (hk : k < bs.length), 4 * (i + bs.length) + 3 < BSIZE →
    (putBlocks i bs d).word (i + k + 1) = bs[k] := by
  induction bs with
  | nil => intro i k d hk; exact absurd hk (by simp)
  | cons b bs ih =>
    intro i k d hk hlen
    rw [length_cons] at hlen
    cases k with
    | zero =>
      rw [putBlocks, word_putBlocks_of_lt bs (i + 1) (i + 0 + 1) _ (by omega)]
      exact Block.word_setWord_self d (i + 1) b (by omega)
    | succ k =>
      rw [putBlocks, show i + (k + 1) + 1 = i + 1 + k + 1 by omega,
        ih (i + 1) k _ (by simpa using hk) (by omega)]
      rfl

/-- The number of blocks of a header that was stored. -/
theorem headN_putHead (h : bs.length ≤ LOGBLOCKS) : headN (putHead bs d) = bs.length := by
  have hle : bs.length ≤ 30 := h
  unfold headN putHead
  rw [word_putBlocks_of_lt bs 0 0 _ (Nat.le_refl 0), Block.word_setWord_self d 0 _ (by decide),
    BitVec.toInt_eq_toNat_of_lt (by rw [BitVec.toNat_ofNat]; omega), BitVec.toNat_ofNat]
  omega

/-- A header that was stored is read back. -/
theorem headBlocks_putHead (h : bs.length ≤ LOGBLOCKS) : headBlocks (putHead bs d) = bs := by
  have hle : bs.length ≤ 30 := h
  unfold headBlocks
  rw [headN_putHead bs d h, Int.toNat_natCast]
  apply ext_getElem
  · simp
  · intro k h1 h2
    rw [getElem_map, getElem_range]
    have := word_putBlocks bs 0 k (d.setWord 0 (BitVec.ofNat 32 bs.length)) h2 (by unfold BSIZE; omega)
    rw [Nat.zero_add] at this
    exact this

/-- A header with no blocks names none. -/
theorem headBlocks_of_headN_zero {d : Block} (h : headN d = 0) : headBlocks d = [] := by
  rw [headBlocks, h]
  rfl

/-! ### The places of the log -/

variable (start : Uint) (b : Uint) (k : Nat) (m : LogMem) {P C Q : Disk → Prop} {τ : Type}

/-- The header's block is in the log. -/
theorem inLog_start : InLog start start := ⟨0, by decide, by simp⟩

/-- The copies are in the log. -/
theorem inLog_logSlot (hk : k < LOGBLOCKS) : InLog start (logSlot start k) := by
  refine ⟨k + 1, hk, ?_⟩
  have : k < 30 := hk
  unfold logSlot
  bv_omega

/-- A copy is not the header's block. -/
theorem logSlot_ne_start (hk : k < LOGBLOCKS) : logSlot start k ≠ start := by
  have : k < 30 := hk
  unfold logSlot
  bv_omega

/-- Different places of the log hold different copies. -/
theorem logSlot_inj {j k : Nat} (hj : j < LOGBLOCKS) (hk : k < LOGBLOCKS)
    (h : logSlot start j = logSlot start k) : j = k := by
  have h1 : j < 30 := hj
  have h2 : k < 30 := hk
  unfold logSlot at h
  bv_omega

/-! ### Buffers -/

/-- `bread` changes no block; what follows it is given the data that is cached, or else on the disk, and a memory where that data
is cached. -/
theorem bread_bind {R : τ → Disk → Prop}
    (f : Buf × LogMem → DiskProg τ)
    (hf : ∀ d, Triple (fun D => P D ∧ (m.cache b).getD (D b) = d)
      (f (⟨b, d⟩, { m with cache := update m.cache b (some d) })) R C) :
    Triple P (bread b m >>= f) R C := by
  unfold bread
  cases hb : m.cache b with
  | some d =>
    have hself : update m.cache b (some d) = m.cache := by rw [← hb, update_eq_self]
    have := hf d
    rw [hself] at this
    exact this.conseq (fun D hD => ⟨hD, by rw [hb]; rfl⟩) (fun _ _ h => h) (fun _ h => h)
  | none =>
    exact Triple.read (fun d => (hf d).conseq (fun D hD => ⟨hD.1, by rw [hb]; exact hD.2⟩) (fun _ _ h => h) (fun _ h => h))

/-- The same where the data is known in advance. -/
theorem bread_known {R : τ → Disk → Prop}
    (f : Buf × LogMem → DiskProg τ) (d : Block) (hd : ∀ D, P D → (m.cache b).getD (D b) = d)
    (hf : Triple P (f (⟨b, d⟩, { m with cache := update m.cache b (some d) })) R C) :
    Triple P (bread b m >>= f) R C := by
  refine bread_bind b m f (fun d' => ?_)
  intro D ⟨hD, hd'⟩
  have he : d = d' := (hd D hD).symm.trans hd'
  subst he
  exact hf D hD

/-- `bwrite` changes one block. -/
theorem bwrite_triple (buf : Buf) (m : LogMem) (hC : ∀ D, P D → C D)
    (hw : ∀ D, P D → Q (update D buf.blockno buf.data)) (hC' : ∀ D, Q D → C D) :
    Triple P (bwrite buf m)
      (fun m' D => Q D ∧ m' = { m with cache := update m.cache buf.blockno (some buf.data) }) C :=
  Triple.write hC hw (Triple.ret (fun _ hD => ⟨hD, rfl⟩) hC')

/-- `write_head` stores the in-memory header into the header's block, over whatever that block held. -/
theorem writeHead_triple (hC : ∀ D, P D → C D)
    (hw : ∀ D d, P D → Q (update D start (putHead m.lh d))) (hC' : ∀ D, Q D → C D) :
    Triple P (writeHead start m)
      (fun m' D => Q D ∧ m'.lh = m.lh ∧ ∀ b, b ≠ start → m'.cache b = m.cache b) C := by
  refine bread_bind start m _ (fun d => ?_)
  refine (bwrite_triple (Q := Q) ⟨start, putHead m.lh d⟩ _ (fun D hD => hC D hD.1) (fun D hD => hw D d hD.1) hC').conseq
    (fun _ h => h) ?_ (fun _ h => h)
  rintro m' D ⟨hQ, rfl⟩
  refine ⟨hQ, rfl, fun b hb => ?_⟩
  simp only [update_of_ne hb]

/-! ### The three states of a transaction on disk -/

section Transaction

variable (start : Uint) (bs : List Uint) (new : Uint → Block) (D₀ : Disk)

/-- The first `k` copies in the log are the new contents of the blocks logged there. -/
def Slots (k : Nat) (D : Disk) : Prop := ∀ (i : Nat) (h : i < bs.length), i < k → D (logSlot start i) = new bs[i]

/-- The log is clear and the home blocks are those of `H`. -/
def Clean (H D : Disk) : Prop := headN (D start) = 0 ∧ HomeEq start D H

/-- The header names the logged blocks, the log holds their new contents, the home blocks that are not logged are unchanged. -/
def Committed (D : Disk) : Prop :=
  headBlocks (D start) = bs ∧ Slots start bs new bs.length D ∧ ∀ b, ¬InLog start b → b ∉ bs → D b = D₀ b

/-- The logged blocks fit in the log and lie outside it. -/
structure Loggable : Prop where
  len : bs.length ≤ LOGBLOCKS
  out : ∀ b ∈ bs, ¬InLog start b

variable {start bs new D₀} {D : Disk}

section

variable (h : Loggable start bs)

include h

theorem Loggable.ne_logSlot {b : Uint} (hb : b ∈ bs) {k : Nat} (hk : k < bs.length) :
    b ≠ logSlot start k := by
  rintro rfl
  exact h.out _ hb (inLog_logSlot start k (Nat.lt_of_lt_of_le hk h.len))

theorem Loggable.ne_start {b : Uint} (hb : b ∈ bs) : b ≠ start := by
  rintro rfl
  exact h.out _ hb (inLog_start _)

/-- Writing the copy at place `k` to the log keeps the disk before the commit point and adds that copy. -/
theorem clean_write {k : Nat} (hk : k < bs.length)
    (hB : Clean start D₀ D) (hS : Slots start bs new k D) :
    Clean start D₀ (update D (logSlot start k) (new bs[k])) ∧
      Slots start bs new (k + 1) (update D (logSlot start k) (new bs[k])) := by
  have hkL := Nat.lt_of_lt_of_le hk h.len
  refine ⟨⟨?_, ?_⟩, ?_⟩
  · rw [update_of_ne (logSlot_ne_start start k hkL).symm]
    exact hB.1
  · intro b hb
    rw [update_of_ne]
    · exact hB.2 b hb
    · rintro rfl
      exact hb (inLog_logSlot start k hkL)
  · intro i hi hik
    by_cases he : i = k
    · subst he
      rw [update_self]
    · rw [update_of_ne]
      · exact hS i hi (by omega)
      · intro hEq
        exact he (logSlot_inj start (Nat.lt_of_lt_of_le hi h.len) hkL hEq)

/-- Copying a logged block home keeps the disk committed. -/
theorem committed_install {b : Uint} (hb : b ∈ bs) (v : Block)
    (hD : Committed start bs new D₀ D) : Committed start bs new D₀ (update D b v) := by
  obtain ⟨h1, h2, h3⟩ := hD
  refine ⟨?_, ?_, ?_⟩
  · rw [update_of_ne (h.ne_start hb).symm]
    exact h1
  · intro i hi hik
    rw [update_of_ne (h.ne_logSlot hb hi).symm]
    exact h2 i hi hik
  · intro b' hb' hnot
    rw [update_of_ne]
    · exact h3 b' hb' hnot
    · rintro rfl
      exact hnot hb

end

/-- A loop over the logged blocks is at place `k`. -/
theorem drop_eq_cons {k : Nat} {b : Uint} {rs : List Uint} (h : bs.drop k = b :: rs) :
    ∃ hk : k < bs.length, bs[k] = b ∧ bs.drop (k + 1) = rs := by
  have hk : k < bs.length := by
    by_contra hge
    rw [drop_of_length_le (by omega)] at h
    nomatch h
  have hcons := drop_eq_getElem_cons hk
  rw [h] at hcons
  obtain ⟨hb, hrs⟩ := cons.inj hcons
  exact ⟨hk, hb.symm, hrs.symm⟩

/-- The new contents of the logged blocks are in the cache: `log_write` pinned their buffers. -/
def CacheNew (bs : List Uint) (new : Uint → Block) (m : LogMem) : Prop := ∀ b ∈ bs, m.cache b = some (new b)

/-- The first `k` copies of the log, where they are cached, are cached with the new contents. -/
def SlotCache (start : Uint) (bs : List Uint) (new : Uint → Block) (k : Nat) (m : LogMem) : Prop :=
  ∀ (i : Nat) (h : i < bs.length), i < k →
    m.cache (logSlot start i) = none ∨ m.cache (logSlot start i) = some (new bs[i])

/-- The loop of `write_log`: every disk on the way is one from before the commit point; at the end the log holds every copy, and
the cache still holds the new contents. -/
theorem writeLogFrom_triple (new : Uint → Block) (D₀ : Disk) (h : Loggable start bs) : ∀ (rs : List Uint) (k : Nat) (m : LogMem), bs.drop k = rs →
    CacheNew bs new m → SlotCache start bs new k m →
    Triple (fun D => Clean start D₀ D ∧ Slots start bs new k D) (writeLogFrom start k rs m)
      (fun m' D => (Clean start D₀ D ∧ Slots start bs new bs.length D) ∧ m'.lh = m.lh ∧ CacheNew bs new m' ∧
        SlotCache start bs new bs.length m')
      (Clean start D₀) := by
  intro rs
  induction rs with
  | nil =>
    intro k m hdrop hnew hslot
    have hk : bs.length ≤ k := drop_eq_nil_iff.1 hdrop
    refine Triple.ret (fun D hD => ⟨⟨hD.1, fun i hi _ => hD.2 i hi (by omega)⟩, rfl, hnew, ?_⟩) (fun D hD => hD.1)
    exact fun i hi _ => hslot i hi (by omega)
  | cons b rs ih =>
    intro k m hdrop hnew hslot
    obtain ⟨hk, rfl, hrs⟩ := drop_eq_cons hdrop
    have hmem : bs[k] ∈ bs := getElem_mem hk
    have hne := h.ne_logSlot hmem hk
    refine bread_bind (logSlot start k) m _ (fun d => ?_)
    -- the buffer of the home block is cached, so what is written is its new contents
    refine bread_known bs[k] _ _ (new bs[k]) (fun D _ => ?_) ?_
    · simp only [update_of_ne hne, hnew _ hmem, Option.getD_some]
    refine Triple.bind (bwrite_triple (Q := fun D => Clean start D₀ D ∧ Slots start bs new (k + 1) D)
      ⟨logSlot start k, new bs[k]⟩ _ (fun D hD => hD.1.1) (fun D hD => clean_write h hk hD.1.1 hD.1.2) (fun D hD => hD.1)) ?_
    intro m' D ⟨hD, hm'⟩
    subst hm'
    refine ih (k + 1) _ hrs ?_ ?_ D hD
    · intro b hb
      simp only [update_of_ne (h.ne_logSlot hb hk)]
      rw [update_apply]
      split_ifs with he
      · rw [he]
      · rw [update_of_ne (h.ne_logSlot hb hk)]
        exact hnew b hb
    · intro i hi hik
      by_cases he : i = k
      · subst he
        exact Or.inr (by simp only [update_self])
      · have hne' : logSlot start i ≠ logSlot start k := fun hEq =>
          he (logSlot_inj start (Nat.lt_of_lt_of_le hi h.len) (Nat.lt_of_lt_of_le hk h.len) hEq)
        simp only [update_of_ne hne', update_of_ne (h.ne_logSlot hmem hi).symm]
        exact hslot i hi (by omega)

/-- The loop of `install_trans`: every disk on the way is committed; at the end every logged block is home. -/
theorem installFrom_triple (new : Uint → Block) (D₀ : Disk) (h : Loggable start bs) : ∀ (rs : List Uint) (k : Nat) (m : LogMem), bs.drop k = rs →
    SlotCache start bs new bs.length m →
    Triple (fun D => Committed start bs new D₀ D ∧ ∀ b ∈ bs.take k, D b = new b) (installFrom start k rs m)
      (fun _ D => Committed start bs new D₀ D ∧ ∀ b ∈ bs, D b = new b)
      (Committed start bs new D₀) := by
  intro rs
  induction rs with
  | nil =>
    intro k m hdrop _
    have hk : bs.length ≤ k := drop_eq_nil_iff.1 hdrop
    refine Triple.ret (fun D hD => ⟨hD.1, fun b hb => hD.2 b ?_⟩) (fun D hD => hD.1)
    rw [take_of_length_le hk]
    exact hb
  | cons b rs ih =>
    intro k m hdrop hslot
    obtain ⟨hk, rfl, hrs⟩ := drop_eq_cons hdrop
    have hmem : bs[k] ∈ bs := getElem_mem hk
    -- the copy is read from the log, or from the cache, which agrees with it
    refine bread_known (logSlot start k) m _ (new bs[k]) (fun D hD => ?_) ?_
    · rcases hslot k hk hk with hc | hc
      · rw [hc, Option.getD_none]
        exact hD.1.2.1 k hk hk
      · rw [hc, Option.getD_some]
    refine bread_bind bs[k] _ _ (fun d => ?_)
    refine Triple.bind (bwrite_triple
      (Q := fun D => Committed start bs new D₀ D ∧ ∀ b ∈ bs.take (k + 1), D b = new b)
      ⟨bs[k], new bs[k]⟩ _ (fun D hD => hD.1.1) (fun D hD => ?_) (fun D hD => hD.1)) ?_
    · refine ⟨committed_install h hmem _ hD.1.1, fun b hb => ?_⟩
      rw [update_apply]
      split_ifs with he
      · rw [he]
      · rw [take_succ_eq_append_getElem hk, mem_append, mem_singleton] at hb
        exact hD.1.2 b (hb.resolve_right he)
    · intro m' D ⟨hD, hm'⟩
      subst hm'
      refine ih (k + 1) _ hrs ?_ D hD
      intro i hi _
      have hne := (h.ne_logSlot hmem hi).symm
      simp only [update_of_ne hne]
      by_cases he : logSlot start i = logSlot start k
      · have hik := logSlot_inj start (Nat.lt_of_lt_of_le hi h.len) (Nat.lt_of_lt_of_le hk h.len) he
        subst hik
        exact Or.inr (by rw [update_self])
      · rw [update_of_ne he]
        exact hslot i hi hi

/-- The first write of the header commits. -/
theorem committed_writeHead (h : Loggable start bs) (hD : Clean start D₀ D ∧ Slots start bs new bs.length D)
    (d : Block) : Committed start bs new D₀ (update D start (putHead bs d)) := by
  refine ⟨?_, ?_, ?_⟩
  · rw [update_self, headBlocks_putHead bs d h.len]
  · intro i hi hik
    rw [update_of_ne (logSlot_ne_start start i (Nat.lt_of_lt_of_le hi h.len))]
    exact hD.2 i hi hik
  · intro b hb _
    rw [update_of_ne (fun he => hb (by rw [he]; exact inLog_start start))]
    exact hD.1.2 b hb

/-- The second write of the header clears the log, once every logged block is home. -/
theorem clean_writeHead_committed (hD : Committed start bs new D₀ D ∧ ∀ b ∈ bs, D b = new b) (d : Block) :
    Clean start (applyNew bs new D₀) (update D start (putHead [] d)) := by
  refine ⟨?_, fun b hb => ?_⟩
  · rw [update_self, headN_putHead [] d (Nat.zero_le _)]
    rfl
  · rw [update_of_ne (fun he => hb (by rw [he]; exact inLog_start start)), applyNew]
    split
    · exact hD.2 b ‹_›
    · exact hD.1.2.2 b hb ‹_›

/-- Writing an empty header leaves a clear log clear. -/
theorem clean_writeHead {H : Disk} (hD : Clean start H D) (d : Block) :
    Clean start H (update D start (putHead [] d)) := by
  refine ⟨?_, fun b hb => ?_⟩
  · rw [update_self, headN_putHead [] d (Nat.zero_le _)]
    rfl
  · rw [update_of_ne (fun he => hb (by rw [he]; exact inLog_start start))]
    exact hD.2 b hb

/-- Installing the logged blocks and clearing the log, from a committed disk: the second half of `commit`, and of recovery. -/
theorem install_clear_triple (h : Loggable start bs) (m : LogMem) (hlh : m.lh = bs)
    (hslot : SlotCache start bs new bs.length m) :
    Triple (Committed start bs new D₀) (installTrans start m >>= fun m' => writeHead start { m' with lh := [] })
      (fun _ => Clean start (applyNew bs new D₀))
      (fun D => Committed start bs new D₀ D ∨ Clean start (applyNew bs new D₀) D) := by
  have hinst := installFrom_triple new D₀ h bs 0 m (by simp) hslot
  unfold installTrans
  rw [hlh]
  refine Triple.bind (hinst.conseq (fun D hD => ⟨hD, by simp⟩) (fun _ _ hQ => hQ) (fun _ hC => Or.inl hC)) (fun m' => ?_)
  exact (writeHead_triple start { m' with lh := [] } (fun D hD => Or.inl hD.1)
    (fun D d hD => clean_writeHead_committed hD d) (fun D hD => Or.inr hD)).conseq (fun _ hD => hD) (fun _ _ hQ => hQ.1)
    (fun _ hC => hC)

/-- Recovery at boot: the header's block is read, its blocks are installed, the log is cleared. -/
theorem initlog_eq (start : Uint) :
    initlog start = (bread start LogMem.boot >>= fun r =>
      installTrans start { r.2 with lh := headBlocks r.1.data } >>= fun m => writeHead start { m with lh := [] }) := by
  unfold initlog recoverFromLog readHead
  rw [Prog.bind_assoc]
  rfl

/-- Recovery from a committed disk installs the transaction; where it is interrupted the disk is committed still, or done. -/
theorem initlog_committed (h : Loggable start bs) :
    Triple (Committed start bs new D₀) (initlog start) (fun _ => Clean start (applyNew bs new D₀))
      (fun D => Committed start bs new D₀ D ∨ Clean start (applyNew bs new D₀) D) := by
  have key : ∀ d, headBlocks d = bs →
      Triple (Committed start bs new D₀)
        (installTrans start { LogMem.boot with cache := update LogMem.boot.cache start (some d), lh := headBlocks d } >>=
          fun m' => writeHead start { m' with lh := [] })
        (fun _ => Clean start (applyNew bs new D₀))
        (fun D => Committed start bs new D₀ D ∨ Clean start (applyNew bs new D₀) D) := by
    intro d hd
    refine install_clear_triple h _ hd (fun i hi _ => Or.inl ?_)
    exact update_of_ne (logSlot_ne_start start i (Nat.lt_of_lt_of_le hi h.len)) _ _
  rw [initlog_eq]
  refine bread_bind start LogMem.boot _ (fun d => ?_)
  intro D ⟨hD, hd⟩
  exact key d (by rw [← hd]; exact hD.1) D hD

/-- Recovery from a clear log changes no home block. -/
theorem initlog_clean (H : Disk) :
    Triple (Clean start H) (initlog start) (fun _ => Clean start H) (Clean start H) := by
  rw [initlog_eq]
  refine bread_bind start LogMem.boot _ (fun d => ?_)
  intro D ⟨hD, hd⟩
  have hnil : headBlocks d = [] := headBlocks_of_headN_zero (by rw [← hd]; exact hD.1)
  have key : Triple (Clean start H)
      (installFrom start 0 (headBlocks d)
          { LogMem.boot with cache := update LogMem.boot.cache start (some d), lh := headBlocks d } >>=
        fun m' => writeHead start { m' with lh := [] })
      (fun _ => Clean start H) (Clean start H) := by
    rw [hnil]
    exact (writeHead_triple start _ (fun D hD => hD) (fun D d hD => clean_writeHead hD d) (fun D hD => hD)).conseq
      (fun _ hD => hD) (fun _ _ hQ => hQ.1) (fun _ hC => hC)
  exact key D hD

end Transaction

end LogAux

end Xv6
