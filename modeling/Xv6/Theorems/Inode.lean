import Xv6.Lemmas.InodeExact
import Xv6.Lib.Run
import Xv6.VmProc

/-!
# Blocks are owned, files are lists of bytes

Two results about any sequence of calls on inodes of a consistent image: every block in use belongs to exactly one pointer of one
inode, and the contents of inodes behave as lists of bytes. So the list of bytes that `kexec` is given for its file is the inode's. To the
table, `iget`, `ilock` and `iput` do what their models in `Xv6.Fs` do, which know nothing of blocks.
-/

namespace Xv6.Ino

open Lib

open Fs (IType)

namespace InoAux

variable {s t : State} {call : Call}

theorem run_of_step (h : s.step call = some t) : ∃ r, call.run s = .ok (r, t) := by
  unfold State.step at h
  split at h
  · next r u heq =>
    cases h
    exact ⟨r, heq⟩
  · cases h

theorem run_of_panic {e : Panic} (h : s.panic call = some e) : call.run s = .error e := by
  unfold State.panic at h
  split at h
  · cases h
  · next e' heq =>
    cases h
    exact heq

theorem inv_step (h : Inv s) (hstep : s.step call = some t) : Inv t := by
  obtain ⟨r, hrun⟩ := run_of_step hstep
  exact (run_wp call h).ok hrun

theorem inv_run {calls : List Call} (h : s.Consistent) (hrun : Run (StepOf State.step) s calls t) : Inv t :=
  hrun.invariant (I := Inv) (fun _ _ _ hinv hstep => inv_step hinv hstep) (Consistent.inv h)

/-- What is freed gives back its blocks. -/
theorem clear_of_free {i k : Nat} (h : Inv s) (hstep : s.step call = some t) (hk : s.ptr (i, k) ≠ 0)
    (hcall : call = .itrunc i ∨ call = .iput i ∧ (t.dinode i).type = .free) : t.bitmap (s.ptr (i, k)) = false := by
  obtain ⟨r, hrun⟩ := run_of_step hstep
  rcases hcall with rfl | ⟨rfl, hfree⟩
  · have hwp : Wp Safe (Call.itrunc i).run s fun _ t => ∀ k, s.ptr (i, k) ≠ 0 → t.bitmap (s.ptr (i, k)) = false := by
      refine (ilock_safe_wp i h).bind fun _ u hu => ?_
      refine (wp_safe (itrunc_wp hu.inv hu.self.2)).bind fun _ v hv k hk => ?_
      rw [← hu.ptr_eq] at hk ⊢
      exact hv.clear hu.inv hk
    exact hwp.ok hrun k hk
  · have hwp : Wp Safe (Call.iput i).run s fun _ t => Given i s t := (wp_safe (iput_wp i h)).bind fun _ u hu => hu
    refine (hwp.ok hrun).blocks (fun hf => hk (Dinode.ptr_free hf)) hfree k hk

end InoAux

open InoAux

/-- Blocks are owned: after any calls on a consistent image, however they end, a data block is marked if and only if exactly one pointer
of one inode refers to it, and pointers refer to data blocks only. No call can free a block that is free, no block belongs to two
pointers, and an inode that is truncated or freed gives back all its blocks. -/
theorem blocks_owned {s t : State} {calls : List Call} (h : s.Consistent) (hrun : Run (StepOf State.step) s calls t) :
    t.Owned ∧ (∀ call, t.panic call ≠ some .freeingFreeBlock) ∧ (∀ q q', t.ptr q ≠ 0 → t.ptr q' = t.ptr q → q' = q) ∧
      ∀ call i u, t.step call = some u → (call = .itrunc i ∨ call = .iput i ∧ (u.dinode i).type = .free) →
        ∀ k, t.ptr (i, k) ≠ 0 → u.bitmap (t.ptr (i, k)) = false := by
  have hinv := inv_run h hrun
  refine ⟨hinv.consistent.owned, fun call hpanic => ?_, ?_, fun call i u hstep hcall k hk => clear_of_free hinv hstep hk hcall⟩
  · exact (run_wp call hinv).error (run_of_panic hpanic) rfl
  · rw [← hinv.eptr_eq]
    exact hinv.core.owns.inj

/-- An image with a root directory and nothing else. -/
def rootOnly : State where
  sb := ⟨40, 34, 10, 2, 5⟩
  bitmap b := decide (b ≤ 6)
  disk b j := if b = 6 then if j.val < 16 then direntBytes 1 ['.'] j.val else if j.val < 32 then direntBytes 1 ['.', '.'] (j.val - 16) else 0 else 0
  logged _ := false
  writes := []
  dinode i := if i = 1 then ⟨.dir, 0, 0, 1, 32, fun k => if k = 0 then 6 else 0⟩ else ⟨.free, 0, 0, 0, 0, fun _ => 0⟩
  ref _ := 0
  valid _ := false
  inode _ := ⟨.free, 0, 0, 0, 0, fun _ => 0⟩

/-- A disk on which inode 1 alone has blocks, at the places that `f` says. -/
theorem consistent_of_one {s : State} (f : Nat → Nat) (hptr : ∀ i k, s.ptr (i, k) = if i = 1 then f k else 0) (hpos : 0 < s.sb.nmeta)
    (huint : s.sb.size ≤ 2 ^ 32) (hf : ∀ k, f k ≠ 0 → s.sb.nmeta ≤ f k ∧ f k < s.sb.size ∧ ∀ k', f k' = f k → k' = k)
    (hbit : ∀ b, s.bitmap b = true ↔ b < s.sb.nmeta ∨ ∃ k, f k ≠ 0 ∧ f k = b) (hfree : ∀ i, i ≠ 1 → (s.dinode i).type = .free)
    (hholes : (s.dinode 1).NoHoles s.disk) (hvalid : ∀ i, s.valid i = false) : s.Consistent := by
  refine ⟨⟨fun b hlo _ => ?_, fun b hb q heq => ?_, fun q hq => ?_⟩, hpos, huint, fun b hb => (hbit b).2 (.inl hb), fun i hi => ?_, fun i hv => ?_⟩
  · rw [hbit]
    constructor
    · rintro (hlt | ⟨k, hne, rfl⟩)
      · exact absurd hlt (by omega)
      · refine ⟨(1, k), hptr 1 k, ?_⟩
        rintro ⟨i, k'⟩ heq
        rw [hptr] at heq
        split at heq
        · next hi => rw [hi, (hf k hne).2.2 k' heq]
        · exact absurd heq.symm hne
    · rintro ⟨⟨i, k⟩, heq, -⟩
      rw [hptr] at heq
      split at heq
      · exact .inr ⟨k, by omega, heq⟩
      · omega
  · obtain ⟨i, k⟩ := q
    rw [hptr] at heq
    rw [← Bool.not_eq_true, hbit, not_or] at hb
    split at heq
    · exact hb.2 ⟨k, by omega, heq⟩
    · omega
  · obtain ⟨i, k⟩ := q
    rw [hptr] at hq ⊢
    split at hq
    · next hi =>
      rw [if_pos hi]
      exact ⟨(hf k hq).1, (hf k hq).2.1⟩
    · exact absurd rfl hq
  · obtain rfl : i = 1 := not_not.1 fun hne => hi (hfree i hne)
    exact hholes
  · rw [hvalid i] at hv
    cases hv

theorem rootOnly_consistent : rootOnly.Consistent := by
  refine consistent_of_one (fun k => if k = 0 then 6 else 0) (fun i k => ?_) (by decide) (by decide) (fun k hk => ?_) (fun b => ?_)
    (fun i hi => ?_) (fun bn hbn => ?_) fun _ => rfl
  · by_cases hi : i = 1
    · subst hi
      by_cases hlast : NDIRECT ≤ k
      · rw [if_pos rfl, if_neg (by rintro rfl; exact absurd hlast (by decide))]
        exact Dinode.ptr_none rfl hlast
      · exact Dinode.ptr_direct (show (rootOnly.dinode 1).type ≠ .free by decide) (by omega)
    · rw [if_neg hi]
      exact Dinode.ptr_free (congrArg Dinode.type (if_neg hi))
  · obtain rfl : k = 0 := not_not.1 fun hne => hk (if_neg hne)
    refine ⟨by decide, by decide, fun k' hk' => not_not.1 fun hne => ?_⟩
    rw [if_neg hne] at hk'
    cases hk'
  · show decide (b ≤ 6) = true ↔ b < 6 ∨ _
    rw [decide_eq_true_iff, show b ≤ 6 ↔ b < 6 ∨ b = 6 by omega]
    refine or_congr_right ⟨fun hb => ⟨0, by decide, hb.symm⟩, ?_⟩
    rintro ⟨k, hk, rfl⟩
    exact if_pos (not_not.1 fun hne => hk (if_neg hne))
  · exact congrArg Dinode.type (if_neg hi)
  · have hbn : bn * BSIZE < 32 := hbn
    have hbn0 : bn = 0 := by
      simp only [BSIZE] at hbn
      omega
    subst hbn0
    exact ⟨by decide, by decide⟩

/-- A file is made, written, written again with a copy that fails, its name taken away, and let go of. -/
def makeWriteFree : List Call :=
  [.iget 1, .create 1 ['f'] .file 0 0, .writei 2 ⟨fun k => BitVec.ofNat 8 k, fun _ => none⟩ 0 5,
    .writei 2 ⟨fun k => BitVec.ofNat 8 k, fun _ => some 2⟩ 5 3, .itrunc 2, .writei 2 ⟨fun _ => 7, fun _ => none⟩ 0 1, .nlink 2 0, .iput 2]

theorem blocks_owned_makeWriteFree : ∃ t, Run (StepOf State.step) rootOnly makeWriteFree t ∧ t.Owned := by
  obtain ⟨t, hrun, -⟩ := Run.exists_of_foldlM State.step makeWriteFree rootOnly (by decide +kernel)
  exact ⟨t, hrun, (blocks_owned rootOnly_consistent hrun).1⟩

namespace InoAux

variable {op : FileOp}

/-- An access returns what it should. -/
theorem run_op {s : State} (h : Inv s) (hr : s.Ready op) :
    ∃ t, op.call.run s = .ok ((op.spec (s.bytes op.inum)).1, t) ∧ t.bytes = op.apply s.bytes := by
  have hwp := op_wp op h hr
  cases hcase : op.call.run s with
  | error e => exact (hwp.error hcase).elim
  | ok r =>
    obtain ⟨-, hreply, hbytes⟩ := hwp.ok hcase
    exact ⟨r.2, by rw [← hreply], hbytes⟩

end InoAux

instance (s : State) (op : FileOp) : Decidable (s.Ready op) :=
  decidable_of_iff ((s.dinode op.inum).type ≠ .free ∧ 0 < s.ref op.inum ∧ op.blocks s ≤ s.nfree)
    ⟨fun h => ⟨h.1, h.2.1, h.2.2⟩, fun h => ⟨h.used, h.ref, h.room⟩⟩

/-- The root directory is open. -/
def rootOpen : State := rootOnly.withRef 1 1

theorem rootOpen_consistent : rootOpen.Consistent :=
  (Inv.of_table (t := rootOpen) (Consistent.inv rootOnly_consistent) rfl rfl rfl rfl fun _ hv => absurd hv Bool.false_ne_true).consistent

/-- What `writei` reports is what it has changed, unless a copy tears a block: for every source, offset and length and whatever is free,
`writei` on an inode in use returns -1 or a number up to `n`; the bytes it reports are written, all other bytes of all files are as they
were and the buffers it changed have been passed to `log_write` if and only if no copy fails after it has changed bytes of a block that
was there. Later calls of `readi` show the bytes that are then in the file. -/
theorem writei_exact_iff {s : State} {i : Nat} (src : Source) (off n : Uint) (h : s.Consistent) (hr : 0 < s.ref i)
    (hu : (s.dinode i).type ≠ .free) : ∃ r t, (Call.writei i src off n).run s = .ok (⟨r, []⟩, t) ∧ (r = -1 ∨ 0 ≤ r ∧ r ≤ n.toNat) ∧
      (s.WritesExactly i src off r t ↔ ¬ s.Tears i src off n) ∧
      ∀ op, t.Ready op → ∃ u, op.call.run t = .ok ((op.spec (t.bytes op.inum)).1, u) := by
  have hwp := writei_call_wp src off n (Consistent.inv h) hr hu
  cases hcase : (Call.writei i src off n).run s with
  | error e => exact (hwp.error hcase).elim
  | ok p =>
    obtain ⟨⟨r, data⟩, t⟩ := p
    obtain ⟨hinv, hdata, hrange, hexact⟩ := hwp.ok hcase
    obtain rfl : data = [] := hdata
    refine ⟨r, t, rfl, hrange, hexact, fun op hready => ?_⟩
    obtain ⟨u, hrun, -⟩ := run_op hinv hready
    exact ⟨u, hrun⟩

/-- A user buffer of which only the first two bytes can be read. -/
def cutShort : Source := ⟨fun _ => 9, fun _ => some 2⟩

theorem writei_exact_iff_extend : rootOpen.Consistent ∧ ∃ t, (Call.writei 1 ⟨fun _ => 9, fun _ => none⟩ 30 5).run rootOpen = .ok (⟨5, []⟩, t) ∧
    rootOpen.WritesExactly 1 ⟨fun _ => 9, fun _ => none⟩ 30 5 t := by
  obtain ⟨r, t, hrun, -, hexact, -⟩ := writei_exact_iff (s := rootOpen) (i := 1) ⟨fun _ => 9, fun _ => none⟩ 30 5 rootOpen_consistent
    (by decide) (by decide)
  have hfive : ((Call.writei 1 ⟨fun _ => 9, fun _ => none⟩ 30 5).run rootOpen).toOption.map (fun p => p.1.result) = some 5 := rfl
  rw [hrun] at hfive
  obtain rfl : r = 5 := Option.some.inj hfive
  refine ⟨rootOpen_consistent, t, hrun, hexact.2 ?_⟩
  rintro ⟨-, -, d, k, j, htorn⟩
  cases htorn.fails

/-- A copy that stops after two bytes: `writei` reports that nothing was written, but the first entry of the directory has changed, in
a buffer that has not been passed to `log_write`. -/
theorem writei_tears : ∃ t, (Call.writei 1 cutShort 0 16).run rootOpen = .ok (⟨0, []⟩, t) ∧ (rootOpen.bytes 1).take 3 = [1, 0, 46] ∧
    (t.bytes 1).take 3 = [9, 9, 46] ∧ t.logged 6 = false ∧ ¬ rootOpen.WritesExactly 1 cutShort 0 0 t := by
  have hrun : (((Call.writei 1 cutShort 0 16).run rootOpen).toOption.any fun p =>
      decide (p.1 = ⟨0, []⟩ ∧ (p.2.bytes 1).take 3 = [9, 9, 46] ∧ p.2.logged 6 = false)) = true := rfl
  have hold : (rootOpen.bytes 1).take 3 = [1, 0, 46] := rfl
  cases hcase : (Call.writei 1 cutShort 0 16).run rootOpen with
  | error e =>
    rw [hcase] at hrun
    cases hrun
  | ok p =>
    obtain ⟨r, t⟩ := p
    rw [hcase] at hrun
    obtain ⟨rfl, hnew, hlog⟩ := of_decide_eq_true hrun
    refine ⟨t, rfl, hold, hnew, hlog, fun hexact => ?_⟩
    -- nothing was reported, so nothing may have changed
    have hbytes := congrFun (hexact.wrote le_rfl) 1
    rw [Function.update_self] at hbytes
    simp only [show (0 : Uint).toNat = 0 from rfl, Int.toNat_zero, List.take_zero, List.range_zero, List.map_nil, Nat.add_zero, List.drop_zero,
      List.nil_append] at hbytes
    rw [hbytes, hold] at hnew
    exact absurd hnew (by decide)

theorem FileOp.spec_read (i : Nat) (off n : Uint) (f : List Byte) : ((FileOp.read i off n).spec f).1 =
    ⟨(Vm.readi f off.toNat n.toNat).length, Vm.readi f off.toNat n.toNat⟩ := by
  have hwrap := InoAux.wrap_iff off n
  rw [BitVec.toNat_add] at hwrap
  unfold FileOp.spec Vm.readi
  simp only [hwrap]
  split <;> rfl

/-- In every state that calls lead to, `readi` of an inode in use copies out what `Vm.readi` takes from its bytes, and changes no file. -/
theorem readi_eq_vm {s t : State} {calls : List Call} (h : s.Consistent) (hrun : Run (StepOf State.step) s calls t) {i : Nat}
    (hr : 0 < t.ref i) (hu : (t.dinode i).type ≠ .free) (off n : Uint) : ∃ u, (Call.readi i (fun _ => false) off n).run t =
      .ok (⟨(Vm.readi (t.bytes i) off.toNat n.toNat).length, Vm.readi (t.bytes i) off.toNat n.toNat⟩, u) ∧ u.bytes = t.bytes := by
  have hready : t.Ready (.read i off n) := ⟨hu, hr, Nat.zero_le _⟩
  obtain ⟨u, hcall, hbytes⟩ := run_op (inv_run h hrun) hready
  exact ⟨u, hcall.trans (by rw [FileOp.spec_read]; rfl), hbytes.trans (apply_read ..)⟩

/-! ## The inode table of `Xv6.Fs` -/

section

open InoAux Function

/-- The table and the disk of `Xv6.Fs` show the same references, the same entries that have been read, and the same inodes in use. -/
structure Agrees (a : Fs.State) (s : State) : Prop where
  ninodes : a.ninodes = s.sb.ninodes
  ref : a.ref = s.ref
  valid : ∀ i, 0 < s.ref i → a.valid i = s.valid i
  type : ∀ i, (a.inode i).type = (s.dinode i).type
  nlink : ∀ i, (s.dinode i).type ≠ .free → (a.inode i).nlink = (s.dinode i).nlink

/-- A function panics in both models, or its results are the same and its states agree. -/
def Same {α : Type} : Except Fs.Panic (α × Fs.State) → Except Panic (α × State) → Prop
  | .ok r, .ok r' => r.1 = r'.1 ∧ Agrees r.2 r'.2
  | .error _, .error _ => True
  | _, _ => False

namespace Agrees

variable {a : Fs.State} {s : State} (h : Agrees a s) (i : Nat)
include h

/-- An entry that is still referred to was referred to before. -/
theorem valid_of_update {n j : Nat} (hn : 0 < n → 0 < s.ref i) (hj : 0 < update s.ref i n j) : a.valid j = s.valid j := by
  refine h.valid j ?_
  rw [update_apply] at hj
  split_ifs at hj with hji
  · rw [hji]
    exact hn hj
  · exact hj

theorem iget : Same (Fs.iget i a) (iget i s) := by
  have hactive : a.active = s.active := by rw [Fs.State.active, State.active, h.ninodes, h.ref]
  unfold Fs.iget Ino.iget
  rw [h.ref, hactive]
  split_ifs with hr
  · exact ⟨rfl, h.ninodes, rfl, fun j => h.valid_of_update i fun _ => hr, h.type, h.nlink⟩
  · trivial
  · refine ⟨rfl, h.ninodes, rfl, fun j hj => ?_, h.type, h.nlink⟩
    show update a.valid i false j = update s.valid i false j
    rw [update_apply, update_apply]
    split_ifs with hji
    · rfl
    · have hpos : 0 < update s.ref i 1 j := hj
      rw [update_of_ne hji] at hpos
      exact h.valid j hpos

theorem ilock : Same (Fs.ilock i a) (ilock i s) := by
  unfold Fs.ilock Ino.ilock
  rw [h.type, congrFun h.ref i]
  by_cases hr : s.ref i < 1
  · rw [if_pos hr, if_pos hr]
    trivial
  · rw [if_neg hr, if_neg hr, h.valid i (by omega)]
    split_ifs
    · exact ⟨rfl, h⟩
    · trivial
    · refine ⟨rfl, h.ninodes, h.ref, fun j hj => ?_, h.type, h.nlink⟩
      show update a.valid i true j = update s.valid i true j
      rw [update_apply, update_apply, h.valid j hj]

/-- The copy of the inode says what the disk does, so both models see the last reference to an inode without links. -/
theorem iput (hinv : Inv s) : Same (Fs.iput i a) (iput i s) := by
  have hiff : a.ref i = 1 ∧ a.valid i = true ∧ (a.inode i).nlink = 0 ↔ s.ref i = 1 ∧ s.valid i = true ∧ (s.inode i).nlink = 0 := by
    rw [h.ref]
    refine and_congr_right fun hr => ?_
    rw [h.valid i (by omega)]
    refine and_congr_right fun hv => ?_
    rw [h.nlink i (hinv.consistent.synced i hv).2, hinv.synced i hv]
  unfold Fs.iput
  by_cases hlast : s.ref i = 1 ∧ s.valid i = true ∧ (s.inode i).nlink = 0
  · obtain ⟨_, t, hput, hfreed, href⟩ := (iput_last_wp hinv hlast).returns
    rw [if_pos (hiff.2 hlast), hput, h.ref]
    refine ⟨rfl, h.ninodes.trans (congrArg _ hfreed.sb.symm), href.symm, fun j hj => ?_, fun j => ?_, fun j hj => ?_⟩
    · dsimp only at hj ⊢
      rw [href, update_apply] at hj
      split_ifs at hj with hji
      · omega
      · rw [update_of_ne hji, hfreed.valid j hji, h.valid j hj]
    · show (update a.inode i _ j).type = (t.dinode j).type
      rw [update_apply]
      split_ifs with hji
      · rw [hji, hfreed.type]
      · rw [hfreed.dinode j hji, h.type]
    · have hji : j ≠ i := fun hji => hj (hji ▸ hfreed.type)
      show (update a.inode i _ j).nlink = (t.dinode j).nlink
      dsimp only at hj
      rw [hfreed.dinode j hji] at hj
      rw [update_of_ne hji, hfreed.dinode j hji, h.nlink j hj]
  · rw [if_neg (mt hiff.1 hlast), iput_unref hlast, h.ref]
    exact ⟨rfl, h.ninodes, rfl, fun j => h.valid_of_update i (by omega), h.type, h.nlink⟩

end Agrees

end

end Xv6.Ino
