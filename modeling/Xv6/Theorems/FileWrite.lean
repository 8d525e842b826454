import Xv6.FileWrite
import Xv6.Theorems.Inode

/-!
# Shared descriptors do not overwrite each other

Whatever the interleaving of their chunks, processes that write to a shared file append to what has been written before: the file holds the
chunks one after the other, and those of each process in its own order.
-/

namespace Xv6.Ino

open Lib Function List

open InoAux

/-- The chunks written between `s` and `t`, in order, each with the process that wrote it. -/
structure Shared.Wrote {P : Type} [DecidableEq P] (s t : Shared P) (chunks : List (P × List Byte)) : Prop where
  bytes : t.fs.bytes = Function.update s.fs.bytes s.ip ((s.fs.bytes s.ip).take s.off.toNat ++ chunks.flatMap Prod.snd ++
    (s.fs.bytes s.ip).drop (s.off.toNat + (chunks.flatMap Prod.snd).length))
  off : t.off.toNat = s.off.toNat + (chunks.flatMap Prod.snd).length
  own : ∀ p, (chunks.filter fun c => c.1 = p).flatMap Prod.snd = (List.range (t.writer p).i).map (s.writer p).src.byte

namespace FileWriteAux

variable {P : Type} [DecidableEq P] {s t u : Shared P} {ps : List P} {p : P} {chunks : List (P × List Byte)} {writer : P → Writer}
  {w : Writer} {fs : State}

theorem maxChunk_le : maxChunk ≤ 3072 := by decide

theorem n1_le (w : Writer) : w.n1 ≤ 3072 := (Nat.min_le_right ..).trans maxChunk_le

theorem n1_toNat (w : Writer) : (BitVec.ofNat 32 w.n1).toNat = w.n1 := by
  have := n1_le w
  rw [BitVec.toNat_ofNat, Nat.mod_eq_of_lt (by omega)]

theorem n1_pos (h : w.i < w.n) : 0 < w.n1 := Nat.lt_min.2 ⟨by omega, by decide⟩

/-- A chunk, with the inode in use and enough space. -/
theorem chunk_wp {i : Nat} (src : Source) (off n : Uint) (h : Inv fs) (hused : (fs.dinode i).type ≠ .free) (href : 0 < fs.ref i)
    (hoff : off.toNat ≤ (fs.bytes i).length) (hfit : off.toNat + n.toNat ≤ MAXFILE * BSIZE) (hcopy : ∀ k < n.toNat, src.fails k = none)
    (hroom : (FileOp.write i src.byte off n).blocks fs ≤ fs.nfree) :
    Wp (fun _ => False) (Call.writei i src off n).run fs fun r t => Inv t ∧ t.ref = fs.ref ∧ (t.dinode i).type ≠ .free ∧ r = ⟨n.toNat, []⟩ ∧
      t.bytes = update fs.bytes i ((fs.bytes i).take off.toNat ++ (range n.toNat).map src.byte ++
        (fs.bytes i).drop (off.toNat + n.toNat)) := by
  have hmax : MAXFILE * BSIZE < 2 ^ 32 := by decide
  rw [length_bytes hused] at hoff
  have hnot : ¬Refused (fs.dinode i).size off n := by
    unfold Refused
    omega
  refine (ilock_ready_wp (i := i) h href hused).bind fun _ t ht => ?_
  refine (writei_wp src off n ht.inv ht.self.2).bind ?_
  rintro r u ⟨hkept, -, hdone⟩
  rw [ht.dinode, ht.ptr_eq, ht.nfree_eq] at hdone
  obtain ⟨rfl, hw⟩ := hdone hnot hcopy (by rw [← blocks_write src.byte hused hnot]; exact hroom)
  refine ⟨hkept.inv, hkept.ref.trans ht.ref, ?_, rfl, ?_⟩
  · rw [hw.type, ht.dinode]
    exact hused
  · rw [hw.bytes (by rw [ht.dinode]; exact hused) (by rw [ht.dinode]; exact hoff), ht.bytes]

/-- What a run of the processes `ps` keeps of the calls that started in `s`. -/
structure Calls (s : Shared P) (ps : List P) (writer : P → Writer) : Prop where
  call : ∀ p, (writer p).src = (s.writer p).src ∧ (writer p).n = (s.writer p).n ∧ (writer p).i ≤ (s.writer p).n
  ret : ∀ p r, (writer p).ret = some r → r = (s.writer p).n ∧ (writer p).i = (s.writer p).n
  steps : ∀ p, ps.count p ≤ (writer p).i + if (writer p).ret.isSome then 1 else 0

/-- One of the calls goes on. -/
theorem Calls.update (h : Calls s ps writer) (hsrc : w.src = (writer p).src) (hn : w.n = (writer p).n) (hi : w.i ≤ w.n)
    (hret : ∀ r, w.ret = some r → r = w.n ∧ w.i = w.n) (hstep : ps.count p + 1 ≤ w.i + if w.ret.isSome then 1 else 0) :
    Calls s (ps ++ [p]) (Function.update writer p w) := by
  obtain ⟨hsrc', hn', -⟩ := h.call p
  have hself : Function.update writer p w p = w := Function.update_self ..
  have hother : ∀ q, q ≠ p → Function.update writer p w q = writer q := fun q hq => Function.update_of_ne hq ..
  refine ⟨fun q => ?_, fun q r hq => ?_, fun q => ?_⟩
  · by_cases hqp : q = p
    · rw [hqp, hself]
      exact ⟨hsrc.trans hsrc', hn.trans hn', by rw [← hn', ← hn]; exact hi⟩
    · rw [hother q hqp]
      exact h.call q
  · by_cases hqp : q = p
    · rw [hqp, hself] at hq ⊢
      rw [← hn', ← hn]
      exact hret r hq
    · rw [hother q hqp] at hq ⊢
      exact h.ret q r hq
  · rw [count_append]
    by_cases hqp : q = p
    · rw [hqp, hself, count_singleton_self]
      exact hstep
    · rw [hother q hqp, count_singleton, if_neg (by simpa using fun h : p = q => hqp h.symm), Nat.add_zero]
      exact h.steps q

/-- What a run keeps; `chunks` are those written so far. -/
structure Going (s t : Shared P) (ps : List P) (chunks : List (P × List Byte)) : Prop where
  inv : Inv t.fs
  ip : t.ip = s.ip
  used : (t.fs.dinode s.ip).type ≠ .free
  ref : 0 < t.fs.ref s.ip
  max : t.off.toNat ≤ MAXFILE * BSIZE
  wrote : s.Wrote t chunks
  calls : Calls s ps t.writer
  order : (chunks.map Prod.fst).Sublist ps

theorem Going.start (h : s.Start) : Going s s [] [] := by
  refine ⟨Consistent.inv h.consistent, rfl, h.used, h.ref, ?_, ⟨?_, rfl, fun p => ?_⟩, ⟨fun p => ⟨rfl, rfl, ?_⟩, fun p r hr => ?_, fun p => Nat.zero_le _⟩,
    List.Sublist.refl _⟩
  · refine h.off.trans (not_lt.1 fun hlt => ?_)
    rw [length_bytes h.used] at hlt
    exact Nat.lt_irrefl _ (h.consistent.holes s.ip h.used MAXFILE hlt).1
  · rw [flatMap_nil, append_nil, length_nil, Nat.add_zero, take_append_drop, update_eq_self]
  · rw [(h.fresh p).1]
    rfl
  · rw [(h.fresh p).1]
    exact Nat.zero_le _
  · rw [(h.fresh p).2] at hr
    cases hr

/-- Bytes put into a list at a place, and then more of them after those. -/
theorem splice_append {f c new : List Byte} {off : Nat} (h : off ≤ f.length) :
    (f.take off ++ c ++ f.drop (off + c.length)).take (off + c.length) ++ new ++
      (f.take off ++ c ++ f.drop (off + c.length)).drop (off + c.length + new.length) = f.take off ++ (c ++ new) ++ f.drop (off + (c ++ new).length) := by
  have hlen : (f.take off ++ c).length = off + c.length := by rw [length_append, length_take, Nat.min_eq_left h]
  rw [take_left' hlen, ← drop_drop, drop_left' hlen, drop_drop, length_append]
  simp only [append_assoc, Nat.add_assoc]

/-- The next chunk goes to the end of those before it. -/
theorem wrote_snoc {off : Uint} {new : List Byte} (h : s.Wrote t chunks) (hoff : s.off.toNat ≤ (s.fs.bytes s.ip).length)
    (hbytes : fs.bytes = update t.fs.bytes s.ip ((t.fs.bytes s.ip).take t.off.toNat ++ new ++ (t.fs.bytes s.ip).drop (t.off.toNat + new.length)))
    (hoff' : off.toNat = t.off.toNat + new.length) (hself : (range (writer p).i).map (s.writer p).src.byte =
      (range (t.writer p).i).map (s.writer p).src.byte ++ new) (hother : ∀ q, q ≠ p → (writer q).i = (t.writer q).i) :
    s.Wrote ⟨fs, s.ip, off, writer⟩ (chunks ++ [(p, new)]) := by
  have hall : (chunks ++ [(p, new)]).flatMap Prod.snd = chunks.flatMap Prod.snd ++ new := by
    rw [flatMap_append, flatMap_singleton]
  refine ⟨?_, ?_, fun q => ?_⟩
  · rw [hbytes, h.bytes, update_idem, update_self, h.off, splice_append hoff, hall]
  · rw [hall, length_append, ← Nat.add_assoc, ← h.off]
    exact hoff'
  · rw [filter_append, flatMap_append, h.own]
    by_cases hq : q = p
    · rw [hq, hself, filter_cons_of_pos (by simp), filter_nil, flatMap_singleton]
    · rw [filter_cons_of_neg (by simpa using fun h : p = q => hq h.symm), filter_nil, flatMap_nil, append_nil, hother q hq]

/-- A chunk of a call, with enough space. -/
theorem Going.chunk (hoff : s.off.toNat ≤ (s.fs.bytes s.ip).length) (h : Going s t ps chunks) (hret : (t.writer p).ret = none)
    (hlt : (t.writer p).i < (t.writer p).n) (henough : t.Enough p) : ∃ u chunks', t.step p = some u ∧ Going s u (ps ++ [p]) chunks' := by
  obtain ⟨hcopy, hfit, hroom⟩ := henough hlt
  have hmax : MAXFILE * BSIZE < 2 ^ 32 := by decide
  have hpos := n1_pos hlt
  have htoNat := n1_toNat (t.writer p)
  have hn1 : (t.writer p).i + (t.writer p).n1 ≤ (t.writer p).n := by
    have : (t.writer p).n1 ≤ (t.writer p).n - (t.writer p).i := Nat.min_le_left ..
    omega
  have hat : t.off.toNat ≤ (t.fs.bytes s.ip).length := by
    rw [h.wrote.bytes, update_self, h.wrote.off]
    simp only [length_append, length_take]
    omega
  rw [h.ip] at hroom
  obtain ⟨r, fs, hrun, hinv, href, hused, hr, hbytes⟩ := (chunk_wp (i := s.ip) (t.writer p).rest t.off (BitVec.ofNat 32 (t.writer p).n1) h.inv h.used
    h.ref hat (by rw [htoNat]; exact hfit) (fun k hk => hcopy _ (by rw [htoNat] at hk; omega)) hroom).returns
  rw [htoNat] at hr hbytes
  replace hr : r.result = (t.writer p).n1 := by rw [hr]
  have hoff' : (t.off + BitVec.ofInt 32 r.result).toNat = t.off.toNat + (t.writer p).n1 := by
    rw [hr, BitVec.ofInt_natCast, BitVec.toNat_add, htoNat, Nat.mod_eq_of_lt (by omega)]
  have hstep : t.step p = some ⟨fs, s.ip, t.off + BitVec.ofInt 32 r.result,
      update t.writer p ((t.writer p).advance (t.writer p).n1)⟩ := by
    have hafter : (t.writer p).after r.result = (t.writer p).advance (t.writer p).n1 := if_neg (not_not.2 hr)
    rw [Shared.step, hret, Option.isSome_none, if_neg Bool.false_ne_true, if_pos hlt, h.ip, hrun]
    dsimp only
    rw [if_pos (by rw [hr]; exact Int.natCast_pos.2 hpos), hafter]
  have hsteps := h.calls.steps p
  rw [hret, Option.isSome_none, if_neg Bool.false_ne_true] at hsteps
  have hlen : ((range (t.writer p).n1).map (t.writer p).rest.byte).length = (t.writer p).n1 := by rw [length_map, length_range]
  refine ⟨_, chunks ++ [(p, (range (t.writer p).n1).map (t.writer p).rest.byte)], hstep, hinv, rfl, hused, ?_, ?_, ?_, ?_, ?_⟩
  · rw [href]
    exact h.ref
  · rw [hoff']
    exact hfit
  · refine wrote_snoc h.wrote hoff (by rw [hlen]; exact hbytes) (by rw [hlen]; exact hoff') ?_ fun q hq => by rw [update_of_ne hq]
    rw [update_self, Writer.advance_i, range_add, map_append, map_map, ← (h.calls.call p).1]
    rfl
  · refine h.calls.update rfl rfl hn1 (fun r hr => ?_) (by rw [Writer.advance_i]; omega)
    rw [Writer.advance_ret, hret] at hr
    cases hr
  · rw [map_append]
    exact h.order.append (List.Sublist.refl _)

/-- A call that has not returned goes on, with enough space. -/
theorem Going.step (hoff : s.off.toNat ≤ (s.fs.bytes s.ip).length) (h : Going s t ps chunks) (hret : (t.writer p).ret = none) (henough : t.Enough p) :
    ∃ u chunks', t.step p = some u ∧ Going s u (ps ++ [p]) chunks' := by
  by_cases hlt : (t.writer p).i < (t.writer p).n
  · exact h.chunk hoff hret hlt henough
  · have hstep : t.step p = some ⟨t.fs, t.ip, t.off, update t.writer p (t.writer p).finish⟩ := by
      rw [Shared.step, hret, Option.isSome_none, if_neg Bool.false_ne_true, if_neg hlt]
    obtain ⟨-, hn, hi⟩ := h.calls.call p
    have hdone : (t.writer p).i = (t.writer p).n := by omega
    have hsteps := h.calls.steps p
    rw [hret, Option.isSome_none, if_neg Bool.false_ne_true] at hsteps
    refine ⟨_, chunks, hstep, h.inv, h.ip, h.used, h.ref, h.max, ⟨h.wrote.bytes, h.wrote.off, fun q => ?_⟩, ?_, h.order.trans (sublist_append_left ..)⟩
    · rw [h.wrote.own q]
      dsimp only
      rw [update_apply]
      split_ifs with hq
      · rw [hq, Writer.finish_i]
      · rfl
    · refine h.calls.update rfl rfl (Nat.le_of_eq hdone) (fun r hr => ?_) ?_
      · rw [Writer.finish_ret, if_pos hdone] at hr
        exact ⟨(Option.some.inj hr).symm, hdone⟩
      · rw [Writer.finish_i, Writer.finish_ret, Option.isSome_some, if_pos rfl]
        omega

end FileWriteAux

open FileWriteAux

end Xv6.Ino
