import Xv6.Lemmas.InodeCalls

/-!
# Contents as lists

An access to the contents of an inode, seen on lists of bytes: what `readi` copies out is a part of the list, `writei` replaces a part
of it, `itrunc` empties it, and the lists of all other inodes are left alone.
-/

namespace Xv6.Ino

open Lib Function List

open Fs (IType)

namespace InoAux

variable {s t u : State} {i j k : Nat}

theorem length_bytes (hu : (s.dinode i).type ≠ .free) : (s.bytes i).length = (s.dinode i).size := by
  unfold State.bytes
  rw [if_neg hu, length_map, length_range]

theorem getElem_bytes (hu : (s.dinode i).type ≠ .free) {o : Nat} (ho : o < (s.bytes i).length) : (s.bytes i)[o] = s.byteAt i o := by
  unfold State.bytes
  simp only [if_neg hu, getElem_map, getElem_range]

/-- The list depends on the type, the size and the bytes below it. -/
theorem bytes_congr (htype : (t.dinode i).type = (s.dinode i).type) (hsize : (t.dinode i).size = (s.dinode i).size)
    (hbyte : (s.dinode i).type ≠ .free → ∀ o < (s.dinode i).size, t.byteAt i o = s.byteAt i o) : t.bytes i = s.bytes i := by
  unfold State.bytes
  by_cases hfree : (s.dinode i).type = .free
  · rw [htype, if_pos hfree, if_pos hfree]
  · rw [htype, hsize, if_neg hfree, if_neg hfree]
    exact map_congr_left fun o ho => hbyte hfree o (mem_range.1 ho)

/-! ## `ilock` -/

theorem Locked.ptr_eq (ht : Locked i s t) : t.ptr = s.ptr := by
  funext q
  unfold State.ptr
  rw [ht.dinode, ht.disk]

theorem Locked.nfree_eq (ht : Locked i s t) : t.nfree = s.nfree := by
  unfold State.nfree
  rw [ht.sb, ht.bitmap]

theorem Locked.bytes (ht : Locked i s t) : t.bytes = s.bytes := by
  funext j
  refine bytes_congr (by rw [ht.dinode]) (by rw [ht.dinode]) fun _ o _ => ?_
  unfold State.byteAt
  rw [ht.ptr_eq, ht.disk]

/-- `ilock` succeeds on an inode that is in use and referred to. -/
theorem ilock_ready_wp (h : Inv s) (hr : 0 < s.ref i) (hu : (s.dinode i).type ≠ .free) :
    Wp (fun _ => False) (ilock i) s fun _ t => Locked i s t := by
  refine (ilock_wp i h).weaken fun e he => ?_
  rcases he.2 with hz | hfree
  · omega
  · exact hu hfree

/-! ## The accesses -/

/-- What `readi` copies out is a part of the list. -/
theorem map_byteAt_eq (hu : (s.dinode i).type ≠ .free) (off n : Nat) :
    ((range (min n ((s.dinode i).size - off))).map fun k => s.byteAt i (off + k)) = ((s.bytes i).drop off).take n := by
  have hlen := length_bytes hu
  refine ext_getElem ?_ fun k hk hk' => ?_
  · rw [length_map, length_range, length_take, length_drop, hlen]
  · rw [getElem_map, getElem_range, getElem_take, getElem_drop, getElem_bytes hu]

/-- What `writei` makes of the lists. -/
theorem Written.bytes {off n : Nat} {src : Nat → Byte} (hu : (s.dinode i).type ≠ .free) (hoff : off ≤ (s.dinode i).size)
    (ht : Written i off n src s t) :
    t.bytes = update s.bytes i ((s.bytes i).take off ++ (range n).map src ++ (s.bytes i).drop (off + n)) := by
  have hu' : (t.dinode i).type ≠ .free := by
    rw [ht.type]
    exact hu
  have hlen := length_bytes hu
  funext j
  rw [update_apply]
  split_ifs with hj
  · subst hj
    refine ext_getElem ?_ fun o ho ho' => ?_
    · rw [length_bytes hu', ht.size]
      simp only [length_append, length_take, length_map, length_range, length_drop, hlen]
      omega
    · rw [getElem_bytes hu']
      rw [length_bytes hu', ht.size] at ho
      simp only [getElem_append, length_append, length_take, length_map, length_range, hlen,
        getElem_take, getElem_map, getElem_range, getElem_drop]
      split
      · next hlt =>
        split
        · next hlo =>
          rw [getElem_bytes hu]
          exact ht.other j o hu (by omega) fun _ => .inl (by omega)
        · next hlo =>
          rw [ht.wrote o (by omega) (by omega)]
          congr 1
          omega
      · next hge =>
        rw [getElem_bytes hu]
        rw [show off + n + (o - (min off (s.dinode j).size + n)) = o by omega]
        exact ht.other j o hu (by omega) fun _ => .inr (by omega)
  · refine bytes_congr (by rw [ht.dinode j hj]) (by rw [ht.dinode j hj]) fun huj o ho => ?_
    exact ht.other j o huj ho fun hji => absurd hji hj

theorem Emptied.bytes (h : Inv s) (ht : Emptied i s t) : t.bytes = update s.bytes i [] := by
  funext j
  rw [update_apply]
  split_ifs with hj
  · subst hj
    unfold State.bytes
    rw [ht.fields]
    split <;> rfl
  · refine bytes_congr (by rw [ht.dinode j hj]) (by rw [ht.dinode j hj]) fun _ o _ => ?_
    have hptr := ht.other (j, slot (o / BSIZE)) hj
    rw [ht.kept.inv.byteAt_eq, h.byteAt_eq]
    unfold ebyte
    rw [hptr, ht.disk]

/-- Reading changes no file. -/
theorem apply_read (off n : Uint) (files : Nat → List Byte) : (FileOp.read i off n).apply files = files := by
  refine (congrArg (update files i) ?_).trans (update_eq_self ..)
  show ((FileOp.read i off n).spec (files i)).2 = files i
  unfold FileOp.spec
  dsimp only
  split <;> rfl

theorem read_wp (off n : Uint) (h : Inv s) (hr : s.Ready (.read i off n)) : Wp (fun _ => False) (FileOp.read i off n).call.run s fun r t =>
    Inv t ∧ r = ((FileOp.read i off n).spec (s.bytes i)).1 ∧ t.bytes = (FileOp.read i off n).apply s.bytes := by
  have hu : (s.dinode i).type ≠ .free := hr.used
  refine (ilock_ready_wp (i := i) h hr.ref hu).bind fun _ t ht => ?_
  refine (readi_wp _ off n ht.inv ht.self.2).bind ?_
  rintro r u ⟨rfl, hread⟩
  have hread := hread fun _ => rfl
  have hdata := map_byteAt_eq (s := u) (i := i) (by rw [ht.dinode]; exact hu) off.toNat n.toNat
  rw [ht.bytes, ht.dinode] at hdata
  rw [ht.inv.synced i ht.self.2, ht.dinode, hdata] at hread
  refine ⟨ht.inv, ?_, ht.bytes.trans (apply_read ..).symm⟩
  show Reply.mk r.1 r.2 = ((FileOp.read i off n).spec (s.bytes i)).1
  unfold FileOp.spec
  dsimp only
  rw [hread, length_bytes hu]
  split
  · rfl
  · rw [length_take, length_drop, length_bytes hu]

theorem blocks_write (byte : Nat → Byte) {off n : Uint} (hu : (s.dinode i).type ≠ .free) (hout : ¬Refused (s.dinode i).size off n) :
    (FileOp.write i byte off n).blocks s = missing (fun k => s.ptr (i, k)) (off.toNat / BSIZE) (blocksTo (off.toNat + n.toNat)) := by
  refine if_neg ?_
  unfold FileOp.spec Refused at *
  dsimp only
  rw [length_bytes hu, if_neg hout]
  show (n.toNat : Int) ≠ -1
  omega

theorem write_wp (byte : Nat → Byte) (off n : Uint) (h : Inv s) (hr : s.Ready (.write i byte off n)) :
    Wp (fun _ => False) (FileOp.write i byte off n).call.run s fun r t =>
      Inv t ∧ r = ((FileOp.write i byte off n).spec (s.bytes i)).1 ∧ t.bytes = (FileOp.write i byte off n).apply s.bytes := by
  have hu : (s.dinode i).type ≠ .free := hr.used
  refine (ilock_ready_wp (i := i) h hr.ref hu).bind fun _ t ht => ?_
  refine (writei_wp ⟨byte, fun _ => none⟩ off n ht.inv ht.self.2).bind fun r u hwrite => ?_
  obtain ⟨hkept, hrefused, hdone⟩ := hwrite
  rw [ht.dinode] at hrefused hdone
  rw [ht.ptr_eq, ht.nfree_eq] at hdone
  refine ⟨hkept.inv, ?_⟩
  show Reply.mk r [] = ((FileOp.write i byte off n).spec (s.bytes i)).1 ∧
    u.bytes = update s.bytes i ((FileOp.write i byte off n).spec (s.bytes i)).2
  unfold FileOp.spec
  dsimp only
  rw [length_bytes hu]
  by_cases hout : Refused (s.dinode i).size off n
  · obtain ⟨rfl, rfl⟩ := hrefused hout
    unfold Refused at hout
    rw [if_pos hout]
    exact ⟨rfl, by rw [update_eq_self, ht.bytes]⟩
  · obtain ⟨rfl, hw⟩ := hdone hout (fun _ _ => rfl) (by rw [← blocks_write byte hu hout]; exact hr.room)
    unfold Refused at hout
    rw [if_neg hout]
    refine ⟨rfl, ?_⟩
    rw [hw.bytes (by rw [ht.dinode]; exact hu) (by rw [ht.dinode]; exact not_lt.1 fun hlt => hout (.inl hlt)), ht.bytes]

theorem trunc_wp (h : Inv s) (hr : s.Ready (.trunc i)) : Wp (fun _ => False) (FileOp.trunc i).call.run s fun r t =>
    Inv t ∧ r = ((FileOp.trunc i).spec (s.bytes i)).1 ∧ t.bytes = (FileOp.trunc i).apply s.bytes := by
  refine (ilock_ready_wp (i := i) h hr.ref hr.used).bind fun _ t ht => ?_
  refine (itrunc_wp ht.inv ht.self.2).bind fun _ u hu => ⟨hu.kept.inv, rfl, ?_⟩
  rw [hu.bytes ht.inv, ht.bytes]
  rfl

/-- Every access does to the list what is specified, and nothing to other lists. -/
theorem op_wp (op : FileOp) (h : Inv s) (hr : s.Ready op) : Wp (fun _ => False) op.call.run s fun r t =>
    Inv t ∧ r = (op.spec (s.bytes op.inum)).1 ∧ t.bytes = op.apply s.bytes := by
  cases op with
  | read i off n => exact read_wp off n h hr
  | write i byte off n => exact write_wp byte off n h hr
  | trunc i => exact trunc_wp h hr

end InoAux

end Xv6.Ino
