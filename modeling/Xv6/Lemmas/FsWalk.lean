import Xv6.Lemmas.FsImage

/-!
# Path lookup

`dirlookup` and `namex` with the references they take and give back. A lookup gives back only references that are safe to give back,
so it changes nothing but the inode table, and it leads where `Image.namex` says.
-/

namespace Xv6.Fs

open Lib List

namespace FsAux

variable {P : Prop} {allowed : Panic → Prop} {held : List Nat} {s t : State} {ip dp i j : Nat} {name : Name} {off : Nat}
  (p : Fin NPROC) (path : List Char) (nameiparent : Bool)

/-- The references held once a lookup has returned. -/
def hold {α : Type} : Option (Nat × α) → List Nat → List Nat
  | none, held => held
  | some (j, _), held => j :: held

/-- An entry of a directory names an allocated inode. -/
theorem alloc_of_find (hok : s.Ok) (hd : (s.inode dp).type = .dir)
    (hf : findEnt (s.inode dp).ents name 0 = some (j, off)) : (s.inode j).type ≠ .free := by
  obtain ⟨ents, hents, hreg, hdot⟩ := hok.dotdot_eq hd
  obtain ⟨e, he, -, rfl, hne, -⟩ := findEnt_some hf
  rw [hents] at he
  rcases off with _ | _ | off
  · cases he
    rw [hd]
    decide
  · cases he
    rw [hdot]
    decide
  · have hmem : e ∈ (s.inode dp).regular := hreg ▸ mem_of_getElem? he
    exact (hok.regular dp e hmem hne).1

/-- An inode named by an entry after `.` and `..` has a link. -/
theorem nlink_of_mem (hok : s.Ok) {e : Dirent} (he : e ∈ (s.inode dp).regular) (hne : e.inum ≠ 0) :
    (s.inode e.inum).nlink ≠ 0 := by
  have hlow := hok.counts.low e.inum (hok.regular dp e he hne).1
  have hpos := hok.entries_pos he
  unfold Image.links at hlow
  omega

/-- A reference to what an entry of a directory names can be given back safely, if one to the directory can: a name in an entry
counts as a link, `.` is the directory itself, and a `..` without links is in use. -/
theorem safe_of_find (hok : s.Ok) (h : s.RefsOk (ip :: held)) (hs : Safe held s ip) (hd : (s.inode ip).type = .dir)
    (hf : findEnt (s.inode ip).ents name 0 = some (j, off)) : Safe held s j := by
  have halloc := alloc_of_find hok hd hf
  obtain ⟨ents, hents, hreg, -⟩ := hok.dotdot_eq hd
  obtain ⟨e, he, -, rfl, hne, -⟩ := findEnt_some hf
  rw [hents] at he
  rcases off with _ | _ | off
  · cases he
    exact hs
  · cases he
    by_cases hself : (s.inode ip).dotdot = ip
    · exact hself.symm ▸ hs
    · by_cases hn : (s.inode (s.inode ip).dotdot).nlink = 0
      · have ho := h.orphan _ halloc hn
        rw [count_cons_of_ne (Ne.symm hself)] at ho
        exact .inr ho
      · exact .inl hn
  · have hmem : e ∈ (s.inode ip).regular := hreg ▸ mem_of_getElem? he
    exact .inl (nlink_of_mem hok hmem hne)

theorem dirlookup_room_wp (hok : s.Ok) (h : s.RefsOk held) (hd : (s.inode dp).type = .dir)
    (hallow : NINODE ≤ s.active → allowed .igetNoInodes) :
    Wp allowed (dirlookup dp name) s fun r t =>
      r = findEnt (s.inode dp).ents name 0 ∧ Cached s t ∧ t.RefsOk (hold r held) ∧ (∀ i, 0 < s.ref i → t.valid i = s.valid i) := by
  unfold dirlookup
  refine Wp.bind (R := fun d t => d = s.inode dp ∧ t = s) ⟨rfl, rfl⟩ ?_
  rintro d t ⟨rfl, rfl⟩
  rw [if_neg (not_not.2 hd)]
  cases hf : findEnt (t.inode dp).ents name 0 with
  | none => exact ⟨rfl, Cached.refl t, h, fun _ _ => rfl⟩
  | some r =>
    obtain ⟨j, off⟩ := r
    exact (iget_wp h (alloc_of_find hok hd hf) hallow).bind fun _ u hu => ⟨rfl, hu⟩

theorem dirlookup_wp (hok : s.Ok) (h : s.RefsOk held) (hd : (s.inode dp).type = .dir) :
    Wp (Allowed P) (dirlookup dp name) s fun r t =>
      r = findEnt (s.inode dp).ents name 0 ∧ Cached s t ∧ t.RefsOk (hold r held) ∧ (∀ i, 0 < s.ref i → t.valid i = s.valid i) :=
  dirlookup_room_wp hok h hd fun _ => Allowed.full

/-- The inode table may be full only where the panic of `iget` is allowed: a lookup has one reference when it asks for another. -/
def Roomy (allowed : Panic → Prop) (held : List Nat) (s : State) : Prop :=
  ∀ t i, Cached s t → t.RefsOk (i :: held) → NINODE ≤ t.active → allowed .igetNoInodes

theorem Roomy.cached (h : Roomy allowed held s) (hc : Cached s t) : Roomy allowed held t := fun u i hu => h u i (hc.trans hu)

theorem namexLoop_wp (names : List Name) (hok : s.Ok) (h : s.RefsOk (ip :: held)) (hs : Safe held s ip)
    (hroom : Roomy allowed held s) :
    Wp allowed (namexLoop nameiparent names ip) s fun r t =>
      r = s.namex nameiparent names ip ∧ Cached s t ∧ t.RefsOk (hold r held) ∧
      ∀ j name, r = some (j, name) → Safe held s j ∧ (nameiparent = true → (s.inode j).type = .dir) := by
  induction names generalizing s ip with
  | nil =>
    unfold namexLoop Image.namex
    cases nameiparent with
    | true =>
      refine (iput_safe_wp h hs).bind fun _ t ht => ⟨rfl, ht.1, ht.2.1, ?_⟩
      intro j name hr
      cases hr
    | false =>
      refine ⟨rfl, Cached.refl s, h, ?_⟩
      rintro j name hr
      obtain ⟨rfl, -⟩ := Prod.mk.inj (Option.some.inj hr)
      exact ⟨hs, Bool.noConfusion⟩
  | cons name rest ih =>
    unfold namexLoop Image.namex
    refine (ilock_wp h mem_cons_self).bind fun _ t ht => ?_
    obtain ⟨hc, ht, -, -⟩ := ht
    refine Wp.bind (R := fun d u => d = t.inode ip ∧ u = t) ⟨rfl, rfl⟩ ?_
    rintro d u ⟨rfl, rfl⟩
    rw [hc.img]
    by_cases hd : (s.inode ip).type = .dir
    · rw [if_neg (not_not.2 hd), if_neg (not_not.2 hd)]
      by_cases hlast : (nameiparent && rest.isEmpty) = true
      · rw [if_pos hlast, if_pos hlast]
        refine ⟨rfl, hc, ht, ?_⟩
        rintro j name' hr
        obtain ⟨rfl, -⟩ := Prod.mk.inj (Option.some.inj hr)
        exact ⟨hs, fun _ => hd⟩
      · rw [if_neg hlast, if_neg hlast]
        refine (dirlookup_room_wp (by rw [hc.img]; exact hok) ht (by rw [hc.img]; exact hd) (hroom u ip hc ht)).bind fun r v hv => ?_
        obtain ⟨hr, hcv, hv, -⟩ := hv
        rw [hc.img] at hr
        rw [← hr]
        cases r with
        | none =>
          refine (iput_safe_wp hv ((hs.cached hc).cached hcv)).bind fun _ w hw =>
            ⟨rfl, (hc.trans hcv).trans hw.1, hw.2.1, ?_⟩
          intro j name' hr'
          cases hr'
        | some r =>
          obtain ⟨next, off⟩ := r
          have hsnext : Safe held s next := safe_of_find hok h hs hd hr.symm
          have hcs := hc.trans hcv
          -- give back the directory while its entry is held
          have hput := @iput_safe_wp allowed _ _ _ (RefsOk.perm hv (List.Perm.swap ip next held))
            ((hs.cached hcs).mono (count_le_count_cons ..))
          refine hput.bind fun _ w hw => ?_
          have hcw := hcs.trans hw.1
          refine (ih (by rw [hcw.img]; exact hok) hw.2.1 (hsnext.cached hcw) (hroom.cached hcw)).mono fun r x hx => ?_
          obtain ⟨hr', hcx, hx, hsafe⟩ := hx
          rw [hcw.img] at hr' hsafe
          refine ⟨hr', hcw.trans hcx, hx, fun j name' hj => ⟨?_, (hsafe j name' hj).2⟩⟩
          exact (hsafe j name' hj).1.transfer (by rw [hcw.img]) hcw.holds.symm
    · rw [if_pos hd, if_pos hd]
      refine (iput_safe_wp ht (hs.cached hc)).bind fun _ v hv => ⟨rfl, hc.trans hv.1, hv.2.1, ?_⟩
      intro j name' hr
      cases hr

theorem nlink_root (hok : s.Ok) : (s.inode ROOTINO).nlink ≠ 0 := by
  have hlow := hok.counts.dir ROOTINO hok.root
  unfold Image.links at hlow
  rw [if_pos rfl] at hlow
  omega

theorem startDir_wp (hok : s.Ok) (h : s.RefsOk held)
    (hallow : NINODE ≤ s.active → allowed .igetNoInodes) (hnull : s.cwd p = none → allowed .nullCwd) :
    Wp allowed (startDir p path) s fun d t =>
      (if path.head? = some '/' then some ROOTINO else s.cwd p) = some d ∧ Cached s t ∧ t.RefsOk (d :: held) ∧ Safe held s d := by
  by_cases hroot : path.head? = some '/'
  · simp only [if_pos hroot]
    have heq : startDir p path s = (do iget ROOTINO; pure ROOTINO : FsM Nat) s := if_pos hroot
    refine Wp.congr heq ((iget_wp h (by rw [hok.root]; decide) hallow).bind fun _ t ht => ?_)
    exact ⟨rfl, ht.1, ht.2.1, .inl (nlink_root hok)⟩
  · simp only [if_neg hroot]
    cases hcwd : s.cwd p with
    | none =>
      have heq : startDir p path s = .error .nullCwd := by
        rw [startDir, if_neg hroot, hcwd]
      unfold Wp
      rw [heq]
      exact hnull hcwd
    | some d =>
      have heq : startDir p path s = (do idup d; pure d : FsM Nat) s := by
        rw [startDir, if_neg hroot, hcwd]
      refine Wp.congr heq ((idup_wp h (by rw [h.cwd p d hcwd]; decide)).bind fun _ t ht => ?_)
      refine ⟨rfl, ht.1, ht.2, .inr ?_⟩
      have : 0 < s.holds d := Nat.add_pos_left (tally_pos hcwd) _
      omega

theorem namex_room_wp (hok : s.Ok) (h : s.RefsOk held)
    (hallow : NINODE ≤ s.active → allowed .igetNoInodes) (hroom : Roomy allowed held s) (hnull : s.cwd p = none → allowed .nullCwd) :
    Wp allowed (namex p path nameiparent) s fun r t =>
      r = s.resolve p path nameiparent ∧ Cached s t ∧ t.RefsOk (hold r held) ∧
      ∀ j name, r = some (j, name) → Safe held s j ∧ (nameiparent = true → (s.inode j).type = .dir) := by
  refine (startDir_wp p path hok h hallow hnull).bind fun d t ht => ?_
  obtain ⟨hd, hc, ht, hs⟩ := ht
  refine (namexLoop_wp nameiparent (elems path) (by rw [hc.img]; exact hok) ht (hs.cached hc) (hroom.cached hc)).mono fun r u hu => ?_
  obtain ⟨hr, hcu, hu, hsafe⟩ := hu
  rw [hc.img] at hr hsafe
  refine ⟨by rw [hr, State.resolve, hd]; rfl, hc.trans hcu, hu, fun j name hj => ⟨?_, (hsafe j name hj).2⟩⟩
  exact (hsafe j name hj).1.transfer (by rw [hc.img]) hc.holds.symm

theorem namex_wp (hok : s.Ok) (h : s.RefsOk held) :
    Wp (Allowed P) (namex p path nameiparent) s fun r t =>
      r = s.resolve p path nameiparent ∧ Cached s t ∧ t.RefsOk (hold r held) ∧
      ∀ j name, r = some (j, name) → Safe held s j ∧ (nameiparent = true → (s.inode j).type = .dir) :=
  namex_room_wp p path nameiparent hok h (fun _ => Allowed.full) (fun _ _ _ _ _ => Allowed.full)
    fun _ => ⟨Panic.noConfusion, fun _ => Panic.noConfusion⟩

end FsAux

end Xv6.Fs
