import Xv6.Lemmas.FsWalk
import Xv6.Lemmas.FsFiles

/-!
# The calls that make names

`create` with its failure path, and `sys_open`, `sys_mkdir`, `sys_mknod` and `sys_link` over it: each keeps the tree and the counts,
exact counts included, and gives back the references it took.
-/

namespace Xv6.Fs

open Lib List

namespace FsAux

variable {P : Prop} {held : List Nat} {s t : State} {ip dp i j : Nat} {name : Name} {type : IType} {full : Nat → Bool} {base : Image}
  {D : Dinode} {u : State} {n : Int} (p : Fin NPROC) (path : List Char) (major minor : Int) (omode : Omode)

/-- The tree and the counts are kept, and exact counts stay exact. -/
def Kept (s t : State) : Prop := s.Keeps t.toImage

theorem Cached.kept (hc : Cached s t) (hok : s.Ok) : Kept s t := by
  unfold Kept
  rw [hc.img]
  exact ⟨hok, id⟩

theorem Kept.trans (h : Kept s t) (h' : Kept t u) : Kept s u := ⟨h'.1, fun hf => h'.2 (h.2 hf)⟩

theorem ialloc_wp (h : s.RefsOk held) :
    Wp (Allowed P) (ialloc type) s fun r t => r = none ∧ t = s ∨
      ∃ i, r = some i ∧ i ≠ 0 ∧ i < s.ninodes ∧ (s.inode i).type = .free ∧ t.toImage = s.set i ⟨type, 0, 0, 0, []⟩ ∧
        t.file = s.file ∧ t.cwd = s.cwd ∧ t.ofile = s.ofile ∧ t.ref = Function.update s.ref i 1 ∧
        ∀ j, j ≠ i → t.valid j = s.valid j := by
  cases hf : (range s.ninodes).find? fun i => 1 ≤ i ∧ (s.inode i).type = .free with
  | none =>
    have heq : ialloc type s = .ok (none, s) := by rw [ialloc, hf]
    exact Wp.of_eq heq (.inl ⟨rfl, rfl⟩)
  | some i =>
    have hi := find?_some hf
    have hlt := mem_range.1 (mem_of_find?_eq_some hf)
    simp only [decide_eq_true_eq] at hi
    have hget : ialloc type s = (iget i (s.withImg (s.set i ⟨type, 0, 0, 0, []⟩))).bind fun r => .ok (some i, r.2) := by
      rw [ialloc, hf]
      rfl
    have hzero : ¬ 0 < (s.withImg (s.set i ⟨type, 0, 0, 0, []⟩)).ref i := by
      have := RefsOk.ref_free h hi.2
      exact this.le.not_gt
    rw [iget, if_neg hzero] at hget
    by_cases hfull : NINODE ≤ (s.withImg (s.set i ⟨type, 0, 0, 0, []⟩)).active
    · rw [if_pos hfull] at hget
      unfold Wp
      rw [hget]
      exact ⟨Panic.noConfusion, fun _ => Panic.noConfusion⟩
    · rw [if_neg hfull] at hget
      refine Wp.of_eq hget (.inr ⟨i, rfl, by omega, hlt, hi.2, rfl, rfl, rfl, rfl, rfl, fun j hj => ?_⟩)
      exact Function.update_of_ne hj ..

theorem dirlookup_none_wp (hd : (s.inode dp).type = .dir) (hf : findEnt (s.inode dp).ents name 0 = none) :
    Wp (Allowed P) (dirlookup dp name) s fun r t => r = none ∧ t = s := by
  unfold dirlookup
  refine readInode_bind ?_
  rw [if_neg (not_not.2 hd), hf]
  exact ⟨rfl, rfl⟩

theorem fits_of_writeFails {ents : List Dirent} {off : Nat} (h : ¬ writeFails full dp ents off = true) :
    (off + 1) * DIRENT ≤ MAXFILE * BSIZE := by
  simp only [writeFails, Bool.or_eq_true, decide_eq_true_eq, not_or] at h
  have := h.1
  rw [Nat.add_mul, Nat.one_mul]
  omega

/-- `dirlink` of a name that is not present. -/
theorem dirlink_new_wp (hd : (s.inode dp).type = .dir) (hf : findEnt (s.inode dp).ents name 0 = none) (inum : Nat) :
    Wp (Allowed P) (dirlink full dp name inum) s fun r t => r = false ∧ t = s ∨
      r = true ∧ (freeSlot (s.inode dp).ents + 1) * DIRENT ≤ MAXFILE * BSIZE ∧
        t = s.withImg (s.set dp ((s.inode dp).addEnt ⟨inum % 2 ^ 16, name.take DIRSIZ⟩ (s.inode dp).nlink)) := by
  refine (dirlookup_none_wp hd hf).bind ?_
  rintro r t ⟨rfl, rfl⟩
  unfold dirwrite
  refine readInode_bind ?_
  split
  · exact .inl ⟨rfl, rfl⟩
  · next hw => exact .inr ⟨rfl, fits_of_writeFails hw, rfl⟩

/-- The first entries of a new directory `ip`. -/
theorem dotEntries_wp (himg : s.toImage = base.set ip D) (hD : D.ents = []) (hip0 : ip ≠ 0) (hip : ip < 2 ^ 16)
    (hdp : dp < 2 ^ 16) :
    Wp (Allowed P) (dotEntries full dp ip D.type) s fun r t => ∃ ents, t = s.withImg (base.set ip { D with ents := ents }) ∧
      (r = true → ents = if D.type = .dir then [⟨ip, ['.']⟩, ⟨dp, ['.', '.']⟩] else []) := by
  have hself : s.inode ip = D := by rw [himg, Image.set_inode_self]
  have hsame : s = s.withImg (base.set ip { D with ents := [] }) := by
    rw [← hD, ← himg]
    rfl
  unfold dotEntries
  by_cases hdir : D.type = .dir
  · simp only [if_pos hdir]
    refine (dirlink_new_wp (by rw [hself]; exact hdir) (by rw [hself, hD]; rfl) ip).bind fun r t ht => ?_
    rcases ht with ⟨rfl, rfl⟩ | ⟨rfl, -, rfl⟩
    · exact ⟨[], hsame, Bool.noConfusion⟩
    · have hone : D.addEnt ⟨ip % 2 ^ 16, ['.'].take DIRSIZ⟩ D.nlink = { D with ents := [⟨ip, ['.']⟩] } := by
        rw [Dinode.addEnt, Dinode.write, hD, Nat.mod_eq_of_lt hip]
        rfl
      rw [hself, hone, himg, Image.set_set, if_pos rfl]
      generalize hu : s.withImg (base.set ip { D with ents := [⟨ip, ['.']⟩] }) = u
      have huself : u.inode ip = { D with ents := [⟨ip, ['.']⟩] } := by
        rw [← hu, State.withImg_img, Image.set_inode_self]
      have hnone : findEnt (u.inode ip).ents ['.', '.'] 0 = none := by
        rw [huself, findEnt, if_neg fun hc => absurd hc.2 (show namecmp ['.', '.'] ['.'] ≠ 0 by decide)]
        rfl
      refine (dirlink_new_wp (by rw [huself]; exact hdir) hnone dp).mono fun r t ht => ?_
      rcases ht with ⟨rfl, rfl⟩ | ⟨rfl, -, rfl⟩
      · exact ⟨_, hu.symm, Bool.noConfusion⟩
      · refine ⟨_, ?_, fun _ => rfl⟩
        have hslot : freeSlot [(⟨ip, ['.']⟩ : Dirent)] = 1 := by
          rw [freeSlot, if_neg hip0]
          rfl
        rw [huself, Dinode.addEnt, hslot, ← hu, State.withImg_img, State.withImg_withImg, Image.set_set, Nat.mod_eq_of_lt hdp]
        rfl
  · simp only [if_neg hdir]
    exact ⟨[], hsame, fun _ => rfl⟩

theorem strncmp_take (n : Nat) (a b : List Char) : strncmp (a.take n) b n = strncmp a b n := by
  induction n generalizing a b with
  | zero => rw [strncmp, strncmp]
  | succ n ih =>
    cases a with
    | nil => rfl
    | cons x a =>
      cases b with
      | nil => rfl
      | cons y b => simp only [take_succ_cons, strncmp, ih]

theorem isDots_take (name : Name) : isDots (name.take DIRSIZ) = isDots name := by
  simp only [isDots, namecmp, strncmp_take]

/-- A name that a directory does not have is neither `.` nor `..`. -/
theorem isDots_of_none (hok : s.Ok) (hd : (s.inode dp).type = .dir) (hf : findEnt (s.inode dp).ents name 0 = none) :
    isDots name = false := by
  obtain ⟨ents, hents, -, hdot⟩ := hok.dotdot_eq hd
  have hnone := findEnt_none hf
  rw [hents] at hnone
  have h1 := hnone ⟨dp, ['.']⟩ mem_cons_self (hok.dir_ne_zero hd)
  have h2 := hnone ⟨_, ['.', '.']⟩ (mem_cons_of_mem _ mem_cons_self) (hok.dir_ne_zero hdot)
  unfold isDots
  simp only [beq_eq_false_iff_ne, ne_eq, Bool.or_eq_false_iff]
  exact ⟨h1, h2⟩

/-- The entries `create` makes for the new inode `ip`. -/
theorem newEntries_wp (himg : s.toImage = base.set ip D) (hD : D.ents = []) (hip0 : ip ≠ 0) (hip : ip < 2 ^ 16)
    (hdp : dp < 2 ^ 16) (hne : dp ≠ ip) (hd : (base.inode dp).type = .dir) (hf : findEnt (base.inode dp).ents name 0 = none) :
    Wp (Allowed P) (newEntries full dp ip name D.type) s fun r t => ∃ ents,
      r = false ∧ t = s.withImg (base.set ip { D with ents := ents }) ∨
      r = true ∧ (ents = if D.type = .dir then [⟨ip, ['.']⟩, ⟨dp, ['.', '.']⟩] else []) ∧
        (freeSlot (base.inode dp).ents + 1) * DIRENT ≤ MAXFILE * BSIZE ∧
        t = s.withImg ((base.set ip { D with ents := ents }).set dp
          ((base.inode dp).addEnt ⟨ip, name.take DIRSIZ⟩ (base.inode dp).nlink)) := by
  refine (dotEntries_wp himg hD hip0 hip hdp).bind fun r t ht => ?_
  obtain ⟨ents, rfl, hents⟩ := ht
  cases r with
  | false => exact ⟨ents, .inl ⟨rfl, rfl⟩⟩
  | true =>
    rw [if_pos rfl]
    have hdpi : (s.withImg (base.set ip { D with ents := ents })).inode dp = base.inode dp := Image.set_inode_ne _ _ hne
    refine (dirlink_new_wp (by rw [hdpi]; exact hd) (by rw [hdpi]; exact hf) ip).mono fun r u hu => ?_
    rw [hdpi, Nat.mod_eq_of_lt hip] at hu
    rcases hu with ⟨rfl, rfl⟩ | ⟨rfl, hsize, rfl⟩
    · exact ⟨ents, .inl ⟨rfl, rfl⟩⟩
    · exact ⟨ents, .inr ⟨rfl, hents rfl, hsize, rfl⟩⟩

/-- What a call that makes a name leaves: files, current directories and descriptors as they were, and a reference to the inode it
returns. -/
structure Made (held : List Nat) (s : State) (r : Option Nat) (t : State) : Prop where
  file : t.file = s.file
  cwd : t.cwd = s.cwd
  ofile : t.ofile = s.ofile
  kept : Kept s t
  refs : t.RefsOk (r.toList ++ held)
  found : ∀ ip, r = some ip → Safe held t ip ∧ t.valid ip = true

/-- A call that fails, having changed nothing but the inode table. -/
theorem Made.none (hok : s.Ok) (hc : Cached s t) (h : t.RefsOk held) : Made held s Option.none t := by
  refine ⟨hc.file, hc.cwd, hc.ofile, hc.kept hok, h, ?_⟩
  intro ip hr
  cases hr

/-- A call that finds an inode, having changed nothing but the inode table. -/
theorem Made.some (hok : s.Ok) (hc : Cached s t) (h : t.RefsOk (ip :: held)) (hs : Safe held s ip) (hv : t.valid ip = true) :
    Made held s (some ip) t := by
  refine ⟨hc.file, hc.cwd, hc.ofile, hc.kept hok, h, ?_⟩
  intro j hj
  cases hj
  exact ⟨hs.cached hc, hv⟩

theorem Made.of_cached {r : Option Nat} (hc : Cached s t) (hok : s.Ok) (h : Made held t r u) : Made held s r u :=
  ⟨h.file.trans hc.file, h.cwd.trans hc.cwd, h.ofile.trans hc.ofile, (hc.kept hok).trans h.kept, h.refs, h.found⟩

theorem toShort_eq (h : -2 ^ 15 ≤ n) (h' : n < 2 ^ 15) : toShort n = n := by
  unfold toShort
  omega

/-- The state in `create` once the new inode `ip` is allocated and locked. -/
structure Fresh (held : List Nat) (s u : State) (dp ip : Nat) (type : IType) : Prop where
  zero : ip ≠ 0
  lt : ip < s.ninodes
  free : (s.inode ip).type = .free
  alloc : type ≠ .free
  dir : (s.inode dp).type = .dir
  before : s.RefsOk (dp :: held)
  img : ∃ D, u.toImage = s.set ip D ∧ D.type = type
  file : u.file = s.file
  cwd : u.cwd = s.cwd
  ofile : u.ofile = s.ofile
  refs : u.RefsOk (ip :: dp :: held)
  valid : u.valid ip = true

namespace Fresh

variable {u : State} (h : Fresh held s u dp ip type) {D : Dinode}

include h

theorem ne : dp ≠ ip := by
  rintro rfl
  have := h.free
  rw [h.dir] at this
  cases this

theorem holds : u.holds = s.holds := by
  funext i
  unfold State.holds
  rw [h.cwd, h.file]

theorem with_refs (hD : D.type = type) : (u.withImg (s.set ip D)).RefsOk (ip :: dp :: held) := by
  obtain ⟨D', himg, hD'⟩ := h.img
  have := RefsOk.set_of_mem h.refs mem_cons_self (i := ip) (D := D) (by rw [himg, Image.set_inode_self, hD, hD'])
  rw [himg, Image.set_set] at this
  exact this

/-- The failure path of `create` frees the inode again. -/
theorem fail_wp (hD : D.type = type) (hok : s.Ok) (hs : Safe held s dp) :
    Wp (Allowed P) (do
      modifyInode ip fun d => { d with nlink := 0 }
      iunlockput ip
      iunlockput dp
      pure none : FsM (Option Nat)) (u.withImg (s.set ip D)) fun r t => Made held s r t := by
  refine Wp.bind (modifyInode_wp (Q := fun _ v => v = u.withImg (s.set ip { D with nlink := 0 })) ?_) ?_
  · rw [State.withImg_img, Image.set_inode_self, Image.set_set, State.withImg_withImg]
  rintro _ v rfl
  have hlast : ¬ Safe (dp :: held) (u.withImg (s.set ip { D with nlink := 0 })) ip := by
    have hzero := RefsOk.ref_free h.before h.free
    rw [h.before.ref ip] at hzero
    rw [not_safe_iff, State.withImg_holds, h.holds, State.withImg_img, Image.set_inode_self, ← count_eq_zero]
    exact ⟨rfl, by omega, by omega⟩
  refine (iput_wp (h.with_refs (D := { D with nlink := 0 }) hD) fun _ => h.valid).bind fun _ w hw => ?_
  have himg : w.toImage = s.set ip ⟨.free, D.major, D.minor, 0, []⟩ := by
    rw [(hw.img.resolve_left fun hc => hlast hc.1).2, Image.free, State.withImg_img, Image.set_inode_self, Image.set_set]
    rfl
  have hsafe : Safe held w dp := hs.transfer (by rw [himg, Image.set_inode_ne _ _ h.ne]) (hw.holds.trans h.holds)
  refine (iput_safe_wp hw.refs hsafe).bind fun _ x hx => ?_
  obtain ⟨hc, hx, -⟩ := hx
  refine ⟨by rw [hc.file, hw.file]; exact h.file, by rw [hc.cwd, hw.cwd]; exact h.cwd, by rw [hc.ofile, hw.ofile]; exact h.ofile,
    ?_, hx, ?_⟩
  · unfold Kept
    rw [hc.img, himg]
    exact hok.set_free h.free h.zero h.lt rfl rfl ⟨show (-2 ^ 15 : Int) ≤ 0 by decide, show (0 : Int) < 2 ^ 15 by decide⟩
  · intro j hj
    cases hj

/-- The last steps of `create`: the new subdirectory counted, and the directory given back. -/
theorem done_wp (hD : D.type = type) (hnlink : D.nlink = 1)
    (hents : D.ents = if D.type = .dir then [⟨ip, ['.']⟩, ⟨dp, ['.', '.']⟩] else []) (hok : s.Ok) (hs : Safe held s dp)
    (hname : isDots name = false) (hsize : (freeSlot (s.inode dp).ents + 1) * DIRENT ≤ MAXFILE * BSIZE) :
    Wp (Allowed P) (do
      countSubdir dp type
      iunlockput dp
      pure (some ip) : FsM (Option Nat))
      (u.withImg ((s.set ip D).set dp
        ((s.inode dp).addEnt ⟨ip, name⟩ (s.inode dp).nlink))) fun r t => Made held s r t := by
  have hlow := hok.nlink_nonneg h.dir
  have hmax := hok.dir_nlink_lt h.dir
  have hcount : Wp (Allowed P) (countSubdir dp type) (u.withImg ((s.set ip D).set dp
        ((s.inode dp).addEnt ⟨ip, name⟩ (s.inode dp).nlink))) fun _ v =>
      v = u.withImg ((s.set ip D).set dp ((s.inode dp).addEnt ⟨ip, name⟩
        ((s.inode dp).nlink + if D.type = .dir then 1 else 0))) := by
    unfold countSubdir
    by_cases hdir : type = .dir
    · rw [if_pos hdir, hD, if_pos hdir]
      refine modifyInode_wp ?_
      rw [State.withImg_img, Image.set_inode_self, Image.set_set, State.withImg_withImg, Dinode.write_nlink,
        toShort_eq (by omega) (by omega)]
      rfl
    · rw [if_neg hdir, hD, if_neg hdir, Int.add_zero]
      exact Wp.pure rfl
  refine hcount.bind ?_
  rintro _ v rfl
  have hdp1 : ((u.withImg (s.set ip D)).inode dp) = s.inode dp := Image.set_inode_ne _ _ h.ne
  have hrefs := RefsOk.set_of_mem (h.with_refs hD) (i := dp) (mem_cons_of_mem _ mem_cons_self)
    (D := (s.inode dp).addEnt ⟨ip, name⟩
      ((s.inode dp).nlink + if D.type = .dir then 1 else 0)) (by rw [hdp1, Dinode.write_type])
  rw [State.withImg_img, State.withImg_withImg] at hrefs
  generalize hw : u.withImg ((s.set ip D).set dp ((s.inode dp).addEnt ⟨ip, name⟩
    ((s.inode dp).nlink + if D.type = .dir then 1 else 0))) = w at hrefs ⊢
  have hwimg : w.toImage = (s.set ip D).set dp ((s.inode dp).addEnt ⟨ip, name⟩
    ((s.inode dp).nlink + if D.type = .dir then 1 else 0)) := by rw [← hw, State.withImg_img]
  have hwholds : w.holds = s.holds := by rw [← hw]; exact h.holds
  have hsafe : Safe (ip :: held) w dp := by
    unfold Safe at hs ⊢
    rw [hwholds, hwimg, Image.set_inode_self, Dinode.write_nlink, count_cons_of_ne (Ne.symm h.ne)]
    split <;> omega
  refine (iput_safe_wp (RefsOk.perm hrefs (List.Perm.swap dp ip held)) hsafe).bind fun _ x hx => ?_
  obtain ⟨hc, hx, hxv⟩ := hx
  have hcreate := hok.create (D := D) h.dir h.free h.zero h.lt hname hsize (by rw [hD]; exact h.alloc) hnlink
    (fun hnd => by rw [hents, if_neg hnd]) (fun hd => by rw [hents, if_pos hd]) rfl
  refine ⟨by rw [hc.file, ← hw]; exact h.file, by rw [hc.cwd, ← hw]; exact h.cwd, by rw [hc.ofile, ← hw]; exact h.ofile,
    ?_, hx, ?_⟩
  · unfold Kept
    rw [hc.img, hwimg]
    exact hcreate
  · intro j hj
    cases hj
    refine ⟨.inl ?_, by rw [hxv, ← hw]; exact h.valid⟩
    rw [hc.img, hwimg, Image.set_inode_ne _ _ (Ne.symm h.ne), Image.set_inode_self, hnlink]
    decide

end Fresh

theorem createNew_wp (hok : s.Ok) (h : s.RefsOk (dp :: held)) (hs : Safe held s dp)
    (hd : (s.inode dp).type = .dir) (hf : findEnt (s.inode dp).ents name 0 = none) (htype : type ≠ .free) :
    Wp (Allowed P) (createNew full dp name type major minor) s fun r t => Made held s r t := by
  have hname : isDots (name.take DIRSIZ) = false := by rw [isDots_take]; exact isDots_of_none hok hd hf
  refine (ialloc_wp h).bind fun r t ht => ?_
  rcases ht with ⟨rfl, rfl⟩ | ⟨ip, rfl, hip0, hlt, hip, himg, hfile, hcwd, hofile, href, hvalid⟩
  · exact (iput_safe_wp h hs).bind fun _ u hu => Made.none hok hu.1 hu.2.1
  · have ht : t.RefsOk (ip :: dp :: held) := RefsOk.alloc_cons h hip htype himg hfile hcwd href hvalid
    refine (ilock_wp ht mem_cons_self).bind fun _ u hu => ?_
    obtain ⟨hc, hu, huv, -⟩ := hu
    have hfresh : Fresh held s u dp ip type := ⟨hip0, hlt, hip, htype, hd, h, ⟨_, hc.img.trans himg, rfl⟩, hc.file.trans hfile,
      hc.cwd.trans hcwd, hc.ofile.trans hofile, hu, huv⟩
    refine Wp.bind (modifyInode_wp (Q := fun _ v => v = u.withImg (s.set ip ⟨type, major, minor, 1, []⟩)) ?_) ?_
    · rw [hc.img, himg, Image.set_inode_self, Image.set_set]
    rintro _ v rfl
    have hushort := hok.ushort
    have hdplt := hok.bound dp (by rw [hd]; decide)
    refine (newEntries_wp (D := ⟨type, major, minor, 1, []⟩) rfl rfl hip0 (by omega) (by omega) hfresh.ne hd hf).bind fun r v hv => ?_
    obtain ⟨ents, ⟨rfl, rfl⟩ | ⟨rfl, hents, hsize, rfl⟩⟩ := hv
    · exact hfresh.fail_wp rfl hok hs
    · exact hfresh.done_wp rfl rfl hents hok hs hname hsize

theorem create_wp (hok : s.Ok) (h : s.RefsOk held) (htype : type ≠ .free) :
    Wp (Allowed P) (create p full path type major minor) s fun r t => Made held s r t := by
  refine (namex_wp p path true hok h).bind fun r t ht => ?_
  obtain ⟨-, hc, ht, hsafe⟩ := ht
  cases r with
  | none => exact Made.none hok hc ht
  | some r =>
    obtain ⟨dp, name⟩ := r
    obtain ⟨hs, hd⟩ := hsafe dp name rfl
    refine (ilock_wp ht mem_cons_self).bind fun _ u hu => ?_
    obtain ⟨hcu, hu, -, -⟩ := hu
    have hsu := hc.trans hcu
    have hoku : u.Ok := by rw [hsu.img]; exact hok
    have hdu : (u.inode dp).type = .dir := by rw [hsu.img]; exact hd rfl
    refine (dirlookup_wp hoku hu hdu).bind fun r v hv => ?_
    obtain ⟨hr, hcv, hv, -⟩ := hv
    have hsv := hsu.trans hcv
    cases r with
    | none =>
      have hokv : v.Ok := by rw [hsv.img]; exact hok
      have hdv : (v.inode dp).type = .dir := by rw [hcv.img]; exact hdu
      have hfind : findEnt (v.inode dp).ents name 0 = none := by rw [hcv.img]; exact hr.symm
      exact (createNew_wp major minor hokv hv (hs.cached hsv) hdv hfind htype).mono fun r w hw => hw.of_cached hsv hok
    | some r =>
      obtain ⟨ip, off⟩ := r
      have hsip : Safe held s ip := (safe_of_find hoku hu (hs.cached hsu) hdu hr.symm).transfer (by rw [hsu.img]) hsu.holds.symm
      refine (iput_safe_wp (RefsOk.perm hv (List.Perm.swap dp ip held))
        ((hs.cached hsv).mono (count_le_count_cons ..))).bind fun _ w hw => ?_
      refine (ilock_wp hw.2.1 mem_cons_self).bind fun _ x hx => ?_
      have hsx := (hsv.trans hw.1).trans hx.1
      refine readInode_bind ?_
      split
      · exact Made.some hok hsx hx.2.1 hsip hx.2.2.1
      · exact (iput_safe_wp hx.2.1 (hsip.cached hsx)).bind fun _ y hy => Made.none hok (hsx.trans hy.1) hy.2.1

/-- Giving back the inode that was made or found. -/
theorem Made.put_wp (h : Made [] s (Option.some ip) t) : Wp (Allowed P) (iunlockput ip) t fun _ u => Kept s u ∧ u.RefsOk [] :=
  (iput_safe_wp h.refs (h.found ip rfl).1).mono fun _ _ hu => ⟨h.kept.trans (hu.1.kept h.kept.1), hu.2.1⟩

theorem sysMkdir_wp (hok : s.Ok) (h : s.RefsOk []) :
    Wp (Allowed P) (sysMkdir p full path) s fun _ t => Kept s t ∧ t.RefsOk [] := by
  refine (create_wp p path 0 0 hok h IType.noConfusion).bind fun r t ht => ?_
  cases r with
  | none => exact ⟨ht.kept, ht.refs⟩
  | some ip => exact ht.put_wp.bind fun _ u hu => hu

theorem sysMknod_wp (hok : s.Ok) (h : s.RefsOk []) :
    Wp (Allowed P) (sysMknod p full path major minor) s fun _ t => Kept s t ∧ t.RefsOk [] := by
  refine (create_wp p path _ _ hok h IType.noConfusion).bind fun r t ht => ?_
  cases r with
  | none => exact ⟨ht.kept, ht.refs⟩
  | some ip => exact ht.put_wp.bind fun _ u hu => hu

theorem openInode_wp (hok : s.Ok) (h : s.RefsOk []) :
    Wp (Allowed P) (openInode p full path omode) s fun r t => Made [] s r t := by
  unfold openInode
  split
  · exact create_wp p path 0 0 hok h IType.noConfusion
  · refine (namex_wp p path false hok h).bind fun r t ht => ?_
    obtain ⟨-, hc, ht, hsafe⟩ := ht
    cases r with
    | none => exact Made.none hok hc ht
    | some r =>
      obtain ⟨ip, name⟩ := r
      have hs := (hsafe ip name rfl).1
      refine (ilock_wp ht mem_cons_self).bind fun _ u hu => ?_
      have hcu := hc.trans hu.1
      refine readInode_bind ?_
      split
      · exact (iput_safe_wp hu.2.1 (hs.cached hcu)).bind fun _ v hv => Made.none hok (hcu.trans hv.1) hv.2.1
      · exact Made.some hok hcu hu.2.1 hs hu.2.2.1

/-- A file of a slot just taken holds no inode. -/
theorem holding_taken (h : s.RefsOk held) {f : Fin NFILE} (hf : (s.file f).ref = 0) :
    ({ s.file f with ref := 1 } : File).holding = none ∧ (s.file f).holding = none := by
  have htype := h.unused f hf
  have hno : ¬ ((s.file f).type = .inode ∨ (s.file f).type = .device) := by
    rw [htype]
    decide
  exact ⟨if_neg hno, if_neg hno⟩

theorem openFile_wp (h : Made [] s (some ip) t) :
    Wp (Allowed P) (openFile p ip type) t fun _ u => Kept s u ∧ u.RefsOk [] := by
  obtain ⟨hsafe, hvalid⟩ := h.found ip rfl
  refine filealloc_wp.bind fun r u hu => ?_
  obtain ⟨rfl, rfl⟩ | ⟨f, rfl, hzero, rfl⟩ := hu
  · exact h.put_wp.bind fun _ v hv => hv
  · obtain ⟨hnew, hold⟩ := holding_taken h.refs hzero
    have hrefs : (t.withFile f { t.file f with ref := 1 }).RefsOk [ip] := by
      refine RefsOk.withFile h.refs (fun i => by rw [hnew, hold]; rfl) (fun hr => ?_) (fun i hi => ?_) h.refs.alloc
      · cases hr
      · rw [hnew] at hi
        cases hi
    have hone : ({ t.file f with ref := 1 } : File).ref ≠ 0 := Nat.one_ne_zero
    generalize ({ t.file f with ref := 1 } : File) = F at hnew hrefs hone ⊢
    have hself : ((t.withFile f F).file f).holding = none := by rw [State.withFile_file_self]; exact hnew
    refine (fdalloc_wp p).bind fun r u hu => ?_
    obtain ⟨rfl, rfl⟩ | ⟨fd, rfl, rfl⟩ := hu
    · refine (fileclose_wp hrefs).bind fun _ v hv => ?_
      have himg : v.toImage = t.toImage := by
        have hinode : ∀ i, v.inode i = t.inode i := by
          intro i
          rcases hv.freed.inode i with heq | ⟨⟨-, hi, -⟩, -⟩
          · exact heq
          · rw [hself] at hi
            cases hi
        exact Image.ext hv.freed.ninodes (funext hinode)
      have hholds : v.holds = t.holds := by
        funext i
        have := holds_withFile t f F i
        rw [hnew, hold] at this
        rw [hv.holds hself]
        exact Nat.add_right_cancel this
      refine (iput_safe_wp hv.refs (hsafe.transfer (by rw [himg]) hholds)).bind fun _ w hw => ⟨h.kept.trans ?_, hw.2.1⟩
      unfold Kept
      rw [hw.1.img, himg]
      exact ⟨h.kept.1, id⟩
    · refine Wp.bind (R := fun _ v => Kept s v ∧ v.RefsOk []) ?_ fun _ v hv => Wp.pure (Q := fun _ v => Kept s v ∧ v.RefsOk []) hv
      refine modifyFile_wp ⟨h.kept, ?_⟩
      have hfile : ((t.withFile f F).withOfile p fd (some f)).file f = F := t.withFile_file_self f F
      rw [hfile]
      have hnow : ({ F with type := if type = .device then .device else .inode, ip := ip } : File).holding = some ip := by
        refine if_pos ?_
        by_cases hd : type = .device
        · exact .inr (if_pos hd)
        · exact .inl (if_neg hd)
      refine RefsOk.withFile (RefsOk.withOfile hrefs p fd (some f)) (fun i => ?_) (fun hr => absurd hr hone) (fun i hi => ?_) (fun i hi => ?_)
      · rw [hfile, hnow, hnew, count_singleton]
        simp
      · rw [hnow] at hi
        cases hi
        exact ⟨h.refs.alloc ip mem_cons_self, hvalid⟩
      · exact absurd hi not_mem_nil

theorem sysOpen_wp (hok : s.Ok) (h : s.RefsOk []) :
    Wp (Allowed P) (sysOpen p full path omode) s fun _ t => Kept s t ∧ t.RefsOk [] := by
  refine (openInode_wp p path omode hok h).bind fun r t ht => ?_
  cases r with
  | none => exact ⟨ht.kept, ht.refs⟩
  | some ip =>
    refine readInode_bind ?_
    split
    · exact ht.put_wp.bind fun _ u hu => hu
    · exact openFile_wp p ht

/-! ## `sys_link` -/

theorem dirlink_wp (inum : Nat) (hok : s.Ok) (h : s.RefsOk (dp :: held)) (hs : Safe held s dp)
    (hd : (s.inode dp).type = .dir) :
    Wp (Allowed P) (dirlink full dp name inum) s fun r t =>
      r = false ∧ Cached s t ∧ t.RefsOk (dp :: held) ∨
      r = true ∧ isDots name = false ∧ (freeSlot (s.inode dp).ents + 1) * DIRENT ≤ MAXFILE * BSIZE ∧
        t = s.withImg (s.set dp ((s.inode dp).addEnt ⟨inum % 2 ^ 16, name.take DIRSIZ⟩ (s.inode dp).nlink)) := by
  cases hf : findEnt (s.inode dp).ents name 0 with
  | none =>
    refine (dirlink_new_wp hd hf inum).mono fun r t ht => ?_
    rcases ht with ⟨rfl, rfl⟩ | ⟨rfl, hsize, rfl⟩
    · exact .inl ⟨rfl, Cached.refl t, h⟩
    · exact .inr ⟨rfl, isDots_of_none hok hd hf, hsize, rfl⟩
  | some r =>
    obtain ⟨j, off⟩ := r
    refine (dirlookup_wp hok h hd).bind fun r t ht => ?_
    obtain ⟨hr, hc, ht, -⟩ := ht
    rw [hf] at hr
    subst hr
    have hsj := safe_of_find hok h hs hd hf
    refine (iput_safe_wp ht ((hsj.cached hc).mono (count_le_count_cons ..))).bind fun _ u hu => ?_
    exact .inl ⟨rfl, hc.trans hu.1, hu.2.1⟩

theorem raised_toShort (hshort : -2 ^ 15 ≤ n ∧ n < 2 ^ 15) (hwrap : n ≠ -1) : Image.Raised n (toShort (n + 1)) := by
  unfold toShort
  constructor <;> omega

/-- The state in `sys_link` once `ip` has its new count: all else is as before the call. -/
structure Bumped (s t : State) (ip : Nat) : Prop where
  img : t.toImage = s.set ip ((s.inode ip).count (toShort ((s.inode ip).nlink + 1)))
  holds : t.holds = s.holds
  refs : t.RefsOk [ip]

/-- The tree and the counts are kept, exact counts if that of `ip` does not wrap around. -/
def KeptLink (s : State) (ip : Nat) (t : State) : Prop :=
  t.Ok ∧ ((s.inode ip).nlink ≠ 2 ^ 15 - 1 → s.FilesExact → t.FilesExact)

/-- `bad:` takes the new count back. -/
theorem linkBad_wp (hok : s.Ok) (hs : Safe [] s ip) (h : Bumped s t ip) :
    Wp (Allowed P) (linkBad ip) t fun _ u => KeptLink s ip u ∧ u.RefsOk [] := by
  refine (ilock_wp h.refs mem_cons_self).bind fun _ u hu => ?_
  obtain ⟨hc, hu, -, -⟩ := hu
  have himg : u.toImage = s.set ip ((s.inode ip).count (toShort ((s.inode ip).nlink + 1))) := by rw [hc.img, h.img]
  refine Wp.bind (modifyInode_wp (Q := fun _ v => v = u.withImg s.toImage) ?_) ?_
  · have hundo : toShort (toShort ((s.inode ip).nlink + 1) - 1) = (s.inode ip).nlink := by
      have := hok.short ip
      unfold toShort
      omega
    have hback : ({ u.inode ip with nlink := toShort ((u.inode ip).nlink - 1) } : Dinode) = s.inode ip := by
      rw [himg, Image.set_inode_self, Dinode.count_nlink, hundo]
      rfl
    rw [hback, himg, Image.set_set, Image.set_same]
  rintro _ v rfl
  have hrefs := RefsOk.set_of_mem hu mem_cons_self (i := ip) (D := s.inode ip)
    (by rw [himg, Image.set_inode_self, Dinode.count_type])
  rw [himg, Image.set_set, Image.set_same] at hrefs
  have hsafe : Safe [] (u.withImg s.toImage) ip := hs.transfer rfl (hc.holds.trans h.holds)
  refine (iput_safe_wp hrefs hsafe).bind fun _ w hw => ?_
  refine ⟨?_, hw.2.1⟩
  unfold KeptLink
  rw [hw.1.img, State.withImg_img]
  exact ⟨hok, fun _ => id⟩

/-- The new entry is written: both inodes are given back. -/
theorem linkDone_wp (hok : s.Ok) (hwrap : (s.inode ip).nlink ≠ -1) (hip : (s.inode ip).type ≠ .free)
    (hnondir : (s.inode ip).type ≠ .dir) (hd : (s.inode dp).type = .dir) (hs : Safe [ip] s dp) (hdots : isDots name = false)
    (hsize : (freeSlot (s.inode dp).ents + 1) * DIRENT ≤ MAXFILE * BSIZE)
    (himg : t.toImage = (s.set ip ((s.inode ip).count (toShort ((s.inode ip).nlink + 1)))).set dp
      ((s.inode dp).addEnt ⟨ip, name.take DIRSIZ⟩ (s.inode dp).nlink))
    (hholds : t.holds = s.holds) (h : t.RefsOk [dp, ip]) :
    Wp (Allowed P) (do
      iunlockput dp
      iput ip
      pure true : FsM Bool) t fun _ u => KeptLink s ip u ∧ u.RefsOk [] := by
  have hne : ip ≠ dp := by
    rintro rfl
    exact hnondir hd
  have hshort := hok.short ip
  have hraised := raised_toShort hshort hwrap
  have hsdp : Safe [ip] t dp := hs.transfer (by rw [himg, Image.set_inode_self, Dinode.write_nlink]) hholds
  refine (iput_safe_wp h hsdp).bind fun _ u hu => ?_
  have hsip : Safe [] u ip := by
    refine .inl ?_
    rw [hu.1.img, himg, Image.set_inode_ne _ _ hne, Image.set_inode_self, Dinode.count_nlink]
    have := hraised.step
    omega
  refine (iput_safe_wp hu.2.1 hsip).bind fun _ v hv => ⟨?_, hv.2.1⟩
  obtain ⟨hokv, hexact⟩ := hok.link hip hnondir hraised hd (by rw [isDots_take]; exact hdots) hsize
  unfold KeptLink
  rw [hv.1.img, hu.1.img, himg]
  refine ⟨hokv, fun hmax hf => hexact ?_ hf⟩
  have hnlink := hf ip hip hnondir
  rw [toShort_eq (by omega) (by omega)]
  omega

theorem linkTo_wp (new : List Char) (hok : s.Ok) (hs : Safe [] s ip) (hwrap : (s.inode ip).nlink ≠ -1)
    (hip : (s.inode ip).type ≠ .free) (hnondir : (s.inode ip).type ≠ .dir) (h : Bumped s t ip) :
    Wp (Allowed P) (linkTo p full new ip) t fun _ u => KeptLink s ip u ∧ u.RefsOk [] := by
  have hokt : t.Ok := by rw [h.img]; exact hok.bump hnondir (raised_toShort (hok.short ip) hwrap)
  refine (namex_wp p new true hokt h.refs).bind fun r u hu => ?_
  obtain ⟨-, hc, hu, hsafe⟩ := hu
  have hbump : ∀ {v : State}, Cached t v → v.RefsOk [ip] → Bumped s v ip := fun hcv hv =>
    ⟨hcv.img.trans h.img, hcv.holds.trans h.holds, hv⟩
  cases r with
  | none => exact linkBad_wp hok hs (hbump hc hu)
  | some r =>
    obtain ⟨dp, name⟩ := r
    obtain ⟨hsdp, hd⟩ := hsafe dp name rfl
    refine (ilock_wp hu mem_cons_self).bind fun _ v hv => ?_
    have hcv := hc.trans hv.1
    have hdv : (v.inode dp).type = .dir := by rw [hcv.img]; exact hd rfl
    refine (dirlink_wp ip (by rw [hcv.img]; exact hokt) hv.2.1 (hsdp.cached hcv) hdv).bind fun r w hw => ?_
    rcases hw with ⟨rfl, hcw, hw⟩ | ⟨rfl, hdots, hsize, rfl⟩
    · refine (iput_safe_wp hw (hsdp.cached (hcv.trans hcw))).bind fun _ x hx => ?_
      exact linkBad_wp hok hs (hbump ((hcv.trans hcw).trans hx.1) hx.2.1)
    · have hvimg : v.toImage = s.set ip ((s.inode ip).count (toShort ((s.inode ip).nlink + 1))) := by rw [hcv.img, h.img]
      have hne : dp ≠ ip := by
        rintro rfl
        rw [hvimg, Image.set_inode_self] at hdv
        exact hnondir hdv
      have hdp : v.inode dp = s.inode dp := by rw [hvimg, Image.set_inode_ne _ _ hne]
      rw [hdp] at hdv hsize ⊢
      have hipt := hok.bound ip hip
      have hushort := hok.ushort
      rw [Nat.mod_eq_of_lt (by omega), hvimg]
      have hsdps : Safe [ip] s dp := hsdp.transfer (by rw [h.img, Image.set_inode_ne _ _ hne]) h.holds.symm
      refine linkDone_wp hok hwrap hip hnondir hdv hsdps hdots hsize rfl (hcv.holds.trans h.holds) ?_
      rw [← hvimg]
      exact RefsOk.set_of_mem hv.2.1 mem_cons_self (by rw [hdp, Dinode.write_type])

theorem sysLink_wp (old new : List Char) (hok : s.Ok) (h : s.RefsOk [])
    (hwrap : ∀ ip name, s.resolve p old false = some (ip, name) → (s.inode ip).type ≠ .free →
      (s.inode ip).type ≠ .dir → (s.inode ip).nlink ≠ -1) :
    Wp (Allowed P) (sysLink p full old new) s fun _ t =>
      (Kept s t ∨ ∃ ip name, s.resolve p old false = some (ip, name) ∧ (s.inode ip).type ≠ .dir ∧ KeptLink s ip t) ∧
        t.RefsOk [] := by
  refine (namex_wp p old false hok h).bind fun r t ht => ?_
  obtain ⟨hr, hc, ht, hsafe⟩ := ht
  cases r with
  | none => exact ⟨.inl (hc.kept hok), ht⟩
  | some r =>
    obtain ⟨ip, name⟩ := r
    have hs := (hsafe ip name rfl).1
    have hip : (s.inode ip).type ≠ .free := by
      have := ht.alloc ip mem_cons_self
      rw [hc.img] at this
      exact this
    refine (ilock_wp ht mem_cons_self).bind fun _ u hu => ?_
    have hcu := hc.trans hu.1
    refine readInode_bind ?_
    rw [hcu.img]
    split
    · exact (iput_safe_wp hu.2.1 (hs.cached hcu)).bind fun _ v hv => ⟨.inl ((hcu.trans hv.1).kept hok), hv.2.1⟩
    · next hnondir =>
      refine Wp.bind (modifyInode_wp (Q := fun _ v => Bumped s v ip) ?_) fun _ v hv =>
        (linkTo_wp p new hok hs (hwrap ip name hr.symm hip hnondir) hip hnondir hv).mono
          fun _ w hw => ⟨.inr ⟨ip, name, hr.symm, hnondir, hw.1⟩, hw.2⟩
      have hcount : ({ u.inode ip with nlink := toShort ((u.inode ip).nlink + 1) } : Dinode) =
          (s.inode ip).count (toShort ((s.inode ip).nlink + 1)) := by
        rw [hcu.img]
        rfl
      rw [hcount]
      exact ⟨by rw [hcu.img, State.withImg_img], hcu.holds, RefsOk.set_of_mem hu.2.1 mem_cons_self (by rw [hcu.img, Dinode.count_type])⟩

end FsAux

end Xv6.Fs
