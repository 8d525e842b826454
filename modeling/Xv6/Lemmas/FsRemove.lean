import Xv6.Lemmas.FsCreate

/-!
# The calls that give inodes up

`sys_chdir`, `sys_close` and `kexit` give back references and free what has no links and no other use; `sys_unlink` takes a link away
first. Each lemma says which inodes the call may free.
-/

namespace Xv6.Fs

open Lib Function List

namespace FsAux

variable {P : Prop} {held : List Nat} {s t : State} {ip dp i j : Nat} {name : Name} {p : Fin NPROC} {img : Image} {off : Nat}
  {c : Prop} {X : Nat → Prop} {e : Dirent} (path : List Char)

/-- All that may happen to the image is that inodes of `X` are freed. -/
structure FreesOnly (X : Nat → Prop) (s t : State) : Prop where
  refs : t.RefsOk []
  freed : s.Freed X t.toImage

theorem FreesOnly.of_cached (hc : Cached s t) (h : t.RefsOk []) : FreesOnly X s t :=
  ⟨h, by rw [hc.img]; exact .refl _⟩

/-- A process without a current directory does not get past `iput(p->cwd)`. -/
theorem putCwd_null_wp {α : Type} {f : Unit → FsM α} {Q : α → State → Prop} (h : s.cwd p = none) :
    Wp (Allowed P) (putCwd p >>= f) s Q := by
  have herr : putCwd p s = .error .nullCwd := by rw [putCwd, h]
  refine Wp.bind (R := fun _ _ => False) ?_ fun _ _ hf => hf.elim
  unfold Wp
  rw [herr]
  exact ⟨Panic.noConfusion, fun _ => Panic.noConfusion⟩

/-- The process enters `ip` when it has left its old directory. -/
theorem enter (h : s.RefsOk [ip]) {old : Nat} (hcwd : s.cwd p = some old) (hd : (s.inode ip).type = .dir) (hv : s.valid ip = true)
    {w : State} (hw : Put [ip] (s.withCwd p none) w old) (hwcwd : w.cwd p = none) :
    FreesOnly (fun D => D = old ∧ s.holds D = 1 ∧ D ∉ [ip]) s (w.withCwd p (some ip)) := by
  have hsafe : ip = old → Safe [ip] (s.withCwd p none) old := by
    rintro rfl
    refine .inr ?_
    rw [count_cons_self]
    omega
  have hfreed := Put.freed_cwd h hcwd hw
  have hip : w.inode ip = s.inode ip := by
    rcases hfreed.inode ip with heq | ⟨⟨-, -, hne⟩, -⟩
    · exact heq
    · exact absurd mem_cons_self hne
  refine ⟨RefsOk.withCwd hw.refs (fun i => ?_) (fun i hi => ?_) (fun i hi => absurd hi not_mem_nil), hfreed⟩
  · rw [hwcwd, count_singleton]
    simp
  · cases hi
    rw [hip]
    exact ⟨hd, (hw.valid ip hsafe).trans hv⟩

theorem sysChdir_wp (hok : s.Ok) (h : s.RefsOk []) :
    Wp (Allowed P) (sysChdir p path) s fun _ t => FreesOnly (fun D => s.cwd p = some D ∧ (s.inode D).nlink = 0 ∧ s.ref D = 1 ∧
      ∃ ip name, s.resolve p path false = some (ip, name) ∧ (s.inode ip).type = .dir ∧ ip ≠ D) s t := by
  refine (namex_wp p path false hok h).bind fun r t ht => ?_
  obtain ⟨hr, hc, ht, hsafe⟩ := ht
  cases r with
  | none => exact FreesOnly.of_cached hc ht
  | some r =>
    obtain ⟨ip, name⟩ := r
    have hs := (hsafe ip name rfl).1
    refine (ilock_wp ht mem_cons_self).bind fun _ u hu => ?_
    obtain ⟨hcu, hu, hvalid, -⟩ := hu
    have hsu := hc.trans hcu
    refine readInode_bind ?_
    by_cases hd : (u.inode ip).type = .dir
    · rw [if_neg (not_not.2 hd)]
      cases hcwd : u.cwd p with
      | none => exact putCwd_null_wp hcwd
      | some old =>
        refine (putCwd_wp hu hcwd).bind fun _ w hw => Wp.then_pure (setCwd_wp ?_)
        have henter := enter hu hcwd hd hvalid hw (by rw [State.withCwd_cwd, update_self])
        rw [State.withCwd_withCwd] at henter
        have hfreed := henter.freed
        rw [hsu.img] at hfreed hd
        refine ⟨henter.refs, hfreed.of_freed fun D ht hn ht' => ?_⟩
        obtain ⟨rfl, hone, hne⟩ := hfreed.mem ht ht'
        refine ⟨by rw [← hsu.cwd]; exact hcwd, hn, ?_, ip, name, hr.symm, hd, ?_⟩
        · rw [h.ref, ← hsu.holds, hone]
          rfl
        · rintro rfl
          exact hne mem_cons_self
    · rw [if_pos hd]
      exact (iput_safe_wp hu (hs.cached hsu)).bind fun _ v hv => FreesOnly.of_cached (hsu.trans hv.1) hv.2.1

/-- What closing the descriptors `fds` of process `p` leaves: each takes a reference from its file, and a file without references
holds nothing. -/
structure Left (p : Fin NPROC) (fds : List (Fin NOFILE)) (s t : State) : Prop where
  cwd : t.cwd = s.cwd
  ofile : ∀ fd, fd ∉ fds → t.ofile p fd = s.ofile p fd
  ref : ∀ g, (s.file g).ref = (t.file g).ref + fds.countP fun fd => s.ofile p fd = some g
  holding : ∀ g i, (t.file g).holding = some i ↔ (s.file g).holding = some i ∧ 0 < (t.file g).ref
  frees : FreesOnly (fun _ => True) s t

theorem ref_of_holding (h : s.RefsOk held) {g : Fin NFILE} (hg : (s.file g).holding = some i) : 0 < (s.file g).ref := by
  by_contra hzero
  have htype := h.unused g (by omega)
  unfold File.holding at hg
  rw [htype, if_neg (by decide)] at hg
  cases hg

theorem Left.nil (h : s.RefsOk []) : Left p [] s s :=
  ⟨rfl, fun _ _ => rfl, fun _ => rfl, fun _ _ => ⟨fun hg => ⟨hg, ref_of_holding h hg⟩, fun hg => hg.1⟩, h, .refl _⟩

/-- One descriptor and then others. -/
theorem Left.cons {fd : Fin NOFILE} {fds : List (Fin NOFILE)} {u : State} (h : Left p [fd] s t) (h' : Left p fds t u) (hfd : fd ∉ fds) :
    Left p (fd :: fds) s u := by
  refine ⟨h'.cwd.trans h.cwd, fun fd' hfd' => ?_, fun g => ?_, fun g i => ?_, h'.frees.refs, h.frees.freed.trans h'.frees.freed⟩
  · rw [mem_cons, not_or] at hfd'
    rw [h'.ofile fd' hfd'.2, h.ofile fd' (by simpa using hfd'.1)]
  · have hsame : fds.countP (fun fd => t.ofile p fd = some g) = fds.countP fun fd => s.ofile p fd = some g := by
      refine countP_congr fun fd' hmem => ?_
      rw [h.ofile fd' fun heq => hfd (mem_singleton.1 heq ▸ hmem)]
    have h1 := h.ref g
    have h2 := h'.ref g
    rw [hsame] at h2
    rw [countP_cons]
    rw [countP_cons, countP_nil] at h1
    omega
  · rw [h'.holding, h.holding]
    have h2 := h'.ref g
    constructor
    · exact fun hg => ⟨hg.1.1, hg.2⟩
    · exact fun hg => ⟨⟨hg.1, by omega⟩, hg.2⟩

theorem ofile_withOfile_ne {fd fd' : Fin NOFILE} {g : Option (Fin NFILE)} (h : fd' ≠ fd) :
    (s.withOfile p fd g).ofile p fd' = s.ofile p fd' := by
  unfold State.withOfile
  simp only
  rw [update_self, update_of_ne h]

theorem sysClose_wp (fd : Fin NOFILE) (h : s.RefsOk []) :
    Wp (Allowed P) (sysClose p fd) s fun _ t => Left p [fd] s t ∧ FreesOnly (fun D => (s.inode D).nlink = 0 ∧ s.ref D = 1 ∧
      ∃ f, s.ofile p fd = some f ∧ (s.file f).ref = 1 ∧ (s.file f).holding = some D) s t := by
  refine Wp.bind (R := fun f t => f = s.ofile p fd ∧ t = s) ⟨rfl, rfl⟩ ?_
  rintro f t ⟨hf, rfl⟩
  cases f with
  | none =>
    refine ⟨⟨rfl, fun _ _ => rfl, fun g => ?_, (Left.nil (p := p) h).holding, h, .refl _⟩, h, .refl _⟩
    rw [countP_cons, countP_nil, ← hf]
    simp
  | some f =>
    refine (setOfile_wp (Q := fun _ u => u = t.withOfile p fd none) rfl).bind ?_
    rintro _ u rfl
    refine Wp.then_pure (P := fun v => Left p [fd] t v ∧ FreesOnly _ t v)
      ((fileclose_wp (RefsOk.withOfile h p fd none)).mono fun _ v hv => ?_)
    refine ⟨⟨hv.cwd, fun fd' hfd' => ?_, fun g => ?_, fun g i => ?_, hv.refs, hv.freed.mono fun _ _ => trivial⟩, hv.refs, ?_⟩
    · rw [hv.ofile]
      exact ofile_withOfile_ne (by simpa using hfd')
    · rw [countP_cons, countP_nil, ← hf]
      by_cases hg : g = f
      · subst hg
        have := hv.ref
        simpa using this.symm
      · have heq : v.file g = t.file g := hv.others g hg
        rw [heq]
        simpa using Ne.symm hg
    · by_cases hg : g = f
      · subst hg
        have hsome : (v.file g).holding = some i → 0 < (v.file g).ref := ref_of_holding hv.refs
        rcases hv.holding with heq | ⟨hzero, hnone⟩
        · constructor
          · exact fun hi => ⟨heq ▸ hi, hsome hi⟩
          · exact fun hi => heq ▸ hi.1
        · rw [hnone, hzero]
          simp
      · have heq : v.file g = t.file g := hv.others g hg
        rw [heq]
        exact (Left.nil h (p := p)).holding g i
    · exact hv.freed.of_freed fun D ht hn ht' => by
        obtain ⟨hone, hD, href⟩ := hv.freed.mem ht ht'
        exact ⟨hn, href, f, hf.symm, hone, hD⟩

/-- The loop of `kexit`. -/
theorem closeAll_wp (fds : List (Fin NOFILE)) (hnodup : fds.Nodup) (h : s.RefsOk []) :
    Wp (Allowed P) (closeAll p fds) s fun _ t => Left p fds s t := by
  induction fds generalizing s with
  | nil => exact Left.nil h
  | cons fd fds ih =>
    refine (sysClose_wp fd h).bind fun _ t ht => ?_
    exact (ih (nodup_cons.1 hnodup).2 ht.1.frees.refs).mono fun _ u hu => ht.1.cons hu (nodup_cons.1 hnodup).1

/-- Every use of `D` is one of process `p`, and goes with it. -/
def OwnedBy (s : State) (p : Fin NPROC) (D : Nat) : Prop :=
  (∀ q, s.cwd q = some D → q = p) ∧
    ∀ f, (s.file f).holding = some D → (s.file f).ref = (List.finRange NOFILE).countP fun fd => s.ofile p fd = some f

/-- `kexit` frees the inodes without links that only the process uses. -/
theorem kexit_wp (h : s.RefsOk []) :
    Wp (Allowed P) (kexit p) s fun _ t => FreesOnly (fun D => (s.inode D).nlink = 0 ∧ OwnedBy s p D) s t ∧
      ∀ E, (s.inode E).nlink = 0 → OwnedBy s p E → (t.inode E).type = .free := by
  refine (closeAll_wp _ (nodup_finRange NOFILE) h).bind fun _ t ht => ?_
  cases hcwd : t.cwd p with
  | none => exact putCwd_null_wp hcwd
  | some old =>
    refine (putCwd_wp ht.frees.refs hcwd).bind fun _ w hw => setCwd_wp ?_
    have hfreed := ht.frees.freed.trans ((Put.freed_cwd ht.frees.refs hcwd hw).mono fun _ _ => trivial)
    have hother : ∀ q, q ≠ p → (w.withCwd p none).cwd q = s.cwd q := by
      intro q hq
      rw [hw.cwd, State.withCwd_cwd, update_of_ne hq, ht.cwd]
    have hfile : (w.withCwd p none).file = t.file := hw.file
    have hnone : (w.withCwd p none).cwd p = none := by rw [State.withCwd_cwd, update_self]
    generalize w.withCwd p none = v at *
    refine ⟨⟨hw.refs, hfreed.of_freed fun D ht' hn hfree => ⟨hn, fun q hq => ?_, fun f hf => ?_⟩⟩, fun E hn hown => ?_⟩
    · by_contra hqp
      have := hw.refs.cwd q D ((hother q hqp).trans hq)
      rw [hfree] at this
      cases this
    · by_contra hne
      have href := ht.ref f
      have hhold := hw.refs.file f D (by rw [hfile]; exact (ht.holding f D).2 ⟨hf, by omega⟩)
      exact hhold hfree
    · by_contra halloc
      have horphan := hw.refs.orphan E halloc (by rw [hfreed.inode_eq halloc]; exact hn)
      rw [count_nil, Nat.add_zero] at horphan
      rcases exists_holder horphan with ⟨q, hq⟩ | ⟨f, hf⟩
      · by_cases hqp : q = p
        · rw [hqp, hnone] at hq
          cases hq
        · rw [hother q hqp] at hq
          exact hqp (hown.1 q hq)
      · rw [hfile, ht.holding] at hf
        have href := ht.ref f
        rw [hown.2 f hf.1] at href
        omega

/-! ## `sys_unlink` -/

/-- The image with the entry at `off + 2` of `dp` cleared and the links of `dp` and `ip` no longer counted. -/
def unlinked (img : Image) (dp ip off : Nat) : Image :=
  (img.set dp ((img.inode dp).write (off + 2) ⟨0, []⟩
    ((img.inode dp).nlink - if (img.inode ip).type = .dir then 1 else 0))).set ip
    ((img.inode ip).count ((img.inode ip).nlink - 1))

/-- An inode freed if a condition holds. -/
def freeIf (c : Prop) [Decidable c] (i : Nat) (img : Image) : Image := if c then img.free i else img

theorem Put.freeIf (h : Put held s t i) (hi : i ∉ held) :
    t.toImage = FsAux.freeIf ((s.inode i).nlink = 0 ∧ s.holds i = 0) i s.toImage := by
  unfold FsAux.freeIf
  rcases h.img with ⟨hs, himg⟩ | ⟨hs, himg⟩
  · rw [if_neg, himg]
    rintro ⟨hn, hh⟩
    exact not_safe_iff.2 ⟨hn, hh, hi⟩ hs
  · obtain ⟨hn, hh, -⟩ := not_safe_iff.1 hs
    rw [if_pos ⟨hn, hh⟩, himg]

theorem freeIf_inode_ne [Decidable c] (h : j ≠ i) : (freeIf c i img).inode j = img.inode j := by
  unfold freeIf
  split
  · exact img.set_inode_ne _ h
  · rfl

theorem freeIf_set [Decidable c] {D : Dinode} (h : i ≠ j) :
    (freeIf c i img).set j D = freeIf c i (img.set j D) := by
  unfold freeIf Image.free
  split
  · rw [Image.set_comm _ _ _ _ _ h, Image.set_inode_ne _ _ h]
  · rfl

/-- The link of the `..` of a removed directory is no longer counted. -/
theorem uncountSubdir_wp {type : IType} (himg : s.toImage = img.set dp ((img.inode dp).write off ⟨0, []⟩
      (img.inode dp).nlink)) (hlow : 0 ≤ (img.inode dp).nlink) (hshort : (img.inode dp).nlink < 2 ^ 15) :
    Wp (Allowed P) (uncountSubdir dp type) s fun _ t => t = s.withImg (img.set dp ((img.inode dp).write off ⟨0, []⟩
      ((img.inode dp).nlink - if type = .dir then 1 else 0))) := by
  unfold uncountSubdir
  split
  · refine modifyInode_wp ?_
    rw [himg, Image.set_inode_self, Image.set_set, Dinode.write_nlink, toShort_eq (by omega) (by omega)]
    rfl
  · rw [Int.sub_zero, ← himg]
    exact Wp.pure rfl

/-- The last steps of `sys_unlink`: the directory is given back, then the inode without the link. -/
theorem unlinkDone_wp (hne : dp ≠ ip) (himg : s.toImage = img) (h : s.RefsOk [ip, dp]) (hvdp : s.valid dp = true)
    (hvip : s.valid ip = true) (hlow : 0 ≤ (img.inode ip).nlink) (hshort : (img.inode ip).nlink < 2 ^ 15) :
    Wp (Allowed P) (do
      iunlockput dp
      modifyInode ip fun e => { e with nlink := toShort (e.nlink - 1) }
      iunlockput ip
      pure true : FsM Bool) s fun _ t => t.RefsOk [] ∧
        t.toImage = freeIf ((img.inode ip).nlink - 1 = 0 ∧ s.holds ip = 0) ip
          (freeIf ((img.inode dp).nlink = 0 ∧ s.holds dp = 0) dp (img.set ip ((img.inode ip).count ((img.inode ip).nlink - 1)))) := by
  subst himg
  refine (iput_wp (RefsOk.perm h (List.Perm.swap dp ip [])) fun _ => hvdp).bind fun _ t ht => ?_
  have htimg := ht.freeIf (by simpa using hne)
  have hip : t.inode ip = s.inode ip := by rw [htimg, freeIf_inode_ne (Ne.symm hne)]
  refine Wp.bind (modifyInode_wp (Q := fun _ u => u = t.withImg (t.set ip ((s.inode ip).count
    ((s.inode ip).nlink - 1)))) ?_) ?_
  · rw [hip, toShort_eq (by omega) (by omega)]
    rfl
  rintro _ u rfl
  have hrefs := RefsOk.set_of_mem ht.refs mem_cons_self (i := ip) (D := (s.inode ip).count ((s.inode ip).nlink - 1))
    (by rw [hip, Dinode.count_type])
  have hvalid : t.valid ip = true := (ht.valid ip fun heq => absurd heq.symm hne).trans hvip
  refine (iput_wp hrefs fun _ => hvalid).bind fun _ v hv => ⟨hv.refs, ?_⟩
  rw [hv.freeIf not_mem_nil, State.withImg_img, Image.set_inode_self, Dinode.count_nlink, State.withImg_holds, ht.holds, htimg,
    freeIf_set hne]

/-- The entry is removed: the directory and the inode are given back. -/
theorem unlinkFound_wp (hok : s.Ok) (h : s.RefsOk [e.inum, dp]) (hd : (s.inode dp).type = .dir)
    (hsdp : Safe [] s dp) (hvalid : s.valid dp = true) (he : (s.inode dp).regular[off]? = some e) (hne : e.inum ≠ 0) :
    Wp (Allowed s.FilesExact) (unlinkFound dp e.inum (off + 2)) s fun _ t => t.RefsOk [] ∧ (t.toImage = s.toImage ∨
      1 ≤ (s.inode e.inum).nlink ∧ ((s.inode e.inum).type = .dir → isdirempty (s.inode e.inum) = true) ∧
      t.toImage = freeIf ((s.inode e.inum).nlink - 1 = 0 ∧ s.holds e.inum = 0) e.inum
        (freeIf ((s.inode dp).nlink - (if (s.inode e.inum).type = .dir then 1 else 0) = 0 ∧ s.holds dp = 0) dp
          (unlinked s.toImage dp e.inum off))) := by
  have hmem : e ∈ (s.inode dp).regular := mem_of_getElem? he
  refine (ilock_wp h mem_cons_self).bind fun _ t ht => ?_
  obtain ⟨hc, ht, hvip, hvkeep⟩ := ht
  refine readInode_bind ?_
  rw [hc.img]
  split
  · next hlt =>
    refine ⟨Panic.noConfusion, fun hf => ?_⟩
    have hnonneg := hok.nlink_nonneg_of_exact hf (hok.regular dp e hmem hne).1
    have hnonzero := nlink_of_mem hok hmem hne
    omega
  next hpos =>
  split
  · -- a directory with entries is not removed
    have hsip : Safe [dp] t e.inum := .inl (by rw [hc.img]; exact nlink_of_mem hok hmem hne)
    refine (iput_safe_wp ht hsip).bind fun _ u hu => ?_
    refine (iput_safe_wp hu.2.1 (hsdp.cached (hc.trans hu.1))).bind fun _ v hv => ?_
    exact ⟨hv.2.1, .inl ((hc.trans hu.1).trans hv.1).img⟩
  · next hempty =>
    have hdirempty : (s.inode e.inum).type = .dir → isdirempty (s.inode e.inum) = true := by
      intro hdir
      by_contra hfull
      exact hempty ⟨hdir, Bool.eq_false_iff.2 hfull⟩
    have hdpne : dp ≠ e.inum := by
      intro heq
      rw [heq] at hd hmem
      have := all_eq_true.1 (hdirempty hd) e hmem
      exact hne (beq_iff_eq.1 this)
    have hdplow := hok.nlink_nonneg hd
    refine (modifyInode_wp (Q := fun _ u => u = t.withImg (s.set dp ((s.inode dp).write (off + 2) ⟨0, []⟩
      (s.inode dp).nlink))) (by rw [hc.img]; rfl)).bind ?_
    rintro _ u rfl
    refine (uncountSubdir_wp (State.withImg_img ..) hdplow (hok.short dp).2).bind ?_
    rintro _ u rfl
    rw [State.withImg_withImg]
    generalize hA : s.set dp ((s.inode dp).write (off + 2) ⟨0, []⟩
      ((s.inode dp).nlink - if (s.inode e.inum).type = .dir then 1 else 0)) = A
    have hrefs : (t.withImg A).RefsOk [e.inum, dp] := by
      rw [← hA, ← hc.img]
      exact RefsOk.set_of_mem ht (mem_cons_of_mem _ mem_cons_self) (Dinode.write_type ..)
    have hAip : A.inode e.inum = s.inode e.inum := by rw [← hA, Image.set_inode_ne _ _ (Ne.symm hdpne)]
    have hAdp : (A.inode dp).nlink = (s.inode dp).nlink - if (s.inode e.inum).type = .dir then 1 else 0 := by
      rw [← hA, Image.set_inode_self, Dinode.write_nlink]
    refine (unlinkDone_wp hdpne (State.withImg_img ..) hrefs (hvkeep dp hvalid) hvip (by rw [hAip]; omega)
      (by rw [hAip]; exact (hok.short _).2)).mono fun _ v hv => ⟨hv.1, .inr ⟨by omega, hdirempty, ?_⟩⟩
    rw [hv.2, hAip, hAdp, State.withImg_holds, State.withImg_holds, hc.holds, ← hA]
    rfl

/-- What `sys_unlink` found when it removes an entry. -/
structure Found (s : State) (p : Fin NPROC) (path : List Char) (dp off : Nat) (e : Dirent) : Prop where
  victim : ∃ name, s.resolve p path true = some (dp, name) ∧ isDots name = false ∧
    findEnt (s.inode dp).ents name 0 = some (e.inum, off + 2)
  dir : (s.inode dp).type = .dir
  safe : Safe [] s dp
  entry : (s.inode dp).regular[off]? = some e
  ne : e.inum ≠ 0
  pos : 1 ≤ (s.inode e.inum).nlink
  empty : (s.inode e.inum).type = .dir → isdirempty (s.inode e.inum) = true

/-- An entry with a name other than `.` and `..` is after them. -/
theorem find_regular (hok : s.Ok) (hd : (s.inode dp).type = .dir) (hdots : isDots name = false)
    (hf : findEnt (s.inode dp).ents name 0 = some (ip, off)) :
    ∃ k e, off = k + 2 ∧ (s.inode dp).regular[k]? = some e ∧ e.inum = ip ∧ ip ≠ 0 := by
  obtain ⟨ents, hents, hreg, -⟩ := hok.dotdot_eq hd
  obtain ⟨e, he, -, heq, hne, hcmp⟩ := findEnt_some hf
  simp only [isDots, Bool.or_eq_false_iff, beq_eq_false_iff_ne] at hdots
  rw [hents] at he
  rcases off with _ | _ | k
  · cases he
    exact absurd hcmp hdots.1
  · cases he
    exact absurd hcmp hdots.2
  · exact ⟨k, e, rfl, by rw [hreg]; exact he, heq, hne⟩

theorem sysUnlink_wp (hok : s.Ok) (h : s.RefsOk []) :
    Wp (Allowed s.FilesExact) (sysUnlink p path) s fun _ t => t.RefsOk [] ∧ (t.toImage = s.toImage ∨ ∃ dp off e, Found s p path dp off e ∧
      t.toImage = freeIf ((s.inode e.inum).nlink - 1 = 0 ∧ s.holds e.inum = 0) e.inum
        (freeIf ((s.inode dp).nlink - (if (s.inode e.inum).type = .dir then 1 else 0) = 0 ∧ s.holds dp = 0) dp
          (unlinked s.toImage dp e.inum off))) := by
  refine (namex_wp p path true hok h).bind fun r t ht => ?_
  obtain ⟨hr, hc, ht, hsafe⟩ := ht
  cases r with
  | none => exact ⟨ht, .inl hc.img⟩
  | some r =>
    obtain ⟨dp, name⟩ := r
    obtain ⟨hs, hd⟩ := hsafe dp name rfl
    refine (ilock_wp ht mem_cons_self).bind fun _ u hu => ?_
    obtain ⟨hcu, hu, hvalid, -⟩ := hu
    have hsu := hc.trans hcu
    by_cases hdots : isDots name = true
    · rw [if_pos hdots]
      exact (iput_safe_wp hu (hs.cached hsu)).bind fun _ v hv => ⟨hv.2.1, .inl (hsu.trans hv.1).img⟩
    · rw [if_neg hdots]
      have hoku : u.Ok := by rw [hsu.img]; exact hok
      have hdu : (u.inode dp).type = .dir := by rw [hsu.img]; exact hd rfl
      refine (dirlookup_wp hoku hu hdu).bind fun r v hv => ?_
      obtain ⟨hfind, hcv, hv, hvkeep⟩ := hv
      have hsv := hsu.trans hcv
      cases r with
      | none => exact (iput_safe_wp hv (hs.cached hsv)).bind fun _ w hw => ⟨hw.2.1, .inl (hsv.trans hw.1).img⟩
      | some r =>
        obtain ⟨ip, off⟩ := r
        rw [hsu.img] at hfind hdu
        have hnodots := Bool.eq_false_iff.2 hdots
        obtain ⟨k, e, rfl, he, rfl, hne⟩ := find_regular hok hdu hnodots hfind.symm
        have hvdp : v.valid dp = true := by
          rw [hvkeep dp (RefsOk.ref_pos hu mem_cons_self)]
          exact hvalid
        have hfound := unlinkFound_wp (by rw [hsv.img]; exact hok) hv (by rw [hsv.img]; exact hdu) (hs.cached hsv) hvdp
          (by rw [hsv.img]; exact he) hne
        rw [hsv.img, hsv.holds] at hfound
        refine hfound.mono fun _ w hw => ⟨hw.1, ?_⟩
        rcases hw.2 with himg | ⟨hpos, hempty, himg⟩
        · exact .inl himg
        · exact .inr ⟨dp, k, e, ⟨⟨name, hr.symm, hnodots, hfind.symm⟩, hdu, hs, he, hne, hpos, hempty⟩, himg⟩

namespace Found

variable {path : List Char} {off : Nat} {e : Dirent} (h : Found s p path dp off e) (hok : s.Ok)

include h

theorem mem : e ∈ (s.inode dp).regular := mem_of_getElem? h.entry

theorem victim_eq (full : Nat → Bool) : s.victim ⟨p, full, .unlink path⟩ = some (dp, e.inum) := by
  obtain ⟨name, hr, hdots, hf⟩ := h.victim
  simp only [State.victim, hr, Option.bind_some, hdots, Bool.false_eq_true, if_false, hf, Option.map_some]

theorem isempty (hdir : (s.inode e.inum).type = .dir) : ∀ x ∈ (s.inode e.inum).regular, x.inum = 0 :=
  fun x hx => beq_iff_eq.1 (all_eq_true.1 (h.empty hdir) x hx)

theorem dp_ne : dp ≠ e.inum := by
  intro heq
  have hdir := h.dir
  rw [heq] at hdir
  exact h.ne (h.isempty hdir e (heq ▸ h.mem))

include hok in
/-- An empty directory that an entry names has that link only. -/
theorem nlink_dir (hdir : (s.inode e.inum).type = .dir) : (s.inode e.inum).nlink = 1 := by
  have hone := hok.once e.inum hdir
  have hpos := hok.entries_pos h.mem
  have hsubs : s.subs e.inum = 0 := by
    refine countP_eq_zero.2 fun x hx => ?_
    rw [decide_eq_true_eq, h.isempty hdir x hx, hok.zero]
    decide
  rw [hok.counts.dir e.inum hdir]
  unfold Image.links
  omega

/-- The directory itself loses its last link only with a subdirectory. -/
theorem dir_of_last (hn : (s.inode dp).nlink - (if (s.inode e.inum).type = .dir then 1 else 0) = 0) (hh : s.holds dp = 0) :
    (s.inode e.inum).type = .dir ∧ (s.inode dp).nlink = 1 := by
  by_cases hdir : (s.inode e.inum).type = .dir
  · rw [if_pos hdir] at hn
    exact ⟨hdir, by omega⟩
  · rw [if_neg hdir] at hn
    rcases h.safe with hs | hs
    · omega
    · rw [count_nil] at hs
      omega

end Found

theorem unlinked_dotdot (hok : s.Ok) (hd : (s.inode dp).type = .dir) (ip off E : Nat) :
    ((unlinked s.toImage dp ip off).inode E).dotdot = (s.inode E).dotdot := by
  have hcount : ∀ (img : Image) (n : Int), ((img.set ip ((s.inode ip).count n)).inode E).dotdot =
      if E = ip then (s.inode ip).dotdot else (img.inode E).dotdot := by
    intro img n
    by_cases hE : E = ip
    · rw [if_pos hE, hE, Image.set_inode_self]
      rfl
    · rw [if_neg hE, Image.set_inode_ne _ _ hE]
  unfold unlinked
  rw [hcount]
  by_cases hE : E = ip
  · rw [if_pos hE, hE]
  · rw [if_neg hE]
    by_cases hEd : E = dp
    · subst hEd
      obtain ⟨ents, hents, -, -⟩ := hok.dotdot_eq hd
      rw [Image.set_inode_self, Dinode.dotdot, Dinode.write_ents, hents]
      rfl
    · rw [Image.set_inode_ne _ _ hEd]

theorem unlinked_type (s : State) (dp ip off j : Nat) : ((unlinked s.toImage dp ip off).inode j).type = (s.inode j).type := by
  have hwrite : ∀ j, ((s.set dp ((s.inode dp).write (off + 2) ⟨0, []⟩
      ((s.inode dp).nlink - if (s.inode ip).type = .dir then 1 else 0))).inode j).type = (s.inode j).type :=
    fun j => Image.type_set (Dinode.write_type ..)
  unfold unlinked
  rw [Image.type_set (by rw [Dinode.count_type, hwrite]), hwrite]

theorem freeIf_type [Decidable c] (hc : c) (i : Nat) (img : Image) : ((freeIf c i img).inode i).type = .free := by
  unfold freeIf
  rw [if_pos hc]
  exact congrArg Dinode.type (img.set_inode_self ..)

theorem freed_freeIf [Decidable c] (hX : c → X i) (ht : (img.inode i).type ≠ .free)
    (hn : c → (img.inode i).nlink = 0) : img.Freed X (freeIf c i img) := by
  unfold freeIf
  split
  · next hc => exact .single (hX hc) ht (hn hc)
  · exact .refl img

/-- `sys_unlink` keeps the tree and the counts if no directory it frees is the `..` of one that stays. -/
theorem Found.kept {path : List Char} {full : Nat → Bool} (h : Found s p path dp off e) (hok : s.Ok)
    (hrefs : s.RefsOk []) (hg : s.KeepsParents ⟨p, full, .unlink path⟩) {c c' : Prop} [Decidable c] [Decidable c']
    (hc : c ↔ (s.inode e.inum).nlink - 1 = 0 ∧ s.holds e.inum = 0)
    (hc' : c' ↔ (s.inode dp).nlink - (if (s.inode e.inum).type = .dir then 1 else 0) = 0 ∧ s.holds dp = 0)
    (himg : img = freeIf c e.inum (freeIf c' dp (unlinked s.toImage dp e.inum off))) :
    img.Ok ∧ (s.LeavesEmpty ⟨p, full, .unlink path⟩ → s.FilesExact → img.FilesExact) := by
  have hne := h.dp_ne
  have hvictim := h.victim_eq full
  have href : ∀ i, s.ref i = s.holds i := fun i => by rw [hrefs.ref, count_nil, Nat.add_zero]
  have hip : (s.inode e.inum).type ≠ .free := (hok.regular dp e h.mem h.ne).1
  have hdp : (s.inode dp).type ≠ .free := by rw [h.dir]; decide
  obtain ⟨hU, hUf⟩ := hok.unlink h.dir h.entry hne h.pos rfl
  have htype := unlinked_type s dp e.inum off
  have hdot := unlinked_dotdot hok h.dir e.inum off
  have hUip : (unlinked s.toImage dp e.inum off).inode e.inum = (s.inode e.inum).count ((s.inode e.inum).nlink - 1) :=
    Image.set_inode_self ..
  have hUdp : (unlinked s.toImage dp e.inum off).inode dp = (s.inode dp).write (off + 2) ⟨0, []⟩
      ((s.inode dp).nlink - if (s.inode e.inum).type = .dir then 1 else 0) :=
    (Image.set_inode_ne _ _ hne).trans (Image.set_inode_self ..)
  change (unlinked s.toImage dp e.inum off).Ok at hU
  change s.FilesExact → (unlinked s.toImage dp e.inum off).FilesExact at hUf
  generalize unlinked s.toImage dp e.inum off = U at *
  have hfreed : U.Freed (fun i => i = e.inum ∧ c ∨ i = dp ∧ c') img := by
    have hfirst : U.Freed (fun i => i = e.inum ∧ c ∨ i = dp ∧ c') (freeIf c' dp U) := by
      refine freed_freeIf (fun hc => .inr ⟨rfl, hc⟩) (by rw [htype]; exact hdp) ?_
      rw [hc', hUdp]
      exact And.left
    have hipi : (freeIf c' dp U).inode e.inum = U.inode e.inum := freeIf_inode_ne (Ne.symm hne)
    rw [himg]
    refine hfirst.trans (freed_freeIf (fun hc => .inl ⟨rfl, hc⟩) (by rw [hipi, htype]; exact hip) ?_)
    rw [hc, hipi, hUip]
    exact And.left
  -- the directories freed are those that the call drops
  have hdrops : ∀ D, (s.inode D).type = .dir → (img.inode D).type = .free → s.Drops ⟨p, full, .unlink path⟩ D := by
    intro D hdir hfree
    rcases hfreed.mem (by rw [htype, hdir]; decide) hfree with ⟨rfl, hD⟩ | ⟨rfl, hD⟩
    · rw [hc] at hD
      exact ⟨dp, e.inum, hvictim, hdir, h.empty hdir, by rw [href, hD.2], .inl rfl⟩
    · rw [hc'] at hD
      obtain ⟨hdir, hone⟩ := h.dir_of_last hD.1 hD.2
      exact ⟨D, e.inum, hvictim, hdir, h.empty hdir, by rw [href, hD.2], .inr ⟨rfl, hone⟩⟩
  have hgone : ∀ E, s.Drops ⟨p, full, .unlink path⟩ E → (img.inode E).type = .free := by
    rintro E ⟨dp', ip', hv, hdir, -, hzero, hE⟩
    rw [hvictim] at hv
    cases hv
    rw [href] at hzero
    rw [himg]
    rcases hE with rfl | ⟨rfl, hone⟩
    · refine freeIf_type ?_ e.inum _
      rw [hc, h.nlink_dir hok hdir]
      exact ⟨rfl, hzero⟩
    · rw [freeIf_inode_ne hne]
      refine freeIf_type ?_ E _
      rw [hc', if_pos hdir, hone]
      exact ⟨rfl, hzero⟩
  refine ⟨hfreed.ok hU fun D E hD hD' hE' hED => ?_, fun hl hf => hfreed.filesExact hU (fun D hD hD' x hx => ?_) (hUf hf)⟩
  · have hEdir := hE'
    rw [hfreed.inode_eq (by rw [hE']; decide), htype] at hEdir
    rw [htype] at hD
    rw [hdot] at hED
    have hne : E ≠ D := by
      rintro rfl
      rw [hD'] at hE'
      cases hE'
    rw [hgone E (hg D E (hdrops D hD hD') hD hEdir hne hED)] at hE'
    cases hE'
  · rw [htype] at hD
    by_contra hx0
    rcases hfreed.mem (by rw [htype, hD]; decide) hD' with ⟨rfl, -⟩ | ⟨rfl, hlast⟩
    · rw [hUip] at hx
      exact hx0 (h.isempty hD x hx)
    · have hxmem : x ∈ (s.inode D).regular := by
        have hx' := hx
        rw [hUdp, Dinode.regular, Dinode.write_ents, (hok.regular_writeEnt h.dir off ⟨0, []⟩).1] at hx'
        rcases mem_writeEnt hx' with hx' | rfl
        · exact hx'
        · exact absurd rfl hx0
      obtain ⟨dp', hv⟩ := hl D (hdrops D hD hD') h.dir x hxmem hx0
      rw [hvictim] at hv
      have hxe : e.inum = x.inum := (Prod.mk.inj (Option.some.inj hv)).2
      -- the only entry for the directory removed has been cleared
      rw [hc'] at hlast
      have hdir := (h.dir_of_last hlast.1 hlast.2).1
      have hpos := hU.entries_pos hx
      have hzero := hU.counts.dir e.inum (by rw [htype]; exact hdir)
      rw [hUip, Dinode.count_nlink, h.nlink_dir hok hdir] at hzero
      unfold Image.links at hzero
      rw [← hxe] at hpos
      omega

end FsAux

end Xv6.Fs
