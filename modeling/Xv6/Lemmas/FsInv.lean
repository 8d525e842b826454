import Xv6.Lemmas.FsRemove

/-!
# The invariant of the namespace

Every call keeps the tree, the counts and the references (`run_wp`), given that no directory it frees is the `..` of another one that
stays and that no link count overflows. The counts of the specification, by name, are those of the image lemmas, by position.
-/

namespace Xv6.Fs

open Lib List

theorem isDots_dot : isDots ['.'] = true := by decide

theorem isDots_dotdot : isDots ['.', '.'] = true := by decide

namespace Image.Wf

variable {img : Image} (h : img.Wf) {d : Nat} {i : Nat}

include h

theorem noDangling : img.NoDangling := by
  intro d hd e he hne
  obtain ⟨ents, hents, hreg, hdot⟩ := h.dotdot_eq hd
  rw [hents] at he
  rcases mem_cons.1 he with rfl | he
  · rw [hd]
    decide
  · rcases mem_cons.1 he with rfl | he
    · rw [hdot]
      decide
    · exact (h.regular d e (hreg ▸ he) hne).1

/-- Entries of one directory counted by name and by position. -/
theorem countP_ents (hd : (img.inode d).type = .dir) {q r : Dirent → Bool} (hdots : ∀ e, isDots e.name = true → q e = false)
    (hqr : ∀ e ∈ (img.inode d).regular, q e = r e) : (img.inode d).ents.countP q = (img.inode d).regular.countP r := by
  obtain ⟨ents, hents, hreg, -⟩ := h.dotdot_eq hd
  rw [hreg] at hqr ⊢
  rw [hents, countP_cons, countP_cons, hdots ⟨_, ['.', '.']⟩ isDots_dotdot, hdots ⟨_, ['.']⟩ isDots_dot]
  simpa using countP_congr fun e he => by rw [hqr e he]

theorem regular_nil (hd : (img.inode d).type ≠ .dir) : (img.inode d).regular = [] := by
  rw [Dinode.regular, h.nondir d hd]
  rfl

theorem linked_eq (hi : i ≠ 0) : img.linked i = img.entries i := by
  refine Finset.sum_congr rfl fun d _ => ?_
  by_cases hd : (img.inode d).type = .dir
  · rw [if_pos hd]
    refine h.countP_ents hd (fun e he => by simp [he]) fun e he => ?_
    by_cases hei : e.inum = i
    · simp [hei, (h.regular d e he (by rw [hei]; exact hi)).2]
    · simp [hei]
  · rw [if_neg hd, h.regular_nil hd]
    rfl

theorem subdirs_eq (hd : (img.inode d).type = .dir) : img.subdirs d = img.subs d := by
  refine h.countP_ents hd (fun e he => by simp [he]) fun e he => ?_
  by_cases he0 : e.inum = 0
  · simp [he0, h.zero]
  · simp [(h.regular d e he he0).2]

theorem named_eq (hi : (img.inode i).type ≠ .dir) : img.named i = img.entries i := by
  refine Finset.sum_congr rfl fun d _ => ?_
  by_cases hd : (img.inode d).type = .dir
  · rw [if_pos hd]
    obtain ⟨ents, hents, hreg, hdot⟩ := h.dotdot_eq hd
    have h1 : d ≠ i := fun heq => hi (heq ▸ hd)
    have h2 : (img.inode d).dotdot ≠ i := fun heq => hi (heq ▸ hdot)
    rw [hreg, hents, countP_cons, countP_cons]
    simp [h1, h2]
  · rw [if_neg hd, h.regular_nil hd]
    rfl

/-- The counts by name are exact if those by position are. -/
theorem linksExact_iff : img.LinksExact ↔
    (∀ d, (img.inode d).type = .dir → (img.inode d).nlink = img.links d) ∧ img.FilesExact := by
  have hfile : ∀ i, (img.inode i).type ≠ .dir → img.links i = img.named i := by
    intro i hi
    have hroot : i ≠ ROOTINO := fun heq => hi (heq ▸ h.root)
    unfold links subs
    rw [h.named_eq hi, if_neg hroot, h.regular_nil hi]
    rfl
  have hdir : ∀ d, (img.inode d).type = .dir → (img.links d : Int) = img.linked d + (if d = ROOTINO then 1 else 0) + img.subdirs d := by
    intro d hd
    unfold links
    rw [h.linked_eq (h.dir_ne_zero hd), h.subdirs_eq hd]
    push_cast
    rfl
  constructor
  · intro hl
    exact ⟨fun d hd => by rw [hl.dir d hd, hdir d hd], fun i hi hnd => by rw [hl.nondir i hi hnd, hfile i hnd]⟩
  · rintro ⟨hd, hf⟩
    exact ⟨fun i hi hnd => by rw [hf i hi hnd, hfile i hnd], fun d hdd => by rw [hd d hdd, hdir d hdd]⟩

end Image.Wf

namespace FsAux

variable {s t : State} {l : Label}

/-- What holds between two calls. -/
structure Inv (s : State) : Prop where
  ok : s.Ok
  refs : s.RefsOk []

theorem Consistent.inv (h : s.Consistent) : Inv s ∧ s.FilesExact := by
  obtain ⟨hdir, hf⟩ := h.wf.linksExact_iff.1 h.links
  refine ⟨⟨⟨h.wf, fun i hi => ?_, hdir⟩, h.refs⟩, hf⟩
  by_cases hd : (s.inode i).type = .dir
  · exact .inl (hdir i hd).ge
  · exact .inl (hf i hi hd).ge

/-- A call that only frees inodes which it drops, and all of them if there are several. -/
theorem FreesOnly.inv (h : FreesOnly (s.Drops l) s t) (hinv : Inv s) (hv : s.victim l = none) (hg : s.KeepsParents l)
    (hall : ∀ D E, s.Drops l D → s.Drops l E → E ≠ D → (t.inode E).type = .free) :
    Inv t ∧ (s.LeavesEmpty l → s.AvoidsLink l (2 ^ 15 - 1) → s.FilesExact → t.FilesExact) := by
  have hdrops : ∀ D, (s.inode D).type = .dir → (t.inode D).type = .free → s.Drops l D :=
    fun D hD hD' => h.freed.mem (by rw [hD]; decide) hD'
  refine ⟨⟨h.freed.ok hinv.ok fun D E hD hD' hE' hED => ?_, h.refs⟩,
    fun hl _ hf => h.freed.filesExact hinv.ok (fun D hD hD' e he => ?_) hf⟩
  · have hEdir := hE'
    rw [h.freed.inode_eq (by rw [hE']; decide)] at hEdir
    have hne : E ≠ D := by
      rintro rfl
      rw [hD'] at hE'
      cases hE'
    have hdrop := hdrops D hD hD'
    rw [hall D E hdrop (hg D E hdrop hD hEdir hne hED) hne] at hE'
    cases hE'
  · by_contra hne
    obtain ⟨dp, hvict⟩ := hl D (hdrops D hD hD') hD e he hne
    rw [hv] at hvict
    cases hvict

theorem Kept.inv (h : Kept s t) (hr : t.RefsOk []) : Inv t ∧ (s.LeavesEmpty l → s.AvoidsLink l (2 ^ 15 - 1) → s.FilesExact → t.FilesExact) :=
  ⟨⟨h.1, hr⟩, fun _ _ => h.2⟩

/-- One call. -/
theorem run_wp (h : Inv s) (hg : s.KeepsParents l) (hwrap : s.AvoidsLink l (-1) ∨ s.FilesExact) :
    Wp (Allowed s.FilesExact) l.run s fun _ t =>
      Inv t ∧ (s.LeavesEmpty l → s.AvoidsLink l (2 ^ 15 - 1) → s.FilesExact → t.FilesExact) := by
  obtain ⟨p, full, call⟩ := l
  cases call with
  | «open» path omode => exact Wp.then_pure ((sysOpen_wp p path omode h.ok h.refs).mono fun _ _ ht => ht.1.inv ht.2)
  | mkdir path => exact Wp.then_pure ((sysMkdir_wp p path h.ok h.refs).mono fun _ _ ht => ht.1.inv ht.2)
  | mknod path major minor => exact Wp.then_pure ((sysMknod_wp p path major minor h.ok h.refs).mono fun _ _ ht => ht.1.inv ht.2)
  | link old new =>
    refine Wp.then_pure ((sysLink_wp p old new h.ok h.refs fun ip name hr hip hnondir => ?_).mono fun _ t ht => ?_)
    · rcases hwrap with hwrap | hf
      · exact hwrap old new ip name rfl hr hnondir
      · have := h.ok.nlink_nonneg_of_exact hf hip
        omega
    · obtain ⟨hkept | ⟨ip, name, hr, hnondir, hok, hf⟩, hrefs⟩ := ht
      · exact hkept.inv hrefs
      · exact ⟨⟨hok, hrefs⟩, fun _ hmax => hf (hmax old new ip name rfl hr hnondir)⟩
  | unlink path =>
    refine Wp.then_pure ((sysUnlink_wp path h.ok h.refs).mono fun _ t ht => ?_)
    obtain ⟨hr, himg | ⟨dp, off, e, hfound, himg⟩⟩ := ht
    · rw [himg]
      exact ⟨⟨by rw [himg]; exact h.ok, hr⟩, fun _ _ => id⟩
    · obtain ⟨hok, hf⟩ := hfound.kept h.ok h.refs hg Iff.rfl Iff.rfl himg
      exact ⟨⟨hok, hr⟩, fun hl _ => hf hl⟩
  | chdir path =>
    refine Wp.then_pure ((sysChdir_wp path h.ok h.refs).mono fun _ _ ht =>
      FreesOnly.inv (l := ⟨p, full, .chdir path⟩) ht h rfl hg fun D E hD hE hne => ?_)
    exact absurd (Option.some.inj (hE.1.symm.trans hD.1)) hne
  | close fd =>
    refine Wp.then_pure ((sysClose_wp fd h.refs).mono fun _ _ ht =>
      FreesOnly.inv (l := ⟨p, full, .close fd⟩) ht.2 h rfl hg fun D E hD hE hne => ?_)
    obtain ⟨-, -, f, hf, -, hD⟩ := hD
    obtain ⟨-, -, g, hg, -, hE⟩ := hE
    obtain rfl := Option.some.inj (hf.symm.trans hg)
    exact absurd (Option.some.inj (hE.symm.trans hD)) hne
  | exit =>
    exact (kexit_wp h.refs).mono fun _ _ ht =>
      FreesOnly.inv (l := ⟨p, full, .exit⟩) ht.1 h rfl hg fun _ E _ hE _ => ht.2 E hE.1 hE.2

end FsAux

end Xv6.Fs
