import Xv6.Lemmas.FsInv
import Xv6.Lib.Run
import Xv6.Proc

/-!
# Directory entries and link counts

Between calls, every directory entry names an allocated inode and every link count is the number of entries, as long as no directory
that is removed but still in use outlives its parent or is given up with entries in it, and no link count wraps around.
-/

namespace Xv6.Fs

open Lib FsAux Function List

/-! ## A machine that has just booted -/

/-- An image with the root directory alone. -/
def bootImage : Image where
  ninodes := 200
  inode i := if i = ROOTINO then ⟨.dir, 0, 0, 1, [⟨ROOTINO, ['.']⟩, ⟨ROOTINO, ['.', '.']⟩]⟩ else ⟨.free, 0, 0, 0, []⟩

/-- One process, in the root directory, and no open files. -/
def boot : State where
  toImage := bootImage
  ref := update (fun _ => 0) ROOTINO 1
  valid := update (fun _ => false) ROOTINO true
  file _ := ⟨.none, 0, 0⟩
  cwd := update (fun _ => none) slot0 (some ROOTINO)
  ofile _ _ := none

/-- What is checked of the inodes of an image that has no directory but the root. -/
def Image.Flat (img : Image) (i : Nat) : Prop :=
  (-2 ^ 15 ≤ (img.inode i).nlink ∧ (img.inode i).nlink < 2 ^ 15) ∧ (img.inode i).ents.length * DIRENT ≤ MAXFILE * BSIZE ∧
  ((img.inode i).type ≠ .free → i < img.ninodes ∧ (img.inode i).nlink = img.links i ∧ (img.inode i).nlink ≠ 0) ∧
  ((img.inode i).type ≠ .dir → (img.inode i).ents = []) ∧ ((img.inode i).type = .dir → i = ROOTINO ∧ img.entries i = 0) ∧
  ∀ e ∈ (img.inode i).regular, e.inum ≠ 0 → (img.inode e.inum).type ≠ .free ∧ isDots e.name = false

instance (img : Image) (i : Nat) : Decidable (img.Flat i) := by
  unfold Image.Flat
  infer_instance

/-- A file system in which a check of the first inodes and of the tables finds nothing wrong, and all other inodes are free. -/
theorem consistent_of_flat {s : State} {n : Nat} {ents : List Dirent} (hsmall : ∀ i < n, s.Flat i)
    (hlarge : ∀ i, n ≤ i → s.inode i = ⟨.free, 0, 0, 0, []⟩) (hzero : (s.inode 0).type = .free) (hushort : s.ninodes ≤ 2 ^ 16)
    (hroot : s.inode ROOTINO = ⟨.dir, 0, 0, 1, ⟨ROOTINO, ['.']⟩ :: ⟨ROOTINO, ['.', '.']⟩ :: ents⟩) (href : ∀ i, s.ref i = s.holds i)
    (hcwd : ∀ p, s.cwd p = none ∨ s.cwd p = some ROOTINO) (hvalid : ∀ i, 0 < s.holds i → s.valid i = true)
    (hfile : ∀ f, (∀ i ∈ (s.file f).holding, (s.inode i).type ≠ .free) ∧ ((s.file f).ref = 0 → (s.file f).type = .none)) :
    s.Consistent := by
  have hflat : ∀ i, s.Flat i := fun i => by
    by_cases hi : i < n
    · exact hsmall i hi
    · rw [Image.Flat, hlarge i (Nat.le_of_not_lt hi)]
      exact ⟨⟨by decide, by decide⟩, Nat.zero_le _, fun h => absurd rfl h, fun _ => rfl, nofun, fun e he => absurd he not_mem_nil⟩
  have hlinks := fun i hi => ((hflat i).2.2.1 hi).2
  have hwf : s.Wf := by
    refine ⟨hzero, by rw [hroot], fun i hi => ((hflat i).2.2.1 hi).1, hushort, fun i => (hflat i).1, fun i => (hflat i).2.2.2.1, fun d hd => ?_,
      fun d => (hflat d).2.2.2.2.2, fun d => (hflat d).2.1, fun d hd => ?_⟩
    · obtain ⟨rfl, -⟩ := (hflat d).2.2.2.2.1 hd
      exact ⟨ROOTINO, ents, by rw [hroot], hd⟩
    · rw [((hflat d).2.2.2.2.1 hd).2]
      split <;> decide
  refine ⟨hwf, hwf.linksExact_iff.2 ⟨fun d hd => (hlinks d (by rw [hd]; nofun)).1, fun i hi _ => (hlinks i hi).1⟩, fun i => ?_, fun p d hp => ?_,
    fun f i hf => (hfile f).1 i hf, fun f => (hfile f).2, fun i hi => absurd hi not_mem_nil, hvalid, fun i hi hn => absurd hn (hlinks i hi).2⟩
  · rw [count_nil, Nat.add_zero, href]
  · rcases hcwd p with h | h
    · cases h.symm.trans hp
    · rw [← Option.some.inj (h.symm.trans hp), hroot]

theorem boot_holds (i : Nat) : boot.holds i = if i = ROOTINO then 1 else 0 := by
  have hcwd := tally_update (fun _ : Fin NPROC => (none : Option Nat)) slot0 (some ROOTINO) i
  have hnone : tally (fun _ : Fin NPROC => (none : Option Nat)) i = 0 := Finset.sum_eq_zero fun _ _ => rfl
  have hfile : tally (fun f => (boot.file f).holding) i = 0 := Finset.sum_eq_zero fun _ _ => rfl
  have hroot : (some ROOTINO = some i) = (i = ROOTINO) := by rw [Option.some.injEq, eq_comm (a := ROOTINO)]
  unfold State.holds
  simp only [hnone, reduceCtorEq, if_false, hroot] at hcwd
  rw [hfile]
  exact hcwd.trans (Nat.zero_add _)

theorem boot_consistent : boot.Consistent := by
  refine consistent_of_flat (n := 2) (by decide +kernel) (fun i hi => if_neg (by unfold ROOTINO; omega)) rfl (by decide) rfl (fun i => ?_)
    (by decide) (fun i hi => ?_) fun f => ⟨nofun, fun _ => rfl⟩
  · rw [boot_holds]
    exact update_apply (fun _ => 0) ROOTINO 1 i
  · rw [boot_holds] at hi
    split_ifs at hi with hroot
    · rw [hroot]
      rfl
    · exact absurd hi (Nat.lt_irrefl 0)

/-- A call of the one process, with room on the disk. -/
def byInit (call : Call) : Label := ⟨slot0, fun _ => false, call⟩

/-! ## Runs -/

section Runs

variable {s t u : State} {l : Label} {ls : List Label}

theorem run_of_step (h : s.step l = some t) : l.run s = .ok ((), t) := by
  unfold State.step at h
  split at h
  · split at h
    · next heq => rw [heq, Option.some.inj h]
    · cases h
  · cases h

theorem run_of_panic {e : Panic} (h : s.panic l = some e) : l.run s = .error e := by
  unfold State.panic at h
  split at h
  · split at h
    · cases h
    · next heq => rw [heq, Option.some.inj h]
  · cases h

theorem inv_run (h : s.Consistent) (hrun : Run (Guarded (fun s l => s.KeepsParents l ∧ s.AvoidsLink l (-1)) (StepOf State.step)) s ls t) :
    Inv t :=
  Run.invariant (I := Inv) (fun _ _ _ hs hstep => ((run_wp hs hstep.1.1 (.inl hstep.1.2)).ok (run_of_step hstep.2)).1) hrun
    (Consistent.inv h).1

theorem exact_run (h : s.Consistent)
    (hrun : Run (Guarded (fun s l => s.KeepsParents l ∧ s.LeavesEmpty l ∧ s.AvoidsLink l (2 ^ 15 - 1)) (StepOf State.step)) s ls t) :
    Inv t ∧ t.FilesExact := by
  refine Run.invariant (I := fun s => Inv s ∧ s.FilesExact) ?_ hrun (Consistent.inv h)
  rintro s l t ⟨hs, hf⟩ ⟨⟨hparents, hempty, hmax⟩, hstep⟩
  obtain ⟨ht, hft⟩ := (run_wp hs hparents (.inr hf)).ok (run_of_step hstep)
  exact ⟨ht, hft hempty hmax hf⟩

end Runs

/-- A process makes a directory and removes it. -/
def makeRemove : List Label := [byInit (.mkdir "/a".toList), byInit (.unlink "/a".toList)]

theorem makeRemove_run : ∃ t, Run (Guarded (fun s l => s.KeepsParents l ∧ s.LeavesEmpty l ∧ ∀ n, s.AvoidsLink l n)
    (StepOf State.step)) boot makeRemove t := by
  have hnotlink : ∀ (s : State) {call : Call}, (∀ old new, call ≠ .link old new) → ∀ n, s.AvoidsLink (byInit call) n :=
    fun _ _ hcall _ old new _ _ heq => absurd heq (hcall old new)
  obtain ⟨s, hs⟩ := Option.isSome_iff_exists.1 (show (boot.step (byInit (.mkdir "/a".toList))).isSome = true by decide +kernel)
  have hview : ∀ {β : Type} (g : State → β) {b : β}, (boot.step (byInit (.mkdir "/a".toList))).map g = some b → g s = b := by
    intro β g b hb
    rw [hs] at hb
    exact Option.some.inj hb
  have hmade : Run (Guarded (fun s l => s.KeepsParents l ∧ s.LeavesEmpty l ∧ ∀ n, s.AvoidsLink l n) (StepOf State.step)) boot
      [byInit (.mkdir "/a".toList)] s :=
    Run.single ⟨⟨fun _ _ hD => hD.elim, fun _ hD => hD.elim, hnotlink boot fun _ _ => Call.noConfusion⟩, hs⟩
  obtain ⟨t, ht⟩ := Option.isSome_iff_exists.1
    (hview (fun s => (s.step (byInit (.unlink "/a".toList))).isSome) (b := true) (by decide +kernel))
  -- the root has a subdirectory and is in use, so the new directory alone is dropped
  have hdrops : ∀ D, s.Drops (byInit (.unlink "/a".toList)) D → D = 2 := by
    rintro D ⟨dp, ip, hv, -, -, -, hD⟩
    rw [hview (fun s => s.victim (byInit (.unlink "/a".toList))) (b := some (1, 2)) (by decide +kernel)] at hv
    cases hv
    rcases hD with rfl | ⟨-, hone⟩
    · rfl
    · rw [hview (fun s => (s.inode 1).nlink) (b := 2) (by decide +kernel)] at hone
      cases hone
  have hwf := (exact_run boot_consistent (hmade.mono fun _ _ _ h => ⟨⟨h.1.1, h.1.2.1, h.1.2.2 _⟩, h.2⟩)).1.ok.toWf
  refine ⟨t, .snoc hmade ⟨⟨fun D E hD _ hE _ hED => ?_, fun D hD _ e he _ => ?_, hnotlink s fun _ _ => Call.noConfusion⟩, ht⟩⟩
  · have hlt := (hwf.bound E (by rw [hE]; decide))
    have hnone := hview (fun s => (range s.ninodes).all fun E => (s.inode E).dotdot != 2) (b := true) (by decide +kernel)
    have := all_eq_true.1 hnone E (mem_range.2 hlt)
    rw [hED, hdrops D hD] at this
    cases this
  · rw [hdrops D hD, hview (fun s => (s.inode 2).regular) (b := []) (by decide +kernel)] at he
    exact absurd he not_mem_nil

/-! ## Entries never dangle -/

/-- Directory entries never dangle: from a consistent file system, in every run of calls in which no call takes away what keeps a
directory on disk while another directory that stays has it as `..`, and no `sys_link` has the link count wrap around to 0, every
entry of every allocated directory names an allocated inode, and such a call never runs into the panic `ilock: no type`. -/
theorem entries_never_dangle {s t : State} {ls : List Label} (h : s.Consistent)
    (hrun : Run (Guarded (fun s l => s.KeepsParents l ∧ s.AvoidsLink l (-1)) (StepOf State.step)) s ls t) :
    t.NoDangling ∧ ∀ l, t.KeepsParents l ∧ t.AvoidsLink l (-1) → t.panic l ≠ some .ilockNoType := by
  have hinv := inv_run h hrun
  refine ⟨hinv.ok.noDangling, fun l hl hpanic => ?_⟩
  exact ((run_wp hinv hl.1 (.inl hl.2)).error (run_of_panic hpanic)).1 rfl

theorem entries_never_dangle_makeRemove : ∃ t, Run (Guarded (fun s l => s.KeepsParents l ∧ s.AvoidsLink l (-1)) (StepOf State.step))
    boot makeRemove t ∧ t.NoDangling := by
  obtain ⟨t, hrun⟩ := makeRemove_run
  have hrun : Run (Guarded (fun s l => s.KeepsParents l ∧ s.AvoidsLink l (-1)) (StepOf State.step)) boot makeRemove t :=
    hrun.mono fun _ _ _ hstep => ⟨⟨hstep.1.1, hstep.1.2.2 _⟩, hstep.2⟩
  exact ⟨t, hrun, (entries_never_dangle boot_consistent hrun).1⟩

/-- Uses of inodes are counted: in such a run the table of inodes has, between the calls, as many references to an inode as there are
current directories and open files that are it; one in use is not freed, and one without links or uses is. -/
theorem uses_counted {s t : State} {ls : List Label} (h : s.Consistent)
    (hrun : Run (Guarded (fun s l => s.KeepsParents l ∧ s.AvoidsLink l (-1)) (StepOf State.step)) s ls t) (i : Nat) :
    t.ref i = t.holds i ∧ (0 < t.holds i → (t.inode i).type ≠ .free) ∧
      ((t.inode i).nlink = 0 → t.holds i = 0 → (t.inode i).type = .free) := by
  have hrefs := (inv_run h hrun).refs
  refine ⟨by simpa using hrefs.ref i, RefsOk.type_of_holds hrefs, fun hn h0 => ?_⟩
  by_contra ht
  simpa [h0] using hrefs.orphan i ht hn

theorem uses_counted_makeRemove : ∃ t, Run (StepOf State.step) boot makeRemove t ∧ ∀ i, t.ref i = t.holds i := by
  obtain ⟨t, hrun⟩ := makeRemove_run
  refine ⟨t, hrun.mono ?_, fun i => (uses_counted boot_consistent (hrun.mono ?_) i).1⟩
  · exact fun _ _ _ h => h.2
  · exact fun _ _ _ h => ⟨⟨h.1.1, h.1.2.2 _⟩, h.2⟩

/-- A process makes `/a/b` and enters it, then removes `/a/b` and `/a`: the directory it is in still has `/a` as its `..`. -/
def removeParent : List Label :=
  [byInit (.mkdir "/a".toList), byInit (.mkdir "/a/b".toList), byInit (.chdir "a/b".toList), byInit (.unlink "/a/b".toList),
    byInit (.unlink "/a".toList)]

/-- The parent of a directory that is removed but still in use can be freed: the `..` of that directory then names a free inode, and
opening `..` runs into the panic `ilock: no type`. -/
theorem freed_parent_dangles : ∃ ls t l, boot.Consistent ∧ Run (StepOf State.step) boot ls t ∧ ¬ t.NoDangling ∧
    t.panic l = some .ilockNoType := by
  obtain ⟨t, hrun, hview⟩ := Run.exists_of_foldlM State.step removeParent boot (by decide +kernel)
  refine ⟨removeParent, t, byInit (.open "..".toList ⟨false, true⟩), boot_consistent, hrun, fun hno => ?_,
    hview (fun t => t.panic (byInit (.open "..".toList ⟨false, true⟩))) (by decide +kernel)⟩
  have hdir : (t.inode 3).type = .dir := hview (fun t => (t.inode 3).type) (by decide +kernel)
  have hents : (t.inode 3).ents = [⟨3, ['.']⟩, ⟨2, ['.', '.']⟩] := hview (fun t => (t.inode 3).ents) (by decide +kernel)
  have hfree : (t.inode 2).type = .free := hview (fun t => (t.inode 2).type) (by decide +kernel)
  exact hno 3 hdir ⟨2, ['.', '.']⟩ (by rw [hents]; simp) (by decide) hfree

/-! ## Link counts are exact -/

/-- Link counts are exact: if moreover no call takes away what keeps a directory on disk while that directory has entries other than
`.` and `..`, and no `sys_link` exceeds the largest `short`, then every link count is the number of entries, no call runs into the
panic `unlink: nlink < 1`, and what a call frees is named by no entry of a directory that stays. -/
theorem links_exact {s t : State} {ls : List Label} (h : s.Consistent)
    (hrun : Run (Guarded (fun s l => s.KeepsParents l ∧ s.LeavesEmpty l ∧ s.AvoidsLink l (2 ^ 15 - 1)) (StepOf State.step)) s ls t) :
    t.LinksExact ∧ ∀ l, t.KeepsParents l ∧ t.LeavesEmpty l ∧ t.AvoidsLink l (2 ^ 15 - 1) → t.panic l ≠ some .unlinkNlink ∧
      ∀ u, t.step l = some u → ∀ i, (t.inode i).type ≠ .free → (u.inode i).type = .free →
        ∀ d, (u.inode d).type = .dir → ∀ e ∈ (u.inode d).ents, e.inum ≠ i := by
  obtain ⟨hinv, hf⟩ := exact_run h hrun
  refine ⟨hinv.ok.linksExact_iff.2 ⟨hinv.ok.counts.dir, hf⟩, fun l hl => ⟨fun hpanic => ?_, ?_⟩⟩
  · exact ((run_wp hinv hl.1 (.inr hf)).error (run_of_panic hpanic)).2 hf rfl
  · rintro u hstep i hi hfree d hd e he rfl
    have hu := ((run_wp hinv hl.1 (.inr hf)).ok (run_of_step hstep)).1
    exact hu.ok.noDangling d hd e he (hinv.ok.ne_zero hi) hfree

theorem links_exact_makeRemove : ∃ t, Run (Guarded (fun s l => s.KeepsParents l ∧ s.LeavesEmpty l ∧ s.AvoidsLink l (2 ^ 15 - 1))
    (StepOf State.step)) boot makeRemove t ∧ t.LinksExact := by
  obtain ⟨t, hrun⟩ := makeRemove_run
  have hrun : Run (Guarded (fun s l => s.KeepsParents l ∧ s.LeavesEmpty l ∧ s.AvoidsLink l (2 ^ 15 - 1)) (StepOf State.step))
      boot makeRemove t := hrun.mono fun _ _ _ hstep => ⟨⟨hstep.1.1, hstep.1.2.1, hstep.1.2.2 _⟩, hstep.2⟩
  exact ⟨t, hrun, (links_exact boot_consistent hrun).1⟩

/-- A process removes the directory it is in, makes a file there and leaves. -/
def fileInRemoved : List Label :=
  [byInit (.mkdir "/a".toList), byInit (.chdir "/a".toList), byInit (.unlink "/a".toList), byInit (.open "f".toList ⟨true, false⟩),
    byInit (.chdir "/".toList)]

/-- A file made in a directory that is removed but still in use keeps its link count when the directory is freed: no entry names it,
and its `nlink` is 1. -/
theorem file_in_removed_miscounted : ∃ ls t, boot.Consistent ∧ Run (StepOf State.step) boot ls t ∧ ¬ t.LinksExact := by
  obtain ⟨t, hrun, hview⟩ := Run.exists_of_foldlM State.step fileInRemoved boot (by decide +kernel)
  refine ⟨fileInRemoved, t, boot_consistent, hrun, fun hexact => ?_⟩
  have htype : (t.inode 3).type = .file := hview (fun t => (t.inode 3).type) (by decide +kernel)
  have hlink : (t.inode 3).nlink = 1 := hview (fun t => (t.inode 3).nlink) (by decide +kernel)
  have hnamed : t.named 3 = 0 := hview (fun t => t.named 3) (by decide +kernel)
  have := hexact.nondir 3 (by rw [htype]; decide) (by rw [htype]; decide)
  rw [hlink, hnamed] at this
  cases this

end Xv6.Fs
