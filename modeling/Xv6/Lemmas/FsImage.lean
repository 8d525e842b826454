import Xv6.Lemmas.FsRefs

/-!
# Changes to the image

What writing or clearing a directory entry, changing a link count, allocating and freeing an inode do to the tree of directories and
to the counts of the entries that name an inode.
-/

namespace Xv6.Fs

open Lib List

namespace FsAux

/-! ## Entries of one directory -/

section Entries

variable {ents : List Dirent} {name : Name} {de x : Dirent} {p : Dirent → Bool} {off : Nat}

/-- What the loop of `dirlookup` finds is a live entry with the name. -/
theorem findEnt_some {off j k : Nat} (h : findEnt ents name k = some (j, off)) :
    ∃ e, ents[off - k]? = some e ∧ k ≤ off ∧ e.inum = j ∧ j ≠ 0 ∧ namecmp name e.name = 0 := by
  induction ents generalizing k with
  | nil => cases h
  | cons de ents ih =>
    rw [findEnt] at h
    split at h
    · next hde =>
      cases h
      exact ⟨de, by simp, le_refl _, rfl, hde.1, hde.2⟩
    · obtain ⟨e, he, hle, hrest⟩ := ih h
      refine ⟨e, ?_, by omega, hrest⟩
      rw [show off - k = (off - (k + 1)) + 1 by omega, getElem?_cons_succ]
      exact he

/-- When the loop of `dirlookup` finds nothing, no live entry has the name. -/
theorem findEnt_none {k : Nat} (h : findEnt ents name k = none) : ∀ e ∈ ents, e.inum ≠ 0 → namecmp name e.name ≠ 0 := by
  induction ents generalizing k with
  | nil => exact fun e he => absurd he not_mem_nil
  | cons de ents ih =>
    rw [findEnt] at h
    split at h
    · cases h
    · next hde =>
      intro e he hne hcmp
      rcases mem_cons.1 he with rfl | he
      · exact hde ⟨hne, hcmp⟩
      · exact ih h e he hne hcmp

theorem freeSlot_le : freeSlot ents ≤ ents.length := by
  induction ents with
  | nil => exact le_refl _
  | cons de ents ih =>
    rw [freeSlot]
    split
    · exact Nat.zero_le _
    · exact Nat.succ_le_succ ih

theorem mem_writeEnt (h : x ∈ writeEnt ents off de) : x ∈ ents ∨ x = de := by
  induction ents generalizing off with
  | nil => exact .inr (mem_singleton.1 h)
  | cons y ents ih =>
    cases off with
    | zero =>
      rcases mem_cons.1 h with rfl | h
      · exact .inr rfl
      · exact .inl (mem_cons_of_mem _ h)
    | succ off =>
      rcases mem_cons.1 h with rfl | h
      · exact .inl mem_cons_self
      · exact (ih h).imp_left (mem_cons_of_mem _)

theorem length_writeEnt (h : off ≤ ents.length) : (writeEnt ents off de).length = max ents.length (off + 1) := by
  induction ents generalizing off with
  | nil =>
    obtain rfl : off = 0 := by simpa using h
    rfl
  | cons y ents ih =>
    cases off with
    | zero => simp [writeEnt]
    | succ off =>
      simp only [length_cons, Nat.add_le_add_iff_right] at h
      simp only [writeEnt, length_cons, ih h]
      omega

/-- Writing over an entry: the count loses the old one and gains the new one. -/
theorem countP_writeEnt (h : ents[off]? = some x) (de : Dirent) :
    (writeEnt ents off de).countP p + (if p x then 1 else 0) = ents.countP p + (if p de then 1 else 0) := by
  induction ents generalizing off with
  | nil => cases h
  | cons y ents ih =>
    cases off with
    | zero =>
      cases h
      simp only [writeEnt, countP_cons]
      omega
    | succ off =>
      have := ih h
      simp only [writeEnt, countP_cons]
      omega

/-- Writing an entry where `dirlink` does: nothing that counts is lost. -/
theorem countP_writeEnt_freeSlot (hp : ∀ y : Dirent, y.inum = 0 → p y = false) :
    (writeEnt ents (freeSlot ents) de).countP p = ents.countP p + (if p de then 1 else 0) := by
  induction ents with
  | nil => simp [writeEnt, countP_cons]
  | cons y ents ih =>
    by_cases hy : y.inum = 0
    · simp only [freeSlot, if_pos hy, writeEnt, countP_cons, hp y hy, Bool.false_eq_true, if_false, Nat.add_zero]
    · simp only [freeSlot, if_neg hy, writeEnt, countP_cons, ih]
      omega

end Entries

end FsAux

/-- A directory with one more entry, where `dirlink` puts it. -/
abbrev Dinode.addEnt (D : Dinode) (de : Dirent) (nlink : Int) : Dinode := D.write (freeSlot D.ents) de nlink

namespace Image

open FsAux

variable {img : Image} {d i j : Nat} {D : Dinode}

/-- The number of entries of `d`, after `.` and `..`, that name directories. -/
def subs (img : Image) (d : Nat) : Nat := (img.inode d).regular.countP fun e => (img.inode e.inum).type = .dir

/-- What the link count of `i` should be. -/
def links (img : Image) (i : Nat) : Nat := img.entries i + (if i = ROOTINO then 1 else 0) + img.subs i

/-- No link count is too low, and those of directories are exact. -/
structure CountsOk (img : Image) : Prop where
  low : ∀ i, (img.inode i).type ≠ .free → (img.links i : Int) ≤ (img.inode i).nlink ∨ (img.inode i).nlink < 0
  dir : ∀ d, (img.inode d).type = .dir → (img.inode d).nlink = img.links d

/-- The link counts of files and devices are exact. -/
def FilesExact (img : Image) : Prop :=
  ∀ i, (img.inode i).type ≠ .free → (img.inode i).type ≠ .dir → (img.inode i).nlink = img.links i

theorem entries_set (hd : d < img.ninodes) :
    (img.set d D).entries j + (img.inode d).regular.countP (fun e => e.inum = j) =
      img.entries j + D.regular.countP (fun e => e.inum = j) := by
  have h := sum_change (S := Finset.range img.ninodes)
    (f := fun d => (img.inode d).regular.countP fun e => e.inum = j)
    (g := fun c => ((img.set d D).inode c).regular.countP fun e => e.inum = j)
    (Finset.mem_range.2 hd) fun y _ hy => by rw [set_inode_ne _ _ hy]
  rw [set_inode_self] at h
  exact h

theorem type_set (ht : D.type = (img.inode d).type) : ((img.set d D).inode i).type = (img.inode i).type := by
  rw [set_inode]
  split_ifs with hi
  · subst hi
    rw [ht]
  · rfl

namespace Wf

variable (h : img.Wf) {e : Dirent}

include h

theorem dir_of_mem (he : e ∈ (img.inode d).regular) : (img.inode d).type = .dir := by
  by_contra hd
  unfold Dinode.regular at he
  rw [h.nondir d hd] at he
  exact absurd he not_mem_nil

theorem entries_pos (he : e ∈ (img.inode d).regular) : 0 < img.entries e.inum := by
  have hd : d < img.ninodes := h.bound d (by rw [h.dir_of_mem he]; decide)
  refine Finset.sum_pos' (fun _ _ => Nat.zero_le _) ⟨d, Finset.mem_range.2 hd, ?_⟩
  exact countP_pos_iff.2 ⟨e, he, by simp⟩

/-- No entry after `.` and `..` names a free inode. -/
theorem not_named (hi : img.entries i = 0) (he : e ∈ (img.inode d).regular) : e.inum ≠ i := by
  rintro rfl
  exact absurd (h.entries_pos he) (by omega)

theorem entries_free (hi : (img.inode i).type = .free) (hi0 : i ≠ 0) : img.entries i = 0 := by
  refine Finset.sum_eq_zero fun d _ => countP_eq_zero.2 fun e he => ?_
  rw [decide_eq_true_eq]
  rintro rfl
  exact (h.regular d e he hi0).1 hi

theorem dotdot_eq (hd : (img.inode d).type = .dir) : ∃ ents,
    (img.inode d).ents = ⟨d, ['.']⟩ :: ⟨(img.inode d).dotdot, ['.', '.']⟩ :: ents ∧ (img.inode d).regular = ents ∧
      (img.inode (img.inode d).dotdot).type = .dir := by
  obtain ⟨dp, ents, hents, hdp⟩ := h.dots d hd
  have hdot : (img.inode d).dotdot = dp := by rw [Dinode.dotdot, hents]; rfl
  rw [hdot]
  exact ⟨ents, hents, by rw [Dinode.regular, hents]; rfl, hdp⟩

end Wf

/-! ## Counts of links -/

/-- Two images with the same types and entries have the same counts. -/
theorem links_congr {img' : Image} (hn : img'.ninodes = img.ninodes) (ht : ∀ i, (img'.inode i).type = (img.inode i).type)
    (he : ∀ i, (img'.inode i).ents = (img.inode i).ents) : img'.links i = img.links i := by
  have hreg : ∀ d, (img'.inode d).regular = (img.inode d).regular := fun d => by rw [Dinode.regular, he, Dinode.regular]
  unfold links entries subs
  simp only [hn, ht, hreg]

theorem ents_set (he : D.ents = (img.inode d).ents) : ((img.set d D).inode i).ents = (img.inode i).ents := by
  rw [set_inode]
  split_ifs with hi
  · subst hi
    rw [he]
  · rfl

theorem links_count (img : Image) (i j : Nat) (n : Int) : (img.set i ((img.inode i).count n)).links j = img.links j :=
  links_congr rfl (fun _ => type_set rfl) fun _ => ents_set rfl

/-- The subdirectories when an inode changes that stays a directory or stays none, or that no entry names. -/
theorem subs_set_ne (hc : j ≠ d)
    (hd : (D.type = .dir ↔ (img.inode d).type = .dir) ∨ ∀ e ∈ (img.inode j).regular, e.inum ≠ d) :
    (img.set d D).subs j = img.subs j := by
  unfold subs
  rw [set_inode_ne _ _ hc]
  refine countP_congr fun e he => ?_
  simp only [decide_eq_true_eq]
  by_cases hed : e.inum = d
  · rcases hd with hd | hd
    · rw [hed, set_inode_self, hd]
    · exact absurd hed (hd e he)
  · rw [set_inode_ne _ _ hed]

theorem subs_set_self (ht : D.type = (img.inode d).type) :
    (img.set d D).subs d = D.regular.countP fun e => (img.inode e.inum).type = .dir := by
  unfold subs
  rw [set_inode_self]
  simp only [type_set ht]

namespace Wf

variable (h : img.Wf) {off : Nat} {e : Dirent} {n : Int}

include h

theorem set_nlink (hn : -2 ^ 15 ≤ n ∧ n < 2 ^ 15) : (img.set i ((img.inode i).count n)).Wf := by
  have ht : ∀ j, ((img.set i ((img.inode i).count n)).inode j).type = (img.inode j).type := fun j => type_set rfl
  have he : ∀ j, ((img.set i ((img.inode i).count n)).inode j).ents = (img.inode j).ents := fun j => ents_set rfl
  constructor
  · rw [ht]; exact h.zero
  · rw [ht]; exact h.root
  · intro j; rw [ht]; exact h.bound j
  · exact h.ushort
  · intro j
    rw [set_inode]
    split_ifs with hj
    · subst hj
      exact hn
    · exact h.short j
  · intro j; rw [ht, he]; exact h.nondir j
  · intro d; rw [ht, he]; simp only [ht]; exact h.dots d
  · intro d e; rw [Dinode.regular, he, ht]; exact h.regular d e
  · intro d; rw [he]; exact h.size d
  · intro d
    rw [ht]
    intro hd
    have := h.once d hd
    unfold entries at this ⊢
    simp only [Dinode.regular, he] at this ⊢
    exact this

/-- The entries of a directory, `.` and `..` kept, after a write further on. -/
theorem regular_writeEnt (hd : (img.inode d).type = .dir) (off : Nat) (de : Dirent) :
    (writeEnt (img.inode d).ents (off + 2) de).drop 2 = writeEnt (img.inode d).regular off de ∧
    ∃ dp, writeEnt (img.inode d).ents (off + 2) de = ⟨d, ['.']⟩ :: ⟨dp, ['.', '.']⟩ :: writeEnt (img.inode d).regular off de ∧
      (img.inode dp).type = .dir := by
  obtain ⟨ents, hents, hreg, hdot⟩ := h.dotdot_eq hd
  rw [hreg, hents]
  exact ⟨rfl, _, rfl, hdot⟩

theorem ne_zero (hi : (img.inode i).type ≠ .free) : i ≠ 0 := by
  rintro rfl
  exact hi h.zero

section Dirs

variable (hd : (img.inode d).type = .dir) (de : Dirent)

include hd

theorem dir_ne_zero : d ≠ 0 := h.ne_zero (by rw [hd]; decide)

/-- The first free entry of a directory is after `.` and `..`. -/
theorem freeSlot_dir :
    freeSlot (img.inode d).ents = freeSlot (img.inode d).regular + 2 := by
  obtain ⟨ents, hents, hreg, hdot⟩ := h.dotdot_eq hd
  rw [hreg, hents, freeSlot, if_neg (h.dir_ne_zero hd), freeSlot, if_neg (h.dir_ne_zero hdot)]

/-- A write to a directory after `.` and `..`, given what it does to the counts. -/
theorem set_ents {de : Dirent} (hoff : off + 2 ≤ (img.inode d).ents.length)
    (hsize : (off + 2 + 1) * DIRENT ≤ MAXFILE * BSIZE)
    (hde : de.inum ≠ 0 → (img.inode de.inum).type ≠ .free ∧ isDots de.name = false) (hn : -2 ^ 15 ≤ n ∧ n < 2 ^ 15)
    (honce : ∀ j, (img.inode j).type = .dir →
      (img.set d ((img.inode d).write (off + 2) de n)).entries j + (if j = ROOTINO then 1 else 0) ≤ 1) :
    (img.set d ((img.inode d).write (off + 2) de n)).Wf := by
  obtain ⟨hdrop, dp, hents, hdp⟩ := h.regular_writeEnt hd off de
  have ht : ∀ j, ((img.set d ((img.inode d).write (off + 2) de n)).inode j).type =
      (img.inode j).type := fun j => type_set rfl
  constructor
  · rw [ht]; exact h.zero
  · rw [ht]; exact h.root
  · intro j; rw [ht]; exact h.bound j
  · exact h.ushort
  · intro j
    rw [set_inode]
    split_ifs with hj
    · subst hj
      exact hn
    · exact h.short j
  · intro j hj
    rw [ht] at hj
    have hjd : j ≠ d := by
      rintro rfl
      exact hj hd
    rw [set_inode_ne _ _ hjd]
    exact h.nondir j hj
  · intro j hj
    rw [ht] at hj
    simp only [ht]
    rw [set_inode]
    split_ifs with hjd
    · subst hjd
      exact ⟨dp, _, hents, hdp⟩
    · exact h.dots j hj
  · intro j e he
    rw [ht]
    rw [set_inode] at he
    split_ifs at he with hjd
    · subst hjd
      rw [Dinode.regular, Dinode.write_ents, hdrop] at he
      rcases mem_writeEnt he with he | rfl
      · exact h.regular j e he
      · exact hde
    · exact h.regular j e he
  · intro j
    rw [set_inode]
    split_ifs with hjd
    · subst hjd
      rw [Dinode.write_ents, length_writeEnt hoff]
      rcases max_choice (img.inode j).ents.length (off + 2 + 1) with hm | hm
      · rw [hm]; exact h.size j
      · rw [hm]; exact hsize
    · exact h.size j
  · intro j hj
    rw [ht] at hj
    exact honce j hj

/-- The subdirectories of a directory after a write. -/
theorem subs_write (off : Nat) (de : Dirent) (n : Int) :
    (img.set d ((img.inode d).write (off + 2) de n)).subs d =
      (writeEnt (img.inode d).regular off de).countP fun e => (img.inode e.inum).type = .dir := by
  rw [subs_set_self (Dinode.write_type ..), Dinode.regular, Dinode.write_ents, (h.regular_writeEnt hd off de).1]

/-- The entries that name `j` after a write to a directory. -/
theorem entries_write (off : Nat) (de : Dirent) (n : Int) :
    (img.set d ((img.inode d).write (off + 2) de n)).entries j +
        (img.inode d).regular.countP (fun e => e.inum = j) =
      img.entries j + (writeEnt (img.inode d).regular off de).countP fun e => e.inum = j := by
  rw [entries_set (h.bound d (by rw [hd]; decide)), ← (h.regular_writeEnt hd off de).1]
  rfl

/-- A new entry counts for what it names. -/
theorem entries_add (n : Int) (hj : j ≠ 0) :
    (img.set d ((img.inode d).addEnt de n)).entries j =
      img.entries j + if de.inum = j then 1 else 0 := by
  have hw := h.entries_write (j := j) hd (freeSlot (img.inode d).regular) de n
  rw [countP_writeEnt_freeSlot fun y hy => by simpa [hy] using Ne.symm hj] at hw
  rw [Dinode.addEnt, h.freeSlot_dir hd]
  simp only [decide_eq_true_eq] at hw
  omega

/-- A new entry that names a directory counts as a subdirectory. -/
theorem subs_add (n : Int) :
    (img.set d ((img.inode d).addEnt de n)).subs d =
      img.subs d + if (img.inode de.inum).type = .dir then 1 else 0 := by
  rw [Dinode.addEnt, h.freeSlot_dir hd, h.subs_write hd, countP_writeEnt_freeSlot]
  · simp only [decide_eq_true_eq]
    rfl
  · intro y hy
    rw [hy, h.zero]
    rfl

/-- An entry cleared counts no more. -/
theorem entries_clear (he : (img.inode d).regular[off]? = some e) (n : Int)
    (hj : j ≠ 0) :
    (img.set d ((img.inode d).write (off + 2) ⟨0, []⟩ n)).entries j +
      (if e.inum = j then 1 else 0) = img.entries j := by
  have hw := h.entries_write (j := j) hd off ⟨0, []⟩ n
  have hc := countP_writeEnt (p := fun e => e.inum = j) he ⟨0, []⟩
  simp only [decide_eq_true_eq, if_neg (Ne.symm hj)] at hc
  omega

theorem subs_clear (he : (img.inode d).regular[off]? = some e) (n : Int) :
    (img.set d ((img.inode d).write (off + 2) ⟨0, []⟩ n)).subs d +
      (if (img.inode e.inum).type = .dir then 1 else 0) = img.subs d := by
  have hc := countP_writeEnt (p := fun e => (img.inode e.inum).type = .dir) he ⟨0, []⟩
  simp only [decide_eq_true_eq, h.zero, reduceCtorEq, if_false] at hc
  rw [h.subs_write hd]
  exact hc

/-- A new entry in a directory. -/
theorem add (hde : (img.inode de.inum).type ≠ .free) (hname : isDots de.name = false)
    (hsize : (freeSlot (img.inode d).ents + 1) * DIRENT ≤ MAXFILE * BSIZE) (hn : -2 ^ 15 ≤ n ∧ n < 2 ^ 15)
    (honce : (img.inode de.inum).type = .dir → img.entries de.inum = 0 ∧ de.inum ≠ ROOTINO) :
    (img.set d ((img.inode d).addEnt de n)).Wf := by
  have hle : freeSlot (img.inode d).ents ≤ (img.inode d).ents.length := freeSlot_le
  have hentries := fun j hj => h.entries_add (j := j) hd de n hj
  unfold Dinode.addEnt at hentries ⊢
  rw [h.freeSlot_dir hd] at hle hsize hentries ⊢
  refine h.set_ents hd hle hsize (fun _ => ⟨hde, hname⟩) hn fun j hj => ?_
  rw [hentries j (h.dir_ne_zero hj)]
  split
  · next heq =>
    subst heq
    rw [(honce hj).1, if_neg (honce hj).2]
  · exact h.once j hj

theorem links_add (n : Int) (hj : j ≠ 0) :
    (img.set d ((img.inode d).addEnt de n)).links j =
      img.links j + (if de.inum = j then 1 else 0) + if j = d ∧ (img.inode de.inum).type = .dir then 1 else 0 := by
  unfold links
  rw [h.entries_add hd de n hj]
  by_cases hjd : j = d
  · subst hjd
    rw [h.subs_add hd]
    simp only [true_and]
    omega
  · have hno : ¬ (j = d ∧ (img.inode de.inum).type = .dir) := fun hc => hjd hc.1
    rw [subs_set_ne hjd (.inl (by rw [Dinode.write_type])), if_neg hno]
    omega

theorem links_clear (he : (img.inode d).regular[off]? = some e) (n : Int)
    (hj : j ≠ 0) :
    (img.set d ((img.inode d).write (off + 2) ⟨0, []⟩ n)).links j + (if e.inum = j then 1 else 0) +
      (if j = d ∧ (img.inode e.inum).type = .dir then 1 else 0) = img.links j := by
  have hentries := h.entries_clear hd he n hj
  unfold links
  by_cases hjd : j = d
  · subst hjd
    have hsubs := h.subs_clear hd he n
    simp only [true_and]
    omega
  · have hno : ¬ (j = d ∧ (img.inode e.inum).type = .dir) := fun hc => hjd hc.1
    rw [subs_set_ne hjd (.inl (by rw [Dinode.write_type])), if_neg hno]
    omega

end Dirs

/-- An inode that no entry names may be replaced: by a new directory, by another inode without entries, or by a free one, if it is
no directory's `..` then. -/
theorem set_unnamed (hi : img.entries i = 0) (hroot : i ≠ ROOTINO) (hshort : -2 ^ 15 ≤ D.nlink ∧ D.nlink < 2 ^ 15)
    (hbound : D.type ≠ .free → i ≠ 0 ∧ i < img.ninodes) (hnondir : D.type ≠ .dir → D.ents = [])
    (hdir : D.type = .dir → ∃ dp, D.ents = [⟨i, ['.']⟩, ⟨dp, ['.', '.']⟩] ∧ dp ≠ i ∧ (img.inode dp).type = .dir)
    (hparent : D.type = .dir ∨ ∀ E, E ≠ i → (img.inode E).type = .dir → (img.inode E).dotdot ≠ i) : (img.set i D).Wf := by
  have hreg : D.regular = [] := by
    by_cases hD : D.type = .dir
    · obtain ⟨dp, hents, -⟩ := hdir hD
      rw [Dinode.regular, hents]
      rfl
    · rw [Dinode.regular, hnondir hD]
      rfl
  constructor
  · rw [set_inode]
    split_ifs with h0
    · subst h0
      by_contra hfree
      exact (hbound hfree).1 rfl
    · exact h.zero
  · rw [set_inode_ne _ _ (Ne.symm hroot)]
    exact h.root
  · intro j hj
    rw [set_inode] at hj
    split_ifs at hj with hji
    · subst hji
      exact (hbound hj).2
    · exact h.bound j hj
  · exact h.ushort
  · intro j
    by_cases hji : j = i
    · rw [hji, set_inode_self]
      exact hshort
    · rw [set_inode_ne _ _ hji]
      exact h.short j
  · intro j hj
    rw [set_inode] at hj ⊢
    split_ifs at hj ⊢ with hji
    · subst hji
      exact hnondir hj
    · exact h.nondir j hj
  · intro d hd
    rw [set_inode] at hd ⊢
    split_ifs at hd ⊢ with hdi
    · subst hdi
      obtain ⟨dp, hents, hne, hdp⟩ := hdir hd
      exact ⟨dp, [], hents, by rw [set_inode_ne _ _ hne]; exact hdp⟩
    · obtain ⟨ents, hents, -, hdot⟩ := h.dotdot_eq hd
      refine ⟨_, ents, hents, ?_⟩
      by_cases hdoti : (img.inode d).dotdot = i
      · rw [hdoti, set_inode_self]
        exact hparent.resolve_right fun hE => hE d hdi hd hdoti
      · rw [set_inode_ne _ _ hdoti]
        exact hdot
  · intro d e he hne
    by_cases hdi : d = i
    · rw [hdi, set_inode_self, hreg] at he
      exact absurd he not_mem_nil
    · rw [set_inode_ne _ _ hdi] at he
      rw [set_inode_ne _ _ (h.not_named hi he)]
      exact h.regular d e he hne
  · intro d
    rw [set_inode]
    split_ifs with hdi
    · subst hdi
      have hlen : D.ents.length ≤ 2 := by
        have := congrArg length hreg
        rw [Dinode.regular, length_drop, length_nil] at this
        omega
      calc D.ents.length * DIRENT ≤ 2 * DIRENT := Nat.mul_le_mul_right _ hlen
        _ ≤ MAXFILE * BSIZE := by decide
    · exact h.size d
  · intro d hd
    have hle : ∀ j, (img.set i D).entries j ≤ img.entries j := by
      intro j
      unfold entries
      refine Finset.sum_le_sum fun c _ => ?_
      rw [set_inode]
      split_ifs with hci
      · rw [hci, hreg]
        exact Nat.zero_le _
      · rfl
    by_cases hdi : d = i
    · subst hdi
      rw [if_neg hroot]
      exact (hle d).trans (hi.le.trans (Nat.zero_le 1))
    · rw [set_inode_ne _ _ hdi] at hd
      exact (Nat.add_le_add_right (hle d) _).trans (h.once d hd)

theorem links_unnamed_self (hi : img.entries i = 0) (hroot : i ≠ ROOTINO) (hreg : D.regular = []) : (img.set i D).links i = 0 := by
  have hentries : (img.set i D).entries i = 0 := by
    refine Finset.sum_eq_zero fun c hc => countP_eq_zero.2 fun e he => ?_
    rw [decide_eq_true_eq]
    by_cases hci : c = i
    · rw [hci, set_inode_self, hreg] at he
      exact absurd he not_mem_nil
    · rw [set_inode_ne _ _ hci] at he
      exact h.not_named hi he
  unfold links subs
  rw [hentries, if_neg hroot, set_inode_self, hreg]
  rfl

theorem links_unnamed_ne (hi : img.entries i = 0) (hlt : i < img.ninodes) (hreg : D.regular = []) (hj : j ≠ i) :
    (img.set i D).links j + (img.inode i).regular.countP (fun e => e.inum = j) = img.links j := by
  have hentries := entries_set (D := D) (j := j) hlt
  rw [hreg, countP_nil] at hentries
  unfold links
  rw [subs_set_ne hj (.inr fun e he => h.not_named hi he)]
  omega

end Wf

/-- The count `n` that follows `m` in a `short`: it is one more or has wrapped around, but not to 0. -/
structure Raised (m n : Int) : Prop where
  short : -2 ^ 15 ≤ n ∧ n < 2 ^ 15
  step : n < 0 ∨ n = m + 1 ∧ 0 ≤ m

/-- The tree and the counts of an image between two calls. -/
structure Ok (img : Image) : Prop extends img.Wf where
  counts : img.CountsOk

/-- An image in order, with exact counts of files if they were exact. -/
abbrev Keeps (img img' : Image) : Prop := img'.Ok ∧ (img.FilesExact → img'.FilesExact)

/-! ## The changes the calls make -/

namespace Ok

variable (h : img.Ok) {img' : Image}

include h

theorem nlink_nonneg (hd : (img.inode d).type = .dir) : 0 ≤ (img.inode d).nlink := by
  rw [h.counts.dir d hd]
  exact Int.natCast_nonneg _

theorem nlink_nonneg_of_exact (hf : img.FilesExact) (hi : (img.inode i).type ≠ .free) : 0 ≤ (img.inode i).nlink := by
  by_cases hd : (img.inode i).type = .dir
  · exact h.nlink_nonneg hd
  · rw [hf i hi hd]
    exact Int.natCast_nonneg _

/-- An inode without links is named by no entry, and if it is a directory it has none that name directories. -/
theorem unnamed (hi : (img.inode i).type ≠ .free) (hn : (img.inode i).nlink = 0) :
    img.entries i = 0 ∧ i ≠ ROOTINO ∧ img.subs i = 0 := by
  have hlow := h.counts.low i hi
  rw [hn] at hlow
  unfold links at hlow
  refine ⟨by omega, ?_, by omega⟩
  rintro rfl
  rw [if_pos rfl] at hlow
  omega

/-- The counts stay as good as they were if every allocated inode has an exact one or is as far from it as before. That of a file
may wrap around unless `c`. -/
theorem of_slack {c : Prop} (hwf : img'.Wf) (hslack : ∀ j, (img'.inode j).type ≠ .free →
      (img'.inode j).nlink = img'.links j ∨
      (img'.inode j).type = (img.inode j).type ∧ ((img.inode j).nlink < 0 → (img'.inode j).nlink < 0) ∧
        (img'.inode j).nlink - img'.links j = (img.inode j).nlink - img.links j ∨
      ¬ c ∧ (img'.inode j).type ≠ .dir ∧ (img'.inode j).nlink < 0) :
    img'.Ok ∧ (c → img.FilesExact → img'.FilesExact) := by
  refine ⟨⟨hwf, fun j hj => ?_, fun d hd => ?_⟩, fun hc hf j hj hjd => ?_⟩
  · rcases hslack j hj with heq | ⟨htype, hneg, heq⟩ | ⟨-, -, hneg⟩
    · exact .inl heq.ge
    · rw [htype] at hj
      have := h.counts.low j hj
      omega
    · exact .inr hneg
  · rcases hslack d (by rw [hd]; decide) with heq | ⟨htype, -, heq⟩ | ⟨-, hnondir, -⟩
    · exact heq
    · rw [htype] at hd
      have := h.counts.dir d hd
      omega
    · exact absurd hd hnondir
  · rcases hslack j hj with heq | ⟨htype, -, heq⟩ | ⟨hnc, -⟩
    · exact heq
    · rw [htype] at hj hjd
      have := hf j hj hjd
      omega
    · exact absurd hc hnc

/-- The same when no count wraps around. -/
theorem of_slack_true (hwf : img'.Wf) (hslack : ∀ j, (img'.inode j).type ≠ .free →
      (img'.inode j).nlink = img'.links j ∨
      (img'.inode j).type = (img.inode j).type ∧ ((img.inode j).nlink < 0 → (img'.inode j).nlink < 0) ∧
        (img'.inode j).nlink - img'.links j = (img.inode j).nlink - img.links j) :
    img.Keeps img' :=
  (h.of_slack (c := True) hwf fun j hj => (hslack j hj).imp_right .inl).imp_right fun hf => hf trivial

/-- A directory has room for one more link. -/
theorem dir_nlink_lt (hd : (img.inode d).type = .dir) : (img.inode d).nlink < 2 ^ 15 - 1 := by
  obtain ⟨ents, hents, hreg, -⟩ := h.dotdot_eq hd
  have hsubs : img.subs d ≤ ents.length := by
    unfold subs
    rw [hreg]
    exact countP_le_length
  have hsize := h.size d
  rw [hents] at hsize
  have honce := h.once d hd
  have hmax : MAXFILE * BSIZE = 274432 := by decide
  rw [hmax] at hsize
  have hlen : ents.length ≤ 17150 := by
    simp only [length_cons, DIRENT] at hsize
    omega
  rw [h.counts.dir d hd]
  unfold links
  split <;> omega

variable {dp ip : Nat} {name : Name} {n : Int}

section

variable (hip : (img.inode ip).type = .free)

include hip

/-- A free inode that is not the root is named by nothing. -/
theorem free_unnamed (hip0 : ip ≠ 0) : img.entries ip = 0 ∧ ip ≠ ROOTINO ∧
    (img.inode ip).regular = [] ∧ ∀ E, E ≠ ip → (img.inode E).type = .dir → (img.inode E).dotdot ≠ ip := by
  refine ⟨h.entries_free hip hip0, ?_, ?_, ?_⟩
  · rintro rfl
    rw [h.root] at hip
    cases hip
  · rw [Dinode.regular, h.nondir ip (by rw [hip]; decide)]
    rfl
  · rintro E - hE rfl
    obtain ⟨-, -, -, hdot⟩ := h.dotdot_eq hE
    rw [hip] at hdot
    cases hdot

/-- The counts when a free inode is replaced by one without entries. -/
theorem links_alloc (hip0 : ip ≠ 0) (hlt : ip < img.ninodes) (hreg : D.regular = []) :
    (img.set ip D).links j = if j = ip then 0 else img.links j := by
  obtain ⟨hentries, hroot, hold, -⟩ := h.free_unnamed hip hip0
  by_cases hj : j = ip
  · rw [if_pos hj, hj]
    exact h.links_unnamed_self hentries hroot hreg
  · rw [if_neg hj, ← h.links_unnamed_ne hentries hlt hreg hj, hold, countP_nil, Nat.add_zero]

/-- Changing the fields of a free inode. -/
theorem set_free (hip0 : ip ≠ 0) (hlt : ip < img.ninodes) (hD : D.type = .free)
    (hents : D.ents = []) (hshort : -2 ^ 15 ≤ D.nlink ∧ D.nlink < 2 ^ 15) : img.Keeps (img.set ip D) := by
  obtain ⟨hentries, hroot, -, hparent⟩ := h.free_unnamed hip hip0
  have hreg : D.regular = [] := by rw [Dinode.regular, hents]; rfl
  have hnotdir : D.type ≠ .dir := by rw [hD]; decide
  have hwf : (img.set ip D).Wf := h.toWf.set_unnamed hentries hroot hshort (fun hne => absurd hD hne) (fun _ => hents)
    (fun hd => absurd hd hnotdir) (.inr hparent)
  refine h.of_slack_true hwf fun j hj => .inr ?_
  have hji : j ≠ ip := by
    rintro rfl
    rw [set_inode_self] at hj
    exact hj hD
  rw [h.links_alloc hip hip0 hlt hreg, if_neg hji, set_inode_ne _ _ hji]
  exact ⟨rfl, id, rfl⟩

end

/-- A new inode `ip` with its entry in `dp`. -/
theorem create (hdp : (img.inode dp).type = .dir) (hip : (img.inode ip).type = .free) (hip0 : ip ≠ 0) (hlt : ip < img.ninodes)
    (hname : isDots name = false) (hsize : (freeSlot (img.inode dp).ents + 1) * DIRENT ≤ MAXFILE * BSIZE)
    (hD : D.type ≠ .free) (hnlink : D.nlink = 1) (hnondir : D.type ≠ .dir → D.ents = [])
    (hdir : D.type = .dir → D.ents = [⟨ip, ['.']⟩, ⟨dp, ['.', '.']⟩])
    (hn : n = (img.inode dp).nlink + if D.type = .dir then 1 else 0) :
    img.Keeps ((img.set ip D).set dp ((img.inode dp).addEnt ⟨ip, name⟩ n)) := by
  obtain ⟨hentries, hroot, -, hparent⟩ := h.free_unnamed hip hip0
  have hne : dp ≠ ip := by
    rintro rfl
    rw [hdp] at hip
    cases hip
  have hreg : D.regular = [] := by
    by_cases hd : D.type = .dir
    · rw [Dinode.regular, hdir hd]; rfl
    · rw [Dinode.regular, hnondir hd]; rfl
  have hwf : (img.set ip D).Wf := h.toWf.set_unnamed hentries hroot (by rw [hnlink]; decide) (fun _ => ⟨hip0, hlt⟩) hnondir
    (fun hd => ⟨dp, hdir hd, hne, hdp⟩) (.inr hparent)
  have hlinks1 := fun j => h.links_alloc (D := D) (j := j) hip hip0 hlt hreg
  have hdp1 : (img.set ip D).inode dp = img.inode dp := img.set_inode_ne _ hne
  have hip1 : (img.set ip D).inode ip = D := img.set_inode_self ..
  have hother : ∀ j, j ≠ ip → (img.set ip D).inode j = img.inode j := fun j hj => img.set_inode_ne _ hj
  generalize img.set ip D = img1 at *
  have hdir1 : (img1.inode dp).type = .dir := by rw [hdp1]; exact hdp
  rw [← hdp1] at hsize hn ⊢
  have hlow := h.nlink_nonneg hdp
  have hmax := h.dir_nlink_lt hdp
  have hshort : -2 ^ 15 ≤ n ∧ n < 2 ^ 15 := by
    rw [hn, hdp1]
    split <;> omega
  have hentries1 : img1.entries ip = 0 := by
    have := hlinks1 ip
    rw [if_pos rfl] at this
    unfold links at this
    omega
  have hlinks : ∀ j, j ≠ 0 → (img1.set dp ((img1.inode dp).addEnt ⟨ip, name⟩ n)).links j =
      (if j = ip then 0 else img.links j) + (if ip = j then 1 else 0) + if j = dp ∧ D.type = .dir then 1 else 0 := by
    intro j hj
    rw [hwf.links_add hdir1 ⟨ip, name⟩ n hj, hlinks1]
    simp only [hip1]
  have hwf2 := hwf.add hdir1 ⟨ip, name⟩ (by rw [hip1]; exact hD) hname hsize hshort fun _ => ⟨hentries1, hroot⟩
  refine h.of_slack_true hwf2 fun j hj => ?_
  rw [hlinks j (hwf2.ne_zero hj)]
  by_cases hjd : j = dp
  · subst hjd
    rw [set_inode_self, Dinode.write_nlink, Dinode.write_type, hn, hdp1, if_neg hne, if_neg (Ne.symm hne)]
    simp only [true_and]
    refine .inr ⟨fun hneg => absurd hneg (not_lt.2 hlow), ?_⟩
    split <;> omega
  · rw [set_inode_ne _ _ hjd]
    by_cases hji : j = ip
    · subst hji
      rw [hip1, hnlink, if_pos rfl, if_pos rfl]
      exact .inl (by simp [hjd])
    · rw [hother j hji, if_neg hji, if_neg (Ne.symm hji)]
      exact .inr ⟨rfl, id, by simp [hjd]⟩

/-- One more link counted for a file, as `sys_link` does before it has written the entry. -/
theorem bump (hnondir : (img.inode ip).type ≠ .dir) (hn : Raised (img.inode ip).nlink n) :
    (img.set ip ((img.inode ip).count n)).Ok := by
  refine ⟨h.toWf.set_nlink hn.short, fun j hj => ?_, fun d hd => ?_⟩
  · rw [links_count]
    rw [type_set (Dinode.count_type ..)] at hj
    have hlow := h.counts.low j hj
    rw [set_inode]
    split_ifs with hji
    · subst hji
      rw [Dinode.count_nlink]
      have := hn.step
      omega
    · exact hlow
  · rw [links_count]
    rw [type_set (Dinode.count_type ..)] at hd
    have hdi : d ≠ ip := by
      rintro rfl
      exact hnondir hd
    rw [set_inode_ne _ _ hdi]
    exact h.counts.dir d hd

/-- Another entry for a file, its count raised before. -/
theorem link (hip : (img.inode ip).type ≠ .free) (hnondir : (img.inode ip).type ≠ .dir) (hn : Raised (img.inode ip).nlink n)
    (hdp : (img.inode dp).type = .dir) (hname : isDots name = false)
    (hsize : (freeSlot (img.inode dp).ents + 1) * DIRENT ≤ MAXFILE * BSIZE) :
    ((img.set ip ((img.inode ip).count n)).set dp
      ((img.inode dp).addEnt ⟨ip, name⟩ (img.inode dp).nlink)).Ok ∧
    (0 ≤ n → img.FilesExact → ((img.set ip ((img.inode ip).count n)).set dp
      ((img.inode dp).addEnt ⟨ip, name⟩ (img.inode dp).nlink)).FilesExact) := by
  have hne : dp ≠ ip := by
    rintro rfl
    exact hnondir hdp
  have hwf := (h.bump hnondir hn).toWf
  have hlinks1 := fun j => img.links_count ip j n
  have hip1 : (img.set ip ((img.inode ip).count n)).inode ip = _ := img.set_inode_self ..
  have hother : ∀ j, j ≠ ip → (img.set ip ((img.inode ip).count n)).inode j = img.inode j := fun j hj => img.set_inode_ne _ hj
  generalize img.set ip ((img.inode ip).count n) = img1 at *
  rw [← hother dp hne] at hdp hsize ⊢
  have htype1 : (img1.inode ip).type = (img.inode ip).type := by rw [hip1, Dinode.count_type]
  have hwf2 := hwf.add hdp ⟨ip, name⟩ (by rw [htype1]; exact hip) hname hsize (hwf.short dp)
    fun hd => absurd (htype1 ▸ hd) hnondir
  refine h.of_slack hwf2 fun j hj => .inr ?_
  have hlinks := hwf.links_add hdp ⟨ip, name⟩ (img1.inode dp).nlink (hwf2.ne_zero hj)
  simp only [hlinks1, htype1, hnondir, and_false, if_false, Nat.add_zero] at hlinks
  rw [hlinks]
  by_cases hjd : j = dp
  · subst hjd
    rw [set_inode_self, Dinode.write_nlink, Dinode.write_type, hother j hne, if_neg (Ne.symm hne)]
    exact .inl ⟨rfl, id, by simp⟩
  · rw [set_inode_ne _ _ hjd]
    by_cases hji : j = ip
    · subst hji
      rw [hip1, Dinode.count_nlink, Dinode.count_type, if_pos rfl]
      rcases hn.step with hneg | ⟨rfl, hnonneg⟩
      · exact .inr ⟨not_le.2 hneg, hnondir, hneg⟩
      · exact .inl ⟨rfl, fun hneg => absurd hneg (not_lt.2 hnonneg), by omega⟩
    · rw [hother j hji, if_neg (Ne.symm hji)]
      exact .inl ⟨rfl, id, by simp⟩

/-- The entry of `e.inum` in `dp` cleared and its link no longer counted, and no longer the one that the `..` of a directory was. -/
theorem unlink (hdp : (img.inode dp).type = .dir) {off : Nat} {e : Dirent} (he : (img.inode dp).regular[off]? = some e)
    (hne : dp ≠ e.inum) (hpos : 1 ≤ (img.inode e.inum).nlink)
    (hn : n = (img.inode dp).nlink - if (img.inode e.inum).type = .dir then 1 else 0) :
    img.Keeps ((img.set dp ((img.inode dp).write (off + 2) ⟨0, []⟩ n)).set e.inum
      ((img.inode e.inum).count ((img.inode e.inum).nlink - 1))) := by
  obtain ⟨ents, hents, hreg, -⟩ := h.dotdot_eq hdp
  have hoff : off + 2 < (img.inode dp).ents.length := by
    rw [hreg] at he
    have := (List.getElem?_eq_some_iff.1 he).1
    rw [hents]
    simpa using this
  have hsize : (off + 2 + 1) * DIRENT ≤ MAXFILE * BSIZE := (Nat.mul_le_mul_right _ hoff).trans (h.size dp)
  have hshort : -2 ^ 15 ≤ n ∧ n < 2 ^ 15 := by
    have hlow := h.nlink_nonneg hdp
    have hmax := h.short dp
    rw [hn]
    split <;> omega
  have hwf : (img.set dp ((img.inode dp).write (off + 2) ⟨0, []⟩ n)).Wf := by
    refine h.toWf.set_ents hdp hoff.le hsize (fun h0 => absurd rfl h0) hshort fun j hj => ?_
    have := h.entries_clear hdp he n (h.dir_ne_zero hj)
    have := h.once j hj
    omega
  have hlinks1 := fun j hj => h.links_clear (j := j) hdp he n hj
  have htype1 := fun j => img.type_set (i := j) (Dinode.write_type (img.inode dp) (off + 2) ⟨0, []⟩ n)
  have hdp1 : (img.set dp ((img.inode dp).write (off + 2) ⟨0, []⟩ n)).inode dp = _ := img.set_inode_self ..
  have hother : ∀ j, j ≠ dp → (img.set dp ((img.inode dp).write (off + 2) ⟨0, []⟩ n)).inode j = img.inode j :=
    fun j hj => img.set_inode_ne _ hj
  generalize img.set dp ((img.inode dp).write (off + 2) ⟨0, []⟩ n) = img1 at *
  rw [← hother e.inum (Ne.symm hne)]
  have hwf2 : (img1.set e.inum ((img1.inode e.inum).count ((img1.inode e.inum).nlink - 1))).Wf :=
    hwf.set_nlink (by have := hwf.short e.inum; rw [hother _ (Ne.symm hne)] at this ⊢; omega)
  refine h.of_slack_true hwf2 fun j hj => .inr ?_
  have hlinks := hlinks1 j (hwf2.ne_zero hj)
  rw [links_count]
  rw [set_inode]
  split_ifs with hji
  · rw [hji, Dinode.count_nlink, Dinode.count_type, hother _ (Ne.symm hne)]
    rw [hji] at hlinks
    simp only [if_true, Ne.symm hne, false_and, if_false, Nat.add_zero] at hlinks
    exact ⟨rfl, by omega, by omega⟩
  · by_cases hjd : j = dp
    · rw [hjd, hdp1, Dinode.write_nlink, Dinode.write_type, hn]
      rw [hjd] at hlinks
      simp only [Ne.symm hne, if_false, true_and, Nat.add_zero] at hlinks
      refine ⟨rfl, fun hneg => absurd hneg (not_lt.2 (h.nlink_nonneg hdp)), ?_⟩
      by_cases hd : (img.inode e.inum).type = .dir
      · rw [if_pos hd] at hlinks ⊢
        omega
      · rw [if_neg hd] at hlinks ⊢
        omega
    · rw [hother j hjd]
      simp only [Ne.symm hji, if_false, hjd, false_and, Nat.add_zero] at hlinks
      exact ⟨rfl, id, by rw [hlinks]⟩

end Ok

/-- Some inodes of a set, allocated and without links, are freed; nothing else changes. -/
structure Freed (X : Nat → Prop) (img img' : Image) : Prop where
  ninodes : img'.ninodes = img.ninodes
  inode : ∀ i, img'.inode i = img.inode i ∨
    X i ∧ (img.inode i).type ≠ .free ∧ (img.inode i).nlink = 0 ∧ img'.inode i = (img.inode i).freed

namespace Freed

variable {X : Nat → Prop} {img' : Image} {Y : Nat → Prop}

theorem refl (img : Image) : Freed X img img := ⟨rfl, fun _ => .inl rfl⟩

theorem single (hi : X i) (ht : (img.inode i).type ≠ .free) (hn : (img.inode i).nlink = 0) : Freed X img (img.free i) := by
  refine ⟨rfl, fun j => ?_⟩
  by_cases hj : j = i
  · subst hj
    exact .inr ⟨hi, ht, hn, img.set_inode_self ..⟩
  · exact .inl (img.set_inode_ne _ hj)

variable (h : Freed X img img')

include h

theorem mono (hXY : ∀ i, X i → Y i) : Freed Y img img' :=
  ⟨h.ninodes, fun i => (h.inode i).imp_right fun hi => ⟨hXY i hi.1, hi.2⟩⟩

/-- The set may be any that what was freed is in. -/
theorem of_freed (hY : ∀ i, (img.inode i).type ≠ .free → (img.inode i).nlink = 0 →
    (img'.inode i).type = .free → Y i) : Freed Y img img' := by
  refine ⟨h.ninodes, fun i => (h.inode i).imp_right fun hi => ⟨hY i hi.2.1 hi.2.2.1 ?_, hi.2⟩⟩
  rw [hi.2.2.2]
  rfl

/-- What was freed is in the set. -/
theorem mem (ht : (img.inode i).type ≠ .free) (ht' : (img'.inode i).type = .free) : X i := by
  rcases h.inode i with heq | ⟨hi, -⟩
  · rw [heq] at ht'
    exact absurd ht' ht
  · exact hi

/-- What is still allocated is as it was. -/
theorem inode_eq (hj : (img'.inode j).type ≠ .free) : img'.inode j = img.inode j := by
  rcases h.inode j with heq | ⟨-, -, -, heq⟩
  · exact heq
  · rw [heq] at hj
    exact absurd rfl hj

theorem trans {img'' : Image} (h' : Freed X img' img'') : Freed X img img'' := by
  refine ⟨h'.ninodes.trans h.ninodes, fun i => ?_⟩
  rcases h'.inode i with heq | ⟨hX, ht, hn, heq⟩
  · rw [heq]
    exact h.inode i
  · have hsame := h.inode_eq ht
    rw [hsame] at ht hn heq
    exact .inr ⟨hX, ht, hn, heq⟩

theorem regular_eq (d : Nat) : (img'.inode d).regular = (img.inode d).regular ∨ (img'.inode d).regular = [] := by
  rcases h.inode d with heq | ⟨-, -, -, heq⟩
  · exact .inl (by rw [heq])
  · exact .inr (by rw [heq]; rfl)

theorem entries_le (j : Nat) : img'.entries j ≤ img.entries j := by
  unfold entries
  rw [h.ninodes]
  refine Finset.sum_le_sum fun d _ => ?_
  rcases h.regular_eq d with heq | heq
  · rw [heq]
  · rw [heq]
    exact Nat.zero_le _

section Counts

variable (hok : img.Ok)

include hok

/-- What was freed is named by no entry, and had none that names a directory. -/
theorem unnamed (ht : (img.inode i).type ≠ .free) (ht' : (img'.inode i).type = .free) :
    img.entries i = 0 ∧ i ≠ ROOTINO ∧ img.subs i = 0 := by
  rcases h.inode i with heq | ⟨-, -, hn, -⟩
  · rw [heq] at ht'
    exact absurd ht' ht
  · exact hok.unnamed ht hn

/-- What an entry names is not freed. -/
theorem type_of_mem {e : Dirent} (he : e ∈ (img.inode d).regular) : (img'.inode e.inum).type = (img.inode e.inum).type := by
  rcases h.inode e.inum with heq | ⟨-, ht, hn, -⟩
  · rw [heq]
  · exact absurd rfl (hok.not_named (hok.unnamed ht hn).1 he)

/-- The entries that name `j` are all still there, unless a directory that was freed had one. -/
theorem entries_eq (hj : ∀ d, (img.inode d).type = .dir → (img'.inode d).type = .free → ∀ e ∈ (img.inode d).regular, e.inum ≠ j) :
    img'.entries j = img.entries j := by
  unfold entries
  rw [h.ninodes]
  refine Finset.sum_congr rfl fun d _ => ?_
  rcases h.inode d with heq | ⟨-, -, -, heq⟩
  · rw [heq]
  · have hfree : (img'.inode d).type = .free := by rw [heq]; rfl
    rw [heq]
    refine (countP_eq_zero.2 fun e he => ?_).symm
    rw [decide_eq_true_eq]
    exact hj d (hok.dir_of_mem he) hfree e he

theorem subs_eq (hj : (img'.inode j).type ≠ .free) : img'.subs j = img.subs j := by
  unfold subs
  rw [h.inode_eq hj]
  exact countP_congr fun e he => by rw [h.type_of_mem hok he]

/-- The tree and the counts survive if no directory that stays has one that was freed as `..`. -/
theorem ok (hparent : ∀ D E, (img.inode D).type = .dir → (img'.inode D).type = .free → (img'.inode E).type = .dir →
      (img.inode E).dotdot ≠ D) : img'.Ok := by
  have halloc : ∀ {i}, (img'.inode i).type ≠ .free → (img.inode i).type ≠ .free := fun hi => by
    rw [← h.inode_eq hi]
    exact hi
  refine ⟨?_, fun j hj => ?_, fun d hd => ?_⟩
  · constructor
    · by_contra h0
      exact halloc h0 hok.zero
    · by_contra hroot
      have hfree : (img'.inode ROOTINO).type = .free := by
        by_contra hne
        rw [h.inode_eq hne] at hroot
        exact hroot hok.root
      exact (h.unnamed hok (by rw [hok.root]; decide) hfree).2.1 rfl
    · intro i hi
      rw [h.ninodes]
      exact hok.bound i (halloc hi)
    · rw [h.ninodes]
      exact hok.ushort
    · intro i
      rcases h.inode i with heq | ⟨-, -, -, heq⟩ <;> rw [heq] <;> exact hok.short i
    · intro i hi
      rcases h.inode i with heq | ⟨-, -, -, heq⟩
      · rw [heq] at hi ⊢
        exact hok.nondir i hi
      · rw [heq]
        rfl
    · intro d hd
      have heq := h.inode_eq (j := d) (by rw [hd]; decide)
      have hdir := hd
      rw [heq] at hdir ⊢
      obtain ⟨ents, hents, -, hdot⟩ := hok.dotdot_eq hdir
      refine ⟨_, ents, hents, ?_⟩
      by_cases hfree : (img'.inode (img.inode d).dotdot).type = .free
      · exact absurd rfl (hparent _ d hdot hfree hd)
      · rw [h.inode_eq hfree]
        exact hdot
    · intro d e he hne
      rcases h.regular_eq d with heq | heq
      · rw [heq] at he
        rw [h.type_of_mem hok he]
        exact hok.regular d e he hne
      · rw [heq] at he
        exact absurd he not_mem_nil
    · intro d
      rcases h.inode d with heq | ⟨-, -, -, heq⟩
      · rw [heq]
        exact hok.size d
      · rw [heq]
        exact Nat.zero_le _
    · intro d hd
      rw [h.inode_eq (by rw [hd]; decide)] at hd
      exact (Nat.add_le_add_right (h.entries_le d) _).trans (hok.once d hd)
  · have hlow := hok.counts.low j (halloc hj)
    have hle := h.entries_le j
    unfold links at hlow ⊢
    rw [h.subs_eq hok hj, h.inode_eq hj]
    omega
  · have hne : (img'.inode d).type ≠ .free := by rw [hd]; decide
    rw [h.inode_eq hne] at hd ⊢
    rw [hok.counts.dir d hd]
    unfold links
    rw [h.subs_eq hok hne, h.entries_eq hok]
    -- a directory that one without links had an entry for would count as its subdirectory
    rintro c hc hfree e he rfl
    have := countP_eq_zero.1 (h.unnamed hok (by rw [hc]; decide) hfree).2.2 e he
    rw [decide_eq_true_eq] at this
    exact this hd

/-- Exact counts stay exact if the directories freed had no entries but `.` and `..`. -/
theorem filesExact (hempty : ∀ D, (img.inode D).type = .dir → (img'.inode D).type = .free → ∀ e ∈ (img.inode D).regular, e.inum = 0)
    (hf : img.FilesExact) : img'.FilesExact := by
  intro j hj hjd
  have heq := h.inode_eq hj
  have hj0 : j ≠ 0 := by
    rintro rfl
    rw [heq] at hj
    exact hj hok.zero
  have hlinks : img'.links j = img.links j := by
    unfold links
    rw [h.subs_eq hok hj, h.entries_eq hok]
    intro d hd hfree e he
    rw [hempty d hd hfree e he]
    exact Ne.symm hj0
  rw [heq] at hj hjd ⊢
  rw [hf j hj hjd, hlinks]

end Counts

end Freed

end Image

end Xv6.Fs
