import Xv6.Lemmas.FsImage

/-!
# Open files and current directories

`filealloc`, `fdalloc` and `fileclose`, and the change of a current directory: what they do to the references, and when the reference
given back is the last one.
-/

namespace Xv6.Fs

open Lib List

namespace FsAux

variable {P : Prop} {held : List Nat} {s t : State} {i : Nat} {f : Fin NFILE} {Q : Unit → State → Prop} {F : File}

/-- What `fileclose` leaves: one reference to the file less, and its inode freed if the file held the last reference to it and there
are no links. -/
structure Closed (held : List Nat) (s t : State) (f : Fin NFILE) : Prop where
  cwd : t.cwd = s.cwd
  ofile : t.ofile = s.ofile
  others : ∀ g, g ≠ f → t.file g = s.file g
  ref : (t.file f).ref + 1 = (s.file f).ref
  holding : (t.file f).holding = (s.file f).holding ∨ (t.file f).ref = 0 ∧ (t.file f).holding = none
  refs : t.RefsOk held
  freed : s.Freed (fun i => (s.file f).ref = 1 ∧ (s.file f).holding = some i ∧ s.ref i = 1) t.toImage
  holds : (s.file f).holding = none → t.holds = s.holds

theorem modifyFile_wp {g : File → File} (h : Q () (s.withFile f (g (s.file f)))) :
    Wp (Allowed P) (modifyFile f g) s Q := Wp.of_eq rfl h

/-- Another descriptor still has the file. -/
theorem closed_more (h : s.RefsOk held) (hmore : 1 < (s.file f).ref) :
    Closed held s (s.withFile f { s.file f with ref := (s.file f).ref - 1 }) f := by
  have href : (s.file f).ref - 1 + 1 = (s.file f).ref := by omega
  have hne : (s.file f).ref - 1 ≠ 0 := by omega
  have hsame : ({ s.file f with ref := (s.file f).ref - 1 } : File).holding = (s.file f).holding := rfl
  refine ⟨rfl, rfl, fun g => s.withFile_file_ne _, ?_, .inl ?_, ?_, .refl _, fun _ => ?_⟩
  · rw [State.withFile_file_self]
    exact href
  · rw [State.withFile_file_self, hsame]
  · refine RefsOk.withFile h (fun i => by rw [hsame]) (fun hr => absurd hr hne) (fun i hi => ?_) h.alloc
    rw [hsame] at hi
    exact ⟨h.file f i hi, h.valid i (Nat.add_pos_right _ (tally_pos (f := fun f => (s.file f).holding) hi))⟩
  · funext i
    have := holds_withFile s f { s.file f with ref := (s.file f).ref - 1 } i
    rw [hsame] at this
    exact Nat.add_right_cancel this

/-- The last descriptor of a file without an inode. -/
theorem closed_none (h : s.RefsOk held) (hone : (s.file f).ref = 1) (href : F.ref = 0) (hF : F.holding = none)
    (htype : F.type = .none) (hno : (s.file f).holding = none) : Closed held s (s.withFile f F) f := by
  refine ⟨rfl, rfl, fun g => s.withFile_file_ne F, ?_, .inr ?_, ?_, .refl _, fun _ => ?_⟩
  · rw [State.withFile_file_self, href, hone]
  · rw [State.withFile_file_self]
    exact ⟨href, hF⟩
  · refine RefsOk.withFile h (fun i => by rw [hF, hno]) (fun _ => htype) (fun i hi => ?_) h.alloc
    rw [hF] at hi
    cases hi
  · funext i
    have := holds_withFile s f F i
    rw [hF, hno] at this
    exact Nat.add_right_cancel this

/-- The last descriptor of a file with an inode: the reference of the file is given back. -/
theorem closed_last_wp (h : s.RefsOk held) (hone : (s.file f).ref = 1) (href : F.ref = 0) (hF : F.holding = none)
    (htype : F.type = .none) (hi : (s.file f).holding = some i) :
    Wp (Allowed P) (iput i) (s.withFile f F) fun _ t => Closed held s t f := by
  have hpos : 0 < s.holds i := Nat.add_pos_right _ (tally_pos (f := fun f => (s.file f).holding) hi)
  have hrefs : (s.withFile f F).RefsOk (i :: held) := by
    refine RefsOk.withFile h (fun j => ?_) (fun _ => htype) (fun j hj => ?_) (fun j hj => ?_)
    · rw [hF, hi, count_cons]
      simp
    · rw [hF] at hj
      cases hj
    · rcases mem_cons.1 hj with rfl | hj
      · exact h.file f j hi
      · exact h.alloc j hj
  refine (iput_wp hrefs fun _ => h.valid i hpos).mono fun _ w hw => ?_
  have hself : w.file f = F := by rw [hw.file, State.withFile_file_self]
  refine ⟨hw.cwd, hw.ofile, fun g hg => by rw [hw.file, State.withFile_file_ne _ _ hg], by rw [hself, href, hone],
    .inr (by rw [hself]; exact ⟨href, hF⟩), hw.refs, ?_, ?_⟩
  · rcases hw.img with ⟨-, himg⟩ | ⟨hlast, himg⟩
    · rw [himg]
      exact .refl _
    · obtain ⟨hn, hh, hmem⟩ := not_safe_iff.1 hlast
      rw [himg]
      refine .single ⟨hone, hi, ?_⟩ (h.file f i hi) hn
      have hholds := holds_withFile s f F i
      simp only [hF, hi, if_true, reduceCtorEq, if_false, hh] at hholds
      rw [h.ref, count_eq_zero.2 hmem]
      omega
  · intro hno
    rw [hi] at hno
    cases hno

theorem fileclose_wp (h : s.RefsOk held) : Wp (Allowed P) (fileclose f) s fun _ t => Closed held s t f := by
  unfold fileclose
  refine Wp.bind (R := fun ff t => ff = s.file f ∧ t = s) (Wp.of_eq rfl ⟨rfl, rfl⟩) ?_
  rintro ff t ⟨rfl, rfl⟩
  by_cases hlow : (t.file f).ref < 1
  · rw [if_pos hlow]
    exact Wp.throw ⟨Panic.noConfusion, fun _ => Panic.noConfusion⟩
  rw [if_neg hlow]
  by_cases hmore : 1 < (t.file f).ref
  · rw [if_pos hmore]
    exact modifyFile_wp (closed_more h hmore)
  · rw [if_neg hmore]
    have hone : (t.file f).ref = 1 := by omega
    refine (modifyFile_wp (Q := fun _ u => u = t.withFile f { t.file f with ref := 0, type := .none }) rfl).bind ?_
    rintro _ u rfl
    by_cases htype : (t.file f).type = .inode ∨ (t.file f).type = .device
    · rw [if_pos htype]
      exact closed_last_wp h hone rfl rfl rfl (if_pos htype)
    · rw [if_neg htype]
      exact Wp.pure (closed_none h hone rfl rfl rfl (if_neg htype))

theorem filealloc_wp : Wp (Allowed P) filealloc s fun r t => r = none ∧ t = s ∨
    ∃ f, r = some f ∧ (s.file f).ref = 0 ∧ t = s.withFile f { s.file f with ref := 1 } := by
  cases hf : (finRange NFILE).find? fun f => (s.file f).ref = 0 with
  | none =>
    have heq : filealloc s = .ok (none, s) := by rw [filealloc, hf]
    exact Wp.of_eq heq (.inl ⟨rfl, rfl⟩)
  | some f =>
    have hzero := find?_some hf
    rw [decide_eq_true_eq] at hzero
    have heq : filealloc s = .ok (some f, s.withFile f { s.file f with ref := 1 }) := by
      rw [filealloc, hf]
      rfl
    exact Wp.of_eq heq (.inr ⟨f, rfl, hzero, rfl⟩)

/-- The descriptors play no part in the references. -/
theorem RefsOk.withOfile (h : s.RefsOk held) (p : Fin NPROC) (fd : Fin NOFILE) (g : Option (Fin NFILE)) :
    (s.withOfile p fd g).RefsOk held :=
  RefsOk.rehold h rfl rfl rfl (fun _ => rfl) h.cwd h.file h.unused h.alloc h.valid

theorem setOfile_wp {p : Fin NPROC} {fd : Fin NOFILE} {g : Option (Fin NFILE)}
    (h : Q () (s.withOfile p fd g)) : Wp (Allowed P) (setOfile p fd g) s Q := Wp.of_eq rfl h

theorem fdalloc_wp (p : Fin NPROC) : Wp (Allowed P) (fdalloc p f) s fun r t => r = none ∧ t = s ∨
    ∃ fd, r = some fd ∧ t = s.withOfile p fd (some f) := by
  cases hf : (finRange NOFILE).find? fun fd => s.ofile p fd = none with
  | none =>
    have heq : fdalloc p f s = .ok (none, s) := by rw [fdalloc, hf]
    exact Wp.of_eq heq (.inl ⟨rfl, rfl⟩)
  | some fd =>
    have heq : fdalloc p f s = (do setOfile p fd (some f); pure (some fd) : FsM (Option (Fin NOFILE))) s := by rw [fdalloc, hf]
    exact Wp.of_eq heq (.inr ⟨fd, rfl, rfl⟩)

/-! ## The current directory -/

variable {p : Fin NPROC} {old : Nat}

/-- `iput` neither reads nor changes current directories. -/
theorem iput_withCwd (d : Option Nat) : iput i (s.withCwd p d) = (iput i s).map fun r => (r.1, r.2.withCwd p d) := by
  by_cases hc : s.ref i = 1 ∧ s.valid i = true ∧ (s.inode i).nlink = 0
  · rw [show iput i s = _ from if_pos hc]
    exact if_pos hc
  · rw [show iput i s = _ from if_neg hc]
    exact if_neg hc

/-- `iput(p->cwd)`: when its reference is given back the process no longer counts as a holder, although `p->cwd` is set only after. -/
theorem putCwd_wp (h : s.RefsOk held) (hcwd : s.cwd p = some old) :
    Wp (Allowed P) (putCwd p) s fun _ w => Put held (s.withCwd p none) (w.withCwd p none) old := by
  have hdir := h.cwd p old hcwd
  have hrefs : (s.withCwd p none).RefsOk (old :: held) := by
    refine RefsOk.withCwd h (fun i => ?_) (fun i hi => ?_) (fun i hi => ?_)
    · rw [hcwd, count_cons]
      simp
    · cases hi
    · rcases mem_cons.1 hi with rfl | hi
      · rw [hdir]
        decide
      · exact h.alloc i hi
  have hvalid : s.valid old = true := h.valid old (Nat.add_pos_left (tally_pos hcwd) _)
  have hput := @iput_wp (Allowed P) _ _ _ hrefs fun _ => hvalid
  have heq : putCwd p s = iput old s := by rw [putCwd, hcwd]
  unfold Wp at hput ⊢
  rw [iput_withCwd] at hput
  rw [heq]
  cases hrun : iput old s with
  | error e | ok r => rw [hrun] at hput; exact hput

theorem setCwd_wp {d : Option Nat} (h : Q () (s.withCwd p d)) : Wp (Allowed P) (setCwd p d) s Q := Wp.of_eq rfl h

/-- What a change of the current directory frees: the old one, if this was its last use. -/
theorem Put.freed_cwd {w : State} (h : s.RefsOk held) (hcwd : s.cwd p = some old) (hput : Put held (s.withCwd p none) w old) :
    s.Freed (fun D => D = old ∧ s.holds D = 1 ∧ D ∉ held) w.toImage := by
  rcases hput.img with ⟨-, himg⟩ | ⟨hlast, himg⟩
  · rw [himg]
    exact .refl _
  · obtain ⟨hn, hh, hmem⟩ := not_safe_iff.1 hlast
    rw [himg]
    refine .single ⟨rfl, ?_, hmem⟩ (by rw [h.cwd p old hcwd]; decide) hn
    have hholds := holds_withCwd s p none old
    simp only [hcwd, if_true, reduceCtorEq, if_false, hh] at hholds
    omega

end FsAux

end Xv6.Fs
