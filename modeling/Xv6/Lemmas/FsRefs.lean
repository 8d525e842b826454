import Xv6.FsSpec
import Xv6.Lib.Wp

/-!
# References to inodes during a call

One lemma for each function that takes, gives back or uses a reference: what it does to the reference counts, given those in `held`
that the call in progress has. `Safe held s i` says that giving back one more reference to `i` does not free it.
-/

namespace Xv6.Fs

open Lib Function List

/-- An inode truncated and marked free. -/
def Dinode.freed (d : Dinode) : Dinode := { d with type := .free, ents := [] }

/-- An inode with another link count. -/
def Dinode.count (d : Dinode) (n : Int) : Dinode := { d with nlink := n }

/-- A directory with an entry written and another link count. -/
def Dinode.write (d : Dinode) (off : Nat) (de : Dirent) (n : Int) : Dinode := { d with ents := writeEnt d.ents off de, nlink := n }

variable (d : Dinode) (off : Nat) (n : Int) (de : Dirent)

@[simp] theorem Dinode.write_ents (n : Int) :
    (d.write off de n).ents = writeEnt d.ents off de := rfl

@[simp] theorem Dinode.write_type (n : Int) : (d.write off de n).type = d.type := rfl

@[simp] theorem Dinode.write_nlink (n : Int) : (d.write off de n).nlink = n := rfl

@[simp] theorem Dinode.count_type : (d.count n).type = d.type := rfl

@[simp] theorem Dinode.count_nlink : (d.count n).nlink = n := rfl

namespace Image

variable (img : Image) (i j : Nat) (d e : Dinode)

@[simp] theorem set_inode_self : (img.set i d).inode i = d := update_self ..

@[simp] theorem set_set : (img.set i d).set i e = img.set i e := by
  unfold set
  rw [update_idem]

@[simp] theorem set_same : img.set i (img.inode i) = img := by
  unfold set
  rw [update_eq_self]

theorem set_comm (h : i ≠ j) : (img.set i d).set j e = (img.set j e).set i d := by
  unfold set
  rw [update_comm h]

/-- Inode `i` truncated and marked free, as `iput` does. -/
def free : Image := img.set i (img.inode i).freed

variable {i j} in
theorem set_inode_ne (h : j ≠ i) : (img.set i d).inode j = img.inode j := update_of_ne h ..

theorem set_inode : (img.set i d).inode j = if j = i then d else img.inode j := update_apply ..

end Image

namespace FsAux

/-- The panics that a consistent file system may run into: not `ilock: no type`, and not `unlink: nlink < 1` if `P`. -/
def Allowed (P : Prop) (e : Panic) : Prop := e ≠ .ilockNoType ∧ (P → e ≠ .unlinkNlink)

/-- Only the inode table differs. -/
structure Cached (s t : State) : Prop where
  img : t.toImage = s.toImage
  file : t.file = s.file
  cwd : t.cwd = s.cwd
  ofile : t.ofile = s.ofile

theorem Cached.refl (s : State) : Cached s s := ⟨rfl, rfl, rfl, rfl⟩

theorem Cached.trans {s t u : State} (h : Cached s t) (h' : Cached t u) : Cached s u :=
  ⟨h'.img.trans h.img, h'.file.trans h.file, h'.cwd.trans h.cwd, h'.ofile.trans h.ofile⟩

theorem Cached.holds {s t : State} (h : Cached s t) : t.holds = s.holds := by
  funext i
  unfold State.holds
  rw [h.cwd, h.file]

/-- Giving back one more reference to `i` than those in `held` does not free it. -/
def Safe (held : List Nat) (s : State) (i : Nat) : Prop := (s.inode i).nlink ≠ 0 ∨ 0 < s.holds i + held.count i

/-- The same link count and the same holders. -/
theorem Safe.transfer {held : List Nat} {s t : State} {i : Nat} (h : Safe held s i)
    (hn : (t.inode i).nlink = (s.inode i).nlink) (hh : t.holds = s.holds) : Safe held t i := by
  unfold Safe at h ⊢
  rw [hn, hh]
  exact h

theorem Safe.cached {held : List Nat} {s t : State} {i : Nat} (h : Safe held s i) (hc : Cached s t) : Safe held t i :=
  h.transfer (by rw [hc.img]) hc.holds

theorem Safe.mono {held held' : List Nat} {s : State} {i : Nat} (h : Safe held s i) (hle : held.count i ≤ held'.count i) :
    Safe held' s i := by
  unfold Safe at h ⊢
  omega

variable {P : Prop} {allowed : Panic → Prop} {held : List Nat} {s t : State} {i : Nat} {held' : List Nat}

theorem Allowed.full : Allowed P .igetNoInodes := ⟨Panic.noConfusion, fun _ => Panic.noConfusion⟩

/-- The same file system with other reference counts. -/
theorem RefsOk.recount (h : s.RefsOk held) (hc : Cached s t)
    (href : ∀ j, t.ref j = s.holds j + held'.count j) (halloc : ∀ j ∈ held', (s.inode j).type ≠ .free)
    (hvalid : ∀ j, 0 < s.holds j → t.valid j = true)
    (horphan : ∀ j, (s.inode j).type ≠ .free → (s.inode j).nlink = 0 → 0 < s.holds j + held'.count j) :
    t.RefsOk held' where
  ref j := by rw [hc.holds]; exact href j
  cwd p d hp := by rw [hc.cwd] at hp; rw [hc.img]; exact h.cwd p d hp
  file f j hf := by rw [hc.file] at hf; rw [hc.img]; exact h.file f j hf
  unused f hf := by rw [hc.file] at hf ⊢; exact h.unused f hf
  alloc j hj := by rw [hc.img]; exact halloc j hj
  valid j hj := by rw [hc.holds] at hj; exact hvalid j hj
  orphan j hj hn := by rw [hc.img] at hj hn; rw [hc.holds]; exact horphan j hj hn

/-- The order in which a call holds its references does not matter. -/
theorem RefsOk.perm (h : s.RefsOk held) (hp : held.Perm held') : s.RefsOk held' :=
  RefsOk.recount h (Cached.refl s) (fun j => by rw [h.ref j, hp.count_eq]) (fun j hj => h.alloc j (hp.mem_iff.2 hj)) h.valid
    (fun j hj hn => by rw [← hp.count_eq]; exact h.orphan j hj hn)

/-- An inode in use is a current directory or that of an open file. -/
theorem exists_holder (h : 0 < s.holds i) : (∃ p, s.cwd p = some i) ∨ ∃ f, (s.file f).holding = some i := by
  by_cases hcwd : 0 < tally s.cwd i
  · exact .inl (exists_of_tally_pos hcwd)
  · have hfile : 0 < tally (fun f => (s.file f).holding) i := by
      unfold State.holds at h
      omega
    exact .inr (exists_of_tally_pos hfile)

section

variable (h : s.RefsOk held)

include h

/-- An inode in use is allocated. -/
theorem RefsOk.type_of_holds (hi : 0 < s.holds i) : (s.inode i).type ≠ .free := by
  rcases exists_holder hi with ⟨p, hp⟩ | ⟨f, hf⟩
  · rw [h.cwd p i hp]
    decide
  · exact h.file f i hf

theorem RefsOk.ref_pos (hi : i ∈ held) : 0 < s.ref i := by
  rw [h.ref i]
  have := count_pos_iff.2 hi
  omega

/-- A free inode has no references. -/
theorem RefsOk.ref_free (hi : (s.inode i).type = .free) : s.ref i = 0 := by
  have hh : s.holds i = 0 := by
    by_contra hne
    exact RefsOk.type_of_holds h (Nat.pos_of_ne_zero hne) hi
  have hc : held.count i = 0 := count_eq_zero.2 fun hmem => h.alloc i hmem hi
  rw [h.ref i, hh, hc]

section

variable (hi : (s.inode i).type ≠ .free)

include hi

/-- Another reference to an inode in `held` or in use. -/
theorem RefsOk.cons (hc : Cached s t)
    (href : t.ref = update s.ref i (s.ref i + 1)) (hvalid : ∀ j, 0 < s.ref j → t.valid j = s.valid j) :
    t.RefsOk (i :: held) := by
  refine RefsOk.recount h hc (fun j => ?_) (fun j hj => ?_) (fun j hj => ?_) (fun j hj hn => ?_)
  · rw [href, count_cons]
    by_cases hji : j = i
    · subst hji
      rw [update_self, h.ref j]
      simp only [BEq.rfl, if_true]
      omega
    · rw [update_of_ne hji, h.ref j, if_neg (by simpa using Ne.symm hji)]
      omega
  · rcases mem_cons.1 hj with rfl | hj
    · exact hi
    · exact h.alloc j hj
  · rw [hvalid j (by rw [h.ref j]; omega)]
    exact h.valid j hj
  · have := h.orphan j hj hn
    rw [count_cons]
    omega

theorem iget_wp (hallow : NINODE ≤ s.active → allowed .igetNoInodes) :
    Wp allowed (iget i) s fun _ t => Cached s t ∧ t.RefsOk (i :: held) ∧ ∀ j, 0 < s.ref j → t.valid j = s.valid j := by
  unfold Wp iget
  by_cases hpos : 0 < s.ref i
  · rw [if_pos hpos]
    exact ⟨⟨rfl, rfl, rfl, rfl⟩, RefsOk.cons h hi ⟨rfl, rfl, rfl, rfl⟩ rfl fun _ _ => rfl, fun _ _ => rfl⟩
  · rw [if_neg hpos]
    by_cases hfull : NINODE ≤ s.active
    · rw [if_pos hfull]
      exact hallow hfull
    · rw [if_neg hfull]
      have hzero : s.ref i = 0 := by omega
      have hkeep : ∀ j, 0 < s.ref j → update s.valid i false j = s.valid j := by
        intro j hj
        refine update_of_ne ?_ ..
        rintro rfl
        exact hpos hj
      exact ⟨⟨rfl, rfl, rfl, rfl⟩, RefsOk.cons h hi ⟨rfl, rfl, rfl, rfl⟩ (by rw [hzero]) hkeep, hkeep⟩

theorem idup_wp :
    Wp allowed (idup i) s fun _ t => Cached s t ∧ t.RefsOk (i :: held) :=
  Wp.of_eq rfl ⟨⟨rfl, rfl, rfl, rfl⟩, RefsOk.cons h hi ⟨rfl, rfl, rfl, rfl⟩ rfl fun _ _ => rfl⟩

end

theorem ilock_wp (hi : i ∈ held) :
    Wp allowed (ilock i) s fun _ t => Cached s t ∧ t.RefsOk held ∧ t.valid i = true ∧ ∀ j, s.valid j = true → t.valid j = true := by
  have hpos := RefsOk.ref_pos h hi
  unfold Wp ilock
  rw [if_neg (by omega)]
  by_cases hv : s.valid i = true
  · rw [if_pos hv]
    exact ⟨Cached.refl s, h, hv, fun _ hj => hj⟩
  · rw [if_neg hv, if_neg (h.alloc i hi)]
    have hkeep : ∀ j, s.valid j = true → update s.valid i true j = true := by
      intro j hj
      rw [update_apply]
      split_ifs
      · rfl
      · exact hj
    have hc : Cached s { s with valid := update s.valid i true } := ⟨rfl, rfl, rfl, rfl⟩
    exact ⟨hc, RefsOk.recount h hc h.ref h.alloc (fun j hj => hkeep j (h.valid j hj)) h.orphan, update_self .., hkeep⟩

end

/-- What `iput` leaves: the inode is freed if this was the last reference and there are no links. -/
structure Put (held : List Nat) (s t : State) (i : Nat) : Prop where
  img : Safe held s i ∧ t.toImage = s.toImage ∨ ¬ Safe held s i ∧ t.toImage = s.free i
  file : t.file = s.file
  cwd : t.cwd = s.cwd
  ofile : t.ofile = s.ofile
  valid : ∀ j, (j = i → Safe held s i) → t.valid j = s.valid j
  refs : t.RefsOk held

theorem not_safe_iff : ¬ Safe held s i ↔ (s.inode i).nlink = 0 ∧ s.holds i = 0 ∧ i ∉ held := by
  unfold Safe
  rw [← count_eq_zero]
  omega

/-- A reference given back that is not the last. -/
theorem put_keep (h : s.RefsOk (i :: held)) (hs : Safe held s i) (hc : Cached s t)
    (href : t.ref = update s.ref i (s.ref i - 1)) (hvalid : t.valid = s.valid) : Put held s t i := by
  refine ⟨.inl ⟨hs, hc.img⟩, hc.file, hc.cwd, hc.ofile, fun j _ => by rw [hvalid],
    RefsOk.recount h hc (fun j => ?_) ?_ (fun j hj => by rw [hvalid]; exact h.valid j hj) ?_⟩
  · have hj := h.ref j
    rw [href]
    by_cases hji : j = i
    · subst hji
      rw [count_cons_self] at hj
      rw [update_self]
      omega
    · rw [count_cons_of_ne (Ne.symm hji)] at hj
      rw [update_of_ne hji, hj]
  · exact fun j hj => h.alloc j (mem_cons_of_mem i hj)
  · intro j hj hn
    have ho := h.orphan j hj hn
    by_cases hji : j = i
    · subst hji
      exact hs.resolve_left fun hne => hne hn
    · rwa [count_cons_of_ne (Ne.symm hji)] at ho

/-- The last reference to an inode without links given back. -/
theorem put_last (h : s.RefsOk (i :: held)) (hs : ¬ Safe held s i) (himg : t.toImage = s.free i) (hfile : t.file = s.file)
    (hcwd : t.cwd = s.cwd) (hofile : t.ofile = s.ofile) (href : t.ref = update s.ref i 0)
    (hvalid : t.valid = update s.valid i false) : Put held s t i := by
  obtain ⟨hn, hh, hmem⟩ := not_safe_iff.1 hs
  have hholds : t.holds = s.holds := by
    funext j
    unfold State.holds
    rw [hcwd, hfile]
  have hne : ∀ j, 0 < s.holds j → j ≠ i := by
    rintro j hj rfl
    omega
  have hother : ∀ j, j ≠ i → t.inode j = s.inode j := fun j hj => by
    rw [himg]
    exact s.set_inode_ne _ hj
  refine ⟨.inr ⟨hs, himg⟩, hfile, hcwd, hofile, fun j hj => by rw [hvalid, update_of_ne fun hji => hs (hj hji)], ?_⟩
  constructor
  · intro j
    rw [href, hholds]
    rw [update_apply]
    split_ifs with hji
    · subst hji
      rw [hh, count_eq_zero.2 hmem]
    · rw [h.ref j, count_cons_of_ne (Ne.symm hji)]
  · intro p d hp
    rw [hcwd] at hp
    rw [hother d (hne d (Nat.add_pos_left (tally_pos hp) _))]
    exact h.cwd p d hp
  · intro f j hf
    rw [hfile] at hf
    have hpos : 0 < tally (fun f => (s.file f).holding) j := tally_pos hf
    rw [hother j (hne j (Nat.add_pos_right _ hpos))]
    exact h.file f j hf
  · rw [hfile]
    exact h.unused
  · intro j hj
    rw [hother j fun hji => hmem (hji ▸ hj)]
    exact h.alloc j (mem_cons_of_mem i hj)
  · intro j hj
    rw [hholds] at hj
    rw [hvalid, update_of_ne (hne j hj)]
    exact h.valid j hj
  · intro j hj hnj
    have hji : j ≠ i := by
      rintro rfl
      rw [himg] at hj
      exact hj (congrArg Dinode.type (s.set_inode_self ..))
    rw [hother j hji] at hj hnj
    have ho := h.orphan j hj hnj
    rw [count_cons_of_ne (Ne.symm hji)] at ho
    rw [hholds]
    exact ho

theorem iput_wp (h : s.RefsOk (i :: held)) (hv : ¬ Safe held s i → s.valid i = true) :
    Wp allowed (iput i) s fun _ t => Put held s t i := by
  have href := h.ref i
  rw [count_cons_self] at href
  unfold Wp iput
  by_cases hs : Safe held s i
  · rw [if_neg]
    · exact put_keep h hs ⟨rfl, rfl, rfl, rfl⟩ rfl rfl
    · rintro ⟨hone, -, hn⟩
      rcases hs with hs | hs
      · exact hs hn
      · omega
  · obtain ⟨hn, hh, hmem⟩ := not_safe_iff.1 hs
    have hone : s.ref i = 1 := by rw [href, hh, count_eq_zero.2 hmem]
    rw [if_pos ⟨hone, hv hs, hn⟩]
    exact put_last h hs rfl rfl rfl rfl rfl rfl

theorem Put.holds (h : Put held s t i) : t.holds = s.holds := by
  funext j
  unfold State.holds
  rw [h.cwd, h.file]

theorem Put.cached (h : Put held s t i) (hs : Safe held s i) : Cached s t :=
  ⟨(h.img.resolve_right fun hn => hn.1 hs).2, h.file, h.cwd, h.ofile⟩

theorem iput_safe_wp (h : s.RefsOk (i :: held)) (hs : Safe held s i) :
    Wp allowed (iput i) s fun _ t => Cached s t ∧ t.RefsOk held ∧ ∀ j, t.valid j = s.valid j :=
  (iput_wp h fun hn => absurd hs hn).mono fun _ _ hp => ⟨hp.cached hs, hp.refs, fun j => hp.valid j fun _ => hs⟩

/-! ## Changing the image -/

end FsAux

/-- The same tables over another image. -/
def State.withImg (s : State) (img : Image) : State := { s with toImage := img }

variable (s : State) (p : Fin NPROC) (f : Fin NFILE) (img : Image) (F : File) (fd : Fin NOFILE)

@[simp] theorem State.withImg_img : (s.withImg img).toImage = img := rfl

@[simp] theorem State.withImg_withImg (img img' : Image) : (s.withImg img).withImg img' = s.withImg img' := rfl

@[simp] theorem State.withImg_holds (i : Nat) : (s.withImg img).holds i = s.holds i := rfl

/-- One `struct file` changed. -/
def State.withFile (s : State) (f : Fin NFILE) (F : File) : State := { s with file := update s.file f F }

@[simp] theorem State.withFile_img : (s.withFile f F).toImage = s.toImage := rfl

@[simp] theorem State.withFile_cwd : (s.withFile f F).cwd = s.cwd := rfl

@[simp] theorem State.withFile_file_self : (s.withFile f F).file f = F :=
  update_self ..

theorem State.withFile_file_ne {f g : Fin NFILE} (h : g ≠ f) : (s.withFile f F).file g = s.file g :=
  update_of_ne h ..

/-- One descriptor changed. -/
def State.withOfile (s : State) (p : Fin NPROC) (fd : Fin NOFILE) (f : Option (Fin NFILE)) : State :=
  { s with ofile := update s.ofile p (update (s.ofile p) fd f) }

@[simp] theorem State.withOfile_file (f : Option (Fin NFILE)) :
    (s.withOfile p fd f).file = s.file := rfl

/-- The current directory of one process changed. -/
def State.withCwd (s : State) (p : Fin NPROC) (d : Option Nat) : State := { s with cwd := update s.cwd p d }

@[simp] theorem State.withCwd_img (d : Option Nat) : (s.withCwd p d).toImage = s.toImage := rfl

@[simp] theorem State.withCwd_file (d : Option Nat) : (s.withCwd p d).file = s.file := rfl

@[simp] theorem State.withCwd_withCwd (d e : Option Nat) :
    (s.withCwd p d).withCwd p e = s.withCwd p e := by
  unfold withCwd
  rw [update_idem]

theorem State.withCwd_cwd (d : Option Nat) : (s.withCwd p d).cwd = update s.cwd p d := rfl

namespace FsAux

variable {P : Prop} {held : List Nat} {s t : State} {i : Nat} {held' : List Nat} {D : Dinode}

theorem modifyInode_wp {f : Dinode → Dinode} {Q : Unit → State → Prop}
    (h : Q () (s.withImg (s.set i (f (s.inode i))))) : Wp (Allowed P) (modifyInode i f) s Q := Wp.of_eq rfl h

theorem readInode_bind {α : Type} {f : Dinode → FsM α} {Q : α → State → Prop} (h : Wp (Allowed P) (f (s.inode i)) s Q) :
    Wp (Allowed P) (readInode i >>= f) s Q := Wp.bind_eq rfl h

/-- A change to an inode that the call holds. -/
theorem RefsOk.set_of_mem (h : s.RefsOk held) (hi : i ∈ held) (ht : D.type = (s.inode i).type) :
    (s.withImg (s.set i D)).RefsOk held := by
  have htype : ∀ j, ((s.withImg (s.set i D)).inode j).type = (s.inode j).type := by
    intro j
    by_cases hji : j = i
    · rw [hji, State.withImg_img, Image.set_inode_self, ht]
    · rw [State.withImg_img, Image.set_inode_ne _ _ hji]
  constructor
  · exact h.ref
  · intro p d hp
    rw [htype]
    exact h.cwd p d hp
  · intro f j hf
    rw [htype]
    exact h.file f j hf
  · exact h.unused
  · intro j hj
    rw [htype]
    exact h.alloc j hj
  · exact h.valid
  · intro j hj hn
    by_cases hji : j = i
    · rw [hji]
      exact Nat.add_pos_right _ (count_pos_iff.2 hi)
    · rw [htype] at hj
      rw [State.withImg_img, Image.set_inode_ne _ _ hji] at hn
      exact h.orphan j hj hn

/-- A free inode allocated, with one reference. -/
theorem RefsOk.alloc_cons (h : s.RefsOk held) (hi : (s.inode i).type = .free) (hD : D.type ≠ .free)
    (himg : t.toImage = s.set i D) (hfile : t.file = s.file) (hcwd : t.cwd = s.cwd) (href : t.ref = update s.ref i 1)
    (hvalid : ∀ j, j ≠ i → t.valid j = s.valid j) : t.RefsOk (i :: held) := by
  have hholds : t.holds = s.holds := by
    funext j
    unfold State.holds
    rw [hcwd, hfile]
  have hother : ∀ j, j ≠ i → t.inode j = s.inode j := fun j hj => by rw [himg, Image.set_inode_ne _ _ hj]
  have hself : (t.inode i).type ≠ .free := by rw [himg, Image.set_inode_self]; exact hD
  have halloc : ∀ j, (s.inode j).type ≠ .free → (t.inode j).type ≠ .free := by
    intro j hj
    by_cases hji : j = i
    · rw [hji]; exact hself
    · rw [hother j hji]; exact hj
  have hzero := RefsOk.ref_free h hi
  rw [h.ref i] at hzero
  constructor
  · intro j
    rw [href, hholds]
    rw [update_apply]
    split_ifs with hji
    · rw [hji, count_cons_self]
      omega
    · rw [h.ref j, count_cons_of_ne (Ne.symm hji)]
  · intro p d hp
    rw [hcwd] at hp
    have hd := h.cwd p d hp
    have hdi : d ≠ i := by
      rintro rfl
      rw [hi] at hd
      cases hd
    rw [hother d hdi]
    exact hd
  · intro f j hf
    rw [hfile] at hf
    exact halloc j (h.file f j hf)
  · rw [hfile]
    exact h.unused
  · intro j hj
    rcases mem_cons.1 hj with rfl | hj
    · exact hself
    · exact halloc j (h.alloc j hj)
  · intro j hj
    rw [hholds] at hj
    have hji : j ≠ i := by
      rintro rfl
      omega
    rw [hvalid j hji]
    exact h.valid j hj
  · intro j hj hn
    rw [hholds]
    by_cases hji : j = i
    · rw [hji, count_cons_self]
      omega
    · rw [hother j hji] at hj hn
      rw [count_cons_of_ne (Ne.symm hji)]
      exact h.orphan j hj hn

/-! ## Changing who holds an inode -/

/-- A change of holders that the references in hand make up for. -/
theorem RefsOk.rehold (h : s.RefsOk held) (himg : t.toImage = s.toImage) (href : t.ref = s.ref) (hvalid : t.valid = s.valid)
    (hcount : ∀ i, t.holds i + held'.count i = s.holds i + held.count i)
    (hcwd : ∀ p d, t.cwd p = some d → (s.inode d).type = .dir)
    (hfile : ∀ f i, (t.file f).holding = some i → (s.inode i).type ≠ .free)
    (hunused : ∀ f, (t.file f).ref = 0 → (t.file f).type = .none)
    (halloc : ∀ i ∈ held', (s.inode i).type ≠ .free) (hnew : ∀ i, 0 < t.holds i → s.valid i = true) : t.RefsOk held' where
  ref i := by rw [href, h.ref i, hcount]
  cwd p d hp := by rw [himg]; exact hcwd p d hp
  file f i hf := by rw [himg]; exact hfile f i hf
  unused := hunused
  alloc i hi := by rw [himg]; exact halloc i hi
  valid i hi := by rw [hvalid]; exact hnew i hi
  orphan i hi hn := by rw [himg] at hi hn; rw [hcount]; exact h.orphan i hi hn

theorem holds_withFile (s : State) (f : Fin NFILE) (F : File) (i : Nat) :
    (s.withFile f F).holds i + (if (s.file f).holding = some i then 1 else 0) = s.holds i + if F.holding = some i then 1 else 0 := by
  have htally := tally_update (fun f => (s.file f).holding) f F.holding i
  have heq : (fun g => ((s.withFile f F).file g).holding) = update (fun g => (s.file g).holding) f F.holding := by
    funext g
    by_cases hg : g = f
    · rw [hg, State.withFile_file_self, update_self]
    · rw [State.withFile_file_ne _ _ hg, update_of_ne hg]
  unfold State.holds
  rw [heq, State.withFile_cwd]
  omega

/-- A `struct file` changed, `held'` making up for what it holds now and `held` for what it held. -/
theorem RefsOk.withFile (h : s.RefsOk held) {f : Fin NFILE} {F : File}
    (hcount : ∀ i, held'.count i + (if F.holding = some i then 1 else 0) =
      held.count i + if (s.file f).holding = some i then 1 else 0)
    (hunused : F.ref = 0 → F.type = .none) (hF : ∀ i, F.holding = some i → (s.inode i).type ≠ .free ∧ s.valid i = true)
    (halloc : ∀ i ∈ held', (s.inode i).type ≠ .free) : (s.withFile f F).RefsOk held' := by
  have hholds := holds_withFile s f F
  refine RefsOk.rehold h rfl rfl rfl (fun i => ?_) h.cwd (fun g i hg => ?_) (fun g hg => ?_) halloc (fun i hi => ?_)
  · have h1 := hholds i
    have h2 := hcount i
    omega
  · by_cases hgf : g = f
    · rw [hgf, State.withFile_file_self] at hg
      exact (hF i hg).1
    · rw [State.withFile_file_ne _ _ hgf] at hg
      exact h.file g i hg
  · by_cases hgf : g = f
    · rw [hgf, State.withFile_file_self] at hg ⊢
      exact hunused hg
    · rw [State.withFile_file_ne _ _ hgf] at hg ⊢
      exact h.unused g hg
  · by_cases hi' : F.holding = some i
    · exact (hF i hi').2
    · have h1 := hholds i
      rw [if_neg hi'] at h1
      exact h.valid i (by omega)

theorem holds_withCwd (s : State) (p : Fin NPROC) (d : Option Nat) (i : Nat) :
    (s.withCwd p d).holds i + (if s.cwd p = some i then 1 else 0) = s.holds i + if d = some i then 1 else 0 := by
  have := tally_update s.cwd p d i
  unfold State.holds
  rw [State.withCwd_file, State.withCwd_cwd]
  omega

/-- The current directory of a process changed. -/
theorem RefsOk.withCwd (h : s.RefsOk held) {p : Fin NPROC} {d : Option Nat}
    (hcount : ∀ i, held'.count i + (if d = some i then 1 else 0) = held.count i + if s.cwd p = some i then 1 else 0)
    (hd : ∀ i, d = some i → (s.inode i).type = .dir ∧ s.valid i = true)
    (halloc : ∀ i ∈ held', (s.inode i).type ≠ .free) : (s.withCwd p d).RefsOk held' := by
  have hholds := holds_withCwd s p d
  refine RefsOk.rehold h rfl rfl rfl (fun i => ?_) (fun q i hq => ?_) h.file h.unused halloc (fun i hi => ?_)
  · have h1 := hholds i
    have h2 := hcount i
    omega
  · rw [State.withCwd_cwd] at hq
    rw [update_apply] at hq
    split_ifs at hq
    · exact (hd i hq).1
    · exact h.cwd q i hq
  · by_cases hi' : d = some i
    · exact (hd i hi').2
    · have h1 := hholds i
      rw [if_neg hi'] at h1
      exact h.valid i (by omega)

end FsAux

end Xv6.Fs
