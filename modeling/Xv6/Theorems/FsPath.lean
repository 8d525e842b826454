import Xv6.Theorems.Fs

/-!
# Path resolution is a fold

`namei` and `nameiparent` look up the pieces of a path one after the other, and each of their exits has given back the references that it
must.
-/

namespace Xv6.Fs

open Lib FsAux List

/-- One reference more to the inode that is returned, and nothing else but the inode table has changed. -/
structure Balanced (s t : State) (r : Option Nat) : Prop where
  ref : ∀ i, t.ref i = s.ref i + if r = some i then 1 else 0
  cached : Cached s t

namespace PathAux

/-! ## The pieces of a path -/

variable {w rest : List Char} (path : List Char)

/-- A piece without slashes, and what comes after it. -/
theorem splitOn_append (h : ∀ c ∈ w, c ≠ '/') : (w ++ rest).splitOn '/' = (rest.splitOn '/').modifyHead (w ++ ·) := by
  induction w with
  | nil => cases hr : rest.splitOn '/' <;> simp [hr]
  | cons c w ih =>
    have hc : ¬(c == '/') = true := by simpa using h c mem_cons_self
    have hw := ih fun x hx => h x (mem_cons_of_mem c hx)
    unfold splitOn at hw ⊢
    rw [cons_append, splitOnP_cons_eq_if_modifyHead, if_neg hc, hw, modifyHead_modifyHead]
    rfl

theorem comps_slash : comps ('/' :: path) = comps path := by
  unfold comps splitOn
  rw [splitOnP_cons_eq_if_modifyHead, if_pos (by decide)]
  rfl

theorem comps_dropSlashes : comps (path.dropWhile (· == '/')) = comps path := by
  induction path with
  | nil => rfl
  | cons c path ih =>
    rw [dropWhile_cons]
    split
    · next hc => rw [ih, beq_iff_eq.1 hc, comps_slash]
    · rfl

/-- The first piece, up to a slash or the end. -/
theorem comps_append (h : ∀ c ∈ w, c ≠ '/') (hne : w ≠ []) (hrest : rest.head? = some '/' ∨ rest = []) :
    comps (w ++ rest) = w.take DIRSIZ :: comps rest := by
  have hkeep : ∀ l, (w :: l).filter (fun w => !w.isEmpty) = w :: l.filter fun w => !w.isEmpty := fun l => filter_cons_of_pos (by simpa using hne)
  unfold comps
  rw [splitOn_append h]
  rcases hrest with hrest | rfl
  · obtain ⟨rest, rfl⟩ : ∃ r, rest = '/' :: r := by
      cases rest with
      | nil => cases hrest
      | cons c rest => exact ⟨rest, by rw [Option.some.inj hrest]⟩
    unfold splitOn
    rw [splitOnP_cons_eq_if_modifyHead, if_pos (by decide), modifyHead_cons, append_nil, hkeep, map_cons]
    rfl
  · rw [splitOn_nil, modifyHead_cons, append_nil, hkeep]
    rfl

/-- What `skipelem` does, in the pieces of the path. -/
theorem skipelem_comps :
    skipelem path = none ∧ comps path = [] ∨
      ∃ name rest, skipelem path = some (name, rest) ∧ comps path = name :: comps rest ∧ rest.length < path.length ∧ rest.head? ≠ some '/' := by
  have hdrop := comps_dropSlashes path
  have hlen : (path.dropWhile (· == '/')).length ≤ path.length := (dropWhile_sublist _).length_le
  unfold skipelem
  cases hp : path.dropWhile (· == '/') with
  | nil =>
    rw [hp] at hdrop
    exact .inl ⟨rfl, hdrop.symm⟩
  | cons c cs =>
    have hc : (c != '/') = true := by
      have := head?_dropWhile_not (· == '/') path
      rw [hp] at this
      simpa using this
    have htake : (c :: cs).takeWhile (· != '/') = c :: cs.takeWhile (· != '/') := by rw [takeWhile_cons, if_pos hc]
    have hrest : (c :: cs).dropWhile (· != '/') = cs.dropWhile (· != '/') := by rw [dropWhile_cons, if_pos hc]
    rw [hp] at hdrop hlen
    refine .inr ⟨_, _, rfl, ?_, ?_, ?_⟩
    · rw [comps_dropSlashes, ← hdrop]
      conv_lhs => rw [← takeWhile_append_dropWhile (p := (· != '/')) (l := c :: cs)]
      refine comps_append (fun x hx => by simpa using all_eq_true.1 all_takeWhile x hx) ?_ ?_
      · rw [htake]
        exact cons_ne_nil _ _
      · have := head?_dropWhile_not (· != '/') (c :: cs)
        cases hd : (c :: cs).dropWhile (· != '/') with
        | nil => exact .inr rfl
        | cons x xs =>
          rw [hd] at this
          exact .inl (by simpa using this)
    · have h1 := (dropWhile_sublist (· == '/') (l := cs.dropWhile (· != '/'))).length_le
      have h2 := (dropWhile_sublist (· != '/') (l := cs)).length_le
      rw [hrest]
      rw [length_cons] at hlen
      omega
    · intro hhead
      have := head?_dropWhile_not (· == '/') ((c :: cs).dropWhile (· != '/'))
      rw [hhead] at this
      simp at this

theorem comps_eq_nil {path : List Char} (h : path.head? ≠ some '/') : comps path = [] ↔ path = [] := by
  constructor
  · intro hnil
    rcases skipelem_comps path with ⟨hskip, -⟩ | ⟨name, rest, -, hcons, -⟩
    · cases path with
      | nil => rfl
      | cons c cs =>
        have hc : ¬(c == '/') = true := fun hc => h (by rw [head?_cons, beq_iff_eq.1 hc])
        rw [skipelem, dropWhile_cons, if_neg hc] at hskip
        cases hskip
    · rw [hnil] at hcons
      cases hcons
  · rintro rfl
    rfl

theorem elemsUpTo_comps : ∀ (n : Nat) (path : List Char), path.length ≤ n → elemsUpTo n path = comps path
  | 0, path, h => by
    rw [length_eq_zero_iff.1 (Nat.le_zero.1 h)]
    rfl
  | n + 1, path, h => by
    rcases skipelem_comps path with ⟨hskip, hnil⟩ | ⟨name, rest, hskip, hcons, hlen, -⟩
    · rw [elemsUpTo, hskip, hnil]
    · rw [elemsUpTo, hskip, hcons, ← elemsUpTo_comps n rest (by omega)]

theorem elems_eq_comps : elems path = comps path := elemsUpTo_comps _ path (Nat.le_refl _)

/-- The loop on the string is the loop on the pieces. -/
theorem namexPath_eq (parent : Bool) : ∀ (n : Nat) (path : List Char) (ip : Nat), path.length < n →
    namexPath parent n path ip = namexLoop parent (comps path) ip
  | 0, _, _, h => absurd h (Nat.not_lt_zero _)
  | n + 1, path, ip, h => by
    rcases skipelem_comps path with ⟨hskip, hnil⟩ | ⟨name, rest, hskip, hcons, hlen, hhead⟩
    · rw [namexPath, hskip, hnil, namexLoop]
    · have hlast : rest.isEmpty = (comps rest).isEmpty := by
        rw [Bool.eq_iff_iff, List.isEmpty_iff, List.isEmpty_iff, comps_eq_nil hhead]
      rw [namexPath, hskip, hcons, namexLoop]
      simp only [hlast, namexPath_eq parent n rest _ (by omega)]

/-! ## Looking up -/

variable {img : Image} {ip : Nat} {name : Name} {names : List Name} {held : List Nat} {s t : State}

theorem follow_cons : img.follow ip (name :: names) = (img.lookup ip name).bind fun j => img.follow j names := rfl

theorem follow_append (names' : List Name) : img.follow ip (names ++ names') = (img.follow ip names).bind fun j => img.follow j names' := by
  unfold Image.follow
  rw [foldlM_append]
  rfl

theorem namex_false (names : List Name) (ip : Nat) : img.namex false names ip = (img.follow ip names).map fun j => (j, []) := by
  induction names generalizing ip with
  | nil => rfl
  | cons name rest ih =>
    rw [Image.namex, follow_cons, Image.lookup, Bool.false_and, if_neg Bool.false_ne_true]
    by_cases hd : (img.inode ip).type = .dir
    · rw [if_neg (not_not.2 hd), if_pos hd]
      cases findEnt (img.inode ip).ents name 0 with
      | none => rfl
      | some r => exact ih r.1
    · rw [if_pos hd, if_neg hd]
      rfl

theorem namex_true (names : List Name) (ip : Nat) :
    img.namex true names ip = names.getLast?.bind fun name =>
      (img.follow ip names.dropLast).bind fun j => if (img.inode j).type = .dir then some (j, name) else none := by
  induction names generalizing ip with
  | nil => rfl
  | cons name rest ih =>
    rw [Image.namex, Bool.true_and]
    cases rest with
    | nil =>
      by_cases hd : (img.inode ip).type = .dir
      · rw [if_neg (not_not.2 hd), if_pos isEmpty_nil]
        exact (if_pos hd).symm
      · rw [if_pos hd]
        exact (if_neg hd).symm
    | cons next rest =>
      rw [dropLast_cons_cons, follow_cons, getLast?_cons_cons, Image.lookup]
      by_cases hd : (img.inode ip).type = .dir
      · rw [if_neg (not_not.2 hd), isEmpty_cons, if_neg Bool.false_ne_true, if_pos hd]
        cases findEnt (img.inode ip).ents name 0 with
        | none => exact (Option.bind_none _).symm.trans (by cases (next :: rest).getLast? <;> rfl)
        | some r => exact ih r.1
      · rw [if_pos hd, if_neg hd]
        cases (next :: rest).getLast? <;> rfl

theorem parent_eq_some {r : Option Nat} {last : Option Name} {dp : Nat} :
    (last.bind fun name => r.bind fun j => if (img.inode j).type = .dir then some (j, name) else none) = some (dp, name) ↔
      r = some dp ∧ last = some name ∧ (img.inode dp).type = .dir := by
  cases last with
  | none => exact ⟨fun h => (by cases h), fun h => (by cases h.2.1)⟩
  | some last =>
    cases r with
    | none => exact ⟨fun h => (by cases h), fun h => (by cases h.1)⟩
    | some j =>
      rw [Option.bind_some, Option.bind_some]
      by_cases hd : (img.inode j).type = .dir
      · rw [if_pos hd]
        constructor
        · intro h
          cases h
          exact ⟨rfl, rfl, hd⟩
        · rintro ⟨hj, hlast, -⟩
          rw [Option.some.inj hj, Option.some.inj hlast]
      · rw [if_neg hd]
        refine ⟨fun h => (by cases h), fun h => ?_⟩
        rw [Option.some.inj h.1] at hd
        exact absurd h.2.2 hd

/-- A lookup on the way fails, or what has been reached is not a directory. -/
theorem follow_eq_none : img.follow ip names = none ↔ ∃ pre name post j, names = pre ++ name :: post ∧ img.follow ip pre = some j ∧
    ((img.inode j).type ≠ .dir ∨ findEnt (img.inode j).ents name 0 = none) := by
  have hlookup : ∀ j name, img.lookup j name = none ↔ (img.inode j).type ≠ .dir ∨ findEnt (img.inode j).ents name 0 = none := fun j name => by
    rw [Image.lookup]
    by_cases hd : (img.inode j).type = .dir
    · rw [if_pos hd, Option.map_eq_none_iff]
      exact ⟨.inr, fun h => h.resolve_left fun hne => hne hd⟩
    · rw [if_neg hd]
      exact ⟨fun _ => .inl hd, fun _ => rfl⟩
  constructor
  · intro hnone
    induction names generalizing ip with
    | nil => cases hnone
    | cons name rest ih =>
      rw [follow_cons] at hnone
      cases hj : img.lookup ip name with
      | none => exact ⟨[], name, rest, ip, rfl, rfl, (hlookup ip name).1 hj⟩
      | some j =>
        rw [hj] at hnone
        obtain ⟨pre, name', post, k, rfl, hk, hwhy⟩ := ih hnone
        refine ⟨name :: pre, name', post, k, rfl, ?_, hwhy⟩
        rw [follow_cons, hj]
        exact hk
  · rintro ⟨pre, name, post, j, rfl, hj, hwhy⟩
    rw [follow_append, hj, Option.bind_some, follow_cons, (hlookup j name).2 hwhy]
    rfl

/-! ## References -/

/-- A reference more takes up at most one more entry of the inode table. -/
theorem active_le {i : Nat} (h : s.RefsOk held) (hc : Cached s t) (ht : t.RefsOk (i :: held)) :
    t.active ≤ s.active + 1 := by
  have hone : (range s.ninodes).countP (fun j => decide (j = i)) ≤ 1 := by
    have := nodup_iff_count_le_one.1 (nodup_range (n := s.ninodes)) i
    rw [count_eq_countP] at this
    exact this
  unfold State.active
  rw [hc.img]
  refine Nat.le_trans (m := (range s.ninodes).countP fun j => decide (0 < s.ref j) || decide (j = i)) (countP_mono_left fun j _ hj => ?_) ?_
  · have hj : 0 < t.ref j := of_decide_eq_true hj
    rw [ht.ref, hc.holds, count_cons] at hj
    rw [Bool.or_eq_true, decide_eq_true_eq, decide_eq_true_eq, h.ref]
    by_cases hji : j = i
    · exact .inr hji
    · rw [if_neg (by simpa using fun heq => hji heq.symm)] at hj
      exact .inl hj
  · generalize range s.ninodes = l at hone
    have : ∀ l : List Nat, l.countP (fun j => decide (0 < s.ref j) || decide (j = i)) ≤
        l.countP (fun j => decide (0 < s.ref j)) + l.countP fun j => decide (j = i) := fun l => by
      induction l with
      | nil => exact Nat.le_refl 0
      | cons x l ih =>
        rw [countP_cons, countP_cons, countP_cons]
        cases decide (0 < s.ref x) <;> cases decide (x = i) <;> simp only [Bool.or_false, Bool.or_true, Bool.false_eq_true, if_true, if_false] <;> omega
    exact (this l).trans (Nat.add_le_add_left hone _)

theorem balanced_of_refs {r : Option (Nat × Name)} (h : s.RefsOk held) (hc : Cached s t) (ht : t.RefsOk (hold r held)) :
    Balanced s t (r.map Prod.fst) := by
  refine ⟨fun i => ?_, hc⟩
  rw [ht.ref, h.ref, hc.holds]
  cases r with
  | none => rw [Option.map_none, if_neg (Option.some_ne_none i).symm, Nat.add_zero, hold]
  | some x =>
    rw [hold, count_cons, Option.map_some, Nat.add_assoc]
    by_cases hi : x.1 = i
    · rw [hi, if_pos (BEq.refl i), if_pos rfl]
    · rw [if_neg (by simpa using hi), if_neg fun heq => hi (Option.some.inj heq)]

/-- The two functions start in the same place and go on in the same way. -/
theorem namexPath_run {p : Fin NPROC} {cwd : Nat} (hok : s.Ok) (h : s.RefsOk held) (hcwd : s.cwd p = some cwd) (path : List Char)
    (parent : Bool) :
    Wp (fun e => e = .igetNoInodes ∧ NINODE ≤ s.active + 1) (startDir p path >>= namexPath parent (path.length + 1) path) s fun r t =>
      Balanced s t (r.map Prod.fst) ∧ r = s.namex parent (comps path) (if path.head? = some '/' then ROOTINO else cwd) := by
  have hroomy : Roomy (fun e => e = .igetNoInodes ∧ NINODE ≤ s.active + 1) held s := fun t i hc ht hle => ⟨rfl, hle.trans (active_le h hc ht)⟩
  have hnull : s.cwd p ≠ none := by
    rw [hcwd]
    exact Option.some_ne_none cwd
  have heq : namexPath parent (path.length + 1) path = namexLoop parent (comps path) := funext fun ip =>
    namexPath_eq parent _ path ip (Nat.lt_succ_self _)
  rw [heq, ← elems_eq_comps]
  refine (namex_room_wp p path parent hok h (fun hle => ⟨rfl, hle.trans (Nat.le_succ _)⟩) hroomy fun hnone => absurd hnone hnull).mono ?_
  rintro r t ⟨hr, hc, ht, -⟩
  refine ⟨balanced_of_refs h hc ht, ?_⟩
  rw [hr, State.resolve, hcwd]
  split <;> rfl

end PathAux

open PathAux

/-- Path resolution in every consistent file system, while other calls hold references or not, for a process with a current directory.
`iget` panics for want of an entry in the inode table, which it does only if not two of them are free; otherwise `namei` returns the inode
that the pieces of the path lead to, and 0 exactly if on the way a lookup fails or something is not a directory, and `nameiparent` returns
the directory that all pieces but the last lead to, and the last one, and 0 exactly if there is no piece, or what the others lead to is not
a directory or does not exist. Both leave one reference more to what they return. -/
theorem path_fold {s : State} {held : List Nat} {p : Fin NPROC} {cwd : Nat} (hok : s.Ok) (h : s.RefsOk held) (hcwd : s.cwd p = some cwd)
    (path : List Char) :
    let start := if path.head? = some '/' then ROOTINO else cwd
    (namei p path s = .error .igetNoInodes ∧ NINODE ≤ s.active + 1 ∨
      ∃ r t, namei p path s = .ok (r, t) ∧ Balanced s t r ∧ r = s.follow start (comps path) ∧
      (r = none ↔ ∃ pre name post j, comps path = pre ++ name :: post ∧ s.follow start pre = some j ∧
        ((s.inode j).type ≠ .dir ∨ findEnt (s.inode j).ents name 0 = none))) ∧
    (nameiparent p path s = .error .igetNoInodes ∧ NINODE ≤ s.active + 1 ∨
      ∃ r t, nameiparent p path s = .ok (r, t) ∧ Balanced s t (r.map Prod.fst) ∧
      (∀ dp name, r = some (dp, name) ↔ s.follow start (comps path).dropLast = some dp ∧ (comps path).getLast? = some name ∧
        (s.inode dp).type = .dir) ∧
      (r = none ↔ comps path = [] ∨ ∀ dp, s.follow start (comps path).dropLast = some dp → (s.inode dp).type ≠ .dir)) := by
  intro start
  constructor
  · have hwp : Wp (fun e => e = .igetNoInodes ∧ NINODE ≤ s.active + 1) (namei p path) s fun r t =>
        Balanced s t r ∧ r = s.follow start (comps path) := by
      rw [namei, ← bind_assoc]
      refine (namexPath_run hok h hcwd path false).bind ?_
      rintro r t ⟨hbal, hr⟩
      refine Wp.pure ⟨hbal, ?_⟩
      rw [hr, namex_false, Option.map_map]
      exact Option.map_id'
    cases hrun : namei p path s with
    | error e => exact .inl ⟨congrArg _ (hwp.error hrun).1, (hwp.error hrun).2⟩
    | ok x =>
      obtain ⟨hbal, hr⟩ := hwp.ok hrun
      refine .inr ⟨x.1, x.2, rfl, hbal, hr, ?_⟩
      rw [hr]
      exact follow_eq_none
  · have hwp := namexPath_run hok h hcwd path true
    cases hrun : nameiparent p path s with
    | error e => exact .inl ⟨congrArg _ (hwp.error hrun).1, (hwp.error hrun).2⟩
    | ok x =>
      obtain ⟨r, t⟩ := x
      obtain ⟨hbal, hr⟩ := hwp.ok hrun
      have hiff : ∀ dp name, r = some (dp, name) ↔ s.follow start (comps path).dropLast = some dp ∧ (comps path).getLast? = some name ∧
          (s.inode dp).type = .dir := fun dp name => by
        rw [hr, namex_true, parent_eq_some]
      refine .inr ⟨r, t, rfl, hbal, hiff, ⟨fun hnone => ?_, fun hwhy => ?_⟩⟩
      · by_cases hnil : comps path = []
        · exact .inl hnil
        · obtain ⟨name, hname⟩ := Option.isSome_iff_exists.1 (List.getLast?_isSome.2 hnil)
          refine .inr fun dp hdp hd => ?_
          have := (hiff dp name).2 ⟨hdp, hname, hd⟩
          rw [hnone] at this
          cases this
      · by_contra hsome
        obtain ⟨⟨dp, name⟩, hx⟩ := Option.ne_none_iff_exists'.1 hsome
        obtain ⟨hdp, hname, hd⟩ := (hiff dp name).1 hx
        rcases hwhy with hnil | hwhy
        · rw [hnil] at hname
          cases hname
        · exact hwhy dp hdp hd

/-- A path to the root in a machine that has just booted. -/
theorem path_fold_boot : (∃ t, namei slot0 "//./".toList boot = .ok (some ROOTINO, t) ∧ t.ref ROOTINO = 2) ∧
    ∃ t, nameiparent slot0 "a//".toList boot = .ok (some (ROOTINO, ['a']), t) := by
  obtain ⟨hinv, -⟩ := Consistent.inv boot_consistent
  have hroom : ¬NINODE ≤ boot.active + 1 := by decide
  obtain ⟨hnamei, -⟩ := path_fold hinv.ok hinv.refs (show boot.cwd slot0 = some ROOTINO by decide) "//./".toList
  obtain ⟨-, hparent⟩ := path_fold hinv.ok hinv.refs (show boot.cwd slot0 = some ROOTINO by decide) "a//".toList
  obtain ⟨r, t, hrun, hbal, hr, -⟩ := hnamei.resolve_left fun hfull => hroom hfull.2
  obtain ⟨r', t', hrun', -, hiff, -⟩ := hparent.resolve_left fun hfull => hroom hfull.2
  have hr : r = some ROOTINO := hr.trans rfl
  refine ⟨⟨t, hr ▸ hrun, ?_⟩, t', ?_⟩
  · rw [hbal.ref, hr, if_pos rfl]
    rfl
  · rw [hrun', (hiff ROOTINO ['a']).2 (by decide)]

/-! ## A full inode table -/

/-- The root directory and fifty files in it, with the names `A`, `B` and so on. -/
def fiftyFiles : Image where
  ninodes := 52
  inode i :=
    if i = ROOTINO then ⟨.dir, 0, 0, 1, ⟨ROOTINO, ['.']⟩ :: ⟨ROOTINO, ['.', '.']⟩ :: (range' 2 50).map fun i => ⟨i, [Char.ofNat (i + 63)]⟩⟩
    else if 2 ≤ i ∧ i < 52 then ⟨.file, 0, 0, 1, []⟩
    else ⟨.free, 0, 0, 0, []⟩

/-- Four processes in the root directory have all files open but the last one. -/
def allOpen : State where
  toImage := fiftyFiles
  ref i := tally (fun p : Fin NPROC => if p.val < 4 then some ROOTINO else none) i +
    tally (fun f : Fin NFILE => if f.val < 49 then some (f.val + 2) else none) i
  valid _ := true
  file f := if f.val < 49 then ⟨.inode, 1, f.val + 2⟩ else ⟨.none, 0, 0⟩
  cwd p := if p.val < 4 then some ROOTINO else none
  ofile p fd := if h : 16 * p.val + fd.val < 49 then some ⟨16 * p.val + fd.val, h.trans (by decide)⟩ else none

theorem allOpen_consistent : allOpen.Consistent := by
  refine consistent_of_flat (n := 52) (by decide) (fun i hi => ?_) rfl (by decide) rfl (fun i => ?_) (by decide) (fun _ _ => rfl)
    (by decide)
  · exact (if_neg (by unfold ROOTINO; omega)).trans (if_neg (by omega))
  · have hholding : (fun f => (allOpen.file f).holding) = fun f => if f.val < 49 then some (f.val + 2) else none := funext (by decide)
    rw [State.holds, hholding, allOpen]

/-- With all fifty entries of the inode table in use, `namei` of a file that is not open panics although the file exists. -/
theorem full_table_panics : allOpen.Consistent ∧ allOpen.cwd slot0 = some ROOTINO ∧ allOpen.active = NINODE ∧
    allOpen.follow ROOTINO (comps "/r".toList) = some 51 ∧ namei slot0 "/r".toList allOpen = .error .igetNoInodes := by
  refine ⟨allOpen_consistent, by decide, by decide +kernel, rfl, ?_⟩
  have hpanic : (match namei slot0 "/r".toList allOpen with
      | .error e => decide (e = .igetNoInodes)
      | .ok _ => false) = true := by decide +kernel
  split at hpanic
  · next e heq => rw [heq, of_decide_eq_true hpanic]
  · cases hpanic

end Xv6.Fs
