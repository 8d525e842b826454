import Xv6.ShRun
import Xv6.Lemmas.ShParse
import Mathlib.Data.List.Infix

/-!
# Pointers into the line

Every pointer that the parser has or records points into the line: it is the end of it from some place on (`Within`). Then the stores of
`nulterminate` can be followed in the buffer.
-/

namespace Xv6.Sh

open List

namespace PlaceAux

variable {l s : Ptr} {cmd : Cmd Span} {n : Nat} {buf : List Char} {w : Span} {ws : List Span} {k : Nat}

/-- The words of the tree and the pointer are in the line `l`. -/
def Within (l : Ptr) (r : Cmd Span × Ptr) : Prop := r.2 <:+ l ∧ ∀ w ∈ r.1.words, w.q <:+ l

theorem skip_suffix (s : Ptr) : skip s <:+ s := dropWhile_suffix _

theorem scan_suffix (s : Ptr) : (scan s).2 <:+ s := by
  cases s with
  | nil => exact suffix_rfl
  | cons c s =>
    rw [scan_cons]
    split
    · exact suffix_cons c s
    · split
      · split
        · exact (tail_suffix s).trans (suffix_cons c s)
        · exact suffix_cons c s
      · exact dropWhile_suffix _

theorem gettoken_suffix (s : Ptr) : (gettoken s).rest <:+ s ∧ (gettoken s).span.q <:+ s :=
  ⟨(skip_suffix _).trans ((scan_suffix _).trans (skip_suffix s)), skip_suffix s⟩

theorem words_redirect_sub (tok : Char) (w : Span) (cmd : Cmd Span) : ∀ x ∈ (redirect tok w cmd).words, x = w ∨ x ∈ cmd.words := by
  have hredir : ∀ mode fd, ∀ x ∈ (Cmd.redir cmd w mode fd).words, x = w ∨ x ∈ cmd.words := by
    intro mode fd x hx
    rcases mem_append.1 hx with hx | hx
    · exact .inr hx
    · exact .inl (mem_singleton.1 hx)
  unfold redirect
  split
  · exact hredir _ _
  · split
    · exact hredir _ _
    · split
      · exact hredir _ _
      · exact fun x hx => .inr hx

namespace Within

variable {u : Ptr}

/-- Further on in the line. -/
theorem on (h : Within l (cmd, s)) (hu : u <:+ s) : Within l (cmd, u) := ⟨hu.trans h.1, h.2⟩

/-- One more word of the line. -/
theorem add {cmd' : Cmd Span} (h : Within l (cmd, s)) (hw : w.q <:+ l) (hsub : ∀ x ∈ cmd'.words, x = w ∨ x ∈ cmd.words) :
    Within l (cmd', s) := by
  refine ⟨h.1, fun x hx => ?_⟩
  rcases hsub x hx with rfl | hx
  · exact hw
  · exact h.2 x hx

/-- Two trees side by side. -/
theorem both {left right c : Cmd Span} (hc : c.words = left.words ++ right.words) (hl : Within l (left, u)) (hr : Within l (right, s)) :
    Within l (c, s) := by
  refine ⟨hr.1, fun w hw => ?_⟩
  rw [hc] at hw
  rcases mem_append.1 hw with hw | hw
  · exact hl.2 w hw
  · exact hr.2 w hw

variable {r : Cmd Span × Ptr}

theorem redirLoop (h : Within l (cmd, s)) (hr : redirLoop n cmd s = .ok r) : Within l r := by
  induction n generalizing cmd s with
  | zero =>
    cases hr
    exact h
  | succ n ih =>
    rw [Sh.redirLoop, gettoken_skip] at hr
    dsimp only at hr
    split at hr
    · split at hr
      · cases hr
      · obtain ⟨hrest, -⟩ := gettoken_suffix s
        obtain ⟨hrest', hq⟩ := gettoken_suffix (gettoken s).rest
        exact ih ((h.on (hrest'.trans hrest)).add (hq.trans (hrest.trans h.1)) (words_redirect_sub _ _ _)) hr
    · cases hr
      exact h.on (skip_suffix s)

theorem argLoop {argc : Nat} (h : Within l (cmd, s)) (hr : argLoop n argc cmd s = .ok r) : Within l r := by
  induction n generalizing argc cmd s with
  | zero =>
    cases hr
    exact h
  | succ n ih =>
    rw [Sh.argLoop, gettoken_skip] at hr
    dsimp only at hr
    obtain ⟨hrest, hq⟩ := gettoken_suffix s
    split at hr
    · cases hr
      exact h.on (skip_suffix s)
    · split at hr
      · cases hr
        exact h.on hrest
      · split at hr
        · cases hr
        · split at hr
          · cases hr
          · obtain ⟨a, ha, hr⟩ := exists_of_bind hr
            exact ih (((h.on hrest).add (hq.trans h.1) (Cmd.words_addArg _ _)).redirLoop ha) hr

theorem parsesimple (hs : s <:+ l) (hr : parsesimple s = .ok r) : Within l r := by
  obtain ⟨a, ha, hr⟩ := exists_of_bind hr
  have hempty : Within l (.exec [], s) := ⟨hs, fun w hw => absurd hw not_mem_nil⟩
  exact (hempty.redirLoop ha).argLoop hr

theorem backLoop (h : Within l (cmd, s)) : Within l (backLoop n cmd s) := by
  induction n generalizing cmd s with
  | zero => exact h
  | succ n ih =>
    rw [Sh.backLoop, gettoken_skip]
    split
    · have hback : Within l (.back cmd, s) := h
      exact ih (hback.on (gettoken_suffix s).1)
    · exact h.on (skip_suffix s)

/-- What the four functions return is within the line, since every pointer they are called with is. -/
theorem parse (l : Ptr) (n : Nat) :
    (∀ s r, s <:+ l → parseline n s = .ok r → Within l r) ∧ (∀ s r, s <:+ l → parsepipe n s = .ok r → Within l r) ∧
      (∀ s r, s <:+ l → parseexec n s = .ok r → Within l r) ∧ ∀ s r, s <:+ l → parseblock n s = .ok r → Within l r := by
  induction n with
  | zero =>
    refine ⟨fun s r _ h => ?_, fun s r _ h => ?_, fun s r _ h => ?_, fun s r _ h => ?_⟩
    all_goals cases h
  | succ n ih =>
    obtain ⟨hline, hpipe, hexec, hblock⟩ := ih
    refine ⟨fun s r hs h => ?_, fun s r hs h => ?_, fun s r hs h => ?_, fun s r hs h => ?_⟩
    · rw [parseline] at h
      obtain ⟨a, ha, h⟩ := exists_of_bind h
      have hback := (hpipe s a hs ha).backLoop (n := a.2.length)
      dsimp only at h
      split at h
      · rw [gettoken_skip] at h
        obtain ⟨b, hb, h⟩ := exists_of_bind h
        cases h
        exact both rfl hback (hline _ b ((gettoken_suffix _).1.trans hback.1) hb)
      · cases h
        exact hback.on (skip_suffix _)
    · rw [parsepipe] at h
      obtain ⟨a, ha, h⟩ := exists_of_bind h
      have hleft := hexec s a hs ha
      split at h
      · rw [gettoken_skip] at h
        obtain ⟨b, hb, h⟩ := exists_of_bind h
        cases h
        exact both rfl hleft (hpipe _ b ((gettoken_suffix _).1.trans hleft.1) hb)
      · cases h
        exact hleft.on (skip_suffix _)
    · rw [parseexec] at h
      split at h
      · exact hblock _ r ((skip_suffix s).trans hs) h
      · exact parsesimple ((skip_suffix s).trans hs) h
    · rw [parseblock] at h
      split at h
      · rw [gettoken_skip] at h
        obtain ⟨a, ha, h⟩ := exists_of_bind h
        split at h
        · rw [gettoken_skip] at h
          have hline := hline _ a ((gettoken_suffix s).1.trans hs) ha
          exact (hline.on (gettoken_suffix _).1).redirLoop h
        · cases h
      · cases h

end Within

/-! ## The buffer -/

/-- The stores of `nulterminate`, in the order of the words. -/
theorem terminate_eq (n : Nat) (c : Cmd Span) (buf : List Char) :
    terminate n c buf = c.words.foldl (fun buf w => buf.set (place n w.eq) NUL) buf := by
  induction c generalizing buf with
  | exec argv => rfl
  | redir c file mode fd ih =>
    rw [terminate, ih, Cmd.words, foldl_append]
    rfl
  | pipe left right ihl ihr | list left right ihl ihr => rw [terminate, ihl, ihr, Cmd.words, foldl_append]
  | back c ih => exact ih buf

/-- Where no word ends, nothing is stored. -/
theorem getElem?_stores_other {i : Nat} (buf : List Char) (h : ∀ w ∈ ws, place n w.eq ≠ i) :
    (ws.foldl (fun buf w => buf.set (place n w.eq) NUL) buf)[i]? = buf[i]? := by
  induction ws generalizing buf with
  | nil => rfl
  | cons w ws ih =>
    rw [foldl_cons, ih _ fun w' hw' => h w' (mem_cons_of_mem w hw'), getElem?_set_ne (h w mem_cons_self)]

/-- Where a word ends there is a NUL, or the end of the buffer. -/
theorem getElem?_stores_end (buf : List Char) (h : w ∈ ws) :
    ∀ c ∈ (ws.foldl (fun buf w => buf.set (place n w.eq) NUL) buf)[place n w.eq]?, c = NUL := by
  have hkeep : ∀ (ws : List Span) (buf : List Char), (∀ c ∈ buf[place n w.eq]?, c = NUL) →
      ∀ c ∈ (ws.foldl (fun buf w => buf.set (place n w.eq) NUL) buf)[place n w.eq]?, c = NUL := by
    intro ws
    induction ws with
    | nil => exact fun buf hbuf => hbuf
    | cons v ws ih =>
      intro buf hbuf
      refine ih _ fun c hc => ?_
      rw [getElem?_set] at hc
      split at hc
      · split at hc
        · exact (Option.some.inj hc).symm
        · cases hc
      · exact hbuf c hc
  induction ws generalizing buf with
  | nil => exact absurd h not_mem_nil
  | cons v ws ih =>
    rcases mem_cons.1 h with rfl | h
    · refine hkeep ws _ fun c hc => ?_
      rw [getElem?_set_self'] at hc
      obtain ⟨x, -, hx⟩ := Option.map_eq_some_iff.1 hc
      exact hx.symm
    · exact ih _ h

/-- The text that is read from a buffer up to a NUL. -/
theorem line_eq {buf text : List Char} (hnul : NUL ∉ text) (htext : ∀ k < text.length, buf[k]? = text[k]?)
    (hend : ∀ c ∈ buf[text.length]?, c = NUL) : line buf = text := by
  have htake : buf.take text.length = text := by
    refine ext_getElem? fun k => ?_
    rw [getElem?_take]
    split
    · next hk => exact htext k hk
    · next hk => exact (getElem?_eq_none (Nat.le_of_not_lt hk)).symm
  have hword : ∀ c ∈ text, decide (c ≠ NUL) = true := fun c hc => decide_eq_true fun heq => hnul (heq ▸ hc)
  unfold line
  rw [← take_append_drop text.length buf, htake, takeWhile_append_of_pos hword]
  cases hrest : buf.drop text.length with
  | nil => exact append_nil text
  | cons c rest =>
    have hc : buf[text.length]? = some c := by
      rw [← head?_drop, hrest]
      rfl
    rw [takeWhile_cons_of_neg (by rw [hend c hc]; decide), append_nil]

/-- The line is the start of the buffer. -/
theorem line_prefix (buf : List Char) : line buf <+: buf := takeWhile_prefix _

theorem nul_notMem_line (buf : List Char) : NUL ∉ line buf := by
  intro h
  have hne := mem_takeWhile_imp h
  exact absurd rfl (of_decide_eq_true hne)

/-- A pointer into the line is what follows its place. -/
theorem drop_place {q : Ptr} (h : q <:+ l) : l.drop (place l.length q) = q := (suffix_iff_eq_drop.1 h).symm

/-- The buffer holds the text of a word from its place on. -/
theorem getElem?_text (hq : w.q <:+ line buf) (hw : w.Proper) (hk : k < w.text.length) :
    buf[place (line buf).length w.q + k]? = w.text[k]? ∧ (line buf).drop (place (line buf).length w.q + k) = w.text.drop k ++ w.eq := by
  have hdrop : (line buf).drop (place (line buf).length w.q) = w.text ++ w.eq := (drop_place hq).trans hw.1
  constructor
  · have hlt : place (line buf).length w.q + k < (line buf).length := by
      have := hq.length_le
      have : w.q.length = w.text.length + w.eq.length := by rw [hw.1, length_append]
      unfold place
      omega
    have hline : ∀ i < (line buf).length, buf[i]? = (line buf)[i]? := by
      obtain ⟨rest, hrest⟩ := line_prefix buf
      intro i hi
      have happend : (line buf ++ rest)[i]? = (line buf)[i]? := getElem?_append_left hi
      rwa [hrest] at happend
    rw [hline _ hlt, ← getElem?_drop, hdrop, getElem?_append_left hk]
  · rw [← drop_drop, hdrop, drop_append_of_le_length hk.le]

/-- No word ends inside another one: the text goes on there with a character of a word. -/
theorem place_ne {w v : Span} (hq : w.q <:+ line buf) (hw : w.Proper) (hvq : v.q <:+ line buf) (hv : v.Proper)
    (hk : k < w.text.length) : place (line buf).length v.eq ≠ place (line buf).length w.q + k := by
  intro heq
  have hveq : v.eq <:+ line buf := (show v.eq <:+ v.q from hv.1 ▸ suffix_append ..).trans hvq
  have hdrop := drop_place hveq
  rw [heq, (getElem?_text hq hw hk).2, drop_eq_getElem_cons hk] at hdrop
  have hchar := hv.2.2 w.text[k] (by rw [← hdrop]; rfl)
  rw [hw.2.1.wordChar _ (getElem_mem hk)] at hchar
  cases hchar

/-- The C string at the start of a word is the word, once all words of the tree have been terminated. -/
theorem stringAt_terminate {c : Cmd Span} {u : Ptr} (h : Within (line buf) (c, u)) (hproper : c.Proper)
    (hw : w ∈ c.words) : stringAt (terminate (line buf).length c buf) (place (line buf).length w.q) = w.text := by
  have hq := h.2 w hw
  have hwp := hproper w hw
  rw [terminate_eq]
  refine line_eq (fun hmem => ?_) (fun k hk => ?_) fun d hd => ?_
  · refine nul_notMem_line buf (hq.subset ?_)
    rw [hwp.1]
    exact mem_append_left _ hmem
  · rw [getElem?_drop, getElem?_stores_other buf fun v hv => place_ne hq hwp (h.2 v hv) (hproper v hv) hk]
    exact (getElem?_text hq hwp hk).1
  · have hend : place (line buf).length w.q + w.text.length = place (line buf).length w.eq := by
      have := hq.length_le
      have : w.q.length = w.text.length + w.eq.length := by rw [hwp.1, length_append]
      unfold place
      omega
    rw [getElem?_drop, hend] at hd
    exact getElem?_stores_end buf hw d hd

/-- The characters between the pointers of a word are its text. -/
theorem between_eq (hq : w.q <:+ line buf) (hw : w.Proper) : between (line buf).length buf w = w.text := by
  have hlen : place (line buf).length w.eq - place (line buf).length w.q = w.text.length := by
    have := hq.length_le
    have : w.q.length = w.text.length + w.eq.length := by rw [hw.1, length_append]
    unfold place
    omega
  unfold between
  rw [hlen]
  refine ext_getElem? fun k => ?_
  rw [getElem?_take]
  split
  · next hk =>
    rw [getElem?_drop]
    exact (getElem?_text hq hw hk).1
  · next hk => exact (getElem?_eq_none (Nat.le_of_not_lt hk)).symm

/-! ## Arguments -/

section argvs

variable {W V : Type}

theorem argvs_map (f : W → V) (c : Cmd W) : (c.map f).argvs = c.argvs.map (map f) := by
  induction c with
  | exec argv => rfl
  | redir c file mode fd ih | back c ih => exact ih
  | pipe left right ihl ihr | list left right ihl ihr => rw [Cmd.map, Cmd.argvs, Cmd.argvs, ihl, ihr, map_append]

theorem argvs_back_iterate (n : Nat) (c : Cmd W) : (Cmd.back^[n] c).argvs = c.argvs := by
  induction n with
  | zero => rfl
  | succ n ih => rw [Function.iterate_succ_apply', Cmd.argvs, ih]

theorem argvs_foldl_wrap (rs : List Redirection) (c : Cmd (List Char)) : (rs.foldl Redirection.wrap c).argvs = c.argvs := by
  induction rs generalizing c with
  | nil => rfl
  | cons r rs ih =>
    rw [foldl_cons, ih]
    cases r <;> rfl

/-- A command that derives has at most `MAXARGS - 1` words. -/
theorem length_le_of_derives {X : Nonterminal} {ts : List Token} {c : Cmd (List Char)} (h : Derives X ts c) :
    ∀ argv ∈ c.argvs, argv.length ≤ MAXARGS - 1 := by
  induction h with
  | block rs _ ih =>
    rw [argvs_foldl_wrap]
    exact ih
  | simple rs _ hmax =>
    rw [argvs_foldl_wrap]
    intro argv hargv
    rw [mem_singleton.1 hargv]
    exact hmax
  | one _ ih => exact ih
  | pipe _ _ ihl ihr => exact fun argv hargv => (mem_append.1 hargv).elim (ihl argv) (ihr argv)
  | last n _ ih =>
    rw [argvs_back_iterate]
    exact ih
  | list n _ _ ihl ihr =>
    intro argv hargv
    rw [Cmd.argvs, argvs_back_iterate] at hargv
    exact (mem_append.1 hargv).elim (ihl argv) (ihr argv)

/-- The words of a tree are its arguments and its files. -/
theorem mem_words {w : W} {c : Cmd W} : w ∈ c.words ↔ (∃ argv ∈ c.argvs, w ∈ argv) ∨ w ∈ c.files := by
  induction c with
  | exec argv => simp [Cmd.words, Cmd.argvs, Cmd.files]
  | redir c file mode fd ih =>
    rw [Cmd.words, Cmd.argvs, Cmd.files, mem_append, mem_append, ih, or_assoc]
  | pipe left right ihl ihr | list left right ihl ihr =>
    simp only [Cmd.words, Cmd.argvs, Cmd.files, mem_append, ihl, ihr, or_and_right, exists_or]
    exact or_or_or_comm
  | back c ih => exact ih

end argvs

end PlaceAux

end Xv6.Sh
