import Xv6.Lemmas.ShParse

/-!
# The shell's parser decides its grammar

The functions that call each other are sound for the grammar by induction on their fuel, complete by induction on the derivation, and
never run out of fuel: between two calls of `parseline` on the same text there are three others, and a call inside a block has less text.
-/

namespace Xv6.Sh

open List

namespace ShAux

variable {s u : Ptr} {ts us : List Token} {n : Nat} {c : Cmd (List Char)} {r : Cmd Span × Ptr} {ws : List (List Char)}
  {buf : List Char} {w : List Char} (rs : List Redirection) (k : Nat)

theorem peek_skip (s : Ptr) (toks : List Char) : peek (skip s) toks = peek s toks := by
  unfold peek
  rw [skip_skip]

/-! ## Soundness -/

/-- What has been read derives from the nonterminal, with the tree that has been built. -/
def Sound (X : Nonterminal) (s : Ptr) (r : Cmd Span × Ptr) : Prop :=
  r.1.Proper ∧ ∃ ts, Derives X ts (r.1.map Span.text) ∧ ∀ us, Lexes r.2 us → Lexes s (ts ++ us)

theorem proper_append {l r c : Cmd Span} (hc : c.words = l.words ++ r.words) (hl : l.Proper) (hr : r.Proper) : c.Proper := by
  intro w hw
  rw [hc] at hw
  rcases mem_append.1 hw with hw | hw
  · exact hl w hw
  · exact hr w hw

theorem parseline_sound (hline : ∀ s r, parseline n s = .ok r → Sound .line s r)
    (hpipe : ∀ s r, parsepipe n s = .ok r → Sound .pipe s r) (h : parseline (n + 1) s = .ok r) : Sound .line s r := by
  rw [parseline] at h
  obtain ⟨a, ha, h⟩ := exists_of_bind h
  obtain ⟨hproper, ts, hderives, hlexes⟩ := hpipe s a ha
  obtain ⟨k, hback, hamps⟩ := backLoop_sound a.2.length a.1 a.2
  have hwords : (backLoop a.2.length a.1 a.2).1.Proper := by
    unfold Cmd.Proper
    rw [hback, Cmd.words_back_iterate]
    exact hproper
  have htree : (backLoop a.2.length a.1 a.2).1.map Span.text = Cmd.back^[k] (a.1.map Span.text) := by
    rw [hback, Cmd.map_back_iterate]
  dsimp only at h
  split at h
  · next hpeek =>
    rw [gettoken_skip] at h
    obtain ⟨b, hb, h⟩ := exists_of_bind h
    cases h
    obtain ⟨-, hsemi⟩ := lexes_of_peek (t := .semi) (by simp) hpeek
    obtain ⟨hproper', us, hderives', hlexes'⟩ := hline _ b hb
    refine ⟨proper_append rfl hwords hproper', ts ++ (replicate k .amp ++ .semi :: us), ?_, fun vs hvs => ?_⟩
    · show Derives .line _ (.list ((backLoop a.2.length a.1 a.2).1.map Span.text) (b.1.map Span.text))
      rw [htree]
      exact .list k hderives hderives'
    · have := hlexes _ (hamps _ (hsemi _ (hlexes' vs hvs)))
      simpa using this
  · cases h
    refine ⟨hwords, ts ++ replicate k .amp, ?_, fun vs hvs => ?_⟩
    · rw [htree]
      exact .last k hderives
    · rw [append_assoc]
      exact hlexes _ (hamps _ (lexes_of_skip hvs))

theorem parsepipe_sound (hpipe : ∀ s r, parsepipe n s = .ok r → Sound .pipe s r)
    (hexec : ∀ s r, parseexec n s = .ok r → Sound .exec s r) (h : parsepipe (n + 1) s = .ok r) : Sound .pipe s r := by
  rw [parsepipe] at h
  obtain ⟨a, ha, h⟩ := exists_of_bind h
  obtain ⟨hproper, ts, hderives, hlexes⟩ := hexec s a ha
  split at h
  · next hpeek =>
    rw [gettoken_skip] at h
    obtain ⟨b, hb, h⟩ := exists_of_bind h
    cases h
    obtain ⟨-, hbar⟩ := lexes_of_peek (t := .bar) (by simp) hpeek
    obtain ⟨hproper', us, hderives', hlexes'⟩ := hpipe _ b hb
    refine ⟨proper_append rfl hproper hproper', ts ++ .bar :: us, .pipe hderives hderives', fun vs hvs => ?_⟩
    have := hlexes _ (hbar _ (hlexes' vs hvs))
    simpa using this
  · cases h
    exact ⟨hproper, ts, .one hderives, fun vs hvs => hlexes _ (lexes_of_skip hvs)⟩

theorem parseblock_sound (hline : ∀ s r, parseline n s = .ok r → Sound .line s r)
    (h : parseblock (n + 1) s = .ok r) : Sound .exec s r := by
  rw [parseblock] at h
  split at h
  · next hpeek =>
    rw [gettoken_skip] at h
    obtain ⟨a, ha, h⟩ := exists_of_bind h
    split at h
    · next hpeek' =>
      rw [gettoken_skip] at h
      obtain ⟨-, hlparen⟩ := lexes_of_peek (t := .lparen) (by simp) hpeek
      obtain ⟨-, hrparen⟩ := lexes_of_peek (t := .rparen) (by simp) hpeek'
      obtain ⟨hproper, ts, hderives, hlexes⟩ := hline _ a ha
      obtain ⟨hkeep, rs, htree, hlexes'⟩ := parseredirs_sound h
      refine ⟨hkeep hproper, .lparen :: (ts ++ .rparen :: rs.flatMap Redirection.tokens), ?_, fun vs hvs => ?_⟩
      · rw [htree]
        exact .block rs hderives
      · have := hlparen _ (hlexes _ (hrparen _ (hlexes' vs hvs)))
        simpa using this
    · cases h
  · cases h

theorem parseexec_sound (hblock : ∀ s r, parseblock n s = .ok r → Sound .exec s r)
    (h : parseexec (n + 1) s = .ok r) : Sound .exec s r := by
  rw [parseexec] at h
  split at h
  · obtain ⟨hproper, ts, hderives, hlexes⟩ := hblock _ r h
    exact ⟨hproper, ts, hderives, fun vs hvs => lexes_of_skip (hlexes vs hvs)⟩
  · obtain ⟨hproper, ts, hderives, hlexes⟩ := parsesimple_sound h
    exact ⟨hproper, ts, hderives, fun vs hvs => lexes_of_skip (hlexes vs hvs)⟩

theorem parse_sound (n : Nat) :
    (∀ s r, parseline n s = .ok r → Sound .line s r) ∧ (∀ s r, parsepipe n s = .ok r → Sound .pipe s r) ∧
      (∀ s r, parseexec n s = .ok r → Sound .exec s r) ∧ ∀ s r, parseblock n s = .ok r → Sound .exec s r := by
  induction n with
  | zero =>
    refine ⟨fun s r h => ?_, fun s r h => ?_, fun s r h => ?_, fun s r h => ?_⟩
    all_goals cases h
  | succ n ih =>
    obtain ⟨hline, hpipe, hexec, hblock⟩ := ih
    exact ⟨fun s r h => parseline_sound hline hpipe h, fun s r h => parsepipe_sound hpipe hexec h, fun s r h => parseexec_sound hblock h,
      fun s r h => parseblock_sound hline h⟩

/-! ## Fuel -/

theorem gettoken_lt {t : Token} (ht : t = .bar ∨ t = .lparen ∨ t = .rparen ∨ t = .semi ∨ t = .amp) (h : peek s t.text = true) :
    (gettoken s).rest.length < s.length := (lexes_of_peek ht h).1

theorem parse_ends (n : Nat) :
    (∀ s, 4 * s.length + 4 ≤ n → Ends s (parseline n s)) ∧ (∀ s, 4 * s.length + 3 ≤ n → Ends s (parsepipe n s)) ∧
      (∀ s, 4 * s.length + 2 ≤ n → Ends s (parseexec n s)) ∧ ∀ s, 4 * s.length + 1 ≤ n → Ends s (parseblock n s) := by
  induction n with
  | zero => exact ⟨fun s h => by omega, fun s h => by omega, fun s h => by omega, fun s h => by omega⟩
  | succ n ih =>
    obtain ⟨hline, hpipe, hexec, hblock⟩ := ih
    refine ⟨fun s h => ?_, fun s h => ?_, fun s h => ?_, fun s h => ?_⟩
    · rw [parseline]
      refine (hpipe s (by omega)).bind fun a ha => ?_
      have hb := backLoop_length_le a.2.length a.1 a.2
      dsimp only
      split
      · next hpeek =>
        rw [gettoken_skip]
        have hlt := gettoken_lt (t := .semi) (by simp) hpeek
        exact (hline _ (by omega)).bind fun r hr => .ok (by dsimp only; omega)
      · have hskip := skip_length_le (backLoop a.2.length a.1 a.2).2
        exact .ok (by dsimp only; omega)
    · rw [parsepipe]
      refine (hexec s (by omega)).bind fun a ha => ?_
      split
      · next hpeek =>
        rw [gettoken_skip]
        have hlt := gettoken_lt (t := .bar) (by simp) hpeek
        exact (hpipe _ (by omega)).bind fun r hr => .ok (by dsimp only; omega)
      · exact .ok ((skip_length_le a.2).trans ha)
    · rw [parseexec]
      have hskip := skip_length_le s
      split
      · exact (hblock _ (by omega)).mono hskip
      · exact (parsesimple_ends _).mono hskip
    · rw [parseblock]
      split
      · next hpeek =>
        rw [gettoken_skip]
        have hlt := gettoken_lt (t := .lparen) (by simp) hpeek
        refine (hline _ (by omega)).bind fun a ha => ?_
        split
        · rw [gettoken_skip]
          have hle := gettoken_length_le a.2
          exact (redirLoop_ends _ _ _).mono (by omega)
        · exact .error (by decide)
      · exact .error (by decide)

/-! ## Completeness -/

/-- The function for a nonterminal. -/
def parse : Nonterminal → Nat → Ptr → Except Stop (Cmd Span × Ptr)
  | .line => parseline
  | .pipe => parsepipe
  | .exec => parseexec

/-- Enough fuel for a text. -/
def fuel (s : Ptr) : Nonterminal → Nat
  | .line => 4 * s.length + 4
  | .pipe => 4 * s.length + 3
  | .exec => 4 * s.length + 2

/-- What may come after a nonterminal. -/
def Follow : Nonterminal → List Token → Prop
  | .line, us => ∀ t ∈ us.head?, t = .rparen
  | .pipe, us => ∀ t ∈ us.head?, t = .rparen ∨ t = .amp ∨ t = .semi
  | .exec, us => Stops us

theorem Follow.pipe_stops (h : Follow .pipe us) : Stops us := fun t ht => .inr (h t ht)

/-- The nonterminal is read, and its tree built. -/
def Complete (X : Nonterminal) (ts : List Token) (c : Cmd (List Char)) : Prop :=
  ∀ s us n, Lexes s (ts ++ us) → Follow X us → fuel s X ≤ n →
    ∃ r, parse X n s = .ok r ∧ r.1.map Span.text = c ∧ Lexes r.2 us ∧ r.2.length ≤ s.length

theorem complete_block (ih : Complete .line ts c) :
    Complete .exec (.lparen :: (ts ++ .rparen :: rs.flatMap Redirection.tokens)) (rs.foldl Redirection.wrap c) := by
  intro s us n h hus hn
  simp only [fuel] at hn
  obtain ⟨n, rfl⟩ : ∃ m, n = m + 2 := ⟨n - 2, by omega⟩
  rw [cons_append, append_assoc, cons_append] at h
  obtain ⟨-, hrest, hlt, -⟩ := gettoken_of_lexes h fun heq => by cases heq
  have hpeek : peek s ['('] = true := peek_of_lexes h (by decide)
  obtain ⟨a, ha, htree, hlexes, hle⟩ := ih _ (.rparen :: (rs.flatMap Redirection.tokens ++ us)) n hrest
    (fun t ht => (Option.some.inj ht).symm) (by simp only [fuel]; omega)
  have ha : parseline n (gettoken s).rest = .ok a := ha
  obtain ⟨-, hrest', hlt', -⟩ := gettoken_of_lexes hlexes fun heq => by cases heq
  have hpeek' : peek a.2 [')'] = true := peek_of_lexes hlexes (by decide)
  obtain ⟨r, hrun, htree', hlexes', hle'⟩ := parseredirs_complete a.1 hrest' (Stops.plain hus)
  refine ⟨r, ?_, by rw [htree', htree], hlexes', by omega⟩
  show parseexec (n + 2) s = .ok r
  rw [parseexec, hpeek, if_pos rfl, parseblock, peek_skip, hpeek, if_pos rfl, gettoken_skip, gettoken_skip, ha]
  show (if peek a.2 [')'] then parseredirs a.1 (gettoken (skip a.2)).rest else _) = .ok r
  rw [hpeek', if_pos rfl, gettoken_skip]
  exact hrun

/-- A command that is not a block does not start with a parenthesis. -/
theorem head_simple {rs' : List Redirection} (hargs : Args ts ws rs') (hus : Stops us) :
    ∀ t ∈ (rs.flatMap Redirection.tokens ++ ts ++ us).head?, t ≠ .lparen := by
  intro t ht heq
  subst heq
  cases rs with
  | cons r =>
    cases r with
    | input | output | append => cases ht
  | nil =>
    cases hargs with
    | cons => cases ht
    | nil =>
      rcases hus _ ht with h | h | h | h
      all_goals cases h

theorem complete_simple {rs rs' : List Redirection} (hargs : Args ts ws rs') (hmax : ws.length ≤ MAXARGS - 1) :
    Complete .exec (rs.flatMap Redirection.tokens ++ ts) ((rs ++ rs').foldl Redirection.wrap (.exec ws)) := by
  intro s us n h hus hn
  simp only [fuel] at hn
  obtain ⟨n, rfl⟩ : ∃ m, n = m + 1 := ⟨n - 1, by omega⟩
  have hpeek : peek s ['('] = false := by
    have hhead := head_simple rs hargs hus
    generalize rs.flatMap Redirection.tokens ++ ts ++ us = l at h hhead
    cases l with
    | nil => exact peek_of_lexes_nil h _
    | cons t =>
      rw [peek_of_lexes h (by decide)]
      have := hhead t rfl
      cases t with
      | lparen => exact absurd rfl this
      | _ => rfl
  obtain ⟨r, hrun, htree, hlexes, hle⟩ := parsesimple_complete hargs hmax (lexes_skip h) hus
  refine ⟨r, ?_, htree, hlexes, hle.trans (skip_length_le s)⟩
  show parseexec (n + 1) s = .ok r
  rw [parseexec, hpeek]
  exact hrun

theorem complete_one (ih : Complete .exec ts c) : Complete .pipe ts c := by
  intro s us n h hus hn
  simp only [fuel] at hn
  obtain ⟨n, rfl⟩ : ∃ m, n = m + 1 := ⟨n - 1, by omega⟩
  obtain ⟨a, ha, htree, hlexes, hle⟩ := ih s us n h hus.pipe_stops (by simp only [fuel]; omega)
  have ha : parseexec n s = .ok a := ha
  have hpeek : peek a.2 ['|'] = false := by
    cases us with
    | nil => exact peek_of_lexes_nil hlexes _
    | cons t =>
      rw [peek_of_lexes hlexes (by decide)]
      rcases hus t rfl with rfl | rfl | rfl
      all_goals rfl
  refine ⟨(a.1, skip a.2), ?_, htree, lexes_skip hlexes, (skip_length_le a.2).trans hle⟩
  show parsepipe (n + 1) s = _
  rw [parsepipe, ha]
  show (if peek a.2 ['|'] then _ else _) = _
  rw [hpeek]
  rfl

theorem complete_pipe {c d : Cmd (List Char)} (ih : Complete .exec ts c) (ih' : Complete .pipe us d) :
    Complete .pipe (ts ++ .bar :: us) (.pipe c d) := by
  intro s vs n h hvs hn
  simp only [fuel] at hn
  obtain ⟨n, rfl⟩ : ∃ m, n = m + 1 := ⟨n - 1, by omega⟩
  rw [append_assoc, cons_append] at h
  obtain ⟨a, ha, htree, hlexes, hle⟩ := ih s _ n h (fun t ht => .inl (Option.some.inj ht).symm) (by simp only [fuel]; omega)
  have ha : parseexec n s = .ok a := ha
  have hpeek : peek a.2 ['|'] = true := peek_of_lexes hlexes (by decide)
  obtain ⟨-, hrest, hlt, -⟩ := gettoken_of_lexes hlexes fun heq => by cases heq
  obtain ⟨b, hb, htree', hlexes', hle'⟩ := ih' _ vs n hrest hvs (by simp only [fuel]; omega)
  have hb : parsepipe n (gettoken a.2).rest = .ok b := hb
  refine ⟨(.pipe a.1 b.1, b.2), ?_, by rw [← htree, ← htree']; rfl, hlexes', by dsimp only; omega⟩
  show parsepipe (n + 1) s = _
  rw [parsepipe, ha]
  show (if peek a.2 ['|'] then (parsepipe n (gettoken (skip a.2)).rest >>= _) else _) = _
  rw [hpeek, if_pos rfl, gettoken_skip, hb]
  rfl

theorem complete_last (ih : Complete .pipe ts c) :
    Complete .line (ts ++ replicate k .amp) (Cmd.back^[k] c) := by
  intro s us n h hus hn
  simp only [fuel] at hn
  obtain ⟨n, rfl⟩ : ∃ m, n = m + 1 := ⟨n - 1, by omega⟩
  rw [append_assoc] at h
  have hfollow : Follow .pipe (replicate k .amp ++ us) := by
    intro t ht
    cases k with
    | zero => exact .inl (hus t ht)
    | succ => exact .inr (.inl (Option.some.inj ht).symm)
  obtain ⟨a, ha, htree, hlexes, hle⟩ := ih s _ n h hfollow (by simp only [fuel]; omega)
  have ha : parsepipe n s = .ok a := ha
  have hamp : ∀ t ∈ us.head?, t ≠ .amp := by
    intro t ht heq
    rw [hus t ht] at heq
    cases heq
  obtain ⟨hback, hlexes', hle'⟩ := backLoop_complete a.1 hlexes hamp (Nat.le_refl _)
  have hpeek : peek (backLoop a.2.length a.1 a.2).2 [';'] = false := by
    cases us with
    | nil => exact peek_of_lexes_nil hlexes' _
    | cons t =>
      rw [peek_of_lexes hlexes' (by decide), hus t rfl]
      rfl
  have hskip := skip_length_le (backLoop a.2.length a.1 a.2).2
  refine ⟨((backLoop a.2.length a.1 a.2).1, skip (backLoop a.2.length a.1 a.2).2), ?_, ?_, lexes_skip hlexes', by dsimp only; omega⟩
  · show parseline (n + 1) s = _
    rw [parseline, ha]
    show (if peek (backLoop a.2.length a.1 a.2).2 [';'] then _ else _) = _
    rw [hpeek]
    rfl
  · dsimp only
    rw [hback, Cmd.map_back_iterate, htree]

theorem complete_list {c d : Cmd (List Char)} (ih : Complete .pipe ts c) (ih' : Complete .line us d) :
    Complete .line (ts ++ (replicate k .amp ++ .semi :: us)) (.list (Cmd.back^[k] c) d) := by
  intro s vs n h hvs hn
  simp only [fuel] at hn
  obtain ⟨n, rfl⟩ : ∃ m, n = m + 1 := ⟨n - 1, by omega⟩
  rw [append_assoc, append_assoc, cons_append] at h
  have hfollow : Follow .pipe (replicate k .amp ++ .semi :: (us ++ vs)) := by
    intro t ht
    cases k with
    | zero => exact .inr (.inr (Option.some.inj ht).symm)
    | succ => exact .inr (.inl (Option.some.inj ht).symm)
  obtain ⟨a, ha, htree, hlexes, hle⟩ := ih s _ n h hfollow (by simp only [fuel]; omega)
  have ha : parsepipe n s = .ok a := ha
  have hamp : ∀ t ∈ (Token.semi :: (us ++ vs)).head?, t ≠ .amp := by
    intro t ht heq
    rw [← Option.some.inj ht] at heq
    cases heq
  obtain ⟨hback, hlexes', hle'⟩ := backLoop_complete a.1 hlexes hamp (Nat.le_refl _)
  have hpeek : peek (backLoop a.2.length a.1 a.2).2 [';'] = true := peek_of_lexes hlexes' (by decide)
  obtain ⟨-, hrest, hlt, -⟩ := gettoken_of_lexes hlexes' fun heq => by cases heq
  obtain ⟨b, hb, htree', hlexes'', hle''⟩ := ih' _ vs n hrest hvs (by simp only [fuel]; omega)
  have hb : parseline n (gettoken (backLoop a.2.length a.1 a.2).2).rest = .ok b := hb
  refine ⟨(.list (backLoop a.2.length a.1 a.2).1 b.1, b.2), ?_, ?_, hlexes'', by dsimp only; omega⟩
  · show parseline (n + 1) s = _
    rw [parseline, ha]
    show (if peek (backLoop a.2.length a.1 a.2).2 [';'] then (parseline n (gettoken (skip (backLoop a.2.length a.1 a.2).2)).rest >>= _)
      else _) = _
    rw [hpeek, if_pos rfl, gettoken_skip, hb]
    rfl
  · show Cmd.list ((backLoop a.2.length a.1 a.2).1.map Span.text) (b.1.map Span.text) = _
    rw [hback, Cmd.map_back_iterate, htree, htree']

theorem parse_complete {X : Nonterminal} (h : Derives X ts c) : Complete X ts c := by
  induction h with
  | block rs _ ih => exact complete_block rs ih
  | simple rs hargs hmax => exact complete_simple hargs hmax
  | one _ ih => exact complete_one ih
  | pipe _ _ ih ih' => exact complete_pipe ih ih'
  | last k _ ih => exact complete_last k ih
  | list k _ _ ih ih' => exact complete_list k ih ih'

/-! ## The strings of the tree -/

theorem nulterminate_eq (c : Cmd Span) : nulterminate c = c.words.map Span.eq := by
  induction c with
  | exec => rfl
  | redir c file mode fd ih =>
    rw [nulterminate, ih, Cmd.words, map_append]
    rfl
  | pipe l r ihl ihr | list l r ihl ihr => rw [nulterminate, ihl, ihr, Cmd.words, map_append]
  | back c ih => rw [nulterminate, ih, Cmd.words]

/-- A NUL is stored behind the word, and none inside, because no word ends before a character of a word. -/
theorem cstr_word {nuls : List Ptr} (hw : ∀ c ∈ w, wordChar c = true) (hend : u = [] ∨ u ∈ nuls)
    (hnuls : ∀ e ∈ nuls, ∀ c ∈ e.head?, wordChar c = false) : cstr nuls (w ++ u) = w := by
  induction w with
  | nil =>
    cases u with
    | nil => rfl
    | cons => exact if_pos (hend.resolve_left (cons_ne_nil _ _))
  | cons c w ih =>
    have hnot : c :: (w ++ u) ∉ nuls := fun hmem => by
      have hc := hnuls _ hmem c rfl
      rw [hw c (mem_cons_self ..)] at hc
      cases hc
    rw [cons_append, cstr, if_neg hnot, ih fun d hd => hw d (mem_cons_of_mem c hd)]

theorem map_congr {W V : Type} {f g : W → V} {c : Cmd W} (h : ∀ w ∈ c.words, f w = g w) : c.map f = c.map g := by
  induction c with
  | exec => exact congrArg Cmd.exec (map_congr_left h)
  | redir c file mode fd ih =>
    rw [Cmd.map, Cmd.map, ih fun w hw => h w (mem_append_left _ hw), h file (mem_append_right _ (mem_singleton_self file))]
  | pipe l r ihl ihr | list l r ihl ihr =>
    rw [Cmd.map, Cmd.map, ihl fun w hw => h w (mem_append_left _ hw), ihr fun w hw => h w (mem_append_right _ hw)]
  | back c ih => rw [Cmd.map, Cmd.map, ih h]

theorem map_cstr {c : Cmd Span} (h : c.Proper) : (c.map fun w => cstr (nulterminate c) w.q) = c.map Span.text := by
  refine map_congr fun w hw => ?_
  obtain ⟨hq, hword, -⟩ := h w hw
  rw [hq, nulterminate_eq]
  refine cstr_word hword.wordChar (.inr (mem_map_of_mem hw)) fun e he => ?_
  obtain ⟨w', hw', rfl⟩ := mem_map.1 he
  exact (h w' hw').2.2

/-- `parsecmd` after `parseline`. -/
theorem parsecmd_eq (h : parseline (4 * (line buf).length + 4) (line buf) = .ok r) :
    parsecmd buf = if skip r.2 ≠ [] then .error (.leftovers (skip r.2)) else .ok (r.1.map Span.text) := by
  have hproper := ((parse_sound _).1 _ _ h).1
  unfold parsecmd
  dsimp only
  rw [h, ← map_cstr hproper]
  rfl

theorem parsecmd_sound (h : parsecmd buf = .ok c) :
    ∃ ts, Lexes (line buf) ts ∧ Derives .line ts c := by
  obtain ⟨r, hr, -⟩ := exists_of_bind h
  obtain ⟨-, ts, hderives, hlexes⟩ := (parse_sound _).1 _ _ hr
  rw [parsecmd_eq hr] at h
  split at h
  · cases h
  · next hskip =>
    rw [not_not] at hskip
    cases h
    refine ⟨ts, ?_, hderives⟩
    rw [← append_nil ts]
    exact hlexes [] (lexes_of_skip (by rw [hskip]; exact .nil))

theorem parsecmd_complete (h : Lexes (line buf) ts) (hderives : Derives .line ts c) :
    parsecmd buf = .ok c := by
  rw [← append_nil ts] at h
  obtain ⟨r, hr, htree, hlexes, -⟩ := parse_complete hderives _ [] _ h (fun t ht => by cases ht) (Nat.le_refl _)
  rw [parsecmd_eq hr, skip_of_lexes_nil hlexes, htree]
  rfl

theorem parsecmd_ends (buf : List Char) : parsecmd buf ≠ .error .fuel := by
  intro h
  have hends := (parse_ends _).1 (line buf) (Nat.le_refl _)
  cases hr : parseline (4 * (line buf).length + 4) (line buf) with
  | error e =>
    unfold parsecmd at h
    dsimp only at h
    rw [hr] at h
    obtain rfl : e = .fuel := Except.error.inj h
    exact hends.1 hr
  | ok =>
    rw [parsecmd_eq hr] at h
    split at h
    · cases h
    · cases h

/-! ## Printing -/

/-- A redirection after the arguments belongs to the last of them, if there is one. -/
theorem args_snoc {rs : List Redirection} (r : Redirection) (h : Args ts ws rs) :
    ts = [] ∧ ws = [] ∧ rs = [] ∨ Args (ts ++ r.tokens) ws (rs ++ [r]) := by
  induction h with
  | nil => exact .inl ⟨rfl, rfl, rfl⟩
  | @cons w rs rs' ts ws _ ih =>
    refine .inr ?_
    rcases ih with ⟨rfl, rfl, rfl⟩ | ih
    · have := @Args.cons w (rs ++ [r]) [] [] [] .nil
      rw [flatMap_append, flatMap_singleton] at this
      simpa using this
    · have := @Args.cons w rs (rs' ++ [r]) _ _ ih
      simpa using this

theorem derives_redir (r : Redirection) (h : Derives .exec ts c) : Derives .exec (ts ++ r.tokens) (r.wrap c) := by
  cases h with
  | block rs hline =>
    have := Derives.block (rs ++ [r]) hline
    rw [flatMap_append, flatMap_singleton, foldl_append] at this
    simpa using this
  | @simple us ws rs' rs hargs hmax =>
    rcases args_snoc r hargs with ⟨rfl, rfl, rfl⟩ | hsnoc
    · have := Derives.simple (rs ++ [r]) .nil hmax
      rw [flatMap_append, flatMap_singleton, append_nil, append_nil, foldl_append] at this
      rw [append_nil, append_nil]
      exact this
    · have := Derives.simple rs hsnoc hmax
      rw [← append_assoc, ← append_assoc, foldl_append] at this
      exact this

theorem derives_paren (h : Derives .line ts c) : Derives .exec (paren ts) c := .block [] h

/-- The tokens of a tree derive it, wherever it stands. -/
structure Prints (c : Cmd (List Char)) : Prop where
  exec : Derives .exec (tokens c .exec) c
  pipe : Derives .pipe (tokens c .pipe) c
  back : ∃ ts k d, tokens c .back = ts ++ List.replicate k .amp ∧ c = Cmd.back^[k] d ∧ Derives .pipe ts d
  line : Derives .line (tokens c .line) c

theorem derives_line (h : Derives .pipe ts c) : Derives .line ts c := by
  have := Derives.last 0 h
  rwa [replicate_zero, append_nil] at this

/-- A command that needs no parentheses. -/
theorem prints_of_exec (ts : List Token) (h : Derives .exec ts c) (hts : ∀ level, tokens c level = ts) : Prints c := by
  refine ⟨?_, ?_, ⟨ts, 0, c, ?_, rfl, .one h⟩, ?_⟩
  · rw [hts]
    exact h
  · rw [hts]
    exact .one h
  · rw [hts, replicate_zero, append_nil]
  · rw [hts]
    exact derives_line (.one h)

theorem args_words (ws : List (List Char)) : Args (ws.map .word) ws [] := by
  induction ws with
  | nil => exact .nil
  | cons w ws ih => exact @Args.cons w [] [] _ _ ih

theorem prints_redir {file : List Char} {mode fd : Nat} (ih : Prints c)
    (h : mode = O_RDONLY ∧ fd = 0 ∨ mode = O_WRONLY ||| O_CREATE ||| O_TRUNC ∧ fd = 1 ∨ mode = O_WRONLY ||| O_CREATE ∧ fd = 1) :
    Prints (.redir c file mode fd) := by
  refine prints_of_exec (tokens c .exec ++ [redirToken mode fd, .word file]) ?_ fun _ => rfl
  rcases h with ⟨rfl, rfl⟩ | ⟨rfl, rfl⟩ | ⟨rfl, rfl⟩
  · exact derives_redir (.input file) ih.exec
  · exact derives_redir (.output file) ih.exec
  · exact derives_redir (.append file) ih.exec

theorem prints (h : Printable c) : Prints c := by
  induction c with
  | exec argv => exact prints_of_exec (argv.map .word) (.simple [] (args_words argv) h.1) fun _ => rfl
  | redir c file mode fd ih => exact prints_redir (ih h.1) h.2.2
  | pipe l r ihl ihr =>
    have hpipe : Derives .pipe (tokens (.pipe l r) .pipe) (.pipe l r) := .pipe (ihl h.1).exec (ihr h.2).pipe
    refine ⟨derives_paren (derives_line hpipe), hpipe, ⟨_, 0, _, ?_, rfl, hpipe⟩, derives_line hpipe⟩
    rw [replicate_zero, append_nil]
    rfl
  | back c ih =>
    obtain ⟨ts, k, d, htokens, rfl, hpipe⟩ := (ih h).back
    have hamp : tokens (Cmd.back^[k] d) .back ++ [.amp] = ts ++ replicate (k + 1) .amp := by
      rw [htokens, append_assoc, replicate_succ']
    have hiter : Cmd.back (Cmd.back^[k] d) = Cmd.back^[k + 1] d := (Function.iterate_succ_apply' Cmd.back k d).symm
    have hline : Derives .line (tokens (Cmd.back^[k] d) .back ++ [.amp]) (.back (Cmd.back^[k] d)) := by
      rw [hamp, hiter]
      exact .last (k + 1) hpipe
    exact ⟨derives_paren hline, .one (derives_paren hline), ⟨ts, k + 1, d, hamp, hiter, hpipe⟩, hline⟩
  | list l r ihl ihr =>
    obtain ⟨ts, k, d, htokens, rfl, hpipe⟩ := (ihl h.1).back
    have hline : Derives .line (tokens (.list (Cmd.back^[k] d) r) .line) (.list (Cmd.back^[k] d) r) := by
      have := Derives.list k hpipe (ihr h.2).line
      rw [← append_assoc, ← htokens] at this
      exact this
    refine ⟨derives_paren hline, .one (derives_paren hline), ⟨_, 0, _, ?_, rfl, .one (derives_paren hline)⟩, hline⟩
    rw [replicate_zero, append_nil]
    rfl

/-- The words of a printed tree. -/
theorem word_of_mem_tokens (h : Printable c) (level : Level) (hw : .word w ∈ tokens c level) :
    isWord w ∧ NUL ∉ w := by
  have hparen : ∀ {ts : List Token}, .word w ∈ paren ts → .word w ∈ ts := by
    intro ts hmem
    simpa [paren] using hmem
  induction c generalizing level with
  | exec =>
    obtain ⟨w', hw', heq⟩ := mem_map.1 hw
    rw [← Token.word.inj heq]
    exact h.2 w' hw'
  | redir c file mode fd ih =>
    rcases mem_append.1 hw with hw | hw
    · exact ih h.1 _ hw
    · rcases mem_cons.1 hw with hw | hw
      · unfold redirToken at hw
        split at hw
        · cases hw
        split at hw
        · cases hw
        · cases hw
      · rw [Token.word.inj (mem_singleton.1 hw)]
        exact h.2.1
  | pipe l r ihl ihr =>
    have hmem : .word w ∈ tokens l .exec ++ .bar :: tokens r .pipe := by
      unfold tokens at hw
      dsimp only at hw
      split at hw
      · exact hparen hw
      · exact hw
    rcases mem_append.1 hmem with hmem | hmem
    · exact ihl h.1 _ hmem
    · exact ihr h.2 _ ((mem_cons.1 hmem).resolve_left fun heq => by cases heq)
  | back c ih =>
    have hmem : .word w ∈ tokens c .back ++ [.amp] := by
      unfold tokens at hw
      dsimp only at hw
      split at hw
      · exact hparen hw
      · exact hw
    rcases mem_append.1 hmem with hmem | hmem
    · exact ih h _ hmem
    · cases mem_singleton.1 hmem
  | list l r ihl ihr =>
    have hmem : .word w ∈ tokens l .back ++ .semi :: tokens r .line := by
      unfold tokens at hw
      dsimp only at hw
      split at hw
      · exact hw
      · exact hparen hw
    rcases mem_append.1 hmem with hmem | hmem
    · exact ihl h.1 _ hmem
    · exact ihr h.2 _ ((mem_cons.1 hmem).resolve_left fun heq => by cases heq)

theorem lexes_text (h : ∀ w, .word w ∈ ts → isWord w) : Lexes (ts.flatMap fun t => t.text ++ [' ']) ts := by
  induction ts with
  | nil => exact .nil
  | cons t ts ih =>
    have hrest : Lexes (' ' :: ts.flatMap fun t => t.text ++ [' ']) ts := .space (by decide) (ih fun w hw => h w (mem_cons_of_mem t hw))
    rw [flatMap_cons, append_assoc]
    by_cases ht : ∃ w, t = .word w
    · obtain ⟨w, rfl⟩ := ht
      refine .word (h w (mem_cons_self ..)) (fun c hc => .inl ?_) hrest
      rw [← Option.some.inj hc]
      decide
    · exact .symbol (fun w hw => ht ⟨w, hw⟩) hrest

/-- No token of a printed tree has a NUL in it. -/
theorem line_print (h : Printable c) : line (print c) = print c := by
  refine takeWhile_eq_self_iff.2 fun d hd => decide_eq_true fun heq => ?_
  subst heq
  obtain ⟨t, ht, hmem⟩ := mem_flatMap.1 hd
  rcases mem_append.1 hmem with hmem | hmem
  · cases t with
    | word => exact (word_of_mem_tokens h _ ht).2 hmem
    | _ => exact absurd hmem (by decide)
  · exact absurd hmem (by decide)

theorem parsecmd_print (h : Printable c) : parsecmd (print c) = .ok c := by
  have hlexes : Lexes (line (print c)) (tokens c .line) := by
    rw [line_print h]
    exact lexes_text fun w hw => (word_of_mem_tokens h _ hw).1
  exact parsecmd_complete hlexes (prints h).line

end ShAux

open ShAux

/-- The parser decides its grammar:
* it returns a tree exactly if the text of the line derives from `line`, and then the tree of the derivation;
* it always returns a tree or panics;
* a tree that is printed and parsed again is the same. -/
theorem parsecmd_decides :
    (∀ buf c, parsecmd buf = .ok c ↔ ∃ ts, Lexes (line buf) ts ∧ Derives .line ts c) ∧
      (∀ buf, (∃ c, parsecmd buf = .ok c) ∨ ∃ e text, parsecmd buf = .error e ∧ e.text = some text) ∧
      ∀ c, Printable c → parsecmd (print c) = .ok c := by
  refine ⟨fun buf c => ⟨parsecmd_sound, fun h => ?_⟩, fun buf => ?_, fun c => parsecmd_print⟩
  · obtain ⟨ts, hlexes, hderives⟩ := h
    exact parsecmd_complete hlexes hderives
  · cases h : parsecmd buf with
    | ok c => exact .inl ⟨c, rfl⟩
    | error e =>
      cases e with
      | fuel => exact absurd h (parsecmd_ends buf)
      | _ => exact .inr ⟨_, _, rfl, rfl⟩

/-- `( ls < a & ; echo b ) >> c | wc`. -/
def sample : Cmd (List Char) :=
  .pipe (.redir (.list (.back (.redir (.exec [['l', 's']]) ['a'] 0 0)) (.exec [['e', 'c', 'h', 'o'], ['b']])) ['c'] 513 1)
    (.exec [['w', 'c']])

theorem parsecmd_decides_sample : parsecmd (print sample) = .ok sample ∧ print sample = "( ls < a & ; echo b ) >> c | wc ".toList := by
  refine ⟨parsecmd_decides.2.2 sample ?_, by decide⟩
  simp [sample, Printable, isWord, whitespace, symbols, NUL, MAXARGS, O_RDONLY, O_WRONLY, O_CREATE, O_TRUNC]

end Xv6.Sh
