import Xv6.Lemmas.Sh

/-!
# The loops of the shell's parser

For each loop: what it has read when it ends derives from its part of the grammar, with the tree it has built (`sound`), and from a text
that starts with such a part it reads that part and builds that tree (`complete`).
-/

namespace Xv6.Sh

open List

variable {s u : Ptr} {ts us : List Token} {cmd : Cmd Span} {r : Cmd Span × Ptr} {rs : List Redirection} {ws : List (List Char)}
  {x : Except Stop (Cmd Span × Ptr)} {t : Token} {n : Nat}

/-- A program in two parts that succeeds. -/
theorem exists_of_bind {α β : Type} {x : Except Stop α} {f : α → Except Stop β} {b : β} (h : x >>= f = .ok b) :
    ∃ a, x = .ok a ∧ f a = .ok b := by
  cases x with
  | error => cases h
  | ok a => exact ⟨a, rfl, h⟩

/-! ## Trees -/

namespace Cmd

variable {W V : Type} (f : W → V) (w : W) (c : Cmd W)

/-- The words of a tree. -/
def words : Cmd W → List W
  | .exec argv => argv
  | .redir c file _ _ => c.words ++ [file]
  | .pipe l r | .list l r => l.words ++ r.words
  | .back c => c.words

theorem map_addArg : (c.addArg w).map f = (c.map f).addArg (f w) := by
  induction c with
  | exec =>
    simp only [addArg, map, map_append, map_cons, map_nil]
  | redir c file mode fd ih => simp only [addArg, map, ih]
  | pipe | list | back => rfl

theorem words_addArg : ∀ x ∈ (c.addArg w).words, x = w ∨ x ∈ c.words := by
  induction c with
  | exec =>
    intro x hx
    rcases mem_append.1 hx with hx | hx
    · exact .inr hx
    · exact .inl (mem_singleton.1 hx)
  | redir c file mode fd ih =>
    intro x hx
    rcases mem_append.1 hx with hx | hx
    · exact (ih x hx).imp_right (mem_append_left _)
    · exact .inr (mem_append_right _ hx)
  | pipe | list | back => exact fun x hx => .inr hx

theorem map_back_iterate (n : Nat) (c : Cmd W) : (Cmd.back^[n] c).map f = Cmd.back^[n] (c.map f) := by
  induction n with
  | zero => rfl
  | succ n ih => rw [Function.iterate_succ_apply', Function.iterate_succ_apply', map, ih]

theorem words_back_iterate (n : Nat) (c : Cmd W) : (Cmd.back^[n] c).words = c.words := by
  induction n with
  | zero => rfl
  | succ n ih => rw [Function.iterate_succ_apply', words, ih]

/-- An argument is added inside the redirections. -/
theorem addArg_foldl_wrap (rs : List Redirection) (c : Cmd (List Char)) (w : List Char) :
    (rs.foldl Redirection.wrap c).addArg w = rs.foldl Redirection.wrap (c.addArg w) := by
  induction rs generalizing c with
  | nil => rfl
  | cons r rs ih =>
    rw [foldl_cons, foldl_cons, ih]
    cases r with
    | input | output | append => rfl

end Cmd

/-- Every word of the tree is the text of a span. -/
def Cmd.Proper (c : Cmd Span) : Prop := ∀ w ∈ c.words, w.Proper

/-! ## Redirections -/

/-- A redirection by its token. -/
def Redirection.ofToken (t : Token) (file : List Char) : Redirection :=
  match t with
  | .lt => .input file
  | .gt => .output file
  | _ => .append file

section

variable (ht : t = .lt ∨ t = .gt ∨ t = .gtgt)

include ht

theorem Redirection.tokens_ofToken (file : List Char) :
    (Redirection.ofToken t file).tokens = [t, .word file] := by
  rcases ht with rfl | rfl | rfl
  all_goals rfl

theorem map_redirect (w : Span) (cmd : Cmd Span) :
    (redirect t.ret w cmd).map Span.text = (Redirection.ofToken t w.text).wrap (cmd.map Span.text) := by
  rcases ht with rfl | rfl | rfl
  all_goals rfl

theorem words_redirect (w : Span) (cmd : Cmd Span) :
    (redirect t.ret w cmd).words = cmd.words ++ [w] := by
  rcases ht with rfl | rfl | rfl
  all_goals rfl

end

/-- Redirections have been read: the tokens, and the tree around the one before. -/
def Redirected (cmd : Cmd Span) (s : Ptr) (r : Cmd Span × Ptr) : Prop :=
  (cmd.Proper → r.1.Proper) ∧ ∃ rs : List Redirection, r.1.map Span.text = rs.foldl Redirection.wrap (cmd.map Span.text) ∧
    ∀ us, Lexes r.2 us → Lexes s (rs.flatMap Redirection.tokens ++ us)

theorem redirLoop_sound (h : redirLoop n cmd s = .ok r) : Redirected cmd s r := by
  induction n generalizing cmd s with
  | zero =>
    cases h
    exact ⟨id, [], rfl, fun us hus => hus⟩
  | succ n ih =>
    rw [redirLoop] at h
    split at h
    · next hpeek =>
      rw [gettoken_skip] at h
      dsimp only at h
      split at h
      · cases h
      · next hfile =>
        rw [not_not] at hfile
        obtain ⟨t, ht, hret, -, htok⟩ := lexes_of_peek_redir hpeek
        obtain ⟨hproper, -, hword⟩ := lexes_of_word hfile
        rw [hret] at h
        obtain ⟨hkeep, rs, htree, hlexes⟩ := ih h
        refine ⟨fun hcmd => hkeep ?_, .ofToken t (gettoken (gettoken s).rest).span.text :: rs, ?_, fun us hus => ?_⟩
        · intro w hw
          rw [words_redirect ht] at hw
          rcases mem_append.1 hw with hw | hw
          · exact hcmd w hw
          · rw [mem_singleton.1 hw]
            exact hproper
        · rw [htree, map_redirect ht, foldl_cons]
        · rw [flatMap_cons, Redirection.tokens_ofToken ht]
          exact htok _ (hword _ (hlexes us hus))
    · cases h
      exact ⟨id, [], rfl, fun us hus => lexes_of_skip hus⟩

/-- A token that is not one of a redirection, or the end. -/
def Plain (us : List Token) : Prop := ∀ t ∈ us.head?, t ≠ .lt ∧ t ≠ .gt ∧ t ≠ .gtgt

theorem peek_redir_of_plain (hus : Plain us) (h : Lexes s us) : peek s ['<', '>'] = false := by
  cases us with
  | nil => exact peek_of_lexes_nil h _
  | cons t =>
    rw [peek_of_lexes h (by decide)]
    obtain ⟨hlt, hgt, hgtgt⟩ := hus t rfl
    cases t with
    | lt => exact absurd rfl hlt
    | gt => exact absurd rfl hgt
    | gtgt => exact absurd rfl hgtgt
    | _ => rfl

theorem redirLoop_complete (h : Lexes s (rs.flatMap Redirection.tokens ++ us)) (hus : Plain us)
    (hn : s.length ≤ n) :
    ∃ r, redirLoop n cmd s = .ok r ∧ r.1.map Span.text = rs.foldl Redirection.wrap (cmd.map Span.text) ∧ Lexes r.2 us ∧
      r.2.length ≤ s.length := by
  induction rs generalizing cmd s n with
  | nil =>
    cases n with
    | zero => exact ⟨_, rfl, rfl, h, Nat.le_refl _⟩
    | succ =>
      rw [redirLoop, peek_redir_of_plain hus h]
      exact ⟨_, rfl, rfl, lexes_skip h, skip_length_le s⟩
  | cons r rs ih =>
    obtain ⟨t, file, ht, rfl⟩ : ∃ (t : Token) (file : List Char), (t = .lt ∨ t = .gt ∨ t = .gtgt) ∧ r = .ofToken t file := by
      cases r with
      | input file => exact ⟨.lt, file, .inl rfl, rfl⟩
      | output file => exact ⟨.gt, file, .inr (.inl rfl), rfl⟩
      | append file => exact ⟨.gtgt, file, .inr (.inr rfl), rfl⟩
    rw [flatMap_cons, Redirection.tokens_ofToken ht] at h
    obtain ⟨hret, hrest, hlt, -⟩ := gettoken_of_lexes h fun _ => ⟨_, _, rfl⟩
    obtain ⟨hret', hrest', hlt', htext⟩ := gettoken_of_lexes hrest fun heq => by cases heq
    obtain ⟨n, rfl⟩ := Nat.exists_eq_succ_of_ne_zero (show n ≠ 0 by omega)
    have hpeek : peek s ['<', '>'] = true := by
      rw [peek_of_lexes h (by decide)]
      rcases ht with rfl | rfl | rfl
      all_goals rfl
    obtain ⟨r, hrun, htree, hlexes, hle⟩ := @ih _ (redirect t.ret (gettoken (gettoken s).rest).span cmd) n hrest' (by omega)
    refine ⟨r, ?_, ?_, hlexes, by omega⟩
    · rw [redirLoop, hpeek, if_pos rfl, gettoken_skip]
      dsimp only
      rw [hret', if_neg (show ¬(Token.word file).ret ≠ 'a' from not_not.2 rfl), hret]
      exact hrun
    · rw [htree, map_redirect ht, htext file rfl, foldl_cons]

theorem parseredirs_sound (h : parseredirs cmd s = .ok r) : Redirected cmd s r := redirLoop_sound h

theorem parseredirs_complete (cmd : Cmd Span) (h : Lexes s (rs.flatMap Redirection.tokens ++ us)) (hus : Plain us) :
    ∃ r, parseredirs cmd s = .ok r ∧ r.1.map Span.text = rs.foldl Redirection.wrap (cmd.map Span.text) ∧ Lexes r.2 us ∧
      r.2.length ≤ s.length := redirLoop_complete h hus (Nat.le_refl _)

/-! ## Arguments -/

/-- What stops the loop over arguments: `|`, `)`, `&`, `;` or the end. -/
def Stops (us : List Token) : Prop := ∀ t ∈ us.head?, t = .bar ∨ t = .rparen ∨ t = .amp ∨ t = .semi

theorem Stops.plain (h : Stops us) : Plain us := by
  intro t ht
  rcases h t ht with rfl | rfl | rfl | rfl
  all_goals exact ⟨by decide, by decide, by decide⟩

/-- The loop has read arguments and redirections, and added them to a command that had some before. -/
theorem argLoop_sound {n argc : Nat}
    (h : argLoop n argc cmd s = .ok r) (hproper : cmd.Proper) (htree : cmd.map Span.text = rs.foldl Redirection.wrap (.exec ws))
    (hargc : ws.length = argc) (hmax : argc ≤ MAXARGS - 1) :
    r.1.Proper ∧ ∃ ts ws' rs', Args ts ws' rs' ∧ r.1.map Span.text = (rs ++ rs').foldl Redirection.wrap (.exec (ws ++ ws')) ∧
      (ws ++ ws').length ≤ MAXARGS - 1 ∧ ∀ us, Lexes r.2 us → Lexes s (ts ++ us) := by
  induction n generalizing cmd s argc ws rs with
  | zero =>
    cases h
    refine ⟨hproper, [], [], [], .nil, ?_, ?_, fun us hus => hus⟩
    · rw [append_nil, append_nil]
      exact htree
    · rw [append_nil]
      omega
  | succ n ih =>
    have hdone : ∀ {u : Ptr}, (∀ us, Lexes u us → Lexes s us) → r = (cmd, u) → r.1.Proper ∧ ∃ ts ws' rs', Args ts ws' rs' ∧
        r.1.map Span.text = (rs ++ rs').foldl Redirection.wrap (.exec (ws ++ ws')) ∧ (ws ++ ws').length ≤ MAXARGS - 1 ∧
        ∀ us, Lexes r.2 us → Lexes s (ts ++ us) := by
      rintro u hu rfl
      refine ⟨hproper, [], [], [], .nil, ?_, ?_, hu⟩
      · rw [append_nil, append_nil]
        exact htree
      · rw [append_nil]
        omega
    rw [argLoop] at h
    split at h
    · exact hdone (fun us hus => lexes_of_skip hus) (Except.ok.inj h).symm
    · rw [gettoken_skip] at h
      dsimp only at h
      split at h
      · next hnul =>
        have hskip := skip_of_nul hnul
        refine hdone (fun us hus => ?_) (Except.ok.inj h).symm
        rw [(gettoken_nil hskip).2] at hus
        exact lexes_of_skip (by rw [hskip]; exact hus)
      · split at h
        · cases h
        · next hword =>
          rw [not_not] at hword
          split at h
          · cases h
          · next hroom =>
            obtain ⟨hspan, -, hlexes⟩ := lexes_of_word hword
            obtain ⟨a, hredirs, h⟩ := exists_of_bind h
            obtain ⟨hkeep, rs₁, htree₁, hlexes₁⟩ := parseredirs_sound hredirs
            have hproper₁ : a.1.Proper := hkeep fun w hw => by
              rcases Cmd.words_addArg _ _ w hw with rfl | hw
              · exact hspan
              · exact hproper w hw
            have htree₂ : a.1.map Span.text = (rs ++ rs₁).foldl Redirection.wrap (.exec (ws ++ [(gettoken s).span.text])) := by
              rw [htree₁, Cmd.map_addArg, htree, Cmd.addArg_foldl_wrap, foldl_append]
              rfl
            have hlen : (ws ++ [(gettoken s).span.text]).length = argc + 1 := by
              rw [length_append, length_singleton, hargc]
            obtain ⟨hproper', ts, ws', rs', hargs, htree', hmax', hlexes'⟩ := ih h hproper₁ htree₂ hlen (by omega)
            refine ⟨hproper', _, _, _, @Args.cons (gettoken s).span.text rs₁ rs' ts ws' hargs, ?_, ?_, fun us hus => ?_⟩
            · rw [htree', append_assoc, append_assoc]
              rfl
            · rw [append_assoc] at hmax'
              exact hmax'
            · have := hlexes _ (hlexes₁ _ (hlexes' us hus))
              rw [cons_append, append_assoc]
              exact this

theorem Args.plain (h : Args ts ws rs) (hus : Stops us) : Plain (ts ++ us) := by
  cases h with
  | nil => exact hus.plain
  | cons =>
    intro t ht
    cases ht
    exact ⟨Token.noConfusion, Token.noConfusion, Token.noConfusion⟩

/-- Arguments and redirections are read up to what stops the loop. -/
theorem argLoop_complete (argc : Nat) {ws ws' : List (List Char)} {rs rs' : List Redirection} (hargs : Args ts ws' rs')
    (h : Lexes s (ts ++ us)) (hus : Stops us) (htree : cmd.map Span.text = rs.foldl Redirection.wrap (.exec ws))
    (hmax : argc + ws'.length ≤ MAXARGS - 1) (hn : s.length ≤ n) :
    ∃ r, argLoop n argc cmd s = .ok r ∧ r.1.map Span.text = (rs ++ rs').foldl Redirection.wrap (.exec (ws ++ ws')) ∧ Lexes r.2 us ∧
      r.2.length ≤ s.length := by
  induction hargs generalizing s cmd argc ws rs n with
  | nil =>
    rw [append_nil, append_nil]
    cases n with
    | zero => exact ⟨_, rfl, htree, h, Nat.le_refl _⟩
    | succ =>
      cases us with
      | nil =>
        have hskip := skip_of_lexes_nil h
        obtain ⟨hret, hrest⟩ := gettoken_nil hskip
        refine ⟨(cmd, []), ?_, htree, .nil, Nat.zero_le _⟩
        rw [argLoop, peek_of_lexes_nil h, gettoken_skip]
        dsimp only
        rw [hret, hrest]
        rfl
      | cons t =>
        have hpeek : peek s ['|', ')', '&', ';'] = true := by
          rw [peek_of_lexes h (by decide)]
          rcases hus t rfl with rfl | rfl | rfl | rfl
          all_goals rfl
        rw [argLoop, hpeek]
        exact ⟨_, rfl, htree, lexes_skip h, skip_length_le s⟩
  | @cons w rs₁ rs₂ ts ws₂ hargs ih =>
    rw [cons_append, append_assoc] at h
    obtain ⟨hret, hrest, hlt, htext⟩ := gettoken_of_lexes h fun heq => by cases heq
    have htext := htext w rfl
    rw [length_cons] at hmax
    obtain ⟨n, rfl⟩ := Nat.exists_eq_succ_of_ne_zero (show n ≠ 0 by omega)
    have hpeek : peek s ['|', ')', '&', ';'] = false := peek_of_lexes h (by decide)
    obtain ⟨a, hredirs, htree₁, hlexes₁, hle₁⟩ := parseredirs_complete (cmd.addArg (gettoken s).span) hrest (hargs.plain hus)
    have htree₂ : a.1.map Span.text = (rs ++ rs₁).foldl Redirection.wrap (.exec (ws ++ [w])) := by
      rw [htree₁, Cmd.map_addArg, htree, Cmd.addArg_foldl_wrap, foldl_append, htext]
      rfl
    obtain ⟨r, hrun, htree', hlexes', hle'⟩ := @ih _ _ n (argc + 1) _ _ hlexes₁ htree₂ (by omega) (by omega)
    refine ⟨r, ?_, ?_, hlexes', by omega⟩
    · rw [argLoop, hpeek, gettoken_skip]
      dsimp only
      rw [hret, if_neg Bool.false_ne_true, if_neg (show (Token.word w).ret ≠ NUL from (by decide : 'a' ≠ NUL)), if_neg (show ¬(Token.word w).ret ≠ 'a' from not_not.2 rfl),
        if_neg (by unfold MAXARGS at *; omega), hredirs]
      exact hrun
    · rw [htree', append_assoc, append_assoc]
      rfl

theorem parsesimple_sound (h : parsesimple s = .ok r) :
    r.1.Proper ∧ ∃ ts, Derives .exec ts (r.1.map Span.text) ∧ ∀ us, Lexes r.2 us → Lexes s (ts ++ us) := by
  unfold parsesimple at h
  obtain ⟨a, hredirs, h⟩ := exists_of_bind h
  obtain ⟨hkeep, rs, htree, hlexes⟩ := parseredirs_sound hredirs
  have hproper : a.1.Proper := hkeep fun w hw => absurd hw not_mem_nil
  obtain ⟨hproper', ts, ws, rs', hargs, htree', hmax, hlexes'⟩ := argLoop_sound h hproper htree rfl (Nat.zero_le _)
  refine ⟨hproper', rs.flatMap Redirection.tokens ++ ts, ?_, fun us hus => ?_⟩
  · rw [htree']
    exact .simple rs hargs hmax
  · rw [append_assoc]
    exact hlexes _ (hlexes' us hus)

theorem parsesimple_complete {rs rs' : List Redirection} (hargs : Args ts ws rs')
    (hmax : ws.length ≤ MAXARGS - 1) (h : Lexes s (rs.flatMap Redirection.tokens ++ ts ++ us)) (hus : Stops us) :
    ∃ r, parsesimple s = .ok r ∧ r.1.map Span.text = (rs ++ rs').foldl Redirection.wrap (.exec ws) ∧ Lexes r.2 us ∧
      r.2.length ≤ s.length := by
  rw [append_assoc] at h
  obtain ⟨a, hredirs, htree, hlexes, hle⟩ := parseredirs_complete (.exec []) h (hargs.plain hus)
  have htree : a.1.map Span.text = rs.foldl Redirection.wrap (.exec []) := htree
  obtain ⟨r, hrun, htree', hlexes', hle'⟩ := argLoop_complete 0 hargs hlexes hus htree (by omega) (Nat.le_refl _)
  refine ⟨r, ?_, htree', hlexes', hle'.trans hle⟩
  unfold parsesimple
  rw [hredirs]
  exact hrun

/-! ## Commands in the background -/

theorem backLoop_sound (n : Nat) (cmd : Cmd Span) (s : Ptr) :
    ∃ k, (backLoop n cmd s).1 = Cmd.back^[k] cmd ∧ ∀ us, Lexes (backLoop n cmd s).2 us → Lexes s (replicate k .amp ++ us) := by
  induction n generalizing cmd s with
  | zero => exact ⟨0, rfl, fun us hus => hus⟩
  | succ n ih =>
    rw [backLoop]
    split
    · next hpeek =>
      rw [gettoken_skip]
      obtain ⟨-, hamp⟩ := lexes_of_peek (t := .amp) (by simp) hpeek
      obtain ⟨k, htree, hlexes⟩ := ih (.back cmd) (gettoken s).rest
      exact ⟨k + 1, htree, fun us hus => hamp _ (hlexes us hus)⟩
    · exact ⟨0, rfl, fun us hus => lexes_of_skip hus⟩

theorem backLoop_complete {n k : Nat} (cmd : Cmd Span) (h : Lexes s (replicate k .amp ++ us)) (hus : ∀ t ∈ us.head?, t ≠ .amp) (hn : s.length ≤ n) :
    (backLoop n cmd s).1 = Cmd.back^[k] cmd ∧ Lexes (backLoop n cmd s).2 us ∧ (backLoop n cmd s).2.length ≤ s.length := by
  induction k generalizing n cmd s with
  | zero =>
    cases n with
    | zero => exact ⟨rfl, h, Nat.le_refl _⟩
    | succ =>
      have hpeek : peek s ['&'] = false := by
        cases us with
        | nil => exact peek_of_lexes_nil h _
        | cons t =>
          rw [peek_of_lexes h (by decide)]
          have := hus t rfl
          cases t with
          | amp => exact absurd rfl this
          | _ => rfl
      rw [backLoop, hpeek]
      exact ⟨rfl, lexes_skip h, skip_length_le s⟩
  | succ k ih =>
    rw [replicate_succ, cons_append] at h
    obtain ⟨-, hrest, hlt, -⟩ := gettoken_of_lexes h fun heq => by cases heq
    obtain ⟨n, rfl⟩ := Nat.exists_eq_succ_of_ne_zero (show n ≠ 0 by omega)
    have hpeek : peek s ['&'] = true := peek_of_lexes h (by decide)
    rw [backLoop, hpeek, if_pos rfl, gettoken_skip]
    obtain ⟨htree, hlexes, hle⟩ := ih (n := n) (.back cmd) hrest (by omega)
    exact ⟨htree, hlexes, by omega⟩

/-! ## The loops end -/

/-- A part of the parser returns or panics, and does not go back. -/
def Ends (s : Ptr) (x : Except Stop (Cmd Span × Ptr)) : Prop := x ≠ .error .fuel ∧ ∀ r, x = .ok r → r.2.length ≤ s.length

theorem Ends.ok (h : r.2.length ≤ s.length) : Ends s (.ok r) :=
  ⟨fun heq => (by cases heq), fun r' heq => by rw [← Except.ok.inj heq]; exact h⟩

theorem Ends.error {e : Stop} (h : e ≠ .fuel) : Ends s (.error e) := ⟨fun heq => h (Except.error.inj heq), fun r heq => (by cases heq)⟩

theorem Ends.mono (h : Ends u x) (hle : u.length ≤ s.length) : Ends s x :=
  ⟨h.1, fun r heq => (h.2 r heq).trans hle⟩

theorem Ends.bind {f : Cmd Span × Ptr → Except Stop (Cmd Span × Ptr)} (h : Ends u x)
    (hf : ∀ r, r.2.length ≤ u.length → Ends s (f r)) : Ends s (x >>= f) := by
  cases x with
  | error => exact .error fun heq => h.1 (congrArg Except.error heq)
  | ok r => exact hf r (h.2 r rfl)

theorem redirLoop_ends (n : Nat) (cmd : Cmd Span) (s : Ptr) : Ends s (redirLoop n cmd s) := by
  induction n generalizing cmd s with
  | zero => exact .ok (Nat.le_refl _)
  | succ n ih =>
    rw [redirLoop]
    split
    · rw [gettoken_skip]
      dsimp only
      split
      · exact .error (by decide)
      · have h₁ := gettoken_length_le s
        have h₂ := gettoken_length_le (gettoken s).rest
        exact (ih _ _).mono (h₂.trans h₁)
    · exact .ok (skip_length_le s)

theorem argLoop_ends (n argc : Nat) (cmd : Cmd Span) (s : Ptr) : Ends s (argLoop n argc cmd s) := by
  induction n generalizing argc cmd s with
  | zero => exact .ok (Nat.le_refl _)
  | succ n ih =>
    rw [argLoop]
    split
    · exact .ok (skip_length_le s)
    rw [gettoken_skip]
    dsimp only
    have hle := gettoken_length_le s
    split
    · exact .ok hle
    split
    · exact .error (by decide)
    split
    · exact .error (by decide)
    · exact (redirLoop_ends _ _ _).bind fun r hr => (ih _ _ _).mono (hr.trans hle)

theorem parsesimple_ends (s : Ptr) : Ends s (parsesimple s) :=
  (redirLoop_ends _ _ s).bind fun _ hr => (argLoop_ends _ _ _ _).mono hr

theorem backLoop_length_le (n : Nat) (cmd : Cmd Span) (s : Ptr) : (backLoop n cmd s).2.length ≤ s.length := by
  induction n generalizing cmd s with
  | zero => exact Nat.le_refl _
  | succ n ih =>
    rw [backLoop]
    split
    · rw [gettoken_skip]
      exact (ih _ _).trans (gettoken_length_le s)
    · exact skip_length_le s

end Xv6.Sh
