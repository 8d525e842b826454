import Xv6.Sh
import Mathlib.Data.List.TakeWhile

/-!
# Tokens of the shell

What `peek` and `gettoken` do, in terms of the tokens of a text, in both directions: a text that `gettoken` has read starts with that
token, and from a text that starts with a token `gettoken` reads it.
-/

namespace Xv6.Sh

open List

variable {s u : Ptr} {t : Token} {ts us : List Token} {w : List Char} {c : Char} {toks : List Char}

/-! ## Whitespace -/

theorem skip_cons_space (hc : c ∈ whitespace) (s : Ptr) : skip (c :: s) = skip s := dropWhile_cons_of_pos (decide_eq_true hc)

theorem skip_cons_other (hc : c ∉ whitespace) (s : Ptr) : skip (c :: s) = c :: s :=
  dropWhile_cons_of_neg (by rw [decide_eq_false hc]; exact Bool.false_ne_true)

theorem skip_skip (s : Ptr) : skip (skip s) = skip s := by
  induction s with
  | nil => rfl
  | cons c s ih =>
    by_cases hc : c ∈ whitespace
    · rw [skip_cons_space hc, ih]
    · rw [skip_cons_other hc, skip_cons_other hc]

theorem skip_length_le (s : Ptr) : (skip s).length ≤ s.length := (dropWhile_sublist _).length_le

theorem skip_head (h : skip s = c :: u) : c ∉ whitespace := by
  induction s with
  | nil => cases h
  | cons d s ih =>
    by_cases hd : d ∈ whitespace
    · rw [skip_cons_space hd] at h
      exact ih h
    · rw [skip_cons_other hd] at h
      rw [← (cons.inj h).1]
      exact hd

theorem lexes_of_skip (h : Lexes (skip s) ts) : Lexes s ts := by
  induction s with
  | nil => exact h
  | cons c s ih =>
    by_cases hc : c ∈ whitespace
    · rw [skip_cons_space hc] at h
      exact .space hc (ih h)
    · rw [skip_cons_other hc] at h
      exact h

/-! ## Characters -/

theorem wordChar_iff : wordChar c = true ↔ c ∉ whitespace ∧ c ∉ symbols := by
  unfold wordChar
  rw [Bool.and_eq_true, decide_eq_true_iff, decide_eq_true_iff]

theorem wordChar_eq_false_iff : wordChar c = false ↔ c ∈ whitespace ∨ c ∈ symbols := by
  rw [← Bool.not_eq_true, wordChar_iff, not_and_or, not_not, not_not]

/-- No symbol is whitespace. -/
theorem symbol_not_space (hc : c ∈ symbols) : c ∉ whitespace := by
  have hall : (symbols.all fun c => decide (c ∉ whitespace)) = true := by decide
  exact of_decide_eq_true (all_eq_true.1 hall c hc)

/-- The first character of a word. -/
theorem isWord.head (h : isWord w) : ∃ c v, w = c :: v ∧ c ∉ whitespace ∧ c ∉ symbols := by
  obtain ⟨c, v, rfl⟩ := exists_cons_of_ne_nil h.1
  exact ⟨c, v, rfl, h.2 c (mem_cons_self ..)⟩

/-- The first character of a token. -/
theorem Token.text_cons (ht : ∀ w, t ≠ .word w) : ∃ c v, t.text = c :: v ∧ c ∈ symbols := by
  cases t with
  | word w => exact absurd rfl (ht w)
  | bar | lparen | rparen | semi | amp | lt | gt | gtgt => exact ⟨_, _, rfl, by decide⟩

theorem scan_cons (c : Char) (s : Ptr) : scan (c :: s) =
    if c ∈ ['|', '(', ')', ';', '&', '<'] then (c, s)
    else if c = '>' then if s.head? = some '>' then ('+', s.tail) else ('>', s)
    else ('a', (c :: s).dropWhile wordChar) := rfl

theorem scan_length_le (s : Ptr) : (scan s).2.length ≤ s.length := by
  cases s with
  | nil => exact Nat.le_refl 0
  | cons c s =>
    rw [scan_cons]
    split
    · exact Nat.le_succ _
    split
    · split
      · show s.tail.length ≤ s.length + 1
        rw [length_tail]
        omega
      · exact Nat.le_succ _
    · exact (dropWhile_sublist _).length_le

/-! ## What a text that has tokens starts with -/

theorem skip_of_lexes_nil (h : Lexes s []) : skip s = [] := by
  generalize hts : ([] : List Token) = ts at h
  induction h with
  | nil => rfl
  | space hc _ ih =>
    rw [skip_cons_space hc]
    exact ih hts
  | symbol _ _ _ | word _ _ _ _ => cases hts

/-- The text of the first token, what comes after it, and that a word is as long as it can be. -/
theorem skip_of_lexes_cons (h : Lexes s (t :: ts)) :
    ∃ u, skip s = t.text ++ u ∧ Lexes u ts ∧ ∀ w, t = .word w → isWord w ∧ ∀ c ∈ u.head?, c ∈ whitespace ∨ c ∈ symbols := by
  generalize hts : t :: ts = l at h
  induction h with
  | nil => cases hts
  | space hc _ ih =>
    rw [skip_cons_space hc]
    exact ih hts
  | @symbol t' u ts' ht hu _ =>
    obtain ⟨rfl, rfl⟩ := cons.inj hts
    obtain ⟨c, v, htext, hc⟩ := Token.text_cons ht
    refine ⟨u, ?_, hu, fun w hw => absurd hw (ht w)⟩
    rw [htext]
    exact skip_cons_other (symbol_not_space hc) _
  | @word w u ts' hw hmax hu _ =>
    obtain ⟨rfl, rfl⟩ := cons.inj hts
    obtain ⟨c, v, rfl, hc, -⟩ := hw.head
    refine ⟨u, skip_cons_other hc _, hu, fun w' hw' => ?_⟩
    obtain rfl := Token.word.inj hw'
    exact ⟨hw, hmax⟩

theorem lexes_skip (h : Lexes s ts) : Lexes (skip s) ts := by
  cases ts with
  | nil =>
    rw [skip_of_lexes_nil h]
    exact .nil
  | cons t ts =>
    obtain ⟨u, hskip, hu, hword⟩ := skip_of_lexes_cons h
    rw [hskip]
    by_cases ht : ∃ w, t = .word w
    · obtain ⟨w, rfl⟩ := ht
      exact .word (hword w rfl).1 (hword w rfl).2 hu
    · exact .symbol (fun w hw => ht ⟨w, hw⟩) hu

/-! ## From tokens to `peek` and `gettoken` -/

/-- What `gettoken` returns for a token. -/
def Token.ret : Token → Char
  | .bar => '|'
  | .lparen => '('
  | .rparen => ')'
  | .semi => ';'
  | .amp => '&'
  | .lt => '<'
  | .gt => '>'
  | .gtgt => '+'
  | .word _ => 'a'

/-- What `peek` returns before a token. -/
def Token.starts (toks : List Char) : Token → Bool
  | .word _ => false
  | t => t.text.any fun c => decide (c ∈ toks)

theorem dropWhile_word (hw : ∀ c ∈ w, wordChar c = true) (hu : ∀ c ∈ u.head?, wordChar c = false) :
    (w ++ u).dropWhile wordChar = u ∧ (w ++ u).takeWhile wordChar = w := by
  rw [dropWhile_append_of_pos hw, takeWhile_append_of_pos hw]
  cases u with
  | nil => exact ⟨rfl, append_nil w⟩
  | cons c u =>
    have hc := hu c rfl
    rw [dropWhile_cons_of_neg (by rw [hc]; exact Bool.false_ne_true), takeWhile_cons_of_neg (by rw [hc]; exact Bool.false_ne_true),
      append_nil]
    exact ⟨rfl, rfl⟩

theorem isWord.wordChar (h : isWord w) : ∀ c ∈ w, wordChar c = true := fun c hc => wordChar_iff.2 (h.2 c hc)

/-- The text of a span that holds a word. -/
def Span.text (w : Span) : List Char := w.q.takeWhile wordChar

/-- A span that holds a word, which is as long as it can be. -/
def Span.Proper (w : Span) : Prop := w.q = w.text ++ w.eq ∧ isWord w.text ∧ ∀ c ∈ w.eq.head?, wordChar c = false

theorem scan_word (hw : isWord w) (hu : ∀ c ∈ u.head?, c ∈ whitespace ∨ c ∈ symbols) :
    scan (w ++ u) = ('a', u) ∧ (w ++ u).takeWhile wordChar = w := by
  obtain ⟨hdrop, htake⟩ := dropWhile_word hw.wordChar fun c hc => wordChar_eq_false_iff.2 (hu c hc)
  obtain ⟨c, v, rfl, hc, hsym⟩ := hw.head
  refine ⟨?_, htake⟩
  have hne : c ∉ ['|', '(', ')', ';', '&', '<'] := by
    intro hmem
    have hall : (['|', '(', ')', ';', '&', '<'].all fun c => decide (c ∈ symbols)) = true := by decide
    exact hsym (of_decide_eq_true (all_eq_true.1 hall c hmem))
  have hgt : c ≠ '>' := by
    rintro rfl
    exact hsym (by decide)
  rw [cons_append, scan_cons, if_neg hne, if_neg hgt, ← cons_append, hdrop]

/-- A word follows, so no second `>` does. -/
theorem head_of_lexes_word (h : Lexes s (.word w :: ts)) : s.head? ≠ some '>' := by
  intro hhead
  obtain ⟨u, rfl⟩ : ∃ u, s = '>' :: u := by
    cases s with
    | nil => cases hhead
    | cons c u => exact ⟨u, by rw [Option.some.inj hhead]⟩
  obtain ⟨v, hskip, -, hw⟩ := skip_of_lexes_cons h
  obtain ⟨c, v', rfl, -, hc⟩ := (hw w rfl).1.head
  rw [skip_cons_other (by decide)] at hskip
  rw [← (cons.inj hskip).1] at hc
  exact hc (by decide)

/-- `gettoken` reads the first token. -/
theorem gettoken_of_lexes (h : Lexes s (t :: ts)) (hgt : t = .gt → ∃ w ts', ts = .word w :: ts') :
    (gettoken s).ret = t.ret ∧ Lexes (gettoken s).rest ts ∧ (gettoken s).rest.length < s.length ∧
      ∀ w, t = .word w → (gettoken s).span.text = w := by
  obtain ⟨u, hskip, hu, hword⟩ := skip_of_lexes_cons h
  have hscan : scan (t.text ++ u) = (t.ret, u) := by
    cases t with
    | word w => exact (scan_word (hword w rfl).1 (hword w rfl).2).1
    | gt =>
      obtain ⟨w, ts', rfl⟩ := hgt rfl
      exact if_neg (head_of_lexes_word hu)
    | gtgt | bar | lparen | rparen | semi | amp | lt => rfl
  have hpos : 0 < t.text.length := by
    cases t with
    | word w => exact length_pos_of_ne_nil (hword w rfl).1.1
    | gt | bar | lparen | rparen | semi | amp | lt => exact Nat.one_pos
    | gtgt => exact Nat.two_pos
  have hrest : (gettoken s).rest = skip u := by
    show skip (scan (skip s)).2 = _
    rw [hskip, hscan]
  refine ⟨?_, ?_, ?_, fun w hw => ?_⟩
  · show (scan (skip s)).1 = _
    rw [hskip, hscan]
  · rw [hrest]
    exact lexes_skip hu
  · have h₁ := skip_length_le s
    have h₂ := skip_length_le u
    rw [hskip, length_append] at h₁
    rw [hrest]
    omega
  · subst hw
    show (skip s).takeWhile wordChar = w
    rw [hskip]
    exact (scan_word (hword w rfl).1 (hword w rfl).2).2

theorem peek_of_lexes_nil (h : Lexes s []) (toks : List Char) : peek s toks = false := by
  unfold peek
  rw [skip_of_lexes_nil h]

/-- `peek` looks at the first token. -/
theorem peek_of_lexes (h : Lexes s (t :: ts)) (htoks : (toks.all fun c => decide (c ∈ symbols)) = true) :
    peek s toks = t.starts toks := by
  obtain ⟨u, hskip, hu, hword⟩ := skip_of_lexes_cons h
  unfold peek
  rw [hskip]
  cases t with
  | word w =>
    obtain ⟨c, v, rfl, -, hc⟩ := (hword w rfl).1.head
    exact decide_eq_false fun hmem => hc (of_decide_eq_true (all_eq_true.1 htoks c hmem))
  | gtgt => exact (Bool.or_false _).symm.trans (by simp [Token.starts, Token.text])
  | gt | bar | lparen | rparen | semi | amp | lt => exact (Bool.or_false _).symm

theorem gettoken_nil (h : skip s = []) : (gettoken s).ret = NUL ∧ (gettoken s).rest = [] := by
  unfold gettoken
  rw [h]
  exact ⟨rfl, rfl⟩

/-! ## From `peek` and `gettoken` to tokens -/

theorem gettoken_skip (s : Ptr) : gettoken (skip s) = gettoken s := by
  unfold gettoken
  rw [skip_skip]

theorem gettoken_length_le (s : Ptr) : (gettoken s).rest.length ≤ s.length := by
  have h₁ := skip_length_le s
  have h₂ := scan_length_le (skip s)
  have h₃ := skip_length_le (scan (skip s)).2
  show (skip (scan (skip s)).2).length ≤ _
  omega

theorem exists_of_peek (h : peek s toks = true) : ∃ c u, skip s = c :: u ∧ c ∈ toks := by
  unfold peek at h
  split at h
  · cases h
  · next c u hskip => exact ⟨c, u, hskip, of_decide_eq_true h⟩

/-- A symbol of one character has been seen, and read. -/
theorem lexes_of_peek (ht : t = .bar ∨ t = .lparen ∨ t = .rparen ∨ t = .semi ∨ t = .amp) (h : peek s t.text = true) :
    (gettoken s).rest.length < s.length ∧ ∀ us, Lexes (gettoken s).rest us → Lexes s (t :: us) := by
  obtain ⟨c, u, hskip, hc⟩ := exists_of_peek h
  have hscan : t.text = [c] ∧ (∀ w, t ≠ .word w) ∧ scan (c :: u) = (t.ret, u) := by
    rcases ht with rfl | rfl | rfl | rfl | rfl
    all_goals
      obtain rfl := mem_singleton.1 hc
      exact ⟨rfl, (fun w hw => by cases hw), rfl⟩
  obtain ⟨htext, hword, hscan⟩ := hscan
  have hrest : (gettoken s).rest = skip u := by
    show skip (scan (skip s)).2 = _
    rw [hskip, hscan]
  refine ⟨?_, fun us hus => lexes_of_skip ?_⟩
  · have h₁ := skip_length_le s
    have h₂ := skip_length_le u
    rw [hskip, length_cons] at h₁
    rw [hrest]
    omega
  · rw [hrest] at hus
    rw [hskip, show c :: u = t.text ++ u by rw [htext]; rfl]
    exact .symbol hword (lexes_of_skip hus)

/-- The token of a redirection has been seen, and read. -/
theorem lexes_of_peek_redir (h : peek s ['<', '>'] = true) :
    ∃ t, (t = .lt ∨ t = .gt ∨ t = .gtgt) ∧ (gettoken s).ret = t.ret ∧ (gettoken s).rest.length < s.length ∧
      ∀ us, Lexes (gettoken s).rest us → Lexes s (t :: us) := by
  obtain ⟨c, u, hskip, hc⟩ := exists_of_peek h
  have hscan : ∃ (t : Token) (v : Ptr), (t = .lt ∨ t = .gt ∨ t = .gtgt) ∧ c :: u = t.text ++ v ∧ scan (c :: u) = (t.ret, v) := by
    rcases mem_cons.1 hc with rfl | hc
    · exact ⟨.lt, u, .inl rfl, rfl, rfl⟩
    · obtain rfl := mem_singleton.1 hc
      by_cases hhead : u.head? = some '>'
      · cases u with
        | nil => cases hhead
        | cons d v =>
          cases hhead
          exact ⟨.gtgt, v, .inr (.inr rfl), rfl, rfl⟩
      · exact ⟨.gt, u, .inr (.inl rfl), rfl, if_neg hhead⟩
  obtain ⟨t, v, ht, htext, hscan⟩ := hscan
  have hrest : (gettoken s).rest = skip v := by
    show skip (scan (skip s)).2 = _
    rw [hskip, hscan]
  have hword : ∀ w, t ≠ .word w := by
    intro w hw
    subst hw
    rcases ht with ht | ht | ht
    all_goals cases ht
  refine ⟨t, ht, ?_, ?_, fun us hus => lexes_of_skip ?_⟩
  · show (scan (skip s)).1 = _
    rw [hskip, hscan]
  · have h₁ := skip_length_le s
    have h₂ := skip_length_le v
    have h₃ : 0 < t.text.length := by
      obtain ⟨d, v', hd, -⟩ := Token.text_cons hword
      rw [hd]
      exact Nat.succ_pos _
    rw [hskip, htext, length_append] at h₁
    rw [hrest]
    omega
  · rw [hrest] at hus
    rw [hskip, htext]
    exact .symbol hword (lexes_of_skip hus)

/-- A word has been read. -/
theorem lexes_of_word (h : (gettoken s).ret = 'a') :
    (gettoken s).span.Proper ∧ (gettoken s).rest.length < s.length ∧
      ∀ us, Lexes (gettoken s).rest us → Lexes s (.word (gettoken s).span.text :: us) := by
  have hscan : (scan (skip s)).1 = 'a' := h
  cases hskip : skip s with
  | nil =>
    rw [hskip] at hscan
    exact absurd hscan (by decide)
  | cons c u =>
    have hspace := skip_head hskip
    have hsym : c ∉ symbols ∧ (scan (c :: u)).2 = (c :: u).dropWhile wordChar := by
      rw [hskip, scan_cons] at hscan
      rw [scan_cons]
      by_cases hmem : c ∈ ['|', '(', ')', ';', '&', '<']
      · rw [if_pos hmem] at hscan
        obtain rfl : c = 'a' := hscan
        exact absurd hmem (by decide)
      · rw [if_neg hmem] at hscan ⊢
        by_cases hgt : c = '>'
        · rw [if_pos hgt] at hscan
          split at hscan
          · exact absurd hscan (show '+' ≠ 'a' by decide)
          · exact absurd hscan (show '>' ≠ 'a' by decide)
        · rw [if_neg hgt]
          refine ⟨fun hc => ?_, rfl⟩
          simp only [symbols, mem_cons, not_mem_nil, or_false, not_or] at hc hmem
          tauto
    have hq : (gettoken s).span.q = c :: u := hskip
    have heq : (gettoken s).span.eq = (c :: u).dropWhile wordChar := by
      show (scan (skip s)).2 = _
      rw [hskip, hsym.2]
    have htext : (gettoken s).span.text = (c :: u).takeWhile wordChar := by
      unfold Span.text
      rw [hq]
    have hc : wordChar c = true := wordChar_iff.2 ⟨hspace, hsym.1⟩
    have hsplit : c :: u = (gettoken s).span.text ++ (gettoken s).span.eq := by
      rw [htext, heq, takeWhile_append_dropWhile]
    have hword : isWord (gettoken s).span.text := by
      rw [htext]
      refine ⟨?_, fun d hd => wordChar_iff.1 (mem_takeWhile_imp hd)⟩
      rw [takeWhile_cons_of_pos hc]
      exact cons_ne_nil _ _
    have hmax : ∀ d ∈ (gettoken s).span.eq.head?, wordChar d = false := by
      intro d hd
      rw [heq] at hd
      have := head?_dropWhile_not wordChar (c :: u)
      rw [hd] at this
      exact this
    refine ⟨⟨hq.trans hsplit, hword, hmax⟩, ?_, fun us hus => lexes_of_skip ?_⟩
    · have h₁ := skip_length_le s
      have h₂ := skip_length_le (gettoken s).span.eq
      have h₃ := length_pos_of_ne_nil hword.1
      have h₄ := congrArg length hsplit
      rw [hskip] at h₁
      rw [length_append] at h₄
      show (skip (gettoken s).span.eq).length < _
      omega
    · rw [hskip, hsplit]
      exact .word hword (fun d hd => wordChar_eq_false_iff.1 (hmax d hd)) (lexes_of_skip hus)

/-- Nothing is left. -/
theorem skip_of_nul (h : (gettoken s).ret = NUL) : skip s = [] := by
  have hscan : (scan (skip s)).1 = NUL := h
  cases hskip : skip s with
  | nil => rfl
  | cons c u =>
    rw [hskip, scan_cons] at hscan
    split at hscan
    · next hmem =>
      obtain rfl : c = NUL := hscan
      exact absurd hmem (by decide)
    · split at hscan
      · split at hscan
        · exact absurd hscan (show '+' ≠ NUL by decide)
        · exact absurd hscan (show '>' ≠ NUL by decide)
      · exact absurd hscan (show 'a' ≠ NUL by decide)

end Xv6.Sh
