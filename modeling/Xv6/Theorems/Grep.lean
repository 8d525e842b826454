import Xv6.Grep
import Mathlib.Data.List.TakeWhile

/-!
# The matcher and the lines that `grep` prints

The matcher finds what the languages of patterns say. Over the lines of a stream `grep` prints those that match up to the first line
that does not fit in its buffer, and then stops.
-/

namespace Xv6.Grep

open List

/-- A pattern without a leading `^` matches at the beginning of the text. -/
def Begins (re text : List Char) : Prop := ∃ w b, text = w ++ b ∧ w ∈ lang re ∧ ((items re).2 = true → b = [])

namespace MatchAux

variable {c : Char} {re text : List Char} {here : List Char → Bool}

theorem matchstar_iff : matchstar here c text = true ↔ ∃ u v, text = u ++ v ∧ u ∈ (Item.star c).lang ∧ here v = true := by
  induction text with
  | nil =>
    refine ⟨fun h => ⟨[], [], rfl, fun t ht => absurd ht not_mem_nil, h⟩, ?_⟩
    rintro ⟨u, v, heq, -, hv⟩
    rw [(append_eq_nil_iff.1 heq.symm).2] at hv
    exact hv
  | cons t text ih =>
    have hfits : (t == c || c == '.') = true ↔ Fits c t := by
      rw [Bool.or_eq_true, beq_iff_eq, beq_iff_eq, Fits, or_comm, eq_comm (a := t)]
    rw [matchstar, Bool.or_eq_true, Bool.and_eq_true, hfits, ih]
    constructor
    · rintro (h | ⟨ht, u, v, rfl, hu, hv⟩)
      · exact ⟨[], t :: text, rfl, fun t ht => absurd ht not_mem_nil, h⟩
      · exact ⟨t :: u, v, rfl, forall_mem_cons.2 ⟨ht, hu⟩, hv⟩
    · rintro ⟨u, v, heq, hu, hv⟩
      cases u with
      | nil => exact .inl (heq ▸ hv)
      | cons t' u =>
        obtain ⟨rfl, rfl⟩ := cons.inj heq
        obtain ⟨ht, hu⟩ := forall_mem_cons.1 hu
        exact .inr ⟨ht, u, v, rfl, hu, hv⟩

/-- The loop of `match` goes on over any character, as `.*` does. -/
theorem search_eq : search here text = matchstar here '.' text := by
  induction text with
  | nil => rfl
  | cons t text ih => rw [search, matchstar, ih, beq_self_eq_true, Bool.or_true, Bool.true_and]

theorem begins_cons {re' : List Char} {it : Item} (h : items re' = (it :: (items re).1, (items re).2)) :
    Begins re' text ↔ ∃ u v, text = u ++ v ∧ u ∈ it.lang ∧ Begins re v := by
  have hlang : lang re' = it.lang * lang re := by rw [lang, h, map_cons, prod_cons, lang]
  rw [Begins, hlang, h]
  constructor
  · rintro ⟨w, b, rfl, hw, hb⟩
    obtain ⟨u, hu, v, hv, rfl⟩ := Language.mem_mul.1 hw
    exact ⟨u, v ++ b, append_assoc .., hu, v, b, rfl, hv, hb⟩
  · rintro ⟨u, v, rfl, hu, w, b, rfl, hw, hb⟩
    exact ⟨u ++ w, b, (append_assoc ..).symm, Language.mem_mul.2 ⟨u, hu, w, hw, rfl⟩, hb⟩

theorem matchhere_iff : matchhere re text = true ↔ Begins re text := by
  induction re using items.induct generalizing text with
  | case1 => exact ⟨fun _ => ⟨[], text, rfl, (Language.mem_one _).2 rfl, fun h => (by cases h)⟩, fun _ => rfl⟩
  | case2 c re ih =>
    rw [matchhere, matchstar_iff, begins_cons rfl]
    simp only [ih]
  | case3 =>
    rw [matchhere, List.isEmpty_iff]
    constructor
    · rintro rfl
      exact ⟨[], [], rfl, (Language.mem_one _).2 rfl, fun _ => rfl⟩
    · rintro ⟨w, b, rfl, hw, hb⟩
      rw [(Language.mem_one _).1 hw, hb rfl]
      rfl
  | case4 c re hstar hend ih =>
    rw [begins_cons (items.eq_4 c re hstar hend)]
    cases text with
    | nil =>
      rw [matchhere.eq_4 c re hstar hend]
      refine ⟨fun h => (by cases h), ?_⟩
      rintro ⟨u, v, heq, ⟨t, rfl, -⟩, -⟩
      cases heq
    | cons t text =>
      have hfits : (c == '.' || c == t) = true ↔ Fits c t := by simp [Fits]
      rw [matchhere.eq_5 c re t text hstar hend, Bool.and_eq_true, hfits, ih]
      constructor
      · rintro ⟨ht, h⟩
        exact ⟨[t], text, rfl, ⟨t, rfl, ht⟩, h⟩
      · rintro ⟨u, v, heq, ⟨t', rfl, ht⟩, h⟩
        obtain ⟨rfl, rfl⟩ := cons.inj heq
        exact ⟨ht, h⟩

end MatchAux

open MatchAux in
/-- The matcher, for every pattern and text: it finds a substring of the text in the language of the pattern, a prefix if the pattern starts
with `^`, and a suffix if it ends in `$`. -/
theorem grepMatch_iff (re text : List Char) : grepMatch re text = true ↔
    ∃ a w b, text = a ++ (w ++ b) ∧ w ∈ lang (body re) ∧ (re.head? = some '^' → a = []) ∧ ((items (body re)).2 = true → b = []) := by
  by_cases hre : re.head? = some '^'
  · obtain ⟨re, rfl⟩ : ∃ re', re = '^' :: re' := ⟨re.tail, List.eq_cons_of_mem_head? hre⟩
    rw [grepMatch, matchhere_iff, body]
    constructor
    · rintro ⟨w, b, rfl, hw, hb⟩
      exact ⟨[], w, b, rfl, hw, fun _ => rfl, hb⟩
    · rintro ⟨a, w, b, rfl, hw, ha, hb⟩
      exact ⟨w, b, by rw [ha hre, List.nil_append], hw, hb⟩
  · have hno : ∀ re', re = '^' :: re' → False := fun re' heq => hre (heq ▸ rfl)
    rw [grepMatch.eq_2 re text hno, search_eq, matchstar_iff, body.eq_2 re hno]
    simp only [matchhere_iff]
    constructor
    · rintro ⟨a, v, rfl, -, w, b, rfl, hw, hb⟩
      exact ⟨a, w, b, rfl, hw, fun h => absurd h hre, hb⟩
    · rintro ⟨a, w, b, rfl, hw, -, hb⟩
      exact ⟨a, w ++ b, rfl, fun t _ => .inl rfl, w, b, rfl, hw, hb⟩

/-! ## Lines -/

/-- The stream of lines. -/
def stream (lines : List (List Char)) : List Char := lines.flatMap (· ++ ['\n'])

/-- The writes of the lines that match. -/
def matching (pattern : List Char) (lines : List (List Char)) : List (List Char) := (lines.filter (grepMatch pattern)).map (· ++ ['\n'])

namespace LineAux

variable {pattern buf rest line x y : List Char} {sizes : Nat → Nat} {lines : List (List Char)}

/-- Lines have no newline and no NUL in them. -/
def Plain (lines : List (List Char)) : Prop := ∀ l ∈ lines, '\n' ∉ l ∧ '\x00' ∉ l

/-- The first newline of a stream ends its first line. -/
theorem stream_cases (h : Plain lines) (hline : '\n' ∉ line) (heq : line ++ y = stream lines) :
    lines = [] ∧ line = [] ∧ y = [] ∨ ∃ l lines', lines = l :: lines' ∧ ∃ z, l = line ++ z ∧ y = z ++ '\n' :: stream lines' := by
  cases lines with
  | nil => exact .inl ⟨rfl, append_eq_nil_iff.1 heq⟩
  | cons l lines' =>
    have hcons : stream (l :: lines') = l ++ ('\n' :: stream lines') := by simp [stream]
    rw [hcons] at heq
    rcases append_eq_append_iff.1 heq with ⟨z, hl, hy⟩ | ⟨z, hl, hy⟩
    · exact .inr ⟨l, lines', rfl, z, hl, hy⟩
    · cases z with
      | nil => exact .inr ⟨l, lines', rfl, [], by rw [hl, append_nil, append_nil], by rw [hy]; rfl⟩
      | cons c z =>
        rw [cons_append] at hy
        refine absurd ?_ hline
        rw [hl, (cons.inj hy).1]
        exact mem_append_right _ mem_cons_self

/-- The loop over the buffer writes the lines that are whole and match, and keeps the part of a line that follows. -/
theorem scan_spec (h : Plain lines) (hline : '\n' ∉ line) (heq : line ++ (x ++ y) = stream lines) :
    ∃ done lines', lines = done ++ lines' ∧ (scan pattern line x).1 = matching pattern done ∧ '\n' ∉ (scan pattern line x).2 ∧
      (scan pattern line x).2 ++ y = stream lines' ∧ (scan pattern line x).2.length ≤ line.length + x.length ∧
      ∀ l ∈ done, l.length < line.length + x.length := by
  induction x generalizing line lines with
  | nil => exact ⟨[], lines, rfl, rfl, hline, heq, Nat.le_refl _, fun l hl => absurd hl not_mem_nil⟩
  | cons c x ih =>
    have hlen : line.length + (c :: x).length = (line ++ [c]).length + x.length := by simp; omega
    rcases stream_cases h hline heq with ⟨-, -, hnil⟩ | ⟨l, lines', rfl, z, hz, hy⟩
    · cases hnil
    obtain ⟨hnl, hnul⟩ := h l mem_cons_self
    by_cases hc : c = '\n'
    · have hznil : z = [] := by
        cases z with
        | nil => rfl
        | cons d z =>
          refine absurd ?_ hnl
          rw [hz, ← hc, (cons.inj hy).1]
          exact mem_append_right _ mem_cons_self
      rw [hznil, append_nil] at hz
      rw [hznil] at hy
      subst hz
      obtain ⟨done, rest, rfl, hwrites, hrest, hstream, hle, hshort⟩ := @ih [] lines' (fun l hl => h l (mem_cons_of_mem _ hl)) not_mem_nil
        (cons.inj hy).2
      rw [scan, if_neg (by rw [hc]; decide), if_pos hc]
      refine ⟨l :: done, rest, rfl, ?_, hrest, hstream, hle.trans (by simp; omega), forall_mem_cons.2 ⟨by simp, fun l' hl' => ?_⟩⟩
      · rw [matching, filter_cons, apply_ite (map _), map_cons, ← matching, ← hwrites]
      · exact (hshort l' hl').trans_le (by simp; omega)
    · have hcmem : c ∈ l := by
        cases z with
        | nil => exact absurd (cons.inj hy).1 hc
        | cons d z =>
          rw [hz, (cons.inj hy).1]
          exact mem_append_right _ mem_cons_self
      rw [scan, if_neg fun hzero : c = '\x00' => hnul (hzero ▸ hcmem), if_neg hc, hlen]
      refine ih h (fun hmem => ?_) (by rw [← heq, append_assoc]; rfl)
      rcases mem_append.1 hmem with hmem | hmem
      · exact hline hmem
      · exact hc (mem_singleton.1 hmem).symm

/-- The lines up to the first one that does not fit in the buffer with its newline. -/
theorem grepLoop_eq {fuel k : Nat} (h : Plain lines) (hbuf : '\n' ∉ buf) (hlen : buf.length < SIZE) (heq : buf ++ rest = stream lines)
    (hfuel : rest.length < fuel) :
    grepLoop pattern sizes fuel k buf rest = matching pattern (lines.takeWhile fun l => l.length + 1 < SIZE) := by
  induction fuel generalizing k buf rest lines with
  | zero => exact absurd hfuel (Nat.not_lt_zero _)
  | succ fuel ih =>
    rw [grepLoop]
    by_cases hchunk : read (SIZE - buf.length - 1) rest (sizes k) = []
    · rw [if_pos hchunk]
      rcases stream_cases h hbuf heq with ⟨rfl, -⟩ | ⟨l, lines', rfl, z, hz, hy⟩
      · rfl
      · -- there is more to come, so the buffer is full
        have hfull : SIZE ≤ l.length + 1 := by
          rw [read, take_eq_nil_iff] at hchunk
          rw [hz, length_append]
          rcases hchunk with hzero | hnil
          · omega
          · rw [hnil] at hy
            cases z <;> cases hy
        rw [takeWhile_cons, if_neg (by rw [decide_eq_true_iff]; omega)]
        rfl
    · have hsplit : read (SIZE - buf.length - 1) rest (sizes k) ++ rest.drop (read (SIZE - buf.length - 1) rest (sizes k)).length = rest := by
        rw [read, length_take, ← drop_eq_drop_min]
        exact take_append_drop _ _
      have hle : (read (SIZE - buf.length - 1) rest (sizes k)).length ≤ SIZE - buf.length - 1 := by
        rw [read, length_take]
        omega
      have hpos := length_pos_of_ne_nil hchunk
      rw [if_neg hchunk]
      generalize read (SIZE - buf.length - 1) rest (sizes k) = chunk at hsplit hle hpos
      have hrest := congrArg length hsplit
      rw [length_append] at hrest
      obtain ⟨done, lines', rfl, hwrites, hp, hstream, hplen, hshort⟩ := @scan_spec pattern [] (buf ++ chunk) (rest.drop chunk.length) lines h
        not_mem_nil (by rw [nil_append, append_assoc, hsplit]; exact heq)
      rw [length_nil, Nat.zero_add, length_append] at hplen hshort
      have hloop := ih (k := k + 1) (fun l hl => h l (mem_append_right _ hl)) hp (by omega) hstream (by omega)
      have hdone : ∀ l ∈ done, decide (l.length + 1 < SIZE) = true := fun l hl => by
        have := hshort l hl
        rw [decide_eq_true_iff]
        omega
      dsimp only
      rw [hloop, hwrites, takeWhile_append_of_pos hdone, matching, matching, matching, filter_append, map_append]

/-- `grep` prints up to the first line that does not fit. -/
theorem grep_eq (h : Plain lines) :
    grep pattern sizes (stream lines) = matching pattern (lines.takeWhile fun l => l.length + 1 < SIZE) :=
  grepLoop_eq h not_mem_nil (by decide) rfl (Nat.lt_succ_self _)

end LineAux

open LineAux

/-- For every stream of lines without NULs, every pattern and every way in which `read` cuts the stream: `grep` writes exactly the lines that
match, whole and in order, if and only if no line matches from the first one on that has 1023 characters or more. -/
theorem grep_prints_iff (pattern : List Char) (lines : List (List Char)) (h : Plain lines) (sizes : Nat → Nat) :
    grep pattern sizes (stream lines) = matching pattern lines ↔
      ∀ l ∈ lines.dropWhile fun l => l.length + 1 < SIZE, grepMatch pattern l = false := by
  have hall : matching pattern lines = matching pattern (lines.takeWhile fun l => l.length + 1 < SIZE) ++
      matching pattern (lines.dropWhile fun l => l.length + 1 < SIZE) := by
    rw [matching, matching, matching, ← List.map_append, ← List.filter_append, List.takeWhile_append_dropWhile]
  rw [grep_eq h, hall, List.self_eq_append_right, matching, List.map_eq_nil_iff, List.filter_eq_nil_iff]
  simp only [Bool.not_eq_true]

theorem grep_prints_iff_two :
    Plain [['a', 'b'], ['c']] ∧ grep ['b', '$'] (fun _ => 1) (stream [['a', 'b'], ['c']]) = matching ['b', '$'] [['a', 'b'], ['c']] := by
  have hplain : Plain [['a', 'b'], ['c']] := by
    rw [Plain]
    decide
  exact ⟨hplain, (grep_prints_iff _ _ hplain _).2 (by decide)⟩

/-- A line of 1023 characters that matches is not printed. -/
theorem grep_drops_long_line : Plain [List.replicate 1023 'a'] ∧ matching ['a'] [List.replicate 1023 'a'] ≠ [] ∧
    grep ['a'] (fun _ => 512) (stream [List.replicate 1023 'a']) = [] := by
  have hplain : Plain [List.replicate 1023 'a'] := fun l hl => by
    rw [List.mem_singleton.1 hl]
    constructor <;> exact fun hmem => absurd (List.eq_of_mem_replicate hmem) (by decide)
  refine ⟨hplain, ?_, ?_⟩
  · rw [matching, List.filter_cons_of_pos rfl]
    exact List.cons_ne_nil _ _
  · rw [grep_eq hplain, List.takeWhile_cons_of_neg (by rw [List.length_replicate]; decide)]
    rfl

end Xv6.Grep
