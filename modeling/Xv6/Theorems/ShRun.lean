import Xv6.Theorems.Sh
import Xv6.Lemmas.ShPlace
import Mathlib.Data.List.Induction

/-!
# Redirections, and words in place

`parseredirs` wraps each redirection around the command so far, so `runcmd` comes to the last one first: they are performed from right to
left, and the first one counts. `nulterminate` stores its NULs behind words only, where none of the characters of another word is.
-/

namespace Xv6.Sh

open ShAux List

namespace RedirAux

variable {opens : List Char → Nat → Bool} {id : Nat} {c : Cmd (List Char)} {rs : List Redirection} {fds : Fds}

theorem wrap_eq (c : Cmd (List Char)) (r : Redirection) : r.wrap c = .redir c r.file r.mode r.fd := by
  cases r <;> rfl

theorem fd_le (r : Redirection) : r.fd = 0 ∨ r.fd = 1 := by
  cases r with
  | input file => exact .inl rfl
  | output file | append file => exact .inr rfl

/-- A file and a mode come from one redirection. -/
theorem redirection_inj {q r : Redirection} (hfile : q.file = r.file) (hmode : q.mode = r.mode) : q = r := by
  cases q <;> cases r
  all_goals first | exact congrArg _ hfile | cases hmode

/-- The descriptors after one redirection. -/
def connected (fds : Fds) (r : Redirection) : Fds := fds.set r.fd (some (.opened r.file r.mode))

section

variable (h : Open fds)

include h

theorem open_cons : ∃ f g k l, fds = some f :: some g :: some k :: l := by
  obtain ⟨f, hf⟩ := h 0 (by omega)
  obtain ⟨g, hg⟩ := h 1 (by omega)
  obtain ⟨k, hk⟩ := h 2 (by omega)
  obtain ⟨x, l, rfl⟩ := exists_cons_of_ne_nil (show fds ≠ [] from fun heq => by rw [heq] at hf; cases hf)
  obtain ⟨y, l, rfl⟩ := exists_cons_of_ne_nil (show l ≠ [] from fun heq => by rw [heq] at hg; cases hg)
  obtain ⟨z, l, rfl⟩ := exists_cons_of_ne_nil (show l ≠ [] from fun heq => by rw [heq] at hk; cases hk)
  cases hf
  cases hg
  cases hk
  exact ⟨f, g, k, l, rfl⟩

/-- With the lower descriptors open, `open` gets the descriptor that has been closed. -/
theorem openFile_close (r : Redirection) (hok : opens r.file r.mode = true) :
    openFile opens r.file r.mode (close r.fd fds) = some (r.fd, connected fds r) := by
  obtain ⟨f, g, k, l, rfl⟩ := open_cons h
  unfold openFile connected close
  rw [if_pos hok]
  rcases fd_le r with hfd | hfd
  · rw [hfd]
    rfl
  · rw [hfd]
    rfl

theorem open_connected (r : Redirection) : Open (connected fds r) := by
  intro fd hfd
  unfold connected
  rw [getElem?_set]
  obtain ⟨f, hf⟩ := h fd hfd
  have hlt : fd < fds.length := (List.getElem?_eq_some_iff.1 hf).1
  split
  · next heq =>
    subst heq
    rw [if_pos hlt]
    exact ⟨_, rfl⟩
  · exact ⟨f, hf⟩

theorem open_foldl (rs : List Redirection) : Open (rs.foldl connected fds) := by
  induction rs generalizing fds with
  | nil => exact h
  | cons r rs ih => exact ih (open_connected h r)

/-- The redirection that was read last is performed first. -/
theorem runcmd_redirs (hok : ∀ r ∈ rs, opens r.file r.mode = true) :
    runcmd opens id (rs.foldl Redirection.wrap c) fds =
      Redirection.perform rs.reverse (runcmd opens id c (rs.reverse.foldl connected fds)) := by
  induction rs using reverseRecOn generalizing fds with
  | nil => rfl
  | append_singleton rs r ih =>
    have hrun : runcmd opens id (r.wrap (rs.foldl Redirection.wrap c)) fds =
        .redirect r.fd r.file r.mode (some r.fd) (runcmd opens id (rs.foldl Redirection.wrap c) (connected fds r)) := by
      rw [wrap_eq, runcmd, openFile_close h r (hok r (mem_append_right rs (mem_singleton_self r)))]
    rw [foldl_append, foldl_cons, foldl_nil, hrun, ih (open_connected h r) fun q hq => hok q (mem_append_left [r] hq),
      reverse_append, reverse_singleton, singleton_append]
    rfl

/-- Of the redirections that have been performed, the last for a descriptor counts. -/
theorem getElem?_foldl_connected {fd : Nat} (hfd : fd ≤ 2) (rs : List Redirection) :
    (rs.foldl connected fds)[fd]? = Redirection.connect rs fds fd := by
  induction rs using reverseRecOn with
  | nil => rfl
  | append_singleton rs r ih =>
    obtain ⟨f, hf⟩ := open_foldl h rs fd hfd
    have hlt := (List.getElem?_eq_some_iff.1 hf).1
    rw [foldl_append, foldl_cons, foldl_nil, connected, Redirection.connect, getElem?_set, filter_append]
    by_cases heq : r.fd = fd
    · have hlast : [r].filter (fun r => decide (r.fd = fd)) = [r] := by simp [heq]
      rw [if_pos heq, if_pos (heq ▸ hlt), hlast, getLast?_concat]
    · have hlast : [r].filter (fun r => decide (r.fd = fd)) = [] := by simp [heq]
      rw [if_neg heq, hlast, append_nil]
      exact ih

end

/-- The redirections can be read off from what is performed. -/
theorem perform_inj {qs : List Redirection} {k k' : Calls} (hlen : qs.length = rs.length)
    (h : Redirection.perform qs k = Redirection.perform rs k') : qs = rs := by
  induction qs generalizing rs with
  | nil => exact (eq_nil_of_length_eq_zero hlen.symm).symm
  | cons q qs ih =>
    cases rs with
    | nil => cases hlen
    | cons r rs =>
      obtain ⟨-, hfile, hmode, -, hrest⟩ := Calls.redirect.inj h
      rw [redirection_inj hfile hmode, ih (Nat.succ.inj hlen) hrest]

/-- Redirections that are performed from right to left are in order if they read the same backwards. -/
theorem inOrder_iff (h : Open fds) (hok : ∀ r ∈ rs, opens r.file r.mode = true) :
    InOrder opens id (rs.foldl Redirection.wrap c) c rs fds ↔ rs.reverse = rs := by
  unfold InOrder
  rw [runcmd_redirs h hok]
  constructor
  · rintro ⟨fds', hrun, -⟩
    exact perform_inj length_reverse hrun
  · intro hrev
    rw [hrev]
    exact ⟨_, rfl, getElem?_foldl_connected h (by omega) rs, getElem?_foldl_connected h (by omega) rs⟩

/-- A command derives its redirections around what they are for. -/
theorem derives_of_command {ts : List Token} (h : Command ts c rs) : Derives .exec ts (rs.foldl Redirection.wrap c) := by
  cases h with
  | block _ hline => exact .block _ hline
  | simple rs hargs hmax => exact .simple rs hargs hmax

end RedirAux

open RedirAux

/-- A simple command or a block with redirections, wherever it stands in a line, is read as a tree that `runcmd`, with the descriptors 0, 1
and 2 open and every `open` succeeding, runs as follows:
* it performs the redirections from right to left and starts the command with its input and its output connected by the first of them;
* so it performs them from left to right, with the last one counting, exactly if they read the same backwards. -/
theorem redirections_inOrder_iff {ts us : List Token} {base : Cmd (List Char)} {rs : List Redirection} {s : Ptr} {n : Nat}
    (hcommand : Command ts base rs) (hlexes : Lexes s (ts ++ us)) (hus : Stops us) (hn : 4 * s.length + 2 ≤ n) :
    ∃ r, parseexec n s = .ok r ∧ Lexes r.2 us ∧ r.1.map Span.text = rs.foldl Redirection.wrap base ∧
      ∀ opens id fds, Open fds → (∀ q ∈ rs, opens q.file q.mode = true) →
        (∃ fds', runcmd opens id (r.1.map Span.text) fds = Redirection.perform rs.reverse (runcmd opens id base fds') ∧
          fds'[0]? = Redirection.connect rs.reverse fds 0 ∧ fds'[1]? = Redirection.connect rs.reverse fds 1) ∧
        (InOrder opens id (r.1.map Span.text) base rs fds ↔ rs.reverse = rs) := by
  obtain ⟨r, hr, htree, hrest, -⟩ := parse_complete (derives_of_command hcommand) s us n hlexes hus hn
  refine ⟨r, hr, hrest, htree, fun opens id fds hfds hok => ⟨?_, ?_⟩⟩
  · rw [htree, runcmd_redirs hfds hok]
    exact ⟨_, rfl, getElem?_foldl_connected hfds (by omega) _, getElem?_foldl_connected hfds (by omega) _⟩
  · rw [htree]
    exact inOrder_iff hfds hok

/-- Descriptors as a command inherits them. -/
def terminal : Fds := [some (.inherited 0), some (.inherited 1), some (.inherited 2), none]

theorem terminal_open : Open terminal := by
  intro fd hfd
  rcases fd with _ | _ | _ | fd
  · exact ⟨_, rfl⟩
  · exact ⟨_, rfl⟩
  · exact ⟨_, rfl⟩
  · omega

/-- Redirections, each after a space. -/
theorem lexes_redirections {rs : List Redirection} (h : ∀ r ∈ rs, isWord r.file) :
    Lexes (rs.flatMap fun r => ' ' :: r.tokens.flatMap Token.text) (rs.flatMap Redirection.tokens) := by
  induction rs with
  | nil => exact .nil
  | cons r rs ih =>
    have hstop : ∀ c ∈ (rs.flatMap fun r => ' ' :: r.tokens.flatMap Token.text).head?, c ∈ whitespace ∨ c ∈ symbols := by
      cases rs <;> simp [whitespace]
    have hfile := Lexes.word (h r List.mem_cons_self) hstop (ih fun q hq => h q (List.mem_cons_of_mem r hq))
    have hspaced (t : Token) (ht : ∀ w, t ≠ .word w) := Lexes.space (c := ' ') (by decide) (.symbol ht hfile)
    cases r with
    | input file => simpa [Redirection.tokens, Token.text, Redirection.file] using hspaced .lt (fun _ h => by cases h)
    | output file => simpa [Redirection.tokens, Token.text, Redirection.file] using hspaced .gt (fun _ h => by cases h)
    | append file => simpa [Redirection.tokens, Token.text, Redirection.file] using hspaced .gtgt (fun _ h => by cases h)

/-- `wc <a >x <a`. -/
theorem redirections_inOrder_iff_palindrome : ∃ r, parseexec 46 "wc <a >x <a".toList = .ok r ∧
    InOrder (fun _ _ => true) 1 (r.1.map Span.text) (.exec [['w', 'c']]) [.input ['a'], .output ['x'], .input ['a']] terminal := by
  have hcommand : Command _ (.exec [['w', 'c']]) [.input ['a'], .output ['x'], .input ['a']] :=
    .simple [] (@Args.cons ['w', 'c'] [.input ['a'], .output ['x'], .input ['a']] [] [] [] .nil) (by decide)
  have hredirs := @lexes_redirections [.input ['a'], .output ['x'], .input ['a']]
    (by simp [Redirection.file, isWord, whitespace, symbols])
  have hlexes := Lexes.word (w := ['w', 'c']) (by simp [isWord, whitespace, symbols]) (by simp [whitespace]) hredirs
  obtain ⟨r, hr, -, -, hruns⟩ := redirections_inOrder_iff hcommand hlexes (fun t ht => by cases ht) (Nat.le_refl _)
  exact ⟨r, hr, (hruns _ 1 terminal terminal_open fun _ _ => rfl).2.2 rfl⟩

/-- `wc >x >y`: the output goes to `x`. -/
theorem redirections_first_wins : ∃ c, parsecmd "wc >x >y".toList = .ok c ∧
    c = [Redirection.output ['x'], .output ['y']].foldl Redirection.wrap (.exec [['w', 'c']]) ∧
    runcmd (fun _ _ => true) 1 c terminal = Redirection.perform [.output ['y'], .output ['x']]
      (.exec [['w', 'c']] [some (.inherited 0), some (.opened ['x'] 0x601), some (.inherited 2), none]) ∧
    ¬InOrder (fun _ _ => true) 1 c (.exec [['w', 'c']]) [.output ['x'], .output ['y']] terminal := by
  refine ⟨_, by rfl, rfl, rfl, fun h => ?_⟩
  exact absurd ((inOrder_iff terminal_open fun _ _ => rfl).1 h) (by decide)

open PlaceAux in
/-- For every line that the parser accepts there is a tree of pointers, all of them into the line. After `nulterminate` has stored its NULs,
* the C string at each argument of an EXEC node and at each file of a REDIR node is what was between its pointers before;
* `argv` of an EXEC node has an entry for each argument and a last one that is 0, and at most `MAXARGS` of them;
* the strings are those of the tree that `parsecmd` returns. -/
theorem words_terminated {buf : List Char} {c : Cmd (List Char)} (h : parsecmd buf = .ok c) :
    ∃ tree rest, parseline (4 * (line buf).length + 4) (line buf) = .ok (tree, rest) ∧ skip rest = [] ∧
      (∀ w, (∃ argv ∈ tree.argvs, w ∈ argv) ∨ w ∈ tree.files → w.q <:+ line buf ∧ w.eq <:+ w.q ∧
        stringAt (terminate (line buf).length tree buf) (place (line buf).length w.q) = between (line buf).length buf w) ∧
      (∀ argv ∈ tree.argvs, argv.length + 1 ≤ MAXARGS) ∧
      c = tree.map fun w => stringAt (terminate (line buf).length tree buf) (place (line buf).length w.q) := by
  obtain ⟨⟨tree, rest⟩, hparse, -⟩ := exists_of_bind h
  obtain ⟨hproper, ts, hderives, -⟩ := (parse_sound _).1 _ _ hparse
  have hwithin := (Within.parse (line buf) _).1 _ _ List.suffix_rfl hparse
  rw [parsecmd_eq hparse] at h
  split at h
  · cases h
  · next hskip =>
    refine ⟨tree, rest, hparse, not_not.1 hskip, fun w hw => ?_, fun argv hargv => ?_, ?_⟩
    · have hword := mem_words.2 hw
      have hq := hwithin.2 w hword
      have hwp := hproper w hword
      refine ⟨hq, hwp.1 ▸ List.suffix_append .., ?_⟩
      rw [stringAt_terminate hwithin hproper hword, between_eq hq hwp]
    · have hlen := length_le_of_derives hderives (argv.map Span.text) (by rw [argvs_map]; exact List.mem_map_of_mem hargv)
      rw [List.length_map] at hlen
      unfold MAXARGS at *
      omega
    · cases h
      exact map_congr fun w hw => (stringAt_terminate hwithin hproper hw).symm

/-- `(a>b)|c<d`: words and symbols without any space. -/
theorem words_terminated_adjoining : parsecmd "(a>b)|c<d".toList =
    .ok (.pipe (.redir (.exec [['a']]) ['b'] 0x601 1) (.redir (.exec [['c']]) ['d'] 0 0)) ∧
    ∃ tree rest, parseline 40 "(a>b)|c<d".toList = .ok (tree, rest) ∧
      tree.map (fun w => stringAt (terminate 9 tree "(a>b)|c<d".toList) (place 9 w.q)) =
        .pipe (.redir (.exec [['a']]) ['b'] 0x601 1) (.redir (.exec [['c']]) ['d'] 0 0) := by
  have hparse : parsecmd "(a>b)|c<d".toList = .ok (.pipe (.redir (.exec [['a']]) ['b'] 0x601 1) (.redir (.exec [['c']]) ['d'] 0 0)) := by
    decide +kernel
  obtain ⟨tree, rest, hline, -, -, -, htree⟩ := words_terminated hparse
  exact ⟨hparse, tree, rest, hline, htree.symm⟩

end Xv6.Sh
