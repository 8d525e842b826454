import Mathlib.Data.List.Basic
import Mathlib.Logic.Function.Iterate

/-!
# The parser of the shell

The parsing functions of `sh.c`. A pointer into the line is the text from there to its end `es`, so two pointers are equal if they point
to the same place. Loops that read a character in every turn are given as many turns as there are characters; the functions that call
each other are given fuel, and `Stop.fuel` is what it would mean to run out of it. Memory for the tree is there. At the end stands the
grammar that the parser is for, and a printer.
-/

namespace Xv6.Sh

def MAXARGS : Nat := 10

def O_RDONLY : Nat := 0x000

def O_WRONLY : Nat := 0x001

def O_CREATE : Nat := 0x200

def O_TRUNC : Nat := 0x400

def NUL : Char := '\x00'

def whitespace : List Char := [' ', '\t', '\r', '\n', '\x0b']

def symbols : List Char := ['<', '|', '>', '&', ';', '(', ')']

/-- A pointer into the line. -/
abbrev Ptr := List Char

/-- The text between two pointers, as `argv[i]` and `eargv[i]` or `file` and `efile` give it. -/
structure Span where
  q : Ptr
  eq : Ptr
deriving DecidableEq, Repr

/-- `struct cmd`, with words of any kind. -/
inductive Cmd (W : Type) where
  | exec (argv : List W)
  | redir (cmd : Cmd W) (file : W) (mode fd : Nat)
  | pipe (left right : Cmd W)
  | list (left right : Cmd W)
  | back (cmd : Cmd W)
deriving DecidableEq, Repr

/-- The calls of `panic` in the parser; before the last one what is left is printed. -/
inductive Stop where
  | missingFile
  | parseblock
  | missingParen
  | syntaxError
  | tooManyArgs
  | leftovers (s : Ptr)
  | fuel
deriving DecidableEq, Repr

/-- What `panic` prints. -/
def Stop.text : Stop → Option String
  | .missingFile => some "missing file for redirection"
  | .parseblock => some "parseblock"
  | .missingParen => some "syntax - missing )"
  | .syntaxError | .leftovers _ => some "syntax"
  | .tooManyArgs => some "too many args"
  | .fuel => none

namespace Cmd

variable {W V : Type}

def map (f : W → V) : Cmd W → Cmd V
  | .exec argv => .exec (argv.map f)
  | .redir c file mode fd => .redir (c.map f) (f file) mode fd
  | .pipe l r => .pipe (l.map f) (r.map f)
  | .list l r => .list (l.map f) (r.map f)
  | .back c => .back (c.map f)

/-- `cmd->argv[argc] = q; cmd->eargv[argc] = eq`, where `cmd` is the command inside the redirections. -/
def addArg (w : W) : Cmd W → Cmd W
  | .exec argv => .exec (argv ++ [w])
  | .redir c file mode fd => .redir (c.addArg w) file mode fd
  | c => c

end Cmd

/-! ## Tokens -/

/-- `while(s < es && strchr(whitespace, *s)) s++`. -/
def skip (s : Ptr) : Ptr := s.dropWhile fun c => decide (c ∈ whitespace)

/-- `!strchr(whitespace, *s) && !strchr(symbols, *s)`. -/
def wordChar (c : Char) : Bool := decide (c ∉ whitespace) && decide (c ∉ symbols)

/-- What `gettoken` returns and stores through its arguments. -/
structure Got where
  ret : Char
  span : Span
  rest : Ptr

/-- The `switch` of `gettoken`: the token, and where it ends. -/
def scan : Ptr → Char × Ptr
  | [] => (NUL, [])
  | c :: s =>
    if c ∈ ['|', '(', ')', ';', '&', '<'] then (c, s)
    else if c = '>' then if s.head? = some '>' then ('+', s.tail) else ('>', s)
    else ('a', (c :: s).dropWhile wordChar)

def gettoken (s : Ptr) : Got := ⟨(scan (skip s)).1, ⟨skip s, (scan (skip s)).2⟩, skip (scan (skip s)).2⟩

/-- `peek`: whether the next character is one of those; the pointer is moved to it by `skip`. -/
def peek (s : Ptr) (toks : List Char) : Bool :=
  match skip s with
  | [] => false
  | c :: _ => decide (c ∈ toks)

/-! ## Parsing -/

/-- The `switch` of `parseredirs`. -/
def redirect (tok : Char) (w : Span) (cmd : Cmd Span) : Cmd Span :=
  if tok = '<' then .redir cmd w O_RDONLY 0
  else if tok = '>' then .redir cmd w (O_WRONLY ||| O_CREATE ||| O_TRUNC) 1
  else if tok = '+' then .redir cmd w (O_WRONLY ||| O_CREATE) 1
  else cmd

/-- The loop of `parseredirs`. -/
def redirLoop : Nat → Cmd Span → Ptr → Except Stop (Cmd Span × Ptr)
  | 0, cmd, s => .ok (cmd, s)
  | n + 1, cmd, s =>
    if peek s ['<', '>'] then
      let tok := gettoken (skip s)
      let file := gettoken tok.rest
      if file.ret ≠ 'a' then .error .missingFile else redirLoop n (redirect tok.ret file.span cmd) file.rest
    else .ok (cmd, skip s)

def parseredirs (cmd : Cmd Span) (s : Ptr) : Except Stop (Cmd Span × Ptr) := redirLoop s.length cmd s

/-- The second loop of `parseexec`. -/
def argLoop : Nat → Nat → Cmd Span → Ptr → Except Stop (Cmd Span × Ptr)
  | 0, _, ret, s => .ok (ret, s)
  | n + 1, argc, ret, s =>
    if peek s ['|', ')', '&', ';'] then .ok (ret, skip s)
    else
      let tok := gettoken (skip s)
      if tok.ret = NUL then .ok (ret, tok.rest)
      else if tok.ret ≠ 'a' then .error .syntaxError
      else if argc + 1 ≥ MAXARGS then .error .tooManyArgs
      else do
        let r ← parseredirs (ret.addArg tok.span) tok.rest
        argLoop n (argc + 1) r.1 r.2

/-- The part of `parseexec` for a command that is not a block. -/
def parsesimple (s : Ptr) : Except Stop (Cmd Span × Ptr) := do
  let r ← parseredirs (.exec []) s
  argLoop r.2.length 0 r.1 r.2

/-- The loop of `parseline`. -/
def backLoop : Nat → Cmd Span → Ptr → Cmd Span × Ptr
  | 0, cmd, s => (cmd, s)
  | n + 1, cmd, s => if peek s ['&'] then backLoop n (.back cmd) (gettoken (skip s)).rest else (cmd, skip s)

mutual

def parseline : Nat → Ptr → Except Stop (Cmd Span × Ptr)
  | 0, _ => .error .fuel
  | n + 1, s => do
    let a ← parsepipe n s
    let b := backLoop a.2.length a.1 a.2
    if peek b.2 [';'] then do
      let r ← parseline n (gettoken (skip b.2)).rest
      .ok (.list b.1 r.1, r.2)
    else .ok (b.1, skip b.2)

def parsepipe : Nat → Ptr → Except Stop (Cmd Span × Ptr)
  | 0, _ => .error .fuel
  | n + 1, s => do
    let a ← parseexec n s
    if peek a.2 ['|'] then do
      let r ← parsepipe n (gettoken (skip a.2)).rest
      .ok (.pipe a.1 r.1, r.2)
    else .ok (a.1, skip a.2)

def parseexec : Nat → Ptr → Except Stop (Cmd Span × Ptr)
  | 0, _ => .error .fuel
  | n + 1, s => if peek s ['('] then parseblock n (skip s) else parsesimple (skip s)

def parseblock : Nat → Ptr → Except Stop (Cmd Span × Ptr)
  | 0, _ => .error .fuel
  | n + 1, s =>
    if peek s ['('] then do
      let a ← parseline n (gettoken (skip s)).rest
      if peek a.2 [')'] then parseredirs a.1 (gettoken (skip a.2)).rest else .error .missingParen
    else .error .parseblock

end

/-- `nulterminate`: where it stores a NUL. -/
def nulterminate : Cmd Span → List Ptr
  | .exec argv => argv.map Span.eq
  | .redir c file _ _ => nulterminate c ++ [file.eq]
  | .pipe l r | .list l r => nulterminate l ++ nulterminate r
  | .back c => nulterminate c

/-- The string that a pointer points to after NULs have been stored. -/
def cstr (nuls : List Ptr) : Ptr → List Char
  | [] => []
  | c :: s => if c :: s ∈ nuls then [] else c :: cstr nuls s

/-- The text of the line, up to its NUL. -/
def line (buf : List Char) : Ptr := buf.takeWhile fun c => decide (c ≠ NUL)

/-- `parsecmd`: the tree, with the strings its pointers point to. -/
def parsecmd (buf : List Char) : Except Stop (Cmd (List Char)) := do
  let s := line buf
  let r ← parseline (4 * s.length + 4) s
  if skip r.2 ≠ [] then .error (.leftovers (skip r.2))
  else .ok (r.1.map fun w => cstr (nulterminate r.1) w.q)

/-! ## The grammar -/

inductive Token where
  | bar
  | lparen
  | rparen
  | semi
  | amp
  | lt
  | gt
  | gtgt
  | word (w : List Char)
deriving DecidableEq, Repr

/-- A word: characters that are neither whitespace nor symbols, and at least one. -/
def isWord (w : List Char) : Prop := w ≠ [] ∧ ∀ c ∈ w, c ∉ whitespace ∧ c ∉ symbols

/-- A token as text. -/
def Token.text : Token → List Char
  | .bar => ['|']
  | .lparen => ['(']
  | .rparen => [')']
  | .semi => [';']
  | .amp => ['&']
  | .lt => ['<']
  | .gt => ['>']
  | .gtgt => ['>', '>']
  | .word w => w

/-- The text consists of the tokens, with whitespace before, between and after them. A word goes on as long as it can. -/
inductive Lexes : List Char → List Token → Prop where
  | nil : Lexes [] []
  | space {c : Char} {s : List Char} {ts : List Token} : c ∈ whitespace → Lexes s ts → Lexes (c :: s) ts
  | symbol {t : Token} {s : List Char} {ts : List Token} : (∀ w, t ≠ .word w) → Lexes s ts → Lexes (t.text ++ s) (t :: ts)
  | word {w s : List Char} {ts : List Token} :
      isWord w → (∀ c ∈ s.head?, c ∈ whitespace ∨ c ∈ symbols) → Lexes s ts → Lexes (w ++ s) (.word w :: ts)

/-- A redirection: the token, the mode and the descriptor, and the file. -/
inductive Redirection where
  | input (file : List Char)
  | output (file : List Char)
  | append (file : List Char)
deriving DecidableEq, Repr

namespace Redirection

/-- `redir ::= ('<' | '>' | '>>') word`. -/
def tokens : Redirection → List Token
  | .input file => [.lt, .word file]
  | .output file => [.gt, .word file]
  | .append file => [.gtgt, .word file]

/-- The node for a redirection. -/
def wrap (c : Cmd (List Char)) : Redirection → Cmd (List Char)
  | .input file => .redir c file O_RDONLY 0
  | .output file => .redir c file (O_WRONLY ||| O_CREATE ||| O_TRUNC) 1
  | .append file => .redir c file (O_WRONLY ||| O_CREATE) 1

end Redirection

/-- `(word redir*)*`: the tokens, the words and the redirections. -/
inductive Args : List Token → List (List Char) → List Redirection → Prop where
  | nil : Args [] [] []
  | cons {w : List Char} {rs rs' : List Redirection} {ts : List Token} {ws : List (List Char)} :
      Args ts ws rs' → Args (.word w :: (rs.flatMap Redirection.tokens ++ ts)) (w :: ws) (rs ++ rs')

inductive Nonterminal where
  | line
  | pipe
  | exec
deriving DecidableEq, Repr

/-- The grammar, with the tree of each derivation. -/
inductive Derives : Nonterminal → List Token → Cmd (List Char) → Prop where
  | block {ts : List Token} {c : Cmd (List Char)} (rs : List Redirection) :
      Derives .line ts c → Derives .exec (.lparen :: (ts ++ .rparen :: rs.flatMap Redirection.tokens)) (rs.foldl Redirection.wrap c)
  | simple {ts : List Token} {ws : List (List Char)} {rs' : List Redirection} (rs : List Redirection) :
      Args ts ws rs' → ws.length ≤ MAXARGS - 1 →
        Derives .exec (rs.flatMap Redirection.tokens ++ ts) ((rs ++ rs').foldl Redirection.wrap (.exec ws))
  | one {ts : List Token} {c : Cmd (List Char)} : Derives .exec ts c → Derives .pipe ts c
  | pipe {ts us : List Token} {c d : Cmd (List Char)} :
      Derives .exec ts c → Derives .pipe us d → Derives .pipe (ts ++ .bar :: us) (.pipe c d)
  | last {ts : List Token} {c : Cmd (List Char)} (n : Nat) :
      Derives .pipe ts c → Derives .line (ts ++ List.replicate n .amp) (Cmd.back^[n] c)
  | list {ts us : List Token} {c d : Cmd (List Char)} (n : Nat) :
      Derives .pipe ts c → Derives .line us d → Derives .line (ts ++ (List.replicate n .amp ++ .semi :: us)) (.list (Cmd.back^[n] c) d)

/-! ## The printer -/

/-- Where a command stands: as a line, before `;`, in a pipe, or as one command. -/
inductive Level where
  | line
  | back
  | pipe
  | exec
deriving DecidableEq, Repr

def paren (ts : List Token) : List Token := .lparen :: (ts ++ [.rparen])

/-- The token for a mode and a descriptor. -/
def redirToken (mode fd : Nat) : Token :=
  if mode = O_RDONLY ∧ fd = 0 then .lt else if mode = O_WRONLY ||| O_CREATE ||| O_TRUNC ∧ fd = 1 then .gt else .gtgt

/-- The tokens of a tree, with parentheses where a command has to be a block. -/
def tokens : Cmd (List Char) → Level → List Token
  | .exec argv, _ => argv.map .word
  | .redir c file mode fd, _ => tokens c .exec ++ [redirToken mode fd, .word file]
  | .pipe l r, level =>
    let ts := tokens l .exec ++ .bar :: tokens r .pipe
    if level = .exec then paren ts else ts
  | .back c, level =>
    let ts := tokens c .back ++ [.amp]
    if level = .exec ∨ level = .pipe then paren ts else ts
  | .list l r, level =>
    let ts := tokens l .back ++ .semi :: tokens r .line
    if level = .line then ts else paren ts

/-- A tree as text: its tokens, each with a space after it. -/
def print (c : Cmd (List Char)) : List Char := (tokens c .line).flatMap fun t => t.text ++ [' ']

/-- A tree made of words: at most `MAXARGS - 1` in a command, and redirections as there are. -/
def Printable : Cmd (List Char) → Prop
  | .exec argv => argv.length ≤ MAXARGS - 1 ∧ ∀ w ∈ argv, isWord w ∧ NUL ∉ w
  | .redir c file mode fd =>
    Printable c ∧ (isWord file ∧ NUL ∉ file) ∧
      (mode = O_RDONLY ∧ fd = 0 ∨ mode = O_WRONLY ||| O_CREATE ||| O_TRUNC ∧ fd = 1 ∨ mode = O_WRONLY ||| O_CREATE ∧ fd = 1)
  | .pipe l r | .list l r => Printable l ∧ Printable r
  | .back c => Printable c

end Xv6.Sh
