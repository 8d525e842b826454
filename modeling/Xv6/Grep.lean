import Mathlib.Computability.Language

/-!
# `grep`

The matcher and the loop over the input of `grep.c`. A string is its characters before the NUL, and a pointer into it is what is left of it
from there on. At the end stands the meaning of a pattern.
-/

namespace Xv6.Grep

/-- `matchstar`, with the function that matches the rest of the pattern. -/
def matchstar (matchhere : List Char → Bool) (c : Char) : List Char → Bool
  | [] => matchhere []
  | t :: text => matchhere (t :: text) || (t == c || c == '.') && matchstar matchhere c text

/-- `matchhere`. -/
def matchhere : List Char → List Char → Bool
  | [], _ => true
  | c :: '*' :: re, text => matchstar (matchhere re) c text
  | ['$'], text => text.isEmpty
  | _ :: _, [] => false
  | c :: re, t :: text => (c == '.' || c == t) && matchhere re text

/-- The loop of `match`. -/
def search (matchhere : List Char → Bool) : List Char → Bool
  | [] => matchhere []
  | t :: text => matchhere (t :: text) || search matchhere text

/-- `match`. -/
def grepMatch : List Char → List Char → Bool
  | '^' :: re, text => matchhere re text
  | re, text => search (matchhere re) text

/-- The size of `buf`. -/
def SIZE : Nat := 1024

/-- `read(fd, buf, want)`, of a stream in which `rest` is still to come: as much as `size` says, but at least one character if one is
wanted and there. -/
def read (want : Nat) (rest : List Char) (size : Nat) : List Char := rest.take (min want (max 1 size))

/-- The loop over the lines in the buffer: what is written, and what is left from `p` on. Of the text from `p` on, `strchr` has seen `line`
and has the rest before it. -/
def scan (pattern line : List Char) : List Char → List (List Char) × List Char
  | [] => ([], line)
  | c :: text =>
    if c = '\x00' then ([], line ++ c :: text)
    else if c = '\n' then
      let (writes, p) := scan pattern [] text
      (if grepMatch pattern line then (line ++ ['\n']) :: writes else writes, p)
    else scan pattern (line ++ [c]) text

/-- The loop of `grep`, with what is in the buffer and what is still to come: the calls of `write`. An iteration reads at least one
character, so as many of them as there are characters, and a last one, are enough. -/
def grepLoop (pattern : List Char) (sizes : Nat → Nat) : Nat → Nat → List Char → List Char → List (List Char)
  | 0, _, _, _ => []
  | fuel + 1, k, buf, rest =>
    let chunk := read (SIZE - buf.length - 1) rest (sizes k)
    if chunk = [] then []
    else
      let (writes, p) := scan pattern [] (buf ++ chunk)
      writes ++ grepLoop pattern sizes fuel (k + 1) p (rest.drop chunk.length)

/-- `grep` on a stream that call `k` of `read` gives `sizes k` characters of. -/
def grep (pattern : List Char) (sizes : Nat → Nat) (input : List Char) : List (List Char) :=
  grepLoop pattern sizes (input.length + 1) 0 [] input

/-! ### What a pattern means -/

/-- An item of a pattern: a character, or a character and a star. -/
inductive Item where
  | one (c : Char)
  | star (c : Char)

/-- The items of a pattern, and whether it ends in a `$` that is not starred. -/
def items : List Char → List Item × Bool
  | [] => ([], false)
  | c :: '*' :: re => (.star c :: (items re).1, (items re).2)
  | ['$'] => ([], true)
  | c :: re => (.one c :: (items re).1, (items re).2)

/-- The characters that a character of a pattern stands for. -/
def Fits (c t : Char) : Prop := c = '.' ∨ c = t

/-- The language of an item. -/
def Item.lang : Item → Language Char
  | .one c => {w | ∃ t, w = [t] ∧ Fits c t}
  | .star c => {w | ∀ t ∈ w, Fits c t}

/-- The language of a pattern that has no leading `^`. -/
def lang (re : List Char) : Language Char := ((items re).1.map Item.lang).prod

/-- A pattern without its leading `^`. -/
def body : List Char → List Char
  | '^' :: re => re
  | re => re

end Xv6.Grep
