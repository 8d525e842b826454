import Xv6.Sh

/-!
# Running a command

`runcmd` of `sh.c`, as the system calls that a process makes, with the table of its descriptors; and `nulterminate` as what it does to
the buffer that holds the line.
-/

namespace Xv6.Sh

/-! ## Descriptors -/

/-- What a descriptor is connected to: what it was when the command was started, a file by its name and the mode it was opened with, or
an end of a pipe. -/
inductive File where
  | inherited (n : Nat)
  | opened (file : List Char) (mode : Nat)
  | pipe (id : Nat) (write : Bool)
deriving DecidableEq, Repr

/-- `ofile` of a process. -/
abbrev Fds := List (Option File)

/-- `fdalloc`: the lowest descriptor that is free. -/
def fdalloc (f : File) (fds : Fds) : Option (Nat × Fds) :=
  (fds.findIdx? Option.isNone).map fun fd => (fd, fds.set fd (some f))

def close (fd : Nat) (fds : Fds) : Fds := fds.set fd none

/-- `open`; `opens` says whether there is a file of that name for that mode. -/
def openFile (opens : List Char → Nat → Bool) (file : List Char) (mode : Nat) (fds : Fds) : Option (Nat × Fds) :=
  if opens file mode then fdalloc (.opened file mode) fds else none

def dup (fd : Nat) (fds : Fds) : Fds :=
  match fds[fd]? with
  | some (some f) => ((fdalloc f fds).map Prod.snd).getD fds
  | _ => fds

/-- `pipe`: the two descriptors. -/
def pipe (id : Nat) (fds : Fds) : Option (Nat × Nat × Fds) := do
  let r ← fdalloc (.pipe id false) fds
  let w ← fdalloc (.pipe id true) r.2
  return (r.1, w.1, w.2)

/-! ## `runcmd` -/

/-- What a process does: it ends, or runs a program (and ends if there is none), or opens a file in the place of the descriptor `fd`, or
goes on as two processes, or waits for one. -/
inductive Calls where
  | exit (status : Nat)
  | exec (argv : List (List Char)) (fds : Fds)
  | redirect (fd : Nat) (file : List Char) (mode : Nat) (got : Option Nat) (next : Calls)
  | fork (child parent : Calls)
  | wait (next : Calls)
deriving DecidableEq, Repr

/-- `runcmd`, where `fork` succeeds; `id` names the pipes it makes. -/
def runcmd (opens : List Char → Nat → Bool) (id : Nat) : Cmd (List Char) → Fds → Calls
  | .exec argv, fds => if argv = [] then .exit 1 else .exec argv fds
  | .redir cmd file mode fd, fds =>
    match openFile opens file mode (close fd fds) with
    | none => .redirect fd file mode none (.exit 1)
    | some got => .redirect fd file mode (some got.1) (runcmd opens id cmd got.2)
  | .list left right, fds => .fork (runcmd opens (2 * id) left fds) (.wait (runcmd opens (2 * id + 1) right fds))
  | .pipe left right, fds =>
    match pipe id fds with
    | none => .exit 1
    | some (p₀, p₁, fds) =>
      .fork (runcmd opens (2 * id) left (close p₁ (close p₀ (dup p₁ (close 1 fds)))))
        (.fork (runcmd opens (2 * id + 1) right (close p₁ (close p₀ (dup p₀ (close 0 fds))))) (.wait (.wait (.exit 0))))
  | .back cmd, fds => .fork (runcmd opens (2 * id) cmd fds) (.exit 0)

/-! ## What the redirections of a command are for -/

namespace Redirection

def file : Redirection → List Char
  | .input file | .output file | .append file => file

def mode : Redirection → Nat
  | .input _ => O_RDONLY
  | .output _ => O_WRONLY ||| O_CREATE ||| O_TRUNC
  | .append _ => O_WRONLY ||| O_CREATE

/-- The descriptor that is connected to the file. -/
def fd : Redirection → Nat
  | .input _ => 0
  | .output _ | .append _ => 1

/-- The redirections are performed one after the other, and then the process goes on. -/
def perform (rs : List Redirection) (next : Calls) : Calls :=
  rs.foldr (fun r next => .redirect r.fd r.file r.mode (some r.fd) next) next

/-- What a descriptor is connected to if the last redirection counts. -/
def connect (rs : List Redirection) (fds : Fds) (fd : Nat) : Option (Option File) :=
  match (rs.filter fun r => decide (r.fd = fd)).getLast? with
  | some r => some (some (.opened r.file r.mode))
  | none => fds[fd]?

end Redirection

/-- The tokens are those of a simple command or a block, and of redirections in this order. -/
inductive Command : List Token → Cmd (List Char) → List Redirection → Prop where
  | block {ts : List Token} {c : Cmd (List Char)} (rs : List Redirection) :
      Derives .line ts c → Command (.lparen :: (ts ++ .rparen :: rs.flatMap Redirection.tokens)) c rs
  | simple {ts : List Token} {ws : List (List Char)} {rs' : List Redirection} (rs : List Redirection) :
      Args ts ws rs' → ws.length ≤ MAXARGS - 1 → Command (rs.flatMap Redirection.tokens ++ ts) (.exec ws) (rs ++ rs')

/-- The descriptors 0, 1 and 2 are open. -/
def Open (fds : Fds) : Prop := ∀ fd ≤ 2, ∃ f, fds[fd]? = some (some f)

/-- `cmd` runs as it should: the redirections are performed from left to right, and then the command `base` starts with its input and its
output connected by the last of them. -/
def InOrder (opens : List Char → Nat → Bool) (id : Nat) (cmd base : Cmd (List Char)) (rs : List Redirection) (fds : Fds) : Prop :=
  ∃ fds', runcmd opens id cmd fds = Redirection.perform rs (runcmd opens id base fds') ∧
    fds'[0]? = Redirection.connect rs fds 0 ∧ fds'[1]? = Redirection.connect rs fds 1

/-! ## Terminating the words -/

/-- The place of a pointer in the buffer, for a line of `n` characters. -/
def place (n : Nat) (p : Ptr) : Nat := n - p.length

/-- `nulterminate`, as what it does to the buffer. -/
def terminate (n : Nat) : Cmd Span → List Char → List Char
  | .exec argv, buf => argv.foldl (fun buf w => buf.set (place n w.eq) NUL) buf
  | .redir cmd file _ _, buf => (terminate n cmd buf).set (place n file.eq) NUL
  | .pipe left right, buf | .list left right, buf => terminate n right (terminate n left buf)
  | .back cmd, buf => terminate n cmd buf

/-- The C string at a place of the buffer. -/
def stringAt (buf : List Char) (i : Nat) : List Char := line (buf.drop i)

/-- The characters between two pointers. -/
def between (n : Nat) (buf : List Char) (w : Span) : List Char := (buf.drop (place n w.q)).take (place n w.eq - place n w.q)

namespace Cmd

variable {W : Type}

/-- `argv` of the EXEC nodes. -/
def argvs : Cmd W → List (List W)
  | .exec argv => [argv]
  | .redir c _ _ _ => c.argvs
  | .pipe l r | .list l r => l.argvs ++ r.argvs
  | .back c => c.argvs

/-- `file` of the REDIR nodes. -/
def files : Cmd W → List W
  | .exec _ => []
  | .redir c file _ _ => c.files ++ [file]
  | .pipe l r | .list l r => l.files ++ r.files
  | .back c => c.files

end Cmd

end Xv6.Sh
