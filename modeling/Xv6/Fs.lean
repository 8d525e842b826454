import Xv6.Param
import Mathlib.Data.List.FinRange

/-!
# The namespace of the file system

Inodes, directories, path names and the system calls that change them (`fs.c`, `sysfile.c`, `file.c`), each call run alone from its
first statement to its last. An inode on disk and its copy in the inode table agree between the statements modelled here, since every
change is followed by `iupdate`; what the table adds is the reference count `ref` and the flag `valid`. A directory is the list of its
`struct dirent`s, so an offset counts entries; what a file holds, its size and its block addresses play no part. `full dp` says that
the disk has no block left when the directory `dp` needs one to grow during the call.
-/

namespace Xv6

open Function

/-- The i-number of the root directory. -/
def ROOTINO : Nat := 1

/-- The longest name a directory entry holds. -/
def DIRSIZ : Nat := 14

/-- Block addresses in an inode, without the indirect one. -/
def NDIRECT : Nat := 12

/-- Block addresses in the indirect block. -/
def NINDIRECT : Nat := BSIZE / 4

/-- The largest file, in blocks. -/
def MAXFILE : Nat := NDIRECT + NINDIRECT

/-- `sizeof(struct dirent)`. -/
def DIRENT : Nat := 16

namespace Fs

abbrev Name := List Char

/-- `short type` of an inode; 0 marks a free one. -/
inductive IType where
  | free
  | dir
  | file
  | device
deriving DecidableEq, Repr

/-- `struct dirent`; an entry with `inum` 0 is empty. -/
structure Dirent where
  inum : Nat
  name : Name
deriving DecidableEq, Repr

/-- `struct dinode`, with the entries of a directory in place of the blocks that hold them. -/
structure Dinode where
  type : IType
  major : Int
  minor : Int
  nlink : Int
  ents : List Dirent
deriving DecidableEq, Repr

/-- The inodes on disk and `sb.ninodes`. -/
@[ext]
structure Image where
  ninodes : Nat
  inode : Nat → Dinode

/-- `type` of a `struct file`. -/
inductive FType where
  | none
  | pipe
  | inode
  | device
deriving DecidableEq, Repr

/-- `struct file`; `ip` counts for the types `inode` and `device` only. -/
structure File where
  type : FType
  ref : Nat
  ip : Nat
deriving DecidableEq, Repr

/-- The disk, the inode table, the file table, and the current directory and descriptors of each process. A process that has exited
has no current directory. -/
structure State extends Image where
  ref : Nat → Nat
  valid : Nat → Bool
  file : Fin NFILE → File
  cwd : Fin NPROC → Option Nat
  ofile : Fin NPROC → Fin NOFILE → Option (Fin NFILE)

/-- The panics of the functions below, and the fault on a null current directory. -/
inductive Panic where
  | igetNoInodes
  | ilock
  | ilockNoType
  | dirlookupNotDir
  | unlinkNlink
  | fileclose
  | nullCwd
deriving DecidableEq, Repr

abbrev FsM := StateT State (Except Panic)

/-- Write inode `i`. -/
def Image.set (img : Image) (i : Nat) (d : Dinode) : Image := { img with inode := update img.inode i d }

/-- Change fields of inode `i`, which is locked, and `iupdate` it. -/
def modifyInode (i : Nat) (f : Dinode → Dinode) : FsM Unit := fun s =>
  .ok ((), { s with toImage := s.set i (f (s.inode i)) })

/-- The fields of inode `i`, which is locked. -/
def readInode (i : Nat) : FsM Dinode := fun s => .ok (s.inode i, s)

/-- The number of table entries in use. -/
def State.active (s : State) : Nat := (List.range s.ninodes).countP fun i => 0 < s.ref i

/-- `iget`: another reference to the table entry of `inum`, which is made if there is none. -/
def iget (inum : Nat) : FsM Unit := fun s =>
  if 0 < s.ref inum then .ok ((), { s with ref := update s.ref inum (s.ref inum + 1) })
  else if NINODE ≤ s.active then .error .igetNoInodes
  else .ok ((), { s with ref := update s.ref inum 1, valid := update s.valid inum false })

/-- `idup`. -/
def idup (i : Nat) : FsM Unit := fun s => .ok ((), { s with ref := update s.ref i (s.ref i + 1) })

/-- `ilock`: the lock is free between calls; the inode is read from disk if it has not been. -/
def ilock (i : Nat) : FsM Unit := fun s =>
  if s.ref i < 1 then .error .ilock
  else if s.valid i then .ok ((), s)
  else if (s.inode i).type = .free then .error .ilockNoType
  else .ok ((), { s with valid := update s.valid i true })

/-- `iput`: the last reference to an inode without links truncates and frees it. -/
def iput (i : Nat) : FsM Unit := fun s =>
  if s.ref i = 1 ∧ s.valid i = true ∧ (s.inode i).nlink = 0 then
    .ok ((), { s with
      toImage := s.set i { s.inode i with type := .free, ents := [] }
      ref := update s.ref i 0
      valid := update s.valid i false })
  else .ok ((), { s with ref := update s.ref i (s.ref i - 1) })

/-- `iunlockput`. -/
def iunlockput (i : Nat) : FsM Unit := iput i

/-- `ialloc`: the first inode marked free, from 1 on. -/
def ialloc (type : IType) : FsM (Option Nat) := fun s =>
  match (List.range s.ninodes).find? fun i => 1 ≤ i ∧ (s.inode i).type = .free with
  | none => .ok (none, s)
  | some i => (do iget i; pure (some i)) { s with toImage := s.set i ⟨type, 0, 0, 0, []⟩ }

/-- `namecmp`. -/
def namecmp (s t : Name) : Int := strncmp s t DIRSIZ

/-- The loop of `dirlookup`: the i-number and the offset of the first entry with the name. -/
def findEnt : List Dirent → Name → Nat → Option (Nat × Nat)
  | [], _, _ => none
  | de :: ents, name, off => if de.inum ≠ 0 ∧ namecmp name de.name = 0 then some (de.inum, off) else findEnt ents name (off + 1)

/-- `dirlookup`. -/
def dirlookup (dp : Nat) (name : Name) : FsM (Option (Nat × Nat)) := do
  let d ← readInode dp
  if d.type ≠ .dir then throw .dirlookupNotDir
  else
    match findEnt d.ents name 0 with
    | none => pure none
    | some (inum, off) => do
      iget inum
      pure (some (inum, off))

/-- The loop of `dirlink`: the offset of the first empty entry, or the end. -/
def freeSlot : List Dirent → Nat
  | [] => 0
  | de :: ents => if de.inum = 0 then 0 else freeSlot ents + 1

/-- `writei` of one entry at an offset up to the end. -/
def writeEnt : List Dirent → Nat → Dirent → List Dirent
  | [], _, de => [de]
  | _ :: ents, 0, de => de :: ents
  | x :: ents, off + 1, de => x :: writeEnt ents off de

/-- `writei` of an entry at `off` gives up: past the largest file, or at the start of a block that the disk does not have. -/
def writeFails (full : Nat → Bool) (dp : Nat) (ents : List Dirent) (off : Nat) : Bool :=
  MAXFILE * BSIZE < off * DIRENT + DIRENT || (off == ents.length && off * DIRENT % BSIZE == 0 && full dp)

/-- The second half of `dirlink`, for a name that is not present. -/
def dirwrite (full : Nat → Bool) (dp : Nat) (name : Name) (inum : Nat) : FsM Bool := do
  let d ← readInode dp
  if writeFails full dp d.ents (freeSlot d.ents) then pure false
  else do
    modifyInode dp fun d => { d with ents := writeEnt d.ents (freeSlot d.ents) ⟨inum % 2 ^ 16, name.take DIRSIZ⟩ }
    pure true

/-- `dirlink`. -/
def dirlink (full : Nat → Bool) (dp : Nat) (name : Name) (inum : Nat) : FsM Bool := do
  match ← dirlookup dp name with
  | some (ip, _) => do
    iput ip
    pure false
  | none => dirwrite full dp name inum

/-- `skipelem`: the next path element, cut to `DIRSIZ`, and the rest without leading slashes. -/
def skipelem (path : List Char) : Option (Name × List Char) :=
  match path.dropWhile (· == '/') with
  | [] => none
  | c :: cs => some (((c :: cs).takeWhile (· != '/')).take DIRSIZ, ((c :: cs).dropWhile (· != '/')).dropWhile (· == '/'))

/-- The elements `skipelem` gives one after the other, at most `n` of them. -/
def elemsUpTo : Nat → List Char → List Name
  | 0, _ => []
  | n + 1, path =>
    match skipelem path with
    | none => []
    | some (name, rest) => name :: elemsUpTo n rest

/-- The elements of a path; each takes at least one character of it. -/
def elems (path : List Char) : List Name := elemsUpTo path.length path

/-- The loop of `namex` over the elements of the path. -/
def namexLoop (nameiparent : Bool) : List Name → Nat → FsM (Option (Nat × Name))
  | [], ip =>
    if nameiparent then do
      iput ip
      pure none
    else pure (some (ip, []))
  | name :: rest, ip => do
    ilock ip
    let d ← readInode ip
    if d.type ≠ .dir then do
      iunlockput ip
      pure none
    else if nameiparent && rest.isEmpty then pure (some (ip, name))
    else
      match ← dirlookup ip name with
      | none => do
        iunlockput ip
        pure none
      | some (next, _) => do
        iunlockput ip
        namexLoop nameiparent rest next

/-- Where `namex` starts: the root or the current directory. -/
def startDir (p : Fin NPROC) (path : List Char) : FsM Nat := fun s =>
  if path.head? = some '/' then (do iget ROOTINO; pure ROOTINO) s
  else
    match s.cwd p with
    | none => .error .nullCwd
    | some d => (do idup d; pure d) s

/-- `namex`; the name counts for `nameiparent` only. -/
def namex (p : Fin NPROC) (path : List Char) (nameiparent : Bool) : FsM (Option (Nat × Name)) := do
  let ip ← startDir p path
  namexLoop nameiparent (elems path) ip

/-- The loop of `namex` once more, on the string that is left, at most `n` times. -/
def namexPath (nameiparent : Bool) : Nat → List Char → Nat → FsM (Option (Nat × Name))
  | 0, _, _ => pure none
  | n + 1, path, ip =>
    match skipelem path with
    | none =>
      if nameiparent then do
        iput ip
        pure none
      else pure (some (ip, []))
    | some (name, path) => do
      ilock ip
      let d ← readInode ip
      if d.type ≠ .dir then do
        iunlockput ip
        pure none
      else if nameiparent && path.isEmpty then pure (some (ip, name))
      else
        match ← dirlookup ip name with
        | none => do
          iunlockput ip
          pure none
        | some (next, _) => do
          iunlockput ip
          namexPath nameiparent n path next

/-- `namei`; an iteration of the loop takes at least one character. -/
def namei (p : Fin NPROC) (path : List Char) : FsM (Option Nat) := do
  let ip ← startDir p path
  let r ← namexPath false (path.length + 1) path ip
  pure (r.map Prod.fst)

/-- `nameiparent`, with what it leaves in `name`. -/
def nameiparent (p : Fin NPROC) (path : List Char) : FsM (Option (Nat × Name)) := do
  let ip ← startDir p path
  namexPath true (path.length + 1) path ip

/-- The two entries of a new directory. -/
def dotEntries (full : Nat → Bool) (dp ip : Nat) (type : IType) : FsM Bool :=
  if type = .dir then do
    if ← dirlink full ip ['.'] ip then dirlink full ip ['.', '.'] dp
    else pure false
  else pure true

/-- The entries `create` makes: those of a new directory, then the one that names the new inode. -/
def newEntries (full : Nat → Bool) (dp ip : Nat) (name : Name) (type : IType) : FsM Bool := do
  if ← dotEntries full dp ip type then dirlink full dp name ip
  else pure false

/-- `dp->nlink++` for the `..` of a new directory. -/
def countSubdir (dp : Nat) (type : IType) : FsM Unit :=
  if type = .dir then modifyInode dp fun d => { d with nlink := toShort (d.nlink + 1) }
  else pure ()

/-- The second half of `create`: a new inode, when the name is not present. -/
def createNew (full : Nat → Bool) (dp : Nat) (name : Name) (type : IType) (major minor : Int) : FsM (Option Nat) := do
  match ← ialloc type with
  | none => do
    iunlockput dp
    pure none
  | some ip => do
    ilock ip
    modifyInode ip fun d => { d with major := major, minor := minor, nlink := 1 }
    if ← newEntries full dp ip name type then do
      countSubdir dp type
      iunlockput dp
      pure (some ip)
    else do
      modifyInode ip fun d => { d with nlink := 0 }
      iunlockput ip
      iunlockput dp
      pure none

/-- `create`. -/
def create (p : Fin NPROC) (full : Nat → Bool) (path : List Char) (type : IType) (major minor : Int) : FsM (Option Nat) := do
  match ← namex p path true with
  | none => pure none
  | some (dp, name) => do
    ilock dp
    match ← dirlookup dp name with
    | some (ip, _) => do
      iunlockput dp
      ilock ip
      let d ← readInode ip
      if type = .file ∧ (d.type = .file ∨ d.type = .device) then pure (some ip)
      else do
        iunlockput ip
        pure none
    | none => createNew full dp name type major minor

/-- `sys_mkdir`. -/
def sysMkdir (p : Fin NPROC) (full : Nat → Bool) (path : List Char) : FsM Bool := do
  match ← create p full path .dir 0 0 with
  | none => pure false
  | some ip => do
    iunlockput ip
    pure true

/-- `sys_mknod`. -/
def sysMknod (p : Fin NPROC) (full : Nat → Bool) (path : List Char) (major minor : Int) : FsM Bool := do
  match ← create p full path .device (toShort major) (toShort minor) with
  | none => pure false
  | some ip => do
    iunlockput ip
    pure true

/-- `bad:` in `sys_link`. -/
def linkBad (ip : Nat) : FsM Bool := do
  ilock ip
  modifyInode ip fun d => { d with nlink := toShort (d.nlink - 1) }
  iunlockput ip
  pure false

/-- `sys_link` from the second path on, `ip` having its new count. -/
def linkTo (p : Fin NPROC) (full : Nat → Bool) (new : List Char) (ip : Nat) : FsM Bool := do
  match ← namex p new true with
  | none => linkBad ip
  | some (dp, name) => do
    ilock dp
    if ← dirlink full dp name ip then do
      iunlockput dp
      iput ip
      pure true
    else do
      iunlockput dp
      linkBad ip

/-- `sys_link`. -/
def sysLink (p : Fin NPROC) (full : Nat → Bool) (old new : List Char) : FsM Bool := do
  match ← namex p old false with
  | none => pure false
  | some (ip, _) => do
    ilock ip
    let d ← readInode ip
    if d.type = .dir then do
      iunlockput ip
      pure false
    else do
      modifyInode ip fun d => { d with nlink := toShort (d.nlink + 1) }
      linkTo p full new ip

/-- `isdirempty`. -/
def isdirempty (d : Dinode) : Bool := (d.ents.drop 2).all fun de => de.inum == 0

/-- `dp->nlink--` for the `..` of a directory that is removed. -/
def uncountSubdir (dp : Nat) (type : IType) : FsM Unit :=
  if type = .dir then modifyInode dp fun d => { d with nlink := toShort (d.nlink - 1) }
  else pure ()

/-- `sys_unlink` after `dirlookup` found `ip` at `off`. -/
def unlinkFound (dp ip off : Nat) : FsM Bool := do
  ilock ip
  let d ← readInode ip
  if d.nlink < 1 then throw .unlinkNlink
  else if d.type = .dir ∧ isdirempty d = false then do
    iunlockput ip
    iunlockput dp
    pure false
  else do
    modifyInode dp fun e => { e with ents := writeEnt e.ents off ⟨0, []⟩ }
    uncountSubdir dp d.type
    iunlockput dp
    modifyInode ip fun e => { e with nlink := toShort (e.nlink - 1) }
    iunlockput ip
    pure true

/-- The names `sys_unlink` refuses. -/
def isDots (name : Name) : Bool := namecmp name ['.'] == 0 || namecmp name ['.', '.'] == 0

/-- `sys_unlink`. -/
def sysUnlink (p : Fin NPROC) (path : List Char) : FsM Bool := do
  match ← namex p path true with
  | none => pure false
  | some (dp, name) => do
    ilock dp
    if isDots name then do
      iunlockput dp
      pure false
    else
      match ← dirlookup dp name with
      | none => do
        iunlockput dp
        pure false
      | some (ip, off) => unlinkFound dp ip off

/-- `p->cwd = d`. -/
def setCwd (p : Fin NPROC) (d : Option Nat) : FsM Unit := fun s => .ok ((), { s with cwd := update s.cwd p d })

/-- `iput(p->cwd)`. -/
def putCwd (p : Fin NPROC) : FsM Unit := fun s =>
  match s.cwd p with
  | none => .error .nullCwd
  | some d => iput d s

/-- `sys_chdir`. -/
def sysChdir (p : Fin NPROC) (path : List Char) : FsM Bool := do
  match ← namex p path false with
  | none => pure false
  | some (ip, _) => do
    ilock ip
    let d ← readInode ip
    if d.type ≠ .dir then do
      iunlockput ip
      pure false
    else do
      putCwd p
      setCwd p (some ip)
      pure true

/-- A `struct file`. -/
def readFile (f : Fin NFILE) : FsM File := fun s => .ok (s.file f, s)

/-- Change a `struct file`. -/
def modifyFile (f : Fin NFILE) (g : File → File) : FsM Unit := fun s =>
  .ok ((), { s with file := update s.file f (g (s.file f)) })

/-- `filealloc`. -/
def filealloc : FsM (Option (Fin NFILE)) := fun s =>
  match (List.finRange NFILE).find? fun f => (s.file f).ref = 0 with
  | none => .ok (none, s)
  | some f => .ok (some f, { s with file := update s.file f { s.file f with ref := 1 } })

/-- Set or clear a descriptor. -/
def setOfile (p : Fin NPROC) (fd : Fin NOFILE) (f : Option (Fin NFILE)) : FsM Unit := fun s =>
  .ok ((), { s with ofile := update s.ofile p (update (s.ofile p) fd f) })

/-- `fdalloc`. -/
def fdalloc (p : Fin NPROC) (f : Fin NFILE) : FsM (Option (Fin NOFILE)) := fun s =>
  match (List.finRange NOFILE).find? fun fd => s.ofile p fd = none with
  | none => .ok (none, s)
  | some fd => (do setOfile p fd (some f); pure (some fd)) s

/-- `fileclose`. -/
def fileclose (f : Fin NFILE) : FsM Unit := do
  let ff ← readFile f
  if ff.ref < 1 then throw .fileclose
  else if 1 < ff.ref then modifyFile f fun e => { e with ref := e.ref - 1 }
  else do
    modifyFile f fun e => { e with ref := 0, type := .none }
    if ff.type = .inode ∨ ff.type = .device then iput ff.ip
    else pure ()

/-- The bits of `omode` that matter here: `O_CREATE`, and `omode == O_RDONLY`. -/
structure Omode where
  create : Bool
  rdonly : Bool
deriving DecidableEq, Repr

/-- The first half of `sys_open`: the inode, locked. -/
def openInode (p : Fin NPROC) (full : Nat → Bool) (path : List Char) (omode : Omode) : FsM (Option Nat) :=
  if omode.create then create p full path .file 0 0
  else do
    match ← namex p path false with
    | none => pure none
    | some (ip, _) => do
      ilock ip
      let d ← readInode ip
      if d.type = .dir ∧ omode.rdonly = false then do
        iunlockput ip
        pure none
      else pure (some ip)

/-- The second half of `sys_open`: a file and a descriptor for the inode. -/
def openFile (p : Fin NPROC) (ip : Nat) (type : IType) : FsM (Option (Fin NOFILE)) := do
  match ← filealloc with
  | none => do
    iunlockput ip
    pure none
  | some f =>
    match ← fdalloc p f with
    | none => do
      fileclose f
      iunlockput ip
      pure none
    | some fd => do
      modifyFile f fun e => { e with type := if type = .device then .device else .inode, ip := ip }
      pure (some fd)

/-- `sys_open`. -/
def sysOpen (p : Fin NPROC) (full : Nat → Bool) (path : List Char) (omode : Omode) : FsM (Option (Fin NOFILE)) := do
  match ← openInode p full path omode with
  | none => pure none
  | some ip => do
    let d ← readInode ip
    if d.type = .device ∧ (d.major < 0 ∨ NDEV ≤ d.major) then do
      iunlockput ip
      pure none
    else openFile p ip d.type

/-- `p->ofile[fd]`. -/
def readOfile (p : Fin NPROC) (fd : Fin NOFILE) : FsM (Option (Fin NFILE)) := fun s => .ok (s.ofile p fd, s)

/-- `sys_close`, and the body of the loop in `kexit`. -/
def sysClose (p : Fin NPROC) (fd : Fin NOFILE) : FsM Bool := do
  match ← readOfile p fd with
  | none => pure false
  | some f => do
    setOfile p fd none
    fileclose f
    pure true

/-- The loop of `kexit` over the descriptors. -/
def closeAll (p : Fin NPROC) : List (Fin NOFILE) → FsM Unit
  | [] => pure ()
  | fd :: fds => do
    let _ ← sysClose p fd
    closeAll p fds

/-- What `kexit` does to the file system. -/
def kexit (p : Fin NPROC) : FsM Unit := do
  closeAll p (List.finRange NOFILE)
  putCwd p
  setCwd p none

/-- A system call with its arguments. -/
inductive Call where
  | open (path : List Char) (omode : Omode)
  | mkdir (path : List Char)
  | mknod (path : List Char) (major minor : Int)
  | link (old new : List Char)
  | unlink (path : List Char)
  | chdir (path : List Char)
  | close (fd : Fin NOFILE)
  | exit

/-- A call by a process, and whether the disk is full for each directory. -/
structure Label where
  p : Fin NPROC
  full : Nat → Bool
  call : Call

/-- What the call does. -/
def Label.run (l : Label) : FsM Unit :=
  match l.call with
  | .open path omode => do let _ ← sysOpen l.p l.full path omode
  | .mkdir path => do let _ ← sysMkdir l.p l.full path
  | .mknod path major minor => do let _ ← sysMknod l.p l.full path major minor
  | .link old new => do let _ ← sysLink l.p l.full old new
  | .unlink path => do let _ ← sysUnlink l.p path
  | .chdir path => do let _ ← sysChdir l.p path
  | .close fd => do let _ ← sysClose l.p fd
  | .exit => kexit l.p

/-- One call by a process that has not exited; a panic stops the machine. -/
def State.step (s : State) (l : Label) : Option State :=
  if (s.cwd l.p).isSome then
    match l.run s with
    | .ok ((), t) => some t
    | .error _ => none
  else none

/-- The panic a call by a process that has not exited runs into, if any. -/
def State.panic (s : State) (l : Label) : Option Panic :=
  if (s.cwd l.p).isSome then
    match l.run s with
    | .ok _ => none
    | .error e => some e
  else none

end Fs

end Xv6
