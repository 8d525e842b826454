import Xv6.Fs
import Xv6.Lib.Tally

/-!
# What the namespace keeps

The tree of directories (`Image.Wf`), the link counts (`Image.LinksExact`) and the reference counts (`State.RefsOk`) of a consistent
file system, path resolution as a function of the image alone (`Image.namex`), and the conditions on a call under which these
survive it: `State.Drops s l D` says that the call `l` takes away what still keeps the directory `D` on disk.
-/

namespace Xv6.Fs

open Lib

/-- The entries of a directory after `.` and `..`. -/
def Dinode.regular (d : Dinode) : List Dirent := d.ents.drop 2

/-- The i-number in the `..` entry of a directory. -/
def Dinode.dotdot (d : Dinode) : Nat := (d.ents.getD 1 ⟨0, []⟩).inum

/-- The inode a file holds a reference to. -/
def File.holding (f : File) : Option Nat := if f.type = .inode ∨ f.type = .device then some f.ip else none

namespace Image

variable (img : Image)

/-- The number of entries after `.` and `..`, in all directories, that name inode `i`. -/
def entries (i : Nat) : Nat := ∑ d ∈ Finset.range img.ninodes, (img.inode d).regular.countP fun e => e.inum = i

/-- The number of entries of allocated directories that name inode `i`. -/
def named (i : Nat) : Nat :=
  ∑ d ∈ Finset.range img.ninodes, if (img.inode d).type = .dir then (img.inode d).ents.countP fun e => e.inum = i else 0

/-- The number of entries of allocated directories, other than `.` and `..`, that name inode `i`. -/
def linked (i : Nat) : Nat :=
  ∑ d ∈ Finset.range img.ninodes,
    if (img.inode d).type = .dir then (img.inode d).ents.countP fun e => e.inum = i ∧ isDots e.name = false else 0

/-- The number of directories that the directory `d` has an entry for, other than `.` and `..`. -/
def subdirs (d : Nat) : Nat :=
  (img.inode d).ents.countP fun e => isDots e.name = false ∧ (img.inode e.inum).type = .dir

/-- Every entry of an allocated directory, `.` and `..` included, names an allocated inode. -/
def NoDangling : Prop :=
  ∀ d, (img.inode d).type = .dir → ∀ e ∈ (img.inode d).ents, e.inum ≠ 0 → (img.inode e.inum).type ≠ .free

/-- The link counts are those of the entries. -/
structure LinksExact : Prop where
  nondir : ∀ i, (img.inode i).type ≠ .free → (img.inode i).type ≠ .dir → (img.inode i).nlink = img.named i
  dir : ∀ d, (img.inode d).type = .dir →
    (img.inode d).nlink = img.linked d + (if d = ROOTINO then 1 else 0) + img.subdirs d

/-- The directories of an image hang together: each starts with `.` and `..`, other entries have other names and name allocated
inodes, no directory is named twice and the root not at all. -/
structure Wf : Prop where
  zero : (img.inode 0).type = .free
  root : (img.inode ROOTINO).type = .dir
  bound : ∀ i, (img.inode i).type ≠ .free → i < img.ninodes
  ushort : img.ninodes ≤ 2 ^ 16
  short : ∀ i, -2 ^ 15 ≤ (img.inode i).nlink ∧ (img.inode i).nlink < 2 ^ 15
  nondir : ∀ i, (img.inode i).type ≠ .dir → (img.inode i).ents = []
  dots : ∀ d, (img.inode d).type = .dir → ∃ dp ents, (img.inode d).ents = ⟨d, ['.']⟩ :: ⟨dp, ['.', '.']⟩ :: ents ∧
    (img.inode dp).type = .dir
  regular : ∀ d, ∀ e ∈ (img.inode d).regular, e.inum ≠ 0 → (img.inode e.inum).type ≠ .free ∧ isDots e.name = false
  size : ∀ d, (img.inode d).ents.length * DIRENT ≤ MAXFILE * BSIZE
  once : ∀ d, (img.inode d).type = .dir → img.entries d + (if d = ROOTINO then 1 else 0) ≤ 1

/-- `namex` from inode `ip`, on the image alone. -/
def namex (nameiparent : Bool) : List Name → Nat → Option (Nat × Name)
  | [], ip => if nameiparent then none else some (ip, [])
  | name :: rest, ip =>
    if (img.inode ip).type ≠ .dir then none
    else if nameiparent && rest.isEmpty then some (ip, name)
    else
      match findEnt (img.inode ip).ents name 0 with
      | none => none
      | some (next, _) => namex nameiparent rest next

/-- The inode that a directory has for a name. -/
def lookup (ip : Nat) (name : Name) : Option Nat :=
  if (img.inode ip).type = .dir then (findEnt (img.inode ip).ents name 0).map Prod.fst else none

/-- Names are looked up one after the other. -/
def follow (ip : Nat) (names : List Name) : Option Nat := names.foldlM img.lookup ip

end Image

/-- The pieces of a path between slashes that are not empty, cut to `DIRSIZ`. -/
def comps (path : List Char) : List Name := ((path.splitOn '/').filter fun w => !w.isEmpty).map (List.take DIRSIZ)

namespace State

variable (s : State)

/-- The number of current directories and open files that are inode `i`. -/
def holds (i : Nat) : Nat := tally s.cwd i + tally (fun f => (s.file f).holding) i

/-- The inode table counts the references: those of processes and files, and those in `held`, which a call in progress has. An inode
in use is allocated, an allocated one without links is in use. -/
structure RefsOk (held : List Nat) : Prop where
  ref : ∀ i, s.ref i = s.holds i + held.count i
  cwd : ∀ p d, s.cwd p = some d → (s.inode d).type = .dir
  file : ∀ f i, (s.file f).holding = some i → (s.inode i).type ≠ .free
  unused : ∀ f, (s.file f).ref = 0 → (s.file f).type = .none
  alloc : ∀ i ∈ held, (s.inode i).type ≠ .free
  valid : ∀ i, 0 < s.holds i → s.valid i = true
  orphan : ∀ i, (s.inode i).type ≠ .free → (s.inode i).nlink = 0 → 0 < s.holds i + held.count i

/-- A consistent file system between two calls. -/
structure Consistent : Prop where
  wf : s.Wf
  links : s.LinksExact
  refs : s.RefsOk []

/-- What a path of process `p` leads to. -/
def resolve (p : Fin NPROC) (path : List Char) (nameiparent : Bool) : Option (Nat × Name) :=
  (if path.head? = some '/' then some ROOTINO else s.cwd p).bind (s.namex nameiparent (elems path))

/-- The directory and the inode whose entry there a call is to remove. -/
def victim (l : Label) : Option (Nat × Nat) :=
  match l.call with
  | .unlink path =>
    (s.resolve l.p path true).bind fun (dp, name) =>
      if isDots name then none else (findEnt (s.inode dp).ents name 0).map fun (ip, _) => (dp, ip)
  | _ => none

/-- The call takes away what still keeps `D` on disk: the last link of an empty directory that is not in use, the last
subdirectory of a directory already removed and not in use, or the last use, by the calling process, of a directory already
removed. -/
def Drops (l : Label) (D : Nat) : Prop :=
  match l.call with
  | .unlink _ => ∃ dp ip, s.victim l = some (dp, ip) ∧ (s.inode ip).type = .dir ∧ isdirempty (s.inode ip) = true ∧
      s.ref D = 0 ∧ (D = ip ∨ D = dp ∧ (s.inode dp).nlink = 1)
  | .chdir path => s.cwd l.p = some D ∧ (s.inode D).nlink = 0 ∧ s.ref D = 1 ∧
      ∃ ip name, s.resolve l.p path false = some (ip, name) ∧ (s.inode ip).type = .dir ∧ ip ≠ D
  | .close fd => (s.inode D).nlink = 0 ∧ s.ref D = 1 ∧
      ∃ f, s.ofile l.p fd = some f ∧ (s.file f).ref = 1 ∧ (s.file f).holding = some D
  | .exit => (s.inode D).nlink = 0 ∧ (∀ q, s.cwd q = some D → q = l.p) ∧
      ∀ f, (s.file f).holding = some D → (s.file f).ref = (List.finRange NOFILE).countP fun fd => s.ofile l.p fd = some f
  | _ => False

/-- No directory loses what keeps it on disk while another one that stays has it as `..`. -/
def KeepsParents (l : Label) : Prop :=
  ∀ D E, s.Drops l D → (s.inode D).type = .dir → (s.inode E).type = .dir → E ≠ D → (s.inode E).dotdot = D → s.Drops l E

/-- No directory loses what keeps it on disk while it has entries other than `.` and `..`, except the one that the same call
removes. -/
def LeavesEmpty (l : Label) : Prop :=
  ∀ D, s.Drops l D → (s.inode D).type = .dir → ∀ e ∈ (s.inode D).regular, e.inum ≠ 0 →
    ∃ dp, s.victim l = some (dp, e.inum)

/-- The call is not `sys_link` for an inode whose `nlink` is `n`. -/
def AvoidsLink (l : Label) (n : Int) : Prop :=
  ∀ old new ip name, l.call = .link old new → s.resolve l.p old false = some (ip, name) →
    (s.inode ip).type ≠ .dir → (s.inode ip).nlink ≠ n

end State

end Xv6.Fs
