import Xv6.Param
import Xv6.Lib.Path
import Xv6.Lib.Peterson

/-!
# What the kernel holds along its paths

The control flow of the system calls and of everything they call, as far as it takes and gives back what one process can keep
others waiting for: a sleep-lock (of an inode or of a buffer), a place in `log.outstanding`, and the inside of a pipe's Peterson
lock. Tests on data are left open, with the source's text, so these paths include every path the code can take; spinlocks are not
resources here, since a process never gives the CPU up while it holds one. `sleep` and `yield` are where it does, and
`sys_setquota` is the one call that touches the fields of the CPU quota.
-/

namespace Xv6

open Lib Peterson Path

/-- What a process can hold while it does not run: a sleep-lock, a place in `log.outstanding`, a side of a pipe's lock. -/
inductive Res where
  | inode (ip : Nat)
  | buf (b : Nat)
  | logOp
  | pipe (pi : Nat) (me : Party)
  deriving DecidableEq

/-- What else a path does that the scheduler sees. -/
inductive Act where
  | sleep
  | yield
  | setquota (quota : BitVec 32)

abbrev Kpath := Path Res Act

namespace Kernel

/-! ### `sleeplock.c`, `bio.c`, `virtio_disk.c` -/

def sleep : Kpath Unit := emit .sleep

def yield : Kpath Unit := emit .yield

def acquiresleep (r : Res) : Kpath Unit := do
  repeatAny sleep
  take r

def releasesleep (r : Res) : Kpath Unit := give r

def virtioDiskRw : Kpath Unit := repeatAny sleep

def bget : Kpath Nat := do
  haltIf "bget: no buffers"
  let b ← any
  acquiresleep (.buf b)
  pure b

def bread : Kpath Nat := do
  let b ← bget
  whenever "!b->valid" virtioDiskRw
  pure b

def bwrite : Kpath Unit := do
  haltIf "!holdingsleep(&b->lock)"
  virtioDiskRw

def brelse (b : Nat) : Kpath Unit := do
  haltIf "!holdingsleep(&b->lock)"
  releasesleep (.buf b)

/-! ### `log.c` -/

def installTrans : Kpath Unit :=
  repeatAny do
    let lbuf ← bread
    let dbuf ← bread
    bwrite
    brelse lbuf
    brelse dbuf

def readHead : Kpath Unit := do
  let buf ← bread
  brelse buf

def writeHead : Kpath Unit := do
  let buf ← bread
  bwrite
  brelse buf

def recoverFromLog : Kpath Unit := do
  readHead
  installTrans
  writeHead

def initlog : Kpath Unit := do
  haltIf "sizeof(struct logheader) >= BSIZE"
  recoverFromLog

def beginOp : Kpath Unit := do
  repeatAny sleep
  take .logOp

def writeLog : Kpath Unit :=
  repeatAny do
    let dst ← bread
    let src ← bread
    bwrite
    brelse src
    brelse dst

def commit : Kpath Unit :=
  whenever "log.lh.n > 0" do
    writeLog
    writeHead
    installTrans
    writeHead

def endOp : Kpath Unit := do
  give .logOp
  haltIf "log.committing"
  whenever "do_commit" commit

def logWrite : Kpath Unit := do
  haltIf "log.lh.n >= LOGBLOCKS"
  haltIf "log.outstanding < 1"

/-! ### `fs.c`: blocks and inodes -/

def bzero : Kpath Unit := do
  let bp ← bread
  logWrite
  brelse bp

/-- Whether a block was found. -/
def balloc : Kpath Bool := do
  let r ← loop (fun _ => do
    let bp ← bread
    if ← test "(bp->data[bi/8] & m) == 0" then
      logWrite
      brelse bp
      bzero
      pure (.inr ())
    else
      brelse bp
      pure (.inl ())) ()
  pure r.isRight

def bfree : Kpath Unit := do
  let bp ← bread
  haltIf "(bp->data[bi/8] & m) == 0"
  logWrite
  brelse bp

def iget : Kpath Nat := do
  haltIf "iget: no inodes"
  any

def ialloc : Kpath (Option Nat) := do
  let r ← loop (fun _ => do
    let bp ← bread
    if ← test "dip->type == 0" then
      logWrite
      brelse bp
      let ip ← iget
      pure (.inr ip)
    else
      brelse bp
      pure (.inl ())) ()
  pure r.getRight?

def iupdate : Kpath Unit := do
  let bp ← bread
  logWrite
  brelse bp

def ilock (ip : Nat) : Kpath Unit := do
  haltIf "ip == 0 || ip->ref < 1"
  acquiresleep (.inode ip)
  whenever "ip->valid == 0" do
    let bp ← bread
    brelse bp
    haltIf "ip->type == 0"

def iunlock (ip : Nat) : Kpath Unit := do
  haltIf "ip == 0 || !holdingsleep(&ip->lock) || ip->ref < 1"
  releasesleep (.inode ip)

def itrunc : Kpath Unit := do
  repeatAny (whenever "ip->addrs[i]" bfree)
  whenever "ip->addrs[NDIRECT]" do
    let bp ← bread
    repeatAny (whenever "a[j]" bfree)
    brelse bp
    bfree
  iupdate

def iput (ip : Nat) : Kpath Unit :=
  whenever "ip->ref == 1 && ip->valid && ip->nlink == 0" do
    acquiresleep (.inode ip)
    itrunc
    iupdate
    releasesleep (.inode ip)

def iunlockput (ip : Nat) : Kpath Unit := do
  iunlock ip
  iput ip

def ireclaim : Kpath Unit :=
  repeatAny do
    let bp ← bread
    if ← test "dip->type != 0 && dip->nlink == 0" then
      let ip ← iget
      brelse bp
      beginOp
      ilock ip
      iunlock ip
      iput ip
      endOp
    else
      brelse bp

def readsb : Kpath Unit := do
  let bp ← bread
  brelse bp

def fsinit : Kpath Unit := do
  readsb
  haltIf "sb.magic != FSMAGIC"
  initlog
  ireclaim

/-! ### `fs.c`: contents, directories and paths -/

/-- `if(test) addr = balloc(...)`: whether there is a block then. -/
def ballocIf (c : String) : Kpath Bool := do
  if ← test c then balloc else pure true

/-- Whether there is a block. -/
def bmap : Kpath Bool := do
  if ← test "bn < NDIRECT" then ballocIf "(addr = ip->addrs[bn]) == 0"
  else if ← test "bn < NINDIRECT" then
    if ← ballocIf "(addr = ip->addrs[NDIRECT]) == 0" then
      let bp ← bread
      let addr ← ballocIf "(addr = a[bn]) == 0"
      whenever "a[bn] was 0 and addr is not" logWrite
      brelse bp
      pure addr
    else pure false
  else .halt

def readi : Kpath Unit :=
  whenever "off <= ip->size && off + n >= off" do
    let _ ← loop (fun _ => do
      if ← bmap then
        let bp ← bread
        let stop ← test "either_copyout(user_dst, dst, bp->data + (off % BSIZE), m) == -1"
        brelse bp
        if stop then pure (.inr ()) else pure (.inl ())
      else pure (.inr ())) ()
    pure ()

def writei : Kpath Unit :=
  whenever "off <= ip->size && off + n >= off && off + n <= MAXFILE*BSIZE" do
    let _ ← loop (fun _ => do
      if ← bmap then
        let bp ← bread
        if ← test "either_copyin(bp->data + (off % BSIZE), user_src, src, m) == -1" then
          brelse bp
          pure (.inr ())
        else
          logWrite
          brelse bp
          pure (.inl ())
      else pure (.inr ())) ()
    iupdate

def dirlookup : Kpath (Option Nat) := do
  haltIf "dp->type != T_DIR"
  let r ← loop (fun _ => do
    readi
    haltIf "readi(dp, 0, (uint64)&de, off, sizeof(de)) != sizeof(de)"
    if ← test "de.inum != 0 && namecmp(name, de.name) == 0" then
      let ip ← iget
      pure (.inr ip)
    else pure (.inl ())) ()
  pure r.getRight?

/-- Whether the entry was written. -/
def dirlink : Kpath Bool := do
  match ← dirlookup with
  | some ip =>
    iput ip
    pure false
  | none =>
    repeatAny do
      readi
      haltIf "readi(dp, 0, (uint64)&de, off, sizeof(de)) != sizeof(de)"
    writei
    test "writei(dp, 0, (uint64)&de, off, sizeof(de)) == sizeof(de)"

def namex (nameiparent : Bool) : Kpath (Option Nat) := do
  let ip ← iget
  let r ← loop (fun ip => do
    ilock ip
    if ← test "ip->type != T_DIR" then
      iunlockput ip
      pure (.inr none)
    else if ← (if nameiparent then test "*path == '\\0'" else pure false) then
      iunlock ip
      pure (.inr (some ip))
    else
      match ← dirlookup with
      | none =>
        iunlockput ip
        pure (.inr none)
      | some next =>
        iunlockput ip
        pure (.inl next)) ip
  match r with
  | .inr result => pure result
  | .inl ip =>
    if nameiparent then
      iput ip
      pure none
    else pure (some ip)

def namei : Kpath (Option Nat) := namex false

def nameiparent : Kpath (Option Nat) := namex true

/-! ### `pipe.c`, `file.c` -/

def petersonEnter (pi : Nat) (me : Party) : Kpath Unit := do
  take (.pipe pi me)
  repeatAny yield

def petersonExit (pi : Nat) (me : Party) : Kpath Unit := give (.pipe pi me)

def pipewrite (pi : Nat) : Kpath Unit := do
  let _ ← loop (fun _ => do
    if ← test "pi->readopen == 0 || killed(pr) || copyin(pr->pagetable, &ch, addr + i, 1) == -1" then pure (.inr ())
    else
      petersonEnter pi .zero
      if ← test "pi->readopen == 0" then
        petersonExit pi .zero
        pure (.inr ())
      else if ← test "pi->nwrite == pi->nread + PIPESIZE" then
        petersonExit pi .zero
        yield
        pure (.inl ())
      else
        petersonExit pi .zero
        pure (.inl ())) ()
  pure ()

def piperead (pi : Nat) : Kpath Unit := do
  let _ ← loop (fun _ => do
    if ← test "killed(pr)" then pure (.inr ())
    else
      petersonEnter pi .one
      if ← test "pi->nread == pi->nwrite" then
        if ← test "pi->writeopen == 0" then
          petersonExit pi .one
          pure (.inr ())
        else
          petersonExit pi .one
          yield
          pure (.inl ())
      else
        petersonExit pi .one
        if ← test "copyout(pr->pagetable, addr + i, &ch, 1) == -1" then pure (.inr ()) else pure (.inl ())) ()
  pure ()

/-- `consoleread`, `consolewrite` and the functions of `uart.c` they wait in. -/
def console : Kpath Unit := repeatAny sleep

def fileclose : Kpath Unit := do
  haltIf "f->ref < 1"
  whenever "--f->ref <= 0 && (ff.type == FD_INODE || ff.type == FD_DEVICE)" do
    let ip ← any
    beginOp
    iput ip
    endOp

def filestat : Kpath Unit :=
  whenever "f->type == FD_INODE || f->type == FD_DEVICE" do
    let ip ← any
    ilock ip
    iunlock ip

def fileread : Kpath Unit :=
  whenever "f->readable != 0" do
    let f ← any
    if ← test "f->type == FD_PIPE" then piperead f
    else if ← test "f->type == FD_DEVICE" then whenever "devsw[f->major].read" console
    else if ← test "f->type == FD_INODE" then
      ilock f
      readi
      iunlock f
    else .halt

def filewrite : Kpath Unit :=
  whenever "f->writable != 0" do
    let f ← any
    if ← test "f->type == FD_PIPE" then pipewrite f
    else if ← test "f->type == FD_DEVICE" then whenever "devsw[f->major].write" console
    else if ← test "f->type == FD_INODE" then
      repeatAny do
        beginOp
        ilock f
        writei
        iunlock f
        endOp
    else .halt

/-! ### `exec.c`, `sysfile.c` -/

/-- The label `bad` of `kexec` while the file is still open. -/
def kexecBad (ip : Nat) : Kpath Unit := do
  iunlockput ip
  endOp

def loadseg : Kpath Unit :=
  repeatAny do
    haltIf "pa == 0"
    readi

def kexec : Kpath Unit := do
  beginOp
  match ← namei with
  | none => endOp
  | some ip =>
    ilock ip
    readi
    if ← test "readi(ip, 0, (uint64)&elf, 0, sizeof(elf)) != sizeof(elf) || elf.magic != ELF_MAGIC || pagetable == 0" then
      kexecBad ip
    else
      let r ← loop (fun _ => do
        readi
        if ← test "a program header is bad, or uvmalloc fails" then pure (.inr ())
        else
          whenever "ph.type == ELF_PROG_LOAD" loadseg
          if ← test "loadseg(pagetable, ph.vaddr, ip, ph.off, ph.filesz) < 0" then pure (.inr ()) else pure (.inl ())) ()
      match r with
      | .inr () => kexecBad ip
      | .inl () =>
        iunlockput ip
        endOp

/-- The calls of `dirlink` in `create`: whether all went well. -/
def createLinks : Kpath Bool := do
  if ← test "type == T_DIR" then
    if ← dirlink then
      if ← dirlink then dirlink else pure false
    else pure false
  else dirlink

/-- The new file's inode, locked. -/
def create : Kpath (Option Nat) := do
  match ← nameiparent with
  | none => pure none
  | some dp =>
    ilock dp
    match ← dirlookup with
    | some ip =>
      iunlockput dp
      ilock ip
      if ← test "type == T_FILE && (ip->type == T_FILE || ip->type == T_DEVICE)" then pure (some ip)
      else
        iunlockput ip
        pure none
    | none =>
      match ← ialloc with
      | none =>
        iunlockput dp
        pure none
      | some ip =>
        ilock ip
        iupdate
        if ← createLinks then
          whenever "type == T_DIR" iupdate
          iunlockput dp
          pure (some ip)
        else
          iupdate
          iunlockput ip
          iunlockput dp
          pure none

/-- The new entry of `sys_link`: whether it was written. -/
def sysLinkEntry : Kpath Bool := do
  match ← nameiparent with
  | none => pure false
  | some dp =>
    ilock dp
    if ← test "dp->dev != ip->dev" then
      iunlockput dp
      pure false
    else
      let linked ← dirlink
      iunlockput dp
      pure linked

def sysLink : Kpath Unit :=
  whenever "argstr(0, old, MAXPATH) >= 0 && argstr(1, new, MAXPATH) >= 0" do
    beginOp
    match ← namei with
    | none => endOp
    | some ip =>
      ilock ip
      if ← test "ip->type == T_DIR" then
        iunlockput ip
        endOp
      else
        iupdate
        iunlock ip
        if ← sysLinkEntry then
          iput ip
          endOp
        else
          ilock ip
          iupdate
          iunlockput ip
          endOp

/-- The label `bad` of `sys_unlink`. -/
def sysUnlinkBad (dp : Nat) : Kpath Unit := do
  iunlockput dp
  endOp

/-- `ip->type != T_DIR || isdirempty(ip)`. -/
def isdirempty : Kpath Bool := do
  repeatAny do
    readi
    haltIf "readi(dp, 0, (uint64)&de, off, sizeof(de)) != sizeof(de)"
  test "ip->type != T_DIR || de.inum == 0"

def sysUnlink : Kpath Unit :=
  whenever "argstr(0, path, MAXPATH) >= 0" do
    beginOp
    match ← nameiparent with
    | none => endOp
    | some dp =>
      ilock dp
      if ← test "namecmp(name, \".\") == 0 || namecmp(name, \"..\") == 0" then sysUnlinkBad dp
      else
        match ← dirlookup with
        | none => sysUnlinkBad dp
        | some ip =>
          ilock ip
          haltIf "ip->nlink < 1"
          if ← isdirempty then
            writei
            haltIf "writei(dp, 0, (uint64)&de, off, sizeof(de)) != sizeof(de)"
            whenever "ip->type == T_DIR" iupdate
            iunlockput dp
            iupdate
            iunlockput ip
            endOp
          else
            iunlockput ip
            sysUnlinkBad dp

/-- The rest of `sys_open`, once the inode is locked. -/
def sysOpenInode (ip : Nat) : Kpath Unit := do
  if ← test "ip->type == T_DEVICE && (ip->major < 0 || ip->major >= NDEV)" then
    iunlockput ip
    endOp
  else if ← test "(f = filealloc()) == 0 || (fd = fdalloc(f)) < 0" then
    whenever "f" fileclose
    iunlockput ip
    endOp
  else
    whenever "(omode & O_TRUNC) && ip->type == T_FILE" itrunc
    iunlock ip
    endOp

def sysOpen : Kpath Unit :=
  whenever "(n = argstr(0, path, MAXPATH)) >= 0" do
    beginOp
    if ← test "omode & O_CREATE" then
      match ← create with
      | none => endOp
      | some ip => sysOpenInode ip
    else
      match ← namei with
      | none => endOp
      | some ip =>
        ilock ip
        if ← test "ip->type == T_DIR && omode != O_RDONLY" then
          iunlockput ip
          endOp
        else sysOpenInode ip

/-- `sys_mkdir` and `sys_mknod`, which differ in the type they create. -/
def sysMk : Kpath Unit := do
  beginOp
  if ← test "argstr(0, path, MAXPATH) < 0" then endOp
  else
    match ← create with
    | none => endOp
    | some ip =>
      iunlockput ip
      endOp

def sysChdir : Kpath Unit := do
  beginOp
  if ← test "argstr(0, path, MAXPATH) < 0" then endOp
  else
    match ← namei with
    | none => endOp
    | some ip =>
      ilock ip
      if ← test "ip->type != T_DIR" then
        iunlockput ip
        endOp
      else
        iunlock ip
        let cwd ← any
        iput cwd
        endOp

def sysRead : Kpath Unit := whenever "argfd(0, 0, &f) >= 0" fileread

def sysWrite : Kpath Unit := whenever "argfd(0, 0, &f) >= 0" filewrite

def sysClose : Kpath Unit := whenever "argfd(0, &fd, &f) >= 0" fileclose

def sysFstat : Kpath Unit := whenever "argfd(0, 0, &f) >= 0" filestat

def sysExec : Kpath Unit := whenever "the path and the arguments have been fetched" kexec

def sysPipe : Kpath Unit := do
  whenever "*f0" fileclose
  whenever "*f1" fileclose

/-! ### `proc.c`, `sysproc.c`, `syscall.c`, `trap.c` -/

/-- The part of `kexit` that lets the files and the current directory go. -/
def kexitFiles : Kpath Unit := do
  repeatAny (whenever "p->ofile[fd]" fileclose)
  let cwd ← any
  beginOp
  iput cwd
  endOp

def kexit : Kpath Unit := do
  haltIf "p == initproc"
  kexitFiles
  .exit

/-- `kwait`, `sys_pause`: calls that only sleep. -/
def waits : Kpath Unit := repeatAny sleep

/-- `sys_fork`, `sys_kill`, `sys_dup`, `sys_getpid`, `sys_sbrk`, `sys_uptime`, `sys_kps`: calls that hold only spinlocks. -/
def plain : Kpath Unit := haltIf "a count is wrong"

def sysSetquota (quota : BitVec 32) : Kpath Unit := emit (.setquota quota)

end Kernel

/-- The system calls of `syscalls[]`, with the argument of the one whose argument matters here; `unknown` is any other number. -/
inductive Syscall where
  | fork | exit | wait | pipe | read | kill | exec | fstat | chdir | dup | getpid | sbrk | pause | uptime
  | open | write | mknod | unlink | link | mkdir | close | kps
  | setquota (quota : BitVec 32)
  | unknown

/-- `syscall`. -/
def Syscall.path : Syscall → Kpath Unit
  | .fork | .kill | .dup | .getpid | .sbrk | .uptime | .kps => Kernel.plain
  | .exit => Kernel.kexit
  | .wait | .pause => Kernel.waits
  | .pipe => Kernel.sysPipe
  | .read => Kernel.sysRead
  | .exec => Kernel.sysExec
  | .fstat => Kernel.sysFstat
  | .chdir => Kernel.sysChdir
  | .open => Kernel.sysOpen
  | .write => Kernel.sysWrite
  | .mknod | .mkdir => Kernel.sysMk
  | .unlink => Kernel.sysUnlink
  | .link => Kernel.sysLink
  | .close => Kernel.sysClose
  | .setquota quota => Kernel.sysSetquota quota
  | .unknown => pure ()

/-- `forkret`: the first process also sets the file system up and loads `/init`. -/
def Kernel.forkret : Kpath Unit :=
  Path.whenever "first" do
    Kernel.fsinit
    Kernel.kexec
    Path.haltIf "p->trapframe->a0 == -1"

end Xv6
