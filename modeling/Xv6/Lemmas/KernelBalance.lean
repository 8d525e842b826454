import Xv6.Kernel

/-!
# Every system call gives back what it takes

One triple for each function of the kernel, in the order of the calls: most keep nothing (`Balanced`), `bread` and `ilock` return
holding a lock, `brelse`, `iunlock` and `iunlockput` give one back, and `create` returns with its inode locked.
-/

namespace Xv6

open Lib Path

namespace KernelAux

open Kernel

theorem sleep_balanced : Balanced sleep := emit_balanced _

theorem yield_balanced : Balanced yield := emit_balanced _

theorem acquiresleep_takes (r : Res) : Takes (acquiresleep r) r :=
  (repeatAny_balanced sleep_balanced).then fun _ => take_takes r

theorem releasesleep_gives (r : Res) : Gives (releasesleep r) r := give_gives r

theorem virtioDiskRw_balanced : Balanced virtioDiskRw := repeatAny_balanced sleep_balanced

/-- A buffer is returned locked. -/
theorem bread_triple : Triple 0 bread fun b => {.buf b} := by
  have hbget : Triple 0 bget fun b => {.buf b} :=
    (haltIf_balanced _).then fun _ => any_balanced.then fun b => (acquiresleep_takes (.buf b)).then fun _ _ => rfl
  exact hbget.bind fun b => (whenever_balanced _ virtioDiskRw_balanced).then fun _ _ => rfl

/-- Code that goes on with the locked buffer. -/
theorem bread_then {G : Multiset Res} {β : Type} {f : Nat → Kpath β} {Q : β → Multiset Res}
    (hf : ∀ b, Triple (.buf b ::ₘ G) (f b) Q) : Triple G (bread >>= f) Q := by
  have h := bread_triple.frame G
  simp only [zero_add, Multiset.singleton_add] at h
  exact h.bind hf

theorem bwrite_balanced : Balanced bwrite := (haltIf_balanced _).then fun _ => virtioDiskRw_balanced

theorem brelse_gives (b : Nat) : Gives (brelse b) (.buf b) := (haltIf_balanced _).then fun _ => releasesleep_gives _

/-! ### The log -/

theorem installTrans_balanced : Balanced installTrans := by
  refine repeatAny_balanced (bread_then fun lbuf => bread_then fun dbuf => bwrite_balanced.then fun _ => ?_)
  rw [Multiset.cons_swap]
  exact (brelse_gives lbuf).then fun _ => brelse_gives dbuf

theorem readHead_balanced : Balanced readHead := bread_then fun buf => brelse_gives buf

theorem writeHead_balanced : Balanced writeHead := bread_then fun buf => bwrite_balanced.then fun _ => brelse_gives buf

theorem initlog_balanced : Balanced initlog := by
  refine (haltIf_balanced _).then fun _ => ?_
  exact readHead_balanced.then fun _ => installTrans_balanced.then fun _ => writeHead_balanced

theorem writeLog_balanced : Balanced writeLog :=
  repeatAny_balanced (bread_then fun dst => bread_then fun src => bwrite_balanced.then fun _ =>
    (brelse_gives src).then fun _ => brelse_gives dst)

theorem commit_balanced : Balanced commit :=
  whenever_balanced _ (writeLog_balanced.then fun _ => writeHead_balanced.then fun _ => installTrans_balanced.then fun _ =>
    writeHead_balanced)

theorem beginOp_takes : Takes beginOp .logOp := (repeatAny_balanced sleep_balanced).then fun _ => take_takes _

theorem endOp_gives : Gives endOp .logOp :=
  (give_gives _).then fun _ => (haltIf_balanced _).then fun _ => whenever_balanced _ commit_balanced

theorem logWrite_balanced : Balanced logWrite := (haltIf_balanced _).then fun _ => haltIf_balanced _

/-! ### Blocks and inodes -/

/-- Reading a block, changing it and logging the change. -/
theorem iupdate_balanced : Balanced iupdate := bread_then fun bp => logWrite_balanced.then fun _ => brelse_gives bp

theorem bzero_balanced : Balanced bzero := iupdate_balanced

theorem balloc_balanced : Balanced balloc := by
  refine (loop_balanced (fun _ => ?_) ()).then fun r => Balanced.ret _
  refine bread_then fun bp => Triple.branch _ ?_ ?_
  · exact logWrite_balanced.then fun _ => (brelse_gives bp).then fun _ => bzero_balanced.then fun _ => Balanced.ret _
  · exact (brelse_gives bp).then fun _ => Balanced.ret _

theorem bfree_balanced : Balanced bfree :=
  bread_then fun bp => (haltIf_balanced _).then fun _ => logWrite_balanced.then fun _ => brelse_gives bp

theorem iget_balanced : Balanced iget := (haltIf_balanced _).then fun _ => any_balanced

theorem ialloc_balanced : Balanced ialloc := by
  refine (loop_balanced (fun _ => ?_) ()).then fun r => Balanced.ret _
  refine bread_then fun bp => Triple.branch _ ?_ ?_
  · exact logWrite_balanced.then fun _ => (brelse_gives bp).then fun _ => iget_balanced.then fun _ => Balanced.ret _
  · exact (brelse_gives bp).then fun _ => Balanced.ret _

variable (ip : Nat)

theorem ilock_takes : Takes (ilock ip) (.inode ip) := by
  refine (haltIf_balanced _).then fun _ => (acquiresleep_takes _).then fun _ => ?_
  exact (whenever_balanced _ (bread_then fun bp => (brelse_gives bp).then fun _ => haltIf_balanced _)).last

theorem iunlock_gives : Gives (iunlock ip) (.inode ip) := (haltIf_balanced _).then fun _ => releasesleep_gives _

theorem itrunc_balanced : Balanced itrunc := by
  have hfree : ∀ c, Balanced (repeatAny (whenever c bfree)) := fun c =>
    repeatAny_balanced (whenever_balanced c bfree_balanced)
  refine (hfree _).then fun _ => (whenever_balanced _ ?_).then fun _ => iupdate_balanced
  exact bread_then fun bp => (hfree _).then fun _ => (brelse_gives bp).then fun _ => bfree_balanced

theorem iput_balanced : Balanced (iput ip) := by
  refine whenever_balanced _ ((acquiresleep_takes (.inode ip)).then fun _ => ?_)
  exact itrunc_balanced.then fun _ => iupdate_balanced.then fun _ => releasesleep_gives _

theorem iunlockput_gives : Gives (iunlockput ip) (.inode ip) :=
  (iunlock_gives ip).then fun _ => iput_balanced ip

theorem ireclaim_balanced : Balanced ireclaim := by
  refine repeatAny_balanced (bread_then fun bp => Triple.branch _ ?_ (brelse_gives bp))
  refine iget_balanced.then fun ip => (brelse_gives bp).then fun _ => beginOp_takes.then fun _ => ?_
  exact (ilock_takes ip).then fun _ => (iunlock_gives ip).then fun _ => (iput_balanced ip).then fun _ => endOp_gives

theorem fsinit_balanced : Balanced fsinit :=
  readHead_balanced.then fun _ => (haltIf_balanced _).then fun _ => initlog_balanced.then fun _ => ireclaim_balanced

/-! ### Contents, directories and paths -/

theorem ballocIf_balanced (c : String) : Balanced (ballocIf c) := Triple.branch c balloc_balanced (Balanced.ret _)

theorem bmap_balanced : Balanced bmap := by
  refine Triple.branch _ (ballocIf_balanced _) (Triple.branch _ ?_ Triple.halt)
  refine (ballocIf_balanced _).then fun found => ?_
  cases found with
  | false => exact Balanced.ret _
  | true =>
    refine bread_then fun bp => (ballocIf_balanced _).then fun addr => ?_
    exact (whenever_balanced _ logWrite_balanced).then fun _ => (brelse_gives bp).then fun _ => Balanced.ret _

theorem readi_balanced : Balanced readi := by
  refine whenever_balanced _ ((loop_balanced (fun _ => bmap_balanced.then fun found => ?_) ()).then fun _ => Balanced.ret _)
  cases found with
  | false => exact Balanced.ret _
  | true =>
    refine bread_then fun bp => (test_balanced _).then fun stop => (brelse_gives bp).then fun _ => ?_
    cases stop <;> exact Balanced.ret _

theorem writei_balanced : Balanced writei := by
  refine whenever_balanced _ ((loop_balanced (fun _ => bmap_balanced.then fun found => ?_) ()).then fun _ => iupdate_balanced)
  cases found with
  | false => exact Balanced.ret _
  | true =>
    refine bread_then fun bp => Triple.branch _ ?_ ?_
    · exact (brelse_gives bp).then fun _ => Balanced.ret _
    · exact logWrite_balanced.then fun _ => (brelse_gives bp).then fun _ => Balanced.ret _

theorem dirlookup_balanced : Balanced dirlookup := by
  refine (haltIf_balanced _).then fun _ => (loop_balanced (fun _ => ?_) ()).then fun _ => Balanced.ret _
  refine readi_balanced.then fun _ => (haltIf_balanced _).then fun _ => Triple.branch _ ?_ (Balanced.ret _)
  exact iget_balanced.then fun _ => Balanced.ret _

theorem dirlink_balanced : Balanced dirlink := by
  refine dirlookup_balanced.then fun found => ?_
  cases found with
  | some ip => exact (iput_balanced ip).then fun _ => Balanced.ret _
  | none =>
    refine (repeatAny_balanced (readi_balanced.then fun _ => haltIf_balanced _)).then fun _ => ?_
    exact writei_balanced.then fun _ => test_balanced _

theorem namex_balanced (nameiparent : Bool) : Balanced (namex nameiparent) := by
  refine iget_balanced.then fun ip => (loop_balanced (fun ip => ?_) ip).then fun r => ?_
  · refine (ilock_takes ip).then fun _ => Triple.branch _ ((iunlockput_gives ip).then fun _ => Balanced.ret _) ?_
    have hstop : Balanced (if nameiparent then test "*path == '\\0'" else pure false : Kpath Bool) := by
      split_ifs
      · exact test_balanced _
      · exact Balanced.ret _
    refine hstop.then fun stop => ?_
    cases stop with
    | true => exact (iunlock_gives ip).then fun _ => Balanced.ret _
    | false =>
      refine dirlookup_balanced.then fun next => ?_
      cases next <;> exact (iunlockput_gives ip).then fun _ => Balanced.ret _
  · cases r with
    | inr result => exact Balanced.ret _
    | inl ip =>
      cases nameiparent with
      | true => exact (iput_balanced ip).then fun _ => Balanced.ret _
      | false => exact Balanced.ret _

/-! ### Files and pipes -/

variable (pi : Nat) (me : Peterson.Party)

theorem petersonEnter_takes : Takes (petersonEnter pi me) (.pipe pi me) :=
  (take_takes _).then fun _ => (repeatAny_balanced yield_balanced).last

theorem petersonExit_gives : Gives (petersonExit pi me) (.pipe pi me) := give_gives _

theorem pipewrite_balanced : Balanced (pipewrite pi) := by
  refine (loop_balanced (fun _ => ?_) ()).then fun _ => Balanced.ret _
  refine Triple.branch _ (Balanced.ret _) ((petersonEnter_takes pi _).then fun _ => ?_)
  refine Triple.branch _ ((petersonExit_gives pi _).then fun _ => Balanced.ret _) (Triple.branch _ ?_ ?_)
  · exact (petersonExit_gives pi _).then fun _ => yield_balanced.then fun _ => Balanced.ret _
  · exact (petersonExit_gives pi _).then fun _ => Balanced.ret _

theorem piperead_balanced : Balanced (piperead pi) := by
  refine (loop_balanced (fun _ => ?_) ()).then fun _ => Balanced.ret _
  refine Triple.branch _ (Balanced.ret _) ((petersonEnter_takes pi _).then fun _ => Triple.branch _ ?_ ?_)
  · refine Triple.branch _ ((petersonExit_gives pi _).then fun _ => Balanced.ret _) ?_
    exact (petersonExit_gives pi _).then fun _ => yield_balanced.then fun _ => Balanced.ret _
  · exact (petersonExit_gives pi _).then fun _ => Triple.branch _ (Balanced.ret _) (Balanced.ret _)

theorem fileclose_balanced : Balanced fileclose := by
  refine (haltIf_balanced _).then fun _ => whenever_balanced _ (any_balanced.then fun ip => ?_)
  exact beginOp_takes.then fun _ => (iput_balanced ip).then fun _ => endOp_gives

theorem filestat_balanced : Balanced filestat :=
  whenever_balanced _ (any_balanced.then fun ip => (ilock_takes ip).then fun _ => iunlock_gives ip)

theorem console_balanced : Balanced console := repeatAny_balanced sleep_balanced

theorem fileread_balanced : Balanced fileread := by
  refine whenever_balanced _ (any_balanced.then fun f => Triple.branch _ (piperead_balanced f) ?_)
  refine Triple.branch _ (whenever_balanced _ console_balanced) (Triple.branch _ ?_ Triple.halt)
  exact (ilock_takes f).then fun _ => readi_balanced.then fun _ => iunlock_gives f

theorem filewrite_balanced : Balanced filewrite := by
  refine whenever_balanced _ (any_balanced.then fun f => Triple.branch _ (pipewrite_balanced f) ?_)
  refine Triple.branch _ (whenever_balanced _ console_balanced) (Triple.branch _ ?_ Triple.halt)
  refine repeatAny_balanced (beginOp_takes.then fun _ => (ilock_takes f).then fun _ => ?_)
  exact writei_balanced.then fun _ => (iunlock_gives f).then fun _ => endOp_gives

/-! ### System calls -/

theorem kexecBad_triple : Triple (.inode ip ::ₘ .logOp ::ₘ 0) (kexecBad ip) fun _ => 0 :=
  (iunlockput_gives ip).then fun _ => endOp_gives

theorem loadseg_balanced : Balanced loadseg := repeatAny_balanced ((haltIf_balanced _).then fun _ => readi_balanced)

theorem kexec_balanced : Balanced kexec := by
  refine beginOp_takes.then fun _ => (namex_balanced false).then fun found => ?_
  cases found with
  | none => exact endOp_gives
  | some ip =>
    refine (ilock_takes ip).then fun _ => readi_balanced.then fun _ => Triple.branch _ (kexecBad_triple ip) ?_
    refine (loop_balanced (fun _ => ?_) ()).then fun r => ?_
    · refine readi_balanced.then fun _ => Triple.branch _ (Balanced.ret _) ?_
      exact (whenever_balanced _ loadseg_balanced).then fun _ => Triple.branch _ (Balanced.ret _) (Balanced.ret _)
    · cases r <;> exact kexecBad_triple ip

theorem createLinks_balanced : Balanced createLinks := by
  refine Triple.branch _ ?_ dirlink_balanced
  refine dirlink_balanced.then fun dot => ?_
  cases dot with
  | false => exact Balanced.ret _
  | true =>
    refine dirlink_balanced.then fun dotdot => ?_
    cases dotdot with
    | false => exact Balanced.ret _
    | true => exact dirlink_balanced

/-- What `create` returns with: its inode's lock. -/
def created : Option Nat → Multiset Res
  | none => 0
  | some ip => {.inode ip}

theorem create_triple : Triple 0 create created := by
  refine (namex_balanced true).then fun parent => ?_
  cases parent with
  | none => exact fun _ => rfl
  | some dp =>
    refine (ilock_takes dp).then fun _ => dirlookup_balanced.then fun found => ?_
    cases found with
    | some ip =>
      refine (iunlockput_gives dp).then fun _ => (ilock_takes ip).then fun _ => Triple.branch _ (fun _ => rfl) ?_
      exact (iunlockput_gives ip).then fun _ _ => rfl
    | none =>
      refine ialloc_balanced.then fun new => ?_
      cases new with
      | none => exact (iunlockput_gives dp).then fun _ _ => rfl
      | some ip =>
        refine (ilock_takes ip).then fun _ => iupdate_balanced.then fun _ => createLinks_balanced.then fun linked => ?_
        cases linked with
        | true =>
          refine (whenever_balanced _ iupdate_balanced).then fun _ => ?_
          rw [Multiset.cons_swap]
          exact (iunlockput_gives dp).then fun _ _ => rfl
        | false =>
          refine iupdate_balanced.then fun _ => (iunlockput_gives ip).then fun _ => ?_
          exact (iunlockput_gives dp).then fun _ _ => rfl

/-- Code that goes on with what `create` returns. -/
theorem create_then {G : Multiset Res} {β : Type} {f : Option Nat → Kpath β} {Q : β → Multiset Res}
    (hnone : Triple G (f none) Q) (hsome : ∀ ip, Triple (.inode ip ::ₘ G) (f (some ip)) Q) : Triple G (create >>= f) Q := by
  have h := create_triple.frame G
  rw [zero_add] at h
  refine h.bind fun found => ?_
  cases found with
  | none =>
    rw [created, zero_add]
    exact hnone
  | some ip =>
    rw [created, Multiset.singleton_add]
    exact hsome ip

theorem sysLinkEntry_balanced : Balanced sysLinkEntry := by
  refine (namex_balanced true).then fun parent => ?_
  cases parent with
  | none => exact Balanced.ret _
  | some dp =>
    refine (ilock_takes dp).then fun _ => Triple.branch _ ((iunlockput_gives dp).then fun _ => Balanced.ret _) ?_
    exact dirlink_balanced.then fun _ => (iunlockput_gives dp).then fun _ => Balanced.ret _

theorem sysLink_balanced : Balanced sysLink := by
  refine whenever_balanced _ (beginOp_takes.then fun _ => (namex_balanced false).then fun found => ?_)
  cases found with
  | none => exact endOp_gives
  | some ip =>
    refine (ilock_takes ip).then fun _ => Triple.branch _ (kexecBad_triple ip) ?_
    refine iupdate_balanced.then fun _ => (iunlock_gives ip).then fun _ => sysLinkEntry_balanced.then fun linked => ?_
    cases linked with
    | true => exact (iput_balanced ip).then fun _ => endOp_gives
    | false => exact (ilock_takes ip).then fun _ => iupdate_balanced.then fun _ => kexecBad_triple ip

theorem isdirempty_balanced : Balanced isdirempty :=
  (repeatAny_balanced (readi_balanced.then fun _ => haltIf_balanced _)).then fun _ => test_balanced _

theorem sysUnlink_balanced : Balanced sysUnlink := by
  refine whenever_balanced _ (beginOp_takes.then fun _ => (namex_balanced true).then fun parent => ?_)
  cases parent with
  | none => exact endOp_gives
  | some dp =>
    refine (ilock_takes dp).then fun _ => Triple.branch _ (kexecBad_triple dp) (dirlookup_balanced.then fun found => ?_)
    cases found with
    | none => exact kexecBad_triple dp
    | some ip =>
      refine (ilock_takes ip).then fun _ => (haltIf_balanced _).then fun _ => isdirempty_balanced.then fun empty => ?_
      cases empty with
      | false => exact (iunlockput_gives ip).then fun _ => kexecBad_triple dp
      | true =>
        refine writei_balanced.then fun _ => (haltIf_balanced _).then fun _ =>
          (whenever_balanced _ iupdate_balanced).then fun _ => ?_
        rw [Multiset.cons_swap]
        exact (iunlockput_gives dp).then fun _ => iupdate_balanced.then fun _ => kexecBad_triple ip

theorem sysOpenInode_triple : Triple (.inode ip ::ₘ .logOp ::ₘ 0) (sysOpenInode ip) fun _ => 0 := by
  refine Triple.branch _ (kexecBad_triple ip) (Triple.branch _ ?_ ?_)
  · exact (whenever_balanced _ fileclose_balanced).then fun _ => kexecBad_triple ip
  · exact (whenever_balanced _ itrunc_balanced).then fun _ => (iunlock_gives ip).then fun _ => endOp_gives

theorem sysOpen_balanced : Balanced sysOpen := by
  refine whenever_balanced _ (beginOp_takes.then fun _ => Triple.branch _ ?_ ((namex_balanced false).then fun found => ?_))
  · exact create_then endOp_gives fun ip => sysOpenInode_triple ip
  · cases found with
    | none => exact endOp_gives
    | some ip => exact (ilock_takes ip).then fun _ => Triple.branch _ (kexecBad_triple ip) (sysOpenInode_triple ip)

theorem sysMk_balanced : Balanced sysMk := by
  refine beginOp_takes.then fun _ => Triple.branch _ endOp_gives ?_
  exact create_then endOp_gives fun ip => kexecBad_triple ip

theorem sysChdir_balanced : Balanced sysChdir := by
  refine beginOp_takes.then fun _ => Triple.branch _ endOp_gives ((namex_balanced false).then fun found => ?_)
  cases found with
  | none => exact endOp_gives
  | some ip =>
    refine (ilock_takes ip).then fun _ => Triple.branch _ (kexecBad_triple ip) ?_
    exact (iunlock_gives ip).then fun _ => any_balanced.then fun cwd => (iput_balanced cwd).then fun _ => endOp_gives

theorem forkret_balanced : Balanced forkret :=
  whenever_balanced _ (fsinit_balanced.then fun _ => kexec_balanced.then fun _ => haltIf_balanced _)

/-- A path that gives back everything it takes, before it returns or leaves for good. -/
def Clean (p : Kpath Unit) (h : Multiset Res) : Prop := p.Keeps h fun _ g => g = 0

theorem clean_of_balanced {p : Kpath Unit} (hp : Balanced p) : Clean p 0 := hp 0

theorem kexitFiles_balanced : Balanced kexitFiles := by
  refine (repeatAny_balanced (whenever_balanced _ fileclose_balanced)).then fun _ => any_balanced.then fun cwd => ?_
  exact beginOp_takes.then fun _ => (iput_balanced cwd).then fun _ => endOp_gives

/-- An exiting process leaves with nothing. -/
theorem kexit_clean : Clean kexit 0 :=
  Keeps.bind (haltIf_balanced _ 0) fun _ _ hg => Keeps.bind (hg ▸ kexitFiles_balanced 0) fun _ _ hg' => hg'

theorem sysPipe_balanced : Balanced sysPipe :=
  (whenever_balanced _ fileclose_balanced).then fun _ => whenever_balanced _ fileclose_balanced

theorem plain_balanced : Balanced plain := haltIf_balanced _

theorem syscall_clean (num : Syscall) : Clean num.path 0 := by
  cases num with
  | exit => exact kexit_clean
  | fork | kill | dup | getpid | sbrk | uptime | kps => exact clean_of_balanced plain_balanced
  | wait | pause => exact clean_of_balanced (repeatAny_balanced sleep_balanced)
  | pipe => exact clean_of_balanced sysPipe_balanced
  | read => exact clean_of_balanced (p := Kernel.sysRead) (whenever_balanced _ fileread_balanced)
  | exec => exact clean_of_balanced (p := Kernel.sysExec) (whenever_balanced _ kexec_balanced)
  | fstat => exact clean_of_balanced (p := Kernel.sysFstat) (whenever_balanced _ filestat_balanced)
  | chdir => exact clean_of_balanced sysChdir_balanced
  | «open» => exact clean_of_balanced sysOpen_balanced
  | write => exact clean_of_balanced (p := Kernel.sysWrite) (whenever_balanced _ filewrite_balanced)
  | mknod | mkdir => exact clean_of_balanced sysMk_balanced
  | unlink => exact clean_of_balanced sysUnlink_balanced
  | link => exact clean_of_balanced sysLink_balanced
  | close => exact clean_of_balanced (p := Kernel.sysClose) (whenever_balanced _ fileclose_balanced)
  | setquota quota => exact clean_of_balanced (emit_balanced _)
  | unknown => exact clean_of_balanced (Balanced.ret _)

end KernelAux

end Xv6
