import Xv6.Theorems.CrashAtomic
import Xv6.Theorems.Quota
import Xv6.Theorems.Window
import Xv6.Theorems.Sched
import Xv6.Theorems.Trans
import Xv6.Theorems.Bio
import Xv6.Theorems.Kill
import Xv6.Theorems.Ticks
import Xv6.Theorems.PipeRead
import Xv6.Theorems.Console
import Xv6.Theorems.Virtio
import Xv6.Theorems.ShRun
import Xv6.Theorems.UmallocList
import Xv6.Theorems.VmPageMap
import Xv6.Theorems.FsPath
import Xv6.Theorems.FileWrite
import Xv6.Theorems.Reclaim
import Xv6.Theorems.VmExec
import Xv6.Theorems.Memmove
import Xv6.Theorems.Printf
import Xv6.Theorems.Grep
import Xv6.Theorems.Spinlock
import Xv6.Theorems.VmUser
