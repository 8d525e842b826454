import Xv6.Threads

/-!
# The kernel's loops around `sleep`

`acquiresleep`, `sys_pause` and `consoleread` as loops of a protocol: what each tests, what it does when the test succeeds, and
whether it gives up when the process is killed. The wakers are `releasesleep`, `clockintr` and `consoleintr`.
-/

namespace Xv6.Threads

/-- `struct sleeplock`. -/
structure Sleeplock where
  locked : Bool
  pid : Int

/-- `acquiresleep`, by a process with the given pid. -/
def acquiresleep : Protocol Sleeplock Int where
  start pid _ := pid
  ready _ lk := !lk.locked
  pass pid _ := (⟨true, pid⟩, none)
  killable _ := false
  quiet _ _ _ _ _ := rfl

/-- What `releasesleep` does before it calls `wakeup`. -/
def releasesleep (_ : Sleeplock) : Sleeplock := ⟨false, 0⟩

/-- What `tickslock` and `cons.lock` protect. -/
structure Device where
  ticks : Uint
  r : Uint
  w : Uint
  buf : Nat → Nat

def INPUT_BUF_SIZE : Nat := 128

/-- `C('D')`. -/
def ctrlD : Nat := 4

/-- The loop of `sys_pause`, with `ticks0` and `n`, and that of `consoleread`, with what is left to read, `target`, and whether
`either_copyout` succeeds with so much left. -/
inductive DeviceLoop where
  | pause (ticks0 : Uint) (n : Nat)
  | consoleread (n target : Nat) (copyout : Nat → Bool)

namespace Device

/-- The body of the loop of `consoleread` after the wait. -/
def readChar (d : Device) (n target : Nat) (copyout : Nat → Bool) : Device × Option DeviceLoop :=
  let ch := d.buf (d.r.toNat % INPUT_BUF_SIZE)
  if ch = ctrlD then (if n < target then d else { d with r := d.r + 1 }, none)
  else if copyout n = false then ({ d with r := d.r + 1 }, none)
  else if ch = '\n'.toNat then ({ d with r := d.r + 1 }, none)
  else ({ d with r := d.r + 1 }, some (.consoleread (n - 1) target copyout))

def ready (d : Device) : DeviceLoop → Bool
  | .pause ticks0 n => !((d.ticks - ticks0).toNat < n)
  | .consoleread n _ _ => n = 0 || d.r ≠ d.w

def pass (d : Device) : DeviceLoop → Device × Option DeviceLoop
  | .pause _ _ => (d, none)
  | .consoleread 0 _ _ => (d, none)
  | .consoleread (n + 1) target copyout => d.readChar (n + 1) target copyout

theorem readChar_ticks (d : Device) (n target : Nat) (copyout : Nat → Bool) : (d.readChar n target copyout).1.ticks = d.ticks := by
  unfold readChar
  simp only
  repeat' split
  all_goals rfl

theorem pass_ticks (d : Device) (a : DeviceLoop) : (d.pass a).1.ticks = d.ticks := by
  cases a with
  | pause ticks0 n => rfl
  | consoleread n target copyout =>
    cases n with
    | zero => rfl
    | succ n => exact readChar_ticks d _ _ _

end Device

/-- `sys_pause` and `consoleread`. -/
def devices : Protocol Device DeviceLoop where
  start
    | .pause _ n, d => .pause d.ticks n
    | .consoleread n target copyout, _ => .consoleread n target copyout
  ready a d := d.ready a
  pass a d := d.pass a
  killable _ := true
  quiet a b d ha hb := by
    cases b with
    | pause ticks0 n =>
      rw [Device.ready, Device.pass_ticks]
      exact hb
    | consoleread n target copyout =>
      -- a reader waits only while the buffer is empty, and then no other reader takes from it
      simp only [Device.ready, Bool.or_eq_false_iff, decide_eq_false_iff_not, ne_eq, not_not] at hb
      cases a with
      | pause ticks0 k => simp [Device.ready, Device.pass, hb.1, hb.2]
      | consoleread k target' copyout' =>
        cases k with
        | zero => simp [Device.ready, Device.pass, hb.1, hb.2]
        | succ k =>
          simp [Device.ready, hb.2] at ha

end Xv6.Threads
