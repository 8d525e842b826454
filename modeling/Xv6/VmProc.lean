import Xv6.Vm

/-!
# The memory of processes

What `proc.c` and `exec.c` do with page tables: `proc_pagetable`, `proc_freepagetable`, and the part of `kexec` that has to do with memory.
The registers in a trapframe and the other fields of `struct proc` are left out. The file that `kexec` reads is its list of bytes.
-/

namespace Xv6.Vm

/-! ### Process page tables -/

/-- `proc_pagetable`, for a process with this trapframe. -/
def procPagetable (trapframe : Nat) : VmM (Option Nat) := do
  match ← uvmcreate with
  | none => pure none
  | some pagetable =>
    let trampoline := (← get).trampoline
    if ← mappages pagetable TRAMPOLINE PGSIZE trampoline (PTE_R ||| PTE_X) then
      if ← mappages pagetable TRAPFRAME PGSIZE trapframe (PTE_R ||| PTE_W) then pure (some pagetable)
      else
        uvmunmap pagetable TRAMPOLINE 1 false
        uvmfree pagetable 0
        pure none
    else
      uvmfree pagetable 0
      pure none

def procFreepagetable (pagetable sz : Nat) : VmM Unit := do
  uvmunmap pagetable TRAMPOLINE 1 false
  uvmunmap pagetable TRAPFRAME 1 false
  uvmfree pagetable sz

@[simps] def Mm.setSz (p : Mm) (sz : Nat) : Mm := { p with sz := sz }

/-! ### `exec.c` -/

def MAXARG : Nat := 32

def USERSTACK : Nat := 1

def ELF_MAGIC : Nat := 0x464C457F

def ELF_PROG_LOAD : Nat := 1

/-- `readi`: the bytes of the file that are read at `off`, at most `n`. -/
def readi (file : List Byte) (off n : Nat) : List Byte :=
  if file.length < off ∨ (off + n) % 2 ^ 32 < off then [] else (file.drop off).take n

/-- The little-endian number of `n` bytes at place `i`. -/
def field (b : List Byte) (i n : Nat) : Nat := ((b.drop i).take n).foldr (fun x acc => x.toNat + 256 * acc) 0

def flags2perm (flags : Nat) : Perm :=
  (if flags % 2 = 1 then PTE_X else ⟨false, false, false, false, false⟩) |||
    (if flags / 2 % 2 = 1 then PTE_W else ⟨false, false, false, false, false⟩)

/-- The loop of `loadseg`, with `n` pages to come. -/
def loadsegLoop (pagetable va : Nat) (file : List Byte) (offset sz : Nat) : Nat → Nat → VmM Bool
  | 0, _ => pure true
  | n + 1, i => do
    match ← walkaddr pagetable (va + i) with
    | none => throw .loadseg
    | some pa =>
      let m := min (sz - i) PGSIZE
      let b := readi file ((offset + i) % 2 ^ 32) m
      writeBytes pa 0 b
      if b.length ≠ m then pure false else loadsegLoop pagetable va file offset sz n (i + PGSIZE)

/-- `loadseg`: whether it succeeds. -/
def loadseg (pagetable va : Nat) (file : List Byte) (offset sz : Nat) : VmM Bool :=
  loadsegLoop pagetable va file offset sz ((sz + PGSIZE - 1) / PGSIZE) 0

/-- The loop of `kexec` over the program headers, with `n` of them to come: the size reached, and whether all of them were loaded. -/
def loadProgram (pagetable : Nat) (file : List Byte) : Nat → Nat → Nat → VmM (Nat × Bool)
  | 0, _, sz => pure (sz, true)
  | n + 1, off, sz => do
    let ph := readi file off 56
    let vaddr := field ph 16 8
    let filesz := field ph 32 8
    let memsz := field ph 40 8
    if ph.length ≠ 56 then pure (sz, false)
    else if field ph 0 4 ≠ ELF_PROG_LOAD then loadProgram pagetable file n ((off + 56) % 2 ^ 32) sz
    else if memsz < filesz then pure (sz, false)
    else if u64 (vaddr + memsz) < vaddr then pure (sz, false)
    else if vaddr % PGSIZE ≠ 0 then pure (sz, false)
    else
      let sz1 ← uvmalloc pagetable sz (u64 (vaddr + memsz)) (flags2perm (field ph 4 4))
      if sz1 = 0 then pure (sz, false)
      else if ← loadseg pagetable vaddr file (field ph 8 8 % 2 ^ 32) (filesz % 2 ^ 32) then
        loadProgram pagetable file n ((off + 56) % 2 ^ 32) sz1
      else pure (sz1, false)

/-- `sp -= n; sp -= sp % 16;` -/
def push (sp n : Nat) : Nat := u64 (sp - n) - u64 (sp - n) % 16

/-- The loop of `kexec` that copies the arguments to the new stack, and the copy of their addresses after it: `argc` and `sp`. -/
def pushArgs (p : Mm) (pagetable stackbase : Nat) : List (List Byte) → Nat → List Nat → VmM (Option (Nat × Nat))
  | [], sp, ustack => do
    let sp := push sp ((ustack.length + 1) * 8)
    if sp < stackbase then pure none
    else
      let bytes := (ustack ++ [0]).flatMap fun a => (List.range 8).map fun k => BitVec.ofNat 8 (a / 256 ^ k)
      if ← copyout p pagetable sp bytes then pure (some (ustack.length, sp)) else pure none
  | arg :: rest, sp, ustack =>
    if MAXARG ≤ ustack.length then pure none
    else do
      let sp := push sp (arg.length + 1)
      if sp < stackbase then pure none
      else if ← copyout p pagetable sp (arg ++ [0]) then pushArgs p pagetable stackbase rest sp (ustack ++ [sp])
      else pure none

/-- `kexec` from the ELF header up to the user stack: the new page table and its size, with the guard page and the stack at the end. Where
it fails, the page table has been freed. -/
def execStack (p : Mm) (file : List Byte) : VmM (Option (Nat × Nat)) :=
  let elf := readi file 0 64
  if elf.length ≠ 64 then pure none
  else if field elf 0 4 ≠ ELF_MAGIC then pure none
  else do
    match ← procPagetable p.trapframe with
    | none => pure none
    | some pagetable =>
      let (sz, ok) ← loadProgram pagetable file (field elf 56 2) (field elf 32 8 % 2 ^ 32) 0
      if ok = false then
        procFreepagetable pagetable sz
        pure none
      else
        let sz := pgroundup sz
        let sz1 ← uvmalloc pagetable sz (sz + (USERSTACK + 1) * PGSIZE) PTE_W
        if sz1 = 0 then
          procFreepagetable pagetable sz
          pure none
        else
          uvmclear pagetable (sz1 - (USERSTACK + 1) * PGSIZE)
          pure (some (pagetable, sz1))

/-- `kexec`, with the file that `namei` finds and the argument strings: the process afterwards, `argc`, and `sp`, which is also `a1`, if it
succeeds. -/
def kexec (p : Mm) (file : Option (List Byte)) (argv : List (List Byte)) : VmM (Option (Mm × Nat × Nat)) :=
  match file with
  | none => pure none
  | some file => do
    match ← execStack p file with
    | none => pure none
    | some (pagetable, sz) =>
      match ← pushArgs p pagetable (sz - USERSTACK * PGSIZE) argv sz [] with
      | none =>
        procFreepagetable pagetable sz
        pure none
      | some (argc, sp) =>
        procFreepagetable p.pagetable p.sz
        pure (some (⟨sz, pagetable, p.trapframe⟩, argc, sp))

end Xv6.Vm
