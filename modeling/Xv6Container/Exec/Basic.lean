import Xv6Container.Fs.Dir
import Xv6Container.Mem.Ram
import Xv6Container.Mem.Vm
import Xv6Container.Proc.System

/-!
# `exec`

`exec` of `kernel/exec.c` and `sys_exec` of `kernel/sysfile.c`, over the file system of `Fs.Basic`
and the memory of `Mem.Ram`.

The state of the caller is what `exec` reads and replaces: page table, size, trapframe and name.
The arguments of `exec` are strings without their NUL; the pages into which `sys_exec` reads them
are allocated and freed, and their bytes are the strings.
-/

namespace Xv6Container

open Function

/-- `MAXARG`. -/
abbrev MAXARG : ℕ := 32

/-- `struct proc` of the caller, as far as `exec` goes. -/
structure Caller where
  pagetable : ℕ
  /-- Size of process memory in bytes. -/
  sz : ℕ
  /-- The page of the trapframe. -/
  tf : ℕ
  /-- The words of the trapframe. -/
  regs : Trapframe
  name : CharArray

/-- What `exec` works on. -/
structure ExecState where
  fs : FsState
  ram : Ram
  proc : Caller
  /-- The page of trampoline code. -/
  trampoline : ℕ

/-- Code of `exec`. -/
abbrev ExecM := StateT ExecState (Except Stop)

/-- Run code that works on the file system. -/
def onFs {α : Type} : FsM α → ExecM α := zoom ExecState.fs fun s t => { s with fs := t }

/-- Run code that works on memory. -/
def onRam {α : Type} : RamM α → ExecM α := zoom ExecState.ram fun s m => { s with ram := m }

/-! ### The executable file -/

/-- `ELF_MAGIC`. -/
def ELF_MAGIC : ℕ := 0x464C457F

/-- `ELF_PROG_LOAD`. -/
def ELF_PROG_LOAD : ℕ := 1

/-- `sizeof(struct elfhdr)`. -/
abbrev ELFHDR : ℕ := 64

/-- `sizeof(struct proghdr)`. -/
abbrev PROGHDR : ℕ := 56

/-- `struct elfhdr`, as far as it is used. -/
structure Elfhdr where
  magic : ℕ
  entry : ℕ
  phoff : ℕ
  phnum : ℕ

/-- `struct proghdr`, as far as it is used. -/
structure Proghdr where
  type : ℕ
  off : ℕ
  vaddr : ℕ
  filesz : ℕ
  memsz : ℕ

/-- The ELF header in a buffer. -/
def getElfhdr (bytes : List UInt8) : Elfhdr where
  magic := getLE 4 (fun i => bytes.getD i 0) 0
  entry := getLE 8 (fun i => bytes.getD i 0) 24
  phoff := getLE 8 (fun i => bytes.getD i 0) 32
  phnum := getLE 2 (fun i => bytes.getD i 0) 56

/-- The program header in a buffer. -/
def getProghdr (bytes : List UInt8) : Proghdr where
  type := getLE 4 (fun i => bytes.getD i 0) 0
  off := getLE 8 (fun i => bytes.getD i 0) 8
  vaddr := getLE 8 (fun i => bytes.getD i 0) 16
  filesz := getLE 8 (fun i => bytes.getD i 0) 32
  memsz := getLE 8 (fun i => bytes.getD i 0) 40

/-! ### Loading -/

/-- The loop of `loadseg` at offset `i` of the segment; `false` is -1.  The counter is a `uint`, so
a segment of almost `2 ^ 32` bytes is never done, and `fuel` runs out. -/
def loadsegLoop (pagetable va ip offset sz : ℕ) : (fuel i : ℕ) → ExecM Bool
  | 0, _ => throw .deadlock
  | fuel + 1, i =>
    if sz ≤ i then return true
    else do
      let pa ← onRam (Ram.onPhys (Phys.walkaddr pagetable ((va + i) % 2 ^ 64)))
      if pa = 0 then
        throw (.panic "loadseg: address should exist")
      else
        let n := min (sz - i) PGSIZE
        let (r, bytes) ← onFs (readi ip (fun _ => true) ((offset + i) % 2 ^ 32) n)
        onRam (modify (·.store pa 0 bytes))
        if r ≠ n then return false
        else loadsegLoop pagetable va ip offset sz fuel ((i + PGSIZE) % 2 ^ 32)

/-- `loadseg`; `false` is -1. -/
def loadseg (pagetable va ip offset sz : ℕ) : ExecM Bool :=
  if va % PGSIZE ≠ 0 then throw (.panic "loadseg: va must be page aligned")
  else loadsegLoop pagetable va ip offset sz (sz / PGSIZE + 2) 0

/-- The rest of a turn of the loop over the program headers, for a header that has passed the checks
of its sizes. -/
def loadSegment (pagetable ip : ℕ) (ph : Proghdr) (sz : ℕ) : ExecM (ℕ × Bool) := do
  let sz ← onRam (Ram.uvmalloc pagetable sz ((ph.vaddr + ph.memsz) % 2 ^ 64))
  if sz = 0 then return (sz, false)
  else if ph.vaddr % PGSIZE ≠ 0 then return (sz, false)
  else return (sz, ← loadseg pagetable ph.vaddr ip (ph.off % 2 ^ 32) (ph.filesz % 2 ^ 32))

/-- One turn of the loop of `exec` over the program headers: the new `sz`, and `false` for
`goto bad`. -/
def loadHeader (pagetable ip off sz : ℕ) : ExecM (ℕ × Bool) := do
  let (r, bytes) ← onFs (readi ip (fun _ => true) off PROGHDR)
  let ph := getProghdr bytes
  if r ≠ PROGHDR then return (sz, false)
  else if ph.type ≠ ELF_PROG_LOAD then return (sz, true)
  else if ph.memsz < ph.filesz then return (sz, false)
  else if (ph.vaddr + ph.memsz) % 2 ^ 64 < ph.vaddr then return (sz, false)
  else loadSegment pagetable ip ph sz

/-- The loop of `exec` over the program headers, with `n` headers left, the next at `off`. -/
def loadHeaders (pagetable ip : ℕ) : (n off sz : ℕ) → ExecM (ℕ × Bool)
  | 0, _, sz => return (sz, true)
  | n + 1, off, sz => do
    let (sz, ok) ← loadHeader pagetable ip off sz
    if ok then loadHeaders pagetable ip n ((off + PROGHDR) % 2 ^ 32) sz
    else return (sz, false)

/-- What follows the label `bad` of `exec`. -/
def execBad (pagetable : Option ℕ) (sz : ℕ) (ip : Option ℕ) : ExecM Unit := do
  match pagetable with
  | none => pure ()
  | some pagetable => onRam (Ram.onPhys (Vm.procFreepagetable pagetable sz))
  match ip with
  | none => pure ()
  | some ip => onFs do
    iunlockput ip
    endOp

/-- A program in memory. -/
structure Program where
  pagetable : ℕ
  sz : ℕ
  entry : ℕ

/-- `exec` from the headers to the stack: the guard page and the stack are allocated at the next
page boundary. -/
def execStack (pagetable entry sz : ℕ) : ExecM (Option Program) := do
  let sz := pgroundup sz
  let sz ← onRam (Ram.uvmalloc pagetable sz (sz + 2 * PGSIZE))
  if sz = 0 then
    execBad (some pagetable) sz none
    return none
  else
    onRam (Ram.onPhys (Phys.uvmclear pagetable (sz - 2 * PGSIZE)))
    return some ⟨pagetable, sz, entry⟩

/-- `exec` from the ELF header of the locked inode `ip` on: the page table and the segments. -/
def execSegments (ip : ℕ) (elf : Elfhdr) : ExecM (Option Program) := do
  let s ← get
  let pagetable ← onRam (Ram.onPhys (Phys.procPagetable s.trampoline s.proc.tf))
  let (sz, ok) ← loadHeaders pagetable ip elf.phnum (elf.phoff % 2 ^ 32) 0
  if ok then
    onFs do
      iunlockput ip
      endOp
    execStack pagetable elf.entry sz
  else
    execBad (some pagetable) sz (some ip)
    return none

/-- `exec` up to the stack; `none` is a return of -1. -/
def execLoad (path : CharArray) : ExecM (Option Program) := do
  onFs beginOp
  match ← onFs (namei path) with
  | none =>
    onFs endOp
    return none
  | some ip =>
    onFs (ilock ip)
    let (r, bytes) ← onFs (readi ip (fun _ => true) 0 ELFHDR)
    let elf := getElfhdr bytes
    if r ≠ ELFHDR then
      execBad none 0 (some ip)
      return none
    else if elf.magic ≠ ELF_MAGIC then
      execBad none 0 (some ip)
      return none
    else
      execSegments ip elf

/-! ### The arguments -/

/-- `a - b` in the arithmetic of `uint64`. -/
def sub64 (a b : ℕ) : ℕ := (a + (2 ^ 64 - b % 2 ^ 64)) % 2 ^ 64

/-- The bytes of a `uint64`. -/
def word64 (v : ℕ) : List UInt8 := (List.range 8).map fun i => UInt8.ofNat (v / 256 ^ i)

/-- Lower `sp` by `len`, to a multiple of 16. -/
def lowerSp (sp len : ℕ) : ℕ := sub64 sp len - sub64 sp len % 16

/-- The loop of `exec` over the arguments: `sp` and `ustack`, or `none` for `goto bad`. -/
def pushStrings (pagetable stackbase : ℕ) :
    List CharArray → (sp : ℕ) → (ustack : List ℕ) → RamM (Option (ℕ × List ℕ))
  | [], sp, ustack => return some (sp, ustack)
  | arg :: args, sp, ustack =>
    if MAXARG ≤ ustack.length then return none
    else
      let sp := lowerSp sp (arg.length + 1)
      if sp < stackbase then return none
      else do
        if ← Ram.copyout pagetable sp (arg ++ [0]) then
          pushStrings pagetable stackbase args sp (ustack ++ [sp])
        else return none

/-- The arguments go to the stack below `sz`: first the strings, then the array of pointers.  The
stack pointer, or `none` for `goto bad`. -/
def pushArgs (pagetable sz : ℕ) (args : List CharArray) : RamM (Option ℕ) := do
  let stackbase := sub64 sz PGSIZE
  match ← pushStrings pagetable stackbase args sz [] with
  | none => return none
  | some (sp, ustack) =>
    let sp := lowerSp sp ((ustack.length + 1) * 8)
    if sp < stackbase then return none
    else if ← Ram.copyout pagetable sp ((ustack ++ [0]).flatMap word64) then return some sp
    else return none

/-! ### The system call -/

/-- The index of `a1` among the words of a trapframe. -/
def tfA1 : ℕ := 15

/-- The part of a path after its last slash. -/
def lastElem (path : CharArray) : CharArray := ((str path).reverse.takeWhile (· ≠ slash)).reverse

/-- The caller after `exec`. -/
def Caller.install (p : Caller) (path : CharArray) (prog : Program) (sp : ℕ) : Caller where
  pagetable := prog.pagetable
  sz := prog.sz
  tf := p.tf
  regs := update (update (update p.regs tfA1 (.ofNat sp)) tfEpc (.ofNat prog.entry)) tfSp
    (.ofNat sp)
  name := safestrcpy p.name (lastElem path) 16

/-- `exec`. -/
def exec (path : CharArray) (args : List CharArray) : ExecM ℤ := do
  match ← execLoad path with
  | none => return -1
  | some prog =>
    match ← onRam (pushArgs prog.pagetable prog.sz args) with
    | none =>
      execBad (some prog.pagetable) prog.sz none
      return -1
    | some sp =>
      let p := (← get).proc
      modify fun s => { s with proc := p.install path prog sp }
      onRam (Ram.onPhys (Vm.procFreepagetable p.pagetable p.sz))
      return args.length

/-- `argraw`. -/
def argraw (n : ℕ) : ExecM ℕ := return ((← get).proc.regs (tfA0 + n)).toNat

/-- `fetchaddr`; `none` is -1. -/
def fetchaddr (addr : ℕ) : ExecM (Option ℕ) := do
  let p := (← get).proc
  if p.sz ≤ addr ∨ p.sz < (addr + 8) % 2 ^ 64 then return none
  else return (← onRam (Ram.copyin p.pagetable addr 8)).map fun bytes =>
    getLE 8 (fun i => bytes.getD i 0) 0

/-- `fetchstr`: the string, or `none` for -1. -/
def fetchstr (addr max : ℕ) : ExecM (Option CharArray) := do
  let p := (← get).proc
  onRam (Ram.copyinstr p.pagetable addr max)

/-- `argstr`. -/
def argstr (n max : ℕ) : ExecM (Option CharArray) := do
  fetchstr (← argraw n) max

/-- The loop of `sys_exec` over the arguments, with `fuel` entries of `argv` left: the pages that it
has allocated, and the strings in them, or `none` for `goto bad`. -/
def fetchArgs (uargv : ℕ) : (fuel i : ℕ) → ExecM (List ℕ × Option (List CharArray))
  | 0, _ => return ([], none)
  | fuel + 1, i => do
    match ← fetchaddr ((uargv + 8 * i) % 2 ^ 64) with
    | none => return ([], none)
    | some 0 => return ([], some [])
    | some uarg =>
      match ← onRam (Ram.onPhys Phys.kalloc) with
      | none => throw (.panic "sys_exec kalloc")
      | some page =>
        match ← fetchstr uarg PGSIZE with
        | none => return ([page], none)
        | some arg =>
          let (pages, args) ← fetchArgs uargv fuel (i + 1)
          return (page :: pages, args.map (arg :: ·))

/-- The loops that free the pages of `argv`. -/
def freeArgs (pages : List ℕ) : ExecM Unit :=
  pages.forM fun page => onRam (Ram.onPhys (Phys.kfree page))

/-- `sys_exec`. -/
def sysExec : ExecM ℤ := do
  let _ ← argstr 1 MAXPATH
  match ← argstr 0 MAXPATH with
  | none => return -1
  | some path =>
    let uargv ← argraw 1
    let (pages, args) ← fetchArgs uargv MAXARG 0
    match args with
    | none =>
      freeArgs pages
      return -1
    | some args =>
      let ret ← exec path args
      freeArgs pages
      return ret

end Xv6Container
