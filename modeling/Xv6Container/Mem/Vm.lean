import Xv6Container.Machine.Basic
import Xv6Container.Mem.PageTable

/-!
# Processes and the pages they use

The system calls that allocate and free physical pages: `fork`, `exec`, `sbrk`, `exit`, `wait`,
`pipe` and `close` (`kernel/proc.c`, `kernel/exec.c`, `kernel/file.c`, `kernel/pipe.c`), over the
page tables of `Mem.PageTable`.  Every call is performed as a whole.

What the calls learn from elsewhere is an argument: the program headers that `exec` reads and
whether reading them and pushing the arguments succeeds, whether the container has reached
`maxproc`, and whether a `copyout` to the caller's memory fails.
-/

namespace Xv6Container

open Function

/-- `struct proc`, as far as its pages and files go. -/
structure VmProc where
  state : ProcState
  parent : Option Slot
  /-- Size of process memory in bytes. -/
  sz : ℕ
  /-- The trapframe page. -/
  tf : Option ℕ
  /-- The root page-table page. -/
  pagetable : Option ℕ
  ofile : Fin NOFILE → Option (Fin NFILE)

/-- What an open file is: `type`, `pipe` and `writable` of `struct file`. -/
inductive FileType where
  | none
  | pipe (pi : ℕ) (writable : Bool)
  /-- `FD_INODE` or `FD_DEVICE`. -/
  | inode
  deriving DecidableEq, Repr

/-- `struct file`. -/
structure VmFile where
  ref : ℕ
  type : FileType

/-- `readopen` and `writeopen` of `struct pipe`. -/
structure PipeEnds where
  readopen : Bool
  writeopen : Bool

/-- The kernel as far as physical pages go. -/
structure Vm where
  phys : Phys
  proc : Slot → VmProc
  file : Fin NFILE → VmFile
  /-- The pipe in each page that is used as one. -/
  pipe : ℕ → PipeEnds
  initproc : Slot
  /-- The page of trampoline code. -/
  trampoline : ℕ

/-- Kernel code over processes and pages. -/
abbrev VmM := StateT Vm (Except Stop)

/-- A program header that `exec` meets. -/
structure Phdr where
  /-- `readi` returns the whole header. -/
  read : Bool
  /-- `type == ELF_PROG_LOAD`. -/
  load : Bool
  vaddr : UInt64
  memsz : UInt64
  filesz : UInt64
  /-- `loadseg` finds the segment in the file. -/
  loaded : Bool

/-- What `exec` finds under its path. -/
inductive ExecFile where
  /-- No file, or no ELF header. -/
  | missing
  /-- The program headers, and whether the arguments fit on the new stack. -/
  | elf (phs : List Phdr) (args : Bool)

/-- A system call; the arguments are what it learns from elsewhere. -/
inductive VmOp where
  | fork (full : Bool)
  | exec (file : ExecFile)
  | sbrk (n : ℤ)
  | exit
  | wait (copyFails : Bool)
  | pipe (copyFails : Bool)
  | close (fd : Fin NOFILE)

/-- The end of the pipe that `writable` selects is open. -/
def PipeEnds.isOpen (e : PipeEnds) (writable : Bool) : Bool :=
  if writable then e.writeopen else e.readopen

/-- Close the end of the pipe that `writable` selects. -/
def PipeEnds.close (e : PipeEnds) (writable : Bool) : PipeEnds :=
  if writable then { e with writeopen := false } else { e with readopen := false }

namespace Vm

/-- Run code that works on physical memory. -/
def onPhys {α : Type} (m : PhysM α) : VmM α := fun s => do
  let (a, φ) ← m s.phys
  return (a, { s with phys := φ })

/-- Change process `p`. -/
@[simps -fullyApplied]
def setProc (s : Vm) (p : Slot) (f : VmProc → VmProc) : Vm :=
  { s with proc := update s.proc p (f (s.proc p)) }

/-- Change file `f`. -/
@[simps -fullyApplied]
def setFile (s : Vm) (f : Fin NFILE) (g : VmFile → VmFile) : Vm :=
  { s with file := update s.file f (g (s.file f)) }

/-! ### Page tables of processes -/

/-- `proc_pagetable`. -/
def procPagetable (p : Slot) : VmM ℕ := do
  let s ← get
  onPhys (Phys.procPagetable s.trampoline ((s.proc p).tf.getD 0))

/-- `proc_freepagetable`. -/
def procFreepagetable (pagetable sz : ℕ) : PhysM Unit := do
  Phys.uvmunmap pagetable TRAMPOLINE PGSIZE false
  Phys.uvmunmap pagetable TRAPFRAME PGSIZE false
  if 0 < sz then
    Phys.uvmfree pagetable sz

/-- `allocproc`: the first unused slot, with a trapframe and an empty page table. -/
def allocproc : VmM (Option Slot) := do
  let s ← get
  match (List.finRange NPROC).find? fun p => (s.proc p).state = .unused with
  | none => return none
  | some p =>
    let tf ← onPhys Phys.kalloc
    modify (·.setProc p fun q => { q with tf := tf })
    if tf.isNone then
      return none
    let pagetable ← procPagetable p
    modify (·.setProc p fun q => { q with pagetable := some pagetable })
    return some p

/-- `if(p->tf) kfree(p->tf)`. -/
def freeTrapframe (p : Slot) : VmM Unit := do
  match ((← get).proc p).tf with
  | none => return ()
  | some tf => onPhys (Phys.kfree tf)

/-- `if(p->pagetable) proc_freepagetable(p->pagetable, p->sz)`. -/
def freePagetable (p : Slot) : VmM Unit := do
  let s ← get
  match (s.proc p).pagetable with
  | none => return ()
  | some pagetable => onPhys (procFreepagetable pagetable (s.proc p).sz)

/-- `freeproc`; the open files stay as they are. -/
def freeproc (p : Slot) : VmM Unit := do
  freeTrapframe p
  modify (·.setProc p fun q => { q with tf := none })
  freePagetable p
  modify (·.setProc p fun q =>
    { q with pagetable := none, sz := 0, parent := none, state := .unused })

/-- The page table of a process that uses it. -/
def pagetableOf (p : Slot) : VmM ℕ := do
  match ((← get).proc p).pagetable with
  | none => throw .fault
  | some pagetable => return pagetable

/-! ### Files -/

/-- `filealloc`. -/
def filealloc : VmM (Option (Fin NFILE)) := do
  let s ← get
  match (List.finRange NFILE).find? fun f => (s.file f).ref = 0 with
  | none => return none
  | some f =>
    modify (·.setFile f fun g => { g with ref := 1 })
    return some f

/-- `filedup`. -/
def filedup (f : Fin NFILE) : VmM Unit := do
  if ((← get).file f).ref < 1 then
    throw (.panic "filedup")
  modify (·.setFile f fun g => { g with ref := g.ref + 1 })

/-- `pipeclose`. -/
def pipeclose (pi : ℕ) (writable : Bool) : VmM Unit := do
  modify fun s => { s with pipe := update s.pipe pi ((s.pipe pi).close writable) }
  let e := (← get).pipe pi
  if !e.readopen && !e.writeopen then
    onPhys (Phys.kfree pi)

/-- `fileclose`; the inode of a file that is not a pipe is left out. -/
def fileclose (f : Fin NFILE) : VmM Unit := do
  let ff := (← get).file f
  if ff.ref < 1 then
    throw (.panic "fileclose")
  modify (·.setFile f fun g => { g with ref := g.ref - 1 })
  if 0 < ff.ref - 1 then
    return ()
  modify (·.setFile f fun _ => ⟨0, .none⟩)
  match ff.type with
  | .pipe pi writable => pipeclose pi writable
  | _ => return ()

/-- `pipealloc`: the files of the read end and the write end. -/
def pipealloc : VmM (Option (Fin NFILE × Fin NFILE)) := do
  match ← filealloc with
  | none => return none
  | some f0 =>
    match ← filealloc with
    | none =>
      fileclose f0
      return none
    | some f1 =>
      match ← onPhys Phys.kalloc with
      | none =>
        fileclose f0
        fileclose f1
        return none
      | some pi =>
        modify fun s => { s with pipe := update s.pipe pi ⟨true, true⟩ }
        modify (·.setFile f0 fun g => { g with type := .pipe pi false })
        modify (·.setFile f1 fun g => { g with type := .pipe pi true })
        return some (f0, f1)

/-- `fdalloc`. -/
def fdalloc (p : Slot) (f : Fin NFILE) : VmM (Option (Fin NOFILE)) := do
  let s ← get
  match (List.finRange NOFILE).find? fun fd => ((s.proc p).ofile fd).isNone with
  | none => return none
  | some fd =>
    modify (·.setProc p fun q => { q with ofile := update q.ofile fd (some f) })
    return some fd

/-- `p->ofile[fd] = 0`. -/
def clearFd (p : Slot) (fd : Fin NOFILE) : VmM Unit :=
  modify (·.setProc p fun q => { q with ofile := update q.ofile fd none })

/-! ### System calls -/

/-- `growproc`; `sz` is a `uint`, so sizes are computed modulo `2 ^ 32`.  `false` is -1. -/
def growproc (p : Slot) (n : ℤ) : VmM Bool := do
  let pagetable ← pagetableOf p
  let sz := ((← get).proc p).sz % 2 ^ 32
  let newsz := (((sz : ℤ) + n) % 2 ^ 32).toNat
  if 0 < n then
    let sz ← onPhys (Phys.uvmalloc pagetable sz newsz)
    if sz % 2 ^ 32 = 0 then
      return false
    modify (·.setProc p fun q => { q with sz := sz % 2 ^ 32 })
  else if n < 0 then
    let sz ← onPhys (Phys.uvmdealloc pagetable sz newsz)
    modify (·.setProc p fun q => { q with sz := sz % 2 ^ 32 })
  else
    modify (·.setProc p fun q => { q with sz := sz })
  return true

/-- The child `np` gets the open file `fd` of `p`. -/
def dupFd (p np : Slot) (fd : Fin NOFILE) : VmM Unit := do
  match ((← get).proc p).ofile fd with
  | none => return ()
  | some f =>
    filedup f
    modify (·.setProc np fun q => { q with ofile := update q.ofile fd (some f) })

/-- `fork`: the slot of the child, or `none` for -1.  `full` says that the container has reached
`maxproc`. -/
def fork (p : Slot) (full : Bool) : VmM (Option Slot) := do
  match ← allocproc with
  | none => return none
  | some np =>
    let old ← pagetableOf p
    let new ← pagetableOf np
    if !(← onPhys (Phys.uvmcopy old new ((← get).proc p).sz)) then
      freeproc np
      return none
    modify fun s => s.setProc np fun q => { q with sz := (s.proc p).sz, parent := some p }
    (List.finRange NOFILE).forM (dupFd p np)
    modify (·.setProc np fun q => { q with state := .runnable })
    if full then
      freeproc np
      return none
    return some np

/-- The loop of `exec` over the program headers: whether all is well, and `sz`. -/
def loadSegments (pagetable : ℕ) : List Phdr → ℕ → PhysM (Bool × ℕ)
  | [], sz => return (true, sz)
  | ph :: phs, sz => do
    if !ph.read then
      return (false, sz)
    if !ph.load then
      loadSegments pagetable phs sz
    else if ph.memsz < ph.filesz then
      return (false, sz)
    else if ph.vaddr + ph.memsz < ph.vaddr then
      return (false, sz)
    else
      let sz ← Phys.uvmalloc pagetable sz (ph.vaddr + ph.memsz).toNat
      if sz = 0 then
        return (false, sz)
      else if ph.vaddr.toNat % PGSIZE ≠ 0 then
        return (false, sz)
      else if !ph.loaded then
        return (false, sz)
      else
        loadSegments pagetable phs sz

/-- The new memory of `exec`, in the page table `pagetable`: segments, guard page and stack. -/
def loadImage (pagetable : ℕ) (phs : List Phdr) (args : Bool) : PhysM (Bool × ℕ) := do
  let (ok, sz) ← loadSegments pagetable phs 0
  if !ok then
    return (false, sz)
  let sz := pgroundup sz
  let sz ← Phys.uvmalloc pagetable sz (sz + 2 * PGSIZE)
  if sz = 0 then
    return (false, sz)
  Phys.uvmclear pagetable (sz - 2 * PGSIZE)
  return (args, sz)

/-- `exec`; `false` is -1. -/
def exec (p : Slot) : ExecFile → VmM Bool
  | .missing => return false
  | .elf phs args => do
    let pagetable ← procPagetable p
    let oldsz := ((← get).proc p).sz
    let (ok, sz) ← onPhys (loadImage pagetable phs args)
    if !ok then
      onPhys (procFreepagetable pagetable sz)
      return false
    let oldpagetable ← pagetableOf p
    modify (·.setProc p fun q => { q with pagetable := some pagetable, sz := sz })
    onPhys (procFreepagetable oldpagetable oldsz)
    return true

/-- `exit` closes the file `fd`. -/
def closeFd (p : Slot) (fd : Fin NOFILE) : VmM Unit := do
  match ((← get).proc p).ofile fd with
  | none => return ()
  | some f =>
    fileclose f
    clearFd p fd

/-- `reparent`. -/
def reparent (s : Vm) (p : Slot) : Vm :=
  { s with proc := fun pp =>
      if (s.proc pp).parent = some p then { s.proc pp with parent := some s.initproc }
      else s.proc pp }

/-- `exit`. -/
def exit (p : Slot) : VmM Unit := do
  if p = (← get).initproc then
    throw (.panic "init exiting")
  (List.finRange NOFILE).forM (closeFd p)
  modify (·.reparent p)
  modify (·.setProc p fun q => { q with state := .zombie })

/-- `wait`, when it does not sleep: the slot of the child that was reaped. -/
def wait (p : Slot) (copyFails : Bool) : VmM (Option Slot) := do
  let s ← get
  match (List.finRange NPROC).find? fun np =>
      (s.proc np).parent = some p && (s.proc np).state = .zombie with
  | none => return none
  | some np =>
    if copyFails then
      return none
    freeproc np
    return some np

/-- `sys_pipe`; `false` is -1. -/
def sysPipe (p : Slot) (copyFails : Bool) : VmM Bool := do
  match ← pipealloc with
  | none => return false
  | some (rf, wf) =>
    match ← fdalloc p rf with
    | none =>
      fileclose rf
      fileclose wf
      return false
    | some fd0 =>
      match ← fdalloc p wf with
      | none =>
        clearFd p fd0
        fileclose rf
        fileclose wf
        return false
      | some fd1 =>
        if copyFails then
          clearFd p fd0
          clearFd p fd1
          fileclose rf
          fileclose wf
          return false
        return true

/-- `sys_close`; `false` is -1. -/
def sysClose (p : Slot) (fd : Fin NOFILE) : VmM Bool := do
  match ((← get).proc p).ofile fd with
  | none => return false
  | some f =>
    clearFd p fd
    fileclose f
    return true

/-- The call `op` by process `p`. -/
def call (p : Slot) : VmOp → VmM Unit
  | .fork full => do let _ ← fork p full
  | .exec file => do let _ ← exec p file
  | .sbrk n => do let _ ← growproc p n
  | .exit => exit p
  | .wait copyFails => do let _ ← wait p copyFails
  | .pipe copyFails => do let _ ← sysPipe p copyFails
  | .close fd => do let _ ← sysClose p fd

/-- The process can make system calls. -/
def Live (s : Vm) (p : Slot) : Prop := (s.proc p).state ≠ .unused ∧ (s.proc p).state ≠ .zombie

instance (s : Vm) (p : Slot) : Decidable (s.Live p) := inferInstanceAs (Decidable (_ ∧ _))

/-- The state in which `m` leaves `s`, unless the kernel stops. -/
def after {α : Type} (m : VmM α) (s : Vm) : Option Vm := (m.run s).toOption.map Prod.snd

/-- System calls of live processes, in any order; a call that panics is not a step. -/
def machine : Machine Vm (Slot × VmOp) where
  next s l := if s.Live l.1 then after (call l.1 l.2) s else none

/-! ### The first process -/

/-- `uvminit`, in the page table of `p`: whether `mappages` found its tables, which the code does
not look at. -/
def uvminit (pagetable : ℕ) : PhysM Bool := do
  match ← Phys.kalloc with
  | none => throw .fault
  | some mem =>
    modify (·.memset mem 0)
    Phys.mappages pagetable 0 PGSIZE mem ⟨true, true, true, true⟩

/-- `userinit`: the result of `uvminit`. -/
def userinit : VmM Bool := do
  match ← allocproc with
  | none => throw .fault
  | some p =>
    modify fun s => { s with initproc := p }
    let ok ← onPhys (uvminit (← pagetableOf p))
    modify (·.setProc p fun q => { q with sz := PGSIZE, state := .runnable })
    return ok

end Vm

end Xv6Container
