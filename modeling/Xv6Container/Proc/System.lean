import Xv6Container.Machine.Basic
import Xv6Container.Proc.Control

/-!
# The process system

The whole process subsystem as a guarded machine: a scheduler dispatches a process, a process on
a CPU makes a call, an interrupt wakes the sleepers on a channel.  Runs start from the tables that
`procinit` and `userinit` set up.

The pages that processes take and give back are not part of these steps; `ForkMem` says how the
allocations of a `fork` went.
-/

namespace Xv6Container

open Function

/-- The instructions of the first user program. -/
def initcode : List UInt8 :=
  [0x17, 0x05, 0x00, 0x00, 0x13, 0x05, 0x05, 0x02,
   0x97, 0x05, 0x00, 0x00, 0x93, 0x85, 0x05, 0x02,
   0x9d, 0x48, 0x73, 0x00, 0x00, 0x00, 0x89, 0x48,
   0x73, 0x00, 0x00, 0x00, 0xef, 0xf0, 0xbf, 0xff,
   0x2f, 0x69, 0x6e, 0x69, 0x74, 0x00, 0x00, 0x01,
   0x20, 0x00, 0x00, 0x00, 0x00, 0x00, 0x00, 0x00,
   0x00, 0x00, 0x00]

/-- `uvminit`: one page holding `src`. -/
def uvminit (src : List UInt8) : UserMem := fun a =>
  if a < PGSIZE then some (src.getD a 0) else none

/-- The index of `epc` among the words of a trapframe. -/
def tfEpc : ℕ := 3

/-- The index of `sp` among the words of a trapframe. -/
def tfSp : ℕ := 6

/-- A slot of the process table before its first use. -/
def Proc.zero : Proc where
  state := .unused
  parent := none
  chan := none
  killed := false
  xstate := 0
  pid := 0
  sz := 0
  pagetable := none
  tf := none
  ofile := fun _ => none
  cwd := none
  name := List.replicate 16 0
  strace := 0
  container := none
  vpid := 0

/-- A container as `procinit` leaves it. -/
@[simp]
def Container.init : Container where
  name := List.replicate 16 0
  root := none
  rootDir := List.replicate MAXPATH 0
  nextvpid := 1
  maxproc := 5
  memused := 0
  memlimit := 0
  diskused := 0
  disklimit := 0
  state := .cunused

/-- The tables after `procinit`, with the pages of `free` left. -/
def Kernel.procinit (free : List ℕ) (kernelEnd : ℕ) : Kernel where
  proc := fun _ => Proc.zero
  containers := fun _ => Container.init
  cpus := fun _ => none
  nextpid := 1
  initproc := 0
  started := false
  freelist := free
  kernelEnd := kernelEnd

/-- `userinit`.  In the empty inode cache, the root directory takes the first entry. -/
def Kernel.userinit (s : Kernel) : Except Stop Kernel := do
  let (p, s) ← s.allocproc .ok
  match p with
  | none => throw .fault
  | some p =>
    let s := { s with initproc := p }
    let s := s.modifyProc p fun q =>
      { q with
        pagetable := some (uvminit initcode)
        sz := PGSIZE
        tf := q.tf.map fun tf => update (update tf tfEpc 0) tfSp (.ofNat PGSIZE)
        name := safestrcpy q.name (chars "initcode") 16
        state := .runnable }
    let (vpid, s) := s.allocvpid root
    let s := s.modifyProc p fun q => { q with vpid := vpid }
    return s.cinit p (chars "root") (chars "/") NPROC 256 256 (some 0)

/-- The tables when the scheduler starts. -/
def boot (free : List ℕ) (kernelEnd : ℕ) : Except Stop Kernel :=
  (Kernel.procinit free kernelEnd).userinit

/-- The first process after `userinit`. -/
def initProc : Proc :=
  { Proc.zero with
    state := .runnable
    pid := 1
    sz := PGSIZE
    pagetable := some (uvminit initcode)
    tf := some (update (update (fun _ => Kernel.kallocFill) tfEpc 0) tfSp (.ofNat PGSIZE))
    cwd := some 0
    name := safestrcpy (List.replicate 16 0) (chars "initcode") 16
    container := some root
    vpid := 2 }

/-- The root container after `userinit`. -/
def rootCont : Container :=
  { Container.init with
    name := strncpy (List.replicate 16 0) (chars "root") 16
    root := some 0
    rootDir := strncpy (List.replicate MAXPATH 0) (chars "/") 1
    nextvpid := 3
    maxproc := NPROC
    memlimit := 256
    disklimit := 256
    state := .crunning }

theorem boot_eq_ok {free : List ℕ} {kernelEnd : ℕ} {s : Kernel} (h : boot free kernelEnd = .ok s) :
    s = { Kernel.procinit free kernelEnd with
      proc := update (fun _ => Proc.zero) 0 initProc
      containers := update (fun _ => Container.init) root rootCont
      nextpid := 2
      started := true } := by
  cases h
  ext1
  case proc =>
    funext ⟨i, _⟩
    cases i <;> rfl
  case containers =>
    funext ⟨c, _⟩
    cases c <;> rfl
  all_goals rfl

/-- A call made by a running process. -/
inductive Call where
  | fork (mem : ForkMem)
  | exit (status : ℤ)
  | wait (copyFails : Bool)
  | sleep (chan : Chan)
  | yield
  | control (call : Control)

/-- The tables after a call by process `p`. -/
def Kernel.perform (s : Kernel) (p : Slot) : Call → Except Stop Kernel
  | .fork mem => (s.fork p mem).map Prod.snd
  | .exit status => s.exit p status
  | .wait copyFails => .ok (s.wait p copyFails).2
  | .sleep chan => .ok (s.sleep p chan)
  | .yield => .ok (s.yield p)
  | .control call => (s.control p call).map fun r => r.2.1

/-- A step of the system. -/
inductive Event where
  /-- The scheduler of CPU `k`, at container `c`, takes slot `q`. -/
  | dispatch (k : Fin NCPU) (c : Cont) (q : Slot)
  /-- Process `p`, on a CPU, makes a call. -/
  | call (p : Slot) (c : Call)
  /-- A call or an interrupt wakes all sleepers on `chan`. -/
  | wakeup (chan : Chan)

/-- **The process system.**  A call by a process that is on no CPU is impossible, and so is one
that stops the kernel. -/
def system : Machine Kernel Event where
  next s
    | .dispatch k c q => s.dispatch k c q
    | .call p c => if s.OnCpu p then (s.perform p c).toOption else none
    | .wakeup chan => some (s.wakeup chan)

theorem next_call_iff {s s' : Kernel} {p : Slot} {c : Call} :
    system.next s (.call p c) = some s' ↔ s.OnCpu p ∧ s.perform p c = .ok s' := by
  simp only [system]
  split <;> simp [toOption_eq_some, *]

end Xv6Container
