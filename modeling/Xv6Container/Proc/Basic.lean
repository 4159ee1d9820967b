import Xv6Container.Kernel.Param
import Xv6Container.Data.CString

/-!
# Processes and containers

The data of `kernel/proc.h` and the tables of `kernel/proc.c`.  Pointers into the tables are
indices: a `struct proc *` is a slot of `proc[NPROC]`, a `struct container *` an index into
`containers[NCONTS]` (`root` is index 0), and a null pointer is `none`.

A user address space is a partial map from user virtual addresses to bytes: `none` where
`walkaddr` finds no page that the user may access.
-/

namespace Xv6Container

/-- `enum procstate`. -/
inductive ProcState where
  | unused | sleeping | runnable | running | zombie | suspended
  deriving DecidableEq, Repr

/-- `enum containerstate`. -/
inductive ContainerState where
  | cunused | csuspended | crunning
  deriving DecidableEq, Repr

/-- A slot of `proc[NPROC]`. -/
abbrev Slot := Fin NPROC

/-- An index into `containers[NCONTS]`. -/
abbrev Cont := Fin NCONTS

/-- A sleep channel: the address of a process, or any other kernel address. -/
inductive Chan where
  | proc (p : Slot)
  | addr (a : ℕ)
  deriving DecidableEq, Repr

/-- `struct trapframe` as its 36 words. -/
abbrev Trapframe := ℕ → UInt64

/-- A user page table. -/
abbrev UserMem := ℕ → Option UInt8

/-- `struct proc`, without the lock, the kernel stack and the kernel context. -/
structure Proc where
  state : ProcState
  /-- Parent process. -/
  parent : Option Slot
  /-- If not null, sleeping on `chan`. -/
  chan : Option Chan
  killed : Bool
  /-- Exit status to be returned to the parent's `wait`. -/
  xstate : ℤ
  pid : ℤ
  /-- Size of process memory in bytes. -/
  sz : ℕ
  pagetable : Option UserMem
  tf : Option Trapframe
  /-- Open files, as indices into the file table. -/
  ofile : Fin NOFILE → Option ℕ
  /-- Current directory, as an index into the inode cache. -/
  cwd : Option ℕ
  name : CharArray
  strace : ℕ
  container : Option Cont
  vpid : ℤ

/-- `struct container`, without the locks. -/
structure Container where
  name : CharArray
  /-- The root directory, as an index into the inode cache. -/
  root : Option ℕ
  rootDir : CharArray
  nextvpid : ℤ
  maxproc : ℤ
  memused : ℤ
  memlimit : ℤ
  diskused : ℤ
  disklimit : ℤ
  state : ContainerState

/-- The kernel's process and container tables, its CPUs and its free pages. -/
@[ext] structure Kernel where
  proc : Slot → Proc
  containers : Cont → Container
  /-- `cpus[i].proc`, the process running on each CPU. -/
  cpus : Fin NCPU → Option Slot
  nextpid : ℤ
  initproc : Slot
  /-- Set by the first `cinit`; before, `myproc` and `mycont` return -1. -/
  started : Bool
  /-- `kmem.freelist`, as physical addresses. -/
  freelist : List ℕ
  /-- `end`, the first address after the kernel. -/
  kernelEnd : ℕ

/-- The root container. -/
def root : Cont := 0

/-- `isroot`. -/
def isroot (c : Cont) : Bool := c = root

namespace Kernel

variable (s : Kernel)

/-- Change the process in slot `i`. -/
@[simps -fullyApplied containers cpus initproc]
def modifyProc (i : Slot) (f : Proc → Proc) : Kernel :=
  { s with proc := Function.update s.proc i (f (s.proc i)) }

/-- Change the container `c`. -/
@[simps -fullyApplied proc cpus initproc]
def modifyCont (c : Cont) (f : Container → Container) : Kernel :=
  { s with containers := Function.update s.containers c (f (s.containers c)) }

/-- Process `p` is running on a CPU: it is the value of `myproc()` there. -/
def OnCpu (p : Slot) : Prop := ∃ k, s.cpus k = some p

instance (p : Slot) : Decidable (s.OnCpu p) := inferInstanceAs (Decidable (∃ _, _))

/-- `sched()`: process `p` gives its CPU back to the scheduler. -/
@[simps -fullyApplied proc containers]
def sched (p : Slot) : Kernel :=
  { s with cpus := fun k => if s.cpus k = some p then none else s.cpus k }

/-- The first slot that satisfies `P`, in table order. -/
def findProc (P : Proc → Bool) : Option Slot := (List.finRange NPROC).find? fun i => P (s.proc i)

/-- The first container that satisfies `P`, in table order. -/
def findCont (P : Container → Bool) : Option Cont :=
  (List.finRange NCONTS).find? fun c => P (s.containers c)

/-- `mycont()` of process `p`. -/
def mycont (p : Slot) : Option Cont := (s.proc p).container

/-- `numproc`: the number of slots in use that carry container `c`. -/
def numproc (c : Cont) : ℤ :=
  (List.finRange NPROC).countP fun i =>
    (s.proc i).state ≠ .unused ∧ (s.proc i).container = some c

variable {s}

@[simp] theorem modifyProc_proc_self (i : Slot) (f : Proc → Proc) :
    (s.modifyProc i f).proc i = f (s.proc i) := by
  simp [modifyProc]

@[simp] theorem modifyProc_proc_of_ne {i j : Slot} (f : Proc → Proc) (h : j ≠ i) :
    (s.modifyProc i f).proc j = s.proc j := by
  simp [modifyProc, h]

/-- What holds of the changed process and of all others holds of every slot. -/
@[elab_as_elim]
theorem modifyProc_ind {M : Slot → Proc → Prop} {i : Slot} {f : Proc → Proc}
    (hi : M i (f (s.proc i))) (h : ∀ j, j ≠ i → M j (s.proc j)) (j : Slot) :
    M j ((s.modifyProc i f).proc j) :=
  (Function.forall_update_iff s.proc M).2 ⟨hi, h⟩ j

@[simp] theorem modifyCont_containers_self (c : Cont) (f : Container → Container) :
    (s.modifyCont c f).containers c = f (s.containers c) := by
  simp [modifyCont]

variable {c : Cont} {P : Proc → Bool}

@[simp] theorem modifyCont_containers_of_ne {d : Cont} (f : Container → Container) (h : d ≠ c) :
    (s.modifyCont c f).containers d = s.containers d := by
  simp [modifyCont, h]

theorem onCpu_sched {p q : Slot} : (s.sched p).OnCpu q ↔ s.OnCpu q ∧ q ≠ p := by
  constructor
  · rintro ⟨k, hk⟩
    simp only [sched] at hk
    split_ifs at hk with hp
    exact ⟨⟨k, hk⟩, fun e => hp (e ▸ hk)⟩
  · rintro ⟨⟨k, hk⟩, hne⟩
    exact ⟨k, by simp [sched, hk, hne]⟩

theorem findProc_spec {i : Slot} (h : s.findProc P = some i) :
    P (s.proc i) = true :=
  List.find?_some (p := fun i => P (s.proc i)) h

theorem findProc_eq_none : s.findProc P = none ↔ ∀ i, P (s.proc i) = false := by
  simp [findProc, List.find?_eq_none]

theorem findCont_spec {P : Container → Bool} (h : s.findCont P = some c) :
    P (s.containers c) = true :=
  List.find?_some (p := fun c => P (s.containers c)) h

theorem findCont_eq_none {P : Container → Bool} :
    s.findCont P = none ↔ ∀ c, P (s.containers c) = false := by
  simp [findCont, List.find?_eq_none]

theorem find?_finRange_eq_some {n : ℕ} {P : Fin n → Bool} {i : Fin n} :
    (List.finRange n).find? P = some i ↔ P i = true ∧ ∀ j < i, P j = false := by
  rw [List.find?_eq_some_iff_getElem]
  constructor
  · rintro ⟨hi, k, hk, rfl, hlt⟩
    refine ⟨hi, fun j hj => ?_⟩
    have hj' : (j : ℕ) < k := by simpa [Fin.lt_def] using hj
    simpa using hlt j hj'
  · rintro ⟨hi, hlt⟩
    refine ⟨hi, i, by simp, by simp, fun j hj => ?_⟩
    have := hlt ⟨j, by omega⟩ hj
    simpa using this

theorem findProc_eq_some_iff {q : Slot} :
    s.findProc P = some q ↔ P (s.proc q) = true ∧ ∀ j < q, P (s.proc j) = false :=
  find?_finRange_eq_some

theorem findCont_eq_some_iff {P : Container → Bool} : s.findCont P = some c ↔
    P (s.containers c) = true ∧ ∀ d < c, P (s.containers d) = false :=
  find?_finRange_eq_some

end Kernel

end Xv6Container
