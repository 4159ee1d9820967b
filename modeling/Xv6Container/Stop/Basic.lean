import Xv6Container.Data.Tally
import Xv6Container.Proc.System

/-!
# What processes hold in the kernel

The process system of `Xv6Container.system` together with the counters of the resources that its
processes hold: the open files (`ftable`), the references to entries of the inode cache, the
sleep-locks of inodes and buffers, and the operations that the log counts as outstanding.

* A process may be stopped between any two steps.  A step is a call of one of the functions below;
  a system call makes several of them, and may sleep in between.
* `Holding` is what a process has got and not given back in the middle of a system call.
* Which free descriptor, file or entry of the inode cache a call takes is up to the event.  What is
  in the files does not matter here, nor how long `begin_op` and `acquiresleep` wait.
* `exit` closes the files one by one and leaves the current directory, in transactions;
  the event `exit` is what it does after that.
-/

namespace Xv6Container

open Function

/-- A sleep-lock, of an entry of the inode cache or of a buffer. -/
inductive SleepLock where
  | inode (i : ℕ)
  | buf (b : ℕ)
  deriving DecidableEq

/-- What a process holds in the middle of a system call. -/
structure Holding where
  /-- It is between `begin_op` and `end_op`. -/
  op : Bool
  /-- The inodes that local variables of the system call refer to. -/
  inodes : List ℕ
  locks : List SleepLock
  deriving DecidableEq

/-- Nothing is held. -/
@[simp]
def Holding.nothing : Holding := ⟨false, [], []⟩

/-- `struct file`: its reference count and its inode, which a pipe does not have. -/
structure FileEntry where
  ref : ℤ
  ip : Option ℕ

/-- The process system and the resources. -/
structure Resources where
  kern : Kernel
  holding : Slot → Holding
  /-- `ftable.file`. -/
  file : ℕ → FileEntry
  /-- `icache.inode[i].ref`. -/
  iref : ℕ → ℤ
  /-- The process that holds a sleep-lock. -/
  holder : SleepLock → Option Slot
  /-- `log.outstanding`. -/
  outstanding : ℤ
  /-- The references that nobody has any more: `cinit` overwrites `p->cwd`. -/
  lost : ℕ → ℤ

/-- A process that is in use and has not exited. -/
def Proc.Live (q : Proc) : Prop := q.state ≠ .unused ∧ q.state ≠ .zombie

instance (q : Proc) : Decidable q.Live := inferInstanceAs (Decidable (_ ∧ _))

/-- The number of descriptors of a process that refer to the file `f`. -/
def Proc.fds (q : Proc) (f : ℕ) : ℕ := ∑ fd, if q.ofile fd = some f then 1 else 0

/-- `p->ofile[fd] = y`. -/
def Proc.setFd (q : Proc) (fd : Fin NOFILE) (y : Option ℕ) : Proc :=
  { q with ofile := update q.ofile fd y }

/-- What can happen next. -/
inductive ResEvent where
  /-- A step of the process system. -/
  | sys (e : Event)
  | beginOp (p : Slot)
  | endOp (p : Slot)
  /-- `iget` or `idup`. -/
  | iget (p : Slot) (i : ℕ)
  /-- `namex` starts with an absolute path. -/
  | namexRoot (p : Slot) (i : ℕ)
  | iput (p : Slot) (i : ℕ)
  | acquiresleep (p : Slot) (l : SleepLock)
  | releasesleep (p : Slot) (l : SleepLock)
  /-- `sys_open`, from `filealloc` on. -/
  | openFile (p : Slot) (fd : Fin NOFILE) (f i : ℕ)
  | pipe (p : Slot) (fd₀ fd₁ : Fin NOFILE) (f₀ f₁ : ℕ)
  | dup (p : Slot) (fd fd' : Fin NOFILE)
  /-- `sys_close`, or a turn of the loop of `exit`, up to the `iput`. -/
  | close (p : Slot) (fd : Fin NOFILE)
  /-- `sys_chdir`, the last part. -/
  | chdir (p : Slot) (i : ℕ)
  /-- `exit` leaves the current directory. -/
  | leaveCwd (p : Slot)

/-- The process that makes a call. -/
def ResEvent.caller : ResEvent → Option Slot
  | .sys _ => none
  | .beginOp p | .endOp p | .iget p _ | .namexRoot p _ | .iput p _ | .acquiresleep p _
  | .releasesleep p _ | .openFile p _ _ _ | .pipe p _ _ _ _ | .dup p _ _ | .close p _ | .chdir p _
  | .leaveCwd p => some p

namespace Resources

variable (s : Resources)

/-- Change what process `p` holds. -/
def hold (p : Slot) (f : Holding → Holding) : Resources :=
  { s with holding := update s.holding p (f (s.holding p)) }

/-- Change the process in slot `p`. -/
def onProc (p : Slot) (f : Proc → Proc) : Resources := { s with kern := s.kern.modifyProc p f }

/-- Add `n` to the reference count of an inode. -/
def addRef (i : ℕ) (n : ℤ) : Resources := { s with iref := update s.iref i (s.iref i + n) }

/-- Change an entry of the file table. -/
def setFile (f : ℕ) (x : FileEntry) : Resources := { s with file := update s.file f x }

/-- `begin_op`. -/
def beginOp (p : Slot) : Option Resources :=
  if (s.holding p).op = true then none
  else some { s.hold p fun h => { h with op := true } with outstanding := s.outstanding + 1 }

/-- `end_op`. -/
def endOp (p : Slot) : Option Resources :=
  if (s.holding p).op = true then
    some { s.hold p fun h => { h with op := false } with outstanding := s.outstanding - 1 }
  else none

/-- `iget`. -/
def iget (p : Slot) (i : ℕ) : Resources :=
  (s.addRef i 1).hold p fun h => { h with inodes := i :: h.inodes }

/-- The start of `namex` with an absolute path: the root directory, or in a container the inode that
`mycont()->root` points to. -/
def namexRoot (p : Slot) (i : ℕ) : Option Resources :=
  match s.kern.mycont p with
  | none => none
  | some c =>
    if isroot c then some (s.iget p i)
    else if (s.kern.containers c).root = some i then
      some (s.hold p fun h => { h with inodes := i :: h.inodes })
    else none

/-- `iput`. -/
def iput (p : Slot) (i : ℕ) : Option Resources :=
  if i ∈ (s.holding p).inodes then
    some ((s.addRef i (-1)).hold p fun h => { h with inodes := h.inodes.erase i })
  else none

/-- `acquiresleep`. -/
def acquiresleep (p : Slot) (l : SleepLock) : Option Resources :=
  if s.holder l = none then
    some { s.hold p fun h => { h with locks := l :: h.locks } with
      holder := update s.holder l (some p) }
  else none

/-- `releasesleep`. -/
def releasesleep (p : Slot) (l : SleepLock) : Option Resources :=
  if l ∈ (s.holding p).locks then
    some { s.hold p fun h => { h with locks := h.locks.erase l } with
      holder := update s.holder l none }
  else none

/-- `filealloc`, `fdalloc`, and the file gets the inode `ip`. -/
def newFile (p : Slot) (fd : Fin NOFILE) (f : ℕ) (ip : Option ℕ) : Option Resources :=
  if f < NFILE ∧ (s.file f).ref = 0 ∧ (s.kern.proc p).ofile fd = none then
    some ((s.setFile f ⟨1, ip⟩).onProc p fun q => q.setFd fd (some f))
  else none

/-- `sys_open`, from `filealloc` on: the reference to the inode goes over to the file. -/
def openFile (p : Slot) (fd : Fin NOFILE) (f i : ℕ) : Option Resources :=
  if i ∈ (s.holding p).inodes then
    (s.hold p fun h => { h with inodes := h.inodes.erase i }).newFile p fd f (some i)
  else none

/-- `sys_pipe`. -/
def pipe (p : Slot) (fd₀ fd₁ : Fin NOFILE) (f₀ f₁ : ℕ) : Option Resources :=
  (s.newFile p fd₀ f₀ none).bind fun s => s.newFile p fd₁ f₁ none

/-- `sys_dup`. -/
def dup (p : Slot) (fd fd' : Fin NOFILE) : Option Resources :=
  match (s.kern.proc p).ofile fd with
  | none => none
  | some f =>
    if (s.kern.proc p).ofile fd' = none ∧ 1 ≤ (s.file f).ref then
      some ((s.setFile f { s.file f with ref := (s.file f).ref + 1 }).onProc p fun q =>
        q.setFd fd' (some f))
    else none

/-- `fileclose`, up to the `iput` of the inode. -/
def fileclose (p : Slot) (f : ℕ) : Resources :=
  if (s.file f).ref = 1 then
    (s.setFile f ⟨0, none⟩).hold p fun h =>
      { h with inodes := (s.file f).ip.toList ++ h.inodes }
  else s.setFile f { s.file f with ref := (s.file f).ref - 1 }

/-- `sys_close`. -/
def close (p : Slot) (fd : Fin NOFILE) : Option Resources :=
  match (s.kern.proc p).ofile fd with
  | none => none
  | some f =>
    if 1 ≤ (s.file f).ref then
      some ((s.fileclose p f).onProc p fun q => q.setFd fd none)
    else none

/-- `iput(p->cwd)`, and `p->cwd` changes. -/
def setCwd (p : Slot) (ip : Option ℕ) : Option Resources :=
  match (s.kern.proc p).cwd with
  | none => none
  | some j => some ((s.addRef j (-1)).onProc p fun q => { q with cwd := ip })

/-- The last part of `sys_chdir`. -/
def chdir (p : Slot) (i : ℕ) : Option Resources :=
  if i ∈ (s.holding p).inodes then
    (s.hold p fun h => { h with inodes := h.inodes.erase i }).setCwd p (some i)
  else none

/-- `fork` has copied the open files and the current directory of `p`. -/
def dupAll (p : Slot) : Resources :=
  { s with
    file := fun f => { s.file f with ref := (s.file f).ref + (s.kern.proc p).fds f }
    iref := fun i => if (s.kern.proc p).cwd = some i then s.iref i + 1 else s.iref i }

/-- `fork`.  When the limit `maxproc` is hit, the files and the current directory have been
copied already. -/
def fork (p : Slot) (mem : ForkMem) : Option Resources :=
  match s.kern.fork p mem with
  | .error _ => none
  | .ok (o, k) =>
    match o, s.kern.freeSlot with
    | .child _, some i =>
      some { s.dupAll p with kern := k, holding := update s.holding i .nothing }
    | .limit, _ => some { s.dupAll p with kern := k }
    | _, _ => some { s with kern := k }

/-- `exit` of a process that has closed its files and left its directory. -/
def exit (p : Slot) (status : ℤ) : Option Resources :=
  if p = s.kern.initproc ∨ s.holding p ≠ .nothing ∨ (s.kern.proc p).cwd ≠ none ∨
      ∃ fd, (s.kern.proc p).ofile fd ≠ none then none
  else
    match ((s.kern.exitClose p).proc p).parent with
    | none => none
    | some par => some { s with kern := (s.kern.exitClose p).exitLeave p par status }

/-- `namei(root_dir)` in the new container `c` takes an absolute path from the old root of `c` on,
to which it takes no reference and gives one back. -/
def startsAt (c : Cont) (rootDir : CharArray) (i : ℕ) : Prop :=
  c ≠ root ∧ rootDir.headD 0 = slash ∧ (s.kern.containers c).root = some i

instance (c : Cont) (rootDir : CharArray) (i : ℕ) : Decidable (s.startsAt c rootDir i) :=
  inferInstanceAs (Decidable (_ ∧ _ ∧ _))

/-- `cinit`: `ip` is what `namei` returns, with a reference.  The reference of the old `p->cwd` is
not given back. -/
def cinit (p : Slot) (name rootDir : CharArray) (maxProc maxPage maxDisk : ℤ) (ip : Option ℕ) :
    Resources :=
  let k := s.kern.cinit p name rootDir maxProc maxPage maxDisk ip
  match s.kern.freeCont with
  | none => { s with kern := k }
  | some c =>
    { s with
      kern := k
      iref := fun i => s.iref i + (if ip = some i then 1 else 0) -
        if s.startsAt c rootDir i then 1 else 0
      lost := fun i => if (s.kern.proc p).cwd = some i then s.lost i + 1 else s.lost i }

/-- A step of the process system. -/
def sys : Event → Option Resources
  | .call p (.fork mem) => if s.kern.OnCpu p then s.fork p mem else none
  | .call p (.exit status) => if s.kern.OnCpu p then s.exit p status else none
  | .call p (.control (.cinit name rootDir maxProc maxPage maxDisk ip)) =>
    if s.kern.OnCpu p then some (s.cinit p name rootDir maxProc maxPage maxDisk ip) else none
  | e => (system.next s.kern e).map fun k => { s with kern := k }

/-- The state after an event that a process on a CPU makes. -/
def perform : ResEvent → Option Resources
  | .sys e => s.sys e
  | .beginOp p => s.beginOp p
  | .endOp p => s.endOp p
  | .iget p i => some (s.iget p i)
  | .namexRoot p i => s.namexRoot p i
  | .iput p i => s.iput p i
  | .acquiresleep p l => s.acquiresleep p l
  | .releasesleep p l => s.releasesleep p l
  | .openFile p fd f i => s.openFile p fd f i
  | .pipe p fd₀ fd₁ f₀ f₁ => s.pipe p fd₀ fd₁ f₀ f₁
  | .dup p fd fd' => s.dup p fd fd'
  | .close p fd => s.close p fd
  | .chdir p i => s.chdir p i
  | .leaveCwd p => s.setCwd p none

/-- After boot, `init` has the root directory. -/
def boot (kern : Kernel) : Resources where
  kern := kern
  holding := fun _ => .nothing
  file := fun _ => ⟨0, none⟩
  iref := fun i => if i = 0 then 1 else 0
  holder := fun _ => none
  outstanding := 0
  lost := fun _ => 0

/-- A step that meets these conditions keeps the books.  `fork` is not refused at `maxproc`,
`suspend` finds a live process, `cstop` finds a container whose processes have all exited, and
absolute paths are used in the root container only, also as the `root_dir` of `cinit`, which looks
it up in the new container. -/
def Careful (s : Resources) : ResEvent → Prop
  | .sys (.call p (.fork _)) => ∀ c i, s.kern.mycont p = some c → s.kern.freeSlot = some i →
      s.kern.numproc c + s.kern.stale i c < (s.kern.containers c).maxproc
  | .sys (.call _ (.control (.suspend pid _))) => ∀ q, s.kern.suspendTarget pid = some q →
      (s.kern.proc q).Live
  | .sys (.call p (.control (.cstop name))) => s.kern.mycont p = some root →
      ∀ c, s.kern.contNamed name = some c →
        ∀ q, (s.kern.proc q).container = some c → ¬(s.kern.proc q).Live
  | .sys (.call _ (.control (.cinit _ rootDir _ _ _ _))) => ∀ c, s.kern.freeCont = some c →
      c = root ∨ rootDir.headD 0 ≠ slash
  | .namexRoot p _ => s.kern.mycont p = some root
  | _ => True

instance (s : Resources) (e : ResEvent) : Decidable (Careful s e) := by
  unfold Careful
  split <;> infer_instance

end Resources

/-- The processes and what they hold. -/
def resources : Machine Resources ResEvent where
  next s e :=
    match e.caller with
    | some p => if s.kern.OnCpu p then s.perform e else none
    | none => s.perform e

end Xv6Container
