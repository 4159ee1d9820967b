import Xv6Container.Mem.Kalloc
import Xv6Container.Proc.Life

/-!
# The control system calls

`kill`, `suspend`, `psinfo`, `cinit`, `cinfo`, `cpause`, `cresume` and `cstop` of
`kernel/proc.c`, as functions from the tables and the calling process to the value returned, the
tables left behind and what is copied out of the kernel, each item with the slot of the process it
is about.  The entry of a process in `psinfo` has the name of another process as well, its parent.

The result of `namei` is an argument of `cinit`.  The file that `suspend` writes to enters only
through what it does with the data handed to it; the transactions and wakeups of the file layer
are not part of these tables.
-/

namespace Xv6Container

/-- `struct proc_info`. -/
structure ProcInfo where
  pid : ℤ
  vpid : ℤ
  mem : ℤ
  name : CharArray
  parent : CharArray
  container : CharArray
  deriving DecidableEq

/-- The bytes of a C `int`. -/
def intBytes (v : ℤ) : List UInt8 :=
  (List.range 4).map fun i => UInt8.ofNat ((v % 2 ^ 32).toNat / 256 ^ i)

/-- The bytes of a `struct proc_info`. -/
def ProcInfo.bytes (i : ProcInfo) : List UInt8 :=
  intBytes i.pid ++ intBytes i.vpid ++ intBytes i.mem ++ i.name ++ i.parent ++ i.container

/-- `struct container_info`.  The entries of `ptable` are kept as `ptableof` returns them, with the
slot of each; `records` are the bytes that stand in their place at the end. -/
structure ContainerInfo where
  name : CharArray
  state : CharArray
  currentContainer : Bool
  numproc : ℤ
  maxproc : ℤ
  memused : ℤ
  memlimit : ℤ
  diskused : ℤ
  disklimit : ℤ
  root : CharArray
  ptable : List (Slot × ProcInfo)
  records : List UInt8

/-- `struct resumehdr`. -/
structure ResumeHdr where
  memSz : ℤ
  codeSz : ℤ
  stackSz : ℤ
  strace : ℤ
  name : CharArray

/-- What leaves the kernel of a suspended process. -/
inductive Item where
  | hdr (h : ResumeHdr)
  | tf (t : Trapframe)
  /-- User memory. -/
  | mem (bytes : List UInt8)

/-- What a system call copies out. -/
inductive Output where
  /-- Items, each with the slot it was read from. -/
  | items (l : List (Slot × Item))
  /-- The process table, each entry with the slot of its process. -/
  | ptable (l : List (Slot × ProcInfo))
  /-- The container table. -/
  | ctable (l : List ContainerInfo)

/-- Copy out nothing. -/
def Output.none : Output := .items []

/-- What the file passed to `suspend` does with a write. -/
inductive Sink where
  /-- It returns -1 at once: not writable, no write routine, no reader. -/
  | refuses
  /-- A pipe: it reads its source through the user page table only. -/
  | pipe
  /-- A device or an inode: it also takes kernel addresses. -/
  | file
  deriving DecidableEq, Repr

/-- A C `int` holding `n`. -/
def toInt32 (n : ℤ) : ℤ := n.bmod (2 ^ 32)

/-- The bytes that `copyin` finds at `va`, up to the first that is not mapped. -/
def userBytes (pt : UserMem) (va n : ℤ) : List UInt8 :=
  if va < 0 then []
  else (((List.range n.toNat).map fun i => pt (va.toNat + i)).takeWhile Option.isSome).filterMap id

/-- The header that `suspend` writes for `p`. -/
def resumehdr (p : Proc) : ResumeHdr where
  memSz := toInt32 p.sz
  codeSz := toInt32 (p.sz - 2 * PGSIZE)
  stackSz := PGSIZE
  strace := toInt32 p.strace
  name := strncpy (List.replicate 16 0) p.name 16

/-- The user memory that `suspend` writes: the code, and the page of the stack. -/
def dumpMem (p : Proc) (pt : UserMem) : List Item :=
  let codeSz := (resumehdr p).codeSz
  ([userBytes pt 0 codeSz, userBytes pt (codeSz + PGSIZE) PGSIZE].filter (· ≠ [])).map Item.mem

/-- What `suspend` writes to the file about process `p`. -/
def dump (p : Proc) : Sink → Except Stop (List Item)
  | .refuses => .ok []
  | .pipe =>
    match p.pagetable with
    | none => .error .fault
    | some pt => .ok (dumpMem p pt)
  | .file =>
    match p.tf, p.pagetable with
    | some tf, some pt => .ok (.hdr (resumehdr p) :: .tf tf :: dumpMem p pt)
    | _, _ => .error .fault

/-- `kill`, on the slot it hits. -/
def Proc.kill (p : Proc) : Proc :=
  { p with
    killed := true
    state := if p.state = .sleeping ∨ p.state = .suspended then .runnable else p.state }

/-- The text of a container's state in `cinfo`. -/
def ContainerState.text : ContainerState → CharArray
  | .csuspended => chars "SUSPENDED"
  | .crunning => chars "RUNNING"
  | .cunused => chars "UNKNOWN"

/-- `n` bytes of a page fresh from `kalloc`. -/
def junk (n : ℕ) : CharArray := List.replicate n 5

namespace Kernel

variable (s : Kernel)

/-- The slot that `kill(pid)` by `p` finds: inside a container, the argument is a `vpid`. -/
def killTarget (p : Slot) (pid : ℤ) : Option Slot :=
  s.findProc fun q => (if s.mycont p = some root then q.pid else q.vpid) = pid

/-- `kill` by process `p`. -/
def kill (p : Slot) (pid : ℤ) : ℤ × Kernel :=
  match s.killTarget p pid with
  | none => (-1, s)
  | some q =>
    if s.mycont p ≠ some root ∧ (s.proc q).container ≠ s.mycont p then (-1, s)
    else (0, s.modifyProc q Proc.kill)

/-- The slot that `suspend(pid)` finds, whatever its state. -/
def suspendTarget (pid : ℤ) : Option Slot := s.findProc fun q => q.pid = pid

/-- `suspend`; it does not look at its caller. -/
def suspend (pid : ℤ) (f : Sink) : Except Stop (ℤ × Kernel × Output) :=
  match s.suspendTarget pid with
  | none => .ok (-1, s, .none)
  | some q => do
    let s := s.modifyProc q fun p => { p with state := .suspended }
    let items ← dump (s.proc q) f
    return (0, s, .items (items.map fun i => (q, i)))

/-- The slots that `ptableof` lists for container `c`. -/
def listed (c : Option Cont) : List Slot :=
  (List.finRange NPROC).filter fun q =>
    (s.proc q).state ≠ .unused ∧ (c = some root ∨ (s.proc q).container = c)

/-- The name of a process's parent in `ptableof`. -/
def parentName (q : Slot) : Except Stop CharArray :=
  if (s.proc q).pid = 1 then .ok []
  else
    match (s.proc q).parent with
    | none => .error .fault
    | some par => .ok (s.proc par).name

/-- The slots that the entry of a process in `ptableof` is read from: its own and that of the parent
whose name it has. -/
def sources (q : Slot) : List Slot :=
  q :: if (s.proc q).pid = 1 then [] else (s.proc q).parent.toList

/-- The slots whose data is copied out. -/
def slots : Output → List Slot
  | .items l => l.map Prod.fst
  | .ptable l => l.flatMap fun e => s.sources e.1
  | .ctable l => l.flatMap fun c => c.ptable.flatMap fun e => s.sources e.1

/-- One entry of `ptableof`. -/
def procInfo (q : Slot) : Except Stop ProcInfo := do
  let parent ← s.parentName q
  match (s.proc q).container with
  | none => throw .fault
  | some d => return {
      pid := (s.proc q).pid
      vpid := (s.proc q).vpid
      mem := toInt32 (s.proc q).sz
      name := strncpy (junk 16) (s.proc q).name 16
      parent := strncpy (junk 16) parent 16
      container := strncpy (junk 16) (s.containers d).name 16 }

/-- `ptableof`, called by process `p`: the page of the table and its entries. -/
def ptableof (p : Slot) (c : Option Cont) :
    Except Stop (ℕ × List (Slot × ProcInfo) × Kernel) := do
  let (page, s) ← s.kalloc p
  match page with
  | none => throw .fault
  | some pa =>
    let entries ← (s.listed c).mapM fun q => do return (q, ← s.procInfo q)
    return (pa, entries, s)

variable {s} in
theorem ptableof_eq_ok {p : Slot} {c : Option Cont} {pa : ℕ} {entries : List (Slot × ProcInfo)}
    {s' : Kernel} (h : s.ptableof p c = .ok (pa, entries, s')) :
    s.kalloc p = .ok (some pa, s') ∧ entries.map Prod.fst = s'.listed c := by
  obtain ⟨⟨page, s₁⟩, halloc, h⟩ := bind_eq_ok.1 h
  cases page with
  | none => cases h
  | some pa' =>
    obtain ⟨es, hes, h⟩ := bind_eq_ok.1 h
    cases h
    exact ⟨halloc, map_fst_of_mapM hes⟩

/-- `psinfo` by process `p`. -/
def psinfo (p : Slot) : Except Stop (ℤ × Kernel × Output) := do
  let (pa, entries, s) ← s.ptableof p (s.mycont p)
  let s ← s.kfree p pa
  return (0, s, .ptable entries)

/-- One entry of `cinfo`, called by process `p`.  The root path is copied last, as far as it goes:
what does not fit in its field goes over the records. -/
def containerInfo (p : Slot) (c : Cont) : Except Stop (ContainerInfo × Kernel) := do
  let (pa, entries, s) ← s.ptableof p (some c)
  let s ← s.kfree p pa
  let k := s.containers c
  return ({
    name := strncpy (junk 16) k.name 16
    state := strncpy (junk 16) k.state.text 16
    currentContainer := s.mycont p = some c
    numproc := s.numproc c
    maxproc := k.maxproc
    memused := k.memused
    memlimit := k.memlimit
    diskused := k.diskused
    disklimit := k.disklimit
    root := (strncpy (junk MAXPATH) k.rootDir (strlen k.rootDir)).take MAXPATH
    ptable := entries
    records := (entries.flatMap fun e => e.2.bytes).mapIdx fun j b =>
      (str k.rootDir)[MAXPATH + j]?.getD b }, s)

/-- The loop of `cinfo` over the containers `cs`. -/
def cinfoLoop (p : Slot) : List Cont → Kernel → Except Stop (List ContainerInfo × Kernel)
  | [], s => .ok ([], s)
  | c :: cs, s =>
    if (s.containers c).state = .cunused then cinfoLoop p cs s
    else do
      let (i, s) ← s.containerInfo p c
      let (is, s) ← cinfoLoop p cs s
      return (i :: is, s)

/-- `cinfo` by process `p`. -/
def cinfo (p : Slot) : Except Stop (ℤ × Kernel × Output) :=
  if s.mycont p ≠ some root then .ok (-1, s, .none)
  else do
    let (page, s) ← s.kalloc p
    match page with
    | none => throw .fault
    | some pa =>
      let (table, s) ← cinfoLoop p (List.finRange NCONTS) s
      let s ← s.kfree p pa
      return (0, s, .ctable table)

section Borrows

variable {s} {s' : Kernel} {p : Slot} {r : ℤ} {out : Output} {R : Kernel → Kernel → Prop}

/-- A relation that is kept by taking a page and giving it back. -/
structure Borrows (p : Slot) (R : Kernel → Kernel → Prop) : Prop where
  refl : ∀ s, R s s
  trans : ∀ {s t u}, R s t → R t u → R s u
  page : ∀ {s pa s₁ s₂ s'}, s.kalloc p = .ok (some pa, s₁) → R s₁ s₂ → s₂.kfree p pa = .ok s' →
    R s s'

theorem Borrows.psinfo (hR : Borrows p R) (h : s.psinfo p = .ok (r, s', out)) : R s s' := by
  obtain ⟨⟨pa, entries, s₁⟩, hpt, h⟩ := bind_eq_ok.1 h
  obtain ⟨s₂, hfree, h⟩ := bind_eq_ok.1 h
  cases h
  exact hR.page (ptableof_eq_ok hpt).1 (hR.refl _) hfree

theorem Borrows.cinfoLoop (hR : Borrows p R) {cs : List Cont} {is : List ContainerInfo}
    (h : cinfoLoop p cs s = .ok (is, s')) : R s s' := by
  induction cs generalizing s is with
  | nil => cases h; exact hR.refl _
  | cons c cs ih =>
    unfold Kernel.cinfoLoop at h
    split at h
    · exact ih h
    · obtain ⟨⟨i, s₁⟩, hi, h⟩ := bind_eq_ok.1 h
      obtain ⟨⟨js, s₂⟩, hjs, h⟩ := bind_eq_ok.1 h
      cases h
      obtain ⟨⟨pa, entries, s₃⟩, hpt, hi⟩ := bind_eq_ok.1 hi
      obtain ⟨s₄, hfree, hi⟩ := bind_eq_ok.1 hi
      cases hi
      exact hR.trans (hR.page (ptableof_eq_ok hpt).1 (hR.refl _) hfree) (ih hjs)

theorem Borrows.cinfo (hR : Borrows p R) (h : s.cinfo p = .ok (r, s', out)) : R s s' := by
  unfold Kernel.cinfo at h
  split at h
  · cases h; exact hR.refl _
  · obtain ⟨⟨page, s₁⟩, halloc, h⟩ := bind_eq_ok.1 h
    cases page with
    | none => cases h
    | some pa =>
      obtain ⟨⟨table, s₂⟩, hloop, h⟩ := bind_eq_ok.1 h
      obtain ⟨s₃, hfree, h⟩ := bind_eq_ok.1 h
      cases h
      exact hR.page halloc (hR.cinfoLoop hloop) hfree

theorem borrows_memOnly : Borrows p MemOnly :=
  ⟨.refl, .trans, fun ha h hf => ((memOnly_kalloc ha).trans h).trans (memOnly_kfree hf)⟩

end Borrows

/-- The container that `cinit` takes: the first `CUNUSED` one. -/
def freeCont : Option Cont := s.findCont fun c => c.state = .cunused

/-- `cinit` by process `p`; `ip` is what `namei(root_dir)` returns, which is the root left in the
free container if `root_dir` is `"/"` (`Fs.Cinit`). -/
def cinit (p : Slot) (name rootDir : CharArray) (maxProc maxPage maxDisk : ℤ) (ip : Option ℕ) :
    Kernel :=
  match s.freeCont with
  | none => { s with started := true }
  | some c =>
    let s := s.modifyProc p fun q => { q with container := some c, cwd := ip }
    let s := s.modifyCont c fun k =>
      { k with
        root := ip
        name := strncpy k.name name 16
        state := .crunning
        maxproc := maxProc
        memlimit := maxPage
        memused := 0
        disklimit := maxDisk
        diskused := 0
        rootDir := strncpy k.rootDir rootDir (strlen rootDir) }
    let (vpid, s) := s.allocvpid c
    { s.modifyProc p (fun q => { q with vpid := vpid }) with started := true }

/-- The container that `cpause`, `cresume` and `cstop` find for `name`: the first whose name
begins with it, in use or not. -/
def contNamed (name : CharArray) : Option Cont :=
  s.findCont fun c => strncmp c.name name (strlen name) = 0

/-- `cpause`, `cresume` and `cstop` by process `p`: do `f` to the container they find. -/
def onCont (p : Slot) (name : CharArray) (f : Cont → Kernel) : ℤ × Kernel :=
  if s.mycont p ≠ some root then (-1, s)
  else
    match s.contNamed name with
    | none => (-1, s)
    | some c => (0, f c)

/-- `cpause`. -/
def cpause (p : Slot) (name : CharArray) : ℤ × Kernel :=
  s.onCont p name fun c => s.modifyCont c fun k => { k with state := .csuspended }

/-- `cresume`. -/
def cresume (p : Slot) (name : CharArray) : ℤ × Kernel :=
  s.onCont p name fun c => s.modifyCont c fun k => { k with state := .crunning }

/-- `freeproc` of all slots that carry container `c`. -/
@[simps]
def freeprocs (c : Cont) : Kernel :=
  { s with proc := fun q =>
      if (s.proc q).container = some c then (s.proc q).freeproc else s.proc q }

/-- `cstop`. -/
def cstop (p : Slot) (name : CharArray) : ℤ × Kernel :=
  s.onCont p name fun c => (s.modifyCont c fun k => { k with state := .cunused }).freeprocs c

end Kernel

/-- The control system calls with their arguments. -/
inductive Control where
  | kill (pid : ℤ)
  | suspend (pid : ℤ) (f : Sink)
  | psinfo
  | cinfo
  | cinit (name rootDir : CharArray) (maxProc maxPage maxDisk : ℤ) (ip : Option ℕ)
  | cpause (name : CharArray)
  | cresume (name : CharArray)
  | cstop (name : CharArray)

/-- A control system call made by process `p`: the value returned, the tables afterwards, and
what was copied out. -/
def Kernel.control (s : Kernel) (p : Slot) : Control → Except Stop (ℤ × Kernel × Output)
  | .kill pid => .ok ((s.kill p pid).1, (s.kill p pid).2, .none)
  | .suspend pid f => s.suspend pid f
  | .psinfo => s.psinfo p
  | .cinfo => s.cinfo p
  | .cinit name rootDir maxProc maxPage maxDisk ip =>
    .ok (0, s.cinit p name rootDir maxProc maxPage maxDisk ip, .none)
  | .cpause name => .ok ((s.cpause p name).1, (s.cpause p name).2, .none)
  | .cresume name => .ok ((s.cresume p name).1, (s.cresume p name).2, .none)
  | .cstop name => .ok ((s.cstop p name).1, (s.cstop p name).2, .none)

end Xv6Container
