import Xv6Container.Data.Except
import Xv6Container.Proc.Basic

/-!
# The life of a process

Creation, exit, reaping, sleeping and scheduling of processes (`kernel/proc.c`).  Every function
is taken as one step, from the tables to the tables.  Most of them are one critical section under
the locks the code takes; the test of `fork` against `maxproc` and the quota tests of `kalloc` and
`balloc` are not, so that two calls at the same moment are out of scope.

Memory comes from outside this module: how the allocations of a `fork` went, and whether the
`copyout` of an exit status failed, are arguments.
-/

namespace Xv6Container

/-- How the allocations of a `fork` turn out. -/
inductive ForkMem where
  /-- All succeed. -/
  | ok
  /-- `kalloc` of the trapframe page returns 0. -/
  | noTrapframe
  /-- `uvmcreate` finds no page for the page table. -/
  | noPagetable
  /-- `uvmcopy` fails. -/
  | noCopy
  deriving DecidableEq, Repr

/-- What a `fork` comes to; all but `child` return -1. -/
inductive ForkOutcome where
  /-- The child was created; its process identifier. -/
  | child (pid : ℤ)
  /-- There is no free slot, or no trapframe page. -/
  | noProc
  /-- The parent's memory could not be copied. -/
  | noMemory
  /-- "hit max proc for container". -/
  | limit
  deriving DecidableEq, Repr

/-- The value `fork` returns. -/
def ForkOutcome.ret : ForkOutcome → ℤ
  | .child pid => pid
  | _ => -1

/-- What a `wait` comes to. -/
inductive WaitOutcome where
  /-- A child was reaped; its process identifier. -/
  | reaped (pid : ℤ)
  /-- Return -1: no children, or killed, or the status could not be copied out. -/
  | failed
  /-- Sleep until a child exits. -/
  | sleeps
  deriving DecidableEq, Repr

/-- `PGROUNDUP`. -/
def pgroundup (n : ℕ) : ℕ := (n + PGSIZE - 1) / PGSIZE * PGSIZE

/-- `uvmcopy`: the parent's pages below `sz`. -/
def uvmcopy (old : UserMem) (sz : ℕ) : UserMem := fun a => if a < pgroundup sz then old a else none

/-- The index of `a0` among the words of a trapframe. -/
def tfA0 : ℕ := 14

/-- `freeproc`, on the slot: the open files, `cwd`, `container`, `vpid` and `strace` stay as they
are. -/
@[simps]
def Proc.freeproc (p : Proc) : Proc :=
  { p with
    tf := none
    pagetable := none
    sz := 0
    pid := 0
    parent := none
    name := p.name.set 0 0
    chan := none
    killed := false
    xstate := 0
    state := .unused }

namespace Kernel

variable (s : Kernel)

/-- `allocpid`. -/
@[simps]
def allocpid : ℤ × Kernel := (s.nextpid, { s with nextpid := s.nextpid + 1 })

/-- `allocvpid`. -/
@[simps]
def allocvpid (c : Cont) : ℤ × Kernel :=
  ((s.containers c).nextvpid, s.modifyCont c fun k => { k with nextvpid := k.nextvpid + 1 })

/-- The slot `allocproc` takes: the first `UNUSED` one. -/
def freeSlot : Option Slot := s.findProc fun p => p.state = .unused

/-- `allocproc` on the slot `i` it has found: give it a process identifier, then `f`. -/
def claimSlot (i : Slot) (f : Proc → Proc) : Kernel :=
  let (pid, s) := s.allocpid
  s.modifyProc i fun p => f { p with pid := pid }

/-- A word of a page fresh from `kalloc`. -/
def kallocFill : UInt64 := 0x0505050505050505

/-- `allocproc`.  The process identifier is stored in the slot before the trapframe page is
asked for. -/
def allocproc (mem : ForkMem) : Except Stop (Option Slot × Kernel) :=
  match s.freeSlot with
  | none => .ok (none, s)
  | some i =>
    match mem with
    | .noTrapframe => .ok (none, s.claimSlot i fun p => { p with tf := none })
    | .noPagetable => .error (.panic "uvmcreate: out of memory")
    | _ => .ok (some i, s.claimSlot i fun p =>
        { p with tf := some fun _ => kallocFill, pagetable := some fun _ => none })

/-- The child's slot after `fork` has copied the parent `p` to it, up to `np->state = RUNNABLE`:
the container, `vpid`, `strace` and `killed` are still those of the slot's last occupant. -/
def forkCopy (p : Slot) (par : Proc) (tf : Trapframe) (np : Proc) : Proc :=
  { np with
    pagetable := some (uvmcopy (par.pagetable.getD fun _ => none) par.sz)
    sz := par.sz
    parent := some p
    tf := some (Function.update tf tfA0 0)
    ofile := fun fd => if par.ofile fd = none then np.ofile fd else par.ofile fd
    cwd := par.cwd
    name := safestrcpy np.name par.name 16
    state := .runnable }

/-- The end of `fork`: the child in slot `i` is complete except for its container. -/
def forkLimit (p i : Slot) : Except Stop (ForkOutcome × Kernel) :=
  match s.mycont p with
  | none => .error .fault
  | some c =>
    if (s.containers c).maxproc ≤ s.numproc c then
      .ok (.limit, s.modifyProc i Proc.freeproc)
    else
      let (vpid, s) := s.allocvpid c
      .ok (.child (s.proc i).pid,
        s.modifyProc i fun np => { np with container := some c, vpid := vpid })

/-- `fork` by process `p`. -/
def fork (p : Slot) (mem : ForkMem) : Except Stop (ForkOutcome × Kernel) := do
  let (np, s) ← s.allocproc mem
  match np with
  | none => return (.noProc, s)
  | some i =>
    if mem = .noCopy then return (.noMemory, s.modifyProc i Proc.freeproc)
    -- `*(np->tf) = *(p->tf)` and `idup(p->cwd)` go through both pointers
    match (s.proc p).tf, (s.proc p).cwd with
    | some tf, some _ => (s.modifyProc i (forkCopy p (s.proc p) tf)).forkLimit p i
    | _, _ => throw .fault

/-- `wakeup1`: wake `q` if it is sleeping in `wait`. -/
def wakeup1 (q : Slot) : Kernel :=
  if (s.proc q).chan = some (.proc q) ∧ (s.proc q).state = .sleeping then
    s.modifyProc q fun p => { p with state := .runnable }
  else s

/-- `wakeup`: wake all processes sleeping on `chan`. -/
def wakeup (chan : Chan) : Kernel :=
  { s with proc := fun q =>
      if (s.proc q).state = .sleeping ∧ (s.proc q).chan = some chan then
        { s.proc q with state := .runnable }
      else s.proc q }

/-- `reparent`: pass the abandoned children of `p` to init. -/
def reparent (p : Slot) : Kernel :=
  { s with proc := fun q =>
      if (s.proc q).parent = some p then { s.proc q with parent := some s.initproc }
      else s.proc q }

/-- The first part of `exit`: close all files, leave the current directory, wake init. -/
def exitClose (p : Slot) : Kernel :=
  (s.modifyProc p fun q => { q with ofile := fun _ => none, cwd := none }).wakeup1 s.initproc

/-- The last part of `exit`: give the children to init, wake the parent `par`, and leave. -/
def exitLeave (p par : Slot) (status : ℤ) : Kernel :=
  (((s.reparent p).wakeup1 par).modifyProc p fun q =>
    { q with xstate := status, state := .zombie }).sched p

/-- `exit` of process `p`. -/
def exit (p : Slot) (status : ℤ) : Except Stop Kernel :=
  if p = s.initproc then .error (.panic "init exiting")
  else if (s.proc p).cwd = none then .error .fault
  else
    match ((s.exitClose p).proc p).parent with
    | none => .error .fault
    | some par => .ok ((s.exitClose p).exitLeave p par status)

/-- `sleep` of process `p` on `chan`. -/
def sleep (p : Slot) (chan : Chan) : Kernel :=
  (s.modifyProc p fun q => { q with chan := some chan, state := .sleeping }).sched p

/-- `yield` of process `p`. -/
def yield (p : Slot) : Kernel := (s.modifyProc p fun q => { q with state := .runnable }).sched p

/-- One scan of `wait` by process `p`; `copyFails` says whether the `copyout` of the status of the
child it finds fails. -/
def wait (p : Slot) (copyFails : Bool) : WaitOutcome × Kernel :=
  match s.findProc fun q => q.parent = some p ∧ q.state = .zombie with
  | some np =>
    if copyFails then (.failed, s)
    else (.reaped (s.proc np).pid, s.modifyProc np Proc.freeproc)
  | none =>
    let havekids := (s.findProc fun q => q.parent = some p).isSome
    if !havekids || (s.proc p).killed then (.failed, s)
    else (.sleeps, s.sleep p (.proc p))

/-- The scheduler of CPU `k`, looking for processes of container `c`, takes slot `q`.  A process
that comes back from `sched()` in `sleep` clears its channel before it releases its lock. -/
def dispatch (k : Fin NCPU) (c : Cont) (q : Slot) : Option Kernel :=
  if s.cpus k = none ∧ (s.proc q).state = .runnable ∧ (s.proc q).container = some c then
    some { s.modifyProc q (fun p => { p with state := .running, chan := none }) with
      cpus := Function.update s.cpus k (some q) }
  else none

variable {s} {s' : Kernel} {p : Slot}

/-- The slots that `numproc` counts for container `c` once slot `i` is marked `RUNNABLE`: `i` is
one of them when its last occupant was in `c`. -/
def stale (s : Kernel) (i : Slot) (c : Cont) : ℤ := if (s.proc i).container = some c then 1 else 0

theorem state_of_freeSlot {i : Slot} (h : s.freeSlot = some i) : (s.proc i).state = .unused := by
  simpa using findProc_spec h

@[simp] theorem claimSlot_proc_self (i : Slot) (f : Proc → Proc) :
    (s.claimSlot i f).proc i = f { s.proc i with pid := s.nextpid } := by
  simp [claimSlot]

theorem claimSlot_proc_of_ne {i j : Slot} (f : Proc → Proc) (h : j ≠ i) :
    (s.claimSlot i f).proc j = s.proc j := by
  simp [claimSlot, h]

/-- The slots in use that carry container `c`. -/
def members (s : Kernel) (c : Cont) : Finset Slot :=
  Finset.univ.filter fun q => (s.proc q).state ≠ .unused ∧ (s.proc q).container = some c

theorem mem_members {c : Cont} {q : Slot} :
    q ∈ s.members c ↔ (s.proc q).state ≠ .unused ∧ (s.proc q).container = some c := by
  simp [members]

theorem numproc_eq_card (c : Cont) : s.numproc c = (s.members c).card := by
  rw [numproc, List.countP_eq_length_filter]
  rfl

theorem numproc_of_marked {i : Slot} {c : Cont} (hi : (s.proc i).state = .unused)
    (hne : ∀ j, j ≠ i → s'.proc j = s.proc j) (hs : (s'.proc i).state ≠ .unused) :
    s'.numproc c = s.numproc c + s'.stale i c := by
  have hni : i ∉ s.members c := fun h => (mem_members.1 h).1 hi
  have hmem : ∀ j, j ≠ i → (j ∈ s'.members c ↔ j ∈ s.members c) := fun j hj => by
    rw [mem_members, mem_members, hne j hj]
  rw [numproc_eq_card, numproc_eq_card, stale]
  split
  · rename_i hc
    have : s'.members c = insert i (s.members c) := by
      ext j
      by_cases hj : j = i
      · subst hj; simp [mem_members, hs, hc]
      · simp [hj, hmem j hj]
    rw [this, Finset.card_insert_of_notMem hni]
    push_cast
    rfl
  · rename_i hc
    have : s'.members c = s.members c := by
      ext j
      by_cases hj : j = i
      · subst hj; exact iff_of_false (fun h => hc (mem_members.1 h).2) hni
      · exact hmem j hj
    rw [this, add_zero]

theorem forkLimit_cases {i : Slot} {o : ForkOutcome} (h : s.forkLimit p i = .ok (o, s')) :
    ∃ c, s.mycont p = some c ∧
      (o = .limit ∧ (s.containers c).maxproc ≤ s.numproc c ∧ s' = s.modifyProc i Proc.freeproc ∨
        o = .child (s.proc i).pid ∧ s.numproc c < (s.containers c).maxproc ∧
          s' = (s.allocvpid c).2.modifyProc i fun np =>
            { np with container := some c, vpid := (s.allocvpid c).1 }) := by
  unfold forkLimit at h
  split at h
  · cases h
  · rename_i c hc
    refine ⟨c, hc, ?_⟩
    split at h
    · rename_i hle
      cases h
      exact .inl ⟨rfl, hle, rfl⟩
    · rename_i hlt
      cases h
      exact .inr ⟨rfl, not_le.1 hlt, rfl⟩

theorem modifyProc_claimSlot (i : Slot) (f g : Proc → Proc) :
    (s.claimSlot i f).modifyProc i g = s.claimSlot i fun np => g (f np) := by
  simp [claimSlot, modifyProc]

/-- What a `fork` by process `p` that does not stop the kernel has done. -/
inductive Forked (s : Kernel) (p : Slot) : ForkOutcome → Kernel → Prop
  | full : Forked s p .noProc s
  /-- Slot `i` is taken and given back with the contents `x`.  The check of the limit counts it for
  the container of its last occupant. -/
  | freed {o : ForkOutcome} {i : Slot} {x : Proc} (hi : s.freeSlot = some i)
      (hx : x.state = .unused) (hc : x.container = (s.proc i).container)
      (hpid : x.pid = s.nextpid ∨ x.pid = 0)
      (ho : (o = .noProc ∨ o = .noMemory) ∧ x.ofile = (s.proc i).ofile ∧ x.cwd = (s.proc i).cwd ∨
        o = .limit ∧ ∃ c, s.mycont p = some c ∧
          (s.containers c).maxproc ≤ s.numproc c + s.stale i c) :
      Forked s p o (s.claimSlot i fun _ => x)
  | child {i : Slot} {par : Proc} {tf : Trapframe} {c : Cont} (hi : s.freeSlot = some i)
      (hpar : p ≠ i → par = s.proc p ∧ par.tf = some tf) (hc : s.mycont p = some c)
      (hlt : s.numproc c + s.stale i c < (s.containers c).maxproc) :
      Forked s p (.child s.nextpid) ((s.allocvpid c).2.claimSlot i fun np =>
        { forkCopy p par tf np with container := some c, vpid := (s.containers c).nextvpid })

theorem forked_of_fork {mem : ForkMem} {o : ForkOutcome} (h : s.fork p mem = .ok (o, s')) :
    Forked s p o s' := by
  obtain ⟨⟨np, s₁⟩, hnp, h⟩ := bind_eq_ok.1 h
  unfold allocproc at hnp
  split at hnp
  · cases hnp; cases h
    exact .full
  · rename_i i hi
    have hunused := state_of_freeSlot hi
    split at hnp
    · cases hnp; cases h
      exact .freed hi hunused rfl (.inl rfl) (.inl ⟨.inl rfl, rfl, rfl⟩)
    · cases hnp
    · cases hnp
      dsimp only at h
      split at h
      · cases h
        rw [modifyProc_claimSlot]
        exact .freed hi rfl rfl (.inr rfl) (.inl ⟨.inr rfl, rfl, rfl⟩)
      · split at h
        swap
        · cases h
        rename_i tf _ htf _
        generalize hpar : (s.claimSlot i _).proc p = par at htf h
        rw [modifyProc_claimSlot] at h
        -- the child complete but for its container, which is still that of the last occupant
        change (s.claimSlot i (forkCopy p par tf)).forkLimit p i = _ at h
        have hcont : ∀ j, ((s.claimSlot i (forkCopy p par tf)).proc j).container =
            (s.proc j).container := fun j => by
          by_cases hj : j = i
          · simp [hj, forkCopy]
          · rw [claimSlot_proc_of_ne _ hj]
        have hnum : ∀ c, (s.claimSlot i (forkCopy p par tf)).numproc c =
            s.numproc c + s.stale i c := fun c => by
          rw [numproc_of_marked hunused (fun _ => claimSlot_proc_of_ne _) (by simp [forkCopy]),
            stale, stale, hcont]
        obtain ⟨c, hc, ⟨rfl, hle, rfl⟩ | ⟨rfl, hlt, rfl⟩⟩ := forkLimit_cases h
        · rw [modifyProc_claimSlot]
          exact .freed hi rfl rfl (.inr rfl) (.inr ⟨rfl, c, (hcont p).symm.trans hc, hnum c ▸ hle⟩)
        · rw [claimSlot_proc_self]
          change Forked s p _ (((s.allocvpid c).2.claimSlot i (forkCopy p par tf)).modifyProc i _)
          rw [modifyProc_claimSlot]
          refine .child hi (fun hpi => ⟨?_, htf⟩) ((hcont p).symm.trans hc) (hnum c ▸ hlt)
          rw [← hpar, claimSlot_proc_of_ne _ hpi]

theorem exit_eq_ok {status : ℤ} (h : s.exit p status = .ok s') : p ≠ s.initproc ∧
    ∃ par, ((s.exitClose p).proc p).parent = some par ∧
      s' = (s.exitClose p).exitLeave p par status := by
  unfold exit at h
  split at h
  · cases h
  · rename_i hp
    split at h
    · cases h
    · split at h
      · cases h
      · rename_i par hpar
        cases h
        exact ⟨hp, par, hpar, rfl⟩

end Kernel

end Xv6Container
