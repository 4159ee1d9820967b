import Xv6Container.Machine.Basic
import Xv6Container.Proc.Basic

/-!
# Fork, exit and wait, lock by lock

`fork`, `exit`, `wait`, `kill`, `sleep` and `wakeup` of `kernel/proc.c`, interleaved in any way.
A step of the machine is the code from one acquisition of a `p->lock` to the next, or from one
test that the code makes without a lock to the next: `reparent` and `wait` read `pp->parent`
before they take `pp->lock`.

* The table has `N` slots.  Of a `struct proc` there are the fields that `p->lock` protects
  (`ProcFields`).  Each process has one thread in the kernel, and `loc p` says where it is.
* A lock is held by the thread that is at a location where the code holds it (`TreeLoc.locks`).
* Any number of processes may run at the same time.  The scheduler runs any runnable process whose
  lock is free; a process that holds no lock may be preempted, or sleep on any channel.
* How memory allocation, the test against `maxproc` and the `copyout` of the exit status turn out
  is up to the events.  `kill` may hit any slot: which one has the number it looks for does not
  matter here.

The fields `births`, `born`, `exited` and `reaped` are histories: the serial numbers of the
processes created so far, and the processes that have exited, and that `wait` has reaped, with the
process identifier and the status that it returned.
-/

namespace Xv6Container

open Function

/-- The fields of a `struct proc` that `p->lock` protects. -/
structure ProcFields (N : ℕ) where
  state : ProcState
  parent : Option (Fin N)
  /-- The address of a process, or another one. -/
  chan : Option (Fin N ⊕ ℕ)
  killed : Bool
  xstate : ℤ
  pid : ℤ

/-- The fields after `freeproc`. -/
def ProcFields.freed {N : ℕ} : ProcFields N :=
  { state := .unused, parent := none, chan := none, killed := false, xstate := 0, pid := 0 }

/-- Where the thread of a process is. -/
inductive TreeLoc (N : ℕ) where
  /-- There is no thread. -/
  | dead
  /-- In user space, or elsewhere in the kernel without a `p->lock`. -/
  | out
  /-- `fork`: `allocproc` has come to slot `i`. -/
  | forkScan (i : ℕ)
  /-- `fork`: `allocproc` has returned `np`, with its lock. -/
  | forkHold (np : Fin N)
  /-- `fork`: before the test against `maxproc`, with the lock of `np`. -/
  | forkTest (np : Fin N)
  /-- `exit`: before `acquire(&initproc->lock)`. -/
  | exitInit (status : ℤ)
  /-- `exit`: before `original_parent = p->parent`. -/
  | exitRead (status : ℤ)
  /-- `exit`: before `acquire(&original_parent->lock)`. -/
  | exitParent (par : Fin N) (status : ℤ)
  /-- `exit`: with the lock of the original parent, before `acquire(&p->lock)`. -/
  | exitSelf (par : Fin N) (status : ℤ)
  /-- `exit`: with both locks; `reparent` is about to look at slot `i`. -/
  | exitScan (par : Fin N) (status : ℤ) (i : ℕ)
  /-- `exit`: `reparent` has found the child `pp`, before `acquire(&pp->lock)`. -/
  | exitGive (par : Fin N) (status : ℤ) (pp : Fin N)
  /-- `exit`: in `sched`, with `p->lock`. -/
  | exitSched
  /-- `wait`: before `acquire(&p->lock)`. -/
  | waitStart
  /-- `wait`: with `p->lock`; the scan has come to slot `i`. -/
  | waitScan (havekids : Bool) (i : ℕ)
  /-- `wait`: the scan has found the child `np`, before `acquire(&np->lock)`. -/
  | waitLook (havekids : Bool) (np : Fin N)
  /-- `wait`: switched out in `sleep(p, &p->lock)`. -/
  | waitSleep
  deriving DecidableEq

namespace TreeLoc

variable {N : ℕ}

/-- The locks that the thread of `p` holds at a location. -/
@[simp]
def locks (p : Fin N) : TreeLoc N → List (Fin N)
  | forkHold np | forkTest np => [np]
  | exitSelf par _ => [par]
  | exitScan par _ _ | exitGive par _ _ => [par, p]
  | exitSched | waitScan _ _ | waitLook _ _ => [p]
  | dead | out | forkScan _ | exitInit _ | exitRead _ | exitParent _ _ | waitStart | waitSleep => []

/-- The thread has nothing to do with a process that may run. -/
def Gone : TreeLoc N → Prop
  | dead | exitSched => True
  | _ => False

/-- The thread is in `exit`. -/
def Exiting : TreeLoc N → Prop
  | exitInit _ | exitRead _ | exitParent _ _ | exitSelf _ _ | exitScan _ _ _ | exitGive _ _ _
  | exitSched => True
  | _ => False

end TreeLoc

/-- A process that has exited: its serial number, its process identifier and its status. -/
structure Death where
  serial : ℕ
  pid : ℤ
  status : ℤ
  deriving DecidableEq

/-- The process table and the threads. -/
structure ProcTree (N : ℕ) where
  proc : Fin N → ProcFields N
  nextpid : ℤ
  loc : Fin N → TreeLoc N
  births : ℕ
  born : Fin N → ℕ
  exited : List Death
  reaped : List Death

/-- What can happen next. -/
inductive TreeEvent (N : ℕ) where
  /-- A process calls `fork`. -/
  | fork (p : Fin N)
  /-- A process calls `exit`. -/
  | exit (p : Fin N) (status : ℤ)
  /-- A process calls `wait`. -/
  | wait (p : Fin N)
  /-- The next step of a process in one of these calls. -/
  | step (p : Fin N)
  /-- `fork` fails: there is no memory for the trapframe, or (`freed`) for the copy. -/
  | forkFails (p : Fin N) (freed : Bool)
  /-- `fork` is refused: there are `maxproc` processes. -/
  | forkRefused (p : Fin N)
  /-- The `copyout` of `wait` fails. -/
  | copyoutFails (p : Fin N)
  /-- The scheduler runs a process. -/
  | dispatch (p : Fin N)
  /-- A process is preempted. -/
  | yield (p : Fin N)
  /-- A process sleeps. -/
  | sleep (p : Fin N) (chan : Fin N ⊕ ℕ)
  /-- `wakeup` comes to a slot. -/
  | wakeup (q : Fin N) (chan : Fin N ⊕ ℕ)
  /-- `kill` hits a slot. -/
  | kill (q : Fin N)
  deriving DecidableEq

namespace ProcTree

variable {N : ℕ} (s : ProcTree N)

/-- Nobody holds the lock of `q`. -/
def Free (q : Fin N) : Prop := ∀ h, q ∉ (s.loc h).locks h

instance (q : Fin N) : Decidable (s.Free q) := inferInstanceAs (Decidable (∀ _, _))

/-- The thread of `p` goes to `l`. -/
def goto (p : Fin N) (l : TreeLoc N) : ProcTree N := { s with loc := update s.loc p l }

/-- The fields of `q` change. -/
def setProc (q : Fin N) (f : ProcFields N → ProcFields N) : ProcTree N :=
  { s with proc := update s.proc q (f (s.proc q)) }

/-- `wakeup1`. -/
def wakeup1 (q : Fin N) : ProcTree N :=
  if (s.proc q).chan = some (.inl q) ∧ (s.proc q).state = .sleeping then
    s.setProc q fun x => { x with state := .runnable }
  else s

/-- The body of the loop of `wakeup`. -/
def wakeup (q : Fin N) (chan : Fin N ⊕ ℕ) : ProcTree N :=
  if (s.proc q).state = .sleeping ∧ (s.proc q).chan = some chan then
    s.setProc q fun x => { x with state := .runnable }
  else s

/-- What `kill` does to the process that it finds. -/
def kill (q : Fin N) : ProcTree N :=
  s.setProc q fun x => { x with
    killed := true
    state := if x.state = .sleeping ∨ x.state = .suspended then .runnable else x.state }

/-- What `exit` leaves of the process `p`. -/
def death (p : Fin N) : Death := ⟨s.born p, (s.proc p).pid, (s.proc p).xstate⟩

/-- `fork` has copied the process `p` to the slot `np`: it has a thread of its own. -/
def forkCopy (p np : Fin N) : ProcTree N :=
  { s.setProc np fun x => { x with parent := some p, state := .runnable } with
    loc := update s.loc np .out
    born := update s.born np s.births
    births := s.births + 1 }

/-- `exit` of `p` becomes final. -/
def exitFinal (p : Fin N) (status : ℤ) : ProcTree N :=
  let s := s.setProc p fun x => { x with xstate := status, state := .zombie }
  { s with exited := s.death p :: s.exited }

/-- `wait` frees the zombie `np`. -/
def reap (np : Fin N) : ProcTree N :=
  { s.setProc np fun _ => .freed with reaped := s.death np :: s.reaped }

/-- The next step of the process `p`. -/
def step (init p : Fin N) : Option (ProcTree N) :=
  match s.loc p with
  | .forkScan i =>
    if h : i < N then
      if s.Free ⟨i, h⟩ then
        if (s.proc ⟨i, h⟩).state = .unused then
          some ({ s.setProc ⟨i, h⟩ (fun x => { x with pid := s.nextpid }) with
            nextpid := s.nextpid + 1 }.goto p (.forkHold ⟨i, h⟩))
        else some (s.goto p (.forkScan (i + 1)))
      else none
    else some (s.goto p .out)
  | .forkHold np => some ((s.forkCopy p np).goto p (.forkTest np))
  | .forkTest _ => some (s.goto p .out)
  | .exitInit status =>
    if s.Free init then some ((s.wakeup1 init).goto p (.exitRead status)) else none
  | .exitRead status =>
    if s.Free p then (s.proc p).parent.map fun par => s.goto p (.exitParent par status) else none
  | .exitParent par status =>
    if s.Free par then some (s.goto p (.exitSelf par status)) else none
  | .exitSelf par status => if s.Free p then some (s.goto p (.exitScan par status 0)) else none
  | .exitScan par status i =>
    if h : i < N then
      some (s.goto p (if (s.proc ⟨i, h⟩).parent = some p then .exitGive par status ⟨i, h⟩
        else .exitScan par status (i + 1)))
    else some (((s.wakeup1 par).exitFinal p status).goto p .exitSched)
  | .exitGive par status pp =>
    if s.Free pp then
      some ((s.setProc pp fun x => { x with parent := some init }).goto p
        (.exitScan par status (pp + 1)))
    else none
  | .waitStart => if s.Free p then some (s.goto p (.waitScan false 0)) else none
  | .waitScan havekids i =>
    if h : i < N then
      some (s.goto p (if (s.proc ⟨i, h⟩).parent = some p then .waitLook havekids ⟨i, h⟩
        else .waitScan havekids (i + 1)))
    else if havekids = false ∨ (s.proc p).killed = true then some (s.goto p .out)
    else some ((s.setProc p fun x => { x with chan := some (.inl p), state := .sleeping }).goto p
      .waitSleep)
  | .waitLook _ np =>
    if s.Free np then
      if (s.proc np).state = .zombie then some ((s.reap np).goto p .out)
      else some (s.goto p (.waitScan true (np + 1)))
    else none
  | .dead | .out | .exitSched | .waitSleep => none

/-- `p` may be preempted, and may sleep. -/
def Preemptible (p : Fin N) : Prop :=
  (s.proc p).state = .running ∧ (s.loc p).locks p = [] ∧ s.Free p

instance (p : Fin N) : Decidable (s.Preemptible p) := inferInstanceAs (Decidable (_ ∧ _ ∧ _))

/-- A running process whose thread is at `l`. -/
def At (p : Fin N) (l : TreeLoc N) : Prop := (s.proc p).state = .running ∧ s.loc p = l

instance (p : Fin N) (l : TreeLoc N) : Decidable (s.At p l) :=
  inferInstanceAs (Decidable (_ ∧ _))

/-- The state after an event. -/
def next (init : Fin N) : TreeEvent N → Option (ProcTree N)
  | .fork p => if s.At p .out then some (s.goto p (.forkScan 0)) else none
  | .exit p status =>
    if s.At p .out ∧ p ≠ init then some (s.goto p (.exitInit status)) else none
  | .wait p => if s.At p .out then some (s.goto p .waitStart) else none
  | .step p =>
    if s.loc p = .exitSched then some (s.goto p .dead)
    else if (s.proc p).state = .running then s.step init p
    else none
  | .forkFails p freed =>
    match s.loc p with
    | .forkHold np =>
      if (s.proc p).state = .running then
        some ((if freed then s.setProc np fun _ => .freed else s).goto p .out)
      else none
    | _ => none
  | .forkRefused p =>
    match s.loc p with
    | .forkTest np =>
      if (s.proc p).state = .running then
        some (((s.setProc np fun _ => .freed).goto np .dead).goto p .out)
      else none
    | _ => none
  | .copyoutFails p =>
    match s.loc p with
    | .waitLook _ np =>
      if (s.proc p).state = .running ∧ s.Free np ∧ (s.proc np).state = .zombie then
        some (s.goto p .out)
      else none
    | _ => none
  | .dispatch p =>
    if s.Free p ∧ (s.proc p).state = .runnable then
      let s := s.setProc p fun x => { x with state := .running, chan := none }
      some (if s.loc p = .waitSleep then s.goto p (.waitScan false 0) else s)
    else none
  | .yield p =>
    if s.Preemptible p then some (s.setProc p fun x => { x with state := .runnable }) else none
  | .sleep p chan =>
    if s.Preemptible p then
      some (s.setProc p fun x => { x with chan := some chan, state := .sleeping })
    else none
  | .wakeup q chan => if s.Free q then some (s.wakeup q chan) else none
  | .kill q => if s.Free q then some (s.kill q) else none

/-- What a call of `wait` by `p` comes to in a step. -/
inductive WaitReturn (N : ℕ) where
  /-- It returns the process identifier of the child in slot `np`, and delivers its status. -/
  | pid (np : Fin N) (pid status : ℤ)
  /-- It returns -1. -/
  | failed
  deriving DecidableEq

/-- What the `wait` that `p` is in returns in the step `e`, if it returns. -/
def waitReturns (p : Fin N) (e : TreeEvent N) : Option (WaitReturn N) :=
  match s.loc p with
  | .waitScan havekids i =>
    if e = .step p ∧ N ≤ i ∧ (havekids = false ∨ (s.proc p).killed = true) then some .failed
    else none
  | .waitLook _ np =>
    if e = .copyoutFails p then some .failed
    else if e = .step p ∧ (s.proc np).state = .zombie then
      some (.pid np (s.proc np).pid (s.proc np).xstate)
    else none
  | _ => none

/-- Only the process `init` is there. -/
def boot (init : Fin N) : ProcTree N where
  proc := fun p =>
    if p = init then { ProcFields.freed with state := .runnable, pid := 1 } else .freed
  nextpid := 2
  loc := fun p => if p = init then .out else .dead
  births := 1
  born := fun _ => 0
  exited := []
  reaped := []

end ProcTree

/-- The steps of all processes. -/
def treeMachine {N : ℕ} (init : Fin N) : Machine (ProcTree N) (TreeEvent N) where
  next s e := s.next init e

end Xv6Container
