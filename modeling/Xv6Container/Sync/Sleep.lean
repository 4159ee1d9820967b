import Xv6Container.Machine.Basic
import Xv6Container.Proc.Basic

/-!
# Sleep and wakeup

`sleep`, `wakeup` and `wakeup1` of `kernel/proc.c`, used the way the kernel uses them: a *waiter*
takes a lock `lk`, tests a condition in a loop and calls `sleep(chan, lk)` while it is false; a
*waker* makes the condition true while it holds `lk`, and calls `wakeup(chan)`.  Every step of the
machine is the code between two acquisitions or releases of a lock.

* The table has `N` processes, each with its `p->lock`.  The lock `lk` is a lock of its own
  (`none`), as in `acquiresleep`, or the lock of one process of the table (`some p`), which is then
  the only one to wait: `wait` sleeps on `p` with `p->lock`.
* Wakers are of any type `W`: processes in `releasesleep` or `exit`, or interrupt handlers.  A
  process that waits and wakes is one of each kind.
* A waker may call `wakeup` with `lk` or after it has released it.  Where `lk` is the lock of the
  waiter it may call `wakeup1` with the lock, before or after it makes the condition true, as
  `exit` does.
* The scheduler gives the lock of a process back after the process has called `sched`, and takes
  it again to run it.  `kill` makes any sleeping process runnable.

The fields `clock`, `tested`, `made` and `completed` are histories: the moments at which the waiters
tested the condition last and the wakers made it true last, and the moments of those whose call of
`wakeup` is complete.
-/

namespace Xv6Container

open Function

/-- Where a process is in the loop `while(!condition) sleep(chan, lk)`. -/
inductive WaitLoc where
  /-- Outside of the loop, without `lk`. -/
  | out
  /-- Before `acquire(lk)`. -/
  | acquire
  /-- The test of the loop, also when `sleep` has returned. -/
  | test
  /-- After the loop, with `lk`. -/
  | hold
  /-- In `sleep`, before `acquire(&p->lock)`. -/
  | lockSelf
  /-- In `sleep`, before `release(lk)`. -/
  | unlock
  /-- In `sleep`, before `p->chan = chan; p->state = SLEEPING`. -/
  | doze
  /-- In `sched`, before the scheduler releases `p->lock`. -/
  | sched
  /-- Switched out. -/
  | parked
  /-- In `sleep`, before `p->chan = 0`. -/
  | tidy
  /-- In `sleep`, before the last `acquire(lk)`. -/
  | reacquire
  deriving DecidableEq

/-- Where a waker is. -/
inductive WakeLoc (N : ℕ) where
  /-- Elsewhere. -/
  | out
  /-- Before `acquire(lk)`. -/
  | acquire
  /-- With `lk`, owing no wakeup. -/
  | hold
  /-- With `lk`, having made the condition true. -/
  | made
  /-- With `lk`, the lock of the waiter, having called `wakeup1` first. -/
  | woke
  /-- `wakeup(chan)` has come to the `k`-th process of the table; it was called with `lk` or
  without. -/
  | scan (k : ℕ) (locked : Bool)
  /-- `wakeup(chan)` holds the lock of `q`. -/
  | look (q : Fin N) (locked : Bool)
  deriving DecidableEq

/-- The processes, the wakers and the locks. -/
structure Sleepers (N : ℕ) (W : Type) where
  /-- The condition that the waiters wait for. -/
  cond : Bool
  /-- Who holds a lock: `some p` is `p->lock`. -/
  held : Option (Fin N) → Option (Fin N ⊕ W)
  state : Fin N → ProcState
  /-- `p->chan == chan`. -/
  chan : Fin N → Bool
  waiter : Fin N → WaitLoc
  waker : W → WakeLoc N
  /-- The number of tests and changes of the condition so far. -/
  clock : ℕ
  /-- When a process tested the condition last. -/
  tested : Fin N → ℕ
  /-- When a waker made the condition true last. -/
  made : W → ℕ
  /-- When the condition was made true by those whose wakeup is complete. -/
  completed : List ℕ

/-- The steps of waiters and wakers. -/
inductive SleepEvent (N : ℕ) (W : Type) where
  /-- The next step of a waiter. -/
  | wait (p : Fin N)
  /-- A waiter behind the loop makes the condition false: `lk->locked = 1`. -/
  | take (p : Fin N)
  /-- The next step of a waker. -/
  | wake (w : W)
  /-- A waker makes the condition true. -/
  | set (w : W)
  /-- A waker makes the condition false. -/
  | clear (w : W)
  /-- A waker releases `lk` before it calls `wakeup`. -/
  | release (w : W)
  /-- A waker calls `wakeup1` before it makes the condition true. -/
  | wakeFirst (w : W)
  /-- A process is killed. -/
  | kill (q : Fin N)
  deriving DecidableEq

namespace Sleepers

variable {N : ℕ} {W : Type} [DecidableEq W]

/-- Nobody is in the code; the condition holds or not. -/
def init (cond : Bool) : Sleepers N W where
  cond := cond
  held := fun _ => none
  state := fun _ => .running
  chan := fun _ => false
  waiter := fun _ => .out
  waker := fun _ => .out
  clock := 0
  tested := fun _ => 0
  made := fun _ => 0
  completed := []

variable (lk : Option (Fin N)) (s : Sleepers N W)

/-- Process `p` goes to `l`. -/
def goto (p : Fin N) (l : WaitLoc) : Sleepers N W := { s with waiter := update s.waiter p l }

/-- Waker `w` goes to `l`. -/
def gotoW (w : W) (l : WakeLoc N) : Sleepers N W := { s with waker := update s.waker w l }

/-- `acquire` of the lock `l`, which waits while it is held. -/
def acquire (l : Option (Fin N)) (a : Fin N ⊕ W) : Option (Sleepers N W) :=
  if s.held l = none then some { s with held := update s.held l (some a) } else none

/-- `release` of the lock `l`. -/
def release (l : Option (Fin N)) : Sleepers N W := { s with held := update s.held l none }

/-- `wakeup1`, and the body of the loop of `wakeup`, for the process `q`. -/
def wakeup1 (q : Fin N) : Sleepers N W :=
  if s.state q = .sleeping ∧ s.chan q = true then
    { s with state := update s.state q .runnable }
  else s

/-- What `kill` does to the state of `q`. -/
def kill (q : Fin N) : Sleepers N W :=
  if s.state q = .sleeping ∨ s.state q = .suspended then
    { s with state := update s.state q .runnable }
  else s

/-- The next step of the waiter `p`. -/
def waitStep (p : Fin N) : Option (Sleepers N W) :=
  match s.waiter p with
  | .out => if lk = none ∨ lk = some p then some (s.goto p .acquire) else none
  | .acquire => (s.acquire lk (.inl p)).map fun s => s.goto p .test
  | .test =>
    let s := { s with clock := s.clock + 1, tested := update s.tested p (s.clock + 1) }
    some (s.goto p (if s.cond then .hold else if lk = some p then .doze else .lockSelf))
  | .hold => some ((s.release lk).goto p .out)
  | .lockSelf => (s.acquire (some p) (.inl p)).map fun s => s.goto p .unlock
  | .unlock => some ((s.release lk).goto p .doze)
  | .doze =>
    some ({ s with chan := update s.chan p true, state := update s.state p .sleeping }.goto p
      .sched)
  | .sched => some ((s.release (some p)).goto p .parked)
  | .parked =>
    if s.state p = .runnable then
      (s.acquire (some p) (.inl p)).map fun s =>
        { s with state := update s.state p .running }.goto p .tidy
    else none
  | .tidy =>
    let s := { s with chan := update s.chan p false }
    some (if lk = some p then s.goto p .test else (s.release (some p)).goto p .reacquire)
  | .reacquire => (s.acquire lk (.inl p)).map fun s => s.goto p .test

/-- The wakeup of `w` is complete. -/
def complete (w : W) : Sleepers N W := { s with completed := s.made w :: s.completed }

/-- The next step of the waker `w`. -/
def wakeStep (w : W) : Option (Sleepers N W) :=
  match s.waker w with
  | .out => some (s.gotoW w .acquire)
  | .acquire => (s.acquire lk (.inr w)).map fun s => s.gotoW w .hold
  | .hold | .woke => some ((s.release lk).gotoW w .out)
  | .made =>
    match lk with
    | none => some (s.gotoW w (.scan 0 true))
    | some p => some (((s.wakeup1 p).complete w).gotoW w .hold)
  | .scan k locked =>
    if h : k < N then
      (s.acquire (some ⟨k, h⟩) (.inr w)).map fun s => s.gotoW w (.look ⟨k, h⟩ locked)
    else some ((s.complete w).gotoW w (if locked then .hold else .out))
  | .look q locked => some (((s.wakeup1 q).release (some q)).gotoW w (.scan (q + 1) locked))

/-- The waker `w` makes the condition true. -/
def set (w : W) : Option (Sleepers N W) :=
  let s := { s with cond := true, clock := s.clock + 1, made := update s.made w (s.clock + 1) }
  match s.waker w with
  | .hold => some (s.gotoW w .made)
  | .woke => some ((s.complete w).gotoW w .hold)
  | _ => none

/-- The waker `w` calls `wakeup1` on the process whose lock it holds. -/
def wakeFirst (w : W) : Option (Sleepers N W) :=
  match lk, s.waker w with
  | some p, .hold => some ((s.wakeup1 p).gotoW w .woke)
  | _, _ => none

end Sleepers

/-- The steps of any number of waiters and wakers that use the lock `lk`. -/
def sleepMachine {N : ℕ} {W : Type} [DecidableEq W] (lk : Option (Fin N)) :
    Machine (Sleepers N W) (SleepEvent N W) where
  next s
    | .wait p => s.waitStep lk p
    | .take p => if s.waiter p = .hold then some { s with cond := false } else none
    | .wake w => s.wakeStep lk w
    | .set w => s.set w
    | .clear w => if s.waker w = .hold then some { s with cond := false } else none
    | .release w =>
      if s.waker w = .made then some ((s.release lk).gotoW w (.scan 0 false)) else none
    | .wakeFirst w => s.wakeFirst lk w
    | .kill q => if s.held (some q) = none then some (s.kill q) else none

end Xv6Container
