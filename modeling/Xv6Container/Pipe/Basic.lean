import Xv6Container.Machine.Basic
import Xv6Container.Data.Ring
import Xv6Container.Kernel.Param

/-!
# Pipes

`kernel/pipe.c`, run by any number of processes at once.  A process is at a location of
`pipewrite`, `piperead` or `pipeclose`, or outside of them, and every step of the machine is one
step of the code of one process:

* taking `pi->lock`, which waits while another process has it;
* one test of a loop, one `copyin`, one `copyout`, one byte put in or taken out;
* one iteration of the loop of `wakeup` over the process table, which takes the lock of the
  process it looks at;
* `sleep`, in two steps: `pi->lock` is released when `p->lock` is held already, and the process
  becomes `SLEEPING` only after that;
* `kill`, which takes the lock of its victim but not `pi->lock`.

Copying from and to user memory succeeds or fails as the label of the step says, and so does
every byte that `copyin` returns.  The fields `put` and `got` of the state are histories: the
bytes stored in `data[]` and the bytes loaded from it, oldest first.
-/

namespace Xv6Container

open Function

/-- Size of the buffer of a pipe. -/
abbrev PIPESIZE : ℕ := 512

/-- `struct pipe` without its lock.  Only the entries of `data` below `PIPESIZE` exist. -/
structure Pipe where
  data : ℕ → UInt8
  /-- Number of bytes read. -/
  nread : UInt32
  /-- Number of bytes written. -/
  nwrite : UInt32
  /-- Read fd is still open. -/
  readopen : Bool
  /-- Write fd is still open. -/
  writeopen : Bool

namespace Pipe

variable (pi : Pipe)

/-- `pi->nwrite == pi->nread + PIPESIZE`. -/
def Full : Prop := pi.nwrite = pi.nread + UInt32.ofNat PIPESIZE

instance : Decidable pi.Full := inferInstanceAs (Decidable (_ = _))

/-- `pi->nread == pi->nwrite`. -/
def Empty : Prop := pi.nread = pi.nwrite

instance : Decidable pi.Empty := inferInstanceAs (Decidable (_ = _))

/-- `pi->data[pi->nwrite++ % PIPESIZE] = ch`. -/
def push (ch : UInt8) : Pipe :=
  { pi with
    data := update pi.data (pi.nwrite.toNat % PIPESIZE) ch
    nwrite := pi.nwrite + 1 }

/-- The byte `pi->data[pi->nread % PIPESIZE]`. -/
def front : UInt8 := pi.data (pi.nread.toNat % PIPESIZE)

/-- `pi->nread++`. -/
def pop : Pipe := { pi with nread := pi.nread + 1 }

/-- What `pipeclose` does to the ends. -/
def close (writable : Bool) : Pipe :=
  if writable then { pi with writeopen := false } else { pi with readopen := false }

end Pipe

/-- The channels processes sleep on in a pipe: the addresses of its counters. -/
inductive PipeChan where
  /-- `&pi->nread`. -/
  | nread
  /-- `&pi->nwrite`. -/
  | nwrite
  deriving DecidableEq

/-- What follows the loop of a `wakeup`. -/
inductive AfterWakeup where
  /-- `sleep(&pi->nwrite, &pi->lock)` in `pipewrite`. -/
  | sleep (n : ℤ) (i : ℕ)
  /-- `release(&pi->lock); return v`. -/
  | ret (v : ℤ)
  /-- The end of `pipeclose`. -/
  | close
  deriving DecidableEq

/-- Where a process is in the code of a pipe.  `n` is the number of bytes asked for and `i` the
loop variable. -/
inductive PipeLoc where
  /-- Outside of the pipe; the last call on it returned `ret`. -/
  | user (ret : ℤ)
  /-- Before the first `acquire(&pi->lock)` of `pipewrite`, or in its `sleep`. -/
  | wAcquire (n : ℤ) (i : ℕ)
  /-- The loop tests of `pipewrite`.  The lock was taken last when `i` was `base`. -/
  | wLoop (n : ℤ) (i base : ℕ)
  /-- `copyin` in `pipewrite`. -/
  | wCopy (n : ℤ) (i base : ℕ)
  /-- Before the first `acquire(&pi->lock)` of `piperead`, or in its `sleep`. -/
  | rAcquire (n : ℤ)
  /-- The first loop of `piperead`. -/
  | rLoop (n : ℤ)
  /-- The loop tests of the second loop of `piperead`. -/
  | rCopy (n : ℤ) (i : ℕ)
  /-- The byte taken out, and `copyout`, in `piperead`. -/
  | rTake (n : ℤ) (i : ℕ)
  /-- Before `acquire(&pi->lock)` of `pipeclose`. -/
  | cAcquire (writable : Bool)
  /-- `wakeup(c)` has come to the `k`-th process of the table. -/
  | wakeup (c : PipeChan) (k : ℕ) (next : AfterWakeup)
  deriving DecidableEq

/-- The code between `acquire(&pi->lock)` and its release. -/
def PipeLoc.critical : PipeLoc → Bool
  | user _ | wAcquire .. | rAcquire _ | cAcquire _ => false
  | wLoop .. | wCopy .. | rLoop _ | rCopy .. | rTake .. | wakeup .. => true

/-- How far a process is in `sleep`. -/
inductive PipeSleep where
  /-- Not asleep. -/
  | awake
  /-- `pi->lock` is released and `p->lock` is held; the state is not yet `SLEEPING`. -/
  | entering (c : PipeChan)
  /-- `SLEEPING` on `c`. -/
  | sleeping (c : PipeChan)
  deriving DecidableEq

/-- A process, as far as pipes are concerned. -/
structure PipeProc where
  loc : PipeLoc
  sleep : PipeSleep
  killed : Bool

/-- A pipe and the processes that may use it. -/
structure PipeState (N : ℕ) where
  pi : Pipe
  /-- The process that holds `pi->lock`. -/
  lock : Option (Fin N)
  /-- The page of the pipe was given back with `kfree`. -/
  freed : Bool
  proc : Fin N → PipeProc
  /-- The bytes put in so far. -/
  put : List UInt8
  /-- The bytes taken out so far. -/
  got : List UInt8

/-- What a process does next, with what the step gets from outside. -/
inductive PipeAct where
  /-- Call `pipewrite(pi, addr, n)`. -/
  | pipewrite (n : ℤ)
  /-- Call `piperead(pi, addr, n)`. -/
  | piperead (n : ℤ)
  /-- Call `pipeclose(pi, writable)`. -/
  | pipeclose (writable : Bool)
  /-- Go on with the code. -/
  | go
  /-- `copyin` returns a byte, or fails. -/
  | copyin (ch : Option UInt8)
  /-- `copyout` succeeds or fails. -/
  | copyout (ok : Bool)
  /-- Another process kills this one. -/
  | kill
  deriving DecidableEq

namespace PipeState

variable {N : ℕ} (s : PipeState N) (p : Fin N)

/-- Continue process `p` at `l`. -/
def goto (l : PipeLoc) : PipeState N :=
  { s with proc := update s.proc p { s.proc p with loc := l } }

/-- Change how far process `p` is in `sleep`. -/
def setSleep (z : PipeSleep) : PipeState N :=
  { s with proc := update s.proc p { s.proc p with sleep := z } }

/-- `acquire(&pi->lock)` by `p`. -/
def acquire : PipeState N := { s with lock := some p }

/-- `release(&pi->lock)`. -/
def release : PipeState N := { s with lock := none }

/-- `kill` of the process `p`. -/
def kill : PipeState N :=
  { s with
    proc := update s.proc p
      { s.proc p with
        killed := true
        sleep := match (s.proc p).sleep with
          | .sleeping _ => .awake
          | z => z } }

/-- The lock of process `p` is free: it is not on its way to `SLEEPING`. -/
def Unlocked : Prop := ∀ c, (s.proc p).sleep ≠ .entering c

instance : Decidable (s.Unlocked p) :=
  match h : (s.proc p).sleep with
  | .entering c => .isFalse fun hu => hu c h
  | .awake => .isTrue fun c hc => by rw [h] at hc; cases hc
  | .sleeping d => .isTrue fun c hc => by rw [h] at hc; cases hc

/-- One iteration of `wakeup(c)`, for the process `q`. -/
def wake (c : PipeChan) (q : Fin N) : PipeState N :=
  if (s.proc q).sleep = .sleeping c then s.setSleep q .awake else s

/-- The step of process `p` at the end of the loop of a `wakeup`. -/
def afterWakeup : AfterWakeup → PipeState N
  | .sleep n i => (s.release.goto p (.wAcquire n i)).setSleep p (.entering .nwrite)
  | .ret v => s.release.goto p (.user v)
  | .close => { s.release with freed := !s.pi.readopen && !s.pi.writeopen }.goto p (.user 0)

/-- The next step of the code of process `p`, where it gets nothing from outside.  It is `none`
where `p` waits for a lock, or for a copy. -/
def code : Option (PipeState N) :=
  match (s.proc p).sleep with
  | .entering c => some (s.setSleep p (.sleeping c))
  | .sleeping _ => none
  | .awake =>
    match (s.proc p).loc with
    | .user _ => none
    | .wAcquire n i =>
      if s.lock = none ∧ s.freed = false then some ((s.acquire p).goto p (.wLoop n i i)) else none
    | .wLoop n i base =>
      if (i : ℤ) < n then
        if s.pi.Full then
          if s.pi.readopen = false ∨ (s.proc p).killed = true then
            some (s.release.goto p (.user (-1)))
          else some (s.goto p (.wakeup .nread 0 (.sleep n i)))
        else some (s.goto p (.wCopy n i base))
      else some (s.goto p (.wakeup .nread 0 (.ret n)))
    | .wCopy .. => none
    | .rAcquire n =>
      if s.lock = none ∧ s.freed = false then some ((s.acquire p).goto p (.rLoop n)) else none
    | .rLoop n =>
      if s.pi.Empty ∧ s.pi.writeopen = true then
        if (s.proc p).killed = true then some (s.release.goto p (.user (-1)))
        else some ((s.release.goto p (.rAcquire n)).setSleep p (.entering .nread))
      else some (s.goto p (.rCopy n 0))
    | .rCopy n i =>
      if (i : ℤ) < n ∧ ¬s.pi.Empty then some (s.goto p (.rTake n i))
      else some (s.goto p (.wakeup .nwrite 0 (.ret i)))
    | .rTake .. => none
    | .cAcquire writable =>
      if s.lock = none ∧ s.freed = false then
        some ({ s.acquire p with pi := s.pi.close writable }.goto p
          (.wakeup (if writable then .nread else .nwrite) 0 .close))
      else none
    | .wakeup c k next =>
      if h : k < N then
        if s.Unlocked ⟨k, h⟩ then some ((s.wake c ⟨k, h⟩).goto p (.wakeup c (k + 1) next)) else none
      else some (s.afterWakeup p next)

/-- The step of process `p` in which `copyin` returns `ch`. -/
def copyin (ch : Option UInt8) : Option (PipeState N) :=
  match (s.proc p).loc, ch with
  | .wCopy n _ _, none => some (s.goto p (.wakeup .nread 0 (.ret n)))
  | .wCopy n i base, some ch =>
    some ({ s with pi := s.pi.push ch, put := s.put ++ [ch] }.goto p (.wLoop n (i + 1) base))
  | _, _ => none

/-- The step of process `p` in which a byte is taken out and `copyout` succeeds or not. -/
def copyout (ok : Bool) : Option (PipeState N) :=
  match (s.proc p).loc with
  | .rTake n i =>
    some ({ s with pi := s.pi.pop, got := s.got ++ [s.pi.front] }.goto p
      (if ok then .rCopy n (i + 1) else .wakeup .nwrite 0 (.ret i)))
  | _ => none

/-- Process `p`, outside of the pipe, calls one of its functions. -/
def call (l : PipeLoc) : Option (PipeState N) :=
  match (s.proc p).loc with
  | .user _ => some (s.goto p l)
  | _ => none

end PipeState

/-- The steps of the processes that use a pipe. -/
def pipeMachine (N : ℕ) : Machine (PipeState N) (Fin N × PipeAct) where
  next s l :=
    match l.2 with
    | .pipewrite n => s.call l.1 (.wAcquire n 0)
    | .piperead n => s.call l.1 (.rAcquire n)
    | .pipeclose writable => s.call l.1 (.cAcquire writable)
    | .go => s.code l.1
    | .copyin ch => s.copyin l.1 ch
    | .copyout ok => s.copyout l.1 ok
    | .kill => if s.Unlocked l.1 then some (s.kill l.1) else none

/-- The states in which `pipealloc` returns: the pipe is empty, both ends are open and no process
is in its code. -/
structure PipeState.Fresh {N : ℕ} (s : PipeState N) : Prop where
  nread : s.pi.nread = 0
  nwrite : s.pi.nwrite = 0
  readopen : s.pi.readopen = true
  writeopen : s.pi.writeopen = true
  lock : s.lock = none
  freed : s.freed = false
  user : ∀ p, ∃ r, (s.proc p).loc = .user r
  awake : ∀ p, (s.proc p).sleep = .awake
  put : s.put = []
  got : s.got = []

/-- A new pipe in a page of zeros. -/
def pipealloc (N : ℕ) : PipeState N where
  pi := { data := fun _ => 0, nread := 0, nwrite := 0, readopen := true, writeopen := true }
  lock := none
  freed := false
  proc := fun _ => { loc := .user 0, sleep := .awake, killed := false }
  put := []
  got := []

theorem fresh_pipealloc (N : ℕ) : (pipealloc N).Fresh where
  nread := rfl
  nwrite := rfl
  readopen := rfl
  writeopen := rfl
  lock := rfl
  freed := rfl
  user _ := ⟨0, rfl⟩
  awake _ := rfl
  put := rfl
  got := rfl

end Xv6Container
