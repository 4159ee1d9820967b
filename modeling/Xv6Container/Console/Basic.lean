import Xv6Container.Machine.Basic
import Xv6Container.Kernel.Param

/-!
# Virtual consoles

`kernel/console.c`: characters from the uart go to the console that is active, and a process reads
the console whose device it has opened.  `consoleintr` is one step; `consoleread` runs under
`cons->lock` until it returns or sleeps, so it is one step up to its first `sleep` and one step
after each wakeup.  A sleeping reader may wake up at any time: the code tests its condition again.

An index beyond the array `consoles[]` stops the model with `Stop.fault`; the code would go on with
the memory after the array.  What is written to the uart is left out: nothing reads it back.

Two histories belong to the state and are read by no code: `typed`, the characters from the uart
with the console that was active, and `delivered`, the characters copied to a reader with the
console that it reads.  For this a character in a buffer carries its place in `typed`.
-/

namespace Xv6Container

open Function

/-- Number of virtual consoles. -/
abbrev NCONS : ℕ := 5

/-- Size of the input buffer of a console. -/
abbrev INPUT_BUF : ℕ := 128

/-- `C(x)`: the character control-x. -/
def ctrl (x : Char) : UInt8 := UInt8.ofNat (x.toNat - 64)

/-- The character `'\n'`. -/
def newline : UInt8 := 10

/-- The character `'\r'`. -/
def carriageReturn : UInt8 := 13

/-- A character in an input buffer. -/
structure Key where
  c : UInt8
  /-- Its place in the history of typed characters. -/
  stamp : ℕ
  deriving DecidableEq

/-- `struct input`, without its lock.  Only the entries of `buf` below `INPUT_BUF` exist. -/
structure Input where
  buf : ℕ → Key
  /-- Read index. -/
  r : UInt32
  /-- Write index. -/
  w : UInt32
  /-- Edit index. -/
  e : UInt32

namespace Input

variable (i : Input)

/-- The loop of control-U, with `n` characters between `w` and `e`. -/
def killLine : ℕ → Input → Input
  | 0, i => i
  | n + 1, i =>
    if i.e ≠ i.w ∧ (i.buf ((i.e - 1).toNat % INPUT_BUF)).c ≠ newline then
      killLine n { i with e := i.e - 1 }
    else i

/-- Control-H. -/
def backspace : Input := if i.e ≠ i.w then { i with e := i.e - 1 } else i

/-- The character a key stands for in the buffer. -/
def stored (c : UInt8) : UInt8 := if c = carriageReturn then newline else c

/-- A character that is not special: store it, and show the line to the reader when it is
complete. -/
def store (c : UInt8) (stamp : ℕ) : Input :=
  if c ≠ 0 ∧ (i.e - i.r).toNat < INPUT_BUF then
    let c := stored c
    let i := { i with
      buf := update i.buf (i.e.toNat % INPUT_BUF) ⟨c, stamp⟩
      e := i.e + 1 }
    if c = newline ∨ c = ctrl 'D' ∨ i.e = i.r + UInt32.ofNat INPUT_BUF then { i with w := i.e }
    else i
  else i

/-- What `consoleintr` does to the input of the active console. -/
def intr (c : UInt8) (stamp : ℕ) : Input :=
  if c = ctrl 'P' then i
  else if c = ctrl 'U' then killLine (i.e - i.w).toNat i
  else if c = ctrl 'H' ∨ c = 0x7f then i.backspace
  else if c = ctrl 'T' then i
  else i.store c stamp

end Input

/-- A call of `consoleread` that has not returned. -/
structure ConsoleReader where
  /-- The console it reads. -/
  cons : Fin NCONS
  /-- The number of bytes asked for. -/
  target : ℕ
  /-- The number of bytes still wanted. -/
  n : ℕ
  /-- Whether byte `j` of the destination can be written. -/
  mapped : ℕ → Bool

/-- How a run of the loop of `consoleread` ends. -/
inductive ReadEnd where
  /-- It returns a value. -/
  | ret (v : ℤ)
  /-- It sleeps, with `n` bytes still wanted. -/
  | sleep (n : ℕ)

/-- The loop of `consoleread`, with `n` bytes still wanted: how it ends, the input and the
characters copied to the reader. -/
def readLoop (target : ℕ) (mapped : ℕ → Bool) (killed : Bool) :
    ℕ → Input → ReadEnd × Input × List Key
  | 0, i => (.ret target, i, [])
  | n + 1, i =>
    if i.r = i.w then
      if killed then (.ret (-1), i, []) else (.sleep (n + 1), i, [])
    else
      let x := i.buf (i.r.toNat % INPUT_BUF)
      let i' := { i with r := i.r + 1 }
      if x.c = ctrl 'D' then
        -- end of file; it is kept for the next call if this one has read something
        if n + 1 < target then (.ret (target - (n + 1)), { i' with r := i'.r - 1 }, [])
        else (.ret (target - (n + 1)), i', [])
      else if mapped (target - (n + 1)) = false then (.ret (target - (n + 1)), i', [])
      else if x.c = newline then (.ret (target - n), i', [x])
      else
        let (e, i', xs) := readLoop target mapped killed n i'
        (e, i', x :: xs)

/-- The consoles and the processes that read from them. -/
structure Consoles where
  /-- The number of the active console; the first one has number 1. -/
  active : ℕ
  consoles : Fin NCONS → Input
  /-- The call of `consoleread` that a process is in. -/
  reader : ℕ → Option ConsoleReader
  /-- The characters from the uart, with the console that was active. -/
  typed : List (ℕ × UInt8)
  /-- The characters copied to readers, with the number of the console they read. -/
  delivered : List (ℕ × Key)

namespace Consoles

variable (s : Consoles)

/-- `&consoles[active - 1]`. -/
def activeCons : Except Stop (Fin NCONS) :=
  if h : 1 ≤ s.active ∧ s.active ≤ NCONS then .ok ⟨s.active - 1, by omega⟩ else .error .fault

/-- `consoleintr`. -/
def consoleintr (c : UInt8) : Except Stop Consoles := do
  let k ← s.activeCons
  let s := { s with
    consoles := update s.consoles k ((s.consoles k).intr c s.typed.length)
    typed := s.typed ++ [(s.active, c)] }
  if c = ctrl 'T' then
    return { s with active := s.active % (NCONS + 1) + 1 }
  else return s

/-- `consolewrite`: it takes the lock of the active console and writes to the uart. -/
def consolewrite : Except Stop Consoles := do
  let _ ← s.activeCons
  return s

/-- Process `p` runs the loop of its call `rd`. -/
def runReader (p : ℕ) (rd : ConsoleReader) (killed : Bool) : Consoles :=
  let (e, i, xs) := readLoop rd.target rd.mapped killed rd.n (s.consoles rd.cons)
  { s with
    consoles := update s.consoles rd.cons i
    reader := update s.reader p
      (match e with
        | .ret _ => none
        | .sleep n => some { rd with n := n })
    delivered := s.delivered ++ xs.map fun x => ((rd.cons : ℕ) + 1, x) }

end Consoles

/-- A step of the console driver. -/
inductive ConsoleEvent where
  /-- A character arrives from the uart. -/
  | intr (c : UInt8)
  /-- Process `p` calls `consoleread` on a console device. -/
  | read (p : ℕ) (cons : Fin NCONS) (n : ℕ) (mapped : ℕ → Bool) (killed : Bool)
  /-- Process `p` wakes up in `consoleread`. -/
  | wake (p : ℕ) (killed : Bool)
  /-- A process writes to a console device. -/
  | write

/-- The step `e`: `none` when no process can take it, an error when it leaves the array. -/
def Consoles.step (s : Consoles) : ConsoleEvent → Option (Except Stop Consoles)
  | .intr c => some (s.consoleintr c)
  | .read p cons n mapped killed =>
    match s.reader p with
    | some _ => none
    | none => some (.ok (s.runReader p ⟨cons, n, n, mapped⟩ killed))
  | .wake p killed =>
    match s.reader p with
    | none => none
    | some rd => some (.ok (s.runReader p rd killed))
  | .write => some s.consolewrite

/-- **The console driver.**  An access beyond the array `consoles[]` is not a step. -/
def consoleDriver : Machine Consoles ConsoleEvent where
  next s e := (s.step e).bind Except.toOption

/-- The consoles after `consoleinit`, which copies what is on the stack to the buffers. -/
@[simps]
def consoleinit (junk : Fin NCONS → ℕ → Key) : Consoles where
  active := 1
  consoles k := { buf := junk k, r := 0, w := 0, e := 0 }
  reader _ := none
  typed := []
  delivered := []

end Xv6Container
