import Xv6Container.Log.Group

/-!
# The buffer cache

`kernel/bio.c` together with the log of `kernel/log.c`, run by any number of processes.  A process
holds pointers to buffers, most recent first (`BufRef`), and works through straight-line code
(`BufOp`) that takes them, uses them and gives them back:

* `bget` is one step, a critical section under `bcache.lock`;
* `acquiresleep` is a step that waits while another process has the buffer, and reads the block
  from the disk if the buffer is not valid;
* copying a block into a buffer and writing the buffer to the disk is a step of the process that
  has locked the buffers involved;
* `releasesleep` and the critical section of `brelse` are a step each, and so is `bunpin`.

The log protocol is the machine of `Xv6Container.Log.Group`, a component of the state: `begin_op`,
`end_op`, the steps of `log_write` and the loops of `commit` are its steps, and every iteration of a
loop of `commit`, and every `write_head`, has code of its own to work through.  At boot the first
process runs `recover_from_log` and no other process runs.

Three histories stand beside the code's own state: the blocks whose buffers `log_write` has pinned
and `install_trans` has not unpinned (`live`), the contents each block had when it was last logged
(`flat`), and which buffers were changed since (`dirty`).
-/

namespace Xv6Container

open Function

/-- Size of the disk block cache. -/
abbrev NBUF : ℕ := MAXOPBLOCKS * 3

/-- `struct buf`; its place in the list of buffers is in `BioState.order`. -/
structure Buf (N : ℕ) where
  /-- Has data been read from disk? -/
  valid : Bool
  dev : ℕ
  blockno : ℕ
  /-- The process that holds the sleep lock. -/
  lock : Option (Fin N)
  refcnt : UInt32
  data : Block

/-- A pointer to a buffer that a process got from `bget`. -/
structure BufRef (B : ℕ) where
  buf : Fin B
  /-- The block that was asked for. -/
  blk : ℕ
  /-- The process has locked the buffer. -/
  locked : Bool

/-- The steps of straight-line code.  Buffers are named by their place among the pointers of the
process. -/
inductive BufOp where
  /-- `bget(ROOTDEV, b)` up to its `acquiresleep`. -/
  | bget (b : ℕ)
  /-- `acquiresleep(&b->lock)` of the buffer got last, and the disk read of `bread`. -/
  | lock
  /-- `memmove(dst->data, src->data, BSIZE); bwrite(dst)`. -/
  | copy (dst src : ℕ)
  /-- Fill the header from `log.lh`, and `bwrite`. -/
  | writeHead
  /-- Fill `log.lh` from the header. -/
  | readHead
  /-- `bunpin`. -/
  | bunpin (k : ℕ)
  /-- `releasesleep(&b->lock)` of `brelse`. -/
  | unlock (k : ℕ)
  /-- The critical section of `brelse`. -/
  | unref (k : ℕ)
  deriving DecidableEq

/-- `bread(ROOTDEV, b)`. -/
@[simp]
def breadCode (b : ℕ) : List BufOp := [.bget b, .lock]

/-- `brelse` of the `k`-th buffer. -/
@[simp]
def brelseCode (k : ℕ) : List BufOp := [.unlock k, .unref k]

/-- An iteration of `write_log`: `from` is the buffer got last, `to` the one before. -/
@[simp]
def writeLogCode (logBlock home : ℕ) : List BufOp :=
  breadCode logBlock ++ breadCode home ++ [.copy 1 0] ++ brelseCode 0 ++ brelseCode 0

/-- An iteration of `install_trans`: `dbuf` is the buffer got last, `lbuf` the one before. -/
@[simp]
def installCode (logBlock home : ℕ) : List BufOp :=
  breadCode logBlock ++ breadCode home ++ [.copy 0 1, .bunpin 0] ++ brelseCode 1 ++ brelseCode 0

/-- `write_head`. -/
@[simp]
def writeHeadCode (start : ℕ) : List BufOp := breadCode start ++ [.writeHead] ++ brelseCode 0

/-- `read_head`. -/
def readHeadCode (start : ℕ) : List BufOp := breadCode start ++ [.readHead] ++ brelseCode 0

/-- A process, as far as buffers are concerned. -/
structure BioProc (B : ℕ) where
  /-- Its buffers, the one got last first. -/
  refs : List (BufRef B)
  /-- The code it has yet to work through. -/
  code : List BufOp
  /-- The place of the buffer that `log_write` was called with. -/
  arg : ℕ

/-- Where the first process is in `recover_from_log`. -/
inductive BootLoc where
  | readHead
  | installTrans (tail : ℕ)
  | clear
  | eraseHead
  | leave
  /-- `initlog` has returned. -/
  | done
  deriving DecidableEq

/-- The buffer cache, the log, the disk and the processes. -/
structure BioState (N B : ℕ) where
  grp : GroupState N
  buf : Fin B → Buf N
  /-- The list of buffers, from `bcache.head.next` on. -/
  order : List (Fin B)
  disk : Disk
  proc : Fin N → BioProc B
  boot : BootLoc
  /-- The blocks whose buffers are pinned. -/
  live : List ℕ
  /-- What was last logged for every block, or else what was on the disk at the start. -/
  flat : Disk
  /-- The buffers whose data a process has changed and not yet logged. -/
  dirty : Fin B → Bool

/-- What a process does next. -/
inductive BioAct where
  | beginOp
  | endOp
  /-- Call `bread(ROOTDEV, b)`. -/
  | bread (b : ℕ)
  /-- Change the data of the `k`-th buffer. -/
  | modify (k : ℕ) (data : Block)
  /-- Call `log_write` of the `k`-th buffer. -/
  | logWrite (k : ℕ)
  /-- Call `brelse` of the `k`-th buffer. -/
  | brelse (k : ℕ)
  /-- Go on with the code. -/
  | go
  /-- Be killed by another process. -/
  | kill

namespace BioState

variable {N B : ℕ} (s : BioState N B) (p : Fin N)

/-- Buffer `i` is the buffer of block `b`. -/
def Caches (i : Fin B) (b : ℕ) : Prop := (s.buf i).dev = ROOTDEV ∧ (s.buf i).blockno = b

instance (i : Fin B) (b : ℕ) : Decidable (s.Caches i b) := inferInstanceAs (Decidable (_ ∧ _))

/-- The first loop of `bget`. -/
def cached (b : ℕ) : Option (Fin B) := s.order.find? fun i => s.Caches i b

/-- The second loop of `bget`, from the end of the list. -/
def unused : Option (Fin B) := s.order.reverse.find? fun i => (s.buf i).refcnt = 0

/-- Replace buffer `i`. -/
def setBuf (i : Fin B) (b : Buf N) : BioState N B := { s with buf := update s.buf i b }

/-- Replace the buffers of process `p`. -/
def setRefs (refs : List (BufRef B)) : BioState N B :=
  { s with proc := update s.proc p { s.proc p with refs := refs } }

/-- Replace the code of process `p`. -/
def setCode (code : List BufOp) : BioState N B :=
  { s with proc := update s.proc p { s.proc p with code := code } }

/-- Replace the log component. -/
def setGrp (g : GroupState N) : BioState N B := { s with grp := g }

/-- A new pointer of process `p`, to buffer `i` of block `b`. -/
def push (i : Fin B) (b : ℕ) : BioState N B :=
  s.setRefs p ({ buf := i, blk := b, locked := false } :: (s.proc p).refs)

/-- `b->refcnt++` of buffer `i`. -/
def incref (i : Fin B) : BioState N B :=
  s.setBuf i { s.buf i with refcnt := (s.buf i).refcnt + 1 }

/-- `b->refcnt--` of buffer `i`. -/
def decref (i : Fin B) : BioState N B :=
  s.setBuf i { s.buf i with refcnt := (s.buf i).refcnt - 1 }

/-- Buffer `i` is given to block `b`. -/
@[simp]
def recycle (i : Fin B) (b : ℕ) : BioState N B :=
  s.setBuf i { s.buf i with dev := ROOTDEV, blockno := b, valid := false, refcnt := 1 }

/-- Write buffer `i`, with new data, to the disk. -/
def store (i : Fin B) (x : Block) : BioState N B :=
  { s.setBuf i { s.buf i with data := x } with
    disk := update s.disk (s.buf i).blockno x }

/-- Lock buffer `i` for process `p`, and read the block from the disk if it is not valid. -/
def fill (i : Fin B) : BioState N B :=
  s.setBuf i
    { s.buf i with
      lock := some p
      valid := true
      data := if (s.buf i).valid then (s.buf i).data else s.disk (s.buf i).blockno }

/-- Move a buffer that nobody refers to any more to the front of the list. -/
def touch (i : Fin B) : BioState N B :=
  if (s.buf i).refcnt = 0 then { s with order := i :: s.order.erase i } else s

/-- `bget`. -/
def bget (b : ℕ) : BioState N B :=
  match s.cached b with
  | some i => (s.incref i).push p i b
  | none =>
    match s.unused with
    | some i => (s.recycle i b).push p i b
    | none => s.setGrp (s.grp.panic "bget: no buffers")

/-- One step of the code of process `p`. -/
def exec : BufOp → Option (BioState N B)
  | .bget b => some (s.bget p b)
  | .lock =>
    match (s.proc p).refs with
    | r :: rs =>
      if (s.buf r.buf).lock = none then
        some ((s.fill p r.buf).setRefs p ({ r with locked := true } :: rs))
      else none
    | [] => none
  | .copy dst src =>
    match (s.proc p).refs[dst]?, (s.proc p).refs[src]? with
    | some d, some r => some (s.store d.buf (s.buf r.buf).data)
    | _, _ => none
  | .writeHead =>
    match (s.proc p).refs[0]? with
    | some r => some (s.store r.buf (putHeader (s.buf r.buf).data s.grp.log.lh))
    | none => none
  | .readHead =>
    match (s.proc p).refs[0]? with
    | some r =>
      some (s.setGrp { s.grp with log := { s.grp.log with lh := getHeader (s.buf r.buf).data } })
    | none => none
  | .bunpin k =>
    match (s.proc p).refs[k]? with
    | some r => some { s.decref r.buf with live := s.live.erase (s.buf r.buf).blockno }
    | none => none
  | .unlock k =>
    match (s.proc p).refs[k]? with
    | some r =>
      some ((s.setBuf r.buf { s.buf r.buf with lock := none }).setRefs p
        ((s.proc p).refs.set k { r with locked := false }))
    | none => none
  | .unref k =>
    match (s.proc p).refs[k]? with
    | some r => some (((s.decref r.buf).touch r.buf).setRefs p ((s.proc p).refs.eraseIdx k))
    | none => none

/-- The code that belongs to a step of `commit`. -/
def commitCode (l : Log) : CommitLoc → List BufOp
  | .writeLog tail =>
    match l.lh[tail]? with
    | some b => writeLogCode (l.start + tail + 1) b
    | none => []
  | .installTrans tail =>
    match l.lh[tail]? with
    | some b => installCode (l.start + tail + 1) b
    | none => []
  | .writeHead | .eraseHead => writeHeadCode l.start
  | .enter | .clear | .leave => []

/-- The critical section of `log_write` for the buffer of pointer `r`: a block that is logged for
the first time pins its buffer. -/
def record (r : BufRef B) : BioState N B :=
  let b := (s.buf r.buf).blockno
  let t := if b ∈ s.grp.log.lh then s else { s.incref r.buf with live := s.live ++ [b] }
  { t with
    flat := update s.flat b (s.buf r.buf).data
    dirty := update s.dirty r.buf false }

/-- Change the data of buffer `i`. -/
def modify (i : Fin B) (x : Block) : BioState N B :=
  { s.setBuf i { s.buf i with data := x } with dirty := update s.dirty i true }

/-- The log goes on with `commit` at `c`, and process `p` has the code of this step to do. -/
@[reducible]
def commitGo (c : CommitLoc) (g : GroupState N) : BioState N B :=
  (s.setCode p (commitCode s.grp.log c)).setGrp g

/-- A step of the log code of process `p`. -/
def logStep : Option (BioState N B) :=
  match (groupMachine N).next s.grp (p, .go) with
  | none => none
  | some g =>
    match s.grp.loc p with
    | .logging _ .record =>
      match (s.proc p).refs[(s.proc p).arg]? with
      | some r => some ((s.record r).setGrp g)
      | none => none
    | .commit c => some (s.commitGo p c g)
    | _ => some (s.setGrp g)

/-- A step of `recover_from_log`. -/
def bootStep : Option (BioState N B) :=
  match s.boot with
  | .readHead => some { s.setCode p (readHeadCode s.grp.log.start) with boot := .installTrans 0 }
  | .installTrans tail =>
    match s.grp.log.lh[tail]? with
    | some b =>
      some { s.setCode p (installCode (s.grp.log.start + tail + 1) b) with
        boot := .installTrans (tail + 1) }
    | none => some { s with boot := .clear }
  | .clear =>
    some { s.setGrp { s.grp with log := { s.grp.log with lh := [] } } with boot := .eraseHead }
  | .eraseHead => some { s.setCode p (writeHeadCode s.grp.log.start) with boot := .leave }
  | .leave => some { s with boot := .done }
  | .done => none

/-- The next step of the code of process `p`. -/
def code (initproc : Fin N) : Option (BioState N B) :=
  match (s.proc p).code with
  | op :: rest => (s.setCode p rest).exec p op
  | [] => if s.boot = .done then s.logStep p else if p = initproc then s.bootStep p else none

/-- Process `p` has returned from its last call, and is not in the code of the log. -/
def Ready : Prop :=
  s.boot = .done ∧ (s.proc p).code = [] ∧ (s.grp.loc p = .user ∨ s.grp.loc p = .inOp)

instance : Decidable (s.Ready p) := inferInstanceAs (Decidable (_ ∧ _ ∧ _))

/-- A call of process `p` with its `k`-th buffer, which it has locked. -/
def withRef (k : ℕ) (f : BufRef B → Option (BioState N B)) : Option (BioState N B) :=
  match (s.proc p).refs[k]? with
  | some r => if r.locked = true then f r else none
  | none => none

end BioState

/-- The steps of the processes that use the buffer cache and the log. -/
def bioMachine (N B : ℕ) (initproc : Fin N) : Machine (BioState N B) (Fin N × BioAct) where
  next s l :=
    if s.grp.stop ≠ none then none
    else match l.2 with
    | .go => s.code l.1 initproc
    | .kill => ((groupMachine N).next s.grp (l.1, .kill)).map s.setGrp
    | .beginOp =>
      if s.Ready l.1 then ((groupMachine N).next s.grp (l.1, .beginOp)).map s.setGrp else none
    | .endOp =>
      if s.Ready l.1 then ((groupMachine N).next s.grp (l.1, .endOp)).map s.setGrp else none
    | .bread b => if s.Ready l.1 then some (s.setCode l.1 (breadCode b)) else none
    | .brelse k =>
      if s.Ready l.1 then s.withRef l.1 k fun _ => some (s.setCode l.1 (brelseCode k)) else none
    | .modify k data =>
      if s.Ready l.1 then
        s.withRef l.1 k fun r => some (s.modify r.buf data)
      else none
    | .logWrite k =>
      if s.Ready l.1 then
        s.withRef l.1 k fun r =>
          ((groupMachine N).next s.grp (l.1, .logWrite (s.buf r.buf).blockno)).map fun g =>
            { s.setGrp g with
              proc := update s.proc l.1 { s.proc l.1 with arg := k } }
      else none

end Xv6Container
