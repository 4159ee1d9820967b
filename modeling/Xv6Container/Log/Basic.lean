import Xv6Container.Kernel.Param
import Xv6Container.Data.Bytes
import Mathlib.Data.List.Lemmas

/-!
# The redo log

The log of `kernel/log.c`.  A transaction's modified blocks stay in the buffer cache until
`commit` copies them to the log region, writes the header block (the commit point), copies the
logged blocks to their home locations and clears the header again.  After a crash
`recoverFromLog` repeats the copying from whatever header it finds on the disk.

The state `LogState` separates what survives a crash (`disk`) from what does not (`cache`, the
buffer contents as `bread` returns them, and the in-memory `log`).  Its field `writes` records
the disk block writes in program order: the disk of a machine that stops after `k` of them is
`applyWrites d (writes.take k)`.

`struct logheader` is kept as the list `lh.block[0 .. lh.n)`; on the disk it is laid out as
little-endian words, `n` first (`putHeader`, `getHeader`).
-/

namespace Xv6Container

open Function

/-- A disk: the contents of every block. -/
abbrev Disk := ℕ → Block

/-! ### Sequences of block writes -/

/-- Perform block writes in order. -/
def applyWrites (d : Disk) (ws : List (ℕ × Block)) : Disk :=
  ws.foldl (fun d w => update d w.1 w.2) d

@[simp] theorem applyWrites_nil (d : Disk) : applyWrites d [] = d := rfl

@[simp] theorem applyWrites_cons (d : Disk) (w : ℕ × Block) (ws : List (ℕ × Block)) :
    applyWrites d (w :: ws) = applyWrites (update d w.1 w.2) ws := rfl

theorem applyWrites_append (d : Disk) (ws vs : List (ℕ × Block)) :
    applyWrites d (ws ++ vs) = applyWrites (applyWrites d ws) vs :=
  List.foldl_append

theorem applyWrites_of_notMem {d : Disk} {ws : List (ℕ × Block)} {b : ℕ}
    (h : b ∉ ws.map Prod.fst) : applyWrites d ws b = d b := by
  induction ws generalizing d with
  | nil => rfl
  | cons w ws ih =>
    simp only [List.map_cons, List.mem_cons, not_or] at h
    rw [applyWrites_cons, ih h.2, update_of_ne h.1]

theorem applyWrites_of_mem {d : Disk} {ws : List (ℕ × Block)} {b : ℕ} {v : Block}
    (hn : (ws.map Prod.fst).Nodup) (h : (b, v) ∈ ws) : applyWrites d ws b = v := by
  induction ws generalizing d with
  | nil => cases h
  | cons w ws ih =>
    simp only [List.map_cons, List.nodup_cons] at hn
    rw [applyWrites_cons]
    rcases List.mem_cons.1 h with rfl | h
    · rw [applyWrites_of_notMem hn.1, update_self]
    · exact ih hn.2 h

/-! ### The header block -/

/-- Store `xs` in `block[i], block[i+1], ...` of a header block. -/
def putBlocks : List ℕ → ℕ → Block → Block
  | [], _, b => b
  | x :: xs, i, b => putBlocks xs (i + 1) (setLE 4 b (4 * (i + 1)) x)

/-- Store the header `lh` in a header block; the words after `block[n-1]` keep their values. -/
def putHeader (b : Block) (lh : List ℕ) : Block := putBlocks lh 0 (setLE 4 b 0 lh.length)

/-- The field `n` of a header block, a signed 32-bit integer. -/
def headerN (b : Block) : ℤ := (BitVec.ofNat 32 (getLE 4 b 0)).toInt

/-- The header stored in a header block. -/
def getHeader (b : Block) : List ℕ :=
  (List.range (headerN b).toNat).map fun i => getLE 4 b (4 * (i + 1))

theorem getLE_putBlocks_of_lt {xs : List ℕ} {i o : ℕ} {b : Block} (h : o + 4 ≤ 4 * (i + 1)) :
    getLE 4 (putBlocks xs i b) o = getLE 4 b o := by
  induction xs generalizing i b with
  | nil => rfl
  | cons x xs ih => rw [putBlocks, ih (by omega), getLE_setLE_of_disjoint (by omega)]

theorem getLE_putBlocks {xs : List ℕ} {i : ℕ} {b : Block} (hx : ∀ x ∈ xs, x < 2 ^ 32) {k : ℕ}
    (hk : k < xs.length) : getLE 4 (putBlocks xs i b) (4 * (i + k + 1)) = xs[k] := by
  induction xs generalizing i b k with
  | nil => simp at hk
  | cons x xs ih =>
    cases k with
    | zero =>
      have hx0 : x < 256 ^ 4 := hx x List.mem_cons_self
      rw [putBlocks, getLE_putBlocks_of_lt (by omega), Nat.add_zero, getLE_setLE_of_lt hx0]
      rfl
    | succ k =>
      have := ih (i := i + 1) (b := setLE 4 b (4 * (i + 1)) x)
        (fun y hy => hx y (List.mem_cons_of_mem _ hy)) (by simpa using hk)
      rw [putBlocks, List.getElem_cons_succ, ← this]
      congr 1
      omega

theorem headerN_putHeader {b : Block} {lh : List ℕ} (hn : lh.length < 2 ^ 31) :
    headerN (putHeader b lh) = lh.length := by
  have hlen : getLE 4 (putHeader b lh) 0 = lh.length := by
    rw [putHeader, getLE_putBlocks_of_lt (by omega), getLE_setLE_of_lt (by omega)]
  rw [headerN, hlen, BitVec.toInt_ofNat', Int.bmod_eq_of_le] <;> omega

theorem getHeader_putHeader {b : Block} {lh : List ℕ} (hn : lh.length < 2 ^ 31)
    (hx : ∀ x ∈ lh, x < 2 ^ 32) : getHeader (putHeader b lh) = lh := by
  rw [getHeader, headerN_putHeader hn, Int.toNat_natCast]
  apply List.ext_getElem
  · simp
  · intro k h1 h2
    simpa [putHeader] using getLE_putBlocks (i := 0) (b := setLE 4 b 0 lh.length) hx h2

/-! ### The in-memory log -/

/-- `struct log`, with `lh.block[0 .. lh.n)` as the list `lh`. -/
structure Log where
  /-- Block number of the header block. -/
  start : ℕ
  /-- Number of blocks of the log region. -/
  size : ℕ
  /-- How many file system calls are executing. -/
  outstanding : ℤ
  /-- In `commit`, please wait. -/
  committing : Bool
  /-- The logged block numbers. -/
  lh : List ℕ

/-- The critical section of `log_write`.  A block that is logged already is absorbed: storing its
number over itself changes nothing. -/
def Log.record (l : Log) (b : ℕ) : Log := if b ∈ l.lh then l else { l with lh := l.lh ++ [b] }

/-- `log_write`: record that block `b` was modified. -/
def Log.logWrite (l : Log) (b : ℕ) : Except Stop Log :=
  if LOGSIZE ≤ l.lh.length ∨ l.size - 1 ≤ l.lh.length then
    .error (.panic "too big a transaction")
  else if l.outstanding < 1 then
    .error (.panic "log_write outside of trans")
  else
    .ok (l.record b)

/-! ### Copying between the cache, the log and the disk -/

/-- The machine running the log code. -/
structure LogState where
  /-- Survives a crash. -/
  disk : Disk
  /-- The contents `bread` returns; lost in a crash. -/
  cache : Disk
  /-- The in-memory log; lost in a crash. -/
  log : Log
  /-- The disk block writes so far, oldest first. -/
  writes : List (ℕ × Block)

namespace LogState

variable (m : LogState)

/-- `bwrite`: write the buffer of block `b` to the disk. -/
def bwrite (b : ℕ) : LogState :=
  { m with disk := update m.disk b (m.cache b), writes := m.writes ++ [(b, m.cache b)] }

/-- `memmove` the buffer of block `src` to the buffer of block `dst` and write that one to the
disk: the loop body of `write_log` and of `install_trans`. -/
def copyBlock (dst src : ℕ) : LogState :=
  { m with cache := update m.cache dst (m.cache src) }.bwrite dst

/-- Copy a list of blocks, given as destination and source. -/
def copyBlocks (ps : List (ℕ × ℕ)) : LogState := ps.foldl (fun m p => m.copyBlock p.1 p.2) m

/-- `write_log`: copy modified blocks from the cache to the log. -/
def writeLog : LogState :=
  m.copyBlocks (m.log.lh.zipIdx.map fun p => (m.log.start + p.2 + 1, p.1))

/-- `install_trans`: copy committed blocks from the log to their home location. -/
def installTrans : LogState :=
  m.copyBlocks (m.log.lh.zipIdx.map fun p => (p.1, m.log.start + p.2 + 1))

/-- `write_head`: write the in-memory header to the disk. -/
def writeHead : LogState :=
  { m with
    cache := update m.cache m.log.start (putHeader (m.cache m.log.start) m.log.lh)
  }.bwrite m.log.start

/-- `read_head`: read the header from the disk. -/
def readHead : LogState :=
  { m with log := { m.log with lh := getHeader (m.cache m.log.start) } }

/-- `log.lh.n = 0`. -/
@[simp]
def clearHead : LogState := { m with log := { m.log with lh := [] } }

/-- `recover_from_log`. -/
def recoverFromLog : LogState := m.readHead.installTrans.clearHead.writeHead

/-- `commit`. -/
def commit : LogState :=
  if m.log.lh.length > 0 then m.writeLog.writeHead.installTrans.clearHead.writeHead else m

/-- The disk writes `ws`, done through the cache. -/
@[simp]
def emit (ws : List (ℕ × Block)) : LogState :=
  { m with
    disk := applyWrites m.disk ws
    cache := applyWrites m.cache ws
    writes := m.writes ++ ws }

variable {m}

theorem copyBlock_eq_emit (dst src : ℕ) :
    m.copyBlock dst src = m.emit [(dst, m.cache src)] := by
  simp [copyBlock, bwrite, emit]

theorem emit_emit (ws vs : List (ℕ × Block)) : (m.emit ws).emit vs = m.emit (ws ++ vs) := by
  simp [emit, applyWrites_append]

theorem copyBlocks_eq_emit {ps : List (ℕ × ℕ)} (h : ∀ p ∈ ps, ∀ q ∈ ps, p.1 ≠ q.2) :
    m.copyBlocks ps = m.emit (ps.map fun p => (p.1, m.cache p.2)) := by
  induction ps generalizing m with
  | nil => simp [copyBlocks, emit]
  | cons p ps ih =>
    have hrest : ∀ q ∈ ps, ∀ r ∈ ps, q.1 ≠ r.2 := fun q hq r hr =>
      h q (List.mem_cons_of_mem _ hq) r (List.mem_cons_of_mem _ hr)
    have hmap : (ps.map fun q => (q.1, (m.emit [(p.1, m.cache p.2)]).cache q.2)) =
        ps.map fun q => (q.1, m.cache q.2) := by
      refine List.map_congr_left fun q hq => ?_
      have hne : q.2 ≠ p.1 := (h p List.mem_cons_self q (List.mem_cons_of_mem _ hq)).symm
      simp [emit, hne]
    change (m.copyBlock p.1 p.2).copyBlocks ps = _
    rw [copyBlock_eq_emit, ih hrest, hmap, emit_emit]
    rfl

theorem writeHead_eq_emit :
    m.writeHead = m.emit [(m.log.start, putHeader (m.cache m.log.start) m.log.lh)] := by
  simp [writeHead, bwrite, emit]

end LogState

end Xv6Container
