import Mathlib.Tactic

/-!
# Kernel parameters

The constants of `kernel/param.h` and `kernel/fs.h`, and the ways in which kernel code can stop
without returning.
-/

namespace Xv6Container

/-- Maximum number of processes. -/
abbrev NPROC : ℕ := 64

/-- Maximum number of CPUs. -/
abbrev NCPU : ℕ := 8

/-- Maximum number of containers. -/
abbrev NCONTS : ℕ := 5

instance : NeZero NPROC := ⟨by decide⟩

instance : NeZero NCPU := ⟨by decide⟩

instance : NeZero NCONTS := ⟨by decide⟩

/-- Open files per process. -/
abbrev NOFILE : ℕ := 16

/-- Open files per system. -/
abbrev NFILE : ℕ := 100

/-- Maximum number of active i-nodes. -/
abbrev NINODE : ℕ := 50

/-- Device number of the file system root disk. -/
abbrev ROOTDEV : ℕ := 1

/-- Maximum number of blocks any file system operation writes. -/
abbrev MAXOPBLOCKS : ℕ := 10

/-- Maximum number of data blocks in the on-disk log. -/
abbrev LOGSIZE : ℕ := MAXOPBLOCKS * 3

/-- Maximum file path name. -/
abbrev MAXPATH : ℕ := 128

/-- Bytes per page. -/
abbrev PGSIZE : ℕ := 4096

/-- Block size. -/
abbrev BSIZE : ℕ := 1024

/-- The contents of a disk block or of a buffer's `data` array; only the entries below `BSIZE`
exist. -/
abbrev Block := ℕ → UInt8

/-- The ways in which kernel code ends without returning to its caller. -/
inductive Stop where
  /-- `panic(msg)`. -/
  | panic (msg : String)
  /-- A load or store through an unmapped kernel address; `kerneltrap` panics. -/
  | fault
  /-- The process waits for a lock that it holds itself. -/
  | deadlock
  deriving DecidableEq, Repr

end Xv6Container
