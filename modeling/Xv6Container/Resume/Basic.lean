import Xv6Container.Fs.Dir
import Xv6Container.Mem.PageTable
import Xv6Container.Resume.Format

/-!
# Suspending and resuming a process

`suspend` and `resume` of `kernel/proc.c` with the functions they use: `filewrite`, `uvmalloc`,
`uvmclear`, `loadseg`, and the way back to the user through `sys_resume`, `syscall` and
`usertrapret`.

The files are those of the file system model.  A page table is given by its user part, with the bit
`PTE_U` and the bytes of each page (`PageMap`); pages are taken and given back elsewhere, and what
comes of a `kalloc` is an argument (`ResumeMem`).  The file that `suspend` writes to is of type
`FD_INODE`.
-/

namespace Xv6Container

open Function

/-! ### Writing to a file -/

/-- A `struct file` of type `FD_INODE`, without its reference count. -/
structure InodeFile where
  readable : Bool
  writable : Bool
  /-- The inode, as an index into the inode cache. -/
  ip : ℕ
  off : ℕ
  deriving DecidableEq

/-- The most bytes that `filewrite` writes in one transaction. -/
def maxWrite : ℕ := (MAXOPBLOCKS - 1 - 1 - 2) / 2 * BSIZE

/-- The loop of `filewrite`, with `i` bytes written; byte `j` of the source is `src j`, if it is
mapped.  It returns the number of bytes written and the file. -/
def filewriteLoop (src : ℕ → Option UInt8) (n : ℕ) :
    (fuel i : ℕ) → InodeFile → FsM (ℕ × InodeFile)
  | 0, i, f => return (i, f)
  | fuel + 1, i, f =>
    if n ≤ i then return (i, f)
    else do
      let n₁ := min (n - i) maxWrite
      beginOp
      ilock f.ip
      let r ← writei f.ip (fun j => src (i + j)) f.off n₁
      let f := if 0 < r then { f with off := f.off + r.toNat } else f
      iunlock f.ip
      endOp
      if r < 0 then return (i, f)
      else if r ≠ n₁ then throw (.panic "short filewrite")
      else filewriteLoop src n fuel (i + r.toNat) f

/-- `filewrite`, and the file after it. -/
def filewrite (f : InodeFile) (src : ℕ → Option UInt8) (n : ℤ) : FsM (ℤ × InodeFile) := do
  if f.writable = false then return (-1, f)
  else
    let (i, f) ← filewriteLoop src n.toNat n.toNat 0 f
    return (if (i : ℤ) = n then n else -1, f)

/-- `filewritefromkernel`: the source is in the kernel, where everything is mapped. -/
def filewritefromkernel (f : InodeFile) (bytes : List UInt8) : FsM (ℤ × InodeFile) :=
  filewrite f (fun j => bytes[j]?) bytes.length

/-! ### User memory -/

/-- A page of user memory. -/
structure UserPage where
  /-- `PTE_U`. -/
  user : Bool
  /-- Only the entries below `PGSIZE` exist. -/
  data : ℕ → UInt8

/-- The user part of a page table: the pages below the trapframe, by page number. -/
abbrev PageMap := ℕ → Option UserPage

namespace PageMap

variable (pt : PageMap)

/-- The byte that `copyin` finds at address `va`. -/
def byte (va : ℕ) : Option UInt8 :=
  if va < TRAPFRAME then
    match pt (va / PGSIZE) with
    | some pg => if pg.user then some (pg.data (va % PGSIZE)) else none
    | none => none
  else none

/-- The user memory from address `va` on. -/
def source (va : ℤ) (j : ℕ) : Option UInt8 := pt.byte ((va + j) % 2 ^ 64).toNat

/-- The pages that a process can use, as the process table keeps them. -/
def userMem : UserMem := pt.byte

/-- The loop of `uvmalloc` at address `a`, with `n` pages to go; `kalloc a` says whether there is
memory for the page at `a`. -/
def uvmallocLoop (kalloc : ℕ → Bool) : (n a : ℕ) → PageMap → Except Stop (Option PageMap)
  | 0, _, pt => .ok (some pt)
  | n + 1, a, pt =>
    if kalloc a = false then .ok none
    else if TRAPFRAME ≤ a then .error (.panic "remap")
    else uvmallocLoop kalloc n (a + PGSIZE)
      (update pt (a / PGSIZE) (some { user := true, data := fun _ => 0 }))

/-- `uvmalloc`: the page table, and the new size or 0. -/
def uvmalloc (kalloc : ℕ → Bool) (oldsz newsz : ℕ) : Except Stop (PageMap × ℕ) := do
  if newsz < oldsz then return (pt, oldsz)
  else
    let a := pgroundup oldsz
    match ← uvmallocLoop kalloc ((newsz - a + PGSIZE - 1) / PGSIZE) a pt with
    | none => return (pt, 0)
    | some pt => return (pt, newsz)

/-- `uvmclear`: mark the page at `va` invalid for user access. -/
def uvmclear (va : ℕ) : Except Stop PageMap :=
  match pt (va / PGSIZE) with
  | none => .error (.panic "uvmclear")
  | some pg => .ok (update pt (va / PGSIZE) (some { pg with user := false }))

/-- The loop of `loadseg` at offset `i` of the segment: `false` if the file is too short. -/
def loadsegLoop (va ip off sz : ℕ) : (fuel i : ℕ) → PageMap → FsM (Bool × PageMap)
  | 0, _, pt => return (true, pt)
  | fuel + 1, i, pt =>
    if sz ≤ i then return (true, pt)
    else
      match pt ((va + i) / PGSIZE) with
      | some ⟨true, data⟩ => do
        let n := min (sz - i) PGSIZE
        let (r, bytes) ← readi ip (fun _ => true) ((off + i) % 2 ^ 32) n
        let pt := update pt ((va + i) / PGSIZE)
          (some { user := true, data := blit data 0 bytes.length fun j => bytes.getD j 0 })
        if r ≠ n then return (false, pt) else loadsegLoop va ip off sz fuel (i + PGSIZE) pt
      | _ => throw (.panic "loadseg: address should exist")

/-- `loadseg`. -/
def loadseg (va ip off sz : ℕ) : FsM (Bool × PageMap) :=
  if va % PGSIZE ≠ 0 then throw (.panic "loadseg: va must be page aligned")
  else loadsegLoop va ip off sz (sz / PGSIZE + 1) 0 pt

end PageMap

/-! ### `suspend` -/

/-- `suspend`; `pts` are the page tables of the processes. -/
def suspend (pts : Slot → PageMap) (pid : ℤ) (f : InodeFile) : FsM (ℤ × InodeFile) := do
  let s ← get
  match s.kern.suspendTarget pid with
  | none => return (-1, f)
  | some p =>
    set (s.setKern (s.kern.modifyProc p fun q => { q with state := .suspended }))
    let hdr := resumehdr (s.kern.proc p)
    let (_, f) ← filewritefromkernel f (putHdr hdr)
    match (s.kern.proc p).tf with
    | none => throw .fault
    | some tf =>
      let (_, f) ← filewritefromkernel f (tfBytes tf)
      let (_, f) ← filewrite f ((pts p).source 0) hdr.codeSz
      let (_, f) ← filewrite f ((pts p).source (hdr.codeSz + PGSIZE)) PGSIZE
      return (0, f)

/-! ### `resume` -/

/-- What comes of the calls of `kalloc` in `resume`. -/
structure ResumeMem where
  /-- There is a page for the page table. -/
  pagetable : Bool
  /-- There is memory for the page at a virtual address. -/
  page : ℕ → Bool

/-- The value of a signed integer converted to `uint64`. -/
def toU64 (v : ℤ) : ℕ := (v % 2 ^ 64).toNat

/-- The value of a signed integer converted to `uint`. -/
def toU32 (v : ℤ) : ℕ := (v % 2 ^ 32).toNat

/-- An action that may stop the kernel. -/
def ofExcept {α : Type} : Except Stop α → FsM α
  | .ok a => return a
  | .error e => throw e

/-- The part of `resume` that makes the new page table, from the file of the inode `ip` with the
header `hdr`. -/
def loadImage (mem : ResumeMem) (ip : ℕ) (hdr : ResumeHdr) : FsM (Option PageMap) := do
  let (pt, sz) ← ofExcept (PageMap.uvmalloc (fun _ => none) mem.page 0 (toU64 hdr.codeSz))
  if sz = 0 then return none
  else
    let (ok, pt) ← pt.loadseg 0 ip (HDRSIZE + TFSIZE) (toU32 hdr.codeSz)
    if ok = false then return none
    else
      let stackspace := pgroundup sz
      let stackbase := stackspace + PGSIZE
      let (pt, sz) ← ofExcept (pt.uvmalloc mem.page stackspace (stackspace + 2 * PGSIZE))
      if sz = 0 then return none
      else
        let pt ← ofExcept (pt.uvmclear stackspace)
        let (ok, pt) ← pt.loadseg stackbase ip (toU32 (HDRSIZE + TFSIZE + hdr.codeSz))
          (toU32 hdr.stackSz)
        return if ok then some pt else none

/-- Change the calling process. -/
def setProc (g : Proc → Proc) : FsM Unit := do
  let s ← get
  set (s.setKern (s.kern.modifyProc s.cur g))

/-- The label `bad` of `resume`: the caller keeps its page table. -/
def resumeBad (pt : PageMap) (ip : ℕ) : FsM (ℤ × PageMap) := do
  iunlockput ip
  endOp
  return (-1, pt)

/-- What `resume` stores in the process when it has read everything. -/
def Proc.restore (p : Proc) (hdr : ResumeHdr) (pt : PageMap) : Proc :=
  { p with
    name := safestrcpy p.name hdr.name (strlen hdr.name + 1)
    sz := toU64 hdr.memSz
    strace := toU64 hdr.strace
    pagetable := some pt.userMem }

/-- `resume`, called by a process with the page table `pt`, and the page table of the process after
it. -/
def resume (mem : ResumeMem) (pt : PageMap) (path : CharArray) : FsM (ℤ × PageMap) := do
  beginOp
  match ← namei path with
  | none =>
    endOp
    return (-1, pt)
  | some ip =>
    ilock ip
    let (r, bytes) ← readi ip (fun _ => true) 0 HDRSIZE
    if r ≠ HDRSIZE then resumeBad pt ip
    else
      let hdr := getHdr bytes
      let s ← get
      match (s.kern.proc s.cur).tf with
      | none => throw .fault
      | some tf =>
        let (r, bytes) ← readi ip (fun _ => true) HDRSIZE TFSIZE
        setProc fun p => { p with tf := some (storeTf tf bytes) }
        if toU64 r < TFSIZE then resumeBad pt ip
        else if mem.pagetable = false then throw (.panic "uvmcreate: out of memory")
        else
          match ← loadImage mem ip hdr with
          | none => resumeBad pt ip
          | some pt =>
            setProc fun p => p.restore hdr pt
            iunlockput ip
            endOp
            return (1, pt)

/-! ### The way back to the user -/

/-- `sys_resume`; `path` is what `argstr` gets from the caller. -/
def sysResume (mem : ResumeMem) (path : Option CharArray) (pt : PageMap) : FsM (ℤ × PageMap) :=
  match path with
  | none => return (-1, pt)
  | some path => do
    let (_, pt) ← resume mem pt path
    return (0, pt)

/-- The number of `sys_resume`. -/
abbrev SYS_resume : ℤ := 25

/-- The number of entries of `syscalls[]`. -/
abbrev NSYSCALLS : ℤ := 32

/-- The index of `a7` among the words of a trapframe. -/
def tfA7 : ℕ := 21

/-- `syscall`, with the table `syscalls` of the functions of the system calls. -/
def syscall (syscalls : ℤ → Option (PageMap → FsM (ℤ × PageMap))) (pt : PageMap) : FsM PageMap := do
  let s ← get
  match (s.kern.proc s.cur).tf with
  | none => throw .fault
  | some tf =>
    let num := toInt32 (tf tfA7).toNat
    let call := if 0 < num ∧ num < NSYSCALLS then syscalls num else none
    let (r, pt) ← call.getD (fun pt => return (-1, pt)) pt
    setProc fun p =>
      { p with tf := p.tf.map fun tf => update tf tfA0 (UInt64.ofNat (toU64 r)) }
    return pt

/-- The words of the trapframe that `usertrapret` sets: `kernel_satp`, `kernel_sp`, `kernel_trap`
and `kernel_hartid`. -/
def kernelWords : List ℕ := [0, 1, 2, 4]

/-- The trapframe after `usertrapret` has stored the values `v` of the kernel in it. -/
def usertrapret (v : ℕ → UInt64) (tf : Trapframe) : Trapframe :=
  fun k => if k ∈ kernelWords then v k else tf k

/-- The registers of the user in a trapframe: `epc` and the general registers. -/
def UserReg (k : ℕ) : Prop := k < 36 ∧ k ∉ kernelWords

instance (k : ℕ) : Decidable (UserReg k) := inferInstanceAs (Decidable (_ ∧ _))

end Xv6Container
