import Xv6Container.Data.Returns
import Xv6Container.Fs.Layout
import Xv6Container.Log.Basic
import Xv6Container.Proc.Control

/-!
# Blocks and inodes

The block and inode layers of `kernel/fs.c`: allocation of disk blocks (`balloc`, `bfree`), the
inode cache (`iget`, `ilock`, `iput`, ...) and the content of inodes (`bmap`, `itrunc`, `readi`,
`writei`).

The functions run in `FsM`: they change an `FsState` and may stop the kernel.  An inode pointer is
an index into the inode cache.  There is one disk, so a block is given by its number alone.  The
calls of one process run without interleaving; a sleep-lock that is held when `ilock` wants it is
held by the caller itself, and the wait for it never ends (`Stop.deadlock`).
-/

namespace Xv6Container

open Function

/-- `struct inode`; the fields copied from the disk inode are in `din`. -/
structure Inode where
  /-- Device number. -/
  dev : ℕ
  /-- Inode number. -/
  inum : ℕ
  /-- Reference count. -/
  ref : ℤ
  /-- The sleep-lock is held. -/
  locked : Bool
  /-- The inode has been read from disk. -/
  valid : Bool
  /-- The copy of the disk inode. -/
  din : Dinode

/-- What the file system code reads and changes. -/
structure FsState where
  /-- The process and container tables. -/
  kern : Kernel
  /-- The process that runs the call. -/
  cur : Slot
  sb : Superblock
  /-- The buffer cache, the log and the disk. -/
  store : LogState
  /-- `icache.inode`; only the entries below `NINODE` exist. -/
  icache : ℕ → Inode

/-- File system code: it may change the state and may stop the kernel. -/
abbrev FsM := StateT FsState (Except Stop)

namespace FsState

/-- The contents `bread` returns. -/
def blk (s : FsState) : Disk := s.store.cache

/-- Replace the contents of the buffer of block `b`. -/
@[simps -fullyApplied kern cur sb icache]
def setBlk (s : FsState) (b : ℕ) (f : Block) : FsState :=
  { s with store := { s.store with cache := update s.store.cache b f } }

/-- Change the cached inode `a`. -/
@[simps kern cur sb]
def modifyInode (s : FsState) (a : ℕ) (f : Inode → Inode) : FsState :=
  { s with icache := update s.icache a (f (s.icache a)) }

/-- Replace the process and container tables. -/
@[simps -fullyApplied kern cur sb icache]
def setKern (s : FsState) (k : Kernel) : FsState := { s with kern := k }

/-- Replace the in-memory log. -/
@[simps -fullyApplied kern cur sb icache]
def setLog (s : FsState) (l : Log) : FsState := { s with store := { s.store with log := l } }

/-- The bit of block `b` in the free map. -/
def used (s : FsState) (b : ℕ) : Bool := bit (s.blk (s.sb.bblock b)) (b % BPB)

/-- The on-disk inode `i`. -/
def dinode (s : FsState) (i : ℕ) : Dinode := getDinode (s.blk (s.sb.iblock i)) (64 * (i % IPB))

end FsState

/-! ### Buffers and the log -/

/-- `bread`: the contents of block `b`. -/
def bread (b : ℕ) : FsM Block := return (← get).blk b

/-- Change the contents of the buffer of block `b`. -/
def setBuf (b : ℕ) (f : Block) : FsM Unit := modify (·.setBlk b f)

/-- `log_write`. -/
def logWrite (b : ℕ) : FsM Unit := do
  let s ← get
  match s.store.log.logWrite b with
  | .ok l => set (s.setLog l)
  | .error e => throw e

/-- `begin_op`, when no other call is in progress. -/
def beginOp : FsM Unit := do
  let s ← get
  let l := s.store.log
  if l.committing ∨ (LOGSIZE : ℤ) < l.lh.length + (l.outstanding + 1) * MAXOPBLOCKS then
    throw .deadlock
  else
    set (s.setLog { l with outstanding := l.outstanding + 1 })

/-- `end_op`; the last outstanding operation commits. -/
def endOp : FsM Unit := do
  let s ← get
  let l := { s.store.log with outstanding := s.store.log.outstanding - 1 }
  if l.committing then throw (.panic "log.committing")
  else if l.outstanding = 0 then set { s with store := (s.setLog l).store.commit }
  else set (s.setLog l)

/-- `bzero`: zero a block. -/
def bzero (b : ℕ) : FsM Unit := do
  setBuf b fun _ => 0
  logWrite b

/-! ### Blocks -/

/-- Add `n` to the blocks charged to container `c`. -/
def Kernel.addDisk (s : Kernel) (c : Cont) (n : ℤ) : Kernel :=
  s.modifyCont c fun k => { k with diskused := k.diskused + n }

/-- The container `c` has used up its blocks; the root container has no limit. -/
def Kernel.DiskLimited (s : Kernel) (c : Cont) : Prop :=
  isroot c = false ∧ (s.containers c).disklimit ≤ (s.containers c).diskused

instance (s : Kernel) (c : Cont) : Decidable (s.DiskLimited c) :=
  inferInstanceAs (Decidable (_ ∧ _))

/-- The accounting at the start of `balloc`.  The caller of a container without blocks left calls
`kill` on its own `pid`, and goes on. -/
def chargeBlock : FsM Unit := do
  let s ← get
  if s.kern.started then
    match s.kern.mycont s.cur with
    | none => throw .fault
    | some c =>
      let k :=
        if s.kern.DiskLimited c then (s.kern.kill s.cur (s.kern.proc s.cur).pid).2 else s.kern
      set (s.setKern (k.addDisk c 1))

/-- The first free block: the loops of `balloc` test the bits of the free map in order. -/
def FsState.freeBlock (s : FsState) : Option ℕ := (List.range s.sb.size).find? fun b => !s.used b

/-- `balloc`: allocate a zeroed disk block. -/
def balloc : FsM ℕ := do
  chargeBlock
  let s ← get
  match s.freeBlock with
  | none => throw (.panic "balloc: out of blocks")
  | some b =>
    setBuf (s.sb.bblock b) (setBit (s.blk (s.sb.bblock b)) (b % BPB))
    logWrite (s.sb.bblock b)
    bzero b
    return b

/-- The accounting at the start of `bfree`. -/
def creditBlock : FsM Unit := do
  let s ← get
  if s.kern.started then
    match s.kern.mycont s.cur with
    | none => throw .fault
    | some c => set (s.setKern (s.kern.addDisk c (-1)))

/-- `bfree`: free a disk block. -/
def bfree (b : ℕ) : FsM Unit := do
  creditBlock
  let s ← get
  if s.used b then
    setBuf (s.sb.bblock b) (clearBit (s.blk (s.sb.bblock b)) (b % BPB))
    logWrite (s.sb.bblock b)
  else throw (.panic "freeing free block")

/-! ### The inode cache -/

/-- The cached inode `a`. -/
def inode (a : ℕ) : FsM Inode := return (← get).icache a

/-- Change the cached inode `a`. -/
def setInode (a : ℕ) (f : Inode → Inode) : FsM Unit := modify (·.modifyInode a f)

/-- Change the copy of the disk inode in `a`. -/
def setDin (a : ℕ) (f : Dinode → Dinode) : FsM Unit :=
  setInode a fun ip => { ip with din := f ip.din }

/-- `iget`: the cache entry of inode `inum`, with a new reference; the inode is not read from
disk. -/
def iget (dev inum : ℕ) : FsM ℕ := do
  let s ← get
  match (List.range NINODE).find? fun a =>
      0 < (s.icache a).ref ∧ (s.icache a).dev = dev ∧ (s.icache a).inum = inum with
  | some a =>
    setInode a fun ip => { ip with ref := ip.ref + 1 }
    return a
  | none =>
    match (List.range NINODE).find? fun a => (s.icache a).ref = 0 with
    | none => throw (.panic "iget: no inodes")
    | some a =>
      setInode a fun ip => { ip with dev := dev, inum := inum, ref := 1, valid := false }
      return a

/-- `iupdate`: copy a modified in-memory inode to disk. -/
def iupdate (a : ℕ) : FsM Unit := do
  let s ← get
  let ip := s.icache a
  setBuf (s.sb.iblock ip.inum)
    (putDinode (s.blk (s.sb.iblock ip.inum)) (64 * (ip.inum % IPB)) ip.din)
  logWrite (s.sb.iblock ip.inum)

/-- `idup`: one more reference. -/
def idup (a : ℕ) : FsM ℕ := do
  setInode a fun ip => { ip with ref := ip.ref + 1 }
  return a

/-- `ilock`: lock the inode, and read it from disk if necessary. -/
def ilock (a : ℕ) : FsM Unit := do
  let s ← get
  let ip := s.icache a
  if ip.ref < 1 then throw (.panic "ilock")
  else if ip.locked then throw .deadlock
  else if ip.valid then setInode a fun ip => { ip with locked := true }
  else if (s.dinode ip.inum).type = 0 then throw (.panic "ilock: no type")
  else setInode a fun ip => { ip with locked := true, valid := true, din := s.dinode ip.inum }

/-- `iunlock`. -/
def iunlock (a : ℕ) : FsM Unit := do
  let ip ← inode a
  if ip.locked = false ∨ ip.ref < 1 then throw (.panic "iunlock")
  else setInode a fun ip => { ip with locked := false }

/-! ### Inode content -/

/-- An indirect block's place in `addrs`. -/
def indirect : Fin (NDIRECT + 1) := Fin.last NDIRECT

/-- The block address in `ip->addrs[k]`, allocated if there is none. -/
def bmapAddr (a : ℕ) (k : Fin (NDIRECT + 1)) : FsM ℕ := do
  let ip ← inode a
  if ip.din.addrs k = 0 then
    let b ← balloc
    setDin a fun d => { d with addrs := update d.addrs k (UInt32.ofNat b) }
    return b
  else return (ip.din.addrs k).toNat

/-- `bmap`: the disk block address of block `bn` of the inode, allocated if there is none. -/
def bmap (a bn : ℕ) : FsM ℕ :=
  if h : bn < NDIRECT then bmapAddr a ⟨bn, Nat.lt_add_one_of_lt h⟩
  else if bn - NDIRECT < NINDIRECT then do
    let addr ← bmapAddr a indirect
    let f ← bread addr
    if getAddr f (bn - NDIRECT) = 0 then
      let b ← balloc
      setBuf addr (setAddr (← bread addr) (bn - NDIRECT) (UInt32.ofNat b))
      logWrite addr
      return b
    else return (getAddr f (bn - NDIRECT)).toNat
  else throw (.panic "bmap: out of range")

/-- Free the block in `ip->addrs[k]`, if there is one. -/
def itruncAddr (a : ℕ) (k : Fin (NDIRECT + 1)) : FsM Unit := do
  let ip ← inode a
  if ip.din.addrs k ≠ 0 then
    bfree (ip.din.addrs k).toNat
    setDin a fun d => { d with addrs := update d.addrs k 0 }

/-- Free the block in entry `j` of the indirect block `addr`, if there is one. -/
def itruncEntry (addr j : ℕ) : FsM Unit := do
  let f ← bread addr
  if getAddr f j ≠ 0 then bfree (getAddr f j).toNat

/-- `itrunc`: discard the content of the inode. -/
def itrunc (a : ℕ) : FsM Unit := do
  (List.finRange NDIRECT).forM fun i => itruncAddr a i.castSucc
  let ip ← inode a
  if ip.din.addrs indirect ≠ 0 then
    (List.range NINDIRECT).forM (itruncEntry (ip.din.addrs indirect).toNat)
  itruncAddr a indirect
  setDin a fun d => { d with size := 0 }
  iupdate a

/-- `iput`: drop a reference to the inode; the last one frees it, if it has no links. -/
def iput (a : ℕ) : FsM Unit := do
  let ip ← inode a
  if ip.ref = 1 ∧ ip.valid ∧ ip.din.nlink = 0 then
    if ip.locked then throw .deadlock
    itrunc a
    setDin a fun d => { d with type := 0 }
    iupdate a
    setInode a fun ip => { ip with valid := false }
  setInode a fun ip => { ip with ref := ip.ref - 1 }

/-- `iunlockput`. -/
def iunlockput (a : ℕ) : FsM Unit := do
  iunlock a
  iput a

/-- How many of `m` bytes `copyin` or `copyout` copies before it meets an unmapped page. -/
def copied : (ℕ → Bool) → ℕ → ℕ
  | _, 0 => 0
  | mapped, m + 1 => if mapped 0 then copied (fun i => mapped (i + 1)) m + 1 else 0

/-- The loop of `readi`, with `n` bytes left to read at `off`; `dst i` says that byte `i` of the
destination is mapped, and `tot` bytes have been copied.  Each round copies at least one byte, so
`fuel` rounds copy `fuel` bytes. -/
def readiLoop (a : ℕ) (dst : ℕ → Bool) : (fuel tot off n : ℕ) → FsM (List UInt8)
  | 0, _, _, _ => return []
  | fuel + 1, tot, off, n =>
    if n = 0 then return []
    else do
      let f ← bread (← bmap a (off / BSIZE))
      let m := min n (BSIZE - off % BSIZE)
      let k := copied (fun i => dst (tot + i)) m
      let bytes := (List.range k).map fun i => f (off % BSIZE + i)
      if k < m then return bytes
      else return bytes ++ (← readiLoop a dst fuel (tot + m) (off + m) (n - m))

/-- `readi`: read data from the inode; the number returned, and the bytes stored at the
destination. -/
def readi (a : ℕ) (dst : ℕ → Bool) (off n : ℕ) : FsM (ℤ × List UInt8) := do
  let ip ← inode a
  let size := ip.din.size.toNat
  if size < off ∨ (off + n) % 2 ^ 32 < off then return (-1, [])
  else
    let n := if size < (off + n) % 2 ^ 32 then size - off else n
    return (toInt32 n, ← readiLoop a dst n 0 off n)

/-- The loop of `writei`, with `n` bytes left to write at `off`; `src i` is byte `i` of the source,
`none` when its page is not mapped, and `tot` bytes have been copied.  It returns the final
offset. -/
def writeiLoop (a : ℕ) (src : ℕ → Option UInt8) : (fuel tot off n : ℕ) → FsM ℕ
  | 0, _, off, _ => return off
  | fuel + 1, tot, off, n =>
    if n = 0 then return off
    else do
      let b ← bmap a (off / BSIZE)
      let m := min n (BSIZE - off % BSIZE)
      let k := copied (fun i => (src (tot + i)).isSome) m
      setBuf b (blit (← bread b) (off % BSIZE) k fun i => (src (tot + i)).getD 0)
      if k < m then return off
      else
        logWrite b
        writeiLoop a src fuel (tot + m) (off + m) (n - m)

/-- `writei`: write data to the inode. -/
def writei (a : ℕ) (src : ℕ → Option UInt8) (off n : ℕ) : FsM ℤ := do
  let ip ← inode a
  if ip.din.size.toNat < off ∨ (off + n) % 2 ^ 32 < off then return -1
  else if MAXFILE * BSIZE < (off + n) % 2 ^ 32 then return -1
  else
    let off ← writeiLoop a src n 0 off n
    if 0 < n then
      if (← inode a).din.size.toNat < off then
        setDin a fun d => { d with size := UInt32.ofNat off }
      iupdate a
    return n

end Xv6Container
