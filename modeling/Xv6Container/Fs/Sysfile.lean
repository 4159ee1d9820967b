import Xv6Container.Fs.Dir

/-!
# Making, linking and removing files

`ialloc` and `dirlink` of `kernel/fs.c`, and what `create`, `sys_link` and `sys_unlink` of
`kernel/sysfile.c` do once `nameiparent` has found the directory `dp` for a name and they have
locked it.
-/

namespace Xv6Container

/-- `ialloc`: allocate an inode and mark it by giving it a type. -/
def ialloc (dev : ℕ) (type : Int16) : FsM ℕ := do
  let s ← get
  match (List.range s.sb.ninodes).find? fun i => 1 ≤ i ∧ (s.dinode i).type = 0 with
  | none => throw (.panic "ialloc: no inodes")
  | some i =>
    setBuf (s.sb.iblock i)
      (putDinode (s.blk (s.sb.iblock i)) (64 * (i % IPB)) { Dinode.zero with type := type })
    logWrite (s.sb.iblock i)
    iget dev i

/-- The loops of `dirlink` and `isdirempty` from offset `off`: whether there is an entry with the
property `p`, and the offset of the first one, or the end. -/
def direntLoop (a : ℕ) (msg : String) (p : Dirent → Bool) : (fuel off : ℕ) → FsM (Bool × ℕ)
  | 0, off => return (false, off)
  | fuel + 1, off => do
    if off < (← inode a).din.size.toNat then
      let (r, bytes) ← readi a (fun _ => true) off DIRENT
      if r ≠ DIRENT then throw (.panic msg)
      else if p (getDirent bytes) then return (true, off)
      else direntLoop a msg p fuel (off + DIRENT)
    else return (false, off)

/-- `dirlink`: write a new directory entry. -/
def dirlink (a : ℕ) (name : CharArray) (inum : ℕ) : FsM ℤ := do
  match ← dirlookup a name with
  | some (ip, _) =>
    iput ip
    return -1
  | none =>
    let size := (← inode a).din.size.toNat
    let (_, off) ← direntLoop a "dirlink read" (fun de => de.inum = 0) size 0
    let r ← writei a (fun j => (putDirent ⟨inum, name⟩)[j]?) off DIRENT
    if r ≠ DIRENT then throw (.panic "dirlink")
    else return 0

/-- Change the number of links of the cached inode `a`, and write the inode to disk. -/
def addLinks (a : ℕ) (d : Int16) : FsM Unit := do
  setDin a fun din => { din with nlink := din.nlink + d }
  iupdate a

/-! ### Making files -/

/-- The entries `.` and `..` of the new directory `ip` in `dp`. -/
def createDots (dp ip : ℕ) : FsM Unit := do
  addLinks dp 1
  if (← dirlink ip (chars ".") (← inode ip).inum) < 0 then throw (.panic "create dots")
  else if (← dirlink ip (chars "..") (← inode dp).inum) < 0 then throw (.panic "create dots")

/-- The end of `create`, with the new inode `ip`. -/
def createNew (dp : ℕ) (name : CharArray) (type major minor : Int16) (ip : ℕ) :
    FsM (Option ℕ) := do
  ilock ip
  setDin ip fun d => { d with major := major, minor := minor, nlink := 1 }
  iupdate ip
  if type = T_DIR then createDots dp ip
  if (← dirlink dp name (← inode ip).inum) < 0 then throw (.panic "create: dirlink")
  else
    iunlockput dp
    return some ip

/-- `create` with the locked directory `dp`: the inode, locked. -/
def createIn (dp : ℕ) (name : CharArray) (type major minor : Int16) : FsM (Option ℕ) := do
  match ← dirlookup dp name with
  | some (ip, _) =>
    iunlockput dp
    ilock ip
    let t := (← inode ip).din.type
    if type = T_FILE ∧ (t = T_FILE ∨ t = T_DEVICE) then return some ip
    else
      iunlockput ip
      return none
  | none =>
    let d ← inode dp
    let ip ← ialloc d.dev type
    createNew dp name type major minor ip

/-! ### Links -/

/-- The end of `sys_link` at `bad`. -/
def linkBad (dp ip : ℕ) : FsM ℤ := do
  iunlockput dp
  ilock ip
  addLinks ip (-1)
  iunlockput ip
  return -1

/-- `sys_link` of the inode `ip` with the locked directory `dp`. -/
def linkIn (dp : ℕ) (name : CharArray) (ip : ℕ) : FsM ℤ := do
  if (← inode dp).dev ≠ (← inode ip).dev then linkBad dp ip
  else if (← dirlink dp name (← inode ip).inum) < 0 then linkBad dp ip
  else
    iunlockput dp
    iput ip
    return 0

/-- `isdirempty`: the directory has no entries besides `.` and `..`. -/
def isdirempty (a : ℕ) : FsM Bool := do
  let size := (← inode a).din.size.toNat
  let (used, _) ← direntLoop a "isdirempty: readi" (fun de => de.inum ≠ 0) size (2 * DIRENT)
  return !used

/-- `ip->type == T_DIR && !isdirempty(ip)`. -/
def isFullDir (a : ℕ) : FsM Bool := do
  if (← inode a).din.type = T_DIR then return !(← isdirempty a)
  else return false

/-- The end of `sys_unlink`, with the entry at `off` of `dp` and its inode `ip`. -/
def unlinkEntry (dp off ip : ℕ) : FsM ℤ := do
  let r ← writei dp (fun j => (List.replicate DIRENT 0)[j]?) off DIRENT
  if r ≠ DIRENT then throw (.panic "unlink: writei")
  else
    if (← inode ip).din.type = T_DIR then addLinks dp (-1)
    iunlockput dp
    addLinks ip (-1)
    iunlockput ip
    return 0

/-- `sys_unlink` with the locked directory `dp`. -/
def unlinkIn (dp : ℕ) (name : CharArray) : FsM ℤ := do
  if namecmp name (chars ".") = 0 ∨ namecmp name (chars "..") = 0 then
    iunlockput dp
    return -1
  else
    match ← dirlookup dp name with
    | none =>
      iunlockput dp
      return -1
    | some (ip, off) =>
      ilock ip
      if (← inode ip).din.nlink < 1 then throw (.panic "unlink: nlink < 1")
      else if ← isFullDir ip then
        iunlockput ip
        iunlockput dp
        return -1
      else unlinkEntry dp off ip

end Xv6Container
