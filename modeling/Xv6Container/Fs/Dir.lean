import Xv6Container.Fs.Basic

/-!
# Directories and paths

The directory layer of `kernel/fs.c`: directory entries (`dirlookup`), path elements
(`skipelem`) and path names (`namex`, `namei`, `nameiparent`).

A process in a container other than the root container cannot leave the directory that is the root
of its container: `dirlookup` reads a name that starts with two dots there as `"."`.
-/

namespace Xv6Container

/-! ### Directory entries -/

/-- `struct dirent`. -/
structure Dirent where
  inum : ℕ
  name : CharArray
  deriving DecidableEq

/-- `sizeof(struct dirent)`. -/
abbrev DIRENT : ℕ := 16

/-- The directory entry in 16 bytes. -/
def getDirent (bytes : List UInt8) : Dirent where
  inum := (bytes.getD 0 0).toNat + 256 * (bytes.getD 1 0).toNat
  name := bytes.drop 2

/-- The 16 bytes of a directory entry. -/
def putDirent (de : Dirent) : List UInt8 :=
  [UInt8.ofNat de.inum, UInt8.ofNat (de.inum / 256)] ++
    strncpy (List.replicate DIRSIZ 0) de.name DIRSIZ

/-- `namecmp`. -/
def namecmp (s t : CharArray) : ℤ := strncmp s t DIRSIZ

/-- `myproc()->container`.  Before the first container is made, `myproc` returns no pointer. -/
def callerCont : FsM (Option Cont) := do
  let s ← get
  if s.kern.started then return s.kern.mycont s.cur else throw .fault

/-- The test at the start of `dirlookup`: the caller must not go up from here. -/
def dirlookupStops (a : ℕ) (name : CharArray) : FsM Bool := do
  let c ← callerCont
  if c = some root ∨ strncmp name (chars "..") 2 ≠ 0 then return false
  else
    match c with
    | none => throw .fault
    | some c => return ((← get).kern.containers c).root = some a

/-- The loop of `dirlookup` from offset `off`; each round advances, so that `fuel` rounds reach
`size` if `fuel` is. -/
def dirlookupLoop (a : ℕ) (name : CharArray) : (fuel off : ℕ) → FsM (Option (ℕ × ℕ))
  | 0, _ => return none
  | fuel + 1, off => do
    let dp ← inode a
    if off < dp.din.size.toNat then
      let (r, bytes) ← readi a (fun _ => true) off DIRENT
      let de := getDirent bytes
      if r ≠ DIRENT then throw (.panic "dirlookup read")
      else if de.inum ≠ 0 ∧ namecmp name de.name = 0 then
        let ip ← iget dp.dev de.inum
        return some (ip, off)
      else dirlookupLoop a name fuel (off + DIRENT)
    else return none

/-- `dirlookup`: look for a directory entry; the inode and the offset of the entry. -/
def dirlookup (a : ℕ) (name : CharArray) : FsM (Option (ℕ × ℕ)) := do
  let stops ← dirlookupStops a name
  let dp ← inode a
  if dp.din.type ≠ T_DIR then throw (.panic "dirlookup not DIR")
  else dirlookupLoop a (if stops then chars "." else name) dp.din.size.toNat 0

/-! ### Paths -/

/-- `skipelem`: the path after its first element, and the buffer `name` with that element copied
into it. -/
def skipelem (path name : CharArray) : Option (CharArray × CharArray) :=
  let path := path.dropWhile (· = slash)
  if path.headD 0 = 0 then none
  else
    let elem := path.takeWhile fun c => c ≠ slash ∧ c ≠ 0
    let name :=
      if DIRSIZ ≤ elem.length then elem.take DIRSIZ ++ name.drop DIRSIZ
      else elem ++ 0 :: name.drop (elem.length + 1)
    some ((path.drop elem.length).dropWhile (· = slash), name)

/-- One round of the loop of `namex`, with the element `name` before the rest `path`: the next
inode, or what `namex` returns. -/
def namexRound (nameiparent : Bool) (ip : ℕ) (path name : CharArray) : FsM (ℕ ⊕ Option ℕ) := do
  ilock ip
  if (← inode ip).din.type ≠ T_DIR then
    iunlockput ip
    return .inr none
  else if nameiparent ∧ path.headD 0 = 0 then
    iunlock ip
    return .inr (some ip)
  else
    match ← dirlookup ip name with
    | none =>
      iunlockput ip
      return .inr none
    | some (next, _) =>
      iunlockput ip
      return .inl next

/-- The loop of `namex`.  Each round takes an element off the path, so that a path shorter than
`fuel` is used up. -/
def namexLoop (nameiparent : Bool) :
    (fuel : ℕ) → (path name : CharArray) → (ip : ℕ) → FsM (Option ℕ × CharArray)
  | 0, _, name, _ => return (none, name)
  | fuel + 1, path, name, ip =>
    match skipelem path name with
    | none =>
      if nameiparent then do
        iput ip
        return (none, name)
      else return (some ip, name)
    | some (path, name) => do
      match ← namexRound nameiparent ip path name with
      | .inl next => namexLoop nameiparent fuel path name next
      | .inr r => return (r, name)

/-- Where `namex` starts: the root directory, the root of the caller's container, to which no
reference is taken, or its current directory. -/
def namexStart (path : CharArray) : FsM (Option ℕ) := do
  let c ← callerCont
  if path.headD 0 = slash then
    if c = some root then return some (← iget ROOTDEV ROOTINO)
    else
      match c with
      | none => throw .fault
      | some c => return ((← get).kern.containers c).root
  else
    let s ← get
    match (s.kern.proc s.cur).cwd with
    | none => throw .fault
    | some ip => return some (← idup ip)

/-- `namex`: the inode for a path name, or that of its parent and the last element.  Without an
inode to start from, `ilock` panics. -/
def namex (path : CharArray) (nameiparent : Bool) (name : CharArray) :
    FsM (Option ℕ × CharArray) := do
  match ← namexStart path with
  | some ip => namexLoop nameiparent (path.length + 1) path name ip
  | none =>
    if (skipelem path name).isSome then throw (.panic "ilock")
    else if nameiparent then throw .fault
    else return (none, name)

/-- `namei`.  What the buffer for path elements holds before does not matter. -/
def namei (path : CharArray) : FsM (Option ℕ) :=
  return (← namex path false (List.replicate DIRSIZ 0)).1

/-- `nameiparent`; it also stores the last element in `name`. -/
def nameiparent (path name : CharArray) : FsM (Option ℕ × CharArray) := namex path true name

theorem skipelem_length_lt {path name path' name' : CharArray}
    (h : skipelem path name = some (path', name')) : path'.length < path.length := by
  obtain ⟨p, hp⟩ : ∃ p, p = path.dropWhile (· = slash) := ⟨_, rfl⟩
  simp only [skipelem, ← hp] at h
  have hle : p.length ≤ path.length := hp ▸ (List.dropWhile_suffix _).length_le
  split at h
  · cases h
  · rename_i h0
    simp only [Option.some.injEq, Prod.mk.injEq] at h
    obtain ⟨rfl, -⟩ := h
    -- the element has a first character
    have hpos : 0 < (p.takeWhile fun c => c ≠ slash ∧ c ≠ 0).length := by
      cases hc : p with
      | nil => simp [hc] at h0
      | cons c q =>
        have hhead : c ≠ slash := by
          have := List.head?_dropWhile_not (· = slash) path
          rw [← hp, hc] at this
          simpa using this
        have hzero : c ≠ 0 := by simpa [hc] using h0
        simp [hhead, hzero]
    have h1 := (List.dropWhile_suffix (l := p.drop (p.takeWhile fun c => c ≠ slash ∧ c ≠ 0).length)
      (· = slash)).length_le
    have h2 := (List.takeWhile_prefix (l := p) fun c => c ≠ slash ∧ c ≠ 0).length_le
    rw [List.length_drop] at h1
    omega

end Xv6Container
