import Xv6Container.Data.Bytes
import Xv6Container.Data.Bitmap
import Xv6Container.Kernel.Param

/-!
# On-disk layout

The disk format of `kernel/fs.h`: the superblock with the block numbers it gives (`IBLOCK`,
`BBLOCK`), on-disk inodes, and the words of an indirect block.

* `getDinode_putDinode`: an inode is read back as it was written.
* `Superblock.Ok`: the areas of the disk follow each other and each holds what belongs to it.
-/

namespace Xv6Container

/-- Direct block addresses of an inode. -/
abbrev NDIRECT : ℕ := 12

instance (priority := 2000) neZero_ndirect_add_one : NeZero (NDIRECT + 1) := ⟨by decide⟩

/-- Block addresses in an indirect block. -/
abbrev NINDIRECT : ℕ := 256

/-- The size limit of a file, in blocks. -/
abbrev MAXFILE : ℕ := NDIRECT + NINDIRECT

/-- Inodes per block. -/
abbrev IPB : ℕ := 16

/-- Bitmap bits per block. -/
abbrev BPB : ℕ := 8192

/-- Length of a file name in a directory entry. -/
abbrev DIRSIZ : ℕ := 14

/-- Inode number of the root directory. -/
abbrev ROOTINO : ℕ := 1

/-- Directory. -/
abbrev T_DIR : Int16 := 1

/-- File. -/
abbrev T_FILE : Int16 := 2

/-- Device. -/
abbrev T_DEVICE : Int16 := 3

/-- `struct superblock`, without its magic number. -/
structure Superblock where
  /-- Size of the file system image in blocks. -/
  size : ℕ
  /-- Number of data blocks. -/
  nblocks : ℕ
  /-- Number of inodes. -/
  ninodes : ℕ
  /-- Number of log blocks. -/
  nlog : ℕ
  /-- Block number of the first log block. -/
  logstart : ℕ
  /-- Block number of the first inode block. -/
  inodestart : ℕ
  /-- Block number of the first free map block. -/
  bmapstart : ℕ
  deriving DecidableEq, Repr

namespace Superblock

variable (sb : Superblock)

/-- `IBLOCK(i, sb)`: the block that holds inode `i`. -/
def iblock (i : ℕ) : ℕ := i / IPB + sb.inodestart

/-- `BBLOCK(b, sb)`: the block of the free map that holds the bit of block `b`. -/
def bblock (b : ℕ) : ℕ := b / BPB + sb.bmapstart

/-- Block number of the first data block. -/
def datastart : ℕ := sb.size - sb.nblocks

/-- The areas of the disk follow each other: boot block and superblock, log, inodes, free map,
data.  Every inode has its block in the inode area, every block its bit in the free map. -/
structure Ok : Prop where
  log : 2 ≤ sb.logstart
  inode : sb.logstart + sb.nlog ≤ sb.inodestart
  bmap : ∀ i < sb.ninodes, sb.iblock i < sb.bmapstart
  free : sb.bmapstart ≤ sb.datastart
  data : ∀ b < sb.size, sb.bblock b < sb.datastart
  nblocks : sb.nblocks ≤ sb.size
  size : sb.size < 2 ^ 32
  ninodes : sb.ninodes ≤ 2 ^ 16

end Superblock

/-- `struct dinode`, the on-disk inode. -/
@[ext] structure Dinode where
  /-- File type; zero when the inode is free. -/
  type : Int16
  /-- Major device number (`T_DEVICE` only). -/
  major : Int16
  /-- Minor device number (`T_DEVICE` only). -/
  minor : Int16
  /-- Number of links to the inode in the file system. -/
  nlink : Int16
  /-- Size of the file in bytes. -/
  size : UInt32
  /-- Data block addresses. -/
  addrs : Fin (NDIRECT + 1) → UInt32

/-- The dinode after `memset(dip, 0, sizeof(*dip))`. -/
def Dinode.zero : Dinode :=
  { type := 0, major := 0, minor := 0, nlink := 0, size := 0, addrs := fun _ => 0 }

/-- The `short` at offset `o`. -/
def getShort (f : Block) (o : ℕ) : Int16 := (UInt16.ofNat (getLE 2 f o)).toInt16

/-- Store a `short` at offset `o`. -/
def setShort (f : Block) (o : ℕ) (v : Int16) : Block := setLE 2 f o v.toUInt16.toNat

/-- The `uint` at offset `o`. -/
def getUint (f : Block) (o : ℕ) : UInt32 := UInt32.ofNat (getLE 4 f o)

/-- Store a `uint` at offset `o`. -/
def setUint (f : Block) (o : ℕ) (v : UInt32) : Block := setLE 4 f o v.toNat

/-- The bytes of the array `addrs`. -/
def addrBytes (a : Fin (NDIRECT + 1) → UInt32) (j : ℕ) : UInt8 :=
  if h : j / 4 < NDIRECT + 1 then UInt8.ofNat ((a ⟨j / 4, h⟩).toNat / 256 ^ (j % 4)) else 0

/-- The on-disk inode at offset `o`. -/
def getDinode (f : Block) (o : ℕ) : Dinode where
  type := getShort f o
  major := getShort f (o + 2)
  minor := getShort f (o + 4)
  nlink := getShort f (o + 6)
  size := getUint f (o + 8)
  addrs k := getUint f (o + 12 + 4 * k)

/-- Write the on-disk inode at offset `o`, field by field; `addrs` is copied by a `memmove`. -/
def putDinode (f : Block) (o : ℕ) (d : Dinode) : Block :=
  let f := setShort f o d.type
  let f := setShort f (o + 2) d.major
  let f := setShort f (o + 4) d.minor
  let f := setShort f (o + 6) d.nlink
  let f := setUint f (o + 8) d.size
  blit f (o + 12) 52 (addrBytes d.addrs)

/-- Entry `j` of an indirect block. -/
def getAddr (f : Block) (j : ℕ) : UInt32 := getUint f (4 * j)

/-- Write entry `j` of an indirect block. -/
def setAddr (f : Block) (j : ℕ) (v : UInt32) : Block := setUint f (4 * j) v

/-! ### Fields -/

@[simp] theorem getShort_setShort (f : Block) (o : ℕ) (v : Int16) :
    getShort (setShort f o v) o = v := by
  have hv : v.toUInt16.toNat < 256 ^ 2 := v.toUInt16.toNat_lt
  rw [getShort, setShort, getLE_setLE_of_lt hv]
  simp

@[simp] theorem getUint_setUint (f : Block) (o : ℕ) (v : UInt32) :
    getUint (setUint f o v) o = v := by
  have hv : v.toNat < 256 ^ 4 := v.toNat_lt
  rw [getUint, setUint, getLE_setLE_of_lt hv, UInt32.ofNat_toNat]

variable {f g : Block} {o i : ℕ}

theorem getShort_congr (h : ∀ i, o ≤ i → i < o + 2 → f i = g i) :
    getShort f o = getShort g o := by
  rw [getShort, getShort, getLE_congr h]

theorem getUint_congr (h : ∀ i, o ≤ i → i < o + 4 → f i = g i) :
    getUint f o = getUint g o := by
  rw [getUint, getUint, getLE_congr h]

theorem setShort_out {v : Int16} (h : i < o ∨ o + 2 ≤ i) :
    setShort f o v i = f i := by
  rw [setShort, setLE, blit_out h]

theorem setUint_out {v : UInt32} (h : i < o ∨ o + 4 ≤ i) :
    setUint f o v i = f i := by
  rw [setUint, setLE, blit_out h]

@[simp] theorem getAddr_setAddr (f : Block) (j : ℕ) (v : UInt32) :
    getAddr (setAddr f j v) j = v :=
  getUint_setUint f (4 * j) v

theorem getAddr_setAddr_of_ne {j k : ℕ} {v : UInt32} (h : k ≠ j) :
    getAddr (setAddr f j v) k = getAddr f k :=
  getUint_congr fun _ hi hi' => setUint_out (by omega)

@[simp] theorem getAddr_zero (j : ℕ) : getAddr (fun _ => 0) j = 0 := rfl

/-! ### On-disk inodes -/

theorem putDinode_out {d : Dinode} (h : i < o ∨ o + 64 ≤ i) :
    putDinode f o d i = f i := by
  rw [putDinode, blit_out (by omega), setUint_out (by omega), setShort_out (by omega),
    setShort_out (by omega), setShort_out (by omega), setShort_out (by omega)]

theorem getDinode_congr (h : ∀ i, o ≤ i → i < o + 64 → f i = g i) :
    getDinode f o = getDinode g o := by
  refine Dinode.ext (getShort_congr ?_) (getShort_congr ?_) (getShort_congr ?_) (getShort_congr ?_)
    (getUint_congr ?_) (funext fun k => getUint_congr ?_)
  all_goals
    intro i _ _
    refine h i (by omega) ?_
  any_goals omega
  have hk : (k : ℕ) < 13 := k.isLt
  omega

theorem getDinode_putDinode_of_disjoint {o' : ℕ} {d : Dinode}
    (h : o + 64 ≤ o' ∨ o' + 64 ≤ o) : getDinode (putDinode f o d) o' = getDinode f o' :=
  getDinode_congr fun _ _ _ => putDinode_out (by omega)

theorem getUint_addrBytes (f : Block) (o : ℕ) (a : Fin (NDIRECT + 1) → UInt32)
    (k : Fin (NDIRECT + 1)) : getUint (blit f o 52 (addrBytes a)) (o + 4 * k) = a k := by
  have hk : (k : ℕ) < 13 := k.isLt
  have hv : (a k).toNat < 256 ^ 4 := (a k).toNat_lt
  rw [getUint, getLE_digits 4 _ _ (a k).toNat, Nat.mod_eq_of_lt hv, UInt32.ofNat_toNat]
  intro i hi
  have hdiv : (o + 4 * ↑k + i - o) / 4 = (k : ℕ) := by omega
  have hmod : (o + 4 * ↑k + i - o) % 4 = i := by omega
  rw [blit_in (by omega) (by omega), addrBytes, dif_pos (by rw [hdiv]; exact k.isLt), hmod]
  simp only [hdiv]

theorem getDinode_putDinode (f : Block) (o : ℕ) (d : Dinode) :
    getDinode (putDinode f o d) o = d := by
  -- each field is read past the writes that come after its own
  refine Dinode.ext ?_ ?_ ?_ ?_ ?_ (funext fun k => getUint_addrBytes _ (o + 12) d.addrs k)
  · rw [← getShort_setShort f o d.type]
    refine getShort_congr fun i hi hi' => ?_
    rw [putDinode, blit_out (by omega), setUint_out (by omega), setShort_out (by omega),
      setShort_out (by omega), setShort_out (by omega)]
  · rw [← getShort_setShort (setShort f o d.type) (o + 2) d.major]
    refine getShort_congr fun i hi hi' => ?_
    rw [putDinode, blit_out (by omega), setUint_out (by omega), setShort_out (by omega),
      setShort_out (by omega)]
  · rw [← getShort_setShort (setShort (setShort f o d.type) (o + 2) d.major) (o + 4) d.minor]
    refine getShort_congr fun i hi hi' => ?_
    rw [putDinode, blit_out (by omega), setUint_out (by omega), setShort_out (by omega)]
  · rw [← getShort_setShort (setShort (setShort (setShort f o d.type) (o + 2) d.major) (o + 4)
      d.minor) (o + 6) d.nlink]
    refine getShort_congr fun i hi hi' => ?_
    rw [putDinode, blit_out (by omega), setUint_out (by omega)]
  · rw [← getUint_setUint (setShort (setShort (setShort (setShort f o d.type) (o + 2) d.major)
      (o + 4) d.minor) (o + 6) d.nlink) (o + 8) d.size]
    refine getUint_congr fun i hi hi' => ?_
    rw [putDinode, blit_out (by omega)]

end Xv6Container
