import Xv6Container.Fs.Room
import Xv6Container.Fs.Small

/-!
# Files as byte sequences

Above the layers of blocks, inodes and the log a file is a list of bytes (`FsState.file`), and
`readi` and `writei` are reading and replacing a part of that list.

* `file_refines_bytes` : `writei` and `readi` do to the file what `pwrite` and `pread` do to the
  list.  A write for which the disk has no free blocks, or the log no room, stops the kernel.
-/

namespace Xv6Container

/-- Bytes `off ..< off + n` of a file, as far as it has them. -/
def pread (f : List UInt8) (off n : ℕ) : List UInt8 := (f.drop off).take n

/-- The file with `bytes` from `off` on. -/
def pwrite (f : List UInt8) (off : ℕ) (bytes : List UInt8) : List UInt8 :=
  f.take off ++ bytes ++ f.drop (off + bytes.length)

theorem length_pwrite {f bytes : List UInt8} {off : ℕ} (h : off ≤ f.length) :
    (pwrite f off bytes).length = max f.length (off + bytes.length) := by
  simp only [pwrite, List.length_append, List.length_take, List.length_drop]
  omega

theorem getElem?_pwrite {f bytes : List UInt8} {off : ℕ} (h : off ≤ f.length) (p : ℕ) :
    (pwrite f off bytes)[p]? =
      if off ≤ p ∧ p < off + bytes.length then bytes[p - off]? else f[p]? := by
  have htake : (f.take off).length = off := by rw [List.length_take]; omega
  simp only [pwrite, List.append_assoc]
  split
  · rename_i hp
    rw [List.getElem?_append_right (by omega), htake, List.getElem?_append_left (by omega)]
  · rename_i hp
    by_cases hlt : p < off
    · rw [List.getElem?_append_left (by omega), List.getElem?_take_of_lt hlt]
    · rw [List.getElem?_append_right (by omega), htake, List.getElem?_append_right (by omega),
        List.getElem?_drop]
      congr 1
      omega

namespace FsState

/-- The bytes of file `i`. -/
def file (s : FsState) (i : ℕ) : List UInt8 := (List.range (s.disk.size i)).map (s.disk.content i)

variable {s s' : FsState} {a i off n e : ℕ}

@[simp] theorem length_file : (s.file i).length = s.disk.size i := by simp [file]

theorem getElem?_file (p : ℕ) :
    (s.file i)[p]? = if p < s.disk.size i then some (s.disk.content i p) else none := by
  unfold file
  split
  · rename_i hp
    simp [hp]
  · rename_i hp
    simp [hp]

theorem pread_file (s : FsState) (i off n : ℕ) : pread (s.file i) off n =
    (List.range (min n (s.disk.size i - off))).map fun j => s.disk.content i (off + j) := by
  refine List.ext_getElem? fun j => ?_
  rw [pread, List.getElem?_take, List.getElem?_drop, getElem?_file, List.getElem?_map]
  by_cases hj : j < min n (s.disk.size i - off)
  · rw [if_pos (by omega), if_pos (by omega), List.getElem?_range hj, Option.map_some]
  · rw [List.getElem?_eq_none (by rw [List.length_range]; omega), Option.map_none]
    split
    · exact if_neg (by omega)
    · rfl

theorem file_congr (hsize : s'.disk.size i = s.disk.size i)
    (hcontent : ∀ p < s.disk.size i, s'.disk.content i p = s.disk.content i p) :
    s'.file i = s.file i := by
  unfold file
  rw [hsize]
  exact List.map_congr_left fun p hp => hcontent p (List.mem_range.1 hp)

theorem Wrote.file {bytes : List UInt8}
    (h : s.Wrote a off bytes.length e (fun j => bytes[j]?) s')
    (hoff : off ≤ s.disk.size (s.icache a).inum) (hl : s.disk.Live s.sb.ninodes (s.icache a).inum) :
    s'.file (s.icache a).inum = pwrite (s.file (s.icache a).inum) off bytes := by
  have he : e = off + bytes.length := by
    by_contra hne
    have := h.le
    obtain ⟨j, hj, hnone⟩ := h.whole (by omega)
    rw [List.getElem?_eq_getElem hj] at hnone
    cases hnone
  subst he
  refine List.ext_getElem? fun p => ?_
  rw [getElem?_file, getElem?_pwrite (by rwa [length_file]), getElem?_file, h.size]
  by_cases hp : off ≤ p ∧ p < off + bytes.length
  · have hstored := h.stored (p - off) (by omega)
    rw [show off + (p - off) = p by omega] at hstored
    rw [if_pos (by omega), if_pos hp, hstored]
  · rw [if_neg hp]
    by_cases hlt : p < s.disk.size (s.icache a).inum
    · rw [if_pos (by omega), if_pos hlt, h.other _ p hl hlt fun _ => by omega]
    · rw [if_neg (by omega), if_neg hlt]

theorem Wrote.file_of_ne {src : ℕ → Option UInt8} (h : s.Wrote a off n e src s')
    (hl : s.disk.Live s.sb.ninodes i) (hne : i ≠ (s.icache a).inum) : s'.file i = s.file i := by
  refine file_congr ?_ fun p hp => h.other i p hl hp fun e => absurd e hne
  rw [Image.size, Image.size]
  exact congrArg (fun d => d.size.toNat) (h.dinode i hl.1 hne)

end FsState

variable {s s' : FsState} {a off n : ℕ}

theorem writei_of_fits (hs : s.WellFormed) (ha : s.Held a) (hop : s.InOp) {bytes : List UInt8}
    (hfits : Fits s (s.icache a).inum off bytes.length) :
    (∃ s', Returns (writei a (fun j => bytes[j]?) off bytes.length) s bytes.length s' ∧
      ∃ e, s.Wrote a off bytes.length e (fun j => bytes[j]?) s') ∨
    (Fails (writei a (fun j => bytes[j]?) off bytes.length) s outOfBlocks ∧
      s.DiskFull a off bytes.length) ∨
    (Fails (writei a (fun j => bytes[j]?) off bytes.length) s tooBig ∧
      s.LogFull a off bytes.length) := by
  have hlt : off + bytes.length < 2 ^ 32 := by
    have := hfits.2
    unfold MAXFILE BSIZE NDIRECT NINDIRECT at this
    omega
  obtain ⟨r, s', h⟩ | ⟨e, h⟩ :=
    returns_or_fails (writei a (fun j => bytes[j]?) off bytes.length) s
  · obtain ⟨hno, -⟩ | ⟨-, rfl, hwrote⟩ := writei_spec hs ha (by omega) (by omega) h
    · exact absurd hfits hno
    · exact .inl ⟨s', h, hwrote⟩
  · obtain ⟨rfl, hfull⟩ | ⟨rfl, hfull⟩ := writei_fails hs ha hop hfits h
    · exact .inr (.inl ⟨h, hfull⟩)
    · exact .inr (.inr ⟨h, hfull⟩)

theorem readi_pread (hs : s.WellFormed) (ha : s.Held a)
    (hoff : off ≤ s.disk.size (s.icache a).inum) (hn : off + n < 2 ^ 32) :
    Returns (readi a (fun _ => true) off n) s
      ((min n (s.disk.size (s.icache a).inum - off) : ℕ), pread (s.file (s.icache a).inum) off n)
      s := by
  have hl := hs.live ha
  have him := hs.image ha
  have h : Returns (readi a (fun _ => true) off n) s _ s := readi_of_le (by rwa [him]) hn
    (by rw [him]; exact hs.files.size _ hl) (by rw [him]; exact hs.files.mapped _ hl) rfl
  rw [him, copied_eq_of_forall fun _ _ => rfl] at h
  rw [FsState.pread_file]
  exact h

/-- **Files refine byte sequences.**  `writei` from a kernel buffer to a range that fits, in a
transaction, returns the number of bytes and replaces these bytes of the file, leaving all other
files alone, unless the kernel stops because the disk or the log is full; to any other range it
returns -1 and changes nothing.  `readi` to a kernel buffer returns -1 outside of the file, and the
bytes that are there otherwise. -/
theorem file_refines_bytes (hs : s.WellFormed) (ha : s.Held a) (bytes : List UInt8)
    (hoff : off < 2 ^ 32) (hlen : bytes.length < 2 ^ 32) (hn : n < 2 ^ 32) :
    (s.InOp → Fits s (s.icache a).inum off bytes.length →
      (∃ s', Returns (writei a (fun j => bytes[j]?) off bytes.length) s bytes.length s' ∧
        s'.WellFormed ∧ s'.sb = s.sb ∧
        s'.disk.size (s.icache a).inum =
          max (s.disk.size (s.icache a).inum) (off + bytes.length) ∧
        s'.file (s.icache a).inum = pwrite (s.file (s.icache a).inum) off bytes ∧
        ∀ i, s.disk.Live s.sb.ninodes i → i ≠ (s.icache a).inum → s'.file i = s.file i) ∨
      (Fails (writei a (fun j => bytes[j]?) off bytes.length) s outOfBlocks ∧
        s.DiskFull a off bytes.length) ∨
      (Fails (writei a (fun j => bytes[j]?) off bytes.length) s tooBig ∧
        s.LogFull a off bytes.length)) ∧
    (¬ Fits s (s.icache a).inum off bytes.length →
      Returns (writei a (fun j => bytes[j]?) off bytes.length) s (-1) s) ∧
    (s.disk.size (s.icache a).inum < off ∨ 2 ^ 32 ≤ off + n →
      Returns (readi a (fun _ => true) off n) s (-1, []) s) ∧
    (off ≤ s.disk.size (s.icache a).inum ∧ off + n < 2 ^ 32 →
      Returns (readi a (fun _ => true) off n) s
        ((min n (s.disk.size (s.icache a).inum - off) : ℕ),
          pread (s.file (s.icache a).inum) off n) s) := by
  refine ⟨fun hop hfits => ?_, fun hno => writei_refused hoff hlen hno hs ha, fun h => ?_,
    fun h => readi_pread hs ha h.1 h.2⟩
  · refine (writei_of_fits hs ha hop hfits).imp_left ?_
    rintro ⟨s', h, e, hwrote⟩
    have hfile := hwrote.file hfits.1 (hs.live ha)
    refine ⟨s', h, hwrote.wf, hwrote.sb, ?_, hfile, fun i => hwrote.file_of_ne⟩
    rw [← FsState.length_file, hfile, length_pwrite (by rw [FsState.length_file]; exact hfits.1),
      FsState.length_file]
  · exact readi_of_gt hoff hn (by rwa [hs.image ha])

/-! ### The content of a file -/

/-- The inode `ip` has the content `F`: `readi` returns the bytes that are there, and -1 outside of
the file or when the range wraps. -/
structure FsState.FileAt (t : FsState) (ip : ℕ) (F : List UInt8) : Prop where
  size : F.length < 2 ^ 31
  read : ∀ off n, off < 2 ^ 32 → n < 2 ^ 32 → Returns (readi ip (fun _ => true) off n) t
    (if off ≤ F.length ∧ off + n < 2 ^ 32 then ((min n (F.length - off) : ℕ), pread F off n)
      else (-1, [])) t

section Content

variable {t : FsState} {ip off n : ℕ} {F : List UInt8}

theorem FsState.fileAt_of_wellFormed (hs : t.WellFormed) (ha : t.Held ip) :
    t.FileAt ip (t.file (t.icache ip).inum) := by
  have hsize := hs.files.size _ (hs.live ha)
  refine ⟨?_, fun off n hoff hn => ?_⟩
  · rw [length_file]
    simp only [MAXFILE, NDIRECT, NINDIRECT, BSIZE] at hsize
    omega
  · rw [length_file]
    split
    · rename_i h
      exact readi_pread hs ha h.1 h.2
    · rename_i h
      exact readi_of_gt hoff hn (by rw [hs.image ha]; omega)

namespace FsState.FileAt

theorem full (h : t.FileAt ip F) (off n : ℕ) (hle : off + n ≤ F.length) :
    Returns (readi ip (fun _ => true) off n) t ((n : ℤ), pread F off n) t := by
  have hsize := h.size
  have := h.read off n (by omega) (by omega)
  rwa [if_pos ⟨by omega, by omega⟩, Nat.min_eq_left (by omega)] at this

theorem short (h : t.FileAt ip F) (off n : ℕ) (hoff : off < 2 ^ 32) (hn : n < 2 ^ 32)
    (hlt : F.length < off + n) : ∃ r bytes,
      Returns (readi ip (fun _ => true) off n) t (r, bytes) t ∧ r ≠ n ∧ bytes.length ≤ n := by
  have hr := h.read off n hoff hn
  split at hr
  · exact ⟨_, _, hr, by omega, by rw [pread, List.length_take]; omega⟩
  · exact ⟨_, _, hr, by omega, by simp⟩

end FsState.FileAt

theorem length_pread (h : off + n ≤ F.length) : (pread F off n).length = n := by
  rw [pread, List.length_take, List.length_drop]
  omega

theorem getD_pread {j : ℕ} (hj : j < n) : (pread F off n).getD j 0 = F.getD (off + j) 0 := by
  simp only [pread, List.getD_eq_getElem?_getD, List.getElem?_take, hj, if_true,
    List.getElem?_drop]

end Content

/-! ### A disk that is full -/

/-- A file of one block, block 14. -/
def oneBlock : Dinode :=
  { Dinode.zero with
    type := T_FILE
    nlink := 1
    size := 1024
    addrs := fun k => if k = 0 then 14 else 0 }

/-- The tables of a system with a process of the root container in slot 0. -/
def oneProc : Kernel :=
  { Kernel.procinit [] 0 with
    started := true
    proc := Function.update (fun _ => Proc.zero) 0 { Proc.zero with container := some root } }

/-- A disk with room for two inodes and with `n` data blocks, the first of which is block 14. -/
def oneFileSb (n : ℕ) : Superblock :=
  { size := 14 + n, nblocks := n, ninodes := 2, nlog := 10, logstart := 2, inodestart := 12,
    bmapstart := 13 }

/-- A file system with `n` data blocks, of which the first belongs to the only file.  The file is in
entry 0 of the inode cache. -/
def oneFile (n : ℕ) : FsState :=
  ((blank oneProc (oneFileSb n) 15).putInode 1 oneBlock).modifyInode 0 fun _ =>
    { dev := ROOTDEV, inum := 1, ref := 1, locked := true, valid := true, din := oneBlock }

theorem wellFormed_oneFile {n : ℕ} (h : (oneFile n).Small 1) : (oneFile n).WellFormed := by
  refine h.wellFormed (by decide) fun a ha => ?_
  have hne : a ≠ 0 := by omega
  rw [oneFile, FsState.modifyInode_icache_of_ne _ hne]
  rfl

theorem inOp_oneFile (n : ℕ) : (oneFile n).InOp := ⟨fun _ => ⟨root, rfl⟩, le_rfl⟩

theorem held_oneFile (n : ℕ) : (oneFile n).Held 0 := ⟨Int.one_pos, rfl⟩

/-- With a free block left, a byte is appended to the file. -/
theorem file_refines_bytes_append : (oneFile 2).WellFormed ∧ ∃ s',
    Returns (writei 0 (fun j => [7][j]?) 1024 1) (oneFile 2) 1 s' ∧
      s'.file 1 = pwrite ((oneFile 2).file 1) 1024 [7] := by
  have hs := wellFormed_oneFile (n := 2) (by decide +kernel)
  have hsize : (oneFile 2).disk.size 1 = 1024 := by decide +kernel
  have hfits : Fits (oneFile 2) 1 1024 1 := ⟨by rw [hsize], by decide⟩
  obtain ⟨s', h, -, -, -, hfile, -⟩ | ⟨-, hfull⟩ | ⟨-, hfull⟩ :=
    (file_refines_bytes (n := 0) hs (held_oneFile 2) [7] (by decide) (by decide)
      (by decide)).1 (inOp_oneFile 2) hfits
  · exact ⟨hs, s', h, hfile⟩
  · exact absurd hfull (by unfold FsState.DiskFull; decide +kernel)
  · exact absurd hfull (by unfold FsState.LogFull; decide +kernel)

/-- With no free block left, the same write fits the file and stops the kernel. -/
theorem writei_disk_full : (oneFile 1).WellFormed ∧ (oneFile 1).Held 0 ∧ (oneFile 1).InOp ∧
    Fits (oneFile 1) ((oneFile 1).icache 0).inum 1024 1 ∧
    Fails (writei 0 (fun j => [7][j]?) 1024 1) (oneFile 1) outOfBlocks := by
  have hsize : (oneFile 1).disk.size 1 = 1024 := by decide +kernel
  refine ⟨wellFormed_oneFile (by decide +kernel), held_oneFile 1, inOp_oneFile 1,
    ⟨hsize.ge, by decide⟩, fails_iff_map.2 (by decide +kernel)⟩

end Xv6Container
