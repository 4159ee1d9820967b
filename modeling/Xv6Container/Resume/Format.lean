import Mathlib.Data.List.GetD
import Xv6Container.Data.Bytes
import Xv6Container.Proc.Control

/-!
# The file of a suspended process

`suspend` writes a `struct resumehdr` and a `struct trapframe` byte by byte as they lie in memory,
and `resume` reads them back into memory.

* `getHdr_putHdr` : the header is read back as it was written;
* `storeTf_tfBytes` : so is the trapframe.
-/

namespace Xv6Container

/-- `sizeof(struct resumehdr)`. -/
abbrev HDRSIZE : ℕ := 32

/-- `sizeof(struct trapframe)`. -/
abbrev TFSIZE : ℕ := 288

/-- The bytes of a `struct resumehdr`. -/
def putHdr (h : ResumeHdr) : List UInt8 :=
  intBytes h.memSz ++ intBytes h.codeSz ++ intBytes h.stackSz ++ intBytes h.strace ++ h.name

/-- The `int` at offset `o`. -/
def getInt (bytes : List UInt8) (o : ℕ) : ℤ := toInt32 (getLE 4 (fun i => bytes.getD i 0) o)

/-- The `struct resumehdr` in 32 bytes. -/
def getHdr (bytes : List UInt8) : ResumeHdr where
  memSz := getInt bytes 0
  codeSz := getInt bytes 4
  stackSz := getInt bytes 8
  strace := getInt bytes 12
  name := bytes.drop 16

/-- Byte `i` of a trapframe. -/
def tfByte (tf : Trapframe) (i : ℕ) : UInt8 := UInt8.ofNat ((tf (i / 8)).toNat / 256 ^ (i % 8))

/-- The bytes of a trapframe. -/
def tfBytes (tf : Trapframe) : List UInt8 := (List.range TFSIZE).map (tfByte tf)

/-- The trapframe after `bytes` are stored at its beginning. -/
def storeTf (tf : Trapframe) (bytes : List UInt8) : Trapframe := fun k =>
  UInt64.ofNat (getLE 8 (blit (tfByte tf) 0 bytes.length fun i => bytes.getD i 0) (8 * k))

/-! ### Round trips -/

@[simp] theorem length_intBytes (v : ℤ) : (intBytes v).length = 4 := by simp [intBytes]

@[simp] theorem length_tfBytes (tf : Trapframe) : (tfBytes tf).length = TFSIZE := by simp [tfBytes]

theorem length_putHdr {h : ResumeHdr} (hname : h.name.length = 16) :
    (putHdr h).length = HDRSIZE := by
  simp [putHdr, hname]

theorem toInt32_emod (v : ℤ) : toInt32 ((v % 2 ^ 32).toNat : ℕ) = toInt32 v := by
  rw [Int.toNat_of_nonneg (Int.emod_nonneg v (by decide))]
  exact Int.emod_bmod ..

theorem getInt_intBytes (v : ℤ) (pre post : List UInt8) :
    getInt (pre ++ intBytes v ++ post) pre.length = toInt32 v := by
  have hlt : (v % 2 ^ 32).toNat < 256 ^ 4 := by
    have := Int.emod_lt_of_pos v (b := 2 ^ 32) (by decide)
    have := Int.emod_nonneg v (b := 2 ^ 32) (by decide)
    omega
  rw [getInt, getLE_digits 4 _ _ (v % 2 ^ 32).toNat, Nat.mod_eq_of_lt hlt, toInt32_emod]
  intro i hi
  rw [List.append_assoc, List.getD_append_right _ _ _ _ (by omega), Nat.add_sub_cancel_left,
    List.getD_append _ _ _ _ (by simpa using hi)]
  simp [intBytes, List.getD_eq_getElem?_getD, hi]

theorem getHdr_putHdr {h : ResumeHdr} :
    getHdr (putHdr h) = ⟨toInt32 h.memSz, toInt32 h.codeSz, toInt32 h.stackSz, toInt32 h.strace,
      h.name⟩ := by
  have h1 := getInt_intBytes h.memSz []
    (intBytes h.codeSz ++ intBytes h.stackSz ++ intBytes h.strace ++ h.name)
  have h2 := getInt_intBytes h.codeSz (intBytes h.memSz)
    (intBytes h.stackSz ++ intBytes h.strace ++ h.name)
  have h3 := getInt_intBytes h.stackSz (intBytes h.memSz ++ intBytes h.codeSz)
    (intBytes h.strace ++ h.name)
  have h4 := getInt_intBytes h.strace
    (intBytes h.memSz ++ intBytes h.codeSz ++ intBytes h.stackSz) h.name
  simp only [List.append_assoc, List.nil_append, List.length_append, length_intBytes,
    List.length_nil] at h1 h2 h3 h4
  have hname : (putHdr h).drop 16 = h.name := List.drop_left' (by simp)
  simp only [getHdr, hname]
  simp only [putHdr, List.append_assoc, h1, h2, h3, h4]

theorem storeTf_tfBytes (tf tf' : Trapframe) {k : ℕ} (hk : k < 36) :
    storeTf tf (tfBytes tf') k = tf' k := by
  have hlt : (tf' k).toNat < 256 ^ 8 := (tf' k).toNat_lt
  rw [storeTf, getLE_digits 8 _ _ (tf' k).toNat, Nat.mod_eq_of_lt hlt, UInt64.ofNat_toNat]
  intro i hi
  have hdiv : (8 * k + i) / 8 = k := by omega
  have hmod : (8 * k + i) % 8 = i := by omega
  have hin : 8 * k + i < TFSIZE := by unfold TFSIZE; omega
  rw [blit_in (by omega) (by rw [length_tfBytes]; omega), Nat.sub_zero, tfBytes,
    List.getD_eq_getElem?_getD, List.getElem?_map, List.getElem?_range hin, Option.map_some,
    Option.getD_some, tfByte, hdiv, hmod]

end Xv6Container
