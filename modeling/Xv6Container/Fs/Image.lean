import Xv6Container.Fs.Alloc
import Xv6Container.Ledger.Owned

/-!
# File system images

An `Image` is the contents of the disk blocks together with a table of inodes: the one on the disk,
or that with the inode on which a call is working already replaced by its copy in memory.

The places of an image that hold block numbers are the entries of `addrs[]` of its allocated inodes
and the entries of their indirect blocks; `Image.ref` reads them.  `Image.block` is block `k` of a
file and `Image.content` its bytes.

* `Image.ref_place` : the blocks of a file are found in places of their own;
* `Image.ref_congr` : what the places hold depends on the inodes and the indirect blocks only.
-/

namespace Xv6Container

/-- The contents of the disk and an inode table. -/
structure Image where
  blk : Disk
  din : ℕ → Dinode

/-- A place that holds a block number. -/
inductive Place where
  /-- `addrs[k]` of inode `i`. -/
  | addr (i : ℕ) (k : Fin (NDIRECT + 1))
  /-- Entry `j` of the indirect block of inode `i`. -/
  | entry (i j : ℕ)
  deriving DecidableEq

/-- The place of block `k` of inode `i`. -/
def place (i k : ℕ) : Place :=
  if h : k < NDIRECT then .addr i ⟨k, Nat.lt_add_one_of_lt h⟩ else .entry i (k - NDIRECT)

theorem place_inj {i i' k k' : ℕ} (h : place i k = place i' k') : i = i' ∧ k = k' := by
  unfold place at h
  split at h <;> split at h
  · simpa using h
  · cases h
  · cases h
  · simp only [Place.entry.injEq] at h
    omega

theorem place_ne_indirect {i i' k : ℕ} : place i k ≠ .addr i' indirect := by
  unfold place
  split
  · rename_i h
    intro e
    simp only [Place.addr.injEq, indirect, Fin.ext_iff, Fin.val_last] at e
    omega
  · simp

namespace Image

variable (im : Image) (n i : ℕ)

/-- Inode `i` is allocated. -/
def Live : Prop := i < n ∧ (im.din i).type ≠ 0

instance : Decidable (im.Live n i) := inferInstanceAs (Decidable (_ ∧ _))

/-- The block number in `addrs[k]` of inode `i`. -/
def addr (k : Fin (NDIRECT + 1)) : ℕ := ((im.din i).addrs k).toNat

/-- The block number in entry `j` of the indirect block of inode `i`. -/
def entry (j : ℕ) : ℕ :=
  if im.addr i indirect = 0 then 0 else (getAddr (im.blk (im.addr i indirect)) j).toNat

/-- The block number held by a place, 0 if there is none. -/
def ref : Place → ℕ
  | .addr i k => if im.Live n i then im.addr i k else 0
  | .entry i j => if im.Live n i ∧ j < NINDIRECT then im.entry i j else 0

/-- The block number of block `k` of inode `i`, 0 if there is none. -/
def block (k : ℕ) : ℕ :=
  if h : k < NDIRECT then im.addr i ⟨k, Nat.lt_add_one_of_lt h⟩ else im.entry i (k - NDIRECT)

/-- The size of inode `i` in bytes. -/
def size : ℕ := (im.din i).size.toNat

/-- Byte `p` of inode `i`. -/
def content (p : ℕ) : UInt8 := im.blk (im.block i (p / BSIZE)) (p % BSIZE)

variable {im n i} {im' : Image}

theorem ref_place {k : ℕ} (hl : im.Live n i) (hk : k < MAXFILE) :
    im.ref n (place i k) = im.block i k := by
  unfold place block
  split
  · simp [ref, hl]
  · have : k - NDIRECT < NINDIRECT := by unfold MAXFILE NDIRECT NINDIRECT at *; omega
    simp [ref, hl, this]

theorem ref_indirect (hl : im.Live n i) : im.ref n (.addr i indirect) = im.addr i indirect := by
  simp [ref, hl]

theorem addr_congr (h : (im'.din i).addrs = (im.din i).addrs) (k : Fin (NDIRECT + 1)) :
    im'.addr i k = im.addr i k := by
  rw [addr, addr, h]

theorem entry_congr {j : ℕ} (h : im'.addr i indirect = im.addr i indirect)
    (hblk : im.addr i indirect ≠ 0 →
      im'.blk (im.addr i indirect) = im.blk (im.addr i indirect)) :
    im'.entry i j = im.entry i j := by
  unfold entry
  rw [h]
  split
  · rfl
  · rename_i h0
    rw [hblk h0]

theorem block_congr {k : ℕ} (h : (im'.din i).addrs = (im.din i).addrs)
    (hblk : im.addr i indirect ≠ 0 →
      im'.blk (im.addr i indirect) = im.blk (im.addr i indirect)) :
    im'.block i k = im.block i k := by
  unfold block
  split
  · exact addr_congr h _
  · exact entry_congr (addr_congr h _) hblk

theorem ref_congr
    (h : ∀ i < n, (im'.din i).type = (im.din i).type ∧ (im'.din i).addrs = (im.din i).addrs)
    (hblk : ∀ i, im.Live n i → im.addr i indirect ≠ 0 →
      im'.blk (im.addr i indirect) = im.blk (im.addr i indirect)) (p : Place) :
    im'.ref n p = im.ref n p := by
  have hlive : ∀ i, im'.Live n i ↔ im.Live n i := fun i => by
    unfold Live
    refine and_congr_right fun hi => ?_
    rw [(h i hi).1]
  cases p with
  | addr i k =>
    simp only [ref, hlive]
    split
    · rename_i hl
      exact addr_congr (h i hl.1).2 k
    · rfl
  | entry i j =>
    simp only [ref, hlive]
    split
    · rename_i hl
      exact entry_congr (addr_congr (h i hl.1.1).2 _) (hblk i hl.1)
    · rfl

/-- Storing a block number in `addrs[k]` of inode `i` changes that place and no other.  A new
indirect block is empty. -/
theorem ref_setAddr {k : Fin (NDIRECT + 1)} {v : UInt32} (hl : im.Live n i)
    (h : ∀ j < n, j ≠ i → im'.din j = im.din j)
    (hi : im'.din i = { im.din i with addrs := Function.update (im.din i).addrs k v })
    (hblk : ∀ j, im.Live n j → im.addr j indirect ≠ 0 →
      im'.blk (im.addr j indirect) = im.blk (im.addr j indirect))
    (hk : k = indirect → im.addr i indirect = 0 ∧ im'.blk v.toNat = fun _ => 0) :
    im'.ref n (.addr i k) = v.toNat ∧ ∀ p, p ≠ .addr i k → im'.ref n p = im.ref n p := by
  have hlive : ∀ j, im'.Live n j ↔ im.Live n j := fun j => by
    unfold Live
    refine and_congr_right fun hj => ?_
    by_cases hji : j = i
    · subst hji; rw [hi]
    · rw [h j hj hji]
  have haddr : ∀ m, im'.addr i m = if m = k then v.toNat else im.addr i m := fun m => by
    rw [addr, addr, hi]
    by_cases hm : m = k
    · subst hm; simp
    · simp [hm]
  refine ⟨by simp [ref, hlive, hl, haddr], fun p hp => ?_⟩
  cases p with
  | addr j m =>
    simp only [ref, hlive]
    split
    · rename_i hj
      by_cases hji : j = i
      · subst hji
        have hm : m ≠ k := fun e => hp (by rw [e])
        rw [haddr, if_neg hm]
      · exact addr_congr (by rw [h j hj.1 hji]) m
    · rfl
  | entry j m =>
    simp only [ref, hlive]
    split
    · rename_i hj
      by_cases hji : j = i
      · subst hji
        by_cases hki : k = indirect
        · -- the indirect block is new: none of its entries holds anything, before or after
          obtain ⟨h0, hz⟩ := hk hki
          have h1 : im.entry j m = 0 := by simp [entry, h0]
          have h2 : im'.entry j m = 0 := by
            unfold entry
            rw [haddr, if_pos hki.symm, hz]
            simp
          rw [h1, h2]
        · exact entry_congr (by rw [haddr, if_neg (Ne.symm hki)]) (hblk j hj.1)
      · exact entry_congr (addr_congr (by rw [h j hj.1.1 hji]) _) (hblk j hj.1)
    · rfl

theorem ref_setEntry {j : ℕ} {v : UInt32} (hl : im.Live n i) (hj : j < NINDIRECT)
    (h : ∀ i < n, im'.din i = im.din i) (h0 : im.addr i indirect ≠ 0)
    (hi : im'.blk (im.addr i indirect) = setAddr (im.blk (im.addr i indirect)) j v)
    (hblk : ∀ i', im.Live n i' → i' ≠ i → im.addr i' indirect ≠ 0 →
      im'.blk (im.addr i' indirect) = im.blk (im.addr i' indirect)) :
    im'.ref n (.entry i j) = v.toNat ∧ ∀ p, p ≠ .entry i j → im'.ref n p = im.ref n p := by
  have hlive : ∀ j, im'.Live n j ↔ im.Live n j := fun j => by
    unfold Live
    refine and_congr_right fun hj => ?_
    rw [h j hj]
  have haddr : im'.addr i indirect = im.addr i indirect := addr_congr (by rw [h i hl.1]) _
  have hentry : ∀ m, im'.entry i m =
      (getAddr (setAddr (im.blk (im.addr i indirect)) j v) m).toNat :=
    fun m => by rw [entry, haddr, if_neg h0, hi]
  refine ⟨by simp [ref, hlive, hl, hj, hentry], fun p hp => ?_⟩
  cases p with
  | addr i' k =>
    simp only [ref, hlive]
    split
    · rename_i hi'
      exact addr_congr (by rw [h i' hi'.1]) k
    · rfl
  | entry i' m =>
    simp only [ref, hlive]
    split
    · rename_i hi'
      by_cases hii : i' = i
      · subst hii
        have hm : m ≠ j := fun e => hp (by rw [e])
        rw [hentry, getAddr_setAddr_of_ne hm, entry, if_neg h0]
      · exact entry_congr (addr_congr (by rw [h i' hi'.1.1]) _) (hblk i' hi'.1 hii)
    · rfl

/-- The image with another size of inode `i`. -/
def resize (im : Image) (i : ℕ) (sz : UInt32) : Image :=
  { im with din := Function.update im.din i { im.din i with size := sz } }

section resize

variable {sz : UInt32} {j : ℕ}

theorem resize_din : (im.resize i sz).din j =
    { im.din j with size := if j = i then sz else (im.din j).size } := by
  by_cases h : j = i
  · subst h; simp [resize]
  · simp [resize, h]

theorem resize_ref (p : Place) : (im.resize i sz).ref n p = im.ref n p := by
  apply ref_congr
  · intro j _
    rw [resize_din]
    exact ⟨rfl, rfl⟩
  · intro j _ _
    rfl

theorem resize_live : (im.resize i sz).Live n j ↔ im.Live n j := by
  unfold Live
  rw [resize_din]

theorem resize_block {k : ℕ} : (im.resize i sz).block j k = im.block j k := by
  apply block_congr
  · rw [resize_din]
  · intro _
    rfl

theorem resize_content {p : ℕ} : (im.resize i sz).content j p = im.content j p := by
  rw [content, content, resize_block]
  rfl

theorem resize_size : (im.resize i sz).size j = if j = i then sz.toNat else im.size j := by
  unfold size
  rw [resize_din]
  split <;> rfl

end resize

/-- Two images with the same inodes, whose places hold the same blocks with the same contents. -/
structure Same (n : ℕ) (im im' : Image) : Prop where
  din : ∀ i < n, im'.din i = im.din i
  ref : ∀ p, im'.ref n p = im.ref n p
  blk : ∀ i k, im.ref n (place i k) ≠ 0 →
    im'.blk (im.ref n (place i k)) = im.blk (im.ref n (place i k))

theorem Same.live (h : Same n im im') : im'.Live n i ↔ im.Live n i := by
  unfold Live
  refine and_congr_right fun hi => ?_
  rw [h.din i hi]

theorem Same.size (h : Same n im im') (hl : im.Live n i) : im'.size i = im.size i := by
  rw [Image.size, Image.size, h.din i hl.1]

theorem Same.block {k : ℕ} (h : Same n im im') (hl : im.Live n i) (hk : k < MAXFILE) :
    im'.block i k = im.block i k := by
  rw [← ref_place hl hk, ← ref_place (h.live.2 hl) hk, h.ref]

theorem Same.content {p : ℕ} (h : Same n im im') (hl : im.Live n i) (hp : p < MAXFILE * BSIZE)
    (h0 : im.block i (p / BSIZE) ≠ 0) : im'.content i p = im.content i p := by
  have hk : p / BSIZE < MAXFILE := by unfold BSIZE at *; omega
  have hb := h.blk i (p / BSIZE) (by rwa [ref_place hl hk])
  rw [ref_place hl hk] at hb
  rw [Image.content, Image.content, h.block hl hk, hb]

end Image

end Xv6Container
