import Xv6Container.Fs.Dir
import Xv6Container.Fs.File
import Xv6Container.Proc.System

/-!
# Small file systems

A file system none of whose files has an indirect block, and whose inode cache is in use up to some
entry only, is well formed when finitely many conditions hold, and these can be decided
(`FsState.Small`, `Small.wellFormed`).  `blank` is the empty disk such file systems are made from.
-/

namespace Xv6Container

/-! ### An empty disk -/

/-- The map in which the first `n` bits are set. -/
def firstBits (n : ℕ) : Block := (List.range n).foldl setBit fun _ => 0

/-- A disk without inodes whose first `n` blocks are in use, in the middle of a call.  The inode
cache is empty. -/
def blank (k : Kernel) (sb : Superblock) (n : ℕ) : FsState where
  kern := k
  cur := 0
  sb := sb
  store :=
    { disk := fun _ _ => 0
      cache := fun b => if b = sb.bmapstart then firstBits n else fun _ => 0
      log := { start := sb.logstart, size := sb.nlog, outstanding := 1, committing := false,
               lh := [] }
      writes := [] }
  icache := fun _ =>
    { dev := 0, inum := 0, ref := 0, locked := false, valid := false, din := Dinode.zero }

/-- A directory of `size` bytes in block `b`, with one link. -/
def dirInode (b : UInt32) (size : UInt32) : Dinode :=
  { Dinode.zero with
    type := T_DIR
    nlink := 1
    size := size
    addrs := fun k => if k = 0 then b else 0 }

/-- A block of directory entries. -/
def dirBlock (des : List Dirent) : Block := fun i => (des.flatMap putDirent).getD i 0

/-! ### Deciding well-formedness -/

instance : DecidableEq Dinode := fun d d' =>
  decidable_of_iff (d.type = d'.type ∧ d.major = d'.major ∧ d.minor = d'.minor ∧
    d.nlink = d'.nlink ∧ d.size = d'.size ∧ d.addrs = d'.addrs) Dinode.ext_iff.symm

instance (sb : Superblock) : Decidable sb.Ok :=
  decidable_of_iff (2 ≤ sb.logstart ∧ sb.logstart + sb.nlog ≤ sb.inodestart ∧
    (∀ i < sb.ninodes, sb.iblock i < sb.bmapstart) ∧ sb.bmapstart ≤ sb.datastart ∧
    (∀ b < sb.size, sb.bblock b < sb.datastart) ∧ sb.nblocks ≤ sb.size ∧ sb.size < 2 ^ 32 ∧
    sb.ninodes ≤ 2 ^ 16)
    ⟨fun ⟨h1, h2, h3, h4, h5, h6, h7, h8⟩ => ⟨h1, h2, h3, h4, h5, h6, h7, h8⟩,
      fun ⟨h1, h2, h3, h4, h5, h6, h7, h8⟩ => ⟨h1, h2, h3, h4, h5, h6, h7, h8⟩⟩

namespace FsState

variable (s : FsState) (m : ℕ)

/-- The free map of a formatted disk, over a range of blocks. -/
def SmallMap : Prop := s.sb.Ok ∧ 0 < s.sb.datastart ∧ ∀ b < s.sb.datastart, s.used b = true

instance : Decidable s.SmallMap := inferInstanceAs (Decidable (_ ∧ _ ∧ _))

/-- Inode `i` is free, or it has no indirect block, all blocks below its size, and only blocks that
are in use. -/
def SmallFile (i : ℕ) : Prop := (s.dinode i).type = 0 ∨
  (s.dinode i).addrs indirect = 0 ∧ (s.dinode i).size.toNat ≤ NDIRECT * BSIZE ∧
  (∀ k : Fin NDIRECT, k * BSIZE < (s.dinode i).size.toNat → (s.dinode i).addrs k.castSucc ≠ 0) ∧
  ∀ k, (s.dinode i).addrs k ≠ 0 → s.sb.datastart ≤ ((s.dinode i).addrs k).toNat ∧
    ((s.dinode i).addrs k).toNat < s.sb.size ∧ s.used ((s.dinode i).addrs k).toNat = true

instance (i : ℕ) : Decidable (s.SmallFile i) := inferInstanceAs (Decidable (_ ∨ _ ∧ _ ∧ _ ∧ _))

/-- Inodes `i` and `j` share no block. -/
def Apart (i j : ℕ) : Prop := (s.dinode i).type ≠ 0 → (s.dinode j).type ≠ 0 →
  ∀ k m, (s.dinode i).addrs k ≠ 0 → (s.dinode i).addrs k = (s.dinode j).addrs m → i = j ∧ k = m

instance (i j : ℕ) : Decidable (s.Apart i j) := inferInstanceAs (Decidable (_ → _ → _))

/-- Block `b` is a block of inode `i`. -/
def BlockOf (b i : ℕ) : Prop := (s.dinode i).type ≠ 0 ∧ ∃ k, ((s.dinode i).addrs k).toNat = b

instance (b i : ℕ) : Decidable (s.BlockOf b i) := inferInstanceAs (Decidable (_ ∧ _))

/-- No block belongs to two places, and every data block in use belongs to one. -/
def SmallBlocks : Prop :=
  (∀ i < s.sb.ninodes, ∀ j < s.sb.ninodes, s.Apart i j) ∧
  ∀ b < s.sb.size, s.sb.datastart ≤ b → s.used b = true → ∃ i < s.sb.ninodes, s.BlockOf b i

instance : Decidable s.SmallBlocks := inferInstanceAs (Decidable (_ ∧ _))

/-- Entry `a` of the inode cache is free, or holds an inode that no other of the first `m` holds,
and that agrees with the disk if it is valid. -/
def SmallEntry (a : ℕ) : Prop := (s.icache a).ref = 0 ∨
  0 < (s.icache a).ref ∧ (s.icache a).dev = ROOTDEV ∧ (s.icache a).inum < s.sb.ninodes ∧
  (∀ b < m, 0 < (s.icache b).ref → (s.icache a).inum = (s.icache b).inum → a = b) ∧
  ((s.icache a).valid = true → (s.icache a).din = s.dinode (s.icache a).inum ∧
    (s.icache a).din.type ≠ 0)

instance (a : ℕ) : Decidable (s.SmallEntry m a) :=
  inferInstanceAs (Decidable (_ ∨ _ ∧ _ ∧ _ ∧ _ ∧ _))

/-- What there is to check of a small file system that uses the first `m` entries of the inode
cache. -/
def Small : Prop :=
  s.SmallMap ∧ (∀ i < s.sb.ninodes, s.SmallFile i) ∧ s.SmallBlocks ∧ ∀ a < m, s.SmallEntry m a

instance : Decidable (s.Small m) := inferInstanceAs (Decidable (_ ∧ _ ∧ _ ∧ _))

variable {s m}

theorem Small.files (h : s.Small m) : s.Files s.disk := by
  obtain ⟨⟨-, hpos, -⟩, hfile, ⟨hapart, hcover⟩, -⟩ := h
  have hsmall i (hi : s.disk.Live s.sb.ninodes i) := Or.resolve_left (hfile i hi.1) hi.2
  -- a place that holds a block is an entry of `addrs`
  have hplace : ∀ p, s.disk.ref s.sb.ninodes p ≠ 0 → ∃ i k, p = .addr i k ∧
      s.disk.Live s.sb.ninodes i ∧ (s.dinode i).addrs k ≠ 0 ∧
      s.disk.ref s.sb.ninodes p = ((s.dinode i).addrs k).toNat := fun p hp => by
    cases p with
    | addr i k =>
      rw [Image.ref] at hp ⊢
      split at hp
      · rename_i hi
        refine ⟨i, k, rfl, hi, fun e => hp ?_, if_pos hi⟩
        exact congrArg UInt32.toNat e
      · exact absurd rfl hp
    | entry i j =>
      rw [Image.ref] at hp
      split at hp
      · rename_i hi
        have : s.disk.addr i indirect = 0 := congrArg UInt32.toNat (hsmall i hi.1).1
        rw [Image.entry, if_pos this] at hp
        exact absurd rfl hp
      · exact absurd rfl hp
  refine ⟨⟨hpos, fun p q hp he => ?_, fun p hp => ?_, fun b hlo hhi hu => ?_⟩, fun i hi k hk => ?_,
    fun i hi => ?_⟩
  · obtain ⟨i, k, rfl, hi, h0, hr⟩ := hplace p hp
    obtain ⟨j, l, rfl, hj, -, hr'⟩ := hplace q (he ▸ hp)
    rw [hr, hr'] at he
    obtain ⟨rfl, rfl⟩ := hapart i hi.1 j hj.1 hi.2 hj.2 k l h0 (UInt32.toNat_inj.1 he)
    rfl
  · obtain ⟨i, k, rfl, hi, h0, hr⟩ := hplace p hp
    rw [hr]
    exact (hsmall i hi).2.2.2 k h0
  · obtain ⟨i, hi, ht, k, hk⟩ := hcover b hhi hlo hu
    exact ⟨.addr i k, by rw [Image.ref, if_pos ⟨hi, ht⟩]; exact hk⟩
  · obtain ⟨-, hsize, hmap, -⟩ := hsmall i hi
    have hk' : k * BSIZE < (s.dinode i).size.toNat := hk
    have hlt : k < NDIRECT := by unfold BSIZE at *; omega
    rw [Image.block, dif_pos hlt]
    exact fun e => hmap ⟨k, hlt⟩ hk (UInt32.toNat_inj.1 e)
  · have := (hsmall i hi).2.1
    have hsize : s.disk.size i ≤ NDIRECT * BSIZE := this
    unfold MAXFILE NDIRECT NINDIRECT BSIZE at *
    omega

theorem Small.wellFormed (h : s.Small m) (hm : m ≤ NINODE)
    (hfree : ∀ a, m ≤ a → (s.icache a).ref = 0) : s.WellFormed := by
  have hfiles := h.files
  obtain ⟨⟨hsb, -, hres⟩, -, -, hentry⟩ := h
  have hlt : ∀ a, 0 < (s.icache a).ref → a < m := fun a ha => by
    by_contra hge
    have := hfree a (by omega)
    omega
  have hused a (ha : 0 < (s.icache a).ref) := (Or.resolve_left (hentry a (hlt a ha)) ha.ne').2
  refine ⟨⟨hsb, hres⟩, hfiles, fun a => ?_, fun a ha => lt_of_lt_of_le (hlt a ha) hm,
    fun a ha => (hused a ha).1, fun a ha => (hused a ha).2.1,
    fun a b ha hb e => (hused a ha).2.2.1 b (hlt b hb) hb e,
    fun a _ ha hv => ((hused a ha).2.2.2 hv).1, fun a ha hv => ((hused a ha).2.2.2 hv).2⟩
  by_cases ha : a < m
  · obtain h0 | ⟨h, -⟩ := hentry a ha <;> omega
  · rw [hfree a (by omega)]

end FsState

end Xv6Container
