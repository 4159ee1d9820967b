import Xv6Container.Data.Does
import Xv6Container.Fs.File

/-!
# When a write runs out of room

`writei` stops the kernel when the disk has no free block left, and when its transaction does not
fit the log.  This module says when that can happen.

A write touches a set of places: those of the blocks it writes, and that of the indirect block
(`touched`).  Each block it allocates fills one of them, so the number of free blocks less the
number of places still missing a block stays the same.  The blocks it logs are blocks of the free
map, blocks in these places, and at the end the block of the inode.

* `Log.Logged.length_le` : a log that has recorded blocks of a set is no longer than the set allows;
* `Budget` : the invariant of a write that still fills places;
* `writei_fails` : `writei` stops only if there are fewer free blocks than places to fill, or if
  the log has no room for all blocks of these places.
-/

namespace Xv6Container

/-- The message of `balloc` when the disk is full. -/
def outOfBlocks : Stop := .panic "balloc: out of blocks"

/-- The message of `log_write` when the log is full. -/
def tooBig : Stop := .panic "too big a transaction"

/-! ### The log of a transaction -/

namespace Log

variable {l₀ l l' : Log} {S T : Finset ℕ} {b : ℕ}

/-- How many blocks a transaction may log. -/
def capacity (l : Log) : ℕ := min LOGSIZE (l.size - 1)

/-- `l` is the log `l₀` after blocks of `S` have been logged. -/
structure Logged (l₀ : Log) (S : Finset ℕ) (l : Log) : Prop where
  size : l.size = l₀.size
  outstanding : l.outstanding = l₀.outstanding
  lh : ∃ new : List ℕ, l.lh = l₀.lh ++ new ∧ new.Nodup ∧ ∀ b ∈ new, b ∈ S

theorem Logged.refl (l : Log) (S : Finset ℕ) : l.Logged S l :=
  ⟨rfl, rfl, [], by simp, List.nodup_nil, by simp⟩

theorem Logged.mono (h : l₀.Logged S l) (hS : S ⊆ T) : l₀.Logged T l := by
  obtain ⟨new, hl, hn, hmem⟩ := h.lh
  exact ⟨h.size, h.outstanding, new, hl, hn, fun b hb => hS (hmem b hb)⟩

theorem Logged.length_le (h : l₀.Logged S l) : l.lh.length ≤ l₀.lh.length + S.card := by
  obtain ⟨new, hl, hn, hmem⟩ := h.lh
  have hcard : new.length ≤ S.card := by
    rw [← List.toFinset_card_of_nodup hn]
    exact Finset.card_le_card fun b hb => hmem b (List.mem_toFinset.1 hb)
  rw [hl, List.length_append]
  omega

theorem Logged.logWrite (h : l₀.Logged S l) (hb : b ∈ S) (hw : l.logWrite b = .ok l') :
    l₀.Logged S l' := by
  unfold Log.logWrite Log.record at hw
  split_ifs at hw with _ _ hmem
  · cases hw
    exact h
  · cases hw
    obtain ⟨new, hl, hn, hnew⟩ := h.lh
    refine ⟨h.size, h.outstanding, new ++ [b], by simp [hl], ?_, fun c hc => ?_⟩
    · refine List.Nodup.append hn (List.nodup_singleton b) (List.disjoint_singleton.2 fun hb' => ?_)
      exact hmem (by rw [hl]; exact List.mem_append_right _ hb')
    · rcases List.mem_append.1 hc with hc | hc
      · exact hnew c hc
      · rwa [List.mem_singleton.1 hc]

theorem logWrite_error {e : Stop} (hout : 1 ≤ l.outstanding) (h : l.logWrite b = .error e) :
    e = tooBig ∧ l.capacity ≤ l.lh.length := by
  unfold Log.logWrite at h
  split_ifs at h with hbig
  · cases h
    exact ⟨rfl, by unfold capacity; omega⟩
  · omega

end Log

variable {s s' : FsState} {a b bn i k off n fuel tot : ℕ} {e : Stop}

/-! ### Calls that stop -/

theorem does_logWrite {E : Stop → Prop} (h : ∀ e, s.store.log.logWrite b = .error e → E e) :
    Does (logWrite b) s (fun _ t => ∃ l, s.store.log.logWrite b = .ok l ∧ s.setLog l = t) E := by
  refine .imp (Q := fun _ _ => True) (.get_bind ?_) fun _ _ hr _ => returns_logWrite.1 hr
  cases hl : s.store.log.logWrite b with
  | error e => exact .throw (h e hl)
  | ok l => exact .set trivial

/-! ### Filling places -/

namespace Superblock

/-- The blocks of the free map. -/
def bitmap (sb : Superblock) : Finset ℕ := (Finset.range sb.size).image sb.bblock

theorem bblock_mem_bitmap {sb : Superblock} (hb : b < sb.size) : sb.bblock b ∈ sb.bitmap :=
  Finset.mem_image_of_mem _ (Finset.mem_range.2 hb)

end Superblock

namespace FsState

variable (s a) (P : Finset Place)

/-- The free blocks. -/
def freeBlocks : Finset ℕ := (Finset.range s.sb.size).filter fun b => s.used b = false

/-- The places of `P` that hold no block. -/
def missing : Finset Place := P.filter fun p => (s.image a).ref s.sb.ninodes p = 0

/-- The blocks of the free map and the blocks in the places of `P`. -/
def loggable : Finset ℕ := s.sb.bitmap ∪ (P.image ((s.image a).ref s.sb.ninodes)).erase 0

variable {s a P}

theorem card_loggable_le : (s.loggable a P).card ≤ s.sb.bitmap.card + P.card := by
  refine (Finset.card_union_le _ _).trans (Nat.add_le_add_left ?_ _)
  exact (Finset.card_erase_le).trans Finset.card_image_le

theorem ref_mem_loggable {p : Place} (hp : p ∈ P) (h : (s.image a).ref s.sb.ninodes p ≠ 0) :
    (s.image a).ref s.sb.ninodes p ∈ s.loggable a P :=
  Finset.mem_union_right _ (Finset.mem_erase.2 ⟨h, Finset.mem_image_of_mem _ hp⟩)

theorem loggable_subset (hsb : s'.sb = s.sb) (href : ∀ p, (s.image a).ref s.sb.ninodes p ≠ 0 →
    (s'.image a).ref s.sb.ninodes p = (s.image a).ref s.sb.ninodes p) :
    s.loggable a P ⊆ s'.loggable a P := by
  unfold loggable
  rw [hsb]
  refine Finset.union_subset_union_right fun b hb => ?_
  obtain ⟨h0, hb⟩ := Finset.mem_erase.1 hb
  obtain ⟨p, hp, rfl⟩ := Finset.mem_image.1 hb
  exact Finset.mem_erase.2 ⟨h0, Finset.mem_image.2 ⟨p, hp, href p h0⟩⟩

theorem freeBlocks_eq_empty (h : s.freeBlock = none) : s.freeBlocks = ∅ := by
  refine Finset.filter_eq_empty_iff.2 fun b hb hu => ?_
  obtain ⟨c, hc⟩ := exists_freeBlock (Finset.mem_range.1 hb) hu
  rw [h] at hc
  cases hc

/-- A transaction in progress that fills places of `P`, begun with the log `l₀`: there are `d` more
free blocks than places to fill. -/
structure Budget (P : Finset Place) (l₀ : Log) (d : ℤ) (a : ℕ) (s : FsState) : Prop where
  accountable : s.Accountable
  outstanding : 1 ≤ l₀.outstanding
  logged : l₀.Logged (s.loggable a P) s.store.log
  free : (s.freeBlocks.card : ℤ) = (s.missing a P).card + d

/-- There are not enough free blocks for the places of `P`, or the log `l₀` has no room for the
blocks in them and the free map. -/
def Short (sb : Superblock) (P : Finset Place) (l₀ : Log) (d : ℤ) (e : Stop) : Prop :=
  e = outOfBlocks ∧ d < 0 ∨
    e = tooBig ∧ l₀.capacity ≤ l₀.lh.length + (sb.bitmap.card + P.card)

variable {l₀ l l₁ : Log} {d : ℤ}

section

variable (h : Budget P l₀ d a s)

include h

theorem Budget.logWrite_error (hl : l₀.Logged (s.loggable a P) l) (he : l.logWrite b = .error e) :
    Short s.sb P l₀ d e := by
  have hout : 1 ≤ l.outstanding := by rw [hl.outstanding]; exact h.outstanding
  obtain ⟨rfl, hcap⟩ := Log.logWrite_error hout he
  refine .inr ⟨rfl, ?_⟩
  have h1 := hl.length_le
  have h2 := card_loggable_le (s := s) (a := a) (P := P)
  have h3 : l.capacity = l₀.capacity := by rw [Log.capacity, Log.capacity, hl.size]
  omega

theorem Budget.setLog (hl : l₀.Logged (s.loggable a P) l) : Budget P l₀ d a (s.setLog l) :=
  ⟨h.accountable, h.outstanding, hl, h.free⟩

/-- A free block fills a place. -/
theorem Budget.fill {p : Place} (hw : s.Work a) (hp : p ∈ P) (hfree : s.freeBlock = some b)
    (hg : s.Grows a s') (h0 : (s.image a).ref s.sb.ninodes p = 0)
    (hb : (s'.image a).ref s.sb.ninodes p = b)
    (hother : ∀ q, q ≠ p → (s'.image a).ref s.sb.ninodes q = (s.image a).ref s.sb.ninodes q)
    (hused : ∀ c < s.sb.size, s'.used c = (s.allocated b).used c) (hacc : s'.Accountable)
    (hl1 : s.store.log.logWrite (s.sb.bblock b) = .ok l₁) (hl : l₁.logWrite b = .ok s'.store.log) :
    Budget P l₀ d a s' := by
  obtain ⟨hlt, hu⟩ := freeBlock_eq_some hfree
  have hlow := hw.formatted.le_freeBlock hfree
  have hb0 : b ≠ 0 := by
    have := hw.owns.pos
    omega
  have hfb : s'.freeBlocks = s.freeBlocks.erase b := by
    ext c
    simp only [freeBlocks, Finset.mem_filter, Finset.mem_erase, Finset.mem_range, hg.sb]
    by_cases hc : c < s.sb.size
    · rw [hused c hc, hw.formatted.used_allocated hlow hc]
      simp [hc]
    · simp [hc]
  have hmiss : s'.missing a P = (s.missing a P).erase p := by
    ext q
    simp only [missing, Finset.mem_filter, Finset.mem_erase, hg.sb]
    by_cases hq : q = p
    · subst hq; simp [hb, hb0]
    · simp [hq, hother q hq]
  have hmem1 : b ∈ s.freeBlocks := Finset.mem_filter.2 ⟨Finset.mem_range.2 hlt, hu⟩
  have hmem2 : p ∈ s.missing a P := Finset.mem_filter.2 ⟨hp, h0⟩
  refine ⟨hacc, h.outstanding, ?_, ?_⟩
  · have hsub := loggable_subset (P := P) hg.sb hg.ref
    refine Log.Logged.logWrite ((h.logged.logWrite ?_ hl1).mono hsub) ?_ hl
    · exact Finset.mem_union_left _ (Superblock.bblock_mem_bitmap hlt)
    · have := ref_mem_loggable (s := s') (a := a) hp
      rw [hg.sb, hb] at this
      exact this hb0
  · have h1 := Finset.card_erase_add_one hmem1
    have h2 := Finset.card_erase_add_one hmem2
    rw [← hfb] at h1
    rw [← hmiss] at h2
    have := h.free
    omega

theorem Budget.does_balloc {p : Place} (hp : p ∈ s.missing a P) :
    Does balloc s (Returns balloc s) (Short s.sb P l₀ d) := by
  refine .imp (Q := fun _ _ => True) ?_ fun _ _ hr _ => hr
  refine .bind_returns (a := ()) (returns_chargeBlock.2 ⟨h.accountable, rfl⟩) (.get_bind ?_)
  cases hb : (s.setKern s.charge).freeBlock with
  | none =>
    have h1 := h.free
    have h2 : 0 < (s.missing a P).card := Finset.card_pos.2 ⟨p, hp⟩
    rw [show s.freeBlocks = ∅ from freeBlocks_eq_empty hb, Finset.card_empty] at h1
    exact .throw (.inl ⟨rfl, by omega⟩)
  | some b =>
    refine .bind_returns (a := ()) (returns_setBuf.2 rfl)
      (.bind (does_logWrite fun e => h.logWrite_error h.logged) fun _ t ht => ?_)
    obtain ⟨l, hl, rfl⟩ := ht
    have hlog := h.logged.logWrite (Finset.mem_union_left _
      (Superblock.bblock_mem_bitmap (freeBlock_eq_some hb).1)) hl
    exact .bind (.bind_returns (a := ()) (returns_setBuf.2 rfl)
      (does_logWrite fun e => h.logWrite_error hlog)) fun _ _ _ => .pure trivial

theorem Budget.bmapAddr {k : Fin (NDIRECT + 1)} (hw : s.Work a) (hp : .addr (s.icache a).inum k ∈ P)
    (hr : Returns (bmapAddr a k) s b s') : Budget P l₀ d a s' := by
  obtain ⟨hg, -, ha, hother⟩ := bmapAddr_spec hw hr
  obtain ⟨h0, t, hb, rfl⟩ | ⟨-, -, rfl⟩ := returns_bmapAddr hr
  · obtain ⟨hacc, hfree, l₁, l, hl1, hl, rfl⟩ := returns_balloc.1 hb
    refine h.fill hw hp hfree hg ?_ ?_ hother (fun c _ => rfl)
      (hacc.congr rfl s.accounts_charge) hl1 hl
    · simp [Image.ref, Image.addr, image, table_self, h0]
    · have hl := hg.work.live
      rw [hg.inum, hg.sb] at hl
      rw [Image.ref, if_pos hl, ha]
  · exact h

theorem Budget.does_bmapAddr {k : Fin (NDIRECT + 1)} (hp : .addr (s.icache a).inum k ∈ P) :
    Does (Xv6Container.bmapAddr a k) s (Returns (Xv6Container.bmapAddr a k) s)
      (Short s.sb P l₀ d) := by
  refine .imp (Q := fun _ _ => True) ?_ fun _ _ hr _ => hr
  refine .bind_returns (returns_inode.2 ⟨rfl, rfl⟩) (.ite (fun h0 => ?_) fun _ => .pure trivial)
  refine .bind (h.does_balloc (Finset.mem_filter.2 ⟨hp, ?_⟩)) fun _ _ _ =>
    .bind_returns (a := ()) (returns_setDin.2 rfl) (.pure trivial)
  simp [Image.ref, Image.addr, image, table_self, h0]

end

/-- The places that `bmap` may fill for block `bn` of inode `i` are in `P`. -/
def Covers (P : Finset Place) (i bn : ℕ) : Prop :=
  bn < MAXFILE ∧ place i bn ∈ P ∧ (NDIRECT ≤ bn → .addr i indirect ∈ P)

theorem ref_entry_of_empty {j addr : ℕ} (haddr : (s.image a).addr (s.icache a).inum indirect = addr)
    (hempty : getAddr (s.blk addr) j = 0) :
    (s.image a).ref s.sb.ninodes (.entry (s.icache a).inum j) = 0 := by
  have : (s.image a).entry (s.icache a).inum j = 0 := by
    rw [Image.entry, haddr]
    split
    · rfl
    · exact congrArg UInt32.toNat hempty
  simp [Image.ref, this]

section

variable (h : Budget P l₀ d a s) (hw : s.Work a)

include h hw

theorem Budget.setEntry {j addr : ℕ} {t : FsState} (hj : j < NINDIRECT) (h0 : addr ≠ 0)
    (haddr : (s.image a).addr (s.icache a).inum indirect = addr)
    (hempty : getAddr (s.blk addr) j = 0) (hp : .entry (s.icache a).inum j ∈ P)
    (hind : .addr (s.icache a).inum indirect ∈ P) (hb : Returns balloc s b t)
    (hs' : t.setBlk addr (setAddr (t.blk addr) j (UInt32.ofNat b)) = s') :
    Budget P l₀ d a s' ∧ addr ∈ s'.loggable a P := by
  subst hs'
  obtain ⟨hacc, hfree, l₁, l₂, hl1, hl2, rfl⟩ := returns_balloc.1 hb
  obtain ⟨hg, hb, hother⟩ := grows_setEntry (((s.allocated b).setLog l₂).setBlk addr
    (setAddr ((s.allocated b).blk addr) j (UInt32.ofNat b))) hw hj h0 haddr hempty hfree rfl rfl rfl
  have href := Image.ref_indirect hw.live
  rw [haddr] at href
  have hlow := hw.owns.mem (p := .addr (s.icache a).inum indirect) (by rwa [href])
  rw [href] at hlow
  have hlive := hg.work.live
  refine ⟨h.fill hw hp hfree hg (ref_entry_of_empty haddr hempty) ?_ hother (fun c hc => ?_)
    (hacc.congr rfl s.accounts_charge) hl1 hl2, ?_⟩
  · rw [Image.ref, if_pos ⟨hlive, hj⟩]
    exact hb
  · exact (hw.formatted.allocated (hw.formatted.le_freeBlock hfree)).used_setBlk hlow.1 hc
  · have hmem := ref_mem_loggable hind (by rwa [href])
    rw [href] at hmem
    exact loggable_subset hg.sb hg.ref hmem

theorem Budget.does_bmap (hP : Covers P (s.icache a).inum bn) : Does (bmap a bn) s
    (fun b s' => Returns (bmap a bn) s b s' ∧ Budget P l₀ d a s') (Short s.sb P l₀ d) := by
  obtain ⟨hmax, hp, hind⟩ := hP
  refine .imp (Q := fun _ s' => Budget P l₀ d a s') ?_ fun _ _ hr hb => ⟨hr, hb⟩
  unfold bmap
  split
  · rename_i hbn
    rw [place, dif_pos hbn] at hp
    exact (h.does_bmapAddr hp).imp fun _ _ hr _ => h.bmapAddr hw hp hr
  · rename_i hbn
    have hind := hind (by omega)
    have hj : bn - NDIRECT < NINDIRECT := by unfold MAXFILE at hmax; omega
    rw [if_pos hj]
    refine .bind (h.does_bmapAddr hind) fun addr s₁ h1 => ?_
    have hb1 := h.bmapAddr hw hind h1
    obtain ⟨hg, h0, ha, -⟩ := bmapAddr_spec hw h1
    rw [place, dif_neg hbn] at hp
    rw [← hg.inum] at ha hp hind
    rw [← hg.sb]
    refine .bind_returns (returns_bread.2 ⟨rfl, rfl⟩) (.ite (fun hempty => ?_) fun _ => .pure hb1)
    refine .bind (hb1.does_balloc (Finset.mem_filter.2 ⟨hp, ref_entry_of_empty ha hempty⟩))
      fun b t hb => ?_
    obtain ⟨hb2, hmem⟩ := hb1.setEntry hg.work hj h0 ha hempty hp hind hb rfl
    obtain ⟨-, -, _, _, -, -, rfl⟩ := returns_balloc.1 hb
    refine .bind_returns (returns_bread.2 ⟨rfl, rfl⟩) (.bind_returns (a := ())
      (returns_setBuf.2 rfl) (.bind (does_logWrite fun e => hb2.logWrite_error hb2.logged)
      fun _ _ ht => ?_))
    obtain ⟨l, hl, rfl⟩ := ht
    exact .pure (hb2.setLog (hb2.logged.logWrite hmem hl))

theorem Budget.setBlk (hP : Covers P (s.icache a).inum bn)
    (hb : (s.image a).block (s.icache a).inum bn = b) (h0 : b ≠ 0) (f : Block) :
    Budget P l₀ d a (s.setBlk b f) ∧ b ∈ (s.setBlk b f).loggable a P := by
  obtain ⟨hbn, hp, -⟩ := hP
  obtain ⟨href, hlow⟩ := hw.ref_block hbn hb h0
  have hsame := hw.ref_setBlk hbn hb h0 f
  have hsub : s.loggable a P ⊆ (s.setBlk b f).loggable a P :=
    loggable_subset rfl fun p _ => hsame p
  refine ⟨⟨h.accountable, h.outstanding, h.logged.mono hsub, ?_⟩, hsub ?_⟩
  · have hfb : (s.setBlk b f).freeBlocks = s.freeBlocks :=
      Finset.filter_congr fun c hc => by
        rw [hw.formatted.used_setBlk hlow (Finset.mem_range.1 hc)]
    have hmiss : (s.setBlk b f).missing a P = s.missing a P :=
      Finset.filter_congr fun p _ => by rw [setBlk_sb, hsame p]
    rw [hfb, hmiss]
    exact h.free
  · have hmem := ref_mem_loggable hp (by rwa [href])
    rwa [href] at hmem

end

end FsState

/-! ### `writei` -/

/-- The blocks of a file that the bytes `off ..< off + n` meet. -/
def span (off n : ℕ) : Finset ℕ :=
  if n = 0 then ∅ else Finset.Icc (off / BSIZE) ((off + n - 1) / BSIZE)

/-- The places of inode `i` that a write of `n` bytes at `off` needs. -/
def touched (i off n : ℕ) : Finset Place :=
  (span off n).image (place i) ∪
    if ∃ k ∈ span off n, NDIRECT ≤ k then {.addr i indirect} else ∅

theorem mem_span : k ∈ span off n ↔ 0 < n ∧ off / BSIZE ≤ k ∧ k ≤ (off + n - 1) / BSIZE := by
  unfold span
  split
  · simp; omega
  · rw [Finset.mem_Icc]
    omega

theorem covers_touched (hmax : off + n ≤ MAXFILE * BSIZE) (hk : k ∈ span off n) :
    FsState.Covers (touched i off n) i k := by
  have hk' := mem_span.1 hk
  refine ⟨?_, Finset.mem_union_left _ (Finset.mem_image_of_mem _ hk), fun hind => ?_⟩
  · unfold BSIZE at *
    omega
  · refine Finset.mem_union_right _ ?_
    rw [if_pos ⟨k, hk, hind⟩]
    exact Finset.mem_singleton_self _

theorem span_subset {m : ℕ} (hm : m ≤ n) : span (off + m) (n - m) ⊆ span off n := by
  intro k hk
  rw [mem_span] at hk ⊢
  have h1 : off / BSIZE ≤ (off + m) / BSIZE := Nat.div_le_div_right (by omega)
  have h2 : off + m + (n - m) - 1 = off + n - 1 := by omega
  rw [h2] at hk
  omega

/-- The loop of `writei` keeps within its budget, and stops only for lack of room. -/
theorem writeiLoop_room (src : ℕ → Option UInt8) (fuel tot : ℕ) {P : Finset Place} {l₀ : Log}
    {d : ℤ} (hw : s.Work a) (h : s.Budget P l₀ d a)
    (hP : ∀ k ∈ span off n, FsState.Covers P (s.icache a).inum k) :
    Does (writeiLoop a src fuel tot off n) s (fun _ s' => s'.Budget P l₀ d a)
      (FsState.Short s.sb P l₀ d) := by
  induction fuel generalizing s tot off n with
  | zero => exact .pure h
  | succ fuel ih =>
    rw [writeiLoop]
    refine .ite (fun _ => .pure h) fun h0 => ?_
    have hcov := hP (off / BSIZE) (mem_span.2 ⟨by omega, le_rfl, Nat.div_le_div_right (by omega)⟩)
    refine .bind (h.does_bmap hw hcov) fun b s₁ hb => ?_
    obtain ⟨hb, hb1⟩ := hb
    obtain ⟨hbn, hg, hb0, hblock, -⟩ := bmap_spec hw hb
    rw [← hg.inum] at hblock hcov
    rw [← hg.sb]
    obtain ⟨m, hm⟩ : ∃ m, m = min n (BSIZE - off % BSIZE) := ⟨_, rfl⟩
    dsimp only
    rw [← hm]
    refine .bind_returns (returns_bread.2 ⟨rfl, rfl⟩)
      (.bind_returns (a := ()) (returns_setBuf.2 rfl) ?_)
    have hwr := hg.work.setBlk hbn hblock hb0 (off % BSIZE)
      (copied (fun j => (src (tot + j)).isSome) m) fun j => (src (tot + j)).getD 0
    obtain ⟨hb2, hmem⟩ := hb1.setBlk hg.work hcov hblock hb0 (blit (s₁.blk b) (off % BSIZE)
      (copied (fun j => (src (tot + j)).isSome) m) fun j => (src (tot + j)).getD 0)
    refine .ite (fun _ => .pure hb2) fun _ =>
      .bind (does_logWrite fun e => hb2.logWrite_error hb2.logged) fun _ t ht => ?_
    obtain ⟨l, hl, rfl⟩ := ht
    refine ih (tot + m) (hwr.work.setLog l) (hb2.setLog (hb2.logged.logWrite hmem hl))
      fun k hk => ?_
    rw [FsState.setLog_icache, FsState.setBlk_icache, hg.inum]
    exact hP k (span_subset (by omega) hk)

/-- A call of a process that has a container, inside a transaction. -/
structure FsState.InOp (s : FsState) : Prop where
  accountable : s.Accountable
  outstanding : 1 ≤ s.store.log.outstanding

/-- The blocks the disk is short of for a write of `n` bytes at `off` to the cached inode `a`. -/
def FsState.DiskFull (s : FsState) (a off n : ℕ) : Prop :=
  s.freeBlocks.card < (s.missing a (touched (s.icache a).inum off n)).card

/-- The log may be too short for the blocks of the free map and the blocks that a write of `n` bytes
at `off` to the cached inode `a` touches. -/
def FsState.LogFull (s : FsState) (a off n : ℕ) : Prop :=
  s.store.log.capacity ≤
    s.store.log.lh.length + (s.sb.bitmap.card + (touched (s.icache a).inum off n).card)

/-- **`writei`** of a range that fits stops only when there are fewer free blocks than it needs, or
when the log is short of room. -/
theorem writei_fails {src : ℕ → Option UInt8} (hs : s.WellFormed) (ha : s.Held a) (hop : s.InOp)
    (hfits : Fits s (s.icache a).inum off n) (h : Fails (writei a src off n) s e) :
    e = outOfBlocks ∧ s.DiskFull a off n ∨ e = tooBig ∧ s.LogFull a off n := by
  obtain ⟨P, hP⟩ : ∃ P, P = touched (s.icache a).inum off n := ⟨_, rfl⟩
  have hbud : s.Budget P s.store.log (s.freeBlocks.card - (s.missing a P).card) a :=
    ⟨hop.accountable, hop.outstanding, .refl _ _, by omega⟩
  have hshort : ∀ e, FsState.Short s.sb P s.store.log
      (s.freeBlocks.card - (s.missing a P).card) e →
      e = outOfBlocks ∧ s.DiskFull a off n ∨ e = tooBig ∧ s.LogFull a off n := fun e he => by
    unfold FsState.DiskFull FsState.LogFull
    rw [← hP]
    obtain ⟨he, hd⟩ | he := he
    · exact .inl ⟨he, by omega⟩
    · exact .inr he
  obtain ⟨hle, hmax⟩ := hfits
  have hsize : s.disk.size (s.icache a).inum = (s.icache a).din.size.toNat := by
    rw [← hs.image ha, size_image]
  rw [hsize] at hle
  have hlt : off + n < 2 ^ 32 := by unfold MAXFILE BSIZE NDIRECT NINDIRECT at hmax; omega
  refine hshort e (Does.stops (Q := fun _ _ => True) ?_ h)
  refine .bind_returns (returns_inode.2 ⟨rfl, rfl⟩) ?_
  rw [if_neg (by omega), if_neg (by rw [Nat.mod_eq_of_lt hlt]; omega)]
  refine .bind ((writeiLoop_room src n 0 (hs.work ha) hbud fun k hk => hP ▸ covers_touched hmax
    hk).imp fun r s₁ hr hb => And.intro hr hb) fun r s₁ h => ?_
  obtain ⟨hloop, hb1⟩ := h
  rw [← (writeiLoop_spec (hs.work ha) le_rfl hloop).2.2.1.sb]
  -- only the last `iupdate` can stop here, and its log is that of the loop
  have hiupdate : ∀ t : FsState, t.store.log = s₁.store.log → Does (do iupdate a; return (n : ℤ)) t
      (fun _ _ => True) (FsState.Short s₁.sb P s.store.log
        (s.freeBlocks.card - (s.missing a P).card)) := by
    intro t ht
    refine .bind (.get_bind (.bind_returns (a := ()) (returns_setBuf.2 rfl)
      (does_logWrite fun e he => ?_))) fun _ _ _ => .pure trivial
    rw [FsState.setBlk_log, ht] at he
    exact hb1.logWrite_error hb1.logged he
  refine .ite (fun _ => .bind_returns (returns_inode.2 ⟨rfl, rfl⟩) ?_) fun _ => .pure trivial
  split
  · exact .bind_returns (a := ()) (returns_setDin.2 rfl) (hiupdate _ (FsState.modifyInode_log ..))
  · exact hiupdate _ rfl

end Xv6Container
