import Xv6Container.Fs.Image

/-!
# Blocks of a file

`bmap` finds the block of a file at a given position and allocates it if there is none.  A call
works on a cached inode `a`; the table of inodes it sees has the copy of that inode in memory
instead of the one on the disk (`FsState.image`).

* `FsState.Work` : the disk is formatted, the places of that image own the used blocks, and the
  inode is allocated;
* `FsState.Writes` : what a call that writes within a range of the content keeps;
* `FsState.Grows` : what a call that only adds blocks to the inode keeps;
* `bmap_spec` : `bmap` returns a block of the inode, adds at most blocks that were free, and keeps
  the contents of every file.
-/

namespace Xv6Container

open Function

namespace FsState

variable (s : FsState) (a : ℕ)

/-- The inode table as the call working on the cached inode `a` sees it. -/
def table : ℕ → Dinode := update s.dinode (s.icache a).inum (s.icache a).din

/-- The image that the call working on the cached inode `a` sees. -/
def image : Image := ⟨s.blk, s.table a⟩

/-- The places of the image own the used data blocks. -/
def Owns (im : Image) : Prop := Owned (im.ref s.sb.ninodes) s.used s.sb.datastart s.sb.size

/-- A call can work on the cached inode `a`. -/
structure Work : Prop where
  formatted : s.Formatted
  owns : s.Owns (s.image a)
  live : (s.image a).Live s.sb.ninodes (s.icache a).inum

variable {s a} {s' s'' : FsState} {b i k : ℕ}

theorem table_self : s.table a (s.icache a).inum = (s.icache a).din := by simp [table]

theorem table_of_ne (h : i ≠ (s.icache a).inum) : s.table a i = s.dinode i := by simp [table, h]

/-! ### Writes to data blocks -/

section

variable (hf : s.Formatted)

include hf

theorem Formatted.iblock_lt (hi : i < s.sb.ninodes) : s.sb.iblock i < s.sb.datastart :=
  lt_of_lt_of_le (hf.sb.bmap i hi) hf.sb.free

theorem Formatted.iblock_ne_bblock (hi : i < s.sb.ninodes) : s.sb.iblock i ≠ s.sb.bblock b := by
  have h1 := hf.sb.bmap i hi
  have h2 := s.sb.bmapstart_le_bblock b
  omega

theorem Formatted.used_setBlk (hb : s.sb.datastart ≤ b) {f : Block} {c : ℕ} (hc : c < s.sb.size) :
    (s.setBlk b f).used c = s.used c := by
  have := hf.sb.data c hc
  exact used_congr rfl (update_of_ne (by omega) _ _)

theorem Formatted.dinode_setBlk (hb : s.sb.datastart ≤ b) {f : Block} (hi : i < s.sb.ninodes) :
    (s.setBlk b f).dinode i = s.dinode i := by
  have := hf.iblock_lt hi
  exact dinode_congr rfl (update_of_ne (by omega) _ _)

theorem Formatted.setBlk (hb : s.sb.datastart ≤ b) (f : Block) : (s.setBlk b f).Formatted :=
  ⟨hf.sb, fun c hc => (hf.used_setBlk hb (lt_of_lt_of_le hc (Nat.sub_le _ _))).trans
    (hf.reserved c hc)⟩

theorem Formatted.dinode_allocated (hb : s.sb.datastart ≤ b) (hi : i < s.sb.ninodes) :
    (s.allocated b).dinode i = s.dinode i := by
  have := hf.iblock_lt hi
  exact dinode_congr rfl (blk_allocated_of_ne (by omega) (hf.iblock_ne_bblock hi))

end

/-! ### Writing and adding blocks -/

/-- `s'` is `s` after a call has written within `[lo, hi)` of the content of the cached inode `a`:
the places that held a block still hold it, and all other bytes of the blocks of all files are as
before. -/
structure Writes (a lo hi : ℕ) (s s' : FsState) : Prop where
  sb : s'.sb = s.sb
  work : s'.Work a
  dinode : ∀ i < s.sb.ninodes, s'.dinode i = s.dinode i
  icache : ∃ addrs, s'.icache = update s.icache a
    { s.icache a with din := { (s.icache a).din with addrs := addrs } }
  ref : ∀ p, (s.image a).ref s.sb.ninodes p ≠ 0 →
    (s'.image a).ref s.sb.ninodes p = (s.image a).ref s.sb.ninodes p
  byte : ∀ i k o, (s.image a).ref s.sb.ninodes (place i k) ≠ 0 → o < BSIZE →
    (i = (s.icache a).inum → k * BSIZE + o < lo ∨ hi ≤ k * BSIZE + o) →
    s'.blk ((s.image a).ref s.sb.ninodes (place i k)) o =
      s.blk ((s.image a).ref s.sb.ninodes (place i k)) o

variable {lo hi : ℕ}

theorem Writes.inum (h : Writes a lo hi s s') : (s'.icache a).inum = (s.icache a).inum := by
  obtain ⟨u, hu⟩ := h.icache
  simp [hu]

theorem Writes.trans (h : Writes a lo hi s s') (h' : Writes a lo hi s' s'') :
    Writes a lo hi s s'' where
  sb := h'.sb.trans h.sb
  work := h'.work
  dinode i hi := (h'.dinode i (h.sb ▸ hi)).trans (h.dinode i hi)
  icache := by
    obtain ⟨u, hu⟩ := h.icache
    obtain ⟨v, hv⟩ := h'.icache
    exact ⟨v, by rw [hv, hu]; simp⟩
  ref p hp := by
    have h1 := h.ref p hp
    have h2 := h'.ref p (by rw [h.sb, h1]; exact hp)
    rw [h.sb] at h2
    exact h2.trans h1
  byte i k o hp ho hout := by
    have h1 := h.ref (place i k) hp
    have h2 := h'.byte i k o (by rw [h.sb, h1]; exact hp) ho (by rw [h.inum]; exact hout)
    rw [h.sb, h1] at h2
    exact h2.trans (h.byte i k o hp ho hout)

/-- A call has added blocks to the cached inode `a`, and the blocks of all files have their
contents. -/
abbrev Grows (a : ℕ) (s s' : FsState) : Prop := Writes a 0 0 s s'

theorem Grows.refl (hw : s.Work a) : Grows a s s where
  sb := rfl
  work := hw
  dinode _ _ := rfl
  icache := ⟨(s.icache a).din.addrs, by simp⟩
  ref _ _ := rfl
  byte _ _ _ _ _ _ := rfl

theorem Grows.writes (h : Grows a s s') (lo hi : ℕ) : Writes a lo hi s s' :=
  ⟨h.sb, h.work, h.dinode, h.icache, h.ref, fun i k o hp ho _ =>
    h.byte i k o hp ho fun _ => .inr (Nat.zero_le _)⟩

theorem Work.blk_allocated (hw : s.Work a) (hb : s.freeBlock = some b) {p : Place}
    (hp : (s.image a).ref s.sb.ninodes p ≠ 0) :
    (s.allocated b).blk ((s.image a).ref s.sb.ninodes p) =
      s.blk ((s.image a).ref s.sb.ninodes p) := by
  obtain ⟨hlo, hhi, hu⟩ := hw.owns.mem hp
  obtain ⟨hlt, hfree⟩ := freeBlock_eq_some hb
  have hdata := hw.formatted.sb.data b hlt
  refine blk_allocated_of_ne (fun e => ?_) (by omega)
  rw [e, hfree] at hu
  cases hu

theorem Work.grow (hw : s.Work a) (hb : s.freeBlock = some b) (hsb : s'.sb = s.sb)
    (hused : ∀ c < s.sb.size, s'.used c = (s.allocated b).used c)
    (hdin : ∀ i < s.sb.ninodes, s'.dinode i = s.dinode i)
    (hic : ∃ addrs, s'.icache = update s.icache a
      { s.icache a with din := { (s.icache a).din with addrs := addrs } })
    {p : Place} (hp : (s.image a).ref s.sb.ninodes p = 0)
    (href : (s'.image a).ref s.sb.ninodes p = b ∧
      ∀ q, q ≠ p → (s'.image a).ref s.sb.ninodes q = (s.image a).ref s.sb.ninodes q)
    (hblk : ∀ i k, (s.image a).ref s.sb.ninodes (place i k) ≠ 0 →
      s'.blk ((s.image a).ref s.sb.ninodes (place i k)) =
        s.blk ((s.image a).ref s.sb.ninodes (place i k))) : Grows a s s' := by
  have hlow := hw.formatted.le_freeBlock hb
  obtain ⟨hlt, hu⟩ := freeBlock_eq_some hb
  have hbits : ∀ c < s.sb.size, s'.used c = (decide (c = b) || s.used c) := fun c hc =>
    (hused c hc).trans (hw.formatted.used_allocated hlow hc)
  refine ⟨hsb, ⟨⟨hsb ▸ hw.formatted.sb, fun c hc => ?_⟩, ?_, ?_⟩, hdin, hic, fun q hq => ?_,
    fun i k o hp _ _ => congrFun (hblk i k hp) o⟩
  · rw [hsb] at hc
    rw [hbits c (lt_of_lt_of_le hc (Nat.sub_le _ _)), hw.formatted.reserved c hc, Bool.or_true]
  · unfold Owns
    rw [hsb]
    exact hw.owns.alloc hlow hlt hu hp href.1 href.2 fun c _ hc => hbits c hc
  · obtain ⟨addrs, hic⟩ := hic
    obtain ⟨hi, ht⟩ := hw.live
    simp only [Image.Live, image, table_self] at ht ⊢
    rw [hic, hsb]
    simpa using ⟨hi, ht⟩
  · exact href.2 q fun e => hq (e ▸ hp)

end FsState

variable {s s' : FsState} {a b bn i : ℕ}

theorem toNat_ofNat_block (hf : s.Formatted) (hb : b < s.sb.size) :
    (UInt32.ofNat b).toNat = b := by
  exact UInt32.toNat_ofNat_of_lt' (lt_trans hb hf.sb.size)

/-- The cached inode `a` with block `b` in `addrs[k]`. -/
def FsState.setAddrs (s : FsState) (a : ℕ) (k : Fin (NDIRECT + 1)) (b : ℕ) : FsState :=
  s.modifyInode a fun ip =>
    { ip with din := { ip.din with addrs := update ip.din.addrs k (UInt32.ofNat b) } }

theorem returns_bmapAddr {k : Fin (NDIRECT + 1)} (h : Returns (bmapAddr a k) s b s') :
    ((s.icache a).din.addrs k = 0 ∧ ∃ t, Returns balloc s b t ∧ t.setAddrs a k b = s') ∨
    ((s.icache a).din.addrs k ≠ 0 ∧ ((s.icache a).din.addrs k).toNat = b ∧ s = s') := by
  rw [bmapAddr, returns_inode_bind] at h
  split at h
  · rename_i h0
    simp only [returns_bind, returns_setDin, returns_pure] at h
    obtain ⟨b, t, hb, _, _, rfl, rfl, rfl⟩ := h
    exact .inl ⟨h0, t, hb, rfl⟩
  · rename_i h0
    exact .inr ⟨h0, returns_pure.1 h⟩

/-- `bmapAddr` returns the block in `addrs[k]`. -/
theorem bmapAddr_spec {k : Fin (NDIRECT + 1)} (hw : s.Work a) (h : Returns (bmapAddr a k) s b s') :
    s.Grows a s' ∧ b ≠ 0 ∧ (s'.image a).addr (s.icache a).inum k = b ∧
      ∀ p, p ≠ .addr (s.icache a).inum k →
        (s'.image a).ref s.sb.ninodes p = (s.image a).ref s.sb.ninodes p := by
  obtain ⟨h0, t, hb, rfl⟩ | ⟨h0, rfl, rfl⟩ := returns_bmapAddr h
  · obtain ⟨-, hfree, l₁, l, -, -, rfl⟩ := returns_balloc.1 hb
    have hlow := hw.formatted.le_freeBlock hfree
    obtain ⟨hlt, hu⟩ := FsState.freeBlock_eq_some hfree
    have hnat := toNat_ofNat_block hw.formatted hlt
    obtain ⟨s', hs'⟩ : ∃ s', s' = ((s.allocated b).setLog l).setAddrs a k b := ⟨_, rfl⟩
    rw [← hs']
    have hsb : s'.sb = s.sb := by rw [hs']; rfl
    have hblk : s'.blk = (s.allocated b).blk := by rw [hs']; rfl
    have hic : s'.icache = update s.icache a { s.icache a with din :=
        { (s.icache a).din with
          addrs := update (s.icache a).din.addrs k (UInt32.ofNat b) } } := by
      rw [hs']; rfl
    have hdin : ∀ j < s.sb.ninodes, s'.dinode j = s.dinode j := fun j hj => by
      rw [← hw.formatted.dinode_allocated hlow hj]
      exact FsState.dinode_congr hsb (by rw [hblk])
    have href : (s'.image a).ref s.sb.ninodes (.addr (s.icache a).inum k) = (UInt32.ofNat b).toNat ∧
        ∀ p, p ≠ .addr (s.icache a).inum k →
          (s'.image a).ref s.sb.ninodes p = (s.image a).ref s.sb.ninodes p := by
      refine Image.ref_setAddr hw.live (fun j hj hji => ?_) ?_ (fun j hj hj0 => ?_) fun hk => ?_
      · simp only [FsState.image]
        rw [FsState.table_of_ne hji, FsState.table_of_ne (by simpa [hic] using hji), hdin j hj]
      · simp [FsState.image, FsState.table, hic]
      · have := hw.blk_allocated hfree (p := .addr j indirect) (by rwa [Image.ref_indirect hj])
        rw [Image.ref_indirect hj] at this
        exact (congrFun hblk _).trans this
      · subst hk
        refine ⟨?_, ?_⟩
        · simp [FsState.image, Image.addr, FsState.table_self, h0]
        · rw [hnat]
          exact (congrFun hblk b).trans FsState.blk_allocated_self
    rw [hnat] at href
    refine ⟨hw.grow hfree hsb (fun c _ => ?_) hdin ⟨_, hic⟩ ?_ href fun i k hp => ?_, ?_, ?_,
      href.2⟩
    · exact FsState.used_congr hsb (by rw [hblk])
    · simp [Image.ref, Image.addr, FsState.image, FsState.table_self, h0]
    · exact (congrFun hblk _).trans (hw.blk_allocated hfree hp)
    · have := hw.owns.pos
      omega
    · simp [FsState.image, Image.addr, FsState.table, hic, hnat]
  · refine ⟨.refl hw, fun e => h0 ?_, ?_, fun _ _ => rfl⟩
    · exact UInt32.toNat_inj.1 e
    · simp [FsState.image, Image.addr, FsState.table_self]

/-- Filling an empty entry of the indirect block. -/
theorem grows_setEntry (s' : FsState) {j addr : ℕ} (hw : s.Work a) (hj : j < NINDIRECT)
    (h0 : addr ≠ 0) (haddr : (s.image a).addr (s.icache a).inum indirect = addr)
    (hempty : getAddr (s.blk addr) j = 0) (hfree : s.freeBlock = some b) (hsb : s'.sb = s.sb)
    (hic : s'.icache = s.icache)
    (hblk : s'.blk = update (s.allocated b).blk addr
      (setAddr ((s.allocated b).blk addr) j (UInt32.ofNat b))) :
    s.Grows a s' ∧ (s'.image a).entry (s.icache a).inum j = b ∧
      ∀ p, p ≠ .entry (s.icache a).inum j →
        (s'.image a).ref s.sb.ninodes p = (s.image a).ref s.sb.ninodes p := by
  have hlow := hw.formatted.le_freeBlock hfree
  obtain ⟨hlt, hu⟩ := FsState.freeBlock_eq_some hfree
  have hnat := toNat_ofNat_block hw.formatted hlt
  have hind := Image.ref_indirect hw.live
  rw [haddr] at hind
  obtain ⟨haddr_low, haddr_lt, -⟩ := hw.owns.mem (p := .addr (s.icache a).inum indirect)
    (by rwa [hind])
  rw [hind] at haddr_low haddr_lt
  -- a place other than `addrs[NDIRECT]` of this inode holds another block than the indirect one
  have hother : ∀ p, (s.image a).ref s.sb.ninodes p ≠ 0 → p ≠ .addr (s.icache a).inum indirect →
      s'.blk ((s.image a).ref s.sb.ninodes p) = s.blk ((s.image a).ref s.sb.ninodes p) := by
    intro p hp hne
    have : (s.image a).ref s.sb.ninodes p ≠ addr := fun e =>
      hne (hw.owns.inj hp (e.trans hind.symm))
    rw [hblk, update_of_ne this]
    exact hw.blk_allocated hfree hp
  have hkeep : (s.allocated b).blk addr = s.blk addr := by
    have := hw.blk_allocated hfree (p := .addr (s.icache a).inum indirect) (by rwa [hind])
    rwa [hind] at this
  have hdin : ∀ i < s.sb.ninodes, s'.dinode i = s.dinode i := fun i hi => by
    rw [← hw.formatted.dinode_allocated hlow hi]
    have hne : s.sb.iblock i ≠ addr := by
      have := hw.formatted.iblock_lt hi
      omega
    exact FsState.dinode_congr hsb (by rw [hblk]; exact update_of_ne hne _ _)
  have href : (s'.image a).ref s.sb.ninodes (.entry (s.icache a).inum j) = (UInt32.ofNat b).toNat ∧
      ∀ p, p ≠ .entry (s.icache a).inum j →
        (s'.image a).ref s.sb.ninodes p = (s.image a).ref s.sb.ninodes p := by
    refine Image.ref_setEntry hw.live hj (fun i hi => ?_) (by rwa [haddr]) ?_ fun i hi hne hi0 => ?_
    · simp only [FsState.image, FsState.table, hic]
      by_cases hii : i = (s.icache a).inum
      · subst hii; simp
      · simp [hii, hdin i hi]
    · rw [haddr]
      change s'.blk addr = setAddr (s.blk addr) j _
      rw [hblk, update_self, hkeep]
    · have := hother (.addr i indirect) (by rwa [Image.ref_indirect hi]) (by simpa using hne)
      rwa [Image.ref_indirect hi] at this
  rw [hnat] at href
  refine ⟨hw.grow hfree hsb (fun c hc => ?_) hdin
    ⟨(s.icache a).din.addrs, hic.trans (by simp)⟩ ?_ href
    fun i k hp => hother _ hp place_ne_indirect, ?_, href.2⟩
  · have hne : s.sb.bblock c ≠ addr := by
      have := hw.formatted.sb.data c hc
      omega
    exact FsState.used_congr hsb (by rw [hblk]; exact update_of_ne hne _ _)
  · have : (s.image a).entry (s.icache a).inum j = 0 := by
      rw [Image.entry, haddr, if_neg h0]
      exact congrArg UInt32.toNat hempty
    simp [Image.ref, this]
  · have := href.1
    simp only [Image.ref] at this
    split at this
    · exact this
    · have := hw.owns.pos
      omega

theorem returns_bmap (h : Returns (bmap a bn) s b s') :
    (∃ hbn : bn < NDIRECT, Returns (bmapAddr a ⟨bn, Nat.lt_add_one_of_lt hbn⟩) s b s') ∨
    ¬ bn < NDIRECT ∧ bn - NDIRECT < NINDIRECT ∧ ∃ addr s₁, Returns (bmapAddr a indirect) s addr s₁ ∧
      ((getAddr (s₁.blk addr) (bn - NDIRECT) = 0 ∧ ∃ s₂ l, Returns balloc s₁ b s₂ ∧
          s₂.store.log.logWrite addr = .ok l ∧
          (s₂.setBlk addr
            (setAddr (s₂.blk addr) (bn - NDIRECT) (UInt32.ofNat b))).setLog l = s') ∨
        (getAddr (s₁.blk addr) (bn - NDIRECT) ≠ 0 ∧
          (getAddr (s₁.blk addr) (bn - NDIRECT)).toNat = b ∧ s₁ = s')) := by
  unfold bmap at h
  split at h
  · rename_i hbn
    exact .inl ⟨hbn, h⟩
  · rename_i hbn
    split at h
    · rename_i hj
      simp only [returns_bind, returns_bread] at h
      obtain ⟨addr, s₁, h1, _, _, ⟨rfl, rfl⟩, h⟩ := h
      refine .inr ⟨hbn, hj, addr, s₁, h1, ?_⟩
      split at h
      · rename_i hempty
        simp only [returns_bind, returns_bread, returns_setBuf, returns_logWrite, returns_pure] at h
        obtain ⟨b, s₂, hb, _, _, ⟨rfl, rfl⟩, _, _, rfl, _, _, ⟨l, hl, rfl⟩, rfl, rfl⟩ := h
        exact .inl ⟨hempty, s₂, l, hb, hl, rfl⟩
      · rename_i hfull
        exact .inr ⟨hfull, returns_pure.1 h⟩
    · exact absurd h not_returns_throw

/-- **`bmap`** returns a block of the inode.  It keeps the places that hold a block and the
contents of all files. -/
theorem bmap_spec (hw : s.Work a) (h : Returns (bmap a bn) s b s') :
    bn < MAXFILE ∧ s.Grows a s' ∧ b ≠ 0 ∧ (s'.image a).block (s.icache a).inum bn = b ∧
      ∀ p, p ≠ place (s.icache a).inum bn → p ≠ .addr (s.icache a).inum indirect →
        (s'.image a).ref s.sb.ninodes p = (s.image a).ref s.sb.ninodes p := by
  obtain ⟨hbn, h⟩ | ⟨hbn, hj, addr, s₁, h1, h⟩ := returns_bmap h
  · obtain ⟨hg, hb, ha, hother⟩ := bmapAddr_spec hw h
    refine ⟨by unfold MAXFILE; omega, hg, hb, ?_, fun p hp _ => hother p ?_⟩
    · rw [Image.block, dif_pos hbn, ha]
    · rwa [place, dif_pos hbn] at hp
  · obtain ⟨hg, h0, ha, hother⟩ := bmapAddr_spec hw h1
    have hw1 := hg.work
    rw [← hg.inum] at ha hother ⊢
    refine ⟨by unfold MAXFILE at *; omega, ?_⟩
    obtain ⟨hempty, t, l, hb, -, rfl⟩ | ⟨hfull, rfl, rfl⟩ := h
    · obtain ⟨-, hfree, l₁, l₂, -, -, rfl⟩ := returns_balloc.1 hb
      obtain ⟨hg2, hb2, hother2⟩ := grows_setEntry
        ((((s₁.allocated b).setLog l₂).setBlk addr (setAddr ((s₁.allocated b).blk addr)
          (bn - NDIRECT) (UInt32.ofNat b))).setLog l) hw1 hj h0 ha hempty hfree rfl rfl rfl
      rw [hg.sb] at hother2
      refine ⟨hg.trans hg2, ?_, ?_, fun p hp hp' => (hother2 p ?_).trans (hother p hp')⟩
      · have := hw1.formatted.le_freeBlock hfree
        have := hw1.owns.pos
        omega
      · rw [Image.block, dif_neg hbn]
        exact hb2
      · rwa [place, dif_neg hbn] at hp
    · refine ⟨hg, fun e => hfull (UInt32.toNat_inj.1 e), ?_, fun p _ hp => hother p hp⟩
      rw [Image.block, dif_neg hbn, Image.entry, if_neg (by rwa [ha]), ha]
      rfl

end Xv6Container
