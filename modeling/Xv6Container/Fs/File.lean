import Xv6Container.Fs.Content

/-!
# Well-formed file systems

`FsState.WellFormed` is the invariant of the file system between calls: the places of the disk image
own the used data blocks, files have no holes below their size, and the inode cache holds each inode
once and in agreement with the disk.

* `writei_spec` : `writei` keeps the file system well formed, changes the content of its inode as it
  should and no other file.
-/

namespace Xv6Container

open Function

namespace FsState

variable (s : FsState) (a : ℕ)

/-- The image on the disk. -/
def disk : Image := ⟨s.blk, s.dinode⟩

/-- The files of an image: they own the used data blocks, have all the blocks below their size, and
are not too long. -/
structure Files (im : Image) : Prop where
  owns : s.Owns im
  mapped : ∀ i, im.Live s.sb.ninodes i → ∀ k, k * BSIZE < im.size i → im.block i k ≠ 0
  size : ∀ i, im.Live s.sb.ninodes i → im.size i ≤ MAXFILE * BSIZE

/-- The inode cache: an entry in use exists and holds an inode of the disk, no other entry in use
holds the same, and once it is valid it agrees with the disk, except for the entry `x` on which a
call is working. -/
structure Cached (x : Option ℕ) : Prop where
  ref : ∀ a, 0 ≤ (s.icache a).ref
  bound : ∀ a, 0 < (s.icache a).ref → a < NINODE
  dev : ∀ a, 0 < (s.icache a).ref → (s.icache a).dev = ROOTDEV
  inum : ∀ a, 0 < (s.icache a).ref → (s.icache a).inum < s.sb.ninodes
  unique : ∀ a b, 0 < (s.icache a).ref → 0 < (s.icache b).ref →
    (s.icache a).inum = (s.icache b).inum → a = b
  din : ∀ a, x ≠ some a → 0 < (s.icache a).ref → (s.icache a).valid = true →
    (s.icache a).din = s.dinode (s.icache a).inum
  type : ∀ a, 0 < (s.icache a).ref → (s.icache a).valid = true → (s.icache a).din.type ≠ 0

/-- A file system between two calls. -/
structure WellFormed : Prop where
  formatted : s.Formatted
  files : s.Files s.disk
  cached : s.Cached none

/-- Entry `a` of the inode cache is in use and read from disk. -/
def Held : Prop := 0 < (s.icache a).ref ∧ (s.icache a).valid = true

variable {s a} {s' : FsState} {b i k : ℕ}

section

variable (hs : s.WellFormed) (ha : s.Held a)

include hs ha

theorem WellFormed.table : s.table a = s.dinode := by
  rw [FsState.table, hs.cached.din a (by simp) ha.1 ha.2, update_eq_self]

theorem WellFormed.image : s.image a = s.disk := by
  rw [FsState.image, hs.table ha, disk]

theorem WellFormed.live : s.disk.Live s.sb.ninodes (s.icache a).inum := by
  refine ⟨hs.cached.inum a ha.1, ?_⟩
  have := hs.cached.type a ha.1 ha.2
  rwa [hs.cached.din a (by simp) ha.1 ha.2] at this

theorem WellFormed.work : s.Work a := by
  refine ⟨hs.formatted, ?_, ?_⟩ <;> rw [hs.image ha]
  · exact hs.files.owns
  · exact hs.live ha

end

/-! ### Writing an inode to disk -/

/-- The state with `d` as inode `i` on the disk. -/
def putInode (s : FsState) (i : ℕ) (d : Dinode) : FsState :=
  s.setBlk (s.sb.iblock i) (putDinode (s.blk (s.sb.iblock i)) (64 * (i % IPB)) d)

/-- The state after `iupdate` of the cached inode `a`, but for the log. -/
def flushed (s : FsState) (a : ℕ) : FsState := s.putInode (s.icache a).inum (s.icache a).din

theorem dinode_putInode (s : FsState) (i : ℕ) (d : Dinode) :
    (s.putInode i d).dinode = update s.dinode i d := by
  funext j
  unfold dinode putInode
  simp only [setBlk_blk, setBlk_sb]
  by_cases hb : s.sb.iblock j = s.sb.iblock i
  · rw [hb, update_self]
    by_cases hji : j = i
    · subst hji
      rw [getDinode_putDinode, update_self]
    · rw [update_of_ne hji, getDinode_putDinode_of_disjoint, ← hb]
      unfold Superblock.iblock IPB at *
      omega
  · have hji : j ≠ i := fun e => hb (by rw [e])
    rw [update_of_ne hb, update_of_ne hji]

theorem dinode_flushed : (s.flushed a).dinode = s.table a := dinode_putInode _ _ _

theorem Formatted.used_setMeta (hf : s.Formatted) (hi : i < s.sb.ninodes) {f : Block} {c : ℕ} :
    (s.setBlk (s.sb.iblock i) f).used c = s.used c :=
  used_congr rfl (update_of_ne (hf.iblock_ne_bblock hi).symm _ _)

theorem Formatted.setMeta (hf : s.Formatted) (hi : i < s.sb.ninodes) (f : Block) :
    (s.setBlk (s.sb.iblock i) f).Formatted :=
  ⟨hf.sb, fun c hc => (hf.used_setMeta hi).trans (hf.reserved c hc)⟩

theorem same_flushed (hf : s.Formatted) (ho : s.Owns (s.image a))
    (hi : (s.icache a).inum < s.sb.ninodes) :
    Image.Same s.sb.ninodes (s.image a) (s.flushed a).disk := by
  have hblk : ∀ b, s.sb.datastart ≤ b → (s.flushed a).blk b = s.blk b := fun b hb => by
    have := hf.iblock_lt hi
    exact update_of_ne (by omega) _ _
  have hdin : ∀ j, (s.flushed a).disk.din j = (s.image a).din j := congrFun dinode_flushed
  refine ⟨fun j _ => hdin j, Image.ref_congr (fun j _ => by rw [hdin j]; exact ⟨rfl, rfl⟩)
    fun j hj h0 => hblk _ ?_, fun j k h0 => hblk _ ?_⟩
  · have := (ho.mem (p := .addr j indirect) (by rwa [Image.ref_indirect hj])).1
    rwa [Image.ref_indirect hj] at this
  · exact (ho.mem h0).1

theorem Files.congr {im im' : Image} (h : s.Files im) (hsb : s'.sb = s.sb)
    (hsame : Image.Same s.sb.ninodes im im')
    (hu : ∀ c, s.sb.datastart ≤ c → c < s.sb.size → s'.used c = s.used c) : s'.Files im' := by
  refine ⟨?_, fun j hj k hk => ?_, fun j hj => ?_⟩
  · unfold Owns
    rw [hsb]
    exact h.owns.congr hsame.ref hu
  · rw [hsb, hsame.live] at hj
    rw [hsame.size hj] at hk
    have hmax := h.size j hj
    rw [hsame.block hj (by unfold BSIZE at *; omega)]
    exact h.mapped j hj k hk
  · rw [hsb, hsame.live] at hj
    rw [hsame.size hj]
    exact h.size j hj

theorem Files.setLog {im : Image} (h : s.Files im) (l : Log) : (s.setLog l).Files im :=
  ⟨h.owns, h.mapped, h.size⟩

theorem Files.modifyInode {im : Image} (h : s.Files im) (a : ℕ) (g : Inode → Inode) :
    (s.modifyInode a g).Files im :=
  ⟨h.owns, h.mapped, h.size⟩

theorem Cached.setLog {x : Option ℕ} (h : s.Cached x) (l : Log) : (s.setLog l).Cached x :=
  ⟨h.ref, h.bound, h.dev, h.inum, h.unique, h.din, h.type⟩

theorem WellFormed.setLog (h : s.WellFormed) (l : Log) : (s.setLog l).WellFormed :=
  ⟨h.formatted.setLog l, h.files.setLog l, h.cached.setLog l⟩

theorem Cached.but (h : s.Cached none) (a : ℕ) : s.Cached (some a) :=
  ⟨h.ref, h.bound, h.dev, h.inum, h.unique, fun b _ => h.din b (by simp), h.type⟩

theorem Cached.congr (h : s.Cached (some a)) (hsb : s'.sb = s.sb)
    (hdin : ∀ i < s.sb.ninodes, s'.dinode i = s.dinode i)
    {d : Dinode} (hic : s'.icache = update s.icache a { s.icache a with din := d })
    (htype : d.type = (s.icache a).din.type) : s'.Cached (some a) := by
  have hb : ∀ b, (s'.icache b).ref = (s.icache b).ref ∧ (s'.icache b).dev = (s.icache b).dev ∧
      (s'.icache b).inum = (s.icache b).inum ∧ (s'.icache b).valid = (s.icache b).valid ∧
      (s'.icache b).din.type = (s.icache b).din.type ∧
      (some a ≠ some b → (s'.icache b).din = (s.icache b).din) := fun b => by
    rw [hic]
    by_cases hba : b = a
    · subst hba; simp [htype]
    · simp [hba]
  refine ⟨fun b => ?_, fun b hr => ?_, fun b hr => ?_, fun b hr => ?_, fun b c hr hr' he => ?_,
    fun b hba hr hv => ?_, fun b hr hv => ?_⟩
  · rw [(hb b).1]; exact h.ref b
  · rw [(hb b).1] at hr; exact h.bound b hr
  · rw [(hb b).1] at hr; rw [(hb b).2.1]; exact h.dev b hr
  · rw [(hb b).1] at hr; rw [(hb b).2.2.1, hsb]; exact h.inum b hr
  · rw [(hb b).1] at hr
    rw [(hb c).1] at hr'
    rw [(hb b).2.2.1, (hb c).2.2.1] at he
    exact h.unique b c hr hr' he
  · obtain ⟨h1, -, h3, h4, -, h6⟩ := hb b
    rw [h1] at hr
    rw [h4] at hv
    rw [h6 hba, h3, hdin _ (h.inum b hr)]
    exact h.din b hba hr hv
  · obtain ⟨h1, -, -, h4, h5, -⟩ := hb b
    rw [h1] at hr
    rw [h4] at hv
    rw [h5]
    exact h.type b hr hv

theorem wellFormed_flushed (hf : s.Formatted) (hfiles : s.Files (s.image a))
    (hc : s.Cached (some a)) (ha : 0 < (s.icache a).ref) : (s.flushed a).WellFormed := by
  have hi := hc.inum a ha
  refine ⟨hf.setMeta hi _, hfiles.congr rfl (same_flushed hf hfiles.owns hi)
    fun c _ _ => hf.used_setMeta hi, ?_⟩
  refine ⟨hc.ref, hc.bound, hc.dev, hc.inum, hc.unique, fun b _ hr hv => ?_, hc.type⟩
  change (s.icache b).din = (s.flushed a).dinode (s.icache b).inum
  rw [dinode_flushed]
  by_cases hba : b = a
  · subst hba
    rw [table_self]
  · have hne : (s.icache b).inum ≠ (s.icache a).inum := fun e => hba (hc.unique b a hr ha e)
    rw [table_of_ne hne]
    exact hc.din b (by simpa using Ne.symm hba) hr hv

end FsState

variable {s s' : FsState} {a i off n : ℕ} {u : Unit}

theorem returns_iupdate :
    Returns (iupdate a) s u s' ↔ ∃ l, s.store.log.logWrite (s.sb.iblock (s.icache a).inum) = .ok l ∧
      (s.flushed a).setLog l = s' := by
  simp only [iupdate, returns_bind, returns_get, returns_setBuf, returns_logWrite]
  constructor
  · rintro ⟨_, _, ⟨rfl, rfl⟩, _, _, rfl, l, hl, rfl⟩
    exact ⟨l, hl, rfl⟩
  · rintro ⟨l, hl, rfl⟩
    exact ⟨s, s, ⟨rfl, rfl⟩, (), _, rfl, l, hl, rfl⟩

/-! ### `writei` -/

namespace FsState

variable {s₁ t : FsState} {hi e : ℕ} {sz : UInt32}

theorem image_setSize : FsState.image (s.modifyInode a fun ip =>
    { ip with din := { ip.din with size := sz } }) a = (s.image a).resize (s.icache a).inum sz := by
  simp [image, table, Image.resize]

/-- After the loop of `writei` the inode may be made as long as its mapped blocks reach. -/
theorem Writes.files (hwr : s.Writes a off hi s₁) (hf : s.Files (s.image a))
    (hoff : off ≤ (s.image a).size (s.icache a).inum) (he : e ≤ MAXFILE * BSIZE)
    (hmapped : ∀ p, off ≤ p → p < e → (s₁.image a).block (s.icache a).inum (p / BSIZE) ≠ 0)
    (hsz : sz.toNat = max ((s.image a).size (s.icache a).inum) e) :
    s₁.Files ((s₁.image a).resize (s.icache a).inum sz) := by
  have hsize : ∀ j, (s.image a).Live s.sb.ninodes j →
      ((s₁.image a).resize (s.icache a).inum sz).size j =
        if j = (s.icache a).inum then sz.toNat else (s.image a).size j := fun j hj => by
    rw [Image.resize_size]
    split
    · rfl
    · obtain ⟨u, hu⟩ := hwr.din hj.1
      rw [Image.size, Image.size, hu]
  refine ⟨hwr.work.owns.congr Image.resize_ref fun _ _ _ => rfl, fun j hj k hk => ?_,
    fun j hj => ?_⟩
  · rw [Image.resize_live, hwr.sb, hwr.live] at hj
    rw [Image.resize_block]
    rw [hsize j hj] at hk
    have hmax := hf.size j hj
    have hold : k * BSIZE < (s.image a).size j → (s₁.image a).block j k ≠ 0 := fun hlt => by
      rw [hwr.block hj (by unfold BSIZE at *; omega) (hf.mapped j hj k hlt)]
      exact hf.mapped j hj k hlt
    split at hk
    · rename_i hji
      subst hji
      rw [hsz] at hk
      by_cases hlt : k * BSIZE < (s.image a).size (s.icache a).inum
      · exact hold hlt
      · have := hmapped (k * BSIZE) (by omega) (by omega)
        rwa [Nat.mul_div_cancel _ (by decide)] at this
    · exact hold hk
  · rw [Image.resize_live, hwr.sb, hwr.live] at hj
    rw [hsize j hj]
    have := hf.size j hj
    split
    · rename_i hji
      subst hji
      omega
    · exact this

/-- `s'` is `s` after `writei` has stored the bytes of `src` from `off` to `e`, out of `n`, in the
content of the cached inode `a`. -/
structure Wrote (a off n e : ℕ) (src : ℕ → Option UInt8) (s s' : FsState) : Prop where
  wf : s'.WellFormed
  sb : s'.sb = s.sb
  icache : ∃ addrs sz, s'.icache = update s.icache a
    { s.icache a with din := { (s.icache a).din with size := sz, addrs := addrs } }
  dinode : ∀ j < s.sb.ninodes, j ≠ (s.icache a).inum → s'.dinode j = s.dinode j
  le : off ≤ e ∧ e ≤ off + n
  size : s'.disk.size (s.icache a).inum = max (s.disk.size (s.icache a).inum) e
  other : ∀ j p, s.disk.Live s.sb.ninodes j → p < s.disk.size j →
    (j = (s.icache a).inum → p < off ∨ off + n ≤ p) → s'.disk.content j p = s.disk.content j p
  stored : ∀ j, off + j < e → src j = some (s'.disk.content (s.icache a).inum (off + j))
  whole : e < off + n → ∃ j < n, src j = none

theorem Wrote.refl (hs : s.WellFormed) (hoff : off ≤ s.disk.size (s.icache a).inum)
    (src : ℕ → Option UInt8) : Wrote a off 0 off src s s where
  wf := hs
  sb := rfl
  icache := ⟨(s.icache a).din.addrs, (s.icache a).din.size, by simp⟩
  dinode _ _ _ := rfl
  le := ⟨le_rfl, le_rfl⟩
  size := (max_eq_left hoff).symm
  other _ _ _ _ _ := rfl
  stored _ hj := by omega
  whole he := by omega

/-- The end of `writei`: the size is set if the file has grown, and the inode is written. -/
theorem Writes.wrote {src : ℕ → Option UInt8} {l : Log} (hs : s.WellFormed) (ha : s.Held a)
    (hwr : s.Writes a off (off + n) s₁) (hoff : off ≤ s.disk.size (s.icache a).inum)
    (hle : off ≤ e ∧ e ≤ off + n) (he : e ≤ MAXFILE * BSIZE)
    (hmapped : ∀ p, off ≤ p → p < e → (s₁.image a).block (s.icache a).inum (p / BSIZE) ≠ 0)
    (hstored : ∀ j, off + j < e →
      src j = some ((s₁.image a).content (s.icache a).inum (off + j)))
    (hwhole : e < off + n → ∃ j < n, src j = none)
    (hsz : sz.toNat = max (s.disk.size (s.icache a).inum) e)
    (ht : t = s₁.modifyInode a fun ip => { ip with din := { ip.din with size := sz } }) :
    Wrote a off n e src s ((t.flushed a).setLog l) := by
  have him := hs.image ha
  have hti : t.image a = (s₁.image a).resize (s.icache a).inum sz := by
    rw [ht, image_setSize, hwr.inum]
  have hinum : (t.icache a).inum = (s.icache a).inum := by rw [ht]; simpa using hwr.inum
  have hsb : t.sb = s.sb := by rw [ht]; exact hwr.sb
  have hfmt : t.Formatted := by rw [ht]; exact hwr.work.formatted.modifyInode _ _
  have hfiles : t.Files (t.image a) := by
    rw [hti, ht]
    exact (hwr.files (him ▸ hs.files) (by rwa [him]) he hmapped (by rwa [him])).modifyInode _ _
  obtain ⟨addrs, hic⟩ : ∃ addrs, t.icache = update s.icache a
      { s.icache a with din := { (s.icache a).din with size := sz, addrs := addrs } } := by
    obtain ⟨u, hu⟩ := hwr.icache
    exact ⟨u, by rw [ht, modifyInode_icache, hu]; simp⟩
  have hdin : ∀ j < s.sb.ninodes, t.dinode j = s.dinode j := fun j hj => by
    rw [ht]
    exact hwr.dinode j hj
  have hcached : t.Cached (some a) := (hs.cached.but a).congr hsb hdin hic rfl
  have hi : (t.icache a).inum < t.sb.ninodes := by
    rw [hinum, hsb]
    exact hs.cached.inum a ha.1
  have hsame := same_flushed hfmt hfiles.owns hi
  rw [hsb, hti] at hsame
  have hlive : ∀ j, ((s₁.image a).resize (s.icache a).inum sz).Live s.sb.ninodes j ↔
      s.disk.Live s.sb.ninodes j := fun j => by rw [Image.resize_live, hwr.live, him]
  -- the content on the disk is what the loop left behind
  have hcontent : ∀ j p, s.disk.Live s.sb.ninodes j → p < MAXFILE * BSIZE →
      (s₁.image a).block j (p / BSIZE) ≠ 0 →
      (t.flushed a).disk.content j p = (s₁.image a).content j p := fun j p hj hp h0 => by
    rw [hsame.content ((hlive j).2 hj) hp (by rwa [Image.resize_block]), Image.resize_content]
  refine ⟨(wellFormed_flushed hfmt hfiles hcached (by rw [hic]; simpa using ha.1)).setLog l, hsb,
    ⟨addrs, sz, hic⟩, fun j hj hne => ?_, hle, ?_, fun j p hj hp hout => ?_, fun j hj => ?_, hwhole⟩
  · rw [setLog_dinode, dinode_flushed, table_of_ne (by rwa [hinum]), hdin j hj]
  · have := hsame.size ((hlive _).2 (hs.live ha))
    rw [Image.resize_size, if_pos rfl, hsz] at this
    exact this
  · have hmax := hs.files.size j hj
    have h0 := hs.files.mapped j hj (p / BSIZE) (by unfold BSIZE at *; omega)
    have hp' : p < MAXFILE * BSIZE := by omega
    have hk : p / BSIZE < MAXFILE := by unfold BSIZE at *; omega
    rw [← him] at h0 hj ⊢
    have hb := hwr.block hj hk h0
    exact (hcontent j p (him ▸ hj) hp' (by rwa [hb])).trans (hwr.content hj hp' h0 hout)
  · rw [hstored j hj]
    exact congrArg some
      (hcontent _ _ (hs.live ha) (by omega) (hmapped _ (by omega) hj)).symm

end FsState

/-- `writei` accepts the range. -/
def Fits (s : FsState) (i off n : ℕ) : Prop := off ≤ s.disk.size i ∧ off + n ≤ MAXFILE * BSIZE

theorem writei_refused {src : ℕ → Option UInt8} (hoff : off < 2 ^ 32) (hn : n < 2 ^ 32)
    (h : ¬ Fits s (s.icache a).inum off n) (hs : s.WellFormed) (ha : s.Held a) :
    Returns (writei a src off n) s (-1) s := by
  have hsize : s.disk.size (s.icache a).inum = (s.icache a).din.size.toNat := by
    rw [← hs.image ha, size_image]
  simp only [writei, returns_bind, returns_inode]
  refine ⟨_, s, ⟨rfl, rfl⟩, ?_⟩
  split
  · exact returns_pure.2 ⟨rfl, rfl⟩
  · rename_i h1
    rw [wraps_iff hoff hn] at h1
    push Not at h1
    rw [if_pos]
    · exact returns_pure.2 ⟨rfl, rfl⟩
    · unfold Fits at h
      rw [hsize] at h
      rw [Nat.mod_eq_of_lt h1.2]
      omega

/-- **`writei`** keeps the file system well formed.  It returns -1 and changes nothing when the
range does not fit; otherwise it returns `n` and stores the bytes of its source up to a piece that
has an unmapped byte. -/
theorem writei_spec {src : ℕ → Option UInt8} {r : ℤ} (hs : s.WellFormed) (ha : s.Held a)
    (hoff : off < 2 ^ 32) (hn : n < 2 ^ 32) (h : Returns (writei a src off n) s r s') :
    (¬ Fits s (s.icache a).inum off n ∧ r = -1 ∧ s' = s) ∨
    (Fits s (s.icache a).inum off n ∧ r = n ∧ ∃ e, s.Wrote a off n e src s') := by
  by_cases hfits : Fits s (s.icache a).inum off n
  · refine .inr ⟨hfits, ?_⟩
    obtain ⟨hle, hmax⟩ := hfits
    have hsize : s.disk.size (s.icache a).inum = (s.icache a).din.size.toNat := by
      rw [← hs.image ha, size_image]
    have hlt : off + n < 2 ^ 32 := by unfold MAXFILE BSIZE NDIRECT NINDIRECT at hmax; omega
    rw [hsize] at hle
    rw [writei, returns_inode_bind] at h
    rw [if_neg (by omega), if_neg (by rw [Nat.mod_eq_of_lt hlt]; omega)] at h
    simp only [returns_bind] at h
    obtain ⟨e, s₁, hloop, h⟩ := h
    obtain ⟨he1, he2, hwr, hmapped, hstored, hwhole⟩ := writeiLoop_spec (hs.work ha) le_rfl hloop
    simp only [Nat.zero_add] at hstored hwhole
    split at h
    · rename_i hpos
      rw [returns_inode_bind] at h
      have hsz1 : (s₁.icache a).din.size = (s.icache a).din.size := by
        obtain ⟨u, hu⟩ := hwr.icache
        simp [hu]
      have hend : ∀ (sz : UInt32) (l : Log) (t : FsState),
          sz.toNat = max (s.disk.size (s.icache a).inum) e →
          (t = s₁.modifyInode a fun ip => { ip with din := { ip.din with size := sz } }) →
          s.Wrote a off n e src ((t.flushed a).setLog l) := fun sz l t hsz ht =>
        hwr.wrote hs ha (by rwa [hsize]) ⟨he1, he2⟩ (by omega)
          (fun p hp hp' => (hmapped p hp hp').2) hstored hwhole hsz ht
      split at h
      · rename_i hgrow
        simp only [returns_bind, returns_setDin, returns_iupdate, returns_pure] at h
        obtain ⟨_, _, rfl, _, _, ⟨l, -, rfl⟩, rfl, rfl⟩ := h
        refine ⟨rfl, e, hend (UInt32.ofNat e) l _ ?_ rfl⟩
        rw [hsz1] at hgrow
        have he : e < 2 ^ 32 := by omega
        rw [hsize, UInt32.toNat_ofNat_of_lt' he]
        omega
      · rename_i hkeep
        simp only [returns_bind, returns_iupdate, returns_pure] at h
        obtain ⟨_, _, ⟨l, -, rfl⟩, rfl, rfl⟩ := h
        refine ⟨rfl, e, hend (s.icache a).din.size l s₁ ?_ ?_⟩
        · rw [hsz1] at hkeep
          rw [hsize]
          omega
        · simp [FsState.modifyInode, ← hsz1]
    · rename_i hpos
      obtain rfl : n = 0 := by omega
      obtain ⟨rfl, rfl⟩ := returns_pure.1 hloop
      obtain ⟨rfl, rfl⟩ := returns_pure.1 h
      exact ⟨rfl, off, .refl hs (by rwa [hsize]) src⟩
  · obtain ⟨rfl, rfl⟩ := (writei_refused hoff hn hfits hs ha).unique h
    exact .inl ⟨hfits, rfl, rfl⟩

end Xv6Container
