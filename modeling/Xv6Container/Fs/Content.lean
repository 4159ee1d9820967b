import Xv6Container.Fs.Bmap

/-!
# The content of inodes

`readi` and `writei` walk over the blocks of an inode in pieces that do not cross block boundaries.

* `readi_spec` : `readi` returns bytes of the content and changes nothing;
* `writeiLoop_spec` : the loop of `writei` stores the bytes of its source, up to the first that is
  not mapped.
-/

namespace Xv6Container

open Function

variable {s s' s'' : FsState} {a b bn i off n fuel tot : ℕ}

/-! ### Copying -/

theorem copied_le (f : ℕ → Bool) (m : ℕ) : copied f m ≤ m := by
  induction m generalizing f with
  | zero => exact Nat.le_refl 0
  | succ m ih =>
    rw [copied]
    split
    · exact Nat.succ_le_succ (ih _)
    · exact Nat.zero_le _

variable {f dst : ℕ → Bool} {m : ℕ}

theorem mapped_of_lt_copied {j : ℕ} (h : j < copied f m) : f j = true := by
  induction m generalizing f j with
  | zero => exact absurd h (Nat.not_lt_zero j)
  | succ m ih =>
    rw [copied] at h
    split at h
    · rename_i h0
      cases j with
      | zero => exact h0
      | succ j => exact ih (f := fun i => f (i + 1)) (by omega)
    · omega

theorem not_mapped_copied (h : copied f m < m) : f (copied f m) = false := by
  induction m generalizing f with
  | zero => exact absurd h (Nat.not_lt_zero _)
  | succ m ih =>
    rw [copied] at h ⊢
    split
    · rename_i h0
      rw [if_pos h0] at h
      exact ih (f := fun i => f (i + 1)) (by omega)
    · rename_i h0
      simpa using h0

theorem copied_eq_of_forall (h : ∀ j < m, f j = true) : copied f m = m := by
  induction m generalizing f with
  | zero => rfl
  | succ m ih =>
    rw [copied, if_pos (h 0 (Nat.succ_pos m)), ih fun j hj => h (j + 1) (by omega)]

theorem copied_add (r : ℕ) (h : copied f m = m) :
    copied f (m + r) = m + copied (fun j => f (m + j)) r := by
  induction m generalizing f with
  | zero => simp
  | succ m ih =>
    rw [copied] at h
    split at h
    · rename_i h0
      rw [Nat.add_right_comm, copied, if_pos h0,
        ih (f := fun j => f (j + 1)) (by omega)]
      have : (fun j => f (m + j + 1)) = fun j => f (m + 1 + j) := by
        funext j
        congr 1
        omega
      rw [this]
      omega
    · omega

theorem copied_add_of_lt (r : ℕ) (h : copied f m < m) :
    copied f (m + r) = copied f m := by
  induction m generalizing f with
  | zero => omega
  | succ m ih =>
    rw [Nat.add_right_comm, copied, copied]
    rw [copied] at h
    split
    · rename_i h0
      rw [if_pos h0] at h
      rw [ih (by omega)]
    · rfl

/-! ### Reading -/

theorem returns_bmapAddr_of_ne {k : Fin (NDIRECT + 1)} (h : (s.icache a).din.addrs k ≠ 0) :
    Returns (bmapAddr a k) s ((s.icache a).din.addrs k).toNat s := by
  simp only [bmapAddr, returns_bind, returns_inode]
  exact ⟨_, _, ⟨rfl, rfl⟩, by rw [if_neg h]; exact returns_pure.2 ⟨rfl, rfl⟩⟩

theorem returns_bmap_of_ne (hbn : bn < MAXFILE)
    (h : (s.image a).block (s.icache a).inum bn ≠ 0) :
    Returns (bmap a bn) s ((s.image a).block (s.icache a).inum bn) s := by
  have haddr : ∀ k, (s.image a).addr (s.icache a).inum k = ((s.icache a).din.addrs k).toNat :=
    fun k => by simp [FsState.image, Image.addr, FsState.table_self]
  have hne : ∀ k, (s.image a).addr (s.icache a).inum k ≠ 0 → (s.icache a).din.addrs k ≠ 0 :=
    fun k h e => h (by rw [haddr, e]; rfl)
  unfold bmap
  rw [Image.block] at h ⊢
  split
  · rename_i hlt
    rw [dif_pos hlt] at h
    rw [haddr]
    exact returns_bmapAddr_of_ne (hne _ h)
  · rename_i hge
    rw [dif_neg hge, Image.entry] at h
    have hind : (s.image a).addr (s.icache a).inum indirect ≠ 0 := fun e => h (if_pos e)
    rw [if_neg hind] at h
    rw [if_pos (by unfold MAXFILE at hbn; omega), Image.entry, if_neg hind]
    simp only [returns_bind, returns_bread]
    refine ⟨_, s, returns_bmapAddr_of_ne (hne _ hind), _, s, ⟨rfl, rfl⟩, ?_⟩
    rw [haddr] at h ⊢
    have hget : getAddr (s.blk ((s.icache a).din.addrs indirect).toNat) (bn - NDIRECT) ≠ 0 :=
      fun e => h (congrArg UInt32.toNat e)
    rw [if_neg hget]
    exact returns_pure.2 ⟨rfl, rfl⟩

theorem content_piece (im : Image) {j : ℕ} (h : off % BSIZE + j < BSIZE) :
    im.blk (im.block i (off / BSIZE)) (off % BSIZE + j) = im.content i (off + j) := by
  unfold BSIZE at *
  have hdiv : (off + j) / 1024 = off / 1024 := by omega
  have hmod : (off + j) % 1024 = off % 1024 + j := by omega
  rw [Image.content, BSIZE, hdiv, hmod]

/-- The loop of `readi` returns the bytes of the content, up to the first whose destination is not
mapped. -/
theorem readiLoop_spec (hfuel : n ≤ fuel) (hmax : off + n ≤ MAXFILE * BSIZE)
    (hmapped : ∀ k, k * BSIZE < off + n → off / BSIZE ≤ k →
      (s.image a).block (s.icache a).inum k ≠ 0) :
    Returns (readiLoop a dst fuel tot off n) s
      ((List.range (copied (fun j => dst (tot + j)) n)).map fun j =>
        (s.image a).content (s.icache a).inum (off + j)) s := by
  induction fuel generalizing tot off n with
  | zero =>
    obtain rfl : n = 0 := by omega
    exact returns_pure.2 ⟨rfl, rfl⟩
  | succ fuel ih =>
    rw [readiLoop]
    split
    · rename_i h0
      subst h0
      exact returns_pure.2 ⟨rfl, rfl⟩
    · rename_i h0
      -- one round: `m` bytes that lie in one block
      obtain ⟨m, hm⟩ : ∃ m, m = min n (BSIZE - off % BSIZE) := ⟨_, rfl⟩
      have hpos : 0 < m ∧ m ≤ n ∧ off % BSIZE + m ≤ BSIZE := by
        unfold BSIZE at *; omega
      have hbn : off / BSIZE < MAXFILE := by unfold MAXFILE BSIZE NDIRECT NINDIRECT at *; omega
      have hblock := hmapped (off / BSIZE) (by unfold BSIZE; omega) le_rfl
      obtain ⟨r, rfl⟩ : ∃ r, n = m + r := ⟨n - m, by omega⟩
      have hpiece : (List.range (copied (fun j => dst (tot + j)) m)).map (fun j =>
          s.blk ((s.image a).block (s.icache a).inum (off / BSIZE)) (off % BSIZE + j)) =
          (List.range (copied (fun j => dst (tot + j)) m)).map fun j =>
            (s.image a).content (s.icache a).inum (off + j) := by
        refine List.map_congr_left fun j hj => ?_
        have := copied_le (fun j => dst (tot + j)) m
        have := List.mem_range.1 hj
        exact content_piece (s.image a) (by omega)
      simp only [returns_bind, returns_bread]
      refine ⟨_, s, returns_bmap_of_ne hbn hblock, _, s, ⟨rfl, rfl⟩, ?_⟩
      rw [← hm, hpiece]
      split
      · rename_i hlt
        rw [copied_add_of_lt r hlt]
        exact returns_pure.2 ⟨rfl, rfl⟩
      · rename_i hge
        have hcop := le_antisymm (copied_le (fun j => dst (tot + j)) m) (by omega)
        rw [copied_add r hcop, hcop]
        simp only [returns_bind, returns_pure]
        refine ⟨_, s, ih (by omega) (by omega) fun k hk hk' =>
          hmapped k (by omega) (le_trans (Nat.div_le_div_right (by omega)) hk'), ?_, rfl⟩
        rw [Nat.add_sub_cancel_left, List.range_add, List.map_append, List.map_map]
        congr 1
        have hshift : (fun j => dst (tot + m + j)) = fun j => dst (tot + (m + j)) := by
          funext j
          rw [Nat.add_assoc]
        rw [hshift]
        refine List.map_congr_left fun j _ => ?_
        simp [Nat.add_assoc]

theorem size_image : (s.image a).size (s.icache a).inum = (s.icache a).din.size.toNat := by
  simp [Image.size, FsState.image, FsState.table_self]

theorem wraps_iff (hoff : off < 2 ^ 32) (hn : n < 2 ^ 32) :
    (off + n) % 2 ^ 32 < off ↔ 2 ^ 32 ≤ off + n := by omega

theorem toInt32_of_lt (h : m < 2 ^ 31) : toInt32 m = m :=
  Int.bmod_eq_of_le (by omega) (by omega)

/-- **`readi`** outside the file, or with an offset that wraps, returns -1. -/
theorem readi_of_gt (hoff : off < 2 ^ 32) (hn : n < 2 ^ 32)
    (h : (s.image a).size (s.icache a).inum < off ∨ 2 ^ 32 ≤ off + n) :
    Returns (readi a dst off n) s (-1, []) s := by
  simp only [readi, returns_bind, returns_inode, wraps_iff hoff hn]
  rw [size_image] at h
  refine ⟨_, s, ⟨rfl, rfl⟩, ?_⟩
  rw [if_pos h]
  exact returns_pure.2 ⟨rfl, rfl⟩

/-- **`readi`** inside the file returns the number of bytes there are, and these bytes of the
content, up to the first whose destination is not mapped. -/
theorem readi_of_le (hoff : off ≤ (s.image a).size (s.icache a).inum)
    (hn : off + n < 2 ^ 32) (hsize : (s.image a).size (s.icache a).inum ≤ MAXFILE * BSIZE)
    (hmapped : ∀ k, k * BSIZE < (s.image a).size (s.icache a).inum →
      (s.image a).block (s.icache a).inum k ≠ 0)
    (hm : m = min n ((s.image a).size (s.icache a).inum - off)) :
    Returns (readi a dst off n) s
      (m, (List.range (copied dst m)).map fun j =>
        (s.image a).content (s.icache a).inum (off + j)) s := by
  simp only [readi, returns_bind, returns_inode]
  rw [size_image] at *
  refine ⟨_, s, ⟨rfl, rfl⟩, ?_⟩
  have hmin : (if (s.icache a).din.size.toNat < off + n then (s.icache a).din.size.toNat - off
      else n) = m := by
    split <;> omega
  rw [if_neg (by omega), Nat.mod_eq_of_lt hn, hmin]
  simp only [returns_bind, returns_pure]
  refine ⟨_, s, readiLoop_spec le_rfl (by omega) fun k hk _ => hmapped k (by omega), ?_, rfl⟩
  rw [toInt32_of_lt (by unfold MAXFILE BSIZE NDIRECT NINDIRECT at hsize; omega)]
  simp only [Nat.zero_add]

/-! ### Writing -/

namespace FsState

variable {lo hi lo' hi' : ℕ}

theorem Writes.mono (h : Writes a lo hi s s') (hlo : lo' ≤ lo) (hhi : hi ≤ hi') :
    Writes a lo' hi' s s' :=
  ⟨h.sb, h.work, h.dinode, h.icache, h.ref, fun i k o hp ho ho' =>
    h.byte i k o hp ho fun hi => by have := ho' hi; omega⟩

section

variable (hw : s.Work a) (hbn : bn < MAXFILE) (hb : (s.image a).block (s.icache a).inum bn = b)
  (h0 : b ≠ 0)

include hw hbn hb h0

theorem Work.ref_block :
    (s.image a).ref s.sb.ninodes (place (s.icache a).inum bn) = b ∧ s.sb.datastart ≤ b := by
  have href := (Image.ref_place hw.live hbn).trans hb
  obtain ⟨hlow, -, -⟩ := hw.owns.mem (p := place (s.icache a).inum bn) (by rwa [href])
  exact ⟨href, href ▸ hlow⟩

theorem Work.ref_setBlk (f : Block) (p : Place) :
    (FsState.image (s.setBlk b f) a).ref s.sb.ninodes p = (s.image a).ref s.sb.ninodes p := by
  obtain ⟨href, hlow⟩ := hw.ref_block hbn hb h0
  refine Image.ref_congr (fun i hi => ?_) (fun i hi hi0 => ?_) p
  · simp only [image, table, setBlk_icache]
    by_cases hii : i = (s.icache a).inum
    · subst hii; simp
    · simp [hii, hw.formatted.dinode_setBlk hlow hi]
  · have hind := Image.ref_indirect hi
    refine update_of_ne (fun e => ?_) _ _
    have := hw.owns.inj (p := place (s.icache a).inum bn) (q := .addr i indirect)
      (by rwa [href]) (by rw [href, hind, e])
    exact place_ne_indirect this

theorem Work.setBlk (o m : ℕ) (src : ℕ → UInt8) :
    Writes a (bn * BSIZE + o) (bn * BSIZE + o + m) s (s.setBlk b (blit (s.blk b) o m src)) := by
  obtain ⟨href, hlow⟩ := hw.ref_block hbn hb h0
  have hsame := hw.ref_setBlk hbn hb h0 (blit (s.blk b) o m src)
  refine ⟨rfl, ⟨hw.formatted.setBlk hlow _, ?_, ?_⟩, fun i hi => hw.formatted.dinode_setBlk hlow hi,
    ⟨(s.icache a).din.addrs, by simp⟩, fun p _ => hsame p, fun i k j hp hj hout => ?_⟩
  · exact hw.owns.congr hsame fun c _ hc => hw.formatted.used_setBlk hlow hc
  · have := hw.live
    simp only [Image.Live, image, table_self] at this ⊢
    exact this
  · by_cases hbp : (s.image a).ref s.sb.ninodes (place i k) = b
    · obtain ⟨rfl, rfl⟩ := place_inj (hw.owns.inj hp (hbp.trans href.symm))
      rw [hbp, setBlk_blk, update_self]
      refine blit_out ?_
      have := hout rfl
      omega
    · rw [setBlk_blk, update_of_ne hbp]

end

theorem Work.setLog (hw : s.Work a) (l : Log) : (s.setLog l).Work a :=
  ⟨hw.formatted.setLog l, hw.owns, hw.live⟩

section

variable (h : Writes a lo hi s s')

include h

theorem Writes.setLog (l : Log) : Writes a lo hi s (s'.setLog l) :=
  ⟨h.sb, h.work.setLog l, h.dinode, h.icache, h.ref, h.byte⟩

theorem Writes.din (hi : i < s.sb.ninodes) :
    ∃ addrs, (s'.image a).din i = { (s.image a).din i with addrs := addrs } := by
  obtain ⟨u, hu⟩ := h.icache
  simp only [image]
  by_cases hii : i = (s.icache a).inum
  · subst hii
    exact ⟨u, by simp [table, hu]⟩
  · refine ⟨(s.dinode i).addrs, ?_⟩
    rw [table_of_ne hii, table_of_ne (by rwa [h.inum]), h.dinode i hi]

theorem Writes.live : (s'.image a).Live s.sb.ninodes i ↔ (s.image a).Live s.sb.ninodes i := by
  unfold Image.Live
  refine and_congr_right fun hi => ?_
  obtain ⟨u, hu⟩ := h.din hi
  rw [hu]

theorem Writes.block (hl : (s.image a).Live s.sb.ninodes i) (hbn : bn < MAXFILE)
    (h0 : (s.image a).block i bn ≠ 0) : (s'.image a).block i bn = (s.image a).block i bn := by
  have h1 := Image.ref_place hl hbn
  have h2 := Image.ref_place (h.live.2 hl) hbn
  rw [← h1, ← h2]
  exact h.ref _ (by rwa [h1])

theorem Writes.content {p : ℕ} (hl : (s.image a).Live s.sb.ninodes i) (hp : p < MAXFILE * BSIZE)
    (h0 : (s.image a).block i (p / BSIZE) ≠ 0) (hout : i = (s.icache a).inum → p < lo ∨ hi ≤ p) :
    (s'.image a).content i p = (s.image a).content i p := by
  have hbn : p / BSIZE < MAXFILE := by unfold BSIZE at *; omega
  have h1 := Image.ref_place hl hbn
  have h2 := h.byte i (p / BSIZE) (p % BSIZE) (by rwa [h1]) (Nat.mod_lt _ (by decide)) fun hi => by
    rw [Nat.div_add_mod' p BSIZE]
    exact hout hi
  rw [h1] at h2
  rw [Image.content, Image.content, h.block hl hbn h0]
  exact h2

end

end FsState

/-- A piece of the source is stored in the block that `bmap` returns. -/
theorem FsState.Work.piece {src : ℕ → UInt8} {c : ℕ} (hw : s.Work a)
    (hbmap : Returns (bmap a (off / BSIZE)) s b s') (hc : off % BSIZE + c ≤ BSIZE)
    (hs : s'' = s'.setBlk b (blit (s'.blk b) (off % BSIZE) c src)) :
    off / BSIZE < MAXFILE ∧ s.Writes a off (off + c) s'' ∧ b ≠ 0 ∧
      (s''.image a).block (s.icache a).inum (off / BSIZE) = b ∧
      ∀ j < c, (s''.image a).content (s.icache a).inum (off + j) = src j := by
  obtain ⟨hbn, hg, hb0, hb, -⟩ := bmap_spec hw hbmap
  have hpiece := hg.work.setBlk hbn (by rw [hg.inum]; exact hb) hb0 (off % BSIZE) c src
  rw [Nat.div_add_mod' off BSIZE, ← hs] at hpiece
  have hb' : (s''.image a).block (s.icache a).inum (off / BSIZE) = b :=
    (hpiece.block (hg.inum ▸ hg.work.live) hbn (by rwa [hb])).trans hb
  refine ⟨hbn, (hg.writes off (off + c)).trans hpiece, hb0, hb', fun j hj => ?_⟩
  rw [← content_piece _ (by omega), hb']
  change s''.blk b _ = _
  rw [hs, FsState.setBlk_blk, update_self, blit_in (by omega) (by omega), Nat.add_sub_cancel_left]

/-- The loop of `writei` stores the bytes of its source, up to a piece that has an unmapped byte.
It returns the offset after the last piece it has stored. -/
theorem writeiLoop_spec {src : ℕ → Option UInt8} {r : ℕ} (hw : s.Work a) (hfuel : n ≤ fuel)
    (h : Returns (writeiLoop a src fuel tot off n) s r s') :
    off ≤ r ∧ r ≤ off + n ∧ s.Writes a off (off + n) s' ∧
    (∀ p, off ≤ p → p < r → p < MAXFILE * BSIZE ∧
      (s'.image a).block (s.icache a).inum (p / BSIZE) ≠ 0) ∧
    (∀ j, off + j < r →
      src (tot + j) = some ((s'.image a).content (s.icache a).inum (off + j))) ∧
    (r < off + n → ∃ j < n, src (tot + j) = none) := by
  induction fuel generalizing s tot off n with
  | zero =>
    obtain rfl : n = 0 := by omega
    obtain ⟨rfl, rfl⟩ := returns_pure.1 h
    refine ⟨le_rfl, le_rfl, (FsState.Grows.refl hw).writes _ _, ?_, ?_, ?_⟩ <;> intros <;> omega
  | succ fuel ih =>
    rw [writeiLoop] at h
    split at h
    · rename_i h0
      subst h0
      obtain ⟨rfl, rfl⟩ := returns_pure.1 h
      refine ⟨le_rfl, le_rfl, (FsState.Grows.refl hw).writes _ _, ?_, ?_, ?_⟩ <;> intros <;> omega
    · rename_i h0
      simp only [returns_bind, returns_bread, returns_setBuf] at h
      obtain ⟨b, s₁, hbmap, _, _, ⟨rfl, rfl⟩, _, s₂, hs2, h⟩ := h
      obtain ⟨m, hm⟩ : ∃ m, m = min n (BSIZE - off % BSIZE) := ⟨_, rfl⟩
      obtain ⟨c, hc⟩ : ∃ c, c = copied (fun j => (src (tot + j)).isSome) m := ⟨_, rfl⟩
      rw [← hm, ← hc] at h hs2
      have hcm : c ≤ m := hc ▸ copied_le _ m
      have hpos : 0 < m ∧ m ≤ n ∧ off % BSIZE + m ≤ BSIZE := by unfold BSIZE at *; omega
      obtain ⟨hbn, hdone, hb0, hb, hbyte⟩ := hw.piece hbmap (by omega) hs2.symm
      split at h
      · rename_i hlt
        obtain ⟨rfl, rfl⟩ := returns_pure.1 h
        refine ⟨le_rfl, by omega, hdone.mono le_rfl (by omega), ?_, ?_, fun _ => ⟨c, by omega, ?_⟩⟩
        · intros; omega
        · intros; omega
        · have := not_mapped_copied (hc ▸ hlt : copied (fun j => (src (tot + j)).isSome) m < m)
          rw [← hc] at this
          simpa using this
      · rename_i hge
        obtain rfl : c = m := by omega
        simp only [returns_bind, returns_logWrite] at h
        obtain ⟨_, _, ⟨l, -, rfl⟩, h⟩ := h
        have hlive : ((s₂.setLog l).image a).Live (s₂.setLog l).sb.ninodes (s.icache a).inum := by
          have := hdone.live.2 hw.live
          rwa [← hdone.sb] at this
        obtain ⟨hr1, hr2, hwr, hblock, hbytes, hnone⟩ := ih (hdone.work.setLog l) (by omega) h
        simp only [FsState.setLog_icache, hdone.inum] at hblock hbytes
        have hb' : (s'.image a).block (s.icache a).inum (off / BSIZE) = b :=
          (hwr.block hlive hbn fun e => hb0 (hb.symm.trans e)).trans hb
        refine ⟨by omega, by omega, ((hdone.mono le_rfl (by omega)).setLog l).trans
          (hwr.mono (by omega) (by omega)), fun p hp hpr => ?_, fun j hj => ?_, fun hlt => ?_⟩
        · by_cases hpm : p < off + c
          · have : p / BSIZE = off / BSIZE := by unfold BSIZE at *; omega
            rw [this, hb']
            refine ⟨?_, hb0⟩
            unfold MAXFILE BSIZE NDIRECT NINDIRECT at *
            omega
          · exact hblock p (by omega) hpr
        · by_cases hjm : j < c
          · have hsome : (src (tot + j)).isSome = true :=
              mapped_of_lt_copied (f := fun j => (src (tot + j)).isSome) (m := c) (by omega)
            have hdiv : (off + j) / BSIZE = off / BSIZE := by unfold BSIZE at *; omega
            have hkeep := hwr.content (p := off + j) hlive
              (by unfold MAXFILE BSIZE NDIRECT NINDIRECT at *; omega)
              (by rw [hdiv]; exact fun e => hb0 (hb.symm.trans e)) fun _ => .inl (by omega)
            obtain ⟨v, hv⟩ := Option.isSome_iff_exists.1 hsome
            have hv' := hbyte j hjm
            rw [hv] at hv' ⊢
            exact congrArg some (hkeep.trans hv').symm
          · have := hbytes (j - c) (by omega)
            rw [show tot + c + (j - c) = tot + j by omega,
              show off + c + (j - c) = off + j by omega] at this
            exact this
        · obtain ⟨j, hj, hnone⟩ := hnone (by omega)
          exact ⟨c + j, by omega, by rw [← Nat.add_assoc]; exact hnone⟩

end Xv6Container
