import Xv6Container.Fs.Refine
import Xv6Container.Log.Crash

/-!
# Transactions

File system code runs between `begin_op` and `end_op`.  The last `end_op` commits: it copies the
logged blocks to the log and back home, so that every block outside of the log area has in the
cache what it had before.

* `FsState.env_writei` : what `writei` logs lies outside of the log area;
* `LogState.commit_cache` : `commit` leaves the contents of the home blocks alone;
* `FsState.Still` : a step that changes no file and no inode, as `begin_op` and `end_op`
  (`FsState.still_beginOp`, `FsState.still_endOp`).
-/

namespace Xv6Container

/-! ### What calls log -/

namespace FsState

variable {s s' : FsState} {a b bn fuel tot off n : ℕ}

theorem Work.env_balloc (hw : s.Work a) (h : Returns balloc s b s') : s.Env s' := by
  obtain ⟨-, hfree, l₁, l, hl1, hl, rfl⟩ := returns_balloc.1 h
  exact hw.formatted.env_allocated hw.live.1 (hw.formatted.le_freeBlock hfree) hl1 hl

theorem Work.env_bmapAddr {k : Fin (NDIRECT + 1)} (hw : s.Work a)
    (h : Returns (bmapAddr a k) s b s') : s.Env s' := by
  obtain ⟨-, t, hb, rfl⟩ | ⟨-, -, rfl⟩ := returns_bmapAddr h
  · exact (hw.env_balloc hb).trans (.modifyInode t a _)
  · exact .refl s

theorem Work.inodestart_le (hw : s.Work a) (hb : s.sb.datastart ≤ b) : s.sb.inodestart ≤ b :=
  ((hw.formatted.inodestart_le hw.live.1).trans hw.formatted.sb.free).trans hb

theorem Work.env_bmap (hw : s.Work a) (h : Returns (bmap a bn) s b s') : s.Env s' := by
  obtain ⟨hbn, h⟩ | ⟨-, -, addr, s₁, h1, h⟩ := returns_bmap h
  · exact hw.env_bmapAddr h
  · have henv := hw.env_bmapAddr h1
    obtain ⟨hg, h0, ha, -⟩ := bmapAddr_spec hw h1
    obtain ⟨-, s₂, l, hb, hl, rfl⟩ | ⟨-, -, rfl⟩ := h
    · have henv2 := hg.work.env_balloc hb
      -- the indirect block is a data block
      have hind := Image.ref_indirect hg.work.live
      rw [hg.inum, ha] at hind
      have hlow := (hg.work.owns.mem (p := .addr (s.icache a).inum indirect) (by rwa [hind])).1
      rw [hind] at hlow
      have hle : s₂.sb.inodestart ≤ addr := henv2.sb ▸ hg.work.inodestart_le hlow
      refine (henv.trans henv2).trans ((Env.setBlk s₂ addr _).trans (.logWrite ?_ hl))
      exact hle
    · exact henv

theorem Work.env_writeiLoop {src : ℕ → Option UInt8} {r : ℕ} (hw : s.Work a)
    (h : Returns (writeiLoop a src fuel tot off n) s r s') : s.Env s' := by
  induction fuel generalizing s tot off n with
  | zero =>
    obtain ⟨-, rfl⟩ := returns_pure.1 h
    exact .refl s
  | succ fuel ih =>
    rw [writeiLoop] at h
    split at h
    · obtain ⟨-, rfl⟩ := returns_pure.1 h
      exact .refl s
    · simp only [returns_bind, returns_bread, returns_setBuf] at h
      obtain ⟨b, s₁, hbmap, _, _, ⟨rfl, rfl⟩, _, _, rfl, h⟩ := h
      obtain ⟨hbn, hg, hb0, hb, -⟩ := bmap_spec hw hbmap
      rw [← hg.inum] at hb
      have henv := hw.env_bmap hbmap
      split at h
      · obtain ⟨-, rfl⟩ := returns_pure.1 h
        exact henv.trans (.setBlk s₁ b _)
      · simp only [returns_bind, returns_logWrite] at h
        obtain ⟨_, _, ⟨l, hl, rfl⟩, h⟩ := h
        have hwr := hg.work.setBlk hbn hb hb0 (off % BSIZE)
          (copied (fun j => (src (tot + j)).isSome) (min n (BSIZE - off % BSIZE)))
          fun j => (src (tot + j)).getD 0
        have hlow := hg.work.inodestart_le (hg.work.ref_block hbn hb hb0).2
        exact ((henv.trans (.setBlk s₁ b _)).trans (.logWrite hlow hl)).trans
          (ih (hwr.work.setLog l) h)

theorem env_iupdate {u : Unit} (h : Returns (iupdate a) s u s') : s.Env s' := by
  obtain ⟨l, hl, rfl⟩ := returns_iupdate.1 h
  exact (Env.setBlk s _ _).trans (.logWrite (s := s.flushed a) (Nat.le_add_left _ _) hl)

theorem Work.env_writei {src : ℕ → Option UInt8} {r : ℤ} (hw : s.Work a)
    (h : Returns (writei a src off n) s r s') : s.Env s' := by
  simp only [writei, returns_inode_bind] at h
  split at h
  · obtain ⟨-, rfl⟩ := returns_pure.1 h
    exact .refl s
  · split at h
    · obtain ⟨-, rfl⟩ := returns_pure.1 h
      exact .refl s
    · simp only [returns_bind] at h
      obtain ⟨e, s₁, hloop, h⟩ := h
      have henv := hw.env_writeiLoop hloop
      split at h
      · simp only [returns_inode_bind] at h
        split at h
        · simp only [returns_bind, returns_setDin, returns_pure] at h
          obtain ⟨_, _, rfl, _, t, ht, -, rfl⟩ := h
          exact (henv.trans (.modifyInode s₁ a _)).trans (env_iupdate ht)
        · simp only [returns_bind, returns_pure] at h
          obtain ⟨_, t, ht, -, rfl⟩ := h
          exact henv.trans (env_iupdate ht)
      · obtain ⟨-, rfl⟩ := returns_pure.1 h
        exact henv

end FsState

/-! ### Committing -/

namespace LogState

variable {m : LogState} {R : LogRegion}

theorem commit_log : m.commit.log = { m.log with lh := [] } := by
  unfold commit
  split
  · have hcopy : ∀ (ps : List (ℕ × ℕ)) (m : LogState), (m.copyBlocks ps).log = m.log := by
      intro ps
      induction ps with
      | nil => intro m; rfl
      | cons p ps ih => intro m; exact ih _
    simp [writeHead, bwrite, clearHead, installTrans, writeLog, hcopy]
  · rename_i hempty
    have hnil : m.log.lh = [] := by
      rwa [gt_iff_lt, List.length_pos_iff, not_not] at hempty
    rw [← hnil]

theorem applyWrites_homeWrites {d h : Disk} (bs : List ℕ) {b : ℕ} (hb : d b = h b) :
    applyWrites d (homeWrites bs h) b = h b := by
  induction bs generalizing d with
  | nil => exact hb
  | cons c bs ih =>
    refine ih (d := Function.update d c (h c)) ?_
    by_cases hbc : b = c
    · subst hbc
      simp
    · rwa [Function.update_of_ne hbc]

/-- **`commit`** leaves the contents of the home blocks alone. -/
theorem commit_cache (hstart : m.log.start = R.start) (hlen : m.log.lh.length ≤ R.size - 1)
    (hhome : ∀ b ∈ m.log.lh, R.Home b) {b : ℕ} (hb : R.Home b) : m.commit.cache b = m.cache b := by
  unfold commit
  split
  · have hpos := R.pos
    have hout : b ∉ (R.logWrites m.log.lh m.cache).map Prod.fst := by
      intro hm
      have := mem_logWrites_fst hm
      simp only [LogRegion.Home] at hb
      omega
    have hne : b ≠ R.start := by
      simp only [LogRegion.Home] at hb
      omega
    -- the log and its header
    obtain ⟨m₁, hm1⟩ : ∃ m₁, m₁ = m.writeLog.writeHead := ⟨_, rfl⟩
    have hlog1 : m₁.log = m.log := by
      rw [hm1, writeHead_eq_emit, writeLog_eq_emit hstart hlen hhome]
      rfl
    have hcache1 : ∀ c, c ≠ R.start →
        m₁.cache c = applyWrites m.cache (R.logWrites m.log.lh m.cache) c := by
      intro c hc
      rw [hm1, writeHead_eq_emit, writeLog_eq_emit hstart hlen hhome]
      change applyWrites (applyWrites m.cache _) [(m.log.start, _)] c = _
      rw [hstart]
      exact applyWrites_of_notMem (by simpa using hc)
    have hcopies : ∀ p ∈ m₁.log.lh.zipIdx, m₁.cache (R.start + p.2 + 1) = m.cache p.1 := by
      intro p hp
      rw [hlog1] at hp
      rw [hcache1 _ (by omega)]
      exact applyWrites_of_mem (nodup_logWrites _ _) (List.mem_map.2 ⟨p, hp, rfl⟩)
    rw [← hm1, installTrans_eq_emit (by rw [hlog1]; exact hstart) (by rw [hlog1]; exact hlen)
      (by rw [hlog1]; exact hhome) hcopies, writeHead_eq_emit]
    change applyWrites (applyWrites m₁.cache (homeWrites m₁.log.lh m.cache))
      [(m₁.log.start, _)] b = _
    rw [applyWrites_of_notMem (by simpa [hlog1, hstart] using hne), applyWrites_homeWrites]
    rw [hcache1 b hne, applyWrites_of_notMem hout]
  · rfl

end LogState

/-! ### Steps that change no file -/

namespace FsState

variable {s s' : FsState} {i : ℕ} {u : Unit}

/-- `s'` has the tables, the inode cache and the blocks outside of the log area of `s`. -/
structure Still (s s' : FsState) : Prop where
  sb : s'.sb = s.sb
  cur : s'.cur = s.cur
  kern : s'.kern = s.kern
  icache : s'.icache = s.icache
  blk : ∀ b, s.sb.inodestart ≤ b → s'.blk b = s.blk b
  log : s.LogInv → s'.LogInv

theorem Still.dinode (h : s.Still s') (i : ℕ) : s'.dinode i = s.dinode i :=
  dinode_congr h.sb (h.blk _ (Nat.le_add_left _ _))

theorem Still.used (h : s.Still s') (hf : s.Formatted) (hi : i < s.sb.ninodes) (c : ℕ) :
    s'.used c = s.used c :=
  used_congr h.sb (h.blk _ ((hf.inodestart_le hi).trans (s.sb.bmapstart_le_bblock c)))

theorem Still.same (h : s.Still s') (hs : s.WellFormed) (hi : i < s.sb.ninodes) :
    Image.Same s.sb.ninodes s.disk s'.disk := by
  have hdata : ∀ b, s.sb.datastart ≤ b → s'.blk b = s.blk b := fun b hb =>
    h.blk b (((hs.formatted.inodestart_le hi).trans hs.formatted.sb.free).trans hb)
  have hdin : ∀ j, s'.disk.din j = s.disk.din j := fun j => h.dinode j
  refine ⟨fun j _ => hdin j, Image.ref_congr (fun j _ => by rw [hdin j]; exact ⟨rfl, rfl⟩)
    fun j hj h0 => hdata _ ?_, fun j k h0 => hdata _ (hs.files.owns.mem h0).1⟩
  have := (hs.files.owns.mem (p := .addr j indirect) (by rwa [Image.ref_indirect hj])).1
  rwa [Image.ref_indirect hj] at this

theorem Still.wellFormed (h : s.Still s') (hs : s.WellFormed) (hi : i < s.sb.ninodes) :
    s'.WellFormed := by
  refine ⟨⟨h.sb ▸ hs.formatted.sb, fun c hc => ?_⟩, hs.files.congr h.sb (h.same hs hi)
    fun c _ _ => h.used hs.formatted hi c, ?_⟩
  · rw [h.sb] at hc
    rw [h.used hs.formatted hi, hs.formatted.reserved c hc]
  · have hc := hs.cached
    refine ⟨?_, ?_, ?_, ?_, ?_, ?_, ?_⟩ <;> rw [h.icache]
    · exact hc.ref
    · exact hc.bound
    · exact hc.dev
    · rw [h.sb]; exact hc.inum
    · exact hc.unique
    · intro b hb hr hv
      rw [h.dinode]
      exact hc.din b hb hr hv
    · exact hc.type

theorem Still.file (h : s.Still s') (hs : s.WellFormed) (hi : s.disk.Live s.sb.ninodes i) :
    s'.file i = s.file i := by
  have hsame := h.same hs hi.1
  refine file_congr (hsame.size hi) fun p hp => hsame.content hi ?_ ?_
  · have := hs.files.size i hi
    omega
  · exact hs.files.mapped i hi _ (by unfold BSIZE at *; omega)

theorem returns_beginOp (h : Returns beginOp s u s') :
    s' = s.setLog { s.store.log with outstanding := s.store.log.outstanding + 1 } := by
  simp only [beginOp, returns_get_bind] at h
  split at h
  · exact absurd h not_returns_throw
  · exact (returns_set.1 h).symm

theorem committing_beginOp (h : Returns beginOp s u s') : s'.store.log.committing = false := by
  rw [returns_beginOp h]
  simp only [beginOp, returns_get_bind] at h
  split at h
  · exact absurd h not_returns_throw
  · rename_i hc
    simpa [FsState.setLog] using (not_or.1 hc).1

theorem still_beginOp (h : Returns beginOp s u s') : s.Still s' := by
  obtain rfl := returns_beginOp h
  exact ⟨rfl, rfl, rfl, rfl, fun _ _ => rfl, fun hl => ⟨hl.start, hl.size, hl.region, hl.home⟩⟩

theorem returns_endOp (h : Returns endOp s u s') :
    s.store.log.committing = false ∧ ∃ l, l = { s.store.log with
      outstanding := s.store.log.outstanding - 1 } ∧
      (l.outstanding = 0 ∧ s' = { s with store := (s.setLog l).store.commit } ∨
        l.outstanding ≠ 0 ∧ s' = s.setLog l) := by
  simp only [endOp, returns_get_bind] at h
  split at h
  · exact absurd h not_returns_throw
  · rename_i hc
    refine ⟨by simpa using hc, _, rfl, ?_⟩
    split at h
    · rename_i ho
      exact .inl ⟨ho, (returns_set.1 h).symm⟩
    · rename_i ho
      exact .inr ⟨ho, (returns_set.1 h).symm⟩

theorem endOp_frame (h : Returns endOp s u s') :
    s'.kern = s.kern ∧ s'.cur = s.cur ∧ s'.icache = s.icache := by
  obtain ⟨-, l, -, ⟨-, rfl⟩ | ⟨-, rfl⟩⟩ := returns_endOp h
  · exact ⟨rfl, rfl, rfl⟩
  · exact ⟨rfl, rfl, rfl⟩

theorem exists_endOp (h : s.store.log.committing = false) : ∃ s', Returns endOp s () s' := by
  simp only [endOp, returns_get_bind, h, Bool.false_eq_true, if_false]
  split
  · exact ⟨_, returns_set.2 rfl⟩
  · exact ⟨_, returns_set.2 rfl⟩

theorem still_endOp (hf : s.Formatted) (hlog : s.LogInv) (h : Returns endOp s u s') :
    s.Still s' := by
  obtain ⟨-, l, hl, ⟨-, rfl⟩ | ⟨-, rfl⟩⟩ := returns_endOp h
  · have hlh : l.lh = s.store.log.lh := by rw [hl]
    refine ⟨rfl, rfl, rfl, rfl, fun b hb => ?_, fun _ => ?_⟩
    · by_cases hpos : 0 < s.sb.nlog
      · have hhome : ∀ c, s.sb.inodestart ≤ c →
            LogRegion.Home ⟨s.sb.logstart, s.sb.nlog, hpos⟩ c := fun c hc =>
          .inr (hf.sb.inode.trans hc)
        refine LogState.commit_cache (m := (s.setLog l).store)
          (R := ⟨s.sb.logstart, s.sb.nlog, hpos⟩) ?_ ?_
          (fun c hc => hhome c (hlog.home c (hlh ▸ hc))) (hhome b hb)
        · rw [← hlog.start, setLog_log, hl]
        · have := hlog.region
          rw [hlog.size] at this
          rw [setLog_log, hlh]
          exact this
      · -- a log without blocks has recorded nothing
        have hnil : l.lh.length = 0 := by
          have := hlog.region
          rw [hlog.size] at this
          rw [hlh]
          omega
        have : (s.setLog l).store.commit = (s.setLog l).store := by
          rw [LogState.commit, if_neg (by rw [setLog_log]; omega)]
        exact congrArg (fun m => m.cache b) this
    · have hc : (s.setLog l).store.commit.log = { l with lh := [] } := LogState.commit_log
      refine ⟨?_, ?_, ?_, ?_⟩ <;> dsimp only <;> rw [hc]
      · rw [← hlog.start, hl]
      · rw [← hlog.size, hl]
      · simp
      · simp
  · subst hl
    exact ⟨rfl, rfl, rfl, rfl, fun _ _ => rfl, fun hl => ⟨hl.start, hl.size, hl.region, hl.home⟩⟩

theorem WellFormed.setKern (hs : s.WellFormed) (k : Kernel) : (s.setKern k).WellFormed :=
  ⟨⟨hs.formatted.sb, hs.formatted.reserved⟩, ⟨hs.files.owns, hs.files.mapped, hs.files.size⟩,
    ⟨hs.cached.ref, hs.cached.bound, hs.cached.dev, hs.cached.inum, hs.cached.unique,
      hs.cached.din, hs.cached.type⟩⟩

end FsState

end Xv6Container
