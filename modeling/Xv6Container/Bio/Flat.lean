import Xv6Container.Bio.Boot

/-!
# The contents of blocks

What the buffers, the disk and the log hold, compared with the contents that were last logged for
every block (`BioState.flat`).  A block outside the log region is up to date

* in its buffer, unless the process that has locked the buffer has changed it and not yet logged it
  (`Contents.cache`);
* on the disk, unless its buffer is pinned (`Contents.disk`), and then the buffer has been read
  (`Contents.pinned`).

`BioState.Guarded` says who may hold a changed buffer.
-/

namespace Xv6Container

open Function

namespace BioState

variable {N B : ℕ} {s s' : BioState N B} {p q : Fin N} {i j : Fin B}

/-- Block `b` is not a block of the log region. -/
def Home (s : BioState N B) (b : ℕ) : Prop :=
  b < s.grp.log.start ∨ s.grp.log.start + s.grp.log.size ≤ b

instance (b : ℕ) : Decidable (s.Home b) := inferInstanceAs (Decidable (_ ∨ _))

/-- Where the contents of the blocks are. -/
structure Contents (s : BioState N B) : Prop where
  cache : ∀ i b, s.Caches i b → s.Home b → (s.buf i).valid = true → s.dirty i = false →
    (s.buf i).data = s.flat b
  disk : ∀ b, s.Home b → b ∉ s.live → s.disk b = s.flat b
  pinned : ∀ i b, s.Caches i b → b ∈ s.live → (s.buf i).valid = true
  /-- Buffers of the log region are never ahead of the disk. -/
  region : ∀ i b, s.Caches i b → ¬s.Home b → (s.buf i).valid = true → (s.buf i).data = s.disk b

theorem home_congr (hs : s'.grp.log.start = s.grp.log.start ∧ s'.grp.log.size = s.grp.log.size)
    (b : ℕ) : s'.Home b ↔ s.Home b := by
  rw [Home, Home, hs.1, hs.2]

theorem Contents.congr (h : s.Contents)
    (hs : s'.grp.log.start = s.grp.log.start ∧ s'.grp.log.size = s.grp.log.size)
    (hbuf : ∀ i, (s'.buf i).dev = (s.buf i).dev ∧ (s'.buf i).blockno = (s.buf i).blockno ∧
      (s'.buf i).valid = (s.buf i).valid ∧ (s'.buf i).data = (s.buf i).data)
    (hdirty : s'.dirty = s.dirty) (hdisk : s'.disk = s.disk) (hflat : s'.flat = s.flat)
    (hlive : s'.live = s.live) : s'.Contents := by
  have hcaches : ∀ i b, s'.Caches i b ↔ s.Caches i b := fun i b => by
    rw [Caches, Caches, (hbuf i).1, (hbuf i).2.1]
  have hhome := home_congr hs
  refine ⟨fun i b hi hb hv hd => ?_, fun b hb hl => ?_, fun i b hi hb => ?_,
    fun i b hi hb hv => ?_⟩
  · rw [(hbuf i).2.2.1] at hv
    rw [(hbuf i).2.2.2, hflat]
    exact h.cache i b ((hcaches i b).1 hi) ((hhome b).1 hb) hv (hdirty ▸ hd)
  · rw [hdisk, hflat]
    exact h.disk b ((hhome b).1 hb) (hlive ▸ hl)
  · rw [(hbuf i).2.2.1]
    exact h.pinned i b ((hcaches i b).1 hi) (hlive ▸ hb)
  · rw [(hbuf i).2.2.1] at hv
    rw [(hbuf i).2.2.2, hdisk]
    exact h.region i b ((hcaches i b).1 hi) (fun hb' => hb ((hhome b).2 hb')) hv

theorem Contents.setBuf {b : Buf N} (h : s.Contents)
    (hb : b.dev = (s.buf i).dev ∧ b.blockno = (s.buf i).blockno ∧ b.valid = (s.buf i).valid ∧
      b.data = (s.buf i).data) : (s.setBuf i b).Contents := by
  exact h.congr ⟨rfl, rfl⟩ (fun j => ⟨setBuf_part Buf.dev hb.1 j, setBuf_part Buf.blockno hb.2.1 j,
    setBuf_part Buf.valid hb.2.2.1 j, setBuf_part Buf.data hb.2.2.2 j⟩) rfl rfl rfl rfl

theorem Contents.setRefs {rs : List (BufRef B)} (h : s.Contents) : (s.setRefs p rs).Contents :=
  ⟨h.cache, h.disk, h.pinned, h.region⟩

variable {b : ℕ} {x : Block} {r : BufRef B} {op : BufOp} {l : Shape} {g : GroupState N} {a : LogAct}

theorem Contents.recycle (h : s.Contents) (hb : b ∉ s.live) :
    (s.recycle i b).Contents := by
  have hcases : ∀ j c, (s.recycle i b).Caches j c → (j = i ∧ c = b) ∨ (j ≠ i ∧ s.Caches j c) := by
    intro j c hj
    by_cases hji : j = i
    · subst hji
      exact .inl ⟨rfl, by simpa [eq_comm] using hj.2⟩
    · right
      simpa [Caches, hji] using hj
  have hinvalid : ((s.recycle i b).buf i).valid = false := by simp
  have hother : ∀ j, j ≠ i → (s.recycle i b).buf j = s.buf j := fun j hj => by
    simp [hj]
  refine ⟨fun j c hj hc hv hd => ?_, h.disk, fun j c hj hc => ?_, fun j c hj hc hv => ?_⟩
  · obtain ⟨rfl, -⟩ | ⟨hji, hj⟩ := hcases j c hj
    · rw [hinvalid] at hv
      cases hv
    · rw [hother j hji] at hv ⊢
      exact h.cache j c hj hc hv hd
  · obtain ⟨-, rfl⟩ | ⟨hji, hj⟩ := hcases j c hj
    · exact absurd hc hb
    · rw [hother j hji]
      exact h.pinned j c hj hc
  · obtain ⟨rfl, -⟩ | ⟨hji, hj⟩ := hcases j c hj
    · rw [hinvalid] at hv
      cases hv
    · rw [hother j hji] at hv ⊢
      exact h.region j c hj hc hv

theorem Contents.fill (h : s.Contents) : (s.fill p i).Contents := by
  have hcaches : ∀ j c, (s.fill p i).Caches j c → s.Caches j c := fun j c => caches_fill.1
  have hother : ∀ j, j ≠ i → (s.fill p i).buf j = s.buf j := fun j hj => by
    simp [BioState.fill, hj]
  have hself : ((s.fill p i).buf i).data =
      if (s.buf i).valid = true then (s.buf i).data else s.disk (s.buf i).blockno := by
    simp [BioState.fill]
  refine ⟨fun j c hj hc hv hd => ?_, h.disk, fun j c hj hc => ?_, fun j c hj hc hv => ?_⟩
  · replace hj := hcaches j c hj
    by_cases hji : j = i
    · subst hji
      rw [hself]
      split_ifs with hvalid
      · exact h.cache j c hj hc hvalid hd
      · rw [hj.2]
        exact h.disk c hc fun hl => hvalid (h.pinned j c hj hl)
    · rw [hother j hji] at hv ⊢
      exact h.cache j c hj hc hv hd
  · by_cases hji : j = i
    · subst hji
      simp [BioState.fill]
    · rw [hother j hji]
      exact h.pinned j c (hcaches j c hj) hc
  · replace hj := hcaches j c hj
    by_cases hji : j = i
    · subst hji
      rw [hself]
      split_ifs with hvalid
      · exact h.region j c hj hc hvalid
      · rw [hj.2]
        rfl
    · rw [hother j hji] at hv ⊢
      exact h.region j c hj hc hv

theorem store_buf : (s.store i x).buf j =
    if j = i then { s.buf i with data := x } else s.buf j := by
  simp [BioState.store]

theorem store_caches {c : ℕ} : (s.store i x).Caches j c ↔ s.Caches j c :=
  caches_setBuf (b := { s.buf i with data := x }) rfl rfl

theorem store_disk {c : ℕ} (hi : s.Caches i b) :
    (s.store i x).disk c = if c = b then x else s.disk c := by
  rw [BioState.store, ← hi.2]
  exact update_apply ..

theorem Contents.store (h : s.Contents) (hheld : s.Held) (hi : s.Caches i b)
    (hx : s.Home b → x = s.flat b) : (s.store i x).Contents := by
  refine ⟨fun j c hj hc hv hd => ?_, fun c hc hl => ?_, fun j c hj hc => ?_,
    fun j c hj hc hv => ?_⟩
  · rw [store_caches] at hj
    rw [store_buf] at hv ⊢
    split_ifs at hv ⊢ with hji
    · rw [hji] at hj
      obtain rfl : b = c := hi.2.symm.trans hj.2
      exact hx hc
    · exact h.cache j c hj hc hv hd
  · rw [store_disk hi]
    split_ifs with hcb
    · subst hcb
      exact hx hc
    · exact h.disk c hc hl
  · rw [store_caches] at hj
    rw [store_buf]
    split_ifs with hji
    · rw [hji] at hj
      exact h.pinned i c hj hc
    · exact h.pinned j c hj hc
  · rw [store_caches] at hj
    rw [store_disk hi]
    rw [store_buf] at hv ⊢
    split_ifs at hv ⊢ with hji hcb hcb
    · rfl
    · rw [hji] at hj
      exact absurd (hj.2.symm.trans hi.2) hcb
    · rw [hcb] at hj
      exact absurd (hheld.uniq j i b hj hi) hji
    · exact h.region j c hj hc hv

theorem Contents.unpin (h : s.Contents) (hb : s.disk b = s.flat b) :
    ({ s.decref i with live := s.live.erase b } : BioState N B).Contents := by
  have hdecref : (s.decref i).Contents := h.setBuf ⟨rfl, rfl, rfl, rfl⟩
  refine ⟨hdecref.cache, fun c hc hl => ?_, fun j c hj hc => ?_, hdecref.region⟩
  · by_cases hcb : c = b
    · rw [hcb]
      exact hb
    · exact h.disk c hc fun hmem => hl ((List.mem_erase_of_ne hcb).2 hmem)
  · exact hdecref.pinned j c hj (List.mem_of_mem_erase hc)

theorem Contents.modify (h : s.Contents) (hi : s.Caches i b) (hb : s.Home b) :
    (s.modify i x).Contents := by
  have hcaches : ∀ j c, (s.modify i x).Caches j c → s.Caches j c := fun j c hj =>
    store_caches.1 (show (s.store i x).Caches j c from hj)
  have hbuf : ∀ j, (s.modify i x).buf j = if j = i then { s.buf i with data := x } else s.buf j :=
    fun j => store_buf
  refine ⟨fun j c hj hc hv hd => ?_, h.disk, fun j c hj hc => ?_, fun j c hj hc hv => ?_⟩
  · have hji : j ≠ i := by
      rintro rfl
      simp [BioState.modify] at hd
    have hd' : s.dirty j = false := by simpa [BioState.modify, hji] using hd
    rw [hbuf, if_neg hji] at hv ⊢
    exact h.cache j c (hcaches j c hj) hc hv hd'
  · rw [hbuf]
    split_ifs with hji
    · rw [hji] at hj
      exact h.pinned i c (hcaches i c hj) hc
    · exact h.pinned j c (hcaches j c hj) hc
  · replace hj := hcaches j c hj
    have hji : j ≠ i := by
      rintro rfl
      exact hc ((hi.2.symm.trans hj.2) ▸ hb)
    rw [hbuf, if_neg hji] at hv ⊢
    exact h.region j c hj hc hv

/-- `log_write` of a locked buffer. -/
theorem Contents.record (h : s.Contents) (hheld : s.Held)
    (hcaches : s.Caches r.buf r.blk) (hvalid : (s.buf r.buf).valid = true)
    (hlive : s.live = s.grp.log.lh) : (s.record r).Contents := by
  have hbuf : ∀ j, ((s.record r).buf j).dev = (s.buf j).dev ∧
      ((s.record r).buf j).blockno = (s.buf j).blockno ∧
      ((s.record r).buf j).valid = (s.buf j).valid ∧ ((s.record r).buf j).data = (s.buf j).data :=
    fun j => by
      rw [record_buf j]
      exact ⟨rfl, rfl, rfl, rfl⟩
  have hmem : ∀ c, c ∈ (s.record r).live ↔ c = r.blk ∨ c ∈ s.live := fun c => by
    rw [record_live hlive, Log.mem_record, hcaches.2, hlive]
  have hrest : (s.record r).flat = update s.flat r.blk (s.buf r.buf).data ∧
      (s.record r).dirty = update s.dirty r.buf false ∧ (s.record r).disk = s.disk ∧
      (s.record r).grp = s.grp := by
    rw [← hcaches.2]
    unfold BioState.record
    dsimp only
    split_ifs <;> exact ⟨rfl, rfl, rfl, rfl⟩
  obtain ⟨hflat, hdirty, hdisk, hgrp⟩ := hrest
  have hc : ∀ j c, (s.record r).Caches j c ↔ s.Caches j c := fun j c => by
    rw [Caches, Caches, (hbuf j).1, (hbuf j).2.1]
  have hhome : ∀ c, (s.record r).Home c ↔ s.Home c := home_congr (by rw [hgrp]; exact ⟨rfl, rfl⟩)
  refine ⟨fun j c hj hcb hv hd => ?_, fun c hcb hl => ?_, fun j c hj hcl => ?_,
    fun j c hj hcb hv => ?_⟩
  · rw [hc] at hj
    rw [(hbuf j).2.2.1] at hv
    rw [(hbuf j).2.2.2, hflat, update_apply]
    split_ifs with hcr
    · rw [hheld.uniq j r.buf c hj (hcr ▸ hcaches)]
    · have hjr : j ≠ r.buf := by
        rintro rfl
        exact hcr (hj.2.symm.trans hcaches.2)
      rw [hdirty, update_of_ne hjr] at hd
      exact h.cache j c hj ((hhome c).1 hcb) hv hd
  · rw [hmem, not_or] at hl
    rw [hdisk, hflat, update_of_ne hl.1]
    exact h.disk c ((hhome c).1 hcb) hl.2
  · rw [hc] at hj
    rw [(hbuf j).2.2.1]
    obtain rfl | hcl := (hmem c).1 hcl
    · rw [hheld.uniq j r.buf _ hj hcaches]
      exact hvalid
    · exact h.pinned j c hj hcl
  · rw [hc] at hj
    rw [(hbuf j).2.2.1] at hv
    rw [(hbuf j).2.2.2, hdisk]
    exact h.region j c hj (fun hb' => hcb ((hhome c).2 hb')) hv

/-! ### Changed buffers -/

/-- Who may hold a changed buffer. -/
structure Guarded (s : BioState N B) : Prop where
  /-- A changed buffer is locked by a process that is in an operation. -/
  dirty : ∀ i, s.dirty i = true → ∃ p, ∃ r ∈ (s.proc p).refs, r.buf = i ∧ r.locked = true ∧
    (s.grp.loc p).active = true
  /-- An operation gives back no changed buffer. -/
  brelse : ∀ p k, (s.grp.loc p).active = true → BufOp.unlock k ∈ (s.proc p).code →
    (s.proc p).code = brelseCode k ∧ ∀ r, (s.proc p).refs[k]? = some r → s.dirty r.buf = false
  /-- Only blocks outside the log region are logged. -/
  logging : ∀ p b w, s.grp.loc p = .logging b w → s.Home b

/-- A process keeps the buffers it has locked, but for `releasesleep`. -/
theorem Exec.locked_refs (he : s.Exec p op l s')
    (hr : r ∈ (s.proc q).refs) (hlk : r.locked = true) :
    (∃ r' ∈ (s'.proc q).refs, r'.buf = r.buf ∧ r'.locked = true) ∨
      ∃ k r', op = .unlock k ∧ q = p ∧ (s.proc p).refs[k]? = some r' ∧ r'.buf = r.buf := by
  by_cases hq : q = p
  · subst hq
    cases he with
    | hit | miss =>
      refine .inl ⟨r, ?_, rfl, hlk⟩
      rw [push, setRefs_refs, if_pos rfl]
      exact List.mem_cons_of_mem _ hr
    | full | copy | writeHead | readHead | bunpin => exact .inl ⟨r, hr, rfl, hlk⟩
    | @lock r' rs hrefs hfree =>
      rw [setRefs_refs, if_pos rfl]
      rw [hrefs] at hr
      obtain rfl | hr := List.mem_cons.1 hr
      · exact .inl ⟨_, List.mem_cons_self, rfl, rfl⟩
      · exact .inl ⟨r, List.mem_cons_of_mem _ hr, rfl, hlk⟩
    | @unlock k r' hr' hrl hall =>
      by_cases hbuf : r'.buf = r.buf
      · exact .inr ⟨k, r', rfl, rfl, hr', hbuf⟩
      · rw [setRefs_refs, if_pos rfl]
        obtain ⟨a, c, hsplit, hset, -⟩ := exists_split hr'
        rw [hsplit, List.mem_append, List.mem_cons] at hr
        refine .inl ⟨r, ?_, rfl, hlk⟩
        rw [hset, List.mem_append, List.mem_cons]
        obtain hr | rfl | hr := hr
        · exact .inl hr
        · exact absurd rfl hbuf
        · exact .inr (.inr hr)
    | @unref k r' hr' hrl =>
      rw [setRefs_refs, if_pos rfl]
      obtain ⟨a, c, hsplit, -, herase⟩ := exists_split hr'
      rw [hsplit, List.mem_append, List.mem_cons] at hr
      refine .inl ⟨r, ?_, rfl, hlk⟩
      rw [herase, List.mem_append]
      obtain hr | rfl | hr := hr
      · exact .inl hr
      · rw [hlk] at hrl
        cases hrl
      · exact .inr hr
  · rw [he.proc_of_ne hq]
    exact .inl ⟨r, hr, rfl, hlk⟩

theorem Exec.flat (he : s.Exec p op l s') :
    s'.flat = s.flat ∧ s'.dirty = s.dirty := by
  cases he with
  | unref =>
    rw [touch_eq]
    exact ⟨rfl, rfl⟩
  | full | hit | miss | lock | copy | writeHead | readHead | bunpin | unlock => exact ⟨rfl, rfl⟩

section

variable (h : s.Guarded)

include h

theorem Exec.guarded {rest : List BufOp} (hcode : (s.proc p).code = op :: rest)
    (he : (s.setCode p rest).Exec p op l s') : s'.Guarded := by
  obtain ⟨hloc, hstart, hsize, -, -⟩ := he.start
  obtain ⟨-, hdirty⟩ := he.flat
  have hhome := home_congr (s := s) ⟨hstart, hsize⟩
  refine ⟨fun i hi => ?_, fun q k hq hk => ?_, fun q b w hw => ?_⟩
  · rw [hdirty] at hi
    obtain ⟨q, r, hr, rfl, hlk, hact⟩ := h.dirty i hi
    rw [hloc]
    have hr' : r ∈ ((s.setCode p rest).proc q).refs := by rwa [setCode_refs]
    obtain ⟨r', hr', hbuf, hlk'⟩ | ⟨k, r', rfl, rfl, hk, hbuf⟩ := he.locked_refs hr' hlk
    · exact ⟨q, r', hr', hbuf, hlk', hact⟩
    · -- the buffer given back is not a changed one
      rw [setCode_refs] at hk
      have := (h.brelse q k hact (by rw [hcode]; exact List.mem_cons_self)).2 r' hk
      rw [hbuf] at this
      exact absurd (hi.symm.trans this) (by simp)
  · rw [hloc] at hq
    by_cases hqp : q = p
    · subst hqp
      rw [he.code, setCode_code] at hk
      have hbrelse := (h.brelse q k hq (by rw [hcode]; exact List.mem_cons_of_mem _ hk)).1
      rw [hcode, brelseCode, List.cons.injEq] at hbrelse
      rw [hbrelse.2] at hk
      simp at hk
    · rw [he.proc_of_ne hqp, setCode_proc_of_ne hqp] at hk ⊢
      rw [hdirty]
      exact h.brelse q k hq hk
  · rw [hhome]
    rw [hloc] at hw
    exact h.logging q b w hw

/-- A step of the log in which `p` calls no `log_write`. -/
theorem Guarded.setGrp (hs : s.grp.Step p a g) (ha : ∀ b, a ≠ .logWrite b)
    (hact : (s.grp.loc p).active = true → (g.loc p).active = true ∨
      ∀ r ∈ (s.proc p).refs, s.dirty r.buf = false)
    (hcode : (g.loc p).active = true → (s.proc p).code = []) : (s.setGrp g).Guarded := by
  refine ⟨fun i hi => ?_, fun q k hq hk => ?_, fun q b w hw => ?_⟩
  · obtain ⟨q, r, hr, rfl, hlk, hq⟩ := h.dirty i hi
    refine ⟨q, r, hr, rfl, hlk, ?_⟩
    change (g.loc q).active = true
    by_cases hqp : q = p
    · subst hqp
      obtain hact | hclean := hact hq
      · exact hact
      · exact absurd (hi.symm.trans (hclean r hr)) (by simp)
    · rw [hs.active_of_ne hqp]
      exact hq
  · change (g.loc q).active = true at hq
    by_cases hqp : q = p
    · subst hqp
      have hk : BufOp.unlock k ∈ (s.proc q).code := hk
      rw [hcode hq] at hk
      cases hk
    · rw [hs.active_of_ne hqp] at hq
      exact h.brelse q k hq hk
  · have hhome : (s.setGrp g).Home b ↔ s.Home b := home_congr hs.start b
    rw [hhome]
    change g.loc q = _ at hw
    by_cases hqp : q = p
    · subst hqp
      obtain ⟨w', hw'⟩ := hs.logging ha hw
      exact h.logging q b w' hw'
    · exact h.logging q b w ((hs.logging_of_ne hqp).1 hw)

theorem Guarded.mono (hproc : s'.proc = s.proc) (hgrp : s'.grp = s.grp)
    (hdirty : ∀ i, s'.dirty i = true → s.dirty i = true) : s'.Guarded := by
  refine ⟨fun i hi => ?_, fun q k hq hk => ?_, fun q b w hw => ?_⟩
  · rw [hproc, hgrp]
    exact h.dirty i (hdirty i hi)
  · rw [hproc] at hk ⊢
    rw [hgrp] at hq
    obtain ⟨hcode, hclean⟩ := h.brelse q k hq hk
    refine ⟨hcode, fun r hr => ?_⟩
    by_contra hd
    have := hdirty r.buf (by simpa using hd)
    rw [hclean r hr] at this
    cases this
  · rw [hgrp] at hw
    have hhome : s'.Home b ↔ s.Home b := home_congr (by rw [hgrp]; exact ⟨rfl, rfl⟩) b
    rw [hhome]
    exact h.logging q b w hw

theorem Guarded.setCode {c : List BufOp}
    (hc : ∀ k, (s.grp.loc p).active = true → BufOp.unlock k ∈ c →
      c = brelseCode k ∧ ∀ r, (s.proc p).refs[k]? = some r → s.dirty r.buf = false) :
    (s.setCode p c).Guarded := by
  refine ⟨fun i hi => ?_, fun q k hq hk => ?_, h.logging⟩
  · obtain ⟨q, r, hr, hrest⟩ := h.dirty i hi
    exact ⟨q, r, by rwa [setCode_refs], hrest⟩
  · by_cases hqp : q = p
    · subst hqp
      rw [setCode_code] at hk ⊢
      rw [setCode_refs]
      exact hc k hq hk
    · rw [setCode_proc_of_ne hqp] at hk ⊢
      exact h.brelse q k hq hk

theorem Guarded.record (hcode : (s.proc p).code = []) (hl : s.grp.loc p = .logging b .record)
    (hg : (groupMachine N).next s.grp (p, .go) = some g) : ((s.record r).setGrp g).Guarded := by
  have hinOp : g.loc p = .inOp := by
    rw [next_go_logging hl hg]
    simp [GroupState.logWrites]
  have hgrp : (s.setGrp g).Guarded :=
    h.setGrp (groupMachine_step hg) (by simp) (fun _ => .inl (by rw [hinOp]; rfl)) fun _ => hcode
  refine hgrp.mono record_proc rfl fun i hi => ?_
  have hdirty : (s.record r).dirty = update s.dirty r.buf false := rfl
  change (s.record r).dirty i = true at hi
  rw [hdirty, update_apply] at hi
  split_ifs at hi
  exact hi

theorem Guarded.modify (hheld : s.Held) (hpinned : s.Pinned) (hinOp : s.grp.loc p = .inOp)
    (hcode : (s.proc p).code = []) (hr : r ∈ (s.proc p).refs) (hlk : r.locked = true) :
    (s.modify r.buf x).Guarded := by
  have hdirty : (s.modify r.buf x).dirty = update s.dirty r.buf true := rfl
  refine ⟨fun i hi => ?_, fun q k hq hk => ?_, h.logging⟩
  · rw [hdirty, update_apply] at hi
    split_ifs at hi with hir
    · refine ⟨p, r, hr, hir.symm, hlk, ?_⟩
      change (s.grp.loc p).active = true
      rw [hinOp]
      rfl
    · exact h.dirty i hi
  · obtain ⟨hbrelse, hclean⟩ := h.brelse q k hq hk
    refine ⟨hbrelse, fun r' hr' => ?_⟩
    rw [hdirty, update_apply]
    split_ifs with hbuf
    · -- the buffer that `q` is giving back is locked by `q`, not by `p`
      have hsafe := (hpinned.fits q).safe
      rw [hbrelse] at hsafe
      obtain ⟨l, hl, -⟩ := hsafe
      have hr'' : (s.proc q).refs[k]? = some r' := hr'
      have hlk' : r'.locked = true := by
        rw [BufOp.shape, shape_getElem?, hr''] at hl
        cases hb : r'.locked with
        | true => rfl
        | false => simp [hb] at hl
      have hlock := hheld.locked q r' (List.mem_of_getElem? hr'') hlk'
      rw [hbuf, hheld.locked p r hr hlk] at hlock
      obtain rfl := Option.some.inj hlock
      rw [hcode] at hbrelse
      cases hbrelse
    · exact hclean r' hr'

theorem Guarded.logWrite {k : ℕ} (hcaches : s.Caches r.buf r.blk) (hready : s.Ready p)
    (hb : s.Home r.blk)
    (hg : (groupMachine N).next s.grp (p, .logWrite (s.buf r.buf).blockno) = some g) :
    ({ s.setGrp g with proc := update s.proc p { s.proc p with arg := k } } :
      BioState N B).Guarded := by
  have hs := groupMachine_step hg
  have hproc : ∀ q, (update s.proc p { s.proc p with arg := k } q).refs =
      (s.proc q).refs ∧ (update s.proc p { s.proc p with arg := k } q).code =
        (s.proc q).code := setArg_proc k
  have hloc : g.loc p = .logging r.blk .header := by
    rw [(GroupState.next_logWrite hg).2, GroupState.goto_loc, if_pos rfl, hcaches.2]
  have hactive : ∀ q, (s.grp.loc q).active = true → (g.loc q).active = true := fun q hq => by
    by_cases hqp : q = p
    · rw [hqp, hloc]
      rfl
    · rwa [hs.active_of_ne hqp]
  refine ⟨fun i hi => ?_, fun q j hq hk => ?_, fun q b w hw => ?_⟩
  · obtain ⟨q, r', hr', hbuf, hlk, hq⟩ := h.dirty i hi
    exact ⟨q, r', by rwa [(hproc q).1], hbuf, hlk, hactive q hq⟩
  · have hk : BufOp.unlock j ∈ (update s.proc p { s.proc p with arg := k } q).code := hk
    rw [(hproc q).2] at hk
    change (update s.proc p { s.proc p with arg := k } q).code = _ ∧
      ∀ r', (update s.proc p { s.proc p with arg := k } q).refs[j]? = some r' → _
    rw [(hproc q).1, (hproc q).2]
    by_cases hqp : q = p
    · rw [hqp, hready.2.1] at hk
      cases hk
    · exact h.brelse q j (hs.active_of_ne hqp ▸ hq) hk
  · have hhome : (s.setGrp g).Home b ↔ s.Home b := home_congr hs.start b
    change (s.setGrp g).Home b
    rw [hhome]
    change g.loc q = _ at hw
    by_cases hqp : q = p
    · rw [hqp, hloc, LogLoc.logging.injEq] at hw
      exact hw.1 ▸ hb
    · exact h.logging q b w ((hs.logging_of_ne hqp).1 hw)

end

end BioState

end Xv6Container
