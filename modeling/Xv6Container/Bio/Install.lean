import Xv6Container.Bio.Flat

/-!
# Copying blocks to the log and home

`commit` copies the logged blocks to the log region, writes the header, and copies them from the log
region to their places.  `BioState.Progress` says how far it has come: which slots of the log region
hold the contents of their blocks, and that a block is up to date on the disk when its buffer is
unpinned.

The slots have to be blocks of the log region.  Nothing in `log_write` bounds the number of logged
blocks when several processes pass its tests at once; but every logged block has a buffer of its
own, and `write_log` needs one more for the first slot (`Exec.length_live_lt`).
-/

namespace Xv6Container

/-- The number of slots of the log region that `commit` has filled, or has begun to fill. -/
def CommitLoc.logged : CommitLoc → ℕ → ℕ
  | writeLog tail, _ => tail
  | writeHead, n | installTrans _, n | clear, n => n
  | enter, _ | eraseHead, _ | leave, _ => 0

namespace BioState

variable {N B : ℕ} {s s' : BioState N B} {p q : Fin N} {i j : Fin B}

/-- The slot of the log region for the block at place `t` of the header. -/
def slot (s : BioState N B) (t : ℕ) : ℕ := s.grp.log.start + t + 1

/-- How far process `p` has come in `commit`. -/
structure Progress (s : BioState N B) (p : Fin N) (c : CommitLoc) : Prop where
  heads : ∀ b ∈ heads (s.proc p).code (s.shape p), b = s.grp.log.start
  /-- `write_log` copies blocks to their slots, `install_trans` slots to their blocks. -/
  copies : ∀ x y, (x, y) ∈ copies (s.proc p).code (s.shape p) →
    ∃ t b, s.grp.log.lh[t]? = some b ∧ t < c.logged s.grp.log.lh.length ∧
      (c.committed = false ∧ x = s.slot t ∧ y = b ∨ c.committed = true ∧ x = b ∧ y = s.slot t)
  /-- A slot that was to be filled holds the contents of its block, or will after the code. -/
  logged : ∀ t b, t < c.logged s.grp.log.lh.length → s.grp.log.lh[t]? = some b →
    (s.slot t, b) ∈ Xv6Container.copies (s.proc p).code (s.shape p) ∨
      s.disk (s.slot t) = s.flat b
  unwritten : ∀ b ∈ unwritten (s.proc p).code (s.shape p), s.disk b = s.flat b
  /-- With the first slot in a buffer there are more buffers than logged blocks. -/
  spare : 0 < c.logged s.grp.log.lh.length →
    (c.committed = false ∧ ∃ b, (s.proc p).code = writeLogCode (s.slot 0) b) ∨
      s.grp.log.lh.length < B

/-- What the processes write to the disk, and when. -/
structure Installing (s : BioState N B) : Prop where
  outside : ∀ p, (∀ c, s.grp.loc p ≠ .commit c) →
    copies (s.proc p).code (s.shape p) = [] ∧ heads (s.proc p).code (s.shape p) = []
  progress : ∀ p c, s.grp.loc p = .commit c → s.Progress p c
  lh : ∀ b ∈ s.grp.log.lh, s.Home b
  live : ∀ b ∈ s.live, s.Home b

/-- The cache, the log and the disk hold what was last logged. -/
structure Mirrors (s : BioState N B) : Prop where
  counted : s.Counted
  pinned : s.Pinned
  filled : s.Filled
  contents : s.Contents
  guarded : s.Guarded
  installing : s.Installing
  boot : s.boot = .done
  /-- The log region has room for as many blocks as there are buffers. -/
  room : B ≤ s.grp.log.size
  region_pos : 1 < s.grp.log.size

theorem not_home_slot {t : ℕ} (ht : t + 1 < s.grp.log.size) : ¬s.Home (s.slot t) := by
  unfold Home slot
  omega

theorem Mirrors.not_home_start (h : s.Mirrors) : ¬s.Home s.grp.log.start := by
  have := h.region_pos
  unfold Home
  omega

variable {c : CommitLoc} {g : GroupState N} {a : LogAct}

theorem Progress.not_home (h : s.Progress p c) (hB : B ≤ s.grp.log.size)
    (hc : 0 < c.logged s.grp.log.lh.length)
    (hcode : c.committed = false → ∀ b, (s.proc p).code ≠ writeLogCode (s.slot 0) b) {t b : ℕ}
    (ht : s.grp.log.lh[t]? = some b) : ¬s.Home (s.slot t) := by
  have hlt := (List.getElem?_eq_some_iff.1 ht).1
  obtain ⟨hcm, b', hb'⟩ | hspare := h.spare hc
  · exact absurd hb' (hcode hcm b')
  · exact not_home_slot (by omega)

theorem length_live_lt (hheld : s.Held) (hi : ∀ b ∈ s.live, ¬s.Caches i b) :
    s.live.length < B := by
  classical
  have : Nonempty (Fin B) := ⟨i⟩
  have hmap : ∀ b ∈ s.live, ∃ j, s.Caches j b := hheld.pinned
  choose! f hf using hmap
  have hsub : s.live.toFinset.image f ⊆ Finset.univ.erase i := by
    intro j hj
    obtain ⟨b, hb, rfl⟩ := Finset.mem_image.1 hj
    rw [List.mem_toFinset] at hb
    refine Finset.mem_erase.2 ⟨fun hfi => hi b hb (hfi ▸ hf b hb), Finset.mem_univ _⟩
  have hinj : Set.InjOn f s.live.toFinset := by
    intro b hb c hc hbc
    have hb' := hf b (List.mem_toFinset.1 hb)
    have hc' := hf c (List.mem_toFinset.1 hc)
    rw [← hb'.2, ← hc'.2, hbc]
  have hcard := Finset.card_le_card hsub
  rw [Finset.card_image_of_injOn hinj, List.toFinset_card_of_nodup hheld.nodup,
    Finset.card_erase_of_mem (Finset.mem_univ i), Finset.card_univ, Fintype.card_fin] at hcard
  have := i.pos
  omega

theorem Progress.congr (h : s.Progress q c)
    (hcode : (s'.proc q).code = (s.proc q).code) (hrefs : (s'.proc q).refs = (s.proc q).refs)
    (hlh : s'.grp.log.lh = s.grp.log.lh) (hstart : s'.grp.log.start = s.grp.log.start)
    (hdisk : s'.disk = s.disk) (hflat : s'.flat = s.flat) : s'.Progress q c := by
  have hshape : s'.shape q = s.shape q := by rw [shape, shape, hrefs]
  have hslot : ∀ t, s'.slot t = s.slot t := fun t => by rw [slot, slot, hstart]
  refine ⟨?_, ?_, ?_, ?_, ?_⟩
  · rw [hcode, hshape, hstart]
    exact h.heads
  · rw [hcode, hshape, hlh]
    simpa only [hslot] using h.copies
  · rw [hcode, hshape, hlh, hdisk, hflat]
    simpa only [hslot] using h.logged
  · rw [hcode, hshape, hdisk, hflat]
    exact h.unwritten
  · rw [hcode, hlh, hslot]
    exact h.spare

theorem Installing.congr (h : s.Installing) (hcode : ∀ q, (s'.proc q).code = (s.proc q).code)
    (hrefs : ∀ q, (s'.proc q).refs = (s.proc q).refs) (hgrp : s'.grp = s.grp)
    (hdisk : s'.disk = s.disk) (hflat : s'.flat = s.flat) (hlive : s'.live = s.live) :
    s'.Installing := by
  have hshape : ∀ q, s'.shape q = s.shape q := fun q => by rw [shape, shape, hrefs]
  have hhome : ∀ b, s'.Home b ↔ s.Home b := home_congr (by rw [hgrp]; exact ⟨rfl, rfl⟩)
  refine ⟨fun q hq => ?_, fun q c hc => ?_, fun b hb => ?_, fun b hb => ?_⟩
  · rw [hcode, hshape]
    exact h.outside q (hgrp ▸ hq)
  · exact (h.progress q c (hgrp ▸ hc)).congr (hcode q) (hrefs q) (by rw [hgrp]) (by rw [hgrp])
      hdisk hflat
  · rw [hhome]
    exact h.lh b (hgrp ▸ hb)
  · rw [hhome]
    exact h.live b (hlive ▸ hb)

/-! ### Steps of the code -/

theorem Exec.disk {op : BufOp} {l : Shape} (he : s.Exec p op l s')
    (hcopy : ∀ dst src, op ≠ .copy dst src) (hhead : op ≠ .writeHead) : s'.disk = s.disk := by
  cases he with
  | copy => exact absurd rfl (hcopy _ _)
  | writeHead => exact absurd rfl hhead
  | unref =>
    rw [touch_eq]
    rfl
  | full | hit | miss | lock | readHead | bunpin | unlock => rfl

theorem Guarded.clean (h : s.Guarded) (hpinned : s.Pinned)
    (hc : s.grp.loc p = .commit c) (i : Fin B) : s.dirty i = false := by
  by_contra hd
  obtain ⟨q, -, -, -, -, hq⟩ := h.dirty i (by simpa using hd)
  rw [hpinned.grouped.quiet (hpinned.grouped.committing p c hc) q] at hq
  cases hq

section exec

variable {op : BufOp} {rest : List BufOp} {l : Shape} (hcode : (s.proc p).code = op :: rest)
  (hl : op.shape (s.shape p) = some l)

include hcode hl

variable {r : BufRef B}

theorem Mirrors.copy {dst src : ℕ} {d : BufRef B} (h : s.Mirrors) (hop : op = .copy dst src)
    (hd : (s.proc p).refs[dst]? = some d) (hr : (s.proc p).refs[src]? = some r)
    (hrl : r.locked = true) :
    ∃ c t b, s.grp.loc p = .commit c ∧ s.grp.log.lh[t]? = some b ∧ ¬s.Home (s.slot t) ∧
      (s.buf r.buf).data = s.flat b ∧ (c.committed = false ∧ d.blk = s.slot t ∧ r.blk = b ∨
        c.committed = true ∧ d.blk = b ∧ r.blk = s.slot t) := by
  have hmem : (d.blk, r.blk) ∈ copies (s.proc p).code (s.shape p) := by
    rw [hcode, copies, collect_cons hl, hop, BufOp.copies, shape_getElem?, shape_getElem?, hd, hr]
    exact List.mem_append_left _ List.mem_cons_self
  have hcommit : ∃ c, s.grp.loc p = .commit c := by
    by_contra hc
    rw [(h.installing.outside p fun c hc' => hc ⟨c, hc'⟩).1] at hmem
    cases hmem
  obtain ⟨c, hc⟩ := hcommit
  have hprogress := h.installing.progress p c hc
  obtain ⟨t, b, ht, hlt, hcases⟩ := hprogress.copies _ _ hmem
  have hslot : ¬s.Home (s.slot t) := hprogress.not_home h.room (by omega) (fun _ b' hb' => by
    rw [hcode, hop] at hb'
    cases hb') ht
  have hmemr : r ∈ (s.proc p).refs := List.mem_of_getElem? hr
  have hcaches := h.counted.ident p r hmemr
  have hvalid := h.filled p r hmemr hrl
  refine ⟨c, t, b, hc, ht, hslot, ?_, hcases⟩
  obtain ⟨-, -, hrb⟩ | ⟨hcm, -, hrs⟩ := hcases
  · rw [hrb] at hcaches
    exact h.contents.cache _ _ hcaches (h.installing.lh b (List.mem_of_getElem? ht)) hvalid
      (h.guarded.clean h.pinned hc _)
  · rw [hrs] at hcaches
    rw [h.contents.region _ _ hcaches hslot hvalid]
    obtain hpending | hlogged := hprogress.logged t b hlt ht
    · -- `install_trans` writes to no slot
      obtain ⟨t', b', ht', -, ⟨hcm', -, -⟩ | ⟨-, hx, -⟩⟩ := hprogress.copies _ _ hpending
      · rw [hcm] at hcm'
        cases hcm'
      · exact absurd (h.installing.lh b' (List.mem_of_getElem? ht')) (hx ▸ hslot)
    · exact hlogged

theorem Installing.head (h : s.Installing) (hop : op = .writeHead)
    (hr : (s.proc p).refs[0]? = some r) :
    (∃ c, s.grp.loc p = .commit c) ∧ r.blk = s.grp.log.start := by
  have hmem : r.blk ∈ heads (s.proc p).code (s.shape p) := by
    rw [hcode, heads, collect_cons hl, hop, BufOp.heads, shape_getElem?, hr]
    exact List.mem_append_left _ List.mem_cons_self
  by_cases hc : ∃ c, s.grp.loc p = .commit c
  · obtain ⟨c, hc⟩ := hc
    exact ⟨⟨c, hc⟩, (h.progress p c hc).heads _ hmem⟩
  · rw [(h.outside p fun c hc' => hc ⟨c, hc'⟩).2] at hmem
    cases hmem

theorem Installing.unpin {k : ℕ} (h : s.Installing) (hpinned : s.Pinned)
    (hop : op = .bunpin k) (hr : (s.proc p).refs[k]? = some r) : s.disk r.blk = s.flat r.blk := by
  obtain ⟨c, hc, -⟩ := hpinned.mem_live hcode hl hop hr
  refine (h.progress p c hc).unwritten _ ?_
  rw [hcode, unwritten, hop, BufOp.unpins, shape_getElem?, hr]
  exact List.mem_append_left _ List.mem_cons_self

theorem Exec.contents (he : (s.setCode p rest).Exec p op l s') (h : s.Mirrors) :
    s'.Contents := by
  have hcounted := h.counted
  have hset : (s.setCode p rest).Contents :=
    ⟨h.contents.cache, h.contents.disk, h.contents.pinned, h.contents.region⟩
  have hcaches : ∀ r : BufRef B, r ∈ (s.proc p).refs → s.Caches r.buf r.blk :=
    hcounted.ident p
  cases he with
  | hit hall hi => exact Contents.setRefs (hset.setBuf ⟨rfl, rfl, rfl, rfl⟩)
  | @miss b i hall hb hi =>
    refine Contents.setRefs (hset.recycle fun hlive => ?_)
    obtain ⟨j, hj⟩ := hcounted.pinned b hlive
    exact hb j (hcounted.order j) hj
  | full => exact hset.congr ⟨rfl, rfl⟩ (fun _ => ⟨rfl, rfl, rfl, rfl⟩) rfl rfl rfl rfl
  | lock hrefs hfree => exact Contents.setRefs hset.fill
  | @copy dst src d r hd hr hdl hrl =>
    rw [setCode_refs] at hd hr
    obtain ⟨c, t, b, -, ht, hslot, hdata, ⟨-, hdb, -⟩ | ⟨-, hdb, -⟩⟩ :=
      h.copy hcode hl rfl hd hr hrl
    · exact hset.store (hcounted.setCode rest).toHeld
        (hcaches d (List.mem_of_getElem? hd)) fun hb => absurd hb (hdb ▸ hslot)
    · refine hset.store (hcounted.setCode rest).toHeld
        (hcaches d (List.mem_of_getElem? hd)) fun _ => ?_
      rw [hdb]
      exact hdata
  | @writeHead r hr hrl =>
    rw [setCode_refs] at hr
    refine hset.store (hcounted.setCode rest).toHeld (hcaches r (List.mem_of_getElem? hr))
      fun hb => absurd hb ?_
    rw [(h.installing.head hcode hl rfl hr).2]
    exact h.not_home_start
  | readHead => exact hset.congr ⟨rfl, rfl⟩ (fun _ => ⟨rfl, rfl, rfl, rfl⟩) rfl rfl rfl rfl
  | @bunpin k r hr hrl =>
    rw [setCode_refs] at hr
    refine hset.unpin ?_
    change s.disk (s.buf r.buf).blockno = s.flat (s.buf r.buf).blockno
    rw [(hcaches r (List.mem_of_getElem? hr)).2]
    exact h.installing.unpin hcode hl h.pinned rfl hr
  | unlock hr hrl hall => exact Contents.setRefs (hset.setBuf ⟨rfl, rfl, rfl, rfl⟩)
  | @unref k r hr hrl =>
    have hdecref : ((s.setCode p rest).decref r.buf).Contents := hset.setBuf ⟨rfl, rfl, rfl, rfl⟩
    rw [touch_eq]
    exact Contents.setRefs ⟨hdecref.cache, hdecref.disk, hdecref.pinned, hdecref.region⟩

theorem Exec.disk_eq (he : (s.setCode p rest).Exec p op l s') (h : s.Installing)
    (hc : ∀ c, s.grp.loc p ≠ .commit c) : s'.disk = s.disk := by
  obtain ⟨hcopies, hheads⟩ := h.outside p hc
  refine (he.disk ?_ ?_ : s'.disk = s.disk)
  · rintro dst src rfl
    cases he with
    | copy hd hr =>
      rw [setCode_refs] at hd hr
      rw [hcode, copies, collect_cons hl, BufOp.copies, shape_getElem?, shape_getElem?, hd, hr]
        at hcopies
      cases hcopies
  · rintro rfl
    cases he with
    | writeHead hr =>
      rw [setCode_refs] at hr
      obtain ⟨⟨c, hc'⟩, -⟩ := h.head hcode hl rfl hr
      exact hc c hc'

omit hcode hl in
theorem pending_of_not_committed {c : CommitLoc} (hc : c.committed = false) (lh : List ℕ) :
    c.pending lh = lh := by
  cases c with
  | installTrans | clear => cases hc
  | enter | writeLog | writeHead | eraseHead | leave => rfl

omit hcode hl in
theorem Exec.length_live_lt {b : ℕ} (he : (s.setCode p rest).Exec p (.bget b) l s')
    (hcounted : s.Counted) (hN : 2 * N + 1 < 2 ^ 32) (hlive : ∀ b ∈ s.live, s.Home b)
    (hb : ¬s.Home b) (hstop : s'.grp.stop = none) : s.live.length < B := by
  cases he with
  | @hit _ i hall hi =>
    refine BioState.length_live_lt (i := i) hcounted.toHeld fun c hc hic => ?_
    obtain rfl : b = c := hi.2.symm.trans hic.2
    exact hb (hlive b hc)
  | @miss _ i hall hno hi =>
    refine BioState.length_live_lt (i := i) hcounted.toHeld fun c hc hic => ?_
    have := (hcounted.unused hN hi).2
    rw [pins_eq_one hic hc] at this
    cases this
  | full => cases hstop

section

variable (he : (s.setCode p rest).Exec p op l s') (h : s.Mirrors)

include he h

/-- What a step writes to block `x` of the disk. -/
theorem Exec.disk_cases (x : ℕ) :
    (s'.disk x = s.disk x ∧ ∀ y, (x, y) ∉ op.copies (s.shape p)) ∨ x = s.grp.log.start ∨
      ∃ c t b, s.grp.loc p = .commit c ∧ s.grp.log.lh[t]? = some b ∧ ¬s.Home (s.slot t) ∧
        s'.disk x = s.flat b ∧
        (c.committed = false ∧ x = s.slot t ∨ c.committed = true ∧ x = b) := by
  by_cases hcopy : ∃ dst src, op = .copy dst src
  · obtain ⟨dst, src, rfl⟩ := hcopy
    cases he with
    | @copy _ _ d r hd hr hdl hrl =>
      rw [setCode_refs] at hd hr
      have hdisk : ((s.setCode p rest).store d.buf (s.buf r.buf).data).disk x =
          if x = d.blk then (s.buf r.buf).data else s.disk x :=
        store_disk (s := s.setCode p rest) (h.counted.ident p d (List.mem_of_getElem? hd))
      by_cases hx : x = d.blk
      · obtain ⟨c, t, b, hc, ht, hslot, hdata, hcases⟩ := h.copy hcode hl rfl hd hr hrl
        refine .inr (.inr ⟨c, t, b, hc, ht, hslot, ?_, ?_⟩)
        · rw [← hdata]
          exact hdisk.trans (if_pos hx)
        · rw [hx]
          exact hcases.imp (fun hcm => ⟨hcm.1, hcm.2.1⟩) fun hcm => ⟨hcm.1, hcm.2.1⟩
      · refine .inl ⟨hdisk.trans (if_neg hx), fun y hy => hx ?_⟩
        rw [BufOp.copies, shape_getElem?, shape_getElem?, hd, hr] at hy
        simp only [Option.map_some, List.mem_singleton, Prod.mk.injEq] at hy
        exact hy.1
  · have hnone : ∀ y, (x, y) ∉ op.copies (s.shape p) := fun y => by
      cases op with
      | copy dst src => exact absurd ⟨dst, src, rfl⟩ hcopy
      | _ => exact List.not_mem_nil
    by_cases hhead : op = .writeHead
    · subst hhead
      cases he with
      | @writeHead r hr hrl =>
        rw [setCode_refs] at hr
        by_cases hx : x = s.grp.log.start
        · exact .inr (.inl hx)
        · refine .inl ⟨?_, hnone⟩
          have hblk := (h.installing.head hcode hl rfl hr).2
          exact (store_disk (s := s.setCode p rest)
            (h.counted.ident p r (List.mem_of_getElem? hr))).trans (if_neg (by rwa [hblk]))
    · have hdisk := he.disk (fun dst src hop => hcopy ⟨dst, src, hop⟩) hhead
      exact .inl ⟨by rw [hdisk]; rfl, hnone⟩

/-- The step of the process in `commit`. -/
theorem Exec.progress (hN : 2 * N + 1 < 2 ^ 32) (hstop : s'.grp.stop = none) (hgrp : s'.grp = s.grp)
    {c : CommitLoc} (hc : s.grp.loc p = .commit c) : s'.Progress p c := by
  have hprogress := h.installing.progress p c hc
  have hshape : s'.shape p = l := he.shape_eq hstop
  have hrest : (s'.proc p).code = rest := he.code.trans (setCode_code rest)
  have hflat : s'.flat = s.flat := he.flat.1
  have hslot : ∀ t, s'.slot t = s.slot t := fun t => by rw [slot, slot, hgrp]
  have hcollect : ∀ {α : Type} (f : BufOp → Shape → List α),
      collect f (s.proc p).code (s.shape p) = f op (s.shape p) ++ collect f rest l := fun f => by
    rw [hcode, collect_cons hl]
  -- what is unpinned is pinned, and so it is a block outside the log region
  have hhome : ∀ b ∈ Xv6Container.unwritten rest l, s.Home b := fun b hb => by
    refine h.installing.live b ?_
    rw [h.pinned.commit p c hc, unpins, hcollect]
    exact List.mem_append_left _ (List.mem_append_right _ (unwritten_subset _ _ hb))
  refine ⟨fun b hb => ?_, fun x y hxy => ?_, fun t b ht hb => ?_, fun b hb => ?_, fun hpos => ?_⟩
  · rw [hrest, hshape] at hb
    rw [hgrp]
    refine hprogress.heads b ?_
    rw [heads, hcollect]
    exact List.mem_append_right _ hb
  · rw [hrest, hshape] at hxy
    simp only [hgrp, hslot]
    refine hprogress.copies x y ?_
    rw [copies, hcollect]
    exact List.mem_append_right _ hxy
  · rw [hgrp] at ht hb
    rw [hslot, hrest, hshape, hflat]
    obtain ⟨hdisk, hnone⟩ | hstart | ⟨c', t', b', hc', ht', -, hdisk, hcases⟩ :=
      he.disk_cases hcode hl h (s.slot t)
    · rw [hdisk]
      refine (hprogress.logged t b ht hb).imp (fun hmem => ?_) id
      rw [copies, hcollect] at hmem
      exact (List.mem_append.1 hmem).resolve_left (hnone b)
    · unfold slot at hstart
      omega
    · obtain ⟨hcm, hx⟩ | ⟨hcm, hx⟩ := hcases
      · obtain rfl : t = t' := by
          unfold slot at hx
          omega
        obtain rfl : b = b' := Option.some.inj (hb.symm.trans ht')
        exact .inr hdisk
      · -- `install_trans` writes to blocks outside the log region
        obtain rfl : c = c' := by simpa [hc] using hc'
        have hnot := hprogress.not_home h.room (Nat.zero_lt_of_lt ht)
          (fun hcm' => by rw [hcm] at hcm'; cases hcm') hb
        rw [hx] at hnot
        exact absurd (h.installing.lh b' (List.mem_of_getElem? ht')) hnot
  · rw [hrest, hshape] at hb
    rw [hflat]
    obtain ⟨hdisk, hnone⟩ | hstart | ⟨c', t', b', hc', ht', hnot, hdisk, hcases⟩ :=
      he.disk_cases hcode hl h b
    · obtain hb' | ⟨y, hy⟩ := mem_unwritten_cons hl hb
      · rw [hdisk]
        exact hprogress.unwritten b (by rwa [hcode])
      · exact absurd hy (hnone y)
    · exact absurd (hhome b hb) (hstart ▸ h.not_home_start)
    · obtain ⟨-, hx⟩ | ⟨-, rfl⟩ := hcases
      · exact absurd (hhome b hb) (hx ▸ hnot)
      · exact hdisk
  · rw [hgrp] at hpos ⊢
    obtain ⟨hcm, b, hb⟩ | hlt := hprogress.spare hpos
    · right
      rw [hcode, writeLogCode, breadCode] at hb
      obtain rfl : op = .bget (s.slot 0) := by
        simp only [List.cons_append, List.cons.injEq] at hb
        exact hb.1
      have hlive : s.live = s.grp.log.lh := by
        rw [h.pinned.commit p c hc, pending_of_not_committed hcm,
          (h.pinned.fits p).unpins fun c' hc' => ?_, List.nil_append]
        rw [hc, LogLoc.commit.injEq] at hc'
        rw [← hc', hcm]
      rw [← hlive]
      exact he.length_live_lt h.counted hN h.installing.live
        (not_home_slot (by have := h.region_pos; omega)) hstop
    · exact .inr hlt

theorem Exec.installing (hN : 2 * N + 1 < 2 ^ 32) (hstop : s'.grp.stop = none)
    (hgrp : s'.grp = s.grp) : s'.Installing := by
  have hshape : s'.shape p = l := he.shape_eq hstop
  have hrest : (s'.proc p).code = rest := he.code.trans (setCode_code rest)
  have hother : ∀ q, q ≠ p → s'.proc q = s.proc q := fun q hq =>
    (he.proc_of_ne hq).trans (setCode_proc_of_ne hq)
  have hhome : ∀ b, s'.Home b ↔ s.Home b := home_congr (by rw [hgrp]; exact ⟨rfl, rfl⟩)
  refine ⟨fun q hq => ?_, fun q c hc => ?_, fun b hb => ?_, fun b hb => ?_⟩
  · rw [hgrp] at hq
    by_cases hqp : q = p
    · subst hqp
      obtain ⟨hcopies, hheads⟩ := h.installing.outside q hq
      rw [hcode, copies, collect_cons hl, List.append_eq_nil_iff] at hcopies
      rw [hcode, heads, collect_cons hl, List.append_eq_nil_iff] at hheads
      rw [hrest, hshape]
      exact ⟨hcopies.2, hheads.2⟩
    · have hshape' : s'.shape q = s.shape q := by rw [shape, shape, hother q hqp]
      rw [hother q hqp, hshape']
      exact h.installing.outside q hq
  · rw [hgrp] at hc
    by_cases hqp : q = p
    · subst hqp
      exact he.progress hcode hl h hN hstop hgrp hc
    · have hnot : ∀ c', s.grp.loc p ≠ .commit c' := fun c' hc' =>
        hqp (h.pinned.grouped.alone q p c c' hc hc')
      exact (h.installing.progress q c hc).congr (by rw [hother q hqp]) (by rw [hother q hqp])
        (by rw [hgrp]) (by rw [hgrp]) (he.disk_eq hcode hl h.installing hnot) he.flat.1
  · rw [hhome]
    rw [hgrp] at hb
    exact h.installing.lh b hb
  · rw [hhome]
    refine h.installing.live b ?_
    by_cases hop : ∃ k, op = .bunpin k
    · obtain ⟨k, rfl⟩ := hop
      cases he with
      | bunpin => exact List.mem_of_mem_erase hb
    · rw [he.live fun k hk => hop ⟨k, hk⟩] at hb
      exact hb

end

end exec

/-! ### Steps of the log -/

theorem Installing.enter (h : s.Installing) (hpinned : s.Pinned)
    (hc : ∀ c, s.grp.loc p ≠ .commit c) : s.Progress p .enter := by
  obtain ⟨hcopies, hheads⟩ := h.outside p hc
  have hun := (hpinned.fits p).unpins fun c hc' => absurd hc' (hc c)
  refine ⟨fun b hb => ?_, fun x y hxy => ?_, fun t b ht => absurd ht (Nat.not_lt_zero _),
    fun b hb => ?_, fun hpos => absurd hpos (Nat.lt_irrefl _)⟩
  · rw [hheads] at hb
    cases hb
  · rw [hcopies] at hxy
    cases hxy
  · have := unwritten_subset _ _ hb
    rw [hun] at this
    cases this

theorem Installing.setGrp (h : s.Installing) (hpinned : s.Pinned)
    (hs : s.grp.Step p a g) (hl : ∀ c, s.grp.loc p ≠ .commit c)
    (hr : ∀ b, s.grp.loc p ≠ .logging b .record) : (s.setGrp g).Installing := by
  have hlh : g.log.lh = s.grp.log.lh := hs.lh hl hr
  have hhome : ∀ b, (s.setGrp g).Home b ↔ s.Home b := home_congr hs.start
  refine ⟨fun q hq => ?_, fun q c hc => ?_, fun b hb => ?_, fun b hb => ?_⟩
  · refine h.outside q fun c hc => ?_
    by_cases hqp : q = p
    · exact hl c (hqp ▸ hc)
    · exact hq c ((hs.commit_of_ne hqp).2 hc)
  · by_cases hqp : q = p
    · subst hqp
      obtain rfl := hs.enter hl hc
      exact (h.enter hpinned hl).congr rfl rfl hlh hs.start.1 rfl rfl
    · exact (h.progress q c ((hs.commit_of_ne hqp).1 hc)).congr rfl rfl hlh hs.start.1 rfl rfl
  · rw [hhome]
    change b ∈ g.log.lh at hb
    rw [hlh] at hb
    exact h.lh b hb
  · rw [hhome]
    exact h.live b hb

theorem Installing.setCode {c : List BufOp} (h : s.Installing) (hl : ∀ c, s.grp.loc p ≠ .commit c)
    (hcopies : copies c (s.shape p) = []) (hheads : heads c (s.shape p) = []) :
    (s.setCode p c).Installing := by
  refine ⟨fun q hq => ?_, fun q d hd => ?_, h.lh, h.live⟩
  · rw [shape_setCode]
    by_cases hqp : q = p
    · subst hqp
      rw [setCode_code]
      exact ⟨hcopies, hheads⟩
    · rw [setCode_proc_of_ne hqp]
      exact h.outside q hq
  · have hqp : q ≠ p := fun hqp => hl d (hqp ▸ hd)
    exact (h.progress q d hd).congr (by rw [setCode_proc_of_ne hqp]) (setCode_refs c) rfl rfl
      rfl rfl

theorem Installing.record {b : ℕ} {r : BufRef B} (h : s.Installing)
    (hpinned : s.Pinned) (hcaches : s.Caches r.buf r.blk)
    (hl : s.grp.loc p = .logging b .record) (hr : (s.proc p).refs[(s.proc p).arg]? = some r)
    (hb : s.Home b) (hg : (groupMachine N).next s.grp (p, .go) = some g) :
    ((s.record r).setGrp g).Installing := by
  have hs := groupMachine_step hg
  have hact : (s.grp.loc p).active = true := by rw [hl]; rfl
  have hquiet := hpinned.grouped.not_commit (hpinned.grouped.not_committing hact)
  obtain ⟨-, r', hr', -, hblk⟩ := (hpinned.fits p).arg b _ hl
  obtain rfl : r = r' := by simpa [hr] using hr'
  have hgw := next_go_logging hl hg
  have hnot : ∀ q c, g.loc q ≠ .commit c := by
    intro q c hq
    by_cases hqp : q = p
    · rw [hqp, hgw] at hq
      simp [GroupState.logWrites] at hq
    · exact hquiet q c ((hs.commit_of_ne hqp).1 hq)
  have hhome : ∀ c, ((s.record r).setGrp g).Home c ↔ s.Home c := home_congr hs.start
  have hlh : ∀ c ∈ (s.grp.log.record b).lh, s.Home c := fun c hc => by
    obtain rfl | hc := Log.mem_record.1 hc
    · exact hb
    · exact h.lh c hc
  refine ⟨fun q _ => ?_, fun q c hq => absurd hq (hnot q c), fun c hc => ?_, fun c hc => ?_⟩
  · have hproc : ((s.record r).setGrp g).proc = s.proc := record_proc
    have hshape : ((s.record r).setGrp g).shape q = s.shape q := by rw [shape, shape, hproc]
    rw [hproc, hshape]
    exact h.outside q (hquiet q)
  · rw [hhome]
    change c ∈ g.log.lh at hc
    rw [hgw] at hc
    exact hlh c hc
  · rw [hhome]
    change c ∈ (s.record r).live at hc
    rw [record_live (hpinned.live_eq hact), hcaches.2, hblk] at hc
    exact hlh c hc

theorem heads_commitCode {l : Shape} (hl : AllLocked l) (log : Log) (c : CommitLoc) :
    ∀ b ∈ heads (commitCode log c) l, b = log.start := by
  intro b hb
  cases c with
  | enter | clear | leave => cases hb
  | writeHead | eraseHead =>
    rw [commitCode, heads_writeHeadCode hl] at hb
    exact List.mem_singleton.1 hb
  | writeLog tail | installTrans tail =>
    rw [commitCode] at hb
    cases ht : log.lh[tail]? with
    | none =>
      rw [ht] at hb
      cases hb
    | some b' =>
      rw [ht, heads, collect_eq_nil] at hb
      · cases hb
      · simp [BufOp.heads]

theorem copies_commitCode {l : Shape} (hl : AllLocked l) (log : Log) (c : CommitLoc) {x y : ℕ}
    (hxy : (x, y) ∈ copies (commitCode log c) l) : ∃ t b, log.lh[t]? = some b ∧
      (c = .writeLog t ∧ x = log.start + t + 1 ∧ y = b ∨
        c = .installTrans t ∧ x = b ∧ y = log.start + t + 1) := by
  cases c with
  | enter | clear | leave => cases hxy
  | writeHead | eraseHead =>
    rw [copies, collect_eq_nil] at hxy
    · cases hxy
    · simp [commitCode, BufOp.copies]
  | writeLog tail =>
    rw [commitCode] at hxy
    cases ht : log.lh[tail]? with
    | none =>
      rw [ht] at hxy
      cases hxy
    | some b =>
      simp only [ht, copies_writeLogCode hl, List.mem_singleton, Prod.mk.injEq] at hxy
      exact ⟨tail, b, ht, .inl ⟨rfl, hxy⟩⟩
  | installTrans tail =>
    rw [commitCode] at hxy
    cases ht : log.lh[tail]? with
    | none =>
      rw [ht] at hxy
      cases hxy
    | some b =>
      simp only [ht, copies_installCode hl, List.mem_singleton, Prod.mk.injEq] at hxy
      exact ⟨tail, b, ht, .inr ⟨rfl, hxy⟩⟩

theorem unwritten_commitCode {l : Shape} (hl : AllLocked l) (log : Log) (c : CommitLoc) :
    unwritten (commitCode log c) l = [] := by
  by_cases hc : ∃ tail, c = .installTrans tail
  · obtain ⟨tail, rfl⟩ := hc
    rw [commitCode]
    cases log.lh[tail]? with
    | none => rfl
    | some b => exact unwritten_installCode hl _ _
  · refine List.subset_nil.1 fun b hb => ?_
    have := unwritten_subset _ _ hb
    rwa [unpins_eq_nil (bunpin_notMem_commitCode log fun tail htail => hc ⟨tail, htail⟩)] at this

/-- Where a step of `commit` leads to, and what has been logged there. -/
theorem logged_commitStep {d : CommitLoc}
    (hd : (g.commitStep p c).loc p = .commit d) :
    (∀ t, c = .writeLog t → t < g.log.lh.length → d = .writeLog (t + 1)) ∧
    (∀ t, c = .installTrans t → t < g.log.lh.length → d = .installTrans (t + 1)) ∧
    (d.logged (g.commitStep p c).log.lh.length ≤ c.logged g.log.lh.length ∨
      ∃ t, c = .writeLog t ∧ t < g.log.lh.length ∧ d = .writeLog (t + 1)) := by
  cases c with
  | enter =>
    obtain rfl : (if 0 < g.log.lh.length then CommitLoc.writeLog 0 else .leave) = d := by
      simpa [GroupState.commitStep] using hd
    refine ⟨by simp, by simp, .inl ?_⟩
    split_ifs <;> exact le_rfl
  | writeLog tail =>
    obtain rfl : (if tail < g.log.lh.length then CommitLoc.writeLog (tail + 1) else .writeHead) =
        d := by
      simpa [GroupState.commitStep] using hd
    refine ⟨fun t ht hlt => ?_, by simp, ?_⟩
    · cases ht
      rw [if_pos hlt]
    · by_cases hlt : tail < g.log.lh.length
      · exact .inr ⟨tail, rfl, hlt, if_pos hlt⟩
      · left
        rw [if_neg hlt]
        exact not_lt.1 hlt
  | writeHead =>
    obtain rfl : CommitLoc.installTrans 0 = d := by simpa [GroupState.commitStep] using hd
    exact ⟨by simp, by simp, .inl le_rfl⟩
  | installTrans tail =>
    obtain rfl : (if tail < g.log.lh.length then CommitLoc.installTrans (tail + 1) else .clear) =
        d := by
      simpa [GroupState.commitStep] using hd
    refine ⟨by simp, fun t ht hlt => ?_, .inl ?_⟩
    · cases ht
      rw [if_pos hlt]
    · split_ifs <;> exact le_rfl
  | clear =>
    obtain rfl : CommitLoc.eraseHead = d := by simpa [GroupState.commitStep] using hd
    exact ⟨by simp, by simp, .inl (Nat.zero_le _)⟩
  | eraseHead =>
    obtain rfl : CommitLoc.leave = d := by simpa [GroupState.commitStep] using hd
    exact ⟨by simp, by simp, .inl le_rfl⟩
  | leave => simp [GroupState.commitStep, GroupState.wakeup] at hd

theorem lh_commitStep (g : GroupState N) (c : CommitLoc) :
    (g.commitStep p c).log.lh = [] ∨ (g.commitStep p c).log.lh = g.log.lh := by
  cases c with
  | clear => exact .inl rfl
  | enter | writeLog | writeHead | installTrans | eraseHead | leave => exact .inr rfl

/-- The next step of `commit`, with the code of the one before worked through. -/
theorem Mirrors.progress_commitStep {d : CommitLoc} (h : s.Mirrors)
    (hcode : (s.proc p).code = []) (hl : s.grp.loc p = .commit c)
    (hs : s.grp.Step p .go (s.grp.commitStep p c))
    (hd : (s.grp.commitStep p c).loc p = .commit d) :
    (s.commitGo p c (s.grp.commitStep p c)).Progress p d := by
  have hprogress := h.installing.progress p c hl
  have hall := h.pinned.allLocked hcode
  have hdone : ∀ t b, t < c.logged s.grp.log.lh.length → s.grp.log.lh[t]? = some b →
      s.disk (s.slot t) = s.flat b := fun t b ht hb =>
    (hprogress.logged t b ht hb).resolve_left (by rw [hcode]; exact List.not_mem_nil)
  have hspare : 0 < c.logged s.grp.log.lh.length → s.grp.log.lh.length < B := fun hpos => by
    obtain ⟨-, b, hb⟩ | hlt := hprogress.spare hpos
    · rw [hcode] at hb
      cases hb
    · exact hlt
  obtain ⟨hwrite, hinstall, hnext⟩ := logged_commitStep hd
  obtain ⟨hstart, -⟩ := hs.start
  obtain ⟨hcode', hshape⟩ := commitGo_code (s := s) p c (s.grp.commitStep p c)
  have hslot : ∀ t, (s.commitGo p c (s.grp.commitStep p c)).slot t = s.slot t := fun t => by
    change (s.grp.commitStep p c).log.start + t + 1 = s.grp.log.start + t + 1
    rw [hstart]
  refine ⟨fun b hb => ?_, fun x y hxy => ?_, fun t b ht hb => ?_, fun b hb => ?_, fun hpos => ?_⟩
  · rw [hcode', hshape] at hb
    exact (heads_commitCode hall _ _ b hb).trans hstart.symm
  · rw [hcode', hshape] at hxy
    obtain ⟨t, b, ht, ⟨rfl, hx, hy⟩ | ⟨rfl, hx, hy⟩⟩ := copies_commitCode hall _ _ hxy
    · obtain rfl := hwrite t rfl (List.getElem?_eq_some_iff.1 ht).1
      exact ⟨t, b, ht, Nat.lt_succ_self t, .inl ⟨rfl, (hslot t).symm ▸ hx, hy⟩⟩
    · have hlt := (List.getElem?_eq_some_iff.1 ht).1
      obtain rfl := hinstall t rfl hlt
      exact ⟨t, b, ht, hlt, .inr ⟨rfl, hx, (hslot t).symm ▸ hy⟩⟩
  · rw [hcode', hshape, hslot]
    change t < d.logged (s.grp.commitStep p c).log.lh.length at ht
    change (s.grp.commitStep p c).log.lh[t]? = some b at hb
    obtain hnil | hlh := lh_commitStep (p := p) s.grp c
    · rw [hnil] at hb
      cases hb
    · rw [hlh] at ht hb
      rw [hlh] at hnext
      obtain hle | ⟨t', rfl, hlt, rfl⟩ := hnext
      · exact .inr (hdone t b (ht.trans_le hle) hb)
      · obtain hlt' | rfl := Nat.lt_succ_iff_lt_or_eq.1 ht
        · exact .inr (hdone t b hlt' hb)
        · left
          rw [commitCode, hb]
          dsimp only
          rw [copies_writeLogCode hall]
          exact List.mem_singleton.2 rfl
  · rw [hcode', hshape, unwritten_commitCode hall] at hb
    cases hb
  · rw [hcode', hslot]
    change 0 < d.logged (s.grp.commitStep p c).log.lh.length at hpos
    change _ ∨ (s.grp.commitStep p c).log.lh.length < B
    have hlen : (s.grp.commitStep p c).log.lh.length ≤ s.grp.log.lh.length := by
      obtain hnil | hlh := lh_commitStep (p := p) s.grp c
      · rw [hnil]
        exact Nat.zero_le _
      · rw [hlh]
    obtain hle | ⟨t, rfl, hlt, rfl⟩ := hnext
    · exact .inr (hlen.trans_lt (hspare (hpos.trans_le hle)))
    · cases t with
      | zero =>
        left
        refine ⟨rfl, s.grp.log.lh[0], ?_⟩
        rw [commitCode, List.getElem?_eq_getElem hlt]
        rfl
      | succ t => exact .inr (hlen.trans_lt (hspare (Nat.succ_pos t)))

theorem Mirrors.installing_commitStep (h : s.Mirrors)
    (hcode : (s.proc p).code = []) (hl : s.grp.loc p = .commit c)
    (hg : (groupMachine N).next s.grp (p, .go) = some g) :
    (s.commitGo p c g).Installing := by
  have hs := groupMachine_step hg
  obtain rfl := next_go_commit hl hg
  have hhome : ∀ b, (s.commitGo p c (s.grp.commitStep p c)).Home b ↔ s.Home b :=
    home_congr hs.start
  refine ⟨fun q hq => ?_, fun q d hd => ?_, fun b hb => ?_, fun b hb => ?_⟩
  · by_cases hqp : q = p
    · subst hqp
      obtain ⟨d, hd, -⟩ | ⟨-, rfl⟩ := pending_commitStep (p := q) (h.pinned.allLocked hcode) s.grp c
      · exact absurd hd (hq d)
      · have hcode' : ((s.setCode q (commitCode s.grp.log .leave)).proc q).code = [] :=
          setCode_code _
        change copies ((s.setCode q (commitCode s.grp.log .leave)).proc q).code _ = [] ∧
          heads ((s.setCode q (commitCode s.grp.log .leave)).proc q).code _ = []
        rw [hcode']
        exact ⟨rfl, rfl⟩
    · change copies ((s.setCode p _).proc q).code ((s.setCode p _).shape q) = [] ∧
        heads ((s.setCode p _).proc q).code ((s.setCode p _).shape q) = []
      rw [setCode_proc_of_ne hqp, shape_setCode]
      refine h.installing.outside q fun d hd => ?_
      exact hqp (h.pinned.grouped.alone q p d c hd hl)
  · obtain rfl : q = p := by
      by_contra hqp
      exact hqp (h.pinned.grouped.alone q p d c ((hs.commit_of_ne hqp).1 hd) hl)
    exact h.progress_commitStep hcode hl hs hd
  · rw [hhome]
    change b ∈ (s.grp.commitStep p c).log.lh at hb
    obtain hnil | hlh := lh_commitStep (p := p) s.grp c
    · rw [hnil] at hb
      cases hb
    · rw [hlh] at hb
      exact h.installing.lh b hb
  · rw [hhome]
    exact h.installing.live b hb

end BioState

end Xv6Container
