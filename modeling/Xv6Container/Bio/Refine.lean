import Xv6Container.Bio.Install

/-!
# The buffer cache with the log refines a flat disk

Processes read blocks with `bread`, may change them inside an operation, and log what they have
changed before they give the buffer back (`BioState.Disciplined`).

* `cache_refines_flat` : **`bread` returns what was last logged for a block**, or what was on the
  disk at the start, whatever has been evicted and committed in between; the buffer of a block that
  is logged and not committed is not recycled; and when nothing is logged and no `commit` runs, the
  blocks on the disk are up to date.
-/

namespace Xv6Container

namespace BioState

variable {N B : ℕ} {s s' : BioState N B} {p q initproc : Fin N}

/-- How a process may use buffers: it changes and logs blocks outside the log region, inside an
operation, and neither gives back a buffer nor ends the operation with a change that is not
logged. -/
def Disciplined (s : BioState N B) (l : Fin N × BioAct) : Prop :=
  match l.2 with
  | .modify k _ =>
    s.grp.loc l.1 = .inOp ∧ ∀ r ∈ (s.proc l.1).refs[k]?, s.Home r.blk
  | .logWrite k => ∀ r ∈ (s.proc l.1).refs[k]?, s.Home r.blk
  | .brelse k => ∀ r ∈ (s.proc l.1).refs[k]?, s.dirty r.buf = false
  | .endOp => ∀ r ∈ (s.proc l.1).refs, s.dirty r.buf = false
  | .beginOp | .bread _ | .go | .kill => True

instance : (l : Fin N × BioAct) → Decidable (s.Disciplined l)
  | (_, .modify _ _) => inferInstanceAs (Decidable (_ ∧ ∀ r ∈ _, _))
  | (_, .logWrite _) => inferInstanceAs (Decidable (∀ r ∈ _, _))
  | (_, .brelse _) => inferInstanceAs (Decidable (∀ r ∈ _, _))
  | (_, .endOp) => inferInstanceAs (Decidable (∀ r ∈ _, _))
  | (_, .beginOp) | (_, .bread _) | (_, .go) | (_, .kill) => inferInstanceAs (Decidable True)

theorem Mirrors.sound (h : s.Mirrors) : s.Sound initproc :=
  ⟨h.counted, fun _ => h.pinned, fun _ => h.filled, fun _ hb => absurd h.boot hb⟩

variable {g : GroupState N} {a : LogAct}

theorem Contents.setGrp (h : s.Contents) (hs : s.grp.Step p a g) :
    (s.setGrp g).Contents :=
  h.congr hs.start (fun _ => ⟨rfl, rfl, rfl, rfl⟩) rfl rfl rfl rfl

theorem Contents.setCode {c : List BufOp} (h : s.Contents) : (s.setCode p c).Contents :=
  ⟨h.cache, h.disk, h.pinned, h.region⟩

theorem active_of_go {g g' : GroupState N} (hs : g.Step p .go g') (hp : (g.loc p).active = true) :
    (g'.loc p).active = true := by
  cases hs with
  | outside h => obtain h | h | h := h <;> simp [h, LogLoc.active] at hp
  | begin | test | record => simp [LogLoc.active]
  | tooBig | noTrans => exact hp
  | commit h | head h | clear h | leave h => simp [h] at hp

theorem next_kill (hg : (groupMachine N).next s.grp (p, .kill) = some g) :
    g = s.grp.goto p .begin := by
  have hl := loc_of_next_kill hg
  simp only [groupMachine, hl, Option.ite_none_right_eq_some, Option.some.injEq] at hg
  exact hg.2.symm

theorem next_beginOp
    (hg : (groupMachine N).next s.grp (p, .beginOp) = some g) :
    s.grp.loc p = .user ∧ g = s.grp.goto p .begin := by
  simp only [groupMachine, Option.ite_none_right_eq_some] at hg
  obtain ⟨-, hg⟩ := hg
  cases hl : s.grp.loc p <;> simp_all

theorem Mirrors.of_sound (h : s.Mirrors) (hsound : s'.Sound initproc) (hstop' : s'.grp.stop = none)
    (hcontents : s'.Contents) (hguarded : s'.Guarded) (hinstalling : s'.Installing)
    (hboot : s'.boot = .done) (hsize : s'.grp.log.size = s.grp.log.size) : s'.Mirrors := by
  refine ⟨hsound.counted, hsound.pinned hstop', hsound.filled hstop', hcontents, hguarded,
    hinstalling, hboot, ?_, ?_⟩
  · rw [hsize]
    exact h.room
  · rw [hsize]
    exact h.region_pos

theorem Mirrors.exec {op : BufOp} {rest : List BufOp} (h : s.Mirrors) (hN : 2 * N + 1 < 2 ^ 32)
    (hsound : s'.Sound initproc) (hcode : (s.proc p).code = op :: rest)
    (hexec : (s.setCode p rest).exec p op = some s') (hstop' : s'.grp.stop = none) :
    s'.Mirrors := by
  obtain ⟨l, hl, he⟩ := h.pinned.exec_inv hcode hexec
  have hop : op ≠ .readHead := fun hop =>
    (h.pinned.fits p).loaded h.boot (by rw [hcode, hop]; exact List.mem_cons_self)
  have hgrp : s'.grp = s.grp := he.grp hstop' hop
  exact h.of_sound hsound hstop' (he.contents hcode hl h)
    (he.guarded h.guarded hcode) (he.installing hcode hl h hN hstop' hgrp) (he.boot.trans h.boot)
    (by rw [hgrp])

theorem Mirrors.setGrp (h : s.Mirrors) (hsound : (s.setGrp g).Sound initproc)
    (hstop' : g.stop = none) (hstep : s.grp.Step p a g) (ha : ∀ b, a ≠ .logWrite b)
    (hl : ∀ c, s.grp.loc p ≠ .commit c) (hr : ∀ b, s.grp.loc p ≠ .logging b .record)
    (hact : (s.grp.loc p).active = true → (g.loc p).active = true ∨
      ∀ r ∈ (s.proc p).refs, s.dirty r.buf = false)
    (hcode : (g.loc p).active = true → (s.proc p).code = []) : (s.setGrp g).Mirrors :=
  h.of_sound hsound hstop' (h.contents.setGrp hstep) (h.guarded.setGrp hstep ha hact hcode)
    (h.installing.setGrp h.pinned hstep hl hr) h.boot hstep.start.2

theorem Mirrors.setCode {c : List BufOp} (h : s.Mirrors) (hstop : s.grp.stop = none)
    (hr : s.Ready p) (hsound : (s.setCode p c).Sound initproc)
    (hcopies : ∀ dst src, BufOp.copy dst src ∉ c) (hheads : BufOp.writeHead ∉ c)
    (hc : ∀ k, BufOp.unlock k ∈ c → c = brelseCode k ∧
      ∀ r, (s.proc p).refs[k]? = some r → s.dirty r.buf = false) : (s.setCode p c).Mirrors := by
  refine h.of_sound hsound hstop h.contents.setCode (h.guarded.setCode fun k _ => hc k) ?_
    h.boot rfl
  refine h.installing.setCode hr.not_commit (collect_eq_nil (fun op hop l => ?_) _)
    (collect_eq_nil (fun op hop l => ?_) _)
  · cases op with
    | copy dst src => exact absurd hop (hcopies dst src)
    | _ => rfl
  · cases op with
    | writeHead => exact absurd hop hheads
    | _ => rfl

theorem Mirrors.step {act : BioAct} (h : s.Mirrors) (hN : 2 * N + 1 < 2 ^ 32)
    (hstop : s.grp.stop = none) (hs : s.Step initproc p act s') (hd : s.Disciplined (p, act))
    (hstop' : s'.grp.stop = none) : s'.Mirrors := by
  have hsound := h.sound.step hN hstop hs
  cases hs with
  | exec hcode hexec => exact h.exec hN hsound hcode hexec hstop'
  | boot hp hcode hs =>
    rw [bootStep, h.boot] at hs
    cases hs
  | kill hg =>
    have hl := loc_of_next_kill hg
    refine h.setGrp hsound hstop' (groupMachine_step hg) (by simp) (by simp [hl]) (by simp [hl])
      (by simp [hl, LogLoc.active]) ?_
    rw [next_kill hg]
    simp
  | beginOp hr hg =>
    obtain ⟨hl, hgoto⟩ := next_beginOp hg
    refine h.setGrp hsound hstop' (groupMachine_step hg) (by simp) (by simp [hl]) (by simp [hl])
      (by simp [hl]) ?_
    rw [hgoto]
    simp
  | endOp hr hg =>
    exact h.setGrp hsound hstop' (groupMachine_step hg) (by simp) hr.not_commit
      (fun b => hr.not_logging b _) (fun _ => .inr hd) fun _ => hr.2.1
  | log hb hc hr hl hg =>
    have hstep := groupMachine_step hg
    exact h.setGrp hsound hstop' hstep (by simp) hl hr
      (fun hact => .inl (active_of_go hstep hact)) fun _ => hc
  | @record b r g hb hc hl hr hg =>
    have hmem := List.mem_of_getElem? hr
    have hcaches := h.counted.ident p r hmem
    obtain ⟨-, r', hr', hlk, -⟩ := (h.pinned.fits p).arg b _ hl
    obtain rfl : r = r' := by simpa [hr] using hr'
    have hlive := h.pinned.live_eq (p := p) (by rw [hl]; rfl)
    have hstep := groupMachine_step hg
    have hrec := h.contents.record h.counted.toHeld hcaches (h.filled p r hmem hlk) hlive
    have hgrp : (s.record r).grp = s.grp := by
      unfold BioState.record
      dsimp only
      split_ifs <;> rfl
    exact h.of_sound hsound hstop'
      (hrec.congr (by rw [hgrp]; exact hstep.start) (fun _ => ⟨rfl, rfl, rfl, rfl⟩) rfl rfl rfl rfl)
      (h.guarded.record hc hl hg)
      (h.installing.record h.pinned hcaches hl hr (h.guarded.logging p b _ hl) hg)
      (record_boot.trans h.boot) hstep.start.2
  | @commit c g hb hc hl hg =>
    have hstep := groupMachine_step hg
    have hnot : (s.grp.loc p).active = false := by rw [hl]; rfl
    have hset : (s.setCode p (commitCode s.grp.log c)).Guarded :=
      h.guarded.setCode fun k hact => by rw [hnot] at hact; cases hact
    have hcontents : (s.setCode p (commitCode s.grp.log c)).Contents := h.contents.setCode
    refine h.of_sound hsound hstop' (hcontents.setGrp hstep)
      (hset.setGrp hstep (by simp) (fun hact => ?_) fun hact => ?_)
      (h.installing_commitStep hc hl hg) h.boot hstep.start.2
    · change (s.grp.loc p).active = true at hact
      rw [hnot] at hact
      cases hact
    · rw [next_go_commit hl hg] at hact
      obtain ⟨d, hd, -⟩ | ⟨huser, -⟩ := pending_commitStep (p := p) (h.pinned.allLocked hc) s.grp c
      · rw [hd] at hact
        cases hact
      · rw [huser] at hact
        cases hact
  | @bread b hr =>
    exact h.setCode hstop hr hsound (by simp) (by simp)
      (by simp)
  | @brelse k r hr hk hlk =>
    refine h.setCode hstop hr hsound (by simp) (by simp)
      fun k' hk' => ?_
    obtain rfl : k' = k := by simpa using hk'
    exact ⟨rfl, fun r' hr' => hd r' hr'⟩
  | @modify k r x hr hk hlk =>
    have hmem := List.mem_of_getElem? hk
    obtain ⟨hinOp, hhome⟩ := hd
    exact h.of_sound hsound hstop
      (h.contents.modify (h.counted.ident p r hmem) (hhome r hk))
      (h.guarded.modify h.counted.toHeld h.pinned hinOp hr.2.1 hmem hlk)
      (h.installing.congr (fun _ => rfl) (fun _ => rfl) rfl rfl rfl rfl) h.boot rfl
  | @logWrite k r g hr hk hlk hg =>
    have hcaches := h.counted.ident p r (List.mem_of_getElem? hk)
    have hstep := groupMachine_step hg
    have hgrp := h.installing.setGrp h.pinned hstep hr.not_commit fun b => hr.not_logging b _
    refine h.of_sound hsound hstop'
      (h.contents.congr hstep.start (fun _ => ⟨rfl, rfl, rfl, rfl⟩) rfl rfl rfl rfl)
      (h.guarded.logWrite hcaches hr (hd r hk) hg) ?_ h.boot hstep.start.2
    exact hgrp.congr (fun q => (setArg_proc k q).2) (fun q => (setArg_proc k q).1) rfl rfl rfl rfl

/-! ### Eviction -/

theorem Exec.caches {op : BufOp} {l : Shape} {i : Fin B} {b : ℕ} (he : s.Exec p op l s')
    (hi : s.Caches i b) (hrefcnt : (s.buf i).refcnt ≠ 0) : s'.Caches i b := by
  cases he with
  | hit => exact caches_incref.2 hi
  | @miss c j hall hc hj =>
    have hij : i ≠ j := fun hij => hrefcnt (hij ▸ hj)
    simpa [push, setRefs, Caches, hij] using hi
  | full | readHead => exact hi
  | lock => exact caches_fill.2 hi
  | copy => exact store_caches.2 hi
  | writeHead => exact store_caches.2 hi
  | bunpin => exact caches_decref.2 hi
  | @unlock k r =>
    have hset : (s.setBuf r.buf { s.buf r.buf with lock := none }).Caches i b ↔ s.Caches i b :=
      caches_setBuf (by rfl) (by rfl)
    exact hset.2 hi
  | unref =>
    rw [touch_eq]
    exact caches_decref.2 hi

theorem Mirrors.caches {l : Fin N × BioAct} {i : Fin B} {b : ℕ} (h : s.Mirrors)
    (hi : s.Caches i b) (hrefcnt : (s.buf i).refcnt ≠ 0)
    (hs : (bioMachine N B initproc).next s l = some s') : s'.Caches i b := by
  obtain ⟨p, act⟩ := l
  obtain ⟨-, hs⟩ := bioMachine_step hs
  cases hs with
  | @exec op rest _ hcode hexec =>
    obtain ⟨l, hl, he⟩ := h.pinned.exec_inv hcode hexec
    exact he.caches hi hrefcnt
  | boot hp hcode hs =>
    rw [bootStep, h.boot] at hs
    cases hs
  | @record c r g hb hc hl hr hg =>
    change ((s.record r).buf i).dev = _ ∧ ((s.record r).buf i).blockno = _
    rw [record_buf]
    exact hi
  | modify => exact store_caches.2 hi
  | kill | beginOp | endOp | log | commit | bread | brelse | logWrite => exact hi

theorem Mirrors.bread {rest : List BufOp} (h : s.Mirrors) (hcode : (s.proc p).code = .lock :: rest)
    (hs : (bioMachine N B initproc).next s (p, .go) = some s') :
    ∃ r rs, (s.proc p).refs = r :: rs ∧ (s'.proc p).refs = { r with locked := true } :: rs ∧
      (s.Home r.blk → (s'.buf r.buf).data = s'.flat r.blk) := by
  obtain ⟨-, hs⟩ := bioMachine_step hs
  cases hs with
  | @exec op rest' _ hcode' hexec =>
    obtain ⟨rfl, rfl⟩ : op = .lock ∧ rest' = rest := by simpa [hcode] using hcode'.symm
    obtain ⟨l, -, he⟩ := h.pinned.exec_inv hcode hexec
    cases he with
    | @lock r rs hrefs hfree =>
      rw [setCode_refs] at hrefs
      refine ⟨r, rs, hrefs, by simp, fun hhome => ?_⟩
      have hcaches := h.counted.ident p r (by rw [hrefs]; exact List.mem_cons_self)
      -- nobody has locked the buffer, so nobody has changed it
      have hclean : s.dirty r.buf = false := by
        by_contra hd
        obtain ⟨q, r', hr', hbuf, hlk, -⟩ := h.guarded.dirty r.buf (by simpa using hd)
        exact h.counted.ne_of_unlocked hfree hr' hlk hbuf
      have hfill : (s.fill p r.buf).Contents := h.contents.fill
      exact hfill.cache r.buf r.blk (caches_fill.2 hcaches) hhome (by simp [fill]) hclean
  | log _ hc | record _ hc | commit _ hc =>
    rw [hcode] at hc
    cases hc
  | boot _ hc =>
    rw [hcode] at hc
    cases hc

theorem Idle.mirrors (h : s.Idle) (hboot : s.boot = .done) (hflat : s.flat = s.disk)
    (hdirty : ∀ i, s.dirty i = false) (hroom : B ≤ s.grp.log.size)
    (hpos : 1 < s.grp.log.size) : s.Mirrors := by
  refine ⟨h.counted, h.pinned, h.filled, ⟨fun i b hi _ hv _ => ?_, fun b _ _ => ?_,
    fun i b _ hb => ?_, fun i b hi _ hv => h.read i b hi hv⟩,
    ⟨fun i hi => ?_, fun p k hp => ?_, fun p b w hw => ?_⟩,
    ⟨fun p _ => ?_, fun p c hc => ?_, fun b hb => ?_, fun b hb => ?_⟩, hboot, hroom, hpos⟩
  · rw [hflat]
    exact h.read i b hi hv
  · rw [hflat]
  · rw [h.live] at hb
    cases hb
  · rw [hdirty i] at hi
    cases hi
  · rw [h.grp.user p] at hp
    cases hp
  · rw [h.grp.user p] at hw
    cases hw
  · rw [(h.proc p).2]
    exact ⟨rfl, rfl⟩
  · rw [h.grp.user p] at hc
    cases hc
  · rw [h.grp.lh] at hb
    cases hb
  · rw [h.live] at hb
    cases hb

theorem Mirrors.run {ls : List (Fin N × BioAct)} (h : s.Mirrors) (hN : 2 * N + 1 < 2 ^ 32)
    (hrun : (bioMachine N B initproc).Run Disciplined s ls s') (hstop : s'.grp.stop = none) :
    s'.Mirrors := by
  refine hrun.invariant (I := fun t => t.grp.stop = none → t.Mirrors) (fun _ => h)
    (fun t l t' ht hd hst hstop' => ?_) hstop
  obtain ⟨hstop, hs⟩ := bioMachine_step hst
  exact (ht hstop).step hN hstop hs hd hstop'

end BioState

open BioState in
/-- **The buffer cache with the log refines a flat disk.**  Let the log be empty and nobody have a
buffer at the start, and let the log region have the `LOGSIZE` blocks that it is made with.  In
every state that disciplined processes reach (`flat b` is what was logged last for block `b`, or
what was on the disk at the start):

* the `acquiresleep` that ends `bread(dev, b)` leaves the process with a buffer that holds `flat b`,
  and the buffer holds it until the process changes it;
* a block that is logged and not yet committed has a buffer, whose count is not zero, and which no
  step gives to another block;
* if nothing is logged and `commit` is not running, every block outside the log region is on the
  disk as it was logged last. -/
theorem cache_refines_flat {initproc : Fin NPROC} {s s' : BioState NPROC NBUF}
    {ls : List (Fin NPROC × BioAct)} (h0 : s.Idle) (hboot : s.boot = .done)
    (hflat : s.flat = s.disk) (hdirty : ∀ i, s.dirty i = false) (hsize : LOGSIZE ≤ s.grp.log.size)
    (hrun : (bioMachine NPROC NBUF initproc).Run Disciplined s ls s')
    (hstop : s'.grp.stop = none) :
    (∀ p rest s'', (s'.proc p).code = .lock :: rest →
      (bioMachine NPROC NBUF initproc).next s' (p, .go) = some s'' →
      ∃ r rs, (s'.proc p).refs = r :: rs ∧ (s''.proc p).refs = { r with locked := true } :: rs ∧
        (s'.Home r.blk → (s''.buf r.buf).data = s''.flat r.blk)) ∧
    (∀ p, ∀ r ∈ (s'.proc p).refs, r.locked = true → s'.Home r.blk → s'.dirty r.buf = false →
      (s'.buf r.buf).data = s'.flat r.blk) ∧
    ((∀ p c, s'.grp.loc p = .commit c → c.committed = false) → ∀ b ∈ s'.grp.log.lh,
      ∃ i, s'.Caches i b ∧ (s'.buf i).refcnt ≠ 0 ∧
        ∀ l s'', (bioMachine NPROC NBUF initproc).next s' l = some s'' → s''.Caches i b) ∧
    (s'.grp.log.lh = [] → s'.grp.log.committing = false → ∀ b, s'.Home b →
      s'.disk b = s'.flat b) := by
  have hsize' : 30 ≤ s.grp.log.size := hsize
  have hN : 2 * NPROC + 1 < 2 ^ 32 := by decide
  have h : s'.Mirrors := (h0.mirrors hboot hflat hdirty hsize (by omega)).run hN hrun hstop
  refine ⟨fun p rest s'' hcode hs => h.bread hcode hs, fun p r hr hlk hhome hclean => ?_,
    fun hc b hb => ?_, fun hlh hc b hhome => ?_⟩
  · exact h.contents.cache r.buf r.blk (h.counted.ident p r hr) hhome (h.filled p r hr hlk) hclean
  · have hlive : s'.live = s'.grp.log.lh := by
      by_cases hp : ∃ p c, s'.grp.loc p = .commit c
      · obtain ⟨p, c, hp⟩ := hp
        rw [h.pinned.commit p c hp, pending_of_not_committed (hc p c hp),
          (h.pinned.fits p).unpins (hc p), List.nil_append]
      · exact h.pinned.quiet fun p c hpc => hp ⟨p, c, hpc⟩
    obtain ⟨i, hi⟩ := h.counted.pinned b (hlive ▸ hb)
    have hrefcnt : (s'.buf i).refcnt ≠ 0 := fun hzero => by
      have := (h.counted.unused hN hzero).2
      rw [pins_eq_one hi (hlive ▸ hb)] at this
      cases this
    exact ⟨i, hi, hrefcnt, fun l s'' hs => h.caches hi hrefcnt hs⟩
  · refine h.contents.disk b hhome ?_
    rw [h.pinned.quiet (h.pinned.grouped.not_commit hc), hlh]
    exact List.not_mem_nil

/-- A machine that has booted from the disk `d` with an empty log, and has nothing cached. -/
def booted (d : Disk) : BioState NPROC NBUF := { binit NPROC NBUF 2 30 d with boot := .done }

theorem idle_booted (d : Disk) : (booted d).Idle :=
  have h := idle_binit NPROC NBUF 2 30 d
  ⟨h.grp, h.proc, h.refcnt, h.order, h.uniq, h.read, h.live⟩

/-- Process `1` changes block 50 in an operation of its own, and process `2` reads it. -/
def changesBlock : List (Fin NPROC × BioAct) :=
  [(1, .beginOp), (1, .go), (1, .bread 50), (1, .go), (1, .go), (1, .modify 0 fun _ => 7),
    (1, .logWrite 0)] ++ List.replicate 4 (1, .go) ++ [(1, .brelse 0), (1, .go), (1, .go),
    (1, .endOp)] ++ List.replicate 38 (1, .go) ++ [(2, .bread 50), (2, .go), (2, .go)]

theorem cache_refines_flat_one_op : ∃ s', (bioMachine NPROC NBUF 0).runIf BioState.Disciplined
      (booted fun _ _ => 0) changesBlock = some s' ∧
    s'.flat 50 0 = 7 ∧ s'.disk 50 = s'.flat 50 ∧
    ∀ r ∈ (s'.proc 2).refs, r.locked = true → s'.Home r.blk → s'.dirty r.buf = false →
      (s'.buf r.buf).data = s'.flat r.blk := by
  obtain ⟨s', hs', hflat, hlh, hc, hhome, hstop⟩ : ∃ s', (bioMachine NPROC NBUF 0).runIf
      BioState.Disciplined (booted fun _ _ => 0) changesBlock = some s' ∧ s'.flat 50 0 = 7 ∧
        s'.grp.log.lh = [] ∧ s'.grp.log.committing = false ∧ s'.Home 50 ∧
          s'.grp.stop.isNone = true := exists_of_any (by decide +kernel)
  obtain ⟨-, hread, -, hdisk⟩ := cache_refines_flat (idle_booted _) rfl rfl (fun _ => rfl) le_rfl
    (Machine.runIf_eq_some_iff.1 hs') (Option.isNone_iff_eq_none.1 hstop)
  exact ⟨s', hs', hflat, hdisk hlh hc 50 hhome, hread 2⟩

end Xv6Container
