import Xv6Container.Bio.Pinned

/-!
# Reference counts across boot

`recover_from_log` calls the `install_trans` of `commit`, with a header that it has read from the
disk and no buffer pinned.  If the header is empty there is nothing to install, and the counts are
right from boot on.  Otherwise every block installed leaves its buffer with a count that is one too
low.

* `buffer_refcounts` : **reference counts are exact if the header found at boot is empty**.  In
  every state reached from boot the count of a buffer is the number of pointers to it and its pin,
  and the buffer keeps its block as long as a process has a pointer to it.
* `recovery_unpins` : with a block in the header a process loses the buffer it holds to another
  block.
-/

namespace Xv6Container

open Function

namespace BioState

variable {N B : ℕ} {s s' : BioState N B} {p q initproc : Fin N}

/-! ### Locked buffers are valid -/

/-- A locked buffer has been read from the disk. -/
def Filled (s : BioState N B) : Prop :=
  ∀ p, ∀ r ∈ (s.proc p).refs, r.locked = true → (s.buf r.buf).valid = true

theorem Filled.congr (h : s.Filled) (hrefs : ∀ q, (s'.proc q).refs = (s.proc q).refs)
    (hvalid : ∀ i, (s'.buf i).valid = (s.buf i).valid) : s'.Filled := fun q r hr hlk => by
  rw [hvalid]
  exact h q r (hrefs q ▸ hr) hlk

theorem Filled.setRefs {rs : List (BufRef B)} (h : s.Filled)
    (hrs : ∀ r ∈ rs, r.locked = true → (s.buf r.buf).valid = true) : (s.setRefs p rs).Filled := by
  intro q r hr hlk
  rw [setRefs_refs] at hr
  split_ifs at hr
  · exact hrs r hr hlk
  · exact h q r hr hlk

variable {i : Fin B} {op : BufOp} {l : Shape} {x : Block} {b : BootLoc}

theorem Filled.push {b : ℕ} (h : s.Filled) : (s.push p i b).Filled := by
  refine h.setRefs fun r hr hlk => ?_
  obtain rfl | hr := List.mem_cons.1 hr
  · cases hlk
  · exact h p r hr hlk

theorem Filled.setBuf {b : Buf N} (h : s.Filled)
    (hb : b.valid = (s.buf i).valid ∨ b.valid = true) : (s.setBuf i b).Filled := by
  intro q r hr hlk
  rw [setBuf_buf]
  split_ifs with hi
  · obtain hb | hb := hb
    · rw [hb, ← hi]
      exact h q r hr hlk
    · exact hb
  · exact h q r hr hlk

theorem Exec.filled (he : s.Exec p op l s') (h : s.Filled)
    (hcounted : s.Counted) (hN : 2 * N + 1 < 2 ^ 32) : s'.Filled := by
  cases he with
  | hit hall hi => exact Filled.push (h.setBuf (.inl rfl))
  | @miss b i hall hb hi =>
    refine Filled.push fun q r hr hlk => ?_
    have hne := ne_of_holders_eq_zero (hcounted.unused hN hi).1 hr
    have : ((s.recycle i b).buf r.buf).valid = (s.buf r.buf).valid := by
      simp [hne]
    rw [this]
    exact h q r hr hlk
  | full | readHead => exact h
  | @lock r rs hrefs hfree =>
    have hfill : (s.fill p r.buf).Filled := h.setBuf (.inr rfl)
    refine hfill.setRefs fun r' hr' hlk => ?_
    obtain rfl | hr' := List.mem_cons.1 hr'
    · simp [fill]
    · refine hfill p r' ?_ hlk
      change r' ∈ (s.proc p).refs
      rw [hrefs]
      exact List.mem_cons_of_mem _ hr'
  | copy | writeHead | bunpin => exact h.setBuf (.inl rfl)
  | @unlock k r hr hrl hall =>
    have hbuf : (s.setBuf r.buf { s.buf r.buf with lock := none }).Filled := h.setBuf (.inl rfl)
    refine hbuf.setRefs fun r' hr' hlk => ?_
    obtain hr' | rfl := List.mem_or_eq_of_mem_set hr'
    · exact hbuf p r' hr' hlk
    · cases hlk
  | @unref k r hr hrl =>
    rw [touch_eq]
    have hbuf : (s.decref r.buf).Filled := h.setBuf (.inl rfl)
    exact Filled.setRefs (s := { s.decref r.buf with order := _ }) hbuf fun r' hr' hlk =>
      hbuf p r' (List.mem_of_mem_eraseIdx hr') hlk

/-! ### Boot -/

/-- The code of `read_head` and `write_head`. -/
def HeadCode (start : ℕ) (code : List BufOp) : Prop :=
  (∀ b, BufOp.bget b ∈ code → b = start) ∧ (∀ k, BufOp.bunpin k ∉ code) ∧
    ∀ dst src, BufOp.copy dst src ∉ code

theorem headCode_readHeadCode (start : ℕ) : HeadCode start (readHeadCode start) := by
  simp [HeadCode, readHeadCode]

theorem headCode_writeHeadCode (start : ℕ) : HeadCode start (writeHeadCode start) := by
  simp [HeadCode]

theorem HeadCode.tail {start : ℕ} {rest : List BufOp}
    (h : HeadCode start (op :: rest)) : HeadCode start rest :=
  ⟨fun b hb => h.1 b (List.mem_cons_of_mem _ hb), fun k hk => h.2.1 k (List.mem_cons_of_mem _ hk),
    fun d r hd => h.2.2 d r (List.mem_cons_of_mem _ hd)⟩

/-- The log on the disk is empty, and so is its header in the cache. -/
structure NoLog (s : BioState N B) : Prop where
  disk : getHeader (s.disk s.grp.log.start) = []
  data : ∀ i, s.Caches i s.grp.log.start → (s.buf i).valid = true → getHeader (s.buf i).data = []

/-- The first process recovers from an empty log. -/
structure Booting (initproc : Fin N) (s : BioState N B) : Prop extends s.NoLog where
  user : ∀ q, s.grp.loc q = .user
  others : ∀ q, q ≠ initproc → (s.proc q).code = []
  code : HeadCode s.grp.log.start (s.proc initproc).code
  refs : ∀ r ∈ (s.proc initproc).refs, r.blk = s.grp.log.start
  lh : s.grp.log.lh = []

theorem NoLog.setBuf {b : Buf N} (h : s.NoLog)
    (hb : b.dev = ROOTDEV → b.blockno = s.grp.log.start → b.valid = true → getHeader b.data = []) :
    (s.setBuf i b).NoLog := by
  refine ⟨h.disk, fun j hj hv => ?_⟩
  rw [Caches, setBuf_buf] at hj
  rw [setBuf_buf] at hv ⊢
  change _ ∧ _ = s.grp.log.start at hj
  split_ifs at hj hv ⊢
  · exact hb hj.1 hj.2 hv
  · exact h.data j hj hv

theorem NoLog.store (h : s.NoLog) (hx : getHeader x = []) :
    (s.store i x).NoLog := by
  have hbuf : (s.setBuf i { s.buf i with data := x }).NoLog := h.setBuf fun _ _ _ => hx
  refine ⟨?_, hbuf.data⟩
  change getHeader (update s.disk (s.buf i).blockno x s.grp.log.start) = []
  rw [update_apply]
  split_ifs
  · exact hx
  · exact h.disk

theorem Exec.noLog (he : s.Exec p op l s') (h : s.NoLog)
    (hlh : s.grp.log.lh = []) (hcopy : ∀ dst src, op ≠ .copy dst src) : s'.NoLog := by
  cases he with
  | @hit b i hall hi =>
    have hincref : (s.incref i).NoLog := h.setBuf fun hd hb => h.data i ⟨hd, hb⟩
    exact ⟨hincref.disk, hincref.data⟩
  | @miss b i hall hb hi =>
    have hrecycle : (s.recycle i b).NoLog := h.setBuf fun _ _ hv => by cases hv
    exact ⟨hrecycle.disk, hrecycle.data⟩
  | full | readHead => exact ⟨h.disk, h.data⟩
  | @lock r rs hrefs hfree =>
    have hfill : (s.fill p r.buf).NoLog := by
      refine h.setBuf fun hd hb _ => ?_
      dsimp only at hd hb ⊢
      split_ifs with hv
      · exact h.data r.buf ⟨hd, hb⟩ hv
      · rw [hb]
        exact h.disk
    exact ⟨hfill.disk, hfill.data⟩
  | copy => exact absurd rfl (hcopy _ _)
  | writeHead =>
    refine h.store ?_
    rw [hlh]
    exact getHeader_putHeader (by simp) (by simp)
  | @bunpin k r hr hrl =>
    have hdecref : (s.decref r.buf).NoLog := h.setBuf fun hd hb => h.data _ ⟨hd, hb⟩
    exact ⟨hdecref.disk, hdecref.data⟩
  | @unlock k r hr hrl hall =>
    have hunlock : (s.setBuf r.buf { s.buf r.buf with lock := none }).NoLog :=
      h.setBuf fun hd hb => h.data _ ⟨hd, hb⟩
    exact ⟨hunlock.disk, hunlock.data⟩
  | @unref k r hr hrl =>
    have hdecref : (s.decref r.buf).NoLog := h.setBuf fun hd hb => h.data _ ⟨hd, hb⟩
    rw [touch_eq]
    exact ⟨hdecref.disk, hdecref.data⟩

theorem Exec.mem_refs (he : s.Exec p op l s') {r : BufRef B}
    (hr : r ∈ (s'.proc p).refs) : op = .bget r.blk ∨ ∃ r' ∈ (s.proc p).refs, r'.blk = r.blk := by
  cases he with
  | hit | miss =>
    rw [push, setRefs_refs, if_pos rfl] at hr
    obtain rfl | hr := List.mem_cons.1 hr
    · exact .inl rfl
    · exact .inr ⟨r, hr, rfl⟩
  | full | copy | writeHead | readHead | bunpin => exact .inr ⟨r, hr, rfl⟩
  | @lock r' rs hrefs hfree =>
    rw [setRefs_refs, if_pos rfl] at hr
    obtain rfl | hr := List.mem_cons.1 hr
    · exact .inr ⟨r', by simp [hrefs], rfl⟩
    · exact .inr ⟨r, by simp [hrefs, hr], rfl⟩
  | @unlock k r' hr' hrl hall =>
    rw [setRefs_refs, if_pos rfl] at hr
    obtain hr | rfl := List.mem_or_eq_of_mem_set hr
    · exact .inr ⟨r, hr, rfl⟩
    · exact .inr ⟨r', List.mem_of_getElem? hr', rfl⟩
  | unref =>
    rw [setRefs_refs, if_pos rfl] at hr
    exact .inr ⟨r, List.mem_of_mem_eraseIdx hr, rfl⟩

theorem Exec.start (he : s.Exec p op l s') :
    s'.grp.loc = s.grp.loc ∧ s'.grp.log.start = s.grp.log.start ∧
      s'.grp.log.size = s.grp.log.size ∧ s'.grp.log.outstanding = s.grp.log.outstanding ∧
      s'.grp.log.committing = s.grp.log.committing := by
  cases he with
  | unref =>
    rw [touch_eq]
    exact ⟨rfl, rfl, rfl, rfl, rfl⟩
  | full | hit | miss | lock | copy | writeHead | readHead | bunpin | unlock =>
    exact ⟨rfl, rfl, rfl, rfl, rfl⟩

/-! ### Every step -/

/-- The counts are right; as long as the kernel has not stopped, so are the pins. -/
structure Sound (initproc : Fin N) (s : BioState N B) : Prop where
  counted : s.Counted
  pinned : s.grp.stop = none → s.Pinned
  filled : s.grp.stop = none → s.Filled
  booting : s.grp.stop = none → s.boot ≠ .done → s.Booting initproc

theorem Booting.read {r : BufRef B} (h : s.Booting initproc) (hcounted : s.Counted)
    (hfilled : s.Filled) (hr : r ∈ (s.proc initproc).refs) (hlk : r.locked = true) :
    getHeader (s.buf r.buf).data = [] := by
  refine h.data r.buf ?_ (hfilled initproc r hr hlk)
  rw [← h.refs r hr]
  exact hcounted.ident initproc r hr

theorem Sound.exec {rest : List BufOp} (h : s.Sound initproc)
    (hN : 2 * N + 1 < 2 ^ 32) (hstop : s.grp.stop = none) (hcode : (s.proc p).code = op :: rest)
    (hexec : (s.setCode p rest).exec p op = some s') : s'.Sound initproc := by
  have hpinned := h.pinned hstop
  have hfilled := h.filled hstop
  obtain ⟨l, hl, he⟩ := hpinned.exec_inv hcode hexec
  have hfilled' : (s.setCode p rest).Filled := fun q r hr => by
    rw [setCode_refs] at hr
    exact hfilled q r hr
  obtain ⟨hloc, hstart, -, hout, hcomm⟩ := he.start
  -- only the process that boots has code while the machine boots
  have hp : s.boot ≠ .done → p = initproc := fun hb => by
    by_contra hne
    rw [(h.booting hstop hb).others p hne] at hcode
    cases hcode
  have hlh : s'.grp.stop = none → s'.grp.log.lh = s.grp.log.lh := by
    intro hstop'
    by_cases hop : op = .readHead
    · subst hop
      have hb : s.boot ≠ .done := fun hb => (hpinned.fits p).loaded hb (by simp [hcode])
      have hboot := h.booting hstop hb
      cases he with
      | @readHead r hr hrl =>
        rw [setCode_refs, hp hb] at hr
        rw [hboot.lh]
        exact hboot.read h.counted hfilled (List.mem_of_getElem? hr) hrl
    · rw [he.grp hstop' hop]
      rfl
  refine ⟨h.counted.exec hcode hl he hpinned hN, fun hstop' => ?_, fun _ => ?_,
    fun hstop' hb => ?_⟩
  · refine he.pinned hcode hl h.counted hpinned hstop' hloc (hlh hstop') ?_
    exact hpinned.grouped.of_same hout hcomm (fun q => by rw [hloc]; rfl)
      fun q c hq => ⟨c, by rwa [hloc] at hq⟩
  · exact he.filled hfilled' (h.counted.setCode rest) hN
  · rw [he.boot] at hb
    have hboot := h.booting hstop hb
    obtain rfl := hp hb
    have hhead := hboot.code
    rw [hcode] at hhead
    have hnoLog : (s.setCode p rest).NoLog := ⟨hboot.disk, hboot.data⟩
    refine ⟨he.noLog hnoLog hboot.lh fun d r hop => hhead.2.2 d r (by simp [hop]), fun q => ?_,
      fun q hq => ?_, ?_, fun r hr => ?_, ?_⟩
    · rw [hloc]
      exact hboot.user q
    · rw [he.proc_of_ne hq, setCode_proc_of_ne hq]
      exact hboot.others q hq
    · rw [he.code, setCode_code, hstart]
      exact hhead.tail
    · rw [hstart]
      obtain hop | ⟨r', hr', hblk⟩ := he.mem_refs hr
      · exact hhead.1 _ (by simp [hop])
      · rw [setCode_refs] at hr'
        rw [← hblk]
        exact hboot.refs r' hr'
    · rw [hlh hstop']
      exact hboot.lh

theorem Pinned.setBoot (h : s.Pinned)
    (hread : b = .done → ∀ q, BufOp.readHead ∉ (s.proc q).code) :
    ({ s with boot := b } : BioState N B).Pinned := by
  refine ⟨fun q => ?_, h.grouped, h.commit, h.quiet⟩
  exact ⟨(h.fits q).safe, (h.fits q).arg, (h.fits q).unpins, fun hb => hread hb q⟩

theorem Sound.setBoot (h : s.Sound initproc) (hb : s.boot ≠ .done)
    (hcode : ∀ q, (s.proc q).code = []) : ({ s with boot := b } : BioState N B).Sound initproc := by
  refine ⟨?_, fun hstop => ?_, fun hstop => h.filled hstop, fun hstop _ => ?_⟩
  · exact h.counted.congr (fun _ => rfl) (fun _ _ => Iff.rfl) (fun _ => rfl) (fun _ => rfl) rfl rfl
  · refine (h.pinned hstop).setBoot fun _ q => ?_
    rw [hcode q]
    exact List.not_mem_nil
  · have hboot := h.booting hstop hb
    exact ⟨⟨hboot.disk, hboot.data⟩, hboot.user, hboot.others, hboot.code, hboot.refs, hboot.lh⟩

theorem Sound.headCode {c : List BufOp} (h : s.Sound initproc) (hb : s.boot ≠ .done)
    (hb' : b ≠ .done) (hc : HeadCode s.grp.log.start c)
    (hsafe : s.grp.stop = none → Safe c (s.shape initproc)) :
    ({ s.setCode initproc c with boot := b } : BioState N B).Sound initproc := by
  refine ⟨?_, fun hstop => ?_, fun hstop => ?_, fun hstop _ => ?_⟩
  · exact (h.counted.setCode c).congr (fun _ => rfl) (fun _ _ => Iff.rfl) (fun _ => rfl)
      (fun _ => rfl) rfl rfl
  · have huser := (h.booting hstop hb).user initproc
    have hcode : (s.setCode initproc c).Pinned := (h.pinned hstop).setCode (by simp [huser])
      (by simp [huser]) (hsafe hstop) hc.2.1 fun hd => absurd hd hb
    exact hcode.setBoot fun hd => absurd hd hb'
  · exact (h.filled hstop).congr (fun _ => setCode_refs c) fun _ => rfl
  · have hboot := h.booting hstop hb
    refine ⟨⟨hboot.disk, hboot.data⟩, hboot.user, fun q hq => ?_, ?_, fun r hr => ?_, hboot.lh⟩
    · change ((s.setCode initproc c).proc q).code = []
      rw [setCode_proc_of_ne hq]
      exact hboot.others q hq
    · change HeadCode _ ((s.setCode initproc c).proc initproc).code
      rw [setCode_code]
      exact hc
    · change r ∈ ((s.setCode initproc c).proc initproc).refs at hr
      rw [setCode_refs] at hr
      exact hboot.refs r hr

/-- A step of `recover_from_log`, which finds nothing to install. -/
theorem Sound.boot (h : s.Sound initproc) (hstop : s.grp.stop = none)
    (hcode : (s.proc initproc).code = []) (hs : s.bootStep initproc = some s') :
    s'.Sound initproc := by
  have hb : s.boot ≠ .done := fun hb => by
    rw [bootStep, hb] at hs
    cases hs
  have hboot := h.booting hstop hb
  have hcodes : ∀ q, (s.proc q).code = [] := fun q => by
    by_cases hq : q = initproc
    · rw [hq, hcode]
    · exact hboot.others q hq
  have hall := (h.pinned hstop).allLocked hcode
  unfold bootStep at hs
  cases hloc : s.boot with
  | readHead =>
    simp only [hloc, Option.some.injEq] at hs
    subst hs
    exact h.headCode hb (by simp) (headCode_readHeadCode _) fun _ => safe_readHeadCode hall _
  | installTrans tail =>
    simp only [hloc, hboot.lh, List.getElem?_nil, Option.some.injEq] at hs
    subst hs
    exact h.setBoot hb hcodes
  | clear =>
    have hgrp : { s.grp with log := { s.grp.log with lh := [] } } = s.grp := by
      rw [← hboot.lh]
    simp only [hloc, hgrp, Option.some.injEq] at hs
    subst hs
    exact h.setBoot hb hcodes
  | eraseHead =>
    simp only [hloc, Option.some.injEq] at hs
    subst hs
    exact h.headCode hb (by simp) (headCode_writeHeadCode _) fun _ => safe_writeHeadCode hall _
  | leave =>
    simp only [hloc, Option.some.injEq] at hs
    subst hs
    exact h.setBoot hb hcodes
  | done => exact absurd hloc hb

theorem Sound.of_pinned (h : s.Sound initproc) (hstop : s.grp.stop = none)
    (hcounted : s'.Counted) (hpinned : s'.Pinned) (hb : s'.boot = .done)
    (hrefs : ∀ q, (s'.proc q).refs = (s.proc q).refs)
    (hvalid : ∀ i, (s'.buf i).valid = (s.buf i).valid) : s'.Sound initproc :=
  ⟨hcounted, fun _ => hpinned, fun _ => (h.filled hstop).congr hrefs hvalid,
    fun _ hb' => absurd hb hb'⟩

theorem loc_of_next_kill {g : GroupState N}
    (hg : (groupMachine N).next s.grp (p, .kill) = some g) : s.grp.loc p = .asleep := by
  simp only [groupMachine, Option.ite_none_right_eq_some] at hg
  obtain ⟨-, hg⟩ := hg
  cases hl : s.grp.loc p <;> simp_all

theorem Counted.modify (h : s.Counted) : (s.modify i x).Counted :=
  (h.store (i := i) (x := x)).congr (fun _ => rfl) (fun _ _ => Iff.rfl) (fun _ => rfl)
    (fun _ => rfl) rfl rfl

theorem Pinned.modify (h : s.Pinned) : (s.modify i x).Pinned :=
  ⟨fun q => ⟨(h.fits q).safe, (h.fits q).arg, (h.fits q).unpins, (h.fits q).loaded⟩, h.grouped,
    h.commit, h.quiet⟩

theorem Ready.not_commit (h : s.Ready p) (c : CommitLoc) : s.grp.loc p ≠ .commit c := by
  obtain ⟨-, -, hl | hl⟩ := h <;> simp [hl]

theorem Ready.not_logging (h : s.Ready p) (b : ℕ) (w : LogWriteLoc) :
    s.grp.loc p ≠ .logging b w := by
  obtain ⟨-, -, hl | hl⟩ := h <;> simp [hl]

theorem Sound.step {act : BioAct} (h : s.Sound initproc) (hN : 2 * N + 1 < 2 ^ 32)
    (hstop : s.grp.stop = none) (hs : s.Step initproc p act s') : s'.Sound initproc := by
  have hpinned := h.pinned hstop
  have hcounted := h.counted
  cases hs with
  | exec hcode hexec => exact h.exec hN hstop hcode hexec
  | boot hp hcode hs =>
    subst hp
    exact h.boot hstop hcode hs
  | kill hg =>
    have hl := loc_of_next_kill hg
    have hb : s.boot = .done := by
      by_contra hb
      have := (h.booting hstop hb).user p
      rw [hl] at this
      cases this
    exact h.of_pinned hstop (hcounted.setGrp _)
      (hpinned.setGrp (groupMachine_step hg) (by simp) (by simp [hl]) (by simp [hl])) hb
      (fun _ => rfl) fun _ => rfl
  | beginOp hr hg | endOp hr hg =>
    exact h.of_pinned hstop (hcounted.setGrp _) (hpinned.setGrp (groupMachine_step hg) (by simp)
      hr.not_commit fun b => hr.not_logging b _) hr.1 (fun _ => rfl) fun _ => rfl
  | log hb hc hr hl hg =>
    exact h.of_pinned hstop (hcounted.setGrp _)
      (hpinned.setGrp (groupMachine_step hg) (by simp) hl hr) hb (fun _ => rfl) fun _ => rfl
  | @record b r g hb hc hl hr hg =>
    have hcaches := hcounted.ident p r (List.mem_of_getElem? hr)
    have hlive := hpinned.live_eq (p := p) (by rw [hl]; rfl)
    refine h.of_pinned hstop ((hcounted.record hcaches.1 hlive).setGrp g)
      (hpinned.record hcaches hl hr hg) (record_boot.trans hb) (fun q => ?_) fun i => ?_
    · change ((s.record r).proc q).refs = _
      rw [record_proc]
    · change ((s.record r).buf i).valid = _
      rw [record_buf]
  | commit hb hc hl hg =>
    exact h.of_pinned hstop ((hcounted.setCode _).setGrp _) (hpinned.commitStep hc hl hg) hb
      (fun _ => setCode_refs _) fun _ => rfl
  | @bread b hr =>
    exact h.of_pinned hstop (hcounted.setCode _) (hpinned.setCode hr.not_commit hr.not_logging
      (safe_breadCode (hpinned.allLocked hr.2.1) b) (by simp) (by simp))
      hr.1 (fun _ => setCode_refs _) fun _ => rfl
  | @brelse k r hr hk hlk =>
    have hlt : k < (s.shape p).length := by
      rw [shape, List.length_map]
      exact (List.getElem?_eq_some_iff.1 hk).1
    exact h.of_pinned hstop (hcounted.setCode _) (hpinned.setCode hr.not_commit hr.not_logging
      (safe_brelseCode (hpinned.allLocked hr.2.1) hlt) (by simp) (by simp))
      hr.1 (fun _ => setCode_refs _) fun _ => rfl
  | @modify k r x hr hk hlk =>
    exact h.of_pinned hstop hcounted.modify hpinned.modify hr.1 (fun _ => rfl)
      (setBuf_part Buf.valid rfl)
  | @logWrite k r g hr hk hlk hg =>
    have hcaches := hcounted.ident p r (List.mem_of_getElem? hk)
    refine h.of_pinned hstop ?_ (hpinned.logWrite hcaches hr hk hlk hg) hr.1
      (fun q => (setArg_proc k q).1) fun _ => rfl
    exact hcounted.congr (fun q => (setArg_proc k q).1) (fun _ _ => Iff.rfl) (fun _ => rfl)
      (fun _ => rfl) rfl rfl

/-- Nobody has a buffer, nothing is logged, and the buffers that have been read agree with the
disk. -/
structure Idle (s : BioState N B) : Prop where
  grp : s.grp.Booted
  proc : ∀ p, (s.proc p).refs = [] ∧ (s.proc p).code = []
  refcnt : ∀ i, (s.buf i).refcnt = 0
  order : ∀ i, i ∈ s.order
  uniq : ∀ i j b, s.Caches i b → s.Caches j b → i = j
  read : ∀ i b, s.Caches i b → (s.buf i).valid = true → (s.buf i).data = s.disk b
  live : s.live = []

theorem Idle.counted (h : s.Idle) : s.Counted where
  ident p r hr := by simp [(h.proc p).1] at hr
  locked p r hr := by simp [(h.proc p).1] at hr
  single p i := by simp [(h.proc p).1]
  waiting p := by simp [(h.proc p).1]
  order := h.order
  uniq := h.uniq
  pinned b hb := by simp [h.live] at hb
  nodup := by simp [h.live]
  refcnt i := by
    have hcount : s.count i = 0 := by simp [count, holders, pins, h.proc, h.live]
    rw [hcount]
    exact h.refcnt i

theorem Idle.pinned (h : s.Idle) : s.Pinned := by
  have huser := h.grp.user
  refine ⟨fun p => ⟨?_, fun b w hw => ?_, fun _ => ?_, fun _ => ?_⟩, h.grp.recorded.grouped,
    fun p c hc => ?_, fun _ => ?_⟩
  · rw [(h.proc p).2, shape, (h.proc p).1]
    exact fun x hx => absurd hx List.not_mem_nil
  · rw [huser p] at hw
    cases hw
  · rw [(h.proc p).2]
    rfl
  · rw [(h.proc p).2]
    exact List.not_mem_nil
  · rw [huser p] at hc
    cases hc
  · rw [h.live, h.grp.lh]

theorem Idle.filled (h : s.Idle) : s.Filled := fun p r hr => by
  rw [(h.proc p).1] at hr
  cases hr

theorem Idle.sound (h : s.Idle) (hn : headerN (s.disk s.grp.log.start) = 0) :
    s.Sound initproc := by
  have hdisk : getHeader (s.disk s.grp.log.start) = [] := by simp [getHeader, hn]
  refine ⟨h.counted, fun _ => h.pinned, fun _ => h.filled, fun _ _ => ⟨⟨hdisk, fun i hi hv => ?_⟩,
    h.grp.user, fun q _ => (h.proc q).2, ?_, fun r hr => ?_, h.grp.lh⟩⟩
  · rw [h.read i _ hi hv]
    exact hdisk
  · rw [(h.proc initproc).2]
    simp [HeadCode]
  · rw [(h.proc initproc).1] at hr
    cases hr

end BioState

/-- **Reference counts are exact if the log is empty at boot.**  In every state that the processes
reach from there, the reference count of every buffer is the number of pointers to it that processes
have, plus its pin; and the buffer of every pointer is still the buffer of the block that it was got
for. -/
theorem buffer_refcounts {B : ℕ} {initproc : Fin NPROC} {s s' : BioState NPROC B}
    {ls : List (Fin NPROC × BioAct)} (h0 : s.Idle)
    (hn : headerN (s.disk s.grp.log.start) = 0)
    (h : (bioMachine NPROC B initproc).Run (fun _ _ => True) s ls s') :
    (∀ i, (s'.buf i).refcnt.toNat = s'.holders i + s'.pins i) ∧
      ∀ p, ∀ r ∈ (s'.proc p).refs, s'.Caches r.buf r.blk := by
  have hsound : s'.Sound initproc := h.invariant (h0.sound hn) fun _ _ _ hs _ hst =>
    hs.step (by decide) (bioMachine_step hst).1 (bioMachine_step hst).2
  exact ⟨hsound.counted.toNat_refcnt (by decide), hsound.counted.ident⟩

/-! ### Booting from a disk -/

/-- The state in which `initlog` finds the disk `d`: `binit` has put the buffers on the list. -/
def binit (N B start size : ℕ) (d : Disk) : BioState N B where
  grp := initlog N start size
  buf _ := { valid := false, dev := 0, blockno := 0, lock := none, refcnt := 0, data := fun _ => 0 }
  order := (List.finRange B).reverse
  disk := d
  proc _ := { refs := [], code := [], arg := 0 }
  boot := .readHead
  live := []
  flat := d
  dirty _ := false

theorem idle_binit (N B start size : ℕ) (d : Disk) : (binit N B start size d).Idle where
  grp := booted_initlog N start size
  proc _ := ⟨rfl, rfl⟩
  refcnt _ := rfl
  order i := List.mem_reverse.2 (List.mem_finRange i)
  uniq i j b hi _ := absurd hi.1 (by simp [binit, ROOTDEV])
  read i b hi _ := absurd hi.1 (by simp [binit, ROOTDEV])
  live := rfl

/-- A disk whose log has the header `lh`. -/
def diskWithLog (start : ℕ) (lh : List ℕ) : Disk :=
  update (fun _ _ => 0) start (putHeader (fun _ => 0) lh)

/-- The first process recovers from a log with `n` blocks. -/
def recovers (n : ℕ) : List (Fin NPROC × BioAct) := List.replicate (15 + 11 * n) (0, .go)

theorem buffer_refcounts_clean : ∃ s', (bioMachine NPROC NBUF 0).run
      (binit NPROC NBUF 2 31 (diskWithLog 2 []))
        (recovers 0 ++ [(1, .bread 50), (1, .go), (1, .go), (2, .bread 60), (2, .go)]) = some s' ∧
    s'.boot = .done ∧ ∀ i, (s'.buf i).refcnt.toNat = s'.holders i + s'.pins i := by
  obtain ⟨s', hs', hdone⟩ : ∃ s', (bioMachine NPROC NBUF 0).run
      (binit NPROC NBUF 2 31 (diskWithLog 2 []))
        (recovers 0 ++ [(1, .bread 50), (1, .go), (1, .go), (2, .bread 60), (2, .go)]) = some s' ∧
    s'.boot = .done := exists_of_any (by decide +kernel)
  exact ⟨s', hs', hdone,
    (buffer_refcounts (idle_binit _ _ _ _ _) (by decide) (Machine.run_eq_some_iff.1 hs')).1⟩

/-- **A crash costs a process its buffer.**  The log found at boot has one block, and recovery
unpins its buffer, which nobody has pinned.  A process then reads the block, and another process
reads a block that has no buffer: it is given the buffer of the first. -/
theorem recovery_unpins : ∃ s', (bioMachine NPROC NBUF 0).run
      (binit NPROC NBUF 2 31 (diskWithLog 2 [50]))
        (recovers 1 ++ [(1, .bread 50), (1, .go), (1, .go), (2, .bread 60), (2, .go)]) = some s' ∧
    s'.boot = .done ∧ ∃ r ∈ (s'.proc 1).refs, r.blk = 50 ∧ r.locked = true ∧ s'.Caches r.buf 60 ∧
      s'.holders r.buf = 2 ∧ (s'.buf r.buf).refcnt = 1 :=
  exists_of_any (by decide +kernel)

end Xv6Container
