import Xv6Container.Bio.Refs

/-!
# Pins and the log

`log_write` pins the buffer of a block when it adds the block to the header, and `install_trans`
unpins it.  While no process runs `commit`, the pinned blocks are the blocks of the header, so
`install_trans` unpins what was pinned (`BioState.Pinned`).  `recover_from_log` calls the same
`install_trans` with a header that it has read from the disk and no buffer pinned.

* `Counted.exec`, `Exec.pinned` : the steps of the buffer code keep the reference counts right, and
  unpin what `commit` has yet to unpin;
* `Pinned.record`, `Pinned.commitStep` : the pins follow the header through `log_write` and
  `commit`.
-/

namespace Xv6Container

open Function

/-- The blocks that `commit` will go on to unpin when it is done with its current code. -/
def CommitLoc.pending : CommitLoc → List ℕ → List ℕ
  | installTrans tail, lh => lh.drop tail
  | clear, _ => []
  | enter, lh | writeLog _, lh | writeHead, lh | eraseHead, lh | leave, lh => lh

namespace BioState

variable {N B : ℕ} {s s' : BioState N B} {p q : Fin N}

/-- The code of process `p` fits its buffers, and the place it has reached in the code of the
log. -/
structure Fits (s : BioState N B) (p : Fin N) : Prop where
  safe : Safe (s.proc p).code (s.shape p)
  /-- `log_write` is called with a locked buffer of the block it logs. -/
  arg : ∀ b w, s.grp.loc p = .logging b w → (s.proc p).code = [] ∧
    ∃ r, (s.proc p).refs[(s.proc p).arg]? = some r ∧ r.locked = true ∧ r.blk = b
  /-- Only `install_trans` unpins. -/
  unpins : (∀ c, s.grp.loc p = .commit c → c.committed = false) →
    unpins (s.proc p).code (s.shape p) = []
  /-- The header is read at boot only. -/
  loaded : s.boot = .done → BufOp.readHead ∉ (s.proc p).code

/-- The pinned blocks are those that `commit` has yet to unpin. -/
structure Pinned (s : BioState N B) : Prop where
  fits : ∀ p, s.Fits p
  grouped : s.grp.Grouped
  commit : ∀ p c, s.grp.loc p = .commit c →
    s.live = Xv6Container.unpins (s.proc p).code (s.shape p) ++ c.pending s.grp.log.lh
  quiet : (∀ p c, s.grp.loc p ≠ .commit c) → s.live = s.grp.log.lh

theorem Fits.other (h : s.Fits q) (hproc : s'.proc q = s.proc q)
    (hloc : s'.grp.loc q = s.grp.loc q ∨ s.grp.loc q = .asleep ∧ s'.grp.loc q = .begin)
    (hboot : s'.boot = s.boot) : s'.Fits q := by
  have hshape : s'.shape q = s.shape q := by rw [shape, shape, hproc]
  refine ⟨?_, fun b w hl => ?_, fun hc => ?_, fun hb => ?_⟩
  · rw [hproc, hshape]
    exact h.safe
  · rw [hproc]
    obtain hloc | ⟨-, hloc⟩ := hloc
    · exact h.arg b w (hloc ▸ hl)
    · rw [hloc] at hl
      cases hl
  · rw [hproc, hshape]
    refine h.unpins fun c hl => ?_
    obtain hloc | ⟨hloc, -⟩ := hloc
    · exact hc c (hloc.trans hl)
    · rw [hloc] at hl
      cases hl
  · rw [hproc]
    exact h.loaded (hboot ▸ hb)

@[simp] theorem setCode_code (c : List BufOp) : ((s.setCode p c).proc p).code = c := by
  simp [setCode]

theorem setCode_proc_of_ne {c : List BufOp} (hq : q ≠ p) : (s.setCode p c).proc q = s.proc q := by
  simp [setCode, hq]

@[simp] theorem shape_setCode (c : List BufOp) : (s.setCode p c).shape q = s.shape q := by
  rw [shape, shape, setCode_refs]

theorem Counted.setCode (h : s.Counted) (c : List BufOp) : (s.setCode p c).Counted :=
  h.congr (fun _ => setCode_refs c) (fun _ _ => Iff.rfl) (fun _ => rfl) (fun _ => rfl) rfl rfl

theorem Counted.setGrp (h : s.Counted) (g : GroupState N) : (s.setGrp g).Counted :=
  h.congr (fun _ => rfl) (fun _ _ => Iff.rfl) (fun _ => rfl) (fun _ => rfl) rfl rfl

/-! ### Steps of the code -/

/-- A step of the code, with the shape that it leaves. -/
theorem Pinned.exec_inv {op : BufOp} {rest : List BufOp} (h : s.Pinned)
    (hcode : (s.proc p).code = op :: rest) (hexec : (s.setCode p rest).exec p op = some s') :
    ∃ l, op.shape (s.shape p) = some l ∧ (s.setCode p rest).Exec p op l s' := by
  have hsafe := (h.fits p).safe
  rw [hcode] at hsafe
  obtain ⟨l, hl, -⟩ := hsafe
  exact ⟨l, hl, BioState.exec_inv hexec (by rwa [shape_setCode])⟩

section exec

variable {op : BufOp} {rest : List BufOp} {l : Shape} (hcode : (s.proc p).code = op :: rest)
  (hl : op.shape (s.shape p) = some l) (he : (s.setCode p rest).Exec p op l s')

include hcode

theorem unpins_bunpin {k : ℕ} {r : BufRef B} (hop : op = .bunpin k)
    (hr : (s.proc p).refs[k]? = some r) (hl : op.shape (s.shape p) = some l) :
    unpins (s.proc p).code (s.shape p) = r.blk :: unpins rest l := by
  subst hop
  rw [hcode, unpins, collect_cons hl, BufOp.unpins, shape_getElem?, hr]
  rfl

theorem Pinned.mem_live (h : s.Pinned) (hl : op.shape (s.shape p) = some l) {k : ℕ} {r : BufRef B}
    (hop : op = .bunpin k) (hr : (s.proc p).refs[k]? = some r) :
    ∃ c, s.grp.loc p = .commit c ∧ s.live = r.blk :: (unpins rest l ++ c.pending s.grp.log.lh) := by
  have hun := unpins_bunpin hcode hop hr hl
  by_cases hc : ∃ c, s.grp.loc p = .commit c
  · obtain ⟨c, hc⟩ := hc
    exact ⟨c, hc, by rw [h.commit p c hc, hun, List.cons_append]⟩
  · have := (h.fits p).unpins fun c hc' => absurd ⟨c, hc'⟩ hc
    rw [hun] at this
    cases this

include hl he

theorem Counted.exec (h : s.Counted) (hp : s.Pinned) (hN : 2 * N + 1 < 2 ^ 32) : s'.Counted := by
  refine he.counted (h.setCode rest) hN fun k r hop hr => ?_
  rw [setCode_refs] at hr
  obtain ⟨c, -, hlive⟩ := hp.mem_live hcode hl hop hr
  change r.blk ∈ s.live
  rw [hlive]
  exact List.mem_cons_self

/-- What is unpinned is taken off the pinned blocks. -/
theorem Exec.pinned (hcounted : s.Counted) (h : s.Pinned) (hstop : s'.grp.stop = none)
    (hloc : s'.grp.loc = s.grp.loc) (hlh : s'.grp.log.lh = s.grp.log.lh)
    (hg : s'.grp.Grouped) : s'.Pinned := by
  have hshape : s'.shape p = l := he.shape_eq hstop
  have hrest : (s'.proc p).code = rest := he.code.trans (setCode_code rest)
  have hother : ∀ q, q ≠ p → s'.proc q = s.proc q := fun q hq =>
    (he.proc_of_ne hq).trans (setCode_proc_of_ne hq)
  have hfits := h.fits p
  refine ⟨fun q => ?_, hg, fun q c hc => ?_, fun hc => ?_⟩
  · by_cases hq : q = p
    · subst hq
      refine ⟨?_, fun b w hw => ?_, fun hc => ?_, fun hb => ?_⟩
      · have hsafe := hfits.safe
        rw [hcode] at hsafe
        obtain ⟨l', hl', hsafe⟩ := hsafe
        rw [hl, Option.some.injEq] at hl'
        rw [hrest, hshape, hl']
        exact hsafe
      · have := (hfits.arg b w (hloc ▸ hw)).1
        rw [hcode] at this
        cases this
      · have hnil := hfits.unpins (hloc ▸ hc)
        by_cases hop : ∃ k, op = .bunpin k
        · obtain ⟨k, rfl⟩ := hop
          cases he with
          | bunpin hr hrl =>
            rw [setCode_refs] at hr
            rw [unpins_bunpin hcode rfl hr hl] at hnil
            cases hnil
        · rw [hcode, unpins_cons hl fun k hk => hop ⟨k, hk⟩] at hnil
          rw [hrest, hshape]
          exact hnil
      · have := hfits.loaded (he.boot.symm.trans hb)
        rw [hcode] at this
        rw [hrest]
        exact fun hmem => this (List.mem_cons_of_mem _ hmem)
    · exact (h.fits q).other (hother q hq) (.inl (by rw [hloc])) he.boot
  · rw [hloc] at hc
    rw [hlh]
    by_cases hop : ∃ k, op = .bunpin k
    · obtain ⟨k, rfl⟩ := hop
      cases he with
      | @bunpin _ r hr hrl =>
        rw [setCode_refs] at hr
        obtain ⟨c', hc', hlive⟩ := h.mem_live hcode hl rfl hr
        obtain rfl := h.grouped.alone q p c c' hc hc'
        obtain rfl : c = c' := by simpa [hc] using hc'
        have hblk : (s.buf r.buf).blockno = r.blk :=
          (hcounted.ident q r (List.mem_of_getElem? hr)).2
        rw [hrest, hshape]
        change s.live.erase (s.buf r.buf).blockno = _
        rw [hlive, hblk, List.erase_cons_head]
    · have hnot : ∀ k, op ≠ .bunpin k := fun k hk => hop ⟨k, hk⟩
      rw [he.live hnot]
      change s.live = _
      rw [h.commit q c hc]
      by_cases hq : q = p
      · subst hq
        rw [hrest, hshape, hcode, unpins_cons hl hnot]
      · rw [shape, shape, hother q hq]
  · rw [hloc] at hc
    rw [hlh]
    have hnot : ∀ k, op ≠ .bunpin k := by
      rintro k rfl
      cases he with
      | bunpin hr hrl =>
        rw [setCode_refs] at hr
        obtain ⟨c, hc', -⟩ := h.mem_live hcode hl rfl hr
        exact hc p c hc'
    rw [he.live hnot]
    exact h.quiet hc

end exec

/-! ### Steps of the log -/

variable {g : GroupState N} {a : LogAct} {c : CommitLoc} {r : BufRef B}

/-- A step of the log in which `p` logs nothing and is not in `commit`. -/
theorem Pinned.setGrp (h : s.Pinned) (hs : s.grp.Step p a g) (ha : ∀ b, a ≠ .logWrite b)
    (hl : ∀ c, s.grp.loc p ≠ .commit c) (hr : ∀ b, s.grp.loc p ≠ .logging b .record) :
    (s.setGrp g).Pinned := by
  have hgrouped : g.Grouped := h.grouped.step hs
  have hlh : g.log.lh = s.grp.log.lh := hs.lh hl hr
  have hun := (h.fits p).unpins fun c hc => absurd hc (hl c)
  refine ⟨fun q => ?_, hgrouped, fun q c hc => ?_, fun hc => ?_⟩
  · by_cases hq : q = p
    · subst hq
      refine ⟨(h.fits q).safe, fun b w hw => ?_, fun _ => hun, (h.fits q).loaded⟩
      obtain ⟨w', hw'⟩ := hs.logging ha hw
      exact (h.fits q).arg b w' hw'
    · exact (h.fits q).other rfl (hs.loc_of_ne hq) rfl
  · change s.live = _ ++ c.pending g.log.lh
    rw [hlh]
    by_cases hq : q = p
    · subst hq
      obtain rfl := hs.enter hl hc
      have hquiet : ∀ r c', s.grp.loc r ≠ .commit c' := by
        intro r c' hr'
        by_cases hrq : r = q
        · exact hl c' (hrq ▸ hr')
        · exact hrq (hgrouped.alone r q c' _ ((hs.commit_of_ne hrq).2 hr') hc)
      rw [h.quiet hquiet]
      change _ = unpins (s.proc q).code (s.shape q) ++ _
      rw [hun]
      rfl
    · exact h.commit q c ((hs.commit_of_ne hq).1 hc)
  · change s.live = g.log.lh
    rw [hlh]
    refine h.quiet fun q c hq => ?_
    by_cases hqp : q = p
    · exact hl c (hqp ▸ hq)
    · exact hc q c ((hs.commit_of_ne hqp).2 hq)

theorem Pinned.setCode {c : List BufOp} (h : s.Pinned) (hl : ∀ c, s.grp.loc p ≠ .commit c)
    (hw : ∀ b w, s.grp.loc p ≠ .logging b w) (hsafe : Safe c (s.shape p))
    (hun : ∀ k, BufOp.bunpin k ∉ c) (hread : s.boot = .done → BufOp.readHead ∉ c) :
    (s.setCode p c).Pinned := by
  refine ⟨fun q => ?_, h.grouped, fun q d hd => ?_, h.quiet⟩
  · by_cases hq : q = p
    · subst hq
      refine ⟨?_, fun b w hbw => absurd hbw (hw b w), fun _ => ?_, fun hb => ?_⟩
      · rwa [setCode_code, shape_setCode]
      · rw [setCode_code]
        exact unpins_eq_nil hun _
      · rw [setCode_code]
        exact hread hb
    · exact (h.fits q).other (setCode_proc_of_ne hq) (.inl rfl) rfl
  · have hq : q ≠ p := fun hq => hl d (hq ▸ hd)
    rw [setCode_proc_of_ne hq, shape_setCode]
    exact h.commit q d hd

theorem next_go_logging {b : ℕ} {w : LogWriteLoc}
    (hl : s.grp.loc p = .logging b w) (hg : (groupMachine N).next s.grp (p, .go) = some g) :
    g = s.grp.logWrites p b w := by
  simp only [groupMachine, GroupState.code, hl, Option.ite_none_right_eq_some,
    Option.some.injEq] at hg
  exact hg.2.symm

theorem next_go_commit (hl : s.grp.loc p = .commit c)
    (hg : (groupMachine N).next s.grp (p, .go) = some g) : g = s.grp.commitStep p c := by
  simp only [groupMachine, GroupState.code, hl, Option.ite_none_right_eq_some,
    Option.some.injEq] at hg
  exact hg.2.symm

theorem Pinned.live_eq (h : s.Pinned) (hp : (s.grp.loc p).active = true) :
    s.live = s.grp.log.lh :=
  h.quiet fun q c => h.grouped.not_commit (h.grouped.not_committing hp) q c

theorem Counted.record (h : s.Counted) (hd : (s.buf r.buf).dev = ROOTDEV)
    (hlive : s.live = s.grp.log.lh) : (s.record r).Counted := by
  unfold BioState.record
  dsimp only
  split_ifs with hb
  · exact h.congr (fun _ => rfl) (fun _ _ => Iff.rfl) (fun _ => rfl) (fun _ => rfl) rfl rfl
  · have hpin := h.pin hd (hlive ▸ hb)
    exact hpin.congr (fun _ => rfl) (fun _ _ => Iff.rfl) (fun _ => rfl) (fun _ => rfl) rfl rfl

theorem record_proc : (s.record r).proc = s.proc := by
  unfold BioState.record
  dsimp only
  split_ifs <;> rfl

theorem record_boot : (s.record r).boot = s.boot := by
  unfold BioState.record
  dsimp only
  split_ifs <;> rfl

theorem record_buf (i : Fin B) :
    (s.record r).buf i = { s.buf i with refcnt := ((s.record r).buf i).refcnt } := by
  unfold BioState.record
  dsimp only
  split_ifs
  · rfl
  · by_cases hi : i = r.buf
    · subst hi
      simp [incref]
    · simp [incref, hi]

theorem record_live (hlive : s.live = s.grp.log.lh) :
    (s.record r).live = (s.grp.log.record (s.buf r.buf).blockno).lh := by
  unfold BioState.record Log.record
  dsimp only
  split_ifs
  · exact hlive
  · change s.live ++ _ = s.grp.log.lh ++ _
    rw [hlive]

theorem Pinned.record {b : ℕ} (h : s.Pinned)
    (hcaches : s.Caches r.buf r.blk) (hl : s.grp.loc p = .logging b .record)
    (hr : (s.proc p).refs[(s.proc p).arg]? = some r)
    (hg : (groupMachine N).next s.grp (p, .go) = some g) : ((s.record r).setGrp g).Pinned := by
  have hs := groupMachine_step hg
  have hact : (s.grp.loc p).active = true := by rw [hl]; rfl
  have hquiet := h.grouped.not_commit (h.grouped.not_committing hact)
  obtain ⟨hcode, r', hr', -, hblk⟩ := (h.fits p).arg b _ hl
  obtain rfl : r = r' := by simpa [hr] using hr'
  have hgw := next_go_logging hl hg
  have hloc : g.loc p = .inOp := by
    rw [hgw]
    simp [GroupState.logWrites]
  have hlh : g.log.lh = (s.grp.log.record b).lh := by
    rw [hgw]
    rfl
  have hproc : ((s.record r).setGrp g).proc = s.proc := record_proc
  have hshape : ((s.record r).setGrp g).shape p = s.shape p := by rw [shape, shape, hproc]
  have hnot : ∀ q c, g.loc q ≠ .commit c := by
    intro q c hq
    by_cases hqp : q = p
    · rw [hqp, hloc] at hq
      cases hq
    · exact hquiet q c ((hs.commit_of_ne hqp).1 hq)
  refine ⟨fun q => ?_, h.grouped.step hs, fun q c hq => absurd hq (hnot q c), fun _ => ?_⟩
  · by_cases hq : q = p
    · subst hq
      refine ⟨?_, fun b' w hw => ?_, fun _ => ?_, fun _ => ?_⟩
      · rw [hproc, hshape]
        exact (h.fits q).safe
      · change g.loc q = _ at hw
        rw [hloc] at hw
        cases hw
      · rw [hproc, hcode]
        rfl
      · rw [hproc, hcode]
        exact List.not_mem_nil
    · exact (h.fits q).other (by rw [hproc]) (hs.loc_of_ne hq) record_boot
  · change (s.record r).live = g.log.lh
    rw [record_live (h.live_eq hact), hcaches.2, hblk, hlh]

theorem safe_commitCode {l : Shape} (hl : AllLocked l) (log : Log) (c : CommitLoc) :
    Safe (commitCode log c) l := by
  cases c with
  | enter | clear | leave => exact hl
  | writeHead | eraseHead => exact safe_writeHeadCode hl _
  | writeLog tail =>
    rw [commitCode]
    cases log.lh[tail]? with
    | none => exact hl
    | some b => exact safe_writeLogCode hl _ _
  | installTrans tail =>
    rw [commitCode]
    cases log.lh[tail]? with
    | none => exact hl
    | some b => exact safe_installCode hl _ _

theorem readHead_notMem_commitCode (log : Log) (c : CommitLoc) :
    BufOp.readHead ∉ commitCode log c := by
  cases c with
  | enter | clear | leave | writeHead | eraseHead =>
    simp [commitCode]
  | writeLog tail | installTrans tail =>
    rw [commitCode]
    cases log.lh[tail]? <;> simp

theorem bunpin_notMem_commitCode (log : Log) (hc : ∀ tail, c ≠ .installTrans tail)
    (k : ℕ) : BufOp.bunpin k ∉ commitCode log c := by
  cases c with
  | enter | clear | leave | writeHead | eraseHead =>
    simp [commitCode]
  | installTrans tail => exact absurd rfl (hc tail)
  | writeLog tail =>
    rw [commitCode]
    cases log.lh[tail]? <;> simp

/-- A step of `commit` loads code that unpins what is no longer pending. -/
theorem pending_commitStep {l : Shape} (hl : AllLocked l) (g : GroupState N) (c : CommitLoc) :
    (∃ c', (g.commitStep p c).loc p = .commit c' ∧
      c.pending g.log.lh =
        unpins (commitCode g.log c) l ++ c'.pending (g.commitStep p c).log.lh ∧
      (c'.committed = false → unpins (commitCode g.log c) l = [])) ∨
    (g.commitStep p c).loc p = .user ∧ c = .leave := by
  have hnil : (∀ tail, c ≠ .installTrans tail) → unpins (commitCode g.log c) l = [] := fun hc =>
    unpins_eq_nil (bunpin_notMem_commitCode g.log hc) l
  have hgoto : ∀ (g' : GroupState N) (loc : LogLoc), (g'.goto p loc).loc p = loc := by simp
  cases c with
  | enter | writeLog tail =>
    refine .inl ⟨_, hgoto _ _, ?_, fun _ => hnil (by simp)⟩
    rw [hnil (by simp)]
    split_ifs <;> rfl
  | writeHead | eraseHead =>
    refine .inl ⟨_, hgoto _ _, ?_, fun _ => hnil (by simp)⟩
    rw [hnil (by simp)]
    rfl
  | installTrans tail =>
    refine .inl ⟨_, hgoto _ _, ?_, ?_⟩
    · by_cases ht : tail < g.log.lh.length
      · have hb := List.getElem?_eq_getElem ht
        rw [if_pos ht, commitCode, hb]
        dsimp only
        rw [unpins_installCode hl]
        exact List.drop_eq_getElem_cons ht
      · have hnone : g.log.lh[tail]? = none := List.getElem?_eq_none (not_lt.1 ht)
        rw [if_neg ht, commitCode, hnone]
        exact List.drop_eq_nil_of_le (not_lt.1 ht)
    · split_ifs
      · intro hc
        cases hc
      · intro hc
        cases hc
  | clear =>
    exact .inl ⟨.eraseHead, hgoto _ _, rfl, fun _ => rfl⟩
  | leave => exact .inr ⟨by simp [GroupState.commitStep, GroupState.wakeup], rfl⟩

theorem Pinned.allLocked (h : s.Pinned) (hcode : (s.proc p).code = []) :
    AllLocked (s.shape p) := by
  have := (h.fits p).safe
  rwa [hcode] at this

theorem commitGo_code (p : Fin N) (c : CommitLoc) (g : GroupState N) :
    ((s.commitGo p c g).proc p).code = commitCode s.grp.log c ∧
      (s.commitGo p c g).shape p = s.shape p :=
  ⟨setCode_code _, shape_setCode _⟩

theorem Pinned.commitStep (h : s.Pinned)
    (hcode : (s.proc p).code = []) (hl : s.grp.loc p = .commit c)
    (hg : (groupMachine N).next s.grp (p, .go) = some g) :
    (s.commitGo p c g).Pinned := by
  have hs := groupMachine_step hg
  have hgrouped : g.Grouped := h.grouped.step hs
  obtain rfl := next_go_commit hl hg
  have hall := h.allLocked hcode
  have hlive : s.live = c.pending s.grp.log.lh := by
    rw [h.commit p c hl, hcode]
    rfl
  obtain ⟨hcode', hshape⟩ := commitGo_code (s := s) p c (s.grp.commitStep p c)
  have hother : ∀ q d, (s.grp.commitStep p c).loc q = .commit d → q = p := by
    intro q d hq
    by_contra hqp
    exact hqp (h.grouped.alone q p d c ((hs.commit_of_ne hqp).1 hq) hl)
  have hfits : ∀ q, q ≠ p →
      (s.commitGo p c (s.grp.commitStep p c)).Fits q := fun q hq =>
    (h.fits q).other (setCode_proc_of_ne hq) (hs.loc_of_ne hq) rfl
  have hself : ∀ b w, (s.grp.commitStep p c).loc p ≠ .logging b w := fun b w hw => by
    obtain ⟨w', hw'⟩ := hs.logging (by simp) hw
    rw [hl] at hw'
    cases hw'
  obtain ⟨c', hc', hpending, hnil⟩ | ⟨huser, rfl⟩ := pending_commitStep (p := p) hall s.grp c
  · refine ⟨fun q => ?_, hgrouped, fun q d hd => ?_, fun hq => absurd hc' (hq p c')⟩
    · by_cases hq : q = p
      · subst hq
        refine ⟨?_, fun b w hw => absurd hw (hself b w), fun hd => ?_, fun _ => ?_⟩
        · rw [hcode', hshape]
          exact safe_commitCode hall _ _
        · rw [hcode', hshape]
          exact hnil (hd c' hc')
        · rw [hcode']
          exact readHead_notMem_commitCode _ _
      · exact hfits q hq
    · obtain rfl := hother q d hd
      obtain rfl : c' = d := by
        have := hc'.symm.trans hd
        simpa using this
      rw [hcode', hshape]
      exact hlive.trans hpending
  · refine ⟨fun q => ?_, hgrouped, fun q d hd => ?_, fun _ => hlive⟩
    · by_cases hq : q = p
      · subst hq
        refine ⟨?_, fun b w hw => absurd hw (hself b w), fun _ => ?_, fun _ => ?_⟩
        · rw [hcode', hshape]
          exact hall
        · rw [hcode']
          rfl
        · rw [hcode']
          exact List.not_mem_nil
      · exact hfits q hq
    · obtain rfl := hother q d hd
      have := huser.symm.trans hd
      cases this

theorem setArg_proc (k : ℕ) (q : Fin N) :
    (update s.proc p { s.proc p with arg := k } q).refs = (s.proc q).refs ∧
      (update s.proc p { s.proc p with arg := k } q).code = (s.proc q).code := by
  by_cases hq : q = p
  · subst hq
    simp
  · simp [hq]

/-- The call of `log_write`. -/
theorem Pinned.logWrite {k : ℕ} (h : s.Pinned)
    (hcaches : s.Caches r.buf r.blk) (hready : s.Ready p) (hk : (s.proc p).refs[k]? = some r)
    (hlk : r.locked = true)
    (hg : (groupMachine N).next s.grp (p, .logWrite (s.buf r.buf).blockno) = some g) :
    ({ s.setGrp g with proc := update s.proc p { s.proc p with arg := k } } :
      BioState N B).Pinned := by
  have hs := groupMachine_step hg
  obtain ⟨hl, rfl⟩ := GroupState.next_logWrite hg
  have hnot := h.grouped.not_commit (h.grouped.not_committing (p := p) (by rw [hl]; rfl))
  have hnot' : ∀ q c, (s.grp.goto p (.logging (s.buf r.buf).blockno .header)).loc q ≠
      .commit c := by
    intro q c hq
    by_cases hqp : q = p
    · simp [hqp] at hq
    · exact hnot q c ((hs.commit_of_ne hqp).1 hq)
  refine ⟨fun q => ?_, h.grouped.step hs, fun q c hq => absurd hq (hnot' q c),
    fun _ => h.quiet hnot⟩
  by_cases hq : q = p
  · subst hq
    have hcode := (setArg_proc (s := s) (p := q) k q).2.trans hready.2.1
    refine ⟨?_, fun b w hw => ⟨hcode, r, ?_, hlk, ?_⟩, fun _ => ?_, fun _ => ?_⟩
    · have hsafe := (h.fits q).safe
      rw [hready.2.1] at hsafe
      change Safe (update s.proc q { s.proc q with arg := k } q).code
        ((update s.proc q { s.proc q with arg := k } q).refs.map _)
      rw [hcode, (setArg_proc k q).1]
      exact hsafe
    · change (update s.proc q { s.proc q with arg := k } q).refs[
        (update s.proc q { s.proc q with arg := k } q).arg]? = some r
      rw [update_self]
      exact hk
    · change (s.grp.goto q (.logging (s.buf r.buf).blockno .header)).loc q = _ at hw
      simp only [GroupState.goto_loc, if_true, LogLoc.logging.injEq] at hw
      rw [← hw.1]
      exact hcaches.2.symm
    · change unpins (update s.proc q { s.proc q with arg := k } q).code _ = []
      rw [hcode]
      rfl
    · change _ ∉ (update s.proc q { s.proc q with arg := k } q).code
      rw [hcode]
      exact List.not_mem_nil
  · exact (h.fits q).other (update_of_ne hq _ _) (hs.loc_of_ne hq) rfl

end BioState

end Xv6Container
