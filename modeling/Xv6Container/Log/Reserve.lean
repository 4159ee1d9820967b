import Xv6Container.Log.Group

/-!
# Log space

`begin_op` lets an operation begin only when the log has room for `MAXOPBLOCKS` more blocks, for
it and for every operation in progress.  So the blocks logged, and the blocks that the operations
in progress may still log, fit in the log together (`GroupState.Reserved`), also while operations
that have ended leave their blocks behind and others absorb blocks.

`log_write` refuses to log in a full log, before it looks whether the block is logged already.  So
an operation that has logged `MAXOPBLOCKS` blocks may find the log full when it logs one of them
again:

* `absorption_panics` : three operations log ten blocks each, and one of them logs a block twice;
* `log_space` : **`log_write` never panics** in a run in which no operation logs once more after it
  has logged `MAXOPBLOCKS` blocks, and the blocks in the header are distinct and at most `LOGSIZE`.
-/

namespace Xv6Container

open Function

namespace GroupState

variable {N : ℕ} {s s' : GroupState N} {p q : Fin N} {a : LogAct}

/-- The blocks that the operation of process `p` has logged. -/
def blocks (s : GroupState N) (p : Fin N) : Finset ℕ :=
  ((s.writes.filter fun w => w.op = s.op p).map LogRecord.block).toFinset

/-- How many more blocks the operation of process `p` may log. -/
def reserve (s : GroupState N) (p : Fin N) : ℕ :=
  if (s.loc p).active = true then MAXOPBLOCKS - (s.blocks p).card else 0

theorem mem_blocks {b : ℕ} : b ∈ s.blocks p ↔ ∃ w ∈ s.writes, w.op = s.op p ∧ w.block = b := by
  simp [blocks, and_assoc]

theorem blocks_congr (hw : s'.writes = s.writes) (hop : s'.op p = s.op p) :
    s'.blocks p = s.blocks p := by
  simp only [blocks, hw, hop]

theorem Recorded.blocks_subset (h : s.Recorded) (hp : (s.loc p).active = true) {b : ℕ}
    (hb : b ∈ s.blocks p) : b ∈ s.log.lh := by
  obtain ⟨w, hw, hop, rfl⟩ := mem_blocks.1 hb
  exact h.now w hw (h.current p hp w hw hop)

theorem reserve_le_sum : ∑ q, s.reserve q ≤
    (Finset.univ.filter fun q => (s.loc q).active = true).card * MAXOPBLOCKS := by
  rw [Finset.card_filter, Finset.sum_mul]
  refine Finset.sum_le_sum fun q _ => ?_
  unfold reserve
  split_ifs
  · rw [Nat.one_mul]
    exact Nat.sub_le ..
  · exact Nat.zero_le _

/-- The log has room. -/
structure Space (s : GroupState N) : Prop where
  /-- Operations in progress have different numbers. -/
  distinct : ∀ p q, (s.loc p).active = true → (s.loc q).active = true → s.op p = s.op q → p = q
  nodup : s.log.lh.Nodup
  /-- What is logged and what may still be logged fit in the log. -/
  room : s.log.lh.length + ∑ q, s.reserve q ≤ LOGSIZE
  /-- A process in `log_write` may log another block. -/
  pending : ∀ p b w, s.loc p = .logging b w → (s.blocks p).card < MAXOPBLOCKS
  region : LOGSIZE + 1 ≤ s.log.size
  stop : s.stop ≠ some (.panic "too big a transaction")

/-- The invariant of the log space. -/
structure Reserved (s : GroupState N) : Prop extends Space s where
  recorded : s.Recorded

/-- **There is room** for a process in `log_write`. -/
theorem Reserved.length_lt (h : s.Reserved) {b : ℕ} {w : LogWriteLoc}
    (hp : s.loc p = .logging b w) : s.log.lh.length < LOGSIZE := by
  have hres : s.reserve p = MAXOPBLOCKS - (s.blocks p).card := by
    rw [reserve, hp]
    rfl
  have hle : s.reserve p ≤ ∑ q, s.reserve q :=
    Finset.single_le_sum (f := s.reserve) (fun q _ => Nat.zero_le _) (Finset.mem_univ p)
  have := h.pending p b w hp
  have := h.room
  omega

theorem Space.mono (h : s.Space) (hw : s'.writes = s.writes)
    (hop : s'.op = s.op) (hlh : s'.log.lh = s.log.lh) (hsize : s'.log.size = s.log.size)
    (hact : ∀ q, (s'.loc q).active = true → (s.loc q).active = true)
    (hpend : ∀ q b w, s'.loc q = .logging b w → (s.blocks q).card < MAXOPBLOCKS)
    (hstop : s'.stop ≠ some (.panic "too big a transaction")) : s'.Space where
  distinct q r hq hr := by
    rw [hop]
    exact h.distinct q r (hact q hq) (hact r hr)
  nodup := by rw [hlh]; exact h.nodup
  room := by
    have hle : ∑ q, s'.reserve q ≤ ∑ q, s.reserve q := by
      refine Finset.sum_le_sum fun q _ => ?_
      unfold reserve
      rw [blocks_congr hw (congrFun hop q)]
      split_ifs with h1 h2
      · exact le_rfl
      · exact absurd (hact q h1) h2
      · exact Nat.zero_le _
      · exact le_rfl
    rw [hlh]
    have := h.room
    omega
  pending q b w hq := by
    rw [blocks_congr hw (congrFun hop q)]
    exact hpend q b w hq
  region := by rw [hsize]; exact h.region
  stop := hstop

theorem Space.goto {l : LogLoc} (h : s.Space)
    (hact : l.active = true → (s.loc p).active = true)
    (hpend : ∀ b w, l = .logging b w → (s.blocks p).card < MAXOPBLOCKS) : (s.goto p l).Space := by
  refine h.mono rfl rfl rfl rfl (fun q => active_of_goto hact) (fun q b w hq => ?_) h.stop
  rw [goto_loc] at hq
  split_ifs at hq with hqp
  · rw [hqp]
    exact hpend b w hq
  · exact h.pending q b w hq

theorem Space.wakeup (h : s.Space) : s.wakeup.Space := by
  refine h.mono rfl rfl rfl rfl (fun q => by simp) (fun q b w hq => h.pending q b w ?_) h.stop
  simp only [GroupState.wakeup] at hq
  cases hl : s.loc q <;> simp_all

theorem Space.setLog {log : Log} (h : s.Space) (hlh : log.lh = s.log.lh)
    (hsize : log.size = s.log.size) : ({ s with log := log } : GroupState N).Space :=
  h.mono rfl rfl hlh hsize (fun _ => id) h.pending h.stop

/-- `begin_op` reserves the blocks of a new operation. -/
theorem Reserved.begin (h : s.Reserved) (hp : s.loc p = .begin) (hc : s.log.committing = false)
    (hroom : s.log.lh.length + (s.log.outstanding + 1) * MAXOPBLOCKS ≤ (LOGSIZE : ℤ)) :
    (s.enter p).Space := by
  set s' := s.enter p with hs'
  have hrec : s'.Recorded := h.recorded.step (.begin hp hc hroom)
  have hother : ∀ q, q ≠ p → s'.op q = s.op q ∧ s'.loc q = s.loc q := by
    intro q hq
    exact ⟨update_of_ne hq .., by simp [hs', hq]⟩
  have hself : s'.op p = s.nextOp := update_self ..
  refine ⟨fun q r hq hr hop => ?_, h.nodup, ?_, fun q b w hq => ?_, h.region, h.stop⟩
  · -- the new number is larger than all others
    by_cases hqp : q = p <;> by_cases hrp : r = p
    · rw [hqp, hrp]
    · rw [hqp, hself, (hother r hrp).1] at hop
      have := h.recorded.begun r ((hother r hrp).2 ▸ hr)
      omega
    · rw [hrp, hself, (hother q hqp).1] at hop
      have := h.recorded.begun q ((hother q hqp).2 ▸ hq)
      omega
    · rw [(hother q hqp).1, (hother r hrp).1] at hop
      exact h.distinct q r ((hother q hqp).2 ▸ hq) ((hother r hrp).2 ▸ hr) hop
  · have hsum := reserve_le_sum (s := s')
    have hout := hrec.grouped.outstanding
    change s.log.outstanding + 1 = _ at hout
    change s.log.lh.length + _ ≤ _
    rw [hout] at hroom
    have hroom : s.log.lh.length +
        (Finset.univ.filter fun q => (s'.loc q).active = true).card * MAXOPBLOCKS ≤ LOGSIZE := by
      exact_mod_cast hroom
    exact (Nat.add_le_add_left hsum _).trans hroom
  · have hqp : q ≠ p := by
      rintro rfl
      simp [hs'] at hq
    rw [(hother q hqp).2] at hq
    have hblocks : s'.blocks q = s.blocks q := blocks_congr rfl (hother q hqp).1
    rw [hblocks]
    exact h.pending q b w hq

/-- Logging a block uses up one reserved block, unless the block is logged already. -/
theorem Reserved.record (h : s.Reserved) {b : ℕ} (hp : s.loc p = .logging b .record) :
    ({ s with log := s.log.record b, writes := s.writes ++ [s.recordOf p b] }.goto p
      .inOp).Space := by
  set s' := { s with log := s.log.record b, writes := s.writes ++ [s.recordOf p b] }.goto p .inOp
    with hs'
  have hact : (s.loc p).active = true := by rw [hp]; rfl
  have hactive : ∀ q, (s'.loc q).active = (s.loc q).active := by
    intro q
    by_cases hq : q = p
    · subst hq
      simp [hs', hact]
    · simp [hs', hq]
  have hself : s'.blocks p = insert b (s.blocks p) := by
    ext a
    simp only [mem_blocks, Finset.mem_insert]
    constructor
    · rintro ⟨w, hw, hop, rfl⟩
      obtain hw | hw := List.mem_append.1 hw
      · exact .inr ⟨w, hw, hop, rfl⟩
      · rw [List.mem_singleton.1 hw]
        exact .inl rfl
    · rintro (rfl | ⟨w, hw, hop, rfl⟩)
      · exact ⟨s.recordOf p a, List.mem_append_right _ (List.mem_singleton_self _), rfl, rfl⟩
      · exact ⟨w, List.mem_append_left _ hw, hop, rfl⟩
  have hother : ∀ q, q ≠ p → (s.loc q).active = true → s'.blocks q = s.blocks q := by
    intro q hq hqact
    have hne : s.op p ≠ s.op q := fun he => hq (h.distinct q p hqact hact he.symm)
    ext a
    simp only [mem_blocks]
    constructor
    · rintro ⟨w, hw, hop, rfl⟩
      obtain hw | hw := List.mem_append.1 hw
      · exact ⟨w, hw, hop, rfl⟩
      · rw [List.mem_singleton.1 hw] at hop
        exact absurd hop hne
    · rintro ⟨w, hw, hop, rfl⟩
      exact ⟨w, List.mem_append_left _ hw, hop, rfl⟩
  have hres : ∀ q, q ≠ p → s'.reserve q = s.reserve q := by
    intro q hq
    unfold reserve
    rw [hactive q]
    split_ifs with hqact
    · rw [hother q hq hqact]
    · rfl
  have hresp : s.reserve p = MAXOPBLOCKS - (s.blocks p).card := by rw [reserve, if_pos hact]
  have hresp' : s'.reserve p = MAXOPBLOCKS - (insert b (s.blocks p)).card := by
    rw [reserve, hactive, if_pos hact, hself]
  have hsum := sum_change hres
  have hpend := h.pending p b _ hp
  have hroom := h.room
  refine ⟨fun q r hq hr => ?_, ?_, ?_, fun q a w hq => ?_, ?_, h.stop⟩
  · exact h.distinct q r (hactive q ▸ hq) (hactive r ▸ hr)
  · change (s.log.record b).lh.Nodup
    unfold Log.record
    split_ifs with hb
    · exact h.nodup
    · change (s.log.lh ++ [b]).Nodup
      rw [← List.concat_eq_append]
      exact h.nodup.concat hb
  · change (s.log.record b).lh.length + _ ≤ _
    unfold Log.record
    split_ifs with hb
    · have hcard := Finset.card_le_card (Finset.subset_insert b (s.blocks p))
      omega
    · have hnew : b ∉ s.blocks p := fun hmem => hb (h.recorded.blocks_subset hact hmem)
      have hcard := Finset.card_insert_of_notMem hnew
      simp only [List.length_append, List.length_singleton]
      omega
  · by_cases hqp : q = p
    · subst hqp
      simp [hs'] at hq
    · have hqact : (s.loc q).active = true := by
        rw [← hactive q, hq]
        rfl
      have hq' : s.loc q = .logging a w := by simpa [hs', hqp] using hq
      rw [hother q hqp hqact]
      exact h.pending q a w hq'
  · change LOGSIZE + 1 ≤ (s.log.record b).size
    unfold Log.record
    split_ifs
    · exact h.region
    · exact h.region

theorem Reserved.clear (h : s.Reserved) (hp : s.loc p = .commit .clear) :
    ({ s with log := { s.log with lh := [] } }.goto p (.commit .eraseHead)).Space := by
  set s' := { s with log := { s.log with lh := [] } }.goto p (.commit .eraseHead) with hs'
  have hquiet := h.recorded.grouped.quiet (h.recorded.grouped.committing p _ hp)
  have hnone : ∀ q, (s'.loc q).active = false := by
    intro q
    rw [hs', goto_loc]
    split_ifs
    · rfl
    · exact hquiet q
  have hsum : ∑ q, s'.reserve q = 0 := Finset.sum_eq_zero fun q _ => by simp [reserve, hnone q]
  refine ⟨fun q r hq => ?_, List.nodup_nil, ?_, fun q b w hq => ?_,
    h.region, h.stop⟩
  · rw [hnone q] at hq
    cases hq
  · rw [hsum]
    exact Nat.zero_le _
  · have := hnone q
    rw [hq] at this
    cases this

theorem Reserved.step (h : s.Reserved) (hs : s.Step p a s')
    (hc : ∀ b, a = .logWrite b → (s.blocks p).card < MAXOPBLOCKS) : s'.Reserved := by
  refine ⟨?_, h.recorded.step hs⟩
  have hh := h.toSpace
  cases hs with
  | begin hp hcm hroom => exact h.begin hp hcm hroom
  | record hp => exact h.record hp
  | clear hp => exact h.clear hp
  | outside _ hl => obtain rfl | rfl := hl <;> exact hh.goto (by simp [LogLoc.active]) (by simp)
  | @log b hp => exact hh.goto (by simp [hp]) fun _ _ _ => hc b rfl
  | test hp => exact hh.goto (by rw [hp]; exact id) fun _ _ _ => h.pending p _ _ hp
  | tooBig hp hbig =>
    have hlt := h.length_lt hp
    have := h.region
    omega
  | noTrans =>
    refine hh.mono rfl rfl rfl rfl (fun _ => id) h.pending ?_
    change some (Stop.panic "log_write outside of trans") ≠ _
    decide
  | endPanic hp hcm =>
    have := h.recorded.grouped.not_committing (p := p) (by simp [hp])
    rw [hcm] at this
    cases this
  | commit => exact hh.goto (by simp) (by simp)
  | head =>
    have hcommits : ({ s with commits := s.commits ++ [s.log.lh] } : GroupState N).Space :=
      ⟨h.distinct, h.nodup, h.room, h.pending, h.region, h.stop⟩
    exact hcommits.goto (by simp) (by simp)
  | endLast => exact (hh.setLog (by rfl) (by rfl)).goto (by simp) (by simp)
  | endOp | leave => exact ((hh.setLog (by rfl) (by rfl)).goto (by simp) (by simp)).wakeup

/-- An operation that calls `log_write` has logged fewer than `MAXOPBLOCKS` blocks so far. -/
def Spares (s : GroupState N) (l : Fin N × LogAct) : Prop :=
  match l.2 with
  | .logWrite _ => (s.blocks l.1).card < MAXOPBLOCKS
  | _ => True

instance (s : GroupState N) (l : Fin N × LogAct) : Decidable (s.Spares l) := by
  unfold Spares
  split <;> infer_instance

/-- An operation logs at most `MAXOPBLOCKS` blocks. -/
def Within (s : GroupState N) (l : Fin N × LogAct) : Prop :=
  match l.2 with
  | .logWrite b => (insert b (s.blocks l.1)).card ≤ MAXOPBLOCKS
  | _ => True

instance (s : GroupState N) (l : Fin N × LogAct) : Decidable (s.Within l) := by
  unfold Within
  split <;> infer_instance

theorem Booted.reserved (h : s.Booted) (hsize : LOGSIZE + 1 ≤ s.log.size) : s.Reserved := by
  have hactive : ∀ q, (s.loc q).active = false := fun q => by rw [h.user q]; rfl
  refine ⟨⟨?_, ?_, ?_, ?_, hsize, ?_⟩, h.recorded⟩
  · simp [hactive]
  · simp [h.lh]
  · simp [h.lh, reserve, hactive]
  · simp [h.user]
  · simp [h.stop]

end GroupState

/-- **Log space suffices**, in a run in which every `log_write` is called by an operation that has
logged fewer than `MAXOPBLOCKS` blocks so far: `log_write` does not panic, the blocks in the header
are distinct, and there are at most `LOGSIZE` of them. -/
theorem log_space {N : ℕ} {s s' : GroupState N} {ls : List (Fin N × LogAct)} (h0 : s.Booted)
    (hsize : LOGSIZE + 1 ≤ s.log.size) (h : (groupMachine N).Run (fun s l => s.Spares l) s ls s') :
    s'.stop ≠ some (.panic "too big a transaction") ∧ s'.log.lh.Nodup ∧
      s'.log.lh.length ≤ LOGSIZE := by
  have hres : s'.Reserved := by
    refine h.invariant (h0.reserved hsize) fun t l t' ht hc hst => ?_
    refine ht.step (groupMachine_step hst) fun b hb => ?_
    rwa [GroupState.Spares, hb] at hc
  exact ⟨hres.stop, hres.nodup, (Nat.le_add_right _ _).trans hres.room⟩

/-- Process `p` logs the ten blocks from `10 * p` on. -/
def logsTen (p : Fin 3) : List (Fin 3 × LogAct) :=
  (List.range 10).flatMap fun k => logsBlock p (10 * p + k)

/-- Three operations begin and log ten blocks each. -/
def threeOps : List (Fin 3 × LogAct) :=
  [(0, .beginOp), (0, .go), (1, .beginOp), (1, .go), (2, .beginOp), (2, .go)] ++ logsTen 0 ++
    logsTen 1 ++ logsTen 2

theorem log_space_three_ops : ∃ s',
    (groupMachine 3).Run (fun s l => s.Spares l) (initlog 3 2 31) threeOps s' ∧
      s'.log.lh.length = LOGSIZE ∧ s'.log.lh.Nodup := by
  obtain ⟨s', hrun, hs⟩ : ∃ s', (groupMachine 3).Run (fun s l => s.Spares l) (initlog 3 2 31)
      threeOps s' ∧ s'.log.lh.length = LOGSIZE := Machine.exists_run (by decide +kernel)
  obtain ⟨-, hnodup, -⟩ := log_space (booted_initlog 3 2 31) (by decide) hrun
  exact ⟨s', hrun, hs, hnodup⟩

/-- One of them logs its first block again. -/
def absorbed : List (Fin 3 × LogAct) := threeOps ++ [(0, .logWrite 0), (0, .go)]

theorem absorption_panics : ∃ s',
    (groupMachine 3).Run (fun s l => s.Within l) (initlog 3 2 31) absorbed s' ∧
      s'.stop = some (.panic "too big a transaction") :=
  Machine.exists_run (by decide +kernel)

end Xv6Container
