import Mathlib
import Xv6Container.Machine.Basic
import Xv6Container.Log.Basic
import Xv6Container.Data.Tally

/-!
# Group commit

The calls of file system operations on the log, `begin_op`, `log_write` and `end_op`, made by any
number of processes at once, and the steps of the `commit` that the last of them makes.  A critical
section under `log.lock` is one step.  The tests at the head of `log_write` are made without the
lock, so each of them is a step, and so is every iteration of the loops of `commit`, which runs
without the lock too.

The state carries two histories.  Every operation gets a number of its own in `begin_op`; `writes`
records which operation logged which block, with the number of commits made before, and `commits`
lists, for every commit, the blocks its header names when `write_head` writes it to the disk.

* `group_commit` : **while `commit` runs no operation is in progress**, `log.outstanding` counts
  the operations in progress, `end_op` never panics, and what one operation logs is part of one and
  the same commit.
-/

namespace Xv6Container

open Function

/-- Where a process is in `log_write`. -/
inductive LogWriteLoc where
  /-- `log.lh.n >= LOGSIZE`. -/
  | header
  /-- `log.lh.n >= log.size - 1`. -/
  | region
  /-- `log.outstanding < 1`. -/
  | trans
  /-- The critical section. -/
  | record
  deriving DecidableEq

/-- Where a process is in `commit`, and in the part of `end_op` around it. -/
inductive CommitLoc where
  /-- `if (log.lh.n > 0)`. -/
  | enter
  /-- The loop of `write_log`. -/
  | writeLog (tail : ℕ)
  /-- The first `write_head`, the commit point. -/
  | writeHead
  /-- The loop of `install_trans`. -/
  | installTrans (tail : ℕ)
  /-- `log.lh.n = 0`. -/
  | clear
  /-- The second `write_head`. -/
  | eraseHead
  /-- The critical section of `end_op` after `commit`. -/
  | leave
  deriving DecidableEq

/-- Where a process is in the code of the log. -/
inductive LogLoc where
  /-- Not in a file system operation. -/
  | user
  /-- At the tests of `begin_op`. -/
  | begin
  /-- In `sleep(&log, &log.lock)` of `begin_op`. -/
  | asleep
  /-- Between `begin_op` and `end_op`. -/
  | inOp
  /-- In `log_write` of a buffer of block `b`. -/
  | logging (b : ℕ) (w : LogWriteLoc)
  /-- In the `commit` of its `end_op`. -/
  | commit (c : CommitLoc)
  deriving DecidableEq

/-- Between `begin_op` and `end_op`. -/
def LogLoc.active : LogLoc → Bool
  | inOp | logging _ _ => true
  | user | begin | asleep | commit _ => false

@[simp] theorem LogLoc.active_user : LogLoc.user.active = false := rfl

@[simp] theorem LogLoc.active_begin : LogLoc.begin.active = false := rfl

@[simp] theorem LogLoc.active_inOp : LogLoc.inOp.active = true := rfl

@[simp] theorem LogLoc.active_commit (c : CommitLoc) : (LogLoc.commit c).active = false := rfl

/-- Operation `op` logged block `block` when `commit` commits had been made. -/
structure LogRecord where
  op : ℕ
  block : ℕ
  commit : ℕ
  deriving DecidableEq

/-- The log and the processes that use it. -/
structure GroupState (N : ℕ) where
  log : Log
  loc : Fin N → LogLoc
  /-- How the kernel has stopped, if it has. -/
  stop : Option Stop
  /-- The number of the operation each process is in, or was in last. -/
  op : Fin N → ℕ
  /-- The number of operations begun. -/
  nextOp : ℕ
  /-- What has been logged, oldest first. -/
  writes : List LogRecord
  /-- The blocks of every commit, oldest first. -/
  commits : List (List ℕ)

theorem Log.mem_record {l : Log} {a b : ℕ} : a ∈ (l.record b).lh ↔ a = b ∨ a ∈ l.lh := by
  unfold Log.record
  split_ifs with hb
  · constructor
    · exact .inr
    · rintro (rfl | ha)
      · exact hb
      · exact ha
  · simp [or_comm]

/-- What a process does next. -/
inductive LogAct where
  /-- Call `begin_op`. -/
  | beginOp
  /-- Call `log_write` for a buffer of block `b`. -/
  | logWrite (b : ℕ)
  /-- Call `end_op`. -/
  | endOp
  /-- Go on with the code. -/
  | go
  /-- Become `RUNNABLE` while asleep, because another process kills this one. -/
  | kill
  deriving DecidableEq

namespace GroupState

variable {N : ℕ} (s : GroupState N) (p : Fin N)

/-- Continue process `p` at `l`. -/
def goto (l : LogLoc) : GroupState N := { s with loc := update s.loc p l }

/-- The kernel panics. -/
def panic (msg : String) : GroupState N := { s with stop := some (.panic msg) }

/-- `wakeup(&log)`. -/
def wakeup : GroupState N :=
  { s with
    loc := fun q => match s.loc q with
      | .asleep => .begin
      | l => l }

/-- What is recorded when process `p` logs block `b`. -/
def recordOf (b : ℕ) : LogRecord :=
  { op := s.op p, block := b, commit := s.commits.length }

/-- `begin_op` reserves space: process `p` is in a new operation. -/
@[reducible]
def enter : GroupState N :=
  { s with
    log := { s.log with outstanding := s.log.outstanding + 1 }
    op := update s.op p s.nextOp
    nextOp := s.nextOp + 1 }.goto p .inOp

/-- The tests of `begin_op`. -/
def begins : GroupState N :=
  if s.log.committing = true then s.goto p .asleep
  else if (LOGSIZE : ℤ) < s.log.lh.length + (s.log.outstanding + 1) * MAXOPBLOCKS then
    s.goto p .asleep
  else s.enter p

/-- The steps of `log_write`. -/
def logWrites (b : ℕ) : LogWriteLoc → GroupState N
  | .header =>
    if LOGSIZE ≤ s.log.lh.length then s.panic "too big a transaction"
    else s.goto p (.logging b .region)
  | .region =>
    if s.log.size - 1 ≤ s.log.lh.length then s.panic "too big a transaction"
    else s.goto p (.logging b .trans)
  | .trans =>
    if s.log.outstanding < 1 then s.panic "log_write outside of trans"
    else s.goto p (.logging b .record)
  | .record =>
    { s with
      log := s.log.record b
      writes := s.writes ++ [s.recordOf p b] }.goto p .inOp

/-- The first critical section of `end_op`. -/
def ends : GroupState N :=
  let log := { s.log with outstanding := s.log.outstanding - 1 }
  if log.committing = true then { s with log := log }.panic "log.committing"
  else if log.outstanding = 0 then
    { s with log := { log with committing := true } }.goto p (.commit .enter)
  else ({ s with log := log }.goto p .user).wakeup

/-- The steps of `commit`, and of `end_op` after it. -/
def commitStep : CommitLoc → GroupState N
  | .enter => s.goto p (.commit (if 0 < s.log.lh.length then .writeLog 0 else .leave))
  | .writeLog tail =>
    s.goto p (.commit (if tail < s.log.lh.length then .writeLog (tail + 1) else .writeHead))
  | .writeHead =>
    { s with commits := s.commits ++ [s.log.lh] }.goto p (.commit (.installTrans 0))
  | .installTrans tail =>
    s.goto p (.commit (if tail < s.log.lh.length then .installTrans (tail + 1) else .clear))
  | .clear => { s with log := { s.log with lh := [] } }.goto p (.commit .eraseHead)
  | .eraseHead => s.goto p (.commit .leave)
  | .leave => ({ s with log := { s.log with committing := false } }.goto p .user).wakeup

/-- The next step of the code of process `p`. -/
def code : Option (GroupState N) :=
  match s.loc p with
  | .user | .asleep | .inOp => none
  | .begin => some (s.begins p)
  | .logging b w => some (s.logWrites p b w)
  | .commit c => some (s.commitStep p c)

end GroupState

/-- The steps of the processes that use the log. -/
def groupMachine (N : ℕ) : Machine (GroupState N) (Fin N × LogAct) where
  next s l :=
    if s.stop = none then
      match l.2, s.loc l.1 with
      | .beginOp, .user => some (s.goto l.1 .begin)
      | .logWrite b, .inOp => some (s.goto l.1 (.logging b .header))
      | .endOp, .inOp => some (s.ends l.1)
      | .go, _ => s.code l.1
      | .kill, .asleep => some (s.goto l.1 .begin)
      | _, _ => none
    else none

/-! ### What a step can do -/

/-- Between the commit point and the end of the transaction. -/
def CommitLoc.committed : CommitLoc → Bool
  | installTrans _ | clear => true
  | enter | writeLog _ | writeHead | eraseHead | leave => false

namespace GroupState

variable {N : ℕ} {s s' : GroupState N} {p q : Fin N}

/-- The steps of process `p`, with what it does. -/
inductive Step (s : GroupState N) (p : Fin N) : LogAct → GroupState N → Prop
  | outside {a : LogAct} {l : LogLoc}
      (hp : s.loc p = .user ∨ s.loc p = .begin ∨ s.loc p = .asleep)
      (hl : l = .begin ∨ l = .asleep) : Step s p a (s.goto p l)
  | begin (hp : s.loc p = .begin) (hc : s.log.committing = false)
      (hroom : s.log.lh.length + (s.log.outstanding + 1) * MAXOPBLOCKS ≤ (LOGSIZE : ℤ)) :
      Step s p .go (s.enter p)
  | log {b : ℕ} (hp : s.loc p = .inOp) : Step s p (.logWrite b) (s.goto p (.logging b .header))
  | test {b : ℕ} {w w' : LogWriteLoc} (hp : s.loc p = .logging b w) :
      Step s p .go (s.goto p (.logging b w'))
  | tooBig {b : ℕ} {w : LogWriteLoc} (hp : s.loc p = .logging b w)
      (h : LOGSIZE ≤ s.log.lh.length ∨ s.log.size - 1 ≤ s.log.lh.length) :
      Step s p .go (s.panic "too big a transaction")
  | noTrans {b : ℕ} {w : LogWriteLoc} (hp : s.loc p = .logging b w) (h : s.log.outstanding < 1) :
      Step s p .go (s.panic "log_write outside of trans")
  | record {b : ℕ} (hp : s.loc p = .logging b .record) :
      Step s p .go
        ({ s with log := s.log.record b, writes := s.writes ++ [s.recordOf p b] }.goto p .inOp)
  | endPanic (hp : s.loc p = .inOp) (hc : s.log.committing = true) :
      Step s p .endOp ({ s with log := { s.log with outstanding := s.log.outstanding - 1 } }.panic
        "log.committing")
  | endLast (hp : s.loc p = .inOp) (hc : s.log.committing = false)
      (ho : s.log.outstanding - 1 = 0) :
      Step s p .endOp ({ s with
        log := { s.log with outstanding := s.log.outstanding - 1, committing := true } }.goto p
          (.commit .enter))
  | endOp (hp : s.loc p = .inOp) (hc : s.log.committing = false) (ho : s.log.outstanding - 1 ≠ 0) :
      Step s p .endOp (({ s with
        log := { s.log with outstanding := s.log.outstanding - 1 } }.goto p .user).wakeup)
  | commit {c c' : CommitLoc} (hp : s.loc p = .commit c)
      (hc : c'.committed = true → c.committed = true) : Step s p .go (s.goto p (.commit c'))
  | head (hp : s.loc p = .commit .writeHead) :
      Step s p .go
        ({ s with commits := s.commits ++ [s.log.lh] }.goto p (.commit (.installTrans 0)))
  | clear (hp : s.loc p = .commit .clear) :
      Step s p .go ({ s with log := { s.log with lh := [] } }.goto p (.commit .eraseHead))
  | leave (hp : s.loc p = .commit .leave) :
      Step s p .go (({ s with log := { s.log with committing := false } }.goto p .user).wakeup)

theorem step_begins (hp : s.loc p = .begin) : s.Step p .go (s.begins p) := by
  unfold begins
  split_ifs with hc hroom
  · exact .outside (.inr (.inl hp)) (.inr rfl)
  · exact .outside (.inr (.inl hp)) (.inr rfl)
  · exact .begin hp (by simpa using hc) (by omega)

theorem step_logWrites {b : ℕ} {w : LogWriteLoc} (hp : s.loc p = .logging b w) :
    s.Step p .go (s.logWrites p b w) := by
  cases w with
  | header =>
    rw [logWrites]
    split_ifs with h
    · exact .tooBig hp (.inl h)
    · exact .test hp
  | region =>
    rw [logWrites]
    split_ifs with h
    · exact .tooBig hp (.inr h)
    · exact .test hp
  | trans =>
    rw [logWrites]
    split_ifs with h
    · exact .noTrans hp h
    · exact .test hp
  | record => exact .record hp

theorem step_ends (hp : s.loc p = .inOp) : s.Step p .endOp (s.ends p) := by
  unfold ends
  dsimp only
  split_ifs with hc ho
  · exact .endPanic hp hc
  · exact .endLast hp (by simpa using hc) ho
  · exact .endOp hp (by simpa using hc) ho

theorem step_commitStep {c : CommitLoc} (hp : s.loc p = .commit c) :
    s.Step p .go (s.commitStep p c) := by
  cases c with
  | writeHead => exact .head hp
  | clear => exact .clear hp
  | leave => exact .leave hp
  | eraseHead => exact .commit hp (by simp [CommitLoc.committed])
  | enter =>
    refine .commit hp ?_
    split_ifs <;> simp [CommitLoc.committed]
  | writeLog tail =>
    refine .commit hp ?_
    split_ifs <;> simp [CommitLoc.committed]
  | installTrans tail => exact .commit hp fun _ => rfl

end GroupState

open GroupState in
theorem groupMachine_step {N : ℕ} {s s' : GroupState N} {p : Fin N} {a : LogAct}
    (h : (groupMachine N).next s (p, a) = some s') : s.Step p a s' := by
  replace h := (Option.ite_none_right_eq_some.1 h).2
  dsimp only at h
  split at h
  · rename_i hp
    cases h
    exact .outside (.inl hp) (.inl rfl)
  · rename_i hp
    cases h
    exact .log hp
  · rename_i hp
    cases h
    exact step_ends hp
  · unfold code at h
    split at h
    · cases h
    · cases h
    · cases h
    · rename_i hp
      cases h
      exact step_begins hp
    · rename_i hp
      cases h
      exact step_logWrites hp
    · rename_i hp
      cases h
      exact step_commitStep hp
  · rename_i hp
    cases h
    exact .outside (.inr (.inr hp)) (.inl rfl)
  · cases h

namespace GroupState

variable {N : ℕ} {s s' : GroupState N} {p q : Fin N} {a : LogAct}

@[simp] theorem goto_loc (l : LogLoc) :
    (s.goto p l).loc q = if q = p then l else s.loc q := by
  simp [goto, update_apply]

theorem active_of_goto {l : LogLoc} (hl : l.active = true → (s.loc p).active = true)
    (hq : ((s.goto p l).loc q).active = true) : (s.loc q).active = true := by
  rw [goto_loc] at hq
  split_ifs at hq with hqp
  · rw [hqp]
    exact hl hq
  · exact hq

theorem commit_of_goto {l : LogLoc} {c : CommitLoc} (hl : ∀ c, l ≠ .commit c)
    (hq : (s.goto p l).loc q = .commit c) : q ≠ p ∧ s.loc q = .commit c := by
  rw [goto_loc] at hq
  split_ifs at hq with hqp
  · exact absurd hq (hl c)
  · exact ⟨hqp, hq⟩

@[simp] theorem goto_log (l : LogLoc) : (s.goto p l).log = s.log := rfl

@[simp] theorem wakeup_log : s.wakeup.log = s.log := rfl

@[simp] theorem panic_loc (msg : String) : (s.panic msg).loc = s.loc := rfl

@[simp] theorem panic_log (msg : String) : (s.panic msg).log = s.log := rfl

@[simp] theorem active_wakeup : (s.wakeup.loc q).active = (s.loc q).active := by
  simp only [wakeup]
  cases s.loc q <;> rfl

@[simp] theorem wakeup_loc_eq_commit {c : CommitLoc} :
    s.wakeup.loc q = .commit c ↔ s.loc q = .commit c := by
  simp only [wakeup]
  cases s.loc q <;> simp

/-! ### Locations -/

theorem Step.loc_of_ne (hs : s.Step p a s') (hq : q ≠ p) :
    s'.loc q = s.loc q ∨ s.loc q = .asleep ∧ s'.loc q = .begin := by
  have hwake : ∀ t : GroupState N, t.loc q = s.loc q →
      t.wakeup.loc q = s.loc q ∨ s.loc q = .asleep ∧ t.wakeup.loc q = .begin := by
    intro t ht
    simp only [wakeup, ht]
    cases s.loc q <;> simp
  cases hs with
  | outside | begin | log | test | record | endLast | commit | head | clear => simp [hq]
  | tooBig | noTrans | endPanic => exact .inl rfl
  | endOp | leave => exact hwake _ (by simp [hq])

section

variable (hs : s.Step p a s') (hq : q ≠ p)

include hs hq

theorem Step.active_of_ne : (s'.loc q).active = (s.loc q).active := by
  obtain h | ⟨h, h'⟩ := hs.loc_of_ne hq
  · rw [h]
  · rw [h, h']
    rfl

theorem Step.commit_of_ne {c : CommitLoc} : s'.loc q = .commit c ↔ s.loc q = .commit c := by
  obtain h | ⟨h, h'⟩ := hs.loc_of_ne hq
  · rw [h]
  · simp [h, h']

theorem Step.logging_of_ne {b : ℕ} {w : LogWriteLoc} :
    s'.loc q = .logging b w ↔ s.loc q = .logging b w := by
  obtain h | ⟨h, h'⟩ := hs.loc_of_ne hq
  · rw [h]
  · simp [h, h']

end

theorem Step.enter (hs : s.Step p a s') (hp : ∀ c, s.loc p ≠ .commit c) {c : CommitLoc}
    (hc : s'.loc p = .commit c) : c = .enter := by
  cases hs with
  | outside _ hl => obtain rfl | rfl := hl <;> simp at hc
  | begin | log | test | record => simp at hc
  | tooBig | noTrans | endPanic => exact absurd hc (hp c)
  | endLast => simpa [eq_comm] using hc
  | endOp => simp at hc
  | commit h | head h | clear h | leave h => exact absurd h (hp _)

theorem Step.lh (hs : s.Step p a s') (hp : ∀ c, s.loc p ≠ .commit c)
    (hr : ∀ b, s.loc p ≠ .logging b .record) : s'.log.lh = s.log.lh := by
  cases hs with
  | record h => exact absurd h (hr _)
  | clear h => exact absurd h (hp _)
  | _ => rfl

theorem Step.start (hs : s.Step p a s') :
    s'.log.start = s.log.start ∧ s'.log.size = s.log.size := by
  cases hs with
  | @record b h =>
    change (s.log.record b).start = _ ∧ (s.log.record b).size = _
    unfold Log.record
    split_ifs <;> exact ⟨rfl, rfl⟩
  | _ => exact ⟨rfl, rfl⟩

/-- A process enters `log_write` by calling it. -/
theorem Step.logging (hs : s.Step p a s') (ha : ∀ b, a ≠ .logWrite b) {b : ℕ} {w : LogWriteLoc}
    (hl : s'.loc p = .logging b w) : ∃ w', s.loc p = .logging b w' := by
  cases hs with
  | outside _ h => obtain rfl | rfl := h <;> simp at hl
  | log => exact absurd rfl (ha _)
  | @test _ w' _ hp =>
    obtain ⟨rfl, -⟩ : _ = b ∧ _ = w := by simpa using hl
    exact ⟨w', hp⟩
  | tooBig | noTrans | endPanic => exact ⟨w, hl⟩
  | begin | record | endLast | commit | head | clear => simp at hl
  | endOp | leave => simp [wakeup] at hl

theorem next_logWrite {b : ℕ} (h : (groupMachine N).next s (p, .logWrite b) = some s') :
    s.loc p = .inOp ∧ s' = s.goto p (.logging b .header) := by
  obtain ⟨-, h⟩ := Option.ite_none_right_eq_some.1 h
  cases hl : s.loc p <;> simp_all

/-! ### Operations in progress -/

/-- The invariant of the counter and the flag of the log. -/
structure Grouped (s : GroupState N) : Prop where
  /-- `log.outstanding` counts the operations in progress. -/
  outstanding : s.log.outstanding = (Finset.univ.filter fun q => (s.loc q).active = true).card
  /-- The flag is set while `commit` runs. -/
  committing : ∀ p c, s.loc p = .commit c → s.log.committing = true
  /-- At most one process is in `commit`. -/
  alone : ∀ p q c c', s.loc p = .commit c → s.loc q = .commit c' → p = q
  /-- No operation is in progress while the flag is set. -/
  quiet : s.log.committing = true → ∀ q, (s.loc q).active = false

theorem Grouped.count (h : s.Grouped) (p : Fin N)
    (hact : ∀ q, q ≠ p → (s'.loc q).active = (s.loc q).active)
    (ho : s'.log.outstanding + (s.loc p).active.toNat =
      s.log.outstanding + (s'.loc p).active.toNat) :
    s'.log.outstanding = (Finset.univ.filter fun q => (s'.loc q).active = true).card := by
  have hcard := card_change (f := fun q => (s.loc q).active) (g := fun q => (s'.loc q).active) hact
  have := h.outstanding
  omega

theorem Grouped.not_committing (h : s.Grouped) (hp : (s.loc p).active = true) :
    s.log.committing = false := by
  by_contra hc
  have := h.quiet (by simpa using hc) p
  rw [hp] at this
  cases this

theorem Grouped.of_same (h : s.Grouped) (ho : s'.log.outstanding = s.log.outstanding)
    (hc : s'.log.committing = s.log.committing)
    (hact : ∀ q, (s'.loc q).active = (s.loc q).active)
    (hcom : ∀ q c, s'.loc q = .commit c → ∃ c', s.loc q = .commit c') : s'.Grouped := by
  refine ⟨?_, fun q c hq => ?_, fun q r c c' hq hr => ?_, fun hcm q => ?_⟩
  · simp only [ho, hact, h.outstanding]
  · obtain ⟨c', hq'⟩ := hcom q c hq
    rw [hc]
    exact h.committing q c' hq'
  · obtain ⟨d, hq'⟩ := hcom q c hq
    obtain ⟨d', hr'⟩ := hcom r c' hr
    exact h.alone q r d d' hq' hr'
  · rw [hact]
    exact h.quiet (hc ▸ hcm) q

theorem Grouped.goto {l : LogLoc} (h : s.Grouped) (hact : l.active = (s.loc p).active)
    (hcom : ∀ c, l = .commit c → ∃ c', s.loc p = .commit c') : (s.goto p l).Grouped := by
  refine h.of_same rfl rfl (fun q => ?_) fun q c hq => ?_
  · rw [goto_loc]
    split_ifs with hqp
    · rw [hact, hqp]
    · rfl
  · rw [goto_loc] at hq
    split_ifs at hq with hqp
    · rw [hqp]
      exact hcom c hq
    · exact ⟨c, hq⟩

theorem Grouped.not_commit (h : s.Grouped) (hc : s.log.committing = false) (q : Fin N)
    (c : CommitLoc) : s.loc q ≠ .commit c := by
  intro hq
  have := h.committing q c hq
  rw [hc] at this
  cases this

theorem grouped_of_not_commit
    (ho : s.log.outstanding = (Finset.univ.filter fun q => (s.loc q).active = true).card)
    (hc : s.log.committing = false) (hcom : ∀ q c, s.loc q ≠ .commit c) : s.Grouped :=
  ⟨ho, fun q c hq => absurd hq (hcom q c), fun q _ c _ hq => absurd hq (hcom q c),
    fun h => by rw [hc] at h; cases h⟩

theorem Grouped.endLast (h : s.Grouped) (hp : s.loc p = .inOp) (hc : s.log.committing = false)
    (ho : s.log.outstanding - 1 = 0) :
    ({ s with log := { s.log with outstanding := s.log.outstanding - 1, committing := true } }.goto
      p (.commit .enter)).Grouped := by
  have hcount : ∀ q, q ≠ p → (s.loc q).active = false := by
    have hone : (Finset.univ.filter fun q => (s.loc q).active = true).card ≤ 1 := by
      have := h.outstanding
      omega
    intro q hq
    by_contra hact
    exact hq (Finset.card_le_one.1 hone q (by simpa using hact) p (by simp [hp]))
  have hloc : ∀ q c, ({ s with log := { s.log with
      outstanding := s.log.outstanding - 1, committing := true } }.goto p (.commit .enter)).loc q =
        .commit c → q = p := by
    intro q c hq
    rw [goto_loc] at hq
    split_ifs at hq with hqp
    · exact hqp
    · exact absurd hq (h.not_commit hc q c)
  refine ⟨h.count p (fun q hq => by simp [hq]) (by simp [hp]), fun _ _ _ => rfl,
    fun q r c c' hq hr => (hloc q c hq).trans (hloc r c' hr).symm, fun _ q => ?_⟩
  rw [goto_loc]
  split_ifs with hqp
  · rfl
  · exact hcount q hqp

theorem Grouped.step (h : s.Grouped) (hs : s.Step p a s') : s'.Grouped := by
  cases hs with
  | outside hp hl =>
    refine h.goto ?_ ?_
    · obtain rfl | rfl := hl <;> obtain hp | hp | hp := hp <;> rw [hp] <;> rfl
    · rintro c rfl
      simp at hl
  | log hp => exact h.goto (by rw [hp]; rfl) (by simp)
  | test hp => exact h.goto (by rw [hp]; rfl) (by simp)
  | tooBig hp _ => exact h.of_same rfl rfl (fun _ => rfl) fun q c hq => ⟨c, hq⟩
  | noTrans hp _ => exact h.of_same rfl rfl (fun _ => rfl) fun q c hq => ⟨c, hq⟩
  | @record b hp =>
    have hrec : (s.log.record b).outstanding = s.log.outstanding ∧
        (s.log.record b).committing = s.log.committing := by
      unfold Log.record
      split_ifs <;> exact ⟨rfl, rfl⟩
    exact (h.goto (l := .inOp) (by rw [hp]; rfl) (by simp)).of_same hrec.1 hrec.2 (fun _ => rfl)
      fun q c hq => ⟨c, hq⟩
  | endPanic hp hc =>
    have := h.not_committing (p := p) (by rw [hp]; rfl)
    rw [hc] at this
    cases this
  | commit hp _ => exact h.goto (by rw [hp]; rfl) fun _ _ => ⟨_, hp⟩
  | head hp =>
    exact (h.goto (l := .commit (.installTrans 0)) (by rw [hp]; rfl) fun _ _ => ⟨_, hp⟩).of_same rfl
      rfl (fun _ => rfl) fun q c hq => ⟨c, hq⟩
  | clear hp =>
    exact (h.goto (l := .commit .eraseHead) (by rw [hp]; rfl) fun _ _ => ⟨_, hp⟩).of_same rfl rfl
      (fun _ => rfl) fun q c hq => ⟨c, hq⟩
  | begin hp hc hroom =>
    refine grouped_of_not_commit
      (h.count p (fun q hq => by simp [hq]) (by simp [hp])) hc fun q c hq => ?_
    exact h.not_commit hc q c (commit_of_goto (by simp) hq).2
  | endOp hp hc ho =>
    refine grouped_of_not_commit
      (h.count p (fun q hq => by simp [hq]) (by simp [hp])) hc fun q c hq => ?_
    exact h.not_commit hc q c (commit_of_goto (by simp) (wakeup_loc_eq_commit.1 hq)).2
  | leave hp =>
    refine grouped_of_not_commit
      (h.count p (fun q hq => by simp [hq]) (by simp [hp])) rfl fun q c hq => ?_
    obtain ⟨hqp, hq⟩ := commit_of_goto (by simp) (wakeup_loc_eq_commit.1 hq)
    exact hqp (h.alone q p c _ hq hp)
  | endLast hp hc ho => exact h.endLast hp hc ho

/-! ### What one operation logs is part of one commit -/

/-- The histories. -/
structure History (s : GroupState N) : Prop where
  stop : s.stop ≠ some (.panic "log.committing")
  /-- Operations are numbered from `0`. -/
  fresh : ∀ w ∈ s.writes, w.op < s.nextOp
  begun : ∀ p, (s.loc p).active = true → s.op p < s.nextOp
  /-- No commit has been made since an operation in progress began. -/
  current : ∀ p, (s.loc p).active = true → ∀ w ∈ s.writes, w.op = s.op p →
    w.commit = s.commits.length
  same : ∀ w ∈ s.writes, ∀ w' ∈ s.writes, w.op = w'.op → w.commit = w'.commit
  le : ∀ w ∈ s.writes, w.commit ≤ s.commits.length
  /-- What was logged since the last commit is in the header. -/
  now : ∀ w ∈ s.writes, w.commit = s.commits.length → w.block ∈ s.log.lh
  /-- What was logged before is in the commit that followed. -/
  past : ∀ w ∈ s.writes, ∀ bs, s.commits[w.commit]? = some bs → w.block ∈ bs
  /-- Nothing is logged between the commit point and the end of the transaction. -/
  done : ∀ p c, s.loc p = .commit c → c.committed = true → ∀ w ∈ s.writes,
    w.commit < s.commits.length

/-- The invariant of the histories. -/
structure Recorded (s : GroupState N) : Prop extends History s where
  grouped : s.Grouped

section

variable (h : s.History)

include h

theorem History.goto {l : LogLoc} (hact : l.active = true → (s.loc p).active = true)
    (hdone : ∀ c, l = .commit c → c.committed = true →
      ∃ c', s.loc p = .commit c' ∧ c'.committed = true) : (s.goto p l).History := by
  refine ⟨h.stop, h.fresh, fun q hq => h.begun q (active_of_goto hact hq),
    fun q hq => h.current q (active_of_goto hact hq), h.same, h.le, h.now, h.past,
    fun q c hq hcm => ?_⟩
  rw [goto_loc] at hq
  split_ifs at hq
  · obtain ⟨c', hc', hcm'⟩ := hdone c hq hcm
    exact h.done p c' hc' hcm'
  · exact h.done q c hq hcm

theorem History.wakeup : s.wakeup.History :=
  ⟨h.stop, h.fresh, fun q hq => h.begun q (active_wakeup ▸ hq),
    fun q hq => h.current q (active_wakeup ▸ hq), h.same, h.le, h.now, h.past,
    fun q c hq => h.done q c (wakeup_loc_eq_commit.1 hq)⟩

theorem History.setLog {log : Log} (hlh : log.lh = s.log.lh) :
    ({ s with log := log } : GroupState N).History :=
  ⟨h.stop, h.fresh, h.begun, h.current, h.same, h.le, fun w hw hn => hlh ▸ h.now w hw hn, h.past,
    h.done⟩

theorem History.panic {msg : String} (hmsg : msg ≠ "log.committing") : (s.panic msg).History :=
  ⟨by simpa [GroupState.panic] using hmsg, h.fresh, h.begun, h.current, h.same, h.le, h.now,
    h.past, h.done⟩

theorem History.begin (hg : s.Grouped) (hc : s.log.committing = false) :
    (s.enter p).History := by
  refine ⟨h.stop, fun w hw => Nat.lt_succ_of_lt (h.fresh w hw),
    fun q hq => ?_, fun q hq w hw hop => ?_, h.same, h.le, h.now, h.past, fun q c hq _ => ?_⟩
  · rw [goto_loc] at hq
    change update s.op p s.nextOp q < s.nextOp + 1
    split_ifs at hq with hqp
    · subst hqp
      simp
    · rw [update_of_ne hqp]
      exact Nat.lt_succ_of_lt (h.begun q hq)
  · rw [goto_loc] at hq
    change w.op = update s.op p s.nextOp q at hop
    split_ifs at hq with hqp
    · subst hqp
      rw [update_self] at hop
      exact absurd (h.fresh w hw) (by omega)
    · rw [update_of_ne hqp] at hop
      exact h.current q hq w hw hop
  · exact absurd (commit_of_goto (by simp) hq).2 (hg.not_commit hc q c)

/-- The critical section of `log_write`. -/
theorem History.record (hg : s.Grouped) (hact : (s.loc p).active = true) (b : ℕ) :
    ({ s with log := s.log.record b, writes := s.writes ++ [s.recordOf p b] }.goto p
      .inOp).History := by
  have hmem : ∀ w, w ∈ s.writes ++ [s.recordOf p b] ↔ w ∈ s.writes ∨ w = s.recordOf p b := by simp
  have hactive : ∀ q, ((s.goto p .inOp).loc q).active = true → (s.loc q).active = true :=
    fun q => active_of_goto fun _ => hact
  -- the new record has the number that all records of its operation have
  have hnew : ∀ w ∈ s.writes, w.op = s.op p → w.commit = (s.recordOf p b).commit := h.current p hact
  refine ⟨h.stop, fun w hw => ?_, fun q hq => h.begun q (hactive q hq),
    fun q hq w hw hop => ?_, fun w hw w' hw' hop => ?_, fun w hw => ?_, fun w hw hn => ?_,
    fun w hw bs hbs => ?_, fun q c hq hcm => ?_⟩
  · obtain hw | rfl := (hmem w).1 hw
    · exact h.fresh w hw
    · exact h.begun p hact
  · obtain hw | rfl := (hmem w).1 hw
    · exact h.current q (hactive q hq) w hw hop
    · rfl
  · obtain hw | rfl := (hmem w).1 hw <;> obtain hw' | rfl := (hmem w').1 hw'
    · exact h.same w hw w' hw' hop
    · exact hnew w hw hop
    · exact (hnew w' hw' hop.symm).symm
    · rfl
  · obtain hw | rfl := (hmem w).1 hw
    · exact h.le w hw
    · exact le_rfl
  · refine Log.mem_record.2 ?_
    obtain hw | rfl := (hmem w).1 hw
    · exact .inr (h.now w hw hn)
    · exact .inl rfl
  · obtain hw | rfl := (hmem w).1 hw
    · exact h.past w hw bs hbs
    · change s.commits[s.commits.length]? = some bs at hbs
      simp at hbs
  · exact absurd (commit_of_goto (by simp) hq).2 (hg.not_commit (hg.not_committing hact) q c)

theorem History.head (hquiet : ∀ q, (s.loc q).active = false) :
    ({ s with commits := s.commits ++ [s.log.lh] }.goto p (.commit (.installTrans 0))).History := by
  have hlen : (s.commits ++ [s.log.lh]).length = s.commits.length + 1 := by simp
  have hactive : ∀ q, ((s.goto p (.commit (.installTrans 0))).loc q).active ≠ true :=
    fun q hq => absurd (active_of_goto (by simp) hq) (by simp [hquiet q])
  refine ⟨h.stop, h.fresh, fun q hq => absurd hq (hactive q),
    fun q hq => absurd hq (hactive q), h.same, fun w hw => ?_, fun w hw hn => ?_,
    fun w hw bs hbs => ?_, fun q c hq hcm w hw => ?_⟩
  · have := h.le w hw
    change w.commit ≤ (s.commits ++ [s.log.lh]).length
    omega
  · have := h.le w hw
    change w.commit = (s.commits ++ [s.log.lh]).length at hn
    omega
  · change (s.commits ++ [s.log.lh])[w.commit]? = some bs at hbs
    obtain hlt | heq := Nat.lt_or_eq_of_le (h.le w hw)
    · rw [List.getElem?_append_left hlt] at hbs
      exact h.past w hw bs hbs
    · rw [heq, List.getElem?_concat_length, Option.some.injEq] at hbs
      exact hbs ▸ h.now w hw heq
  · have := h.le w hw
    change w.commit < (s.commits ++ [s.log.lh]).length
    omega

theorem History.clear (hquiet : ∀ q, (s.loc q).active = false)
    (hdone : ∀ w ∈ s.writes, w.commit < s.commits.length) :
    ({ s with log := { s.log with lh := [] } }.goto p (.commit .eraseHead)).History := by
  have hactive : ∀ q, ((s.goto p (.commit .eraseHead)).loc q).active ≠ true :=
    fun q hq => absurd (active_of_goto (by simp) hq) (by simp [hquiet q])
  refine ⟨h.stop, h.fresh, fun q hq => absurd hq (hactive q),
    fun q hq => absurd hq (hactive q), h.same, h.le, fun w hw hn => ?_, h.past,
    fun q c hq hcm => hdone⟩
  exact absurd (hdone w hw) (Nat.lt_irrefl _ <| hn ▸ ·)

end

theorem Recorded.step (h : s.Recorded) (hs : s.Step p a s') : s'.Recorded := by
  refine ⟨?_, h.grouped.step hs⟩
  have hh := h.toHistory
  have hquiet : ∀ c, s.loc p = .commit c → ∀ q, (s.loc q).active = false := fun c hp =>
    h.grouped.quiet (h.grouped.committing p c hp)
  cases hs with
  | begin _ hc _ => exact hh.begin h.grouped hc
  | record hp => exact hh.record h.grouped (by rw [hp]; rfl) _
  | head hp => exact hh.head (hquiet _ hp)
  | clear hp => exact hh.clear (hquiet _ hp) (h.done p _ hp rfl)
  | outside _ hl => obtain rfl | rfl := hl <;> exact hh.goto (by simp [LogLoc.active]) (by simp)
  | log hp => exact hh.goto (by simp [hp]) (by simp)
  | test hp => exact hh.goto (by rw [hp]; exact id) (by simp)
  | commit hp hc =>
    refine hh.goto (by simp) fun c heq hcm => ⟨_, hp, hc ?_⟩
    cases heq
    exact hcm
  | endPanic hp hc =>
    have := h.grouped.not_committing (p := p) (by simp [hp])
    rw [hc] at this
    cases this
  | tooBig | noTrans => exact hh.panic (by decide)
  | endLast =>
    refine (hh.setLog (by rfl)).goto (by simp) fun c heq hcm => ?_
    cases heq
    cases hcm
  | endOp | leave => exact ((hh.setLog (by rfl)).goto (by simp) (by simp)).wakeup

/-- The states in which `initlog` returns: nothing is logged and no operation is in progress. -/
structure Booted (s : GroupState N) : Prop where
  outstanding : s.log.outstanding = 0
  committing : s.log.committing = false
  lh : s.log.lh = []
  user : ∀ p, s.loc p = .user
  stop : s.stop = none
  writes : s.writes = []
  commits : s.commits = []

theorem Booted.recorded (h : s.Booted) : s.Recorded := by
  have hactive : ∀ q, (s.loc q).active = false := fun q => by rw [h.user q]; rfl
  have hcommit : ∀ q c, s.loc q ≠ .commit c := fun q c => by rw [h.user q]; simp
  refine ⟨?_, grouped_of_not_commit ?_ h.committing hcommit⟩
  · constructor <;> simp [h.stop, h.writes, hactive]
  · simp [h.outstanding, hactive]

end GroupState

/-- **Group commit.**  In every state that any number of processes reach by `begin_op`, `log_write`
and `end_op`: while `commit` runs, no process is between its `begin_op` and its `end_op`; `end_op`
has not panicked; `log.outstanding` is the number of processes between `begin_op` and `end_op`; and
all records of one operation carry the number of one commit, whose header names every block the
operation has logged, or will do so because the commit is the next one. -/
theorem group_commit {N : ℕ} {s s' : GroupState N} {ls : List (Fin N × LogAct)} (h0 : s.Booted)
    (h : (groupMachine N).Run (fun _ _ => True) s ls s') :
    (∀ p c, s'.loc p = .commit c → ∀ q, (s'.loc q).active = false) ∧
      s'.stop ≠ some (.panic "log.committing") ∧
      s'.log.outstanding = (Finset.univ.filter fun q => (s'.loc q).active = true).card ∧
      (∀ w ∈ s'.writes, ∀ w' ∈ s'.writes, w.op = w'.op → w.commit = w'.commit) ∧
      ∀ w ∈ s'.writes, (∃ bs, s'.commits[w.commit]? = some bs ∧ w.block ∈ bs) ∨
        (w.commit = s'.commits.length ∧ w.block ∈ s'.log.lh) := by
  have hrec : s'.Recorded := h.invariant h0.recorded fun _ _ _ hr _ hst =>
    hr.step (groupMachine_step hst)
  refine ⟨fun p c hp => hrec.grouped.quiet (hrec.grouped.committing p c hp), hrec.stop,
    hrec.grouped.outstanding, hrec.same, fun w hw => ?_⟩
  obtain hlt | heq := Nat.lt_or_eq_of_le (hrec.le w hw)
  · have hbs := List.getElem?_eq_getElem hlt
    exact .inl ⟨_, hbs, hrec.past w hw _ hbs⟩
  · exact .inr ⟨heq, hrec.now w hw heq⟩

/-- The log of a disk with a log region of `size` blocks after `initlog`. -/
def initlog (N start size : ℕ) : GroupState N where
  log := { start := start, size := size, outstanding := 0, committing := false, lh := [] }
  loc := fun _ => .user
  stop := none
  op := fun _ => 0
  nextOp := 0
  writes := []
  commits := []

theorem booted_initlog (N start size : ℕ) : (initlog N start size).Booted where
  outstanding := rfl
  committing := rfl
  lh := rfl
  user _ := rfl
  stop := rfl
  writes := rfl
  commits := rfl

/-- Process `p` logs block `b`. -/
def logsBlock {N : ℕ} (p : Fin N) (b : ℕ) : List (Fin N × LogAct) :=
  (p, .logWrite b) :: List.replicate 4 (p, .go)

/-- Two operations overlap; the commit is made by the one that ends last. -/
def twoOps : List (Fin 2 × LogAct) :=
  [(0, .beginOp), (0, .go), (1, .beginOp), (1, .go)] ++ logsBlock 0 50 ++ logsBlock 1 51 ++
    logsBlock 0 52 ++ [(0, .endOp), (1, .endOp)] ++ List.replicate 8 (1, .go)

theorem group_commit_two_ops : ∃ s', (groupMachine 2).run (initlog 2 2 31) twoOps = some s' ∧
    s'.commits = [[50, 51, 52]] ∧
    ∀ w ∈ s'.writes, (∃ bs, s'.commits[w.commit]? = some bs ∧ w.block ∈ bs) ∨
      (w.commit = s'.commits.length ∧ w.block ∈ s'.log.lh) := by
  have hrun : (groupMachine 2).run (initlog 2 2 31) twoOps = some _ := rfl
  obtain ⟨-, -, -, -, hpast⟩ :=
    group_commit (booted_initlog 2 2 31) (Machine.run_eq_some_iff.1 hrun)
  exact ⟨_, hrun, rfl, hpast⟩

end Xv6Container
