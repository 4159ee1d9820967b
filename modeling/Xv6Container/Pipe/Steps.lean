import Xv6Container.Pipe.Basic

/-!
# What a step in a pipe can do

`PipeState.Step s p s'` lists the steps of process `p` one by one, with what the code knows when
it makes them.  `pipeMachine_step` says that the machine makes no others, so that an invariant of
the machine is shown by one case per step.

The first invariant is the one the lock is for: the process that holds `pi->lock` is the one that
is between `acquire` and `release` (`PipeState.Locked`), and it is not asleep.
-/

namespace Xv6Container

namespace PipeState

variable {N : ℕ} {s s' : PipeState N} {p q : Fin N}

/-- The steps of process `p`. -/
inductive Step (s : PipeState N) (p : Fin N) : PipeState N → Prop
  | call {r : ℤ} {l : PipeLoc} (hl : (s.proc p).loc = .user r) (hc : l.critical = false) :
      Step s p (s.goto p l)
  | kill (hu : s.Unlocked p) : Step s p (s.kill p)
  | doze {c : PipeChan} (hz : (s.proc p).sleep = .entering c) :
      Step s p (s.setSleep p (.sleeping c))
  | lockWrite {n : ℤ} {i : ℕ} (hz : (s.proc p).sleep = .awake)
      (hl : (s.proc p).loc = .wAcquire n i) (hf : s.lock = none) :
      Step s p ((s.acquire p).goto p (.wLoop n i i))
  | lockRead {n : ℤ} (hz : (s.proc p).sleep = .awake) (hl : (s.proc p).loc = .rAcquire n)
      (hf : s.lock = none) : Step s p ((s.acquire p).goto p (.rLoop n))
  | lockClose {w : Bool} (hz : (s.proc p).sleep = .awake) (hl : (s.proc p).loc = .cAcquire w)
      (hf : s.lock = none) :
      Step s p ({ s.acquire p with pi := s.pi.close w }.goto p
        (.wakeup (if w then .nread else .nwrite) 0 .close))
  | giveUp {n : ℤ} {i base : ℕ} (hl : (s.proc p).loc = .wLoop n i base) (hi : (i : ℤ) < n)
      (hfull : s.pi.Full) (h : s.pi.readopen = false ∨ (s.proc p).killed = true) :
      Step s p (s.release.goto p (.user (-1)))
  | full {n : ℤ} {i base : ℕ} (hl : (s.proc p).loc = .wLoop n i base) (hfull : s.pi.Full)
      (hr : s.pi.readopen = true) :
      Step s p (s.goto p (.wakeup .nread 0 (.sleep n i)))
  | room {n : ℤ} {i base : ℕ} (hl : (s.proc p).loc = .wLoop n i base) (hfull : ¬s.pi.Full) :
      Step s p (s.goto p (.wCopy n i base))
  | written {n : ℤ} {i base : ℕ}
      (hl : (s.proc p).loc = .wLoop n i base ∨ (s.proc p).loc = .wCopy n i base) :
      Step s p (s.goto p (.wakeup .nread 0 (.ret n)))
  | push {n : ℤ} {i base : ℕ} (ch : UInt8) (hl : (s.proc p).loc = .wCopy n i base) :
      Step s p ({ s with pi := s.pi.push ch, put := s.put ++ [ch] }.goto p
        (.wLoop n (i + 1) base))
  | readKilled {n : ℤ} (hl : (s.proc p).loc = .rLoop n) : Step s p (s.release.goto p (.user (-1)))
  | wait {n : ℤ} (hl : (s.proc p).loc = .rLoop n) (he : s.pi.Empty)
      (hw : s.pi.writeopen = true) :
      Step s p ((s.release.goto p (.rAcquire n)).setSleep p (.entering .nread))
  | start {n : ℤ} (hl : (s.proc p).loc = .rLoop n) : Step s p (s.goto p (.rCopy n 0))
  | more {n : ℤ} {i : ℕ} (hl : (s.proc p).loc = .rCopy n i) (he : ¬s.pi.Empty) :
      Step s p (s.goto p (.rTake n i))
  | read {n : ℤ} {i : ℕ} (hl : (s.proc p).loc = .rCopy n i) :
      Step s p (s.goto p (.wakeup .nwrite 0 (.ret i)))
  | pop {n : ℤ} {i : ℕ} (l : PipeLoc) (hl : (s.proc p).loc = .rTake n i)
      (h : l = .rCopy n (i + 1) ∨ l = .wakeup .nwrite 0 (.ret i)) :
      Step s p ({ s with pi := s.pi.pop, got := s.got ++ [s.pi.front] }.goto p l)
  | wake {c : PipeChan} {next : AfterWakeup} (q : Fin N)
      (hl : (s.proc p).loc = .wakeup c q next) (hu : s.Unlocked q) :
      Step s p ((s.wake c q).goto p (.wakeup c (q + 1) next))
  | after {c : PipeChan} {k : ℕ} {next : AfterWakeup} (hl : (s.proc p).loc = .wakeup c k next)
      (hk : N ≤ k) : Step s p (s.afterWakeup p next)

theorem step_of_call {l : PipeLoc} (hc : l.critical = false) (h : s.call p l = some s') :
    s.Step p s' := by
  unfold call at h
  split at h
  · rename_i r hl
    cases h
    exact .call hl hc
  · cases h

theorem step_of_copyin {ch : Option UInt8} (h : s.copyin p ch = some s') : s.Step p s' := by
  unfold copyin at h
  split at h
  · rename_i n i base hl
    cases h
    exact .written (.inr hl)
  · rename_i n i base ch hl
    cases h
    exact .push ch hl
  · cases h

theorem step_of_copyout {ok : Bool} (h : s.copyout p ok = some s') : s.Step p s' := by
  unfold copyout at h
  split at h
  · rename_i n i hl
    cases h
    refine .pop _ hl ?_
    cases ok
    · exact .inr rfl
    · exact .inl rfl
  · cases h

theorem step_of_code (h : s.code p = some s') : s.Step p s' := by
  unfold code at h
  cases hz : (s.proc p).sleep with
  | entering c =>
    simp only [hz, Option.some.injEq] at h
    subst h
    exact .doze hz
  | sleeping c => simp [hz] at h
  | awake =>
    cases hl : (s.proc p).loc with
    | user r => simp [hz, hl] at h
    | wCopy n i base => simp [hz, hl] at h
    | rTake n i => simp [hz, hl] at h
    | wAcquire n i =>
      simp only [hz, hl, Option.ite_none_right_eq_some, Option.some.injEq] at h
      obtain ⟨⟨hf, -⟩, rfl⟩ := h
      exact .lockWrite hz hl hf
    | rAcquire n =>
      simp only [hz, hl, Option.ite_none_right_eq_some, Option.some.injEq] at h
      obtain ⟨⟨hf, -⟩, rfl⟩ := h
      exact .lockRead hz hl hf
    | cAcquire w =>
      simp only [hz, hl, Option.ite_none_right_eq_some, Option.some.injEq] at h
      obtain ⟨⟨hf, -⟩, rfl⟩ := h
      exact .lockClose hz hl hf
    | wLoop n i base =>
      simp only [hz, hl] at h
      split_ifs at h with hi hfull hstop
      · cases h
        exact .giveUp hl hi hfull hstop
      · cases h
        exact .full hl hfull (by simpa using (not_or.1 hstop).1)
      · cases h
        exact .room hl hfull
      · cases h
        exact .written (.inl hl)
    | rLoop n =>
      simp only [hz, hl] at h
      split_ifs at h with hempty hkilled
      · cases h
        exact .readKilled hl
      · cases h
        exact .wait hl hempty.1 hempty.2
      · cases h
        exact .start hl
    | rCopy n i =>
      simp only [hz, hl] at h
      split_ifs at h with hmore
      · cases h
        exact .more hl hmore.2
      · cases h
        exact .read hl
    | wakeup c k next =>
      simp only [hz, hl] at h
      split_ifs at h with hk hu
      · cases h
        exact .wake ⟨k, hk⟩ hl hu
      · cases h
        exact .after hl (Nat.le_of_not_lt hk)

/-! ### Effects on the processes -/

@[simp] theorem goto_loc (l : PipeLoc) :
    ((s.goto p l).proc q).loc = if q = p then l else (s.proc q).loc := by
  by_cases h : q = p
  · subst h
    simp [goto]
  · simp [goto, h]

@[simp] theorem goto_sleep (l : PipeLoc) : ((s.goto p l).proc q).sleep = (s.proc q).sleep := by
  by_cases h : q = p
  · subst h
    simp [goto]
  · simp [goto, h]

@[simp] theorem setSleep_loc (z : PipeSleep) : ((s.setSleep p z).proc q).loc = (s.proc q).loc := by
  by_cases h : q = p
  · subst h
    simp [setSleep]
  · simp [setSleep, h]

@[simp] theorem setSleep_sleep (z : PipeSleep) :
    ((s.setSleep p z).proc q).sleep = if q = p then z else (s.proc q).sleep := by
  by_cases h : q = p
  · subst h
    simp [setSleep]
  · simp [setSleep, h]

@[simp] theorem kill_loc : ((s.kill p).proc q).loc = (s.proc q).loc := by
  by_cases h : q = p
  · subst h
    simp [kill]
  · simp [kill, h]

@[simp] theorem wake_loc (c : PipeChan) (r : Fin N) :
    ((s.wake c r).proc q).loc = (s.proc q).loc := by
  unfold wake
  split_ifs <;> simp

@[simp] theorem wake_pi (c : PipeChan) (r : Fin N) : (s.wake c r).pi = s.pi := by
  unfold wake
  split_ifs <;> rfl

@[simp] theorem wake_lock (c : PipeChan) (r : Fin N) : (s.wake c r).lock = s.lock := by
  unfold wake
  split_ifs <;> rfl

theorem kill_sleep (hz : ((s.kill p).proc q).sleep ≠ .awake) :
    ((s.kill p).proc q).sleep = (s.proc q).sleep := by
  by_cases h : q = p
  · subst h
    revert hz
    cases hs : (s.proc q).sleep <;> simp [kill, hs]
  · simp [kill, h]

theorem wake_sleep {c : PipeChan} {r : Fin N} (hz : ((s.wake c r).proc q).sleep ≠ .awake) :
    ((s.wake c r).proc q).sleep = (s.proc q).sleep ∧
      (q = r → (s.proc q).sleep ≠ .sleeping c) := by
  unfold wake at hz ⊢
  split_ifs at hz ⊢ with h
  · rw [setSleep_sleep] at hz ⊢
    split_ifs at hz ⊢ with hq
    · exact absurd rfl hz
    · exact ⟨rfl, fun hr => absurd hr hq⟩
  · exact ⟨rfl, fun hr => hr ▸ h⟩

@[simp] theorem goto_pi (l : PipeLoc) : (s.goto p l).pi = s.pi := rfl

@[simp] theorem goto_lock (l : PipeLoc) : (s.goto p l).lock = s.lock := rfl

@[simp] theorem setSleep_pi (z : PipeSleep) : (s.setSleep p z).pi = s.pi := rfl

@[simp] theorem setSleep_lock (z : PipeSleep) : (s.setSleep p z).lock = s.lock := rfl

/-! ### The lock -/

/-- The process that holds `pi->lock` is the one in the code between `acquire` and `release`, and
it is not asleep. -/
structure Locked (s : PipeState N) : Prop where
  critical : ∀ p, (s.proc p).loc.critical = true ↔ s.lock = some p
  awake : ∀ p, (s.proc p).loc.critical = true → (s.proc p).sleep = .awake

section

variable (h : s.Locked)

include h

theorem Locked.goto {l : PipeLoc} (hl : l.critical = (s.proc p).loc.critical) :
    (s.goto p l).Locked := by
  have hcrit : ∀ q, ((s.goto p l).proc q).loc.critical = (s.proc q).loc.critical := by
    intro q
    by_cases hq : q = p
    · subst hq
      simp [hl]
    · simp [hq]
  exact ⟨fun q => by rw [hcrit]; exact h.critical q,
    fun q hq => by rw [goto_sleep]; exact h.awake q (hcrit q ▸ hq)⟩

theorem Locked.acquire {l : PipeLoc} (hf : s.lock = none) (hz : (s.proc p).sleep = .awake)
    (hl : l.critical = true) : ((s.acquire p).goto p l).Locked := by
  have hout : ∀ q, (s.proc q).loc.critical = false := by
    intro q
    have := h.critical q
    rw [hf] at this
    simpa using this
  constructor
  · intro q
    by_cases hq : q = p
    · subst hq
      simp [PipeState.acquire, hl]
    · simpa [PipeState.acquire, hq, hout] using fun h : p = q => hq h.symm
  · intro q hq
    by_cases hqp : q = p
    · subst hqp
      rw [goto_sleep]
      exact hz
    · simp [PipeState.acquire, hqp, hout] at hq

theorem Locked.release {l : PipeLoc} (hp : (s.proc p).loc.critical = true)
    (hl : l.critical = false) : (s.release.goto p l).Locked := by
  have hlock : s.lock = some p := (h.critical p).1 hp
  have hout : ∀ q, ((s.release.goto p l).proc q).loc.critical = false := by
    intro q
    by_cases hq : q = p
    · subst hq
      simp [hl]
    · have hne : s.lock ≠ some q := by
        rw [hlock]
        exact fun he => hq (Option.some.inj he).symm
      simpa [PipeState.release, hq] using fun hc => hne ((h.critical q).1 hc)
  constructor
  · intro q
    rw [hout q]
    simp [PipeState.release]
  · intro q hq
    rw [hout q] at hq
    cases hq

theorem Locked.setSleep {z : PipeSleep} (hp : (s.proc p).loc.critical = false) :
    (s.setSleep p z).Locked := by
  constructor
  · intro q
    rw [setSleep_loc]
    exact h.critical q
  · intro q hq
    rw [setSleep_loc] at hq
    have hne : q ≠ p := by
      rintro rfl
      rw [hp] at hq
      cases hq
    simp [hne, h.awake q hq]

theorem Locked.congr (hproc : s'.proc = s.proc) (hlock : s'.lock = s.lock) : s'.Locked :=
  ⟨fun q => by rw [hproc, hlock]; exact h.critical q, fun q => by rw [hproc]; exact h.awake q⟩

theorem Locked.not_critical (hz : (s.proc p).sleep ≠ .awake) : (s.proc p).loc.critical = false := by
  simpa using fun hc => hz (h.awake p hc)

theorem Locked.kill : (s.kill p).Locked := by
  refine ⟨fun q => by rw [kill_loc]; exact h.critical q, fun q hq => ?_⟩
  rw [kill_loc] at hq
  by_contra hz
  exact hz (by rw [kill_sleep hz]; exact h.awake q hq)

theorem Locked.wake {c : PipeChan} {r : Fin N} : (s.wake c r).Locked := by
  refine ⟨fun q => by rw [wake_loc, wake_lock]; exact h.critical q, fun q hq => ?_⟩
  rw [wake_loc] at hq
  by_contra hz
  exact hz (by rw [(wake_sleep hz).1]; exact h.awake q hq)

theorem Locked.step (hs : s.Step p s') : s'.Locked := by
  cases hs with
  | call hl hc => exact h.goto (by rw [hl, hc]; rfl)
  | kill _ => exact h.kill
  | doze hz => exact h.setSleep (h.not_critical (by rw [hz]; simp))
  | lockWrite hz _ hf => exact h.acquire hf hz rfl
  | lockRead hz _ hf => exact h.acquire hf hz rfl
  | lockClose hz _ hf => exact (h.acquire hf hz rfl).congr rfl rfl
  | giveUp hl _ _ _ => exact h.release (by rw [hl]; rfl) rfl
  | full hl _ _ => exact h.goto (by rw [hl]; rfl)
  | room hl _ => exact h.goto (by rw [hl]; rfl)
  | written hl => exact h.goto (by obtain hl | hl := hl <;> rw [hl] <;> rfl)
  | push ch hl => exact (h.goto (by rw [hl]; rfl)).congr rfl rfl
  | readKilled hl => exact h.release (by rw [hl]; rfl) rfl
  | wait hl _ _ => exact (h.release (by rw [hl]; rfl) rfl).setSleep (by simp [PipeLoc.critical])
  | start hl => exact h.goto (by rw [hl]; rfl)
  | more hl _ => exact h.goto (by rw [hl]; rfl)
  | read hl => exact h.goto (by rw [hl]; rfl)
  | pop l hl hnext =>
    exact (h.goto (by obtain rfl | rfl := hnext <;> rw [hl] <;> rfl)).congr rfl rfl
  | wake q hl _ => exact h.wake.goto (by rw [wake_loc, hl]; rfl)
  | @after c k next hl _ =>
    cases next with
    | sleep n i => exact (h.release (by rw [hl]; rfl) rfl).setSleep (by simp [PipeLoc.critical])
    | ret v => exact h.release (by rw [hl]; rfl) rfl
    | close => exact (h.release (by rw [hl]; rfl) rfl).congr rfl rfl

end

theorem Fresh.locked (h : s.Fresh) : s.Locked := by
  have hout : ∀ p, (s.proc p).loc.critical = false := by
    intro p
    obtain ⟨r, hr⟩ := h.user p
    rw [hr]
    rfl
  exact ⟨fun p => by simp [hout, h.lock], fun p _ => h.awake p⟩

end PipeState

open PipeState in
theorem pipeMachine_step {N : ℕ} {s s' : PipeState N} {l : Fin N × PipeAct}
    (h : (pipeMachine N).next s l = some s') : s.Step l.1 s' := by
  obtain ⟨p, a⟩ := l
  cases a with
  | pipewrite n => exact step_of_call rfl h
  | piperead n => exact step_of_call rfl h
  | pipeclose w => exact step_of_call rfl h
  | go => exact step_of_code h
  | copyin ch => exact step_of_copyin h
  | copyout ok => exact step_of_copyout h
  | kill =>
    simp only [pipeMachine, Option.ite_none_right_eq_some, Option.some.injEq] at h
    obtain ⟨hu, rfl⟩ := h
    exact .kill hu

end Xv6Container
