import Xv6Container.Pipe.Steps

/-!
# What the calls of a pipe report

`pipewrite` and `piperead` return how many bytes they have moved.  Beside each process we keep what
its last call on the pipe has really put in, taken out and delivered to the caller's buffer.

`pipewrite` leaves its loop when `copyin` fails, and returns `n` all the same; for a negative `n` it
returns `n` at once.  `piperead` takes a byte out of the pipe before it knows whether `copyout`
succeeds.

* `pipe_counts_honest` : **in runs of such steps, every call reports what it has moved**;
* `pipe_counts_wrong` : the failures.
-/

namespace Xv6Container

open Function

/-- The function of a pipe that a process has called last. -/
inductive PipeFn where
  | other
  | pipewrite
  | piperead
  deriving DecidableEq

/-- What a call has done: the bytes put in the pipe, taken out, and copied to the user. -/
structure Transfer where
  fn : PipeFn
  put : ℕ
  got : ℕ
  delivered : ℕ
  deriving DecidableEq

namespace Transfer

/-- The transfer `x` of a process after it does `a`, with `put` bytes put in and `got` bytes taken
out. -/
def after (x : Transfer) (put got : ℕ) : PipeAct → Transfer
  | .pipewrite _ => ⟨.pipewrite, 0, 0, 0⟩
  | .piperead _ => ⟨.piperead, 0, 0, 0⟩
  | .pipeclose _ => ⟨.other, 0, 0, 0⟩
  | .copyout true => ⟨x.fn, x.put + put, x.got + got, x.delivered + 1⟩
  | _ => ⟨x.fn, x.put + put, x.got + got, x.delivered⟩

/-- The value `r` returned, when not -1, is the number of bytes moved; bytes taken out have been
delivered. -/
def Reports (x : Transfer) (r : ℤ) : Prop :=
  r ≠ -1 → (x.fn = .pipewrite → r = x.put) ∧ (x.fn = .piperead → r = x.got ∧ x.delivered = x.got)

/-- What is true of the transfer of a process at `l`. -/
def At (x : Transfer) : PipeLoc → Prop
  | .user r => x.Reports r
  | .wAcquire n i | .wLoop n i _ | .wakeup _ _ (.sleep n i) =>
    x.fn = .pipewrite ∧ x.put = i ∧ i ≤ n.toNat ∧ -1 ≤ n
  | .wCopy n i _ => x.fn = .pipewrite ∧ x.put = i ∧ (i : ℤ) < n
  | .rAcquire _ | .rLoop _ => x.fn = .piperead ∧ x.got = 0 ∧ x.delivered = 0
  | .rCopy _ i | .rTake _ i => x.fn = .piperead ∧ x.got = i ∧ x.delivered = i
  | .cAcquire _ | .wakeup _ _ .close => x.fn = .other
  | .wakeup _ _ (.ret v) => x.Reports v

end Transfer

variable {N : ℕ}

/-- A pipe with the transfers of the processes. -/
structure PipeCount (N : ℕ) where
  pipe : PipeState N
  transfer : Fin N → Transfer

/-- The pipe, with the transfers counted. -/
def pipeCount (N : ℕ) : Machine (PipeCount N) (Fin N × PipeAct) where
  next s l := ((pipeMachine N).next s.pipe l).map fun t =>
    ⟨t, update s.transfer l.1 ((s.transfer l.1).after (t.put.length - s.pipe.put.length)
      (t.got.length - s.pipe.got.length) l.2)⟩

/-- The user's buffer is mapped where the step uses it, and a `pipewrite` is not asked for a
negative number of bytes (other than -1). -/
def PipeAct.Mapped : PipeAct → Prop
  | .copyin ch => ch ≠ none
  | .copyout ok => ok = true
  | .pipewrite n => -1 ≤ n
  | _ => True

/-- Every process that is outside of the pipe has got an honest report from its last call. -/
def PipeCount.Honest (s : PipeCount N) : Prop :=
  ∀ p r, (s.pipe.proc p).loc = .user r → (s.transfer p).Reports r

/-- The transfers are as the locations say. -/
def PipeCount.Counted (s : PipeCount N) : Prop :=
  ∀ p, (s.transfer p).At (s.pipe.proc p).loc

namespace PipeState

variable {s s' : PipeState N} {p : Fin N} {x : Transfer}

/-- Process `p` goes from `s` to `s'` without moving a byte, to a place that its transfer allows. -/
def Quiet (s : PipeState N) (p : Fin N) (x : Transfer) (s' : PipeState N) : Prop :=
  s'.put = s.put ∧ s'.got = s.got ∧ (∀ q, q ≠ p → (s'.proc q).loc = (s.proc q).loc) ∧
    x.At (s'.proc p).loc

theorem quiet_goto {t : PipeState N} {l : PipeLoc} (hput : t.put = s.put) (hgot : t.got = s.got)
    (hloc : ∀ q, (t.proc q).loc = (s.proc q).loc) (hx : x.At l) : s.Quiet p x (t.goto p l) :=
  ⟨hput, hgot, fun q hq => by rw [goto_loc, if_neg hq, hloc], by rwa [goto_loc, if_pos rfl]⟩

theorem Quiet.setSleep (h : s.Quiet p x s') (z : PipeSleep) : s.Quiet p x (s'.setSleep p z) :=
  ⟨h.1, h.2.1, fun q hq => by rw [setSleep_loc, h.2.2.1 q hq], by rw [setSleep_loc]; exact h.2.2.2⟩

/-- A step of the code of `p` that gets nothing from outside. -/
theorem quiet_code (hx : x.At (s.proc p).loc) (h : s.code p = some s') : s.Quiet p x s' := by
  unfold code at h
  split at h
  · cases h
    exact Quiet.setSleep ⟨rfl, rfl, fun _ _ => rfl, hx⟩ _
  · cases h
  cases hl : (s.proc p).loc <;> rw [hl] at h hx <;> dsimp only at h
  case wAcquire n i | rAcquire n | cAcquire w =>
    obtain ⟨-, h⟩ := Option.ite_none_right_eq_some.1 h
    cases h
    exact quiet_goto rfl rfl (fun _ => rfl) hx
  case wLoop n i base =>
    obtain ⟨hfn, hput, hi, hn⟩ := hx
    split_ifs at h with hin hfull hstop <;> cases h
    · exact quiet_goto rfl rfl (fun _ => rfl) (fun hr => absurd rfl hr)
    · exact quiet_goto rfl rfl (fun _ => rfl) ⟨hfn, hput, hi, hn⟩
    · exact quiet_goto rfl rfl (fun _ => rfl) ⟨hfn, hput, hin⟩
    · -- all bytes are in the pipe, or there were none to put in
      refine quiet_goto rfl rfl (fun _ => rfl) fun hr => ⟨fun _ => by omega, fun hf => ?_⟩
      rw [hfn] at hf
      cases hf
  case rLoop n =>
    split_ifs at h <;> cases h
    · exact quiet_goto rfl rfl (fun _ => rfl) (fun hr => absurd rfl hr)
    · exact Quiet.setSleep (quiet_goto (t := s.release) (l := .rAcquire n) rfl rfl
        (fun _ => rfl) hx) _
    · exact quiet_goto rfl rfl (fun _ => rfl) hx
  case rCopy n i =>
    split_ifs at h <;> cases h
    · exact quiet_goto rfl rfl (fun _ => rfl) hx
    · refine quiet_goto rfl rfl (fun _ => rfl) fun _ => ⟨fun hf => ?_, fun _ => ?_⟩
      · rw [hx.1] at hf
        cases hf
      · exact ⟨by rw [hx.2.1], by rw [hx.2.1, hx.2.2]⟩
  case wakeup c k next =>
    split_ifs at h <;> cases h
    · refine quiet_goto ?_ ?_ (fun q => wake_loc ..) (by cases next <;> exact hx)
      · unfold wake
        split <;> rfl
      · unfold wake
        split <;> rfl
    · cases next with
      | sleep n i =>
        exact Quiet.setSleep (quiet_goto (t := s.release) (l := .wAcquire n i) rfl rfl
          (fun _ => rfl) hx) _
      | ret v => exact quiet_goto rfl rfl (fun _ => rfl) hx
      | close =>
        refine quiet_goto rfl rfl (fun _ => rfl) fun _ => ⟨fun hf => ?_, fun hf => ?_⟩ <;>
          (rw [show x.fn = .other from hx] at hf; cases hf)
  all_goals cases h

end PipeState

namespace PipeCount

variable {s s' : PipeCount N}

theorem Counted.honest (h : s.Counted) : s.Honest := fun p r hl => by
  have := h p
  rwa [hl] at this

/-- Every step with the buffers mapped keeps the counts right. -/
theorem Counted.next {l : Fin N × PipeAct} (h : s.Counted) (hm : l.2.Mapped)
    (hst : (pipeCount N).next s l = some s') : s'.Counted := by
  obtain ⟨t, ht, rfl⟩ := Option.map_eq_some_iff.1 hst
  obtain ⟨p, a⟩ := l
  -- it is enough to look at the process that makes the step
  suffices hp : (∀ q, q ≠ p → (t.proc q).loc = (s.pipe.proc q).loc) ∧
      ((s.transfer p).after (t.put.length - s.pipe.put.length)
        (t.got.length - s.pipe.got.length) a).At (t.proc p).loc by
    intro q
    by_cases hq : q = p
    · subst hq
      dsimp only
      rw [update_self]
      exact hp.2
    · dsimp only
      rw [update_of_ne hq, hp.1 q hq]
      exact h q
  have hx := h p
  have hcall : ∀ {l : PipeLoc} {y : Transfer}, s.pipe.call p l = some t → y.At l →
      (∀ q, q ≠ p → (t.proc q).loc = (s.pipe.proc q).loc) ∧ y.At (t.proc p).loc := by
    intro l y hc hy
    unfold PipeState.call at hc
    split at hc <;> cases hc
    exact ⟨fun q hq => by rw [PipeState.goto_loc, if_neg hq],
      by rwa [PipeState.goto_loc, if_pos rfl]⟩
  cases a with
  | pipewrite n => exact hcall ht ⟨rfl, rfl, Nat.zero_le _, hm⟩
  | piperead n => exact hcall ht ⟨rfl, rfl, rfl⟩
  | pipeclose w => exact hcall ht rfl
  | go =>
    obtain ⟨hput, hgot, hloc, hat⟩ := PipeState.quiet_code hx ht
    refine ⟨hloc, ?_⟩
    rw [hput, hgot, Nat.sub_self, Nat.sub_self]
    exact hat
  | copyin ch =>
    simp only [pipeMachine, PipeState.copyin] at ht
    split at ht
    · exact absurd rfl hm
    · rename_i n i base ch hl
      cases ht
      rw [hl] at hx
      obtain ⟨hfn, hput, hin⟩ := hx
      refine ⟨fun q hq => by rw [PipeState.goto_loc, if_neg hq], ?_⟩
      rw [PipeState.goto_loc, if_pos rfl]
      exact ⟨hfn, by simp [PipeState.goto, Transfer.after, hput], by omega, by omega⟩
    · cases ht
  | copyout ok =>
    simp only [pipeMachine, PipeState.copyout] at ht
    split at ht
    · rename_i n i hl
      cases ht
      obtain rfl : ok = true := hm
      rw [hl] at hx
      refine ⟨fun q hq => by rw [PipeState.goto_loc, if_neg hq], ?_⟩
      rw [PipeState.goto_loc, if_pos rfl, if_pos rfl]
      exact ⟨hx.1, by simp [PipeState.goto, Transfer.after, hx.2.1],
        by simp [Transfer.after, hx.2.2]⟩
    · cases ht
  | kill =>
    obtain ⟨-, ht⟩ := Option.ite_none_right_eq_some.1 ht
    cases ht
    refine ⟨fun q _ => PipeState.kill_loc, ?_⟩
    rw [PipeState.kill_loc, show (s.pipe.kill p).put = s.pipe.put from rfl,
      show (s.pipe.kill p).got = s.pipe.got from rfl, Nat.sub_self, Nat.sub_self]
    exact hx

end PipeCount

/-- **What the calls of a pipe report**, with any number of processes and any pipe to begin with.
In every run in which no `copyin` and no `copyout` fails, and no `pipewrite` is asked for a negative
number of bytes other than -1, a `pipewrite` that does not return -1 returns the number of bytes it
has put in the pipe, and a `piperead` the number of bytes it has taken out and delivered. -/
theorem pipe_counts_honest {s s' : PipeCount N} {ls : List (Fin N × PipeAct)}
    (hout : ∀ p, ∃ r, (s.pipe.proc p).loc = .user r) (hnew : ∀ p, (s.transfer p).fn = .other)
    (hrun : (pipeCount N).Run (fun _ l => l.2.Mapped) s ls s') : s'.Honest := by
  have h0 : s.Counted := fun p => by
    obtain ⟨r, hr⟩ := hout p
    rw [hr]
    exact fun _ => ⟨fun hf => absurd (hnew p ▸ hf) (by simp),
      fun hf => absurd (hnew p ▸ hf) (by simp)⟩
  exact (hrun.invariant h0 fun _ _ _ h hm hst => h.next hm hst).honest

/-- A new pipe, and processes that have not called anything yet. -/
def newPipe (N : ℕ) : PipeCount N := ⟨pipealloc N, fun _ => ⟨.other, 0, 0, 0⟩⟩

/-- One process puts in a byte, and takes it out. -/
def oneByteEach : List (Fin 1 × PipeAct) :=
  [(0, .pipewrite 1), (0, .go), (0, .go), (0, .copyin (some 7)), (0, .go), (0, .go), (0, .go),
    (0, .piperead 1), (0, .go), (0, .go), (0, .go), (0, .copyout true), (0, .go), (0, .go),
    (0, .go)]

instance (a : PipeAct) : Decidable a.Mapped := by
  cases a <;> (unfold PipeAct.Mapped; infer_instance)

theorem pipe_counts_honest_one : ∃ s, (pipeCount 1).run (newPipe 1) oneByteEach = some s ∧
    s.transfer 0 = ⟨.piperead, 0, 1, 1⟩ ∧ (s.transfer 0).Reports 1 := by
  obtain ⟨s, hrun, hl, ht⟩ : ∃ s, (pipeCount 1).run (newPipe 1) oneByteEach = some s ∧
      (s.pipe.proc 0).loc = .user 1 ∧ s.transfer 0 = ⟨.piperead, 0, 1, 1⟩ :=
    exists_of_any (by decide +kernel)
  have hmap := (Machine.run_eq_some_iff.1 hrun).of_forall_mem (D := fun _ l => l.2.Mapped)
    fun l hl _ => (by decide : ∀ l ∈ oneByteEach, l.2.Mapped) l hl
  exact ⟨s, hrun, ht,
    pipe_counts_honest (s := newPipe 1) (fun _ => ⟨0, rfl⟩) (fun _ => rfl) hmap 0 1 hl⟩

/-- `pipewrite` of two bytes of which only the first is mapped returns 2 and has put in one byte.
After that, `piperead` of one byte to a buffer that is not mapped returns 0 and has taken the byte
out.  `pipewrite` of -2 bytes returns -2. -/
theorem pipe_counts_wrong :
    (∃ s, (pipeCount 1).run (newPipe 1) [(0, .pipewrite 2), (0, .go), (0, .go),
      (0, .copyin (some 7)), (0, .go), (0, .copyin none), (0, .go), (0, .go)] = some s ∧
      (s.pipe.proc 0).loc = .user 2 ∧ s.transfer 0 = ⟨.pipewrite, 1, 0, 0⟩ ∧ ¬s.Honest) ∧
    (∃ s, (pipeCount 1).run (newPipe 1) [(0, .pipewrite 1), (0, .go), (0, .go),
      (0, .copyin (some 7)), (0, .go), (0, .go), (0, .go), (0, .piperead 1), (0, .go), (0, .go),
      (0, .go), (0, .copyout false), (0, .go), (0, .go)] = some s ∧
      (s.pipe.proc 0).loc = .user 0 ∧ s.transfer 0 = ⟨.piperead, 0, 1, 0⟩ ∧ ¬s.Honest) ∧
    ∃ s, (pipeCount 1).run (newPipe 1) [(0, .pipewrite (-2)), (0, .go), (0, .go), (0, .go),
      (0, .go)] = some s ∧
      (s.pipe.proc 0).loc = .user (-2) ∧ s.transfer 0 = ⟨.pipewrite, 0, 0, 0⟩ ∧ ¬s.Honest := by
  have hwrong : ∀ {ls : List (Fin 1 × PipeAct)} {r : ℤ} {x : Transfer}, ¬x.Reports r →
      ((pipeCount 1).run (newPipe 1) ls).any (fun s =>
        decide ((s.pipe.proc 0).loc = .user r ∧ s.transfer 0 = x)) = true →
      ∃ s, (pipeCount 1).run (newPipe 1) ls = some s ∧ (s.pipe.proc 0).loc = .user r ∧
        s.transfer 0 = x ∧ ¬s.Honest := by
    intro ls r x hx hrun
    obtain ⟨s, hs, hl, ht⟩ := exists_of_any hrun
    exact ⟨s, hs, hl, ht, fun h => hx (ht ▸ h 0 r hl)⟩
  exact ⟨hwrong (by simp [Transfer.Reports]) (by decide +kernel),
    hwrong (by simp [Transfer.Reports]) (by decide +kernel),
    hwrong (by simp [Transfer.Reports]) (by decide +kernel)⟩

end Xv6Container
