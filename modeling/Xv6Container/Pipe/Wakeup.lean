import Xv6Container.Pipe.Fifo

/-!
# Wakeups on pipes

A reader sleeps on `&pi->nread` while the pipe is empty and its write end is open, a writer on
`&pi->nwrite` while it is full and its read end is open (`Pipe.Blocked`).  Whenever `pi->lock` is
free, nobody should be asleep, or on the way to it, for another reason (`PipeState.Awaited`).

While a process holds the lock it may have put bytes in or taken bytes out, and owes a wakeup.
`PipeState.Owes` says, location by location, what is still to be made up for when the lock is
released.  Every way out of `piperead` and `pipeclose` pays.  One way out of `pipewrite` does not:
where it finds the pipe full and gives up, because the read end is closed or the process is killed,
it returns without `wakeup(&pi->nread)`, although it may have put in the bytes that fill the pipe.

* `pipewrite_forgets_reader` : a reader sleeps on, in front of a full pipe;
* `no_lost_wakeup` : **no wakeup is lost in a run in which `pipewrite` never gives up with bytes it
  has just put in**.
-/

namespace Xv6Container

/-- The reason for a process to sleep on a channel of a pipe. -/
def Pipe.Blocked (pi : Pipe) : PipeChan → Prop
  | .nread => pi.Empty ∧ pi.writeopen = true
  | .nwrite => pi.Full ∧ pi.readopen = true

/-- The other channel. -/
def PipeChan.other : PipeChan → PipeChan
  | .nread => .nwrite
  | .nwrite => .nread

namespace PipeState

variable {N : ℕ} {s s' : PipeState N} {p q : Fin N} {c : PipeChan}

/-- Process `q` sleeps on `c`, or is in `sleep` on the way to it. -/
def Waits (s : PipeState N) (q : Fin N) (c : PipeChan) : Prop :=
  (s.proc q).sleep = .entering c ∨ (s.proc q).sleep = .sleeping c

/-- Everyone who waits on `c` has a reason to. -/
def Awaited (s : PipeState N) (c : PipeChan) : Prop := ∀ q, s.Waits q c → s.pi.Blocked c

/-- What the process with the lock has kept true at a location, and what it has yet to make up
for. -/
def Owes (s : PipeState N) : PipeLoc → Prop
  | .wLoop _ i base | .wCopy _ i base =>
    s.Awaited .nwrite ∧ base ≤ i ∧ (base = i → s.Awaited .nread)
  | .rLoop _ => s.Awaited .nread ∧ s.Awaited .nwrite
  | .rCopy _ _ | .rTake _ _ => s.Awaited .nread
  | .wakeup c k next =>
    s.Awaited c.other ∧ (∀ q : Fin N, (q : ℕ) < k → ¬s.Waits q c) ∧
      ∀ n i, next = .sleep n i → c = .nread ∧ s.pi.Blocked .nwrite
  | .user _ | .wAcquire _ _ | .rAcquire _ | .cAcquire _ => True

/-! ### Steps that only wake processes up -/

theorem Awaited.mono (h : s.Awaited c) (hpi : s'.pi = s.pi)
    (hw : ∀ q c, s'.Waits q c → s.Waits q c) : s'.Awaited c := fun q hq => by
  rw [hpi]
  exact h q (hw q c hq)

variable {l : PipeLoc} {n : ℤ} {i : ℕ}

theorem Owes.mono (h : s.Owes l) (hpi : s'.pi = s.pi)
    (hw : ∀ q c, s'.Waits q c → s.Waits q c) : s'.Owes l := by
  cases l with
  | user _ | wAcquire _ _ | rAcquire _ | cAcquire _ => trivial
  | wLoop n i base => exact ⟨h.1.mono hpi hw, h.2.1, fun hb => (h.2.2 hb).mono hpi hw⟩
  | wCopy n i base => exact ⟨h.1.mono hpi hw, h.2.1, fun hb => (h.2.2 hb).mono hpi hw⟩
  | rLoop n => exact ⟨h.1.mono hpi hw, h.2.mono hpi hw⟩
  | rCopy n i => exact Awaited.mono h hpi hw
  | rTake n i => exact Awaited.mono h hpi hw
  | wakeup c k next =>
    refine ⟨h.1.mono hpi hw, fun q hq hwq => h.2.1 q hq (hw q c hwq), fun n i hn => ?_⟩
    rw [hpi]
    exact h.2.2 n i hn

theorem waits_goto : (s.goto p l).Waits q c ↔ s.Waits q c := by
  simp [Waits]

theorem waits_doze {d : PipeChan} (hz : (s.proc p).sleep = .entering d)
    (h : (s.setSleep p (.sleeping d)).Waits q c) : s.Waits q c := by
  unfold Waits at *
  rw [setSleep_sleep] at h
  split_ifs at h with hq
  · subst hq
    simp only [PipeSleep.sleeping.injEq, false_or] at h
    exact .inl (h ▸ hz)
  · exact h

theorem Waits.not_awake (h : s.Waits q c) : (s.proc q).sleep ≠ .awake := by
  obtain h | h := h <;> simp [h]

theorem waits_kill (h : (s.kill p).Waits q c) : s.Waits q c := by
  have := kill_sleep h.not_awake
  unfold Waits at *
  rwa [this] at h

theorem waits_wake {d : PipeChan} {r : Fin N} (h : (s.wake d r).Waits q c) : s.Waits q c := by
  have := (wake_sleep h.not_awake).1
  unfold Waits at *
  rwa [this] at h

theorem not_waits_wake (hu : s.Unlocked q) : ¬(s.wake c q).Waits q c := by
  intro h
  obtain ⟨hsame, hne⟩ := wake_sleep h.not_awake
  unfold Waits at h
  rw [hsame] at h
  obtain h | h := h
  · exact hu c h
  · exact hne rfl h

/-! ### The invariant -/

/-- Nobody waits without a reason while the lock is free, and the process that holds it knows
what it owes. -/
structure Woken (s : PipeState N) : Prop where
  fifo : s.Fifo
  free : s.lock = none → ∀ c, s.Awaited c
  held : ∀ p, s.lock = some p → s.Owes (s.proc p).loc

theorem Woken.aside (h : s.Woken) (hs : s.Step p s') (hpi : s'.pi = s.pi)
    (hlock : s'.lock = s.lock) (hw : ∀ q c, s'.Waits q c → s.Waits q c)
    (hloc : ∀ q, s.lock = some q → (s'.proc q).loc = (s.proc q).loc) : s'.Woken := by
  refine ⟨h.fifo.step hs, fun hf c => ?_, fun q hq => ?_⟩
  · exact (h.free (hlock ▸ hf) c).mono hpi hw
  · rw [hlock] at hq
    rw [hloc q hq]
    exact (h.held q hq).mono hpi hw

theorem Woken.hold {t : PipeState N} (h : s.Woken) (hs : s.Step p (t.goto p l))
    (hlock : t.lock = some p) (hl : t.Owes l) : (t.goto p l).Woken := by
  refine ⟨h.fifo.step hs, fun hf => ?_, fun q hq => ?_⟩
  · rw [goto_lock, hlock] at hf
    cases hf
  · rw [goto_lock, hlock] at hq
    cases hq
    rw [goto_loc, if_pos rfl]
    exact hl.mono rfl fun q c => waits_goto.1

theorem Woken.drop (h : s.Woken) (hs : s.Step p s') (hlock : s'.lock = none)
    (hw : ∀ c, s'.Awaited c) : s'.Woken :=
  ⟨h.fifo.step hs, fun _ => hw, fun q hq => by rw [hlock] at hq; cases hq⟩

/-- `pipewrite` finds the pipe full, after it has put bytes in since it took the lock, and gives
up. -/
def Deserts (s : PipeState N) (p : Fin N) : Prop :=
  match (s.proc p).loc with
  | .wLoop n i base =>
    base < i ∧ (i : ℤ) < n ∧ s.pi.Full ∧ (s.pi.readopen = false ∨ (s.proc p).killed = true)
  | _ => False

instance (s : PipeState N) (p : Fin N) : Decidable (s.Deserts p) := by
  unfold Deserts
  split <;> infer_instance

theorem Woken.owes (h : s.Woken) (hl : (s.proc p).loc = l)
    (hcrit : l.critical = true) : s.lock = some p ∧ s.Owes l := by
  subst hl
  have hlock := (h.fifo.locked.critical p).1 hcrit
  exact ⟨hlock, h.held p hlock⟩

theorem Woken.push (h : s.Woken) {base : ℕ} (ch : UInt8)
    (hl : (s.proc p).loc = .wCopy n i base) :
    ({ s with pi := s.pi.push ch, put := s.put ++ [ch] }.goto p
      (.wLoop n (i + 1) base)).Woken := by
  obtain ⟨hlock, hw, hb, -⟩ := h.owes hl rfl
  refine h.hold (.push ch hl) hlock ⟨fun q hq => ?_, by omega, by omega⟩
  exact absurd (hw q hq).1 (h.fifo.room p n i base hl)

theorem Woken.pop (h : s.Woken) (l : PipeLoc)
    (hl : (s.proc p).loc = .rTake n i)
    (hnext : l = .rCopy n (i + 1) ∨ l = .wakeup .nwrite 0 (.ret i)) :
    ({ s with pi := s.pi.pop, got := s.got ++ [s.pi.front] }.goto p l).Woken := by
  obtain ⟨hlock, hr⟩ := h.owes hl rfl
  have hr' : { s with pi := s.pi.pop, got := s.got ++ [s.pi.front] }.Awaited .nread :=
    fun q hq => absurd (hr q hq).1 (h.fifo.some p n i hl)
  refine h.hold (.pop l hl hnext) hlock ?_
  obtain rfl | rfl := hnext
  · exact hr'
  · exact ⟨hr', by simp, by simp⟩

theorem Woken.lockClose (h : s.Woken) {w : Bool} (hz : (s.proc p).sleep = .awake)
    (hl : (s.proc p).loc = .cAcquire w) (hf : s.lock = none) :
    ({ s.acquire p with pi := s.pi.close w }.goto p
      (.wakeup (if w then .nread else .nwrite) 0 .close)).Woken := by
  refine h.hold (.lockClose hz hl hf) rfl ⟨fun q hq => ?_, by simp, by simp⟩
  cases w with
  | false => exact h.free hf .nread q hq
  | true => exact h.free hf .nwrite q hq

theorem Woken.after (h : s.Woken) {k : ℕ} {next : AfterWakeup}
    (hl : (s.proc p).loc = .wakeup c k next) (hk : N ≤ k) : (s.afterWakeup p next).Woken := by
  have hs := Step.after hl hk
  obtain ⟨-, hother, hnone, hsleep⟩ := h.owes hl rfl
  have hnone : ∀ q, ¬s.Waits q c := fun q => hnone q (by omega)
  have hall : ∀ d, s.Awaited d := by
    intro d q hq
    by_cases hd : d = c
    · exact absurd (hd ▸ hq) (hnone q)
    · have : d = c.other := by cases c <;> cases d <;> first | rfl | exact absurd rfl hd
      subst this
      exact hother q hq
  cases next with
  | ret v => exact h.drop hs rfl fun d q hq => hall d q (waits_goto.1 hq)
  | close => exact h.drop hs rfl fun d q hq => hall d q (waits_goto.1 hq)
  | sleep n i =>
    -- the process itself goes to sleep for want of room
    obtain ⟨-, hblocked⟩ := hsleep n i rfl
    refine h.drop hs rfl fun d q hq => ?_
    unfold Waits at hq
    simp only [afterWakeup, setSleep_sleep, goto_sleep] at hq
    split_ifs at hq with hqp
    · have hd : d = .nwrite := by simpa [eq_comm] using hq
      subst hd
      exact hblocked
    · exact hall d q hq

theorem Woken.wait (h : s.Woken) (hl : (s.proc p).loc = .rLoop n) (he : s.pi.Empty)
    (hw : s.pi.writeopen = true) :
    ((s.release.goto p (.rAcquire n)).setSleep p (.entering .nread)).Woken := by
  obtain ⟨-, hr, hwr⟩ := h.owes hl rfl
  refine h.drop (.wait hl he hw) rfl fun d q hq => ?_
  unfold Waits at hq
  rw [setSleep_sleep, goto_sleep] at hq
  split_ifs at hq with hqp
  · have hd : d = .nread := by simpa [eq_comm] using hq
    subst hd
    exact ⟨he, hw⟩
  · cases d with
    | nread => exact hr q hq
    | nwrite => exact hwr q hq

theorem Woken.step (h : s.Woken) (hs : s.Step p s') (hc : ¬s.Deserts p) : s'.Woken := by
  cases hs with
  | push ch hl => exact h.push ch hl
  | pop l hl hnext => exact h.pop l hl hnext
  | lockClose hz hl hf => exact h.lockClose hz hl hf
  | after hl hk => exact h.after hl hk
  | wait hl he hw => exact h.wait hl he hw
  | call hl hcrit =>
    refine h.aside (.call hl hcrit) rfl rfl (fun q c => waits_goto.1) fun q hq => ?_
    have : q ≠ p := by
      rintro rfl
      have := (h.fifo.locked.critical q).2 hq
      rw [hl] at this
      cases this
    simp [this]
  | kill hu => exact h.aside (.kill hu) rfl rfl (fun q c => waits_kill) fun q _ => kill_loc
  | doze hz =>
    exact h.aside (.doze hz) rfl rfl (fun q c => waits_doze hz) fun q _ => setSleep_loc _
  | lockWrite hz hl hf =>
    exact h.hold (.lockWrite hz hl hf) rfl ⟨h.free hf .nwrite, le_rfl, fun _ => h.free hf .nread⟩
  | lockRead hz hl hf =>
    exact h.hold (.lockRead hz hl hf) rfl ⟨h.free hf .nread, h.free hf .nwrite⟩
  | @giveUp n i base hl hi hfull hstop =>
    -- the process has put nothing in since it took the lock
    obtain ⟨-, hw, hb, hr⟩ := h.owes hl rfl
    have hbase : base = i := by
      by_contra hne
      refine hc ?_
      rw [Deserts, hl]
      exact ⟨by omega, hi, hfull, hstop⟩
    refine h.drop (.giveUp hl hi hfull hstop) rfl fun d q hq => ?_
    cases d with
    | nread => exact hr hbase q (waits_goto.1 hq)
    | nwrite => exact hw q (waits_goto.1 hq)
  | full hl hfull hr =>
    obtain ⟨hlock, hw, -⟩ := h.owes hl rfl
    exact h.hold (.full hl hfull hr) hlock ⟨hw, by simp, fun _ _ _ => ⟨rfl, hfull, hr⟩⟩
  | room hl hfull =>
    obtain ⟨hlock, how⟩ := h.owes hl rfl
    exact h.hold (.room hl hfull) hlock how
  | written hl =>
    have how : s.lock = some p ∧ s.Awaited .nwrite := by
      obtain hl | hl := hl
      · exact ⟨(h.owes hl rfl).1, (h.owes hl rfl).2.1⟩
      · exact ⟨(h.owes hl rfl).1, (h.owes hl rfl).2.1⟩
    exact h.hold (.written hl) how.1 ⟨how.2, by simp, by simp⟩
  | readKilled hl =>
    obtain ⟨-, hr, hw⟩ := h.owes hl rfl
    refine h.drop (.readKilled hl) rfl fun d q hq => ?_
    cases d with
    | nread => exact hr q (waits_goto.1 hq)
    | nwrite => exact hw q (waits_goto.1 hq)
  | start hl =>
    obtain ⟨hlock, hr, -⟩ := h.owes hl rfl
    exact h.hold (.start hl) hlock hr
  | more hl he =>
    obtain ⟨hlock, hr⟩ := h.owes hl rfl
    exact h.hold (.more hl he) hlock hr
  | read hl =>
    obtain ⟨hlock, hr⟩ := h.owes hl rfl
    exact h.hold (.read hl) hlock ⟨hr, by simp, by simp⟩
  | @wake c next q hl hu =>
    obtain ⟨hlock, hother, hnone, hsleep⟩ := h.owes hl rfl
    refine h.hold (.wake q hl hu) (by rwa [wake_lock]) ⟨?_, fun r hr hwr => ?_, ?_⟩
    · exact hother.mono (wake_pi c q) fun r d => waits_wake
    · by_cases hrq : r = q
      · subst hrq
        exact not_waits_wake hu hwr
      · exact hnone r (by omega) (waits_wake hwr)
    · rwa [wake_pi]

theorem Fresh.woken (h : s.Fresh) : s.Woken := by
  have hnone : ∀ q c, ¬s.Waits q c := fun q c hq => hq.not_awake (h.awake q)
  refine ⟨h.fifo, fun _ c q hq => absurd hq (hnone q c), fun p hp => ?_⟩
  rw [h.lock] at hp
  cases hp

theorem act_of_wLoop {a : PipeAct} {base : ℕ} (hl : (s.proc p).loc = .wLoop n i base)
    (h : (pipeMachine N).next s (p, a) = some s') : a = .go ∨ a = .kill := by
  cases a with
  | go => exact .inl rfl
  | kill => exact .inr rfl
  | pipewrite n | piperead n | pipeclose w => simp [pipeMachine, call, hl] at h
  | copyin ch => simp [pipeMachine, copyin, hl] at h
  | copyout ok => simp [pipeMachine, copyout, hl] at h

theorem Woken.next {l : Fin N × PipeAct} (h : s.Woken) (hc : l.2 = .go → ¬s.Deserts l.1)
    (hst : (pipeMachine N).next s l = some s') : s'.Woken := by
  obtain ⟨p, a⟩ := l
  by_cases ha : a = .kill
  · subst ha
    simp only [pipeMachine, Option.ite_none_right_eq_some, Option.some.injEq] at hst
    obtain ⟨hu, rfl⟩ := hst
    exact h.aside (.kill hu) rfl rfl (fun q c => waits_kill) fun q _ => kill_loc
  · refine h.step (pipeMachine_step hst) fun hd => ?_
    cases hl : (s.proc p).loc with
    | wLoop n i base => exact hc ((act_of_wLoop hl hst).resolve_right ha) hd
    | _ => simp [Deserts, hl] at hd

end PipeState

/-- **No wakeup is lost on a pipe**, in a run in which `pipewrite` never finds the pipe full and
gives up after it has put bytes in since it took the lock: whenever `pi->lock` is free, a process
that sleeps on `&pi->nread` is in front of an empty pipe with an open write end, and one that
sleeps on `&pi->nwrite` in front of a full pipe with an open read end. -/
theorem no_lost_wakeup {N : ℕ} {s s' : PipeState N} {ls : List (Fin N × PipeAct)} (h0 : s.Fresh)
    (h : (pipeMachine N).Run (fun s l => l.2 = .go → ¬s.Deserts l.1) s ls s')
    (hlock : s'.lock = none) (q : Fin N) :
    ((s'.proc q).sleep = .sleeping .nread → s'.pi.Empty ∧ s'.pi.writeopen = true) ∧
      ((s'.proc q).sleep = .sleeping .nwrite → s'.pi.Full ∧ s'.pi.readopen = true) := by
  have hwoken : s'.Woken := h.invariant h0.woken fun _ _ _ ht hc hst => ht.next hc hst
  exact ⟨fun hz => hwoken.free hlock .nread q (.inr hz),
    fun hz => hwoken.free hlock .nwrite q (.inr hz)⟩

/-- Process `0` calls `piperead` on an empty pipe and falls asleep. -/
def readerSleeps : List (Fin 2 × PipeAct) := [(0, .piperead 1), (0, .go), (0, .go), (0, .go)]

theorem no_lost_wakeup_reader : ∃ s',
    (pipeMachine 2).runIf (fun s l => l.2 = .go → ¬s.Deserts l.1) (pipealloc 2) readerSleeps =
      some s' ∧ (s'.proc 0).sleep = .sleeping .nread ∧ s'.pi.Empty := by
  have hrun : (pipeMachine 2).runIf (fun s l => l.2 = .go → ¬s.Deserts l.1) (pipealloc 2)
      readerSleeps = some _ := rfl
  have h := no_lost_wakeup (fresh_pipealloc 2) (Machine.runIf_eq_some_iff.1 hrun) rfl 0
  exact ⟨_, hrun, rfl, (h.1 rfl).1⟩

/-- Process `1` puts a byte in and finds room for it. -/
def putByte : List (Fin 2 × PipeAct) := [(1, .go), (1, .copyin (some 0))]

/-- Process `1` writes one byte more than fits in the pipe and is killed when the pipe is full. -/
def killedWriter : List (Fin 2 × PipeAct) :=
  [(1, .pipewrite 513), (1, .go)] ++ (List.replicate 512 putByte).flatten ++ [(1, .kill), (1, .go)]

theorem pipewrite_forgets_reader : ∃ s',
    (pipeMachine 2).Run (fun _ _ => True) (pipealloc 2) (readerSleeps ++ killedWriter) s' ∧
      s'.lock = none ∧ (s'.proc 0).sleep = .sleeping .nread ∧ ¬s'.pi.Empty :=
  Machine.exists_run (by decide +kernel)

end Xv6Container
