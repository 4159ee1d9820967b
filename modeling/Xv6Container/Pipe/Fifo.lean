import Xv6Container.Pipe.Steps

/-!
# A pipe is a queue

The counters of a pipe run freely modulo `2 ^ 32`, and the ring of `PIPESIZE` bytes they index
divides that modulus.  So the bytes between them, oldest first (`Pipe.items`), are what was put in
and not yet taken out, however often the counters have wrapped:

* `Pipe.full_iff`, `Pipe.empty_iff` : the tests of `pipewrite` and `piperead` compare the wrapped
  counters, and decide whether `PIPESIZE` or `0` bytes are between them;
* `pipe_fifo` : **what readers take out is a prefix of what writers put in**, and the rest is what
  the ring holds, after any interleaving of the steps of any number of readers and writers.
-/

namespace Xv6Container

namespace Pipe

variable {pi : Pipe}

/-- `pi->nwrite - pi->nread`: the number of bytes in the pipe. -/
def count (pi : Pipe) : ℕ := (pi.nwrite - pi.nread).toNat

/-- The bytes in the pipe, oldest first. -/
def items (pi : Pipe) : List UInt8 := Ring.items pi.data PIPESIZE pi.nread.toNat pi.count

theorem count_eq : pi.count = Ring.count (2 ^ 32) pi.nread.toNat pi.nwrite.toNat :=
  UInt32.toNat_sub ..

theorem full_iff : pi.Full ↔ pi.count = PIPESIZE := by
  rw [count_eq, Ring.count_eq_iff pi.nread.toNat_lt pi.nwrite.toNat_lt (by decide), Full,
    ← UInt32.toNat_inj, UInt32.toNat_add]
  rfl

theorem empty_iff : pi.Empty ↔ pi.count = 0 := by
  rw [count_eq, Ring.count_eq_zero pi.nread.toNat_lt pi.nwrite.toNat_lt, Empty,
    ← UInt32.toNat_inj]

theorem nwrite_mod : pi.nwrite.toNat % PIPESIZE = (pi.nread.toNat + pi.count) % PIPESIZE := by
  have hlt : pi.count < 2 ^ 32 := UInt32.toNat_lt _
  have h := (Ring.count_eq_iff pi.nread.toNat_lt pi.nwrite.toNat_lt hlt).1 count_eq.symm
  rw [h, Nat.mod_mod_of_dvd _ (by decide)]

theorem count_push {ch : UInt8} (h : pi.count < PIPESIZE) : (pi.push ch).count = pi.count + 1 := by
  have hlt : pi.count + 1 < 2 ^ 32 := Nat.lt_of_le_of_lt h (by decide)
  rw [count_eq] at hlt
  have hnext : (pi.push ch).nwrite.toNat = (pi.nwrite.toNat + 1) % 2 ^ 32 := UInt32.toNat_add ..
  rw [count_eq, count_eq, hnext]
  exact Ring.count_push pi.nread.toNat_lt pi.nwrite.toNat_lt hlt

theorem items_push {ch : UInt8} (h : pi.count < PIPESIZE) :
    (pi.push ch).items = pi.items ++ [ch] := by
  rw [items, count_push h]
  exact Ring.items_push _ ch h nwrite_mod

theorem count_pop (h : 0 < pi.count) : pi.count = pi.pop.count + 1 := by
  rw [count_eq] at h
  have hnext : pi.pop.nread.toNat = (pi.nread.toNat + 1) % 2 ^ 32 := UInt32.toNat_add ..
  rw [count_eq, count_eq, hnext]
  exact Ring.count_pop pi.nread.toNat_lt pi.nwrite.toNat_lt h

theorem items_pop (h : 0 < pi.count) : pi.items = pi.front :: pi.pop.items := by
  have hnext : (pi.nread.toNat + 1) % PIPESIZE = pi.pop.nread.toNat % PIPESIZE := by
    rw [show pi.pop.nread.toNat = (pi.nread.toNat + 1) % 2 ^ 32 from UInt32.toNat_add ..,
      Nat.mod_mod_of_dvd _ (by decide)]
  rw [items, count_pop h, Ring.items_pop, Ring.items_congr _ _ hnext]
  rfl

theorem count_close (w : Bool) : (pi.close w).count = pi.count := by
  cases w <;> rfl

theorem items_close (w : Bool) : (pi.close w).items = pi.items := by
  cases w <;> rfl

end Pipe

namespace PipeState

variable {N : ℕ} {s s' : PipeState N} {p : Fin N}

/-- The invariant of the byte steps. -/
structure Fifo (s : PipeState N) : Prop where
  locked : s.Locked
  /-- What was put in is what was taken out and what is in the ring. -/
  history : s.put = s.got ++ s.pi.items
  bound : s.pi.count ≤ PIPESIZE
  /-- `copyin` is called only where there is room. -/
  room : ∀ p n i base, (s.proc p).loc = .wCopy n i base → ¬s.pi.Full
  /-- A byte is taken only where there is one. -/
  some : ∀ p n i, (s.proc p).loc = .rTake n i → ¬s.pi.Empty

theorem Locked.alone (h : s.Locked) (hp : (s.proc p).loc.critical = true) {q : Fin N}
    (hq : (s.proc q).loc.critical = true) : q = p := by
  have hlp := (h.critical p).1 hp
  have hlq := (h.critical q).1 hq
  rw [hlp] at hlq
  exact (Option.some.inj hlq).symm

theorem Fifo.push (h : s.Fifo) {n : ℤ} {i base : ℕ} (ch : UInt8)
    (hl : (s.proc p).loc = .wCopy n i base) :
    ({ s with pi := s.pi.push ch, put := s.put ++ [ch] }.goto p (.wLoop n (i + 1) base)).Fifo := by
  have hlt : s.pi.count < PIPESIZE :=
    lt_of_le_of_ne h.bound fun he => h.room p n i base hl (Pipe.full_iff.2 he)
  have hcrit : (s.proc p).loc.critical = true := by rw [hl]; rfl
  constructor
  · exact h.locked.step (.push ch hl)
  · change s.put ++ [ch] = s.got ++ (s.pi.push ch).items
    rw [Pipe.items_push hlt, h.history, List.append_assoc]
  · change (s.pi.push ch).count ≤ PIPESIZE
    rw [Pipe.count_push hlt]
    exact hlt
  · intro q m j b hq
    by_cases hqp : q = p
    · simp [hqp] at hq
    · rw [goto_loc, if_neg hqp] at hq
      exact absurd (h.locked.alone hcrit (by rw [hq]; rfl)) hqp
  · intro q m j hq
    by_cases hqp : q = p
    · simp [hqp] at hq
    · rw [goto_loc, if_neg hqp] at hq
      exact absurd (h.locked.alone hcrit (by rw [hq]; rfl)) hqp

theorem Fifo.pop (h : s.Fifo) {n : ℤ} {i : ℕ} (l : PipeLoc) (hl : (s.proc p).loc = .rTake n i)
    (hnext : l = .rCopy n (i + 1) ∨ l = .wakeup .nwrite 0 (.ret i)) :
    ({ s with pi := s.pi.pop, got := s.got ++ [s.pi.front] }.goto p l).Fifo := by
  have hpos : 0 < s.pi.count :=
    Nat.pos_of_ne_zero fun he => h.some p n i hl (Pipe.empty_iff.2 he)
  have hcount := Pipe.count_pop hpos
  have hcrit : (s.proc p).loc.critical = true := by rw [hl]; rfl
  constructor
  · exact h.locked.step (.pop l hl hnext)
  · change s.put = (s.got ++ [s.pi.front]) ++ s.pi.pop.items
    rw [h.history, Pipe.items_pop hpos, List.append_assoc]
    rfl
  · change s.pi.pop.count ≤ PIPESIZE
    have := h.bound
    omega
  · intro q m j b hq
    by_cases hqp : q = p
    · obtain rfl | rfl := hnext <;> simp [hqp] at hq
    · rw [goto_loc, if_neg hqp] at hq
      exact absurd (h.locked.alone hcrit (by rw [hq]; rfl)) hqp
  · intro q m j hq
    by_cases hqp : q = p
    · obtain rfl | rfl := hnext <;> simp [hqp] at hq
    · rw [goto_loc, if_neg hqp] at hq
      exact absurd (h.locked.alone hcrit (by rw [hq]; rfl)) hqp

theorem Fifo.goto {l : PipeLoc} (h : s.Fifo) (hs : s.Step p s') (hput : s'.put = s.put)
    (hgot : s'.got = s.got) (hcount : s'.pi.count = s.pi.count) (hitems : s'.pi.items = s.pi.items)
    (hloc : ∀ q, (s'.proc q).loc = if q = p then l else (s.proc q).loc)
    (hw : ∀ n i base, l = .wCopy n i base → ¬s.pi.Full) (hr : ∀ n i, l = .rTake n i → ¬s.pi.Empty) :
    s'.Fifo := by
  constructor
  · exact h.locked.step hs
  · rw [hput, hgot, hitems, h.history]
  · rw [hcount]
    exact h.bound
  · intro q n i base hq
    rw [Pipe.full_iff, hcount, ← Pipe.full_iff]
    rw [hloc] at hq
    split_ifs at hq with hqp
    · exact hw n i base hq
    · exact h.room q n i base hq
  · intro q n i hq
    rw [Pipe.empty_iff, hcount, ← Pipe.empty_iff]
    rw [hloc] at hq
    split_ifs at hq with hqp
    · exact hr n i hq
    · exact h.some q n i hq

theorem loc_ite (q : Fin N) :
    (s.proc q).loc = if q = p then (s.proc p).loc else (s.proc q).loc := by
  split_ifs with h
  · rw [h]
  · rfl

theorem Fifo.step (h : s.Fifo) (hs : s.Step p s') : s'.Fifo := by
  cases hs with
  | push ch hl => exact h.push ch hl
  | pop l hl hnext => exact h.pop l hl hnext
  | call hl hc =>
    refine h.goto (.call hl hc) rfl rfl rfl rfl (fun q => goto_loc _) ?_ ?_
    · rintro n i base rfl
      cases hc
    · rintro n i rfl
      cases hc
  | kill hu =>
    exact h.goto (.kill hu) rfl rfl rfl rfl (fun q => kill_loc.trans (loc_ite q)) (h.room p)
      (h.some p)
  | doze hz =>
    exact h.goto (.doze hz) rfl rfl rfl rfl (fun q => (setSleep_loc _).trans (loc_ite q)) (h.room p)
      (h.some p)
  | room hl hfull =>
    exact h.goto (.room hl hfull) rfl rfl rfl rfl (fun q => goto_loc _) (fun _ _ _ _ => hfull)
      (by simp)
  | more hl he =>
    exact h.goto (.more hl he) rfl rfl rfl rfl (fun q => goto_loc _) (by simp) (fun _ _ _ => he)
  | lockWrite hz hl hf =>
    exact h.goto (.lockWrite hz hl hf) rfl rfl rfl rfl (fun q => goto_loc _) (by simp) (by simp)
  | lockRead hz hl hf =>
    exact h.goto (.lockRead hz hl hf) rfl rfl rfl rfl (fun q => goto_loc _) (by simp) (by simp)
  | lockClose hz hl hf =>
    exact h.goto (.lockClose hz hl hf) rfl rfl (Pipe.count_close _) (Pipe.items_close _)
      (fun q => goto_loc _) (by simp) (by simp)
  | giveUp hl hi hfull hstop =>
    exact h.goto (.giveUp hl hi hfull hstop) rfl rfl rfl rfl (fun q => goto_loc _) (by simp)
      (by simp)
  | full hl hfull hr =>
    exact h.goto (.full hl hfull hr) rfl rfl rfl rfl (fun q => goto_loc _) (by simp) (by simp)
  | written hl =>
    exact h.goto (.written hl) rfl rfl rfl rfl (fun q => goto_loc _) (by simp) (by simp)
  | readKilled hl =>
    exact h.goto (.readKilled hl) rfl rfl rfl rfl (fun q => goto_loc _) (by simp) (by simp)
  | wait hl he hw =>
    exact h.goto (.wait hl he hw) rfl rfl rfl rfl (fun q => (setSleep_loc _).trans (goto_loc _))
      (by simp) (by simp)
  | start hl => exact h.goto (.start hl) rfl rfl rfl rfl (fun q => goto_loc _) (by simp) (by simp)
  | read hl => exact h.goto (.read hl) rfl rfl rfl rfl (fun q => goto_loc _) (by simp) (by simp)
  | @wake c next q hl hu =>
    have hput : (s.wake c q).put = s.put := by unfold PipeState.wake; split_ifs <;> rfl
    have hgot : (s.wake c q).got = s.got := by unfold PipeState.wake; split_ifs <;> rfl
    have hpi : (s.wake c q).pi = s.pi := wake_pi c q
    exact h.goto (.wake q hl hu) hput hgot (congrArg Pipe.count hpi) (congrArg Pipe.items hpi)
      (fun r => by rw [goto_loc, wake_loc]) (by simp) (by simp)
  | @after c k next hl hk =>
    have hs := Step.after hl hk
    cases next with
    | sleep n i =>
      exact h.goto hs rfl rfl rfl rfl (fun q => (setSleep_loc _).trans (goto_loc _)) (by simp)
        (by simp)
    | ret v => exact h.goto hs rfl rfl rfl rfl (fun q => goto_loc _) (by simp) (by simp)
    | close => exact h.goto hs rfl rfl rfl rfl (fun q => goto_loc _) (by simp) (by simp)

theorem Fresh.fifo (h : s.Fresh) : s.Fifo := by
  have hcount : s.pi.count = 0 := by rw [Pipe.count, h.nread, h.nwrite]; rfl
  have huser : ∀ p l, (s.proc p).loc = l → ∃ r, l = .user r := by
    intro p l hl
    obtain ⟨r, hr⟩ := h.user p
    exact ⟨r, hl ▸ hr⟩
  constructor
  · exact h.locked
  · rw [h.put, h.got, Pipe.items, hcount]
    rfl
  · rw [hcount]
    exact Nat.zero_le _
  · intro p n i base hl
    obtain ⟨r, hr⟩ := huser p _ hl
    cases hr
  · intro p n i hl
    obtain ⟨r, hr⟩ := huser p _ hl
    cases hr

end PipeState

/-- **A pipe is a first-in first-out queue.**  After any interleaving of the steps of any number
of readers, writers and closers of a new pipe, the bytes put in are the bytes taken out followed
by the bytes in the ring, in order, and at most `PIPESIZE` bytes are between the two counters. -/
theorem pipe_fifo {N : ℕ} {s s' : PipeState N} {ls : List (Fin N × PipeAct)} (h0 : s.Fresh)
    (h : (pipeMachine N).Run (fun _ _ => True) s ls s') :
    s'.got <+: s'.put ∧ s'.put = s'.got ++ s'.pi.items ∧ s'.pi.items.length = s'.pi.count ∧
      s'.pi.count ≤ PIPESIZE := by
  have hfifo : s'.Fifo := h.invariant h0.fifo fun _ _ _ hf _ hst => hf.step (pipeMachine_step hst)
  exact ⟨⟨s'.pi.items, hfifo.history.symm⟩, hfifo.history, Ring.length_items .., hfifo.bound⟩

/-- A writer puts two bytes in and a reader takes the first of them out. -/
def oneByteRead : List (Fin 2 × PipeAct) :=
  [(0, .pipewrite 2), (0, .go), (0, .go), (0, .copyin (some 7)), (0, .go), (0, .copyin (some 8)),
    (0, .go), (0, .go), (0, .go), (0, .go), (1, .piperead 1), (1, .go), (1, .go), (1, .go),
    (1, .copyout true)]

theorem pipe_fifo_one_byte : ∃ s', (pipeMachine 2).run (pipealloc 2) oneByteRead = some s' ∧
    s'.got = [7] ∧ s'.put = [7, 8] ∧ s'.got <+: s'.put ∧ s'.pi.count ≤ PIPESIZE := by
  have hrun : (pipeMachine 2).run (pipealloc 2) oneByteRead = some _ := rfl
  obtain ⟨hserved, -, -, hbound⟩ := pipe_fifo (fresh_pipealloc 2) (Machine.run_eq_some_iff.1 hrun)
  exact ⟨_, hrun, rfl, rfl, hserved, hbound⟩

end Xv6Container
