import Xv6Container.Sched.Search

/-!
# Schedulers and paused containers

Any number of CPUs run `scheduler` of `kernel/proc.c`, interleaved with each other and with the
calls of the processes they run.  A scheduler looks for a running container (one step for each turn
of `get_next_active_container`), tests the slots one by one for a process of this container, and
searches again after a process has come back and at the end of the table.

The state of the container is looked at in the search only.  A container that is paused while a
scheduler is scanning for it is therefore still served once.

* `dispatched_running` : if no container is paused or stopped under a scanning scheduler, every
  process is dispatched while its container is running;
* `dispatched_paused` : a run from boot in which a process of a paused container is dispatched.
-/

namespace Xv6Container

/-- Where the scheduler of a CPU is. -/
inductive SchedPc where
  /-- In the loop of `get_next_active_container`, to go on with slot `q`. -/
  | search (index : Cont) (q : ℕ)
  /-- Before the test of slot `q`, with `cindex` at container `c`. -/
  | scan (c : Cont) (q : ℕ)
  /-- In `swtch`: the process in slot `q` is running. -/
  | running (c : Cont) (q : Slot)
  deriving DecidableEq, Repr

/-- The tables, and the schedulers of the CPUs in `K`. -/
structure Cpus (K : Type) where
  kernel : Kernel
  pc : K → SchedPc

/-- A step of one CPU, or an interrupt. -/
inductive CpuEvent (K : Type) where
  /-- The next step of the scheduler of CPU `k`: a turn of the search, or the test of a slot. -/
  | sched (k : K)
  /-- The process on CPU `k` makes a call. -/
  | call (k : K) (c : Call)
  /-- The process on CPU `k` comes back to the scheduler. -/
  | back (k : K)
  /-- The sleepers on `chan` are woken. -/
  | wakeup (chan : Chan)

namespace Cpus

variable {K : Type} [DecidableEq K]

/-- CPU `k` goes to `x`. -/
def goto (s : Cpus K) (k : K) (x : SchedPc) : Cpus K := { s with pc := Function.update s.pc k x }

/-- The next step of the scheduler of CPU `k`. -/
def schedStep (s : Cpus K) (k : K) : Option (Cpus K) :=
  match s.pc k with
  | .search index q =>
    let index := index + 1
    if s.kernel.Active index then some (s.goto k (.scan index q))
    else some (s.goto k (.search index q))
  | .scan c q =>
    if h : q < NPROC then
      if s.kernel.Takes c ⟨q, h⟩ then
        some { s.goto k (.running c ⟨q, h⟩) with
          kernel := s.kernel.modifyProc ⟨q, h⟩ fun p => { p with state := .running, chan := none } }
      else some (s.goto k (.scan c (q + 1)))
    else some (s.goto k (.search c 0))
  | .running _ _ => none

/-- The scheduler of CPU `k` is about to take the process in slot `q`. -/
def Dispatches (s : Cpus K) (k : K) (q : Slot) : Prop :=
  ∃ c, s.pc k = .scan c q ∧ s.kernel.Takes c q

instance (s : Cpus K) (k : K) (q : Slot) : Decidable (s.Dispatches k q) :=
  inferInstanceAs (Decidable (∃ _, _))

/-- All schedulers start with `get_next_active_container(0)`. -/
def start (K : Type) (s : Kernel) : Cpus K := ⟨s, fun _ => .search 0 0⟩

/-- A step that pauses or stops no container for which a scheduler is scanning. -/
def Undisturbed (s : Cpus K) : CpuEvent K → Prop
  | .call k (.control (.cpause name)) | .call k (.control (.cstop name)) =>
    ∀ c q, s.pc k = .running c q → s.kernel.mycont q = some root →
      ∀ d, s.kernel.contNamed name = some d → ∀ k' q', s.pc k' ≠ .scan d q'
  | _ => True

end Cpus

/-- **The schedulers of all CPUs.**  A process that has come back may still be `RUNNING`, which the
code excludes. -/
def schedulers (K : Type) [DecidableEq K] : Machine (Cpus K) (CpuEvent K) where
  next s
    | .sched k => s.schedStep k
    | .call k c =>
      match s.pc k with
      | .running _ q => (s.kernel.perform q c).toOption.map fun t => { s with kernel := t }
      | _ => none
    | .back k =>
      match s.pc k with
      | .running c q => some (s.goto k (.search c (q + 1)))
      | _ => none
    | .wakeup chan => some { s with kernel := s.kernel.wakeup chan }

namespace Cpus

variable {K : Type} [DecidableEq K] {s s' : Cpus K} {e : CpuEvent K}

/-- The containers for which schedulers scan are running. -/
def Chosen (s : Cpus K) : Prop := ∀ k c q, s.pc k = .scan c q → s.kernel.Active c

theorem Chosen.goto (hs : s.Chosen) {k : K} {x : SchedPc} {t : Kernel}
    (ht : t.containers = s.kernel.containers)
    (hx : ∀ c q, x = .scan c q → s.kernel.Active c) : Chosen { s.goto k x with kernel := t } := by
  intro k' c q hk'
  have hact : s.kernel.Active c := by
    by_cases hk : k' = k
    · subst hk
      exact hx c q (by simpa [Cpus.goto] using hk')
    · exact hs k' c q (by simpa [Cpus.goto, hk] using hk')
  simpa only [Kernel.Active, ht] using hact

theorem Chosen.schedStep (hs : s.Chosen) {k : K} (h : s.schedStep k = some s') : s'.Chosen := by
  unfold Cpus.schedStep at h
  split at h
  · dsimp only at h
    split at h
    · rename_i index q _ hact
      cases h
      refine hs.goto rfl fun c q' hx => ?_
      cases hx
      exact hact
    · cases h
      exact hs.goto rfl fun c q hx => by cases hx
  · rename_i c q hpc
    split at h
    · split at h
      · cases h
        exact hs.goto rfl fun c q hx => by cases hx
      · cases h
        refine hs.goto rfl fun c' q' hx => ?_
        cases hx
        exact hs k c q hpc
    · cases h
      exact hs.goto rfl fun c q hx => by cases hx
  · cases h

omit [DecidableEq K] in
theorem Chosen.call (hs : s.Chosen) {k : K} {c : Cont} {q : Slot} {call : Call} {t : Kernel}
    (hpc : s.pc k = .running c q) (hu : s.Undisturbed (.call k call))
    (h : s.kernel.perform q call = .ok t) : Chosen { s with kernel := t } := by
  intro k' d q' hk'
  have hact : s.kernel.Active d := hs k' d q' hk'
  obtain ⟨_, hf, -⟩ | ⟨_, l, name, ⟨⟩, hroot, hf, hst⟩ | hst := Kernel.cont_of_perform h d
  · -- `cinit` takes an unused container
    have hfree : (s.kernel.containers d).state = .cunused := by simpa using Kernel.findCont_spec hf
    rw [show (s.kernel.containers d).state = .crunning from hact] at hfree
    cases hfree
  · cases l with
    | cpause => exact absurd hk' (hu c q hpc hroot d hf k' q')
    | cstop => exact absurd hk' (hu c q hpc hroot d hf k' q')
    | cresume =>
      rw [Kernel.Active, hst]
      rfl
  · rw [Kernel.Active, hst]
    exact hact

theorem Chosen.step (hs : s.Chosen) (hu : s.Undisturbed e) (h : (schedulers K).next s e = some s') :
    s'.Chosen := by
  cases e with
  | sched k => exact hs.schedStep h
  | call k call =>
    simp only [schedulers] at h
    split at h
    · rename_i c q hpc
      obtain ⟨t, ht, rfl⟩ := Option.map_eq_some_iff.1 h
      exact hs.call hpc hu (toOption_eq_some.1 ht)
    · cases h
  | back k =>
    simp only [schedulers] at h
    split at h
    · cases h
      exact hs.goto rfl fun c q hx => by cases hx
    · cases h
  | wakeup chan =>
    cases h
    exact fun k c q hk => hs k c q hk

end Cpus

/-- **Only processes of running containers are dispatched.**  For any number of CPUs and every
interleaving of their schedulers with each other and with all calls, in which no container is paused
or stopped while a scheduler scans the table for it: when a scheduler takes a process, the container
of the process is running. -/
theorem dispatched_running {K : Type} [DecidableEq K] {s₀ : Kernel} {ls : List (CpuEvent K)}
    {s : Cpus K} {k : K} {q : Slot}
    (h : (schedulers K).Run Cpus.Undisturbed (Cpus.start K s₀) ls s) (hq : s.Dispatches k q) :
    ∃ c, (s.kernel.proc q).container = some c ∧ s.kernel.Active c := by
  have hs : s.Chosen := h.invariant (fun k c q hk => by cases hk) fun _ _ _ hs hu hst =>
    hs.step hu hst
  obtain ⟨c, hpc, -, hc⟩ := hq
  exact ⟨c, hc, hs k c q hpc⟩

/-- Two CPUs: the first runs init, the second its child, which makes the container `web` and forks.
The second scheduler has then chosen `web` and stands before the slot of the new process. -/
def chosenRun : List (CpuEvent (Fin 2)) :=
  List.replicate 6 (.sched 0) ++ [.call 0 (.fork .ok)] ++ List.replicate 7 (.sched 1) ++
    [.call 1 (.control (.cinit (chars "web") (chars ".") 2 100 100 (some 0))), .call 1 (.fork .ok),
      .call 1 .yield, .back 1, .sched 1]

theorem exists_of_chosenRun (ls : List (CpuEvent (Fin 2)))
    (P : Cpus (Fin 2) → Prop) [DecidablePred P] (h : ((boot [] 0).toOption.bind fun s₀ =>
      ((schedulers (Fin 2)).run (Cpus.start _ s₀) ls).map fun s => decide (P s)) = some true) :
    ∃ s₀ s, boot [] 0 = .ok s₀ ∧ (schedulers (Fin 2)).run (Cpus.start _ s₀) ls = some s ∧ P s := by
  obtain ⟨s₀, hs0, h⟩ := Option.bind_eq_some_iff.1 h
  obtain ⟨s, hs, hP⟩ := Option.map_eq_some_iff.1 h
  exact ⟨s₀, s, toOption_eq_some.1 hs0, hs, of_decide_eq_true hP⟩

/-- The process of `web` is dispatched. -/
theorem dispatched_running_web : ∃ s₀ s, boot [] 0 = .ok s₀ ∧
    (schedulers (Fin 2)).Run Cpus.Undisturbed (Cpus.start (Fin 2) s₀) chosenRun s ∧
      s.Dispatches 1 2 ∧ ∃ c, (s.kernel.proc 2).container = some c ∧ s.kernel.Active c := by
  obtain ⟨s₀, s, hb, hrun, hq⟩ := exists_of_chosenRun chosenRun
    (fun s => s.Dispatches 1 2) (by decide +kernel)
  have hun : (schedulers (Fin 2)).Run Cpus.Undisturbed (Cpus.start (Fin 2) s₀) chosenRun s := by
    refine (Machine.run_eq_some_iff.1 hrun).of_forall_mem fun l hl s => ?_
    simp only [chosenRun, List.mem_append, List.mem_replicate, List.mem_cons, List.not_mem_nil]
      at hl
    rcases hl with (((⟨-, rfl⟩ | rfl | h) | ⟨-, rfl⟩) | rfl | rfl | rfl | rfl | rfl | h) <;>
      trivial
  exact ⟨s₀, s, hb, hun, hq, dispatched_running hun hq⟩

/-- Init pauses `web`, and the process is dispatched all the same. -/
theorem dispatched_paused : ∃ s₀ s, boot [] 0 = .ok s₀ ∧ (schedulers (Fin 2)).run
    (Cpus.start (Fin 2) s₀) (chosenRun ++ [.call 0 (.control (.cpause (chars "web")))]) = some s ∧
      s.Dispatches 1 2 ∧ (s.kernel.proc 2).container = some 1 ∧
        (s.kernel.containers 1).state = .csuspended :=
  exists_of_chosenRun _ _ (by decide +kernel)

end Xv6Container
