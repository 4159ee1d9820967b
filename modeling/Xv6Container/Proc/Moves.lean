import Xv6Container.Proc.System

/-!
# How a slot changes its state

What one step of the process system can do to the state of one slot of the process table, to the
container it carries, and to the CPUs.  All facts about runs of the process system start from
these.

* `Kernel.Quiet` : what the calls have in common that make no process and no container;
* `Kernel.Called` : what a call does;
* `Kernel.Move` : the state changes of a slot, each with the step that makes it;
* `container_of_step` : only `fork` and `cinit` write the container of a slot;
* `onCpu_of_step` : only the scheduler puts a process on a CPU.
-/

namespace Xv6Container

/-- The calls that give a container found by its name another state. -/
inductive LifeCall where
  | cpause | cresume | cstop
  deriving DecidableEq, Repr

/-- The state that the call gives to the container. -/
def LifeCall.state : LifeCall → ContainerState
  | .cpause => .csuspended
  | .cresume => .crunning
  | .cstop => .cunused

/-- The system call. -/
def LifeCall.control : LifeCall → CharArray → Control
  | .cpause, name => .cpause name
  | .cresume, name => .cresume name
  | .cstop, name => .cstop name

/-- The call is a `cinit`. -/
def Call.IsCinit : Call → Prop
  | .control (.cinit ..) => True
  | _ => False

namespace Kernel

variable {s s' t : Kernel} {e : Event} {p q : Slot} {status pid : ℤ} {b : Bool} {name : CharArray}

/-! ### What most calls leave alone -/

/-- Containers, free pages and identifiers stay, every slot keeps its container, and nobody gets on
a CPU. -/
structure Quiet (s s' : Kernel) : Prop where
  containers : s'.containers = s.containers
  freelist : s'.freelist = s.freelist
  started : s'.started = s.started
  nextpid : s'.nextpid = s.nextpid
  row : ∀ q, (s'.proc q).container = (s.proc q).container ∧ (s'.proc q).pid = (s.proc q).pid
  onCpu : ∀ q, s'.OnCpu q → s.OnCpu q

theorem Quiet.refl (s : Kernel) : Quiet s s :=
  ⟨rfl, rfl, rfl, rfl, fun _ => ⟨rfl, rfl⟩, fun _ h => h⟩

theorem Quiet.trans (h : Quiet s t) (h' : Quiet t s') : Quiet s s' where
  containers := h'.containers.trans h.containers
  freelist := h'.freelist.trans h.freelist
  started := h'.started.trans h.started
  nextpid := h'.nextpid.trans h.nextpid
  row q := ⟨(h'.row q).1.trans (h.row q).1, (h'.row q).2.trans (h.row q).2⟩
  onCpu q hq := h.onCpu q (h'.onCpu q hq)

theorem quiet_modifyProc {f : Proc → Proc} (r : Slot)
    (hf : ∀ x, (f x).container = x.container ∧ (f x).pid = x.pid) : Quiet s (s.modifyProc r f) := by
  refine ⟨rfl, rfl, rfl, rfl, fun q => ?_, fun _ h => h⟩
  by_cases hq : q = r
  · subst hq
    simp [hf]
  · rw [modifyProc_proc_of_ne _ hq]
    exact ⟨rfl, rfl⟩

theorem quiet_sched (p : Slot) : Quiet s (s.sched p) :=
  ⟨rfl, rfl, rfl, rfl, fun _ => ⟨rfl, rfl⟩, fun _ h => (onCpu_sched.1 h).1⟩

theorem quiet_wakeup1 (r : Slot) : Quiet s (s.wakeup1 r) := by
  unfold wakeup1
  split
  · exact quiet_modifyProc r fun _ => ⟨rfl, rfl⟩
  · exact .refl s

theorem quiet_wakeup (chan : Chan) : Quiet s (s.wakeup chan) := by
  refine ⟨rfl, rfl, rfl, rfl, fun q => ?_, fun _ h => h⟩
  simp only [wakeup]
  split <;> exact ⟨rfl, rfl⟩

theorem quiet_reparent (p : Slot) : Quiet s (s.reparent p) := by
  refine ⟨rfl, rfl, rfl, rfl, fun q => ?_, fun _ h => h⟩
  simp only [reparent]
  split <;> exact ⟨rfl, rfl⟩

theorem quiet_exit (h : s.exit p status = .ok s') : Quiet s s' := by
  obtain ⟨-, par, -, rfl⟩ := exit_eq_ok h
  have hclose : Quiet s (s.exitClose p) :=
    (quiet_modifyProc p (by simp)).trans (quiet_wakeup1 _)
  have hwake : Quiet (s.exitClose p) (((s.exitClose p).reparent p).wakeup1 par) :=
    (quiet_reparent p).trans (quiet_wakeup1 par)
  exact ((hclose.trans hwake).trans (quiet_modifyProc p (by simp))).trans (quiet_sched p)

theorem quiet_sleep (p : Slot) (chan : Chan) : Quiet s (s.sleep p chan) :=
  (quiet_modifyProc p (by simp)).trans (quiet_sched p)

theorem quiet_yield (p : Slot) : Quiet s (s.yield p) :=
  (quiet_modifyProc p (by simp)).trans (quiet_sched p)

/-- `wait` reaps a zombie, or it is quiet. -/
theorem wait_cases : (Quiet s (s.wait p b).2 ∧ ∀ k, (s.wait p b).1 ≠ .reaped k) ∨
    ∃ np, (s.proc np).state = .zombie ∧
      s.wait p b = (.reaped (s.proc np).pid, s.modifyProc np Proc.freeproc) := by
  unfold wait
  split
  · rename_i np hnp
    have hz : (s.proc np).parent = some p ∧ (s.proc np).state = .zombie := by
      simpa using findProc_spec hnp
    split
    · exact .inl ⟨.refl s, by simp⟩
    · exact .inr ⟨np, hz.2, rfl⟩
  · dsimp only
    split
    · exact .inl ⟨.refl s, by simp⟩
    · exact .inl ⟨quiet_sleep p _, by simp⟩

theorem quiet_kill (p : Slot) (pid : ℤ) : Quiet s (s.kill p pid).2 := by
  unfold kill
  split
  · exact .refl s
  · split
    · exact .refl s
    · exact quiet_modifyProc _ fun _ => ⟨rfl, rfl⟩

theorem quiet_suspend {f : Sink} {r : ℤ} {out : Output} (h : s.suspend pid f = .ok (r, s', out)) :
    Quiet s s' := by
  unfold suspend at h
  split at h
  · cases h
    exact .refl s
  · obtain ⟨items, -, h⟩ := bind_eq_ok.1 h
    cases h
    exact quiet_modifyProc _ fun _ => ⟨rfl, rfl⟩

theorem quiet_run (r : Slot) :
    Quiet s (s.modifyProc r fun p => { p with state := .running, chan := none }) :=
  quiet_modifyProc r (by simp)

theorem next_dispatch_iff {k : Fin NCPU} {c : Cont} {r : Slot} :
    system.next s (.dispatch k c r) = some s' ↔
      (s.cpus k = none ∧ (s.proc r).state = .runnable ∧ (s.proc r).container = some c) ∧
        { s.modifyProc r (fun p => { p with state := .running, chan := none }) with
          cpus := Function.update s.cpus k (some r) } = s' := by
  simp only [system, dispatch, Option.ite_none_right_eq_some, Option.some.injEq]

/-! ### What a call does -/

/-- What a call by process `p` does. -/
inductive Called (s : Kernel) (p : Slot) : Call → Kernel → Prop
  | quiet {c : Call} {s' : Kernel} (hc : ¬ c.IsCinit) (h : Quiet s s') : Called s p c s'
  | fork {mem : ForkMem} {o : ForkOutcome} {s' : Kernel} (h : Forked s p o s') :
      Called s p (.fork mem) s'
  | reap {b : Bool} {np : Slot} (hz : (s.proc np).state = .zombie) :
      Called s p (.wait b) (s.modifyProc np Proc.freeproc)
  /-- Pages are taken and given back. -/
  | info {c : Control} {r : ℤ} {out : Output} {s' : Kernel} (hc : c = .psinfo ∨ c = .cinfo)
      (h : s.control p c = .ok (r, s', out)) : Called s p (.control c) s'
  | cinit (name rootDir : CharArray) (maxProc maxPage maxDisk : ℤ) (ip : Option ℕ) :
      Called s p (.control (.cinit name rootDir maxProc maxPage maxDisk ip))
        (s.cinit p name rootDir maxProc maxPage maxDisk ip)
  | life {name : CharArray} {d : Cont} (l : LifeCall) (hp : s.mycont p = some root)
      (hd : s.contNamed name = some d) (hl : l ≠ .cstop) :
      Called s p (.control (l.control name)) (s.modifyCont d fun k => { k with state := l.state })
  | cstop {name : CharArray} {d : Cont} (hp : s.mycont p = some root)
      (hd : s.contNamed name = some d) : Called s p (.control (.cstop name))
        ((s.modifyCont d fun k => { k with state := .cunused }).freeprocs d)

theorem onCont_ind {P : Kernel → Prop} {f : Cont → Kernel} (hs : P s)
    (hf : ∀ c, s.mycont p = some root → s.contNamed name = some c → P (f c)) :
    P (s.onCont p name f).2 := by
  unfold onCont
  split
  · exact hs
  · rename_i hroot
    split
    · exact hs
    · rename_i c hc
      exact hf c (not_not.1 hroot) hc

theorem called_of_perform {c : Call} (h : s.perform p c = .ok s') : Called s p c s' := by
  cases c with
  | fork mem =>
    obtain ⟨⟨o, t⟩, ht, rfl⟩ := map_eq_ok.1 h
    exact .fork (forked_of_fork ht)
  | exit status => exact .quiet id (quiet_exit h)
  | wait b =>
    cases h
    obtain ⟨hw, -⟩ | ⟨np, hz, hw⟩ := wait_cases (s := s) (p := p) (b := b)
    · exact .quiet id hw
    · rw [hw]
      exact .reap hz
  | sleep chan => cases h; exact .quiet id (quiet_sleep p chan)
  | yield => cases h; exact .quiet id (quiet_yield p)
  | control call =>
    obtain ⟨⟨r, t, out⟩, ht, rfl⟩ := map_eq_ok.1 h
    have hsame : ¬ (Call.control call).IsCinit → Called s p (.control call) s := fun hc =>
      .quiet hc (.refl s)
    cases call with
    | kill pid => cases ht; exact .quiet id (quiet_kill p pid)
    | suspend pid f => exact .quiet id (quiet_suspend ht)
    | psinfo => exact .info (.inl rfl) ht
    | cinfo => exact .info (.inr rfl) ht
    | cinit => cases ht; exact .cinit ..
    | cpause name =>
      cases ht
      exact onCont_ind (hsame id) fun d hp hd => .life .cpause hp hd (by decide)
    | cresume name =>
      cases ht
      exact onCont_ind (hsame id) fun d hp hd => .life .cresume hp hd (by decide)
    | cstop name => cases ht; exact onCont_ind (hsame id) fun d hp hd => .cstop hp hd

theorem memOnly_info {c : Control} {r : ℤ} {out : Output} (hc : c = .psinfo ∨ c = .cinfo)
    (h : s.control p c = .ok (r, s', out)) : MemOnly s s' := by
  obtain rfl | rfl := hc
  · exact borrows_memOnly.psinfo h
  · exact borrows_memOnly.cinfo h

/-! ### The state of a slot -/

/-- The step `e` from `s` to `s'` takes slot `q` from the first state to the second. -/
inductive Move (s : Kernel) (e : Event) (s' : Kernel) (q : Slot) : ProcState → ProcState → Prop
  /-- Nothing happens to `q`. -/
  | stay (x : ProcState) : Move s e s' q x x
  /-- `fork` makes a new process. -/
  | fork {p : Slot} {mem : ForkMem} (he : e = .call p (.fork mem)) (hq : s.freeSlot = some q) :
      Move s e s' q .unused .runnable
  /-- The parent reaps its child. -/
  | reap {p : Slot} {copyFails : Bool} (he : e = .call p (.wait copyFails))
      (hq : (s.proc q).parent = some p) : Move s e s' q .zombie .unused
  /-- A sleeper is woken up, or killed. -/
  | wake : Move s e s' q .sleeping .runnable
  /-- A suspended process is killed. -/
  | kill {p : Slot} {pid : ℤ} (he : e = .call p (.control (.kill pid)))
      (hq : s.killTarget p pid = some q) (hr : (s.kill p pid).1 = 0) :
      Move s e s' q .suspended .runnable
  /-- The scheduler runs `q`. -/
  | dispatch {k : Fin NCPU} {c : Cont} (he : e = .dispatch k c q) : Move s e s' q .runnable .running
  /-- A process gives up its CPU, to sleep, to yield or to exit. -/
  | leave {c : Call} {y : ProcState} (he : e = .call q c) (hy : y ≠ .unused ∧ y ≠ .running)
      (hcpu : ¬ s'.OnCpu q) : Move s e s' q .running y
  /-- `suspend` finds `q`, whatever its state. -/
  | suspend {p : Slot} {pid : ℤ} {f : Sink} {x : ProcState}
      (he : e = .call p (.control (.suspend pid f))) (hq : s.suspendTarget pid = some q) :
      Move s e s' q x .suspended
  /-- `cstop` frees `q`, whatever its state. -/
  | stop {p : Slot} {name : CharArray} {x : ProcState}
      (he : e = .call p (.control (.cstop name))) : Move s e s' q x .unused

theorem move_of_eq (h : (s'.proc q).state = (s.proc q).state) :
    Move s e s' q (s.proc q).state (s'.proc q).state := h ▸ .stay _

/-- A wakeup leaves a slot alone, or takes it from `SLEEPING` to `RUNNABLE`. -/
def Woken (x y : ProcState) : Prop := y = x ∨ x = .sleeping ∧ y = .runnable

theorem Woken.trans {x y z : ProcState} (h : Woken x y) (h' : Woken y z) : Woken x z := by
  obtain rfl | ⟨rfl, rfl⟩ := h
  · exact h'
  · obtain rfl | ⟨h, -⟩ := h'
    · exact .inr ⟨rfl, rfl⟩
    · cases h

theorem Woken.move {x y : ProcState} (h : Woken x y) : Move s e s' q x y := by
  obtain rfl | ⟨rfl, rfl⟩ := h
  · exact .stay _
  · exact .wake

theorem woken_wakeup1 (r q : Slot) : Woken (s.proc q).state ((s.wakeup1 r).proc q).state := by
  unfold wakeup1
  split
  · rename_i h
    by_cases hq : q = r
    · subst hq; exact .inr ⟨h.2, by simp⟩
    · rw [modifyProc_proc_of_ne _ hq]; exact .inl rfl
  · exact .inl rfl

theorem woken_wakeup (chan : Chan) (q : Slot) :
    Woken (s.proc q).state ((s.wakeup chan).proc q).state := by
  simp only [wakeup]
  split
  · rename_i h; exact .inr ⟨h.1, rfl⟩
  · exact .inl rfl

theorem reparent_state (p q : Slot) : ((s.reparent p).proc q).state = (s.proc q).state := by
  simp only [reparent]
  split <;> rfl

theorem woken_exitClose (p q : Slot) : Woken (s.proc q).state ((s.exitClose p).proc q).state := by
  refine Woken.trans (.inl ?_) (woken_wakeup1 _ q)
  by_cases h : q = p
  · subst h; simp
  · rw [modifyProc_proc_of_ne _ h]

theorem woken_exitLeave {par : Slot} (h : q ≠ p) :
    Woken (s.proc q).state ((s.exitLeave p par status).proc q).state := by
  rw [exitLeave, sched_proc, modifyProc_proc_of_ne _ h]
  exact Woken.trans (.inl (reparent_state p q)) (woken_wakeup1 par q)

theorem move_fork {mem : ForkMem} {o : ForkOutcome} (h : s.fork p mem = .ok (o, s')) (q : Slot) :
    Move s (.call p (.fork mem)) s' q (s.proc q).state (s'.proc q).state := by
  cases forked_of_fork h with
  | full => exact .stay _
  | @freed _ i x hi hx =>
    refine move_of_eq ?_
    by_cases hq : q = i
    · rw [hq, claimSlot_proc_self, hx, state_of_freeSlot hi]
    · rw [claimSlot_proc_of_ne _ hq]
  | @child i par tf c hi =>
    by_cases hq : q = i
    · subst hq
      rw [claimSlot_proc_self, state_of_freeSlot hi]
      exact .fork rfl hi
    · exact move_of_eq (by rw [claimSlot_proc_of_ne _ hq]; rfl)

section

variable (hp : (s.proc p).state = .running)

include hp

theorem move_exit (h : s.exit p status = .ok s') (q : Slot) :
    Move s (.call p (.exit status)) s' q (s.proc q).state (s'.proc q).state := by
  obtain ⟨-, par, -, rfl⟩ := exit_eq_ok h
  by_cases hq : q = p
  · subst hq
    have : (((s.exitClose q).exitLeave q par status).proc q).state = .zombie := by simp [exitLeave]
    rw [this, hp]
    exact .leave rfl (by decide) fun h => (onCpu_sched.1 h).2 rfl
  · exact ((woken_exitClose p q).trans (woken_exitLeave hq)).move

theorem move_sleep {c : Call} {chan : Chan} (q : Slot) :
    Move s (.call p c) (s.sleep p chan) q (s.proc q).state ((s.sleep p chan).proc q).state := by
  by_cases hq : q = p
  · subst hq
    rw [hp]
    exact .leave rfl (by simp [sleep]) fun h => (onCpu_sched.1 h).2 rfl
  · exact move_of_eq (by rw [sleep, sched_proc, modifyProc_proc_of_ne _ hq])

theorem move_yield (q : Slot) :
    Move s (.call p .yield) (s.yield p) q (s.proc q).state ((s.yield p).proc q).state := by
  by_cases hq : q = p
  · subst hq
    rw [hp]
    exact .leave rfl (by simp [yield]) fun h => (onCpu_sched.1 h).2 rfl
  · exact move_of_eq (by rw [yield, sched_proc, modifyProc_proc_of_ne _ hq])

theorem move_wait (q : Slot) :
    Move s (.call p (.wait b)) (s.wait p b).2 q (s.proc q).state ((s.wait p b).2.proc q).state := by
  unfold wait
  split
  · rename_i np hnp
    have hz : (s.proc np).parent = some p ∧ (s.proc np).state = .zombie := by
      simpa using findProc_spec hnp
    split
    · exact .stay _
    · by_cases hq : q = np
      · subst hq
        rw [hz.2]
        simpa using Move.reap (s := s) rfl hz.1
      · exact move_of_eq (by rw [modifyProc_proc_of_ne _ hq])
  · dsimp only
    split
    · exact .stay _
    · exact move_sleep hp q

end

theorem move_kill (q : Slot) :
    Move s (.call p (.control (.kill pid))) (s.kill p pid).2 q (s.proc q).state
      ((s.kill p pid).2.proc q).state := by
  cases hr : s.killTarget p pid with
  | none => simpa [kill, hr] using Move.stay _
  | some r =>
    by_cases hc : s.mycont p ≠ some root ∧ (s.proc r).container ≠ s.mycont p
    · simpa [kill, hr, hc] using Move.stay _
    · have hk : s.kill p pid = (0, s.modifyProc r Proc.kill) := by rw [kill, hr]; exact if_neg hc
      by_cases hq : q = r
      · subst hq
        have hst : ((s.kill p pid).2.proc q).state = (s.proc q).kill.state := by rw [hk]; simp
        rw [hst, Proc.kill]
        cases (s.proc q).state with
        | sleeping => exact .wake
        | suspended => exact .kill rfl hr (by rw [hk])
        | _ => exact .stay _
      · exact move_of_eq (by rw [hk, modifyProc_proc_of_ne _ hq])

theorem move_suspend {f : Sink} {r : ℤ} {out : Output}
    (h : s.suspend pid f = .ok (r, s', out)) (q : Slot) :
    Move s (.call p (.control (.suspend pid f))) s' q (s.proc q).state (s'.proc q).state := by
  unfold suspend at h
  split at h
  · cases h; exact .stay _
  · rename_i t ht
    obtain ⟨items, -, h⟩ := bind_eq_ok.1 h
    cases h
    by_cases hq : q = t
    · subst hq
      simpa using Move.suspend (s := s) rfl ht
    · exact move_of_eq (by rw [modifyProc_proc_of_ne _ hq])

theorem move_cinit {rootDir : CharArray} {maxProc maxPage maxDisk : ℤ} {ip : Option ℕ}
    (q : Slot) : Move s e s' q (s.proc q).state
      ((s.cinit p name rootDir maxProc maxPage maxDisk ip).proc q).state := by
  unfold cinit
  split
  · exact .stay _
  · by_cases hq : q = p
    · subst hq; simpa using Move.stay _
    · simpa [hq] using Move.stay _

theorem move_cstop (q : Slot) :
    Move s (.call p (.control (.cstop name))) s' q (s.proc q).state
      ((s.cstop p name).2.proc q).state := by
  refine onCont_ind (P := fun u => Move s _ s' q _ (u.proc q).state) (.stay _) fun d _ _ => ?_
  by_cases hq : (s.proc q).container = some d
  · simpa [hq] using Move.stop rfl
  · simpa [hq] using Move.stay _

theorem onCont_proc {f : Cont → Container → Container} :
    (s.onCont p name fun c => s.modifyCont c (f c)).2.proc = s.proc :=
  onCont_ind (P := fun u => u.proc = s.proc) rfl fun _ _ _ => rfl

/-- **The process state machine.**  When the processes on the CPUs are `RUNNING`, a step changes
the state of a slot only as `Move` says. -/
theorem move_of_step (hcpu : ∀ p, s.OnCpu p → (s.proc p).state = .running)
    (h : system.next s e = some s') (q : Slot) :
    Move s e s' q (s.proc q).state (s'.proc q).state := by
  cases e with
  | dispatch k c r =>
    obtain ⟨⟨-, hr, -⟩, rfl⟩ := next_dispatch_iff.1 h
    by_cases hq : q = r
    · subst hq
      rw [hr]
      simpa using Move.dispatch (s := s) rfl
    · exact move_of_eq (by simp [hq])
  | wakeup chan =>
    cases h
    exact (woken_wakeup chan q).move
  | call p c =>
    obtain ⟨hp, h⟩ := next_call_iff.1 h
    replace hp := hcpu p hp
    cases c with
    | fork mem =>
      obtain ⟨⟨o, t⟩, ht, rfl⟩ := map_eq_ok.1 h
      exact move_fork ht q
    | exit status => exact move_exit hp h q
    | wait b => cases h; exact move_wait hp q
    | sleep chan => cases h; exact move_sleep hp q
    | yield => cases h; exact move_yield hp q
    | control call =>
      obtain ⟨⟨r, t, out⟩, ht, rfl⟩ := map_eq_ok.1 h
      cases call with
      | kill pid => cases ht; exact move_kill q
      | suspend pid f => exact move_suspend ht q
      | psinfo => exact move_of_eq (by rw [(borrows_memOnly.psinfo ht).proc])
      | cinfo => exact move_of_eq (by rw [(borrows_memOnly.cinfo ht).proc])
      | cinit => cases ht; exact move_cinit q
      | cpause name => cases ht; exact move_of_eq (by rw [cpause, onCont_proc])
      | cresume name => cases ht; exact move_of_eq (by rw [cresume, onCont_proc])
      | cstop name => cases ht; exact move_cstop q

/-! ### The CPUs -/

theorem OnCpu.of_eq (h : s'.cpus = s.cpus) (hq : s'.OnCpu q) : s.OnCpu q := by
  unfold OnCpu at hq
  rwa [h] at hq

/-- Only the scheduler puts a process on a CPU. -/
theorem onCpu_of_step (h : system.next s e = some s') (hq : s'.OnCpu q) :
    s.OnCpu q ∨ ∃ k c, e = .dispatch k c q := by
  cases e with
  | dispatch k c r =>
    obtain ⟨-, rfl⟩ := next_dispatch_iff.1 h
    obtain ⟨k', hk'⟩ := hq
    by_cases hkk : k' = k
    · subst hkk
      simp only [Function.update_self, Option.some.injEq] at hk'
      exact .inr ⟨k', c, by rw [hk']⟩
    · exact .inl ⟨k', by simpa [hkk] using hk'⟩
  | wakeup chan => cases h; exact .inl hq
  | call p c =>
    refine .inl ?_
    obtain ⟨-, h⟩ := next_call_iff.1 h
    cases called_of_perform h with
    | quiet _ h => exact h.onCpu q hq
    | fork h => cases h <;> exact hq
    | info hc h => exact hq.of_eq (memOnly_info hc h).cpus
    | cinit =>
      unfold cinit at hq
      split at hq <;> exact hq
    | reap | life | cstop => exact hq

/-! ### The container of a slot -/

/-- Only `fork` and `cinit` write the container of a slot. -/
theorem container_of_step (h : system.next s e = some s') (q : Slot) :
    (s'.proc q).container = (s.proc q).container ∨
    (∃ p mem c, e = .call p (.fork mem) ∧ s.mycont p = some c ∧ (s'.proc q).container = some c) ∨
    ∃ name rootDir maxProc maxPage maxDisk ip d,
      e = .call q (.control (.cinit name rootDir maxProc maxPage maxDisk ip)) ∧
      s.freeCont = some d ∧ (s'.proc q).container = some d := by
  cases e with
  | dispatch k c r =>
    obtain ⟨-, rfl⟩ := next_dispatch_iff.1 h
    exact .inl ((quiet_run r).row q).1
  | wakeup chan => cases h; exact .inl ((quiet_wakeup chan).row q).1
  | call p c =>
    obtain ⟨-, h⟩ := next_call_iff.1 h
    cases called_of_perform h with
    | quiet _ h => exact .inl (h.row q).1
    | @fork mem _ _ h =>
      cases h with
      | full => exact .inl rfl
      | @freed _ i x _ _ hc =>
        by_cases hq : q = i
        · exact .inl (by rw [hq, claimSlot_proc_self, hc])
        · exact .inl (by rw [claimSlot_proc_of_ne _ hq])
      | @child i _ _ c _ _ hp =>
        by_cases hq : q = i
        · exact .inr (.inl ⟨p, mem, c, rfl, hp, by rw [hq, claimSlot_proc_self]⟩)
        · exact .inl (by rw [claimSlot_proc_of_ne _ hq]; rfl)
    | @reap _ np =>
      by_cases hq : q = np
      · exact .inl (by simp [hq])
      · exact .inl (by rw [modifyProc_proc_of_ne _ hq])
    | info hc h => exact .inl (by rw [(memOnly_info hc h).proc])
    | cinit name rootDir maxProc maxPage maxDisk ip =>
      cases hd : s.freeCont with
      | none => exact .inl (by simp [cinit, hd])
      | some d =>
        by_cases hq : q = p
        · subst hq
          exact .inr (.inr ⟨_, _, _, _, _, _, d, rfl, rfl, by simp [cinit, hd]⟩)
        · exact .inl (by simp [cinit, hd, hq])
    | life => exact .inl rfl
    | @cstop _ d =>
      by_cases hq : (s.proc q).container = some d <;>
        exact .inl (by simp [hq])

end Kernel

end Xv6Container
