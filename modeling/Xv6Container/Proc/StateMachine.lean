import Xv6Container.Proc.Moves

/-!
# The process state machine over whole runs

Which states a process can leave, and how: `ZOMBIE` only by being reaped, `UNUSED` only by being
forked, and a process that has been suspended is not run again unless it is killed.

`suspend` looks at no state at all, so this fails when it finds a slot that is not asleep, ready
or already suspended.  `Kernel.Orderly` excludes that, and the results hold for all runs of orderly
steps.

* `stays_suspended` : a suspended process stays so until it is killed;
* `state_machine` : the three properties, in every state of every orderly run;
* `suspend_breaks_state_machine` : runs from boot in which each of them fails.
-/

namespace Xv6Container

namespace Kernel

/-- Every process on a CPU is `RUNNING`. -/
def Settled (s : Kernel) : Prop := ∀ p, s.OnCpu p → (s.proc p).state = .running

/-- A step that is no `cstop`, and no `suspend` of a slot that is free, dead or on a CPU. -/
def Orderly (s : Kernel) : Event → Prop
  | .call _ (.control (.suspend pid _)) => ∀ q, s.suspendTarget pid = some q →
      (s.proc q).state = .sleeping ∨ (s.proc q).state = .runnable ∨ (s.proc q).state = .suspended
  | .call _ (.control (.cstop _)) => False
  | _ => True

/-- The step applies `kill` to `q`. -/
def Kills (s : Kernel) (e : Event) (q : Slot) : Prop :=
  ∃ p pid, e = .call p (.control (.kill pid)) ∧ s.killTarget p pid = some q ∧ (s.kill p pid).1 = 0

variable {s s' : Kernel} {e : Event} {q : Slot}

theorem state_of_dispatch {k : Fin NCPU} {c : Cont}
    (h : system.next s (.dispatch k c q) = some s') :
    (s.proc q).state = .runnable ∧ (s'.proc q).state = .running := by
  obtain ⟨⟨-, hr, -⟩, rfl⟩ := next_dispatch_iff.1 h
  exact ⟨hr, by simp⟩

section

variable (hs : s.Settled) (ho : s.Orderly e) (h : system.next s e = some s')

include hs ho h

theorem Settled.step : s'.Settled := by
  intro q hq
  obtain hq' | ⟨k, c, rfl⟩ := onCpu_of_step h hq
  · have hrun := hs q hq'
    have hmove := move_of_step hs h q
    rw [hrun] at hmove
    -- a process on a CPU stays there `RUNNING`, or leaves the CPU
    generalize hy : (s'.proc q).state = y at hmove
    cases hmove with
    | stay => rfl
    | leave _ _ hcpu => exact absurd hq hcpu
    | suspend he ht =>
      subst he
      obtain h | h | h := ho q ht <;> rw [hrun] at h <;> cases h
    | stop he => subst he; exact ho.elim
  · exact (state_of_dispatch h).2

theorem leaves_zombie (hz : (s.proc q).state = .zombie) (hne : (s'.proc q).state ≠ .zombie) :
    (s'.proc q).state = .unused ∧ ∃ p b, e = .call p (.wait b) ∧ (s.proc q).parent = some p := by
  have hmove := move_of_step hs h q
  rw [hz] at hmove
  generalize (s'.proc q).state = y at hmove hne
  cases hmove with
  | stay => exact absurd rfl hne
  | reap he hq => exact ⟨rfl, _, _, he, hq⟩
  | suspend he ht =>
    subst he
    obtain h | h | h := ho q ht <;> rw [hz] at h <;> cases h
  | stop he => subst he; exact ho.elim

theorem leaves_unused (hu : (s.proc q).state = .unused) (hne : (s'.proc q).state ≠ .unused) :
    ∃ p mem, e = .call p (.fork mem) ∧ s.freeSlot = some q := by
  have hmove := move_of_step hs h q
  rw [hu] at hmove
  generalize (s'.proc q).state = y at hmove hne
  cases hmove with
  | stay => exact absurd rfl hne
  | fork he hq => exact ⟨_, _, he, hq⟩
  | suspend he ht =>
    subst he
    obtain h | h | h := ho q ht <;> rw [hu] at h <;> cases h
  | stop he => exact absurd rfl hne

theorem suspended_step (hq : (s.proc q).state = .suspended) (hk : ¬ s.Kills e q) :
    (s'.proc q).state = .suspended := by
  have hmove := move_of_step hs h q
  rw [hq] at hmove
  generalize (s'.proc q).state = y at hmove
  cases hmove with
  | stay => rfl
  | kill he ht hr => exact absurd ⟨_, _, he, ht, hr⟩ hk
  | suspend => rfl
  | stop he => subst he; exact ho.elim

end

theorem stays_suspended {ls : List Event} (hs : s.Settled) (hq : (s.proc q).state = .suspended)
    (h : system.Run (fun s e => s.Orderly e ∧ ¬ s.Kills e q) s ls s') :
    (s'.proc q).state = .suspended := by
  refine (h.invariant (I := fun s => s.Settled ∧ (s.proc q).state = .suspended) ⟨hs, hq⟩ ?_).2
  rintro s e s' ⟨hs, hq⟩ ⟨ho, hk⟩ hstep
  exact ⟨hs.step ho hstep, suspended_step hs ho hstep hq hk⟩

theorem state_of_suspend {p : Slot} {pid : ℤ} {f : Sink} (hq : s.suspendTarget pid = some q)
    (h : system.next s (.call p (.control (.suspend pid f))) = some s') :
    (s'.proc q).state = .suspended := by
  obtain ⟨-, h⟩ := next_call_iff.1 h
  obtain ⟨⟨r, t, out⟩, ht, rfl⟩ := map_eq_ok.1 h
  simp only [control, suspend, hq] at ht
  obtain ⟨items, -, ht⟩ := bind_eq_ok.1 ht
  cases ht
  simp

end Kernel

/-- **The process state machine.**  In every state that a run of orderly steps reaches:

* the next orderly step takes a slot out of `ZOMBIE` only to `UNUSED`, as the `wait` of its parent;
* it takes a slot out of `UNUSED` only as a `fork` that initialises the slot;
* after an orderly `suspend` has found `q`, the scheduler cannot run `q` in any further orderly
  run in which `q` is not killed. -/
theorem state_machine {s₀ s : Kernel} {ls : List Event} (h0 : s₀.Settled)
    (hrun : system.Run Kernel.Orderly s₀ ls s) :
    (∀ e s' q, s.Orderly e → system.next s e = some s' →
      (s.proc q).state = .zombie → (s'.proc q).state ≠ .zombie →
      (s'.proc q).state = .unused ∧ ∃ p b, e = .call p (.wait b) ∧ (s.proc q).parent = some p) ∧
    (∀ e s' q, s.Orderly e → system.next s e = some s' →
      (s.proc q).state = .unused → (s'.proc q).state ≠ .unused →
      ∃ p mem, e = .call p (.fork mem) ∧ s.freeSlot = some q) ∧
    (∀ p pid f q s₁, s.Orderly (.call p (.control (.suspend pid f))) →
      s.suspendTarget pid = some q →
      system.next s (.call p (.control (.suspend pid f))) = some s₁ →
      ∀ ls' s₂, system.Run (fun s e => s.Orderly e ∧ ¬ s.Kills e q) s₁ ls' s₂ →
      ∀ k c, system.next s₂ (.dispatch k c q) = none) := by
  have hs : s.Settled := hrun.invariant h0 fun _ _ _ hs ho hstep => hs.step ho hstep
  refine ⟨fun e s' q ho hstep => Kernel.leaves_zombie hs ho hstep,
    fun e s' q ho hstep => Kernel.leaves_unused hs ho hstep, ?_⟩
  intro p pid f q s₁ ho hq hstep ls' s₂ hrun' k c
  have hsusp : (s₂.proc q).state = .suspended :=
    Kernel.stays_suspended (hs.step ho hstep) (Kernel.state_of_suspend hq hstep) hrun'
  by_contra hne
  obtain ⟨s₃, h3⟩ := Option.ne_none_iff_exists'.1 hne
  have := (Kernel.state_of_dispatch h3).1
  rw [hsusp] at this
  cases this

theorem settled_boot {free : List ℕ} {kernelEnd : ℕ} {s : Kernel}
    (h : boot free kernelEnd = .ok s) : s.Settled := by
  rw [boot_eq_ok h]
  rintro p ⟨k, hk⟩
  cases hk

/-- Init suspends the child it has forked, and the scheduler does not run it. -/
theorem state_machine_forked : ∃ s₀ s s₁, boot [] 0 = .ok s₀ ∧
    system.Run Kernel.Orderly s₀ [.dispatch 0 root 0, .call 0 (.fork .ok)] s ∧
    s.suspendTarget 2 = some 1 ∧
    system.next s (.call 0 (.control (.suspend 2 .refuses))) = some s₁ ∧
    ∀ k c, system.next s₁ (.dispatch k c 1) = none := by
  have hrun : ∃ s₀ s s₁, boot [] 0 = .ok s₀ ∧
      system.Run Kernel.Orderly s₀ [.dispatch 0 root 0, .call 0 (.fork .ok)] s ∧
      s.suspendTarget 2 = some 1 ∧ (s.proc 1).state = .runnable ∧
      system.next s (.call 0 (.control (.suspend 2 .refuses))) = some s₁ :=
    ⟨_, _, _, rfl, .cons trivial rfl (.cons trivial rfl (.nil _)), rfl, rfl, rfl⟩
  obtain ⟨s₀, s, s₁, hb, hrun, ht, hst, hstep⟩ := hrun
  refine ⟨s₀, s, s₁, hb, hrun, ht, hstep, ?_⟩
  have ho : s.Orderly (.call 0 (.control (.suspend 2 .refuses))) := fun q hq => by
    rw [ht] at hq
    cases hq
    exact .inr (.inl hst)
  exact (state_machine (settled_boot hb) hrun).2.2 0 2 .refuses 1 s₁ ho ht hstep [] s₁ (.nil _)

/-- Init's child has exited on another CPU. -/
def zombieRun : List Event :=
  [.dispatch 0 root 0, .call 0 (.fork .ok), .dispatch 1 root 1, .call 1 (.exit 0)]

/-- `suspend` takes a dead process out of `ZOMBIE`, takes a free slot (whose `pid` is 0) out of
`UNUSED`, and a process that it finds on a CPU is run again after its next `yield`. -/
theorem suspend_breaks_state_machine : ∃ s₀, boot [] 0 = .ok s₀ ∧
    (∃ s s', system.run s₀ zombieRun = some s ∧
      system.next s (.call 0 (.control (.suspend 2 .refuses))) = some s' ∧
      (s.proc 1).state = .zombie ∧ (s'.proc 1).state = .suspended) ∧
    (∃ s s', system.run s₀ [.dispatch 0 root 0] = some s ∧
      system.next s (.call 0 (.control (.suspend 0 .refuses))) = some s' ∧
      (s.proc 1).state = .unused ∧ (s'.proc 1).state = .suspended) ∧
    ∃ s s' s'', system.run s₀ [.dispatch 0 root 0] = some s ∧ s.suspendTarget 1 = some 0 ∧
      system.next s (.call 0 (.control (.suspend 1 .refuses))) = some s' ∧
      system.run s' [.call 0 .yield, .dispatch 0 root 0] = some s'' :=
  ⟨_, rfl, ⟨_, _, rfl, rfl, rfl, rfl⟩, ⟨_, _, rfl, rfl, rfl, rfl⟩, _, _, _, rfl, rfl, rfl, rfl⟩

end Xv6Container
