import Xv6Container.Proc.Names
import Xv6Container.Proc.StateMachine

/-!
# The process limit of a container

`fork` compares the number of processes of the parent's container with the container's `maxproc`
after it has marked the child's slot `RUNNABLE`, but before it has written the child's container
there.  So the slot is counted for the container of its last occupant, and a container that is one
process short of its limit is refused a slot that it has used before.

* `fork_limit` : which forks are refused, and when this is what it should be;
* `fork_refused_below_limit` : a run from boot after which a container with one of two processes
  cannot fork.
-/

namespace Xv6Container

namespace Kernel

/-- Every process is in a container that is in use. -/
def Housed (s : Kernel) : Prop :=
  ∀ q d, (s.proc q).state ≠ .unused → (s.proc q).container = some d →
    (s.containers d).state ≠ .cunused

/-- A step that is no `suspend` and no `cstop`, and makes no container without room for a
process. -/
def Roomy (s : Kernel) : Event → Prop
  | .call _ (.control (.suspend ..)) => False
  | .call _ (.control (.cstop _)) => False
  | .call _ (.control (.cinit _ _ maxProc _ _ _)) => s.freeCont ≠ none → 1 ≤ maxProc
  | _ => True

/-- The slot that a `fork` in container `c` would take was last used by a process of `c`, and `c`
is one process short of its limit. -/
def StaleAtLimit (s : Kernel) (c : Cont) : Prop :=
  ∃ i, s.freeSlot = some i ∧ (s.proc i).container = some c ∧
    s.numproc c + 1 = (s.containers c).maxproc

variable {s s' : Kernel} {e : Event} {p q : Slot} {c d : Cont}

theorem Roomy.orderly (h : s.Roomy e) : s.Orderly e := by
  unfold Roomy at h
  split at h
  · exact h.elim
  · exact h.elim
  · trivial
  · rename_i hns hnc _
    cases e with
    | call p c =>
      cases c with
      | control call =>
        cases call with
        | suspend pid f => exact (hns p pid f rfl).elim
        | cstop name => exact (hnc p name rfl).elim
        | _ => trivial
      | _ => trivial
    | _ => trivial

theorem cont_of_makes {maxProc : ℤ} (hm : s.Makes e d maxProc) (h : system.next s e = some s') :
    (s'.containers d).maxproc = maxProc ∧ (s'.containers d).state ≠ .cunused := by
  obtain ⟨hf, p, name, rootDir, maxPage, maxDisk, ip, rfl⟩ := hm
  obtain ⟨-, h⟩ := next_call_iff.1 h
  cases h
  constructor <;> simp [cinit, hf]

theorem limit_of_step (hr : s.Roomy e) (h : system.next s e = some s')
    (hm : ∀ maxProc, ¬ s.Makes e d maxProc) :
    (s'.containers d).maxproc = (s.containers d).maxproc ∧
      ((s.containers d).state ≠ .cunused → (s'.containers d).state ≠ .cunused) := by
  obtain ⟨maxProc, hd⟩ | hk := keepsCont_of_step h d
  · exact absurd hd (hm maxProc)
  · refine ⟨by rw [hk.fields], fun hu hu' => ?_⟩
    obtain ⟨p, name, rfl⟩ := hk.inUse hu hu'
    exact hr

/-! ### Who is counted -/

theorem members_of_step (hs : s.Settled) (hr : s.Roomy e) (h : system.next s e = some s')
    (hfork : ∀ p mem, e ≠ .call p (.fork mem)) (hmake : ∀ maxProc, ¬ s.Makes e c maxProc) :
    s'.members c ⊆ s.members c := by
  intro q hq
  rw [mem_members] at hq ⊢
  constructor
  · intro hu
    obtain ⟨p, mem, he, -⟩ := leaves_unused hs hr.orderly h hu hq.1
    exact hfork p mem he
  · obtain hc | ⟨p, mem, c', he, -⟩ |
      ⟨name, rootDir, maxProc, maxPage, maxDisk, ip, d, he, hd, hc⟩ :=
      container_of_step h q
    · rw [← hc]; exact hq.2
    · exact absurd he (hfork p mem)
    · obtain rfl : d = c := Option.some.inj (hc.symm.trans hq.2)
      exact absurd ⟨hd, q, name, rootDir, maxPage, maxDisk, ip, he⟩ (hmake maxProc)

theorem members_of_makes {maxProc : ℤ} (hh : s.Housed) (hm : s.Makes e c maxProc)
    (hs : s.Settled) (hr : s.Roomy e) (h : system.next s e = some s') :
    (s'.members c).card ≤ 1 := by
  obtain ⟨hfree, p, name, rootDir, maxPage, maxDisk, ip, rfl⟩ := hm
  have hunused : (s.containers c).state = .cunused := by simpa using findCont_spec hfree
  refine Finset.card_le_one_iff_subset_singleton.2 ⟨p, fun q hq => ?_⟩
  rw [mem_members] at hq
  rw [Finset.mem_singleton]
  by_contra hne
  have hst : (s.proc q).state ≠ .unused := fun hu => by
    obtain ⟨p', mem, he, -⟩ := leaves_unused hs hr.orderly h hu hq.1
    cases he
  obtain hc | ⟨p', mem, c', he, -⟩ | ⟨_, _, _, _, _, _, d, he, -⟩ := container_of_step h q
  · exact hh q c hst (hc ▸ hq.2) hunused
  · cases he
  · cases he
    exact hne rfl

theorem container_of_fork {mem : ForkMem} (h : system.next s (.call p (.fork mem)) = some s')
    (hu : (s.proc q).state = .unused) (hst : (s'.proc q).state ≠ .unused) :
    ∃ c, s.mycont p = some c ∧ (s'.proc q).container = some c := by
  obtain ⟨-, h⟩ := next_call_iff.1 h
  obtain ⟨⟨o, t⟩, ht, rfl⟩ := map_eq_ok.1 h
  cases forked_of_fork ht with
  | full => exact absurd hu hst
  | @freed _ i _ _ hx =>
    by_cases hq : q = i
    · exact absurd (by rw [hq, claimSlot_proc_self, hx]) hst
    · exact absurd (by rw [claimSlot_proc_of_ne _ hq, hu]) hst
  | @child i _ _ c _ _ hc =>
    by_cases hq : q = i
    · exact ⟨c, hc, by rw [hq, claimSlot_proc_self]⟩
    · exact absurd (by rw [claimSlot_proc_of_ne _ hq]; exact hu) hst

theorem Housed.step (hh : s.Housed) (hs : s.Settled) (hr : s.Roomy e)
    (h : system.next s e = some s') : s'.Housed := by
  intro q d hst hd
  by_cases hm : ∃ maxProc, s.Makes e d maxProc
  · exact (cont_of_makes hm.choose_spec h).2
  push Not at hm
  refine (limit_of_step hr h hm).2 ?_
  -- the container of a process on a CPU is in use
  have hcpu : ∀ p c, e = .call p c → s.mycont p = some d → (s.containers d).state ≠ .cunused := by
    rintro p c rfl hp
    refine hh p d ?_ hp
    rw [hs p (next_call_iff.1 h).1]
    decide
  by_cases hu : (s.proc q).state = .unused
  · obtain ⟨p, mem, rfl, -⟩ := leaves_unused hs hr.orderly h hu hst
    obtain ⟨c, hp, hc⟩ := container_of_fork h hu hst
    exact hcpu p _ rfl (hp.trans (hc.symm.trans hd))
  · obtain hc | ⟨p, mem, c, he, hp, hc⟩ |
      ⟨name, rootDir, maxProc, maxPage, maxDisk, ip, d', he, hd', hc⟩ :=
      container_of_step h q
    · exact hh q d hu (hc ▸ hd)
    · exact hcpu p _ he (hp.trans (hc.symm.trans hd))
    · obtain rfl : d' = d := Option.some.inj (hc.symm.trans hd)
      exact absurd ⟨hd', q, name, rootDir, maxPage, maxDisk, ip, he⟩ (hm maxProc)

theorem numproc_of_fork {mem : ForkMem} {o : ForkOutcome} (h : s.fork p mem = .ok (o, s'))
    (hle : s.numproc c ≤ (s.containers c).maxproc) :
    s'.numproc c ≤ (s'.containers c).maxproc := by
  cases forked_of_fork h with
  | full => exact hle
  | @freed _ i _ _ hx =>
    -- without a new process, nobody is added
    refine le_trans ?_ hle
    rw [numproc_eq_card, numproc_eq_card]
    refine Int.ofNat_le.2 (Finset.card_le_card fun q hq => ?_)
    rw [mem_members] at hq ⊢
    have hne : q ≠ i := fun e => hq.1 (by rw [e, claimSlot_proc_self, hx])
    rwa [claimSlot_proc_of_ne _ hne] at hq
  | @child i par tf d hi _ _ hlt =>
    have hmax : ((s.allocvpid d).2.containers c).maxproc = (s.containers c).maxproc := by
      by_cases hcd : c = d
      · subst hcd; simp
      · simp [hcd]
    refine le_of_le_of_eq ?_ hmax.symm
    rw [numproc_of_marked (s := s) (i := i) (state_of_freeSlot hi)]
    · unfold stale at hlt ⊢
      rw [claimSlot_proc_self]
      dsimp only
      split
      · rename_i hdc
        cases hdc
        split at hlt <;> omega
      · omega
    · intro j hj
      rw [claimSlot_proc_of_ne _ hj]
      rfl
    · simp [forkCopy]

theorem numproc_step (hb : ∀ c, s.numproc c ≤ (s.containers c).maxproc) (hh : s.Housed)
    (hs : s.Settled) (hr : s.Roomy e) (h : system.next s e = some s') (c : Cont) :
    s'.numproc c ≤ (s'.containers c).maxproc := by
  by_cases hm : ∃ maxProc, s.Makes e c maxProc
  · obtain ⟨maxProc, hm⟩ := hm
    have hroom : 1 ≤ maxProc := by
      obtain ⟨hf, p, _, _, _, _, _, rfl⟩ := hm
      exact hr (by rw [hf]; exact Option.some_ne_none _)
    rw [(cont_of_makes hm h).1, numproc_eq_card]
    have := members_of_makes hh hm hs hr h
    omega
  push Not at hm
  by_cases hf : ∃ p mem, e = .call p (.fork mem)
  · obtain ⟨p, mem, rfl⟩ := hf
    obtain ⟨-, h⟩ := next_call_iff.1 h
    obtain ⟨⟨o, t⟩, ht, rfl⟩ := map_eq_ok.1 h
    exact numproc_of_fork ht (hb c)
  · push Not at hf
    have := Finset.card_le_card (members_of_step hs hr h hf hm)
    rw [(limit_of_step hr h hm).1, numproc_eq_card]
    have hbc := hb c
    rw [numproc_eq_card] at hbc
    omega

/-- **Limits are kept.**  In every run from boot in which containers are made with room for a
process, no container ever has more processes than its limit. -/
theorem numproc_le_maxproc {free : List ℕ} {kernelEnd : ℕ} {s₀ : Kernel} {ls : List Event}
    (hb : boot free kernelEnd = .ok s₀) (hrun : system.Run Roomy s₀ ls s) :
    s.numproc c ≤ (s.containers c).maxproc := by
  have h0 : s₀.Settled ∧ s₀.Housed ∧ ∀ c, s₀.numproc c ≤ (s₀.containers c).maxproc := by
    refine ⟨settled_boot hb, ?_, ?_⟩ <;> rw [boot_eq_ok hb]
    · intro q d hst hd
      by_cases hq : q = 0
      · subst hq
        cases hd
        simp [rootCont]
      · simp [hq, Proc.zero] at hst
    · intro c
      rw [numproc_eq_card]
      -- init is the only process
      refine (Int.ofNat_le.2 (Finset.card_le_one_iff_subset_singleton.2 ⟨0, fun q hq => ?_⟩)).trans
        ?_
      · by_contra hne
        rw [Finset.mem_singleton] at hne
        simp [mem_members, hne, Proc.zero] at hq
      · by_cases hc : c = root
        · subst hc; simp [rootCont]
        · simp [hc]
  refine (hrun.invariant (I := fun s => s.Settled ∧ s.Housed ∧
    ∀ c, s.numproc c ≤ (s.containers c).maxproc) h0 ?_).2.2 c
  rintro s e s' ⟨hs, hh, hle⟩ hr hstep
  exact ⟨hs.step hr.orderly hstep, hh.step hs hr hstep, numproc_step hle hh hs hr hstep⟩

theorem fork_refused_iff {mem : ForkMem} {o : ForkOutcome} (hc : s.mycont p = some c)
    (h : s.fork p mem = .ok (o, s')) (ho : o ≠ .noProc) (ho' : o ≠ .noMemory) :
    ∃ i, s.freeSlot = some i ∧
      (o = .limit ↔ (s.containers c).maxproc ≤ s.numproc c + s.stale i c) := by
  cases forked_of_fork h with
  | full => exact absurd rfl ho
  | freed hi _ _ _ hwhy =>
    obtain ⟨rfl | rfl, -⟩ | ⟨rfl, d, hd, hle⟩ := hwhy
    · exact absurd rfl ho
    · exact absurd rfl ho'
    · obtain rfl := Option.some.inj (hd.symm.trans hc)
      exact ⟨_, hi, iff_of_true rfl hle⟩
  | child hi _ hd hlt =>
    obtain rfl := Option.some.inj (hd.symm.trans hc)
    exact ⟨_, hi, iff_of_false (by simp) (not_le.2 hlt)⟩

end Kernel

/-- **The process limit.**  After any run from boot in which containers are made with room for a
process, a `fork` by a process of container `c` leaves no more processes in `c` than its limit; and
a `fork` that gets as far as the check is refused exactly when `c` has reached its limit, if and
only if the child's slot was not last used in `c` with `c` one process short of the limit. -/
theorem fork_limit {free : List ℕ} {kernelEnd : ℕ} {s₀ s s' : Kernel} {ls : List Event} {p : Slot}
    {c : Cont} {mem : ForkMem} {o : ForkOutcome} (hb : boot free kernelEnd = .ok s₀)
    (hrun : system.Run Kernel.Roomy s₀ ls s) (hc : s.mycont p = some c)
    (h : s.fork p mem = .ok (o, s')) :
    s'.numproc c ≤ (s'.containers c).maxproc ∧
    (o ≠ .noProc → o ≠ .noMemory →
      ((o = .limit ↔ (s.containers c).maxproc ≤ s.numproc c) ↔ ¬ s.StaleAtLimit c)) := by
  refine ⟨Kernel.numproc_of_fork h (Kernel.numproc_le_maxproc hb hrun), fun ho ho' => ?_⟩
  obtain ⟨i, hi, hiff⟩ := Kernel.fork_refused_iff hc h ho ho'
  have hstale : s.StaleAtLimit c ↔
      (s.proc i).container = some c ∧ s.numproc c + 1 = (s.containers c).maxproc := by
    simp [Kernel.StaleAtLimit, hi]
  rw [hiff, hstale, Kernel.stale]
  split
  · rename_i hs
    simp only [hs, true_and]
    omega
  · rename_i hs
    simp [hs]

/-- Init's child makes a container for two processes; its own child exits and is reaped. -/
def reuseRun : List Event :=
  [.dispatch 0 root 0, .call 0 (.fork .ok), .dispatch 1 root 1,
    .call 1 (.control (.cinit (chars "web") (chars ".") 2 100 100 (some 0))),
    .call 1 (.fork .ok), .dispatch 2 1 2, .call 2 (.exit 0), .call 1 (.wait false)]

/-- The container has one process of two, but the next `fork` is refused: the free slot 2 still
carries the container. -/
theorem fork_refused_below_limit : ∃ s₀ s s', boot [] 0 = .ok s₀ ∧
    system.run s₀ reuseRun = some s ∧ s.mycont 1 = some 1 ∧ s.numproc 1 = 1 ∧
    (s.containers 1).maxproc = 2 ∧ s.fork 1 .ok = .ok (.limit, s') :=
  ⟨_, _, _, rfl, rfl, rfl, rfl, rfl, rfl⟩

/-- The same container could fork when it was new. -/
theorem fork_limit_new : ∃ s₀ s o s', boot [] 0 = .ok s₀ ∧
    system.Run Kernel.Roomy s₀ (reuseRun.take 4) s ∧ s.fork 1 .ok = .ok (o, s') ∧
    s'.numproc 1 ≤ (s'.containers 1).maxproc := by
  have hrun : ∃ s₀ s o s', boot [] 0 = .ok s₀ ∧ system.Run Kernel.Roomy s₀ (reuseRun.take 4) s ∧
      s.mycont 1 = some 1 ∧ s.fork 1 .ok = .ok (o, s') := by
    refine ⟨_, _, _, _, rfl, .cons trivial rfl (.cons trivial rfl (.cons trivial rfl
      (.cons ?_ rfl (.nil _)))), rfl, rfl⟩
    exact fun _ => by decide
  obtain ⟨s₀, s, o, s', hb, hrun, hc, hf⟩ := hrun
  exact ⟨s₀, s, o, s', hb, hrun, hf, (fork_limit hb hrun hc hf).1⟩

end Xv6Container
