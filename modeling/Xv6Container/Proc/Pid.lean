import Xv6Container.Proc.Names

/-!
# Process identifiers

`fork`, `wait` and `getpid` return the identifier `pid`, which is the same in all containers.
`kill` compares its argument with `pid` when the caller is in the root container, and with `vpid`
otherwise.  So the identifiers agree in the root container only.

* `kill_marks_known` : `kill` in the root container marks the process that has the identifier, and
  no other;
* `kill_misses_child` : in a container, `kill` marks the younger brother of the child that `fork`
  returned.
-/

namespace Xv6Container

namespace Kernel

/-- `sys_getpid`. -/
def getpid (s : Kernel) (p : Slot) : ℤ := (s.proc p).pid

variable {s s' t : Kernel} {p q : Slot} {e : Event}

/-! ### What a step does to the identifiers -/

/-- What a step does to the identifiers: it keeps or clears them, or gives the next one to the first
unused slot. -/
inductive PidStep (s s' : Kernel) : Prop
  | keep (hnext : s'.nextpid = s.nextpid) (hpid : ∀ q, (s'.proc q).pid = (s.proc q).pid ∨
      (s'.proc q).pid = 0 ∧ (s'.proc q).state = .unused)
  | claim (i : Slot) (hfree : s.freeSlot = some i) (hnext : s'.nextpid = s.nextpid + 1)
      (hpid : (s'.proc i).pid = s.nextpid ∨ (s'.proc i).pid = 0 ∧ (s'.proc i).state = .unused)
      (hne : ∀ j, j ≠ i → s'.proc j = s.proc j)

theorem Quiet.pidStep (h : Quiet s s') : PidStep s s' := .keep h.nextpid fun q => .inl (h.row q).2

theorem Forked.pidStep {o : ForkOutcome} (h : Forked s p o s') : PidStep s s' := by
  cases h with
  | full => exact .keep rfl fun _ => .inl rfl
  | freed hi hx _ hpid =>
    refine .claim _ hi rfl ?_ fun j => claimSlot_proc_of_ne _
    rw [claimSlot_proc_self]
    exact hpid.imp id fun h0 => ⟨h0, hx⟩
  | child hi =>
    exact .claim _ hi rfl (.inl (by rw [claimSlot_proc_self]; rfl)) fun j => claimSlot_proc_of_ne _

theorem pidStep_of_step (h : system.next s e = some s') : PidStep s s' := by
  cases e with
  | dispatch k c r =>
    obtain ⟨-, rfl⟩ := next_dispatch_iff.1 h
    exact .keep rfl fun q => .inl ((quiet_run r).row q).2
  | wakeup chan => cases h; exact (quiet_wakeup chan).pidStep
  | call p call =>
    obtain ⟨-, h⟩ := next_call_iff.1 h
    cases called_of_perform h with
    | quiet _ h => exact h.pidStep
    | fork h => exact h.pidStep
    | @reap _ np =>
      refine .keep rfl fun q => ?_
      by_cases hq : q = np
      · exact .inr (by simp [hq])
      · exact .inl (by rw [modifyProc_proc_of_ne _ hq])
    | info hc h =>
      have hm := memOnly_info hc h
      exact .keep hm.nextpid fun q => .inl (by rw [hm.proc])
    | cinit =>
      unfold cinit
      split
      · exact .keep rfl fun _ => .inl rfl
      · refine .keep rfl fun q => .inl ?_
        by_cases hq : q = p
        · subst hq
          simp
        · simp [hq]
    | life => exact .keep rfl fun _ => .inl rfl
    | @cstop _ c =>
      refine .keep rfl fun q => ?_
      by_cases hq : (s.proc q).container = some c
      · exact .inr (by simp [hq])
      · exact .inl (by simp [hq])

/-! ### The identifiers in a run -/

/-- Identifiers are distinct, apart from those of slots without a process, and below `nextpid`. -/
structure Pids (s : Kernel) : Prop where
  pos : 0 < s.nextpid
  lt : ∀ q, (s.proc q).pid < s.nextpid
  inj : ∀ q r, (s.proc q).pid = (s.proc r).pid → (s.proc q).pid ≠ 0 → q = r

theorem Pids.step (hs : s.Pids) (h : PidStep s s') : s'.Pids := by
  cases h with
  | keep hnext hpid =>
    refine ⟨by rw [hnext]; exact hs.pos, fun q => ?_, fun q r hqr hq => ?_⟩
    · rw [hnext]
      obtain hp | ⟨hp, -⟩ := hpid q
      · rw [hp]; exact hs.lt q
      · rw [hp]; exact hs.pos
    · obtain hp | ⟨hp, -⟩ := hpid q
      · obtain hp' | ⟨hp', -⟩ := hpid r
        · exact hs.inj q r (by rw [← hp, ← hp', hqr]) (hp ▸ hq)
        · exact absurd (hqr.trans hp') hq
      · exact absurd hp hq
  | claim i hfree hnext hpid hne =>
    have hi : (s'.proc i).pid ≠ 0 → (s'.proc i).pid = s.nextpid := fun h0 =>
      hpid.resolve_right fun h => h0 h.1
    have hlt : ∀ j, j ≠ i → (s'.proc j).pid < s.nextpid := fun j hj => hne j hj ▸ hs.lt j
    have hpos := hs.pos
    refine ⟨by omega, fun q => ?_, fun q r hqr hq => ?_⟩
    · by_cases hqi : q = i
      · subst hqi
        omega
      · have := hlt q hqi
        omega
    · by_cases hqi : q = i <;> by_cases hri : r = i
      · rw [hqi, hri]
      · subst hqi
        have := hlt r hri
        rw [← hqr, hi hq] at this
        omega
      · subst hri
        have := hlt q hqi
        rw [hqr, hi (hqr ▸ hq)] at this
        omega
      · rw [hne q hqi] at hqr hq
        rw [hne r hri] at hqr
        exact hs.inj q r hqr hq

theorem pids_of_boot {free : List ℕ} {kernelEnd : ℕ} (h : boot free kernelEnd = .ok s) :
    s.Pids := by
  rw [boot_eq_ok h]
  have hpid : ∀ q : Slot, (Function.update (fun _ => Proc.zero) 0 initProc q).pid =
      if q = 0 then 1 else 0 := fun q => by
    by_cases hq : q = 0 <;> simp [hq, Proc.zero, initProc]
  refine ⟨two_pos, fun q => ?_, fun q r hqr hq => ?_⟩
  · show _ < (2 : ℤ)
    rw [hpid]
    split <;> norm_num
  · rw [hpid, hpid] at hqr
    rw [hpid] at hq
    by_cases h1 : q = 0 <;> by_cases h2 : r = 0
    · rw [h1, h2]
    · rw [if_pos h1, if_neg h2] at hqr
      cases hqr
    · rw [if_neg h1] at hq
      exact absurd rfl hq
    · rw [if_neg h1] at hq
      exact absurd rfl hq

theorem pid_of_step (h : PidStep s s') (hq : (s.proc q).state ≠ .unused)
    (hq' : (s'.proc q).state ≠ .unused) : (s'.proc q).pid = (s.proc q).pid := by
  cases h with
  | keep _ hpid => exact (hpid q).resolve_right fun h => hq' h.2
  | claim i hfree _ _ hne => rw [hne q fun e => hq (e ▸ state_of_freeSlot hfree)]

/-- Slot `q` is in use before the step. -/
def InUseAt (q : Slot) (s : Kernel) (_ : Event) : Prop := (s.proc q).state ≠ .unused

theorem pid_of_run {ls : List Event} (h : system.Run (InUseAt q) s ls s')
    (hq : (s'.proc q).state ≠ .unused) : (s'.proc q).pid = (s.proc q).pid := by
  induction h with
  | nil => rfl
  | @cons s t s' e ls hu hst hrun ih =>
    have ht : (t.proc q).state ≠ .unused := by
      cases hrun with
      | nil => exact hq
      | cons hu' _ _ => exact hu'
    rw [ih hq, pid_of_step (pidStep_of_step hst) hu ht]

/-! ### Known identifiers -/

/-- The slot holds a process that has not exited.  (A slot without a process, whose identifier is 0,
can be given the state `SUSPENDED` by `suspend(0)`.) -/
def Alive (s : Kernel) (q : Slot) : Prop :=
  (s.proc q).state ≠ .unused ∧ (s.proc q).state ≠ .zombie ∧ (s.proc q).pid ≠ 0

instance (s : Kernel) (q : Slot) : Decidable (s.Alive q) := inferInstanceAs (Decidable (_ ∧ _))

/-- In the state `s`, reached from `s₀`, the number `k` is an identifier of the process in slot `q`
that is known to the process in slot `p`. -/
inductive Knows (s₀ s : Kernel) (p q : Slot) (k : ℤ) : Prop
  /-- `fork` returned it to `p`; `q` is the child. -/
  | fork {ls ls' : List Event} {t t' : Kernel} {mem : ForkMem}
      (hrun : system.Run (fun _ _ => True) s₀ ls t) (hcpu : t.OnCpu p)
      (hfork : t.fork p mem = .ok (.child k, t')) (hq : t.freeSlot = some q)
      (hrun' : system.Run (InUseAt q) t' ls' s)
  /-- `getpid` returned it to `q`. -/
  | getpid {ls ls' : List Event} {t : Kernel} (hrun : system.Run (fun _ _ => True) s₀ ls t)
      (hcpu : t.OnCpu q) (hget : t.getpid q = k) (hrun' : system.Run (InUseAt q) t ls' s)
  /-- A `wait` of `p` that reaps `q` will return it. -/
  | wait {ls ls' : List Event} {t : Kernel} {b : Bool}
      (hrun : system.Run (fun _ _ => True) s₀ ls s) (hrun' : system.Run (InUseAt q) s ls' t)
      (hcpu : t.OnCpu p) (hwait : (t.wait p b).1 = .reaped k) (hz : (t.proc q).state = .zombie)
      (hfreed : ((t.wait p b).2.proc q).state = .unused)

variable {s₀ : Kernel} {k : ℤ}

theorem Knows.run (h : Knows s₀ s p q k) : ∃ ls, system.Run (fun _ _ => True) s₀ ls s := by
  cases h with
  | @fork ls ls' t t' mem hrun hcpu hfork hq hrun' =>
    have hstep : system.next t (.call p (.fork mem)) = some t' :=
      next_call_iff.2 ⟨hcpu, by simp [perform, hfork, Except.map]⟩
    exact ⟨_, hrun.append (.cons trivial hstep (hrun'.mono fun _ _ _ => trivial))⟩
  | getpid hrun hcpu hget hrun' => exact ⟨_, hrun.append (hrun'.mono fun _ _ _ => trivial)⟩
  | wait hrun => exact ⟨_, hrun⟩

theorem Knows.pid_eq (h : Knows s₀ s p q k) (hq : (s.proc q).state ≠ .unused) :
    (s.proc q).pid = k := by
  cases h with
  | fork hrun hcpu hfork hfree hrun' =>
    cases forked_of_fork hfork with
    | freed _ _ _ _ ho => obtain ⟨ho | ho, -⟩ | ⟨ho, -⟩ := ho <;> cases ho
    | @child i _ _ _ hi =>
      obtain rfl : i = q := Option.some.inj (hi.symm.trans hfree)
      rw [pid_of_run hrun' hq, claimSlot_proc_self]
      rfl
  | getpid hrun hcpu hget hrun' => rw [pid_of_run hrun' hq]; exact hget
  | @wait ls ls' t b hrun hrun' hcpu hwait hz hfreed =>
    obtain ⟨-, hno⟩ | ⟨np, -, hw⟩ := wait_cases (s := t) (p := p) (b := b)
    · exact absurd hwait (hno k)
    rw [hw] at hwait hfreed
    cases hwait
    have hnq : np = q := by
      by_contra hne
      rw [modifyProc_proc_of_ne _ (Ne.symm hne), hz] at hfreed
      cases hfreed
    rw [hnq, pid_of_run hrun' (by rw [hz]; exact nofun)]

theorem killTarget_of_root (hs : s.Pids) (hp : s.mycont p = some root) (hq : (s.proc q).pid ≠ 0) :
    s.killTarget p (s.proc q).pid = some q := by
  simp only [killTarget, hp, if_true]
  cases hf : s.findProc fun r => r.pid = (s.proc q).pid with
  | none =>
    have := findProc_eq_none.1 hf q
    simp at this
  | some r =>
    have hr : (s.proc r).pid = (s.proc q).pid := by simpa using findProc_spec hf
    rw [hs.inj r q hr (hr ▸ hq)]

end Kernel

/-- **Identifiers in the root container.**  In every state reached from boot, when a process `p` of
the root container calls `kill` with an identifier that `fork` returned to it for its child `q`,
that `getpid` returned to `q`, or that a later `wait` of `p` returns for `q`, and `q` is alive, then
`kill` returns 0 and marks `q` as killed, and no other process changes. -/
theorem kill_marks_known {free : List ℕ} {kernelEnd : ℕ} {s₀ s : Kernel} {p q : Slot} {k : ℤ}
    (hb : boot free kernelEnd = .ok s₀) (hk : Kernel.Knows s₀ s p q k) (hq : s.Alive q)
    (hp : s.mycont p = some root) :
    (s.kill p k).1 = 0 ∧ ((s.kill p k).2.proc q).killed = true ∧
      ∀ r, r ≠ q → (s.kill p k).2.proc r = s.proc r := by
  obtain ⟨ls, hrun⟩ := hk.run
  have hs : s.Pids := hrun.invariant (Kernel.pids_of_boot hb) fun _ _ _ hs _ hst =>
    hs.step (Kernel.pidStep_of_step hst)
  have hkill : s.kill p k = (0, s.modifyProc q Proc.kill) := by
    rw [← hk.pid_eq hq.1]
    simp [Kernel.kill, Kernel.killTarget_of_root hs hp hq.2.2, hp]
  rw [hkill]
  exact ⟨rfl, by simp [Proc.kill], fun r hr => Kernel.modifyProc_proc_of_ne _ hr⟩

/-- Init forks and kills its child. -/
theorem kill_marks_known_child : ∃ s₀ s, boot [] 0 = .ok s₀ ∧ Kernel.Knows s₀ s 0 1 2 ∧
    ((s.kill 0 2).2.proc 1).killed = true := by
  obtain ⟨s₀, t, hb, hrun, hcpu, hfree, hfork⟩ := exists_of_kernelAfter [.dispatch 0 root 0]
    (fun t => t.OnCpu 0 ∧ t.freeSlot = some 1 ∧ (t.fork 0 .ok).toOption.map (fun r =>
      (r.1, decide (r.2.Alive 1), decide (r.2.mycont 0 = some root))) = some (.child 2, true, true))
    (by decide +kernel)
  obtain ⟨⟨o, s⟩, hs, ho⟩ := Option.map_eq_some_iff.1 hfork
  simp only [Prod.mk.injEq, decide_eq_true_eq] at ho
  obtain ⟨rfl, hq, hp⟩ := ho
  have hk : Kernel.Knows s₀ s 0 1 2 :=
    .fork (Machine.run_eq_some_iff.1 hrun) hcpu (toOption_eq_some.1 hs) hfree (.nil s)
  exact ⟨s₀, s, hb, hk, (kill_marks_known hb hk hq hp).2.1⟩

/-- Init's child makes a container and forks twice there. -/
def brothersRun : List Event :=
  [.dispatch 0 root 0, .call 0 (.fork .ok), .dispatch 1 root 1,
    .call 1 (.control (.cinit (chars "web") (chars ".") 5 100 100 (some 0)))]

/-- The first `fork` in the container returns 3, and the child in slot 2 has this identifier; but
`kill(3)` marks its brother in slot 3, whose `vpid` is 3, and not the child. -/
theorem kill_misses_child : ∃ s₀ t t' s, boot [] 0 = .ok s₀ ∧ system.run s₀ brothersRun = some t ∧
    t.OnCpu 1 ∧ t.freeSlot = some 2 ∧ t.fork 1 .ok = .ok (.child 3, t') ∧
    system.Run (Kernel.InUseAt 2) t' [.call 1 (.fork .ok)] s ∧ s.Alive 2 ∧ s.getpid 2 = 3 ∧
    (s.kill 1 3).1 = 0 ∧ ((s.kill 1 3).2.proc 2).killed = false ∧
      ((s.kill 1 3).2.proc 3).killed = true := by
  obtain ⟨s₀, t, hb, hrun, hcpu, hfree, hfork⟩ := exists_of_kernelAfter brothersRun
    (fun t => t.OnCpu 1 ∧ t.freeSlot = some 2 ∧ ((t.fork 1 .ok).toOption.bind fun r =>
      (system.next r.2 (.call 1 (.fork .ok))).map fun s =>
        (r.1, decide ((r.2.proc 2).state ≠ .unused), decide (s.Alive 2 ∧ s.getpid 2 = 3 ∧
          (s.kill 1 3).1 = 0 ∧ ((s.kill 1 3).2.proc 2).killed = false ∧
            ((s.kill 1 3).2.proc 3).killed = true))) = some (.child 3, true, true))
    (by decide +kernel)
  obtain ⟨⟨o, t'⟩, ht', h⟩ := Option.bind_eq_some_iff.1 hfork
  obtain ⟨s, hs, ho⟩ := Option.map_eq_some_iff.1 h
  simp only [Prod.mk.injEq, decide_eq_true_eq] at ho
  obtain ⟨rfl, hu, hkill⟩ := ho
  exact ⟨s₀, t, t', s, hb, hrun, hcpu, hfree, toOption_eq_some.1 ht', .cons hu hs (.nil s), hkill⟩

/-- **Identifiers are not shared and not used again.**  While the counter fits an `int`, after any
run from boot an identifier other than 0 fits too and is in one slot, and at any moment before it
was in the same slot or in none. -/
theorem pids_unique {free : List ℕ} {kernelEnd : ℕ} {s₀ s s' : Kernel} {ls ls' : List Event}
    (hb : boot free kernelEnd = .ok s₀) (hrun : system.Run (fun _ _ => True) s₀ ls s)
    (hrun' : system.Run (fun _ _ => True) s ls' s') (hint : s'.nextpid < 2 ^ 31) {q : Slot}
    (hq : (s'.proc q).pid ≠ 0) :
    (s'.proc q).pid < 2 ^ 31 ∧ (∀ r, (s'.proc r).pid = (s'.proc q).pid → r = q) ∧
      ((s'.proc q).pid = (s.proc q).pid ∨ ∀ r, (s.proc r).pid ≠ (s'.proc q).pid) := by
  have hs : s.Pids := hrun.invariant (Kernel.pids_of_boot hb) fun _ _ _ h _ hst =>
    h.step (Kernel.pidStep_of_step hst)
  -- what is new since `s` is not below `s.nextpid`
  obtain ⟨hs', -, hnew⟩ := hrun'.invariant (I := fun t => t.Pids ∧ s.nextpid ≤ t.nextpid ∧ ∀ q,
      (t.proc q).pid ≠ 0 → (t.proc q).pid = (s.proc q).pid ∨ s.nextpid ≤ (t.proc q).pid)
    ⟨hs, le_rfl, fun _ _ => .inl rfl⟩ fun t e t' ht _ hst => by
      have hstep := Kernel.pidStep_of_step hst
      refine ⟨ht.1.step hstep, ?_⟩
      cases hstep with
      | keep hnext hpid => grind
      | claim i hfree hnext hpid hne => grind
  refine ⟨(hs'.lt q).trans hint, fun r hr => hs'.inj r q hr (hr ▸ hq),
    (hnew q hq).imp_right fun hle r hr => ?_⟩
  exact (hr ▸ hs.lt r).not_ge hle

theorem pids_unique_fork : ∃ s : Kernel, (s.proc 1).pid = 2 ∧ ∀ r, (s.proc r).pid = 2 → r = 1 := by
  obtain ⟨s₀, s, hb, hrun, hint, hpid⟩ := exists_of_kernelAfter
    [.dispatch 0 root 0, .call 0 (.fork .ok)]
    (fun s => s.nextpid < 2 ^ 31 ∧ (s.proc 1).pid = 2) (by decide +kernel)
  have hrun := Machine.run_eq_some_iff.1 hrun
  exact ⟨s, hpid, hpid ▸ (pids_unique hb (.nil _) hrun hint (hpid ▸ two_ne_zero)).2.1⟩

end Xv6Container
