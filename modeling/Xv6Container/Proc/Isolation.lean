import Xv6Container.Proc.System

/-!
# Isolation of the control system calls

What a process of a non-root container can do to the rest of the system with `kill`, `suspend`,
`psinfo`, `cinfo`, `cinit`, `cpause`, `cresume` and `cstop`.

* `isolated_iff_confined` : the two agree for every state, caller, call and argument;
* `suspend_escapes` : a container created from the booted system can stop init.

Five of the eight calls are isolated always.  `suspend` looks at no container at all, `cinit` moves
its caller into a container that it makes with limits of its own choice, and `psinfo` gives away the
name of a process outside the container that has a child in it.
-/

namespace Xv6Container

/-- `d'` keeps the state and the limits of `d`. -/
def Container.SameBounds (d d' : Container) : Prop :=
  d'.state = d.state ∧ d'.maxproc = d.maxproc ∧ d'.memlimit = d.memlimit ∧
    d'.disklimit = d.disklimit

/-- Some data of `p` reaches the file when `suspend` writes `p` to it: always to a device or an
inode; to a pipe, when the first byte of the code or of the stack page is mapped. -/
def Proc.Dumped (p : Proc) (f : Sink) : Prop :=
  f = .file ∨ f = .pipe ∧ ∃ pt, p.pagetable = some pt ∧
    (0 < (resumehdr p).codeSz ∧ (pt 0).isSome ∨
      0 ≤ (resumehdr p).codeSz + PGSIZE ∧ (pt ((resumehdr p).codeSz + PGSIZE).toNat).isSome)

namespace Kernel

variable (s : Kernel)

/-- Slot `q` holds a process outside container `c`. -/
def Outside (c : Cont) (q : Slot) : Prop :=
  (s.proc q).state ≠ .unused ∧ (s.proc q).container ≠ some c

instance (c : Cont) (q : Slot) : Decidable (s.Outside c q) := inferInstanceAs (Decidable (_ ∧ _))

/-- A call by process `p` of container `c` that leads from `s` to `s'` and copies out `out` has
no effect outside `c`. -/
structure Isolated (c : Cont) (p : Slot) (s' : Kernel) (out : Output) : Prop where
  /-- No process outside `c` changes its scheduling state or is killed. -/
  procs : ∀ q, s.Outside c q →
    (s'.proc q).state = (s.proc q).state ∧ (s'.proc q).killed = (s.proc q).killed
  /-- Containers in use keep their state and their limits. -/
  conts : ∀ d, (s.containers d).state ≠ .cunused → (s.containers d).SameBounds (s'.containers d)
  /-- The caller stays in `c`. -/
  own : (s'.proc p).container = some c
  /-- Nothing of a process outside `c` is copied out. -/
  copied : ∀ q ∈ s.slots out, ¬ s.Outside c q

/-- The condition for isolation: a `suspend` does not stop or write out a process outside `c`, a
`cinit` finds no container to move its caller to, and the processes that `psinfo` lists, except
init, do not have their parents outside `c`. -/
def Confined (c : Cont) : Control → Prop
  | .suspend pid f => ∀ q, s.suspendTarget pid = some q → s.Outside c q →
      (s.proc q).state = .suspended ∧ ¬ (s.proc q).Dumped f
  | .cinit .. => ∀ d, s.freeCont = some d → d = c
  | .psinfo => ∀ q ∈ s.listed (some c), (s.proc q).pid ≠ 1 → ∀ par, (s.proc q).parent = some par →
      ¬ s.Outside c par
  | _ => True

variable {s} {c : Cont} {p : Slot}

theorem Isolated.refl (hp : s.mycont p = some c) : s.Isolated c p s .none where
  procs _ _ := ⟨rfl, rfl⟩
  conts _ _ := ⟨rfl, rfl, rfl, rfl⟩
  own := hp
  copied := by simp [Output.none, slots]

/-! ### The calls that are always isolated -/

theorem isolated_kill (hp : s.mycont p = some c) (hc : c ≠ root) (pid : ℤ) :
    s.Isolated c p (s.kill p pid).2 .none := by
  have hroot : s.mycont p ≠ some root := fun h => hc (Option.some.inj (hp.symm.trans h))
  unfold kill
  split
  · exact .refl hp
  · rename_i q _
    split
    · exact .refl hp
    · rename_i hq
      -- the container check has passed, so the slot hit is one of `c`
      have hq : (s.proc q).container = some c := by
        by_contra h
        exact hq ⟨hroot, hp ▸ h⟩
      refine ⟨fun r hr => ?_, fun _ _ => ⟨rfl, rfl, rfl, rfl⟩, ?_, by
        simp [Output.none, slots]⟩
      · have : r ≠ q := fun e => hr.2 (e ▸ hq)
        rw [modifyProc_proc_of_ne _ this]
        exact ⟨rfl, rfl⟩
      · by_cases h : p = q
        · subst h; simpa [Proc.kill] using hq
        · rw [modifyProc_proc_of_ne _ h]; exact hp

theorem isolated_onCont (hp : s.mycont p = some c) (hc : c ≠ root) (name : CharArray)
    (f : Cont → Kernel) : s.Isolated c p (s.onCont p name f).2 .none := by
  have hroot : s.mycont p ≠ some root := fun h => hc (Option.some.inj (hp.symm.trans h))
  rw [onCont, if_pos hroot]
  exact .refl hp

theorem mem_listed {d : Cont} (hd : d ≠ root) {q : Slot} (h : q ∈ s.listed (some d)) :
    ¬ s.Outside d q := by
  simp only [listed, List.mem_filter, decide_eq_true_eq, Option.some.injEq, hd, false_or] at h
  exact fun ho => ho.2 h.2.2

variable {r : ℤ} {s' : Kernel} {out : Output}

theorem isolated_cinfo (hp : s.mycont p = some c) (hc : c ≠ root)
    (h : s.cinfo p = .ok (r, s', out)) : s.Isolated c p s' out := by
  have hroot : s.mycont p ≠ some root := fun h => hc (Option.some.inj (hp.symm.trans h))
  rw [cinfo, if_pos hroot] at h
  cases h
  exact .refl hp

/-! ### `psinfo`, `suspend` and `cinit` -/

theorem mem_sources {q r : Slot} : r ∈ s.sources q ↔
    r = q ∨ (s.proc q).pid ≠ 1 ∧ (s.proc q).parent = some r := by
  by_cases h : (s.proc q).pid = 1 <;> simp [sources, h]

theorem isolated_psinfo_iff (hp : s.mycont p = some c) (hc : c ≠ root)
    (h : s.psinfo p = .ok (r, s', out)) : s.Isolated c p s' out ↔ s.Confined c .psinfo := by
  have hmem := borrows_memOnly.psinfo h
  obtain ⟨⟨pa, entries, s₁⟩, hpt, h⟩ := bind_eq_ok.1 h
  obtain ⟨s₂, hfree, h⟩ := bind_eq_ok.1 h
  cases h
  obtain ⟨halloc, hes⟩ := ptableof_eq_ok hpt
  have hlisted : entries.map Prod.fst = s.listed (some c) := by
    rw [hes, hp, listed, listed, (memOnly_kalloc halloc).proc]
  -- the slots copied out are those the listed processes' entries are read from
  have hslots : ∀ r, r ∈ s.slots (.ptable entries) ↔ ∃ q ∈ s.listed (some c), r ∈ s.sources q := by
    simp [slots, ← hlisted]
  constructor
  · exact fun hiso q hq hpid par hpar =>
      hiso.copied par ((hslots par).2 ⟨q, hq, mem_sources.2 (.inr ⟨hpid, hpar⟩)⟩)
  · intro hconf
    refine ⟨fun q _ => by rw [hmem.proc]; exact ⟨rfl, rfl⟩, fun d _ => ?_, ?_, fun r hr => ?_⟩
    · rw [hmem.containers d]
      exact ⟨rfl, rfl, rfl, rfl⟩
    · rw [hmem.proc]
      exact hp
    · obtain ⟨q, hq, hr⟩ := (hslots r).1 hr
      obtain rfl | ⟨hpid, hpar⟩ := mem_sources.1 hr
      · exact mem_listed hc hq
      · exact hconf q hq hpid r hpar

theorem userBytes_eq_nil {pt : UserMem} {va n : ℤ} :
    userBytes pt va n = [] ↔ ¬ (0 < n ∧ 0 ≤ va ∧ (pt va.toNat).isSome) := by
  unfold userBytes
  split
  · simp; omega
  · cases hn : n.toNat with
    | zero => simp; omega
    | succ k =>
      have : 0 < n := by omega
      rw [List.range_succ_eq_map]
      cases hb : pt va.toNat with
      | none => simp [hb]
      | some b => simp [hb]; omega

theorem dumpMem_eq_nil {q : Proc} {pt : UserMem} : dumpMem q pt = [] ↔
    ¬ (0 < (resumehdr q).codeSz ∧ (pt 0).isSome ∨
      0 ≤ (resumehdr q).codeSz + PGSIZE ∧ (pt ((resumehdr q).codeSz + PGSIZE).toNat).isSome) := by
  have hpg : (0 : ℤ) < PGSIZE := by decide
  simp only [dumpMem, List.map_eq_nil_iff, List.filter_eq_nil_iff, List.mem_cons, List.not_mem_nil,
    or_false, forall_eq_or_imp, forall_eq, decide_eq_true_eq, not_not, userBytes_eq_nil, hpg]
  simp

theorem dump_eq_nil {q : Proc} {f : Sink} {items : List Item} (h : dump q f = .ok items) :
    items = [] ↔ ¬ q.Dumped f := by
  cases f with
  | refuses => cases h; simp [Proc.Dumped]
  | pipe =>
    cases hpt : q.pagetable with
    | none => simp [dump, hpt] at h
    | some pt =>
      simp only [dump, hpt, Except.ok.injEq] at h
      subst h
      simp [dumpMem_eq_nil, Proc.Dumped, hpt]
  | file =>
    simp only [dump] at h
    split at h
    · cases h; simp [Proc.Dumped]
    · cases h

theorem isolated_suspend_iff (hp : s.mycont p = some c) {pid : ℤ} {f : Sink}
    (h : s.suspend pid f = .ok (r, s', out)) :
    s.Isolated c p s' out ↔ ∀ q, s.suspendTarget pid = some q → s.Outside c q →
      (s.proc q).state = .suspended ∧ ¬ (s.proc q).Dumped f := by
  unfold suspend at h
  split at h
  · rename_i hnone
    cases h
    simp only [hnone, reduceCtorEq, false_implies, implies_true, iff_true]
    exact .refl hp
  · rename_i q hq
    obtain ⟨items, hitems, h⟩ := bind_eq_ok.1 h
    cases h
    have hdump : items = [] ↔ ¬ (s.proc q).Dumped f := by
      rw [dump_eq_nil hitems, modifyProc_proc_self]
      rfl
    simp only [hq, Option.some.injEq, forall_eq']
    constructor
    · intro hiso hout
      refine ⟨?_, hdump.1 (List.eq_nil_iff_forall_not_mem.2 fun i hi => ?_)⟩
      · have := (hiso.procs q hout).1
        rw [modifyProc_proc_self] at this
        exact this.symm
      · exact hiso.copied q (by simpa [slots] using List.ne_nil_of_mem hi) hout
    · intro hq'
      refine ⟨fun t ht => ?_, fun d _ => ⟨rfl, rfl, rfl, rfl⟩, ?_, fun t ht hout => ?_⟩
      · by_cases htq : t = q
        · subst htq
          rw [modifyProc_proc_self]
          exact ⟨(hq' ht).1.symm, rfl⟩
        · rw [modifyProc_proc_of_ne _ htq]
          exact ⟨rfl, rfl⟩
      · by_cases hpq : p = q
        · subst hpq; rw [modifyProc_proc_self]; exact hp
        · rw [modifyProc_proc_of_ne _ hpq]; exact hp
      · simp only [slots, List.map_map, List.mem_map, Function.comp_apply] at ht
        obtain ⟨i, hi, rfl⟩ := ht
        rw [hdump.2 (hq' hout).2] at hi
        cases hi

theorem isolated_cinit_iff (hp : s.mycont p = some c) (name rootDir : CharArray)
    (maxProc maxPage maxDisk : ℤ) (ip : Option ℕ) :
    s.Isolated c p (s.cinit p name rootDir maxProc maxPage maxDisk ip) .none ↔
      ∀ d, s.freeCont = some d → d = c := by
  unfold cinit
  split
  · rename_i hnone
    simp only [hnone, reduceCtorEq, false_implies, implies_true, iff_true]
    exact ⟨fun _ _ => ⟨rfl, rfl⟩, fun _ _ => ⟨rfl, rfl, rfl, rfl⟩, hp, by
      simp [Output.none, slots]⟩
  · rename_i d hd
    simp only [hd, Option.some.injEq, forall_eq']
    have hfree : (s.containers d).state = .cunused := by simpa using findCont_spec hd
    constructor
    · intro hiso
      simpa using hiso.own
    · rintro rfl
      refine ⟨fun q hq => ?_, fun e he => ?_, by simp, by
        simp [Output.none, slots]⟩
      · -- only the slot of the caller changes, and only in fields other than these
        by_cases hqp : q = p
        · subst hqp; simp
        · simp [hqp]
      · have : e ≠ d := fun h => he (h ▸ hfree)
        simp [this, Container.SameBounds]

/-- **Isolation of the control system calls.**  A call by a process of a non-root container that
returns is isolated exactly when it is confined: for `kill`, `cinfo`, `cpause`, `cresume` and
`cstop` always, for `psinfo` when no process of the container other than init has its parent
outside, for `suspend` when the first slot with that process identifier holds no process outside the
container (or one already suspended of which nothing is written), for `cinit` when there is no
unused container. -/
theorem isolated_iff_confined (hp : s.mycont p = some c) (hc : c ≠ root) (call : Control) {r : ℤ}
    {s' : Kernel} {out : Output} (h : s.control p call = .ok (r, s', out)) :
    s.Isolated c p s' out ↔ s.Confined c call := by
  cases call with
  | kill pid =>
    cases h
    exact iff_of_true (isolated_kill hp hc pid) trivial
  | suspend pid f => exact isolated_suspend_iff hp h
  | psinfo => exact isolated_psinfo_iff hp hc h
  | cinfo => exact iff_of_true (isolated_cinfo hp hc h) trivial
  | cinit name rootDir maxProc maxPage maxDisk ip =>
    cases h
    exact isolated_cinit_iff hp name rootDir maxProc maxPage maxDisk ip
  | cpause name =>
    cases h
    exact iff_of_true (isolated_onCont hp hc name _) trivial
  | cresume name =>
    cases h
    exact iff_of_true (isolated_onCont hp hc name _) trivial
  | cstop name =>
    cases h
    exact iff_of_true (isolated_onCont hp hc name _) trivial

end Kernel

/-- From boot: init forks, and the child makes itself a container with `cinit`. -/
def containerRun : List Event :=
  [.dispatch 0 root 0, .call 0 (.fork .ok), .call 0 .yield, .dispatch 0 root 1,
    .call 1 (.control (.cinit (chars "web") (chars ".") 5 100 100 (some 0)))]

/-- The process in the container then stops init by `suspend(1)`. -/
theorem suspend_escapes : ∃ s₀ s s' out, boot [] 0 = .ok s₀ ∧ system.run s₀ containerRun = some s ∧
    s.mycont 1 = some 1 ∧ s.control 1 (.suspend 1 .refuses) = .ok (0, s', out) ∧
    ¬ s.Isolated 1 1 s' out := by
  refine ⟨_, _, _, _, rfl, rfl, rfl, rfl, fun h => ?_⟩
  have := (h.procs 0 (by decide)).1
  revert this
  decide

/-- A call that is confined: the same process stops itself. -/
theorem suspend_self_isolated : ∃ s₀ s s' out, boot [] 0 = .ok s₀ ∧
    system.run s₀ containerRun = some s ∧ s.control 1 (.suspend 2 .refuses) = .ok (0, s', out) ∧
    s.Isolated 1 1 s' out := by
  refine ⟨_, _, _, _, rfl, rfl, rfl,
    (Kernel.isolated_iff_confined rfl (by decide) (.suspend 2 .refuses) rfl).2 ?_⟩
  intro q hq hout
  obtain rfl : 1 = q := Option.some.inj hq
  exact absurd rfl hout.2

end Xv6Container
