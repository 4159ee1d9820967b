import Xv6Container.Ledger.Basic
import Xv6Container.Proc.Moves

/-!
# Memory quotas

The accounts that `kalloc` and `kfree` keep against the pages that are really charged.  The
machine `memory` extends the process system by the page requests of running processes and keeps a
ledger of the pages charged to each container and not freed since.

* `memused_exact` : in a run of fair steps the accounts are right in every state, and the next step
  keeps them right exactly when it is fair;
* `memused_drifts` : a page that a container took and a root process gave back.
-/

namespace Xv6Container

open Function

namespace Kernel

/-- The pages used by each container. -/
def memused (s : Kernel) (c : Cont) : ℤ := (s.containers c).memused

/-- `s'` has the same free pages and the same accounts as `s`. -/
structure SameMem (s s' : Kernel) : Prop where
  used : s'.memused = s.memused
  limit : ∀ c, (s'.containers c).memlimit = (s.containers c).memlimit
  freelist : s'.freelist = s.freelist
  started : s'.started = s.started

variable {s s' : Kernel}

theorem SameMem.of_eq (h : s'.containers = s.containers) (hf : s'.freelist = s.freelist)
    (hs : s'.started = s.started) : SameMem s s' :=
  ⟨by unfold memused; rw [h], fun c => by rw [h], hf, hs⟩

theorem SameMem.refl (s : Kernel) : SameMem s s := .of_eq rfl rfl rfl

variable {s₁ : Kernel} {p : Slot} {r maxProc maxPage maxDisk : ℤ} {out : Output}
  {name rootDir : CharArray} {pa : ℕ} {ip : Option ℕ}

theorem SameMem.trans {s₂ s₃ : Kernel} (h : SameMem s₁ s₂) (h' : SameMem s₂ s₃) :
    SameMem s₁ s₃ :=
  ⟨h'.used.trans h.used, fun c => (h'.limit c).trans (h.limit c), h'.freelist.trans h.freelist,
    h'.started.trans h.started⟩

theorem sameMem_modifyProc (i : Slot) (f : Proc → Proc) : SameMem s (s.modifyProc i f) :=
  .of_eq rfl rfl rfl

theorem sameMem_modifyCont {c : Cont} {f : Container → Container}
    (hf : ∀ k, (f k).memused = k.memused ∧ (f k).memlimit = k.memlimit) :
    SameMem s (s.modifyCont c f) := by
  refine ⟨funext fun d => ?_, fun d => ?_, rfl, rfl⟩ <;> by_cases h : d = c
  · subst h; simp [memused, (hf _).1]
  · simp [memused, h]
  · subst h; simp [(hf _).2]
  · simp [h]

/-! ### The steps of the process system that leave the accounts alone -/

theorem Forked.sameMem {o : ForkOutcome} (h : Forked s p o s') : SameMem s s' := by
  cases h with
  | full => exact .refl _
  | freed => exact .of_eq rfl rfl rfl
  | @child _ _ _ c =>
    have hvpid : SameMem s (s.allocvpid c).2 :=
      sameMem_modifyCont (f := fun k => { k with nextvpid := k.nextvpid + 1 }) fun _ => ⟨rfl, rfl⟩
    exact hvpid.trans (.of_eq rfl rfl rfl)

theorem Quiet.sameMem (h : Quiet s s') : SameMem s s' := .of_eq h.containers h.freelist h.started

/-! ### Pages that a call takes and gives back -/

theorem memused_addMem (c : Cont) (n : ℤ) :
    (s.addMem c n).memused = update s.memused c (s.memused c + n) := by
  funext d
  by_cases h : d = c
  · subst h; simp [memused, addMem]
  · simp [memused, addMem, h]

theorem memlimit_addMem (c d : Cont) (n : ℤ) :
    ((s.addMem c n).containers d).memlimit = (s.containers d).memlimit := by
  by_cases h : d = c
  · subst h; simp [addMem]
  · simp [addMem, h]

theorem takePage_eq_some (h : s.takePage = (some pa, s')) :
    s.freelist = pa :: s'.freelist ∧ s' = { s with freelist := s'.freelist } := by
  unfold takePage at h
  split at h
  · cases h
  · rename_i hf
    cases h
    exact ⟨hf, rfl⟩

theorem takePage_eq_none (h : s.takePage = (none, s')) : s.freelist = [] ∧ s' = s := by
  unfold takePage at h
  split at h
  · rename_i hf
    cases h
    exact ⟨hf, rfl⟩
  · cases h

theorem sameMem_kalloc_kfree {s₂ : Kernel} (hs : s.started = true)
    (ha : s.kalloc p = .ok (some pa, s₁)) (hm : s₁.started = true → SameMem s₁ s₂)
    (hp : s₂.mycont p = s₁.mycont p) (hf : s₂.kfree p pa = .ok s') : SameMem s s' := by
  obtain ⟨c, hc, ⟨-, hr, -⟩ | ⟨-, htake⟩⟩ := kalloc_eq_ok hs ha
  · cases hr
  obtain ⟨hlist, hs1⟩ := takePage_eq_some htake
  replace hm := hm (by rw [hs1]; exact hs)
  have hs2 : s₂.started = true := by rw [hm.started, hs1]; exact hs
  obtain ⟨d, hd, -, rfl⟩ := kfree_eq_ok hs2 hf
  have hcd : d = c := by
    have : s₁.mycont p = some c := by rw [hs1]; exact hc
    exact Option.some.inj (hd.symm.trans (hp.trans this))
  subst hcd
  have hused : s₂.memused = (s.addMem d 1).memused := by rw [hm.used, hs1]; rfl
  refine ⟨?_, fun e => ?_, ?_, hs2.trans hs.symm⟩
  · change (s₂.addMem d (-1)).memused = _
    rw [memused_addMem, hused, memused_addMem]
    funext e
    by_cases he : e = d
    · subst he; simp
    · simp [he]
  · have : (s₁.containers e).memlimit = ((s.addMem d 1).containers e).memlimit := by rw [hs1]
    change ((s₂.addMem d (-1)).containers e).memlimit = _
    rw [memlimit_addMem, hm.limit, this, memlimit_addMem]
  · change pa :: s₂.freelist = _
    rw [hm.freelist, ← hlist]
    rfl

theorem borrows_sameMem :
    Borrows p fun s s' => MemOnly s s' ∧ (s.started = true → SameMem s s') where
  refl s := ⟨.refl s, fun _ => .refl s⟩
  trans h h' := ⟨h.1.trans h'.1, fun hs => (h.2 hs).trans (h'.2 ((h.2 hs).started.trans hs))⟩
  page ha h hf := ⟨borrows_memOnly.page ha h.1 hf, fun hs =>
    sameMem_kalloc_kfree hs ha h.2 (by unfold mycont; rw [h.1.proc]) hf⟩

/-! ### All steps of the process system -/

theorem memused_cinit {d : Cont} (hd : s.freeCont = some d) :
    (s.cinit p name rootDir maxProc maxPage maxDisk ip).memused = update s.memused d 0 ∧
    (fun c => ((s.cinit p name rootDir maxProc maxPage maxDisk ip).containers c).memlimit) =
      update (fun c => (s.containers c).memlimit) d maxPage := by
  unfold cinit
  rw [hd]
  constructor <;> funext c <;> by_cases h : c = d
  · subst h; simp [memused]
  · simp [memused, h]
  · subst h; simp
  · simp [h]

theorem freelist_cinit :
    (s.cinit p name rootDir maxProc maxPage maxDisk ip).freelist = s.freelist ∧
    (s.cinit p name rootDir maxProc maxPage maxDisk ip).started = true := by
  unfold cinit
  split <;> exact ⟨rfl, rfl⟩

theorem sameMem_cinit (hs : s.started = true) (hd : s.freeCont = none) :
    SameMem s (s.cinit p name rootDir maxProc maxPage maxDisk ip) := by
  unfold cinit
  rw [hd]
  exact .of_eq rfl rfl hs.symm

end Kernel

/-- The limit that a step gives to the container it clears the account of: only `cinit` does so,
to the first unused container. -/
def Kernel.clears (s : Kernel) : Event → Option (Cont × ℤ)
  | .call _ (.control (.cinit _ _ _ maxPage _ _)) => s.freeCont.map fun d => (d, maxPage)
  | _ => none

theorem Kernel.clears_eq_none {s : Kernel} {p : Slot} {c : Call} (hc : ¬ c.IsCinit) :
    s.clears (.call p c) = none := by
  unfold clears
  split
  · rename_i he
    cases he
    exact absurd trivial hc
  · rfl

open Kernel in
/-- A step of the process system keeps all accounts, but for the one it clears. -/
theorem sameMem_or_clears {s s' : Kernel} {e : Event} (hs : s.started = true)
    (h : system.next s e = some s') :
    (s.clears e = none ∧ SameMem s s') ∨ ∃ d maxPage, s.clears e = some (d, maxPage) ∧
      s'.memused = update s.memused d 0 ∧
      (fun c => (s'.containers c).memlimit) =
        update (fun c => (s.containers c).memlimit) d maxPage ∧
      s'.freelist = s.freelist ∧ s'.started = true := by
  cases e with
  | dispatch k c q =>
    obtain ⟨-, rfl⟩ := next_dispatch_iff.1 h
    exact .inl ⟨rfl, .of_eq rfl rfl rfl⟩
  | wakeup chan =>
    cases h
    exact .inl ⟨rfl, .of_eq rfl rfl rfl⟩
  | call p c =>
    replace h := (next_call_iff.1 h).2
    cases called_of_perform h with
    | quiet hc h => exact .inl ⟨clears_eq_none hc, h.sameMem⟩
    | fork h => exact .inl ⟨rfl, h.sameMem⟩
    | reap => exact .inl ⟨rfl, sameMem_modifyProc _ _⟩
    | info hc h =>
      obtain rfl | rfl := hc
      · exact .inl ⟨rfl, (borrows_sameMem.psinfo h).2 hs⟩
      · exact .inl ⟨rfl, (borrows_sameMem.cinfo h).2 hs⟩
    | cinit name rootDir maxProc maxPage maxDisk ip =>
      cases hd : s.freeCont with
      | none => exact .inl ⟨by simp [clears, hd], sameMem_cinit hs hd⟩
      | some d =>
        exact .inr ⟨d, maxPage, by simp [clears, hd], (memused_cinit hd).1, (memused_cinit hd).2,
          freelist_cinit⟩
    | life l => exact .inl ⟨by cases l <;> rfl, sameMem_modifyCont fun _ => ⟨rfl, rfl⟩⟩
    | @cstop _ d =>
      have hstop : SameMem s (s.modifyCont d fun k => { k with state := .cunused }) :=
        sameMem_modifyCont fun _ => ⟨rfl, rfl⟩
      exact .inl ⟨rfl, hstop.trans (.of_eq rfl rfl rfl)⟩

theorem started_of_step {s s' : Kernel} {e : Event} (hs : s.started = true)
    (h : system.next s e = some s') : s'.started = true := by
  obtain ⟨-, hm⟩ | ⟨d, maxPage, -, -, -, -, hst⟩ := sameMem_or_clears hs h
  · exact hm.started.trans hs
  · exact hst

/-! ### The accounts and the ledger -/

/-- The process system with a ledger of the pages charged to each container. -/
structure MemState where
  kern : Kernel
  charged : Ledger Cont ℕ

/-- A step of the machine `memory`. -/
inductive MemEvent where
  /-- Process `p` calls `kalloc`. -/
  | kalloc (p : Slot)
  /-- Process `p` calls `kfree` on the page `pa`, its own or that of a process it reaps. -/
  | kfree (p : Slot) (pa : ℕ)
  /-- Any other step of the process system. -/
  | sys (e : Event)

namespace MemState

variable (t : MemState)

/-- `kalloc` by `p`; a page it returns is charged to the container of `p`. -/
def kalloc (p : Slot) : Except Stop MemState := do
  let (r, kern) ← t.kern.kalloc p
  match r, t.kern.mycont p with
  | some pa, some c => return ⟨kern, t.charged.charge c pa⟩
  | _, _ => return ⟨kern, t.charged⟩

/-- `kfree` by `p`; the page is no longer charged to anybody. -/
def kfree (p : Slot) (pa : ℕ) : Except Stop MemState := do
  let kern ← t.kern.kfree p pa
  return ⟨kern, t.charged.release pa⟩

/-- Every `memused` counts the pages charged to its container, and no container but the root has
more than its limit. -/
def Balanced : Prop :=
  Ledger.Balanced t.kern.memused t.charged ∧
    ∀ c, c ≠ root → t.kern.memused c ≤ (t.kern.containers c).memlimit

/-- The steps that keep the balance: a `kalloc` that passes the limit finds a page, a `kfree` is
made from the container the page is charged to, and `cinit` takes a container to which nothing is
charged any more and gives it a limit that is not negative. -/
def Fair : MemEvent → Prop
  | .kalloc p => ∀ c, t.kern.mycont p = some c → ¬ t.kern.MemLimited c → t.kern.freelist ≠ []
  | .kfree p pa => ∃ c, t.kern.mycont p = some c ∧ pa ∈ t.charged c
  | .sys e => ∀ d maxPage, t.kern.clears e = some (d, maxPage) →
      t.charged d = ∅ ∧ (d ≠ root → 0 ≤ maxPage)

/-- What makes the ledger a true account: the free pages are distinct and charged to nobody, and
no page is charged twice. -/
structure Sound : Prop where
  started : t.kern.started = true
  nodup : t.kern.freelist.Nodup
  free : ∀ pa ∈ t.kern.freelist, ∀ c, pa ∉ t.charged c
  exclusive : Ledger.Exclusive t.charged

/-- No page has been charged yet. -/
structure Init : Prop where
  started : t.kern.started = true
  nodup : t.kern.freelist.Nodup
  charged : ∀ c, t.charged c = ∅
  memused : ∀ c, t.kern.memused c = 0
  memlimit : ∀ c, c ≠ root → 0 ≤ (t.kern.containers c).memlimit

end MemState

/-- **The memory system.** -/
def memory : Machine MemState MemEvent where
  next t
    | .kalloc p => if t.kern.OnCpu p then (t.kalloc p).toOption else none
    | .kfree p pa => if t.kern.OnCpu p then (t.kfree p pa).toOption else none
    | .sys e => (system.next t.kern e).map fun kern => { t with kern := kern }

namespace MemState

variable {t t' : MemState}

theorem Init.sound (h : t.Init) : t.Sound where
  started := h.started
  nodup := h.nodup
  free _ _ c := by simp [h.charged c]
  exclusive k _ a hk := by simp [h.charged k] at hk

theorem Init.balanced (h : t.Init) : t.Balanced :=
  ⟨fun c => by simp [h.charged c, h.memused c], fun c hc => h.memused c ▸ h.memlimit c hc⟩

variable {p : Slot} {kern : Kernel}

theorem kalloc_cases (hs : t.Sound) (h : t.kalloc p = .ok t') :
    ∃ c, t.kern.mycont p = some c ∧ (t.kern.MemLimited c ∧ t' = t ∨ ¬ t.kern.MemLimited c ∧
      (t.kern.freelist = [] ∧ t' = ⟨t.kern.addMem c 1, t.charged⟩ ∨
        ∃ pa rest, t.kern.freelist = pa :: rest ∧
          t' = ⟨{ t.kern.addMem c 1 with freelist := rest }, t.charged.charge c pa⟩)) := by
  obtain ⟨⟨r, kern⟩, ha, h⟩ := bind_eq_ok.1 h
  obtain ⟨c, hc, ⟨hl, rfl, rfl⟩ | ⟨hl, htake⟩⟩ := Kernel.kalloc_eq_ok hs.started ha
  · cases h
    exact ⟨c, hc, .inl ⟨hl, rfl⟩⟩
  · refine ⟨c, hc, .inr ⟨hl, ?_⟩⟩
    cases r with
    | none =>
      obtain ⟨hf, rfl⟩ := Kernel.takePage_eq_none htake
      cases h
      exact .inl ⟨hf, rfl⟩
    | some pa =>
      obtain ⟨hf, hkern⟩ := Kernel.takePage_eq_some htake
      rw [hc] at h
      cases h
      exact .inr ⟨pa, kern.freelist, hf, by rw [hkern]⟩

theorem kfree_cases {pa : ℕ} (hs : t.Sound) (h : t.kfree p pa = .ok t') :
    ∃ c, t.kern.mycont p = some c ∧
      t' = ⟨{ t.kern.addMem c (-1) with freelist := pa :: t.kern.freelist },
        t.charged.release pa⟩ := by
  obtain ⟨kern, hf, h⟩ := bind_eq_ok.1 h
  cases h
  obtain ⟨c, hc, -, rfl⟩ := Kernel.kfree_eq_ok hs.started hf
  exact ⟨c, hc, rfl⟩

theorem memLimit_addMem_le {c : Cont} (hc : ¬ kern.MemLimited c)
    (h : ∀ c, c ≠ root → kern.memused c ≤ (kern.containers c).memlimit) {d : Cont}
    (hd : d ≠ root) : (kern.addMem c 1).memused d ≤ ((kern.addMem c 1).containers d).memlimit := by
  rw [Kernel.memlimit_addMem, Kernel.memused_addMem]
  by_cases hdc : d = c
  · subst hdc
    simp only [Kernel.MemLimited, isroot, hd, decide_false, true_and, not_le] at hc
    rw [update_self]
    exact hc
  · rw [update_of_ne hdc]
    exact h d hd

section

variable (hs : t.Sound) (hb : t.Balanced)

include hs hb

theorem balanced_kalloc_iff (h : t.kalloc p = .ok t') : t'.Balanced ↔ t.Fair (.kalloc p) := by
  obtain ⟨c, hc, ⟨hl, rfl⟩ | ⟨hl, ⟨hf, rfl⟩ | ⟨pa, rest, hf, rfl⟩⟩⟩ := kalloc_cases hs h
  · refine iff_of_true hb fun d hd hd' => absurd ?_ hd'
    rwa [← Option.some.inj (hc.symm.trans hd)]
  · -- counted, but there was no page
    refine iff_of_false (fun hb' => ?_) fun hfair => hfair c hc hl hf
    have := hb'.1
    rw [Kernel.memused_addMem] at this
    exact Ledger.not_balanced_succ hb.1 this
  · refine iff_of_true ⟨?_, fun d hd => ?_⟩ fun _ _ _ => by simp [hf]
    · change Ledger.Balanced (t.kern.addMem c 1).memused _
      rw [Kernel.memused_addMem]
      exact Ledger.balanced_charge hb.1 (hs.free pa (by simp [hf]) c)
    · exact memLimit_addMem_le hl hb.2 hd

theorem balanced_kfree_iff {pa : ℕ} (h : t.kfree p pa = .ok t') :
    t'.Balanced ↔ t.Fair (.kfree p pa) := by
  obtain ⟨c, hc, rfl⟩ := kfree_cases hs h
  have hlimit : ∀ d, d ≠ root → (t.kern.addMem c (-1)).memused d ≤
      ((t.kern.addMem c (-1)).containers d).memlimit := fun d hd => by
    rw [Kernel.memlimit_addMem, Kernel.memused_addMem]
    have := hb.2 d hd
    by_cases hdc : d = c
    · subst hdc; rw [update_self]; omega
    · rw [update_of_ne hdc]; exact this
  have hused : (t.kern.addMem c (-1)).memused =
      update t.kern.memused c (t.kern.memused c - 1) := Kernel.memused_addMem c (-1)
  simp only [Balanced, Fair, hc, Option.some.injEq, exists_eq_left']
  rw [← Ledger.balanced_release_iff hb.1 hs.exclusive, ← hused]
  exact ⟨fun h => h.1, fun h => ⟨h, hlimit⟩⟩

theorem balanced_sys_iff {e : Event} (h : system.next t.kern e = some kern) :
    (⟨kern, t.charged⟩ : MemState).Balanced ↔ t.Fair (.sys e) := by
  obtain ⟨hnone, hm⟩ | ⟨d, maxPage, hd, hused, hlimit, -, -⟩ := sameMem_or_clears hs.started h
  · refine iff_of_true ?_ fun d maxPage hd => by rw [hnone] at hd; cases hd
    exact ⟨hm.used ▸ hb.1, fun c hc => by rw [hm.used, hm.limit]; exact hb.2 c hc⟩
  · have hlimit : ∀ c, (kern.containers c).memlimit =
        update (fun c => (t.kern.containers c).memlimit) d maxPage c := congrFun hlimit
    simp only [Balanced, Fair, hd, Option.some.injEq, Prod.mk.injEq, and_imp, hused, hlimit,
      Ledger.balanced_reset_iff hb.1]
    constructor
    · rintro ⟨hc, hle⟩ d _ rfl rfl
      exact ⟨hc, fun hr => by simpa using hle d hr⟩
    · intro hfair
      refine ⟨(hfair d maxPage rfl rfl).1, fun c hc => ?_⟩
      by_cases hcd : c = d
      · subst hcd; simpa using (hfair c maxPage rfl rfl).2 hc
      · simpa [hcd] using hb.2 c hc

/-- **Exactness of the condition**, for one step: the accounts stay right exactly when the step is
fair. -/
theorem balanced_step_iff {l : MemEvent} (h : memory.next t l = some t') :
    t'.Balanced ↔ t.Fair l := by
  cases l with
  | kalloc p =>
    simp only [memory, Option.ite_none_right_eq_some, toOption_eq_some] at h
    exact balanced_kalloc_iff hs hb h.2
  | kfree p pa =>
    simp only [memory, Option.ite_none_right_eq_some, toOption_eq_some] at h
    exact balanced_kfree_iff hs hb h.2
  | sys e =>
    simp only [memory, Option.map_eq_some_iff] at h
    obtain ⟨kern, hk, rfl⟩ := h
    exact balanced_sys_iff hs hb hk

end

theorem Sound.step {l : MemEvent} (hs : t.Sound) (hfair : t.Fair l)
    (h : memory.next t l = some t') : t'.Sound := by
  cases l with
  | kalloc p =>
    simp only [memory, Option.ite_none_right_eq_some, toOption_eq_some] at h
    obtain ⟨c, -, ⟨-, rfl⟩ | ⟨-, ⟨-, rfl⟩ | ⟨pa, rest, hf, rfl⟩⟩⟩ := kalloc_cases hs h.2
    · exact hs
    · exact ⟨hs.started, hs.nodup, hs.free, hs.exclusive⟩
    · have hnodup := hs.nodup
      rw [hf, List.nodup_cons] at hnodup
      refine ⟨hs.started, hnodup.2, fun b hb d => ?_,
        hs.exclusive.charge (hs.free pa (by simp [hf]))⟩
      rw [Ledger.mem_charge]
      rintro (⟨-, rfl⟩ | hbd)
      · exact hnodup.1 hb
      · exact hs.free b (by rw [hf]; exact List.mem_cons_of_mem _ hb) d hbd
  | kfree p pa =>
    simp only [memory, Option.ite_none_right_eq_some, toOption_eq_some] at h
    obtain ⟨c, hc, rfl⟩ := kfree_cases hs h.2
    obtain ⟨d, hd, hpa⟩ := hfair
    refine ⟨hs.started, List.nodup_cons.2 ⟨fun hm => hs.free pa hm d hpa, hs.nodup⟩,
      fun b hb e => ?_, hs.exclusive.release⟩
    rw [Ledger.mem_release]
    rintro ⟨hne, hbe⟩
    obtain rfl | hb := List.mem_cons.1 hb
    · exact hne rfl
    · exact hs.free b hb e hbe
  | sys e =>
    simp only [memory, Option.map_eq_some_iff] at h
    obtain ⟨kern, hk, rfl⟩ := h
    obtain ⟨-, hm⟩ | ⟨d, maxPage, -, -, -, hf, hst⟩ := sameMem_or_clears hs.started hk
    · exact ⟨hm.started.trans hs.started, hm.freelist ▸ hs.nodup, hm.freelist ▸ hs.free,
        hs.exclusive⟩
    · exact ⟨hst, hf ▸ hs.nodup, hf ▸ hs.free, hs.exclusive⟩

theorem kalloc_eq_none (hs : t.Sound) (hfair : t.Fair (.kalloc p))
    (h : t.kern.kalloc p = .ok (none, kern)) : kern = t.kern := by
  obtain ⟨c, hc, ⟨-, -, rfl⟩ | ⟨hl, htake⟩⟩ := Kernel.kalloc_eq_ok hs.started h
  · rfl
  · exact absurd (Kernel.takePage_eq_none htake).1 (hfair c hc hl)

end MemState

/-- **Memory accounts.**  From a state in which nothing is charged, whatever its free list, every
run of fair steps keeps `memused` of each container equal to the number of pages charged to it and
not freed since, not negative, and within the limit of every container but the root; a fair
`kalloc` that returns 0 leaves all accounts as they are; and of all steps that can come next,
exactly the fair ones keep the accounts right. -/
theorem memused_exact {t₀ t : MemState} {ls : List MemEvent} (h0 : t₀.Init)
    (hrun : memory.Run MemState.Fair t₀ ls t) :
    (∀ c, t.kern.memused c = (t.charged c).card ∧ 0 ≤ t.kern.memused c ∧
      (c ≠ root → t.kern.memused c ≤ (t.kern.containers c).memlimit)) ∧
    (∀ p kern, t.Fair (.kalloc p) → t.kern.kalloc p = .ok (none, kern) →
      kern.memused = t.kern.memused) ∧
    ∀ l t', memory.next t l = some t' → (t'.Balanced ↔ t.Fair l) := by
  obtain ⟨hs, hb⟩ : t.Sound ∧ t.Balanced := by
    refine hrun.invariant (I := fun t => t.Sound ∧ t.Balanced) ⟨h0.sound, h0.balanced⟩ ?_
    rintro t l t' ⟨hs, hb⟩ hfair hstep
    exact ⟨hs.step hfair hstep, (MemState.balanced_step_iff hs hb hstep).2 hfair⟩
  refine ⟨fun c => ⟨hb.1 c, by rw [hb.1 c]; exact Int.natCast_nonneg _, hb.2 c⟩, ?_, ?_⟩
  · intro p kern hfair h
    rw [MemState.kalloc_eq_none hs hfair h]
  · intro l t' hstep
    exact MemState.balanced_step_iff hs hb hstep

theorem init_boot {free : List ℕ} {kernelEnd : ℕ} {s : Kernel} (hfree : free.Nodup)
    (h : boot free kernelEnd = .ok s) : (⟨s, fun _ => ∅⟩ : MemState).Init := by
  rw [boot_eq_ok h]
  refine ⟨rfl, hfree, fun _ => rfl, fun c => ?_, fun c hc => ?_⟩
  · by_cases hc : c = root
    · subst hc; rfl
    · simp [Kernel.memused, hc]
  · simp [hc]

/-- The first page that init takes after boot. -/
theorem memused_exact_boot : ∃ s t, boot [0x80001000] 0x80000000 = .ok s ∧
    memory.Run MemState.Fair ⟨s, fun _ => ∅⟩ [.sys (.dispatch 0 root 0), .kalloc 0] t ∧
    t.charged root = {0x80001000} ∧ t.kern.memused root = (t.charged root).card := by
  have hrun : ∃ s t, boot [0x80001000] 0x80000000 = .ok s ∧
      memory.Run MemState.Fair ⟨s, fun _ => ∅⟩ [.sys (.dispatch 0 root 0), .kalloc 0] t ∧
      t.charged root = {0x80001000} := by
    refine ⟨_, _, rfl, .cons ?_ rfl (.cons ?_ rfl (.nil _)), rfl⟩
    · rintro d maxPage ⟨⟩
    · rintro c - - ⟨⟩
  obtain ⟨s, t, hb, hrun, ht⟩ := hrun
  exact ⟨s, t, hb, hrun, ht, ((memused_exact (init_boot (by decide) hb) hrun).1 root).1⟩

/-- Init starts a container on one CPU and goes on running on another. -/
def twoCpuRun : List MemEvent :=
  [.sys (.dispatch 0 root 0), .sys (.call 0 (.fork .ok)), .sys (.dispatch 1 root 1),
    .sys (.call 1 (.control (.cinit (chars "web") (chars ".") 5 100 100 (some 0))))]

/-- A page that the container takes and init frees, as `wait` does with the pages of a child,
stays on the account of the container and takes that of the root below zero. -/
theorem memused_drifts : ∃ s₀ t, boot [0x80001000] 0x80000000 = .ok s₀ ∧
    memory.run ⟨s₀, fun _ => ∅⟩ (twoCpuRun ++ [.kalloc 1, .kfree 0 0x80001000]) = some t ∧
    (∀ c, t.charged c = ∅) ∧ t.kern.memused 1 = 1 ∧ t.kern.memused root = -1 := by
  refine ⟨_, _, rfl, rfl, ?_, rfl, rfl⟩
  decide

end Xv6Container
