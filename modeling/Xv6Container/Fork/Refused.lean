import Xv6Container.Fs.Balance
import Xv6Container.Mem.Owner

/-!
# A fork that is refused

`fork` of `kernel/proc.c` with everything it takes: the slot, pages, open files and the current
directory.  The process limit of the container is tested last, and `freeproc` undoes a part only.
The bytes of pages are left out.  What it does to memory and descriptors is put together from the
parts of `Vm.fork`; the tables are those of `Kernel.fork`.

* `fork_no_trace_iff` : **a fork leaves no trace when it is refused** only if it is not refused.
-/

namespace Xv6Container

open Function

/-- `struct context`. -/
structure Context where
  ra : ℕ
  sp : ℕ
  /-- `s0` to `s11`. -/
  saved : Fin 12 → ℕ

/-- The fields of `struct proc` that are not in `VmProc`. -/
structure ProcRest where
  chan : Option Chan
  killed : Bool
  xstate : ℤ
  pid : ℤ
  kstack : ℕ
  context : Context
  /-- Current directory, as an index into the inode cache. -/
  cwd : Option ℕ
  name : CharArray
  strace : ℕ
  container : Option Cont
  vpid : ℤ

/-- What `fork` works on. -/
structure ForkState where
  /-- Pages, open files, and the fields of processes that go with them. -/
  vm : Vm
  rest : Slot → ProcRest
  /-- `ref` of each entry of the inode cache. -/
  iref : ℕ → ℤ
  maxproc : Cont → ℤ
  nextvpid : Cont → ℤ
  nextpid : ℤ
  /-- The address of `forkret`. -/
  forkret : ℕ

/-- Kernel code for `fork`. -/
abbrev ForkM := StateT ForkState (Except Stop)

/-- How `fork` ends; all but `child` return -1. -/
inductive ForkEnd where
  | noProc
  | noMemory
  /-- The container has reached `maxproc`. -/
  | limit
  | child (pid : ℤ)
  deriving DecidableEq

namespace ForkState

/-- Run code that works on pages and files. -/
def onVm {α : Type} : VmM α → ForkM α := zoom vm fun s v => { s with vm := v }

/-- Change the process in slot `i`. -/
@[simps -fullyApplied]
def setRest (s : ForkState) (i : Slot) (f : ProcRest → ProcRest) : ForkState :=
  { s with rest := update s.rest i (f (s.rest i)) }

/-- The first `UNUSED` slot. -/
def freeSlot (s : ForkState) : Option Slot :=
  (List.finRange NPROC).find? fun i => (s.vm.proc i).state = .unused

/-- `numproc`. -/
def numproc (s : ForkState) (c : Cont) : ℕ :=
  (List.finRange NPROC).countP fun i =>
    (s.vm.proc i).state ≠ .unused ∧ (s.rest i).container = some c

/-- `allocproc`.  The number is taken before memory is asked for. -/
def allocproc : ForkM (Option Slot) := do
  match (← get).freeSlot with
  | none => return none
  | some i =>
    modify fun s => { s.setRest i fun q => { q with pid := s.nextpid } with
      nextpid := s.nextpid + 1 }
    match ← onVm Vm.allocproc with
    | none => return none
    | some np =>
      modify fun s => s.setRest np fun q =>
        { q with context := ⟨s.forkret, q.kstack + PGSIZE, fun _ => 0⟩ }
      return some np

/-- `freeproc`. -/
def freeproc (np : Slot) : ForkM Unit := do
  onVm (Vm.freeproc np)
  modify (·.setRest np fun q =>
    { q with pid := 0, name := q.name.set 0 0, chan := none, killed := false, xstate := 0 })

/-- `uvmcopy(p->pagetable, np->pagetable, p->sz)`. -/
def copyMemory (p np : Slot) : VmM Bool := do
  let old ← Vm.pagetableOf p
  let new ← Vm.pagetableOf np
  Vm.onPhys (Phys.uvmcopy old new ((← get).proc p).sz)

/-- The part of `fork` between the copy of the memory and the test of the limit. -/
def inherit (p np : Slot) : ForkM Unit := do
  onVm (modify fun v => v.setProc np fun q => { q with sz := (v.proc p).sz, parent := some p })
  -- `*(np->tf) = *(p->tf)`
  if ((← get).vm.proc p).tf.isNone then
    throw .fault
  onVm ((List.finRange NOFILE).forM (Vm.dupFd p np))
  match ((← get).rest p).cwd with
  | none => throw .fault
  | some ip =>
    -- `idup`
    modify fun s => { s with iref := update s.iref ip (s.iref ip + 1) }
    modify fun s => s.setRest np fun q =>
      { q with cwd := some ip, name := safestrcpy q.name (s.rest p).name 16 }
    onVm (modify (·.setProc np fun q => { q with state := .runnable }))

/-- `fork` by process `p`. -/
def fork (p : Slot) : ForkM ForkEnd := do
  match ← allocproc with
  | none => return .noProc
  | some np =>
    if !(← onVm (copyMemory p np)) then
      freeproc np
      return .noMemory
    inherit p np
    let s ← get
    match (s.rest p).container with
    | none => throw .fault
    | some c =>
      if s.maxproc c ≤ s.numproc c then
        freeproc np
        return .limit
      set { s.setRest np fun q => { q with container := some c, vpid := s.nextvpid c } with
        nextvpid := update s.nextvpid c (s.nextvpid c + 1) }
      return .child (s.rest np).pid

/-- Files, inodes, free pages and all slots are as before. -/
structure NoTrace (s s' : ForkState) : Prop where
  files : ∀ f, (s'.vm.file f).ref = (s.vm.file f).ref
  inodes : ∀ b, s'.iref b = s.iref b
  pages : ∀ pa, pa ∈ s'.vm.phys.freelist ↔ pa ∈ s.vm.phys.freelist
  procs : ∀ q, s'.vm.proc q = s.vm.proc q ∧ s'.rest q = s.rest q

/-- The container of `p` has reached its limit by the count that `fork` makes: the slot it takes is
counted with the container that its last process was in. -/
def AtLimit (s : ForkState) (p : Slot) : Prop :=
  ∃ c i, (s.rest p).container = some c ∧ s.freeSlot = some i ∧
    s.maxproc c ≤ s.numproc c + if (s.rest i).container = some c then 1 else 0

/-! ### What the steps before the test keep -/

/-- What memory management leaves alone. -/
structure SameFiles (v v' : Vm) : Prop where
  file : v'.file = v.file
  state : ∀ q, (v'.proc q).state = (v.proc q).state
  ofile : ∀ q, (v'.proc q).ofile = (v.proc q).ofile

instance : Std.Refl SameFiles := ⟨fun _ => ⟨rfl, fun _ => rfl, fun _ => rfl⟩⟩

instance : IsTrans Vm SameFiles where
  trans _ _ _ h h' := ⟨h'.file.trans h.file, fun q => (h'.state q).trans (h.state q),
    fun q => (h'.ofile q).trans (h.ofile q)⟩

variable {α : Type} {i : Slot} {v v' : Vm} {u : Unit}

theorem within_onPhys (m : PhysM α) :
    Within SameFiles (fun _ => True) (Vm.onPhys m) := by
  refine .of_rel fun v a v' h => ?_
  obtain ⟨φ', -, rfl⟩ := Vm.returns_onPhys.1 h
  exact ⟨rfl, fun _ => rfl, fun _ => rfl⟩

theorem within_setProc {f : VmProc → VmProc} (hstate : ∀ q, (f q).state = q.state)
    (hofile : ∀ q, (f q).ofile = q.ofile) :
    Within SameFiles (fun _ => True) (modify (·.setProc i f) : VmM Unit) := by
  refine .modify fun v => ⟨rfl, fun q => ?_, fun q => ?_⟩
  all_goals
    by_cases hq : q = i
    · subst hq
      simp [hstate, hofile]
    · simp [hq]

theorem within_procPagetable (i : Slot) : Within SameFiles (fun _ => True) (Vm.procPagetable i) :=
  .bind .get fun _ => within_onPhys _

theorem allocproc_spec {r : Option Slot} (h : Returns Vm.allocproc v r v') :
    SameFiles v v' ∧ ∀ np, r = some np →
      (List.finRange NPROC).find? (fun i => (v.proc i).state = .unused) = some np := by
  rw [Vm.allocproc, returns_get_bind] at h
  split at h
  · obtain ⟨rfl, rfl⟩ := returns_pure.1 h
    exact ⟨refl_of _ _, by simp⟩
  · rename_i i hi
    obtain ⟨tf, v₁, h1, h⟩ := returns_bind.1 h
    obtain ⟨_, v₂, h2, h⟩ := returns_bind.1 h
    have h12 := trans_of _ ((within_onPhys _).rel h1)
      ((within_setProc (fun _ => by rfl) fun _ => by rfl).rel h2)
    split at h
    · obtain ⟨rfl, rfl⟩ := returns_pure.1 h
      exact ⟨h12, by simp⟩
    · obtain ⟨pt, v₃, h3, h⟩ := returns_bind.1 h
      obtain ⟨_, v₄, h4, h⟩ := returns_bind.1 h
      obtain ⟨rfl, rfl⟩ := returns_pure.1 h
      have h34 := trans_of _ ((within_procPagetable i).rel h3)
        ((within_setProc (fun _ => by rfl) fun _ => by rfl).rel h4)
      refine ⟨trans_of _ h12 h34, ?_⟩
      rintro np ⟨⟩
      exact hi

theorem within_pagetableOf (i : Slot) : Within SameFiles (fun _ => True) (Vm.pagetableOf i) := by
  refine .of_rel fun v a v' h => ?_
  obtain ⟨-, rfl⟩ := Vm.pagetableOf_spec h
  exact refl_of _ _

theorem within_copyMemory (p np : Slot) : Within SameFiles (fun _ => True) (copyMemory p np) :=
  .bind (within_pagetableOf p) fun _ => .bind (within_pagetableOf np) fun _ =>
    .bind .get fun _ => within_onPhys _

theorem returns_onVm {m : VmM α} {a : α} {s s' : ForkState} :
    Returns (onVm m) s a s' ↔ ∃ v, Returns m s.vm a v ∧ s' = { s with vm := v } :=
  returns_zoom

/-- What `fork` has kept when it comes to `inherit`. -/
structure Prepared (s t : ForkState) : Prop where
  vm : SameFiles s.vm t.vm
  cwd : ∀ q, (t.rest q).cwd = (s.rest q).cwd
  container : ∀ q, (t.rest q).container = (s.rest q).container
  iref : t.iref = s.iref
  maxproc : t.maxproc = s.maxproc

variable {s s' t : ForkState} {p np : Slot}

theorem Prepared.onVm {m : VmM α} {a : α} (hs : Prepared s t)
    (hm : Within SameFiles (fun _ => True) m) (h : Returns (onVm m) t a s') : Prepared s s' := by
  obtain ⟨v, hv, rfl⟩ := returns_onVm.1 h
  exact ⟨trans_of _ hs.vm (hm.rel hv), hs.cwd, hs.container, hs.iref, hs.maxproc⟩

theorem Prepared.setRest {f : ProcRest → ProcRest} (hs : Prepared s t)
    (hcwd : ∀ q, (f q).cwd = q.cwd) (hcont : ∀ q, (f q).container = q.container) :
    Prepared s (t.setRest i f) := by
  refine ⟨hs.vm, fun q => ?_, fun q => ?_, hs.iref, hs.maxproc⟩
  · rw [← hs.cwd q]
    by_cases hq : q = i
    · subst hq
      simp [hcwd]
    · simp [hq]
  · rw [← hs.container q]
    by_cases hq : q = i
    · subst hq
      simp [hcont]
    · simp [hq]

theorem prepared_allocproc (h : Returns allocproc s (some np) t) :
    Prepared s t ∧ s.freeSlot = some np := by
  rw [allocproc, returns_get_bind] at h
  cases hi : s.freeSlot with
  | none =>
    rw [hi] at h
    cases (returns_pure.1 h).1
  | some i =>
    rw [hi] at h
    simp only [returns_bind, returns_modify] at h
    obtain ⟨_, _, rfl, r, t₁, hvm, h⟩ := h
    have h0 : Prepared s { s.setRest i fun q => { q with pid := s.nextpid } with
        nextpid := s.nextpid + 1 } := by
      have : Prepared s s := ⟨refl_of _ _, fun _ => rfl, fun _ => rfl, rfl, rfl⟩
      have h1 := this.setRest (f := fun q => { q with pid := s.nextpid }) (i := i)
        (fun _ => rfl) (fun _ => rfl)
      exact ⟨h1.vm, h1.cwd, h1.container, h1.iref, h1.maxproc⟩
    have h1 := h0.onVm (.of_rel fun _ _ _ h => (allocproc_spec h).1) hvm
    cases r with
    | none => cases (returns_pure.1 h).1
    | some j =>
      simp only [returns_bind, returns_modify, returns_pure] at h
      obtain ⟨_, _, rfl, ⟨⟩, rfl⟩ := h
      obtain ⟨v, hv, -⟩ := returns_onVm.1 hvm
      refine ⟨h1.setRest (fun _ => rfl) (fun _ => rfl), hi.symm.trans ?_⟩
      exact (allocproc_spec hv).2 _ rfl

/-! ### Files and the current directory -/

/-- How many descriptors of `p` are the file `f`. -/
def descriptors (s : ForkState) (p : Slot) (f : Fin NFILE) : ℕ :=
  (List.finRange NOFILE).countP fun fd => (s.vm.proc p).ofile fd = some f

/-- The loop of `fork` over the descriptors. -/
theorem dupFds_spec (hne : p ≠ np)
    (h : Returns ((List.finRange NOFILE).forM (Vm.dupFd p np)) v u v') :
    (∀ q, (v'.proc q).state = (v.proc q).state) ∧
    (∀ f, (v'.file f).ref = (v.file f).ref +
      (List.finRange NOFILE).countP fun fd => (v.proc p).ofile fd = some f) ∧
    ∀ fd, (v'.proc np).ofile fd = ((v.proc p).ofile fd).or ((v.proc np).ofile fd) := by
  obtain ⟨⟨o, hproc, ho⟩, -, href⟩ := Vm.dupFds_spec hne h
  refine ⟨fun q => ?_, href, fun fd => ?_⟩
  · rw [hproc]
    by_cases hq : q = np
    · subst hq
      simp
    · simp [hq]
  · rw [hproc, update_self]
    cases hfd : (v.proc p).ofile fd <;> simp [ho fd, hfd]

/-- What `inherit` does, as far as it is not undone by `freeproc`. -/
structure Inherited (s t : ForkState) (p np : Slot) (ip : ℕ) : Prop where
  cwd : (s.rest p).cwd = some ip
  child_cwd : (t.rest np).cwd = some ip
  iref : ∀ b, t.iref b = s.iref b + oneRef (some ip) b
  ref : ∀ f, (t.vm.file f).ref = (s.vm.file f).ref + s.descriptors p f
  ofile : ∀ fd, (t.vm.proc np).ofile fd = ((s.vm.proc p).ofile fd).or ((s.vm.proc np).ofile fd)
  state : ∀ q, (t.vm.proc q).state = if q = np then .runnable else (s.vm.proc q).state
  container : ∀ q, (t.rest q).container = (s.rest q).container
  maxproc : t.maxproc = s.maxproc

theorem inherit_spec (hne : p ≠ np) (h : Returns (inherit p np) s u t) :
    ∃ ip, Inherited s t p np ip := by
  simp only [inherit, returns_bind, returns_get, returns_onVm, returns_modify] at h
  obtain ⟨_, _, ⟨_, rfl, rfl⟩, _, _, ⟨rfl, rfl⟩, h⟩ := h
  split at h
  · simp [returns_bind] at h
  simp only [returns_bind, returns_get, returns_onVm] at h
  obtain ⟨_, _, ⟨v, hdup, rfl⟩, _, _, ⟨rfl, rfl⟩, h⟩ := h
  split at h
  · exact absurd h not_returns_throw
  rename_i ip hcwd
  simp only [returns_bind, returns_modify, returns_onVm] at h
  obtain ⟨_, _, rfl, _, _, rfl, _, rfl, rfl⟩ := h
  obtain ⟨hstate, href, hofile⟩ := dupFds_spec hne hdup
  have hproc : ∀ q, ((s.vm.setProc np fun q =>
      { q with sz := (s.vm.proc p).sz, parent := some p }).proc q).ofile = (s.vm.proc q).ofile ∧
      ((s.vm.setProc np fun q =>
      { q with sz := (s.vm.proc p).sz, parent := some p }).proc q).state = (s.vm.proc q).state := by
    intro q
    by_cases hq : q = np
    · subst hq
      simp
    · simp [hq]
  refine ⟨ip, hcwd, by simp, fun b => ?_, fun f => ?_, fun fd => ?_,
    fun q => ?_, fun q => ?_, rfl⟩
  · by_cases hb : b = ip
    · subst hb
      simp
    · simp [hb, oneRef_of_ne hb]
  · rw [(hproc p).1] at href
    exact href f
  · rw [(hproc p).1, (hproc np).1] at hofile
    simpa using hofile fd
  · by_cases hq : q = np
    · subst hq
      simp
    · have := (hstate q).trans (hproc q).2
      simpa [hq] using this
  · by_cases hq : q = np
    · subst hq
      simp
    · simp [hq]

/-! ### The test of the limit -/

theorem countP_mark [DecidableEq α] {P Q : α → Bool} {i : α} {l : List α} (hl : l.Nodup)
    (hP : P i = false) (h : ∀ j, j ≠ i → Q j = P j) :
    l.countP Q = l.countP P + if i ∈ l ∧ Q i = true then 1 else 0 := by
  induction l with
  | nil => simp
  | cons a l ih =>
    obtain ⟨ha, hl⟩ := List.nodup_cons.1 hl
    rw [List.countP_cons, List.countP_cons, ih hl]
    by_cases hai : a = i
    · subst hai
      simp [hP, ha]
    · simp [h a hai, Ne.symm hai]
      omega

theorem Inherited.numproc {ip : ℕ} (h : Inherited s t p np ip)
    (hnp : (s.vm.proc np).state = .unused) (c : Cont) :
    t.numproc c = s.numproc c + if (s.rest np).container = some c then 1 else 0 := by
  unfold ForkState.numproc
  rw [countP_mark (i := np) (P := fun i => decide ((s.vm.proc i).state ≠ .unused ∧
    (s.rest i).container = some c)) (List.nodup_finRange _) (by simp [hnp])]
  · simp [h.state, h.container]
  · intro j hj
    simp [h.state, h.container, hj]

theorem Prepared.numproc (h : Prepared s t) (c : Cont) : t.numproc c = s.numproc c := by
  unfold ForkState.numproc
  simp only [h.vm.state, h.container]

theorem state_of_freeSlot (h : s.freeSlot = some np) : (s.vm.proc np).state = .unused := by
  simpa using List.find?_some (p := fun i => decide ((s.vm.proc i).state = .unused)) h

theorem fork_cases {r : ForkEnd} (hp : (s.vm.proc p).state ≠ .unused)
    (h : Returns (fork p) s r s') (hproc : r ≠ .noProc) (hmem : r ≠ .noMemory) :
    ∃ i c ip s₀ s₁, s.freeSlot = some i ∧ (s.rest p).container = some c ∧ Prepared s s₀ ∧
      Inherited s₀ s₁ p i ip ∧
      (r = .limit ∧ s₁.maxproc c ≤ s₁.numproc c ∧ Returns (freeproc i) s₁ () s' ∨
        r ≠ .limit ∧ s₁.numproc c < s₁.maxproc c) := by
  obtain ⟨_ | i, t₀, halloc, h⟩ := returns_bind.1 h
  · exact absurd (returns_pure.1 h).1.symm hproc
  obtain ⟨hprep, hi⟩ := prepared_allocproc halloc
  have hne : p ≠ i := by
    rintro rfl
    exact hp (state_of_freeSlot hi)
  obtain ⟨ok, s₀, hcopy, h⟩ := returns_bind.1 h
  have hprep0 := hprep.onVm (within_copyMemory p i) hcopy
  cases ok with
  | false =>
    simp only [Bool.not_false, if_true, returns_bind, returns_pure] at h
    obtain ⟨_, _, -, rfl, -⟩ := h
    exact absurd rfl hmem
  | true =>
    simp only [Bool.not_true, Bool.false_eq_true, if_false, returns_bind, returns_get] at h
    obtain ⟨_, s₁, hinherit, _, _, ⟨rfl, rfl⟩, h⟩ := h
    obtain ⟨ip, hin⟩ := inherit_spec hne hinherit
    split at h
    · exact absurd h not_returns_throw
    rename_i c hc
    rw [hin.container, hprep0.container] at hc
    refine ⟨i, c, ip, s₀, s₁, hi, hc, hprep0, hin, ?_⟩
    split at h
    · rename_i hle
      simp only [returns_bind, returns_pure] at h
      obtain ⟨_, _, hfree, rfl, rfl⟩ := h
      exact .inl ⟨rfl, hle, hfree⟩
    · rename_i hlt
      simp only [returns_bind, returns_pure] at h
      obtain ⟨_, _, -, rfl, -⟩ := h
      exact .inr ⟨by simp, not_le.1 hlt⟩

theorem atLimit_iff {c : Cont} {ip : ℕ} {s₀ s₁ : ForkState} (hi : s.freeSlot = some i)
    (hc : (s.rest p).container = some c) (hprep : Prepared s s₀) (hin : Inherited s₀ s₁ p i ip) :
    s.AtLimit p ↔ s₁.maxproc c ≤ s₁.numproc c := by
  have hun : (s₀.vm.proc i).state = .unused := (hprep.vm.state i).trans (state_of_freeSlot hi)
  rw [hin.maxproc, hprep.maxproc, hin.numproc hun, hprep.numproc, hprep.container]
  push_cast
  constructor
  · rintro ⟨c', i', hc', hi', hle⟩
    obtain rfl := Option.some.inj (hc'.symm.trans hc)
    obtain rfl := Option.some.inj (hi'.symm.trans hi)
    exact hle
  · intro hle
    exact ⟨c, i, hc, hi, hle⟩

/-! ### What is left -/

theorem within_freeTrapframe (i : Slot) :
    Within SameFiles (fun _ => True) (Vm.freeTrapframe i) := by
  refine .bind .get fun v => ?_
  cases (v.proc i).tf with
  | none => exact .pure _
  | some tf => exact within_onPhys _

theorem within_freePagetable (i : Slot) :
    Within SameFiles (fun _ => True) (Vm.freePagetable i) := by
  refine .bind .get fun v => ?_
  cases (v.proc i).pagetable with
  | none => exact .pure _
  | some pagetable => exact within_onPhys _

theorem freeproc_keeps (h : Returns (freeproc np) s u s') :
    s'.iref = s.iref ∧ s'.vm.file = s.vm.file ∧
      (∀ q, (s'.vm.proc q).ofile = (s.vm.proc q).ofile) ∧
      ∀ q, (s'.rest q).cwd = (s.rest q).cwd := by
  simp only [freeproc, returns_bind, returns_modify, returns_onVm] at h
  obtain ⟨_, _, ⟨v, hfree, rfl⟩, rfl⟩ := h
  obtain ⟨_, v₁, h1, hfree⟩ := returns_bind.1 hfree
  obtain ⟨_, v₂, h2, hfree⟩ := returns_bind.1 hfree
  obtain ⟨_, v₃, h3, hfree⟩ := returns_bind.1 hfree
  obtain rfl := returns_modify.1 hfree
  have hsame : SameFiles s.vm v₃ := trans_of _ ((within_freeTrapframe np).rel h1)
    (trans_of _ ((within_setProc (fun _ => by rfl) fun _ => by rfl).rel h2)
      ((within_freePagetable np).rel h3))
  refine ⟨rfl, hsame.file, fun q => ?_, fun q => ?_⟩
  · rw [← hsame.ofile q]
    by_cases hq : q = np
    · subst hq
      simp
    · simp [hq]
  · by_cases hq : q = np
    · subst hq
      simp
    · simp [hq]

/-- **What a refused fork leaves behind**: a reference to every file for each descriptor of the
parent, a reference to its current directory, and both in the slot that is free again. -/
theorem fork_refused_leaves (hp : (s.vm.proc p).state ≠ .unused)
    (h : Returns (fork p) s .limit s') :
    ∃ i ip, s.freeSlot = some i ∧ (s.rest p).cwd = some ip ∧
      (∀ b, s'.iref b = s.iref b + oneRef (some ip) b) ∧
      (∀ f, (s'.vm.file f).ref = (s.vm.file f).ref + s.descriptors p f) ∧
      (s'.rest i).cwd = some ip ∧
      ∀ fd, (s'.vm.proc i).ofile fd = ((s.vm.proc p).ofile fd).or ((s.vm.proc i).ofile fd) := by
  obtain ⟨i, c, ip, s₀, s₁, hi, -, hprep, hin, ⟨-, -, hfree⟩ | ⟨hne, -⟩⟩ :=
    fork_cases hp h nofun nofun
  swap
  · exact absurd rfl hne
  obtain ⟨hiref, hfile, hofile, hcwd⟩ := freeproc_keeps hfree
  refine ⟨i, ip, hi, (hprep.cwd p).symm.trans hin.cwd, fun b => ?_, fun f => ?_, ?_, fun fd => ?_⟩
  · rw [hiref, hin.iref, hprep.iref]
  · rw [hfile, hin.ref, hprep.vm.file]
    simp only [descriptors, hprep.vm.ofile]
  · rw [hcwd, hin.child_cwd]
  · rw [hofile, hin.ofile, hprep.vm.ofile, hprep.vm.ofile]

end ForkState

open ForkState

/-- **A fork that gets a slot and memory leaves no trace when it is refused** exactly when the
container is below its limit, so that it is not refused. -/
theorem fork_no_trace_iff {s s' : ForkState} {p : Slot} {r : ForkEnd}
    (hp : (s.vm.proc p).state ≠ .unused) (h : Returns (fork p) s r s') (hproc : r ≠ .noProc)
    (hmem : r ≠ .noMemory) : (r = .limit → s.NoTrace s') ↔ ¬ s.AtLimit p := by
  obtain ⟨i, c, ip, s₀, s₁, hi, hc, hprep, hin, hend⟩ := fork_cases hp h hproc hmem
  rw [atLimit_iff hi hc hprep hin]
  obtain ⟨rfl, hle, -⟩ | ⟨hne, hlt⟩ := hend
  · refine iff_of_false (fun hno => ?_) (not_not.2 hle)
    obtain ⟨-, ip, -, -, hiref, -⟩ := fork_refused_leaves hp h
    have := ((hno rfl).inodes ip).symm.trans (hiref ip)
    rw [oneRef_self] at this
    omega
  · exact iff_of_true (fun e => absurd e hne) (by omega)

/-- The first process, in container 1 with the given limit and with the directory in entry 0 of the
inode cache as its current one. -/
def forkStart (maxproc : ℤ) (v : Vm) : ForkState where
  vm := v
  rest i :=
    { chan := none, killed := false, xstate := 0, pid := if i = 0 then 1 else 0, kstack := 0
      context := ⟨0, 0, fun _ => 0⟩, cwd := if i = 0 then some 0 else none, name := []
      strace := 0, container := if i = 0 then some 1 else none, vpid := 1 }
  iref := fun b => if b = 0 then 2 else 0
  maxproc _ := maxproc
  nextvpid _ := 2
  nextpid := 2
  forkret := 0

/-- The first process opens a pipe and then forks. -/
def forkRun (maxproc : ℤ) : Option (Vm × Vm × ForkEnd × ForkState) := do
  let (ok, b) ← (Vm.userinit.run Vm.freshVm).toOption
  guard ok
  let v ← Vm.machine.run b [(0, .pipe false)]
  let (r, s') ← ((fork 0).run (forkStart maxproc v)).toOption
  return (b, v, r, s')

theorem of_forkRun {maxproc : ℤ} {b v : Vm} {r : ForkEnd} {s' : ForkState}
    (h : forkRun maxproc = some (b, v, r, s')) : Vm.Booted b ∧
      Vm.machine.Run (fun _ _ => True) b [(0, .pipe false)] v ∧
      Returns (fork 0) (forkStart maxproc v) r s' := by
  simp only [forkRun, Option.bind_eq_bind, Option.bind_eq_some_iff, Option.guard_eq_some',
    toOption_run_eq_some, Machine.run_eq_some_iff] at h
  obtain ⟨⟨ok, b'⟩, hb, -, rfl, v', hrun, ⟨r', s''⟩, hfork, hres⟩ := h
  cases hres
  exact ⟨⟨Vm.freshVm, Vm.fresh_freshVm, hb⟩, hrun, hfork⟩

/-- A container with room for two: the fork succeeds. -/
theorem fork_no_trace_below : ∃ v s', Returns (fork 0) (forkStart 2 v) (.child 2) s' ∧
    ((ForkEnd.child 2 = .limit → (forkStart 2 v).NoTrace s') ↔ ¬ (forkStart 2 v).AtLimit 0) := by
  obtain ⟨⟨b, v, -, s'⟩, h, rfl, hp⟩ : ∃ x, forkRun 2 = some x ∧ x.2.2.1 = .child 2 ∧
      (x.2.1.proc 0).state ≠ .unused := exists_of_any (by decide +kernel)
  obtain ⟨-, -, hfork⟩ := of_forkRun h
  exact ⟨v, s', hfork, fork_no_trace_iff hp hfork nofun nofun⟩

/-- A container with room for one: the files of the pipe and the current directory have a reference
too many afterwards. -/
theorem fork_refused_leaks : ∃ b v s', Vm.Booted b ∧
    Vm.machine.Run (fun _ _ => True) b [(0, .pipe false)] v ∧
    Returns (fork 0) (forkStart 1 v) .limit s' ∧ (v.file 0).ref = 1 ∧ (s'.vm.file 0).ref = 2 ∧
    (forkStart 1 v).iref 0 = 2 ∧ s'.iref 0 = 3 ∧ ¬ (forkStart 1 v).NoTrace s' := by
  obtain ⟨⟨b, v, r, s'⟩, h, rfl, href, href', hiref⟩ : ∃ x, forkRun 1 = some x ∧ x.2.2.1 = .limit ∧
      (x.2.1.file 0).ref = 1 ∧ (x.2.2.2.vm.file 0).ref = 2 ∧ x.2.2.2.iref 0 = 3 :=
    exists_of_any (by decide +kernel)
  obtain ⟨hb, hrun, hfork⟩ := of_forkRun h
  refine ⟨b, v, s', hb, hrun, hfork, href, href', rfl, hiref, fun hno => ?_⟩
  have : (2 : ℤ) = 3 := (hno.inodes 0).symm.trans hiref
  omega

end Xv6Container
