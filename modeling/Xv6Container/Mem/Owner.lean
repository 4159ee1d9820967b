import Xv6Container.Data.Does
import Xv6Container.Mem.Files

/-!
# Every page has one owner

The invariant of the page allocator and its users over whole runs of system calls.

* `page_ownership` : **in every state reached from boot, each page is free and unused, or used in
  one role.**
-/

namespace Xv6Container

open Function Books Phys

namespace Vm

variable {s s' : Vm} {g : Draft} {p q np : Slot} {e : Fin NFILE → ℤ} {φ' : Phys}

/-- The invariant between system calls. -/
structure Good (s : Vm) : Prop where
  sane : Sane s 0 .none
  vacant : ∀ p, (s.proc p).state = .unused → Vacant (s.proc p)

/-! ### Changes of one process -/

theorem Good.of_slot (hS : Sane s' 0 .none)
    (hvacant : ∀ q, q ≠ p → (s.proc q).state = .unused → Vacant (s.proc q))
    (hother : ∀ q, q ≠ p → s'.proc q = s.proc q)
    (hp : (s'.proc p).state = .unused → Vacant (s'.proc p)) : Good s' := by
  refine ⟨hS, fun q hq => ?_⟩
  by_cases hqp : q = p
  · subst hqp
    exact hp hq
  · rw [hother q hqp] at hq ⊢
    exact hvacant q hqp hq

theorem Files.congr (hF : Files s e) (hfile : s'.file = s.file) (hpipe : s'.pipe = s.pipe)
    (hproc : ∀ q, (s'.proc q).ofile = (s.proc q).ofile) : Files s' e := by
  refine ⟨fun f => ?_, by rw [hfile]; exact hF.closed, by rw [hfile]; exact hF.single,
    by rw [hfile, hpipe]; exact hF.ends⟩
  have hslots : s'.slots f = s.slots f := by simp only [slots, hproc]
  rw [hslots, hfile]
  exact hF.refs f

theorem Files.update {q' : VmProc} (hF : Files s e) (hofile : q'.ofile = (s.proc p).ofile) :
    Files { s with phys := φ', proc := update s.proc p q' } e := by
  refine hF.congr rfl rfl fun q => ?_
  by_cases hq : q = p
  · subst hq
    simpa using hofile
  · simp [hq]

theorem Sane.congr {t : Vm} (hS : Sane s e g) (hphys : t.phys = s.phys) (hfile : t.file = s.file)
    (hpipe : t.pipe = s.pipe) (hproc : ∀ q, (t.proc q).tf = (s.proc q).tf ∧
      (t.proc q).pagetable = (s.proc q).pagetable ∧ (t.proc q).sz = (s.proc q).sz)
    (hofile : ∀ q, (t.proc q).ofile = (s.proc q).ofile) :
    Sane t e g ∧ t.ledger g = s.ledger g := by
  obtain ⟨hC, hledger⟩ := hS.core.congr hphys (fun pi => by simp only [PipeOpen, hfile]) hproc
  exact ⟨⟨hC, hS.files.congr hfile hpipe hofile⟩, hledger⟩

theorem Sane.resize (hS : Sane s e .none) (q' : VmProc) (hI : (s.owners .none).Inv φ')
    (hs : Steps (Owners.space (.proc p)) (s.ledger .none) ((s.owners .none).books φ'))
    (htf : q'.tf = (s.proc p).tf) (hpt : q'.pagetable = (s.proc p).pagetable)
    (hofile : q'.ofile = (s.proc p).ofile)
    (hm : q'.pagetable ≠ none → (s.owners .none).Mapped φ' (.proc p) (pages q'.sz)) :
    Sane { s with phys := φ', proc := update s.proc p q' } e .none ∧
      Conserves (places p) (s.ledger .none)
        (({ s with phys := φ', proc := update s.proc p q' } : Vm).ledger .none) := by
  have hproc : ∀ q, (update s.proc p q' q).tf = (s.proc q).tf ∧
      (update s.proc p q' q).pagetable = (s.proc q).pagetable := by
    intro q
    by_cases hq : q = p
    · subst hq
      simp [htf, hpt]
    · simp [hq]
  have ho : ({ s with phys := φ', proc := update s.proc p q' } : Vm).owners .none =
      s.owners .none :=
    owners_congr (fun q => (hproc q).1) (fun q => (hproc q).2) (fun _ => Iff.rfl) hI.kernelEnd
  have hcons : Conserves (places p) (s.ledger .none)
      (({ s with phys := φ', proc := update s.proc p q' } : Vm).ledger .none) := by
    rw [ledger, ledger, ho]
    exact hs.conserves.mono space_proc_subset
  refine ⟨⟨hS.core.of (by rw [ho]; exact hI) hcons.held fun q hq => ?_, hS.files.update hofile⟩,
    hcons⟩
  by_cases hqp : q = p
  · subst hqp
    simp only [update_self] at hq ⊢
    rw [ho]
    exact .inr (hm hq)
  · simp only [update_of_ne hqp] at hq ⊢
    exact .inl ⟨hq, trivial, fun v => page_notMem_places hqp _⟩

theorem pagetableOf_spec {r : ℕ} (h : Returns (pagetableOf p) s r s') :
    (s.proc p).pagetable = some r ∧ s = s' := by
  rw [pagetableOf, returns_get_bind] at h
  split at h
  · simp at h
  · rename_i hpt
    obtain ⟨rfl, rfl⟩ := returns_pure.1 h
    exact ⟨hpt, rfl⟩

theorem Core.sz_lt (hC : Core s .none) (hpt : (s.proc p).pagetable ≠ none) :
    (s.proc p).sz < 2 ^ 32 := by
  have h := (hC.mapped p hpt).le hC.inv
  simp only [pages, PGSIZE, PHYSTOP] at h
  omega

variable {b : Bool} {u : Unit} {fd : Fin NOFILE} {pa : ℕ}

/-- `growproc`: the process is grown or shrunk, or left as it is. -/
theorem Good.growproc {n : ℤ} (hG : Good s) (hp : (s.proc p).state ≠ .unused)
    (h : Returns (growproc p n) s b s') :
    Good s' ∧ ∃ φ' sz, s' = { s with
        phys := φ', proc := update s.proc p { s.proc p with sz := sz } } ∧
      Conserves (places p) (s.ledger .none) (s'.ledger .none) := by
  obtain ⟨hS, hvacant⟩ := hG
  -- the three branches all end in this way
  suffices hend : ∃ φ' sz, s' = { s with
      phys := φ', proc := update s.proc p { s.proc p with sz := sz } } ∧
      (s.owners .none).Inv φ' ∧
      Steps (Owners.space (.proc p)) (s.ledger .none) ((s.owners .none).books φ') ∧
      (s.owners .none).Mapped φ' (.proc p) (pages sz) by
    obtain ⟨φ', sz, rfl, hI, hs, hm⟩ := hend
    obtain ⟨hS', hcons⟩ := hS.resize { s.proc p with sz := sz } hI hs rfl rfl rfl fun _ => hm
    exact ⟨.of_slot (p := p) hS' (fun q _ => hvacant q) (fun q hq => update_of_ne hq ..)
      fun hun => absurd (by simpa using hun) hp, φ', sz, rfl, hcons⟩
  obtain ⟨r, _, hpt, h⟩ := returns_bind.1 h
  obtain ⟨hr, rfl⟩ := pagetableOf_spec hpt
  rw [returns_get_bind] at h
  have hlt := hS.core.sz_lt (p := p) (by simp [hr])
  have hm := hS.core.mapped p (by simp [hr])
  rw [Nat.mod_eq_of_lt hlt] at h
  set newsz := ((((s.proc p).sz : ℤ) + n) % 2 ^ 32).toNat with hnew
  have hnewlt : newsz < 2 ^ 32 := by omega
  split at h
  · simp only [returns_bind, returns_onPhys] at h
    obtain ⟨sz, _, ⟨φ₁, ha, rfl⟩, h⟩ := h
    obtain ⟨hI, hs, hres⟩ := hS.core.inv.uvmalloc (a := Space.proc p) hr rfl hm ha
    split at h
    · -- out of memory: the size is left alone
      rename_i hzero
      obtain ⟨rfl, rfl⟩ := returns_pure.1 h
      refine ⟨φ₁, (s.proc p).sz, by simp, hI, hs, ?_⟩
      rcases hres with ⟨-, hm'⟩ | ⟨hmax, hm'⟩
      · exact hm'
      · have : sz = (s.proc p).sz := by omega
        rwa [this] at hm'
    · rename_i hnz
      simp only [returns_bind, returns_modify] at h
      obtain ⟨_, _, rfl, h⟩ := h
      obtain ⟨rfl, rfl⟩ := returns_pure.1 h
      rcases hres with ⟨rfl, -⟩ | ⟨hmax, hm'⟩
      · simp at hnz
      · have hszlt : sz < 2 ^ 32 := by omega
        exact ⟨φ₁, sz, by rw [Nat.mod_eq_of_lt hszlt]; rfl, hI, hs, hm'⟩
  · split at h
    · simp only [returns_bind, returns_onPhys, returns_modify] at h
      obtain ⟨sz, _, ⟨φ₁, ha, rfl⟩, _, _, rfl, h⟩ := h
      obtain ⟨rfl, rfl⟩ := returns_pure.1 h
      obtain ⟨hmin, hI, hs, hm'⟩ := hS.core.inv.uvmdealloc (a := Space.proc p) hr hm ha
      have hszlt : sz < 2 ^ 32 := by omega
      exact ⟨φ₁, sz, by rw [Nat.mod_eq_of_lt hszlt]; rfl, hI, hs, hm'⟩
    · simp only [returns_bind, returns_modify] at h
      obtain ⟨_, _, rfl, h⟩ := h
      obtain ⟨rfl, rfl⟩ := returns_pure.1 h
      exact ⟨s.phys, (s.proc p).sz, rfl, hS.core.inv, .refl, hm⟩

/-! ### Creating processes -/

theorem dupFd_cases (h : Returns (dupFd p np fd) s u s') :
    ((s.proc p).ofile fd = none ∧ s' = s) ∨ ∃ f, (s.proc p).ofile fd = some f ∧
      1 ≤ (s.file f).ref ∧
      s' = (s.setFile f fun g => { g with ref := g.ref + 1 }).setFd np fd (some f) := by
  rw [dupFd, returns_get_bind] at h
  split at h
  · rename_i hnone
    obtain ⟨-, rfl⟩ := returns_pure.1 h
    exact .inl ⟨hnone, rfl⟩
  · rename_i f hf
    simp only [Vm.filedup, returns_bind, returns_get, returns_modify] at h
    obtain ⟨_, _, ⟨_, _, ⟨rfl, rfl⟩, hdup⟩, rfl⟩ := h
    split at hdup
    · simp [returns_bind] at hdup
    · obtain rfl := returns_modify.1 hdup
      exact .inr ⟨f, hf, by omega, rfl⟩

/-- The child has the descriptors of the parent below `fds`, and keeps its others. -/
def Inherits (s s' : Vm) (p np : Slot) (fds : List (Fin NOFILE)) : Prop :=
  ∃ o, s'.proc = update s.proc np { s.proc np with ofile := o } ∧
    ∀ fd, o fd = if fd ∈ fds ∧ ((s.proc p).ofile fd).isSome then (s.proc p).ofile fd
      else (s.proc np).ofile fd

/-- The loop of `fork` over the descriptors. -/
theorem dupFds_spec (hne : p ≠ np)
    (h : Returns ((List.finRange NOFILE).forM (dupFd p np)) s u s') :
    Inherits s s' p np (List.finRange NOFILE) ∧ s'.initproc = s.initproc ∧
      ∀ f, (s'.file f).ref = (s.file f).ref +
        (List.finRange NOFILE).countP fun fd => (s.proc p).ofile fd = some f := by
  refine h.forM_invariant (fun fds t => Inherits s t p np fds ∧ t.initproc = s.initproc ∧
    ∀ f, (t.file f).ref = (s.file f).ref + fds.countP fun fd => (s.proc p).ofile fd = some f)
    ⟨⟨(s.proc np).ofile, by simp, by simp⟩, rfl, by simp⟩ ?_
  rintro fds fd _ t t' - ⟨⟨o, hproc, ho⟩, hinit, href⟩ hbody
  have hpt : (t.proc p).ofile = (s.proc p).ofile := by rw [hproc, update_of_ne hne]
  obtain ⟨hnone, rfl⟩ | ⟨f, hf, -, rfl⟩ := dupFd_cases hbody
  · rw [hpt] at hnone
    refine ⟨⟨o, hproc, fun fd' => ?_⟩, hinit, fun f => by simp [href f, List.countP_append, hnone]⟩
    rw [ho fd']
    by_cases hfd : fd' = fd
    · subst hfd
      simp [hnone]
    · simp [hfd]
  · rw [hpt] at hf
    refine ⟨⟨update o fd (some f), ?_, fun fd' => ?_⟩, hinit, fun g => ?_⟩
    · simp only [setFd, setProc, setFile, hproc]
      simp
    · by_cases hfd : fd' = fd
      · subst hfd
        simp [hf]
      · simp [hfd, ho fd']
    · by_cases hg : g = f
      · subst hg
        simp [setFd, href, List.countP_append, hf]
        omega
      · simp [setFd, href, List.countP_append, hf, hg, Ne.symm hg]

theorem Sane.dupFds (hS : Sane s 0 .none)
    (h : Returns ((List.finRange NOFILE).forM (dupFd p np)) s u s') :
    Sane s' 0 .none ∧ s'.ledger .none = s.ledger .none := by
  refine h.forM_invariant (fun _ t => Sane t 0 .none ∧ t.ledger .none = s.ledger .none) ⟨hS, rfl⟩ ?_
  rintro fds fd _ t t' - ⟨hSt, hledger⟩ hbody
  obtain ⟨-, rfl⟩ | ⟨f, -, href, rfl⟩ := dupFd_cases hbody
  · exact ⟨hSt, hledger⟩
  have := hSt.files.refs f
  obtain ⟨hS1, hledger1⟩ := hSt.setRef (f := f) (h := fun g => { g with ref := g.ref + 1 })
    (x := 1) rfl (by dsimp only; rw [Pi.zero_apply] at this; omega)
    (fun h0 => by dsimp only at h0; omega)
  refine ⟨hS1.setFd fun f' => ?_, (hS1.core.setFd (some f)).2.trans (hledger1.trans hledger)⟩
  by_cases hf' : f' = f
  · subst hf'
    simp
  · simp [hf', Ne.symm hf']

theorem Sane.freeproc (hS : Sane s 0 .none) (h : Returns (freeproc p) s u s') :
    Sane s' 0 .none ∧ FreedProc s s' p := by
  obtain ⟨hC, hF⟩ := hS.core.freeproc h
  obtain ⟨φ', rfl⟩ := hF.same
  exact ⟨⟨hC, hS.files.update rfl⟩, hF⟩

theorem Good.of_freeproc (hS : Sane s 0 .none)
    (hvacant : ∀ q, q ≠ p → (s.proc q).state = .unused → Vacant (s.proc q))
    (h : Returns (freeproc p) s u s') : Good s' ∧ s'.initproc = s.initproc := by
  obtain ⟨hS', ⟨φ', rfl⟩, -⟩ := hS.freeproc h
  refine ⟨.of_slot hS' hvacant (fun q hq => update_of_ne hq ..) fun _ => ?_, rfl⟩
  simp only [update_self]
  exact ⟨rfl, rfl, rfl⟩

/-- What a successful `fork` by `p` does to the tables, with child `np`. -/
structure Forked (s s' : Vm) (p np : Slot) : Prop where
  unused : (s.proc np).state = .unused
  others : ∀ q, q ≠ np → s'.proc q = s.proc q
  state : (s'.proc np).state = .runnable
  parent : (s'.proc np).parent = some p
  table : ∃ t, (s'.proc np).pagetable = some t
  ofile : ∀ fd, (s'.proc np).ofile fd =
    if ((s.proc p).ofile fd).isSome then (s.proc p).ofile fd else (s.proc np).ofile fd
  conserves : Conserves (places np) (s.ledger .none) (s'.ledger .none)

theorem Good.fork {full : Bool} {r : Option Slot} (hG : Good s) (hp : (s.proc p).state ≠ .unused)
    (h : Returns (fork p full) s r s') :
    Good s' ∧ s'.initproc = s.initproc ∧ ∀ np, r = some np → Forked s s' p np := by
  obtain ⟨hS, hvacant⟩ := hG
  obtain ⟨r₁, s₁, h1, h⟩ := returns_bind.1 h
  obtain ⟨hC1, φ₁, ⟨rfl, rfl⟩ | ⟨np, x, t, rfl, hun, rfl, hcons1⟩⟩ := hS.core.allocproc hvacant h1
  · obtain ⟨rfl, rfl⟩ := returns_pure.1 h
    exact ⟨⟨⟨hC1, hS.files.congr rfl rfl fun _ => rfl⟩, hvacant⟩, rfl, fun _ e => by cases e⟩
  have hne : p ≠ np := fun e => hp (e ▸ hun)
  set s₁ : Vm := { s with
    phys := φ₁
    proc := update s.proc np { s.proc np with tf := some x, pagetable := some t } } with hs1
  have hnp1 : s₁.proc np = { s.proc np with tf := some x, pagetable := some t } := by simp [hs1]
  have hq1 : ∀ q, q ≠ np → s₁.proc q = s.proc q := fun q hq => by simp [hs1, hq]
  have hS1 : Sane s₁ 0 .none := ⟨hC1, hS.files.update rfl⟩
  have hvacant1 : ∀ q, q ≠ np → (s₁.proc q).state = .unused → Vacant (s₁.proc q) := by
    intro q hq
    rw [hq1 q hq]
    exact hvacant q
  obtain ⟨old, _, ho, h⟩ := returns_bind.1 h
  obtain ⟨hold, rfl⟩ := pagetableOf_spec ho
  obtain ⟨new, _, hn, h⟩ := returns_bind.1 h
  obtain ⟨hnew, rfl⟩ := pagetableOf_spec hn
  simp only [returns_bind, returns_get, returns_onPhys] at h
  obtain ⟨_, _, ⟨rfl, rfl⟩, ok, _, ⟨φ₂, hcopy, rfl⟩, h⟩ := h
  have hm : (s₁.owners .none).Mapped s₁.phys (.proc np) 0 := by
    have := hC1.mapped np (by simp [hnew])
    rwa [hnp1, (hvacant np hun).2.2] at this
  obtain ⟨hI2, hs2, hm2⟩ := hC1.inv.uvmcopy (a := Space.proc np) (b := Space.proc p)
    hnew hold rfl hm hcopy
  cases ok with
  | false =>
    -- the copy has been undone, and the slot is cleared again
    simp only [Bool.not_false, if_true] at h
    obtain ⟨_, _, hfree, h⟩ := returns_bind.1 h
    obtain ⟨rfl, rfl⟩ := returns_pure.1 h
    obtain ⟨hS2, -⟩ := hS1.resize (s₁.proc np) hI2 hs2 rfl rfl rfl fun _ => by
      rw [hnp1, (hvacant np hun).2.2]
      exact hm2
    rw [update_eq_self] at hS2
    obtain ⟨hG, hinit⟩ := Good.of_freeproc hS2 hvacant1 hfree
    exact ⟨hG, hinit, fun _ e => by cases e⟩
  | true =>
    simp only [Bool.not_true, Bool.false_eq_true, if_false, returns_bind, returns_modify] at h
    obtain ⟨_, _, rfl, _, s₄, hdup, _, _, rfl, h⟩ := h
    obtain ⟨hS3, hcons3⟩ := hS1.resize { s₁.proc np with sz := (s₁.proc p).sz, parent := some p }
      hI2 hs2 rfl rfl rfl fun _ => hm2
    obtain ⟨hS4, hledger4⟩ := hS3.dupFds hdup
    obtain ⟨⟨o, hproc4, ho⟩, hinit4, -⟩ := dupFds_spec hne hdup
    obtain ⟨hS5, hledger5⟩ := hS4.congr
      (t := s₄.setProc np fun q => { q with state := .runnable }) rfl rfl rfl
      (fun q => by by_cases hq : q = np <;> simp [hq])
      fun q => by by_cases hq : q = np <;> simp [hq]
    have hq5 : ∀ q, q ≠ np →
        (s₄.setProc np fun q => { q with state := .runnable }).proc q = s.proc q := by
      intro q hq
      simp [hq, hproc4, hq1 q hq]
    split at h
    · obtain ⟨_, _, hfree, h⟩ := returns_bind.1 h
      obtain ⟨rfl, rfl⟩ := returns_pure.1 h
      obtain ⟨hG, hinit⟩ := Good.of_freeproc hS5
        (fun q hq => by rw [hq5 q hq]; exact hvacant q) hfree
      exact ⟨hG, hinit.trans hinit4, fun _ e => by cases e⟩
    · obtain ⟨rfl, rfl⟩ := returns_pure.1 h
      refine ⟨.of_slot hS5 (fun q _ => hvacant q) hq5 (by simp), hinit4, fun np' e => ?_⟩
      cases e
      refine ⟨hun, hq5, by simp, by simp [hproc4], ⟨t, by simp [hproc4, hnp1]⟩, fun fd => ?_, ?_⟩
      · have hofd := ho fd
        simp only [setProc, update_self, update_of_ne hne, List.mem_finRange, true_and, hnp1,
          hq1 p hne] at hofd
        simp [hproc4, hofd]
      · rw [hledger5, hledger4]
        exact hcons1.trans hcons3

/-! ### Replacing the memory of a process -/

section Exec

variable {o : Owners Space Holder} {a : Space} {φ : Phys} {r sz sz' : ℕ} {ok : Bool}

/-- Loading has come to `x`, the flag and the size that the code returns. -/
def Extends (o : Owners Space Holder) (a : Space) (φ : Phys) (x : Bool × ℕ) (φ' : Phys) : Prop :=
  o.Inv φ' ∧ Steps (Owners.space a) (o.books φ) (o.books φ') ∧
    (x.1 = true ∨ 0 < x.2 → o.Mapped φ' a (pages x.2))

/-- The segments of a program are mapped from address 0 up. -/
theorem does_loadSegments {phs : List Phdr} (hI : o.Inv φ) (hr : o.root a = some r)
    (hhand : o.hand = none) (hm : o.Mapped φ a (pages sz)) :
    Does (loadSegments r phs sz) φ (Extends o a φ) fun _ => True := by
  induction phs generalizing φ sz with
  | nil => exact .pure ⟨hI, .refl, fun _ => hm⟩
  | cons ph phs ih =>
    have hstop : Extends o a φ (false, sz) φ := ⟨hI, .refl, fun _ => hm⟩
    refine .ite (fun _ => .pure hstop) fun _ => .ite (fun _ => ih hI hm) fun _ =>
      .ite (fun _ => .pure hstop) fun _ => .ite (fun _ => .pure hstop) fun _ =>
      .bind ⟨fun _ _ h => hI.uvmalloc hr hhand hm h, fun _ _ => trivial⟩ ?_
    rintro sz₁ φ₁ ⟨hI1, hs1, hres⟩
    have hm1 : sz₁ ≠ 0 → o.Mapped φ₁ a (pages sz₁) := fun hnz =>
      (hres.resolve_left fun h => hnz h.1).2
    have hstop1 : Extends o a φ (false, sz₁) φ₁ :=
      ⟨hI1, hs1, fun h => hm1 (h.resolve_left (by simp)).ne'⟩
    refine .ite (fun _ => .pure hstop1) fun hnz => .ite (fun _ => .pure hstop1) fun _ =>
      .ite (fun _ => .pure hstop1) fun _ => ?_
    exact (ih hI1 (hm1 hnz)).imp fun _ _ _ ⟨hI', hs', hm'⟩ => ⟨hI', hs1.trans hs', hm'⟩

theorem does_loadImage {phs : List Phdr} {args : Bool} (hI : o.Inv φ) (hr : o.root a = some r)
    (hhand : o.hand = none) (hm : o.Mapped φ a 0) :
    Does (loadImage r phs args) φ (Extends o a φ) fun _ => True := by
  refine (does_loadSegments hI hr hhand (show o.Mapped φ a (pages 0) from hm)).bind ?_
  rintro ⟨ok, sz⟩ φ₁ ⟨hI1, hs1, hm1⟩
  refine .ite (fun _ => .pure ⟨hI1, hs1, fun h => hm1 (.inr (h.resolve_left (by simp)))⟩)
    fun hok => ?_
  have hm1' : o.Mapped φ₁ a (pages (pgroundup sz)) := by
    rw [pgroundup_eq, pages_mul]
    exact hm1 (.inl (by simpa using hok))
  refine .bind ⟨fun _ _ h => hI1.uvmalloc hr hhand hm1' h, fun _ _ => trivial⟩ ?_
  rintro sz₂ φ₂ ⟨hI2, hs2, hres⟩
  refine .ite (fun hzero => .pure ⟨hI2, hs1.trans hs2, by simp [hzero]⟩) fun hnz =>
    .bind ⟨fun _ _ h => hI2.uvmclear hr h, fun _ _ => trivial⟩ ?_
  rintro _ φ₃ ⟨hI3, hb3⟩
  refine .pure ⟨hI3, hb3 ▸ hs1.trans hs2, fun _ => ?_⟩
  exact (hres.resolve_left fun h => hnz h.1).2.congr fun v =>
    congrFun (congrArg Books.held hb3) (.page a (upath v))

theorem owners_dropTable {y : Option ℕ} : ({ s.owners ⟨some r, y, none⟩ with
      root := update (s.owners ⟨some r, y, none⟩).root .new none } : Owners Space Holder) =
    s.owners ⟨none, y, none⟩ := by
  ext1
  · funext a
    cases a <;> simp [owners, update]
  all_goals rfl

/-- `exec`: the old memory or the new memory is left. -/
theorem Good.exec {file : ExecFile} {b : Bool} (hG : Good s) (hp : (s.proc p).state ≠ .unused)
    (h : Returns (exec p file) s b s') : Good s' ∧ s'.initproc = s.initproc := by
  have ⟨hS, hvacant⟩ := hG
  cases file with
  | missing =>
    obtain ⟨-, rfl⟩ := returns_pure.1 h
    exact ⟨hG, rfl⟩
  | elf phs args =>
    simp only [Vm.exec, returns_bind, returns_get] at h
    obtain ⟨r, _, hpgt, _, _, ⟨rfl, rfl⟩, ⟨ok, sz⟩, _, himage, h⟩ := h
    obtain ⟨y, hy⟩ : ∃ y, (s.proc p).tf = y := ⟨_, rfl⟩
    obtain ⟨φ₁, rfl, hI1, hm1, hs1⟩ := procPagetable_spec hS.core.inv hy hpgt
    obtain ⟨φ₂, hload, rfl⟩ := returns_onPhys.1 himage
    obtain ⟨hI2, hs2, hm2⟩ := (does_loadImage (a := Space.new) hI1 rfl rfl hm1).returns hload
    -- the old pages of all processes are untouched
    have hframe2 : ∀ l, l ∉ Owners.space .new →
        (s.owners ⟨some r, y, none⟩).held φ₂ l = (s.owners .none).held s.phys l :=
      (hs1.trans hs2).conserves.held
    dsimp only at h
    split at h
    · simp only [returns_bind, returns_onPhys] at h
      obtain ⟨_, _, ⟨φ₃, hfree, rfl⟩, h⟩ := h
      obtain ⟨rfl, rfl⟩ := returns_pure.1 h
      obtain ⟨hI3, hframe3, -⟩ := procFreepagetable_spec (a := Space.new) hI2 rfl
        (fun hsz => hm2 (.inr hsz)) hfree
      rw [owners_dropTable] at hI3 hframe3
      have ho : ({ s with phys := φ₃ } : Vm).owners .none = s.owners .none :=
        owners_phys hI3.kernelEnd
      refine ⟨⟨⟨hS.core.of (S := Owners.space .new) (by rw [ho]; exact inv_forget_tf hI3)
        (fun l hl => ?_) fun q hq => .inl ⟨hq, rfl, fun v => Owners.notMem_space (by simp) _⟩,
        hS.files.congr rfl rfl fun _ => rfl⟩, hvacant⟩, rfl⟩
      rw [ledger, ho]
      exact (hframe3 l hl).trans (hframe2 l hl)
    · rename_i hok
      replace hm2 := hm2 (.inl (by simpa using hok))
      obtain ⟨old, _, hpt, h⟩ := returns_bind.1 h
      obtain ⟨hold, rfl⟩ := pagetableOf_spec hpt
      simp only [returns_bind, returns_modify, returns_onPhys] at h
      obtain ⟨_, _, rfl, _, _, ⟨φ₄, hfree, rfl⟩, h⟩ := h
      obtain ⟨rfl, rfl⟩ := returns_pure.1 h
      have hold' : (s.proc p).pagetable = some old := hold
      -- the new table becomes that of the process, and the old one is freed
      set s₂ : Vm := { s with phys := φ₂ } with hs2'
      have ho2 : ∀ g, s₂.owners g = s.owners g := fun g => owners_phys hI2.kernelEnd
      obtain ⟨hI3, hcons3, hnew, hprev⟩ := install (s := s₂) (g := ⟨some r, y, none⟩) (p := p)
        (by rw [ho2]; exact hI2) hy rfl rfl
      rw [hold] at hI3 hcons3 hnew hprev
      set s₃ := s₂.setProc p fun q => { q with pagetable := some r } with hs3
      have ho3 : ∀ g, (s₂.setProc p fun q => { q with pagetable := some r, sz := sz }).owners g =
          s₃.owners g := fun g => by
        refine owners_congr (fun q => ?_) (fun q => ?_) (fun _ => Iff.rfl) rfl
        · by_cases hq : q = p <;> simp [hs3, hq]
        · by_cases hq : q = p <;> simp [hs3, hq]
      have hm3 : (s₃.owners ⟨some old, y, none⟩).Mapped s₃.phys .new (pages (s.proc p).sz) := by
        refine (hS.core.mapped p (by simp [hold'])).congr fun v => (hprev (upath v)).trans ?_
        rw [ledger, ho2]
        exact hframe2 _ (Owners.notMem_space (by simp) _)
      obtain ⟨hI4, hframe4, -⟩ := procFreepagetable_spec (a := Space.new) hI3 rfl
        (fun _ => hm3) hfree
      rw [owners_dropTable] at hI4 hframe4
      set s₄ : Vm := { s₂.setProc p fun q => { q with pagetable := some r, sz := sz } with
        phys := φ₄ } with hs4
      have ho4 : s₄.owners .none = s₃.owners .none :=
        (owners_phys (s := s₂.setProc p fun q => { q with pagetable := some r, sz := sz })
          hI4.kernelEnd).trans (ho3 _)
      have hheld4 : ∀ l, l ∉ Owners.space .new → (s₄.owners .none).held s₄.phys l =
          (s₃.ledger ⟨some old, y, none⟩).held l := by
        intro l hl
        rw [ho4]
        exact hframe4 l hl
      have hq4 : ∀ q, q ≠ p → s₄.proc q = s.proc q := fun q hq => by simp [hs4, hq, hs2']
      refine ⟨.of_slot ⟨hS.core.of (S := places p) (by rw [ho4]; exact inv_forget_tf hI4)
        (fun l hl => ?_) fun q hq => ?_, hS.files.update rfl⟩ (fun q _ => hvacant q) hq4 fun hq =>
        absurd (by simpa [hs4, hs2'] using hq) hp, rfl⟩
      · have hl' : l ∉ Owners.space .new := fun h => hl (space_new_subset h)
        refine (hheld4 l hl').trans ((hcons3.held l hl).trans ?_)
        rw [ledger, ho2]
        exact hframe2 l hl'
      · by_cases hqp : q = p
        · subst hqp
          refine .inr ?_
          have hsz : (s₄.proc q).sz = sz := by simp [hs4]
          rw [hsz]
          refine hm2.congr fun v => (hheld4 _ (Owners.notMem_space (by simp) _)).trans
            ((hnew (upath v)).trans ?_)
          rw [ledger, ho2]
          rfl
        · rw [hq4 q hqp] at hq ⊢
          exact .inl ⟨hq, rfl, fun v => page_notMem_places hqp _⟩

end Exec

/-! ### Ending processes -/

/-- The descriptors below `fds` have been closed. -/
def Closed (s s' : Vm) (p : Slot) (fds : List (Fin NOFILE)) : Prop :=
  s'.proc = update s.proc p { s.proc p with
    ofile := fun fd => if fd ∈ fds then none else (s.proc p).ofile fd }

theorem Sane.closeFd (hS : Sane s 0 .none)
    (h : Returns (closeFd p fd) s u s') :
    Sane s' 0 .none ∧ s'.initproc = s.initproc ∧
      s'.proc = update s.proc p { s.proc p with ofile := update (s.proc p).ofile fd none } ∧
      ((∀ f, (s.proc p).ofile fd = some f → 1 < s.slots f) → s'.ledger .none = s.ledger .none) := by
  rw [Vm.closeFd, returns_get_bind] at h
  split at h
  · rename_i hnone
    obtain ⟨-, rfl⟩ := returns_pure.1 h
    refine ⟨hS, rfl, ?_, fun _ => rfl⟩
    rw [← hnone, update_eq_self]
    exact (update_eq_self p s.proc).symm
  · rename_i f hf
    obtain ⟨_, s₁, hclose, hclear⟩ := returns_bind.1 h
    obtain ⟨hS1, hproc1, hinit1, hledger1⟩ := hS.fileclose hclose
    obtain rfl := returns_modify.1 hclear
    refine ⟨?_, hinit1, ?_, fun hshared => ?_⟩
    · have hclear := hS1.clearFd (p := p) (f := f) (by rw [hproc1]; exact hf)
      rwa [update_idem, update_self, Pi.zero_apply, zero_sub, neg_add_cancel,
        update_eq_self_iff.2 (Pi.zero_apply f).symm] at hclear
    · rw [setProc, hproc1]
    · have href := hS.files.refs f
      simp only [Pi.zero_apply, add_zero] at href
      have hlt := hshared f hf
      refine Eq.trans ?_ (hledger1 (by omega))
      exact (hS1.core.setFd none).2

theorem Sane.closeFds (hS : Sane s 0 .none)
    (h : Returns ((List.finRange NOFILE).forM (Vm.closeFd p)) s u s') :
    Sane s' 0 .none ∧ s'.initproc = s.initproc ∧ Closed s s' p (List.finRange NOFILE) ∧
      ((∀ fd f, (s.proc p).ofile fd = some f → (s.proc q).ofile fd = some f) → q ≠ p →
        s'.ledger .none = s.ledger .none) := by
  refine h.forM_invariant (fun fds t => Sane t 0 .none ∧ t.initproc = s.initproc ∧
    Closed s t p fds ∧ ((∀ fd f, (s.proc p).ofile fd = some f → (s.proc q).ofile fd = some f) →
      q ≠ p → t.ledger .none = s.ledger .none)) ⟨hS, rfl, by simp [Closed], fun _ _ => rfl⟩ ?_
  rintro fds fd _ t t' - ⟨hSt, hinit, hproc, hledger⟩ hbody
  rw [Closed] at hproc
  obtain ⟨hS', hinit', hproc', hledger'⟩ := hSt.closeFd hbody
  refine ⟨hS', hinit'.trans hinit, ?_, fun hshared hqp => ?_⟩
  · rw [Closed, hproc', hproc]
    simp only [update_self, update_idem]
    congr 2
    funext fd'
    by_cases hfd : fd' = fd <;> simp [hfd]
  · refine (hledger' fun f hf => ?_).trans (hledger hshared hqp)
    have hp : (s.proc p).ofile fd = some f := by
      rw [hproc, update_self] at hf
      dsimp only at hf
      split at hf
      · cases hf
      · exact hf
    have hq : (t.proc q).ofile fd = some f := by
      rw [hproc, update_of_ne hqp]
      exact hshared fd f hp
    refine Finset.one_lt_card.2 ⟨(p, fd), ?_, (q, fd), ?_, by simp [Ne.symm hqp]⟩
    · simpa using hf
    · simpa using hq

theorem Good.exit (hG : Good s) (h : Returns (exit p) s u s') :
    Good s' ∧ s'.initproc = s.initproc ∧
      (s'.proc p).sz = (s.proc p).sz ∧
      ((∀ fd f, (s.proc p).ofile fd = some f → (s.proc q).ofile fd = some f) → q ≠ p →
        s'.ledger .none = s.ledger .none) := by
  obtain ⟨hS, hvacant⟩ := hG
  rw [Vm.exit, returns_get_bind] at h
  split at h
  · simp [returns_bind] at h
  simp only [returns_bind, returns_modify] at h
  obtain ⟨_, s₁, hclose, _, _, rfl, rfl⟩ := h
  obtain ⟨hS1, hinit, hclosed, hledger1⟩ := hS.closeFds (q := q) hclose
  obtain ⟨hS2, hledger2⟩ := hS1.congr (t := s₁.reparent p) rfl rfl rfl
    (fun q => by simp only [reparent]; split <;> exact ⟨rfl, rfl, rfl⟩)
    fun q => by simp only [reparent]; split <;> rfl
  obtain ⟨hS3, hledger3⟩ := hS2.congr
    (t := (s₁.reparent p).setProc p fun q => { q with state := .zombie })
    rfl rfl rfl (fun q => by by_cases hq : q = p <;> simp [hq])
    fun q => by by_cases hq : q = p <;> simp [hq]
  refine ⟨⟨hS3, fun q hq => ?_⟩, hinit, ?_, fun hshared hqp =>
    hledger3.trans (hledger2.trans (hledger1 hshared hqp))⟩
  · by_cases hqp : q = p
    · subst hqp
      simp at hq
    · have hq1 : s₁.proc q = s.proc q := by rw [hclosed, update_of_ne hqp]
      simp only [setProc, update_of_ne hqp, reparent] at hq ⊢
      have hstate : (s.proc q).state = .unused := by
        rw [← hq1]
        split at hq <;> exact hq
      have hvac := hvacant q hstate
      rw [← hq1] at hvac
      split <;> exact hvac
  · have hsz : (s₁.proc p).sz = (s.proc p).sz := by rw [hclosed, update_self]
    simp only [setProc, update_self, reparent]
    split <;> exact hsz

theorem Good.wait {copyFails : Bool} {r : Option Slot} (hG : Good s)
    (h : Returns (wait p copyFails) s r s') :
    Good s' ∧ s'.initproc = s.initproc ∧ (r = none ∧ s' = s ∨ ∃ np, r = some np ∧
      (s.proc np).state = .zombie ∧ Returns (freeproc np) s () s') := by
  rw [Vm.wait, returns_get_bind] at h
  split at h
  · obtain ⟨rfl, rfl⟩ := returns_pure.1 h
    exact ⟨hG, rfl, .inl ⟨rfl, rfl⟩⟩
  rename_i np hfind
  have hz := List.find?_some hfind
  simp only [Bool.and_eq_true, decide_eq_true_eq] at hz
  split at h
  · obtain ⟨rfl, rfl⟩ := returns_pure.1 h
    exact ⟨hG, rfl, .inl ⟨rfl, rfl⟩⟩
  obtain ⟨_, _, hfree, h⟩ := returns_bind.1 h
  obtain ⟨rfl, rfl⟩ := returns_pure.1 h
  obtain ⟨hG', hinit⟩ := Good.of_freeproc hG.sane (fun q _ => hG.vacant q) hfree
  exact ⟨hG', hinit, .inr ⟨np, rfl, hz.2, hfree⟩⟩

/-! ### Pipes -/

theorem Good.of_proc (hS : Sane s' 0 .none) (hG : Good s)
    (hproc : ∀ q, (s'.proc q).state = (s.proc q).state ∧ (s'.proc q).tf = (s.proc q).tf ∧
      (s'.proc q).pagetable = (s.proc q).pagetable ∧ (s'.proc q).sz = (s.proc q).sz) : Good s' := by
  refine ⟨hS, fun q hq => ?_⟩
  obtain ⟨h1, h2, h3, h4⟩ := hproc q
  rw [Vacant, h2, h3, h4]
  exact hG.vacant q (h1 ▸ hq)

/-- Descriptors are all that differs. -/
def SameButFds (s s' : Vm) : Prop := s'.initproc = s.initproc ∧
  ∀ q, ∃ o, s'.proc q = { s.proc q with ofile := o }

theorem SameButFds.trans {s'' : Vm} (h : SameButFds s s') (h' : SameButFds s' s'') :
    SameButFds s s'' := by
  refine ⟨h'.1.trans h.1, fun q => ?_⟩
  obtain ⟨o, ho⟩ := h.2 q
  obtain ⟨o', ho'⟩ := h'.2 q
  exact ⟨o', by rw [ho', ho]⟩

theorem SameButFds.of_eq (hproc : s'.proc = s.proc) (hinit : s'.initproc = s.initproc) :
    SameButFds s s' := ⟨hinit, fun q => ⟨_, by rw [hproc]⟩⟩

theorem SameButFds.setFd {y : Option (Fin NFILE)} :
    SameButFds s (s.setFd p fd y) := by
  refine ⟨rfl, fun q => ?_⟩
  by_cases hq : q = p
  · subst hq
    exact ⟨update (s.proc q).ofile fd y, by simp [Vm.setFd]⟩
  · exact ⟨(s.proc q).ofile, by simp [Vm.setFd, hq]⟩

theorem Good.of_sameButFds (hS : Sane s' 0 .none) (hG : Good s) (hsame : SameButFds s s') :
    Good s' := by
  refine .of_proc hS hG fun q => ?_
  obtain ⟨o, ho⟩ := hsame.2 q
  rw [ho]
  exact ⟨rfl, rfl, rfl, rfl⟩

/-- `sys_pipe`, on every path. -/
theorem Good.sysPipe {copyFails : Bool} (hG : Good s) (h : Returns (sysPipe p copyFails) s b s') :
    Good s' ∧ s'.initproc = s.initproc := by
  suffices hend : Sane s' 0 .none ∧ SameButFds s s' from
    ⟨.of_sameButFds hend.1 hG hend.2, hend.2.1⟩
  obtain ⟨r, s₁, h1, h⟩ := returns_bind.1 h
  obtain ⟨hproc1, hinit1, ⟨rfl, hS1⟩ | ⟨rf, wf, rfl, hS1, hne⟩⟩ := hG.sane.pipealloc h1
  · obtain ⟨-, rfl⟩ := returns_pure.1 h
    exact ⟨hS1, .of_eq hproc1 hinit1⟩
  -- both files are closed again on the error paths
  have hclose : ∀ {t t' : Vm} {e : Fin NFILE → ℤ}, Sane t e .none →
      (∀ f, 0 ≤ update (update e rf (e rf - 1)) wf (e wf - 1) f) →
      Returns (do Vm.fileclose rf; Vm.fileclose wf; return false) t b t' →
      Sane t' 0 .none ∧ SameButFds t t' := by
    intro t t' e hS he h
    obtain ⟨_, t₁, h1, h⟩ := returns_bind.1 h
    obtain ⟨_, t₂, h2, h⟩ := returns_bind.1 h
    obtain ⟨-, rfl⟩ := returns_pure.1 h
    obtain ⟨hS1, hp1, hi1, -⟩ := hS.fileclose h1
    obtain ⟨hS2, hp2, hi2, -⟩ := hS1.fileclose h2
    rw [update_of_ne hne.symm] at hS2
    exact ⟨hS2.mono he, .of_eq (hp2.trans hp1) (hi2.trans hi1)⟩
  have hsame1 : SameButFds s s₁ := .of_eq hproc1 hinit1
  simp only [Pi.zero_apply, zero_add] at hS1
  dsimp only at h
  obtain ⟨r₀, s₂, h2, h⟩ := returns_bind.1 h
  rcases hS1.fdalloc h2 with ⟨rfl, rfl⟩ | ⟨fd0, rfl, hnone0, rfl, hS2⟩
  · obtain ⟨hS', hsame⟩ := hclose hS1 (fun f => by
      simp only [update_apply]
      split_ifs <;> simp_all) h
    exact ⟨hS', hsame1.trans hsame⟩
  have hsame2 : SameButFds s (s₁.setFd p fd0 (some rf)) := hsame1.trans .setFd
  have hfd0 : ((s₁.setFd p fd0 (some rf)).proc p).ofile fd0 = some rf := by simp [setFd]
  obtain ⟨r₁, s₃, h3, h⟩ := returns_bind.1 h
  rcases hS2.fdalloc h3 with ⟨rfl, rfl⟩ | ⟨fd1, rfl, hnone1, rfl, hS3⟩
  · obtain ⟨_, _, hclear, h⟩ := returns_bind.1 h
    obtain rfl := returns_modify.1 hclear
    obtain ⟨hS', hsame⟩ := hclose (hS2.clearFd hfd0) (fun f => by
      simp only [update_apply]
      split_ifs <;> simp_all) h
    exact ⟨hS', (hsame2.trans SameButFds.setFd).trans hsame⟩
  set s₃ := (s₁.setFd p fd0 (some rf)).setFd p fd1 (some wf) with hs3
  have hsame3 : SameButFds s s₃ := hsame2.trans .setFd
  have hfd : fd0 ≠ fd1 := by
    rintro rfl
    rw [hfd0] at hnone1
    cases hnone1
  dsimp only at h
  split at h
  · obtain ⟨_, _, hclear0, h⟩ := returns_bind.1 h
    obtain rfl := returns_modify.1 hclear0
    obtain ⟨_, _, hclear1, h⟩ := returns_bind.1 h
    obtain rfl := returns_modify.1 hclear1
    have hS4 := hS3.clearFd (p := p) (f := rf) (show (s₃.proc p).ofile fd0 = some rf by
      simp [hs3, setFd, hfd])
    have hS5 := hS4.clearFd (p := p) (f := wf) (show ((s₃.setFd p fd0 none).proc p).ofile fd1 =
      some wf by simp [hs3, setFd, hfd.symm])
    obtain ⟨hS', hsame⟩ := hclose hS5 (fun f => by
      simp only [update_apply]
      split_ifs <;> simp_all) h
    exact ⟨hS', ((hsame3.trans .setFd).trans .setFd).trans hsame⟩
  · obtain ⟨-, rfl⟩ := returns_pure.1 h
    refine ⟨hS3.mono fun f => ?_, hsame3⟩
    simp only [update_apply]
    split_ifs <;> simp_all

theorem Good.sysClose (hG : Good s)
    (h : Returns (sysClose p fd) s b s') : Good s' ∧ s'.initproc = s.initproc := by
  rw [Vm.sysClose, returns_get_bind] at h
  split at h
  · obtain ⟨-, rfl⟩ := returns_pure.1 h
    exact ⟨hG, rfl⟩
  rename_i f hf
  obtain ⟨_, _, hclear, h⟩ := returns_bind.1 h
  obtain rfl := returns_modify.1 hclear
  obtain ⟨_, s₂, hclose, h⟩ := returns_bind.1 h
  obtain ⟨-, rfl⟩ := returns_pure.1 h
  obtain ⟨hS2, hproc2, hinit2, -⟩ := (hG.sane.clearFd hf).fileclose hclose
  have hsame : SameButFds s s₂ := SameButFds.setFd.trans (.of_eq hproc2 hinit2)
  exact ⟨.of_sameButFds (by simpa using hS2) hG hsame, hsame.1⟩

/-! ### Whole runs -/

theorem exists_returns_of_void {α : Type} {m : VmM α}
    (h : Returns (do let _ ← m) s u s') : ∃ r, Returns m s r s' := by
  obtain ⟨r, _, hm, h⟩ := returns_bind.1 h
  obtain ⟨-, rfl⟩ := returns_pure.1 h
  exact ⟨r, hm⟩

theorem Good.call {op : VmOp} (hG : Good s) (hlive : s.Live p)
    (h : Returns (call p op) s u s') : Good s' := by
  cases op with
  | exit => exact (hG.exit (q := p) h).1
  | fork full =>
    obtain ⟨r, h⟩ := exists_returns_of_void h
    exact (hG.fork hlive.1 h).1
  | exec file =>
    obtain ⟨r, h⟩ := exists_returns_of_void h
    exact (hG.exec hlive.1 h).1
  | sbrk n =>
    obtain ⟨r, h⟩ := exists_returns_of_void h
    exact (hG.growproc hlive.1 h).1
  | wait copyFails =>
    obtain ⟨r, h⟩ := exists_returns_of_void h
    exact (hG.wait h).1
  | pipe copyFails =>
    obtain ⟨r, h⟩ := exists_returns_of_void h
    exact (hG.sysPipe h).1
  | close fd =>
    obtain ⟨r, h⟩ := exists_returns_of_void h
    exact (hG.sysClose h).1

theorem after_eq_some {α : Type} {m : VmM α} : after m s = some s' ↔ ∃ a, Returns m s a s' := by
  simp only [after, Option.map_eq_some_iff, toOption_run_eq_some]
  constructor
  · rintro ⟨y, h, rfl⟩
    exact ⟨y.1, h⟩
  · rintro ⟨a, h⟩
    exact ⟨(a, s'), h, rfl⟩

theorem Good.next {l : Slot × VmOp} (hG : Good s) (h : machine.next s l = some s') : Good s' := by
  simp only [machine] at h
  split at h
  · rename_i hlive
    obtain ⟨u, h⟩ := after_eq_some.1 h
    exact hG.call hlive h
  · cases h

/-! ### Boot -/

/-- The kernel before `userinit`: free pages, no process and no open file. -/
structure Fresh (s : Vm) : Prop where
  nodup : s.phys.freelist.Nodup
  valid : ∀ pa ∈ s.phys.freelist, s.phys.ValidPage pa
  proc : ∀ p, (s.proc p).state = .unused ∧ Vacant (s.proc p) ∧ ∀ fd, (s.proc p).ofile fd = none
  file : ∀ f, s.file f = ⟨0, .none⟩

/-- The kernel after a `userinit` that found the pages for `initcode`. -/
def Booted (s : Vm) : Prop := ∃ s₀, Fresh s₀ ∧ Returns userinit s₀ true s

theorem Fresh.good (h : Fresh s) : Good s := by
  have hpipe : ∀ pi, ¬ s.PipeOpen pi := by
    rintro pi ⟨f, w, hf, -⟩
    rw [h.file] at hf
    exact hf rfl
  have hheld : ∀ l, (s.owners .none).held s.phys l = none := by
    intro l
    cases l with
    | page a π =>
      have hroot : (s.owners .none).root a = none := by
        cases a with
        | proc p => exact (h.proc p).2.1.2.1
        | new => rfl
      simp [Owners.held, hroot]
    | other b =>
      cases b with
      | tf p => exact (h.proc p).2.1.1
      | pipe pi => exact owners_other_pipe_of_not (hpipe pi)
    | hand => rfl
  have hslots : ∀ f, s.slots f = 0 := by
    intro f
    simp [slots, (h.proc _).2.2]
  have hbooks : ∀ l pa, ((s.owners .none).books s.phys).held l ≠ some pa := by
    intro l pa hl
    cases (hheld l).symm.trans hl
  refine ⟨⟨⟨⟨rfl, ⟨h.nodup, h.valid, fun l pa hl => absurd hl (hbooks l pa),
    fun l pa hl => absurd hl (hbooks l pa), fun l _ pa hl => absurd hl (hbooks l pa)⟩, ?_⟩,
    fun p hp => ?_⟩, fun f => ?_, fun f _ => ?_, ?_, ?_⟩, fun p _ => (h.proc p).2.1⟩
  · intro a π t k _ ht
    rw [hheld] at ht
    cases ht
  · exact absurd (h.proc p).2.1.2.1 hp
  · rw [hslots, h.file]
    rfl
  · rw [h.file]
  · intro f f' pi w hf
    rw [h.file] at hf
    cases hf
  · intro f pi w hf
    rw [h.file] at hf
    cases hf

/-- The first process maps one page. -/
theorem Booted.good (h : Booted s) : Good s := by
  obtain ⟨s₀, hfresh, h⟩ := h
  obtain ⟨hS, hvacant⟩ := hfresh.good
  obtain ⟨r, s₁, h1, h⟩ := returns_bind.1 h
  obtain ⟨hC1, φ₁, ⟨rfl, rfl⟩ | ⟨p, x, t, rfl, hun, rfl, -⟩⟩ := hS.core.allocproc hvacant h1
  · simp at h
  simp only [returns_bind, returns_modify] at h
  obtain ⟨_, _, rfl, t', _, hpt, ok, _, hinit, _, _, rfl, h⟩ := h
  obtain ⟨hr, rfl⟩ := pagetableOf_spec hpt
  obtain ⟨rfl, rfl⟩ := returns_pure.1 h
  obtain ⟨φ₂, huvm, rfl⟩ := returns_onPhys.1 hinit
  set s₁ : Vm := { s₀ with
    phys := φ₁
    proc := update s₀.proc p { s₀.proc p with tf := some x, pagetable := some t } } with hs1
  have hp1 : s₁.proc p = { s₀.proc p with tf := some x, pagetable := some t } := by simp [hs1]
  have hS1 : Sane s₁ 0 .none := ⟨hC1, hS.files.update rfl⟩
  obtain ⟨hS2, -⟩ := hS1.congr (t := { s₁ with initproc := p }) rfl rfl rfl
    (fun _ => ⟨rfl, rfl, rfl⟩) fun _ => rfl
  set s₂ : Vm := { s₁ with initproc := p } with hs2
  have hm : (s₂.owners .none).Mapped s₂.phys (.proc p) 0 := by
    have := hS2.core.mapped p (by rw [hr]; simp)
    rwa [show (s₂.proc p).sz = 0 by rw [hs2, hp1]; exact (hvacant p hun).2.2] at this
  obtain ⟨m, φ₃, hk, hmap⟩ := returns_bind.1 huvm
  rcases kalloc_cases hk with ⟨rfl, -⟩ | ⟨mem, rfl, htaken⟩
  · simp at hmap
  simp only [returns_bind, returns_modify] at hmap
  obtain ⟨_, _, rfl, hmap⟩ := hmap
  rw [← Nat.zero_mul PGSIZE] at hmap
  rcases hS2.core.inv.mappages_taken (a := Space.proc p) hr rfl hm (htaken.memset 0)
    (by rfl) hmap with
    ⟨-, hI3, hs3, hm3⟩ | ⟨hno, -⟩
  · obtain ⟨hS3, -⟩ := hS2.resize { s₂.proc p with sz := PGSIZE, state := .runnable } hI3 hs3 rfl
      rfl rfl fun _ => by
        rw [show pages PGSIZE = 0 + 1 by decide]
        exact hm3
    exact .of_slot (p := p) hS3 (fun q _ => hvacant q) (fun q hq => by simp [hs2, hs1, hq])
      (by simp)
  · cases hno

/-! ### Roles of pages -/

/-- A use of a physical page. -/
inductive Role where
  /-- The user page at virtual address `va` of process `p`. -/
  | user (p : Slot) (va : ℕ)
  /-- The page-table page of process `p` that the entries `π` lead to. -/
  | table (p : Slot) (π : List (Fin 512))
  | trapframe (p : Slot)
  | pipe (pi : ℕ)
  deriving DecidableEq

/-- The page that the entries `π` lead to in the page table of process `p`. -/
def lookup (s : Vm) (p : Slot) (π : List (Fin 512)) : Option ℕ :=
  (s.proc p).pagetable.bind (descend (next s.phys.mem) · π)

/-- The page `pa` is used in the given role. -/
def Uses (s : Vm) : Role → ℕ → Prop
  | .user p va, pa => va % PGSIZE = 0 ∧ va < MAXVA ∧ va ≠ TRAMPOLINE ∧ va ≠ TRAPFRAME ∧
    s.lookup p (vpath va) = some pa
  | .table p π, pa => π.length ≤ 2 ∧ s.lookup p π = some pa
  | .trapframe p, pa => (s.proc p).tf = some pa
  | .pipe pi, pa => pi = pa ∧ s.PipeOpen pi

/-- A page of the allocator is on the free list once and not used, or off the list and used in at
most one role. -/
def OneRole (s : Vm) (pa : ℕ) : Prop :=
  (s.phys.freelist.count pa = 1 ∧ ∀ r, ¬ s.Uses r pa) ∨
    (pa ∉ s.phys.freelist ∧ ∀ r r', s.Uses r pa → s.Uses r' pa → r = r')

/-- The place of a role. -/
def Role.place : Role → PagePlace Space Holder
  | .user p va => .page (.proc p) (vpath va)
  | .table p π => .page (.proc p) π
  | .trapframe p => .other (.tf p)
  | .pipe pi => .other (.pipe pi)

theorem vpath_injective {va va' : ℕ} (hva : va % PGSIZE = 0) (hva' : va' % PGSIZE = 0)
    (hlt : va < MAXVA) (hlt' : va' < MAXVA) (h : vpath va = vpath va') : va = va' := by
  obtain ⟨v, rfl⟩ := Nat.dvd_of_mod_eq_zero hva
  obtain ⟨v', rfl⟩ := Nat.dvd_of_mod_eq_zero hva'
  rw [Nat.mul_comm] at h hlt
  rw [Nat.mul_comm PGSIZE v'] at h hlt'
  simp only [PGSIZE, MAXVA] at hlt hlt'
  rw [upath_injective (by omega) (by omega) h]

theorem held_of_uses {r : Role} (h : s.Uses r pa) :
    (s.owners .none).held s.phys r.place = some pa := by
  cases r with
  | user p va =>
    obtain ⟨hva, hlt, hne1, hne2, hpa⟩ := h
    rw [Role.place, Owners.held, if_pos]
    · exact hpa
    · refine ⟨le_rfl, ?_⟩
      rintro (e | e)
      · exact hne1 (vpath_injective hva (by decide) hlt (by decide) e)
      · exact hne2 (vpath_injective hva (by decide) hlt (by decide) e)
  | table p π =>
    obtain ⟨hlen, hpa⟩ := h
    rw [Role.place, Owners.held_page hlen]
    exact hpa
  | trapframe p => exact h
  | pipe pi =>
    obtain ⟨rfl, hopen⟩ := h
    exact owners_other_pipe_of_open hopen

theorem role_eq {r r' : Role} {pa' : ℕ} (h : s.Uses r pa) (h' : s.Uses r' pa')
    (heq : r.place = r'.place) : r = r' := by
  cases r <;> cases r' <;> simp only [Role.place, PagePlace.page.injEq, PagePlace.other.injEq,
    Space.proc.injEq, Holder.tf.injEq, Holder.pipe.injEq, reduceCtorEq] at heq
  · obtain ⟨rfl, heq⟩ := heq
    rw [vpath_injective h.1 h'.1 h.2.1 h'.2.1 heq]
  · have := h'.1
    rw [← heq.2] at this
    simp [vpath] at this
  · have := h.1
    rw [heq.2] at this
    simp [vpath] at this
  · rw [heq.1, heq.2]
  · rw [heq]
  · rw [heq]

theorem Good.oneRole (hG : Good s) (pa : ℕ) : OneRole s pa := by
  have hI := hG.sane.core.inv
  by_cases hfree : pa ∈ s.phys.freelist
  · refine .inl ⟨List.count_eq_one_of_mem hI.sound.nodup hfree, fun r hr => ?_⟩
    exact hI.sound.apart (held_of_uses hr) hfree
  · refine .inr ⟨hfree, fun r r' hr hr' => role_eq hr hr' ?_⟩
    exact hI.inj (held_of_uses hr) (held_of_uses hr')

theorem Good.valid_of_uses (hG : Good s) {r : Role} (h : s.Uses r pa) :
    s.phys.ValidPage pa :=
  hG.sane.core.inv.validPage.2 (hG.sane.core.inv.held_ok (held_of_uses h))

theorem Good.trapframe (hG : Good s) {x : ℕ} (htf : (s.proc p).tf = some x)
    (h : s.lookup p (vpath TRAPFRAME) = some pa) : pa = x := by
  have hI := hG.sane.core.inv
  obtain ⟨r, hr, h⟩ := Option.bind_eq_some_iff.1 h
  obtain ⟨t, ht, h⟩ := exists_of_descend_append
    (π := [px 2 TRAPFRAME, px 1 TRAPFRAME]) (ρ := [px 0 TRAPFRAME]) h
  have hheld : (s.owners .none).held s.phys (.page (.proc p) [px 2 TRAPFRAME, px 1 TRAPFRAME]) =
      some t := by
    rw [Owners.held_page (by simp), owners_root_proc, hr]
    exact ht
  have hnext : Phys.next s.phys.mem t (px 0 TRAPFRAME) = some pa := by simpa using h
  obtain ⟨hv, rfl⟩ := next_eq_some.1 hnext
  exact (hI.leaves (px 0 TRAPFRAME) rfl hheld hv).2 x htf rfl

/-- **Physical page ownership**: in every state that system calls lead to from boot, with any
pattern of allocation failures, each page is on the free list once and unused or used in at most
one role; the pages used are pages of the allocator; `kalloc` returns no page in use; no two
processes, and no two addresses of one process, map the same user page; and what a process maps at
`TRAPFRAME` is its own trapframe. -/
theorem page_ownership {ls : List (Slot × VmOp)} (h0 : Booted s)
    (h : machine.Run (fun _ _ => True) s ls s') :
    (∀ pa, s'.phys.ValidPage pa → OneRole s' pa) ∧
      (∀ r pa, s'.Uses r pa → s'.phys.ValidPage pa) ∧
      (∀ pa φ', Returns kalloc s'.phys (some pa) φ' → ∀ r, ¬ s'.Uses r pa) ∧
      (∀ p q va va' pa, s'.Uses (.user p va) pa → s'.Uses (.user q va') pa → p = q ∧ va = va') ∧
      ∀ p x pa, (s'.proc p).tf = some x → s'.lookup p (vpath TRAPFRAME) = some pa → pa = x := by
  have hG : Good s' := h.invariant h0.good fun _ _ _ hG _ hs => hG.next hs
  refine ⟨fun pa _ => hG.oneRole pa, fun r pa => hG.valid_of_uses, fun pa φ' hk r hr => ?_,
    fun p q va va' pa hp hq => ?_, fun p x pa => hG.trapframe⟩
  · rcases kalloc_cases hk with ⟨hnone, -⟩ | ⟨pa', hsome, htaken⟩
    · cases hnone
    · cases hsome
      exact hG.sane.core.inv.not_held_of_taken htaken _ (held_of_uses hr)
  · have hpq := hG.sane.core.inv.inj (held_of_uses hp) (held_of_uses hq)
    obtain ⟨rfl, rfl⟩ := Role.user.inj (role_eq hp hq hpq)
    exact ⟨rfl, rfl⟩

/-- A kernel with 40 free pages. -/
def freshVm : Vm where
  phys :=
    { freelist := (List.range 40).map fun i => 0x80100000 + PGSIZE * i
      mem := fun _ _ => .zero
      refuse := fun _ => false
      kernelEnd := 0x80100000 }
  proc _ := ⟨.unused, none, 0, none, none, fun _ => none⟩
  file _ := ⟨0, .none⟩
  pipe _ := ⟨false, false⟩
  initproc := 0
  trampoline := 0x80008000

theorem fresh_freshVm : Fresh freshVm where
  nodup := by decide
  valid := by decide
  proc _ := ⟨rfl, ⟨rfl, rfl, rfl⟩, fun _ => rfl⟩
  file _ := rfl

/-- A process is created, grows, makes a pipe, exits and is reaped. -/
theorem page_ownership_child : ∃ s s' : Vm, Booted s ∧
    machine.Run (fun _ _ => True) s [(0, .fork false), (1, .sbrk 4096), (1, .pipe false),
      (1, .exit), (0, .wait false)] s' ∧ ∀ pa, s'.phys.ValidPage pa → OneRole s' pa := by
  have heval : ((userinit.run freshVm).toOption.bind fun y => if y.1 then
      (machine.run y.2 [(0, .fork false), (1, .sbrk 4096), (1, .pipe false),
        (1, .exit), (0, .wait false)]).map fun _ => () else none) = some () := by
    decide +kernel
  obtain ⟨⟨ok, s⟩, hs, hrun⟩ := Option.bind_eq_some_iff.1 heval
  split at hrun
  · rename_i hok
    obtain ⟨s', hs', -⟩ := Option.map_eq_some_iff.1 hrun
    have hboot : Booted s := by
      refine ⟨freshVm, fresh_freshVm, ?_⟩
      rw [← hok]
      exact toOption_run_eq_some.1 hs
    have hrun' := Machine.run_eq_some_iff.1 hs'
    exact ⟨s, s', hboot, hrun', (page_ownership hboot hrun').1⟩
  · cases hrun

end Vm

end Xv6Container
