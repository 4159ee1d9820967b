import Xv6Container.Mem.Space
import Xv6Container.Mem.Vm

/-!
# The pages of processes

The holders of pages in the kernel: the page table of each process, the table that `exec` or
`allocproc` is building, the trapframes and the pipes.  `Core` says that no page is held twice and
that each process maps exactly the user pages below its size.

* `Core.procPagetable`, `Core.allocproc` : a new page table is empty;
* `Core.freeproc` : **`freeproc` gives back every page of a process whose size is not 0**; with
  size 0 it forgets the page table.
-/

namespace Xv6Container

open Function Books Phys

namespace Vm

/-- An address space: that of a process, or one that is being built. -/
inductive Space where
  | proc (p : Slot)
  | new
  deriving DecidableEq

/-- A holder of one page. -/
inductive Holder where
  | tf (p : Slot)
  | pipe (pi : ℕ)
  deriving DecidableEq

/-- The pages that only local variables of the running code hold. -/
structure Draft where
  /-- A page table that is being built. -/
  table : Option ℕ
  /-- The trapframe that it maps. -/
  tf : Option ℕ
  /-- A page that is in no place yet. -/
  hand : Option ℕ

/-- Between system calls nothing is held by local variables. -/
def Draft.none : Draft := ⟨.none, .none, .none⟩

/-- Some file is open on the pipe. -/
def PipeOpen (s : Vm) (pi : ℕ) : Prop :=
  ∃ f w, (s.file f).ref ≠ 0 ∧ (s.file f).type = .pipe pi w

open Classical in
/-- The holders of pages. -/
noncomputable def owners (s : Vm) (g : Draft) : Owners Space Holder where
  root a := match a with
    | .proc p => (s.proc p).pagetable
    | .new => g.table
  tf a := match a with
    | .proc p => (s.proc p).tf
    | .new => g.tf
  other b := match b with
    | .tf p => (s.proc p).tf
    | .pipe pi => if s.PipeOpen pi then some pi else none
  hand := g.hand
  kernelEnd := s.phys.kernelEnd

/-- The free list and the places, for the pages of the kernel. -/
noncomputable def ledger (s : Vm) (g : Draft) : Books (PagePlace Space Holder) ℕ :=
  (s.owners g).books s.phys

/-- No page is held twice, and each process maps the pages below its size. -/
structure Core (s : Vm) (g : Draft) : Prop where
  inv : (s.owners g).Inv s.phys
  mapped : ∀ p, (s.proc p).pagetable ≠ none →
    (s.owners g).Mapped s.phys (.proc p) (pages (s.proc p).sz)

variable {s s' : Vm} {g g' : Draft} {p q : Slot} {φ' : Phys} {x r : ℕ}

@[simp] theorem owners_root_proc : (s.owners g).root (.proc p) = (s.proc p).pagetable := rfl

@[simp] theorem owners_root_new : (s.owners g).root .new = g.table := rfl

@[simp] theorem owners_hand : (s.owners g).hand = g.hand := rfl

@[simp] theorem owners_other_tf : (s.owners g).other (.tf p) = (s.proc p).tf := rfl

theorem owners_other_pipe_of_open {pi : ℕ} (h : s.PipeOpen pi) :
    (s.owners g).other (.pipe pi) = some pi := if_pos h

theorem owners_other_pipe_of_not {pi : ℕ} (h : ¬ s.PipeOpen pi) :
    (s.owners g).other (.pipe pi) = none := if_neg h

theorem owners_congr (htf : ∀ p, (s'.proc p).tf = (s.proc p).tf)
    (hpt : ∀ p, (s'.proc p).pagetable = (s.proc p).pagetable)
    (hpipe : ∀ pi, s'.PipeOpen pi ↔ s.PipeOpen pi)
    (hend : s'.phys.kernelEnd = s.phys.kernelEnd) : s'.owners g = s.owners g := by
  ext1
  · funext a
    cases a <;> simp [owners, hpt]
  · funext a
    cases a <;> simp [owners, htf]
  · funext b
    cases b with
    | tf p => exact htf p
    | pipe pi =>
      by_cases h : s.PipeOpen pi
      · rw [owners_other_pipe_of_open h, owners_other_pipe_of_open ((hpipe pi).2 h)]
      · rw [owners_other_pipe_of_not h, owners_other_pipe_of_not (mt (hpipe pi).1 h)]
  · rfl
  · exact hend

theorem owners_phys (hend : φ'.kernelEnd = s.phys.kernelEnd) :
    ({ s with phys := φ' } : Vm).owners g = s.owners g :=
  owners_congr (fun _ => rfl) (fun _ => rfl) (fun _ => Iff.rfl) hend

theorem Core.of {S : Set (PagePlace Space Holder)} (hC : Core s g) (hI : (s'.owners g').Inv s'.phys)
    (hS : ∀ l, l ∉ S → (s'.ledger g').held l = (s.ledger g).held l)
    (hmapped : ∀ q, (s'.proc q).pagetable ≠ none →
      ((s.proc q).pagetable ≠ none ∧ (s'.proc q).sz = (s.proc q).sz ∧
        ∀ v, .page (.proc q) (upath v) ∉ S) ∨
      (s'.owners g').Mapped s'.phys (.proc q) (pages (s'.proc q).sz)) : Core s' g' := by
  refine ⟨hI, fun q hq => ?_⟩
  rcases hmapped q hq with ⟨hpt, hsz, hout⟩ | hm
  · rw [hsz]
    exact (hC.mapped q hpt).congr fun v => hS _ (hout v)
  · exact hm

theorem Core.congr {t : Vm} (hC : Core s g) (hphys : t.phys = s.phys)
    (hpipe : ∀ pi, t.PipeOpen pi ↔ s.PipeOpen pi) (hproc : ∀ q, (t.proc q).tf = (s.proc q).tf ∧
      (t.proc q).pagetable = (s.proc q).pagetable ∧ (t.proc q).sz = (s.proc q).sz) :
    Core t g ∧ t.ledger g = s.ledger g := by
  have ho : t.owners g = s.owners g :=
    owners_congr (fun q => (hproc q).1) (fun q => (hproc q).2.1) hpipe (by rw [hphys])
  have hledger : t.ledger g = s.ledger g := by rw [ledger, ho, hphys, ledger]
  refine ⟨hC.of (S := ∅) (by rw [ho, hphys]; exact hC.inv) (fun l _ => by rw [hledger])
    fun q hq => .inl ⟨?_, (hproc q).2.2, fun v => Set.notMem_empty _⟩, hledger⟩
  rwa [(hproc q).2.1] at hq

/-- A `kalloc` that finds no page leaves the owners of pages as they are. -/
theorem Core.refused (hC : Core s g) (hfree : φ'.freelist = s.phys.freelist)
    (hmem : φ'.mem = s.phys.mem) (hend : φ'.kernelEnd = s.phys.kernelEnd) :
    Core { s with phys := φ' } g := by
  obtain ⟨hI, hb⟩ := hC.inv.congr hfree hmem hend
  refine hC.of (S := ∅) ?_ (fun l _ => ?_) fun q hq => .inl ⟨hq, rfl, fun v => Set.notMem_empty _⟩
  · rwa [owners_phys hend]
  · rw [ledger, ledger, owners_phys hend, hb]

theorem returns_onPhys {α : Type} {m : PhysM α} {a : α} :
    Returns (onPhys m) s a s' ↔ ∃ φ', Returns m s.phys a φ' ∧ s' = { s with phys := φ' } := by
  simp only [Returns, onPhys, StateT.run]
  cases h : m s.phys with
  | error e => simp [bind, Except.bind]
  | ok y =>
    obtain ⟨b, φ⟩ := y
    simp only [bind, Except.bind, pure, Except.pure, Except.ok.injEq, Prod.mk.injEq]
    constructor
    · rintro ⟨rfl, rfl⟩
      exact ⟨φ, ⟨rfl, rfl⟩, rfl⟩
    · rintro ⟨φ', ⟨rfl, rfl⟩, rfl⟩
      exact ⟨rfl, rfl⟩

/-! ### Page tables -/

/-- `proc_pagetable`: a table without user pages. -/
theorem procPagetable_spec (hI : (s.owners .none).Inv s.phys) {y : Option ℕ}
    (htf : (s.proc p).tf = y) (h : Returns (procPagetable p) s r s') :
    ∃ φ', s' = { s with phys := φ' } ∧ (s.owners ⟨some r, y, none⟩).Inv φ' ∧
      (s.owners ⟨some r, y, none⟩).Mapped φ' .new 0 ∧
      Steps (Owners.space .new) (s.ledger .none) ((s.owners ⟨some r, y, none⟩).books φ') := by
  have hx : ∀ x, y = some x → pgrounddown ((s.proc p).tf.getD 0) = x := by
    rintro x rfl
    rw [htf]
    exact pgrounddown_eq (hI.held_ok (p := .other (.tf p)) htf).1
  -- the table that is to come maps the trapframe of `p`
  have hI0 : (s.owners ⟨none, y, none⟩).Inv s.phys := by
    refine hI.of_sound rfl rfl (fun a x hx => ?_) hI.sound
    cases a with
    | proc q => exact .inr hx
    | new => exact .inl rfl
  have ho : ({ s.owners ⟨none, y, none⟩ with
      root := update (s.owners ⟨none, y, none⟩).root .new (some r) } : Owners Space Holder) =
      s.owners ⟨some r, y, none⟩ := by
    ext1
    · funext a
      cases a <;> simp [owners, update]
    all_goals rfl
  simp only [procPagetable, Phys.procPagetable, returns_bind, returns_get, returns_onPhys,
    returns_pure] at h
  obtain ⟨_, _, ⟨rfl, rfl⟩, _, ⟨r', φ₁, h1, b₂, φ₂, h2, b₃, φ₃, h3, rfl, rfl⟩, rfl⟩ := h
  obtain ⟨htaken, hzero⟩ := uvmcreate_spec h1
  obtain ⟨hI1, hmove, hm1⟩ := hI0.newRoot (a := .new) rfl htaken hzero
  rw [ho] at hI1 hmove hm1
  obtain ⟨hI2, hs2⟩ := hI1.mappages_fixed (a := .new) rfl (by decide) (by decide) (.inl rfl)
    (by rfl) (fun x _ e => absurd e (by decide)) h2
  obtain ⟨hI3, hs3⟩ := hI2.mappages_fixed (a := Space.new) rfl (by decide) (by decide) (.inr rfl)
    (by rfl) (fun x hy _ => hx x hy) h3
  refine ⟨φ₃, rfl, hI3, ?_, ?_⟩
  · exact (Owners.MappedOn.steps hm1 hs2 Owners.upath_notMem_tables).steps hs3
      Owners.upath_notMem_tables
  · have hsub : ({.page .new []} : Set (PagePlace Space Holder)) ⊆ Owners.space .new := by
      rintro _ rfl
      exact Owners.page_mem_space _ _
    exact ((hmove.mono hsub).steps.trans (hs2.mono (Owners.tables_subset _))).trans
      (hs3.mono (Owners.tables_subset _))

/-- The places of process `p`, and those of local variables. -/
def places (p : Slot) : Set (PagePlace Space Holder) :=
  {l | (∃ π, l = .page (.proc p) π) ∨ (∃ π, l = .page .new π) ∨ l = .hand ∨ l = .other (.tf p)}

theorem space_new_subset : (Owners.space .new : Set (PagePlace Space Holder)) ⊆ places p := by
  rintro l (⟨π, rfl⟩ | rfl)
  · exact .inr (.inl ⟨π, rfl⟩)
  · exact .inr (.inr (.inl rfl))

theorem space_proc_subset : (Owners.space (.proc p) : Set (PagePlace Space Holder)) ⊆ places p := by
  rintro l (⟨π, rfl⟩ | rfl)
  · exact .inl ⟨π, rfl⟩
  · exact .inr (.inr (.inl rfl))

theorem tf_subset : ({.hand, .other (.tf p)} : Set (PagePlace Space Holder)) ⊆ places p := by
  rintro l (rfl | rfl)
  · exact .inr (.inr (.inl rfl))
  · exact .inr (.inr (.inr rfl))

theorem page_notMem_places (hqp : q ≠ p) (π : List (Fin 512)) :
    (.page (.proc q) π : PagePlace Space Holder) ∉ places p := by
  rintro (⟨ρ, e⟩ | ⟨ρ, e⟩ | e | e)
  · exact hqp (Space.proc.inj (PagePlace.page.inj e).1)
  · cases (PagePlace.page.inj e).1
  · cases e
  · cases e

theorem owners_setTf (y : Option ℕ) :
    (s.setProc p fun q => { q with tf := y }).owners g =
      { s.owners g with
        tf := update (s.owners g).tf (.proc p) y
        other := update (s.owners g).other (.tf p) y } := by
  ext1
  · funext a
    cases a with
    | proc q => by_cases h : q = p <;> simp [owners, update, h]
    | new => rfl
  · funext a
    cases a with
    | proc q => by_cases h : q = p <;> simp [owners, update, h]
    | new => simp [owners, update]
  · funext b
    cases b with
    | tf q => by_cases h : q = p <;> simp [owners, update, h]
    | pipe pi =>
      dsimp only
      rw [update_of_ne (by simp)]
      rfl
  · rfl
  · rfl

theorem owners_install (htf : (s.proc p).tf = g.tf) :
    (s.setProc p fun q => { q with pagetable := g.table }).owners
        ⟨(s.proc p).pagetable, g.tf, g.hand⟩ =
      { s.owners g with
        root := (s.owners g).root ∘ Equiv.swap (.proc p) .new
        tf := (s.owners g).tf ∘ Equiv.swap (.proc p) .new } := by
  ext1
  · funext a
    dsimp only [comp_apply]
    cases a with
    | proc q =>
      by_cases h : q = p
      · subst h
        simp [owners]
      · rw [Equiv.swap_apply_of_ne_of_ne (by simp [h]) (by simp)]
        simp [owners, h]
    | new => simp
  · funext a
    dsimp only [comp_apply]
    cases a with
    | proc q =>
      by_cases h : q = p
      · subst h
        simp [owners, htf]
      · rw [Equiv.swap_apply_of_ne_of_ne (by simp [h]) (by simp)]
        simp [owners, h]
    | new => simp [owners, htf]
  · funext b
    cases b with
    | tf q => by_cases h : q = p <;> simp [owners, h]
    | pipe pi => rfl
  · rfl
  · rfl

theorem install (hI : (s.owners g).Inv s.phys) (htf : (s.proc p).tf = g.tf) {s' : Vm} {g' : Draft}
    (hs' : s' = s.setProc p fun q => { q with pagetable := g.table })
    (hg' : g' = ⟨(s.proc p).pagetable, g.tf, g.hand⟩) :
    (s'.owners g').Inv s'.phys ∧ Conserves (places p) (s.ledger g) (s'.ledger g') ∧
      (∀ π, (s'.ledger g').held (.page (.proc p) π) = (s.ledger g).held (.page .new π)) ∧
      ∀ π, (s'.ledger g').held (.page .new π) = (s.ledger g).held (.page (.proc p) π) := by
  subst hs' hg'
  obtain ⟨hI', hitems⟩ := hI.rename (Equiv.swap (.proc p) .new)
  have hledger : (s.setProc p fun q => { q with pagetable := g.table }).ledger
      ⟨(s.proc p).pagetable, g.tf, g.hand⟩ = Owners.books { s.owners g with
        root := (s.owners g).root ∘ Equiv.swap (.proc p) .new
        tf := (s.owners g).tf ∘ Equiv.swap (.proc p) .new } s.phys := by
    rw [ledger, owners_install htf]
    rfl
  refine ⟨by rw [owners_install htf]; exact hI', ⟨by rw [hledger, hitems]; rfl, fun l hl => ?_⟩,
    fun π => ?_, fun π => ?_⟩
  · rw [hledger]
    cases l with
    | other b => rfl
    | hand => rfl
    | page a π =>
      have h1 : a ≠ .proc p := fun e => hl (.inl ⟨π, by rw [e]⟩)
      have h2 : a ≠ .new := fun e => hl (.inr (.inl ⟨π, by rw [e]⟩))
      simp [ledger, Owners.books, Owners.held, Equiv.swap_apply_of_ne_of_ne h1 h2]
  · rw [hledger]
    simp [ledger, Owners.books, Owners.held]
  · rw [hledger]
    simp [ledger, Owners.books, Owners.held]

theorem inv_forget_tf {y h : Option ℕ} (hI : (s.owners ⟨none, y, h⟩).Inv φ') :
    (s.owners ⟨none, none, h⟩).Inv φ' := by
  refine hI.of_sound rfl rfl (fun a x hx => ?_) hI.sound
  cases a with
  | proc q => exact .inr hx
  | new => exact .inl rfl

/-- A slot that is not in use has no pages. -/
def Vacant (q : VmProc) : Prop := q.tf = none ∧ q.pagetable = none ∧ q.sz = 0

/-- `allocproc`: no process, or an unused slot with a trapframe and an empty page table. -/
theorem Core.allocproc {res : Option Slot} (hC : Core s .none)
    (hvacant : ∀ q, (s.proc q).state = .unused → Vacant (s.proc q))
    (h : Returns allocproc s res s') :
    Core s' .none ∧ ∃ φ',
      (res = none ∧ s' = { s with phys := φ' } ∨
        ∃ p x t, res = some p ∧ (s.proc p).state = .unused ∧
          s' = { s with
            phys := φ'
            proc := update s.proc p { s.proc p with tf := some x, pagetable := some t } } ∧
          Conserves (places p) (s.ledger .none) (s'.ledger .none)) := by
  rw [Vm.allocproc, returns_get_bind] at h
  split at h
  · obtain ⟨rfl, rfl⟩ := returns_pure.1 h
    exact ⟨hC, s.phys, .inl ⟨rfl, rfl⟩⟩
  rename_i p hfind
  have hun : (s.proc p).state = .unused := by simpa using List.find?_some hfind
  obtain ⟨htf, hpt, hsz⟩ := hvacant p hun
  simp only [returns_bind, returns_onPhys, returns_modify] at h
  obtain ⟨tf, _, ⟨φ₁, hk, rfl⟩, _, _, rfl, h⟩ := h
  rcases kalloc_cases hk with ⟨rfl, hfree, hmem, hend⟩ | ⟨x, rfl, htaken⟩
  · -- without a trapframe page the slot is left as it was
    simp only [Option.isNone_none, if_true] at h
    obtain ⟨rfl, rfl⟩ := returns_pure.1 h
    have hsame : (({ s with phys := φ₁ } : Vm).setProc p fun q => { q with tf := none }) =
        { s with phys := φ₁ } := by
      simp only [setProc]
      congr 1
      rw [update_eq_self_iff]
      rw [← htf]
    rw [hsame]
    exact ⟨hC.refused hfree hmem hend, φ₁, .inl ⟨rfl, rfl⟩⟩
  · simp only [Option.isNone_some, Bool.false_eq_true, if_false, returns_bind, returns_modify] at h
    obtain ⟨t, _, hpgt, _, _, rfl, h⟩ := h
    obtain ⟨rfl, rfl⟩ := returns_pure.1 h
    set s₂ := ({ s with phys := φ₁ } : Vm).setProc p fun q => { q with tf := some x } with hs2
    have htf2 : (s₂.proc p).tf = some x := by simp [hs2]
    -- the trapframe page comes to hand and goes to its place
    obtain ⟨hI1, hmove1⟩ := hC.inv.take htaken rfl
    obtain ⟨hI2, hmove2⟩ := hI1.toOther (b := Holder.tf p) rfl htf
    have ho2 : s₂.owners .none = { s.owners .none with
        tf := update (s.owners .none).tf (.proc p) (some x)
        other := update (s.owners .none).other (.tf p) (some x) } := by
      rw [hs2, owners_setTf, owners_phys htaken.kernelEnd]
    have hledger2 : s₂.ledger .none = Owners.books { s.owners .none with
        hand := none
        other := update (s.owners .none).other (.tf p) (some x) } φ₁ := by
      rw [ledger, ho2]
      rfl
    have hI2' : (s₂.owners .none).Inv s₂.phys := by
      rw [ho2]
      refine hI2.of_sound rfl rfl (fun a y hy => ?_) hI2.sound
      by_cases ha : a = .proc p
      · exact .inl (by rw [ha]; exact hpt)
      · dsimp only at hy
        rw [update_of_ne ha] at hy
        exact .inr hy
    obtain ⟨φ₃, rfl, hI3, hm3, hsteps⟩ := procPagetable_spec hI2' htf2 hpgt
    set s₃ : Vm := { s₂ with phys := φ₃ } with hs3
    have ho3 : ∀ g, s₃.owners g = s₂.owners g := fun g => owners_phys (hI3.kernelEnd)
    have hI3' : (s₃.owners ⟨some t, some x, none⟩).Inv s₃.phys := by
      rw [ho3]
      exact hI3
    obtain ⟨hI4, hcons, hnew, -⟩ := install (p := p) hI3' (by rw [← htf2]) rfl rfl
    have hpt3 : (s₃.proc p).pagetable = none := by simp [hs3, hs2, hpt]
    rw [hpt3] at hI4 hcons hnew
    set s₄ := s₃.setProc p fun q => { q with pagetable := some t } with hs4
    have hproc4 : s₄.proc =
        update s.proc p { s.proc p with tf := some x, pagetable := some t } := by
      simp [hs4, hs3, hs2]
    have hcons' : Conserves (places p) (s.ledger .none) (s₄.ledger .none) := by
      have h1 := (hmove1.mono (T := places p) (by
        rintro l rfl
        exact .inr (.inr (.inl rfl)))).steps.conserves
      have h2 := (hmove2.mono (tf_subset (p := p))).steps.conserves
      have h3 := (hsteps.mono (space_new_subset (p := p))).conserves
      rw [← hledger2] at h2
      rw [← ho3] at h3
      exact ((h1.trans h2).trans h3).trans hcons
    refine ⟨hC.of (inv_forget_tf hI4) hcons'.held fun q hq => ?_, φ₃,
      .inr ⟨p, x, t, rfl, hun, ?_, hcons'⟩⟩
    · by_cases hqp : q = p
      · subst hqp
        refine .inr ?_
        rw [hproc4, update_self]
        dsimp only
        rw [hsz]
        refine hm3.congr fun v => ?_
        exact (hnew (upath v)).trans (by rw [ledger, ho3]; rfl)
      · refine .inl ⟨?_, ?_, fun v => page_notMem_places hqp _⟩
        · rwa [hproc4, update_of_ne hqp] at hq
        · rw [hproc4, update_of_ne hqp]
    · rw [← hproc4]
      rfl

theorem procFreepagetable_spec {A B : Type} [DecidableEq A] [DecidableEq B] {o : Owners A B} {a : A}
    {φ : Phys} {sz : ℕ} {u : Unit} (hI : o.Inv φ) (hr : o.root a = some r)
    (hm : 0 < sz → o.Mapped φ a (pages sz))
    (h : Returns (procFreepagetable r sz) φ u φ') :
    Owners.Inv { o with root := update o.root a none } φ' ∧
      (∀ l, l ∉ Owners.space a →
        Owners.held { o with root := update o.root a none } φ' l = o.held φ l) ∧
      (0 < sz → Conserves (Owners.space a) (o.books φ)
        (Owners.books { o with root := update o.root a none } φ')) ∧
      (sz = 0 → φ'.freelist = φ.freelist) := by
  obtain ⟨_, φ₁, h1, h⟩ := returns_bind.1 h
  obtain ⟨_, φ₂, h2, h⟩ := returns_bind.1 h
  obtain ⟨hI1, hb1, -⟩ := hI.uvmunmap_fixed hr (by decide) (by decide) (.inl rfl) h1
  obtain ⟨hI2, hb2, -⟩ := hI1.uvmunmap_fixed hr (by decide) (by decide) (.inr rfl) h2
  have hb : o.books φ₂ = o.books φ := hb2.trans hb1
  have hheld : o.held φ₂ = o.held φ := congrArg Books.held hb
  split at h
  · rename_i hsz
    have hm2 : o.Mapped φ₂ a (pages sz) := (hm hsz).congr fun v => by rw [hheld]
    obtain ⟨hI', hsteps, -⟩ := hI2.uvmfree hr hm2 hsz h
    rw [hb] at hsteps
    exact ⟨hI', hsteps.conserves.held, fun _ => hsteps.conserves, by omega⟩
  · rename_i hsz
    obtain ⟨-, rfl⟩ := returns_pure.1 h
    refine ⟨hI2.dropRoot, fun l hl => ?_, fun h => absurd h hsz, fun _ => congrArg Books.free hb⟩
    rw [← hheld]
    cases l with
    | other b => rfl
    | hand => rfl
    | page b π =>
      have hb : b ≠ a := fun e => hl (.inl ⟨π, by rw [e]⟩)
      simp [Owners.held, hb]

theorem owners_clearPagetable {f : VmProc → VmProc} (hf : ∀ q, (f q).pagetable = none)
    (htf : ∀ q, (f q).tf = q.tf) : (s.setProc p f).owners g =
      { s.owners g with root := update (s.owners g).root (.proc p) none } := by
  ext1
  · funext a
    cases a with
    | proc q => by_cases h : q = p <;> simp [owners, update, h, hf]
    | new => simp [owners, update]
  · funext a
    cases a with
    | proc q => by_cases h : q = p <;> simp [owners, h, htf]
    | new => rfl
  · funext b
    cases b with
    | tf q => by_cases h : q = p <;> simp [owners, h, htf]
    | pipe pi => rfl
  · rfl
  · rfl

/-- The first half of `freeproc`: the trapframe page is given back. -/
theorem freeTrapframe_spec {u : Unit} (hI : (s.owners .none).Inv s.phys)
    (h : Returns (freeTrapframe p) s u s') :
    ∃ φ', s' = { s with phys := φ' } ∧
      ((s'.setProc p fun q => { q with tf := none }).owners .none).Inv φ' ∧
      Conserves {.hand, .other (.tf p)} (s.ledger .none)
        ((s'.setProc p fun q => { q with tf := none }).ledger .none) := by
  rw [freeTrapframe, returns_get_bind] at h
  split at h
  · rename_i htf
    obtain ⟨-, rfl⟩ := returns_pure.1 h
    have hsame : (s.setProc p fun q => { q with tf := none }) = s := by
      simp only [setProc]
      congr 1
      rw [update_eq_self_iff]
      rw [← htf]
    rw [hsame]
    exact ⟨s.phys, rfl, hI, .refl⟩
  · rename_i x htf
    obtain ⟨φ', hk, rfl⟩ := returns_onPhys.1 h
    obtain ⟨hI1, hmove1⟩ := hI.fromOther (b := Holder.tf p) rfl htf
    obtain ⟨hI2, hmove2⟩ := hI1.give (kfree_spec hk).2 rfl
    have hend := (kfree_spec hk).2.kernelEnd
    have ho : (({ s with phys := φ' } : Vm).setProc p fun q => { q with tf := none }).owners .none =
        { s.owners .none with
          tf := update (s.owners .none).tf (.proc p) none
          other := update (s.owners .none).other (.tf p) none } := by
      rw [owners_setTf, owners_phys hend]
    refine ⟨φ', rfl, ?_, ?_⟩
    · rw [ho]
      refine hI2.of_sound rfl rfl (fun a y hy => ?_) hI2.sound
      by_cases ha : a = .proc p
      · subst ha
        simp at hy
      · dsimp only at hy
        rw [update_of_ne ha] at hy
        exact .inr hy
    · have h1 := hmove1.steps.conserves
      have h2 := (hmove2.mono (T := {.hand, .other (.tf p)}) (by simp)).steps.conserves
      have hledger : (({ s with phys := φ' } : Vm).setProc p fun q =>
          { q with tf := none }).ledger .none = Owners.books { s.owners .none with
            hand := none
            other := update (s.owners .none).other (.tf p) none } φ' := by
        rw [ledger, ho]
        rfl
      rw [hledger]
      exact h1.trans h2

/-- What `freeproc` leaves of a process. -/
def freed (q : VmProc) : VmProc :=
  { q with tf := none, pagetable := none, sz := 0, parent := none, state := .unused }

/-- What `freeproc` does: it gives back every page of the process, unless the size of this is 0;
then the root of the page table is lost. -/
structure FreedProc (s s' : Vm) (p : Slot) : Prop where
  same : ∃ φ', s' = { s with phys := φ', proc := update s.proc p (freed (s.proc p)) }
  conserves : (s.proc p).sz ≠ 0 → Conserves (places p) (s.ledger .none) (s'.ledger .none)
  root : ∀ t, (s.proc p).sz = 0 → (s.ledger .none).held (.page (.proc p) []) = some t →
    t ∉ s'.phys.freelist

/-- **`freeproc` gives back every page of a process**, unless its size is 0. -/
theorem Core.freeproc {u : Unit} (hC : Core s .none) (h : Returns (freeproc p) s u s') :
    Core s' .none ∧ FreedProc s s' p := by
  simp only [Vm.freeproc, returns_bind, returns_modify] at h
  obtain ⟨_, _, htf, _, _, rfl, _, s₃, hpt, rfl⟩ := h
  obtain ⟨φ₁, rfl, hI1, hcons0⟩ := freeTrapframe_spec hC.inv htf
  set s₂ := ({ s with phys := φ₁ } : Vm).setProc p fun q => { q with tf := none } with hs2
  have hpt2 : (s₂.proc p).pagetable = (s.proc p).pagetable := by simp [hs2]
  have hsz2 : (s₂.proc p).sz = (s.proc p).sz := by simp [hs2]
  have hcons1 := hcons0.mono (tf_subset (p := p))
  let f : VmProc → VmProc := fun q =>
    { q with pagetable := none, sz := 0, parent := none, state := .unused }
  -- whatever is done with the page table, no place of it is left
  suffices hrest : ∃ φ', s₃ = { s₂ with phys := φ' } ∧
      ((s₃.setProc p f).owners .none).Inv φ' ∧
      (∀ l, l ∉ places p → ((s₃.setProc p f).ledger .none).held l = (s₂.ledger .none).held l) ∧
      ((s.proc p).sz ≠ 0 → Conserves (places p) (s₂.ledger .none)
        ((s₃.setProc p f).ledger .none)) ∧
      ((s.proc p).sz = 0 → φ'.freelist = φ₁.freelist) by
    obtain ⟨φ', rfl, hI', hheld, hcons, hfree⟩ := hrest
    have hproc : (({ s₂ with phys := φ' } : Vm).setProc p f).proc =
        update s.proc p (freed (s.proc p)) := by
      simp [hs2, f, freed]
    refine ⟨hC.of hI' (fun l hl => (hheld l hl).trans (hcons1.held l hl)) fun q hq => ?_, ⟨φ', ?_⟩,
      fun hsz => hcons1.trans (hcons hsz), fun t hsz ht => ?_⟩
    · have hqp : q ≠ p := by
        rintro rfl
        rw [hproc, update_self] at hq
        exact hq rfl
      rw [hproc, update_of_ne hqp] at hq
      exact .inl ⟨hq, by rw [hproc, update_of_ne hqp], fun v => page_notMem_places hqp _⟩
    · rw [← hproc]
      rfl
    · change t ∉ φ'.freelist
      rw [hfree hsz]
      exact hI1.sound.apart ((hcons0.held _ (by simp)).trans ht)
  rw [freePagetable, returns_get_bind] at hpt
  split at hpt
  · rename_i hnone
    obtain ⟨-, rfl⟩ := returns_pure.1 hpt
    have ho : (s₂.setProc p f).owners .none = s₂.owners .none := by
      refine owners_congr (fun q => ?_) (fun q => ?_) (fun _ => Iff.rfl) rfl
      · by_cases hq : q = p <;> simp [f, hq]
      · by_cases hq : q = p <;> simp [f, hq, hnone]
    have hledger : (s₂.setProc p f).ledger .none = s₂.ledger .none := by
      rw [ledger, ho]
      rfl
    rw [hledger]
    exact ⟨s₂.phys, rfl, by rw [ho]; exact hI1, fun l _ => rfl, fun _ => .refl, fun _ => rfl⟩
  · rename_i r hr
    obtain ⟨φ', hfree, rfl⟩ := returns_onPhys.1 hpt
    rw [hsz2] at hfree
    have hm : (s₂.owners .none).Mapped s₂.phys (.proc p) (pages (s.proc p).sz) :=
      (hC.mapped p (by rw [← hpt2, hr]; simp)).congr fun v =>
        hcons0.held (.page (.proc p) (upath v)) (by simp)
    obtain ⟨hI', hheld, hcons, hfl⟩ := procFreepagetable_spec (a := Space.proc p) hI1 hr
      (fun _ => hm) hfree
    have ho : (({ s₂ with phys := φ' } : Vm).setProc p f).owners .none = { s₂.owners .none with
        root := update (s₂.owners .none).root (.proc p) none } := by
      rw [owners_clearPagetable (f := f) (fun _ => rfl) (fun _ => rfl), owners_phys hI'.kernelEnd]
    have hledger : (({ s₂ with phys := φ' } : Vm).setProc p f).ledger .none = Owners.books
        { s₂.owners .none with root := update (s₂.owners .none).root (.proc p) none } φ' := by
      rw [ledger, ho]
      rfl
    rw [hledger]
    refine ⟨φ', rfl, by rw [ho]; exact hI', fun l hl => ?_, fun hsz => ?_, hfl⟩
    · exact hheld l fun h => hl (space_proc_subset h)
    · exact (hcons (Nat.pos_of_ne_zero hsz)).mono space_proc_subset

end Vm

end Xv6Container
