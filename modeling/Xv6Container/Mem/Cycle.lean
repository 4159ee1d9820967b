import Xv6Container.Mem.Owner

/-!
# The life of an address space

A process is created by `fork`, changes its size by `sbrk`, exits and is reaped.

* `cycle_frees_pages` : **afterwards the free pages are those that were free before** exactly when
  the process did not exit with size 0, if `fork` found no descriptors left over in its slot;
* `empty_cycle_leaks` : with size 0 its page table is never freed, and a leftover descriptor gives
  back a page that was in use before.
-/

namespace Xv6Container

open Function Books Phys

namespace Vm

variable {s s' s₁ s₂ s₃ s₄ : Vm} {b : Vm} {p c : Slot}

theorem held_eq_none_of_vacant (htf : (s.proc c).tf = none) (hpt : (s.proc c).pagetable = none)
    {l : PagePlace Space Holder} (hl : l ∈ places c) : (s.ledger .none).held l = none := by
  rcases hl with ⟨π, rfl⟩ | ⟨π, rfl⟩ | rfl | rfl
  · simp [ledger, Owners.books, Owners.held, hpt]
  · simp [ledger, Owners.books, Owners.held, Draft.none]
  · rfl
  · exact htf

/-- What the `sbrk`s of a process do. -/
structure Resized (s s' : Vm) (c : Slot) : Prop where
  good : Good s'
  conserves : Conserves (places c) (s.ledger .none) (s'.ledger .none)
  same : ∃ φ sz, s' = { s with phys := φ, proc := update s.proc c { s.proc c with sz := sz } }

theorem Resized.trans (h : Resized s s₁ c) (h' : Resized s₁ s₂ c) : Resized s s₂ c := by
  refine ⟨h'.good, h.conserves.trans h'.conserves, ?_⟩
  obtain ⟨φ₁, sz₁, rfl⟩ := h.same
  obtain ⟨φ₂, sz₂, rfl⟩ := h'.same
  exact ⟨φ₂, sz₂, by simp⟩

theorem resized_of_run {ns : List ℤ} (hG : Good s)
    (h : machine.Run (fun _ _ => True) s (ns.map fun n => (c, .sbrk n)) s') : Resized s s' c := by
  induction ns generalizing s with
  | nil =>
    cases h
    exact ⟨hG, .refl, s'.phys, (s'.proc c).sz, by simp⟩
  | cons n ns ih =>
    obtain _ | ⟨-, hnext, h⟩ := h
    simp only [machine] at hnext
    split at hnext
    · rename_i hlive
      obtain ⟨_, hcall⟩ := after_eq_some.1 hnext
      obtain ⟨b, hgrow⟩ := exists_returns_of_void hcall
      obtain ⟨hG1, φ, sz, hs1, hcons⟩ := hG.growproc hlive.1 hgrow
      exact Resized.trans ⟨hG1, hcons, φ, sz, hs1⟩ (ih hG1 h)
    · cases hnext

/-- `p` forks `c`, which calls `sbrk` with each of `ns` and exits, and `p` reaps it. -/
structure Cycle (p c : Slot) (ns : List ℤ) (s s₁ s₂ s₃ s₄ : Vm) : Prop where
  fork : ∃ full, Returns (Vm.fork p full) s (some c) s₁
  sbrk : machine.Run (fun _ _ => True) s₁ (ns.map fun n => (c, .sbrk n)) s₂
  exit : Returns (Vm.exit c) s₂ () s₃
  wait : ∃ copyFails, Returns (Vm.wait p copyFails) s₃ (some c) s₄

/-- **The life of a process returns every page.** After any history, a process that is forked into
a slot without leftover descriptors, calls `sbrk` with any arguments, exits and is reaped leaves the
free pages as they were before the `fork` if and only if its size at the exit is not 0. -/
theorem cycle_frees_pages {ls : List (Slot × VmOp)} {ns : List ℤ} (hb : Booted b)
    (hrun : machine.Run (fun _ _ => True) b ls s) (hlive : s.Live p)
    (h : Cycle p c ns s s₁ s₂ s₃ s₄) (hfd : ∀ fd, (s.proc c).ofile fd = none) :
    (∀ pa, pa ∈ s₄.phys.freelist ↔ pa ∈ s.phys.freelist) ↔ (s₂.proc c).sz ≠ 0 := by
  have hG : Good s := hrun.invariant hb.good fun _ _ _ hG _ hn => hG.next hn
  obtain ⟨_, hfork⟩ := h.fork
  obtain ⟨hG1, -, hforked⟩ := hG.fork hlive.1 hfork
  have hF := hforked c rfl
  have hne : p ≠ c := fun e => hlive.1 (e ▸ hF.unused)
  have hR := resized_of_run hG1 h.sbrk
  obtain ⟨φ, sz, hs2⟩ := hR.same
  -- The child has no file of its own, so it closes none for good.
  have hshared : ∀ fd f, (s₂.proc c).ofile fd = some f → (s₂.proc p).ofile fd = some f := by
    intro fd f hf
    have hp : s₂.proc p = s.proc p := by
      rw [hs2, ← hF.others p hne]
      exact update_of_ne hne _ _
    have hc : (s₂.proc c).ofile = (s₁.proc c).ofile := by simp [hs2]
    rw [hc, hF.ofile, hfd] at hf
    rw [hp]
    split at hf
    · exact hf
    · cases hf
  obtain ⟨hG3, -, hsz3, hledger⟩ := hR.good.exit (q := p) h.exit
  obtain ⟨_, hwait⟩ := h.wait
  obtain ⟨hG4, -, ⟨hr, -⟩ | ⟨_, hr, -, hfree⟩⟩ := hG3.wait hwait
  · cases hr
  obtain rfl := Option.some.inj hr
  obtain ⟨-, ⟨φ₄, hs4⟩, hcons, hroot⟩ := hG3.sane.freeproc hfree
  have hvac := hG.vacant c hF.unused
  have hnone : ∀ l ∈ places c, (s.ledger .none).held l = none :=
    fun l hl => held_eq_none_of_vacant hvac.1 hvac.2.1 hl
  have hlive3 : Conserves (places c) (s.ledger .none) (s₃.ledger .none) := by
    rw [hledger hshared hne]
    exact hF.conserves.trans hR.conserves
  constructor
  · -- with size 0 the root of the page table is in use forever, and it was free before
    intro hsame hsz
    obtain ⟨t, ht⟩ := hF.table
    have ht3 : (s₃.ledger .none).held (.page (.proc c) []) = some t := by
      rw [hledger hshared hne]
      simp [ledger, Owners.books, Owners.held_page, owners, hs2, ht]
    refine hroot t (hsz3.trans hsz) ht3 ((hsame t).2 ?_)
    exact hlive3.mem_free_of_held hG3.sane.core.inv.sound (space_proc_subset (.inl ⟨[], rfl⟩)) ht3
      hnone
  · intro hsz pa
    refine (hlive3.trans (hcons (hsz3 ▸ hsz))).mem_free_iff hG.sane.core.inv.sound
      hG4.sane.core.inv.sound fun l hl => ?_
    rw [hnone l hl, held_eq_none_of_vacant (by simp [hs4, freed]) (by simp [hs4, freed]) hl]

/-- The first process of `freshVm` makes the calls `ls`, then forks process 1, which lives
as in `Cycle`: the states before the fork, before the exit and after the wait. -/
def cycleRun (ls : List (Slot × VmOp)) (ns : List ℤ) : Option (Vm × Vm × Vm) := do
  let (ok, b) ← (userinit.run freshVm).toOption
  guard ok
  let s ← machine.run b ls
  let (c, s₁) ← ((Vm.fork 0 false).run s).toOption
  guard (c = some 1)
  let s₂ ← machine.run s₁ (ns.map fun n => (1, .sbrk n))
  let (_, s₃) ← ((Vm.exit 1).run s₂).toOption
  let (c, s₄) ← ((Vm.wait 0 false).run s₃).toOption
  guard (c = some 1)
  return (s, s₂, s₄)

theorem cycle_of_cycleRun {ls : List (Slot × VmOp)} {ns : List ℤ} {α : Type} {x : α}
    {f : Vm × Vm × Vm → α} (h : (cycleRun ls ns).map f = some x) :
    ∃ b s s₁ s₂ s₃ s₄, Booted b ∧ machine.Run (fun _ _ => True) b ls s ∧
      Cycle 0 1 ns s s₁ s₂ s₃ s₄ ∧ f (s, s₂, s₄) = x := by
  obtain ⟨⟨s, s₂, s₄⟩, h, hx⟩ := Option.map_eq_some_iff.1 h
  simp only [cycleRun, Option.bind_eq_bind, Option.bind_eq_some_iff, Option.guard_eq_some',
    toOption_run_eq_some, Machine.run_eq_some_iff] at h
  obtain ⟨⟨ok, b⟩, hb, -, rfl, t, hrun, ⟨c, s₁⟩, hfork, -, rfl, t₂, hsbrk, ⟨u, s₃⟩, hexit,
    ⟨c', t₄⟩, hwait, -, rfl, hres⟩ := h
  cases hres
  exact ⟨b, _, s₁, _, s₃, _, ⟨freshVm, fresh_freshVm, hb⟩, hrun,
    ⟨⟨false, hfork⟩, hsbrk, hexit, false, hwait⟩, hx⟩

/-- The process grows to 14096 bytes, then shrinks to 10000. -/
theorem cycle_frees_pages_sbrk : ∃ b s s₁ s₂ s₃ s₄, Booted b ∧
    machine.Run (fun _ _ => True) b [] s ∧ Cycle 0 1 [10000, -4096] s s₁ s₂ s₃ s₄ ∧
    (s₂.proc 1).sz = 10000 ∧ ∀ pa, pa ∈ s₄.phys.freelist ↔ pa ∈ s.phys.freelist := by
  have heval : ((cycleRun [] [10000, -4096]).map fun x =>
      (decide (x.1.Live 0), decide (∀ fd, (x.1.proc 1).ofile fd = none), (x.2.1.proc 1).sz)) =
      some (true, true, 10000) := by
    decide +kernel
  obtain ⟨b, s, s₁, s₂, s₃, s₄, hb, hrun, hc, hx⟩ := cycle_of_cycleRun heval
  simp only [Prod.mk.injEq, decide_eq_true_eq] at hx
  exact ⟨b, s, s₁, s₂, s₃, s₄, hb, hrun, hc, hx.2.2,
    (cycle_frees_pages hb hrun hx.1 hc hx.2.1).2 (by rw [hx.2.2]; decide)⟩

/-- A process that shrinks to size 0 leaves its page table behind when it is freed; and a process
that is forked into a slot where a refused `fork` left the descriptors of a pipe, closed since in
its parent, frees the page of the pipe.  This machine leaves `full` open: the refused
`fork` meets the limit of its container, which holds other processes, and the later one comes when
one of these is gone. -/
theorem empty_cycle_leaks :
    (∃ b s s₁ s₂ s₃ s₄, Booted b ∧ machine.Run (fun _ _ => True) b [] s ∧
      Cycle 0 1 [-4096] s s₁ s₂ s₃ s₄ ∧ (s₂.proc 1).sz = 0 ∧
      ∃ pa ∈ s.phys.freelist, pa ∉ s₄.phys.freelist) ∧
    ∃ b s s₁ s₂ s₃ s₄, Booted b ∧ machine.Run (fun _ _ => True) b
        [(0, .pipe false), (0, .fork true), (0, .close 0), (0, .close 1)] s ∧
      Cycle 0 1 [] s s₁ s₂ s₃ s₄ ∧ (s₂.proc 1).sz ≠ 0 ∧
      ∃ pa ∈ s₄.phys.freelist, pa ∉ s.phys.freelist := by
  constructor
  · have heval : ((cycleRun [] [-4096]).map fun x => ((x.2.1.proc 1).sz,
        decide (∃ pa ∈ x.1.phys.freelist, pa ∉ x.2.2.phys.freelist))) = some (0, true) := by
      decide +kernel
    simpa only [Prod.mk.injEq, decide_eq_true_eq] using cycle_of_cycleRun heval
  · have heval : ((cycleRun
        [(0, .pipe false), (0, .fork true), (0, .close 0), (0, .close 1)] []).map fun x =>
          (decide ((x.2.1.proc 1).sz ≠ 0),
            decide (∃ pa ∈ x.2.2.phys.freelist, pa ∉ x.1.phys.freelist))) = some (true, true) := by
      decide +kernel
    simpa only [Prod.mk.injEq, decide_eq_true_eq] using cycle_of_cycleRun heval

end Vm

end Xv6Container
