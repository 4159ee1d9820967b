import Xv6Container.Proc.Basic

/-!
# The physical page allocator

`kalloc` and `kfree` of `kernel/kalloc.c`.  Both keep the accounts of the container of the
process that calls them: `kalloc` refuses a process whose container has used up its pages, and
charges the page before it looks whether there is one; `kfree` credits the caller's container,
whoever the page was charged to.
-/

namespace Xv6Container

/-- End of the physical memory used by the kernel. -/
abbrev PHYSTOP : ℕ := 0x80000000 + 128 * 1024 * 1024

namespace Kernel

variable (s : Kernel)

/-- Take the first page off the free list. -/
def takePage : Option ℕ × Kernel :=
  match s.freelist with
  | [] => (none, s)
  | pa :: rest => (some pa, { s with freelist := rest })

/-- Add `n` to the pages charged to container `c`. -/
def addMem (c : Cont) (n : ℤ) : Kernel :=
  s.modifyCont c fun k => { k with memused := k.memused + n }

/-- The container of `p` has no page left; the root container has no limit. -/
def MemLimited (c : Cont) : Prop :=
  isroot c = false ∧ (s.containers c).memlimit ≤ (s.containers c).memused

instance (c : Cont) : Decidable (s.MemLimited c) := inferInstanceAs (Decidable (_ ∧ _))

/-- `kalloc`, called by process `p`: a page, or `none` when it returns 0. -/
def kalloc (p : Slot) : Except Stop (Option ℕ × Kernel) :=
  if s.started then
    match s.mycont p with
    | none => .error .fault
    | some c => if s.MemLimited c then .ok (none, s) else .ok (s.addMem c 1).takePage
  else
    .ok s.takePage

/-- The address of a page that `kfree` accepts. -/
def ValidPage (pa : ℕ) : Prop := pa % PGSIZE = 0 ∧ s.kernelEnd ≤ pa ∧ pa < PHYSTOP

instance (pa : ℕ) : Decidable (s.ValidPage pa) := inferInstanceAs (Decidable (_ ∧ _))

/-- Put the page `pa` on the free list. -/
def putPage (pa : ℕ) : Except Stop Kernel :=
  if s.ValidPage pa then .ok { s with freelist := pa :: s.freelist } else .error (.panic "kfree")

/-- `kfree`, called by process `p`. -/
def kfree (p : Slot) (pa : ℕ) : Except Stop Kernel :=
  if s.started then
    match s.mycont p with
    | none => .error .fault
    | some c => (s.addMem c (-1)).putPage pa
  else
    s.putPage pa

variable {s} {s' : Kernel} {p : Slot}

theorem kalloc_eq_ok (hs : s.started = true) {r : Option ℕ} (h : s.kalloc p = .ok (r, s')) :
    ∃ c, s.mycont p = some c ∧
      (s.MemLimited c ∧ r = none ∧ s' = s ∨
        ¬ s.MemLimited c ∧ (s.addMem c 1).takePage = (r, s')) := by
  rw [kalloc, if_pos hs] at h
  split at h
  · cases h
  · rename_i c hc
    split at h
    · rename_i hl
      cases h
      exact ⟨c, hc, .inl ⟨hl, rfl, rfl⟩⟩
    · rename_i hl
      exact ⟨c, hc, .inr ⟨hl, Except.ok.inj h⟩⟩

theorem kfree_eq_ok (hs : s.started = true) {pa : ℕ} (h : s.kfree p pa = .ok s') :
    ∃ c, s.mycont p = some c ∧ s.ValidPage pa ∧
      s' = { s.addMem c (-1) with freelist := pa :: s.freelist } := by
  rw [kfree, if_pos hs] at h
  split at h
  · cases h
  · rename_i c hc
    unfold putPage at h
    split at h
    · rename_i hv
      cases h
      exact ⟨c, hc, hv, rfl⟩
    · cases h

/-- `s'` differs from `s` only in the pages charged to the containers and in the free list. -/
structure MemOnly (s s' : Kernel) : Prop where
  proc : s'.proc = s.proc
  cpus : s'.cpus = s.cpus
  containers : ∀ d, s'.containers d = { s.containers d with memused := (s'.containers d).memused }
  nextpid : s'.nextpid = s.nextpid
  initproc : s'.initproc = s.initproc
  kernelEnd : s'.kernelEnd = s.kernelEnd

theorem MemOnly.refl (s : Kernel) : MemOnly s s := ⟨rfl, rfl, fun _ => rfl, rfl, rfl, rfl⟩

theorem MemOnly.trans {s₁ s₂ s₃ : Kernel} (h : MemOnly s₁ s₂) (h' : MemOnly s₂ s₃) :
    MemOnly s₁ s₃ where
  proc := h'.proc.trans h.proc
  cpus := h'.cpus.trans h.cpus
  containers d := by rw [h'.containers d, h.containers d]
  nextpid := h'.nextpid.trans h.nextpid
  initproc := h'.initproc.trans h.initproc
  kernelEnd := h'.kernelEnd.trans h.kernelEnd

theorem memOnly_addMem (c : Cont) (n : ℤ) : MemOnly s (s.addMem c n) where
  proc := rfl
  cpus := rfl
  containers d := by
    by_cases h : d = c
    · subst h; simp [addMem]
    · rw [addMem, modifyCont_containers_of_ne _ h]
  nextpid := rfl
  initproc := rfl
  kernelEnd := rfl

theorem memOnly_takePage : MemOnly s s.takePage.2 := by
  unfold takePage
  split <;> exact ⟨rfl, rfl, fun _ => rfl, rfl, rfl, rfl⟩

theorem memOnly_putPage {pa : ℕ} (h : s.putPage pa = .ok s') : MemOnly s s' := by
  unfold putPage at h
  split at h
  · cases h; exact ⟨rfl, rfl, fun _ => rfl, rfl, rfl, rfl⟩
  · cases h

theorem memOnly_kalloc {r : Option ℕ} (h : s.kalloc p = .ok (r, s')) :
    MemOnly s s' := by
  unfold kalloc at h
  split at h
  · split at h
    · cases h
    · split at h
      · cases h; exact ⟨rfl, rfl, fun _ => rfl, rfl, rfl, rfl⟩
      · obtain rfl : (s.addMem _ 1).takePage.2 = s' := congrArg Prod.snd (Except.ok.inj h)
        exact (memOnly_addMem _ 1).trans memOnly_takePage
  · obtain rfl : s.takePage.2 = s' := congrArg Prod.snd (Except.ok.inj h)
    exact memOnly_takePage

theorem memOnly_kfree {pa : ℕ} (h : s.kfree p pa = .ok s') :
    MemOnly s s' := by
  unfold kfree at h
  split at h
  · split at h
    · cases h
    · exact (memOnly_addMem _ (-1)).trans (memOnly_putPage h)
  · exact memOnly_putPage h

end Kernel

end Xv6Container
