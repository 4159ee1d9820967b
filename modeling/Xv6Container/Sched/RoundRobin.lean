import Xv6Container.Proc.System
import Xv6Container.Sched.Cursor

/-!
# Round robin over the containers

The scheduler of one CPU (`scheduler` and `get_next_active_container` of `kernel/proc.c`).  It
scans the process table for processes of the container at its cursor, moves the cursor to the next
running container after every process it has run, and once more at the end of the table.  As in a
steady state, every process that was run is `RUNNABLE` again when it comes back, and no container
changes its state; so the tables stay the same and a pass yields the slots dispatched and the new
cursor.

The passes are those of a `Cursor` along the containers of the `RUNNABLE` slots.  A container is
passed over when the cursor meets its turn behind its last process, and this can repeat for ever.

* `all_served_iff` : `NCONTS` passes serve all running containers that have a `RUNNABLE` process
  if and only if no such container can be cut off;
* `container_starves` : a table in which one of two containers is never served.
-/

namespace Xv6Container

/-- The first container after `index`, going round, that satisfies `run`. -/
def nextIn (run : Cont → Bool) (index : Cont) : Option Cont :=
  ((List.finRange NCONTS).map fun k => index + 1 + k).find? run

theorem exists_iterate_nextIn : ∀ (run : Cont → Bool) (c x : Cont), run c = true → run x = true →
    ∃ i < NCONTS, (fun c => (nextIn run c).getD c)^[i + 1] c = x := by
  decide +kernel

theorem nextIn_isSome : ∀ (run : Cont → Bool) (c : Cont), run c = true →
    (nextIn run c).isSome = true := by
  decide +kernel

namespace Kernel

variable (s : Kernel)

/-- `get_next_active_container`; `none` when it never returns. -/
def getNextActiveContainer (index : Cont) : Option Cont :=
  nextIn (fun i => (s.containers i).state = .crunning) index

/-- The scheduler takes slot `q` when its cursor is at container `c`. -/
def Takes (c : Cont) (q : Slot) : Prop :=
  (s.proc q).state = .runnable ∧ (s.proc q).container = some c

instance (c : Cont) (q : Slot) : Decidable (s.Takes c q) := inferInstanceAs (Decidable (_ ∧ _))

/-- The scan of `scheduler` over the slots `qs`, with the cursor at `c`. -/
def schedulerScan : List Slot → Cont → Option (List Slot × Cont)
  | [], c => some ([], c)
  | q :: qs, c =>
    if s.Takes c q then do
      let c ← s.getNextActiveContainer c
      let (ds, c) ← schedulerScan qs c
      return (q :: ds, c)
    else schedulerScan qs c

/-- One round of the loop of `scheduler`: the slots dispatched, and the new cursor. -/
def schedulerPass (c : Cont) : Option (List Slot × Cont) := do
  let (ds, c) ← s.schedulerScan (List.finRange NPROC) c
  let c ← s.getNextActiveContainer c
  return (ds, c)

/-- `n` consecutive rounds. -/
def schedulerPasses : ℕ → Cont → Option (List Slot × Cont)
  | 0, c => some ([], c)
  | n + 1, c => do
    let (ds, c) ← s.schedulerPass c
    let (es, c) ← schedulerPasses n c
    return (ds ++ es, c)

/-- The container is `CRUNNING`. -/
def Active (c : Cont) : Prop := (s.containers c).state = .crunning

instance (c : Cont) : Decidable (s.Active c) := inferInstanceAs (Decidable (_ = _))

/-- The next running container, where there is one. -/
def nextCont (c : Cont) : Cont := (s.getNextActiveContainer c).getD c

/-- The containers of the `RUNNABLE` slots among `qs`, in table order. -/
def readyIn (qs : List Slot) : List Cont :=
  qs.filterMap fun q => if (s.proc q).state = .runnable then (s.proc q).container else none

/-- The containers of all `RUNNABLE` slots, in table order. -/
def ready : List Cont := s.readyIn (List.finRange NPROC)

/-- Container `x` is cut off from a scheduler whose cursor is at `c`: the running containers from
`c` to `x`, and those from the one after `x` round to `x`, can be cut into stretches each of which
the table order allows up to its last container, but not with it. -/
def CutOff (c x : Cont) : Prop :=
  Cursor.Cut s.ready (Cursor.walk s.nextCont x NCONTS c) ∧
    Cursor.Cut s.ready (Cursor.walk s.nextCont x NCONTS (s.nextCont x))

variable {s} {c x : Cont}

/-! ### The cycle of the running containers -/

section

variable (hc : s.Active c)

include hc

theorem exists_iterate_nextCont (hx : s.Active x) : ∃ i < NCONTS, s.nextCont^[i + 1] c = x :=
  exists_iterate_nextIn (fun i => (s.containers i).state = .crunning) c x (decide_eq_true hc)
    (decide_eq_true hx)

theorem getNextActiveContainer_eq : s.getNextActiveContainer c = some (s.nextCont c) := by
  obtain ⟨d, hd⟩ : ∃ d, s.getNextActiveContainer c = some d :=
    Option.isSome_iff_exists.1 (nextIn_isSome _ c (decide_eq_true hc))
  rw [nextCont, hd]
  rfl

theorem active_nextCont : s.Active (s.nextCont c) := by
  have := List.find?_some (getNextActiveContainer_eq hc)
  exact of_decide_eq_true this

theorem active_iterate (n : ℕ) : s.Active (s.nextCont^[n] c) := by
  induction n generalizing c with
  | zero => exact hc
  | succ n ih => exact ih (active_nextCont hc)

theorem mem_periodicPts : c ∈ Function.periodicPts s.nextCont := by
  obtain ⟨i, -, hi⟩ := exists_iterate_nextCont hc hc
  exact ⟨i + 1, Nat.succ_pos i, hi⟩

theorem minimalPeriod_le : Function.minimalPeriod s.nextCont c ≤ NCONTS := by
  obtain ⟨i, hlt, hi⟩ := exists_iterate_nextCont hc hc
  exact (Function.IsPeriodicPt.minimalPeriod_le (Nat.succ_pos i) hi).trans hlt

end

/-! ### A pass is a pass of the cursor -/

theorem schedulerScan_eq (hc : s.Active c) (qs : List Slot) :
    ∃ ds, s.schedulerScan qs c =
        some (ds, s.nextCont^[Cursor.served s.nextCont c (s.readyIn qs)] c) ∧
      ds.map (fun q => (s.proc q).container) =
        (List.iterate s.nextCont c (Cursor.served s.nextCont c (s.readyIn qs))).map some := by
  induction qs generalizing c with
  | nil => exact ⟨[], rfl, rfl⟩
  | cons q qs ih =>
    by_cases ht : s.Takes c q
    · obtain ⟨ds, hds, hmap⟩ := ih (active_nextCont hc)
      have hready : s.readyIn (q :: qs) = c :: s.readyIn qs := by simp [readyIn, ht.1, ht.2]
      refine ⟨q :: ds, ?_, ?_⟩
      · rw [schedulerScan, if_pos ht, getNextActiveContainer_eq hc, hready]
        simp [hds, Cursor.served]
      · simp [hready, Cursor.served, ht.2, hmap, List.iterate]
    · obtain ⟨ds, hds, hmap⟩ := ih hc
      have hserved : Cursor.served s.nextCont c (s.readyIn (q :: qs)) =
          Cursor.served s.nextCont c (s.readyIn qs) := by
        unfold readyIn
        rw [List.filterMap_cons]
        split
        · rfl
        · rename_i d hd
          have hne : d ≠ c := by
            rintro rfl
            split at hd
            · rename_i hr
              exact ht ⟨hr, hd⟩
            · cases hd
          simp [Cursor.served, hne]
      refine ⟨ds, ?_, ?_⟩
      · rw [schedulerScan, if_neg ht, hds, hserved]
      · rw [hserved, hmap]

theorem schedulerPass_eq (hc : s.Active c) : ∃ ds, s.schedulerPass c =
      some (ds, s.nextCont^[Cursor.served s.nextCont c s.ready + 1] c) ∧
    ds.map (fun q => (s.proc q).container) =
      (List.iterate s.nextCont c (Cursor.served s.nextCont c s.ready)).map some := by
  obtain ⟨ds, hds, hmap⟩ := schedulerScan_eq hc (List.finRange NPROC)
  refine ⟨ds, ?_, hmap⟩
  simp only [schedulerPass, hds, Option.bind_eq_bind, Option.bind_some,
    getNextActiveContainer_eq (active_iterate hc _), Function.iterate_succ_apply']
  rfl

theorem schedulerPasses_eq (n : ℕ) (hc : s.Active c) :
    ∃ ds d, s.schedulerPasses n c = some (ds, d) ∧ ∀ x, (∃ q ∈ ds, (s.proc q).container = some x) ↔
      ∃ j < n, Cursor.Serves s.nextCont s.ready c x j := by
  induction n generalizing c with
  | zero => exact ⟨[], c, rfl, by simp⟩
  | succ n ih =>
    obtain ⟨ds, hds, hmap⟩ := schedulerPass_eq hc
    obtain ⟨es, d, hes, hserve⟩ := ih (active_iterate hc (Cursor.served s.nextCont c s.ready + 1))
    refine ⟨ds ++ es, d, by rw [schedulerPasses, hds]; simp [-Function.iterate_succ, hes],
      fun x => ?_⟩
    have hfirst : (∃ q ∈ ds, (s.proc q).container = some x) ↔
        Cursor.Serves s.nextCont s.ready c x 0 := by
      have : some x ∈ ds.map (fun q => (s.proc q).container) ↔
          some x ∈ (List.iterate s.nextCont c (Cursor.served s.nextCont c s.ready)).map some := by
        rw [hmap]
      simpa [Cursor.Serves, Cursor.bound] using this
    simp only [List.mem_append, or_and_right, exists_or, hfirst, hserve, Cursor.serves_succ]
    constructor
    · rintro (h | ⟨j, hj, h⟩)
      · exact ⟨0, by omega, h⟩
      · exact ⟨j + 1, by omega, h⟩
    · rintro ⟨j, hj, h⟩
      cases j with
      | zero => exact .inl h
      | succ j => exact .inr ⟨j, by omega, h⟩

/-- **When the round robin is fair.**  For every process table, every set of running containers and
every cursor at one of them: `NCONTS` passes dispatch a process of each running container that has
a `RUNNABLE` one, if and only if none of these containers is cut off. -/
theorem all_served_iff (hc : s.Active c) :
    (∃ ds d, s.schedulerPasses NCONTS c = some (ds, d) ∧
      ∀ x, s.Active x → (∃ q, s.Takes x q) → ∃ q ∈ ds, (s.proc q).container = some x) ↔
    ∀ x, s.Active x → (∃ q, s.Takes x q) → ¬ s.CutOff c x := by
  obtain ⟨ds, d, hds, hserve⟩ := schedulerPasses_eq NCONTS hc
  have hcut : ∀ x, s.Active x →
      ((∃ q ∈ ds, (s.proc q).container = some x) ↔ ¬ s.CutOff c x) := fun x hx => by
    rw [hserve x]
    obtain ⟨i, -, hi⟩ := exists_iterate_nextCont hc hx
    exact Cursor.serves_iff_not_cut (mem_periodicPts hc) (minimalPeriod_le hc) ⟨i + 1, hi⟩
  constructor
  · rintro ⟨ds', d', hds', h⟩ x hx hq
    rw [hds] at hds'
    cases hds'
    exact (hcut x hx).1 (h x hx hq)
  · intro h
    exact ⟨ds, d, hds, fun x hx hq => (hcut x hx).2 (h x hx hq)⟩

end Kernel

/-- Two running containers with one process each, the process of container `a` in slot 0. -/
def twoContainers (a b : Cont) : Kernel :=
  { Kernel.procinit [] 0 with
    proc := fun q =>
      if q = 0 then { Proc.zero with state := .runnable, container := some a }
      else if q = 1 then { Proc.zero with state := .runnable, container := some b }
      else Proc.zero
    containers := fun c =>
      if c = a ∨ c = b then { Container.init with state := .crunning } else Container.init }

/-- With the process of container 1 before that of container 0, every pass from container 0
dispatches slot 1 only, and ends with the cursor back at container 0. -/
theorem container_starves :
    (twoContainers 1 0).schedulerPasses NCONTS 0 = some ([1, 1, 1, 1, 1], 0) ∧
    (twoContainers 1 0).Active 0 ∧ (twoContainers 1 0).Active 1 ∧ (twoContainers 1 0).Takes 1 0 ∧
    ∀ q ∈ [(1 : Slot), 1, 1, 1, 1], ((twoContainers 1 0).proc q).container ≠ some 1 := by
  decide +kernel

/-- In the other order both are served, as container 1 is not cut off. -/
theorem all_served_two : (twoContainers 0 1).Active 1 ∧ ¬ (twoContainers 0 1).CutOff 0 1 :=
  ⟨by decide, (Kernel.all_served_iff (by decide)).1 ⟨_, _, rfl, by decide +kernel⟩ 1 (by decide)
    ⟨1, by decide⟩⟩

end Xv6Container
