import Xv6Container.Proc.System

/-!
# What a child inherits from the slot it is put in

`allocproc` and `fork` of `kernel/proc.c` set most fields of the slot they take, but not all of
them: `strace` and `killed` are left as the last occupant had them, and `ofile[fd]` is set only
where the parent has an open file.  Two tables that differ in slots that are not in use lead to
children that differ in just these fields.

* `Kernel.fork_independent_iff` : **a new process does not depend on the last occupant of its
  slot** exactly when the slots agree in the fields that nobody sets.
-/

namespace Xv6Container

namespace Kernel

variable {s s' t t' : Kernel} {p i : Slot} {mem mem' : ForkMem} {pid pid' : ℤ}

/-- The child of `p` in a slot with the contents `np`. -/
def childOf (s : Kernel) (p : Slot) (tf : Trapframe) (c : Cont) (np : Proc) : Proc :=
  { forkCopy p (s.proc p) tf { np with pid := s.nextpid } with
    container := some c
    vpid := (s.containers c).nextvpid }

theorem fork_eq_child (hp : (s.proc p).state ≠ .unused)
    (h : s.fork p mem = .ok (.child pid, s')) :
    ∃ i tf c, s.freeSlot = some i ∧ (s.proc p).tf = some tf ∧ s.mycont p = some c ∧
      s'.proc i = s.childOf p tf c (s.proc i) := by
  cases forked_of_fork h with
  | freed _ _ _ _ ho => obtain ⟨ho | ho, -⟩ | ⟨ho, -⟩ := ho <;> cases ho
  | @child i _ tf c hi hpar hc =>
    have hpi : p ≠ i := by
      rintro rfl
      exact hp (state_of_freeSlot hi)
    obtain ⟨rfl, htf⟩ := hpar hpi
    refine ⟨i, tf, c, hi, htf, hc, ?_⟩
    rw [claimSlot_proc_self]
    rfl

/-- The tables differ only in the contents of slots that are not in use. -/
structure SameInUse (s t : Kernel) : Prop where
  unused : ∀ q, (s.proc q).state = .unused ↔ (t.proc q).state = .unused
  used : ∀ q, (s.proc q).state ≠ .unused → t.proc q = s.proc q
  containers : t.containers = s.containers
  cpus : t.cpus = s.cpus
  nextpid : t.nextpid = s.nextpid
  initproc : t.initproc = s.initproc

theorem SameInUse.modifyProc {f : Proc → Proc} (hi : (s.proc i).state = .unused)
    (hf : (f (s.proc i)).state = .unused) : SameInUse s (s.modifyProc i f) := by
  refine ⟨fun q => ?_, fun q hq => ?_, rfl, rfl, rfl, rfl⟩
  · by_cases hq : q = i
    · subst hq
      simp [hi, hf]
    · rw [modifyProc_proc_of_ne _ hq]
  · refine modifyProc_proc_of_ne _ ?_
    rintro rfl
    exact hq hi

theorem SameInUse.freeSlot_eq (h : SameInUse s t) : t.freeSlot = s.freeSlot := by
  unfold freeSlot findProc
  congr 1
  funext q
  simpa using (h.unused q).symm

/-- The children `x` and `y` of a parent `par` agree, and have the open files of their parent. -/
structure SameChild (par x y : Proc) : Prop where
  ofile : x.ofile = par.ofile ∧ y.ofile = par.ofile
  cwd : x.cwd = y.cwd
  name : str x.name = str y.name
  strace : x.strace = y.strace
  killed : x.killed = y.killed
  pid : x.pid = y.pid
  vpid : x.vpid = y.vpid
  container : x.container = y.container
  sz : x.sz = y.sz
  tf : x.tf = y.tf
  pagetable : x.pagetable = y.pagetable
  state : x.state = y.state
  parent : x.parent = y.parent
  chan : x.chan = y.chan
  xstate : x.xstate = y.xstate

/-- The contents `x` and `y` of a slot that is not in use agree in the fields that neither
`allocproc` nor `fork` by a parent `par` sets: there is no open file where the parent has none. -/
structure SameLeftovers (par x y : Proc) : Prop where
  ofile : ∀ fd, par.ofile fd = none → x.ofile fd = none ∧ y.ofile fd = none
  strace : x.strace = y.strace
  killed : x.killed = y.killed
  chan : x.chan = y.chan
  xstate : x.xstate = y.xstate

theorem childOf_ofile_eq_iff {tf : Trapframe} {c : Cont} {np : Proc} :
    (s.childOf p tf c np).ofile = (s.proc p).ofile ↔
      ∀ fd, (s.proc p).ofile fd = none → np.ofile fd = none := by
  rw [funext_iff]
  refine forall_congr' fun fd => ?_
  by_cases hfd : (s.proc p).ofile fd = none
  · simp [childOf, forkCopy, hfd]
  · simp [childOf, forkCopy, hfd]

theorem sameChild_childOf_iff {tf : Trapframe} {c : Cont} {x y : Proc} :
    SameChild (s.proc p) (s.childOf p tf c x) (s.childOf p tf c y) ↔
      SameLeftovers (s.proc p) x y := by
  constructor
  · intro h
    have hx := childOf_ofile_eq_iff.1 h.ofile.1
    have hy := childOf_ofile_eq_iff.1 h.ofile.2
    exact ⟨fun fd hfd => ⟨hx fd hfd, hy fd hfd⟩, h.strace, h.killed, h.chan, h.xstate⟩
  · intro h
    refine ⟨⟨childOf_ofile_eq_iff.2 fun fd hfd => (h.ofile fd hfd).1,
      childOf_ofile_eq_iff.2 fun fd hfd => (h.ofile fd hfd).2⟩, rfl,
      (str_safestrcpy _ _ 15).trans (str_safestrcpy _ _ 15).symm, h.strace, h.killed,
      rfl, rfl, rfl, rfl, rfl, rfl, rfl, rfl, h.chan, h.xstate⟩

/-- **A new process and the last occupant of its slot.**  In two tables that differ only in slots
that are not in use, `fork` by the same parent takes the same slot.  The children agree, with the
open files of their parent, exactly when the old contents of the two slots agree in `strace`,
`killed`, `chan` and `xstate` and have no open file where the parent has none. -/
theorem fork_independent_iff (h : SameInUse s t) (hp : (s.proc p).state ≠ .unused)
    (hs : s.fork p mem = .ok (.child pid, s')) (ht : t.fork p mem' = .ok (.child pid', t')) :
    ∃ i, s.freeSlot = some i ∧ t.freeSlot = some i ∧
      (SameChild (s.proc p) (s'.proc i) (t'.proc i) ↔
        SameLeftovers (s.proc p) (s.proc i) (t.proc i)) := by
  have hpar := h.used p hp
  obtain ⟨i, tf, c, hi, htf, hc, hchild⟩ := fork_eq_child hp hs
  obtain ⟨i', tf', c', hi', htf', hc', hchild'⟩ := fork_eq_child (hpar ▸ hp) ht
  -- both take the same slot, and copy the same parent
  obtain rfl : i = i' := by
    rw [h.freeSlot_eq, hi] at hi'
    exact Option.some.inj hi'
  obtain rfl : tf = tf' := by
    rw [hpar, htf] at htf'
    exact Option.some.inj htf'
  obtain rfl : c = c' := by
    rw [mycont, hpar, ← mycont, hc] at hc'
    exact Option.some.inj hc'
  have hsame : t.childOf p tf c (t.proc i) = s.childOf p tf c (t.proc i) := by
    simp only [childOf, hpar, h.containers, h.nextpid]
  refine ⟨i, hi, h.freeSlot_eq.trans hi, ?_⟩
  rw [hchild, hchild', hsame]
  exact sameChild_childOf_iff

/-- The name, the numbers and the container of the last occupant do not matter. -/
theorem fork_independent_renamed : ∃ s₀ s t s' t', boot [] 0 = .ok s₀ ∧
    system.run s₀ [.dispatch 0 root 0] = some s ∧
    t = s.modifyProc 1 (fun q => { q with
      pid := 7, vpid := 3, container := some 1, name := chars "old" }) ∧
    s.fork 0 .ok = .ok (.child 2, s') ∧ t.fork 0 .ok = .ok (.child 2, t') ∧
    SameChild (s.proc 0) (s'.proc 1) (t'.proc 1) := by
  obtain ⟨s₀, s, t, s', t', hboot, hrun, ht, hs', ht', hused, hlive, hfree, hleft⟩ :
      ∃ s₀ s t s' t', boot [] 0 = .ok s₀ ∧ system.run s₀ [.dispatch 0 root 0] = some s ∧
        t = s.modifyProc 1 (fun q => { q with
          pid := 7, vpid := 3, container := some 1, name := chars "old" }) ∧
        s.fork 0 .ok = .ok (.child 2, s') ∧ t.fork 0 .ok = .ok (.child 2, t') ∧ SameInUse s t ∧
        (s.proc 0).state ≠ .unused ∧ s.freeSlot = some 1 ∧
        SameLeftovers (s.proc 0) (s.proc 1) (t.proc 1) :=
    ⟨_, _, _, _, _, rfl, rfl, rfl, rfl, rfl, .modifyProc rfl rfl, by decide, rfl,
      ⟨fun _ _ => ⟨rfl, rfl⟩, rfl, rfl, rfl, rfl⟩⟩
  obtain ⟨i, hi, -, hiff⟩ := fork_independent_iff hused hlive hs' ht'
  obtain rfl : 1 = i := Option.some.inj (hfree.symm.trans hi)
  exact ⟨s₀, s, t, s', t', hboot, hrun, ht, hs', ht', hiff.2 hleft⟩

/-- After `kill(0)` has marked a free slot, the next child is born killed. -/
theorem fork_inherits_killed : ∃ s₀ s t s' t', boot [] 0 = .ok s₀ ∧
    system.run s₀ [.dispatch 0 root 0] = some s ∧
    system.run s₀ [.dispatch 0 root 0, .call 0 (.control (.kill 0))] = some t ∧
    SameInUse s t ∧ s.fork 0 .ok = .ok (.child 2, s') ∧ t.fork 0 .ok = .ok (.child 2, t') ∧
    s.freeSlot = some 1 ∧ t.freeSlot = some 1 ∧
    (s'.proc 1).killed = false ∧ (t'.proc 1).killed = true ∧
    ¬ SameChild (s.proc 0) (s'.proc 1) (t'.proc 1) := by
  refine ⟨_, _, _, _, _, rfl, rfl, rfl, .modifyProc rfl rfl, rfl, rfl, rfl, rfl, rfl, rfl,
    fun h => ?_⟩
  exact absurd h.killed (by decide)

end Kernel

end Xv6Container
