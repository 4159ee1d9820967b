import Xv6Container.Proc.Moves
import Xv6Container.Stop.Books

/-!
# The rows of the process table

What the steps of the process system do to the files, the directories and the parents of the
processes.

* `Kernel.Tame` : a step leaves files, directories and parents alone, and frees only slots of
  processes that have exited; all steps but `fork`, `exit` and `cinit` are tame, `cstop` only if the
  processes of the container have exited (`Kernel.tame_cstop`);
* `Kernel.fork_child` : the child of a `fork` has the files and the directory of its parent;
* `Kernel.Rows.exit` : after `exit` nobody has the process as parent.
-/

namespace Xv6Container

open Function

namespace Kernel

variable {k k' : Kernel} {p q : Slot}

/-- A process keeps its files and its directory, and stays live or not. -/
structure Steady (x y : Proc) : Prop where
  ofile : y.ofile = x.ofile
  cwd : y.cwd = x.cwd
  live : y.Live ↔ x.Live

/-- A slot keeps its parent as well, and stays free or not. -/
structure SameRow (x y : Proc) : Prop extends Steady x y where
  parent : y.parent = x.parent
  unused : y.state = .unused ↔ x.state = .unused

/-- The slot of a process that has exited is freed. -/
structure Freed (x y : Proc) : Prop where
  ofile : y.ofile = x.ofile
  cwd : y.cwd = x.cwd
  dead : ¬x.Live
  unused : y.state = .unused

/-- Files, directories and parents stay; only slots of processes that have exited are freed. -/
structure Tame (k k' : Kernel) : Prop where
  initproc : k'.initproc = k.initproc
  row : ∀ q, SameRow (k.proc q) (k'.proc q) ∨ Freed (k.proc q) (k'.proc q)

theorem Steady.trans {x y z : Proc} (h : Steady x y) (h' : Steady y z) : Steady x z :=
  ⟨h'.ofile.trans h.ofile, h'.cwd.trans h.cwd, h'.live.trans h.live⟩

theorem SameRow.refl (x : Proc) : SameRow x x := ⟨⟨rfl, rfl, Iff.rfl⟩, rfl, Iff.rfl⟩

theorem sameRow_of_live {x y : Proc} (hx : x.Live) (hy : y.Live) (hofile : y.ofile = x.ofile)
    (hcwd : y.cwd = x.cwd) (hparent : y.parent = x.parent) : SameRow x y :=
  ⟨⟨hofile, hcwd, iff_of_true hy hx⟩, hparent, iff_of_false hy.1 hx.1⟩

theorem Tame.ofile (h : Tame k k') (q : Slot) : (k'.proc q).ofile = (k.proc q).ofile :=
  (h.row q).elim (·.ofile) (·.ofile)

theorem Tame.cwd (h : Tame k k') (q : Slot) : (k'.proc q).cwd = (k.proc q).cwd :=
  (h.row q).elim (·.cwd) (·.cwd)

theorem Tame.live (h : Tame k k') (hq : (k.proc q).Live) : (k'.proc q).Live :=
  (h.row q).elim (fun hs => hs.live.2 hq) fun hf => absurd hq hf.dead

theorem Tame.rows (h : Tame k k') (hr : k.Rows) (hcpu : ∀ q, k'.OnCpu q → (k'.proc q).Live) :
    k'.Rows := by
  refine ⟨fun q hq => ?_, hcpu, ?_, fun q hq hu => ?_⟩
  · rw [h.ofile, h.cwd]
    exact hr.idle q fun hl => hq (h.live hl)
  · rw [h.initproc]
    exact h.live hr.init
  · rw [h.initproc] at hq
    rcases h.row q with hs | hf
    · obtain ⟨r, hr, hl⟩ := hr.parent q hq (mt hs.unused.2 hu)
      exact ⟨r, hs.parent.trans hr, h.live hl⟩
    · exact absurd hf.unused hu

theorem tame_of_proc (hproc : k'.proc = k.proc) (hi : k'.initproc = k.initproc) : Tame k k' :=
  ⟨hi, fun q => .inl (by rw [hproc]; exact .refl _)⟩

theorem tame_modifyProc {g : Proc → Proc} {r : Slot}
    (h : SameRow (k.proc r) (g (k.proc r)) ∨ Freed (k.proc r) (g (k.proc r))) :
    Tame k (k.modifyProc r g) :=
  ⟨rfl, fun q => modifyProc_ind h (fun _ _ => .inl (.refl _)) q⟩

theorem Tame.setCpus (h : Tame k k') (cpus : Fin NCPU → Option Slot) :
    Tame k { k' with cpus := cpus } := ⟨h.initproc, h.row⟩

theorem tame_sleep (hp : (k.proc p).Live) (chan : Chan) : Tame k (k.sleep p chan) :=
  (tame_modifyProc (.inl (sameRow_of_live hp (by simp [Proc.Live]) rfl rfl rfl))).setCpus _

theorem tame_yield (hp : (k.proc p).Live) : Tame k (k.yield p) :=
  (tame_modifyProc (.inl (sameRow_of_live hp (by simp [Proc.Live]) rfl rfl rfl))).setCpus _

theorem tame_wait (hp : (k.proc p).Live) (b : Bool) : Tame k (k.wait p b).2 := by
  unfold wait
  split
  · rename_i np hnp
    have hz : (k.proc np).parent = some p ∧ (k.proc np).state = .zombie := by
      simpa using findProc_spec hnp
    split
    · exact tame_of_proc rfl rfl
    · exact tame_modifyProc (.inr ⟨rfl, rfl, fun h => h.2 hz.2, rfl⟩)
  · dsimp only
    split
    · exact tame_of_proc rfl rfl
    · exact tame_sleep hp _

theorem tame_wakeup (chan : Chan) : Tame k (k.wakeup chan) := by
  refine ⟨rfl, fun q => .inl ?_⟩
  simp only [wakeup]
  split
  · rename_i h
    exact sameRow_of_live (by simp [Proc.Live, h.1]) (by simp [Proc.Live]) rfl rfl rfl
  · exact .refl _

theorem sameRow_kill (x : Proc) : SameRow x x.kill := by
  refine ⟨⟨rfl, rfl, ?_⟩, rfl, ?_⟩ <;> unfold Proc.kill <;> cases hx : x.state <;>
    simp [Proc.Live, hx]

theorem tame_kill (pid : ℤ) : Tame k (k.kill p pid).2 := by
  unfold kill
  split
  · exact tame_of_proc rfl rfl
  · split
    · exact tame_of_proc rfl rfl
    · exact tame_modifyProc (.inl (sameRow_kill _))

theorem tame_suspend {pid : ℤ} {f : Sink} {r : ℤ} {out : Output}
    (hl : ∀ q, k.suspendTarget pid = some q → (k.proc q).Live)
    (h : k.suspend pid f = .ok (r, k', out)) : Tame k k' := by
  unfold suspend at h
  split at h
  · cases h
    exact tame_of_proc rfl rfl
  · rename_i t ht
    obtain ⟨items, -, h⟩ := bind_eq_ok.1 h
    cases h
    exact tame_modifyProc (.inl (sameRow_of_live (hl t ht) (by simp [Proc.Live]) rfl rfl rfl))

theorem tame_cstop {name : CharArray} (hdead : k.mycont p = some root → ∀ c,
    k.contNamed name = some c → ∀ q, (k.proc q).container = some c → ¬(k.proc q).Live) :
    Tame k (k.cstop p name).2 := by
  refine onCont_ind (P := Tame k) (tame_of_proc rfl rfl) fun c hroot hc => ⟨rfl, fun q => ?_⟩
  by_cases hq : (k.proc q).container = some c
  · refine .inr ?_
    rw [show ((k.modifyCont c fun x => { x with state := .cunused }).freeprocs c).proc q = _ from
      if_pos hq]
    exact ⟨rfl, rfl, hdead hroot c hc q hq, rfl⟩
  · refine .inl ?_
    rw [show ((k.modifyCont c fun x => { x with state := .cunused }).freeprocs c).proc q = _ from
      if_neg hq]
    exact .refl _

theorem tame_of_memOnly (h : MemOnly k k') : Tame k k' := tame_of_proc h.proc h.initproc

/-- The slot `i` after a `fork` of `p` that is not refused. -/
structure Child (k : Kernel) (p i : Slot) (k' : Kernel) : Prop where
  free : k.freeSlot = some i
  proc : ∀ q, q ≠ i → k'.proc q = k.proc q
  initproc : k'.initproc = k.initproc
  cpus : k'.cpus = k.cpus
  live : (k'.proc i).Live
  parent : (k'.proc i).parent = some p
  ofile : ∀ fd, (k'.proc i).ofile fd =
    if (k.proc p).ofile fd = none then (k.proc i).ofile fd else (k.proc p).ofile fd
  cwd : (k'.proc i).cwd = (k.proc p).cwd

/-- What a `fork` does to files, directories and parents. -/
theorem fork_child {mem : ForkMem} {o : ForkOutcome} (hp : (k.proc p).Live)
    (h : k.fork p mem = .ok (o, k')) :
    (o = .noProc ∨ o = .noMemory) ∧ Tame k k' ∨ o = .limit ∨
      ∃ pid i, o = .child pid ∧ Child k p i k' := by
  cases forked_of_fork h with
  | full => exact .inl ⟨.inl rfl, tame_of_proc rfl rfl⟩
  | @freed _ i x hi hx _ _ ho =>
    obtain ⟨ho, hofile, hcwd⟩ | ⟨ho, -⟩ := ho
    · have := tame_modifyProc (k := k) (r := i) (g := fun _ => x)
        (.inr ⟨hofile, hcwd, fun hl => hl.1 (state_of_freeSlot hi), hx⟩)
      exact .inl ⟨ho, rfl, this.row⟩
    · exact .inr (.inl ho)
  | @child i par tf c hi hpar hc =>
    have hpi : p ≠ i := by
      rintro rfl
      exact hp.1 (state_of_freeSlot hi)
    obtain ⟨rfl, -⟩ := hpar hpi
    refine .inr (.inr ⟨_, i, rfl, hi, fun q hq => ?_, rfl, rfl, ?_, ?_, fun fd => ?_, ?_⟩)
    · rw [claimSlot_proc_of_ne _ hq]
      rfl
    all_goals simp [forkCopy, Proc.Live]

/-! ### `exit` -/

/-- All slots keep their row, and the CPUs their processes. -/
structure Kept (k k' : Kernel) : Prop where
  initproc : k'.initproc = k.initproc
  cpus : k'.cpus = k.cpus
  row : ∀ q, SameRow (k.proc q) (k'.proc q)

theorem Kept.rows (h : Kept k k') (hr : k.Rows) : k'.Rows :=
  have ht : Tame k k' := ⟨h.initproc, fun q => .inl (h.row q)⟩
  ht.rows hr fun q hq => ht.live (hr.cpu q (hq.of_eq h.cpus))

theorem kept_wakeup1 (r : Slot) : Kept k (k.wakeup1 r) := by
  unfold wakeup1
  split
  · rename_i h
    refine ⟨rfl, rfl, fun q => modifyProc_ind ?_ (fun _ _ => .refl _) q⟩
    exact sameRow_of_live (by simp [Proc.Live, h.2]) (by simp [Proc.Live]) rfl rfl rfl
  · exact ⟨rfl, rfl, fun _ => .refl _⟩

theorem Rows.reparent (h : k.Rows) (hp : p ≠ k.initproc) : (k.reparent p).Rows ∧
    ∀ q, Steady (k.proc q) ((k.reparent p).proc q) ∧ ((k.reparent p).proc q).parent ≠ some p := by
  have hcases : ∀ q, (k.proc q).parent = some p ∧
      (k.reparent p).proc q = { k.proc q with parent := some k.initproc } ∨
      (k.proc q).parent ≠ some p ∧ (k.reparent p).proc q = k.proc q := fun q => by
    by_cases hq : (k.proc q).parent = some p
    · exact .inl ⟨hq, if_pos hq⟩
    · exact .inr ⟨hq, if_neg hq⟩
  have hsteady : ∀ q, Steady (k.proc q) ((k.reparent p).proc q) := fun q => by
    rcases hcases q with ⟨-, hq⟩ | ⟨-, hq⟩ <;> rw [hq] <;> exact ⟨rfl, rfl, Iff.rfl⟩
  refine ⟨⟨fun q hq => ?_, fun q hq => (hsteady q).live.2 (h.cpu q hq), (hsteady _).live.2 h.init,
    fun q hq hu => ?_⟩, fun q => ⟨hsteady q, ?_⟩⟩
  · rw [(hsteady q).ofile, (hsteady q).cwd]
    exact h.idle q (mt (hsteady q).live.2 hq)
  · rcases hcases q with ⟨-, he⟩ | ⟨-, he⟩ <;> rw [he] at hu ⊢
    · exact ⟨k.initproc, rfl, (hsteady _).live.2 h.init⟩
    · obtain ⟨r, hr, hl⟩ := h.parent q hq hu
      exact ⟨r, hr, (hsteady r).live.2 hl⟩
  · rcases hcases q with ⟨-, he⟩ | ⟨hne, he⟩ <;> rw [he]
    · exact fun e => hp (Option.some.inj e).symm
    · exact hne

/-- A process that is the parent of nobody leaves its CPU. -/
theorem Rows.leave (h : k.Rows) (hp : p ≠ k.initproc) (hlive : (k.proc p).Live)
    (hno : ∀ q, (k.proc q).parent ≠ some p) (hofile : ∀ fd, (k.proc p).ofile fd = none)
    (hcwd : (k.proc p).cwd = none) {f : Proc → Proc}
    (hf : ∀ x, (f x).ofile = x.ofile ∧ (f x).cwd = x.cwd ∧ (f x).parent = x.parent) :
    ((k.modifyProc p f).sched p).Rows := by
  have hparent : ∀ {q r}, (k.proc q).parent = some r ∧ (k.proc r).Live →
      (k.proc q).parent = some r ∧ ((k.modifyProc p f).proc r).Live := fun ⟨hr, hl⟩ =>
    ⟨hr, by rwa [modifyProc_proc_of_ne _ fun e => hno _ (e ▸ hr)]⟩
  have hinit : ((k.modifyProc p f).sched p).initproc = k.initproc := rfl
  refine ⟨fun q => ?_, fun q hq => ?_, ?_, fun q => ?_⟩
  · rw [sched_proc]
    refine modifyProc_ind (fun _ => ?_) (fun q _ => h.idle q) q
    rw [(hf _).1, (hf _).2.1]
    exact ⟨hofile, hcwd⟩
  · obtain ⟨hq, hqp⟩ := onCpu_sched.1 hq
    rw [sched_proc, modifyProc_proc_of_ne _ hqp]
    exact h.cpu q hq
  · rw [hinit, sched_proc, modifyProc_proc_of_ne _ hp.symm]
    exact h.init
  · rw [sched_proc]
    refine modifyProc_ind (fun _ _ => ?_) (fun q _ hq hu => ?_) q
    · rw [(hf _).2.2]
      exact (h.parent p hp hlive.1).imp fun _ => hparent
    · exact (h.parent q hq hu).imp fun _ => hparent

/-- `exit` of a process that has closed its files and left its directory. -/
theorem Rows.exit (h : k.Rows) (hp : p ≠ k.initproc) (hlive : (k.proc p).Live) (par : Slot)
    (status : ℤ) (hofile : ∀ fd, (k.proc p).ofile fd = none) (hcwd : (k.proc p).cwd = none)
    (hk : k' = (k.exitClose p).exitLeave p par status) :
    k'.Rows ∧ (∀ q, (k'.proc q).ofile = (k.proc q).ofile ∧ (k'.proc q).cwd = (k.proc q).cwd) ∧
      ∀ q, q ≠ p → ((k'.proc q).Live ↔ (k.proc q).Live) := by
  have hclear : Kept k (k.modifyProc p fun q => { q with ofile := fun _ => none, cwd := none }) :=
    ⟨rfl, rfl, fun q => modifyProc_ind ⟨⟨(funext hofile).symm, hcwd.symm, Iff.rfl⟩, rfl, Iff.rfl⟩
      (fun _ _ => .refl _) q⟩
  have hwake : Kept _ (k.exitClose p) := kept_wakeup1 k.initproc
  obtain ⟨hrows, hgive⟩ := Rows.reparent (k := k.exitClose p) (p := p)
    (hwake.rows (hclear.rows h)) (hwake.initproc.symm ▸ hp)
  have hwake' := kept_wakeup1 (k := (k.exitClose p).reparent p) par
  obtain ⟨k₄, hk4⟩ : ∃ k₄, k₄ = ((k.exitClose p).reparent p).wakeup1 par := ⟨_, rfl⟩
  rw [← hk4] at hwake'
  have hsteady : ∀ q, Steady (k.proc q) (k₄.proc q) := fun q =>
    (hclear.row q).toSteady.trans ((hwake.row q).toSteady.trans
      ((hgive q).1.trans (hwake'.row q).toSteady))
  have hinit : k₄.initproc = k.initproc := hwake'.initproc.trans hwake.initproc
  have hleave := fun f => Rows.leave (f := f) (hwake'.rows hrows) (hinit.symm ▸ hp)
    ((hsteady p).live.2 hlive) (fun q => by rw [(hwake'.row q).parent]; exact (hgive q).2)
    (fun fd => by rw [(hsteady p).ofile, hofile]) ((hsteady p).cwd.trans hcwd)
  have hk' : k' =
      (k₄.modifyProc p fun q => { q with xstate := status, state := .zombie }).sched p := by
    rw [hk, hk4]
    rfl
  rw [hk', sched_proc]
  refine ⟨hleave _ fun _ => ⟨rfl, rfl, rfl⟩, fun q => ?_, fun q hq => ?_⟩
  · refine modifyProc_ind ?_ (fun q _ => ⟨(hsteady q).ofile, (hsteady q).cwd⟩) q
    exact ⟨(hsteady p).ofile, (hsteady p).cwd⟩
  · rw [modifyProc_proc_of_ne _ hq]
    exact (hsteady q).live

end Kernel

end Xv6Container
