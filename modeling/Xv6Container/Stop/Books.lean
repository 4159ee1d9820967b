import Xv6Container.Stop.Basic

/-!
# The books of the kernel

The counters of the kernel are right when each counts what processes hold: the reference count of a
file its descriptors, that of an inode the current directories, the open files and the local
variables that refer to it, and `log.outstanding` the processes in a transaction.

* `Kernel.Rows` : processes that have exited hold nothing, and nobody has one as parent;
* `Resources.Books` : the counters are right;
* `Resources.Books.move` : a call of one process keeps the books when the counters change by what
  the process takes or gives back.
-/

namespace Xv6Container

open Function

/-- The number of references of a process to the inode `i` by its current directory. -/
def Proc.cwds (q : Proc) (i : ℕ) : ℕ := if q.cwd = some i then 1 else 0

/-- The process table: those that have exited have closed their files and left their directory,
those in use other than `init` have a live parent. -/
structure Kernel.Rows (k : Kernel) : Prop where
  idle : ∀ p, ¬(k.proc p).Live → (∀ fd, (k.proc p).ofile fd = none) ∧ (k.proc p).cwd = none
  cpu : ∀ p, k.OnCpu p → (k.proc p).Live
  init : (k.proc k.initproc).Live
  parent : ∀ p, p ≠ k.initproc → (k.proc p).state ≠ .unused →
    ∃ q, (k.proc p).parent = some q ∧ (k.proc q).Live

namespace Resources

variable {s s' : Resources} {p q : Slot} {f i : ℕ}

/-- The descriptors that refer to the file `f`. -/
def fdRefs (s : Resources) (f : ℕ) : ℕ := ∑ p, (s.kern.proc p).fds f

/-- The references of processes to the inode `i`. -/
def procRefs (s : Resources) (i : ℕ) : ℕ :=
  ∑ p, ((s.kern.proc p).cwds i + (s.holding p).inodes.count i)

/-- The files on the inode `i`. -/
def fileRefs (s : Resources) (i : ℕ) : ℕ :=
  ∑ f ∈ Finset.range NFILE, if (s.file f).ip = some i then 1 else 0

/-- The processes in a transaction. -/
def ops (s : Resources) : ℕ := ∑ p, (s.holding p).op.toNat

/-- The counters are right. -/
structure Books (s : Resources) : Prop where
  rows : s.kern.Rows
  idle : ∀ p, ¬(s.kern.proc p).Live → s.holding p = .nothing
  ref : ∀ f, (s.file f).ref = s.fdRefs f
  ip : ∀ f, (s.file f).ref = 0 ∨ NFILE ≤ f → (s.file f).ip = none
  iref : ∀ i, s.iref i = s.procRefs i + s.fileRefs i + s.lost i
  holder : ∀ l p, s.holder l = some p ↔ l ∈ (s.holding p).locks
  nodup : ∀ p, (s.holding p).locks.Nodup
  outstanding : s.outstanding = s.ops

/-- A call of the live process `p`: nothing else changes than what `p` holds, and the counters. -/
structure Local (s s' : Resources) (p : Slot) : Prop where
  proc : ∀ q, q ≠ p → s'.kern.proc q = s.kern.proc q
  holding : ∀ q, q ≠ p → s'.holding q = s.holding q
  state : (s'.kern.proc p).state = (s.kern.proc p).state
  parent : (s'.kern.proc p).parent = (s.kern.proc p).parent
  initproc : s'.kern.initproc = s.kern.initproc
  cpus : s'.kern.cpus = s.kern.cpus

theorem Local.rows (hl : Local s s' p) (h : s.kern.Rows) (hp : (s.kern.proc p).Live) :
    s'.kern.Rows := by
  obtain ⟨hproc, -, hstate, hparent, hinit, hcpus⟩ := hl
  have hst : ∀ q, (s'.kern.proc q).state = (s.kern.proc q).state := by grind
  have hpar : ∀ q, (s'.kern.proc q).parent = (s.kern.proc q).parent := by grind
  have hlive : ∀ q, (s'.kern.proc q).Live ↔ (s.kern.proc q).Live := by grind [Proc.Live]
  refine ⟨?_, fun q hq => ?_, ?_, ?_⟩
  · grind [h.idle]
  · rw [hlive]
    rw [Kernel.OnCpu, hcpus] at hq
    exact h.cpu q hq
  · grind [h.init]
  · grind [h.parent]

/-- A call of a live process keeps the books when the counters change as what it holds. -/
theorem Books.move (h : s.Books) (hp : (s.kern.proc p).Live) (hl : Local s s' p)
    (href : ∀ f, (s'.file f).ref + (s.kern.proc p).fds f = (s.file f).ref + (s'.kern.proc p).fds f)
    (hip : ∀ f, (s'.file f).ref = 0 ∨ NFILE ≤ f → (s'.file f).ip = none)
    (hiref : ∀ i, s'.iref i + s.fileRefs i + s.lost i +
        ((s.kern.proc p).cwds i + (s.holding p).inodes.count i : ℕ) =
      s.iref i + s'.fileRefs i + s'.lost i +
        ((s'.kern.proc p).cwds i + (s'.holding p).inodes.count i : ℕ))
    (hholder : ∀ l q, s'.holder l = some q ↔ l ∈ (s'.holding q).locks)
    (hnodup : (s'.holding p).locks.Nodup)
    (hop : s'.outstanding + (s.holding p).op.toNat = s.outstanding + (s'.holding p).op.toNat) :
    s'.Books := by
  refine ⟨hl.rows h.rows hp, fun q hq => ?_, fun f => ?_, hip, fun i => ?_, hholder, fun q => ?_,
    ?_⟩
  · grind [hl.proc q, hl.holding q, hl.state, h.idle q, Proc.Live]
  · have hsum : s'.fdRefs f + (s.kern.proc p).fds f = s.fdRefs f + (s'.kern.proc p).fds f :=
      sum_change (f := fun q => (s.kern.proc q).fds f) (g := fun q => (s'.kern.proc q).fds f)
        fun q hq => by rw [hl.proc q hq]
    have := href f
    have := h.ref f
    omega
  · have hsum : s'.procRefs i + ((s.kern.proc p).cwds i + (s.holding p).inodes.count i) =
        s.procRefs i + ((s'.kern.proc p).cwds i + (s'.holding p).inodes.count i) :=
      sum_change (f := fun q => (s.kern.proc q).cwds i + (s.holding q).inodes.count i)
        (g := fun q => (s'.kern.proc q).cwds i + (s'.holding q).inodes.count i)
        fun q hq => by rw [hl.proc q hq, hl.holding q hq]
    have := hiref i
    have := h.iref i
    omega
  · grind [hl.holding q, h.nodup q]
  · have hsum : s'.ops + (s.holding p).op.toNat = s.ops + (s'.holding p).op.toNat :=
      sum_change (f := fun q => (s.holding q).op.toNat)
        (g := fun q => (s'.holding q).op.toNat) fun q hq => by rw [hl.holding q hq]
    have := h.outstanding
    omega

/-! ### Calls that do not touch the process table -/

theorem hold_holding_self (g : Holding → Holding) : (s.hold p g).holding p = g (s.holding p) :=
  update_self ..

theorem hold_holding_of_ne (g : Holding → Holding) (hq : q ≠ p) :
    (s.hold p g).holding q = s.holding q := update_of_ne hq ..

variable {g : Holding → Holding} {fd : Fin NOFILE}

theorem locks_hold
    (hg : (g (s.holding p)).locks = (s.holding p).locks) (q : Slot) :
    ((s.hold p g).holding q).locks = (s.holding q).locks := by
  by_cases hq : q = p
  · rw [hq, hold_holding_self, hg]
  · rw [hold_holding_of_ne g hq]

/-- A call that changes what the process holds, and no files. -/
theorem Books.hold (h : s.Books) (hp : (s.kern.proc p).Live) (g : Holding → Holding)
    (iref : ℕ → ℤ) (outstanding : ℤ) (hg : (g (s.holding p)).locks = (s.holding p).locks)
    (hiref : ∀ i, iref i + (s.holding p).inodes.count i =
      s.iref i + (g (s.holding p)).inodes.count i)
    (hop : outstanding + (s.holding p).op.toNat = s.outstanding + (g (s.holding p)).op.toNat) :
    Books { s.hold p g with iref := iref, outstanding := outstanding } := by
  have hself : Resources.holding { s.hold p g with iref := iref, outstanding := outstanding } p =
    g (s.holding p) := hold_holding_self g
  refine h.move (p := p) hp ⟨fun _ _ => rfl, fun q hq => hold_holding_of_ne g hq, rfl, rfl, rfl,
    rfl⟩ (fun _ => rfl) h.ip (fun i => ?_) (fun l q => ?_) (by rw [hself, hg]; exact h.nodup p) ?_
  · have hi := hiref i
    rw [hself, show fileRefs { s.hold p g with iref := iref, outstanding := outstanding } i =
      s.fileRefs i from rfl]
    simp only [Resources.hold]
    push_cast
    omega
  · rw [show (Resources.holding _ q).locks = _ from locks_hold hg q]
    exact h.holder l q
  · rw [hself]
    exact hop

theorem Books.beginOp (h : s.Books) (hp : (s.kern.proc p).Live) (hst : s.beginOp p = some s') :
    s'.Books := by
  rw [Resources.beginOp] at hst
  split at hst
  · cases hst
  · rename_i hop
    cases hst
    exact h.hold hp _ s.iref _ rfl (fun _ => rfl) (by simp [Bool.eq_false_iff.2 hop])

theorem Books.endOp (h : s.Books) (hp : (s.kern.proc p).Live) (hst : s.endOp p = some s') :
    s'.Books := by
  obtain ⟨hop, hst⟩ := Option.ite_none_right_eq_some.1 hst
  cases hst
  exact h.hold hp _ s.iref _ rfl (fun _ => rfl) (by simp [hop])

theorem addRef_iref (i j : ℕ) (n : ℤ) :
    (s.addRef i n).iref j = s.iref j + if j = i then n else 0 := by
  by_cases hj : j = i
  · subst hj
    simp [addRef]
  · simp [addRef, hj]

theorem count_cons_ite (i j : ℕ) (l : List ℕ) :
    ((i :: l).count j : ℤ) = l.count j + if j = i then 1 else 0 := by
  rw [List.count_cons]
  by_cases hj : j = i
  · simp [hj]
  · simp [hj, Ne.symm hj]

theorem count_erase_ite {i : ℕ} {l : List ℕ} (hi : i ∈ l) (j : ℕ) :
    ((l.erase i).count j : ℤ) = l.count j - if j = i then 1 else 0 := by
  have h := count_cons_ite i j (l.erase i)
  rw [← (List.perm_cons_erase hi).count_eq] at h
  omega

theorem hold_id : s.hold p id = s := by
  rw [Resources.hold, id, update_eq_self]

section

variable (h : s.Books) (hp : (s.kern.proc p).Live)

include h hp

theorem Books.iget (i : ℕ) : (s.iget p i).Books := by
  refine h.hold hp (fun x => { x with inodes := i :: x.inodes }) (s.addRef i 1).iref s.outstanding
    rfl (fun j => ?_) rfl
  rw [addRef_iref, count_cons_ite]
  ring

theorem Books.iput (hst : s.iput p i = some s') : s'.Books := by
  obtain ⟨hi, hst⟩ := Option.ite_none_right_eq_some.1 hst
  cases hst
  refine h.hold hp (fun x => { x with inodes := x.inodes.erase i }) (s.addRef i (-1)).iref
    s.outstanding rfl (fun j => ?_) rfl
  rw [addRef_iref, count_erase_ite hi]
  split <;> ring

theorem Books.lock (g : Holding → Holding) (holder : SleepLock → Option Slot)
    (hi : (g (s.holding p)).inodes = (s.holding p).inodes)
    (hop : (g (s.holding p)).op = (s.holding p).op)
    (hholder : ∀ l q, holder l = some q ↔ l ∈ ((s.hold p g).holding q).locks)
    (hnodup : (g (s.holding p)).locks.Nodup) : Books { s.hold p g with holder := holder } := by
  have hself := hold_holding_self (s := s) (p := p) g
  refine h.move (p := p) hp ⟨fun _ _ => rfl, fun q hq => hold_holding_of_ne g hq, rfl, rfl, rfl,
    rfl⟩ (fun f => rfl) h.ip (fun i => ?_) hholder ?_ ?_
  · rw [show Resources.holding _ p = _ from hself, hi]
    rfl
  · rw [show Resources.holding _ p = _ from hself]
    exact hnodup
  · rw [show Resources.holding _ p = _ from hself, hop]
    rfl

theorem Books.acquiresleep {l : SleepLock} (hst : s.acquiresleep p l = some s') : s'.Books := by
  obtain ⟨hfree, hst⟩ := Option.ite_none_right_eq_some.1 hst
  cases hst
  have hno : ∀ q, l ∉ (s.holding q).locks := fun q hl => by
    rw [(h.holder l q).2 hl] at hfree
    cases hfree
  refine h.lock hp (fun x => { x with locks := l :: x.locks }) (update s.holder l (some p)) rfl rfl
    (fun m q => ?_) (List.nodup_cons.2 ⟨hno p, h.nodup p⟩)
  simp only [Resources.hold, update_apply]
  grind [h.holder m q]

theorem Books.releasesleep {l : SleepLock} (hst : s.releasesleep p l = some s') : s'.Books := by
  obtain ⟨hl, hst⟩ := Option.ite_none_right_eq_some.1 hst
  cases hst
  have hholds := (h.holder l p).2 hl
  refine h.lock hp (fun x => { x with locks := x.locks.erase l }) (update s.holder l none) rfl rfl
    (fun m q => ?_) ((h.nodup p).erase l)
  simp only [Resources.hold, update_apply]
  grind [h.holder m q, (h.nodup p).mem_erase_iff (b := l) (a := m)]

end

/-! ### Calls that change the open files or the current directory -/

theorem fds_setFd (x : Proc) (fd : Fin NOFILE) (y : Option ℕ) (f : ℕ) :
    (x.setFd fd y).fds f + (if x.ofile fd = some f then 1 else 0) =
      x.fds f + if y = some f then 1 else 0 := by
  have h := sum_change (p := fd) (f := fun d => if x.ofile d = some f then 1 else 0)
    (g := fun d => if update x.ofile fd y d = some f then 1 else 0)
    fun d hd => by rw [update_of_ne hd]
  simp only [update_self] at h
  exact h

theorem fileRefs_update {x : FileEntry} (hf : f < NFILE) (t : Resources)
    (ht : t.file = update s.file f x) (i : ℕ) :
    t.fileRefs i + (if (s.file f).ip = some i then 1 else 0) =
      s.fileRefs i + if x.ip = some i then 1 else 0 := by
  have hmem := Finset.mem_range.2 hf
  rw [fileRefs, fileRefs, ht, ← Finset.add_sum_erase _ _ hmem, ← Finset.add_sum_erase _ _ hmem,
    update_self]
  have hrest : ∑ g ∈ (Finset.range NFILE).erase f,
      (if (update s.file f x g).ip = some i then 1 else 0) =
      ∑ g ∈ (Finset.range NFILE).erase f, if (s.file g).ip = some i then 1 else 0 :=
    Finset.sum_congr rfl fun g hg => by rw [update_of_ne (Finset.ne_of_mem_erase hg)]
  rw [hrest]
  ring

section

variable (h : s.Books) (hp : (s.kern.proc p).Live)

include h hp

/-- A call that changes one descriptor, and the file `f` that it refers to before or afterwards. -/
theorem Books.setFd (fd : Fin NOFILE) (y : Option ℕ) (x : FileEntry) (hd : Holding)
    (hf : f < NFILE ∨ x.ip = none)
    (hold : (s.kern.proc p).ofile fd = none ∨ (s.kern.proc p).ofile fd = some f)
    (hy : y = none ∨ y = some f)
    (href : x.ref + (if (s.kern.proc p).ofile fd = some f then 1 else 0) =
      (s.file f).ref + if y = some f then 1 else 0) (hx : x.ref = 0 → x.ip = none)
    (hinodes : ∀ i, (if x.ip = some i then 1 else 0) + hd.inodes.count i =
      (if (s.file f).ip = some i then 1 else 0) + (s.holding p).inodes.count i)
    (hlocks : hd.locks = (s.holding p).locks) (hop : hd.op = (s.holding p).op) : Books { s with
      kern := s.kern.modifyProc p fun q => q.setFd fd y
      file := update s.file f x
      holding := update s.holding p hd } := by
  obtain ⟨t, ht⟩ : ∃ t : Resources, t = { s with
    kern := s.kern.modifyProc p fun q => q.setFd fd y
    file := update s.file f x
    holding := update s.holding p hd } := ⟨_, rfl⟩
  have hproc : ∀ q, t.kern.proc q = if q = p then (s.kern.proc p).setFd fd y else s.kern.proc q :=
    fun q => by rw [ht]; exact update_apply ..
  have hholding : ∀ q, t.holding q = if q = p then hd else s.holding q :=
    fun q => by rw [ht]; exact update_apply ..
  have hfile : t.file = update s.file f x := by rw [ht]
  have hrest : t.iref = s.iref ∧ t.lost = s.lost ∧ t.holder = s.holder ∧
      t.outstanding = s.outstanding ∧ t.kern.initproc = s.kern.initproc ∧
      t.kern.cpus = s.kern.cpus := by simp [ht]
  have hset : ((s.kern.proc p).setFd fd y).state = (s.kern.proc p).state ∧
      ((s.kern.proc p).setFd fd y).parent = (s.kern.proc p).parent ∧
      ∀ i, ((s.kern.proc p).setFd fd y).cwds i = (s.kern.proc p).cwds i := ⟨rfl, rfl, fun _ => rfl⟩
  rw [← ht]
  refine h.move (p := p) hp ⟨by grind, by grind, by grind, by grind, by grind, by grind⟩
    (fun g => ?_) (fun g hg => ?_) (fun i => ?_) (fun l q => ?_) ?_ ?_
  · have hfds := fds_setFd (s.kern.proc p) fd y g
    rw [hproc, if_pos rfl, hfile, update_apply]
    grind
  · rw [hfile, update_apply] at hg ⊢
    grind [h.ip g]
  · have hrefs : (t.fileRefs i + (if (s.file f).ip = some i then 1 else 0) : ℕ) =
        s.fileRefs i + if x.ip = some i then 1 else 0 := by
      by_cases hfn : f < NFILE
      · exact fileRefs_update hfn t hfile i
      · have hnone := h.ip f (.inr (not_lt.1 hfn))
        have hsame : t.fileRefs i = s.fileRefs i := by
          refine Finset.sum_congr rfl fun g hg => ?_
          have hgf : g ≠ f := fun e => hfn (e ▸ Finset.mem_range.1 hg)
          rw [hfile, update_of_ne hgf]
        simp [hsame, hnone, hf.resolve_left hfn]
    have := hinodes i
    rw [hholding, if_pos rfl, hproc, if_pos rfl, hset.2.2, hrest.1, hrest.2.1]
    push_cast
    omega
  · grind [h.holder l q]
  · grind [h.nodup p]
  · grind

section

variable {ip : Option ℕ}
    (hinodes : ∀ i, (if ip = some i then 1 else 0) + (g (s.holding p)).inodes.count i =
      (s.holding p).inodes.count i) (hlocks : (g (s.holding p)).locks = (s.holding p).locks)
    (hop : (g (s.holding p)).op = (s.holding p).op)

include hinodes hlocks hop

theorem Books.newFile (hst : (s.hold p g).newFile p fd f ip = some s') : s'.Books := by
  obtain ⟨⟨hf, hfree, hfd⟩, hst⟩ := Option.ite_none_right_eq_some.1 hst
  cases hst
  have hfree : (s.file f).ref = 0 := hfree
  have hfd : (s.kern.proc p).ofile fd = none := hfd
  refine h.setFd hp fd (some f) ⟨1, ip⟩ _ (.inl hf) (.inl hfd) (.inr rfl) ?_ (by simp) (fun i => ?_)
    hlocks hop
  · simp [hfree, hfd]
  · rw [h.ip f (.inl hfree)]
    simpa using hinodes i

theorem Books.setCwd (hst : (s.hold p g).setCwd p ip = some s') : s'.Books := by
  rw [Resources.setCwd] at hst
  split at hst
  · cases hst
  · rename_i j hj
    cases hst
    have hj : (s.kern.proc p).cwd = some j := hj
    obtain ⟨t, ht⟩ : ∃ t, t = ((s.hold p g).addRef j (-1)).onProc p fun q => { q with cwd := ip } :=
      ⟨_, rfl⟩
    have hproc : ∀ q, t.kern.proc q = if q = p then { s.kern.proc p with cwd := ip }
        else s.kern.proc q := fun q => by rw [ht]; exact update_apply ..
    have hholding : t.holding = (s.hold p g).holding := by rw [ht]; rfl
    have hself : t.holding p = g (s.holding p) := by rw [hholding, hold_holding_self]
    have hrest : t.lost = s.lost ∧ t.holder = s.holder ∧ t.outstanding = s.outstanding ∧
        t.kern.initproc = s.kern.initproc ∧ t.kern.cpus = s.kern.cpus ∧ t.file = s.file ∧
        t.iref = (s.addRef j (-1)).iref := by
      rw [ht]
      exact ⟨rfl, rfl, rfl, rfl, rfl, rfl, rfl⟩
    rw [← ht]
    refine h.move (p := p) hp ⟨by grind, fun q hq => ?_, by grind, by grind, by grind, by grind⟩
      (fun f => ?_) (hrest.2.2.2.2.2.1 ▸ h.ip) (fun i => ?_) (fun l q => ?_) ?_ ?_
    · rw [hholding, hold_holding_of_ne g hq]
    · rw [hproc, if_pos rfl, hrest.2.2.2.2.2.1]
      rfl
    · have hadd : t.iref i = s.iref i - if j = i then 1 else 0 := by
        rw [hrest.2.2.2.2.2.2, addRef_iref]
        grind
      have hfile : t.fileRefs i = s.fileRefs i := by rw [fileRefs, hrest.2.2.2.2.2.1]; rfl
      have hold : (s.kern.proc p).cwds i = if j = i then 1 else 0 := by
        simp only [Proc.cwds, hj, Option.some.injEq]
      have hnew : (t.kern.proc p).cwds i = if ip = some i then 1 else 0 := by
        rw [hproc, if_pos rfl]
        rfl
      rw [hself, hold, hnew, hadd, hfile, hrest.1]
      have hi := congrArg (Nat.cast : ℕ → ℤ) (hinodes i)
      push_cast at hi ⊢
      linarith
    · rw [hholding, locks_hold hlocks, hrest.2.1]
      exact h.holder l q
    · rw [hself, hlocks]
      exact h.nodup p
    · rw [hself, hop, hrest.2.2.1]

end

theorem Books.openFile (hst : s.openFile p fd f i = some s') : s'.Books := by
  obtain ⟨hi, hst⟩ := Option.ite_none_right_eq_some.1 hst
  refine h.newFile hp (fun j => ?_) rfl rfl hst
  have hc := count_erase_ite hi j
  simp only [Option.some.injEq, eq_comm (a := i)]
  split at hc <;> simp_all

theorem Books.newPipe (hst : s.newFile p fd f none = some s') : s'.Books := by
  rw [← hold_id (s := s) (p := p)] at hst
  exact h.newFile hp (fun i => by simp) rfl rfl hst

theorem Books.dup {fd' : Fin NOFILE} (hst : s.dup p fd fd' = some s') : s'.Books := by
  rw [Resources.dup] at hst
  split at hst
  · cases hst
  · rename_i f hfd
    obtain ⟨⟨hfd', hpos⟩, hst⟩ := Option.ite_none_right_eq_some.1 hst
    cases hst
    have := h.setFd hp fd' (some f) { s.file f with ref := (s.file f).ref + 1 } (s.holding p) ?_
      (.inl hfd') (.inr rfl) (by simp [hfd']) (fun e => ?_) (fun i => rfl) rfl rfl
    · rw [update_eq_self] at this
      exact this
    · by_cases hf : f < NFILE
      · exact .inl hf
      · exact .inr (h.ip f (.inr (not_lt.1 hf)))
    · dsimp only at e
      omega

theorem Books.close (hst : s.close p fd = some s') : s'.Books := by
  rw [Resources.close] at hst
  split at hst
  · cases hst
  · rename_i f hfd
    obtain ⟨hpos, hst⟩ := Option.ite_none_right_eq_some.1 hst
    cases hst
    have hf : f < NFILE ∨ (s.file f).ip = none := by
      by_cases hf : f < NFILE
      · exact .inl hf
      · exact .inr (h.ip f (.inr (not_lt.1 hf)))
    rw [fileclose]
    split
    · rename_i hone
      refine h.setFd hp fd none ⟨0, none⟩ { s.holding p with
        inodes := (s.file f).ip.toList ++ (s.holding p).inodes } (.inr rfl) (.inr hfd) (.inl rfl)
        (by simp [hone, hfd]) (fun _ => rfl) (fun i => ?_) rfl rfl
      cases hip : (s.file f).ip with
      | none => simp
      | some j => simp [List.count_cons, add_comm]
    · rename_i hne
      have := h.setFd hp fd none { s.file f with ref := (s.file f).ref - 1 } (s.holding p) hf
        (.inr hfd) (.inl rfl) (by simp [hfd]) (fun e => ?_) (fun i => rfl) rfl rfl
      · rw [update_eq_self] at this
        exact this
      · dsimp only at e
        omega

theorem Books.chdir (hst : s.chdir p i = some s') : s'.Books := by
  obtain ⟨hi, hst⟩ := Option.ite_none_right_eq_some.1 hst
  refine h.setCwd hp (fun j => ?_) rfl rfl hst
  have hc := count_erase_ite hi j
  simp only [Option.some.injEq, eq_comm (a := i)]
  split at hc <;> simp_all

theorem Books.leaveCwd (hst : s.setCwd p none = some s') : s'.Books := by
  rw [← hold_id (s := s) (p := p)] at hst
  exact h.setCwd hp (fun i => by simp) rfl rfl hst

end

end Resources

end Xv6Container
