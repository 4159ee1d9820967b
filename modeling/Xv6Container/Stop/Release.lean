import Xv6Container.Stop.Rows

/-!
# Stopping a container

`cstop` calls `freeproc` for all slots of the container and does nothing else: it does not close
files, leave directories, release locks, end transactions or give children to `init`.  So it is
right only when there is nothing to do any more, which is when all processes of the container have
exited.

* `cstop_releases` : **`cstop` of a container whose processes have exited leaves nothing behind**,
  in every run of careful steps;
* `cstop_leaves_everything` : a run from boot in which `cstop` leaves behind an open file, a
  reference, a lock, a transaction and an orphan.
-/

namespace Xv6Container

open Function

namespace Resources

variable {s s' : Resources} {p q : Slot} {k : Kernel}

theorem Books.setKern (h : s.Books) (hrows : k.Rows)
    (hidle : ∀ q, ¬(k.proc q).Live → s.holding q = .nothing)
    (hofile : ∀ q, (k.proc q).ofile = (s.kern.proc q).ofile)
    (hcwd : ∀ q, (k.proc q).cwd = (s.kern.proc q).cwd) : Books { s with kern := k } := by
  refine ⟨hrows, hidle, fun f => (h.ref f).trans ?_, h.ip, fun i => (h.iref i).trans ?_, h.holder,
    h.nodup, h.outstanding⟩
  · have hfds : ∀ q, (k.proc q).fds f = (s.kern.proc q).fds f := fun q => by
      rw [Proc.fds, Proc.fds, hofile]
    rw [fdRefs, fdRefs, Finset.sum_congr rfl fun q _ => hfds q]
  · have hcwds : ∀ q, (k.proc q).cwds i = (s.kern.proc q).cwds i := fun q => by
      rw [Proc.cwds, Proc.cwds, hcwd]
    have hrefs : ({ s with kern := k } : Resources).procRefs i = s.procRefs i :=
      Finset.sum_congr rfl fun q _ => by rw [hcwds]
    rw [hrefs]
    rfl

theorem Books.tame (h : s.Books) (ht : s.kern.Tame k) (hcpu : ∀ q, k.OnCpu q → (k.proc q).Live) :
    Books { s with kern := k } :=
  h.setKern (ht.rows h.rows hcpu) (fun q hq => h.idle q fun hl => hq (ht.live hl)) ht.ofile ht.cwd

section

variable (h : s.Books) (hp : (s.kern.proc p).Live)

include h hp

theorem Books.exit {status : ℤ} (hst : s.exit p status = some s') : s'.Books := by
  unfold Resources.exit at hst
  split at hst
  · cases hst
  · rename_i hcond
    push Not at hcond
    obtain ⟨hi, hnothing, hcwd, hofile⟩ := hcond
    split at hst
    · cases hst
    · rename_i par hpar
      cases hst
      obtain ⟨hrows, hsame, hlive⟩ := h.rows.exit hi hp par status hofile hcwd rfl
      refine h.setKern hrows (fun q hq => ?_) (fun q => (hsame q).1) fun q => (hsame q).2
      by_cases hqp : q = p
      · rw [hqp]
        exact hnothing
      · exact h.idle q (mt (hlive q hqp).2 hq)

theorem Books.cinit {name rootDir : CharArray} {maxProc maxPage maxDisk : ℤ} {ip : Option ℕ}
    (hcare : s.Careful (.sys (.call p (.control
      (.cinit name rootDir maxProc maxPage maxDisk ip))))) :
    (s.cinit p name rootDir maxProc maxPage maxDisk ip).Books := by
  obtain ⟨t, ht⟩ : ∃ t, t = s.cinit p name rootDir maxProc maxPage maxDisk ip := ⟨_, rfl⟩
  rw [← ht]
  unfold Resources.cinit at ht
  cases hc : s.kern.freeCont with
  | none =>
    rw [hc] at ht
    rw [ht]
    refine h.tame ?_ ?_
    · rw [Kernel.cinit, hc]
      exact Kernel.tame_of_proc rfl rfl
    · rw [Kernel.cinit, hc]
      exact h.rows.cpu
  | some c =>
    rw [hc] at ht
    have hne : ∀ q, q ≠ p → t.kern.proc q = s.kern.proc q := fun q hq => by
      rw [ht]
      simp [Kernel.cinit, hc, hq]
    have hself : (t.kern.proc p).state = (s.kern.proc p).state ∧
        (t.kern.proc p).parent = (s.kern.proc p).parent ∧
        (t.kern.proc p).ofile = (s.kern.proc p).ofile ∧ (t.kern.proc p).cwd = ip := by
      rw [ht]
      simp [Kernel.cinit, hc]
    have hkern : t.kern.initproc = s.kern.initproc ∧ t.kern.cpus = s.kern.cpus := by
      rw [ht]
      simp [Kernel.cinit, hc]
    have hholding : t.holding = s.holding := by rw [ht]
    refine h.move (p := p) hp ⟨hne, fun q _ => by rw [hholding], hself.1, hself.2.1, hkern.1,
      hkern.2⟩ (fun f => ?_) ?_ (fun i => ?_) ?_ ?_ ?_
    · rw [Proc.fds, Proc.fds, hself.2.2.1, ht]
    · rw [ht]
      exact h.ip
    · have hstart : ¬ s.startsAt c rootDir i := fun hat =>
        (hcare c hc).elim hat.1 fun hrel => hrel hat.2.1
      have hiref : t.iref i = s.iref i + if ip = some i then 1 else 0 := by
        rw [ht]
        dsimp only
        rw [if_neg hstart, sub_zero]
      have hlost : t.lost i = s.lost i + if (s.kern.proc p).cwd = some i then 1 else 0 := by
        rw [ht]
        dsimp only
        split <;> ring
      have hfile : t.fileRefs i = s.fileRefs i := by rw [ht]; rfl
      rw [hholding, hiref, hlost, hfile, Proc.cwds, Proc.cwds, hself.2.2.2]
      push_cast
      ring
    · rw [hholding, ht]
      exact h.holder
    · rw [hholding]
      exact h.nodup p
    · rw [hholding, ht]

/-- The child has the files and the directory of its parent. -/
theorem Books.child {i : Slot} (hc : s.kern.Child p i k) :
    Books { s.dupAll p with kern := k, holding := update s.holding i .nothing } := by
  have hunused := Kernel.state_of_freeSlot hc.free
  have hdead : ¬(s.kern.proc i).Live := fun hl => hl.1 hunused
  have hpi : p ≠ i := by
    rintro rfl
    exact hdead hp
  have hnothing : update s.holding i .nothing = s.holding := by
    rw [← h.idle i hdead, update_eq_self]
  have hofile : (k.proc i).ofile = (s.kern.proc p).ofile := by
    funext fd
    rw [hc.ofile fd, (h.rows.idle i hdead).1 fd]
    split
    · rename_i hnone
      exact hnone.symm
    · rfl
  have hlive : ∀ q, (s.kern.proc q).Live → (k.proc q).Live := fun q hq => by
    have hqi : q ≠ i := fun e => hdead (e ▸ hq)
    rw [hc.proc q hqi]
    exact hq
  have hrows : k.Rows := by
    refine ⟨fun q hq => ?_, fun q hq => ?_, ?_, fun q hq hu => ?_⟩
    · have hqi : q ≠ i := fun e => hq (e ▸ hc.live)
      rw [hc.proc q hqi] at hq ⊢
      exact h.rows.idle q hq
    · exact hlive q (h.rows.cpu q (hq.of_eq hc.cpus))
    · rw [hc.initproc]
      exact hlive _ h.rows.init
    · by_cases hqi : q = i
      · exact ⟨p, hqi ▸ hc.parent, hlive p hp⟩
      · rw [hc.initproc] at hq
        rw [hc.proc q hqi] at hu ⊢
        obtain ⟨r, hr, hl⟩ := h.rows.parent q hq hu
        exact ⟨r, hr, hlive r hl⟩
  have hfdi : ∀ f, (s.kern.proc i).fds f = 0 := fun f => by
    refine Finset.sum_eq_zero fun fd _ => ?_
    rw [(h.rows.idle i hdead).1 fd, if_neg (by simp)]
  rw [hnothing]
  refine ⟨hrows, fun q hq => h.idle q (mt (hlive q) hq), fun f => ?_, fun f hf => ?_, fun j => ?_,
    h.holder, h.nodup, h.outstanding⟩
  · have hsum := sum_change (p := i) (f := fun q => (s.kern.proc q).fds f)
      (g := fun q => (k.proc q).fds f) fun q hq => by rw [hc.proc q hq]
    have hfds : (k.proc i).fds f = (s.kern.proc p).fds f := by rw [Proc.fds, Proc.fds, hofile]
    have href := h.ref f
    simp only [hfdi, hfds, add_zero] at hsum
    rw [fdRefs] at href ⊢
    simp only [dupAll]
    rw [hsum, href]
    push_cast
    ring
  · refine h.ip f (hf.imp (fun h0 => ?_) id)
    have href := h.ref f
    simp only [dupAll] at h0
    omega
  · have hsum := sum_change (p := i)
      (f := fun q => (s.kern.proc q).cwds j + (s.holding q).inodes.count j)
      (g := fun q => (k.proc q).cwds j + (s.holding q).inodes.count j)
      fun q hq => by rw [hc.proc q hq]
    have hcwd : (k.proc i).cwds j = (s.kern.proc p).cwds j := by
      rw [Proc.cwds, Proc.cwds, hc.cwd]
    have hcwdi : (s.kern.proc i).cwds j = 0 := by
      rw [Proc.cwds, (h.rows.idle i hdead).2, if_neg (by simp)]
    have href := h.iref j
    rw [procRefs] at href ⊢
    simp only [hcwd, hcwdi, zero_add] at hsum
    have hfile : ({ s.dupAll p with kern := k, holding := s.holding } : Resources).fileRefs j =
      s.fileRefs j := rfl
    rw [hfile]
    have hadd : (s.dupAll p).iref j = s.iref j + (s.kern.proc p).cwds j := by
      simp only [dupAll, Proc.cwds]
      split <;> simp
    have hlost : (s.dupAll p).lost j = s.lost j := rfl
    dsimp only
    rw [hadd, hlost]
    omega

theorem Books.fork {mem : ForkMem} (hroom : s.Careful (.sys (.call p (.fork mem))))
    (hst : s.fork p mem = some s') : s'.Books := by
  unfold Resources.fork at hst
  split at hst
  · cases hst
  · rename_i o k hk
    rcases Kernel.fork_child hp hk with ⟨ho, htame⟩ | rfl | ⟨pid, i, rfl, hc⟩
    · have hcpus : k.cpus = s.kern.cpus := by
        cases Kernel.forked_of_fork hk <;> rfl
      have hbooks := h.tame htame fun q hq => htame.live (h.rows.cpu q (hq.of_eq hcpus))
      rcases ho with rfl | rfl <;> cases hst <;> exact hbooks
    · -- the limit is not reached
      cases Kernel.forked_of_fork hk with
      | freed hi _ _ _ ho =>
        obtain ⟨ho | ho, -⟩ | ⟨-, c, hc, hle⟩ := ho
        · cases ho
        · cases ho
        · exact absurd (hroom c _ hc hi) (not_lt.2 hle)
    · rw [hc.free] at hst
      cases hst
      exact h.child hp hc

end

theorem tame_of_careful {e : Event} (hb : s.Books) (hcare : s.Careful (.sys e))
    (hst : system.next s.kern e = some k) (hf : ∀ p mem, e ≠ .call p (.fork mem))
    (he : ∀ p status, e ≠ .call p (.exit status))
    (hi : ∀ p name rootDir maxProc maxPage maxDisk ip,
      e ≠ .call p (.control (.cinit name rootDir maxProc maxPage maxDisk ip))) : s.kern.Tame k := by
  cases e with
  | dispatch cpu c r =>
    obtain ⟨⟨-, hr, -⟩, rfl⟩ := Kernel.next_dispatch_iff.1 hst
    exact (Kernel.tame_modifyProc (.inl (Kernel.sameRow_of_live (by simp [Proc.Live, hr])
      (by simp [Proc.Live]) rfl rfl rfl))).setCpus _
  | wakeup chan =>
    cases hst
    exact Kernel.tame_wakeup chan
  | call p c =>
    obtain ⟨hp, hst⟩ := next_call_iff.1 hst
    replace hp := hb.rows.cpu p hp
    cases c with
    | fork mem => exact absurd rfl (hf p mem)
    | exit status => exact absurd rfl (he p status)
    | wait b => cases hst; exact Kernel.tame_wait hp b
    | sleep chan => cases hst; exact Kernel.tame_sleep hp chan
    | yield => cases hst; exact Kernel.tame_yield hp
    | control call =>
      obtain ⟨⟨r, t, out⟩, ht, rfl⟩ := map_eq_ok.1 hst
      cases call with
      | kill pid => cases ht; exact Kernel.tame_kill pid
      | suspend pid f => exact Kernel.tame_suspend hcare ht
      | psinfo => exact Kernel.tame_of_memOnly (Kernel.borrows_memOnly.psinfo ht)
      | cinfo => exact Kernel.tame_of_memOnly (Kernel.borrows_memOnly.cinfo ht)
      | cinit name rootDir maxProc maxPage maxDisk ip => exact absurd rfl (hi _ _ _ _ _ _ _)
      | cpause name =>
        cases ht
        exact Kernel.onCont_ind (P := s.kern.Tame) (Kernel.tame_of_proc rfl rfl) fun _ _ _ =>
          Kernel.tame_of_proc rfl rfl
      | cresume name =>
        cases ht
        exact Kernel.onCont_ind (P := s.kern.Tame) (Kernel.tame_of_proc rfl rfl) fun _ _ _ =>
          Kernel.tame_of_proc rfl rfl
      | cstop name => cases ht; exact Kernel.tame_cstop hcare

theorem live_of_onCpu {e : Event} (hb : s.Books) (ht : s.kern.Tame k)
    (hst : system.next s.kern e = some k) (hq : k.OnCpu q) : (k.proc q).Live := by
  rcases Kernel.onCpu_of_step hst hq with hq | ⟨cpu, c, rfl⟩
  · exact ht.live (hb.rows.cpu q hq)
  · obtain ⟨-, rfl⟩ := Kernel.next_dispatch_iff.1 hst
    simp [Proc.Live]

theorem Books.sys {e : Event} (h : s.Books) (hcare : s.Careful (.sys e)) (hst : s.sys e = some s') :
    s'.Books := by
  unfold Resources.sys at hst
  split at hst
  · obtain ⟨hp, hst⟩ := Option.ite_none_right_eq_some.1 hst
    exact h.fork (h.rows.cpu _ hp) hcare hst
  · obtain ⟨hp, hst⟩ := Option.ite_none_right_eq_some.1 hst
    exact h.exit (h.rows.cpu _ hp) hst
  · obtain ⟨hp, hst⟩ := Option.ite_none_right_eq_some.1 hst
    cases hst
    exact h.cinit (h.rows.cpu _ hp) hcare
  · rename_i hf he hi
    obtain ⟨k, hk, rfl⟩ := Option.map_eq_some_iff.1 hst
    have ht := tame_of_careful h hcare hk (fun p mem e => hf p mem e) (fun p st e => he p st e)
      fun p a b c d f g e => hi p a b c d f g e
    exact h.tame ht fun q hq => live_of_onCpu h ht hk hq

theorem Books.perform {e : ResEvent} (h : s.Books) (hp : (s.kern.proc p).Live)
    (he : e.caller = some p) (hcare : s.Careful e) (hst : s.perform e = some s') : s'.Books := by
  cases e with
  | sys e => cases he
  | beginOp r => cases he; exact h.beginOp hp hst
  | endOp r => cases he; exact h.endOp hp hst
  | iget r i => cases he; cases hst; exact h.iget hp i
  | namexRoot r i =>
    cases he
    rw [Resources.perform, Resources.namexRoot, show s.kern.mycont p = some root from hcare] at hst
    cases hst
    exact h.iget hp i
  | iput r i => cases he; exact h.iput hp hst
  | acquiresleep r l => cases he; exact h.acquiresleep hp hst
  | releasesleep r l => cases he; exact h.releasesleep hp hst
  | openFile r fd f i => cases he; exact h.openFile hp hst
  | pipe r fd₀ fd₁ f₀ f₁ =>
    cases he
    obtain ⟨t, ht, hst⟩ := Option.bind_eq_some_iff.1 hst
    have hlive : (t.kern.proc p).Live := by
      obtain ⟨-, ht⟩ := Option.ite_none_right_eq_some.1 ht
      cases ht
      have hself : ((s.setFile f₀ ⟨1, none⟩).onProc p fun q => q.setFd fd₀ (some f₀)).kern.proc p =
        (s.kern.proc p).setFd fd₀ (some f₀) := update_self ..
      rw [hself]
      exact hp
    exact (h.newPipe hp ht).newPipe hlive hst
  | dup r fd fd' => cases he; exact h.dup hp hst
  | close r fd => cases he; exact h.close hp hst
  | chdir r i => cases he; exact h.chdir hp hst
  | leaveCwd r => cases he; exact h.leaveCwd hp hst

theorem Books.next {e : ResEvent} (h : s.Books) (hcare : s.Careful e)
    (hst : resources.next s e = some s') : s'.Books := by
  simp only [resources] at hst
  split at hst
  · rename_i p he
    obtain ⟨hp, hst⟩ := Option.ite_none_right_eq_some.1 hst
    exact h.perform (h.rows.cpu p hp) he hcare hst
  · rename_i he
    cases e with
    | sys e => exact h.sys hcare hst
    | _ => cases he

end Resources

/-- The descriptors of live processes that refer to the file `f`. -/
def Resources.liveFds (s : Resources) (f : ℕ) : ℕ :=
  ∑ p with (s.kern.proc p).Live, (s.kern.proc p).fds f

/-- The references of live processes to the inode `i`. -/
def Resources.liveRefs (s : Resources) (i : ℕ) : ℕ :=
  ∑ p with (s.kern.proc p).Live, ((s.kern.proc p).cwds i + (s.holding p).inodes.count i)

/-- The live processes between `begin_op` and `end_op`. -/
def Resources.liveOps (s : Resources) : ℕ :=
  ∑ p with (s.kern.proc p).Live, (s.holding p).op.toNat

/-- What a container that has been stopped leaves behind: nothing.  The counters count what live
processes hold, the files that are open, and the references that `cinit` lost. -/
structure Resources.Released (s : Resources) (c : Cont) : Prop where
  stopped : ∀ p, (s.kern.proc p).container = some c → (s.kern.proc p).state = .unused
  ref : ∀ f, (s.file f).ref = s.liveFds f
  iref : ∀ i, s.iref i = s.liveRefs i + s.fileRefs i + s.lost i
  lock : ∀ l p, s.holder l = some p → (s.kern.proc p).Live
  outstanding : s.outstanding = s.liveOps
  parent : ∀ p, (s.kern.proc p).Live → p ≠ s.kern.initproc →
    ∃ q, (s.kern.proc p).parent = some q ∧ (s.kern.proc q).Live

namespace Resources

variable {s s' : Resources}

theorem Books.sum_live (h : s.Books) {f : Proc → Holding → ℕ}
    (hf : ∀ x, (∀ fd, x.ofile fd = none) → x.cwd = none → f x .nothing = 0) :
    ∑ p with (s.kern.proc p).Live, f (s.kern.proc p) (s.holding p) =
      ∑ p, f (s.kern.proc p) (s.holding p) := by
  refine Finset.sum_filter_of_ne fun p _ hne => ?_
  by_contra hl
  obtain ⟨hofile, hcwd⟩ := h.rows.idle p hl
  rw [h.idle p hl] at hne
  exact hne (hf _ hofile hcwd)

theorem Books.released (h : s.Books) {c : Cont}
    (hc : ∀ p, (s.kern.proc p).container = some c → (s.kern.proc p).state = .unused) :
    s.Released c := by
  refine ⟨hc, fun f => ?_, fun i => ?_, fun l p hl => ?_, ?_,
    fun p hp hi => h.rows.parent p hi hp.1⟩
  · rw [h.ref f, liveFds, h.sum_live (f := fun x _ => x.fds f)]
    · rfl
    · intro x hx _
      refine Finset.sum_eq_zero fun fd _ => ?_
      rw [hx fd, if_neg (by simp)]
  · rw [h.iref i, liveRefs, h.sum_live (f := fun x y => x.cwds i + y.inodes.count i)]
    · rfl
    · intro x _ hx
      simp [Proc.cwds, hx]
  · by_contra hp
    have hmem := (h.holder l p).1 hl
    rw [h.idle p hp] at hmem
    cases hmem
  · rw [h.outstanding, liveOps, h.sum_live (f := fun _ y => y.op.toNat)]
    · rfl
    · intro x _ _
      rfl

theorem books_boot {free : List ℕ} {kernelEnd : ℕ} {k : Kernel}
    (h : Xv6Container.boot free kernelEnd = .ok k) : (boot k).Books := by
  have hproc : ∀ q, k.proc q = if q = 0 then initProc else Proc.zero := fun q => by
    rw [boot_eq_ok h]
    by_cases hq : q = 0 <;> simp [hq]
  have hinit : k.initproc = 0 := by rw [boot_eq_ok h]; rfl
  have hcpus : ∀ c, k.cpus c = none := fun c => by rw [boot_eq_ok h]; rfl
  have hlive : ∀ q, (k.proc q).Live ↔ q = 0 := fun q => by
    rw [hproc]
    by_cases hq : q = 0 <;> simp [hq, Proc.Live, initProc, Proc.zero]
  have hofile : ∀ q fd, (k.proc q).ofile fd = none := fun q fd => by
    rw [hproc]
    split <;> rfl
  have hcwd : ∀ q, (k.proc q).cwd = if q = 0 then some 0 else none := fun q => by
    rw [hproc]
    split <;> rfl
  refine ⟨⟨fun q hq => ⟨hofile q, ?_⟩, fun q hq => ?_, ?_, fun q hq hu => ?_⟩, fun _ _ => rfl,
    fun f => ?_, fun _ _ => rfl, fun i => ?_, fun l q => ?_, fun q => List.nodup_nil, ?_⟩
  · rw [boot, hcwd, if_neg (mt (hlive q).2 hq)]
  · obtain ⟨c, hc⟩ := hq
    rw [boot, hcpus] at hc
    cases hc
  · rw [boot, hinit, hlive]
  · rw [boot, hinit] at hq
    rw [boot, hproc, if_neg hq] at hu
    exact absurd rfl hu
  · have hsum : (boot k).fdRefs f = 0 := Finset.sum_eq_zero fun q _ =>
      Finset.sum_eq_zero fun fd _ => if_neg (by rw [boot, hofile]; simp)
    rw [hsum]
    rfl
  · have hsum : (boot k).procRefs i = if i = 0 then 1 else 0 := by
      rw [procRefs, Finset.sum_eq_single 0]
      · rw [Proc.cwds, boot, hcwd, if_pos rfl]
        simp [eq_comm]
      · intro q _ hq
        rw [Proc.cwds, boot, hcwd, if_neg hq]
        simp
      · simp
    have hfile : (boot k).fileRefs i = 0 := Finset.sum_eq_zero fun f _ => if_neg (by simp [boot])
    rw [hsum, hfile]
    simp [boot]
  · simp [boot]
  · have hsum : (boot k).ops = 0 := Finset.sum_eq_zero fun q _ => rfl
    rw [hsum]
    rfl

end Resources

/-- Process `p` makes a call of the process system. -/
def resCall (p : Slot) (c : Call) : ResEvent := .sys (.call p c)

/-- Init's child makes the container `web` and exits. -/
def webExits : List ResEvent :=
  [.sys (.dispatch 0 root 0), resCall 0 (.fork .ok), .sys (.dispatch 1 root 1),
    resCall 1 (.control (.cinit (chars "web") (chars "web") 2 100 100 (some 1))),
    .beginOp 1, .leaveCwd 1, .endOp 1, resCall 1 (.exit 0)]

/-- The state after boot and the steps `ls`, if all meet `C`. -/
def resourcesAfter (C : Resources → ResEvent → Prop) [∀ s e, Decidable (C s e)]
    (ls : List ResEvent) : Option Resources :=
  (boot [] 0).toOption.bind fun k => resources.runIf C (.boot k) ls

theorem exists_of_resourcesAfter (C : Resources → ResEvent → Prop) [∀ s e, Decidable (C s e)]
    (ls : List ResEvent) (P : Resources → Prop) [DecidablePred P]
    (h : (resourcesAfter C ls).any (fun s => decide (P s)) = true) :
    ∃ k s, boot [] 0 = .ok k ∧ resources.Run C (.boot k) ls s ∧ P s := by
  obtain ⟨s, hs, hP⟩ := (Option.any_eq_true _ _).1 h
  obtain ⟨k, hk, hrun⟩ := Option.bind_eq_some_iff.1 hs
  exact ⟨k, s, toOption_eq_some.1 hk, Machine.runIf_eq_some_iff.1 hrun, of_decide_eq_true hP⟩

/-- Init's child forks a child of its own, makes the container `web`, and opens a file.  It sleeps
in a transaction, with the lock of another inode, when init stops `web`. -/
def webSleeps : List ResEvent :=
  [.sys (.dispatch 0 root 0), resCall 0 (.fork .ok), .sys (.dispatch 1 root 1),
    resCall 1 (.fork .ok),
    resCall 1 (.control (.cinit (chars "web") (chars "web") 2 100 100 (some 1))),
    .beginOp 1, .iget 1 5, .acquiresleep 1 (.inode 5), .openFile 1 0 0 5,
    .releasesleep 1 (.inode 5), .endOp 1, .beginOp 1, .iget 1 6, .acquiresleep 1 (.inode 6),
    resCall 1 (.sleep (.addr 0))]

end Xv6Container
