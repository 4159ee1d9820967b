import Xv6Container.Tree.Threads

/-!
# The process tree

Every step of `fork`, `exit`, `wait`, `kill`, `sleep` and `wakeup` keeps the tree of the processes
and what the threads rely on, so both hold in every state that any interleaving reaches.

* `process_tree` : **the tree of processes, and what happens to a process that exits**.
-/

namespace Xv6Container

open Function

variable {N : ℕ} {init p q np : Fin N}

namespace ProcTree

variable {s s' : ProcTree N} {l : TreeLoc N}

/-! ### Every step -/

attribute [local grind] TreeLoc.Gone TreeLoc.Exiting TreeLoc.locks ProcFields.freed

theorem Inv.wakeup1 (h : Inv init s) (htest : ∀ a, s.loc a ≠ .forkTest q) :
    Inv init (s.wakeup1 q) := by
  rw [ProcTree.wakeup1]
  split
  case isTrue hc => exact h.setProc rfl (by simp [hc.2]) (by simp [hc.2]) (by simp [hc.2]) htest
  case isFalse => exact h

theorem running_wakeup1 (hrun : (s.proc p).state = .running) :
    ((s.wakeup1 q).proc p).state = .running := by
  rw [ProcTree.wakeup1]
  split
  case isTrue hc =>
    have hpq : p ≠ q := by
      rintro rfl
      rw [hrun] at hc
      cases hc.2
    exact (congrArg _ (update_of_ne hpq _ _)).trans hrun
  case isFalse => exact hrun

@[simp] theorem loc_wakeup1 : (s.wakeup1 q).loc = s.loc := by
  rw [ProcTree.wakeup1]
  split <;> rfl

theorem inv_boot (init : Fin N) : Inv init (boot init) := by
  have hproc : ∀ p, (boot init).proc p = if p = init then
      { ProcFields.freed with state := .runnable, pid := 1 } else .freed := fun _ => rfl
  have hloc : ∀ p, (boot init).loc p = if p = init then .out else .dead := fun _ => rfl
  have hborn : (boot init).births = 1 ∧ (boot init).born = (fun _ => 0) := ⟨rfl, rfl⟩
  refine ⟨⟨?_, ?_, ?_, ?_, ?_, ?_, ?_, ?_⟩, ⟨?_, ?_, ?_, List.nodup_nil⟩, ?_, ?_, ?_, ?_, ?_⟩
  all_goals grind [LocInv, boot]

theorem Inv.setNextpid (h : Inv init s) (n : ℤ) : Inv init { s with nextpid := n } :=
  ⟨h.tree, h.deaths, h.threads.init_loc, h.threads.gone, h.threads.dead, h.threads.lock,
    h.threads.locInv⟩

section

variable (h : Inv init s) (hrun : (s.proc p).state = .running)

include h hrun

theorem Inv.goOn (hgone : ¬l.Gone) (hinit : l.Exiting → p ≠ init)
    (hlocks : ∀ q ∈ l.locks p, q ∈ (s.loc p).locks p ∨ s.Free q) (hat : (s.goto p l).LocInv p l) :
    Inv init (s.goto p l) := by
  refine h.goto ?_ (fun e hl => hinit hl e) (fun hu => ?_) hlocks ?_ hat
  · rw [h.threads.gone]
    simp [hgone, ProcFields.Active, hrun]
  · rw [hrun] at hu
    cases hu
  · rw [hrun]
    simp

theorem Inv.goOut : Inv init (s.goto p .out) :=
  h.goOn hrun id False.elim (by simp) trivial

/-! #### The steps of `fork` -/

theorem Inv.forkScan {i : ℕ} {hi : i < N} (hfree : s.Free ⟨i, hi⟩)
    (hun : (s.proc ⟨i, hi⟩).state = .unused) :
    Inv init ({ s.setProc ⟨i, hi⟩ (fun x => { x with pid := s.nextpid }) with
      nextpid := s.nextpid + 1 }.goto p (.forkHold ⟨i, hi⟩)) := by
  have hip : (⟨i, hi⟩ : Fin N) ≠ p := by
    intro e
    rw [e, hrun] at hun
    cases hun
  refine ((h.setProc (q := ⟨i, hi⟩) rfl Iff.rfl Iff.rfl (fun hz => ?_)
    fun a => (hfree.ne_fork a).2).setNextpid _).goOn ?_ id False.elim ?_ ?_
  · rw [hun] at hz
    cases hz
  · exact (congrArg _ (update_of_ne hip.symm _ _)).trans hrun
  · simp only [TreeLoc.locks, List.mem_singleton, forall_eq]
    exact .inr hfree
  · exact (congrArg _ (update_self ..)).trans hun

theorem Inv.forkFails (freed : Bool) (hloc : s.loc p = .forkHold np) :
    Inv init ((if freed then s.setProc np fun _ => .freed else s).goto p .out) := by
  have hun : (s.proc np).state = .unused := by
    have := h.threads.locInv p
    rwa [hloc] at this
  have hpn : p ≠ np := by
    rintro rfl
    rw [hun] at hrun
    cases hrun
  cases freed with
  | false => exact h.goOut hrun
  | true =>
    refine (h.setProc (q := np) (f := fun _ => .freed) (h.tree.unused np hun).symm
      (by simp [hun, ProcFields.freed]) (by simp [hun, ProcFields.freed]) (by simp [hun])
      fun a ha => ?_).goOut ?_
    · obtain ⟨hr, -⟩ : s.LocInv a (.forkTest np) := ha ▸ h.threads.locInv a
      rw [hun] at hr
      cases hr
    · exact (congrArg _ (update_of_ne hpn _ _)).trans hrun

/-! #### The steps of `exit` -/

section

variable {par : Fin N} {status : ℤ} {i : ℕ}

theorem Inv.exitSelf (hloc : s.loc p = .exitSelf par status) (hfree : s.Free p) :
    Inv init (s.goto p (.exitScan par status 0)) := by
  refine h.goOn hrun id (fun _ => h.ne_init (by rw [hloc]; trivial)) ?_
    fun q hq => absurd hq (Nat.not_lt_zero _)
  rw [hloc]
  rintro q hq
  rcases List.mem_cons.1 hq with rfl | hq
  · exact .inl (List.mem_singleton_self q)
  · rw [List.mem_singleton.1 hq]
    exact .inr hfree

theorem Inv.exitScan (hloc : s.loc p = .exitScan par status i) (hi : i < N) :
    Inv init (s.goto p (if (s.proc ⟨i, hi⟩).parent = some p then .exitGive par status ⟨i, hi⟩
      else .exitScan par status (i + 1))) := by
  have hl : s.LocInv p (.exitScan par status i) := hloc ▸ h.threads.locInv p
  refine h.goOn hrun ?_ (fun _ => h.ne_init (by rw [hloc]; trivial)) ?_ ?_
  · split <;> exact id
  · rw [hloc]
    split <;> exact fun q hq => .inl hq
  · split
    case isTrue hp => exact ⟨hp, hl⟩
    case isFalse hp =>
      intro q hq
      rcases Nat.lt_succ_iff_lt_or_eq.1 hq with hq | hq
      · exact hl q hq
      · rw [show q = ⟨i, hi⟩ from Fin.ext hq]
        exact hp

theorem Inv.exitDone (hloc : s.loc p = .exitScan par status i) (hi : ¬i < N) :
    Inv init (((s.wakeup1 par).exitFinal p status).goto p .exitSched) := by
  have hmem : par ∈ (s.loc p).locks p := by
    rw [hloc]
    exact List.mem_cons_self
  have htest : ∀ a, s.loc a ≠ .forkTest par := fun a => by
    by_cases ha : a = p
    · rw [ha, hloc]
      simp
    · exact (h.ne_of_mem_locks hmem ha).2
  exact (h.wakeup1 htest).final (running_wakeup1 hrun) (by rw [loc_wakeup1]; exact hloc)
    (not_lt.1 hi)

end

/-! #### The steps of `wait` -/

theorem Inv.waitScan {havekids : Bool} {i : ℕ} (hloc : s.loc p = .waitScan havekids i)
    (hi : i < N) :
    Inv init (s.goto p (if (s.proc ⟨i, hi⟩).parent = some p then .waitLook havekids ⟨i, hi⟩
      else .waitScan havekids (i + 1))) := by
  have hl : s.LocInv p (.waitScan havekids i) := hloc ▸ h.threads.locInv p
  refine h.goOn hrun ?_ ?_ ?_ ?_
  · split <;> exact id
  · split <;> exact False.elim
  · rw [hloc]
    split <;> exact fun q hq => .inl hq
  · split
    case isTrue hp => exact hp
    case isFalse hp => exact fun hk => (hl hk).succ hi hp

theorem Inv.waitSleep (hgone : ¬(s.loc p).Gone) :
    Inv init ((s.setProc p fun x => { x with chan := some (.inl p), state := .sleeping }).goto p
      .waitSleep) := by
  have hself : (s.setProc p fun x =>
      { x with chan := some (.inl p), state := .sleeping }).proc p =
        { s.proc p with chan := some (.inl p), state := .sleeping } := update_self ..
  refine (h.setProc (q := p) rfl (by simp [hrun]) (by simp [hrun]) (by simp [hrun])
    fun a ha => h.forkTest_ne hrun ha rfl).goto ?_ (fun _ => id) (fun hu => ?_)
    (by simp) ?_ trivial
  · exact iff_of_false id hgone
  · rw [hself] at hu
    cases hu
  · rw [hself]
    simp

theorem Inv.step (hstep : s.step init p = some s') : Inv init s' := by
  have hexit := h.ne_init (p := p)
  rw [ProcTree.step] at hstep
  cases hloc : s.loc p <;> rw [hloc] at hstep hexit <;> dsimp only at hstep
  case forkScan i =>
    split at hstep <;> try split at hstep <;> try split at hstep
    case isTrue.isTrue.isTrue hi hfree hun =>
      cases hstep
      exact h.forkScan hrun hfree hun
    case isTrue.isTrue.isFalse =>
      cases hstep
      exact h.goOn hrun id False.elim (by simp) trivial
    case isTrue.isFalse => cases hstep
    case isFalse =>
      cases hstep
      exact h.goOut hrun
  case forkHold np =>
    cases hstep
    exact h.forkCopy hrun hloc
  case forkTest np =>
    cases hstep
    exact h.goOut hrun
  case exitInit status =>
    split at hstep <;> cases hstep
    case isTrue hfree =>
      exact (h.wakeup1 fun a => (hfree.ne_fork a).2).goOn (running_wakeup1 hrun) id
        (fun _ => hexit trivial) (by simp) trivial
  case exitRead status =>
    split at hstep
    case isTrue =>
      obtain ⟨par, -, rfl⟩ := Option.map_eq_some_iff.1 hstep
      exact h.goOn hrun id (fun _ => hexit trivial) (by simp) trivial
    case isFalse => cases hstep
  case exitParent par status =>
    split at hstep <;> cases hstep
    case isTrue hfree => exact h.goOn hrun id (fun _ => hexit trivial) (by simp [hfree]) trivial
  case exitSelf par status =>
    split at hstep <;> cases hstep
    case isTrue hfree => exact h.exitSelf hrun hloc hfree
  case exitScan par status i =>
    split at hstep <;> cases hstep
    case isTrue hi => exact h.exitScan hrun hloc hi
    case isFalse hi => exact h.exitDone hrun hloc hi
  case exitGive par status pp =>
    split at hstep <;> cases hstep
    case isTrue hfree => exact h.give hrun hloc hfree
  case waitStart =>
    split at hstep <;> cases hstep
    case isTrue hfree =>
      exact h.goOn hrun id False.elim (by simp [hfree]) fun _ => seen_zero _ _
  case waitScan havekids i =>
    split at hstep
    case isTrue hi =>
      cases hstep
      exact h.waitScan hrun hloc hi
    case isFalse =>
      split at hstep <;> cases hstep
      · exact h.goOut hrun
      · exact h.waitSleep hrun (by rw [hloc]; exact id)
  case waitLook havekids np =>
    split at hstep <;> try split at hstep
    case isTrue.isTrue hfree hz =>
      cases hstep
      exact h.reap hrun hloc hfree hz
    case isTrue.isFalse hfree hz =>
      cases hstep
      exact h.goOn hrun id False.elim (by rw [hloc]; exact fun q hq => .inl hq) (by simp [LocInv])
    case isFalse => cases hstep
  all_goals cases hstep

end

variable {e : TreeEvent N}

/-- Every step keeps the invariant. -/
theorem Inv.next (h : Inv init s) (hst : s.next init e = some s') :
    Inv init s' := by
  have htest : ∀ p, (s.proc p).state = .running → ∀ a, s.loc a ≠ .forkTest p :=
    fun p hp a ha => h.forkTest_ne hp ha rfl
  cases e with
  | fork p =>
    obtain ⟨⟨hrun, -⟩, hst⟩ := Option.ite_none_right_eq_some.1 hst
    cases hst
    exact h.goOn hrun id False.elim (by simp) trivial
  | exit p status =>
    obtain ⟨⟨⟨hrun, -⟩, hp⟩, hst⟩ := Option.ite_none_right_eq_some.1 hst
    cases hst
    exact h.goOn hrun id (fun _ => hp) (by simp) trivial
  | wait p =>
    obtain ⟨⟨hrun, -⟩, hst⟩ := Option.ite_none_right_eq_some.1 hst
    cases hst
    exact h.goOn hrun id False.elim (by simp) trivial
  | step p =>
    rw [ProcTree.next] at hst
    split at hst
    case isTrue hl =>
      cases hst
      refine h.goto (by rw [hl]; exact Iff.rfl) (fun _ => id) (fun _ => rfl)
        (by simp) (fun hr => ?_) trivial
      have hg := (h.threads.gone p).1 (by rw [hl]; trivial)
      exact hg (by simp [ProcFields.Active, hr])
    case isFalse =>
      obtain ⟨hrun, hst⟩ := Option.ite_none_right_eq_some.1 hst
      exact h.step hrun hst
  | forkFails p freed =>
    rw [ProcTree.next] at hst
    split at hst
    case h_1 np hl =>
      obtain ⟨hrun, hst⟩ := Option.ite_none_right_eq_some.1 hst
      cases hst
      exact h.forkFails hrun freed hl
    case h_2 => cases hst
  | forkRefused p =>
    rw [ProcTree.next] at hst
    split at hst
    case h_1 np hl =>
      obtain ⟨hrun, hst⟩ := Option.ite_none_right_eq_some.1 hst
      cases hst
      exact h.refuse hrun hl
    case h_2 => cases hst
  | copyoutFails p =>
    rw [ProcTree.next] at hst
    split at hst
    case h_1 np hl =>
      obtain ⟨⟨hrun, -⟩, hst⟩ := Option.ite_none_right_eq_some.1 hst
      cases hst
      exact h.goOut hrun
    case h_2 => cases hst
  | dispatch p =>
    obtain ⟨⟨hfree, hr⟩, hst⟩ := Option.ite_none_right_eq_some.1 hst
    have hinv := h.setProc (q := p) (f := fun x => { x with state := .running, chan := none }) rfl
      (by simp [hr]) (by simp [hr]) (by simp [hr]) fun a => (hfree.ne_fork a).2
    cases hst
    split
    case isTrue =>
      refine hinv.goOn (congrArg _ (update_self ..)) id False.elim ?_ fun _ => seen_zero _ _
      simpa using .inr hfree
    case isFalse => exact hinv
  | yield p =>
    obtain ⟨⟨hrun, -⟩, hst⟩ := Option.ite_none_right_eq_some.1 hst
    cases hst
    exact h.setProc rfl (by simp [hrun]) (by simp [hrun]) (by simp [hrun]) (htest p hrun)
  | sleep p chan =>
    obtain ⟨⟨hrun, -⟩, hst⟩ := Option.ite_none_right_eq_some.1 hst
    cases hst
    exact h.setProc rfl (by simp [hrun]) (by simp [hrun]) (by simp [hrun]) (htest p hrun)
  | wakeup q chan =>
    obtain ⟨hfree, hst⟩ := Option.ite_none_right_eq_some.1 hst
    cases hst
    rw [ProcTree.wakeup]
    split
    case isTrue hc =>
      exact h.setProc rfl (by simp [hc.1]) (by simp [hc.1]) (by simp [hc.1])
        fun a => (hfree.ne_fork a).2
    case isFalse => exact h
  | kill q =>
    obtain ⟨hfree, hst⟩ := Option.ite_none_right_eq_some.1 hst
    cases hst
    refine h.setProc rfl ?_ ?_ (fun _ => ⟨rfl, rfl⟩) fun a => (hfree.ne_fork a).2
    · cases (s.proc q).state <;> simp
    · cases (s.proc q).state <;> simp

/-! ### What happens to one slot -/

/-- The slot stays in use, with the same parent or with `init` as its parent. -/
def Stays (init : Fin N) (x y : ProcFields N) : Prop :=
  y.state ≠ .unused ∧ (y.parent = x.parent ∨ y.parent = some init)

theorem Stays.refl {x : ProcFields N} (hx : x.state ≠ .unused) : Stays init x x := ⟨hx, .inl rfl⟩

theorem Stays.trans {x y z : ProcFields N} (hxy : Stays init x y) (hyz : Stays init y z) :
    Stays init x z := by
  refine ⟨hyz.1, ?_⟩
  rcases hyz.2 with he | he
  · rw [he]
    exact hxy.2
  · exact .inr he

theorem stays_update {r : Fin N} {y : ProcFields N} (hq : (s.proc q).state ≠ .unused)
    (hy : q = r → Stays init (s.proc q) y) : Stays init (s.proc q) (update s.proc r y q) := by
  by_cases hqr : q = r
  · subst hqr
    rw [update_self]
    exact hy rfl
  · rw [update_of_ne hqr]
    exact .refl hq

theorem stays_keep {r : Fin N} {y : ProcFields N} (hq : (s.proc q).state ≠ .unused)
    (hy : y.state ≠ .unused) (hpar : y.parent = (s.proc r).parent) :
    Stays init (s.proc q) (update s.proc r y q) := by
  refine stays_update hq ?_
  rintro rfl
  exact ⟨hy, .inl hpar⟩

theorem stays_wakeup1 {r : Fin N} (hq : (s.proc q).state ≠ .unused) :
    Stays init (s.proc q) ((s.wakeup1 r).proc q) := by
  rw [ProcTree.wakeup1]
  split
  case isTrue => exact stays_keep hq (by simp) rfl
  case isFalse => exact .refl hq

/-- A step of `p` leaves the other processes in use, unless it is the last one of a `wait`. -/
theorem stays_step (h : Inv init s) (hq : (s.proc q).state ≠ .unused)
    (hst : s.step init p = some s') : Stays init (s.proc q) (s'.proc q) ∨
      s.waitReturns p (.step p) = some (.pid q (s.proc q).pid (s.proc q).xstate) := by
  have hl := h.threads.locInv p
  rw [waitReturns]
  rw [ProcTree.step] at hst
  cases hloc : s.loc p <;> rw [hloc] at hst hl <;> dsimp only at hst
  case forkScan i =>
    left
    split at hst <;> try split at hst <;> try split at hst
    all_goals cases hst
    · refine stays_update hq ?_
      rintro rfl
      exact ⟨hq, .inl rfl⟩
    · exact .refl hq
    · exact .refl hq
  case forkHold np =>
    left
    cases hst
    refine stays_update hq ?_
    rintro rfl
    exact absurd hl hq
  case exitInit status =>
    left
    split at hst <;> cases hst
    exact stays_wakeup1 hq
  case exitRead status =>
    left
    split at hst
    · obtain ⟨par, -, rfl⟩ := Option.map_eq_some_iff.1 hst
      exact .refl hq
    · cases hst
  case exitScan par status i =>
    left
    split at hst <;> cases hst
    · exact .refl hq
    · have hw : Stays init (s.proc q) ((s.wakeup1 par).proc q) := stays_wakeup1 hq
      exact hw.trans (stays_keep hw.1 (by simp) rfl)
  case exitGive par status pp =>
    left
    split at hst <;> cases hst
    refine stays_update hq ?_
    rintro rfl
    exact ⟨hq, .inr rfl⟩
  case waitScan havekids i =>
    left
    split at hst
    case isTrue =>
      cases hst
      exact .refl hq
    case isFalse =>
      split at hst <;> cases hst
      · exact .refl hq
      · exact stays_keep hq (by simp) rfl
  case waitLook havekids np =>
    split at hst <;> try split at hst
    case isTrue.isTrue hfree hz =>
      cases hst
      by_cases hqn : q = np
      · subst hqn
        right
        simp [hz]
      · left
        exact stays_update hq fun e => absurd e hqn
    all_goals cases hst
    exact .inl (.refl hq)
  all_goals
    try split at hst
    all_goals cases hst <;> exact .inl (.refl hq)

/-- A process in use stays in use, unless `fork` is refused or its parent reaps it. -/
theorem stays_next (h : Inv init s) (hq : (s.proc q).state ≠ .unused)
    (hst : s.next init e = some s') : Stays init (s.proc q) (s'.proc q) ∨
      (∃ p, e = .forkRefused p ∧ (s'.proc q).state = .unused) ∨
      ∃ p, s.waitReturns p e = some (.pid q (s.proc q).pid (s.proc q).xstate) := by
  cases e with
  | fork p | exit p status | wait p =>
    obtain ⟨-, hst⟩ := Option.ite_none_right_eq_some.1 hst
    cases hst
    exact .inl (.refl hq)
  | step p =>
    rw [ProcTree.next] at hst
    split at hst
    case isTrue =>
      cases hst
      exact .inl (.refl hq)
    case isFalse =>
      obtain ⟨-, hst⟩ := Option.ite_none_right_eq_some.1 hst
      rcases stays_step h hq hst with hs | hs
      · exact .inl hs
      · exact .inr (.inr ⟨p, hs⟩)
  | forkFails p freed =>
    left
    rw [ProcTree.next] at hst
    split at hst
    case h_1 np hl =>
      obtain ⟨-, hst⟩ := Option.ite_none_right_eq_some.1 hst
      cases hst
      cases freed with
      | false => exact .refl hq
      | true =>
        refine stays_update hq ?_
        rintro rfl
        have hun := h.threads.locInv p
        rw [hl] at hun
        exact absurd hun hq
    case h_2 => cases hst
  | forkRefused p =>
    rw [ProcTree.next] at hst
    split at hst
    case h_1 np hl =>
      obtain ⟨-, hst⟩ := Option.ite_none_right_eq_some.1 hst
      cases hst
      by_cases hqn : q = np
      · subst hqn
        exact .inr (.inl ⟨p, rfl, congrArg _ (update_self ..)⟩)
      · exact .inl (stays_update hq fun e => absurd e hqn)
    case h_2 => cases hst
  | copyoutFails p =>
    left
    rw [ProcTree.next] at hst
    split at hst
    case h_1 np hl =>
      obtain ⟨-, hst⟩ := Option.ite_none_right_eq_some.1 hst
      cases hst
      exact .refl hq
    case h_2 => cases hst
  | dispatch p =>
    left
    obtain ⟨-, hst⟩ := Option.ite_none_right_eq_some.1 hst
    cases hst
    split <;> exact stays_keep hq (by simp) rfl
  | yield p | sleep p chan =>
    left
    obtain ⟨-, hst⟩ := Option.ite_none_right_eq_some.1 hst
    cases hst
    exact stays_keep hq (by simp) rfl
  | wakeup r chan =>
    left
    obtain ⟨-, hst⟩ := Option.ite_none_right_eq_some.1 hst
    cases hst
    rw [ProcTree.wakeup]
    split
    · exact stays_keep hq (by simp) rfl
    · exact .refl hq
  | kill r =>
    left
    obtain ⟨-, hst⟩ := Option.ite_none_right_eq_some.1 hst
    cases hst
    refine stays_update hq ?_
    rintro rfl
    refine ⟨?_, .inl rfl⟩
    dsimp only
    split
    · simp
    · exact hq

theorem reap_of_waitReturns {pid status : ℤ} (hst : s.next init e = some s')
    (hw : s.waitReturns p e = some (.pid np pid status)) :
    (∃ havekids, s.loc p = .waitLook havekids np) ∧ (s.proc np).state = .zombie ∧
      s.death np = ⟨s.born np, pid, status⟩ ∧ s' = (s.reap np).goto p .out := by
  rw [waitReturns] at hw
  split at hw
  case h_1 => simp at hw
  case h_2 havekids r hl =>
    split at hw
    · cases hw
    · obtain ⟨⟨he, hz⟩, hw⟩ := Option.ite_none_right_eq_some.1 hw
      cases hw
      subst he
      rw [ProcTree.next, if_neg (by rw [hl]; simp)] at hst
      obtain ⟨-, hst⟩ := Option.ite_none_right_eq_some.1 hst
      rw [ProcTree.step, hl] at hst
      dsimp only at hst
      obtain ⟨-, hst⟩ := Option.ite_none_right_eq_some.1 hst
      rw [if_pos hz] at hst
      exact ⟨⟨havekids, hl⟩, hz, rfl, (Option.some.inj hst).symm⟩
  case h_3 => cases hw

theorem Inv.waitReturns_failed (h : Inv init s)
    (hw : s.waitReturns p e = some .failed) : (∀ q, (s.proc q).parent ≠ some p) ∨
      (s.proc p).killed = true ∨ e = .copyoutFails p := by
  have hl := h.threads.locInv p
  rw [waitReturns] at hw
  split at hw
  case h_1 havekids i hloc =>
    rw [hloc] at hl
    obtain ⟨⟨-, hi, hk | hk⟩, -⟩ := Option.ite_none_right_eq_some.1 hw
    · rcases hl hk with ⟨q, hq, -⟩ | hl
      · exact absurd (hi.trans hq) (not_le.2 q.isLt)
      · exact .inl hl
    · exact .inr (.inl hk)
  case h_2 havekids np hloc =>
    split at hw
    case isTrue he => exact .inr (.inr he)
    case isFalse =>
      obtain ⟨-, hw⟩ := Option.ite_none_right_eq_some.1 hw
      cases hw
  case h_3 => cases hw

end ProcTree

variable {s : ProcTree N} {ls : List (TreeEvent N)}

/-- **The process tree, and what happens to a process that exits**, in every state `s` that the
processes can reach, by any interleaving of their steps.

* Every process other than `init` has a parent that has not exited.
* A process that has exited is still a zombie, or `wait` has reaped it, once.
* A step that frees a slot in use is the end of a `fork` that is refused, or of a `wait` that
  returns the process identifier and the status in the slot.
* A `wait` of `p` that returns a process identifier has found a zombie whose parent is `p`, and not
  reaped so far; it delivers the status with which the process exited, and frees the slot.
* The parent of a process changes only to `init`.
* `wait` fails only if the caller has no child, has been killed, or if `copyout` fails. -/
theorem process_tree (hrun : (treeMachine init).Run (fun _ _ => True) (.boot init) ls s) :
    (∀ p, p ≠ init → (s.proc p).state ≠ .unused → ∃ q, (s.proc p).parent = some q ∧
      (s.proc q).state ≠ .unused ∧ (s.proc q).state ≠ .zombie) ∧
    (∀ x ∈ s.exited, x ∈ s.reaped ∨ ∃ p, (s.proc p).state = .zombie ∧ s.death p = x) ∧
    s.reaped.Nodup ∧ s.reaped ⊆ s.exited ∧
    ∀ e s', (treeMachine init).next s e = some s' →
      (∀ q, (s.proc q).state ≠ .unused → (s'.proc q).state = .unused →
        (∃ p, e = .forkRefused p) ∨
          ∃ p, s.waitReturns p e = some (.pid q (s.proc q).pid (s.proc q).xstate)) ∧
      (∀ p np pid status, s.waitReturns p e = some (.pid np pid status) →
        (s.proc np).state = .zombie ∧ (s.proc np).parent = some p ∧
          ⟨s.born np, pid, status⟩ ∈ s.exited ∧ ⟨s.born np, pid, status⟩ ∉ s.reaped ∧
          (s'.proc np).state = .unused ∧ s'.reaped = ⟨s.born np, pid, status⟩ :: s.reaped) ∧
      (∀ q, (s.proc q).state ≠ .unused → (s'.proc q).state ≠ .unused →
        (s'.proc q).parent = (s.proc q).parent ∨ (s'.proc q).parent = some init) ∧
      ∀ p, s.waitReturns p e = some .failed → (∀ q, (s.proc q).parent ≠ some p) ∨
        (s.proc p).killed = true ∨ e = .copyoutFails p := by
  have hinv : s.Inv init := hrun.invariant (ProcTree.inv_boot init) fun _ _ _ h _ hst => h.next hst
  refine ⟨fun p hp hu => ?_, hinv.deaths.exited, hinv.deaths.nodup,
    fun x hx => (hinv.deaths.reaped x hx).1, fun e s' hst => ⟨fun q hu hu' => ?_,
      fun p np pid status hw => ?_, fun q hu hu' => ?_, fun p hw => hinv.waitReturns_failed hw⟩⟩
  · obtain ⟨q, hq⟩ := Option.ne_none_iff_exists'.1 (hinv.tree.parent p hp hu)
    exact ⟨q, hq, hinv.tree.active p q hq⟩
  · rcases ProcTree.stays_next hinv hu hst with hs | hs
    · exact absurd hu' hs.1
    · exact hs.imp (fun ⟨p, he, _⟩ => ⟨p, he⟩) id
  · obtain ⟨⟨havekids, hl⟩, hz, hd, rfl⟩ := ProcTree.reap_of_waitReturns hst hw
    have hinv' := hinv.next hst
    have hpar : (s.proc np).parent = some p := by
      have := hinv.threads.locInv p
      rwa [hl] at this
    rw [← hd]
    exact ⟨hz, hpar, hinv.deaths.zombie np hz, (List.nodup_cons.1 hinv'.deaths.nodup).1,
      congrArg _ (update_self ..), rfl⟩
  · rcases ProcTree.stays_next hinv hu hst with hs | ⟨p, -, hf⟩ | ⟨p, hw⟩
    · exact hs.2
    · exact absurd hf hu'
    · obtain ⟨-, -, -, rfl⟩ := ProcTree.reap_of_waitReturns hst hw
      exact absurd (congrArg _ (update_self ..)) hu'

/-- `init` forks process 1, which exits with status 7; `init` waits and has found process 1. -/
def forkExitWait : List (TreeEvent 2) :=
  [.dispatch 0, .fork 0] ++ List.replicate 4 (.step 0) ++ [.dispatch 1, .exit 1 7] ++
    List.replicate 8 (.step 1) ++ [.wait 0] ++ List.replicate 3 (.step 0)

theorem process_tree_forkExitWait : ∃ s s' : ProcTree 2,
    (treeMachine 0).run (.boot 0) forkExitWait = some s ∧
      (treeMachine 0).next s (.step 0) = some s' ∧
      s.waitReturns 0 (.step 0) = some (.pid 1 2 7) ∧ (s.proc 1).parent = some 0 ∧
      (s'.proc 1).state = .unused ∧ s'.reaped = [⟨1, 2, 7⟩] := by
  have hrun : ((treeMachine 0).run (.boot 0 : ProcTree 2) forkExitWait).any (fun s =>
      ((treeMachine 0).next s (.step 0)).isSome && decide (s.reaped = []) &&
        decide (s.waitReturns 0 (.step 0) = some (.pid 1 2 7)) &&
        decide (s.born 1 = 1)) = true := by
    decide +kernel
  obtain ⟨s, hs, hfacts⟩ := (Option.any_eq_true _ _).1 hrun
  simp only [Bool.and_eq_true, decide_eq_true_eq, Option.isSome_iff_exists] at hfacts
  obtain ⟨⟨⟨⟨s', hst⟩, hreaped⟩, hw⟩, hborn⟩ := hfacts
  have h := process_tree (Machine.run_eq_some_iff.1 hs)
  have hreap := (h.2.2.2.2 (.step 0) s' hst).2.1 0 1 2 7 hw
  rw [hborn, hreaped] at hreap
  exact ⟨s, s', hs, hst, hw, hreap.2.1, hreap.2.2.2.2.1, hreap.2.2.2.2.2⟩

/-- **No process is cut off from `init`**, in any interleaving: its ancestors lead there. -/
theorem parents_lead_to_init (hrun : (treeMachine init).Run (fun _ _ => True) (.boot init) ls s)
    (hp : (s.proc p).state ≠ .unused) :
    Relation.ReflTransGen (fun a b => (s.proc a).parent = some b) p init := by
  have hinv : s.Inv init := hrun.invariant (ProcTree.inv_boot init) fun _ _ _ h _ hst => h.next hst
  have htree := hinv.tree
  -- a parent is older than its children
  induction hb : s.born p using Nat.strong_induction_on generalizing p with
  | _ b ih =>
    by_cases hi : p = init
    · rw [hi]
    · obtain ⟨q, hq⟩ := Option.ne_none_iff_exists'.1 (htree.parent p hi hp)
      exact .head hq (ih _ (hb ▸ htree.older p q hq) (htree.active p q hq).1 rfl)

theorem parents_lead_to_init_fork : ∃ s : ProcTree 2, (s.proc 1).state ≠ .unused ∧
    Relation.ReflTransGen (fun a b => (s.proc a).parent = some b) 1 0 := by
  obtain ⟨s, hs, hp⟩ : ∃ s, (treeMachine 0).Run (fun _ _ => True) (.boot 0 : ProcTree 2)
      (forkExitWait.take 6) s ∧ (s.proc 1).state ≠ .unused := Machine.exists_run (by decide +kernel)
  exact ⟨s, hp, parents_lead_to_init hs hp⟩

end Xv6Container
