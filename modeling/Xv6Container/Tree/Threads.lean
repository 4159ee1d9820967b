import Xv6Container.Tree.Rooted

/-!
# The threads of fork, exit and wait

Only a process itself gives it children, and only its parent takes them away: by `wait`, which needs
a zombie, or by `exit`, which gives them to `init`.  So what `exit` and `wait` have read of
`pp->parent` without a lock is still true when they have the lock of `pp`
(`ProcTree.LocInv`), and when `exit` has been through the table the process has no children
any more.  `init` gets children from others at any time, also while it scans the table in `wait`;
but others are there only as long as `init` has a child (`Rooted.alone`).

The invariant `ProcTree.Inv` has three parts: the tree itself (`Rooted`), the processes that have
exited (`Deaths`), and the threads with their locks (`ProcTree.Threads`).
-/

namespace Xv6Container

open Function

variable {N : ℕ} {init p q n : Fin N} {proc proc' : Fin N → ProcFields N}

namespace ProcTree

variable {s s' : ProcTree N} {l : TreeLoc N}

/-- A scan of the table for children of `p` that has found none, and has come to slot `i`, will find
one, or there is none. -/
def Seen (proc : Fin N → ProcFields N) (p : Fin N) (i : ℕ) : Prop :=
  (∃ q : Fin N, i ≤ q ∧ (proc q).parent = some p) ∨ ∀ q, (proc q).parent ≠ some p

/-- What the thread of `p` may rely on at a location. -/
def LocInv (s : ProcTree N) (p : Fin N) : TreeLoc N → Prop
  | .forkHold n => (s.proc n).state = .unused
  | .forkTest n => (s.proc n).state = .runnable ∧ (s.proc n).parent = some p ∧
      s.loc n = .out ∧ ∀ r, (s.proc r).parent ≠ some n
  | .exitScan _ _ i => ∀ q : Fin N, q < i → (s.proc q).parent ≠ some p
  | .exitGive _ _ pp => (s.proc pp).parent = some p ∧
      ∀ q : Fin N, q < pp → (s.proc q).parent ≠ some p
  | .waitScan havekids i => havekids = false → Seen s.proc p i
  | .waitLook _ n => (s.proc n).parent = some p
  | _ => True

attribute [local grind] TreeLoc.Gone TreeLoc.Exiting TreeLoc.locks

/-- Where the threads are, and which locks they hold. -/
structure Threads (init : Fin N) (s : ProcTree N) : Prop where
  init_loc : ¬(s.loc init).Exiting
  gone : ∀ p, (s.loc p).Gone ↔ ¬(s.proc p).Active
  dead : ∀ p, (s.proc p).state = .unused → s.loc p = .dead
  lock : ∀ a b q, q ∈ (s.loc a).locks a → q ∈ (s.loc b).locks b → a = b
  locInv : ∀ p, s.LocInv p (s.loc p)

@[grind =] theorem goto_proc : (s.goto p l).proc = s.proc := rfl

@[grind =] theorem goto_loc (r : Fin N) : (s.goto p l).loc r = if r = p then l else s.loc r := by
  simp [goto, update_apply]

@[grind =] theorem setProc_loc (f : ProcFields N → ProcFields N) :
    (s.setProc q f).loc = s.loc := rfl

@[grind =] theorem setProc_proc (f : ProcFields N → ProcFields N) (r : Fin N) :
    (s.setProc q f).proc r = if r = q then f (s.proc q) else s.proc r := by
  simp [setProc, update_apply]

theorem Free.ne_fork (hfree : s.Free n) (a : Fin N) :
    s.loc a ≠ .forkHold n ∧ s.loc a ≠ .forkTest n := by
  have hlk : ∀ l, n ∈ TreeLoc.locks a l → s.loc a ≠ l := by
    rintro l hl rfl
    exact hfree a hl
  exact ⟨hlk _ (List.mem_singleton_self n), hlk _ (List.mem_singleton_self n)⟩

theorem Seen.of_ne {a : Fin N} {i : ℕ} (h : Seen proc a i) (hne : ∀ r, r ≠ n → proc' r = proc r)
    (hold : (proc n).parent ≠ some a) (hnew : (proc' n).parent ≠ some a) : Seen proc' a i := by
  unfold Seen at *
  grind

theorem seen_zero (proc : Fin N → ProcFields N) (p : Fin N) : Seen proc p 0 := by
  by_cases h : ∃ q, (proc q).parent = some p
  · obtain ⟨q, hq⟩ := h
    exact .inl ⟨q, Nat.zero_le _, hq⟩
  · exact .inr fun q hq => h ⟨q, hq⟩

theorem Seen.succ {i : ℕ} (h : Seen proc p i) (hi : i < N) (hp : (proc ⟨i, hi⟩).parent ≠ some p) :
    Seen proc p (i + 1) := by
  rcases h with ⟨q, hq, hqp⟩ | h
  · have hne : i ≠ q := by
      rintro rfl
      exact hp hqp
    exact .inl ⟨q, Nat.lt_of_le_of_ne hq hne, hqp⟩
  · exact .inr h

/-- What the thread of `a` relies on does not change with the slot `n`, if `n` is not and does not
become a child of `a`. -/
theorem LocInv.of_ne {a : Fin N} (hl : s.LocInv a l) (hne : ∀ r, r ≠ n → s'.proc r = s.proc r)
    (hold : (s.proc n).parent ≠ some a) (hhold : l ≠ .forkHold n)
    (hexit : l.Exiting → (s'.proc n).parent ≠ some a)
    (hseen : ∀ i, Seen s.proc a i → Seen s'.proc a i)
    (htest : ∀ r, l = .forkTest r → r ≠ n ∧ s'.loc r = .out ∧ (s'.proc n).parent ≠ some r) :
    s'.LocInv a l := by
  cases l <;> simp only [LocInv] at hl ⊢ <;> grind

theorem Threads.change (h : Threads init s) (hne : ∀ r, r ≠ n → s'.proc r = s.proc r)
    (hloc : ∀ r, r ≠ p → r ≠ n → s'.loc r = s.loc r) (hinit : ¬(s'.loc init).Exiting)
    (hgone : ∀ r, r = p ∨ r = n → ((s'.loc r).Gone ↔ ¬(s'.proc r).Active))
    (hdead : ∀ r, r = p ∨ r = n → (s'.proc r).state = .unused → s'.loc r = .dead)
    (hlocks : ∀ r, r = p ∨ r = n → ∀ q ∈ (s'.loc r).locks r, q ∈ (s.loc r).locks r)
    (hat : ∀ r, r = p ∨ r = n → s'.LocInv r (s'.loc r))
    (hother : ∀ r, r ≠ p → r ≠ n → s'.LocInv r (s.loc r)) : Threads init s' := by
  obtain ⟨h1, h2, h3, h4, h5⟩ := h
  have hlocks' : ∀ r, ∀ q ∈ (s'.loc r).locks r, q ∈ (s.loc r).locks r := by grind
  constructor <;> grind

/-- What all steps keep. -/
structure Inv (init : Fin N) (s : ProcTree N) : Prop where
  tree : Rooted init s.proc s.born s.births
  deaths : Deaths s.proc s.born s.births s.exited s.reaped
  threads : Threads init s

section

variable (h : Inv init s)

include h

/-- A thread goes on. -/
theorem Inv.goto (hgone : l.Gone ↔ (s.loc p).Gone) (hinit : p = init → ¬l.Exiting)
    (hdead : (s.proc p).state = .unused → l = .dead)
    (hlocks : ∀ q ∈ l.locks p, q ∈ (s.loc p).locks p ∨ s.Free q)
    (hrun : (s.proc p).state ≠ .runnable) (hat : (s.goto p l).LocInv p l) :
    Inv init (s.goto p l) := by
  obtain ⟨htree, hdeaths, h⟩ := h
  refine ⟨htree, hdeaths, ?_, fun a => ?_, fun a ha => ?_, fun a b q ha hb => ?_, fun a => ?_⟩
  · grind [h.init_loc]
  · grind [h.gone a]
  · grind [h.dead a]
  · grind [h.lock a b q, Free]
  · have hl := h.locInv a
    by_cases ha : a = p
    · grind
    · rw [goto_loc, if_neg ha]
      cases hloc : s.loc a <;> rw [hloc] at hl <;> simp only [LocInv, goto_proc] at hl ⊢ <;> grind

/-- The fields of `q` change, but not its parent, not whether it is in use or a zombie, and not what
a zombie leaves behind. -/
theorem Inv.setProc {f : ProcFields N → ProcFields N}
    (hpar : (f (s.proc q)).parent = (s.proc q).parent)
    (hun : (f (s.proc q)).state = .unused ↔ (s.proc q).state = .unused)
    (hz : (f (s.proc q)).state = .zombie ↔ (s.proc q).state = .zombie)
    (hdeath : (s.proc q).state = .zombie → (f (s.proc q)).pid = (s.proc q).pid ∧
      (f (s.proc q)).xstate = (s.proc q).xstate) (htest : ∀ a, s.loc a ≠ .forkTest q) :
    Inv init (s.setProc q f) := by
  have hpar' : ∀ r, ((s.setProc q f).proc r).parent = (s.proc r).parent := by grind
  have hun' : ∀ r, ((s.setProc q f).proc r).state = .unused ↔ (s.proc r).state = .unused := by
    grind
  have hz' : ∀ r, ((s.setProc q f).proc r).state = .zombie ↔ (s.proc r).state = .zombie := by
    grind
  refine ⟨h.tree.congr hpar' hun' hz',
    h.deaths.congr le_rfl hz' (by grind [deathOf, ProcTree.setProc]) (by grind [ProcTree.setProc]),
    h.threads.init_loc, fun r => ?_, fun r hr => h.threads.dead r ((hun' r).1 hr), h.threads.lock,
    fun r => ?_⟩
  · simp only [setProc_loc, h.threads.gone r, ProcFields.Active, ne_eq, hun', hz']
  · have hl := h.threads.locInv r
    rw [setProc_loc]
    cases hr : s.loc r <;> rw [hr] at hl <;>
      simp only [LocInv, Seen, hpar', hun', setProc_loc] at hl ⊢ <;> grind

theorem Inv.ne_init (hp : (s.loc p).Exiting) : p ≠ init := by
  rintro rfl
  exact h.threads.init_loc hp

theorem Inv.ne_of_mem_locks (hp : n ∈ (s.loc p).locks p) {r : Fin N} (hr : r ≠ p) :
    s.loc r ≠ .forkHold n ∧ s.loc r ≠ .forkTest n := by
  have hlk : ∀ l, n ∈ TreeLoc.locks r l → s.loc r ≠ l := by
    rintro l hl rfl
    exact hr (h.threads.lock r p n hl hp)
  exact ⟨hlk _ (List.mem_singleton_self n), hlk _ (List.mem_singleton_self n)⟩

section

variable (hrun : (s.proc p).state = .running)

include hrun

theorem Inv.forkTest_ne {r w : Fin N} (hr : s.loc r = .forkTest w) : w ≠ p := by
  rintro rfl
  have hl := h.threads.locInv r
  rw [hr] at hl
  rw [hl.1] at hrun
  cases hrun

theorem Inv.other (hne : ∀ r, r ≠ n → s'.proc r = s.proc r)
    (hloc : ∀ r, r ≠ p → r ≠ n → s'.loc r = s.loc r) {r : Fin N}
    (hfork : s.loc r ≠ .forkHold n ∧ s.loc r ≠ .forkTest n) (hold : (s.proc n).parent ≠ some r)
    (hexit : (s.loc r).Exiting → (s'.proc n).parent ≠ some r)
    (hseen : ∀ i, Seen s.proc r i → Seen s'.proc r i)
    (htest : ∀ w, s.loc r = .forkTest w → (s'.proc n).parent ≠ some w) : s'.LocInv r (s.loc r) := by
  refine (h.threads.locInv r).of_ne hne hold hfork.1 hexit hseen fun w hw => ?_
  have hwn : w ≠ n := by
    rintro rfl
    exact hfork.2 hw
  have hl := h.threads.locInv r
  rw [hw] at hl
  exact ⟨hwn, (hloc w (h.forkTest_ne hrun hw) hwn).trans hl.2.2.1, htest w hw⟩

/-- `fork` gives `p` a new child. -/
theorem Inv.forkCopy (hloc : s.loc p = .forkHold n) :
    Inv init ((s.forkCopy p n).goto p (.forkTest n)) := by
  have hun : s.LocInv p (.forkHold n) := hloc ▸ h.threads.locInv p
  simp only [LocInv] at hun
  have hpact : (s.proc p).Active := by simp [ProcFields.Active, hrun]
  have hno := h.tree.not_parent (q := n) fun ha => ha.1 hun
  have hparn := h.tree.unused n hun
  have hmem : n ∈ (s.loc p).locks p := by simp [hloc]
  obtain ⟨t, ht⟩ : ∃ t, t = (s.forkCopy p n).goto p (.forkTest n) := ⟨_, rfl⟩
  have hproc : ∀ r, t.proc r = if r = n then { s.proc n with parent := some p, state := .runnable }
      else s.proc r := fun r => by rw [ht]; exact update_apply ..
  have hl : ∀ r, t.loc r = if r = p then .forkTest n else if r = n then .out else s.loc r := by
    intro r
    rw [ht, goto_loc, show (s.forkCopy p n).loc r = _ from update_apply ..]
  have hborn : ∀ r, t.born r = if r = n then s.births else s.born r := fun r => by
    rw [ht]
    exact update_apply ..
  have htree : Rooted init t.proc t.born t.births := by
    rw [ht]
    exact h.tree.fork hun hpact (by simp [ProcFields.Active]) rfl
  have hdeaths : Deaths t.proc t.born t.births s.exited s.reaped :=
    h.deaths.congr (by rw [ht]; exact Nat.le_succ _) (by grind) (by grind [deathOf]) (by grind)
  refine ht ▸ ⟨htree, by rw [ht] at hdeaths ⊢; exact hdeaths,
    h.threads.change (p := p) (n := n) (by grind) (by grind) ?_ (by grind) (by grind) (by grind) ?_
      fun r hrp hrn => ?_⟩
  · grind [h.threads.init_loc, h.tree.init_active]
  · rintro r (rfl | rfl)
    · rw [hl, if_pos rfl]
      refine ⟨?_, ?_, ?_, ?_⟩ <;> grind
    · grind [LocInv]
  · refine h.other (n := n) hrun (by grind) (by grind) (h.ne_of_mem_locks hmem hrp) (by grind)
      (by grind) (fun i hi => hi.of_ne (n := n) (by grind) (by grind) (by grind)) fun w hw => ?_
    grind [h.forkTest_ne hrun hw]

theorem Inv.threads_freed {t : ProcTree N} (hpar : (s.proc n).parent = some p) (hnp : n ≠ p)
    (hproc : ∀ r, t.proc r = if r = n then .freed else s.proc r)
    (hl : ∀ r, t.loc r = if r = p then .out else if r = n then .dead else s.loc r)
    (hfork : ∀ r, r ≠ p → s.loc r ≠ .forkHold n ∧ s.loc r ≠ .forkTest n) : Threads init t := by
  have hi := h.tree.ne_init hpar
  refine h.threads.change (p := p) (n := n) (by grind) (by grind) ?_ (by grind [ProcFields.freed])
    (by grind) (by grind) (by grind [LocInv]) fun r hrp hrn => ?_
  · grind [h.threads.init_loc]
  · exact h.other (n := n) hrun (by grind) (by grind) (hfork r hrp) (by grind)
      (by grind [ProcFields.freed]) (fun i hi => hi.of_ne (n := n) (by grind) (by grind)
      (by grind [ProcFields.freed])) (by grind [ProcFields.freed])

/-- `fork` is refused: the new child goes away. -/
theorem Inv.refuse (hloc : s.loc p = .forkTest n) :
    Inv init (((s.setProc n fun _ => .freed).goto n .dead).goto p .out) := by
  obtain ⟨hst, hpar, -, hno⟩ : s.LocInv p (.forkTest n) := hloc ▸ h.threads.locInv p
  have hmem : n ∈ (s.loc p).locks p := by simp [hloc]
  obtain ⟨t, ht⟩ : ∃ t, t = ((s.setProc n fun _ => .freed).goto n .dead).goto p .out := ⟨_, rfl⟩
  have hproc : ∀ r, t.proc r = if r = n then .freed else s.proc r := fun r => by
    rw [ht, goto_proc, goto_proc, setProc_proc]
  have hl : ∀ r, t.loc r = if r = p then .out else if r = n then .dead else s.loc r := by grind
  have htree : Rooted init t.proc t.born t.births := by
    rw [ht]
    exact h.tree.leave (h.tree.ne_init hpar) hno (.inl ⟨rfl, rfl⟩)
  have hdeaths : Deaths t.proc s.born s.births s.exited s.reaped :=
    h.deaths.congr le_rfl (by grind [ProcFields.freed]) (by grind [deathOf])
      (by grind [ProcFields.freed])
  exact ht ▸ ⟨htree, by rw [ht] at hdeaths ⊢; exact hdeaths,
    h.threads_freed hrun hpar (h.forkTest_ne hrun hloc) hproc hl fun _ => h.ne_of_mem_locks hmem⟩

/-- `reparent` gives a child of `p` to `init`. -/
theorem Inv.give {par pp : Fin N} {status : ℤ} (hloc : s.loc p = .exitGive par status pp)
    (hfree : s.Free pp) : Inv init ((s.setProc pp fun x => { x with parent := some init }).goto p
      (.exitScan par status (pp + 1))) := by
  obtain ⟨hpar, hno⟩ : s.LocInv p (.exitGive par status pp) := hloc ▸ h.threads.locInv p
  have hpi : p ≠ init := h.ne_init (by rw [hloc]; trivial)
  have hpp : pp ≠ p := fun e => (h.tree.older pp p hpar).ne (by rw [e])
  have hact : (s.proc p).Active := by simp [ProcFields.Active, hrun]
  obtain ⟨t, ht⟩ : ∃ t, t = (s.setProc pp fun x => { x with parent := some init }).goto p
    (.exitScan par status (pp + 1)) := ⟨_, rfl⟩
  have hproc : ∀ r, t.proc r = if r = pp then { s.proc pp with parent := some init }
      else s.proc r := fun r => by rw [ht, goto_proc, setProc_proc]
  have hl : ∀ r, t.loc r = if r = p then .exitScan par status (pp + 1) else s.loc r := by grind
  have htree : Rooted init t.proc t.born t.births := by
    rw [ht]
    exact h.tree.give hpar rfl rfl
  have hdeaths : Deaths t.proc s.born s.births s.exited s.reaped :=
    h.deaths.congr le_rfl (by grind) (by grind [deathOf]) (by grind)
  have hother : ∀ r, r ≠ p → t.LocInv r (s.loc r) := fun r hrp => by
    refine h.other (n := pp) hrun (by grind) (by grind) (hfree.ne_fork r) (by grind)
      (fun hex => ?_) (fun i hi => ?_) fun w hw => ?_
    · grind [h.ne_init hex]
    · by_cases hri : r = init
      · rcases hi with ⟨q, hq, hqp⟩ | hi
        · exact .inl ⟨q, hq, by grind⟩
        · -- `p` is there, so `init` has a child
          exact absurd (h.tree.alone (hri ▸ hi) hpi) hact.1
      · exact hi.of_ne (n := pp) (by grind) (by grind) (by grind)
    · obtain ⟨-, hw', -⟩ : s.LocInv r (.forkTest w) := hw ▸ h.threads.locInv r
      grind [h.tree.ne_init hw']
  refine ht ▸ ⟨htree, by rw [ht] at hdeaths ⊢; exact hdeaths,
    h.threads.change (p := p) (n := pp) (by grind) (by grind) ?_ (fun r hr => ?_) (fun r hr => ?_)
      (by grind) (fun r hr => ?_) fun r hrp _ => hother r hrp⟩
  · grind [h.threads.init_loc]
  · grind [h.threads.gone r]
  · grind [h.threads.dead r]
  · by_cases hrp : r = p
    · subst hrp
      rw [hl, if_pos rfl]
      intro q hq
      have := hno q
      rcases Nat.lt_succ_iff_lt_or_eq.1 hq with hq | hq
      · grind
      · grind [Fin.ext hq]
    · rw [hl, if_neg hrp]
      exact hother r hrp

/-- `wait` frees a zombie. -/
theorem Inv.reap {havekids : Bool} (hloc : s.loc p = .waitLook havekids n) (hfree : s.Free n)
    (hz : (s.proc n).state = .zombie) : Inv init ((s.reap n).goto p .out) := by
  have hpar : s.LocInv p (.waitLook havekids n) := hloc ▸ h.threads.locInv p
  simp only [LocInv] at hpar
  have hna : ¬(s.proc n).Active := fun ha => ha.2 hz
  have hno := h.tree.not_parent hna
  have hdead : s.loc n = .dead := by
    have hg := (h.threads.gone n).2 hna
    have := hfree n
    grind
  obtain ⟨t, ht⟩ : ∃ t, t = (s.reap n).goto p .out := ⟨_, rfl⟩
  have hproc : ∀ r, t.proc r = if r = n then .freed else s.proc r := fun r => by
    rw [ht]
    exact update_apply ..
  have hl : ∀ r, t.loc r = if r = p then .out else s.loc r := fun r => by
    rw [ht]
    exact update_apply ..
  have htree : Rooted init t.proc t.born t.births := by
    rw [ht]
    exact h.tree.leave (h.tree.ne_init hpar) hno (.inl ⟨rfl, rfl⟩)
  have hdeaths : Deaths t.proc t.born t.births t.exited t.reaped := by
    rw [ht]
    exact h.deaths.reap h.tree hz rfl
  exact ht ▸ ⟨htree, hdeaths, h.threads_freed hrun hpar (by grind) hproc (by grind)
    fun r _ => hfree.ne_fork r⟩

/-- `exit` becomes final: `p` has no children any more. -/
theorem Inv.final {par : Fin N} {status : ℤ} {i : ℕ} (hloc : s.loc p = .exitScan par status i)
    (hi : N ≤ i) : Inv init ((s.exitFinal p status).goto p .exitSched) := by
  have hno : ∀ q, (s.proc q).parent ≠ some p := fun q => by
    have hl : s.LocInv p (.exitScan par status i) := hloc ▸ h.threads.locInv p
    exact hl q (q.isLt.trans_le hi)
  have hpi : p ≠ init := h.ne_init (by rw [hloc]; trivial)
  have hact : (s.proc p).Active := by simp [ProcFields.Active, hrun]
  have hmem : p ∈ (s.loc p).locks p := by simp [hloc]
  obtain ⟨t, ht⟩ : ∃ t, t = (s.exitFinal p status).goto p .exitSched := ⟨_, rfl⟩
  have hproc : ∀ r, t.proc r = if r = p then { s.proc p with xstate := status, state := .zombie }
      else s.proc r := fun r => by rw [ht]; exact update_apply ..
  have hl : ∀ r, t.loc r = if r = p then .exitSched else s.loc r := fun r => by
    rw [ht]
    exact update_apply ..
  have htree : Rooted init t.proc t.born t.births := by
    rw [ht]
    exact h.tree.leave hpi hno (.inr ⟨by simp, hact.1, rfl⟩)
  have hdeaths : Deaths t.proc t.born t.births t.exited t.reaped := by
    rw [ht]
    exact h.deaths.final hact rfl
  refine ht ▸ ⟨htree, hdeaths, h.threads.change (p := p) (n := p) (by grind) (by grind) ?_
    (by grind) (by grind) (by grind) (by grind [LocInv]) fun r hrp _ => ?_⟩
  · grind [h.threads.init_loc]
  · have hinv := h.threads.locInv r
    have hw := fun w => h.ne_of_mem_locks (n := w) (r := r) (p := p)
    cases hr : s.loc r <;> rw [hr] at hinv <;> simp only [LocInv, Seen] at hinv ⊢ <;> grind

end

end

end ProcTree

end Xv6Container
