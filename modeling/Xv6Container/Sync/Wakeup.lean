import Xv6Container.Sync.Sleep

/-!
# No wakeup is lost

Between its test of the condition and its sleep a process always holds a lock that stands in the
way of a waker: first `lk`, which the waker needs to make the condition true, then its own
`p->lock`, which `wakeup` needs to pass it.  So the scan of a waker that made the condition true
after the test has not passed the process as long as it sleeps, or is on the way to it
(`Sleepers.Inv.pending`).

* `sleep_loses_no_wakeup` : **no process sleeps through a complete wakeup for a condition that
  became true after its last test, and `sleep` returns with the lock**.
-/

namespace Xv6Container

open Function

/-- The locks that process `p` holds at a location. -/
@[simp]
def WaitLoc.locks {N : ℕ} (lk : Option (Fin N)) (p : Fin N) : WaitLoc → List (Option (Fin N))
  | test | hold | lockSelf => [lk]
  | unlock => [lk, some p]
  | doze | sched | tidy => [some p]
  | out | acquire | parked | reacquire => []

namespace WakeLoc

variable {N : ℕ}

/-- The locks that a waker holds at a location. -/
@[simp]
def locks (lk : Option (Fin N)) : WakeLoc N → List (Option (Fin N))
  | hold | made | woke => [lk]
  | scan _ locked => if locked then [lk] else []
  | look q locked => some q :: if locked then [lk] else []
  | out | acquire => []

/-- The process that a waker which owes a wakeup looks at next. -/
@[simp]
def pos : WakeLoc N → Option ℕ
  | made => some 0
  | scan k _ => some k
  | look q _ => some q
  | out | acquire | hold | woke => none

end WakeLoc

namespace Sleepers

variable {N : ℕ} {W : Type} {lk : Option (Fin N)} {s s' : Sleepers N W} {p : Fin N} {w : W}

/-- The locks that a process or a waker holds where it is. -/
@[simp]
def locks (s : Sleepers N W) (lk : Option (Fin N)) : Fin N ⊕ W → List (Option (Fin N))
  | .inl p => (s.waiter p).locks lk p
  | .inr w => (s.waker w).locks lk

/-- A process in this state and at this location sleeps, or is on the way to it: it has found the
condition false. -/
def Drowsy (z : ProcState) : WaitLoc → Prop
  | .lockSelf | .unlock | .doze | .sched => True
  | .parked => z = .sleeping
  | .out | .acquire | .test | .hold | .tidy | .reacquire => False

/-- The process has `lk` and has found the condition false. -/
def Leaving (l : WaitLoc) : Prop := l = .lockSelf ∨ l = .unlock

/-- What all steps keep. -/
structure Inv (lk : Option (Fin N)) (s : Sleepers N W) : Prop where
  held : ∀ a, ∀ l ∈ s.locks lk a, s.held l = some a
  nodup : ∀ a, (s.locks lk a).Nodup
  own : ∀ p, s.waiter p ≠ .out → lk = none ∨ lk = some p
  asleep : ∀ p, s.state p = .sleeping → s.waiter p = .sched ∨ s.waiter p = .parked
  chan : ∀ p, s.waiter p = .sched ∨ s.waiter p = .parked → s.chan p = true
  made_le : ∀ w, s.made w ≤ s.clock
  completed_le : ∀ t ∈ s.completed, t ≤ s.clock
  woke : ∀ w p, s.waker w = .woke → ¬Drowsy (s.state p) (s.waiter p)
  before : ∀ p, Leaving (s.waiter p) → ∀ w k, (s.waker w).pos = some k → s.made w ≤ s.tested p
  pending : ∀ p, Drowsy (s.state p) (s.waiter p) →
    ∀ w k, (s.waker w).pos = some k → s.tested p < s.made w → k ≤ p
  done : ∀ p, Drowsy (s.state p) (s.waiter p) → ∀ t ∈ s.completed, t ≤ s.tested p

theorem inv_init {cond : Bool} : Inv lk (init cond : Sleepers N W) := by
  constructor <;> simp [init, Drowsy]

variable {a : Fin N ⊕ W} {q : Fin N} {l : WaitLoc}

theorem wakeup1_waiter (s : Sleepers N W) (q : Fin N) : (s.wakeup1 q).waiter = s.waiter := by
  unfold Sleepers.wakeup1
  split <;> rfl

theorem wakeup1_waker (s : Sleepers N W) (q : Fin N) : (s.wakeup1 q).waker = s.waker := by
  unfold Sleepers.wakeup1
  split <;> rfl

theorem wakeup1_held (s : Sleepers N W) (q : Fin N) : (s.wakeup1 q).held = s.held := by
  unfold Sleepers.wakeup1
  split <;> rfl

variable (h : Inv lk s)

include h

theorem Inv.eq_of_locks {b : Fin N ⊕ W} {l : Option (Fin N)}
    (ha : l ∈ s.locks lk a) (hb : l ∈ s.locks lk b) : a = b :=
  Option.some.inj ((h.held a l ha).symm.trans (h.held b l hb))

/-! ### Locks -/

theorem Inv.acquire {l : Option (Fin N)}
    (hst : s.acquire l a = some s') :
    Inv lk s' ∧ s.held l = none ∧ s'.held l = some a ∧ s' = { s with held := s'.held } := by
  rw [Sleepers.acquire, Option.ite_none_right_eq_some, Option.some.injEq] at hst
  obtain ⟨hfree, rfl⟩ := hst
  refine ⟨{ h with held := fun b l' hl' => ?_ }, hfree, update_self .., rfl⟩
  have hb := h.held b l' hl'
  have hne : l' ≠ l := by
    rintro rfl
    rw [hfree] at hb
    cases hb
  exact (update_of_ne hne _ _).trans hb

theorem Inv.release {l : Option (Fin N)} (hl : s.held l = some a)
    (ha : l ∉ s.locks lk a) : Inv lk (s.release l) := by
  refine { h with held := fun b l' hl' => ?_ }
  have hb := h.held b l' hl'
  have hne : l' ≠ l := by
    rintro rfl
    rw [hl, Option.some.injEq] at hb
    exact ha (hb ▸ hl')
  exact (update_of_ne hne _ _).trans hb

/-! ### States and clocks -/

theorem Inv.rouse (q : Fin N) {z : ProcState} (hz : z ≠ .sleeping) :
    Inv lk { s with state := update s.state q z } := by
  have hstate : ∀ p, update s.state q z p = .sleeping → s.state p = .sleeping := by
    intro p hp
    by_cases hpq : p = q
    · subst hpq
      rw [update_self] at hp
      exact absurd hp hz
    · rwa [update_of_ne hpq] at hp
  have hdrowsy : ∀ p, Drowsy (update s.state q z p) (s.waiter p) →
      Drowsy (s.state p) (s.waiter p) := by
    intro p hp
    cases hw : s.waiter p with
    | parked => rw [hw] at hp; exact hstate p hp
    | _ => rwa [hw] at hp
  exact { h with
    asleep := fun p hp => h.asleep p (hstate p hp)
    woke := fun w p hw hp => h.woke w p hw (hdrowsy p hp)
    pending := fun p hp => h.pending p (hdrowsy p hp)
    done := fun p hp => h.done p (hdrowsy p hp) }

theorem Inv.wakeup1 (q : Fin N) : Inv lk (s.wakeup1 q) := by
  unfold Sleepers.wakeup1
  split
  · exact h.rouse q (by simp)
  · exact h

theorem Inv.kill (q : Fin N) : Inv lk (s.kill q) := by
  unfold Sleepers.kill
  split
  · exact h.rouse q (by simp)
  · exact h

theorem Inv.not_drowsy_wakeup1 (hq : s.held (some q) = some (.inr w))
    (hl : ¬Leaving (s.waiter q)) : ¬Drowsy ((s.wakeup1 q).state q) (s.waiter q) := by
  intro hd
  have hnone : ∀ l, l ∈ (s.waiter q).locks lk q → l ≠ some q := by
    rintro _ hm rfl
    have := h.held (.inl q) _ hm
    rw [hq] at this
    cases this
  cases hw : s.waiter q with
  | lockSelf => exact hl (.inl hw)
  | unlock => exact hl (.inr hw)
  | doze => exact hnone (some q) (by simp [hw]) rfl
  | sched => exact hnone (some q) (by simp [hw]) rfl
  | parked =>
    rw [hw] at hd
    have hc := h.chan q (.inr hw)
    by_cases hz : s.state q = .sleeping
    · simp [Sleepers.wakeup1, hz, hc, Drowsy] at hd
    · simp [Sleepers.wakeup1, hz, Drowsy] at hd
  | _ => rw [hw] at hd; exact hd

theorem Inv.test (p : Fin N) :
    Inv lk { s with clock := s.clock + 1, tested := update s.tested p (s.clock + 1) } := by
  have hle : ∀ t q, t ≤ s.tested q → t ≤ s.clock → t ≤ update s.tested p (s.clock + 1) q := by
    intro t q ht hc
    rw [update_apply]
    split <;> omega
  refine { h with
    made_le := fun w => (h.made_le w).trans (Nat.le_succ _)
    completed_le := fun t ht => (h.completed_le t ht).trans (Nat.le_succ _)
    before := fun q hq w k hk => hle _ _ (h.before q hq w k hk) (h.made_le w)
    pending := fun q hq w k hk hlt => h.pending q hq w k hk ?_
    done := fun q hq t ht => hle _ _ (h.done q hq t ht) (h.completed_le t ht) }
  have hm := h.made_le w
  dsimp only at hlt
  rw [update_apply] at hlt
  split at hlt <;> omega

theorem Inv.complete (hw : ∀ p, Drowsy (s.state p) (s.waiter p) → s.made w ≤ s.tested p) :
    Inv lk (s.complete w) :=
  { h with
    completed_le := List.forall_mem_cons.2 ⟨h.made_le w, h.completed_le⟩
    done := fun p hp => List.forall_mem_cons.2 ⟨hw p hp, h.done p hp⟩ }

/-! ### Moves -/

theorem Inv.goto (hheld : ∀ m ∈ l.locks lk p, s.held m = some (.inl p))
    (hnodup : (l.locks lk p).Nodup)
    (hown : lk = none ∨ lk = some p) (hasleep : s.state p = .sleeping → l = .sched ∨ l = .parked)
    (hchan : l = .sched ∨ l = .parked → s.chan p = true)
    (hwoke : ∀ w, s.waker w = .woke → ¬Drowsy (s.state p) l)
    (hbefore : Leaving l → ∀ w k, (s.waker w).pos = some k → s.made w ≤ s.tested p)
    (hpending : Drowsy (s.state p) l → ∀ w k, (s.waker w).pos = some k →
      s.tested p < s.made w → k ≤ p)
    (hdone : Drowsy (s.state p) l → ∀ t ∈ s.completed, t ≤ s.tested p) : Inv lk (s.goto p l) := by
  have hloc : ∀ (C : Fin N → WaitLoc → Prop), C p l → (∀ q, C q (s.waiter q)) →
      ∀ q, C q ((s.goto p l).waiter q) := fun C hp hq =>
    (forall_update_iff s.waiter C).2 ⟨hp, fun q _ => hq q⟩
  refine { h with
    held := ?_
    nodup := ?_
    own := hloc (fun q l => l ≠ .out → lk = none ∨ lk = some q) (fun _ => hown) h.own
    asleep := hloc (fun q l => s.state q = .sleeping → l = .sched ∨ l = .parked) hasleep h.asleep
    chan := hloc (fun q l => l = .sched ∨ l = .parked → s.chan q = true) hchan h.chan
    woke := fun w q hw => hloc (fun q l => ¬Drowsy (s.state q) l) (hwoke w hw)
      (fun q => h.woke w q hw) q
    before := hloc (fun q l => Leaving l → ∀ w k, (s.waker w).pos = some k → s.made w ≤ s.tested q)
      hbefore h.before
    pending := hloc (fun q l => Drowsy (s.state q) l → ∀ w k, (s.waker w).pos = some k →
      s.tested q < s.made w → k ≤ q) hpending h.pending
    done := hloc (fun q l => Drowsy (s.state q) l → ∀ t ∈ s.completed, t ≤ s.tested q) hdone
      h.done }
  · rintro (q | w)
    · exact hloc (fun q l => ∀ m ∈ l.locks lk q, s.held m = some (.inl q)) hheld
        (fun q => h.held (.inl q)) q
    · exact h.held (.inr w)
  · rintro (q | w)
    · exact hloc (fun q l => (l.locks lk q).Nodup) hnodup (fun q => h.nodup (.inl q)) q
    · exact h.nodup (.inr w)

theorem Inv.gotoAwake (hl : ∀ z, ¬Drowsy z l)
    (hheld : ∀ m ∈ l.locks lk p, s.held m = some (.inl p)) (hnodup : (l.locks lk p).Nodup)
    (hown : lk = none ∨ lk = some p) (hz : s.state p ≠ .sleeping) : Inv lk (s.goto p l) := by
  refine h.goto hheld hnodup hown (fun hs => absurd hs hz) ?_ (fun _ _ => hl _) ?_
    (fun hd => absurd hd (hl _)) fun hd => absurd hd (hl _)
  · rintro (rfl | rfl)
    · exact absurd trivial (hl .running)
    · exact absurd rfl (hl .sleeping)
  · rintro (rfl | rfl) <;> exact absurd trivial (hl .running)

theorem Inv.gotoDrowsy (hdrowsy : Drowsy (s.state p) (s.waiter p))
    (hheld : ∀ m ∈ l.locks lk p, s.held m = some (.inl p)) (hnodup : (l.locks lk p).Nodup)
    (hasleep : s.state p = .sleeping → l = .sched ∨ l = .parked)
    (hchan : l = .sched ∨ l = .parked → s.chan p = true)
    (hleaving : Leaving l → Leaving (s.waiter p)) : Inv lk (s.goto p l) := by
  have hown : lk = none ∨ lk = some p := by
    refine h.own p fun ho => ?_
    rw [ho] at hdrowsy
    exact hdrowsy
  exact h.goto hheld hnodup hown hasleep hchan (fun w hw => absurd hdrowsy (h.woke w p hw))
    (fun hl => h.before p (hleaving hl)) (fun _ => h.pending p hdrowsy) fun _ => h.done p hdrowsy

/-! ### Steps of a waiter -/

theorem Inv.awake (hl : s.waiter p = l) (hsched : l ≠ .sched)
    (hparked : l ≠ .parked) : s.state p ≠ .sleeping := by
  intro hz
  subst hl
  exact (h.asleep p hz).elim hsched hparked

theorem Inv.setChan {b : Bool}
    (hb : s.waiter p = .sched ∨ s.waiter p = .parked → b = true) :
    Inv lk { s with chan := update s.chan p b } := by
  refine { h with chan := fun q hq => ?_ }
  by_cases hqp : q = p
  · subst hqp
    simpa using hb hq
  · simpa [hqp] using h.chan q hq

theorem Inv.setSleeping (hp : s.waiter p = .sched) :
    Inv lk { s with state := update s.state p .sleeping } := by
  have hdrowsy : ∀ q, Drowsy (update s.state p .sleeping q) (s.waiter q) →
      Drowsy (s.state q) (s.waiter q) := by
    intro q hq
    by_cases hqp : q = p
    · subst hqp
      rw [hp]
      trivial
    · rwa [update_of_ne hqp] at hq
  refine { h with
    asleep := fun q hq => ?_
    woke := fun w q hw hq => h.woke w q hw (hdrowsy q hq)
    pending := fun q hq => h.pending q (hdrowsy q hq)
    done := fun q hq => h.done q (hdrowsy q hq) }
  by_cases hqp : q = p
  · exact .inl (hqp ▸ hp)
  · dsimp only at hq
    rw [update_of_ne hqp] at hq
    exact h.asleep q hq

theorem Inv.enter (hl : s.waiter p = .acquire ∨ s.waiter p = .reacquire)
    (hst : s.acquire lk (.inl p) = some s') : Inv lk (s'.goto p .test) := by
  obtain ⟨h', -, hheld, hs'⟩ := h.acquire hst
  have hl' : s'.waiter p = .acquire ∨ s'.waiter p = .reacquire := by
    rw [hs']
    exact hl
  refine h'.gotoAwake (fun _ => id) (by simpa using hheld)
    (by simp) (h'.own p ?_) ?_
  · obtain hl' | hl' := hl' <;> simp [hl']
  · obtain hl' | hl' := hl' <;> exact h'.awake hl' (by simp) (by simp)

theorem Inv.loopTest (hl : s.waiter p = .test)
    (hcase : l = .hold ∨ l = .doze ∧ lk = some p ∨ l = .lockSelf) :
    Inv lk (Sleepers.goto { s with clock := s.clock + 1, tested := update s.tested p (s.clock + 1) }
      p l) := by
  have hp : lk ∈ s.locks lk (.inl p) := by simp [hl]
  have hz := h.awake hl (by simp) (by simp)
  have hown := h.own p (by simp [hl])
  have hwoke : ∀ w, s.waker w ≠ .woke := by
    intro w hw
    have := h.eq_of_locks hp (b := .inr w) (by simp [hw])
    cases this
  have hlocks : l.locks lk p = [lk] := by
    obtain rfl | ⟨rfl, hlk⟩ | rfl := hcase
    · rfl
    · simp [hlk]
    · rfl
  refine (h.test p).goto ?_ (hlocks ▸ List.nodup_singleton lk) hown (fun hs => absurd hs hz) ?_
    (fun w hw => absurd hw (hwoke w)) (fun _ w k _ => ?_) (fun _ w k _ hlt => ?_) fun _ t ht => ?_
  · rw [hlocks]
    simpa using h.held (.inl p) lk hp
  · obtain rfl | ⟨rfl, -⟩ | rfl := hcase <;> simp
  · simpa using (h.made_le w).trans (Nat.le_succ _)
  · have := h.made_le w
    simp only [update_self] at hlt
    omega
  · simpa using (h.completed_le t ht).trans (Nat.le_succ _)

theorem Inv.lockSelf (hl : s.waiter p = .lockSelf)
    (hst : s.acquire (some p) (.inl p) = some s') : Inv lk (s'.goto p .unlock) := by
  have hlk := h.held (.inl p) lk (by simp [hl])
  obtain ⟨h', hfree, hself, hs'⟩ := h.acquire hst
  have hl' : s'.waiter p = .lockSelf := by
    rw [hs']
    exact hl
  have hne : lk ≠ some p := by
    rintro rfl
    rw [hfree] at hlk
    cases hlk
  refine h'.gotoDrowsy (by simp [hl', Drowsy]) ?_ (by simpa using hne)
    (fun hz => absurd hz (h'.awake hl' (by simp) (by simp))) (by simp)
    (fun _ => .inl hl')
  have hlk' := h'.held (.inl p) lk (by simp [hl'])
  simpa using ⟨hlk', hself⟩

theorem Inv.wait (hst : s.waitStep lk p = some s') : Inv lk s' := by
  have hlocks : ∀ m ∈ (s.waiter p).locks lk p, s.held m = some (.inl p) := h.held (.inl p)
  unfold waitStep at hst
  split at hst
  case h_1 hl =>
    rw [Option.ite_none_right_eq_some, Option.some.injEq] at hst
    obtain ⟨hown, rfl⟩ := hst
    exact h.gotoAwake (fun _ => id) (by simp) (by simp) hown
      (h.awake hl (by simp) (by simp))
  case h_2 hl =>
    obtain ⟨t, ht, rfl⟩ := Option.map_eq_some_iff.1 hst
    exact h.enter (.inl hl) ht
  case h_3 hl =>
    cases hst
    refine h.loopTest hl ?_
    dsimp only
    split_ifs <;> simp [*]
  case h_4 hl =>
    cases hst
    rw [hl] at hlocks
    refine Inv.release (a := .inl p) (h.gotoAwake (fun _ => id) (by simp)
      (by simp) (h.own p (by simp [hl])) (h.awake hl (by simp) (by simp)))
      (hlocks lk (by simp)) (by simp [Sleepers.goto])
  case h_5 hl =>
    obtain ⟨t, ht, rfl⟩ := Option.map_eq_some_iff.1 hst
    exact h.lockSelf hl ht
  case h_6 hl =>
    cases hst
    have hnodup := h.nodup (.inl p)
    simp only [locks, hl, WaitLoc.locks, List.nodup_cons, List.mem_singleton] at hnodup
    rw [hl] at hlocks
    refine Inv.release (a := .inl p) (h.gotoDrowsy (l := .doze) (by simp [hl, Drowsy]) ?_
      (by simp) (fun hz => absurd hz (h.awake hl (by simp) (by simp))) (by simp)
      (by simp [Leaving])) (hlocks lk (by simp)) ?_
    · simpa using hlocks (some p) (by simp)
    · simpa [Sleepers.goto] using hnodup.1
  case h_7 hl =>
    cases hst
    rw [hl] at hlocks
    have hchan : Inv lk { s with chan := update s.chan p true } := h.setChan fun _ => rfl
    refine Inv.setSleeping (p := p) (hchan.gotoDrowsy (l := .sched) (by simp [hl, Drowsy]) hlocks
      (by simp) (by simp) (by simp) (by simp [Leaving])) (by simp [Sleepers.goto])
  case h_8 hl =>
    cases hst
    rw [hl] at hlocks
    exact Inv.release (a := .inl p) (h.gotoDrowsy (l := .parked) (by simp [hl, Drowsy])
      (by simp) (by simp) (by simp) (fun _ => h.chan p (.inl hl))
      (by simp [Leaving])) (hlocks _ (by simp))
      (by simp [Sleepers.goto])
  case h_9 hl =>
    rw [Option.ite_none_right_eq_some] at hst
    obtain ⟨t, ht, rfl⟩ := Option.map_eq_some_iff.1 hst.2
    obtain ⟨h', -, hheld, hs'⟩ := h.acquire ht
    have hl' : t.waiter p = .parked := by rw [hs']; exact hl
    exact (h'.rouse p (z := .running) (by simp)).gotoAwake (fun _ => id)
      (by simpa using hheld) (by simp) (h'.own p (by simp [hl']))
      (by simp)
  case h_10 hl =>
    cases hst
    rw [hl] at hlocks
    have hz := h.awake hl (by simp) (by simp)
    have hown := h.own p (by simp [hl])
    have hself := hlocks (some p) (by simp)
    split
    · next hlk =>
      refine Inv.setChan (p := p) (b := false) (h.gotoAwake (l := .test) (fun _ => id) ?_
        (by simp) hown hz) (by simp [Sleepers.goto])
      simpa [hlk] using hself
    · refine Inv.release (a := .inl p) (Inv.setChan (p := p) (b := false)
        (h.gotoAwake (l := .reacquire) (fun _ => id) (by simp)
          (by simp) hown hz) (by simp [Sleepers.goto])) hself
        (by simp [Sleepers.goto])
  case h_11 hl =>
    obtain ⟨t, ht, rfl⟩ := Option.map_eq_some_iff.1 hst
    exact h.enter (.inr hl) ht

/-! ### Steps of a waker -/

theorem Inv.not_leaving (hw : lk ∈ s.locks lk (.inr w)) (q : Fin N) :
    ¬Leaving (s.waiter q) := by
  intro hq
  have hq' : lk ∈ s.locks lk (.inl q) := by
    obtain hq | hq := hq <;> simp [hq]
  have := h.eq_of_locks hq' hw
  cases this

theorem Inv.nobody_drowsy (hlk : lk = some q)
    (hw : lk ∈ s.locks lk (.inr w)) (r : Fin N) :
    ¬Drowsy ((s.wakeup1 q).state r) ((s.wakeup1 q).waiter r) := by
  rw [wakeup1_waiter]
  intro hd
  have hr : r = q := by
    have hout : s.waiter r ≠ .out := by
      intro ho
      rw [ho] at hd
      exact hd
    have := h.own r hout
    rw [hlk] at this
    simpa [eq_comm] using this
  subst hr
  exact h.not_drowsy_wakeup1 (by simpa [hlk] using h.held (.inr w) lk hw) (h.not_leaving hw r) hd

variable [DecidableEq W]

theorem Inv.gotoW {l : WakeLoc N}
    (hheld : ∀ m ∈ l.locks lk, s.held m = some (.inr w)) (hnodup : (l.locks lk).Nodup)
    (hwoke : l = .woke → ∀ p, ¬Drowsy (s.state p) (s.waiter p))
    (hbefore : ∀ k, l.pos = some k → ∀ p, Leaving (s.waiter p) → s.made w ≤ s.tested p)
    (hpending : ∀ k, l.pos = some k → ∀ p, Drowsy (s.state p) (s.waiter p) →
      s.tested p < s.made w → k ≤ p) : Inv lk (s.gotoW w l) := by
  have hloc : ∀ (C : W → WakeLoc N → Prop), C w l → (∀ v, C v (s.waker v)) →
      ∀ v, C v ((s.gotoW w l).waker v) := fun C hw hv =>
    (forall_update_iff s.waker C).2 ⟨hw, fun v _ => hv v⟩
  refine { h with
    held := ?_
    nodup := ?_
    woke := fun v p hv => hloc (fun _ l => l = .woke → ¬Drowsy (s.state p) (s.waiter p))
      (fun hl => hwoke hl p) (fun v => h.woke v p) v hv
    before := fun p hp => hloc (fun v l => ∀ k, l.pos = some k → s.made v ≤ s.tested p)
      (fun k hk => hbefore k hk p hp) (h.before p hp)
    pending := fun p hp => hloc (fun v l => ∀ k, l.pos = some k → s.tested p < s.made v → k ≤ p)
      (fun k hk => hpending k hk p hp) (h.pending p hp) }
  · rintro (p | v)
    · exact h.held (.inl p)
    · exact hloc (fun v l => ∀ m ∈ l.locks lk, s.held m = some (.inr v)) hheld
        (fun v => h.held (.inr v)) v
  · rintro (p | v)
    · exact h.nodup (.inl p)
    · exact hloc (fun _ l => (l.locks lk).Nodup) hnodup (fun v => h.nodup (.inr v)) v

theorem Inv.set (hst : s.set w = some s') : Inv lk s' := by
  have hinv : (s.waker w).pos = none → Inv lk { s with
      cond := true, clock := s.clock + 1, made := update s.made w (s.clock + 1) } := by
    intro hpos
    have hmade : ∀ v k, (s.waker v).pos = some k → update s.made w (s.clock + 1) v = s.made v := by
      intro v k hk
      refine update_of_ne ?_ _ _
      rintro rfl
      rw [hpos] at hk
      cases hk
    refine { h with
      made_le := fun v => ?_
      completed_le := fun t ht => (h.completed_le t ht).trans (Nat.le_succ _)
      before := fun p hp v k hk => (hmade v k hk).le.trans (h.before p hp v k hk)
      pending := fun p hp v k hk hlt => h.pending p hp v k hk (hmade v k hk ▸ hlt) }
    have := h.made_le v
    dsimp only
    rw [update_apply]
    split <;> omega
  unfold Sleepers.set at hst
  dsimp only at hst
  split at hst
  case h_1 hl =>
    cases hst
    have hlk : lk ∈ s.locks lk (.inr w) := by simp [hl]
    refine (hinv (by rw [hl]; rfl)).gotoW ?_ (by simp) (by simp)
      (fun _ _ p hp => absurd hp (h.not_leaving hlk p)) ?_
    · simpa using h.held (.inr w) lk hlk
    · simp
  case h_2 hl =>
    cases hst
    have hlk : lk ∈ s.locks lk (.inr w) := by simp [hl]
    refine ((hinv (by rw [hl]; rfl)).complete (w := w)
      fun p hp => absurd hp (h.woke w p hl)).gotoW ?_ (by simp) (by simp)
      (by simp) (by simp)
    simpa [Sleepers.complete] using h.held (.inr w) lk hlk
  case h_3 => cases hst

theorem Inv.wakeFirst (hst : s.wakeFirst lk w = some s') : Inv lk s' := by
  unfold Sleepers.wakeFirst at hst
  split at hst
  case h_1 q hl =>
    cases hst
    have hlk : some q ∈ s.locks (some q) (.inr w) := by simp [hl]
    refine (h.wakeup1 q).gotoW ?_ (by simp) (fun _ => h.nobody_drowsy rfl hlk)
      (by simp) (by simp)
    rw [wakeup1_held]
    simpa using h.held (.inr w) _ hlk
  case h_2 => cases hst

theorem Inv.scan {k : ℕ} {locked : Bool} (hq : (q : ℕ) = k)
    (hl : s.waker w = .scan k locked) (hst : s.acquire (some q) (.inr w) = some s') :
    Inv lk (s'.gotoW w (.look q locked)) := by
  have hlocks : ∀ m ∈ (s.waker w).locks lk, s.held m = some (.inr w) := h.held (.inr w)
  obtain ⟨h', hfree, hheld, hs'⟩ := h.acquire hst
  have hl' : s'.waker w = .scan k locked := by
    rw [hs']
    exact hl
  have hlocks' : ∀ m ∈ (s'.waker w).locks lk, s'.held m = some (.inr w) := h'.held (.inr w)
  rw [hl] at hlocks
  rw [hl'] at hlocks'
  refine h'.gotoW ?_ ?_ (by simp) (fun _ _ p hp => ?_) ?_
  · exact List.forall_mem_cons.2 ⟨hheld, hlocks'⟩
  · cases locked with
    | false => simp
    | true =>
      have hlk := hlocks lk (by simp)
      have hne : some q ≠ lk := by
        rintro rfl
        rw [hfree] at hlk
        cases hlk
      simpa using hne
  · exact h'.before p hp w k (by simp [hl'])
  · intro k' hk' p hp
    simp only [WakeLoc.pos, Option.some.injEq] at hk'
    exact h'.pending p hp w k' (by simp [hl', ← hk', hq])

theorem Inv.look {locked : Bool} (hl : s.waker w = .look q locked) :
    Inv lk (((s.wakeup1 q).release (some q)).gotoW w (.scan (q + 1) locked)) := by
  have hlocks : ∀ m ∈ (s.waker w).locks lk, s.held m = some (.inr w) := h.held (.inr w)
  have hnodup := h.nodup (.inr w)
  simp only [locks, hl] at hlocks hnodup
  have hq := hlocks (some q) (by simp)
  have h' := h.wakeup1 q
  have hpos : ((s.wakeup1 q).waker w).pos = some (q : ℕ) := by
    rw [wakeup1_waker, hl]
    rfl
  refine Inv.release (a := .inr w) (h'.gotoW ?_ ?_ (by simp) (fun _ _ p hp => ?_) ?_)
    ((congrFun (wakeup1_held s q) _).trans hq) ?_
  · rw [wakeup1_held]
    exact fun m hm => hlocks m (List.mem_cons_of_mem _ hm)
  · exact (List.nodup_cons.1 hnodup).2
  · exact h'.before p hp w q hpos
  · intro k hk p hp hlt
    have hle := h'.pending p hp w q hpos hlt
    have hne : p ≠ q := by
      rintro rfl
      refine h.not_drowsy_wakeup1 hq (fun hleave => ?_) (wakeup1_waiter s p ▸ hp)
      have := h'.before p (wakeup1_waiter s p ▸ hleave) w p hpos
      omega
    have : (p : ℕ) ≠ q := fun he => hne (Fin.ext he)
    simp only [WakeLoc.pos, Option.some.injEq] at hk
    omega
  · simpa [Sleepers.gotoW] using (List.nodup_cons.1 hnodup).1

theorem Inv.wake (hst : s.wakeStep lk w = some s') : Inv lk s' := by
  have hlocks : ∀ m ∈ (s.waker w).locks lk, s.held m = some (.inr w) := h.held (.inr w)
  have hdrop : s.held lk = some (.inr w) → Inv lk ((s.release lk).gotoW w .out) := by
    intro hlk
    exact Inv.release (a := .inr w) (h.gotoW (l := .out) (by simp)
      (by simp) (by simp) (by simp) (by simp)) hlk
      (by simp [Sleepers.gotoW])
  unfold wakeStep at hst
  split at hst
  case h_1 hl =>
    cases hst
    exact h.gotoW (by simp) (by simp) (by simp)
      (by simp) (by simp)
  case h_2 hl =>
    obtain ⟨t, ht, rfl⟩ := Option.map_eq_some_iff.1 hst
    obtain ⟨h', -, hheld, -⟩ := h.acquire ht
    exact h'.gotoW (by simpa using hheld) (by simp) (by simp)
      (by simp) (by simp)
  case h_3 hl =>
    cases hst
    exact hdrop (hlocks lk (by simp [hl]))
  case h_4 hl =>
    cases hst
    exact hdrop (hlocks lk (by simp [hl]))
  case h_5 hl =>
    have hlk := hlocks lk (by simp [hl])
    split at hst
    · cases hst
      exact h.gotoW (by simpa using hlk) (by simp) (by simp)
        (fun _ _ p hp => h.before p hp w 0 (by simp [hl])) (by simp)
    · next q =>
      cases hst
      refine ((h.wakeup1 q).complete fun p hp => ?_).gotoW ?_ (by simp) (by simp)
        (by simp) (by simp)
      · exact absurd hp (h.nobody_drowsy (w := w) rfl (by simp [hl]) p)
      · simpa [Sleepers.complete, wakeup1_held] using hlk
  case h_6 k locked hl =>
    split at hst
    · obtain ⟨t, ht, rfl⟩ := Option.map_eq_some_iff.1 hst
      exact h.scan rfl hl ht
    · next hk =>
      -- the scan has passed everybody
      cases hst
      have hdone : Inv lk (s.complete w) := by
        refine h.complete fun p hp => ?_
        by_contra hlt
        have := h.pending p hp w k (by simp [hl]) (by omega)
        omega
      rw [hl] at hlocks
      cases locked with
      | false =>
        exact hdone.gotoW (by simp) (by simp) (by simp)
          (by simp) (by simp)
      | true =>
        exact hdone.gotoW hlocks (by simp) (by simp) (by simp)
          (by simp)
  case h_7 q locked hl =>
    cases hst
    exact h.look hl

/-- **Every step keeps the invariant.** -/
theorem Inv.next {e : SleepEvent N W} (hst : (sleepMachine lk).next s e = some s') :
    Inv lk s' := by
  cases e with
  | wait p => exact h.wait hst
  | wake w => exact h.wake hst
  | set w => exact h.set hst
  | wakeFirst w => exact h.wakeFirst hst
  | take p =>
    simp only [sleepMachine, Option.ite_none_right_eq_some, Option.some.injEq] at hst
    obtain ⟨-, rfl⟩ := hst
    exact { h with }
  | clear w =>
    simp only [sleepMachine, Option.ite_none_right_eq_some, Option.some.injEq] at hst
    obtain ⟨-, rfl⟩ := hst
    exact { h with }
  | kill q =>
    simp only [sleepMachine, Option.ite_none_right_eq_some, Option.some.injEq] at hst
    obtain ⟨-, rfl⟩ := hst
    exact h.kill q
  | release w =>
    simp only [sleepMachine, Option.ite_none_right_eq_some, Option.some.injEq] at hst
    obtain ⟨hl, rfl⟩ := hst
    have hlk := h.held (.inr w) lk (by simp [hl])
    exact Inv.release (a := .inr w) (h.gotoW (l := .scan 0 false) (by simp)
      (by simp) (by simp)
      (fun _ _ p hp => h.before p hp w 0 (by simp [hl])) (by simp)) hlk
      (by simp [Sleepers.gotoW])

end Sleepers

/-- **Sleep and wakeup lose no wakeup**, for any number of waiters and wakers and any order of
their steps.  When a process sleeps on the channel, every moment at which the condition was made
true by a waker whose `wakeup` is complete came before its last test of the condition; and a process
for which `sleep` has returned, to the test, holds the lock. -/
theorem sleep_loses_no_wakeup {N : ℕ} {W : Type} [DecidableEq W] (lk : Option (Fin N)) {cond : Bool}
    {s : Sleepers N W} {ls : List (SleepEvent N W)}
    (h : (sleepMachine lk).Run (fun _ _ => True) (.init cond) ls s) (p : Fin N) :
    (s.state p = .sleeping → s.chan p = true → ∀ t ∈ s.completed, ¬s.tested p < t) ∧
      (s.waiter p = .test → s.held lk = some (.inl p)) := by
  have hinv : s.Inv lk := h.invariant Sleepers.inv_init fun _ _ _ ht _ hst => ht.next hst
  constructor
  · intro hz _ t ht
    have hd : Sleepers.Drowsy (s.state p) (s.waiter p) := by
      obtain hw | hw := hinv.asleep p hz <;> simp [hw, hz, Sleepers.Drowsy]
    have := hinv.done p hd t ht
    omega
  · intro hw
    exact hinv.held (.inl p) lk (by simp [Sleepers.locks, hw])

/-- Process `0` sleeps and is woken by `releasesleep`; the lock is taken again, and process `1`
sleeps. -/
def handOver : List (SleepEvent 2 Unit) :=
  List.replicate 7 (.wait 0) ++ [.wake (), .wake (), .set ()] ++ List.replicate 6 (.wake ()) ++
    [.clear (), .wake ()] ++ List.replicate 7 (.wait 1)

theorem sleep_loses_no_wakeup_handOver : ∃ s : Sleepers 2 Unit,
    (sleepMachine none).run (.init false) handOver = some s ∧ s.state 0 = .runnable ∧
      s.state 1 = .sleeping ∧ s.completed = [2] ∧ ¬s.tested 1 < 2 := by
  have hrun : (sleepMachine none).run (.init false : Sleepers 2 Unit) handOver = some _ := rfl
  have h := sleep_loses_no_wakeup none (Machine.run_eq_some_iff.1 hrun) 1
  exact ⟨_, hrun, rfl, rfl, rfl, h.1 rfl rfl 2 (by decide)⟩

end Xv6Container
