import Xv6Container.Proc.System

/-!
# Whom `kill` reaches

`kill(n)` of `kernel/proc.c` takes the first slot whose number is `n`, and only then looks at the
container that the slot carries; it never looks at the state of the slot.  What a caller may
expect is that it reaches the process it can see under the number `n`, and nothing else.

* `Kernel.kill_of_first`, `Kernel.kill_of_absent` : what `kill` does, by the first slot with the
  number;
* `Kernel.kill_reaches_iff` : **`kill` reaches exactly the visible process** when the first slot
  with the number is a process in use that the caller can see, or when there is none to see.
-/

namespace Xv6Container

namespace Kernel

variable {s : Kernel} {p q : Slot} {n : ℤ}

/-- The number by which `p` addresses the process in a slot: inside a container, the `vpid`. -/
def number (s : Kernel) (p q : Slot) : ℤ :=
  if s.mycont p = some root then (s.proc q).pid else (s.proc q).vpid

/-- Slot `q` is the first whose number is `n`, in use or not. -/
def First (s : Kernel) (p : Slot) (n : ℤ) (q : Slot) : Prop :=
  s.number p q = n ∧ ∀ j < q, s.number p j ≠ n

instance (s : Kernel) (p : Slot) (n : ℤ) (q : Slot) : Decidable (s.First p n q) :=
  inferInstanceAs (Decidable (_ ∧ _))

/-- Process `p` sees the process in slot `q` under the number `n`: in the root container the number
is a `pid`, in another one it is the `vpid` of a process of that container. -/
def Visible (s : Kernel) (p : Slot) (n : ℤ) (q : Slot) : Prop :=
  (s.proc q).state ≠ .unused ∧
    if s.mycont p = some root then (s.proc q).pid = n
    else (s.proc q).container = s.mycont p ∧ (s.proc q).vpid = n

instance (s : Kernel) (p : Slot) (n : ℤ) (q : Slot) : Decidable (s.Visible p n q) :=
  inferInstanceAs (Decidable (_ ∧ _))

/-- What `kill(n)` by `p` should do: return 0 exactly when there is a process to be seen under the
number, mark exactly that process, and otherwise leave the tables alone. -/
structure KillReaches (s : Kernel) (p : Slot) (n : ℤ) : Prop where
  ret : (s.kill p n).1 = 0 ↔ ∃ q, s.Visible p n q
  hit : (s.kill p n).1 = 0 → ∃ q, s.Visible p n q ∧
    (s.kill p n).2 = { s with proc := Function.update s.proc q { s.proc q with
      killed := true
      state := if (s.proc q).state = .sleeping ∨ (s.proc q).state = .suspended then .runnable
        else (s.proc q).state } }
  miss : (s.kill p n).1 ≠ 0 → (s.kill p n).2 = s

/-- `kill` would change nothing in the slot. -/
def Marked (s : Kernel) (q : Slot) : Prop :=
  (s.proc q).killed = true ∧ (s.proc q).state ≠ .sleeping ∧ (s.proc q).state ≠ .suspended

instance (s : Kernel) (q : Slot) : Decidable (s.Marked q) := inferInstanceAs (Decidable (_ ∧ _))

/-- `kill` by `p` gives up at slot `q`, because of the container that the slot carries. -/
def TurnsDown (s : Kernel) (p q : Slot) : Prop :=
  s.mycont p ≠ some root ∧ (s.proc q).container ≠ s.mycont p

instance (s : Kernel) (p q : Slot) : Decidable (s.TurnsDown p q) :=
  inferInstanceAs (Decidable (_ ∧ _))

/-- When `kill(n)` by `p` can be relied on, by the first slot with the number `n`: `p` sees the
process in it; or `kill` gives up there and `p` sees no process under `n`; or the slot and a
process that `p` sees under `n` are both marked already. -/
def KillSafe (s : Kernel) (p : Slot) (n : ℤ) : Prop :=
  ∀ q, s.First p n q →
    s.Visible p n q ∨ (s.TurnsDown p q ∧ ∀ j, ¬ s.Visible p n j) ∨
      (¬ s.TurnsDown p q ∧ s.Marked q ∧ ∃ j, s.Visible p n j ∧ s.Marked j)

theorem Visible.number_eq (h : s.Visible p n q) : s.number p q = n := by
  unfold Visible at h
  unfold number
  split_ifs at h ⊢
  · exact h.2
  · exact h.2.2

theorem killTarget_eq_some_iff : s.killTarget p n = some q ↔ s.First p n q := by
  rw [killTarget, findProc_eq_some_iff]
  simp [First, number]

theorem killTarget_eq_none_iff : s.killTarget p n = none ↔ ∀ q, s.number p q ≠ n := by
  rw [killTarget, findProc_eq_none]
  simp [number]

theorem exists_first (h : s.number p q = n) : ∃ t, s.First p n t := by
  cases ht : s.killTarget p n with
  | none => exact absurd h (killTarget_eq_none_iff.1 ht q)
  | some t => exact ⟨t, killTarget_eq_some_iff.1 ht⟩

theorem kill_of_first (h : s.First p n q) :
    s.kill p n = if s.TurnsDown p q then (-1, s) else (0, s.modifyProc q Proc.kill) := by
  rw [kill, killTarget_eq_some_iff.2 h]
  rfl

theorem kill_of_absent (h : ∀ q, s.number p q ≠ n) : s.kill p n = (-1, s) := by
  rw [kill, killTarget_eq_none_iff.2 h]

theorem not_turnsDown (h : s.Visible p n q) : ¬ s.TurnsDown p q := by
  rintro ⟨hroot, hne⟩
  have hv := h.2
  rw [if_neg hroot] at hv
  exact hne hv.1

theorem kill_eq_self_iff : (s.proc q).kill = s.proc q ↔ s.Marked q := by
  unfold Marked
  generalize s.proc q = x
  constructor
  · intro h
    have hk : x.kill.killed = x.killed := by rw [h]
    have hs : x.kill.state = x.state := by rw [h]
    refine ⟨hk.symm, fun e => ?_, fun e => ?_⟩
    · simp [Proc.kill, e] at hs
    · simp [Proc.kill, e] at hs
  · rintro ⟨hk, hsl, hsu⟩
    cases x
    simp_all [Proc.kill]

theorem modifyProc_kill_of_marked (h : s.Marked q) : s.modifyProc q Proc.kill = s := by
  rw [modifyProc, kill_eq_self_iff.2 h, Function.update_eq_self]

theorem KillReaches.of_hit (hkill : s.kill p n = (0, s.modifyProc q Proc.kill)) {t : Slot}
    (ht : s.Visible p n t) (hs : s.modifyProc q Proc.kill = s.modifyProc t Proc.kill) :
    s.KillReaches p n where
  ret := by simpa [hkill] using ⟨t, ht⟩
  hit _ := ⟨t, ht, by rw [hkill, hs]; rfl⟩
  miss h := absurd (by rw [hkill]) h

theorem KillReaches.of_miss (hkill : s.kill p n = (-1, s)) (hnone : ∀ j, ¬ s.Visible p n j) :
    s.KillReaches p n where
  ret := by simpa [hkill] using hnone
  hit h := by simp [hkill] at h
  miss _ := by rw [hkill]

/-- **Whom `kill` reaches.**  `kill(n)` returns 0 exactly when the caller sees a process under the
number `n`, and then marks that process and nothing else, if and only if the first slot with that
number is one at which this can be relied on. -/
theorem kill_reaches_iff (s : Kernel) (p : Slot) (n : ℤ) : s.KillReaches p n ↔ s.KillSafe p n := by
  constructor
  · intro h q hq
    have hkill := kill_of_first hq
    by_cases hc : s.TurnsDown p q
    · -- `kill` gives up here, so there may be nothing to see
      rw [if_pos hc] at hkill
      refine .inr (.inl ⟨hc, fun j hj => ?_⟩)
      have hzero := h.ret.2 ⟨j, hj⟩
      rw [hkill] at hzero
      exact absurd hzero (by simp)
    · rw [if_neg hc] at hkill
      obtain ⟨t, ht, hs⟩ := h.hit (by rw [hkill])
      have hs : s.modifyProc q Proc.kill = s.modifyProc t Proc.kill := by
        rw [hkill] at hs
        exact hs
      by_cases hqt : q = t
      · exact .inl (hqt ▸ ht)
      · -- two slots are the same in both states, so `kill` changes neither
        refine .inr (.inr ⟨hc, kill_eq_self_iff.1 ?_, t, ht, kill_eq_self_iff.1 ?_⟩)
        · rw [← modifyProc_proc_self q Proc.kill, hs, modifyProc_proc_of_ne _ hqt]
        · rw [← modifyProc_proc_self t Proc.kill, ← hs, modifyProc_proc_of_ne _ (Ne.symm hqt)]
  · intro h
    by_cases hex : ∃ q, s.number p q = n
    · obtain ⟨q₀, hq0⟩ := hex
      obtain ⟨q, hq⟩ := exists_first hq0
      have hkill := kill_of_first hq
      obtain hv | ⟨hc, hnone⟩ | ⟨hc, hq, t, ht, hmark⟩ := h q hq
      · rw [if_neg (not_turnsDown hv)] at hkill
        exact .of_hit hkill hv rfl
      · rw [if_pos hc] at hkill
        exact .of_miss hkill hnone
      · rw [if_neg hc] at hkill
        refine .of_hit hkill ht ?_
        rw [modifyProc_kill_of_marked hq, modifyProc_kill_of_marked hmark]
    · rw [not_exists] at hex
      exact .of_miss (kill_of_absent hex) fun j hj => hex j hj.number_eq

/-- After boot, `kill(0)` by init returns 0 and marks a slot that is not in use. -/
theorem kill_hits_unused : ∃ s, boot [] 0 = .ok s ∧ ¬ s.KillReaches 0 0 ∧
    (s.kill 0 0).1 = 0 ∧ (s.proc 1).state = .unused ∧ ((s.kill 0 0).2.proc 1).killed = true := by
  refine ⟨_, rfl, fun h => ?_, rfl, rfl, rfl⟩
  obtain ⟨q, hq⟩ := h.ret.1 rfl
  revert q
  decide +kernel

end Kernel

end Xv6Container
