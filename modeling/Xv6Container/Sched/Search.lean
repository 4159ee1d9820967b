import Xv6Container.Proc.Names
import Xv6Container.Sched.RoundRobin

/-!
# The search for a running container

`get_next_active_container` has no way out of its loop but a `CRUNNING` container.  There is one as
long as nobody pauses or stops the root container, which is the first to answer to every beginning
of its name `root`.

* `search_terminates` : after every run from boot in which the root container is not named, every
  search ends within `NCONTS` turns, at the first running container going round;
* `search_hangs` : after `cpause("root")` no search ends.
-/

namespace Xv6Container

/-- The container `k` places after `i`, going round. -/
def contAfter (i : Cont) (k : ℕ) : Cont := Fin.ofNat NCONTS (i + k)

theorem contAfter_one_add (i : Cont) (k : ℕ) : contAfter (i + 1) k = contAfter i (k + 1) := by
  rw [contAfter, contAfter, Fin.ext_iff, Fin.val_ofNat, Fin.val_ofNat, Fin.val_add, Fin.val_one,
    Nat.mod_add_mod, Nat.add_assoc, Nat.add_comm 1]

theorem exists_contAfter_eq (i c : Cont) : ∃ k < NCONTS, contAfter i (k + 1) = c := by
  revert i c
  decide

namespace Kernel

/-- `n` turns of the loop of `get_next_active_container`: `none` when it has not returned. -/
def searchLoop (s : Kernel) : ℕ → Cont → Option Cont
  | 0, _ => none
  | n + 1, index =>
    let index := index + 1
    if (s.containers index).state = .crunning then some index else searchLoop s n index

/-- A step in which no process of the root container pauses or stops a container by a beginning of
the name `root`. -/
def SparesRoot (s : Kernel) : Event → Prop
  | .call p (.control (.cpause name)) => s.mycont p = some root → ¬ str name <+: chars "root"
  | .call p (.control (.cstop name)) => s.mycont p = some root → ¬ str name <+: chars "root"
  | _ => True

/-- The root container is running and has its name. -/
def RootRuns (s : Kernel) : Prop := s.Active root ∧ str (s.containers root).name = chars "root"

variable {s s' : Kernel} {e : Event} {c : Cont}

theorem searchLoop_spec (n : ℕ) (i : Cont) :
    (∃ k < n, s.searchLoop n i = some (contAfter i (k + 1)) ∧ s.Active (contAfter i (k + 1)) ∧
      ∀ j < k, ¬ s.Active (contAfter i (j + 1))) ∨
    s.searchLoop n i = none ∧ ∀ k < n, ¬ s.Active (contAfter i (k + 1)) := by
  induction n generalizing i with
  | zero => exact .inr ⟨rfl, by simp⟩
  | succ n ih =>
    have hone : contAfter i 1 = i + 1 := by revert i; decide
    by_cases hi : s.Active (i + 1)
    · refine .inl ⟨0, by omega, ?_, hone ▸ hi, by simp⟩
      rw [hone]
      exact if_pos hi
    · have hloop : s.searchLoop (n + 1) i = s.searchLoop n (i + 1) := if_neg hi
      rw [hloop]
      obtain ⟨k, hk, hs, ha, hlt⟩ | ⟨hs, hlt⟩ := ih (i + 1)
      all_goals simp only [contAfter_one_add] at *
      · refine .inl ⟨k + 1, by omega, hs, ha, fun j hj => ?_⟩
        cases j with
        | zero => rwa [hone]
        | succ j => exact hlt j (by omega)
      · refine .inr ⟨hs, fun k hk => ?_⟩
        cases k with
        | zero => rwa [hone]
        | succ k => exact hlt k (by omega)

theorem RootRuns.step (hr : s.RootRuns) (hsp : s.SparesRoot e) (h : system.next s e = some s') :
    s'.RootRuns := by
  obtain ⟨hact, hname⟩ := hr
  have hused : (s.containers root).state ≠ .cunused := fun hu => by
    rw [show (s.containers root).state = .crunning from hact] at hu
    cases hu
  have hfree : s.freeCont ≠ some root := fun hf => hused (by simpa using findCont_spec hf)
  constructor
  · obtain ⟨_, hf, -⟩ | ⟨p, l, name, rfl, hp, hf, hst⟩ | hst := cont_of_step h root
    · exact absurd hf hfree
    · have hpre := (contNamed_eq_some.1 hf).1
      rw [hname] at hpre
      cases l with
      | cpause => exact absurd hpre (hsp hp)
      | cstop => exact absurd hpre (hsp hp)
      | cresume =>
        rw [Active, hst]
        rfl
    · rw [Active, hst]
      exact hact
  · obtain ⟨_, hf, -⟩ | hk := keepsCont_of_step h root
    · exact absurd hf hfree
    · rw [hk.fields]
      exact hname

theorem rootRuns_of_boot {free : List ℕ} {kernelEnd : ℕ} (h : boot free kernelEnd = .ok s) :
    s.RootRuns := by
  rw [boot_eq_ok h]
  exact ⟨by simp [Active, rootCont], by simpa using by decide⟩

end Kernel

/-- **The search of the scheduler ends.**  After every run from boot in which no process of the root
container pauses or stops a container by a beginning of the name `root`, some container is running,
and `get_next_active_container` returns from every index within `NCONTS` turns, with the first
running container going round. -/
theorem search_terminates {free : List ℕ} {kernelEnd : ℕ} {s₀ s : Kernel} {ls : List Event}
    (hb : boot free kernelEnd = .ok s₀) (h : system.Run Kernel.SparesRoot s₀ ls s) :
    (∃ c, s.Active c) ∧ ∀ i, ∃ k < NCONTS,
      s.searchLoop NCONTS i = some (contAfter i (k + 1)) ∧ s.Active (contAfter i (k + 1)) ∧
        ∀ j < k, ¬ s.Active (contAfter i (j + 1)) := by
  have hr : s.RootRuns := h.invariant (Kernel.rootRuns_of_boot hb) fun _ _ _ hr hsp hst =>
    hr.step hsp hst
  refine ⟨⟨root, hr.1⟩, fun i => ?_⟩
  obtain hfound | ⟨-, hno⟩ := s.searchLoop_spec NCONTS i
  · exact hfound
  · obtain ⟨k, hk, hroot⟩ := exists_contAfter_eq i root
    exact absurd (hroot ▸ hr.1) (hno k hk)

/-- Init pauses the container `web`. -/
theorem search_terminates_web : ∃ s₀ s, boot [] 0 = .ok s₀ ∧ system.Run Kernel.SparesRoot s₀
    (webRun ++ [.call 0 (.control (.cpause (chars "web")))]) s ∧ ¬ s.Active 1 ∧
      (∃ c, s.Active c) ∧ ∀ i, (s.searchLoop NCONTS i).isSome := by
  have hrun : ∃ s₀ s, boot [] 0 = .ok s₀ ∧ system.Run Kernel.SparesRoot s₀
      (webRun ++ [.call 0 (.control (.cpause (chars "web")))]) s ∧ ¬ s.Active 1 := by
    refine ⟨_, _, rfl, .cons trivial rfl (.cons trivial rfl (.cons trivial rfl (.cons trivial rfl
      (.cons ?_ rfl (.nil _))))), ?_⟩
    · exact fun _ => by decide
    · decide +kernel
  obtain ⟨s₀, s, hb, hrun, hpaused⟩ := hrun
  obtain ⟨hact, hsearch⟩ := search_terminates hb hrun
  refine ⟨s₀, s, hb, hrun, hpaused, hact, fun i => ?_⟩
  obtain ⟨k, -, hk, -⟩ := hsearch i
  rw [hk]
  rfl

/-- Init pauses the root container: then no search ends, however long it goes on. -/
theorem search_hangs : ∃ s₀ s, boot [] 0 = .ok s₀ ∧
    system.run s₀ [.dispatch 0 root 0, .call 0 (.control (.cpause (chars "root")))] = some s ∧
      (∀ c, ¬ s.Active c) ∧ ∀ n i, s.searchLoop n i = none := by
  obtain ⟨s₀, s, hb, hrun, hno⟩ := exists_of_kernelAfter
    [.dispatch 0 root 0, .call 0 (.control (.cpause (chars "root")))]
    (fun s => ∀ c, ¬ s.Active c) (by decide +kernel)
  refine ⟨s₀, s, hb, hrun, hno, fun n i => ?_⟩
  obtain ⟨k, -, -, hact, -⟩ | ⟨hnone, -⟩ := s.searchLoop_spec n i
  · exact absurd hact (hno _)
  · exact hnone

end Xv6Container
