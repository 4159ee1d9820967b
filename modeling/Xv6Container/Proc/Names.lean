import Xv6Container.Proc.Moves

/-!
# Containers by name

`cpause`, `cresume` and `cstop` take the first container whose name begins with the string they
are given, whatever its state.  A longer name therefore answers to each of its beginnings, every
container answers to the empty string, and a container that was stopped still answers to its name.

* `addressed_by_name` : exactly for such strings the calls change the container of that name and no
  other, and along runs with such strings only `cinit` brings a container into use;
* `beginning_addressed` : runs from boot in which each of these fails.
-/

namespace Xv6Container

open Function

namespace Kernel

/-- The call by process `p`: the value returned and the tables left behind. -/
def lifeCall (s : Kernel) (p : Slot) : LifeCall → CharArray → ℤ × Kernel
  | .cpause, name => s.cpause p name
  | .cresume, name => s.cresume p name
  | .cstop, name => s.cstop p name

/-- The container has the name `name`. -/
def Named (s : Kernel) (name : CharArray) (c : Cont) : Prop := str (s.containers c).name = str name

/-- The container is in use. -/
def InUse (s : Kernel) (c : Cont) : Prop := (s.containers c).state ≠ .cunused

/-- The first container whose name begins with `name`. -/
def FirstNamed (s : Kernel) (name : CharArray) (c : Cont) : Prop :=
  str name <+: str (s.containers c).name ∧ ∀ d < c, ¬ str name <+: str (s.containers d).name

/-- The container is the only one in use that has the name `name`. -/
def Only (s : Kernel) (name : CharArray) (c : Cont) : Prop :=
  s.InUse c ∧ s.Named name c ∧ ∀ d, s.InUse d → s.Named name d → d = c

/-- If a name begins with `name`, then some container in use has exactly this name; if only one
has, it is the first one whose name begins with `name`, unless both are already in the state that
the call gives; and the call does not bring this first one into use. -/
def Exact (s : Kernel) (l : LifeCall) (name : CharArray) : Prop :=
  ∀ c, s.FirstNamed name c →
    (∀ d, s.Only name d → d = c ∨
      (s.containers c).state = l.state ∧ (s.containers d).state = l.state) ∧
    (∃ d, s.InUse d ∧ s.Named name d) ∧ (s.InUse c ∨ l = .cstop)

instance (s : Kernel) (name : CharArray) (c : Cont) : Decidable (s.Named name c) :=
  inferInstanceAs (Decidable (_ = _))

instance (s : Kernel) (c : Cont) : Decidable (s.InUse c) := inferInstanceAs (Decidable (¬ _))

instance (s : Kernel) (name : CharArray) (c : Cont) : Decidable (s.FirstNamed name c) :=
  inferInstanceAs (Decidable (_ ∧ ∀ _, _ → _))

instance (s : Kernel) (name : CharArray) (c : Cont) : Decidable (s.Only name c) :=
  inferInstanceAs (Decidable (_ ∧ _ ∧ ∀ _, _ → _))

instance (s : Kernel) (l : LifeCall) (name : CharArray) : Decidable (s.Exact l name) :=
  inferInstanceAs (Decidable (∀ _, _ → _))

/-- A step in which a process of the root container gives only exact names. -/
def ExactNames (s : Kernel) (e : Event) : Prop :=
  ∀ p l name, e = .call p (.control (LifeCall.control l name)) → s.mycont p = some root →
    s.Exact l name

/-- The step makes container `d`, with limit `maxProc`. -/
def Makes (s : Kernel) (e : Event) (d : Cont) (maxProc : ℤ) : Prop :=
  s.freeCont = some d ∧ ∃ p name rootDir maxPage maxDisk ip,
    e = .call p (.control (.cinit name rootDir maxProc maxPage maxDisk ip))

variable {s s' : Kernel} {p : Slot} {name : CharArray} {c d : Cont} {l : LifeCall} {e : Event}

theorem contNamed_eq_some : s.contNamed name = some c ↔ s.FirstNamed name c := by
  simp only [contNamed, findCont_eq_some_iff, decide_eq_true_eq, decide_eq_false_iff_not,
    strncmp_strlen_eq_zero, FirstNamed]

theorem contNamed_eq_none :
    s.contNamed name = none ↔ ∀ c, ¬ str name <+: str (s.containers c).name := by
  simp only [contNamed, findCont_eq_none, decide_eq_false_iff_not, strncmp_strlen_eq_zero]

theorem lifeCall_of_root (hp : s.mycont p = some root) (l : LifeCall) (name : CharArray) :
    (s.contNamed name = none ∧ s.lifeCall p l name = (-1, s)) ∨
      ∃ c, s.contNamed name = some c ∧ (s.lifeCall p l name).1 = 0 ∧
        (s.lifeCall p l name).2.containers =
          (s.modifyCont c fun k => { k with state := l.state }).containers := by
  cases hf : s.contNamed name with
  | none => exact .inl ⟨rfl, by cases l <;> simp [lifeCall, cpause, cresume, cstop, onCont, hp, hf]⟩
  | some c =>
    refine .inr ⟨c, rfl, ?_⟩
    cases l <;> simp [lifeCall, cpause, cresume, cstop, onCont, hp, hf, LifeCall.state, freeprocs]

/-- What a step does to a container: a `cinit` takes it, a process of the root container gives a
name that finds it, or only its counters of process numbers and pages change. -/
def ContStep (s : Kernel) (e : Event) (s' : Kernel) (d : Cont) : Prop :=
  (∃ maxProc, s.Makes e d maxProc) ∨
  (∃ p l name, e = .call p (.control (LifeCall.control l name)) ∧ s.mycont p = some root ∧
    s.contNamed name = some d ∧ s'.containers d = { s.containers d with state := l.state }) ∨
  s'.containers d = { s.containers d with
    nextvpid := (s'.containers d).nextvpid, memused := (s'.containers d).memused }

theorem cont_of_perform {call : Call} (h : s.perform p call = .ok s') (d : Cont) :
    s.ContStep (.call p call) s' d := by
  cases called_of_perform h with
  | quiet _ h => exact .inr (.inr (by rw [h.containers]))
  | fork h =>
    refine .inr (.inr ?_)
    cases h with
    | full | freed => rfl
    | @child _ _ _ c =>
      by_cases hd : d = c
      · subst hd
        simp [claimSlot]
      · simp [claimSlot, hd]
  | reap => exact .inr (.inr rfl)
  | info hc h => exact .inr (.inr (by rw [(memOnly_info hc h).containers d]))
  | cinit name rootDir maxProc maxPage maxDisk ip =>
    cases hf : s.freeCont with
    | none => exact .inr (.inr (by simp [cinit, hf]))
    | some c =>
      by_cases hd : d = c
      · subst hd
        exact .inl ⟨maxProc, hf, p, name, rootDir, maxPage, maxDisk, ip, rfl⟩
      · exact .inr (.inr (by simp [cinit, hf, hd]))
  | @life name c l hp hc =>
    by_cases hd : d = c
    · subst hd
      exact .inr (.inl ⟨p, l, name, rfl, hp, hc, by simp⟩)
    · exact .inr (.inr (by simp [hd]))
  | @cstop name c hp hc =>
    by_cases hd : d = c
    · subst hd
      exact .inr (.inl ⟨p, .cstop, name, rfl, hp, hc, by simp [LifeCall.state]⟩)
    · exact .inr (.inr (by simp [hd]))

theorem cont_of_step (h : system.next s e = some s') (d : Cont) : s.ContStep e s' d := by
  cases e with
  | dispatch k c r =>
    obtain ⟨-, rfl⟩ := next_dispatch_iff.1 h
    exact .inr (.inr rfl)
  | wakeup chan => cases h; exact .inr (.inr rfl)
  | call p call => exact cont_of_perform (next_call_iff.1 h).2 d

/-- Container `d` is the same in `s'`: only its counters of process numbers and pages and its state
may differ, and it does not get unused unless the step is a `cstop`. -/
structure KeepsCont (s : Kernel) (e : Event) (s' : Kernel) (d : Cont) : Prop where
  fields : s'.containers d = { s.containers d with
    nextvpid := (s'.containers d).nextvpid
    memused := (s'.containers d).memused
    state := (s'.containers d).state }
  inUse : (s.containers d).state ≠ .cunused → (s'.containers d).state = .cunused →
    ∃ p name, e = .call p (.control (.cstop name))

/-- Only a `cinit` that takes container `d` makes it another one. -/
theorem keepsCont_of_step (h : system.next s e = some s') (d : Cont) :
    (∃ maxProc, s.Makes e d maxProc) ∨ KeepsCont s e s' d := by
  obtain hc | ⟨p, l, name, rfl, -, -, hd⟩ | hd := cont_of_step h d
  · exact .inl hc
  · refine .inr ⟨by rw [hd], fun _ hu => ?_⟩
    rw [hd] at hu
    cases l with
    | cpause | cresume => cases hu
    | cstop => exact ⟨p, name, rfl⟩
  · refine .inr ⟨by rw [hd], fun hu hu' => ?_⟩
    rw [hd] at hu'
    exact absurd hu' hu

theorem exact_iff (hc : s.FirstNamed name c) : s.Exact l name ↔
    (∀ d, s.Only name d → d = c ∨
      (s.containers c).state = l.state ∧ (s.containers d).state = l.state) ∧
    (∃ d, s.InUse d ∧ s.Named name d) ∧ (s.InUse c ∨ l = .cstop) := by
  refine ⟨fun h => h c hc, fun h c' hc' => ?_⟩
  obtain rfl := Option.some.inj ((contNamed_eq_some.2 hc).symm.trans (contNamed_eq_some.2 hc'))
  exact h

theorem update_state_eq_iff {x : ContainerState} :
    (s.modifyCont c fun k => { k with state := x }).containers =
      update s.containers d { s.containers d with state := x } ↔
    d = c ∨ (s.containers c).state = x ∧ (s.containers d).state = x := by
  constructor
  · intro h
    by_cases hd : d = c
    · exact .inl hd
    · have hc := congrFun h c
      have hd' := congrFun h d
      rw [modifyCont_containers_self, update_of_ne (Ne.symm hd)] at hc
      rw [modifyCont_containers_of_ne _ hd, update_self] at hd'
      exact .inr ⟨(congrArg Container.state hc).symm, congrArg Container.state hd'⟩
  · rintro (rfl | ⟨hc, hd⟩)
    · rfl
    · subst hc
      have hsame : ({ s.containers d with state := (s.containers c).state } : Container) =
          s.containers d := by rw [← hd]
      rw [hsame, update_eq_self]
      exact update_eq_self c s.containers

theorem inUse_lifeCall (hp : s.mycont p = some root) (hc : s.contNamed name = some c) :
    (s.lifeCall p l name).2.InUse d ↔ if d = c then l ≠ .cstop else s.InUse d := by
  obtain ⟨hf, -⟩ | ⟨c', hf, -, hcont⟩ := lifeCall_of_root hp l name
  · rw [hc] at hf
    cases hf
  obtain rfl := Option.some.inj (hc.symm.trans hf)
  rw [InUse, hcont]
  split
  · rename_i hd
    rw [hd, modifyCont_containers_self]
    cases l <;> simp [LifeCall.state]
  · rename_i hd
    rw [modifyCont_containers_of_ne _ hd, InUse]

theorem unused_of_step (hx : s.ExactNames e) (h : system.next s e = some s') (hd : ¬ s.InUse d) :
    (∃ maxProc, s.Makes e d maxProc) ∨ ¬ s'.InUse d := by
  obtain hc | ⟨p, l, name, rfl, hp, hf, hst⟩ | hst := cont_of_step h d
  · exact .inl hc
  · -- the call finds `d`, so it is a `cstop`
    obtain ⟨-, -, hu⟩ := hx p l name rfl hp d (contNamed_eq_some.1 hf)
    refine .inr ?_
    rw [InUse, hst, hu.resolve_left hd]
    exact not_not.2 rfl
  · refine .inr ?_
    rwa [InUse, hst]

theorem exists_cinit_of_run {ls : List Event} (h : system.Run ExactNames s ls s')
    (hd : ¬ s.InUse d) (hd' : s'.InUse d) :
    ∃ ls₁ p name rootDir maxProc maxPage maxDisk ip ls₂ t,
      ls = ls₁ ++ .call p (.control (.cinit name rootDir maxProc maxPage maxDisk ip)) :: ls₂ ∧
        system.Run ExactNames s ls₁ t ∧ t.freeCont = some d := by
  induction h with
  | nil => exact absurd hd' hd
  | @cons s t s' e ls hx hst hrun ih =>
    obtain ⟨maxProc, hf, p, name, rootDir, maxPage, maxDisk, ip, rfl⟩ | hu :=
      unused_of_step hx hst hd
    · exact ⟨[], p, name, rootDir, maxProc, maxPage, maxDisk, ip, ls, s, rfl, .nil s, hf⟩
    · obtain ⟨ls₁, p, name, rootDir, maxProc, maxPage, maxDisk, ip, ls₂, u, rfl, hrun1, hf⟩ :=
        ih hu hd'
      exact ⟨e :: ls₁, p, name, rootDir, maxProc, maxPage, maxDisk, ip, ls₂, u, rfl,
        .cons hx hst hrun1, hf⟩

end Kernel

/-- **Containers are addressed by their name.**  For every table, every process of the root
container and every string: if one container in use has the name, the call returns 0 and changes the
state of this container and nothing else in the container table, if none has, it returns -1 and
changes nothing, and it brings no container into use, exactly when `Exact` holds of the string.
Along every run with such strings, a container comes into use only through `cinit`. -/
theorem addressed_by_name (s : Kernel) :
    (∀ (p : Slot) (l : LifeCall) (name : CharArray), s.mycont p = some root →
      (((∀ c, s.Only name c → (s.lifeCall p l name).1 = 0 ∧ (s.lifeCall p l name).2.containers =
          update s.containers c { s.containers c with state := l.state }) ∧
        ((∀ d, s.InUse d → ¬ s.Named name d) →
          (s.lifeCall p l name).1 = -1 ∧ (s.lifeCall p l name).2.containers = s.containers) ∧
        ∀ d, ¬ s.InUse d → ¬ (s.lifeCall p l name).2.InUse d) ↔ s.Exact l name)) ∧
    ∀ (s' : Kernel) (ls : List Event) (d : Cont), system.Run Kernel.ExactNames s ls s' →
      ¬ s.InUse d → s'.InUse d →
      ∃ ls₁ p name rootDir maxProc maxPage maxDisk ip ls₂ t,
        ls = ls₁ ++ .call p (.control (.cinit name rootDir maxProc maxPage maxDisk ip)) :: ls₂ ∧
          system.Run Kernel.ExactNames s ls₁ t ∧ t.freeCont = some d := by
  refine ⟨fun p l name hp => ?_, fun s' ls d h => Kernel.exists_cinit_of_run h⟩
  obtain ⟨hf, hs⟩ | ⟨c, hf, hret, hcont⟩ := Kernel.lifeCall_of_root hp l name
  · -- no name begins with the string
    have hno := Kernel.contNamed_eq_none.1 hf
    have hnamed : ∀ d, ¬ s.Named name d := fun d hd => hno d (hd ▸ List.prefix_rfl)
    rw [hs]
    exact iff_of_true ⟨fun d hd => absurd hd.2.1 (hnamed d), fun _ => ⟨rfl, rfl⟩, fun _ hd => hd⟩
      fun d hd => absurd hd.1 (hno d)
  · have hfirst := Kernel.contNamed_eq_some.1 hf
    rw [Kernel.exact_iff hfirst]
    refine and_congr (forall₂_congr fun d hd => ?_) (and_congr ?_ ?_)
    · rw [hcont, Kernel.update_state_eq_iff, and_iff_right hret]
    · rw [hret]
      constructor
      · intro h
        by_contra hno
        obtain ⟨h, -⟩ := h fun d hu hd => hno ⟨d, hu, hd⟩
        cases h
      · rintro ⟨d, hu, hd⟩ hno
        exact absurd hd (hno d hu)
    · simp only [Kernel.inUse_lifeCall hp hf]
      constructor
      · intro h
        by_cases hu : s.InUse c
        · exact .inl hu
        · have := h c hu
          rw [if_pos rfl, not_not] at this
          exact .inr this
      · intro h d hd
        split
        · rename_i hdc
          subst hdc
          exact not_not.2 (h.resolve_left hd)
        · exact hd

/-- Init's child makes the container `web`. -/
def webRun : List Event :=
  [.dispatch 0 root 0, .call 0 (.fork .ok), .dispatch 1 root 1,
    .call 1 (.control (.cinit (chars "web") (chars ".") 2 100 100 (some 0)))]

/-- The tables after boot and the steps `ls`. -/
def kernelAfter (ls : List Event) : Option Kernel :=
  (boot [] 0).toOption.bind fun s => system.run s ls

theorem exists_of_kernelAfter (ls : List Event) (P : Kernel → Prop) [DecidablePred P]
    (h : (kernelAfter ls).map (fun s => decide (P s)) = some true) :
    ∃ s₀ s, boot [] 0 = .ok s₀ ∧ system.run s₀ ls = some s ∧ P s := by
  obtain ⟨s, hs, hP⟩ := Option.map_eq_some_iff.1 h
  obtain ⟨s₀, hs0, hrun⟩ := Option.bind_eq_some_iff.1 hs
  exact ⟨s₀, s, toOption_eq_some.1 hs0, hrun, of_decide_eq_true hP⟩

/-- Init pauses the container `web`. -/
theorem addressed_by_name_web : ∃ s₀ s, boot [] 0 = .ok s₀ ∧ system.run s₀ webRun = some s ∧
    (s.lifeCall 0 .cpause (chars "web")).1 = 0 ∧
      (s.lifeCall 0 .cpause (chars "web")).2.containers =
        update s.containers 1 { s.containers 1 with state := .csuspended } := by
  obtain ⟨s₀, s, hb, hrun, hp, hx, honly⟩ := exists_of_kernelAfter webRun
    (fun s => s.mycont 0 = some root ∧ s.Exact .cpause (chars "web") ∧ s.Only (chars "web") 1)
    (by decide +kernel)
  exact ⟨s₀, s, hb, hrun, (((addressed_by_name s).1 0 .cpause _ hp).2 hx).1 1 honly⟩

/-- Right after boot no container is called `ro`, but `cpause("ro")` succeeds and pauses the root
container.  A stopped container is brought back by `cresume` with its old name. -/
theorem beginning_addressed :
    (∃ s₀ s, boot [] 0 = .ok s₀ ∧ system.run s₀ [.dispatch 0 root 0] = some s ∧
      s.mycont 0 = some root ∧ (∀ d, ¬ s.Named (chars "ro") d) ∧
      (s.lifeCall 0 .cpause (chars "ro")).1 = 0 ∧
      ((s.lifeCall 0 .cpause (chars "ro")).2.containers root).state = .csuspended) ∧
    ∃ s₀ s, boot [] 0 = .ok s₀ ∧
      system.run s₀ (webRun ++ [.call 0 (.control (.cstop (chars "web")))]) = some s ∧
      s.mycont 0 = some root ∧ ¬ s.InUse 1 ∧ (∀ d, s.InUse d → ¬ s.Named (chars "web") d) ∧
      (s.lifeCall 0 .cresume (chars "web")).1 = 0 ∧
      (s.lifeCall 0 .cresume (chars "web")).2.InUse 1 :=
  ⟨exists_of_kernelAfter _ _ (by decide +kernel), exists_of_kernelAfter _ _ (by decide +kernel)⟩

/-- Container `c` is in use, and no process of it forks. -/
def Kernel.NoFork (c : Cont) (s : Kernel) (e : Event) : Prop :=
  s.InUse c ∧ ∀ p mem, e = .call p (.fork mem) → s.mycont p ≠ some c

end Xv6Container
