import Xv6Container.Tree.Basic

/-!
# The tree of the processes, and the dead

Two predicates on the process table, and how they survive the changes that `fork`, `exit` and
`wait` make to it.

* `Rooted` : all processes other than `init` have a parent, which has not exited and is older;
* `Deaths` : a process that has exited is a zombie, or has been reaped once.
-/

namespace Xv6Container

open Function

variable {N : ℕ} {init p q np : Fin N} {proc proc' : Fin N → ProcFields N} {born : Fin N → ℕ}
  {births : ℕ}

/-- A process that has not exited. -/
@[grind] def ProcFields.Active (x : ProcFields N) : Prop := x.state ≠ .unused ∧ x.state ≠ .zombie

/-! ### The tree -/

/-- The slots in use form a tree with `init` at its root: all others have a parent, which has not
exited and is older. -/
structure Rooted (init : Fin N) (proc : Fin N → ProcFields N) (born : Fin N → ℕ) (births : ℕ) :
    Prop where
  init_active : (proc init).Active
  unused : ∀ p, (proc p).state = .unused → (proc p).parent = none
  parent : ∀ p, p ≠ init → (proc p).state ≠ .unused → (proc p).parent ≠ none
  active : ∀ p q, (proc p).parent = some q → (proc q).Active
  older : ∀ p q, (proc p).parent = some q → born q < born p
  first : ∀ p, p ≠ init → (proc p).state ≠ .unused → born init < born p
  born_lt : ∀ p, (proc p).state ≠ .unused → born p < births
  born_inj : ∀ p q, (proc p).state ≠ .unused → (proc q).state ≠ .unused → born p = born q → p = q

namespace Rooted

section

variable (h : Rooted init proc born births)

include h

theorem alone (hno : ∀ q, (proc q).parent ≠ some init) (hq : q ≠ init) :
    (proc q).state = .unused := by
  by_contra hu
  -- the oldest of them has a parent that is older
  induction hb : born q using Nat.strong_induction_on generalizing q with
  | _ b ih =>
    obtain ⟨r, hr⟩ := Option.ne_none_iff_exists'.1 (h.parent q hq hu)
    have hne : r ≠ init := by
      rintro rfl
      exact hno q hr
    exact ih (born r) (hb ▸ h.older q r hr) hne (h.active q r hr).1 rfl

theorem ne_init (hp : (proc p).parent = some q) : p ≠ init := by
  rintro rfl
  have hlt := h.older _ _ hp
  by_cases hq : q = p
  · rw [hq] at hlt
    exact lt_irrefl _ hlt
  · exact lt_asymm hlt (h.first q hq (h.active _ _ hp).1)

theorem not_parent (hq : ¬(proc q).Active) (r : Fin N) :
    (proc r).parent ≠ some q := fun hr => hq (h.active r q hr)

theorem congr (hpar : ∀ r, (proc' r).parent = (proc r).parent)
    (hun : ∀ r, (proc' r).state = .unused ↔ (proc r).state = .unused)
    (hz : ∀ r, (proc' r).state = .zombie ↔ (proc r).state = .zombie) :
    Rooted init proc' born births := by
  obtain ⟨h1, h2, h3, h4, h5, h6, h7, h8⟩ := h
  constructor <;> grind

/-- A free slot becomes a child of `p`. -/
theorem fork {x : ProcFields N} (hun : (proc np).state = .unused) (hp : (proc p).Active)
    (hx : x.Active) (hpar : x.parent = some p) :
    Rooted init (update proc np x) (update born np births) (births + 1) := by
  -- nobody has a free slot as its parent
  have hno : ∀ r, (proc r).parent ≠ some np := h.not_parent fun ha => ha.1 hun
  obtain ⟨h1, h2, h3, h4, h5, h6, h7, h8⟩ := h
  constructor <;> simp only [update_apply] <;> grind

/-- A slot other than that of `init` changes, of a process without children.  It keeps its parent,
or it is freed. -/
theorem leave {x : ProcFields N} (hi : np ≠ init) (hno : ∀ r, (proc r).parent ≠ some np)
    (hx : x.state = .unused ∧ x.parent = none ∨
      x.state ≠ .unused ∧ (proc np).state ≠ .unused ∧ x.parent = (proc np).parent) :
    Rooted init (update proc np x) born births := by
  obtain ⟨h1, h2, h3, h4, h5, h6, h7, h8⟩ := h
  constructor <;> simp only [update_apply] <;> grind

/-- A child of `p` becomes a child of `init`. -/
theorem give {x : ProcFields N} (hp : (proc np).parent = some p) (hst : x.state = (proc np).state)
    (hx : x.parent = some init) : Rooted init (update proc np x) born births := by
  have hi := h.ne_init hp
  obtain ⟨h1, h2, h3, h4, h5, h6, h7, h8⟩ := h
  constructor <;> simp only [update_apply] <;> grind

end

end Rooted

/-! ### The dead -/

/-- What a process in slot `p` leaves behind. -/
def deathOf (proc : Fin N → ProcFields N) (born : Fin N → ℕ) (p : Fin N) : Death :=
  ⟨born p, (proc p).pid, (proc p).xstate⟩

/-- Every process that has exited is a zombie, or has been reaped once. -/
structure Deaths (proc : Fin N → ProcFields N) (born : Fin N → ℕ) (births : ℕ)
    (exits reaps : List Death) : Prop where
  exited : ∀ x ∈ exits, x ∈ reaps ∨ ∃ p, (proc p).state = .zombie ∧ deathOf proc born p = x
  zombie : ∀ p, (proc p).state = .zombie → deathOf proc born p ∈ exits
  reaped : ∀ x ∈ reaps, x ∈ exits ∧ x.serial < births ∧
    ∀ p, (proc p).state ≠ .unused → born p ≠ x.serial
  nodup : reaps.Nodup

namespace Deaths

variable {exits reaps : List Death} {x : ProcFields N} {born' : Fin N → ℕ} {births' : ℕ}

theorem congr (h : Deaths proc born births exits reaps) (hb : births ≤ births')
    (hz : ∀ r, (proc' r).state = .zombie ↔ (proc r).state = .zombie)
    (hd : ∀ r, (proc r).state = .zombie → deathOf proc' born' r = deathOf proc born r)
    (hu : ∀ r, (proc' r).state ≠ .unused → (proc r).state ≠ .unused ∧ born' r = born r ∨
      born' r = births) : Deaths proc' born' births' exits reaps := by
  obtain ⟨h1, h2, h3, h4⟩ := h
  constructor <;> grind

theorem final (h : Deaths proc born births exits reaps) (hp : (proc p).Active)
    (hx : x.state = .zombie) :
    Deaths (update proc p x) born births (deathOf (update proc p x) born p :: exits) reaps := by
  obtain ⟨h1, h2, h3, h4⟩ := h
  constructor <;> simp only [update_apply, deathOf] at * <;> grind

theorem reap (h : Deaths proc born births exits reaps) (ht : Rooted init proc born births)
    (hz : (proc np).state = .zombie) (hx : x.state = .unused) :
    Deaths (update proc np x) born births exits (deathOf proc born np :: reaps) := by
  -- no other process has the serial number of the one that is reaped
  have hinj := fun r => ht.born_inj r np
  have hlt := ht.born_lt np
  obtain ⟨h1, h2, h3, h4⟩ := h
  constructor <;> simp only [update_apply, deathOf] at * <;> grind

end Deaths

end Xv6Container
