import Mathlib.Tactic
import Xv6Container.Data.Except

/-!
# Stateful computations that may stop

`Returns m s a s'` says that the computation `m`, begun in state `s`, returns `a` and leaves the
state `s'`.  The lemmas take a computation that returns apart, one per combinator: a sequence
returns when its parts do (`returns_bind`), a `throw` never returns.  `Fails m s e` says that `m`
stops with the error `e` instead; a sequence fails in one of its parts (`fails_bind`).
-/

namespace Xv6Container

variable {σ ε α β : Type}

/-- The computation `m` returns `a` from state `s` and leaves the state `s'`. -/
def Returns (m : StateT σ (Except ε) α) (s : σ) (a : α) (s' : σ) : Prop :=
  m.run s = .ok (a, s')

variable {m : StateT σ (Except ε) α} {f : α → StateT σ (Except ε) β} {s s' : σ} {a x : α} {b : β}

theorem Returns.unique {a₁ a₂ : α} {s₁ s₂ : σ} (h1 : Returns m s a₁ s₁) (h2 : Returns m s a₂ s₂) :
    a₁ = a₂ ∧ s₁ = s₂ := by
  have h := h1.symm.trans h2
  simpa using h

theorem toOption_run_eq_some {y : α × σ} : (m.run s).toOption = some y ↔ Returns m s y.1 y.2 := by
  unfold Returns
  cases m.run s with
  | error e => simp [Except.toOption]
  | ok x => simp [Except.toOption]

theorem exists_returns (h : (m.run s).toOption.map Prod.fst = some a) : ∃ s', Returns m s a s' := by
  obtain ⟨y, hy, rfl⟩ := Option.map_eq_some_iff.1 h
  exact ⟨y.2, toOption_run_eq_some.1 hy⟩

theorem exists_returns_and {P : σ → Prop} [DecidableEq α] [DecidablePred P]
    (h : (m.run s).toOption.any (fun y => decide (y.1 = a ∧ P y.2)) = true) :
    ∃ s', Returns m s a s' ∧ P s' := by
  obtain ⟨y, hy, rfl, hP⟩ := exists_of_any h
  exact ⟨y.2, toOption_run_eq_some.1 hy, hP⟩

@[simp] theorem returns_pure :
    Returns (pure x : StateT σ (Except ε) α) s a s' ↔ x = a ∧ s = s' := by
  simp only [Returns, StateT.run_pure]
  simp [pure, Except.pure]

theorem returns_bind :
    Returns (m >>= f) s b s' ↔ ∃ a t, Returns m s a t ∧ Returns (f a) t b s' := by
  simp only [Returns, StateT.run_bind]
  cases h : m.run s with
  | error e => simp [bind, Except.bind]
  | ok p =>
    obtain ⟨a, t⟩ := p
    simp only [bind, Except.bind, Except.ok.injEq, Prod.mk.injEq]
    constructor
    · intro hf
      exact ⟨a, t, ⟨rfl, rfl⟩, hf⟩
    · rintro ⟨_, _, ⟨rfl, rfl⟩, hf⟩
      exact hf

variable {t : σ} {u : PUnit}

theorem Returns.bind_iff (h : Returns m s a t) :
    Returns (m >>= f) s b s' ↔ Returns (f a) t b s' := by
  rw [returns_bind]
  constructor
  · rintro ⟨a', t', h', hf⟩
    obtain ⟨rfl, rfl⟩ := h.unique h'
    exact hf
  · exact fun hf => ⟨a, t, h, hf⟩

@[simp] theorem returns_get :
    Returns (get : StateT σ (Except ε) σ) s t s' ↔ s = t ∧ s = s' := by
  simp only [Returns, StateT.run_get, pure, Except.pure, Except.ok.injEq, Prod.mk.injEq]

theorem returns_get_bind {f : σ → StateT σ (Except ε) β} :
    Returns (get >>= f) s b s' ↔ Returns (f s) s b s' := (returns_get.2 ⟨rfl, rfl⟩).bind_iff

@[simp] theorem returns_set :
    Returns (set t : StateT σ (Except ε) PUnit) s u s' ↔ t = s' := by
  simp only [Returns, StateT.run_set, pure, Except.pure, Except.ok.injEq, Prod.mk.injEq,
    true_and]

@[simp] theorem returns_modify {g : σ → σ} :
    Returns (modify g : StateT σ (Except ε) PUnit) s u s' ↔ g s = s' := by
  simp only [Returns, StateT.run_modify, pure, Except.pure, Except.ok.injEq, Prod.mk.injEq,
    true_and]

theorem returns_set_bind {f : PUnit → StateT σ (Except ε) β} :
    Returns (set t >>= f) s b s' ↔ Returns (f ⟨⟩) t b s' := (returns_set.2 rfl).bind_iff

theorem returns_modify_bind {g : σ → σ} {f : PUnit → StateT σ (Except ε) β} :
    Returns (modify g >>= f) s b s' ↔ Returns (f ⟨⟩) (g s) b s' := (returns_modify.2 rfl).bind_iff

@[simp] theorem not_returns_throw {e : ε} :
    ¬ Returns (throw e : StateT σ (Except ε) α) s a s' := by
  simp [Returns, throw, throwThe, MonadExceptOf.throw, StateT.run, StateT.lift, bind, Except.bind]

theorem Returns.forM_invariant {γ : Type} {f : γ → StateT σ (Except ε) PUnit} {l : List γ}
    (I : List γ → σ → Prop) (h : Returns (l.forM f) s u s') (h0 : I [] s)
    (hstep : ∀ xs x ys t t', l = xs ++ x :: ys → I xs t → Returns (f x) t ⟨⟩ t' →
      I (xs ++ [x]) t') : I l s' := by
  -- over the part of the list that is still to come
  have hloop : ∀ (ys xs : List γ) (t : σ), l = xs ++ ys → I xs t → Returns (ys.forM f) t u s' →
      I l s' := by
    intro ys
    induction ys with
    | nil =>
      intro xs t hl hI h
      obtain ⟨-, rfl⟩ := returns_pure.1 h
      rw [hl, List.append_nil]
      exact hI
    | cons y ys ih =>
      intro xs t hl hI h
      obtain ⟨_, t', h1, h2⟩ := returns_bind.1 h
      exact ih (xs ++ [y]) t' (by simp [hl]) (hstep xs y ys t t' hl hI h1) h2
  exact hloop l [] s rfl h0 h

/-! ### Computations that stop -/

/-- The computation `m`, begun in state `s`, stops with the error `e`. -/
def Fails (m : StateT σ (Except ε) α) (s : σ) (e : ε) : Prop := m.run s = .error e

variable {e : ε}

theorem fails_iff_map : Fails m s e ↔ (m.run s).map (fun _ => ()) = .error e := by
  unfold Fails
  cases m.run s with
  | error e' => simp [Except.map]
  | ok p => simp [Except.map]

theorem returns_or_fails (m : StateT σ (Except ε) α) (s : σ) :
    (∃ a s', Returns m s a s') ∨ ∃ e, Fails m s e := by
  cases h : m.run s with
  | error e => exact .inr ⟨e, h⟩
  | ok p => exact .inl ⟨p.1, p.2, h⟩

theorem fails_bind :
    Fails (m >>= f) s e ↔ Fails m s e ∨ ∃ a t, Returns m s a t ∧ Fails (f a) t e := by
  simp only [Fails, Returns, StateT.run_bind]
  cases h : m.run s with
  | error e => simp [bind, Except.bind]
  | ok p =>
    obtain ⟨a, t⟩ := p
    simp only [bind, Except.bind, Except.ok.injEq, Prod.mk.injEq]
    constructor
    · intro hf
      exact .inr ⟨a, t, ⟨rfl, rfl⟩, hf⟩
    · rintro (h | ⟨_, _, ⟨rfl, rfl⟩, hf⟩)
      · cases h
      · exact hf

@[simp] theorem fails_throw {e' : ε} :
    Fails (throw e' : StateT σ (Except ε) α) s e ↔ e' = e := by
  simp [Fails, throw, throwThe, MonadExceptOf.throw, StateT.run, StateT.lift, bind, Except.bind]

end Xv6Container
