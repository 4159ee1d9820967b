import Xv6Container.Data.Zoom

/-!
# Postconditions of computations that may stop

`Does m s Q E` says what a computation can do when it is begun in state `s`: if it returns, `Q`
holds of the result and of the state it leaves, and if it stops, `E` holds of the error.  There is
one rule for each combinator, so that such a statement follows the text of the code.

A computation that is known to return does what its return says (`Does.of_returns`).
-/

namespace Xv6Container

variable {σ τ ε α β : Type} {m : StateT σ (Except ε) α} {f : α → StateT σ (Except ε) β} {s t : σ}
  {a : α} {Q Q' : α → σ → Prop} {Qb : β → σ → Prop} {E E' : ε → Prop}

/-- When `m` returns from state `s`, `Q` holds of the result and the new state; when it stops, `E`
holds of the error. -/
structure Does (m : StateT σ (Except ε) α) (s : σ) (Q : α → σ → Prop) (E : ε → Prop) : Prop where
  returns : ∀ ⦃a s'⦄, Returns m s a s' → Q a s'
  stops : ∀ ⦃e⦄, Fails m s e → E e

namespace Does

theorem of_returns (h : Returns m s a t) (hQ : Q a t) : Does m s Q E := by
  refine ⟨fun a' t' h' => ?_, fun e he => ?_⟩
  · obtain ⟨rfl, rfl⟩ := h.unique h'
    exact hQ
  · cases h.symm.trans he

theorem mono (h : Does m s Q E) (hQ : ∀ a t, Q a t → Q' a t) (hE : ∀ e, E e → E' e) :
    Does m s Q' E' :=
  ⟨fun a t ht => hQ a t (h.returns ht), fun e he => hE e (h.stops he)⟩

theorem imp (h : Does m s Q E) (hQ : ∀ a t, Returns m s a t → Q a t → Q' a t) : Does m s Q' E :=
  ⟨fun a t ht => hQ a t ht (h.returns ht), h.stops⟩

theorem pure (h : Q a s) : Does (Pure.pure a) s Q E := of_returns (returns_pure.2 ⟨rfl, rfl⟩) h

theorem throw {e : ε} (h : E e) : Does (MonadExcept.throw e) s Q E :=
  ⟨fun _ _ hr => absurd hr not_returns_throw, fun _ he => fails_throw.1 he ▸ h⟩

theorem bind (hm : Does m s Q E) (hf : ∀ a t, Q a t → Does (f a) t Qb E) :
    Does (m >>= f) s Qb E := by
  refine ⟨fun b s' h => ?_, fun e h => ?_⟩
  · obtain ⟨a, t, h1, h2⟩ := returns_bind.1 h
    exact (hf a t (hm.returns h1)).returns h2
  · obtain h1 | ⟨a, t, h1, h2⟩ := fails_bind.1 h
    · exact hm.stops h1
    · exact (hf a t (hm.returns h1)).stops h2

theorem bind_returns (h : Returns m s a t) (hf : Does (f a) t Qb E) : Does (m >>= f) s Qb E :=
  bind (Q := fun a' t' => a' = a ∧ t' = t) (of_returns h ⟨rfl, rfl⟩) fun _ _ ⟨ha, ht⟩ =>
    ha ▸ ht ▸ hf

theorem get_bind {f : σ → StateT σ (Except ε) β} (hf : Does (f s) s Qb E) :
    Does (MonadState.get >>= f) s Qb E := bind_returns (returns_get.2 ⟨rfl, rfl⟩) hf

theorem modify {g : σ → σ} {Q : PUnit → σ → Prop} (h : Q ⟨⟩ (g s)) :
    Does (modify g : StateT σ (Except ε) PUnit) s Q E := of_returns (returns_modify.2 rfl) h

theorem set {Q : PUnit → σ → Prop} (h : Q ⟨⟩ t) :
    Does (set t : StateT σ (Except ε) PUnit) s Q E := of_returns (returns_set.2 rfl) h

theorem ite {c : Prop} [Decidable c] {m' : StateT σ (Except ε) α} (hm : c → Does m s Q E)
    (hm' : ¬ c → Does m' s Q E) : Does (if c then m else m') s Q E := by
  split
  · rename_i hc
    exact hm hc
  · rename_i hc
    exact hm' hc

theorem zoom {get : σ → τ} {set : σ → τ → σ} {m : StateT τ (Except ε) α}
    (h : Does m (get s) (fun a t => Q a (set s t)) E) : Does (zoom get set m) s Q E := by
  refine ⟨fun a s' hr => ?_, fun e he => h.stops (fails_zoom.1 he)⟩
  obtain ⟨t, ht, rfl⟩ := returns_zoom.1 hr
  exact h.returns ht

end Does

end Xv6Container
