import Xv6Container.Data.Does

/-!
# Computations that stay within a relation

`Within R E m` says that the state in which `m` returns is related by `R` to the state in which it
was begun, and that it stops with errors of `E` only.  For a preorder `R` the combinators keep this,
so that a computation stays within `R` and `E` if its primitive steps do.
-/

namespace Xv6Container

variable {σ ε α β : Type} {R : σ → σ → Prop} {E : ε → Prop}

/-- When `m` returns, the states before and after are related by `R`; when it stops, `E` holds of
the error. -/
def Within (R : σ → σ → Prop) (E : ε → Prop) (m : StateT σ (Except ε) α) : Prop :=
  ∀ s, Does m s (fun _ => R s) E

/-- Any two states, for computations of which only the errors matter. -/
def AnyState (_ _ : σ) : Prop := True

instance : Std.Refl (AnyState (σ := σ)) := ⟨fun _ => trivial⟩

instance : IsTrans σ AnyState := ⟨fun _ _ _ _ _ => trivial⟩

namespace Within

variable {m : StateT σ (Except ε) α} {f : α → StateT σ (Except ε) β}

theorem rel {s s' : σ} {a : α} (hm : Within R E m) (h : Returns m s a s') : R s s' :=
  (hm s).returns h

theorem of_rel (h : ∀ ⦃s a s'⦄, Returns m s a s' → R s s') : Within R (fun _ => True) m :=
  fun _ => ⟨fun _ _ hr => h hr, fun _ _ => trivial⟩

theorem pure [Std.Refl R] (a : α) : Within R E (Pure.pure a : StateT σ (Except ε) α) :=
  fun s => .pure (refl_of R s)

theorem bind [IsTrans σ R] (hm : Within R E m) (hf : ∀ a, Within R E (f a)) :
    Within R E (m >>= f) := fun s =>
  (hm s).bind fun a t ht => (hf a t).mono (fun _ _ h => trans_of R ht h) fun _ h => h

theorem get [Std.Refl R] : Within R E (MonadState.get : StateT σ (Except ε) σ) := fun s =>
  .of_returns (returns_get.2 ⟨rfl, rfl⟩) (refl_of R s)

theorem modify {g : σ → σ} (h : ∀ s, R s (g s)) :
    Within R E (modify g : StateT σ (Except ε) PUnit) := fun s => .modify (h s)

theorem throw {e : ε} (h : E e) : Within R E (MonadExcept.throw e : StateT σ (Except ε) α) :=
  fun _ => .throw h

theorem ite {c : Prop} [Decidable c] {m' : StateT σ (Except ε) α} (hm : c → Within R E m)
    (hm' : ¬ c → Within R E m') : Within R E (if c then m else m') := fun s =>
  .ite (fun hc => hm hc s) fun hc => hm' hc s

theorem forM [Std.Refl R] [IsTrans σ R] {γ : Type} {g : γ → StateT σ (Except ε) PUnit} (l : List γ)
    (hg : ∀ x, Within R E (g x)) : Within R E (l.forM g) := by
  induction l with
  | nil => exact pure _
  | cons x l ih => exact bind (hg x) fun _ => ih

end Within

end Xv6Container
