import Mathlib.Data.List.Basic
import Mathlib.Data.List.Induction

/-!
# Trees of nodes in a store

A store gives each node the nodes its entries point to.  `descend next a π` is the node that the
path `π` leads to from `a`.  What a path leads to depends only on the entries it passes
(`descend_congr`).
-/

namespace Xv6Container

variable {A ι : Type*}

/-- Follow the entries of `π` from node `a`. -/
def descend (next : A → ι → Option A) : A → List ι → Option A
  | a, [] => some a
  | a, i :: π => (next a i).bind fun b => descend next b π

variable {next next' : A → ι → Option A} {a b : A} {π ρ : List ι} {i : ι}

@[simp] theorem descend_nil : descend next a [] = some a := rfl

@[simp] theorem descend_cons :
    descend next a (i :: π) = (next a i).bind fun b => descend next b π := rfl

theorem descend_append :
    descend next a (π ++ ρ) = (descend next a π).bind fun b => descend next b ρ := by
  induction π generalizing a with
  | nil => rfl
  | cons i π ih =>
    simp only [List.cons_append, descend_cons, Option.bind_assoc]
    exact congrArg _ (funext fun b => ih)

theorem descend_concat : descend next a (π ++ [i]) = (descend next a π).bind (next · i) := by
  rw [descend_append]
  exact congrArg _ (funext fun b => by simp)

theorem exists_of_descend_append (h : descend next a (π ++ ρ) = some b) :
    ∃ c, descend next a π = some c ∧ descend next c ρ = some b := by
  rw [descend_append] at h
  exact Option.bind_eq_some_iff.1 h

theorem descend_congr (h : ∀ π i b, π ++ [i] <+: ρ → descend next a π = some b →
    next' b i = next b i) : descend next' a ρ = descend next a ρ := by
  induction ρ using List.reverseRecOn with
  | nil => rfl
  | append_singleton ρ j ih =>
    have hρ : descend next' a ρ = descend next a ρ :=
      ih fun π i b hp hb => h π i b (hp.trans (List.prefix_append _ _)) hb
    rw [descend_concat, descend_concat, hρ]
    cases hb : descend next a ρ with
    | none => rfl
    | some b => exact h ρ j b (List.prefix_refl _) hb

theorem descend_eq_none (h : ∀ i, next a i = none) (hπ : π ≠ []) : descend next a π = none := by
  cases π with
  | nil => exact absurd rfl hπ
  | cons i π => simp [h i]

end Xv6Container
