import Mathlib.Tactic.Common

/-!
# Computations that may stop

How the steps of an `Except` computation that returns are taken apart.
-/

namespace Xv6Container

variable {ε α β : Type}

variable {x : Except ε α} {f : α → Except ε β} {l : List α}

/-- A computation on fixed inputs is executed to see that it ends as described. -/
theorem exists_of_any {α : Type*} {o : Option α} {P : α → Prop} [DecidablePred P]
    (h : o.any (fun a => decide (P a)) = true) : ∃ a, o = some a ∧ P a := by
  obtain ⟨a, ha, hP⟩ := (Option.any_eq_true _ _).1 h
  exact ⟨a, ha, of_decide_eq_true hP⟩

theorem bind_eq_ok {b : β} :
    (x >>= f) = .ok b ↔ ∃ a, x = .ok a ∧ f a = .ok b := by
  cases x with
  | error e => simp [bind, Except.bind]
  | ok a => simp [bind, Except.bind]

theorem map_eq_ok {f : α → β} {b : β} :
    x.map f = .ok b ↔ ∃ a, x = .ok a ∧ f a = b := by
  cases x with
  | error e => simp [Except.map]
  | ok a => simp [Except.map]

theorem toOption_eq_some {a : α} : x.toOption = some a ↔ x = .ok a := by
  cases x <;> simp [Except.toOption]

theorem map_fst_of_mapM {r : List (α × β)}
    (h : (l.mapM fun a => do return (a, ← f a)) = .ok r) : r.map Prod.fst = l := by
  induction l generalizing r with
  | nil => cases h; rfl
  | cons a l ih =>
    rw [List.mapM_cons] at h
    obtain ⟨p, hp, h⟩ := bind_eq_ok.1 h
    obtain ⟨ps, hps, h⟩ := bind_eq_ok.1 h
    obtain ⟨b, -, hb⟩ := bind_eq_ok.1 hp
    cases hb
    cases h
    simp [ih hps]

theorem eq_ok_of_mapM {r : List (α × β)}
    (h : (l.mapM fun a => do return (a, ← f a)) = .ok r) : ∀ e ∈ r, f e.1 = .ok e.2 := by
  induction l generalizing r with
  | nil => cases h; simp
  | cons a l ih =>
    rw [List.mapM_cons] at h
    obtain ⟨p, hp, h⟩ := bind_eq_ok.1 h
    obtain ⟨ps, hps, h⟩ := bind_eq_ok.1 h
    obtain ⟨b, hb, he⟩ := bind_eq_ok.1 hp
    cases he
    cases h
    exact List.forall_mem_cons.2 ⟨hb, ih hps⟩

theorem exists_mapM_eq_ok (h : ∀ a ∈ l, ∃ b, f a = .ok b) :
    ∃ r, (l.mapM fun a => do return (a, ← f a)) = .ok r := by
  induction l with
  | nil => exact ⟨[], rfl⟩
  | cons a l ih =>
    obtain ⟨b, hb⟩ := h a List.mem_cons_self
    obtain ⟨r, hr⟩ := ih fun x hx => h x (List.mem_cons_of_mem _ hx)
    refine ⟨(a, b) :: r, ?_⟩
    rw [List.mapM_cons]
    exact bind_eq_ok.2 ⟨(a, b), bind_eq_ok.2 ⟨b, hb, rfl⟩, bind_eq_ok.2 ⟨r, hr, rfl⟩⟩

end Xv6Container
