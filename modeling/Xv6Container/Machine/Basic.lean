import Mathlib.Tactic
import Xv6Container.Data.Except

/-!
# Guarded machines and their runs

A kernel component is modelled as a *guarded machine*: a partial function from a state and a
call to the state the call leaves behind.  The call is not possible in a state (its caller is not
running, a lock is taken, the kernel panics) exactly when the function is undefined there, so a
machine can be executed on a list of calls (`Machine.run`).

Properties of whole runs are stated over `Machine.Run C s ls s'`: performing the calls `ls` in
order leads from `s` to `s'`, and every single step meets the condition `C` (`fun _ _ => True`
for an arbitrary run).

* `Machine.Run.invariant` : what holds first and is kept by every step that meets `C` holds in
  every state reached by such steps;
* `Machine.run_eq_some_iff` : the executable runs are exactly the unconditional ones;
* `Machine.runIf_eq_some_iff` : a run whose condition is decidable can be executed with it, and
  `Machine.exists_run` looks at where it ends.
-/

namespace Xv6Container

instance neZero_one : NeZero 1 := ⟨by decide⟩

instance neZero_two : NeZero 2 := ⟨by decide⟩

/-- A guarded machine with states `S` and calls `L`: `next s l` is the state in which `l` leaves
`s`, or `none` when `l` cannot be performed in `s`. -/
structure Machine (S : Type*) (L : Type*) where
  /-- The state after a call. -/
  next : S → L → Option S

namespace Machine

variable {S L : Type*} (M : Machine S L)

/-- Perform the calls `ls` in order. -/
def run : S → List L → Option S
  | s, [] => some s
  | s, l :: ls => (M.next s l).bind fun s' => run s' ls

/-- Performing `ls` in order leads from `s` to `s'` by steps that all meet `C`. -/
inductive Run (C : S → L → Prop) : S → List L → S → Prop
  | nil (s : S) : Run C s [] s
  | cons {s s' s'' : S} {l : L} {ls : List L} :
      C s l → M.next s l = some s' → Run C s' ls s'' → Run C s (l :: ls) s''

variable {M}

variable {C : S → L → Prop} {s s' : S} {ls : List L}

theorem Run.append {s'' : S} {ls' : List L} (h : M.Run C s ls s')
    (h' : M.Run C s' ls' s'') : M.Run C s (ls ++ ls') s'' := by
  induction h with
  | nil => exact h'
  | cons hc hst _ ih => exact .cons hc hst (ih h')

theorem Run.mono {D : S → L → Prop} (hCD : ∀ s l, C s l → D s l)
    (h : M.Run C s ls s') : M.Run D s ls s' := by
  induction h with
  | nil => exact .nil _
  | cons hc hst _ ih => exact .cons (hCD _ _ hc) hst ih

theorem Run.of_forall_mem {D : S → L → Prop} (h : M.Run C s ls s')
    (hD : ∀ l ∈ ls, ∀ s, D s l) : M.Run D s ls s' := by
  induction h with
  | nil => exact .nil _
  | cons _ hst _ ih =>
    exact .cons (hD _ List.mem_cons_self _) hst (ih fun l hl => hD l (List.mem_cons_of_mem _ hl))

theorem Run.invariant {I : S → Prop}
    (h : M.Run C s ls s') (h0 : I s)
    (hstep : ∀ s l s', I s → C s l → M.next s l = some s' → I s') : I s' := by
  induction h with
  | nil => exact h0
  | cons hc hst _ ih => exact ih (hstep _ _ _ h0 hc hst)

theorem run_eq_some_iff :
    M.run s ls = some s' ↔ M.Run (fun _ _ => True) s ls s' := by
  constructor
  · intro h
    induction ls generalizing s with
    | nil =>
      simp only [run, Option.some.injEq] at h
      subst h
      exact .nil _
    | cons l ls ih =>
      obtain ⟨t, hst, ht⟩ := Option.bind_eq_some_iff.1 h
      exact .cons trivial hst (ih ht)
  · intro h
    induction h with
    | nil => rfl
    | cons _ hst _ ih => simp [run, hst, ih]

/-- Perform the calls `ls` in order, as long as each meets `C`. -/
def runIf (M : Machine S L) (C : S → L → Prop) [∀ s l, Decidable (C s l)] : S → List L → Option S
  | s, [] => some s
  | s, l :: ls => if C s l then (M.next s l).bind fun s' => runIf M C s' ls else none

theorem runIf_eq_some_iff [∀ s l, Decidable (C s l)] :
    M.runIf C s ls = some s' ↔ M.Run C s ls s' := by
  constructor
  · intro h
    induction ls generalizing s with
    | nil =>
      simp only [runIf, Option.some.injEq] at h
      subst h
      exact .nil _
    | cons l ls ih =>
      rw [runIf, Option.ite_none_right_eq_some] at h
      obtain ⟨t, hst, ht⟩ := Option.bind_eq_some_iff.1 h.2
      exact .cons h.1 hst (ih ht)
  · intro h
    induction h with
    | nil => rfl
    | cons hc hst _ ih => simp [runIf, hc, hst, ih]

theorem exists_run [∀ s l, Decidable (C s l)] {P : S → Prop} [DecidablePred P]
    (h : (M.runIf C s ls).any (fun t => decide (P t)) = true) : ∃ t, M.Run C s ls t ∧ P t := by
  obtain ⟨t, hrun, hP⟩ := exists_of_any h
  exact ⟨t, runIf_eq_some_iff.1 hrun, hP⟩

end Machine

end Xv6Container
