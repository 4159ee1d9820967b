import Mathlib.Data.Fintype.BigOperators
import Mathlib.Tactic.Ring

/-!
# Totals over processes

How a sum, or a number of processes, changes when one process changes.
-/

namespace Xv6Container

open Finset

variable {ι : Type*} [Fintype ι] [DecidableEq ι] {p : ι}

theorem sum_change {f g : ι → ℕ} (h : ∀ q, q ≠ p → g q = f q) :
    ∑ q, g q + f p = ∑ q, f q + g p := by
  have hrest : ∑ q ∈ univ.erase p, g q = ∑ q ∈ univ.erase p, f q :=
    sum_congr rfl fun q hq => h q (ne_of_mem_erase hq)
  rw [← add_sum_erase univ g (mem_univ p), ← add_sum_erase univ f (mem_univ p), hrest]
  ring

theorem card_change {f g : ι → Bool} (h : ∀ q, q ≠ p → g q = f q) :
    #{q | g q = true} + (f p).toNat = #{q | f q = true} + (g p).toNat := by
  have hcard : ∀ f : ι → Bool, #{q | f q = true} = ∑ q, (f q).toNat := by
    intro f
    rw [card_filter]
    exact sum_congr rfl fun q _ => by cases f q <;> rfl
  rw [hcard, hcard]
  exact sum_change (f := fun q => (f q).toNat) (g := fun q => (g q).toNat) fun q hq => by
    rw [h q hq]

end Xv6Container
