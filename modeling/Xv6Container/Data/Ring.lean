import Mathlib.Data.Nat.ModEq
import Mathlib.Data.List.Range

/-!
# Ring buffers with free-running counters

A ring of `c` cells is written at the index `w % c` and read at the index `r % c`, where the
counters `r` and `w` are only ever incremented, modulo `m`.  When `c` divides `m` the wrap of the
counters does not disturb the indices.

* `Ring.count` : how far the writing counter is ahead of the reading counter;
* `Ring.items` : the cells between the counters, oldest first;
* `Ring.items_push`, `Ring.items_pop` : writing a cell appends to the items, incrementing the
  reading counter removes the oldest of them.
-/

namespace Xv6Container

open Function

namespace Ring

variable {α : Type*} {c m : ℕ}

/-- The number of increments the counter `w` is ahead of the counter `r`, modulo `m`. -/
def count (m r w : ℕ) : ℕ := (m - r + w) % m

/-- The `n` cells from index `r % c` on. -/
def items (data : ℕ → α) (c r n : ℕ) : List α := (List.range n).map fun k => data ((r + k) % c)

@[simp] theorem length_items (data : ℕ → α) (c r n : ℕ) : (items data c r n).length = n := by
  simp [items]

variable {r w n : ℕ}

theorem count_eq (hr : r < m) (hw : w < m) :
    count m r w = if r ≤ w then w - r else m + w - r := by
  unfold count
  split_ifs with h
  · rw [show m - r + w = w - r + m by omega, Nat.add_mod_right, Nat.mod_eq_of_lt (by omega)]
  · rw [Nat.mod_eq_of_lt (by omega)]
    omega

theorem succ_mod (hw : w < m) : (w + 1) % m = if w + 1 = m then 0 else w + 1 := by
  split_ifs with h
  · rw [h, Nat.mod_self]
  · exact Nat.mod_eq_of_lt (by omega)

theorem count_eq_zero (hr : r < m) (hw : w < m) : count m r w = 0 ↔ r = w := by
  rw [count_eq hr hw]
  split_ifs <;> omega

theorem count_eq_iff (hr : r < m) (hw : w < m) (hn : n < m) :
    count m r w = n ↔ w = (r + n) % m := by
  have hmod : (r + n) % m = if r + n < m then r + n else r + n - m := by
    split_ifs with h
    · exact Nat.mod_eq_of_lt h
    · rw [Nat.mod_eq_sub_mod (by omega), Nat.mod_eq_of_lt (by omega)]
  rw [count_eq hr hw, hmod]
  split_ifs <;> omega

theorem count_push (hr : r < m) (hw : w < m) (h : count m r w + 1 < m) :
    count m r ((w + 1) % m) = count m r w + 1 := by
  rw [count_eq hr hw] at h ⊢
  rw [count_eq hr (Nat.mod_lt _ (by omega)), succ_mod hw]
  split_ifs at h ⊢ <;> omega

theorem count_pop (hr : r < m) (hw : w < m) (h : 0 < count m r w) :
    count m r w = count m ((r + 1) % m) w + 1 := by
  rw [count_eq hr hw] at h ⊢
  rw [count_eq (Nat.mod_lt _ (by omega)) hw, succ_mod hr]
  split_ifs at h ⊢ <;> omega

theorem items_congr (data : ℕ → α) {r' : ℕ} (n : ℕ) (h : r % c = r' % c) :
    items data c r n = items data c r' n := by
  refine List.map_congr_left fun k _ => ?_
  rw [Nat.add_mod, h, ← Nat.add_mod]

theorem items_succ (data : ℕ → α) (c r n : ℕ) :
    items data c r (n + 1) = items data c r n ++ [data ((r + n) % c)] := by
  simp [items, List.range_succ]

theorem items_update (data : ℕ → α) {i : ℕ} (x : α) (hn : n < c) (hi : i = (r + n) % c) :
    items (update data i x) c r n = items data c r n := by
  subst hi
  refine List.map_congr_left fun k hk => update_of_ne (fun h => ?_) _ _
  have hk : k < n := List.mem_range.1 hk
  -- two offsets below the number of cells that name one cell are equal
  have hkn : k ≡ n [MOD c] := Nat.ModEq.add_left_cancel' r h
  have := Nat.ModEq.eq_of_lt_of_lt hkn (by omega) hn
  omega

theorem items_push (data : ℕ → α) {i : ℕ} (x : α) (hn : n < c) (hi : i = (r + n) % c) :
    items (update data i x) c r (n + 1) = items data c r n ++ [x] := by
  rw [items_succ, items_update data x hn hi, hi, update_self]

theorem items_pop (data : ℕ → α) (c r n : ℕ) :
    items data c r (n + 1) = data (r % c) :: items data c (r + 1) n := by
  simp only [items, List.range_succ_eq_map, List.map_cons, List.map_map, Nat.add_zero]
  congr 1
  refine List.map_congr_left fun k _ => ?_
  simp only [Function.comp, Nat.succ_eq_add_one]
  congr 2
  omega

end Ring

end Xv6Container
