import Mathlib.Tactic

/-!
# C strings

The functions of `kernel/string.c` on character arrays.  An array is the list of its bytes; the
bytes past its end read as NUL, so a list without NUL is a string with its terminator left out.
-/

namespace Xv6Container

/-- A character array. -/
abbrev CharArray := List UInt8

/-- The character `/`. -/
abbrev slash : UInt8 := 47

/-- `strlen`. -/
def strlen (s : CharArray) : ℕ := (s.takeWhile (· ≠ 0)).length

/-- `strncmp`: compare up to `n` characters. -/
def strncmp : CharArray → CharArray → ℕ → ℤ
  | _, _, 0 => 0
  | p, q, n + 1 =>
    if p.headD 0 ≠ 0 ∧ p.headD 0 = q.headD 0 then strncmp p.tail q.tail n
    else (p.headD 0).toNat - (q.headD 0).toNat

/-- `strncpy`: copy `t` up to its NUL over the first `n` bytes of `s`, and fill the rest of these
with NUL. -/
def strncpy (s t : CharArray) (n : ℕ) : CharArray :=
  (List.range n).map (fun i => (t.takeWhile (· ≠ 0)).getD i 0) ++ s.drop n

/-- `safestrcpy`: like `strncpy`, but what is copied always ends in a NUL.  Behind the NUL of a
shorter string it writes a second one, and leaves the rest. -/
def safestrcpy (s t : CharArray) (n : ℕ) : CharArray :=
  let u := (t.takeWhile (· ≠ 0)).take (n - 1)
  let z := min 2 (n - u.length)
  u ++ List.replicate z 0 ++ s.drop (u.length + z)

/-- The bytes of a string literal. -/
def chars (s : String) : CharArray := s.toList.map fun c => UInt8.ofNat c.toNat

/-- The string that an array holds. -/
def str (s : CharArray) : CharArray := s.takeWhile (· ≠ 0)

/-! ### Equal strings -/

variable {p q : CharArray} {n : ℕ}

theorem strncmp_succ_eq_zero : strncmp p q (n + 1) = 0 ↔
    p.headD 0 = q.headD 0 ∧ (p.headD 0 = 0 ∨ strncmp p.tail q.tail n = 0) := by
  rw [strncmp]
  split
  · rename_i h
    constructor
    · exact fun he => ⟨h.2, .inr he⟩
    · rintro ⟨-, h0 | he⟩
      · exact absurd h0 h.1
      · exact he
  · rename_i h
    rw [sub_eq_zero, Nat.cast_inj, UInt8.toNat_inj]
    constructor
    · intro he
      exact ⟨he, .inl (by_contra fun h0 => h ⟨h0, he⟩)⟩
    · exact fun he => he.1

theorem strncmp_eq_zero_of_eq {r : CharArray} (h : strncmp p q n = 0)
    (h' : strncmp r q n = 0) : strncmp p r n = 0 := by
  induction n generalizing p q r with
  | zero => rfl
  | succ n ih =>
    rw [strncmp_succ_eq_zero] at *
    refine ⟨h.1.trans h'.1.symm, ?_⟩
    rcases h.2 with h0 | h1
    · exact .inl h0
    · rcases h'.2 with h0 | h2
      · exact .inl ((h.1.trans h'.1.symm).trans h0)
      · exact .inr (ih h1 h2)

theorem strncmp_eq_zero_of_le {m : ℕ} (hm : m ≤ n) (h : strncmp p q n = 0) :
    strncmp p q m = 0 := by
  induction n generalizing p q m with
  | zero =>
    obtain rfl : m = 0 := by omega
    rfl
  | succ n ih =>
    cases m with
    | zero => rfl
    | succ m =>
      rw [strncmp_succ_eq_zero] at *
      exact ⟨h.1, h.2.imp id fun h => ih (by omega) h⟩

@[simp] theorem str_nil : str [] = [] := rfl

theorem str_cons (a : UInt8) (s : CharArray) : str (a :: s) = if a = 0 then [] else a :: str s := by
  by_cases h : a = 0 <;> simp [str, h]

theorem strncmp_strlen_eq_zero :
    strncmp p q (strlen q) = 0 ↔ str q <+: str p := by
  rw [strlen, ← str]
  induction q generalizing p with
  | nil => simp [strncmp]
  | cons b q ih =>
    rw [str_cons]
    split
    · simp [strncmp]
    · rename_i hb
      rw [List.length_cons, strncmp_succ_eq_zero]
      cases p with
      | nil => simp [Ne.symm hb]
      | cons a p =>
        rw [str_cons]
        by_cases ha : a = 0
        · simp [ha, Ne.symm hb]
        · simp only [List.headD_cons, List.tail_cons, ha, false_or, if_false, List.cons_prefix_cons,
            ih, eq_comm]

/-! ### Copied strings -/

theorem ne_zero_of_mem_str {s : CharArray} {b : UInt8} (h : b ∈ str s) : b ≠ 0 := by
  have hall : (str s).all (· ≠ 0) = true := List.all_takeWhile
  simpa using List.all_eq_true.1 hall b h

theorem str_append_zero {u v : CharArray} (h : ∀ b ∈ u, b ≠ 0) : str (u ++ 0 :: v) = u := by
  rw [str, List.takeWhile_append_of_pos (by simpa using h)]
  simp

theorem str_safestrcpy (s t : CharArray) (n : ℕ) :
    str (safestrcpy s t (n + 1)) = (str t).take n := by
  have hlen : ((str t).take n).length ≤ n := List.length_take_le _ _
  obtain ⟨m, hm⟩ : ∃ m, min 2 (n + 1 - ((str t).take n).length) = m + 1 :=
    Nat.exists_eq_add_one.2 (by omega)
  rw [safestrcpy, Nat.add_sub_cancel, ← str, hm, List.replicate_succ, List.append_assoc,
    List.cons_append]
  exact str_append_zero fun b hb => ne_zero_of_mem_str (List.mem_of_mem_take hb)

theorem str_strncpy {s t : CharArray} (h : strlen t < n) : str (strncpy s t n) = str t := by
  have hlen : (str t).length < n := h
  have hfill : (List.range n).map (fun j => (str t).getD j 0) =
      str t ++ List.replicate (n - (str t).length) 0 := by
    refine List.ext_getElem ?_ fun j _ _ => ?_
    · simp only [List.length_map, List.length_range, List.length_append, List.length_replicate]
      omega
    · rw [List.getElem_map, List.getElem_range, List.getD_eq_getElem?_getD, List.getElem_append]
      split
      · rename_i hj
        rw [List.getElem?_eq_getElem hj, Option.getD_some]
      · rename_i hj
        rw [List.getElem?_eq_none (by omega), Option.getD_none, List.getElem_replicate]
  obtain ⟨m, hm⟩ : ∃ m, n - (str t).length = m + 1 :=
    ⟨n - (str t).length - 1, by omega⟩
  rw [strncpy, ← str, hfill, hm, List.replicate_succ, List.append_assoc, List.cons_append]
  exact str_append_zero fun _ => ne_zero_of_mem_str
end Xv6Container
