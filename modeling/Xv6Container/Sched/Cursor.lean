import Mathlib.Data.List.Iterate
import Mathlib.Dynamics.PeriodicPts.Defs

/-!
# A cursor that moves along a word

A cursor stands at a key and scans a word; each time it meets its key, it moves on to the next key
of a cycle, and it moves on once more at the end of the word.  One scan is a *pass*.  This is the
shape of a scheduler that serves classes in turn while it scans a table.

The cursor serves a stretch of consecutive keys, as long as the stretch is a subsequence of the
word, and passes over the key after it.  So it depends on how the cycle can be cut into stretches
which keys are served.

* `Cursor.served_spec` : the stretch served by one pass is the longest that is a subsequence;
* `Cursor.Cut` : a list of keys cut into stretches that end in a key passed over;
* `Cursor.cut_iterate_iff` : the passes end where the keys can be cut;
* `Cursor.serves_iff_not_cut` : a key is served at all if and only if not both the way to it and
  the way round from it can be cut.
-/

namespace Xv6Container

namespace Cursor

open Function

variable {α : Type*} [DecidableEq α] (nxt : α → α)

/-- The number of keys that a pass over `w` serves, with the cursor at `c` first. -/
def served : α → List α → ℕ
  | _, [] => 0
  | c, a :: w => if a = c then served (nxt c) w + 1 else served c w

variable (w : List α)

/-- The number of keys that the cursor has left behind before pass `j`. -/
def bound (c : α) : ℕ → ℕ
  | 0 => 0
  | j + 1 => bound c j + served nxt (nxt^[bound c j] c) w + 1

/-- Pass `j` serves the key `x`. -/
def Serves (c x : α) (j : ℕ) : Prop :=
  x ∈ List.iterate nxt (nxt^[bound nxt w c j] c) (served nxt (nxt^[bound nxt w c j] c) w)

/-- The list can be cut into stretches, each of which is not a subsequence of `w` but becomes one
without its last key. -/
inductive Cut : List α → Prop
  | nil : Cut []
  | block {l r : List α} {y : α} : l.Sublist w → ¬ (l ++ [y]).Sublist w → Cut r → Cut (l ++ y :: r)

/-- The keys from `c` to the first `x`, or `n` keys. -/
def walk (x : α) : ℕ → α → List α
  | 0, _ => []
  | n + 1, c => if c = x then [c] else c :: walk x n (nxt c)

variable {nxt w} {c x : α}

/-! ### One pass -/

variable (nxt) in
theorem served_spec : ∀ (c : α) (w : List α), (List.iterate nxt c (served nxt c w)).Sublist w ∧
    ¬ (List.iterate nxt c (served nxt c w + 1)).Sublist w
  | c, [] => by simp [served, List.iterate]
  | c, a :: w => by
    by_cases h : a = c
    · subst h
      obtain ⟨h1, h2⟩ := served_spec (nxt a) w
      simp only [served, if_true, List.iterate, List.cons_sublist_cons]
      exact ⟨h1, h2⟩
    · obtain ⟨h1, h2⟩ := served_spec c w
      simp only [served, h, if_false]
      refine ⟨h1.cons a, fun hs => h2 ?_⟩
      simp only [List.iterate] at hs ⊢
      cases hs with
      | cons _ hs => exact hs
      | cons_cons => exact absurd rfl h

omit [DecidableEq α] in
theorem iterate_sublist_of_le {m n : ℕ} (h : m ≤ n) :
    (List.iterate nxt c m).Sublist (List.iterate nxt c n) := by
  have : List.iterate nxt c m = (List.iterate nxt c n).take m := by
    rw [List.take_iterate, min_eq_left h]
  rw [this]
  exact List.take_sublist _ _

theorem eq_served {k : ℕ} (h : (List.iterate nxt c k).Sublist w)
    (h' : ¬ (List.iterate nxt c (k + 1)).Sublist w) : k = served nxt c w := by
  obtain ⟨hs, hs'⟩ := served_spec nxt c w
  by_contra hne
  obtain hlt | hgt := lt_or_gt_of_ne hne
  · exact h' ((iterate_sublist_of_le hlt).trans hs)
  · exact hs' ((iterate_sublist_of_le hgt).trans h)

/-! ### The ends of the passes -/

variable (nxt w c) in
theorem bound_lt_succ (j : ℕ) : bound nxt w c j < bound nxt w c (j + 1) := by
  simp only [bound]
  omega

theorem bound_strictMono : StrictMono (bound nxt w c) :=
  strictMono_nat_of_lt_succ (bound_lt_succ nxt w c)

theorem bound_add (i j : ℕ) :
    bound nxt w c (i + j) = bound nxt w c i + bound nxt w (nxt^[bound nxt w c i] c) j := by
  induction j with
  | zero => simp [bound]
  | succ j ih =>
    rw [← Nat.add_assoc]
    simp only [bound]
    rw [ih, Nat.add_comm (bound nxt w c i), iterate_add_apply]
    omega

variable (nxt w c) in
theorem exists_pass (p : ℕ) : ∃ j, bound nxt w c j ≤ p ∧ p < bound nxt w c (j + 1) := by
  induction p with
  | zero => exact ⟨0, le_rfl, by simp [bound]⟩
  | succ p ih =>
    obtain ⟨j, hj, hp⟩ := ih
    by_cases h : p + 1 < bound nxt w c (j + 1)
    · exact ⟨j, by omega, h⟩
    · exact ⟨j + 1, by omega, by have := bound_lt_succ nxt w c (j + 1); omega⟩

theorem cut_of_bound (j : ℕ) : ∀ c, Cut w (List.iterate nxt c (bound nxt w c j)) := by
  induction j with
  | zero => exact fun c => by simpa [bound, List.iterate] using Cut.nil
  | succ j ih =>
    intro c
    rw [Nat.add_comm, bound_add]
    simp only [bound, iterate_zero, id_eq, Nat.zero_add]
    rw [Nat.add_assoc, Nat.add_comm 1, List.iterate_add, List.iterate, ← iterate_succ_apply' nxt]
    obtain ⟨hs, hs'⟩ := served_spec nxt c w
    rw [List.iterate_add] at hs'
    exact .block hs (by simpa [List.iterate] using hs') (ih _)

theorem bound_of_cut {l : List α} (h : Cut w l) :
    ∀ c n, l = List.iterate nxt c n → ∃ j, bound nxt w c j = n := by
  induction h with
  | nil =>
    intro c n hn
    exact ⟨0, (List.iterate_eq_nil.1 hn.symm).symm⟩
  | @block l r y hl hly _ ih =>
    intro c n hn
    have hlen : n = l.length + (r.length + 1) := by
      have := congrArg List.length hn
      simpa using this.symm
    rw [hlen, List.iterate_add] at hn
    obtain ⟨h1, h2⟩ := List.append_inj hn (by simp)
    rw [List.iterate] at h2
    obtain ⟨rfl, hr⟩ := List.cons.inj h2
    -- the first stretch is what the first pass serves, and the key that it passes over
    have hk : l.length = served nxt c w := by
      refine eq_served (h1 ▸ hl) ?_
      rw [List.iterate_add]
      simpa [List.iterate, ← h1] using hly
    obtain ⟨j, hj⟩ := ih _ _ hr
    refine ⟨1 + j, ?_⟩
    rw [bound_add]
    simp only [bound, iterate_zero, id_eq, Nat.zero_add]
    rw [← hk, iterate_succ_apply', hj, hlen]
    omega

/-- **The passes end where the keys can be cut.** -/
theorem cut_iterate_iff {n : ℕ} : Cut w (List.iterate nxt c n) ↔ ∃ j, bound nxt w c j = n :=
  ⟨fun h => bound_of_cut h c n rfl, fun ⟨j, hj⟩ => hj ▸ cut_of_bound j c⟩

/-! ### Which keys are served -/

theorem serves_iff {j : ℕ} : Serves nxt w c x j ↔
    ∃ p, bound nxt w c j ≤ p ∧ p + 1 < bound nxt w c (j + 1) ∧ nxt^[p] c = x := by
  simp only [Serves, List.mem_iterate, bound]
  constructor
  · rintro ⟨i, hi, rfl⟩
    exact ⟨bound nxt w c j + i, by omega, by omega, by rw [Nat.add_comm, iterate_add_apply]⟩
  · rintro ⟨p, hp, hp', rfl⟩
    refine ⟨p - bound nxt w c j, by omega, ?_⟩
    rw [← iterate_add_apply, Nat.sub_add_cancel hp]

theorem forall_not_serves_iff : (∀ j, ¬ Serves nxt w c x j) ↔
    ∀ p, nxt^[p] c = x → ∃ j, bound nxt w c j = p + 1 := by
  constructor
  · intro h p hp
    obtain ⟨j, hj, hpj⟩ := exists_pass nxt w c p
    refine ⟨j + 1, ?_⟩
    by_contra hne
    exact h j (serves_iff.2 ⟨p, hj, by omega, hp⟩)
  · intro h j hj
    obtain ⟨p, hp, hp', hx⟩ := serves_iff.1 hj
    obtain ⟨i, hi⟩ := h p hx
    have h1 : j < i := bound_strictMono.lt_iff_lt.1 (by omega : bound nxt w c j < bound nxt w c i)
    have h2 : i < j + 1 :=
      bound_strictMono.lt_iff_lt.1 (by omega : bound nxt w c i < bound nxt w c (j + 1))
    omega

theorem serves_shift (i k : ℕ) :
    Serves nxt w (nxt^[bound nxt w c i] c) x k ↔ Serves nxt w c x (i + k) := by
  unfold Serves
  rw [bound_add, Nat.add_comm (bound nxt w c i), iterate_add_apply]

theorem serves_succ (j : ℕ) :
    Serves nxt w (nxt^[served nxt c w + 1] c) x j ↔ Serves nxt w c x (j + 1) := by
  have hone : bound nxt w c 1 = served nxt c w + 1 := by simp [bound]
  rw [← hone, serves_shift, Nat.add_comm]

theorem serves_add {i i' : ℕ} (h : nxt^[bound nxt w c i] c = nxt^[bound nxt w c i'] c) (k : ℕ) :
    Serves nxt w c x (i + k) ↔ Serves nxt w c x (i' + k) := by
  rw [← serves_shift, ← serves_shift, h]

theorem not_serves_of_lt {K : ℕ} (hc : c ∈ periodicPts nxt) (hK : minimalPeriod nxt c ≤ K)
    (h : ∀ j < K, ¬ Serves nxt w c x j) : ∀ j, ¬ Serves nxt w c x j := by
  intro j
  induction j using Nat.strong_induction_on with
  | _ j ih =>
    by_cases hj : j < K
    · exact h j hj
    -- two of the first passes start at the same key, so the pass `j` repeats an earlier one
    have hpos := minimalPeriod_pos_of_mem_periodicPts hc
    obtain ⟨a, ha, b, hb, hab, heq⟩ := Finset.exists_ne_map_eq_of_card_lt_of_maps_to
      (s := Finset.range (j + 1)) (t := Finset.range (minimalPeriod nxt c))
      (f := fun i => bound nxt w c i % minimalPeriod nxt c)
      (by simp; omega) (fun i _ => by simpa using Nat.mod_lt _ hpos)
    have hstart : nxt^[bound nxt w c a] c = nxt^[bound nxt w c b] c := by
      rw [← iterate_mod_minimalPeriod_eq, heq, iterate_mod_minimalPeriod_eq]
    simp only [Finset.mem_range] at ha hb
    intro hserve
    obtain hlt | hgt := lt_or_gt_of_ne hab
    · refine ih (a + (j - b)) (by omega) ((serves_add hstart _).2 ?_)
      rwa [Nat.add_sub_cancel' (by omega)]
    · refine ih (b + (j - a)) (by omega) ((serves_add hstart.symm _).2 ?_)
      rwa [Nat.add_sub_cancel' (by omega)]

theorem forall_not_serves_iff_cut (hc : c ∈ periodicPts nxt) {p : ℕ}
    (hp : p < minimalPeriod nxt c) (hx : nxt^[p] c = x) : (∀ j, ¬ Serves nxt w c x j) ↔
      Cut w (List.iterate nxt c (p + 1)) ∧
      Cut w (List.iterate nxt (nxt x) (minimalPeriod nxt c)) := by
  rw [forall_not_serves_iff, cut_iterate_iff, cut_iterate_iff]
  have hx' : ∀ t, nxt^[p + t * minimalPeriod nxt c + 1] c = nxt x := fun t => by
    rw [iterate_succ_apply', ← iterate_mod_minimalPeriod_eq, Nat.add_mul_mod_self_right,
      iterate_mod_minimalPeriod_eq, hx]
  constructor
  · intro h
    obtain ⟨i, hi⟩ := h p hx
    obtain ⟨i', hi'⟩ := h (p + minimalPeriod nxt c) (by rw [iterate_add_minimalPeriod_eq, hx])
    have hlt : i < i' := bound_strictMono.lt_iff_lt.1
      (by have := minimalPeriod_pos_of_mem_periodicPts hc; omega :
        bound nxt w c i < bound nxt w c i')
    obtain ⟨k, rfl⟩ := Nat.exists_eq_add_of_le hlt.le
    rw [bound_add, hi, iterate_succ_apply', hx] at hi'
    exact ⟨⟨i, hi⟩, k, by omega⟩
  · rintro ⟨⟨i, hi⟩, k, hk⟩ q hq
    have hmod : q % minimalPeriod nxt c = p := by
      refine (iterate_eq_iterate_iff_of_lt_minimalPeriod
        (Nat.mod_lt _ (minimalPeriod_pos_of_mem_periodicPts hc)) hp).1 ?_
      rw [iterate_mod_minimalPeriod_eq, hq, hx]
    have key : ∀ t, ∃ j, bound nxt w c j = p + t * minimalPeriod nxt c + 1 := by
      intro t
      induction t with
      | zero => exact ⟨i, by omega⟩
      | succ t ih =>
        obtain ⟨j, hj⟩ := ih
        exact ⟨j + k, by rw [bound_add, hj, hx', hk, Nat.succ_mul]; omega⟩
    obtain ⟨j, hj⟩ := key (q / minimalPeriod nxt c)
    refine ⟨j, hj.trans ?_⟩
    rw [← hmod, Nat.mul_comm, Nat.mod_add_div]

theorem walk_eq {n p : ℕ} (hx : nxt^[p] c = x) (hlt : ∀ i < p, nxt^[i] c ≠ x) (hn : p < n) :
    walk nxt x n c = List.iterate nxt c (p + 1) := by
  induction n generalizing c p with
  | zero => omega
  | succ n ih =>
    cases p with
    | zero =>
      obtain rfl : c = x := hx
      simp [walk, List.iterate]
    | succ p =>
      have hne : c ≠ x := hlt 0 (by omega)
      rw [walk, if_neg hne, ih (p := p) hx (fun i hi => hlt (i + 1) (by omega)) (by omega)]
      rfl

/-- **Which keys are served.**  On a cycle of at most `K` keys, `K` passes serve the key `x` if and
only if not both the keys from the start to `x` and the keys from the one after `x` round to `x` can
be cut. -/
theorem serves_iff_not_cut {K : ℕ} (hc : c ∈ periodicPts nxt) (hK : minimalPeriod nxt c ≤ K)
    (hx : ∃ i, nxt^[i] c = x) : (∃ j < K, Serves nxt w c x j) ↔
      ¬ (Cut w (walk nxt x K c) ∧ Cut w (walk nxt x K (nxt x))) := by
  obtain ⟨i, hi⟩ := hx
  have hpos := minimalPeriod_pos_of_mem_periodicPts hc
  -- the first visit to `x`
  obtain ⟨p, hp, hpx⟩ : ∃ p < minimalPeriod nxt c, nxt^[p] c = x :=
    ⟨i % minimalPeriod nxt c, Nat.mod_lt _ hpos, by rw [iterate_mod_minimalPeriod_eq, hi]⟩
  have hper : minimalPeriod nxt x = minimalPeriod nxt c := by
    rw [← hpx, minimalPeriod_apply_iterate hc]
  have hwalk : walk nxt x K c = List.iterate nxt c (p + 1) := by
    refine walk_eq hpx (fun j hj h => ?_) (by omega)
    have := (iterate_eq_iterate_iff_of_lt_minimalPeriod (by omega) hp).1 (h.trans hpx.symm)
    omega
  have hround : walk nxt x K (nxt x) = List.iterate nxt (nxt x) (minimalPeriod nxt c) := by
    obtain ⟨r, hr⟩ := Nat.exists_eq_add_of_lt hpos
    rw [Nat.zero_add] at hr
    rw [hr]
    refine walk_eq ?_ (fun j hj h => ?_) (by omega)
    · have : nxt^[r + 1] x = x := by rw [← hr, ← hper, iterate_minimalPeriod]
      exact this
    · rw [← iterate_succ_apply] at h
      have := (iterate_eq_iterate_iff_of_lt_minimalPeriod (x := x) (m := j + 1) (n := 0)
        (by omega) (by omega)).1 h
      omega
  rw [hwalk, hround, ← forall_not_serves_iff_cut hc hp hpx]
  constructor
  · rintro ⟨j, -, hj⟩ h
    exact h j hj
  · intro h
    by_contra hno
    push Not at hno
    exact h (not_serves_of_lt hc hK hno)

end Cursor

end Xv6Container
