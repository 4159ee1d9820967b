import Mathlib.Data.Finset.Card

/-!
# Ledgers

A quota is kept as a counter per account, and the counters are right when each counts the items
that are charged to its account.  `Ledger` is the truth the counters should agree with: the set
of items charged to every account.

* `Ledger.Balanced` : every counter counts the items of its account;
* `Ledger.balanced_charge`, `Ledger.balanced_release_iff`, `Ledger.balanced_reset_iff` : what
  counting up, counting down and clearing a counter must be matched with.
-/

namespace Xv6Container

open Function

variable {κ α : Type*} [DecidableEq κ] [DecidableEq α]

/-- The items of type `α` charged to each account of type `κ`. -/
abbrev Ledger (κ α : Type*) := κ → Finset α

namespace Ledger

/-- Charge the item `a` to the account `k`. -/
def charge (L : Ledger κ α) (k : κ) (a : α) : Ledger κ α := update L k (insert a (L k))

/-- Take the item `a` off the account it is charged to. -/
def release (L : Ledger κ α) (a : α) : Ledger κ α := fun k => (L k).erase a

/-- No item is charged to two accounts. -/
def Exclusive (L : Ledger κ α) : Prop := ∀ ⦃k l a⦄, a ∈ L k → a ∈ L l → k = l

/-- The counters `used` count the items charged to each account. -/
def Balanced (used : κ → ℤ) (L : Ledger κ α) : Prop := ∀ k, used k = (L k).card

variable {L : Ledger κ α} {used : κ → ℤ} {k : κ} {a : α}

theorem mem_charge {l : κ} {b : α} : b ∈ L.charge k a l ↔ (l = k ∧ b = a) ∨ b ∈ L l := by
  by_cases h : l = k
  · subst h; simp [charge]
  · simp [charge, h]

omit [DecidableEq κ] in
theorem mem_release {l : κ} {b : α} : b ∈ L.release a l ↔ b ≠ a ∧ b ∈ L l := by
  simp [release]

theorem Exclusive.charge (h : Exclusive L) (ha : ∀ l, a ∉ L l) : Exclusive (L.charge k a) := by
  intro l m b hl hm
  rw [mem_charge] at hl hm
  obtain ⟨rfl, rfl⟩ | hl := hl
  · obtain ⟨rfl, -⟩ | hm := hm
    · rfl
    · exact absurd hm (ha m)
  · obtain ⟨rfl, rfl⟩ | hm := hm
    · exact absurd hl (ha l)
    · exact h hl hm

omit [DecidableEq κ] in
theorem Exclusive.release (h : Exclusive L) : Exclusive (L.release a) := fun _ _ _ hl hm =>
  h (mem_release.1 hl).2 (mem_release.1 hm).2

theorem card_charge (ha : a ∉ L k) (l : κ) :
    ((L.charge k a l).card : ℤ) = (L l).card + if l = k then 1 else 0 := by
  by_cases hl : l = k
  · subst hl
    simp [charge, Finset.card_insert_of_notMem ha]
  · simp [charge, hl]

omit [DecidableEq κ] in
theorem card_release (l : κ) :
    ((L.release a l).card : ℤ) = (L l).card - if a ∈ L l then 1 else 0 := by
  by_cases ha : a ∈ L l
  · have : 0 < (L l).card := Finset.card_pos.2 ⟨a, ha⟩
    rw [release, Finset.card_erase_of_mem ha, if_pos ha]
    omega
  · rw [release, Finset.erase_eq_of_notMem ha, if_neg ha, Int.sub_zero]

theorem balanced_charge (h : Balanced used L) (ha : a ∉ L k) :
    Balanced (update used k (used k + 1)) (L.charge k a) := by
  intro l
  rw [card_charge ha, ← h l]
  by_cases hl : l = k
  · subst hl; simp
  · simp [hl]

omit [DecidableEq α] in
theorem not_balanced_succ (h : Balanced used L) :
    ¬ Balanced (update used k (used k + 1)) L := by
  intro h'
  have := h' k
  rw [update_self, h k] at this
  omega

theorem balanced_release_iff (h : Balanced used L) (hx : Exclusive L) :
    Balanced (update used k (used k - 1)) (L.release a) ↔ a ∈ L k := by
  constructor
  · intro h'
    by_contra ha
    have := h' k
    rw [update_self, card_release, if_neg ha, h k] at this
    omega
  · intro ha l
    rw [card_release, ← h l]
    by_cases hl : l = k
    · subst hl; simp [ha]
    · have : a ∉ L l := fun h => hl (hx h ha)
      simp [hl, this]

omit [DecidableEq α] in
theorem balanced_reset_iff (h : Balanced used L) :
    Balanced (update used k 0) L ↔ L k = ∅ := by
  constructor
  · intro h'
    have := h' k
    rw [update_self] at this
    exact Finset.card_eq_zero.1 (by omega)
  · intro hk l
    by_cases hl : l = k
    · subst hl; simp [hk]
    · rw [update_of_ne hl, h l]

end Ledger

end Xv6Container
