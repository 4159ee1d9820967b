import Mathlib.Tactic

/-!
# Bitmaps in byte buffers

Bit `k` of a buffer is bit `k % 8` of its byte `k / 8`.  `setBit` and `clearBit` change one bit
and no other (`bit_setBit`, `bit_clearBit`).
-/

namespace Xv6Container

open Function

/-- The byte with only bit `i` set. -/
def mask (i : ℕ) : UInt8 := 1 <<< UInt8.ofNat i

/-- Bit `k` of a buffer. -/
def bit (f : ℕ → UInt8) (k : ℕ) : Bool := f (k / 8) &&& mask (k % 8) != 0

/-- Set bit `k`. -/
def setBit (f : ℕ → UInt8) (k : ℕ) : ℕ → UInt8 :=
  update f (k / 8) (f (k / 8) ||| mask (k % 8))

/-- Clear bit `k`. -/
def clearBit (f : ℕ → UInt8) (k : ℕ) : ℕ → UInt8 :=
  update f (k / 8) (f (k / 8) &&& ~~~mask (k % 8))

theorem forall_uint8 {P : UInt8 → Prop} (h : ∀ x : Fin 256, P (UInt8.ofNat x)) (x : UInt8) :
    P x := by
  have := h ⟨x.toNat, x.toNat_lt⟩
  rwa [UInt8.ofNat_toNat] at this

theorem and_mask (x : UInt8) {j : ℕ} (hj : j < 8) :
    (x &&& mask j != 0) = x.toNat.testBit j := by
  have h : ∀ (x : Fin 256) (j : Fin 8),
      (UInt8.ofNat x &&& mask j != 0) = (UInt8.ofNat x).toNat.testBit j := by decide +kernel
  revert x
  exact forall_uint8 fun x => h x ⟨j, hj⟩

theorem or_mask_and_mask (x : UInt8) {i j : ℕ} (hi : i < 8) (hj : j < 8) :
    ((x ||| mask i) &&& mask j != 0) = (decide (j = i) || (x &&& mask j != 0)) := by
  have h : ∀ i j : Fin 8, (mask i).toNat.testBit j = decide ((j : ℕ) = i) := by decide
  have hm : (mask i).toNat.testBit j = decide (j = i) := h ⟨i, hi⟩ ⟨j, hj⟩
  rw [and_mask _ hj, and_mask _ hj, UInt8.toNat_or, Nat.testBit_or, hm, Bool.or_comm]

theorem and_not_mask_and_mask (x : UInt8) {i j : ℕ} (hi : i < 8) (hj : j < 8) :
    ((x &&& ~~~mask i) &&& mask j != 0) = (!decide (j = i) && (x &&& mask j != 0)) := by
  have h : ∀ i j : Fin 8, (~~~mask i).toNat.testBit j = !decide ((j : ℕ) = i) := by decide
  have hm : (~~~mask i).toNat.testBit j = !decide (j = i) := h ⟨i, hi⟩ ⟨j, hj⟩
  rw [and_mask _ hj, and_mask _ hj, UInt8.toNat_and, Nat.testBit_and, hm, Bool.and_comm]

theorem bit_setBit (f : ℕ → UInt8) (k j : ℕ) :
    bit (setBit f k) j = (decide (j = k) || bit f j) := by
  by_cases hb : j / 8 = k / 8
  · have hk : (j % 8 = k % 8) ↔ j = k := by omega
    simp only [bit, setBit, hb, update_self]
    rw [or_mask_and_mask _ (Nat.mod_lt _ (by decide)) (Nat.mod_lt _ (by decide))]
    simp only [hk]
  · have hk : j ≠ k := fun h => hb (by rw [h])
    simp [bit, setBit, update_of_ne hb, hk]

theorem bit_clearBit (f : ℕ → UInt8) (k j : ℕ) :
    bit (clearBit f k) j = (!decide (j = k) && bit f j) := by
  by_cases hb : j / 8 = k / 8
  · have hk : (j % 8 = k % 8) ↔ j = k := by omega
    simp only [bit, clearBit, hb, update_self]
    rw [and_not_mask_and_mask _ (Nat.mod_lt _ (by decide)) (Nat.mod_lt _ (by decide))]
    simp only [hk]
  · have hk : j ≠ k := fun h => hb (by rw [h])
    simp [bit, clearBit, update_of_ne hb, hk]

end Xv6Container
