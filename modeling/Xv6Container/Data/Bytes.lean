import Mathlib.Tactic.Ring

/-!
# Little-endian fields in byte buffers

A buffer is a function from byte offsets to bytes.  A C structure laid out in a buffer is read
and written field by field:

* `blit dst o len src` copies `len` entries of `src` to offset `o` of `dst` (`memmove`),
* `getLE w f o` reads the `w`-byte little-endian number at offset `o`,
* `setLE w f o v` stores the low `w` bytes of `v` there.

`getLE_setLE` is the round trip, and `getLE_blit_of_disjoint` with its instance
`getLE_setLE_of_disjoint` the frame rule: a field keeps its value when the bytes written do not
meet it.
-/

namespace Xv6Container

/-- Copy `len` entries of `src` to offset `o` of `dst`. -/
def blit {α : Type*} (dst : ℕ → α) (o len : ℕ) (src : ℕ → α) : ℕ → α :=
  fun i => if o ≤ i ∧ i < o + len then src (i - o) else dst i

variable {o len w : ℕ} {f : ℕ → UInt8}

theorem blit_in {α : Type*} {dst src : ℕ → α} {i : ℕ} (h : o ≤ i) (h' : i < o + len) :
    blit dst o len src i = src (i - o) := by
  simp [blit, h, h']

theorem blit_out {α : Type*} {dst src : ℕ → α} {i : ℕ} (h : i < o ∨ o + len ≤ i) :
    blit dst o len src i = dst i := by
  simp only [blit]
  split_ifs with hi
  · omega
  · rfl

/-- The `w`-byte little-endian number at offset `o`. -/
def getLE : ℕ → (ℕ → UInt8) → ℕ → ℕ
  | 0, _, _ => 0
  | w + 1, f, o => (f o).toNat + 256 * getLE w f (o + 1)

/-- Store the low `w` bytes of `v` at offset `o`, least significant first. -/
def setLE (w : ℕ) (f : ℕ → UInt8) (o v : ℕ) : ℕ → UInt8 :=
  blit f o w fun i => UInt8.ofNat (v / 256 ^ i)

theorem getLE_lt (w : ℕ) (f : ℕ → UInt8) (o : ℕ) : getLE w f o < 256 ^ w := by
  induction w generalizing o with
  | zero => simp [getLE]
  | succ w ih =>
    have h1 := ih (o + 1)
    have h2 : (f o).toNat < 256 := (f o).toNat_lt
    simp only [getLE, Nat.pow_succ]
    omega

theorem getLE_congr {g : ℕ → UInt8}
    (h : ∀ i, o ≤ i → i < o + w → f i = g i) : getLE w f o = getLE w g o := by
  induction w generalizing o with
  | zero => rfl
  | succ w ih =>
    simp only [getLE]
    rw [h o (Nat.le_refl _) (by omega), ih fun i hi hi' => h i (by omega) (by omega)]

theorem getLE_blit_of_disjoint {src : ℕ → UInt8} {o' : ℕ}
    (h : o + w ≤ o' ∨ o' + len ≤ o) : getLE w (blit f o' len src) o = getLE w f o :=
  getLE_congr fun _ hi hi' => blit_out (by omega)

theorem getLE_setLE_of_disjoint {w' : ℕ} {o' v : ℕ}
    (h : o + w ≤ o' ∨ o' + w' ≤ o) : getLE w (setLE w' f o' v) o = getLE w f o :=
  getLE_blit_of_disjoint h

theorem getLE_digits (w : ℕ) (f : ℕ → UInt8) (o v : ℕ)
    (h : ∀ i, i < w → f (o + i) = UInt8.ofNat (v / 256 ^ i)) :
    getLE w f o = v % 256 ^ w := by
  induction w generalizing o v with
  | zero => simp [getLE, Nat.mod_one]
  | succ w ih =>
    have h0 : f o = UInt8.ofNat v := by simpa using h 0 (Nat.succ_pos w)
    have ht : getLE w f (o + 1) = v / 256 % 256 ^ w := by
      refine ih (o + 1) (v / 256) fun i hi => ?_
      rw [Nat.add_assoc, Nat.add_comm 1 i, h (i + 1) (by omega), Nat.pow_succ',
        Nat.div_div_eq_div_mul]
    rw [getLE, ht, h0, Nat.pow_succ', Nat.mod_mul]
    simp

theorem getLE_setLE (w : ℕ) (f : ℕ → UInt8) (o v : ℕ) :
    getLE w (setLE w f o v) o = v % 256 ^ w := by
  refine getLE_digits w _ o v fun i hi => ?_
  rw [setLE, blit_in (by omega) (by omega), Nat.add_sub_cancel_left]

theorem getLE_setLE_of_lt {v : ℕ} (h : v < 256 ^ w) :
    getLE w (setLE w f o v) o = v := by
  rw [getLE_setLE, Nat.mod_eq_of_lt h]

end Xv6Container
