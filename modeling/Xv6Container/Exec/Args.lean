import Mathlib.Data.List.GetD
import Xv6Container.Data.Does
import Xv6Container.Exec.Basic
import Xv6Container.Mem.Grow

/-!
# The arguments on the stack

`exec` pushes the argument strings and then the array of pointers to them, each at a multiple of 16.
What they take on the stack is a sum (`blockSize`), and the block fits in the stack page exactly
when this sum is at most `PGSIZE`.

* `Patched` : what code that writes to a range of one page leaves alone;
* `pushStrings_spec`, `pushArgs_spec` : **the arguments are pushed exactly when they fit**, and
  nothing outside the stack page is written;
* `ArgBlock` : what a program finds at its stack pointer.
-/

namespace Xv6Container

open Function Phys

/-! ### Sizes -/

/-- `n` rounded up to a multiple of 16. -/
def up16 (n : ℕ) : ℕ := (n + 15) / 16 * 16

/-- The bytes that strings take on the stack, with their padding. -/
def stringsSize (args : List CharArray) : ℕ := (args.map fun arg => up16 (arg.length + 1)).sum

/-- The bytes that the argument block takes on the stack, with its padding: the strings and the
array of pointers, which ends with 0. -/
def blockSize (args : List CharArray) : ℕ := stringsSize args + up16 ((args.length + 1) * 8)

/-- Where the strings are, the first one below `sp`. -/
def argPtrs : ℕ → List CharArray → List ℕ
  | _, [] => []
  | sp, arg :: args => (sp - up16 (arg.length + 1)) :: argPtrs (sp - up16 (arg.length + 1)) args

theorem le_up16 (n : ℕ) : n ≤ up16 n := by
  unfold up16
  omega

theorem up16_mod (n : ℕ) : up16 n % 16 = 0 := by
  unfold up16
  omega

@[simp] theorem stringsSize_cons (arg : CharArray) (args : List CharArray) :
    stringsSize (arg :: args) = up16 (arg.length + 1) + stringsSize args := rfl

theorem stringsSize_mod (args : List CharArray) : stringsSize args % 16 = 0 := by
  induction args with
  | nil => rfl
  | cons arg args ih =>
    have := up16_mod (arg.length + 1)
    rw [stringsSize_cons]
    omega

variable {i sp : ℕ} {args : List CharArray}

theorem stringsSize_take_le (args : List CharArray) {j : ℕ} (h : i ≤ j) :
    stringsSize (args.take i) ≤ stringsSize (args.take j) := by
  induction args generalizing i j with
  | nil => simp
  | cons arg args ih =>
    cases i with
    | zero => exact Nat.zero_le _
    | succ i =>
      cases j with
      | zero => omega
      | succ j =>
        have := ih (i := i) (j := j) (by omega)
        simp only [List.take_succ_cons, stringsSize_cons]
        omega

theorem stringsSize_take_succ (args : List CharArray) (h : i < args.length) :
    stringsSize (args.take (i + 1)) =
      stringsSize (args.take i) + up16 ((args.getD i []).length + 1) := by
  induction args generalizing i with
  | nil => simp at h
  | cons arg args ih =>
    cases i with
    | zero => simp [stringsSize]
    | succ i =>
      rw [List.take_succ_cons, stringsSize_cons, ih (by simpa using h), List.take_succ_cons,
        stringsSize_cons, List.getD_cons_succ]
      omega

theorem argPtrs_getD (hi : i < args.length) :
    (argPtrs sp args).getD i 0 = sp - stringsSize (args.take (i + 1)) := by
  induction args generalizing sp i with
  | nil => simp at hi
  | cons arg args ih =>
    cases i with
    | zero => simp [argPtrs, stringsSize]
    | succ i =>
      rw [argPtrs, List.getD_cons_succ, ih (by simpa using hi), List.take_succ_cons,
        stringsSize_cons, Nat.sub_sub]

@[simp] theorem length_argPtrs (sp : ℕ) (args : List CharArray) :
    (argPtrs sp args).length = args.length := by
  induction args generalizing sp with
  | nil => rfl
  | cons arg args ih => simp [argPtrs, ih]

theorem sub64_eq {a b : ℕ} (h : b ≤ a) (ha : a < 2 ^ 64) : sub64 a b = a - b := by
  unfold sub64
  omega

theorem lowerSp_eq (len : ℕ) (h16 : sp % 16 = 0) (hlen : len ≤ sp) (hsp : sp < 2 ^ 64) :
    lowerSp sp len = sp - up16 len ∧ up16 len ≤ sp := by
  rw [lowerSp, sub64_eq hlen hsp]
  unfold up16
  omega

/-! ### Writing to one page -/

/-- From `m` to `m'`, bytes have been written to `[lo, hi)` of the page at `pa` only. -/
structure Patched (m m' : Ram) (pa lo hi : ℕ) : Prop where
  phys : m'.phys = m.phys
  other : ∀ t, t ≠ pa → m'.data t = m.data t
  out : ∀ j, j < lo ∨ hi ≤ j → m'.data pa j = m.data pa j

namespace Patched

variable {m m₁ m' : Ram} {pa lo hi : ℕ}

theorem refl (m : Ram) (pa lo hi : ℕ) : Patched m m pa lo hi :=
  ⟨rfl, fun _ _ => rfl, fun _ _ => rfl⟩

theorem trans (h : Patched m m₁ pa lo hi) (h' : Patched m₁ m' pa lo hi) : Patched m m' pa lo hi :=
  ⟨h'.phys.trans h.phys, fun t ht => (h'.other t ht).trans (h.other t ht),
    fun j hj => (h'.out j hj).trans (h.out j hj)⟩

theorem mono {lo' hi' : ℕ} (h : Patched m m' pa lo hi) (hlo : lo' ≤ lo) (hhi : hi ≤ hi') :
    Patched m m' pa lo' hi' := ⟨h.phys, h.other, fun j hj => h.out j (by omega)⟩

theorem store (m : Ram) (pa off : ℕ) (bytes : List UInt8) :
    Patched m (m.store pa off bytes) pa off (off + bytes.length) :=
  ⟨rfl, fun t ht => by simp [Ram.store, ht], fun j hj => by simp [Ram.store, blit_out hj]⟩

end Patched

/-- The bytes at offset `off` of the page at `pa`. -/
def BytesAt (m : Ram) (pa off : ℕ) (bytes : List UInt8) : Prop :=
  ∀ j < bytes.length, m.data pa (off + j) = bytes.getD j 0

theorem bytesAt_store (m : Ram) (pa off : ℕ) (bytes : List UInt8) :
    BytesAt (m.store pa off bytes) pa off bytes := fun j hj => by
  simp only [Ram.store, update_self]
  rw [blit_in (by omega) (by omega), Nat.add_sub_cancel_left]

theorem BytesAt.patched {m m' : Ram} {pa off lo hi : ℕ} {bytes : List UInt8}
    (h : BytesAt m pa off bytes) (hp : Patched m m' pa lo hi) (hhi : hi ≤ off) :
    BytesAt m' pa off bytes := fun j hj => by
  rw [hp.out _ (by omega), h j hj]

/-- The page at `base` of the page table `r` is the page `pa`, and user code can write to it. -/
structure OpenPage (m : Ram) (r base pa : ℕ) : Prop where
  aligned : base % PGSIZE = 0
  low : PGSIZE ≤ base
  high : base < MAXVA
  entry : ∃ perm : Perm, pteOf m.phys r base = some ⟨true, perm, pa⟩ ∧ perm.u = true
  ne_zero : pa ≠ 0

variable {m : Ram} {r base pa : ℕ}

theorem OpenPage.patched {m' : Ram} {lo hi : ℕ} (h : OpenPage m r base pa)
    (hp : Patched m m' pa lo hi) : OpenPage m' r base pa :=
  ⟨h.aligned, h.low, h.high, hp.phys ▸ h.entry, h.ne_zero⟩

theorem OpenPage.copyout (h : OpenPage m r base pa) (dst : ℕ) {src : List UInt8} (hsrc : src ≠ [])
    (hlo : base ≤ dst) (hhi : dst + src.length ≤ base + PGSIZE) :
    Returns (Ram.copyout r dst src) m true (m.store pa (dst - base) src) := by
  obtain ⟨perm, hpte, hu⟩ := h.entry
  have haligned := h.aligned
  have hlen := List.length_pos_iff.2 hsrc
  have hdown : pgrounddown dst = base := by
    simp only [pgrounddown, PGSIZE] at haligned hhi ⊢
    omega
  have hwalk := walkaddr_of_pte h.high hpte hu
  have hmin : min (PGSIZE - (dst - base)) src.length = src.length := by omega
  rw [Ram.copyout]
  cases hn : src.length with
  | zero => omega
  | succ n =>
    rw [Ram.copyoutLoop, if_neg (by omega)]
    rw [hdown]
    refine returns_bind.2 ⟨pa, m, Ram.returns_onPhys.2 ⟨m.phys, hwalk, rfl⟩, ?_⟩
    rw [if_neg h.ne_zero]
    refine returns_bind.2 ⟨⟨⟩, _, returns_modify.2 rfl, ?_⟩
    rw [hmin, List.take_length, List.drop_length]
    cases n with
    | zero => exact returns_pure.2 ⟨rfl, rfl⟩
    | succ n => exact returns_pure.2 ⟨rfl, rfl⟩

/-! ### Arguments of any length -/

/-- User code can use no page above the one at `base`. -/
def ClosedAbove (φ : Phys) (r base : ℕ) : Prop :=
  ∀ va, base + PGSIZE ≤ va → va < MAXVA → ∀ pte, pteOf φ r va = some pte → pte.perm.u = false

/-- `copyout` to the last page that user code can use, or above it, writes to this page only,
whatever the length. -/
theorem OpenPage.copyoutLoop_does {fuel dst : ℕ} {src : List UInt8} (h : OpenPage m r base pa)
    (hclosed : ClosedAbove m.phys r base) (hlo : base ≤ dst) :
    Does (Ram.copyoutLoop r fuel dst src) m (fun _ m' => Patched m m' pa 0 PGSIZE)
      fun _ => False := by
  induction fuel generalizing m dst src with
  | zero => exact .pure (.refl m pa 0 PGSIZE)
  | succ fuel ih =>
    have haligned := h.aligned
    have hdown : base ≤ pgrounddown dst ∧ pgrounddown dst ≤ dst ∧
        dst < pgrounddown dst + PGSIZE := by
      simp only [pgrounddown, PGSIZE] at haligned ⊢
      omega
    refine .ite (fun _ => .pure (.refl m pa 0 PGSIZE)) fun _ => .bind_returns
      (Ram.returns_onPhys.2 ⟨m.phys, returns_walkaddr m.phys r _, rfl⟩) (.ite (fun _ => .pure
        (.refl m pa 0 PGSIZE)) fun hne => ?_)
    -- the page is mapped for user code, so it is the one at `base`
    obtain ⟨hva, hpa⟩ : pgrounddown dst = base ∧ userPa m.phys r (pgrounddown dst) = pa := by
      obtain ⟨perm, hpte, hu⟩ := h.entry
      by_cases habove : base + PGSIZE ≤ pgrounddown dst
      · refine absurd ?_ hne
        unfold userPa
        split
        · rename_i hmax
          cases he : pteOf m.phys r (pgrounddown dst) with
          | none => rfl
          | some pte => simp [hclosed _ habove hmax pte he]
        · rfl
      · have hva : pgrounddown dst = base := by
          simp only [pgrounddown, PGSIZE] at haligned hdown habove ⊢
          omega
        exact ⟨hva, hva.symm ▸ userPa_of_pte h.high hpte hu⟩
    rw [hpa, hva]
    have hp := Patched.store m pa (dst - base) (src.take (min (PGSIZE - (dst - base)) src.length))
    have hp' : Patched m (m.store pa (dst - base)
        (src.take (min (PGSIZE - (dst - base)) src.length))) pa 0 PGSIZE := by
      refine hp.mono (Nat.zero_le _) ?_
      rw [List.length_take]
      omega
    refine .bind (Q := fun _ m' => m' = m.store pa (dst - base)
      (src.take (min (PGSIZE - (dst - base)) src.length))) (.modify rfl) fun _ m₁ hm1 => ?_
    subst hm1
    exact (ih (h.patched hp') hclosed (by omega)).mono (fun _ _ hp2 => hp'.trans hp2) fun _ hf => hf

theorem OpenPage.pushStrings_does {ustack : List ℕ}
    (h : OpenPage m r base pa) (hclosed : ClosedAbove m.phys r base) :
    Does (pushStrings r base args sp ustack) m (fun _ m' => Patched m m' pa 0 PGSIZE)
      fun _ => False := by
  induction args generalizing m sp ustack with
  | nil => exact .pure (.refl m pa 0 PGSIZE)
  | cons arg args ih =>
    refine .ite (fun _ => .pure (.refl m pa 0 PGSIZE)) fun _ => .ite (fun _ => .pure
      (.refl m pa 0 PGSIZE)) fun hsp => ?_
    refine (h.copyoutLoop_does hclosed (by omega)).bind fun ok m₁ hp => .ite (fun _ => ?_) fun _ =>
      .pure hp
    exact (ih (h.patched hp) (hp.phys ▸ hclosed)).mono (fun _ _ hp2 => hp.trans hp2) fun _ hf => hf

theorem OpenPage.pushArgs_does (h : OpenPage m r base pa) (args : List CharArray)
    (hclosed : ClosedAbove m.phys r base) :
    Does (pushArgs r (base + PGSIZE) args) m (fun _ m' => Patched m m' pa 0 PGSIZE)
      fun _ => False := by
  have hhigh := h.high
  have hbase : sub64 (base + PGSIZE) PGSIZE = base := by
    rw [sub64_eq (by omega) (by simp only [MAXVA, PGSIZE] at hhigh ⊢; omega), Nat.add_sub_cancel]
  unfold pushArgs
  simp only [hbase]
  refine (h.pushStrings_does hclosed).bind fun x m₁ hp => ?_
  rcases x with _ | ⟨sp, ustack⟩
  · exact .pure hp
  · refine .ite (fun _ => .pure hp) fun hsp => ?_
    refine ((h.patched hp).copyoutLoop_does (hp.phys ▸ hclosed) (by omega)).bind fun ok m₂ hp2 =>
      .ite (fun _ => .pure (hp.trans hp2)) fun _ => .pure (hp.trans hp2)

/-! ### Pushing -/

/-- **The strings are pushed when they fit.**  Otherwise `exec` stops before it writes below the
stack page. -/
theorem pushStrings_spec (sp : ℕ) (ustack : List ℕ)
    (h : OpenPage m r base pa) (hlen : ∀ arg ∈ args, arg.length < PGSIZE)
    (hcount : ustack.length + args.length ≤ MAXARG) (h16 : sp % 16 = 0) (hlo : base ≤ sp)
    (hhi : sp ≤ base + PGSIZE) :
    (base + stringsSize args ≤ sp → ∃ m',
      Returns (pushStrings r base args sp ustack) m
        (some (sp - stringsSize args, ustack ++ argPtrs sp args)) m' ∧
      Patched m m' pa (sp - stringsSize args - base) (sp - base) ∧
      ∀ i < args.length, BytesAt m' pa (sp - stringsSize (args.take (i + 1)) - base)
        (args.getD i [] ++ [0])) ∧
    (¬ base + stringsSize args ≤ sp → ∃ m',
      Returns (pushStrings r base args sp ustack) m none m' ∧ Patched m m' pa 0 PGSIZE) := by
  induction args generalizing m sp ustack with
  | nil =>
    refine ⟨fun _ => ⟨m, ?_, .refl _ _ _ _, nofun⟩, fun hno => absurd hlo hno⟩
    simp [pushStrings, argPtrs, stringsSize]
  | cons arg args ih =>
    have harg := hlen arg List.mem_cons_self
    have hlow := h.low
    have hhigh := h.high
    simp only [List.length_cons] at hcount
    obtain ⟨hlower, hle⟩ := lowerSp_eq (arg.length + 1) h16 (by omega) (by
      simp only [MAXVA, PGSIZE] at hhigh hhi ⊢
      omega)
    have hup := le_up16 (arg.length + 1)
    have hmod := up16_mod (arg.length + 1)
    rw [stringsSize_cons, pushStrings, if_neg (by omega)]
    simp only [hlower]
    by_cases hfit : base + up16 (arg.length + 1) ≤ sp
    · -- the string goes to the stack, and the others below it
      set p := sp - up16 (arg.length + 1) with hp
      have hout := h.copyout p (List.append_ne_nil_of_right_ne_nil arg (List.cons_ne_nil 0 []))
        (by omega) (by simp; omega)
      have hpatch := Patched.store m pa (p - base) (arg ++ [0])
      rw [List.length_append, List.length_singleton] at hpatch
      have hpatch' : Patched m (m.store pa (p - base) (arg ++ [0])) pa 0 PGSIZE :=
        hpatch.mono (by omega) (by omega)
      obtain ⟨hyes, hno⟩ := ih p (ustack ++ [p]) (h.patched hpatch)
        (fun x hx => hlen x (List.mem_cons_of_mem _ hx)) (by simp; omega) (by omega) (by omega)
        (by omega)
      rw [if_neg (by omega)]
      simp only [hout.bind_iff, if_true]
      refine ⟨fun hfits => ?_, fun hfits => ?_⟩
      · obtain ⟨m', hr, hpm, hstr⟩ := hyes (by omega)
        refine ⟨m', ?_, (hpatch.mono (by omega) (by omega)).trans (hpm.mono (by omega) (by omega)),
          fun i hi => ?_⟩
        · rw [show sp - (up16 (arg.length + 1) + stringsSize args) = p - stringsSize args by omega]
          simpa [argPtrs, ← hp] using hr
        · cases i with
          | zero =>
            simpa [stringsSize, ← hp] using
              (bytesAt_store m pa (p - base) (arg ++ [0])).patched hpm le_rfl
          | succ i =>
            have := hstr i (by simpa using hi)
            rwa [List.take_succ_cons, stringsSize_cons, ← Nat.sub_sub, ← hp, List.getD_cons_succ]
      · obtain ⟨m', hr, hpm⟩ := hno (by omega)
        exact ⟨m', hr, hpatch'.trans hpm⟩
    · rw [if_pos (by omega)]
      exact ⟨fun hfits => by omega, fun _ => ⟨m, returns_pure.2 ⟨rfl, rfl⟩, .refl _ _ _ _⟩⟩

@[simp] theorem length_word64 (v : ℕ) : (word64 v).length = 8 := by simp [word64]

theorem length_words (l : List ℕ) : (l.flatMap word64).length = l.length * 8 := by
  induction l with
  | nil => rfl
  | cons v l ih =>
    rw [List.flatMap_cons, List.length_append, length_word64, ih, List.length_cons]
    omega

theorem getD_words {l : List ℕ} {b : ℕ} (hb : b < 8) (hi : i < l.length) :
    (l.flatMap word64).getD (8 * i + b) 0 = UInt8.ofNat (l.getD i 0 / 256 ^ b) := by
  induction l generalizing i with
  | nil => simp at hi
  | cons v l ih =>
    rw [List.flatMap_cons]
    cases i with
    | zero =>
      rw [List.getD_append _ _ _ _ (by simpa using hb)]
      simp [word64, List.getD, hb]
    | succ i =>
      rw [List.getD_append_right _ _ _ _ (by simp; omega), length_word64,
        show 8 * (i + 1) + b - 8 = 8 * i + b by omega, ih (by simpa using hi)]
      rfl

/-- **The arguments are pushed exactly when the block fits in the stack page.** -/
theorem pushArgs_spec (h : OpenPage m r base pa)
    (hlen : ∀ arg ∈ args, arg.length < PGSIZE) (hcount : args.length < MAXARG) :
    (blockSize args ≤ PGSIZE → ∃ m',
      Returns (pushArgs r (base + PGSIZE) args) m (some (base + PGSIZE - blockSize args)) m' ∧
      Patched m m' pa 0 PGSIZE ∧
      (∀ i < args.length, BytesAt m' pa (PGSIZE - stringsSize (args.take (i + 1)))
        (args.getD i [] ++ [0])) ∧
      BytesAt m' pa (PGSIZE - blockSize args)
        ((argPtrs (base + PGSIZE) args ++ [0]).flatMap word64)) ∧
    (¬ blockSize args ≤ PGSIZE → ∃ m',
      Returns (pushArgs r (base + PGSIZE) args) m none m' ∧ Patched m m' pa 0 PGSIZE) := by
  have haligned := h.aligned
  have hhigh := h.high
  have hbase : sub64 (base + PGSIZE) PGSIZE = base := by
    rw [sub64_eq (by omega) (by simp only [MAXVA, PGSIZE] at hhigh ⊢; omega), Nat.add_sub_cancel]
  obtain ⟨hyes, hno⟩ := pushStrings_spec (base + PGSIZE) [] h hlen
    (by simp only [List.length_nil]; omega)
    (by simp only [PGSIZE] at haligned ⊢; omega) (by omega) le_rfl
  have hup := le_up16 ((args.length + 1) * 8)
  have hmod := stringsSize_mod args
  simp only [pushArgs, hbase, blockSize]
  by_cases hfit : stringsSize args ≤ PGSIZE
  · obtain ⟨m₁, hr, hp1, hstr⟩ := hyes (by omega)
    set sp := base + PGSIZE - stringsSize args with hsp
    have hsp16 : sp % 16 = 0 := by
      simp only [PGSIZE] at haligned hsp
      omega
    have hlow := h.low
    obtain ⟨hlower, hle⟩ := lowerSp_eq ((args.length + 1) * 8) hsp16
      (by simp only [MAXARG] at hcount; simp only [PGSIZE] at hlow hsp; omega)
      (by simp only [MAXVA, PGSIZE] at hhigh hsp ⊢; omega)
    simp only [hr.bind_iff, List.nil_append, length_argPtrs, hlower]
    by_cases hfits : stringsSize args + up16 ((args.length + 1) * 8) ≤ PGSIZE
    · -- the array of pointers is pushed
      have hne : (argPtrs (base + PGSIZE) args ++ [0]).flatMap word64 ≠ [] :=
        List.length_pos_iff.1 (by rw [length_words]; simp)
      have hout := (h.patched hp1).copyout (sp - up16 ((args.length + 1) * 8)) hne
        (by omega) (by rw [length_words]; simp; omega)
      have hp2 := Patched.store m₁ pa (sp - up16 ((args.length + 1) * 8) - base)
        ((argPtrs (base + PGSIZE) args ++ [0]).flatMap word64)
      have hbytes := bytesAt_store m₁ pa (sp - up16 ((args.length + 1) * 8) - base)
        ((argPtrs (base + PGSIZE) args ++ [0]).flatMap word64)
      rw [length_words, List.length_append, length_argPtrs, List.length_singleton] at hp2
      rw [if_neg (by omega)]
      simp only [hout.bind_iff, if_true]
      refine ⟨fun _ => ⟨_, ?_, (hp1.mono (by omega) (by omega)).trans
        (hp2.mono (by omega) (by omega)), fun i hi => ?_, ?_⟩, fun hn => absurd hfits hn⟩
      · rw [show base + PGSIZE - (stringsSize args + up16 ((args.length + 1) * 8)) =
          sp - up16 ((args.length + 1) * 8) by omega]
        exact returns_pure.2 ⟨rfl, rfl⟩
      · -- the array lies below the strings
        have hle' := stringsSize_take_le args (i := i + 1) (j := args.length) hi
        rw [List.take_length] at hle'
        have := (hstr i hi).patched hp2 (by omega)
        rwa [show base + PGSIZE - stringsSize (args.take (i + 1)) - base =
          PGSIZE - stringsSize (args.take (i + 1)) by omega] at this
      · rwa [show PGSIZE - (stringsSize args + up16 ((args.length + 1) * 8)) =
          sp - up16 ((args.length + 1) * 8) - base by omega]
    · rw [if_pos (by omega)]
      exact ⟨fun hn => absurd hn hfits, fun _ => ⟨m₁, returns_pure.2 ⟨rfl, rfl⟩,
        hp1.mono (by omega) (by omega)⟩⟩
  · obtain ⟨m', hr, hp⟩ := hno (by omega)
    simp only [hr.bind_iff]
    exact ⟨fun hn => absurd hn (by omega), fun _ => ⟨m', returns_pure.2 ⟨rfl, rfl⟩, hp⟩⟩

/-! ### Reading the arguments back -/

/-- The argument block at the stack pointer `sp` of a program of size `sz` with memory `mem`: an
array of pointers that ends with 0, and the strings that they point to, all apart from each other
and in the stack page. -/
structure ArgBlock (mem : ℕ → UInt8) (sz sp : ℕ) (args : List CharArray) (ptr : ℕ → ℕ) : Prop where
  aligned : sp % 16 = 0
  base : sz - PGSIZE ≤ sp
  pointer : ∀ i < args.length, getLE 8 mem (sp + 8 * i) = ptr i
  null : getLE 8 mem (sp + 8 * args.length) = 0
  string : ∀ i < args.length, ∀ j ≤ (args.getD i []).length,
    mem (ptr i + j) = (args.getD i [] ++ [0]).getD j 0
  array : ∀ i < args.length, sp + 8 * (args.length + 1) ≤ ptr i
  below : sp + 8 * (args.length + 1) ≤ sz ∧
    ∀ i < args.length, ptr i + (args.getD i []).length + 1 ≤ sz
  apart : ∀ i j, i < j → j < args.length → ptr j + (args.getD j []).length + 1 ≤ ptr i

/-- What `pushArgs` leaves on the stack page is the argument block. -/
theorem argBlock_of_bytes {mem : ℕ → UInt8} (h : OpenPage m r base pa)
    (hmem : ∀ j < PGSIZE, mem (base + j) = m.data pa j) (hfit : blockSize args ≤ PGSIZE)
    (hstr : ∀ i < args.length, BytesAt m pa (PGSIZE - stringsSize (args.take (i + 1)))
      (args.getD i [] ++ [0]))
    (hptr : BytesAt m pa (PGSIZE - blockSize args)
      ((argPtrs (base + PGSIZE) args ++ [0]).flatMap word64)) :
    ArgBlock mem (base + PGSIZE) (base + PGSIZE - blockSize args) args
      fun i => base + PGSIZE - stringsSize (args.take (i + 1)) := by
  have haligned := h.aligned
  have hhigh := h.high
  have hmod1 := stringsSize_mod args
  have hmod2 := up16_mod ((args.length + 1) * 8)
  have hup := le_up16 ((args.length + 1) * 8)
  have htake : ∀ i < args.length, stringsSize (args.take (i + 1)) ≤ stringsSize args := by
    intro i hi
    have := stringsSize_take_le args (i := i + 1) (j := args.length) hi
    rwa [List.take_length] at this
  have hlen : ((argPtrs (base + PGSIZE) args ++ [0]).flatMap word64).length =
      (args.length + 1) * 8 := by
    rw [length_words]
    simp
  unfold blockSize at *
  -- a word of the array of pointers
  have hword : ∀ i ≤ args.length, ∀ v, v < 256 ^ 8 →
      (argPtrs (base + PGSIZE) args ++ [0]).getD i 0 = v →
      getLE 8 mem
        (base + PGSIZE - (stringsSize args + up16 ((args.length + 1) * 8)) + 8 * i) = v := by
    intro i hi v hv hget
    rw [← Nat.mod_eq_of_lt hv]
    refine getLE_digits 8 mem _ v fun b hb => ?_
    rw [show base + PGSIZE - (stringsSize args + up16 ((args.length + 1) * 8)) + 8 * i + b =
      base + (PGSIZE - (stringsSize args + up16 ((args.length + 1) * 8)) + (8 * i + b)) by omega,
      hmem _ (by omega), hptr _ (by omega), getD_words hb (by simp; omega), hget]
  refine ⟨?_, by omega, fun i hi => ?_, ?_, fun i hi j hj => ?_, fun i hi => ?_,
    ⟨by omega, fun i hi => ?_⟩, fun i j hij hj => ?_⟩
  · simp only [PGSIZE] at haligned hfit ⊢
    omega
  · refine hword i (by omega) _ ?_ ?_
    · simp only [MAXVA, PGSIZE] at hhigh ⊢
      omega
    · rw [List.getD_append _ _ _ _ (by simpa using hi), argPtrs_getD hi]
  · refine hword args.length le_rfl 0 (by decide) ?_
    rw [List.getD_append_right _ _ _ _ (by simp)]
    simp
  · have := htake i hi
    have hlast := stringsSize_take_succ args hi
    have hup' := le_up16 ((args.getD i []).length + 1)
    rw [show base + PGSIZE - stringsSize (args.take (i + 1)) + j =
      base + (PGSIZE - stringsSize (args.take (i + 1)) + j) by omega, hmem _ (by omega),
      hstr i hi j (by rw [List.length_append, List.length_singleton]; omega)]
  · have := htake i hi
    omega
  · have := htake i hi
    have hlast := stringsSize_take_succ args hi
    have hup' := le_up16 ((args.getD i []).length + 1)
    omega
  · have h1 := htake j hj
    have h2 := stringsSize_take_le args (i := i + 1) (j := j) hij
    have hlast := stringsSize_take_succ args hj
    have hup' := le_up16 ((args.getD j []).length + 1)
    omega

end Xv6Container
