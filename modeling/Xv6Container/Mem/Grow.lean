import Xv6Container.Mem.Entry
import Xv6Container.Mem.Ram

/-!
# An address space that is being built

`exec` builds an address space from nothing: `uvmalloc` adds user pages at its end, and the program
and its arguments are copied to them.

* `Phys.footprint k` : the physical pages that `k` user pages take, tables included;
* `Owners.Dense` : the tables of an address space are those of its user pages;
* `Built o a r m k f` : the address space `a` with root `r` has `k` user pages, which hold the bytes
  `f`;
* `Built.uvmalloc` : **`uvmalloc` adds pages of zeros exactly when there are as many pages as the
  footprint grows by**, and otherwise takes back what it has added.
-/

namespace Xv6Container

open Function Books Phys

namespace Phys

variable {φ : Phys} {r t va k n : ℕ} {perm : Perm} {pa : ℕ}

/-- The physical pages that `k` user pages take: the pages, a lowest table for every 512 of them,
and a table above for every 512 of those. -/
def footprint (k : ℕ) : ℕ := k + (k + 511) / 512 + (k + (2 ^ 18 - 1)) / 2 ^ 18

theorem footprint_mono (h : k ≤ n) : footprint k ≤ footprint n := by
  unfold footprint
  omega

theorem px_page (level va : ℕ) : px level (va / PGSIZE * PGSIZE) = px level va := by
  have h : va / PGSIZE * PGSIZE / 2 ^ 12 = va / 2 ^ 12 := by
    simp only [PGSIZE]
    omega
  unfold px
  rw [Nat.shiftRight_eq_div_pow, Nat.shiftRight_eq_div_pow, pow_add, ← Nat.div_div_eq_div_mul,
    ← Nat.div_div_eq_div_mul, h]

theorem px_user (hk : k < 255 * 2 ^ 18) : (px 2 (k * PGSIZE)).val = k / 2 ^ 18 ∧
    512 * (px 2 (k * PGSIZE)).val + (px 1 (k * PGSIZE)).val = k / 512 := by
  rw [px_mul, px_mul]
  have h : k / 2 ^ 18 = k / 512 / 512 := (Nat.div_div_eq_div_mul k 512 512).symm
  omega

theorem vpath_page (va : ℕ) : vpath (va / PGSIZE * PGSIZE) = vpath va := by
  simp only [vpath, px_page]

theorem pteOf_page (φ : Phys) (r va : ℕ) : pteOf φ r (va / PGSIZE * PGSIZE) = pteOf φ r va := by
  simp only [pteOf, px_page]

theorem vpath_ne_upath (hk : k < userTop) (hva : TRAPFRAME ≤ va) (hmax : va < MAXVA) :
    vpath va ≠ upath k := by
  intro h
  have htop : userTop = 2 ^ 26 - 2 := rfl
  rw [← vpath_page] at h
  simp only [TRAPFRAME, TRAMPOLINE, MAXVA, PGSIZE] at hva hmax
  have := upath_injective (v := va / PGSIZE) (w := k) (by simp only [PGSIZE]; omega) (by omega) h
  simp only [PGSIZE] at this
  omega

/-- The page of an address that user code can use, or 0. -/
def userPa (φ : Phys) (r va : ℕ) : ℕ :=
  if va < MAXVA then (pteOf φ r va).elim 0 fun pte => if pte.perm.u then pte.pa else 0 else 0

theorem returns_walkaddr (φ : Phys) (r va : ℕ) : Returns (walkaddr r va) φ (userPa φ r va) φ := by
  unfold walkaddr userPa
  by_cases hva : va < MAXVA
  · rw [if_neg (by omega), if_pos hva, (returns_walk_false hva).bind_iff, pteOf]
    cases descend (next φ.mem) r [px 2 va, px 1 va] with
    | none => exact returns_pure.2 ⟨rfl, rfl⟩
    | some t =>
      simp only [Option.map_some, returns_get_bind, Option.bind_some]
      by_cases hv : (φ.mem t (px 0 va)).v = true
      · by_cases hu : (φ.mem t (px 0 va)).perm.u = true
        · simp [hv, hu]
        · simp [hv, hu]
      · simp [hv]
  · rw [if_pos (by omega), if_neg hva]
    exact returns_pure.2 ⟨rfl, rfl⟩

theorem userPa_of_pte (hva : va < MAXVA) (h : pteOf φ r va = some ⟨true, perm, pa⟩)
    (hu : perm.u = true) : userPa φ r va = pa := by
  simp [userPa, hva, h, hu]

theorem walkaddr_of_pte (hva : va < MAXVA) (h : pteOf φ r va = some ⟨true, perm, pa⟩)
    (hu : perm.u = true) : Returns (walkaddr r va) φ pa φ :=
  userPa_of_pte hva h hu ▸ returns_walkaddr φ r va

end Phys

namespace Owners

variable {A B : Type} {o : Owners A B} {φ φ' : Phys} {a : A} {r k : ℕ}

/-- Below the tables for the trampoline, the tables of the address space `a` are those that its user
pages, which are those below `k`, need. -/
def Dense (o : Owners A B) (φ : Phys) (a : A) (k : ℕ) : Prop :=
  ∀ i : Fin 512, i.val < 255 →
    ((o.held φ (.page a [i])).isSome = true ↔ i.val * 2 ^ 18 < k) ∧
    ∀ j : Fin 512, ((o.held φ (.page a [i, j])).isSome = true ↔ i.val * 2 ^ 18 + j.val * 512 < k)

theorem held_of_prefix {π ρ : List (Fin 512)} {t : ℕ} (h : o.held φ (.page a ρ) = some t)
    (hπ : π <+: ρ) : (o.held φ (.page a π)).isSome = true := by
  obtain ⟨σ, rfl⟩ := hπ
  cases σ with
  | nil =>
    rw [List.append_nil] at h
    rw [h]
    rfl
  | cons i σ =>
    have hin : (π ++ i :: σ).length ≤ 3 ∧ ¬ Fixed (π ++ i :: σ) := by
      by_contra hout
      rw [held, if_neg hout] at h
      cases h
    rw [held, if_pos hin] at h
    obtain ⟨r, hr, hd⟩ := Option.bind_eq_some_iff.1 h
    rw [descend_append] at hd
    obtain ⟨t', ht', -⟩ := Option.bind_eq_some_iff.1 hd
    have hlen := hin.1
    rw [List.length_append, List.length_cons] at hlen
    rw [held_page (by omega), hr, Option.bind_some, ht']
    rfl

theorem missing_held (hr : o.root a = some r) (va : ℕ) : missing φ r va =
    if (o.held φ (.page a [px 2 va])).isSome then
      if (o.held φ (.page a [px 2 va, px 1 va])).isSome then 0 else 1
    else 2 := by
  rw [held_page (by simp), held_page (by simp), hr, Option.bind_some, Option.bind_some,
    descend_cons, descend_cons, missing, missingFrom, next]
  by_cases h2 : (φ.mem r (px 2 va)).v = true
  · simp only [h2, if_true, Option.bind_some, descend_nil, Option.isSome_some, descend_cons, next,
      missingFrom]
    by_cases h1 : (φ.mem (φ.mem r (px 2 va)).pa (px 1 va)).v = true
    · simp [h1]
    · simp [h1]
  · simp [h2]

theorem Dense.footprint_succ (hd : o.Dense φ a k) (hr : o.root a = some r) (hk : k < 255 * 2 ^ 18) :
    footprint (k + 1) = footprint k + (1 + missing φ r (k * PGSIZE)) := by
  obtain ⟨h2, h1⟩ := px_user hk
  obtain ⟨htop, hlow⟩ := hd (px 2 (k * PGSIZE)) (by omega)
  have hlow := hlow (px 1 (k * PGSIZE))
  rw [missing_held hr]
  simp only [htop, hlow, footprint]
  split_ifs <;> omega

theorem Dense.succ (hd : o.Dense φ a k) (hk : k < 255 * 2 ^ 18)
    (hpath : ∀ π, π <+: upath k → (o.held φ' (.page a π)).isSome = true)
    (hoff : ∀ π, ¬ π <+: upath k → o.held φ' (.page a π) = o.held φ (.page a π)) :
    o.Dense φ' a (k + 1) := by
  obtain ⟨h2, h1⟩ := px_user hk
  refine fun i hi => ⟨?_, fun j => ?_⟩
  · by_cases hpre : [i] <+: upath k
    · rw [hpath _ hpre]
      obtain rfl : i = px 2 (k * PGSIZE) := by simpa [upath, vpath] using hpre
      simp only [true_iff]
      omega
    · rw [hoff _ hpre, (hd i hi).1]
      have hne : i.val ≠ (px 2 (k * PGSIZE)).val := fun e => hpre (by
        simp [upath, vpath, Fin.ext e])
      omega
  · by_cases hpre : [i, j] <+: upath k
    · rw [hpath _ hpre]
      obtain ⟨rfl, rfl⟩ : i = px 2 (k * PGSIZE) ∧ j = px 1 (k * PGSIZE) := by
        simpa [upath, vpath] using hpre
      simp only [true_iff]
      omega
    · rw [hoff _ hpre, (hd i hi).2 j]
      have hne : ¬ (i.val = (px 2 (k * PGSIZE)).val ∧ j.val = (px 1 (k * PGSIZE)).val) := fun e =>
        hpre (by simp [upath, vpath, Fin.ext e.1, Fin.ext e.2])
      omega

end Owners

/-! ### User pages and their bytes -/

/-- The permissions of the pages that `uvmalloc` adds. -/
def Perm.all : Perm := ⟨true, true, true, true⟩

theorem Perm.leaf_all : Perm.all.leaf = true := rfl

/-- User code cannot use the pages at the top of the address space with root `r`. -/
def Phys.TopClosed (φ : Phys) (r : ℕ) : Prop :=
  ∀ va pte, TRAPFRAME ≤ va → va < MAXVA → pteOf φ r va = some pte → pte.perm.u = false

/-- The address space `a` with root `r` has the user pages below `k`, all open to user code, and
they hold the bytes `f`; beyond them `f` is 0. -/
structure Built {A B : Type} (o : Owners A B) (a : A) (r : ℕ) (m : Ram) (k : ℕ) (f : ℕ → UInt8) :
    Prop where
  inv : o.Inv m.phys
  root : o.root a = some r
  hand : o.hand = none
  mapped : o.Mapped m.phys a k
  dense : o.Dense m.phys a k
  page : ∀ v < k, ∃ pa, pteOf m.phys r (v * PGSIZE) = some ⟨true, .all, pa⟩ ∧
    ∀ j < PGSIZE, m.data pa j = f (v * PGSIZE + j)
  zero : ∀ va, k * PGSIZE ≤ va → f va = 0
  top : m.phys.TopClosed r

namespace Built

variable {A B : Type} {o : Owners A B} {a : A} {r k k₀ n v pa off : ℕ} {m : Ram} {f : ℕ → UInt8}

section

variable (hB : Built o a r m k f)

include hB

theorem le : k ≤ PHYSTOP / PGSIZE := hB.mapped.le hB.inv

theorem lt_userTop : k < userTop := hB.mapped.lt_userTop hB.inv

theorem held (hv : v < k) (h : pteOf m.phys r (v * PGSIZE) = some ⟨true, .all, pa⟩) :
    o.held m.phys (.page a (upath v)) = some pa := by
  rw [Owners.held_upath hB.root (by have := hB.lt_userTop; omega), h]
  rfl

theorem inj {w pa' : ℕ} (hv : v < k) (hw : w < k)
    (hpa : pteOf m.phys r (v * PGSIZE) = some ⟨true, .all, pa⟩)
    (hpa' : pteOf m.phys r (w * PGSIZE) = some ⟨true, .all, pa'⟩) (h : pa = pa') : v = w := by
  have hp := PagePlace.page.inj (hB.inv.inj (hB.held hv hpa) (h ▸ hB.held hw hpa'))
  have htop : userTop = 2 ^ 26 - 2 := rfl
  have := hB.lt_userTop
  exact upath_injective (by omega) (by omega) hp.2

theorem walkaddr (hv : v < k) : ∃ pa,
    pteOf m.phys r (v * PGSIZE) = some ⟨true, .all, pa⟩ ∧
      ∀ j < PGSIZE, Returns (Phys.walkaddr r (v * PGSIZE + j)) m.phys pa m.phys := by
  obtain ⟨pa, hpte, -⟩ := hB.page v hv
  refine ⟨pa, hpte, fun j hj => ?_⟩
  have htop : userTop = 2 ^ 26 - 2 := rfl
  have := hB.lt_userTop
  have hpage : (v * PGSIZE + j) / PGSIZE = v := by
    simp only [PGSIZE] at hj ⊢
    omega
  have hpte' : pteOf m.phys r (v * PGSIZE + j) = some ⟨true, .all, pa⟩ := by
    rw [← pteOf_page, hpage, hpte]
  refine walkaddr_of_pte ?_ hpte' rfl
  simp only [PGSIZE, MAXVA] at hj ⊢
  omega

theorem store (off : ℕ) (bytes : List UInt8) (hv : v < k)
    (hpa : pteOf m.phys r (v * PGSIZE) = some ⟨true, .all, pa⟩)
    (hlen : off + bytes.length ≤ PGSIZE) : Built o a r (m.store pa off bytes) k
      (blit f (v * PGSIZE + off) bytes.length fun j => bytes.getD j 0) := by
  refine ⟨hB.inv, hB.root, hB.hand, hB.mapped, hB.dense, fun w hw => ?_, fun va hva => ?_, hB.top⟩
  · obtain ⟨pa', hpa', hdata⟩ := hB.page w hw
    refine ⟨pa', hpa', fun j hj => ?_⟩
    by_cases hwv : w = v
    · subst hwv
      obtain rfl : pa' = pa := by
        have := hpa'.symm.trans hpa
        simpa using this
      simp only [Ram.store, update_self, blit, Nat.add_le_add_iff_left]
      rw [show w * PGSIZE + j - (w * PGSIZE + off) = j - off by omega]
      by_cases hin : off ≤ j ∧ j < off + bytes.length
      · rw [if_pos hin, if_pos (by omega)]
      · rw [if_neg hin, if_neg (by omega), hdata j hj]
    · have hne : pa' ≠ pa := fun e => hwv (hB.inj hw hv hpa' hpa e)
      simp only [Ram.store, update_of_ne hne, hdata j hj]
      rw [blit_out]
      simp only [PGSIZE] at hj hlen ⊢
      omega
  · rw [blit_out, hB.zero va hva]
    simp only [PGSIZE] at hva hlen ⊢
    omega

end

variable [DecidableEq A] [DecidableEq B]

/-! ### Adding pages -/

/-- A turn of the loop of `uvmalloc` adds a page of zeros. -/
theorem turn_avail (hB : Built o a r m k f)
    (hav : m.phys.Avail (footprint (k + 1) - footprint k)) :
    ∃ pa φ₁ m', Returns kalloc m.phys (some pa) φ₁ ∧
      Returns (mappages r (k * PGSIZE) PGSIZE pa .all) (φ₁.memset pa 0) true m'.phys ∧
      m'.data = update m.data pa (fun _ => 0) ∧ Built o a r m' (k + 1) f ∧
      Steps (Owners.space a) (o.books m.phys) (o.books m'.phys) ∧
      Used m.phys m'.phys (footprint (k + 1) - footprint k) := by
  have hk : k < 255 * 2 ^ 18 := lt_of_le_of_lt hB.le (by decide)
  rw [hB.dense.footprint_succ hB.root hk, Nat.add_sub_cancel_left] at hav ⊢
  obtain ⟨pa, φ₁, hkalloc, htaken, hused⟩ := kalloc_avail (hav.mono (by omega))
  have htaken0 := htaken.memset 0
  have hmissing : missing (φ₁.memset pa 0) r (k * PGSIZE) = missing m.phys r (k * PGSIZE) :=
    hB.inv.missing_taken hB.root htaken0
  have hav' : (φ₁.memset pa 0).Avail (missing (φ₁.memset pa 0) r (k * PGSIZE)) := by
    rw [hmissing]
    exact ((hused.memset pa 0).avail (hav.mono (by omega))).1 hav
  obtain ⟨φ', hmap, hI', hs, hm', hkeeps, hpte, hused'⟩ :=
    hB.inv.mapTaken_avail hB.root hB.hand hB.mapped htaken0 Perm.leaf_all hav'
  obtain ⟨hother, hoff⟩ := hB.inv.mapTaken_frame hB.root hB.hand hB.lt_userTop htaken0 hmap
  rw [hmissing] at hused'
  have hzero : ∀ va, (k + 1) * PGSIZE ≤ va → f va = 0 := fun va hva =>
    hB.zero va (le_trans (Nat.mul_le_mul_right _ k.le_succ) hva)
  refine ⟨pa, φ₁, ⟨φ', update m.data pa fun _ => 0⟩, hkalloc, hmap, rfl,
    ⟨hI', hB.root, hB.hand, hm', hB.dense.succ hk (fun π hπ => ?_)
      fun π hπ => hoff a π fun e => hπ e.2, fun v hv => ?_, hzero, fun va pte hva hmax h => ?_⟩,
    hs, (hused.memset pa 0).trans hused'⟩
  · -- the tables on the path of a page that is mapped are there
    refine Owners.held_of_prefix (t := pa) ?_ hπ
    rw [Owners.held_upath hB.root hB.lt_userTop, hpte]
    rfl
  · by_cases hvk : v = k
    · subst hvk
      refine ⟨pa, hpte, fun j _ => ?_⟩
      simp only [update_self]
      exact (hB.zero _ (by omega)).symm
    · obtain ⟨pa', hpa', hdata⟩ := hB.page v (by omega)
      have hne : pa' ≠ pa := fun e =>
        hB.inv.not_held_of_taken htaken _ (e ▸ hB.held (by omega) hpa')
      exact ⟨pa', hB.inv.pteOf_keeps hB.root hkeeps hpa', fun j hj => by
        simp only [update_of_ne hne, hdata j hj]⟩
  · rw [hother a r va hB.root fun e => vpath_ne_upath hB.lt_userTop hva hmax e.2] at h
    exact hB.top va pte hva hmax h

theorem uvmdealloc_total {φ : Phys} (hI : o.Inv φ) (hr : o.root a = some r) (hm : o.Mapped φ a k)
    (hk : k₀ ≤ k) :
    ∃ φ', Returns (Phys.uvmdealloc r (k * PGSIZE) (k₀ * PGSIZE)) φ (k₀ * PGSIZE) φ' ∧
      o.Inv φ' ∧ Steps (Owners.space a) (o.books φ) (o.books φ') ∧ o.Mapped φ' a k₀ := by
  obtain rfl | hlt := hk.eq_or_lt
  · exact ⟨φ, by rw [Phys.uvmdealloc, if_pos le_rfl]; exact returns_pure.2 ⟨rfl, rfl⟩, hI, .refl,
      hm⟩
  · have hmul : k₀ * PGSIZE < k * PGSIZE := Nat.mul_lt_mul_of_pos_right hlt (by decide)
    have hsize : pages (k₀ * PGSIZE + (k * PGSIZE - k₀ * PGSIZE)) = k := by
      rw [Nat.add_sub_cancel' hmul.le, pages_mul]
    obtain ⟨φ', h, hI', hs, hm'⟩ := hI.uvmunmap_total _ hr hm hlt hsize
    refine ⟨φ', ?_, hI', hs, hm'⟩
    simp only [Phys.uvmdealloc, pgroundup_eq, pages_mul]
    rw [if_neg (by omega), if_pos hmul, h.bind_iff]
    exact returns_pure.2 ⟨rfl, rfl⟩

theorem turn_not_avail {newsz : ℕ} (hB : Built o a r m k f) (hk0 : k₀ ≤ k)
    (hav : ¬ m.phys.Avail (footprint (k + 1) - footprint k)) :
    ∃ m', Returns (Ram.uvmallocFrom r (k₀ * PGSIZE) newsz (n + 1) (k * PGSIZE)) m 0 m' ∧
      o.Inv m'.phys ∧ Steps (Owners.space a) (o.books m.phys) (o.books m'.phys) ∧
      o.Mapped m'.phys a k₀ := by
  have hk : k < 255 * 2 ^ 18 := lt_of_le_of_lt hB.le (by decide)
  rw [hB.dense.footprint_succ hB.root hk, Nat.add_sub_cancel_left] at hav
  by_cases h1 : m.phys.Avail 1
  · obtain ⟨pa, φ₁, hkalloc, htaken, hused⟩ := kalloc_avail h1
    have htaken0 := htaken.memset 0
    have hav' : ¬ (φ₁.memset pa 0).Avail (missing (φ₁.memset pa 0) r (k * PGSIZE)) := by
      rw [hB.inv.missing_taken hB.root htaken0]
      exact fun h => hav (((hused.memset pa 0).avail h1).2 h)
    obtain ⟨φ₂, φ₃, hmap, hfree, hI3, hs3, hm3⟩ :=
      hB.inv.mapTaken_not_avail hB.root hB.hand hB.mapped htaken0 Perm.leaf_all hav'
    obtain ⟨φ', hdealloc, hI', hs', hm'⟩ := uvmdealloc_total hI3 hB.root hm3 hk0
    refine ⟨⟨φ', update m.data pa fun _ => 0⟩, ?_, hI', hs3.trans hs', hm'⟩
    refine returns_bind.2 ⟨some pa, _, Ram.returns_onPhys.2 ⟨φ₁, hkalloc, rfl⟩, ?_⟩
    simp only [returns_bind, Ram.returns_onPhys, returns_modify]
    refine ⟨⟨⟩, _, rfl, false, _, ⟨φ₂, hmap, rfl⟩, ?_⟩
    simp only [Bool.false_eq_true, if_false, returns_bind, Ram.returns_onPhys]
    exact ⟨(), _, ⟨φ₃, hfree, rfl⟩, _, _, ⟨φ', hdealloc, rfl⟩, returns_pure.2 ⟨rfl, rfl⟩⟩
  · obtain ⟨φ₁, hkalloc, hfree, hmem, hend⟩ := kalloc_not_avail h1
    obtain ⟨hI1, hb⟩ := hB.inv.congr hfree hmem hend
    have hm1 : o.Mapped φ₁ a k := hB.mapped.congr fun v => by rw [Owners.held_eq_of_mem hmem]
    obtain ⟨φ', hdealloc, hI', hs', hm'⟩ := uvmdealloc_total hI1 hB.root hm1 hk0
    refine ⟨⟨φ', m.data⟩, ?_, hI', hb ▸ hs', hm'⟩
    refine returns_bind.2 ⟨none, _, Ram.returns_onPhys.2 ⟨φ₁, hkalloc, rfl⟩, ?_⟩
    simp only [returns_bind, Ram.returns_onPhys]
    exact ⟨_, _, ⟨φ', hdealloc, rfl⟩, returns_pure.2 ⟨rfl, rfl⟩⟩

theorem uvmallocFrom (hB : Built o a r m k f) (newsz : ℕ) (hk0 : k₀ ≤ k) :
    (m.phys.Avail (footprint (k + n) - footprint k) → ∃ m',
      Returns (Ram.uvmallocFrom r (k₀ * PGSIZE) newsz n (k * PGSIZE)) m newsz m' ∧
        Built o a r m' (k + n) f ∧ Steps (Owners.space a) (o.books m.phys) (o.books m'.phys) ∧
        Used m.phys m'.phys (footprint (k + n) - footprint k)) ∧
    (¬ m.phys.Avail (footprint (k + n) - footprint k) → ∃ m',
      Returns (Ram.uvmallocFrom r (k₀ * PGSIZE) newsz n (k * PGSIZE)) m 0 m' ∧ o.Inv m'.phys ∧
        Steps (Owners.space a) (o.books m.phys) (o.books m'.phys) ∧ o.Mapped m'.phys a k₀) := by
  induction n generalizing m k with
  | zero =>
    simp only [Nat.add_zero, Nat.sub_self]
    exact ⟨fun _ => ⟨m, returns_pure.2 ⟨rfl, rfl⟩, hB, .refl, .refl _⟩,
      fun h => absurd avail_zero h⟩
  | succ n ih =>
    have hstep := footprint_mono (Nat.le_add_right k 1)
    have hrest := footprint_mono (Nat.le_add_right (k + 1) n)
    rw [show k + (n + 1) = k + 1 + n by omega, show footprint (k + 1 + n) - footprint k =
      (footprint (k + 1) - footprint k) + (footprint (k + 1 + n) - footprint (k + 1)) by omega]
    by_cases h1 : m.phys.Avail (footprint (k + 1) - footprint k)
    · obtain ⟨pa, φ₁, m₁, hkalloc, hmap, hdata, hB1, hs1, hused1⟩ := hB.turn_avail h1
      have hturn : ∀ sz m', Returns (Ram.uvmallocFrom r (k₀ * PGSIZE) newsz n ((k + 1) * PGSIZE)) m₁
          sz m' →
          Returns (Ram.uvmallocFrom r (k₀ * PGSIZE) newsz (n + 1) (k * PGSIZE)) m sz m' := by
        intro sz m' h
        refine returns_bind.2 ⟨some pa, _, Ram.returns_onPhys.2 ⟨φ₁, hkalloc, rfl⟩, ?_⟩
        simp only [returns_bind, Ram.returns_onPhys, returns_modify]
        refine ⟨⟨⟩, _, rfl, true, m₁, ⟨m₁.phys, hmap, ?_⟩, ?_⟩
        · rw [Ram.memset, ← hdata]
        · rw [if_pos rfl, ← Nat.succ_mul]
          exact h
      obtain ⟨hyes, hno⟩ := ih hB1 (by omega)
      refine ⟨fun hav => ?_, fun hav => ?_⟩
      · obtain ⟨m', h, hB', hs', hused'⟩ := hyes ((hused1.avail h1).1 hav)
        exact ⟨m', hturn _ _ h, hB', hs1.trans hs', hused1.trans hused'⟩
      · obtain ⟨m', h, hI', hs', hm'⟩ := hno fun h => hav ((hused1.avail h1).2 h)
        exact ⟨m', hturn _ _ h, hI', hs1.trans hs', hm'⟩
    · exact ⟨fun hav => absurd (hav.mono (by omega)) h1, fun _ => hB.turn_not_avail hk0 h1⟩

/-- **`uvmalloc` adds pages of zeros exactly when there are as many pages as the footprint grows
by**; otherwise it returns 0 and leaves the old pages. -/
theorem uvmalloc {oldsz : ℕ} (hB : Built o a r m (pages oldsz) f) (newsz : ℕ) :
    (m.phys.Avail (footprint (pages newsz) - footprint (pages oldsz)) → ∃ m',
      Returns (Ram.uvmalloc r oldsz newsz) m (max oldsz newsz) m' ∧
        Built o a r m' (pages (max oldsz newsz)) f ∧
        Steps (Owners.space a) (o.books m.phys) (o.books m'.phys) ∧
        Used m.phys m'.phys (footprint (pages newsz) - footprint (pages oldsz))) ∧
    (¬ m.phys.Avail (footprint (pages newsz) - footprint (pages oldsz)) → ∃ m',
      Returns (Ram.uvmalloc r oldsz newsz) m 0 m' ∧ o.Inv m'.phys ∧
        Steps (Owners.space a) (o.books m.phys) (o.books m'.phys) ∧
        o.Mapped m'.phys a (pages oldsz)) := by
  rw [Ram.uvmalloc, uvmallocWith]
  by_cases hlt : newsz < oldsz
  · have hmono := footprint_mono (show pages newsz ≤ pages oldsz by
      simp only [pages, PGSIZE]
      omega)
    rw [if_pos hlt, Nat.sub_eq_zero_of_le hmono, Nat.max_eq_left hlt.le]
    exact ⟨fun _ => ⟨m, returns_pure.2 ⟨rfl, rfl⟩, hB, .refl, .refl _⟩,
      fun h => absurd avail_zero h⟩
  · have hcount : pages oldsz + (newsz + (PGSIZE - 1) - pages oldsz * PGSIZE) / PGSIZE =
        pages newsz := by
      simp only [pages, PGSIZE]
      omega
    rw [if_neg hlt, pgroundup_eq, Nat.max_eq_right (by omega)]
    have h := hB.uvmallocFrom (n := (newsz + (PGSIZE - 1) - pages oldsz * PGSIZE) / PGSIZE)
      newsz le_rfl
    rwa [hcount] at h

end Built

end Xv6Container
