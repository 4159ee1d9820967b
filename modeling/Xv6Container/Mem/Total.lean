import Xv6Container.Mem.Space

/-!
# What page-table code is sure to do

`Mem.Walk` and `Mem.Space` say what page-table code has done when it returns.  Here is when it
returns, and with which result: how many pages it asks for, and which entries it leaves alone.

* `Phys.Avail` : the coming calls of `kalloc` succeed;
* `Phys.pteOf` : the entry that a page table has for an address;
* `Inv.walk_avail` : `walk` finds its entry exactly when there is a page for every table it misses;
* `Phys.Keeps` : code that allocates leaves valid entries alone;
* `Inv.uvmunmap_total` : **`uvmunmap` of pages that are mapped returns.**
-/

namespace Xv6Container

open Function Books Phys

namespace Phys

variable {φ φ₁ φ' : Phys} {r t va pa k n : ℕ}

/-! ### Coming calls of `kalloc` -/

/-- The next `k` calls of `kalloc` succeed. -/
def Avail (φ : Phys) (k : ℕ) : Prop := k ≤ φ.freelist.length ∧ ∀ j < k, φ.refuse j = false

instance (φ : Phys) (k : ℕ) : Decidable (φ.Avail k) := inferInstanceAs (Decidable (_ ∧ _))

/-- `k` calls of `kalloc` have been made, and all have succeeded. -/
structure Used (φ φ' : Phys) (k : ℕ) : Prop where
  free : φ'.freelist = φ.freelist.drop k
  refuse : ∀ n, φ'.refuse n = φ.refuse (k + n)

theorem Used.refl (φ : Phys) : Used φ φ 0 := ⟨rfl, fun n => by rw [Nat.zero_add]⟩

theorem Used.trans (h : Used φ φ₁ k) (h' : Used φ₁ φ' n) : Used φ φ' (k + n) :=
  ⟨by rw [h'.free, h.free, List.drop_drop], fun j => by rw [h'.refuse, h.refuse, Nat.add_assoc]⟩

theorem Used.avail (h : Used φ φ₁ k) (hk : φ.Avail k) : φ.Avail (k + n) ↔ φ₁.Avail n := by
  obtain ⟨hlen, href⟩ := hk
  unfold Avail
  rw [h.free, List.length_drop]
  constructor
  · rintro ⟨h1, h2⟩
    exact ⟨by omega, fun j hj => by rw [h.refuse, h2 _ (by omega)]⟩
  · rintro ⟨h1, h2⟩
    refine ⟨by omega, fun j hj => ?_⟩
    by_cases hjk : j < k
    · exact href j hjk
    · have := h2 (j - k) (by omega)
      rwa [h.refuse, Nat.add_sub_cancel' (by omega)] at this

theorem Avail.mono (h : φ.Avail n) (hk : k ≤ n) : φ.Avail k :=
  ⟨by have := h.1; omega, fun j hj => h.2 j (by omega)⟩

@[simp] theorem avail_zero : φ.Avail 0 := ⟨Nat.zero_le _, by simp⟩

theorem Used.memset (h : Used φ φ' k) (pa c : ℕ) : Used φ (φ'.memset pa c) k := ⟨h.free, h.refuse⟩

theorem Used.setPte (h : Used φ φ' k) (t : ℕ) (i : Fin 512) (pte : Pte) :
    Used φ (φ'.setPte t i pte) k := ⟨h.free, h.refuse⟩

theorem kalloc_avail (h : φ.Avail 1) :
    ∃ pa φ', Returns kalloc φ (some pa) φ' ∧ Taken φ φ' pa ∧ Used φ φ' 1 := by
  obtain ⟨hlen, href⟩ := h
  cases hfree : φ.freelist with
  | nil => simp [hfree] at hlen
  | cons pa rest =>
    refine ⟨pa, ({ φ with freelist := rest, refuse := fun n => φ.refuse (n + 1) }).memset pa 5,
      ?_, ?_, ?_⟩
    · simp only [kalloc, returns_get_bind, returns_set_bind, href 0 (by omega),
        Bool.false_eq_true, if_false, hfree, returns_modify_bind, returns_pure, true_and]
    · have htaken : Taken φ { φ with freelist := rest, refuse := fun n => φ.refuse (n + 1) } pa :=
        ⟨hfree, fun t _ => rfl, rfl⟩
      exact htaken.memset 5
    · exact ⟨by simp [hfree, Phys.memset], fun n => by simp [Phys.memset, Nat.add_comm]⟩

theorem kalloc_not_avail (h : ¬ φ.Avail 1) :
    ∃ φ', Returns kalloc φ none φ' ∧ φ'.freelist = φ.freelist ∧ φ'.mem = φ.mem ∧
      φ'.kernelEnd = φ.kernelEnd := by
  refine ⟨{ φ with refuse := fun n => φ.refuse (n + 1) }, ?_, rfl, rfl, rfl⟩
  simp only [kalloc, returns_get_bind, returns_set_bind]
  split
  · exact returns_pure.2 ⟨rfl, rfl⟩
  · rename_i href
    cases hfree : φ.freelist with
    | nil => exact returns_pure.2 ⟨rfl, rfl⟩
    | cons pa rest =>
      refine absurd ⟨by simp [hfree], fun j hj => ?_⟩ h
      obtain rfl : j = 0 := by omega
      simpa using href

theorem kfree_valid (h : φ.ValidPage pa) : ∃ φ', Returns (kfree pa) φ () φ' := by
  simp only [kfree, returns_get_bind, h, not_true_eq_false, if_false, returns_modify_bind,
    returns_modify]
  exact ⟨_, rfl⟩

/-! ### Entries -/

/-- The entry that the page table at `r` has for `va`, if it is valid. -/
def pteOf (φ : Phys) (r va : ℕ) : Option Pte :=
  (descend (next φ.mem) r [px 2 va, px 1 va]).bind fun t =>
    if (φ.mem t (px 0 va)).v then some (φ.mem t (px 0 va)) else none

variable {levels : List ℕ} {res : Option (ℕ × Fin 512)}

theorem returns_walk_false (hva : va < MAXVA) :
    Returns (walk r va false) φ
      ((descend (next φ.mem) r [px 2 va, px 1 va]).map (·, px 0 va)) φ := by
  rw [walk, if_neg (by omega)]
  exact returns_walkFrom_false

/-! ### Code that allocates -/

/-- The pages in use stay in use, and their valid entries are left alone. -/
structure Keeps (φ φ' : Phys) : Prop where
  used : ∀ t, t ∉ φ.freelist → t ∉ φ'.freelist
  valid : ∀ t i, t ∉ φ.freelist → (φ.mem t i).v = true → φ'.mem t i = φ.mem t i

theorem Keeps.refl (φ : Phys) : Keeps φ φ := ⟨fun _ h => h, fun _ _ _ _ => rfl⟩

theorem Keeps.trans (h : Keeps φ φ₁) (h' : Keeps φ₁ φ') : Keeps φ φ' where
  used t ht := h'.used t (h.used t ht)
  valid t i ht hv := by
    have := h.valid t i ht hv
    rw [h'.valid t i (h.used t ht) (by rw [this]; exact hv), this]

theorem Keeps.of_taken (h : Taken φ φ' pa) : Keeps φ φ' where
  used t ht := fun hm => ht (h.free ▸ List.mem_cons_of_mem _ hm)
  valid t i ht _ := by
    have hne : t ≠ pa := fun e => ht (by rw [h.free, e]; exact List.mem_cons_self)
    rw [h.mem t hne]

theorem Keeps.setPte (h : Keeps φ φ') {i : Fin 512} {pte : Pte}
    (hv : t ∉ φ.freelist → (φ.mem t i).v = false) : Keeps φ (φ'.setPte t i pte) where
  used := h.used
  valid t' j ht' hv' := by
    by_cases he : t' = t ∧ j = i
    · obtain ⟨rfl, rfl⟩ := he
      simp [hv ht'] at hv'
    · rw [setPte_mem_of_ne he, h.valid t' j ht' hv']

theorem keeps_kalloc {res : Option ℕ} (h : Returns kalloc φ res φ') : Keeps φ φ' := by
  obtain ⟨-, hfree, hmem, -⟩ | ⟨pa, -, htaken⟩ := kalloc_cases h
  · exact ⟨fun t ht => hfree ▸ ht, fun t i _ _ => by rw [hmem]⟩
  · exact .of_taken htaken

theorem keeps_walkFrom {alloc : Bool}
    (h : Returns (walkFrom va alloc levels t) φ res φ') : Keeps φ φ' := by
  induction levels generalizing t φ with
  | nil => exact (returns_pure.1 h).2 ▸ .refl φ
  | cons level levels ih =>
    simp only [walkFrom, returns_get_bind] at h
    split at h
    · exact ih h
    · rename_i hv
      split at h
      · exact (returns_pure.1 h).2 ▸ .refl φ
      · obtain ⟨res₁, φ₁, hk, h⟩ := returns_bind.1 h
        obtain ⟨rfl, -⟩ | ⟨pa, rfl, htaken⟩ := kalloc_cases hk
        · exact (returns_pure.1 h).2 ▸ keeps_kalloc hk
        · simp only [returns_bind, returns_modify] at h
          obtain ⟨_, _, rfl, _, _, rfl, h⟩ := h
          refine Keeps.trans ?_ (ih h)
          exact (Keeps.of_taken (htaken.memset 0)).setPte fun _ => by simpa using hv

theorem keeps_walk {alloc : Bool}
    (h : Returns (walk r va alloc) φ res φ') : Keeps φ φ' := by
  simp only [walk] at h
  split at h
  · simp [returns_bind] at h
  · exact keeps_walkFrom h

/-- How many tables `walk` misses on its way down the given levels. -/
def missingFrom (φ : Phys) (va : ℕ) : List ℕ → ℕ → ℕ
  | [], _ => 0
  | level :: levels, t =>
    if (φ.mem t (px level va)).v then missingFrom φ va levels (φ.mem t (px level va)).pa
    else (level :: levels).length

/-- How many tables `walk` misses for `va`. -/
def missing (φ : Phys) (r va : ℕ) : ℕ := missingFrom φ va [2, 1] r

theorem missingFrom_empty (h : ∀ i, (φ.mem t i).v = false) :
    missingFrom φ va levels t = levels.length := by
  cases levels with
  | nil => rfl
  | cons level levels => simp [missingFrom, h]

theorem lt_MAXVA {v : ℕ} (hv : v < userTop) : v * PGSIZE < MAXVA := by
  have htop : userTop = 2 ^ 26 - 2 := rfl
  simp only [PGSIZE, MAXVA]
  omega

theorem le_maxAddr {v : ℕ} (hv : v < userTop) : v * PGSIZE + PGSIZE ≤ 2 ^ 63 := by
  have htop : userTop = 2 ^ 26 - 2 := rfl
  simp only [PGSIZE]
  omega

/-- Memory once `mappages` has written the entry that `walk` found, if it found one. -/
def mapAt (φ : Phys) (pa : ℕ) (perm : Perm) : Option (ℕ × Fin 512) → Phys
  | none => φ
  | some (t, i) => φ.setPte t i (.map pa perm)

theorem returns_mappages {perm : Perm} (hva : va % PGSIZE = 0)
    (hmax : va + PGSIZE ≤ 2 ^ 63) (hw : Returns (walk r va true) φ res φ₁)
    (hfree : ∀ t i, res = some (t, i) → (φ₁.mem t i).v = false) :
    Returns (mappages r va PGSIZE pa perm) φ res.isSome (φ₁.mapAt pa perm res) := by
  rw [mappages, pagesAfter_eq hva (by decide) hmax, pgrounddown_eq hva]
  show Returns (mapPage r va pa perm) φ _ _
  rw [mapPage, hw.bind_iff]
  cases res with
  | none => exact returns_pure.2 ⟨rfl, rfl⟩
  | some x =>
    obtain ⟨t, i⟩ := x
    simp only [returns_get_bind, hfree t i rfl, Bool.false_eq_true, if_false,
      returns_modify_bind]
    exact returns_pure.2 ⟨rfl, rfl⟩

end Phys

namespace Owners

variable {A B : Type} {o : Owners A B} {φ φ₁ φ' : Phys} {a : A} {π : List (Fin 512)}
  {r t va pa k n v : ℕ} {perm : Perm} {pte : Pte}

theorem held_vpath (hr : o.root a = some r) (hf : ¬ Fixed (vpath va)) :
    o.held φ (.page a (vpath va)) = (pteOf φ r va).map Pte.pa := by
  rw [held, if_pos ⟨by simp [vpath], hf⟩, hr, Option.bind_some, pteOf,
    show vpath va = [px 2 va, px 1 va] ++ [px 0 va] from rfl, descend_append]
  cases descend (next φ.mem) r [px 2 va, px 1 va] with
  | none => rfl
  | some t =>
    simp only [Option.bind_some, descend_cons, descend_nil, next]
    split <;> simp

theorem held_upath (hr : o.root a = some r) (hv : v < userTop) :
    o.held φ (.page a (upath v)) = (pteOf φ r (v * PGSIZE)).map Pte.pa :=
  held_vpath hr (upath_not_fixed hv)

namespace Inv

theorem notMem_free (hI : o.Inv φ) {p : PagePlace A B} (hp : o.held φ p = some t) :
    t ∉ φ.freelist := hI.sound.apart hp

theorem pteOf_keeps (hI : o.Inv φ) (hr : o.root a = some r) (hK : Keeps φ φ')
    (h : pteOf φ r va = some pte) : pteOf φ' r va = some pte := by
  obtain ⟨t, ht, hpte⟩ := Option.bind_eq_some_iff.1 h
  have hplace : ∀ π t, π.length ≤ 2 → descend (next φ.mem) r π = some t → t ∉ φ.freelist := by
    intro π t hπ hd
    exact hI.notMem_free (p := .page a π) (by rw [held_page hπ, hr]; exact hd)
  have hd : descend (next φ'.mem) r [px 2 va, px 1 va] = some t := by
    simp only [descend_cons, descend_nil, Option.bind_eq_some_iff, next_eq_some,
      Option.some.injEq] at ht ⊢
    obtain ⟨t₁, ⟨hv1, ht1⟩, t₀, ⟨hv0, ht0⟩, rfl⟩ := ht
    have h1 := hK.valid r (px 2 va) (hplace [] r (by simp) rfl) hv1
    have h0 := hK.valid t₁ (px 1 va) (hplace [px 2 va] t₁ (by simp) (by simp [next, hv1, ht1])) hv0
    exact ⟨t₁, ⟨by rw [h1, hv1], by rw [h1, ht1]⟩, t₀, ⟨by rw [h0, hv0], by rw [h0, ht0]⟩, rfl⟩
  split at hpte
  · rename_i hv
    have hkeep := hK.valid t (px 0 va) (hplace _ t (by simp) ht) hv
    rw [pteOf, hd, Option.bind_some, hkeep, if_pos hv]
    exact hpte
  · cases hpte

theorem missing_taken (hI : o.Inv φ) (hr : o.root a = some r) (htaken : Taken φ φ₁ pa) :
    missing φ₁ r va = missing φ r va := by
  suffices h : ∀ levels π t, π.length + levels.length = 2 → o.held φ (.page a π) = some t →
      missingFrom φ₁ va levels t = missingFrom φ va levels t from
    h [2, 1] [] r rfl (by rw [held_root, hr])
  intro levels
  induction levels with
  | nil => exact fun _ _ _ _ => rfl
  | cons level levels ih =>
    intro π t hlen ht
    simp only [List.length_cons] at hlen
    have hne : t ≠ pa := fun e => hI.not_held_of_taken htaken _ (e ▸ ht)
    simp only [missingFrom, htaken.mem t hne]
    split
    · rename_i hv
      refine ih (π ++ [px level va]) _ (by simp; omega) ?_
      rw [held_child (by omega) (not_fixed (by simp; omega)) ht, next, if_pos hv]
    · rfl

theorem unmapPage_total (hI : o.Inv φ) (hr : o.root a = some r) (hk : k < userTop)
    (h : o.held φ (.page a (upath k)) = some pa) :
    ∃ φ', Returns (Phys.unmapPage r true (k * PGSIZE)) φ () φ' := by
  rw [held_upath hr hk] at h
  obtain ⟨pte, hpte, rfl⟩ := Option.map_eq_some_iff.1 h
  obtain ⟨t, ht, hpte'⟩ := Option.bind_eq_some_iff.1 hpte
  have hheld : o.held φ (.page a [px 2 (k * PGSIZE), px 1 (k * PGSIZE)]) = some t := by
    rw [held_page (by simp), hr]
    exact ht
  have hw : Returns (Phys.walk r (k * PGSIZE) false) φ (some (t, px 0 (k * PGSIZE))) φ := by
    have := returns_walk_false (φ := φ) (r := r) (lt_MAXVA hk)
    rwa [ht] at this
  split at hpte'
  swap
  · cases hpte'
  rename_i hv
  cases hpte'
  have hleaf := (hI.leaves (px 0 (k * PGSIZE)) rfl hheld hv).1
  have hperm : (φ.mem t (px 0 (k * PGSIZE))).perm ≠ Perm.none := by
    intro e
    rw [e] at hleaf
    cases hleaf
  have hvalid : φ.ValidPage (φ.mem t (px 0 (k * PGSIZE))).pa :=
    hI.validPage.2 (hI.held_ok (p := .page a (upath k)) (by rw [held_upath hr hk, hpte]; rfl))
  obtain ⟨φ', hfree⟩ := kfree_valid hvalid
  refine ⟨φ'.setPte t (px 0 (k * PGSIZE)) .zero, ?_⟩
  rw [Phys.unmapPage, hw.bind_iff]
  simp only [returns_get_bind, hv, Bool.not_true, Bool.false_eq_true, if_false,
    hperm, if_true, hfree.bind_iff, returns_modify]

/-! ### Walking -/

variable [DecidableEq A] [DecidableEq B]

theorem newTable {i : Fin 512} (hI : o.Inv φ) (hπ : π.length ≤ 1)
    (ht : o.held φ (.page a π) = some t) (hv : (φ.mem t i).v = false) (h : φ.Avail 1) :
    ∃ pa φ₁ φ₂, Returns kalloc φ (some pa) φ₁ ∧
      φ₂ = (φ₁.memset pa 0).setPte t i (.map pa .none) ∧ o.Inv φ₂ ∧
      o.held φ₂ (.page a (π ++ [i])) = some pa ∧ Used φ φ₂ 1 ∧
      ∀ va levels, missingFrom φ₂ va levels pa = levels.length := by
  obtain ⟨pa, φ₁, hk, htaken, hused⟩ := kalloc_avail h
  obtain ⟨hI', -, hpa⟩ := hI.link (i := i) htaken hπ ht hv
  have hne : t ≠ pa := fun e => hI.not_held_of_taken htaken _ (e ▸ ht)
  refine ⟨pa, φ₁, _, hk, rfl, hI', hpa, (hused.memset pa 0).setPte t i _, fun va levels => ?_⟩
  refine missingFrom_empty fun j => ?_
  rw [setPte_mem_of_ne (fun e => hne e.1.symm), memset_zero_v]

theorem walkFrom_total {levels : List ℕ} (hI : o.Inv φ) (hlen : π.length + levels.length = 2)
    (ht : o.held φ (.page a π) = some t) :
    (φ.Avail (missingFrom φ va levels t) → ∃ t' φ',
      Returns (Phys.walkFrom va true levels t) φ (some (t', px 0 va)) φ' ∧
        Used φ φ' (missingFrom φ va levels t)) ∧
    (¬ φ.Avail (missingFrom φ va levels t) → ∃ φ',
      Returns (Phys.walkFrom va true levels t) φ none φ') := by
  induction levels generalizing π t φ with
  | nil =>
    exact ⟨fun _ => ⟨t, φ, returns_pure.2 ⟨rfl, rfl⟩, .refl φ⟩, fun h => absurd avail_zero h⟩
  | cons level levels ih =>
    simp only [List.length_cons] at hlen
    simp only [Phys.walkFrom, returns_get_bind]
    by_cases hv : (φ.mem t (px level va)).v = true
    · simp only [missingFrom, hv, if_true]
      refine ih hI (π := π ++ [px level va]) (by simp; omega) ?_
      rw [held_child (by omega) (not_fixed (by simp; omega)) ht, next, if_pos hv]
    · simp only [missingFrom, hv, Bool.false_eq_true, if_false, Bool.not_true, List.length_cons,
        Nat.add_comm levels.length 1]
      by_cases h1 : φ.Avail 1
      · obtain ⟨pa, φ₁, φ₂, hk, rfl, hI2, hpa, hused, hmiss⟩ :=
          hI.newTable (i := px level va) (by omega) ht (by simpa using hv) h1
        obtain ⟨hyes, hno⟩ := ih hI2 (by simp; omega) hpa
        rw [hmiss] at hyes hno
        simp only [hk.bind_iff, returns_bind, returns_modify]
        refine ⟨fun h => ?_, fun h => ?_⟩
        · obtain ⟨t', φ', hw, hu⟩ := hyes ((hused.avail h1).1 h)
          exact ⟨t', φ', ⟨⟨⟩, _, rfl, ⟨⟩, _, rfl, hw⟩, hused.trans hu⟩
        · obtain ⟨φ', hw⟩ := hno fun hav => h ((hused.avail h1).2 hav)
          exact ⟨φ', ⟨⟩, _, rfl, ⟨⟩, _, rfl, hw⟩
      · obtain ⟨φ', hk, -⟩ := kalloc_not_avail h1
        refine ⟨fun h => absurd (h.mono (by omega)) h1, fun _ => ⟨φ', ?_⟩⟩
        simpa only [hk.bind_iff] using returns_pure.2 ⟨rfl, rfl⟩

theorem walk_avail (hI : o.Inv φ) (hr : o.root a = some r) (hva : va < MAXVA)
    (h : φ.Avail (missing φ r va)) :
    ∃ t φ', Returns (Phys.walk r va true) φ (some (t, px 0 va)) φ' ∧
      Used φ φ' (missing φ r va) := by
  rw [Phys.walk, if_neg (by omega)]
  exact (hI.walkFrom_total (π := []) (by rfl) (by rw [held_root, hr])).1 h

theorem walk_not_avail (hI : o.Inv φ) (hr : o.root a = some r) (hva : va < MAXVA)
    (h : ¬ φ.Avail (missing φ r va)) : ∃ φ', Returns (Phys.walk r va true) φ none φ' := by
  rw [Phys.walk, if_neg (by omega)]
  exact (hI.walkFrom_total (π := []) (by rfl) (by rw [held_root, hr])).2 h

/-! ### Mapping a page -/

/-- A page that has been taken is mapped at the first user page that is not, when there are pages
for the tables. -/
theorem mapTaken_avail (hI : o.Inv φ) (hr : o.root a = some r) (hhand : o.hand = none)
    (hm : o.Mapped φ a k) (htaken : Taken φ φ₁ pa) (hperm : perm.leaf = true)
    (h : φ₁.Avail (missing φ₁ r (k * PGSIZE))) :
    ∃ φ', Returns (mappages r (k * PGSIZE) PGSIZE pa perm) φ₁ true φ' ∧ o.Inv φ' ∧
      Steps (space a) (o.books φ) (o.books φ') ∧ o.Mapped φ' a (k + 1) ∧ Keeps φ φ' ∧
      pteOf φ' r (k * PGSIZE) = some ⟨true, perm, pa⟩ ∧
      Used φ₁ φ' (missing φ₁ r (k * PGSIZE)) := by
  have hk := hm.lt_userTop hI
  obtain ⟨hI1, hmove⟩ := hI.take htaken hhand
  obtain ⟨t, φ₂, hw, hused⟩ := hI1.walk_avail hr (lt_MAXVA hk) h
  obtain ⟨-, hI2, hs, hres⟩ := hI1.walk hr hw
  obtain ⟨ht, -⟩ := hres t _ rfl
  have hnf : ¬ Fixed ([px 2 (k * PGSIZE), px 1 (k * PGSIZE)] ++ [px 0 (k * PGSIZE)]) :=
    upath_not_fixed hk
  -- nothing is mapped there
  have hnone : o.held φ (.page a (upath k)) = none := by
    have := (hm k hk).not.2 (lt_irrefl k)
    simpa using this
  have hnone2 : held { o with hand := some pa } φ₂ (.page a (upath k)) = none := by
    have h1 := hmove.held_of_notMem (p := .page a (upath k)) (by simp)
    exact (hs.held_of_notMem (upath_notMem_tables k)).trans (h1.trans hnone)
  have hv : (φ₂.mem t (px 0 (k * PGSIZE))).v = false := by
    have := held_child (i := px 0 (k * PGSIZE)) (by simp) hnf ht
    rw [← next_eq_none, ← this]
    exact hnone2
  have hmap : Returns (mappages r (k * PGSIZE) PGSIZE pa perm) φ₁ true
      (φ₂.setPte t (px 0 (k * PGSIZE)) (.map pa perm)) :=
    returns_mappages (by simp) (le_maxAddr hk) hw (fun _ _ e => by cases e; exact hv)
  have hvalid : pa % PGSIZE = 0 := (hI.valid_of_taken htaken).1
  obtain ⟨-, hI', hs', hm'⟩ | ⟨hok, -⟩ := hI.mappages_taken hr hhand hm htaken hperm hmap
  swap
  · cases hok
  refine ⟨_, hmap, hI', hs', hm', ?_, ?_, hused.setPte _ _ _⟩
  · have hK := (Keeps.of_taken htaken).trans (keeps_walk hw)
    refine hK.setPte fun hfree => ?_
    by_contra hne
    have := hK.valid t _ hfree (by simpa using hne)
    rw [← this, hv] at hne
    exact hne rfl
  · have hheld := hI2.held_setLeaf (i := px 0 (k * PGSIZE)) rfl ht (.map pa perm)
    rw [if_neg hnf] at hheld
    have ht' := congrFun hheld (.page a [px 2 (k * PGSIZE), px 1 (k * PGSIZE)])
    rw [update_of_ne (by simp), ht, held_page (by simp), hr, Option.bind_some] at ht'
    rw [pteOf, ht', Option.bind_some, setPte_mem_self, map_v, if_pos rfl, Pte.map,
      pgrounddown_eq hvalid]

theorem mapTaken_not_avail (hI : o.Inv φ) (hr : o.root a = some r) (hhand : o.hand = none)
    (hm : o.Mapped φ a k) (htaken : Taken φ φ₁ pa) (hperm : perm.leaf = true)
    (h : ¬ φ₁.Avail (missing φ₁ r (k * PGSIZE))) :
    ∃ φ₂ φ', Returns (mappages r (k * PGSIZE) PGSIZE pa perm) φ₁ false φ₂ ∧
      Returns (kfree pa) φ₂ () φ' ∧ o.Inv φ' ∧ Steps (space a) (o.books φ) (o.books φ') ∧
      o.Mapped φ' a k := by
  have hk := hm.lt_userTop hI
  obtain ⟨hI1, -⟩ := hI.take htaken hhand
  obtain ⟨φ₂, hw⟩ := hI1.walk_not_avail hr (lt_MAXVA hk) h
  have hmap : Returns (mappages r (k * PGSIZE) PGSIZE pa perm) φ₁ false φ₂ :=
    returns_mappages (by simp) (le_maxAddr hk) hw (fun _ _ e => nomatch e)
  obtain ⟨-, hI2, -⟩ | ⟨hok, -⟩ := hI1.mappages_hand hr rfl hk hperm hmap
  swap
  · cases hok
  obtain ⟨φ', hfree⟩ := kfree_valid (hI2.validPage.2 (hI2.held_ok (p := .hand) rfl))
  obtain ⟨hok, -⟩ | ⟨-, hback⟩ := hI.mappages_taken hr hhand hm htaken hperm hmap
  · cases hok
  exact ⟨_, φ', hmap, hfree, hback () φ' hfree⟩

/-! ### Unmapping pages -/

theorem uvmunmapFrom_total {V : ℕ → Prop} (hI : o.Inv φ) (hr : o.root a = some r)
    (hm : o.MappedOn φ a V) (hk : k + n < userTop) (hV : ∀ v, k ≤ v → v ≤ k + n → V v) :
    ∃ φ', Returns (Phys.uvmunmapFrom r true n (k * PGSIZE)) φ () φ' := by
  induction n generalizing φ k V with
  | zero =>
    obtain ⟨pa, hpa⟩ := Option.isSome_iff_exists.1 ((hm k (by omega)).2 (hV k le_rfl (by omega)))
    exact hI.unmapPage_total hr (by omega) hpa
  | succ n ih =>
    obtain ⟨pa, hpa⟩ := Option.isSome_iff_exists.1 ((hm k (by omega)).2 (hV k le_rfl (by omega)))
    obtain ⟨φ₁, h1⟩ := hI.unmapPage_total hr (by omega) hpa
    obtain ⟨-, hI1, -, hm1, -⟩ := hI.unmapPage hr hm (by omega) h1
    obtain ⟨φ', h'⟩ := ih hI1 (k := k + 1) hm1 (by omega)
      fun v h1 h2 => ⟨hV v (by omega) (by omega), by omega⟩
    rw [Nat.succ_mul] at h'
    exact ⟨φ', returns_bind.2 ⟨(), φ₁, h1, h'⟩⟩

/-- **`uvmunmap` of pages that are mapped returns.** -/
theorem uvmunmap_total (hI : o.Inv φ) (size : ℕ) (hr : o.root a = some r) (hm : o.Mapped φ a n)
    (hkn : k < n) (hsize : pages (k * PGSIZE + size) = n) :
    ∃ φ', Returns (Phys.uvmunmap r (k * PGSIZE) size true) φ () φ' ∧ o.Inv φ' ∧
      Steps (space a) (o.books φ) (o.books φ') ∧ o.Mapped φ' a k := by
  have hn := hm.lt_userTop hI
  have htop : userTop = 2 ^ 26 - 2 := rfl
  obtain ⟨φ', h⟩ := hI.uvmunmapFrom_total (k := k) (n := n - 1 - k) hr hm (by omega)
    fun v _ _ => by omega
  have hret : Returns (Phys.uvmunmap r (k * PGSIZE) size true) φ () φ' := by
    rw [uvmunmap_eq hkn (by omega) hsize]
    exact h
  exact ⟨φ', hret, hI.uvmunmap hr hm hkn hsize hret⟩

end Inv

end Owners

end Xv6Container
