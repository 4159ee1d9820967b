import Xv6Container.Mem.Total

/-!
# Page tables as maps

For its user a page table is a map from addresses to entries, `Phys.pteOf`.  The tables behind it do
not show: `walk` may add tables, but it adds no entry to the map of any address space, and writing
an entry of a lowest table changes the map at one page of one address space.

* `Inv.pteOf_walk` : **`walk` leaves every map alone**;
* `Inv.mapTaken_frame` : what `mappages` of a user page leaves alone;
* `Inv.uvmclear_total` : `uvmclear` takes away the access of user code to one page.
-/

namespace Xv6Container

open Function Books Phys

namespace Owners

variable {A B : Type} {o : Owners A B} {φ φ₁ φ' : Phys} {a b : A} {π : List (Fin 512)}
  {r r' t va va' pa k n : ℕ} {i : Fin 512} {perm : Perm} {pte : Pte}

/-- The valid entry `i` of the table at `t`. -/
def entry (φ : Phys) (t : ℕ) (i : Fin 512) : Option Pte :=
  if (φ.mem t i).v then some (φ.mem t i) else none

theorem entry_eq_none : entry φ t i = none ↔ (φ.mem t i).v = false := by simp [entry]

theorem pteOf_held (hr : o.root a = some r) : pteOf φ r va =
    (o.held φ (.page a [px 2 va, px 1 va])).bind fun t => entry φ t (px 0 va) := by
  rw [held_page (by simp), hr]
  rfl

theorem pteOf_congr (hr : o.root a = some r)
    (hheld : o.held φ' (.page a [px 2 va, px 1 va]) = o.held φ (.page a [px 2 va, px 1 va]))
    (hmem : ∀ t, o.held φ (.page a [px 2 va, px 1 va]) = some t →
      φ'.mem t (px 0 va) = φ.mem t (px 0 va)) : pteOf φ' r va = pteOf φ r va := by
  rw [pteOf_held hr, pteOf_held hr, hheld]
  cases ht : o.held φ (.page a [px 2 va, px 1 va]) with
  | none => rfl
  | some t => simp only [Option.bind_some, entry, hmem t ht]

theorem pteOf_empty (h : ∀ i, (φ.mem r i).v = false) : pteOf φ r va = none := by
  have hd : descend (next φ.mem) r [px 2 va, px 1 va] = none :=
    descend_eq_none (fun i => next_eq_none.2 (h i)) (by simp)
  rw [pteOf, hd]
  rfl

namespace Inv

theorem pteOf_taken (hI : o.Inv φ) (hr : o.root a = some r) (h : Taken φ φ₁ pa) :
    pteOf φ₁ r va = pteOf φ r va := by
  refine pteOf_congr hr (congrFun (hI.held_taken h) _) fun t ht => ?_
  have hne : t ≠ pa := fun e => hI.not_held_of_taken h _ (e ▸ ht)
  rw [h.mem t hne]

variable [DecidableEq A] [DecidableEq B]

theorem pteOf_link (hI : o.Inv φ) (h : Taken φ φ₁ pa) (hπ : π.length ≤ 1)
    (ht : o.held φ (.page a π) = some t) (hv : (φ.mem t i).v = false) (hr : o.root b = some r) :
    pteOf ((φ₁.memset pa 0).setPte t i (.map pa .none)) r va = pteOf φ r va := by
  obtain ⟨-, hmove, hpa⟩ := hI.link h hπ ht hv
  have hne : t ≠ pa := fun e => hI.not_held_of_taken h _ (e ▸ ht)
  by_cases hp : (.page b [px 2 va, px 1 va] : PagePlace A B) = .page a (π ++ [i])
  · -- the new table is the one for `va`
    have hold : o.held φ (.page a (π ++ [i])) = none := held_below_of_invalid (by omega) ht hv
    rw [pteOf_held hr, pteOf_held hr, hp, hpa, hold, Option.bind_some, Option.bind_none,
      entry_eq_none, setPte_mem_of_ne (fun e => hne e.1.symm), memset_zero_v]
  · refine pteOf_congr hr (hmove.held_of_notMem hp) fun t' ht' => ?_
    have hne' : t' ≠ pa := fun e => hI.not_held_of_taken h _ (e ▸ ht')
    have hnet : ¬ (t' = t ∧ px 0 va = i) := by
      rintro ⟨rfl, -⟩
      obtain ⟨-, rfl⟩ := PagePlace.page.inj (hI.inj ht' ht)
      simp at hπ
    rw [setPte_mem_of_ne hnet, memset_mem_of_ne hne', h.mem t' hne']

variable {alloc : Bool} {u : Unit}

theorem pteOf_walkFrom {res : Option (ℕ × Fin 512)} {levels : List ℕ}
    (hI : o.Inv φ) (hlen : π.length + levels.length = 2) (ht : o.held φ (.page a π) = some t)
    (hr : o.root b = some r) (h : Returns (Phys.walkFrom va alloc levels t) φ res φ') :
    pteOf φ' r va' = pteOf φ r va' := by
  induction levels generalizing π t φ with
  | nil =>
    obtain ⟨-, rfl⟩ := returns_pure.1 h
    rfl
  | cons level levels ih =>
    simp only [List.length_cons] at hlen
    simp only [Phys.walkFrom, returns_get_bind] at h
    split at h
    · rename_i hv
      refine ih hI (π := π ++ [px level va]) (by simp; omega) ?_ h
      rw [held_child (by omega) (not_fixed (by simp; omega)) ht, next, if_pos hv]
    · rename_i hv
      split at h
      · obtain ⟨-, rfl⟩ := returns_pure.1 h
        rfl
      · obtain ⟨res₁, φ₁, hk, h⟩ := returns_bind.1 h
        obtain ⟨rfl, -, hmem, -⟩ | ⟨pa, rfl, htaken⟩ := kalloc_cases hk
        · obtain ⟨-, rfl⟩ := returns_pure.1 h
          exact pteOf_congr hr (congrFun (held_eq_of_mem hmem) _) fun _ _ => by rw [hmem]
        · simp only [returns_bind, returns_modify] at h
          obtain ⟨_, _, rfl, _, _, rfl, h⟩ := h
          have hv' : (φ.mem t (px level va)).v = false := by simpa using hv
          obtain ⟨hI', -, hpa⟩ := hI.link htaken (by omega) ht hv'
          rw [ih hI' (by simp; omega) hpa h, hI.pteOf_link htaken (by omega) ht hv' hr]

/-- **`walk` adds no entry to the map of any address space.** -/
theorem pteOf_walk {res : Option (ℕ × Fin 512)} (hI : o.Inv φ)
    (hra : o.root a = some r) (hrb : o.root b = some r')
    (h : Returns (Phys.walk r va alloc) φ res φ') : pteOf φ' r' va' = pteOf φ r' va' := by
  simp only [Phys.walk] at h
  split at h
  · simp [returns_bind] at h
  · exact hI.pteOf_walkFrom (π := []) (by rfl) (by rw [held_root, hra]) hrb h

theorem walk_entry (hI : o.Inv φ) (hr : o.root a = some r)
    (h : Returns (Phys.walk r va alloc) φ (some (t, i)) φ') : entry φ' t i = pteOf φ r va := by
  obtain ⟨-, -, -, hres⟩ := hI.walk hr h
  obtain ⟨ht, rfl⟩ := hres t i rfl
  rw [← hI.pteOf_walk hr hr h, pteOf_held hr, ht, Option.bind_some]

theorem pteOf_setLeaf_of_ne (hI : o.Inv φ) (hπ : π.length = 2) (ht : o.held φ (.page a π) = some t)
    (hr : o.root b = some r) (hne : ¬ (b = a ∧ vpath va = π ++ [i])) :
    pteOf (φ.setPte t i pte) r va = pteOf φ r va := by
  refine pteOf_congr hr ?_ fun t' ht' => setPte_mem_of_ne ?_
  · rw [hI.held_setLeaf hπ ht]
    split
    · rfl
    · refine update_of_ne ?_ _ _
      rintro e
      have := congrArg List.length (PagePlace.page.inj e).2
      simp [hπ] at this
  · rintro ⟨rfl, rfl⟩
    obtain ⟨rfl, rfl⟩ := PagePlace.page.inj (hI.inj ht' ht)
    exact hne ⟨rfl, rfl⟩

theorem pteOf_setLeaf (hI : o.Inv φ) (hr : o.root a = some r)
    (ht : o.held φ (.page a [px 2 va, px 1 va]) = some t) :
    pteOf (φ.setPte t (px 0 va) pte) r va = if pte.v then some pte else none := by
  have ht' : o.held (φ.setPte t (px 0 va) pte) (.page a [px 2 va, px 1 va]) = some t := by
    rw [hI.held_setLeaf rfl ht]
    split
    · exact ht
    · rw [update_of_ne (by simp), ht]
  rw [pteOf_held hr, ht', Option.bind_some, entry, setPte_mem_self]

/-! ### Mapping -/

theorem mappages_total (hI : o.Inv φ) (pa : ℕ) (perm : Perm) (hr : o.root a = some r)
    (hva : va % PGSIZE = 0) (hmax : va < MAXVA) (hnone : pteOf φ r va = none) :
    ∃ res φ₁, Returns (Phys.walk r va true) φ res φ₁ ∧
      Returns (mappages r va PGSIZE pa perm) φ res.isSome (φ₁.mapAt pa perm res) := by
  obtain ⟨res, φ₁, hw⟩ : ∃ res φ₁, Returns (Phys.walk r va true) φ res φ₁ := by
    by_cases hav : φ.Avail (missing φ r va)
    · obtain ⟨t, φ₁, hw, -⟩ := hI.walk_avail hr hmax hav
      exact ⟨_, φ₁, hw⟩
    · obtain ⟨φ₁, hw⟩ := hI.walk_not_avail hr hmax hav
      exact ⟨_, φ₁, hw⟩
  have hle : va + PGSIZE ≤ 2 ^ 63 := by
    simp only [MAXVA, PGSIZE] at hmax ⊢
    omega
  refine ⟨res, φ₁, hw, returns_mappages hva hle hw fun t i e => ?_⟩
  subst e
  rw [← entry_eq_none, hI.walk_entry hr hw, hnone]

theorem mappages_frame {ok : Bool} (hI : o.Inv φ) (hr : o.root a = some r) (hva : va % PGSIZE = 0)
    (hmax : va + PGSIZE ≤ 2 ^ 63) (h : Returns (mappages r va PGSIZE pa perm) φ ok φ') :
    (∀ b r' va', o.root b = some r' → ¬ (b = a ∧ vpath va' = vpath va) →
      pteOf φ' r' va' = pteOf φ r' va') ∧
    ∀ b π, ¬ (b = a ∧ π <+: vpath va) → o.held φ' (.page b π) = o.held φ (.page b π) := by
  have hsteps : ∀ {φ₁ : Phys}, Steps (onPath a [px 2 va, px 1 va]) (o.books φ) (o.books φ₁) →
      ∀ b π, ¬ (b = a ∧ π <+: vpath va) → o.held φ₁ (.page b π) = o.held φ (.page b π) := by
    intro φ₁ hs b π hπ
    refine hs.held_of_notMem (p := .page b π) ?_
    rintro ⟨ρ, e, hρ⟩
    obtain ⟨rfl, rfl⟩ := PagePlace.page.inj e
    exact hπ ⟨rfl, hρ.trans (List.prefix_append [px 2 va, px 1 va] [px 0 va])⟩
  obtain ⟨rfl, hw⟩ | ⟨t, i, φ₁, rfl, hw, -, rfl⟩ := mappages_cases hva hmax h
  · obtain ⟨-, -, hs, -⟩ := hI.walk_path hr hw
    exact ⟨fun b r' va' hb _ => hI.pteOf_walk hr hb hw, hsteps hs⟩
  · obtain ⟨-, hI1, hs, hres⟩ := hI.walk_path hr hw
    obtain ⟨ht, rfl⟩ := hres t i rfl
    refine ⟨fun b r' va' hb hne => ?_, fun b π hπ => ?_⟩
    · rw [hI1.pteOf_setLeaf_of_ne rfl ht hb hne, hI.pteOf_walk hr hb hw]
    · rw [hI1.held_setLeaf rfl ht, ← hsteps hs b π hπ]
      split
      · rfl
      · refine update_of_ne ?_ _ _
        rintro e
        obtain ⟨rfl, rfl⟩ := PagePlace.page.inj e
        exact hπ ⟨rfl, List.prefix_rfl⟩

theorem mapTaken_frame {ok : Bool} (hI : o.Inv φ) (hr : o.root a = some r) (hhand : o.hand = none)
    (hk : k < userTop) (htaken : Taken φ φ₁ pa)
    (h : Returns (mappages r (k * PGSIZE) PGSIZE pa perm) φ₁ ok φ') :
    (∀ b r' va, o.root b = some r' → ¬ (b = a ∧ vpath va = upath k) →
      pteOf φ' r' va = pteOf φ r' va) ∧
    ∀ b π, ¬ (b = a ∧ π <+: upath k) → o.held φ' (.page b π) = o.held φ (.page b π) := by
  obtain ⟨hI1, -⟩ := hI.take htaken hhand
  obtain ⟨hmap, hheld⟩ := hI1.mappages_frame hr (by simp) (le_maxAddr hk) h
  refine ⟨fun b r' va hb hne => ?_, fun b π hπ => ?_⟩
  · rw [hmap b r' va hb hne, hI.pteOf_taken hb htaken]
  · exact (hheld b π hπ).trans (congrFun (hI.held_taken htaken) (.page b π))

/-! ### Access -/

theorem uvmclear_total (hI : o.Inv φ) (hr : o.root a = some r) (hk : k < userTop)
    (hpte : pteOf φ r (k * PGSIZE) = some ⟨true, perm, pa⟩) (hleaf : perm.leaf = true) :
    ∃ φ', Returns (Phys.uvmclear r (k * PGSIZE)) φ () φ' ∧ o.Inv φ' ∧ o.books φ' = o.books φ ∧
      φ'.refuse = φ.refuse ∧
      pteOf φ' r (k * PGSIZE) = some ⟨true, { perm with u := false }, pa⟩ ∧
      ∀ b r' va, o.root b = some r' → ¬ (b = a ∧ vpath va = upath k) →
        pteOf φ' r' va = pteOf φ r' va := by
  obtain ⟨t, hd, he⟩ := Option.bind_eq_some_iff.1 hpte
  have ht : o.held φ (.page a [px 2 (k * PGSIZE), px 1 (k * PGSIZE)]) = some t := by
    rw [held_page (by simp), hr]
    exact hd
  have hw := returns_walk_false (φ := φ) (r := r) (lt_MAXVA hk)
  rw [hd, Option.map_some] at hw
  have hmem : φ.mem t (px 0 (k * PGSIZE)) = ⟨true, perm, pa⟩ := by
    split at he
    · exact Option.some.inj he
    · cases he
  have hset : Returns (Phys.uvmclear r (k * PGSIZE)) φ ()
      (φ.setPte t (px 0 (k * PGSIZE)) ⟨true, { perm with u := false }, pa⟩) := by
    rw [Phys.uvmclear, hw.bind_iff, returns_modify, hmem]
  have hnf : ¬ Fixed ([px 2 (k * PGSIZE), px 1 (k * PGSIZE)] ++ [px 0 (k * PGSIZE)]) :=
    upath_not_fixed hk
  have hleaf' : o.Leaf a ([px 2 (k * PGSIZE), px 1 (k * PGSIZE)] ++ [px 0 (k * PGSIZE)])
      ⟨true, { perm with u := false }, pa⟩ := ⟨hleaf, fun x _ e => absurd (.inr e) hnf⟩
  obtain ⟨hI', hbooks⟩ := hI.setLeaf rfl ht (fun _ => hleaf') fun _ => by
    rw [hmem]
    exact ⟨rfl, rfl⟩
  exact ⟨_, hset, hI', hbooks, rfl, hI.pteOf_setLeaf hr ht, fun b r' va hb hne =>
    hI.pteOf_setLeaf_of_ne rfl ht hb hne⟩

end Inv

end Owners

end Xv6Container
