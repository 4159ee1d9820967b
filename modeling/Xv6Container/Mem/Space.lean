import Xv6Container.Mem.Walk

/-!
# Address spaces

`mappages`, `uvmunmap`, `uvmalloc`, `uvmdealloc`, `uvmcopy` and `freewalk` on the books, and which
user addresses are mapped afterwards.

* `Owners.Mapped o φ a n` : the user pages mapped in `a` are those below `n`;
* `Inv.uvmalloc`, `Inv.uvmdealloc` : the user pages below the returned size are mapped, also when
  memory runs out half way;
* `Inv.freewalk` : **a `freewalk` that returns has given back every table below the root.**
-/

namespace Xv6Container

open Function Books Phys

namespace Phys

variable {φ φ' : Phys} {r va pa n : ℕ} {perm : Perm}

/-- The pages that `sz` bytes take. -/
def pages (sz : ℕ) : ℕ := (sz + (PGSIZE - 1)) / PGSIZE

theorem pgroundup_eq (sz : ℕ) : pgroundup sz = pages sz * PGSIZE := by
  simp only [pgroundup, pages, PGSIZE]
  omega

@[simp] theorem pages_mul (k : ℕ) : pages (k * PGSIZE) = k := by
  simp only [pages, PGSIZE]
  omega

theorem pagesAfter_eq {size : ℕ} (hva : va % PGSIZE = 0) (hsize : 0 < size)
    (hmax : va + size ≤ 2 ^ 63) : pagesAfter va size = (size - 1) / PGSIZE := by
  simp only [pagesAfter, pgrounddown, PGSIZE] at hva ⊢
  omega

theorem pgrounddown_eq (hva : va % PGSIZE = 0) : pgrounddown va = va := by
  simp only [pgrounddown, PGSIZE] at hva ⊢
  omega

theorem uvmunmap_eq {doFree : Bool} {k size : ℕ} (hkn : k < n) (hn : n < 2 ^ 26)
    (hsize : pages (k * PGSIZE + size) = n) :
    uvmunmap r (k * PGSIZE) size doFree = uvmunmapFrom r doFree (n - 1 - k) (k * PGSIZE) := by
  simp only [pages, PGSIZE] at hsize
  have hcount : (size - 1) / PGSIZE = n - 1 - k := by
    simp only [PGSIZE]
    omega
  rw [uvmunmap, pgrounddown_eq (by simp), pagesAfter_eq (by simp) (by omega)
    (by simp only [PGSIZE]; omega), hcount]

theorem mappages_cases {b : Bool} (hva : va % PGSIZE = 0) (hmax : va + PGSIZE ≤ 2 ^ 63)
    (h : Returns (mappages r va PGSIZE pa perm) φ b φ') :
    (b = false ∧ Returns (walk r va true) φ none φ') ∨
      ∃ t i φ₁, b = true ∧ Returns (walk r va true) φ (some (t, i)) φ₁ ∧
        (φ₁.mem t i).v = false ∧ φ' = φ₁.setPte t i (.map pa perm) := by
  rw [mappages, pagesAfter_eq hva (by decide) hmax, pgrounddown_eq hva] at h
  replace h : Returns (mapPage r va pa perm) φ b φ' := h
  obtain ⟨res, φ₁, hw, h⟩ := returns_bind.1 h
  rcases res with _ | ⟨t, i⟩
  · obtain ⟨rfl, rfl⟩ := returns_pure.1 h
    exact .inl ⟨rfl, hw⟩
  · simp only [returns_get_bind] at h
    split at h
    · simp [returns_bind] at h
    · rename_i hv
      simp only [returns_bind, returns_modify] at h
      obtain ⟨_, _, rfl, h⟩ := h
      obtain ⟨rfl, rfl⟩ := returns_pure.1 h
      exact .inr ⟨t, i, φ₁, rfl, hw, by simpa using hv, rfl⟩

theorem unmapPage_spec {doFree : Bool} {u : Unit} (h : Returns (unmapPage r doFree va) φ u φ') :
    ∃ t i φ₁, Returns (walk r va false) φ (some (t, i)) φ ∧ (φ.mem t i).v = true ∧
      (if doFree then Freed φ φ₁ (φ.mem t i).pa else φ₁ = φ) ∧ φ' = φ₁.setPte t i .zero := by
  obtain ⟨res, φ₁, hw, h⟩ := returns_bind.1 h
  obtain rfl := walk_false hw
  rcases res with _ | ⟨t, i⟩
  · simp at h
  · simp only [returns_get_bind] at h
    split at h
    · simp [returns_bind] at h
    rename_i hv
    split at h
    · simp [returns_bind] at h
    refine ⟨t, i, ?_⟩
    cases doFree with
    | false =>
      simp only [Bool.false_eq_true, if_false, returns_modify] at h ⊢
      exact ⟨φ₁, hw, by simpa using hv, rfl, h.symm⟩
    | true =>
      simp only [if_true, returns_bind, returns_modify] at h ⊢
      obtain ⟨_, φ₂, hk, h⟩ := h
      exact ⟨φ₂, hw, by simpa using hv, (kfree_spec hk).2, h.symm⟩

theorem uvmcreate_spec (h : Returns uvmcreate φ r φ') :
    Taken φ φ' r ∧ ∀ i, (φ'.mem r i).v = false := by
  obtain ⟨pa, φ₁, hk, h⟩ := returns_bind.1 h
  rcases kalloc_cases hk with ⟨rfl, -⟩ | ⟨pa, rfl, htaken⟩
  · simp at h
  · simp only [returns_bind, returns_modify] at h
    obtain ⟨_, _, rfl, h⟩ := h
    obtain ⟨rfl, rfl⟩ := returns_pure.1 h
    exact ⟨htaken.memset 0, fun i => memset_zero_v⟩

/-! ### Paths of user addresses -/

/-- User pages lie below this page. -/
def userTop : ℕ := TRAPFRAME / PGSIZE

/-- The path to the user page `v`. -/
def upath (v : ℕ) : List (Fin 512) := vpath (v * PGSIZE)

theorem upath_length (v : ℕ) : (upath v).length = 3 := rfl

theorem px_mul (v level : ℕ) : (px level (v * PGSIZE)).val = v / 2 ^ (9 * level) % 512 := by
  simp only [px, Fin.val_ofNat, PGSIZE]
  rw [Nat.shiftRight_eq_div_pow, pow_add, ← Nat.div_div_eq_div_mul,
    show v * 4096 / 2 ^ 12 = v by omega]

theorem upath_injective {v w : ℕ} (hv : v < 2 ^ 27) (hw : w < 2 ^ 27) (h : upath v = upath w) :
    v = w := by
  simp only [upath, vpath, List.cons.injEq, Fin.ext_iff, px_mul] at h
  omega

theorem upath_not_fixed {v : ℕ} (hv : v < userTop) : ¬ Fixed (upath v) := by
  have htop : userTop = 2 ^ 26 - 2 := rfl
  have h1 : vpath TRAMPOLINE = upath (2 ^ 26 - 1) := rfl
  have h2 : vpath TRAPFRAME = upath (2 ^ 26 - 2) := rfl
  rintro (h | h)
  · rw [h1] at h
    have := upath_injective (by omega) (by omega) h
    omega
  · rw [h2] at h
    have := upath_injective (by omega) (by omega) h
    omega

end Phys

namespace Owners

variable {A B : Type} {o o' : Owners A B} {φ φ₁ φ' : Phys} {a b : A} {V : ℕ → Prop}
  {r va pa n k v : ℕ} {perm : Perm}

/-- The user pages mapped in the address space `a` are those of `V`. -/
def MappedOn (o : Owners A B) (φ : Phys) (a : A) (V : ℕ → Prop) : Prop :=
  ∀ v, v < userTop → ((o.held φ (.page a (upath v))).isSome = true ↔ V v)

/-- The user pages mapped in the address space `a` are those below `n`. -/
def Mapped (o : Owners A B) (φ : Phys) (a : A) (n : ℕ) : Prop := o.MappedOn φ a (· < n)

theorem MappedOn.congr (h : o.MappedOn φ a V)
    (hheld : ∀ v, o'.held φ' (.page b (upath v)) = o.held φ (.page a (upath v))) :
    o'.MappedOn φ' b V := fun v hv => by rw [hheld v, h v hv]

theorem MappedOn.mono {W : ℕ → Prop} (h : o.MappedOn φ a V) (hVW : ∀ v, v < userTop → (V v ↔ W v)) :
    o.MappedOn φ a W := fun v hv => (h v hv).trans (hVW v hv)

theorem le_of_held (hI : o.Inv φ)
    (h : ∀ v, v < n → v < userTop → (o.held φ (.page a (upath v))).isSome = true) :
    n ≤ PHYSTOP / PGSIZE := by
  by_contra hn
  have hlt : ∀ v : Fin (PHYSTOP / PGSIZE + 1), v.val < userTop := fun v =>
    lt_of_lt_of_le v.isLt (by decide)
  have hpage : ∀ v : Fin (PHYSTOP / PGSIZE + 1), ∃ pa, o.held φ (.page a (upath v)) = some pa :=
    fun v => Option.isSome_iff_exists.1 (h v (by omega) (hlt v))
  choose f hf using hpage
  have hvalid : ∀ v, o.ValidPage (f v) := fun v => hI.held_ok (hf v)
  let g : Fin (PHYSTOP / PGSIZE + 1) → Fin (PHYSTOP / PGSIZE) := fun v =>
    ⟨f v / PGSIZE, by
      obtain ⟨h1, -, h3⟩ := hvalid v
      simp only [PGSIZE, PHYSTOP] at h1 h3 ⊢
      omega⟩
  have hg : Injective g := by
    intro v w hvw
    have hfvw : f v = f w := by
      have h1 := (hvalid v).1
      have h2 := (hvalid w).1
      have := congrArg Fin.val hvw
      simp only [g, PGSIZE] at this h1 h2
      omega
    have hp := PagePlace.page.inj (hI.inj (hf v) (hfvw ▸ hf w))
    have hv := hlt v
    have hw := hlt w
    have htop : userTop = 2 ^ 26 - 2 := rfl
    exact Fin.ext (upath_injective (by omega) (by omega) hp.2)
  have := Fintype.card_le_of_injective g hg
  simp at this

theorem Mapped.le (h : o.Mapped φ a n) (hI : o.Inv φ) : n ≤ PHYSTOP / PGSIZE :=
  le_of_held hI fun v hv hv' => (h v hv').2 hv

theorem Mapped.lt_userTop (h : o.Mapped φ a n) (hI : o.Inv φ) : n < userTop :=
  lt_of_le_of_lt (h.le hI) (by decide)

theorem upath_notMem_tables (v : ℕ) : (.page a (upath v) : PagePlace A B) ∉ tables b := by
  rintro ⟨π, e, hlen⟩
  obtain ⟨-, rfl⟩ := PagePlace.page.inj e
  simp [upath_length] at hlen

theorem notMem_space (hab : a ≠ b) (π : List (Fin 512)) :
    (.page a π : PagePlace A B) ∉ space b := by
  rintro (⟨ρ, e⟩ | e)
  · exact hab (PagePlace.page.inj e).1
  · cases e

theorem hand_subset : ({.hand} : Set (PagePlace A B)) ⊆ space a := by
  rintro p rfl
  exact hand_mem_space a

/-- From `φ` to `φ'` pages of the address space `a` have only been given back: it holds nothing new,
and the pages it did not hold keep their contents. -/
structure Sheds (o : Owners A B) (a : A) (φ φ' : Phys) : Prop where
  held : ∀ π t, o.held φ' (.page a π) = some t → o.held φ (.page a π) = some t
  mem : ∀ t, (∀ π, o.held φ (.page a π) ≠ some t) → φ'.mem t = φ.mem t

theorem Sheds.refl (o : Owners A B) (a : A) (φ : Phys) : Sheds o a φ φ :=
  ⟨fun _ _ h => h, fun _ _ => rfl⟩

theorem Sheds.trans (h : Sheds o a φ φ₁) (h' : Sheds o a φ₁ φ') : Sheds o a φ φ' :=
  ⟨fun π t ht => h.held π t (h'.held π t ht), fun t ht => by
    rw [h'.mem t fun π e => ht π (h.held π t e), h.mem t ht]⟩

variable [DecidableEq A] [DecidableEq B]

theorem MappedOn.steps {S : Set (PagePlace A B)} (h : o.MappedOn φ a V)
    (hs : Steps S (o.books φ) (o'.books φ')) (hS : ∀ v, .page a (upath v) ∉ S) :
    o'.MappedOn φ' a V := h.congr fun v => hs.held_of_notMem (hS v)

namespace Inv

variable {ok : Bool} {u : Unit} {newsz sz : ℕ}

theorem sheds_unlink {π : List (Fin 512)} {t c : ℕ} {i : Fin 512} (hI : o.Inv φ)
    (hπ : π.length ≤ 2) (ht : o.held φ (.page a π) = some t) (hf : ¬ Fixed (π ++ [i]))
    (hc : o.held φ (.page a (π ++ [i])) = some c)
    (hbelow : ∀ j ρ, o.held φ (.page a (π ++ i :: j :: ρ)) = none) (h : Freed φ φ₁ c) :
    Sheds o a φ (φ₁.setPte t i .zero) := by
  obtain ⟨-, hmove, hnone⟩ := hI.unlink hπ ht hf hc hbelow h
  refine ⟨fun ρ t' ht' => ?_, fun t' ht' => ?_⟩
  · by_cases hρ : ρ = π ++ [i]
    · rw [hρ, hnone] at ht'
      cases ht'
    · rw [← ht']
      exact (hmove.held_of_notMem (p := .page a ρ) (by simpa using hρ)).symm
  · have hne : t' ≠ t := fun e => ht' π (e ▸ ht)
    funext j
    rw [setPte_mem_of_ne fun e => hne e.1, h.mem t' fun e => ht' _ (e ▸ hc)]

section

variable (hI : o.Inv φ) (hr : o.root a = some r)

include hI hr

theorem mappages_hand (hhand : o.hand = some pa) (hv : v < userTop) (hperm : perm.leaf = true)
    (h : Returns (mappages r (v * PGSIZE) PGSIZE pa perm) φ ok φ') :
    (ok = false ∧ o.Inv φ' ∧ Steps (tables a) (o.books φ) (o.books φ')) ∨
      (ok = true ∧ Inv { o with hand := none } φ' ∧
        Steps (space a) (o.books φ) (books { o with hand := none } φ') ∧
        ∀ w, w < userTop → (held { o with hand := none } φ' (.page a (upath w)) =
          if w = v then some pa else o.held φ (.page a (upath w)))) := by
  have htop : userTop = 2 ^ 26 - 2 := rfl
  have hmax : v * PGSIZE + PGSIZE ≤ 2 ^ 63 := by
    simp only [PGSIZE]
    omega
  rcases mappages_cases (by simp) hmax h with ⟨rfl, hw⟩ | ⟨t, i, φ₁, rfl, hw, hvalid, rfl⟩
  · obtain ⟨-, hI', hs, -⟩ := hI.walk hr hw
    exact .inl ⟨rfl, hI', hs⟩
  · obtain ⟨-, hI1, hs, hres⟩ := hI.walk hr hw
    obtain ⟨ht, rfl⟩ := hres t i rfl
    obtain ⟨hI2, hmove, hpa⟩ := hI1.mapHand hhand rfl ht hvalid (upath_not_fixed hv) hperm
    have hsub : ({.hand, .page a (upath v)} : Set (PagePlace A B)) ⊆ space a := by
      rintro p (rfl | rfl)
      · exact hand_mem_space a
      · exact page_mem_space a _
    refine .inr ⟨rfl, hI2, (hs.mono (tables_subset a)).trans (hmove.mono hsub).steps,
      fun w hw => ?_⟩
    split
    · rename_i e
      subst e
      exact hpa
    · rename_i hne
      refine (hmove.held_of_notMem ?_).trans (hs.held_of_notMem (upath_notMem_tables w))
      rintro (e | e)
      · cases e
      · exact hne (upath_injective (by omega) (by omega) (PagePlace.page.inj e).2)

theorem mappages_fixed (hva : va % PGSIZE = 0) (hmax : va + PGSIZE ≤ 2 ^ 63)
    (hfixed : Fixed (vpath va)) (hperm : perm.leaf = true)
    (htf : ∀ x, o.tf a = some x → vpath va = vpath TRAPFRAME → pgrounddown pa = x)
    (h : Returns (mappages r va PGSIZE pa perm) φ ok φ') :
    o.Inv φ' ∧ Steps (tables a) (o.books φ) (o.books φ') := by
  rcases mappages_cases hva hmax h with ⟨rfl, hw⟩ | ⟨t, i, φ₁, rfl, hw, hvalid, rfl⟩
  · obtain ⟨-, hI', hs, -⟩ := hI.walk hr hw
    exact ⟨hI', hs⟩
  · obtain ⟨-, hI1, hs, hres⟩ := hI.walk hr hw
    obtain ⟨ht, rfl⟩ := hres t i rfl
    have hleaf : o.Leaf a (vpath va) (.map pa perm) := ⟨hperm, htf⟩
    obtain ⟨hI2, hb⟩ := hI1.setLeaf (i := px 0 va) rfl ht (fun _ => hleaf)
      (fun hn => absurd hfixed hn)
    exact ⟨hI2, hb ▸ hs⟩

theorem unmapPage (hm : o.MappedOn φ a V) (hk : k < userTop)
    (h : Returns (Phys.unmapPage r true (k * PGSIZE)) φ u φ') :
    V k ∧ o.Inv φ' ∧ Steps (space a) (o.books φ) (o.books φ') ∧
      o.MappedOn φ' a (fun v => V v ∧ v ≠ k) ∧ o.Sheds a φ φ' := by
  obtain ⟨t, i, φ₁, hw, hv, hfreed, rfl⟩ := unmapPage_spec h
  obtain ⟨-, -, -, hres⟩ := hI.walk hr hw
  obtain ⟨ht, rfl⟩ := hres t i rfl
  have hf : ¬ Fixed (upath k) := upath_not_fixed hk
  have hpage : o.held φ (.page a (upath k)) = some (φ.mem t (px 0 (k * PGSIZE))).pa := by
    have := held_child (a := a) (o := o) (i := px 0 (k * PGSIZE)) (by simp) hf ht
    rw [upath, vpath]
    exact this.trans (by rw [next, if_pos hv])
  have hbelow : ∀ j ρ, o.held φ (.page a ([px 2 (k * PGSIZE), px 1 (k * PGSIZE)] ++
      px 0 (k * PGSIZE) :: j :: ρ)) = none := fun j ρ => held_page_eq_none (.inl (by simp))
  obtain ⟨hI', hmove, hnone⟩ := hI.unlink (by simp) ht hf hpage hbelow hfreed
  have hsub : ({.page a (upath k)} : Set (PagePlace A B)) ⊆ space a := by
    rintro p rfl
    exact page_mem_space a _
  refine ⟨(hm k hk).1 (by rw [hpage]; rfl), hI', (hmove.mono hsub).steps, fun v hv' => ?_,
    hI.sheds_unlink (by simp) ht hf hpage hbelow hfreed⟩
  by_cases hvk : v = k
  · subst hvk
    have hnone' : o.held (φ₁.setPte t (px 0 (v * PGSIZE)) .zero) (.page a (upath v)) = none := hnone
    simp [hnone']
  · have htop : userTop = 2 ^ 26 - 2 := rfl
    have hout : (.page a (upath v) : PagePlace A B) ∉
        ({.page a (upath k)} : Set (PagePlace A B)) := by
      rintro e
      exact hvk (upath_injective (by omega) (by omega) (PagePlace.page.inj e).2)
    have heq : o.held (φ₁.setPte t (px 0 (k * PGSIZE)) .zero) (.page a (upath v)) =
        o.held φ (.page a (upath v)) := hmove.held_of_notMem hout
    rw [heq, hm v hv']
    simp [hvk]

theorem uvmunmapFrom (hm : o.MappedOn φ a V) (hk : k + n < userTop)
    (h : Returns (Phys.uvmunmapFrom r true n (k * PGSIZE)) φ u φ') :
    o.Inv φ' ∧ Steps (space a) (o.books φ) (o.books φ') ∧
      o.MappedOn φ' a (fun v => V v ∧ ¬ (k ≤ v ∧ v ≤ k + n)) ∧ o.Sheds a φ φ' := by
  induction n generalizing φ k V with
  | zero =>
    obtain ⟨-, hI', hs, hm', hshed⟩ := hI.unmapPage hr hm (by omega) h
    exact ⟨hI', hs, hm'.mono fun v _ => and_congr_right fun _ => by omega, hshed⟩
  | succ n ih =>
    obtain ⟨_, φ₁, h1, h2⟩ := returns_bind.1 h
    obtain ⟨-, hI1, hs1, hm1, hshed1⟩ := hI.unmapPage hr hm (by omega) h1
    rw [← Nat.succ_mul] at h2
    obtain ⟨hI', hs', hm', hshed'⟩ := ih hI1 hm1 (by omega) h2
    refine ⟨hI', hs1.trans hs', hm'.mono fun v _ => ?_, hshed1.trans hshed'⟩
    rw [and_assoc]
    exact and_congr_right fun _ => by omega

theorem not_uvmunmap_zero (hm : o.Mapped φ a 0) : ¬ Returns (Phys.uvmunmap r 0 0 true) φ u φ' := by
  intro h
  have hturn : ∃ ψ, Returns (Phys.unmapPage r true (0 * PGSIZE)) φ () ψ := by
    rw [Phys.uvmunmap, show pgrounddown 0 = 0 * PGSIZE from rfl] at h
    cases hn : pagesAfter 0 0 with
    | zero => exact absurd hn (by decide)
    | succ m =>
      rw [hn] at h
      obtain ⟨_, ψ, h1, -⟩ := returns_bind.1 h
      exact ⟨ψ, h1⟩
  obtain ⟨ψ, hψ⟩ := hturn
  exact absurd (hI.unmapPage hr hm (by decide) hψ).1 (Nat.lt_irrefl 0)

theorem uvmunmap {size : ℕ} (hm : o.Mapped φ a n) (hkn : k < n)
    (hsize : pages (k * PGSIZE + size) = n)
    (h : Returns (Phys.uvmunmap r (k * PGSIZE) size true) φ u φ') :
    o.Inv φ' ∧ Steps (space a) (o.books φ) (o.books φ') ∧ o.Mapped φ' a k := by
  have hn := hm.lt_userTop hI
  have htop : userTop = 2 ^ 26 - 2 := rfl
  rw [uvmunmap_eq hkn (by omega) hsize] at h
  obtain ⟨hI', hs, hm', -⟩ := hI.uvmunmapFrom hr hm (by omega) h
  exact ⟨hI', hs, hm'.mono fun v _ => by omega⟩

theorem uvmdealloc {oldsz : ℕ} (hm : o.Mapped φ a (pages oldsz))
    (h : Returns (Phys.uvmdealloc r oldsz newsz) φ sz φ') :
    sz = min oldsz newsz ∧ o.Inv φ' ∧ Steps (space a) (o.books φ) (o.books φ') ∧
      o.Mapped φ' a (pages sz) := by
  simp only [Phys.uvmdealloc] at h
  split at h
  · rename_i hle
    obtain ⟨rfl, rfl⟩ := returns_pure.1 h
    exact ⟨by omega, hI, .refl, hm⟩
  · rename_i hlt
    rw [pgroundup_eq, pgroundup_eq] at h
    split at h
    · rename_i hup
      obtain ⟨_, φ₁, h1, h2⟩ := returns_bind.1 h
      obtain ⟨rfl, rfl⟩ := returns_pure.1 h2
      have hk : pages newsz < pages oldsz := Nat.lt_of_mul_lt_mul_right hup
      have hsize : pages (pages newsz * PGSIZE + (oldsz - pages newsz * PGSIZE)) = pages oldsz := by
        simp only [pages, PGSIZE] at hk ⊢
        omega
      exact ⟨by omega, hI.uvmunmap hr hm hk hsize h1⟩
    · rename_i hup
      obtain ⟨rfl, rfl⟩ := returns_pure.1 h
      have hk : pages oldsz = pages newsz := by
        simp only [pages, PGSIZE] at hup ⊢
        omega
      exact ⟨by omega, hI, .refl, hk ▸ hm⟩

theorem mappages_taken (hhand : o.hand = none) (hm : o.Mapped φ a k) (htaken : Taken φ φ₁ pa)
    (hperm : perm.leaf = true) (h : Returns (mappages r (k * PGSIZE) PGSIZE pa perm) φ₁ ok φ') :
    (ok = true ∧ o.Inv φ' ∧ Steps (space a) (o.books φ) (o.books φ') ∧ o.Mapped φ' a (k + 1)) ∨
      (ok = false ∧ ∀ u φ₂, Returns (kfree pa) φ' u φ₂ →
        o.Inv φ₂ ∧ Steps (space a) (o.books φ) (o.books φ₂) ∧ o.Mapped φ₂ a k) := by
  have ho : ({ o with hand := none } : Owners A B) = o := by
    rw [← hhand]
  have hk := hm.lt_userTop hI
  obtain ⟨hI1, hmove1⟩ := hI.take htaken hhand
  have hs1 := (hmove1.mono (hand_subset (a := a))).steps
  rcases hI1.mappages_hand hr rfl hk hperm h with ⟨rfl, hI2, hs2⟩ | ⟨rfl, hI2, hs2, hheld⟩
  · refine .inr ⟨rfl, fun u φ₂ hfree => ?_⟩
    obtain ⟨hI3, hmove3⟩ := hI2.give (kfree_spec hfree).2 rfl
    have hs3 := hmove3.mono (hand_subset (a := a))
    dsimp only at hI3 hs3 hmove3
    rw [ho] at hI3 hs3 hmove3
    refine ⟨hI3, (hs1.trans (hs2.mono (tables_subset a))).trans hs3.steps, ?_⟩
    refine hm.congr fun v => ?_
    have h1 := hmove1.held_of_notMem (p := .page a (upath v)) (by simp)
    have h2 := hs2.held_of_notMem (upath_notMem_tables (a := a) v)
    have h3 := hmove3.held_of_notMem (p := .page a (upath v)) (by simp)
    exact h3.trans (h2.trans h1)
  · dsimp only at hI2 hs2 hheld
    rw [ho] at hI2 hs2 hheld
    refine .inl ⟨rfl, hI2, hs1.trans hs2, fun v hv => ?_⟩
    rw [hheld v hv]
    split
    · simp; omega
    · have h1 := hmove1.held_of_notMem (p := .page a (upath v)) (by simp)
      simp only [books] at h1
      rw [h1, hm v hv]
      omega

/-- A turn of a loop that maps a new page: it is mapped, or the loop gives up. -/
theorem turn {α : Type} {x : α} {good bad : PhysM α} {fill : ℕ → Phys → Phys}
    (hhand : o.hand = none) (hm : o.Mapped φ a k) (hperm : perm.leaf = true)
    (hfill : ∀ {φ₁ pa}, Taken φ φ₁ pa → Taken φ (fill pa φ₁) pa)
    (h : Returns (do
      match ← kalloc with
      | none => bad
      | some pa =>
        modify (fill pa)
        if ← mappages r (k * PGSIZE) PGSIZE pa perm then good else do kfree pa; bad) φ x φ') :
    ∃ φ₁, o.Inv φ₁ ∧ Steps (space a) (o.books φ) (o.books φ₁) ∧
      (o.Mapped φ₁ a (k + 1) ∧ Returns good φ₁ x φ' ∨ o.Mapped φ₁ a k ∧ Returns bad φ₁ x φ') := by
  obtain ⟨mem, φ₁, hk1, h⟩ := returns_bind.1 h
  rcases kalloc_cases hk1 with ⟨rfl, hfree, hmem, hend⟩ | ⟨pa, rfl, htaken⟩
  · obtain ⟨hI1, hb⟩ := hI.congr hfree hmem hend
    exact ⟨φ₁, hI1, hb ▸ .refl, .inr ⟨hm.congr fun v => by rw [held_eq_of_mem hmem], h⟩⟩
  · simp only [returns_bind, returns_modify] at h
    obtain ⟨_, _, rfl, ok, φ₂, h2, h⟩ := h
    rcases hI.mappages_taken hr hhand hm (hfill htaken) hperm h2 with
      ⟨rfl, hI2, hs2, hm2⟩ | ⟨rfl, hfail⟩
    · exact ⟨φ₂, hI2, hs2, .inl ⟨hm2, h⟩⟩
    · obtain ⟨_, φ₃, h3, h⟩ := returns_bind.1 h
      obtain ⟨hI3, hs3, hm3⟩ := hfail _ _ h3
      exact ⟨φ₃, hI3, hs3, .inr ⟨hm3, h⟩⟩

/-- The loop of `uvmalloc`. -/
theorem uvmallocFrom {k₀ : ℕ} (hhand : o.hand = none) (hm : o.Mapped φ a k) (hk : k₀ ≤ k)
    (h : Returns (Phys.uvmallocFrom r (k₀ * PGSIZE) newsz n (k * PGSIZE)) φ sz φ') :
    o.Inv φ' ∧ Steps (space a) (o.books φ) (o.books φ') ∧
      (sz = 0 ∧ o.Mapped φ' a k₀ ∨ sz = newsz ∧ o.Mapped φ' a (k + n)) := by
  -- giving the pages from `k₀` up back, at whatever turn memory runs out
  have hback : ∀ {φ₁ φ₂ : Phys} {k : ℕ}, k₀ ≤ k → o.Inv φ₁ → o.Mapped φ₁ a k →
      Returns (do let _ ← Phys.uvmdealloc r (k * PGSIZE) (k₀ * PGSIZE); return 0) φ₁ sz φ₂ →
      o.Inv φ₂ ∧ Steps (space a) (o.books φ₁) (o.books φ₂) ∧ (sz = 0 ∧ o.Mapped φ₂ a k₀) := by
    intro φ₁ φ₂ k hk hI1 hm1 h
    obtain ⟨sz', φ₃, h1, h2⟩ := returns_bind.1 h
    obtain ⟨rfl, rfl⟩ := returns_pure.1 h2
    obtain ⟨rfl, hI3, hs, hm3⟩ := hI1.uvmdealloc hr (by rwa [pages_mul]) h1
    rw [Nat.min_eq_right (Nat.mul_le_mul_right _ hk), pages_mul] at hm3
    exact ⟨hI3, hs, rfl, hm3⟩
  induction n generalizing φ k with
  | zero =>
    obtain ⟨rfl, rfl⟩ := returns_pure.1 h
    exact ⟨hI, .refl, .inr ⟨rfl, hm⟩⟩
  | succ n ih =>
    obtain ⟨φ₁, hI1, hs1, ⟨hm1, h⟩ | ⟨hm1, h⟩⟩ := hI.turn hr hhand hm rfl (·.memset 0) h
    · rw [← Nat.succ_mul] at h
      obtain ⟨hI', hs', hres⟩ := ih hI1 hm1 (by omega) h
      rw [show k + 1 + n = k + (n + 1) by omega] at hres
      exact ⟨hI', hs1.trans hs', hres⟩
    · obtain ⟨hI', hs', hm'⟩ := hback hk hI1 hm1 h
      exact ⟨hI', hs1.trans hs', .inl hm'⟩

theorem uvmalloc {oldsz : ℕ} (hhand : o.hand = none) (hm : o.Mapped φ a (pages oldsz))
    (h : Returns (Phys.uvmalloc r oldsz newsz) φ sz φ') :
    o.Inv φ' ∧ Steps (space a) (o.books φ) (o.books φ') ∧
      (sz = 0 ∧ o.Mapped φ' a (pages oldsz) ∨ sz = max oldsz newsz ∧ o.Mapped φ' a (pages sz)) := by
  simp only [Phys.uvmalloc, uvmallocWith] at h
  split at h
  · obtain ⟨rfl, rfl⟩ := returns_pure.1 h
    exact ⟨hI, .refl, .inr ⟨by omega, hm⟩⟩
  · rename_i hle
    rw [pgroundup_eq] at h
    obtain ⟨hI', hs, hres⟩ := hI.uvmallocFrom hr hhand hm le_rfl h
    refine ⟨hI', hs, hres.imp_right ?_⟩
    rintro ⟨rfl, hm'⟩
    refine ⟨by omega, ?_⟩
    have hpages : pages oldsz + (sz + (PGSIZE - 1) - pages oldsz * PGSIZE) / PGSIZE = pages sz := by
      simp only [pages, PGSIZE]
      omega
    rwa [hpages] at hm'

/-- The loop of `uvmcopy`. -/
theorem uvmcopyFrom {old : ℕ} (hold : o.root b = some old) (hhand : o.hand = none)
    (hm : o.Mapped φ a k) (h : Returns (Phys.uvmcopyFrom old r n (k * PGSIZE)) φ ok φ') :
    o.Inv φ' ∧ Steps (space a) (o.books φ) (o.books φ') ∧
      o.Mapped φ' a (if ok then k + n else 0) := by
  -- taking back what has been copied; with nothing copied the code panics
  have hback : ∀ {φ₁ φ₂ : Phys} {k : ℕ}, o.Inv φ₁ → o.Mapped φ₁ a k →
      Returns (do Phys.uvmunmap r 0 (k * PGSIZE) true; return false) φ₁ ok φ₂ →
      ok = false ∧ o.Inv φ₂ ∧ Steps (space a) (o.books φ₁) (o.books φ₂) ∧ o.Mapped φ₂ a 0 := by
    intro φ₁ φ₂ k hI1 hm1 h
    obtain ⟨_, φ₃, h1, h2⟩ := returns_bind.1 h
    obtain ⟨rfl, rfl⟩ := returns_pure.1 h2
    refine ⟨rfl, ?_⟩
    cases k with
    | zero =>
      rw [Nat.zero_mul] at h1
      exact absurd h1 (hI1.not_uvmunmap_zero hr hm1)
    | succ k =>
      rw [← Nat.zero_mul PGSIZE] at h1
      have hsize : pages (0 * PGSIZE + (k + 1) * PGSIZE) = k + 1 := by
        rw [Nat.zero_mul, Nat.zero_add, pages_mul]
      exact hI1.uvmunmap hr hm1 (Nat.succ_pos k) hsize h1
  induction n generalizing φ k with
  | zero =>
    obtain ⟨rfl, rfl⟩ := returns_pure.1 h
    exact ⟨hI, .refl, hm⟩
  | succ n ih =>
    obtain ⟨res, _, hw, h⟩ := returns_bind.1 h
    obtain rfl := walk_false hw
    rcases res with _ | ⟨t, i⟩
    · simp at h
    obtain ⟨-, -, -, hres⟩ := hI.walk hold hw
    obtain ⟨ht, rfl⟩ := hres t i rfl
    simp only [returns_get_bind] at h
    split at h
    · simp [returns_bind] at h
    rename_i hv
    have hperm := (hI.leaves _ rfl ht (by simpa using hv)).1
    obtain ⟨φ₁, hI1, hs1, ⟨hm1, h⟩ | ⟨hm1, h⟩⟩ := hI.turn hr hhand hm hperm id h
    · rw [← Nat.succ_mul] at h
      obtain ⟨hI', hs', hm'⟩ := ih hI1 hm1 h
      rw [show k + 1 + n = k + (n + 1) by omega] at hm'
      exact ⟨hI', hs1.trans hs', hm'⟩
    · obtain ⟨rfl, hI', hs', hm'⟩ := hback hI1 hm1 h
      exact ⟨hI', hs1.trans hs', hm'⟩

theorem uvmcopy {old : ℕ} (hold : o.root b = some old) (hhand : o.hand = none) (hm : o.Mapped φ a 0)
    (h : Returns (Phys.uvmcopy old r sz) φ ok φ') :
    o.Inv φ' ∧ Steps (space a) (o.books φ) (o.books φ') ∧
      o.Mapped φ' a (if ok then pages sz else 0) := by
  rw [Phys.uvmcopy, ← Nat.zero_mul PGSIZE] at h
  have := hI.uvmcopyFrom hr hold hhand hm h
  rwa [Nat.zero_add] at this

end

/-! ### Making and freeing page tables -/

/-- A page without entries becomes the root of an address space. -/
theorem newRoot (hI : o.Inv φ) (hr : o.root a = none) (htaken : Taken φ φ₁ r)
    (hzero : ∀ i, (φ₁.mem r i).v = false) :
    Inv { o with root := update o.root a (some r) } φ₁ ∧
      Move {.page a []} (o.books φ) (books { o with root := update o.root a (some r) } φ₁) ∧
      Mapped { o with root := update o.root a (some r) } φ₁ a 0 := by
  have hnone : ∀ π, o.held φ (.page a π) = none := fun π => by simp [held, hr]
  have hempty : ∀ π, π ≠ [] →
      held { o with root := update o.root a (some r) } φ₁ (.page a π) = none := by
    intro π hπ
    rw [held]
    split
    · have hnone : descend (next φ₁.mem) r π = none :=
        descend_eq_none (fun i => next_eq_none.2 (hzero i)) hπ
      simp [hnone]
    · rfl
  have hheld : held { o with root := update o.root a (some r) } φ₁ =
      update (o.held φ) (.page a []) (some r) := by
    have hold := hI.held_taken htaken
    funext p
    cases p with
    | other b => exact congrFun hold (.other b)
    | hand => exact congrFun hold .hand
    | page b π =>
      by_cases hb : b = a
      · subst hb
        by_cases hπ : π = []
        · subst hπ
          rw [update_self, held_root]
          exact update_self ..
        · rw [hempty π hπ, update_of_ne (by simpa using hπ), hnone]
      · rw [update_of_ne (by simp [hb]), ← congrFun hold (.page b π)]
        simp [held, hb]
  have hmove : Move {.page a []} (o.books φ)
      (books { o with root := update o.root a (some r) } φ₁) :=
    .take (.page a []) r rfl (hnone []) htaken.free hheld
  refine ⟨⟨htaken.kernelEnd.trans hI.kernelEnd, hmove.sound hI.sound, fun b π t k hπ ht hv => ?_⟩,
    hmove, fun v _ => ?_⟩
  · have hne : (.page b π : PagePlace A B) ≠ .page a [] := by
      rintro e
      obtain ⟨-, rfl⟩ := PagePlace.page.inj e
      cases hπ
    rw [hheld, update_of_ne hne] at ht
    have hne' : t ≠ r := fun e => hI.not_held_of_taken htaken _ (e ▸ ht)
    rw [htaken.mem t hne'] at hv ⊢
    exact hI.leaves k hπ ht hv
  · have := hempty (upath v) (by simp [upath, vpath])
    simp [this]

/-- The places below a table. -/
def below (a : A) (π : List (Fin 512)) : Set (PagePlace A B) :=
  {p | ∃ j ρ, p = .page a (π ++ j :: ρ)}

omit [DecidableEq A] [DecidableEq B] in
theorem notMem_below (π : List (Fin 512)) : (.page a π : PagePlace A B) ∉ below a π := by
  rintro ⟨j, ρ, e⟩
  have := congrArg List.length (PagePlace.page.inj e).2
  simp at this

/-- **A `freewalk` that returns has given back every table below**, and then the table itself. -/
theorem freewalk {n : ℕ} {π : List (Fin 512)} {t : ℕ} (hI : o.Inv φ)
    (hπ : π.length ≤ 2) (ht : o.held φ (.page a π) = some t)
    (h : Returns (Phys.freewalk n t) φ u φ') :
    ∃ φ₁, o.Inv φ₁ ∧ Steps (below a π) (o.books φ) (o.books φ₁) ∧
      (∀ i, (φ₁.mem t i).v = false) ∧ Freed φ₁ φ' t ∧ Sheds o a φ φ₁ := by
  induction n generalizing π t φ φ' u with
  | zero => simp [Phys.freewalk] at h
  | succ n ih =>
    simp only [Phys.freewalk] at h
    obtain ⟨_, φ₁, hloop, hfree⟩ := returns_bind.1 h
    suffices hI1 : o.Inv φ₁ ∧ Steps (below a π) (o.books φ) (o.books φ₁) ∧ Sheds o a φ φ₁ ∧
        ∀ i ∈ List.finRange 512, (φ₁.mem t i).v = false from
      ⟨φ₁, hI1.1, hI1.2.1, fun i => hI1.2.2.2 i (List.mem_finRange i), (kfree_spec hfree).2,
        hI1.2.2.1⟩
    refine hloop.forM_invariant (fun xs ψ => o.Inv ψ ∧ Steps (below a π) (o.books φ) (o.books ψ) ∧
      Sheds o a φ ψ ∧ ∀ i ∈ xs, (ψ.mem t i).v = false) ⟨hI, .refl, .refl o a φ, by simp⟩ ?_
    rintro xs i ys ψ ψ' - ⟨hIψ, hs, hsheds, hdone⟩ hbody
    have htψ : o.held ψ (.page a π) = some t :=
      (hs.held_of_notMem (notMem_below π)).trans ht
    simp only [returns_get_bind] at hbody
    split at hbody
    · -- the entry points to a lower table, so `t` is not a lowest one
      rename_i hv
      obtain ⟨hv, hleaf⟩ := Bool.and_eq_true_iff.1 hv
      have hπ' : π.length ≤ 1 := by
        by_contra hlen
        have := (hIψ.leaves i (by omega) htψ hv).1
        simp [this] at hleaf
      have hnf : ∀ j, ¬ Fixed (π ++ [j]) := fun j => not_fixed (by simp; omega)
      simp only [returns_bind, returns_modify] at hbody
      obtain ⟨_, ψ₂, hchild, rfl⟩ := hbody
      have hc : o.held ψ (.page a (π ++ [i])) = some (ψ.mem t i).pa := by
        rw [held_child hπ (hnf i) htψ, next, if_pos hv]
      obtain ⟨ψ₁, hI1, hs1, hempty, hfreed, hsheds1⟩ := ih hIψ (by simp; omega) hc hchild
      have hc1 : o.held ψ₁ (.page a (π ++ [i])) = some (ψ.mem t i).pa :=
        (hs1.held_of_notMem (notMem_below _)).trans hc
      have hout : ∀ ρ, ¬ π ++ [i] <+: ρ → (.page a ρ : PagePlace A B) ∉ below a (π ++ [i]) := by
        rintro ρ hρ ⟨j, σ, e⟩
        exact hρ ⟨j :: σ, (PagePlace.page.inj e).2.symm⟩
      have ht1 : o.held ψ₁ (.page a π) = some t := by
        refine (hs1.held_of_notMem (hout π fun hp => ?_)).trans htψ
        have := hp.length_le
        simp at this
      have hbelow : ∀ j ρ, o.held ψ₁ (.page a (π ++ i :: j :: ρ)) = none := fun j ρ => by
        have := held_below_of_invalid (ρ := ρ) (by simp; omega) hc1 (hempty j)
        simpa using this
      obtain ⟨hI2, hmove, hnone⟩ := hI1.unlink hπ ht1 (hnf i) hc1 hbelow hfreed
      have ht2 : o.held (ψ₂.setPte t i .zero) (.page a π) = some t := by
        rw [← ht1]
        exact hmove.held_of_notMem (p := .page a π) (by simp)
      have hsub1 : (below a (π ++ [i]) : Set (PagePlace A B)) ⊆ below a π := by
        rintro p ⟨j, ρ, rfl⟩
        exact ⟨i, j :: ρ, by simp⟩
      have hsub2 : ({.page a (π ++ [i])} : Set (PagePlace A B)) ⊆ below a π := by
        rintro p rfl
        exact ⟨i, [], rfl⟩
      have hsheds2 := hI1.sheds_unlink hπ ht1 (hnf i) hc1 hbelow hfreed
      refine ⟨hI2, (hs.trans (hs1.mono hsub1)).trans (hmove.mono hsub2).steps,
        (hsheds.trans hsheds1).trans hsheds2, fun j hj => ?_⟩
      rw [← next_eq_none, ← held_child hπ (hnf j) ht2]
      by_cases hji : j = i
      · exact hji ▸ hnone
      · have hj' : j ∈ xs := by simpa [hji] using hj
        have hstep := hmove.held_of_notMem (p := .page a (π ++ [j])) (by simp [hji])
        have hstep1 := hs1.held_of_notMem (hout (π ++ [j]) (by simp [Ne.symm hji]))
        exact hstep.trans (hstep1.trans (held_below_of_invalid hπ htψ (hdone j hj')))
    · split at hbody
      · simp at hbody
      · rename_i hv
        obtain ⟨-, rfl⟩ := returns_pure.1 hbody
        refine ⟨hIψ, hs, hsheds, fun j hj => ?_⟩
        rcases List.mem_append.1 hj with hj | hj
        · exact hdone j hj
        · obtain rfl := List.mem_singleton.1 hj
          simpa using hv

section

variable (hI : o.Inv φ) (hr : o.root a = some r)

include hI hr

/-- The root of an address space without other tables is given back. -/
theorem freeRoot (hzero : ∀ i, (φ.mem r i).v = false) (hfreed : Freed φ φ₁ r) :
    Inv { o with root := update o.root a none } φ₁ ∧
      Move {.page a []} (o.books φ) (books { o with root := update o.root a none } φ₁) := by
  have hroot : o.held φ (.page a []) = some r := by rw [held_root, hr]
  have hnone : ∀ φ π, held { o with root := update o.root a none } φ (.page a π) = none :=
    fun φ π => by simp [held]
  have hsame : ∀ φ b π, b ≠ a → held { o with root := update o.root a none } φ (.page b π) =
      o.held φ (.page b π) := fun φ b π hb => by simp [held, hb]
  have hno : ∀ p, held { o with root := update o.root a none } φ p ≠ some r := by
    intro p hp
    cases p with
    | other b => exact absurd (hI.inj (p := .other b) hp hroot) (by simp)
    | hand => exact absurd (hI.inj (p := .hand) hp hroot) (by simp)
    | page b π =>
      by_cases hb : b = a
      · rw [hb, hnone] at hp
        cases hp
      · rw [hsame φ b π hb] at hp
        exact hb (PagePlace.page.inj (hI.inj hp hroot)).1
  have hheld : held { o with root := update o.root a none } φ₁ =
      update (o.held φ) (.page a []) none := by
    rw [held_eq_of_off hfreed.mem hno]
    funext p
    cases p with
    | other b => rfl
    | hand => rfl
    | page b π =>
      by_cases hb : b = a
      · subst hb
        rw [hnone]
        cases π with
        | nil => rw [update_self]
        | cons i π =>
          rw [update_of_ne (by simp)]
          exact (held_below_of_invalid (π := []) (by simp) hroot (hzero i)).symm
      · rw [hsame φ b π hb, update_of_ne (by simp [hb])]
  have hmove : Move {.page a []} (o.books φ) (books { o with root := update o.root a none } φ₁) :=
    .give (.page a []) r rfl hroot hfreed.free hheld
  refine ⟨⟨hfreed.kernelEnd.trans hI.kernelEnd, hmove.sound hI.sound, fun b π t k hπ ht hv => ?_⟩,
    hmove⟩
  rw [hheld] at ht
  obtain ⟨hp, ht⟩ := update_none_le (b := o.books φ) _ _ _ ht
  have hne : t ≠ r := fun e => hp (hI.inj (e ▸ ht) hroot)
  rw [hfreed.mem t hne] at hv ⊢
  exact hI.leaves k hπ ht hv

theorem uvmunmap_fixed (hva : va % PGSIZE = 0) (hmax : va + PGSIZE ≤ 2 ^ 63)
    (hfixed : Fixed (vpath va)) (h : Returns (Phys.uvmunmap r va PGSIZE false) φ u φ') :
    o.Inv φ' ∧ o.books φ' = o.books φ ∧ o.Sheds a φ φ' := by
  rw [Phys.uvmunmap, pagesAfter_eq hva (by decide) hmax, pgrounddown_eq hva] at h
  replace h : Returns (Phys.unmapPage r false va) φ u φ' := h
  obtain ⟨t, i, φ₁, hw, -, hfreed, rfl⟩ := unmapPage_spec h
  simp only [Bool.false_eq_true, if_false] at hfreed
  subst hfreed
  obtain ⟨-, -, -, hres⟩ := hI.walk hr hw
  obtain ⟨ht, rfl⟩ := hres t i rfl
  obtain ⟨hI', hbooks⟩ : o.Inv (φ₁.setPte t (px 0 va) .zero) ∧ _ :=
    hI.setLeaf rfl ht (fun hv => by simp at hv) fun hn => absurd hfixed hn
  refine ⟨hI', hbooks, fun π t' ht' => ?_, fun t' ht' => ?_⟩
  · rwa [show o.held (φ₁.setPte t (px 0 va) .zero) = o.held φ₁ from congrArg Books.held hbooks]
      at ht'
  · funext j
    exact setPte_mem_of_ne fun e => ht' _ (e.1 ▸ ht)

theorem uvmfree (hm : o.Mapped φ a (pages sz)) (hsz : 0 < sz)
    (h : Returns (Phys.uvmfree r sz) φ u φ') : Inv { o with root := update o.root a none } φ' ∧
      Steps (space a) (o.books φ) (books { o with root := update o.root a none } φ') ∧
      ∀ t, (∀ π, o.held φ (.page a π) ≠ some t) → φ'.mem t = φ.mem t := by
  have hn := hm.lt_userTop hI
  have htop : userTop = 2 ^ 26 - 2 := rfl
  obtain ⟨_, φ₁, h1, h2⟩ := returns_bind.1 h
  rw [← Nat.zero_mul PGSIZE] at h1
  have hpos : 0 < pages sz := by
    simp only [pages, PGSIZE]
    omega
  rw [uvmunmap_eq hpos (by omega) (by rw [Nat.zero_mul, Nat.zero_add])] at h1
  obtain ⟨hI1, hs1, -, hshed1⟩ := hI.uvmunmapFrom hr hm (by omega) h1
  obtain ⟨φ₂, hI2, hs2, hzero, hfreed, hshed2⟩ := hI1.freewalk (π := []) (by simp)
    (by rw [held_root, hr]) h2
  obtain ⟨hI', hmove⟩ := hI2.freeRoot hr hzero hfreed
  have hsub1 : (below a [] : Set (PagePlace A B)) ⊆ space a := by
    rintro p ⟨j, ρ, rfl⟩
    exact page_mem_space a _
  have hsub2 : ({.page a []} : Set (PagePlace A B)) ⊆ space a := by
    rintro p rfl
    exact page_mem_space a _
  refine ⟨hI', (hs1.trans (hs2.mono hsub1)).trans (hmove.mono hsub2).steps, fun t ht => ?_⟩
  rw [hfreed.mem t fun e => ht [] (by rw [held_root, hr, e]), (hshed1.trans hshed2).mem t ht]

theorem uvmclear (h : Returns (Phys.uvmclear r va) φ u φ') : o.Inv φ' ∧ o.books φ' = o.books φ := by
  obtain ⟨res, _, hw, h⟩ := returns_bind.1 h
  obtain rfl := walk_false hw
  rcases res with _ | ⟨t, i⟩
  · simp at h
  obtain ⟨-, -, -, hres⟩ := hI.walk hr hw
  obtain ⟨ht, rfl⟩ := hres t i rfl
  rw [returns_modify] at h
  subst h
  exact hI.setLeaf (i := px 0 va) rfl ht (fun hv => hI.leaves _ rfl ht hv) (fun _ => ⟨rfl, rfl⟩)

end

end Inv

end Owners

end Xv6Container
