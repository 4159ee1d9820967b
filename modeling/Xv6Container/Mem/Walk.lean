import Xv6Container.Mem.Places

/-!
# Page-table operations as transactions

Each operation on a page table, seen from the books: `walk` takes pages for new tables, `mappages`
passes the page in hand on to a user address, `uvmunmap` gives user pages back, `freewalk` gives
the tables back.

* `Owners.Inv.walk_path` : `walk` only adds tables on its path;
* `Owners.Inv.mappages_hand` : `mappages` of the page in hand;
* `Owners.Inv.freewalk` : **a `freewalk` that returns gives back exactly the tables below**.
-/

namespace Xv6Container

open Function Books Phys

namespace Phys

variable {φ φ' φ'' : Phys} {pa va : ℕ}

/-- What a `kalloc` that finds a page does to memory, and the code that then fills the page. -/
structure Taken (φ φ' : Phys) (pa : ℕ) : Prop where
  free : φ.freelist = pa :: φ'.freelist
  mem : ∀ t, t ≠ pa → φ'.mem t = φ.mem t
  kernelEnd : φ'.kernelEnd = φ.kernelEnd

/-- What a `kfree` does to memory. -/
structure Freed (φ φ' : Phys) (pa : ℕ) : Prop where
  free : φ'.freelist = pa :: φ.freelist
  mem : ∀ t, t ≠ pa → φ'.mem t = φ.mem t
  kernelEnd : φ'.kernelEnd = φ.kernelEnd

theorem Taken.memset (h : Taken φ φ' pa) (c : ℕ) : Taken φ (φ'.memset pa c) pa where
  free := h.free
  mem t ht := by rw [memset_mem_of_ne ht, h.mem t ht]
  kernelEnd := h.kernelEnd

theorem kalloc_cases {r : Option ℕ} (h : Returns kalloc φ r φ') :
    (r = none ∧ φ'.freelist = φ.freelist ∧ φ'.mem = φ.mem ∧ φ'.kernelEnd = φ.kernelEnd) ∨
      ∃ pa, r = some pa ∧ Taken φ φ' pa := by
  simp only [kalloc, returns_bind, returns_get, returns_set] at h
  obtain ⟨_, _, ⟨rfl, rfl⟩, _, _, rfl, h⟩ := h
  split at h
  · obtain ⟨rfl, rfl⟩ := returns_pure.1 h
    exact .inl ⟨rfl, rfl, rfl, rfl⟩
  · split at h
    · obtain ⟨rfl, rfl⟩ := returns_pure.1 h
      exact .inl ⟨rfl, rfl, rfl, rfl⟩
    · rename_i pa rest hfree
      simp only [returns_bind, returns_modify, returns_pure] at h
      obtain ⟨_, _, rfl, _, _, rfl, rfl, rfl⟩ := h
      have htaken : Taken φ { φ with freelist := rest, refuse := fun n => φ.refuse (n + 1) } pa :=
        ⟨hfree, fun t _ => rfl, rfl⟩
      exact .inr ⟨pa, rfl, htaken.memset 5⟩

theorem kfree_spec {u : Unit} (h : Returns (kfree pa) φ u φ') :
    φ.ValidPage pa ∧ Freed φ φ' pa := by
  simp only [kfree, returns_get_bind] at h
  split at h
  · simp [returns_bind] at h
  · rename_i hv
    simp only [returns_bind, returns_modify] at h
    obtain ⟨_, _, rfl, rfl⟩ := h
    exact ⟨not_not.1 hv, rfl, fun t ht => memset_mem_of_ne ht, rfl⟩

theorem returns_walkFrom_false {levels : List ℕ} {t : ℕ} :
    Returns (walkFrom va false levels t) φ
      ((descend (next φ.mem) t (levels.map (px · va))).map (·, px 0 va)) φ := by
  induction levels generalizing t with
  | nil => exact returns_pure.2 ⟨rfl, rfl⟩
  | cons level levels ih =>
    simp only [walkFrom, returns_get_bind, List.map_cons, descend_cons, next]
    by_cases hv : (φ.mem t (px level va)).v = true
    · simp only [hv, if_true, Option.bind_some]
      exact ih
    · simp only [hv, Bool.false_eq_true, if_false, Bool.not_false, if_true, Option.bind_none,
        Option.map_none]
      exact returns_pure.2 ⟨rfl, rfl⟩

theorem walk_false {res : Option (ℕ × Fin 512)} {t : ℕ} (h : Returns (walk t va false) φ res φ') :
    φ' = φ := by
  simp only [walk] at h
  split at h
  · simp [returns_bind] at h
  · exact (h.unique returns_walkFrom_false).2

end Phys

namespace Owners

variable {A B : Type} {o : Owners A B} {φ φ₁ φ' : Phys} {a : A}
  {π : List (Fin 512)} {t pa va r : ℕ} {i : Fin 512} {perm : Perm}

/-- The places of the page tables of an address space. -/
def tables (a : A) : Set (PagePlace A B) := {p | ∃ π, p = .page a π ∧ π.length ≤ 2}

/-- The places of an address space that a path passes, the last included. -/
def onPath (a : A) (π : List (Fin 512)) : Set (PagePlace A B) := {p | ∃ ρ, p = .page a ρ ∧ ρ <+: π}

/-- All places of an address space, and the hand. -/
def space (a : A) : Set (PagePlace A B) := {p | (∃ π, p = .page a π) ∨ p = .hand}

theorem tables_subset (a : A) : (tables a : Set (PagePlace A B)) ⊆ space a := by
  rintro p ⟨π, rfl, -⟩
  exact .inl ⟨π, rfl⟩

theorem onPath_subset_tables (hπ : π.length ≤ 2) :
    (onPath a π : Set (PagePlace A B)) ⊆ tables a := by
  rintro p ⟨ρ, rfl, hρ⟩
  exact ⟨ρ, rfl, hρ.length_le.trans hπ⟩

theorem page_mem_space (a : A) (π : List (Fin 512)) : (.page a π : PagePlace A B) ∈ space a :=
  .inl ⟨π, rfl⟩

theorem hand_mem_space (a : A) : (.hand : PagePlace A B) ∈ space a := .inr rfl

namespace Inv

theorem congr (hI : o.Inv φ) (hfree : φ'.freelist = φ.freelist) (hmem : φ'.mem = φ.mem)
    (hend : φ'.kernelEnd = φ.kernelEnd) : o.Inv φ' ∧ o.books φ' = o.books φ := by
  have hbooks : o.books φ' = o.books φ := by simp [books, hfree, held_eq_of_mem hmem]
  refine ⟨⟨hend.trans hI.kernelEnd, hbooks ▸ hI.sound, fun a π t k hπ ht hv => ?_⟩, hbooks⟩
  rw [held_eq_of_mem hmem] at ht
  rw [hmem] at hv ⊢
  exact hI.leaves k hπ ht hv

theorem validPage (hI : o.Inv φ) : φ.ValidPage pa ↔ o.ValidPage pa := by
  rw [Phys.ValidPage, Owners.ValidPage, hI.kernelEnd]

theorem held_ok (hI : o.Inv φ) {p : PagePlace A B} (hp : o.held φ p = some pa) : o.ValidPage pa :=
  hI.sound.held_ok (p := p) hp

theorem inj (hI : o.Inv φ) {p q : PagePlace A B} (hp : o.held φ p = some pa)
    (hq : o.held φ q = some pa) : p = q := hI.sound.inj hp hq

/-! ### Holders -/

theorem of_sound {o' : Owners A B} (hI : o.Inv φ) (hroot : o'.root = o.root)
    (hend : o'.kernelEnd = o.kernelEnd)
    (htf : ∀ a x, o'.tf a = some x → o.root a = none ∨ o.tf a = some x)
    (hs : (o'.books φ).Sound o'.ValidPage) : o'.Inv φ := by
  refine ⟨hI.kernelEnd.trans hend.symm, hs, fun a π t k hπ ht hv => ?_⟩
  have ht' : o.held φ (.page a π) = some t := by
    rw [← ht, held_page (by omega), held_page (by omega), hroot]
  obtain ⟨hleaf, hx⟩ := hI.leaves k hπ ht' hv
  refine ⟨hleaf, fun x hxa => ?_⟩
  rcases htf a x hxa with hr | hr
  · rw [held_page (by omega), hr] at ht'
    cases ht'
  · exact hx x hr

theorem dropHand (hI : o.Inv φ) : Inv { o with hand := none } φ := by
  refine hI.of_sound rfl rfl (fun a x h => .inr h) (hI.sound.of_le rfl fun p pa hp => ?_)
  cases p with
  | page a π => exact hp
  | other b => exact hp
  | hand => cases hp

theorem rename (σ : A ≃ A) (hI : o.Inv φ) :
    Inv { o with root := o.root ∘ σ, tf := o.tf ∘ σ } φ ∧
      (books { o with root := o.root ∘ σ, tf := o.tf ∘ σ } φ).items = (o.books φ).items := by
  let f : PagePlace A B → PagePlace A B := fun p =>
    p.casesOn (fun a π => .page (σ a) π) .other .hand
  have hheld : held { o with root := o.root ∘ σ, tf := o.tf ∘ σ } φ = o.held φ ∘ f := by
    funext p
    cases p <;> rfl
  have hinj : Injective f := by
    intro p q h
    cases p <;> cases q <;> simp_all [f]
  have hsurj : Surjective f := by
    intro p
    cases p with
    | page a π => exact ⟨.page (σ.symm a) π, by simp [f]⟩
    | other b => exact ⟨.other b, rfl⟩
    | hand => exact ⟨.hand, rfl⟩
  have hbooks : books { o with root := o.root ∘ σ, tf := o.tf ∘ σ } φ =
      ⟨(o.books φ).free, (o.books φ).held ∘ f⟩ := by
    rw [books, hheld]
    rfl
  refine ⟨⟨hI.kernelEnd, hbooks ▸ hI.sound.comp hinj, fun a π t k hπ ht hv => ?_⟩, ?_⟩
  · exact hI.leaves (a := σ a) k hπ (by rw [hheld] at ht; exact ht) hv
  · rw [hbooks, items_comp hsurj]

/-! ### Pages in hand -/

theorem not_held_of_taken (hI : o.Inv φ) (h : Taken φ φ₁ pa) (p : PagePlace A B) :
    o.held φ p ≠ some pa := fun hp => hI.sound.apart hp (by simp [books, h.free])

theorem held_taken (hI : o.Inv φ) (h : Taken φ φ₁ pa) : o.held φ₁ = o.held φ :=
  held_eq_of_off h.mem (hI.not_held_of_taken h)

theorem valid_of_taken (hI : o.Inv φ) (h : Taken φ φ₁ pa) : o.ValidPage pa :=
  hI.sound.free_ok pa (by simp [books, h.free])

variable [DecidableEq A] [DecidableEq B]

theorem take (hI : o.Inv φ) (h : Taken φ φ₁ pa) (hhand : o.hand = none) :
    Inv { o with hand := some pa } φ₁ ∧
      Move {.hand} (o.books φ) (books { o with hand := some pa } φ₁) := by
  have hheld : held { o with hand := some pa } φ₁ = update (o.held φ) .hand (some pa) := by
    rw [← hI.held_taken h]
    funext p
    cases p <;> simp [held]
  have hmove : Move {.hand} (o.books φ) (books { o with hand := some pa } φ₁) :=
    .take .hand pa rfl hhand h.free hheld
  refine ⟨⟨h.kernelEnd.trans hI.kernelEnd, hmove.sound hI.sound, fun a π t k hπ ht hv => ?_⟩, hmove⟩
  have ht' : o.held φ (.page a π) = some t := by rw [← ht, hheld, update_of_ne (by simp)]
  have hne : t ≠ pa := fun e => hI.not_held_of_taken h _ (e ▸ ht')
  rw [h.mem t hne] at hv ⊢
  exact hI.leaves k hπ ht' hv

theorem give (hI : o.Inv φ) (h : Freed φ φ₁ pa) (hhand : o.hand = some pa) :
    Inv { o with hand := none } φ₁ ∧
      Move {.hand} (o.books φ) (books { o with hand := none } φ₁) := by
  have hno : ∀ p, p ≠ .hand → o.held φ p ≠ some pa := fun p hp hpa =>
    hp (hI.sound.inj hpa (show o.held φ .hand = some pa from hhand))
  have hheld : held { o with hand := none } φ₁ = update (o.held φ) .hand none := by
    have hno' : ∀ p, held { o with hand := none } φ p ≠ some pa := by
      intro p
      cases p with
      | page a π => exact hno (.page a π) (by simp)
      | other b => exact hno (.other b) (by simp)
      | hand => simp [held]
    rw [held_eq_of_off h.mem hno']
    funext p
    cases p <;> simp [held]
  have hmove : Move {.hand} (o.books φ) (books { o with hand := none } φ₁) :=
    .give .hand pa rfl hhand h.free hheld
  refine ⟨⟨h.kernelEnd.trans hI.kernelEnd, hmove.sound hI.sound, fun a π t k hπ ht hv => ?_⟩, hmove⟩
  have ht' : o.held φ (.page a π) = some t := by rw [← ht, hheld, update_of_ne (by simp)]
  have hne : t ≠ pa := fun e => hno (.page a π) (by simp) (e ▸ ht')
  rw [h.mem t hne] at hv ⊢
  exact hI.leaves k hπ ht' hv

theorem held_handOther (b : B) (x y : Option ℕ) :
    held { o with hand := x, other := update o.other b y } φ =
      update (update (o.held φ) .hand x) (.other b) y := by
  funext p
  cases p with
  | page a π => simp [held]
  | other c =>
    by_cases hc : c = b
    · subst hc; simp [held]
    · simp [held, hc]
  | hand => simp [held]

theorem toOther {b : B} (hI : o.Inv φ) (hhand : o.hand = some pa) (hb : o.other b = none) :
    Inv { o with hand := none, other := update o.other b (some pa) } φ ∧
      Move {.hand, .other b} (o.books φ)
        (books { o with hand := none, other := update o.other b (some pa) } φ) := by
  have hmove : Move {.hand, .other b} (o.books φ)
      (books { o with hand := none, other := update o.other b (some pa) } φ) :=
    .pass .hand (.other b) pa (by simp) (by simp) hhand hb rfl (held_handOther b none (some pa))
  exact ⟨hI.of_sound rfl rfl (fun a x h => .inr h) (hmove.sound hI.sound), hmove⟩

theorem fromOther {b : B} (hI : o.Inv φ) (hhand : o.hand = none) (hb : o.other b = some pa) :
    Inv { o with hand := some pa, other := update o.other b none } φ ∧
      Move {.hand, .other b} (o.books φ)
        (books { o with hand := some pa, other := update o.other b none } φ) := by
  have hmove : Move {.hand, .other b} (o.books φ)
      (books { o with hand := some pa, other := update o.other b none } φ) :=
    .pass (.other b) .hand pa (by simp) (by simp) hb hhand rfl
      ((held_handOther b (some pa) none).trans (update_comm (by simp) _ _ _))
  exact ⟨hI.of_sound rfl rfl (fun a x h => .inr h) (hmove.sound hI.sound), hmove⟩

omit [DecidableEq B] in
theorem dropRoot (hI : o.Inv φ) : Inv { o with root := update o.root a none } φ := by
  have hle : ∀ p pa, held { o with root := update o.root a none } φ p = some pa →
      o.held φ p = some pa := by
    intro p pa hp
    cases p with
    | other b => exact hp
    | hand => exact hp
    | page b π =>
      by_cases hb : b = a
      · subst hb
        simp [held] at hp
      · simpa [held, hb] using hp
  refine ⟨hI.kernelEnd, hI.sound.of_le rfl hle, fun b π t k hπ ht hv => ?_⟩
  exact hI.leaves k hπ (hle _ _ ht) hv

/-! ### Table entries -/

/-- A page is taken and linked into a table as a new table. -/
theorem link (hI : o.Inv φ) (h : Taken φ φ₁ pa) (hπ : π.length ≤ 1)
    (ht : o.held φ (.page a π) = some t) (hv : (φ.mem t i).v = false) :
    o.Inv ((φ₁.memset pa 0).setPte t i (.map pa .none)) ∧
      Move {.page a (π ++ [i])} (o.books φ)
        (o.books ((φ₁.memset pa 0).setPte t i (.map pa .none))) ∧
      o.held ((φ₁.memset pa 0).setPte t i (.map pa .none)) (.page a (π ++ [i])) = some pa := by
  set φ₂ := φ₁.memset pa 0 with hφ₂
  have h2 : Taken φ φ₂ pa := h.memset 0
  have hnew := hI.not_held_of_taken h
  have hheld2 := hI.held_taken h2
  have hne : t ≠ pa := fun e => hnew _ (e ▸ ht)
  have hpa : (Pte.map pa .none).pa = pa := map_pa (hI.valid_of_taken h).1 _
  have hf : ¬ Fixed (π ++ [i]) := not_fixed (by simp; omega)
  have hheld : o.held (φ₂.setPte t i (.map pa .none)) =
      update (o.held φ) (.page a (π ++ [i])) (some pa) := by
    rw [held_setPte (π := π) (a := a) (by omega) (by rw [hheld2, ht]), if_neg hf, hheld2, hpa]
    · simp
    · intro p hp
      rw [hheld2] at hp
      exact hI.sound.inj hp ht
    · intro j ρ
      rw [hheld2]
      exact held_below_of_invalid (by omega) ht hv
    · intro _ _
      rw [hpa]
      exact ⟨hne.symm, fun j => by simp [hφ₂]⟩
  have hmove : Move {.page a (π ++ [i])} (o.books φ) (o.books (φ₂.setPte t i (.map pa .none))) :=
    .take (.page a (π ++ [i])) pa rfl
      (held_below_of_invalid (by omega) ht hv) h2.free hheld
  refine ⟨⟨h2.kernelEnd.trans hI.kernelEnd, hmove.sound hI.sound, fun a' π' t' k hπ' ht' hv' => ?_⟩,
    hmove, by rw [hheld, update_self]⟩
  -- the new table is empty, the other lowest tables are as they were
  by_cases hp : (PagePlace.page a' π' : PagePlace A B) = .page a (π ++ [i])
  · rw [hheld, hp, update_self] at ht'
    obtain rfl : pa = t' := Option.some.inj ht'
    rw [setPte_mem_of_ne (fun e => hne e.1.symm), hφ₂, memset_zero_v] at hv'
    cases hv'
  · rw [hheld, update_of_ne hp] at ht'
    have hne' : t' ≠ pa := fun e => hnew _ (e ▸ ht')
    have hne2 : ¬ (t' = t ∧ k = i) := by
      rintro ⟨rfl, -⟩
      obtain ⟨-, rfl⟩ := PagePlace.page.inj (hI.sound.inj ht' ht)
      omega
    rw [setPte_mem_of_ne hne2, h2.mem t' hne'] at hv' ⊢
    exact hI.leaves k hπ' ht' hv'

theorem held_setLeaf (hI : o.Inv φ) (hπ : π.length = 2) (ht : o.held φ (.page a π) = some t)
    (pte : Pte) : o.held (φ.setPte t i pte) = if Fixed (π ++ [i]) then o.held φ else
      update (o.held φ) (.page a (π ++ [i])) (if pte.v then some pte.pa else none) :=
  held_setPte (by omega) ht (fun _ hp => hI.sound.inj hp ht)
    (fun j ρ => held_page_eq_none (.inl (by simp; omega))) (fun _ h => by omega)

theorem leaves_setLeaf (hI : o.Inv φ) (hπ : π.length = 2) (ht : o.held φ (.page a π) = some t)
    {pte : Pte} (hleaf : pte.v = true → o.Leaf a (π ++ [i]) pte) ⦃a' : A⦄ ⦃π' : List (Fin 512)⦄
    ⦃t' : ℕ⦄ (k : Fin 512) (hπ' : π'.length = 2)
    (ht' : o.held (φ.setPte t i pte) (.page a' π') = some t')
    (hv : ((φ.setPte t i pte).mem t' k).v = true) :
    o.Leaf a' (π' ++ [k]) ((φ.setPte t i pte).mem t' k) := by
  have hold : o.held φ (.page a' π') = some t' := by
    rw [hI.held_setLeaf hπ ht] at ht'
    split at ht'
    · exact ht'
    · rwa [update_of_ne] at ht'
      rintro e
      obtain ⟨-, rfl⟩ := PagePlace.page.inj e
      simp [hπ] at hπ'
  by_cases hk : t' = t ∧ k = i
  · obtain ⟨rfl, rfl⟩ := hk
    obtain ⟨rfl, rfl⟩ := PagePlace.page.inj (hI.sound.inj hold ht)
    rw [setPte_mem_self] at hv ⊢
    exact hleaf hv
  · rw [setPte_mem_of_ne hk] at hv ⊢
    exact hI.leaves k hπ' hold hv

theorem setLeaf (hI : o.Inv φ) (hπ : π.length = 2) (ht : o.held φ (.page a π) = some t) {pte : Pte}
    (hleaf : pte.v = true → o.Leaf a (π ++ [i]) pte)
    (hsame : ¬ Fixed (π ++ [i]) → pte.v = (φ.mem t i).v ∧ pte.pa = (φ.mem t i).pa) :
    o.Inv (φ.setPte t i pte) ∧ o.books (φ.setPte t i pte) = o.books φ := by
  have hheld : o.held (φ.setPte t i pte) = o.held φ := by
    rw [hI.held_setLeaf hπ ht]
    split
    · rfl
    · rename_i hf
      obtain ⟨h1, h2⟩ := hsame hf
      rw [h1, h2, ← next, ← held_child (by omega) hf ht, update_eq_self]
  have hbooks : o.books (φ.setPte t i pte) = o.books φ := by
    rw [books, hheld]
    rfl
  exact ⟨⟨hI.kernelEnd, hbooks ▸ hI.sound, hI.leaves_setLeaf hπ ht hleaf⟩, hbooks⟩

theorem mapHand (hI : o.Inv φ) (hhand : o.hand = some pa) (hπ : π.length = 2)
    (ht : o.held φ (.page a π) = some t) (hv : (φ.mem t i).v = false) (hf : ¬ Fixed (π ++ [i]))
    (hperm : perm.leaf = true) :
    Inv { o with hand := none } (φ.setPte t i (.map pa perm)) ∧
      Move {.hand, .page a (π ++ [i])} (o.books φ)
        (books { o with hand := none } (φ.setPte t i (.map pa perm))) ∧
      held { o with hand := none } (φ.setPte t i (.map pa perm)) (.page a (π ++ [i])) =
        some pa := by
  have hpa : (Pte.map pa perm).pa = pa :=
    map_pa (hI.sound.held_ok (p := .hand) hhand).1 _
  have hheld : held { o with hand := none } (φ.setPte t i (.map pa perm)) =
      update (update (o.held φ) .hand none) (.page a (π ++ [i])) (some pa) := by
    have h := hI.held_setLeaf (i := i) hπ ht (.map pa perm)
    rw [if_neg hf, hpa, map_v, if_pos rfl] at h
    rw [update_comm (by simp), ← h]
    funext p
    cases p <;> simp [held]
  have hmove : Move {.hand, .page a (π ++ [i])} (o.books φ)
      (books { o with hand := none } (φ.setPte t i (.map pa perm))) :=
    .pass .hand (.page a (π ++ [i])) pa (by simp) (by simp) hhand
      (held_below_of_invalid (by omega) ht hv) rfl hheld
  refine ⟨⟨hI.kernelEnd, hmove.sound hI.sound, ?_⟩, hmove, by rw [hheld, update_self]⟩
  exact hI.leaves_setLeaf hπ ht fun _ => ⟨hperm, fun x _ e => absurd (.inr e) hf⟩

theorem unlink (hI : o.Inv φ) (hπ : π.length ≤ 2) (ht : o.held φ (.page a π) = some t)
    (hf : ¬ Fixed (π ++ [i])) {c : ℕ} (hc : o.held φ (.page a (π ++ [i])) = some c)
    (hbelow : ∀ j ρ, o.held φ (.page a (π ++ i :: j :: ρ)) = none) (h : Freed φ φ₁ c) :
    o.Inv (φ₁.setPte t i .zero) ∧
      Move {.page a (π ++ [i])} (o.books φ) (o.books (φ₁.setPte t i .zero)) ∧
      o.held (φ₁.setPte t i .zero) (.page a (π ++ [i])) = none := by
  have hz : o.held (φ.setPte t i .zero) = update (o.held φ) (.page a (π ++ [i])) none := by
    rw [held_setPte hπ ht (fun _ hp => hI.sound.inj hp ht) hbelow (fun h => by simp at h),
      if_neg hf]
    rfl
  have hne : t ≠ c := fun e => by
    have := PagePlace.page.inj (hI.sound.inj ht (e ▸ hc))
    simp at this
  -- the page freed is in no place once the entry is cleared, so what it holds does not matter
  have hheld : o.held (φ₁.setPte t i .zero) = update (o.held φ) (.page a (π ++ [i])) none := by
    rw [← hz]
    refine held_eq_of_off (fun t' (ht' : t' ≠ c) => ?_) fun p hp => ?_
    · by_cases e : t' = t
      · subst e
        simp [setPte, h.mem t' ht']
      · simp [setPte, e, h.mem t' ht']
    · rw [hz] at hp
      obtain ⟨hp, hp'⟩ := update_none_le (b := o.books φ) _ _ _ hp
      exact hp (hI.sound.inj hp' hc)
  have hmove : Move {.page a (π ++ [i])} (o.books φ) (o.books (φ₁.setPte t i .zero)) :=
    .give (.page a (π ++ [i])) c rfl hc h.free hheld
  refine ⟨⟨h.kernelEnd.trans hI.kernelEnd, hmove.sound hI.sound, fun a' π' t' k hπ' ht' hv => ?_⟩,
    hmove, by rw [hheld, update_self]⟩
  rw [hheld] at ht'
  obtain ⟨hp, ht'⟩ := update_none_le (b := o.books φ) _ _ _ ht'
  have hne' : t' ≠ c := fun e => hp (hI.sound.inj (e ▸ ht') hc)
  by_cases hk : t' = t ∧ k = i
  · obtain ⟨rfl, rfl⟩ := hk
    simp at hv
  · rw [setPte_mem_of_ne hk, h.mem t' hne'] at hv ⊢
    exact hI.leaves k hπ' ht' hv

/-! ### Walking -/

variable {alloc : Bool} {res : Option (ℕ × Fin 512)}

/-- The loop of `walk` adds tables on its path. -/
theorem walkFrom {levels : List ℕ} (hI : o.Inv φ)
    (hlen : π.length + levels.length = 2) (ht : o.held φ (.page a π) = some t)
    (h : Returns (Phys.walkFrom va alloc levels t) φ res φ') :
    o.Inv φ' ∧ Steps (onPath a (π ++ levels.map (px · va))) (o.books φ) (o.books φ') ∧ ∀ t' k,
      res = some (t', k) →
        o.held φ' (.page a (π ++ levels.map (px · va))) = some t' ∧ k = px 0 va := by
  induction levels generalizing π t φ with
  | nil =>
    obtain ⟨rfl, rfl⟩ := returns_pure.1 h
    refine ⟨hI, .refl, fun t' k e => ?_⟩
    cases e
    exact ⟨by simpa using ht, rfl⟩
  | cons level levels ih =>
    simp only [List.length_cons] at hlen
    simp only [Phys.walkFrom, returns_get_bind] at h
    have hpath : π ++ (level :: levels).map (px · va) =
        (π ++ [px level va]) ++ levels.map (px · va) := by simp
    rw [hpath]
    split at h
    · rename_i hv
      refine ih hI (by simp; omega) ?_ h
      rw [held_child (by omega) (not_fixed (by simp; omega)) ht, next, if_pos hv]
    · rename_i hv
      split at h
      · obtain ⟨rfl, rfl⟩ := returns_pure.1 h
        exact ⟨hI, .refl, fun _ _ e => by cases e⟩
      · obtain ⟨r, φ₁, hk, h⟩ := returns_bind.1 h
        rcases kalloc_cases hk with ⟨rfl, hfree, hmem, hend⟩ | ⟨pa, rfl, htaken⟩
        · obtain ⟨rfl, rfl⟩ := returns_pure.1 h
          obtain ⟨hI', hb⟩ := hI.congr hfree hmem hend
          exact ⟨hI', hb ▸ .refl, fun _ _ e => by cases e⟩
        · simp only [returns_bind, returns_modify] at h
          obtain ⟨_, _, rfl, _, _, rfl, h⟩ := h
          obtain ⟨hI', hmove, hpa⟩ := hI.link htaken (by omega) ht (by simpa using hv)
          obtain ⟨hI'', hsteps, hres⟩ := ih hI' (by simp; omega) hpa h
          have hmove' := hmove.mono (T := onPath a (π ++ [px level va] ++ levels.map (px · va))) (by
            rintro _ rfl
            exact ⟨_, rfl, List.prefix_append _ _⟩)
          exact ⟨hI'', hmove'.steps.trans hsteps, hres⟩

/-- **`walk` only adds the tables on its path**, and finds the entry of the lowest table. -/
theorem walk_path (hI : o.Inv φ)
    (hr : o.root a = some r) (h : Returns (Phys.walk r va alloc) φ res φ') :
    va < MAXVA ∧ o.Inv φ' ∧ Steps (onPath a [px 2 va, px 1 va]) (o.books φ) (o.books φ') ∧
      ∀ t k, res = some (t, k) →
        o.held φ' (.page a [px 2 va, px 1 va]) = some t ∧ k = px 0 va := by
  simp only [Phys.walk] at h
  split at h
  · simp [returns_bind] at h
  · rename_i hva
    exact ⟨by omega, hI.walkFrom (π := []) (by rfl) (by rw [held_root, hr]) h⟩

theorem walk (hI : o.Inv φ) (hr : o.root a = some r)
    (h : Returns (Phys.walk r va alloc) φ res φ') :
    va < MAXVA ∧ o.Inv φ' ∧ Steps (tables a) (o.books φ) (o.books φ') ∧ ∀ t k,
      res = some (t, k) → o.held φ' (.page a [px 2 va, px 1 va]) = some t ∧ k = px 0 va := by
  obtain ⟨hva, hI', hs, hres⟩ := hI.walk_path hr h
  exact ⟨hva, hI', hs.mono (onPath_subset_tables (by simp)), hres⟩

end Inv

end Owners

end Xv6Container
