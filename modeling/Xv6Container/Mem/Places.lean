import Xv6Container.Data.Radix
import Xv6Container.Ledger.Books
import Xv6Container.Mem.PageTable

/-!
# Who holds a page

Address spaces `A` have a root page-table page each; other holders `B` of pages (trapframes,
pipes) are named from outside, and `hand` is a page that the running code has allocated and not
yet put anywhere.  The page-table pages and user pages of an address space are the pages that the
paths from its root lead to; the two pages mapped at `TRAMPOLINE` and `TRAPFRAME` do not belong to
the table.

* `Owners.Inv` : no page is held twice or held while it is free, and the entries of the lowest
  tables are leaves;
* `Owners.held_eq_of_off` : the contents of a page that nobody holds do not matter.
-/

namespace Xv6Container

open Function Books

/-- A way for a page to be in use. -/
inductive PagePlace (A B : Type) where
  /-- The page that the path leads to from the root of an address space: a page-table page below
  length 3, a user page at length 3. -/
  | page (a : A) (π : List (Fin 512))
  | other (b : B)
  | hand
  deriving DecidableEq

/-- The holders of pages, outside physical memory. -/
@[ext] structure Owners (A B : Type) where
  /-- The page table of an address space. -/
  root : A → Option ℕ
  /-- The trapframe that belongs at `TRAPFRAME` in an address space. -/
  tf : A → Option ℕ
  other : B → Option ℕ
  hand : Option ℕ
  /-- `end`, the first address after the kernel. -/
  kernelEnd : ℕ

namespace Phys

/-- Where the entry `i` of the table at `t` points to. -/
def next (mem : ℕ → Fin 512 → Pte) (t : ℕ) (i : Fin 512) : Option ℕ :=
  if (mem t i).v then some (mem t i).pa else none

/-- The entries that `walk` passes for `va`. -/
def vpath (va : ℕ) : List (Fin 512) := [px 2 va, px 1 va, px 0 va]

/-- The path leads to one of the two pages that every address space maps at the top. -/
def Fixed (π : List (Fin 512)) : Prop := π = vpath TRAMPOLINE ∨ π = vpath TRAPFRAME

instance (π : List (Fin 512)) : Decidable (Fixed π) := inferInstanceAs (Decidable (_ ∨ _))

variable {φ : Phys} {t pa : ℕ} {i : Fin 512} {π : List (Fin 512)}

theorem not_fixed (h : π.length ≤ 2) : ¬ Fixed π := by
  rintro (rfl | rfl) <;> simp [vpath] at h

theorem next_eq_none : next φ.mem t i = none ↔ (φ.mem t i).v = false := by
  simp [next]

theorem next_eq_some : next φ.mem t i = some pa ↔ (φ.mem t i).v = true ∧ (φ.mem t i).pa = pa := by
  simp [next]

@[simp] theorem zero_v : Pte.zero.v = false := rfl

@[simp] theorem map_v (pa : ℕ) (perm : Perm) : (Pte.map pa perm).v = true := rfl

@[simp] theorem map_perm (pa : ℕ) (perm : Perm) : (Pte.map pa perm).perm = perm := rfl

theorem map_pa (h : pa % PGSIZE = 0) (perm : Perm) : (Pte.map pa perm).pa = pa := by
  simp only [Pte.map, pgrounddown, PGSIZE] at h ⊢
  omega

@[simp] theorem memset_zero_v : ((φ.memset pa 0).mem pa i).v = false := by
  simp [memset, Pte.ofWord]

theorem memset_mem_of_ne {c : ℕ} (h : t ≠ pa) : (φ.memset pa c).mem t = φ.mem t := by
  simp [memset, h]

@[simp] theorem setPte_mem_self {pte : Pte} : (φ.setPte t i pte).mem t i = pte := by
  simp [setPte]

theorem setPte_mem_of_ne {pte : Pte} {t' : ℕ} {j : Fin 512} (h : ¬ (t' = t ∧ j = i)) :
    (φ.setPte t i pte).mem t' j = φ.mem t' j := by
  by_cases ht : t' = t
  · subst ht
    have hj : j ≠ i := fun e => h ⟨rfl, e⟩
    simp [setPte, hj]
  · simp [setPte, ht]

end Phys

open Phys

namespace Owners

variable {A B : Type} {o : Owners A B} {φ φ' : Phys} {a : A} {π ρ : List (Fin 512)} {t pa c : ℕ}
  {i : Fin 512} {pte : Pte}

/-- What each place holds. -/
def held (o : Owners A B) (φ : Phys) : PagePlace A B → Option ℕ
  | .page a π =>
    if π.length ≤ 3 ∧ ¬ Fixed π then (o.root a).bind (descend (next φ.mem) · π) else none
  | .other b => o.other b
  | .hand => o.hand

/-- The free list and the places. -/
def books (o : Owners A B) (φ : Phys) : Books (PagePlace A B) ℕ := ⟨φ.freelist, o.held φ⟩

/-- The address of a page that `kfree` accepts. -/
def ValidPage (o : Owners A B) (pa : ℕ) : Prop :=
  pa % PGSIZE = 0 ∧ o.kernelEnd ≤ pa ∧ pa < PHYSTOP

/-- What a valid entry of a lowest table is: it maps a page, and at `TRAPFRAME` the trapframe. -/
def Leaf (o : Owners A B) (a : A) (π : List (Fin 512)) (pte : Pte) : Prop :=
  pte.perm.leaf = true ∧ ∀ x, o.tf a = some x → π = vpath TRAPFRAME → pte.pa = x

/-- Every page is free or held once, and the tables have three levels. -/
structure Inv (o : Owners A B) (φ : Phys) : Prop where
  kernelEnd : φ.kernelEnd = o.kernelEnd
  sound : (o.books φ).Sound o.ValidPage
  leaves : ∀ ⦃a π t⦄ k, π.length = 2 → o.held φ (.page a π) = some t → (φ.mem t k).v = true →
    o.Leaf a (π ++ [k]) (φ.mem t k)

/-! ### Tables -/

theorem held_page (h : π.length ≤ 2) :
    o.held φ (.page a π) = (o.root a).bind (descend (next φ.mem) · π) := by
  rw [held, if_pos ⟨by omega, not_fixed h⟩]

theorem held_page_eq_none (h : 3 < π.length ∨ Fixed π) : o.held φ (.page a π) = none := by
  rw [held, if_neg]
  rintro ⟨h1, h2⟩
  rcases h with h | h
  · omega
  · exact h2 h

theorem held_root : o.held φ (.page a []) = o.root a := by
  rw [held_page (by simp)]
  simp

theorem held_below (h : π.length ≤ 2) (ht : o.held φ (.page a π) = some t) :
    o.held φ (.page a (π ++ i :: ρ)) =
      if (π ++ i :: ρ).length ≤ 3 ∧ ¬ Fixed (π ++ i :: ρ) then
        (next φ.mem t i).bind (descend (next φ.mem) · ρ) else none := by
  rw [held_page h] at ht
  obtain ⟨r, hr, hd⟩ := Option.bind_eq_some_iff.1 ht
  rw [held, hr, Option.bind_some, descend_append, hd]
  rfl

theorem held_child (h : π.length ≤ 2) (hf : ¬ Fixed (π ++ [i]))
    (ht : o.held φ (.page a π) = some t) : o.held φ (.page a (π ++ [i])) = next φ.mem t i := by
  rw [held_below h ht, if_pos ⟨by simp; omega, hf⟩]
  simp

theorem held_below_of_invalid (h : π.length ≤ 2) (ht : o.held φ (.page a π) = some t)
    (hv : (φ.mem t i).v = false) : o.held φ (.page a (π ++ i :: ρ)) = none := by
  rw [held_below h ht, next_eq_none.2 hv]
  simp

theorem held_congr (h : ∀ π i t, π.length ≤ 2 → π ++ [i] <+: ρ → o.held φ (.page a π) = some t →
    next φ'.mem t i = next φ.mem t i) : o.held φ' (.page a ρ) = o.held φ (.page a ρ) := by
  simp only [held]
  split
  · rename_i hρ
    cases hr : o.root a with
    | none => rfl
    | some r =>
      refine descend_congr fun π i t hp hd => ?_
      have hlen := hp.length_le
      simp only [List.length_append, List.length_singleton] at hlen
      have hπ : π.length ≤ 2 := by omega
      exact h π i t hπ hp (by rw [held_page hπ, hr]; exact hd)
  · rfl

theorem held_eq_of_mem (h : φ'.mem = φ.mem) : o.held φ' = o.held φ := by
  funext p
  cases p <;> simp [held, h]

theorem held_eq_of_off (hmem : ∀ t, t ≠ pa → φ'.mem t = φ.mem t) (h : ∀ p, o.held φ p ≠ some pa) :
    o.held φ' = o.held φ := by
  funext p
  cases p with
  | page a ρ =>
    refine held_congr fun π i t _ _ ht => ?_
    have hne : t ≠ pa := fun e => h _ (e ▸ ht)
    simp only [next, hmem t hne]
  | other b => rfl
  | hand => rfl

variable [DecidableEq A] [DecidableEq B]

/-- **Frame of a table entry**: writing entry `i` of the table at the place `π` changes only the
place `π ++ [i]`, when no pages lie below it before and after. -/
theorem held_setPte (hπ : π.length ≤ 2) (ht : o.held φ (.page a π) = some t)
    (honly : ∀ p, o.held φ p = some t → p = .page a π)
    (hbefore : ∀ j ρ, o.held φ (.page a (π ++ i :: j :: ρ)) = none)
    (hafter : pte.v = true → π.length ≤ 1 → pte.pa ≠ t ∧ ∀ j, (φ.mem pte.pa j).v = false) :
    o.held (φ.setPte t i pte) = if Fixed (π ++ [i]) then o.held φ else
      update (o.held φ) (.page a (π ++ [i])) (if pte.v then some pte.pa else none) := by
  -- a path that does not begin with `π ++ [i]` never reaches the entry, as `t` is in one place
  have hframe : ∀ b ρ, ¬ (b = a ∧ π ++ [i] <+: ρ) →
      o.held (φ.setPte t i pte) (.page b ρ) = o.held φ (.page b ρ) := by
    intro b ρ hn
    refine held_congr fun π' i' t' _ hp ht' => ?_
    have hne : ¬ (t' = t ∧ i' = i) := by
      rintro ⟨rfl, rfl⟩
      obtain ⟨rfl, rfl⟩ := PagePlace.page.inj (honly _ ht')
      exact hn ⟨rfl, hp⟩
    simp only [next, setPte_mem_of_ne hne]
  have ht' : o.held (φ.setPte t i pte) (.page a π) = some t := by
    rw [hframe a π, ht]
    rintro ⟨-, hp⟩
    have := hp.length_le
    simp at this
  funext p
  cases p with
  | other b => split <;> simp [held]
  | hand => split <;> simp [held]
  | page b ρ =>
    by_cases hp : b = a ∧ π ++ [i] <+: ρ
    · obtain ⟨rfl, ρ, rfl⟩ := hp
      rw [List.append_assoc, List.singleton_append]
      cases ρ with
      | nil =>
        split
        · rename_i hf
          rw [held_page_eq_none (.inr hf), held_page_eq_none (.inr hf)]
        · rename_i hf
          rw [update_self, held_child hπ hf ht', next, setPte_mem_self]
      | cons j ρ =>
        have hnone : o.held (φ.setPte t i pte) (.page b (π ++ i :: j :: ρ)) = none := by
          by_cases hlen : π.length ≤ 1
          · rw [held_below hπ ht']
            split
            · by_cases hv : pte.v = true
              · obtain ⟨hne, hno⟩ := hafter hv hlen
                have hnx : next (φ.setPte t i pte).mem pte.pa j = none := by
                  rw [next_eq_none, setPte_mem_of_ne (fun e => hne e.1), hno j]
                simp only [next, setPte_mem_self, hv, if_true, Option.bind_some, descend_cons]
                rw [← next, hnx]
                rfl
              · simp [next, hv]
            · rfl
          · exact held_page_eq_none (.inl (by simp; omega))
        rw [hnone]
        split
        · rw [hbefore]
        · rw [update_of_ne (by simp), hbefore]
    · rw [hframe b ρ hp]
      split
      · rfl
      · rw [update_of_ne]
        rintro e
        obtain ⟨rfl, rfl⟩ := PagePlace.page.inj e
        exact hp ⟨rfl, List.prefix_refl _⟩

end Owners

end Xv6Container
