import Mathlib.Tactic

/-!
# Items on a free list or in a place

An allocator keeps a list of free items, and each place holds at most one item.  `Books.Sound`
says that no item is in two places, on the list twice, or on the list and in a place.  A `Move`
takes the first free item, gives an item back or passes one on; it touches only the places of a
given set.

* `Steps.items` : moves lose no item and make none;
* `Steps.held_of_notMem` : places outside the set keep what they hold;
* `Sound.of_le` : the books stay sound when places forget what they hold;
* `Conserves.mem_free_iff` : when all items are accounted for, the places determine what is free.
-/

namespace Xv6Container

open Function

/-- A list of free items, and what each place holds. -/
@[ext] structure Books (P A : Type*) where
  free : List A
  held : P → Option A

namespace Books

variable {P A : Type*} {b b' b'' : Books P A} {ok : A → Prop} {S T : Set P} {p q : P} {a : A}

/-- Every item is free once, or in one place, or nowhere; only `ok` items occur. -/
structure Sound (ok : A → Prop) (b : Books P A) : Prop where
  nodup : b.free.Nodup
  free_ok : ∀ a ∈ b.free, ok a
  held_ok : ∀ ⦃p a⦄, b.held p = some a → ok a
  apart : ∀ ⦃p a⦄, b.held p = some a → a ∉ b.free
  inj : ∀ ⦃p q a⦄, b.held p = some a → b.held q = some a → p = q

/-- The items that are free or held. -/
def items (b : Books P A) : Set A := {a | a ∈ b.free ∨ ∃ p, b.held p = some a}

theorem Sound.of_le (h : Sound ok b) (hfree : b'.free = b.free)
    (hle : ∀ p a, b'.held p = some a → b.held p = some a) : Sound ok b' where
  nodup := hfree ▸ h.nodup
  free_ok := hfree ▸ h.free_ok
  held_ok p a hp := h.held_ok (hle p a hp)
  apart p a hp := hfree ▸ h.apart (hle p a hp)
  inj p q a hp hq := h.inj (hle p a hp) (hle q a hq)

theorem Sound.comp {f : P → P} (h : Sound ok b) (hf : Injective f) :
    Sound ok ⟨b.free, b.held ∘ f⟩ where
  nodup := h.nodup
  free_ok := h.free_ok
  held_ok _ _ hp := h.held_ok hp
  apart _ _ hp := h.apart hp
  inj _ _ _ hp hq := hf (h.inj hp hq)

theorem items_comp {f : P → P} (hf : Surjective f) :
    (⟨b.free, b.held ∘ f⟩ : Books P A).items = b.items := by
  ext c
  exact or_congr_right (hf.exists (p := fun q => b.held q = some c)).symm

section Update

variable [DecidableEq P]

/-- One transaction, on places of `S`. -/
inductive Move (S : Set P) (b b' : Books P A) : Prop
  | take (p : P) (a : A) (hp : p ∈ S) (hnone : b.held p = none) (hfree : b.free = a :: b'.free)
      (hheld : b'.held = update b.held p (some a))
  | give (p : P) (a : A) (hp : p ∈ S) (hsome : b.held p = some a) (hfree : b'.free = a :: b.free)
      (hheld : b'.held = update b.held p none)
  | pass (p q : P) (a : A) (hp : p ∈ S) (hq : q ∈ S) (hsome : b.held p = some a)
      (hnone : b.held q = none) (hfree : b'.free = b.free)
      (hheld : b'.held = update (update b.held p none) q (some a))

/-- Any number of transactions on places of `S`. -/
def Steps (S : Set P) : Books P A → Books P A → Prop := Relation.ReflTransGen (Move S)

theorem Steps.refl : Steps S b b := Relation.ReflTransGen.refl

theorem Steps.trans (h : Steps S b b') (h' : Steps S b' b'') : Steps S b b'' :=
  Relation.ReflTransGen.trans h h'

theorem Move.steps (h : Move S b b') : Steps S b b' := Relation.ReflTransGen.single h

theorem Move.mono (hST : S ⊆ T) (h : Move S b b') : Move T b b' := by
  cases h with
  | take p a hp hnone hfree hheld => exact .take p a (hST hp) hnone hfree hheld
  | give p a hp hsome hfree hheld => exact .give p a (hST hp) hsome hfree hheld
  | pass p q a hp hq hsome hnone hfree hheld =>
    exact .pass p q a (hST hp) (hST hq) hsome hnone hfree hheld

theorem Steps.mono (hST : S ⊆ T) (h : Steps S b b') : Steps T b b' :=
  Relation.ReflTransGen.mono (fun _ _ => Move.mono hST) _ _ h

/-! ### Soundness -/

theorem Sound.take (h : Sound ok b) {rest : List A} (hfree : b.free = a :: rest) :
    Sound ok ⟨rest, update b.held p (some a)⟩ := by
  have hnd : a ∉ rest ∧ rest.Nodup := List.nodup_cons.1 (hfree ▸ h.nodup)
  have hnew : ∀ q, b.held q ≠ some a := fun q hq => h.apart hq (by simp [hfree])
  have hin : ∀ {c}, c ∈ rest → c ∈ b.free := fun hc => by simp [hfree, hc]
  refine ⟨hnd.2, fun c hc => h.free_ok c (hin hc), fun q c hq => ?_, fun q c hq => ?_,
    fun q r c hq hr => ?_⟩
  · by_cases hqp : q = p
    · subst hqp
      obtain rfl : a = c := by simpa using hq
      exact h.free_ok a (by simp [hfree])
    · exact h.held_ok (by simpa [hqp] using hq)
  · by_cases hqp : q = p
    · subst hqp
      obtain rfl : a = c := by simpa using hq
      exact hnd.1
    · exact fun hc => h.apart (by simpa [hqp] using hq) (hin hc)
  · by_cases hqp : q = p <;> by_cases hrp : r = p
    · rw [hqp, hrp]
    · subst hqp
      obtain rfl : a = c := by simpa using hq
      exact absurd (by simpa [hrp] using hr) (hnew r)
    · subst hrp
      obtain rfl : a = c := by simpa using hr
      exact absurd (by simpa [hqp] using hq) (hnew q)
    · exact h.inj (by simpa [hqp] using hq) (by simpa [hrp] using hr)

theorem update_none_le (p : P) (q : P) (a : A) (h : update b.held p none q = some a) :
    q ≠ p ∧ b.held q = some a := by
  by_cases hqp : q = p
  · simp [hqp] at h
  · exact ⟨hqp, by simpa [hqp] using h⟩

theorem Sound.give (h : Sound ok b) (hp : b.held p = some a) :
    Sound ok ⟨a :: b.free, update b.held p none⟩ := by
  have hle := update_none_le (b := b) p
  refine ⟨List.nodup_cons.2 ⟨h.apart hp, h.nodup⟩, ?_, fun q c hq => h.held_ok (hle q c hq).2,
    fun q c hq hc => ?_, fun q r c hq hr => h.inj (hle q c hq).2 (hle r c hr).2⟩
  · rintro c hc
    rcases List.mem_cons.1 hc with rfl | hc
    · exact h.held_ok hp
    · exact h.free_ok c hc
  · replace ⟨hqp, hq⟩ := hle q c hq
    rcases List.mem_cons.1 hc with rfl | hc
    · exact hqp (h.inj hq hp)
    · exact h.apart hq hc

theorem Sound.pass (h : Sound ok b) (hp : b.held p = some a) :
    Sound ok ⟨b.free, update (update b.held p none) q (some a)⟩ := by
  -- the item is first put back and then taken again
  simpa using (h.give hp).take (p := q) rfl

theorem Move.sound (hm : Move S b b') (h : Sound ok b) : Sound ok b' := by
  obtain ⟨free', held'⟩ := b'
  cases hm with
  | take p a _ _ hfree hheld =>
    subst hheld
    exact h.take hfree
  | give p a _ hsome hfree hheld =>
    subst hfree hheld
    exact h.give hsome
  | pass p q a _ _ hsome _ hfree hheld =>
    subst hfree hheld
    exact h.pass hsome

/-! ### Conservation -/

theorem Move.items (hm : Move S b b') : b'.items = b.items := by
  ext c
  cases hm with
  | take p a _ hnone hfree hheld =>
    simp only [Books.items, Set.mem_ofPred_eq, hfree, hheld, List.mem_cons]
    constructor
    · rintro (hc | ⟨q, hq⟩)
      · exact .inl (.inr hc)
      · by_cases hqp : q = p
        · subst hqp
          exact .inl (.inl (by simpa using hq.symm))
        · exact .inr ⟨q, by simpa [hqp] using hq⟩
    · rintro ((rfl | hc) | ⟨q, hq⟩)
      · exact .inr ⟨p, by simp⟩
      · exact .inl hc
      · have hqp : q ≠ p := fun e => by simp [e, hnone] at hq
        exact .inr ⟨q, by simpa [hqp] using hq⟩
  | give p a _ hsome hfree hheld =>
    simp only [Books.items, Set.mem_ofPred_eq, hfree, hheld, List.mem_cons]
    constructor
    · rintro ((rfl | hc) | ⟨q, hq⟩)
      · exact .inr ⟨p, hsome⟩
      · exact .inl hc
      · exact .inr ⟨q, (update_none_le p q c hq).2⟩
    · rintro (hc | ⟨q, hq⟩)
      · exact .inl (.inr hc)
      · by_cases hqp : q = p
        · subst hqp
          exact .inl (.inl (by rw [hsome] at hq; exact (Option.some.inj hq).symm))
        · exact .inr ⟨q, by simpa [hqp] using hq⟩
  | pass p q a _ _ hsome hnone hfree hheld =>
    simp only [Books.items, Set.mem_ofPred_eq, hfree, hheld]
    refine or_congr_right ⟨?_, ?_⟩
    · rintro ⟨r, hr⟩
      by_cases hrq : r = q
      · subst hrq
        exact ⟨p, by rw [hsome]; simpa using hr⟩
      · exact ⟨r, (update_none_le p r c (by simpa [hrq] using hr)).2⟩
    · rintro ⟨r, hr⟩
      by_cases hrp : r = p
      · subst hrp
        exact ⟨q, by rw [← hr, hsome]; simp⟩
      · have hrq : r ≠ q := fun e => by simp [e, hnone] at hr
        exact ⟨r, by simpa [hrq, hrp] using hr⟩

theorem Steps.items (hs : Steps S b b') : b'.items = b.items := by
  induction hs with
  | refl => rfl
  | tail _ hm ih => rw [hm.items, ih]

theorem Move.held_of_notMem (hm : Move S b b') (hr : p ∉ S) : b'.held p = b.held p := by
  have hne : ∀ {q}, q ∈ S → p ≠ q := fun hq e => hr (e ▸ hq)
  cases hm with
  | take q a hq _ _ hheld => rw [hheld, update_of_ne (hne hq)]
  | give q a hq _ _ hheld => rw [hheld, update_of_ne (hne hq)]
  | pass q q' a hq hq' _ _ _ hheld => rw [hheld, update_of_ne (hne hq'), update_of_ne (hne hq)]

theorem Steps.held_of_notMem (hs : Steps S b b') (hr : p ∉ S) : b'.held p = b.held p := by
  induction hs with
  | refl => rfl
  | tail _ hm ih => rw [hm.held_of_notMem hr, ih]

end Update

/-- From `b` to `b'` no item is lost or made, and the places outside `S` keep what they hold. -/
structure Conserves (S : Set P) (b b' : Books P A) : Prop where
  items : b'.items = b.items
  held : ∀ p, p ∉ S → b'.held p = b.held p

theorem Conserves.refl : Conserves S b b := ⟨rfl, fun _ _ => rfl⟩

theorem Conserves.trans (h : Conserves S b b') (h' : Conserves S b' b'') : Conserves S b b'' :=
  ⟨h'.items.trans h.items, fun p hp => (h'.held p hp).trans (h.held p hp)⟩

theorem Conserves.mono (hST : S ⊆ T) (h : Conserves S b b') : Conserves T b b' :=
  ⟨h.items, fun p hp => h.held p fun hS => hp (hST hS)⟩

theorem Steps.conserves [DecidableEq P] (h : Steps S b b') : Conserves S b b' :=
  ⟨h.items, fun _ => h.held_of_notMem⟩

theorem Sound.mem_free_iff (h : Sound ok b) :
    a ∈ b.free ↔ a ∈ b.items ∧ ∀ p, b.held p ≠ some a := by
  constructor
  · intro ha
    exact ⟨.inl ha, fun p hp => h.apart hp ha⟩
  · rintro ⟨ha | ⟨p, hp⟩, hn⟩
    · exact ha
    · exact absurd hp (hn p)

/-- What a place of `S` holds now was free when nothing of `S` held an item. -/
theorem Conserves.mem_free_of_held (hc : Conserves S b b') (h' : Sound ok b') (hp : p ∈ S)
    (hheld : b'.held p = some a) (hnone : ∀ q ∈ S, b.held q = none) : a ∈ b.free := by
  have hitem : a ∈ b.items := hc.items ▸ .inr ⟨p, hheld⟩
  refine hitem.resolve_right fun ⟨q, hq⟩ => ?_
  by_cases hqS : q ∈ S
  · simp [hnone q hqS] at hq
  · exact hqS (h'.inj ((hc.held q hqS).trans hq) hheld ▸ hp)

theorem Conserves.mem_free_iff {ok' : A → Prop} (hc : Conserves S b b') (h : Sound ok b)
    (h' : Sound ok' b') (hheld : ∀ p ∈ S, b'.held p = b.held p) : a ∈ b'.free ↔ a ∈ b.free := by
  have hsame : b'.held = b.held := by
    funext p
    by_cases hp : p ∈ S
    · exact hheld p hp
    · exact hc.held p hp
  rw [h.mem_free_iff, h'.mem_free_iff, hc.items, hsame]

end Books

end Xv6Container
