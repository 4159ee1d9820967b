import Mathlib.Data.List.Nodup

/-!
# Doubly linked rings

A ring of cells with a head, which is the pointer `none`; every cell and the head have a pointer to
the next and one to the previous.

* `Follows f x l` : from `x` on, the pointers `f` lead through the cells of `l` and to the head;
* `Ring.Holds` : `next` leads through `l`, and `prev` through `l` backwards;
* `Holds.unlink`, `Holds.pushFront` : taking a cell out, and putting one first;
* `Follows.findFrom` : a loop that follows the pointers finds the first cell of the list.
-/

namespace Xv6Container

open Function

variable {α : Type*}

/-- From `x` on, `f` leads through `l` and to the head. -/
def Follows (f : Option α → Option α) : Option α → List α → Prop
  | x, [] => f x = none
  | x, b :: l => f x = some b ∧ Follows f (some b) l

/-- The last pointer of a walk from `x` through `l`. -/
def lastFrom : Option α → List α → Option α
  | x, [] => x
  | _, b :: l => lastFrom (some b) l

/-- Follow `f` from `x` to the first cell with `P`, in at most the given number of steps. -/
def findFrom (f : Option α → Option α) (P : α → Bool) : ℕ → Option α → Option α
  | 0, _ => none
  | _ + 1, none => none
  | n + 1, some b => if P b then some b else findFrom f P n (f (some b))

namespace Follows

variable {f g : Option α → Option α} {x : Option α} {b : α} {l l₁ l₂ : List α}

theorem congr {y : Option α} (h : Follows f x l) (hx : g y = f x)
    (hl : ∀ c ∈ l, g (some c) = f (some c)) : Follows g y l := by
  induction l generalizing x y with
  | nil => exact hx.trans h
  | cons c l ih =>
    exact ⟨hx.trans h.1, ih h.2 (hl c List.mem_cons_self) fun d hd =>
      hl d (List.mem_cons_of_mem _ hd)⟩

theorem apply_self (h : Follows f x l) : f x = l.head? := by
  cases l with
  | nil => exact h
  | cons c l => exact h.1

theorem apply (h : Follows f x (l₁ ++ b :: l₂)) : f (some b) = l₂.head? := by
  induction l₁ generalizing x with
  | nil => exact h.2.apply_self
  | cons c l₁ ih => exact ih h.2

theorem findFrom (h : Follows f x l) (P : α → Bool) {n : ℕ} (hn : l.length < n) :
    findFrom f P n (f x) = l.find? P := by
  induction l generalizing x n with
  | nil =>
    obtain ⟨n, rfl⟩ := Nat.exists_eq_succ_of_ne_zero (by omega : n ≠ 0)
    rw [h.apply_self]
    rfl
  | cons c l ih =>
    obtain ⟨n, rfl⟩ := Nat.exists_eq_succ_of_ne_zero (by omega : n ≠ 0)
    rw [h.1, Xv6Container.findFrom, List.find?_cons, ih h.2 (by simpa using hn)]
    cases P c <;> rfl

theorem lastFrom_mem (x : Option α) (l : List α) :
    lastFrom x l = x ∨ ∃ c ∈ l, lastFrom x l = some c := by
  induction l generalizing x with
  | nil => exact .inl rfl
  | cons c l ih =>
    refine .inr ?_
    rcases ih (some c) with h | ⟨d, hd, h⟩
    · exact ⟨c, List.mem_cons_self, h⟩
    · exact ⟨d, List.mem_cons_of_mem _ hd, h⟩

variable [DecidableEq α]

/-- The pointer to `b` is led past `b`. -/
theorem skip (h : Follows f x (l₁ ++ b :: l₂)) (hx : ∀ c ∈ l₁ ++ b :: l₂, some c ≠ x)
    (hl : (l₁ ++ b :: l₂).Nodup) :
    Follows (update f (lastFrom x l₁) (f (some b))) x (l₁ ++ l₂) := by
  induction l₁ generalizing x with
  | nil =>
    obtain ⟨-, h⟩ := h
    have hne : ∀ c ∈ l₂, update f x (f (some b)) (some c) = f (some c) := fun c hc =>
      update_of_ne (hx c (List.mem_cons_of_mem _ hc)) ..
    cases l₂ with
    | nil => exact (update_self ..).trans h
    | cons c l₂ =>
      exact ⟨(update_self ..).trans h.1, h.2.congr (hne c List.mem_cons_self) fun d hd =>
        hne d (List.mem_cons_of_mem _ hd)⟩
  | cons a l₁ ih =>
    obtain ⟨ha, hl⟩ := List.nodup_cons.1 hl
    refine ⟨?_, ih h.2 (fun c hc hca => ha (Option.some.inj hca ▸ hc)) hl⟩
    rw [lastFrom, update_of_ne]
    · exact h.1
    · rcases lastFrom_mem (some a) l₁ with he | ⟨c, hc, he⟩ <;> rw [he]
      · exact (hx a List.mem_cons_self).symm
      · exact (hx c (List.mem_cons_of_mem _ (List.mem_append_left _ hc))).symm

/-- `b` is put after the last cell. -/
theorem extend (h : Follows f x l) (hb : b ∉ l) (hx : ∀ c ∈ b :: l, some c ≠ x) (hl : l.Nodup) :
    Follows (update (update f (some b) none) (lastFrom x l) (some b)) x (l ++ [b]) := by
  induction l generalizing x with
  | nil =>
    refine ⟨update_self .., ?_⟩
    rw [Follows, lastFrom, update_of_ne (hx b List.mem_cons_self), update_self]
  | cons a l ih =>
    obtain ⟨ha, hl⟩ := List.nodup_cons.1 hl
    refine ⟨?_, ih h.2 (fun hc => hb (List.mem_cons_of_mem _ hc)) (fun c hc hca => ?_) hl⟩
    · rw [lastFrom, update_of_ne, update_of_ne (hx b List.mem_cons_self).symm, h.1]
      rcases lastFrom_mem (some a) l with he | ⟨c, hc, he⟩ <;> rw [he]
      · exact (hx a (by simp)).symm
      · exact (hx c (by simp [hc])).symm
    · obtain rfl := Option.some.inj hca
      rcases List.mem_cons.1 hc with rfl | hc
      · exact hb List.mem_cons_self
      · exact ha hc

end Follows

theorem lastFrom_append (x : Option α) (l : List α) (b : α) : lastFrom x (l ++ [b]) = some b := by
  induction l generalizing x with
  | nil => rfl
  | cons a l ih => exact ih (some a)

theorem lastFrom_reverse (l : List α) : lastFrom none l.reverse = l.head? := by
  cases l with
  | nil => rfl
  | cons b l => rw [List.reverse_cons, lastFrom_append, List.head?_cons]

/-- The pointers of a ring. -/
structure Links (α : Type*) where
  next : Option α → Option α
  prev : Option α → Option α

namespace Links

/-- `next` leads through the cells of `l`, and `prev` leads back. -/
structure Holds (L : Links α) (l : List α) : Prop where
  next : Follows L.next none l
  prev : Follows L.prev none l.reverse
  nodup : l.Nodup

variable {L : Links α} {b : α} {l l₁ l₂ : List α}

theorem Holds.swap (h : L.Holds l) : (Links.mk L.prev L.next).Holds l.reverse :=
  ⟨h.prev, by rw [List.reverse_reverse]; exact h.next, List.nodup_reverse.2 h.nodup⟩

theorem Holds.next_apply (h : L.Holds (l₁ ++ b :: l₂)) : L.next (some b) = l₂.head? := h.next.apply

theorem Holds.prev_apply (h : L.Holds (l₁ ++ b :: l₂)) : L.prev (some b) = l₁.reverse.head? := by
  have := h.prev
  rw [List.reverse_append, List.reverse_cons, List.append_assoc] at this
  exact this.apply

/-- In a ring of all cells, `prev` undoes `next`. -/
theorem Holds.prev_next (h : L.Holds l) (hl : ∀ b, b ∈ l) (x : Option α) :
    L.prev (L.next x) = x := by
  cases x with
  | none =>
    rw [h.next.apply_self]
    cases l with
    | nil => exact h.prev
    | cons c l =>
      have h' : L.Holds ([] ++ c :: l) := h
      exact h'.prev_apply
  | some b =>
    obtain ⟨l₁, l₂, rfl⟩ := List.append_of_mem (hl b)
    rw [h.next_apply]
    cases l₂ with
    | nil =>
      rw [List.head?_nil, h.prev.apply_self]
      simp
    | cons c l₂ =>
      have h' : L.Holds ((l₁ ++ [b]) ++ c :: l₂) := by simpa using h
      rw [List.head?_cons, h'.prev_apply]
      simp

theorem Holds.next_prev (h : L.Holds l) (hl : ∀ b, b ∈ l) (x : Option α) : L.next (L.prev x) = x :=
  h.swap.prev_next (fun b => List.mem_reverse.2 (hl b)) x

variable [DecidableEq α]

/-- Take `b` out of the ring. -/
def unlink (L : Links α) (b : α) : Links α :=
  let L := { L with prev := update L.prev (L.next (some b)) (L.prev (some b)) }
  { L with next := update L.next (L.prev (some b)) (L.next (some b)) }

/-- Put `b` after the head. -/
def pushFront (L : Links α) (b : α) : Links α :=
  let L := { L with next := update L.next (some b) (L.next none) }
  let L := { L with prev := update L.prev (some b) none }
  let L := { L with prev := update L.prev (L.next none) (some b) }
  { L with next := update L.next none (some b) }

theorem Holds.unlink (h : L.Holds (l₁ ++ b :: l₂)) : (L.unlink b).Holds (l₁ ++ l₂) := by
  obtain ⟨hb, hl⟩ := List.nodup_middle.1 h.nodup |> List.nodup_cons.1
  have hprev : (L.unlink b).prev = update L.prev (lastFrom none l₂.reverse) (L.prev (some b)) := by
    rw [lastFrom_reverse, ← h.next_apply]
    rfl
  have hself : update L.prev (L.next (some b)) (L.prev (some b)) (some b) = L.prev (some b) := by
    by_cases hn : some b = L.next (some b)
    · rw [← hn, update_self]
    · exact update_of_ne hn ..
  have hnext : (L.unlink b).next = update L.next (lastFrom none l₁) (L.next (some b)) := by
    have hlast := lastFrom_reverse l₁.reverse
    rw [List.reverse_reverse, ← h.prev_apply] at hlast
    rw [hlast]
    exact congrArg (update L.next · _) hself
  refine ⟨?_, ?_, hl⟩
  · rw [hnext]
    exact h.next.skip (by simp) h.nodup
  · have hp := h.prev
    have hn := List.nodup_reverse.2 h.nodup
    rw [List.reverse_append, List.reverse_cons, List.append_assoc] at hp hn
    rw [hprev, List.reverse_append]
    exact hp.skip (by simp) hn

theorem Holds.pushFront (h : L.Holds l) (hb : b ∉ l) : (L.pushFront b).Holds (b :: l) := by
  have hhead : update L.next (some b) (L.next none) none = l.head? := by
    rw [update_of_ne (by simp), h.next.apply_self]
  have hprev : (L.pushFront b).prev =
      update (update L.prev (some b) none) (lastFrom none l.reverse) (some b) := by
    rw [lastFrom_reverse, ← hhead]
    rfl
  have hnext : (L.pushFront b).next =
      update (update L.next (some b) (L.next none)) none (some b) := rfl
  refine ⟨⟨by rw [hnext, update_self], h.next.congr ?_ fun c hc => ?_⟩, ?_,
    List.nodup_cons.2 ⟨hb, h.nodup⟩⟩
  · rw [hnext, update_of_ne (by simp), update_self]
  · have hcb : c ≠ b := fun he => hb (he ▸ hc)
    rw [hnext, update_of_ne (by simp), update_of_ne (by simpa using hcb)]
  · rw [hprev, List.reverse_cons]
    exact h.prev.extend (by simpa using hb) (by simp) (List.nodup_reverse.2 h.nodup)

end Links

end Xv6Container
