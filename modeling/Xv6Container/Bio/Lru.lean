import Mathlib
import Xv6Container.Data.Linked
import Xv6Container.Machine.Basic

/-!
# The list of buffers

The buffers of `kernel/bio.c` are in a doubly linked list, the one released last first.  `bget` goes
forwards to look for a block and backwards to look for a buffer to recycle; `brelse` puts a buffer
that nobody uses any more first.

* `bcache_structure` : **the list, the blocks and the choice of `bget` in every run**.
-/

namespace Xv6Container

open Function

/-- `bcache` with `B` buffers.  The last four fields are histories. -/
structure Bcache (B : ℕ) where
  links : Links (Fin B)
  dev : Fin B → ℕ
  blockno : Fin B → ℕ
  valid : Fin B → Bool
  /-- A `uint`. -/
  refcnt : Fin B → ℕ
  /-- The calls of `bget` that have returned the buffer and have no `brelse` yet. -/
  holds : Fin B → ℕ
  /-- The calls of `bpin` that have no `bunpin` yet. -/
  pins : Fin B → ℕ
  /-- The number of times a buffer was released to `refcnt` 0. -/
  clock : ℕ
  /-- When the buffer was last released to `refcnt` 0; 0 stands for never. -/
  released : Fin B → ℕ

/-- A call of the buffer cache. -/
inductive BcacheCall (B : ℕ) where
  | bget (dev blockno : ℕ)
  | brelse (b : Fin B)
  | bpin (b : Fin B)
  | bunpin (b : Fin B)

namespace Bcache

variable {B : ℕ}

/-- `binit`. -/
def binit (B : ℕ) : Bcache B where
  links := (List.finRange B).foldl Links.pushFront ⟨fun _ => none, fun _ => none⟩
  dev _ := 0
  blockno _ := 0
  valid _ := false
  refcnt _ := 0
  holds _ := 0
  pins _ := 0
  clock := 0
  released _ := 0

/-- The first loop of `bget`. -/
def cached (s : Bcache B) (dev blockno : ℕ) : Option (Fin B) :=
  findFrom s.links.next (fun b => s.dev b = dev ∧ s.blockno b = blockno) (B + 1) (s.links.next none)

/-- The second loop of `bget`. -/
def unused (s : Bcache B) : Option (Fin B) :=
  findFrom s.links.prev (fun b => s.refcnt b = 0) (B + 1) (s.links.prev none)

/-- `b->refcnt++`. -/
def incr (s : Bcache B) (b : Fin B) : Bcache B :=
  { s with refcnt := update s.refcnt b ((s.refcnt b + 1) % 2 ^ 32) }

/-- `b->refcnt--`. -/
def decr (s : Bcache B) (b : Fin B) : Bcache B :=
  { s with refcnt := update s.refcnt b ((s.refcnt b + (2 ^ 32 - 1)) % 2 ^ 32) }

/-- `bget`; there is no result when the kernel panics. -/
def bget (s : Bcache B) (dev blockno : ℕ) : Option (Fin B × Bcache B) :=
  match s.cached dev blockno with
  | some b => some (b, { s.incr b with holds := update s.holds b (s.holds b + 1) })
  | none =>
    match s.unused with
    | some b => some (b, { s with
        dev := update s.dev b dev
        blockno := update s.blockno b blockno
        valid := update s.valid b false
        refcnt := update s.refcnt b 1
        holds := update s.holds b (s.holds b + 1) })
    | none => none

/-- `brelse`. -/
def brelse (s : Bcache B) (b : Fin B) : Bcache B :=
  let s := { s.decr b with holds := update s.holds b (s.holds b - 1) }
  if s.refcnt b = 0 then
    { s with
      links := (s.links.unlink b).pushFront b
      clock := s.clock + 1
      released := update s.released b (s.clock + 1) }
  else s

/-- `bpin`. -/
def bpin (s : Bcache B) (b : Fin B) : Bcache B :=
  { s.incr b with pins := update s.pins b (s.pins b + 1) }

/-- `bunpin`. -/
def bunpin (s : Bcache B) (b : Fin B) : Bcache B :=
  { s.decr b with pins := update s.pins b (s.pins b - 1) }

/-- There are fewer references than a `uint` can count. -/
def Fits (s : Bcache B) : Prop := ∀ b, s.holds b + s.pins b + 1 < 2 ^ 32

instance (s : Bcache B) : Decidable s.Fits := inferInstanceAs (Decidable (∀ _, _))

end Bcache

/-- Calls one after the other: `brelse` is for a holder, and `bunpin` undoes a `bpin` while the
buffer is held. -/
def bcache (B : ℕ) : Machine (Bcache B) (BcacheCall B) where
  next s
    | .bget dev blockno => (s.bget dev blockno).map Prod.snd
    | .brelse b => if 0 < s.holds b then some (s.brelse b) else none
    | .bpin b => some (s.bpin b)
    | .bunpin b => if 0 < s.holds b ∧ 0 < s.pins b then some (s.bunpin b) else none

namespace Bcache

variable {B : ℕ} {s s' : Bcache B} {b : Fin B} {l : List (Fin B)} {dev blockno : ℕ}

/-- The list `l` of all buffers; of two that are not in use, the first was released later. -/
structure Lists (s : Bcache B) (l : List (Fin B)) : Prop where
  holds : s.links.Holds l
  all : ∀ b, b ∈ l
  sorted : l.Pairwise fun a b => s.refcnt a = 0 → s.refcnt b = 0 → s.released b ≤ s.released a

/-- What holds between two calls. -/
structure Inv (s : Bcache B) : Prop where
  list : ∃ l, s.Lists l
  refcnt : ∀ b, s.refcnt b = s.holds b + s.pins b
  past : ∀ b, s.released b ≤ s.clock
  unique : ∀ a b, s.dev a ≠ 0 → s.dev a = s.dev b → s.blockno a = s.blockno b → a = b

theorem holds_foldl {L : Links (Fin B)} {l : List (Fin B)} (h : L.Holds l) {bs : List (Fin B)}
    (hd : bs.Disjoint l) (hn : bs.Nodup) :
    (bs.foldl Links.pushFront L).Holds (bs.reverse ++ l) := by
  induction bs generalizing L l with
  | nil => exact h
  | cons b bs ih =>
    obtain ⟨hb, hn⟩ := List.nodup_cons.1 hn
    rw [List.disjoint_cons_left] at hd
    rw [List.foldl_cons, List.reverse_cons, List.append_assoc]
    refine ih (h.pushFront hd.1) ?_ hn
    exact List.disjoint_cons_right.2 ⟨hb, hd.2⟩

theorem inv_binit (B : ℕ) : (binit B).Inv where
  list := by
    have h : (Links.mk (fun _ : Option (Fin B) => none) fun _ => none).Holds [] :=
      ⟨rfl, rfl, List.nodup_nil⟩
    refine ⟨_, holds_foldl h (List.disjoint_nil_right _) (List.nodup_finRange B),
      fun b => by simp, ?_⟩
    exact List.pairwise_of_forall fun _ _ _ _ => le_rfl
  refcnt _ := rfl
  past _ := le_rfl
  unique _ _ h := absurd rfl h

/-! ### The loops -/

theorem Lists.length_lt (h : s.Lists l) : l.length < B + 1 := by
  have := h.holds.nodup.length_le_card
  rw [Fintype.card_fin] at this
  omega

theorem Lists.cached (h : s.Lists l) (dev blockno : ℕ) :
    s.cached dev blockno = l.find? fun b => s.dev b = dev ∧ s.blockno b = blockno :=
  h.holds.next.findFrom _ h.length_lt

theorem Lists.unused (h : s.Lists l) : s.unused = l.reverse.find? fun b => s.refcnt b = 0 :=
  h.holds.prev.findFrom _ (by rw [List.length_reverse]; exact h.length_lt)

theorem Inv.of_cached_none (h : s.Inv) (hc : s.cached dev blockno = none) (b : Fin B) :
    ¬ (s.dev b = dev ∧ s.blockno b = blockno) := by
  obtain ⟨l, hl⟩ := h.list
  rw [hl.cached, List.find?_eq_none] at hc
  simpa using hc b (hl.all b)

theorem Inv.of_unused (h : s.Inv) (hu : s.unused = some b) :
    s.refcnt b = 0 ∧ ∀ c, s.refcnt c = 0 → s.released b ≤ s.released c := by
  obtain ⟨l, hl⟩ := h.list
  rw [hl.unused, List.find?_eq_some_iff_append] at hu
  obtain ⟨hb, as, bs, hrev, hno⟩ := hu
  have hb : s.refcnt b = 0 := by simpa using hb
  refine ⟨hb, fun c hc => ?_⟩
  have hsort := List.pairwise_reverse.2 hl.sorted
  have hmem := List.mem_reverse.2 (hl.all c)
  rw [hrev] at hsort hmem
  rcases List.mem_append.1 hmem with ha | hbs
  · exact absurd hc (by simpa using hno c ha)
  · rcases List.mem_cons.1 hbs with rfl | hbs
    · exact le_rfl
    · exact (List.pairwise_cons.1 (List.pairwise_append.1 hsort).2.1).1 c hbs hc hb

/-! ### The calls -/

/-- A call that only changes how often `b` is counted, without releasing it, keeps the list. -/
theorem Inv.of_count (h : s.Inv) {r : ℕ} (hlinks : s'.links = s.links)
    (hrel : s'.released = s.released) (hclock : s'.clock = s.clock)
    (hcnt : s'.refcnt = update s.refcnt b r) (hz : r = 0 → s.refcnt b = 0)
    (hb : r = s'.holds b + s'.pins b)
    (hne : ∀ c, c ≠ b → s'.holds c + s'.pins c = s.holds c + s.pins c)
    (hunique : ∀ a b, s'.dev a ≠ 0 → s'.dev a = s'.dev b → s'.blockno a = s'.blockno b → a = b) :
    s'.Inv where
  list := by
    obtain ⟨l, hl⟩ := h.list
    have hzero : ∀ c, s'.refcnt c = 0 → s.refcnt c = 0 := fun c hc => by
      rw [hcnt, update_apply] at hc
      split at hc
      · rename_i hcb
        exact hcb ▸ hz hc
      · exact hc
    exact ⟨l, hlinks ▸ hl.holds, hl.all, hl.sorted.imp fun hab ha hb => by
      rw [hrel]
      exact hab (hzero _ ha) (hzero _ hb)⟩
  refcnt c := by
    rw [hcnt, update_apply]
    split
    · rename_i hcb
      rw [hcb, hb]
    · rename_i hcb
      rw [hne c hcb, h.refcnt]
  past c := by
    rw [hrel, hclock]
    exact h.past c
  unique := hunique

theorem incr_refcnt (h : s.Inv) (hf : s.Fits) (b : Fin B) :
    (s.incr b).refcnt = update s.refcnt b (s.refcnt b + 1) := by
  have hb := hf b
  rw [incr, Nat.mod_eq_of_lt (by rw [h.refcnt]; exact hb)]

theorem decr_refcnt (h : s.Inv) (hf : s.Fits) (hb : 0 < s.refcnt b) :
    (s.decr b).refcnt = update s.refcnt b (s.refcnt b - 1) := by
  have hlt := hf b
  rw [← h.refcnt] at hlt
  rw [decr, show s.refcnt b + (2 ^ 32 - 1) = s.refcnt b - 1 + 2 ^ 32 by omega, Nat.add_mod_right,
    Nat.mod_eq_of_lt (by omega)]

theorem Inv.bget (h : s.Inv) (hf : s.Fits) (hst : s.bget dev blockno = some (b, s')) : s'.Inv := by
  unfold Bcache.bget at hst
  cases hc : s.cached dev blockno with
  | some c =>
    rw [hc] at hst
    cases hst
    refine h.of_count rfl rfl rfl (incr_refcnt h hf b) (by omega) ?_ (fun c hcb => ?_) h.unique
    · rw [h.refcnt]
      simp only [incr, update_self]
      omega
    · simp only [incr, update_of_ne hcb]
  | none =>
    rw [hc] at hst
    dsimp only at hst
    cases hu : s.unused with
    | none => rw [hu] at hst; cases hst
    | some c =>
      rw [hu] at hst
      cases hst
      have hzero := (h.of_unused hu).1
      have hcount := h.refcnt b
      refine h.of_count rfl rfl rfl rfl (by omega) ?_ (fun c hcb => ?_) fun x y hx hdev hblk => ?_
      · simp only [update_self]
        omega
      · simp only [update_of_ne hcb]
      · -- the block is nowhere else
        have hno := h.of_cached_none hc
        by_cases hxb : x = b <;> by_cases hyb : y = b <;>
          simp only [update_apply, hxb, hyb, if_true, if_false] at hx hdev hblk
        · rw [hxb, hyb]
        · exact absurd ⟨hdev.symm, hblk.symm⟩ (hno y)
        · exact absurd ⟨hdev, hblk⟩ (hno x)
        · exact h.unique x y hx hdev hblk

theorem Inv.brelse (h : s.Inv) (hf : s.Fits) (hb : 0 < s.holds b) : (s.brelse b).Inv := by
  have hcount := h.refcnt b
  have hcnt := decr_refcnt h hf (b := b) (by omega)
  unfold Bcache.brelse
  dsimp only
  rw [hcnt, update_self]
  split
  · rename_i hzero
    obtain ⟨l, hl⟩ := h.list
    obtain ⟨l₁, l₂, rfl⟩ := List.append_of_mem (hl.all b)
    have hnodup := hl.holds.nodup
    have hnot : b ∉ l₁ ++ l₂ := (List.nodup_cons.1 (List.nodup_middle.1 hnodup)).1
    refine ⟨⟨b :: (l₁ ++ l₂), hl.holds.unlink.pushFront hnot, fun c => ?_,
      List.pairwise_cons.2 ⟨fun c hc _ _ => ?_, ?_⟩⟩, fun c => ?_, fun c => ?_, h.unique⟩
    · have := hl.all c
      simp only [List.mem_append, List.mem_cons] at this ⊢
      tauto
    · have hcb : c ≠ b := fun he => hnot (he ▸ hc)
      simp only [decr, update_self, update_of_ne hcb]
      exact (h.past c).trans (Nat.le_succ _)
    · have hsub : (l₁ ++ l₂).Sublist (l₁ ++ b :: l₂) :=
        (List.Sublist.refl l₁).append (List.sublist_cons_self b l₂)
      refine (hl.sorted.sublist hsub).imp_of_mem fun hx hy hxy => ?_
      rename_i x y
      have hxb : x ≠ b := fun he => hnot (he ▸ hx)
      have hyb : y ≠ b := fun he => hnot (he ▸ hy)
      simpa only [decr, update_of_ne hxb, update_of_ne hyb] using hxy
    · by_cases hcb : c = b
      · subst hcb
        simp only [decr, update_self]
        omega
      · simpa only [decr, update_of_ne hcb] using h.refcnt c
    · by_cases hcb : c = b
      · subst hcb
        simp only [decr, update_self, le_refl]
      · simp only [decr, update_of_ne hcb]
        exact (h.past c).trans (Nat.le_succ _)
  · refine h.of_count rfl rfl rfl rfl (by omega) ?_ (fun c hcb => ?_) h.unique
    · simp only [decr, update_self]
      omega
    · simp only [decr, update_of_ne hcb]

theorem Inv.bpin (h : s.Inv) (hf : s.Fits) (b : Fin B) : (s.bpin b).Inv := by
  refine h.of_count rfl rfl rfl (incr_refcnt h hf b) (by omega) ?_ (fun c hcb => ?_) h.unique
  · rw [h.refcnt]
    simp only [Bcache.bpin, incr, update_self]
    omega
  · simp only [Bcache.bpin, incr, update_of_ne hcb]

theorem Inv.bunpin (h : s.Inv) (hf : s.Fits) (hb : 0 < s.holds b) (hp : 0 < s.pins b) :
    (s.bunpin b).Inv := by
  have hcount := h.refcnt b
  refine h.of_count rfl rfl rfl (decr_refcnt h hf (by omega)) (by omega) ?_ (fun c hcb => ?_)
    h.unique
  · simp only [Bcache.bunpin, decr, update_self]
    omega
  · simp only [Bcache.bunpin, decr, update_of_ne hcb]

theorem Inv.next {c : BcacheCall B} (h : s.Inv) (hf : s.Fits)
    (hst : (bcache B).next s c = some s') : s'.Inv := by
  cases c with
  | bget dev blockno =>
    obtain ⟨⟨b, t⟩, ht, rfl⟩ := Option.map_eq_some_iff.1 hst
    exact h.bget hf ht
  | brelse b =>
    obtain ⟨hb, hst⟩ := Option.ite_none_right_eq_some.1 hst
    cases hst
    exact h.brelse hf hb
  | bpin b =>
    cases hst
    exact h.bpin hf b
  | bunpin b =>
    obtain ⟨⟨hb, hp⟩, hst⟩ := Option.ite_none_right_eq_some.1 hst
    cases hst
    exact h.bunpin hf hb hp

end Bcache

/-- **The structure of the buffer cache.**  After any calls, with fewer than `2 ^ 32` references to
a buffer: the list from `bcache.head` on has every buffer once, and `prev` and `next` undo each
other; no block of a device is in two buffers; and a buffer that `bget` recycles is not in use, and
of those not in use the one that was released first, or never. -/
theorem bcache_structure {B : ℕ} {s : Bcache B} {ls : List (BcacheCall B)}
    (hrun : (bcache B).Run (fun s _ => s.Fits) (.binit B) ls s) :
    (∃ l : List (Fin B), Follows s.links.next none l ∧ l.Nodup ∧ ∀ b, b ∈ l) ∧
    (∀ x, s.links.prev (s.links.next x) = x ∧ s.links.next (s.links.prev x) = x) ∧
    (∀ a b, s.dev a ≠ 0 → s.dev a = s.dev b → s.blockno a = s.blockno b → a = b) ∧
    ∀ dev blockno b s', s.bget dev blockno = some (b, s') →
      (∀ c, ¬ (s.dev c = dev ∧ s.blockno c = blockno)) →
        s.refcnt b = 0 ∧ ∀ c, s.refcnt c = 0 → s.released b ≤ s.released c := by
  have h : s.Inv := hrun.invariant (Bcache.inv_binit B) fun _ _ _ h hf hst => h.next hf hst
  obtain ⟨l, hl⟩ := h.list
  refine ⟨⟨l, hl.holds.next, hl.holds.nodup, hl.all⟩, fun x => ⟨hl.holds.prev_next hl.all x,
    hl.holds.next_prev hl.all x⟩, h.unique, fun dev blockno b s' hget hno => h.of_unused ?_⟩
  have hc : s.cached dev blockno = none := by
    rw [hl.cached, List.find?_eq_none]
    exact fun c _ => by simpa using hno c
  rw [Bcache.bget, hc] at hget
  dsimp only at hget
  cases hu : s.unused with
  | none => rw [hu] at hget; cases hget
  | some c =>
    rw [hu] at hget
    cases hget
    rfl

/-- Three blocks in two buffers: the third takes the buffer that was released first. -/
def threeBlocks : List (BcacheCall 2) :=
  [.bget 1 5, .bget 1 6, .bpin 0, .brelse 1, .bunpin 0, .brelse 0]

theorem bcache_structure_three : ∃ s,
    (bcache 2).Run (fun s _ => s.Fits) (.binit 2) threeBlocks s ∧
      (s.bget 1 7).map Prod.fst = some 1 ∧ ∀ c, s.refcnt c = 0 → s.released 1 ≤ s.released c := by
  obtain ⟨s, hrun, hget, hno⟩ : ∃ s, (bcache 2).Run (fun s _ => s.Fits) (.binit 2) threeBlocks s ∧
      (s.bget 1 7).map Prod.fst = some 1 ∧ ∀ c, ¬ (s.dev c = 1 ∧ s.blockno c = 7) :=
    Machine.exists_run (by decide +kernel)
  obtain ⟨⟨b, s'⟩, hs', rfl⟩ := Option.map_eq_some_iff.1 hget
  exact ⟨s, hrun, hget, ((bcache_structure hrun).2.2.2 1 7 1 s' hs' hno).2⟩

end Xv6Container
