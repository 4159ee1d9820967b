import Xv6Container.Data.Except
import Xv6Container.Disk.Basic

/-!
# Allocating and freeing descriptors

What `alloc3_desc` and `free_chain` do, and that their panics are out of reach when the descriptors
handed to them are allocated.

* `VDisk.alloc3Desc_spec` : three free descriptors are taken, or none;
* `VDisk.freeChain_spec` : the chain of a request that is filled in is freed.
-/

namespace Xv6Container

open Function

namespace VDisk

variable {P B : Type} {s s' : VDisk P B} {i : ℕ}

/-- The descriptors `l` are allocated. -/
def without (s : VDisk P B) (l : List ℕ) : VDisk P B :=
  { s with free := fun i => s.free i && !decide (i ∈ l) }

/-- The descriptors `l` are free, and point nowhere. -/
def freed (s : VDisk P B) (l : List ℕ) : VDisk P B :=
  { s with
    desc := fun i => if i ∈ l then { s.desc i with addr := .null } else s.desc i
    free := fun i => s.free i || decide (i ∈ l) }

theorem allocDesc_eq_some (h : s.allocDesc = some (i, s')) :
    i < NUM ∧ s.free i = true ∧ s' = { s with free := update s.free i false } := by
  obtain ⟨j, hj, he⟩ := Option.map_eq_some_iff.1 h
  cases he
  exact ⟨List.mem_range.1 (List.mem_of_find?_eq_some hj),
    List.find?_some (p := fun i => s.free i) hj, rfl⟩

theorem freeDesc_eq_ok (hi : i < NUM) (hf : s.free i = false) :
    s.freeDesc i = .ok (s.freed [i]) := by
  rw [freeDesc, if_neg (by omega), hf, if_neg (by simp)]
  congr 1
  simp only [freed, List.mem_singleton, VDisk.mk.injEq, and_true, true_and]
  constructor
  · funext j
    by_cases hj : j = i
    · subst hj
      simp
    · simp [hj]
  · funext j
    by_cases hj : j = i
    · subst hj
      simp
    · simp [hj]

theorem freed_freed (l l' : List ℕ) : (s.freed l).freed l' = s.freed (l ++ l') := by
  simp only [freed, VDisk.mk.injEq, and_true, true_and]
  constructor
  · funext i
    by_cases h : i ∈ l <;> by_cases h' : i ∈ l' <;> simp [h, h']
  · funext i
    simp [Bool.or_assoc]

theorem freed_nil : s.freed [] = s := by
  simp [freed]

theorem foldlM_freeDesc {l : List ℕ} (hnd : l.Nodup) (hl : ∀ i ∈ l, i < NUM ∧ s.free i = false) :
    l.foldlM freeDesc s = .ok (s.freed l) := by
  induction l generalizing s with
  | nil => simp [freed_nil, pure, Except.pure]
  | cons i l ih =>
    rw [List.nodup_cons] at hnd
    obtain ⟨hi, hf⟩ := hl i List.mem_cons_self
    rw [List.foldlM_cons, freeDesc_eq_ok hi hf]
    refine Eq.trans (ih hnd.2 fun j hj => ?_) (by rw [freed_freed, List.singleton_append])
    obtain ⟨hj', hfj⟩ := hl j (List.mem_cons_of_mem _ hj)
    have hne : j ≠ i := fun e => hnd.1 (e ▸ hj)
    exact ⟨hj', by simp [freed, hfj, hne]⟩

theorem freed_without {l : List ℕ} (hl : ∀ i ∈ l, s.free i = true) :
    (s.without l).freed l = { s with desc := ((s.without l).freed l).desc } := by
  simp only [freed, without, VDisk.mk.injEq, and_true, true_and]
  funext i
  by_cases h : i ∈ l
  · simp [h, hl i h]
  · simp [h]

theorem allocDescs_spec (n : ℕ) (idx : List ℕ) (hnd : idx.Nodup)
    (hidx : ∀ i ∈ idx, i < NUM ∧ s.free i = true) :
    (∃ idx', allocDescs n idx (s.without idx) = .ok (some idx', s.without idx') ∧
      idx'.length = idx.length + n ∧ idx'.Nodup ∧ ∀ i ∈ idx', i < NUM ∧ s.free i = true) ∨
    ∃ desc', allocDescs n idx (s.without idx) = .ok (none, { s with desc := desc' }) ∧
      ∀ i, s.free i = false → desc' i = s.desc i := by
  induction n generalizing idx with
  | zero => exact .inl ⟨idx, rfl, rfl, hnd, hidx⟩
  | succ n ih =>
    rw [allocDescs]
    split
    · rename_i i s' halloc
      obtain ⟨hi, hf, rfl⟩ := allocDesc_eq_some halloc
      simp only [without, Bool.and_eq_true, Bool.not_eq_true', decide_eq_false_iff_not] at hf
      have hmore : { s.without idx with free := update (s.without idx).free i false } =
          s.without (idx ++ [i]) := by
        simp only [without, VDisk.mk.injEq, and_true, true_and]
        funext j
        by_cases hj : j = i
        · subst hj
          simp
        · simp [hj]
      rw [hmore]
      obtain ⟨idx', h, hlen, hrest⟩ | hnone := ih (idx ++ [i])
        (List.nodup_append.2 ⟨hnd, List.nodup_singleton i, fun a ha b hb e =>
          hf.2 (List.mem_singleton.1 hb ▸ e ▸ ha)⟩)
        (fun j hj => (List.mem_append.1 hj).elim (hidx j) fun hj => by
          rw [List.mem_singleton.1 hj]
          exact ⟨hi, hf.1⟩)
      · refine .inl ⟨idx', h, ?_, hrest⟩
        rw [hlen, List.length_append, List.length_singleton]
        omega
      · exact .inr hnone
    · refine .inr ⟨((s.without idx).freed idx).desc, ?_, fun i hi => ?_⟩
      · rw [foldlM_freeDesc hnd fun i hi => ⟨(hidx i hi).1, by simp [without, hi]⟩,
          freed_without fun i hi => (hidx i hi).2]
        rfl
      · have hni : i ∉ idx := fun h => by
          rw [(hidx i h).2] at hi
          cases hi
        simp [freed, hni, without]

theorem alloc3Desc_spec (s : VDisk P B) :
    (∃ i₀ i₁ i₂, s.alloc3Desc = .ok (some [i₀, i₁, i₂], s.without [i₀, i₁, i₂]) ∧
      [i₀, i₁, i₂].Nodup ∧ ∀ i ∈ [i₀, i₁, i₂], i < NUM ∧ s.free i = true) ∨
    ∃ desc', s.alloc3Desc = .ok (none, { s with desc := desc' }) ∧
      ∀ i, s.free i = false → desc' i = s.desc i := by
  have hnil : s.without [] = s := by simp [without]
  have hspec := allocDescs_spec (s := s) 3 [] List.nodup_nil (by simp)
  rw [hnil] at hspec
  obtain ⟨idx, h, hlen, hrest⟩ | hnone := hspec
  · match idx, hlen with
    | [i₀, i₁, i₂], _ => exact .inl ⟨i₀, i₁, i₂, h, hrest⟩
  · exact .inr hnone

/-- The descriptors of the request are filled in. -/
structure Filled (s : VDisk P B) (r : DiskReq B) : Prop where
  next₀ : (s.desc r.i₀).hasNext = true ∧ (s.desc r.i₀).next = r.i₁
  next₁ : (s.desc r.i₁).hasNext = true ∧ (s.desc r.i₁).next = r.i₂
  last : (s.desc r.i₂).hasNext = false ∧ (s.desc r.i₂).addr = .status r.i₀

theorem Filled.congr {r : DiskReq B} (hr : s.Filled r) (h : ∀ i ∈ r.chain, s'.desc i = s.desc i) :
    s'.Filled r := by
  simp only [DiskReq.chain, List.mem_cons, List.not_mem_nil, or_false, forall_eq_or_imp,
    forall_eq] at h
  obtain ⟨h0, h1, h2⟩ := h
  exact ⟨by rw [h0]; exact hr.next₀, by rw [h1]; exact hr.next₁, by rw [h2]; exact hr.last⟩

theorem freeChain_spec {r : DiskReq B} (hr : s.Filled r) (hnd : r.chain.Nodup)
    (hown : ∀ i ∈ r.chain, i < NUM ∧ s.free i = false) :
    freeChain (NUM + 1) r.i₀ s = .ok (s.freed r.chain) := by
  simp only [DiskReq.chain, List.nodup_cons, List.mem_cons, List.not_mem_nil, or_false,
    not_or] at hnd hown
  obtain ⟨⟨h01, h02⟩, h12, -⟩ := hnd
  have hkeep : ∀ l j, ((s.freed l).desc j).hasNext = (s.desc j).hasNext ∧
      ((s.freed l).desc j).next = (s.desc j).next := fun l j => by
    by_cases hj : j ∈ l <;> simp [freed, hj]
  rw [freeChain, freeDesc_eq_ok (hown _ (.inl rfl)).1 (hown _ (.inl rfl)).2]
  change (if ((s.freed [r.i₀]).desc r.i₀).hasNext = true then _ else _) = _
  rw [(hkeep _ _).1, (hkeep _ _).2, hr.next₀.1, hr.next₀.2, if_pos rfl, freeChain,
    freeDesc_eq_ok (hown _ (.inr (.inl rfl))).1 (by
      simp [freed, (hown r.i₁ (.inr (.inl rfl))).2, Ne.symm h01]), freed_freed]
  change (if ((s.freed [r.i₀, r.i₁]).desc r.i₁).hasNext = true then _ else _) = _
  rw [(hkeep _ _).1, (hkeep _ _).2, hr.next₁.1, hr.next₁.2, if_pos rfl, freeChain,
    freeDesc_eq_ok (hown _ (.inr (.inr rfl))).1 (by
      simp [freed, (hown r.i₂ (.inr (.inr rfl))).2, Ne.symm h02, Ne.symm h12]), freed_freed]
  change (if ((s.freed r.chain).desc r.i₂).hasNext = true then _ else _) = _
  rw [(hkeep _ _).1, hr.last.1]
  rfl

end VDisk

end Xv6Container
