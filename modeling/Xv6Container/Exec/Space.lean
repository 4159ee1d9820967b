import Xv6Container.Data.Within
import Xv6Container.Exec.Load
import Xv6Container.Mem.Holders

/-!
# The address spaces of a program

The page table that `exec` begins with, the two pages above the program, and the page tables that it
gives back.

* `procPagetable_total` : `proc_pagetable` returns an address space without user pages, if there is
  a page for its root;
* `Stacked o a r m k f` : an address space with a program of `k` pages, a guard page and a stack
  page above it;
* `Built.stack` : `uvmalloc` and `uvmclear` make it, if there is memory;
* `procFreepagetable_keeps` : `proc_freepagetable` leaves other address spaces alone.
-/

namespace Xv6Container

open Function Books Phys

variable {A B : Type} [DecidableEq A] [DecidableEq B] {o : Owners A B} {a c : A} {φ φ' : Phys}
  {m : Ram} {r rc k va pa sz : ℕ} {perm : Perm} {f : ℕ → UInt8} {u : Unit}

/-! ### A new page table -/

/-- The owners when the address space `a` has the root `r`. -/
def Owners.withRoot (o : Owners A B) (a : A) (r : ℕ) : Owners A B :=
  { o with root := update o.root a (some r) }

omit [DecidableEq B] in
theorem Owners.withRoot_root : (o.withRoot a r).root a = some r := update_self ..

omit [DecidableEq B] in
theorem Owners.dropRoot_withRoot (h : o.root a = none) :
    { o.withRoot a r with root := update (o.withRoot a r).root a none } = o := by
  ext1
  · simp [withRoot, ← h]
  all_goals rfl

theorem Phys.pteOf_of_vpath {va' : ℕ} (h : vpath va = vpath va') :
    pteOf φ r va = pteOf φ r va' := by
  simp only [vpath, List.cons.injEq, and_true] at h
  simp only [pteOf, h]

namespace Owners

omit [DecidableEq A] [DecidableEq B] in
theorem missing_of_pte {va' : ℕ} (hr : o.root a = some r) (h : (pteOf φ r va).isSome = true)
    (h2 : px 2 va' = px 2 va) (h1 : px 1 va' = px 1 va) : missing φ r va' = 0 := by
  obtain ⟨pte, hpte⟩ := Option.isSome_iff_exists.1 h
  rw [pteOf_held hr] at hpte
  obtain ⟨t, ht, -⟩ := Option.bind_eq_some_iff.1 hpte
  have hup : (o.held φ (.page a [px 2 va])).isSome = true :=
    held_of_prefix ht (List.prefix_append [px 2 va] [px 1 va])
  rw [missing_held hr, h2, h1, if_pos hup, if_pos (by rw [ht]; rfl)]

theorem Inv.mapFixed_total (hI : o.Inv φ) (pa : ℕ) (hr : o.root a = some r) (htf : o.tf a = none)
    (hva : va = TRAMPOLINE ∨ va = TRAPFRAME) (hperm : perm.leaf = true)
    (hnone : pteOf φ r va = none) :
    ∃ ok φ', Returns (mappages r va PGSIZE pa perm) φ ok φ' ∧ o.Inv φ' ∧
      Steps (tables a) (o.books φ) (o.books φ') ∧
      (φ.Avail (missing φ r va) →
        Used φ φ' (missing φ r va) ∧ (pteOf φ' r va).isSome = true) ∧
      ∀ pte, pteOf φ' r va = some pte → pte.perm = perm := by
  have hal : va % PGSIZE = 0 := by
    obtain rfl | rfl := hva <;> decide
  have hmax : va < MAXVA := by
    obtain rfl | rfl := hva <;> decide
  have hle : va + PGSIZE ≤ 2 ^ 63 := by
    obtain rfl | rfl := hva <;> decide
  have hfixed : Fixed (vpath va) := by
    obtain rfl | rfl := hva
    · exact .inl rfl
    · exact .inr rfl
  obtain ⟨res, φ₁, hw, hmap⟩ := hI.mappages_total pa perm hr hal hmax hnone
  obtain ⟨hI', hs⟩ := hI.mappages_fixed hr hal hle hfixed hperm (by simp [htf]) hmap
  obtain ⟨-, hI1, -, hres⟩ := hI.walk hr hw
  refine ⟨_, _, hmap, hI', hs, fun hav => ?_, fun pte hpte => ?_⟩
  · obtain ⟨t, φ₂, hw', hused⟩ := hI.walk_avail hr hmax hav
    obtain ⟨rfl, rfl⟩ := hw.unique hw'
    refine ⟨hused.setPte t _ _, ?_⟩
    rw [mapAt, hI1.pteOf_setLeaf hr (hres t _ rfl).1]
    rfl
  · rcases res with _ | ⟨t, i⟩
    · rw [mapAt, hI.pteOf_walk hr hr hw, hnone] at hpte
      cases hpte
    · obtain ⟨ht, rfl⟩ := hres t i rfl
      rw [mapAt, hI1.pteOf_setLeaf hr ht] at hpte
      cases hpte
      rfl

end Owners

theorem returns_uvmcreate (h : φ.Avail 1) : ∃ r φ', Returns uvmcreate φ r φ' ∧ Used φ φ' 1 ∧
    r ∈ φ.freelist ∧ Taken φ φ' r ∧ ∀ i, (φ'.mem r i).v = false := by
  obtain ⟨r, φ₁, hk, htaken, hused⟩ := kalloc_avail h
  have hr : Returns uvmcreate φ r (φ₁.memset r 0) := by
    refine returns_bind.2 ⟨some r, φ₁, hk, ?_⟩
    simp only [returns_bind, returns_modify]
    exact ⟨⟨⟩, _, rfl, returns_pure.2 ⟨rfl, rfl⟩⟩
  exact ⟨r, _, hr, hused.memset r 0, htaken.free ▸ List.mem_cons_self, uvmcreate_spec hr⟩

/-- `proc_pagetable`: the root, and the tables for the trampoline and the trapframe if there are
pages for them. -/
theorem procPagetable_total (trampoline tf : ℕ) (hI : o.Inv m.phys) (hnew : o.root a = none)
    (htf : o.tf a = none) (hhand : o.hand = none) (h : m.phys.Avail 1) :
    ∃ r φ', Returns (Phys.procPagetable trampoline tf) m.phys r φ' ∧ r ∈ m.phys.freelist ∧
      Built (o.withRoot a r) a r ⟨φ', m.data⟩ 0 (fun _ => 0) ∧
      Steps (Owners.space a) (o.books m.phys) ((o.withRoot a r).books φ') ∧
      (m.phys.Avail 3 → Used m.phys φ' 3) := by
  obtain ⟨r, φ₁, h1, hused1, hfree, htaken, hzero⟩ := returns_uvmcreate h
  obtain ⟨hI1, hmove, hm1⟩ := hI.newRoot hnew htaken hzero
  change (o.withRoot a r).Inv φ₁ at hI1
  change Move _ _ ((o.withRoot a r).books φ₁) at hmove
  change (o.withRoot a r).Mapped φ₁ a 0 at hm1
  have hr : (o.withRoot a r).root a = some r := Owners.withRoot_root
  have hempty : ∀ va, pteOf φ₁ r va = none := fun va => Owners.pteOf_empty hzero
  obtain ⟨ok₂, φ₂, h2, hI2, hs2, hav2, hperm2⟩ := hI1.mapFixed_total trampoline hr
    htf (.inl rfl) (rfl : Perm.leaf ⟨true, false, true, false⟩ = true) (hempty _)
  obtain ⟨hmap2, hheld2⟩ := hI1.mappages_frame hr (by decide) (by decide) h2
  have hother2 : ∀ va, vpath va ≠ vpath TRAMPOLINE → pteOf φ₂ r va = none := fun va hva =>
    (hmap2 a r va hr fun e => hva e.2).trans (hempty va)
  obtain ⟨ok₃, φ₃, h3, hI3, hs3, hav3, hperm3⟩ := hI2.mapFixed_total tf hr htf
    (.inr rfl) (rfl : Perm.leaf ⟨true, true, false, false⟩ = true) (hother2 _ (by decide))
  obtain ⟨hmap3, hheld3⟩ := hI2.mappages_frame hr (by decide) (by decide) h3
  refine ⟨r, φ₃, ?_, hfree, ⟨hI3, hr, hhand, ?_, fun i hi => ?_, fun v hv => absurd hv (by omega),
    fun _ _ => rfl, fun va pte _ _ hpte => ?_⟩, ?_, fun hav => ?_⟩
  · exact returns_bind.2 ⟨r, φ₁, h1, returns_bind.2 ⟨ok₂, φ₂, h2, returns_bind.2
      ⟨ok₃, φ₃, h3, returns_pure.2 ⟨rfl, rfl⟩⟩⟩⟩
  · exact (Owners.MappedOn.steps hm1 hs2 Owners.upath_notMem_tables).steps hs3
      Owners.upath_notMem_tables
  · -- the tables for the two pages are under the last entry but one of the root
    have hoff : ∀ π, (o.withRoot a r).held φ₃ (.page a (i :: π)) = none := by
      intro π
      rw [hheld3 a (i :: π), hheld2 a (i :: π)]
      · exact Owners.held_below_of_invalid (π := []) (by simp) (by rw [Owners.held_root, hr])
          (hzero i)
      all_goals
        rintro ⟨-, hp⟩
        rw [(List.cons_prefix_cons.1 hp).1] at hi
        revert hi
        decide
    exact ⟨by rw [hoff []]; simp, fun j => by rw [hoff [j]]; simp⟩
  · by_cases htop : vpath va = vpath TRAPFRAME
    · rw [pteOf_of_vpath htop] at hpte
      rw [hperm3 pte hpte]
    · rw [hmap3 a r va hr fun e => htop e.2] at hpte
      by_cases htop' : vpath va = vpath TRAMPOLINE
      · rw [pteOf_of_vpath htop'] at hpte
        rw [hperm2 pte hpte]
      · rw [hother2 va htop'] at hpte
        cases hpte
  · have hsub : ({.page a []} : Set (PagePlace A B)) ⊆ Owners.space a := by
      rintro _ rfl
      exact Owners.page_mem_space _ _
    exact ((hmove.mono hsub).steps.trans (hs2.mono (Owners.tables_subset _))).trans
      (hs3.mono (Owners.tables_subset _))
  · have hmiss2 : missing φ₁ r TRAMPOLINE = 2 := missingFrom_empty hzero
    rw [hmiss2] at hav2
    obtain ⟨hused2, hpte2⟩ := hav2 ((hused1.avail h).1 hav)
    have hmiss3 : missing φ₂ r TRAPFRAME = 0 :=
      Owners.missing_of_pte hr hpte2 (by decide) (by decide)
    rw [hmiss3] at hav3
    exact (hused1.trans hused2).trans (hav3 avail_zero).1

/-! ### Giving page tables back -/

/-- The messages that loading a program could panic with. -/
def loadPanics : List String :=
  ["loadseg: va must be page aligned", "loadseg: address should exist", "remap"]

/-- A way to stop other than a panic of `loadPanics`. -/
def Quiet (e : Stop) : Prop := ∀ msg ∈ loadPanics, e ≠ .panic msg

instance (e : Stop) : Decidable (Quiet e) := inferInstanceAs (Decidable (∀ msg ∈ loadPanics, _))

theorem within_kfree (pa : ℕ) : Within AnyState Quiet (kfree pa) := by
  have hput : Within AnyState Quiet (do
      modify (·.memset pa 1)
      modify fun φ => { φ with freelist := pa :: φ.freelist } : PhysM PUnit) :=
    .bind (.modify fun _ => trivial) fun _ => .modify fun _ => trivial
  exact .bind .get fun _ => .ite (fun _ => .bind (.throw (by decide)) fun _ => hput) fun _ => hput

theorem within_walkFrom_false (va : ℕ) (levels : List ℕ) (t : ℕ) :
    Within AnyState Quiet (walkFrom va false levels t) := by
  induction levels generalizing t with
  | nil => exact .pure _
  | cons level levels ih => exact .bind .get fun φ => .ite (fun _ => ih _) fun _ => .pure _

theorem within_unmapPage (r : ℕ) (doFree : Bool) (va : ℕ) :
    Within AnyState Quiet (unmapPage r doFree va) := by
  have hwalk : Within AnyState Quiet (walk r va false) :=
    .ite (fun _ => .bind (.throw (by decide)) fun _ => within_walkFrom_false va [2, 1] r)
      fun _ => within_walkFrom_false va [2, 1] r
  refine .bind hwalk fun res => ?_
  rcases res with _ | ⟨t, i⟩
  · exact .throw (by decide)
  · have hclear : Within AnyState Quiet (modify (·.setPte t i .zero) : PhysM PUnit) :=
      .modify fun _ => trivial
    refine .bind .get fun φ => ?_
    have hfree : Within AnyState Quiet (do
        if doFree then
          kfree (φ.mem t i).pa
        modify (·.setPte t i .zero) : PhysM PUnit) :=
      .ite (fun _ => .bind (within_kfree _) fun _ => hclear) fun _ => hclear
    have hleaf : Within AnyState Quiet (do
        if (φ.mem t i).perm = Perm.none then
          throw (.panic "uvmunmap: not a leaf")
        if doFree then
          kfree (φ.mem t i).pa
        modify (·.setPte t i .zero) : PhysM PUnit) :=
      .ite (fun _ => .bind (.throw (by decide)) fun _ => hfree) fun _ => hfree
    exact .ite (fun _ => .bind (.throw (by decide)) fun _ => hleaf) fun _ => hleaf

theorem within_uvmunmap (r va size : ℕ) (doFree : Bool) :
    Within AnyState Quiet (uvmunmap r va size doFree) := by
  have hfrom : ∀ n a, Within AnyState Quiet (uvmunmapFrom r doFree n a) := by
    intro n
    induction n with
    | zero => exact within_unmapPage r doFree
    | succ n ih => exact fun a => .bind (within_unmapPage r doFree a) fun _ => ih _
  exact hfrom _ _

theorem within_freewalk (n r : ℕ) : Within AnyState Quiet (freewalk n r) := by
  induction n generalizing r with
  | zero => exact .throw (by decide)
  | succ n ih =>
    refine .bind (.forM _ fun i => .bind .get fun φ => .ite (fun _ => ?_) fun _ => ?_) fun _ =>
      within_kfree r
    · exact .bind (ih _) fun _ => .modify fun _ => trivial
    · exact .ite (fun _ => .throw (by decide)) fun _ => .pure _

theorem within_procFreepagetable (r sz : ℕ) :
    Within AnyState Quiet (Vm.procFreepagetable r sz) :=
  .bind (within_uvmunmap _ _ _ _) fun _ => .bind (within_uvmunmap _ _ _ _) fun _ =>
    .ite (fun _ => .bind (within_uvmunmap _ _ _ _) fun _ => within_freewalk _ _) fun _ => .pure _

theorem procFreepagetable_zero (hI : o.Inv φ) (hr : o.root a = some r)
    (h : Returns (Vm.procFreepagetable r 0) φ u φ') : o.books φ' = o.books φ := by
  obtain ⟨_, φ₁, h1, h⟩ := returns_bind.1 h
  obtain ⟨_, φ₂, h2, h⟩ := returns_bind.1 h
  obtain ⟨hI1, hb1, -⟩ := hI.uvmunmap_fixed hr (by decide) (by decide) (.inl rfl) h1
  obtain ⟨-, hb2, -⟩ := hI1.uvmunmap_fixed hr (by decide) (by decide) (.inr rfl) h2
  rw [if_neg (by omega)] at h
  obtain ⟨-, rfl⟩ := returns_pure.1 h
  exact hb2.trans hb1

theorem procFreepagetable_keeps (hI : o.Inv φ) (hrc : o.root c = some rc)
    (hm : 0 < sz → o.Mapped φ c (pages sz)) (h : Returns (Vm.procFreepagetable rc sz) φ u φ')
    (hra : o.root a = some r) (hne : a ≠ c) (va : ℕ) : pteOf φ' r va = pteOf φ r va := by
  obtain ⟨-, hheld, -⟩ := Vm.procFreepagetable_spec hI hrc hm h
  have hroot : ∀ φ π, Owners.held { o with root := update o.root c none } φ (.page a π) =
      o.held φ (.page a π) := fun φ π => by simp [Owners.held, hne]
  have hsame : o.held φ' (.page a [px 2 va, px 1 va]) = o.held φ (.page a [px 2 va, px 1 va]) := by
    rw [← hroot φ']
    exact hheld _ (Owners.notMem_space hne _)
  refine Owners.pteOf_congr hra hsame fun t ht => ?_
  -- a table of `a` is no page of `c`
  have hoff : ∀ π, o.held φ (.page c π) ≠ some t := fun π e =>
    hne (PagePlace.page.inj (hI.inj ht e)).1
  obtain ⟨_, φ₁, h1, h⟩ := returns_bind.1 h
  obtain ⟨_, φ₂, h2, h⟩ := returns_bind.1 h
  obtain ⟨hI1, hb1, hshed1⟩ := hI.uvmunmap_fixed hrc (by decide) (by decide) (.inl rfl) h1
  obtain ⟨hI2, hb2, hshed2⟩ := hI1.uvmunmap_fixed hrc (by decide) (by decide) (.inr rfl) h2
  have hheld2 : o.held φ₂ = o.held φ := congrArg Books.held (hb2.trans hb1)
  rw [← (hshed1.trans hshed2).mem t hoff]
  split at h
  · rename_i hsz
    obtain ⟨-, -, hmem⟩ := hI2.uvmfree hrc ((hm hsz).congr fun v => by rw [hheld2]) hsz h
    rw [hmem t fun π => by rw [hheld2]; exact hoff π]
  · obtain ⟨-, rfl⟩ := returns_pure.1 h
    rfl

/-! ### The stack -/

/-- The address space `a` with root `r` has a program of `k` pages with the bytes `f`, and above it
a page that is closed to user code and an empty page for the stack. -/
structure Stacked (o : Owners A B) (a : A) (r : ℕ) (m : Ram) (k : ℕ) (f : ℕ → UInt8) : Prop where
  inv : o.Inv m.phys
  root : o.root a = some r
  hand : o.hand = none
  mapped : o.Mapped m.phys a (k + 2)
  page : ∀ v < k + 2, ∃ pa,
    pteOf m.phys r (v * PGSIZE) = some ⟨true, { Perm.all with u := decide (v ≠ k) }, pa⟩ ∧
      ∀ j < PGSIZE, m.data pa j = f (v * PGSIZE + j)
  zero : ∀ va, k * PGSIZE ≤ va → f va = 0
  top : m.phys.TopClosed r

variable {s : ExecState} {entry : ℕ}

theorem Built.stack (hB : Built o a r m (pages sz) f) :
    (m.phys.Avail (footprint (pages sz + 2) - footprint (pages sz)) → ∃ m',
      Returns (Ram.uvmalloc r (pgroundup sz) (pgroundup sz + 2 * PGSIZE)) m
        ((pages sz + 2) * PGSIZE) m' ∧ Built o a r m' (pages sz + 2) f ∧
      Steps (Owners.space a) (o.books m.phys) (o.books m'.phys)) ∧
    (¬ m.phys.Avail (footprint (pages sz + 2) - footprint (pages sz)) → ∃ m',
      Returns (Ram.uvmalloc r (pgroundup sz) (pgroundup sz + 2 * PGSIZE)) m 0 m' ∧
      o.Inv m'.phys ∧ Steps (Owners.space a) (o.books m.phys) (o.books m'.phys)) := by
  have hB0 : Built o a r m (pages (pages sz * PGSIZE)) f := by rwa [pages_mul]
  obtain ⟨henough, hshort⟩ := hB0.uvmalloc ((pages sz + 2) * PGSIZE)
  rw [pages_mul, pages_mul] at henough hshort
  rw [pgroundup_eq, ← Nat.add_mul]
  refine ⟨fun hav => ?_, fun hav => ?_⟩
  · obtain ⟨m', hr, hB', hs, -⟩ := henough hav
    rw [Nat.max_eq_right (Nat.mul_le_mul_right _ (by omega))] at hr hB'
    rw [pages_mul] at hB'
    exact ⟨m', hr, hB', hs⟩
  · obtain ⟨m', hr, hI, hs, -⟩ := hshort hav
    exact ⟨m', hr, hI, hs⟩

/-- `exec` puts the guard page and the stack above the program, if there is memory for them. -/
theorem execStack_enough (entry : ℕ) (hB : Built o a r s.ram (pages sz) f)
    (hav : s.ram.phys.Avail (footprint (pages sz + 2) - footprint (pages sz))) :
    ∃ m', Returns (execStack r entry sz) s (some ⟨r, (pages sz + 2) * PGSIZE, entry⟩)
        { s with ram := m' } ∧ Stacked o a r m' (pages sz) f ∧
      Steps (Owners.space a) (o.books s.ram.phys) (o.books m'.phys) := by
  obtain ⟨m₁, hr, hB1, hs⟩ := hB.stack.1 hav
  have htop := hB1.lt_userTop
  obtain ⟨pa, hpte, hdata⟩ := hB1.page (pages sz) (by omega)
  obtain ⟨φ', hclear, hI', hbooks, -, hpte', hother⟩ := hB1.inv.uvmclear_total hB1.root
    (by omega) hpte rfl
  have hheld : o.held φ' = o.held m₁.phys := congrArg Books.held hbooks
  refine ⟨⟨φ', m₁.data⟩, ?_, ⟨hI', hB1.root, hB1.hand, hB1.mapped.congr fun v => by rw [hheld],
    fun v hv => ?_, fun va hva => hB.zero va hva, fun va pte hva hmax h => ?_⟩, ?_⟩
  · have hr' : Returns (onRam (Ram.uvmalloc r (pgroundup sz) (pgroundup sz + 2 * PGSIZE))) s
        ((pages sz + 2) * PGSIZE) { s with ram := m₁ } := returns_onRam.2 ⟨m₁, hr, rfl⟩
    have hback : (pages sz + 2) * PGSIZE - 2 * PGSIZE = pages sz * PGSIZE := by
      rw [Nat.add_mul, Nat.add_sub_cancel]
    rw [execStack, hr'.bind_iff, if_neg (by simp only [PGSIZE]; omega), hback]
    exact returns_bind.2 ⟨(), _, returns_onTables.2 ⟨φ', hclear, rfl⟩, returns_pure.2 ⟨rfl, rfl⟩⟩
  · by_cases hvk : v = pages sz
    · subst hvk
      refine ⟨pa, ?_, hdata⟩
      rw [hpte']
      simp
    · obtain ⟨pa', hpa', hdata'⟩ := hB1.page v hv
      have hlt : userTop = 2 ^ 26 - 2 := rfl
      refine ⟨pa', ?_, hdata'⟩
      rw [hother a r _ hB1.root fun e => hvk (upath_injective (by omega) (by omega) e.2), hpa']
      simp [hvk, Perm.all]
  · rw [hother a r va hB1.root fun e => vpath_ne_upath (by omega) hva hmax e.2] at h
    exact hB1.top va pte hva hmax h
  · rw [hbooks]
    exact hs

theorem execStack_short {Q : Option Program → ExecState → Prop} {E : Stop → Prop}
    (hB : Built o a r s.ram (pages sz) f)
    (hav : ¬ s.ram.phys.Avail (footprint (pages sz + 2) - footprint (pages sz)))
    (hbad : ∀ m', o.Inv m'.phys → Steps (Owners.space a) (o.books s.ram.phys) (o.books m'.phys) →
      Does (execBad (some r) 0 none) { s with ram := m' } (fun _ => Q none) E) :
    Does (execStack r entry sz) s Q E := by
  obtain ⟨m', hr, hI', hs⟩ := hB.stack.2 hav
  refine .bind_returns (returns_onRam.2 ⟨m', hr, rfl⟩) (.ite (fun _ => ?_) fun h => absurd rfl h)
  exact (hbad m' hI' hs).bind fun _ t ht => .pure ht

end Xv6Container
