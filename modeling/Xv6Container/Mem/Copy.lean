import Xv6Container.Mem.Owner
import Xv6Container.Mem.Ram

/-!
# Copying an address space

`uvmcopy` of `kernel/vm.c`, when memory runs out at any page.

* `uvmcopy_cleans_iff` : **`uvmcopy` copies all or nothing**, and does not panic, exactly when the
  first page can be copied: to take back nothing, it calls `uvmunmap` with size 0, which goes
  through the whole address space.
-/

namespace Xv6Container

open Function Books Phys

namespace Ram

/-- The page `v` of `new` is a copy of the page `v` of `old`: with the same permissions and bytes,
on a page that was free. -/
def Copied (m m' : Ram) (old new v : ℕ) : Prop :=
  ∃ pte pa, pteOf m.phys old (v * PGSIZE) = some pte ∧
    pteOf m'.phys new (v * PGSIZE) = some ⟨true, pte.perm, pa⟩ ∧ pa ∈ m.phys.freelist ∧
    m'.data pa = m.data pte.pa

end Ram

namespace Owners

variable {A B : Type} {o : Owners A B} {m m₁ m' : Ram} {φ : Phys} {a b : A}
  {old new pa sz k n v : ℕ} {pte : Pte}

open Ram

/-- What one turn of `uvmcopy` for page `k` has done when it goes on. -/
structure Turned (o : Owners A B) (a : A) (old new k : ℕ) (m m' : Ram) : Prop where
  keeps : Keeps m.phys m'.phys
  data : ∀ pa, pa ∉ m.phys.freelist → m'.data pa = m.data pa
  copied : Copied m m' old new k
  inv : o.Inv m'.phys
  mapped : o.Mapped m'.phys a (k + 1)

namespace Inv

theorem table_of_pteOf (hI : o.Inv φ) (hold : o.root b = some old)
    (h : pteOf φ old (k * PGSIZE) = some pte) :
    ∃ t, descend (next φ.mem) old [px 2 (k * PGSIZE), px 1 (k * PGSIZE)] = some t ∧
      φ.mem t (px 0 (k * PGSIZE)) = pte ∧ pte.v = true ∧ pte.perm.leaf = true := by
  obtain ⟨t, ht, hpte⟩ := Option.bind_eq_some_iff.1 h
  split at hpte
  swap
  · cases hpte
  rename_i hv
  cases hpte
  have hheld : o.held φ (.page b [px 2 (k * PGSIZE), px 1 (k * PGSIZE)]) = some t := by
    rw [held_page (by simp), hold]
    exact ht
  exact ⟨t, ht, rfl, hv, (hI.leaves (px 0 (k * PGSIZE)) rfl hheld hv).1⟩

theorem returns_uvmcopyFrom (hI : o.Inv m.phys) (hold : o.root b = some old) (hk : k < userTop)
    (hpte : pteOf m.phys old (k * PGSIZE) = some pte) {ok : Bool} :
    Returns (Ram.uvmcopyFrom old new (n + 1) (k * PGSIZE)) m ok m' ↔ Returns (do
      match ← onPhys Phys.kalloc with
      | none =>
        onPhys (Phys.uvmunmap new 0 (k * PGSIZE) true)
        return false
      | some mem =>
        modify (·.copyPage mem pte.pa)
        if ← onPhys (Phys.mappages new (k * PGSIZE) PGSIZE mem pte.perm) then
          Ram.uvmcopyFrom old new n (k * PGSIZE + PGSIZE)
        else
          onPhys (Phys.kfree mem)
          onPhys (Phys.uvmunmap new 0 (k * PGSIZE) true)
          return false) m ok m' := by
  obtain ⟨t, ht, rfl, hv, -⟩ := hI.table_of_pteOf hold hpte
  have hw : Returns (onPhys (Phys.walk old (k * PGSIZE) false)) m
      (some (t, px 0 (k * PGSIZE))) m := by
    have := returns_walk_false (φ := m.phys) (r := old) (lt_MAXVA hk)
    rw [ht] at this
    exact Ram.returns_onPhys.2 ⟨m.phys, this, rfl⟩
  have hget : Returns (onPhys get) m m.phys m :=
    Ram.returns_onPhys.2 ⟨_, returns_get.2 ⟨rfl, rfl⟩, rfl⟩
  rw [Ram.uvmcopyFrom, uvmcopyLoop, hw.bind_iff]
  dsimp only
  rw [hget.bind_iff, hv]
  exact Iff.rfl

/-- The turn for a page when `kalloc` returns one. -/
theorem returns_turn {pa : ℕ} {φ₁ φ₂ : Phys} {mapped ok : Bool} (hI : o.Inv m.phys)
    (hold : o.root b = some old) (hk : k < userTop)
    (hpte : pteOf m.phys old (k * PGSIZE) = some pte)
    (hkalloc : Returns Phys.kalloc m.phys (some pa) φ₁)
    (hmap : Returns (Phys.mappages new (k * PGSIZE) PGSIZE pa pte.perm) φ₁ mapped φ₂) :
    Returns (Ram.uvmcopyFrom old new (n + 1) (k * PGSIZE)) m ok m' ↔
      Returns (if mapped then Ram.uvmcopyFrom old new n ((k + 1) * PGSIZE) else do
        onPhys (Phys.kfree pa)
        onPhys (Phys.uvmunmap new 0 (k * PGSIZE) true)
        return false) ⟨φ₂, update m.data pa (m.data pte.pa)⟩ ok m' := by
  have hk1 : Returns (onPhys Phys.kalloc) m (some pa) { m with phys := φ₁ } :=
    Ram.returns_onPhys.2 ⟨φ₁, hkalloc, rfl⟩
  have hmap1 : Returns (onPhys (Phys.mappages new (k * PGSIZE) PGSIZE pa pte.perm))
      (({ m with phys := φ₁ } : Ram).copyPage pa pte.pa) mapped
      ⟨φ₂, update m.data pa (m.data pte.pa)⟩ := Ram.returns_onPhys.2 ⟨φ₂, hmap, rfl⟩
  rw [hI.returns_uvmcopyFrom hold hk hpte, hk1.bind_iff]
  dsimp only
  rw [((returns_modify (u := ⟨⟩)).2 rfl).bind_iff, hmap1.bind_iff, ← Nat.succ_mul]

variable [DecidableEq A] [DecidableEq B]

section

variable (hI : o.Inv m.phys) (hold : o.root b = some old)
    (hnew : o.root a = some new) (hhand : o.hand = none) (hm : o.Mapped m.phys a k)
    (hpte : pteOf m.phys old (k * PGSIZE) = some pte)

include hI hold hnew hhand hm hpte

theorem turn_avail (h : m.phys.Avail (1 + missing m.phys new (k * PGSIZE))) :
    ∃ m₁, Turned o a old new k m m₁ ∧ Steps (space a) (o.books m.phys) (o.books m₁.phys) ∧
      ∀ n ok m', Returns (Ram.uvmcopyFrom old new (n + 1) (k * PGSIZE)) m ok m' ↔
        Returns (Ram.uvmcopyFrom old new n ((k + 1) * PGSIZE)) m₁ ok m' := by
  have hk := hm.lt_userTop hI
  obtain ⟨-, -, -, -, hperm⟩ := hI.table_of_pteOf hold hpte
  obtain ⟨pa, φ₁, hkalloc, htaken, hused⟩ := kalloc_avail (h.mono (by omega))
  rw [hused.avail (h.mono (by omega)), ← hI.missing_taken hnew htaken] at h
  obtain ⟨φ', hmap, hI', hs, hm', hK, hpte', -⟩ :=
    hI.mapTaken_avail hnew hhand hm htaken hperm h
  have hfree : pa ∈ m.phys.freelist := by simp [htaken.free]
  refine ⟨⟨φ', update m.data pa (m.data pte.pa)⟩, ⟨hK, fun x hx => ?_, ?_, hI', hm'⟩, hs,
    fun n ok m' => ?_⟩
  · have hne : x ≠ pa := fun e => hx (e ▸ hfree)
    exact update_of_ne hne _ _
  · exact ⟨pte, pa, hpte, hpte', hfree, update_self ..⟩
  · rw [hI.returns_turn hold hk hpte hkalloc hmap, if_pos rfl]

theorem turn_not_avail
    (h : ¬ m.phys.Avail (1 + missing m.phys new (k * PGSIZE))) :
    ∃ m₁, o.Inv m₁.phys ∧ o.Mapped m₁.phys a k ∧
      Steps (space a) (o.books m.phys) (o.books m₁.phys) ∧
      ∀ n ok m', Returns (Ram.uvmcopyFrom old new (n + 1) (k * PGSIZE)) m ok m' ↔
        Returns (do onPhys (Phys.uvmunmap new 0 (k * PGSIZE) true); return false) m₁ ok m' := by
  have hk := hm.lt_userTop hI
  obtain ⟨-, -, -, -, hperm⟩ := hI.table_of_pteOf hold hpte
  by_cases h1 : m.phys.Avail 1
  · obtain ⟨pa, φ₁, hkalloc, htaken, hused⟩ := kalloc_avail h1
    rw [hused.avail h1, ← hI.missing_taken hnew htaken] at h
    obtain ⟨φ₂, φ', hmap, hkfree, hI', hs, hm'⟩ :=
      hI.mapTaken_not_avail hnew hhand hm htaken hperm h
    refine ⟨⟨φ', update m.data pa (m.data pte.pa)⟩, hI', hm', hs, fun n ok m' => ?_⟩
    have hfree1 : Returns (onPhys (Phys.kfree pa)) ⟨φ₂, update m.data pa (m.data pte.pa)⟩ ()
        ⟨φ', update m.data pa (m.data pte.pa)⟩ := Ram.returns_onPhys.2 ⟨φ', hkfree, rfl⟩
    rw [hI.returns_turn hold hk hpte hkalloc hmap, if_neg (by simp), hfree1.bind_iff]
  · obtain ⟨φ₁, hkalloc, hfree, hmem, hend⟩ := kalloc_not_avail h1
    obtain ⟨hI1, hb⟩ := hI.congr hfree hmem hend
    refine ⟨{ m with phys := φ₁ }, hI1, hm.congr fun v => by rw [held_eq_of_mem hmem], ?_,
      fun n ok m' => ?_⟩
    · rw [hb]
      exact .refl
    · have hk1 : Returns (onPhys Phys.kalloc) m none { m with phys := φ₁ } :=
        Ram.returns_onPhys.2 ⟨φ₁, hkalloc, rfl⟩
      rw [hI.returns_uvmcopyFrom hold hk hpte, hk1.bind_iff]

end

/-- What `uvmcopy` has done when it returns 0, from page `k` on. -/
structure CopyDone (o : Owners A B) (a : A) (old new k n : ℕ) (m m' : Ram) : Prop where
  keeps : Keeps m.phys m'.phys
  data : ∀ pa, pa ∉ m.phys.freelist → m'.data pa = m.data pa
  copied : ∀ v, k ≤ v → v < k + n → Copied m m' old new v
  mapped : o.Mapped m'.phys a (k + n)

omit [DecidableEq A] [DecidableEq B] in
theorem copied_of_turned (hI : o.Inv m.phys) (hold : o.root b = some old)
    (ht : Turned o a old new k m m₁) (hv : v < userTop)
    (hparent : ∃ pte, pteOf m.phys old (v * PGSIZE) = some pte)
    (h : Copied m₁ m' old new v) : Copied m m' old new v := by
  obtain ⟨pte, pa, hpte, hnew, hfree, hdata⟩ := h
  obtain ⟨pte₀, hpte0⟩ := hparent
  obtain rfl := Option.some.inj ((hI.pteOf_keeps hold ht.keeps hpte0).symm.trans hpte)
  have hused : pte₀.pa ∉ m.phys.freelist :=
    hI.notMem_free (p := .page b (upath v)) (by rw [held_upath hold hv, hpte0]; rfl)
  refine ⟨pte₀, pa, hpte0, hnew, ?_, hdata.trans (ht.data _ hused)⟩
  by_contra hno
  exact ht.keeps.used pa hno hfree

omit [DecidableEq A] [DecidableEq B] in
theorem CopyDone.of_turned (hI : o.Inv m.phys) (hold : o.root b = some old)
    (hnew : o.root a = some new) (ht : Turned o a old new k m m₁) (hn : k + (n + 1) ≤ userTop)
    (hparent : ∀ v, k ≤ v → v < k + (n + 1) → ∃ pte, pteOf m.phys old (v * PGSIZE) = some pte)
    (h : CopyDone o a old new (k + 1) n m₁ m') : CopyDone o a old new k (n + 1) m m' where
  keeps := ht.keeps.trans h.keeps
  data pa hpa := (h.data pa (ht.keeps.used pa hpa)).trans (ht.data pa hpa)
  copied v hkv hv := by
    by_cases hvk : v = k
    · -- the page of this turn is left alone by the turns that follow
      subst hvk
      obtain ⟨pte, pa, hpte, hpte', hfree, hdata⟩ := ht.copied
      have hpa : pa ∉ m₁.phys.freelist := by
        refine ht.inv.notMem_free (p := .page a (upath v)) ?_
        rw [held_upath hnew (by omega), hpte']
        rfl
      exact ⟨pte, pa, hpte, ht.inv.pteOf_keeps hnew h.keeps hpte', hfree,
        (h.data pa hpa).trans hdata⟩
    · exact hI.copied_of_turned hold ht (by omega) (hparent v hkv hv)
        (h.copied v (by omega) (by omega))
  mapped := by
    have := h.mapped
    rwa [show k + 1 + n = k + (n + 1) by omega] at this

theorem takeBack (hI : o.Inv m.phys) (hnew : o.root a = some new) (hm : o.Mapped m.phys a k)
    (hk : 0 < k) : ∃ m', Returns (do onPhys (Phys.uvmunmap new 0 (k * PGSIZE) true); return false)
      m false m' ∧ o.Inv m'.phys ∧ Steps (space a) (o.books m.phys) (o.books m'.phys) ∧
      o.Mapped m'.phys a 0 := by
  obtain ⟨φ', hun, hI', hs, hm'⟩ := hI.uvmunmap_total (k := 0) (k * PGSIZE) hnew hm hk
    (by rw [Nat.zero_mul, Nat.zero_add, pages_mul])
  rw [Nat.zero_mul] at hun
  exact ⟨{ m with phys := φ' }, returns_bind.2 ⟨(), _, Ram.returns_onPhys.2 ⟨φ', hun, rfl⟩,
    returns_pure.2 ⟨rfl, rfl⟩⟩, hI', hs, hm'⟩

/-- **Once a page has been copied, `uvmcopy` succeeds or takes back what it has done.** -/
theorem uvmcopyFrom_total (hI : o.Inv m.phys) (hold : o.root b = some old)
    (hnew : o.root a = some new) (hhand : o.hand = none) (hm : o.Mapped m.phys a k) (hk : 0 < k)
    (hn : k + n ≤ userTop)
    (hparent : ∀ v, k ≤ v → v < k + n → ∃ pte, pteOf m.phys old (v * PGSIZE) = some pte) :
    ∃ ok m', Returns (Ram.uvmcopyFrom old new n (k * PGSIZE)) m ok m' ∧ o.Inv m'.phys ∧
      Steps (space a) (o.books m.phys) (o.books m'.phys) ∧
      (ok = true ∧ CopyDone o a old new k n m m' ∨ ok = false ∧ o.Mapped m'.phys a 0) := by
  induction n generalizing m k with
  | zero =>
    refine ⟨true, m, returns_pure.2 ⟨rfl, rfl⟩, hI, .refl, .inl ⟨rfl, ?_⟩⟩
    exact ⟨.refl _, fun _ _ => rfl, fun v _ _ => by omega, hm⟩
  | succ n ih =>
    obtain ⟨pte, hpte⟩ := hparent k le_rfl (by omega)
    by_cases h : m.phys.Avail (1 + missing m.phys new (k * PGSIZE))
    · obtain ⟨m₁, ht, hs1, hret⟩ := hI.turn_avail hold hnew hhand hm hpte h
      obtain ⟨ok, m', h', hI', hs', hend⟩ := ih ht.inv ht.mapped (by omega) (by omega)
        fun v hkv hv => by
          obtain ⟨pte, hpte⟩ := hparent v (by omega) (by omega)
          exact ⟨pte, hI.pteOf_keeps hold ht.keeps hpte⟩
      refine ⟨ok, m', (hret n ok m').2 h', hI', hs1.trans hs', hend.imp_left ?_⟩
      rintro ⟨hok, hdone⟩
      exact ⟨hok, .of_turned hI hold hnew ht hn hparent hdone⟩
    · obtain ⟨m₁, hI1, hm1, hs1, hret⟩ := hI.turn_not_avail hold hnew hhand hm hpte h
      obtain ⟨m', hback, hI', hs', hm'⟩ := hI1.takeBack hnew hm1 hk
      exact ⟨false, m', (hret n false m').2 hback, hI', hs1.trans hs', .inr ⟨rfl, hm'⟩⟩

end Inv

/-- The memory before `uvmcopy`: page tables are trees of pages in use, the parent maps the pages
below `sz`, and the child maps no user page. -/
structure CopyStart (o : Owners A B) (a b : A) (old new sz : ℕ) (m : Ram) : Prop where
  inv : o.Inv m.phys
  hand : o.hand = none
  parent : o.root b = some old
  child : o.root a = some new
  mapped : ∀ v, v < pages sz → ∃ pte, pteOf m.phys old (v * PGSIZE) = some pte
  empty : o.Mapped m.phys a 0

/-- What `uvmcopy` should do: it returns, and has copied every page below `sz` and mapped no other,
or maps none; in that case, every page that was free is free again, or in the page table of the
child but not at a user address. -/
def CopyClean (o : Owners A B) (a : A) (old new sz : ℕ) (m : Ram) : Prop :=
  ∃ ok m', Returns (Ram.uvmcopy old new sz) m ok m' ∧ o.Inv m'.phys ∧
    (ok = true ∧ (∀ v, v < pages sz → Copied m m' old new v) ∧ o.Mapped m'.phys a (pages sz) ∨
      ok = false ∧ o.Mapped m'.phys a 0 ∧
        ∀ pa ∈ m.phys.freelist, pa ∈ m'.phys.freelist ∨
          ∃ π, o.held m'.phys (.page a π) = some pa ∧ ∀ v < userTop, π ≠ upath v)

variable [DecidableEq A] [DecidableEq B]

theorem Inv.free_or_table (hI : o.Inv m.phys) (hhand : o.hand = none)
    (hs : Steps (space a) (o.books m.phys) (o.books m'.phys)) (hm : o.Mapped m'.phys a 0)
    (hpa : pa ∈ m.phys.freelist) : pa ∈ m'.phys.freelist ∨
      ∃ π, o.held m'.phys (.page a π) = some pa ∧ ∀ v < userTop, π ≠ upath v := by
  have hitems : pa ∈ (o.books m'.phys).items := hs.items ▸ .inl hpa
  obtain hfree | ⟨p, hp⟩ := hitems
  · exact .inl hfree
  · right
    by_cases hspace : p ∈ space a
    · obtain ⟨π, rfl⟩ | rfl := hspace
      · refine ⟨π, hp, ?_⟩
        rintro v hv rfl
        have := (hm v hv).not.2 (Nat.not_lt_zero v)
        rw [show o.held m'.phys (.page a (upath v)) = some pa from hp] at this
        exact absurd rfl this
      · exact nomatch hhand.symm.trans hp
    · rw [hs.held_of_notMem hspace] at hp
      exact absurd hpa (hI.sound.apart hp)

/-- **`uvmcopy` cleans up after itself** exactly when there is nothing to copy or there are pages
for the first user page and the tables it needs. -/
theorem uvmcopy_cleans_iff (h0 : CopyStart o a b old new sz m) :
    CopyClean o a old new sz m ↔ sz = 0 ∨ m.phys.Avail (1 + missing m.phys new 0) := by
  obtain ⟨hI, hhand, hold, hnew, hparent, hempty⟩ := h0
  have hle : pages sz ≤ userTop := by
    have : pages sz ≤ PHYSTOP / PGSIZE := le_of_held (a := b) hI fun v hv hv' => by
      obtain ⟨pte, hpte⟩ := hparent v hv
      rw [held_upath hold hv', hpte]
      rfl
    exact this.trans (by decide)
  have hstart : Ram.uvmcopy old new sz = Ram.uvmcopyFrom old new (pages sz) (0 * PGSIZE) := by
    rw [Nat.zero_mul]
    rfl
  unfold CopyClean
  rw [hstart]
  obtain hz | ⟨n, hn⟩ : sz = 0 ∨ ∃ n, pages sz = n + 1 := by
    by_cases hz : sz = 0
    · exact .inl hz
    · exact .inr ⟨pages sz - 1, by simp only [pages, PGSIZE]; omega⟩
  · -- nothing to copy
    subst hz
    refine iff_of_true ⟨true, m, returns_pure.2 ⟨rfl, rfl⟩, hI, .inl ⟨rfl, ?_, hempty⟩⟩ (.inl rfl)
    intro v hv
    exact absurd hv (Nat.not_lt_zero v)
  have hsz : sz ≠ 0 := by
    rintro rfl
    simp [pages] at hn
  rw [hn] at hle hparent ⊢
  obtain ⟨pte, hpte⟩ := hparent 0 (by omega)
  have hfirst : missing m.phys new 0 = missing m.phys new (0 * PGSIZE) := by rw [Nat.zero_mul]
  rw [hfirst]
  by_cases h : m.phys.Avail (1 + missing m.phys new (0 * PGSIZE))
  · refine iff_of_true ?_ (.inr h)
    obtain ⟨m₁, ht, hs1, hret⟩ := hI.turn_avail hold hnew hhand hempty hpte h
    obtain ⟨ok, m', h', hI', hs', hend⟩ := ht.inv.uvmcopyFrom_total (n := n) hold hnew hhand
      ht.mapped Nat.one_pos (by omega) fun v _ hv => by
        obtain ⟨pte, hpte⟩ := hparent v (by omega)
        exact ⟨pte, hI.pteOf_keeps hold ht.keeps hpte⟩
    refine ⟨ok, m', (hret n ok m').2 h', hI', ?_⟩
    obtain ⟨hok, hdone⟩ | ⟨hok, hm'⟩ := hend
    · have hdone := Inv.CopyDone.of_turned hI hold hnew ht (by omega)
        (fun v _ hv => hparent v (by omega)) hdone
      have hmapped := hdone.mapped
      rw [Nat.zero_add] at hmapped
      exact .inl ⟨hok, fun v hv => hdone.copied v (Nat.zero_le v) (by omega), hmapped⟩
    · exact .inr ⟨hok, hm', fun pa hpa => hI.free_or_table hhand (hs1.trans hs') hm' hpa⟩
  · refine iff_of_false ?_ (not_or.2 ⟨hsz, h⟩)
    rintro ⟨ok, m', hret', -⟩
    obtain ⟨m₁, hI1, hm1, -, hret⟩ := hI.turn_not_avail hold hnew hhand hempty hpte h
    obtain ⟨_, _, hun, -⟩ := returns_bind.1 ((hret n ok m').1 hret')
    obtain ⟨φ', hun, -⟩ := Ram.returns_onPhys.1 hun
    rw [Nat.zero_mul] at hun
    exact hI1.not_uvmunmap_zero hnew hm1 hun

end Owners

open Owners

/-- The first process has been started, and a slot has been allocated for its child. -/
def copyRun : Option (Vm × ℕ × ℕ) := do
  let (ok, b) ← (Vm.userinit.run Vm.freshVm).toOption
  guard ok
  let (r, s) ← (Vm.allocproc.run b).toOption
  guard (r = some 1)
  return (s, ← (s.proc 0).pagetable, ← (s.proc 1).pagetable)

theorem copyStart_of_copyRun {s : Vm} {old new : ℕ} (h : copyRun = some (s, old, new))
    (hsz : (s.proc 0).sz = PGSIZE ∧ (s.proc 1).sz = 0) (refuse : ℕ → Bool)
    (data : ℕ → ℕ → UInt8) :
    CopyStart (s.owners .none) (.proc 1) (.proc 0) old new PGSIZE
      ⟨{ s.phys with refuse := refuse }, data⟩ := by
  simp only [copyRun, Option.bind_eq_bind, Option.bind_eq_some_iff, Option.guard_eq_some',
    toOption_run_eq_some] at h
  obtain ⟨⟨ok, b⟩, hb, -, rfl, ⟨r, s₁⟩, halloc, -, rfl, old', hold, new', hnew, hres⟩ := h
  cases hres
  dsimp only at hold hnew hsz halloc
  have hgood : b.Good := Vm.Booted.good ⟨Vm.freshVm, Vm.fresh_freshVm, hb⟩
  obtain ⟨hcore, -⟩ := hgood.sane.core.allocproc hgood.vacant halloc
  have hinv : (s₁.owners .none).Inv { s₁.phys with refuse := refuse } := by
    refine (hcore.inv.congr ?_ ?_ ?_).1
    all_goals rfl
  have hmap : ∀ p n, (s₁.proc p).pagetable ≠ none → pages (s₁.proc p).sz = n →
      (s₁.owners .none).Mapped { s₁.phys with refuse := refuse } (.proc p) n := by
    rintro p _ hp rfl
    exact hcore.mapped p hp
  refine ⟨hinv, rfl, hold, hnew, fun v hv => ?_, hmap 1 0 (by simp [hnew]) (by rw [hsz.2]; rfl)⟩
  have hpages : pages PGSIZE = 1 := by decide
  obtain rfl : v = 0 := by omega
  have := (hmap 0 1 (by simp [hold]) (by rw [hsz.1]; exact hpages) 0 (by decide)).2 Nat.one_pos
  rw [held_upath hold (by decide), Option.isSome_map] at this
  exact Option.isSome_iff_exists.1 this

/-- With memory, the page of the first process is copied. -/
theorem uvmcopy_cleans_boot : ∃ (s : Vm) (old new : ℕ),
    CopyStart (s.owners .none) (.proc 1) (.proc 0) old new PGSIZE ⟨s.phys, fun _ _ => 0⟩ ∧
    (CopyClean (s.owners .none) (.proc 1) old new PGSIZE ⟨s.phys, fun _ _ => 0⟩ ↔
      PGSIZE = 0 ∨ s.phys.Avail (1 + missing s.phys new 0)) := by
  obtain ⟨⟨s, old, new⟩, h, hsz⟩ : ∃ x, copyRun = some x ∧ (x.1.proc 0).sz = PGSIZE ∧
      (x.1.proc 1).sz = 0 := exists_of_any (by decide +kernel)
  have hstart := copyStart_of_copyRun h hsz s.phys.refuse fun _ _ => 0
  exact ⟨s, old, new, hstart, uvmcopy_cleans_iff hstart⟩

/-- When the container has used up its memory, the copy of the first page fails and the kernel
panics. -/
theorem uvmcopy_panics_first : ∃ (s : Vm) (old new : ℕ),
    CopyStart (s.owners .none) (.proc 1) (.proc 0) old new PGSIZE
      ⟨{ s.phys with refuse := fun _ => true }, fun _ _ => 0⟩ ∧
    Fails (Ram.uvmcopy old new PGSIZE) ⟨{ s.phys with refuse := fun _ => true }, fun _ _ => 0⟩
      (.panic "uvmunmap: walk") ∧
    ¬ CopyClean (s.owners .none) (.proc 1) old new PGSIZE
      ⟨{ s.phys with refuse := fun _ => true }, fun _ _ => 0⟩ := by
  obtain ⟨⟨s, old, new⟩, h, hsz, hfails⟩ : ∃ x, copyRun = some x ∧
      ((x.1.proc 0).sz = PGSIZE ∧ (x.1.proc 1).sz = 0) ∧
      ((Ram.uvmcopy x.2.1 x.2.2 PGSIZE).run ⟨{ x.1.phys with refuse := fun _ => true },
        fun _ _ => 0⟩).map (fun _ => ()) = .error (.panic "uvmunmap: walk") :=
    exists_of_any (by decide +kernel)
  have hpanic := fails_iff_map.2 hfails
  refine ⟨s, old, new, copyStart_of_copyRun h hsz _ _, hpanic, ?_⟩
  rintro ⟨ok, m', hret, -⟩
  exact nomatch hpanic.symm.trans hret

end Xv6Container
