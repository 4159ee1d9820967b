import Xv6Container.Data.Returns
import Xv6Container.Mem.Kalloc
import Xv6Container.Proc.Life

/-!
# Page tables

The free list of `kernel/kalloc.c` and the page tables of `kernel/vm.c`, at the level of physical
pages: a page-table page is a page whose 512 entries `walk`, `mappages`, `uvmunmap` and `freewalk`
read and write, and a child table is a page number found in an entry.

Whether the container of the caller lets a `kalloc` through is not decided here: `refuse` says for
each coming call whether it is turned down, so that the results hold for any pattern of failures.
The bytes of user pages are left out; no function of this file looks at them.
-/

namespace Xv6Container

/-- One beyond the highest virtual address, `1L << (9 + 9 + 9 + 12 - 1)`. -/
abbrev MAXVA : ℕ := 2 ^ 38

/-- The page of trampoline code is mapped at the highest address. -/
abbrev TRAMPOLINE : ℕ := MAXVA - PGSIZE

/-- The trapframe is mapped below the trampoline. -/
abbrev TRAPFRAME : ℕ := TRAMPOLINE - PGSIZE

/-- `PGROUNDDOWN`. -/
def pgrounddown (a : ℕ) : ℕ := a / PGSIZE * PGSIZE

/-- The bits `PTE_R`, `PTE_W`, `PTE_X` and `PTE_U` of a page-table entry. -/
structure Perm where
  r : Bool
  w : Bool
  x : Bool
  u : Bool
  deriving DecidableEq, Repr

/-- No permission bit. -/
def Perm.none : Perm := ⟨false, false, false, false⟩

/-- `PTE_R|PTE_W|PTE_X` is not empty: the entry maps a page. -/
def Perm.leaf (m : Perm) : Bool := m.r || m.w || m.x

/-- A page-table entry: the bit `PTE_V`, the permission bits and the address `PTE2PA`. -/
structure Pte where
  v : Bool
  perm : Perm
  pa : ℕ
  deriving DecidableEq, Repr

/-- The entry with the given 64-bit value. -/
def Pte.ofWord (w : ℕ) : Pte where
  v := w.testBit 0
  perm := ⟨w.testBit 1, w.testBit 2, w.testBit 3, w.testBit 4⟩
  pa := (w >>> 10 <<< 12) % 2 ^ 64

/-- The entry `PA2PTE(pa) | perm | PTE_V`. -/
def Pte.map (pa : ℕ) (perm : Perm) : Pte := ⟨true, perm, pgrounddown pa⟩

/-- The entry 0. -/
def Pte.zero : Pte := ⟨false, Perm.none, 0⟩

/-- Physical memory as the kernel's allocator and page tables see it. -/
structure Phys where
  /-- `kmem.freelist`, as physical addresses. -/
  freelist : List ℕ
  /-- The entries of each page, read as a page table. -/
  mem : ℕ → Fin 512 → Pte
  /-- Whether the container's limit turns down the coming calls of `kalloc`. -/
  refuse : ℕ → Bool
  /-- `end`, the first address after the kernel. -/
  kernelEnd : ℕ

/-- Kernel code over physical memory. -/
abbrev PhysM := StateT Phys (Except Stop)

namespace Phys

/-- The address of a page that `kfree` accepts. -/
def ValidPage (φ : Phys) (pa : ℕ) : Prop := pa % PGSIZE = 0 ∧ φ.kernelEnd ≤ pa ∧ pa < PHYSTOP

instance (φ : Phys) (pa : ℕ) : Decidable (φ.ValidPage pa) := inferInstanceAs (Decidable (_ ∧ _))

/-- `pagetable[i] = pte`, for the page table at `t`. -/
def setPte (φ : Phys) (t : ℕ) (i : Fin 512) (pte : Pte) : Phys :=
  { φ with mem := Function.update φ.mem t (Function.update (φ.mem t) i pte) }

/-- `memset(pa, c, PGSIZE)`: each entry becomes the word made of eight bytes `c`. -/
def memset (φ : Phys) (pa c : ℕ) : Phys :=
  { φ with mem := Function.update φ.mem pa fun _ => Pte.ofWord (c * 0x0101010101010101) }

/-- `kalloc`: a page, or `none` when it returns 0. -/
def kalloc : PhysM (Option ℕ) := do
  let φ ← get
  set { φ with refuse := fun n => φ.refuse (n + 1) }
  if φ.refuse 0 then
    return none
  match φ.freelist with
  | [] => return none
  | r :: rest =>
    modify fun φ => { φ with freelist := rest }
    modify (·.memset r 5)
    return some r

/-- `kfree`.  The link that the code stores in the page's first word is the tail of `freelist`. -/
def kfree (pa : ℕ) : PhysM Unit := do
  if ¬ (← get).ValidPage pa then
    throw (.panic "kfree")
  modify (·.memset pa 1)
  modify fun φ => { φ with freelist := pa :: φ.freelist }

/-- `PX(level, va)`. -/
def px (level va : ℕ) : Fin 512 := Fin.ofNat 512 (va >>> (12 + 9 * level))

/-- The loop of `walk`, from the table `t` down the given levels. -/
def walkFrom (va : ℕ) (alloc : Bool) : List ℕ → ℕ → PhysM (Option (ℕ × Fin 512))
  | [], t => return some (t, px 0 va)
  | level :: levels, t => do
    let pte := (← get).mem t (px level va)
    if pte.v then
      walkFrom va alloc levels pte.pa
    else if !alloc then
      return none
    else
      match ← kalloc with
      | none => return none
      | some pa =>
        modify (·.memset pa 0)
        modify (·.setPte t (px level va) (.map pa .none))
        walkFrom va alloc levels pa

/-- `walk`: the page-table page and the index of the entry for `va`, or `none` for 0. -/
def walk (pagetable va : ℕ) (alloc : Bool) : PhysM (Option (ℕ × Fin 512)) := do
  if MAXVA ≤ va then
    throw (.panic "walk")
  walkFrom va alloc [2, 1] pagetable

/-- How many pages follow the first one in the loops of `mappages` and `uvmunmap`: from
`PGROUNDDOWN(va)` to `PGROUNDDOWN(va + size - 1)`, in the arithmetic of `uint64`. -/
def pagesAfter (va size : ℕ) : ℕ :=
  (pgrounddown ((va + size + (2 ^ 64 - 1)) % 2 ^ 64) + (2 ^ 64 - pgrounddown va)) % 2 ^ 64 / PGSIZE

/-- One turn of the loop of `mappages`; `false` when it returns -1. -/
def mapPage (pagetable a pa : ℕ) (perm : Perm) : PhysM Bool := do
  match ← walk pagetable a true with
  | none => return false
  | some (t, i) =>
    if ((← get).mem t i).v then
      throw (.panic "remap")
    modify (·.setPte t i (.map pa perm))
    return true

/-- The loop of `mappages`, with `n` pages after the one at `a`. -/
def mappagesFrom (pagetable : ℕ) (perm : Perm) : ℕ → ℕ → ℕ → PhysM Bool
  | 0, a, pa => mapPage pagetable a pa perm
  | n + 1, a, pa => do
    if ← mapPage pagetable a pa perm then
      mappagesFrom pagetable perm n (a + PGSIZE) (pa + PGSIZE)
    else
      return false

/-- `mappages`; `false` is -1. -/
def mappages (pagetable va size pa : ℕ) (perm : Perm) : PhysM Bool :=
  mappagesFrom pagetable perm (pagesAfter va size) (pgrounddown va) pa

/-- One turn of the loop of `uvmunmap`. -/
def unmapPage (pagetable : ℕ) (doFree : Bool) (a : ℕ) : PhysM Unit := do
  match ← walk pagetable a false with
  | none => throw (.panic "uvmunmap: walk")
  | some (t, i) =>
    let pte := (← get).mem t i
    if !pte.v then
      throw (.panic "uvmunmap: not mapped")
    if pte.perm = Perm.none then
      throw (.panic "uvmunmap: not a leaf")
    if doFree then
      kfree pte.pa
    modify (·.setPte t i .zero)

/-- The loop of `uvmunmap`, with `n` pages after the one at `a`. -/
def uvmunmapFrom (pagetable : ℕ) (doFree : Bool) : ℕ → ℕ → PhysM Unit
  | 0, a => unmapPage pagetable doFree a
  | n + 1, a => do
    unmapPage pagetable doFree a
    uvmunmapFrom pagetable doFree n (a + PGSIZE)

/-- `uvmunmap`. -/
def uvmunmap (pagetable va size : ℕ) (doFree : Bool) : PhysM Unit :=
  uvmunmapFrom pagetable doFree (pagesAfter va size) (pgrounddown va)

/-- `uvmcreate`. -/
def uvmcreate : PhysM ℕ := do
  match ← kalloc with
  | none => throw (.panic "uvmcreate: out of memory")
  | some pagetable =>
    modify (·.memset pagetable 0)
    return pagetable

/-- `uvmdealloc`. -/
def uvmdealloc (pagetable oldsz newsz : ℕ) : PhysM ℕ := do
  if oldsz ≤ newsz then
    return oldsz
  let newup := pgroundup newsz
  if newup < pgroundup oldsz then
    uvmunmap pagetable newup (oldsz - newup) true
  return newsz

/-- The loop of `uvmalloc`, with `n` turns left; `oldsz` has been rounded up.  The memory `σ` may
have more than page tables: `onPhys` runs code that works on these, and `clear` is `memset` of a
page to 0. -/
def uvmallocLoop {σ : Type} (onPhys : ∀ {α : Type}, PhysM α → StateT σ (Except Stop) α)
    (clear : ℕ → σ → σ) (pagetable oldsz newsz : ℕ) : ℕ → ℕ → StateT σ (Except Stop) ℕ
  | 0, _ => return newsz
  | n + 1, a => do
    match ← onPhys kalloc with
    | none =>
      let _ ← onPhys (uvmdealloc pagetable a oldsz)
      return 0
    | some mem =>
      modify (clear mem)
      if ← onPhys (mappages pagetable a PGSIZE mem ⟨true, true, true, true⟩) then
        uvmallocLoop onPhys clear pagetable oldsz newsz n (a + PGSIZE)
      else
        onPhys (kfree mem)
        let _ ← onPhys (uvmdealloc pagetable a oldsz)
        return 0

/-- `uvmalloc` with the loop `loop`, which takes a turn for each page from `PGROUNDUP(oldsz)` up to
`newsz`. -/
@[reducible]
def uvmallocWith {σ : Type} (loop : ℕ → ℕ → ℕ → ℕ → StateT σ (Except Stop) ℕ) (oldsz newsz : ℕ) :
    StateT σ (Except Stop) ℕ := do
  if newsz < oldsz then
    return oldsz
  let oldsz := pgroundup oldsz
  loop oldsz newsz ((newsz + (PGSIZE - 1) - oldsz) / PGSIZE) oldsz

/-- The loop of `uvmalloc` on page tables. -/
@[reducible]
def uvmallocFrom (pagetable : ℕ) : ℕ → ℕ → ℕ → ℕ → PhysM ℕ :=
  uvmallocLoop (fun m => m) (fun mem φ => φ.memset mem 0) pagetable

/-- `uvmalloc`. -/
def uvmalloc (pagetable oldsz newsz : ℕ) : PhysM ℕ :=
  uvmallocWith (uvmallocFrom pagetable) oldsz newsz

/-- `freewalk`.  The first argument bounds the depth of the recursion; a page table has three
levels, and a recursion that ran on would run off the kernel stack. -/
def freewalk : ℕ → ℕ → PhysM Unit
  | 0, _ => throw .fault
  | n + 1, pagetable => do
    (List.finRange 512).forM fun i => do
      let pte := (← get).mem pagetable i
      if pte.v && !pte.perm.leaf then
        freewalk n pte.pa
        modify (·.setPte pagetable i .zero)
      else if pte.v then
        throw (.panic "freewalk: leaf")
    kfree pagetable

/-- More calls of `freewalk` than the kernel stack of one page has room for. -/
def stackDepth : ℕ := 256

/-- `uvmfree`. -/
def uvmfree (pagetable sz : ℕ) : PhysM Unit := do
  uvmunmap pagetable 0 sz true
  freewalk stackDepth pagetable

/-- The loop of `uvmcopy`, with `n` turns left, in a memory `σ` as for `uvmalloc`; `copy` is
`memmove` of a page. -/
def uvmcopyLoop {σ : Type} (onPhys : ∀ {α : Type}, PhysM α → StateT σ (Except Stop) α)
    (copy : ℕ → ℕ → σ → σ) (old new : ℕ) : ℕ → ℕ → StateT σ (Except Stop) Bool
  | 0, _ => return true
  | n + 1, i => do
    match ← onPhys (walk old i false) with
    | none => throw (.panic "uvmcopy: pte should exist")
    | some (t, k) =>
      let pte := (← onPhys get).mem t k
      if !pte.v then
        throw (.panic "uvmcopy: page not present")
      match ← onPhys kalloc with
      | none =>
        onPhys (uvmunmap new 0 i true)
        return false
      | some mem =>
        modify (copy mem pte.pa)
        if ← onPhys (mappages new i PGSIZE mem pte.perm) then
          uvmcopyLoop onPhys copy old new n (i + PGSIZE)
        else
          onPhys (kfree mem)
          onPhys (uvmunmap new 0 i true)
          return false

/-- The loop of `uvmcopy` on page tables. -/
@[reducible]
def uvmcopyFrom (old new : ℕ) : ℕ → ℕ → PhysM Bool :=
  uvmcopyLoop (fun m => m) (fun _ _ φ => φ) old new

/-- `uvmcopy`, of the page tables only; `false` is -1. -/
def uvmcopy (old new sz : ℕ) : PhysM Bool :=
  uvmcopyFrom old new ((sz + (PGSIZE - 1)) / PGSIZE) 0

/-- `proc_pagetable`; the results of the two `mappages` are ignored, as in the code. -/
def procPagetable (trampoline tf : ℕ) : PhysM ℕ := do
  let pagetable ← uvmcreate
  let _ ← mappages pagetable TRAMPOLINE PGSIZE trampoline ⟨true, false, true, false⟩
  let _ ← mappages pagetable TRAPFRAME PGSIZE tf ⟨true, true, false, false⟩
  return pagetable

/-- `uvmclear`. -/
def uvmclear (pagetable va : ℕ) : PhysM Unit := do
  match ← walk pagetable va false with
  | none => throw (.panic "uvmclear")
  | some (t, i) =>
    modify fun φ =>
      φ.setPte t i { φ.mem t i with perm := { (φ.mem t i).perm with u := false } }

end Phys

end Xv6Container
