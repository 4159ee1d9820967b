import Xv6Container.Data.Bytes
import Xv6Container.Data.Zoom
import Xv6Container.Mem.Total

/-!
# The bytes of user pages

The functions of `kernel/vm.c` that fill, copy and read user pages, over the page tables of
`Mem.PageTable`.  A page is used as a page table or for its bytes, so the two are kept apart; the
fill patterns of `kalloc` and `kfree`, which are never read, are left out of the bytes.
-/

namespace Xv6Container

open Function

/-- Physical memory with the bytes of its pages. -/
structure Ram where
  phys : Phys
  /-- The byte at each offset of the page at an address. -/
  data : ℕ → ℕ → UInt8

/-- Kernel code over memory. -/
abbrev RamM := StateT Ram (Except Stop)

/-- `walkaddr`. -/
def Phys.walkaddr (pagetable va : ℕ) : PhysM ℕ := do
  if MAXVA ≤ va then
    return 0
  match ← walk pagetable va false with
  | none => return 0
  | some (t, i) =>
    let pte := (← get).mem t i
    if !pte.v then
      return 0
    if !pte.perm.u then
      return 0
    return pte.pa

namespace Ram

/-- Run code that works on page tables. -/
def onPhys {α : Type} : PhysM α → RamM α := zoom phys fun m φ => { m with phys := φ }

/-- `memset(pa, c, PGSIZE)`. -/
def memset (m : Ram) (pa : ℕ) (c : UInt8) : Ram :=
  ⟨m.phys.memset pa c.toNat, update m.data pa fun _ => c⟩

/-- `memmove(dst, src, PGSIZE)`, between pages. -/
def copyPage (m : Ram) (dst src : ℕ) : Ram := { m with data := update m.data dst (m.data src) }

/-- `memmove` of `bytes` to offset `off` of the page at `pa`. -/
def store (m : Ram) (pa off : ℕ) (bytes : List UInt8) : Ram :=
  { m with data := update m.data pa (blit (m.data pa) off bytes.length fun j => bytes.getD j 0) }

/-- The loop of `uvmalloc`. -/
@[reducible]
def uvmallocFrom (pagetable : ℕ) : ℕ → ℕ → ℕ → ℕ → RamM ℕ :=
  Phys.uvmallocLoop onPhys (fun mem m => m.memset mem 0) pagetable

/-- `uvmalloc`. -/
def uvmalloc (pagetable oldsz newsz : ℕ) : RamM ℕ :=
  Phys.uvmallocWith (uvmallocFrom pagetable) oldsz newsz

/-- The loop of `uvmcopy`. -/
@[reducible]
def uvmcopyFrom (old new : ℕ) : ℕ → ℕ → RamM Bool :=
  Phys.uvmcopyLoop onPhys (fun dst src m => m.copyPage dst src) old new

/-- `uvmcopy`; `false` is -1. -/
def uvmcopy (old new sz : ℕ) : RamM Bool :=
  uvmcopyFrom old new ((sz + (PGSIZE - 1)) / PGSIZE) 0

/-- The loop of `copyout`; each turn copies a byte at least, so `fuel` bytes take at most as many
turns. -/
def copyoutLoop (pagetable : ℕ) : (fuel dstva : ℕ) → List UInt8 → RamM Bool
  | 0, _, _ => return true
  | fuel + 1, dstva, src =>
    if src.length = 0 then return true
    else do
      let va0 := pgrounddown dstva
      let pa0 ← onPhys (Phys.walkaddr pagetable va0)
      if pa0 = 0 then
        return false
      let n := min (PGSIZE - (dstva - va0)) src.length
      modify (·.store pa0 (dstva - va0) (src.take n))
      copyoutLoop pagetable fuel (va0 + PGSIZE) (src.drop n)

/-- `copyout`; `false` is -1. -/
def copyout (pagetable dstva : ℕ) (src : List UInt8) : RamM Bool :=
  copyoutLoop pagetable src.length dstva src

/-- The loop of `copyin`. -/
def copyinLoop (pagetable : ℕ) : (fuel srcva len : ℕ) → RamM (Option (List UInt8))
  | 0, _, _ => return some []
  | fuel + 1, srcva, len =>
    if len = 0 then return some []
    else do
      let va0 := pgrounddown srcva
      let pa0 ← onPhys (Phys.walkaddr pagetable va0)
      if pa0 = 0 then
        return none
      let n := min (PGSIZE - (srcva - va0)) len
      let m ← get
      let bytes := (List.range n).map fun j => m.data pa0 (srcva - va0 + j)
      return (← copyinLoop pagetable fuel (va0 + PGSIZE) (len - n)).map (bytes ++ ·)

/-- `copyin`: the bytes copied, or `none` for -1. -/
def copyin (pagetable srcva len : ℕ) : RamM (Option (List UInt8)) :=
  copyinLoop pagetable len srcva len

/-- The loop of `copyinstr`. -/
def copyinstrLoop (pagetable : ℕ) : (fuel srcva max : ℕ) → RamM (Option (List UInt8))
  | 0, _, _ => return none
  | fuel + 1, srcva, max =>
    if max = 0 then return none
    else do
      let va0 := pgrounddown srcva
      let pa0 ← onPhys (Phys.walkaddr pagetable va0)
      if pa0 = 0 then
        return none
      let n := min (PGSIZE - (srcva - va0)) max
      let m ← get
      let bytes := (List.range n).map fun j => m.data pa0 (srcva - va0 + j)
      if 0 ∈ bytes then
        return some (bytes.takeWhile (· ≠ 0))
      return (← copyinstrLoop pagetable fuel (va0 + PGSIZE) (max - n)).map (bytes ++ ·)

/-- `copyinstr`: the string without its NUL, or `none` for -1. -/
def copyinstr (pagetable srcva max : ℕ) : RamM (Option (List UInt8)) :=
  copyinstrLoop pagetable max srcva max

theorem returns_onPhys {α : Type} {mm : PhysM α} {m m' : Ram} {x : α} :
    Returns (onPhys mm) m x m' ↔ ∃ φ, Returns mm m.phys x φ ∧ m' = { m with phys := φ } :=
  returns_zoom

end Ram

end Xv6Container
