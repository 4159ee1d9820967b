import Xv6Container.Exec.Outcome

/-!
# The program that `exec` makes

What a program finds when it starts: its address space, its image and its arguments, for every
content of the file and all arguments.

* `exec_image` : **`exec` loads the image that the headers describe**, between the addresses 0 and
  `p->sz`, and no content of the file makes it panic on the way;
* `exec_args` : **`exec` builds the argument block exactly when it fits** in the stack page.
-/

namespace Xv6Container

open Function Books Phys

/-- The byte at a virtual address. -/
def Ram.byte (m : Ram) (r va : ℕ) : Option UInt8 :=
  (pteOf m.phys r va).map fun pte => m.data pte.pa (va % PGSIZE)

/-- User code can use the address. -/
def Phys.Accessible (φ : Phys) (r va : ℕ) : Prop :=
  ∃ pte, pteOf φ r va = some pte ∧ pte.perm.u = true

variable {A B : Type} {o : Owners A B} {a c : A} {r k va pa : ℕ}
  {m m' : Ram} {f : ℕ → UInt8}

theorem Ram.byte_congr (hmap : ∀ va, pteOf m'.phys r va = pteOf m.phys r va)
    (hdata : m'.data = m.data) (va : ℕ) : m'.byte r va = m.byte r va := by
  rw [byte, byte, hmap, hdata]

/-! ### Reading an address space -/

namespace Stacked

section

variable (hS : Stacked o a r m k f)

include hS

theorem pte (hva : va < (k + 2) * PGSIZE) : ∃ pa,
    pteOf m.phys r va = some ⟨true, { Perm.all with u := decide (va / PGSIZE ≠ k) }, pa⟩ ∧
      m.data pa (va % PGSIZE) = f va := by
  obtain ⟨pa, hpte, hdata⟩ := hS.page (va / PGSIZE) ((Nat.div_lt_iff_lt_mul (by decide)).2 hva)
  refine ⟨pa, by rw [← pteOf_page, hpte], ?_⟩
  rw [hdata _ (Nat.mod_lt _ (by decide))]
  congr 1
  simp only [PGSIZE]
  omega

theorem byte (hva : va < (k + 2) * PGSIZE) : m.byte r va = some (f va) := by
  obtain ⟨pa, hpte, hdata⟩ := hS.pte hva
  rw [Ram.byte, hpte, Option.map_some, hdata]

theorem accessible_iff (hva : va < MAXVA) :
    m.phys.Accessible r va ↔ va < (k + 2) * PGSIZE ∧ va / PGSIZE ≠ k := by
  constructor
  · rintro ⟨pte, hpte, hu⟩
    have hlow : va < TRAPFRAME := by
      by_contra h
      rw [hS.top va pte (by omega) hva hpte] at hu
      cases hu
    have hlt := (hS.isSome_iff hlow).1 (by rw [hpte]; rfl)
    obtain ⟨pa, hpte', -⟩ := hS.pte hlt
    obtain rfl := Option.some.inj (hpte.symm.trans hpte')
    exact ⟨hlt, by simpa using hu⟩
  · rintro ⟨hlt, hne⟩
    obtain ⟨pa, hpte, -⟩ := hS.pte hlt
    exact ⟨_, hpte, by simpa using hne⟩

theorem ne_stack (hopen : OpenPage m r ((k + 1) * PGSIZE) pa) (hva : va < (k + 1) * PGSIZE)
    {pte : Pte} (hpte : pteOf m.phys r va = some pte) : pte.pa ≠ pa := by
  intro e
  obtain ⟨perm, hstack, -⟩ := hopen.entry
  have htop := hS.lt_userTop
  have hlt : va / PGSIZE < k + 1 := (Nat.div_lt_iff_lt_mul (by decide)).2 hva
  have h1 : o.held m.phys (.page a (upath (va / PGSIZE))) = some pa := by
    rw [Owners.held_upath hS.root (by omega), pteOf_page, hpte, Option.map_some, e]
  have h2 : o.held m.phys (.page a (upath (k + 1))) = some pa := by
    rw [Owners.held_upath hS.root (by omega), hstack]
    rfl
  have hu : userTop = 2 ^ 26 - 2 := rfl
  have := upath_injective (by omega) (by omega) (PagePlace.page.inj (hS.inv.inj h1 h2)).2
  omega

theorem byte_patched (hopen : OpenPage m r ((k + 1) * PGSIZE) pa) (hp : Patched m m' pa 0 PGSIZE)
    (hva : va < (k + 1) * PGSIZE) : m'.byte r va = m.byte r va := by
  rw [Ram.byte, Ram.byte, hp.phys]
  cases hpte : pteOf m.phys r va with
  | none => rfl
  | some pte => rw [Option.map_some, Option.map_some, hp.other _ (hS.ne_stack hopen hva hpte)]

end

end Stacked

variable [DecidableEq A] [DecidableEq B] {s s' t : ExecState} {path : CharArray} {F : List UInt8}
  {args : List CharArray} {prog : Program} {n : ℤ} {sp : ℕ}

theorem Loaded.patched {x : Option ℕ} (hL : Loaded o a s F (elfOf F) prog t)
    (hend : 0 < o.kernelEnd) (hpush : Returns (pushArgs prog.pagetable prog.sz args) t.ram x m) :
    ∃ pa, OpenPage t.ram prog.pagetable ((pages (target F (elfOf F)).1 + 1) * PGSIZE) pa ∧
      Patched t.ram m pa 0 PGSIZE := by
  obtain ⟨pa, hopen⟩ := hL.stacked.openPage hend
  rw [hL.size, Nat.succ_mul (_ + 1)] at hpush
  exact ⟨pa, hopen, (hopen.pushArgs_does _ hL.stacked.closedAbove).returns hpush⟩

/-! ### A process that calls `exec` -/

section Start

/-- The bytes of an ELF file with the program header `ph`; from offset 120 on they count up. -/
def elfByte (ph : Proghdr) : ℕ → UInt8 :=
  let f := setLE 4 (fun i => if i < 120 then 0 else UInt8.ofNat i) 0 ELF_MAGIC
  let f := setLE 2 (setLE 8 f 32 ELFHDR) 56 1
  let f := setLE 8 (setLE 4 f ELFHDR ph.type) (ELFHDR + 8) ph.off
  setLE 8 (setLE 8 (setLE 8 f (ELFHDR + 16) ph.vaddr) (ELFHDR + 32) ph.filesz)
    (ELFHDR + 40) ph.memsz

/-- An ELF file of `len` bytes. -/
def elfFile (ph : Proghdr) (len : ℕ) : List UInt8 := (List.range len).map (elfByte ph)

/-- The root directory has a file `f` with the content `F`, of one block. -/
def startDisk (F : List UInt8) : FsState :=
  let s := ((((blank oneProc jailSb 16).putInode 1 (dirInode 14 48)).putInode 2
    { dirInode 15 (.ofNat F.length) with type := T_FILE }).setBlk 14
    (dirBlock [⟨1, chars "."⟩, ⟨1, chars ".."⟩, ⟨2, chars "f"⟩])).setBlk 15 fun i => F.getD i 0
  s.setLog { s.store.log with outstanding := 0 }

/-- Memory with `n` free pages. -/
def freshPhys (n : ℕ) : Phys where
  freelist := (List.range n).map fun i => 0x80100000 + i * PGSIZE
  mem := fun _ _ => .zero
  refuse := fun _ => false
  kernelEnd := 0x80100000

/-- Nobody holds a page. -/
def freshOwners : Owners Bool Empty where
  root := fun _ => none
  tf := fun _ => none
  other := nofun
  hand := none
  kernelEnd := 0x80100000

/-- A page table with one user page, which begins with the given bytes. -/
def startMemory (bytes : List UInt8) : RamM ℕ := do
  let r ← Ram.onPhys (Phys.procPagetable 0x80000000 0x80001000)
  let _ ← Ram.uvmalloc r 0 PGSIZE
  let pa ← Ram.onPhys (Phys.walkaddr r 0)
  modify (·.store pa 0 bytes)
  return r

/-- A process with one page of user memory that begins with the given bytes, `n` pages of physical
memory, and a file `f` with the content `F`; the registers `a0` and `a1` are given. -/
def start (n : ℕ) (F bytes : List UInt8) (a0 a1 : UInt64) : ExecState :=
  let m := ((startMemory bytes).run ⟨freshPhys n, fun _ _ => 0⟩).toOption.getD
    (0, ⟨freshPhys n, fun _ _ => 0⟩)
  { fs := startDisk F
    ram := m.2
    proc :=
      { pagetable := m.1
        sz := PGSIZE
        tf := 0x80001000
        regs := update (update (fun _ => 0) tfA0 a0) tfA1 a1
        name := chars "sh" }
    trampoline := 0x80000000 }

theorem inv_fresh {n : ℕ} (hn : n ≤ 1000) : freshOwners.Inv (freshPhys n) := by
  have hheld : ∀ p, freshOwners.held (freshPhys n) p = none := by
    rintro (⟨b, π⟩ | ⟨⟨⟩⟩ | _)
    · simp [Owners.held, freshOwners]
    · rfl
  refine ⟨rfl, ⟨?_, fun pa hpa => ?_, fun p x hp => ?_, fun p x hp => ?_, fun p q x hp => ?_⟩,
    fun b π t k _ ht => ?_⟩
  · refine List.Nodup.map (fun i j h => ?_) List.nodup_range
    simp only [PGSIZE] at h
    omega
  · obtain ⟨i, hi, rfl⟩ := List.mem_map.1 hpa
    rw [List.mem_range] at hi
    refine ⟨?_, ?_, ?_⟩
    all_goals
      simp only [PGSIZE, PHYSTOP, freshOwners]
      omega
  all_goals simp_all [Owners.books]

theorem startMemory_built {n : ℕ} {bytes : List UInt8} (hn : 6 ≤ n) (hn' : n ≤ 1000)
    (hbytes : bytes.length ≤ PGSIZE) : ∃ r m f,
      Returns (startMemory bytes) ⟨freshPhys n, fun _ _ => 0⟩ r m ∧
        Built (freshOwners.withRoot true r) true r m 1 f := by
  have hav : ∀ k ≤ 6, (freshPhys n).Avail k := fun k hk =>
    ⟨by simp [freshPhys]; omega, fun _ _ => rfl⟩
  obtain ⟨r, φ₁, hpt, -, hB0, -, hused⟩ := procPagetable_total 0x80000000 0x80001000
    (m := ⟨freshPhys n, fun _ _ => 0⟩) (a := true) (inv_fresh hn') rfl rfl rfl (hav 1 (by decide))
  have hB1 : Built (freshOwners.withRoot true r) true r ⟨φ₁, fun _ _ => 0⟩ (pages 0) fun _ => 0 :=
    hB0
  obtain ⟨m₂, halloc, hB2, -⟩ := (hB1.uvmalloc PGSIZE).1
    (((hused (hav 3 (by decide))).avail (hav 3 (by decide))).1 (hav 6 le_rfl))
  obtain ⟨pa, hpte, hwalk⟩ := hB2.walkaddr (v := 0) (by decide)
  refine ⟨r, m₂.store pa 0 bytes, _, ?_, hB2.store 0 bytes (by decide) hpte (by omega)⟩
  refine returns_bind.2 ⟨r, _, Ram.returns_onPhys.2 ⟨φ₁, hpt, rfl⟩, returns_bind.2 ⟨_, m₂, halloc,
    returns_bind.2 ⟨pa, m₂, Ram.returns_onPhys.2 ⟨m₂.phys, hwalk 0 (by decide), rfl⟩, ?_⟩⟩⟩
  exact returns_bind.2 ⟨⟨⟩, _, returns_modify.2 rfl, returns_pure.2 ⟨rfl, rfl⟩⟩

theorem inOrder_start {n : ℕ} (F bytes : List UInt8) (a0 a1 : UInt64) (hn : 6 ≤ n)
    (hn' : n ≤ 1000) (hbytes : bytes.length ≤ PGSIZE) : ∃ o : Owners Bool Empty,
      InOrder o true false (start n F bytes a0 a1) := by
  obtain ⟨r, m, f, hr, hB⟩ := startMemory_built hn hn' hbytes
  have hrun : ((startMemory bytes).run ⟨freshPhys n, fun _ _ => 0⟩).toOption = some (r, m) :=
    toOption_run_eq_some.2 hr
  have hram : (start n F bytes a0 a1).ram = m ∧ (start n F bytes a0 a1).proc.pagetable = r := by
    simp only [start, hrun, Option.getD_some, and_self]
  refine ⟨freshOwners.withRoot true r, ?_, hB.hand, ?_, ?_, rfl, rfl,
    (by decide : 0 < freshOwners.kernelEnd)⟩
  · rw [hram.1]
    exact hB.inv
  · rw [hram.2]
    exact hB.root
  · have hpages : pages (start n F bytes a0 a1).proc.sz = 1 := (by decide : pages PGSIZE = 1)
    rw [hram.1, hpages]
    exact hB.mapped

theorem contains_startDisk {F : List UInt8}
    (hsmall : (startDisk F).Small 0 ∧ (startDisk F).Linked ∧ (startDisk F).file 2 = F)
    (hlook : (beginOp.run (startDisk F)).toOption.any (fun x =>
      ((namei (chars "/f")).run x.2).toOption.any
        fun y => decide (y.1 = some 1 ∧ (y.2.icache 1).inum = 2)) = true) :
    (startDisk F).Contains (chars "/f") F := by
  obtain ⟨hsmall, hlinked, hfile⟩ := hsmall
  have hwf : (startDisk F).WellFormed := hsmall.wellFormed (by decide) fun _ _ => rfl
  obtain ⟨⟨⟨⟩, t₁⟩, ht1, hname⟩ := (Option.any_eq_true _ _).1 hlook
  obtain ⟨⟨x, t₂⟩, ht2, hx⟩ := (Option.any_eq_true _ _).1 hname
  obtain ⟨rfl, hinum⟩ : x = some 1 ∧ (t₂.icache 1).inum = 2 := of_decide_eq_true hx
  have h := FsState.contains_of_walks (chars "/f") 2 hwf hlinked
    (by decide : ROOTINO < jailSb.ninodes) rfl nofun ?_
  · rwa [hfile] at h
  rintro ip t' ⟨u₁, u₂, hbegin, hname, hlock⟩
  obtain ⟨-, rfl⟩ := (toOption_run_eq_some.1 ht1).unique hbegin
  obtain ⟨he, rfl⟩ := (toOption_run_eq_some.1 ht2).unique hname
  cases he
  obtain ⟨href, -, -, rfl⟩ := returns_ilock hlock
  change 1 ≤ (t₂.icache 1).ref at href
  exact ((FsState.looks_locked t₂ 1).inum 1 (by omega)).trans hinum

/-- A program of four bytes at address 0, in eight bytes of memory. -/
def smallProgram : List UInt8 := elfFile ⟨ELF_PROG_LOAD, 120, 0, 4, 8⟩ 124

theorem contains_smallProgram : (startDisk smallProgram).Contains (chars "/f") smallProgram :=
  contains_startDisk (by decide +kernel) (by decide +kernel)

theorem exec_smallProgram : ∃ s',
    Returns (exec (chars "/f") [chars "f", chars "-v"]) (start 16 smallProgram [] 0 0) 2 s' :=
  exists_returns (by decide +kernel)

end Start

/-! ### The image -/

/-- **`exec` loads exactly the program image.**  For every content `F` of the file and all
arguments, `exec` does not panic in `loadseg` or with "remap".  When it succeeds, `p->sz` is a
multiple of the page size, the addresses of the program are those below `p->sz`, of which user code
can use all but the page at `p->sz - 2 * PGSIZE`, and below this page they hold what the headers
describe. -/
theorem exec_image (hs : InOrder o c a s) (hfile : s.fs.Contains path F) :
    (∀ msg ∈ loadPanics, ¬ Fails (exec path args) s (.panic msg)) ∧
    ∀ n s', Returns (exec path args) s n s' → n ≠ -1 →
      s'.proc.sz % PGSIZE = 0 ∧ 2 * PGSIZE ≤ s'.proc.sz ∧
      (∀ va < TRAPFRAME, (pteOf s'.ram.phys s'.proc.pagetable va).isSome = true ↔
        va < s'.proc.sz) ∧
      (∀ va < MAXVA, s'.ram.phys.Accessible s'.proc.pagetable va ↔ va < s'.proc.sz ∧
        ¬ (s'.proc.sz - 2 * PGSIZE ≤ va ∧ va < s'.proc.sz - PGSIZE)) ∧
      ∀ va < s'.proc.sz - 2 * PGSIZE, s'.ram.byte s'.proc.pagetable va =
        some (programImage F ((elfOf F).headers F) va) := by
  have hdoes := exec_does hs hfile args
  refine ⟨fun msg hmsg hfail => hdoes.stops hfail msg hmsg rfl, fun n s' h hn => ?_⟩
  obtain ⟨h1, -⟩ | ⟨-, prog, t, m, sp, hC⟩ := hdoes.returns h
  · exact absurd h1 hn
  have hS := hC.loaded.stacked
  obtain ⟨pa, hopen, hp⟩ := hC.loaded.patched hs.kernel hC.push
  have hpt : s'.proc.pagetable = prog.pagetable := by
    rw [hC.proc]
    rfl
  have hsz : s'.proc.sz = (pages (target F (elfOf F)).1 + 2) * PGSIZE := by
    rw [hC.proc, ← hC.loaded.size]
    rfl
  rw [hpt, hsz]
  generalize hk : pages (target F (elfOf F)).1 = k at *
  have hguard : (k + 2) * PGSIZE - 2 * PGSIZE = k * PGSIZE := by
    rw [Nat.add_mul, Nat.add_sub_cancel]
  have hbase : (k + 2) * PGSIZE - PGSIZE = k * PGSIZE + PGSIZE := by
    rw [← Nat.succ_mul, Nat.succ_mul (k + 1), Nat.add_sub_cancel]
  rw [hguard, hbase]
  refine ⟨Nat.mul_mod_left _ _, Nat.mul_le_mul_right _ (by omega), fun va hva => ?_,
    fun va hva => ?_, fun va hva => ?_⟩
  · rw [hC.map, hS.isSome_iff hva]
  · have hacc : s'.ram.phys.Accessible prog.pagetable va ↔
        t.ram.phys.Accessible prog.pagetable va := by
      rw [Accessible, Accessible, hC.map]
    rw [hacc, hS.accessible_iff hva]
    refine and_congr_right fun _ => not_congr ?_
    simp only [PGSIZE]
    omega
  · have hlow : va < (k + 1) * PGSIZE := hva.trans_le (Nat.mul_le_mul_right _ k.le_succ)
    have hmap : ∀ va, pteOf s'.ram.phys prog.pagetable va = pteOf m.phys prog.pagetable va := by
      intro va
      rw [hC.map, hp.phys]
    rw [Ram.byte_congr hmap hC.data, hS.byte_patched hopen hp hlow,
      hS.byte (hlow.trans_le (Nat.mul_le_mul_right _ (k + 1).le_succ))]

/-- The bytes of the program are in memory, and the rest of its page is empty. -/
theorem exec_image_small : ∃ s',
    Returns (exec (chars "/f") [chars "f", chars "-v"]) (start 16 smallProgram [] 0 0) 2 s' ∧
      ∀ va < s'.proc.sz - 2 * PGSIZE, s'.ram.byte s'.proc.pagetable va =
        some (programImage smallProgram ((elfOf smallProgram).headers smallProgram) va) := by
  obtain ⟨s', h⟩ := exec_smallProgram
  obtain ⟨o, hs⟩ := inOrder_start (n := 16) smallProgram [] 0 0 (by decide)
    (by decide) (by decide)
  exact ⟨s', h, ((exec_image hs contains_smallProgram).2 2 s' h (by decide)).2.2.2.2⟩

/-! ### The arguments -/

/-- **`exec` builds a correct argument block.**  When `exec` returns, either loading failed, or a
program was loaded and the arguments were pushed without writing below the stack page.  Then
`exec` succeeds exactly when the argument block fits in a page: it returns the number of
arguments, and the program finds the block at `sp`, which is also in `a1`. -/
theorem exec_args (hs : InOrder o c a s) (hfile : s.fs.Contains path F)
    (hcount : args.length < MAXARG) (hlen : ∀ arg ∈ args, arg.length < PGSIZE)
    (h : Returns (exec path args) s n s') :
    n = -1 ∧ Returns (execLoad path) s none s' ∨
    ∃ prog t x m, Returns (execLoad path) s (some prog) t ∧
      Returns (pushArgs prog.pagetable prog.sz args) t.ram x m ∧
      (∀ va < prog.sz - PGSIZE, m.byte prog.pagetable va = t.ram.byte prog.pagetable va) ∧
      (PGSIZE < blockSize args → n = -1) ∧
      (blockSize args ≤ PGSIZE → n = args.length ∧ s'.proc.sz = prog.sz ∧
        s'.proc.pagetable = prog.pagetable ∧ s'.proc.regs tfSp = s'.proc.regs tfA1 ∧
        ∃ mem ptr, (∀ va, prog.sz - PGSIZE ≤ va → va < prog.sz →
            s'.ram.phys.Accessible s'.proc.pagetable va ∧
            s'.ram.byte s'.proc.pagetable va = some (mem va)) ∧
          ArgBlock mem prog.sz (s'.proc.regs tfA1).toNat args ptr) := by
  have hdone := (exec_does hs hfile args).returns h
  obtain ⟨x, t, hload, h⟩ := returns_bind.1 h
  cases x with
  | none =>
    obtain ⟨rfl, rfl⟩ := returns_pure.1 h
    exact .inl ⟨rfl, hload⟩
  | some prog =>
    obtain ⟨x, s₁, hon, h⟩ := returns_bind.1 h
    obtain ⟨m, hpush, rfl⟩ := returns_onRam.1 hon
    have hL : Loaded o a s F (elfOf F) prog t := ((execLoad_does hs hfile).returns hload).2.2.2
    have hS := hL.stacked
    obtain ⟨pa, hopen, hp⟩ := hL.patched hs.kernel hpush
    have hsz : prog.sz = (pages (target F (elfOf F)).1 + 1) * PGSIZE + PGSIZE := by
      rw [hL.size, Nat.succ_mul (_ + 1)]
    have hspec := pushArgs_spec hopen hlen hcount
    rw [← hsz] at hspec
    have hlow : prog.sz - PGSIZE = (pages (target F (elfOf F)).1 + 1) * PGSIZE := by
      rw [hsz, Nat.add_sub_cancel]
    refine .inr ⟨prog, t, x, m, hload, hpush, fun va hva => ?_, fun hbig => ?_, fun hfit => ?_⟩
    · exact hS.byte_patched hopen hp (hlow ▸ hva)
    · obtain ⟨m', hr, -⟩ := hspec.2 (not_le.2 hbig)
      obtain ⟨rfl, rfl⟩ := hpush.unique hr
      obtain ⟨_, _, -, h⟩ := returns_bind.1 h
      exact (returns_pure.1 h).1.symm
    · obtain ⟨m', hr, -, hstr, hptr⟩ := hspec.1 hfit
      obtain ⟨rfl, rfl⟩ := hpush.unique hr
      obtain ⟨_, _, -, h⟩ := returns_bind.1 h
      obtain ⟨_, _, -, h⟩ := returns_bind.1 h
      obtain ⟨_, _, -, h⟩ := returns_bind.1 h
      obtain ⟨hn, -⟩ := returns_pure.1 h
      obtain ⟨hneg, -⟩ | ⟨-, prog', t', m', sp, hC⟩ := hdone
      · omega
      obtain ⟨he, rfl⟩ := hload.unique hC.load
      obtain rfl := Option.some.inj he
      obtain ⟨he, rfl⟩ := hpush.unique hC.push
      obtain rfl := Option.some.inj he
      have hproc : s'.proc.sz = prog.sz ∧ s'.proc.pagetable = prog.pagetable := by
        rw [hC.proc]
        exact ⟨rfl, rfl⟩
      have hhigh := hopen.high
      have hsmall : prog.sz - blockSize args < 2 ^ 64 := by
        refine lt_of_le_of_lt (Nat.sub_le _ _) ?_
        rw [hsz]
        exact (Nat.add_lt_add_right hhigh PGSIZE).trans (by decide)
      have hregs : s'.proc.regs tfSp = s'.proc.regs tfA1 ∧
          (s'.proc.regs tfA1).toNat = prog.sz - blockSize args := by
        rw [hC.proc]
        simp only [Caller.install, tfSp, tfA1, tfEpc]
        simpa using hsmall
      refine ⟨hn.symm, hproc.1, hproc.2, hregs.1, fun va => m.data pa (va % PGSIZE),
        fun i => prog.sz - stringsSize (args.take (i + 1)), fun va h1 h2 => ?_, ?_⟩
      · rw [hlow] at h1
        rw [hsz] at h2
        have hpage : va / PGSIZE = pages (target F (elfOf F)).1 + 1 :=
          Nat.div_eq_of_lt_le h1 (by rwa [Nat.succ_mul])
        obtain ⟨perm, hpte, hu⟩ := hopen.entry
        rw [← hpage, pteOf_page, ← hC.map, ← hproc.2] at hpte
        exact ⟨⟨_, hpte, hu⟩, by rw [Ram.byte, hpte, hC.data]; rfl⟩
      · rw [hregs.2, hsz]
        refine argBlock_of_bytes (hopen.patched hp) (fun j hj => ?_) hfit hstr (by rwa [← hsz])
        rw [Nat.mul_add_mod_of_lt hj]

/-- Two arguments fit in the stack page. -/
theorem exec_args_small : ∃ s' mem ptr,
    Returns (exec (chars "/f") [chars "f", chars "-v"]) (start 16 smallProgram [] 0 0) 2 s' ∧
      ArgBlock mem s'.proc.sz (s'.proc.regs tfA1).toNat [chars "f", chars "-v"] ptr := by
  obtain ⟨s', h⟩ := exec_smallProgram
  obtain ⟨o, hs⟩ := inOrder_start (n := 16) smallProgram [] 0 0 (by decide)
    (by decide) (by decide)
  obtain ⟨hneg, -⟩ | ⟨prog, t, x, m, -, -, -, -, hfit⟩ := exec_args hs contains_smallProgram
    (by decide) (by decide) h
  · cases hneg
  · obtain ⟨-, hsz, -, -, mem, ptr, -, hblock⟩ := hfit (by decide)
    exact ⟨s', mem, ptr, h, hsz ▸ hblock⟩

end Xv6Container
