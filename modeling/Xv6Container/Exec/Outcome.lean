import Xv6Container.Exec.Args
import Xv6Container.Exec.Space
import Xv6Container.Fs.Balance
import Xv6Container.Fs.Trans
import Xv6Container.Fs.Walk

/-!
# What `exec` comes to

`exec` up to the arguments, for every content of the file.  It makes a page table, loads the
program and puts a stack above it; what fails on the way ends at the label `bad`, which gives the
page table back with the size of the moment.

* `InOrder` : the memory of the kernel is in order, and there is an address space to build;
* `peak` : the size that the address space reaches when there is memory for it;
* `execSegments_does` : from the ELF header on, `exec` returns the program of the file, or
  it fails, and then every page is free again exactly when there was memory and the size is not 0.
-/

namespace Xv6Container

open Function Books Phys

variable {A B : Type} [DecidableEq A] [DecidableEq B] {o : Owners A B} {a c : A} {r ip sz : ℕ}
  {s s' : ExecState} {F : List UInt8} {elf : Elfhdr} {path : CharArray}

/-- The pages of the kernel are in order: each is free or held once.  The address space of the
caller is `c`, and `a` is none yet. -/
structure InOrder (o : Owners A B) (c a : A) (s : ExecState) : Prop where
  inv : o.Inv s.ram.phys
  hand : o.hand = none
  caller : o.root c = some s.proc.pagetable
  mapped : o.Mapped s.ram.phys c (pages s.proc.sz)
  new : o.root a = none
  newTf : o.tf a = none
  kernel : 0 < o.kernelEnd

/-! ### What the file asks for -/

/-- The program headers of an executable. -/
def Elfhdr.headers (elf : Elfhdr) (F : List UInt8) : List (Option Proghdr) :=
  Xv6Container.headers F elf.phnum (elf.phoff % 2 ^ 32)

/-- The size of the program, and whether its headers are accepted. -/
def target (F : List UInt8) (elf : Elfhdr) : ℕ × Bool := plan F (elf.headers F) 0

/-- The size that the address space reaches when there is memory for it. -/
def peak (F : List UInt8) (elf : Elfhdr) : ℕ :=
  if (target F elf).2 then (pages (target F elf).1 + 2) * PGSIZE else (target F elf).1

/-- There are pages for the page table and for what the file asks for, which is not nothing. -/
def HasRoom (φ : Phys) (F : List UInt8) (elf : Elfhdr) : Prop :=
  0 < peak F elf ∧ φ.Avail (3 + footprint (pages (peak F elf)))

theorem footprint_le_peak :
    footprint (pages (target F elf).1) ≤ footprint (pages (peak F elf)) := by
  refine footprint_mono (pages_mono ?_)
  unfold peak
  split
  · simp only [pages, PGSIZE]
    omega
  · exact le_rfl

/-- A program has been loaded. -/
structure Loaded (o : Owners A B) (a : A) (s : ExecState) (F : List UInt8) (elf : Elfhdr)
    (prog : Program) (s' : ExecState) : Prop where
  entry : prog.entry = elf.entry
  accepted : (target F elf).2 = true
  size : prog.sz = (pages (target F elf).1 + 2) * PGSIZE
  stacked : Stacked (o.withRoot a prog.pagetable) a prog.pagetable s'.ram (pages (target F elf).1)
    (programImage F (elf.headers F))
  steps : Steps (Owners.space a) (o.books s.ram.phys)
    ((o.withRoot a prog.pagetable).books s'.ram.phys)
  room : s.ram.phys.Avail 3 → HasRoom s.ram.phys F elf

/-- Between `s` and `s'` no page has left the free list for good. -/
def SameFree (s s' : ExecState) : Prop :=
  ∀ pa, pa ∈ s'.ram.phys.freelist ↔ pa ∈ s.ram.phys.freelist

/-- A page that was free is no longer. -/
def Leaks (s s' : ExecState) : Prop :=
  ∃ pa ∈ s.ram.phys.freelist, pa ∉ s'.ram.phys.freelist

/-- What `exec` from the ELF header on has done when it returns. -/
def SegmentsDone (o : Owners A B) (a : A) (s : ExecState) (F : List UInt8) (elf : Elfhdr) :
    Option Program → ExecState → Prop
  | none, s' => o.Inv s'.ram.phys ∧ (s.ram.phys.Avail 3 →
      (HasRoom s.ram.phys F elf → SameFree s s') ∧ (¬ HasRoom s.ram.phys F elf → Leaks s s'))
  | some prog, s' => Loaded o a s F elf prog s'

/-! ### Giving the page table back -/

theorem does_procFreepagetable (r sz : ℕ) (s : ExecState) :
    Does (onRam (Ram.onPhys (Vm.procFreepagetable r sz))) s (fun _ s' => ∃ φ',
      Returns (Vm.procFreepagetable r sz) s.ram.phys () φ' ∧
        s' = { s with ram := ⟨φ', s.ram.data⟩ }) Quiet := by
  refine .zoom (.zoom ⟨fun _ φ' h => ⟨φ', h, rfl⟩, fun e he => ?_⟩)
  exact (within_procFreepagetable r sz s.ram.phys).stops he

theorem drop_zero {φ φ₁ φ' : Phys} (hnew : o.root a = none) (hI : (o.withRoot a r).Inv φ₁)
    (hfree : r ∈ φ.freelist) (h : Returns (Vm.procFreepagetable r 0) φ₁ () φ') :
    o.Inv φ' ∧ ∃ pa ∈ φ.freelist, pa ∉ φ'.freelist := by
  have hroot := Owners.withRoot_root (o := o) (a := a) (r := r)
  obtain ⟨hI', -, -⟩ := Vm.procFreepagetable_spec hI hroot (by omega) h
  rw [Owners.dropRoot_withRoot hnew] at hI'
  have hb := procFreepagetable_zero hI hroot h
  refine ⟨hI', r, hfree, ?_⟩
  rw [show φ'.freelist = φ₁.freelist from congrArg Books.free hb]
  exact hI.sound.apart (p := .page a []) (by rw [← hroot]; exact Owners.held_root)

theorem drop_pos {φ φ₁ φ' : Phys} (hI0 : o.Inv φ) (hnew : o.root a = none)
    (hI : (o.withRoot a r).Inv φ₁)
    (hs : Steps (Owners.space a) (o.books φ) ((o.withRoot a r).books φ₁))
    (hm : (o.withRoot a r).Mapped φ₁ a (pages sz)) (hsz : 0 < sz)
    (h : Returns (Vm.procFreepagetable r sz) φ₁ () φ') :
    o.Inv φ' ∧ ∀ pa, pa ∈ φ'.freelist ↔ pa ∈ φ.freelist := by
  have hroot := Owners.withRoot_root (o := o) (a := a) (r := r)
  obtain ⟨hI', -, hcons, -⟩ := Vm.procFreepagetable_spec hI hroot (fun _ => hm) h
  rw [Owners.dropRoot_withRoot hnew] at hI' hcons
  have hall := hs.conserves.trans (hcons hsz)
  have hheld : (o.books φ').held = (o.books φ).held := by
    funext p
    by_cases hp : p ∈ Owners.space a
    · obtain ⟨π, rfl⟩ | rfl := hp
      · simp [Owners.books, Owners.held, hnew]
      · simp [Owners.books, Owners.held]
    · exact hall.held p hp
  refine ⟨hI', fun pa => ?_⟩
  have h1 := hI'.sound.mem_free_iff (a := pa)
  have h0 := hI0.sound.mem_free_iff (a := pa)
  rw [hall.items, hheld, ← h0] at h1
  exact h1

/-! ### From the ELF header on -/

theorem quiet_of_fsStop {e : Stop} (h : FsStop e) : Quiet e := by
  rintro msg hmsg rfl
  have : ∀ msg ∈ loadPanics, msg ∉ fsPanics := by decide
  exact this msg hmsg (h msg rfl)

theorem hasSteps_quiet : FsState.HasSteps AnyState Quiet where
  stop _ h := quiet_of_fsStop h
  blk _ _ _ := trivial
  log _ _ _ _ := trivial
  charge _ := trivial
  credit _ := trivial
  inode _ _ _ := trivial

theorem within_endOp : Within AnyState Quiet endOp :=
  .bind .get fun _ => .ite (fun _ => .throw (by decide)) fun _ => .ite
    (fun _ => fun _ => .set trivial) fun _ => fun _ => .set trivial

theorem does_close (ip : ℕ) (s : ExecState) : Does (onFs (do
    iunlockput ip
    endOp)) s (fun _ s' => ∃ t, s' = { s with fs := t } ∧
      s.fs.Counts (-oneRef (some ip)) t) Quiet := by
  refine .zoom ⟨fun _ t h => ⟨t, rfl, ?_⟩, fun e he => ?_⟩
  · obtain ⟨_, t₁, hput, hend⟩ := returns_bind.1 h
    intro b
    rw [(FsState.endOp_frame hend).2.2]
    exact FsState.Counts.iunlockput hput b
  · exact (Within.bind (hasSteps_quiet.rules.iunlockput ip) fun _ => within_endOp) s.fs |>.stops he

theorem does_execBad {Q : ExecState → Prop}
    (h : ∀ φ' t, Returns (Vm.procFreepagetable r sz) s.ram.phys () φ' →
      s.fs.Counts (-oneRef (some ip)) t → Q { s with ram := ⟨φ', s.ram.data⟩, fs := t }) :
    Does (execBad (some r) sz (some ip)) s (fun _ => Q) Quiet := by
  refine (does_procFreepagetable r sz s).bind fun _ t ⟨φ', hfree, ht⟩ => ?_
  subst ht
  refine (does_close ip _).mono (fun _ s' ⟨t, hs', hcount⟩ => ?_) fun _ h => h
  subst hs'
  exact h φ' t hfree hcount

theorem does_execBad_closed {Q : ExecState → Prop}
    (h : ∀ φ', Returns (Vm.procFreepagetable r sz) s.ram.phys () φ' →
      Q { s with ram := ⟨φ', s.ram.data⟩ }) :
    Does (execBad (some r) sz none) s (fun _ => Q) Quiet := by
  refine (does_procFreepagetable r sz s).bind fun _ t ⟨φ', hfree, ht⟩ => ?_
  subst ht
  exact .pure (h φ' hfree)

theorem not_hasRoom {φ φ₁ : Phys} (hused : Used φ φ₁ 3) (h3 : φ.Avail 3)
    (h : ¬ φ₁.Avail (footprint (pages (peak F elf)))) : ¬ HasRoom φ F elf :=
  fun hroom => h ((hused.avail h3).1 hroom.2)

/-- **`exec` from the ELF header on**: it returns the program that the file describes, or it fails;
and when it fails, every page is free again exactly when there was memory for what the file asks
for and this is not nothing. -/
theorem execSegments_does (hs : InOrder o c a s) (hF : s.fs.FileAt ip F) :
    Does (execSegments ip elf) s (fun x s' => s'.proc = s.proc ∧
      s.fs.Counts (-oneRef (some ip)) s'.fs ∧ SegmentsDone o a s F elf x s') Quiet := by
  refine .get_bind ?_
  by_cases h1 : s.ram.phys.Avail 1
  swap
  · obtain ⟨φ₁, hk, -⟩ := kalloc_not_avail h1
    have hpt : Does (onRam (Ram.onPhys (Phys.procPagetable s.trampoline s.proc.tf))) s
        (fun _ _ => False) Quiet :=
      .zoom (.zoom (.bind (Q := fun _ _ => False) (.bind_returns hk (.throw (by decide)))
        fun _ _ h => h.elim))
    exact hpt.bind fun _ _ h => h.elim
  obtain ⟨r, φ₁, hpt, hfree, hB1, hs1, hused1⟩ := procPagetable_total s.trampoline
    s.proc.tf hs.inv hs.new hs.newTf hs.hand h1
  have hpt' : Returns (onRam (Ram.onPhys (Phys.procPagetable s.trampoline s.proc.tf))) s r
      { s with ram := ⟨φ₁, s.ram.data⟩ } :=
    returns_onTables.2 ⟨φ₁, hpt, rfl⟩
  refine .bind_returns hpt' ?_
  have hB0 : Built (o.withRoot a r) a r ⟨φ₁, s.ram.data⟩ (pages 0) fun _ => 0 := hB1
  have hload := loadHeaders_total (s := { s with ram := ⟨φ₁, s.ram.data⟩ }) elf.phnum
    (elf.phoff % 2 ^ 32) hB0 hs.kernel hF (Nat.mod_lt _ (by decide))
  have hzero : footprint (pages 0) = 0 := rfl
  obtain ⟨henough, hshort⟩ := hload
  rw [hzero, Nat.sub_zero] at henough hshort
  change φ₁.Avail (footprint (pages (target F elf).1)) → _ at henough
  change ¬ φ₁.Avail (footprint (pages (target F elf).1)) → _ at hshort
  by_cases hav : φ₁.Avail (footprint (pages (target F elf).1))
  swap
  · -- `uvmalloc` has returned 0 in some turn of the loop
    obtain ⟨m₂, hr, hI2, -⟩ := hshort hav
    refine .bind_returns hr (.bind ?_ fun _ s' (h : _ ∧ _) => .pure h)
    refine does_execBad fun φ' t hfreed hcount => ⟨rfl, hcount, ?_⟩
    obtain ⟨hI', hleak⟩ := drop_zero hs.new hI2 hfree hfreed
    exact ⟨hI', fun h₃ => ⟨fun hroom => absurd hroom (not_hasRoom (hused1 h₃) h₃ fun h =>
      hav (h.mono footprint_le_peak)), fun _ => hleak⟩⟩
  obtain ⟨m₂, f, hr, hB2, hf, hs2, hused2⟩ := henough hav
  change Returns _ _ (target F elf) _ at hr
  change Built _ _ _ _ (pages (target F elf).1) _ at hB2
  change (target F elf).2 = true → f = programImage F (elf.headers F) at hf
  have hs12 := hs1.trans hs2
  refine .bind_returns hr (.ite (fun hok => ?_) fun hbad => ?_)
  swap
  · -- a header is not accepted
    refine .bind (does_execBad fun φ' t hfreed hcount => ⟨rfl, hcount, ?_⟩) fun _ s' (h : _ ∧ _) =>
      .pure h
    change Returns (Vm.procFreepagetable r (target F elf).1) m₂.phys () φ' at hfreed
    have hpeak : peak F elf = (target F elf).1 := if_neg hbad
    obtain hnone | hsome := Nat.eq_zero_or_pos (target F elf).1
    · rw [hnone] at hfreed
      obtain ⟨hI', hleak⟩ := drop_zero hs.new hB2.inv hfree hfreed
      refine ⟨hI', fun _ => ⟨fun hroom => absurd hroom.1 ?_, fun _ => hleak⟩⟩
      omega
    · obtain ⟨hI', hsame⟩ := drop_pos hs.inv hs.new hB2.inv hs12 hB2.mapped hsome hfreed
      refine ⟨hI', fun h₃ => ⟨fun _ => hsame, fun hno => absurd ?_ hno⟩⟩
      exact ⟨by omega, ((hused1 h₃).avail h₃).2 (by rwa [hpeak])⟩
  have hpeak : peak F elf = (pages (target F elf).1 + 2) * PGSIZE := if_pos hok
  have hsplit : footprint (pages (peak F elf)) = footprint (pages (target F elf).1) +
      (footprint (pages (target F elf).1 + 2) - footprint (pages (target F elf).1)) := by
    rw [hpeak, pages_mul, Nat.add_sub_cancel' (footprint_mono (by omega))]
  refine (does_close ip _).bind fun _ s₃ ⟨t, hs3, hcount⟩ => ?_
  subst hs3
  by_cases hstack : m₂.phys.Avail
      (footprint (pages (target F elf).1 + 2) - footprint (pages (target F elf).1))
  · obtain ⟨m₃, hr3, hS, hs3⟩ := execStack_enough (s := { s with ram := m₂, fs := t })
      elf.entry hB2 hstack
    refine .of_returns hr3 ⟨rfl, hcount, ⟨rfl, hok, rfl, hf hok ▸ hS, hs12.trans hs3, fun h₃ => ?_⟩⟩
    refine ⟨by rw [hpeak]; simp only [PGSIZE]; omega, ((hused1 h₃).avail h₃).2 ?_⟩
    rw [hsplit]
    exact (hused2.avail hav).2 hstack
  · refine execStack_short (s := { s with ram := m₂, fs := t }) hB2 hstack fun m₃ hI3 _ => ?_
    refine does_execBad_closed fun φ' hfreed => ⟨rfl, hcount, ?_⟩
    obtain ⟨hI', hleak⟩ := drop_zero hs.new hI3 hfree hfreed
    refine ⟨hI', fun h₃ => ⟨fun hroom => absurd hroom (not_hasRoom (hused1 h₃) h₃ fun h => ?_),
      fun _ => hleak⟩⟩
    rw [hsplit] at h
    exact hstack ((hused2.avail hav).1 h)

/-! ### From the start -/

/-- The path leads to the inode `ip`, which is locked in `t`. -/
def FsState.Opens (s : FsState) (path : CharArray) (ip : ℕ) (t : FsState) : Prop :=
  ∃ t₁ t₂, Returns beginOp s () t₁ ∧ Returns (namei path) t₁ (some ip) t₂ ∧
    Returns (ilock ip) t₂ () t

/-- If the path leads to a file, then its content is `F`. -/
def FsState.Contains (s : FsState) (path : CharArray) (F : List UInt8) : Prop :=
  ∀ ip t, s.Opens path ip t → t.FileAt ip F

theorem FsState.contains_of_walks {t : FsState} (path : CharArray) (i : ℕ) (ht : t.WellFormed)
    (hl : t.Linked) (hroot : ROOTINO < t.sb.ninodes) (hcont : t.kern.mycont t.cur = some root)
    (hcwd : ∀ w, (t.kern.proc t.cur).cwd = some w → 0 < (t.icache w).ref)
    (hi : ∀ ip t', t.Opens path ip t' → (t'.icache ip).inum = i) : t.Contains path (t.file i) := by
  rintro ip t' ⟨t₁, t₂, hbegin, hname, hlock⟩
  have hinum := hi ip t' ⟨t₁, t₂, hbegin, hname, hlock⟩
  obtain ⟨l, rfl⟩ : ∃ l, t₁ = t.setLog l := ⟨_, FsState.returns_beginOp hbegin⟩
  obtain ⟨hwalk, -⟩ := namei_walks (ht.setLog l) ⟨hl.links, hl.entries⟩ hroot hcont hcwd hname
  obtain ⟨hwf, hheld, hlooks⟩ := hwalk.wf.ilock hlock
  have hfile : t'.file i = t.file i :=
    ((hlooks.walked hwf).file_eq i).trans (hwalk.file_eq i)
  rw [← hfile, ← hinum]
  exact FsState.fileAt_of_wellFormed hwf hheld

/-- The ELF header of a file. -/
def elfOf (F : List UInt8) : Elfhdr := getElfhdr (pread F 0 ELFHDR)

/-- The path leads to a file, and the content `F` begins with an ELF header: `exec` makes a page
table. -/
def Begins (s : ExecState) (path : CharArray) (F : List UInt8) : Prop :=
  (∃ ip t, s.fs.Opens path ip t) ∧ ELFHDR ≤ F.length ∧ (elfOf F).magic = ELF_MAGIC

/-- There is memory for what `exec` begins. -/
def ExecRoom (s : ExecState) (path : CharArray) (F : List UInt8) : Prop :=
  Begins s path F → HasRoom s.ram.phys F (elfOf F)

/-- The references to inodes are those of `s`. -/
def SameInodes (s s' : ExecState) : Prop :=
  ∀ b, (s'.fs.icache b).ref = (s.fs.icache b).ref

/-- What `exec` has done before the arguments. -/
def LoadDone (o : Owners A B) (a : A) (s : ExecState) (path : CharArray) (F : List UInt8) :
    Option Program → ExecState → Prop
  | none, s' => o.Inv s'.ram.phys ∧ ((Begins s path F → s.ram.phys.Avail 3) →
      (ExecRoom s path F → SameFree s s') ∧ (¬ ExecRoom s path F → Leaks s s'))
  | some prog, s' => Begins s path F ∧ Loaded o a s F (elfOf F) prog s'

theorem does_onFs {α : Type} {m : FsM α} (hm : Within AnyState Quiet m) (s : ExecState) :
    Does (onFs m) s (fun x s' => ∃ t, Returns m s.fs x t ∧ s' = { s with fs := t }) Quiet :=
  .zoom ⟨fun _ t h => ⟨t, h, rfl⟩, fun _ he => (hm s.fs).stops he⟩

theorem within_beginOp : Within AnyState Quiet beginOp :=
  .bind .get fun _ => .ite (fun _ => .throw (by decide)) fun _ => fun _ => .set trivial

theorem namei_counts {t t' : FsState} {r : Option ℕ} (h : Returns (namei path) t r t') :
    ∃ δ, t.Counts (oneRef r + δ) t' ∧ (δ = 0 ↔ t.TakesStart path) := by
  obtain ⟨name, hnamex⟩ := returns_namei h
  refine ⟨fun b => (t'.icache b).ref - (t.icache b).ref - oneRef r b, fun b => ?_, ?_⟩
  · simp only [Pi.add_apply]
    omega
  · rw [← namex_balanced_iff hnamex, funext_iff]
    refine forall_congr' fun b => ?_
    simp only [Pi.zero_apply, oneRef]
    omega

theorem opens_counts {t t₁ t₂ : FsState} {x : Option ℕ} (hbegin : Returns beginOp t () t₁)
    (hname : Returns (namei path) t₁ x t₂) :
    ∃ δ, t.Counts (oneRef x + δ) t₂ ∧ (δ = 0 ↔ t.TakesStart path) := by
  obtain ⟨δ, hcount, hδ⟩ := namei_counts hname
  obtain rfl := FsState.returns_beginOp hbegin
  exact ⟨δ, hcount, hδ⟩

theorem sameInodes_iff {δ : ℕ → ℤ} (h : s.fs.Counts δ s'.fs) : SameInodes s s' ↔ δ = 0 := by
  rw [funext_iff]
  refine forall_congr' fun b => ?_
  have := h b
  simp only [Pi.zero_apply]
  omega

/-- **`exec` up to the arguments**, from the start. -/
theorem execLoad_does (hs : InOrder o c a s) (hfile : s.fs.Contains path F) :
    Does (execLoad path) s (fun x s' => s'.proc = s.proc ∧
      (SameInodes s s' ↔ s.fs.TakesStart path) ∧ LoadDone o a s path F x s') Quiet := by
  refine (does_onFs within_beginOp s).bind fun _ s₁ ⟨t₁, hbegin, hs1⟩ => ?_
  subst hs1
  refine (does_onFs (hasSteps_quiet.namei path) _).bind fun x s₂ ⟨t₂, hname, hs2⟩ => ?_
  subst hs2
  obtain ⟨δ, hcount, hδ⟩ := opens_counts hbegin hname
  have hkeep : ∀ s' : ExecState, s'.ram = s.ram → ¬ Begins s path F →
      LoadDone o a s path F none s' := fun s' hram hno =>
    ⟨hram ▸ hs.inv, fun _ => ⟨fun _ pa => by rw [hram], fun hroom =>
      absurd (fun h => absurd h hno) hroom⟩⟩
  cases x with
  | none =>
    have hno : ¬ Begins s path F := by
      rintro ⟨⟨ip, t, t₁', t₂', hbegin', hname', -⟩, -⟩
      obtain ⟨-, rfl⟩ := hbegin.unique hbegin'
      cases (hname.unique hname').1
    refine (does_onFs within_endOp _).bind fun _ s₃ ⟨t₃, hend, hs3⟩ => ?_
    subst hs3
    refine .pure ⟨rfl, ?_, hkeep _ rfl hno⟩
    rw [sameInodes_iff (δ := δ) fun b => ?_, hδ]
    rw [(FsState.endOp_frame hend).2.2, hcount b, oneRef_none, zero_add]
  | some ip =>
    refine (does_onFs (hasSteps_quiet.rules.ilock ip) _).bind fun _ s₃ ⟨t₃, hlock, hs3⟩ => ?_
    subst hs3
    have hopens : s.fs.Opens path ip t₃ := ⟨t₁, t₂, hbegin, hname, hlock⟩
    have hF := hfile ip t₃ hopens
    -- what is left of the references when the inode is released
    have hrefs : ∀ s' : ExecState, t₃.Counts (-oneRef (some ip)) s'.fs →
        (SameInodes s s' ↔ s.fs.TakesStart path) := by
      intro s' hput
      rw [sameInodes_iff (δ := δ) fun b => ?_, hδ]
      have h1 := hcount b
      have h2 := FsState.Counts.ilock hlock b
      have h₃ := hput b
      simp only [Pi.add_apply, Pi.neg_apply, Pi.zero_apply] at h1 h2 h₃
      omega
    have hbad : ¬ (ELFHDR ≤ F.length ∧ (elfOf F).magic = ELF_MAGIC) →
        Does (do
          execBad none 0 (some ip)
          return none) { s with fs := t₃ } (fun x s' => s'.proc = s.proc ∧
            (SameInodes s s' ↔ s.fs.TakesStart path) ∧ LoadDone o a s path F x s') Quiet := by
      intro hno
      have hclose : Does (execBad none 0 (some ip)) { s with fs := t₃ } (fun _ s' => ∃ t,
          s' = { s with fs := t } ∧ t₃.Counts (-oneRef (some ip)) t) Quiet := does_close ip _
      refine hclose.bind fun _ s₄ ⟨t₄, hs4, hput⟩ => ?_
      subst hs4
      exact .pure ⟨rfl, hrefs _ hput, hkeep _ rfl fun h => hno h.2⟩
    by_cases hlen : ELFHDR ≤ F.length
    swap
    · obtain ⟨x, bytes, hread, hx, -⟩ := hF.short 0 ELFHDR (by decide) (by decide) (by omega)
      refine .bind_returns (returns_onFs.2 ⟨t₃, hread, rfl⟩) (.ite (fun _ => ?_) fun h => ?_)
      · exact hbad fun h => hlen h.1
      · exact absurd hx h
    · have hread := hF.full 0 ELFHDR (by omega)
      refine .bind_returns (returns_onFs.2 ⟨t₃, hread, rfl⟩) (.ite (fun h => ?_) fun _ => ?_)
      · exact absurd rfl h
      · refine .ite (fun hmagic => hbad fun h => hmagic h.2) fun hmagic => ?_
        have hs3 : InOrder o c a { s with fs := t₃ } :=
          ⟨hs.inv, hs.hand, hs.caller, hs.mapped, hs.new, hs.newTf, hs.kernel⟩
        have hbegins : Begins s path F := ⟨⟨ip, t₃, hopens⟩, hlen, not_not.1 hmagic⟩
        refine (execSegments_does hs3 hF).mono (fun x s' ⟨hproc, hput, hdone⟩ => ?_) fun _ h => h
        refine ⟨hproc, hrefs s' hput, ?_⟩
        cases x with
        | none =>
          obtain ⟨hI', hfree⟩ := hdone
          refine ⟨hI', fun h₃ => ⟨fun hroom => (hfree (h₃ hbegins)).1 (hroom hbegins),
            fun hroom => ?_⟩⟩
          exact (hfree (h₃ hbegins)).2 fun h => hroom fun _ => h
        | some prog =>
          exact ⟨hbegins, hdone.entry, hdone.accepted, hdone.size, hdone.stacked, hdone.steps,
            hdone.room⟩

/-! ### The stack page -/

namespace Stacked

variable {m : Ram} {k : ℕ} {f : ℕ → UInt8}

omit [DecidableEq A] [DecidableEq B]

theorem lt_userTop (hS : Stacked o a r m k f) : k + 2 < userTop := hS.mapped.lt_userTop hS.inv

theorem isSome_iff (hS : Stacked o a r m k f) {va : ℕ} (hva : va < TRAPFRAME) :
    (pteOf m.phys r va).isSome = true ↔ va < (k + 2) * PGSIZE := by
  have hv : va / PGSIZE < userTop := Nat.div_lt_div_of_lt_of_dvd (by decide) hva
  have hm := hS.mapped (va / PGSIZE) hv
  rw [Owners.held_upath hS.root hv, Option.isSome_map, pteOf_page] at hm
  exact hm.trans (Nat.div_lt_iff_lt_mul (by decide))

theorem closedAbove (hS : Stacked o a r m k f) : ClosedAbove m.phys r ((k + 1) * PGSIZE) := by
  intro va hlo hmax pte hpte
  by_cases hva : va < TRAPFRAME
  · have h := (hS.isSome_iff hva).1 (by rw [hpte]; rfl)
    rw [Nat.succ_mul (k + 1)] at h
    omega
  · exact hS.top va pte (by omega) hmax hpte

theorem openPage (hS : Stacked o a r m k f) (hend : 0 < o.kernelEnd) :
    ∃ pa, OpenPage m r ((k + 1) * PGSIZE) pa := by
  have htop := hS.lt_userTop
  obtain ⟨pa, hpte, -⟩ := hS.page (k + 1) (by omega)
  have hheld : o.held m.phys (.page a (upath (k + 1))) = some pa := by
    rw [Owners.held_upath hS.root (by omega), hpte]
    rfl
  refine ⟨pa, Nat.mul_mod_left _ _, Nat.le_mul_of_pos_left _ (by omega), lt_MAXVA (by omega),
    ⟨_, hpte, by simp⟩, ?_⟩
  have := (hS.inv.held_ok hheld).2.1
  omega

end Stacked

/-! ### The whole call -/

/-- `exec` has returned -1. -/
structure Refused (o : Owners A B) (s : ExecState) (path : CharArray) (F : List UInt8)
    (s' : ExecState) : Prop where
  proc : s'.proc = s.proc
  inodes : SameInodes s s' ↔ s.fs.TakesStart path
  inv : o.Inv s'.ram.phys
  free : (Begins s path F → s.ram.phys.Avail 3) →
    (ExecRoom s path F → SameFree s s') ∧ (¬ ExecRoom s path F → Leaks s s')

/-- `exec` has replaced the program of the caller: `prog` was loaded in state `t`, and the arguments
pushed from there. -/
structure Committed (o : Owners A B) (a : A) (s : ExecState) (path : CharArray) (F : List UInt8)
    (args : List CharArray) (prog : Program) (t : ExecState) (m : Ram) (sp : ℕ) (s' : ExecState) :
    Prop where
  load : Returns (execLoad path) s (some prog) t
  loaded : Loaded o a s F (elfOf F) prog t
  push : Returns (pushArgs prog.pagetable prog.sz args) t.ram (some sp) m
  proc : s'.proc = s.proc.install path prog sp
  data : s'.ram.data = m.data
  map : ∀ va, pteOf s'.ram.phys prog.pagetable va = pteOf t.ram.phys prog.pagetable va

/-- What `exec` has done when it returns. -/
def ExecDone (o : Owners A B) (a : A) (s : ExecState) (path : CharArray) (F : List UInt8)
    (args : List CharArray) (n : ℤ) (s' : ExecState) : Prop :=
  n = -1 ∧ Refused o s path F s' ∨
    n = args.length ∧ ∃ prog t m sp, Committed o a s path F args prog t m sp s'

/-- **`exec`**, for every path, every content of the file and all arguments: how it stops, and what
it has done when it returns. -/
theorem exec_does (hs : InOrder o c a s) (hfile : s.fs.Contains path F) (args : List CharArray) :
    Does (exec path args) s (ExecDone o a s path F args) Quiet := by
  have hload : Does (execLoad path) s (fun x t => Returns (execLoad path) s x t ∧
      t.proc = s.proc ∧ (SameInodes s t ↔ s.fs.TakesStart path) ∧ LoadDone o a s path F x t)
      Quiet :=
    (execLoad_does hs hfile).imp fun x t h q => ⟨h, q⟩
  refine hload.bind fun x t ⟨hload, hproc, hinodes, hdone⟩ => ?_
  cases x with
  | none => exact .pure (.inl ⟨rfl, hproc, hinodes, hdone.1, hdone.2⟩)
  | some prog =>
    obtain ⟨hbegins, hL⟩ := hdone
    have hS := hL.stacked
    obtain ⟨pa, hopen⟩ := hS.openPage (m := t.ram) hs.kernel
    have hsize : prog.sz = (pages (target F (elfOf F)).1 + 1) * PGSIZE + PGSIZE := by
      rw [hL.size, Nat.succ_mul (_ + 1)]
    have hpush := hopen.pushArgs_does args hS.closedAbove
    rw [← hsize] at hpush
    have hpush' : Does (onRam (pushArgs prog.pagetable prog.sz args)) t (fun x s₁ => ∃ m',
        Returns (pushArgs prog.pagetable prog.sz args) t.ram x m' ∧ m'.phys = t.ram.phys ∧
          s₁ = { t with ram := m' }) Quiet :=
      .zoom ⟨fun x m' h => ⟨m', h, (hpush.returns h).phys, rfl⟩, fun e he => (hpush.stops he).elim⟩
    refine hpush'.bind fun x s₁ ⟨m', hx, hphys, hs1⟩ => ?_
    subst hs1
    cases x with
    | none =>
      -- the page table is given back with its size
      refine (does_execBad_closed (Q := Refused o s path F) fun φ' hfreed => ?_).bind
        fun _ s' hs' => .pure (.inl ⟨rfl, hs'⟩)
      have hpos : 0 < prog.sz := by
        rw [hL.size]
        exact Nat.mul_pos (by omega) (by decide)
      have hm : (o.withRoot a prog.pagetable).Mapped m'.phys a (pages prog.sz) := by
        rw [hphys, hL.size, pages_mul]
        exact hS.mapped
      obtain ⟨hI', hsame⟩ := drop_pos hs.inv hs.new (by rw [hphys]; exact hS.inv)
        (by rw [hphys]; exact hL.steps) hm hpos hfreed
      exact ⟨hproc, hinodes, hI', fun h₃ => ⟨fun _ => hsame, fun hno =>
        absurd (fun _ => hL.room (h₃ hbegins)) hno⟩⟩
    | some sp =>
      refine .get_bind (.bind (Q := fun _ s₂ => s₂ = { t with
        ram := m', proc := t.proc.install path prog sp }) (.modify rfl) fun _ s₂ hs2 => ?_)
      subst hs2
      refine (does_procFreepagetable _ _ _).bind fun _ s' ⟨φ', hfreed, hs'⟩ => ?_
      subst hs'
      refine .pure (.inr ⟨rfl, prog, t, m', sp, hload, hL, hx, by rw [hproc], rfl, fun va => ?_⟩)
      -- the old page table is another address space
      have hca : c ≠ a := fun e => by
        have := hs.caller
        rw [e, hs.new] at this
        cases this
      have hroot : (o.withRoot a prog.pagetable).root c = some s.proc.pagetable := by
        simp [Owners.withRoot, hca, hs.caller]
      have hheld : ∀ v, (o.withRoot a prog.pagetable).held t.ram.phys (.page c (upath v)) =
          o.held s.ram.phys (.page c (upath v)) := by
        intro v
        have hv : (.page c (upath v) : PagePlace A B) ∉ Owners.space a := Owners.notMem_space hca _
        exact hL.steps.held_of_notMem hv
      have hm : (o.withRoot a prog.pagetable).Mapped t.ram.phys c (pages s.proc.sz) :=
        fun v hv => by
          rw [hheld]
          exact hs.mapped v hv
      rw [hproc, hphys] at hfreed
      exact procFreepagetable_keeps hS.inv hroot (fun _ => hm) hfreed hS.root hca.symm va

end Xv6Container
