import Xv6Container.Exec.Image

/-!
# What a failed `exec` leaves behind

`sys_exec` fetches the path and the arguments from user memory, each argument to a page of its own,
calls `exec`, and frees these pages.

* `sysExec_clean_iff` : **a failed call of `sys_exec` is clean exactly when** the path lookup takes
  the reference it gives up, and there is memory for what the executable asks for, which is not
  nothing.
-/

namespace Xv6Container

open Books Phys

/-! ### Reading user memory -/

section Read

variable {r n : ℕ}

theorem within_walkaddr (r va : ℕ) :
    Within Eq (fun _ => True) (Ram.onPhys (Phys.walkaddr r va)) := by
  refine .of_rel fun m x m' h => ?_
  obtain ⟨φ, hw, rfl⟩ := Ram.returns_onPhys.1 h
  obtain ⟨-, rfl⟩ := (returns_walkaddr m.phys r va).unique hw
  rfl

theorem within_copyinLoop (r fuel srcva len : ℕ) :
    Within Eq (fun _ => True) (Ram.copyinLoop r fuel srcva len) := by
  induction fuel generalizing srcva len with
  | zero => exact .pure _
  | succ fuel ih =>
    exact .ite (fun _ => .pure _) fun _ => .bind (within_walkaddr _ _) fun _ =>
      .ite (fun _ => .pure _) fun _ => .bind .get fun _ => .bind (ih _ _) fun _ => .pure _

theorem within_copyinstrLoop (r fuel srcva max : ℕ) :
    Within Eq (fun _ => True) (Ram.copyinstrLoop r fuel srcva max) := by
  induction fuel generalizing srcva max with
  | zero => exact .pure _
  | succ fuel ih =>
    exact .ite (fun _ => .pure _) fun _ => .bind (within_walkaddr _ _) fun _ =>
      .ite (fun _ => .pure _) fun _ => .bind .get fun _ => .ite (fun _ => .pure _) fun _ =>
        .bind (ih _ _) fun _ => .pure _

theorem within_onRam {α : Type} {m : RamM α} (hm : Within Eq (fun _ => True) m) :
    Within Eq (fun _ => True) (onRam m) := by
  refine .of_rel fun s x s' h => ?_
  obtain ⟨t, ht, rfl⟩ := returns_onRam.1 h
  rw [← hm.rel ht]

theorem within_fetchstr (addr max : ℕ) : Within Eq (fun _ => True) (fetchstr addr max) :=
  .bind .get fun _ => within_onRam (within_copyinstrLoop _ _ _ _)

theorem within_argstr (n max : ℕ) : Within Eq (fun _ => True) (argstr n max) :=
  .bind (.bind .get fun _ => .pure _) fun _ => within_fetchstr _ _

theorem within_fetchaddr (addr : ℕ) : Within Eq (fun _ => True) (fetchaddr addr) :=
  .bind .get fun _ => .ite (fun _ => .pure _) fun _ =>
    .bind (within_onRam (within_copyinLoop _ _ _ _)) fun _ => .pure _

end Read

/-! ### The pages of the arguments -/

variable {A B : Type} [DecidableEq A] [DecidableEq B] {o : Owners A B} {a c : A} {φ φ₁ : Phys}
  {s s' : ExecState} {F : List UInt8} {path : CharArray} {args : List CharArray}

theorem Owners.Inv.lose {pa : ℕ} (hI : o.Inv φ) (h : Taken φ φ₁ pa) (hhand : o.hand = none) :
    o.Inv φ₁ := by
  have ho : ({ o with hand := none } : Owners A B) = o := by
    cases o
    simp_all
  have hI1 := (hI.take h hhand).1.dropHand
  rwa [ho] at hI1

theorem Phys.kalloc_some {pa : ℕ} (h : Returns kalloc φ (some pa) φ₁) :
    φ.Avail 1 ∧ Taken φ φ₁ pa ∧ Used φ φ₁ 1 := by
  by_cases h1 : φ.Avail 1
  · obtain ⟨pa', φ', hk, htaken, hused⟩ := kalloc_avail h1
    obtain ⟨he, rfl⟩ := h.unique hk
    cases he
    exact ⟨h1, htaken, hused⟩
  · obtain ⟨φ', hk, -⟩ := kalloc_not_avail h1
    cases (h.unique hk).1

/-- The pages `ps` have been taken for the arguments, and nothing else has changed. -/
structure ArgPages (o : Owners A B) (s : ExecState) (ps : List ℕ) (s' : ExecState) : Prop where
  state : s' = { s with ram := ⟨s'.ram.phys, s.ram.data⟩ }
  free : s.ram.phys.freelist = ps ++ s'.ram.phys.freelist
  avail : s.ram.phys.Avail ps.length
  used : Used s.ram.phys s'.ram.phys ps.length
  inv : o.Inv s'.ram.phys
  held : o.held s'.ram.phys = o.held s.ram.phys

omit [DecidableEq A] [DecidableEq B] in
theorem ArgPages.nil (hI : o.Inv s.ram.phys) : ArgPages o s [] s :=
  ⟨rfl, rfl, avail_zero, .refl _, hI, rfl⟩

variable {t : ExecState} {ps : List ℕ} {u : PUnit}

omit [DecidableEq A] [DecidableEq B] in
theorem ArgPages.cons {page : ℕ} (h : ArgPages o s [page] t)
    (h' : ArgPages o t ps s') : ArgPages o s (page :: ps) s' := by
  have hlen : (page :: ps).length = 1 + ps.length := Nat.add_comm _ _
  refine ⟨?_, ?_, ?_, ?_, h'.inv, h'.held.trans h.held⟩
  · rw [h'.state, h.state]
  · rw [h.free, h'.free]
    rfl
  · rw [hlen]
    exact (h.used.avail h.avail).2 h'.avail
  · rw [hlen]
    exact h.used.trans h'.used

/-- The loop over the arguments takes a page for each of them. -/
theorem fetchArgs_spec {uargv fuel i : ℕ} {y : List ℕ × Option (List CharArray)}
    (hI : o.Inv s.ram.phys) (hhand : o.hand = none)
    (h : Returns (fetchArgs uargv fuel i) s y s') :
    ArgPages o s y.1 s' ∧ ∀ args, y.2 = some args → y.1.length = args.length := by
  induction fuel generalizing s i y with
  | zero =>
    obtain ⟨rfl, rfl⟩ := returns_pure.1 h
    exact ⟨.nil hI, nofun⟩
  | succ fuel ih =>
    obtain ⟨x, t, hx, h⟩ := returns_bind.1 h
    obtain rfl := (within_fetchaddr _).rel hx
    match x, h with
    | none, h =>
      obtain ⟨rfl, rfl⟩ := returns_pure.1 h
      exact ⟨.nil hI, nofun⟩
    | some 0, h =>
      obtain ⟨rfl, rfl⟩ := returns_pure.1 h
      exact ⟨.nil hI, by simp⟩
    | some (uarg + 1), h =>
      obtain ⟨page, t, hk, h⟩ := returns_bind.1 h
      obtain ⟨φ, halloc, rfl⟩ := returns_onTables.1 hk
      cases page with
      | none => exact absurd h not_returns_throw
      | some page =>
        obtain ⟨hav, htaken, hused⟩ := kalloc_some halloc
        have hpage : ArgPages o s [page] { s with ram := ⟨φ, s.ram.data⟩ } :=
          ⟨rfl, htaken.free, hav, hused, hI.lose htaken hhand, hI.held_taken htaken⟩
        obtain ⟨str, t, hstr, h⟩ := returns_bind.1 h
        obtain rfl := (within_fetchstr _ _).rel hstr
        cases str with
        | none =>
          obtain ⟨rfl, rfl⟩ := returns_pure.1 h
          exact ⟨hpage, nofun⟩
        | some arg =>
          obtain ⟨⟨ps, rest⟩, t, hrest, h⟩ := returns_bind.1 h
          obtain ⟨rfl, rfl⟩ := returns_pure.1 h
          obtain ⟨hps, hlen⟩ := ih hpage.inv hrest
          refine ⟨hpage.cons hps, fun args hargs => ?_⟩
          obtain ⟨args', rfl, rfl⟩ := Option.map_eq_some_iff.1 hargs
          simpa using hlen args' rfl

theorem freeArgs_spec (h : Returns (freeArgs ps) s u s') :
    s'.fs = s.fs ∧ s'.proc = s.proc ∧
      ∀ pa, pa ∈ s'.ram.phys.freelist ↔ pa ∈ ps ∨ pa ∈ s.ram.phys.freelist := by
  induction ps generalizing s with
  | nil =>
    obtain ⟨-, rfl⟩ := returns_pure.1 h
    exact ⟨rfl, rfl, by simp⟩
  | cons page ps ih =>
    obtain ⟨_, t, hk, h⟩ := returns_bind.1 h
    obtain ⟨φ, hfree, rfl⟩ := returns_onTables.1 hk
    obtain ⟨-, hfreed⟩ := kfree_spec hfree
    obtain ⟨hfs, hproc, hfree⟩ := ih h
    refine ⟨hfs, hproc, fun pa => ?_⟩
    rw [hfree pa, hfreed.free, List.mem_cons, List.mem_cons, ← or_assoc, or_comm (a := pa ∈ ps)]

/-! ### Failed calls -/

/-- `sys_exec` comes to `exec` with this path and these arguments. -/
def Calls (s : ExecState) (path : CharArray) (args : List CharArray) : Prop :=
  Returns (argstr 0 MAXPATH) s (some path) s ∧ ∃ ps t,
    Returns (fetchArgs (s.proc.regs (tfA0 + 1)).toNat MAXARG 0) s (ps, some args) t

/-- A call from `s` to `s'` has left the free pages, the references to inodes and the caller as they
were. -/
def Clean (s s' : ExecState) : Prop := SameFree s s' ∧ SameInodes s s' ∧ s'.proc = s.proc

/-- The path lookup takes the reference that it gives up; and if the path leads to an executable
with content `F`, then this asks for some memory, and there are pages for it besides those for the
arguments and the page table. -/
def SafeCall (s : ExecState) (path : CharArray) (F : List UInt8) (args : List CharArray) : Prop :=
  s.fs.TakesStart path ∧ (Begins s path F → 0 < peak F (elfOf F) ∧
    s.ram.phys.Avail (args.length + (3 + footprint (pages (peak F (elfOf F))))))

omit [DecidableEq A] [DecidableEq B] in
theorem InOrder.argPages (hs : InOrder o c a s) (h : ArgPages o s ps s') :
    InOrder o c a s' := by
  refine ⟨h.inv, hs.hand, ?_, ?_, hs.new, hs.newTf, hs.kernel⟩
  · rw [h.state]
    exact hs.caller
  · rw [h.state]
    exact hs.mapped.congr fun v => by rw [h.held]

theorem Calls.unique {path' : CharArray} {args' : List CharArray} (h : Calls s path args)
    (h' : Calls s path' args') : path = path' ∧ args = args' := by
  obtain ⟨hpath, ps, t, hargs⟩ := h
  obtain ⟨hpath', ps', t', hargs'⟩ := h'
  have h1 := (hpath.unique hpath').1
  have h2 := (hargs.unique hargs').1
  simp_all

omit [DecidableEq A] [DecidableEq B] in
theorem ArgPages.clean (h : ArgPages o s ps t)
    (hfree : Returns (freeArgs ps) t u s') : Clean s s' := by
  obtain ⟨hfs, hproc, hmem⟩ := freeArgs_spec hfree
  refine ⟨fun pa => ?_, fun b => ?_, ?_⟩
  · rw [hmem, h.free, List.mem_append]
  · rw [hfs, h.state]
  · rw [hproc, h.state]

theorem ArgPages.clean_iff {s₂ : ExecState} (h : ArgPages o s ps t)
    (hs : InOrder o c a s) (hlen : ps.length = args.length) (hfile : s.fs.Contains path F)
    (hscope : Begins s path F → s.ram.phys.Avail (args.length + 3))
    (hexec : Returns (exec path args) t (-1) s₂) (hfree : Returns (freeArgs ps) s₂ u s') :
    Clean s s' ↔ SafeCall s path F args := by
  have hfs : t.fs = s.fs := by rw [h.state]
  have hbegins : Begins t path F ↔ Begins s path F := by rw [Begins, Begins, hfs]
  have hdone := (exec_does (hs.argPages h) (hfs ▸ hfile) args).returns hexec
  obtain ⟨-, hR⟩ | ⟨hn, -⟩ := hdone
  swap
  · omega
  obtain ⟨hfs', hproc', hmem⟩ := freeArgs_spec hfree
  have hproc : s'.proc = s.proc := by rw [hproc', hR.proc, h.state]
  have hinodes : SameInodes s s' ↔ s.fs.TakesStart path := by
    rw [← hfs, ← hR.inodes]
    exact forall_congr' fun b => by rw [hfs', hfs]
  have hroom : ExecRoom t path F ↔ (Begins s path F → 0 < peak F (elfOf F) ∧
      s.ram.phys.Avail (args.length + (3 + footprint (pages (peak F (elfOf F)))))) := by
    rw [ExecRoom, hbegins, HasRoom, ← h.used.avail h.avail, hlen]
  obtain ⟨hsame, hleak⟩ := hR.free fun hb =>
    (h.used.avail h.avail).1 (hlen ▸ hscope (hbegins.1 hb))
  have hfreeIff : SameFree s s' ↔ ExecRoom t path F := by
    constructor
    · intro hsf
      by_contra hno
      obtain ⟨pa, hpa, hpa'⟩ := hleak hno
      -- the page is no page of the arguments, as these have left the free list
      have hnodup : (ps ++ t.ram.phys.freelist).Nodup := h.free ▸ hs.inv.sound.nodup
      have hin : pa ∈ s'.ram.phys.freelist := (hsf pa).2 (by rw [h.free]; simp [hpa])
      rcases (hmem pa).1 hin with hps | hfree
      · exact (List.nodup_append.1 hnodup).2.2 pa hps pa hpa rfl
      · exact hpa' hfree
    · intro hr pa
      rw [hmem pa, hsame hr pa, h.free, List.mem_append]
  rw [Clean, SafeCall, hfreeIff, hroom, hinodes]
  exact ⟨fun ⟨h1, h2, _⟩ => ⟨h2, h1⟩, fun ⟨h1, h2⟩ => ⟨h2, h1, hproc⟩⟩

/-- **A failed `exec` leaks nothing exactly when the path lookup is balanced and memory lasts.**
The pages that are allocated outside of `uvmalloc`, for the arguments and for the page table, are
there. -/
theorem sysExec_clean_iff (hs : InOrder o c a s)
    (hfile : ∀ path args, Calls s path args → s.fs.Contains path F)
    (hscope : ∀ path args, Calls s path args → Begins s path F →
      s.ram.phys.Avail (args.length + 3))
    (h : Returns sysExec s (-1) s') :
    Clean s s' ↔ ∀ path args, Calls s path args → SafeCall s path F args := by
  obtain ⟨_, t, hstr, h⟩ := returns_bind.1 h
  obtain rfl := (within_argstr 1 MAXPATH).rel hstr
  obtain ⟨x, t, hpath, h⟩ := returns_bind.1 h
  obtain rfl := (within_argstr 0 MAXPATH).rel hpath
  cases x with
  | none =>
    obtain ⟨-, rfl⟩ := returns_pure.1 h
    refine iff_of_true ⟨fun _ => Iff.rfl, fun _ => rfl, rfl⟩ fun path args hc => ?_
    cases (hpath.unique hc.1).1
  | some path =>
    obtain ⟨uargv, t, hraw, h⟩ := returns_bind.1 h
    simp only [argraw, returns_bind, returns_get, returns_pure] at hraw
    obtain ⟨_, _, ⟨rfl, rfl⟩, rfl, rfl⟩ := hraw
    obtain ⟨⟨ps, x⟩, s₁, hargs, h⟩ := returns_bind.1 h
    obtain ⟨hps, hlen⟩ := fetchArgs_spec hs.inv hs.hand hargs
    cases x with
    | none =>
      obtain ⟨_, s₂, hfree, h⟩ := returns_bind.1 h
      obtain ⟨-, rfl⟩ := returns_pure.1 h
      refine iff_of_true (hps.clean hfree) fun path' args hc => ?_
      obtain ⟨-, ps', t', hargs'⟩ := hc
      cases (hargs.unique hargs').1
    | some args =>
      obtain ⟨n, s₂, hexec, h⟩ := returns_bind.1 h
      obtain ⟨_, s₃, hfree, h⟩ := returns_bind.1 h
      obtain ⟨rfl, rfl⟩ := returns_pure.1 h
      have hcalls : Calls s path args := ⟨hpath, ps, s₁, hargs⟩
      rw [hps.clean_iff hs (hlen args rfl) (hfile path args hcalls) (hscope path args hcalls) hexec
        hfree]
      refine ⟨fun hsafe path' args' hc => ?_, fun hsafe => hsafe path args hcalls⟩
      obtain ⟨rfl, rfl⟩ := hcalls.unique hc
      exact hsafe

/-- User memory for a call with the path `/f` and this path as the only argument: the string at 8,
and `argv` at 16. -/
def callBytes : List UInt8 :=
  List.replicate 8 0 ++ chars "/f" ++ List.replicate 6 0 ++ word64 8 ++ word64 0

/-- The file is four bytes shorter than its program header says. -/
def shortProgram : List UInt8 := elfFile ⟨ELF_PROG_LOAD, 120, 0, 8, 8⟩ 124

/-- The call fails when the segment has been mapped, and it is clean. -/
theorem sysExec_clean_short : ∃ s', Returns sysExec (start 16 shortProgram callBytes 8 16) (-1) s' ∧
    Clean (start 16 shortProgram callBytes 8 16) s' := by
  obtain ⟨s', h⟩ : ∃ s', Returns sysExec (start 16 shortProgram callBytes 8 16) (-1) s' :=
    exists_returns (by decide +kernel)
  obtain ⟨o, hs⟩ := inOrder_start (n := 16) shortProgram callBytes 8 16 (by decide)
    (by decide) (by decide)
  obtain ⟨t, hpath⟩ : ∃ t, Returns (argstr 0 MAXPATH) (start 16 shortProgram callBytes 8 16)
      (some (chars "/f")) t := exists_returns (by decide +kernel)
  obtain rfl := (within_argstr 0 MAXPATH).rel hpath
  obtain ⟨⟨⟨ps, x⟩, t⟩, hrun, hx⟩ := (Option.any_eq_true _ _).1 (by decide +kernel :
    ((fetchArgs 16 MAXARG 0).run (start 16 shortProgram callBytes 8 16)).toOption.any
      (fun y => decide (y.1.2 = some [chars "/f"])) = true)
  obtain rfl : x = some [chars "/f"] := of_decide_eq_true hx
  have hcalls : Calls (start 16 shortProgram callBytes 8 16) (chars "/f") [chars "/f"] :=
    ⟨hpath, ps, t, toOption_run_eq_some.1 hrun⟩
  have hfile : (startDisk shortProgram).Contains (chars "/f") shortProgram :=
    contains_startDisk (by decide +kernel) (by decide +kernel)
  refine ⟨s', h, (sysExec_clean_iff (F := shortProgram) hs (fun path args hc => ?_)
    (fun path args hc _ => ?_) h).2 fun path args hc => ?_⟩
  all_goals obtain ⟨rfl, rfl⟩ := hcalls.unique hc
  · exact hfile
  · decide +kernel
  · exact ⟨.inr (.inl rfl), fun _ => by decide +kernel⟩

/-- With six free pages the segment of the program finds no memory, and its page table is lost. -/
theorem sysExec_leaks : ∃ s', Returns sysExec (start 12 smallProgram callBytes 8 16) (-1) s' ∧
    ¬ Clean (start 12 smallProgram callBytes 8 16) s' := by
  obtain ⟨s', hrun, pa, hpa, hpa'⟩ : ∃ s', Returns sysExec (start 12 smallProgram callBytes 8 16)
      (-1) s' ∧ ∃ pa ∈ (start 12 smallProgram callBytes 8 16).ram.phys.freelist,
        pa ∉ s'.ram.phys.freelist := exists_returns_and (by decide +kernel)
  exact ⟨s', hrun, fun hclean => hpa' ((hclean.1 pa).2 hpa)⟩

end Xv6Container
