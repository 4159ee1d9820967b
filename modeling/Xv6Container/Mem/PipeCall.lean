import Xv6Container.Mem.Files
import Xv6Container.Mem.Total

/-!
# A failing call of `pipe`

`sys_pipe` takes two files, a page and two descriptors, and gives back what it has when a later step
fails.

* `sys_pipe_atomic` : **a call of `pipe` returns, and changes nothing when it fails**.
-/

namespace Xv6Container

open Function Phys

namespace Vm

variable {s s₁ t : Vm} {p : Slot} {f rf wf : Fin NFILE} {pi : ℕ}

/-- Files that are not open have no type, and `kfree` accepts the free pages.  The steps of the
machine in `Mem.Vm` keep this.  `sys_open` is not one of them; it sets the type of an open file. -/
structure Tidy (s : Vm) : Prop where
  closed : ∀ f, (s.file f).ref = 0 → (s.file f).type = .none
  pages : ∀ pa ∈ s.phys.freelist, s.phys.ValidPage pa

/-- Files, descriptors and free pages are those of `s`. -/
structure Unchanged (s s' : Vm) : Prop where
  proc : s'.proc = s.proc
  file : s'.file = s.file
  free : s'.phys.freelist = s.phys.freelist

/-! ### The steps -/

theorem filealloc_none_or (s : Vm) : Returns filealloc s none s ∨
    ∃ f, (s.file f).ref = 0 ∧
      Returns filealloc s (some f) (s.setFile f fun g => { g with ref := 1 }) := by
  simp only [filealloc, returns_get_bind]
  cases h : (List.finRange NFILE).find? fun f => (s.file f).ref = 0 with
  | none => exact .inl (returns_pure.2 ⟨rfl, rfl⟩)
  | some f =>
    refine .inr ⟨f, by simpa using List.find?_some h, ?_⟩
    exact returns_bind.2 ⟨⟨⟩, _, returns_modify.2 rfl, returns_pure.2 ⟨rfl, rfl⟩⟩

theorem fdalloc_none_or (s : Vm) (p : Slot) (f : Fin NFILE) : Returns (fdalloc p f) s none s ∨
    ∃ fd, (s.proc p).ofile fd = none ∧
      Returns (fdalloc p f) s (some fd) (s.setFd p fd (some f)) := by
  simp only [fdalloc, returns_get_bind]
  cases h : (List.finRange NOFILE).find? fun fd => ((s.proc p).ofile fd).isNone with
  | none => exact .inl (returns_pure.2 ⟨rfl, rfl⟩)
  | some fd =>
    refine .inr ⟨fd, by simpa using List.find?_some h, ?_⟩
    exact returns_bind.2 ⟨⟨⟩, _, returns_modify.2 rfl, returns_pure.2 ⟨rfl, rfl⟩⟩

theorem returns_clearFd (p : Slot) (fd : Fin NOFILE) :
    Returns (clearFd p fd) s () (s.setFd p fd none) := returns_modify.2 rfl

theorem proc_setFd_none {y : Option (Fin NFILE)} {fd : Fin NOFILE}
    (h : (s.proc p).ofile fd = none) : ((s.setFd p fd y).setFd p fd none).proc = s.proc := by
  simp [setFd, ← h]

theorem proc_setFd_two {y : Option (Fin NFILE)} {fd fd' : Fin NOFILE}
    (h : (s.proc p).ofile fd = none) (h' : ((s.setFd p fd (some f)).proc p).ofile fd' = none) :
    ((((s.setFd p fd (some f)).setFd p fd' y).setFd p fd none).setFd p fd' none).proc = s.proc := by
  have hne : fd' ≠ fd := by
    rintro rfl
    simp [setFd] at h'
  have hfd' : (s.proc p).ofile fd' = none := by simpa [setFd, hne] using h'
  have hofile : update (update (update (update (s.proc p).ofile fd (some f)) fd' y) fd none) fd'
      none = (s.proc p).ofile := by
    funext x
    by_cases h1 : x = fd' <;> by_cases h2 : x = fd <;> simp_all
  simp [setFd, hofile]

/-- The last close of a file, up to the pipe. -/
theorem fileclose_iff (href : (s.file f).ref = 1) {u : Unit} {s' : Vm} :
    Returns (fileclose f) s u s' ↔
      Returns (match (s.file f).type with
        | .pipe pi writable => pipeclose pi writable
        | _ => return ()) (s.setFile f fun _ => ⟨0, .none⟩) u s' := by
  have hset : (s.setFile f fun g => { g with ref := g.ref - 1 }).setFile f (fun _ => ⟨0, .none⟩) =
      s.setFile f fun _ => ⟨0, .none⟩ := by simp [setFile]
  simp only [fileclose, returns_get_bind, href, lt_irrefl, if_false,
    Nat.sub_self]
  rw [((returns_modify (u := ⟨⟩)).2 rfl).bind_iff, ((returns_modify (u := ⟨⟩)).2 rfl).bind_iff]
  exact iff_of_eq (congrArg (Returns _ · u s') hset)

/-- `fileclose` of a file that was never opened. -/
theorem returns_fileclose_unused (hf : s.file f = ⟨1, .none⟩) :
    Returns (fileclose f) s () (s.setFile f fun _ => ⟨0, .none⟩) := by
  rw [fileclose_iff (by rw [hf]), hf]
  exact returns_pure.2 ⟨rfl, rfl⟩

/-! ### The new pipe -/

/-- `pipealloc` has opened the files `rf` and `wf` on a pipe in the page `pi`. -/
structure NewPipe (s s₁ : Vm) (rf wf : Fin NFILE) (pi : ℕ) : Prop where
  ne : rf ≠ wf
  reader : s.file rf = ⟨0, .none⟩
  writer : s.file wf = ⟨0, .none⟩
  file : s₁.file = update (update s.file rf ⟨1, .pipe pi false⟩) wf ⟨1, .pipe pi true⟩
  pipe : s₁.pipe pi = ⟨true, true⟩
  proc : s₁.proc = s.proc
  free : s.phys.freelist = pi :: s₁.phys.freelist
  valid : s₁.phys.ValidPage pi

theorem pipealloc_none_or (hs : s.Tidy) :
    (∃ s₁, Returns pipealloc s none s₁ ∧ Unchanged s s₁) ∨
      ∃ rf wf pi s₁, Returns pipealloc s (some (rf, wf)) s₁ ∧ NewPipe s s₁ rf wf pi := by
  have hopen : ∀ f, (s.file f).ref = 0 → s.file f = ⟨0, .none⟩ := fun f hf =>
    congrArg₂ VmFile.mk hf (hs.closed f hf)
  obtain hnone | ⟨rf, hrf, hsome⟩ := filealloc_none_or s
  · exact .inl ⟨s, hnone.bind_iff.2 (returns_pure.2 ⟨rfl, rfl⟩), rfl, rfl, rfl⟩
  simp only [pipealloc, hsome.bind_iff]
  have hrf := hopen rf hrf
  obtain hnone | ⟨wf, hwf, hsome⟩ := filealloc_none_or (s.setFile rf fun g => { g with ref := 1 })
  · simp only [hnone.bind_iff]
    refine .inl ⟨_, (returns_fileclose_unused ?_).bind_iff.2 (returns_pure.2 ⟨rfl, rfl⟩), rfl, ?_,
      rfl⟩
    · simp [hrf]
    · simp [← hrf]
  have hne : rf ≠ wf := by
    rintro rfl
    simp at hwf
  have hwf := hopen wf (by simpa [hne.symm] using hwf)
  simp only [hsome.bind_iff]
  set u := (s.setFile rf fun g => { g with ref := 1 }).setFile wf fun g => { g with ref := 1 }
    with hu
  by_cases ha : s.phys.Avail 1
  · obtain ⟨pi, φ, hk, htaken, -⟩ := kalloc_avail ha
    have hon : Returns (onPhys Phys.kalloc) u (some pi) { u with phys := φ } :=
      returns_onPhys.2 ⟨φ, hk, rfl⟩
    refine .inr ⟨rf, wf, pi, _, hon.bind_iff.2 (returns_bind.2 ⟨⟨⟩, _, returns_modify.2 rfl,
      returns_bind.2 ⟨⟨⟩, _, returns_modify.2 rfl, returns_bind.2 ⟨⟨⟩, _, returns_modify.2 rfl,
        returns_pure.2 ⟨rfl, rfl⟩⟩⟩⟩), hne, hrf, hwf, ?_, ?_, rfl, htaken.free, ?_⟩
    · funext f
      by_cases h1 : f = wf <;> by_cases h2 : f = rf <;> simp_all
    · simp
    · have hvalid := hs.pages pi (htaken.free ▸ List.mem_cons_self)
      unfold ValidPage at hvalid ⊢
      rwa [← htaken.kernelEnd] at hvalid
  · obtain ⟨φ, hk, hfree, -⟩ := kalloc_not_avail ha
    have hon : Returns (onPhys Phys.kalloc) u none { u with phys := φ } :=
      returns_onPhys.2 ⟨φ, hk, rfl⟩
    simp only [hon.bind_iff]
    refine .inl ⟨_, (returns_fileclose_unused ?_).bind_iff.2 ((returns_fileclose_unused
      ?_).bind_iff.2 (returns_pure.2 ⟨rfl, rfl⟩)), rfl, ?_, hfree⟩
    · simp [hu, hne, hrf]
    · simp [hu, hne.symm, hwf]
    · funext f
      by_cases h1 : f = wf <;> by_cases h2 : f = rf <;> simp_all

/-- The error paths of `sys_pipe` close both files. -/
theorem NewPipe.undo (h : NewPipe s s₁ rf wf pi) (hfile : t.file = s₁.file)
    (hpipe : t.pipe = s₁.pipe) (hphys : t.phys = s₁.phys) (hproc : t.proc = s.proc) :
    ∃ s', Returns (do fileclose rf; fileclose wf; return false) t false s' ∧ Unchanged s s' := by
  have hrf : t.file rf = ⟨1, .pipe pi false⟩ := by simp [hfile, h.file, h.ne]
  have hwf : t.file wf = ⟨1, .pipe pi true⟩ := by simp [hfile, h.file]
  -- the first close leaves the write end open
  obtain ⟨t₁, h1, hfile1, hpipe1, hphys1, hproc1⟩ : ∃ t₁, Returns (fileclose rf) t () t₁ ∧
      t₁.file = update t.file rf ⟨0, .none⟩ ∧ t₁.pipe pi = ⟨false, true⟩ ∧ t₁.phys = t.phys ∧
      t₁.proc = t.proc := by
    refine ⟨{ t.setFile rf fun _ => ⟨0, .none⟩ with pipe := update t.pipe pi ⟨false, true⟩ }, ?_,
      rfl, by simp, rfl, rfl⟩
    rw [fileclose_iff (by rw [hrf]), hrf]
    refine returns_bind.2 ⟨⟨⟩, _, returns_modify.2 rfl, returns_get_bind.2 ?_⟩
    simp [hpipe, h.pipe, PipeEnds.close]
  have hwf1 : t₁.file wf = ⟨1, .pipe pi true⟩ := by rw [hfile1, update_of_ne h.ne.symm, hwf]
  obtain ⟨φ, hk⟩ := kfree_valid h.valid
  rw [← hphys, ← hphys1] at hk
  obtain ⟨t₂, h2, hfile2, hphys2, hproc2⟩ : ∃ t₂, Returns (fileclose wf) t₁ () t₂ ∧
      t₂.file = update t₁.file wf ⟨0, .none⟩ ∧ t₂.phys = φ ∧ t₂.proc = t₁.proc := by
    refine ⟨{ t₁.setFile wf fun _ => ⟨0, .none⟩ with
      pipe := update t₁.pipe pi ⟨false, false⟩, phys := φ }, ?_, rfl, rfl, rfl⟩
    rw [fileclose_iff (by rw [hwf1]), hwf1]
    refine returns_bind.2 ⟨⟨⟩, _, returns_modify.2 rfl, returns_get_bind.2 ?_⟩
    simp only [setFile, hpipe1, PipeEnds.close, update_self]
    exact returns_onPhys.2 ⟨φ, hk, rfl⟩
  refine ⟨t₂, h1.bind_iff.2 (h2.bind_iff.2 (returns_pure.2 ⟨rfl, rfl⟩)), ?_, ?_, ?_⟩
  · rw [hproc2, hproc1, hproc]
  · rw [hfile2, hfile1, hfile, h.file]
    funext f
    by_cases h1 : f = wf <;> by_cases h2 : f = rf <;> simp_all [h.reader, h.writer]
  · rw [hphys2, (kfree_spec hk).2.free, hphys1, hphys, h.free]

end Vm

open Vm

/-- **A failing call of `pipe` is atomic**: the call returns, and if it returns -1 then descriptors,
files and free pages are as before. -/
theorem sys_pipe_atomic (s : Vm) (p : Slot) (copyFails : Bool) (hs : s.Tidy) :
    ∃ ok s', Returns (sysPipe p copyFails) s ok s' ∧ (ok = false → Unchanged s s') := by
  obtain ⟨s₁, hnone, hsame⟩ | ⟨rf, wf, pi, s₁, hsome, hnew⟩ := pipealloc_none_or hs
  · exact ⟨false, s₁, hnone.bind_iff.2 (returns_pure.2 ⟨rfl, rfl⟩), fun _ => hsame⟩
  simp only [sysPipe, hsome.bind_iff]
  obtain hnone | ⟨fd0, hfd0, hsome⟩ := fdalloc_none_or s₁ p rf
  · simp only [hnone.bind_iff]
    obtain ⟨s', hret, hsame⟩ := hnew.undo rfl rfl rfl hnew.proc
    exact ⟨false, s', hret, fun _ => hsame⟩
  simp only [hsome.bind_iff]
  obtain hnone | ⟨fd1, hfd1, hsome⟩ := fdalloc_none_or (s₁.setFd p fd0 (some rf)) p wf
  · simp only [hnone.bind_iff, (returns_clearFd p fd0).bind_iff]
    obtain ⟨s', hret, hsame⟩ := hnew.undo (t := (s₁.setFd p fd0 (some rf)).setFd p fd0 none)
      rfl rfl rfl ((proc_setFd_none hfd0).trans hnew.proc)
    exact ⟨false, s', hret, fun _ => hsame⟩
  simp only [hsome.bind_iff]
  cases copyFails with
  | false => exact ⟨true, _, returns_pure.2 ⟨rfl, rfl⟩, fun h => absurd h (by decide)⟩
  | true =>
    rw [if_pos rfl]
    obtain ⟨s', hret, hsame⟩ := hnew.undo
      (t := (((s₁.setFd p fd0 (some rf)).setFd p fd1 (some wf)).setFd p fd0 none).setFd p fd1 none)
      rfl rfl rfl ((proc_setFd_two hfd0 hfd1).trans hnew.proc)
    exact ⟨false, s', (returns_clearFd p fd0).bind_iff.2 ((returns_clearFd p fd1).bind_iff.2 hret),
      fun _ => hsame⟩

/-- A kernel with one free page and no open files. -/
def onePage : Vm where
  phys := ⟨[PGSIZE], fun _ _ => Pte.zero, fun _ => false, PGSIZE⟩
  proc _ := ⟨.unused, none, 0, none, none, fun _ => none⟩
  file _ := ⟨0, .none⟩
  pipe _ := ⟨false, false⟩
  initproc := 0
  trampoline := 0

/-- The page comes back when the descriptors cannot be copied to the user. -/
theorem sys_pipe_atomic_copyout : ∃ s', Returns (sysPipe 0 true) onePage false s' ∧
    Unchanged onePage s' := by
  obtain ⟨ok, s', hret, hsame⟩ := sys_pipe_atomic onePage 0 true
    ⟨fun _ _ => rfl, fun pa hpa => by obtain rfl := List.mem_singleton.1 hpa; decide⟩
  obtain ⟨s'', hfalse⟩ := exists_returns (m := sysPipe 0 true) (s := onePage) (a := false)
    (by decide +kernel)
  obtain ⟨rfl, rfl⟩ := hret.unique hfalse
  exact ⟨s', hret, hsame rfl⟩

end Xv6Container
