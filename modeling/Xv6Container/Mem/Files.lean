import Xv6Container.Data.Tally
import Xv6Container.Mem.Holders

/-!
# Open files and pipes

The page of a pipe is in use as long as a file of the file table is open on it.  `Files` says that
each file counts at least the descriptors that name it, that each end of a pipe is one file, and
that `readopen` and `writeopen` say which ends are open.

* `Sane.fileclose` : closing the last open end gives the page of the pipe back;
* `Sane.pipealloc` : a new pipe is a page that nobody held.
-/

namespace Xv6Container

open Function Books Phys Finset

namespace Vm

variable {s s' : Vm} {g : Draft} {p : Slot} {f : Fin NFILE} {fd : Fin NOFILE} {u : Unit}
  {e : Fin NFILE → ℤ}

/-- The number of descriptors that name file `f`. -/
def slots (s : Vm) (f : Fin NFILE) : ℕ :=
  #{x : Slot × Fin NOFILE | decide ((s.proc x.1).ofile x.2 = some f) = true}

/-- The file table; `e` counts the references that local variables of the running code hold. -/
structure Files (s : Vm) (e : Fin NFILE → ℤ) : Prop where
  refs : ∀ f, (s.slots f : ℤ) + e f ≤ (s.file f).ref
  closed : ∀ f, (s.file f).ref = 0 → (s.file f).type = .none
  single : ∀ ⦃f f' pi w⦄, (s.file f).type = .pipe pi w → (s.file f').type = .pipe pi w → f = f'
  ends : ∀ ⦃f pi w⦄, (s.file f).type = .pipe pi w →
    ∀ w', (s.pipe pi).isOpen w' = true ↔ ∃ f', (s.file f').type = .pipe pi w'

/-- The invariant inside a system call. -/
structure Sane (s : Vm) (e : Fin NFILE → ℤ) (g : Draft) : Prop where
  core : Core s g
  files : Files s e

variable {pi : ℕ} {e' : Fin NFILE → ℤ} {φ' : Phys}

theorem Files.pipeOpen_iff (hF : Files s e) :
    s.PipeOpen pi ↔ ∃ f w, (s.file f).type = .pipe pi w := by
  constructor
  · rintro ⟨f, w, -, h⟩
    exact ⟨f, w, h⟩
  · rintro ⟨f, w, h⟩
    refine ⟨f, w, fun h₀ => ?_, h⟩
    rw [hF.closed f h₀] at h
    cases h

/-! ### Descriptors -/

/-- A descriptor of `p` is set. -/
def setFd (s : Vm) (p : Slot) (fd : Fin NOFILE) (y : Option (Fin NFILE)) : Vm :=
  s.setProc p fun q => { q with ofile := update q.ofile fd y }

theorem setFd_ofile (y : Option (Fin NFILE)) (x : Slot × Fin NOFILE) :
    ((s.setFd p fd y).proc x.1).ofile x.2 = if x = (p, fd) then y else (s.proc x.1).ofile x.2 := by
  obtain ⟨q, fd'⟩ := x
  by_cases hq : q = p
  · subst hq
    by_cases hfd : fd' = fd <;> simp [setFd, hfd]
  · simp [setFd, hq]

theorem slots_setFd (y : Option (Fin NFILE)) :
    (s.setFd p fd y).slots f + (decide ((s.proc p).ofile fd = some f)).toNat =
      s.slots f + (decide (y = some f)).toNat := by
  have h := card_change (p := (p, fd)) (f := fun x => decide ((s.proc x.1).ofile x.2 = some f))
    (g := fun x => decide (((s.setFd p fd y).proc x.1).ofile x.2 = some f))
    (fun x hx => by rw [setFd_ofile, if_neg hx])
  have hself : ((s.setFd p fd y).proc p).ofile fd = y := by rw [setFd_ofile y (p, fd), if_pos rfl]
  dsimp only at h hself
  rw [hself] at h
  exact h

theorem Core.setFd (hC : Core s g) (y : Option (Fin NFILE)) :
    Core (s.setFd p fd y) g ∧ (s.setFd p fd y).ledger g = s.ledger g := by
  refine hC.congr rfl (fun _ => Iff.rfl) fun q => ?_
  by_cases hq : q = p <;> simp [Vm.setFd, hq]

theorem Files.setFd (hF : Files s e) {y : Option (Fin NFILE)}
    (he : ∀ f, e' f + (decide (y = some f)).toNat ≤
      e f + (decide ((s.proc p).ofile fd = some f)).toNat) :
    Files (s.setFd p fd y) e' := by
  refine ⟨fun f => ?_, hF.closed, hF.single, hF.ends⟩
  have h₁ := hF.refs f
  have h2 : (s.setFd p fd y).slots f + _ = s.slots f + _ := slots_setFd y
  have h3 := he f
  have h4 : (s.setFd p fd y).file = s.file := rfl
  rw [h4]
  omega

/-! ### Closing files -/

/-- What a `fileclose` that returns has done. -/
theorem fileclose_cases (h : Returns (fileclose f) s u s') :
    (1 < (s.file f).ref ∧ s' = s.setFile f fun g => { g with ref := g.ref - 1 }) ∨
    ((s.file f).ref = 1 ∧ (∀ pi w, (s.file f).type ≠ .pipe pi w) ∧
      s' = s.setFile f fun _ => ⟨0, .none⟩) ∨
    ∃ pi w, (s.file f).ref = 1 ∧ (s.file f).type = .pipe pi w ∧ ∃ φ',
      s' = { s.setFile f fun _ => ⟨0, .none⟩ with
        pipe := update s.pipe pi ((s.pipe pi).close w), phys := φ' } ∧
      ((s.pipe pi).isOpen (!w) = true ∧ φ' = s.phys ∨
        (s.pipe pi).isOpen (!w) = false ∧ Freed s.phys φ' pi) := by
  simp only [fileclose, returns_get_bind] at h
  split at h
  · simp [returns_bind] at h
  rename_i href
  simp only [returns_bind, returns_modify] at h
  obtain ⟨_, _, rfl, h⟩ := h
  split at h
  · rename_i hlt
    obtain ⟨-, rfl⟩ := returns_pure.1 h
    exact .inl ⟨by omega, rfl⟩
  rename_i hlt
  have h1 : (s.file f).ref = 1 := by omega
  simp only [returns_bind, returns_modify] at h
  obtain ⟨_, _, rfl, h⟩ := h
  have hset : ((s.setFile f fun g => { g with ref := g.ref - 1 }).setFile f fun _ => ⟨0, .none⟩) =
      s.setFile f fun _ => ⟨0, .none⟩ := by simp [setFile]
  rw [hset] at h
  cases htype : (s.file f).type with
  | none =>
    simp only [htype] at h
    obtain ⟨-, rfl⟩ := returns_pure.1 h
    exact .inr (.inl ⟨h1, fun _ _ => by simp, rfl⟩)
  | inode =>
    simp only [htype] at h
    obtain ⟨-, rfl⟩ := returns_pure.1 h
    exact .inr (.inl ⟨h1, fun _ _ => by simp, rfl⟩)
  | pipe pi w =>
    simp only [htype, pipeclose, returns_bind, returns_modify, returns_get] at h
    obtain ⟨_, _, rfl, _, _, ⟨rfl, rfl⟩, h⟩ := h
    refine .inr (.inr ⟨pi, w, h1, rfl, ?_⟩)
    have hends : (!((s.pipe pi).close w).readopen && !((s.pipe pi).close w).writeopen) =
        !(s.pipe pi).isOpen (!w) := by
      cases w <;> simp [PipeEnds.close, PipeEnds.isOpen]
    split at h
    · rename_i hclosed
      obtain ⟨φ', hk, rfl⟩ := returns_onPhys.1 h
      refine ⟨φ', rfl, .inr ⟨?_, (kfree_spec hk).2⟩⟩
      simpa [hends] using hclosed
    · rename_i hopen
      obtain ⟨-, rfl⟩ := returns_pure.1 h
      refine ⟨s.phys, rfl, .inl ⟨?_, rfl⟩⟩
      simpa [hends] using hopen

/-- A page goes to the pipe `pi`, or comes from it. -/
theorem Core.setPipe {t : Vm} {y : Option ℕ} (hC : Core s .none) (hproc : t.proc = s.proc)
    (hself : (t.owners .none).other (.pipe pi) = y)
    (hother : ∀ pi', pi' ≠ pi → (t.PipeOpen pi' ↔ s.PipeOpen pi'))
    (hI : Owners.Inv { s.owners .none with
      hand := none, other := update (s.owners .none).other (.pipe pi) y } t.phys)
    (hcons : Conserves {.hand, .other (.pipe pi)} (s.ledger .none) (Owners.books
      { s.owners .none with
        hand := none, other := update (s.owners .none).other (.pipe pi) y } t.phys)) :
    Core t .none := by
  have ho : t.owners .none = { s.owners .none with
      hand := none
      other := update (s.owners .none).other (.pipe pi) y } := by
    ext1
    · funext a
      cases a <;> simp [owners, hproc]
    · funext a
      cases a <;> simp [owners, hproc]
    · funext b
      dsimp only
      cases b with
      | tf q =>
        rw [update_of_ne (by simp)]
        simp [hproc]
      | pipe pi' =>
        by_cases hpi : pi' = pi
        · rw [hpi, update_self, hself]
        · rw [update_of_ne (by simpa using hpi)]
          by_cases h : s.PipeOpen pi'
          · rw [owners_other_pipe_of_open h, owners_other_pipe_of_open ((hother pi' hpi).2 h)]
          · rw [owners_other_pipe_of_not h, owners_other_pipe_of_not (mt (hother pi' hpi).1 h)]
    · rfl
    · exact hI.kernelEnd
  rw [← ho] at hI hcons
  refine hC.of hI hcons.held fun q hq => .inl ⟨?_, ?_, fun v => by simp⟩
  · rwa [hproc] at hq
  · rw [hproc]

theorem Core.freePipe (hC : Core s .none) (hfreed : Freed s.phys s'.phys pi)
    (hopen : s.PipeOpen pi) (hproc : s'.proc = s.proc) (hclosed : ¬ s'.PipeOpen pi)
    (hother : ∀ pi', pi' ≠ pi → (s'.PipeOpen pi' ↔ s.PipeOpen pi')) : Core s' .none := by
  obtain ⟨hI1, hmove1⟩ := hC.inv.fromOther (b := Holder.pipe pi) rfl
    (owners_other_pipe_of_open hopen)
  obtain ⟨hI2, hmove2⟩ := hI1.give hfreed rfl
  exact hC.setPipe hproc (owners_other_pipe_of_not hclosed) hother hI2
    (hmove1.steps.conserves.trans (hmove2.mono (by simp)).steps.conserves)

theorem Sane.setRef {h : VmFile → VmFile} {x : ℤ} (hS : Sane s e g)
    (htype : (h (s.file f)).type = (s.file f).type)
    (href : (s.slots f : ℤ) + x ≤ (h (s.file f)).ref)
    (hzero : (h (s.file f)).ref = 0 → (s.file f).type = .none) :
    Sane (s.setFile f h) (update e f x) g ∧ (s.setFile f h).ledger g = s.ledger g := by
  have hF := hS.files
  have htypes : ∀ f', ((s.setFile f h).file f').type = (s.file f').type := by
    intro f'
    by_cases hf : f' = f
    · subst hf
      simp [htype]
    · simp [hf]
  have hF' : Files (s.setFile f h) (update e f x) := by
    refine ⟨fun f' => ?_, fun f' h₀ => ?_, fun f₁ f₂ pi w h₁ h2 => ?_, fun f₁ pi w h₁ w' => ?_⟩
    · by_cases hf : f' = f
      · subst hf
        simp only [update_self, setFile]
        exact href
      · simp only [setFile, update_of_ne hf]
        exact hF.refs f'
    · rw [htypes]
      by_cases hf : f' = f
      · subst hf
        exact hzero (by simpa using h₀)
      · exact hF.closed f' (by simpa [hf] using h₀)
    · rw [htypes] at h₁ h2
      exact hF.single h₁ h2
    · rw [htypes] at h₁
      simp only [htypes]
      exact hF.ends h₁ w'
  obtain ⟨hC', hledger⟩ := hS.core.congr (t := s.setFile f h) rfl
    (fun pi => by rw [hF.pipeOpen_iff, hF'.pipeOpen_iff]; simp only [htypes])
    fun _ => ⟨rfl, rfl, rfl⟩
  exact ⟨⟨hC', hF'⟩, hledger⟩

theorem Files.close (hF : Files s e) (t : Vm) (href : (s.file f).ref = 1) (hproc : t.proc = s.proc)
    (hfile : t.file = update s.file f ⟨0, .none⟩)
    (hpipe : ∀ pi w, (t.pipe pi).isOpen w = true ↔
      (s.pipe pi).isOpen w = true ∧ (s.file f).type ≠ .pipe pi w) :
    Files t (update e f (e f - 1)) ∧ ∀ f' pi w, (t.file f').type = .pipe pi w ↔
      (s.file f').type = .pipe pi w ∧ f' ≠ f := by
  have htypes : ∀ f' pi w, (t.file f').type = .pipe pi w ↔
      (s.file f').type = .pipe pi w ∧ f' ≠ f := by
    intro f' pi w
    by_cases hf : f' = f <;> simp [hfile, hf]
  refine ⟨⟨fun f' => ?_, fun f' h₀ => ?_, fun f₁ f₂ pi w h₁ h2 => ?_, fun f₁ pi w h₁ w' => ?_⟩,
    htypes⟩
  · have := hF.refs f'
    have hslots : t.slots f' = s.slots f' := by simp only [slots, hproc]
    rw [hslots, hfile]
    by_cases hf : f' = f
    · subst hf
      simp only [update_self]
      omega
    · simp only [update_of_ne hf]
      exact this
  · by_cases hf : f' = f
    · simp [hfile, hf]
    · rw [hfile, update_of_ne hf] at h₀ ⊢
      exact hF.closed f' h₀
  · exact hF.single ((htypes _ _ _).1 h₁).1 ((htypes _ _ _).1 h2).1
  · rw [hpipe, hF.ends ((htypes _ _ _).1 h₁).1 w']
    constructor
    · rintro ⟨⟨f', hf'⟩, hne⟩
      exact ⟨f', (htypes _ _ _).2 ⟨hf', fun e => hne (e ▸ hf')⟩⟩
    · rintro ⟨f', hf'⟩
      obtain ⟨hf', hne⟩ := (htypes _ _ _).1 hf'
      exact ⟨⟨f', hf'⟩, fun hf => hne (hF.single hf' hf)⟩

theorem isOpen_close (n : PipeEnds) (w w' : Bool) :
    (n.close w).isOpen w' = true ↔ n.isOpen w' = true ∧ w ≠ w' := by
  cases w <;> cases w' <;> simp [PipeEnds.close, PipeEnds.isOpen]

/-- Closing a file uses up one reference. -/
theorem Sane.fileclose (hS : Sane s e .none) (h : Returns (fileclose f) s u s') :
    Sane s' (update e f (e f - 1)) .none ∧ s'.proc = s.proc ∧ s'.initproc = s.initproc ∧
      (1 < (s.file f).ref → s'.ledger .none = s.ledger .none) := by
  have ⟨hC, hF⟩ := hS
  rcases fileclose_cases h with ⟨href, rfl⟩ | ⟨href, hno, rfl⟩ | ⟨pi, w, href, htype, φ', rfl, hφ⟩
  · have := hF.refs f
    obtain ⟨hS', hledger⟩ := hS.setRef (f := f) (h := fun g => { g with ref := g.ref - 1 })
      (x := e f - 1) rfl (by dsimp only; omega) (fun h₀ => by dsimp only at h₀; omega)
    exact ⟨hS', rfl, rfl, fun _ => hledger⟩
  · obtain ⟨hF', htypes⟩ := hF.close (s.setFile f fun _ => ⟨0, .none⟩) href rfl rfl
      (fun pi w => by simp [hno pi w])
    refine ⟨⟨(hC.congr (t := s.setFile f fun _ => ⟨0, .none⟩) rfl (fun pi => ?_)
      fun _ => ⟨rfl, rfl, rfl⟩).1, hF'⟩, rfl, rfl, fun h => by omega⟩
    rw [hF.pipeOpen_iff, hF'.pipeOpen_iff]
    simp only [htypes]
    refine exists₂_congr fun f' w => and_iff_left_of_imp fun hf' hf => ?_
    exact hno pi w (hf ▸ hf')
  · set s' : Vm := { s.setFile f fun _ => ⟨0, .none⟩ with
      pipe := update s.pipe pi ((s.pipe pi).close w), phys := φ' } with hs'
    obtain ⟨hF', htypes⟩ := hF.close s' href rfl rfl (fun pi' w' => by
      by_cases hpi : pi' = pi
      · subst hpi
        simp [hs', isOpen_close, htype]
      · simp [hs', hpi, htype, Ne.symm hpi])
    have hother : ∀ pi', pi' ≠ pi → (s'.PipeOpen pi' ↔ s.PipeOpen pi') := by
      intro pi' hpi
      rw [hF.pipeOpen_iff, hF'.pipeOpen_iff]
      simp only [htypes]
      refine exists₂_congr fun f' w' => and_iff_left_of_imp fun hf' hf => ?_
      rw [hf, htype] at hf'
      exact hpi (FileType.pipe.inj hf').1.symm
    have hpiOpen : s'.PipeOpen pi ↔ (s.pipe pi).isOpen (!w) = true := by
      rw [hF'.pipeOpen_iff, hF.ends htype]
      simp only [htypes]
      constructor
      · rintro ⟨f', w', hf', hne⟩
        have hw : w' = !w := by
          cases w <;> cases w' <;> first
            | rfl
            | exact absurd (hF.single hf' htype) hne
        exact ⟨f', hw ▸ hf'⟩
      · rintro ⟨f', hf'⟩
        refine ⟨f', !w, hf', fun e => ?_⟩
        rw [e, htype] at hf'
        have := (FileType.pipe.inj hf').2
        cases w <;> cases this
    have hwas : s.PipeOpen pi := hF.pipeOpen_iff.2 ⟨f, w, htype⟩
    rcases hφ with ⟨hopen, rfl⟩ | ⟨hclosed, hfreed⟩
    · refine ⟨⟨(hC.congr (t := s') rfl (fun pi' => ?_) fun _ => ⟨rfl, rfl, rfl⟩).1, hF'⟩, rfl, rfl,
        fun h => by omega⟩
      by_cases hpi : pi' = pi
      · subst hpi
        exact iff_of_true (hpiOpen.2 hopen) hwas
      · exact hother pi' hpi
    · refine ⟨⟨hC.freePipe hfreed hwas rfl (fun h => ?_) hother, hF'⟩, rfl, rfl,
        fun h => by omega⟩
      rw [hpiOpen.1 h] at hclosed
      cases hclosed

theorem Files.mono (hF : Files s e) (he : ∀ f, e' f ≤ e f) : Files s e' :=
  ⟨fun f => by have := hF.refs f; have := he f; omega, hF.closed, hF.single, hF.ends⟩

theorem Sane.mono (hS : Sane s e g) (he : ∀ f, e' f ≤ e f) : Sane s e' g :=
  ⟨hS.core, hS.files.mono he⟩

theorem Sane.setFd (hS : Sane s e g) {y : Option (Fin NFILE)}
    (he : ∀ f, e' f + (decide (y = some f)).toNat ≤
      e f + (decide ((s.proc p).ofile fd = some f)).toNat) :
    Sane (s.setFd p fd y) e' g := ⟨(hS.core.setFd y).1, hS.files.setFd he⟩

theorem Sane.clearFd (hS : Sane s e g) (hf : (s.proc p).ofile fd = some f) :
    Sane (s.setFd p fd none) (update e f (e f + 1)) g := by
  refine hS.setFd fun f' => ?_
  rw [hf]
  by_cases hf' : f' = f
  · subst hf'
    simp
  · simp [hf', Ne.symm hf']

/-! ### Opening files -/

theorem Sane.filealloc {r : Option (Fin NFILE)} (hS : Sane s e g) (h : Returns filealloc s r s') :
    (r = none ∧ s = s') ∨ ∃ f, r = some f ∧ (s.file f).ref = 0 ∧
      s' = s.setFile f (fun _ => ⟨1, .none⟩) ∧ Sane s' (update e f (e f + 1)) g := by
  simp only [Vm.filealloc, returns_get_bind] at h
  split at h
  · obtain ⟨rfl, rfl⟩ := returns_pure.1 h
    exact .inl ⟨rfl, rfl⟩
  rename_i f hfind
  have href : (s.file f).ref = 0 := by simpa using List.find?_some hfind
  simp only [returns_bind, returns_modify] at h
  obtain ⟨_, _, rfl, h⟩ := h
  obtain ⟨rfl, rfl⟩ := returns_pure.1 h
  have hF := hS.files
  have hset : (s.setFile f fun g => { g with ref := 1 }) = s.setFile f fun _ => ⟨1, .none⟩ := by
    simp only [setFile]
    rw [hF.closed f href]
  rw [hset]
  have := hF.refs f
  exact .inr ⟨f, rfl, href, rfl, (hS.setRef (hF.closed f href).symm (by dsimp only; omega)
    (fun h₀ => by cases h₀)).1⟩

theorem Sane.fdalloc {r : Option (Fin NOFILE)} (hS : Sane s e g)
    (h : Returns (fdalloc p f) s r s') :
    (r = none ∧ s = s') ∨ ∃ fd, r = some fd ∧ (s.proc p).ofile fd = none ∧
      s' = s.setFd p fd (some f) ∧ Sane s' (update e f (e f - 1)) g := by
  simp only [Vm.fdalloc, returns_get_bind] at h
  split at h
  · obtain ⟨rfl, rfl⟩ := returns_pure.1 h
    exact .inl ⟨rfl, rfl⟩
  rename_i fd hfind
  have hnone : (s.proc p).ofile fd = none := by simpa using List.find?_some hfind
  simp only [returns_bind, returns_modify] at h
  obtain ⟨_, _, rfl, h⟩ := h
  obtain ⟨rfl, rfl⟩ := returns_pure.1 h
  refine .inr ⟨fd, rfl, hnone, rfl, hS.setFd fun f' => ?_⟩
  by_cases hf : f' = f
  · subst hf
    simp [hnone]
  · simp [hnone, hf, Ne.symm hf]

/-- A free page becomes a pipe with two open ends. -/
theorem Sane.newPipe {f0 f1 : Fin NFILE} (hS : Sane s e .none)
    (h0 : s.file f0 = ⟨1, .none⟩) (h1 : s.file f1 = ⟨1, .none⟩) (hne : f0 ≠ f1)
    (htaken : Taken s.phys φ' pi) :
    Sane { s with
      phys := φ'
      pipe := update s.pipe pi ⟨true, true⟩
      file := update (update s.file f0 ⟨1, .pipe pi false⟩) f1 ⟨1, .pipe pi true⟩ } e .none := by
  obtain ⟨hC, hF⟩ := hS
  set t : Vm := { s with
    phys := φ'
    pipe := update s.pipe pi ⟨true, true⟩
    file := update (update s.file f0 ⟨1, .pipe pi false⟩) f1 ⟨1, .pipe pi true⟩ } with ht
  have hnew : ¬ s.PipeOpen pi := fun hopen =>
    hC.inv.not_held_of_taken htaken (.other (.pipe pi)) (owners_other_pipe_of_open hopen)
  have hno : ∀ f w, (s.file f).type ≠ .pipe pi w := fun f w h =>
    hnew (hF.pipeOpen_iff.2 ⟨f, w, h⟩)
  have hf0 : t.file f0 = ⟨1, .pipe pi false⟩ := by simp [ht, hne]
  have hf1 : t.file f1 = ⟨1, .pipe pi true⟩ := by simp [ht]
  have hcases : ∀ f, f = f0 ∨ f = f1 ∨ (f ≠ f0 ∧ f ≠ f1) ∧ t.file f = s.file f := by
    intro f
    by_cases e0 : f = f0
    · exact .inl e0
    · by_cases e1 : f = f1
      · exact .inr (.inl e1)
      · exact .inr (.inr ⟨⟨e0, e1⟩, by simp [ht, e0, e1]⟩)
  -- the files of the new pipe, and those of the others
  have htypes : ∀ f pi' w, (t.file f).type = .pipe pi' w ↔
      (s.file f).type = .pipe pi' w ∨ pi' = pi ∧ f = if w then f1 else f0 := by
    intro f pi' w
    obtain rfl | rfl | ⟨⟨e0, e1⟩, hf⟩ := hcases f
    · rw [hf0, h0]
      cases w <;> simp [eq_comm, Ne.symm hne]
    · rw [hf1, h1]
      cases w <;> simp [eq_comm, hne]
    · rw [hf]
      cases w <;> simp [e0, e1]
  have hF' : Files t e := by
    refine ⟨fun f => ?_, fun f h₀ => ?_, fun f f' pi' w h h' => ?_, fun f pi' w h w' => ?_⟩
    · have hslots : t.slots f = s.slots f := rfl
      have href : (t.file f).ref = (s.file f).ref := by
        obtain rfl | rfl | ⟨-, hf⟩ := hcases f
        · rw [hf0, h0]
        · rw [hf1, h1]
        · rw [hf]
      rw [hslots, href]
      exact hF.refs f
    · obtain rfl | rfl | ⟨-, hf⟩ := hcases f
      · rw [hf0] at h₀
        cases h₀
      · rw [hf1] at h₀
        cases h₀
      · rw [hf] at h₀ ⊢
        exact hF.closed f h₀
    · rcases (htypes _ _ _).1 h with h | ⟨hpi, hw⟩ <;>
        rcases (htypes _ _ _).1 h' with h' | ⟨hpi', hw'⟩
      · exact hF.single h h'
      · exact absurd (hpi' ▸ h) (hno f w)
      · exact absurd (hpi ▸ h') (hno f' w)
      · rw [hw, hw']
    · by_cases hpi : pi' = pi
      · subst hpi
        have hopen : (t.pipe pi').isOpen w' = true := by
          simp [ht, PipeEnds.isOpen]
        exact iff_of_true hopen ⟨_, (htypes _ _ _).2 (.inr ⟨rfl, rfl⟩)⟩
      · have hpipe : t.pipe pi' = s.pipe pi' := by simp [ht, hpi]
        rw [hpipe]
        simp only [htypes, hpi, false_and, or_false]
        exact hF.ends (((htypes _ _ _).1 h).resolve_right fun h => hpi h.1) w'
  refine ⟨?_, hF'⟩
  obtain ⟨hI1, hmove1⟩ := hC.inv.take htaken rfl
  obtain ⟨hI2, hmove2⟩ := hI1.toOther (b := Holder.pipe pi) rfl
    (owners_other_pipe_of_not (g := .none) hnew)
  refine hC.setPipe rfl (owners_other_pipe_of_open (hF'.pipeOpen_iff.2 ⟨f0, false, by rw [hf0]⟩))
    (fun pi' hpi => ?_) hI2 ((hmove1.mono (by simp)).steps.conserves.trans hmove2.steps.conserves)
  rw [hF.pipeOpen_iff, hF'.pipeOpen_iff]
  simp only [htypes, hpi, false_and, or_false]

/-- `pipealloc`: nothing, or a new pipe with two references for the caller. -/
theorem Sane.pipealloc {r : Option (Fin NFILE × Fin NFILE)} (hS : Sane s e .none)
    (h : Returns pipealloc s r s') :
    s'.proc = s.proc ∧ s'.initproc = s.initproc ∧
      ((r = none ∧ Sane s' e .none) ∨ ∃ rf wf, r = some (rf, wf) ∧
        Sane s' (update (update e rf (e rf + 1)) wf (e wf + 1)) .none ∧ rf ≠ wf) := by
  obtain ⟨r0, s₁, h₁, h⟩ := returns_bind.1 h
  rcases hS.filealloc h₁ with ⟨rfl, rfl⟩ | ⟨f0, rfl, href0, rfl, hS1⟩
  · obtain ⟨rfl, rfl⟩ := returns_pure.1 h
    exact ⟨rfl, rfl, .inl ⟨rfl, hS⟩⟩
  obtain ⟨r1, s₂, h2, h⟩ := returns_bind.1 h
  rcases hS1.filealloc h2 with ⟨rfl, rfl⟩ | ⟨f1, rfl, href1, rfl, hS2⟩
  · -- no file for the other end
    obtain ⟨_, s₃, h3, h⟩ := returns_bind.1 h
    obtain ⟨rfl, rfl⟩ := returns_pure.1 h
    obtain ⟨hS3, hproc, hinit, -⟩ := hS1.fileclose h3
    exact ⟨hproc, hinit, .inl ⟨rfl, by simpa using hS3⟩⟩
  have hne : f0 ≠ f1 := by
    rintro rfl
    simp at href1
  obtain ⟨m, s₃, h3, h⟩ := returns_bind.1 h
  obtain ⟨φ₃, hk, rfl⟩ := returns_onPhys.1 h3
  rw [update_of_ne hne.symm] at hS2
  rcases kalloc_cases hk with ⟨rfl, hfree, hmem, hend⟩ | ⟨pi, rfl, htaken⟩
  · -- no page
    obtain ⟨_, s₄, h4, h⟩ := returns_bind.1 h
    obtain ⟨_, s₅, h5, h⟩ := returns_bind.1 h
    obtain ⟨rfl, rfl⟩ := returns_pure.1 h
    have hF2 := hS2.files
    have hS3 : Sane { (s.setFile f0 fun _ => ⟨1, .none⟩).setFile f1 fun _ => ⟨1, .none⟩ with
        phys := φ₃ } _ .none :=
      ⟨hS2.core.refused hfree hmem hend, hF2.refs, hF2.closed, hF2.single, hF2.ends⟩
    obtain ⟨hS4, hproc4, hinit4, -⟩ := hS3.fileclose h4
    obtain ⟨hS5, hproc5, hinit5, -⟩ := hS4.fileclose h5
    refine ⟨hproc5.trans hproc4, hinit5.trans hinit4, .inl ⟨rfl, hS5.mono fun f => ?_⟩⟩
    simp only [update_apply]
    split_ifs <;> simp_all
  · simp only [returns_bind, returns_modify] at h
    obtain ⟨_, _, rfl, _, _, rfl, _, _, rfl, h⟩ := h
    obtain ⟨rfl, rfl⟩ := returns_pure.1 h
    set s₂ := (s.setFile f0 fun _ => ⟨1, .none⟩).setFile f1 fun _ => ⟨1, .none⟩ with hs2
    have hf0 : s₂.file f0 = ⟨1, .none⟩ := by simp [hs2, hne]
    have hf1 : s₂.file f1 = ⟨1, .none⟩ := by simp [hs2]
    refine ⟨rfl, rfl, .inr ⟨f0, f1, rfl, ?_, hne⟩⟩
    convert hS2.newPipe hf0 hf1 hne htaken using 1
    simp [setFile, hf0, hf1, hne.symm]

end Vm

end Xv6Container
