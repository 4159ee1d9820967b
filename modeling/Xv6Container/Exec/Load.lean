import Xv6Container.Exec.Basic
import Xv6Container.Fs.Refine
import Xv6Container.Mem.Grow

/-!
# Loading a program

The loop of `exec` over the program headers, for every content of the file.  All fields of
the headers come from the file: sizes and addresses of 64 bits, which the code mixes with offsets of
32 bits.

* `FsState.FileAt` : the content of an inode, as `readi` returns it;
* `headerStep`, `plan` : what the headers ask for, one by one and all together;
* `programImage` : the bytes that they put in memory;
* `loadseg_total` : `loadseg` copies the bytes of a segment, or finds that the file is too short;
* `loadHeaders_total` : **the loop does what the headers ask for exactly when there is memory for
  it**, and it does not panic.
-/

namespace Xv6Container

open Function Books Phys

/-! ### What the headers ask for -/

/-- The program header at offset `off` of a file, if all of it is there. -/
def headerAt (F : List UInt8) (off : ℕ) : Option Proghdr :=
  if off + PROGHDR ≤ F.length then some (getProghdr (pread F off PROGHDR)) else none

/-- The program headers of a file, `n` of them from `off` on; offsets are of 32 bits. -/
def headers (F : List UInt8) : (n off : ℕ) → List (Option Proghdr)
  | 0, _ => []
  | n + 1, off => headerAt F off :: headers F n ((off + PROGHDR) % 2 ^ 32)

/-- The file has the bytes of the segment. -/
def Proghdr.InFile (ph : Proghdr) (F : List UInt8) : Prop :=
  ph.filesz = 0 ∨ ph.off % 2 ^ 32 + ph.filesz ≤ F.length

instance (ph : Proghdr) (F : List UInt8) : Decidable (ph.InFile F) :=
  inferInstanceAs (Decidable (_ ∨ _))

/-- What a header makes of `sz` when there is memory for it, and whether `exec` goes on. -/
def headerStep (F : List UInt8) (ph : Option Proghdr) (sz : ℕ) : ℕ × Bool :=
  match ph with
  | none => (sz, false)
  | some ph =>
    if ph.type ≠ ELF_PROG_LOAD then (sz, true)
    else if ph.memsz < ph.filesz ∨ 2 ^ 64 ≤ ph.vaddr + ph.memsz then (sz, false)
    else (max sz (ph.vaddr + ph.memsz), decide (max sz (ph.vaddr + ph.memsz) ≠ 0 ∧
      ph.vaddr % PGSIZE = 0 ∧ ph.InFile F))

/-- What the headers make of `sz` when there is memory for them, and whether `exec` goes on. -/
def plan (F : List UInt8) : List (Option Proghdr) → ℕ → ℕ × Bool
  | [], sz => (sz, true)
  | ph :: phs, sz =>
    if (headerStep F ph sz).2 then plan F phs (headerStep F ph sz).1
    else ((headerStep F ph sz).1, false)

/-- Memory after a header: the bytes of the file at `ph.off`, with offsets of 32 bits, are copied to
`ph.vaddr`. -/
def loadBytes (F : List UInt8) (f : ℕ → UInt8) : Option Proghdr → ℕ → UInt8
  | none => f
  | some ph =>
    if ph.type = ELF_PROG_LOAD then
      blit f ph.vaddr ph.filesz fun j => F.getD ((ph.off + j) % 2 ^ 32) 0
    else f

/-- Memory after the headers, in the order of the file. -/
def programImage (F : List UInt8) (phs : List (Option Proghdr)) : ℕ → UInt8 :=
  phs.foldl (loadBytes F) fun _ => 0

section Plan

variable {F : List UInt8} {ph : Option Proghdr} {sz : ℕ}

theorem le_headerStep : sz ≤ (headerStep F ph sz).1 := by
  unfold headerStep
  split
  · exact le_rfl
  · split_ifs
    · exact le_rfl
    · exact le_rfl
    · exact le_max_left _ _

theorem le_plan (F : List UInt8) (phs : List (Option Proghdr)) (sz : ℕ) :
    sz ≤ (plan F phs sz).1 := by
  induction phs generalizing sz with
  | nil => exact le_rfl
  | cons ph phs ih =>
    rw [plan]
    split
    · exact le_headerStep.trans (ih _)
    · exact le_headerStep

theorem pages_mono {n m : ℕ} (h : n ≤ m) : pages n ≤ pages m := by
  unfold pages
  exact Nat.div_le_div_right (by omega)

end Plan

/-! ### Copying segments -/

variable {α : Type} {s' : ExecState}

theorem blit_zero (f src : ℕ → α) (o : ℕ) : blit f o 0 src = f := by
  funext i
  exact blit_out (by omega)

theorem blit_append (f src : ℕ → α) (o n m : ℕ) :
    blit (blit f o n src) (o + n) m (fun j => src (n + j)) = blit f o (n + m) src := by
  funext i
  by_cases h1 : o + n ≤ i ∧ i < o + n + m
  · rw [blit_in h1.1 h1.2, blit_in (by omega) (by omega)]
    congr 1
    omega
  · rw [blit_out (by omega)]
    by_cases h2 : o ≤ i ∧ i < o + n
    · rw [blit_in h2.1 h2.2, blit_in (by omega) (by omega)]
    · rw [blit_out (by omega), blit_out (by omega)]

theorem blit_congr {f src src' : ℕ → α} {o n : ℕ} (h : ∀ j < n, src j = src' j) :
    blit f o n src = blit f o n src' := by
  funext i
  by_cases hi : o ≤ i ∧ i < o + n
  · rw [blit_in hi.1 hi.2, blit_in hi.1 hi.2, h _ (by omega)]
  · rw [blit_out (by omega), blit_out (by omega)]

theorem returns_onFs {m : FsM α} {s : ExecState} {x : α} :
    Returns (onFs m) s x s' ↔ ∃ t, Returns m s.fs x t ∧ s' = { s with fs := t } := returns_zoom

theorem returns_onRam {m : RamM α} {s : ExecState} {x : α} :
    Returns (onRam m) s x s' ↔ ∃ t, Returns m s.ram x t ∧ s' = { s with ram := t } := returns_zoom

theorem returns_onTables {m : PhysM α} {s : ExecState} {x : α} :
    Returns (onRam (Ram.onPhys m)) s x s' ↔
      ∃ φ, Returns m s.ram.phys x φ ∧ s' = { s with ram := ⟨φ, s.ram.data⟩ } := by
  rw [returns_onRam]
  constructor
  · rintro ⟨t, ht, rfl⟩
    obtain ⟨φ, hφ, rfl⟩ := Ram.returns_onPhys.1 ht
    exact ⟨φ, hφ, rfl⟩
  · rintro ⟨φ, hφ, rfl⟩
    exact ⟨_, Ram.returns_onPhys.2 ⟨φ, hφ, rfl⟩, rfl⟩

variable {A B : Type} {o : Owners A B} {a : A} {r k ip off va sz i fuel : ℕ} {s : ExecState}
  {f : ℕ → UInt8} {F : List UInt8}

theorem loadseg_turn {x : ℤ} {bytes : List UInt8} (fuel : ℕ) (hB : Built o a r s.ram k f)
    (hend : 0 < o.kernelEnd) (hva : va % PGSIZE = 0) (hi : i % PGSIZE = 0) (hlt : i < sz)
    (hsz : va + sz ≤ k * PGSIZE)
    (hread : Returns (readi ip (fun _ => true) ((off + i) % 2 ^ 32) (min (sz - i) PGSIZE)) s.fs
      (x, bytes) s.fs) (hlen : bytes.length ≤ min (sz - i) PGSIZE) :
    ∃ m', m'.phys = s.ram.phys ∧
      Built o a r m' k (blit f (va + i) bytes.length fun j => bytes.getD j 0) ∧
      ∀ b s', Returns (loadsegLoop r va ip off sz (fuel + 1) i) s b s' ↔
        Returns (if x ≠ (min (sz - i) PGSIZE : ℕ) then return false
          else loadsegLoop r va ip off sz fuel ((i + PGSIZE) % 2 ^ 32))
          { s with ram := m' } b s' := by
  have hk := hB.le
  have hv : (va + i) / PGSIZE < k := by
    simp only [PGSIZE] at hva hi hsz ⊢
    omega
  have hpage : (va + i) / PGSIZE * PGSIZE = va + i := by
    simp only [PGSIZE] at hva hi ⊢
    omega
  obtain ⟨pa, hpte, hwalk⟩ := hB.walkaddr hv
  have hwalk' := hwalk 0 (by decide)
  rw [hpage, Nat.add_zero] at hwalk'
  have hpa : pa ≠ 0 := by
    have := (hB.inv.held_ok (hB.held hv hpte)).2.1
    omega
  have hB' := hB.store 0 bytes hv hpte (by omega)
  rw [hpage, Nat.add_zero] at hB'
  refine ⟨s.ram.store pa 0 bytes, rfl, hB', fun b s' => ?_⟩
  have hmod : (va + i) % 2 ^ 64 = va + i := Nat.mod_eq_of_lt (by
    simp only [PHYSTOP, PGSIZE] at hk hsz
    omega)
  have hpa' : Returns (onRam (Ram.onPhys (Phys.walkaddr r ((va + i) % 2 ^ 64)))) s pa s := by
    rw [hmod]
    exact returns_onTables.2 ⟨s.ram.phys, hwalk', rfl⟩
  have hread' : Returns (onFs (readi ip (fun _ => true) ((off + i) % 2 ^ 32) (min (sz - i) PGSIZE)))
      s (x, bytes) s := returns_onFs.2 ⟨s.fs, hread, rfl⟩
  have hstore : Returns (onRam (modify (·.store pa 0 bytes))) s ⟨⟩
      { s with ram := s.ram.store pa 0 bytes } := returns_onRam.2 ⟨_, returns_modify.2 rfl, rfl⟩
  rw [loadsegLoop, if_neg (by omega), hpa'.bind_iff, if_neg hpa, hread'.bind_iff, hstore.bind_iff]

/-- The loop of `loadseg`. -/
theorem loadsegLoop_total (fuel i : ℕ) (hB : Built o a r s.ram k f) (hend : 0 < o.kernelEnd)
    (hF : s.fs.FileAt ip F) (hva : va % PGSIZE = 0) (hi : i % PGSIZE = 0)
    (hsz : va + sz ≤ k * PGSIZE) (hoff : off < 2 ^ 32) (hfuel : sz ≤ i + fuel * PGSIZE)
    (hdone : i = 0 ∨ off + min i sz ≤ F.length) :
    ∃ m', m'.phys = s.ram.phys ∧
      (sz = 0 ∨ off + sz ≤ F.length →
        Returns (loadsegLoop r va ip off sz (fuel + 1) i) s true { s with ram := m' } ∧
        Built o a r m' k (blit f (va + i) (sz - i) fun j => F.getD (off + i + j) 0)) ∧
      (¬ (sz = 0 ∨ off + sz ≤ F.length) →
        Returns (loadsegLoop r va ip off sz (fuel + 1) i) s false { s with ram := m' } ∧
        ∃ f', Built o a r m' k f') := by
  have hk := hB.le
  have hsize := hF.size
  induction fuel generalizing s i f with
  | zero =>
    rw [Nat.zero_mul, Nat.add_zero] at hfuel
    refine ⟨s.ram, rfl, fun _ => ⟨?_, ?_⟩, fun hno => absurd hdone (by omega)⟩
    · rw [loadsegLoop, if_pos hfuel]
      exact returns_pure.2 ⟨rfl, rfl⟩
    · rw [Nat.sub_eq_zero_of_le hfuel, blit_zero]
      exact hB
  | succ fuel ih =>
    by_cases hlt : i < sz
    swap
    · refine ⟨s.ram, rfl, fun _ => ⟨?_, ?_⟩, fun hno => absurd hdone (by omega)⟩
      · rw [loadsegLoop, if_pos (by omega)]
        exact returns_pure.2 ⟨rfl, rfl⟩
      · rw [Nat.sub_eq_zero_of_le (by omega), blit_zero]
        exact hB
    have hszlt : sz + PGSIZE < 2 ^ 32 := by
      simp only [PHYSTOP, PGSIZE] at hk hsz ⊢
      omega
    have hoffi : (off + i) % 2 ^ 32 = off + i := Nat.mod_eq_of_lt (by omega)
    by_cases hchunk : off + i + min (sz - i) PGSIZE ≤ F.length
    · -- the file has this piece; the rest of the segment is loaded after it
      have hlen := length_pread hchunk
      have hread : Returns (readi ip (fun _ => true) ((off + i) % 2 ^ 32) (min (sz - i) PGSIZE))
          s.fs ((min (sz - i) PGSIZE : ℕ), pread F (off + i) (min (sz - i) PGSIZE)) s.fs := by
        rw [hoffi]
        exact hF.full _ _ hchunk
      obtain ⟨m₁, hphys, hB1, hturn⟩ := loadseg_turn (fuel + 1) hB hend hva hi hlt hsz
        hread hlen.le
      simp only [ne_eq, not_true_eq_false, if_false] at hturn
      rw [hlen] at hB1
      have hnext : (i + PGSIZE) % 2 ^ 32 = i + PGSIZE := Nat.mod_eq_of_lt (by omega)
      rw [hnext] at hturn
      obtain ⟨m', hphys', hyes, hno⟩ := ih (s := { s with ram := m₁ }) (i := i + PGSIZE) hB1 hF
        (by simp only [PGSIZE] at hi ⊢; omega) (by rw [Nat.succ_mul] at hfuel; omega)
        (by omega)
      refine ⟨m', hphys'.trans hphys, fun hin => ?_, fun hout => ?_⟩
      · obtain ⟨hr, hB'⟩ := hyes hin
        refine ⟨(hturn _ _).2 hr, ?_⟩
        have hcopy : blit f (va + i) (min (sz - i) PGSIZE) (fun j => (pread F (off + i)
            (min (sz - i) PGSIZE)).getD j 0) =
            blit f (va + i) (min (sz - i) PGSIZE) fun j => F.getD (off + i + j) 0 :=
          blit_congr fun j hj => getD_pread hj
        rw [hcopy] at hB'
        by_cases hlast : sz - i ≤ PGSIZE
        · rwa [Nat.sub_eq_zero_of_le (show sz ≤ i + PGSIZE by omega), blit_zero,
            Nat.min_eq_left hlast] at hB'
        · have happ := blit_append f (fun j => F.getD (off + i + j) 0) (va + i) PGSIZE
            (sz - (i + PGSIZE))
          rw [show PGSIZE + (sz - (i + PGSIZE)) = sz - i by omega] at happ
          rw [← happ]
          rw [Nat.min_eq_right (by omega)] at hB'
          simpa only [Nat.add_assoc] using hB'
      · obtain ⟨hr, hB'⟩ := hno hout
        exact ⟨(hturn _ _).2 hr, hB'⟩
    · obtain ⟨x, bytes, hread, hx, hbytes⟩ := hF.short (off + i)
        (min (sz - i) PGSIZE) (by omega) (by omega) (by omega)
      obtain ⟨m₁, hphys, hB1, hturn⟩ := loadseg_turn (fuel + 1) hB hend hva hi hlt hsz
        (hoffi.symm ▸ hread) hbytes
      refine ⟨m₁, hphys, fun hin => absurd hin (by omega), fun _ => ⟨(hturn _ _).2 ?_, _, hB1⟩⟩
      rw [if_pos hx]
      exact returns_pure.2 ⟨rfl, rfl⟩

theorem loadseg_total (hB : Built o a r s.ram k f) (hend : 0 < o.kernelEnd)
    (hF : s.fs.FileAt ip F) (hva : va % PGSIZE = 0) (hsz : va + sz ≤ k * PGSIZE)
    (hoff : off < 2 ^ 32) :
    ∃ m', m'.phys = s.ram.phys ∧
      (sz = 0 ∨ off + sz ≤ F.length →
        Returns (loadseg r va ip off sz) s true { s with ram := m' } ∧
        Built o a r m' k (blit f va sz fun j => F.getD (off + j) 0)) ∧
      (¬ (sz = 0 ∨ off + sz ≤ F.length) →
        Returns (loadseg r va ip off sz) s false { s with ram := m' } ∧
        ∃ f', Built o a r m' k f') := by
  have h := loadsegLoop_total (sz / PGSIZE + 1) 0 hB hend hF hva rfl hsz hoff
    (by simp only [PGSIZE]; omega) (.inl rfl)
  rw [loadseg, if_neg (by omega)]
  simpa only [Nat.add_zero, Nat.sub_zero] using h

/-! ### The loop over the headers -/

variable [DecidableEq A] [DecidableEq B]

/-- What loading comes to, from size `sz`: when there are as many free pages as the footprint grows
by, it returns `x` and makes memory `g`; otherwise it returns a size of 0 and stops. -/
structure Loads (o : Owners A B) (a : A) (r : ℕ) (s : ExecState) (sz : ℕ) (x : ℕ × Bool)
    (g : ℕ → UInt8) (m : ExecM (ℕ × Bool)) : Prop where
  enough : s.ram.phys.Avail (footprint (pages x.1) - footprint (pages sz)) → ∃ m' f',
    Returns m s x { s with ram := m' } ∧ Built o a r m' (pages x.1) f' ∧ (x.2 = true → f' = g) ∧
      Steps (Owners.space a) (o.books s.ram.phys) (o.books m'.phys) ∧
      Used s.ram.phys m'.phys (footprint (pages x.1) - footprint (pages sz))
  short : ¬ s.ram.phys.Avail (footprint (pages x.1) - footprint (pages sz)) → ∃ m',
    Returns m s (0, false) { s with ram := m' } ∧ o.Inv m'.phys ∧
      Steps (Owners.space a) (o.books s.ram.phys) (o.books m'.phys)

theorem Loads.of_returns {m : ExecM (ℕ × Bool)} {b : Bool} {g : ℕ → UInt8}
    (hB : Built o a r s.ram (pages sz) f) (h : Returns m s (sz, b) s) (hg : b = true → f = g) :
    Loads o a r s sz (sz, b) g m := by
  refine ⟨fun _ => ⟨s.ram, f, h, hB, hg, .refl, ?_⟩, fun hav => absurd ?_ hav⟩
  · rw [Nat.sub_self]
    exact .refl _
  · rw [Nat.sub_self]
    exact avail_zero

theorem Loads.bind_returns {x : ℕ × Bool} {g : ℕ → UInt8} {α : Type} {m : ExecM α}
    {n : α → ExecM (ℕ × Bool)} {y : α} (h : Returns m s y s) (hn : Loads o a r s sz x g (n y)) :
    Loads o a r s sz x g (m >>= n) :=
  ⟨by simpa only [h.bind_iff] using hn.enough, by simpa only [h.bind_iff] using hn.short⟩

theorem footprint_max (m n : ℕ) :
    footprint (pages (max m n)) - footprint (pages m) =
      footprint (pages n) - footprint (pages m) := by
  obtain h | h := le_total m n
  · rw [Nat.max_eq_right h]
  · rw [Nat.max_eq_left h, Nat.sub_self, Nat.sub_eq_zero_of_le (footprint_mono (pages_mono h))]

theorem loadSegment_total (ph : Proghdr) (hB : Built o a r s.ram (pages sz) f)
    (hend : 0 < o.kernelEnd) (hF : s.fs.FileAt ip F) (hfit : ph.filesz ≤ ph.memsz)
    (hwrap : ph.vaddr + ph.memsz < 2 ^ 64) :
    Loads o a r s sz (max sz (ph.vaddr + ph.memsz), decide (max sz (ph.vaddr + ph.memsz) ≠ 0 ∧
      ph.vaddr % PGSIZE = 0 ∧ ph.InFile F))
      (blit f ph.vaddr ph.filesz fun j => F.getD ((ph.off + j) % 2 ^ 32) 0)
      (loadSegment r ip ph sz) := by
  have halloc := hB.uvmalloc (ph.vaddr + ph.memsz)
  rw [loadSegment, Nat.mod_eq_of_lt hwrap]
  refine ⟨fun hav => ?_, fun hav => ?_⟩
  swap
  · rw [footprint_max] at hav
    obtain ⟨m', hr, hI', hs, -⟩ := halloc.2 hav
    refine ⟨m', ?_, hI', hs⟩
    rw [(returns_onRam.2 ⟨m', hr, rfl⟩ : Returns _ s 0 { s with ram := m' }).bind_iff, if_pos rfl]
    exact returns_pure.2 ⟨rfl, rfl⟩
  rw [footprint_max] at hav ⊢
  obtain ⟨m₁, hr, hB1, hs, hused⟩ := halloc.1 hav
  set top := max sz (ph.vaddr + ph.memsz) with htop
  have hr' : Returns (onRam (Ram.uvmalloc r sz (ph.vaddr + ph.memsz))) s top { s with ram := m₁ } :=
    returns_onRam.2 ⟨m₁, hr, rfl⟩
  simp only [hr'.bind_iff]
  by_cases hzero : top = 0
  · refine ⟨m₁, f, ?_, hB1, by simp [hzero], hs, hused⟩
    rw [if_pos hzero]
    exact returns_pure.2 ⟨by simp [hzero], rfl⟩
  rw [if_neg hzero]
  by_cases hal : ph.vaddr % PGSIZE ≠ 0
  · refine ⟨m₁, f, ?_, hB1, by simp [hal], hs, hused⟩
    rw [if_pos hal]
    exact returns_pure.2 ⟨by simp [hal], rfl⟩
  rw [if_neg hal]
  -- the pages are there, so the segment is shorter than physical memory
  have hpages : ph.vaddr + ph.filesz ≤ pages top * PGSIZE := by
    simp only [pages, PGSIZE]
    omega
  have hsmall : ph.filesz < 2 ^ 32 := by
    have := hB1.le
    simp only [PHYSTOP, PGSIZE] at this hpages
    omega
  obtain ⟨m', hphys, hyes, hno⟩ := loadseg_total (s := { s with ram := m₁ }) hB1 hend hF
    (not_not.1 hal) hpages (Nat.mod_lt ph.off (by decide))
  rw [Nat.mod_eq_of_lt hsmall]
  by_cases hin : ph.InFile F
  · obtain ⟨hseg, hB'⟩ := hyes hin
    refine ⟨m', _, returns_bind.2 ⟨true, _, hseg, returns_pure.2 ⟨?_, rfl⟩⟩, hB',
      fun _ => blit_congr fun j hj => ?_, hphys ▸ hs, hphys ▸ hused⟩
    · rw [decide_eq_true ⟨hzero, not_not.1 hal, hin⟩]
    · have := hF.size
      rw [← Nat.mod_add_mod, Nat.mod_eq_of_lt (show ph.off % 2 ^ 32 + j < 2 ^ 32 by
        obtain h | h := hin <;> omega)]
  · obtain ⟨hseg, f', hB'⟩ := hno hin
    refine ⟨m', f', returns_bind.2 ⟨false, _, hseg, returns_pure.2 ⟨?_, rfl⟩⟩, hB', by simp [hin],
      hphys ▸ hs, hphys ▸ hused⟩
    rw [decide_eq_false fun h => hin h.2.2]

/-- One turn of the loop over the headers. -/
theorem loadHeader_total (hB : Built o a r s.ram (pages sz) f) (hend : 0 < o.kernelEnd)
    (hF : s.fs.FileAt ip F) (hoff : off < 2 ^ 32) :
    Loads o a r s sz (headerStep F (headerAt F off) sz) (loadBytes F f (headerAt F off))
      (loadHeader r ip off sz) := by
  rw [loadHeader]
  by_cases hlen : off + PROGHDR ≤ F.length
  swap
  · obtain ⟨x, bytes, hread, hx, -⟩ := hF.short off PROGHDR hoff (by decide) (by omega)
    rw [headerAt, if_neg hlen]
    refine .bind_returns (returns_onFs.2 ⟨s.fs, hread, rfl⟩) (.of_returns hB ?_ (by simp))
    simp only [if_pos hx]
    exact returns_pure.2 ⟨rfl, rfl⟩
  rw [headerAt, if_pos hlen]
  refine .bind_returns (returns_onFs.2 ⟨s.fs, hF.full _ _ hlen, rfl⟩) ?_
  generalize hph : getProghdr (pread F off PROGHDR) = ph
  have hv : ph.vaddr < 2 ^ 64 := by
    rw [← hph]
    exact getLE_lt ..
  have hm : ph.memsz < 2 ^ 64 := by
    rw [← hph]
    exact getLE_lt ..
  simp only [hph, ne_eq, not_true_eq_false, if_false]
  rw [headerStep, loadBytes]
  by_cases htype : ph.type = ELF_PROG_LOAD
  swap
  · rw [if_pos htype, if_pos htype, if_neg htype]
    exact .of_returns hB (returns_pure.2 ⟨rfl, rfl⟩) fun _ => rfl
  rw [if_neg (not_not.2 htype), if_neg (not_not.2 htype), if_pos htype]
  by_cases hbad : ph.memsz < ph.filesz ∨ 2 ^ 64 ≤ ph.vaddr + ph.memsz
  · rw [if_pos hbad]
    refine .of_returns hB ?_ (by simp)
    split_ifs
    · exact returns_pure.2 ⟨rfl, rfl⟩
    · exact returns_pure.2 ⟨rfl, rfl⟩
    · omega
  rw [if_neg hbad, if_neg (by omega), if_neg]
  · exact loadSegment_total ph hB hend hF (by omega) (by omega)
  · rw [Nat.mod_eq_of_lt (by omega)]
    omega

/-- **The loop over the headers does what they ask for exactly when there is memory for it**: no
content of the file makes it panic. -/
theorem loadHeaders_total (n off : ℕ) (hB : Built o a r s.ram (pages sz) f)
    (hend : 0 < o.kernelEnd) (hF : s.fs.FileAt ip F) (hoff : off < 2 ^ 32) :
    Loads o a r s sz (plan F (headers F n off) sz) ((headers F n off).foldl (loadBytes F) f)
      (loadHeaders r ip n off sz) := by
  induction n generalizing s off sz f with
  | zero => exact .of_returns hB (returns_pure.2 ⟨rfl, rfl⟩) fun _ => rfl
  | succ n ih =>
    have hstep := loadHeader_total hB hend hF hoff
    have hnext : (off + PROGHDR) % 2 ^ 32 < 2 ^ 32 := Nat.mod_lt _ (by decide)
    simp only [headers, plan, List.foldl_cons, loadHeaders]
    set y := headerStep F (headerAt F off) sz with hy
    have hle : sz ≤ y.1 := le_headerStep
    have hfirst := footprint_mono (pages_mono hle)
    by_cases h1 : s.ram.phys.Avail (footprint (pages y.1) - footprint (pages sz))
    · obtain ⟨m₁, f₁, hr1, hB1, hf1, hs1, hused1⟩ := hstep.enough h1
      by_cases hok : y.2 = true
      · -- this header is loaded, and the others from there
        have hrest := ih (s := { s with ram := m₁ }) _ hB1 hF hnext
        have hmore := footprint_mono (pages_mono (le_plan F
          (headers F n ((off + PROGHDR) % 2 ^ 32)) y.1))
        rw [if_pos hok, ← hf1 hok]
        set x := plan F (headers F n ((off + PROGHDR) % 2 ^ 32)) y.1
        have hsum : footprint (pages x.1) - footprint (pages sz) =
            (footprint (pages y.1) - footprint (pages sz)) +
              (footprint (pages x.1) - footprint (pages y.1)) := by omega
        refine ⟨fun hav => ?_, fun hav => ?_⟩
        · rw [hsum] at hav ⊢
          obtain ⟨m', f', hr', hB', hf', hs', hused'⟩ := hrest.enough ((hused1.avail h1).1 hav)
          refine ⟨m', f', hr1.bind_iff.2 ?_, hB', hf', hs1.trans hs', hused1.trans hused'⟩
          rw [if_pos hok]
          exact hr'
        · rw [hsum] at hav
          obtain ⟨m', hr', hI', hs'⟩ := hrest.short fun h => hav ((hused1.avail h1).2 h)
          refine ⟨m', hr1.bind_iff.2 ?_, hI', hs1.trans hs'⟩
          rw [if_pos hok]
          exact hr'
      · rw [if_neg hok]
        refine ⟨fun _ => ⟨m₁, f₁, hr1.bind_iff.2 ?_, hB1, by simp, hs1, hused1⟩,
          fun hav => absurd h1 hav⟩
        rw [if_neg hok]
        exact returns_pure.2 ⟨rfl, rfl⟩
    · obtain ⟨m', hr, hI', hs⟩ := hstep.short h1
      have hno : ¬ s.ram.phys.Avail (footprint (pages (if y.2 = true then
          plan F (headers F n ((off + PROGHDR) % 2 ^ 32)) y.1 else (y.1, false)).1) -
            footprint (pages sz)) := by
        intro hav
        refine h1 (hav.mono (Nat.sub_le_sub_right (footprint_mono (pages_mono ?_)) _))
        split
        · exact le_plan _ _ _
        · exact le_rfl
      exact ⟨fun hav => absurd hav hno,
        fun _ => ⟨m', hr.bind_iff.2 (returns_pure.2 ⟨rfl, rfl⟩), hI', hs⟩⟩

end Xv6Container
