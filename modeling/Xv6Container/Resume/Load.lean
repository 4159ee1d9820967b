import Xv6Container.Resume.Save

/-!
# What `resume` reads

`resume` makes a page table for the code, loads the code, adds the guard page and the stack, and
loads the stack.

* `PageMap.returns_loadseg` : `loadseg` fills pages with the bytes of the file;
* `loadImage_spec` : the page table that `resume` makes from a file with code;
* `loadImage_empty` : it makes none from a file without code, because `uvmalloc` returns 0 for it;
* `resume_restores` : `resume` of such a file succeeds;
* `resume_regs` : when `resume` succeeds, the trapframe is the one in the file.
-/

namespace Xv6Container

open Function

/-! ### Page tables -/

theorem pages_succ (p : ℕ) : p * PGSIZE + PGSIZE = (p + 1) * PGSIZE := by
  unfold PGSIZE
  omega

theorem pgroundup_pages (p : ℕ) : pgroundup (p * PGSIZE) = p * PGSIZE := by
  unfold pgroundup PGSIZE
  omega

namespace PageMap

variable {pt : PageMap} {n a k : ℕ} {kalloc : ℕ → Bool}

/-- A page fresh from `uvmalloc`. -/
def zeroPage : UserPage := { user := true, data := fun _ => 0 }

/-- The page table with `n` new pages from page `p` on. -/
def grown (pt : PageMap) (p n : ℕ) : PageMap := fun k =>
  if p ≤ k ∧ k < p + n then some zeroPage else pt k

theorem uvmallocLoop_eq (hk : ∀ a, kalloc a = true) (p : ℕ) (htop : (p + n) * PGSIZE ≤ TRAPFRAME) :
    uvmallocLoop kalloc n (p * PGSIZE) pt = .ok (some (pt.grown p n)) := by
  induction n generalizing p pt with
  | zero =>
    have : pt.grown p 0 = pt := by
      funext k
      simp only [grown]
      rw [if_neg (by omega)]
    rw [this]
    rfl
  | succ n ih =>
    have hlt : ¬TRAPFRAME ≤ p * PGSIZE := by unfold PGSIZE at htop ⊢; omega
    have hdiv : p * PGSIZE / PGSIZE = p := Nat.mul_div_cancel _ (by decide)
    rw [uvmallocLoop, if_neg (by simp [hk]), if_neg hlt, pages_succ,
      ih (p + 1) (by rwa [Nat.add_right_comm, Nat.add_assoc]), hdiv]
    congr 2
    funext k
    simp only [grown, update_apply]
    by_cases hkp : k = p
    · subst hkp
      rw [if_neg (by omega), if_pos rfl, if_pos (by omega)]
      rfl
    · rw [if_neg hkp]
      refine if_congr ?_ rfl rfl
      omega

theorem uvmalloc_eq (pt : PageMap) (hk : ∀ a, kalloc a = true) (p n : ℕ)
    (htop : (p + n) * PGSIZE ≤ TRAPFRAME) :
    pt.uvmalloc kalloc (p * PGSIZE) ((p + n) * PGSIZE) =
      .ok (pt.grown p n, (p + n) * PGSIZE) := by
  have hn : ((p + n) * PGSIZE - p * PGSIZE + PGSIZE - 1) / PGSIZE = n := by unfold PGSIZE; omega
  rw [uvmalloc, if_neg (by unfold PGSIZE; omega), pgroundup_pages]
  dsimp only
  rw [hn, uvmallocLoop_eq hk p htop]
  rfl

variable {s : FsState} {ip off va m : ℕ} {F : List UInt8}

/-- The pages of a segment of `m` pages from page `p` on hold the bytes of the file from `off`
on. -/
structure Loaded (bytes : List UInt8) (p off m : ℕ) (pt pt' : PageMap) : Prop where
  page : ∀ q < m, ∃ data, pt' (p + q) = some ⟨true, data⟩ ∧
    ∀ o < PGSIZE, bytes[off + q * PGSIZE + o]? = some (data o)
  other : ∀ k, (∀ q < m, k ≠ p + q) → pt' k = pt k

theorem returns_loadsegLoop (hF : s.FileAt ip F) (p off : ℕ) (hlen : off + m * PGSIZE ≤ F.length)
    (hpages : ∀ q < m, ∃ data, pt (p + q) = some ⟨true, data⟩) (q₀ fuel : ℕ) (hq : q₀ ≤ m)
    (hfuel : m < q₀ + fuel) :
    ∃ pt', Returns (loadsegLoop (p * PGSIZE) ip off (m * PGSIZE) fuel (q₀ * PGSIZE) pt) s
      (true, pt') s ∧ Loaded F (p + q₀) (off + q₀ * PGSIZE) (m - q₀) pt pt' := by
  induction fuel generalizing q₀ pt with
  | zero => omega
  | succ fuel ih =>
    rw [loadsegLoop]
    by_cases hlt : q₀ < m
    · obtain ⟨data, hdata⟩ := hpages q₀ hlt
      have hdiv : (p * PGSIZE + q₀ * PGSIZE) / PGSIZE = p + q₀ := by
        rw [← Nat.add_mul, Nat.mul_div_cancel _ (by decide)]
      have hn : min (m * PGSIZE - q₀ * PGSIZE) PGSIZE = PGSIZE := by
        rw [← Nat.sub_mul]
        exact min_eq_right (Nat.le_mul_of_pos_left _ (by omega))
      have hend : off + q₀ * PGSIZE + PGSIZE ≤ F.length := by
        rw [Nat.add_assoc, pages_succ]
        exact (Nat.add_le_add_left (Nat.mul_le_mul_right _ hlt) _).trans hlen
      have hsize := hF.size
      -- the page that is loaded, and the rest of the loop
      obtain ⟨bytes, hbytes⟩ : ∃ bytes, bytes = pread F (off + q₀ * PGSIZE) PGSIZE := ⟨_, rfl⟩
      have hread := hF.full _ _ hend
      have hblen : bytes.length = PGSIZE := hbytes ▸ length_pread hend
      rw [← hbytes] at hread
      obtain ⟨pt₁, hpt1⟩ : ∃ pt₁, pt₁ = update pt (p + q₀)
          (some { user := true, data := blit data 0 bytes.length fun j => bytes.getD j 0 }) :=
        ⟨_, rfl⟩
      have hpages1 : ∀ q < m, ∃ data, pt₁ (p + q) = some ⟨true, data⟩ := by
        intro q hq
        rw [hpt1]
        by_cases he : q = q₀
        · subst he
          exact ⟨_, update_self ..⟩
        · rw [update_of_ne (by omega)]
          exact hpages q hq
      obtain ⟨pt', hloop, hload⟩ := ih hpages1 (q₀ + 1) (by omega) (by omega)
      refine ⟨pt', ?_, fun q hq => ?_, fun k hk => ?_⟩
      · rw [if_neg (not_le.2 (Nat.mul_lt_mul_of_pos_right hlt (by decide))), hdiv, hdata]
        dsimp only
        rw [hn, Nat.mod_eq_of_lt (by omega)]
        refine returns_bind.2 ⟨_, s, hread, ?_⟩
        dsimp only
        rw [if_neg (by simp), ← hpt1, pages_succ]
        exact hloop
      · cases q with
        | zero =>
          have hout : ∀ q < m - (q₀ + 1), p + q₀ ≠ p + (q₀ + 1) + q := by omega
          refine ⟨_, (hload.other _ hout).trans (by rw [hpt1, update_self]), fun o ho => ?_⟩
          rw [blit_in (by omega) (by omega), Nat.sub_zero, Nat.zero_mul, Nat.add_zero, hbytes,
            getD_pread ho, List.getD_eq_getElem?_getD, List.getElem?_eq_getElem (by omega)]
          rfl
        | succ r =>
          obtain ⟨data', hd, hb⟩ := hload.page r (by omega)
          refine ⟨data', ?_, fun o ho => ?_⟩
          · rw [← hd, ← Nat.add_assoc, ← Nat.add_assoc, Nat.add_right_comm _ 1 r]
          · rw [← hb o ho, ← pages_succ, ← pages_succ]
            ac_rfl
      · have h1 : pt₁ k = pt k := by
          rw [hpt1, update_of_ne]
          have := hk 0 (by omega)
          omega
        rw [hload.other k ?_, h1]
        intro q hq he
        exact hk (q + 1) (by omega) (by omega)
    · refine ⟨pt, ?_, fun q hq => by omega, fun k _ => rfl⟩
      rw [if_pos (Nat.mul_le_mul_right _ (not_lt.1 hlt))]
      exact returns_pure.2 ⟨rfl, rfl⟩

/-- **`loadseg`** of whole pages fills them with the bytes of the file. -/
theorem returns_loadseg (pt : PageMap) (hF : s.FileAt ip F) (p off m : ℕ)
    (hlen : off + m * PGSIZE ≤ F.length)
    (hpages : ∀ q < m, ∃ data, pt (p + q) = some ⟨true, data⟩) :
    ∃ pt', Returns (pt.loadseg (p * PGSIZE) ip off (m * PGSIZE)) s (true, pt') s ∧
      Loaded F p off m pt pt' := by
  have hfuel : m * PGSIZE / PGSIZE + 1 = m + 1 := by rw [Nat.mul_div_cancel _ (by decide)]
  obtain ⟨pt', h, hl⟩ := returns_loadsegLoop hF p off hlen hpages 0 (m + 1) (by omega) (by omega)
  refine ⟨pt', ?_, by simpa using hl⟩
  rw [loadseg, if_neg (by simp), hfuel]
  simpa using h

theorem does_loadsegLoop {sz fuel j : ℕ} (hF : s.FileAt ip F) :
    Does (loadsegLoop va ip off sz fuel j pt) s (fun _ t => t = s) fun _ => True := by
  induction fuel generalizing j pt with
  | zero => exact .pure rfl
  | succ fuel ih =>
    rw [loadsegLoop]
    refine .ite (fun _ => .pure rfl) fun _ => ?_
    split
    · exact .bind_returns (hF.read _ _ (Nat.mod_lt _ (by decide))
        ((min_le_right _ _).trans_lt (by decide))) (.ite (fun _ => .pure rfl) fun _ => ih)
    · exact .throw trivial

theorem does_loadseg {sz : ℕ} (hF : s.FileAt ip F) :
    Does (pt.loadseg va ip off sz) s (fun _ t => t = s) fun _ => True :=
  .ite (fun _ => .throw trivial) fun _ => does_loadsegLoop hF

end PageMap

/-! ### The image -/

variable {s s' t : FsState} {mem : ResumeMem} {hdr : ResumeHdr} {ip a i c : ℕ} {pt pt' : PageMap}
  {path : CharArray} {tf tf₀ : Trapframe} {rest F : List UInt8} {r : ℤ}

theorem returns_ofExcept {α : Type} {x : Except Stop α} {y : α} :
    Returns (ofExcept x) s y s' ↔ x = .ok y ∧ s = s' := by
  cases x with
  | error e => simp [ofExcept]
  | ok z => simp [ofExcept]

theorem does_ofExcept {α : Type} (x : Except Stop α) :
    Does (ofExcept x) s (fun _ t => t = s) fun _ => True := by
  refine ⟨fun _ _ h => (returns_ofExcept.1 h).2.symm, fun _ _ => trivial⟩

theorem does_loadImage (hF : s.FileAt ip F) :
    Does (loadImage mem ip hdr) s (fun _ t => t = s) fun _ => True := by
  refine .bind (does_ofExcept _) ?_
  rintro ⟨pt, sz⟩ _ rfl
  refine .ite (fun _ => .pure rfl) fun _ => .bind (PageMap.does_loadseg hF) ?_
  rintro ⟨ok, pt⟩ _ rfl
  refine .ite (fun _ => .pure rfl) fun _ => .bind (does_ofExcept _) ?_
  rintro ⟨pt, sz⟩ _ rfl
  refine .ite (fun _ => .pure rfl) fun _ => .bind (does_ofExcept _) ?_
  rintro pt _ rfl
  refine .bind (PageMap.does_loadseg hF) ?_
  rintro ⟨ok, pt⟩ _ rfl
  exact .pure rfl

/-- A page table made from the image `bytes` of a process with `c` pages of code. -/
structure Restored (bytes : List UInt8) (c : ℕ) (pt : PageMap) : Prop where
  code : ∀ q < c, ∃ data, pt q = some ⟨true, data⟩ ∧
    ∀ o < PGSIZE, bytes[HDRSIZE + TFSIZE + q * PGSIZE + o]? = some (data o)
  guard : ∃ data, pt c = some ⟨false, data⟩
  stack : ∃ data, pt (c + 1) = some ⟨true, data⟩ ∧
    ∀ o < PGSIZE, bytes[HDRSIZE + TFSIZE + c * PGSIZE + o]? = some (data o)
  above : ∀ k, c + 2 ≤ k → pt k = none

/-- **The page table of `resume`.**  With memory for all pages, an image with `c > 0` pages of code
is loaded. -/
theorem loadImage_spec (hdr : ResumeHdr) (hF : s.FileAt ip F) (hmem : ∀ va, mem.page va = true)
    (hc : 0 < c) (hcode : hdr.codeSz = (c * PGSIZE : ℕ)) (hstack : hdr.stackSz = PGSIZE)
    (hlen : F.length = HDRSIZE + TFSIZE + (c + 1) * PGSIZE) :
    ∃ pt, Returns (loadImage mem ip hdr) s (some pt) s ∧ Restored F c pt := by
  have hmax : c * PGSIZE < 2 ^ 31 := by
    have := hF.size
    rw [hlen, ← pages_succ] at this
    omega
  have htf : (c + 2) * PGSIZE ≤ TRAPFRAME := by
    rw [Nat.add_mul]
    exact (Nat.add_le_add_right hmax.le _).trans (by decide)
  -- the code
  have h1 := PageMap.uvmalloc_eq (fun _ => none) hmem 0 c (by
    rw [Nat.zero_add]
    exact hmax.le.trans (by decide))
  rw [Nat.zero_mul, Nat.zero_add] at h1
  obtain ⟨pt₁, hload1, hpt1⟩ := PageMap.returns_loadseg
    (PageMap.grown (fun _ => none) 0 c) hF 0 (HDRSIZE + TFSIZE) c
    (by rw [hlen]; exact Nat.add_le_add_left (Nat.mul_le_mul_right PGSIZE (Nat.le_add_right c 1)) _)
    fun q hq => ⟨_, if_pos (by omega)⟩
  rw [Nat.zero_mul] at hload1
  -- the guard page and the stack
  have h2 := PageMap.uvmalloc_eq pt₁ hmem c 2 htf
  obtain ⟨pt₂, hpt2⟩ : ∃ pt₂, pt₂ = pt₁.grown c 2 := ⟨_, rfl⟩
  rw [← hpt2] at h2
  have h3 : pt₂.uvmclear (c * PGSIZE) =
      .ok (update pt₂ c (some { PageMap.zeroPage with user := false })) := by
    have hdiv : c * PGSIZE / PGSIZE = c := Nat.mul_div_cancel _ (by decide)
    have hg : pt₂ c = some PageMap.zeroPage := by
      rw [hpt2]
      exact if_pos (by omega)
    rw [PageMap.uvmclear, hdiv, hg]
  obtain ⟨pt₄, hload4, hpt4⟩ := PageMap.returns_loadseg
    (update pt₂ c (some { PageMap.zeroPage with user := false })) hF (c + 1)
    (HDRSIZE + TFSIZE + c * PGSIZE) 1 (by rw [hlen, Nat.add_assoc, ← Nat.add_mul])
    fun q hq => ⟨fun _ => 0, by
      rw [update_of_ne (by omega), hpt2]
      exact if_pos (by omega)⟩
  have h64 : toU64 hdr.codeSz = c * PGSIZE := by
    rw [hcode, toU64, Int.emod_eq_of_lt (by positivity) (by omega), Int.toNat_natCast]
  have h32 : toU32 hdr.codeSz = c * PGSIZE := by
    rw [hcode, toU32, Int.emod_eq_of_lt (by positivity) (by omega), Int.toNat_natCast]
  have hoff : toU32 (HDRSIZE + TFSIZE + hdr.codeSz) = HDRSIZE + TFSIZE + c * PGSIZE := by
    rw [hcode, toU32]
    unfold HDRSIZE TFSIZE
    omega
  have hst : toU32 hdr.stackSz = 1 * PGSIZE := by
    rw [hstack]
    rfl
  refine ⟨pt₄, ?_, fun q hq => ?_, ?_, ?_, fun k hk => ?_⟩
  · rw [loadImage, h64, h1, (returns_ofExcept.2 ⟨rfl, rfl⟩).bind_iff]
    dsimp only
    rw [if_neg (Nat.mul_pos hc (by decide)).ne', h32, hload1.bind_iff]
    dsimp only
    rw [if_neg (by simp), pgroundup_pages, ← Nat.add_mul, h2,
      (returns_ofExcept.2 ⟨rfl, rfl⟩).bind_iff]
    dsimp only
    rw [if_neg (Nat.mul_pos (Nat.succ_pos _) (by decide)).ne', h3,
      (returns_ofExcept.2 ⟨rfl, rfl⟩).bind_iff, hoff, hst, pages_succ, hload4.bind_iff]
    exact returns_pure.2 ⟨rfl, rfl⟩
  · obtain ⟨data, hd, hb⟩ := hpt1.page q hq
    refine ⟨data, ?_, hb⟩
    rw [hpt4.other q (by omega), update_of_ne (by omega), hpt2, PageMap.grown, if_neg (by omega),
      ← hd, Nat.zero_add]
  · exact ⟨_, (hpt4.other c (by omega)).trans (update_self ..)⟩
  · obtain ⟨data, hd, hb⟩ := hpt4.page 0 (by omega)
    exact ⟨data, hd, by simpa using hb⟩
  · rw [hpt4.other k (by omega), update_of_ne (by omega), hpt2, PageMap.grown, if_neg (by omega),
      hpt1.other k (by omega), PageMap.grown, if_neg (by omega)]

theorem loadImage_empty (hcode : hdr.codeSz = 0) : Returns (loadImage mem ip hdr) s none s := by
  have h : PageMap.uvmalloc (fun _ => none) mem.page 0 0 = .ok (fun _ => none, 0) := rfl
  have h0 : toU64 hdr.codeSz = 0 := by
    rw [hcode]
    rfl
  rw [loadImage, h0, h, (returns_ofExcept.2 ⟨rfl, rfl⟩).bind_iff]
  exact returns_pure.2 ⟨rfl, rfl⟩

/-! ### `resume` -/

/-- In state `s`, `begin_op` and `namei` find inode `i` at `path`, in entry `a` of the inode cache,
and lead to state `t`.  Nobody else has locked the inode, and it has a name. -/
structure Finds (s : FsState) (path : CharArray) (a i : ℕ) (t : FsState) : Prop where
  lookup : ∃ s', Returns beginOp s () s' ∧ Returns (namei path) s' (some a) t
  wf : t.WellFormed
  idle : t.store.log.committing = false
  ref : 0 < (t.icache a).ref
  unlocked : (t.icache a).locked = false
  inum : (t.icache a).inum = i
  live : t.disk.Live t.sb.ninodes i
  named : (t.dinode i).nlink ≠ 0

namespace Finds

variable (hf : Finds s path a i t)

include hf

theorem ilock : Returns (Xv6Container.ilock a) t () (t.locked a) := by
  have href : ¬(t.icache a).ref < 1 := by
    have := hf.ref
    omega
  have htype : (t.dinode (t.icache a).inum).type ≠ 0 := by
    rw [hf.inum]
    exact hf.live.2
  rw [Xv6Container.ilock, returns_get_bind]
  dsimp only
  rw [if_neg href, if_neg (by simp [hf.unlocked])]
  by_cases hv : (t.icache a).valid = true
  · rw [if_pos hv, returns_setInode]
    simp [FsState.modifyInode, hv]
  · rw [if_neg hv, if_neg htype, returns_setInode]
    simp [FsState.modifyInode, hv]

theorem nlink_locked : ((t.locked a).icache a).din.nlink ≠ 0 := by
  obtain ⟨hwf, hheld, hlooks⟩ := hf.wf.ilock hf.ilock
  rw [hwf.cached.din a (by simp) hheld.1 hheld.2, hlooks.inum a hf.ref, hf.inum]
  exact hf.named

theorem close (k : Kernel) : ∃ u s',
    Returns (iunlockput a) ((t.locked a).setKern k) () u ∧ Returns endOp u () s' ∧
      s'.kern = k ∧ s'.cur = t.cur := by
  obtain ⟨v, hv⟩ : ∃ v, v = (t.locked a).setKern k := ⟨_, rfl⟩
  have hlocked : (v.icache a).locked = true := by simp [hv]
  have href : ¬(v.icache a).ref < 1 := by
    have := hf.ref
    simp only [hv, FsState.setKern_icache, FsState.locked, FsState.modifyInode, update_self]
    omega
  have hunlock : Returns (iunlock a) v () (v.unlocked a) := by
    rw [iunlock, returns_inode_bind, if_neg (by simp [hlocked, href]),
      returns_setInode]
    rfl
  have hnlink : ((v.unlocked a).icache a).din.nlink ≠ 0 := by
    simpa [FsState.unlocked, hv] using hf.nlink_locked
  have hput : Returns (iput a) (v.unlocked a) () ((v.unlocked a).addRef a (-1)) := by
    rw [iput, returns_inode_bind, if_neg (by simp [hnlink]), returns_setInode]
    rfl
  obtain ⟨s', hend⟩ := FsState.exists_endOp (s := (v.unlocked a).addRef a (-1))
    (by rw [hv]; exact hf.idle)
  obtain ⟨hkern, hcur, -⟩ := FsState.endOp_frame hend
  rw [← hv]
  exact ⟨_, s', returns_iunlockput.2 ⟨_, hunlock, hput⟩, hend, by rw [hkern, hv]; rfl,
    by rw [hcur, hv]; rfl⟩

theorem fileAt (k : Kernel) :
    ((t.locked a).setKern k).FileAt a (t.file i) := by
  obtain ⟨hwf, hheld, hlooks⟩ := hf.wf.ilock hf.ilock
  have hinum : ((t.locked a).icache a).inum = i := (hlooks.inum a hf.ref).trans hf.inum
  have hF := FsState.fileAt_of_wellFormed (hwf.setKern k) hheld
  rw [FsState.setKern_icache, hinum] at hF
  exact hF

end Finds

/-- What `resume` does when it has read the header and the trapframe. -/
def resumeImage (mem : ResumeMem) (pt : PageMap) (ip : ℕ) (hdr : ResumeHdr) :
    FsM (ℤ × PageMap) :=
  if mem.pagetable = false then throw (.panic "uvmcreate: out of memory")
  else do
    match ← loadImage mem ip hdr with
    | none => resumeBad pt ip
    | some pt =>
      setProc fun p => p.restore hdr pt
      iunlockput ip
      endOp
      return (1, pt)

/-- The process table when `resume` has read the trapframe. -/
def FsState.withTf (s : FsState) (tf : Trapframe) : Kernel :=
  s.kern.modifyProc s.cur fun p => { p with tf := some tf }

section

variable (pt) (hf : Finds s path a i t)

include hf

theorem returns_resumeBad (k : Kernel) :
    ∃ s', Returns (resumeBad pt a) ((t.locked a).setKern k) (-1, pt) s' := by
  obtain ⟨u, s', hput, hend, -⟩ := hf.close k
  refine ⟨s', ?_⟩
  rw [resumeBad, hput.bind_iff, hend.bind_iff]
  exact returns_pure.2 ⟨rfl, rfl⟩

theorem returns_resumeImage {k : Kernel} (hmem : mem.pagetable = true)
    (h : Returns (loadImage mem a hdr) ((t.locked a).setKern k) (some pt')
      ((t.locked a).setKern k)) :
    ∃ s', Returns (resumeImage mem pt a hdr) ((t.locked a).setKern k) (1, pt') s' ∧
      s'.cur = t.cur ∧ s'.kern = k.modifyProc t.cur fun p => p.restore hdr pt' := by
  obtain ⟨u, s', hput, hend, hkern, hcur⟩ :=
    hf.close (k.modifyProc t.cur fun p => p.restore hdr pt')
  refine ⟨s', ?_, hcur, hkern⟩
  rw [resumeImage, if_neg (by simp [hmem]), h.bind_iff]
  dsimp only
  rw [setProc, bind_assoc, returns_get_bind,
    ((returns_set (u := ⟨⟩)).2 rfl).bind_iff]
  have hput' : Returns (iunlockput a) ((FsState.setKern ((t.locked a).setKern k)
    (k.modifyProc t.cur fun p => p.restore hdr pt'))) () u := hput
  rw [FsState.setKern_kern, FsState.setKern_cur]
  exact returns_bind.2 ⟨_, _, hput', returns_bind.2 ⟨_, _, hend, returns_pure.2 ⟨rfl, rfl⟩⟩⟩

variable (htf : (t.kern.proc t.cur).tf = some tf₀) (hname : hdr.name.length = 16)
  (hfile : t.file i = putHdr hdr ++ tfBytes tf ++ rest)

include htf hname hfile

theorem returns_resume_iff {x : ℤ × PageMap} :
    Returns (resume mem pt path) s x s' ↔
      Returns (resumeImage mem pt a (getHdr (putHdr hdr)))
        ((t.locked a).setKern (t.withTf (storeTf tf₀ (tfBytes tf)))) x s' := by
  obtain ⟨t₀, hbegin, hnamei⟩ := hf.lookup
  obtain ⟨hwf, hheld, hlooks⟩ := hf.wf.ilock hf.ilock
  have hinum : ((t.locked a).icache a).inum = i := (hlooks.inum a hf.ref).trans hf.inum
  have hfile' : (t.locked a).file i = t.file i := rfl
  have hlen : HDRSIZE + TFSIZE ≤ (t.locked a).disk.size i := by
    rw [← FsState.length_file, hfile', hfile, List.length_append, List.length_append,
      length_putHdr hname, length_tfBytes]
    omega
  have hread1 : Returns (readi a (fun _ => true) 0 HDRSIZE) (t.locked a) _ (t.locked a) :=
    readi_pread hwf hheld (by omega) (by decide)
  have hread2 : Returns (readi a (fun _ => true) HDRSIZE TFSIZE) (t.locked a) _ (t.locked a) :=
    readi_pread hwf hheld (by rw [hinum]; omega) (by decide)
  have hpread1 : pread (t.file i) 0 HDRSIZE = putHdr hdr := by
    rw [hfile, pread, List.drop_zero, List.append_assoc, List.take_left' (length_putHdr hname)]
  have hpread2 : pread (t.file i) HDRSIZE TFSIZE = tfBytes tf := by
    rw [hfile, pread, List.append_assoc, List.drop_left' (length_putHdr hname),
      List.take_left' (length_tfBytes tf)]
  rw [hinum, hfile', hpread1, min_eq_left (by omega)] at hread1
  rw [hinum, hfile', hpread2, min_eq_left (by omega)] at hread2
  have hcall : ((t.locked a).kern.proc (t.locked a).cur).tf = some tf₀ := htf
  rw [resume, hbegin.bind_iff, hnamei.bind_iff]
  dsimp only
  rw [hf.ilock.bind_iff, hread1.bind_iff]
  dsimp only
  rw [if_neg (by simp), returns_get_bind, hcall]
  dsimp only
  rw [hread2.bind_iff]
  dsimp only
  rw [setProc, bind_assoc, returns_get_bind,
    ((returns_set (u := ⟨⟩)).2 rfl).bind_iff, if_neg (by decide)]
  rfl

/-- **`resume` succeeds** on a file with code and a page of stack, when there is memory. -/
theorem resume_restores (hmem : mem.pagetable = true) (hpages : ∀ va, mem.page va = true)
    (hc : 0 < c) (hcode : toInt32 hdr.codeSz = (c * PGSIZE : ℕ))
    (hstack : toInt32 hdr.stackSz = PGSIZE) (hrest : rest.length = (c + 1) * PGSIZE) :
    ∃ pt' s', Returns (resume mem pt path) s (1, pt') s' ∧ Restored (t.file i) c pt' ∧
      s'.cur = t.cur ∧ s'.kern.proc s'.cur =
        { t.kern.proc t.cur with tf := some (storeTf tf₀ (tfBytes tf)) }.restore
          (getHdr (putHdr hdr)) pt' := by
  have hF := hf.fileAt (t.withTf (storeTf tf₀ (tfBytes tf)))
  have hlen : (t.file i).length = HDRSIZE + TFSIZE + (c + 1) * PGSIZE := by
    rw [hfile, List.length_append, List.length_append, length_putHdr hname, length_tfBytes, hrest]
  obtain ⟨pt', hload, hres⟩ := loadImage_spec (getHdr (putHdr hdr)) hF hpages hc
    (by rw [getHdr_putHdr]; exact hcode) (by rw [getHdr_putHdr]; exact hstack) hlen
  obtain ⟨s', hret, hcur, hkern⟩ := returns_resumeImage pt hf hmem hload
  refine ⟨pt', s', (returns_resume_iff pt hf htf hname hfile).2 hret, hres, hcur, ?_⟩
  rw [hkern, hcur]
  simp [FsState.withTf, Kernel.modifyProc]

/-- **`resume` refuses** a file without code. -/
theorem resume_refuses (hmem : mem.pagetable = true) (hcode : toInt32 hdr.codeSz = 0) :
    ∃ s', Returns (resume mem pt path) s (-1, pt) s' := by
  obtain ⟨s', hbad⟩ := returns_resumeBad pt hf (t.withTf (storeTf tf₀ (tfBytes tf)))
  refine ⟨s', (returns_resume_iff pt hf htf hname hfile).2 ?_⟩
  rw [resumeImage, if_neg (by simp [hmem]),
    (loadImage_empty (by rw [getHdr_putHdr]; exact hcode)).bind_iff]
  exact hbad

/-- **The registers after `resume`**, when it succeeds, are the ones in the file. -/
theorem resume_regs (h : Returns (resume mem pt path) s (1, pt') s') :
    ∃ tf', (s'.kern.proc s'.cur).tf = some tf' ∧ ∀ k < 36, tf' k = tf k := by
  have hret := (returns_resume_iff pt hf htf hname hfile).1 h
  have hF := hf.fileAt (t.withTf (storeTf tf₀ (tfBytes tf)))
  have hmem : mem.pagetable = true := by
    by_contra hno
    rw [resumeImage, if_pos (by simpa using hno)] at hret
    exact not_returns_throw hret
  have hret' := hret
  rw [resumeImage, if_neg (by simp [hmem])] at hret'
  obtain ⟨x, u, hload, hrest⟩ := returns_bind.1 hret'
  obtain rfl := (does_loadImage hF).returns hload
  cases x with
  | none =>
    obtain ⟨_, hbad⟩ := returns_resumeBad pt hf (t.withTf (storeTf tf₀ (tfBytes tf)))
    have := (hrest.unique hbad).1
    simp at this
  | some pt₁ =>
    obtain ⟨_, hdone, hcur, hkern⟩ := returns_resumeImage pt hf hmem hload
    obtain ⟨-, rfl⟩ := hret.unique hdone
    refine ⟨storeTf tf₀ (tfBytes tf), ?_, fun k hk => storeTf_tfBytes _ _ hk⟩
    rw [hkern, hcur]
    simp [FsState.withTf, Kernel.modifyProc, Proc.restore]

end

end Xv6Container
