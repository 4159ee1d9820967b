import Xv6Container.Fs.Walk
import Xv6Container.Resume.Load

/-!
# Suspend, then resume

A process is suspended to a file that was just created, and later another process resumes that file.

* `image_survives` : `resume` succeeds and the new process has the size, the name, the tracing flag
  and the memory of the suspended one exactly when there is at least one page of code and the
  tracing flag fits in an `int`;
* `registers_survive` : the registers come back exactly when `a0` was 0.
-/

namespace Xv6Container

open Function

/-! ### The page table -/

variable {pt pt' : PageMap} {c sz : ℕ} {bytes code stack : List UInt8}

theorem Restored.flags (h : Restored bytes c pt') (hlay : ExecLayout pt sz)
    (hsz : sz = (c + 2) * PGSIZE) (k : ℕ) : (pt' k).map (·.user) = (pt k).map (·.user) := by
  have hpos : 0 < PGSIZE := by decide
  rcases lt_trichotomy k c with hk | rfl | hk
  · obtain ⟨data, hd⟩ := hlay.code k (by
      rw [hsz]
      exact Nat.mul_lt_mul_of_pos_right (by omega) hpos)
    obtain ⟨data', hd', -⟩ := h.code k hk
    rw [hd, hd']
    rfl
  · obtain ⟨data, hd⟩ := hlay.guard k hsz.symm
    obtain ⟨data', hd'⟩ := h.guard
    rw [hd, hd']
    rfl
  · by_cases hk' : k = c + 1
    · subst hk'
      obtain ⟨data, hd⟩ := hlay.stack (c + 1) hsz.symm
      obtain ⟨data', hd', -⟩ := h.stack
      rw [hd, hd']
      rfl
    · have hle : sz ≤ k * PGSIZE := by
        rw [hsz]
        exact Nat.mul_le_mul_right _ (by omega)
      rw [h.above k (by omega), hlay.above k hle]

theorem Restored.userMem_eq (h : Restored bytes c pt') (hlay : ExecLayout pt sz)
    (hsz : sz = (c + 2) * PGSIZE) {head : List UInt8} (hbytes : bytes = head ++ code ++ stack)
    (hhead : head.length = HDRSIZE + TFSIZE) (hcode : code.length = c * PGSIZE)
    (hcodeb : ∀ j < c * PGSIZE, pt.byte j = code[j]?)
    (hstackb : ∀ j < PGSIZE, pt.byte ((c + 1) * PGSIZE + j) = stack[j]?) :
    pt'.userMem = pt.userMem := by
  have hpos : 0 < PGSIZE := by decide
  funext va
  change pt'.byte va = pt.byte va
  have hva := Nat.div_add_mod' va PGSIZE
  have hlt := Nat.mod_lt va hpos
  have hflags := h.flags hlay hsz (va / PGSIZE)
  by_cases htop : va < TRAPFRAME
  · rcases lt_trichotomy (va / PGSIZE) c with hk | hk | hk
    · obtain ⟨data, hd, hb⟩ := h.code _ hk
      have hva' : va < c * PGSIZE := (Nat.div_lt_iff_lt_mul hpos).1 hk
      rw [PageMap.byte_page htop hd, hcodeb va hva', ← hb _ hlt, hbytes, Nat.add_assoc, hva,
        List.append_assoc, List.getElem?_append_right (by omega), hhead, Nat.add_sub_cancel_left,
        List.getElem?_append_left (by omega)]
    · obtain ⟨data, hd⟩ := h.guard
      rw [hk, hd] at hflags
      obtain ⟨⟨user, data'⟩, hd', rfl⟩ := Option.map_eq_some_iff.1 hflags.symm
      simp [PageMap.byte, hk, hd, hd']
    · by_cases hk' : va / PGSIZE = c + 1
      · obtain ⟨data, hd, hb⟩ := h.stack
        rw [hk'] at hva
        rw [PageMap.byte_page htop (hk' ▸ hd), ← hb _ hlt, hbytes]
        conv_rhs => rw [← hva]
        rw [hstackb _ hlt, List.getElem?_append_right (by rw [List.length_append]; omega),
          List.length_append, hhead, hcode, Nat.add_sub_cancel_left]
      · have hd := h.above (va / PGSIZE) (by omega)
        rw [hd] at hflags
        have hd' : pt (va / PGSIZE) = none := Option.map_eq_none_iff.1 hflags.symm
        simp [PageMap.byte, hd, hd']
  · simp [PageMap.byte, htop]

/-! ### The process after `resume` -/

theorem toInt32_natCast {n : ℕ} (h : n < 2 ^ 31) : toInt32 n = n := by
  rw [toInt32, Int.bmod_eq_of_le (by omega) (by omega)]

theorem toInt32_toInt32 (n : ℤ) : toInt32 (toInt32 n) = toInt32 n := Int.bmod_bmod

section

variable {s s' u t : FsState} {pts : Slot → PageMap} {pid r : ℤ} {f f' : InodeFile} {i j a : ℕ}
  {p : Slot} {tf tf₀ : Trapframe} {mem : ResumeMem} {path : CharArray}

-- process `p` is suspended to the new file `i`, which another process then finds
variable (hfresh : Fresh s f i) (hp : s.kern.suspendTarget pid = some p)
  (htf : (s.kern.proc p).tf = some tf) (hsuspend : Returns (suspend pts pid f) s (r, f') s')
  (hfind : Finds u path a j t) (hsame : t.file j = s'.file i)
  (hcaller : (t.kern.proc t.cur).tf = some tf₀)

include hfresh hp htf hsuspend hfind hsame hcaller

/-- A process without code does not survive: `resume` refuses its file. -/
theorem image_without_code (pt : PageMap) (hmem : mem.pagetable = true)
    (hsz : (s.kern.proc p).sz = 2 * PGSIZE) :
    ∃ u', Returns (resume mem pt path) u (-1, pt) u' := by
  obtain ⟨-, rest, hfile⟩ := suspend_head hfresh hp htf hsuspend
  refine resume_refuses pt hfind hcaller (length_name_resumehdr _) (hsame.trans hfile) hmem ?_
  simp only [resumehdr, hsz]
  rfl

section

variable (pt : PageMap) (hmem : mem.pagetable = true)
  (hpages : ∀ va, mem.page va = true) (hlay : ExecLayout (pts p) (s.kern.proc p).sz)
  (hfits : HDRSIZE + TFSIZE + ((s.kern.proc p).sz - PGSIZE) ≤ MAXFILE * BSIZE)

include hmem hpages hlay hfits

/-- `resume` loads the file of a process with code. -/
theorem resume_of_suspend (hcode : 2 * PGSIZE < (s.kern.proc p).sz) :
    ∃ pt' u', Returns (resume mem pt path) u (1, pt') u' ∧
      u'.kern.proc u'.cur = { t.kern.proc t.cur with tf := some (storeTf tf₀ (tfBytes tf)) }.restore
        (getHdr (putHdr (resumehdr (s.kern.proc p)))) pt' ∧
      (∀ k, (pt' k).map (·.user) = (pts p k).map (·.user)) ∧ pt'.userMem = (pts p).userMem := by
  obtain ⟨-, code, stack, hfile, hlen1, hlen2, hb1, hb2⟩ :=
    suspend_image hfresh hp htf hlay hfits hsuspend
  obtain ⟨P, hP⟩ : ∃ P, P = s.kern.proc p := ⟨_, rfl⟩
  rw [← hP] at hfile hlen1 hb1 hb2 hlay hfits hcode ⊢
  have hsz : P.sz < 2 ^ 31 := by
    unfold HDRSIZE TFSIZE MAXFILE BSIZE NDIRECT NINDIRECT PGSIZE at hfits
    omega
  -- the number of pages of code
  obtain ⟨c, hc, hc0⟩ : ∃ c, P.sz = (c + 2) * PGSIZE ∧ 0 < c := by
    obtain ⟨m, hm⟩ := hlay.aligned
    refine ⟨m - 2, ?_, ?_⟩
    · rw [hm, mul_comm]
      congr 1
      unfold PGSIZE at hcode hm
      omega
    · unfold PGSIZE at hcode hm
      omega
  have hc1 : P.sz - 2 * PGSIZE = c * PGSIZE := by
    rw [hc, ← Nat.sub_mul, Nat.add_sub_cancel]
  have hc2 : P.sz - PGSIZE = (c + 1) * PGSIZE := by
    rw [hc, ← pages_succ, Nat.add_sub_cancel]
  rw [hc1] at hlen1 hb1
  rw [hc2] at hb2
  rw [← hsame, List.append_assoc] at hfile
  have hcodeSz : toInt32 (resumehdr P).codeSz = (c * PGSIZE : ℕ) := by
    rw [codeSz_eq hlay.two hsz, hc1, toInt32_natCast]
    rw [← hc1]
    exact (Nat.sub_le _ _).trans_lt hsz
  obtain ⟨pt', u', hret, hres, hcur, hproc⟩ := resume_restores pt hfind hcaller
    (length_name_resumehdr P) hfile hmem hpages hc0 hcodeSz rfl
    (by rw [List.length_append, hlen1, hlen2, pages_succ])
  refine ⟨pt', u', hret, hproc, hres.flags hlay hc, ?_⟩
  refine hres.userMem_eq hlay hc (hfile.trans (List.append_assoc _ _ _).symm) ?_ hlen1 hb1 hb2
  rw [List.length_append, length_putHdr (length_name_resumehdr P), length_tfBytes]

/-- **The memory of a process survives** `suspend` and `resume` exactly if it has code and its
tracing flag fits in an `int`: then, with memory for all pages, `resume` succeeds, and the process
that called it has the size, the name, the tracing flag, the layout of the pages and the bytes of
the suspended one. -/
theorem image_survives (hname : strlen (s.kern.proc p).name < 16) :
    (∃ pt' u', Returns (resume mem pt path) u (1, pt') u' ∧
      (u'.kern.proc u'.cur).sz = (s.kern.proc p).sz ∧
      str (u'.kern.proc u'.cur).name = str (s.kern.proc p).name ∧
      (u'.kern.proc u'.cur).strace = (s.kern.proc p).strace ∧
      (u'.kern.proc u'.cur).pagetable = some pt'.userMem ∧
      (∀ k, (pt' k).map (·.user) = (pts p k).map (·.user)) ∧
      pt'.userMem = (pts p).userMem) ↔
    2 * PGSIZE < (s.kern.proc p).sz ∧
      toU64 (toInt32 (s.kern.proc p).strace) = (s.kern.proc p).strace := by
  have hload := resume_of_suspend hfresh hp htf hsuspend hfind hsame hcaller pt hmem hpages hlay
    hfits
  simp only [getHdr_putHdr, resumehdr, toInt32_toInt32] at hload
  constructor
  · rintro ⟨pt', u', hret, -, -, hstrace, -⟩
    have hcode : 2 * PGSIZE < (s.kern.proc p).sz := by
      refine lt_of_le_of_ne hlay.two fun hsz => ?_
      obtain ⟨u₁, hbad⟩ :=
        image_without_code hfresh hp htf hsuspend hfind hsame hcaller pt hmem hsz.symm
      cases congrArg Prod.fst (hret.unique hbad).1
    obtain ⟨pt₁, u₁, hret', hproc, -⟩ := hload hcode
    obtain ⟨-, rfl⟩ := hret.unique hret'
    simp only [hproc, Proc.restore] at hstrace
    exact ⟨hcode, hstrace⟩
  · rintro ⟨hcode, hstrace⟩
    obtain ⟨pt', u', hret, hproc, hflags, hbytes⟩ := hload hcode
    have hsz : (s.kern.proc p).sz < 2 ^ 31 := by
      unfold HDRSIZE TFSIZE MAXFILE BSIZE NDIRECT NINDIRECT PGSIZE at hfits
      omega
    refine ⟨pt', u', hret, ?_, ?_, ?_, ?_, hflags, hbytes⟩ <;> simp only [hproc, Proc.restore]
    · rw [toInt32_natCast hsz, toU64]
      omega
    · rw [str_safestrcpy]
      exact List.take_length.trans (str_strncpy hname)
    · exact hstrace

end

section

variable {tf₁ : Trapframe} {u₁ : FsState} {syscalls : ℤ → Option (PageMap → FsM (ℤ × PageMap))}
  (hcall : (u.kern.proc u.cur).tf = some tf₁) (hnum : toInt32 (tf₁ tfA7).toNat = SYS_resume)
  (htable : syscalls SYS_resume = some (sysResume mem (some path)))
  (hresume : Returns (resume mem pt path) u (1, pt') u₁) (v : ℕ → UInt64)

include hcall hnum htable hresume

/-- The registers after `resume` are the saved ones, but for `a0`. -/
theorem registers_after_resume :
    ∃ u' tf', Returns (syscall syscalls pt) u pt' u' ∧ (u'.kern.proc u'.cur).tf = some tf' ∧
      ∀ k, UserReg k → usertrapret v tf' k = if k = tfA0 then 0 else tf k := by
  obtain ⟨-, rest, hfile⟩ := suspend_head hfresh hp htf hsuspend
  obtain ⟨tf₂, htf2, hregs⟩ :=
    resume_regs _ hfind hcaller (length_name_resumehdr _) (hsame.trans hfile) hresume
  have hsys : Returns (sysResume mem (some path) pt) u (0, pt') u₁ := by
    rw [sysResume, hresume.bind_iff]
    exact returns_pure.2 ⟨rfl, rfl⟩
  -- `syscall` stores the 0 that `sys_resume` returns
  refine ⟨u₁.setKern (u₁.kern.modifyProc u₁.cur fun q =>
    { q with tf := q.tf.map fun tf => update tf tfA0 (UInt64.ofNat (toU64 0)) }),
    update tf₂ tfA0 0, ?_, ?_, fun k hk => ?_⟩
  · rw [syscall, returns_get_bind, hcall]
    dsimp only
    rw [hnum, if_pos (by decide), htable, Option.getD_some, hsys.bind_iff]
    dsimp only
    rw [setProc, bind_assoc, returns_get_bind,
      ((returns_set (u := ⟨⟩)).2 rfl).bind_iff]
    exact returns_pure.2 ⟨rfl, rfl⟩
  · rw [FsState.setKern_kern, FsState.setKern_cur, Kernel.modifyProc_proc_self, htf2]
    rfl
  · rw [usertrapret, if_neg hk.2, update_apply, hregs k hk.1]

/-- **The registers of a process survive** exactly if it was suspended with 0 in `a0`. -/
theorem registers_survive :
    (∃ u' tf', Returns (syscall syscalls pt) u pt' u' ∧ (u'.kern.proc u'.cur).tf = some tf' ∧
      ∀ k, UserReg k → usertrapret v tf' k = tf k) ↔ tf tfA0 = 0 := by
  obtain ⟨u', tf', hret, htf', hregs⟩ := registers_after_resume hfresh hp htf hsuspend hfind hsame
    hcaller hcall hnum htable hresume v
  constructor
  · rintro ⟨u₂, tf₂, hret₂, htf₂, hregs₂⟩
    obtain ⟨-, rfl⟩ := hret.unique hret₂
    obtain rfl : tf' = tf₂ := Option.some.inj (htf'.symm.trans htf₂)
    have ha0 : UserReg tfA0 := by decide
    rw [← hregs₂ tfA0 ha0, hregs tfA0 ha0, if_pos rfl]
  · intro ha0
    refine ⟨u', tf', hret, htf', fun k hk => ?_⟩
    rw [hregs k hk]
    split
    · rename_i h0
      rw [h0, ha0]
    · rfl

end

end

/-! ### A program that is suspended and resumed -/

/-- The memory of a program with `c` pages of code. -/
def programPages (c : ℕ) : PageMap := fun k =>
  if k = c then some ⟨false, fun _ => 0⟩ else if k < c + 2 then some ⟨true, fun _ => 0⟩ else none

/-- The program, with the registers `tf`, and a process that is about to call `resume`. -/
def programKernel (c : ℕ) (tf : Trapframe) : Kernel :=
  { Kernel.procinit [] 0 with
    started := true
    proc := update (update (fun _ => Proc.zero) 0
      { Proc.zero with
        container := some root
        tf := some tf
        pid := 7
        sz := (c + 2) * PGSIZE
        name := chars "prog" }) 1
      { Proc.zero with
        container := some root
        tf := some (update (fun _ => 0) tfA7 25)
        pid := 8 } }

/-- A disk with room for the file of a program. -/
def programSb : Superblock :=
  { size := 46, nblocks := 12, ninodes := 3, nlog := 30, logstart := 2, inodestart := 32,
    bmapstart := 33 }

/-- The root directory has an empty file `f`, which process 1 has opened. -/
def programDisk (k : Kernel) : FsState :=
  let s := (((blank k programSb 35).putInode 1 (dirInode 34 48)).putInode 2
    { Dinode.zero with type := T_FILE, nlink := 1 }).setBlk 34
    (dirBlock [⟨1, chars "."⟩, ⟨1, chars ".."⟩, ⟨2, chars "f"⟩])
  let s := s.setLog { s.store.log with outstanding := 0 }
  { s.modifyInode 0 fun _ =>
      { dev := ROOTDEV, inum := 2, ref := 1, locked := false, valid := false, din := Dinode.zero }
    with cur := 1 }

/-- The file that process 1 has opened. -/
def programFile : InodeFile := { readable := true, writable := true, ip := 0, off := 0 }

theorem fresh_programDisk (k : Kernel) : Fresh (programDisk k) programFile 2 := by
  have hwf : (programDisk (Kernel.procinit [] 0)).WellFormed := by
    have h : (programDisk (Kernel.procinit [] 0)).Small 1 := by decide +kernel
    refine h.wellFormed (by decide) fun a ha => ?_
    simp only [programDisk]
    rw [FsState.modifyInode_icache_of_ne _ (by omega)]
    rfl
  have hlive : (programDisk (Kernel.procinit [] 0)).disk.Live 3 2 ∧
      (programDisk (Kernel.procinit [] 0)).disk.size 2 = 0 := by decide +kernel
  exact ⟨⟨hwf.setKern k, ⟨rfl, rfl, Nat.zero_le _, fun b hb => by cases hb⟩, Int.one_pos, rfl,
    hlive.1, hlive.2.le⟩, rfl, hlive.2, rfl⟩

theorem execLayout_programPages (c : ℕ) : ExecLayout (programPages c) ((c + 2) * PGSIZE) := by
  have hpos : 0 < PGSIZE := by decide
  refine ⟨dvd_mul_left _ _, Nat.mul_le_mul_right _ (by omega), fun k hk => ?_, fun k hk => ?_,
    fun k hk => ?_, fun k hk => ?_⟩
  · have : k + 2 < c + 2 := lt_of_mul_lt_mul_right hk hpos.le
    exact ⟨_, by rw [programPages, if_neg (by omega), if_pos (by omega)]⟩
  · have : k + 2 = c + 2 := Nat.eq_of_mul_eq_mul_right hpos hk
    exact ⟨_, if_pos (by omega)⟩
  · have : k + 1 = c + 2 := Nat.eq_of_mul_eq_mul_right hpos hk
    exact ⟨_, by rw [programPages, if_neg (by omega), if_pos (by omega)]⟩
  · have : c + 2 ≤ k := le_of_mul_le_mul_right hk hpos
    rw [programPages, if_neg (by omega), if_neg (by omega)]

/-- Process 1 suspends the program and looks its file up; the state in between is kept. -/
def suspendThenFind (c : ℕ) : FsM (FsState × Option ℕ) := do
  let _ ← suspend (fun _ => programPages c) 7 programFile
  let u ← get
  beginOp
  let ip ← namei (chars "/f")
  return (u, ip)

/-- The lookup has found the file, and process 1 is still about to call `resume`. -/
def FoundFile (u : FsState) (ip : Option ℕ) (t : FsState) : Prop :=
  u.Linked ∧ u.kern.mycont u.cur = some root ∧ (u.kern.proc u.cur).cwd = none ∧
  (u.kern.proc u.cur).tf.map (fun tf => toInt32 (tf tfA7).toNat) = some SYS_resume ∧
  ROOTINO < u.sb.ninodes ∧ ip = some 0 ∧ (t.icache 0).locked = false ∧ (t.icache 0).inum = 2 ∧
  t.store.log.committing = false

instance (u : FsState) (ip : Option ℕ) (t : FsState) : Decidable (FoundFile u ip t) :=
  inferInstanceAs (Decidable (_ ∧ _ ∧ _ ∧ _ ∧ _ ∧ _ ∧ _ ∧ _ ∧ _))

/-- Whether the file of the program is found. -/
def findsFile (c : ℕ) (tf : Trapframe) : Bool :=
  match (suspendThenFind c).run (programDisk (programKernel c tf)) with
  | .ok ((u, ip), t) => FoundFile u ip t
  | .error _ => false

theorem exists_of_findsFile {c : ℕ} {tf : Trapframe} (h : findsFile c tf = true) :
    ∃ r f' u t tf₁, Returns (suspend (fun _ => programPages c) 7 programFile)
        (programDisk (programKernel c tf)) (r, f') u ∧ Finds u (chars "/f") 0 2 t ∧
      t.file 2 = u.file 2 ∧ (t.kern.proc t.cur).tf = some tf₁ ∧
      (u.kern.proc u.cur).tf = some tf₁ ∧ toInt32 (tf₁ tfA7).toNat = SYS_resume := by
  unfold findsFile at h
  split at h
  · rename_i u ip t hrun
    have hrun : Returns (suspendThenFind c) (programDisk (programKernel c tf)) (u, ip) t := hrun
    obtain ⟨hlinked, hcont, hcwd, htf, hroot, rfl, hlocked, hinum, hidle⟩ := of_decide_eq_true h
    simp only [suspendThenFind, returns_bind, returns_get, returns_pure] at hrun
    obtain ⟨⟨r, f'⟩, u', hsuspend, _, _, ⟨rfl, rfl⟩, _, u₀, hbegin, _, t', hnamei, hpair, rfl⟩ :=
      hrun
    simp only [Prod.mk.injEq] at hpair
    obtain ⟨rfl, rfl⟩ := hpair
    obtain ⟨ho, -⟩ := suspend_head (fresh_programDisk _) rfl rfl hsuspend
    obtain ⟨l, rfl⟩ : ∃ l, u₀ = u'.setLog l := ⟨_, FsState.returns_beginOp hbegin⟩
    have hlinked' : (u'.setLog l).Linked := ⟨hlinked.links, hlinked.entries⟩
    obtain ⟨hwalk, href⟩ := namei_walks (ho.wf.setLog l) hlinked' hroot hcont
      (fun w hw => by rw [FsState.setLog_kern, FsState.setLog_cur, hcwd] at hw; cases hw) hnamei
    obtain ⟨tf₁, htf1, hnum⟩ := Option.map_eq_some_iff.1 htf
    have hlive : t'.disk.Live t'.sb.ninodes 2 := by
      rw [hwalk.disk_eq, hwalk.sb]
      exact ho.live
    exact ⟨r, f', u', t', tf₁, hsuspend, ⟨⟨_, hbegin, hnamei⟩, hwalk.wf, hidle, href, hlocked,
      hinum, hlive, (hwalk.linked hlinked').links 2 hlive⟩, hwalk.file_eq 2,
      by rw [hwalk.kern, hwalk.cur]; exact htf1, htf1, hnum⟩
  · cases h

theorem findsFile_one : findsFile 1 (fun _ => 0) = true := by decide +kernel

theorem findsFile_a0 : findsFile 1 (update (fun _ => 0) tfA0 5) = true := by decide +kernel

theorem findsFile_zero : findsFile 0 (fun _ => 0) = true := by decide +kernel

/-- All calls of `kalloc` succeed. -/
def enoughMem : ResumeMem := { pagetable := true, page := fun _ => true }

/-- A program with a page of code comes back. -/
theorem image_survives_program : ∃ r f' u t pt' u',
    Returns (suspend (fun _ => programPages 1) 7 programFile)
      (programDisk (programKernel 1 fun _ => 0)) (r, f') u ∧ Finds u (chars "/f") 0 2 t ∧
    Returns (resume enoughMem (fun _ => none) (chars "/f")) u (1, pt') u' ∧
    (u'.kern.proc u'.cur).sz = 3 * PGSIZE ∧ str (u'.kern.proc u'.cur).name = chars "prog" ∧
    pt'.userMem = (programPages 1).userMem := by
  obtain ⟨r, f', u, t, tf₁, hsuspend, hfind, hsame, hcaller, -⟩ :=
    exists_of_findsFile findsFile_one
  obtain ⟨pt', u', hret, hsz, hname, -, -, -, hbytes⟩ := (image_survives (p := 0)
    (fresh_programDisk _) rfl rfl hsuspend hfind hsame hcaller (fun _ => none)
    (rfl : enoughMem.pagetable = true) (fun _ => rfl) (execLayout_programPages 1) (by decide)
    (by decide)).2 (by decide)
  exact ⟨r, f', u, t, pt', u', hsuspend, hfind, hret, hsz, hname, hbytes⟩

/-- A program with no page of code, only the guard page and the stack, is lost. -/
theorem image_without_code_program :
    Fresh (programDisk (programKernel 0 fun _ => 0)) programFile 2 ∧
    ExecLayout (programPages 0) ((programKernel 0 fun _ => 0).proc 0).sz ∧
    ∃ r f' u t u', Returns (suspend (fun _ => programPages 0) 7 programFile)
        (programDisk (programKernel 0 fun _ => 0)) (r, f') u ∧ Finds u (chars "/f") 0 2 t ∧
      Returns (resume enoughMem (fun _ => none) (chars "/f")) u (-1, fun _ => none) u' := by
  obtain ⟨r, f', u, t, tf₁, hsuspend, hfind, hsame, hcaller, -⟩ :=
    exists_of_findsFile findsFile_zero
  obtain ⟨u', hret⟩ := image_without_code (fresh_programDisk _) rfl rfl hsuspend hfind hsame hcaller
    (fun _ => none) (rfl : enoughMem.pagetable = true) rfl
  exact ⟨fresh_programDisk _, execLayout_programPages 0, r, f', u, t, u', hsuspend, hfind, hret⟩

/-- A table of system calls with `resume` of the file `f` only. -/
def resumeTable (num : ℤ) : Option (PageMap → FsM (ℤ × PageMap)) :=
  if num = SYS_resume then some (sysResume enoughMem (some (chars "/f"))) else none

theorem resumeTable_resume :
    resumeTable SYS_resume = some (sysResume enoughMem (some (chars "/f"))) := rfl

/-- A program that was suspended with 0 in `a0` gets all its registers back. -/
theorem registers_survive_program : ∃ u u' tf' pt',
    Returns (syscall resumeTable fun _ => none) u pt' u' ∧ (u'.kern.proc u'.cur).tf = some tf' ∧
      ∀ k, UserReg k → usertrapret (fun _ => 1) tf' k = 0 := by
  obtain ⟨r, f', u, t, tf₁, hsuspend, hfind, hsame, hcaller, hcall, hnum⟩ :=
    exists_of_findsFile findsFile_one
  obtain ⟨pt', u₁, hresume, -⟩ := resume_of_suspend (p := 0) (fresh_programDisk _) rfl rfl
    hsuspend hfind hsame hcaller (fun _ => none) (rfl : enoughMem.pagetable = true) (fun _ => rfl)
    (execLayout_programPages 1) (by decide) (by decide)
  obtain ⟨u', tf', hret, htf', hregs⟩ := (registers_survive (fresh_programDisk _) rfl rfl hsuspend
    hfind hsame hcaller hcall hnum resumeTable_resume hresume fun _ => 1).2 rfl
  exact ⟨u, u', tf', pt', hret, htf', hregs⟩

/-- A program that was suspended with 5 in `a0` has 0 there when it is resumed. -/
theorem registers_survive_not : ∃ r f' u t u' tf' pt',
    Returns (suspend (fun _ => programPages 1) 7 programFile)
      (programDisk (programKernel 1 (update (fun _ => 0) tfA0 5))) (r, f') u ∧
    Finds u (chars "/f") 0 2 t ∧ Returns (syscall resumeTable fun _ => none) u pt' u' ∧
    pt'.userMem = (programPages 1).userMem ∧ (u'.kern.proc u'.cur).tf = some tf' ∧
    UserReg tfA0 ∧ usertrapret (fun _ => 1) tf' tfA0 = 0 := by
  obtain ⟨r, f', u, t, tf₁, hsuspend, hfind, hsame, hcaller, hcall, hnum⟩ :=
    exists_of_findsFile findsFile_a0
  obtain ⟨pt', u₁, hresume, -, -, hbytes⟩ := resume_of_suspend (p := 0) (fresh_programDisk _)
    rfl rfl hsuspend hfind hsame hcaller (fun _ => none) (rfl : enoughMem.pagetable = true)
    (fun _ => rfl) (execLayout_programPages 1) (by decide) (by decide)
  obtain ⟨u', tf', hret, htf', hregs⟩ := registers_after_resume (fresh_programDisk _) rfl rfl
    hsuspend hfind hsame hcaller hcall hnum resumeTable_resume hresume fun _ => 1
  exact ⟨r, f', u, t, u', tf', pt', hsuspend, hfind, hret, hbytes, htf', by decide,
    hregs tfA0 (by decide)⟩

end Xv6Container
