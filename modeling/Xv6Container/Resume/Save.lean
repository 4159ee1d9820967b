import Xv6Container.Fs.Transact
import Xv6Container.Resume.Basic

/-!
# What `suspend` writes

`filewrite` writes to the end of a file in several transactions.  If it succeeds at all, it appends
the bytes of its source, up to a piece with an unmapped byte.  After such a piece the offset of the
file is beyond its end, and nothing is written any more.

* `Opened.filewrite` : `filewrite` appends something, whatever its source is;
* `Opened.filewrite_exact` : it appends exactly the bytes of a source that is mapped, if they fit;
* `suspend_head` : the file of a suspended process begins with its header and its trapframe;
* `suspend_image` : with its code and its stack after that, if the memory of the process has the
  layout that `exec` makes.
-/

namespace Xv6Container

/-- A file whose offset is not before its end: what is written to it is appended. -/
structure Opened (s : FsState) (f : InodeFile) (i : ℕ) : Prop where
  wf : s.WellFormed
  log : s.LogInv
  ref : 0 < (s.icache f.ip).ref
  inum : (s.icache f.ip).inum = i
  live : s.disk.Live s.sb.ninodes i
  size : s.disk.size i ≤ f.off

variable {s s' s₁ s₂ s₃ s₄ : FsState} {f f' : InodeFile} {i k k' n fuel : ℕ}
  {src : ℕ → Option UInt8} {r : ℤ}

namespace Opened

theorem ready (h : Opened s f i) : s.Ready f.ip i := ⟨h.wf, h.log, h.ref, h.inum, h.live⟩

theorem of_ready {g : InodeFile} (h : s.Ready g.ip i) (hsize : s.disk.size i ≤ g.off) :
    Opened s g i :=
  ⟨h.wf, h.log, h.ref, h.inum, h.live, hsize⟩

theorem round (h : Opened s f i) (hoff : f.off < 2 ^ 32) (hn : n < 2 ^ 32)
    (h1 : Returns beginOp s () s₁) (h2 : Returns (ilock f.ip) s₁ () s₂)
    (h3 : Returns (writei f.ip src f.off n) s₂ r s₃)
    (h4 : Returns (iunlock f.ip) s₃ () s₄) (h5 : Returns endOp s₄ () s') :
    (r = -1 ∧ s'.file i = s.file i ∧ Opened s' f i ∧ ¬Fits s i f.off n) ∨
    (r = n ∧ ∃ out : List UInt8, s'.file i = s.file i ++ out ∧
      Opened s' { f with off := f.off + n } i ∧
      ((∀ j < n, src j ≠ none) → out.length = n ∧ ∀ j < n, src j = out[j]?)) := by
  obtain ⟨hr, ⟨rfl, hfile, hno⟩ | ⟨rfl, hfits, e, hst⟩⟩ :=
    h.ready.transact hoff hn h1 h2 h3 h4 h5
  · refine .inl ⟨rfl, hfile, of_ready hr ?_, hno⟩
    rw [← FsState.length_file, hfile, FsState.length_file]
    exact h.size
  · have hsize : (s.file i).length = f.off := by
      rw [FsState.length_file]
      exact le_antisymm h.size hfits.1
    have hle := hst.le
    obtain ⟨out, hfile, hlen, hout⟩ := hst.append hsize
    refine .inr ⟨rfl, out, hfile, of_ready hr ?_, fun hall => ?_⟩
    · rw [← FsState.length_file, hst.length, hsize]
      dsimp only
      omega
    · rw [hst.eq_of_mapped hall, Nat.add_sub_cancel_left] at hlen hout
      exact ⟨hlen, hout⟩

end Opened

theorem maxWrite_eq : maxWrite = 3072 := rfl

theorem returns_filewriteLoop {y : ℕ × InodeFile}
    (h : Returns (filewriteLoop src n (fuel + 1) k f) s y s') (hk : k < n) :
    ∃ r s₁ s₂ s₃ s₄ s₅, Returns beginOp s () s₁ ∧ Returns (ilock f.ip) s₁ () s₂ ∧
      Returns (writei f.ip (fun j => src (k + j)) f.off (min (n - k) maxWrite)) s₂ r s₃ ∧
      Returns (iunlock f.ip) s₃ () s₄ ∧ Returns endOp s₄ () s₅ ∧
      (r < 0 ∧ y = (k, f) ∧ s' = s₅ ∨ r = (min (n - k) maxWrite : ℕ) ∧
        Returns (filewriteLoop src n fuel (k + min (n - k) maxWrite)
          { f with off := f.off + min (n - k) maxWrite }) s₅ y s') := by
  obtain ⟨m, hm⟩ : ∃ m, m = min (n - k) maxWrite := ⟨_, rfl⟩
  have hpos : 0 < m := by
    rw [hm, maxWrite_eq]
    omega
  rw [filewriteLoop, if_neg (by omega), ← hm] at h
  simp only [returns_bind] at h
  obtain ⟨_, s₁, h1, _, s₂, h2, r, s₃, h3, _, s₄, h4, _, s₅, h5, h⟩ := h
  have hip : (if 0 < r then { f with off := f.off + r.toNat } else f).ip = f.ip := by
    split <;> rfl
  rw [hip] at h4
  refine ⟨r, s₁, s₂, s₃, s₄, s₅, h1, h2, hm ▸ h3, h4, h5, ?_⟩
  split at h
  · rename_i hr
    rw [if_neg (by omega)] at h
    obtain ⟨rfl, rfl⟩ := returns_pure.1 h
    exact .inl ⟨hr, rfl, rfl⟩
  · split at h
    · exact absurd h not_returns_throw
    · rename_i hr
      obtain rfl : r = m := not_not.1 hr
      rw [if_pos (by omega), Int.toNat_natCast] at h
      rw [← hm]
      exact .inr ⟨rfl, h⟩

namespace Opened

section

variable (ho : Opened s f i)

include ho

theorem loop (hoff : f.off + (n - k) < 2 ^ 32)
    (h : Returns (filewriteLoop src n fuel k f) s (k', f') s') :
    ∃ out : List UInt8, s'.file i = s.file i ++ out ∧ Opened s' f' i ∧ f'.writable = f.writable ∧
      f'.off ≤ f.off + (n - k) ∧ (s.disk.size i = f.off → f.off + (n - k) ≤ MAXFILE * BSIZE →
        k ≤ n → n ≤ k + fuel → (∀ j, k ≤ j → j < n → src j ≠ none) →
        s'.disk.size i = f'.off ∧ out.length = n - k ∧ ∀ j < n - k, src (k + j) = out[j]?) := by
  induction fuel generalizing s f k with
  | zero =>
    obtain ⟨he, rfl⟩ := returns_pure.1 h
    cases he
    exact ⟨[], by simp, ho, rfl, by omega, fun hsize _ _ _ _ => ⟨hsize, by simp; omega, by omega⟩⟩
  | succ fuel ih =>
    by_cases hk : k < n
    · obtain ⟨r, s₁, s₂, s₃, s₄, s₅, h1, h2, h3, h4, h5, h⟩ := returns_filewriteLoop h hk
      obtain ⟨m, hm⟩ : ∃ m, m = min (n - k) maxWrite := ⟨_, rfl⟩
      have hmpos : 0 < m := by
        rw [hm, maxWrite_eq]
        omega
      rw [← hm] at h3 h
      obtain ⟨rfl, hfile, ho', hno⟩ | ⟨rfl, out, hfile, ho', hall⟩ :=
        ho.round (by omega) (by omega) h1 h2 h3 h4 h5
      · obtain ⟨-, he, rfl⟩ | ⟨hr, -⟩ := h
        · cases he
          exact ⟨[], by simpa using hfile, ho', rfl, by omega,
            fun hsize _ _ _ _ => absurd ⟨hsize.ge, by omega⟩ hno⟩
        · omega
      · obtain ⟨hr, -, -⟩ | ⟨-, h⟩ := h
        · omega
        · obtain ⟨out', hfile', ho'', hw, hle, hexact⟩ := ih ho' (by dsimp only; omega) h
          dsimp only at hle hw hexact
          refine ⟨out ++ out', by rw [hfile', hfile, List.append_assoc], ho'', hw, by omega,
            fun hsize hmax _ hfuel hsrc => ?_⟩
          obtain ⟨hlen, hout⟩ := hall fun j hj => hsrc (k + j) (by omega) (by omega)
          have hsize' : s₅.disk.size i = f.off + m := by
            rw [← FsState.length_file, hfile, List.length_append, FsState.length_file, hsize, hlen]
          obtain ⟨hs'', hlen', hout'⟩ := hexact hsize' (by omega) (by omega) (by omega)
            fun j hj => hsrc j (by omega)
          refine ⟨hs'', by rw [List.length_append]; omega, fun j hj => ?_⟩
          by_cases hjm : j < m
          · rw [hout j hjm, List.getElem?_append_left (by omega)]
          · rw [List.getElem?_append_right (by omega), hlen, ← hout' (j - m) (by omega)]
            congr 1
            omega
    · rw [filewriteLoop, if_pos (by omega)] at h
      obtain ⟨he, rfl⟩ := returns_pure.1 h
      cases he
      exact ⟨[], by simp, ho, rfl, by omega,
        fun hsize _ _ _ _ => ⟨hsize, by simp; omega, by omega⟩⟩

/-- **`filewrite`** appends something. -/
theorem filewrite {n : ℤ} (hoff : f.off + n.toNat < 2 ^ 32)
    (h : Returns (filewrite f src n) s (r, f') s') :
    ∃ out : List UInt8, s'.file i = s.file i ++ out ∧ Opened s' f' i ∧
      f'.off ≤ f.off + n.toNat := by
  unfold Xv6Container.filewrite at h
  split at h
  · obtain ⟨he, rfl⟩ := returns_pure.1 h
    cases he
    exact ⟨[], by simp, ho, by omega⟩
  · simp only [returns_bind] at h
    obtain ⟨⟨k, g⟩, t, hloop, h⟩ := h
    obtain ⟨he, rfl⟩ := returns_pure.1 h
    cases he
    obtain ⟨out, hfile, ho', -, hle, -⟩ := ho.loop (by omega) hloop
    exact ⟨out, hfile, ho', by omega⟩

/-- **`filewrite`** at the end of a file appends the bytes of a source that is mapped, if they
fit. -/
theorem filewrite_exact (hwritable : f.writable = true) (hsize : s.disk.size i = f.off)
    (hmax : f.off + n ≤ MAXFILE * BSIZE) (hsrc : ∀ j < n, src j ≠ none)
    (h : Returns (Xv6Container.filewrite f src n) s (r, f') s') :
    ∃ out : List UInt8, s'.file i = s.file i ++ out ∧ Opened s' f' i ∧ s'.disk.size i = f'.off ∧
      f'.writable = true ∧ out.length = n ∧ ∀ j < n, src j = out[j]? := by
  unfold Xv6Container.filewrite at h
  rw [if_neg (by simp [hwritable])] at h
  simp only [returns_bind] at h
  obtain ⟨⟨k, g⟩, t, hloop, h⟩ := h
  obtain ⟨he, rfl⟩ := returns_pure.1 h
  cases he
  rw [Int.toNat_natCast] at hloop
  have hlt : f.off + (n - 0) < 2 ^ 32 := by
    unfold MAXFILE BSIZE NDIRECT NINDIRECT at hmax
    omega
  obtain ⟨out, hfile, ho', hw, -, hexact⟩ := ho.loop hlt hloop
  obtain ⟨hs', hlen, hout⟩ := hexact hsize hmax (by omega) (by omega) fun j _ hj => hsrc j hj
  simp only [Nat.zero_add] at hout
  exact ⟨out, hfile, ho', hs', hw.trans hwritable, hlen, hout⟩

theorem filewritefromkernel {bytes : List UInt8} (hwritable : f.writable = true)
    (hsize : s.disk.size i = f.off) (hmax : f.off + bytes.length ≤ MAXFILE * BSIZE)
    (h : Returns (filewritefromkernel f bytes) s (r, f') s') :
    s'.file i = s.file i ++ bytes ∧ Opened s' f' i ∧ s'.disk.size i = f'.off ∧
      f'.writable = true := by
  obtain ⟨out, hfile, ho', hs', hw, hlen, hout⟩ := ho.filewrite_exact hwritable hsize hmax
    (fun j hj => by simp [hj]) h
  have hout' : out = bytes := by
    refine List.ext_getElem? fun j => ?_
    by_cases hj : j < bytes.length
    · exact (hout j hj).symm
    · rw [List.getElem?_eq_none (by omega), List.getElem?_eq_none (by omega)]
  exact ⟨hout' ▸ hfile, ho', hs', hw⟩

theorem setKern (k : Kernel) : Opened (s.setKern k) f i :=
  ⟨ho.wf.setKern k, ho.log.congr rfl rfl, ho.ref, ho.inum, ho.live, ho.size⟩

end

end Opened

/-! ### `suspend` -/

/-- A file that was just created and opened for writing: it is empty. -/
structure Fresh (s : FsState) (f : InodeFile) (i : ℕ) : Prop where
  opened : Opened s f i
  writable : f.writable = true
  size : s.disk.size i = 0
  off : f.off = 0

variable {pts : Slot → PageMap} {pid : ℤ} {p : Slot} {tf : Trapframe}

theorem Fresh.file (h : Fresh s f i) : s.file i = [] := by
  rw [← List.length_eq_zero_iff, FsState.length_file, h.size]

theorem length_name_resumehdr (P : Proc) : (resumehdr P).name.length = 16 := by
  simp [resumehdr, strncpy]

theorem returns_suspend (hf : Fresh s f i) (hp : s.kern.suspendTarget pid = some p)
    (htf : (s.kern.proc p).tf = some tf) (h : Returns (suspend pts pid f) s (r, f') s') :
    r = 0 ∧ ∃ t r₁ r₂ g g' t', t.file i = putHdr (resumehdr (s.kern.proc p)) ++ tfBytes tf ∧
      Opened t g i ∧ t.disk.size i = g.off ∧ g.writable = true ∧
      Returns (filewrite g ((pts p).source 0) (resumehdr (s.kern.proc p)).codeSz) t (r₁, g') t' ∧
      Returns (filewrite g' ((pts p).source ((resumehdr (s.kern.proc p)).codeSz + PGSIZE)) PGSIZE)
        t' (r₂, f') s' := by
  rw [suspend, returns_get_bind] at h
  simp only [hp, htf, returns_bind, returns_set] at h
  obtain ⟨_, _, rfl, ⟨r₁, f₁⟩, s₁, h1, ⟨r₂, f₂⟩, s₂, h2, ⟨r₃, f₃⟩, s₃, h3, ⟨r₄, f₄⟩, s₄, h4, h⟩ := h
  obtain ⟨he, rfl⟩ := returns_pure.1 h
  cases he
  have hlen : (putHdr (resumehdr (s.kern.proc p))).length = HDRSIZE :=
    length_putHdr (length_name_resumehdr _)
  have hsize : ∀ k, (s.setKern k).disk.size i = f.off := fun _ => hf.size.trans hf.off.symm
  obtain ⟨hf1, ho1, hs1, hw1⟩ := (hf.opened.setKern _).filewritefromkernel hf.writable (hsize _)
    (by rw [hlen, hf.off]; decide) h1
  have hf1 : s₁.file i = s.file i ++ putHdr (resumehdr (s.kern.proc p)) := hf1
  rw [hf.file, List.nil_append] at hf1
  have hoff1 : f₁.off = HDRSIZE := by
    rw [← hs1, ← FsState.length_file, hf1, hlen]
  obtain ⟨hf2, ho2, hs2, hw2⟩ := ho1.filewritefromkernel hw1 hs1
    (by rw [length_tfBytes, hoff1]; decide) h2
  exact ⟨rfl, s₂, r₃, r₄, f₂, f₃, s₃, by rw [hf2, hf1], ho2, hs2, hw2, h3, h4⟩

/-- **The file of a suspended process** begins with its header and its trapframe, whatever its
memory is. -/
theorem suspend_head (hf : Fresh s f i) (hp : s.kern.suspendTarget pid = some p)
    (htf : (s.kern.proc p).tf = some tf) (h : Returns (suspend pts pid f) s (r, f') s') :
    Opened s' f' i ∧ ∃ rest, s'.file i =
      putHdr (resumehdr (s.kern.proc p)) ++ tfBytes tf ++ rest := by
  obtain ⟨-, t, r₁, r₂, g, g', t', hfile, ho, hsize, -, h1, h2⟩ := returns_suspend hf hp htf h
  have hoff : g.off = HDRSIZE + TFSIZE := by
    rw [← hsize, ← FsState.length_file, hfile, List.length_append,
      length_putHdr (length_name_resumehdr _), length_tfBytes]
  have hcode : (resumehdr (s.kern.proc p)).codeSz.toNat < 2 ^ 31 := by
    have := Int.bmod_lt (x := (s.kern.proc p).sz - 2 * PGSIZE) (m := 2 ^ 32) (by decide)
    simp only [resumehdr, toInt32]
    omega
  unfold HDRSIZE TFSIZE at hoff
  obtain ⟨out₁, hf1, ho1, hle1⟩ := ho.filewrite (by omega) h1
  have hpg : ((PGSIZE : ℕ) : ℤ).toNat = 4096 := rfl
  obtain ⟨out₂, hf2, ho2, -⟩ := ho1.filewrite (by rw [hpg]; omega) h2
  exact ⟨ho2, out₁ ++ out₂, by rw [hf2, hf1, hfile, List.append_assoc]⟩

/-- The layout of user memory that `exec` makes: code and data, a guard page that the user cannot
use, and the page of the stack. -/
structure ExecLayout (pt : PageMap) (sz : ℕ) : Prop where
  aligned : PGSIZE ∣ sz
  two : 2 * PGSIZE ≤ sz
  code : ∀ k, (k + 2) * PGSIZE < sz → ∃ data, pt k = some ⟨true, data⟩
  guard : ∀ k, (k + 2) * PGSIZE = sz → ∃ data, pt k = some ⟨false, data⟩
  stack : ∀ k, (k + 1) * PGSIZE = sz → ∃ data, pt k = some ⟨true, data⟩
  above : ∀ k, sz ≤ k * PGSIZE → pt k = none

theorem PageMap.byte_page {pt : PageMap} {va : ℕ} {data : ℕ → UInt8} (hva : va < TRAPFRAME)
    (h : pt (va / PGSIZE) = some ⟨true, data⟩) : pt.byte va = some (data (va % PGSIZE)) := by
  simp [PageMap.byte, hva, h]

namespace ExecLayout

variable {pt : PageMap} {sz j : ℕ}

theorem byte_code (h : ExecLayout pt sz) (hsz : sz ≤ TRAPFRAME) (hj : j + 2 * PGSIZE < sz) :
    pt.byte j ≠ none := by
  obtain ⟨data, hdata⟩ := h.code (j / PGSIZE) (by unfold PGSIZE at *; omega)
  rw [PageMap.byte_page (by omega) hdata]
  simp

theorem byte_stack (h : ExecLayout pt sz) (hsz : sz ≤ TRAPFRAME) (hj : j < PGSIZE) :
    pt.byte (sz - PGSIZE + j) ≠ none := by
  obtain ⟨m, rfl⟩ := h.aligned
  have htwo := h.two
  have hdiv : (PGSIZE * m - PGSIZE + j) / PGSIZE = m - 1 := by unfold PGSIZE at *; omega
  obtain ⟨data, hdata⟩ := h.stack (m - 1) (by unfold PGSIZE at *; omega)
  rw [PageMap.byte_page (by unfold PGSIZE at *; omega) (hdiv ▸ hdata)]
  simp

end ExecLayout

theorem codeSz_eq {P : Proc} (h : 2 * PGSIZE ≤ P.sz) (hlt : P.sz < 2 ^ 31) :
    (resumehdr P).codeSz = (P.sz - 2 * PGSIZE : ℕ) := by
  simp only [resumehdr, toInt32]
  rw [Int.bmod_eq_of_le] <;> unfold PGSIZE at * <;> omega

theorem source_eq (pt : PageMap) (va : ℕ) {j : ℕ} (h : va + j < 2 ^ 64) :
    pt.source va j = pt.byte (va + j) := by
  rw [PageMap.source]
  congr 1
  omega

/-- **The file of a suspended process** whose memory has the layout that `exec` makes: the header,
the trapframe, the code and the stack. -/
theorem suspend_image (hf : Fresh s f i) (hp : s.kern.suspendTarget pid = some p)
    (htf : (s.kern.proc p).tf = some tf) (hlay : ExecLayout (pts p) (s.kern.proc p).sz)
    (hfits : HDRSIZE + TFSIZE + ((s.kern.proc p).sz - PGSIZE) ≤ MAXFILE * BSIZE)
    (h : Returns (suspend pts pid f) s (r, f') s') :
    Opened s' f' i ∧ ∃ code stack : List UInt8,
      s'.file i = putHdr (resumehdr (s.kern.proc p)) ++ tfBytes tf ++ code ++ stack ∧
      code.length = (s.kern.proc p).sz - 2 * PGSIZE ∧ stack.length = PGSIZE ∧
      (∀ j < (s.kern.proc p).sz - 2 * PGSIZE, (pts p).byte j = code[j]?) ∧
      ∀ j < PGSIZE, (pts p).byte ((s.kern.proc p).sz - PGSIZE + j) = stack[j]? := by
  obtain ⟨sz, hsz⟩ : ∃ sz, sz = (s.kern.proc p).sz := ⟨_, rfl⟩
  have htwo := hlay.two
  have hcode : (resumehdr (s.kern.proc p)).codeSz = (sz - 2 * PGSIZE : ℕ) := by
    rw [hsz]
    refine codeSz_eq htwo ?_
    unfold HDRSIZE TFSIZE MAXFILE BSIZE NDIRECT NINDIRECT PGSIZE at *
    omega
  obtain ⟨-, t, r₁, r₂, g, g', t', hfile, ho, hsize, hw, h1, h2⟩ := returns_suspend hf hp htf h
  rw [← hsz] at hlay hfits htwo ⊢
  rw [hcode] at h1 h2
  have hoff : g.off = HDRSIZE + TFSIZE := by
    rw [← hsize, ← FsState.length_file, hfile, List.length_append,
      length_putHdr (length_name_resumehdr _), length_tfBytes]
  have htop : sz ≤ TRAPFRAME := by
    unfold HDRSIZE TFSIZE MAXFILE BSIZE NDIRECT NINDIRECT PGSIZE at hfits
    unfold TRAPFRAME TRAMPOLINE MAXVA PGSIZE
    omega
  have hbase : ((sz - 2 * PGSIZE : ℕ) : ℤ) + (PGSIZE : ℕ) = ((sz - PGSIZE : ℕ) : ℤ) := by
    unfold PGSIZE at *
    omega
  have hsrc1 : ∀ j < sz - 2 * PGSIZE, (pts p).source 0 j = (pts p).byte j := by
    intro j hj
    have := source_eq (pts p) 0 (j := j) (by unfold TRAPFRAME TRAMPOLINE MAXVA at htop; omega)
    simpa using this
  have hsrc2 : ∀ j < PGSIZE, (pts p).source ((sz - 2 * PGSIZE : ℕ) + (PGSIZE : ℕ)) j =
      (pts p).byte (sz - PGSIZE + j) := by
    intro j hj
    rw [hbase]
    exact source_eq (pts p) _ (by unfold TRAPFRAME TRAMPOLINE MAXVA PGSIZE at *; omega)
  obtain ⟨code, hf1, ho1, hs1, hw1, hlen1, hout1⟩ := ho.filewrite_exact hw hsize
    (by unfold PGSIZE at *; omega)
    (fun j hj => by rw [hsrc1 j hj]; exact hlay.byte_code htop (by omega)) h1
  have hoff1 : g'.off = HDRSIZE + TFSIZE + (sz - 2 * PGSIZE) := by
    rw [← hs1, ← FsState.length_file, hf1, List.length_append, FsState.length_file, hsize, hoff,
      hlen1]
  obtain ⟨stack, hf2, ho2, -, -, hlen2, hout2⟩ := ho1.filewrite_exact hw1 hs1 (n := PGSIZE)
    (by unfold PGSIZE at *; omega)
    (fun j hj => by rw [hsrc2 j hj]; exact hlay.byte_stack htop hj) h2
  refine ⟨ho2, code, stack, by rw [hf2, hf1, hfile], hlen1, hlen2, fun j hj => ?_, fun j hj => ?_⟩
  · rw [← hout1 j hj, hsrc1 j hj]
  · rw [← hout2 j hj, hsrc2 j hj]

end Xv6Container
