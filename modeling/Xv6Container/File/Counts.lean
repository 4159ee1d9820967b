import Xv6Container.Resume.Save

/-!
# The counts of file transfers

`readi` and `writei` copy between a file and user memory block by block.  When the copy of a block
fails they leave the loop, and return the number of bytes they were asked for all the same.
`fileread` and `filewrite` add this number to the offset of the file.

* `transfer_counts_iff` : the numbers and the offset are right if and only if every byte that the
  call gets to is mapped.
-/

namespace Xv6Container

/-- `fileread`: the number returned, the bytes stored at the destination, and the file. -/
def fileread (f : InodeFile) (dst : ℕ → Bool) (n : ℤ) : FsM (ℤ × List UInt8 × InodeFile) := do
  if f.readable = false then return (-1, [], f)
  else
    ilock f.ip
    let (r, bytes) ← readi f.ip dst f.off (n % 2 ^ 32).toNat
    let f := if 0 < r then { f with off := f.off + r.toNat } else f
    iunlock f.ip
    return (r, bytes, f)

/-- The bytes were taken from the beginning of the source. -/
def Takes (src : ℕ → Option UInt8) (bytes : List UInt8) : Prop :=
  ∀ j < bytes.length, src j = bytes[j]?

/-- How many of `n` bytes `filewrite` can write to a file of `size` bytes at `off`: all of them, or
as many transactions as fit. -/
def filewriteSpan (size off n : ℕ) : ℕ :=
  if size < off then 0
  else if off + n ≤ MAXFILE * BSIZE then n
  else (MAXFILE * BSIZE - off) / maxWrite * maxWrite

namespace FsState

variable (s : FsState) (i : ℕ)

/-- Every byte that `readi` reads has a destination. -/
def ReadMapped (dst : ℕ → Bool) (off n : ℕ) : Prop :=
  off ≤ s.disk.size i → off + n < 2 ^ 32 → ∀ j < min n (s.disk.size i - off), dst j = true

/-- Every byte that `writei` writes has a source. -/
def WriteMapped (src : ℕ → Option UInt8) (off n : ℕ) : Prop :=
  Fits s i off n → ∀ j < n, src j ≠ none

/-- Every byte that `filewrite` gets to has a source. -/
def FilewriteMapped (f : InodeFile) (src : ℕ → Option UInt8) (n : ℤ) : Prop :=
  f.writable = true → ∀ j < filewriteSpan (s.disk.size i) f.off n.toNat, src j ≠ none

end FsState

/-! ### Lists of bytes -/

theorem pwrite_nil (f : List UInt8) (off : ℕ) : pwrite f off [] = f := by simp [pwrite]

theorem pwrite_pwrite {f b c : List UInt8} {off : ℕ} (h : off ≤ f.length) :
    pwrite (pwrite f off b) (off + b.length) c = pwrite f off (b ++ c) := by
  have hlen : off + b.length ≤ (pwrite f off b).length := by
    rw [length_pwrite h]
    exact le_max_right _ _
  refine List.ext_getElem? fun p => ?_
  rw [getElem?_pwrite hlen, getElem?_pwrite h, getElem?_pwrite h, List.length_append]
  by_cases hlo : off + b.length ≤ p
  · rw [if_neg (by omega : ¬(off ≤ p ∧ p < off + b.length))]
    by_cases hhi : p < off + b.length + c.length
    · rw [if_pos ⟨hlo, hhi⟩, if_pos (by omega), List.getElem?_append_right (by omega)]
      congr 1
      omega
    · rw [if_neg (by omega), if_neg (by omega)]
  · rw [if_neg (by omega : ¬(off + b.length ≤ p ∧ _))]
    by_cases hp : off ≤ p
    · rw [if_pos (by omega), if_pos (by omega), List.getElem?_append_left (by omega)]
    · rw [if_neg (by omega), if_neg (by omega)]

theorem Takes.append {src : ℕ → Option UInt8} {b c : List UInt8} (hb : Takes src b)
    (hc : Takes (fun j => src (b.length + j)) c) : Takes src (b ++ c) := by
  intro j hj
  rw [List.length_append] at hj
  by_cases hlt : j < b.length
  · rw [List.getElem?_append_left hlt, hb j hlt]
  · rw [List.getElem?_append_right (by omega), ← hc (j - b.length) (by omega)]
    dsimp only
    congr 1
    omega

theorem Takes.ne_none {src : ℕ → Option UInt8} {bytes : List UInt8} (h : Takes src bytes) {j : ℕ}
    (hj : j < bytes.length) : src j ≠ none := by
  rw [h j hj, List.getElem?_eq_getElem hj]
  exact Option.some_ne_none _

/-! ### `readi` and `writei` -/

variable {s s' : FsState} {a i n fuel k k' : ℕ} {off : ℕ} {dst : ℕ → Bool}
  {src : ℕ → Option UInt8} {r : ℤ} {bytes : List UInt8} {f f' : InodeFile}

theorem copied_eq_iff {g : ℕ → Bool} {m : ℕ} : copied g m = m ↔ ∀ j < m, g j = true :=
  ⟨fun h _ hj => mapped_of_lt_copied (h.symm ▸ hj), copied_eq_of_forall⟩

theorem readi_counts (hs : s.WellFormed) (ha : s.Held a) (hoff : off < 2 ^ 32) (hn : n < 2 ^ 32)
    (h : Returns (readi a dst off n) s (r, bytes) s') :
    s' = s ∧ ((r = -1 ∧ bytes = [] ∧ ¬(off ≤ s.disk.size (s.icache a).inum ∧ off + n < 2 ^ 32)) ∨
      (off ≤ s.disk.size (s.icache a).inum ∧ off + n < 2 ^ 32 ∧
        r = (min n (s.disk.size (s.icache a).inum - off) : ℕ) ∧
        bytes.length = copied dst (min n (s.disk.size (s.icache a).inum - off)))) := by
  have him := hs.image ha
  have hl := hs.live ha
  by_cases hin : off ≤ s.disk.size (s.icache a).inum ∧ off + n < 2 ^ 32
  · obtain ⟨he, rfl⟩ := h.unique <| readi_of_le (by rw [him]; exact hin.1) hin.2
      (by rw [him]; exact hs.files.size _ hl) (by rw [him]; exact hs.files.mapped _ hl) rfl
    simp only [Prod.mk.injEq] at he
    obtain ⟨rfl, rfl⟩ := he
    refine ⟨rfl, .inr ⟨hin.1, hin.2, ?_, ?_⟩⟩
    · rw [him]
    · rw [List.length_map, List.length_range, him]
  · obtain ⟨he, rfl⟩ := h.unique <| readi_of_gt hoff hn (by rw [him]; omega)
    simp only [Prod.mk.injEq] at he
    exact ⟨rfl, .inl ⟨he.1, he.2, hin⟩⟩

theorem readi_honest_iff (hs : s.WellFormed) (ha : s.Held a) (hoff : off < 2 ^ 32)
    (hn : n < 2 ^ 32) (h : Returns (readi a dst off n) s (r, bytes) s') :
    (r ≠ -1 → r = bytes.length) ↔ s.ReadMapped (s.icache a).inum dst off n := by
  obtain ⟨-, ⟨rfl, -, hout⟩ | ⟨hle, hlt, rfl, hlen⟩⟩ := readi_counts hs ha hoff hn h
  · exact iff_of_true (fun h => absurd rfl h) fun h1 h2 => absurd ⟨h1, h2⟩ hout
  · unfold FsState.ReadMapped
    rw [hlen, Nat.cast_inj, eq_comm (a := min _ _), copied_eq_iff]
    constructor
    · exact fun h _ _ => h (by omega)
    · exact fun h _ => h hle hlt

theorem fileread_honest_iff (hs : s.WellFormed) (ha : s.Held f.ip) (hoff : f.off < 2 ^ 32) {n : ℤ}
    (h : Returns (fileread f dst n) s (r, bytes, f') s') :
    (f'.off = f.off + bytes.length ∧ (r = bytes.length ∨ r = -1)) ↔
      (f.readable = true → s.ReadMapped (s.icache f.ip).inum dst f.off (n % 2 ^ 32).toNat) := by
  unfold fileread at h
  split at h
  · rename_i hread
    obtain ⟨he, rfl⟩ := returns_pure.1 h
    cases he
    exact iff_of_true ⟨rfl, .inr rfl⟩ (by simp [hread])
  · rename_i hread
    simp only [returns_bind] at h
    obtain ⟨_, s₁, hlock, ⟨r', b'⟩, s₂, hr, _, s₃, -, h⟩ := h
    obtain ⟨he, rfl⟩ := returns_pure.1 h
    cases he
    -- the lock changes neither the inode nor the disk
    obtain ⟨hwf, hheld, hlk⟩ := hs.ilock hlock
    have hdisk : s₁.disk = s.disk := by
      unfold FsState.disk FsState.blk FsState.dinode FsState.blk
      rw [hlk.store, hlk.sb]
    have hinum : (s₁.icache f.ip).inum = (s.icache f.ip).inum := hlk.inum _ ha.1
    have hmapped : ∀ n, s₁.ReadMapped (s₁.icache f.ip).inum dst f.off n ↔
        s.ReadMapped (s.icache f.ip).inum dst f.off n := fun n => by
      unfold FsState.ReadMapped
      rw [hdisk, hinum]
    have hn : (n % 2 ^ 32).toNat < 2 ^ 32 := by omega
    have hiff := readi_honest_iff hwf hheld hoff hn hr
    obtain ⟨-, ⟨rfl, rfl, -⟩ | ⟨hle, hlt, rfl, hlen⟩⟩ := readi_counts hwf hheld hoff hn hr
    · exact iff_of_true ⟨rfl, .inr rfl⟩ fun _ =>
        (hmapped _).1 (hiff.1 fun h => absurd rfl h)
    · rw [← hmapped, ← hiff]
      have hcopied := copied_le dst
        (min (n % 2 ^ 32).toNat (s₁.disk.size (s₁.icache f.ip).inum - f.off))
      simp only [hread, forall_const]
      split
      · rename_i hpos
        simp only [Int.toNat_natCast]
        omega
      · rename_i hpos
        omega

theorem writei_honest_iff (hs : s.WellFormed) (ha : s.Held a) (hoff : off < 2 ^ 32)
    (hn : n < 2 ^ 32) (h : Returns (writei a src off n) s r s') :
    (r ≠ -1 → ∃ bytes : List UInt8, r = bytes.length ∧ Takes src bytes ∧
      s'.file (s.icache a).inum = pwrite (s.file (s.icache a).inum) off bytes) ↔
    s.WriteMapped (s.icache a).inum src off n := by
  obtain ⟨hno, rfl, -⟩ | ⟨hfits, rfl, e, hwr⟩ := writei_spec hs ha hoff hn h
  · exact iff_of_true (fun h => absurd rfl h) fun hfits => absurd hfits hno
  · constructor
    · intro hhonest _ j hj
      obtain ⟨bytes, hlen, htakes, -⟩ := hhonest (by omega)
      exact htakes.ne_none (by omega)
    · intro hmapped _
      obtain ⟨bytes, hlen, htakes, hfile⟩ := (hwr.stored_file (hs.live ha)).pwrite
        (by rw [FsState.length_file]; exact hfits.1) (hmapped hfits)
      exact ⟨bytes, by rw [hlen], fun j hj => htakes j (hlen ▸ hj), hfile⟩

/-! ### `filewrite` -/

theorem filewriteSpan_of_not_fits (h : ¬Fits s i off (min n maxWrite)) :
    filewriteSpan (s.disk.size i) off n = 0 := by
  unfold Fits at h
  unfold filewriteSpan
  rw [maxWrite_eq] at *
  split
  · rfl
  · rw [if_neg (by omega), Nat.div_eq_of_lt (by omega), Nat.zero_mul]

theorem filewriteSpan_step {size size' : ℕ} (hn : 0 < n) (hle : off ≤ size)
    (hfits : off + min n maxWrite ≤ MAXFILE * BSIZE)
    (hsize : size' = max size (off + min n maxWrite)) :
    filewriteSpan size off n = min n maxWrite +
      filewriteSpan size' (off + min n maxWrite) (n - min n maxWrite) := by
  unfold filewriteSpan
  rw [maxWrite_eq] at *
  have h1 : ¬size < off := by omega
  have h2 : ¬size' < off + min n 3072 := by omega
  rw [if_neg h1, if_neg h2]
  split
  · rw [if_pos (by omega)]
    omega
  · rw [if_neg (by omega), show min n 3072 = 3072 by omega,
      show MAXFILE * BSIZE - off = MAXFILE * BSIZE - (off + 3072) + 3072 by omega,
      Nat.add_div_right _ (by decide)]
    omega

theorem filewriteSpan_zero {size : ℕ} (h : size ≤ MAXFILE * BSIZE) :
    filewriteSpan size off 0 = 0 := by
  unfold filewriteSpan
  split
  · rfl
  · rw [if_pos (by omega)]

/-- The loop of `filewrite` has moved the offset from `off` to `off'` and its count from `k` to
`k'`.  It got to a byte among `span` that is not mapped, or it has written the `span` bytes. -/
def Counted (src : ℕ → Option UInt8) (span off off' k k' : ℕ) (file file' : List UInt8) : Prop :=
  k ≤ k' ∧ off' = off + (k' - k) ∧
  ((∃ j < span, k + j < k' ∧ src (k + j) = none) ∨
    ∃ bytes : List UInt8, bytes.length = span ∧ k' = k + bytes.length ∧
      Takes (fun j => src (k + j)) bytes ∧ file' = pwrite file off bytes)

namespace Counted

variable {span span' off' m e : ℕ} {file file' file'' : List UInt8}

theorem refl (src : ℕ → Option UInt8) (off k : ℕ) (file : List UInt8) :
    Counted src 0 off off k k file file :=
  ⟨le_rfl, by simp, .inr ⟨[], rfl, rfl, fun j hj => absurd hj (Nat.not_lt_zero j),
    (pwrite_nil _ _).symm⟩⟩

theorem step_of_none {j : ℕ} (h : Counted src span' (off + m) off' (k + m) k' file' file'')
    (hj : j < m) (hnone : src (k + j) = none) (hspan : m ≤ span) :
    Counted src span off off' k k' file file'' := by
  obtain ⟨hle, hoff, -⟩ := h
  exact ⟨by omega, by omega, .inl ⟨j, by omega, by omega, hnone⟩⟩

theorem step (h : Counted src span' (off + m) off' (k + m) k' file' file'')
    (hoff : off ≤ file.length) (hst : Stored (fun j => src (k + j)) off m e file file')
    (hsrc : ∀ j < m, src (k + j) ≠ none) (hspan : span = m + span') :
    Counted src span off off' k k' file file'' := by
  obtain ⟨hle, hoff', ⟨j, hj, hlt, hnone⟩ | ⟨bytes, hlen, hk', htakes, hfile⟩⟩ := h
  · exact ⟨by omega, by omega, .inl ⟨m + j, by omega, by omega, by rwa [← Nat.add_assoc]⟩⟩
  · refine ⟨by omega, by omega, ?_⟩
    obtain ⟨piece, hplen, hptakes, hpfile⟩ := hst.pwrite hoff hsrc
    refine .inr ⟨piece ++ bytes, by rw [List.length_append]; omega,
      by rw [List.length_append]; omega, Takes.append (fun j hj => hptakes j (hplen ▸ hj)) ?_, ?_⟩
    · intro j hj
      dsimp only
      rw [hplen, ← Nat.add_assoc]
      exact htakes j hj
    · rw [hfile, hpfile, ← hplen, pwrite_pwrite hoff]

end Counted

/-- The loop of **`filewrite`** gets to a byte that is not mapped, or writes all the bytes it can.
In both cases the offset moves by the bytes that it counts. -/
theorem filewriteLoop_counted (hr : s.Ready f.ip i) (hoff : f.off < 2 ^ 32) (hn : n < 2 ^ 32)
    (hfuel : n ≤ k + fuel) (h : Returns (filewriteLoop src n fuel k f) s (k', f') s') :
    Counted src (filewriteSpan (s.disk.size i) f.off (n - k)) f.off f'.off k k' (s.file i)
      (s'.file i) := by
  -- induction on the transactions to go: a piece that does not fit ends the loop
  induction fuel generalizing s f k with
  | zero =>
    obtain ⟨he, rfl⟩ := returns_pure.1 h
    cases he
    rw [Nat.sub_eq_zero_of_le (by omega), filewriteSpan_zero (hr.wf.files.size i hr.live)]
    exact .refl _ _ _ _
  | succ fuel ih =>
    by_cases hkn : k < n
    · obtain ⟨r, s₁, s₂, s₃, s₄, s₅, h1, h2, h3, h4, h5, h⟩ := returns_filewriteLoop h hkn
      obtain ⟨m, hm⟩ : ∃ m, m = min (n - k) maxWrite := ⟨_, rfl⟩
      have hpos : 0 < m ∧ m ≤ n - k := by
        rw [hm, maxWrite_eq]
        omega
      rw [← hm] at h3 h
      obtain ⟨hr', ⟨rfl, hfile, hno⟩ | ⟨rfl, hfits, e, hst⟩⟩ :=
        hr.transact hoff (by omega) h1 h2 h3 h4 h5
      · obtain ⟨-, he, rfl⟩ | ⟨hr, -⟩ := h
        · cases he
          rw [filewriteSpan_of_not_fits (hm ▸ hno), hfile]
          exact .refl _ _ _ _
        · omega
      · obtain ⟨hr, -, -⟩ | ⟨-, h⟩ := h
        · omega
        · have hlt : f.off + m < 2 ^ 32 := hfits.2.trans_lt (by decide)
          have hrest := ih (f := { f with off := f.off + m }) (k := k + m) hr' hlt (by omega) h
          have hspan : ∀ size', size' = max (s.disk.size i) (f.off + m) →
              filewriteSpan (s.disk.size i) f.off (n - k) =
                m + filewriteSpan size' (f.off + m) (n - k - m) := fun size' hsize => by
            rw [hm] at hsize hfits ⊢
            exact filewriteSpan_step (by omega) hfits.1 hfits.2 hsize
          by_cases hall : ∀ j < m, src (k + j) ≠ none
          · refine hrest.step (by rw [FsState.length_file]; exact hfits.1) hst hall ?_
            rw [← Nat.sub_sub]
            refine hspan _ ?_
            rw [← FsState.length_file, hst.length, hst.eq_of_mapped hall, FsState.length_file]
          · push Not at hall
            obtain ⟨j, hj, hnone⟩ := hall
            exact hrest.step_of_none hj hnone (by rw [hspan _ rfl]; omega)
    · rw [filewriteLoop, if_pos (by omega)] at h
      obtain ⟨he, rfl⟩ := returns_pure.1 h
      cases he
      rw [Nat.sub_eq_zero_of_le (by omega), filewriteSpan_zero (hr.wf.files.size i hr.live)]
      exact .refl _ _ _ _

theorem filewrite_honest_iff (hr : s.Ready f.ip i) (hoff : f.off < 2 ^ 32) {n : ℤ}
    (hn : n < 2 ^ 31) (h : Returns (filewrite f src n) s (r, f') s') :
    (∃ bytes : List UInt8, f'.off = f.off + bytes.length ∧ Takes src bytes ∧
      s'.file i = pwrite (s.file i) f.off bytes ∧ (r = bytes.length ∨ r = -1)) ↔
    s.FilewriteMapped i f src n := by
  unfold filewrite at h
  unfold FsState.FilewriteMapped
  split at h
  · rename_i hw
    obtain ⟨he, rfl⟩ := returns_pure.1 h
    cases he
    exact iff_of_true ⟨[], rfl, fun j hj => absurd hj (Nat.not_lt_zero j),
      (pwrite_nil _ _).symm, .inr rfl⟩ (by simp [hw])
  · rename_i hw
    simp only [returns_bind] at h
    obtain ⟨⟨k, g⟩, t, hloop, h⟩ := h
    obtain ⟨he, rfl⟩ := returns_pure.1 h
    cases he
    obtain ⟨-, hmoved, hcases⟩ := filewriteLoop_counted hr hoff (by omega) (by omega) hloop
    simp only [Nat.sub_zero, Nat.zero_add] at hmoved hcases
    simp only [Bool.not_eq_false] at hw
    simp only [hw, forall_const]
    rcases hcases with ⟨j, hj, hlt, hnone⟩ | ⟨bytes, hlen, rfl, htakes, hfile⟩
    · refine iff_of_false ?_ fun h => h j hj hnone
      rintro ⟨bytes, hlen, htakes, -⟩
      exact htakes.ne_none (by omega) hnone
    · refine iff_of_true ⟨bytes, hmoved, htakes, hfile, ?_⟩ fun j hj => htakes.ne_none (hlen ▸ hj)
      split
      · rename_i he
        exact .inl he.symm
      · exact .inr rfl

/-- **File transfer counts.**  For every file, offset, length and user buffer, the number that
`readi` or `writei` returns, unless it is -1, is that of the bytes it has copied, for `writei` from
the buffer into the file, and `fileread` or `filewrite` moves the offset by the bytes copied and
returns their number or -1, if and only if every byte that the call gets to is mapped. -/
theorem transfer_counts_iff (hs : s.WellFormed) (hlog : s.LogInv) (ha : s.Held f.ip)
    (hoff : f.off < 2 ^ 32) (hi : (s.icache f.ip).inum = i) :
    (∀ dst off n r bytes s', off < 2 ^ 32 → n < 2 ^ 32 →
      Returns (readi f.ip dst off n) s (r, bytes) s' →
      ((r ≠ -1 → r = bytes.length) ↔ s.ReadMapped i dst off n)) ∧
    (∀ src off n r s', off < 2 ^ 32 → n < 2 ^ 32 → Returns (writei f.ip src off n) s r s' →
      ((r ≠ -1 → ∃ bytes : List UInt8, r = bytes.length ∧ Takes src bytes ∧
        s'.file i = pwrite (s.file i) off bytes) ↔ s.WriteMapped i src off n)) ∧
    (∀ dst n r bytes f' s', Returns (fileread f dst n) s (r, bytes, f') s' →
      ((f'.off = f.off + bytes.length ∧ (r = bytes.length ∨ r = -1)) ↔
        (f.readable = true → s.ReadMapped i dst f.off (n % 2 ^ 32).toNat))) ∧
    ∀ src n r f' s', n < 2 ^ 31 → Returns (filewrite f src n) s (r, f') s' →
      ((∃ bytes : List UInt8, f'.off = f.off + bytes.length ∧ Takes src bytes ∧
        s'.file i = pwrite (s.file i) f.off bytes ∧ (r = bytes.length ∨ r = -1)) ↔
        s.FilewriteMapped i f src n) := by
  subst hi
  refine ⟨fun dst off n r bytes s' hoff hn h => readi_honest_iff hs ha hoff hn h,
    fun src off n r s' hoff hn h => writei_honest_iff hs ha hoff hn h,
    fun dst n r bytes f' s' h => fileread_honest_iff hs ha hoff h,
    fun src n r f' s' hn h => filewrite_honest_iff ⟨hs, hlog, ha.1, rfl, hs.live ha⟩ hoff hn h⟩

/-- The file system of `oneFile` between two calls. -/
def idleFile (n : ℕ) : FsState :=
  ((oneFile n).unlocked 0).setLog { (oneFile n).store.log with outstanding := 0 }

/-- The file of `idleFile`, opened for reading and writing, at offset `off`. -/
def idleFd (off : ℕ) : InodeFile := { readable := true, writable := true, ip := 0, off := off }

theorem wellFormed_idleFile {n : ℕ} (h : (oneFile n).Small 1) :
    (idleFile n).WellFormed ∧ (idleFile n).LogInv ∧ (idleFile n).Held 0 :=
  ⟨((wellFormed_oneFile h).unlocked (held_oneFile n).1).setLog _,
    ⟨rfl, rfl, Nat.zero_le _, fun b hb => by cases hb⟩, Int.one_pos, rfl⟩

/-- Two bytes at the end of the file are written from a buffer that is mapped. -/
theorem transfer_counts_two : (idleFile 2).WellFormed ∧ ∃ f' s' bytes,
    Returns (filewrite (idleFd 1022) (fun j => [7, 8][j]?) 2) (idleFile 2) (2, f') s' ∧
      f'.off = 1022 + List.length bytes ∧ s'.file 1 = pwrite ((idleFile 2).file 1) 1022 bytes := by
  obtain ⟨hs, hlog, ha⟩ := wellFormed_idleFile (n := 2) (by decide +kernel)
  obtain ⟨s', h⟩ : ∃ s', Returns (filewrite (idleFd 1022) (fun j => [7, 8][j]?) 2) (idleFile 2)
      (2, idleFd 1024) s' := exists_returns (by decide +kernel)
  obtain ⟨-, -, -, hwrite⟩ := transfer_counts_iff (f := idleFd 1022) (i := 1) hs hlog ha
    (by decide) rfl
  have hspan : filewriteSpan ((idleFile 2).disk.size 1) 1022 2 = 2 := by decide +kernel
  obtain ⟨bytes, hoff, -, hfile, -⟩ := (hwrite _ _ _ _ _ (by decide) h).2 fun _ j hj => by
    rw [show ((2 : ℤ).toNat) = 2 from rfl, show (idleFd 1022).off = 1022 from rfl, hspan] at hj
    simpa using hj
  exact ⟨hs, _, s', bytes, h, hoff, hfile⟩

/-- With two bytes of the buffer mapped, `readi` and `fileread` of 1024 bytes store two of them;
with one byte mapped, `writei` and `filewrite` of two bytes to the end of the file do not make it
any longer.  All return what they were asked for, and the offset ends up beyond the end. -/
theorem transfer_counts_short :
    (idleFile 2).WellFormed ∧ (idleFile 2).LogInv ∧ (idleFile 2).Held 0 ∧
    (∃ s', Returns (readi 0 (fun j => decide (j < 2)) 0 1024) (idleFile 2) (1024, [0, 0]) s') ∧
    (∃ s', Returns (fileread (idleFd 0) (fun j => decide (j < 2)) 1024) (idleFile 2)
      (1024, [0, 0], idleFd 1024) s') ∧
    (∃ s', Returns (writei 0 (fun j => if j < 1 then some 7 else none) 1024 2) (oneFile 2) 2 s' ∧
      s'.disk.size 1 = 1024) ∧
    ∃ s', Returns (filewrite (idleFd 1024) (fun j => if j < 1 then some 7 else none) 2)
      (idleFile 2) (2, idleFd 1026) s' ∧ s'.disk.size 1 = 1024 := by
  obtain ⟨hs, hlog, ha⟩ := wellFormed_idleFile (n := 2) (by decide +kernel)
  exact ⟨hs, hlog, ha, exists_returns (by decide +kernel), exists_returns (by decide +kernel),
    exists_returns_and (by decide +kernel), exists_returns_and (by decide +kernel)⟩

end Xv6Container
