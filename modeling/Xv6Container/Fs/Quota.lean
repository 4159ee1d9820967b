import Xv6Container.Fs.Alloc
import Xv6Container.Mem.Quota
import Xv6Container.Proc.Names

/-!
# Disk quotas

The accounts that `balloc` and `bfree` keep against the blocks that are really charged.  The
machine `disk` extends the process system by the block requests of running processes and keeps a
ledger of the blocks charged to each container and not freed since.  Everything else that file
system code does is a step that leaves the free map and the tables alone.

* `diskused_exact` : in a run of fair steps the accounts are right in every state, and the next step
  obeys the quota exactly when it is fair;
* `diskused_overruns` : a container at its limit gets a block, and nobody is killed for it.
-/

namespace Xv6Container

namespace Kernel

/-- The blocks used by each container. -/
def diskused (s : Kernel) (c : Cont) : ℤ := (s.containers c).diskused

/-- The block limit of each container. -/
def disklimit (s : Kernel) (c : Cont) : ℤ := (s.containers c).disklimit

/-- The container whose account a step clears, and the limit it gives to it. -/
def clearsDisk (s : Kernel) : Event → Option (Cont × ℤ)
  | .call _ (.control (.cinit _ _ _ _ maxDisk _)) => s.freeCont.map fun d => (d, maxDisk)
  | _ => none

variable {s s' : Kernel} {c d : Cont}

theorem diskused_addDisk (n : ℤ) :
    (s.addDisk c n).diskused d = s.diskused d + if d = c then n else 0 := by
  by_cases h : d = c
  · subst h; simp [diskused, addDisk]
  · simp [diskused, addDisk, h]

theorem disklimit_addDisk (n : ℤ) : (s.addDisk c n).disklimit d = s.disklimit d := by
  by_cases h : d = c
  · subst h; simp [disklimit, addDisk]
  · simp [disklimit, addDisk, h]

theorem kill_started (p : Slot) (pid : ℤ) : (s.kill p pid).2.started = s.started := by
  unfold kill
  split
  · rfl
  · split <;> rfl

theorem disk_of_step {e : Event} (h : system.next s e = some s') (d : Cont) :
    (∃ maxDisk, s.clearsDisk e = some (d, maxDisk) ∧ s'.diskused d = 0 ∧ s'.disklimit d = maxDisk) ∨
    (∀ maxDisk, s.clearsDisk e ≠ some (d, maxDisk)) ∧ s'.diskused d = s.diskused d ∧
      s'.disklimit d = s.disklimit d := by
  by_cases hd : ∃ maxDisk, s.clearsDisk e = some (d, maxDisk)
  · obtain ⟨maxDisk, hd⟩ := hd
    refine .inl ⟨maxDisk, hd, ?_⟩
    unfold clearsDisk at hd
    split at hd
    · simp only [Option.map_eq_some_iff, Prod.mk.injEq] at hd
      obtain ⟨_, hf, rfl, rfl⟩ := hd
      obtain ⟨-, h⟩ := next_call_iff.1 h
      cases h
      constructor <;> simp [diskused, disklimit, cinit, hf]
    · cases hd
  · push Not at hd
    refine .inr ⟨hd, ?_⟩
    obtain ⟨_, hf, _, _, _, _, maxDisk, _, rfl⟩ | hk := keepsCont_of_step h d
    · exact absurd (by simp [clearsDisk, hf]) (hd maxDisk)
    · unfold diskused disklimit
      rw [hk.fields]
      exact ⟨rfl, rfl⟩

end Kernel

/-- The file system with a ledger of the blocks charged to each container. -/
structure DiskState where
  fs : FsState
  charged : Ledger Cont ℕ

/-- A step of the machine `disk`. -/
inductive DiskEvent where
  /-- Process `p` calls `balloc`. -/
  | balloc (p : Slot)
  /-- Process `p` calls `bfree` on the block `b` of an inode that it truncates. -/
  | bfree (p : Slot) (b : ℕ)
  /-- Other file system code changes buffers, the log and cached inodes. -/
  | file (store : LogState) (icache : ℕ → Inode)
  /-- A step of the process system. -/
  | sys (e : Event)

namespace DiskState

variable (t : DiskState)

/-- `balloc` by `p`; the block it returns is charged to the container of `p`. -/
def balloc (p : Slot) : Except Stop DiskState := do
  let (b, fs) ← Xv6Container.balloc.run { t.fs with cur := p }
  match t.fs.kern.mycont p with
  | some c => return ⟨fs, t.charged.charge c b⟩
  | none => return ⟨fs, t.charged⟩

/-- `bfree` by `p`; the block is no longer charged to anybody. -/
def bfree (p : Slot) (b : ℕ) : Except Stop DiskState := do
  let (_, fs) ← (Xv6Container.bfree b).run { t.fs with cur := p }
  return ⟨fs, t.charged.release b⟩

/-- Every `diskused` but that of the root counts the blocks charged to its container, and is
within its limit. -/
def Balanced : Prop :=
  ∀ c, c ≠ root → t.fs.kern.diskused c = (t.charged c).card ∧
    t.fs.kern.diskused c ≤ t.fs.kern.disklimit c

/-- What a container at its limit should meet with when its process `p` calls `balloc`: no block
is allocated, and `p` is killed and nobody else. -/
def Refuses (p : Slot) (t' : DiskState) : Prop :=
  t'.charged = t.charged ∧ (∀ b < t.fs.sb.size, t'.fs.used b = t.fs.used b) ∧
    ∀ q, (t'.fs.kern.proc q).killed = if q = p then true else (t.fs.kern.proc q).killed

/-- The step to `t'` obeys the quota. -/
def Obeys : DiskEvent → DiskState → Prop
  | .balloc p, t' => t'.Balanced ∧
    ∀ c, t.fs.kern.mycont p = some c → t.fs.kern.DiskLimited c → t.Refuses p t'
  | _, t' => t'.Balanced

/-- The steps that obey the quota: a `balloc` by a container below its limit, a `bfree` of a block
from the container it is charged to (from the root, of a block charged to no other container), and
a `cinit` that takes a container to which nothing is charged any more and gives it a limit that is
not negative. -/
def Fair : DiskEvent → Prop
  | .balloc p => ∀ c, t.fs.kern.mycont p = some c → ¬ t.fs.kern.DiskLimited c
  | .bfree p b => ∀ c, c ≠ root → (b ∈ t.charged c ↔ t.fs.kern.mycont p = some c)
  | .file _ _ => True
  | .sys e => ∀ d maxDisk, t.fs.kern.clearsDisk e = some (d, maxDisk) → d ≠ root →
      t.charged d = ∅ ∧ 0 ≤ maxDisk

/-- What makes the ledger a true account: the charged blocks are data blocks in use, and none is
charged twice. -/
structure Sound : Prop where
  started : t.fs.kern.started = true
  formatted : t.fs.Formatted
  inUse : ∀ c, ∀ b ∈ t.charged c,
    t.fs.sb.datastart ≤ b ∧ b < t.fs.sb.size ∧ t.fs.used b = true
  exclusive : Ledger.Exclusive t.charged

/-- A formatted disk of which nothing has been charged yet. -/
structure Init : Prop where
  started : t.fs.kern.started = true
  formatted : t.fs.Formatted
  charged : ∀ c, t.charged c = ∅
  diskused : ∀ c, c ≠ root → t.fs.kern.diskused c = 0
  disklimit : ∀ c, c ≠ root → 0 ≤ t.fs.kern.disklimit c

end DiskState

/-- **The disk allocation system.** -/
def disk : Machine DiskState DiskEvent where
  next t
    | .balloc p => if t.fs.kern.OnCpu p then (t.balloc p).toOption else none
    | .bfree p b =>
      if t.fs.kern.OnCpu p ∧ t.fs.sb.datastart ≤ b ∧ b < t.fs.sb.size then (t.bfree p b).toOption
      else none
    | .file store icache =>
      let fs := { t.fs with store := store, icache := icache }
      if ∀ b < t.fs.sb.size, fs.used b = t.fs.used b then some { t with fs := fs } else none
    | .sys e => (system.next t.fs.kern e).map fun kern => { t with fs := t.fs.setKern kern }

namespace DiskState

variable {t t' : DiskState}

theorem Init.sound (h : t.Init) : t.Sound where
  started := h.started
  formatted := h.formatted
  inUse c b hb := by simp [h.charged c] at hb
  exclusive k _ a hk := by simp [h.charged k] at hk

theorem Init.balanced (h : t.Init) : t.Balanced := fun c hc =>
  ⟨by simp [h.charged c, h.diskused c hc], by rw [h.diskused c hc]; exact h.disklimit c hc⟩

variable {p : Slot} {b : ℕ} {l : DiskEvent}

theorem balloc_cases (hs : t.Sound) (h : t.balloc p = .ok t') :
    ∃ (c : Cont) (b : ℕ) (k : Kernel) (l : Log), t.fs.kern.mycont p = some c ∧
      t.fs.freeBlock = some b ∧ k.containers = t.fs.kern.containers ∧
      k.started = t.fs.kern.started ∧
      t' = ⟨((FsState.allocated { t.fs with cur := p } b).setKern (k.addDisk c 1)).setLog l,
        t.charged.charge c b⟩ := by
  obtain ⟨⟨b, fs⟩, hb, h⟩ := bind_eq_ok.1 h
  obtain ⟨hacc, hfree, l₁, l, -, -, rfl⟩ := returns_balloc.1 hb
  obtain ⟨c, hc⟩ := hacc hs.started
  replace hc : t.fs.kern.mycont p = some c := hc
  have hst : t.fs.kern.started = true := hs.started
  rw [hc] at h
  cases h
  refine ⟨c, b, if t.fs.kern.DiskLimited c then
    (t.fs.kern.kill p (t.fs.kern.proc p).pid).2 else t.fs.kern, l, hc, hfree, ?_, ?_, ?_⟩
  · split
    · exact (Kernel.quiet_kill _ _).containers
    · rfl
  · split
    · exact Kernel.kill_started _ _
    · rfl
  · simp [FsState.allocated, FsState.charge, hst, hc, FsState.setKern, FsState.setBlk]

theorem bfree_cases (hs : t.Sound) (h : t.bfree p b = .ok t') :
    ∃ c l, t.fs.kern.mycont p = some c ∧
      t' = ⟨((FsState.freed { t.fs with cur := p } b).setKern (t.fs.kern.addDisk c (-1))).setLog l,
        t.charged.release b⟩ := by
  obtain ⟨⟨u, fs⟩, hb, h⟩ := bind_eq_ok.1 h
  obtain ⟨hacc, -, l, -, rfl⟩ := returns_bfree.1 hb
  obtain ⟨c, hc⟩ := hacc hs.started
  replace hc : t.fs.kern.mycont p = some c := hc
  have hst : t.fs.kern.started = true := hs.started
  cases h
  refine ⟨c, l, hc, ?_⟩
  simp [FsState.freed, FsState.credit, hst, hc, FsState.setKern, FsState.setBlk]

theorem balanced_balloc_iff (hs : t.Sound) (hb : t.Balanced) (h : t.balloc p = .ok t') :
    t'.Balanced ↔ t.Fair (.balloc p) := by
  obtain ⟨c, b, k, l, hc, hfree, hk, -, rfl⟩ := balloc_cases hs h
  have hnew : b ∉ t.charged c := fun hm => by
    have hu := (hs.inUse c b hm).2.2
    rw [(FsState.freeBlock_eq_some hfree).2] at hu
    cases hu
  have hused : ∀ d, (k.addDisk c 1).diskused d =
      t.fs.kern.diskused d + if d = c then 1 else 0 := fun d => by
    rw [Kernel.diskused_addDisk, Kernel.diskused, hk, Kernel.diskused]
  have hlimit : ∀ d, (k.addDisk c 1).disklimit d = t.fs.kern.disklimit d := fun d => by
    rw [Kernel.disklimit_addDisk, Kernel.disklimit, hk, Kernel.disklimit]
  simp only [Balanced, Fair, FsState.setLog_kern, FsState.setKern_kern, hused, hlimit,
    Ledger.card_charge hnew, hc, Option.some.injEq, forall_eq']
  constructor
  · rintro h' ⟨hroot, hle⟩
    have hne : c ≠ root := by simpa [isroot] using hroot
    have h1 := (h' c hne).2
    rw [if_pos rfl] at h1
    have h2 : t.fs.kern.disklimit c ≤ t.fs.kern.diskused c := hle
    omega
  · intro hlim d hd
    refine ⟨by rw [(hb d hd).1], ?_⟩
    by_cases hdc : d = c
    · subst hdc
      have : ¬ t.fs.kern.disklimit d ≤ t.fs.kern.diskused d := fun hle =>
        hlim ⟨by simpa [isroot] using hd, hle⟩
      rw [if_pos rfl]
      omega
    · rw [if_neg hdc, add_zero]
      exact (hb d hd).2

theorem balanced_bfree_iff (hs : t.Sound) (hb : t.Balanced)
    (h : t.bfree p b = .ok t') : t'.Balanced ↔ t.Fair (.bfree p b) := by
  obtain ⟨c, l, hc, rfl⟩ := bfree_cases hs h
  simp only [Balanced, Fair, FsState.setLog_kern, FsState.setKern_kern, Kernel.diskused_addDisk,
    Kernel.disklimit_addDisk, Ledger.card_release, hc, Option.some.injEq]
  refine forall₂_congr fun d hd => ?_
  obtain ⟨hcount, hle⟩ := hb d hd
  by_cases hdc : d = c <;> by_cases hbd : b ∈ t.charged d
  · subst hdc; simp [hbd]; omega
  · subst hdc; simp [hbd]; omega
  · simp [hdc, hbd, Ne.symm hdc]; omega
  · simp [hdc, hbd, Ne.symm hdc]; omega

theorem balanced_sys_iff {e : Event} {kern : Kernel} (hb : t.Balanced)
    (h : system.next t.fs.kern e = some kern) :
    (⟨t.fs.setKern kern, t.charged⟩ : DiskState).Balanced ↔ t.Fair (.sys e) := by
  simp only [Balanced, Fair, FsState.setKern_kern]
  constructor
  · intro h' d maxDisk hd hroot
    obtain ⟨m, hm, h0, hlim⟩ | ⟨hne, -⟩ := Kernel.disk_of_step h d
    · obtain ⟨hcount, hle⟩ := h' d hroot
      rw [h0] at hcount hle
      rw [hlim] at hle
      obtain rfl : m = maxDisk := by simpa using hm.symm.trans hd
      exact ⟨Finset.card_eq_zero.1 (by omega), hle⟩
    · exact absurd hd (hne maxDisk)
  · intro hfair d hroot
    obtain ⟨m, hm, h0, hlim⟩ | ⟨-, hused, hlim⟩ := Kernel.disk_of_step h d
    · obtain ⟨hempty, hle⟩ := hfair d m hm hroot
      rw [h0, hlim, hempty]
      exact ⟨rfl, hle⟩
    · rw [hused, hlim]
      exact hb d hroot

/-- **Exactness of the condition**, for one step: it obeys the quota exactly when it is fair. -/
theorem obeys_step_iff (hs : t.Sound) (hb : t.Balanced)
    (h : disk.next t l = some t') : t.Obeys l t' ↔ t.Fair l := by
  cases l with
  | balloc p =>
    simp only [disk, Option.ite_none_right_eq_some, toOption_eq_some] at h
    rw [← balanced_balloc_iff hs hb h.2]
    refine ⟨fun ho => ho.1, fun hb' => ⟨hb', fun c hc hl => ?_⟩⟩
    exact absurd hl ((balanced_balloc_iff hs hb h.2).1 hb' c hc)
  | bfree p b =>
    simp only [disk, Option.ite_none_right_eq_some, toOption_eq_some] at h
    exact balanced_bfree_iff hs hb h.2
  | file store icache =>
    simp only [disk, Option.ite_none_right_eq_some, Option.some.injEq] at h
    obtain ⟨-, rfl⟩ := h
    exact iff_of_true hb trivial
  | sys e =>
    simp only [disk, Option.map_eq_some_iff] at h
    obtain ⟨kern, hk, rfl⟩ := h
    exact balanced_sys_iff hb hk

theorem Obeys.balanced (h : t.Obeys l t') : t'.Balanced := by
  cases l with
  | balloc p => exact h.1
  | bfree p b => exact h
  | file store icache => exact h
  | sys e => exact h

theorem Sound.balloc (hs : t.Sound) (h : t.balloc p = .ok t') : t'.Sound := by
  obtain ⟨c, b, k, l, hc, hfree, -, hk, rfl⟩ := balloc_cases hs h
  have hlow : t.fs.sb.datastart ≤ b := hs.formatted.le_freeBlock hfree
  obtain ⟨hlt, hfree⟩ := FsState.freeBlock_eq_some hfree
  have hfmt : FsState.Formatted { t.fs with cur := p } := ⟨hs.formatted.1, hs.formatted.2⟩
  have hbits : ∀ d < t.fs.sb.size, (FsState.allocated { t.fs with cur := p } b).used d =
      (decide (d = b) || t.fs.used d) := fun d hd => hfmt.used_allocated hlow hd
  refine ⟨hk.trans hs.started, ⟨hs.formatted.1, (hfmt.allocated hlow).2⟩, fun d b' hb' => ?_,
    hs.exclusive.charge fun d hd => ?_⟩
  · obtain ⟨-, rfl⟩ | hb' := Ledger.mem_charge.1 hb'
    · exact ⟨hlow, hlt, (hbits b' hlt).trans (by simp)⟩
    · obtain ⟨h1, h2, h3⟩ := hs.inUse d b' hb'
      exact ⟨h1, h2, (hbits b' h2).trans (by simp [h3])⟩
  · have := (hs.inUse d b hd).2.2
    rw [hfree] at this
    cases this

theorem Sound.bfree (hs : t.Sound) (hb : t.fs.sb.datastart ≤ b)
    (h : t.bfree p b = .ok t') : t'.Sound := by
  obtain ⟨c, l, hc, rfl⟩ := bfree_cases hs h
  have hfmt : FsState.Formatted { t.fs with cur := p } := ⟨hs.formatted.1, hs.formatted.2⟩
  refine ⟨hs.started, ⟨hs.formatted.1, (hfmt.freed hb).2⟩, fun d b' hb' => ?_,
    hs.exclusive.release⟩
  obtain ⟨hne, hb'⟩ := Ledger.mem_release.1 hb'
  obtain ⟨h1, h2, h3⟩ := hs.inUse d b' hb'
  have hbit : (FsState.freed { t.fs with cur := p } b).used b' =
      (!decide (b' = b) && t.fs.used b') := FsState.used_freed _ b b'
  exact ⟨h1, h2, hbit.trans (by simpa [hne] using h3)⟩

theorem Sound.step (hs : t.Sound) (h : disk.next t l = some t') : t'.Sound := by
  cases l with
  | balloc p =>
    simp only [disk, Option.ite_none_right_eq_some, toOption_eq_some] at h
    exact hs.balloc h.2
  | bfree p b =>
    simp only [disk, Option.ite_none_right_eq_some, toOption_eq_some] at h
    exact hs.bfree h.1.2.1 h.2
  | file store icache =>
    simp only [disk, Option.ite_none_right_eq_some, Option.some.injEq] at h
    obtain ⟨hused, rfl⟩ := h
    refine ⟨hs.started, ⟨hs.formatted.1, fun b hb => ?_⟩, fun c b hb => ?_, hs.exclusive⟩
    · exact (hused b (lt_of_lt_of_le hb (Nat.sub_le _ _))).trans (hs.formatted.2 b hb)
    · obtain ⟨h1, h2, h3⟩ := hs.inUse c b hb
      exact ⟨h1, h2, (hused b h2).trans h3⟩
  | sys e =>
    simp only [disk, Option.map_eq_some_iff] at h
    obtain ⟨kern, hk, rfl⟩ := h
    exact ⟨started_of_step hs.started hk, ⟨hs.formatted.1, hs.formatted.2⟩, hs.inUse,
      hs.exclusive⟩

end DiskState

/-- **Disk accounts.**  From a formatted disk of which nothing is charged, every run of fair steps
keeps `diskused` of each container but the root equal to the number of blocks charged to it and
not freed since, not negative and within its limit; and of all steps that can come next, exactly
the fair ones obey the quota. -/
theorem diskused_exact {t₀ t : DiskState} {ls : List DiskEvent} (h0 : t₀.Init)
    (hrun : disk.Run DiskState.Fair t₀ ls t) :
    (∀ c, c ≠ root → t.fs.kern.diskused c = (t.charged c).card ∧ 0 ≤ t.fs.kern.diskused c ∧
      t.fs.kern.diskused c ≤ t.fs.kern.disklimit c) ∧
    ∀ l t', disk.next t l = some t' → (t.Obeys l t' ↔ t.Fair l) := by
  obtain ⟨hs, hb⟩ : t.Sound ∧ t.Balanced := by
    refine hrun.invariant (I := fun t => t.Sound ∧ t.Balanced) ⟨h0.sound, h0.balanced⟩ ?_
    rintro t l t' ⟨hs, hb⟩ hfair hstep
    exact ⟨hs.step hstep, ((DiskState.obeys_step_iff hs hb hstep).2 hfair).balanced⟩
  refine ⟨fun c hc => ?_, fun l t' hstep => DiskState.obeys_step_iff hs hb hstep⟩
  obtain ⟨hcount, hle⟩ := hb c hc
  exact ⟨hcount, by rw [hcount]; exact Int.natCast_nonneg _, hle⟩

/-- A formatted disk with the two data blocks 8 and 9, both free, in the middle of a call. -/
def twoBlocks (k : Kernel) : FsState where
  kern := k
  cur := 0
  sb := { size := 10, nblocks := 2, ninodes := 1, nlog := 4, logstart := 2, inodestart := 6,
          bmapstart := 7 }
  store :=
    { disk := fun _ _ => 0
      cache := fun b i => if b = 7 ∧ i = 0 then 0xff else 0
      log := { start := 2, size := 4, outstanding := 1, committing := false, lh := [] }
      writes := [] }
  icache := fun _ =>
    { dev := 0, inum := 0, ref := 0, locked := false, valid := false, din := Dinode.zero }

theorem formatted_twoBlocks (k : Kernel) : (twoBlocks k).Formatted where
  sb := by
    constructor <;> simp only [twoBlocks, Superblock.iblock, Superblock.bblock,
      Superblock.datastart]
    all_goals decide
  reserved b hb := by
    have h : ∀ b < 8, bit (fun i => if i = 0 then 0xff else 0) b = true := by decide
    have hb : b < 8 := hb
    have hblk : (twoBlocks k).used b = bit (fun i => if i = 0 then 0xff else 0) b := by
      have hd : b / 8192 = 0 := by omega
      have hm : b % 8192 = b := by omega
      simp [FsState.used, FsState.blk, twoBlocks, Superblock.bblock, hd, hm]
    exact hblk.trans (h b hb)

theorem init_twoBlocks {free : List ℕ} {kernelEnd : ℕ} {k : Kernel}
    (h : boot free kernelEnd = .ok k) : (⟨twoBlocks k, fun _ => ∅⟩ : DiskState).Init := by
  refine ⟨?_, formatted_twoBlocks k, fun _ => rfl, fun c hc => ?_, fun c hc => ?_⟩ <;>
    rw [boot_eq_ok h]
  · rfl
  · simp [twoBlocks, Kernel.diskused, hc]
  · simp [twoBlocks, Kernel.disklimit, hc]

/-- The process in slot 1 makes a container with a limit of `maxDisk` blocks and two children in
it, of which the first needs a disk block. -/
def quotaRun (maxDisk : ℤ) : List DiskEvent :=
  [.sys (.dispatch 0 root 0), .sys (.call 0 (.fork .ok)), .sys (.dispatch 1 root 1),
    .sys (.call 1 (.control (.cinit (chars "web") (chars ".") 5 100 maxDisk (some 0)))),
    .sys (.call 1 (.fork .ok)), .sys (.call 1 (.fork .ok)), .sys (.dispatch 2 1 2), .balloc 2]

/-- Below the limit the block is counted. -/
theorem diskused_exact_below : ∃ k t, boot [] 0x80000000 = .ok k ∧
    disk.Run DiskState.Fair ⟨twoBlocks k, fun _ => ∅⟩ (quotaRun 100) t ∧
    t.fs.kern.diskused 1 = (t.charged 1).card := by
  have hrun : ∃ k t, boot [] 0x80000000 = .ok k ∧
      disk.Run DiskState.Fair ⟨twoBlocks k, fun _ => ∅⟩ (quotaRun 100) t := by
    refine ⟨_, _, rfl, .cons ?_ rfl (.cons ?_ rfl (.cons ?_ rfl (.cons ?_ rfl (.cons ?_ rfl
      (.cons ?_ rfl (.cons ?_ rfl (.cons ?_ rfl (.nil _))))))))⟩
    · rintro d maxDisk ⟨⟩
    · rintro d maxDisk ⟨⟩
    · rintro d maxDisk ⟨⟩
    · rintro d maxDisk ⟨⟩ -
      exact ⟨rfl, by decide⟩
    · rintro d maxDisk ⟨⟩
    · rintro d maxDisk ⟨⟩
    · rintro d maxDisk ⟨⟩
    · rintro c ⟨⟩
      decide
  obtain ⟨k, t, hb, hrun⟩ := hrun
  exact ⟨k, t, hb, hrun, ((diskused_exact (init_twoBlocks hb) hrun).1 1 (by decide)).1⟩

/-- At its limit of no blocks at all, the container gets a block.  The process that asks for it
has `pid` 3; what is killed is the other child, which has `vpid` 3 in the container. -/
theorem diskused_overruns :
    ((boot [] 0x80000000).toOption.bind fun k =>
      (disk.run ⟨twoBlocks k, fun _ => ∅⟩ (quotaRun 0)).map fun t =>
        (t.charged 1, t.fs.kern.diskused 1, t.fs.kern.disklimit 1, (t.fs.kern.proc 2).killed,
          (t.fs.kern.proc 3).killed)) = some ({8}, 1, 0, false, true) := by
  decide +kernel

end Xv6Container
