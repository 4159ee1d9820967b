import Xv6Container.Fs.Basic

/-!
# Allocation of disk blocks

What `balloc` and `bfree` do to the state (`returns_balloc`, `returns_bfree`), and to the free map
of a formatted disk:

* `Formatted.used_allocated`, `used_freed` : they change the bit of their block and no other;
* `FsState.Formatted` : the areas of the disk are disjoint and the blocks before the data area
  are marked as used, so that `balloc` never hands them out.
-/

namespace Xv6Container

open Function

namespace FsState

variable (s : FsState) (b c : ℕ) (f : Block) (k : Kernel) (l : Log) (g : Inode → Inode)

/-! ### Parts of a changed state -/

@[simp] theorem setBlk_blk : (s.setBlk b f).blk = update s.blk b f := rfl
@[simp] theorem setBlk_log : (s.setBlk b f).store.log = s.store.log := rfl

@[simp] theorem setKern_blk : (s.setKern k).blk = s.blk := rfl
@[simp] theorem setKern_used : (s.setKern k).used = s.used := rfl
@[simp] theorem setKern_dinode : (s.setKern k).dinode = s.dinode := rfl
@[simp] theorem setKern_log : (s.setKern k).store.log = s.store.log := rfl

@[simp] theorem setLog_blk : (s.setLog l).blk = s.blk := rfl
@[simp] theorem setLog_used : (s.setLog l).used = s.used := rfl
@[simp] theorem setLog_dinode : (s.setLog l).dinode = s.dinode := rfl
@[simp] theorem setLog_log : (s.setLog l).store.log = l := rfl

@[simp] theorem modifyInode_blk : (s.modifyInode c g).blk = s.blk := rfl
@[simp] theorem modifyInode_used : (s.modifyInode c g).used = s.used := rfl
@[simp] theorem modifyInode_dinode : (s.modifyInode c g).dinode = s.dinode := rfl
@[simp] theorem modifyInode_log : (s.modifyInode c g).store.log = s.store.log := rfl

theorem modifyInode_icache :
    (s.modifyInode c g).icache = update s.icache c (g (s.icache c)) := rfl

@[simp] theorem modifyInode_icache_self : (s.modifyInode c g).icache c = g (s.icache c) := by
  simp [modifyInode]

variable {s b c}

theorem modifyInode_icache_of_ne {a : ℕ} (h : a ≠ c) :
    (s.modifyInode c g).icache a = s.icache a := by
  simp [modifyInode, h]

theorem used_congr {s' : FsState} (hsb : s'.sb = s.sb)
    (hblk : s'.blk (s.sb.bblock b) = s.blk (s.sb.bblock b)) : s'.used b = s.used b := by
  unfold used
  rw [hsb, hblk]

theorem dinode_congr {s' : FsState} {i : ℕ} (hsb : s'.sb = s.sb)
    (hblk : s'.blk (s.sb.iblock i) = s.blk (s.sb.iblock i)) : s'.dinode i = s.dinode i := by
  unfold dinode
  rw [hsb, hblk]

/-- The areas of the disk are disjoint, and the blocks before the data area are marked as used. -/
structure Formatted (s : FsState) : Prop where
  sb : s.sb.Ok
  reserved : ∀ b < s.sb.datastart, s.used b = true

theorem freeBlock_eq_some (h : s.freeBlock = some b) : b < s.sb.size ∧ s.used b = false := by
  have hmem := List.mem_of_find?_eq_some h
  have hused := List.find?_some h
  exact ⟨List.mem_range.1 hmem, by simpa using hused⟩

theorem exists_freeBlock (hb : b < s.sb.size) (hu : s.used b = false) :
    ∃ c, s.freeBlock = some c := by
  cases h : s.freeBlock with
  | some c => exact ⟨c, rfl⟩
  | none =>
    have := List.find?_eq_none.1 h b (List.mem_range.2 hb)
    simp [hu] at this

theorem Formatted.le_freeBlock (hf : s.Formatted) (h : s.freeBlock = some b) :
    s.sb.datastart ≤ b := by
  by_contra hlt
  have := hf.reserved b (by omega)
  rw [(freeBlock_eq_some h).2] at this
  cases this

end FsState

variable {s s' : FsState} {a b i : ℕ} {u : Unit}

/-! ### Effects -/

@[simp] theorem returns_bread {f : Block} : Returns (bread b) s f s' ↔ s.blk b = f ∧ s = s' := by
  rw [bread, returns_get_bind, returns_pure]

@[simp] theorem returns_setBuf {f : Block} : Returns (setBuf b f) s u s' ↔ s.setBlk b f = s' :=
  returns_modify

@[simp] theorem returns_inode {ip : Inode} :
    Returns (inode a) s ip s' ↔ s.icache a = ip ∧ s = s' := by
  rw [inode, returns_get_bind, returns_pure]

theorem returns_inode_bind {β : Type} {f : Inode → FsM β} {x : β} :
    Returns (inode a >>= f) s x s' ↔ Returns (f (s.icache a)) s x s' :=
  (returns_inode.2 ⟨rfl, rfl⟩).bind_iff

@[simp] theorem returns_setInode {g : Inode → Inode} :
    Returns (setInode a g) s u s' ↔ s.modifyInode a g = s' :=
  returns_modify

@[simp] theorem returns_setDin {g : Dinode → Dinode} :
    Returns (setDin a g) s u s' ↔ (s.modifyInode a fun ip => { ip with din := g ip.din }) = s' :=
  returns_modify

theorem returns_logWrite :
    Returns (logWrite b) s u s' ↔ ∃ l, s.store.log.logWrite b = .ok l ∧ s.setLog l = s' := by
  rw [logWrite, returns_get_bind]
  cases hl : s.store.log.logWrite b with
  | ok l => simp
  | error e => simp

theorem returns_bzero :
    Returns (bzero b) s u s' ↔
      ∃ l, s.store.log.logWrite b = .ok l ∧ (s.setBlk b fun _ => 0).setLog l = s' := by
  simp only [bzero, returns_bind, returns_setBuf, returns_logWrite]
  constructor
  · rintro ⟨_, _, rfl, l, hl, rfl⟩
    exact ⟨l, hl, rfl⟩
  · rintro ⟨l, hl, rfl⟩
    exact ⟨(), _, rfl, l, hl, rfl⟩

/-- The tables after the accounting of `balloc`. -/
def FsState.charge (s : FsState) : Kernel :=
  if s.kern.started then
    match s.kern.mycont s.cur with
    | none => s.kern
    | some c =>
      (if s.kern.DiskLimited c then (s.kern.kill s.cur (s.kern.proc s.cur).pid).2
        else s.kern).addDisk c 1
  else s.kern

/-- The tables after the accounting of `bfree`. -/
def FsState.credit (s : FsState) : Kernel :=
  if s.kern.started then
    match s.kern.mycont s.cur with
    | none => s.kern
    | some c => s.kern.addDisk c (-1)
  else s.kern

/-- The accounting of `balloc` and `bfree` goes through the container of the caller. -/
def FsState.Accountable (s : FsState) : Prop :=
  s.kern.started = true → ∃ c, s.kern.mycont s.cur = some c

theorem returns_chargeBlock :
    Returns chargeBlock s u s' ↔ s.Accountable ∧ s.setKern s.charge = s' := by
  rw [chargeBlock, returns_get_bind, FsState.charge, FsState.Accountable]
  by_cases hs : s.kern.started = true
  · cases hc : s.kern.mycont s.cur with
    | none => simp [hs]
    | some c => simp [hs]
  · simp [hs, FsState.setKern]

theorem returns_creditBlock :
    Returns creditBlock s u s' ↔ s.Accountable ∧ s.setKern s.credit = s' := by
  rw [creditBlock, returns_get_bind, FsState.credit, FsState.Accountable]
  by_cases hs : s.kern.started = true
  · cases hc : s.kern.mycont s.cur with
    | none => simp [hs]
    | some c => simp [hs]
  · simp [hs, FsState.setKern]

/-- The tables `k'` differ from `k` in the accounts of containers and in the states of processes
only. -/
structure Kernel.Accounts (k k' : Kernel) : Prop where
  started : k'.started = k.started
  container : ∀ q, (k'.proc q).container = (k.proc q).container
  cwd : ∀ q, (k'.proc q).cwd = (k.proc q).cwd
  root : ∀ c, (k'.containers c).root = (k.containers c).root

namespace Kernel.Accounts

theorem refl (k : Kernel) : k.Accounts k := ⟨rfl, fun _ => rfl, fun _ => rfl, fun _ => rfl⟩

theorem trans {k k' k'' : Kernel} (h : k.Accounts k') (h' : k'.Accounts k'') : k.Accounts k'' :=
  ⟨h'.1.trans h.1, fun q => (h'.2 q).trans (h.2 q), fun q => (h'.3 q).trans (h.3 q),
    fun c => (h'.4 c).trans (h.4 c)⟩

theorem addDisk (k : Kernel) (c : Cont) (n : ℤ) : k.Accounts (k.addDisk c n) := by
  refine ⟨rfl, fun q => rfl, fun q => rfl, fun d => ?_⟩
  by_cases h : d = c
  · subst h; simp [Kernel.addDisk]
  · simp [Kernel.addDisk, h]

theorem kill (k : Kernel) (p : Slot) (pid : ℤ) : k.Accounts (k.kill p pid).2 := by
  unfold Kernel.kill
  split
  · exact refl k
  · rename_i r _
    split
    · exact refl k
    · have hproc : ∀ q, ((k.modifyProc r Proc.kill).proc q).container = (k.proc q).container ∧
          ((k.modifyProc r Proc.kill).proc q).cwd = (k.proc q).cwd := fun q => by
        by_cases hq : q = r
        · subst hq; simp [Proc.kill]
        · rw [modifyProc_proc_of_ne _ hq]; exact ⟨rfl, rfl⟩
      exact ⟨rfl, fun q => (hproc q).1, fun q => (hproc q).2, fun _ => rfl⟩

end Kernel.Accounts

theorem FsState.accounts_charge (s : FsState) : s.kern.Accounts s.charge := by
  unfold FsState.charge
  split
  · split
    · exact .refl _
    · refine .trans ?_ (.addDisk _ _ _)
      split
      · exact .kill _ _ _
      · exact .refl _
  · exact .refl _

theorem FsState.Accountable.congr (h : s.Accountable) (hcur : s'.cur = s.cur)
    (hk : s.kern.Accounts s'.kern) : s'.Accountable := by
  intro hst
  rw [hk.started] at hst
  obtain ⟨c, hc⟩ := h hst
  exact ⟨c, by rw [Kernel.mycont, hcur, hk.container]; exact hc⟩

/-- The log has its area of the disk, and what it has recorded lies after that. -/
structure FsState.LogInv (s : FsState) : Prop where
  start : s.store.log.start = s.sb.logstart
  size : s.store.log.size = s.sb.nlog
  region : s.store.log.lh.length ≤ s.store.log.size - 1
  home : ∀ b ∈ s.store.log.lh, s.sb.inodestart ≤ b

/-- What all file system code keeps of its surroundings. -/
structure FsState.Env (s s' : FsState) : Prop where
  sb : s'.sb = s.sb
  cur : s'.cur = s.cur
  kern : s.kern.Accounts s'.kern
  log : s.LogInv → s'.LogInv

namespace FsState

theorem LogInv.logWrite {l : Log} (h : s.LogInv) (hb : s.sb.inodestart ≤ b)
    (hl : s.store.log.logWrite b = .ok l) : (s.setLog l).LogInv := by
  unfold Log.logWrite Log.record at hl
  split_ifs at hl with hbig _ _
  · cases hl
    exact ⟨h.start, h.size, h.region, h.home⟩
  · cases hl
    refine ⟨h.start, h.size, ?_, fun c hc => ?_⟩
    · simp only [setLog_log, List.length_append, List.length_singleton]
      omega
    · rcases List.mem_append.1 hc with hc | hc
      · exact h.home c hc
      · rw [List.mem_singleton.1 hc]
        exact hb

theorem LogInv.congr (h : s.LogInv) (hsb : s'.sb = s.sb) (hlog : s'.store.log = s.store.log) :
    s'.LogInv :=
  ⟨by rw [hlog, hsb]; exact h.start, by rw [hlog, hsb]; exact h.size, by rw [hlog]; exact h.region,
    by rw [hlog, hsb]; exact h.home⟩

namespace Env

theorem refl (s : FsState) : s.Env s := ⟨rfl, rfl, .refl _, id⟩

theorem trans {s'' : FsState} (h : s.Env s') (h' : s'.Env s'') : s.Env s'' :=
  ⟨h'.sb.trans h.sb, h'.cur.trans h.cur, h.kern.trans h'.kern, h'.log ∘ h.log⟩

theorem of_eq (hsb : s'.sb = s.sb) (hcur : s'.cur = s.cur) (hk : s'.kern = s.kern)
    (hlog : s'.store.log = s.store.log) : s.Env s' :=
  ⟨hsb, hcur, hk ▸ .refl _, fun h => h.congr hsb hlog⟩

theorem setBlk (s : FsState) (b : ℕ) (f : Block) : s.Env (s.setBlk b f) := of_eq rfl rfl rfl rfl

theorem modifyInode (s : FsState) (a : ℕ) (g : Inode → Inode) : s.Env (s.modifyInode a g) :=
  of_eq rfl rfl rfl rfl

theorem logWrite {l : Log} (hb : s.sb.inodestart ≤ b) (hl : s.store.log.logWrite b = .ok l) :
    s.Env (s.setLog l) :=
  ⟨rfl, rfl, .refl _, fun h => h.logWrite hb hl⟩

end Env

end FsState

/-- The state after `balloc` has returned `b`, but for the log. -/
def FsState.allocated (s : FsState) (b : ℕ) : FsState :=
  ((s.setKern s.charge).setBlk (s.sb.bblock b) (setBit (s.blk (s.sb.bblock b)) (b % BPB))).setBlk b
    fun _ => 0

theorem returns_balloc :
    Returns balloc s b s' ↔ s.Accountable ∧ s.freeBlock = some b ∧
      ∃ l₁ l, s.store.log.logWrite (s.sb.bblock b) = .ok l₁ ∧ l₁.logWrite b = .ok l ∧
        (s.allocated b).setLog l = s' := by
  rw [balloc, returns_bind]
  simp only [returns_chargeBlock, returns_get_bind]
  constructor
  · rintro ⟨_, _, ⟨hacc, rfl⟩, h⟩
    split at h
    · exact absurd h not_returns_throw
    · rename_i c hc
      simp only [returns_bind, returns_setBuf, returns_logWrite, returns_bzero, returns_pure] at h
      obtain ⟨_, _, rfl, _, _, ⟨l₁, hl1, rfl⟩, _, _, ⟨l, hl, rfl⟩, rfl, rfl⟩ := h
      exact ⟨hacc, hc, l₁, l, hl1, hl, rfl⟩
  · rintro ⟨hacc, hc, l₁, l, hl1, hl, rfl⟩
    refine ⟨(), _, ⟨hacc, rfl⟩, ?_⟩
    rw [show (s.setKern s.charge).freeBlock = some b from hc]
    simp only [returns_bind, returns_setBuf, returns_logWrite, returns_bzero, returns_pure]
    exact ⟨(), _, rfl, (), _, ⟨l₁, hl1, rfl⟩, (), _, ⟨l, hl, rfl⟩, trivial, rfl⟩

/-- The state after `bfree` of block `b`, but for the log. -/
def FsState.freed (s : FsState) (b : ℕ) : FsState :=
  (s.setKern s.credit).setBlk (s.sb.bblock b) (clearBit (s.blk (s.sb.bblock b)) (b % BPB))

theorem returns_bfree :
    Returns (bfree b) s u s' ↔ s.Accountable ∧ s.used b = true ∧
      ∃ l, s.store.log.logWrite (s.sb.bblock b) = .ok l ∧ (s.freed b).setLog l = s' := by
  rw [bfree, returns_bind]
  simp only [returns_creditBlock, returns_get_bind]
  constructor
  · rintro ⟨_, _, ⟨hacc, rfl⟩, h⟩
    split at h
    · rename_i hu
      simp only [returns_bind, returns_setBuf, returns_logWrite] at h
      obtain ⟨_, _, rfl, l, hl, rfl⟩ := h
      exact ⟨hacc, hu, l, hl, rfl⟩
    · exact absurd h not_returns_throw
  · rintro ⟨hacc, hu, l, hl, rfl⟩
    refine ⟨(), _, ⟨hacc, rfl⟩, ?_⟩
    rw [if_pos (show (s.setKern s.credit).used b = true from hu)]
    simp only [returns_bind, returns_setBuf, returns_logWrite]
    exact ⟨(), _, rfl, l, hl, rfl⟩

/-! ### The free map -/

theorem Superblock.bblock_eq_and_mod_eq {sb : Superblock} {b c : ℕ}
    (h : sb.bblock c = sb.bblock b) : c % BPB = b % BPB ↔ c = b := by
  unfold Superblock.bblock BPB at *
  omega

theorem Superblock.bmapstart_le_bblock (sb : Superblock) (b : ℕ) : sb.bmapstart ≤ sb.bblock b :=
  Nat.le_add_left _ _

namespace FsState

theorem Formatted.used_allocated (hf : s.Formatted) (hb : s.sb.datastart ≤ b) {c : ℕ}
    (hc : c < s.sb.size) : (s.allocated b).used c = (decide (c = b) || s.used c) := by
  have hne : s.sb.bblock c ≠ b := by
    have := hf.sb.data c hc
    omega
  simp only [used, allocated, setBlk_blk, setBlk_sb, setKern_sb, setKern_blk]
  rw [update_of_ne hne]
  by_cases h : s.sb.bblock c = s.sb.bblock b
  · rw [h, update_self, bit_setBit]
    simp only [Superblock.bblock_eq_and_mod_eq h]
  · have hcb : c ≠ b := fun e => h (by rw [e])
    rw [update_of_ne h]
    simp [hcb]

theorem used_freed (s : FsState) (b c : ℕ) :
    (s.freed b).used c = (!decide (c = b) && s.used c) := by
  simp only [used, freed, setBlk_blk, setBlk_sb, setKern_sb, setKern_blk]
  by_cases h : s.sb.bblock c = s.sb.bblock b
  · rw [h, update_self, bit_clearBit]
    simp only [Superblock.bblock_eq_and_mod_eq h]
  · have hcb : c ≠ b := fun e => h (by rw [e])
    rw [update_of_ne h]
    simp [hcb]

theorem blk_allocated_self : (s.allocated b).blk b = fun _ => 0 := by
  simp [allocated]

theorem blk_allocated_of_ne {c : ℕ} (hb : c ≠ b) (hbb : c ≠ s.sb.bblock b) :
    (s.allocated b).blk c = s.blk c := by
  simp [allocated, hb, hbb]

section

variable (hf : s.Formatted)

include hf

theorem Formatted.allocated (hb : s.sb.datastart ≤ b) : (s.allocated b).Formatted where
  sb := hf.sb
  reserved c hc := by
    have hlt : c < s.sb.size := lt_of_lt_of_le hc (Nat.sub_le _ _)
    rw [hf.used_allocated hb hlt, hf.reserved c hc, Bool.or_true]

theorem Formatted.freed (hb : s.sb.datastart ≤ b) : (s.freed b).Formatted where
  sb := hf.sb
  reserved c hc := by
    have hc : c < s.sb.datastart := hc
    have hne : c ≠ b := by omega
    rw [used_freed, hf.reserved c hc]
    simp [hne]

theorem Formatted.inodestart_le (hi : i < s.sb.ninodes) : s.sb.inodestart ≤ s.sb.bmapstart := by
  have h := hf.sb.bmap i hi
  have : s.sb.inodestart ≤ s.sb.iblock i := Nat.le_add_left _ _
  omega

theorem Formatted.env_allocated (hi : i < s.sb.ninodes) (hb : s.sb.datastart ≤ b) {l₁ l : Log}
    (hl1 : s.store.log.logWrite (s.sb.bblock b) = .ok l₁) (hl : l₁.logWrite b = .ok l) :
    s.Env ((s.allocated b).setLog l) := by
  have h := hf.inodestart_le hi
  have h1 : s.sb.inodestart ≤ s.sb.bblock b := h.trans (s.sb.bmapstart_le_bblock b)
  have h2 : s.sb.inodestart ≤ b := (h.trans hf.sb.free).trans hb
  refine ⟨rfl, rfl, s.accounts_charge, fun hlog => ?_⟩
  exact ((hlog.logWrite h1 hl1).logWrite h2 hl).congr rfl rfl

theorem Formatted.setLog (l : Log) : (s.setLog l).Formatted := ⟨hf.1, hf.2⟩

theorem Formatted.modifyInode (a : ℕ) (g : Inode → Inode) : (s.modifyInode a g).Formatted :=
  ⟨hf.1, hf.2⟩

end

end FsState

end Xv6Container
