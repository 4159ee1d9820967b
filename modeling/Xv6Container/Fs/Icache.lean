import Xv6Container.Fs.File
import Xv6Container.Fs.Touch

/-!
# The inode cache

What the functions that get, lock, unlock and drop references to inodes do to the cache, as
equations on the state (`returns_iget`, ...), and that they keep the file system well formed
(`WellFormed.iget`, ...).
-/

namespace Xv6Container

namespace FsState

variable (s : FsState) (a : ℕ)

/-- Entry `a` with `d` more references. -/
def addRef (d : ℤ) : FsState := s.modifyInode a fun ip => { ip with ref := ip.ref + d }

/-- Entry `a` taken for inode `inum`. -/
def recycle (dev inum : ℕ) : FsState :=
  s.modifyInode a fun ip => { ip with dev := dev, inum := inum, ref := 1, valid := false }

/-- Entry `a` locked and read from disk. -/
@[simp]
def locked : FsState :=
  s.modifyInode a fun ip =>
    { ip with locked := true, valid := true, din := if ip.valid then ip.din else s.dinode ip.inum }

/-- Entry `a` unlocked. -/
def unlocked : FsState := s.modifyInode a fun ip => { ip with locked := false }

/-- `iput` of entry `a` frees the inode. -/
def Last : Prop :=
  (s.icache a).ref = 1 ∧ (s.icache a).valid = true ∧ (s.icache a).din.nlink = 0

instance : Decidable (s.Last a) := inferInstanceAs (Decidable (_ ∧ _ ∧ _))

end FsState

variable {s s' : FsState} {a b dev inum : ℕ} {u : Unit} {d : ℤ}

/-! ### Effects -/

/-- Entry `a` is in use for inode `inum`. -/
def FsState.Holds (s : FsState) (a dev inum : ℕ) : Prop :=
  0 < (s.icache a).ref ∧ (s.icache a).dev = dev ∧ (s.icache a).inum = inum

instance : Decidable (s.Holds a dev inum) := inferInstanceAs (Decidable (_ ∧ _ ∧ _))

theorem returns_iget (h : Returns (iget dev inum) s a s') : a < NINODE ∧
    ((s.Holds a dev inum ∧ s.addRef a 1 = s') ∨
      ((∀ b < NINODE, ¬ s.Holds b dev inum) ∧ (s.icache a).ref = 0 ∧
        s.recycle a dev inum = s')) := by
  simp only [iget, returns_get_bind] at h
  split at h
  · rename_i b hb
    simp only [returns_bind, returns_setInode, returns_pure] at h
    obtain ⟨_, _, rfl, rfl, rfl⟩ := h
    have hmem := List.mem_range.1 (List.mem_of_find?_eq_some hb)
    have hp := List.find?_some hb
    exact ⟨hmem, .inl ⟨by simpa [FsState.Holds] using hp, rfl⟩⟩
  · rename_i hnone
    have hno : ∀ b < NINODE, ¬ s.Holds b dev inum := fun b hb hh => by
      have := List.find?_eq_none.1 hnone b (List.mem_range.2 hb)
      exact this (by simpa [FsState.Holds] using hh)
    split at h
    · exact absurd h not_returns_throw
    · rename_i b hb
      simp only [returns_bind, returns_setInode, returns_pure] at h
      obtain ⟨_, _, rfl, rfl, rfl⟩ := h
      have hmem := List.mem_range.1 (List.mem_of_find?_eq_some hb)
      have hp := List.find?_some hb
      exact ⟨hmem, .inr ⟨hno, by simpa using hp, rfl⟩⟩

theorem returns_idup : Returns (idup a) s b s' ↔ a = b ∧ s.addRef a 1 = s' := by
  simp only [idup, returns_bind, returns_setInode, returns_pure]
  constructor
  · rintro ⟨_, _, rfl, rfl, rfl⟩
    exact ⟨rfl, rfl⟩
  · rintro ⟨rfl, rfl⟩
    exact ⟨(), _, rfl, rfl, rfl⟩

theorem returns_ilock (h : Returns (ilock a) s u s') : 1 ≤ (s.icache a).ref ∧
    (s.icache a).locked = false ∧
    ((s.icache a).valid = false → (s.dinode (s.icache a).inum).type ≠ 0) ∧ s.locked a = s' := by
  simp only [ilock, returns_get_bind] at h
  split at h
  · exact absurd h not_returns_throw
  · rename_i href
    split at h
    · exact absurd h not_returns_throw
    · rename_i hlock
      refine ⟨by omega, by simpa using hlock, ?_⟩
      split at h
      · rename_i hv
        refine ⟨fun e => absurd hv (by simp [e]), ?_⟩
        rw [← returns_setInode.1 h]
        simp [FsState.modifyInode, hv]
      · rename_i hv
        split at h
        · exact absurd h not_returns_throw
        · rename_i ht
          refine ⟨fun _ => ht, ?_⟩
          rw [← returns_setInode.1 h]
          simp [FsState.modifyInode, hv]

theorem returns_iunlock (h : Returns (iunlock a) s u s') :
    (s.icache a).locked = true ∧ 1 ≤ (s.icache a).ref ∧ s.unlocked a = s' := by
  simp only [iunlock, returns_inode_bind] at h
  split at h
  · exact absurd h not_returns_throw
  · rename_i hno
    push Not at hno
    exact ⟨by simpa using hno.1, by omega, returns_setInode.1 h⟩

/-- What is freed by `iput`, up to the reference it drops. -/
def iputFree (a : ℕ) : FsM Unit := do
  itrunc a
  setDin a fun d => { d with type := 0 }
  iupdate a
  setInode a fun ip => { ip with valid := false }

theorem returns_iput (h : Returns (iput a) s u s') :
    (¬ s.Last a ∧ s.addRef a (-1) = s') ∨
    (s.Last a ∧ (s.icache a).locked = false ∧
      ∃ t, Returns (iputFree a) s () t ∧ t.addRef a (-1) = s') := by
  simp only [iput, returns_inode_bind] at h
  split at h
  · rename_i hlast
    split at h
    · simp only [returns_bind, not_returns_throw, false_and, exists_false] at h
    · rename_i hlock
      refine .inr ⟨hlast, by simpa using hlock, ?_⟩
      simp only [iputFree, returns_bind, returns_setDin, returns_setInode] at h ⊢
      obtain ⟨_, t₁, h1, _, _, rfl, _, t₂, h2, _, _, rfl, rfl⟩ := h
      exact ⟨_, ⟨(), t₁, h1, (), _, rfl, (), t₂, h2, rfl⟩, rfl⟩
  · rename_i hno
    exact .inl ⟨hno, returns_setInode.1 h⟩

/-! ### References -/

/-- The inode cache of `s'` is that of `s` but for the copies of disk inodes. -/
def FsState.SameRefs (s s' : FsState) : Prop :=
  ∀ b, { s'.icache b with din := (s.icache b).din } = s.icache b

namespace FsState.SameRefs

theorem refl (s : FsState) : s.SameRefs s := fun _ => rfl

theorem trans {s'' : FsState} (h : s.SameRefs s') (h' : s'.SameRefs s'') : s.SameRefs s'' :=
  fun b => by rw [← h b, ← h' b]

theorem of_icache (h : s'.icache = s.icache) : s.SameRefs s' := fun b => by rw [h]

theorem ref (h : s.SameRefs s') (b : ℕ) : (s'.icache b).ref = (s.icache b).ref := by
  rw [← h b]

theorem setDin (s : FsState) (a : ℕ) (g : Dinode → Dinode) :
    s.SameRefs (s.modifyInode a fun ip => { ip with din := g ip.din }) := fun b => by
  by_cases hb : b = a
  · subst hb; simp
  · rw [modifyInode_icache_of_ne _ hb]

instance : Std.Refl SameRefs := ⟨refl⟩

instance : IsTrans FsState SameRefs := ⟨fun _ _ _ => trans⟩

theorem hasBlockSteps : HasBlockSteps SameRefs fun _ => True where
  stop _ _ := trivial
  blk _ _ _ := of_icache rfl
  log _ _ _ _ := of_icache rfl
  charge _ := of_icache rfl
  credit _ := of_icache rfl
  din := setDin

theorem iputFree (h : Returns (iputFree a) s u s') (b : ℕ) :
    (s'.icache b).ref = (s.icache b).ref ∧ (s'.icache b).inum = (s.icache b).inum := by
  simp only [Xv6Container.iputFree, returns_bind, returns_setDin, returns_setInode] at h
  obtain ⟨_, t, h1, _, _, rfl, _, t', h2, rfl⟩ := h
  have hs : s.SameRefs t' := (((hasBlockSteps.rules.itrunc a).rel h1).trans
    (setDin t a fun d => { d with type := 0 })).trans ((hasBlockSteps.rules.iupdate a).rel h2)
  have hb := hs b
  by_cases hba : b = a
  · subst hba
    rw [modifyInode_icache_self, ← hb]
    exact ⟨rfl, rfl⟩
  · rw [modifyInode_icache_of_ne _ hba, ← hb]
    exact ⟨rfl, rfl⟩

end FsState.SameRefs

/-! ### Well-formedness -/

namespace FsState

theorem WellFormed.modifyInode (hs : s.WellFormed) {g : Inode → Inode} {x : Inode}
    (hx : g (s.icache a) = x) (h0 : 0 ≤ x.ref)
    (h : 0 < x.ref → a < NINODE ∧ x.dev = ROOTDEV ∧ x.inum < s.sb.ninodes ∧
      (∀ b, b ≠ a → 0 < (s.icache b).ref → (s.icache b).inum ≠ x.inum) ∧
      (x.valid = true → x.din = s.dinode x.inum ∧ x.din.type ≠ 0)) :
    (s.modifyInode a g).WellFormed := by
  have hic : ∀ b, b = a ∧ (s.modifyInode a g).icache b = x ∨
      b ≠ a ∧ (s.modifyInode a g).icache b = s.icache b := fun b => by
    by_cases hb : b = a
    · exact .inl ⟨hb, by rw [hb, modifyInode_icache_self, hx]⟩
    · exact .inr ⟨hb, modifyInode_icache_of_ne g hb⟩
  refine ⟨hs.formatted.modifyInode a g, hs.files.modifyInode a g, fun b => ?_, fun b hb => ?_,
    fun b hb => ?_, fun b hb => ?_, fun b c hb hc e => ?_, fun b _ hb hv => ?_, fun b hb hv => ?_⟩
  · obtain ⟨-, hb⟩ | ⟨-, hb⟩ := hic b <;> rw [hb]
    · exact h0
    · exact hs.cached.ref b
  · obtain ⟨rfl, he⟩ | ⟨-, he⟩ := hic b <;> rw [he] at hb
    · exact (h hb).1
    · exact hs.cached.bound b hb
  · obtain ⟨-, he⟩ | ⟨-, he⟩ := hic b <;> rw [he] at hb ⊢
    · exact (h hb).2.1
    · exact hs.cached.dev b hb
  · obtain ⟨-, he⟩ | ⟨-, he⟩ := hic b <;> rw [he] at hb ⊢
    · exact (h hb).2.2.1
    · exact hs.cached.inum b hb
  · obtain ⟨hba, he⟩ | ⟨hba, he⟩ := hic b <;> obtain ⟨hca, he'⟩ | ⟨hca, he'⟩ := hic c <;>
      rw [he] at hb e <;> rw [he'] at hc e
    · rw [hba, hca]
    · exact absurd e.symm ((h hb).2.2.2.1 c hca hc)
    · exact absurd e ((h hc).2.2.2.1 b hba hb)
    · exact hs.cached.unique b c hb hc e
  · obtain ⟨-, he⟩ | ⟨-, he⟩ := hic b <;> rw [he] at hb hv ⊢
    · exact ((h hb).2.2.2.2 hv).1
    · exact hs.cached.din b (by simp) hb hv
  · obtain ⟨-, he⟩ | ⟨-, he⟩ := hic b <;> rw [he] at hb hv ⊢
    · exact ((h hb).2.2.2.2 hv).2
    · exact hs.cached.type b hb hv

theorem WellFormed.modifyInode_in_use (hs : s.WellFormed) (ha : 0 < (s.icache a).ref)
    {g : Inode → Inode} {x : Inode} (hx : g (s.icache a) = x) (hdev : x.dev = (s.icache a).dev)
    (hinum : x.inum = (s.icache a).inum) (h0 : 0 ≤ x.ref)
    (h : x.valid = true → x.din = s.dinode (s.icache a).inum ∧ x.din.type ≠ 0) :
    (s.modifyInode a g).WellFormed := by
  refine hs.modifyInode hx h0 fun _ => ?_
  rw [hdev, hinum]
  exact ⟨hs.cached.bound a ha, hs.cached.dev a ha, hs.cached.inum a ha,
    fun b hb hr e => hb (hs.cached.unique b a hr ha e), h⟩

theorem WellFormed.addRef (hs : s.WellFormed) (ha : 0 < (s.icache a).ref)
    (hd : 0 ≤ (s.icache a).ref + d) : (s.addRef a d).WellFormed :=
  hs.modifyInode_in_use ha rfl rfl rfl hd fun hv =>
    ⟨hs.cached.din a (by simp) ha hv, hs.cached.type a ha hv⟩

theorem WellFormed.iget (hs : s.WellFormed) (hi : inum < s.sb.ninodes)
    (h : Returns (iget ROOTDEV inum) s a s') : s'.WellFormed := by
  obtain ⟨hlt, ⟨⟨hr, -, -⟩, rfl⟩ | ⟨hno, -, rfl⟩⟩ := returns_iget h
  · exact hs.addRef hr (by omega)
  · refine hs.modifyInode rfl Int.one_nonneg fun _ => ⟨hlt, rfl, hi, fun b _ hr e => ?_, by simp⟩
    exact hno b (hs.cached.bound b hr) ⟨hr, hs.cached.dev b hr, e⟩

theorem WellFormed.locked (hs : s.WellFormed) (ha : 0 < (s.icache a).ref)
    (ht : (s.icache a).valid = false → (s.dinode (s.icache a).inum).type ≠ 0) :
    (s.locked a).WellFormed := by
  refine hs.modifyInode_in_use ha rfl rfl rfl ha.le fun _ => ?_
  cases hv : (s.icache a).valid with
  | true =>
    simp only [if_true]
    exact ⟨hs.cached.din a (by simp) ha hv, hs.cached.type a ha hv⟩
  | false => exact ⟨rfl, ht hv⟩

theorem WellFormed.unlocked (hs : s.WellFormed) (ha : 0 < (s.icache a).ref) :
    (s.unlocked a).WellFormed :=
  hs.modifyInode_in_use ha rfl rfl rfl ha.le fun hv =>
    ⟨hs.cached.din a (by simp) ha hv, hs.cached.type a ha hv⟩

/-! ### Changes of the cache alone -/

/-- `s'` is `s` but for the inode cache, where entry `b` has `δ b` more references; the entries in
use keep their inodes. -/
structure Looks (δ : ℕ → ℤ) (s s' : FsState) : Prop where
  store : s'.store = s.store
  sb : s'.sb = s.sb
  kern : s'.kern = s.kern
  cur : s'.cur = s.cur
  ref : ∀ b, (s'.icache b).ref = (s.icache b).ref + δ b
  inum : ∀ b, 0 < (s.icache b).ref → (s'.icache b).inum = (s.icache b).inum
  valid : ∀ b, 0 < (s.icache b).ref → (s.icache b).valid = true →
    (s'.icache b).valid = true ∧ (s'.icache b).din = (s.icache b).din

variable {δ δ' : ℕ → ℤ} {s'' : FsState}

theorem Looks.refl (s : FsState) : Looks 0 s s :=
  ⟨rfl, rfl, rfl, rfl, fun _ => (add_zero _).symm, fun _ _ => rfl, fun _ _ hv => ⟨hv, rfl⟩⟩

theorem Looks.trans (h : Looks δ s s') (h' : Looks δ' s' s'') (hpos : ∀ b, 0 ≤ δ b) :
    Looks (δ + δ') s s'' := by
  have hr : ∀ b, 0 < (s.icache b).ref → 0 < (s'.icache b).ref := fun b hb => by
    have := h.ref b
    have := hpos b
    omega
  refine ⟨h'.store.trans h.store, h'.sb.trans h.sb, h'.kern.trans h.kern, h'.cur.trans h.cur,
    fun b => ?_, fun b hb => ?_, fun b hb hv => ?_⟩
  · rw [h'.ref, h.ref, Pi.add_apply, add_assoc]
  · rw [h'.inum b (hr b hb), h.inum b hb]
  · obtain ⟨hv1, hd1⟩ := h.valid b hb hv
    obtain ⟨hv2, hd2⟩ := h'.valid b (hr b hb) hv1
    exact ⟨hv2, hd2.trans hd1⟩

theorem looks_modifyInode {g : Inode → Inode} (href : (g (s.icache a)).ref = (s.icache a).ref + d)
    (hinum : 0 < (s.icache a).ref → (g (s.icache a)).inum = (s.icache a).inum)
    (hvalid : 0 < (s.icache a).ref → (s.icache a).valid = true →
      (g (s.icache a)).valid = true ∧ (g (s.icache a)).din = (s.icache a).din) :
    Looks (Pi.single a d) s (s.modifyInode a g) := by
  refine ⟨rfl, rfl, rfl, rfl, fun b => ?_, fun b hb => ?_, fun b hb hv => ?_⟩ <;>
    by_cases hba : b = a
  · subst hba; simp [href]
  · rw [modifyInode_icache_of_ne _ hba, Pi.single_eq_of_ne hba, add_zero]
  · subst hba; rw [modifyInode_icache_self]; exact hinum hb
  · rw [modifyInode_icache_of_ne _ hba]
  · subst hba; rw [modifyInode_icache_self]; exact hvalid hb hv
  · rw [modifyInode_icache_of_ne _ hba]; exact ⟨hv, rfl⟩

theorem looks_addRef (s : FsState) (a : ℕ) (d : ℤ) : Looks (Pi.single a d) s (s.addRef a d) :=
  looks_modifyInode rfl (fun _ => rfl) fun _ hv => ⟨hv, rfl⟩

theorem looks_locked (s : FsState) (a : ℕ) : Looks 0 s (s.locked a) := by
  rw [← Pi.single_zero a]
  refine looks_modifyInode (add_zero _).symm (fun _ => rfl) fun _ hv => ⟨rfl, ?_⟩
  simp [hv]

theorem looks_unlocked (s : FsState) (a : ℕ) : Looks 0 s (s.unlocked a) := by
  rw [← Pi.single_zero a]
  exact looks_modifyInode (add_zero _).symm (fun _ => rfl) fun _ hv => ⟨hv, rfl⟩

theorem looks_iget (h : Returns (Xv6Container.iget dev inum) s a s') :
    Looks (Pi.single a 1) s s' ∧ (s'.icache a).inum = inum := by
  obtain ⟨-, ⟨⟨-, -, hi⟩, rfl⟩ | ⟨-, h0, rfl⟩⟩ := returns_iget h
  · refine ⟨looks_addRef s a 1, ?_⟩
    rw [FsState.addRef, modifyInode_icache_self]
    exact hi
  · refine ⟨looks_modifyInode (by rw [h0]; rfl) (fun hr => ?_) fun hr => ?_, ?_⟩
    · omega
    · omega
    · rw [recycle, modifyInode_icache_self]

end FsState

theorem iput_ref {a b : ℕ} {u : Unit} (h : Returns (iput a) s u s') :
    (s'.icache b).ref = (s.icache b).ref - if b = a then 1 else 0 := by
  have hadd : ∀ t : FsState, ((t.addRef a (-1)).icache b).ref =
      (t.icache b).ref - if b = a then 1 else 0 := fun t => by
    rw [(FsState.looks_addRef t a (-1)).ref]
    by_cases hb : b = a
    · subst hb; simp; rfl
    · simp [hb]
  obtain ⟨-, rfl⟩ | ⟨-, -, t, ht, rfl⟩ := returns_iput h
  · exact hadd s
  · rw [hadd t, (FsState.SameRefs.iputFree ht b).1]

end Xv6Container
