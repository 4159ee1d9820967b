import Xv6Container.Fs.Confine

/-!
# The references that a path lookup takes

`namex` of `kernel/fs.c` takes a reference to every inode on its way and drops it when it goes on.
What remains is counted here, in any state of the inode cache and the disk: nothing is assumed
about either.

* `namex_balanced_iff` : **a path lookup is balanced** unless it starts at the root of a container,
  to which `namex` takes no reference.
-/

namespace Xv6Container

open FsState

variable {s s' : FsState} {a b ip : ℕ} {u : Unit} {δ δ' : ℕ → ℤ}

/-! ### Counting references -/

/-- Entry `b` of the inode cache gains `δ b` references. -/
def FsState.Counts (δ : ℕ → ℤ) (s s' : FsState) : Prop :=
  ∀ b, (s'.icache b).ref = (s.icache b).ref + δ b

/-- One reference to the entry, if there is one. -/
def oneRef (r : Option ℕ) (b : ℕ) : ℤ := if r = some b then 1 else 0

@[simp] theorem oneRef_none : oneRef none = 0 := by
  funext b
  simp [oneRef]

@[simp] theorem oneRef_self (a : ℕ) : oneRef (some a) a = 1 := by simp [oneRef]

theorem oneRef_of_ne (h : b ≠ a) : oneRef (some a) b = 0 := by simp [oneRef, Ne.symm h]

namespace FsState.Counts

theorem refl (s : FsState) : s.Counts 0 s := fun b => by simp

theorem trans {s'' : FsState} (h : s.Counts δ s') (h' : s'.Counts δ' s'') :
    s.Counts (δ + δ') s'' := fun b => by
  rw [h' b, h b, Pi.add_apply, add_assoc]

theorem of_eq (h : s.Counts δ s') (he : δ = δ') : s.Counts δ' s' := he ▸ h

theorem of_sameRefs (h : s.SameRefs s') : s.Counts 0 s' := fun b => by
  rw [h.ref b, Pi.zero_apply, add_zero]

theorem of_looks (h : s.Looks δ s') : s.Counts δ s' := h.ref

theorem iget {dev inum : ℕ} (h : Returns (iget dev inum) s a s') :
    s.Counts (oneRef (some a)) s' := by
  intro b
  rw [(looks_iget h).1.ref b]
  by_cases hb : b = a
  · subst hb
    simp
  · rw [Pi.single_eq_of_ne hb, oneRef_of_ne hb]

theorem addRef (s : FsState) (a : ℕ) : s.Counts (oneRef (some a)) (s.addRef a 1) := by
  intro b
  rw [(looks_addRef s a 1).ref b]
  by_cases hb : b = a
  · subst hb
    simp
  · rw [Pi.single_eq_of_ne hb, oneRef_of_ne hb]

theorem ilock (h : Returns (ilock a) s u s') : s.Counts 0 s' := by
  obtain ⟨-, -, -, rfl⟩ := returns_ilock h
  exact of_looks (looks_locked s a)

theorem iunlock (h : Returns (iunlock a) s u s') : s.Counts 0 s' := by
  obtain ⟨-, -, rfl⟩ := returns_iunlock h
  exact of_looks (looks_unlocked s a)

theorem iput (h : Returns (iput a) s u s') : s.Counts (-oneRef (some a)) s' := by
  intro b
  rw [iput_ref h, Pi.neg_apply, oneRef, sub_eq_add_neg]
  simp only [Option.some.injEq, eq_comm]

theorem iunlockput (h : Returns (iunlockput a) s u s') : s.Counts (-oneRef (some a)) s' := by
  simp only [Xv6Container.iunlockput, returns_bind] at h
  obtain ⟨_, t, h1, h2⟩ := h
  exact ((iunlock h1).trans (iput h2)).of_eq (zero_add _)

/-! ### Lookups -/

theorem dirlookupLoop {name : CharArray} {fuel off : ℕ} {r : Option (ℕ × ℕ)}
    (h : Returns (dirlookupLoop a name fuel off) s r s') :
    s.Counts (oneRef (r.map Prod.fst)) s' := by
  induction fuel generalizing s off with
  | zero =>
    obtain ⟨rfl, rfl⟩ := returns_pure.1 h
    exact (refl s).of_eq oneRef_none.symm
  | succ fuel ih =>
    rw [Xv6Container.dirlookupLoop, returns_inode_bind] at h
    split at h
    · simp only [returns_bind] at h
      obtain ⟨⟨r', bytes⟩, t, hread, h⟩ := h
      have hsame := of_sameRefs ((SameRefs.hasBlockSteps.rules.readi _ _ _ _).rel hread)
      dsimp only at h
      split at h
      · exact absurd h not_returns_throw
      · split at h
        · simp only [returns_bind, returns_pure] at h
          obtain ⟨ip, _, hget, rfl, rfl⟩ := h
          exact (hsame.trans (iget hget)).of_eq (zero_add _)
        · exact (hsame.trans (ih h)).of_eq (zero_add _)
    · obtain ⟨rfl, rfl⟩ := returns_pure.1 h
      exact (refl s).of_eq oneRef_none.symm

theorem dirlookup {name : CharArray} {r : Option (ℕ × ℕ)} (h : Returns (dirlookup a name) s r s') :
    s.Counts (oneRef (r.map Prod.fst)) s' := by
  simp only [Xv6Container.dirlookup, returns_bind, returns_inode] at h
  obtain ⟨_, _, hstops, _, _, ⟨rfl, rfl⟩, h⟩ := h
  obtain rfl := (returns_dirlookupStops.1 hstops).2.2.2
  split at h
  · exact absurd h not_returns_throw
  · exact dirlookupLoop h

/-- What a round of `namex` leaves a reference to: the next inode, or what `namex` returns. -/
def roundRef : ℕ ⊕ Option ℕ → Option ℕ
  | .inl next => some next
  | .inr r => r

theorem namexRound {parent : Bool} {path name : CharArray} {r : ℕ ⊕ Option ℕ}
    (h : Returns (namexRound parent ip path name) s r s') :
    s.Counts (oneRef (roundRef r) - oneRef (some ip)) s' := by
  simp only [Xv6Container.namexRound, returns_bind, returns_inode] at h
  obtain ⟨_, t, hlock, _, _, ⟨rfl, rfl⟩, h⟩ := h
  have hlock := ilock hlock
  split at h
  · simp only [returns_bind, returns_pure] at h
    obtain ⟨_, _, hput, rfl, rfl⟩ := h
    exact (hlock.trans (iunlockput hput)).of_eq (by simp [roundRef])
  · split at h
    · simp only [returns_bind, returns_pure] at h
      obtain ⟨_, _, hunlock, rfl, rfl⟩ := h
      exact (hlock.trans (iunlock hunlock)).of_eq (by simp [roundRef])
    · simp only [returns_bind] at h
      obtain ⟨o, t', hlook, h⟩ := h
      have hlook := hlock.trans (dirlookup hlook)
      cases o with
      | none =>
        simp only [returns_bind, returns_pure] at h
        obtain ⟨_, _, hput, rfl, rfl⟩ := h
        exact (hlook.trans (iunlockput hput)).of_eq (by simp [roundRef])
      | some x =>
        simp only [returns_bind, returns_pure] at h
        obtain ⟨_, _, hput, rfl, rfl⟩ := h
        exact (hlook.trans (iunlockput hput)).of_eq (by simp [roundRef, sub_eq_add_neg])

theorem namexLoop {parent : Bool} {fuel : ℕ} {path name : CharArray} {r : Option ℕ × CharArray}
    (hfuel : path.length < fuel) (h : Returns (namexLoop parent fuel path name ip) s r s') :
    s.Counts (oneRef r.1 - oneRef (some ip)) s' := by
  induction fuel generalizing s path name ip with
  | zero => omega
  | succ fuel ih =>
    rw [Xv6Container.namexLoop] at h
    split at h
    · split at h
      · simp only [returns_bind, returns_pure] at h
        obtain ⟨_, _, hput, rfl, rfl⟩ := h
        exact (iput hput).of_eq (by simp)
      · obtain ⟨rfl, rfl⟩ := returns_pure.1 h
        exact (refl s).of_eq (by simp)
    · rename_i path' name' hskip
      have hlt := skipelem_length_lt hskip
      simp only [returns_bind] at h
      obtain ⟨r', t, hround, h⟩ := h
      have hround := namexRound hround
      cases r' with
      | inl next => exact (hround.trans (ih (by omega) h)).of_eq (by simp [roundRef])
      | inr r₀ =>
        obtain ⟨rfl, rfl⟩ := returns_pure.1 h
        exact hround

end FsState.Counts

/-! ### Path names -/

/-- `namex` takes a reference to the inode at which it looks up `path`: the path is relative, or the
caller is in the root container.  Where the container has no root, there is no inode either. -/
def FsState.TakesStart (s : FsState) (path : CharArray) : Prop :=
  path.headD 0 ≠ slash ∨ s.kern.mycont s.cur = some root ∨
    ∀ c, s.kern.mycont s.cur = some c → (s.kern.containers c).root = none

theorem namex_counts {path name : CharArray} {parent : Bool} {r : Option ℕ × CharArray}
    (h : Returns (namex path parent name) s r s') :
    ((path.headD 0 ≠ slash ∨ s.kern.mycont s.cur = some root) ∧ s.Counts (oneRef r.1) s') ∨
    ∃ c, path.headD 0 = slash ∧ s.kern.mycont s.cur = some c ∧ c ≠ root ∧
      ((s.kern.containers c).root = none → r.1 = none) ∧
      s.Counts (oneRef r.1 - oneRef (s.kern.containers c).root) s' := by
  obtain ⟨start, t, hstart, hr⟩ := returns_namex h
  obtain ⟨-, hc, ip, rfl, hget⟩ | ⟨hpath, c, hc, hne, rfl, rfl⟩ | ⟨hpath, ip, -, rfl, rfl⟩ :=
    returns_namexStart hstart
  · obtain ⟨_, ⟨⟩, h⟩ | ⟨⟨⟩, -⟩ := hr
    exact .inl ⟨.inr hc, ((Counts.iget hget).trans (Counts.namexLoop (by omega) h)).of_eq (by simp)⟩
  · refine .inr ⟨c, hpath, hc, hne, ?_⟩
    obtain ⟨ip, hroot, h⟩ | ⟨hroot, hnone, rfl⟩ := hr
    · rw [hroot]
      exact ⟨by simp, Counts.namexLoop (by omega) h⟩
    · -- without an inode there is nothing to look up
      exact ⟨fun _ => hnone, (Counts.refl s').of_eq (by simp [hnone, hroot])⟩
  · obtain ⟨_, ⟨⟩, h⟩ | ⟨⟨⟩, -⟩ := hr
    exact .inl ⟨.inl hpath,
      ((Counts.addRef s ip).trans (Counts.namexLoop (by omega) h)).of_eq (by simp)⟩

/-- **Path lookups are reference balanced** exactly when they start at an inode to which `namex`
takes a reference: then the inode returned has one reference more, and no other entry of the inode
cache has gained or lost one. -/
theorem namex_balanced_iff {path name name' : CharArray} {parent : Bool} {r : Option ℕ}
    (h : Returns (namex path parent name) s (r, name') s') :
    (∀ b, (s'.icache b).ref = (s.icache b).ref + if r = some b then 1 else 0) ↔
      s.TakesStart path := by
  obtain ⟨hown, hcount⟩ | ⟨c, hpath, hc, hne, -, hcount⟩ := namex_counts h
  · refine iff_of_true hcount ?_
    obtain hrel | hroot := hown
    · exact .inl hrel
    · exact .inr (.inl hroot)
  · have hstart : s.TakesStart path ↔ (s.kern.containers c).root = none := by
      constructor
      · rintro (hrel | hroot | hnone)
        · exact absurd hpath hrel
        · exact absurd (Option.some.inj (hc.symm.trans hroot)) hne
        · exact hnone c hc
      · intro hnone
        refine .inr (.inr fun d hd => ?_)
        obtain rfl := Option.some.inj (hc.symm.trans hd)
        exact hnone
    rw [hstart]
    constructor
    · intro hbal
      cases hroot : (s.kern.containers c).root with
      | none => rfl
      | some a =>
        -- the root of the container has lost a reference
        have hlost := hcount a
        rw [hbal a, hroot, Pi.sub_apply, oneRef_self] at hlost
        simp only [oneRef] at hlost
        omega
    · intro hnone b
      rw [hcount b, hnone, oneRef_none, sub_zero]
      rfl

/-- A relative path in a container. -/
theorem namex_balanced_relative : ∃ name s',
    Returns (namex (chars "a/..") false []) jail (some 0, name) s' ∧
    ∀ b, (s'.icache b).ref = (jail.icache b).ref + if some 0 = some b then 1 else 0 := by
  obtain ⟨⟨⟨r, name⟩, s'⟩, hrun, hr⟩ := (Option.any_eq_true _ _).1 (by decide +kernel :
    ((namex (chars "a/..") false []).run jail).toOption.any
      (fun y => decide (y.1.1 = some 0)) = true)
  obtain rfl : r = some 0 := of_decide_eq_true hr
  have h := toOption_run_eq_some.1 hrun
  exact ⟨name, s', h, (namex_balanced_iff h).2 (.inl (by decide))⟩

/-- An absolute path in a container costs the root of the container a reference. -/
theorem namex_drops_root : ∃ name s',
    Returns (namex (chars "/a") false []) jail (some 1, name) s' ∧
    (jail.icache 0).ref = 2 ∧ (s'.icache 0).ref = 1 := by
  obtain ⟨⟨⟨r, name⟩, s'⟩, hrun, hr⟩ := (Option.any_eq_true _ _).1 (by decide +kernel :
    ((namex (chars "/a") false []).run jail).toOption.any
      (fun y => decide (y.1.1 = some 1 ∧ (y.2.icache 0).ref = 1)) = true)
  obtain ⟨rfl, href⟩ : r = some 1 ∧ (s'.icache 0).ref = 1 := of_decide_eq_true hr
  exact ⟨name, s', toOption_run_eq_some.1 hrun, rfl, href⟩

end Xv6Container
