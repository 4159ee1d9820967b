import Xv6Container.Fs.Lookup

/-!
# Lookups with other tables

The code of the file system reads the process and container tables for the accounting of blocks, for
the working directory and for the rule about the root of a container only.  So a call does the same
with other tables in which the caller has the same working directory, whatever its container, as
long as the rule treats the names the same that it looks up.

* `blindRules` : the code on inodes and directories is blind in this way;
* `blind_namei` : so are path lookups that start at the working directory.
-/

namespace Xv6Container

open FsState

variable {D : ℕ → Prop} {s t : FsState} {k k' : Kernel}

theorem FsState.stops_congr {a : ℕ} {name : CharArray} (hcur : t.cur = s.cur)
    (h : s.kern.Accounts t.kern) : t.Stops a name ↔ s.Stops a name := by
  simp only [Stops, Kernel.mycont, hcur, h.container, h.root]

/-- With the tables `k` instead of its own the caller has the same working directory and some
container.  The rule for the root of the container does the same in the directories `D`. -/
structure FsState.Agrees (D : ℕ → Prop) (s : FsState) (k : Kernel) : Prop where
  started : k.started = s.kern.started
  cwd : (k.proc s.cur).cwd = (s.kern.proc s.cur).cwd
  own : s.kern.mycont s.cur ≠ none
  other : k.mycont s.cur ≠ none
  stops : ∀ a, D a → ∀ name, (s.setKern k).Stops a name ↔ s.Stops a name

theorem FsState.Agrees.accounts (h : s.Agrees D k) (hcur : t.cur = s.cur)
    (ht : s.kern.Accounts t.kern) (hk : k.Accounts k') : t.Agrees D k' where
  started := by rw [hk.started, h.started, ht.started]
  cwd := by rw [hcur, hk.cwd, h.cwd, ht.cwd]
  own := by rw [Kernel.mycont, hcur, ht.container]; exact h.own
  other := by rw [Kernel.mycont, hcur, hk.container]; exact h.other
  stops a hD name := by
    rw [stops_congr hcur ht, ← h.stops a hD,
      stops_congr (s := s.setKern k) (t := t.setKern k') hcur hk]

theorem FsState.Agrees.symm (h : s.Agrees D k) : (s.setKern k).Agrees D s.kern :=
  ⟨h.started.symm, h.cwd.symm, h.other, h.own, fun a hD name => (h.stops a hD name).symm⟩

/-- What `m` returns from state `s`, it returns with other tables, too, and the states differ in the
tables only. -/
def BlindAt (D : ℕ → Prop) {α : Type} (s : FsState) (m : FsM α) : Prop :=
  ∀ ⦃k x t⦄, s.Agrees D k → Returns m s x t →
    ∃ k', Returns m (s.setKern k) x (t.setKern k') ∧ t.Agrees D k'

/-- `m` does the same with other tables, from any state. -/
def Blind (D : ℕ → Prop) {α : Type} (m : FsM α) : Prop := ∀ s, BlindAt D s m

theorem BlindAt.bind {α β : Type} {m : FsM α} {f : α → FsM β} (hm : BlindAt D s m)
    (hf : ∀ x t, Returns m s x t → BlindAt D t (f x)) : BlindAt D s (m >>= f) := by
  intro k y t h hr
  obtain ⟨x, u, h1, h2⟩ := returns_bind.1 hr
  obtain ⟨k₁, h1', hu⟩ := hm h h1
  obtain ⟨k₂, h2, ht⟩ := hf x u h1 hu h2
  exact ⟨k₂, returns_bind.2 ⟨x, _, h1', h2⟩, ht⟩

theorem blind_throw {α : Type} (e : Stop) : Blind D (throw e : FsM α) :=
  fun _ _ _ _ _ hr => absurd hr not_returns_throw

theorem Blind.of_setKern {m : FsM Unit} (h : ∀ ⦃s t⦄, Returns m s () t → t.kern = s.kern ∧
    t.cur = s.cur ∧ ∀ k, Returns m (s.setKern k) () (t.setKern k)) : Blind D m := by
  intro s k _ t hs hr
  obtain ⟨hkern, hcur, hm⟩ := h hr
  exact ⟨k, hm k, hs.accounts hcur (hkern ▸ .refl _) (.refl k)⟩

theorem Blind.modify {g : FsState → FsState} (hkern : ∀ s, (g s).kern = s.kern)
    (hcur : ∀ s, (g s).cur = s.cur) (hg : ∀ s k, g (s.setKern k) = (g s).setKern k) :
    Blind D (modify g : FsM Unit) := .of_setKern fun s t h => by
  obtain rfl := returns_modify.1 h
  exact ⟨hkern s, hcur s, fun k => returns_modify.2 (hg s k)⟩

theorem FsState.accounts_credit (s : FsState) : s.kern.Accounts s.credit := by
  unfold credit
  split
  · split
    · exact .refl _
    · exact .addDisk _ _ _
  · exact .refl _

theorem FsState.Agrees.accountable (h : s.Agrees D k) : (s.setKern k).Accountable :=
  fun _ => Option.ne_none_iff_exists'.1 h.other

/-- The code on inodes and directories does not see the tables. -/
theorem blindRules (D : ℕ → Prop) :
    FsRules (fun a name => strncmp name (chars "..") 2 = 0 → D a) (Blind D) where
  pure x s k y t h hr := by
    obtain ⟨rfl, rfl⟩ := returns_pure.1 hr
    exact ⟨k, returns_pure.2 ⟨rfl, rfl⟩, h⟩
  bind hm hf s := (hm s).bind fun x t _ => hf x t
  get hf hall s k y t h hr := by
    rw [returns_get_bind] at hr
    obtain ⟨k', hr, ht⟩ := hall s s h hr
    exact ⟨k', by rwa [returns_get_bind, hf], ht⟩
  stop e _ := blind_throw e
  setBuf b f := .modify (fun _ => rfl) (fun _ => rfl) fun _ _ => rfl
  logWrite b := .of_setKern fun s t h => by
    obtain ⟨l, hl, rfl⟩ := returns_logWrite.1 h
    exact ⟨rfl, rfl, fun k => returns_logWrite.2 ⟨l, hl, rfl⟩⟩
  charge s k _ t h hr := by
    obtain ⟨-, rfl⟩ := returns_chargeBlock.1 hr
    exact ⟨_, returns_chargeBlock.2 ⟨h.accountable, rfl⟩,
      h.accounts rfl s.accounts_charge (s.setKern k).accounts_charge⟩
  credit s k _ t h hr := by
    obtain ⟨-, rfl⟩ := returns_creditBlock.1 hr
    exact ⟨_, returns_creditBlock.2 ⟨h.accountable, rfl⟩,
      h.accounts rfl s.accounts_credit (s.setKern k).accounts_credit⟩
  setDin a g := .modify (fun _ => rfl) (fun _ => rfl) fun _ _ => rfl
  setInode a g := .modify (fun _ => rfl) (fun _ => rfl) fun _ _ => rfl
  stops a name hname s k b t h hr := by
    obtain ⟨hst, -, hb, rfl⟩ := returns_dirlookupStops.1 hr
    refine ⟨k, returns_dirlookupStops.2 ⟨h.started.trans hst, fun hn => absurd hn h.other, ?_, rfl⟩,
      h⟩
    by_cases hdots : strncmp name (chars "..") 2 = 0
    · rw [hb, h.stops a (hname hdots)]
    · rw [hb]
      exact iff_of_false (fun ⟨_, _, _, hd, _⟩ => hdots hd) fun ⟨_, _, _, hd, _⟩ => hdots hd

theorem blind_beginOp : Blind D beginOp := .of_setKern fun s t h => by
  simp only [beginOp, returns_bind, returns_get] at h ⊢
  obtain ⟨_, _, ⟨rfl, rfl⟩, h⟩ := h
  split at h
  · exact absurd h not_returns_throw
  · rename_i hroom
    obtain rfl := returns_set.1 h
    exact ⟨rfl, rfl, fun k => ⟨_, _, ⟨rfl, rfl⟩, by
      rw [setKern_log, if_neg hroom]
      exact returns_set.2 rfl⟩⟩

theorem blind_namexStart {path : CharArray} (hrel : path.headD 0 ≠ slash) :
    Blind D (namexStart path) := by
  intro s k r t h hr
  simp only [namexStart, returns_bind, returns_callerCont, if_neg hrel, returns_get] at hr ⊢
  obtain ⟨_, _, ⟨hst, rfl, rfl⟩, _, _, ⟨rfl, rfl⟩, hr⟩ := hr
  cases hcwd : (s.kern.proc s.cur).cwd with
  | none =>
    rw [hcwd] at hr
    exact absurd hr not_returns_throw
  | some ip =>
    rw [hcwd] at hr
    have hdup : Blind D (do return some (← idup ip)) :=
      (blindRules D).bind ((blindRules D).idup ip) fun _ => (blindRules D).pure _
    obtain ⟨k', hr, ht⟩ := hdup s h hr
    refine ⟨k', ⟨_, _, ⟨h.started.trans hst, rfl, rfl⟩, _, _, ⟨rfl, rfl⟩, ?_⟩, ht⟩
    rw [setKern_kern, setKern_cur, h.cwd, hcwd]
    exact hr

/-- A lookup from the working directory does not see the tables. -/
theorem blind_namei {path : CharArray} (hrel : path.headD 0 ≠ slash)
    (hN : ∀ e ∈ components path, ∀ name, Names name e → ∀ a,
      strncmp name (chars "..") 2 = 0 → D a) : Blind D (namei path) :=
  (blindRules D).namei (blind_namexStart hrel) hN

end Xv6Container
