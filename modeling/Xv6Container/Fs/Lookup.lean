import Xv6Container.Fs.Icache
import Xv6Container.Fs.Refine

/-!
# Looking up names

What the lookups of `kernel/fs.c` read from a well-formed file system.

* `FsState.HasEntry` : the entries of a directory;
* `dirlookup_spec` : `dirlookup` gets the inode of an entry that matches the name, or changes
  nothing;
* `namexRound_spec` : a round of `namex` goes from a directory to the inode of such an entry.
-/

namespace Xv6Container

namespace FsState

/-- Entry `k` of directory `d`. -/
def dirent (s : FsState) (d k : ℕ) : Dirent := getDirent (pread (s.file d) (DIRENT * k) DIRENT)

/-- Directory `d` has the entry `de` in position `k`. -/
def HasEntry (s : FsState) (d k : ℕ) (de : Dirent) : Prop :=
  DIRENT * (k + 1) ≤ s.disk.size d ∧ s.dirent d k = de ∧ de.inum ≠ 0

theorem hasEntry_iff (s : FsState) {d k : ℕ} {de : Dirent} : s.HasEntry d k de ↔
    k < s.disk.size d / DIRENT ∧ s.dirent d k = de ∧ (s.dirent d k).inum ≠ 0 := by
  unfold HasEntry DIRENT
  constructor
  · rintro ⟨hk, rfl, h0⟩
    exact ⟨by omega, rfl, h0⟩
  · rintro ⟨hk, rfl, h0⟩
    exact ⟨by omega, rfl, h0⟩

end FsState

variable {s s' : FsState} {a ip off k fuel inum : ℕ} {name path : CharArray} {u : Unit}

theorem readi_spec {r : ℤ} {bytes : List UInt8} {n : ℕ} (hs : s.WellFormed) (ha : s.Held a)
    (hoff : off ≤ s.disk.size (s.icache a).inum) (hn : n ≤ BSIZE)
    (h : Returns (readi a (fun _ => true) off n) s (r, bytes) s') :
    s' = s ∧ (r = n → off + n ≤ s.disk.size (s.icache a).inum ∧
      bytes = pread (s.file (s.icache a).inum) off n) := by
  have hmax := hs.files.size _ (hs.live ha)
  have hlt : off + n < 2 ^ 32 := by unfold MAXFILE BSIZE NDIRECT NINDIRECT at *; omega
  obtain ⟨he, rfl⟩ := h.unique (readi_pread hs ha hoff hlt)
  simp only [Prod.mk.injEq] at he
  obtain ⟨rfl, rfl⟩ := he
  refine ⟨rfl, fun hr => ⟨?_, rfl⟩⟩
  have hr : min n (s'.disk.size (s'.icache a).inum - off) = n := by exact_mod_cast hr
  omega

theorem size_din (hs : s.WellFormed) (ha : s.Held a) :
    (s.icache a).din.size.toNat = s.disk.size (s.icache a).inum := by
  rw [← hs.image ha, size_image]

theorem dirlookupLoop_spec {r : Option (ℕ × ℕ)} (hs : s.WellFormed) (ha : s.Held a)
    (h : Returns (dirlookupLoop a name fuel (DIRENT * k)) s r s') :
    (r = none ∧ s' = s) ∨ ∃ ip m de, r = some (ip, DIRENT * m) ∧
      s.HasEntry (s.icache a).inum m de ∧ namecmp name de.name = 0 ∧
      Returns (iget ROOTDEV de.inum) s ip s' := by
  induction fuel generalizing k with
  | zero =>
    obtain ⟨rfl, rfl⟩ := returns_pure.1 h
    exact .inl ⟨rfl, rfl⟩
  | succ fuel ih =>
    rw [dirlookupLoop, returns_inode_bind] at h
    split at h
    · rename_i hlt
      rw [size_din hs ha] at hlt
      simp only [returns_bind] at h
      obtain ⟨⟨r', bytes⟩, t, hread, h⟩ := h
      obtain ⟨rfl, hall⟩ := readi_spec hs ha hlt.le (by decide) hread
      dsimp only at h
      split at h
      · exact absurd h not_returns_throw
      · rename_i hr
        obtain ⟨hle, rfl⟩ := hall (by simpa using hr)
        split at h
        · rename_i hmatch
          simp only [returns_bind, returns_pure] at h
          obtain ⟨ip, t, hget, rfl, rfl⟩ := h
          rw [hs.cached.dev a ha.1] at hget
          exact .inr ⟨ip, k, _, rfl, ⟨by unfold DIRENT at *; omega, rfl, hmatch.1⟩, hmatch.2, hget⟩
        · exact ih (k := k + 1) h
    · obtain ⟨rfl, rfl⟩ := returns_pure.1 h
      exact .inl ⟨rfl, rfl⟩

theorem returns_callerCont {c : Option Cont} :
    Returns callerCont s c s' ↔ s.kern.started = true ∧ s.kern.mycont s.cur = c ∧ s = s' := by
  simp only [callerCont, returns_bind, returns_get]
  constructor
  · rintro ⟨_, _, ⟨rfl, rfl⟩, h⟩
    split at h
    · rename_i hst
      exact ⟨hst, returns_pure.1 h⟩
    · exact absurd h not_returns_throw
  · rintro ⟨hst, rfl, rfl⟩
    exact ⟨s, s, ⟨rfl, rfl⟩, by rw [if_pos hst]; exact returns_pure.2 ⟨rfl, rfl⟩⟩

/-- The caller in container `c` may not go up from the cached inode `a` by `name`. -/
def FsState.Stops (s : FsState) (a : ℕ) (name : CharArray) : Prop :=
  ∃ c, s.kern.mycont s.cur = some c ∧ c ≠ root ∧ strncmp name (chars "..") 2 = 0 ∧
    (s.kern.containers c).root = some a

theorem returns_dirlookupStops {b : Bool} : Returns (dirlookupStops a name) s b s' ↔
    s.kern.started = true ∧ (s.kern.mycont s.cur = none → strncmp name (chars "..") 2 ≠ 0) ∧
      (b = true ↔ s.Stops a name) ∧ s = s' := by
  by_cases hst : s.kern.started = true
  · rw [dirlookupStops, (returns_callerCont.2 ⟨hst, rfl, rfl⟩).bind_iff, FsState.Stops]
    by_cases hno : s.kern.mycont s.cur = some root ∨ strncmp name (chars "..") 2 ≠ 0
    · rw [if_pos hno, returns_pure]
      grind
    · rw [if_neg hno]
      cases hc : s.kern.mycont s.cur with
      | none => simp_all
      | some c =>
        dsimp only
        rw [returns_get_bind, returns_pure]
        grind
  · simp [dirlookupStops, returns_bind, returns_callerCont, hst]

/-- **`dirlookup`** gets the inode of an entry that matches the name, or changes nothing.  Where the
caller may not go up, the name is that of the directory itself. -/
theorem dirlookup_spec {r : Option (ℕ × ℕ)} (hs : s.WellFormed) (ha : s.Held a)
    (h : Returns (dirlookup a name) s r s') :
    (s.icache a).din.type = T_DIR ∧
    ((r = none ∧ s' = s) ∨ ∃ ip m de, r = some (ip, DIRENT * m) ∧
      s.HasEntry (s.icache a).inum m de ∧
      (s.Stops a name ∧ namecmp (chars ".") de.name = 0 ∨
        ¬ s.Stops a name ∧ namecmp name de.name = 0) ∧
      Returns (iget ROOTDEV de.inum) s ip s') := by
  simp only [dirlookup, returns_bind, returns_inode] at h
  obtain ⟨b, _, hb, _, _, ⟨rfl, rfl⟩, h⟩ := h
  obtain ⟨-, -, hstops, rfl⟩ := returns_dirlookupStops.1 hb
  split at h
  · exact absurd h not_returns_throw
  · rename_i ht
    refine ⟨not_not.1 ht, ?_⟩
    obtain hnone | ⟨ip, m, de, hr, hentry, hname, hget⟩ := dirlookupLoop_spec (k := 0) hs ha h
    · exact .inl hnone
    · refine .inr ⟨ip, m, de, hr, hentry, ?_, hget⟩
      split at hname
      · rename_i hb
        exact .inl ⟨hstops.1 hb, hname⟩
      · rename_i hb
        exact .inr ⟨fun hst => hb (hstops.2 hst), hname⟩

/-! ### Rounds of `namex` -/

theorem FsState.HasEntry.congr {d : ℕ} {de : Dirent} (h : s.HasEntry d k de)
    (hstore : s'.store = s.store) (hsb : s'.sb = s.sb) : s'.HasEntry d k de := by
  have hdisk : s'.disk = s.disk := by
    unfold FsState.disk FsState.blk FsState.dinode FsState.blk
    rw [hstore, hsb]
  unfold FsState.HasEntry FsState.dirent FsState.file at *
  rwa [hdisk]

theorem FsState.WellFormed.ilock (hs : s.WellFormed) (h : Returns (Xv6Container.ilock a) s u s') :
    s'.WellFormed ∧ s'.Held a ∧ s.Looks 0 s' := by
  obtain ⟨href, -, ht, rfl⟩ := returns_ilock h
  refine ⟨hs.locked (by omega) ht, ⟨?_, ?_⟩, FsState.looks_locked s a⟩
  · rw [(FsState.looks_locked s a).ref, Pi.zero_apply]
    omega
  · simp

theorem FsState.WellFormed.iunlock (hs : s.WellFormed)
    (h : Returns (Xv6Container.iunlock a) s u s') : s'.WellFormed ∧ s.Looks 0 s' := by
  obtain ⟨-, href, rfl⟩ := returns_iunlock h
  exact ⟨hs.unlocked (by omega), FsState.looks_unlocked s a⟩

theorem returns_iunlockput :
    Returns (iunlockput a) s u s' ↔ ∃ t, Returns (iunlock a) s () t ∧ Returns (iput a) t u s' := by
  simp only [iunlockput, returns_bind]
  constructor
  · rintro ⟨_, t, h1, h2⟩
    exact ⟨t, h1, h2⟩
  · rintro ⟨t, h1, h2⟩
    exact ⟨(), t, h1, h2⟩

/-- A round of **`namex`** fails, stops at the parent, or goes on with the inode of an entry. -/
theorem namexRound_spec {parent : Bool} {r : ℕ ⊕ Option ℕ} (hs : s.WellFormed)
    (h : Returns (namexRound parent ip path name) s r s') :
    ∃ t, Returns (ilock ip) s () t ∧
      ((r = .inr none ∧ Returns (iunlockput ip) t () s') ∨
        (r = .inr (some ip) ∧ Returns (iunlock ip) t () s' ∧ (t.icache ip).din.type = T_DIR) ∨
        ∃ next m de t', r = .inl next ∧ (t.icache ip).din.type = T_DIR ∧
          s.HasEntry (s.icache ip).inum m de ∧
          (s.Stops ip name ∧ namecmp (chars ".") de.name = 0 ∨
            ¬ s.Stops ip name ∧ namecmp name de.name = 0) ∧
          Returns (iget ROOTDEV de.inum) t next t' ∧ Returns (iunlockput ip) t' () s') := by
  simp only [namexRound, returns_bind, returns_inode] at h
  obtain ⟨_, t, hlock, _, _, ⟨rfl, rfl⟩, h⟩ := h
  refine ⟨t, hlock, ?_⟩
  obtain ⟨ht, hheld, hlooks⟩ := hs.ilock hlock
  have hinum : (t.icache ip).inum = (s.icache ip).inum := by
    refine hlooks.inum ip ?_
    have := (returns_ilock hlock).1
    omega
  split at h
  · simp only [returns_bind, returns_pure] at h
    obtain ⟨_, _, hput, rfl, rfl⟩ := h
    exact .inl ⟨rfl, hput⟩
  · rename_i hdir
    split at h
    · simp only [returns_bind, returns_pure] at h
      obtain ⟨_, _, hunlock, rfl, rfl⟩ := h
      exact .inr (.inl ⟨rfl, hunlock, not_not.1 hdir⟩)
    · simp only [returns_bind] at h
      obtain ⟨o, t', hlook, h⟩ := h
      obtain ⟨hdir, ⟨rfl, rfl⟩ | ⟨next, m, de, rfl, hentry, hname, hget⟩⟩ :=
        dirlookup_spec ht hheld hlook
      · simp only [returns_bind, returns_pure] at h
        obtain ⟨_, _, hput, rfl, rfl⟩ := h
        exact .inl ⟨rfl, hput⟩
      · simp only [returns_bind, returns_pure] at h
        obtain ⟨_, _, hput, rfl, rfl⟩ := h
        refine .inr (.inr ⟨next, m, de, t', rfl, hdir, ?_, ?_, hget, hput⟩)
        · rw [hinum] at hentry
          exact hentry.congr hlooks.store.symm hlooks.sb.symm
        · unfold FsState.Stops at hname ⊢
          rwa [hlooks.kern, hlooks.cur] at hname

theorem FsState.dinode_eq (hstore : s'.store = s.store) (hsb : s'.sb = s.sb) :
    s'.dinode = s.dinode := by
  unfold FsState.dinode FsState.blk
  rw [hstore, hsb]

/-- How a round of `namex` that goes on changes the inode cache, up to the reference it drops. -/
theorem namexRound_moves {parent : Bool} {next : ℕ} (hs : s.WellFormed)
    (href : 0 < (s.icache ip).ref)
    (hlt : (s.dinode (s.icache ip).inum).type = T_DIR → ∀ m de,
      s.HasEntry (s.icache ip).inum m de → de.inum < s.sb.ninodes)
    (h : Returns (namexRound parent ip path name) s (.inl next) s') :
    ∃ t m de, t.WellFormed ∧ t.Held ip ∧ s.Looks (Pi.single next 1) t ∧ Returns (iput ip) t () s' ∧
      (s.dinode (s.icache ip).inum).type = T_DIR ∧ s.HasEntry (s.icache ip).inum m de ∧
      (s.Stops ip name ∧ namecmp (chars ".") de.name = 0 ∨
        ¬ s.Stops ip name ∧ namecmp name de.name = 0) ∧ (t.icache next).inum = de.inum := by
  obtain ⟨t, hlock, ⟨hr0, -⟩ | ⟨hr0, -⟩ | ⟨n, m, de, t₁, hn, hdir, hentry, hname, hget, hput⟩⟩ :=
    namexRound_spec hs h
  · cases hr0
  · cases hr0
  · cases hn
    obtain ⟨hwf, hheld, hlooks⟩ := hs.ilock hlock
    obtain ⟨t₂, hunlock, hput⟩ := returns_iunlockput.1 hput
    rw [hwf.cached.din ip (by simp) hheld.1 hheld.2, hlooks.inum ip href,
      FsState.dinode_eq hlooks.store hlooks.sb] at hdir
    have hwf1 := hwf.iget (hlooks.sb ▸ hlt hdir m de hentry) hget
    obtain ⟨hlooks1, hnext⟩ := FsState.looks_iget hget
    obtain ⟨hwf2, hlooks2⟩ := hwf1.iunlock hunlock
    have hall := (hlooks.trans hlooks1 (fun _ => le_rfl)).trans hlooks2 fun b => by
      rw [zero_add]
      by_cases hb : b = next
      · subst hb; simp
      · simp [hb]
    rw [zero_add, add_zero] at hall
    have hpos : ∀ b, 0 < (t.icache b).ref → 0 < (t₁.icache b).ref := fun b hb => by
      rw [hlooks1.ref]
      by_cases hbn : b = next
      · subst hbn; rw [Pi.single_eq_same]; omega
      · rw [Pi.single_eq_of_ne hbn]; omega
    have hnextpos : 0 < (t₁.icache next).ref := by
      have := hwf.cached.ref next
      rw [hlooks1.ref, Pi.single_eq_same]
      omega
    refine ⟨t₂, m, de, hwf2, ⟨?_, ?_⟩, hall, hput, hdir, hentry, hname, ?_⟩
    · rw [hlooks2.ref]
      have := hpos ip hheld.1
      simpa using this
    · exact (hlooks2.valid ip (hpos ip hheld.1) (hlooks1.valid ip hheld.1 hheld.2).1).1
    · rw [hlooks2.inum next hnextpos, hnext]

/-- **The rule for a lookup that succeeds**: what holds at the head of each round holds of the inode
that is returned, up to a lock taken and released. -/
theorem namexLoop_ind {I : ℕ → CharArray → CharArray → ℕ → FsState → Prop} {parent : Bool}
    {name' : CharArray} (hwf : ∀ {n p x ip s}, I (n + 1) p x ip s → s.WellFormed)
    (hround : ∀ {n p x ip s p' x' next s'}, I (n + 1) p x ip s → skipelem p x = some (p', x') →
      Returns (namexRound parent ip p' x') s (.inl next) s' → I n p' x' next s')
    (hI : I fuel path name ip s)
    (h : Returns (namexLoop parent fuel path name ip) s (some a, name') s') :
    ∃ n p x t, I (n + 1) p x a t ∧ s'.WellFormed ∧ t.Looks 0 s' := by
  induction fuel generalizing s ip path name with
  | zero =>
    obtain ⟨h, -⟩ := returns_pure.1 h
    cases h
  | succ fuel ih =>
    rw [namexLoop] at h
    split at h
    · split at h
      · simp only [returns_bind, returns_pure] at h
        obtain ⟨_, _, _, h, -⟩ := h
        cases h
      · obtain ⟨h, rfl⟩ := returns_pure.1 h
        cases h
        exact ⟨fuel, _, _, _, hI, hwf hI, .refl _⟩
    · rename_i hskip
      obtain ⟨o, t, ho, h⟩ := returns_bind.1 h
      cases o with
      | inl next => exact ih (hround hI hskip ho) h
      | inr r =>
        obtain ⟨h, rfl⟩ := returns_pure.1 h
        obtain ⟨u, hlock, ⟨hr, -⟩ | ⟨hr, hunlock, -⟩ | ⟨_, _, _, _, hr, -⟩⟩ :=
          namexRound_spec (hwf hI) ho
        · cases hr
          cases h
        · cases hr
          cases h
          obtain ⟨hwf', -, hlooks⟩ := (hwf hI).ilock hlock
          obtain ⟨hwf'', hlooks'⟩ := hwf'.iunlock hunlock
          exact ⟨fuel, path, name, s, hI, hwf'',
            add_zero (0 : ℕ → ℤ) ▸ hlooks.trans hlooks' (by simp)⟩
        · cases hr

/-! ### Where a lookup starts -/

theorem returns_namexStart {r : Option ℕ} (h : Returns (namexStart path) s r s') :
    (path.headD 0 = slash ∧ s.kern.mycont s.cur = some root ∧
      ∃ ip, r = some ip ∧ Returns (iget ROOTDEV ROOTINO) s ip s') ∨
    (path.headD 0 = slash ∧ ∃ c, s.kern.mycont s.cur = some c ∧ c ≠ root ∧
      r = (s.kern.containers c).root ∧ s' = s) ∨
    (path.headD 0 ≠ slash ∧ ∃ w, (s.kern.proc s.cur).cwd = some w ∧ r = some w ∧
      s' = s.addRef w 1) := by
  simp only [namexStart, returns_bind, returns_callerCont] at h
  obtain ⟨c, _, ⟨-, hc, rfl⟩, h⟩ := h
  split at h
  · rename_i hpath
    split at h
    · rename_i hroot
      simp only [returns_bind, returns_pure] at h
      obtain ⟨ip, _, hget, rfl, rfl⟩ := h
      exact .inl ⟨hpath, hc.trans hroot, ip, rfl, hget⟩
    · rename_i hroot
      split at h
      · exact absurd h not_returns_throw
      · rename_i c
        simp only [returns_bind, returns_get, returns_pure] at h
        obtain ⟨_, _, ⟨rfl, rfl⟩, rfl, rfl⟩ := h
        exact .inr (.inl ⟨hpath, c, hc, fun e => hroot (by rw [e]), rfl, rfl⟩)
  · rename_i hpath
    rw [returns_get_bind] at h
    split at h
    · exact absurd h not_returns_throw
    · rename_i w hw
      simp only [returns_bind, returns_idup, returns_pure] at h
      obtain ⟨_, _, ⟨rfl, rfl⟩, rfl, rfl⟩ := h
      exact .inr (.inr ⟨hpath, w, hw, rfl, rfl⟩)

theorem returns_namex {parent : Bool} {r : Option ℕ × CharArray}
    (h : Returns (namex path parent name) s r s') :
    ∃ start t, Returns (namexStart path) s start t ∧
      ((∃ ip, start = some ip ∧
        Returns (namexLoop parent (path.length + 1) path name ip) t r s') ∨
        start = none ∧ r.1 = none ∧ s' = t) := by
  simp only [namex, returns_bind] at h
  obtain ⟨start, t, hstart, h⟩ := h
  refine ⟨start, t, hstart, ?_⟩
  cases start with
  | some ip => exact .inl ⟨ip, rfl, h⟩
  | none =>
    dsimp only at h
    split at h
    · exact absurd h not_returns_throw
    · split at h
      · exact absurd h not_returns_throw
      · obtain ⟨rfl, rfl⟩ := returns_pure.1 h
        exact .inr ⟨rfl, rfl, rfl⟩

theorem returns_namei {r : Option ℕ} (h : Returns (namei path) s r s') :
    ∃ name, Returns (namex path false (List.replicate DIRSIZ 0)) s (r, name) s' := by
  simp only [namei, returns_bind, returns_pure] at h
  obtain ⟨⟨r, name⟩, _, h, rfl, rfl⟩ := h
  exact ⟨name, h⟩

end Xv6Container
