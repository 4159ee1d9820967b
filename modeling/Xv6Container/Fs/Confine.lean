import Xv6Container.Fs.Lookup

/-!
# Path confinement

A process in a container other than the root container names files by paths that start at the root
of the container or at its current directory.  In a well-formed directory tree no such path leads
out of the subtree of the container's root.

* `path_confined` : `namei` and `nameiparent` return inodes of the subtree only, as long as the root
  of the container stays referenced in the inode cache;
* `keepsRoot_of_ref` : it does if there is a reference to it besides the one that an absolute path
  uses up.
-/

namespace Xv6Container

/-- The entry is `"."`. -/
def Dirent.IsDot (de : Dirent) : Prop := namecmp (chars ".") de.name = 0

/-- The entry is `".."`. -/
def Dirent.IsDotDot (de : Dirent) : Prop := namecmp (chars "..") de.name = 0

namespace FsState

variable (s : FsState)

/-- Inode `d` is a directory. -/
def IsDir (d : ℕ) : Prop := d < s.sb.ninodes ∧ (s.dinode d).type = T_DIR

/-- Directory `p` has an entry for inode `d` that is neither `"."` nor `".."`. -/
def Child (p d : ℕ) : Prop :=
  s.IsDir p ∧ ∃ k de, s.HasEntry p k de ∧ ¬ de.IsDot ∧ ¬ de.IsDotDot ∧ de.inum = d

/-- Inode `d` lies in the subtree of directory `r`. -/
def Subtree (r d : ℕ) : Prop := Relation.ReflTransGen s.Child r d

/-- The directory tree: `"."` names the directory itself, `".."` its parent if it has one, no
directory has two parents, and the inodes that entries name exist and count their links. -/
structure DirTree : Prop where
  dot : ∀ d k de, s.IsDir d → s.HasEntry d k de → de.IsDot → de.inum = d
  dotdot : ∀ d k de, s.IsDir d → s.HasEntry d k de → de.IsDotDot → (∃ p, s.Child p d) →
    s.Child de.inum d
  parent : ∀ p q d, s.IsDir d → s.Child p d → s.Child q d → p = q
  linked : ∀ d k de, s.IsDir d → s.HasEntry d k de →
    de.inum < s.sb.ninodes ∧ (s.dinode de.inum).nlink ≠ 0

/-- The entry `r` of the inode cache is in use at the head of each round of `namex`. -/
def KeepsLoop (r : ℕ) (parent : Bool) : (fuel : ℕ) → (path name : CharArray) → (ip : ℕ) →
    FsState → Prop
  | 0, _, _, _, _ => True
  | fuel + 1, path, name, ip, s => 0 < (s.icache r).ref ∧
    ∀ path' name' next s', skipelem path name = some (path', name') →
      Returns (namexRound parent ip path' name') s (.inl next) s' →
        KeepsLoop r parent fuel path' name' next s'

/-- The entry `r` of the inode cache stays in use during `namex`. -/
def KeepsRoot (r : ℕ) (parent : Bool) (path name : CharArray) : Prop :=
  ∀ ip t, Returns (namexStart path) s (some ip) t →
    KeepsLoop r parent (path.length + 1) path name ip t

end FsState

variable {s₀ s s' : FsState} {r ip next d k : ℕ} {parent : Bool} {path name : CharArray} {c : Cont}

variable {de : Dirent} {d₀ : ℕ} {name' : CharArray}

theorem Dirent.IsDot.not_isDotDot (h : de.IsDot) : ¬ de.IsDotDot := fun h' =>
  absurd (strncmp_eq_zero_of_eq h h') (by decide)

theorem FsState.DirTree.entry (ht : s.DirTree) (hd : s.IsDir d)
    (hsub : s.Subtree d₀ d) (he : s.HasEntry d k de) (hup : d = d₀ → ¬ de.IsDotDot) :
    s.Subtree d₀ de.inum := by
  by_cases hdot : de.IsDot
  · rwa [ht.dot d k de hd he hdot]
  · by_cases hdd : de.IsDotDot
    · -- the last edge to `d` comes from its parent
      obtain rfl | ⟨p, hp, hpd⟩ := hsub.cases_tail
      · exact absurd hdd (hup rfl)
      · have := ht.dotdot d k de hd he hdd ⟨p, hpd⟩
        rwa [ht.parent de.inum p d hd this hpd]
    · exact hsub.tail ⟨hd, k, de, he, hdot, hdd, rfl⟩

theorem FsState.DirTree.nlink_ne_zero (ht : s.DirTree) (hsub : s.Subtree d₀ d)
    (hne : d ≠ d₀) : (s.dinode d).nlink ≠ 0 := by
  obtain rfl | ⟨p, -, hp, k, de, he, -, -, rfl⟩ := hsub.cases_tail
  · exact absurd rfl hne
  · exact (ht.linked p k de hp he).2

/-- A lookup begun in state `s₀` has got to the cached inode `ip`, in the subtree of directory `d₀`,
which is in entry `r` of the inode cache. -/
structure Inside (s₀ : FsState) (r d₀ ip : ℕ) (s : FsState) : Prop where
  wf : s.WellFormed
  store : s.store = s₀.store
  sb : s.sb = s₀.sb
  kern : s.kern = s₀.kern
  cur : s.cur = s₀.cur
  root : (s.icache r).inum = d₀
  ref : 0 < (s.icache ip).ref
  sub : s₀.Subtree d₀ (s.icache ip).inum

/-- The lookup is by a process of a container, not the root container, whose root is in entry `r` of
the inode cache. -/
def FsState.RootedAt (s : FsState) (r : ℕ) : Prop :=
  ∃ c, s.kern.mycont s.cur = some c ∧ c ≠ Xv6Container.root ∧ (s.kern.containers c).root = some r

theorem not_isDotDot_of_root (hr : s.RootedAt r)
    (hname : s.Stops r name ∧ namecmp (chars ".") de.name = 0 ∨
      ¬ s.Stops r name ∧ namecmp name de.name = 0) : ¬ de.IsDotDot := by
  intro hdd
  obtain ⟨-, hdot⟩ | ⟨hno, hname⟩ := hname
  · exact Dirent.IsDot.not_isDotDot hdot hdd
  · obtain ⟨c, hc, hroot, hr⟩ := hr
    have : strncmp name (chars "..") 2 = 0 :=
      strncmp_eq_zero_of_le (by decide) (strncmp_eq_zero_of_eq hname hdd)
    exact hno ⟨c, hc, hroot, this, hr⟩

section

variable (hin : Inside s₀ r d₀ ip s) (ht : s₀.DirTree) (hr : s₀.RootedAt r)
  (hkeep : 0 < (s.icache r).ref) (h : Returns (namexRound parent ip path name) s (.inl next) s')

include hin ht hr hkeep h

theorem namexRound_next :
    ∃ t, t.WellFormed ∧ t.Held ip ∧ s.Looks (Pi.single next 1) t ∧ Returns (iput ip) t () s' ∧
      s₀.Subtree d₀ (t.icache next).inum := by
  -- the directory and its entry, in the tree at the start of the lookup
  have hdir0 : (s.dinode (s.icache ip).inum).type = T_DIR → s₀.IsDir (s.icache ip).inum :=
    fun hdir => by
      rw [FsState.dinode_eq hin.store hin.sb] at hdir
      exact ⟨hin.sb ▸ hin.wf.cached.inum ip hin.ref, hdir⟩
  obtain ⟨t, m, de, hwf, hheld, hlooks, hput, hdir, hentry, hname, hinum⟩ :=
    namexRound_moves hin.wf hin.ref (fun hdir m de he => by
      rw [hin.sb]
      exact (ht.linked _ _ _ (hdir0 hdir) (he.congr hin.store.symm hin.sb.symm)).1) h
  refine ⟨t, hwf, hheld, hlooks, hput, ?_⟩
  rw [hinum]
  refine ht.entry (hdir0 hdir) hin.sub (hentry.congr hin.store.symm hin.sb.symm) fun he => ?_
  have hipr : ip = r := hin.wf.cached.unique ip r hin.ref hkeep (he.trans hin.root.symm)
  subst hipr
  unfold FsState.Stops at hname
  rw [hin.kern, hin.cur] at hname
  exact not_isDotDot_of_root hr hname

theorem namexRound_ref (b : ℕ) : (s'.icache b).ref =
      (s.icache b).ref + (if b = next then 1 else 0) - if b = ip then 1 else 0 := by
  obtain ⟨t, -, -, hlooks, hput, -⟩ := namexRound_next hin ht hr hkeep h
  rw [iput_ref hput, hlooks.ref]
  by_cases hb : b = next
  · subst hb; simp
  · simp [hb]

/-- **A round of `namex`** stays in the subtree, if the top of the subtree stays referenced. -/
theorem Inside.round (hkeep' : 0 < (s'.icache r).ref) : Inside s₀ r d₀ next s' := by
  have href := namexRound_ref hin ht hr hkeep h
  obtain ⟨t, hwf, hheld, hlooks, hput, hsub⟩ := namexRound_next hin ht hr hkeep h
  have hinum := hlooks.inum ip hin.ref
  obtain ⟨-, rfl⟩ | ⟨⟨hlast, hv, hnl⟩, -, t', ht', rfl⟩ := returns_iput hput
  · have hadd := FsState.looks_addRef t ip (-1)
    have hpos : 0 < (t.icache next).ref := by
      rw [hlooks.ref, Pi.single_eq_same]
      have := hin.wf.cached.ref next
      omega
    have hrt : 0 < (t.icache r).ref := by
      rw [hlooks.ref]
      by_cases hrn : r = next
      · subst hrn; rw [Pi.single_eq_same]; omega
      · rw [Pi.single_eq_of_ne hrn]; omega
    refine ⟨hwf.addRef hheld.1 (by have := hheld.1; omega), hadd.store.trans (hlooks.store.trans
      hin.store), hadd.sb.trans (hlooks.sb.trans hin.sb), hadd.kern.trans (hlooks.kern.trans
      hin.kern), hadd.cur.trans (hlooks.cur.trans hin.cur), ?_, ?_, ?_⟩
    · rw [hadd.inum r hrt, hlooks.inum r hkeep, hin.root]
    · rw [href next, if_pos rfl]
      have h1 := hin.wf.cached.ref next
      have h2 := hin.ref
      split
      · rename_i he
        subst he
        omega
      · omega
    · rwa [hadd.inum next hpos]
  · -- the inode that is dropped would be freed: it has links, or it is the top of the subtree
    exfalso
    by_cases he : (s.icache ip).inum = d₀
    · have hipr : ip = r := hin.wf.cached.unique ip r hin.ref hkeep (he.trans hin.root.symm)
      subst hipr
      have h1 := iput_ref (b := ip) hput
      rw [if_pos rfl] at h1
      omega
    · refine ht.nlink_ne_zero hin.sub he ?_
      rw [hwf.cached.din ip (by simp) hheld.1 hv, hinum, FsState.dinode_eq hlooks.store hlooks.sb,
        FsState.dinode_eq hin.store hin.sb] at hnl
      exact hnl

end

/-- The loop of `namex` stays in the subtree. -/
theorem Inside.loop {fuel : ℕ} {a : ℕ} (hin : Inside s₀ r d₀ ip s)
    (ht : s₀.DirTree) (hr : s₀.RootedAt r)
    (hkeep : FsState.KeepsLoop r parent fuel path name ip s)
    (h : Returns (namexLoop parent fuel path name ip) s (some a, name') s') :
    s₀.Subtree d₀ (s'.icache a).inum := by
  -- the fuel that is left has to count: without any, the top of the subtree need not be referenced
  let I n p x ip s := FsState.KeepsLoop r parent n p x ip s ∧ (n ≠ 0 → Inside s₀ r d₀ ip s)
  obtain ⟨n, p, x, t, ⟨-, hin⟩, -, hlooks⟩ : ∃ n p x t, I (n + 1) p x a t ∧ _ ∧ t.Looks 0 s' := by
    refine namexLoop_ind (fun h => (h.2 (by simp)).wf) ?_ ⟨hkeep, fun _ => hin⟩ h
    rintro n p x ip s p' x' next s' ⟨hkeep, hin⟩ hskip hround
    have hnext := hkeep.2 _ _ _ _ hskip hround
    refine ⟨hnext, fun hn => ?_⟩
    obtain ⟨n, rfl⟩ := Nat.exists_eq_succ_of_ne_zero hn
    exact (hin (by simp)).round ht hr hkeep.1 hround hnext.1
  have hin := hin (by simp)
  rw [hlooks.inum a hin.ref]
  exact hin.sub

/-! ### `namei` and `nameiparent` -/

/-- A process whose current directory is in the subtree of directory `d₀`, the root of its
container, which is in entry `r` of the inode cache. -/
structure FsState.Confined (s : FsState) (r d₀ : ℕ) : Prop where
  rooted : s.RootedAt r
  root : (s.icache r).inum = d₀
  cwd : ∃ w, (s.kern.proc s.cur).cwd = some w ∧ 0 < (s.icache w).ref ∧
    s.Subtree d₀ (s.icache w).inum

theorem FsState.Confined.start {w : ℕ} (hc : s.Confined r d₀)
    (hw : (s.kern.proc s.cur).cwd = some w) (h : Returns (namexStart path) s (some ip) s') :
    (path.headD 0 = slash ∧ ip = r ∧ s' = s) ∨
    (path.headD 0 ≠ slash ∧ ip = w ∧ s' = s.addRef w 1) := by
  obtain ⟨c, hcont, hne, hroot⟩ := hc.rooted
  obtain ⟨-, hc, -⟩ | ⟨habs, d, hd, -, hip, rfl⟩ | ⟨hrel, v, hv, hip, rfl⟩ := returns_namexStart h
  · exact absurd (Option.some.inj (hcont.symm.trans hc)) hne
  · obtain rfl := Option.some.inj (hcont.symm.trans hd)
    exact .inl ⟨habs, Option.some.inj (hip.trans hroot), rfl⟩
  · obtain rfl := Option.some.inj (hw.symm.trans hv)
    exact .inr ⟨hrel, Option.some.inj hip, rfl⟩

theorem inside_start (hs : s.WellFormed) (hc : s.Confined r d₀)
    (hkeep : 0 < (s'.icache r).ref) (h : Returns (namexStart path) s (some ip) s') :
    Inside s r d₀ ip s' := by
  obtain ⟨w, hw, href, hsub⟩ := hc.cwd
  obtain ⟨-, rfl, rfl⟩ | ⟨-, rfl, rfl⟩ := hc.start hw h
  · exact ⟨hs, rfl, rfl, rfl, rfl, hc.root, hkeep, by rw [hc.root]; exact .refl⟩
  · have hadd := FsState.looks_addRef s ip 1
    refine ⟨hs.addRef href (by omega), rfl, rfl, rfl, rfl, ?_, ?_, ?_⟩
    · by_cases hrw : r = ip
      · subst hrw
        rw [hadd.inum r href, hc.root]
      · rw [FsState.addRef, FsState.modifyInode_icache_of_ne _ hrw, hc.root]
    · rw [hadd.ref, Pi.single_eq_same]
      omega
    · rwa [hadd.inum ip href]

theorem namex_confined {a : ℕ} (hs : s.WellFormed) (ht : s.DirTree)
    (hc : s.Confined r d₀) (hkeep : s.KeepsRoot r parent path name)
    (h : Returns (namex path parent name) s (some a, name') s') :
    s.Subtree d₀ (s'.icache a).inum := by
  obtain ⟨_, t, hstart, ⟨ip, rfl, hloop⟩ | ⟨-, h, -⟩⟩ := returns_namex h
  · have hk := hkeep ip t hstart
    exact (inside_start hs hc hk.1 hstart).loop ht hc.rooted hk hloop
  · cases h

/-- **Path confinement.**  In a well-formed directory tree, for a process of a container other than
the root container whose current directory is in the subtree of the container's root, `namei` and
`nameiparent` return only inodes of that subtree, whatever the path, as long as the root of the
container stays referenced in the inode cache. -/
theorem path_confined {d₀ : ℕ} (hs : s.WellFormed) (ht : s.DirTree) (hc : s.Confined r d₀)
    (path name : CharArray) :
    (s.KeepsRoot r false path (List.replicate DIRSIZ 0) →
      ∀ a s', Returns (namei path) s (some a) s' → s.Subtree d₀ (s'.icache a).inum) ∧
    (s.KeepsRoot r true path name →
      ∀ a name' s', Returns (nameiparent path name) s (some a, name') s' →
        s.Subtree d₀ (s'.icache a).inum) := by
  refine ⟨fun hkeep a s' h => ?_, fun hkeep a name' s' h => namex_confined hs ht hc hkeep h⟩
  obtain ⟨name', h⟩ := returns_namei h
  exact namex_confined hs ht hc hkeep h

/-! ### When the root of a container stays referenced -/

theorem keepsLoop_of_ref {fuel : ℕ} (hin : Inside s₀ r d₀ ip s) (ht : s₀.DirTree)
    (hr : s₀.RootedAt r) (href : (if r = ip then 2 else 1) ≤ (s.icache r).ref) :
    FsState.KeepsLoop r parent fuel path name ip s := by
  induction fuel generalizing s ip path name with
  | zero => trivial
  | succ fuel ih =>
    have hpos : 0 < (s.icache r).ref := by split at href <;> omega
    refine ⟨hpos, fun path' name' next s' _ hround => ?_⟩
    have hnext := namexRound_ref hin ht hr hpos hround r
    refine ih (hin.round ht hr hpos hround ?_) ?_ <;> split at href <;> split at hnext <;>
      simp_all <;> omega

theorem keepsRoot_of_ref (hs : s.WellFormed) (ht : s.DirTree) (hc : s.Confined r d₀)
    (href : 0 < (s.icache r).ref) (habs : path.headD 0 = slash → 2 ≤ (s.icache r).ref) :
    s.KeepsRoot r parent path name := by
  intro ip t hstart
  obtain ⟨w, hw, hwref, -⟩ := hc.cwd
  obtain ⟨hpath, hip, ht'⟩ | ⟨-, hip, ht'⟩ := hc.start hw hstart
  · subst ht'
    refine keepsLoop_of_ref (inside_start hs hc href hstart) ht hc.rooted ?_
    rw [if_pos hip.symm]
    exact habs hpath
  · have hr : (t.icache r).ref = (s.icache r).ref + if r = ip then 1 else 0 := by
      rw [ht', (FsState.looks_addRef s w 1).ref, hip]
      by_cases hrw : r = w
      · subst hrw; simp
      · simp [hrw]
    refine keepsLoop_of_ref (inside_start hs hc (by split at hr <;> omega) hstart) ht hc.rooted ?_
    split at hr <;> simp_all <;> omega

/-! ### A container in a small tree -/

section check

variable (s)

instance (de : Dirent) : Decidable de.IsDot := inferInstanceAs (Decidable (_ = _))

instance (de : Dirent) : Decidable de.IsDotDot := inferInstanceAs (Decidable (_ = _))

instance (d : ℕ) : Decidable (s.IsDir d) := inferInstanceAs (Decidable (_ ∧ _))

namespace FsState

theorem child_iff {p d : ℕ} : s.Child p d ↔ s.IsDir p ∧ ∃ k < s.disk.size p / DIRENT,
    (s.dirent p k).inum ≠ 0 ∧ ¬ (s.dirent p k).IsDot ∧ ¬ (s.dirent p k).IsDotDot ∧
      (s.dirent p k).inum = d := by
  simp only [Child, hasEntry_iff]
  refine and_congr_right fun _ => ⟨?_, ?_⟩
  · rintro ⟨k, _, ⟨hk, rfl, h0⟩, hdot, hdd, hd⟩
    exact ⟨k, hk, h0, hdot, hdd, hd⟩
  · rintro ⟨k, hk, h0, hdot, hdd, hd⟩
    exact ⟨k, _, ⟨hk, rfl, h0⟩, hdot, hdd, hd⟩

instance (p d : ℕ) : Decidable (s.Child p d) := decidable_of_iff _ s.child_iff.symm

/-- Entry `k` of directory `d` is as it should be. -/
def TreeEntry (d k : ℕ) : Prop := (s.dirent d k).inum ≠ 0 →
  ((s.dirent d k).IsDot → (s.dirent d k).inum = d) ∧
  ((s.dirent d k).IsDotDot → (∃ p < s.sb.ninodes, s.Child p d) → s.Child (s.dirent d k).inum d) ∧
  (s.dirent d k).inum < s.sb.ninodes ∧ (s.dinode (s.dirent d k).inum).nlink ≠ 0

instance (d k : ℕ) : Decidable (s.TreeEntry d k) := inferInstanceAs (Decidable (_ → _ ∧ _ ∧ _ ∧ _))

/-- Directory `d` is as it should be. -/
def TreeDir (d : ℕ) : Prop := s.IsDir d → (∀ k < s.disk.size d / DIRENT, s.TreeEntry d k) ∧
  ∀ p < s.sb.ninodes, s.Child p d → ∀ q < s.sb.ninodes, s.Child q d → p = q

instance (d : ℕ) : Decidable (s.TreeDir d) := inferInstanceAs (Decidable (_ → _ ∧ _))

/-- What there is to check of a directory tree. -/
def TreeCheck : Prop := ∀ d < s.sb.ninodes, s.TreeDir d

instance : Decidable s.TreeCheck := inferInstanceAs (Decidable (∀ _, _))

variable {s}

theorem TreeCheck.dirTree (h : s.TreeCheck) : s.DirTree := by
  have hentry : ∀ d k de, s.IsDir d → s.HasEntry d k de → (de.IsDot → de.inum = d) ∧
      (de.IsDotDot → (∃ p < s.sb.ninodes, s.Child p d) → s.Child de.inum d) ∧
      de.inum < s.sb.ninodes ∧ (s.dinode de.inum).nlink ≠ 0 := fun d k de hd he => by
    obtain ⟨hk, rfl, h0⟩ := s.hasEntry_iff.1 he
    exact (h d hd.1 hd).1 k hk h0
  refine ⟨fun d k de hd he => (hentry d k de hd he).1, fun d k de hd he hdd hp => ?_,
    fun p q d hd hp hq => (h d hd.1 hd).2 p hp.1.1 hp q hq.1.1 hq,
    fun d k de hd he => (hentry d k de hd he).2.2⟩
  obtain ⟨p, hp⟩ := hp
  exact (hentry d k de hd he).2.1 hdd ⟨p, hp.1.1, hp⟩

end FsState

end check

/-- The process in slot 0 is in container 1; both have entry 0 of the inode cache, as its current
directory and as its root. -/
def jailKernel : Kernel :=
  { Kernel.procinit [] 0 with
    started := true
    proc := Function.update (fun _ => Proc.zero) 0
      { Proc.zero with container := some 1, cwd := some 0 }
    containers := Function.update (fun _ => Container.init) 1
      { Container.init with root := some 0 } }

/-- A disk with room for four inodes and with three data blocks. -/
def jailSb : Superblock :=
  { size := 17, nblocks := 3, ninodes := 4, nlog := 10, logstart := 2, inodestart := 12,
    bmapstart := 13 }

/-- The root directory has a directory `jail` (inode 2), which has a directory `a` (inode 3). -/
def jail : FsState :=
  (((((((blank jailKernel jailSb 17).putInode 1 (dirInode 14 48)).putInode 2
    (dirInode 15 48)).putInode 3 (dirInode 16 32)).setBlk 14
    (dirBlock [⟨1, chars "."⟩, ⟨1, chars ".."⟩, ⟨2, chars "jail"⟩])).setBlk 15
    (dirBlock [⟨2, chars "."⟩, ⟨1, chars ".."⟩, ⟨3, chars "a"⟩])).setBlk 16
    (dirBlock [⟨3, chars "."⟩, ⟨2, chars ".."⟩])).modifyInode 0 fun _ =>
      { dev := ROOTDEV, inum := 2, ref := 2, locked := false, valid := false, din := Dinode.zero }

theorem wellFormed_jail : jail.WellFormed := by
  have h : jail.Small 1 := by decide +kernel
  refine h.wellFormed (by decide) fun a ha => ?_
  have hne : a ≠ 0 := by omega
  rw [jail, FsState.modifyInode_icache_of_ne _ hne]
  rfl

theorem confined_jail : jail.Confined 0 2 where
  rooted := ⟨1, rfl, by decide, rfl⟩
  root := rfl
  cwd := ⟨0, rfl, by decide, .refl⟩

/-- Going up from the root of the container leads nowhere else. -/
theorem path_confined_jail : ∃ a s', Returns (namei (chars "/../a/../../a")) jail (some a) s' ∧
    jail.Subtree 2 (s'.icache a).inum := by
  have ht : jail.DirTree := FsState.TreeCheck.dirTree (by decide +kernel)
  obtain ⟨s', h⟩ : ∃ s', Returns (namei (chars "/../a/../../a")) jail (some 1) s' :=
    exists_returns (by decide +kernel)
  have hkeep : jail.KeepsRoot 0 false (chars "/../a/../../a") (List.replicate DIRSIZ 0) :=
    keepsRoot_of_ref wellFormed_jail ht confined_jail (by decide) fun _ => by decide
  exact ⟨1, s', h, (path_confined wellFormed_jail ht confined_jail _ []).1 hkeep 1 s' h⟩

end Xv6Container
