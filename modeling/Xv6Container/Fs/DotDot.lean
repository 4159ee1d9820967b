import Xv6Container.Fs.Blind
import Xv6Container.Fs.Confine
import Xv6Container.Fs.Sysfile
import Xv6Container.Fs.Trans

/-!
# The rule for the root of a container

`dirlookup` looks for `"."` instead of a name that begins with two dots when the directory is the
root of the caller's container.  So it treats `".."` as it should, and every other such name, like
`"..a"`, as if it were the directory itself.

* `container_root_rule_iff` : **when a process in a container finds what one in the root container
  would find**, and makes, links and removes files as this one would.
-/

namespace Xv6Container

open FsState

/-! ### Calls with other tables -/

section

variable {D : ℕ → Prop} {s : FsState} {a : ℕ} {name : CharArray}

theorem blind_ialloc (dev : ℕ) (type : Int16) : Blind D (ialloc dev type) := by
  have L := blindRules D
  refine L.get (fun _ _ => rfl) fun s => ?_
  split
  · exact blind_throw _
  · exact L.bind (L.setBuf _ _) fun _ => L.bind (L.logWrite _) fun _ => L.iget _ _

theorem blind_direntLoop (msg : String) (p : Dirent → Bool) (fuel off : ℕ) :
    Blind D (direntLoop a msg p fuel off) := by
  have L := blindRules D
  induction fuel generalizing off with
  | zero => exact L.pure _
  | succ fuel ih =>
    exact L.bind (L.inode a) fun _ => rule_ite (L.bind (L.readi a _ _ _) fun _ =>
      rule_ite (blind_throw _) (rule_ite (L.pure _) (ih _))) (L.pure _)

theorem blind_dirlink (hname : strncmp name (chars "..") 2 = 0 → D a) (inum : ℕ) :
    Blind D (dirlink a name inum) := by
  have L := blindRules D
  refine L.bind (L.dirlookup a hname) fun r => ?_
  cases r with
  | some x => exact L.bind (L.iput _) fun _ => L.pure _
  | none =>
    exact L.bind (L.inode a) fun _ => L.bind (blind_direntLoop _ _ _ _) fun _ =>
      L.bind (L.writei a _ _ _) fun _ => rule_ite (blind_throw _) (L.pure _)

theorem blind_addLinks (d : Int16) : Blind D (addLinks a d) :=
  have L := blindRules D
  L.bind (L.setDin a _) fun _ => L.iupdate a

theorem blind_createNew {ip : ℕ} (hname : strncmp name (chars "..") 2 = 0 → D a) (hip : D ip)
    (type major minor : Int16) : Blind D (createNew a name type major minor ip) := by
  have L := blindRules D
  have hend : Blind D (do
      if (← dirlink a name (← inode ip).inum) < 0 then throw (.panic "create: dirlink")
      else
        iunlockput a
        return some ip) :=
    L.bind (L.inode ip) fun _ => L.bind (blind_dirlink hname _) fun _ =>
      rule_ite (blind_throw _) (L.bind (L.iunlockput a) fun _ => L.pure _)
  have hdots : Blind D (createDots a ip) :=
    L.bind (blind_addLinks 1) fun _ => L.bind (L.inode ip) fun _ =>
      L.bind (blind_dirlink (fun _ => hip) _) fun _ => rule_ite (blind_throw _)
        (L.bind (L.inode a) fun _ => L.bind (blind_dirlink (fun _ => hip) _) fun _ =>
          rule_ite (blind_throw _) (L.pure _))
  exact L.bind (L.ilock ip) fun _ => L.bind (L.setDin ip _) fun _ => L.bind (L.iupdate ip) fun _ =>
    rule_ite (L.bind hdots fun _ => hend) hend

/-- The inode that `ialloc` returns is not one that is in use. -/
theorem ialloc_ne {dev b : ℕ} {type : Int16} {t : FsState} (hs : s.WellFormed) (ha : s.Held a)
    (h : Returns (ialloc dev type) s b t) : b ≠ a := by
  rintro rfl
  rw [ialloc, returns_get_bind] at h
  split at h
  · exact absurd h not_returns_throw
  · rename_i i hi
    simp only [returns_bind, returns_setBuf, returns_logWrite] at h
    obtain ⟨_, _, rfl, _, _, ⟨l, -, rfl⟩, hget⟩ := h
    obtain ⟨hlooks, rfl⟩ := looks_iget hget
    have hfree := List.find?_some hi
    rw [decide_eq_true_eq, hlooks.inum b ha.1] at hfree
    refine hs.cached.type b ha.1 ha.2 ?_
    rw [hs.cached.din b (by simp) ha.1 ha.2]
    exact hfree.2

theorem blindAt_createIn (hs : s.WellFormed) (ha : s.Held a)
    (hname : strncmp name (chars "..") 2 = 0 → D a) (hD : ∀ b ≠ a, D b)
    (type major minor : Int16) : BlindAt D s (createIn a name type major minor) := by
  have L := blindRules D
  refine (L.dirlookup a hname s).bind fun r t hr => ?_
  obtain ⟨-, ⟨rfl, rfl⟩ | ⟨ip, m, de, rfl, -⟩⟩ := dirlookup_spec hs ha hr
  · refine (L.inode a t).bind fun d u hu => (blind_ialloc _ _ u).bind fun ip v hv => ?_
    obtain ⟨-, rfl⟩ := returns_inode.1 hu
    exact blind_createNew hname (hD ip (ialloc_ne hs ha hv)) type major minor v
  · exact (L.bind (L.iunlockput a) fun _ => L.bind (L.ilock ip) fun _ => L.bind (L.inode ip)
      fun _ => rule_ite (L.pure _) (L.bind (L.iunlockput ip) fun _ => L.pure _)) t

theorem blind_linkIn (hname : strncmp name (chars "..") 2 = 0 → D a) (ip : ℕ) :
    Blind D (linkIn a name ip) := by
  have L := blindRules D
  have hbad : Blind D (linkBad a ip) :=
    L.bind (L.iunlockput a) fun _ => L.bind (L.ilock ip) fun _ => L.bind (blind_addLinks _)
      fun _ => L.bind (L.iunlockput ip) fun _ => L.pure _
  exact L.bind (L.inode a) fun _ => L.bind (L.inode ip) fun _ => rule_ite hbad <|
    L.bind (L.inode ip) fun _ => L.bind (blind_dirlink hname _) fun _ => rule_ite hbad <|
      L.bind (L.iunlockput a) fun _ => L.bind (L.iput ip) fun _ => L.pure _

theorem blind_unlinkIn (hname : strncmp name (chars "..") 2 = 0 → D a) :
    Blind D (unlinkIn a name) := by
  have L := blindRules D
  have hbad : Blind D (do
      iunlockput a
      return (-1 : ℤ)) := L.bind (L.iunlockput a) fun _ => L.pure _
  refine rule_ite hbad (L.bind (L.dirlookup a hname) fun r => ?_)
  cases r with
  | none => exact hbad
  | some x =>
    have hfull : Blind D (isFullDir x.1) := L.bind (L.inode _) fun _ => rule_ite
      (L.bind (L.bind (L.inode _) fun _ => L.bind (blind_direntLoop _ _ _ _) fun _ => L.pure _)
        fun _ => L.pure _) (L.pure _)
    have hend : Blind D (do
        iunlockput a
        addLinks x.1 (-1)
        iunlockput x.1
        return (0 : ℤ)) := L.bind (L.iunlockput a) fun _ => L.bind (blind_addLinks _) fun _ =>
      L.bind (L.iunlockput _) fun _ => L.pure _
    refine L.bind (L.ilock _) fun _ => L.bind (L.inode _) fun _ => rule_ite (blind_throw _) <|
      L.bind hfull fun _ => rule_ite (L.bind (L.iunlockput _) fun _ => hbad) <|
        L.bind (L.writei a _ _ _) fun _ => rule_ite (blind_throw _) (L.bind (L.inode _) fun _ => ?_)
    exact rule_ite (L.bind (blind_addLinks _) fun _ => hend) hend

end

/-! ### The rule -/

namespace FsState

/-- `dirlookup` returns, and finds the entry with the inode number and the offset `x`, or none. -/
def LooksUp (s : FsState) (a : ℕ) (name : CharArray) (x : Option (ℕ × ℕ)) : Prop :=
  ∃ r s', Returns (dirlookup a name) s r s' ∧ (r.map fun y => ((s'.icache y.1).inum, y.2)) = x

/-- Entry `a` of the inode cache holds a directory, in which the caller finds the directory itself
under the name `"."`. -/
structure IsDirectory (s : FsState) (a : ℕ) : Prop where
  wf : s.WellFormed
  held : s.Held a
  dot : ∃ off, s.LooksUp a (chars ".") (some ((s.icache a).inum, off))

/-- The caller is a process of the root container. -/
def asRoot (s : FsState) : FsState :=
  s.setKern (s.kern.modifyProc s.cur fun p => { p with container := some root })

/-- What `m` returns and what it makes of the file system is the same for a process of the root
container.  The tables may differ: the blocks are charged to the container of the caller. -/
def SameAsRoot {α : Type} (s : FsState) (m : FsM α) : Prop :=
  ∀ x (t : FsState), (∃ k, Returns m s x (t.setKern k)) ↔ ∃ k, Returns m s.asRoot x (t.setKern k)

/-- `create`, `sys_link` and `sys_unlink` of the name in the directory do the same for a process of
the root container. -/
structure CallsAsRoot (s : FsState) (a : ℕ) (name : CharArray) : Prop where
  create : ∀ type major minor, s.SameAsRoot (createIn a name type major minor)
  link : ∀ ip, s.SameAsRoot (linkIn a name ip)
  unlink : s.SameAsRoot (unlinkIn a name)

variable {s : FsState} {a : ℕ} {c : Cont} {name : CharArray} {x y : Option (ℕ × ℕ)}

theorem LooksUp.unique (hx : s.LooksUp a name x) (hy : s.LooksUp a name y) : x = y := by
  obtain ⟨r, t, h, rfl⟩ := hx
  obtain ⟨r', t', h', rfl⟩ := hy
  obtain ⟨rfl, rfl⟩ := h.unique h'
  rfl

theorem LooksUp.iff (hx : s.LooksUp a name x) : s.LooksUp a name y ↔ y = x :=
  ⟨fun hy => hy.unique hx, fun h => h ▸ hx⟩

theorem LooksUp.entry {i off : ℕ} (hs : s.WellFormed) (ha : s.Held a) (hno : ¬ s.Stops a name)
    (h : s.LooksUp a name (some (i, off))) :
    ∃ m, off = DIRENT * m ∧ namecmp name (s.dirent (s.icache a).inum m).name = 0 := by
  obtain ⟨r, t, hr, hx⟩ := h
  obtain ⟨-, ⟨rfl, -⟩ | ⟨ip, m, de, rfl, ⟨-, rfl, -⟩, hname, -⟩⟩ := dirlookup_spec hs ha hr
  · cases hx
  · exact ⟨m, (Prod.mk.inj (Option.some.inj hx)).2.symm, (hname.resolve_left fun h => hno h.1).2⟩

theorem not_stops_dot : ¬ s.Stops a (chars ".") := fun ⟨_, _, _, hdots, _⟩ =>
  absurd hdots (by decide)

/-- The caller cannot go up: it looks for the directory itself. -/
theorem Stops.looksUp (h : s.Stops a name) (hx : s.LooksUp a (chars ".") x) :
    s.LooksUp a name x := by
  obtain ⟨r, t, hr, rfl⟩ := hx
  obtain ⟨b, _, hb, hr⟩ := returns_bind.1 hr
  obtain ⟨hst, -, hstops, rfl⟩ := returns_dirlookupStops.1 hb
  obtain rfl : b = false := Bool.eq_false_iff.2 fun hb => not_stops_dot (hstops.1 hb)
  obtain ⟨c, hc, -⟩ := id h
  have hb' : Returns (dirlookupStops a name) s true s :=
    returns_dirlookupStops.2 ⟨hst, by simp [hc], by simp [h], rfl⟩
  refine ⟨r, t, ?_, rfl⟩
  rw [dirlookup, hb'.bind_iff]
  exact hr

theorem not_stops_asRoot : ¬ s.asRoot.Stops a name := fun ⟨d, hd, hroot, _⟩ => by
  simp [asRoot, Kernel.mycont, eq_comm, hroot] at hd

variable (hc : s.kern.mycont s.cur = some c)

include hc

theorem agrees_asRoot : s.Agrees (fun b => (s.kern.containers c).root ≠ some b) s.asRoot.kern where
  started := rfl
  cwd := by simp [asRoot]
  own := by simp [hc]
  other := by simp [asRoot, Kernel.mycont]
  stops b hb name := by
    refine iff_of_false not_stops_asRoot ?_
    rintro ⟨d, hd, -, -, hr⟩
    obtain rfl := Option.some.inj (hc.symm.trans hd)
    exact hb hr

theorem sameAsRoot {α : Type} {m : FsM α}
    (hm : BlindAt (fun b => (s.kern.containers c).root ≠ some b) s m)
    (hm' : BlindAt (fun b => (s.kern.containers c).root ≠ some b) s.asRoot m) :
    s.SameAsRoot m := by
  refine fun x t => ⟨fun ⟨k, h⟩ => ?_, fun ⟨k, h⟩ => ?_⟩
  · obtain ⟨k', h, -⟩ := hm (agrees_asRoot hc) h
    exact ⟨k', h⟩
  · obtain ⟨k', h, -⟩ := hm' (agrees_asRoot hc).symm h
    exact ⟨k', h⟩

end FsState

/-- A name that matches `"."` does not begin with two dots. -/
theorem not_dots_of_dot {name : CharArray} (h : namecmp name (chars ".") = 0) :
    strncmp name (chars "..") 2 ≠ 0 := by
  have hdot : chars "." = [46] := by decide
  have hdots : chars ".." = [46, 46] := by decide
  have h := strncmp_eq_zero_of_le (m := 2) (by decide) h
  intro h'
  rw [strncmp_succ_eq_zero, strncmp_succ_eq_zero, hdot] at h
  rw [strncmp_succ_eq_zero, strncmp_succ_eq_zero, hdots] at h'
  simp only [List.headD_cons, List.tail_cons, List.headD_nil] at h h'
  grind

variable {s : FsState} {a : ℕ} {c : Cont}

/-- **The rule for the root of a container.**  A process in container `c`, which is not the root
container, looks for a name in a directory.  It finds what a process in the root container would
find, and the directory itself when this is the root of `c` and the name is `".."`; and it makes,
links and removes a file of another name in the root of `c` as that process would.  This is so
exactly unless the directory is the root of `c` and the name begins with two dots, but is not
`".."`. -/
theorem container_root_rule_iff (h : s.IsDirectory a) (hc : s.kern.mycont s.cur = some c)
    (hne : c ≠ root) (name : CharArray) :
    ((if (s.kern.containers c).root = some a ∧ namecmp name (chars "..") = 0 then
        ∃ off, ∀ x, s.LooksUp a name x ↔ x = some ((s.icache a).inum, off)
      else ∀ x, s.LooksUp a name x ↔ s.asRoot.LooksUp a name x) ∧
      ((s.kern.containers c).root = some a → namecmp name (chars ".") ≠ 0 →
        namecmp name (chars "..") ≠ 0 → s.CallsAsRoot a name)) ↔
      ((s.kern.containers c).root = some a → strncmp name (chars "..") 2 = 0 →
        namecmp name (chars "..") = 0) := by
  have hwf : s.asRoot.WellFormed := h.wf.setKern _
  by_cases hstop : strncmp name (chars "..") 2 = 0 ∧ (s.kern.containers c).root = some a
  · -- the caller sees the entry of the directory itself
    obtain ⟨off, hdot⟩ := h.dot
    have hfind := FsState.Stops.looksUp ⟨c, hc, hne, hstop⟩ hdot
    by_cases hexact : namecmp name (chars "..") = 0
    · rw [if_pos ⟨hstop.2, hexact⟩]
      exact iff_of_true ⟨⟨off, fun _ => hfind.iff⟩, fun _ _ hh => absurd hexact hh⟩
        fun _ _ => hexact
    · rw [if_neg fun hh => hexact hh.2]
      refine iff_of_false (fun hall => ?_) fun hh => hexact (hh hstop.2 hstop.1)
      obtain ⟨m, hm, hname⟩ := hdot.entry h.wf h.held not_stops_dot
      obtain ⟨n, hn, hname'⟩ := ((hall.1 _).1 hfind).entry hwf h.held not_stops_asRoot
      obtain rfl : n = m := by unfold DIRENT at *; omega
      exact absurd hstop.1 (not_dots_of_dot (strncmp_eq_zero_of_eq hname' hname))
  · have hdots : strncmp name (chars "..") 2 = 0 → (s.kern.containers c).root ≠ some a :=
      fun hp hr => hstop ⟨hp, hr⟩
    have hle : namecmp name (chars "..") = 0 → strncmp name (chars "..") 2 = 0 :=
      strncmp_eq_zero_of_le (by decide)
    rw [if_neg fun hh => hdots (hle hh.2) hh.1]
    refine iff_of_true ⟨fun x => ?_, fun hr _ _ => ?_⟩ fun hr hp => absurd hr (hdots hp)
    · have hsame := sameAsRoot hc ((blindRules _).dirlookup a hdots s)
        ((blindRules _).dirlookup a hdots s.asRoot)
      refine ⟨fun ⟨r, t, hl, hx⟩ => ?_, fun ⟨r, t, hl, hx⟩ => ?_⟩
      · obtain ⟨k, hl⟩ := (hsame r t).1 ⟨t.kern, hl⟩
        exact ⟨r, _, hl, hx⟩
      · obtain ⟨k, hl⟩ := (hsame r t).2 ⟨t.kern, hl⟩
        exact ⟨r, _, hl, hx⟩
    · have hother : ∀ b ≠ a, (s.kern.containers c).root ≠ some b := fun b hb hr' =>
        hb (Option.some.inj (hr'.symm.trans hr))
      exact
        { create := fun type major minor => sameAsRoot hc
            (blindAt_createIn h.wf h.held hdots hother type major minor)
            (blindAt_createIn hwf h.held hdots hother type major minor)
          link := fun ip => sameAsRoot hc (blind_linkIn hdots ip s) (blind_linkIn hdots ip _)
          unlink := sameAsRoot hc (blind_unlinkIn hdots s) (blind_unlinkIn hdots _) }

/-- The directory `jail`, held by the process whose root it is. -/
def jailed : FsState := jail.locked 0

theorem looksUp_of_run {name : CharArray} {x : Option (ℕ × ℕ)}
    (h : ((dirlookup a name).run s).toOption.map
      (fun y => y.1.map fun z => ((y.2.icache z.1).inum, z.2)) = some x) : s.LooksUp a name x := by
  obtain ⟨y, hy, hx⟩ := Option.map_eq_some_iff.1 h
  exact ⟨y.1, y.2, toOption_run_eq_some.1 hy, hx⟩

theorem isDirectory_jailed : jailed.IsDirectory 0 where
  wf := wellFormed_jail.locked (by decide) fun _ => by decide +kernel
  held := ⟨by decide +kernel, by decide +kernel⟩
  dot := ⟨0, looksUp_of_run (by decide +kernel)⟩

/-- `"a"` is found, made and removed as it is from outside. -/
theorem container_root_rule_a : jailed.IsDirectory 0 ∧
    (∀ x, jailed.LooksUp 0 (chars "a") x ↔ jailed.asRoot.LooksUp 0 (chars "a") x) ∧
    jailed.CallsAsRoot 0 (chars "a") := by
  have h := (container_root_rule_iff isDirectory_jailed (c := 1) rfl (by decide)
    (chars "a")).2 fun _ h => absurd h (by decide)
  rw [if_neg (by decide)] at h
  exact ⟨isDirectory_jailed, h.1, h.2 rfl (by decide) (by decide)⟩

/-- Nothing is called `"..a"`, but in the root of its container a process finds the directory itself
under this name, and locks it twice to remove the file. -/
theorem container_root_rule_dots : jailed.LooksUp 0 (chars "..a") (some (2, 0)) ∧
    jailed.asRoot.LooksUp 0 (chars "..a") none ∧
    Fails (unlinkIn 0 (chars "..a")) jailed .deadlock ∧
    ∃ t, Returns (unlinkIn 0 (chars "..a")) jailed.asRoot (-1) t :=
  ⟨looksUp_of_run (by decide +kernel), looksUp_of_run (by decide +kernel),
    fails_iff_map.2 (by decide +kernel), exists_returns (by decide +kernel)⟩

end Xv6Container
