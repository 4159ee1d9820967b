import Xv6Container.Fs.Balance
import Xv6Container.Fs.Blind
import Xv6Container.Fs.Trans

/-!
# Creating a container

`cinit` of `kernel/proc.c` together with the path lookup it makes.  The caller is moved into the
first free container before its root directory is looked up, and nothing is checked afterwards.

* `cinit_all_or_nothing_iff` : **a call of `cinit` does one or the other** only when the root
  directory it is given is the caller's own working directory.
-/

namespace Xv6Container

open FsState

/-- `namexinit`: like `namex`, but every path starts at the root directory. -/
def namexinit (path : CharArray) (nameiparent : Bool) (name : CharArray) :
    FsM (Option ℕ × CharArray) := do
  let ip ← iget ROOTDEV ROOTINO
  namexLoop nameiparent (path.length + 1) path name ip

/-- `p->container = c`, for the calling process. -/
def FsState.enter (s : FsState) (c : Cont) : FsState :=
  s.setKern (s.kern.modifyProc s.cur fun q => { q with container := some c })

/-- The lookup of the root directory for the container `c`. -/
def contRoot (c : Cont) (rootDir : CharArray) : FsM (Option ℕ) := do
  if c = root then
    return (← namexinit (chars "/") false []).1
  else namei rootDir

/-- `cinit` by the calling process.  What it stores in the tables is `Kernel.cinit`. -/
def cinit (name rootDir : CharArray) (maxProc maxPage maxDisk : ℤ) : FsM ℤ := do
  let s ← get
  match s.kern.freeCont with
  | none => set (s.setKern { s.kern with started := true })
  | some c =>
    set (s.enter c)
    beginOp
    let ip ← contRoot c rootDir
    endOp
    modify fun s => s.setKern (s.kern.cinit s.cur name rootDir maxProc maxPage maxDisk ip)
  return 0

/-! ### What a call should do -/

/-- In the namespace of the caller, `path` names inode `i`. -/
def FsState.Names (s : FsState) (path : CharArray) (i : ℕ) : Prop :=
  ∃ t u a, Returns beginOp s () t ∧ Returns (namei path) t (some a) u ∧ (u.icache a).inum = i

/-- The caller has been moved into the container `c`, which was free: it is running with the given
name, limits and `root_dir`.  Its root is the inode that the path named for the caller before, with
a reference for the container and one for the working directory of the caller, whose old working
directory has been given up. -/
structure CinitDone (name rootDir : CharArray) (maxProc maxPage maxDisk : ℤ) (s s' : FsState)
    (c : Cont) : Prop where
  free : (s.kern.containers c).state = .cunused
  caller : (s'.kern.proc s.cur).container = some c
  state : (s'.kern.containers c).state = .crunning
  maxproc : (s'.kern.containers c).maxproc = maxProc
  memlimit : (s'.kern.containers c).memlimit = maxPage
  disklimit : (s'.kern.containers c).disklimit = maxDisk
  named : strncmp (s'.kern.containers c).name name 16 = 0
  dir : str (s'.kern.containers c).rootDir = str rootDir
  root : ∃ a, (s'.kern.containers c).root = some a ∧ (s'.kern.proc s.cur).cwd = some a ∧
    s.Names rootDir (s'.icache a).inum ∧
    ∀ b, (s'.icache b).ref = (s.icache b).ref + 2 * oneRef (some a) b -
      oneRef (s.kern.proc s.cur).cwd b

/-- The caller is where it was, and no container has changed. -/
structure CinitRefused (s s' : FsState) : Prop where
  caller : (s'.kern.proc s.cur).container = (s.kern.proc s.cur).container
  cwd : (s'.kern.proc s.cur).cwd = (s.kern.proc s.cur).cwd
  containers : s'.kern.containers = s.kern.containers

/-- The call creates a container, or returns a value other than 0 and changes nothing. -/
def CinitAllOrNothing (name rootDir : CharArray) (maxProc maxPage maxDisk : ℤ) (s : FsState) :
    Prop :=
  ∃ r s', Returns (cinit name rootDir maxProc maxPage maxDisk) s r s' ∧
    (r = 0 ∧ (∃ c, CinitDone name rootDir maxProc maxPage maxDisk s s' c) ∨
      r ≠ 0 ∧ CinitRefused s s')

/-- When a call can be relied on.  There is a free container, and the path is relative and leads the
caller to its working directory; for the root container, which is given the root directory whatever
the path is, this is the working directory of the caller, and the path leads there.  The `root_dir`
that the last user of the container has left is not longer than the path. -/
def CinitSafe (rootDir : CharArray) (s : FsState) : Prop :=
  ∃ c cwd t u, s.kern.freeCont = some c ∧ (s.kern.proc s.cur).cwd = some cwd ∧
    (s.kern.containers c).rootDir.getD (strlen rootDir) 0 = 0 ∧ Returns beginOp s () t ∧
    if c = root then Returns (iget ROOTDEV ROOTINO) t cwd u ∧ s.Names rootDir ROOTINO
    else rootDir.headD 0 ≠ slash ∧ Returns (namei rootDir) t (some cwd) u

/-- The directory that processes of container `c` cannot leave by `".."`. -/
def Kernel.barrier (k : Kernel) (c : Cont) : Option ℕ :=
  if c = root then none else (k.containers c).root

/-! ### The strings -/

theorem str_strncpy_strlen {s t : CharArray} :
    str (strncpy s t (strlen t)) = str t ↔ s.getD (strlen t) 0 = 0 := by
  have hfill : (List.range (strlen t)).map (fun j => (str t).getD j 0) = str t := by
    refine List.ext_getElem (by simp [strlen, str]) fun j _ hj => ?_
    simp [List.getD_eq_getElem?_getD, List.getElem?_eq_getElem hj]
  have happ : str (str t ++ s.drop (strlen t)) = str t ++ str (s.drop (strlen t)) := by
    rw [str, List.takeWhile_append_of_pos fun b hb => by simpa using ne_zero_of_mem_str hb]
    rfl
  rw [strncpy, ← str, hfill, happ, List.append_right_eq_self]
  have hhead : (s.drop (strlen t)).headD 0 = s.getD (strlen t) 0 := by
    rw [List.headD_eq_head?_getD, List.head?_drop, List.getD_eq_getElem?_getD]
  rw [← hhead]
  cases s.drop (strlen t) with
  | nil => simp
  | cons a l =>
    rw [str_cons]
    split
    · simp_all
    · simp_all

theorem strncmp_fill (t : CharArray) (n : ℕ) (l : CharArray) :
    strncmp ((List.range n).map (fun j => (str t).getD j 0) ++ l) t n = 0 := by
  induction n generalizing t with
  | zero => rfl
  | succ n ih =>
    rw [List.range_succ_eq_map, List.map_cons, List.cons_append, strncmp_succ_eq_zero]
    cases t with
    | nil => exact ⟨rfl, .inl rfl⟩
    | cons a t =>
      rw [str_cons]
      split
      · rename_i ha
        exact ⟨by simp [ha], .inl (by simp)⟩
      · refine ⟨rfl, .inr ?_⟩
        simpa [List.map_map, Function.comp_def] using ih t

theorem strncmp_strncpy (s t : CharArray) (n : ℕ) : strncmp (strncpy s t n) t n = 0 :=
  strncmp_fill t n _

/-! ### The lookup -/

variable {s s' t u v : FsState} {c : Cont} {name rootDir : CharArray} {r ip : Option ℕ}
  {maxProc maxPage maxDisk : ℤ}

theorem within_contRoot (c : Cont) (rootDir : CharArray) :
    Within SameTables (fun _ => True) (contRoot c rootDir) :=
  .ite (fun _ => .bind (.bind (hasSteps_sameTables.rules.iget _ _) fun ip =>
    hasSteps_sameTables.rules.namexLoop ip _ _ _ fun _ _ _ _ _ => trivial) fun _ => .pure _)
    fun _ => hasSteps_sameTables.namei rootDir

theorem contRoot_root : contRoot root rootDir = do return some (← iget ROOTDEV ROOTINO) := by
  rw [contRoot, if_pos rfl, namexinit, bind_assoc]
  exact bind_congr fun ip => rfl

theorem contRoot_counts (h : Returns (contRoot c rootDir) t r u)
    (hc : t.kern.mycont t.cur = some c) :
    ((c = root ∨ rootDir.headD 0 ≠ slash) ∧ t.Counts (oneRef r) u) ∨
      c ≠ root ∧ rootDir.headD 0 = slash ∧ ((t.kern.containers c).root = none → r = none) ∧
        t.Counts (oneRef r - oneRef (t.kern.containers c).root) u := by
  unfold contRoot at h
  split at h
  · rename_i hroot
    simp only [returns_bind, returns_pure, namexinit] at h
    obtain ⟨x, _, ⟨ip, t', hget, hloop⟩, rfl, rfl⟩ := h
    refine .inl ⟨.inl hroot, ?_⟩
    exact ((Counts.iget hget).trans (Counts.namexLoop (by omega) hloop)).of_eq (by simp)
  · rename_i hroot
    obtain ⟨x, hnamex⟩ := returns_namei h
    obtain ⟨hown, hcount⟩ | ⟨d, habs, hd, hne, hnone, hcount⟩ := namex_counts hnamex
    · refine .inl ⟨.inr ?_, hcount⟩
      obtain hrel | he := hown
      · exact hrel
      · exact absurd (Option.some.inj (hc.symm.trans he)) hroot
    · obtain rfl := Option.some.inj (hc.symm.trans hd)
      exact .inr ⟨hne, habs, hnone, hcount⟩

/-! ### The call -/

theorem FsState.SameTables.freeCont_eq (h : s.SameTables s') :
    s'.kern.freeCont = s.kern.freeCont := by
  unfold Kernel.freeCont Kernel.findCont
  congr 1
  funext c
  rw [← h.cont c]

/-- What a `cinit` that finds a free container does, step by step. -/
structure CinitRun (name rootDir : CharArray) (maxProc maxPage maxDisk : ℤ) (c : Cont)
    (ip : Option ℕ) (s t u v s' : FsState) : Prop where
  begun : Returns beginOp (s.enter c) () t
  lookup : Returns (contRoot c rootDir) t ip u
  ended : Returns endOp u () v
  done : s' = v.setKern (v.kern.cinit v.cur name rootDir maxProc maxPage maxDisk ip)

theorem returns_cinit {x : ℤ} : Returns (cinit name rootDir maxProc maxPage maxDisk) s x s' ↔
    x = 0 ∧ (s.kern.freeCont = none ∧ s' = s.setKern { s.kern with started := true } ∨
      ∃ c ip t u v, s.kern.freeCont = some c ∧
        CinitRun name rootDir maxProc maxPage maxDisk c ip s t u v s') := by
  simp only [cinit, returns_bind, returns_get]
  constructor
  · rintro ⟨_, _, ⟨rfl, rfl⟩, h⟩
    cases hfree : s.kern.freeCont with
    | none =>
      simp only [hfree, returns_bind, returns_set, returns_pure] at h
      obtain ⟨_, _, rfl, rfl, rfl⟩ := h
      exact ⟨rfl, .inl ⟨rfl, rfl⟩⟩
    | some c =>
      simp only [hfree, returns_bind, returns_set, returns_modify, returns_pure] at h
      obtain ⟨_, _, rfl, _, t, hbegin, ip, u, hlook, _, v, hend, _, _, rfl, rfl, rfl⟩ := h
      exact ⟨rfl, .inr ⟨c, ip, t, u, v, rfl, ⟨hbegin, hlook, hend, rfl⟩⟩⟩
  · rintro ⟨rfl, ⟨hfree, rfl⟩ | ⟨c, ip, t, u, v, hfree, hbegin, hlook, hend, rfl⟩⟩
    · refine ⟨s, s, ⟨rfl, rfl⟩, ?_⟩
      simp only [hfree, returns_bind, returns_set, returns_pure]
      exact ⟨(), _, rfl, trivial, rfl⟩
    · refine ⟨s, s, ⟨rfl, rfl⟩, ?_⟩
      simp only [hfree, returns_bind, returns_set, returns_modify, returns_pure]
      exact ⟨(), _, rfl, (), t, hbegin, ip, u, hlook, (), v, hend, (), _, rfl, trivial, rfl⟩

namespace Kernel

variable {k : Kernel} {p : Slot}

theorem cinit_proc (hfree : k.freeCont = some c) :
    ((k.cinit p name rootDir maxProc maxPage maxDisk ip).proc p).container = some c ∧
    ((k.cinit p name rootDir maxProc maxPage maxDisk ip).proc p).cwd = ip := by
  simp [cinit, hfree]

end Kernel

namespace CinitRun

section

variable (h : CinitRun name rootDir maxProc maxPage maxDisk c ip s t u v s')

include h

theorem begin_frame : t.kern = (s.enter c).kern ∧ t.cur = s.cur ∧ t.icache = s.icache := by
  rw [returns_beginOp h.begun]
  exact ⟨rfl, rfl, rfl⟩

theorem sameTables : t.SameTables u :=
  (within_contRoot c rootDir).rel h.lookup

theorem end_frame : v.kern = u.kern ∧ v.cur = s.cur ∧ v.icache = u.icache := by
  obtain ⟨hkern, hcur, hcache⟩ := endOp_frame h.ended
  exact ⟨hkern, hcur.trans (h.sameTables.cur.trans h.begin_frame.2.1), hcache⟩

theorem freeCont_eq : v.kern.freeCont = s.kern.freeCont := by
  rw [h.end_frame.1, h.sameTables.freeCont_eq, h.begin_frame.1]
  rfl

theorem rootDir_eq : (v.kern.containers c).rootDir = (s.kern.containers c).rootDir := by
  have hcont := congrArg Container.rootDir (h.sameTables.cont c)
  rw [h.end_frame.1, hcont, h.begin_frame.1]
  rfl

theorem caller (hfree : s.kern.freeCont = some c) :
    (s'.kern.proc s.cur).container = some c ∧ (s'.kern.proc s.cur).cwd = ip := by
  rw [h.done, ← h.end_frame.2.1]
  exact Kernel.cinit_proc (h.freeCont_eq.trans hfree)

theorem container (hfree : s.kern.freeCont = some c) : s'.kern.containers c =
      { v.kern.containers c with
        root := ip
        name := strncpy (v.kern.containers c).name name 16
        state := .crunning
        maxproc := maxProc
        memlimit := maxPage
        memused := 0
        disklimit := maxDisk
        diskused := 0
        rootDir := strncpy (s.kern.containers c).rootDir rootDir (strlen rootDir)
        nextvpid := (v.kern.containers c).nextvpid + 1 } := by
  rw [h.done, ← h.rootDir_eq]
  simp [Kernel.cinit, h.freeCont_eq.trans hfree, FsState.setKern]

theorem icache_eq : s'.icache = u.icache := by
  rw [h.done, FsState.setKern_icache, h.end_frame.2.2]

theorem refs : ((c = root ∨ rootDir.headD 0 ≠ slash) ∧ s.Counts (oneRef ip) s') ∨
      c ≠ root ∧ rootDir.headD 0 = slash ∧ ((s.kern.containers c).root = none → ip = none) ∧
        s.Counts (oneRef ip - oneRef (s.kern.containers c).root) s' := by
  obtain ⟨hkern, hcur, hcache⟩ := h.begin_frame
  have hmy : t.kern.mycont t.cur = some c := by
    rw [hkern, hcur]
    simp [Kernel.mycont, FsState.enter, FsState.setKern]
  have hroot : (t.kern.containers c).root = (s.kern.containers c).root := by
    rw [hkern]
    rfl
  have hcounts : ∀ δ, t.Counts δ u → s.Counts δ s' := by
    intro δ hδ b
    rw [h.icache_eq, hδ b, hcache]
  obtain ⟨hown, hr⟩ | ⟨hne, habs, hnone, hr⟩ := contRoot_counts h.lookup hmy
  · exact .inl ⟨hown, hcounts _ hr⟩
  · rw [hroot] at hnone hr
    exact .inr ⟨hne, habs, hnone, hcounts _ hr⟩

end

end CinitRun

theorem eq_of_oneRef {cwd : Option ℕ} {a : ℕ}
    (h : ∀ b, oneRef (some a) b = 2 * oneRef (some a) b - oneRef cwd b) : cwd = some a := by
  by_contra hne
  have := h a
  rw [oneRef_self, oneRef, if_neg hne] at this
  omega

theorem not_oneRef_stale {cwd : Option ℕ} {a d : ℕ}
    (h : ∀ b, oneRef (some a) b - oneRef (some d) b = 2 * oneRef (some a) b - oneRef cwd b) :
    False := by
  have ha := h a
  have hd := h d
  rw [oneRef_self] at ha hd
  unfold oneRef at ha hd
  split at hd <;> split at hd <;> simp_all

/-- What the lookup finds in the new container when a call is all or nothing. -/
theorem cinitAllOrNothing_iff : CinitAllOrNothing name rootDir maxProc maxPage maxDisk s ↔
    ∃ c cwd t u, s.kern.freeCont = some c ∧ (c = root ∨ rootDir.headD 0 ≠ slash) ∧
      (s.kern.proc s.cur).cwd = some cwd ∧ Returns beginOp (s.enter c) () t ∧
      Returns (contRoot c rootDir) t (some cwd) u ∧ s.Names rootDir (u.icache cwd).inum ∧
      (s.kern.containers c).rootDir.getD (strlen rootDir) 0 = 0 := by
  constructor
  · rintro ⟨r, s', h, hdone⟩
    obtain ⟨rfl, hcall⟩ := returns_cinit.1 h
    obtain ⟨-, d, hd⟩ | ⟨hne, -⟩ := hdone
    swap
    · exact absurd rfl hne
    obtain ⟨hfree, rfl⟩ | ⟨c, ip, t, u, v, hfree, hrun⟩ := hcall
    · exact absurd (hd.state.symm.trans hd.free) (by decide)
    obtain ⟨hproc, hcwd⟩ := hrun.caller hfree
    obtain rfl := Option.some.inj (hproc.symm.trans hd.caller)
    obtain ⟨a, -, ha, hnames, hrefs⟩ := hd.root
    obtain rfl := hcwd.symm.trans ha
    have hdir : (s.kern.containers c).rootDir.getD (strlen rootDir) 0 = 0 := by
      have := hd.dir
      rwa [hrun.container hfree, str_strncpy_strlen] at this
    obtain ⟨hown, hcount⟩ | ⟨-, -, hnone, hcount⟩ := hrun.refs
    · have hcwd : (s.kern.proc s.cur).cwd = some a :=
        eq_of_oneRef fun b => by linarith [hrefs b, hcount b]
      exact ⟨c, a, t, u, hfree, hown, hcwd, hrun.begun, hrun.lookup,
        hrun.icache_eq ▸ hnames, hdir⟩
    · cases hroot : (s.kern.containers c).root with
      | none => exact absurd (hnone hroot) nofun
      | some d =>
        rw [hroot] at hcount
        have hstale : ∀ b, oneRef (some a) b - oneRef (some d) b =
            2 * oneRef (some a) b - oneRef (s.kern.proc s.cur).cwd b := by
          intro b
          linarith [hrefs b, hcount b, Pi.sub_apply (oneRef (some a)) (oneRef (some d)) b]
        exact (not_oneRef_stale hstale).elim
  · rintro ⟨c, cwd, t, u, hfree, hown, hcwd, hbegin, hlook, hnames, hdir⟩
    obtain ⟨v, hend⟩ := exists_endOp (s := u) <| by
      rw [((within_contRoot c rootDir).rel hlook).committing, committing_beginOp hbegin]
    obtain ⟨s', hs'⟩ : ∃ s', s' = v.setKern
        (v.kern.cinit v.cur name rootDir maxProc maxPage maxDisk (some cwd)) := ⟨_, rfl⟩
    have hrun : CinitRun name rootDir maxProc maxPage maxDisk c (some cwd) s t u v s' :=
      ⟨hbegin, hlook, hend, hs'⟩
    refine ⟨0, s', returns_cinit.2 ⟨rfl, .inr ⟨c, some cwd, t, u, v, hfree, hrun⟩⟩,
      .inl ⟨rfl, c, ?_⟩⟩
    obtain ⟨hproc, hcwd'⟩ := hrun.caller hfree
    have hcont := hrun.container hfree
    have hcount : s.Counts (oneRef (some cwd)) s' := by
      obtain ⟨-, hcount⟩ | ⟨hne, habs, -⟩ := hrun.refs
      · exact hcount
      · exact absurd habs (hown.resolve_left hne)
    refine
      { free := by simpa using Kernel.findCont_spec hfree
        caller := hproc
        state := by rw [hcont]
        maxproc := by rw [hcont]
        memlimit := by rw [hcont]
        disklimit := by rw [hcont]
        named := by rw [hcont]; exact strncmp_strncpy ..
        dir := by rw [hcont]; exact str_strncpy_strlen.2 hdir
        root := ⟨cwd, by rw [hcont], hcwd', hrun.icache_eq ▸ hnames, fun b => ?_⟩ }
    rw [hcount b, hcwd]
    omega

theorem stops_iff_barrier {a : ℕ} {name : CharArray} (hc : s.kern.mycont s.cur = some c) :
    s.Stops a name ↔ strncmp name (chars "..") 2 = 0 ∧ s.kern.barrier c = some a := by
  by_cases hroot : c = root
  · simp [Stops, hc, Kernel.barrier, hroot]
  · simp [Stops, hc, Kernel.barrier, hroot]

theorem agrees_enter {D : ℕ → Prop} {d : Cont} (hd : s.kern.mycont s.cur = some d)
    (hb : ∀ a, D a → s.kern.barrier c = s.kern.barrier d) : s.Agrees D (s.enter c).kern := by
  have hc : (s.enter c).kern.mycont s.cur = some c := by simp [Kernel.mycont, enter, setKern]
  refine ⟨rfl, by simp [enter, setKern], by simp [hd], by simp [hc], fun a hD name => ?_⟩
  rw [stops_iff_barrier hd, ← hb a hD]
  exact stops_iff_barrier (s := s.enter c) hc

/-- A name that begins with two dots is that of an element that does. -/
theorem dots_of_names {e : CharArray} (h : Xv6Container.Names name e)
    (hdots : strncmp name (chars "..") 2 = 0) : chars ".." <+: e := by
  obtain ⟨l, rfl⟩ := h
  rw [show chars ".." = [46, 46] by decide] at hdots ⊢
  simp only [strncmp_succ_eq_zero] at hdots
  cases e with
  | nil => simp at hdots
  | cons x e =>
    cases e with
    | nil => grind
    | cons y e => grind

/-- The tables when the first process of the root container calls `cinit`: no container but the root
has been used. -/
def hostKernel : Kernel :=
  { Kernel.procinit [] 0 with
    started := true
    proc := Function.update (fun _ => Proc.zero) 0
      { Proc.zero with container := some root, cwd := some 0 }
    containers := Function.update (fun _ => Container.init) root
      { Container.init with state := .crunning, root := some 0 } }

/-- The disk of `jail`, with the root directory as the working directory. -/
def host : FsState :=
  (jail.setKern hostKernel).modifyInode 0 fun ip => { ip with inum := ROOTINO }

end Xv6Container
