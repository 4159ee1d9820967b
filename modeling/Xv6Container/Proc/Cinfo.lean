import Xv6Container.Proc.System

/-!
# What `cinfo` reports

`cinfo` fills in one `struct container_info` for each container in use, in a page from `kalloc`, and
copies `sizeof(struct ctable)` bytes from there to the user.  An entry has 4028 bytes, so that a
page has room for one entry only.  The processes of an entry are counted by `numproc`, and listed by
`ptableof`, which lists all processes for the root container.  A root path of more than 128
characters goes over the records of the processes.

* `cinfo_faithful_iff` : **when the report of `cinfo` is faithful**.
-/

namespace Xv6Container

/-- `sizeof(struct proc_info)`. -/
abbrev PROCINFO : ℕ := 60

/-- The offsets of `root` and `ptable` in a `struct container_info`, and its size. -/
abbrev ROOTOFF : ℕ := 60

abbrev PTABLEOFF : ℕ := ROOTOFF + MAXPATH

abbrev CINFO : ℕ := PTABLEOFF + NPROC * PROCINFO

/-- `sizeof(struct ctable)`. -/
abbrev CTABLE : ℕ := NCONTS * CINFO

theorem length_takeWhile_range_le {P : ℕ → Bool} {m n : ℕ} (h : m < n) :
    ((List.range n).takeWhile P).length ≤ m ↔ ∃ i ≤ m, P i = false := by
  rw [List.takeWhile_eq_take_findIdx_not, List.length_take,
    min_eq_left List.findIdx_le_length]
  constructor
  · intro hm
    have hlt : (List.range n).findIdx (fun i => !P i) < (List.range n).length := by
      rw [List.length_range]; omega
    have := List.findIdx_getElem (w := hlt)
    simp only [List.getElem_range] at this
    exact ⟨_, hm, by simpa using this⟩
  · rintro ⟨i, hi, hP⟩
    by_contra hc
    have hlt : i < (List.range n).findIdx fun i => !P i := by omega
    have hnot := List.not_of_lt_findIdx hlt
    simp [hP] at hnot

theorem take_length_filter_iff {α : Type*} (P : α → Prop) [DecidablePred P] (l : List α) :
    l.take (l.filter P).length = l.filter P ↔ l.Pairwise fun a b => P b → P a := by
  induction l with
  | nil => simp
  | cons a l ih =>
    by_cases ha : P a
    · simp [ha, ih]
    · rw [List.filter_cons_of_neg (by simpa using ha), List.pairwise_cons]
      constructor
      · intro h
        have hnil : l.filter P = [] := by
          by_contra hne
          obtain ⟨b, bs, hb⟩ := List.exists_cons_of_ne_nil hne
          rw [hb, List.length_cons, List.take_succ_cons] at h
          have hmem : a ∈ l.filter P := by rw [hb]; exact (List.cons.inj h).1 ▸ List.mem_cons_self
          exact ha (by simpa using (List.mem_filter.1 hmem).2)
        have hno : ∀ b ∈ l, ¬ P b := by simpa using hnil
        exact ⟨fun b hb hP => absurd hP (hno b hb), ih.1 (by rw [hnil]; rfl)⟩
      · rintro ⟨h, -⟩
        have hnil : l.filter P = [] := by simpa using fun b hb hP => ha (h b hb hP)
        rw [hnil]; rfl

/-- A list with some elements written over still begins with `l` when they were these before. -/
theorem prefix_mapIdx_getD_iff {α : Type*} {l m : List α} (h : l <+: m) (f : ℕ → Option α) :
    (l <+: m.mapIdx fun j a => (f j).getD a) ↔
      ∀ j a, f j = some a → ∀ b, l[j]? = some b → a = b := by
  rw [List.prefix_iff_getElem?]
  constructor
  · intro hp j a hf b hb
    obtain ⟨hj, rfl⟩ := List.getElem?_eq_some_iff.1 hb
    have := hp j hj
    rw [List.getElem?_mapIdx, List.prefix_iff_getElem?.1 h j hj] at this
    simpa [hf] using this
  · intro hf j hj
    rw [List.getElem?_mapIdx, List.prefix_iff_getElem?.1 h j hj]
    cases ha : f j with
    | none => simp
    | some a => simp [hf j a ha _ (List.getElem?_eq_getElem hj)]

namespace Kernel

variable (s : Kernel)

/-- The containers in use. -/
def inUse : List Cont := (List.finRange NCONTS).filter fun c => (s.containers c).state ≠ .cunused

/-- The processes of container `c`. -/
def procsOf (c : Cont) : List Slot :=
  (List.finRange NPROC).filter fun q => (s.proc q).state ≠ .unused ∧ (s.proc q).container = some c

/-- The record of process `q`. -/
def procBytes (q : Slot) : List UInt8 :=
  match s.procInfo q with
  | .ok i => i.bytes
  | .error _ => []

/-- What `cinfo` writes to entry `k` of its table for container `c`: offsets and lengths. -/
def entryWrites (k : ℕ) (c : Cont) : List (ℕ × ℕ) :=
  [(k * CINFO, ROOTOFF), (k * CINFO + ROOTOFF, strlen (s.containers c).rootDir)] ++
    (List.range (s.listed (some c)).length).map fun i =>
      (k * CINFO + PTABLEOFF + i * PROCINFO, PROCINFO)

/-- How many bytes of its table `cinfo` copies to address `va` of process `p`: `copyout` stops at
the first address that is not mapped. -/
def copiedOut (p : Slot) (va : ℕ) : ℕ :=
  match (s.proc p).pagetable with
  | none => 0
  | some pt => ((List.range CTABLE).takeWhile fun i => (pt (va + i)).isSome).length

/-- The entry `i` reports container `c`: its table begins with the records of the processes. -/
structure Reports (c : Cont) (i : ContainerInfo) : Prop where
  name : i.name = strncpy (junk 16) (s.containers c).name 16
  state : i.state = strncpy (junk 16) (s.containers c).state.text 16
  numproc : i.numproc = (s.procsOf c).length
  ptable : (i.ptable.take (s.procsOf c).length).map Prod.fst = s.procsOf c
  info : ∀ e ∈ i.ptable, s.procInfo e.1 = .ok e.2
  records : (s.procsOf c).flatMap s.procBytes <+: i.records

/-- `cinfo` by `p` to the address `va` reports each container in use, and reads and writes the page
of its table only. -/
def Faithful (p : Slot) (va : ℕ) : Prop :=
  ∃ s' table, s.cinfo p = .ok (0, s', .ctable table) ∧ List.Forall₂ s.Reports s.inUse table ∧
    (∀ x ∈ s.inUse.zipIdx, ∀ w ∈ s.entryWrites x.2 x.1, w.1 + w.2 ≤ PGSIZE) ∧
    s.copiedOut p va ≤ PGSIZE

/-- `ptableof` can describe process `q`. -/
def Described (q : Slot) : Prop :=
  ((s.proc q).pid = 1 ∨ (s.proc q).parent ≠ none) ∧ (s.proc q).container ≠ none

/-- The part of the root path of `c` that does not fit in its field reads like the records that it
goes over; a path of at most 128 characters has no such part. -/
def PathClear (c : Cont) : Prop :=
  ∀ j a, (str (s.containers c).rootDir)[MAXPATH + j]? = some a →
    ∀ b, ((s.procsOf c).flatMap s.procBytes)[j]? = some b → a = b

/-- The tables and the memory before a call of `cinfo` whose report is faithful. -/
structure Reportable (p : Slot) (va : ℕ) : Prop where
  /-- There are pages for the tables. -/
  page : ∃ pa, s.freelist.head? = some pa ∧ s.ValidPage pa
  pages : s.inUse ≠ [] → ∃ pa, s.freelist.tail.head? = some pa ∧ s.ValidPage pa
  /-- The processes have parents and containers. -/
  described : ∀ c ∈ s.inUse, ∀ q ∈ s.listed (some c), s.Described q
  /-- The processes of the root container come first in the process table. -/
  ordered : root ∈ s.inUse → (s.listed (some root)).Pairwise fun q r =>
    (s.proc r).container = some root → (s.proc q).container = some root
  /-- The root paths leave the records alone. -/
  path : ∀ c ∈ s.inUse, s.PathClear c
  /-- Only one container is in use, or the second has a short root path and no processes. -/
  layout : ∀ x ∈ s.inUse.zipIdx, x.2 = 0 ∧ strlen (s.containers x.1).rootDir ≤ PGSIZE - ROOTOFF ∨
    x.2 = 1 ∧ strlen (s.containers x.1).rootDir ≤ 8 ∧ s.listed (some x.1) = []
  /-- At most a page is mapped from `va` on. -/
  buffer : ∀ pt, (s.proc p).pagetable = some pt → ∃ i ≤ PGSIZE, pt (va + i) = none

variable {s} {t t' : Kernel} {p : Slot} {c : Cont} {i : ContainerInfo} {va : ℕ}

/-! ### The pages -/

/-- `t` has the tables of `s`, and the free pages `l`. -/
structure Alike (s : Kernel) (l : List ℕ) (t : Kernel) : Prop where
  mem : MemOnly s t
  free : t.freelist = l

variable {l : List ℕ}

section

variable (h : Alike s l t)

include h

theorem Alike.addMem (c : Cont) (n : ℤ) : Alike s l (t.addMem c n) :=
  ⟨h.mem.trans (memOnly_addMem c n), h.free⟩

theorem Alike.mycont (p : Slot) : t.mycont p = s.mycont p := by
  rw [Kernel.mycont, h.mem.proc, Kernel.mycont]

theorem Alike.validPage {pa : ℕ} : t.ValidPage pa ↔ s.ValidPage pa := by
  rw [ValidPage, h.mem.kernelEnd, ValidPage]

/-- The root container has no limit: `kalloc` takes the first page. -/
theorem Alike.kalloc (hp : s.mycont p = some root) :
    ∃ t', t.kalloc p = .ok (l.head?, t') ∧ Alike s l.tail t' := by
  have htake : ∀ {u : Kernel}, Alike s l u → ∃ t', .ok u.takePage = Except.ok (ε := Stop)
      (l.head?, t') ∧ Alike s l.tail t' := fun {u} hu => by
    rw [takePage, hu.free]
    cases l with
    | nil => exact ⟨u, rfl, hu⟩
    | cons pa l => exact ⟨_, rfl, hu.mem.trans ⟨rfl, rfl, fun _ => rfl, rfl, rfl, rfl⟩, rfl⟩
  unfold Kernel.kalloc
  rw [h.mycont, hp]
  split
  · dsimp only
    rw [if_neg (by simp [MemLimited, isroot])]
    exact htake (h.addMem root 1)
  · exact htake h

theorem Alike.kfree (hp : s.mycont p = some root) (pa : ℕ) :
    (∃ t', t.kfree p pa = .ok t') ↔ s.ValidPage pa := by
  have hput : ∀ {u : Kernel}, Alike s l u → ((∃ t', u.putPage pa = .ok t') ↔ s.ValidPage pa) :=
    fun {u} hu => by
      unfold putPage
      rw [← hu.validPage]
      split <;> simp_all
  unfold Kernel.kfree
  rw [h.mycont, hp]
  split
  · exact hput (h.addMem root (-1))
  · exact hput h

theorem Alike.of_kfree {pa : ℕ} (hk : t.kfree p pa = .ok t') : Alike s (pa :: l) t' := by
  refine ⟨h.mem.trans (memOnly_kfree hk), ?_⟩
  have hput : ∀ {u : Kernel}, Alike s l u → u.putPage pa = .ok t' → t'.freelist = pa :: l :=
    fun {u} hu h' => by
      unfold putPage at h'
      split at h' <;> cases h'
      rw [hu.free]
  unfold Kernel.kfree at hk
  split at hk
  · split at hk
    · cases hk
    · exact hput (h.addMem _ _) hk
  · exact hput h hk

end

/-! ### One entry -/

theorem exists_procInfo_iff {q : Slot} : (∃ a, s.procInfo q = .ok a) ↔ s.Described q := by
  have hname : (∃ a, s.parentName q = .ok a) ↔ (s.proc q).pid = 1 ∨ (s.proc q).parent ≠ none := by
    unfold parentName
    cases (s.proc q).parent <;> by_cases h : (s.proc q).pid = 1 <;> simp [h]
  rw [Described, ← hname]
  constructor
  · rintro ⟨a, h⟩
    obtain ⟨n, hn, h⟩ := bind_eq_ok.1 h
    refine ⟨⟨n, hn⟩, fun hc => ?_⟩
    rw [hc] at h
    cases h
  · rintro ⟨⟨n, hn⟩, hc⟩
    obtain ⟨d, hd⟩ := Option.ne_none_iff_exists'.1 hc
    exact ⟨_, bind_eq_ok.2 ⟨n, hn, by rw [hd]; rfl⟩⟩

theorem Alike.name (h : Alike s l t) (d : Cont) :
    (t.containers d).name = (s.containers d).name := by rw [h.mem.containers]

theorem Alike.state (h : Alike s l t) (d : Cont) :
    (t.containers d).state = (s.containers d).state := by rw [h.mem.containers]

theorem Alike.rootDir (h : Alike s l t) (d : Cont) :
    (t.containers d).rootDir = (s.containers d).rootDir := by rw [h.mem.containers]

theorem Alike.procInfo (h : Alike s l t) (q : Slot) : t.procInfo q = s.procInfo q := by
  simp only [Kernel.procInfo, parentName, h.mem.proc, h.name]

theorem Alike.listed (h : Alike s l t) (c : Option Cont) :
    t.listed c = s.listed c := by
  rw [Kernel.listed, h.mem.proc, Kernel.listed]

/-- What `containerInfo` fills in. -/
structure Fills (s : Kernel) (c : Cont) (i : ContainerInfo) : Prop where
  name : i.name = strncpy (junk 16) (s.containers c).name 16
  state : i.state = strncpy (junk 16) (s.containers c).state.text 16
  numproc : i.numproc = (s.procsOf c).length
  ptable : i.ptable.map Prod.fst = s.listed (some c)
  info : ∀ e ∈ i.ptable, s.procInfo e.1 = .ok e.2
  records : i.records = (i.ptable.flatMap fun e => e.2.bytes).mapIdx fun j b =>
    (str (s.containers c).rootDir)[MAXPATH + j]?.getD b

/-- `ptableof` needs one page and processes it can describe. -/
def Listable (s : Kernel) (l : List ℕ) (c : Cont) : Prop :=
  (∃ pa, l.head? = some pa ∧ s.ValidPage pa) ∧ ∀ q ∈ s.listed (some c), s.Described q

theorem numproc_eq_length (s : Kernel) (c : Cont) : s.numproc c = (s.procsOf c).length := by
  rw [numproc, List.countP_eq_length_filter, procsOf]

theorem Alike.of_containerInfo (h : Alike s l t) (hp : s.mycont p = some root)
    (hi : t.containerInfo p c = .ok (i, t')) : Alike s l t' ∧ Listable s l c ∧ Fills s c i := by
  obtain ⟨⟨pa, entries, t₁⟩, hpt, hi⟩ := bind_eq_ok.1 hi
  obtain ⟨t₂, hfree, hi⟩ := bind_eq_ok.1 hi
  obtain ⟨⟨page, t₁'⟩, hk, hpt⟩ := bind_eq_ok.1 hpt
  obtain ⟨u, hk', hu⟩ := h.kalloc hp
  cases hk.symm.trans hk'
  obtain _ | ⟨pa', l⟩ := l
  · cases hpt
  obtain ⟨es, hes, hpt⟩ := bind_eq_ok.1 hpt
  cases hpt
  cases hi
  have hfst := map_fst_of_mapM hes
  have hinfo := eq_ok_of_mapM hes
  have ht' := hu.of_kfree hfree
  rw [hu.listed] at hfst
  simp only [hu.procInfo] at hinfo
  refine ⟨ht', ⟨⟨pa, rfl, (hu.kfree hp pa).1 ⟨_, hfree⟩⟩, fun q hq => ?_⟩, ?_, ?_, ?_, hfst, hinfo,
    ?_⟩
  · rw [← hfst] at hq
    obtain ⟨e, he, rfl⟩ := List.mem_map.1 hq
    exact exists_procInfo_iff.1 ⟨_, hinfo e he⟩
  · exact congrArg (strncpy _ · 16) (ht'.name c)
  · exact congrArg (strncpy _ ·.text 16) (ht'.state c)
  · dsimp only
    rw [numproc_eq_length, procsOf, ht'.mem.proc, procsOf]
  · dsimp only
    rw [ht'.rootDir]

theorem Alike.exists_containerInfo (h : Alike s l t) (hp : s.mycont p = some root)
    (hl : Listable s l c) : ∃ i t', t.containerInfo p c = .ok (i, t') := by
  obtain ⟨⟨pa, hpa, hvalid⟩, hdesc⟩ := hl
  obtain ⟨u, hk, hu⟩ := h.kalloc hp
  rw [hpa] at hk
  obtain ⟨es, hes⟩ := exists_mapM_eq_ok (f := u.procInfo) (l := u.listed (some c)) fun q hq => by
    rw [hu.procInfo]
    rw [hu.listed] at hq
    exact exists_procInfo_iff.2 (hdesc q hq)
  obtain ⟨t', hfree⟩ := (hu.kfree hp pa).2 hvalid
  have hpt : t.ptableof p (some c) = .ok (pa, es, u) :=
    bind_eq_ok.2 ⟨_, hk, bind_eq_ok.2 ⟨es, hes, rfl⟩⟩
  exact ⟨_, t', bind_eq_ok.2 ⟨_, hpt, bind_eq_ok.2 ⟨t', hfree, rfl⟩⟩⟩

/-! ### The loop and the call -/

section

variable (hp : s.mycont p = some root)

include hp

theorem Alike.of_cinfoLoop {cs : List Cont} {table : List ContainerInfo} (h : Alike s l t)
    (hl : cinfoLoop p cs t = .ok (table, t')) :
    Alike s l t' ∧ (∀ c ∈ cs.filter fun c => (s.containers c).state ≠ .cunused, Listable s l c) ∧
      List.Forall₂ (Fills s) (cs.filter fun c => (s.containers c).state ≠ .cunused) table := by
  induction cs generalizing t table with
  | nil => cases hl; exact ⟨h, by simp, .nil⟩
  | cons c cs ih =>
    rw [cinfoLoop, h.state] at hl
    split at hl
    case isTrue hc => simpa [hc] using ih h hl
    case isFalse hc =>
      obtain ⟨⟨i, t₁⟩, hi, hl⟩ := bind_eq_ok.1 hl
      obtain ⟨⟨is, t₂⟩, his, hl⟩ := bind_eq_ok.1 hl
      cases hl
      obtain ⟨h1, hlist, hfills⟩ := h.of_containerInfo hp hi
      obtain ⟨h2, hlists, hall⟩ := ih h1 his
      rw [List.filter_cons_of_pos (by simpa using hc)]
      exact ⟨h2, List.forall_mem_cons.2 ⟨hlist, hlists⟩, .cons hfills hall⟩

theorem Alike.exists_cinfoLoop {cs : List Cont} (h : Alike s l t)
    (hl : ∀ c ∈ cs.filter fun c => (s.containers c).state ≠ .cunused, Listable s l c) :
    ∃ r, cinfoLoop p cs t = .ok r := by
  induction cs generalizing t with
  | nil => exact ⟨_, rfl⟩
  | cons c cs ih =>
    rw [cinfoLoop, h.state]
    split
    case isTrue hc => exact ih h (by simpa [hc] using hl)
    case isFalse hc =>
      rw [List.filter_cons_of_pos (by simpa using hc)] at hl
      obtain ⟨hlc, hls⟩ := List.forall_mem_cons.1 hl
      obtain ⟨i, t₁, hi⟩ := h.exists_containerInfo hp hlc
      obtain ⟨r, hr⟩ := ih (h.of_containerInfo hp hi).1 hls
      exact ⟨_, bind_eq_ok.2 ⟨_, hi, bind_eq_ok.2 ⟨r, hr, rfl⟩⟩⟩

/-- The calls that return, and the table that they make. -/
theorem cinfo_eq {s' : Kernel} {table : List ContainerInfo}
    (h : s.cinfo p = .ok (0, s', .ctable table)) :
    (∃ pa, s.freelist.head? = some pa ∧ s.ValidPage pa) ∧
      (∀ c ∈ s.inUse, Listable s s.freelist.tail c) ∧ List.Forall₂ (Fills s) s.inUse table := by
  rw [cinfo, if_neg (not_not.2 hp)] at h
  obtain ⟨⟨page, t⟩, hk, h⟩ := bind_eq_ok.1 h
  obtain ⟨u, hk', hu⟩ := (Alike.mk (MemOnly.refl s) rfl).kalloc hp
  cases hk.symm.trans hk'
  cases hpa : s.freelist.head? with
  | none => rw [hpa] at h; cases h
  | some pa =>
    rw [hpa] at h
    obtain ⟨⟨is, t₁⟩, hl, h⟩ := bind_eq_ok.1 h
    obtain ⟨t₂, hfree, h⟩ := bind_eq_ok.1 h
    cases h
    obtain ⟨h1, hlists, hall⟩ := hu.of_cinfoLoop hp hl
    exact ⟨⟨pa, rfl, (h1.kfree hp pa).1 ⟨_, hfree⟩⟩, hlists, hall⟩

theorem exists_cinfo (hpage : ∃ pa, s.freelist.head? = some pa ∧ s.ValidPage pa)
    (hl : ∀ c ∈ s.inUse, Listable s s.freelist.tail c) :
    ∃ s' table, s.cinfo p = .ok (0, s', .ctable table) := by
  obtain ⟨pa, hpa, hvalid⟩ := hpage
  obtain ⟨u, hk, hu⟩ := (Alike.mk (MemOnly.refl s) rfl).kalloc hp
  obtain ⟨⟨table, t₁⟩, hloop⟩ := hu.exists_cinfoLoop hp hl
  obtain ⟨t₂, hfree⟩ := ((hu.of_cinfoLoop hp hloop).1.kfree hp pa).2 hvalid
  rw [hpa] at hk
  refine ⟨t₂, table, ?_⟩
  rw [cinfo, if_neg (not_not.2 hp)]
  exact bind_eq_ok.2 ⟨_, hk, bind_eq_ok.2 ⟨_, hloop, bind_eq_ok.2 ⟨t₂, hfree, rfl⟩⟩⟩

end

/-! ### The processes, the page and the buffer -/

/-- The records as they are copied. -/
theorem Fills.prefix_records (h : Fills s c i)
    (ht : (i.ptable.take (s.procsOf c).length).map Prod.fst = s.procsOf c) :
    (s.procsOf c).flatMap s.procBytes <+: i.ptable.flatMap fun e => e.2.bytes := by
  have hbytes : ∀ e ∈ i.ptable.take (s.procsOf c).length, s.procBytes e.1 = e.2.bytes :=
    fun e he => by rw [procBytes, h.info e (List.mem_of_mem_take he)]
  have hrec : (s.procsOf c).flatMap s.procBytes =
      (i.ptable.take (s.procsOf c).length).flatMap fun e => e.2.bytes := by
    conv_lhs => rw [← ht, List.flatMap_map]
    exact List.flatMap_congr hbytes
  refine ⟨(i.ptable.drop (s.procsOf c).length).flatMap fun e => e.2.bytes, ?_⟩
  rw [hrec, ← List.flatMap_append, List.take_append_drop]

theorem Fills.reports_iff (h : Fills s c i) :
    s.Reports c i ↔
      (s.listed (some c)).take (s.procsOf c).length = s.procsOf c ∧ s.PathClear c := by
  rw [← h.ptable, ← List.map_take]
  have hrec := fun ht => prefix_mapIdx_getD_iff (h.prefix_records ht)
    fun j => (str (s.containers c).rootDir)[MAXPATH + j]?
  constructor
  · exact fun hr => ⟨hr.ptable, (hrec hr.ptable).1 (h.records ▸ hr.records)⟩
  · exact fun ⟨ht, hpath⟩ =>
      ⟨h.name, h.state, h.numproc, ht, h.info, h.records ▸ (hrec ht).2 hpath⟩

/-- `numproc` and `ptableof` agree on the processes of a container, except for root. -/
theorem take_listed_iff (s : Kernel) (c : Cont) :
    (s.listed (some c)).take (s.procsOf c).length = s.procsOf c ↔
      (c = root → (s.listed (some root)).Pairwise fun q r =>
        (s.proc r).container = some root → (s.proc q).container = some root) := by
  by_cases hc : c = root
  · subst hc
    have hof : s.procsOf root =
        (s.listed (some root)).filter fun q => (s.proc q).container = some root := by
      simp only [procsOf, listed, List.filter_filter, true_or, and_true, Bool.decide_and,
        Bool.and_comm]
    rw [hof, take_length_filter_iff]
    simp
  · have hof : s.listed (some c) = s.procsOf c := by simp [procsOf, listed, hc]
    simp [hof, hc]

theorem length_listed_le (s : Kernel) (c : Option Cont) : (s.listed c).length ≤ NPROC :=
  (List.length_filter_le _ _).trans_eq (List.length_finRange)

theorem entryWrites_iff (s : Kernel) (k : ℕ) (c : Cont) :
    (∀ w ∈ s.entryWrites k c, w.1 + w.2 ≤ PGSIZE) ↔
      k = 0 ∧ strlen (s.containers c).rootDir ≤ PGSIZE - ROOTOFF ∨
        k = 1 ∧ strlen (s.containers c).rootDir ≤ 8 ∧ s.listed (some c) = [] := by
  have hlen : (s.listed (some c)).length ≤ 64 := s.length_listed_le (some c)
  simp only [entryWrites, List.cons_append, List.nil_append, List.forall_mem_cons,
    List.forall_mem_map, List.mem_range, ← List.length_eq_zero_iff, show PGSIZE = 4096 from rfl,
    show CINFO = 4028 from rfl, show PTABLEOFF = 188 from rfl,
    show ROOTOFF = 60 from rfl]
  generalize (s.listed (some c)).length = n at *
  generalize strlen (s.containers c).rootDir = m
  constructor
  · rintro ⟨h1, h2, h3⟩
    have hk : k = 0 ∨ k = 1 := by omega
    rcases hk with rfl | rfl
    · exact .inl ⟨rfl, by omega⟩
    · refine .inr ⟨rfl, by omega, ?_⟩
      by_contra hn
      have := h3 0 (by omega)
      omega
  · rintro (⟨rfl, h⟩ | ⟨rfl, h, rfl⟩)
    · exact ⟨by omega, by omega, fun i hi => by omega⟩
    · exact ⟨by omega, by omega, fun i hi => by omega⟩

theorem copiedOut_le_iff (s : Kernel) (p : Slot) (va : ℕ) :
    s.copiedOut p va ≤ PGSIZE ↔
      ∀ pt, (s.proc p).pagetable = some pt → ∃ i ≤ PGSIZE, pt (va + i) = none := by
  unfold copiedOut
  cases (s.proc p).pagetable with
  | none => simp
  | some pt =>
    dsimp only
    rw [length_takeWhile_range_le (by decide)]
    simp

/-! ### The report -/

theorem Faithful.reportable (hp : s.mycont p = some root) (h : s.Faithful p va) :
    s.Reportable p va := by
  obtain ⟨s', table, hc, hreports, hwrites, hcopied⟩ := h
  obtain ⟨hpage, hlists, hfills⟩ := cinfo_eq hp hc
  have hentry : ∀ c ∈ s.inUse,
      (s.listed (some c)).take (s.procsOf c).length = s.procsOf c ∧ s.PathClear c := by
    intro c hc
    obtain ⟨k, hk, hget⟩ := List.getElem_of_mem hc
    have hk' : k < table.length := hreports.length_eq ▸ hk
    have h1 := List.Forall₂.get hreports hk hk'
    have h2 := List.Forall₂.get hfills hk hk'
    simp only [List.get_eq_getElem, hget] at h1 h2
    exact h2.reports_iff.1 h1
  refine ⟨hpage, fun hne => ?_, fun c hc => (hlists c hc).2, fun hroot => ?_,
    fun c hc => (hentry c hc).2, ?_, ?_⟩
  · obtain ⟨c, hc⟩ := List.exists_mem_of_ne_nil _ hne
    exact (hlists c hc).1
  · exact (take_listed_iff s root).1 (hentry root hroot).1 rfl
  · exact fun x hx => (entryWrites_iff s x.2 x.1).1 (hwrites x hx)
  · exact (copiedOut_le_iff s p va).1 hcopied

theorem Reportable.faithful (hp : s.mycont p = some root) (h : s.Reportable p va) :
    s.Faithful p va := by
  have hlists : ∀ c ∈ s.inUse, Listable s s.freelist.tail c := fun c hc =>
    ⟨h.pages (List.ne_nil_of_mem hc), h.described c hc⟩
  obtain ⟨s', table, hc⟩ := exists_cinfo hp h.page hlists
  obtain ⟨-, -, hfills⟩ := cinfo_eq hp hc
  refine ⟨s', table, hc, ?_, fun x hx => (entryWrites_iff s x.2 x.1).2 (h.layout x hx),
    (copiedOut_le_iff s p va).2 h.buffer⟩
  have hpos := (List.forall₂_and_left s.inUse table).2 ⟨fun c hc => hc, hfills⟩
  refine hpos.imp fun c i hci =>
    hci.2.reports_iff.2 ⟨(take_listed_iff s c).2 ?_, h.path c hci.1⟩
  rintro rfl
  exact h.ordered hci.1

end Kernel

/-- **When the report of `cinfo` is faithful.**  A call from the root container needs two pages,
lists the processes of root first, has room for one entry, and keeps its records under a root path
of at most 128 characters. -/
theorem cinfo_faithful_iff (s : Kernel) (p : Slot) (va : ℕ) (hp : s.mycont p = some root) :
    s.Faithful p va ↔ s.Reportable p va :=
  ⟨fun h => h.reportable hp, fun h => h.faithful hp⟩

/-- A process of container `c` with process ID `pid` and a page of memory, and the parent 0. -/
def userOf (c : Cont) (pid : ℤ) : Proc :=
  { Proc.zero with
    state := .runnable
    pid := pid
    parent := if pid = 1 then none else some 0
    container := some c
    pagetable := some fun a => if a < PGSIZE then some 0 else none }

/-- The processes `ps`, with one container running for each container of a process. -/
def runningOn (ps : List Proc) : Kernel :=
  { Kernel.procinit [4096, 8192] 4096 with
    proc := fun q => ps.getD q Proc.zero
    containers := fun c => { Container.init with
      rootDir := chars "/"
      state := if ps.any (·.container = some c) then .crunning else .cunused } }

/-- One process, in the root container. -/
theorem cinfo_faithful_one : (runningOn [userOf root 1]).mycont 0 = some root ∧
    (runningOn [userOf root 1]).Faithful 0 0 := by
  refine ⟨by decide, (cinfo_faithful_iff _ _ _ (by decide)).2
    ⟨⟨4096, by decide⟩, fun _ => ⟨8192, by decide⟩, ?_, fun _ => ?_, ?_, ?_, ?_⟩⟩
  · simp only [Kernel.Described]
    decide +kernel
  · decide +kernel
  · intro c _ j a ha
    rw [List.getElem?_eq_none (Nat.le_add_right_of_le (by decide : 1 ≤ MAXPATH))] at ha
    cases ha
  · decide +kernel
  · rintro pt hpt
    cases hpt
    exact ⟨4096, le_rfl, by decide⟩

/-- A second container, whose process is between the two processes of root: the entry of root
counts two processes and lists the foreign one as the second, and the second entry is beyond the
page. -/
theorem cinfo_unfaithful :
    let s := runningOn [userOf root 1, userOf 1 2, userOf root 3]
    s.mycont 0 = some root ∧ s.procsOf root = [0, 2] ∧ s.listed (some root) = [0, 1, 2] ∧
      ¬ s.Faithful 0 0 ∧ ∃ x ∈ s.inUse.zipIdx, ∃ w ∈ s.entryWrites x.2 x.1, PGSIZE < w.1 + w.2 := by
  intro s
  have hout : ∃ x ∈ s.inUse.zipIdx, ∃ w ∈ s.entryWrites x.2 x.1, PGSIZE < w.1 + w.2 := by
    decide +kernel
  refine ⟨by decide +kernel, by decide +kernel, by decide +kernel, ?_, hout⟩
  rintro ⟨-, -, -, -, hin, -⟩
  obtain ⟨x, hx, w, hw, hlt⟩ := hout
  exact hlt.not_ge (hin x hx w hw)

end Xv6Container
