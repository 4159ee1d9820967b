import Xv6Container.Fs.Dir

/-!
# Path elements

What `skipelem` makes of a path, and that a path is nothing to `namex` but its elements.

* `skipelem_splits` : **`skipelem` splits a path at its slashes**, and `namex` does the same for two
  paths with the same components.
-/

namespace Xv6Container

/-- The maximal parts of a path without a slash that are not empty. -/
def components (path : CharArray) : List CharArray :=
  ((str path).splitOn slash).filter (· ≠ [])

/-- What `skipelem` returns and leaves in `name` when it is called until it returns 0.  Each call
shortens the path, so that a path shorter than `fuel` is used up. -/
def skipelems : (fuel : ℕ) → (path name : CharArray) → List (CharArray × CharArray)
  | 0, _, _ => []
  | fuel + 1, path, name =>
    match skipelem path name with
    | none => []
    | some (path, name) => (path, name) :: skipelems fuel path name

/-- The buffer `name` begins with the component `c`, cut to `DIRSIZ` bytes, and a NUL if there is
room for it. -/
def Names (name c : CharArray) : Prop := (c ++ [0]).take DIRSIZ <+: name

variable {path rest name c : CharArray} {fuel : ℕ}

/-! ### Components -/

theorem components_of_head (h : path.headD 0 = 0) : components path = [] := by
  cases path with
  | nil => rfl
  | cons x path =>
    obtain rfl : x = 0 := h
    rfl

theorem components_slash : components (slash :: path) = components path := by
  have h := @List.splitOn_append_cons_self_of_not_mem _ [] _ _ slash (by simp) (str path)
  rw [List.nil_append] at h
  rw [components, str_cons, if_neg (by decide), h]
  rfl

theorem components_dropWhile : components (path.dropWhile (· = slash)) = components path := by
  induction path with
  | nil => rfl
  | cons x path ih =>
    by_cases hx : x = slash
    · rw [hx, components_slash, ← ih]
      rfl
    · simp [hx]

theorem components_elem (hne : c ≠ []) (hc : ∀ x ∈ c, x ≠ slash ∧ x ≠ 0)
    (h : rest.headD 0 = 0 ∨ rest.headD 0 = slash) :
    components (c ++ rest) = c :: components rest := by
  have hstr : str (c ++ rest) = c ++ str rest :=
    List.takeWhile_append_of_pos fun x hx => by simpa using (hc x hx).2
  have hc' : slash ∉ c := fun h => (hc _ h).1 rfl
  have hkeep : ∀ ls : List CharArray, (c :: ls).filter (· ≠ []) = c :: ls.filter (· ≠ []) :=
    fun ls => List.filter_cons_of_pos (by simpa using hne)
  rw [components, hstr]
  rcases h with h | h
  · have hrest : str rest = [] := by
      cases rest with
      | nil => rfl
      | cons x rest =>
        obtain rfl : x = 0 := h
        rfl
    rw [components_of_head h, hrest, List.append_nil, List.splitOn_eq_singleton hc', hkeep]
    rfl
  · cases rest with
    | nil => cases h
    | cons x rest =>
      obtain rfl : x = slash := h
      rw [components_slash, str_cons, if_neg (by decide),
        List.splitOn_append_cons_self_of_not_mem hc', hkeep]
      rfl

/-! ### One call of `skipelem` -/

theorem head_dropWhile_slash : (path.dropWhile (· = slash)).headD 0 ≠ slash := by
  intro h
  have hnot := List.head?_dropWhile_not (· = slash) path
  cases hp : path.dropWhile (· = slash) with
  | nil => rw [hp] at h; cases h
  | cons x p =>
    rw [hp] at h hnot
    exact absurd h (by simpa using hnot)

/-- A path that starts with neither a slash nor a NUL starts with a component. -/
theorem exists_elem (hslash : path.headD 0 ≠ slash) (h0 : path.headD 0 ≠ 0) :
    ∃ c rest, path.takeWhile (fun x => x ≠ slash ∧ x ≠ 0) = c ∧ path.drop c.length = rest ∧
      components path = c :: components rest := by
  obtain ⟨c, hc⟩ : ∃ c, path.takeWhile (fun x => x ≠ slash ∧ x ≠ 0) = c := ⟨_, rfl⟩
  obtain ⟨rest, hrest⟩ : ∃ q, path.dropWhile (fun x => x ≠ slash ∧ x ≠ 0) = q := ⟨_, rfl⟩
  have hpath : path = c ++ rest := by rw [← hc, ← hrest, List.takeWhile_append_dropWhile]
  refine ⟨c, rest, hc, by rw [hpath, List.drop_left], ?_⟩
  rw [hpath]
  refine components_elem ?_ (fun x hx => ?_) ?_
  · cases path with
    | nil => exact absurd rfl h0
    | cons x path =>
      rw [List.headD_cons] at hslash h0
      simp [← hc, hslash, h0]
  · have hall := List.all_eq_true.1 (hc ▸ List.all_takeWhile) x hx
    simpa using hall
  · have hhead := List.head?_dropWhile_not (fun x => x ≠ slash ∧ x ≠ 0) path
    rw [hrest] at hhead
    cases rest with
    | nil => exact .inl rfl
    | cons x rest =>
      simp only [List.head?_cons, List.headD_cons] at hhead ⊢
      by_contra h
      simp_all

theorem skipelem_spec : (components path = [] ∧ skipelem path name = none) ∨
    ∃ c cs rest name', components path = c :: cs ∧ skipelem path name = some (rest, name') ∧
      components rest = cs ∧ Names name' c ∧ (rest.headD 0 = 0 ↔ cs = []) := by
  have hslash := @head_dropWhile_slash path
  rw [← components_dropWhile]
  unfold skipelem
  generalize path.dropWhile (· = slash) = p at hslash ⊢
  by_cases h0 : p.headD 0 = 0
  · exact .inl ⟨components_of_head h0, if_pos h0⟩
  obtain ⟨c, rest, hc, hrest, hcs⟩ := exists_elem hslash h0
  right
  simp only [h0, if_false, hc, hrest]
  refine ⟨c, _, _, _, hcs, rfl, components_dropWhile, ?_, ?_⟩
  · unfold Names
    split
    · rename_i hlen
      rw [List.take_append_of_le_length hlen]
      exact List.prefix_append _ _
    · rw [List.take_of_length_le (by simp; omega)]
      exact ⟨name.drop (c.length + 1), by simp⟩
  · rw [← @components_dropWhile rest]
    constructor
    · exact components_of_head
    · intro h
      by_contra h'
      obtain ⟨_, _, -, -, hcs⟩ := exists_elem head_dropWhile_slash h'
      rw [h] at hcs
      cases hcs

/-! ### The name buffer -/

/-- `strncmp` reads no further than the NUL. -/
theorem strncmp_congr {u p q t : CharArray} {n : ℕ} (hp : u <+: p) (hq : u <+: q)
    (hu : n ≤ u.length ∨ 0 ∈ u) : strncmp p t n = strncmp q t n := by
  induction u generalizing p q t n with
  | nil =>
    obtain rfl : n = 0 := by simpa using hu
    rfl
  | cons a u ih =>
    cases n with
    | zero => rfl
    | succ n =>
      obtain ⟨p, rfl⟩ := hp
      obtain ⟨q, rfl⟩ := hq
      rw [strncmp, strncmp]
      refine if_ctx_congr Iff.rfl (fun h => ?_) fun _ => rfl
      have ha : a ≠ 0 := h.1
      refine ih (List.prefix_append _ _) (List.prefix_append _ _) ?_
      simpa [ha.symm] using hu

theorem dirlookupLoop_congr {a off : ℕ} {name' : CharArray}
    (h : ∀ t, strncmp name t DIRSIZ = strncmp name' t DIRSIZ) :
    dirlookupLoop a name fuel off = dirlookupLoop a name' fuel off := by
  induction fuel generalizing off with
  | zero => rfl
  | succ fuel ih =>
    refine bind_congr fun dp => if_congr Iff.rfl (bind_congr fun x => ?_) rfl
    exact if_congr Iff.rfl rfl (if_congr (by rw [namecmp, namecmp, h]) rfl ih)

theorem dirlookup_congr {a : ℕ} {c' name' : CharArray} (h : Names name c) (h' : Names name' c')
    (hcut : c.take DIRSIZ = c'.take DIRSIZ) : dirlookup a name = dirlookup a name' := by
  have hu : (c ++ [0]).take DIRSIZ = (c' ++ [0]).take DIRSIZ := by
    have hlen := congrArg List.length hcut
    simp only [List.length_take] at hlen
    rw [List.take_append, List.take_append, hcut]
    by_cases hc : c.length < DIRSIZ
    · rw [show c'.length = c.length by omega]
    · rw [Nat.sub_eq_zero_of_le (by omega), Nat.sub_eq_zero_of_le (by omega)]
  have hcmp : ∀ t n, n ≤ DIRSIZ → strncmp name t n = strncmp name' t n := by
    intro t n hn
    refine strncmp_congr h (hu ▸ h') ?_
    by_cases hc : c.length < DIRSIZ
    · exact .inr (by rw [List.take_of_length_le (by simp; omega)]; simp)
    · exact .inl (by simp; omega)
  have hstops : dirlookupStops a name = dirlookupStops a name' :=
    bind_congr fun o => if_congr (by rw [hcmp _ 2 (by decide)]) rfl rfl
  unfold dirlookup
  rw [hstops]
  refine bind_congr fun stops => bind_congr fun dp => if_congr Iff.rfl rfl ?_
  cases stops with
  | false => exact dirlookupLoop_congr fun t => hcmp t _ le_rfl
  | true => rfl

/-! ### Paths with the same components -/

section

variable {p q m m' : CharArray} {parent : Bool}

theorem namexRound_congr {ip : ℕ} {c' : CharArray} (h : Names m c) (h' : Names m' c')
    (hcut : c.take DIRSIZ = c'.take DIRSIZ) (hlast : p.headD 0 = 0 ↔ q.headD 0 = 0) :
    namexRound parent ip p m = namexRound parent ip q m' := by
  refine bind_congr fun _ => bind_congr fun x => if_congr Iff.rfl rfl ?_
  refine if_congr (and_congr_right fun _ => hlast) rfl ?_
  rw [dirlookup_congr h h' hcut]

theorem namexLoop_congr {fuel' ip : ℕ} (hp : p.length < fuel) (hq : q.length < fuel')
    (h : (components p).map (·.take DIRSIZ) = (components q).map (·.take DIRSIZ)) :
    Prod.fst <$> namexLoop parent fuel p m ip = Prod.fst <$> namexLoop parent fuel' q m' ip := by
  induction fuel generalizing fuel' p q m m' ip with
  | zero => omega
  | succ fuel ih =>
    obtain ⟨fuel', rfl⟩ : ∃ k, fuel' = k + 1 := ⟨fuel' - 1, by omega⟩
    obtain ⟨hcs, hs⟩ | ⟨c, cs, p', m₁, hcs, hs, hcs', hm, hlast⟩ := @skipelem_spec p m <;>
    obtain ⟨hds, ht⟩ | ⟨d, ds, q', m₂, hds, ht, hds', hm', hlast'⟩ := @skipelem_spec q m' <;>
    simp only [hcs, hds, List.map_nil, List.map_cons, List.cons.injEq, reduceCtorEq] at h
    · simp only [namexLoop, hs, ht]
      split <;> simp
    · obtain ⟨hcut, h⟩ := h
      have hps := skipelem_length_lt hs
      have hqs := skipelem_length_lt ht
      have hempty : cs = [] ↔ ds = [] := by
        rw [← List.map_eq_nil_iff, h, List.map_eq_nil_iff]
      simp only [namexLoop, hs, ht, map_bind,
        namexRound_congr hm hm' hcut (hlast.trans (hempty.trans hlast'.symm))]
      refine bind_congr fun r => ?_
      cases r with
      | inl next => exact ih (by omega) (by omega) (by rw [hcs', hds', h])
      | inr r => simp

theorem namex_congr (hslash : p.headD 0 = slash ↔ q.headD 0 = slash)
    (h : (components p).map (·.take DIRSIZ) = (components q).map (·.take DIRSIZ)) :
    Prod.fst <$> namex p parent m = Prod.fst <$> namex q parent m' := by
  have hstart : namexStart p = namexStart q := by simp only [namexStart, hslash]
  have hsome : (skipelem p m).isSome = (skipelem q m').isSome := by
    obtain ⟨hcs, hs⟩ | ⟨c, cs, p', m₁, hcs, hs, -⟩ := @skipelem_spec p m <;>
    obtain ⟨hds, ht⟩ | ⟨d, ds, q', m₂, hds, ht, -⟩ := @skipelem_spec q m' <;>
    simp_all
  simp only [namex, hstart, map_bind]
  refine bind_congr fun start => ?_
  cases start with
  | some ip => exact namexLoop_congr (Nat.lt_succ_self _) (Nat.lt_succ_self _) h
  | none =>
    simp only [hsome]
    split
    · rfl
    · split <;> simp

end

theorem skipelems_spec (hfuel : path.length < fuel) :
    List.Forall₂ (fun x c => Names x.2 c) (skipelems fuel path name) (components path) ∧
      ∀ k x, (skipelems fuel path name)[k]? = some x →
        (x.1.headD 0 = 0 ↔ k + 1 = (components path).length) := by
  induction fuel generalizing path name with
  | zero => omega
  | succ fuel ih =>
    obtain ⟨hcs, hs⟩ | ⟨c, cs, rest, name', hcs, hs, hrest, hname, hlast⟩ :=
      @skipelem_spec path name
    · simp [skipelems, hs, hcs]
    · have := skipelem_length_lt hs
      obtain ⟨hnames, hends⟩ := @ih rest name' (by omega)
      simp only [skipelems, hs, hcs]
      rw [hrest] at hnames hends
      refine ⟨.cons hname hnames, fun k x hx => ?_⟩
      cases k with
      | zero =>
        obtain rfl := Option.some.inj hx
        simpa using hlast
      | succ k => simpa using hends k x hx

/-- **`skipelem` splits a path at its slashes.**  Called until it returns 0, for which as many calls
are enough as the path has bytes, it produces the components of the path in order, each cut to
`DIRSIZ` bytes and NUL-terminated when it is shorter, and what remains of the path is empty exactly
after the last one.  Hence `namex` does the same for two paths with the same cut components, if both
or none of them start with a slash. -/
theorem skipelem_splits :
    (∀ path name fuel, path.length < fuel →
      List.Forall₂ (fun x c => Names x.2 c) (skipelems fuel path name) (components path) ∧
        ∀ k x, (skipelems fuel path name)[k]? = some x →
          (x.1.headD 0 = 0 ↔ k + 1 = (components path).length)) ∧
    ∀ p q parent m m', (p.headD 0 = slash ↔ q.headD 0 = slash) →
      (components p).map (·.take DIRSIZ) = (components q).map (·.take DIRSIZ) →
      Prod.fst <$> namex p parent m = Prod.fst <$> namex q parent m' :=
  ⟨fun _ _ _ => skipelems_spec, fun _ _ _ _ _ => namex_congr⟩

end Xv6Container
