import Xv6Container.Bio.Basic

/-!
# What a step in the buffer cache can do

`BioState.Step s p s'` lists the steps of process `p`; `bioMachine_step` says that the machine
makes no others.

The code that a process works through fits the buffers it has: it locks a buffer after it got it,
uses only buffers it has locked, and ends with all its buffers locked.  Whether it does can be
read off the code and the *shape* of the process's pointers, the blocks they were asked for and
whether they are locked (`Safe`).  `unpins`, `copies` and `heads` read off what the code has yet to
do.
-/

namespace Xv6Container

/-- The blocks and the locks of the buffers of a process, the buffer got last first. -/
abbrev Shape := List (ℕ × Bool)

/-- All buffers are locked. -/
def AllLocked (l : Shape) : Prop := ∀ x ∈ l, x.2 = true

instance (l : Shape) : Decidable (AllLocked l) := inferInstanceAs (Decidable (∀ x ∈ l, _))

@[simp] theorem allLocked_cons {x : ℕ × Bool} {l : Shape} :
    AllLocked (x :: l) ↔ x.2 = true ∧ AllLocked l := by
  simp [AllLocked]

/-- How a step changes the shape; it is `none` where the code has no business. -/
def BufOp.shape : BufOp → Shape → Option Shape
  | .bget b, l => if AllLocked l then some ((b, false) :: l) else none
  | .lock, (b, false) :: l => some ((b, true) :: l)
  | .lock, _ => none
  | .copy dst src, l =>
    match l[dst]?, l[src]? with
    | some (_, true), some (_, true) => some l
    | _, _ => none
  | .writeHead, l | .readHead, l =>
    match l[0]? with
    | some (_, true) => some l
    | _ => none
  | .bunpin k, l =>
    match l[k]? with
    | some (_, true) => some l
    | _ => none
  | .unlock k, l =>
    match l[k]? with
    | some (b, true) => if AllLocked l then some (l.set k (b, false)) else none
    | _ => none
  | .unref k, l =>
    match l[k]? with
    | some (_, false) => some (l.eraseIdx k)
    | _ => none

/-- The code can be worked through from a shape, and ends with all buffers locked. -/
def Safe : List BufOp → Shape → Prop
  | [], l => AllLocked l
  | op :: rest, l => ∃ l', op.shape l = some l' ∧ Safe rest l'

/-- What the steps of the code will do, each with the shape it finds. -/
def collect {α : Type*} (f : BufOp → Shape → List α) : List BufOp → Shape → List α
  | [], _ => []
  | op :: rest, l =>
    f op l ++
    match op.shape l with
    | some l' => collect f rest l'
    | none => []

/-- The block that a step unpins. -/
def BufOp.unpins : BufOp → Shape → List ℕ
  | .bunpin k, l => (l[k]?.map Prod.fst).toList
  | _, _ => []

/-- The block that a step writes with the contents of another: target and source. -/
def BufOp.copies : BufOp → Shape → List (ℕ × ℕ)
  | .copy dst src, l =>
    match l[dst]?, l[src]? with
    | some d, some r => [(d.1, r.1)]
    | _, _ => []
  | _, _ => []

/-- The block that a step writes with a header. -/
def BufOp.heads : BufOp → Shape → List ℕ
  | .writeHead, l => (l[0]?.map Prod.fst).toList
  | _, _ => []

/-- The blocks that the code will unpin. -/
def unpins : List BufOp → Shape → List ℕ := collect BufOp.unpins

/-- The blocks that the code will write with the contents of others. -/
def copies : List BufOp → Shape → List (ℕ × ℕ) := collect BufOp.copies

/-- The blocks that the code will write with a header. -/
def heads : List BufOp → Shape → List ℕ := collect BufOp.heads

theorem collect_cons {α : Type*} {f : BufOp → Shape → List α} {op : BufOp} {rest : List BufOp}
    {l l' : Shape} (h : op.shape l = some l') :
    collect f (op :: rest) l = f op l ++ collect f rest l' := by
  rw [collect, h]

theorem collect_eq_nil {α : Type*} {f : BufOp → Shape → List α} {code : List BufOp}
    (h : ∀ op ∈ code, ∀ l, f op l = []) (l : Shape) : collect f code l = [] := by
  induction code generalizing l with
  | nil => rfl
  | cons op rest ih =>
    rw [collect, h op List.mem_cons_self, List.nil_append]
    cases op.shape l with
    | none => rfl
    | some l' => exact ih (fun op hop => h op (List.mem_cons_of_mem _ hop)) l'

theorem BufOp.unpins_eq_nil {op : BufOp} (h : ∀ k, op ≠ .bunpin k) (l : Shape) :
    op.unpins l = [] := by
  cases op with
  | bunpin k => exact absurd rfl (h k)
  | _ => rfl

theorem unpins_cons {op : BufOp} {rest : List BufOp} {l l' : Shape} (h : op.shape l = some l')
    (hop : ∀ k, op ≠ .bunpin k) : unpins (op :: rest) l = unpins rest l' := by
  rw [unpins, collect_cons h, BufOp.unpins_eq_nil hop, List.nil_append]

theorem unpins_eq_nil {code : List BufOp} (h : ∀ k, BufOp.bunpin k ∉ code) (l : Shape) :
    unpins code l = [] :=
  collect_eq_nil (fun _ hop => BufOp.unpins_eq_nil fun k hk => h k (hk ▸ hop)) l

/-- The blocks that the code will unpin without writing them before. -/
def unwritten : List BufOp → Shape → List ℕ
  | [], _ => []
  | op :: rest, l =>
    op.unpins l ++
    match op.shape l with
    | some l' => (unwritten rest l').filter fun b => b ∉ (op.copies l).map Prod.fst
    | none => []

theorem unwritten_subset (code : List BufOp) (l : Shape) : unwritten code l ⊆ unpins code l := by
  induction code generalizing l with
  | nil => exact List.Subset.refl _
  | cons op rest ih =>
    intro b hb
    rw [unwritten] at hb
    rw [unpins, collect]
    refine List.mem_append.2 ((List.mem_append.1 hb).imp id fun hb => ?_)
    cases hs : op.shape l with
    | none => simp [hs] at hb
    | some l' =>
      simp only [hs] at hb
      exact ih l' (List.mem_of_mem_filter hb)

theorem mem_unwritten_cons {op : BufOp} {rest : List BufOp} {l l' : Shape} {b : ℕ}
    (h : op.shape l = some l') (hb : b ∈ unwritten rest l') :
    b ∈ unwritten (op :: rest) l ∨ ∃ c, (b, c) ∈ op.copies l := by
  by_cases hc : b ∈ (op.copies l).map Prod.fst
  · obtain ⟨⟨_, c⟩, hmem, rfl⟩ := List.mem_map.1 hc
    exact .inr ⟨c, hmem⟩
  · left
    rw [unwritten, h]
    exact List.mem_append_right _ (List.mem_filter.2 ⟨hb, by simpa using hc⟩)

section codes

variable {l : Shape} (hl : AllLocked l) (b c : ℕ)

include hl

theorem safe_breadCode : Safe (breadCode b) l := by
  simp [Safe, BufOp.shape, hl]

theorem safe_brelseCode {k : ℕ} (hk : k < l.length) : Safe (brelseCode k) l := by
  have hlk : l[k]? = some (l[k].1, true) := by
    rw [List.getElem?_eq_getElem hk, ← hl _ (List.getElem_mem hk)]
  simp only [brelseCode, Safe, BufOp.shape, hlk, Option.some.injEq, exists_eq_left',
    List.getElem?_set_self hk, hl, if_true]
  intro x hx
  rw [List.eraseIdx_set_eq] at hx
  exact hl x (List.mem_of_mem_eraseIdx hx)

theorem safe_writeLogCode : Safe (writeLogCode b c) l := by
  simp [Safe, BufOp.shape, hl]

theorem safe_installCode : Safe (installCode b c) l := by
  simp [Safe, BufOp.shape, hl]

theorem safe_writeHeadCode : Safe (writeHeadCode b) l := by
  simp [Safe, BufOp.shape, hl]

theorem safe_readHeadCode : Safe (readHeadCode b) l := by
  simp [readHeadCode, Safe, BufOp.shape, hl]

theorem unpins_installCode : unpins (installCode b c) l = [c] := by
  simp [unpins, collect, BufOp.unpins, BufOp.shape, hl]

theorem unwritten_installCode : unwritten (installCode b c) l = [] := by
  simp [unwritten, BufOp.unpins, BufOp.copies, BufOp.shape, hl]

theorem copies_installCode : copies (installCode b c) l = [(c, b)] := by
  simp [copies, collect, BufOp.copies, BufOp.shape, hl]

theorem copies_writeLogCode : copies (writeLogCode b c) l = [(b, c)] := by
  simp [copies, collect, BufOp.copies, BufOp.shape, hl]

theorem heads_writeHeadCode : heads (writeHeadCode b) l = [b] := by
  simp [heads, collect, BufOp.heads, BufOp.shape, hl]

end codes

namespace BioState

variable {N B : ℕ} {s s' : BioState N B} {p q initproc : Fin N}

/-- The shape of the buffers of process `p`. -/
def shape (s : BioState N B) (p : Fin N) : Shape :=
  (s.proc p).refs.map fun r => (r.blk, r.locked)

theorem shape_getElem? {k : ℕ} :
    (s.shape p)[k]? = ((s.proc p).refs[k]?).map fun r => (r.blk, r.locked) := by
  rw [shape, List.getElem?_map]

/-- A step of the code of process `p`, with the shape it leaves. -/
inductive Exec (s : BioState N B) (p : Fin N) : BufOp → Shape → BioState N B → Prop
  | hit {b : ℕ} {i : Fin B} (hall : AllLocked (s.shape p)) (hi : s.Caches i b) :
      Exec s p (.bget b) ((b, false) :: s.shape p) ((s.incref i).push p i b)
  | miss {b : ℕ} {i : Fin B} (hall : AllLocked (s.shape p)) (hb : ∀ j ∈ s.order, ¬s.Caches j b)
      (hi : (s.buf i).refcnt = 0) :
      Exec s p (.bget b) ((b, false) :: s.shape p) ((s.recycle i b).push p i b)
  | full {b : ℕ} {l : Shape} :
      Exec s p (.bget b) l (s.setGrp (s.grp.panic "bget: no buffers"))
  | lock {r : BufRef B} {rs : List (BufRef B)} (hrefs : (s.proc p).refs = r :: rs)
      (hfree : (s.buf r.buf).lock = none) :
      Exec s p .lock ((r.blk, true) :: rs.map fun r => (r.blk, r.locked))
        ((s.fill p r.buf).setRefs p ({ r with locked := true } :: rs))
  | copy {dst src : ℕ} {d r : BufRef B} (hd : (s.proc p).refs[dst]? = some d)
      (hr : (s.proc p).refs[src]? = some r) (hdl : d.locked = true) (hrl : r.locked = true) :
      Exec s p (.copy dst src) (s.shape p) (s.store d.buf (s.buf r.buf).data)
  | writeHead {r : BufRef B} (hr : (s.proc p).refs[0]? = some r) (hrl : r.locked = true) :
      Exec s p .writeHead (s.shape p)
        (s.store r.buf (putHeader (s.buf r.buf).data s.grp.log.lh))
  | readHead {r : BufRef B} (hr : (s.proc p).refs[0]? = some r) (hrl : r.locked = true) :
      Exec s p .readHead (s.shape p)
        (s.setGrp { s.grp with log := { s.grp.log with lh := getHeader (s.buf r.buf).data } })
  | bunpin {k : ℕ} {r : BufRef B} (hr : (s.proc p).refs[k]? = some r) (hrl : r.locked = true) :
      Exec s p (.bunpin k) (s.shape p)
        { s.decref r.buf with live := s.live.erase (s.buf r.buf).blockno }
  | unlock {k : ℕ} {r : BufRef B} (hr : (s.proc p).refs[k]? = some r) (hrl : r.locked = true)
      (hall : AllLocked (s.shape p)) :
      Exec s p (.unlock k) ((s.shape p).set k (r.blk, false))
        ((s.setBuf r.buf { s.buf r.buf with lock := none }).setRefs p
          ((s.proc p).refs.set k { r with locked := false }))
  | unref {k : ℕ} {r : BufRef B} (hr : (s.proc p).refs[k]? = some r) (hrl : r.locked = false) :
      Exec s p (.unref k) ((s.shape p).eraseIdx k)
        (((s.decref r.buf).touch r.buf).setRefs p ((s.proc p).refs.eraseIdx k))

theorem exec_bget {b : ℕ} (hall : AllLocked (s.shape p)) :
    s.Exec p (.bget b) ((b, false) :: s.shape p) (s.bget p b) := by
  unfold bget
  cases hc : s.cached b with
  | some i => exact .hit hall (by simpa using List.find?_some hc)
  | none =>
    have hb : ∀ j ∈ s.order, ¬s.Caches j b := by simpa [cached] using hc
    cases hu : s.unused with
    | some i => exact .miss hall hb (by simpa using List.find?_some hu)
    | none => exact .full

/-- The steps that use one locked buffer, `writeHead`, `readHead` and `bunpin`, keep the shape. -/
theorem locked_of_shape {k : ℕ} {l : Shape} (hl : (BufOp.bunpin k).shape (s.shape p) = some l) :
    ∃ r, (s.proc p).refs[k]? = some r ∧ r.locked = true ∧ s.shape p = l := by
  simp only [BufOp.shape, shape_getElem?] at hl
  cases hr : (s.proc p).refs[k]? with
  | none => simp [hr] at hl
  | some r =>
    cases hrl : r.locked <;> simp [hr, hrl] at hl
    exact ⟨r, rfl, hrl, hl⟩

/-- Code that fits the shape of the buffers makes no steps but those of `Exec`. -/
theorem exec_inv {op : BufOp} {l : Shape} (h : s.exec p op = some s')
    (hl : op.shape (s.shape p) = some l) : s.Exec p op l s' := by
  cases op with
  | bget b =>
    simp only [exec, Option.some.injEq] at h
    simp only [BufOp.shape, Option.ite_none_right_eq_some, Option.some.injEq] at hl
    obtain ⟨hall, rfl⟩ := hl
    exact h ▸ exec_bget hall
  | lock =>
    cases hrefs : (s.proc p).refs with
    | nil => simp [exec, hrefs] at h
    | cons r rs =>
      simp only [exec, hrefs, Option.ite_none_right_eq_some, Option.some.injEq] at h
      obtain ⟨hfree, rfl⟩ := h
      have hshape : s.shape p = (r.blk, r.locked) :: rs.map fun r => (r.blk, r.locked) := by
        rw [shape, hrefs, List.map_cons]
      rw [hshape] at hl
      cases hrl : r.locked with
      | true => simp [hrl, BufOp.shape] at hl
      | false =>
        rw [hrl, BufOp.shape, Option.some.injEq] at hl
        exact hl ▸ .lock hrefs hfree
  | copy dst src =>
    cases hd : (s.proc p).refs[dst]? with
    | none => simp [exec, hd] at h
    | some d =>
      cases hr : (s.proc p).refs[src]? with
      | none => simp [exec, hd, hr] at h
      | some r =>
        simp only [exec, hd, hr, Option.some.injEq] at h
        simp only [BufOp.shape, shape_getElem?, hd, hr, Option.map_some] at hl
        cases hdl : d.locked <;> cases hrl : r.locked <;> simp [hdl, hrl] at hl
        subst h hl
        exact .copy hd hr hdl hrl
  | writeHead =>
    obtain ⟨r, hr, hrl, rfl⟩ := locked_of_shape (k := 0) hl
    simp only [exec, hr, Option.some.injEq] at h
    exact h ▸ .writeHead hr hrl
  | readHead =>
    obtain ⟨r, hr, hrl, rfl⟩ := locked_of_shape (k := 0) hl
    simp only [exec, hr, Option.some.injEq] at h
    exact h ▸ .readHead hr hrl
  | bunpin k =>
    obtain ⟨r, hr, hrl, rfl⟩ := locked_of_shape hl
    simp only [exec, hr, Option.some.injEq] at h
    exact h ▸ .bunpin hr hrl
  | unlock k =>
    cases hr : (s.proc p).refs[k]? with
    | none => simp [exec, hr] at h
    | some r =>
      simp only [exec, hr, Option.some.injEq] at h
      simp only [BufOp.shape, shape_getElem?, hr, Option.map_some] at hl
      cases hrl : r.locked <;> simp [hrl] at hl
      obtain ⟨hall, rfl⟩ := hl
      subst h
      exact .unlock hr hrl hall
  | unref k =>
    cases hr : (s.proc p).refs[k]? with
    | none => simp [exec, hr] at h
    | some r =>
      simp only [exec, hr, Option.some.injEq] at h
      simp only [BufOp.shape, shape_getElem?, hr, Option.map_some] at hl
      cases hrl : r.locked <;> simp [hrl] at hl
      subst h hl
      exact .unref hr hrl

section frame

variable {op : BufOp} {l : Shape}

theorem setRefs_proc_of_ne {rs : List (BufRef B)} (hq : q ≠ p) :
    (s.setRefs p rs).proc q = s.proc q := by
  simp [setRefs, hq]

theorem touch_eq (i : Fin B) : s.touch i = { s with order := (s.touch i).order } := by
  unfold touch
  split_ifs <;> rfl

theorem Exec.proc_of_ne (h : s.Exec p op l s') (hq : q ≠ p) : s'.proc q = s.proc q := by
  cases h with
  | hit | miss | lock | unlock => exact setRefs_proc_of_ne hq
  | full | copy | writeHead | readHead | bunpin => rfl
  | unref =>
    rw [setRefs_proc_of_ne hq, touch_eq]
    rfl

theorem Exec.code (h : s.Exec p op l s') : (s'.proc p).code = (s.proc p).code := by
  cases h with
  | full | copy | writeHead | readHead | bunpin => rfl
  | hit | miss | lock | unlock => simp [push, setRefs, incref, fill, setBuf]
  | unref =>
    rw [touch_eq]
    simp [setRefs, decref, setBuf]

theorem shape_setRefs {rs : List (BufRef B)} :
    (s.setRefs p rs).shape p = rs.map fun r => (r.blk, r.locked) := by
  simp [shape, setRefs]

theorem Exec.shape_eq (h : s.Exec p op l s') (hstop : s'.grp.stop = none) : s'.shape p = l := by
  cases h with
  | full => cases hstop
  | hit | miss | lock => exact shape_setRefs
  | copy | writeHead | readHead | bunpin => rfl
  | unlock => rw [shape_setRefs, List.map_set, shape]
  | unref => rw [shape_setRefs, ← List.eraseIdx_map, shape]

theorem Exec.grp (h : s.Exec p op l s') (hstop : s'.grp.stop = none) (hop : op ≠ .readHead) :
    s'.grp = s.grp := by
  cases h with
  | full => cases hstop
  | readHead => exact absurd rfl hop
  | hit | miss | lock | copy | writeHead | bunpin | unlock => rfl
  | unref =>
    rw [touch_eq]
    rfl

theorem Exec.boot (h : s.Exec p op l s') : s'.boot = s.boot := by
  cases h with
  | unref =>
    rw [touch_eq]
    rfl
  | full | hit | miss | lock | copy | writeHead | readHead | bunpin | unlock => rfl

theorem Exec.live (h : s.Exec p op l s') (hop : ∀ k, op ≠ .bunpin k) : s'.live = s.live := by
  cases h with
  | bunpin => exact absurd rfl (hop _)
  | unref =>
    rw [touch_eq]
    rfl
  | full | hit | miss | lock | copy | writeHead | readHead | unlock => rfl

end frame

/-- The steps of process `p`, by what it does. -/
inductive Step (initproc : Fin N) (s : BioState N B) (p : Fin N) : BioAct → BioState N B → Prop
  | exec {op : BufOp} {rest : List BufOp} {s' : BioState N B}
      (hc : (s.proc p).code = op :: rest) (h : (s.setCode p rest).exec p op = some s') :
      Step initproc s p .go s'
  | kill {g : GroupState N} (hg : (groupMachine N).next s.grp (p, .kill) = some g) :
      Step initproc s p .kill (s.setGrp g)
  | beginOp {g : GroupState N} (hr : s.Ready p)
      (hg : (groupMachine N).next s.grp (p, .beginOp) = some g) :
      Step initproc s p .beginOp (s.setGrp g)
  | endOp {g : GroupState N} (hr : s.Ready p)
      (hg : (groupMachine N).next s.grp (p, .endOp) = some g) :
      Step initproc s p .endOp (s.setGrp g)
  | log {g : GroupState N} (hb : s.boot = .done) (hc : (s.proc p).code = [])
      (hr : ∀ b, s.grp.loc p ≠ .logging b .record) (hl : ∀ c, s.grp.loc p ≠ .commit c)
      (hg : (groupMachine N).next s.grp (p, .go) = some g) : Step initproc s p .go (s.setGrp g)
  | record {b : ℕ} {r : BufRef B} {g : GroupState N} (hb : s.boot = .done)
      (hc : (s.proc p).code = []) (hl : s.grp.loc p = .logging b .record)
      (hr : (s.proc p).refs[(s.proc p).arg]? = some r)
      (hg : (groupMachine N).next s.grp (p, .go) = some g) :
      Step initproc s p .go ((s.record r).setGrp g)
  | commit {c : CommitLoc} {g : GroupState N} (hb : s.boot = .done) (hc : (s.proc p).code = [])
      (hl : s.grp.loc p = .commit c) (hg : (groupMachine N).next s.grp (p, .go) = some g) :
      Step initproc s p .go (s.commitGo p c g)
  | bread {b : ℕ} (hr : s.Ready p) : Step initproc s p (.bread b) (s.setCode p (breadCode b))
  | brelse {k : ℕ} {r : BufRef B} (hr : s.Ready p) (hk : (s.proc p).refs[k]? = some r)
      (hlk : r.locked = true) : Step initproc s p (.brelse k) (s.setCode p (brelseCode k))
  | modify {k : ℕ} {r : BufRef B} {x : Block} (hr : s.Ready p)
      (hk : (s.proc p).refs[k]? = some r) (hlk : r.locked = true) :
      Step initproc s p (.modify k x) (s.modify r.buf x)
  | logWrite {k : ℕ} {r : BufRef B} {g : GroupState N} (hr : s.Ready p)
      (hk : (s.proc p).refs[k]? = some r) (hlk : r.locked = true)
      (hg : (groupMachine N).next s.grp (p, .logWrite (s.buf r.buf).blockno) = some g) :
      Step initproc s p (.logWrite k)
        { s.setGrp g with proc := Function.update s.proc p { s.proc p with arg := k } }
  | boot {s' : BioState N B} (hp : p = initproc) (hc : (s.proc p).code = [])
      (h : s.bootStep p = some s') : Step initproc s p .go s'

theorem withRef_eq_some {k : ℕ} {f : BufRef B → Option (BioState N B)}
    (h : s.withRef p k f = some s') :
    ∃ r, (s.proc p).refs[k]? = some r ∧ r.locked = true ∧ f r = some s' := by
  unfold withRef at h
  split at h
  · rename_i r hr
    rw [Option.ite_none_right_eq_some] at h
    exact ⟨r, hr, h.1, h.2⟩
  · cases h

theorem step_of_logStep (hb : s.boot = .done) (hc : (s.proc p).code = [])
    (h : s.logStep p = some s') : s.Step initproc p .go s' := by
  unfold logStep at h
  split at h
  · cases h
  · rename_i g hg
    cases hl : s.grp.loc p with
    | logging b w =>
      cases w with
      | record =>
        simp only [hl] at h
        split at h
        · rename_i r hr
          cases h
          exact .record hb hc hl hr hg
        · cases h
      | header | region | trans =>
        simp only [hl, Option.some.injEq] at h
        subst h
        exact .log hb hc (by simp [hl]) (by simp [hl]) hg
    | commit c =>
      simp only [hl, Option.some.injEq] at h
      subst h
      exact .commit hb hc hl hg
    | user | begin | asleep | inOp =>
      simp only [hl, Option.some.injEq] at h
      subst h
      exact .log hb hc (by simp [hl]) (by simp [hl]) hg

theorem step_of_code (h : s.code p initproc = some s') : s.Step initproc p .go s' := by
  unfold code at h
  split at h
  · rename_i op rest hc
    exact .exec hc h
  · rename_i hc
    split_ifs at h with hb hp
    · exact step_of_logStep hb hc h
    · exact .boot hp hc h

end BioState

open BioState in
/-- The machine makes no steps but those of `BioState.Step`. -/
theorem bioMachine_step {N B : ℕ} {initproc : Fin N} {s s' : BioState N B} {l : Fin N × BioAct}
    (h : (bioMachine N B initproc).next s l = some s') :
    s.grp.stop = none ∧ s.Step initproc l.1 l.2 s' := by
  simp only [bioMachine, Option.ite_none_left_eq_some, not_not] at h
  obtain ⟨hstop, h⟩ := h
  refine ⟨hstop, ?_⟩
  obtain ⟨p, a⟩ := l
  cases a with
  | go => exact step_of_code h
  | kill =>
    obtain ⟨g, hg, rfl⟩ := Option.map_eq_some_iff.1 h
    exact .kill hg
  | beginOp =>
    obtain ⟨hr, h⟩ := Option.ite_none_right_eq_some.1 h
    obtain ⟨g, hg, rfl⟩ := Option.map_eq_some_iff.1 h
    exact .beginOp hr hg
  | endOp =>
    obtain ⟨hr, h⟩ := Option.ite_none_right_eq_some.1 h
    obtain ⟨g, hg, rfl⟩ := Option.map_eq_some_iff.1 h
    exact .endOp hr hg
  | bread b =>
    obtain ⟨hr, h⟩ := Option.ite_none_right_eq_some.1 h
    cases h
    exact .bread hr
  | brelse k =>
    obtain ⟨hr, h⟩ := Option.ite_none_right_eq_some.1 h
    obtain ⟨r, hk, hlk, h⟩ := withRef_eq_some h
    cases h
    exact .brelse hr hk hlk
  | modify k x =>
    obtain ⟨hr, h⟩ := Option.ite_none_right_eq_some.1 h
    obtain ⟨r, hk, hlk, h⟩ := withRef_eq_some h
    cases h
    exact .modify hr hk hlk
  | logWrite k =>
    obtain ⟨hr, h⟩ := Option.ite_none_right_eq_some.1 h
    obtain ⟨r, hk, hlk, h⟩ := withRef_eq_some h
    obtain ⟨g, hg, rfl⟩ := Option.map_eq_some_iff.1 h
    exact .logWrite hr hk hlk hg

end Xv6Container
