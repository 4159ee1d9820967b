import Xv6Container.Bio.Steps

/-!
# Reference counts of buffers

The reference count of a buffer should count the pointers to it that processes have got from `bget`
and not yet given back (`BioState.holders`), and the pin of `log_write` (`BioState.pins`).  It is
an unsigned 32-bit counter, so the invariant says that it is that number modulo `2 ^ 32`
(`BioState.Counted`).  A process that has a buffer and asks for it again waits for itself, so no
process has more than two pointers to one buffer, and the number is far below the modulus
(`BioState.Counted.holders_le`).

This file shows what every step of the buffer code does to the counts.
-/

namespace Xv6Container

theorem exists_split {α : Type*} {l : List α} {k : ℕ} {x : α} (h : l[k]? = some x) :
    ∃ a c, l = a ++ x :: c ∧ (∀ y, l.set k y = a ++ y :: c) ∧ l.eraseIdx k = a ++ c := by
  obtain ⟨hk, rfl⟩ := List.getElem?_eq_some_iff.1 h
  refine ⟨l.take k, l.drop (k + 1), ?_, fun y => List.set_eq_take_append_cons_drop .. |>.trans ?_,
    List.eraseIdx_eq_take_drop_succ ..⟩
  · rw [List.getElem_cons_drop, List.take_append_drop]
  · rw [if_pos hk]

namespace BioState

variable {N B : ℕ} {s s' : BioState N B} {p q : Fin N} {i j : Fin B}

/-- The number of pointers to buffer `i`. -/
def holders (s : BioState N B) (i : Fin B) : ℕ := ∑ p, (s.proc p).refs.countP fun r => r.buf = i

/-- The number of pins of buffer `i`. -/
def pins (s : BioState N B) (i : Fin B) : ℕ :=
  if (s.buf i).dev = ROOTDEV ∧ (s.buf i).blockno ∈ s.live then 1 else 0

/-- The pointers of the processes are in order. -/
structure Held (s : BioState N B) : Prop where
  /-- A buffer keeps its block while a process has a pointer to it. -/
  ident : ∀ p, ∀ r ∈ (s.proc p).refs, s.Caches r.buf r.blk
  locked : ∀ p, ∀ r ∈ (s.proc p).refs, r.locked = true → (s.buf r.buf).lock = some p
  /-- A process locks a buffer once. -/
  single : ∀ p i, (s.proc p).refs.countP (fun r => r.locked && r.buf = i) ≤ 1
  /-- A process waits for one buffer at a time. -/
  waiting : ∀ p, (s.proc p).refs.countP (fun r => !r.locked) ≤ 1
  order : ∀ i, i ∈ s.order
  /-- No block has two buffers. -/
  uniq : ∀ i j b, s.Caches i b → s.Caches j b → i = j
  /-- A pinned block has a buffer. -/
  pinned : ∀ b ∈ s.live, ∃ i, s.Caches i b
  nodup : s.live.Nodup

/-- The number a reference count should show. -/
def count (s : BioState N B) (i : Fin B) : ℕ := s.holders i + s.pins i

/-- The reference counts are right. -/
structure Counted (s : BioState N B) : Prop extends s.Held where
  refcnt : ∀ i, (s.buf i).refcnt = UInt32.ofNat (s.count i)

variable {b c : ℕ} {r : BufRef B}

theorem pins_eq_one (h : s.Caches i b) (hb : b ∈ s.live) : s.pins i = 1 :=
  if_pos ⟨h.1, by rwa [h.2]⟩

theorem pins_eq_zero (h : s.Caches i b) (hb : b ∉ s.live) : s.pins i = 0 :=
  if_neg fun hp => hb (h.2 ▸ hp.2)

theorem pins_congr (h : ∀ b, s'.Caches i b ↔ s.Caches i b) (hlive : s'.live = s.live) :
    s'.pins i = s.pins i := by
  have hiff : ((s'.buf i).dev = ROOTDEV ∧ (s'.buf i).blockno ∈ s'.live) ↔
      ((s.buf i).dev = ROOTDEV ∧ (s.buf i).blockno ∈ s.live) := by
    rw [hlive]
    constructor
    · rintro ⟨hd, hb⟩
      have := (h _).1 ⟨hd, rfl⟩
      exact ⟨this.1, this.2 ▸ hb⟩
    · rintro ⟨hd, hb⟩
      have := (h _).2 ⟨hd, rfl⟩
      exact ⟨this.1, this.2 ▸ hb⟩
  simp only [pins, hiff]

theorem pins_le : s.pins i ≤ 1 := by
  unfold pins
  split_ifs <;> decide

theorem Held.holders_le (h : s.Held) (i : Fin B) : s.holders i ≤ 2 * N := by
  have hp : ∀ p ∈ Finset.univ, (s.proc p).refs.countP (fun r => r.buf = i) ≤ 2 := by
    intro p _
    have hsplit : (s.proc p).refs.countP (fun r => r.buf = i) ≤
        (s.proc p).refs.countP (fun r => r.locked && r.buf = i) +
          (s.proc p).refs.countP (fun r => !r.locked) := by
      induction (s.proc p).refs with
      | nil => simp
      | cons r rs ih =>
        simp only [List.countP_cons]
        cases r.locked <;> by_cases hb : r.buf = i <;> simp [hb] <;> omega
    have := h.single p i
    have := h.waiting p
    omega
  have := Finset.sum_le_card_nsmul Finset.univ _ 2 hp
  simpa [holders, mul_comm] using this

theorem Counted.toNat_refcnt (h : s.Counted) (hN : 2 * N + 1 < 2 ^ 32) (i : Fin B) :
    (s.buf i).refcnt.toNat = s.holders i + s.pins i := by
  have hle := h.holders_le i
  have hpins := pins_le (s := s) (i := i)
  have hlt : s.count i < 2 ^ 32 := by
    unfold count
    omega
  rw [h.refcnt i, UInt32.toNat_ofNat_of_lt' hlt]
  rfl

/-- **A buffer that `bget` may recycle** is one that nobody refers to. -/
theorem Counted.unused (h : s.Counted) (hN : 2 * N + 1 < 2 ^ 32) (hi : (s.buf i).refcnt = 0) :
    s.holders i = 0 ∧ s.pins i = 0 := by
  have hzero := h.toNat_refcnt hN i
  rw [hi] at hzero
  change 0 = _ at hzero
  omega

theorem ne_of_holders_eq_zero (h : s.holders i = 0) (hr : r ∈ (s.proc p).refs) :
    r.buf ≠ i := by
  intro hi
  have hzero := (Finset.sum_eq_zero_iff.1 h) p (Finset.mem_univ p)
  exact (List.countP_eq_zero.1 hzero) r hr (by simpa using hi)

theorem holders_change (h : ∀ q, q ≠ p → (s'.proc q).refs = (s.proc q).refs) (i : Fin B) :
    s'.holders i + (s.proc p).refs.countP (fun r => r.buf = i) =
      s.holders i + (s'.proc p).refs.countP (fun r => r.buf = i) :=
  sum_change (f := fun q => (s.proc q).refs.countP fun r : BufRef B => r.buf = i)
    (g := fun q => (s'.proc q).refs.countP fun r : BufRef B => r.buf = i)
    fun q hq => by rw [h q hq]

theorem holders_congr (h : ∀ q, (s'.proc q).refs = (s.proc q).refs) (i : Fin B) :
    s'.holders i = s.holders i :=
  Finset.sum_congr rfl fun q _ => by rw [h q]

/-! ### Effects of the parts of the state -/

@[simp] theorem setBuf_buf (b : Buf N) :
    (s.setBuf i b).buf j = if j = i then b else s.buf j := by
  simp [setBuf, Function.update_apply]

/-- A part of the buffers that the new one leaves as it was. -/
theorem setBuf_part {α : Type*} {b : Buf N} (f : Buf N → α) (h : f b = f (s.buf i)) (j : Fin B) :
    f ((s.setBuf i b).buf j) = f (s.buf j) := by
  rw [setBuf_buf]
  split_ifs with hj
  · rw [h, hj]
  · rfl

@[simp] theorem setRefs_refs (rs : List (BufRef B)) :
    ((s.setRefs p rs).proc q).refs = if q = p then rs else (s.proc q).refs := by
  by_cases h : q = p
  · subst h
    simp [setRefs]
  · simp [setRefs, h]

@[simp] theorem setCode_refs (c : List BufOp) :
    ((s.setCode p c).proc q).refs = (s.proc q).refs := by
  by_cases h : q = p
  · subst h
    simp [setCode]
  · simp [setCode, h]

theorem caches_setBuf {b : Buf N} (hd : b.dev = (s.buf i).dev)
    (hb : b.blockno = (s.buf i).blockno) : (s.setBuf i b).Caches j c ↔ s.Caches j c := by
  rw [Caches, Caches, setBuf_part Buf.dev hd, setBuf_part Buf.blockno hb]

theorem caches_incref : (s.incref i).Caches j c ↔ s.Caches j c :=
  caches_setBuf (b := { s.buf i with refcnt := (s.buf i).refcnt + 1 }) rfl rfl

theorem caches_decref : (s.decref i).Caches j c ↔ s.Caches j c :=
  caches_setBuf (b := { s.buf i with refcnt := (s.buf i).refcnt - 1 }) rfl rfl

theorem caches_fill : (s.fill p i).Caches j c ↔ s.Caches j c := by
  unfold fill
  exact caches_setBuf (by rfl) (by rfl)

theorem Held.congr (h : s.Held) (hrefs : ∀ q, (s'.proc q).refs = (s.proc q).refs)
    (hcaches : ∀ i b, s'.Caches i b ↔ s.Caches i b)
    (hlock : ∀ q, ∀ r ∈ (s.proc q).refs, r.locked = true →
      (s'.buf r.buf).lock = (s.buf r.buf).lock)
    (horder : ∀ i, i ∈ s.order → i ∈ s'.order) (hlive : s'.live = s.live) : s'.Held where
  ident p r hr := (hcaches _ _).2 (h.ident p r (hrefs p ▸ hr))
  locked p r hr hlk := by
    rw [hrefs] at hr
    rw [hlock p r hr hlk]
    exact h.locked p r hr hlk
  single p i := by
    rw [hrefs p]
    exact h.single p i
  waiting p := by
    rw [hrefs p]
    exact h.waiting p
  order i := horder i (h.order i)
  uniq i j b hi hj := h.uniq i j b ((hcaches i b).1 hi) ((hcaches j b).1 hj)
  pinned b hb := by
    obtain ⟨i, hi⟩ := h.pinned b (hlive ▸ hb)
    exact ⟨i, (hcaches i b).2 hi⟩
  nodup := by
    rw [hlive]
    exact h.nodup

theorem Held.setBuf {b : Buf N} (h : s.Held) (hd : b.dev = (s.buf i).dev)
    (hb : b.blockno = (s.buf i).blockno)
    (hl : b.lock = (s.buf i).lock ∨ ∀ q, ∀ r ∈ (s.proc q).refs, r.locked = true → r.buf ≠ i) :
    (s.setBuf i b).Held := by
  refine h.congr (fun _ => rfl) (fun _ _ => caches_setBuf hd hb) (fun p r hr hlk => ?_)
    (fun _ => id) rfl
  obtain hl | hne := hl
  · exact setBuf_part Buf.lock hl r.buf
  · rw [setBuf_buf, if_neg (hne p r hr hlk)]

theorem Held.setRefs {rs : List (BufRef B)} (h : s.Held)
    (hident : ∀ r ∈ rs, s.Caches r.buf r.blk)
    (hlocked : ∀ r ∈ rs, r.locked = true → (s.buf r.buf).lock = some p)
    (hsingle : ∀ i, rs.countP (fun r => r.locked && r.buf = i) ≤ 1)
    (hwaiting : rs.countP (fun r => !r.locked) ≤ 1) : (s.setRefs p rs).Held where
  ident q r hr := by
    rw [setRefs_refs] at hr
    split_ifs at hr
    · exact hident r hr
    · exact h.ident q r hr
  locked q r hr hlk := by
    rw [setRefs_refs] at hr
    split_ifs at hr with hq
    · subst hq
      exact hlocked r hr hlk
    · exact h.locked q r hr hlk
  single q i := by
    rw [setRefs_refs]
    split_ifs
    · exact hsingle i
    · exact h.single q i
  waiting q := by
    rw [setRefs_refs]
    split_ifs
    · exact hwaiting
    · exact h.waiting q
  order := h.order
  uniq := h.uniq
  pinned := h.pinned
  nodup := h.nodup

theorem Counted.of_change (h : s.Counted) (hheld : s'.Held)
    (hj : ∀ j, ((s'.buf j).refcnt = (s.buf j).refcnt ∧ s'.count j = s.count j) ∨
      ((s'.buf j).refcnt = (s.buf j).refcnt + 1 ∧ s'.count j = s.count j + 1) ∨
      ((s'.buf j).refcnt = (s.buf j).refcnt - 1 ∧ s.count j = s'.count j + 1)) : s'.Counted := by
  refine ⟨hheld, fun j => ?_⟩
  obtain ⟨hr, hc⟩ | ⟨hr, hc⟩ | ⟨hr, hc⟩ := hj j
  · rw [hr, hc, h.refcnt j]
  · rw [hr, hc, h.refcnt j, UInt32.ofNat_add]
    rfl
  · rw [hr, h.refcnt j, hc, UInt32.ofNat_add]
    exact UInt32.add_sub_cancel _ _

theorem Counted.congr (h : s.Counted) (hrefs : ∀ q, (s'.proc q).refs = (s.proc q).refs)
    (hcaches : ∀ i b, s'.Caches i b ↔ s.Caches i b)
    (hlock : ∀ i, (s'.buf i).lock = (s.buf i).lock)
    (hrefcnt : ∀ i, (s'.buf i).refcnt = (s.buf i).refcnt) (horder : s'.order = s.order)
    (hlive : s'.live = s.live) : s'.Counted := by
  refine h.of_change (h.toHeld.congr hrefs hcaches (fun _ r _ _ => hlock r.buf)
    (fun i => horder ▸ id) hlive) fun j => .inl ⟨hrefcnt j, ?_⟩
  rw [count, count, holders_congr hrefs, pins_congr (hcaches j) hlive]

theorem holders_setRefs (rs : List (BufRef B)) :
    (s.setRefs p rs).holders j + (s.proc p).refs.countP (fun r => r.buf = j) =
      s.holders j + rs.countP (fun r => r.buf = j) := by
  have hh : (s.setRefs p rs).holders j + (s.proc p).refs.countP (fun r => r.buf = j) =
      s.holders j + ((s.setRefs p rs).proc p).refs.countP (fun r => r.buf = j) :=
    holders_change (fun q hq => by rw [setRefs_refs, if_neg hq]) j
  rwa [setRefs_refs, if_pos rfl] at hh

theorem holders_push :
    (s.push p i b).holders j = s.holders j + if j = i then 1 else 0 := by
  have hh : (s.push p i b).holders j + _ = s.holders j + _ := holders_setRefs _
  rw [List.countP_cons] at hh
  have hif : (if decide (i = j) = true then 1 else 0) = if j = i then 1 else 0 := by
    simp [eq_comm]
  simp only [hif] at hh
  omega

theorem Held.push (h : s.Held) (hi : s.Caches i b)
    (hall : (s.proc p).refs.countP (fun r => !r.locked) = 0) : (s.push p i b).Held := by
  refine h.setRefs (fun r hr => ?_) (fun r hr hlk => ?_) (fun j => ?_) ?_
  · obtain rfl | hr := List.mem_cons.1 hr
    · exact hi
    · exact h.ident p r hr
  · obtain rfl | hr := List.mem_cons.1 hr
    · cases hlk
    · exact h.locked p r hr hlk
  · rw [List.countP_cons]
    simpa using h.single p j
  · rw [List.countP_cons, hall]
    simp

theorem Counted.hit (h : s.Counted) (hi : s.Caches i b)
    (hall : (s.proc p).refs.countP (fun r => !r.locked) = 0) :
    ((s.incref i).push p i b).Counted := by
  have hheld : (s.incref i).Held := h.toHeld.setBuf rfl rfl (.inl rfl)
  refine h.of_change (hheld.push (caches_incref.2 hi) hall) fun j => ?_
  have hcount : ((s.incref i).push p i b).count j = s.count j + if j = i then 1 else 0 := by
    have hpins : ((s.incref i).push p i b).pins j = s.pins j :=
      pins_congr (fun c => caches_incref) rfl
    have hholders : (s.incref i).holders j = s.holders j := rfl
    rw [count, count, hpins, holders_push, hholders]
    omega
  have hrefcnt : (((s.incref i).push p i b).buf j).refcnt = if j = i then (s.buf j).refcnt + 1
      else (s.buf j).refcnt := by
    by_cases hj : j = i
    · subst hj
      simp [BioState.push, BioState.setRefs, incref]
    · simp [BioState.push, BioState.setRefs, incref, hj]
  rw [hcount, hrefcnt]
  split_ifs
  · exact .inr (.inl ⟨rfl, rfl⟩)
  · exact .inl ⟨rfl, rfl⟩

/-- An unused buffer is given to a block that has none. -/
theorem Held.recycle (h : s.Held) (hh : s.holders i = 0) (hp : s.pins i = 0)
    (hb : ∀ j, ¬s.Caches j b) : (s.recycle i b).Held := by
  have hself : (s.recycle i b).Caches i b := by simp [Caches]
  have hother : ∀ j c, j ≠ i → ((s.recycle i b).Caches j c ↔ s.Caches j c) := by
    intro j c hj
    simp [Caches, hj]
  have honly : ∀ c, (s.recycle i b).Caches i c → c = b := by
    rintro c ⟨-, hc⟩
    rw [← hc, hself.2]
  constructor
  · intro q r hr
    exact (hother _ _ (ne_of_holders_eq_zero hh hr)).2 (h.ident q r hr)
  · intro q r hr hlk
    have hne := ne_of_holders_eq_zero hh hr
    have : ((s.recycle i b).buf r.buf).lock = (s.buf r.buf).lock := by
      simp [hne]
    rw [this]
    exact h.locked q r hr hlk
  · exact h.single
  · exact h.waiting
  · exact h.order
  · intro j k c hj hk
    by_cases hji : j = i <;> by_cases hki : k = i
    · rw [hji, hki]
    · rw [hji] at hj
      rw [honly c hj] at hk
      exact absurd ((hother k b hki).1 hk) (hb k)
    · rw [hki] at hk
      rw [honly c hk] at hj
      exact absurd ((hother j b hji).1 hj) (hb j)
    · exact h.uniq j k c ((hother j c hji).1 hj) ((hother k c hki).1 hk)
  · intro c hc
    obtain ⟨j, hj⟩ := h.pinned c hc
    have hji : j ≠ i := by
      rintro rfl
      rw [pins_eq_one hj hc] at hp
      cases hp
    exact ⟨j, (hother j c hji).2 hj⟩
  · exact h.nodup

theorem Counted.miss (h : s.Counted) (hN : 2 * N + 1 < 2 ^ 32)
    (hi : (s.buf i).refcnt = 0) (hb : ∀ j, ¬s.Caches j b)
    (hall : (s.proc p).refs.countP (fun r => !r.locked) = 0) :
    ((s.recycle i b).push p i b).Counted := by
  obtain ⟨hh, hp⟩ := h.unused hN hi
  have hself : (s.recycle i b).Caches i b := by simp [Caches]
  have hlive : b ∉ s.live := fun hmem => by
    obtain ⟨j, hj⟩ := h.pinned b hmem
    exact hb j hj
  refine h.of_change ((h.toHeld.recycle hh hp hb).push hself hall) fun j => ?_
  have hholders : ((s.recycle i b).push p i b).holders j = s.holders j + if j = i then 1 else 0 :=
    holders_push
  by_cases hj : j = i
  · subst hj
    have hpins : ((s.recycle j b).push p j b).pins j = 0 := pins_eq_zero hself hlive
    refine .inr (.inl ⟨?_, ?_⟩)
    · rw [hi]
      simp [BioState.push, BioState.setRefs]
    · rw [count, count, hholders, hpins, hh, hp, if_pos rfl]
  · have hpins : ((s.recycle i b).push p i b).pins j = s.pins j := by
      refine pins_congr (fun c => ?_) rfl
      simp [BioState.push, BioState.setRefs, Caches, hj]
    refine .inl ⟨?_, ?_⟩
    · simp [BioState.push, BioState.setRefs, hj]
    · rw [count, count, hholders, hpins, if_neg hj]
      rfl

/-! ### Locks -/

theorem Held.ne_of_unlocked (h : s.Held) (hl : (s.buf i).lock = none)
    (hr : r ∈ (s.proc p).refs) (hlk : r.locked = true) : r.buf ≠ i := by
  rintro rfl
  rw [h.locked p r hr hlk] at hl
  cases hl

/-- `acquiresleep` of a buffer that is not locked. -/
theorem Counted.lock {rs : List (BufRef B)} (h : s.Counted)
    (hrefs : (s.proc p).refs = r :: rs) (hl : (s.buf r.buf).lock = none) :
    ((s.fill p r.buf).setRefs p ({ r with locked := true } :: rs)).Counted := by
  have hmem : ∀ r' ∈ rs, r' ∈ (s.proc p).refs := fun r' hr' => by
    rw [hrefs]
    exact List.mem_cons_of_mem _ hr'
  have hself : r ∈ (s.proc p).refs := by
    rw [hrefs]
    exact List.mem_cons_self
  have hheld : (s.fill p r.buf).Held :=
    h.toHeld.setBuf rfl rfl (.inr fun q r' hr' hlk => h.ne_of_unlocked hl hr' hlk)
  refine h.of_change (hheld.setRefs ?_ ?_ ?_ ?_) fun j =>
    .inl ⟨setBuf_part (s := s) (i := r.buf) Buf.refcnt (by rfl) j, ?_⟩
  · intro r' hr'
    obtain rfl | hr' := List.mem_cons.1 hr'
    · exact hheld.ident p r hself
    · exact hheld.ident p r' (hmem r' hr')
  · intro r' hr' hlk
    obtain rfl | hr' := List.mem_cons.1 hr'
    · simp [fill]
    · exact hheld.locked p r' (hmem r' hr') hlk
  · intro j
    have hsingle := h.single p j
    rw [hrefs, List.countP_cons] at hsingle
    rw [List.countP_cons]
    by_cases hj : r.buf = j
    · have hzero : rs.countP (fun r' => r'.locked && decide (r'.buf = j)) = 0 := by
        refine List.countP_eq_zero.2 fun r' hr' hlk => ?_
        simp only [Bool.and_eq_true, decide_eq_true_eq] at hlk
        exact h.ne_of_unlocked hl (hmem r' hr') hlk.1 (hlk.2.trans hj.symm)
      rw [hzero]
      split_ifs <;> omega
    · simp only [hj, decide_false, Bool.and_false, Bool.false_eq_true, if_false]
      omega
  · have hwaiting := h.waiting p
    rw [hrefs, List.countP_cons] at hwaiting
    rw [List.countP_cons]
    simp only [Bool.not_true, Bool.false_eq_true, if_false]
    omega
  · have hh : ((s.fill p r.buf).setRefs p ({ r with locked := true } :: rs)).holders j + _ =
        s.holders j + _ := holders_setRefs _
    have hrefs' : ((s.fill p r.buf).proc p).refs = r :: rs := hrefs
    rw [hrefs', List.countP_cons, List.countP_cons] at hh
    have hpins : ((s.fill p r.buf).setRefs p ({ r with locked := true } :: rs)).pins j = s.pins j :=
      pins_congr (fun c => caches_fill) rfl
    rw [count, count, hpins]
    dsimp only at hh
    omega

/-- `releasesleep` by a process that has locked all its buffers. -/
theorem Counted.unlock {k : ℕ} (h : s.Counted)
    (hk : (s.proc p).refs[k]? = some r) (hlk : r.locked = true)
    (hall : (s.proc p).refs.countP (fun r => !r.locked) = 0) :
    ((s.setBuf r.buf { s.buf r.buf with lock := none }).setRefs p
      ((s.proc p).refs.set k { r with locked := false })).Counted := by
  obtain ⟨a, c, hrefs, hset, -⟩ := exists_split hk
  have hmem : ∀ r', r' ∈ a ++ c → r' ∈ (s.proc p).refs := fun r' hr' => by
    rw [hrefs]
    exact List.mem_append.2 ((List.mem_append.1 hr').imp id (List.mem_cons_of_mem _))
  have hself : r ∈ (s.proc p).refs := List.mem_of_getElem? hk
  have hcases : ∀ r' ∈ a ++ { r with locked := false } :: c,
      r' = { r with locked := false } ∨ r' ∈ a ++ c := by
    intro r' hr'
    simp only [List.mem_append, List.mem_cons] at hr' ⊢
    tauto
  rw [hset]
  have hheld : (s.setRefs p (a ++ { r with locked := false } :: c)).Held := by
    refine h.toHeld.setRefs (fun r' hr' => ?_) (fun r' hr' hlk' => ?_) (fun j => ?_) ?_
    · obtain rfl | hr' := hcases r' hr'
      · exact h.ident p r hself
      · exact h.ident p r' (hmem r' hr')
    · obtain rfl | hr' := hcases r' hr'
      · cases hlk'
      · exact h.locked p r' (hmem r' hr') hlk'
    · have hsingle := h.single p j
      rw [hrefs, List.countP_append, List.countP_cons] at hsingle
      rw [List.countP_append, List.countP_cons]
      simp only [Bool.false_and, Bool.false_eq_true, if_false]
      omega
    · rw [hrefs, List.countP_append, List.countP_cons] at hall
      rw [List.countP_append, List.countP_cons]
      split_ifs <;> omega
  -- the pointer just changed was the only locked one
  have hnone : ∀ q, ∀ r' ∈ ((s.setRefs p (a ++ { r with locked := false } :: c)).proc q).refs,
      r'.locked = true → r'.buf ≠ r.buf := by
    intro q r' hr' hlk' he
    rw [setRefs_refs] at hr'
    split_ifs at hr' with hq
    · obtain rfl | hr' := hcases r' hr'
      · cases hlk'
      · have hsingle := h.single p r.buf
        have hpos : 0 < (a ++ c).countP fun r' => r'.locked && decide (r'.buf = r.buf) :=
          List.countP_pos_iff.2 ⟨r', hr', by simp [hlk', he]⟩
        rw [List.countP_append] at hpos
        rw [hrefs, List.countP_append, List.countP_cons, if_pos (by simp [hlk])] at hsingle
        omega
    · have hlock := h.locked q r' hr' hlk'
      rw [he, h.locked p r hself hlk] at hlock
      exact hq (Option.some.inj hlock).symm
  refine h.of_change (hheld.setBuf rfl rfl (.inr hnone)) fun j =>
    .inl ⟨setBuf_part (s := s) (i := r.buf) Buf.refcnt (by rfl) j, ?_⟩
  have hh : (s.setRefs p (a ++ { r with locked := false } :: c)).holders j + _ =
      s.holders j + _ := holders_setRefs _
  rw [hrefs] at hh
  simp only [List.countP_append, List.countP_cons] at hh
  have hpins : (s.setBuf r.buf { s.buf r.buf with lock := none }).pins j = s.pins j :=
    pins_congr (fun c => caches_setBuf (by rfl) (by rfl)) rfl
  change (s.setRefs p _).holders j + (s.setBuf r.buf _).pins j = s.holders j + s.pins j
  rw [hpins]
  omega

/-! ### Giving up a pointer or a pin -/

theorem Held.touch (h : s.Held) : (s.touch i).Held := by
  unfold BioState.touch
  split_ifs
  · refine h.congr (fun _ => rfl) (fun _ _ => Iff.rfl) (fun _ _ _ _ => rfl) (fun j hj => ?_) rfl
    by_cases hji : j = i
    · rw [hji]
      exact List.mem_cons_self
    · exact List.mem_cons_of_mem _ ((List.mem_erase_of_ne hji).2 hj)
  · exact h

theorem Counted.touch (h : s.Counted) : (s.touch i).Counted := by
  refine h.of_change h.toHeld.touch fun j => .inl ?_
  unfold BioState.touch
  split_ifs
  · exact ⟨rfl, rfl⟩
  · exact ⟨rfl, rfl⟩

theorem touch_setRefs (rs : List (BufRef B)) :
    (s.touch i).setRefs p rs = (s.setRefs p rs).touch i := by
  unfold BioState.touch
  split_ifs with h1 h2 h2
  · rfl
  · exact absurd h1 h2
  · exact absurd h2 h1
  · rfl

theorem Counted.unref {k : ℕ} (h : s.Counted)
    (hk : (s.proc p).refs[k]? = some r) :
    (((s.decref r.buf).touch r.buf).setRefs p ((s.proc p).refs.eraseIdx k)).Counted := by
  obtain ⟨a, c, hrefs, -, herase⟩ := exists_split hk
  rw [touch_setRefs, herase]
  refine Counted.touch ?_
  have hsub : (a ++ c).Sublist (s.proc p).refs := herase ▸ List.eraseIdx_sublist ..
  have hheld : (s.setRefs p (a ++ c)).Held :=
    h.toHeld.setRefs (fun r' hr' => h.ident p r' (hsub.subset hr'))
      (fun r' hr' => h.locked p r' (hsub.subset hr'))
      (fun j => hsub.countP_le.trans (h.single p j)) (hsub.countP_le.trans (h.waiting p))
  have hheld' : ((s.decref r.buf).setRefs p (a ++ c)).Held := hheld.setBuf rfl rfl (.inl rfl)
  refine h.of_change hheld' fun j => ?_
  have hpins : (s.decref r.buf).pins j = s.pins j := pins_congr (fun c => caches_decref) rfl
  have hcount : s.count j = ((s.decref r.buf).setRefs p (a ++ c)).count j +
      if j = r.buf then 1 else 0 := by
    have hh : (s.setRefs p (a ++ c)).holders j + _ = s.holders j + _ := holders_setRefs _
    change s.holders j + s.pins j = (s.setRefs p _).holders j + (s.decref r.buf).pins j + _
    have hif : (if decide (r.buf = j) = true then 1 else 0) = if j = r.buf then 1 else 0 := by
      simp [eq_comm]
    rw [hrefs] at hh
    simp only [List.countP_append, List.countP_cons, hif] at hh
    omega
  by_cases hj : j = r.buf
  · subst hj
    rw [if_pos rfl] at hcount
    refine .inr (.inr ⟨?_, hcount⟩)
    simp [BioState.setRefs, decref]
  · rw [if_neg hj] at hcount
    refine .inl ⟨?_, hcount.symm⟩
    simp [BioState.setRefs, decref, hj]

section

variable (h : s.Counted) (hd : (s.buf i).dev = ROOTDEV)

include h hd

theorem Counted.count_of_ne {y : Buf N} {live : List ℕ} (hj : j ≠ i)
    (hlive : ∀ c, c ≠ (s.buf i).blockno → (c ∈ live ↔ c ∈ s.live)) :
    ({ s.setBuf i y with live := live } : BioState N B).count j = s.count j := by
  have hpins : ({ s.setBuf i y with live := live } : BioState N B).pins j = s.pins j := by
    simp only [pins, setBuf_buf, hj, if_false]
    refine if_congr (and_congr_right fun hdj => hlive _ fun he => ?_) rfl rfl
    exact hj (h.uniq j i _ ⟨hdj, rfl⟩ ⟨hd, he.symm⟩)
  rw [count, count, hpins]
  rfl

theorem Counted.unpin (hlive : (s.buf i).blockno ∈ s.live) :
    ({ s.decref i with live := s.live.erase (s.buf i).blockno } : BioState N B).Counted := by
  have hmem : ∀ c, c ∈ s.live.erase (s.buf i).blockno ↔ c ≠ (s.buf i).blockno ∧ c ∈ s.live :=
    fun c => h.nodup.mem_erase_iff
  have hdecref : (s.decref i).Held := h.toHeld.setBuf rfl rfl (.inl rfl)
  have hheld : ({ s.decref i with live := s.live.erase (s.buf i).blockno } : BioState N B).Held :=
    { hdecref with
      pinned := fun c hc => hdecref.pinned c ((hmem c).1 hc).2
      nodup := h.nodup.erase _ }
  refine h.of_change hheld fun j => ?_
  by_cases hj : j = i
  · subst hj
    refine .inr (.inr ⟨?_, ?_⟩)
    · simp [decref]
    · have hpins : s.pins j = 1 := pins_eq_one ⟨hd, rfl⟩ hlive
      have hpins' : ({ s.decref j with live := s.live.erase (s.buf j).blockno } :
          BioState N B).pins j = 0 :=
        pins_eq_zero (caches_decref.2 ⟨hd, rfl⟩) fun hc => ((hmem _).1 hc).1 rfl
      rw [count, count, hpins, hpins']
      rfl
  · refine .inl ⟨by simp [decref, hj], h.count_of_ne hd hj fun c hc => ?_⟩
    rw [hmem]
    exact and_iff_right hc

theorem Counted.pin (hlive : (s.buf i).blockno ∉ s.live) :
    ({ s.incref i with live := s.live ++ [(s.buf i).blockno] } : BioState N B).Counted := by
  have hincref : (s.incref i).Held := h.toHeld.setBuf rfl rfl (.inl rfl)
  have hheld : ({ s.incref i with live := s.live ++ [(s.buf i).blockno] } : BioState N B).Held :=
    { hincref with
      pinned := fun c hc => by
        obtain hc | hc := List.mem_append.1 hc
        · exact hincref.pinned c hc
        · rw [List.mem_singleton.1 hc]
          exact ⟨i, caches_incref.2 ⟨hd, rfl⟩⟩
      nodup := List.nodup_append.2 ⟨h.nodup, List.nodup_singleton _, by
        rintro c hc _ hb rfl
        exact hlive (List.mem_singleton.1 hb ▸ hc)⟩ }
  refine h.of_change hheld fun j => ?_
  by_cases hj : j = i
  · subst hj
    refine .inr (.inl ⟨?_, ?_⟩)
    · simp [incref]
    · have hpins : s.pins j = 0 := pins_eq_zero ⟨hd, rfl⟩ hlive
      have hpins' : ({ s.incref j with live := s.live ++ [(s.buf j).blockno] } :
          BioState N B).pins j = 1 :=
        pins_eq_one (caches_incref.2 ⟨hd, rfl⟩) (by simp)
      rw [count, count, hpins, hpins']
      rfl
  · refine .inl ⟨by simp [incref, hj], h.count_of_ne hd hj fun c hc => ?_⟩
    rw [List.mem_append, List.mem_singleton]
    exact or_iff_left hc

end

/-! ### The steps of the code -/

theorem countP_eq_zero_iff_allLocked :
    (s.proc p).refs.countP (fun r => !r.locked) = 0 ↔ AllLocked (s.shape p) := by
  simp [AllLocked, shape, List.countP_eq_zero]

theorem Counted.store {x : Block} (h : s.Counted) : (s.store i x).Counted :=
  have hbuf : (s.setBuf i { s.buf i with data := x }).Counted :=
    h.congr (fun _ => rfl) (fun _ _ => caches_setBuf rfl rfl) (setBuf_part Buf.lock rfl)
      (setBuf_part Buf.refcnt rfl) rfl rfl
  hbuf.congr (fun _ => rfl) (fun _ _ => Iff.rfl) (fun _ => rfl) (fun _ => rfl) rfl rfl

theorem Exec.counted {op : BufOp} {l : Shape} (he : s.Exec p op l s') (h : s.Counted)
    (hN : 2 * N + 1 < 2 ^ 32)
    (hpin : ∀ k r, op = .bunpin k → (s.proc p).refs[k]? = some r → r.blk ∈ s.live) :
    s'.Counted := by
  cases he with
  | hit hall hi => exact h.hit hi (countP_eq_zero_iff_allLocked.2 hall)
  | miss hall hb hi =>
    exact h.miss hN hi (fun j => hb j (h.order j)) (countP_eq_zero_iff_allLocked.2 hall)
  | full | readHead =>
    exact h.congr (fun _ => rfl) (fun _ _ => Iff.rfl) (fun _ => rfl) (fun _ => rfl) rfl rfl
  | lock hrefs hfree => exact h.lock hrefs hfree
  | copy | writeHead => exact h.store
  | bunpin hr hrl =>
    have hcaches := h.ident p _ (List.mem_of_getElem? hr)
    refine h.unpin hcaches.1 ?_
    rw [hcaches.2]
    exact hpin _ _ rfl hr
  | unlock hr hrl hall => exact h.unlock hr hrl (countP_eq_zero_iff_allLocked.2 hall)
  | unref hr hrl => exact h.unref hr

end BioState

end Xv6Container
