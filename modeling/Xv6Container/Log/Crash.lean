import Xv6Container.Log.Basic

/-!
# Crash atomicity of the redo log

A machine running the log code can stop between any two disk block writes.  It then boots with
the disk as it is and an empty cache, and recovers; recovery can stop between any two of its own
writes too, and is then started again.

`Recoverable R h d` says that the disk `d` stands for the home contents `h`: the blocks named in
the on-disk header have their contents in the log, all other home blocks have them in place.  The
predicate is established by every write of `commit` up to and including the header (for the old
contents, then for the new ones), and it is kept by installing any prefix of the logged blocks
(`Recoverable.install`), which is all that the rest of `commit` and an interrupted recovery do.

* `crash_atomic` : after any sequence of commits, interrupted commits and interrupted
  recoveries, a completed recovery leaves exactly the transactions whose header was written, and
  an empty header.
-/

namespace Xv6Container

/-- The log region of a disk, as the superblock gives it. -/
structure LogRegion where
  /-- The header block. -/
  start : ℕ
  /-- Number of blocks, the header included. -/
  size : ℕ
  pos : 0 < size

/-- Home blocks are those outside the log region. -/
def LogRegion.Home (R : LogRegion) (b : ℕ) : Prop := b < R.start ∨ R.start + R.size ≤ b

/-- A transaction at the moment `commit` is called: the logged block numbers and the contents of
the buffer cache.  The bounds are those that `log_write` enforces (`Log.Ok`). -/
structure Txn (R : LogRegion) where
  /-- `lh.block[0 .. lh.n)`. -/
  blocks : List ℕ
  /-- The contents of the buffers. -/
  cache : Disk
  nodup : blocks.Nodup
  header : blocks.length ≤ LOGSIZE
  region : blocks.length ≤ R.size - 1
  home : ∀ b ∈ blocks, R.Home b
  word : ∀ b ∈ blocks, b < 2 ^ 32

/-- The in-memory log with the blocks `lh` logged. -/
def LogRegion.logOf (R : LogRegion) (lh : List ℕ) : Log where
  start := R.start
  size := R.size
  outstanding := 0
  committing := true
  lh := lh

/-- The machine after a boot from the disk `d`: nothing is cached or logged. -/
def LogRegion.boot (R : LogRegion) (d : Disk) : LogState where
  disk := d
  cache := d
  log := R.logOf []
  writes := []

/-- `recover_from_log` on the disk `d`. -/
def LogRegion.recover (R : LogRegion) (d : Disk) : LogState := (R.boot d).recoverFromLog

/-- The disk left by a recovery that stops after `j` block writes. -/
def LogRegion.recoverUpTo (R : LogRegion) (d : Disk) (j : ℕ) : Disk :=
  applyWrites d ((R.recover d).writes.take j)

variable {R : LogRegion}

namespace Txn

variable (t : Txn R)

/-- The machine with the transaction in its cache and `d` on its disk. -/
def before (d : Disk) : LogState where
  disk := d
  cache := t.cache
  log := R.logOf t.blocks
  writes := []

/-- `commit` of the transaction on the disk `d`. -/
def commitOn (d : Disk) : LogState := (t.before d).commit

/-- The contents logged by the transaction, over the contents `h`. -/
def install (h : Disk) : Disk := fun b => if b ∈ t.blocks then t.cache b else h b

/-- One of the first `k` block writes of `commit` goes to the header block: the first
`write_head` has reached the disk. -/
def HeadReached (d : Disk) (k : ℕ) : Prop :=
  R.start ∈ ((t.commitOn d).writes.take k).map Prod.fst

instance (d : Disk) (k : ℕ) : Decidable (t.HeadReached d k) :=
  inferInstanceAs (Decidable (_ ∈ _))

end Txn

/-- What can happen to a disk: a transaction commits, or the machine stops after `k` block writes
of `commit`, stops again during recoveries after `js` block writes each, and then completes a
recovery. -/
inductive LogEvent (R : LogRegion) where
  | commit (t : Txn R)
  | crash (t : Txn R) (k : ℕ) (js : List ℕ)

namespace LogEvent

/-- The disk after an event. -/
def disk (d : Disk) : LogEvent R → Disk
  | .commit t => (t.commitOn d).disk
  | .crash t k js =>
    (R.recover (js.foldl R.recoverUpTo (applyWrites d ((t.commitOn d).writes.take k)))).disk

/-- The home contents after an event: a transaction is installed as a whole exactly when its
header was written. -/
def effect (h : Disk) : LogEvent R → Disk
  | .commit t => t.install h
  | .crash t k _ => if t.HeadReached h k then t.install h else h

end LogEvent

/-! ### The writes of `commit` and of recovery -/

/-- Copying `bs` to the log region. -/
def LogRegion.logWrites (R : LogRegion) (bs : List ℕ) (h : Disk) : List (ℕ × Block) :=
  bs.zipIdx.map fun p => (R.start + p.2 + 1, h p.1)

/-- Copying `bs` home. -/
def homeWrites (bs : List ℕ) (h : Disk) : List (ℕ × Block) := bs.map fun b => (b, h b)

theorem map_fst_homeWrites (bs : List ℕ) (h : Disk) : (homeWrites bs h).map Prod.fst = bs := by
  simp [homeWrites, Function.comp_def]

variable {bs : List ℕ} {h d : Disk}

theorem mem_logWrites_fst {b : ℕ}
    (hb : b ∈ (R.logWrites bs h).map Prod.fst) : R.start < b ∧ b ≤ R.start + bs.length := by
  simp only [LogRegion.logWrites, List.map_map, List.mem_map, Function.comp_apply] at hb
  obtain ⟨p, hp, rfl⟩ := hb
  have := List.snd_lt_of_mem_zipIdx hp
  omega

theorem nodup_logWrites (bs : List ℕ) (h : Disk) :
    ((R.logWrites bs h).map Prod.fst).Nodup := by
  have hfst : (R.logWrites bs h).map Prod.fst = (List.range bs.length).map (R.start + · + 1) := by
    apply List.ext_getElem <;> simp [LogRegion.logWrites]
  rw [hfst]
  exact List.Nodup.map (fun a b (hab : R.start + a + 1 = R.start + b + 1) => by omega)
    List.nodup_range

theorem installTrans_eq_emit {m : LogState} (hlog : m.log.start = R.start)
    (hlen : m.log.lh.length ≤ R.size - 1) (hhome : ∀ b ∈ m.log.lh, R.Home b)
    (hc : ∀ p ∈ m.log.lh.zipIdx, m.cache (R.start + p.2 + 1) = h p.1) :
    m.installTrans = m.emit (homeWrites m.log.lh h) := by
  have hpos := R.pos
  rw [LogState.installTrans, LogState.copyBlocks_eq_emit, List.map_map]
  · congr 1
    have hmap : m.log.lh = m.log.lh.zipIdx.map Prod.fst := by simp
    conv_rhs => rw [homeWrites, hmap, List.map_map]
    refine List.map_congr_left fun p hp => ?_
    simp [hlog, hc p hp]
  · -- a home block is not a block of the log region
    simp only [List.mem_map]
    rintro _ ⟨p, hp, rfl⟩ _ ⟨q, hq, rfl⟩ heq
    have hq' := List.snd_lt_of_mem_zipIdx hq
    have hp' := hhome p.1 (List.fst_mem_of_mem_zipIdx hp)
    simp only [LogRegion.Home] at hp'
    simp only [hlog] at heq
    omega

theorem writeLog_eq_emit {m : LogState} (hlog : m.log.start = R.start)
    (hlen : m.log.lh.length ≤ R.size - 1) (hhome : ∀ b ∈ m.log.lh, R.Home b) :
    m.writeLog = m.emit (R.logWrites m.log.lh m.cache) := by
  have hpos := R.pos
  rw [LogState.writeLog, LogState.copyBlocks_eq_emit, List.map_map]
  · simp only [Function.comp_def, LogRegion.logWrites, hlog]
  · simp only [List.mem_map]
    rintro _ ⟨p, hp, rfl⟩ _ ⟨q, hq, rfl⟩ heq
    have hp' := List.snd_lt_of_mem_zipIdx hp
    have hq' := hhome q.1 (List.fst_mem_of_mem_zipIdx hq)
    simp only [LogRegion.Home] at hq'
    simp only [hlog] at heq
    omega

namespace Txn

variable (t : Txn R)

/-- The header block that the first `write_head` of `commit` writes. -/
def head : Block := putHeader (t.cache R.start) t.blocks

/-- The disk writes of `commit`, in order: log, header, home locations, empty header. -/
def commitWrites : List (ℕ × Block) :=
  R.logWrites t.blocks t.cache ++
    (R.start, t.head) :: (homeWrites t.blocks t.cache ++ [(R.start, putHeader t.head [])])

theorem start_notMem_logWrites : R.start ∉ (R.logWrites t.blocks t.cache).map Prod.fst :=
  fun hs => by have := mem_logWrites_fst hs; omega

theorem start_notMem_homeWrites : R.start ∉ (homeWrites t.blocks t.cache).map Prod.fst := by
  rw [map_fst_homeWrites]
  intro hs
  have hpos := R.pos
  have := t.home _ hs
  simp only [LogRegion.Home] at this
  omega

theorem commit_eq_emit (d : Disk) (h : t.blocks ≠ []) :
    t.commitOn d = ((t.before d).emit t.commitWrites).clearHead := by
  set LW := R.logWrites t.blocks t.cache with hLW
  have hlen : (t.before d).log.lh.length > 0 := List.length_pos_iff.2 h
  have h1 : (t.before d).writeLog = (t.before d).emit LW :=
    writeLog_eq_emit (R := R) rfl t.region t.home
  have h2 : ((t.before d).emit LW).writeHead = (t.before d).emit (LW ++ [(R.start, t.head)]) := by
    have hc : ((t.before d).emit LW).cache R.start = t.cache R.start :=
      applyWrites_of_notMem t.start_notMem_logWrites
    rw [LogState.writeHead_eq_emit, ← LogState.emit_emit, head, ← hc]
    rfl
  have h3 : ((t.before d).emit (LW ++ [(R.start, t.head)])).installTrans =
      (t.before d).emit (LW ++ [(R.start, t.head)] ++ homeWrites t.blocks t.cache) := by
    rw [← LogState.emit_emit (LW ++ _)]
    refine installTrans_eq_emit (R := R) (m := (t.before d).emit (LW ++ [(R.start, t.head)])) rfl
      t.region t.home fun p hp => ?_
    -- the buffers of the log region hold what was copied there
    change applyWrites t.cache (LW ++ [(R.start, t.head)]) (R.start + p.2 + 1) = t.cache p.1
    have hne : R.start + p.2 + 1 ≠ R.start := by omega
    rw [applyWrites_append, applyWrites_of_notMem (by simpa using hne)]
    exact applyWrites_of_mem (nodup_logWrites _ _) (List.mem_map.2 ⟨p, hp, rfl⟩)
  have h4 : applyWrites t.cache (LW ++ [(R.start, t.head)] ++ homeWrites t.blocks t.cache)
      R.start = t.head := by
    rw [applyWrites_append, applyWrites_of_notMem t.start_notMem_homeWrites, applyWrites_append]
    simp
  rw [commitOn, LogState.commit, if_pos hlen, h1, h2, h3, LogState.writeHead_eq_emit]
  change ((t.before d).emit _).clearHead.emit [(R.start, putHeader (applyWrites t.cache _ R.start)
    [])] = _
  rw [h4]
  simp [commitWrites, applyWrites_append, ← hLW]

theorem commit_writes (d : Disk) (h : t.blocks ≠ []) :
    (t.commitOn d).writes = t.commitWrites := by
  simp [t.commit_eq_emit d h, before]

theorem commit_disk (d : Disk) (h : t.blocks ≠ []) :
    (t.commitOn d).disk = applyWrites d t.commitWrites := by
  simp [t.commit_eq_emit d h, before]

theorem commitOn_nil (d : Disk) (h : t.blocks = []) :
    (t.commitOn d).writes = [] ∧ (t.commitOn d).disk = d := by
  simp [commitOn, LogState.commit, before, LogRegion.logOf, h]

theorem headReached_iff (d : Disk) (k : ℕ) (h : t.blocks ≠ []) :
    t.HeadReached d k ↔ t.blocks.length < k := by
  have hlen : (R.logWrites t.blocks t.cache).length = t.blocks.length := by
    simp [LogRegion.logWrites]
  rw [HeadReached, t.commit_writes d h, commitWrites]
  constructor
  · intro hs
    by_contra hk
    rw [List.take_append_of_le_length (by omega), List.map_take] at hs
    exact t.start_notMem_logWrites (List.mem_of_mem_take hs)
  · intro hk
    obtain ⟨k', rfl⟩ : ∃ k', k = (R.logWrites t.blocks t.cache).length + (k' + 1) :=
      ⟨k - t.blocks.length - 1, by omega⟩
    rw [List.take_length_add_append]
    simp

end Txn

/-! ### Disks that stand for given home contents -/

/-- The blocks `bs` of the on-disk header are to be installed: their contents in `h` are in the
log, and all other home blocks are in place. -/
structure Pending (R : LogRegion) (h d : Disk) (bs : List ℕ) : Prop where
  head : getHeader (d R.start) = bs
  nodup : bs.Nodup
  region : bs.length ≤ R.size - 1
  home : ∀ b ∈ bs, R.Home b
  logged : ∀ p ∈ bs.zipIdx, d (R.start + p.2 + 1) = h p.1
  inPlace : ∀ b, R.Home b → b ∉ bs → d b = h b

/-- The disk `d` stands for the home contents `h`. -/
def Recoverable (R : LogRegion) (h d : Disk) : Prop := ∃ bs, Pending R h d bs

theorem not_home_start : ¬ R.Home R.start := by
  have := R.pos
  simp only [LogRegion.Home]
  omega

theorem Pending.ofEmpty (hd : getHeader (d R.start) = [])
    (hin : ∀ b, R.Home b → d b = h b) : Pending R h d [] :=
  ⟨hd, List.nodup_nil, by simp, by simp, by simp, fun b hb _ => hin b hb⟩

theorem Pending.installed (hp : Pending R h d bs) {hd : Block} {b : ℕ} (hb : R.Home b) :
    applyWrites (applyWrites d (homeWrites bs h)) [(R.start, hd)] b = h b := by
  have hne : b ≠ R.start := fun e => not_home_start (e ▸ hb)
  rw [applyWrites_cons, applyWrites_nil, Function.update_of_ne hne]
  by_cases hbs : b ∈ bs
  · refine applyWrites_of_mem ?_ (List.mem_map.2 ⟨b, hbs, rfl⟩)
    rw [map_fst_homeWrites]
    exact hp.nodup
  · rw [applyWrites_of_notMem (by rwa [map_fst_homeWrites])]
    exact hp.inPlace b hb hbs

/-- **Installing any part of the pending blocks loses nothing**: after any prefix of the home
writes, and after the empty header that follows them, the disk stands for the same contents. -/
theorem Pending.install (hp : Pending R h d bs) {hd : Block}
    (hhd : getHeader hd = []) (j : ℕ) :
    Recoverable R h (applyWrites d ((homeWrites bs h ++ [(R.start, hd)]).take j)) := by
  have hlen : (homeWrites bs h).length = bs.length := by simp [homeWrites]
  by_cases hj : j ≤ bs.length
  · -- the header is still the old one, and the log is not touched
    rw [List.take_append_of_le_length (by omega)]
    have hfst : ∀ b, b ∉ bs → b ∉ ((homeWrites bs h).take j).map Prod.fst := by
      intro b hb hmem
      rw [List.map_take, map_fst_homeWrites] at hmem
      exact hb (List.mem_of_mem_take hmem)
    refine ⟨bs, ?_, hp.nodup, hp.region, hp.home, fun p hpm => ?_, fun b hb hbs => ?_⟩
    · rw [applyWrites_of_notMem (hfst _ fun hs => not_home_start (hp.home _ hs))]
      exact hp.head
    · have hlt := List.snd_lt_of_mem_zipIdx hpm
      have hreg := hp.region
      have hnot : R.start + p.2 + 1 ∉ bs := by
        intro hmem
        have := hp.home _ hmem
        simp only [LogRegion.Home] at this
        omega
      rw [applyWrites_of_notMem (hfst _ hnot)]
      exact hp.logged p hpm
    · rw [applyWrites_of_notMem (hfst _ hbs)]
      exact hp.inPlace b hb hbs
  · rw [List.take_of_length_le (by simp [hlen]; omega), applyWrites_append]
    exact ⟨[], Pending.ofEmpty (by simpa using hhd) fun b hb => hp.installed hb⟩

theorem Pending.recover_eq (hp : Pending R h d bs) :
    (R.recover d).writes = homeWrites bs h ++ [(R.start, putHeader (d R.start) [])] ∧
      (R.recover d).disk =
        applyWrites d (homeWrites bs h ++ [(R.start, putHeader (d R.start) [])]) := by
  have hstart : applyWrites d (homeWrites bs h) R.start = d R.start := by
    rw [applyWrites_of_notMem]
    rw [map_fst_homeWrites]
    exact fun hs => not_home_start (hp.home _ hs)
  have hread : (R.boot d).readHead.log.lh = bs := hp.head
  have hinst : (R.boot d).readHead.installTrans = (R.boot d).readHead.emit (homeWrites bs h) := by
    rw [installTrans_eq_emit (R := R) (h := h) rfl (by rw [hread]; exact hp.region)
      (by rw [hread]; exact hp.home) (by rw [hread]; exact hp.logged), hread]
  have hrec : R.recover d = ((R.boot d).readHead.emit (homeWrites bs h)).clearHead.emit
      [(R.start, putHeader (applyWrites d (homeWrites bs h) R.start) [])] := by
    rw [LogRegion.recover, LogState.recoverFromLog, hinst, LogState.writeHead_eq_emit]
    rfl
  rw [hrec, hstart]
  simp [LogState.readHead, LogRegion.boot, applyWrites_append]

theorem headerN_putHeader_nil (b : Block) : headerN (putHeader b []) = 0 :=
  headerN_putHeader (by simp)

theorem getHeader_putHeader_nil (b : Block) : getHeader (putHeader b []) = [] :=
  getHeader_putHeader (by simp) (by simp)

theorem Recoverable.recoverUpTo (hr : Recoverable R h d) (j : ℕ) :
    Recoverable R h (R.recoverUpTo d j) := by
  obtain ⟨bs, hp⟩ := hr
  rw [LogRegion.recoverUpTo, hp.recover_eq.1]
  exact hp.install (getHeader_putHeader_nil _) j

theorem Recoverable.foldl (hr : Recoverable R h d) (js : List ℕ) :
    Recoverable R h (js.foldl R.recoverUpTo d) := by
  induction js generalizing d with
  | nil => exact hr
  | cons j js ih => exact ih (hr.recoverUpTo j)

theorem Recoverable.recover (hr : Recoverable R h d) :
    headerN ((R.recover d).disk R.start) = 0 ∧ ∀ b, R.Home b → (R.recover d).disk b = h b := by
  obtain ⟨bs, hp⟩ := hr
  have hfst : R.start ∉ (homeWrites bs h).map Prod.fst := by
    rw [map_fst_homeWrites]
    exact fun hs => not_home_start (hp.home _ hs)
  rw [hp.recover_eq.2, applyWrites_append]
  exact ⟨by simpa using headerN_putHeader_nil _, fun b hb => hp.installed hb⟩

/-! ### Crash atomicity -/

theorem Txn.recoverable_new (t : Txn R) (hin : ∀ b, R.Home b → d b = h b) (j : ℕ) :
    Recoverable R (t.install h)
      (applyWrites (applyWrites d (R.logWrites t.blocks t.cache ++ [(R.start, t.head)]))
        ((homeWrites t.blocks t.cache ++ [(R.start, putHeader t.head [])]).take j)) := by
  have hlt : t.blocks.length < 2 ^ 31 := t.header.trans_lt (by decide)
  have hread : getHeader t.head = t.blocks := getHeader_putHeader hlt t.word
  have hp : Pending R (t.install h)
      (applyWrites d (R.logWrites t.blocks t.cache ++ [(R.start, t.head)])) t.blocks := by
    rw [applyWrites_append]
    refine ⟨by simpa using hread, t.nodup, t.region, t.home, fun p hp => ?_, fun b hb hbs => ?_⟩
    · have hmem : p.1 ∈ t.blocks := List.fst_mem_of_mem_zipIdx hp
      have hne : R.start + p.2 + 1 ≠ R.start := by omega
      rw [applyWrites_of_notMem (by simpa using hne), Txn.install, if_pos hmem]
      exact applyWrites_of_mem (nodup_logWrites _ _) (List.mem_map.2 ⟨p, hp, rfl⟩)
    · have hne : b ≠ R.start := fun e => not_home_start (e ▸ hb)
      have hlog : b ∉ (R.logWrites t.blocks t.cache).map Prod.fst := by
        intro hmem
        have h1 := mem_logWrites_fst hmem
        have h2 := t.region
        have h3 := R.pos
        simp only [LogRegion.Home] at hb
        omega
      rw [applyWrites_of_notMem (by simpa using hne), applyWrites_of_notMem hlog, hin b hb,
        Txn.install, if_neg hbs]
  have hw : homeWrites t.blocks t.cache = homeWrites t.blocks (t.install h) := by
    refine List.map_congr_left fun b hb => ?_
    simp [Txn.install, hb]
  rw [hw]
  exact hp.install (getHeader_putHeader_nil _) j

/-- **A crash in `commit` leaves the old or the new contents.**  On a disk with an empty header
that holds the home contents `h`, stopping `commit` after `k` block writes leaves a disk that
stands for `h`, or for the contents logged by the transaction once the header was written. -/
theorem Txn.recoverable_commit (t : Txn R) (hd : getHeader (d R.start) = [])
    (hin : ∀ b, R.Home b → d b = h b) (k : ℕ) :
    Recoverable R (if t.HeadReached h k then t.install h else h)
      (applyWrites d ((t.commitOn d).writes.take k)) := by
  by_cases hne : t.blocks = []
  · -- nothing is written
    have hnot : ¬ t.HeadReached h k := by simp [Txn.HeadReached, (t.commitOn_nil h hne).1]
    rw [if_neg hnot, (t.commitOn_nil d hne).1]
    exact ⟨[], Pending.ofEmpty (by simpa using hd) (by simpa using hin)⟩
  · have hlen : (R.logWrites t.blocks t.cache).length = t.blocks.length := by
      simp [LogRegion.logWrites]
    simp only [t.headReached_iff h k hne]
    rw [t.commit_writes d hne, Txn.commitWrites]
    split_ifs with hk
    · obtain ⟨j, rfl⟩ : ∃ j, k = (R.logWrites t.blocks t.cache).length + (j + 1) :=
        ⟨k - t.blocks.length - 1, by omega⟩
      rw [List.take_length_add_append, List.take_succ_cons, ← List.singleton_append,
        ← List.append_assoc, applyWrites_append]
      exact t.recoverable_new hin j
    · rw [List.take_append_of_le_length (by omega)]
      have hlog : ∀ b, b ∈ ((R.logWrites t.blocks t.cache).take k).map Prod.fst →
          R.start < b ∧ ¬ R.Home b := by
        intro b hb
        rw [List.map_take] at hb
        have h1 := mem_logWrites_fst (List.mem_of_mem_take hb)
        have h2 := t.region
        have h3 := R.pos
        simp only [LogRegion.Home]
        omega
      refine ⟨[], Pending.ofEmpty ?_ fun b hb => ?_⟩
      · rw [applyWrites_of_notMem fun hs => lt_irrefl _ (hlog _ hs).1]
        exact hd
      · rw [applyWrites_of_notMem fun hs => (hlog _ hs).2 hb]
        exact hin b hb

theorem getHeader_eq_nil {b : Block} (h : headerN b = 0) : getHeader b = [] := by
  simp [getHeader, h]

theorem Txn.commit_complete (t : Txn R) (hd : headerN (d R.start) = 0)
    (hin : ∀ b, R.Home b → d b = h b) :
    headerN ((t.commitOn d).disk R.start) = 0 ∧
      ∀ b, R.Home b → (t.commitOn d).disk b = t.install h b := by
  by_cases hne : t.blocks = []
  · rw [(t.commitOn_nil d hne).2]
    refine ⟨hd, fun b hb => ?_⟩
    simp [Txn.install, hne, hin b hb]
  · have hsplit : t.commitWrites = (R.logWrites t.blocks t.cache ++ [(R.start, t.head)] ++
        homeWrites t.blocks t.cache) ++ [(R.start, putHeader t.head [])] := by
      simp [Txn.commitWrites]
    have hstart : headerN ((t.commitOn d).disk R.start) = 0 := by
      rw [t.commit_disk d hne, hsplit, applyWrites_append]
      simpa using headerN_putHeader_nil t.head
    refine ⟨hstart, fun b hb => ?_⟩
    have hr := t.recoverable_new hin (t.blocks.length + 1)
    rw [List.take_of_length_le (by simp [homeWrites]), ← applyWrites_append, List.append_assoc,
      List.singleton_append, ← Txn.commitWrites, ← t.commit_disk d hne] at hr
    obtain ⟨bs, hp⟩ := hr
    have hbs : bs = [] := by rw [← hp.head, getHeader_eq_nil hstart]
    exact hp.inPlace b hb (by simp [hbs])

theorem LogEvent.disk_effect (e : LogEvent R) (hd : headerN (d R.start) = 0)
    (hin : ∀ b, R.Home b → d b = h b) :
    headerN (e.disk d R.start) = 0 ∧ ∀ b, R.Home b → e.disk d b = e.effect h b := by
  cases e with
  | commit t => exact t.commit_complete hd hin
  | crash t k js => exact ((t.recoverable_commit (getHeader_eq_nil hd) hin k).foldl js).recover

/-- **Crash atomicity.**  Start from any disk with an empty log header and let any sequence of
transactions commit, each possibly interrupted after any number of its block writes, with any
number of recoveries interrupted after any number of theirs.  After every completed recovery (and
every completed commit) the header count is `0`, and the home blocks hold the initial contents
with exactly those transactions installed, each as a whole and in order, that ran to the end or
whose header had reached the disk. -/
theorem crash_atomic (R : LogRegion) (d₀ : Disk) (hd0 : headerN (d₀ R.start) = 0)
    (es : List (LogEvent R)) :
    headerN (es.foldl LogEvent.disk d₀ R.start) = 0 ∧
      ∀ b, R.Home b → es.foldl LogEvent.disk d₀ b = es.foldl LogEvent.effect d₀ b := by
  -- the two folds run side by side; their states agree on the home blocks
  suffices hgen : ∀ (es : List (LogEvent R)) (d h : Disk), headerN (d R.start) = 0 →
      (∀ b, R.Home b → d b = h b) → headerN (es.foldl LogEvent.disk d R.start) = 0 ∧
        ∀ b, R.Home b → es.foldl LogEvent.disk d b = es.foldl LogEvent.effect h b from
    hgen es d₀ d₀ hd0 fun _ _ => rfl
  intro es
  induction es with
  | nil => exact fun d h hd hin => ⟨hd, hin⟩
  | cons e es ih =>
    intro d h hd hin
    obtain ⟨hd', hin'⟩ := e.disk_effect hd hin
    exact ih _ _ hd' hin'

/-- A transaction that writes ones to block 7, with the log in blocks 2 to 5. -/
def onesTxn : Txn ⟨2, 4, by decide⟩ where
  blocks := [7]
  cache := fun _ _ => 1
  nodup := by decide
  header := by decide
  region := by decide
  home := by simp [LogRegion.Home]
  word := by decide

theorem crash_atomic_ones :
    headerN ((fun _ _ => 0 : Disk) 2) = 0 ∧
      headerN ([LogEvent.crash onesTxn 2 [0, 1]].foldl LogEvent.disk (fun _ _ => 0) 2) = 0 ∧
      [LogEvent.crash onesTxn 2 [0, 1]].foldl LogEvent.disk (fun _ _ => 0) 7 = fun _ => 1 := by
  have hhome : LogRegion.Home ⟨2, 4, by decide⟩ 7 := by simp [LogRegion.Home]
  have hreach : onesTxn.HeadReached (fun _ _ => 0) 2 := by decide
  obtain ⟨hn, hb⟩ := crash_atomic ⟨2, 4, by decide⟩ (fun _ _ => 0) (by decide)
    [.crash onesTxn 2 [0, 1]]
  refine ⟨by decide, hn, (hb 7 hhome).trans ?_⟩
  simp only [List.foldl_cons, List.foldl_nil, LogEvent.effect, if_pos hreach]
  rfl

end Xv6Container
