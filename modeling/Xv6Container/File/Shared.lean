import Xv6Container.File.Counts

/-!
# Writers that share an open file

Any number of processes call `filewrite` on one `struct file` of a regular file.  A call writes its
buffer in chunks, each between `begin_op` and `end_op`; a chunk reads and moves the shared offset
with the inode locked, so the calls interleave chunk by chunk.

* `filewriteLoop_succ` : a round of the loop of `filewrite` is one chunk;
* `shared_file_appends` : **the file grows by the chunks in the order in which they are executed**,
  and nothing is lost or overwritten.
-/

namespace Xv6Container

open Function

/-- The body of the loop of `filewrite`: `n₁` bytes from byte `i` of the source on. -/
def filewriteChunk (src : ℕ → Option UInt8) (i n₁ : ℕ) (f : InodeFile) : FsM (ℤ × InodeFile) := do
  beginOp
  ilock f.ip
  let r ← writei f.ip (fun j => src (i + j)) f.off n₁
  let f := if 0 < r then { f with off := f.off + r.toNat } else f
  iunlock f.ip
  endOp
  return (r, f)

theorem filewriteLoop_succ (src : ℕ → Option UInt8) (n fuel i : ℕ) (f : InodeFile) :
    filewriteLoop src n (fuel + 1) i f =
      if n ≤ i then return (i, f)
      else filewriteChunk src i (min (n - i) maxWrite) f >>= fun (r, f) =>
        if r < 0 then return (i, f)
        else if r ≠ (min (n - i) maxWrite : ℕ) then throw (.panic "short filewrite")
        else filewriteLoop src n fuel (i + r.toNat) f := by
  rw [filewriteLoop]
  simp only [filewriteChunk, bind_assoc, pure_bind]

/-- A call of `filewrite`: the bytes in the buffer of the user, and how many have been written. -/
structure WriteCall where
  bytes : List UInt8
  i : ℕ

/-- The size of the next chunk of a call. -/
def WriteCall.size (c : WriteCall) : ℕ := min (c.bytes.length - c.i) maxWrite

/-- What a call has written. -/
def WriteCall.written (c : WriteCall) : List UInt8 := c.bytes.take c.i

/-- An open file with the processes that write to it. -/
structure SharedFile where
  fs : FsState
  f : InodeFile
  /-- The calls under way. -/
  call : Slot → Option WriteCall
  /-- The calls of each process that have returned, oldest first. -/
  past : Slot → List WriteCall
  /-- The chunks written so far, oldest first. -/
  chunks : List (Slot × List UInt8)

/-- What a process does next. -/
inductive WriteAct where
  /-- Call `filewrite` with a buffer of these bytes. -/
  | filewrite (bytes : List UInt8)
  /-- Write the next chunk. -/
  | chunk

namespace SharedFile

variable (s : SharedFile) (p : Slot)

/-- Process `p` goes on with the call `c`, or returns from it. -/
def setCall (c : WriteCall) : SharedFile :=
  if c.i < c.bytes.length then { s with call := update s.call p (some c) }
  else { s with call := update s.call p none, past := update s.past p (s.past p ++ [c]) }

/-- The next chunk of the call of `p`.  After a chunk that fails, `filewrite` returns -1. -/
def chunk : Option SharedFile :=
  match s.call p with
  | none => none
  | some c =>
    match (filewriteChunk (fun j => c.bytes[j]?) c.i c.size s.f).run { s.fs with cur := p } with
    | .error _ => none
    | .ok ((r, f), fs) =>
      if r < 0 then some { s with
        fs := fs
        f := f
        call := update s.call p none
        past := update s.past p (s.past p ++ [c]) }
      else if r ≠ c.size then none
      else some (setCall { s with
        fs := fs
        f := f
        chunks := s.chunks ++ [(p, (c.bytes.drop c.i).take c.size)] } p ⟨c.bytes, c.i + r.toNat⟩)

end SharedFile

/-- The steps of the writers of a file. -/
def sharedFile : Machine SharedFile (Slot × WriteAct) where
  next s l :=
    match l.2 with
    | .filewrite bytes =>
      if s.call l.1 = none ∧ s.f.writable = true then some (s.setCall l.1 ⟨bytes, 0⟩) else none
    | .chunk => s.chunk l.1

namespace SharedFile

/-- The next chunk of `p` is within the maximum file size. -/
def Within (s : SharedFile) (l : Slot × WriteAct) : Prop :=
  match l.2, s.call l.1 with
  | .chunk, some c => s.f.off + c.size ≤ MAXFILE * BSIZE
  | _, _ => True

instance (s : SharedFile) (l : Slot × WriteAct) : Decidable (s.Within l) := by
  unfold Within
  split <;> infer_instance

/-- What `p` has written: in calls that have returned, and in the one under way. -/
def sent (s : SharedFile) (p : Slot) : List UInt8 :=
  (s.past p).flatMap WriteCall.written ++ (s.call p).elim [] WriteCall.written

/-- The chunks of `p`, one after the other. -/
def chunksOf (s : SharedFile) (p : Slot) : List UInt8 :=
  ((s.chunks.filter fun x => x.1 = p).map Prod.snd).flatten

/-- The file of inode `i` consists of `old` and the chunks. -/
structure Appends (old : List UInt8) (i : ℕ) (s : SharedFile) : Prop where
  opened : Opened s.fs s.f i
  off : s.fs.disk.size i = s.f.off
  file : s.fs.file i = old ++ (s.chunks.map Prod.snd).flatten
  own : ∀ p, s.chunksOf p = s.sent p
  under : ∀ p, ∀ c ∈ s.call p, c.i < c.bytes.length
  past : ∀ p, ∀ c ∈ s.past p, c.i = c.bytes.length

variable {s s' : SharedFile} {p : Slot} {c : WriteCall} {old : List UInt8} {i : ℕ}

theorem written_extend (c : WriteCall) :
    (WriteCall.mk c.bytes (c.i + c.size)).written =
      c.written ++ (c.bytes.drop c.i).take c.size := by
  rw [WriteCall.written, WriteCall.written, ← List.take_add]

theorem sent_setCall (q : Slot) : (s.setCall p c).sent q =
    if q = p then (s.past p).flatMap WriteCall.written ++ c.written else s.sent q := by
  unfold setCall sent
  by_cases hq : q = p
  · subst hq
    split <;> simp
  · split <;> simp [hq]

theorem chunksOf_append {chunks : List (Slot × List UInt8)} {out : List UInt8}
    (h : s'.chunks = chunks ++ [(p, out)]) (q : Slot) : s'.chunksOf q =
      ((chunks.filter fun x => x.1 = q).map Prod.snd).flatten ++ if q = p then out else [] := by
  by_cases hq : q = p
  · simp [chunksOf, h, hq]
  · simp [chunksOf, h, hq, Ne.symm hq]

/-- A call that begins or goes on, with chunks and past calls as they should be. -/
theorem Appends.setCall (ho : Opened s.fs s.f i) (hoff : s.fs.disk.size i = s.f.off)
    (hfile : s.fs.file i = old ++ (s.chunks.map Prod.snd).flatten)
    (hown : ∀ q, s.chunksOf q =
      if q = p then (s.past p).flatMap WriteCall.written ++ c.written else s.sent q)
    (hunder : ∀ q, q ≠ p → ∀ c ∈ s.call q, c.i < c.bytes.length)
    (hpast : ∀ q, ∀ c ∈ s.past q, c.i = c.bytes.length) (hc : c.i ≤ c.bytes.length) :
    (s.setCall p c).Appends old i := by
  have hsame : (s.setCall p c).fs = s.fs ∧ (s.setCall p c).f = s.f ∧
      (s.setCall p c).chunks = s.chunks := by
    unfold SharedFile.setCall
    split <;> exact ⟨rfl, rfl, rfl⟩
  obtain ⟨hfs, hf, hchunks⟩ := hsame
  refine ⟨by rwa [hfs, hf], by rwa [hfs, hf], by rwa [hfs, hchunks], fun q => ?_, fun q d hd => ?_,
    fun q d hd => ?_⟩
  · rw [sent_setCall, ← hown, chunksOf, hchunks, chunksOf]
  · unfold SharedFile.setCall at hd
    split at hd <;> simp only [update_apply] at hd <;> grind
  · unfold SharedFile.setCall at hd
    split at hd <;> simp only [update_apply] at hd <;> grind

theorem opened_setCur (h : Opened s.fs s.f i) (p : Slot) : Opened { s.fs with cur := p } s.f i where
  wf := ⟨⟨h.wf.formatted.sb, h.wf.formatted.reserved⟩,
    ⟨h.wf.files.owns, h.wf.files.mapped, h.wf.files.size⟩,
    ⟨h.wf.cached.ref, h.wf.cached.bound, h.wf.cached.dev, h.wf.cached.inum, h.wf.cached.unique,
      h.wf.cached.din, h.wf.cached.type⟩⟩
  log := ⟨h.log.start, h.log.size, h.log.region, h.log.home⟩
  ref := h.ref
  inum := h.inum
  live := h.live
  size := h.size

/-- A chunk within the maximum file size is put at the end of the file. -/
theorem Appends.chunk (h : s.Appends old i) (hin : s.Within (p, .chunk))
    (hst : s.chunk p = some s') : s'.Appends old i := by
  unfold SharedFile.chunk at hst
  cases hc : s.call p with
  | none => rw [hc] at hst; cases hst
  | some c =>
    rw [hc] at hst
    dsimp only at hst
    split at hst
    · cases hst
    rename_i r f fs hrun
    have hlt := h.under p c hc
    have hmax : s.f.off + c.size ≤ MAXFILE * BSIZE := by simpa only [Within, hc] using hin
    have hret : Returns (filewriteChunk (fun j => c.bytes[j]?) c.i c.size s.f)
      { s.fs with cur := p } (r, f) fs := hrun
    simp only [filewriteChunk, returns_bind, returns_pure, Prod.mk.injEq] at hret
    obtain ⟨_, s₁, h1, _, s₂, h2, r', s₃, h3, _, s₄, h4, _, s₅, h5, ⟨rfl, rfl⟩, rfl⟩ := hret
    have hip : (if 0 < r' then { s.f with off := s.f.off + r'.toNat } else s.f).ip = s.f.ip := by
      split <;> rfl
    rw [hip] at h4
    have hsz : s.f.off + c.size < 2 ^ 32 := by
      unfold MAXFILE BSIZE NDIRECT NINDIRECT at hmax
      omega
    have hpos : 0 < c.size := by
      unfold WriteCall.size maxWrite
      simp only [lt_min_iff]
      exact ⟨by omega, by decide⟩
    have hle : c.i + c.size ≤ c.bytes.length := by
      unfold WriteCall.size
      omega
    have hop := opened_setCur h.opened p
    obtain ⟨-, -, -, hno⟩ | ⟨rfl, out, hfile, ho, hall⟩ :=
      hop.round (by omega) (by omega) h1 h2 h3 h4 h5
    · -- the chunk fits, so `writei` does not fail
      exact absurd ⟨h.off.ge, hmax⟩ hno
    rw [if_neg (by omega), if_neg (by simp), if_pos (by omega), Int.toNat_natCast] at hst
    obtain ⟨hlen, hout⟩ := hall fun j hj => by simp; omega
    obtain rfl : out = (c.bytes.drop c.i).take c.size := by
      refine List.ext_getElem? fun j => ?_
      rw [List.getElem?_take, List.getElem?_drop]
      split
      · rename_i hj
        exact (hout j hj).symm
      · exact List.getElem?_eq_none (by omega)
    have hfile : s₅.file i = s.fs.file i ++ (c.bytes.drop c.i).take c.size := hfile
    cases hst
    refine Appends.setCall ho ?_ ?_ (fun q => ?_) (fun q hq => h.under q) h.past hle
    · rw [← FsState.length_file, hfile, List.length_append, FsState.length_file, h.off, hlen]
    · simp [hfile, h.file]
    · rw [chunksOf_append rfl, written_extend, ← List.append_assoc]
      have hq := h.own q
      have hp := h.own p
      rw [chunksOf, sent] at hq hp
      rw [hc] at hp
      split
      · subst q
        rw [hp]
        rfl
      · rw [hq, List.append_nil]
        rfl

theorem Appends.next {l : Slot × WriteAct} (h : s.Appends old i) (hin : s.Within l)
    (hst : sharedFile.next s l = some s') : s'.Appends old i := by
  obtain ⟨p, a⟩ := l
  cases a with
  | filewrite bytes =>
    obtain ⟨⟨hnone, -⟩, hst⟩ := Option.ite_none_right_eq_some.1 hst
    cases hst
    refine Appends.setCall h.opened h.off h.file (fun q => ?_) (fun q _ => h.under q) h.past
      (Nat.zero_le _)
    rw [h.own q]
    split
    · subst q
      have hnone : s.call p = none := hnone
      simp [sent, hnone, WriteCall.written]
    · rfl
  | chunk => exact h.chunk hin hst

end SharedFile

variable {s₀ s : SharedFile} {i : ℕ} {ls : List (Slot × WriteAct)}

/-- **Writers that share an open file never overwrite each other.**  The offset of the file is its
size; any processes write to it, in any interleaving of their chunks, within the maximum file size.
Then the file is the old content followed by the chunks in the order in which they were executed,
and the offset is again its size.  The chunks of each process are, in order, the bytes of its calls
that have returned, all of them, and what the call under way has written. -/
theorem shared_file_appends (ho : Opened s₀.fs s₀.f i) (hoff : s₀.fs.disk.size i = s₀.f.off)
    (hcall : ∀ p, s₀.call p = none) (hpast : ∀ p, s₀.past p = []) (hchunks : s₀.chunks = [])
    (hrun : sharedFile.Run SharedFile.Within s₀ ls s) :
    s.fs.file i = s₀.fs.file i ++ (s.chunks.map Prod.snd).flatten ∧
    s.f.off = (s.fs.file i).length ∧
    (∀ p, s.chunksOf p = (s.past p).flatMap WriteCall.bytes ++
      (s.call p).elim [] WriteCall.written) := by
  have h0 : s₀.Appends (s₀.fs.file i) i := by
    refine ⟨ho, hoff, by simp [hchunks], fun p => ?_, fun p c hc => ?_, fun p c hc => ?_⟩
    · simp [SharedFile.chunksOf, SharedFile.sent, hchunks, hcall, hpast]
    · rw [hcall] at hc
      cases hc
    · rw [hpast] at hc
      cases hc
  have h := hrun.invariant h0 fun _ _ _ h hin hst => h.next hin hst
  refine ⟨h.file, by rw [FsState.length_file, h.off], fun p => ?_⟩
  rw [h.own, SharedFile.sent]
  congr 1
  refine List.flatMap_congr fun c hc => ?_
  rw [WriteCall.written, h.past p c hc, List.take_length]

/-- Process 1 writes a byte between two chunks of process 0. -/
def twoWriters (bytes : List UInt8) : List (Slot × WriteAct) :=
  [(0, .filewrite bytes), (1, .filewrite [9]), (0, .chunk), (1, .chunk), (0, .chunk)]

/-- A file of one block, open at its end. -/
def endOfFile (fs : FsState) : SharedFile :=
  ⟨fs, idleFd 1024, fun _ => none, fun _ => [], []⟩

/-- Five blocks, a file of one block, and processes of the root container. -/
def twoWritersFs : FsState :=
  (idleFile 5).setKern { oneProc with proc := fun _ => oneProc.proc 0 }

/-- The chunks of `twoWriters`. -/
def twoWritersChunks (src : ℕ → Option UInt8) : FsM (List (ℤ × InodeFile)) := do
  let x ← filewriteChunk src 0 3072 (idleFd 1024)
  modify fun s => { s with cur := 1 }
  let y ← filewriteChunk (fun j => [9][j]?) 0 1 (idleFd 4096)
  modify fun s => { s with cur := 0 }
  let z ← filewriteChunk src 3072 1 (idleFd 4097)
  return [x, y, z]

theorem run_twoWriters {fs t : FsState} {bytes : List UInt8} (hlen : bytes.length = 3073)
    (h : Returns (twoWritersChunks fun j => bytes[j]?) { fs with cur := 0 }
      [(3072, idleFd 4096), (1, idleFd 4097), (1, idleFd 4098)] t) :
    ∃ s, sharedFile.runIf SharedFile.Within (endOfFile fs) (twoWriters bytes) = some s ∧
      s.chunks.map Prod.snd = [bytes.take 3072, [9], bytes.drop 3072] := by
  simp only [twoWritersChunks, returns_bind, returns_modify, returns_pure, List.cons.injEq] at h
  obtain ⟨_, fs₁, h1, _, _, rfl, _, fs₂, h2, _, _, rfl, _, fs₃, h3, ⟨rfl, rfl, rfl, -⟩, -⟩ := h
  simp only [Returns] at h1 h2 h3
  have hfd : ∀ n, (idleFd n).off = n ∧ (idleFd n).writable = true := fun n => ⟨rfl, rfl⟩
  have hsize : maxWrite = 3072 := rfl
  have hmax : MAXFILE * BSIZE = 274432 := rfl
  -- the machine is run with the chunks as they are executed in `h`
  simp [twoWriters, endOfFile, Machine.runIf, sharedFile, SharedFile.setCall, SharedFile.chunk,
    SharedFile.Within, WriteCall.size, hlen, h1, h2, h3, hfd, hsize, hmax]

theorem shared_file_appends_two : ∃ s, sharedFile.Run SharedFile.Within
      (endOfFile twoWritersFs) (twoWriters (.replicate 3073 7)) s ∧
    s.fs.file 1 = twoWritersFs.file 1 ++ (.replicate 3072 7 ++ [9, 7]) ∧
    s.f.off = (s.fs.file 1).length := by
  obtain ⟨hs, hlog, ha⟩ := wellFormed_idleFile (n := 5) (by decide +kernel)
  have hsize : (idleFile 5).disk.size 1 = 1024 := by decide +kernel
  have hopen : Opened (idleFile 5) (idleFd 1024) 1 := ⟨hs, hlog, ha.1, rfl, hs.live ha, hsize.le⟩
  obtain ⟨t, h⟩ : ∃ t, Returns (twoWritersChunks fun j => if j < 3073 then some 7 else none)
      { twoWritersFs with cur := 0 } [(3072, idleFd 4096), (1, idleFd 4097), (1, idleFd 4098)] t :=
    exists_returns (by decide +kernel)
  simp only [← List.getElem?_replicate] at h
  obtain ⟨s, hrun, hx⟩ := run_twoWriters List.length_replicate h
  have hrun := Machine.runIf_eq_some_iff.1 hrun
  have hopen : Opened (endOfFile twoWritersFs).fs (endOfFile twoWritersFs).f 1 := hopen.setKern _
  have h := shared_file_appends hopen hsize (fun _ => rfl) (fun _ => rfl) rfl hrun
  refine ⟨s, hrun, ?_, h.2.1⟩
  rw [h.1, hx, List.take_replicate, List.drop_replicate]
  rfl

end Xv6Container
