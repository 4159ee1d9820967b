import Xv6Container.Data.Within
import Xv6Container.Fs.Alloc
import Xv6Container.Fs.Path

/-!
# What file system code can change

The code of `kernel/fs.c` changes the state of the file system by a few primitive steps only: it
writes to a buffer, logs a block, charges a block to a container or credits one, and changes an
entry of the inode cache.  A property of computations that these steps have and composition keeps
holds of all of the code (`FsRules.namei` for path lookups).  One such property is to stay within a
preorder that contains the primitive steps, so what the code does *not* change needs a look at these
only.  With it comes how the code can stop (`FsStop`).

* `FsState.SameTables` : such a preorder; the process and container tables stay as they are, but for
  the blocks charged to containers and the processes that run out of them.
-/

namespace Xv6Container

/-- The messages with which file system code panics. -/
def fsPanics : List String :=
  ["too big a transaction", "log_write outside of trans", "log.committing",
    "balloc: out of blocks", "freeing free block", "bmap: out of range", "iget: no inodes", "ilock",
    "ilock: no type", "iunlock", "dirlookup read", "dirlookup not DIR"]

/-- How file system code stops. -/
def FsStop (e : Stop) : Prop := ∀ msg, e = .panic msg → msg ∈ fsPanics

theorem fsStop_panic {msg : String} (h : msg ∈ fsPanics) : FsStop (.panic msg) := by
  rintro _ ⟨⟩
  exact h

theorem fsStop_fault : FsStop .fault := nofun

theorem fsStop_deadlock : FsStop .deadlock := nofun

namespace FsState

/-- The preorder `R` contains the primitive steps of the code that works on blocks, and `E` the
errors with which it stops.  Of an entry of the inode cache it changes the disk inode only. -/
structure HasBlockSteps (R : FsState → FsState → Prop) (E : Stop → Prop) : Prop where
  stop : ∀ e, FsStop e → E e
  blk : ∀ s b f, R s (s.setBlk b f)
  log : ∀ s b l, s.store.log.logWrite b = .ok l → R s (s.setLog l)
  charge : ∀ s, R s (s.setKern s.charge)
  credit : ∀ s, R s (s.setKern s.credit)
  din : ∀ s a (g : Dinode → Dinode), R s (s.modifyInode a fun ip => { ip with din := g ip.din })

/-- The preorder `R` contains the primitive steps of all the file system code. -/
structure HasSteps (R : FsState → FsState → Prop) (E : Stop → Prop) : Prop
    extends HasBlockSteps R E where
  inode : ∀ s a g, R s (s.modifyInode a g)
  din s a _ := inode s a _

/-! ### Rules -/

/-- A property of computations that the code on blocks has: it holds of the primitive steps and of
the ways to stop, and composition keeps it.  Nothing here reads the tables but the accounting. -/
structure BlockRules (W : ∀ {α : Type}, FsM α → Prop) : Prop where
  pure : ∀ {α : Type} (x : α), W (Pure.pure x)
  bind : ∀ {α β : Type} {m : FsM α} {f : α → FsM β}, W m → (∀ x, W (f x)) → W (m >>= f)
  get : ∀ {β : Type} {f : FsState → FsM β}, (∀ s k, f (s.setKern k) = f s) → (∀ s, W (f s)) →
    W (MonadState.get >>= f)
  stop : ∀ {α : Type} (e : Stop), FsStop e → W (throw e : FsM α)
  setBuf : ∀ b f, W (setBuf b f)
  logWrite : ∀ b, W (logWrite b)
  charge : W chargeBlock
  credit : W creditBlock
  setDin : ∀ a g, W (setDin a g)

/-- A property that the code on inodes and directories has, too.  The test in `dirlookup` reads the
tables; it has the property for the directories and names that `N` allows. -/
structure FsRules (N : ℕ → CharArray → Prop) (W : ∀ {α : Type}, FsM α → Prop) : Prop
    extends BlockRules @W where
  setInode : ∀ a g, W (setInode a g)
  stops : ∀ a name, N a name → W (dirlookupStops a name)

theorem rule_ite {W : ∀ {α : Type}, FsM α → Prop} {α : Type} {c : Prop} [Decidable c] {m m' : FsM α}
    (hm : W m) (hm' : W m') : W (if c then m else m') := by
  split
  · exact hm
  · exact hm'

/-! ### Blocks -/

namespace BlockRules

variable {W : ∀ {α : Type}, FsM α → Prop} {α : Type} (L : BlockRules @W) (a : ℕ)

include L

theorem panic {msg : String} (h : msg ∈ fsPanics) : W (throw (.panic msg) : FsM α) :=
  L.stop _ (fsStop_panic h)

theorem forM {γ : Type} {g : γ → FsM Unit} (l : List γ) (hg : ∀ x, W (g x)) :
    W (l.forM g) := by
  induction l with
  | nil => exact L.pure ()
  | cons x l ih => exact L.bind (hg x) fun _ => ih

theorem bread (b : ℕ) : W (bread b) := L.get (fun _ _ => rfl) fun _ => L.pure _

theorem inode : W (inode a) := L.get (fun _ _ => rfl) fun _ => L.pure _

theorem balloc : W balloc := by
  refine L.bind L.charge fun _ => L.get (fun _ _ => rfl) fun s => ?_
  cases s.freeBlock with
  | none => exact L.panic (by decide)
  | some b =>
    exact L.bind (L.setBuf _ _) fun _ => L.bind (L.logWrite _) fun _ => L.bind
      (L.bind (L.setBuf b _) fun _ => L.logWrite b) fun _ => L.pure b

theorem bfree (b : ℕ) : W (bfree b) :=
  L.bind L.credit fun _ => L.get (fun _ _ => rfl) fun _ => rule_ite
    (L.bind (L.setBuf _ _) fun _ => L.logWrite _) (L.panic (by decide))

theorem iupdate : W (iupdate a) :=
  L.get (fun _ _ => rfl) fun _ => L.bind (L.setBuf _ _) fun _ => L.logWrite _

theorem bmapAddr (k : Fin (NDIRECT + 1)) : W (bmapAddr a k) :=
  L.bind (L.inode a) fun _ =>
    rule_ite (L.bind L.balloc fun b => L.bind (L.setDin a _) fun _ => L.pure b) (L.pure _)

theorem bmap (bn : ℕ) : W (bmap a bn) := by
  unfold Xv6Container.bmap
  split
  · exact L.bmapAddr a _
  · refine rule_ite (L.bind (L.bmapAddr a _) fun addr => L.bind (L.bread addr) fun f => ?_)
      (L.panic (by decide))
    exact rule_ite (L.bind L.balloc fun b => L.bind (L.bread addr) fun _ => L.bind (L.setBuf addr _)
      fun _ => L.bind (L.logWrite addr) fun _ => L.pure b) (L.pure _)

theorem itruncAddr (k : Fin (NDIRECT + 1)) : W (itruncAddr a k) :=
  L.bind (L.inode a) fun _ => rule_ite (L.bind (L.bfree _) fun _ => L.setDin a _) (L.pure _)

theorem itruncEntry (addr j : ℕ) : W (itruncEntry addr j) :=
  L.bind (L.bread addr) fun _ => rule_ite (L.bfree _) (L.pure _)

theorem itrunc : W (itrunc a) := by
  refine L.bind (L.forM _ fun i => L.itruncAddr a i.castSucc) fun _ => L.bind (L.inode a)
    fun ip => ?_
  have hend : W (do
      Xv6Container.itruncAddr a indirect
      Xv6Container.setDin a fun d => { d with size := 0 }
      Xv6Container.iupdate a) :=
    L.bind (L.itruncAddr a _) fun _ => L.bind (L.setDin a _) fun _ => L.iupdate a
  exact rule_ite (L.bind (L.forM _ fun j => L.itruncEntry _ j) fun _ => hend) hend

theorem readiLoop (dst : ℕ → Bool) (fuel tot off n : ℕ) :
    W (readiLoop a dst fuel tot off n) := by
  induction fuel generalizing tot off n with
  | zero => exact L.pure _
  | succ fuel ih =>
    rw [Xv6Container.readiLoop]
    refine rule_ite (L.pure _) (L.bind (L.bmap a _) fun b => L.bind (L.bread b) fun _ => ?_)
    exact rule_ite (L.pure _) (L.bind (ih _ _ _) fun _ => L.pure _)

theorem readi (dst : ℕ → Bool) (off n : ℕ) : W (readi a dst off n) :=
  L.bind (L.inode a) fun _ =>
    rule_ite (L.pure _) (L.bind (L.readiLoop a dst _ _ _ _) fun _ => L.pure _)

theorem writeiLoop (src : ℕ → Option UInt8) (fuel tot off n : ℕ) :
    W (writeiLoop a src fuel tot off n) := by
  induction fuel generalizing tot off n with
  | zero => exact L.pure _
  | succ fuel ih =>
    rw [Xv6Container.writeiLoop]
    refine rule_ite (L.pure _) (L.bind (L.bmap a _) fun b => L.bind (L.bread b) fun _ =>
      L.bind (L.setBuf b _) fun _ => ?_)
    exact rule_ite (L.pure _) (L.bind (L.logWrite b) fun _ => ih _ _ _)

theorem writei (src : ℕ → Option UInt8) (off n : ℕ) : W (writei a src off n) := by
  have hend : W (do
      Xv6Container.iupdate a
      return (n : ℤ)) := L.bind (L.iupdate a) fun _ => L.pure _
  refine L.bind (L.inode a) fun _ => rule_ite (L.pure _) <| rule_ite (L.pure _) <|
    L.bind (L.writeiLoop a src _ _ _ _) fun _ =>
      rule_ite (L.bind (L.inode a) fun _ => ?_) (L.pure _)
  exact rule_ite (L.bind (L.setDin a _) fun _ => hend) hend

end BlockRules

/-! ### Inodes -/

namespace FsRules

variable {N : ℕ → CharArray → Prop} {W : ∀ {α : Type}, FsM α → Prop} (L : FsRules N @W) (a : ℕ)

include L

theorem iget (dev inum : ℕ) : W (iget dev inum) := by
  refine L.get (fun _ _ => rfl) fun s => ?_
  split
  · exact L.bind (L.setInode _ _) fun _ => L.pure _
  · split
    · exact L.panic (by decide)
    · exact L.bind (L.setInode _ _) fun _ => L.pure _

theorem idup : W (idup a) := L.bind (L.setInode a _) fun _ => L.pure a

theorem ilock : W (ilock a) :=
  L.get (fun _ _ => rfl) fun _ => rule_ite (L.panic (by decide)) <|
    rule_ite (L.stop _ fsStop_deadlock) <| rule_ite (L.setInode a _) <|
      rule_ite (L.panic (by decide)) (L.setInode a _)

theorem iunlock : W (iunlock a) :=
  L.bind (L.inode a) fun _ => rule_ite (L.panic (by decide)) (L.setInode a _)

theorem iput : W (iput a) := by
  refine L.bind (L.inode a) fun ip => ?_
  have hdrop : W (Xv6Container.setInode a fun ip => { ip with ref := ip.ref - 1 }) :=
    L.setInode a _
  have hfree : W (do
      Xv6Container.itrunc a
      Xv6Container.setDin a fun d => { d with type := 0 }
      Xv6Container.iupdate a
      Xv6Container.setInode a fun ip => { ip with valid := false }
      Xv6Container.setInode a fun ip => { ip with ref := ip.ref - 1 }) :=
    L.bind (L.itrunc a) fun _ => L.bind (L.setDin a _) fun _ => L.bind (L.iupdate a) fun _ =>
      L.bind (L.setInode a _) fun _ => hdrop
  exact rule_ite (rule_ite (L.bind (L.stop _ fsStop_deadlock) fun _ => hfree) hfree) hdrop

theorem iunlockput : W (iunlockput a) := L.bind (L.iunlock a) fun _ => L.iput a

/-! ### Directories and paths -/

theorem dirlookupLoop (name : CharArray) (fuel off : ℕ) :
    W (dirlookupLoop a name fuel off) := by
  induction fuel generalizing off with
  | zero => exact L.pure _
  | succ fuel ih =>
    rw [Xv6Container.dirlookupLoop]
    refine L.bind (L.inode a) fun _ => rule_ite (L.bind (L.readi a _ _ _) fun _ => ?_) (L.pure _)
    exact rule_ite (L.panic (by decide)) (rule_ite (L.bind (L.iget _ _) fun _ => L.pure _) (ih _))

theorem dirlookup {name : CharArray} (hname : N a name) : W (dirlookup a name) :=
  L.bind (L.stops a name hname) fun _ => L.bind (L.inode a) fun _ => rule_ite (L.panic (by decide))
    (L.dirlookupLoop a _ _ _)

theorem namexRound (parent : Bool) (path : CharArray) {name : CharArray} (hname : N a name) :
    W (namexRound parent a path name) := by
  refine L.bind (L.ilock a) fun _ => L.bind (L.inode a) fun _ =>
    rule_ite (L.bind (L.iunlockput a) fun _ => L.pure _) <|
      rule_ite (L.bind (L.iunlock a) fun _ => L.pure _) <| L.bind (L.dirlookup a hname) fun r => ?_
  cases r with
  | none => exact L.bind (L.iunlockput a) fun _ => L.pure _
  | some x => exact L.bind (L.iunlockput a) fun _ => L.pure _

theorem namexLoop (parent : Bool) (fuel : ℕ) {path : CharArray} (name : CharArray)
    (hN : ∀ e ∈ components path, ∀ name, Names name e → ∀ a, N a name) :
    W (namexLoop parent fuel path name a) := by
  induction fuel generalizing path name a with
  | zero => exact L.pure _
  | succ fuel ih =>
    rw [Xv6Container.namexLoop]
    obtain ⟨-, hnone⟩ | ⟨e, es, rest, name', hpath, hsome, hrest, hname, -⟩ :=
      @skipelem_spec path name
    · rw [hnone]
      exact rule_ite (L.bind (L.iput a) fun _ => L.pure _) (L.pure _)
    · rw [hpath, List.forall_mem_cons] at hN
      rw [hsome]
      refine L.bind (L.namexRound a _ _ (hN.1 _ hname a)) fun r => ?_
      cases r with
      | inl next => exact ih _ _ (hrest ▸ hN.2)
      | inr r => exact L.pure _

theorem namei {path : CharArray} (hstart : W (namexStart path))
    (hN : ∀ e ∈ components path, ∀ name, Names name e → ∀ a, N a name) : W (namei path) := by
  refine L.bind (L.bind hstart fun r => ?_) fun _ => L.pure _
  cases r with
  | some ip => exact L.namexLoop ip _ _ _ hN
  | none => exact rule_ite (L.panic (by decide)) (rule_ite (L.stop _ fsStop_fault) (L.pure _))

end FsRules

/-! ### Preorders -/

variable {R : FsState → FsState → Prop} {E : Stop → Prop} [Std.Refl R] [IsTrans FsState R]

theorem HasBlockSteps.rules (hR : HasBlockSteps R E) : BlockRules fun {_} => Within R E where
  pure := .pure
  bind := .bind
  get _ hf := .bind .get hf
  stop e he := .throw (hR.stop e he)
  setBuf b f := .modify fun s => hR.blk s b f
  logWrite b s := .get_bind <| by
    split
    · rename_i l hl
      exact .set (hR.log s b l hl)
    · rename_i e he
      unfold Log.logWrite at he
      split_ifs at he <;> cases he
      · exact .throw (hR.stop _ (fsStop_panic (by decide)))
      · exact .throw (hR.stop _ (fsStop_panic (by decide)))
  charge s := by
    refine .get_bind (.ite (fun hstarted => ?_) fun _ => .pure (refl_of R s))
    have hcharge := hR.charge s
    rw [FsState.charge, if_pos hstarted] at hcharge
    split
    · exact .throw (hR.stop _ fsStop_fault)
    · rename_i c hc
      rw [hc] at hcharge
      exact .set hcharge
  credit s := by
    refine .get_bind (.ite (fun hstarted => ?_) fun _ => .pure (refl_of R s))
    have hcredit := hR.credit s
    rw [FsState.credit, if_pos hstarted] at hcredit
    split
    · exact .throw (hR.stop _ fsStop_fault)
    · rename_i c hc
      rw [hc] at hcredit
      exact .set hcredit
  setDin a g := .modify fun s => hR.din s a g

namespace HasSteps

variable (hR : HasSteps R E)

include hR

theorem callerCont : Within R E callerCont :=
  .bind .get fun _ => .ite (fun _ => .pure _) fun _ => .throw (hR.stop _ fsStop_fault)

theorem rules : FsRules (fun _ _ => True) fun {_} => Within R E where
  toBlockRules := hR.toHasBlockSteps.rules
  setInode a g := .modify fun s => hR.inode s a g
  stops a name _ := by
    refine .bind hR.callerCont fun c => .ite (fun _ => .pure _) fun _ => ?_
    cases c with
    | none => exact .throw (hR.stop _ fsStop_fault)
    | some c => exact .bind .get fun _ => .pure _

theorem namexStart (path : CharArray) : Within R E (namexStart path) := by
  refine .bind hR.callerCont fun c => .ite (fun _ => .ite (fun _ => .bind (hR.rules.iget _ _)
    fun _ => .pure _) fun _ => ?_) fun _ => .bind .get fun s => ?_
  · cases c with
    | none => exact .throw (hR.stop _ fsStop_fault)
    | some c => exact .bind .get fun _ => .pure _
  · cases (s.kern.proc s.cur).cwd with
    | none => exact .throw (hR.stop _ fsStop_fault)
    | some ip => exact .bind (hR.rules.idup ip) fun _ => .pure _

theorem namei (path : CharArray) : Within R E (namei path) :=
  hR.rules.namei (hR.namexStart path) fun _ _ _ _ _ => trivial

end HasSteps

end FsState

/-! ### The tables -/

namespace FsState

/-- The process and container tables of `s'` are those of `s`, but for the blocks charged to
containers and for `killed` and `state` of processes; so is the caller, and no commit has begun. -/
structure SameTables (s s' : FsState) : Prop where
  cont : ∀ c, { s'.kern.containers c with diskused := (s.kern.containers c).diskused } =
    s.kern.containers c
  proc : ∀ p, { s'.kern.proc p with
    killed := (s.kern.proc p).killed, state := (s.kern.proc p).state } = s.kern.proc p
  cur : s'.cur = s.cur
  committing : s'.store.log.committing = s.store.log.committing

instance : Std.Refl SameTables := ⟨fun _ => ⟨fun _ => rfl, fun _ => rfl, rfl, rfl⟩⟩

instance : IsTrans FsState SameTables where
  trans s t u h h' := by
    refine ⟨fun c => ?_, fun p => ?_, h'.cur.trans h.cur, h'.committing.trans h.committing⟩
    · rw [← h.cont c, ← h'.cont c]
    · rw [← h.proc p, ← h'.proc p]

variable {s s' : FsState}

theorem sameTables_addDisk {k : Kernel} (hcont : k.containers = s.kern.containers)
    (hproc : ∀ p, { k.proc p with
      killed := (s.kern.proc p).killed, state := (s.kern.proc p).state } = s.kern.proc p)
    (c : Cont) (n : ℤ) : s.SameTables (s.setKern (k.addDisk c n)) := by
  refine ⟨fun d => ?_, hproc, rfl, rfl⟩
  rw [← hcont]
  by_cases hd : d = c
  · subst hd
    simp [setKern, Kernel.addDisk]
  · rw [setKern, Kernel.addDisk, Kernel.modifyCont_containers_of_ne _ hd]

theorem kill_proc (k : Kernel) (p q : Slot) (n : ℤ) :
    { (k.kill p n).2.proc q with
      killed := (k.proc q).killed, state := (k.proc q).state } = k.proc q := by
  unfold Kernel.kill
  split
  · rfl
  · rename_i t ht
    split
    · rfl
    · by_cases hq : q = t
      · subst hq
        simp [Proc.kill]
      · rw [Kernel.modifyProc_proc_of_ne _ hq]

theorem kill_containers (k : Kernel) (p : Slot) (n : ℤ) :
    (k.kill p n).2.containers = k.containers := by
  unfold Kernel.kill
  split
  · rfl
  · split
    · rfl
    · rfl

theorem hasSteps_sameTables : HasSteps SameTables fun _ => True where
  stop _ _ := trivial
  blk s b f := ⟨fun _ => rfl, fun _ => rfl, rfl, rfl⟩
  log s b l h := by
    refine ⟨fun _ => rfl, fun _ => rfl, rfl, ?_⟩
    unfold Log.logWrite Log.record at h
    split_ifs at h
    · cases h
      rfl
    · cases h
      rfl
  charge s := by
    unfold charge
    split
    · split
      · exact refl_of SameTables s
      · refine sameTables_addDisk ?_ (fun p => ?_) _ _
        · split
          · exact kill_containers s.kern s.cur _
          · rfl
        · split
          · exact kill_proc s.kern s.cur p _
          · rfl
    · exact refl_of SameTables s
  credit s := by
    unfold credit
    split
    · split
      · exact refl_of SameTables s
      · exact sameTables_addDisk rfl (fun _ => rfl) _ _
    · exact refl_of SameTables s
  inode s a g := ⟨fun _ => rfl, fun _ => rfl, rfl, rfl⟩

end FsState

end Xv6Container
