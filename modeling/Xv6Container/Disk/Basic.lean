import Xv6Container.Machine.Basic
import Xv6Container.Data.Ring
import Xv6Container.Kernel.Param

/-!
# The virtio disk

`kernel/virtio_disk.c` and the device behind it.  Any number of *agents* run the driver: processes
in `virtio_disk_rw` and interrupts in `virtio_disk_intr`.  Every step of the machine is one step of
the code of one agent, or one step of the device:

* taking `disk.vdisk_lock`, which waits while another agent has it; `sleep` gives the lock up and
  waits to take it again, and may return at any time after that, woken or not;
* in `virtio_disk_rw`, with the lock held: `alloc3_desc`, filling in the descriptors, the increment
  of `avail[1]`, the test of `b->disk` and, when it is 0, the release of the descriptors;
* in `virtio_disk_intr`, with the lock held: one test of the loop, and one run of its body;
* the device takes the next chain from the avail ring, writes the status and the used element of a
  chain that it has taken, in any order, and increments `used->id`.

A process calls `virtio_disk_rw` with the sleep-lock of the buffer held (`bread` and `bwrite` see to
that), so no buffer is in two calls at once.  What the device does with the data of a buffer, the
sector numbers and the `len` fields are left out.

The fields `owner` and `done` of the state are histories: who published a chain last, and whether
the device has completed the last request of an agent.
-/

namespace Xv6Container

open Function

/-- The number of virtio descriptors. -/
abbrev NUM : ℕ := 8

/-- What a descriptor points to. -/
inductive DescAddr (B : Type) where
  | null
  /-- The `virtio_blk_outhdr` on the stack of the caller. -/
  | outhdr
  /-- `b->data`. -/
  | data (b : B)
  /-- `&disk.info[i].status`. -/
  | status (i : ℕ)

/-- `struct VRingDesc`, with its two flags apart. -/
structure VRingDesc (B : Type) where
  addr : DescAddr B
  /-- `VRING_DESC_F_NEXT`. -/
  hasNext : Bool
  /-- `VRING_DESC_F_WRITE`. -/
  write : Bool
  next : ℕ

/-- An entry of `disk.info`. -/
structure DiskInfo (B : Type) where
  b : Option B
  status : ℕ

/-- A request: its buffer, whether it writes the disk, and its three descriptors. -/
structure DiskReq (B : Type) where
  b : B
  write : Bool
  i₀ : ℕ
  i₁ : ℕ
  i₂ : ℕ
  deriving DecidableEq

/-- The chain of a request. -/
def DiskReq.chain {B : Type} (r : DiskReq B) : List ℕ := [r.i₀, r.i₁, r.i₂]

/-- Where an agent is in the driver. -/
inductive DiskLoc (B : Type) where
  /-- Outside of the driver. -/
  | idle
  /-- Before `acquire(&disk.vdisk_lock)` of `virtio_disk_rw`, or in its first `sleep`. -/
  | acquire (b : B) (write : Bool)
  /-- Before `alloc3_desc`. -/
  | alloc (b : B) (write : Bool)
  /-- The descriptors are allocated. -/
  | format (r : DiskReq B)
  /-- Before the increment of `avail[1]`. -/
  | publish (r : DiskReq B)
  /-- Before the test of `b->disk`. -/
  | test (r : DiskReq B)
  /-- In the `sleep` on the buffer. -/
  | sleep (r : DiskReq B)
  /-- Before `acquire(&disk.vdisk_lock)` of `virtio_disk_intr`. -/
  | intrAcquire
  /-- Before the test of the loop of `virtio_disk_intr`. -/
  | intrLoop
  /-- In the body of this loop. -/
  | intrBody
  deriving DecidableEq

namespace DiskLoc

variable {B : Type}

/-- The code between taking the lock and giving it up. -/
def critical : DiskLoc B → Bool
  | idle | acquire .. | sleep _ | intrAcquire => false
  | alloc .. | format _ | publish _ | test _ | intrLoop | intrBody => true

/-- The buffer of the call. -/
def buf : DiskLoc B → Option B
  | acquire b _ | alloc b _ => some b
  | format r | publish r | test r | sleep r => some r.b
  | idle | intrAcquire | intrLoop | intrBody => none

/-- The request that has descriptors. -/
def req : DiskLoc B → Option (DiskReq B)
  | format r | publish r | test r | sleep r => some r
  | idle | acquire .. | alloc .. | intrAcquire | intrLoop | intrBody => none

/-- The request whose descriptors are filled in. -/
def formatted : DiskLoc B → Option (DiskReq B)
  | publish r | test r | sleep r => some r
  | idle | acquire .. | alloc .. | format _ | intrAcquire | intrLoop | intrBody => none

/-- The request that the device has been told of. -/
def waiting : DiskLoc B → Option (DiskReq B)
  | test r | sleep r => some r
  | idle | acquire .. | alloc .. | format _ | publish _ | intrAcquire | intrLoop | intrBody => none

end DiskLoc

/-- The driver, its agents and the device.  The indices of the arrays are below `NUM`. -/
structure VDisk (P B : Type) where
  desc : ℕ → VRingDesc B
  /-- `avail[2...]`. -/
  avail : ℕ → ℕ
  /-- `avail[1]`, a `uint16`. -/
  availIdx : ℕ
  /-- `used->elems[].id`. -/
  elems : ℕ → ℕ
  /-- `used->id`, a `uint16`. -/
  usedId : ℕ
  /-- `disk.free`. -/
  free : ℕ → Bool
  /-- `disk.used_idx`. -/
  usedIdx : ℕ
  info : ℕ → DiskInfo B
  /-- `b->disk`. -/
  disk : B → Bool
  /-- The process in a call for the buffer, which has the buffer's sleep-lock. -/
  holder : B → Option P
  /-- Who holds `disk.vdisk_lock`. -/
  lock : Option P
  loc : P → DiskLoc B
  /-- How far the device has looked in the avail ring, a `uint16`. -/
  seen : ℕ
  /-- The chains that the device has taken and not completed. -/
  pending : List ℕ
  /-- The chain whose used element is written, with `used->id` not incremented yet. -/
  writing : Option ℕ
  owner : ℕ → Option (P × B)
  done : P → Bool

namespace VDisk

variable {P B : Type} (s : VDisk P B)

/-! ### Descriptors -/

/-- `alloc_desc`. -/
def allocDesc : Option (ℕ × VDisk P B) :=
  ((List.range NUM).find? fun i => s.free i).map fun i =>
    (i, { s with free := update s.free i false })

/-- `free_desc`. -/
def freeDesc (i : ℕ) : Except Stop (VDisk P B) :=
  if NUM ≤ i then .error (.panic "virtio_disk_intr 1")
  else if s.free i then .error (.panic "virtio_disk_intr 2")
  else .ok { s with
    desc := update s.desc i { s.desc i with addr := .null }
    free := update s.free i true }

/-- `free_chain`, with at most `n` turns of its loop. -/
def freeChain : ℕ → ℕ → VDisk P B → Except Stop (VDisk P B)
  | 0, _, _ => .error .deadlock
  | n + 1, i, s => do
    let s ← s.freeDesc i
    if (s.desc i).hasNext then freeChain n (s.desc i).next s else return s

/-- The loop of `alloc3_desc`: `n` more descriptors after those in `idx`. -/
def allocDescs : ℕ → List ℕ → VDisk P B → Except Stop (Option (List ℕ) × VDisk P B)
  | 0, idx, s => .ok (some idx, s)
  | n + 1, idx, s =>
    match s.allocDesc with
    | some (i, s) => allocDescs n (idx ++ [i]) s
    | none => do
      let s ← idx.foldlM freeDesc s
      return (none, s)

/-- `alloc3_desc`. -/
def alloc3Desc : Except Stop (Option (List ℕ) × VDisk P B) := allocDescs 3 [] s

/-! ### The steps of the driver -/

/-- Fill in the descriptors of a request, and write its head to the avail ring. -/
@[simp]
def format (r : DiskReq B) [DecidableEq B] : VDisk P B :=
  { s with
    desc := update (update (update s.desc r.i₀ ⟨.outhdr, true, false, r.i₁⟩)
      r.i₁ ⟨.data r.b, true, !r.write, r.i₂⟩) r.i₂ ⟨.status r.i₀, false, true, 0⟩
    info := update s.info r.i₀ ⟨some r.b, 0⟩
    disk := update s.disk r.b true
    avail := update s.avail (s.availIdx % NUM) r.i₀ }

variable [DecidableEq P]

/-- Agent `a` goes to `x`. -/
def goto (a : P) (x : DiskLoc B) : VDisk P B := { s with loc := update s.loc a x }

/-- Take the lock, or wait. -/
def acquire (a : P) (x : DiskLoc B) : Option (VDisk P B) :=
  if s.lock = none then some ({ s with lock := some a }.goto a x) else none

/-- Give the lock up. -/
def release (a : P) (x : DiskLoc B) : VDisk P B := { s with lock := none }.goto a x

/-- `avail[1] = avail[1] + 1`. -/
def publish (a : P) (r : DiskReq B) : VDisk P B :=
  { s with
    availIdx := (s.availIdx + 1) % 2 ^ 16
    owner := update s.owner r.i₀ (some (a, r.b))
    done := update s.done a false }

variable [DecidableEq B]

/-- The end of `virtio_disk_rw`. -/
def finish (a : P) (r : DiskReq B) : Except Stop (VDisk P B) := do
  let s ← freeChain (NUM + 1) r.i₀
    { s with info := update s.info r.i₀ { s.info r.i₀ with b := none } }
  return { s with holder := update s.holder r.b none }.release a .idle

/-- The body of the loop of `virtio_disk_intr`. -/
def complete : Except Stop (VDisk P B) :=
  let id := s.elems s.usedIdx
  if (s.info id).status ≠ 0 then .error (.panic "virtio_disk_intr status")
  else
    match (s.info id).b with
    | none => .error .fault
    | some b => .ok { s with disk := update s.disk b false, usedIdx := (s.usedIdx + 1) % NUM }

/-- The next step of agent `a`; `none` when it has to wait. -/
def exec (a : P) : Except Stop (Option (VDisk P B)) :=
  match s.loc a with
  | .idle => .ok none
  | .acquire b write => .ok (s.acquire a (.alloc b write))
  | .alloc b write => do
    let (idx, s) ← s.alloc3Desc
    match idx with
    | some [i₀, i₁, i₂] => return some (s.goto a (.format ⟨b, write, i₀, i₁, i₂⟩))
    | _ => return some (s.release a (.acquire b write))
  | .format r => .ok (some ((s.format r).goto a (.publish r)))
  | .publish r => .ok (some ((s.publish a r).goto a (.test r)))
  | .test r => if s.disk r.b then .ok (some (s.release a (.sleep r))) else some <$> s.finish a r
  | .sleep r => .ok (s.acquire a (.test r))
  | .intrAcquire => .ok (s.acquire a .intrLoop)
  | .intrLoop =>
    if s.usedIdx % NUM ≠ s.usedId % NUM then .ok (some (s.goto a .intrBody))
    else .ok (some (s.release a .idle))
  | .intrBody => do
    let s ← s.complete
    return some (s.goto a .intrLoop)

/-! ### The steps of the device -/

/-- The device takes the next chain. -/
def take : Option (VDisk P B) :=
  if s.seen = s.availIdx then none
  else some { s with
    pending := s.pending ++ [s.avail (s.seen % NUM)]
    seen := (s.seen + 1) % 2 ^ 16 }

/-- The entry of `info` whose status the device writes for the chain `h`: the one that the third
descriptor points to. -/
def statusOf (h : ℕ) : Option ℕ :=
  match (s.desc (s.desc (s.desc h).next).next).addr with
  | .status i => some i
  | _ => none

/-- The device writes the status of the chain `h` and its used element. -/
def put (h : ℕ) : Option (VDisk P B) :=
  if h ∈ s.pending ∧ s.writing = none then
    (s.statusOf h).map fun i =>
      { s with
        info := update s.info i { s.info i with status := 0 }
        elems := update s.elems (s.usedId % NUM) h
        pending := s.pending.erase h
        writing := some h }
  else none

/-- The device increments `used->id`. -/
def bump : Option (VDisk P B) :=
  s.writing.map fun h =>
    { s with
      usedId := (s.usedId + 1) % 2 ^ 16
      writing := none
      done := match s.owner h with
        | some (a, _) => update s.done a true
        | none => s.done }

end VDisk

/-- A step of the driver or of the device. -/
inductive VDiskEvent (P B : Type) where
  /-- A process calls `virtio_disk_rw(b, write)`. -/
  | call (a : P) (b : B) (write : Bool)
  /-- An interrupt. -/
  | intr (a : P)
  /-- The next step of an agent. -/
  | step (a : P)
  /-- The device takes a chain. -/
  | take
  /-- The device writes status and used element of the chain. -/
  | put (h : ℕ)
  /-- The device increments `used->id`. -/
  | bump

/-- **The disk.**  A step that panics or has to wait is not possible. -/
def vdisk (P B : Type) [DecidableEq P] [DecidableEq B] : Machine (VDisk P B) (VDiskEvent P B) where
  next s
    | .call a b write =>
      match s.loc a, s.holder b with
      | .idle, none =>
        some ({ s with holder := update s.holder b (some a) }.goto a (.acquire b write))
      | _, _ => none
    | .intr a =>
      match s.loc a with
      | .idle => some (s.goto a .intrAcquire)
      | _ => none
    | .step a => (s.exec a).toOption.join
    | .take => s.take
    | .put h => s.put h
    | .bump => s.bump

/-- The disk after `virtio_disk_init`. -/
def VDisk.init (P B : Type) : VDisk P B where
  desc _ := ⟨.null, false, false, 0⟩
  avail _ := 0
  availIdx := 0
  elems _ := 0
  usedId := 0
  free i := i < NUM
  usedIdx := 0
  info _ := ⟨none, 0⟩
  disk _ := false
  holder _ := none
  lock := none
  loc _ := .idle
  seen := 0
  pending := []
  writing := none
  owner _ := none
  done _ := false

end Xv6Container
