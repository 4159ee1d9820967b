import Xv6Container.Disk.Steps

/-!
# The virtio request protocol

The invariant holds in every run of the driver and the device, from `virtio_disk_init` on; this
module reads off what it says about requests.

* `virtio_protocol` : the protocol.
-/

namespace Xv6Container

open Function

namespace VDisk

variable {P B : Type} {s : VDisk P B} {a a' : P} {r r' : DiskReq B}

/-- The agents with a request whose descriptors have not been released. -/
def requests (s : VDisk P B) : Set P := { a | (s.loc a).req.isSome }

/-- The descriptors that are not free. -/
def inUse (s : VDisk P B) : Finset ℕ := (Finset.range NUM).filter fun i => s.free i = false

theorem inv_init : (VDisk.init P B).Inv where
  agents := ⟨fun _ => nofun, fun _ _ => nofun⟩
  descs :=
    { nodup := fun _ _ => nofun
      owned := fun _ _ => nofun
      apart := fun _ _ _ _ => nofun
      covered := fun i hi hf => by
        simp only [init, decide_eq_false_iff_not] at hf
        exact absurd hi hf }
  flow :=
    { seen := Nat.two_pow_pos 16
      availIdx := Nat.two_pow_pos 16
      usedId := Nat.two_pow_pos 16
      usedIdx := Nat.succ_pos 7
      filled := fun _ _ => nofun
      publish := fun _ _ => nofun
      nodup := by simp [out, flow, availQ, usedQ, init, Ring.count, Ring.items]
      mem_out := by simp [out, flow, availQ, usedQ, init, Ring.count, Ring.items]
      waiting := fun _ _ => nofun
      writing := fun _ => nofun
      body := fun _ => nofun }

theorem inv_of_run [DecidableEq P] [DecidableEq B] {ls : List (VDiskEvent P B)}
    (h : (vdisk P B).Run (fun _ _ => True) (VDisk.init P B) ls s) : s.Inv :=
  h.invariant inv_init fun _ _ _ hI _ hst => hI.next hst

/-- The descriptors of an agent. -/
def chainOf (s : VDisk P B) (a : P) : Finset ℕ :=
  match (s.loc a).req with
  | some r => r.chain.toFinset
  | none => ∅

theorem mem_chainOf {i : ℕ} : i ∈ s.chainOf a ↔ ∃ r, (s.loc a).req = some r ∧ i ∈ r.chain := by
  unfold chainOf
  split <;> simp_all

theorem Descs.card_chainOf (hD : s.Descs) (ha : a ∈ s.requests) : (s.chainOf a).card = 3 := by
  obtain ⟨r, hr⟩ := Option.isSome_iff_exists.1 ha
  rw [chainOf, hr]
  exact List.toFinset_card_of_nodup (hD.nodup a r hr)

theorem Descs.disjoint_chainOf (hD : s.Descs) (hne : a ≠ a') :
    Disjoint (s.chainOf a) (s.chainOf a') := by
  refine Finset.disjoint_left.2 fun i hi hi' => hne ?_
  obtain ⟨r, hr, hi⟩ := mem_chainOf.1 hi
  obtain ⟨r', hr', hi'⟩ := mem_chainOf.1 hi'
  exact hD.apart a a' r r' hr hr' i hi hi'

theorem Descs.finite_requests (hD : s.Descs) : s.requests.Finite := by
  have hhead : ∀ a ∈ s.requests, ∃ i ∈ s.chainOf a, i < NUM := fun a ha => by
    obtain ⟨r, hr⟩ := Option.isSome_iff_exists.1 ha
    have hmem := mem_chain_head r
    exact ⟨r.i₀, mem_chainOf.2 ⟨r, hr, hmem⟩, (hD.owned a r hr _ hmem).1⟩
  choose! f hf hlt using hhead
  refine Set.Finite.of_injOn (f := f) (t := Set.Iio NUM) (fun a ha => hlt a ha)
    (fun a ha a' ha' he => ?_) (Set.finite_Iio NUM)
  by_contra hne
  exact Finset.disjoint_left.1 (hD.disjoint_chainOf hne) (hf a ha) (he ▸ hf a' ha')

theorem Descs.card_inUse (hD : s.Descs) : s.inUse.card = 3 * s.requests.ncard := by
  classical
  set F := hD.finite_requests.toFinset with hF
  have hmem : ∀ a, a ∈ F ↔ a ∈ s.requests := fun a => by simp [hF]
  have hunion : s.inUse = F.biUnion s.chainOf := by
    ext i
    simp only [inUse, Finset.mem_filter, Finset.mem_range, Finset.mem_biUnion, hmem, mem_chainOf]
    constructor
    · rintro ⟨hi, hf⟩
      obtain ⟨a, r, hr, hir⟩ := hD.covered i hi hf
      exact ⟨a, by simp [requests, hr], r, hr, hir⟩
    · rintro ⟨a, -, r, hr, hir⟩
      exact hD.owned a r hr i hir
  rw [hunion, Finset.card_biUnion fun a _ a' _ hne => hD.disjoint_chainOf hne,
    Finset.sum_congr rfl fun a ha => hD.card_chainOf ((hmem a).1 ha), Finset.sum_const,
    smul_eq_mul, mul_comm, Set.ncard_eq_toFinset_card _ hD.finite_requests]

end VDisk

/-- **The virtio request protocol.**  For any processes and buffers, in every state that any
interleaving of calls, interrupts, steps of the driver and steps of the device leads to: the
descriptor chains of the requests are disjoint, and three descriptors are in use for each request;
no agent's next step stops the kernel; the body of `virtio_disk_intr` clears the flag of the buffer
that was submitted with the head it finds, which was set, and of no other; and a call returns only
after the device has completed its request. -/
theorem virtio_protocol {P B : Type} [DecidableEq P] [DecidableEq B] {ls : List (VDiskEvent P B)}
    {s : VDisk P B} (h : (vdisk P B).Run (fun _ _ => True) (VDisk.init P B) ls s) :
    (∀ a a' r r', (s.loc a).req = some r → (s.loc a').req = some r' → a ≠ a' →
      r.chain.Disjoint r'.chain) ∧
    s.inUse.card = 3 * s.requests.ncard ∧
    (∀ a e, s.exec a ≠ .error e) ∧
    (∀ a s', s.loc a = .intrBody → s.exec a = .ok (some s') →
      ∃ a' b, s.owner (s.elems s.usedIdx) = some (a', b) ∧ s.disk b = true ∧
        s'.disk = update s.disk b false) ∧
    ∀ a r s', s.loc a = .test r → s.exec a = .ok (some s') → s'.loc a = .idle →
      s.done a = true := by
  have hI := VDisk.inv_of_run h
  refine ⟨fun a a' r r' hr hr' hne => ?_, hI.descs.card_inUse, fun a e he => ?_,
    fun a s' hx he => ?_, fun a r s' hx he hs' => ?_⟩
  · rw [List.disjoint_left]
    exact fun i hi hi' => hne (hI.descs.apart a a' r r' hr hr' i hi hi')
  · obtain ⟨o, ho, -⟩ := hI.exec a
    rw [ho] at he
    cases he
  · obtain ⟨a', r, -, -, hdisk, hinfo, howner⟩ := hI.used_head hx
    refine ⟨a', r.b, howner, hdisk, ?_⟩
    simp only [VDisk.exec, hx, VDisk.complete_eq hinfo] at he
    cases he
    rfl
  · cases hd : s.disk r.b with
    | true =>
      simp only [VDisk.exec, hx, hd, if_true] at he
      cases he
      simp [VDisk.release, VDisk.goto] at hs'
    | false => exact (hI.flow.done_of_clear hI.descs (by rw [hx]; rfl) hd).2

/-- A process writes a block; the device completes the request, and an interrupt sees it. -/
def oneRequest : List (VDiskEvent (Fin 2) (Fin 1)) :=
  [.call 0 0 true, .step 0, .step 0, .step 0, .step 0, .step 0, .take, .put 0, .bump, .intr 1,
    .step 1, .step 1, .step 1, .step 1, .step 0]

/-- The process is about to return, and the device has completed its request. -/
theorem virtio_protocol_one : ∃ s s', (vdisk (Fin 2) (Fin 1)).Run (fun _ _ => True)
    (VDisk.init (Fin 2) (Fin 1)) oneRequest s ∧ s.loc 0 = .test ⟨0, true, 0, 1, 2⟩ ∧
    s.exec 0 = .ok (some s') ∧ s'.loc 0 = .idle ∧ s.done 0 = true := by
  have heval : (((vdisk (Fin 2) (Fin 1)).run (VDisk.init _ _) oneRequest).bind fun s =>
      (s.exec 0).toOption.join.map fun s' => (s.loc 0, s'.loc 0)) =
        some (.test ⟨0, true, 0, 1, 2⟩, .idle) := by
    decide +kernel
  obtain ⟨s, hs, h⟩ := Option.bind_eq_some_iff.1 heval
  obtain ⟨s', hs', hloc⟩ := Option.map_eq_some_iff.1 h
  simp only [Prod.mk.injEq] at hloc
  have hrun := Machine.run_eq_some_iff.1 hs
  have hexec : s.exec 0 = .ok (some s') := toOption_eq_some.1 (Option.join_eq_some_iff.1 hs')
  exact ⟨s, s', hrun, hloc.1, hexec, hloc.2,
    (virtio_protocol hrun).2.2.2.2 0 _ s' hloc.1 hexec hloc.2⟩

end Xv6Container
