import Xv6Container.Disk.Desc

/-!
# Where requests are

The invariant of the disk.  The descriptors that are not free are those of the requests of the
agents, three for each.  The heads of the requests that the device has been told of and whose
completion has not been seen are, each once, in the avail ring, with the device, or in the used
ring; there are at most two of them, so neither ring is ever overrun and the wrap of its counters
does no harm.

* `VDisk.Descs` : who has which descriptors;
* `VDisk.Flow` : where the heads are, and what holds of the agents that wait for them;
* `VDisk.length_out_le` : at most two requests are under way.
-/

namespace Xv6Container

namespace VDisk

variable {P B : Type} (s : VDisk P B)

/-- The heads that the device has not taken yet. -/
def availQ : List ℕ := Ring.items s.avail NUM s.seen (Ring.count (2 ^ 16) s.seen s.availIdx)

/-- The heads whose completion the driver has not seen. -/
def usedQ : List ℕ := Ring.items s.elems NUM s.usedIdx (Ring.count NUM s.usedIdx (s.usedId % NUM))

/-- The heads that the device has not completed. -/
def flow : List ℕ := s.availQ ++ s.pending ++ s.writing.toList

/-- All heads under way. -/
def out : List ℕ := s.flow ++ s.usedQ

/-- Who holds the lock and the buffers. -/
structure Agents : Prop where
  lock : ∀ a, (s.loc a).critical = true → s.lock = some a
  holder : ∀ a b, (s.loc a).buf = some b → s.holder b = some a

/-- The descriptors that are not free are those of the requests. -/
structure Descs : Prop where
  nodup : ∀ a r, (s.loc a).req = some r → r.chain.Nodup
  owned : ∀ a r, (s.loc a).req = some r → ∀ i ∈ r.chain, i < NUM ∧ s.free i = false
  apart : ∀ a a' r r', (s.loc a).req = some r → (s.loc a').req = some r' →
    ∀ i ∈ r.chain, i ∈ r'.chain → a = a'
  covered : ∀ i < NUM, s.free i = false → ∃ a r, (s.loc a).req = some r ∧ i ∈ r.chain

/-- The counters are within their types. -/
structure Counters : Prop where
  seen : s.seen < 2 ^ 16
  availIdx : s.availIdx < 2 ^ 16
  usedId : s.usedId < 2 ^ 16
  usedIdx : s.usedIdx < NUM

/-- The heads under way, and the agents that wait for them. -/
structure Flow : Prop extends s.Counters where
  filled : ∀ a r, (s.loc a).formatted = some r → s.Filled r ∧ s.info r.i₀ = ⟨some r.b, 0⟩
  publish : ∀ a r, s.loc a = .publish r →
    s.avail (s.availIdx % NUM) = r.i₀ ∧ s.disk r.b = true
  nodup : s.out.Nodup
  mem_out : ∀ h ∈ s.out, ∃ a r, (s.loc a).waiting = some r ∧ r.i₀ = h ∧ s.disk r.b = true
  waiting : ∀ a r, (s.loc a).waiting = some r → s.owner r.i₀ = some (a, r.b) ∧
    (r.i₀ ∈ s.flow ∨ s.done a = true ∧ (r.i₀ ∈ s.usedQ ∨ s.disk r.b = false))
  writing : ∀ h, s.writing = some h → s.elems (s.usedId % NUM) = h
  body : ∀ a, s.loc a = .intrBody → s.usedQ ≠ []

/-- The invariant of the disk. -/
structure Inv : Prop where
  agents : s.Agents
  descs : s.Descs
  flow : s.Flow

variable {s} {s' : VDisk P B} {a a' : P} {r r' : DiskReq B} {h : ℕ}

/-! ### Locations -/

theorem req_of_formatted {x : DiskLoc B} (hx : x.formatted = some r) : x.req = some r := by
  cases x <;> first | exact hx | cases hx

theorem formatted_of_waiting {x : DiskLoc B} (hx : x.waiting = some r) : x.formatted = some r := by
  cases x <;> first | exact hx | cases hx

theorem req_of_waiting {x : DiskLoc B} (hx : x.waiting = some r) : x.req = some r :=
  req_of_formatted (formatted_of_waiting hx)

theorem buf_of_req {x : DiskLoc B} (hx : x.req = some r) : x.buf = some r.b := by
  cases x <;> cases hx <;> rfl

theorem mem_chain_head (r : DiskReq B) : r.i₀ ∈ r.chain := by simp [DiskReq.chain]

/-! ### Facts about one state -/

theorem Agents.eq_of_buf (hA : s.Agents) {b : B} (h : (s.loc a).buf = some b)
    (h' : (s.loc a').buf = some b) : a = a' :=
  Option.some.inj ((hA.holder a b h).symm.trans (hA.holder a' b h'))

theorem Agents.eq_of_critical (hA : s.Agents) (h : (s.loc a).critical = true)
    (h' : (s.loc a').critical = true) : a = a' :=
  Option.some.inj ((hA.lock a h).symm.trans (hA.lock a' h'))

theorem Descs.eq_of_head (hD : s.Descs) (h : (s.loc a).req = some r) (h' : (s.loc a').req = some r')
    (he : r.i₀ = r'.i₀) : a = a' ∧ r = r' := by
  obtain rfl := hD.apart a a' r r' h h' r.i₀ (mem_chain_head r) (he ▸ mem_chain_head r')
  exact ⟨rfl, Option.some.inj (h.symm.trans h')⟩

theorem length_out_le (hI : s.Inv) : s.out.length ≤ 2 := by
  -- the chains of the requests under way are disjoint stretches of the descriptors
  have hchain : ∀ h ∈ s.out, ∃ l : List ℕ, l.length = 3 ∧ l.Nodup ∧ (∀ i ∈ l, i < NUM) ∧
      ∃ a r, (s.loc a).req = some r ∧ r.i₀ = h ∧ l = r.chain := fun h hh => by
    obtain ⟨a, r, hr, rfl, -⟩ := hI.flow.mem_out h hh
    have hr := req_of_waiting hr
    exact ⟨r.chain, rfl, hI.descs.nodup a r hr, fun i hi => (hI.descs.owned a r hr i hi).1, a, r,
      hr, rfl, rfl⟩
  choose! f hlen hnd hlt hreq using hchain
  have hall : (s.out.flatMap f).Nodup := by
    rw [List.nodup_flatMap]
    refine ⟨hnd, hI.flow.nodup.imp_of_mem fun {h h'} hh hh' hne => ?_⟩
    obtain ⟨a, r, hr, rfl, hfr⟩ := hreq h hh
    obtain ⟨a', r', hr', rfl, hfr'⟩ := hreq h' hh'
    simp only [Function.onFun, List.disjoint_left, hfr, hfr']
    intro i hi hi'
    obtain rfl := hI.descs.apart a a' r r' hr hr' i hi hi'
    exact hne (by rw [Option.some.inj (hr.symm.trans hr')])
  have hcount : (s.out.flatMap f).length = 3 * s.out.length := by
    rw [List.length_flatMap, List.map_congr_left hlen, List.map_const', List.sum_replicate]
    simp [mul_comm]
  have hsub : s.out.flatMap f ⊆ List.range NUM := fun i hi => by
    obtain ⟨h, hh, hi⟩ := List.mem_flatMap.1 hi
    exact List.mem_range.2 (hlt h hh i hi)
  have hle := (List.subperm_of_subset hall hsub).length_le
  rw [hcount, List.length_range] at hle
  have hnum : NUM = 8 := rfl
  omega

theorem length_availQ_le (hI : s.Inv) : Ring.count (2 ^ 16) s.seen s.availIdx ≤ 2 := by
  have hlen : s.availQ.length = Ring.count (2 ^ 16) s.seen s.availIdx := Ring.length_items ..
  have := length_out_le hI
  simp only [out, VDisk.flow, List.length_append] at this
  omega

theorem length_usedQ_le (hI : s.Inv) :
    Ring.count NUM s.usedIdx (s.usedId % NUM) + s.writing.toList.length ≤ 2 := by
  have hlen : s.usedQ.length = Ring.count NUM s.usedIdx (s.usedId % NUM) := Ring.length_items ..
  have := length_out_le hI
  simp only [out, VDisk.flow, List.length_append] at this
  omega

/-! ### The rings -/

theorem availIdx_mod (hI : s.Inv) :
    s.availIdx % NUM = (s.seen + Ring.count (2 ^ 16) s.seen s.availIdx) % NUM := by
  have hle := length_availQ_le hI
  have h := (Ring.count_eq_iff hI.flow.seen hI.flow.availIdx (by omega)).1
    (rfl : Ring.count (2 ^ 16) s.seen s.availIdx = _)
  conv_lhs => rw [h]
  exact Nat.mod_mod_of_dvd _ (by decide)

theorem usedId_mod (hI : s.Inv) :
    s.usedId % NUM = (s.usedIdx + Ring.count NUM s.usedIdx (s.usedId % NUM)) % NUM := by
  have hle := length_usedQ_le hI
  have hnum : NUM = 8 := rfl
  exact (Ring.count_eq_iff hI.flow.usedIdx (Nat.mod_lt _ (by decide)) (by omega)).1 rfl

theorem availQ_push (hI : s.Inv) (havail : s'.avail = s.avail) (hseen : s'.seen = s.seen)
    (hidx : s'.availIdx = (s.availIdx + 1) % 2 ^ 16) :
    s'.availQ = s.availQ ++ [s.avail (s.availIdx % NUM)] := by
  have hle := length_availQ_le hI
  rw [availQ, availQ, havail, hseen, hidx, availIdx_mod hI,
    Ring.count_push hI.flow.seen hI.flow.availIdx (by omega), Ring.items_succ]

theorem availQ_take (hI : s.Inv) (hne : s.seen ≠ s.availIdx) (havail : s'.avail = s.avail)
    (hidx : s'.availIdx = s.availIdx) (hseen : s'.seen = (s.seen + 1) % 2 ^ 16) :
    s.availQ = s.avail (s.seen % NUM) :: s'.availQ := by
  have hpos : 0 < Ring.count (2 ^ 16) s.seen s.availIdx := Nat.pos_of_ne_zero fun h0 =>
    hne ((Ring.count_eq_zero hI.flow.seen hI.flow.availIdx).1 h0)
  rw [availQ, availQ, havail, hidx, hseen, Ring.count_pop hI.flow.seen hI.flow.availIdx hpos,
    Ring.items_pop]
  congr 1
  exact Ring.items_congr _ _ (Nat.mod_mod_of_dvd _ (by decide)).symm

theorem usedQ_pop (hI : s.Inv) (hne : s.usedQ ≠ []) (helems : s'.elems = s.elems)
    (hid : s'.usedId = s.usedId) (hidx : s'.usedIdx = (s.usedIdx + 1) % NUM) :
    s.usedQ = s.elems s.usedIdx :: s'.usedQ := by
  have hpos : 0 < Ring.count NUM s.usedIdx (s.usedId % NUM) := Nat.pos_of_ne_zero fun h0 =>
    hne (by rw [usedQ, h0]; rfl)
  rw [usedQ, usedQ, helems, hid, hidx,
    Ring.count_pop hI.flow.usedIdx (Nat.mod_lt _ (by decide)) hpos, Ring.items_pop,
    Nat.mod_eq_of_lt hI.flow.usedIdx]
  congr 1
  exact Ring.items_congr _ _ (Nat.mod_mod _ _).symm

theorem usedQ_push (hI : s.Inv) (hw : s.writing = some h) (helems : s'.elems = s.elems)
    (hid : s'.usedId = (s.usedId + 1) % 2 ^ 16) (hidx : s'.usedIdx = s.usedIdx) :
    s'.usedQ = s.usedQ ++ [h] := by
  have hle := length_usedQ_le hI
  rw [hw] at hle
  simp only [Option.toList_some, List.length_singleton] at hle
  have hnum : NUM = 8 := rfl
  have hlt : s.usedId % NUM < NUM := Nat.mod_lt _ (by decide)
  have hmod : (s.usedId + 1) % 2 ^ 16 % NUM = (s.usedId % NUM + 1) % NUM := by
    rw [Nat.mod_mod_of_dvd _ (by decide), Nat.mod_add_mod]
  rw [usedQ, usedQ, helems, hid, hidx, hmod, Ring.count_push hI.flow.usedIdx hlt (by omega),
    Ring.items_succ, ← usedId_mod hI, hI.flow.writing h hw]

end VDisk

end Xv6Container
