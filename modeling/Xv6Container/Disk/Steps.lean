import Xv6Container.Disk.Flow

/-!
# The steps of the disk keep the invariant

One lemma for each step of the driver and of the device.

* `VDisk.Inv.exec` : no step of an agent stops the kernel, and all keep the invariant;
* `VDisk.Inv.next` : so does every step of the machine.
-/

namespace Xv6Container

open Function

namespace VDisk

variable {P B : Type} {s s' : VDisk P B} {a a' : P} {r r' : DiskReq B} {h : ℕ}
  {x y : DiskLoc B}

attribute [local grind] DiskLoc.critical DiskLoc.buf DiskLoc.req DiskLoc.formatted DiskLoc.waiting
attribute [local grind →] req_of_formatted req_of_waiting formatted_of_waiting buf_of_req

/-! ### Steps that move no agent -/

theorem Flow.setDesc (hF : s.Flow) {desc' : ℕ → VRingDesc B} (free' : ℕ → Bool)
    (hd : ∀ a r, (s.loc a).formatted = some r → ∀ i ∈ r.chain, desc' i = s.desc i) :
    Flow { s with desc := desc', free := free' } where
  toCounters := ⟨hF.seen, hF.availIdx, hF.usedId, hF.usedIdx⟩
  filled a r hr := (hF.filled a r hr).imp_left (·.congr (hd a r hr))
  publish := hF.publish
  nodup := hF.nodup
  mem_out := hF.mem_out
  waiting := hF.waiting
  writing := hF.writing
  body := hF.body

theorem Flow.done_of_clear (hF : s.Flow) (hD : s.Descs) (hwait : (s.loc a).waiting = some r)
    (hclear : s.disk r.b = false) : r.i₀ ∉ s.out ∧ s.done a = true := by
  have hnot : r.i₀ ∉ s.out := fun hin => by
    obtain ⟨a', r', hr', hi, hdisk⟩ := hF.mem_out _ hin
    obtain ⟨rfl, rfl⟩ := hD.eq_of_head (req_of_waiting hr') (req_of_waiting hwait) hi
    rw [hclear] at hdisk
    cases hdisk
  refine ⟨hnot, ?_⟩
  obtain hin | ⟨hdone, -⟩ := (hF.waiting a r hwait).2
  · exact absurd (List.mem_append_left _ hin) hnot
  · exact hdone

theorem Inv.used_head (hI : s.Inv) (hx : s.loc a = .intrBody) :
    ∃ a' r, (s.loc a').waiting = some r ∧ r.i₀ = s.elems s.usedIdx ∧ s.disk r.b = true ∧
      s.info (s.elems s.usedIdx) = ⟨some r.b, 0⟩ ∧
      s.owner (s.elems s.usedIdx) = some (a', r.b) := by
  have hne := hI.flow.body a hx
  have hmem : s.elems s.usedIdx ∈ s.out := by
    have hpop : s.usedQ = _ :: (VDisk.usedQ { s with usedIdx := (s.usedIdx + 1) % NUM }) :=
      usedQ_pop hI hne rfl rfl rfl
    rw [VDisk.out, hpop]
    simp
  obtain ⟨a', r, hr, hi, hdisk⟩ := hI.flow.mem_out _ hmem
  exact ⟨a', r, hr, hi, hdisk, hi ▸ (hI.flow.filled a' r (formatted_of_waiting hr)).2,
    hi ▸ (hI.flow.waiting a' r hr).1⟩

theorem Inv.permute (hI : s.Inv) {pending' : List ℕ} {seen' : ℕ} {writing' : Option ℕ}
    {elems' : ℕ → ℕ} (hs : s' = { s with
      pending := pending', seen := seen', writing := writing', elems := elems' })
    (hseen : seen' < 2 ^ 16) (hperm : s'.flow.Perm s.flow) (hused : s'.usedQ = s.usedQ)
    (hw : ∀ h, writing' = some h → elems' (s.usedId % NUM) = h) : s'.Inv := by
  have hout : s'.out.Perm s.out := by
    rw [VDisk.out, VDisk.out, hused]
    exact hperm.append_right _
  refine ⟨?_, ?_, ?_, ?_, ?_, ?_, ?_, ?_, ?_, ?_⟩
  · subst hs
    exact ⟨hI.agents.lock, hI.agents.holder⟩
  · subst hs
    exact ⟨hI.descs.nodup, hI.descs.owned, hI.descs.apart, hI.descs.covered⟩
  · subst hs
    exact ⟨hseen, hI.flow.availIdx, hI.flow.usedId, hI.flow.usedIdx⟩
  · subst hs
    exact fun a r hr => (hI.flow.filled a r hr).imp_left (·.congr fun _ _ => rfl)
  · subst hs
    exact hI.flow.publish
  · exact hout.nodup_iff.2 hI.flow.nodup
  · intro h hh
    obtain ⟨a, r, hr⟩ := hI.flow.mem_out h (hout.mem_iff.1 hh)
    subst hs
    exact ⟨a, r, hr⟩
  · intro a r hr
    rw [hperm.mem_iff, hused]
    subst hs
    exact hI.flow.waiting a r hr
  · subst hs
    exact hw
  · rw [hused]
    subst hs
    exact hI.flow.body

theorem Inv.take (hI : s.Inv) (h : s.take = some s') : s'.Inv := by
  unfold VDisk.take at h
  split at h
  · cases h
  · rename_i hne
    have hpop : s.availQ = s.avail (s.seen % NUM) :: s'.availQ := by
      cases h
      exact availQ_take hI hne rfl rfl rfl
    cases h
    refine hI.permute rfl (Nat.mod_lt _ (by decide)) ?_ rfl hI.flow.writing
    rw [VDisk.flow, VDisk.flow, hpop]
    simp only [List.append_assoc, List.cons_append, List.nil_append]
    exact (List.perm_middle.append_left _).trans List.perm_middle

theorem Inv.statusOf (hI : s.Inv) (hh : h ∈ s.out) :
    s.statusOf h = some h ∧ (s.info h).status = 0 := by
  obtain ⟨a, r, hr, rfl, -⟩ := hI.flow.mem_out h hh
  obtain ⟨hfill, hinfo⟩ := hI.flow.filled a r (formatted_of_waiting hr)
  rw [VDisk.statusOf, hfill.next₀.2, hfill.next₁.2, hfill.last.2, hinfo]
  exact ⟨rfl, rfl⟩

theorem Inv.put (hI : s.Inv) (hput : s.put h = some s') : s'.Inv := by
  unfold VDisk.put at hput
  split at hput
  · rename_i hh
    obtain ⟨hmem, hw⟩ := hh
    have hin : h ∈ s.out := by simp [VDisk.out, VDisk.flow, hmem]
    obtain ⟨hst, hzero⟩ := hI.statusOf hin
    rw [hst] at hput
    cases hput
    have hinfo : update s.info h { s.info h with status := 0 } = s.info := by
      rw [← hzero, update_eq_self]
    have hroom : Ring.count NUM s.usedIdx (s.usedId % NUM) < NUM :=
      (by have := length_usedQ_le hI; omega : _ ≤ 2).trans_lt (by decide)
    refine hI.permute (by dsimp only; rw [hinfo]) hI.flow.seen ?_
      (Ring.items_update _ _ hroom (usedId_mod hI)) fun h' hh' => ?_
    · show (s.availQ ++ s.pending.erase h ++ [h]).Perm s.flow
      rw [VDisk.flow, hw, Option.toList_none, List.append_nil, List.append_assoc]
      exact List.Perm.append_left _ ((List.perm_append_singleton _ _).trans
        (List.perm_cons_erase hmem).symm)
    · cases hh'
      exact update_self ..
  · cases hput

section

variable [DecidableEq B]

theorem filled_format (hnd : r.chain.Nodup) : (s.format r).Filled r := by
  simp only [DiskReq.chain, List.nodup_cons, List.mem_cons, List.not_mem_nil, or_false,
    not_or] at hnd
  obtain ⟨⟨h01, h02⟩, h12, -⟩ := hnd
  refine ⟨?_, ?_, ?_⟩ <;> simp [h01, h02, h12]

theorem format_desc_of_notMem {i : ℕ} (hi : i ∉ r.chain) : (s.format r).desc i = s.desc i := by
  simp only [DiskReq.chain, List.mem_cons, List.not_mem_nil, or_false, not_or] at hi
  simp [hi]

theorem complete_eq {b : B} (hinfo : s.info (s.elems s.usedIdx) = ⟨some b, 0⟩) : s.complete =
    .ok { s with disk := update s.disk b false, usedIdx := (s.usedIdx + 1) % NUM } := by
  simp [complete, hinfo]

end

/-! ### Moves of an agent -/

variable [DecidableEq P]

/-- Agent `a` goes to `y`; the lock and the buffers are held as `L` and `H` say. -/
@[simp]
def moved (s : VDisk P B) (a : P) (y : DiskLoc B) (L : Option P) (H : B → Option P) : VDisk P B :=
  { s with loc := update s.loc a y, lock := L, holder := H }

variable {L : Option P} {H : B → Option P}

@[grind =] theorem moved_loc (a' : P) :
    (s.moved a y L H).loc a' = if a' = a then y else s.loc a' := update_apply ..

theorem Agents.acquire (hA : s.Agents) (hlock : s.lock = none) (hbuf : y.buf = (s.loc a).buf) :
    (s.moved a y (some a) s.holder).Agents := by
  obtain ⟨h1, h2⟩ := hA
  refine ⟨fun a' => ?_, fun a' b => ?_⟩ <;> rw [moved_loc] <;> dsimp only [moved] <;> grind

theorem Agents.goto (hA : s.Agents) (hc : y.critical = true → (s.loc a).critical = true)
    (hbuf : y.buf = (s.loc a).buf) : (s.moved a y s.lock s.holder).Agents := by
  obtain ⟨h1, h2⟩ := hA
  refine ⟨fun a' => ?_, fun a' b => ?_⟩ <;> rw [moved_loc] <;> dsimp only [moved] <;> grind

theorem Agents.release (hA : s.Agents) (hc : (s.loc a).critical = true) (hy : y.critical = false)
    (hbuf : ∀ b, y.buf = some b → H b = some a)
    (hH : ∀ a', a' ≠ a → ∀ b, (s.loc a').buf = some b → H b = s.holder b) :
    (s.moved a y none H).Agents := by
  obtain ⟨h1, h2⟩ := hA
  refine ⟨fun a' => ?_, fun a' b => ?_⟩ <;> rw [moved_loc] <;> dsimp only [moved] <;> grind

theorem Descs.move (hD : s.Descs)
    (hreq : y.req = (s.loc a).req) : (s.moved a y L H).Descs := by
  have hsame : ∀ a', ((s.moved a y L H).loc a').req = (s.loc a').req := by grind
  obtain ⟨h1, h2, h3, h4⟩ := hD
  constructor <;> simp only [hsame] <;> assumption

theorem Flow.move (hF : s.Flow)
    (hfmt : y.formatted = (s.loc a).formatted) (hwait : y.waiting = (s.loc a).waiting)
    (hpub : ∀ r, y ≠ .publish r) (hbody : y = .intrBody → s.usedQ ≠ []) :
    (s.moved a y L H).Flow := by
  have hf : ∀ a', ((s.moved a y L H).loc a').formatted = (s.loc a').formatted := by grind
  have hw : ∀ a', ((s.moved a y L H).loc a').waiting = (s.loc a').waiting := by grind
  obtain ⟨h0, h1, h2, h3, h4, h5, h6, h7⟩ := hF
  refine ⟨⟨h0.seen, h0.availIdx, h0.usedId, h0.usedIdx⟩, fun a' r hr => ?_,
    fun a' r hr => h2 a' r (by grind), h3, by simp only [hw]; exact h4,
    by simp only [hw]; exact h5, h6, fun a' hr => ?_⟩
  · exact (h1 a' r (hf a' ▸ hr)).imp_left (·.congr fun _ _ => rfl)
  · by_cases he : a' = a
    · exact hbody (by grind)
    · exact h7 a' (by grind)

theorem Inv.move (hI : s.Inv) (hx : s.loc a = x)
    (hA : (s.moved a y L H).Agents) (hreq : y.req = x.req) (hfmt : y.formatted = x.formatted)
    (hwait : y.waiting = x.waiting) (hpub : ∀ r, y ≠ .publish r)
    (hbody : y = .intrBody → s.usedQ ≠ []) : (s.moved a y L H).Inv := by
  subst hx
  exact ⟨hA, hI.descs.move hreq, hI.flow.move hfmt hwait hpub hbody⟩

theorem Inv.acquire (hI : s.Inv) (hx : s.loc a = x) (h : s.acquire a y = some s')
    (hbuf : y.buf = x.buf) (hreq : y.req = x.req) (hfmt : y.formatted = x.formatted)
    (hwait : y.waiting = x.waiting) (hpub : ∀ r, y ≠ .publish r) (hbody : y ≠ .intrBody) :
    s'.Inv := by
  simp only [VDisk.acquire, Option.ite_none_right_eq_some, Option.some.injEq] at h
  obtain ⟨hlock, rfl⟩ := h
  exact hI.move hx (hI.agents.acquire hlock (hx ▸ hbuf)) hreq hfmt hwait hpub
    fun e => absurd e hbody

/-! ### Allocating the descriptors -/

theorem Descs.alloc (hD : s.Descs) (hx : (s.loc a).req = none)
    (hnd : r.chain.Nodup) (hr : ∀ i ∈ r.chain, i < NUM ∧ s.free i = true) :
    ((s.without r.chain).moved a (.format r) L H).Descs := by
  have hloc : ∀ a', (((s.without r.chain).moved a (.format r) L H).loc a').req =
      if a' = a then some r else (s.loc a').req := fun a' => by
    rw [moved_loc]
    split <;> rfl
  have hfree : ∀ i, ((s.without r.chain).moved a (.format r) L H).free i =
      (s.free i && decide (i ∉ r.chain)) := fun i => by simp [without]
  obtain ⟨h1, h2, h3, h4⟩ := hD
  constructor <;> simp only [hloc, hfree] <;> grind

theorem Inv.alloc (hI : s.Inv) [DecidableEq B] {b : B} {w : Bool} (hx : s.loc a = .alloc b w) :
    ∃ s', s.exec a = .ok (some s') ∧ s'.Inv := by
  have hc : (s.loc a).critical = true := by rw [hx]; rfl
  obtain ⟨i₀, i₁, i₂, h, hnd, hfree⟩ | ⟨desc', h, hd⟩ := s.alloc3Desc_spec
  · refine ⟨(s.without [i₀, i₁, i₂]).moved a (.format ⟨b, w, i₀, i₁, i₂⟩) s.lock s.holder, ?_, ?_⟩
    · simp only [VDisk.exec, hx, h]
      rfl
    · refine ⟨?_, hI.descs.alloc (r := ⟨b, w, i₀, i₁, i₂⟩) (by rw [hx]; rfl) hnd hfree, ?_⟩
      · have hA := hI.agents.goto (y := .format ⟨b, w, i₀, i₁, i₂⟩) (fun _ => hc) (by rw [hx]; rfl)
        exact ⟨hA.lock, hA.holder⟩
      · exact (hI.flow.setDesc _ fun _ _ _ _ _ => rfl).move
          (by show _ = (s.loc a).formatted; rw [hx]; rfl)
          (by show _ = (s.loc a).waiting; rw [hx]; rfl) (fun _ => nofun) nofun
  · refine ⟨{ s with desc := desc' }.moved a (.acquire b w) none s.holder, ?_, ?_⟩
    · simp only [VDisk.exec, hx, h]
      rfl
    · have hA := hI.agents.release (y := .acquire b w) (H := s.holder) hc rfl
        (fun b' hb' => hI.agents.holder a b' (by rw [hx]; exact hb')) fun _ _ _ _ => rfl
      have hD := hI.descs.move (y := .acquire b w) (L := none) (H := s.holder)
        (show _ = (s.loc a).req by rw [hx]; rfl)
      refine ⟨⟨hA.lock, hA.holder⟩, ⟨hD.nodup, hD.owned, hD.apart, hD.covered⟩, ?_⟩
      refine (hI.flow.setDesc s.free fun a' r hr i hi => ?_).move
        (by show _ = (s.loc a).formatted; rw [hx]; rfl)
        (by show _ = (s.loc a).waiting; rw [hx]; rfl) (fun _ => nofun) nofun
      exact hd i (hI.descs.owned a' r (req_of_formatted hr) i hi).2

theorem Inv.bump (hI : s.Inv) (hb : s.bump = some s') : s'.Inv := by
  obtain ⟨h, hw, rfl⟩ := Option.map_eq_some_iff.1 hb
  have hin : h ∈ s.out := by simp [VDisk.out, VDisk.flow, hw]
  obtain ⟨a, r, hr, hi, hdisk⟩ := hI.flow.mem_out h hin
  have how : s.owner h = some (a, r.b) := hi ▸ (hI.flow.waiting a r hr).1
  rw [how]
  set s' : VDisk P B := { s with
    usedId := (s.usedId + 1) % 2 ^ 16, writing := none, done := update s.done a true } with hs'
  have hused : s'.usedQ = s.usedQ ++ [h] := usedQ_push hI hw rfl rfl rfl
  have hflow : s.flow = s'.flow ++ [h] := by
    rw [VDisk.flow, hw]
    simp [VDisk.flow, VDisk.availQ, hs']
  have hout : s'.out.Perm s.out := by
    rw [VDisk.out, VDisk.out, hused, hflow, List.append_assoc]
    exact List.Perm.append_left _ List.perm_append_comm
  refine ⟨⟨hI.agents.lock, hI.agents.holder⟩,
    ⟨hI.descs.nodup, hI.descs.owned, hI.descs.apart, hI.descs.covered⟩,
    ⟨hI.flow.seen, hI.flow.availIdx, Nat.mod_lt _ (by decide), hI.flow.usedIdx⟩, ?_,
    hI.flow.publish, hout.nodup_iff.2 hI.flow.nodup, ?_, ?_, by simp [hs'], ?_⟩
  · exact fun a r hr => (hI.flow.filled a r hr).imp_left (·.congr fun _ _ => rfl)
  · exact fun h' hh' => hI.flow.mem_out h' (hout.mem_iff.1 hh')
  · intro a' r' hr'
    obtain ⟨how', hst⟩ := hI.flow.waiting a' r' hr'
    refine ⟨how', ?_⟩
    have hdone : s.done a' = true → s'.done a' = true := fun hd => by
      by_cases e : a' = a
      · simp [hs', e]
      · simp [hs', e, hd]
    obtain hin' | ⟨hd, hst⟩ := hst
    · rw [hflow, List.mem_append, List.mem_singleton] at hin'
      obtain hin' | he := hin'
      · exact .inl hin'
      · -- the chain that is completed now
        obtain rfl := (hI.descs.eq_of_head (req_of_waiting hr') (req_of_waiting hr)
          (he.trans hi.symm)).1
        exact .inr ⟨by simp [hs'], .inl (by rw [hused, he]; simp)⟩
    · exact .inr ⟨hdone hd, hst.imp_left fun h => by rw [hused]; exact List.mem_append_left _ h⟩
  · intro a' hx hnil
    rw [hused] at hnil
    simp at hnil

/-! ### Submitting the request -/

theorem Inv.publish (hI : s.Inv) (hx : s.loc a = .publish r) :
    ((s.publish a r).moved a (.test r) s.lock s.holder).Inv := by
  have hreq : (s.loc a).req = some r := by rw [hx]; rfl
  have hfmt : (s.loc a).formatted = some r := by rw [hx]; rfl
  have hc : (s.loc a).critical = true := by rw [hx]; rfl
  obtain ⟨hcell, hdisk⟩ := hI.flow.publish a r hx
  have havail : (s.publish a r).availQ = _ := availQ_push hI rfl rfl rfl
  have hflow : (s.publish a r).flow = s.availQ ++ [r.i₀] ++ s.pending ++ s.writing.toList := by
    rw [VDisk.flow, havail, hcell]
    rfl
  have hperm : (s.publish a r).out.Perm (r.i₀ :: s.out) := by
    rw [VDisk.out, hflow, VDisk.out, VDisk.flow]
    simp only [List.append_assoc]
    exact List.perm_middle
  -- no other request has this head, and this one was not under way
  have hhead : ∀ a' r', (s.loc a').req = some r' → r'.i₀ = r.i₀ → a' = a := fun a' r' hr' he =>
    (hI.descs.eq_of_head hr' hreq he).1
  have hnotin : r.i₀ ∉ s.out := fun hin => by
    obtain ⟨a', r', hr', hi, -⟩ := hI.flow.mem_out _ hin
    obtain rfl := hhead a' r' (req_of_waiting hr') hi
    rw [hx] at hr'
    cases hr'
  have hA := hI.agents.goto (y := .test r) (fun _ => hc) (by rw [hx]; rfl)
  have hD := hI.descs.move (y := .test r) (L := s.lock) (H := s.holder) hreq.symm
  refine ⟨⟨hA.lock, hA.holder⟩, ⟨hD.nodup, hD.owned, hD.apart, hD.covered⟩, ?_⟩
  have hcrit : ∀ a', (s.loc a').critical = true → (s.loc a).critical = true → a' = a :=
    fun _ => hI.agents.eq_of_critical
  have hloc : ∀ a', ((s.publish a r).moved a (.test r) s.lock s.holder).loc a' =
      if a' = a then .test r else s.loc a' := moved_loc
  refine ⟨⟨hI.flow.seen, Nat.mod_lt _ (by decide), hI.flow.usedId, hI.flow.usedIdx⟩,
    fun a' r' hr' => ?_, fun a' r' hr' => ?_, ?_, fun h hh => ?_, fun a' r' hr' => ?_,
    hI.flow.writing, fun a' hb => hI.flow.body a' ?_⟩
  · exact (hI.flow.filled a' r' (by grind)).imp_left (·.congr fun _ _ => rfl)
  · grind
  · show (s.publish a r).out.Nodup
    rw [hperm.nodup_iff, List.nodup_cons]
    exact ⟨hnotin, hI.flow.nodup⟩
  · obtain rfl | hh := List.mem_cons.1 (hperm.mem_iff.1 hh)
    · exact ⟨a, r, by rw [moved_loc, if_pos rfl]; rfl, rfl, hdisk⟩
    · obtain ⟨a', r', hr', hrest⟩ := hI.flow.mem_out h hh
      exact ⟨a', r', by grind, hrest⟩
  · have hsub : ∀ i, i = r.i₀ ∨ i ∈ s.flow → i ∈ (s.publish a r).flow := fun i hi => by
      rw [hflow]
      simp only [VDisk.flow, List.mem_append, List.mem_singleton] at hi ⊢
      tauto
    by_cases he : a' = a
    · obtain rfl : r = r' := by grind
      exact ⟨by simp [he, VDisk.publish], .inl (hsub _ (.inl rfl))⟩
    · rw [hloc, if_neg he] at hr'
      obtain ⟨how, hst⟩ := hI.flow.waiting a' r' hr'
      have hne0 : r'.i₀ ≠ r.i₀ := fun e => he (hhead a' r' (req_of_waiting hr') e)
      refine ⟨by simpa [VDisk.publish, hne0] using how,
        hst.imp (fun h => hsub _ (.inr h)) fun h => ?_⟩
      have hdone : ((s.publish a r).moved a (.test r) s.lock s.holder).done a' = s.done a' :=
        update_of_ne he _ _
      rwa [hdone]
  · grind

theorem Descs.finish (hD : s.Descs) {info' : ℕ → DiskInfo B}
    (hreq : (s.loc a).req = some r) (hy : y.req = none) :
    ((VDisk.freed { s with info := info' } r.chain).moved a y L H).Descs := by
  have hloc : ∀ a', (((VDisk.freed { s with info := info' } r.chain).moved a y L H).loc a').req =
      if a' = a then none else (s.loc a').req := fun a' => by
    rw [moved_loc]
    split
    · exact hy
    · rfl
  have hfree : ∀ i, ((VDisk.freed { s with info := info' } r.chain).moved a y L H).free i =
      (s.free i || decide (i ∈ r.chain)) := fun i => rfl
  obtain ⟨h1, h2, h3, h4⟩ := hD
  constructor <;> simp only [hloc, hfree] <;> grind

variable [DecidableEq B]

theorem Inv.format (hI : s.Inv) (hx : s.loc a = .format r) :
    ((s.format r).moved a (.publish r) s.lock s.holder).Inv := by
  have hreq : (s.loc a).req = some r := by rw [hx]; rfl
  have hc : (s.loc a).critical = true := by rw [hx]; rfl
  -- the other requests have other descriptors and another buffer
  have hother : ∀ a' r', a' ≠ a → (s.loc a').req = some r' →
      (∀ i ∈ r'.chain, i ∉ r.chain) ∧ r'.b ≠ r.b := by
    intro a' r' hne hr'
    refine ⟨fun i hi hi' => hne (hI.descs.apart a' a r' r hr' hreq i hi hi'), fun hb => hne ?_⟩
    exact hI.agents.eq_of_buf (buf_of_req hr') (hb ▸ buf_of_req hreq)
  have hroom : Ring.count (2 ^ 16) s.seen s.availIdx < NUM :=
    (length_availQ_le hI).trans_lt (by decide)
  have havail : (s.format r).availQ = s.availQ := Ring.items_update _ _ hroom (availIdx_mod hI)
  have hflow : (s.format r).flow = s.flow := by
    rw [VDisk.flow, havail]
    rfl
  have hout : (s.format r).out = s.out := by
    rw [VDisk.out, hflow]
    rfl
  have hA := hI.agents.goto (y := .publish r) (fun _ => hc) (by rw [hx]; rfl)
  have hD := hI.descs.move (y := .publish r) (L := s.lock) (H := s.holder) hreq.symm
  refine ⟨⟨hA.lock, hA.holder⟩, ⟨hD.nodup, hD.owned, hD.apart, hD.covered⟩, ?_⟩
  have hkeep : ∀ a' r', a' ≠ a → (s.loc a').req = some r' →
      (s.format r).disk r'.b = s.disk r'.b := by
    intro a' r' hne hr'
    simp [(hother a' r' hne hr').2]
  have hcrit : ∀ a', (s.loc a').critical = true → (s.loc a).critical = true → a' = a :=
    fun _ => hI.agents.eq_of_critical
  have hloc : ∀ a', ((s.format r).moved a (.publish r) s.lock s.holder).loc a' =
      if a' = a then .publish r else s.loc a' := moved_loc
  refine ⟨⟨hI.flow.seen, hI.flow.availIdx, hI.flow.usedId, hI.flow.usedIdx⟩, fun a' r' hr' => ?_,
    fun a' r' hr' => ?_, (hout ▸ hI.flow.nodup : (s.format r).out.Nodup), fun h hh => ?_,
    fun a' r' hr' => ?_, hI.flow.writing, fun a' hb => hI.flow.body a' (by grind)⟩
  · rw [hloc] at hr'
    by_cases he : a' = a
    · rw [if_pos he] at hr'
      cases hr'
      exact ⟨(filled_format (hI.descs.nodup a r hreq)).congr fun _ _ => rfl, by
        simp⟩
    · rw [if_neg he] at hr'
      obtain ⟨hfill, hinfo⟩ := hI.flow.filled a' r' hr'
      have hdis := (hother a' r' he (req_of_formatted hr')).1
      refine ⟨hfill.congr fun i hi => format_desc_of_notMem (hdis i hi), ?_⟩
      have hne0 : r'.i₀ ≠ r.i₀ := fun e => hdis r'.i₀ (mem_chain_head r') (e ▸ mem_chain_head r)
      simp [hne0, hinfo]
  · have : a' = a ∧ r' = r := by grind
    simp [this.2]
  · obtain ⟨a', r', hr', hi, hdisk⟩ := hI.flow.mem_out h (hout ▸ hh)
    have hne : a' ≠ a := by grind
    refine ⟨a', r', by rwa [moved_loc, if_neg hne], hi, ?_⟩
    exact (hkeep a' r' hne (req_of_waiting hr')).trans hdisk
  · have hne : a' ≠ a := by grind
    rw [moved_loc, if_neg hne] at hr'
    have := hI.flow.waiting a' r' hr'
    rwa [← hflow, ← hkeep a' r' hne (req_of_waiting hr')] at this

/-! ### The end of a request -/

theorem Inv.finish (hI : s.Inv) (hx : s.loc a = .test r) (hclear : s.disk r.b = false) :
    ∃ s', s.finish a r = .ok s' ∧ s'.Inv := by
  have hwait : (s.loc a).waiting = some r := by rw [hx]; rfl
  have hreq := req_of_waiting hwait
  have hc : (s.loc a).critical = true := by rw [hx]; rfl
  have hnd := hI.descs.nodup a r hreq
  set info' := update s.info r.i₀ { s.info r.i₀ with b := none } with hinfo'
  have hchain : freeChain (NUM + 1) r.i₀ { s with info := info' } =
      .ok (VDisk.freed { s with info := info' } r.chain) := by
    refine freeChain_spec ?_ hnd (hI.descs.owned a r hreq)
    exact (hI.flow.filled a r (formatted_of_waiting hwait)).1.congr fun _ _ => rfl
  have hother : ∀ a' r', a' ≠ a → (s.loc a').req = some r' → ∀ i ∈ r'.chain, i ∉ r.chain :=
    fun a' r' hne hr' i hi hi' => hne (hI.descs.apart a' a r' r hr' hreq i hi hi')
  refine ⟨(VDisk.freed { s with info := info' } r.chain).moved a .idle none
    (update s.holder r.b none), ?_, ?_, hI.descs.finish hreq rfl, ?_⟩
  · rw [VDisk.finish, hchain]
    rfl
  · have hA := hI.agents.release (y := .idle) (H := update s.holder r.b none) hc rfl nofun
      fun a' hne b hb => by
        refine update_of_ne (fun e => hne ?_) _ _
        exact hI.agents.eq_of_buf hb (e ▸ buf_of_req hreq)
    exact ⟨hA.lock, hA.holder⟩
  · have hnot := (hI.flow.done_of_clear hI.descs hwait hclear).1
    have hself : ∀ a' r', (s.loc a').waiting = some r' → r'.i₀ ∈ s.out → a' ≠ a := by grind
    have hloc : ∀ a', ((VDisk.freed { s with info := info' } r.chain).moved a .idle none
        (update s.holder r.b none)).loc a' = if a' = a then .idle else s.loc a' := moved_loc
    refine ⟨⟨hI.flow.seen, hI.flow.availIdx, hI.flow.usedId, hI.flow.usedIdx⟩, fun a' r' hr' => ?_,
      fun a' r' hr' => hI.flow.publish a' r' (by grind), hI.flow.nodup, fun h hh => ?_,
      fun a' r' hr' => hI.flow.waiting a' r' (by grind), hI.flow.writing,
      fun a' hb => hI.flow.body a' (by grind)⟩
    · have hne : a' ≠ a := by grind
      rw [moved_loc, if_neg hne] at hr'
      have hdis := hother a' r' hne (req_of_formatted hr')
      obtain ⟨hfill, hinfo⟩ := hI.flow.filled a' r' hr'
      refine ⟨hfill.congr fun i hi => by simp [freed, hdis i hi], ?_⟩
      have hne0 : r'.i₀ ≠ r.i₀ := fun e => hdis _ (mem_chain_head r') (e ▸ mem_chain_head r)
      simp [freed, hinfo', hne0, hinfo]
    · obtain ⟨a', r', hr', rfl, hrest⟩ := hI.flow.mem_out h hh
      exact ⟨a', r', by rwa [moved_loc, if_neg (hself a' r' hr' hh)], rfl, hrest⟩

/-! ### Completions -/

theorem Inv.complete (hI : s.Inv) (hx : s.loc a = .intrBody) :
    ∃ s', s.complete = .ok s' ∧ (s'.moved a .intrLoop s.lock s.holder).Inv := by
  obtain ⟨a', r, hr, hi, -, hinfo, -⟩ := hI.used_head hx
  have hc : (s.loc a).critical = true := by rw [hx]; rfl
  refine ⟨_, complete_eq hinfo, ?_⟩
  set s' : VDisk P B := { s with disk := update s.disk r.b false, usedIdx := (s.usedIdx + 1) % NUM }
  have hpop : s.usedQ = r.i₀ :: s'.usedQ := by
    rw [hi]
    exact usedQ_pop hI (hI.flow.body a hx) rfl rfl rfl
  have hnd : (s.flow ++ r.i₀ :: s'.usedQ).Nodup := hpop ▸ hI.flow.nodup
  -- the other agents have other buffers
  have hkeep : ∀ a'' r', a'' ≠ a' → (s.loc a'').req = some r' → s'.disk r'.b = s.disk r'.b := by
    intro a'' r' hne hr'
    refine update_of_ne (fun e => hne ?_) _ _
    exact hI.agents.eq_of_buf (buf_of_req hr') (e ▸ buf_of_req (req_of_waiting hr))
  have hA := hI.agents.goto (y := .intrLoop) (fun _ => hc) (by rw [hx]; rfl)
  have hD := hI.descs.move (y := .intrLoop) (L := s.lock) (H := s.holder)
    (show _ = (s.loc a).req by rw [hx]; rfl)
  refine ⟨⟨hA.lock, hA.holder⟩, ⟨hD.nodup, hD.owned, hD.apart, hD.covered⟩, ?_⟩
  have hcrit : ∀ b, (s.loc b).critical = true → (s.loc a).critical = true → b = a :=
    fun _ => hI.agents.eq_of_critical
  have hloc : ∀ b, (s'.moved a .intrLoop s.lock s.holder).loc b =
      if b = a then .intrLoop else s.loc b := moved_loc
  have hnot : r.i₀ ∉ s.flow ++ s'.usedQ := (List.nodup_cons.1 (List.nodup_middle.1 hnd)).1
  refine ⟨⟨hI.flow.seen, hI.flow.availIdx, hI.flow.usedId, Nat.mod_lt _ (by decide)⟩,
    fun b r' hr' => ?_, fun b r' hr' => ?_, (List.nodup_middle.1 hnd).of_cons, fun h hh => ?_,
    fun b r' hr' => ?_, hI.flow.writing, fun b hb => ?_⟩
  · exact (hI.flow.filled b r' (by grind)).imp_left (·.congr fun _ _ => rfl)
  · grind
  · have hh : h ∈ s.flow ++ s'.usedQ := hh
    obtain ⟨b, r', hr', rfl, hdisk⟩ := hI.flow.mem_out h (by
      rw [VDisk.out, hpop]
      simp only [List.mem_append, List.mem_cons] at hh ⊢
      tauto)
    have hne' : b ≠ a' := by grind
    exact ⟨b, r', by grind, rfl, (hkeep b r' hne' (req_of_waiting hr')).trans hdisk⟩
  · have hr' : (s.loc b).waiting = some r' := by grind
    obtain ⟨how, hst⟩ := hI.flow.waiting b r' hr'
    refine ⟨how, ?_⟩
    by_cases he : b = a'
    · -- this is the request whose completion is seen: it is not in the flow, so it is done
      obtain rfl : r' = r := by grind
      obtain hin | ⟨hdone, -⟩ := hst
      · exact absurd (List.mem_append_left _ hin) hnot
      · exact .inr ⟨hdone, .inr (by simp [s'])⟩
    · refine hst.imp_right (And.imp_right (Or.imp (fun hin => ?_) fun hd => ?_))
      · rw [hpop] at hin
        refine (List.mem_cons.1 hin).resolve_left fun e => he ?_
        exact (hI.descs.eq_of_head (req_of_waiting hr') (req_of_waiting hr) e).1
      · exact (hkeep b r' he (req_of_waiting hr')).trans hd
  · grind

/-! ### All steps -/

/-- No step of an agent stops the kernel, and all of them keep the invariant. -/
theorem Inv.exec (hI : s.Inv) (a : P) : ∃ o, s.exec a = .ok o ∧ ∀ s', o = some s' → s'.Inv := by
  cases hx : s.loc a with
  | idle => exact ⟨none, by simp only [VDisk.exec, hx], nofun⟩
  | acquire b w | sleep r | intrAcquire =>
    refine ⟨_, by simp only [VDisk.exec, hx]; rfl, fun s' h => ?_⟩
    exact hI.acquire hx h rfl rfl rfl rfl (fun _ => nofun) nofun
  | alloc b w =>
    obtain ⟨s', h, hI'⟩ := hI.alloc hx
    exact ⟨_, h, fun t ht => by cases ht; exact hI'⟩
  | format r =>
    refine ⟨_, by simp only [VDisk.exec, hx]; rfl, fun s' h => ?_⟩
    cases h
    exact hI.format hx
  | publish r =>
    refine ⟨_, by simp only [VDisk.exec, hx]; rfl, fun s' h => ?_⟩
    cases h
    exact hI.publish hx
  | test r =>
    have hc : (s.loc a).critical = true := by rw [hx]; rfl
    cases hd : s.disk r.b with
    | true =>
      refine ⟨_, by simp only [VDisk.exec, hx, hd, if_true]; rfl, fun s' h => ?_⟩
      cases h
      have hA := hI.agents.release (y := .sleep r) (H := s.holder) hc rfl
        (fun b hb => hI.agents.holder a b (by rw [hx]; exact hb)) fun _ _ _ _ => rfl
      exact hI.move hx hA rfl rfl rfl (fun _ => nofun) nofun
    | false =>
      obtain ⟨s', h, hI'⟩ := hI.finish hx hd
      refine ⟨some s', ?_, fun t ht => by cases ht; exact hI'⟩
      simp only [VDisk.exec, hx, hd, h]
      rfl
  | intrLoop =>
    have hc : (s.loc a).critical = true := by rw [hx]; rfl
    by_cases hne : s.usedIdx % NUM ≠ s.usedId % NUM
    · refine ⟨_, by simp only [VDisk.exec, hx]; exact if_pos hne, fun s' h => ?_⟩
      cases h
      refine hI.move hx (hI.agents.goto (fun _ => hc) (by rw [hx]; rfl)) rfl rfl rfl
        (fun _ => nofun) fun _ hnil => hne ?_
      have hzero : Ring.count NUM s.usedIdx (s.usedId % NUM) = 0 := by
        have hlen : s.usedQ.length = Ring.count NUM s.usedIdx (s.usedId % NUM) :=
          Ring.length_items ..
        rw [← hlen, hnil]
        rfl
      rw [Nat.mod_eq_of_lt hI.flow.usedIdx]
      exact (Ring.count_eq_zero hI.flow.usedIdx (Nat.mod_lt _ (by decide))).1 hzero
    · refine ⟨_, by simp only [VDisk.exec, hx]; exact if_neg hne, fun s' h => ?_⟩
      cases h
      have hA := hI.agents.release (y := .idle) (H := s.holder) hc rfl nofun fun _ _ _ _ => rfl
      exact hI.move hx hA rfl rfl rfl (fun _ => nofun) nofun
  | intrBody =>
    obtain ⟨s', h, hI'⟩ := hI.complete hx
    refine ⟨some (s'.goto a .intrLoop), ?_, fun t ht => ?_⟩
    · simp only [VDisk.exec, hx, h]
      rfl
    · cases ht
      obtain ⟨_, r, -, -, -, hinfo, -⟩ := hI.used_head hx
      rw [complete_eq hinfo] at h
      cases h
      exact hI'

theorem Inv.next (hI : s.Inv) {e : VDiskEvent P B} (h : (vdisk P B).next s e = some s') :
    s'.Inv := by
  cases e with
  | call a b w =>
    simp only [vdisk] at h
    split at h
    · rename_i hx hb
      cases h
      have hA : (s.moved a (.acquire b w) s.lock (update s.holder b (some a))).Agents := by
        obtain ⟨h1, h2⟩ := hI.agents
        refine ⟨fun a' => ?_, fun a' b' => ?_⟩ <;> rw [moved_loc] <;>
          simp only [moved, update_apply] <;> grind
      exact hI.move hx hA rfl rfl rfl (fun _ => nofun) nofun
    · cases h
  | intr a =>
    simp only [vdisk] at h
    split at h
    · rename_i hx
      cases h
      exact hI.move hx (hI.agents.goto nofun (by rw [hx]; rfl)) rfl rfl rfl (fun _ => nofun) nofun
    · cases h
  | step a =>
    obtain ⟨o, ho, hI'⟩ := hI.exec a
    simp only [vdisk, ho] at h
    exact hI' s' h
  | take => exact hI.take h
  | put h' => exact hI.put h
  | bump => exact hI.bump h

end VDisk

end Xv6Container
