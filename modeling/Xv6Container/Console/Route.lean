import Xv6Container.Console.Edit

/-!
# Where typed characters go

A character typed while console `k` is active is put in the buffer of `k` only, and a reader of `k`
takes characters from that buffer only.  Between the read index and the edit index a buffer holds
nothing but characters typed at its console; the initial contents of the buffer and characters that
have been read or erased lie outside of that range.

The number of the active console is another matter: control-T at console `NCONS` makes it
`NCONS + 1`, which is no console.

* `console_routing` : **characters reach the readers of their console only**, and the active
  console exists, as long as control-T is not typed at the last console;
* `console_overrun` : typed there, it leads out of the array.
-/

namespace Xv6Container

open Function

/-- The indices of the buffer are in order, no more than `INPUT_BUF` characters lie between them,
and each of these is `good`. -/
structure Input.Holds (good : Key → Prop) (i : Input) : Prop where
  order : (i.w - i.r).toNat ≤ (i.e - i.r).toNat
  room : (i.e - i.r).toNat ≤ INPUT_BUF
  good : ∀ j < (i.e - i.r).toNat, good (i.buf ((i.r.toNat + j) % INPUT_BUF))

namespace Input.Holds

variable {good good' : Key → Prop} {i : Input}

theorem mono (h : i.Holds good) (hg : ∀ x, good x → good' x) : i.Holds good' :=
  ⟨h.order, h.room, fun j hj => hg _ (h.good j hj)⟩

theorem of_shows {xs line : List Key} (h : i.Shows xs line) (hgood : ∀ x ∈ xs ++ line, good x) :
    i.Holds good := by
  refine ⟨by rw [h.length, h.length_text]; exact Nat.le_add_right .., h.room,
    fun j hj => hgood _ ?_⟩
  rw [← h.text]
  exact List.mem_map.2 ⟨j, List.mem_range.2 hj, rfl⟩

theorem exists_shows (h : i.Holds good) :
    ∃ xs line, i.Shows xs line ∧ ∀ x ∈ xs ++ line, good x := by
  refine ⟨i.text.take (i.w - i.r).toNat, i.text.drop (i.w - i.r).toNat,
    ⟨(List.take_append_drop ..).symm, ?_, h.room⟩, fun x hx => ?_⟩
  · rw [List.length_take, Input.text, Ring.length_items, Nat.min_eq_left h.order]
  · rw [List.take_append_drop] at hx
    obtain ⟨j, hj, rfl⟩ := List.mem_map.1 hx
    exact h.good j (List.mem_range.1 hj)

theorem intr (h : i.Holds good) {c : UInt8} {stamp : ℕ} (hx : good ⟨stored c, stamp⟩) :
    (i.intr c stamp).Holds good := by
  obtain ⟨xs, line, h, hgood⟩ := h.exists_shows
  obtain ⟨ys, t, h', hmem, -⟩ := h.intr [] c stamp
  refine of_shows h' fun x hxs => ?_
  rw [List.append_assoc] at hxs
  obtain hxs | hxs := List.mem_append.1 hxs
  · exact hgood x (List.mem_append_left _ hxs)
  · obtain hline | rfl := hmem x hxs
    · exact hgood x (List.mem_append_right _ hline)
    · exact hx

end Input.Holds

theorem holds_readLoop {good : Key → Prop} (target : ℕ) (mapped : ℕ → Bool) (killed : Bool) (n : ℕ)
    {i : Input} (h : i.Holds good) :
    (readLoop target mapped killed n i).2.1.Holds good ∧
      ∀ x ∈ (readLoop target mapped killed n i).2.2, good x := by
  obtain ⟨xs, line, h, hgood⟩ := h.exists_shows
  obtain ⟨ws, zs, rfl, h', hmem, -⟩ := h.readLoop rfl
  refine ⟨.of_shows h' fun x hx => hgood x ?_, fun x hx => hgood x (by simp [hmem x hx])⟩
  rw [List.append_assoc]
  exact List.mem_append_right _ hx

/-- The character was typed while the console with number `k` was active. -/
def TypedAt (typed : List (ℕ × UInt8)) (k : ℕ) (x : Key) : Prop :=
  ∃ c, typed[x.stamp]? = some (k, c) ∧ x.c = Input.stored c

theorem TypedAt.append {typed : List (ℕ × UInt8)} {k : ℕ} {x : Key} (h : TypedAt typed k x)
    (y : ℕ × UInt8) : TypedAt (typed ++ [y]) k x := by
  obtain ⟨c, hc, hx⟩ := h
  have hlt := (List.getElem?_eq_some_iff.1 hc).1
  exact ⟨c, by rw [List.getElem?_append_left hlt, hc], hx⟩

namespace Consoles

variable {s s' : Consoles}

/-- The active console exists, the buffers hold characters typed at their consoles, and so were the
characters that readers have got. -/
structure Routed (s : Consoles) : Prop where
  active : 1 ≤ s.active ∧ s.active ≤ NCONS
  holds : ∀ k : Fin NCONS, (s.consoles k).Holds (TypedAt s.typed (k + 1))
  delivered : ∀ y ∈ s.delivered, TypedAt s.typed y.1 y.2

/-- Control-T is not typed at the last console. -/
def KeepsActive (s : Consoles) (e : ConsoleEvent) : Prop :=
  e = .intr (ctrl 'T') → s.active < NCONS

theorem Routed.activeCons (h : s.Routed) :
    ∃ k : Fin NCONS, s.activeCons = .ok k ∧ (k : ℕ) + 1 = s.active := by
  refine ⟨⟨s.active - 1, by have := h.active; omega⟩, dif_pos h.active, ?_⟩
  have := h.active.1
  dsimp only
  omega

theorem Routed.step_ne_fault (h : s.Routed) (e : ConsoleEvent) :
    s.step e ≠ some (.error .fault) := by
  obtain ⟨k, hk, -⟩ := h.activeCons
  cases e with
  | intr c =>
    simp only [step, consoleintr, hk, bind, Except.bind, pure, Except.pure]
    split_ifs <;> simp
  | read p cons n mapped killed =>
    simp only [step]
    cases s.reader p <;> simp
  | wake p killed =>
    simp only [step]
    cases s.reader p <;> simp
  | write => simp [step, consolewrite, hk, bind, Except.bind, pure, Except.pure]

theorem Routed.consoleintr (h : s.Routed) {c : UInt8} (hc : s.KeepsActive (.intr c))
    (hs : s.consoleintr c = .ok s') : s'.Routed := by
  obtain ⟨k, hk, hact⟩ := h.activeCons
  obtain ⟨t, ht⟩ : ∃ t : Consoles, t = { s with
    consoles := update s.consoles k ((s.consoles k).intr c s.typed.length)
    typed := s.typed ++ [(s.active, c)] } := ⟨_, rfl⟩
  -- before a switch of consoles
  have hrouted : t.Routed := by
    rw [ht]
    refine ⟨h.active, fun j => ?_, fun y hy => (h.delivered y hy).append _⟩
    have hmono : (s.consoles j).Holds (TypedAt (s.typed ++ [(s.active, c)]) (j + 1)) :=
      (h.holds j).mono fun x hx => hx.append _
    by_cases hj : j = k
    · subst hj
      simp only [update_self]
      refine hmono.intr ⟨c, ?_, rfl⟩
      simp [hact]
    · simp only [update_of_ne hj]
      exact hmono
  subst ht
  simp only [Consoles.consoleintr, hk, bind, Except.bind, pure, Except.pure] at hs
  split_ifs at hs with hT
  · cases hs
    refine ⟨?_, hrouted.holds, hrouted.delivered⟩
    have hlt := hc (by rw [hT])
    simp only [NCONS] at hlt ⊢
    omega
  · cases hs
    exact hrouted

theorem Routed.runReader (h : s.Routed) (p : ℕ) (rd : ConsoleReader) (killed : Bool) :
    (s.runReader p rd killed).Routed := by
  obtain ⟨hbuf, hgot⟩ := holds_readLoop rd.target rd.mapped killed rd.n (h.holds rd.cons)
  refine ⟨h.active, fun j => ?_, fun y hy => ?_⟩
  · by_cases hj : j = rd.cons
    · subst hj
      simpa only [Consoles.runReader, update_self] using hbuf
    · simpa only [Consoles.runReader, update_of_ne hj] using h.holds j
  · obtain hy | hy := List.mem_append.1 hy
    · exact h.delivered y hy
    · obtain ⟨x, hx, rfl⟩ := List.mem_map.1 hy
      exact hgot x hx

theorem Routed.next (h : s.Routed) {e : ConsoleEvent} (hc : s.KeepsActive e)
    (hs : consoleDriver.next s e = some s') : s'.Routed := by
  obtain ⟨x, hx, hs⟩ := Option.bind_eq_some_iff.1 hs
  cases e with
  | intr c =>
    cases hx
    cases hi : s.consoleintr c with
    | error e => simp [hi, Except.toOption] at hs
    | ok t =>
      simp only [hi, Except.toOption, Option.some.injEq] at hs
      exact h.consoleintr hc (hs ▸ hi)
  | read p cons n mapped killed =>
    simp only [step] at hx
    split at hx
    · cases hx
    · cases hx
      cases hs
      exact h.runReader ..
  | wake p killed =>
    simp only [step] at hx
    split at hx
    · cases hx
    · cases hx
      cases hs
      exact h.runReader ..
  | write =>
    obtain ⟨k, hk, -⟩ := h.activeCons
    simp only [step, consolewrite, hk, bind, Except.bind, pure, Except.pure,
      Option.some.injEq] at hx
    subst hx
    cases hs
    exact h

theorem routed_init (junk : Fin NCONS → ℕ → Key) : (consoleinit junk).Routed where
  active := ⟨le_refl _, by simp⟩
  holds k := ⟨by simp, by simp, by simp⟩
  delivered := by simp

end Consoles

/-- **Virtual console routing.**  Whatever is typed and read after `consoleinit`, as long as
control-T is not typed at the last console: the active console is one of `1..NCONS`, no step
leaves the array `consoles[]`, and every character that a reader of console `k` gets was typed
while console `k` was active. -/
theorem console_routing (junk : Fin NCONS → ℕ → Key) (es : List ConsoleEvent) (s : Consoles)
    (h : consoleDriver.Run Consoles.KeepsActive (consoleinit junk) es s) :
    (1 ≤ s.active ∧ s.active ≤ NCONS) ∧ (∀ e, s.step e ≠ some (.error .fault)) ∧
      ∀ y ∈ s.delivered, ∃ c, s.typed[y.2.stamp]? = some (y.1, c) ∧ y.2.c = Input.stored c := by
  have hr : s.Routed := h.invariant (Consoles.routed_init junk) fun _ _ _ hi hc hn => hi.next hc hn
  exact ⟨hr.active, hr.step_ne_fault, hr.delivered⟩

/-- A line typed at console 1 and read from it. -/
theorem console_routing_line : ∃ s : Consoles,
    consoleDriver.Run Consoles.KeepsActive (consoleinit fun _ _ => ⟨0, 0⟩)
      [.intr 97, .intr 10, .read 0 0 8 (fun _ => true) false] s ∧
    s.delivered = [(1, ⟨97, 0⟩), (1, ⟨10, 1⟩)] ∧ (1 ≤ s.active ∧ s.active ≤ NCONS) ∧
    ∀ y ∈ s.delivered, ∃ c, s.typed[y.2.stamp]? = some (y.1, c) ∧ y.2.c = Input.stored c := by
  have hrun : consoleDriver.Run Consoles.KeepsActive (consoleinit fun _ _ => ⟨0, 0⟩)
      [.intr 97, .intr 10, .read 0 0 8 (fun _ => true) false] _ :=
    .cons (by simp [Consoles.KeepsActive, ctrl]) rfl
      (.cons (by simp [Consoles.KeepsActive, ctrl]) rfl
      (.cons (by simp [Consoles.KeepsActive]) rfl (.nil _)))
  obtain ⟨hactive, -, hdelivered⟩ := console_routing _ _ _ hrun
  exact ⟨_, hrun, rfl, hactive, hdelivered⟩

/-- Five times control-T make console 6 active, and the next character leaves the array. -/
theorem console_overrun : ∃ s : Consoles,
    consoleDriver.run (consoleinit fun _ _ => ⟨0, 0⟩) (List.replicate 5 (.intr (ctrl 'T'))) =
      some s ∧
    s.active = NCONS + 1 ∧ s.step (.intr 97) = some (.error .fault) :=
  ⟨_, rfl, rfl, rfl⟩

end Xv6Container
