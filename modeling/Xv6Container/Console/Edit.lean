import Xv6Container.Console.Basic
import Xv6Container.Data.Ring

/-!
# Line editing

One console, with the characters that arrive while it is active and the calls of `consoleread` on
it, in any order; all buffers of the readers are mapped.  The indices are free-running and wrap.

`Edit` says what the typed characters mean: a line that is being edited, and the characters that are
committed to readers.  What a character does depends on how much room the buffer has when it
arrives.  The history `served` has an entry for every byte copied to a reader, and the entry `none`
for every call with a positive length that returns 0.

* `Input.Shows` : what a buffer holds;
* `console_lines` : **readers get what is committed**, in order and without the control-Ds, each of
  which is a call that returns 0.
-/

namespace Xv6Container

open Function

/-! ### What typed characters mean -/

/-- The characters committed to readers, and the line behind them. -/
structure Edit where
  committed : List UInt8
  line : List UInt8

namespace Edit

variable (t : Edit) (room : ℕ) (c : UInt8)

/-- A character is put at the end of the line, which is committed when it is complete or when there
is room for no more than this character. -/
def store : Edit :=
  if c = 0 ∨ room = 0 then t
  else
    let line := t.line ++ [Input.stored c]
    if Input.stored c = newline ∨ Input.stored c = ctrl 'D' ∨ room = 1 then
      ⟨t.committed ++ line, []⟩
    else ⟨t.committed, line⟩

/-- The character `c` arrives when there is room for `room` characters. -/
def type : Edit :=
  if c = ctrl 'P' then t
  else if c = ctrl 'U' then ⟨t.committed, []⟩
  else if c = ctrl 'H' ∨ c = 0x7f then ⟨t.committed, t.line.dropLast⟩
  else if c = ctrl 'T' then t
  else t.store room c

end Edit

/-! ### What readers get -/

/-- What a run of the loop of `consoleread` adds to the history. -/
def replies (target : ℕ) (e : ReadEnd) (xs : List Key) : List (Option UInt8) :=
  xs.map (fun x => some x.c) ++
    match e with
    | .ret v => if v = 0 ∧ 0 < target then [none] else []
    | .sleep _ => []

/-- The characters that entries of the history stand for. -/
def consumed (served : List (Option UInt8)) : List UInt8 := served.map (·.getD (ctrl 'D'))

theorem replies_ret {target : ℕ} {v : ℤ} (xs : List Key) (hv : ¬ (v = 0 ∧ 0 < target)) :
    replies target (.ret v) xs = xs.map fun x => some x.c := by
  simp [replies, hv]

/-! ### The buffer -/

namespace Input

/-- The characters between the read index and the edit index. -/
def text (i : Input) : List Key := Ring.items i.buf INPUT_BUF i.r.toNat (i.e - i.r).toNat

/-- The buffer holds the committed characters `xs` and the line `line` behind them. -/
structure Shows (i : Input) (xs line : List Key) : Prop where
  text : i.text = xs ++ line
  length : (i.w - i.r).toNat = xs.length
  room : (i.e - i.r).toNat ≤ INPUT_BUF

namespace Shows

variable {i : Input} {xs line : List Key} {x : Key} {c : UInt8}

theorem length_text (h : i.Shows xs line) : (i.e - i.r).toNat = xs.length + line.length := by
  have hlen := congrArg List.length h.text
  rwa [Input.text, Ring.length_items, List.length_append] at hlen

theorem r_eq_w (h : i.Shows xs line) : i.r = i.w ↔ xs = [] := by
  have hlen := h.length
  have hr := i.r.toNat_lt
  have hw := i.w.toNat_lt
  rw [← List.length_eq_zero_iff, ← hlen, UInt32.toNat_sub, ← UInt32.toNat_inj]
  omega

theorem length_line (h : i.Shows xs line) : (i.e - i.w).toNat = line.length := by
  have hlen := h.length
  have htext := h.length_text
  have hr := i.r.toNat_lt
  have hw := i.w.toNat_lt
  have he := i.e.toNat_lt
  simp only [UInt32.toNat_sub] at hlen htext ⊢
  omega

theorem e_eq_w (h : i.Shows xs line) : i.e = i.w ↔ line = [] := by
  have hw := i.w.toNat_lt
  have he := i.e.toNat_lt
  rw [← List.length_eq_zero_iff, ← h.length_line, UInt32.toNat_sub, ← UInt32.toNat_inj]
  omega

theorem e_ne_w (h : i.Shows xs (line ++ [x])) : i.e ≠ i.w := fun he => by simpa using h.e_eq_w.1 he

theorem erase (h : i.Shows xs (line ++ [x])) : i.buf ((i.e - 1).toNat % INPUT_BUF) = x ∧
    ({ i with e := i.e - 1 } : Input).Shows xs line := by
  have hlen := h.length_text
  have hroom := h.room
  have hr := i.r.toNat_lt
  have he := i.e.toNat_lt
  rw [List.length_append, List.length_singleton] at hlen
  have hpred : (i.e - 1 - i.r).toNat = xs.length + line.length := by
    simp only [UInt32.toNat_sub, UInt32.toNat_one] at hlen ⊢
    omega
  have hidx : (i.e - 1).toNat % INPUT_BUF =
      (i.r.toNat + (xs.length + line.length)) % INPUT_BUF := by
    simp only [INPUT_BUF, UInt32.toNat_sub, UInt32.toNat_one] at hlen ⊢
    omega
  have htext := h.text
  rw [Input.text, hlen, ← Nat.add_assoc, Ring.items_succ, ← List.append_assoc] at htext
  obtain ⟨hinit, hlast⟩ := List.append_inj' htext rfl
  refine ⟨hidx ▸ (List.cons.inj hlast).1, ?_, h.length, by dsimp only; omega⟩
  rw [Input.text]
  dsimp only
  rw [hpred, hinit]

theorem killLine (n : ℕ) (h : i.Shows xs line) : ∃ t, (Input.killLine n i).Shows xs t ∧
    t <+: line ∧ (newline ∉ line.map Key.c → line.length ≤ n → t = []) := by
  induction n generalizing i line with
  | zero =>
    exact ⟨line, h, List.prefix_rfl, fun _ hn => List.length_eq_zero_iff.1 (Nat.le_zero.1 hn)⟩
  | succ n ih =>
    rw [Input.killLine]
    obtain rfl | ⟨line, x, rfl⟩ := line.eq_nil_or_concat'
    · rw [if_neg fun hc => hc.1 (h.e_eq_w.2 rfl)]
      exact ⟨[], h, List.prefix_rfl, fun _ _ => rfl⟩
    · obtain ⟨hx, herase⟩ := h.erase
      split_ifs with hc
      · -- the line loses its last character
        obtain ⟨t, ht, hpre, hnil⟩ := ih herase
        refine ⟨t, ht, hpre.trans (List.prefix_append _ _), fun hnl hn => hnil ?_ ?_⟩
        · exact fun hmem => hnl (by simp [hmem])
        · simpa using hn
      · refine ⟨_, h, List.prefix_rfl, fun hnl _ => absurd ⟨h.e_ne_w, fun hxc => hnl ?_⟩ hc⟩
        simp [← hx, hxc]

theorem backspace (h : i.Shows xs line) : i.backspace.Shows xs line.dropLast := by
  unfold Input.backspace
  obtain rfl | ⟨line, x, rfl⟩ := line.eq_nil_or_concat'
  · rw [if_neg (not_not.2 (h.e_eq_w.2 rfl))]
    exact h
  · rw [if_pos h.e_ne_w, List.dropLast_concat]
    exact h.erase.2

theorem push (h : i.Shows xs line) (y : Key) (hroom : (i.e - i.r).toNat < INPUT_BUF) :
    ({ i with buf := update i.buf (i.e.toNat % INPUT_BUF) y, e := i.e + 1 } : Input).Shows xs
      (line ++ [y]) := by
  have hr := i.r.toNat_lt
  have he := i.e.toNat_lt
  have hsucc : (i.e + 1 - i.r).toNat = (i.e - i.r).toNat + 1 := by
    simp only [INPUT_BUF, UInt32.toNat_sub, UInt32.toNat_add, UInt32.toNat_one] at hroom ⊢
    omega
  have hidx : i.e.toNat % INPUT_BUF = (i.r.toNat + (i.e - i.r).toNat) % INPUT_BUF := by
    simp only [INPUT_BUF, UInt32.toNat_sub]
    omega
  refine ⟨?_, h.length, by dsimp only; omega⟩
  rw [Input.text]
  dsimp only
  rw [hsucc, Ring.items_push _ _ hroom hidx, ← List.append_assoc, ← h.text, Input.text]

theorem commit (h : i.Shows xs line) : ({ i with w := i.e } : Input).Shows (xs ++ line) [] :=
  ⟨by rw [List.append_nil, ← h.text, Input.text, Input.text],
    by rw [h.length_text, List.length_append], h.room⟩

theorem pop (h : i.Shows (x :: xs) line) :
    i.buf (i.r.toNat % INPUT_BUF) = x ∧ ({ i with r := i.r + 1 } : Input).Shows xs line := by
  have hlen := h.length_text
  have hlength := h.length
  have hroom := h.room
  have hr := i.r.toNat_lt
  have hw := i.w.toNat_lt
  have he := i.e.toNat_lt
  rw [List.length_cons] at hlen hlength
  have hpred : (i.e - (i.r + 1)).toNat = xs.length + line.length := by
    simp only [UInt32.toNat_sub, UInt32.toNat_add, UInt32.toNat_one] at hlen ⊢
    omega
  have hmod : (i.r + 1).toNat % INPUT_BUF = (i.r.toNat + 1) % INPUT_BUF := by
    simp only [INPUT_BUF, UInt32.toNat_add, UInt32.toNat_one]
    omega
  have htext := h.text
  rw [Input.text, hlen, Nat.add_right_comm, Ring.items_pop] at htext
  obtain ⟨hx, hrest⟩ := List.cons.inj htext
  refine ⟨hx, ?_, ?_, by dsimp only; omega⟩
  · rw [Input.text]
    dsimp only
    rw [hpred, Ring.items_congr _ _ hmod]
    exact hrest
  · simp only [UInt32.toNat_sub, UInt32.toNat_add, UInt32.toNat_one] at hlength ⊢
    omega

theorem store (h : i.Shows xs line) (cs : List UInt8) (c : UInt8) (stamp : ℕ) :
    ∃ ys t, (i.store c stamp).Shows (xs ++ ys) t ∧
      (∀ x ∈ ys ++ t, x ∈ line ∨ x = ⟨stored c, stamp⟩) ∧
      (newline ∉ line.map Key.c → newline ∉ t.map Key.c) ∧
      (⟨cs, line.map Key.c⟩ : Edit).store (INPUT_BUF - (i.e - i.r).toNat) c =
        ⟨cs ++ ys.map Key.c, t.map Key.c⟩ := by
  have hr := i.r.toNat_lt
  have he := i.e.toNat_lt
  unfold Edit.store Input.store
  by_cases hc : c ≠ 0 ∧ (i.e - i.r).toNat < INPUT_BUF
  · have hpush := h.push ⟨stored c, stamp⟩ hc.2
    have hfull : i.e + 1 = i.r + UInt32.ofNat INPUT_BUF ↔ INPUT_BUF - (i.e - i.r).toNat = 1 := by
      have hlt := hc.2
      have hsize : (UInt32.ofNat INPUT_BUF).toNat = INPUT_BUF := rfl
      rw [← UInt32.toNat_inj, UInt32.toNat_add, UInt32.toNat_add, hsize, UInt32.toNat_one]
      simp only [INPUT_BUF, UInt32.toNat_sub] at hlt ⊢
      omega
    have hroom : ¬(c = 0 ∨ INPUT_BUF - (i.e - i.r).toNat = 0) := by
      rintro (h0 | h0)
      · exact hc.1 h0
      · omega
    rw [if_pos hc, if_neg hroom]
    dsimp only
    simp only [hfull]
    split
    · exact ⟨line ++ [⟨stored c, stamp⟩], [], by simpa using hpush.commit, by simp, by simp,
        by simp⟩
    · rename_i hnot
      refine ⟨[], line ++ [⟨stored c, stamp⟩], by simpa using hpush, by simp, fun hline => ?_,
        by simp⟩
      rw [List.map_append, List.mem_append, not_or]
      exact ⟨hline, by simpa using fun e => hnot (.inl e.symm)⟩
  · rw [if_neg hc, if_pos (by by_contra h; exact hc (by push Not at h; exact ⟨h.1, by omega⟩))]
    exact ⟨[], line, by simpa using h, by simp +contextual, id, by simp⟩

/-- **A typed character** erases some of the line, extends it or commits it. -/
theorem intr (h : i.Shows xs line) (cs : List UInt8) (c : UInt8) (stamp : ℕ) :
    ∃ ys t, (i.intr c stamp).Shows (xs ++ ys) t ∧
      (∀ x ∈ ys ++ t, x ∈ line ∨ x = ⟨stored c, stamp⟩) ∧ (newline ∉ line.map Key.c →
        newline ∉ t.map Key.c ∧
        (⟨cs, line.map Key.c⟩ : Edit).type (INPUT_BUF - (i.e - i.r).toNat) c =
          ⟨cs ++ ys.map Key.c, t.map Key.c⟩) := by
  unfold Edit.type Input.intr
  split_ifs
  · exact ⟨[], line, by simpa using h, by simp +contextual, fun hline => ⟨hline, by simp⟩⟩
  · obtain ⟨t, ht, hpre, hnil⟩ := h.killLine (i.e - i.w).toNat
    refine ⟨[], t, by simpa using ht, fun x hx => .inl (hpre.subset hx), fun hline => ?_⟩
    simp [hnil hline h.length_line.ge]
  · refine ⟨[], line.dropLast, by simpa using h.backspace,
      fun x hx => .inl (List.mem_of_mem_dropLast hx), fun hline => ?_⟩
    rw [List.map_dropLast]
    exact ⟨fun hmem => hline (List.mem_of_mem_dropLast hmem), by simp⟩
  · exact ⟨[], line, by simpa using h, by simp +contextual, fun hline => ⟨hline, by simp⟩⟩
  · obtain ⟨ys, t, ht, hmem, hline, hedit⟩ := h.store cs c stamp
    exact ⟨ys, t, ht, hmem, fun h => ⟨hline h, hedit⟩⟩

/-- **A run of the loop of `consoleread`** takes committed characters off the buffer. -/
theorem readLoop {target n : ℕ} {mapped : ℕ → Bool} {killed : Bool} (h : i.Shows xs line)
    {e : ReadEnd} {i' : Input} {ys : List Key}
    (hrun : readLoop target mapped killed n i = (e, i', ys)) :
    ∃ ws zs, xs = ws ++ zs ∧ i'.Shows zs line ∧ (∀ y ∈ ys, y ∈ ws) ∧
      (n ≤ target → (∀ j, mapped j = true) → ws.map Key.c = consumed (replies target e ys) ∧
        some (ctrl 'D') ∉ replies target e ys ∧ ∀ m, e = .sleep m → m ≤ target) := by
  induction n generalizing i xs e i' ys with
  | zero =>
    cases hrun
    rw [replies_ret [] (by omega)]
    exact ⟨[], xs, rfl, h, by simp, fun _ _ => ⟨rfl, by simp, by simp⟩⟩
  | succ n ih =>
    rw [Xv6Container.readLoop] at hrun
    cases xs with
    | nil =>
      rw [if_pos (h.r_eq_w.2 rfl)] at hrun
      refine ⟨[], [], rfl, ?_⟩
      cases killed <;> cases hrun
      · exact ⟨h, by simp, fun hn _ => ⟨rfl, by simp [replies], by rintro m ⟨⟩; exact hn⟩⟩
      · exact ⟨h, by simp, fun _ _ => ⟨rfl, by simp [replies], by simp⟩⟩
    | cons x xs =>
      obtain ⟨hx, hpop⟩ := h.pop
      rw [if_neg fun e => by simpa using h.r_eq_w.1 e] at hrun
      dsimp only at hrun
      rw [hx] at hrun
      split_ifs at hrun with hD hlt hmapped hnl
      · -- the end of file is left for the next call
        cases hrun
        rw [replies_ret [] (by omega)]
        have hback : i.r + 1 - 1 = i.r := by simp
        exact ⟨[], x :: xs, rfl, by rw [hback]; exact h, by simp,
          fun _ _ => ⟨rfl, by simp, by simp⟩⟩
      · cases hrun
        refine ⟨[x], xs, rfl, hpop, by simp, fun hn _ => ?_⟩
        have hreply : replies target (.ret (target - (n + 1))) [] = [none] := by
          rw [replies, if_pos (by omega)]
          rfl
        rw [hreply]
        exact ⟨by simp [hD, consumed], by simp, by simp⟩
      · cases hrun
        exact ⟨[x], xs, rfl, hpop, by simp, fun _ hall => by simp [hall] at hmapped⟩
      · cases hrun
        refine ⟨[x], xs, rfl, hpop, by simp, fun hn _ => ?_⟩
        rw [replies_ret _ (by omega)]
        exact ⟨by simp [consumed], by simpa using Ne.symm hD, by simp⟩
      · cases hrun
        obtain ⟨ws, zs, rfl, hshows, hmem, hexact⟩ := ih hpop rfl
        refine ⟨x :: ws, zs, rfl, hshows, ?_, fun hn hall => ?_⟩
        · simpa using fun y hy => .inr (hmem y hy)
        · obtain ⟨hws, hnot, hsleep⟩ := hexact (by omega) hall
          refine ⟨by simp [hws, consumed, replies], ?_, hsleep⟩
          simp only [replies, List.map_cons, List.cons_append, List.mem_cons, not_or]
          exact ⟨fun e => hD (Option.some.inj e).symm, hnot⟩

end Shows

theorem killLine_keeps (n : ℕ) (i : Input) :
    (killLine n i).r = i.r ∧ (killLine n i).w = i.w ∧ (killLine n i).buf = i.buf := by
  induction n generalizing i with
  | zero => exact ⟨rfl, rfl, rfl⟩
  | succ n ih =>
    rw [killLine]
    split
    · exact ih _
    · exact ⟨rfl, rfl, rfl⟩

end Input

/-! ### The console -/

/-- One console. -/
structure Tty where
  cons : Input
  /-- The calls of `consoleread` that sleep: the bytes asked for and those still wanted. -/
  reader : ℕ → Option (ℕ × ℕ)
  /-- What has been typed means. -/
  edit : Edit
  /-- The bytes that readers have got, and `none` for a call that has returned 0. -/
  served : List (Option UInt8)

namespace Tty

variable (s : Tty)

/-- The character `c` arrives. -/
def intr (c : UInt8) : Tty :=
  { s with
    cons := s.cons.intr c 0
    edit := s.edit.type (INPUT_BUF - (s.cons.e - s.cons.r).toNat) c }

/-- Process `p` runs the loop of `consoleread`, with `n` of `target` bytes still wanted. -/
def run (p target n : ℕ) (killed : Bool) : Tty :=
  let (e, i, xs) := readLoop target (fun _ => true) killed n s.cons
  { s with
    cons := i
    reader := update s.reader p
      (match e with
        | .ret _ => none
        | .sleep n => some (target, n))
    served := s.served ++ replies target e xs }

/-- The console after `consoleinit`. -/
def start (junk : ℕ → Key) : Tty := ⟨⟨junk, 0, 0, 0⟩, fun _ => none, ⟨[], []⟩, []⟩

end Tty

/-- A step at a console. -/
inductive TtyEvent where
  | intr (c : UInt8)
  /-- Process `p` calls `consoleread`. -/
  | read (p n : ℕ) (killed : Bool)
  /-- Process `p` wakes up in `consoleread`. -/
  | wake (p : ℕ) (killed : Bool)

/-- **A console** and its readers. -/
def tty : Machine Tty TtyEvent where
  next s
    | .intr c => some (s.intr c)
    | .read p n killed => if s.reader p = none then some (s.run p n n killed) else none
    | .wake p killed => (s.reader p).map fun rd => s.run p rd.1 rd.2 killed

/-- The buffer holds what is committed and not yet served, and the line. -/
structure Tty.Inv (s : Tty) : Prop where
  shows : ∃ xs line, s.cons.Shows xs line ∧
    s.edit = ⟨consumed s.served ++ xs.map Key.c, line.map Key.c⟩
  line : newline ∉ s.edit.line
  served : some (ctrl 'D') ∉ s.served
  reader : ∀ p rd, s.reader p = some rd → rd.2 ≤ rd.1

namespace Tty.Inv

variable {s s' : Tty}

theorem intr (h : s.Inv) (c : UInt8) : (s.intr c).Inv := by
  obtain ⟨xs, line, hshows, hedit⟩ := h.shows
  obtain ⟨ys, t, hintr, -, htype⟩ := hshows.intr (consumed s.served ++ xs.map Key.c) c 0
  have hline := h.line
  rw [hedit] at hline
  obtain ⟨hline, htype⟩ := htype hline
  have hedit' : (s.intr c).edit = ⟨consumed s.served ++ (xs ++ ys).map Key.c, t.map Key.c⟩ := by
    rw [Tty.intr, hedit, htype, List.map_append, List.append_assoc]
  exact ⟨⟨_, t, hintr, hedit'⟩, by rwa [hedit'], h.served, h.reader⟩

theorem run (h : s.Inv) {p target n : ℕ} (hn : n ≤ target) (killed : Bool) :
    (s.run p target n killed).Inv := by
  obtain ⟨xs, line, hshows, hedit⟩ := h.shows
  obtain ⟨e, i, ys, hrun⟩ :
      ∃ e i ys, readLoop target (fun _ => true) killed n s.cons = (e, i, ys) := ⟨_, _, _, rfl⟩
  obtain ⟨ws, zs, rfl, hshows', -, hexact⟩ := hshows.readLoop hrun
  obtain ⟨hws, hD, hsleep⟩ := hexact hn fun _ => rfl
  unfold Tty.run
  rw [hrun]
  refine ⟨⟨zs, line, hshows', ?_⟩, h.line, by simpa using ⟨h.served, hD⟩, fun q rd hq => ?_⟩
  · dsimp only
    rw [hedit, List.map_append, hws, ← List.append_assoc]
    simp [consumed]
  · dsimp only at hq
    by_cases hqp : q = p
    · rw [hqp, update_self] at hq
      cases e with
      | ret v => cases hq
      | sleep m =>
        obtain rfl := Option.some.inj hq
        exact hsleep m rfl
    · rw [update_of_ne hqp] at hq
      exact h.reader q rd hq

theorem next {a : TtyEvent} (h : s.Inv) (hst : tty.next s a = some s') : s'.Inv := by
  cases a with
  | intr c =>
    obtain rfl := Option.some.inj hst
    exact h.intr c
  | read p n killed =>
    obtain ⟨-, hst⟩ := Option.ite_none_right_eq_some.1 hst
    obtain rfl := Option.some.inj hst
    exact h.run le_rfl killed
  | wake p killed =>
    obtain ⟨rd, hrd, rfl⟩ := Option.map_eq_some_iff.1 hst
    exact h.run (h.reader p rd hrd) killed

end Tty.Inv

theorem filterMap_prefix {served : List (Option UInt8)} {cs : List UInt8}
    (hD : some (ctrl 'D') ∉ served) (h : consumed served <+: cs) :
    served.filterMap id <+: cs.filter (· ≠ ctrl 'D') := by
  have hfilter : (consumed served).filter (· ≠ ctrl 'D') = served.filterMap id := by
    clear h
    induction served with
    | nil => rfl
    | cons o served ih =>
      rw [List.mem_cons, not_or] at hD
      cases o with
      | none => simpa [consumed] using ih hD.2
      | some x =>
        have hx : x ≠ ctrl 'D' := fun e => hD.1 (e ▸ rfl)
        simpa [consumed, hx] using ih hD.2
  exact hfilter ▸ h.filter _

/-- **The line discipline of a console**, for every interleaving of typed characters and reads.  The
indices are in order; erase and kill-line change nothing that is committed; the bytes that readers
get are, in order, the committed characters without the control-Ds; and each control-D among them is
never a byte but makes one call return 0. -/
theorem console_lines (junk : ℕ → Key) (events : List TtyEvent) (s : Tty)
    (h : tty.Run (fun _ _ => True) (Tty.start junk) events s) :
    (s.cons.w - s.cons.r).toNat ≤ (s.cons.e - s.cons.r).toNat ∧
    (s.cons.e - s.cons.r).toNat ≤ INPUT_BUF ∧
    (∀ c, c = ctrl 'U' ∨ c = ctrl 'H' ∨ c = 0x7f → (s.intr c).cons.r = s.cons.r ∧
      (s.intr c).cons.w = s.cons.w ∧ (s.intr c).cons.buf = s.cons.buf) ∧
    s.served.filterMap id <+: s.edit.committed.filter (· ≠ ctrl 'D') ∧
    consumed s.served <+: s.edit.committed ∧ some (ctrl 'D') ∉ s.served := by
  have hinv : s.Inv := by
    have hstart : (Tty.start junk).cons.Shows [] [] :=
      ⟨by simp [Input.text, Tty.start, Ring.items], by simp [Tty.start], by simp [Tty.start]⟩
    refine h.invariant ⟨⟨[], [], hstart, rfl⟩, List.not_mem_nil, List.not_mem_nil, ?_⟩
      fun s a s' hs _ hst => hs.next hst
    intro p rd hp
    cases hp
  obtain ⟨xs, line, hshows, hedit⟩ := hinv.shows
  have hprefix : consumed s.served <+: s.edit.committed := ⟨xs.map Key.c, by rw [hedit]⟩
  refine ⟨?_, hshows.room, fun c hc => ?_, filterMap_prefix hinv.served hprefix, hprefix,
    hinv.served⟩
  · rw [hshows.length, hshows.length_text]
    exact Nat.le_add_right ..
  have hback : s.cons.backspace.r = s.cons.r ∧ s.cons.backspace.w = s.cons.w ∧
      s.cons.backspace.buf = s.cons.buf := by
    unfold Input.backspace
    split <;> exact ⟨rfl, rfl, rfl⟩
  unfold Tty.intr
  rcases hc with rfl | rfl | rfl
  · exact Input.killLine_keeps _ _
  · exact hback
  · exact hback

/-- The line `hi` is typed and read. -/
theorem console_lines_hi : ∃ s : Tty, tty.Run (fun _ _ => True) (Tty.start fun _ => ⟨0, 0⟩)
      [.intr 104, .intr 105, .intr 10, .read 0 8 false] s ∧
    s.served = [some 104, some 105, some 10] ∧ consumed s.served <+: s.edit.committed := by
  have hrun : tty.Run (fun _ _ => True) (Tty.start fun _ => ⟨0, 0⟩)
      [.intr 104, .intr 105, .intr 10, .read 0 8 false] _ :=
    .cons trivial rfl (.cons trivial rfl (.cons trivial rfl (.cons trivial rfl (.nil _))))
  exact ⟨_, hrun, by rfl, (console_lines _ _ _ hrun).2.2.2.2.1⟩

end Xv6Container
