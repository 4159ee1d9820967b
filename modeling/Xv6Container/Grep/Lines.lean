import Xv6Container.Grep.Match

/-!
# The lines that grep prints

The function `grep` of `user/grep.c` reads its input into a buffer, as much as `read` gives it, and
prints the matching ones of the complete lines.  The rest stays in the buffer for the next round.

A call of `read` returns what is left of the input, at most as much as it is asked for, and it may
return less: the sizes of the pieces are a parameter of the model.  The buffer is NUL-terminated
behind the bytes that are in it, and what is behind the NUL is never read.

* `grep_prints` : **grep prints the matching lines** exactly if none of them is, or comes after, a
  line that does not fit into the buffer with its newline and the NUL;
* `grep_loses_line` : such a line fills the buffer, `read` is asked for no bytes, and grep ends.
-/

namespace Xv6Container

/-- The character `'\n'`. -/
abbrev lineFeed : UInt8 := 10

/-- `sizeof(buf)`. -/
abbrev GREPBUF : ℕ := 1024

/-- `strchr`: how far into `s` the first `c` is. -/
def strchr (s : CharArray) (c : UInt8) : Option ℕ := (str s).findIdx? (· = c)

/-- The loop of `grep` over the lines in the buffer: what it writes, and what it leaves.  Each round
takes a line off, so that the length of `p` is enough `fuel`. -/
def grepLines (pattern : CharArray) : (fuel : ℕ) → (p : CharArray) → CharArray × CharArray
  | 0, p => ([], p)
  | fuel + 1, p =>
    match strchr p lineFeed with
    | none => ([], p)
    | some q =>
      let (out, p') := grepLines pattern fuel (p.drop (q + 1))
      (if grepMatch pattern (p.take q) then p.take (q + 1) ++ out else out, p')

/-- The loop of `grep` with `held` in the buffer and `rest` still to read, where read number `i`
returns no more than `sizes i` bytes.  Each round reads something, so that `fuel` rounds are enough
for less than `fuel` bytes. -/
def grepLoop (pattern : CharArray) (sizes : ℕ → ℕ) :
    (fuel i : ℕ) → (held rest : CharArray) → CharArray
  | 0, _, _, _ => []
  | fuel + 1, i, held, rest =>
    let n := min (sizes i) (min rest.length (GREPBUF - held.length - 1))
    if 0 < n then
      let p := held ++ rest.take n
      let (out, held) := grepLines pattern p.length p
      out ++ grepLoop pattern sizes fuel (i + 1) held (rest.drop n)
    else []

/-- `grep`: what it writes for an input. -/
def grep (pattern : CharArray) (sizes : ℕ → ℕ) (input : CharArray) : CharArray :=
  grepLoop pattern sizes (input.length + 1) 0 [] input

/-- Lines, each with its newline. -/
def unlines (lines : List CharArray) : CharArray := lines.flatMap (· ++ [lineFeed])

/-- The lines that match. -/
def printed (pattern : CharArray) (lines : List CharArray) : CharArray :=
  unlines (lines.filter (grepMatch pattern))

/-- The line fits into the buffer with its newline and the NUL. -/
def InBuf (l : CharArray) : Prop := l.length + 1 < GREPBUF

instance : DecidablePred InBuf := fun l => inferInstanceAs (Decidable (l.length + 1 < GREPBUF))

variable {pattern t : CharArray} {lines : List CharArray}

@[simp] theorem unlines_nil : unlines [] = [] := rfl

@[simp] theorem unlines_cons (l : CharArray) (ls : List CharArray) :
    unlines (l :: ls) = l ++ lineFeed :: unlines ls := by
  simp [unlines]

theorem unlines_append (ls ls' : List CharArray) :
    unlines (ls ++ ls') = unlines ls ++ unlines ls' :=
  List.flatMap_append

theorem printed_append (ls ls' : List CharArray) :
    printed pattern (ls ++ ls') = printed pattern ls ++ printed pattern ls' := by
  rw [printed, List.filter_append, unlines_append, printed, printed]

theorem printed_eq_nil : printed pattern lines = [] ↔ ∀ l ∈ lines, grepMatch pattern l = false := by
  simp [printed, unlines, List.flatMap_eq_nil_iff]

theorem length_le_of_mem {l : CharArray} (h : l ∈ lines) :
    l.length + 1 ≤ (unlines lines).length := by
  obtain ⟨ls, ls', rfl⟩ := List.append_of_mem h
  simp only [unlines_append, unlines_cons, List.length_append, List.length_cons]
  omega

theorem length_le_unlines : lines.length ≤ (unlines lines).length := by
  induction lines with
  | nil => simp
  | cons l lines ih => simp only [unlines_cons, List.length_append, List.length_cons]; omega

theorem strchr_append {l p : CharArray} (hl : lineFeed ∉ l) (h₀ : 0 ∉ l) :
    strchr (l ++ p) lineFeed = (strchr p lineFeed).map (· + l.length) := by
  have hstr : str (l ++ p) = l ++ str p :=
    List.takeWhile_append_of_pos fun x hx => by simpa using ne_of_mem_of_not_mem hx h₀
  have hnone : l.findIdx? (· = lineFeed) = none := by
    simpa using fun x hx => ne_of_mem_of_not_mem hx hl
  rw [strchr, hstr, List.findIdx?_append, hnone]
  rfl

theorem grepLines_eq {fuel : ℕ} (hlines : ∀ l ∈ lines, lineFeed ∉ l ∧ 0 ∉ l) (ht : lineFeed ∉ t)
    (h₀ : 0 ∉ t) (hfuel : lines.length ≤ fuel) :
    grepLines pattern fuel (unlines lines ++ t) = (printed pattern lines, t) := by
  induction lines generalizing fuel with
  | nil =>
    cases fuel with
    | zero => rfl
    | succ fuel =>
      have hnone := @strchr_append t [] ht h₀
      rw [List.append_nil] at hnone
      simp only [unlines_nil, List.nil_append, grepLines, hnone]
      rfl
  | cons l lines ih =>
    obtain ⟨fuel, rfl⟩ : ∃ k, fuel = k + 1 := ⟨fuel - 1, by simp at hfuel; omega⟩
    obtain ⟨hl, hl₀⟩ := hlines l List.mem_cons_self
    have hrec := ih (fun l hl => hlines l (List.mem_cons_of_mem _ hl))
      (Nat.le_of_succ_le_succ hfuel)
    rw [unlines_cons, List.append_assoc, List.cons_append, grepLines, strchr_append hl hl₀]
    have hzero : strchr (lineFeed :: (unlines lines ++ t)) lineFeed = some 0 := by
      rw [strchr, str_cons, if_neg (by decide)]
      rfl
    have hdrop : (l ++ lineFeed :: (unlines lines ++ t)).drop (l.length + 1) =
        unlines lines ++ t := by simp
    have htake : (l ++ lineFeed :: (unlines lines ++ t)).take (l.length + 1) = l ++ [lineFeed] := by
      simp [List.take_append]
    simp only [hzero, Option.map_some, Nat.zero_add, hdrop, htake, hrec, List.take_left', printed,
      List.filter_cons]
    split <;> simp

/-- A beginning of the input consists of complete lines and a piece of the line after them. -/
theorem exists_lines {a b : CharArray} (h : a ++ b = unlines lines)
    (hlines : ∀ l ∈ lines, lineFeed ∉ l) :
    ∃ ls ls' t, lines = ls ++ ls' ∧ a = unlines ls ++ t ∧ lineFeed ∉ t ∧ t ++ b = unlines ls' := by
  induction lines generalizing a with
  | nil => exact ⟨[], [], [], by simp_all⟩
  | cons l lines ih =>
    have hl := hlines l List.mem_cons_self
    rw [unlines_cons, List.append_eq_append_iff] at h
    obtain ⟨c, rfl, rfl⟩ | ⟨c, rfl, hc⟩ := h
    · -- the beginning ends in the first line
      exact ⟨[], _, a, rfl, rfl, fun h => hl (List.mem_append_left _ h), by simp⟩
    · cases c with
      | nil => exact ⟨[], _, l, rfl, by simp, hl, by rw [unlines_cons, hc]; rfl⟩
      | cons x c =>
        obtain ⟨rfl, hc'⟩ := List.cons.inj hc
        obtain ⟨ls, ls', t, rfl, rfl, ht, hb⟩ :=
          ih hc'.symm fun l hl => hlines l (List.mem_cons_of_mem _ hl)
        exact ⟨l :: ls, ls', t, rfl, by simp, ht, hb⟩

/-- The lines before the first one that does not fit are searched. -/
theorem grepLoop_eq {sizes : ℕ → ℕ} (hsizes : ∀ i, 0 < sizes i) {fuel i : ℕ} {held rest : CharArray}
    (hlines : ∀ l ∈ lines, lineFeed ∉ l ∧ 0 ∉ l)
    (hheld : lineFeed ∉ held) (h : held ++ rest = unlines lines) (hfuel : rest.length < fuel) :
    grepLoop pattern sizes fuel i held rest = printed pattern (lines.takeWhile (InBuf ·)) := by
  induction fuel generalizing i held rest lines with
  | zero => omega
  | succ fuel ih =>
    rw [grepLoop]
    split
    · rename_i hn
      obtain ⟨n, hn'⟩ : ∃ n, min (sizes i) (min rest.length (GREPBUF - held.length - 1)) = n :=
        ⟨_, rfl⟩
      rw [hn'] at hn ⊢
      -- the buffer holds complete lines and a piece `t` of the next one
      have hbuf : held ++ rest.take n ++ rest.drop n = unlines lines := by
        rw [List.append_assoc, List.take_append_drop, h]
      obtain ⟨ls, ls', t, rfl, hp, ht, hrest⟩ := exists_lines hbuf fun l hl => (hlines l hl).1
      have h₀ : 0 ∉ t := by
        intro h
        have hmem : 0 ∈ unlines ls' := hrest ▸ List.mem_append_left _ h
        simp only [unlines, List.mem_flatMap, List.mem_append] at hmem
        obtain ⟨l, hl, h | h⟩ := hmem
        · exact (hlines l (List.mem_append_right _ hl)).2 h
        · exact absurd h (by decide)
      have hlen : ls.length ≤ (unlines ls ++ t).length := by
        rw [List.length_append]
        exact length_le_unlines.trans (Nat.le_add_right _ _)
      have hfit : ∀ l ∈ ls, InBuf l := by
        intro l hl
        have hp' := congrArg List.length hp
        have := length_le_of_mem hl
        simp only [List.length_append, List.length_take] at hp'
        unfold InBuf
        omega
      simp only [hp]
      rw [grepLines_eq (fun l hl => hlines l (List.mem_append_left _ hl)) ht h₀ hlen]
      simp only
      rw [ih (fun l hl => hlines l (List.mem_append_right _ hl)) ht hrest (by simp; omega),
        List.takeWhile_append_of_pos fun l hl => by simpa using hfit l hl, printed_append]
    · -- the buffer is full of a piece of a line, or there is nothing to read
      rename_i hn
      have := hsizes i
      cases lines with
      | nil => rfl
      | cons l lines =>
        rw [unlines_cons, List.append_eq_append_iff] at h
        obtain ⟨c, rfl, rfl⟩ | ⟨c, rfl, hc⟩ := h
        · have hlong : ¬InBuf (held ++ c) := by
            simp only [List.length_append, List.length_cons] at hn
            simp only [InBuf, List.length_append]
            omega
          simp [hlong, printed]
        · cases c with
          | nil =>
            have hlong : ¬InBuf l := by
              simp only [List.nil_append] at hc
              simp only [← hc, List.append_nil, List.length_cons] at hn
              simp only [InBuf]
              omega
            simp [hlong, printed]
          | cons x c =>
            obtain ⟨rfl, -⟩ := List.cons.inj hc
            exact absurd hheld (by simp)

/-- **grep prints exactly the lines that match**, complete and in order and however `read` splits
the input, if and only if no line matches from the first one on that does not fit into the buffer
with its newline and the NUL. -/
theorem grep_prints (pattern : CharArray) (sizes : ℕ → ℕ) (hsizes : ∀ i, 0 < sizes i)
    (lines : List CharArray) (hlines : ∀ l ∈ lines, lineFeed ∉ l ∧ 0 ∉ l) :
    grep pattern sizes (unlines lines) = unlines (lines.filter (grepMatch pattern)) ↔
      ∀ l ∈ lines.dropWhile (InBuf ·), grepMatch pattern l = false := by
  have hall : unlines (lines.filter (grepMatch pattern)) =
      printed pattern (lines.takeWhile (InBuf ·)) ++
        printed pattern (lines.dropWhile (InBuf ·)) := by
    rw [← printed_append, List.takeWhile_append_dropWhile, printed]
  rw [grep, grepLoop_eq hsizes hlines (by simp) rfl (Nat.lt_succ_self _), hall,
    List.self_eq_append_right, printed_eq_nil]

theorem grep_prints_two : grep (chars "b") (fun _ => 2) (unlines [chars "ab", chars "c"]) =
    unlines ([chars "ab", chars "c"].filter (grepMatch (chars "b"))) :=
  (grep_prints _ _ (fun _ => Nat.two_pos) _ (by decide)).2 (by decide)

/-- **A line that fills the buffer** is lost: `read` is asked for no bytes, and grep ends. -/
theorem grep_loses_line :
    grep (chars "a") (fun _ => 1023) (unlines [List.replicate 1023 97]) = [] ∧
      grepMatch (chars "a") (List.replicate 1023 97) = true := by
  decide +kernel

end Xv6Container
