import Mathlib.Computability.Language
import Xv6Container.Data.CString

/-!
# The matcher of grep

The functions `match`, `matchhere` and `matchstar` of `user/grep.c`.  Patterns and texts are strings
with their terminator left out, so that a character that is not there reads as NUL.

* `grepMatch_iff` : **the matcher finds exactly the texts with a substring in the language of the
  pattern.**
-/

namespace Xv6Container

open Computability

/-- The character `^`. -/
abbrev caret : UInt8 := 94

/-- The character `$`. -/
abbrev dollar : UInt8 := 36

/-- The character `*`. -/
abbrev asterisk : UInt8 := 42

/-- The character `.`. -/
abbrev dot : UInt8 := 46

/-- `matchstar`: search for `c*re` at the beginning of the text, where `here` is `matchhere` with
the pattern `re`. -/
def matchstar (c : UInt8) (here : CharArray → Bool) : CharArray → Bool
  | [] => here []
  | x :: text => here (x :: text) || (x = c || c = dot) && matchstar c here text

/-- `matchhere`: search for `re` at the beginning of the text. -/
def matchhere : CharArray → CharArray → Bool
  | [], _ => true
  | [c], text =>
    if c = dollar then text = []
    else
      match text with
      | [] => false
      | x :: _ => c = dot || c = x
  | c :: d :: re, text =>
    if d = asterisk then matchstar c (matchhere re) text
    else
      match text with
      | [] => false
      | x :: text => (c = dot || c = x) && matchhere (d :: re) text

/-- The loop of `match`. -/
def matchLoop (re : CharArray) : CharArray → Bool
  | [] => matchhere re []
  | x :: text => matchhere re (x :: text) || matchLoop re text

/-- `match`. -/
def grepMatch (re text : CharArray) : Bool :=
  if re.head? = some caret then matchhere re.tail text else matchLoop re text

/-! ### The language of a pattern -/

/-- The one-letter words for a character of a pattern. -/
def letters (c : UInt8) : Language UInt8 := {v | ∃ x, v = [x] ∧ (c = dot ∨ c = x)}

/-- The language of a pattern without anchors. -/
def language : CharArray → Language UInt8
  | [] => 1
  | [c] => letters c
  | c :: d :: re =>
    if d = asterisk then (letters c)∗ * language re else letters c * language (d :: re)

/-- A pattern without the `$` at its end. -/
def stem (re : CharArray) : CharArray := if re.getLast? = some dollar then re.dropLast else re

/-- A pattern without the `^` at its start. -/
def unanchored (re : CharArray) : CharArray := if re.head? = some caret then re.tail else re

/-- A beginning of the text is in the language of the pattern, and all of it if this ends in `$`. -/
def Here (re text : CharArray) : Prop :=
  ∃ v w, text = v ++ w ∧ v ∈ language (stem re) ∧ (re.getLast? = some dollar → w = [])

variable {c d : UInt8} {re text : CharArray}

theorem language_cons (h : re.head? ≠ some asterisk) :
    language (c :: re) = letters c * language re := by
  cases re with
  | nil => exact (mul_one _).symm
  | cons d re => rw [language, if_neg (by simpa using h)]

theorem stem_cons (h : re = [] → c ≠ dollar) : stem (c :: re) = c :: stem re ∧
    ((c :: re).getLast? = some dollar ↔ re.getLast? = some dollar) := by
  cases re with
  | nil => simp [stem, h rfl]
  | cons d re =>
    simp only [stem, List.getLast?_cons_cons, List.dropLast_cons_cons, and_true]
    split_ifs <;> rfl

theorem head?_stem (h : re.head? ≠ some asterisk) : (stem re).head? ≠ some asterisk := by
  unfold stem
  split_ifs
  · match re with
    | [] => simp
    | [_] => simp
    | _ :: _ :: _ => simpa using h
  · exact h

theorem mem_star_letters {v : CharArray} : v ∈ (letters c)∗ ↔ ∀ x ∈ v, c = dot ∨ c = x := by
  rw [Language.mem_kstar]
  constructor
  · rintro ⟨vs, rfl, hvs⟩ x hx
    obtain ⟨v, hv, hx⟩ := List.mem_flatten.1 hx
    obtain ⟨y, rfl, hy⟩ := hvs v hv
    obtain rfl := List.mem_singleton.1 hx
    exact hy
  · intro h
    refine ⟨v.map fun x => [x], by simp [← List.flatMap_def], fun u hu => ?_⟩
    obtain ⟨x, hx, rfl⟩ := List.mem_map.1 hu
    exact ⟨x, rfl, h x hx⟩

/-! ### The functions -/

theorem matchstar_iff {here : CharArray → Bool} :
    matchstar c here text = true ↔
      ∃ v w, text = v ++ w ∧ v ∈ (letters c)∗ ∧ here w = true := by
  simp only [mem_star_letters]
  induction text with
  | nil => simp [matchstar]
  | cons x text ih =>
    simp only [matchstar, Bool.or_eq_true, Bool.and_eq_true, decide_eq_true_eq, ih]
    constructor
    · rintro (h | ⟨hx, v, w, rfl, hv, h⟩)
      · exact ⟨[], x :: text, rfl, by simp, h⟩
      · refine ⟨x :: v, w, rfl, ?_, h⟩
        rintro y (_ | ⟨_, hy⟩)
        · exact hx.symm.imp_right Eq.symm
        · exact hv y hy
    · rintro ⟨v, w, htext, hv, h⟩
      cases v with
      | nil => exact .inl (htext ▸ h)
      | cons y v =>
        obtain ⟨rfl, rfl⟩ := List.cons.inj htext
        refine .inr ⟨?_, v, w, rfl, fun z hz => hv z (List.mem_cons_of_mem _ hz), h⟩
        exact (hv x List.mem_cons_self).symm.imp_left Eq.symm

@[simp] theorem here_nil : Here [] text := ⟨[], text, rfl, rfl, by simp⟩

/-- A character of the pattern that no `*` follows takes one character of the text. -/
theorem here_cons (hc : re = [] → c ≠ dollar) (hre : re.head? ≠ some asterisk) :
    Here (c :: re) text ↔ ∃ x t, text = x :: t ∧ (c = dot ∨ c = x) ∧ Here re t := by
  obtain ⟨hstem, hlast⟩ := stem_cons hc
  unfold Here
  rw [hstem, language_cons (head?_stem hre), hlast]
  constructor
  · rintro ⟨_, w, rfl, hv, hw⟩
    obtain ⟨_, ⟨x, rfl, hx⟩, v, hv', rfl⟩ := Language.mem_mul.1 hv
    exact ⟨x, v ++ w, rfl, hx, v, w, rfl, hv', hw⟩
  · rintro ⟨x, _, rfl, hx, v, w, rfl, hv, hw⟩
    exact ⟨x :: v, w, rfl, Language.mem_mul.2 ⟨[x], ⟨x, rfl, hx⟩, v, hv, rfl⟩, hw⟩

theorem here_star :
    Here (c :: asterisk :: re) text ↔ ∃ v w, text = v ++ w ∧ v ∈ (letters c)∗ ∧ Here re w := by
  obtain ⟨hstem, hlast⟩ := @stem_cons c (asterisk :: re) (by simp)
  obtain ⟨hstem', hlast'⟩ := @stem_cons asterisk re fun _ => by decide
  unfold Here
  rw [hstem, hstem', hlast, hlast', language, if_pos rfl]
  constructor
  · rintro ⟨_, w, rfl, hv, hw⟩
    obtain ⟨v₁, hv₁, v₂, hv₂, rfl⟩ := Language.mem_mul.1 hv
    exact ⟨v₁, v₂ ++ w, List.append_assoc .., hv₁, v₂, w, rfl, hv₂, hw⟩
  · rintro ⟨v₁, _, rfl, hv₁, v₂, w, rfl, hv₂, hw⟩
    exact ⟨v₁ ++ v₂, w, (List.append_assoc ..).symm, Language.mem_mul.2 ⟨v₁, hv₁, v₂, hv₂, rfl⟩, hw⟩

theorem here_dollar : Here [dollar] text ↔ text = [] := by
  simp [Here, stem, language]

-- The recursion is on the pattern; a starred character takes two of its characters at once.
theorem matchhere_iff : ∀ re text, matchhere re text = true ↔ Here re text
  | [], text => by simp [matchhere]
  | [c], text => by
    by_cases hc : c = dollar
    · simp [matchhere, hc, here_dollar]
    · rw [here_cons (fun _ => hc) (by simp)]
      cases text <;> simp [matchhere, hc]
  | c :: d :: re, text => by
    by_cases hd : d = asterisk
    · rw [hd, here_star]
      simp only [matchhere, if_true, matchstar_iff, matchhere_iff re]
    · rw [here_cons (by simp) (by simpa using hd)]
      cases text <;> simp [matchhere, hd, matchhere_iff (d :: re)]

theorem matchLoop_iff : matchLoop re text = true ↔ ∃ u t, text = u ++ t ∧ Here re t := by
  induction text with
  | nil => simp [matchLoop, matchhere_iff]
  | cons x text ih =>
    simp only [matchLoop, Bool.or_eq_true, matchhere_iff, ih]
    constructor
    · rintro (h | ⟨u, t, rfl, h⟩)
      · exact ⟨[], _, rfl, h⟩
      · exact ⟨x :: u, t, rfl, h⟩
    · rintro ⟨u, t, htext, h⟩
      cases u with
      | nil => exact .inl (htext ▸ h)
      | cons y u =>
        obtain ⟨rfl, rfl⟩ := List.cons.inj htext
        exact .inr ⟨u, t, rfl, h⟩

/-- **The matcher finds exactly the texts with a substring in the language of the pattern**, at the
start of the text if the pattern starts with `^`, and at its end if it ends in `$`. -/
theorem grepMatch_iff (re text : CharArray) :
    grepMatch re text = true ↔ ∃ u v w, text = u ++ v ++ w ∧ v ∈ language (stem (unanchored re)) ∧
      (re.head? = some caret → u = []) ∧ ((unanchored re).getLast? = some dollar → w = []) := by
  have hloop : grepMatch re text = true ↔
      ∃ u t, text = u ++ t ∧ Here (unanchored re) t ∧ (re.head? = some caret → u = []) := by
    unfold grepMatch unanchored
    split_ifs with h
    · rw [matchhere_iff]
      simp [h]
    · rw [matchLoop_iff]
      simp [h]
  rw [hloop]
  constructor
  · rintro ⟨u, _, rfl, ⟨v, w, rfl, hv, hw⟩, hu⟩
    exact ⟨u, v, w, (List.append_assoc ..).symm, hv, hu, hw⟩
  · rintro ⟨u, v, w, rfl, hv, hu, hw⟩
    exact ⟨u, v ++ w, List.append_assoc .., ⟨v, w, rfl, hv, hw⟩, hu⟩

end Xv6Container
