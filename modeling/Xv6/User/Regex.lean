/-
# The regular expressions of grep (grep.c)

`match` looks for a pattern anywhere in a text, or only at its start if the pattern begins with `^`;
`matchhere` compares the pattern with the start of a text, one character of the pattern after the
other, and `matchstar` tries every number of repetitions of a starred character, the smallest first.

The declarative reading takes a pattern apart into ITEMS.  A character with a `*` behind it is a
starred item, any other character is a plain one, and a `$` at the very end is neither: it asks that
the text ends there.  Every item has a language, the pattern has their product, and a text matches if
one of its substrings is in that language (`Found`).

Strings are the lists of their characters, without the NUL: that `re[0]` or `*text` is NUL is that
the list is empty.
-/
import Xv6.Bytes

namespace Xv6.Grep

open Xv6.Bytes Computability

/-! ## 1. The matcher -/

/-- The characters that mean something in a pattern. -/
def caret : Byte := 94
def star : Byte := 42
def dollar : Byte := 36
def period : Byte := 46

mutual

/-- `matchhere(re, text)`: search for `re` at the beginning of `text`. -/
def matchhere (re text : List Byte) : Bool :=
  match re with
  | [] => true
  | c :: re' =>
    if re'.head? = some star then matchstar c re'.tail text
    else if c = dollar ∧ re' = [] then text.isEmpty
    else
      match text with
      | [] => false
      | t :: text' => if c = period ∨ c = t then matchhere re' text' else false
termination_by (re.length, text.length, 0)

/-- `matchstar(c, re, text)`: search for `c*re` at the beginning of `text`. -/
def matchstar (c : Byte) (re text : List Byte) : Bool :=
  if matchhere re text then true
  else
    match text with
    | [] => false
    | t :: text' => if t = c ∨ c = period then matchstar c re text' else false
termination_by (re.length, text.length, 1)

end

/-- The loop of `match`, which must look at the empty string too. -/
def matchLoop (re : List Byte) : List Byte → Bool
  | [] => matchhere re []
  | t :: text => if matchhere re (t :: text) then true else matchLoop re text

/-- `match(re, text)`. -/
def matchText (re text : List Byte) : Bool :=
  if re.head? = some caret then matchhere re.tail text else matchLoop re text

/-! ## 2. What patterns mean -/

/-- An item of a pattern. -/
inductive Item where
  | plain (c : Byte)
  | starred (c : Byte)
  deriving DecidableEq, Repr

/-- The items of a pattern without its `^`, from left to right, and whether it ends in a plain `$`. -/
def items : List Byte → List Item × Bool
  | [] => ([], false)
  | [c] => if c = dollar then ([], true) else ([.plain c], false)
  | c :: d :: re =>
    if d = star then (.starred c :: (items re).1, (items re).2)
    else (.plain c :: (items (d :: re)).1, (items (d :: re)).2)

/-- The character `t` is one that `c` stands for. -/
def Fits (c t : Byte) : Prop := c = period ∨ c = t

/-- The one-character strings that `c` stands for. -/
def single (c : Byte) : Language Byte := {w | ∃ t, Fits c t ∧ w = [t]}

/-- The language of an item. -/
def Item.language : Item → Language Byte
  | .plain c => single c
  | .starred c => (single c)∗

/-- The language of a list of items. -/
def language (is : List Item) : Language Byte := (is.map Item.language).prod

/-- **The text contains a substring in the language of the pattern.** -/
def Found (re text : List Byte) : Prop :=
  let anchored := re.head? = some caret
  let body := if anchored then re.tail else re
  ∃ before w after, text = before ++ w ++ after ∧ w ∈ language (items body).1 ∧
    (anchored → before = []) ∧ ((items body).2 = true → after = [])

/-- A text that starts with a string in the language of the pattern, and ends with it if the pattern
says so. -/
def Starts (re text : List Byte) : Prop :=
  ∃ w after, text = w ++ after ∧ w ∈ language (items re).1 ∧ ((items re).2 = true → after = [])

/-! ## 3. The matcher does what they mean -/

@[simp] theorem language_nil : language [] = 1 := rfl

theorem mem_language_cons {i : Item} {is : List Item} {w : List Byte} :
    w ∈ language (i :: is) ↔ ∃ u ∈ i.language, ∃ v ∈ language is, u ++ v = w := by
  rw [language, List.map_cons, List.prod_cons]
  exact Language.mem_mul

/-- The language of a starred character. -/
theorem mem_starred {c : Byte} {w : List Byte} :
    w ∈ (Item.starred c).language ↔ ∀ t ∈ w, Fits c t := by
  rw [Item.language, Language.mem_kstar]
  constructor
  · rintro ⟨L, rfl, hL⟩ t ht
    obtain ⟨y, hy, hty⟩ := List.mem_flatten.mp ht
    obtain ⟨t', hfit, rfl⟩ := hL y hy
    rw [List.mem_singleton.mp hty]
    exact hfit
  · intro h
    refine ⟨w.map fun t => [t], by rw [← List.flatMap_def, List.flatMap_singleton'], fun y hy => ?_⟩
    obtain ⟨t, ht, rfl⟩ := List.mem_map.mp hy
    exact ⟨t, h t ht, rfl⟩

/-- A pattern that starts with a starred character. -/
theorem starts_starred {c : Byte} {re text : List Byte} :
    Starts (c :: star :: re) text ↔
      ∃ u rest, text = u ++ rest ∧ (∀ t ∈ u, Fits c t) ∧ Starts re rest := by
  have hitems : items (c :: star :: re) = (.starred c :: (items re).1, (items re).2) := by
    rw [items, if_pos rfl]
  simp only [Starts, hitems, mem_language_cons, mem_starred]
  constructor
  · rintro ⟨w, after, rfl, ⟨u, hu, v, hv, rfl⟩, hend⟩
    exact ⟨u, v ++ after, by simp, hu, v, after, rfl, hv, hend⟩
  · rintro ⟨u, rest, rfl, hu, v, after, rfl, hv, hend⟩
    exact ⟨u ++ v, after, by simp, ⟨u, hu, v, hv, rfl⟩, hend⟩

/-- A pattern that starts with a plain character. -/
theorem starts_plain {c : Byte} {re text : List Byte} (hstar : re.head? ≠ some star)
    (hend : ¬(c = dollar ∧ re = [])) :
    Starts (c :: re) text ↔ ∃ t rest, text = t :: rest ∧ Fits c t ∧ Starts re rest := by
  have hitems : items (c :: re) = (.plain c :: (items re).1, (items re).2) := by
    cases re with
    | nil =>
      have hne : c ≠ dollar := fun h => hend ⟨h, rfl⟩
      simp only [items, if_neg hne]
    | cons d re => rw [items, if_neg fun h => hstar (by rw [h]; rfl)]
  simp only [Starts, hitems, mem_language_cons]
  constructor
  · rintro ⟨w, after, rfl, ⟨_, ⟨t, ht, rfl⟩, v, hv, rfl⟩, hend⟩
    exact ⟨t, v ++ after, by simp, ht, v, after, rfl, hv, hend⟩
  · rintro ⟨t, rest, rfl, ht, v, after, rfl, hv, hend⟩
    exact ⟨t :: v, after, by simp, ⟨[t], ⟨t, ht, rfl⟩, v, hv, rfl⟩, hend⟩

theorem starts_nil {text : List Byte} : Starts [] text := ⟨[], text, rfl, rfl, nofun⟩

theorem starts_dollar {text : List Byte} : Starts [dollar] text ↔ text = [] := by
  have hitems : items [dollar] = ([], true) := by rw [items, if_pos rfl]
  simp only [Starts, hitems, language_nil, Language.mem_one]
  constructor
  · rintro ⟨w, after, rfl, rfl, hend⟩
    rw [hend trivial]
    rfl
  · rintro rfl
    exact ⟨[], [], rfl, rfl, fun _ => rfl⟩

/-- **`matchstar`**, where `matchhere` is known for what follows the star. -/
theorem matchstar_iff {c : Byte} {re : List Byte}
    (hre : ∀ text, matchhere re text = true ↔ Starts re text) (text : List Byte) :
    matchstar c re text = true ↔
      ∃ u rest, text = u ++ rest ∧ (∀ t ∈ u, Fits c t) ∧ Starts re rest := by
  induction text with
  | nil =>
    rw [matchstar]
    simp only [Bool.if_true_left, Bool.or_false, decide_eq_true_eq, hre]
    constructor
    · exact fun h => ⟨[], [], rfl, nofun, h⟩
    · rintro ⟨u, rest, hnil, _, h⟩
      obtain ⟨rfl, rfl⟩ := List.append_eq_nil_iff.mp hnil.symm
      exact h
  | cons t text ih =>
    have hunfold : matchstar c re (t :: text) = true ↔
        Starts re (t :: text) ∨ (Fits c t ∧ matchstar c re text = true) := by
      rw [matchstar]
      simp only [Bool.if_true_left, Bool.or_eq_true, decide_eq_true_eq, hre, Bool.if_false_right,
        Bool.and_eq_true, Fits]
      rw [or_comm (a := c = period), eq_comm (a := t)]
    rw [hunfold, ih]
    constructor
    · rintro (h | ⟨hfit, u, rest, rfl, hu, h⟩)
      · exact ⟨[], t :: text, rfl, nofun, h⟩
      · exact ⟨t :: u, rest, rfl, List.forall_mem_cons.mpr ⟨hfit, hu⟩, h⟩
    · rintro ⟨u, rest, hsplit, hu, h⟩
      cases u with
      | nil =>
        rw [List.nil_append] at hsplit
        exact .inl (hsplit ▸ h)
      | cons t' u =>
        rw [List.cons_append, List.cons.injEq] at hsplit
        obtain ⟨rfl, rfl⟩ := hsplit
        obtain ⟨hfit, hu⟩ := List.forall_mem_cons.mp hu
        exact .inr ⟨hfit, u, rest, rfl, hu, h⟩

/-- **`matchhere`**: by induction on the pattern, which each call takes an item off. -/
theorem matchhere_iff (re text : List Byte) : matchhere re text = true ↔ Starts re text := by
  induction hlen : re.length using Nat.strong_induction_on generalizing re text with
  | _ n ih =>
    subst hlen
    rw [matchhere.eq_def]
    cases re with
    | nil => exact iff_of_true rfl starts_nil
    | cons c re =>
      simp only
      by_cases hstar : re.head? = some star
      · obtain ⟨rest, rfl⟩ : ∃ rest, re = star :: rest := by
          cases re with
          | nil => cases hstar
          | cons d rest => exact ⟨rest, by rw [Option.some.inj hstar]⟩
        rw [if_pos hstar, starts_starred]
        exact matchstar_iff (fun text => ih _ (by simp only [List.length_cons]; omega) rest text rfl) text
      · rw [if_neg hstar]
        by_cases hend : c = dollar ∧ re = []
        · obtain ⟨rfl, rfl⟩ := hend
          rw [if_pos ⟨rfl, rfl⟩, starts_dollar, List.isEmpty_iff]
        · rw [if_neg hend, starts_plain hstar hend]
          cases text with
          | nil => simp
          | cons t text =>
            have hrest := ih re.length (by simp) re text rfl
            simp only [Bool.if_false_right, Bool.and_eq_true, decide_eq_true_eq, hrest]
            constructor
            · rintro ⟨hfit, h⟩
              exact ⟨t, text, rfl, hfit, h⟩
            · rintro ⟨t', rest, hsplit, hfit, h⟩
              cases hsplit
              exact ⟨hfit, h⟩

/-- The loop of `match` tries every suffix. -/
theorem matchLoop_iff (re text : List Byte) :
    matchLoop re text = true ↔ ∃ before rest, text = before ++ rest ∧ Starts re rest := by
  induction text with
  | nil =>
    rw [matchLoop, matchhere_iff]
    constructor
    · exact fun h => ⟨[], [], rfl, h⟩
    · rintro ⟨before, rest, hnil, h⟩
      obtain ⟨rfl, rfl⟩ := List.append_eq_nil_iff.mp hnil.symm
      exact h
  | cons t text ih =>
    simp only [matchLoop, Bool.if_true_left, Bool.or_eq_true, decide_eq_true_eq, matchhere_iff, ih]
    constructor
    · rintro (h | ⟨before, rest, rfl, h⟩)
      · exact ⟨[], t :: text, rfl, h⟩
      · exact ⟨t :: before, rest, rfl, h⟩
    · rintro ⟨before, rest, hsplit, h⟩
      cases before with
      | nil =>
        rw [List.nil_append] at hsplit
        exact .inl (hsplit ▸ h)
      | cons t' before =>
        rw [List.cons_append, List.cons.injEq] at hsplit
        exact .inr ⟨before, rest, hsplit.2, h⟩

/-- **The matcher is correct.**  For every pattern and every text, `match` returns 1 exactly if the
text contains a substring in the language of the pattern. -/
theorem match_iff_found (re text : List Byte) : matchText re text = true ↔ Found re text := by
  unfold matchText Found
  by_cases hcaret : re.head? = some caret
  · simp only [hcaret, if_true, forall_const]
    rw [matchhere_iff]
    constructor
    · rintro ⟨w, after, rfl, hw, hend⟩
      exact ⟨[], w, after, rfl, hw, rfl, hend⟩
    · rintro ⟨before, w, after, rfl, hw, rfl, hend⟩
      exact ⟨w, after, rfl, hw, hend⟩
  · simp only [hcaret, if_false, false_imp_iff, true_and]
    rw [matchLoop_iff]
    constructor
    · rintro ⟨before, _, rfl, w, after, rfl, hw, hend⟩
      exact ⟨before, w, after, (List.append_assoc ..).symm, hw, hend⟩
    · rintro ⟨before, w, after, rfl, hw, hend⟩
      exact ⟨before, w ++ after, List.append_assoc .., w, after, rfl, hw, hend⟩

end Xv6.Grep
