/-
# Text addressed by bytes

Text is a list of characters, but positions in it are counted in UTF-8 bytes:
a search answers with a byte index, and a cut at a byte index succeeds only
between two characters. This module has the searches and the cuts, and the laws
by which text put together from parts is taken apart again.
-/

import Mathlib.Algebra.Ring.Nat
import Mathlib.Data.List.Infix

namespace BurnLm.Math

/-- Text, character by character. -/
abbrev Text : Type := List Char

namespace Text

/-- Length in bytes. -/
def byteLen (text : Text) : ℕ := (text.map Char.utf8Size).sum

@[simp]
theorem byteLen_nil : byteLen [] = 0 := rfl

@[simp]
theorem byteLen_cons (char : Char) (text : Text) :
    byteLen (char :: text) = char.utf8Size + byteLen text := by
  simp [byteLen]

@[simp]
theorem byteLen_append (first second : Text) :
    byteLen (first ++ second) = byteLen first + byteLen second := by
  simp [byteLen]

/-- The text from a byte index on. Nothing if the index is past the end or
inside a character. -/
def dropBytes : Text → ℕ → Option Text
  | [], index => if index = 0 then some [] else none
  | char :: text, index =>
    if index = 0 then some (char :: text)
    else if char.utf8Size ≤ index then dropBytes text (index - char.utf8Size)
    else none

@[simp]
theorem dropBytes_zero (text : Text) : dropBytes text 0 = some text := by
  cases text <;> simp [dropBytes]

/-- A cut behind a part leaves the rest. -/
@[simp]
theorem dropBytes_append (first second : Text) :
    dropBytes (first ++ second) (byteLen first) = some second := by
  induction first with
  | nil => simp
  | cons char first ih =>
      have hpos : char.utf8Size + byteLen first ≠ 0 := by
        have := char.utf8Size_pos
        omega
      rw [List.cons_append, dropBytes, byteLen_cons, if_neg hpos,
        if_pos (Nat.le_add_right _ _), Nat.add_sub_cancel_left, ih]

/-- The text up to a byte index. -/
def takeBytes : Text → ℕ → Option Text
  | [], index => if index = 0 then some [] else none
  | char :: text, index =>
    if index = 0 then some []
    else if char.utf8Size ≤ index then
      (takeBytes text (index - char.utf8Size)).map (char :: ·)
    else none

@[simp]
theorem takeBytes_append (first second : Text) :
    takeBytes (first ++ second) (byteLen first) = some first := by
  induction first with
  | nil => cases second <;> simp [takeBytes]
  | cons char first ih =>
      have hpos : char.utf8Size + byteLen first ≠ 0 := by
        have := char.utf8Size_pos
        omega
      rw [List.cons_append, takeBytes, byteLen_cons, if_neg hpos,
        if_pos (Nat.le_add_right _ _), Nat.add_sub_cancel_left, ih, Option.map_some]

/-- The text between two byte indices. -/
def slice (text : Text) (start stop : ℕ) : Option Text :=
  (text.dropBytes start).bind fun rest => rest.takeBytes (stop - start)

/-- A cut between two parts leaves what is between. -/
theorem slice_append (first middle last : Text) :
    slice (first ++ (middle ++ last)) (byteLen first) (byteLen first + byteLen middle) =
      some middle := by
  rw [slice, dropBytes_append, Option.bind_some, Nat.add_sub_cancel_left, takeBytes_append]

/-! ## Searches -/

/-- The byte index of a pattern's first occurrence. -/
def find (pattern : Text) : Text → Option ℕ
  | [] => if pattern <+: [] then some 0 else none
  | char :: text =>
    if pattern <+: char :: text then some 0
    else (find pattern text).map (· + char.utf8Size)

/-- The byte index of a pattern's last occurrence. -/
def rfind (pattern : Text) : Text → Option ℕ
  | [] => if pattern <+: [] then some 0 else none
  | char :: text =>
    match rfind pattern text with
    | some index => some (index + char.utf8Size)
    | none => if pattern <+: char :: text then some 0 else none

/-- A character the pattern does not have keeps its occurrences on one side. -/
theorem infix_append_cons_iff {pattern before after : Text} {separator : Char}
    (hseparator : separator ∉ pattern) :
    pattern <:+: before ++ separator :: after ↔ pattern <:+: before ∨ pattern <:+: after := by
  constructor
  · intro hinside
    rcases List.infix_append_iff.mp hinside with hinside | hinside | ⟨left, right, rfl, hleft, hright⟩
    · exact Or.inl hinside
    · rcases List.infix_cons_iff.mp hinside with ⟨rest, hrest⟩ | hinside
      · cases pattern with
        | nil => exact Or.inl List.nil_infix
        | cons char pattern =>
            exact absurd (List.cons.inj hrest).1.symm (by simp_all)
      · exact Or.inr hinside
    · cases right with
      | nil => exact Or.inl (by simpa using hleft.isInfix)
      | cons char right =>
          obtain ⟨rfl, -⟩ := List.cons_prefix_cons.mp hright
          simp at hseparator
  · rintro (hinside | hinside)
    · exact List.infix_append_of_infix_left hinside
    · exact List.infix_append_of_infix_right (hinside.trans (List.suffix_cons _ _).isInfix)

/-- A pattern that starts before a separator it does not have ends before it. -/
theorem prefix_of_prefix_append_cons {pattern before after : Text} {separator : Char}
    (hseparator : separator ∉ pattern) (hstart : pattern <+: before ++ separator :: after) :
    pattern <+: before := by
  rcases List.prefix_or_prefix_of_prefix hstart (List.prefix_append before _) with hle | ⟨rest, rfl⟩
  · exact hle
  · rw [List.prefix_append_right_inj] at hstart
    cases rest with
    | nil => simp
    | cons char rest =>
        obtain ⟨rfl, -⟩ := List.cons_prefix_cons.mp hstart
        simp at hseparator

/-- **The first occurrence.** A pattern that stands behind a separator it does
not have, and does not occur before the separator, is found there. -/
theorem find_append_cons {pattern before after : Text} {separator : Char}
    (hseparator : separator ∉ pattern) (hpattern : pattern ≠ [])
    (hbefore : ¬ pattern <:+: before) :
    find pattern (before ++ separator :: (pattern ++ after)) =
      some (byteLen before + separator.utf8Size) := by
  induction before with
  | nil =>
      have hmiss : ¬ pattern <+: separator :: (pattern ++ after) := fun hstart =>
        hpattern (List.prefix_nil.mp
          (@prefix_of_prefix_append_cons _ [] _ _ hseparator hstart))
      have hhere : find pattern (pattern ++ after) = some 0 := by
        cases pattern with
        | nil => exact absurd rfl hpattern
        | cons char pattern => simp [find, List.prefix_append]
      simp [find, hmiss, hhere]
  | cons char before ih =>
      have hmiss : ¬ pattern <+: char :: before ++ separator :: (pattern ++ after) := fun hstart =>
        hbefore (prefix_of_prefix_append_cons hseparator hstart).isInfix
      have hrest := ih fun hinside => hbefore (hinside.trans (List.suffix_cons _ _).isInfix)
      rw [List.cons_append] at hmiss ⊢
      rw [find, if_neg hmiss, hrest, Option.map_some, byteLen_cons]
      congr 1
      omega

/-- A pattern that does not occur is not found. -/
theorem rfind_eq_none {pattern text : Text} (htext : ¬ pattern <:+: text) :
    rfind pattern text = none := by
  induction text with
  | nil => exact if_neg fun hstart => htext hstart.isInfix
  | cons char text ih =>
      have hrest := ih fun hinside => htext (hinside.trans (List.suffix_cons _ _).isInfix)
      rw [rfind, hrest]
      exact if_neg fun hstart => htext hstart.isInfix

/-- A last occurrence stays the last behind more text in front. -/
theorem rfind_append {pattern text : Text} {index : ℕ} (htext : rfind pattern text = some index)
    (before : Text) : rfind pattern (before ++ text) = some (byteLen before + index) := by
  induction before with
  | nil => simpa using htext
  | cons char before ih =>
      rw [List.cons_append, rfind, ih, byteLen_cons]
      simp only [Option.some.injEq]
      omega

/-- **The last occurrence.** A pattern in front of a separator it does not have,
that does not occur behind the separator, is found there. -/
theorem rfind_append_cons {pattern after : Text} {separator : Char}
    (hseparator : separator ∉ pattern) (hpattern : pattern ≠ []) (hafter : ¬ pattern <:+: after)
    (before : Text) :
    rfind pattern (before ++ (pattern ++ separator :: after)) = some (byteLen before) := by
  refine @rfind_append _ _ 0 ?_ before
  cases pattern with
  | nil => exact absurd rfl hpattern
  | cons char pattern =>
      have hlater : rfind (char :: pattern) (pattern ++ separator :: after) = none := by
        refine rfind_eq_none fun hinside => ?_
        rcases (infix_append_cons_iff hseparator).mp hinside with hinside | hinside
        · exact absurd hinside.length_le (by simp)
        · exact hafter hinside
      rw [List.cons_append, rfind, hlater]
      exact if_pos ⟨separator :: after, by simp⟩

end Text

end BurnLm.Math
