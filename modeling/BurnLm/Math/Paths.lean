/-
# Paths and separators

A path is the list of its components. A text is read as a path by cutting it at
its slashes; pieces that say nothing, the empty one and the single dot, are not
components. This module has the reading, what it makes of a text that begins
without a slash, and when two texts put together around a doubled separator are
the same.

A directory is reached by walking a path from the root, where two dots lead one
level up. What a relative path comes to does not depend on where it is walked
from: it climbs so many levels, and descends from there.
-/

import Mathlib.Data.List.Infix
import BurnLm.Math.Text

namespace BurnLm.Math

/-- A path, component by component. -/
abbrev DirPath : Type := List Text

namespace DirPath

/-- Pieces that name a component. -/
def named (pieces : List Text) : List Text :=
  pieces.filter fun piece => piece ≠ [] ∧ piece ≠ ['.']

/-- A text read as a path. -/
def ofText (text : Text) : DirPath := named (text.splitOn '/')

/-- A text joined onto a path. One that begins with a slash replaces it. -/
def join (base : DirPath) (text : Text) : DirPath :=
  if text.head? = some '/' then ofText text else base ++ ofText text

/-- A text up to its first slash. -/
def segment (text : Text) : Text := (text.splitOn '/').headD []

/-- The components behind a text's first slash. -/
def below (text : Text) : DirPath := named (text.splitOn '/').tail

@[simp]
theorem segment_nil : segment [] = [] := rfl

theorem splitOn_append {first : Text} (hfirst : '/' ∉ first) (rest : Text) :
    (first ++ rest).splitOn '/' = (rest.splitOn '/').modifyHead (first ++ ·) := by
  induction first with
  | nil =>
      rw [List.nil_append]
      cases rest.splitOn '/' <;> rfl
  | cons char first ih =>
      rw [List.mem_cons, not_or] at hfirst
      rw [List.cons_append, List.splitOn_cons_eq_if_modifyHead,
        if_neg (by simpa using Ne.symm hfirst.1), ih hfirst.2, List.modifyHead_modifyHead]
      rfl

theorem segment_append {first : Text} (hfirst : '/' ∉ first) (rest : Text) :
    segment (first ++ rest) = first ++ segment rest := by
  unfold segment
  rw [splitOn_append hfirst]
  cases hpieces : rest.splitOn '/' with
  | nil => exact absurd hpieces (List.splitOn_ne_nil _ _)
  | cons piece pieces => rfl

theorem below_append {first : Text} (hfirst : '/' ∉ first) (rest : Text) :
    below (first ++ rest) = below rest := by
  unfold below
  rw [splitOn_append hfirst]
  cases rest.splitOn '/' <;> rfl

/-- A text is its first segment, if that names something, and what is below. -/
theorem ofText_eq_cons {text : Text} (hlong : 1 < (segment text).length) :
    ofText text = segment text :: below text := by
  unfold ofText below segment at *
  cases hpieces : text.splitOn '/' with
  | nil => exact absurd hpieces (List.splitOn_ne_nil _ _)
  | cons piece pieces =>
      rw [hpieces, List.headD_cons] at hlong
      rw [named, List.filter_cons_of_pos, List.headD_cons, List.tail_cons, named]
      simp only [ne_eq, decide_eq_true_eq]
      constructor
      · rintro rfl
        simp at hlong
      · rintro rfl
        simp at hlong

/-! ## Walking a path -/

/-- One component walked from a place. At the root two dots lead nowhere. -/
def enter (place : DirPath) (piece : Text) : DirPath :=
  if piece = ['.', '.'] then place.dropLast else place ++ [piece]

/-- The directory a path leads to. -/
def resolve (path : DirPath) : DirPath := path.foldl enter []

/-- What a relative path comes to: levels up, and components down from there. -/
structure Walk where
  up : ℕ
  down : DirPath
  deriving DecidableEq, Repr

/-- A way goes on with one more component. -/
def Walk.enter (way : Walk) (piece : Text) : Walk :=
  if piece ≠ ['.', '.'] then ⟨way.up, way.down ++ [piece]⟩
  else if way.down = [] then ⟨way.up + 1, []⟩ else ⟨way.up, way.down.dropLast⟩

def walk (path : DirPath) : Walk := path.foldl Walk.enter ⟨0, []⟩

/-- The place so many levels up. -/
def above (place : DirPath) (up : ℕ) : DirPath := place.take (place.length - up)

/-- The components from `high` levels up down to `low` levels up. -/
def between (place : DirPath) (low high : ℕ) : DirPath :=
  (above place low).drop (place.length - high)

@[simp]
theorem above_zero (place : DirPath) : above place 0 = place := by simp [above]

/-- A level up from a component is where it was entered. -/
@[simp]
theorem above_concat_succ (place : DirPath) (piece : Text) (up : ℕ) :
    above (place ++ [piece]) (up + 1) = above place up := by
  rw [above, above, List.length_append, List.length_singleton, Nat.add_sub_add_right,
    List.take_append_of_le_length (Nat.sub_le _ _)]

theorem dropLast_above (place : DirPath) (up : ℕ) :
    (above place up).dropLast = above place (up + 1) := by
  rw [above, above, List.dropLast_eq_take, List.take_take, List.length_take]
  congr 1
  omega

/-- **What a walk comes to** is the same from everywhere. -/
theorem foldl_enter (place path : DirPath) :
    path.foldl enter place = above place (walk path).up ++ (walk path).down := by
  induction path using List.reverseRecOn with
  | nil => simp [walk]
  | append_singleton path piece ih =>
      rw [walk, List.foldl_append, List.foldl_append, ih, ← walk]
      obtain ⟨up, down⟩ := walk path
      simp only [List.foldl_cons, List.foldl_nil, enter, Walk.enter]
      by_cases hdots : piece = ['.', '.']
      · by_cases hdown : down = []
        · simp [hdots, hdown, dropLast_above]
        · simp [hdots, hdown, List.dropLast_append_of_ne_nil hdown]
      · simp [hdots]

theorem resolve_append (base path : DirPath) :
    resolve (base ++ path) = above (resolve base) (walk path).up ++ (walk path).down := by
  rw [resolve, List.foldl_append, foldl_enter, ← resolve]

/-- Two ways up and down from one place meet if the one that climbs higher comes
down to where the other turned, and goes on as the other does. -/
theorem above_append_eq_iff {place first second : DirPath} {low high : ℕ} (hle : low ≤ high) :
    above place low ++ first = above place high ++ second ↔
      second = between place low high ++ first := by
  have hhigh : above place high = (above place low).take (place.length - high) := by
    rw [above, above, List.take_take, min_eq_left (Nat.sub_le_sub_left hle _)]
  have hlow : above place low = above place high ++ between place low high := by
    rw [hhigh, between, List.take_append_drop]
  rw [hlow, List.append_assoc, List.append_cancel_left_eq, eq_comm]

end DirPath

section Separators

variable {α : Type*} {separator : α}

/-- One text begins with the other's beginning and a separator of its own. -/
def Shifted (separator : α) (first rest other tail : List α) : Prop :=
  (other = first ++ [separator] ∧ rest = separator :: tail) ∨
    ∃ word, other = first ++ separator :: separator :: word ∧
      rest = word ++ separator :: separator :: tail

theorem Shifted.length_lt {first rest other tail : List α}
    (hshifted : Shifted separator first rest other tail) : first.length < other.length := by
  rcases hshifted with ⟨rfl, -⟩ | ⟨word, rfl, -⟩
  · simp
  · simp

theorem Shifted.append_eq {first rest other tail : List α}
    (hshifted : Shifted separator first rest other tail) :
    first ++ separator :: separator :: rest = other ++ separator :: separator :: tail := by
  rcases hshifted with ⟨rfl, rfl⟩ | ⟨word, rfl, rfl⟩
  · simp
  · simp

/-- **Two texts around a doubled separator.** They are the same if their parts
are, or if one beginning goes on where the other ends. -/
theorem append_doubled_eq_iff {first rest other tail : List α} :
    first ++ separator :: separator :: rest = other ++ separator :: separator :: tail ↔
      (first = other ∧ rest = tail) ∨ Shifted separator first rest other tail ∨
        Shifted separator other tail first rest := by
  have hshift {first rest word tail : List α} (hword : word ≠ [])
      (hsame : separator :: separator :: rest = word ++ separator :: separator :: tail) :
      Shifted separator first rest (first ++ word) tail := by
    match word, hword with
    | [char], _ =>
        simp only [List.cons_append, List.nil_append, List.cons.injEq] at hsame
        obtain ⟨rfl, -, rfl⟩ := hsame
        exact Or.inl ⟨rfl, rfl⟩
    | char :: next :: word, _ =>
        simp only [List.cons_append, List.cons.injEq] at hsame
        obtain ⟨rfl, rfl, hrest⟩ := hsame
        exact Or.inr ⟨word, rfl, hrest⟩
  constructor
  · intro hsame
    rcases List.append_eq_append_iff.mp hsame with ⟨word, rfl, hrest⟩ | ⟨word, rfl, hrest⟩
    · by_cases hword : word = []
      · subst hword
        simp only [List.nil_append, List.cons.injEq, true_and] at hrest
        exact Or.inl ⟨(List.append_nil _).symm, hrest⟩
      · exact Or.inr (Or.inl (hshift hword hrest))
    · by_cases hword : word = []
      · subst hword
        simp only [List.nil_append, List.cons.injEq, true_and] at hrest
        exact Or.inl ⟨List.append_nil _, hrest.symm⟩
      · exact Or.inr (Or.inr (hshift hword hrest))
  · rintro (⟨rfl, rfl⟩ | hshifted | hshifted)
    · rfl
    · exact hshifted.append_eq
    · exact hshifted.append_eq.symm

end Separators

end BurnLm.Math
