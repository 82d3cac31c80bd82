/-
# Causal stacks

A causal layer answers every row of a sequence from what the rows up to it left
on record. Records are kept, so a sequence may come in pieces: the answers over
the whole are the answers over the pieces, each piece going on from the records
of those before it. Stacking layers keeps this, since the answers of one layer
are the rows of the next.

Nothing here says what a row is or how an answer is formed.
-/

import Mathlib.Data.List.Basic

namespace BurnLm.Math

universe u v

/-- One layer of a causal sequence model. -/
structure CausalLayer (R : Type u) (M : Type v) where
  /-- What the row at a position leaves on record. -/
  record : ℕ → R → M
  /-- The answer to the row at a position, from all records up to its own. -/
  answer : ℕ → R → List M → R

namespace CausalLayer

variable {R : Type u} {M : Type v}

/-! ## One layer -/

/-- The records of rows that stand from a position on. -/
def recordsFrom (layer : CausalLayer R M) (start : ℕ) (rows : List R) : List M :=
  rows.mapIdx fun i row => layer.record (start + i) row

/-- Add the records of more rows. -/
def push (layer : CausalLayer R M) (kept : List M) (rows : List R) : List M :=
  kept ++ layer.recordsFrom kept.length rows

/-- The answers to more rows. -/
def answers (layer : CausalLayer R M) (kept : List M) (rows : List R) : List R :=
  rows.mapIdx fun i row =>
    layer.answer (kept.length + i) row ((layer.push kept rows).take (kept.length + i + 1))

variable {layer : CausalLayer R M} {kept : List M} {first second rows : List R}

@[simp]
theorem length_recordsFrom (start : ℕ) : (layer.recordsFrom start rows).length = rows.length := by
  simp [recordsFrom]

@[simp]
theorem length_push : (layer.push kept rows).length = kept.length + rows.length := by
  simp [push]

@[simp]
theorem length_answers : (layer.answers kept rows).length = rows.length := by
  simp [answers]

theorem recordsFrom_append (start : ℕ) :
    layer.recordsFrom start (first ++ second) =
      layer.recordsFrom start first ++ layer.recordsFrom (start + first.length) second := by
  simp [recordsFrom, List.mapIdx_append, Nat.add_assoc, Nat.add_comm first.length]

/-- Two pieces leave the records of the whole. -/
theorem push_append :
    layer.push kept (first ++ second) = layer.push (layer.push kept first) second := by
  rw [push, push, recordsFrom_append, ← List.append_assoc, length_push]
  rfl

/-- **A layer may be run in pieces.** -/
theorem answers_append :
    layer.answers kept (first ++ second) =
      layer.answers kept first ++ layer.answers (layer.push kept first) second := by
  rw [answers, List.mapIdx_append]
  congr 1
  · -- what comes later is not on record yet when these are answered
    refine List.ext_getElem (by simp) fun i hi _ => ?_
    have hlt : i < first.length := by simpa using hi
    have hle : kept.length + i + 1 ≤ (layer.push kept first).length := by
      rw [length_push]
      omega
    have htake : (layer.push (layer.push kept first) second).take (kept.length + i + 1) =
        (layer.push kept first).take (kept.length + i + 1) :=
      List.take_append_of_le_length hle
    simp only [answers, List.getElem_mapIdx, push_append, htake]
  · refine List.ext_getElem (by simp) fun i hi _ => ?_
    simp only [answers, List.getElem_mapIdx, push_append, length_push]
    rw [show kept.length + (i + first.length) = kept.length + first.length + i by omega]

/-- Records some rows leave. -/
def Kept (layer : CausalLayer R M) (kept : List M) : Prop := ∃ rows, kept = layer.push [] rows

/-! ## A stack of layers -/

/-- Add the records of more rows in every layer. -/
def pushAll : List (CausalLayer R M) → List (List M) → List R → List (List M)
  | layer :: layers, kept :: rest, rows =>
    layer.push kept rows :: pushAll layers rest (layer.answers kept rows)
  | _, kept, _ => kept

/-- The answers of the last layer to more rows. -/
def answersAll : List (CausalLayer R M) → List (List M) → List R → List R
  | layer :: layers, kept :: rest, rows => answersAll layers rest (layer.answers kept rows)
  | _, _, rows => rows

/-- A stack without any record. -/
def fresh (layers : List (CausalLayer R M)) : List (List M) := layers.map fun _ => []

variable {layers : List (CausalLayer R M)} {all : List (List M)}

@[simp]
theorem length_answersAll : (answersAll layers all rows).length = rows.length := by
  induction layers generalizing all rows with
  | nil => rfl
  | cons layer layers ih =>
      cases all with
      | nil => rfl
      | cons kept rest => rw [answersAll, ih, length_answers]

/-- Two pieces leave the records of the whole in every layer. -/
theorem pushAll_append :
    pushAll layers all (first ++ second) = pushAll layers (pushAll layers all first) second := by
  induction layers generalizing all first second with
  | nil => rfl
  | cons layer layers ih =>
      cases all with
      | nil => rfl
      | cons kept rest => rw [pushAll, pushAll, pushAll, push_append, answers_append, ih]

/-- **A stack may be run in pieces.** -/
theorem answersAll_append :
    answersAll layers all (first ++ second) =
      answersAll layers all first ++ answersAll layers (pushAll layers all first) second := by
  induction layers generalizing all first second with
  | nil => rfl
  | cons layer layers ih =>
      cases all with
      | nil => rfl
      | cons kept rest => rw [answersAll, answersAll, pushAll, answersAll, answers_append, ih]

/-- Nothing pushed leaves the records alone. -/
theorem pushAll_nil : pushAll layers all [] = all := by
  induction layers generalizing all with
  | nil => rfl
  | cons layer layers ih =>
      cases all with
      | nil => rfl
      | cons kept rest =>
          have hanswers : layer.answers kept [] = [] := rfl
          rw [pushAll, hanswers, ih, push, recordsFrom, List.mapIdx_nil, List.append_nil]

/-- What is pushed into a fresh stack is kept in every layer. -/
theorem kept_pushAll_fresh :
    List.Forall₂ Kept layers (pushAll layers (fresh layers) rows) := by
  induction layers generalizing rows with
  | nil => exact .nil
  | cons layer layers ih => exact .cons ⟨rows, rfl⟩ ih

/-- The last answer over a whole sequence is the last answer to its last piece. -/
theorem getLast?_answersAll_append (hsecond : second ≠ []) :
    (answersAll layers all (first ++ second)).getLast? =
      (answersAll layers (pushAll layers all first) second).getLast? := by
  have hsome : answersAll layers (pushAll layers all first) second ≠ [] := by
    rw [← List.length_pos_iff, length_answersAll]
    exact List.length_pos_iff.mpr hsecond
  rw [answersAll_append, List.getLast?_append_of_ne_nil _ hsome]

end CausalLayer

end BurnLm.Math
