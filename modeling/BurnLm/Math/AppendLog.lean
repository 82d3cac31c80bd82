/-
# Append logs

A family of lists, one per index, that grows by appending to several of them at
once and shrinks only by emptying one. This is what a cache of sequences is for,
before anyone says where the items are kept.
-/

import Mathlib.Data.List.Nodup

namespace BurnLm.Math

universe u

/-- One list of items per index. -/
def AppendLog (β : Type u) : Type u := ℕ → List β

namespace AppendLog

variable {β : Type u}

/-- Nothing logged anywhere. -/
def empty : AppendLog β := fun _ => []

/-- Append `rows j` to the list of the `j`-th index named. -/
def append (log : AppendLog β) (indices : List ℕ) (rows : ℕ → List β) : AppendLog β :=
  fun index => log index ++ if index ∈ indices then rows (indices.idxOf index) else []

/-- Empty one list. -/
def reset (log : AppendLog β) (index : ℕ) : AppendLog β :=
  fun other => if other = index then [] else log other

theorem append_getElem (log : AppendLog β) {indices : List ℕ} (hnodup : indices.Nodup)
    (rows : ℕ → List β) {j : ℕ} (hj : j < indices.length) :
    log.append indices rows indices[j] = log indices[j] ++ rows j := by
  simp [append, hnodup.idxOf_getElem]

theorem append_of_notMem (log : AppendLog β) {indices : List ℕ} (rows : ℕ → List β) {index : ℕ}
    (hindex : index ∉ indices) : log.append indices rows index = log index := by
  simp [append, hindex]

/-- Items already logged keep their positions. -/
theorem append_getElem?_of_lt (log : AppendLog β) (indices : List ℕ) (rows : ℕ → List β)
    {index position : ℕ} (hposition : position < (log index).length) :
    (log.append indices rows index)[position]? = (log index)[position]? :=
  List.getElem?_append_left hposition

/-- The items appended follow the ones already logged. -/
theorem append_getElem?_add (log : AppendLog β) {indices : List ℕ} (hnodup : indices.Nodup)
    (rows : ℕ → List β) {j : ℕ} (hj : j < indices.length) (step : ℕ) :
    (log.append indices rows indices[j])[(log indices[j]).length + step]? = (rows j)[step]? := by
  rw [append_getElem log hnodup rows hj, List.getElem?_append_right (Nat.le_add_right _ _),
    Nat.add_sub_cancel_left]

theorem reset_self (log : AppendLog β) (index : ℕ) : log.reset index index = [] := by
  simp [reset]

theorem reset_of_ne (log : AppendLog β) {index other : ℕ} (hne : other ≠ index) :
    log.reset index other = log other := by
  simp [reset, hne]

theorem reset_of_nil (log : AppendLog β) {index : ℕ} (hnil : log index = []) :
    log.reset index = log := by
  funext other
  by_cases hother : other = index
  · rw [hother, reset_self, hnil]
  · exact reset_of_ne log hother

end AppendLog

end BurnLm.Math
