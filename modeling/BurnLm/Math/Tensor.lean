/-
# Tensors by index

A tensor is a shape and an entry at every index, an index being a list of
naturals. What an operation does is said by where each entry of the result
comes from, so an operation that only moves data is a map on indices and
nothing else. Reshaping is the one operation that looks at the layout: it keeps
the row-major order, which `offset` and `position` describe.

Entries outside a shape exist and mean nothing. No lemma here reads one.
-/

import Mathlib.Data.List.GetD
import Mathlib.Algebra.BigOperators.Group.List.Basic
import Mathlib.Algebra.Order.Ring.Nat
import Mathlib.Tactic.Ring

namespace BurnLm.Math

universe u

/-- A shape, and an entry for every index. -/
structure Tensor (α : Type u) where
  shape : List ℕ
  entry : List ℕ → α

namespace Tensor

variable {α : Type u}

/-- The size of one axis. -/
def dim (tensor : Tensor α) (axis : ℕ) : ℕ := tensor.shape.getD axis 0

/-! ## Row-major order -/

/-- An index inside a shape. -/
inductive InBounds : List ℕ → List ℕ → Prop
  | nil : InBounds [] []
  | cons {size at_ : ℕ} {shape index : List ℕ} (hat : at_ < size)
      (hrest : InBounds shape index) : InBounds (size :: shape) (at_ :: index)

/-- The row-major position of an index. -/
def offset : List ℕ → List ℕ → ℕ
  | _ :: shape, at_ :: index => at_ * shape.prod + offset shape index
  | _, _ => 0

/-- The index at a row-major position. -/
def position : List ℕ → ℕ → List ℕ
  | [], _ => []
  | _ :: shape, at_ => at_ / shape.prod :: position shape (at_ % shape.prod)

/-- Quotient and remainder of a position inside block `at_`. -/
theorem div_mod_of_lt (at_ : ℕ) {width inside : ℕ} (hinside : inside < width) :
    (at_ * width + inside) / width = at_ ∧ (at_ * width + inside) % width = inside := by
  have hwidth : 0 < width := by omega
  rw [Nat.mul_comm, Nat.mul_add_div hwidth, Nat.mul_add_mod, Nat.div_eq_of_lt hinside,
    Nat.mod_eq_of_lt hinside]
  exact ⟨rfl, rfl⟩

/-- A position inside a block of a bounded number of blocks. -/
theorem merged_lt {at_ inside count width : ℕ} (hat : at_ < count) (hinside : inside < width) :
    at_ * width + inside < count * width := by
  calc at_ * width + inside
    _ < at_ * width + width := by omega
    _ = (at_ + 1) * width := by rw [Nat.succ_mul]
    _ ≤ count * width := Nat.mul_le_mul_right _ hat

theorem offset_lt_prod {shape index : List ℕ} (hindex : InBounds shape index) :
    offset shape index < shape.prod := by
  induction hindex with
  | nil => simp [offset]
  | cons hat _ ih =>
      rw [offset, List.prod_cons]
      exact merged_lt hat ih

/-- Reading the position of an index back gives the index. -/
theorem position_offset {shape index : List ℕ} (hindex : InBounds shape index) :
    position shape (offset shape index) = index := by
  induction hindex with
  | nil => rfl
  | @cons size at_ shape index hat hrest ih =>
      obtain ⟨hdiv, hmod⟩ := div_mod_of_lt at_ (offset_lt_prod hrest)
      rw [offset, position, hdiv, hmod, ih]

/-- The leading axis takes what the others leave. -/
theorem position_cons (size at_ : ℕ) {shape index : List ℕ} (hindex : InBounds shape index) :
    position (size :: shape) (at_ * shape.prod + offset shape index) = at_ :: index := by
  obtain ⟨hdiv, hmod⟩ := div_mod_of_lt at_ (offset_lt_prod hindex)
  rw [position, hdiv, hmod, position_offset hindex]

/-- Reading a position of a merged leading axis: the two axes it merges are
quotient and remainder. -/
theorem position_merge {outer inner at_ : ℕ} {shape index : List ℕ}
    (hindex : InBounds shape index) :
    position (outer :: inner :: shape) (at_ * shape.prod + offset shape index) =
      at_ / inner :: at_ % inner :: index := by
  have hlt := offset_lt_prod hindex
  obtain ⟨hdiv, hmod⟩ := div_mod_of_lt at_ hlt
  have hinner : (at_ * shape.prod + offset shape index) % (inner * shape.prod) =
      at_ % inner * shape.prod + offset shape index := by
    rw [Nat.mul_comm inner, Nat.mod_mul, hdiv, hmod]
    ring
  obtain ⟨hdiv', hmod'⟩ := div_mod_of_lt (at_ % inner) hlt
  rw [position, position, List.prod_cons, hinner, hdiv', hmod', position_offset hindex,
    Nat.mul_comm inner, ← Nat.div_div_eq_div_mul, hdiv]

/-! ## Operations -/

/-- A tensor whose entries are listed in row-major order. -/
def fromData [Inhabited α] (data : List α) (shape : List ℕ) : Tensor α :=
  ⟨shape, fun index => data.getD (offset shape index) default⟩

/-- The same entries in the same row-major order, under another shape. -/
def reshape (tensor : Tensor α) (shape : List ℕ) : Tensor α :=
  ⟨shape, fun index => tensor.entry (position tensor.shape (offset shape index))⟩

/-- Exchange two positions of a list. -/
def swapAt (first second : ℕ) (index : List ℕ) : List ℕ :=
  (index.set first (index.getD second 0)).set second (index.getD first 0)

/-- Exchange two axes. -/
def swapDims (tensor : Tensor α) (first second : ℕ) : Tensor α :=
  ⟨swapAt first second tensor.shape, fun index => tensor.entry (swapAt first second index)⟩

/-- The rows of the leading axis named by `rows`, in that order. -/
def select (tensor : Tensor α) (rows : Tensor ℕ) : Tensor α :=
  ⟨rows.shape.headD 0 :: tensor.shape.tail,
    fun index => tensor.entry (rows.entry [index.headD 0] :: index.tail)⟩

/-- The part of every axis between a start and an end. -/
def slice (tensor : Tensor α) (ranges : List (ℕ × ℕ)) : Tensor α :=
  ⟨ranges.map fun range => range.2 - range.1,
    fun index => tensor.entry (List.zipWith (· + ·) (ranges.map Prod.fst) index)⟩

/-- Overwrite the part of every axis between a start and an end. -/
def sliceAssign (tensor : Tensor α) (ranges : List (ℕ × ℕ)) (values : Tensor α) : Tensor α :=
  ⟨tensor.shape, fun index =>
    if List.Forall₂ (fun (range : ℕ × ℕ) at_ => range.1 ≤ at_ ∧ at_ < range.2) ranges index then
      values.entry (List.zipWith (· - ·) index (ranges.map Prod.fst))
    else tensor.entry index⟩

/-- Repeat every axis of size one as often as the new shape says. -/
def expand (tensor : Tensor α) (shape : List ℕ) : Tensor α :=
  ⟨shape, fun index => tensor.entry
    (List.zipWith (fun size at_ => if size = 1 then 0 else at_) tensor.shape index)⟩

/-- A new axis of size one. -/
def unsqueezeDim (tensor : Tensor α) (axis : ℕ) : Tensor α :=
  ⟨tensor.shape.insertIdx axis 1, fun index => tensor.entry (index.eraseIdx axis)⟩

/-- The entries in row-major order. -/
def flat (tensor : Tensor α) (at_ : ℕ) : α := tensor.entry (position tensor.shape at_)

/-- Overwrite every entry the mask marks. -/
def maskFill (tensor : Tensor α) (mask : Tensor Bool) (value : α) : Tensor α :=
  ⟨tensor.shape, fun index => if mask.entry index then value else tensor.entry index⟩

/-- Assign the rows of `values` to the destinations listed in `indices`, shaped
`[count, 2]`: row `r` overwrites everything under the two leading coordinates
`indices[r]`. Which of two rows wins a shared destination is not specified by
the operation; here it is the first. -/
def scatterNd (tensor : Tensor α) (indices : Tensor ℕ) (values : Tensor α) : Tensor α :=
  ⟨tensor.shape, fun index =>
    match (List.range (indices.shape.headD 0)).find? fun row =>
        [indices.entry [row, 0], indices.entry [row, 1]] = index.take 2 with
    | some row => values.entry (row :: index.drop 2)
    | none => tensor.entry index⟩

/-! ## Reading results -/

/-- An axis of size one is repeated, every other axis is left alone. -/
theorem zipWith_expand {sizes index : List ℕ} (hindex : InBounds sizes index) :
    List.zipWith (fun size at_ => if size = 1 then 0 else at_) sizes index = index := by
  induction hindex with
  | nil => rfl
  | @cons size at_ sizes index hat _ ih =>
      rw [List.zipWith_cons_cons, ih]
      congr 1
      split <;> omega

/-- Merging the two leading axes. -/
theorem entry_reshape_merge (tensor : Tensor α) {outer inner merged at_ : ℕ}
    {shape index : List ℕ} (hshape : tensor.shape = outer :: inner :: shape)
    (hindex : InBounds shape index) :
    (tensor.reshape (merged :: shape)).entry (at_ :: index) =
      tensor.entry (at_ / inner :: at_ % inner :: index) := by
  simp only [reshape, hshape, offset, position_merge hindex]

/-- Splitting blocks off the leading axis and joining them onto the next one:
from `[outer, inner, ..]` to `[groups, per * inner, ..]`. -/
theorem entry_reshape_regroup (tensor : Tensor α) {outer inner groups per group at_ : ℕ}
    {shape index : List ℕ} (hshape : tensor.shape = outer :: inner :: shape)
    (hinner : 0 < inner) (hindex : InBounds shape index) :
    (tensor.reshape (groups :: per * inner :: shape)).entry (group :: at_ :: index) =
      tensor.entry ((group * per + at_ / inner) :: at_ % inner :: index) := by
  have hoffset : group * (per * inner * shape.prod) + (at_ * shape.prod + offset shape index) =
      (group * per * inner + at_) * shape.prod + offset shape index := by ring
  simp only [reshape, hshape, offset, List.prod_cons]
  rw [hoffset, position_merge hindex, Nat.mul_comm (group * per) inner,
    Nat.mul_add_div hinner, Nat.mul_add_mod]

/-- A destination listed once receives its row. -/
theorem entry_scatterNd_of_unique (tensor : Tensor α) (indices : Tensor ℕ) (values : Tensor α)
    {row first second : ℕ} {index : List ℕ} (hrow : row < indices.shape.headD 0)
    (hfirst : indices.entry [row, 0] = first) (hsecond : indices.entry [row, 1] = second)
    (hunique : ∀ other < indices.shape.headD 0, indices.entry [other, 0] = first →
      indices.entry [other, 1] = second → other = row) :
    (tensor.scatterNd indices values).entry (first :: second :: index) =
      values.entry (row :: index) := by
  have hfind : (List.range (indices.shape.headD 0)).find? (fun other =>
      [indices.entry [other, 0], indices.entry [other, 1]] =
        (first :: second :: index).take 2) = some row := by
    cases hresult : (List.range (indices.shape.headD 0)).find? (fun other =>
        [indices.entry [other, 0], indices.entry [other, 1]] =
          (first :: second :: index).take 2) with
    | none =>
        have hnone := List.find?_eq_none.mp hresult row (List.mem_range.mpr hrow)
        simp [hfirst, hsecond] at hnone
    | some other =>
        have hmem := List.mem_range.mp (List.mem_of_find?_eq_some hresult)
        have hhit := List.find?_some hresult
        simp only [List.take_succ_cons, List.take_zero, List.cons.injEq, and_true,
          decide_eq_true_eq] at hhit
        rw [hunique other hmem hhit.1 hhit.2]
  simp only [scatterNd]
  rw [hfind]
  rfl

/-- A destination listed nowhere keeps its entry. -/
theorem entry_scatterNd_of_absent (tensor : Tensor α) (indices : Tensor ℕ) (values : Tensor α)
    {first second : ℕ} {index : List ℕ}
    (habsent : ∀ row < indices.shape.headD 0, indices.entry [row, 0] = first →
      indices.entry [row, 1] ≠ second) :
    (tensor.scatterNd indices values).entry (first :: second :: index) =
      tensor.entry (first :: second :: index) := by
  have hfind : (List.range (indices.shape.headD 0)).find? (fun other =>
      [indices.entry [other, 0], indices.entry [other, 1]] =
        (first :: second :: index).take 2) = none := by
    rw [List.find?_eq_none]
    intro row hrow
    simp only [List.take_succ_cons, List.take_zero, List.cons.injEq, and_true,
      decide_eq_true_eq, not_and]
    exact habsent row (List.mem_range.mp hrow)
  simp only [scatterNd]
  rw [hfind]

end Tensor

/-! ## Lists built in equal runs -/

/-- In a concatenation of runs of one length, element `run * width + at_` is
element `at_` of that run. -/
theorem getD_flatMap_of_length {β : Type*} {γ : Type*} (runs : List β) (run : β → List γ)
    {width : ℕ} (hwidth : ∀ item ∈ runs, (run item).length = width) {index at_ : ℕ}
    (hat : at_ < width) (fallback : γ) (item : β) (hitem : runs[index]? = some item) :
    (runs.flatMap run).getD (index * width + at_) fallback = (run item).getD at_ fallback := by
  induction runs generalizing index with
  | nil => simp at hitem
  | cons head runs ih =>
      have hhead : (run head).length = width := hwidth head List.mem_cons_self
      rw [List.flatMap_cons]
      cases index with
      | zero =>
          simp only [List.getElem?_cons_zero, Option.some.injEq] at hitem
          subst hitem
          rw [Nat.zero_mul, Nat.zero_add, List.getD_append _ _ _ _ (hhead ▸ hat)]
      | succ index =>
          have hle : (run head).length ≤ (index + 1) * width + at_ := by
            rw [hhead, Nat.succ_mul]
            omega
          rw [List.getD_append_right _ _ _ _ hle, hhead,
            show (index + 1) * width + at_ - width = index * width + at_ by
              rw [Nat.succ_mul]; omega]
          exact ih (fun item hmem => hwidth item (List.mem_cons_of_mem _ hmem))
            (by simpa using hitem)

end BurnLm.Math
