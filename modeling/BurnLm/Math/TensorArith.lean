/-
# Arithmetic on tensors

Entrywise products, sums along an axis, and matrix products over the last two
axes, again said by where each entry comes from. A matrix product repeats the
leading axes of size one of its second factor.
-/

import Mathlib.Algebra.BigOperators.Intervals
import BurnLm.Math.Tensor

namespace BurnLm.Math.Tensor

open scoped BigOperators

universe u

variable {α : Type u}

/-- Two tensors of one shape, multiplied entry by entry. -/
def mul [Mul α] (first second : Tensor α) : Tensor α :=
  ⟨first.shape, fun index => first.entry index * second.entry index⟩

/-- The sum along an axis, which keeps the axis with size one. -/
def sumDim [AddCommMonoid α] (tensor : Tensor α) (axis : ℕ) : Tensor α :=
  ⟨tensor.shape.set axis 1, fun index =>
    ∑ at_ ∈ Finset.range (tensor.dim axis), tensor.entry (index.set axis at_)⟩

/-- The matrix product of the last two axes. -/
def matmul [AddCommMonoid α] [Mul α] (first second : Tensor α) : Tensor α :=
  ⟨first.shape.dropLast ++ [second.shape.getLastD 0], fun index =>
    ∑ at_ ∈ Finset.range (first.shape.getLastD 0),
      first.entry (index.dropLast ++ [at_]) *
        second.entry (List.zipWith (fun size at_ => if size = 1 then 0 else at_)
          second.shape.dropLast.dropLast index.dropLast.dropLast ++ [at_, index.getLastD 0])⟩

/-- Reshaping reads the entry at the same row-major place. -/
theorem entry_reshape (tensor : Tensor α) {shape index source : List ℕ}
    (hsource : InBounds tensor.shape source)
    (hoffset : offset shape index = offset tensor.shape source) :
    (tensor.reshape shape).entry index = tensor.entry source := by
  simp only [reshape, hoffset, position_offset hsource]

theorem entry_mul [Mul α] (first second : Tensor α) (index : List ℕ) :
    (first.mul second).entry index = first.entry index * second.entry index := rfl

theorem entry_sumDim [AddCommMonoid α] {tensor : Tensor α} {axis size : ℕ}
    (hsize : tensor.dim axis = size) (index : List ℕ) :
    (tensor.sumDim axis).entry index =
      ∑ at_ ∈ Finset.range size, tensor.entry (index.set axis at_) := by
  rw [← hsize]
  rfl

/-- A product with a matrix, over tensors of any number of leading axes. -/
theorem entry_matmul [AddCommMonoid α] [Mul α] {first second : Tensor α} {lead ones : List ℕ}
    {rows inner columns : ℕ} (hfirst : first.shape = lead ++ [rows, inner])
    (hsecond : second.shape = ones ++ [inner, columns]) (hones : ∀ size ∈ ones, size = 1)
    (hlength : ones.length = lead.length) {index : List ℕ} (hindex : index.length = lead.length)
    (row column : ℕ) :
    (first.matmul second).entry (index ++ [row, column]) =
      ∑ at_ ∈ Finset.range inner,
        first.entry (index ++ [row, at_]) *
          second.entry (List.replicate lead.length 0 ++ [at_, column]) := by
  have hzero : List.zipWith (fun size at_ => if size = 1 then 0 else at_) ones index =
      List.replicate lead.length 0 := by
    refine List.ext_getElem (by simp [hlength, hindex]) fun at_ _ _ => ?_
    rw [List.getElem_zipWith, List.getElem_replicate, if_pos (hones _ (List.getElem_mem _))]
  have hrow : (index ++ [row, column]).dropLast = index ++ [row] := by
    rw [show index ++ [row, column] = (index ++ [row]) ++ [column] by simp, List.dropLast_concat]
  have hlast : (first.shape).getLastD 0 = inner := by simp [hfirst]
  have hlead : second.shape.dropLast.dropLast = ones := by
    rw [hsecond, show ones ++ [inner, columns] = (ones ++ [inner]) ++ [columns] by simp,
      List.dropLast_concat, List.dropLast_concat]
  simp only [matmul, hrow, hlast, hlead, List.dropLast_concat, hzero]
  simp

end BurnLm.Math.Tensor
