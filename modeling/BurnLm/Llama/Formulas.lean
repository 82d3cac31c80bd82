/-
# The parts by their formulas

Linear maps, norms, gates, lookups, softmax attention and rotation, each written
out as arithmetic. Modules and ops made of them meet what is assumed of the tensor
library, so that what is proved from the assumptions is about something.
-/

import BurnLm.Llama.CausalBlock

namespace BurnLm.Llama

open BurnLm.Math BurnLm.PagedKv
open scoped BigOperators

universe u

variable {K : Type u} [Field K]

/-! ## Modules -/

section Modules

variable {dIn dOut : ℕ}

/-- A module given by what it makes of one row. -/
def RowModule.ofRow (row : (Fin dIn → K) → Fin dOut → K) : RowModule K dIn dOut where
  forward x := ⟨[x.dim 0, x.dim 1, dOut], fun index =>
    extend (row (tokenRow x dIn (index.getD 0 0) (index.getD 1 0))) (index.getD 2 0)⟩
  row
  shape_forward hx := by simp [Tensor.dim, hx]
  row_forward _ _ _ _ _ := by
    funext channel
    exact extend_of_lt _ channel.isLt

/-- A linear layer without bias. -/
def RowModule.linear (weight : Fin dIn → Fin dOut → K) : RowModule K dIn dOut :=
  .ofRow fun row channel => ∑ i, row i * weight i channel

/-- A lookup in a table. -/
def Embedding.ofTable {dModel : ℕ} (table : ℤ → Fin dModel → K) : Embedding K dModel where
  forward ids := ⟨[ids.dim 0, ids.dim 1, dModel], fun index =>
    extend (table (ids.entry [index.getD 0 0, index.getD 1 0])) (index.getD 2 0)⟩
  row := table
  shape_forward hids := by simp [Tensor.dim, hids]
  row_forward _ _ _ _ _ := by
    funext channel
    exact extend_of_lt _ channel.isLt

/-- A root-mean-square norm. -/
noncomputable def RowModule.rmsNorm (gamma : Fin dIn → ℝ) (epsilon : ℝ) : RowModule ℝ dIn dIn :=
  .ofRow fun row channel =>
    row channel / Real.sqrt ((∑ i, row i ^ 2) / dIn + epsilon) * gamma channel

/-- A gated unit: one projection through the sigmoid-weighted identity, times the
other. -/
noncomputable def RowModule.swiGlu (inner outer : Fin dIn → Fin dOut → ℝ) :
    RowModule ℝ dIn dOut :=
  .ofRow fun row channel =>
    let gate := ∑ i, row i * inner i channel
    gate / (1 + Real.exp (-gate)) * ∑ i, row i * outer i channel

end Modules

/-! ## The ops -/

namespace TensorOps

variable (exp : K → K) (scale : K)

/-- Softmax attention, and rotation row by row. -/
def formulas : TensorOps K where
  attention q k v mask :=
    let shape := [q.dim 0, q.dim 1, q.dim 2, k.dim 2]
    softmaxAttention exp scale q k v ((mask.getD ⟨shape, fun _ => false⟩).expand shape)
  ropeForward rope x := ⟨x.shape, fun index =>
    extend (turned rope (index.getD 2 0)
      (headAt x (x.dim 3) (index.getD 0 0) (index.getD 1 0) (index.getD 2 0))) (index.getD 3 0)⟩
  invSqrt _ := scale

/-- The op is settled by the columns that are shown. -/
theorem softmaxAttention_congr {q k v : Tensor K} {first second : Tensor Bool}
    (hshown : ∀ b head row,
      shownColumns first (k.dim 2) b head row = shownColumns second (k.dim 2) b head row) :
    softmaxAttention exp scale q k v first = softmaxAttention exp scale q k v second := by
  simp only [softmaxAttention, hshown]

/-- The formulas meet what is assumed of the library. -/
theorem honest_formulas (config : TransformerConfig) :
    (formulas exp scale).Honest exp scale config where
  scaled := rfl
  attends := by
    intro q k v mask n heads seqQ seqKv hq hk hv hmask b hb head hhead row hrow hshown d hd
    have hsame : ∀ column ∈ Finset.range seqKv,
        (mask.expand [n, heads, seqQ, seqKv]).entry [b, head, row, column] =
          mask.entry [b, head, row, column] := fun column hcolumn =>
      congrArg mask.entry (hmask ▸ Tensor.zipWith_expand
        (.cons hb (.cons hhead (.cons hrow (.cons (Finset.mem_range.mp hcolumn) .nil)))))
    have hcolumns : shownColumns (mask.expand [n, heads, seqQ, seqKv]) seqKv b head row =
        shownColumns mask seqKv b head row :=
      Finset.filter_congr fun column hcolumn => by rw [hsame column hcolumn]
    simp [formulas, softmaxAttention, Tensor.dim, hq, hk, hcolumns]
  shape_attention _ _ _ _ := rfl
  broadcasts := by
    intro q k v mask n heads seqQ seqKv hq hk hmask
    refine softmaxAttention_congr exp scale fun b head row => Finset.filter_congr fun column _ => ?_
    have htwice : (mask.expand [n, heads, seqQ, seqKv]).entry [b, head, row, column] =
        ((mask.expand [n, heads, seqQ, seqKv]).expand [n, heads, seqQ, seqKv]).entry
          [b, head, row, column] := by
      by_cases hrows : seqQ = 1 <;> by_cases hcolumns : seqKv = 1 <;>
        simp [Tensor.expand, hmask, hrows, hcolumns]
    simp [Tensor.dim, hq, hk, htwice]
  unmasked := by
    intro q k v n heads seqQ seqKv hq hk
    exact softmaxAttention_congr exp scale fun b head row => rfl
  shape_rope _ _ := rfl
  rotates := by
    intro rope x rows n heads q _ _ hx j head r _ _ _
    have hturned : ∀ width, width = config.headDim → ∀ channel : Fin config.headDim,
        extend (turned rope r (headAt x width j head r)) channel =
          turned rope r (headAt x config.headDim j head r) channel := by
      rintro _ rfl channel
      exact extend_of_lt _ channel.isLt
    funext channel
    exact hturned (x.dim 3) (by simp [Tensor.dim, hx]) channel

end TensorOps

end BurnLm.Llama
