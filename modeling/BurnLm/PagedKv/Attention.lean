/-
# Attention over the paged cache

The reference path gathers each lane's blocks into one scratch, zeroes the dead
columns, repeats the key/value heads for their query group and attends under the
plan's mask. The decode path walks the same blocks in place and stops at each
lane's length. Here both are read off the same plan, for a round of one token per
lane, and found to be the same softmax over the same keys.

The attention op is a parameter. What is assumed of it is that it forms the
softmax-weighted sum over the columns the mask shows.
-/

import Mathlib.Analysis.Real.Sqrt
import BurnLm.PagedAttn.Oracle
import BurnLm.PagedKv.Isolation

namespace BurnLm.PagedKv

open BurnLm.Math
open scoped BigOperators

universe u

/-! ## The reference path -/

section Reference

variable {α : Type u}

/-- Repeat each key/value head for its query group. -/
def repeatKv (x : Tensor α) (nRep : ℕ) : Tensor α :=
  if nRep = 1 then x
  else
    let n := x.dim 0
    let kvHeads := x.dim 1
    let seqLen := x.dim 2
    let headDim := x.dim 3
    ((x.unsqueezeDim 2).expand [n, kvHeads, nRep, seqLen, headDim]).reshape
      [n, kvHeads * nRep, seqLen, headDim]

/-- Give the plan's mask the query's head count. -/
def maskOverHeads (mask : Tensor Bool) (numHeads : ℕ) : Tensor Bool :=
  if mask.dim 1 = numHeads then mask
  else mask.expand [mask.dim 0, numHeads, mask.dim 2, mask.dim 3]

/-- Gather, neutralize, expand the heads and attend under the plan's mask. -/
def pagedAttentionReference [Zero α]
    (attention : Tensor α → Tensor α → Tensor α → Tensor Bool → Tensor α)
    (q : Tensor α) (cache : KeyValueCache α) (plan : LanePlan) (nRep : ℕ) : Option (Tensor α) := do
  let numHeads := q.dim 1
  let (k, v) := cache.gather plan
  let k ← k.neutralized plan
  let v ← v.neutralized plan
  let mask := maskOverHeads plan.mask numHeads
  some (attention q (repeatKv k nRep) (repeatKv v nRep) mask)

/-- A query head reads its group's key/value head. -/
theorem entry_repeatKv {x : Tensor α} {n kvHeads seqLen headDim nRep j kvHead g position d : ℕ}
    (hshape : x.shape = [n, kvHeads, seqLen, headDim]) (hj : j < n) (hkvHead : kvHead < kvHeads)
    (hg : g < nRep) (hposition : position < seqLen) (hd : d < headDim) :
    (repeatKv x nRep).entry [j, kvHead * nRep + g, position, d] =
      x.entry [j, kvHead, position, d] := by
  have hdims : x.dim 0 = n ∧ x.dim 1 = kvHeads ∧ x.dim 2 = seqLen ∧ x.dim 3 = headDim := by
    simp [Tensor.dim, hshape]
  obtain ⟨h0, h1, h2, h3⟩ := hdims
  rw [repeatKv]
  split
  · next hsingle =>
      subst hsingle
      rw [Nat.lt_one_iff.mp hg, Nat.mul_one, Nat.add_zero]
  · have hbounds : Tensor.InBounds [n, kvHeads, nRep, seqLen, headDim] [j, kvHead, g, position, d] :=
      .cons hj (.cons hkvHead (.cons hg (.cons hposition (.cons hd .nil))))
    have hoffset : Tensor.offset [n, kvHeads * nRep, seqLen, headDim]
        [j, kvHead * nRep + g, position, d] =
          Tensor.offset [n, kvHeads, nRep, seqLen, headDim] [j, kvHead, g, position, d] := by
      simp only [Tensor.offset, List.prod_cons, List.prod_nil]
      ring
    have hunsqueeze : (x.unsqueezeDim 2).shape = [n, kvHeads, 1, seqLen, headDim] := by
      simp [Tensor.unsqueezeDim, hshape]
    have hrepeat : List.zipWith (fun size at_ => if size = 1 then 0 else at_)
        [n, kvHeads, 1, seqLen, headDim] [j, kvHead, g, position, d] =
          [j, kvHead, 0, position, d] := by
      have hsame := Tensor.zipWith_expand (.cons hj (.cons hkvHead (.cons Nat.one_pos
        (.cons hposition (.cons hd .nil)))) :
          Tensor.InBounds [n, kvHeads, 1, seqLen, headDim] [j, kvHead, 0, position, d])
      simpa using hsame
    simp only [h0, h1, h2, h3, Tensor.reshape, Tensor.expand, hoffset,
      Tensor.position_offset hbounds, hunsqueeze, hrepeat]
    rfl

theorem shape_repeatKv {x : Tensor α} {n kvHeads seqLen headDim : ℕ}
    (hshape : x.shape = [n, kvHeads, seqLen, headDim]) (nRep : ℕ) :
    (repeatKv x nRep).shape = [n, kvHeads * nRep, seqLen, headDim] := by
  rw [repeatKv]
  split
  · next hsingle => rw [hsingle, hshape, Nat.mul_one]
  · simp [Tensor.reshape, Tensor.dim, hshape]

/-- Every head sees its lane's mask. -/
theorem entry_maskOverHeads {mask : Tensor Bool} {n seqLen width numHeads j head row column : ℕ}
    (hshape : mask.shape = [n, 1, seqLen, width]) (hj : j < n) (hhead : head < numHeads)
    (hrow : row < seqLen) (hcolumn : column < width) :
    (maskOverHeads mask numHeads).entry [j, head, row, column] =
      mask.entry [j, 0, row, column] := by
  have hdim : mask.dim 1 = 1 := by simp [Tensor.dim, hshape]
  rw [maskOverHeads, hdim]
  split
  · next hsingle =>
      subst hsingle
      rw [Nat.lt_one_iff.mp hhead]
  · have hsame := Tensor.zipWith_expand (.cons hj (.cons Nat.one_pos (.cons hrow
      (.cons hcolumn .nil))) : Tensor.InBounds [n, 1, seqLen, width] [j, 0, row, column])
    have hrepeat : List.zipWith (fun size at_ => if size = 1 then 0 else at_)
        [n, 1, seqLen, width] [j, head, row, column] = [j, 0, row, column] := by
      simpa using hsame
    simp only [Tensor.expand, hshape, hrepeat]

theorem shape_maskOverHeads {mask : Tensor Bool} {n seqLen width : ℕ}
    (hshape : mask.shape = [n, 1, seqLen, width]) (numHeads : ℕ) :
    (maskOverHeads mask numHeads).shape = [n, numHeads, seqLen, width] := by
  rw [maskOverHeads]
  split
  · next hsingle =>
      rw [← hsingle]
      simp [Tensor.dim, hshape]
  · simp [Tensor.expand, Tensor.dim, hshape]

end Reference

/-! ## The attention op -/

section Softmax

variable {K : Type u} [Field K] (exp : K → K) (scale : K)

/-- The scaled dot product of a query row and a key row. -/
def attentionScore (q k : Tensor K) (headDim b head row column : ℕ) : K :=
  (∑ d ∈ Finset.range headDim, q.entry [b, head, row, d] * k.entry [b, head, column, d]) * scale

/-- The columns a mask shows to a query row. -/
def shownColumns (mask : Tensor Bool) (seqKv b head row : ℕ) : Finset ℕ :=
  (Finset.range seqKv).filter fun column => mask.entry [b, head, row, column] = false

/-- What is assumed of the attention op: a query row that is shown some column gets
the softmax-weighted sum over the columns it is shown. -/
def IsSoftmaxAttention (headDim : ℕ)
    (attention : Tensor K → Tensor K → Tensor K → Tensor Bool → Tensor K) : Prop :=
  ∀ (q k v : Tensor K) (mask : Tensor Bool) (n heads seqQ seqKv : ℕ),
    q.shape = [n, heads, seqQ, headDim] → k.shape = [n, heads, seqKv, headDim] →
    v.shape = [n, heads, seqKv, headDim] → mask.shape = [n, heads, seqQ, seqKv] →
    ∀ b < n, ∀ head < heads, ∀ row < seqQ, (shownColumns mask seqKv b head row).Nonempty →
      ∀ d < headDim, (attention q k v mask).entry [b, head, row, d] =
        (∑ column ∈ shownColumns mask seqKv b head row,
          exp (attentionScore scale q k headDim b head row column) *
            v.entry [b, head, column, d]) /
        ∑ column ∈ shownColumns mask seqKv b head row,
          exp (attentionScore scale q k headDim b head row column)

/-- The op itself, as arithmetic. -/
def softmaxAttention (q k v : Tensor K) (mask : Tensor Bool) : Tensor K where
  shape := q.shape
  entry index :=
    let b := index.getD 0 0
    let head := index.getD 1 0
    let row := index.getD 2 0
    let weight := fun column => exp (attentionScore scale q k (q.dim 3) b head row column)
    let shown := shownColumns mask (k.dim 2) b head row
    (∑ column ∈ shown, weight column * v.entry [b, head, column, index.getD 3 0]) /
      ∑ column ∈ shown, weight column

theorem isSoftmaxAttention_softmaxAttention (headDim : ℕ) :
    IsSoftmaxAttention exp scale headDim (softmaxAttention exp scale) := by
  intro q k v mask n heads seqQ seqKv hq hk _ _ b _ head _ row _ _ d _
  simp [softmaxAttention, Tensor.dim, hq, hk]

end Softmax

/-! ## The decode path -/

section Decode

variable {K : Type u}

/-- The buffers the decode path is handed: the query, the layer's pools, and the
plan's gather index and lengths. -/
def decodeOperands (q : Tensor K) (cache : KeyValueCache K) (plan : LanePlan) :
    PagedAttn.Operands K where
  q := q.flat
  kPool := cache.key.pool.flat
  vPool := cache.value.pool.flat
  blockTable := plan.gatherIdx.flat
  lengths := plan.lengths.flat

/-- The geometry read off those buffers. -/
def decodeShape (q : Tensor K) (cache : KeyValueCache K) (plan : LanePlan) (nRep : ℕ) (scale : K) :
    PagedAttn.DecodeShape K where
  n := q.dim 0
  numKvHeads := cache.key.pool.dim 2
  nRep := nRep
  headDim := q.dim 3
  blockSize := cache.key.pool.dim 1
  blocksPerLane := plan.gatherIdx.dim 0 / q.dim 0
  scale := scale

/-- An element of a pool at its multiplied-out address. -/
theorem StoreShape.flat_pool {store : BlockStore K} {numBlocks blockSize heads headDim : ℕ}
    (hstore : StoreShape store numBlocks blockSize heads headDim) (block : ℕ)
    {at_ head d : ℕ} (hat : at_ < blockSize) (hhead : head < heads) (hd : d < headDim) :
    store.pool.flat (((block * blockSize + at_) * heads + head) * headDim + d) =
      store.pool.entry [block, at_, head, d] := by
  have hbounds : Tensor.InBounds [blockSize, heads, headDim] [at_, head, d] :=
    .cons hat (.cons hhead (.cons hd .nil))
  have hindex : ((block * blockSize + at_) * heads + head) * headDim + d =
      block * [blockSize, heads, headDim].prod +
        Tensor.offset [blockSize, heads, headDim] [at_, head, d] := by
    simp only [Tensor.offset, List.prod_cons, List.prod_nil]
    ring
  rw [Tensor.flat, hstore.shape, hindex, Tensor.position_cons _ _ hbounds]

/-- An element of a one-token query at its multiplied-out address. -/
theorem flat_query {q : Tensor K} {n numHeads headDim : ℕ}
    (hq : q.shape = [n, numHeads, 1, headDim]) (j : ℕ) {head d : ℕ} (hhead : head < numHeads)
    (hd : d < headDim) :
    q.flat ((j * numHeads + head) * headDim + d) = q.entry [j, head, 0, d] := by
  have hbounds : Tensor.InBounds [numHeads, 1, headDim] [head, 0, d] :=
    .cons hhead (.cons Nat.one_pos (.cons hd .nil))
  have hindex : (j * numHeads + head) * headDim + d =
      j * [numHeads, 1, headDim].prod + Tensor.offset [numHeads, 1, headDim] [head, 0, d] := by
    simp only [Tensor.offset, List.prod_cons, List.prod_nil]
    ring
  rw [Tensor.flat, hq, hindex, Tensor.position_cons _ _ hbounds]

/-- A vector is its own row-major order. -/
theorem flat_vector {α : Type*} {tensor : Tensor α} {size : ℕ} (hshape : tensor.shape = [size])
    (at_ : ℕ) : tensor.flat at_ = tensor.entry [at_] := by
  simp [Tensor.flat, hshape, Tensor.position]

/-- The geometry of a round, in the round's own terms. -/
def roundShape (after : BlockPool) (lanes : List ℕ) (heads headDim nRep blocksPerLane : ℕ)
    (scale : K) : PagedAttn.DecodeShape K where
  n := lanes.length
  numKvHeads := heads
  nRep := nRep
  headDim := headDim
  blockSize := after.blockSize
  blocksPerLane := blocksPerLane
  scale := scale

theorem decodeShape_eq {pool after : BlockPool} {lanes : List ℕ} {numBlocks heads headDim nRep : ℕ}
    {kv : KeyValueCache K} {q : Tensor K} {scale : K}
    (hkv : kv.Shaped numBlocks after.blockSize heads headDim)
    (hq : q.shape = [lanes.length, heads * nRep, 1, headDim]) :
    let plan := LanePlan.ofCommit after lanes (lanes.map pool.laneLen) 1
    decodeShape q kv plan nRep scale =
      roundShape after lanes heads headDim nRep plan.blocksPerLane scale := by
  intro plan
  obtain ⟨hsize, hheads, _⟩ := (hkv .key).dims
  have hblocks : plan.gatherIdx.dim 0 / lanes.length = plan.blocksPerLane := by
    rw [LanePlan.dim_gatherIdx]
    rcases List.eq_nil_or_concat lanes with rfl | ⟨_, _, rfl⟩
    · simp [plan, LanePlan.ofCommit, zero_ceilDiv]
    · exact Nat.mul_div_cancel_left _ (by simp)
  have hdims : q.dim 0 = lanes.length ∧ q.dim 3 = headDim := by simp [Tensor.dim, hq]
  simp only [decodeShape, roundShape, hdims, hblocks, PagedAttn.DecodeShape.mk.injEq, true_and,
    and_true]
  exact ⟨hheads, hsize⟩

end Decode

/-! ## The two paths on one plan -/

section Round

variable {K : Type u} [Field K] {exp : K → K} {scale : K}
  {pool after : BlockPool} {lanes : List ℕ} {numBlocks heads headDim nRep : ℕ}
  {kv : KeyValueCache K} {q : Tensor K}

variable (q nRep scale) in
/-- What the reference attends over, below a lane's length, is what the walk reads. -/
theorem neutralized_flat (hkv : kv.Shaped numBlocks after.blockSize heads headDim)
    (hblock : 0 < after.blockSize) (side : Side) {tensor : Tensor K} {j lane : ℕ}
    (hj : lanes[j]? = some lane) :
    let plan := LanePlan.ofCommit after lanes (lanes.map pool.laneLen) 1
    (kv.gatherSide plan side).neutralized plan = some tensor →
    tensor.shape = [lanes.length, heads, plan.lMax, headDim] ∧
      ∀ kvHead < heads, ∀ column < pool.laneLen lane + 1, ∀ d < headDim,
        tensor.entry [j, kvHead, column, d] = (kv.store side).pool.flat
          (PagedAttn.keyRow (decodeOperands q kv plan)
            (roundShape after lanes heads headDim nRep plan.blocksPerLane scale) j kvHead column +
              d) := by
  intro plan htensor
  have hlive : ∀ column < pool.laneLen lane + 1, column < plan.lMax :=
    fun column hcolumn => LanePlan.lt_lMax_of_live hj hcolumn
  have hgathered := LanePlan.shape_gatherSide hkv hblock side (hlive _ (Nat.lt_succ_self _))
  obtain ⟨_, hsame, hshape, _⟩ := RaggedKv.exists_neutralized _ hgathered
    (LanePlan.shape_mask after lanes pool.laneLen 1)
  obtain rfl := Option.some.inj (htensor.symm.trans hsame)
  refine ⟨hshape.trans hgathered, fun kvHead hkvHead column hcolumn d hd => ?_⟩
  rw [LanePlan.neutralized_gather hkv hblock side htensor hj (hlive column hcolumn),
    LanePlan.entry_lengths after lanes pool.laneLen 1 hj, if_pos hcolumn, kv.gatherSide_eq,
    (hkv side).entry_gather hkvHead hd]
  have htable : ∀ at_, plan.gatherIdx.flat at_ = plan.gatherIdx.entry [at_] := flat_vector rfl
  rw [PagedAttn.keyRow]
  simp only [decodeOperands, roundShape, htable]
  exact ((hkv side).flat_pool _ (Nat.mod_lt _ hblock) hkvHead hd).symm

/-- Both paths score a live position alike. -/
theorem attentionScore_eq (hkv : kv.Shaped numBlocks after.blockSize heads headDim)
    (hblock : 0 < after.blockSize) (hq : q.shape = [lanes.length, heads * nRep, 1, headDim])
    {tensor : Tensor K} {j lane kvHead g column : ℕ} (hj : lanes[j]? = some lane)
    (hkvHead : kvHead < heads) (hg : g < nRep) (hcolumn : column < pool.laneLen lane + 1) :
    let plan := LanePlan.ofCommit after lanes (lanes.map pool.laneLen) 1
    let operands := decodeOperands q kv plan
    let shape := roundShape after lanes heads headDim nRep plan.blocksPerLane scale
    (kv.gatherSide plan .key).neutralized plan = some tensor →
    attentionScore scale q (repeatKv tensor nRep) headDim j (kvHead * nRep + g) 0 column =
      PagedAttn.score operands shape j kvHead (PagedAttn.keyRow operands shape j kvHead column)
        g := by
  intro plan operands shape htensor
  obtain ⟨hshape, hentry⟩ := neutralized_flat scale nRep q hkv hblock .key hj htensor
  have hrow : j < lanes.length := (List.getElem?_eq_some_iff.mp hj).1
  have hwidth : column < plan.lMax := LanePlan.lt_lMax_of_live hj hcolumn
  have hhead : kvHead * nRep + g < heads * nRep := Tensor.merged_lt hkvHead hg
  rw [attentionScore, PagedAttn.score]
  congr 1
  rw [← Fin.sum_univ_eq_sum_range]
  refine Finset.sum_congr rfl fun d _ => ?_
  rw [entry_repeatKv hshape hrow hkvHead hg hwidth d.isLt, hentry kvHead hkvHead column hcolumn d
    d.isLt, ← flat_query hq j hhead d.isLt]
  rfl

/-- The mask shows a lane's one query row exactly its live positions. -/
theorem shownColumns_eq {j lane head numHeads : ℕ} (hj : lanes[j]? = some lane)
    (hhead : head < numHeads) :
    let plan := LanePlan.ofCommit after lanes (lanes.map pool.laneLen) 1
    shownColumns (maskOverHeads plan.mask numHeads) plan.lMax j head 0 =
      Finset.range (pool.laneLen lane + 1) := by
  intro plan
  have hrow : j < lanes.length := (List.getElem?_eq_some_iff.mp hj).1
  ext column
  rw [shownColumns, Finset.mem_filter, Finset.mem_range, Finset.mem_range]
  constructor
  · rintro ⟨hwidth, hshown⟩
    rw [entry_maskOverHeads (LanePlan.shape_mask after lanes pool.laneLen 1) hrow hhead Nat.one_pos
      hwidth, LanePlan.entry_mask after lanes pool.laneLen 1 hj Nat.one_pos hwidth] at hshown
    simp only [Nat.add_zero, decide_eq_false_iff_not, not_lt] at hshown
    omega
  · intro hcolumn
    have hwidth : column < plan.lMax := LanePlan.lt_lMax_of_live hj hcolumn
    refine ⟨hwidth, ?_⟩
    rw [entry_maskOverHeads (LanePlan.shape_mask after lanes pool.laneLen 1) hrow hhead Nat.one_pos
      hwidth, LanePlan.entry_mask after lanes pool.laneLen 1 hj Nat.one_pos hwidth]
    simp only [Nat.add_zero, decide_eq_false_iff_not, not_lt]
    omega

/-- **An entry of the reference** is the softmax-weighted sum over the keys the
walk passes over. -/
theorem reference_entry {attention : Tensor K → Tensor K → Tensor K → Tensor Bool → Tensor K}
    (hattention : IsSoftmaxAttention exp scale headDim attention)
    (hkv : kv.Shaped numBlocks after.blockSize heads headDim) (hblock : 0 < after.blockSize)
    (hq : q.shape = [lanes.length, heads * nRep, 1, headDim]) {attended : Tensor K}
    {j lane kvHead g : ℕ} (hj : lanes[j]? = some lane) (hkvHead : kvHead < heads)
    (hg : g < nRep) :
    let plan := LanePlan.ofCommit after lanes (lanes.map pool.laneLen) 1
    let shape := roundShape after lanes heads headDim nRep plan.blocksPerLane scale
    let keys := PagedAttn.headKeys (decodeOperands q kv plan) shape j kvHead g
      (List.range (pool.laneLen lane + 1))
    pagedAttentionReference attention q kv plan nRep = some attended → ∀ d : Fin shape.headDim,
    attended.entry [j, kvHead * nRep + g, 0, d] =
      ((Softmax.weightAt exp 0 keys)⁻¹ • Softmax.valueAt exp 0 keys) d := by
  intro plan shape keys hattended d
  obtain ⟨k, hk, v, hv, rfl⟩ : ∃ k, (kv.gatherSide plan .key).neutralized plan = some k ∧
      ∃ v, (kv.gatherSide plan .value).neutralized plan = some v ∧
        attention q (repeatKv k nRep) (repeatKv v nRep) (maskOverHeads plan.mask (heads * nRep)) =
          attended := by
    have hheads : q.dim 1 = heads * nRep := by simp [Tensor.dim, hq]
    rw [← hheads]
    simpa [pagedAttentionReference, Option.bind_eq_some_iff, KeyValueCache.gatherSide] using
      hattended
  obtain ⟨hkshape, _⟩ := neutralized_flat scale nRep q hkv hblock .key hj hk
  obtain ⟨hvshape, hvalue⟩ := neutralized_flat scale nRep q hkv hblock .value hj hv
  have hrow : j < lanes.length := (List.getElem?_eq_some_iff.mp hj).1
  have hhead : kvHead * nRep + g < heads * nRep := Tensor.merged_lt hkvHead hg
  have hshown : shownColumns (maskOverHeads plan.mask (heads * nRep)) plan.lMax j
      (kvHead * nRep + g) 0 = Finset.range (pool.laneLen lane + 1) := shownColumns_eq hj hhead
  have hsome : (shownColumns (maskOverHeads plan.mask (heads * nRep)) plan.lMax j
      (kvHead * nRep + g) 0).Nonempty := by
    rw [hshown]
    exact ⟨0, Finset.mem_range.mpr (Nat.succ_pos _)⟩
  rw [hattention q _ _ _ _ _ _ _ hq (shape_repeatKv hkshape nRep) (shape_repeatKv hvshape nRep)
    (shape_maskOverHeads (LanePlan.shape_mask after lanes pool.laneLen 1) _) j hrow _ hhead 0
    Nat.one_pos hsome d d.isLt, hshown]
  have hscore : ∀ column ∈ Finset.range (pool.laneLen lane + 1),
      attentionScore scale q (repeatKv k nRep) headDim j (kvHead * nRep + g) 0 column = _ :=
    fun column hcolumn => attentionScore_eq hkv hblock hq hj hkvHead hg
      (Finset.mem_range.mp hcolumn) hk
  rw [Pi.smul_apply, smul_eq_mul, inv_mul_eq_div]
  congr 1
  · simp only [keys, PagedAttn.headKeys, Softmax.valueAt_range, Finset.sum_apply, sub_zero]
    refine Finset.sum_congr rfl fun column hcolumn => ?_
    have hlive := Finset.mem_range.mp hcolumn
    rw [hscore column hcolumn, entry_repeatKv hvshape hrow hkvHead hg
      (LanePlan.lt_lMax_of_live hj hlive) d.isLt, hvalue kvHead hkvHead column hlive d d.isLt]
    rfl
  · simp only [keys, PagedAttn.headKeys, Softmax.weightAt_range, sub_zero]
    exact Finset.sum_congr rfl fun column hcolumn => congrArg exp (hscore column hcolumn)

variable (q nRep) in
/-- A round of one token per lane has a last query row, so the reference answers. -/
theorem exists_pagedAttentionReference
    (attention : Tensor K → Tensor K → Tensor K → Tensor Bool → Tensor K) :
    ∃ attended, pagedAttentionReference attention q kv
      (.ofCommit after lanes (lanes.map pool.laneLen) 1) nRep = some attended := by
  have hmask : (LanePlan.ofCommit after lanes (lanes.map pool.laneLen) 1).mask.dim 2 = 1 := rfl
  simp [pagedAttentionReference, RaggedKv.neutralized, hmask]

/-- The two paths on one plan. -/
theorem round_walk_eq_reference [LinearOrder K] [IsStrictOrderedRing K] (hexp : Exponential exp)
    {attention : Tensor K → Tensor K → Tensor K → Tensor Bool → Tensor K}
    (hattention : IsSoftmaxAttention exp scale headDim attention)
    (hkv : kv.Shaped numBlocks after.blockSize heads headDim) (hblock : 0 < after.blockSize)
    (hq : q.shape = [lanes.length, heads * nRep, 1, headDim]) {plan : LanePlan}
    (hplan : plan = .ofCommit after lanes (lanes.map pool.laneLen) 1)
    {shape : PagedAttn.DecodeShape K}
    (hshape : shape = roundShape after lanes heads headDim nRep plan.blocksPerLane scale)
    (habove : PagedAttn.AboveSentinel (decodeOperands q kv plan) shape) :
    ∃ walked attended,
      PagedAttn.decodeReferenceOnline exp (decodeOperands q kv plan) shape = some walked ∧
      pagedAttentionReference attention q kv plan nRep = some attended ∧
      (∀ j < lanes.length, ∀ head < heads * nRep, ∀ d < headDim,
        walked ((j * (heads * nRep) + head) * headDim + d) = attended.entry [j, head, 0, d]) ∧
      ∀ j < lanes.length, ∀ kvHead < heads, ∀ g : Fin shape.nRep,
        1 ≤ (PagedAttn.walkLane exp (decodeOperands q kv plan) shape j kvHead g).l := by
  subst hplan hshape
  set plan := LanePlan.ofCommit after lanes (lanes.map pool.laneLen) 1
  have hlength : ∀ j (hj : j < lanes.length),
      (decodeOperands q kv plan).lengths j = pool.laneLen lanes[j] + 1 :=
    fun j hj => (flat_vector rfl j).trans
      (LanePlan.entry_lengths _ _ _ _ (List.getElem?_eq_getElem hj))
  have hlens : ∀ j < lanes.length, 1 ≤ (decodeOperands q kv plan).lengths j := by
    intro j hj
    rw [hlength j hj]
    exact Nat.succ_pos _
  obtain ⟨walked, hwalked, hentry⟩ :=
    PagedAttn.exists_decodeReferenceOnline_softmax hexp hblock hlens habove
  obtain ⟨attended, hattended⟩ : ∃ attended,
      pagedAttentionReference attention q kv plan nRep = some attended :=
    exists_pagedAttentionReference nRep q attention
  refine ⟨walked, attended, hwalked, hattended, fun j hj head hhead d hd => ?_,
    fun j hj kvHead hkvHead g =>
      PagedAttn.one_le_denominator hexp hblock hlens habove hj hkvHead g⟩
  have hrep : 0 < nRep := Nat.pos_of_mul_pos_left (Nat.zero_lt_of_lt hhead)
  have hkvHead : head / nRep < heads := (Nat.div_lt_iff_lt_mul hrep).mpr hhead
  have hg : head % nRep < nRep := Nat.mod_lt _ hrep
  have hsplit : head / nRep * nRep + head % nRep = head := Nat.div_add_mod' head nRep
  have hreference := reference_entry hattention hkv hblock hq (List.getElem?_eq_getElem hj) hkvHead
    hg hattended ⟨d, hd⟩
  rw [hsplit, ← hlength j hj] at hreference
  rw [hreference, ← hentry j hj (head / nRep) hkvHead ⟨head % nRep, hg⟩ ⟨d, hd⟩]
  simp only [roundShape, PagedAttn.DecodeShape.numHeads, hsplit]

end Round

namespace LoggedCache

variable {K : Type u} [Field K] [LinearOrder K] [IsStrictOrderedRing K] {layout : KvLayout}
  {maxLanes blockSize usableBlocks : ℕ} {uninit : ℕ → (List ℕ → K) × (List ℕ → K)}
  {cache : PagedKvCache K}

/-- **The walk and the reference agree.** Take the plan of any granted round of one
token per lane, in any run, and any contents of a layer. If no score lies below the
sentinel the walk starts from, the walk over the plan's table and lengths returns
the reference's attention output entry by entry, and its denominators are at least
one, so clamping them changes nothing. -/
theorem walk_eq_reference {exp : K → K} (hexp : Exponential exp)
    (hnew : PagedKvCache.new layout maxLanes blockSize usableBlocks uninit = some cache)
    (ops : List (CacheOp K layout maxLanes)) (lanes : RoundLanes maxLanes)
    {plan : LanePlan} {planned : PagedKvCache K}
    (hround : ((start cache).run ops).cache.prepareLanes lanes.lanes 1 = (.ok plan, planned))
    {numBlocks : ℕ} {kv : KeyValueCache K}
    (hkv : kv.Shaped numBlocks blockSize layout.nKvHeads layout.headDim) {nRep : ℕ} {q : Tensor K}
    (hq : q.shape = [lanes.lanes.length, layout.nKvHeads * nRep, 1, layout.headDim]) {scale : K}
    {attention : Tensor K → Tensor K → Tensor K → Tensor Bool → Tensor K}
    (hattention : IsSoftmaxAttention exp scale layout.headDim attention)
    (habove : PagedAttn.AboveSentinel (decodeOperands q kv plan)
      (decodeShape q kv plan nRep scale)) :
    let operands := decodeOperands q kv plan
    let shape := decodeShape q kv plan nRep scale
    ∃ walked attended,
      PagedAttn.decodeReferenceOnline exp operands shape = some walked ∧
      pagedAttentionReference attention q kv plan nRep = some attended ∧
      (∀ j < lanes.lanes.length, ∀ head < layout.nKvHeads * nRep, ∀ d < layout.headDim,
        walked ((j * (layout.nKvHeads * nRep) + head) * layout.headDim + d) =
          attended.entry [j, head, 0, d]) ∧
      ∀ j < lanes.lanes.length, ∀ kvHead < layout.nKvHeads, ∀ g : Fin shape.nRep,
        1 ≤ (PagedAttn.walkLane exp operands shape j kvHead g).l := by
  have hbefore := (Mirrored.start hnew).run ops
  obtain ⟨hcommit, hplan, _, _⟩ := hbefore.granted (.filled lanes 1 0) hround
  simp only [Round.filled] at hcommit hplan
  have hblock : 0 < planned.pool.blockSize := (hcommit.partitioned hbefore.pool).blockSize_pos
  obtain rfl : planned.pool.blockSize = blockSize := hcommit.blockSize.trans hbefore.blockSize_eq
  subst hplan
  exact round_walk_eq_reference hexp hattention hkv hblock hq rfl (decodeShape_eq hkv hq) habove

/-- Two lanes of four and three tokens in blocks of two, two query heads over one
key/value head, with the real exponential and the default scale. -/
theorem walk_eq_reference_two_lanes :
    let layout : KvLayout := ⟨1, 1, 2, 4, by decide⟩
    let first : RoundLanes 2 := ⟨[0], by decide, by decide⟩
    let second : RoundLanes 2 := ⟨[1], by decide, by decide⟩
    let both : RoundLanes 2 := ⟨[0, 1], by decide, by decide⟩
    let ops : List (CacheOp ℝ layout 2) :=
      [.round (.filled first 3 0), .round (.filled second 2 0)]
    let contents : BlockStore ℝ := ⟨⟨[5, 2, 1, 2], fun index => (index.sum : ℝ)⟩⟩
    let kv : KeyValueCache ℝ := ⟨contents, contents, 2⟩
    let q : Tensor ℝ := ⟨[2, 2, 1, 2], fun _ => 1⟩
    let scale : ℝ := 1 / √2
    ∃ cache plan planned walked attended,
      PagedKvCache.new layout 2 2 4 (fun _ => (fun _ => 1, fun _ => 1)) = some cache ∧
      ((start cache).run ops).cache.prepareLanes both.lanes 1 = (.ok plan, planned) ∧
      PagedAttn.decodeReferenceOnline Real.exp (decodeOperands q kv plan)
        (decodeShape q kv plan 2 scale) = some walked ∧
      pagedAttentionReference (softmaxAttention Real.exp scale) q kv plan 2 = some attended ∧
      ∀ j < 2, ∀ head < 2, ∀ d < 2,
        walked ((j * 2 + head) * 2 + d) = attended.entry [j, head, 0, d] := by
  intro layout first second both ops contents kv q scale
  let cache := (PagedKvCache.new layout 2 2 4 (fun _ => (fun _ => (1 : ℝ), fun _ => 1))).get
    (by decide +kernel)
  have hok : (((start cache).run ops).cache.prepareLanes both.lanes 1).1.isOk := by
    decide +kernel
  have hnew : PagedKvCache.new layout 2 2 4 (fun _ => (fun _ => (1 : ℝ), fun _ => 1)) =
      some cache := (Option.some_get _).symm
  obtain ⟨plan, planned, hround⟩ := exists_granted hok
  have hkv : kv.Shaped 5 2 1 2 := fun side => by cases side <;> exact ⟨rfl, by decide⟩
  have habove : PagedAttn.AboveSentinel (decodeOperands q kv plan)
      (decodeShape q kv plan 2 scale) := by
    intro lane _ kvHead _ g _ position _
    refine le_trans (by norm_num [PagedAttn.negSentinel]) (mul_nonneg (Finset.sum_nonneg
      fun d _ => mul_nonneg zero_le_one ?_) (by positivity : 0 ≤ scale))
    exact Nat.cast_nonneg _
  obtain ⟨walked, attended, hwalked, hattended, hsame, _⟩ := walk_eq_reference exponential_real
    hnew ops both hround hkv (rfl : q.shape = [2, 1 * 2, 1, 2])
    (isSoftmaxAttention_softmaxAttention Real.exp scale 2) habove
  exact ⟨cache, plan, planned, walked, attended, hnew, hround, hwalked, hattended, hsame⟩

end LoggedCache

end BurnLm.PagedKv
