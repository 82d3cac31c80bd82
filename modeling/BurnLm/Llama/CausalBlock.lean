/-
# What a block computes

A block has a meaning of its own, without lanes, plans or caches: a causal layer.
The row at a position leaves a rotated key and a value per head; it is answered by
the softmax over all records up to its own, behind the norms and around the
residuals. Both forwards compute this layer. The lane-aware one continues from
the records its lane's live positions hold; the training one starts from none.
-/

import BurnLm.Llama.Transformer
import BurnLm.Math.CausalStack

namespace BurnLm.Llama

open BurnLm.Math BurnLm.PagedKv
open scoped BigOperators

universe u

/-! ## Rows of a tensor -/

section Rows

variable {α : Type u}

/-- The rows of one lane, in order. -/
def laneRows (x : Tensor α) (width q j : ℕ) : List (Fin width → α) :=
  (List.range q).map (tokenRow x width j)

@[simp]
theorem length_laneRows (x : Tensor α) (width q j : ℕ) : (laneRows x width q j).length = q := by
  simp [laneRows]

/-- One head's channels out of a token's row. -/
def headRow {heads headDim : ℕ} (row : Fin (heads * headDim) → α) (head : Fin heads) :
    Fin headDim → α :=
  fun channel => row (finProdFinEquiv (head, channel))

/-- One head's channels at one place of a batch. -/
def headAt (x : Tensor α) (headDim j head r : ℕ) : Fin headDim → α :=
  fun channel => x.entry [j, head, r, channel]

/-- Indexed over a range, a list is read place by place. -/
theorem mapIdx_map_range {β γ : Type*} (count : ℕ) (item : ℕ → β) (image : ℕ → β → γ) :
    ((List.range count).map item).mapIdx image =
      (List.range count).map fun i => image i (item i) := by
  refine List.ext_getElem (by simp) fun i _ _ => ?_
  simp

variable {y : Tensor α} {n q heads headDim j r : ℕ}

variable (y n q heads headDim) in
theorem shape_split :
    ((y.reshape [n, q, heads, headDim]).swapDims 1 2).shape = [n, heads, q, headDim] := by
  simp [Tensor.swapDims, Tensor.swapAt, Tensor.reshape]

/-- Splitting a projection into heads. -/
theorem headAt_split (hy : y.shape = [n, q, heads * headDim]) (hj : j < n) (hr : r < q)
    (head : Fin heads) :
    headAt ((y.reshape [n, q, heads, headDim]).swapDims 1 2) headDim j head r =
      headRow (tokenRow y (heads * headDim) j r) head := by
  funext channel
  have hmerged : (head : ℕ) * headDim + channel < heads * headDim :=
    Tensor.merged_lt head.isLt channel.isLt
  have hsource : Tensor.InBounds y.shape [j, r, head * headDim + channel] :=
    hy ▸ .cons hj (.cons hr (.cons hmerged .nil))
  have hread : headAt ((y.reshape [n, q, heads, headDim]).swapDims 1 2) headDim j head r channel =
      y.entry [j, r, head * headDim + channel] := by
    refine y.entry_reshape hsource ?_
    rw [hy]
    simp only [Tensor.swapAt, Tensor.offset, List.prod_cons, List.prod_nil, List.getD_cons_succ,
      List.getD_cons_zero, List.set_cons_succ, List.set_cons_zero]
    ring
  have hplace : (finProdFinEquiv (head, channel) : ℕ) = head * headDim + channel := by
    rw [finProdFinEquiv_apply_val]
    ring
  rw [hread, headRow, tokenRow, hplace]

/-- Joining the heads of an attention output. -/
theorem headRow_merge {hidden : ℕ} (hhidden : heads * headDim = hidden)
    (hy : y.shape = [n, heads, q, headDim]) (hj : j < n) (hr : r < q) (head : Fin heads) :
    headRow (tokenRow ((y.swapDims 1 2).reshape [n, q, hidden]) (heads * headDim) j r) head =
      headAt y headDim j head r := by
  subst hhidden
  funext channel
  have hshape : (y.swapDims 1 2).shape = [n, q, heads, headDim] := by
    simp [Tensor.swapDims, Tensor.swapAt, hy]
  have hsource : Tensor.InBounds (y.swapDims 1 2).shape [j, r, head, channel] :=
    hshape ▸ .cons hj (.cons hr (.cons head.isLt (.cons channel.isLt .nil)))
  refine (Tensor.entry_reshape _ hsource ?_).trans ?_
  · rw [hshape, finProdFinEquiv_apply_val]
    simp only [Tensor.offset, List.prod_cons, List.prod_nil]
    ring
  · simp [Tensor.swapDims, Tensor.swapAt, headAt]

/-- A row is known by its heads. -/
theorem row_ext_heads {first second : Fin (heads * headDim) → α}
    (hheads : ∀ head, headRow first head = headRow second head) : first = second := by
  funext i
  obtain ⟨⟨head, channel⟩, rfl⟩ := finProdFinEquiv.surjective i
  exact congrFun (hheads head) channel

end Rows

/-! ## The meaning of a block -/

variable {K : Type u} [Field K] {config : TransformerConfig}

/-- A head turned by the table's row of a position: pairs of neighbours, each by
its own angle. -/
def turned (rope : RotaryEncoding K) (position : ℕ) {width : ℕ} (head : Fin width → K) :
    Fin width → K := fun channel =>
  let cosine := rope.freqComplex.entry [position, channel, 0]
  let sine := rope.freqComplex.entry [position, channel, 1]
  if (channel : ℕ) % 2 = 0 then head channel * cosine - extend head (channel + 1) * sine
  else head channel * cosine + extend head (channel - 1) * sine

/-- What is assumed of the library's ops: attention forms the softmax-weighted sum
over the columns a mask shows, repeats a mask of one batch and head, and shows
everything without one; and whole sequences are rotated row by row from position
zero. -/
structure TensorOps.Honest (ops : TensorOps K) (exp : K → K) (scale : K)
    (config : TransformerConfig) : Prop where
  scaled : ops.invSqrt config.headDim = scale
  attends : IsSoftmaxAttention exp scale config.headDim
    fun q k v mask => ops.attention q k v (some mask)
  shape_attention : ∀ (q k v : Tensor K) (mask : Option (Tensor Bool)),
    (ops.attention q k v mask).shape = q.shape
  broadcasts : ∀ {q k v : Tensor K} {mask : Tensor Bool} {n heads seqQ seqKv : ℕ},
    q.shape = [n, heads, seqQ, config.headDim] → k.shape = [n, heads, seqKv, config.headDim] →
      mask.shape = [1, 1, seqQ, seqKv] → ops.attention q k v (some mask) =
        ops.attention q k v (some (mask.expand [n, heads, seqQ, seqKv]))
  unmasked : ∀ {q k v : Tensor K} {n heads seqQ seqKv : ℕ},
    q.shape = [n, heads, seqQ, config.headDim] → k.shape = [n, heads, seqKv, config.headDim] →
      ops.attention q k v none =
        ops.attention q k v (some ⟨[n, heads, seqQ, seqKv], fun _ => false⟩)
  shape_rope : ∀ (rope : RotaryEncoding K) (x : Tensor K), (ops.ropeForward rope x).shape = x.shape
  rotates : ∀ {rope : RotaryEncoding K} {x : Tensor K} {rows n heads q : ℕ},
    rope.freqComplex.shape = [rows, config.headDim, 2] → q ≤ rows →
      x.shape = [n, heads, q, config.headDim] → ∀ {j head r : ℕ}, j < n → head < heads → r < q →
        headAt (ops.ropeForward rope x) config.headDim j head r =
          turned rope r (headAt x config.headDim j head r)

/-- What a round of one token per lane may rely on: its sizes fit the words they are
handed on in, and its scores lie in a range. -/
structure Decodable (config : TransformerConfig) (scale : K) (inRange : K → Prop)
    (pool after : BlockPool) (lanes : List ℕ) (q : Tensor K) (cache : KeyValueCache K) : Prop where
  words : InWords lanes.length config.nKvHeads config.nRep after.blockSize
    (LanePlan.ofCommit after lanes (lanes.map pool.laneLen) 1).blocksPerLane
  scores : ∀ {j lane : ℕ}, lanes[j]? = some lane → ∀ head : Fin config.nHeads,
    ∀ key ∈ scoredKeys scale (headAt q config.headDim j head 0)
      (cache.laneRecords after config.nKvHeads config.headDim lane) (head / config.nRep),
        inRange key.1

/-- What the layers rely on of a device: honest ops, and a kernel that, where it
answers, answers what the reference does. -/
structure Device.Honest (device : Device K) (exp : K → K) (scale : K) (inRange : K → Prop)
    (config : TransformerConfig) : Prop where
  ops : device.toTensorOps.Honest exp scale config
  decodes : ∀ {pool after : BlockPool} {lanes : List ℕ} {numBlocks : ℕ} {q : Tensor K}
    {cache : KeyValueCache K}, pool.Partitioned → BlockPool.Committed pool lanes 1 after →
      lanes ≠ [] → cache.Shaped numBlocks after.blockSize config.nKvHeads config.headDim →
      q.shape = [lanes.length, config.nHeads, 1, config.headDim] →
      Decodable config scale inRange pool after lanes q cache →
      let plan := LanePlan.ofCommit after lanes (lanes.map pool.laneLen) 1
      ∃ answer attended, device.pagedDecode scale q cache plan config.nRep = .ok answer ∧
        pagedAttentionReference (fun q k v mask => device.attention q k v (some mask)) q cache plan
          config.nRep = some attended ∧
        ∀ out, answer = some out → out.shape = attended.shape ∧
          ∀ index, Tensor.InBounds out.shape index → out.entry index = attended.entry index

/-- The key/value head a query head belongs to, and its place there. -/
theorem TransformerConfig.Fits.group (hfits : config.Fits) (head : Fin config.nHeads) :
    (head : ℕ) / config.nRep < config.nKvHeads ∧ (head : ℕ) % config.nRep < config.nRep := by
  have hrep : 0 < config.nRep := by
    rcases Nat.eq_zero_or_pos config.nRep with hzero | hpos
    · have hnone := hfits.groups
      rw [hzero, Nat.mul_zero] at hnone
      exact absurd head.isLt (by omega)
    · exact hpos
  exact ⟨(Nat.div_lt_iff_lt_mul hrep).mpr (hfits.groups.symm ▸ head.isLt), Nat.mod_lt _ hrep⟩

namespace MultiHeadAttention

variable (mha : MultiHeadAttention K config) (rope : RotaryEncoding K) (position : ℕ)
  (row : Fin config.dModel → K)

/-- What a row leaves on record: its rotated keys and its values. -/
def record : TokenKv K config.nKvHeads config.headDim
  | .key => fun head => turned rope position (headRow (mha.wk.row row) head)
  | .value => headRow (mha.wv.row row)

/-- What a row is answered from records: every head's softmax, projected. -/
def attend (exp : K → K) (scale : K) (records : List (TokenKv K config.nKvHeads config.headDim)) :
    Fin config.dModel → K :=
  mha.wo.row fun i =>
    let head := (finProdFinEquiv.symm i).1
    let query := turned rope position (headRow (mha.wq.row row) head)
    softmaxRow exp (scoredKeys scale query records (head / config.nRep)) (finProdFinEquiv.symm i).2

/-- The score of a row's query head at a record. -/
def score (scale : K) (record : TokenKv K config.nKvHeads config.headDim)
    (head : Fin config.nHeads) : K :=
  let query : Fin config.headDim → K := turned rope position (headRow (mha.wq.row row) head)
  let key : Fin config.headDim → K := extend (record .key) (head / config.nRep)
  (∑ channel, query channel * key channel) * scale

/-- The scores of rows out of a set, at the records of such rows at or before their
positions, lie in a range. -/
def Tempered (scale : K) (rows : ℕ) (fed : Set (Fin config.dModel → K)) (inRange : K → Prop) :
    Prop :=
  ∀ position < rows, ∀ past ≤ position, ∀ row ∈ fed, ∀ before ∈ fed, ∀ head,
    inRange (mha.score rope position row scale (mha.record rope past before) head)

variable {mha rope position row}

/-- A tempered row's keys score in range. -/
theorem Tempered.scored {scale : K} {rows : ℕ} {fed : Set (Fin config.dModel → K)}
    {inRange : K → Prop} (htempered : mha.Tempered rope scale rows fed inRange)
    {befores : List (Fin config.dModel → K)} (hbefores : ∀ before ∈ befores, before ∈ fed)
    (hposition : position < rows) (hrow : row ∈ fed) (head : Fin config.nHeads)
    {key : K × (Fin config.headDim → K)}
    (hkey : key ∈ scoredKeys scale (turned rope position (headRow (mha.wq.row row) head))
      ((befores.mapIdx fun past before => mha.record rope past before).take (position + 1))
        (head / config.nRep)) : inRange key.1 := by
  obtain ⟨record, hrecord, rfl⟩ := List.mem_map.mp hkey
  obtain ⟨past, hpast, rfl⟩ := List.getElem_of_mem hrecord
  rw [List.length_take, lt_min_iff] at hpast
  rw [List.getElem_take, List.getElem_mapIdx]
  exact htempered position hposition past (Nat.lt_succ_iff.mp hpast.1) row hrow _
    (hbefores _ (List.getElem_mem _)) head

end MultiHeadAttention

/-- What the residuals make of a row and what its attention answered. -/
def TransformerBlock.finishRow (block : TransformerBlock K config)
    (row attended : Fin config.dModel → K) : Fin config.dModel → K :=
  let h := row + attended
  h + block.feedForward.w2.row (block.feedForward.swiglu.row (block.ffnNorm.row h))

/-- The causal layer a block computes. -/
def TransformerBlock.causal (block : TransformerBlock K config) (exp : K → K) (scale : K)
    (rope : RotaryEncoding K) :
    CausalLayer (Fin config.dModel → K) (TokenKv K config.nKvHeads config.headDim) where
  record position row := block.attention.record rope position (block.attentionNorm.row row)
  answer position row records := block.finishRow row
    (block.attention.attend rope position (block.attentionNorm.row row) exp scale records)

/-- A block whose attention is tempered on what its norm feeds it. -/
def TransformerBlock.Tempered (block : TransformerBlock K config) (scale : K)
    (rope : RotaryEncoding K) (rows : ℕ) (inRange : K → Prop) : Prop :=
  block.attention.Tempered rope scale rows (Set.range block.attentionNorm.row) inRange

/-! ## Residuals, projections and rotations -/

section Steps

/-- Both forms of a block end alike: residual, norm, feed-forward, residual. -/
theorem finish_rows (block : TransformerBlock K config) {x attended : Tensor K} {n q : ℕ}
    (hx : x.shape = [n, q, config.dModel]) :
    let h := addTensor x attended
    let out := addTensor h (block.feedForward.forward (block.ffnNorm.forward h))
    out.shape = [n, q, config.dModel] ∧ ∀ {j r : ℕ}, j < n → r < q →
      tokenRow out config.dModel j r =
        block.finishRow (tokenRow x config.dModel j r) (tokenRow attended config.dModel j r) := by
  intro h out
  have hh : h.shape = [n, q, config.dModel] := hx
  have hnormed := block.ffnNorm.shape_forward hh
  have hgated := block.feedForward.swiglu.shape_forward hnormed
  refine ⟨hx, fun {j r} hj hr => ?_⟩
  have hfed : tokenRow (block.feedForward.forward (block.ffnNorm.forward h)) config.dModel j r =
      block.feedForward.w2.row (block.feedForward.swiglu.row
        (block.ffnNorm.row (tokenRow h config.dModel j r))) := by
    rw [FeedForward.forward, block.feedForward.w2.row_forward hgated hj hr,
      block.feedForward.swiglu.row_forward hnormed hj hr, block.ffnNorm.row_forward hh hj hr]
  exact congrArg (tokenRow h config.dModel j r + ·) hfed

variable {n q j r : ℕ} {input : Tensor K}

omit [Field K] in
/-- The axes and the heads of the three projections. -/
theorem forwardProjection_eq (mha : MultiHeadAttention K config)
    (hinput : input.shape = [n, q, config.dModel]) :
    let projected := mha.forwardProjection input
    projected.1.shape = [n, config.nHeads, q, config.headDim] ∧
      projected.2.1.shape = [n, config.nKvHeads, q, config.headDim] ∧
      projected.2.2.shape = [n, config.nKvHeads, q, config.headDim] ∧
      ∀ {j r : ℕ}, j < n → r < q →
        (∀ head : Fin config.nHeads, headAt projected.1 config.headDim j head r =
          headRow (mha.wq.row (tokenRow input config.dModel j r)) head) ∧
        (∀ head : Fin config.nKvHeads, headAt projected.2.1 config.headDim j head r =
          headRow (mha.wk.row (tokenRow input config.dModel j r)) head) ∧
        ∀ head : Fin config.nKvHeads, headAt projected.2.2 config.headDim j head r =
          headRow (mha.wv.row (tokenRow input config.dModel j r)) head := by
  intro projected
  have hdims : input.dim 0 = n ∧ input.dim 1 = q := by simp [Tensor.dim, hinput]
  simp only [projected, MultiHeadAttention.forwardProjection, hdims.1, hdims.2]
  refine ⟨shape_split .., shape_split .., shape_split .., fun hj hr => ⟨?_, ?_, ?_⟩⟩
  · intro head
    rw [headAt_split (mha.wq.shape_forward hinput) hj hr, mha.wq.row_forward hinput hj hr]
  · intro head
    rw [headAt_split (mha.wk.shape_forward hinput) hj hr, mha.wk.row_forward hinput hj hr]
  · intro head
    rw [headAt_split (mha.wv.shape_forward hinput) hj hr, mha.wv.row_forward hinput hj hr]

variable [Inhabited K]

/-- A round's rotation turns every head at its own absolute position. -/
theorem headAt_applyRopeLanes {rope : RotaryEncoding K} {x : Tensor K} {starts : List ℕ}
    {heads rows head start : ℕ} (hpairs : 2 * (config.headDim / 2) = config.headDim)
    (htable : rope.freqComplex.shape = [rows, config.headDim, 2])
    (hx : x.shape = [n, heads, q, config.headDim]) (hstart : starts[j]? = some start) (hj : j < n)
    (hhead : head < heads) (hr : r < q) :
    headAt (applyRopeLanes rope x starts) config.headDim j head r =
      turned rope (start + r) (headAt x config.headDim j head r) := by
  funext channel
  have hchannel : (channel : ℕ) < 2 * (config.headDim / 2) := hpairs.symm ▸ channel.isLt
  obtain ⟨heven, hodd⟩ := @entry_applyRopeLanes K _ _ rope x starts n heads q (config.headDim / 2)
    rows j head r start (hpairs.symm ▸ htable) (hpairs.symm ▸ hx) hstart hj hhead hr
    ((channel : ℕ) / 2) (by omega)
  rcases Nat.mod_two_eq_zero_or_one channel with hmod | hmod
  · have hsplit : 2 * ((channel : ℕ) / 2) = channel := by omega
    rw [hsplit] at heven
    rw [turned, if_pos hmod, extend_of_lt _ (by omega)]
    exact heven
  · have hsplit : 2 * ((channel : ℕ) / 2) + 1 = channel := by omega
    have hbefore : 2 * ((channel : ℕ) / 2) = channel - 1 := by omega
    rw [hsplit, hbefore] at hodd
    rw [turned, if_neg (by omega), extend_of_lt _ (by omega)]
    exact hodd

theorem shape_applyRopeLanes {rope : RotaryEncoding K} {x : Tensor K} {starts : List ℕ}
    {heads headDim : ℕ} (hx : x.shape = [n, heads, q, headDim]) :
    (applyRopeLanes rope x starts).shape = [n, heads, q, headDim] := by
  simp [applyRopeLanes, Tensor.reshape, Tensor.dim, hx]

end Steps

/-! ## The lane-aware block -/

section Lanes

variable [Inhabited K] {exp : K → K} {scale : K} {inRange : K → Prop} {device : Device K}
  {rope : RotaryEncoding K} {rows numBlocks seqLen : ℕ} {pool after : BlockPool} {lanes : List ℕ}
  {kv : KeyValueCache K} {input : Tensor K}

/-- The plan of a granted round. -/
abbrev planOf (pool after : BlockPool) (lanes : List ℕ) (seqLen : ℕ) : LanePlan :=
  .ofCommit after lanes (lanes.map pool.laneLen) seqLen

/-- A round that was granted: distinct lanes, at least one token each, inside the
rotation table and the words its sizes are handed on in. -/
structure GrantedRound (config : TransformerConfig) (rows : ℕ) (pool after : BlockPool)
    (lanes : List ℕ) (seqLen : ℕ) : Prop where
  nodup : lanes.Nodup
  nonempty : lanes ≠ []
  seqLen_pos : 0 < seqLen
  before : pool.Partitioned
  commit : BlockPool.Committed pool lanes seqLen after
  within : ∀ lane ∈ lanes, pool.laneLen lane + seqLen ≤ rows
  words : InWords lanes.length config.nKvHeads config.nRep after.blockSize
    (planOf pool after lanes seqLen).blocksPerLane

omit [Inhabited K] in
/-- What the attention of a round answers: for every query head, the softmax over
its lane's records up to the row's own position. -/
theorem exists_pagedAttention (hdevice : device.Honest exp scale inRange config)
    (hfits : config.Fits) (hround : GrantedRound config rows pool after lanes seqLen)
    (hkv : kv.Shaped numBlocks after.blockSize config.nKvHeads config.headDim) {q : Tensor K}
    (hq : q.shape = [lanes.length, config.nHeads, seqLen, config.headDim])
    (hscores : ∀ {j lane : ℕ}, lanes[j]? = some lane → ∀ head : Fin config.nHeads,
      ∀ key ∈ scoredKeys scale (headAt q config.headDim j head 0)
        ((kv.laneRecords after config.nKvHeads config.headDim lane).take (pool.laneLen lane + 1))
          (head / config.nRep), inRange key.1) :
    ∃ out, pagedAttention device q kv (planOf pool after lanes seqLen) config.nRep = some out ∧
      out.shape = [lanes.length, config.nHeads, seqLen, config.headDim] ∧
      ∀ {j lane r : ℕ}, lanes[j]? = some lane → r < seqLen → ∀ head : Fin config.nHeads,
        headAt out config.headDim j head r =
          softmaxRow exp (scoredKeys scale (headAt q config.headDim j head r)
            ((kv.laneRecords after config.nKvHeads config.headDim lane).take
              (pool.laneLen lane + r + 1)) (head / config.nRep)) := by
  have hafter := hround.commit
  have hblock : 0 < after.blockSize := (hafter.partitioned hround.before).blockSize_pos
  set attention := fun q k v mask => device.attention q k v (some mask)
  obtain ⟨first, hfirst⟩ : ∃ first, lanes[0]? = some first :=
    ⟨_, List.getElem?_eq_getElem (List.length_pos_iff.mpr hround.nonempty)⟩
  obtain ⟨k, v, _, _, hreference⟩ := @exists_reference K _ kv pool after lanes config.nKvHeads
    config.headDim numBlocks seqLen attention hkv hblock q config.nRep 0 first hfirst
    hround.seqLen_pos
  -- whichever path answers, its entries are the reference's
  have hpath : ∃ out attended,
      pagedAttention device q kv (planOf pool after lanes seqLen) config.nRep = some out ∧
      pagedAttentionReference attention q kv (planOf pool after lanes seqLen) config.nRep =
        some attended ∧
      out.shape = attended.shape ∧
      ∀ index, Tensor.InBounds out.shape index → out.entry index = attended.entry index := by
    have hscale : device.invSqrt (q.dim 3) = scale := by
      simpa [Tensor.dim, hq] using hdevice.ops.scaled
    rw [pagedAttention, hscale]
    by_cases hone : q.dim 2 = 1
    · obtain rfl : seqLen = 1 := by simpa [Tensor.dim, hq] using hone
      have hall : ∀ {j lane : ℕ}, lanes[j]? = some lane →
          (kv.laneRecords after config.nKvHeads config.headDim lane).take (pool.laneLen lane + 1) =
            kv.laneRecords after config.nKvHeads config.headDim lane := fun {j lane} hj => by
        refine List.take_of_length_le ?_
        rw [KeyValueCache.length_laneRecords, hafter.laneLen, if_pos (List.mem_of_getElem? hj)]
      obtain ⟨answer, attended, hanswer, hattended, hsame⟩ := hdevice.decodes hround.before hafter
        hround.nonempty hkv hq
        ⟨hround.words, fun hj head key hkey => hscores hj head key (by rwa [hall hj])⟩
      rw [if_pos hone, hanswer]
      cases answer with
      | none => exact ⟨_, _, hreference, hreference, rfl, fun _ _ => rfl⟩
      | some out => exact ⟨out, attended, rfl, hattended, hsame out rfl⟩
    · rw [if_neg hone]
      exact ⟨_, _, hreference, hreference, rfl, fun _ _ => rfl⟩
  obtain ⟨out, attended, hout, hattended, hsame, hentry⟩ := hpath
  have hshape : out.shape = [lanes.length, config.nHeads, seqLen, config.headDim] := by
    rw [hsame, ← Option.some.inj (hreference.symm.trans hattended), ← hq]
    exact hdevice.ops.shape_attention _ _ _ _
  refine ⟨out, hout, hshape, fun {j lane r} hj hr head => ?_⟩
  have hlt : j < lanes.length := (List.getElem?_eq_some_iff.mp hj).1
  obtain ⟨hgroup, hmember⟩ := hfits.group head
  funext channel
  have hattends := pagedAttentionReference_entry hdevice.ops.attends hafter hblock hkv
    (hfits.groups.symm ▸ hq) hj hgroup hmember hr hattended channel
  rw [Nat.div_add_mod'] at hattends
  rw [headAt, hentry _ (hshape ▸ .cons hlt (.cons head.isLt (.cons hr (.cons channel.isLt .nil)))),
    hattends]
  rfl

namespace MultiHeadAttention

variable (mha : MultiHeadAttention K config)

/-- The queries of a round, turned at their own positions. -/
def laneQueries (rope : RotaryEncoding K) (plan : LanePlan) (input : Tensor K) : Tensor K :=
  applyRopeLanes rope (mha.forwardProjection input).1 plan.starts

/-- What a round hands to each side of the cache. -/
def laneKv (rope : RotaryEncoding K) (plan : LanePlan) (input : Tensor K) : Side → Tensor K
  | .key => applyRopeLanes rope (mha.forwardProjection input).2.1 plan.starts
  | .value => (mha.forwardProjection input).2.2

variable {mha}

omit [Field K] [Inhabited K] in
/-- A listed lane starts where its length was. -/
theorem starts_planOf {j lane : ℕ} (hj : lanes[j]? = some lane) :
    (planOf pool after lanes seqLen).starts[j]? = some (pool.laneLen lane) := by
  simp [planOf, LanePlan.ofCommit, hj]

theorem shape_laneKv (hinput : input.shape = [lanes.length, seqLen, config.dModel])
    (plan : LanePlan) (side : Side) :
    (mha.laneKv rope plan input side).shape =
      [lanes.length, config.nKvHeads, seqLen, config.headDim] := by
  obtain ⟨-, hk, hv, -⟩ := forwardProjection_eq mha hinput
  cases side with
  | key => exact shape_applyRopeLanes hk
  | value => exact hv

/-- Every query head is turned by its row's absolute position. -/
theorem headAt_laneQueries (hfits : config.Fits)
    (htable : rope.freqComplex.shape = [rows, config.headDim, 2])
    (hinput : input.shape = [lanes.length, seqLen, config.dModel]) {j lane r : ℕ}
    (hj : lanes[j]? = some lane) (hr : r < seqLen) (head : Fin config.nHeads) :
    headAt (mha.laneQueries rope (planOf pool after lanes seqLen) input) config.headDim j head r =
      turned rope (pool.laneLen lane + r)
        (headRow (mha.wq.row (tokenRow input config.dModel j r)) head) := by
  obtain ⟨hq, -, -, hheads⟩ := forwardProjection_eq mha hinput
  have hlt : j < lanes.length := (List.getElem?_eq_some_iff.mp hj).1
  rw [laneQueries, headAt_applyRopeLanes hfits.pairs htable hq (starts_planOf hj) hlt head.isLt hr,
    (hheads hlt hr).1 head]

/-- A round's write adds the records of its rows to those of its lanes. -/
theorem laneRecords_laneKv (hfits : config.Fits)
    (htable : rope.freqComplex.shape = [rows, config.headDim, 2])
    (hround : GrantedRound config rows pool after lanes seqLen)
    (hinput : input.shape = [lanes.length, seqLen, config.dModel]) {j lane : ℕ}
    (hj : lanes[j]? = some lane) :
    let plan := planOf pool after lanes seqLen
    (kv.write plan (mha.laneKv rope plan input .key)
        (mha.laneKv rope plan input .value)).laneRecords after config.nKvHeads config.headDim lane =
      kv.laneRecords pool config.nKvHeads config.headDim lane ++
        (List.range seqLen).map fun r =>
          mha.record rope (pool.laneLen lane + r) (tokenRow input config.dModel j r) := by
  intro plan
  obtain ⟨-, hk, -, hheads⟩ := forwardProjection_eq mha hinput
  have hlt : j < lanes.length := (List.getElem?_eq_some_iff.mp hj).1
  rw [KeyValueCache.laneRecords_write hround.nodup hround.before hround.commit
    (shape_laneKv hinput plan) hj]
  congr 1
  refine List.map_congr_left fun r hr => ?_
  have hr' : r < seqLen := List.mem_range.mp hr
  funext side head
  cases side with
  | key =>
      refine (headAt_applyRopeLanes hfits.pairs htable hk (starts_planOf hj) hlt head.isLt
        hr').trans ?_
      rw [(hheads hlt hr').2.1 head]
      rfl
  | value => exact (hheads hlt hr').2.2 head

/-- What a round over such records scores lies in the range. -/
theorem inRange_of_tempered (hfits : config.Fits)
    (htable : rope.freqComplex.shape = [rows, config.headDim, 2])
    (hround : GrantedRound config rows pool after lanes seqLen)
    {fed : Set (Fin config.dModel → K)} (htempered : mha.Tempered rope scale rows fed inRange)
    (hinput : input.shape = [lanes.length, seqLen, config.dModel])
    (hfed : ∀ {j r : ℕ}, j < lanes.length → r < seqLen → tokenRow input config.dModel j r ∈ fed)
    {j lane : ℕ} (hj : lanes[j]? = some lane) {befores : List (Fin config.dModel → K)}
    (hbefores : ∀ before ∈ befores, before ∈ fed)
    (hkept : kv.laneRecords pool config.nKvHeads config.headDim lane =
      befores.mapIdx fun past before => mha.record rope past before)
    (head : Fin config.nHeads) :
    let plan := planOf pool after lanes seqLen
    ∀ key ∈ scoredKeys scale (headAt (mha.laneQueries rope plan input) config.headDim j head 0)
      (((kv.write plan (mha.laneKv rope plan input .key)
          (mha.laneKv rope plan input .value)).laneRecords after config.nKvHeads config.headDim
            lane).take (pool.laneLen lane + 1)) (head / config.nRep), inRange key.1 := by
  intro plan key hkey
  have hlt : j < lanes.length := (List.getElem?_eq_some_iff.mp hj).1
  have hlength : befores.length = pool.laneLen lane := by
    simpa using (congrArg List.length hkept).symm
  have hall : (kv.write plan (mha.laneKv rope plan input .key)
      (mha.laneKv rope plan input .value)).laneRecords after config.nKvHeads config.headDim lane =
        (befores ++ (List.range seqLen).map fun r => tokenRow input config.dModel j r).mapIdx
          fun past before => mha.record rope past before := by
    rw [laneRecords_laneKv hfits htable hround hinput hj, hkept, List.mapIdx_append,
      mapIdx_map_range, hlength]
    simp only [Nat.add_comm]
  rw [hall, headAt_laneQueries hfits htable hinput hj hround.seqLen_pos head] at hkey
  refine htempered.scored (fun before hmem => ?_) ?_ (hfed hlt hround.seqLen_pos) head hkey
  · rcases List.mem_append.mp hmem with hmem | hmem
    · exact hbefores before hmem
    · obtain ⟨r, hr, rfl⟩ := List.mem_map.mp hmem
      exact hfed hlt (List.mem_range.mp hr)
  · have hwithin := hround.within lane (List.mem_of_getElem? hj)
    have hseq := hround.seqLen_pos
    omega

end MultiHeadAttention

/-- The attention step of a round: every row is answered from its lane's records
up to its own, which the round has added to. -/
theorem exists_forwardCacheLanes (hdevice : device.Honest exp scale inRange config)
    (hfits : config.Fits) (htable : rope.freqComplex.shape = [rows, config.headDim, 2])
    (hround : GrantedRound config rows pool after lanes seqLen)
    (hkv : kv.Shaped numBlocks pool.blockSize config.nKvHeads config.headDim)
    {mha : MultiHeadAttention K config} {fed : Set (Fin config.dModel → K)}
    (htempered : mha.Tempered rope scale rows fed inRange)
    (hinput : input.shape = [lanes.length, seqLen, config.dModel])
    (hfed : ∀ {j r : ℕ}, j < lanes.length → r < seqLen → tokenRow input config.dModel j r ∈ fed)
    (hkept : ∀ {j lane : ℕ}, lanes[j]? = some lane → ∃ befores : List (Fin config.dModel → K),
      (∀ before ∈ befores, before ∈ fed) ∧
        kv.laneRecords pool config.nKvHeads config.headDim lane =
          befores.mapIdx fun past before => mha.record rope past before) :
    ∃ out written, mha.forwardCacheLanes device rope (planOf pool after lanes seqLen) kv input =
        some (out, written) ∧
      out.shape = [lanes.length, seqLen, config.dModel] ∧
      written.Shaped numBlocks after.blockSize config.nKvHeads config.headDim ∧
      (∀ {j lane r : ℕ}, lanes[j]? = some lane → r < seqLen →
        tokenRow out config.dModel j r =
          mha.attend rope (pool.laneLen lane + r) (tokenRow input config.dModel j r) exp scale
            ((written.laneRecords after config.nKvHeads config.headDim lane).take
              (pool.laneLen lane + r + 1))) ∧
      (∀ {j lane : ℕ}, lanes[j]? = some lane →
        written.laneRecords after config.nKvHeads config.headDim lane =
          kv.laneRecords pool config.nKvHeads config.headDim lane ++
            (List.range seqLen).map fun r =>
              mha.record rope (pool.laneLen lane + r) (tokenRow input config.dModel j r)) ∧
      ∀ lane ∉ lanes, written.laneRecords after config.nKvHeads config.headDim lane =
        kv.laneRecords pool config.nKvHeads config.headDim lane := by
  set plan := planOf pool after lanes seqLen with hplan
  set written := kv.write plan (mha.laneKv rope plan input .key)
    (mha.laneKv rope plan input .value) with hwritten
  have hshaped : written.Shaped numBlocks after.blockSize config.nKvHeads config.headDim :=
    fun side => by
      rw [hround.commit.blockSize, hwritten, kv.store_write plan (mha.laneKv rope plan input) side]
      exact (hkv side).write _ _
  have hqueries : (mha.laneQueries rope plan input).shape =
      [lanes.length, config.nHeads, seqLen, config.headDim] :=
    shape_applyRopeLanes (forwardProjection_eq mha hinput).1
  obtain ⟨out, hout, hshape, hanswer⟩ := exists_pagedAttention hdevice hfits hround hshaped
    hqueries fun hj head => by
      obtain ⟨befores, hbefores, hbefore⟩ := hkept hj
      exact mha.inRange_of_tempered hfits htable hround htempered hinput hfed hj hbefores hbefore
        head
  have hmerged : ((out.swapDims 1 2).reshape [lanes.length, seqLen, config.dModel]).shape =
      [lanes.length, seqLen, config.nHeads * config.headDim] := by
    rw [hfits.heads]
    rfl
  refine ⟨mha.wo.forward ((out.swapDims 1 2).reshape [lanes.length, seqLen, config.dModel]), written,
    ?_, mha.wo.shape_forward hmerged, hshaped, fun {j lane r} hj hr => ?_,
    mha.laneRecords_laneKv hfits htable hround hinput, fun lane hlane => ?_⟩
  · have hdims : input.dim 0 = lanes.length ∧ input.dim 1 = seqLen ∧
        input.dim 2 = config.dModel := by simp [Tensor.dim, hinput]
    have hpath : pagedAttention device (mha.laneQueries rope plan input) written plan
        config.nRep = some out := hout
    simp only [MultiHeadAttention.forwardCacheLanes, hdims.1, hdims.2.1, hdims.2.2]
    change (do
      let attended ← pagedAttention device (mha.laneQueries rope plan input) written plan
        config.nRep
      pure (_, written)) = _
    rw [hpath]
    rfl
  · have hlt : j < lanes.length := (List.getElem?_eq_some_iff.mp hj).1
    rw [mha.wo.row_forward hmerged hlt hr, MultiHeadAttention.attend]
    congr 1
    refine row_ext_heads fun head => ?_
    rw [headRow_merge hfits.heads hshape hlt hr head, hanswer hj hr head,
      mha.headAt_laneQueries hfits htable hinput hj hr head]
    funext channel
    simp [headRow]
  · exact KeyValueCache.laneRecords_write_of_notMem hround.before hround.commit hlane

/-- **The lane-aware block is the block's causal layer.** Every lane's rows are
answered from the records its live positions hold, and leave theirs behind. -/
theorem TransformerBlock.exists_forwardLanes (hdevice : device.Honest exp scale inRange config)
    (hfits : config.Fits) (htable : rope.freqComplex.shape = [rows, config.headDim, 2])
    (hround : GrantedRound config rows pool after lanes seqLen)
    (hkv : kv.Shaped numBlocks pool.blockSize config.nKvHeads config.headDim)
    {block : TransformerBlock K config} (htempered : block.Tempered scale rope rows inRange)
    (hinput : input.shape = [lanes.length, seqLen, config.dModel])
    (hkept : ∀ {j lane : ℕ}, lanes[j]? = some lane → (block.causal exp scale rope).Kept
      (kv.laneRecords pool config.nKvHeads config.headDim lane)) :
    let layer := block.causal exp scale rope
    let before := kv.laneRecords pool config.nKvHeads config.headDim
    ∃ out written, block.forwardLanes device rope (planOf pool after lanes seqLen) kv input =
        some (out, written) ∧
      out.shape = [lanes.length, seqLen, config.dModel] ∧
      written.Shaped numBlocks after.blockSize config.nKvHeads config.headDim ∧
      (∀ {j lane : ℕ}, lanes[j]? = some lane →
        laneRows out config.dModel seqLen j =
            layer.answers (before lane) (laneRows input config.dModel seqLen j) ∧
          written.laneRecords after config.nKvHeads config.headDim lane =
            layer.push (before lane) (laneRows input config.dModel seqLen j)) ∧
      ∀ lane ∉ lanes,
        written.laneRecords after config.nKvHeads config.headDim lane = before lane := by
  intro layer before
  have hfed : ∀ {j r : ℕ}, j < lanes.length → r < seqLen →
      tokenRow (block.attentionNorm.forward input) config.dModel j r ∈
        Set.range block.attentionNorm.row :=
    fun hj hr => ⟨_, (block.attentionNorm.row_forward hinput hj hr).symm⟩
  have hrows : ∀ {j lane : ℕ}, lanes[j]? = some lane → ∃ befores : List (Fin config.dModel → K),
      (∀ before ∈ befores, before ∈ Set.range block.attentionNorm.row) ∧
        kv.laneRecords pool config.nKvHeads config.headDim lane =
          befores.mapIdx fun past before => block.attention.record rope past before := by
    intro j lane hj
    obtain ⟨before, hkeep⟩ := hkept hj
    refine ⟨before.map block.attentionNorm.row, by simp, hkeep.trans ?_⟩
    refine List.ext_getElem (by simp) fun past _ _ => ?_
    simp [CausalLayer.push, CausalLayer.recordsFrom, TransformerBlock.causal]
  obtain ⟨attended, written, hforward, _, hshaped, hattend, hrecords, hothers⟩ :=
    exists_forwardCacheLanes hdevice hfits htable hround hkv htempered
      (block.attentionNorm.shape_forward hinput) hfed hrows
  obtain ⟨hout, hfinish⟩ := @finish_rows K _ config block input attended _ _ hinput
  refine ⟨_, written, ?_, hout, hshaped, fun {j lane} hj => ?_, hothers⟩
  · simp only [TransformerBlock.forwardLanes, hforward, Option.bind_eq_bind, Option.bind_some]
  have hlt : j < lanes.length := (List.getElem?_eq_some_iff.mp hj).1
  have hlength : (before lane).length = pool.laneLen lane := KeyValueCache.length_laneRecords ..
  have hpush : written.laneRecords after config.nKvHeads config.headDim lane =
      layer.push (before lane) (laneRows input config.dModel seqLen j) := by
    rw [hrecords hj, CausalLayer.push, CausalLayer.recordsFrom, laneRows, mapIdx_map_range, hlength]
    congr 1
    refine List.map_congr_left fun r hr => ?_
    rw [block.attentionNorm.row_forward hinput hlt (List.mem_range.mp hr)]
    rfl
  refine ⟨?_, hpush⟩
  rw [CausalLayer.answers, ← hpush, laneRows, laneRows, mapIdx_map_range, hlength]
  refine List.map_congr_left fun r hr => ?_
  have hr' : r < seqLen := List.mem_range.mp hr
  rw [hfinish hlt hr', hattend hj hr', block.attentionNorm.row_forward hinput hlt hr']
  rfl

end Lanes

/-! ## The training block -/

section Train

variable {exp : K → K} {scale : K} {device : Device K} {rope : RotaryEncoding K}
  {rows n seqLen : ℕ} {input : Tensor K}

/-- The mask of a whole sequence shows every row the positions up to its own. -/
theorem exists_mask (hops : device.toTensorOps.Honest exp scale config) {q k v : Tensor K}
    {heads : ℕ} (hq : q.shape = [n, heads, seqLen, config.headDim])
    (hk : k.shape = [n, heads, seqLen, config.headDim]) :
    ∃ mask : Tensor Bool, mask.shape = [n, heads, seqLen, seqLen] ∧
      device.attention q k v (if 1 < seqLen then
          some (((trilMask seqLen seqLen).unsqueezeDim 0).unsqueezeDim 0) else none) =
        device.attention q k v (some mask) ∧
      ∀ {j head r : ℕ}, j < n → head < heads → r < seqLen →
        shownColumns mask seqLen j head r = Finset.range (r + 1) := by
  by_cases hlong : 1 < seqLen
  · rw [if_pos hlong]
    refine ⟨_, rfl, hops.broadcasts hq hk rfl, fun {j head r} hj hhead hr => ?_⟩
    have hentry : ∀ column < seqLen,
        ((((trilMask seqLen seqLen).unsqueezeDim 0).unsqueezeDim 0).expand
          [n, heads, seqLen, seqLen]).entry [j, head, r, column] = decide (r < column) := by
      intro column hcolumn
      have hwide : seqLen ≠ 1 := by omega
      simp [Tensor.expand, Tensor.unsqueezeDim, trilMask, hwide]
    ext column
    rw [shownColumns, Finset.mem_filter, Finset.mem_range, Finset.mem_range]
    constructor
    · rintro ⟨hcolumn, hshown⟩
      rw [hentry column hcolumn, decide_eq_false_iff_not] at hshown
      omega
    · intro hcolumn
      refine ⟨by omega, ?_⟩
      rw [hentry column (by omega), decide_eq_false_iff_not]
      omega
  · rw [if_neg hlong]
    refine ⟨_, rfl, hops.unmasked hq hk, fun {j head r} hj hhead hr => ?_⟩
    obtain ⟨rfl, rfl⟩ : seqLen = 1 ∧ r = 0 := by omega
    rw [shownColumns, Finset.filter_true_of_mem fun _ _ => rfl]

/-- Whole sequences are attended by the records of their own rows. -/
theorem forwardMasked_rows (hops : device.toTensorOps.Honest exp scale config) (hfits : config.Fits)
    (htable : rope.freqComplex.shape = [rows, config.headDim, 2]) (hrows : seqLen ≤ rows)
    (mha : MultiHeadAttention K config) (hinput : input.shape = [n, seqLen, config.dModel]) :
    (mha.forwardMasked device rope input).shape = [n, seqLen, config.dModel] ∧
      ∀ {j r : ℕ}, j < n → r < seqLen →
        tokenRow (mha.forwardMasked device rope input) config.dModel j r =
          mha.attend rope r (tokenRow input config.dModel j r) exp scale
            ((List.range (r + 1)).map fun position =>
              mha.record rope position (tokenRow input config.dModel j position)) := by
  have hdims : input.dim 0 = n ∧ input.dim 1 = seqLen ∧ input.dim 2 = config.dModel := by
    simp [Tensor.dim, hinput]
  obtain ⟨h0, h1, h2⟩ := hdims
  obtain ⟨hq, hk, hv, hheads⟩ := forwardProjection_eq mha hinput
  set projected := mha.forwardProjection input with hprojected
  set q := device.ropeForward rope projected.1
  set k := device.ropeForward rope projected.2.1
  have hq' : q.shape = [n, config.nHeads, seqLen, config.headDim] :=
    (hops.shape_rope _ _).trans hq
  have hk' : k.shape = [n, config.nKvHeads, seqLen, config.headDim] :=
    (hops.shape_rope _ _).trans hk
  have hkey : (repeatKv k config.nRep).shape = [n, config.nHeads, seqLen, config.headDim] :=
    hfits.groups ▸ shape_repeatKv hk' config.nRep
  have hvalue : (repeatKv projected.2.2 config.nRep).shape =
      [n, config.nHeads, seqLen, config.headDim] := hfits.groups ▸ shape_repeatKv hv config.nRep
  obtain ⟨mask, hmask, hsame, hshown⟩ := exists_mask (v := repeatKv projected.2.2 config.nRep)
    hops hq' hkey
  set out := device.attention q (repeatKv k config.nRep) (repeatKv projected.2.2 config.nRep)
    (some mask)
  have hout : out.shape = [n, config.nHeads, seqLen, config.headDim] :=
    (hops.shape_attention _ _ _ _).trans hq'
  have hmerged : ((out.swapDims 1 2).reshape [n, seqLen, config.dModel]).shape =
      [n, seqLen, config.nHeads * config.headDim] := by
    rw [hfits.heads]
    rfl
  have hforward : mha.forwardMasked device rope input =
      mha.wo.forward ((out.swapDims 1 2).reshape [n, seqLen, config.dModel]) := by
    simp only [MultiHeadAttention.forwardMasked, MultiHeadAttention.forwardAttention,
      ← hprojected, h0, h1, h2]
    exact congrArg (fun out : Tensor K =>
      mha.wo.forward ((out.swapDims 1 2).reshape [n, seqLen, config.dModel])) hsame
  rw [hforward]
  refine ⟨mha.wo.shape_forward hmerged, fun {j r} hj hr => ?_⟩
  rw [mha.wo.row_forward hmerged hj hr, MultiHeadAttention.attend]
  congr 1
  refine row_ext_heads fun head => ?_
  obtain ⟨hgroup, hmember⟩ := hfits.group head
  have hquery : headAt q config.headDim j head r =
      turned rope r (headRow (mha.wq.row (tokenRow input config.dModel j r)) head) := by
    rw [hops.rotates htable hrows hq hj head.isLt hr, (hheads hj hr).1 head]
  have hread : ∀ {x : Tensor K}, x.shape = [n, config.nKvHeads, seqLen, config.headDim] →
      ∀ {column : ℕ}, column < seqLen → ∀ channel : Fin config.headDim,
        (repeatKv x config.nRep).entry [j, head, column, channel] =
          headAt x config.headDim j (head / config.nRep) column channel := by
    intro x hx column hcolumn channel
    have hentry := entry_repeatKv hx hj hgroup hmember hcolumn channel.isLt
    rwa [Nat.div_add_mod'] at hentry
  rw [headRow_merge hfits.heads hout hj hr head]
  funext channel
  rw [headAt, hops.attends.entry_range hq' hkey hvalue hmask hj head.isLt hr
    (hshown hj head.isLt hr) channel]
  simp only [headRow, Equiv.symm_apply_apply, scoredKeys, List.map_map]
  refine congrArg (fun keys => softmaxRow exp keys channel)
    (List.map_congr_left fun column hcolumn => ?_)
  have hlive : column < seqLen := by
    have hbelow := List.mem_range.mp hcolumn
    omega
  have hrecord : ∀ side, headAt (match side with | .key => k | .value => projected.2.2)
      config.headDim j (head / config.nRep) column =
        extend (mha.record rope column (tokenRow input config.dModel j column) side)
          (head / config.nRep) := fun side => by
    rw [extend_of_lt _ hgroup]
    cases side with
    | key =>
        refine (hops.rotates htable hrows hk hj hgroup hlive).trans ?_
        rw [(hheads hj hlive).2.1 ⟨_, hgroup⟩]
        rfl
    | value => exact (hheads hj hlive).2.2 ⟨_, hgroup⟩
  refine Prod.ext (congrArg (· * scale) (Finset.sum_congr rfl fun channel _ => ?_)) ?_
  · rw [hread hk' hlive channel, ← hquery]
    exact congrArg (q.entry [j, head, r, channel] * ·) (congrFun (hrecord .key) channel)
  · funext channel
    exact (hread hv hlive channel).trans (congrFun (hrecord .value) channel)

/-- **The training block is the block's causal layer**, started without records. -/
theorem TransformerBlock.forwardTrain_rows (hops : device.toTensorOps.Honest exp scale config)
    (hfits : config.Fits) (htable : rope.freqComplex.shape = [rows, config.headDim, 2])
    (hrows : seqLen ≤ rows) (block : TransformerBlock K config)
    (hinput : input.shape = [n, seqLen, config.dModel]) :
    (block.forwardTrain device rope input).shape = [n, seqLen, config.dModel] ∧
      ∀ {j : ℕ}, j < n → laneRows (block.forwardTrain device rope input) config.dModel seqLen j =
        (block.causal exp scale rope).answers [] (laneRows input config.dModel seqLen j) := by
  have hnormed := block.attentionNorm.shape_forward hinput
  obtain ⟨_, hattend⟩ := forwardMasked_rows hops hfits htable hrows block.attention hnormed
  obtain ⟨hout, hfinish⟩ := @finish_rows K _ config block input
    (block.attention.forwardMasked device rope (block.attentionNorm.forward input)) _ _ hinput
  refine ⟨hout, fun {j} hj => ?_⟩
  have hpush : (block.causal exp scale rope).push [] (laneRows input config.dModel seqLen j) =
      (List.range seqLen).map fun r => block.attention.record rope r
        (block.attentionNorm.row (tokenRow input config.dModel j r)) := by
    rw [CausalLayer.push, List.nil_append, CausalLayer.recordsFrom, laneRows, mapIdx_map_range]
    simp [TransformerBlock.causal]
  rw [CausalLayer.answers, hpush, laneRows, laneRows, mapIdx_map_range]
  refine List.map_congr_left fun r hr => ?_
  have hr' : r < seqLen := List.mem_range.mp hr
  rw [TransformerBlock.forwardTrain, hfinish hj hr', hattend hj hr',
    block.attentionNorm.row_forward hinput hj hr', ← List.map_take, List.take_range]
  simp only [TransformerBlock.causal, List.length_nil, Nat.zero_add]
  congr 2
  rw [min_eq_left (by omega)]
  exact List.map_congr_left fun position hposition => by
    rw [block.attentionNorm.row_forward hinput hj
      ((List.mem_range.mp hposition).trans_le (by omega))]

end Train

end BurnLm.Llama
