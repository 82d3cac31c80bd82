/-
# The decoder-only transformer

The model itself, in both of its forms. The lane-aware forward takes the rows of
one round, writes each layer's keys and values through the round's plan and
attends over the paged cache. The training forward takes whole sequences from
position zero and attends over them under a triangular mask, with no cache at all.

The modules of the tensor library the layers are made of map every token's row by
itself; that is all that is said of them. A lookup reads a row by its id. What
else the library brings is gathered in one record: the attention op, the rotation
of whole sequences, and the square root in the softmax scale. A device has the
decode kernel besides, to be offered the rounds of one token per lane.
-/

import BurnLm.Llama.Decoder
import BurnLm.Llama.Projection
import BurnLm.PagedKv.KernelPath

namespace BurnLm.Llama

open BurnLm.Math BurnLm.PagedKv BurnLm.Inference

universe u

/-! ## Modules of the tensor library -/

/-- The row of one token in a batch. -/
def tokenRow {α : Type u} (x : Tensor α) (width j r : ℕ) : Fin width → α :=
  fun channel => x.entry [j, r, channel]

/-- A module that maps every token's row by itself. -/
structure RowModule (α : Type u) (dIn dOut : ℕ) where
  forward : Tensor α → Tensor α
  /-- What it makes of one row. -/
  row : (Fin dIn → α) → Fin dOut → α
  shape_forward : ∀ {x : Tensor α} {n q : ℕ}, x.shape = [n, q, dIn] →
    (forward x).shape = [n, q, dOut]
  row_forward : ∀ {x : Tensor α} {n q : ℕ}, x.shape = [n, q, dIn] → ∀ {j r : ℕ}, j < n → r < q →
    tokenRow (forward x) dOut j r = row (tokenRow x dIn j r)

/-- A table of rows, looked up by token id. -/
structure Embedding (α : Type u) (dModel : ℕ) where
  forward : Tensor ℤ → Tensor α
  /-- The row of an id. -/
  row : ℤ → Fin dModel → α
  shape_forward : ∀ {ids : Tensor ℤ} {n q : ℕ}, ids.shape = [n, q] →
    (forward ids).shape = [n, q, dModel]
  row_forward : ∀ {ids : Tensor ℤ} {n q : ℕ}, ids.shape = [n, q] → ∀ {j r : ℕ}, j < n → r < q →
    tokenRow (forward ids) dModel j r = row (ids.entry [j, r])

/-- What the tensor library brings besides. -/
structure TensorOps (α : Type u) where
  /-- Attention of queries over keys and values, under a mask if there is one. -/
  attention : Tensor α → Tensor α → Tensor α → Option (Tensor Bool) → Tensor α
  /-- Rotate whole sequences from position zero on. -/
  ropeForward : RotaryEncoding α → Tensor α → Tensor α
  /-- One over the square root of a number. -/
  invSqrt : ℕ → α

/-- A device: the library's ops, and the decode kernel, which answers or declines. -/
structure Device (α : Type u) extends TensorOps α where
  pagedDecode : α → Tensor α → KeyValueCache α → LanePlan → ℕ →
    Except PagedAttn.LaunchError (Option (Tensor α))

/-! ## Configuration -/

/-- The sizes of a transformer. -/
structure TransformerConfig where
  vocabSize : ℕ
  nLayers : ℕ
  dModel : ℕ
  hiddenSize : ℕ
  nHeads : ℕ
  nKvHeads : ℕ
  maxSeqLen : ℕ
  maxSeqLen_lt : maxSeqLen < 2 ^ 64 := by decide
  deriving Repr

namespace TransformerConfig

/-- Channels per head. -/
def headDim (config : TransformerConfig) : ℕ := config.dModel / config.nHeads

/-- Query heads per key/value head. -/
def nRep (config : TransformerConfig) : ℕ := config.nHeads / config.nKvHeads

/-- The shape of this transformer's cache. -/
def kvLayout (config : TransformerConfig) : KvLayout where
  nLayers := config.nLayers
  nKvHeads := config.nKvHeads
  headDim := config.headDim
  maxSeqLen := config.maxSeqLen
  maxSeqLen_lt := config.maxSeqLen_lt

/-- Sizes for which every reshape of a forward keeps its number of entries: heads
divide the model, key/value heads divide the heads, and a head is made of pairs. -/
structure Fits (config : TransformerConfig) : Prop where
  heads : config.nHeads * config.headDim = config.dModel
  groups : config.nKvHeads * config.nRep = config.nHeads
  pairs : 2 * (config.headDim / 2) = config.headDim

end TransformerConfig

/-! ## Layers -/

variable {α : Type u} {config : TransformerConfig}

/-- Entrywise sum. -/
def addTensor [Add α] (first second : Tensor α) : Tensor α :=
  ⟨first.shape, fun index => first.entry index + second.entry index⟩

/-- The mask that hides everything above the diagonal. -/
def trilMask (rows columns : ℕ) : Tensor Bool :=
  ⟨[rows, columns], fun index => index.getD 0 0 < index.getD 1 0⟩

/-- The attention of one round over the paged cache: the decode kernel for a round
of one token per lane, if it answers, and the reference otherwise. -/
def pagedAttention [Zero α] (device : Device α) (q : Tensor α) (cache : KeyValueCache α)
    (plan : LanePlan) (nRep : ℕ) : Option (Tensor α) :=
  let kernelOut :=
    if q.dim 2 = 1 then device.pagedDecode (device.invSqrt (q.dim 3)) q cache plan nRep
    else .ok none
  match kernelOut with
  | .error _ => none
  | .ok (some out) => some out
  | .ok none =>
    pagedAttentionReference (fun q k v mask => device.attention q k v (some mask)) q cache plan nRep

/-- The four projections of an attention layer. -/
structure MultiHeadAttention (α : Type u) (config : TransformerConfig) where
  wq : RowModule α config.dModel (config.nHeads * config.headDim)
  wk : RowModule α config.dModel (config.nKvHeads * config.headDim)
  wv : RowModule α config.dModel (config.nKvHeads * config.headDim)
  wo : RowModule α (config.nHeads * config.headDim) config.dModel

/-- The gated unit and the outer projection. -/
structure FeedForward (α : Type u) (config : TransformerConfig) where
  swiglu : RowModule α config.dModel config.hiddenSize
  w2 : RowModule α config.hiddenSize config.dModel

/-- Apply both. -/
def FeedForward.forward (ffn : FeedForward α config) (input : Tensor α) : Tensor α :=
  ffn.w2.forward (ffn.swiglu.forward input)

namespace MultiHeadAttention

/-- Queries, keys and values, `[batch, heads, seq_len, head_dim]` each. -/
def forwardProjection (mha : MultiHeadAttention α config) (input : Tensor α) :
    Tensor α × Tensor α × Tensor α :=
  let batchSize := input.dim 0
  let seqLen := input.dim 1
  let q := mha.wq.forward input
  let k := mha.wk.forward input
  let v := mha.wv.forward input
  ((q.reshape [batchSize, seqLen, config.nHeads, config.headDim]).swapDims 1 2,
    (k.reshape [batchSize, seqLen, config.nKvHeads, config.headDim]).swapDims 1 2,
    (v.reshape [batchSize, seqLen, config.nKvHeads, config.headDim]).swapDims 1 2)

/-- Attend over the sequence itself. -/
def forwardAttention (_ : MultiHeadAttention α config) (device : Device α) (q k v : Tensor α)
    (mask : Option (Tensor Bool)) (batchSize seqLen hiddenSize : ℕ) : Tensor α :=
  let k := repeatKv k config.nRep
  let v := repeatKv v config.nRep
  ((device.attention q k v mask).swapDims 1 2).reshape [batchSize, seqLen, hiddenSize]

/-- Masked self-attention over whole sequences, from position zero. -/
def forwardMasked (mha : MultiHeadAttention α config) (device : Device α)
    (rope : RotaryEncoding α) (input : Tensor α) : Tensor α :=
  let batchSize := input.dim 0
  let seqLen := input.dim 1
  let hiddenSize := input.dim 2
  let (q, k, v) := mha.forwardProjection input
  let q := device.ropeForward rope q
  let k := device.ropeForward rope k
  let mask :=
    if 1 < seqLen then some (((trilMask seqLen seqLen).unsqueezeDim 0).unsqueezeDim 0) else none
  mha.wo.forward (mha.forwardAttention device q k v mask batchSize seqLen hiddenSize)

/-- The cached attention step, one lane per input row. -/
def forwardCacheLanes [CommRing α] [Inhabited α] (mha : MultiHeadAttention α config)
    (device : Device α) (rope : RotaryEncoding α) (plan : LanePlan) (cache : KeyValueCache α)
    (input : Tensor α) : Option (Tensor α × KeyValueCache α) := do
  let n := input.dim 0
  let seqLen := input.dim 1
  let hiddenSize := input.dim 2
  let (q, k, v) := mha.forwardProjection input
  let q := applyRopeLanes rope q plan.starts
  let k := applyRopeLanes rope k plan.starts
  let cache := cache.write plan k v
  let output ← pagedAttention device q cache plan config.nRep
  let output := (output.swapDims 1 2).reshape [n, seqLen, hiddenSize]
  some (mha.wo.forward output, cache)

end MultiHeadAttention

/-- One block: attention and feed-forward, each behind its norm and around its
residual. -/
structure TransformerBlock (α : Type u) (config : TransformerConfig) where
  attention : MultiHeadAttention α config
  feedForward : FeedForward α config
  attentionNorm : RowModule α config.dModel config.dModel
  ffnNorm : RowModule α config.dModel config.dModel

namespace TransformerBlock

/-- One block of the lane-aware forward. -/
def forwardLanes [CommRing α] [Inhabited α] (block : TransformerBlock α config)
    (device : Device α) (rope : RotaryEncoding α) (plan : LanePlan) (cache : KeyValueCache α)
    (input : Tensor α) : Option (Tensor α × KeyValueCache α) := do
  let (attended, cache) ← block.attention.forwardCacheLanes device rope plan cache
    (block.attentionNorm.forward input)
  let h := addTensor input attended
  some (addTensor h (block.feedForward.forward (block.ffnNorm.forward h)), cache)

/-- One block of the training forward. -/
def forwardTrain [Add α] (block : TransformerBlock α config) (device : Device α)
    (rope : RotaryEncoding α) (input : Tensor α) : Tensor α :=
  let h := addTensor input
    (block.attention.forwardMasked device rope (block.attentionNorm.forward input))
  addTensor h (block.feedForward.forward (block.ffnNorm.forward h))

end TransformerBlock

/-- The decoder-only transformer. -/
structure Transformer (α : Type u) (config : TransformerConfig) where
  tokEmbeddings : Embedding α config.dModel
  layers : List (TransformerBlock α config)
  length_layers : layers.length = config.nLayers
  norm : RowModule α config.dModel config.dModel
  output : RowModule α config.dModel config.vocabSize

namespace Transformer

section Lanes

variable [CommRing α] [Inhabited α]

/-- Every block in turn, each with its own layer of the cache. -/
def forwardLayers (device : Device α) (rope : RotaryEncoding α) (plan : LanePlan) :
    List (TransformerBlock α config) → List (KeyValueCache α) → Tensor α →
      Option (Tensor α × List (KeyValueCache α))
  | block :: blocks, cache :: rest, h => do
    let (h, cache) ← block.forwardLanes device rope plan cache h
    let (h, rest) ← forwardLayers device rope plan blocks rest h
    some (h, cache :: rest)
  | _, rest, h => some (h, rest)

/-- Advance the active lanes through every layer and return their logits,
`[n, seq_len, vocab]`. -/
def forwardLanes (transformer : Transformer α config) (device : Device α)
    (rope : RotaryEncoding α) (plan : LanePlan) (layers : List (KeyValueCache α))
    (input : Tensor ℤ) : Option (Tensor α × List (KeyValueCache α)) := do
  let (h, layers) ← forwardLayers device rope plan transformer.layers layers
    (transformer.tokEmbeddings.forward input)
  some (transformer.output.forward (transformer.norm.forward h), layers)

/-- A token id as the signed word a lookup takes. -/
def asI32 (token : Token) : ℤ := token.toBitVec.toInt

/-- What a decoder asks of its model: each lane's last-position logits, and the
layers after the forward. A forward that panics answers no rows. -/
def lastLogits (transformer : Transformer α config) (device : Device α) (rope : RotaryEncoding α)
    (input : List (List Token)) (plan : LanePlan) (layers : List (KeyValueCache α)) :
    Logits (Fin config.vocabSize → α) × List (KeyValueCache α) :=
  let n := input.length
  let seqLen := (input.headD []).length
  let ids := Tensor.fromData (input.flatten.map asI32) [n, seqLen]
  match transformer.forwardLanes device rope plan layers ids with
  | none => (⟨config.vocabSize, []⟩, layers)
  | some (logits, layers) =>
    let last := (logits.slice [(0, n), (seqLen - 1, seqLen), (0, config.vocabSize)]).reshape
      [n, config.vocabSize]
    (⟨config.vocabSize, (List.range n).map fun j channel => last.entry [j, channel]⟩, layers)

end Lanes

/-- The training forward over whole sequences, `[batch, seq_len, vocab]`. -/
def forwardTrain [Add α] (transformer : Transformer α config) (device : Device α)
    (rope : RotaryEncoding α) (input : Tensor ℤ) : Tensor α :=
  let h := transformer.layers.foldl (fun h block => block.forwardTrain device rope h)
    (transformer.tokEmbeddings.forward input)
  transformer.output.forward (transformer.norm.forward h)

end Transformer

end BurnLm.Llama
