/-
# Block storage

The physical half of the cache: a tensor of blocks, written through explicit
`(block, offset)` destinations and read through explicit block ids. It knows no
lanes and no lengths. `LanePlan` is the address book of one round, built by the
ledger side and consumed here.

Storage is allocated uninitialized, so a store is created over arbitrary
contents and only the sentinel block is known. Block ids are carried as the
naturals they are; the 32-bit index tensors hold the same numbers.
-/

import BurnLm.Math.Tensor
import BurnLm.PagedKv.BlockPool

namespace BurnLm.PagedKv

open BurnLm.Math

universe u

/-- Everything one lane-aware forward needs to know about where its lanes sit. -/
structure LanePlan where
  /-- The active lanes, one per row of the forward input. -/
  lanes : List ℕ
  /-- Each lane's sequence length before this forward. -/
  starts : List ℕ
  /-- Per active lane, the block ids covering its positions after this forward. -/
  tables : List (List ℕ)
  /-- `blocksPerLane` block ids per lane, short lanes padded with the sentinel. -/
  gatherIdx : Tensor ℕ
  /-- Blocks per lane in `gatherIdx`. -/
  blocksPerLane : ℕ
  /-- The `(block, offset)` destination of every new token, lane-major. -/
  writeIdx : Tensor ℕ
  /-- The longest active lane's length after this forward. -/
  lMax : ℕ
  /-- Per active lane, its sequence length after this forward. -/
  lengths : Tensor ℕ
  /-- The attention mask, `[n, 1, q, lMax]`, `true` meaning masked. -/
  mask : Tensor Bool

/-- A pool of KV blocks, `[num_blocks, block_size, num_heads, head_dim]`. -/
structure BlockStore (α : Type u) where
  pool : Tensor α

/-- KV read out of a store with the positions nobody wrote still in it. -/
structure RaggedKv (α : Type u) where
  tensor : Tensor α

variable {α : Type u}

namespace BlockStore

/-- An empty store over whatever the allocator had lying around. Only the
sentinel block is initialized. -/
def new [Zero α] (uninit : List ℕ → α) (numBlocks blockSize numHeads headDim : ℕ) :
    BlockStore α :=
  let pool : Tensor α := ⟨[numBlocks, blockSize, numHeads, headDim], uninit⟩
  let zeros : Tensor α := ⟨[1, blockSize, numHeads, headDim], fun _ => 0⟩
  ⟨pool.sliceAssign [(0, 1), (0, blockSize), (0, numHeads), (0, headDim)] zeros⟩

def write (store : BlockStore α) (writeIdx : Tensor ℕ) (rows : Tensor α) : BlockStore α :=
  let n := rows.dim 0
  let heads := rows.dim 1
  let seqLen := rows.dim 2
  let headDim := rows.dim 3
  let rows := (rows.swapDims 1 2).reshape [n * seqLen, heads, headDim]
  ⟨store.pool.scatterNd writeIdx rows⟩

/-- Read `lMax` positions of each lane from a caller-built gather index. -/
def gather (store : BlockStore α) (idx : Tensor ℕ) (blocksPerLane lMax : ℕ) : RaggedKv α :=
  let bs := store.pool.dim 1
  let heads := store.pool.dim 2
  let headDim := store.pool.dim 3
  let nb := blocksPerLane
  let n := idx.dim 0 / nb
  ⟨(((store.pool.select idx).reshape [n, nb * bs, heads, headDim]).swapDims 1 2).slice
    [(0, n), (0, heads), (0, lMax), (0, headDim)]⟩

end BlockStore

/-- Write zeros over every position past each lane's own length. The mask row
read is the last query row, `seq_q - 1`; without a query row the subtraction
underflows and there is no result. -/
def RaggedKv.neutralized [Zero α] (kv : RaggedKv α) (plan : LanePlan) : Option (Tensor α) :=
  let n := kv.tensor.dim 0
  let heads := kv.tensor.dim 1
  let lMax := kv.tensor.dim 2
  let headDim := kv.tensor.dim 3
  match plan.mask.dim 2 with
  | 0 => none
  | last + 1 =>
    let dead := ((plan.mask.slice [(0, n), (0, 1), (last, last + 1), (0, lMax)]).reshape
      [n, 1, lMax, 1]).expand [n, heads, lMax, headDim]
    some (kv.tensor.maskFill dead 0)

/-- The `(block, offset)` destinations of one round's writes: for each lane in
order its `seqLen` new positions, translated through its table. -/
def writeIndices (tables : List (List ℕ)) (starts : List ℕ) (seqLen blockSize : ℕ) : List ℕ :=
  (tables.zip starts).flatMap fun entry =>
    (List.range' entry.2 seqLen).flatMap fun p =>
      [entry.1.getD (p / blockSize) 0, p % blockSize]

structure KeyValueCache (α : Type u) where
  key : BlockStore α
  value : BlockStore α
  blockSize : ℕ

namespace KeyValueCache

def new [Zero α] (uninitKey uninitValue : List ℕ → α)
    (numBlocks numHeads blockSize headDim : ℕ) : KeyValueCache α where
  key := BlockStore.new uninitKey numBlocks blockSize numHeads headDim
  value := BlockStore.new uninitValue numBlocks blockSize numHeads headDim
  blockSize := blockSize

def write (cache : KeyValueCache α) (plan : LanePlan) (key value : Tensor α) : KeyValueCache α :=
  { cache with
    key := cache.key.write plan.writeIdx key
    value := cache.value.write plan.writeIdx value }

def gather (cache : KeyValueCache α) (plan : LanePlan) : RaggedKv α × RaggedKv α :=
  (cache.key.gather plan.gatherIdx plan.blocksPerLane plan.lMax,
    cache.value.gather plan.gatherIdx plan.blocksPerLane plan.lMax)

end KeyValueCache

/-! ## Reading what was gathered and written -/

/-- The axes of a store, with the block size the addressing divides by. -/
structure StoreShape (store : BlockStore α) (numBlocks blockSize heads headDim : ℕ) : Prop where
  shape : store.pool.shape = [numBlocks, blockSize, heads, headDim]
  blockSize_pos : 0 < blockSize

namespace StoreShape

variable {store : BlockStore α} {numBlocks blockSize heads headDim : ℕ}

theorem dims (hshape : StoreShape store numBlocks blockSize heads headDim) :
    store.pool.dim 1 = blockSize ∧ store.pool.dim 2 = heads ∧ store.pool.dim 3 = headDim := by
  simp [Tensor.dim, hshape.shape]

/-- A gathered entry comes from the block the index names for its position. -/
theorem entry_gather (hshape : StoreShape store numBlocks blockSize heads headDim)
    {idx : Tensor ℕ} {blocksPerLane lMax row head position channel : ℕ}
    (hhead : head < heads) (hchannel : channel < headDim) :
    (store.gather idx blocksPerLane lMax).tensor.entry [row, head, position, channel] =
      store.pool.entry [idx.entry [row * blocksPerLane + position / blockSize],
        position % blockSize, head, channel] := by
  have hbounds : Tensor.InBounds [heads, headDim] [head, channel] :=
    .cons hhead (.cons hchannel .nil)
  have hselect : (store.pool.select idx).shape =
      idx.shape.headD 0 :: blockSize :: [heads, headDim] := by
    simp [Tensor.select, hshape.shape]
  obtain ⟨hbs, hheads, hdim⟩ := hshape.dims
  simp only [BlockStore.gather, hbs, hheads, hdim]
  have hslice : ∀ (tensor : Tensor α) (ends : ℕ × ℕ × ℕ × ℕ),
      (tensor.slice [(0, ends.1), (0, ends.2.1), (0, ends.2.2.1), (0, ends.2.2.2)]).entry
        [row, head, position, channel] = tensor.entry [row, head, position, channel] := by
    intro tensor ends
    simp [Tensor.slice]
  rw [hslice _ (idx.dim 0 / blocksPerLane, heads, lMax, headDim)]
  exact Tensor.entry_reshape_regroup _ hselect hshape.blockSize_pos hbounds

theorem shape_gather (hshape : StoreShape store numBlocks blockSize heads headDim)
    (idx : Tensor ℕ) (blocksPerLane lMax : ℕ) :
    (store.gather idx blocksPerLane lMax).tensor.shape =
      [idx.dim 0 / blocksPerLane, heads, lMax, headDim] := by
  obtain ⟨_, hheads, hdim⟩ := hshape.dims
  simp [BlockStore.gather, Tensor.slice, hheads, hdim]

theorem write (hshape : StoreShape store numBlocks blockSize heads headDim) (writeIdx : Tensor ℕ)
    (rows : Tensor α) : StoreShape (store.write writeIdx rows) numBlocks blockSize heads headDim :=
  ⟨hshape.shape, hshape.blockSize_pos⟩

end StoreShape

/-- The token-major rows a write scatters. -/
theorem entry_tokenMajor (rows : Tensor α) {n heads seqLen headDim row step head channel : ℕ}
    (hrows : rows.shape = [n, heads, seqLen, headDim]) (hstep : step < seqLen)
    (hhead : head < heads) (hchannel : channel < headDim) :
    ((rows.swapDims 1 2).reshape [n * seqLen, heads, headDim]).entry
        [row * seqLen + step, head, channel] = rows.entry [row, head, step, channel] := by
  have hbounds : Tensor.InBounds [heads, headDim] [head, channel] :=
    .cons hhead (.cons hchannel .nil)
  have hswap : (rows.swapDims 1 2).shape = n :: seqLen :: [heads, headDim] := by
    simp [Tensor.swapDims, Tensor.swapAt, hrows]
  rw [Tensor.entry_reshape_merge _ hswap hbounds]
  obtain ⟨hdiv, hmod⟩ := Tensor.div_mod_of_lt row hstep
  simp [Tensor.swapDims, Tensor.swapAt, hdiv, hmod]

/-- A fresh store's sentinel is zero. -/
theorem entry_new_sentinel [Zero α] (uninit : List ℕ → α)
    {numBlocks blockSize heads headDim at_ head channel : ℕ} (hat : at_ < blockSize)
    (hhead : head < heads) (hchannel : channel < headDim) :
    (BlockStore.new uninit numBlocks blockSize heads headDim).pool.entry
      [sentinelBlock, at_, head, channel] = 0 := by
  simp [BlockStore.new, Tensor.sliceAssign, sentinelBlock, hat, hhead, hchannel]

theorem storeShape_new [Zero α] (uninit : List ℕ → α) {numBlocks blockSize heads headDim : ℕ}
    (hblock : 0 < blockSize) :
    StoreShape (BlockStore.new uninit numBlocks blockSize heads headDim)
      numBlocks blockSize heads headDim :=
  ⟨rfl, hblock⟩

end BurnLm.PagedKv
