/-
# The paged cache

A cache owns one ledger and, per layer, a key store and a value store. Planning
a round checks the context window, commits the round in the ledger, and turns
the committed ledger into a `LanePlan`; after that, layers read and write purely
through the plan. The plan's index tensors are computed here exactly as the
host builds them, and the lemmas at the end say what each one reads as.

A round over no lanes panics in the source after a commit that changed nothing.
Here it yields the plan with no rows instead. The window check adds over the
natural numbers: a width is the length of a slice in memory, and one wide enough
to wrap the check has no index tensors, so the source comes to no plan for it.
-/

import BurnLm.PagedKv.BlockStore
import BurnLm.PagedKv.PoolRun

namespace BurnLm.PagedKv

open BurnLm.Math

universe u

def defaultBlockSize : ℕ := 128

structure KvLayout where
  nLayers : ℕ
  nKvHeads : ℕ
  headDim : ℕ
  /-- The context window: the per-lane token ceiling. -/
  maxSeqLen : ℕ
  maxSeqLen_lt : maxSeqLen < 2 ^ 64 := by decide
  deriving DecidableEq, Repr

/-- What can go wrong planning a round. -/
inductive PagedKvError
  /-- A lane's new length would pass the context window. -/
  | maxSequenceLengthExceeded (actual max : ℕ)
  /-- The block pool could not cover the round. -/
  | poolExhausted (shortBy : ℕ)
  deriving DecidableEq, Repr

structure PagedKvCache (α : Type u) where
  layers : List (KeyValueCache α)
  layout : KvLayout
  pool : BlockPool

/-- The plan of a round the ledger has committed: `pool` is the ledger after the
round, `starts` the lengths from before it. -/
def LanePlan.ofCommit (pool : BlockPool) (lanes starts : List ℕ) (seqLen : ℕ) : LanePlan :=
  let n := lanes.length
  let lMax := (starts.map (· + seqLen)).foldl max 0
  let maskData := starts.flatMap fun s =>
    (List.range seqLen).flatMap fun r =>
      (List.range lMax).map fun c => decide (c > s + r)
  let tables := lanes.map pool.laneBlocks
  let blocksPerLane := lMax ⌈/⌉ pool.blockSize
  let ids := (tables.zip starts).flatMap fun entry =>
    (List.range blocksPerLane).map fun i => entry.1.getD i sentinelBlock
  let lens := (tables.zip starts).map fun entry => entry.2 + seqLen
  let writeIds := writeIndices tables starts seqLen pool.blockSize
  { lanes
    starts
    tables
    gatherIdx := .fromData ids [n * blocksPerLane]
    blocksPerLane
    writeIdx := .fromData writeIds [n * seqLen, 2]
    lMax
    lengths := .fromData lens [n]
    mask := .fromData maskData [n, 1, seqLen, lMax] }

variable {α : Type u}

namespace PagedKvCache

/-- The standard constructor: an explicit pool size. `uninit` is what the
allocator leaves in each layer's key and value store. -/
def new [Zero α] (layout : KvLayout) (maxLanes blockSize usableBlocks : ℕ)
    (uninit : ℕ → (List ℕ → α) × (List ℕ → α)) : Option (PagedKvCache α) :=
  if 1 ≤ blockSize ∧ blockSize ≤ layout.maxSeqLen ∧ 1 ≤ usableBlocks then
    -- plus the zeroed sentinel
    let numBlocks := usableBlocks + 1
    let layers := (List.range layout.nLayers).map fun layer =>
      KeyValueCache.new (uninit layer).1 (uninit layer).2
        numBlocks layout.nKvHeads blockSize layout.headDim
    (BlockPool.new blockSize numBlocks maxLanes).map fun pool => { layers, layout, pool }
  else none

/-- A cache whose pool holds one context window's worth of tokens per lane. -/
def withWindowPerLane [Zero α] (layout : KvLayout) (maxLanes blockSize : ℕ)
    (uninit : ℕ → (List ℕ → α) × (List ℕ → α)) : Option (PagedKvCache α) :=
  let windowPerLane := (maxLanes * layout.maxSeqLen) ⌈/⌉ blockSize
  new layout maxLanes blockSize windowPerLane uninit

/-- A cache with the default block size and a window-per-lane pool. -/
def withDefaultBlocks [Zero α] (layout : KvLayout) (maxLanes : ℕ)
    (uninit : ℕ → (List ℕ → α) × (List ℕ → α)) : Option (PagedKvCache α) :=
  withWindowPerLane layout maxLanes (min defaultBlockSize layout.maxSeqLen) uninit

/-- The hard per-lane token capacity. -/
def maxSeqLen (cache : PagedKvCache α) : ℕ := cache.layout.maxSeqLen

def laneLen (cache : PagedKvCache α) (lane : ℕ) : ℕ := cache.pool.laneLen lane

/-- Plan one forward of `seqLen` new tokens over the given lanes, and commit it
in the ledger. -/
def prepareLanes (cache : PagedKvCache α) (lanes : List ℕ) (seqLen : ℕ) :
    Except PagedKvError LanePlan × PagedKvCache α :=
  match lanes.find? fun lane => cache.laneLen lane + seqLen > cache.layout.maxSeqLen with
  | some lane =>
    (.error (.maxSequenceLengthExceeded (cache.laneLen lane + seqLen) cache.layout.maxSeqLen),
      cache)
  | none =>
    match cache.pool.beginRound lanes seqLen with
    | (.error exhausted, pool) =>
      (.error (.poolExhausted exhausted.shortBy), { cache with pool := pool })
    | (.ok starts, pool) => (.ok (.ofCommit pool lanes starts seqLen), { cache with pool := pool })

/-- Every layer writes the round's keys and values through the plan. -/
def writeLayers (cache : PagedKvCache α) (plan : LanePlan) (keys values : ℕ → Tensor α) :
    PagedKvCache α :=
  { cache with
    layers := cache.layers.mapIdx fun layer kv => kv.write plan (keys layer) (values layer) }

/-- Free one lane. A lane past the ledger is ignored. -/
def resetLane (cache : PagedKvCache α) (lane : ℕ) : PagedKvCache α :=
  if cache.pool.laneCount ≤ lane then cache
  else { cache with pool := cache.pool.freeLane lane }

def reset (cache : PagedKvCache α) : PagedKvCache α :=
  (List.range cache.pool.laneCount).foldl resetLane cache

/-! ## The outcomes of planning -/

/-- What planning a round can do: refuse a lane past the window, leaving the
cache alone; find the pool short, restoring the ledger; or commit. -/
theorem prepareLanes_cases (cache : PagedKvCache α) {laneCount : ℕ}
    (hpool : cache.pool.Ledgered) (hcount : cache.pool.laneCount = laneCount)
    (lanes : RoundLanes laneCount) (seqLen : ℕ) :
    (∃ lane ∈ lanes.lanes, cache.layout.maxSeqLen < cache.laneLen lane + seqLen ∧
      cache.prepareLanes lanes.lanes seqLen =
        (.error (.maxSequenceLengthExceeded (cache.laneLen lane + seqLen)
          cache.layout.maxSeqLen), cache)) ∨
    ((∀ lane ∈ lanes.lanes, cache.laneLen lane + seqLen ≤ cache.layout.maxSeqLen) ∧
      cache.pool.free.length < cache.pool.demand lanes.lanes seqLen ∧
      ∃ exhausted pool, cache.prepareLanes lanes.lanes seqLen =
          (.error (.poolExhausted exhausted), { cache with pool := pool }) ∧
        BlockPool.Restored cache.pool pool) ∨
    ((∀ lane ∈ lanes.lanes, cache.laneLen lane + seqLen ≤ cache.layout.maxSeqLen) ∧
      cache.pool.demand lanes.lanes seqLen ≤ cache.pool.free.length ∧
      ∃ pool, cache.prepareLanes lanes.lanes seqLen =
          (.ok (.ofCommit pool lanes.lanes (lanes.lanes.map cache.pool.laneLen) seqLen),
            { cache with pool := pool }) ∧
        BlockPool.Committed cache.pool lanes.lanes seqLen pool) := by
  cases hfind : lanes.lanes.find? fun lane =>
      cache.laneLen lane + seqLen > cache.layout.maxSeqLen with
  | some lane =>
      have hover := List.find?_some hfind
      refine Or.inl ⟨lane, List.mem_of_find?_eq_some hfind, by simpa using hover, ?_⟩
      simp only [prepareLanes, hfind]
  | none =>
      have hwindow : ∀ lane ∈ lanes.lanes,
          cache.laneLen lane + seqLen ≤ cache.layout.maxSeqLen := fun lane hlane => by
        simpa using List.find?_eq_none.mp hfind lane hlane
      have hfits : cache.pool.Fits lanes.lanes seqLen := fun lane hlane =>
        (hwindow lane hlane).trans_lt cache.layout.maxSeqLen_lt
      rcases hpool.beginRound_fits hcount lanes hfits with
        ⟨hdemand, pool, hround, hpool'⟩ | ⟨hdemand, exhausted, pool, hround, hpool'⟩
      · refine Or.inr (Or.inr ⟨hwindow, hdemand, pool, ?_, hpool'⟩)
        simp only [prepareLanes, hfind, hround]
      · refine Or.inr (Or.inl ⟨hwindow, hdemand, exhausted.shortBy, pool, ?_, hpool'⟩)
        simp only [prepareLanes, hfind, hround]

end PagedKvCache

/-! ## What a plan reads as -/

namespace LanePlan

variable (pool : BlockPool) (lanes : List ℕ) (start : ℕ → ℕ) (seqLen : ℕ)

/-- Folding `max` over a list bounds every member. -/
theorem le_foldl_max {values : List ℕ} {value init : ℕ} (hvalue : value ∈ values ∨ value ≤ init) :
    value ≤ values.foldl max init := by
  induction values generalizing init with
  | nil => simpa using hvalue
  | cons head values ih =>
      rw [List.foldl_cons]
      apply ih
      rcases hvalue with hvalue | hvalue
      · rcases List.mem_cons.mp hvalue with rfl | hvalue
        · exact Or.inr (le_max_right _ _)
        · exact Or.inl hvalue
      · exact Or.inr (le_trans hvalue (le_max_left _ _))

/-- The padded width covers every lane of the round. -/
theorem length_le_lMax {lane : ℕ} (hlane : lane ∈ lanes) :
    start lane + seqLen ≤ (ofCommit pool lanes (lanes.map start) seqLen).lMax := by
  refine le_foldl_max (Or.inl ?_)
  simp only [List.map_map, List.mem_map]
  exact ⟨lane, hlane, rfl⟩

/-- Tables and starts of one plan, paired lane by lane. -/
theorem zip_tables_starts :
    (lanes.map pool.laneBlocks).zip (lanes.map start) =
      lanes.map fun lane => (pool.laneBlocks lane, start lane) :=
  List.zip_map'

/-- The gather index lists each lane's table in order and pads with the
sentinel. -/
theorem entry_gatherIdx {j at_ lane : ℕ} (hj : lanes[j]? = some lane)
    (hat : at_ < (ofCommit pool lanes (lanes.map start) seqLen).blocksPerLane) :
    (ofCommit pool lanes (lanes.map start) seqLen).gatherIdx.entry
        [j * (ofCommit pool lanes (lanes.map start) seqLen).blocksPerLane + at_] =
      (pool.laneBlocks lane).getD at_ sentinelBlock := by
  simp only [ofCommit] at hat ⊢
  simp only [Tensor.fromData, Tensor.offset, List.prod_nil, mul_one, add_zero, zip_tables_starts]
  rw [getD_flatMap_of_length _ _ (fun _ _ => by simp) hat _ (pool.laneBlocks lane, start lane)
    (by simp [hj])]
  rw [List.getD_eq_getElem?_getD, List.getElem?_map, List.getElem?_range hat]
  rfl

/-- As many gather entries as the rows have blocks. -/
theorem dim_gatherIdx :
    (ofCommit pool lanes (lanes.map start) seqLen).gatherIdx.dim 0 =
      lanes.length * (ofCommit pool lanes (lanes.map start) seqLen).blocksPerLane := rfl

/-- A column below the padded width lies in one of the gathered blocks. -/
theorem div_lt_blocksPerLane (hblock : 0 < pool.blockSize) {column : ℕ}
    (hcolumn : column < (ofCommit pool lanes (lanes.map start) seqLen).lMax) :
    column / pool.blockSize < (ofCommit pool lanes (lanes.map start) seqLen).blocksPerLane :=
  div_lt_ceilDiv hblock hcolumn

/-- The length of lane row `j` after the round. -/
theorem entry_lengths {j lane : ℕ} (hj : lanes[j]? = some lane) :
    (ofCommit pool lanes (lanes.map start) seqLen).lengths.entry [j] = start lane + seqLen := by
  simp only [ofCommit, Tensor.fromData, Tensor.offset, List.prod_nil, mul_one, add_zero,
    zip_tables_starts]
  simp [List.getD_eq_getElem?_getD, hj]

/-- One mask row per lane and new token, as wide as the longest lane. -/
theorem shape_mask :
    (ofCommit pool lanes (lanes.map start) seqLen).mask.shape =
      [lanes.length, 1, seqLen, (ofCommit pool lanes (lanes.map start) seqLen).lMax] := rfl

/-- The mask hides exactly the columns past the query row's own position. -/
theorem entry_mask {j lane row column : ℕ} (hj : lanes[j]? = some lane) (hrow : row < seqLen)
    (hcolumn : column < (ofCommit pool lanes (lanes.map start) seqLen).lMax) :
    (ofCommit pool lanes (lanes.map start) seqLen).mask.entry [j, 0, row, column] =
      decide (start lane + row < column) := by
  simp only [ofCommit] at hcolumn ⊢
  simp only [Tensor.fromData, Tensor.offset, List.prod_cons, List.prod_nil, mul_one, add_zero,
    one_mul, zero_mul, zero_add]
  set lMax := ((lanes.map start).map (· + seqLen)).foldl max 0
  have hrowWidth : ∀ s : ℕ, ∀ item ∈ List.range seqLen,
      ((List.range lMax).map fun c => decide (c > s + item)).length = lMax := by simp
  have hinside : row * lMax + column < seqLen * lMax := Tensor.merged_lt hrow hcolumn
  rw [getD_flatMap_of_length _ _
    (fun s _ => by simp) hinside _ (start lane)
    (by simp [hj])]
  rw [getD_flatMap_of_length _ _ (hrowWidth (start lane)) hcolumn _ row
    (by simp [List.getElem?_range hrow])]
  simp [List.getD_eq_getElem?_getD, List.getElem?_range hcolumn]

/-- Token `step` of lane row `j` is written where the lane's table puts its
position. -/
theorem entry_writeIdx {j lane step : ℕ} (hj : lanes[j]? = some lane) (hstep : step < seqLen) :
    (ofCommit pool lanes (lanes.map start) seqLen).writeIdx.entry [j * seqLen + step, 0] =
        (pool.laneBlocks lane).getD ((start lane + step) / pool.blockSize) 0 ∧
      (ofCommit pool lanes (lanes.map start) seqLen).writeIdx.entry [j * seqLen + step, 1] =
        (start lane + step) % pool.blockSize := by
  have hpair : ∀ entry : List ℕ × ℕ, ∀ item ∈ List.range' entry.2 seqLen,
      [entry.1.getD (item / pool.blockSize) 0, item % pool.blockSize].length = 2 := by simp
  have hlane : ∀ entry ∈ lanes.map fun lane => (pool.laneBlocks lane, start lane),
      ((List.range' entry.2 seqLen).flatMap fun p =>
        [entry.1.getD (p / pool.blockSize) 0, p % pool.blockSize]).length = seqLen * 2 :=
    fun entry _ => by simp
  have hread : ∀ side < 2, ((ofCommit pool lanes (lanes.map start) seqLen).writeIdx.entry
      [j * seqLen + step, side]) = [(pool.laneBlocks lane).getD
        ((start lane + step) / pool.blockSize) 0,
          (start lane + step) % pool.blockSize].getD side default := by
    intro side hside
    simp only [ofCommit, Tensor.fromData, Tensor.offset, List.prod_cons, List.prod_nil, mul_one,
      add_zero, writeIndices, zip_tables_starts]
    rw [show (j * seqLen + step) * 2 + side = j * (seqLen * 2) + (step * 2 + side) by ring]
    rw [getD_flatMap_of_length _ _ hlane (by omega) _ (pool.laneBlocks lane, start lane)
      (by simp [hj])]
    rw [getD_flatMap_of_length _ _ (hpair _) hside _ (start lane + step)
      (by simp [hstep])]
  exact ⟨by simpa using hread 0 (by omega), by simpa using hread 1 (by omega)⟩

end LanePlan

end BurnLm.PagedKv
