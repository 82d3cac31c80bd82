/-
# How many blocks a round needs

Whether a round is granted is decided by comparing what it needs with the free
stack. In a pool whose ledger is a partition that comparison can be read the
other way round: a round fits exactly when the blocks of all lanes, at the
lengths the round would give them, fit into the pool. Whoever sizes a pool or
budgets for one reasons about that sum, which mentions no block id.
-/

import Mathlib.Algebra.BigOperators.Group.Finset.Piecewise
import Mathlib.Algebra.Order.BigOperators.Group.Finset
import BurnLm.PagedKv.PoolRun

namespace BurnLm.PagedKv

open BurnLm.Math
open scoped BigOperators

/-- A function that vanishes off distinct keys sums to at most what bounds it key
by key. -/
theorem sum_range_le_sum_map {β : Type*} {items : List β} {key weight : β → ℕ} {value : ℕ → ℕ}
    (hnodup : (items.map key).Nodup) (hle : ∀ item ∈ items, value (key item) ≤ weight item)
    (hzero : ∀ index, (∀ item ∈ items, key item ≠ index) → value index = 0) (bound : ℕ) :
    ∑ index ∈ Finset.range bound, value index ≤ (items.map weight).sum := by
  have hsupport : ∑ index ∈ Finset.range bound, value index =
      ∑ index ∈ Finset.range bound ∩ (items.map key).toFinset, value index := by
    refine (Finset.sum_subset Finset.inter_subset_left fun index hindex hout => ?_).symm
    refine hzero index fun item hitem hsame => hout (Finset.mem_inter.mpr ⟨hindex, ?_⟩)
    rw [List.mem_toFinset, ← hsame]
    exact List.mem_map_of_mem hitem
  calc ∑ index ∈ Finset.range bound, value index
    _ = ∑ index ∈ Finset.range bound ∩ (items.map key).toFinset, value index := hsupport
    _ ≤ ∑ index ∈ (items.map key).toFinset, value index :=
        Finset.sum_le_sum_of_subset Finset.inter_subset_right
    _ = ((items.map key).map value).sum := List.sum_toFinset value hnodup
    _ ≤ (items.map weight).sum := by
        rw [List.map_map]
        exact List.sum_le_sum hle

namespace BlockPool

/-- The length a lane would have after a round. -/
def lenAfter (pool : BlockPool) (lanes : List ℕ) (seqLen lane : ℕ) : ℕ :=
  pool.laneLen lane + if lane ∈ lanes then seqLen else 0

/-- A lane of the round grows by its width. -/
theorem lenAfter_of_mem (pool : BlockPool) {lanes : List ℕ} (seqLen : ℕ) {lane : ℕ}
    (hlane : lane ∈ lanes) : pool.lenAfter lanes seqLen lane = pool.laneLen lane + seqLen := by
  rw [lenAfter, if_pos hlane]

/-- Every other lane stays. -/
theorem lenAfter_of_notMem (pool : BlockPool) {lanes : List ℕ} (seqLen : ℕ) {lane : ℕ}
    (hlane : lane ∉ lanes) : pool.lenAfter lanes seqLen lane = pool.laneLen lane := by
  rw [lenAfter, if_neg hlane, add_zero]

/-- Free blocks and the blocks the lanes' lengths need make up the pool. -/
theorem Partitioned.free_add_held {pool : BlockPool} (hpool : Partitioned pool) :
    pool.free.length +
      ∑ lane ∈ Finset.range pool.laneCount, pool.blocksFor (pool.laneLen lane) =
        pool.usableBlocks := by
  have htables : pool.tables.map List.length =
      (List.range pool.laneCount).map fun lane => pool.blocksFor (pool.laneLen lane) := by
    refine List.ext_getElem (by simp [hpool.tables_length]) fun lane hlane _ => ?_
    simp only [List.length_map] at hlane
    simp only [List.getElem_map, List.getElem_range, ← hpool.covers lane, laneBlocks]
    rw [List.getD_eq_getElem _ _ hlane]
  rw [usableBlocks, htables]
  rfl

/-- A partitioned round needs the blocks its lanes gain. -/
theorem Partitioned.sum_lenAfter {pool : BlockPool} (hpool : Partitioned pool)
    (lanes : RoundLanes pool.laneCount) (seqLen : ℕ) :
    ∑ lane ∈ Finset.range pool.laneCount,
        pool.blocksFor (pool.lenAfter lanes.lanes seqLen lane) =
      (∑ lane ∈ Finset.range pool.laneCount, pool.blocksFor (pool.laneLen lane)) +
        pool.demand lanes.lanes seqLen := by
  have hgain : ∀ lane, pool.blocksFor (pool.lenAfter lanes.lanes seqLen lane) =
      pool.blocksFor (pool.laneLen lane) +
        if lane ∈ lanes.lanes.toFinset then pool.shortfall seqLen lane else 0 := by
    intro lane
    by_cases hlane : lane ∈ lanes.lanes
    · have hmono : pool.blocksFor (pool.laneLen lane) ≤
          pool.blocksFor (pool.laneLen lane + seqLen) := ceilDiv_mono _ (Nat.le_add_right _ _)
      rw [lenAfter_of_mem pool seqLen hlane, if_pos (List.mem_toFinset.mpr hlane),
        shortfall_eq hpool]
      omega
    · rw [lenAfter_of_notMem pool seqLen hlane,
        if_neg (fun hmem => hlane (List.mem_toFinset.mp hmem)), add_zero]
  have hsubset : lanes.lanes.toFinset ⊆ Finset.range pool.laneCount := by
    intro lane hlane
    exact Finset.mem_range.mpr (lanes.inRange lane (List.mem_toFinset.mp hlane))
  rw [Finset.sum_congr rfl fun lane _ => hgain lane, Finset.sum_add_distrib, Finset.sum_ite_mem,
    Finset.inter_eq_right.mpr hsubset, List.sum_toFinset _ lanes.nodup]
  rfl

/-- A round fits exactly when all lanes, at the lengths it gives them, fit. -/
theorem Partitioned.demand_le_free_iff {pool : BlockPool} (hpool : Partitioned pool)
    (lanes : RoundLanes pool.laneCount) (seqLen : ℕ) :
    pool.demand lanes.lanes seqLen ≤ pool.free.length ↔
      ∑ lane ∈ Finset.range pool.laneCount,
        pool.blocksFor (pool.lenAfter lanes.lanes seqLen lane) ≤ pool.usableBlocks := by
  rw [hpool.sum_lenAfter, ← hpool.free_add_held]
  omega

/-- Lanes held to a budget: what is nobody's is empty, and the budgets together
stay within the pool. Then a round that stays within them is granted. -/
theorem Partitioned.grants {pool : BlockPool} (hpool : Partitioned pool)
    (lanes : RoundLanes pool.laneCount) (seqLen : ℕ) {claims : List (ℕ × ℕ)}
    (hnodup : (claims.map Prod.fst).Nodup)
    (hclaims : ∀ claim ∈ claims,
      pool.blocksFor (pool.lenAfter lanes.lanes seqLen claim.1) ≤ claim.2)
    (hempty : ∀ lane, (∀ claim ∈ claims, claim.1 ≠ lane) →
      pool.lenAfter lanes.lanes seqLen lane = 0)
    (hsum : (claims.map Prod.snd).sum ≤ pool.usableBlocks) :
    ∃ starts, (pool.beginRound lanes.lanes seqLen).1 = .ok starts := by
  have hdemand : pool.demand lanes.lanes seqLen ≤ pool.free.length := by
    refine (hpool.demand_le_free_iff lanes seqLen).mpr (le_trans ?_ hsum)
    refine sum_range_le_sum_map hnodup hclaims (fun lane hlane => ?_) pool.laneCount
    rw [hempty lane hlane]
    simp [blocksFor]
  rcases hpool.toLedgered.beginRound_cases rfl lanes seqLen with
    ⟨_, after, hround, _⟩ | ⟨hshort, _⟩
  · exact ⟨_, congrArg Prod.fst hround⟩
  · have hgrowth := pool.roundGrowth_le_demand lanes.lanes seqLen
    exact absurd (hgrowth.trans hdemand) (not_le.mpr hshort)

end BlockPool

end BurnLm.PagedKv
