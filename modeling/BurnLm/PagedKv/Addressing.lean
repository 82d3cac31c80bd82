/-
# Addresses

A lane's position lives in the block its table names for it, at the position's
offset inside a block. In a partitioned ledger this is an injection: two live
positions, of one lane or of two, never share an address, and no live position
lies in the sentinel. Everything the cache promises about its contents rests on
that, so it is proved here once, for every block size and however the blocks
have churned.
-/

import BurnLm.PagedKv.Cache

namespace BurnLm.PagedKv

open BurnLm.Math

universe u

namespace BlockPool

/-- Where a lane's position lives: the block and the offset inside it. -/
def address (pool : BlockPool) (lane position : ℕ) : ℕ × ℕ :=
  ((pool.laneBlocks lane).getD (position / pool.blockSize) sentinelBlock,
    position % pool.blockSize)

namespace Partitioned

variable {pool : BlockPool}

/-- A live position's table entry exists. -/
theorem div_lt_length (hpool : pool.Partitioned) {lane position : ℕ}
    (hlive : position < pool.laneLen lane) :
    position / pool.blockSize < (pool.laneBlocks lane).length := by
  rw [hpool.covers]
  exact div_lt_ceilDiv hpool.blockSize_pos hlive

/-- A live position lies in a block of its own lane's table. -/
theorem address_mem (hpool : pool.Partitioned) {lane position : ℕ}
    (hlive : position < pool.laneLen lane) :
    (pool.address lane position).1 ∈ pool.laneBlocks lane := by
  rw [address, List.getD_eq_getElem _ _ (hpool.div_lt_length hlive)]
  exact List.getElem_mem _

/-- Two live positions with one address are one position of one lane. -/
theorem address_inj (hpool : pool.Partitioned) {first second position other : ℕ}
    (hfirst : position < pool.laneLen first) (hsecond : other < pool.laneLen second)
    (heq : pool.address first position = pool.address second other) :
    first = second ∧ position = other := by
  have hblock : (pool.address first position).1 = (pool.address second other).1 :=
    congrArg Prod.fst heq
  have hoffset : position % pool.blockSize = other % pool.blockSize := congrArg Prod.snd heq
  have hlane : first = second := hpool.lane_unique (hpool.address_mem hfirst)
    (hblock ▸ hpool.address_mem hsecond)
  subst hlane
  refine ⟨rfl, ?_⟩
  rw [address, address, List.getD_eq_getElem _ _ (hpool.div_lt_length hfirst),
    List.getD_eq_getElem _ _ (hpool.div_lt_length hsecond)] at hblock
  have hdiv : position / pool.blockSize = other / pool.blockSize :=
    (hpool.nodup_laneBlocks first).getElem_inj_iff.mp hblock
  rw [← Nat.div_add_mod position pool.blockSize, ← Nat.div_add_mod other pool.blockSize, hdiv,
    hoffset]

end Partitioned

/-- Committing a round leaves the positions already live where they were. -/
theorem Committed.address_eq {pool after : BlockPool} {lanes : List ℕ} {seqLen : ℕ}
    (hafter : Committed pool lanes seqLen after) (hpool : pool.Partitioned) {lane position : ℕ}
    (hlive : position < pool.laneLen lane) :
    after.address lane position = pool.address lane position := by
  have hlength := hpool.div_lt_length hlive
  rw [address, address, hafter.blockSize]
  congr 1
  rw [List.getD_eq_getElem _ _ hlength, List.getD_eq_getElem _ _
    (lt_of_lt_of_le hlength (hafter.isPrefix lane).length_le)]
  exact ((hafter.isPrefix lane).getElem hlength).symm

end BlockPool

namespace LanePlan

variable {pool after : BlockPool} {lanes : List ℕ} {seqLen : ℕ}

/-- The destination of write row `row`: the address, after the round, of the
token it carries. -/
theorem exists_destination {row : ℕ} (hrow : row < lanes.length * seqLen) :
    ∃ (j step : ℕ) (hj : j < lanes.length), step < seqLen ∧ row = j * seqLen + step ∧
      (ofCommit after lanes (lanes.map pool.laneLen) seqLen).writeIdx.entry [row, 0] =
        (after.address lanes[j] (pool.laneLen lanes[j] + step)).1 ∧
      (ofCommit after lanes (lanes.map pool.laneLen) seqLen).writeIdx.entry [row, 1] =
        (after.address lanes[j] (pool.laneLen lanes[j] + step)).2 := by
  have hseq : 0 < seqLen := by
    rcases Nat.eq_zero_or_pos seqLen with hzero | hpos
    · simp [hzero] at hrow
    · exact hpos
  have hj : row / seqLen < lanes.length := (Nat.div_lt_iff_lt_mul hseq).mpr hrow
  have hsplit : row = row / seqLen * seqLen + row % seqLen := (Nat.div_add_mod' row seqLen).symm
  have hentry := entry_writeIdx after lanes pool.laneLen seqLen
    (List.getElem?_eq_getElem hj) (Nat.mod_lt row hseq)
  rw [← hsplit] at hentry
  exact ⟨row / seqLen, row % seqLen, hj, Nat.mod_lt row hseq, hsplit, hentry⟩

/-- A token the round writes is live after it. -/
theorem live_of_written (hafter : BlockPool.Committed pool lanes seqLen after) {j step : ℕ}
    (hj : j < lanes.length) (hstep : step < seqLen) :
    pool.laneLen lanes[j] + step < after.laneLen lanes[j] := by
  rw [hafter.laneLen, if_pos (List.getElem_mem hj)]
  omega

/-- The rows of one round have pairwise distinct destinations. -/
theorem destination_inj (hnodup : lanes.Nodup) (hpool : after.Partitioned)
    (hafter : BlockPool.Committed pool lanes seqLen after) {first second : ℕ}
    (hfirst : first < lanes.length * seqLen) (hsecond : second < lanes.length * seqLen)
    (hblock : (ofCommit after lanes (lanes.map pool.laneLen) seqLen).writeIdx.entry [first, 0] =
      (ofCommit after lanes (lanes.map pool.laneLen) seqLen).writeIdx.entry [second, 0])
    (hoffset : (ofCommit after lanes (lanes.map pool.laneLen) seqLen).writeIdx.entry [first, 1] =
      (ofCommit after lanes (lanes.map pool.laneLen) seqLen).writeIdx.entry [second, 1]) :
    first = second := by
  obtain ⟨j, step, hj, hstep, rfl, hblock₁, hoffset₁⟩ := exists_destination hfirst
  obtain ⟨j', step', hj', hstep', rfl, hblock₂, hoffset₂⟩ := exists_destination hsecond
  have haddress : after.address lanes[j] (pool.laneLen lanes[j] + step) =
      after.address lanes[j'] (pool.laneLen lanes[j'] + step') :=
    Prod.ext (hblock₁.symm.trans (hblock.trans hblock₂))
      (hoffset₁.symm.trans (hoffset.trans hoffset₂))
  obtain ⟨hlane, hposition⟩ := hpool.address_inj (live_of_written hafter hj hstep)
    (live_of_written hafter hj' hstep') haddress
  have hjj : j = j' := hnodup.getElem_inj_iff.mp hlane
  subst hjj
  omega

/-- A round never writes where a position that was live before it lives. -/
theorem destination_ne_live (hbefore : pool.Partitioned) (hpool : after.Partitioned)
    (hafter : BlockPool.Committed pool lanes seqLen after) {row lane position : ℕ}
    (hrow : row < lanes.length * seqLen) (hlive : position < pool.laneLen lane)
    (hblock : (ofCommit after lanes (lanes.map pool.laneLen) seqLen).writeIdx.entry [row, 0] =
      (pool.address lane position).1) :
    (ofCommit after lanes (lanes.map pool.laneLen) seqLen).writeIdx.entry [row, 1] ≠
      (pool.address lane position).2 := by
  intro hoffset
  obtain ⟨j, step, hj, hstep, rfl, hblock₁, hoffset₁⟩ := exists_destination hrow
  have haddress : after.address lanes[j] (pool.laneLen lanes[j] + step) =
      after.address lane position := by
    rw [hafter.address_eq hbefore hlive]
    exact Prod.ext (hblock₁.symm.trans hblock) (hoffset₁.symm.trans hoffset)
  have hlive' : position < after.laneLen lane := by
    rw [hafter.laneLen]
    omega
  obtain ⟨hlane, hposition⟩ := hpool.address_inj (live_of_written hafter hj hstep) hlive' haddress
  rw [hlane] at hposition
  omega

/-- A round never writes into the sentinel. -/
theorem destination_ne_sentinel (hpool : after.Partitioned)
    (hafter : BlockPool.Committed pool lanes seqLen after) {row : ℕ}
    (hrow : row < lanes.length * seqLen) :
    (ofCommit after lanes (lanes.map pool.laneLen) seqLen).writeIdx.entry [row, 0] ≠
      sentinelBlock := by
  obtain ⟨j, step, hj, hstep, rfl, hblock, _⟩ := exists_destination hrow
  rw [hblock]
  exact hpool.ne_sentinel_of_mem_laneBlocks (hpool.address_mem (live_of_written hafter hj hstep))

section Gather

variable {α : Type u} {store : BlockStore α} {numBlocks heads headDim : ℕ}

/-- The gathered scratch has a row per lane, padded to the longest. -/
theorem shape_gather (hshape : StoreShape store numBlocks after.blockSize heads headDim)
    (hblock : 0 < after.blockSize) {column : ℕ}
    (hcolumn : column < (ofCommit after lanes (lanes.map pool.laneLen) seqLen).lMax) :
    let plan := ofCommit after lanes (lanes.map pool.laneLen) seqLen
    (store.gather plan.gatherIdx plan.blocksPerLane plan.lMax).tensor.shape =
      [lanes.length, heads, plan.lMax, headDim] := by
  intro plan
  have hper : 0 < plan.blocksPerLane :=
    Nat.zero_lt_of_lt (div_lt_blocksPerLane after lanes pool.laneLen seqLen hblock hcolumn)
  rw [hshape.shape_gather, dim_gatherIdx, Nat.mul_div_cancel _ hper]

/-- A column of the gathered scratch is read from its lane's address, or from
the sentinel past the lane's table. -/
theorem entry_gather (hshape : StoreShape store numBlocks after.blockSize heads headDim)
    (hblock : 0 < after.blockSize) {j lane column head channel : ℕ} (hj : lanes[j]? = some lane)
    (hcolumn : column < (ofCommit after lanes (lanes.map pool.laneLen) seqLen).lMax)
    (hhead : head < heads) (hchannel : channel < headDim) :
    let plan := ofCommit after lanes (lanes.map pool.laneLen) seqLen
    (store.gather plan.gatherIdx plan.blocksPerLane plan.lMax).tensor.entry
        [j, head, column, channel] =
      store.pool.entry [(after.address lane column).1, (after.address lane column).2,
        head, channel] := by
  intro plan
  rw [hshape.entry_gather hhead hchannel, entry_gatherIdx after lanes pool.laneLen seqLen hj
    (div_lt_blocksPerLane after lanes pool.laneLen seqLen hblock hcolumn)]
  rfl

/-- A position the round leaves live is a column of the padded scratch. -/
theorem lt_lMax_of_live {j lane position : ℕ} (hj : lanes[j]? = some lane)
    (hlive : position < pool.laneLen lane + seqLen) :
    position < (ofCommit after lanes (lanes.map pool.laneLen) seqLen).lMax :=
  lt_of_lt_of_le hlive
    (length_le_lMax after lanes pool.laneLen seqLen (List.mem_of_getElem? hj))

end Gather

end LanePlan

end BurnLm.PagedKv
