/-
# The cache as an append log per lane

What a paged cache is for can be said without blocks: every lane is a list of
token rows, a round appends to the lists it names, and releasing a lane empties
its list. This module runs that log beside the cache and proves that they stay
together through any rounds, committed or refused, and any releases. A store
mirrors a log when every logged row is found at the address the ledger gives
its position.

The log is the specification. It never looks at the cache, except to learn
whether a round was accepted.
-/

import BurnLm.Math.AppendLog
import BurnLm.PagedKv.Addressing

namespace BurnLm.PagedKv

open BurnLm.Math

universe u

/-- The two tensors of a layer. -/
inductive Side
  | key
  | value
  deriving DecidableEq, Repr

variable {α : Type u}

namespace KeyValueCache

/-- The store of one side. -/
def store (cache : KeyValueCache α) : Side → BlockStore α
  | .key => cache.key
  | .value => cache.value

/-- What `gather` reads from one side. -/
def gatherSide (cache : KeyValueCache α) (plan : LanePlan) : Side → RaggedKv α
  | .key => (cache.gather plan).1
  | .value => (cache.gather plan).2

theorem gatherSide_eq (cache : KeyValueCache α) (plan : LanePlan) (side : Side) :
    cache.gatherSide plan side =
      (cache.store side).gather plan.gatherIdx plan.blocksPerLane plan.lMax := by
  cases side <;> rfl

theorem store_write (cache : KeyValueCache α) (plan : LanePlan) (rows : Side → Tensor α)
    (side : Side) :
    (cache.write plan (rows .key) (rows .value)).store side =
      (cache.store side).write plan.writeIdx (rows side) := by
  cases side <;> rfl

end KeyValueCache

/-- What one token leaves in a store: a value per head and channel. -/
abbrev TokenRow (α : Type u) : Type u := ℕ → ℕ → α

/-- The tokens a round writes for its `j`-th lane, in order. -/
def tokenRows (rows : Tensor α) (seqLen j : ℕ) : List (TokenRow α) :=
  (List.range seqLen).map fun step head channel => rows.entry [j, head, step, channel]

@[simp]
theorem length_tokenRows (rows : Tensor α) (seqLen j : ℕ) :
    (tokenRows rows seqLen j).length = seqLen := by
  simp [tokenRows]

theorem tokenRows_getElem? (rows : Tensor α) {seqLen step : ℕ} (j : ℕ) (hstep : step < seqLen) :
    (tokenRows rows seqLen j)[step]? =
      some fun head channel => rows.entry [j, head, step, channel] := by
  rw [tokenRows, List.getElem?_map, List.getElem?_range hstep]
  rfl

/-! ## One store and one log -/

/-- Every logged row is found at the address of its position, and the sentinel
block is zero. -/
structure BlockStore.Mirrors [Zero α] (store : BlockStore α) (pool : BlockPool)
    (numBlocks heads headDim : ℕ) (log : AppendLog (TokenRow α)) : Prop where
  shape : StoreShape store numBlocks pool.blockSize heads headDim
  length : ∀ lane, (log lane).length = pool.laneLen lane
  sentinel : ∀ at_ < pool.blockSize, ∀ head < heads, ∀ channel < headDim,
    store.pool.entry [sentinelBlock, at_, head, channel] = 0
  holds : ∀ lane position row, (log lane)[position]? = some row →
    ∀ head < heads, ∀ channel < headDim,
      store.pool.entry [(pool.address lane position).1, (pool.address lane position).2,
        head, channel] = row head channel

namespace BlockStore.Mirrors

variable [Zero α] {store : BlockStore α} {pool after : BlockPool}
  {numBlocks heads headDim : ℕ} {log : AppendLog (TokenRow α)}

/-- A logged position is live. -/
theorem live_of_logged (hstore : store.Mirrors pool numBlocks heads headDim log)
    {lane position : ℕ} {row : TokenRow α} (hrow : (log lane)[position]? = some row) :
    position < pool.laneLen lane := by
  obtain ⟨hposition, _⟩ := List.getElem?_eq_some_iff.mp hrow
  exact hstore.length lane ▸ hposition

/-- A fresh store mirrors the empty log. -/
theorem new (uninit : List ℕ → α)
    (hblock : 0 < pool.blockSize) (hlens : ∀ lane, pool.laneLen lane = 0) :
    (BlockStore.new uninit numBlocks pool.blockSize heads headDim).Mirrors pool
      numBlocks heads headDim .empty where
  shape := storeShape_new uninit hblock
  length lane := (hlens lane).symm
  sentinel _ hat _ hhead _ hchannel := entry_new_sentinel uninit hat hhead hchannel
  holds lane position row hrow := by simp [AppendLog.empty] at hrow

/-- A round the pool refused changes no address. -/
theorem restored (hstore : store.Mirrors pool numBlocks heads headDim log)
    (hafter : BlockPool.Restored pool after) :
    store.Mirrors after numBlocks heads headDim log where
  shape := hafter.blockSize ▸ hstore.shape
  length lane := by
    rw [hstore.length, BlockPool.laneLen, BlockPool.laneLen, hafter.lens]
  sentinel := hafter.blockSize ▸ hstore.sentinel
  holds lane position row hrow := by
    rw [BlockPool.address, BlockPool.laneBlocks, hafter.tables, hafter.blockSize]
    exact hstore.holds lane position row hrow

/-- Releasing a lane empties its log and leaves the others where they were. -/
theorem freeLane (hstore : store.Mirrors pool numBlocks heads headDim log) (lane : ℕ) :
    store.Mirrors (pool.freeLane lane) numBlocks heads headDim (log.reset lane) where
  shape := hstore.shape
  length other := by
    rw [BlockPool.laneLen_freeLane, AppendLog.reset]
    split
    · rfl
    · exact hstore.length other
  sentinel := hstore.sentinel
  holds other position row hrow := by
    by_cases hother : other = lane
    · rw [hother, AppendLog.reset_self] at hrow
      simp at hrow
    · rw [AppendLog.reset_of_ne log hother] at hrow
      have haddress : (pool.freeLane lane).address other position =
          pool.address other position := by
        rw [BlockPool.address, BlockPool.laneBlocks_freeLane, if_neg hother]
        rfl
      rw [haddress]
      exact hstore.holds other position row hrow

section Commit

variable {lanes : List ℕ} {seqLen : ℕ} {rows : Tensor α}

/-- Writing a committed round keeps every row logged before it. -/
theorem write_keeps (hstore : store.Mirrors pool numBlocks heads headDim log)
    (hpool : pool.Partitioned) (hpool' : after.Partitioned)
    (hafter : BlockPool.Committed pool lanes seqLen after) {lane position : ℕ} {row : TokenRow α}
    (hrow : (log lane)[position]? = some row) {head channel : ℕ} (hhead : head < heads)
    (hchannel : channel < headDim) :
    (store.write (LanePlan.ofCommit after lanes (lanes.map pool.laneLen) seqLen).writeIdx
        rows).pool.entry [(after.address lane position).1, (after.address lane position).2,
          head, channel] = row head channel := by
  have hlive := hstore.live_of_logged hrow
  rw [hafter.address_eq hpool hlive, ← hstore.holds lane position row hrow head hhead channel
    hchannel]
  exact Tensor.entry_scatterNd_of_absent _ _ _ fun other hother hblock =>
    LanePlan.destination_ne_live hpool hpool' hafter hother hlive hblock

omit [Zero α] in
/-- Writing a committed round puts each new row at its own address. -/
theorem write_places (hnodup : lanes.Nodup) (hpool : after.Partitioned)
    (hafter : BlockPool.Committed pool lanes seqLen after)
    (hrows : rows.shape = [lanes.length, heads, seqLen, headDim]) {j step : ℕ}
    (hj : j < lanes.length) (hstep : step < seqLen) {head channel : ℕ} (hhead : head < heads)
    (hchannel : channel < headDim) :
    (store.write (LanePlan.ofCommit after lanes (lanes.map pool.laneLen) seqLen).writeIdx
        rows).pool.entry [(after.address lanes[j] (pool.laneLen lanes[j] + step)).1,
          (after.address lanes[j] (pool.laneLen lanes[j] + step)).2, head, channel] =
      rows.entry [j, head, step, channel] := by
  obtain ⟨hblock, hoffset⟩ := LanePlan.entry_writeIdx after lanes pool.laneLen seqLen
    (List.getElem?_eq_getElem hj) hstep
  have hrow : j * seqLen + step < lanes.length * seqLen := Tensor.merged_lt hj hstep
  rw [← entry_tokenMajor rows hrows hstep hhead hchannel]
  have hdims : rows.dim 0 * rows.dim 2 = lanes.length * seqLen ∧ rows.dim 1 = heads ∧
      rows.dim 3 = headDim ∧ rows.dim 2 = seqLen ∧ rows.dim 0 = lanes.length := by
    simp [Tensor.dim, hrows]
  simp only [BlockStore.write, hdims.2.1, hdims.2.2.1, hdims.2.2.2.1, hdims.2.2.2.2]
  refine Tensor.entry_scatterNd_of_unique _ _ _ hrow hblock hoffset ?_
  intro other hother hblock' hoffset'
  exact LanePlan.destination_inj hnodup hpool hafter hother hrow (hblock'.trans hblock.symm)
    (hoffset'.trans hoffset.symm)

/-- Writing a committed round appends its rows to the log. -/
theorem write (hstore : store.Mirrors pool numBlocks heads headDim log)
    (hnodup : lanes.Nodup) (hpool : pool.Partitioned)
    (hafter : BlockPool.Committed pool lanes seqLen after)
    (hrows : rows.shape = [lanes.length, heads, seqLen, headDim]) :
    (store.write (LanePlan.ofCommit after lanes (lanes.map pool.laneLen) seqLen).writeIdx
      rows).Mirrors after numBlocks heads headDim (log.append lanes (tokenRows rows seqLen)) := by
  have hpool' : after.Partitioned := hafter.partitioned hpool
  refine
    { shape := (hafter.blockSize ▸ hstore.shape).write _ _
      length := fun lane => ?_
      sentinel := fun at_ hat head hhead channel hchannel => ?_
      holds := fun lane position row hrow head hhead channel hchannel => ?_ }
  · rw [hafter.laneLen, ← hstore.length lane, AppendLog.append, List.length_append]
    split <;> simp
  · rw [← hstore.sentinel at_ (hafter.blockSize ▸ hat) head hhead channel hchannel]
    exact Tensor.entry_scatterNd_of_absent _ _ _ fun other hother hblock =>
      absurd hblock (LanePlan.destination_ne_sentinel hpool' hafter hother)
  · by_cases hold : position < (log lane).length
    · rw [AppendLog.append_getElem?_of_lt log lanes _ hold] at hrow
      exact hstore.write_keeps hpool hpool' hafter hrow hhead hchannel
    · -- a new row: the lane is one of the round's
      have hlane : lane ∈ lanes := by
        by_contra habsent
        rw [AppendLog.append_of_notMem log _ habsent] at hrow
        exact hold (List.getElem?_eq_some_iff.mp hrow).1
      obtain ⟨j, hj, rfl⟩ := List.getElem_of_mem hlane
      obtain ⟨step, rfl⟩ := Nat.exists_eq_add_of_le (not_lt.mp hold)
      rw [AppendLog.append_getElem?_add log hnodup _ hj] at hrow
      have hstep : step < seqLen := by
        simpa using (List.getElem?_eq_some_iff.mp hrow).1
      rw [tokenRows_getElem? rows j hstep] at hrow
      obtain rfl := Option.some.inj hrow
      rw [hstore.length]
      exact write_places hnodup hpool' hafter hrows hj hstep hhead hchannel

end Commit

end BlockStore.Mirrors

end BurnLm.PagedKv
