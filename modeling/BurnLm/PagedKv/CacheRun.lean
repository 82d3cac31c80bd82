/-
# Runs of the cache

A cache lives through rounds and lane releases. A round plans its lanes and,
when the plan is granted, every layer writes the round's keys and values
through it; a refused round leaves whatever the ledger left. Beside the cache
runs one append log per layer and side, and the two are compared after every
granted round by gathering through that round's plan.
-/

import BurnLm.PagedKv.LaneLog

namespace BurnLm.PagedKv

open BurnLm.Math

universe u

variable {α : Type u}

/-- What a round brings: its lanes, its width, and the rows every layer
projected for it. -/
structure Round (α : Type u) (layout : KvLayout) (laneCount : ℕ) extends RoundLanes laneCount where
  seqLen : ℕ
  rows : ℕ → Side → Tensor α
  shape_rows : ∀ layer side,
    (rows layer side).shape = [lanes.length, layout.nKvHeads, seqLen, layout.headDim]

/-- A planned round that is not refused is granted. -/
theorem exists_granted {ε β γ : Type*} {outcome : Except ε β × γ} (hok : outcome.1.isOk) :
    ∃ granted after, outcome = (.ok granted, after) := by
  obtain ⟨outcome, after⟩ := outcome
  cases outcome with
  | error _ => simp [Except.isOk, Except.toBool] at hok
  | ok granted => exact ⟨granted, after, rfl⟩

/-- The round that writes one value everywhere. -/
def Round.filled {layout : KvLayout} {laneCount : ℕ} (lanes : RoundLanes laneCount)
    (seqLen : ℕ) (value : α) : Round α layout laneCount where
  toRoundLanes := lanes
  seqLen := seqLen
  rows _ _ := ⟨[lanes.lanes.length, layout.nKvHeads, seqLen, layout.headDim], fun _ => value⟩
  shape_rows _ _ := rfl

/-- One call on a cache. -/
inductive CacheOp (α : Type u) (layout : KvLayout) (laneCount : ℕ)
  | round (round : Round α layout laneCount)
  | resetLane (lane : ℕ)

/-- One log per layer and side. -/
abbrev CacheLog (α : Type u) : Type u := ℕ → Side → AppendLog (TokenRow α)

namespace CacheOp

variable {layout : KvLayout} {laneCount : ℕ}

/-- The cache a call leaves behind, whatever it returned. -/
def apply (cache : PagedKvCache α) : CacheOp α layout laneCount → PagedKvCache α
  | .round given =>
    match cache.prepareLanes given.lanes given.seqLen with
    | (.error _, after) => after
    | (.ok plan, after) =>
      after.writeLayers plan (fun layer => given.rows layer .key)
        (fun layer => given.rows layer .value)
  | .resetLane lane => cache.resetLane lane

/-- The log of a call: a granted round appends, a release empties. -/
def applyLog (cache : PagedKvCache α) (log : CacheLog α) :
    CacheOp α layout laneCount → CacheLog α
  | .round given =>
    match (cache.prepareLanes given.lanes given.seqLen).1 with
    | .error _ => log
    | .ok _ => fun layer side =>
      (log layer side).append given.lanes (tokenRows (given.rows layer side) given.seqLen)
  | .resetLane lane => fun layer side => (log layer side).reset lane

end CacheOp

/-- A cache with the logs of its life so far. -/
structure LoggedCache (α : Type u) where
  cache : PagedKvCache α
  log : CacheLog α

namespace LoggedCache

variable {layout : KvLayout} {laneCount : ℕ}

/-- A cache nothing has been written to. -/
def start (cache : PagedKvCache α) : LoggedCache α := ⟨cache, fun _ _ => .empty⟩

/-- One call, and its entry in the logs. -/
def apply (logged : LoggedCache α) (op : CacheOp α layout laneCount) : LoggedCache α :=
  ⟨op.apply logged.cache, op.applyLog logged.cache logged.log⟩

/-- A sequence of calls. -/
def run (logged : LoggedCache α) (ops : List (CacheOp α layout laneCount)) : LoggedCache α :=
  ops.foldl apply logged

/-- The cache's fixed sizes, its ledger invariant, and every store mirroring
its log. -/
structure Mirrored [Zero α] (layout : KvLayout) (laneCount blockSize numBlocks : ℕ)
    (logged : LoggedCache α) : Prop where
  layout_eq : logged.cache.layout = layout
  laneCount_eq : logged.cache.pool.laneCount = laneCount
  blockSize_eq : logged.cache.pool.blockSize = blockSize
  pool : logged.cache.pool.Partitioned
  stores : ∀ (layer : ℕ) (kv : KeyValueCache α), logged.cache.layers[layer]? = some kv → ∀ side,
    (kv.store side).Mirrors logged.cache.pool numBlocks layout.nKvHeads layout.headDim
      (logged.log layer side)

namespace Mirrored

variable [Zero α] {blockSize numBlocks : ℕ} {logged : LoggedCache α}

/-- A fresh cache mirrors empty logs. -/
theorem start {maxLanes usableBlocks : ℕ} {uninit : ℕ → (List ℕ → α) × (List ℕ → α)}
    {cache : PagedKvCache α}
    (hnew : PagedKvCache.new layout maxLanes blockSize usableBlocks uninit = some cache) :
    Mirrored layout maxLanes blockSize (usableBlocks + 1) (LoggedCache.start cache) := by
  unfold PagedKvCache.new at hnew
  split at hnew
  · next hassert =>
      obtain ⟨pool, hpool, rfl⟩ := Option.map_eq_some_iff.mp hnew
      obtain ⟨rfl, hcount, _⟩ := BlockPool.new_fields hpool
      have hpartitioned := BlockPool.partitioned_of_new hpool
      refine ⟨rfl, hcount, rfl, hpartitioned, fun layer kv hkv side => ?_⟩
      simp only [LoggedCache.start, List.getElem?_map, Option.map_eq_some_iff] at hkv
      obtain ⟨layer', _, rfl⟩ := hkv
      cases side <;>
        exact BlockStore.Mirrors.new _ hpartitioned.blockSize_pos
          (BlockPool.laneLen_of_new hpool)
  · simp at hnew

/-- One round keeps the stores and the logs together. -/
theorem round (hlogged : Mirrored layout laneCount blockSize numBlocks logged)
    (round : Round α layout laneCount) :
    Mirrored layout laneCount blockSize numBlocks (logged.apply (.round round)) := by
  rcases logged.cache.prepareLanes_cases hlogged.pool.toLedgered hlogged.laneCount_eq
      round.toRoundLanes round.seqLen with
    ⟨lane, _, _, hround⟩ | ⟨_, _, exhausted, pool, hround, hpool⟩ | ⟨_, _, pool, hround, hpool⟩
  · simpa only [apply, CacheOp.apply, CacheOp.applyLog, hround] using hlogged
  · simp only [apply, CacheOp.apply, CacheOp.applyLog, hround]
    exact
      { layout_eq := hlogged.layout_eq
        laneCount_eq := (congrArg List.length hpool.lens).trans hlogged.laneCount_eq
        blockSize_eq := hpool.blockSize.trans hlogged.blockSize_eq
        pool := hpool.partitioned hlogged.pool
        stores := fun layer kv hkv side => (hlogged.stores layer kv hkv side).restored hpool }
  · simp only [apply, CacheOp.apply, CacheOp.applyLog, hround, PagedKvCache.writeLayers]
    refine
      { layout_eq := hlogged.layout_eq
        laneCount_eq := hpool.lens_length.trans hlogged.laneCount_eq
        blockSize_eq := hpool.blockSize.trans hlogged.blockSize_eq
        pool := hpool.partitioned hlogged.pool
        stores := fun layer kv hkv side => ?_ }
    simp only [List.getElem?_mapIdx, Option.map_eq_some_iff] at hkv
    obtain ⟨before, hbefore, rfl⟩ := hkv
    rw [before.store_write _ (round.rows layer) side]
    exact (hlogged.stores layer before hbefore side).write round.nodup hlogged.pool hpool
      (round.shape_rows layer side)

/-- Releasing a lane keeps the stores and the logs together. -/
theorem resetLane (hlogged : Mirrored layout laneCount blockSize numBlocks logged) (lane : ℕ) :
    Mirrored layout laneCount blockSize numBlocks
      (logged.apply (.resetLane lane : CacheOp α layout laneCount)) := by
  by_cases hlane : logged.cache.pool.laneCount ≤ lane
  · -- the cache ignores the call, and such a lane's log is empty already
    have hempty : ∀ layer kv, logged.cache.layers[layer]? = some kv → ∀ side,
        (logged.log layer side).reset lane = logged.log layer side := by
      intro layer kv hkv side
      refine AppendLog.reset_of_nil _ ?_
      rw [← List.length_eq_zero_iff, (hlogged.stores layer kv hkv side).length lane]
      exact List.getD_eq_default _ _ hlane
    simp only [apply, CacheOp.apply, CacheOp.applyLog, PagedKvCache.resetLane, if_pos hlane]
    refine
      { hlogged with
        stores := fun layer kv hkv side => ?_ }
    show (kv.store side).Mirrors _ _ _ _ ((logged.log layer side).reset lane)
    rw [hempty layer kv hkv side]
    exact hlogged.stores layer kv hkv side
  · simp only [apply, CacheOp.apply, CacheOp.applyLog, PagedKvCache.resetLane, if_neg hlane]
    exact
      { layout_eq := hlogged.layout_eq
        laneCount_eq := by
          simpa [BlockPool.laneCount, BlockPool.freeLane] using hlogged.laneCount_eq
        blockSize_eq := hlogged.blockSize_eq
        pool := hlogged.pool.freeLane lane
        stores := fun layer kv hkv side => (hlogged.stores layer kv hkv side).freeLane lane }

/-- Whatever calls are made, the stores mirror their logs. -/
theorem run (hlogged : Mirrored layout laneCount blockSize numBlocks logged)
    (ops : List (CacheOp α layout laneCount)) :
    Mirrored layout laneCount blockSize numBlocks (logged.run ops) := by
  induction ops generalizing logged with
  | nil => exact hlogged
  | cons op ops ih =>
      cases op with
      | round round => exact ih (hlogged.round round)
      | resetLane lane => exact ih (hlogged.resetLane lane)

/-- What a granted round is: its plan is that of the committed ledger, and the
rows are written and logged. -/
theorem granted (hlogged : Mirrored layout laneCount blockSize numBlocks logged)
    (round : Round α layout laneCount) {plan : LanePlan} {planned : PagedKvCache α}
    (hround : logged.cache.prepareLanes round.lanes round.seqLen = (.ok plan, planned)) :
    BlockPool.Committed logged.cache.pool round.lanes round.seqLen planned.pool ∧
      plan = .ofCommit planned.pool round.lanes (round.lanes.map logged.cache.pool.laneLen)
        round.seqLen ∧
      planned.layers = logged.cache.layers ∧
      logged.apply (.round round) =
        ⟨planned.writeLayers plan (fun layer => round.rows layer .key)
            (fun layer => round.rows layer .value),
          fun layer side => (logged.log layer side).append round.lanes
            (tokenRows (round.rows layer side) round.seqLen)⟩ := by
  have happly : logged.apply (.round round) =
      ⟨planned.writeLayers plan (fun layer => round.rows layer .key)
          (fun layer => round.rows layer .value),
        fun layer side => (logged.log layer side).append round.lanes
          (tokenRows (round.rows layer side) round.seqLen)⟩ := by
    simp only [apply, CacheOp.apply, CacheOp.applyLog, hround]
  rcases logged.cache.prepareLanes_cases hlogged.pool.toLedgered hlogged.laneCount_eq
      round.toRoundLanes round.seqLen with
    ⟨lane, _, _, hcase⟩ | ⟨_, _, exhausted, pool, hcase, hpool⟩ | ⟨_, _, pool, hcase, hpool⟩
  · simp [hround] at hcase
  · simp [hround] at hcase
  · rw [hround, Prod.mk.injEq, Except.ok.injEq] at hcase
    obtain ⟨rfl, rfl⟩ := hcase
    exact ⟨hpool, rfl, rfl, happly⟩

/-- Where a mirrored store is gathered, the live columns are the logged rows. -/
theorem gather_live {lanes : List ℕ} {seqLen : ℕ} {pool : BlockPool}
    (hlogged : Mirrored layout laneCount blockSize numBlocks logged) {layer : ℕ}
    {kv : KeyValueCache α} (hkv : logged.cache.layers[layer]? = some kv) (side : Side)
    (hpool : BlockPool.Committed pool lanes seqLen logged.cache.pool) {j lane position : ℕ}
    (hj : lanes[j]? = some lane) (hlive : position < pool.laneLen lane + seqLen)
    {head channel : ℕ} (hhead : head < layout.nKvHeads) (hchannel : channel < layout.headDim) :
    let plan := LanePlan.ofCommit logged.cache.pool lanes (lanes.map pool.laneLen) seqLen
    ∃ row, (logged.log layer side lane)[position]? = some row ∧
      Tensor.InBounds (kv.gatherSide plan side).tensor.shape [j, head, position, channel] ∧
      (kv.gatherSide plan side).tensor.entry [j, head, position, channel] = row head channel := by
  intro plan
  have hstore := hlogged.stores layer kv hkv side
  have hcolumn : position < plan.lMax := LanePlan.lt_lMax_of_live hj hlive
  have hlane : lane ∈ lanes := List.mem_of_getElem? hj
  have hlogLength : position < (logged.log layer side lane).length := by
    rw [hstore.length, hpool.laneLen, if_pos hlane]
    exact hlive
  refine ⟨_, List.getElem?_eq_getElem hlogLength, ?_, ?_⟩
  · rw [kv.gatherSide_eq, LanePlan.shape_gather hstore.shape hlogged.pool.blockSize_pos hcolumn]
    exact .cons (List.getElem?_eq_some_iff.mp hj).1
      (.cons hhead (.cons hcolumn (.cons hchannel .nil)))
  · rw [kv.gatherSide_eq, LanePlan.entry_gather hstore.shape hlogged.pool.blockSize_pos hj hcolumn
      hhead hchannel]
    exact hstore.holds lane position _ (List.getElem?_eq_getElem hlogLength) head hhead channel
      hchannel

/-- What one granted round leaves to be read, from any mirrored cache. -/
theorem gather_round (hlogged : Mirrored layout laneCount blockSize numBlocks logged)
    (round : Round α layout laneCount) {plan : LanePlan} {planned : PagedKvCache α}
    (hround : logged.cache.prepareLanes round.lanes round.seqLen = (.ok plan, planned))
    {layer : ℕ} {kv : KeyValueCache α}
    (hkv : (logged.apply (.round round)).cache.layers[layer]? = some kv) (side : Side)
    {j lane : ℕ} (hj : round.lanes[j]? = some lane) :
    plan.starts[j]? = some (logged.log layer side lane).length ∧
      (logged.apply (.round round)).log layer side lane =
        logged.log layer side lane ++ tokenRows (round.rows layer side) round.seqLen j ∧
      ∀ position < (logged.log layer side lane).length + round.seqLen,
        ∀ head < layout.nKvHeads, ∀ channel < layout.headDim,
          ∃ row, ((logged.apply (.round round)).log layer side lane)[position]? = some row ∧
            Tensor.InBounds (kv.gatherSide plan side).tensor.shape
              [j, head, position, channel] ∧
            (kv.gatherSide plan side).tensor.entry [j, head, position, channel] =
              row head channel := by
  have hafter := hlogged.round round
  obtain ⟨hcommit, hplan, hlayers, happly⟩ := hlogged.granted round hround
  rw [happly] at hafter hkv ⊢
  have hlength : (logged.log layer side lane).length = logged.cache.pool.laneLen lane := by
    have hwritten := hkv
    simp only [PagedKvCache.writeLayers, List.getElem?_mapIdx, Option.map_eq_some_iff,
      hlayers] at hwritten
    obtain ⟨kv', hkv', _⟩ := hwritten
    exact (hlogged.stores layer kv' hkv' side).length lane
  refine ⟨?_, ?_, fun position hlive head hhead channel hchannel => ?_⟩
  · simp [hplan, LanePlan.ofCommit, hj, hlength]
  · obtain ⟨hindex, rfl⟩ := List.getElem?_eq_some_iff.mp hj
    exact AppendLog.append_getElem _ round.nodup _ hindex
  · rw [hlength] at hlive
    subst hplan
    exact hafter.gather_live hkv side hcommit hj hlive hhead hchannel

end Mirrored

/-- **The cache is an append log per lane.** After any calls and one more
granted round, the round's plan gathers, in every layer and side, exactly what
the lane's log holds at each position the round leaves live; the round's rows
were logged from `starts[j]` on; and the sentinel block is still zero. -/
theorem gather_eq_log [Zero α] {maxLanes blockSize usableBlocks : ℕ}
    {uninit : ℕ → (List ℕ → α) × (List ℕ → α)} {cache : PagedKvCache α}
    (hnew : PagedKvCache.new layout maxLanes blockSize usableBlocks uninit = some cache)
    (ops : List (CacheOp α layout maxLanes)) (round : Round α layout maxLanes)
    {plan : LanePlan} {planned : PagedKvCache α}
    (hround : ((start cache).run ops).cache.prepareLanes round.lanes round.seqLen =
      (.ok plan, planned)) :
    let before := (start cache).run ops
    let after := before.apply (.round round)
    ∀ (layer : ℕ) (kv : KeyValueCache α), after.cache.layers[layer]? = some kv → ∀ side,
      (∀ j lane, round.lanes[j]? = some lane →
        plan.starts[j]? = some (before.log layer side lane).length ∧
        after.log layer side lane = before.log layer side lane ++
          tokenRows (round.rows layer side) round.seqLen j ∧
        ∀ position < (before.log layer side lane).length + round.seqLen,
          ∀ head < layout.nKvHeads, ∀ channel < layout.headDim,
            ∃ row, (after.log layer side lane)[position]? = some row ∧
              Tensor.InBounds (kv.gatherSide plan side).tensor.shape
                [j, head, position, channel] ∧
              (kv.gatherSide plan side).tensor.entry [j, head, position, channel] =
                row head channel) ∧
      ∀ at_ < blockSize, ∀ head < layout.nKvHeads, ∀ channel < layout.headDim,
        (kv.store side).pool.entry [sentinelBlock, at_, head, channel] = 0 := by
  intro before after layer kv hkv side
  have hbefore : Mirrored layout maxLanes blockSize (usableBlocks + 1) before :=
    (Mirrored.start hnew).run ops
  have hafter : Mirrored layout maxLanes blockSize (usableBlocks + 1) after :=
    hbefore.round round
  refine ⟨fun j lane hj => hbefore.gather_round round hround hkv side hj, fun at_ hat => ?_⟩
  exact (hafter.stores layer kv hkv side).sentinel at_ (hafter.blockSize_eq.symm ▸ hat)

/-- Two lanes over four blocks of two tokens: lane 0 is released, lane 1 takes
over one of its blocks, and the last round still reads lane 1 in order. -/
theorem gather_eq_log_churn :
    let layout : KvLayout := ⟨1, 1, 1, 4, by decide⟩
    let first : RoundLanes 2 := ⟨[0], by decide, by decide⟩
    let second : RoundLanes 2 := ⟨[1], by decide, by decide⟩
    let both : RoundLanes 2 := ⟨[0, 1], by decide, by decide⟩
    let ops : List (CacheOp ℕ layout 2) := [.round (.filled first 3 7), .round (.filled second 2 8),
      .resetLane 0, .round (.filled second 1 9)]
    ∃ cache plan planned,
      PagedKvCache.new layout 2 2 4 (fun _ => (fun _ => 1, fun _ => 1)) = some cache ∧
      ((start cache).run ops).cache.prepareLanes both.lanes 1 = (.ok plan, planned) ∧
      ∀ kv, (((start cache).run ops).apply
          (.round (.filled both 1 5) : CacheOp ℕ layout 2)).cache.layers[0]? = some kv →
        ∀ side, (kv.gatherSide plan side).tensor.entry [1, 0, 2, 0] = 9 := by
  intro layout first second both ops
  let cache := (PagedKvCache.new layout 2 2 4 (fun _ => (fun _ => 1, fun _ => 1))).get
    (by decide +kernel)
  have hok : (((start cache).run ops).cache.prepareLanes both.lanes 1).1.isOk := by
    decide +kernel
  have hbefore : ∀ side, (((start cache).run ops).log 0 side 1).length = 3 := by
    intro side
    cases side <;> decide +kernel
  have hafter : ∀ side, (((((start cache).run ops).apply
      (.round (.filled both 1 5) : CacheOp ℕ layout 2)).log 0 side 1).map (· 0 0))[2]? =
        some 9 := by
    intro side
    cases side <;> decide +kernel
  have hnew : PagedKvCache.new layout 2 2 4 (fun _ => (fun _ => 1, fun _ => 1)) = some cache :=
    (Option.some_get _).symm
  obtain ⟨plan, planned, hround⟩ := exists_granted hok
  refine ⟨cache, plan, planned, hnew, hround, fun kv hkv side => ?_⟩
  obtain ⟨_, _, hread⟩ :=
    (gather_eq_log hnew ops (.filled both 1 5) hround 0 kv hkv side).1 1 1 rfl
  obtain ⟨row, hrow, _, hentry⟩ := hread 2 (by rw [hbefore]; decide) 0 (by decide) 0 (by decide)
  have hvalue := hafter side
  rw [List.getElem?_map, hrow, Option.map_some, Option.some.injEq] at hvalue
  rw [hentry, hvalue]

end LoggedCache

end BurnLm.PagedKv
