/-
# What attention sees of a cache

Lanes of one round share a scratch tensor as wide as the longest of them, read
out of blocks that other lanes used before and that nobody may have written.
Attention reads it through `neutralized` and the plan's mask. Here both are
read off the plan: neutralizing keeps exactly the columns below a lane's
length, the mask shows exactly the columns up to the query's own position, and
so nothing a lane is answered from depends on a byte that is not its own.
-/

import BurnLm.PagedKv.CacheRun

namespace BurnLm.PagedKv

open BurnLm.Math

universe u

variable {α : Type u}

/-- Both sides of a layer have the axes of a store. -/
def KeyValueCache.Shaped (kv : KeyValueCache α) (numBlocks blockSize heads headDim : ℕ) : Prop :=
  ∀ side, StoreShape (kv.store side) numBlocks blockSize heads headDim

/-- Two contents of a layer agree on the live positions of one lane. Nothing is
said about any other block, or about the rest of the lane's own last block. -/
def KeyValueCache.AgreeOn (pool : BlockPool) (lane heads headDim : ℕ)
    (first second : KeyValueCache α) : Prop :=
  ∀ side, ∀ position < pool.laneLen lane, ∀ head < heads, ∀ channel < headDim,
    (first.store side).pool.entry [(pool.address lane position).1,
        (pool.address lane position).2, head, channel] =
      (second.store side).pool.entry [(pool.address lane position).1,
        (pool.address lane position).2, head, channel]

/-! ## Neutralizing -/

namespace RaggedKv

variable [Zero α] (kv : RaggedKv α) {plan : LanePlan} {n heads lMax headDim : ℕ}

/-- Without a query row there is no last one to read. -/
theorem neutralized_eq_none (hmask : plan.mask.shape = [n, 1, 0, lMax]) :
    kv.neutralized plan = none := by
  simp [neutralized, Tensor.dim, hmask]

/-- Neutralizing zeroes the columns the last query row hides and keeps the
others. -/
theorem exists_neutralized {last : ℕ} (hshape : kv.tensor.shape = [n, heads, lMax, headDim])
    (hmask : plan.mask.shape = [n, 1, last + 1, lMax]) :
    ∃ tensor, kv.neutralized plan = some tensor ∧ tensor.shape = kv.tensor.shape ∧
      ∀ j < n, ∀ head, ∀ column < lMax, ∀ channel,
        tensor.entry [j, head, column, channel] =
          if plan.mask.entry [j, 0, last, column] then 0
          else kv.tensor.entry [j, head, column, channel] := by
  have hdims : kv.tensor.dim 0 = n ∧ kv.tensor.dim 1 = heads ∧ kv.tensor.dim 2 = lMax ∧
      kv.tensor.dim 3 = headDim ∧ plan.mask.dim 2 = last + 1 := by
    simp [Tensor.dim, hshape, hmask]
  obtain ⟨h0, h1, h2, h3, h4⟩ := hdims
  simp only [neutralized, h0, h1, h2, h3, h4]
  refine ⟨_, rfl, rfl, fun j hj head column hcolumn channel => ?_⟩
  -- the column mask of one row, stretched over heads and channels
  have hstretch : List.zipWith (fun size at_ => if size = 1 then 0 else at_) [n, 1, lMax, 1]
      [j, head, column, channel] = [j, 0, column, 0] := by
    have hrow : (if n = 1 then 0 else j) = j := by split <;> omega
    have hcol : (if lMax = 1 then 0 else column) = column := by split <;> omega
    simp [hrow, hcol]
  have hoffset : Tensor.offset [n, 1, lMax, 1] [j, 0, column, 0] =
      Tensor.offset [n, 1, 1, lMax] [j, 0, 0, column] := by
    simp [Tensor.offset]
  have hposition := Tensor.position_offset
    (.cons hj (.cons Nat.one_pos (.cons Nat.one_pos (.cons hcolumn .nil))) :
      Tensor.InBounds [n, 1, 1, lMax] [j, 0, 0, column])
  have hsliced : (plan.mask.slice [(0, n), (0, 1), (last, last + 1), (0, lMax)]).shape =
      [n, 1, 1, lMax] := by
    simp [Tensor.slice]
  simp only [Tensor.maskFill, Tensor.expand, Tensor.reshape, hstretch, hsliced, hoffset, hposition]
  simp [Tensor.slice]

end RaggedKv

/-! ## Reading a plan -/

namespace LanePlan

variable [Zero α] {pool after : BlockPool} {lanes : List ℕ} {seqLen numBlocks heads headDim : ℕ}
  {kv : KeyValueCache α}

omit [Zero α] in
/-- Both sides of a layer gather the same axes. -/
theorem shape_gatherSide (hkv : kv.Shaped numBlocks after.blockSize heads headDim)
    (hblock : 0 < after.blockSize) (side : Side) {column : ℕ}
    (hcolumn : column < (ofCommit after lanes (lanes.map pool.laneLen) seqLen).lMax) :
    (kv.gatherSide (ofCommit after lanes (lanes.map pool.laneLen) seqLen) side).tensor.shape =
      [lanes.length, heads, (ofCommit after lanes (lanes.map pool.laneLen) seqLen).lMax,
        headDim] := by
  rw [kv.gatherSide_eq]
  exact shape_gather (hkv side) hblock hcolumn

/-- The scratch of a round with a lane and a token can be neutralized. -/
theorem exists_neutralized_gather (hkv : kv.Shaped numBlocks after.blockSize heads headDim)
    (hblock : 0 < after.blockSize) (side : Side) (hseq : 0 < seqLen) {j lane : ℕ}
    (hj : lanes[j]? = some lane) :
    ∃ tensor, (kv.gatherSide (ofCommit after lanes (lanes.map pool.laneLen) seqLen)
      side).neutralized (ofCommit after lanes (lanes.map pool.laneLen) seqLen) = some tensor := by
  have hcolumn : pool.laneLen lane <
      (ofCommit after lanes (lanes.map pool.laneLen) seqLen).lMax :=
    lt_lMax_of_live hj (Nat.lt_add_of_pos_right hseq)
  have hmask := shape_mask after lanes pool.laneLen seqLen
  obtain ⟨last, rfl⟩ := Nat.exists_eq_succ_of_ne_zero hseq.ne'
  obtain ⟨tensor, htensor, _⟩ :=
    RaggedKv.exists_neutralized _ (shape_gatherSide hkv hblock side hcolumn) hmask
  exact ⟨tensor, htensor⟩

/-- A plan's neutralized scratch is the scratch below each lane's length and
zero from there on. -/
theorem neutralized_gather (hkv : kv.Shaped numBlocks after.blockSize heads headDim)
    (hblock : 0 < after.blockSize) (side : Side) {tensor : Tensor α}
    (htensor : (kv.gatherSide (ofCommit after lanes (lanes.map pool.laneLen) seqLen)
      side).neutralized (ofCommit after lanes (lanes.map pool.laneLen) seqLen) = some tensor)
    {j lane head column channel : ℕ} (hj : lanes[j]? = some lane)
    (hcolumn : column < (ofCommit after lanes (lanes.map pool.laneLen) seqLen).lMax) :
    tensor.entry [j, head, column, channel] =
      if column < (ofCommit after lanes (lanes.map pool.laneLen) seqLen).lengths.entry [j] then
        (kv.gatherSide (ofCommit after lanes (lanes.map pool.laneLen) seqLen) side).tensor.entry
          [j, head, column, channel]
      else 0 := by
  set plan := ofCommit after lanes (lanes.map pool.laneLen) seqLen with hplan
  cases seqLen with
  | zero =>
      rw [RaggedKv.neutralized_eq_none _ (shape_mask after lanes pool.laneLen 0)] at htensor
      simp at htensor
  | succ last =>
      obtain ⟨tensor', htensor', _, hentry⟩ :=
        RaggedKv.exists_neutralized _ (shape_gatherSide hkv hblock side hcolumn)
          (shape_mask after lanes pool.laneLen (last + 1))
      obtain rfl := Option.some.inj (htensor.symm.trans htensor')
      rw [hentry j (List.getElem?_eq_some_iff.mp hj).1 head column hcolumn channel,
        entry_mask after lanes pool.laneLen (last + 1) hj (Nat.lt_succ_self last) hcolumn,
        entry_lengths after lanes pool.laneLen (last + 1) hj]
      by_cases hlive : column < pool.laneLen lane + (last + 1)
      · rw [if_pos hlive, if_neg (by simp; omega)]
      · rw [if_neg hlive, if_pos (by simp; omega)]

/-- Two contents that agree on a lane give it the same neutralized row. -/
theorem neutralized_agree {first second : KeyValueCache α} (hafter : after.Partitioned)
    (hcommit : BlockPool.Committed pool lanes seqLen after)
    (hfirst : first.Shaped numBlocks after.blockSize heads headDim)
    (hsecond : second.Shaped numBlocks after.blockSize heads headDim) (side : Side)
    {j lane head column channel : ℕ} (hj : lanes[j]? = some lane)
    (hagree : first.AgreeOn after lane heads headDim second) (hhead : head < heads)
    (hcolumn : column < (ofCommit after lanes (lanes.map pool.laneLen) seqLen).lMax)
    (hchannel : channel < headDim) :
    let plan := ofCommit after lanes (lanes.map pool.laneLen) seqLen
    ((first.gatherSide plan side).neutralized plan).map (·.entry [j, head, column, channel]) =
      ((second.gatherSide plan side).neutralized plan).map
        (·.entry [j, head, column, channel]) := by
  intro plan
  cases seqLen with
  | zero =>
      rw [RaggedKv.neutralized_eq_none _ (shape_mask after lanes pool.laneLen 0),
        RaggedKv.neutralized_eq_none _ (shape_mask after lanes pool.laneLen 0)]
  | succ last =>
      have hblock := hafter.blockSize_pos
      obtain ⟨tensor₁, htensor₁⟩ :=
        exists_neutralized_gather hfirst hblock side (Nat.succ_pos last) hj
      obtain ⟨tensor₂, htensor₂⟩ :=
        exists_neutralized_gather hsecond hblock side (Nat.succ_pos last) hj
      rw [htensor₁, htensor₂, Option.map_some, Option.map_some, Option.some.injEq,
        neutralized_gather hfirst hblock side htensor₁ hj hcolumn,
        neutralized_gather hsecond hblock side htensor₂ hj hcolumn]
      split
      · next hlive =>
          rw [entry_lengths after lanes pool.laneLen (last + 1) hj] at hlive
          rw [first.gatherSide_eq, second.gatherSide_eq,
            entry_gather (hfirst side) hblock hj hcolumn hhead hchannel,
            entry_gather (hsecond side) hblock hj hcolumn hhead hchannel]
          refine hagree side column ?_ head hhead channel hchannel
          rw [hcommit.laneLen, if_pos (List.mem_of_getElem? hj)]
          exact hlive
      · rfl

end LanePlan

namespace LoggedCache

variable [Zero α] {layout : KvLayout} {maxLanes blockSize usableBlocks : ℕ}
  {uninit : ℕ → (List ℕ → α) × (List ℕ → α)} {cache : PagedKvCache α}

/-- **Attention sees its own lane.** Take the plan of any granted round of any
run. Two contents of a layer that agree on a lane's live positions give that
lane the same neutralized keys and values, whatever else they hold; neutralizing
zeroes exactly the columns at or past `lengths[j]`; and a column is visible to
query row `r` exactly up to `starts[j] + r`, which makes it a live position of
the lane, stored in one of the lane's own blocks. -/
theorem attention_sees_own_lane
    (hnew : PagedKvCache.new layout maxLanes blockSize usableBlocks uninit = some cache)
    (ops : List (CacheOp α layout maxLanes)) (lanes : RoundLanes maxLanes) (seqLen : ℕ)
    {plan : LanePlan} {planned : PagedKvCache α}
    (hround : ((start cache).run ops).cache.prepareLanes lanes.lanes seqLen =
      (.ok plan, planned)) {j lane : ℕ} (hj : lanes.lanes[j]? = some lane) {numBlocks : ℕ} :
    (∀ first second : KeyValueCache α,
      first.Shaped numBlocks blockSize layout.nKvHeads layout.headDim →
      second.Shaped numBlocks blockSize layout.nKvHeads layout.headDim →
      first.AgreeOn planned.pool lane layout.nKvHeads layout.headDim second →
      ∀ side, ∀ head < layout.nKvHeads, ∀ column < plan.lMax, ∀ channel < layout.headDim,
        ((first.gatherSide plan side).neutralized plan).map
            (·.entry [j, head, column, channel]) =
          ((second.gatherSide plan side).neutralized plan).map
            (·.entry [j, head, column, channel])) ∧
    (∀ kv : KeyValueCache α, kv.Shaped numBlocks blockSize layout.nKvHeads layout.headDim →
      ∀ side, (0 < seqLen → ((kv.gatherSide plan side).neutralized plan).isSome) ∧
        ∀ tensor, (kv.gatherSide plan side).neutralized plan = some tensor →
          ∀ head, ∀ column < plan.lMax, ∀ channel,
            tensor.entry [j, head, column, channel] =
              if column < plan.lengths.entry [j] then
                (kv.gatherSide plan side).tensor.entry [j, head, column, channel]
              else 0) ∧
    ∃ first, plan.starts[j]? = some first ∧ plan.lengths.entry [j] = planned.laneLen lane ∧
      ∀ row < seqLen, ∀ column < plan.lMax,
        (plan.mask.entry [j, 0, row, column] = false ↔ column ≤ first + row) ∧
        (plan.mask.entry [j, 0, row, column] = false → column < planned.laneLen lane ∧
          plan.gatherIdx.entry [j * plan.blocksPerLane + column / blockSize] =
            (planned.pool.address lane column).1 ∧
          (planned.pool.address lane column).1 ∈ planned.pool.laneBlocks lane ∧
          ∀ other, (planned.pool.address lane column).1 ∈ planned.pool.laneBlocks other →
            other = lane) := by
  have hbefore := (Mirrored.start hnew).run ops
  obtain ⟨hcommit, hplan, _, _⟩ := hbefore.granted (.filled lanes seqLen 0) hround
  simp only [Round.filled] at hcommit hplan
  have hafter := hcommit.partitioned hbefore.pool
  have hsize : planned.pool.blockSize = blockSize :=
    hcommit.blockSize.trans hbefore.blockSize_eq
  have hlane : planned.laneLen lane =
      ((start cache).run ops).cache.pool.laneLen lane + seqLen := by
    rw [PagedKvCache.laneLen, hcommit.laneLen, if_pos (List.mem_of_getElem? hj)]
  subst hsize hplan
  refine ⟨?_, ?_, ((start cache).run ops).cache.pool.laneLen lane, ?_, ?_, ?_⟩
  · intro first second hfirst hsecond hagree side head hhead column hcolumn channel hchannel
    exact LanePlan.neutralized_agree hafter hcommit hfirst hsecond side hj hagree hhead hcolumn
      hchannel
  · intro kv hkv side
    refine ⟨fun hseq => ?_, fun tensor htensor head column hcolumn channel => ?_⟩
    · exact Option.isSome_iff_exists.mpr
        (LanePlan.exists_neutralized_gather hkv hafter.blockSize_pos side hseq hj)
    · exact LanePlan.neutralized_gather hkv hafter.blockSize_pos side htensor hj hcolumn
  · simp [LanePlan.ofCommit, hj]
  · rw [hlane]
    exact LanePlan.entry_lengths _ _ _ _ hj
  · intro row hrow column hcolumn
    have hvisible := LanePlan.entry_mask planned.pool lanes.lanes
      ((start cache).run ops).cache.pool.laneLen seqLen hj hrow hcolumn
    have hiff : (decide (((start cache).run ops).cache.pool.laneLen lane + row < column) = false ↔
        column ≤ ((start cache).run ops).cache.pool.laneLen lane + row) := by
      rw [decide_eq_false_iff_not, not_lt]
    rw [hvisible]
    refine ⟨hiff, fun hmask => ?_⟩
    have hlive : column < planned.laneLen lane := by
      rw [hlane]
      exact lt_of_le_of_lt (hiff.mp hmask) (Nat.add_lt_add_left hrow _)
    refine ⟨hlive, ?_, hafter.address_mem hlive, fun other hother => ?_⟩
    · exact LanePlan.entry_gatherIdx _ _ _ _ hj
        (LanePlan.div_lt_blocksPerLane _ _ _ _ hafter.blockSize_pos hcolumn)
    · exact hafter.lane_unique hother (hafter.address_mem hlive)

/-- Lane 1 of a two-lane round, three tokens long beside a shorter lane 0 whose
old block it now uses: two contents that agree on it look alike. -/
theorem attention_sees_own_lane_churn :
    let layout : KvLayout := ⟨1, 1, 1, 4, by decide⟩
    let first : RoundLanes 2 := ⟨[0], by decide, by decide⟩
    let second : RoundLanes 2 := ⟨[1], by decide, by decide⟩
    let both : RoundLanes 2 := ⟨[0, 1], by decide, by decide⟩
    let ops : List (CacheOp ℕ layout 2) :=
      [.round (.filled first 3 7), .resetLane 0, .round (.filled second 3 9)]
    ∃ cache plan planned,
      PagedKvCache.new layout 2 2 4 (fun _ => (fun _ => 1, fun _ => 1)) = some cache ∧
      ((start cache).run ops).cache.prepareLanes both.lanes 1 = (.ok plan, planned) ∧
      ∀ left right : KeyValueCache ℕ, left.Shaped 5 2 1 1 → right.Shaped 5 2 1 1 →
        left.AgreeOn planned.pool 1 1 1 right → ∀ side, ∀ column < plan.lMax,
          ((left.gatherSide plan side).neutralized plan).map (·.entry [1, 0, column, 0]) =
            ((right.gatherSide plan side).neutralized plan).map (·.entry [1, 0, column, 0]) := by
  intro layout first second both ops
  let cache := (PagedKvCache.new layout 2 2 4 (fun _ => (fun _ => 1, fun _ => 1))).get
    (by decide +kernel)
  have hok : (((start cache).run ops).cache.prepareLanes both.lanes 1).1.isOk := by
    decide +kernel
  have hnew : PagedKvCache.new layout 2 2 4 (fun _ => (fun _ => 1, fun _ => 1)) = some cache :=
    (Option.some_get _).symm
  obtain ⟨plan, planned, hround⟩ := exists_granted hok
  refine ⟨cache, plan, planned, hnew, hround, fun left right hleft hright hagree side => ?_⟩
  obtain ⟨hsame, _⟩ := attention_sees_own_lane hnew ops both 1 hround
    (rfl : both.lanes[1]? = some 1)
  intro column hcolumn
  exact hsame left right hleft hright hagree side 0 (by decide) column hcolumn 0 (by decide)

end LoggedCache

end BurnLm.PagedKv
