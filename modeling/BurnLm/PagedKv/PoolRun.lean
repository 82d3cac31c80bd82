/-
# Pools reached from `new`

A pool lives through rounds, which may fail, and lane releases. This module
states the ledger invariant of such a life and proves it from the two outcomes
of a round: free stack and tables together are the usable block ids, each once,
and every table has exactly the blocks its lane's length needs.

A round whose new lengths leave the machine word breaks the last part and only
that one: it is granted, and a lane is left with more blocks than its wrapped
length needs. So the invariant comes in two strengths, for any life of a pool and
for one in which no granted length has wrapped.

The lanes of a round are carried with the two facts callers owe: they are
distinct, and the pool keeps ledgers for them.
-/

import BurnLm.PagedKv.Ledger

namespace BurnLm.PagedKv

open BurnLm.Math
open scoped List

/-- The lanes of one round over a pool with `laneCount` lanes. -/
structure RoundLanes (laneCount : ℕ) where
  lanes : List ℕ
  nodup : lanes.Nodup
  inRange : ∀ lane ∈ lanes, lane < laneCount

namespace BlockPool

/-- What holds of the ledger whatever the rounds were. -/
structure Ledgered (pool : BlockPool) : Prop where
  blockSize_pos : 0 < pool.blockSize
  /-- One table and one length per lane. -/
  tables_length : pool.tables.length = pool.laneCount
  /-- No table is short of what its lane's length needs. -/
  held : ∀ lane, pool.blocksFor (pool.laneLen lane) ≤ (pool.laneBlocks lane).length
  /-- Every usable block is in exactly one table or on the free stack. -/
  ledger : pool.ledger.Perm (List.range' 1 pool.usableBlocks)

/-- The ledger invariant. -/
structure Partitioned (pool : BlockPool) : Prop extends Ledgered pool where
  /-- Tables and lengths move together. -/
  covers : ∀ lane, (pool.laneBlocks lane).length = pool.blocksFor (pool.laneLen lane)
  held lane := (covers lane).ge

namespace Ledgered

variable {pool : BlockPool} (hpool : Ledgered pool)
include hpool

theorem nodup : pool.ledger.Nodup := hpool.ledger.nodup_iff.mpr List.nodup_range'

theorem mem_ledger {block : ℕ} :
    block ∈ pool.ledger ↔ 1 ≤ block ∧ block ≤ pool.usableBlocks := by
  rw [hpool.ledger.mem_iff, List.mem_range'_1]
  omega

/-- The sentinel belongs to nobody. -/
theorem sentinel_notMem : sentinelBlock ∉ pool.ledger := fun hmem => by
  have := (hpool.mem_ledger.mp hmem).1
  simp [sentinelBlock] at this

theorem nodup_tables : pool.tables.flatten.Nodup :=
  (List.nodup_append.mp hpool.nodup).2.1

/-- A block lies in one lane's table only. -/
theorem lane_unique {first second block : ℕ} (hfirst : block ∈ pool.laneBlocks first)
    (hsecond : block ∈ pool.laneBlocks second) : first = second :=
  eq_of_mem_getD_of_nodup hpool.nodup_tables hfirst hsecond

theorem nodup_laneBlocks (lane : ℕ) : (pool.laneBlocks lane).Nodup :=
  nodup_getD_of_nodup hpool.nodup_tables lane

theorem ne_sentinel_of_mem_laneBlocks {lane block : ℕ} (hblock : block ∈ pool.laneBlocks lane) :
    block ≠ sentinelBlock := fun heq =>
  hpool.sentinel_notMem (heq ▸ List.mem_append_right _ (mem_flatten_of_mem_getD hblock))

end Ledgered

/-- A permuted ledger over as many blocks is still the usable ids, each once. -/
theorem ledger_perm_range {pool after : BlockPool} (hpool : Ledgered pool)
    (hledger : after.ledger.Perm pool.ledger) :
    after.usableBlocks = pool.usableBlocks ∧
      after.ledger.Perm (List.range' 1 after.usableBlocks) := by
  have husable : after.usableBlocks = pool.usableBlocks := by
    rw [← length_ledger, ← length_ledger, hledger.length_eq]
  exact ⟨husable, husable ▸ hledger.trans hpool.ledger⟩

theorem Granted.ledgered {pool after : BlockPool} {lanes : List ℕ} {seqLen : ℕ}
    (hafter : Granted pool lanes seqLen after) (hpool : Ledgered pool) : Ledgered after where
  blockSize_pos := hafter.blockSize ▸ hpool.blockSize_pos
  tables_length := by
    rw [hafter.tables_length, hpool.tables_length, laneCount, laneCount, hafter.lens_length]
  held lane := by
    rw [hafter.length_laneBlocks, hafter.laneLen, blocksFor, hafter.blockSize, ← blocksFor]
    split
    · rw [growth]
      omega
    · exact hpool.held lane
  ledger := (ledger_perm_range hpool hafter.ledger).2

/-- In a partitioned pool a lane is short of the blocks between the two
lengths. -/
theorem shortfall_eq {pool : BlockPool} (hpool : Partitioned pool) (seqLen lane : ℕ) :
    pool.shortfall seqLen lane =
      pool.blocksFor (pool.laneLen lane + seqLen) - pool.blocksFor (pool.laneLen lane) := by
  rw [shortfall, hpool.covers]

theorem Committed.partitioned {pool after : BlockPool} {lanes : List ℕ} {seqLen : ℕ}
    (hafter : Committed pool lanes seqLen after) (hpool : Partitioned pool) :
    Partitioned after where
  blockSize_pos := hafter.blockSize ▸ hpool.blockSize_pos
  tables_length := by
    rw [hafter.tables_length, hpool.tables_length, laneCount, laneCount, hafter.lens_length]
  covers lane := by
    rw [hafter.length_laneBlocks, hafter.laneLen, blocksFor, hafter.blockSize, ← blocksFor]
    split
    · rw [shortfall_eq hpool, hpool.covers]
      have hmono : pool.blocksFor (pool.laneLen lane) ≤
          pool.blocksFor (pool.laneLen lane + seqLen) :=
        ceilDiv_mono _ (Nat.le_add_right _ _)
      omega
    · rw [hpool.covers, add_zero, add_zero]
  ledger := (ledger_perm_range hpool.toLedgered hafter.ledger).2

theorem Restored.ledger {pool after : BlockPool} (hafter : Restored pool after) :
    after.ledger.Perm pool.ledger := by
  rw [BlockPool.ledger, BlockPool.ledger, hafter.tables]
  exact hafter.free.append_right _

/-- A restored pool reads as before, lane by lane. -/
theorem Restored.lane {pool after : BlockPool} (hafter : Restored pool after) (lane : ℕ) :
    after.laneLen lane = pool.laneLen lane ∧ after.laneBlocks lane = pool.laneBlocks lane := by
  rw [laneLen, laneLen, laneBlocks, laneBlocks, hafter.lens, hafter.tables]
  exact ⟨rfl, rfl⟩

theorem Restored.ledgered {pool after : BlockPool} (hafter : Restored pool after)
    (hpool : Ledgered pool) : Ledgered after where
  blockSize_pos := hafter.blockSize ▸ hpool.blockSize_pos
  tables_length := by
    rw [hafter.tables, hpool.tables_length, laneCount, laneCount, hafter.lens]
  held lane := by
    rw [(hafter.lane lane).1, (hafter.lane lane).2, blocksFor, hafter.blockSize]
    exact hpool.held lane
  ledger := (ledger_perm_range hpool hafter.ledger).2

theorem Restored.partitioned {pool after : BlockPool} (hafter : Restored pool after)
    (hpool : Partitioned pool) : Partitioned after where
  toLedgered := hafter.ledgered hpool.toLedgered
  covers lane := by
    rw [(hafter.lane lane).1, (hafter.lane lane).2, blocksFor, hafter.blockSize]
    exact hpool.covers lane

theorem laneLen_freeLane (pool : BlockPool) (lane other : ℕ) :
    (pool.freeLane lane).laneLen other = if other = lane then 0 else pool.laneLen other := by
  split
  · next hother =>
      rw [hother]
      exact getD_modify_self_of_fixed pool.lens lane rfl
  · next hother => exact getD_modify_of_ne hother

theorem laneBlocks_freeLane (pool : BlockPool) (lane other : ℕ) :
    (pool.freeLane lane).laneBlocks other = if other = lane then [] else pool.laneBlocks other := by
  split
  · next hother =>
      rw [hother]
      exact getD_modify_self_of_fixed pool.tables lane rfl
  · next hother => exact getD_modify_of_ne hother

/-- Freeing a lane moves its blocks to the stack. -/
theorem ledger_freeLane_perm (pool : BlockPool) (lane : ℕ) :
    (pool.freeLane lane).ledger.Perm pool.ledger := by
  simpa [ledger, freeLane, splitOff, laneBlocks] using ledger_splitOff_perm pool lane 0

theorem Ledgered.freeLane {pool : BlockPool} (hpool : Ledgered pool) (lane : ℕ) :
    Ledgered (pool.freeLane lane) where
  blockSize_pos := hpool.blockSize_pos
  tables_length := by
    simpa [BlockPool.freeLane, laneCount] using hpool.tables_length
  held other := by
    rw [laneLen_freeLane, laneBlocks_freeLane]
    split
    · simp [blocksFor]
    · exact hpool.held other
  ledger := (ledger_perm_range hpool (ledger_freeLane_perm pool lane)).2

theorem Partitioned.freeLane {pool : BlockPool} (hpool : Partitioned pool) (lane : ℕ) :
    Partitioned (pool.freeLane lane) where
  toLedgered := hpool.toLedgered.freeLane lane
  covers other := by
    rw [laneLen_freeLane, laneBlocks_freeLane]
    split
    · simp [blocksFor]
    · exact hpool.covers other

/-- A fresh pool has every block free. -/
theorem partitioned_of_new {blockSize numBlocks numLanes : ℕ} {pool : BlockPool}
    (hnew : new blockSize numBlocks numLanes = some pool) : Partitioned pool := by
  unfold new at hnew
  split at hnew
  · next hassert =>
      obtain rfl := Option.some.inj hnew
      refine
        { blockSize_pos := hassert.1
          tables_length := by simp [laneCount]
          ledger := ?_
          covers := fun lane => ?_ }
      · have hflatten : (List.replicate numLanes ([] : List ℕ)).flatten = [] := by simp
        simp [ledger, usableBlocks, hflatten]
      · by_cases hlane : lane < numLanes <;> simp [laneBlocks, laneLen, blocksFor, hlane]
  · simp at hnew

/-! ## Runs -/

/-- One call on a pool with `laneCount` lanes. -/
inductive Op (laneCount : ℕ)
  | beginRound (lanes : RoundLanes laneCount) (seqLen : ℕ)
  | freeLane (lane : Fin laneCount)

/-- The pool a call leaves behind, whatever it returned. -/
def Op.apply {laneCount : ℕ} (pool : BlockPool) : Op laneCount → BlockPool
  | .beginRound lanes seqLen => (pool.beginRound lanes.lanes seqLen).2
  | .freeLane lane => pool.freeLane lane

/-- The pool a sequence of calls leaves behind. -/
def run {laneCount : ℕ} (pool : BlockPool) (ops : List (Op laneCount)) : BlockPool :=
  ops.foldl Op.apply pool

/-- A round over a pool of the right width, in its two outcomes. -/
theorem Ledgered.beginRound_cases {pool : BlockPool} {laneCount : ℕ}
    (hpool : Ledgered pool) (hcount : pool.laneCount = laneCount)
    (lanes : RoundLanes laneCount) (seqLen : ℕ) :
    (pool.roundGrowth lanes.lanes seqLen ≤ pool.free.length ∧ ∃ after,
      pool.beginRound lanes.lanes seqLen = (.ok (lanes.lanes.map pool.laneLen), after) ∧
      Granted pool lanes.lanes seqLen after) ∨
    (pool.free.length < pool.roundGrowth lanes.lanes seqLen ∧ ∃ exhausted after,
      pool.beginRound lanes.lanes seqLen = (.error exhausted, after) ∧ Restored pool after) :=
  BlockPool.beginRound_cases pool seqLen lanes.nodup
    (fun lane hlane => by
      rw [hpool.tables_length, hcount]
      exact lanes.inRange lane hlane)
    (fun lane hlane => by
      have hlane' := lanes.inRange lane hlane
      rwa [← hcount] at hlane')

/-- The same for a round whose lengths fit, in the terms of what it needs. -/
theorem Ledgered.beginRound_fits {pool : BlockPool} {laneCount : ℕ}
    (hpool : Ledgered pool) (hcount : pool.laneCount = laneCount)
    (lanes : RoundLanes laneCount) {seqLen : ℕ} (hfits : pool.Fits lanes.lanes seqLen) :
    (pool.demand lanes.lanes seqLen ≤ pool.free.length ∧ ∃ after,
      pool.beginRound lanes.lanes seqLen = (.ok (lanes.lanes.map pool.laneLen), after) ∧
      Committed pool lanes.lanes seqLen after) ∨
    (pool.free.length < pool.demand lanes.lanes seqLen ∧ ∃ exhausted after,
      pool.beginRound lanes.lanes seqLen = (.error exhausted, after) ∧ Restored pool after) := by
  rw [← roundGrowth_of_fits hfits]
  rcases hpool.beginRound_cases hcount lanes seqLen with ⟨hroom, after, hround, hafter⟩ | hshort
  · exact Or.inl ⟨hroom, after, hround, hafter.committed hfits⟩
  · exact Or.inr hshort

/-- One call keeps the ledger, the lane count and the block count. -/
theorem Ledgered.apply {pool : BlockPool} {laneCount : ℕ} (hpool : Ledgered pool)
    (hcount : pool.laneCount = laneCount) (op : Op laneCount) :
    Ledgered (op.apply pool) ∧ (op.apply pool).laneCount = laneCount ∧
      (op.apply pool).blockSize = pool.blockSize ∧
      (op.apply pool).usableBlocks = pool.usableBlocks := by
  cases op with
  | beginRound lanes seqLen =>
      rcases hpool.beginRound_cases hcount lanes seqLen with
        ⟨_, after, hround, hafter⟩ | ⟨_, exhausted, after, hround, hafter⟩
      · simp only [Op.apply, hround]
        exact ⟨hafter.ledgered hpool, hafter.lens_length.trans hcount, hafter.blockSize,
          (ledger_perm_range hpool hafter.ledger).1⟩
      · simp only [Op.apply, hround]
        exact ⟨hafter.ledgered hpool, (congrArg List.length hafter.lens).trans hcount,
          hafter.blockSize, (ledger_perm_range hpool hafter.ledger).1⟩
  | freeLane lane =>
      exact ⟨hpool.freeLane lane,
        by simpa [Op.apply, BlockPool.freeLane, BlockPool.laneCount] using hcount, rfl,
        (ledger_perm_range hpool (ledger_freeLane_perm pool lane)).1⟩

/-- What one call keeps, every sequence of calls keeps. -/
theorem Ledgered.run {laneCount : ℕ} :
    ∀ (ops : List (Op laneCount)) {pool : BlockPool}, Ledgered pool →
      pool.laneCount = laneCount →
      Ledgered (pool.run ops) ∧ (pool.run ops).laneCount = laneCount ∧
        (pool.run ops).blockSize = pool.blockSize ∧
        (pool.run ops).usableBlocks = pool.usableBlocks
  | [], _, hpool, hcount => ⟨hpool, hcount, rfl, rfl⟩
  | op :: ops, pool, hpool, hcount => by
      obtain ⟨hstep, hcount', hblock, husable⟩ := hpool.apply hcount op
      obtain ⟨hrest, hcount'', hblock', husable'⟩ := Ledgered.run ops hstep hcount'
      exact ⟨hrest, hcount'', hblock'.trans hblock, husable'.trans husable⟩

/-! ## Rounds in which no length wraps -/

/-- The lanes of a round whose new length a word holds. -/
def fitting (pool : BlockPool) (lanes : List ℕ) (seqLen : ℕ) : List ℕ :=
  lanes.filter fun lane => pool.laneLen lane + seqLen < 2 ^ 64

/-- The lanes that fit take what they need, whatever the others take. -/
theorem demand_fitting_le (pool : BlockPool) (lanes : List ℕ) (seqLen : ℕ) :
    pool.demand (pool.fitting lanes seqLen) seqLen ≤ pool.roundGrowth lanes seqLen := by
  induction lanes with
  | nil => simp [fitting]
  | cons lane lanes ih =>
      simp only [fitting] at ih ⊢
      rw [roundGrowth_cons, List.filter_cons]
      split
      · next hfits =>
          rw [demand_cons, growth_of_lt (by simpa using hfits)]
          exact Nat.add_le_add_left ih _
      · exact le_trans ih (Nat.le_add_left _ _)

/-- A round grants no length that wraps: all lengths fit, or those that do need
more blocks than are free. -/
def Unwrapped (pool : BlockPool) (lanes : List ℕ) (seqLen : ℕ) : Prop :=
  pool.Fits lanes seqLen ∨
    pool.freeBlocks < pool.demand (pool.fitting lanes seqLen) seqLen

/-- So does a call. -/
def Op.Unwrapped {laneCount : ℕ} (pool : BlockPool) : Op laneCount → Prop
  | .beginRound lanes seqLen => pool.Unwrapped lanes.lanes seqLen
  | .freeLane _ => True

/-- So does every call of a run, from the pool it finds. -/
def AllUnwrapped {laneCount : ℕ} (pool : BlockPool) : List (Op laneCount) → Prop
  | [] => True
  | op :: ops => op.Unwrapped pool ∧ AllUnwrapped (op.apply pool) ops

/-- Such a call keeps the partition. -/
theorem Partitioned.apply {pool : BlockPool} {laneCount : ℕ} (hpool : Partitioned pool)
    (hcount : pool.laneCount = laneCount) {op : Op laneCount} (hop : op.Unwrapped pool) :
    Partitioned (op.apply pool) := by
  cases op with
  | beginRound lanes seqLen =>
      rcases hpool.toLedgered.beginRound_cases hcount lanes seqLen with
        ⟨hroom, after, hround, hafter⟩ | ⟨_, exhausted, after, hround, hafter⟩
      · simp only [Op.apply, hround]
        rcases hop with hfits | hshort
        · exact (hafter.committed hfits).partitioned hpool
        · have hdemand := pool.demand_fitting_le lanes.lanes seqLen
          exact absurd hroom (not_le.mpr (lt_of_lt_of_le hshort hdemand))
      · simp only [Op.apply, hround]
        exact hafter.partitioned hpool
  | freeLane lane => exact hpool.freeLane lane

/-- So does every sequence of them. -/
theorem Partitioned.run {laneCount : ℕ} :
    ∀ (ops : List (Op laneCount)) {pool : BlockPool}, Partitioned pool →
      pool.laneCount = laneCount → AllUnwrapped pool ops → Partitioned (pool.run ops)
  | [], _, hpool, _, _ => hpool
  | op :: ops, _, hpool, hcount, ⟨hop, hops⟩ =>
      Partitioned.run ops (hpool.apply hcount hop) (hpool.toLedgered.apply hcount op).2.1 hops

theorem new_fields {blockSize numBlocks numLanes : ℕ} {pool : BlockPool}
    (hnew : new blockSize numBlocks numLanes = some pool) :
    pool.blockSize = blockSize ∧ pool.laneCount = numLanes ∧
      pool.usableBlocks = numBlocks % 2 ^ 32 - 1 := by
  unfold new at hnew
  split at hnew
  · obtain rfl := Option.some.inj hnew
    simp [laneCount, usableBlocks]
  · simp at hnew

theorem laneLen_of_new {blockSize numBlocks numLanes : ℕ} {pool : BlockPool}
    (hnew : new blockSize numBlocks numLanes = some pool) (lane : ℕ) : pool.laneLen lane = 0 := by
  unfold new at hnew
  split at hnew
  · obtain rfl := Option.some.inj hnew
    by_cases hlane : lane < numLanes <;> simp [laneLen, hlane]
  · simp at hnew

/-- **The ledger is a partition.** In every pool reached from `new`, through any
rounds over distinct lanes that grant no wrapped length, committed or exhausted,
and any lane releases, the free stack and the tables hold the usable ids
`1..=usable_blocks`, each once and the sentinel never; every table has the blocks
its lane's length needs; and the number of usable blocks is what it was. -/
theorem ledger_partition {blockSize numBlocks laneCount : ℕ} {start : BlockPool}
    (hnew : new blockSize numBlocks laneCount = some start) (ops : List (Op laneCount))
    (hops : start.AllUnwrapped ops) :
    (start.run ops).ledger.Perm (List.range' 1 (start.run ops).usableBlocks) ∧
      (start.run ops).ledger.Nodup ∧
      sentinelBlock ∉ (start.run ops).ledger ∧
      (∀ lane, ((start.run ops).laneBlocks lane).length =
        (start.run ops).laneLen lane ⌈/⌉ blockSize) ∧
      (start.run ops).usableBlocks = start.usableBlocks := by
  obtain ⟨hblock, hcount, _⟩ := new_fields hnew
  have hstart := partitioned_of_new hnew
  obtain ⟨_, _, hblock', husable⟩ := Ledgered.run ops hstart.toLedgered hcount
  have hrun := Partitioned.run ops hstart hcount hops
  refine ⟨hrun.ledger, hrun.nodup, hrun.sentinel_notMem, fun lane => ?_, husable⟩
  rw [hrun.covers, blocksFor, hblock', hblock]

/-- A four-block pool of two lanes that fills, exhausts, rolls back and frees. -/
theorem ledger_partition_churn :
    let start : BlockPool := ⟨4, [3, 2, 1], [[], []], [0, 0]⟩
    let ops : List (Op 2) :=
      [.beginRound ⟨[0], by decide, by decide⟩ 4,
        .beginRound ⟨[1, 0], by decide, by decide⟩ 8, .freeLane 0]
    (start.run ops).ledger.Perm (List.range' 1 (start.run ops).usableBlocks) ∧
      (start.run ops).ledger.Nodup ∧
      sentinelBlock ∉ (start.run ops).ledger ∧
      (∀ lane, ((start.run ops).laneBlocks lane).length =
        (start.run ops).laneLen lane ⌈/⌉ start.blockSize) ∧
      (start.run ops).usableBlocks = start.usableBlocks := by
  intro start ops
  have hnew : new 4 4 2 = some start := by decide
  exact ledger_partition hnew ops ⟨Or.inl (by decide), Or.inl (by decide), trivial, trivial⟩

/-- One lane with one token, and a round as wide as the word allows: the length
wraps to zero, the round is granted, and the block stays in the table. -/
theorem wrapped_length_keeps_blocks :
    let start : BlockPool := ⟨1, [3, 2, 1], [[], []], [0, 0]⟩
    let ops : List (Op 2) :=
      [.beginRound ⟨[0], by decide, by decide⟩ 1,
        .beginRound ⟨[0], by decide, by decide⟩ (2 ^ 64 - 1)]
    new 1 4 2 = some start ∧
      ((start.run ops).laneBlocks 0).length ≠ (start.run ops).laneLen 0 ⌈/⌉ 1 := by
  decide

end BlockPool

end BurnLm.PagedKv
