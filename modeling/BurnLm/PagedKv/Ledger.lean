/-
# What a round does to the ledger

`beginRound` grows tables lane by lane and, when one lane cannot grow, walks
back over the lanes it already grew. This module says once what the two
outcomes are: a round is either granted, and then every listed lane gained
exactly the blocks its new length needs, or it restores every table and length
and leaves a permutation of the free stack. Which of the two happens is decided
by one sum, although the code looks at one lane at a time.

New lengths are sums in a machine word. Where none of them wraps, what a granted
round took is what its lanes needed, and the round is committed.
-/

import Mathlib.Algebra.Order.BigOperators.Group.List
import BurnLm.PagedKv.BlockPool

namespace BurnLm.PagedKv

open BurnLm.Math
open scoped List

namespace BlockPool

/-- Every block the pool knows about, free or owned. -/
def ledger (pool : BlockPool) : List ℕ := pool.free ++ pool.tables.flatten

@[simp]
theorem length_ledger (pool : BlockPool) : pool.ledger.length = pool.usableBlocks := by
  simp [ledger, usableBlocks, List.length_flatten]

/-- The new blocks one lane needs to hold `seqLen` more tokens. -/
def shortfall (pool : BlockPool) (seqLen lane : ℕ) : ℕ :=
  pool.blocksFor (pool.laneLen lane + seqLen) - (pool.laneBlocks lane).length

/-- The new blocks a whole round needs. -/
def demand (pool : BlockPool) (lanes : List ℕ) (seqLen : ℕ) : ℕ :=
  (lanes.map (pool.shortfall seqLen)).sum

/-- The new blocks one lane takes: what its length needs once a word holds it. -/
def growth (pool : BlockPool) (seqLen lane : ℕ) : ℕ :=
  pool.blocksFor (addWord (pool.laneLen lane) seqLen) - (pool.laneBlocks lane).length

/-- The new blocks a whole round takes. -/
def roundGrowth (pool : BlockPool) (lanes : List ℕ) (seqLen : ℕ) : ℕ :=
  (lanes.map (pool.growth seqLen)).sum

@[simp]
theorem demand_nil (pool : BlockPool) (seqLen : ℕ) : pool.demand [] seqLen = 0 := rfl

@[simp]
theorem demand_cons (pool : BlockPool) (lane : ℕ) (lanes : List ℕ) (seqLen : ℕ) :
    pool.demand (lane :: lanes) seqLen = pool.shortfall seqLen lane + pool.demand lanes seqLen :=
  rfl

@[simp]
theorem roundGrowth_nil (pool : BlockPool) (seqLen : ℕ) : pool.roundGrowth [] seqLen = 0 := rfl

@[simp]
theorem roundGrowth_cons (pool : BlockPool) (lane : ℕ) (lanes : List ℕ) (seqLen : ℕ) :
    pool.roundGrowth (lane :: lanes) seqLen =
      pool.growth seqLen lane + pool.roundGrowth lanes seqLen := rfl

/-- A word holds the new length of every lane of the round. -/
def Fits (pool : BlockPool) (lanes : List ℕ) (seqLen : ℕ) : Prop :=
  ∀ lane ∈ lanes, pool.laneLen lane + seqLen < 2 ^ 64

instance (pool : BlockPool) (lanes : List ℕ) (seqLen : ℕ) : Decidable (pool.Fits lanes seqLen) :=
  inferInstanceAs (Decidable (∀ lane ∈ lanes, pool.laneLen lane + seqLen < 2 ^ 64))

/-- A lane never takes more than it needs. -/
theorem growth_le_shortfall (pool : BlockPool) (seqLen lane : ℕ) :
    pool.growth seqLen lane ≤ pool.shortfall seqLen lane :=
  Nat.sub_le_sub_right (ceilDiv_mono _ (addWord_le _ _)) _

/-- A lane whose new length fits takes what it needs. -/
theorem growth_of_lt {pool : BlockPool} {seqLen lane : ℕ}
    (hfits : pool.laneLen lane + seqLen < 2 ^ 64) :
    pool.growth seqLen lane = pool.shortfall seqLen lane := by
  rw [growth, shortfall, addWord_of_lt hfits]

theorem roundGrowth_le_demand (pool : BlockPool) (lanes : List ℕ) (seqLen : ℕ) :
    pool.roundGrowth lanes seqLen ≤ pool.demand lanes seqLen :=
  List.sum_le_sum fun lane _ => pool.growth_le_shortfall seqLen lane

theorem roundGrowth_of_fits {pool : BlockPool} {lanes : List ℕ} {seqLen : ℕ}
    (hfits : pool.Fits lanes seqLen) : pool.roundGrowth lanes seqLen = pool.demand lanes seqLen :=
  congrArg List.sum (List.map_congr_left fun lane hlane => growth_of_lt (hfits lane hlane))

/-! ## Growing, and taking the growth back -/

/-- `pool` is `base` with the lanes of `grown` grown for `seqLen` more tokens
each, and nothing else done. -/
structure GrownFrom (base : BlockPool) (seqLen : ℕ) (grown : List (ℕ × ℕ)) (pool : BlockPool) :
    Prop where
  blockSize : pool.blockSize = base.blockSize
  lens : pool.lens = base.lens
  tables_length : pool.tables.length = base.tables.length
  keeps : ∀ entry ∈ grown, entry.2 = (base.laneBlocks entry.1).length
  isPrefix : ∀ lane, base.laneBlocks lane <+: pool.laneBlocks lane
  covered : ∀ entry ∈ grown, (pool.laneBlocks entry.1).length =
    (base.laneBlocks entry.1).length + base.growth seqLen entry.1
  untouched : ∀ lane, lane ∉ grown.map Prod.fst → pool.laneBlocks lane = base.laneBlocks lane
  ledger : pool.ledger.Perm base.ledger

/-- `pool` has `base`'s tables and lengths, and its free blocks in some order. -/
structure Restored (base pool : BlockPool) : Prop where
  blockSize : pool.blockSize = base.blockSize
  tables : pool.tables = base.tables
  lens : pool.lens = base.lens
  free : pool.free.Perm base.free

theorem GrownFrom.refl (base : BlockPool) (seqLen : ℕ) : GrownFrom base seqLen [] base where
  blockSize := rfl
  lens := rfl
  tables_length := rfl
  keeps := by simp
  isPrefix _ := List.prefix_rfl
  covered := by simp
  untouched _ _ := rfl
  ledger := List.Perm.refl _

/-- With no lane grown the tables are the base's, so the free stacks agree up
to order. -/
theorem GrownFrom.restored {base pool : BlockPool} {seqLen : ℕ}
    (hgrown : GrownFrom base seqLen [] pool) : Restored base pool where
  blockSize := hgrown.blockSize
  lens := hgrown.lens
  tables := eq_of_getD_eq [] hgrown.tables_length fun lane =>
    hgrown.untouched lane (by simp)
  free := by
    have htables : pool.tables = base.tables :=
      eq_of_getD_eq [] hgrown.tables_length fun lane => hgrown.untouched lane (by simp)
    have hledger := hgrown.ledger
    rw [BlockPool.ledger, BlockPool.ledger, htables] at hledger
    exact (List.perm_append_right_iff _).mp hledger

@[simp]
theorem laneBlocks_splitOff (pool : BlockPool) (lane keep other : ℕ) :
    (pool.splitOff lane keep).laneBlocks other =
      if other = lane then (pool.laneBlocks lane).take keep else pool.laneBlocks other := by
  split
  · next hother =>
      rw [hother]
      exact getD_modify_self_of_fixed pool.tables lane List.take_nil
  · next hother => exact getD_modify_of_ne hother

/-- Taking growth back moves blocks from a table to the stack. -/
theorem ledger_splitOff_perm (pool : BlockPool) (lane keep : ℕ) :
    (pool.splitOff lane keep).ledger.Perm pool.ledger := by
  have htables := flatten_modify_take_perm pool.tables lane keep
  calc (pool.splitOff lane keep).ledger
    _ ~ (((pool.laneBlocks lane).drop keep) ++ pool.free) ++
          (pool.tables.modify lane (·.take keep)).flatten :=
        ((List.reverse_perm _).append_right _).append_right _
    _ ~ pool.free ++ ((pool.tables.getD lane []).drop keep ++
          (pool.tables.modify lane (·.take keep)).flatten) := by
        rw [← List.append_assoc]
        exact List.perm_append_comm.append_right _
    _ ~ pool.ledger := htables.append_left pool.free

/-- The walk back over the grown lanes undoes them all. -/
theorem GrownFrom.rollback {base : BlockPool} {seqLen : ℕ} :
    ∀ {grown : List (ℕ × ℕ)} {pool : BlockPool}, (grown.map Prod.fst).Nodup →
      GrownFrom base seqLen grown pool → Restored base (pool.rollback grown)
  | [], _, _, hgrown => hgrown.restored
  | (lane, keep) :: rest, pool, hnodup, hgrown => by
      simp only [List.map_cons, List.nodup_cons] at hnodup
      have hkeep : keep = (base.laneBlocks lane).length := hgrown.keeps (lane, keep) (by simp)
      have hback : (pool.laneBlocks lane).take keep = base.laneBlocks lane := by
        rw [hkeep]
        exact (List.prefix_iff_eq_take.mp (hgrown.isPrefix lane)).symm
      have hnext : GrownFrom base seqLen rest (pool.splitOff lane keep) :=
        { blockSize := hgrown.blockSize
          lens := hgrown.lens
          tables_length := by simpa [splitOff] using hgrown.tables_length
          keeps := fun entry hentry => hgrown.keeps entry (List.mem_cons_of_mem _ hentry)
          isPrefix := fun other => by
            rw [laneBlocks_splitOff]
            split
            · next hother => rw [hback, hother]
            · exact hgrown.isPrefix other
          covered := fun entry hentry => by
            have hne : entry.1 ≠ lane := fun heq =>
              hnodup.1 (heq ▸ List.mem_map_of_mem hentry)
            rw [laneBlocks_splitOff, if_neg hne]
            exact hgrown.covered entry (List.mem_cons_of_mem _ hentry)
          untouched := fun other hother => by
            rw [laneBlocks_splitOff]
            split
            · next heq => rw [hback, heq]
            · next hne => exact hgrown.untouched other (by simp [hne, hother])
          ledger := (ledger_splitOff_perm pool lane keep).trans hgrown.ledger }
      have hrest := hnext.rollback hnodup.2
      exact hrest

/-- Growing one more lane by what it takes. -/
theorem GrownFrom.grow {base pool : BlockPool} {seqLen : ℕ} {grown : List (ℕ × ℕ)} {lane : ℕ}
    (hgrown : GrownFrom base seqLen grown pool) (hfresh : lane ∉ grown.map Prod.fst)
    (hlane : lane < base.tables.length) (hfree : base.growth seqLen lane ≤ pool.free.length) :
    GrownFrom base seqLen (grown ++ [(lane, (base.laneBlocks lane).length)])
      { pool with
        free := pool.free.drop (base.growth seqLen lane)
        tables := pool.tables.modify lane (· ++ pool.free.take (base.growth seqLen lane)) } := by
  have hlane' : lane < pool.tables.length := hgrown.tables_length ▸ hlane
  have hself : ((pool.tables.modify lane
      (· ++ pool.free.take (base.growth seqLen lane))).getD lane []) =
        base.laneBlocks lane ++ pool.free.take (base.growth seqLen lane) := by
    rw [getD_modify_self hlane']
    exact congrArg (· ++ _) (hgrown.untouched lane hfresh)
  refine
    { blockSize := hgrown.blockSize
      lens := hgrown.lens
      tables_length := by simpa using hgrown.tables_length
      keeps := ?_
      isPrefix := fun other => ?_
      covered := ?_
      untouched := fun other hother => ?_
      ledger := ?_ }
  · intro entry hentry
    rcases List.mem_append.mp hentry with hentry | hentry
    · exact hgrown.keeps entry hentry
    · simp only [List.mem_singleton] at hentry
      rw [hentry]
  · by_cases hother : other = lane
    · subst hother
      rw [laneBlocks, laneBlocks, hself]
      exact List.prefix_append _ _
    · rw [laneBlocks, laneBlocks, getD_modify_of_ne hother]
      exact hgrown.isPrefix other
  · intro entry hentry
    rcases List.mem_append.mp hentry with hentry | hentry
    · have hne : entry.1 ≠ lane := fun heq => hfresh (heq ▸ List.mem_map_of_mem hentry)
      rw [laneBlocks, getD_modify_of_ne hne]
      exact hgrown.covered entry hentry
    · simp only [List.mem_singleton] at hentry
      subst hentry
      rw [laneBlocks, hself, List.length_append, List.length_take, min_eq_left hfree]
  · simp only [List.map_append, List.map_cons, List.map_nil, List.mem_append, List.mem_singleton,
      not_or] at hother
    rw [laneBlocks, getD_modify_of_ne hother.2]
    exact hgrown.untouched other hother.1
  · refine List.Perm.trans ?_ hgrown.ledger
    calc pool.free.drop (base.growth seqLen lane) ++ (pool.tables.modify lane
            (· ++ pool.free.take (base.growth seqLen lane))).flatten
      _ ~ pool.free.drop (base.growth seqLen lane) ++
            (pool.free.take (base.growth seqLen lane) ++ pool.tables.flatten) :=
          (flatten_modify_append_perm pool.tables _ hlane').append_left _
      _ ~ pool.free.take (base.growth seqLen lane) ++
            pool.free.drop (base.growth seqLen lane) ++ pool.tables.flatten := by
          rw [← List.append_assoc]
          exact List.perm_append_comm.append_right _
      _ ~ pool.ledger := by rw [List.take_append_drop]; exact List.Perm.refl _

/-- What growing a lane not yet grown can do, in the terms of the base. -/
theorem GrownFrom.growTable {base pool : BlockPool} {seqLen : ℕ} {grown : List (ℕ × ℕ)} {lane : ℕ}
    (hgrown : GrownFrom base seqLen grown pool) (hfresh : lane ∉ grown.map Prod.fst) :
    (base.growth seqLen lane ≤ pool.free.length ∧
      pool.growTable lane (addWord (pool.laneLen lane) seqLen) =
        .ok { pool with
          free := pool.free.drop (base.growth seqLen lane)
          tables := pool.tables.modify lane
            (· ++ pool.free.take (base.growth seqLen lane)) }) ∨
    (pool.free.length < base.growth seqLen lane ∧
      pool.growTable lane (addWord (pool.laneLen lane) seqLen) =
        .error ⟨base.growth seqLen lane - pool.free.length⟩) := by
  have hneed : pool.blocksFor (addWord (pool.laneLen lane) seqLen) - (pool.laneBlocks lane).length =
      base.growth seqLen lane := by
    rw [growth, hgrown.untouched lane hfresh, blocksFor, blocksFor, laneLen, laneLen,
      hgrown.blockSize, hgrown.lens]
  have hcases := growTable_cases pool lane (addWord (pool.laneLen lane) seqLen)
  simpa only [hneed] using hcases

/-- The growth loop, from any point of a round. It runs through exactly when
the stack covers what the remaining lanes take, summed; otherwise the base is
restored. -/
theorem growRound_cases {base : BlockPool} {seqLen : ℕ} :
    ∀ (lanes : List ℕ) (grown : List (ℕ × ℕ)) (pool : BlockPool),
      (grown.map Prod.fst ++ lanes).Nodup → (∀ lane ∈ lanes, lane < base.tables.length) →
      GrownFrom base seqLen grown pool →
      (base.roundGrowth lanes seqLen ≤ pool.free.length ∧ ∃ after,
        growRound seqLen lanes grown pool = (.ok (), after) ∧
        GrownFrom base seqLen
          (grown ++ lanes.map fun lane => (lane, (base.laneBlocks lane).length)) after) ∨
      (pool.free.length < base.roundGrowth lanes seqLen ∧ ∃ exhausted after,
        growRound seqLen lanes grown pool = (.error exhausted, after) ∧ Restored base after)
  | [], grown, pool, _, _, hgrown =>
      Or.inl ⟨by simp, pool, rfl, by simpa using hgrown⟩
  | lane :: lanes, grown, pool, hnodup, hrange, hgrown => by
      have hfresh : lane ∉ grown.map Prod.fst := fun hmem =>
        List.disjoint_of_nodup_append hnodup hmem List.mem_cons_self
      have hlane := hrange lane List.mem_cons_self
      have hblocks : pool.laneBlocks lane = base.laneBlocks lane := hgrown.untouched lane hfresh
      rcases hgrown.growTable hfresh with ⟨hfree, hgrow⟩ | ⟨hfree, hgrow⟩
      · -- this lane grows: go on with the rest of the round
        have hnext := hgrown.grow hfresh hlane hfree
        have hnodup' : ((grown ++ [(lane, (base.laneBlocks lane).length)]).map Prod.fst ++
            lanes).Nodup := by simpa using hnodup
        have hrest := growRound_cases lanes _ _ hnodup'
          (fun other hother => hrange other (List.mem_cons_of_mem _ hother)) hnext
        simp only [List.length_drop] at hrest
        simp only [growRound, hgrow, hblocks, roundGrowth_cons]
        rcases hrest with ⟨hdemand, after, hrun, hafter⟩ | ⟨hdemand, hrun⟩
        · refine Or.inl ⟨by omega, after, hrun, ?_⟩
          simpa using hafter
        · exact Or.inr ⟨by omega, hrun⟩
      · -- this lane is short: everything grown so far is undone
        simp only [growRound, hgrow, roundGrowth_cons]
        exact Or.inr ⟨by omega, _, _, rfl, hgrown.rollback (List.Nodup.of_append_left hnodup)⟩

/-! ## The round as a whole -/

/-- `after` is `pool` with one round of `seqLen` tokens over `lanes` granted, new
lengths taken in a word. -/
structure Granted (pool : BlockPool) (lanes : List ℕ) (seqLen : ℕ) (after : BlockPool) :
    Prop where
  blockSize : after.blockSize = pool.blockSize
  tables_length : after.tables.length = pool.tables.length
  lens_length : after.lens.length = pool.lens.length
  laneLen : ∀ lane, after.laneLen lane =
    if lane ∈ lanes then addWord (pool.laneLen lane) seqLen else pool.laneLen lane
  isPrefix : ∀ lane, pool.laneBlocks lane <+: after.laneBlocks lane
  length_laneBlocks : ∀ lane, (after.laneBlocks lane).length =
    (pool.laneBlocks lane).length + if lane ∈ lanes then pool.growth seqLen lane else 0
  ledger : after.ledger.Perm pool.ledger

/-- `after` is `pool` with one round of `seqLen` tokens over `lanes` committed. -/
structure Committed (pool : BlockPool) (lanes : List ℕ) (seqLen : ℕ) (after : BlockPool) :
    Prop where
  blockSize : after.blockSize = pool.blockSize
  tables_length : after.tables.length = pool.tables.length
  lens_length : after.lens.length = pool.lens.length
  laneLen : ∀ lane, after.laneLen lane =
    pool.laneLen lane + if lane ∈ lanes then seqLen else 0
  isPrefix : ∀ lane, pool.laneBlocks lane <+: after.laneBlocks lane
  length_laneBlocks : ∀ lane, (after.laneBlocks lane).length =
    (pool.laneBlocks lane).length + if lane ∈ lanes then pool.shortfall seqLen lane else 0
  ledger : after.ledger.Perm pool.ledger

/-- A granted round whose lengths fit is committed. -/
theorem Granted.committed {pool after : BlockPool} {lanes : List ℕ} {seqLen : ℕ}
    (hafter : Granted pool lanes seqLen after) (hfits : pool.Fits lanes seqLen) :
    Committed pool lanes seqLen after where
  blockSize := hafter.blockSize
  tables_length := hafter.tables_length
  lens_length := hafter.lens_length
  laneLen lane := by
    rw [hafter.laneLen]
    split
    · next hlane => exact addWord_of_lt (hfits lane hlane)
    · rfl
  isPrefix := hafter.isPrefix
  length_laneBlocks lane := by
    rw [hafter.length_laneBlocks]
    split
    · next hlane => rw [growth_of_lt (hfits lane hlane)]
    · rfl
  ledger := hafter.ledger

theorem advance_lanes (seqLen : ℕ) :
    ∀ (lanes : List ℕ) (pool : BlockPool), lanes.Nodup → (∀ lane ∈ lanes, lane < pool.lens.length) →
      (lanes.foldl (advance seqLen) pool).tables = pool.tables ∧
      (lanes.foldl (advance seqLen) pool).free = pool.free ∧
      (lanes.foldl (advance seqLen) pool).blockSize = pool.blockSize ∧
      (lanes.foldl (advance seqLen) pool).lens.length = pool.lens.length ∧
      ∀ lane, (lanes.foldl (advance seqLen) pool).laneLen lane =
        if lane ∈ lanes then addWord (pool.laneLen lane) seqLen else pool.laneLen lane
  | [], pool, _, _ => by simp
  | lane :: lanes, pool, hnodup, hrange => by
      rw [List.nodup_cons] at hnodup
      have hrest := advance_lanes seqLen lanes (pool.advance seqLen lane) hnodup.2
        (fun other hother => by simpa [advance] using hrange other (List.mem_cons_of_mem _ hother))
      obtain ⟨htables, hfree, hblock, hlens, hlen⟩ := hrest
      refine ⟨htables, hfree, hblock, by simpa [advance] using hlens, fun other => ?_⟩
      rw [List.foldl_cons, hlen]
      by_cases hother : other = lane
      · subst hother
        have hself : (pool.advance seqLen other).laneLen other =
            addWord (pool.laneLen other) seqLen :=
          getD_modify_self (hrange other List.mem_cons_self)
        simp [hself, hnodup.1]
      · have hsame : (pool.advance seqLen lane).laneLen other = pool.laneLen other :=
          getD_modify_of_ne hother
        simp [hsame, hother]

/-- The two outcomes of a round over distinct lanes, and what decides between
them. -/
theorem beginRound_cases (pool : BlockPool) {lanes : List ℕ} (seqLen : ℕ) (hnodup : lanes.Nodup)
    (htables : ∀ lane ∈ lanes, lane < pool.tables.length)
    (hlens : ∀ lane ∈ lanes, lane < pool.lens.length) :
    (pool.roundGrowth lanes seqLen ≤ pool.free.length ∧ ∃ after,
      pool.beginRound lanes seqLen = (.ok (lanes.map pool.laneLen), after) ∧
      Granted pool lanes seqLen after) ∨
    (pool.free.length < pool.roundGrowth lanes seqLen ∧ ∃ exhausted after,
      pool.beginRound lanes seqLen = (.error exhausted, after) ∧ Restored pool after) := by
  have hgrow := growRound_cases lanes [] pool (by simpa using hnodup) htables
    (GrownFrom.refl pool seqLen)
  rcases hgrow with ⟨hdemand, grown, hrun, hgrown⟩ | ⟨hdemand, exhausted, after, hrun, hafter⟩
  · simp only [List.nil_append] at hgrown
    have hlanes : (lanes.map fun lane => (lane, (pool.laneBlocks lane).length)).map Prod.fst =
        lanes := by simp [Function.comp_def]
    have hadvance := advance_lanes seqLen lanes grown hnodup
      (fun lane hlane => hgrown.lens ▸ hlens lane hlane)
    obtain ⟨htab, hfree, hblock, hlen, hlaneLen⟩ := hadvance
    have hlaneBlocks : ∀ lane, (lanes.foldl (advance seqLen) grown).laneBlocks lane =
        grown.laneBlocks lane := fun lane => by rw [laneBlocks, laneBlocks, htab]
    have hbase : ∀ lane, grown.laneLen lane = pool.laneLen lane := fun lane => by
      rw [BlockPool.laneLen, BlockPool.laneLen, hgrown.lens]
    refine Or.inl ⟨hdemand, lanes.foldl (advance seqLen) grown, ?_, ?_⟩
    · simp only [beginRound, hrun]
      rw [List.map_congr_left fun lane _ => hbase lane]
    · refine
        { blockSize := hblock.trans hgrown.blockSize
          tables_length := htab ▸ hgrown.tables_length
          lens_length := hlen.trans (by rw [hgrown.lens])
          laneLen := fun lane => by rw [hlaneLen, hbase]
          isPrefix := fun lane => hlaneBlocks lane ▸ hgrown.isPrefix lane
          length_laneBlocks := fun lane => ?_
          ledger := ?_ }
      · rw [hlaneBlocks]
        split
        · next hlane =>
            exact hgrown.covered (lane, (pool.laneBlocks lane).length)
              (List.mem_map_of_mem hlane)
        · next hlane => rw [hgrown.untouched lane (hlanes.symm ▸ hlane), add_zero]
      · rw [BlockPool.ledger, htab, hfree]
        exact hgrown.ledger
  · exact Or.inr ⟨hdemand, exhausted, after, by simp only [beginRound, hrun], hafter⟩

end BlockPool

end BurnLm.PagedKv
