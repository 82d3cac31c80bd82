/-
# The block pool's ledger

A pool hands out fixed-size blocks to lanes. It keeps a free stack, a block
table for every lane, and every lane's length, and moves tables and lengths
together. Nothing here holds a key or a value; this module is the bookkeeping
`cache` and `block_store` index by.

Lengths, widths and counts are natural numbers. Two pieces of machine
arithmetic are kept: the cast of the block count to 32 bits at construction,
which decides how many blocks a pool really has, and the sum of a lane's length
and a round's width, which wraps in a release build and stops a debug one. The
free stack lists its top first, so a pop takes the head and `extend` pushes a run
of blocks in reverse.
-/

import BurnLm.Math.Tables
import BurnLm.Math.Words

namespace BurnLm.PagedKv

open BurnLm.Math

/-- The block id ragged gathers pad with. It belongs to no lane. -/
def sentinelBlock : ℕ := 0

structure PoolExhausted where
  /-- How many more blocks were needed than the free stack held. -/
  shortBy : ℕ
  deriving DecidableEq, Repr

/-- A shared pool of blocks and the per-lane ledger. -/
structure BlockPool where
  blockSize : ℕ
  /-- Free block ids, top of the stack first. -/
  free : List ℕ
  /-- Per lane, the block ids covering its tokens in position order. -/
  tables : List (List ℕ)
  lens : List ℕ
  deriving DecidableEq, Repr

namespace BlockPool

/-- A pool of `numBlocks` blocks with empty ledgers for `numLanes` lanes. The
two assertions of the constructor are the two ways it yields nothing. -/
def new (blockSize numBlocks numLanes : ℕ) : Option BlockPool :=
  if 1 ≤ blockSize ∧ 2 ≤ numBlocks then
    some
      { blockSize
        -- `1..num_blocks as u32`, pushed in ascending order
        free := (List.range' 1 (numBlocks % 2 ^ 32 - 1)).reverse
        tables := List.replicate numLanes []
        lens := List.replicate numLanes 0 }
  else none

variable (pool : BlockPool)

def blocksFor (len : ℕ) : ℕ := len ⌈/⌉ pool.blockSize

def freeBlocks : ℕ := pool.free.length

/-- How many usable blocks the pool holds in total, free and owned alike. -/
def usableBlocks : ℕ := pool.free.length + (pool.tables.map List.length).sum

def laneCount : ℕ := pool.lens.length

def laneLen (lane : ℕ) : ℕ := pool.lens.getD lane 0

/-- The blocks backing one lane, in position order. -/
def laneBlocks (lane : ℕ) : List ℕ := pool.tables.getD lane []

/-- Pop `count` blocks, pushing each onto the lane's table as it comes. -/
def takeBlocks (lane : ℕ) : ℕ → BlockPool → BlockPool
  | 0, pool => pool
  | count + 1, pool =>
    match pool.free with
    | [] => pool
    | block :: rest =>
      takeBlocks lane count
        { pool with free := rest, tables := pool.tables.modify lane (· ++ [block]) }

/-- Grow one lane's table until it covers `newLen` tokens, or leave it alone
and report the shortfall. -/
def growTable (lane newLen : ℕ) : Except PoolExhausted BlockPool :=
  let need := pool.blocksFor newLen
  let held := (pool.laneBlocks lane).length
  if need ≤ held then .ok pool
  else
    let short := need - held
    if pool.free.length < short then .error ⟨short - pool.free.length⟩
    else .ok (takeBlocks lane short pool)

/-- Give back what one lane's table grew beyond its first `keep` blocks. -/
def splitOff (pool : BlockPool) (lane keep : ℕ) : BlockPool :=
  { pool with
    free := ((pool.laneBlocks lane).drop keep).reverse ++ pool.free
    tables := pool.tables.modify lane (·.take keep) }

/-- Undo the growth of every lane grown so far this round. -/
def rollback (pool : BlockPool) (grown : List (ℕ × ℕ)) : BlockPool :=
  grown.foldl (fun pool entry => pool.splitOff entry.1 entry.2) pool

/-- Grow every lane of a round in turn. `grown` lists the lanes already grown
with the table sizes they had before; the first lane that cannot grow undoes
them all. -/
def growRound (seqLen : ℕ) :
    List ℕ → List (ℕ × ℕ) → BlockPool → Except PoolExhausted Unit × BlockPool
  | [], _, pool => (.ok (), pool)
  | lane :: lanes, grown, pool =>
    let before := (pool.laneBlocks lane).length
    match pool.growTable lane (addWord (pool.laneLen lane) seqLen) with
    | .ok next => growRound seqLen lanes (grown ++ [(lane, before)]) next
    | .error exhausted => (.error exhausted, pool.rollback grown)

def advance (seqLen : ℕ) (pool : BlockPool) (lane : ℕ) : BlockPool :=
  { pool with lens := pool.lens.modify lane (addWord · seqLen) }

/-- Commit one round of `seqLen` new tokens over the given lanes, returning the
lengths from before it. -/
def beginRound (pool : BlockPool) (lanes : List ℕ) (seqLen : ℕ) :
    Except PoolExhausted (List ℕ) × BlockPool :=
  match growRound seqLen lanes [] pool with
  | (.error exhausted, after) => (.error exhausted, after)
  | (.ok (), grown) => (.ok (lanes.map grown.laneLen), lanes.foldl (advance seqLen) grown)

/-- Return every one of a lane's blocks to the free stack and zero its length. -/
def freeLane (pool : BlockPool) (lane : ℕ) : BlockPool :=
  { pool with
    free := (pool.laneBlocks lane).reverse ++ pool.free
    tables := pool.tables.modify lane (fun _ => [])
    lens := pool.lens.modify lane (fun _ => 0) }

/-! ## Popping blocks -/

/-- While the stack lasts, popping and pushing one at a time moves the top of
the stack onto the table in order. -/
theorem takeBlocks_eq (lane count : ℕ) (pool : BlockPool) (hcount : count ≤ pool.free.length) :
    takeBlocks lane count pool =
      { pool with
        free := pool.free.drop count
        tables := pool.tables.modify lane (· ++ pool.free.take count) } := by
  induction count generalizing pool with
  | zero => simp [takeBlocks]
  | succ count ih =>
      obtain ⟨blockSize, free, tables, lens⟩ := pool
      cases free with
      | nil => simp at hcount
      | cons block rest =>
          simp only [List.length_cons, Nat.add_le_add_iff_right] at hcount
          simp only [takeBlocks]
          rw [ih _ (by simpa using hcount)]
          simp [List.modify_modify_eq, Function.comp_def]

/-- What growing one lane can do: nothing because the table already covers the
length, a move of the missing blocks off the stack, or a refusal that touches
nothing and reports the lane's own shortfall. -/
theorem growTable_cases (lane newLen : ℕ) :
    let need := pool.blocksFor newLen - (pool.laneBlocks lane).length
    (need ≤ pool.free.length ∧ pool.growTable lane newLen =
        .ok { pool with
          free := pool.free.drop need
          tables := pool.tables.modify lane (· ++ pool.free.take need) }) ∨
      (pool.free.length < need ∧
        pool.growTable lane newLen = .error ⟨need - pool.free.length⟩) := by
  intro need
  by_cases hcovered : pool.blocksFor newLen ≤ (pool.laneBlocks lane).length
  · have hneed : need = 0 := Nat.sub_eq_zero_of_le hcovered
    refine Or.inl ⟨by omega, ?_⟩
    simp [growTable, hcovered, hneed]
  · by_cases hshort : pool.free.length < need
    · exact Or.inr ⟨hshort, by simp [growTable, hcovered, need] at hshort ⊢; omega⟩
    · refine Or.inl ⟨not_lt.mp hshort, ?_⟩
      rw [growTable, if_neg hcovered, if_neg hshort, takeBlocks_eq _ _ _ (not_lt.mp hshort)]

end BlockPool

end BurnLm.PagedKv
