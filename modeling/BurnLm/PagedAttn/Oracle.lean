/-
# The reference recurrence

One decode round attends one query position per lane over that lane's cached
keys. The reference walks the lane's block table, stops at the lane's length and
updates `(m, l, acc)` for every query head that shares the key/value head. Read
back, each output row is one online-softmax pass over the positions `0..len`.

Arithmetic is that of an ordered field with a given exponential, so an
accumulating loop is a sum. Buffers are functions of a flat index, and entries
past a buffer's end mean nothing; the length checks on the slices have no
counterpart.
-/

import Mathlib.Tactic.Positivity
import BurnLm.Math.Flat
import BurnLm.Math.OnlineSoftmax

namespace BurnLm.PagedAttn

open BurnLm.Math
open scoped BigOperators

universe u

/-- The geometry one decode round attends over. -/
structure DecodeShape (K : Type u) where
  n : ℕ
  numKvHeads : ℕ
  /-- Query heads per key/value head. -/
  nRep : ℕ
  headDim : ℕ
  blockSize : ℕ
  blocksPerLane : ℕ
  scale : K

def DecodeShape.numHeads {K : Type u} (shape : DecodeShape K) : ℕ := shape.numKvHeads * shape.nRep

structure Operands (E : Type u) where
  /-- `[n, num_heads, head_dim]`. -/
  q : ℕ → E
  /-- `[num_blocks, block_size, num_kv_heads, head_dim]`. -/
  kPool : ℕ → E
  vPool : ℕ → E
  /-- `[n * blocks_per_lane]`. -/
  blockTable : ℕ → ℕ
  /-- `[n]`. -/
  lengths : ℕ → ℕ

variable {K : Type u} [Field K] [LinearOrder K]

/-- The finite score a pass starts from. -/
def negSentinel : K := -(34028235 * 10 ^ 31)

/-- What a denominator is clamped to. -/
def minDenominator : K := 1 / 10 ^ 30

structure HeadState (K : Type u) (headDim : ℕ) where
  m : K
  l : K
  acc : Fin headDim → K

namespace HeadState

variable {headDim : ℕ} (exp : K → K)

def init : HeadState K headDim := ⟨negSentinel, 0, fun _ => 0⟩

/-- The rescale: one key with its score and its row of values. -/
def rescale (state : HeadState K headDim) (s : K) (v : Fin headDim → K) : HeadState K headDim :=
  let mNew := max state.m s
  let alpha := exp (state.m - mNew)
  let p := exp (s - mNew)
  { m := mNew
    l := state.l * alpha + p
    acc := fun d => state.acc d * alpha + p * v d }

end HeadState

section Reference

variable (exp : K → K) (operands : Operands K) (shape : DecodeShape K)

def score (lane kvHead row g : ℕ) : K :=
  let head := kvHead * shape.nRep + g
  let qbase := (lane * shape.numHeads + head) * shape.headDim
  let dot := ∑ d : Fin shape.headDim, operands.q (qbase + d) * operands.kPool (row + d)
  dot * shape.scale

/-- One key, for all query heads that share it. -/
def attendKey (lane kvHead row : ℕ) (states : Fin shape.nRep → HeadState K shape.headDim) :
    Fin shape.nRep → HeadState K shape.headDim := fun g =>
  (states g).rescale exp (score operands shape lane kvHead row g) fun d => operands.vPool (row + d)

/-- One lane and key/value head: its blocks, and the live positions of each. -/
def walkLane (lane kvHead : ℕ) : Fin shape.nRep → HeadState K shape.headDim :=
  let len := operands.lengths lane
  let nBlocks := len ⌈/⌉ shape.blockSize
  (List.range nBlocks).foldl (fun states b =>
    let blk := operands.blockTable (lane * shape.blocksPerLane + b)
    let live := min shape.blockSize (len - b * shape.blockSize)
    (List.range live).foldl (fun states t =>
      let row := ((blk * shape.blockSize + t) * shape.numKvHeads + kvHead) * shape.headDim
      attendKey exp operands shape lane kvHead row states) states) fun _ => .init

def laneWrites (lane kvHead : ℕ) : List (ℕ × K) :=
  let states := walkLane exp operands shape lane kvHead
  (List.finRange shape.nRep).flatMap fun g : Fin shape.nRep =>
    let head := kvHead * shape.nRep + g
    let obase := (lane * shape.numHeads + head) * shape.headDim
    let inv := 1 / max (states g).l minDenominator
    (List.finRange shape.headDim).map fun d : Fin shape.headDim =>
      (obase + d, (states g).acc d * inv)

/-- Attend one query position per lane. A lane without a position panics. -/
def decodeReferenceOnline : Option (ℕ → K) :=
  if ∀ lane < shape.n, 1 ≤ operands.lengths lane then
    some (store (fun _ => 0)
      ((List.range shape.n).flatMap fun lane =>
        (List.range shape.numKvHeads).flatMap fun kvHead =>
          laneWrites exp operands shape lane kvHead))
  else none

end Reference

/-! ## A row of the output is one pass -/

namespace HeadState

variable {headDim : ℕ} {exp : K → K}

/-- A head's state as what an online-softmax pass holds. -/
def running (state : HeadState K headDim) : Softmax.Running K (Fin headDim → K) :=
  ⟨state.m, state.l, state.acc⟩

theorem running_rescale (state : HeadState K headDim) (s : K) (v : Fin headDim → K) :
    (state.rescale exp s v).running = state.running.absorb exp s v := by
  simp only [running, rescale, Softmax.Running.absorb, Softmax.Running.mk.injEq, true_and]
  funext d
  simp [mul_comm]

end HeadState

section Pass

variable (exp : K → K) (operands : Operands K) (shape : DecodeShape K)

/-- Where a position of a lane starts in the pools. -/
def keyRow (lane kvHead position : ℕ) : ℕ :=
  ((operands.blockTable (lane * shape.blocksPerLane + position / shape.blockSize) *
    shape.blockSize + position % shape.blockSize) * shape.numKvHeads + kvHead) * shape.headDim

/-- The scores and value rows a query head passes over. -/
def headKeys (lane kvHead g : ℕ) (positions : List ℕ) : List (K × (Fin shape.headDim → K)) :=
  positions.map fun position =>
    (score operands shape lane kvHead (keyRow operands shape lane kvHead position) g,
      fun d => operands.vPool (keyRow operands shape lane kvHead position + d))

/-- No key of any lane scores below the sentinel. -/
def AboveSentinel : Prop :=
  ∀ lane < shape.n, ∀ kvHead < shape.numKvHeads, ∀ g < shape.nRep,
    ∀ position < operands.lengths lane,
      negSentinel ≤ score operands shape lane kvHead (keyRow operands shape lane kvHead position) g

/-- The walk over blocks is a walk over positions. -/
theorem walkLane_eq_foldl (hblock : 0 < shape.blockSize) (lane kvHead : ℕ) :
    walkLane exp operands shape lane kvHead =
      (List.range (operands.lengths lane)).foldl (fun states position =>
        attendKey exp operands shape lane kvHead
          (keyRow operands shape lane kvHead position) states) fun _ => .init := by
  rw [← flatMap_blockPositions _ hblock, List.foldl_flatMap, walkLane]
  refine List.foldl_ext _ _ _ fun states b _ => ?_
  rw [blockPositions, List.foldl_map]
  refine List.foldl_ext _ _ _ fun states t ht => ?_
  obtain ⟨hdiv, hmod, _⟩ := block_position (List.mem_range.mp ht)
  rw [keyRow, hdiv, hmod]

/-- **The reference is one pass per query head** over the lane's positions. -/
theorem running_walkLane (hblock : 0 < shape.blockSize) (lane kvHead : ℕ) (g : Fin shape.nRep) :
    (walkLane exp operands shape lane kvHead g).running =
      Softmax.walk exp negSentinel
        (headKeys operands shape lane kvHead g (List.range (operands.lengths lane))) := by
  rw [walkLane_eq_foldl exp operands shape hblock]
  induction List.range (operands.lengths lane) using List.reverseRecOn with
  | nil => rfl
  | append_singleton positions position ih =>
      rw [List.foldl_append, headKeys, List.map_append, Softmax.walk, List.foldl_append,
        ← Softmax.walk]
      simp only [List.foldl_cons, List.foldl_nil, List.map_cons, List.map_nil, attendKey,
        HeadState.running_rescale, ih, headKeys]

/-- The output buffer is written from end to end, in order. -/
theorem indices_writes :
    ((List.range shape.n).flatMap fun lane => (List.range shape.numKvHeads).flatMap fun kvHead =>
      laneWrites exp operands shape lane kvHead).map Prod.fst =
        List.range (shape.n * shape.numHeads * shape.headDim) := by
  have hlane : ∀ lane kvHead, (laneWrites exp operands shape lane kvHead).map Prod.fst =
      (List.range shape.nRep).flatMap fun g => (List.range shape.headDim).map
        ((lane * shape.numHeads + (kvHead * shape.nRep + g)) * shape.headDim + ·) := by
    intro lane kvHead
    rw [laneWrites, List.map_flatMap, ← flatMap_finRange]
    refine List.flatMap_congr fun g _ => ?_
    rw [← List.map_coe_finRange_eq_range, List.map_map, List.map_map]
    rfl
  simp only [List.map_flatMap, hlane]
  rw [range_mul, flatMap_range_mul]
  refine List.flatMap_congr fun lane _ => ?_
  rw [DecodeShape.numHeads, flatMap_range_mul]

/-- What the reference returns, entry by entry. -/
theorem exists_decodeReferenceOnline (hblock : 0 < shape.blockSize)
    (hlens : ∀ lane < shape.n, 1 ≤ operands.lengths lane) :
    ∃ out, decodeReferenceOnline exp operands shape = some out ∧
      ∀ lane < shape.n, ∀ kvHead < shape.numKvHeads, ∀ (g : Fin shape.nRep)
        (d : Fin shape.headDim),
        let pass := Softmax.walk exp negSentinel
          (headKeys operands shape lane kvHead g (List.range (operands.lengths lane)))
        out ((lane * shape.numHeads + (kvHead * shape.nRep + g)) * shape.headDim + d) =
          pass.acc d * (1 / max pass.weight minDenominator) := by
  refine ⟨_, if_pos hlens, fun lane hlane kvHead hkvHead g d => ?_⟩
  intro pass
  have hpass : pass = (walkLane exp operands shape lane kvHead g).running :=
    (running_walkLane exp operands shape hblock lane kvHead g).symm
  refine store_of_nodup _ ?_ ?_
  · rw [indices_writes]
    exact List.nodup_range
  · refine List.mem_flatMap.mpr ⟨lane, List.mem_range.mpr hlane, List.mem_flatMap.mpr
      ⟨kvHead, List.mem_range.mpr hkvHead, List.mem_flatMap.mpr ⟨g, List.mem_finRange g,
        List.mem_map.mpr ⟨d, List.mem_finRange d, ?_⟩⟩⟩⟩
    rw [hpass]
    rfl

section Denominator

variable [IsStrictOrderedRing K] {exp operands shape}

theorem minDenominator_le_one : (minDenominator : K) ≤ 1 := by
  rw [minDenominator]
  exact div_le_one_of_le₀ (one_le_pow₀ (by norm_num)) (by positivity)

/-- **The clamp never decides**: no score below the sentinel leaves every denominator
at least one. -/
theorem one_le_denominator (hexp : Exponential exp) (hblock : 0 < shape.blockSize)
    (hlens : ∀ lane < shape.n, 1 ≤ operands.lengths lane)
    (habove : AboveSentinel operands shape) {lane kvHead : ℕ} (hlane : lane < shape.n)
    (hkvHead : kvHead < shape.numKvHeads) (g : Fin shape.nRep) :
    1 ≤ (walkLane exp operands shape lane kvHead g).l := by
  have hpass := congrArg Softmax.Running.weight
    (running_walkLane exp operands shape hblock lane kvHead g)
  refine (Softmax.one_le_weight hexp ?_).trans_eq hpass.symm
  exact ⟨_, List.mem_map.mpr ⟨0, List.mem_range.mpr (hlens lane hlane), rfl⟩,
    habove lane hlane kvHead hkvHead g g.isLt 0 (hlens lane hlane)⟩

/-- **What the reference returns is the softmax** of the scores over the lane's values. -/
theorem exists_decodeReferenceOnline_softmax (hexp : Exponential exp)
    (hblock : 0 < shape.blockSize) (hlens : ∀ lane < shape.n, 1 ≤ operands.lengths lane)
    (habove : AboveSentinel operands shape) :
    ∃ out, decodeReferenceOnline exp operands shape = some out ∧
      ∀ lane < shape.n, ∀ kvHead < shape.numKvHeads, ∀ (g : Fin shape.nRep)
        (d : Fin shape.headDim),
        let keys := headKeys operands shape lane kvHead g (List.range (operands.lengths lane))
        out ((lane * shape.numHeads + (kvHead * shape.nRep + g)) * shape.headDim + d) =
          ((Softmax.weightAt exp 0 keys)⁻¹ • Softmax.valueAt exp 0 keys) d := by
  obtain ⟨out, hout, hentry⟩ := exists_decodeReferenceOnline exp operands shape hblock hlens
  refine ⟨out, hout, fun lane hlane kvHead hkvHead g d => ?_⟩
  intro keys
  have hone := one_le_denominator hexp hblock hlens habove hlane hkvHead g
  have hpass := running_walkLane exp operands shape hblock lane kvHead g
  rw [show (walkLane exp operands shape lane kvHead g).l = _ from
    congrArg Softmax.Running.weight hpass] at hone
  rw [hentry lane hlane kvHead hkvHead g d, max_eq_left (minDenominator_le_one.trans hone),
    ← Softmax.weight_inv_smul_acc hexp negSentinel, Pi.smul_apply, smul_eq_mul, one_div,
    mul_comm]

end Denominator

end Pass

end BurnLm.PagedAttn
