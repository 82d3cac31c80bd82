/-
# What a plane computes

A plane sees the keys of its own blocks and nothing else. The scores its units
agree on are the reference's scores, whatever the width of the vectors and the
number of units, because the slots of a row are shared out between units without
remainder and a masked slot counts for nothing. So after its walk every unit
holds an online-softmax pass over the plane's positions, restricted to the
channels the unit owns.
-/

import BurnLm.PagedAttn.Kernel

namespace BurnLm.PagedAttn

open BurnLm.Math
open scoped BigOperators

universe u

namespace Geometry

variable {headDim : ℕ} (geometry : Geometry headDim)

/-- A row is its slots. -/
theorem slots_mul_width : geometry.slots * geometry.width = headDim :=
  Nat.div_mul_cancel geometry.width_dvd

/-- An element of a slot is an element of the row. -/
theorem element_lt {slot : ℕ} (hslot : slot < geometry.slots) (k : Fin geometry.width) :
    slot * geometry.width + k < headDim :=
  (Tensor.merged_lt hslot k.isLt).trans_eq geometry.slots_mul_width

/-- The units' steps reach the end of the row. -/
theorem slots_le : geometry.slots ≤ geometry.dpu * geometry.planeDim := by
  have hceil : geometry.slots ≤ geometry.planeDim • geometry.dpu :=
    le_smul_ceilDiv geometry.planeDim_pos
  rwa [smul_eq_mul, Nat.mul_comm] at hceil

/-- A unit with a step to make has a row to read. -/
theorem slots_pos (i : Fin geometry.dpu) : 0 < geometry.slots := by
  rcases Nat.eq_zero_or_pos geometry.slots with hzero | hpos
  · have hdpu : geometry.dpu = 0 := by rw [dpu, hzero, zero_ceilDiv]
    exact absurd i.isLt (by omega)
  · exact hpos

end Geometry

/-! ## Rows in slots -/

section Rows

variable {K : Type u} (shape : DecodeShape K) (geometry : Geometry shape.headDim)
  (operands : Operands K)

/-- A flat buffer read a vector at a time. -/
def vectorized (width : ℕ) (buffer : ℕ → K) : ℕ → Vec K width :=
  fun slot k => buffer (slot * width + k)

/-- The operands of a launch, over the buffers of the reference. -/
def Operands.vectorized (width : ℕ) : Operands (Vec K width) where
  q := PagedAttn.vectorized width operands.q
  kPool := PagedAttn.vectorized width operands.kPool
  vPool := PagedAttn.vectorized width operands.vPool
  blockTable := operands.blockTable
  lengths := operands.lengths

/-- Where a position of a lane starts in the pools, in slots. -/
def slotRow (lane kvHead position : ℕ) : ℕ :=
  ((operands.blockTable (lane * shape.blocksPerLane + position / shape.blockSize) *
    shape.blockSize + position % shape.blockSize) * shape.numKvHeads + kvHead) * geometry.slots

theorem slotRow_mul_width (lane kvHead position : ℕ) :
    slotRow shape geometry operands lane kvHead position * geometry.width =
      keyRow operands shape lane kvHead position := by
  rw [slotRow, keyRow, Nat.mul_assoc, geometry.slots_mul_width]

theorem queryBase_mul_width (lane kvHead g : ℕ) :
    queryBase shape geometry lane kvHead g * geometry.width =
      (lane * shape.numHeads + (kvHead * shape.nRep + g)) * shape.headDim := by
  rw [queryBase, Nat.mul_assoc, geometry.slots_mul_width]

/-- The loads a cube may make: table entries of the lane's live blocks, and slots
inside its query rows and inside the rows of its live positions. -/
def Read.Allowed (lane kvHead : ℕ) : Read → Prop
  | .query index => ∃ g < shape.nRep, ∃ slot < geometry.slots,
      index = queryBase shape geometry lane kvHead g + slot
  | .table index => ∃ b < operands.lengths lane ⌈/⌉ shape.blockSize, b < shape.blocksPerLane ∧
      index = lane * shape.blocksPerLane + b
  | .key position index | .value position index =>
      position < operands.lengths lane ∧ ∃ slot < geometry.slots,
        index = slotRow shape geometry operands lane kvHead position + slot

/-- The units of a plane stay inside the row they read. -/
theorem slot_of_mem_rowLoads {base index : ℕ} (hindex : index ∈ rowLoads shape geometry base) :
    ∃ slot < geometry.slots, index = base + slot := by
  obtain ⟨u, _, hindex⟩ := List.mem_flatMap.mp hindex
  obtain ⟨i, _, rfl⟩ := List.mem_map.mp hindex
  rw [maskedIndex]
  split
  · next hlive => exact ⟨_, hlive, rfl⟩
  · exact ⟨0, geometry.slots_pos i, rfl⟩

/-- The positions of the blocks plane `p` takes. -/
def planePositions (lane p : ℕ) : List ℕ :=
  (strided p geometry.planes (operands.lengths lane ⌈/⌉ shape.blockSize)).flatMap
    (blockPositions (operands.lengths lane) shape.blockSize)

/-- The positions of all planes are the lane's, each once. -/
theorem planePositions_perm (hblock : 0 < shape.blockSize) (lane : ℕ) :
    ((List.range geometry.planes).flatMap (planePositions shape geometry operands lane)).Perm
      (List.range (operands.lengths lane)) :=
  strided_blocks_perm _ hblock geometry.planes_pos

end Rows

theorem readMasked_apply {K : Type u} [Field K] {width : ℕ} (tensor : ℕ → Vec K width)
    (base slot slots : ℕ) (k : Fin width) :
    readMasked tensor base slot slots k = if slot < slots then tensor (base + slot) k else 0 := by
  by_cases hlive : slot < slots
  · simp [readMasked, maskedIndex, splat, hlive]
  · simp [readMasked, splat, hlive]

section Plane

variable {K : Type u} [Field K] [LinearOrder K] (exp : K → K) (shape : DecodeShape K)
  (geometry : Geometry shape.headDim) {planeSum : (Fin geometry.planeDim → K) → K}
  (operands : Operands K)

/-! ## Scores -/

omit [LinearOrder K] in
/-- **The plane's score is the reference's**: the units' slots make up the row. -/
theorem planeScore_eq (hsum : ∀ part, planeSum part = ∑ u, part u) (lane kvHead row g : ℕ) :
    planeScore shape geometry planeSum (operands.vectorized geometry.width) lane kvHead row g =
      score operands shape lane kvHead (row * geometry.width) g := by
  let product := fun d => operands.q (queryBase shape geometry lane kvHead g * geometry.width + d) *
    operands.kPool (row * geometry.width + d)
  have hunit : ∀ (u : Fin geometry.planeDim) (i : Fin geometry.dpu) (k : Fin geometry.width),
      (readMasked (operands.vectorized geometry.width).q
          (queryBase shape geometry lane kvHead g) (geometry.slotAt u i) geometry.slots *
        readMasked (operands.vectorized geometry.width).kPool row (geometry.slotAt u i)
          geometry.slots) k =
        if (u : ℕ) + (i : ℕ) * geometry.planeDim < geometry.slots then
          product ((u + i * geometry.planeDim) * geometry.width + k) else 0 := by
    intro u i k
    rw [Pi.mul_apply, readMasked_apply, readMasked_apply, Geometry.slotAt]
    split
    · simp only [Operands.vectorized, vectorized, product, Nat.add_mul, Nat.add_assoc]
    · exact mul_zero 0
  rw [planeScore, score, hsum]
  congr 1
  calc ∑ u : Fin geometry.planeDim, horizontalSum (∑ i : Fin geometry.dpu,
        readMasked (operands.vectorized geometry.width).q
            (queryBase shape geometry lane kvHead g) (geometry.slotAt u i) geometry.slots *
          readMasked (operands.vectorized geometry.width).kPool row (geometry.slotAt u i)
            geometry.slots)
    _ = ∑ u : Fin geometry.planeDim, ∑ k : Fin geometry.width, ∑ i : Fin geometry.dpu,
          if (u : ℕ) + (i : ℕ) * geometry.planeDim < geometry.slots then
            product ((u + i * geometry.planeDim) * geometry.width + k) else 0 := by
        refine Finset.sum_congr rfl fun u _ => Finset.sum_congr rfl fun k _ => ?_
        rw [Finset.sum_apply]
        exact Finset.sum_congr rfl fun i _ => hunit u i k
    _ = ∑ k : Fin geometry.width, ∑ slot ∈ Finset.range geometry.slots,
          product (slot * geometry.width + k) := by
        rw [Finset.sum_comm]
        exact Finset.sum_congr rfl fun k _ =>
          sum_unrolled geometry.slots_le fun slot => product (slot * geometry.width + k)
    _ = ∑ slot ∈ Finset.range geometry.slots, ∑ k ∈ Finset.range geometry.width,
          product (slot * geometry.width + k) := by
        rw [Finset.sum_comm]
        exact Finset.sum_congr rfl fun slot _ =>
          Fin.sum_univ_eq_sum_range (fun k => product (slot * geometry.width + k)) _
    _ = ∑ d : Fin shape.headDim, product d := by
        rw [← sum_range_mul, geometry.slots_mul_width, Fin.sum_univ_eq_sum_range]
    _ = _ := by
        simp only [product, queryBase_mul_width]

/-! ## The walk -/

/-- The scores and values one unit passes over for one query head. -/
def unitKeys (lane kvHead : ℕ) (u : Fin geometry.planeDim) (g : ℕ) (positions : List ℕ) :
    List (K × (Fin geometry.dpu → Vec K geometry.width)) :=
  positions.map fun position =>
    (score operands shape lane kvHead (keyRow operands shape lane kvHead position) g,
      fun i => readMasked (vectorized geometry.width operands.vPool)
        (slotRow shape geometry operands lane kvHead position) (geometry.slotAt u i)
        geometry.slots)

namespace Registers

variable {dpu width : ℕ} {exp}

/-- A unit's registers as what an online-softmax pass holds. -/
def running (registers : Registers K dpu width) : Softmax.Running K (Fin dpu → Vec K width) :=
  ⟨registers.m, registers.l, registers.acc⟩

theorem running_rescale (registers : Registers K dpu width) (s : K) (vv : Fin dpu → Vec K width) :
    (registers.rescale exp s vv).running = registers.running.absorb exp s vv := by
  simp only [running, rescale, Softmax.Running.absorb, Softmax.Running.mk.injEq, true_and]
  funext i k
  simp [splat, mul_comm]

end Registers

/-- A plane that has taken in some positions of its lane. -/
structure PlaneState.Walked (lane kvHead : ℕ) (positions : List ℕ)
    (plane : PlaneState K shape.nRep geometry) : Prop where
  units : ∀ u g, (plane.units u g).running =
    Softmax.walk exp negSentinel (unitKeys shape geometry operands lane kvHead u g positions)
  consumed : plane.consumed = positions
  reads : ∀ read ∈ plane.reads, Read.Allowed shape geometry operands lane kvHead read

namespace PlaneState.Walked

variable {exp shape geometry operands} {lane kvHead : ℕ} {positions : List ℕ}
  {plane : PlaneState K shape.nRep geometry}

/-- Before the first block nothing is taken in. -/
theorem start : (planeStart shape geometry lane kvHead).Walked exp shape geometry operands lane
    kvHead [] where
  units _ _ := rfl
  consumed := rfl
  reads read hread := by
    obtain ⟨g, _, hread⟩ := List.mem_flatMap.mp hread
    obtain ⟨index, hindex, rfl⟩ := List.mem_map.mp hread
    obtain ⟨slot, hslot, rfl⟩ := slot_of_mem_rowLoads shape geometry hindex
    exact ⟨g, g.isLt, slot, hslot, rfl⟩

/-- One key of the lane. -/
theorem key (hplane : plane.Walked exp shape geometry operands lane kvHead positions)
    (hsum : ∀ part, planeSum part = ∑ u, part u) {position : ℕ}
    (hlive : position < operands.lengths lane) :
    (planeKey exp shape geometry planeSum (operands.vectorized geometry.width) lane kvHead position
      (slotRow shape geometry operands lane kvHead position) plane).Walked exp shape geometry
        operands lane kvHead (positions ++ [position]) where
  units u g := by
    rw [planeKey, Registers.running_rescale, hplane.units, planeScore_eq _ _ _ hsum,
      slotRow_mul_width, unitKeys, unitKeys, List.map_append, Softmax.walk, Softmax.walk,
      List.foldl_append]
    rfl
  consumed := by rw [planeKey, hplane.consumed]
  reads read hread := by
    simp only [planeKey, List.mem_append, List.mem_map] at hread
    rcases hread with (hread | ⟨index, hindex, rfl⟩) | ⟨index, hindex, rfl⟩
    · exact hplane.reads read hread
    · exact ⟨hlive, slot_of_mem_rowLoads shape geometry hindex⟩
    · exact ⟨hlive, slot_of_mem_rowLoads shape geometry hindex⟩

/-- One block of the lane. -/
theorem block (hplane : plane.Walked exp shape geometry operands lane kvHead positions)
    (hsum : ∀ part, planeSum part = ∑ u, part u) {b : ℕ}
    (hb : b < operands.lengths lane ⌈/⌉ shape.blockSize)
    (htable : operands.lengths lane ⌈/⌉ shape.blockSize ≤ shape.blocksPerLane) :
    (planeBlock exp shape geometry planeSum (operands.vectorized geometry.width) lane kvHead plane
      b).Walked exp shape geometry operands lane kvHead
        (positions ++ blockPositions (operands.lengths lane) shape.blockSize b) := by
  have hentry : ({ plane with
      reads := plane.reads ++ [.table (lane * shape.blocksPerLane + b)] } :
        PlaneState K shape.nRep geometry).Walked exp shape geometry operands lane kvHead
          positions :=
    { hplane with
      reads := fun read hread => by
        rcases List.mem_append.mp hread with hread | hread
        · exact hplane.reads read hread
        · rw [List.mem_singleton.mp hread]
          exact ⟨b, hb, lt_of_lt_of_le hb htable, rfl⟩ }
  rw [blockPositions, List.map_eq_flatMap]
  refine foldl_flatMap_induction (fun seen state t ht hstate => ?_) hentry
  obtain ⟨hdiv, hmod, hlive⟩ := block_position (List.mem_range.mp ht)
  have hrow : ((operands.blockTable (lane * shape.blocksPerLane + b) * shape.blockSize + t) *
      shape.numKvHeads + kvHead) * geometry.slots =
        slotRow shape geometry operands lane kvHead (b * shape.blockSize + t) := by
    rw [slotRow, hdiv, hmod]
  have hkey := hstate.key hsum hlive
  rw [← hrow] at hkey
  exact hkey

end PlaneState.Walked

/-- **A plane walks its own blocks**, whatever the number of planes. -/
theorem walked_planeWalk (hsum : ∀ part, planeSum part = ∑ u, part u) {lane : ℕ} (kvHead : ℕ)
    (htable : operands.lengths lane ⌈/⌉ shape.blockSize ≤ shape.blocksPerLane) (p : ℕ) :
    (planeWalk exp shape geometry planeSum (operands.vectorized geometry.width) lane kvHead
      p).Walked exp shape geometry operands lane kvHead
        (planePositions shape geometry operands lane p) := by
  rw [planeWalk, loop_strided _ geometry.planes_pos _ (by omega)]
  rw [← List.nil_append (planePositions shape geometry operands lane p)]
  refine foldl_flatMap_induction (fun seen state b hb hstate => ?_) .start
  obtain ⟨turn, hlt, rfl⟩ := (mem_strided geometry.planes_pos).mp hb
  exact hstate.block hsum hlt htable

end Plane

end BurnLm.PagedAttn
