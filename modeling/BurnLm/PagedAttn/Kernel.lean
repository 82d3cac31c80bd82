/-
# The decode kernel

A cube owns one lane and key/value head. Its planes share the lane's blocks out
in strides, and the units of a plane share every head row out in strides of
vector slots, so each unit holds its own slice of the row for every query head.
A plane's units run in lockstep and meet only in `planeSum`; the planes meet once,
at the barrier before their partial states are merged.

The registers of a unit are grouped by query head. Beside its registers a plane
keeps what the proofs talk about and the kernel does not: the positions it took
in, and the loads it made.
-/

import BurnLm.PagedAttn.Oracle

namespace BurnLm.PagedAttn

open BurnLm.Math
open scoped BigOperators

universe u

/-- A vector register. -/
abbrev Vec (K : Type u) (width : ℕ) : Type u := Fin width → K

/-- How one launch divides the work: elements per vector, units per plane and
planes per cube. -/
structure Geometry (headDim : ℕ) where
  width : ℕ
  planeDim : ℕ
  planes : ℕ
  width_pos : 0 < width
  width_dvd : width ∣ headDim
  planeDim_pos : 0 < planeDim
  planes_pos : 0 < planes

namespace Geometry

variable {headDim : ℕ} (geometry : Geometry headDim)

/-- Vector slots per head row. -/
def slots : ℕ := headDim / geometry.width

/-- Slots per unit. -/
def dpu : ℕ := geometry.slots ⌈/⌉ geometry.planeDim

/-- The slot of a unit at one of its steps; the last step can pass the row. -/
def slotAt (u : Fin geometry.planeDim) (i : Fin geometry.dpu) : ℕ := u + i * geometry.planeDim

end Geometry

/-- A load from a buffer, with the key position it is made for. -/
inductive Read
  | query (index : ℕ)
  | table (index : ℕ)
  | key (position index : ℕ)
  | value (position index : ℕ)
  deriving DecidableEq, Repr

variable {K : Type u} [Field K] [LinearOrder K]

/-- One value in every element. -/
def splat {width : ℕ} (value : K) : Vec K width := fun _ => value

/-- Where a masked read lands: its own slot, or slot 0 past the row. -/
def maskedIndex (base slot slots : ℕ) : ℕ := base + if slot < slots then slot else 0

/-- Load one slot of a head row, with the ragged tail folded to an exact zero. -/
def readMasked {width : ℕ} (tensor : ℕ → Vec K width) (base slot slots : ℕ) : Vec K width :=
  tensor (maskedIndex base slot slots) * splat (if slot < slots then 1 else 0)

/-- Sum a vector's own elements. -/
def horizontalSum {width : ℕ} (v : Vec K width) : K := ∑ k, v k

/-- What a unit holds for one query head. -/
structure Registers (K : Type u) (dpu width : ℕ) where
  m : K
  l : K
  acc : Fin dpu → Vec K width

namespace Registers

variable {dpu width : ℕ} (exp : K → K)

/-- Before the first key. -/
def init : Registers K dpu width := ⟨negSentinel, 0, fun _ => splat 0⟩

/-- Online softmax: one key with its score and the unit's slots of its value row. -/
def rescale (registers : Registers K dpu width) (s : K) (vv : Fin dpu → Vec K width) :
    Registers K dpu width :=
  let mNew := max registers.m s
  let alpha := exp (registers.m - mNew)
  let weight := exp (s - mNew)
  { m := mNew
    l := registers.l * alpha + weight
    acc := fun i => registers.acc i * splat alpha + splat weight * vv i }

end Registers

/-- A plane's units, and a record of its walk. -/
structure PlaneState (K : Type u) (nRep : ℕ) {headDim : ℕ} (geometry : Geometry headDim) where
  units : Fin geometry.planeDim → Fin nRep → Registers K geometry.dpu geometry.width
  /-- The positions taken in so far. -/
  consumed : List ℕ
  /-- The loads made so far. -/
  reads : List Read

/-- The arrays the planes of a cube share. -/
structure Shared (K : Type u) (width : ℕ) where
  partM : ℕ → K
  partL : ℕ → K
  partAcc : ℕ → Vec K width

section Kernel

variable (exp : K → K) (shape : DecodeShape K) (geometry : Geometry shape.headDim)
  (planeSum : (Fin geometry.planeDim → K) → K) (operands : Operands (Vec K geometry.width))

/-- Where the plane's units read a row. -/
def rowLoads (base : ℕ) : List ℕ :=
  (List.finRange geometry.planeDim).flatMap fun u : Fin geometry.planeDim =>
    (List.finRange geometry.dpu).map fun i : Fin geometry.dpu =>
      maskedIndex base (geometry.slotAt u i) geometry.slots

/-- Where the query row of a head starts. -/
def queryBase (lane kvHead g : ℕ) : ℕ :=
  let head := kvHead * shape.nRep + g
  (lane * shape.numHeads + head) * geometry.slots

/-- A plane before its first block: the query rows loaded, nothing accumulated. -/
def planeStart (lane kvHead : ℕ) : PlaneState K shape.nRep geometry where
  units _ _ := .init
  consumed := []
  reads := (List.finRange shape.nRep).flatMap fun g : Fin shape.nRep =>
    (rowLoads shape geometry (queryBase shape geometry lane kvHead g)).map .query

/-- The plane's score of one key row for one query head. -/
def planeScore (lane kvHead row g : ℕ) : K :=
  let qv := fun u i => readMasked operands.q (queryBase shape geometry lane kvHead g)
    (geometry.slotAt u i) geometry.slots
  let kv := fun u i => readMasked operands.kPool row (geometry.slotAt u i) geometry.slots
  let part := fun u => ∑ i : Fin geometry.dpu, qv u i * kv u i
  planeSum (fun u => horizontalSum (part u)) * shape.scale

/-- One key, read once for all query heads. -/
def planeKey (lane kvHead position row : ℕ) (plane : PlaneState K shape.nRep geometry) :
    PlaneState K shape.nRep geometry :=
  let s := planeScore shape geometry planeSum operands lane kvHead row
  let vv := fun u i => readMasked operands.vPool row (geometry.slotAt u i) geometry.slots
  { units := fun u g => (plane.units u g).rescale exp (s g) (vv u)
    consumed := plane.consumed ++ [position]
    reads := plane.reads ++ (rowLoads shape geometry row).map (.key position) ++
      (rowLoads shape geometry row).map (.value position) }

/-- One block: its table entry, then its live positions. -/
def planeBlock (lane kvHead : ℕ) (plane : PlaneState K shape.nRep geometry) (b : ℕ) :
    PlaneState K shape.nRep geometry :=
  let len := operands.lengths lane
  let bs := shape.blockSize
  let entry := lane * shape.blocksPerLane + b
  let base := operands.blockTable entry * bs
  let remaining := len - b * bs
  let live := min bs remaining
  (List.range live).foldl (fun plane t =>
    let row := ((base + t) * shape.numKvHeads + kvHead) * geometry.slots
    planeKey exp shape geometry planeSum operands lane kvHead (b * bs + t) row plane)
    { plane with reads := plane.reads ++ [.table entry] }

/-- Plane `p` takes blocks `p`, `p + planes`, and so on while there are any. -/
def planeWalk (lane kvHead p : ℕ) : PlaneState K shape.nRep geometry :=
  let len := operands.lengths lane
  let nBlocks := (len + shape.blockSize - 1) / shape.blockSize
  (loop (fun (turn : ℕ × PlaneState K shape.nRep geometry) =>
    if turn.1 < nBlocks then
      (true, (turn.1 + geometry.planes,
        planeBlock exp shape geometry planeSum operands lane kvHead turn.2 turn.1))
    else (false, turn)) (nBlocks + 1) (p, planeStart shape geometry lane kvHead)).2

/-- A unit divides its slots of one query head and stores those inside the row. -/
def headStores (outScale : K) (lane kvHead : ℕ) (u : Fin geometry.planeDim)
    (g : Fin shape.nRep) (l : K) (acc : Fin geometry.dpu → Vec K geometry.width) :
    List (ℕ × Vec K geometry.width) :=
  let obase := queryBase shape geometry lane kvHead g
  let inv := splat (outScale / max l minDenominator)
  (List.finRange geometry.dpu).flatMap fun i : Fin geometry.dpu =>
    let slot := geometry.slotAt u i
    if slot < geometry.slots then [(obase + slot, acc i * inv)] else []

/-- Where a unit leaves one step of its accumulator for the merge. -/
def partIndex (p g i u : ℕ) : ℕ :=
  ((p * shape.nRep + g) * geometry.dpu + i) * geometry.planeDim + u

/-- What the planes leave of a head's scalars: unit 0 writes for its plane. -/
def headParts (plane : ℕ → PlaneState K shape.nRep geometry)
    (value : Registers K geometry.dpu geometry.width → K) : List (ℕ × K) :=
  (List.range geometry.planes).flatMap fun p =>
    (List.finRange geometry.planeDim).flatMap fun u : Fin geometry.planeDim =>
      (List.finRange shape.nRep).flatMap fun g : Fin shape.nRep =>
        if (u : ℕ) = 0 then [(p * shape.nRep + g, value ((plane p).units u g))] else []

/-- What the planes leave of the accumulators: every unit its own steps. -/
def accParts (plane : ℕ → PlaneState K shape.nRep geometry) : List (ℕ × Vec K geometry.width) :=
  (List.range geometry.planes).flatMap fun p =>
    (List.finRange geometry.planeDim).flatMap fun u : Fin geometry.planeDim =>
      (List.finRange shape.nRep).flatMap fun g : Fin shape.nRep =>
        (List.finRange geometry.dpu).map fun i : Fin geometry.dpu =>
          (partIndex shape geometry p g i u, ((plane p).units u g).acc i)

/-- The shared arrays at the barrier: every plane has left its partial state. -/
def sharedAtBarrier (scratch : Shared K geometry.width)
    (plane : ℕ → PlaneState K shape.nRep geometry) : Shared K geometry.width where
  partM := store scratch.partM (headParts shape geometry plane (·.m))
  partL := store scratch.partL (headParts shape geometry plane (·.l))
  partAcc := store scratch.partAcc (accParts shape geometry plane)

/-- What a unit of plane 0 merges for one query head. -/
def mergeParts (shared : Shared K geometry.width) (u g : ℕ) :
    Registers K geometry.dpu geometry.width :=
  let mAll := (List.range' 1 (geometry.planes - 1)).foldl (fun mAll other =>
    max mAll (shared.partM (other * shape.nRep + g))) (shared.partM g)
  (List.range geometry.planes).foldl (fun merged other =>
    let alpha := exp (shared.partM (other * shape.nRep + g) - mAll)
    { merged with
      l := merged.l + shared.partL (other * shape.nRep + g) * alpha
      acc := fun i => merged.acc i +
        shared.partAcc (partIndex shape geometry other g i u) * splat alpha })
    ⟨mAll, 0, fun _ => splat 0⟩

/-- What a finishing unit divides. With a single plane there is nothing to merge;
otherwise the units of plane 0 merge. -/
def finalRegisters (scratch : Shared K geometry.width) (lane kvHead : ℕ)
    (u : Fin geometry.planeDim) (g : Fin shape.nRep) : Registers K geometry.dpu geometry.width :=
  let plane := planeWalk exp shape geometry planeSum operands lane kvHead
  if geometry.planes = 1 then (plane 0).units u g
  else mergeParts exp shape geometry (sharedAtBarrier shape geometry scratch plane) u g

/-- What the units of one cube store. -/
def cubeStores (outScale : K) (scratch : Shared K geometry.width) (lane kvHead : ℕ) :
    List (ℕ × Vec K geometry.width) :=
  (List.finRange geometry.planeDim).flatMap fun u : Fin geometry.planeDim =>
    (List.finRange shape.nRep).flatMap fun g : Fin shape.nRep =>
      let final := finalRegisters exp shape geometry planeSum operands scratch lane kvHead u g
      headStores shape geometry outScale lane kvHead u g final.l final.acc

/-- Everything one launch stores, over a grid of one cube per lane and
key/value head. -/
def gridStores (outScale : K) (scratch : ℕ → ℕ → Shared K geometry.width) :
    List (ℕ × Vec K geometry.width) :=
  (List.range shape.n).flatMap fun lane =>
    (List.range shape.numKvHeads).flatMap fun kvHead =>
      cubeStores exp shape geometry planeSum operands outScale (scratch lane kvHead) lane kvHead

/-- The output buffer after a launch. Shared memory and the output start out as
whatever they were. -/
def pagedDecodeKernel (outScale : K) (scratch : ℕ → ℕ → Shared K geometry.width)
    (out : ℕ → Vec K geometry.width) : ℕ → Vec K geometry.width :=
  store out (gridStores exp shape geometry planeSum operands outScale scratch)

end Kernel

end BurnLm.PagedAttn
