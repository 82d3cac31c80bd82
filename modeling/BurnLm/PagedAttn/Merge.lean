/-
# The kernel against the reference

The planes of a cube hold passes over disjoint parts of a lane's keys. What they
leave in shared memory is read back as it was left, because no two units write to
the same place; merging it is the pass over all keys, in whatever order the planes
had them; and a channel of that pass is a channel of the reference's. Every launch
geometry therefore gives the reference's output, and the stores of a launch hit
every slot of the output once.
-/

import Mathlib.LinearAlgebra.Pi
import BurnLm.PagedAttn.Plane

namespace BurnLm.PagedAttn

open BurnLm.Math
open scoped BigOperators

universe u

/-- Two coordinates packed into one index come apart again. -/
theorem packed_inj {first second at_ other width : ℕ} (hat : at_ < width) (hother : other < width)
    (heq : first * width + at_ = second * width + other) : first = second ∧ at_ = other := by
  obtain ⟨hdiv, hmod⟩ := Tensor.div_mod_of_lt first hat
  obtain ⟨hdiv', hmod'⟩ := Tensor.div_mod_of_lt second hother
  rw [heq] at hdiv hmod
  exact ⟨hdiv.symm.trans hdiv', hmod.symm.trans hmod'⟩

/-- A range is its first index and the others. -/
theorem range_eq_cons {count : ℕ} (hcount : 0 < count) :
    List.range count = 0 :: List.range' 1 (count - 1) := by
  obtain ⟨rest, rfl⟩ := Nat.exists_eq_succ_of_ne_zero hcount.ne'
  rw [List.range_eq_range', List.range'_succ, Nat.succ_sub_one]

section Barrier

variable {K : Type u} (shape : DecodeShape K) (geometry : Geometry shape.headDim)
  (plane : ℕ → PlaneState K shape.nRep geometry)

/-- The unit that writes for its plane. -/
def unitZero : Fin geometry.planeDim := ⟨0, geometry.planeDim_pos⟩

/-- A head's scalar at the barrier is the one unit 0 of the plane left. -/
theorem store_headParts (buffer : ℕ → K) (value : Registers K geometry.dpu geometry.width → K)
    {p : ℕ} (hp : p < geometry.planes) (g : Fin shape.nRep) :
    store buffer (headParts shape geometry plane value) (p * shape.nRep + g) =
      value ((plane p).units (unitZero shape geometry) g) := by
  refine store_of_unique _ ?_ fun other hother => ?_
  · refine List.mem_flatMap.mpr ⟨p, List.mem_range.mpr hp, List.mem_flatMap.mpr
      ⟨unitZero shape geometry, List.mem_finRange _, List.mem_flatMap.mpr
        ⟨g, List.mem_finRange _, ?_⟩⟩⟩
    simp [unitZero]
  · obtain ⟨p', _, hother⟩ := List.mem_flatMap.mp hother
    obtain ⟨u, _, hother⟩ := List.mem_flatMap.mp hother
    obtain ⟨g', _, hother⟩ := List.mem_flatMap.mp hother
    split at hother
    · next hu =>
        rw [List.mem_singleton, Prod.mk.injEq] at hother
        obtain ⟨hindex, rfl⟩ := hother
        obtain ⟨rfl, hg⟩ := packed_inj g.isLt g'.isLt hindex
        obtain rfl : u = unitZero shape geometry := Fin.ext hu
        rw [Fin.ext hg]
    · simp at hother

/-- An accumulator at the barrier is the one its own unit left. -/
theorem store_accParts (buffer : ℕ → Vec K geometry.width) {p : ℕ} (hp : p < geometry.planes)
    (u : Fin geometry.planeDim) (g : Fin shape.nRep) (i : Fin geometry.dpu) :
    store buffer (accParts shape geometry plane) (partIndex shape geometry p g i u) =
      ((plane p).units u g).acc i := by
  refine store_of_unique _ ?_ fun other hother => ?_
  · exact List.mem_flatMap.mpr ⟨p, List.mem_range.mpr hp, List.mem_flatMap.mpr
      ⟨u, List.mem_finRange _, List.mem_flatMap.mpr
        ⟨g, List.mem_finRange _, List.mem_map.mpr ⟨i, List.mem_finRange _, rfl⟩⟩⟩⟩
  · obtain ⟨p', _, hother⟩ := List.mem_flatMap.mp hother
    obtain ⟨u', _, hother⟩ := List.mem_flatMap.mp hother
    obtain ⟨g', _, hother⟩ := List.mem_flatMap.mp hother
    obtain ⟨i', _, hother⟩ := List.mem_map.mp hother
    obtain ⟨hindex, rfl⟩ := Prod.mk.injEq .. ▸ hother
    obtain ⟨hrest, hu⟩ := packed_inj u'.isLt u.isLt hindex
    obtain ⟨hrest, hi⟩ := packed_inj i'.isLt i.isLt hrest
    obtain ⟨rfl, hg⟩ := packed_inj g'.isLt g.isLt hrest
    rw [Fin.ext hu, Fin.ext hi, Fin.ext hg]

end Barrier

section Merge

variable {K : Type u} [Field K] [LinearOrder K] {exp : K → K} {shape : DecodeShape K}
  {geometry : Geometry shape.headDim} {planeSum : (Fin geometry.planeDim → K) → K}
  {operands : Operands K}

/-- The merge over shared memory is the merge of the passes it holds. -/
theorem running_mergeParts (shared : Shared K geometry.width) (u g : ℕ)
    (part : ℕ → Softmax.Running K (Fin geometry.dpu → Vec K geometry.width))
    (hm : ∀ p < geometry.planes, shared.partM (p * shape.nRep + g) = (part p).max)
    (hl : ∀ p < geometry.planes, shared.partL (p * shape.nRep + g) = (part p).weight)
    (hacc : ∀ p < geometry.planes, ∀ i : Fin geometry.dpu,
      shared.partAcc (partIndex shape geometry p g i u) = (part p).acc i) :
    (mergeParts exp shape geometry shared u g).running =
      Softmax.merge exp (part 0) ((List.range' 1 (geometry.planes - 1)).map part) := by
  have hrange := range_eq_cons geometry.planes_pos
  have htop : (List.range' 1 (geometry.planes - 1)).foldl (fun mAll other =>
      max mAll (shared.partM (other * shape.nRep + g))) (shared.partM g) =
        ((List.range' 1 (geometry.planes - 1)).map part).foldl (fun top part => max top part.max)
          (part 0).max := by
    have hfirst := hm 0 geometry.planes_pos
    rw [Nat.zero_mul, Nat.zero_add] at hfirst
    rw [List.foldl_map, hfirst]
    refine List.foldl_ext _ _ _ fun top other hother => ?_
    rw [List.mem_range'_1] at hother
    rw [hm other (by omega)]
  have hsums : ∀ (mAll : K) (others : List ℕ), (∀ other ∈ others, other < geometry.planes) →
      (others.foldl (fun (merged : Registers K geometry.dpu geometry.width) other =>
        let alpha := exp (shared.partM (other * shape.nRep + g) - mAll)
        { merged with
          l := merged.l + shared.partL (other * shape.nRep + g) * alpha
          acc := fun i => merged.acc i +
            shared.partAcc (partIndex shape geometry other g i u) * splat alpha })
        ⟨mAll, 0, fun _ => splat 0⟩).running =
      ⟨mAll, (others.map fun other => (part other).weight * exp ((part other).max - mAll)).sum,
        (others.map fun other => exp ((part other).max - mAll) • (part other).acc).sum⟩ := by
    intro mAll others hothers
    induction others using List.reverseRecOn with
    | nil => rfl
    | append_singleton others other ih =>
        have hother := hothers other (by simp)
        have hbefore := ih fun other hmem => hothers other (List.mem_append_left _ hmem)
        rw [Registers.running, Softmax.Running.mk.injEq] at hbefore
        obtain ⟨hmax, hweight, hvalue⟩ := hbefore
        simp only [List.foldl_append, List.foldl_cons, List.foldl_nil, Registers.running,
          hm other hother, hl other hother, hacc other hother, hmax, hweight, hvalue]
        simp only [List.map_append, List.sum_append, List.map_cons, List.map_nil, List.sum_cons,
          List.sum_nil, add_zero, Softmax.Running.mk.injEq, true_and]
        funext i k
        simp [splat, mul_comm]
  rw [mergeParts, htop, hsums _ _ fun other => List.mem_range.mp, Softmax.merge, hrange]
  simp [List.map_map, Function.comp_def]

/-! ## What a cube stores -/

variable (shape geometry operands) in
omit [LinearOrder K] in
/-- Every unit passes over the same scores. -/
theorem unitKeys_scores (lane kvHead : ℕ) (first second : Fin geometry.planeDim) (g : ℕ)
    (positions : List ℕ) :
    (unitKeys shape geometry operands lane kvHead first g positions).map Prod.fst =
      (unitKeys shape geometry operands lane kvHead second g positions).map Prod.fst := by
  simp [unitKeys]

/-- What planes left at the barrier merges into the pass over all they walked. -/
theorem running_merged (hexp : Exponential exp) {lane kvHead : ℕ} {positions : ℕ → List ℕ}
    {plane : ℕ → PlaneState K shape.nRep geometry}
    (hwalked : ∀ p, (plane p).Walked exp shape geometry operands lane kvHead (positions p))
    (scratch : Shared K geometry.width) (u : Fin geometry.planeDim) (g : Fin shape.nRep) :
    (mergeParts exp shape geometry (sharedAtBarrier shape geometry scratch plane) u g).running =
      Softmax.walk exp negSentinel (unitKeys shape geometry operands lane kvHead u g
        ((List.range geometry.planes).flatMap positions)) := by
  let keys := fun p => unitKeys shape geometry operands lane kvHead u g (positions p)
  let part := fun p => Softmax.walk exp negSentinel (keys p)
  -- every unit holds the same scalars, so those unit 0 left serve them all
  have hscalars : ∀ p, ((plane p).units (unitZero shape geometry) g).m = (part p).max ∧
      ((plane p).units (unitZero shape geometry) g).l = (part p).weight := by
    intro p
    have hzero := (hwalked p).units (unitZero shape geometry) g
    obtain ⟨hmax, hweight⟩ := Softmax.walk_scores exp negSentinel (unitKeys_scores shape geometry
      operands lane kvHead (unitZero shape geometry) u g (positions p))
    exact ⟨(congrArg Softmax.Running.max hzero).trans hmax,
      (congrArg Softmax.Running.weight hzero).trans hweight⟩
  have hmerge : (mergeParts exp shape geometry (sharedAtBarrier shape geometry scratch plane) u
      g).running = Softmax.merge exp (part 0) ((List.range' 1 (geometry.planes - 1)).map part) :=
    running_mergeParts _ u g part
      (fun p hp => (store_headParts shape geometry plane _ _ hp g).trans (hscalars p).1)
      (fun p hp => (store_headParts shape geometry plane _ _ hp g).trans (hscalars p).2)
      (fun p hp i => (store_accParts shape geometry plane _ hp u g i).trans
        (congrFun (congrArg Softmax.Running.acc ((hwalked p).units u g)) i))
  have hkeys : keys 0 ++ ((List.range' 1 (geometry.planes - 1)).map keys).flatten =
      unitKeys shape geometry operands lane kvHead u g
        ((List.range geometry.planes).flatMap positions) := by
    rw [unitKeys, List.map_flatMap, range_eq_cons geometry.planes_pos, List.flatMap_cons,
      List.flatMap_def]
    rfl
  have hparts : (List.range' 1 (geometry.planes - 1)).map part =
      ((List.range' 1 (geometry.planes - 1)).map keys).map (Softmax.walk exp negSentinel) := by
    rw [List.map_map]
    rfl
  rw [hmerge, hparts, Softmax.merge_walk hexp, hkeys]

section Cube

variable (hexp : Exponential exp) (hsum : ∀ part, planeSum part = ∑ u, part u)
  (hblock : 0 < shape.blockSize) {lane : ℕ}
  (htable : operands.lengths lane ⌈/⌉ shape.blockSize ≤ shape.blocksPerLane) (kvHead : ℕ)
include hexp hsum hblock htable

/-- **What a unit finishes with** is the pass over all of the lane's keys, merged or not. -/
theorem running_final (scratch : Shared K geometry.width) (u : Fin geometry.planeDim)
    (g : Fin shape.nRep) :
    (finalRegisters exp shape geometry planeSum (operands.vectorized geometry.width) scratch lane
      kvHead u g).running =
        Softmax.walk exp negSentinel (unitKeys shape geometry operands lane kvHead u g
          (List.range (operands.lengths lane))) := by
  have hwalked := walked_planeWalk exp shape geometry operands hsum kvHead htable
  have hperm := planePositions_perm shape geometry operands hblock lane
  have hsame : Softmax.walk exp negSentinel (unitKeys shape geometry operands lane kvHead u g _) =
      Softmax.walk exp negSentinel (unitKeys shape geometry operands lane kvHead u g _) :=
    Softmax.walk_perm hexp negSentinel (hperm.map _)
  rw [← hsame, finalRegisters]
  split
  · next hsingle =>
      rw [(hwalked 0).units, hsingle]
      simp [unitKeys]
  · exact running_merged hexp hwalked scratch u g

/-- A channel of what a unit finishes with is a channel of the reference's pass. -/
theorem final_channel (scratch : Shared K geometry.width) (u : Fin geometry.planeDim)
    (g : Fin shape.nRep) {i : Fin geometry.dpu} (hslot : geometry.slotAt u i < geometry.slots)
    (k : Fin geometry.width) (d : Fin shape.headDim)
    (hd : (d : ℕ) = geometry.slotAt u i * geometry.width + k) :
    let final := finalRegisters exp shape geometry planeSum (operands.vectorized geometry.width)
      scratch lane kvHead u g
    let pass := Softmax.walk exp negSentinel
      (headKeys operands shape lane kvHead g (List.range (operands.lengths lane)))
    final.l = pass.weight ∧ final.acc i k = pass.acc d := by
  intro final pass
  have hfinal := running_final hexp hsum hblock htable kvHead scratch u g
  let unit := unitKeys shape geometry operands lane kvHead u g
    (List.range (operands.lengths lane))
  let row := headKeys operands shape lane kvHead g (List.range (operands.lengths lane))
  have hscores : unit.map Prod.fst = row.map Prod.fst := by
    simp [unit, row, unitKeys, headKeys]
  let ofUnit : (Fin geometry.dpu → Vec K geometry.width) →ₗ[K] K :=
    (LinearMap.proj k : Vec K geometry.width →ₗ[K] K) ∘ₗ LinearMap.proj i
  let ofRow : (Fin shape.headDim → K) →ₗ[K] K := LinearMap.proj d
  have hchannel : (unit.map fun key => (key.1, ofUnit key.2)) =
      row.map fun key => (key.1, ofRow key.2) := by
    simp only [unit, row, unitKeys, headKeys, List.map_map]
    refine List.map_congr_left fun position _ => Prod.ext rfl ?_
    have hindex : (slotRow shape geometry operands lane kvHead position +
        geometry.slotAt u i) * geometry.width + k =
          keyRow operands shape lane kvHead position + d := by
      rw [Nat.add_mul, slotRow_mul_width, hd, Nat.add_assoc]
    show readMasked _ _ _ _ k = operands.vPool _
    rw [readMasked_apply, if_pos hslot, vectorized, hindex]
  refine ⟨(congrArg Softmax.Running.weight hfinal).trans
    (Softmax.walk_scores exp negSentinel hscores).2, ?_⟩
  calc final.acc i k
    _ = ((Softmax.walk exp negSentinel unit).map ofUnit).acc :=
        congrArg (fun running => ofUnit (Softmax.Running.acc running)) hfinal
    _ = ((Softmax.walk exp negSentinel row).map ofRow).acc := by
        rw [Softmax.walk_map, Softmax.walk_map, hchannel]
    _ = pass.acc d := rfl

end Cube

/-! ## The output of a launch -/

section Grid

variable (exp shape geometry planeSum) (vectors : Operands (Vec K geometry.width)) (outScale : K)

/-- The units of a cube store every slot of its output rows once. -/
theorem indices_cubeStores_perm (scratch : Shared K geometry.width) (lane kvHead : ℕ) :
    ((cubeStores exp shape geometry planeSum vectors outScale scratch lane kvHead).map
      Prod.fst).Perm
        ((List.range shape.nRep).flatMap fun g => (List.range geometry.slots).map
          (queryBase shape geometry lane kvHead g + ·)) := by
  let slotsOf := fun u : Fin geometry.planeDim =>
    (List.finRange geometry.dpu).flatMap fun i : Fin geometry.dpu =>
      if geometry.slotAt u i < geometry.slots then [geometry.slotAt u i] else []
  have hhead : ∀ (u : Fin geometry.planeDim) (g : Fin shape.nRep) l acc,
      (headStores shape geometry outScale lane kvHead u g l acc).map Prod.fst =
        (slotsOf u).map (queryBase shape geometry lane kvHead g + ·) := by
    intro u g l acc
    simp only [headStores, slotsOf, List.map_flatMap]
    refine List.flatMap_congr fun i _ => ?_
    split <;> rfl
  have hslots : ((List.finRange geometry.planeDim).flatMap slotsOf).Perm
      (List.range geometry.slots) := by
    have hunit : ∀ u : Fin geometry.planeDim, slotsOf u =
        (List.range geometry.dpu).flatMap fun i =>
          if (u : ℕ) + i * geometry.planeDim < geometry.slots then
            [(u : ℕ) + i * geometry.planeDim] else [] :=
      fun u => flatMap_finRange geometry.dpu fun i =>
        if (u : ℕ) + i * geometry.planeDim < geometry.slots then
          [(u : ℕ) + i * geometry.planeDim] else []
    rw [List.flatMap_congr fun u _ => hunit u, flatMap_finRange geometry.planeDim fun u =>
      (List.range geometry.dpu).flatMap fun i =>
        if u + i * geometry.planeDim < geometry.slots then [u + i * geometry.planeDim] else []]
    exact unrolled_perm geometry.slots_le
  simp only [cubeStores, List.map_flatMap, hhead]
  refine (flatMap_swap_perm _ _ _).trans ?_
  rw [← flatMap_finRange]
  refine List.Perm.flatMap_left _ fun g _ => ?_
  rw [← List.map_flatMap]
  exact hslots.map _

/-- **Every slot of the output is stored once.** -/
theorem indices_gridStores_perm (scratch : ℕ → ℕ → Shared K geometry.width) :
    ((gridStores exp shape geometry planeSum vectors outScale scratch).map Prod.fst).Perm
      (List.range (shape.n * shape.numHeads * geometry.slots)) := by
  simp only [gridStores, List.map_flatMap]
  rw [range_mul, flatMap_range_mul]
  refine List.Perm.flatMap_left _ fun lane _ => ?_
  rw [DecodeShape.numHeads, flatMap_range_mul]
  exact List.Perm.flatMap_left _ fun kvHead _ =>
    indices_cubeStores_perm exp shape geometry planeSum vectors outScale _ lane kvHead

/-- A store of a launch is some unit's, inside its row. -/
theorem exists_unit_of_mem_gridStores {scratch : ℕ → ℕ → Shared K geometry.width}
    {write : ℕ × Vec K geometry.width}
    (hwrite : write ∈ gridStores exp shape geometry planeSum vectors outScale scratch) :
    ∃ lane < shape.n, ∃ kvHead < shape.numKvHeads, ∃ (u : Fin geometry.planeDim)
      (g : Fin shape.nRep) (i : Fin geometry.dpu), geometry.slotAt u i < geometry.slots ∧
        let final := finalRegisters exp shape geometry planeSum vectors (scratch lane kvHead)
          lane kvHead u g
        write = (queryBase shape geometry lane kvHead g + geometry.slotAt u i,
          final.acc i * splat (outScale / max final.l minDenominator)) := by
  obtain ⟨lane, hlane, hwrite⟩ := List.mem_flatMap.mp hwrite
  obtain ⟨kvHead, hkvHead, hwrite⟩ := List.mem_flatMap.mp hwrite
  obtain ⟨u, _, hwrite⟩ := List.mem_flatMap.mp hwrite
  obtain ⟨g, _, hwrite⟩ := List.mem_flatMap.mp hwrite
  obtain ⟨i, _, hwrite⟩ := List.mem_flatMap.mp hwrite
  simp only at hwrite
  split at hwrite
  · next hslot =>
      exact ⟨lane, List.mem_range.mp hlane, kvHead, List.mem_range.mp hkvHead, u, g, i, hslot,
        List.mem_singleton.mp hwrite⟩
  · simp at hwrite

end Grid

/-- **The kernel computes the reference's result, for every launch geometry.** Whatever
the vector width, the units per plane and the planes per cube, a launch leaves in
every element of the output what the reference returns there; the planes of a cube
together take in each position of their lane once; every output slot is stored
once; and no load passes the lane's live blocks, its length or a head row. -/
theorem pagedDecodeKernel_eq_reference (hexp : Exponential exp)
    (hsum : ∀ part, planeSum part = ∑ u, part u) (hblock : 0 < shape.blockSize)
    (hlens : ∀ lane < shape.n, 1 ≤ operands.lengths lane)
    (htable : ∀ lane < shape.n,
      operands.lengths lane ⌈/⌉ shape.blockSize ≤ shape.blocksPerLane)
    (scratch : ℕ → ℕ → Shared K geometry.width) (before : ℕ → Vec K geometry.width) :
    let vectors := operands.vectorized geometry.width
    (∃ out, decodeReferenceOnline exp operands shape = some out ∧
      ∀ slot < shape.n * shape.numHeads * geometry.slots, ∀ k : Fin geometry.width,
        pagedDecodeKernel exp shape geometry planeSum vectors 1 scratch before slot k =
          out (slot * geometry.width + k)) ∧
    (∀ lane < shape.n, ∀ kvHead < shape.numKvHeads,
      let plane := planeWalk exp shape geometry planeSum vectors lane kvHead
      ((List.range geometry.planes).flatMap fun p => (plane p).consumed).Perm
          (List.range (operands.lengths lane)) ∧
        ∀ p < geometry.planes, ∀ read ∈ (plane p).reads,
          read.Allowed shape geometry operands lane kvHead) ∧
    ((gridStores exp shape geometry planeSum vectors 1 scratch).map Prod.fst).Perm
      (List.range (shape.n * shape.numHeads * geometry.slots)) := by
  intro vectors
  have hstores := indices_gridStores_perm exp shape geometry planeSum vectors 1 scratch
  refine ⟨?_, fun lane hlane kvHead _ => ?_, hstores⟩
  · obtain ⟨out, hout, hentry⟩ :=
      exists_decodeReferenceOnline exp operands shape hblock hlens
    refine ⟨out, hout, fun slot hslot k => ?_⟩
    obtain ⟨⟨_, value⟩, hwrite, rfl⟩ :=
      List.mem_map.mp (hstores.mem_iff.mpr (List.mem_range.mpr hslot))
    have hread := store_of_nodup before (hstores.nodup_iff.mpr List.nodup_range) hwrite
    obtain ⟨lane, hlane, kvHead, hkvHead, u, g, i, hinside, heq⟩ :=
      exists_unit_of_mem_gridStores exp shape geometry planeSum vectors 1 hwrite
    obtain ⟨rfl, rfl⟩ := Prod.mk.injEq .. ▸ heq
    have hd := geometry.element_lt hinside k
    obtain ⟨hl, hacc⟩ := final_channel hexp hsum hblock (htable lane hlane) kvHead
      (scratch lane kvHead) u g hinside k ⟨_, hd⟩ rfl
    have hvalue := hentry lane hlane kvHead hkvHead g ⟨_, hd⟩
    rw [pagedDecodeKernel, hread, Nat.add_mul, queryBase_mul_width, Nat.add_assoc, hvalue,
      Pi.mul_apply, hacc, hl]
    rfl
  · have hwalked := walked_planeWalk exp shape geometry operands hsum kvHead (htable lane hlane)
    refine ⟨?_, fun p _ => (hwalked p).reads⟩
    simp only [vectors, (hwalked _).consumed]
    exact planePositions_perm shape geometry operands hblock lane

end Merge

/-- Two lanes of three and one tokens in blocks of two; rows of six elements in
vectors of two over planes of two units, so the last step of a unit passes the row;
three planes, so some draw no block. -/
theorem pagedDecodeKernel_eq_reference_ragged :
    let shape : DecodeShape ℝ := ⟨2, 1, 2, 6, 2, 2, 1⟩
    let geometry : Geometry shape.headDim :=
      ⟨2, 2, 3, by decide, by decide, by decide, by decide⟩
    let operands : Operands ℝ := ⟨fun at_ => at_, fun at_ => at_, fun at_ => at_,
      fun entry => [3, 1, 2, 0].getD entry 0, fun lane => [3, 1].getD lane 0⟩
    ∃ out, decodeReferenceOnline Real.exp operands shape = some out ∧
      ∀ slot < shape.n * shape.numHeads * geometry.slots, ∀ k : Fin geometry.width,
        pagedDecodeKernel Real.exp shape geometry (fun part => ∑ u, part u)
          (operands.vectorized geometry.width) 1
          (fun _ _ => ⟨fun _ => 7, fun _ => 7, fun _ _ => 7⟩) (fun _ _ => 7) slot k =
            out (slot * geometry.width + k) := by
  intro shape geometry operands
  have hlens : ∀ lane < shape.n, 1 ≤ operands.lengths lane := by decide
  have htable : ∀ lane < shape.n,
      operands.lengths lane ⌈/⌉ shape.blockSize ≤ shape.blocksPerLane := by decide
  exact (pagedDecodeKernel_eq_reference exponential_real (fun _ => rfl) (by decide) hlens htable
    _ _).1

end BurnLm.PagedAttn
