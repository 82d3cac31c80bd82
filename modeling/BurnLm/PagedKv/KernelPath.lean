/-
# The kernel's path over the paged cache

A round of one token per lane is offered to the decode kernel, which reads the
pools in place. Here the offer is made with what a round really has: the query, a
layer's pools, and the table and lengths of the round's plan. Whatever the host
decides and however the launch divides the work, the answer is the reference's,
entry by entry, or none.

Two things are assumed of the round. Its sizes fit the 32-bit words they are handed
on in, and no score lies below the sentinel the kernel starts from.
-/

import BurnLm.PagedAttn.Dispatch
import BurnLm.PagedKv.LaneRecords

namespace BurnLm.PagedKv

open BurnLm.Math
open scoped BigOperators

universe u

/-- A device that may have the kernel. -/
structure DecodeDevice (K : Type u) where
  host : PagedAttn.Host
  types : PagedAttn.OperandTypes
  /-- Whether pools with rows of some width are contiguous. -/
  contiguous : ℕ → Bool
  runtime : PagedAttn.KernelRuntime K

/-- The shapes a round hands to the kernel. The size of an element is read off the
types instead. -/
def decodeArgs {K : Type u} (q : Tensor K) (cache : KeyValueCache K) (plan : LanePlan) (nRep : ℕ)
    (contiguous : Bool) : PagedAttn.LaunchArgs where
  n := q.dim 0
  numHeads := q.dim 1
  seqQ := q.dim 2
  headDim := q.dim 3
  numBlocks := cache.key.pool.dim 0
  blockSize := cache.key.pool.dim 1
  numKvHeads := cache.key.pool.dim 2
  kHeadDim := cache.key.pool.dim 3
  vShape := cache.value.pool.shape
  tableLen := plan.gatherIdx.dim 0
  lengthsLen := plan.lengths.dim 0
  nRep := nRep
  elemSize := 0
  contiguous := contiguous

namespace DecodeDevice

variable {K : Type u} [Field K] [LinearOrder K] (device : DecodeDevice K)

/-- Offer a round to the kernel. -/
def pagedDecode (scale : K) (q : Tensor K) (cache : KeyValueCache K) (plan : LanePlan) (nRep : ℕ) :
    Except PagedAttn.LaunchError (Option (Tensor K)) :=
  let args := decodeArgs q cache plan nRep (device.contiguous (q.dim 3))
  let shape := [q.dim 0, q.dim 1, 1, q.dim 3]
  (device.host.pagedDecode device.types args).map (Option.map fun config =>
    ⟨shape, fun index =>
      device.runtime.run config scale (decodeOperands q cache plan) (Tensor.offset shape index)⟩)

/-- What is assumed of a device with the kernel. -/
structure Honest : Prop where
  client : ∀ cube, device.host.device = some cube → cube.client.Sane
  /-- A pool whose rows the allocator does not pitch is contiguous. -/
  pools : ∀ cube elemSize headDim, device.host.device = some cube →
    device.types.q.kernelSize = some elemSize → cube.client.rowStride headDim elemSize = headDim →
      device.contiguous headDim = true
  runtime : device.runtime.Honest

end DecodeDevice

/-- The sizes of a round that are handed on in 32 bits. -/
structure InWords (lanes heads nRep blockSize blocksPerLane : ℕ) : Prop where
  lanes : lanes < 2 ^ 32
  heads : heads < 2 ^ 32
  nRep : nRep < 2 ^ 32
  blockSize : blockSize < 2 ^ 32
  blocksPerLane : blocksPerLane < 2 ^ 32

theorem InWords.mono {lanes heads nRep blockSize blocksPerLane lanes' blockSize' blocksPerLane' : ℕ}
    (hwords : InWords lanes heads nRep blockSize blocksPerLane) (hlanes : lanes' ≤ lanes)
    (hblock : blockSize' ≤ blockSize) (hper : blocksPerLane' ≤ blocksPerLane) :
    InWords lanes' heads nRep blockSize' blocksPerLane' where
  lanes := hlanes.trans_lt hwords.lanes
  heads := hwords.heads
  nRep := hwords.nRep
  blockSize := hblock.trans_lt hwords.blockSize
  blocksPerLane := hper.trans_lt hwords.blocksPerLane

/-- Distinct lanes are at most as many as there are. -/
theorem length_le_of_nodup {lanes : List ℕ} {count : ℕ} (hnodup : lanes.Nodup)
    (hrange : ∀ lane ∈ lanes, lane < count) : lanes.length ≤ count := by
  rw [← List.toFinset_card_of_nodup hnodup, ← Finset.card_range count]
  exact Finset.card_le_card fun lane hlane => by simpa using hrange lane (by simpa using hlane)

/-- A row of a round's table is no longer than the round's longest lane. -/
theorem LanePlan.blocksPerLane_le {pool : BlockPool} {lanes : List ℕ} {start : ℕ → ℕ}
    {seqLen most : ℕ} (hblock : 0 < pool.blockSize)
    (hmost : ∀ lane ∈ lanes, start lane + seqLen ≤ most) :
    (ofCommit pool lanes (lanes.map start) seqLen).blocksPerLane ≤ most := by
  have hwidest : (ofCommit pool lanes (lanes.map start) seqLen).lMax ≤ most := by
    refine List.foldlRecOn (motive := (· ≤ most)) _ max (Nat.zero_le most)
      fun longest hlongest len hlen => ?_
    obtain ⟨_, hstart, rfl⟩ := List.mem_map.mp hlen
    obtain ⟨lane, hlane, rfl⟩ := List.mem_map.mp hstart
    exact max_le hlongest (hmost lane hlane)
  refine (ceilDiv_le_iff_le_mul hblock).mpr (hwidest.trans ?_)
  exact Nat.le_mul_of_pos_left most hblock

section Round

variable {K : Type u} [Field K] {pool after : BlockPool} {lanes : List ℕ}
  {numBlocks heads headDim nRep : ℕ} {kv : KeyValueCache K} {q : Tensor K} {scale : K}

omit [Field K] in
/-- The key the walk reads at a position is that position's record. -/
theorem flat_keyRow (hkv : kv.Shaped numBlocks after.blockSize heads headDim)
    (hblock : 0 < after.blockSize) (side : Side) {j lane kvHead column d : ℕ}
    (hj : lanes[j]? = some lane) (hkvHead : kvHead < heads)
    (hcolumn : column < pool.laneLen lane + 1) (hd : d < headDim) :
    let plan := LanePlan.ofCommit after lanes (lanes.map pool.laneLen) 1
    let shape := roundShape after lanes heads headDim nRep plan.blocksPerLane scale
    (kv.store side).pool.flat
        (PagedAttn.keyRow (decodeOperands q kv plan) shape j kvHead column + d) =
      kv.recordAt heads headDim (after.address lane column) side ⟨kvHead, hkvHead⟩ ⟨d, hd⟩ := by
  intro plan shape
  have hwidth : column < plan.lMax := LanePlan.lt_lMax_of_live hj hcolumn
  have htable : (decodeOperands q kv plan).blockTable (j * plan.blocksPerLane +
      column / after.blockSize) = (after.address lane column).1 :=
    (flat_vector rfl _).trans (LanePlan.entry_gatherIdx after lanes pool.laneLen 1 hj
      (LanePlan.div_lt_blocksPerLane after lanes pool.laneLen 1 hblock hwidth))
  have hrow := (hkv side).flat_pool (after.address lane column).1 (Nat.mod_lt column hblock) hkvHead
    hd
  rw [← htable] at hrow
  exact hrow.trans (by rw [htable]; rfl)

/-- The walk scores a position as its lane's records say. -/
theorem score_keyRow (hkv : kv.Shaped numBlocks after.blockSize heads headDim)
    (hblock : 0 < after.blockSize) (hq : q.shape = [lanes.length, heads * nRep, 1, headDim])
    {j lane kvHead g column : ℕ} (hj : lanes[j]? = some lane) (hkvHead : kvHead < heads)
    (hg : g < nRep) (hcolumn : column < pool.laneLen lane + 1) :
    let plan := LanePlan.ofCommit after lanes (lanes.map pool.laneLen) 1
    let operands := decodeOperands q kv plan
    let shape := roundShape after lanes heads headDim nRep plan.blocksPerLane scale
    PagedAttn.score operands shape j kvHead (PagedAttn.keyRow operands shape j kvHead column) g =
      (∑ channel : Fin headDim, q.entry [j, kvHead * nRep + g, 0, channel] *
        kv.recordAt heads headDim (after.address lane column) .key ⟨kvHead, hkvHead⟩ channel) *
          scale := by
  intro plan operands shape
  have hhead : kvHead * nRep + g < heads * nRep := Tensor.merged_lt hkvHead hg
  refine congrArg (· * scale) (Finset.sum_congr rfl fun channel _ => ?_)
  exact congrArg₂ (· * ·) (flat_query hq j hhead channel.isLt)
    (flat_keyRow hkv hblock .key hj hkvHead hcolumn channel.isLt)

/-- Scores above the sentinel, as the lanes' records have them. -/
theorem aboveSentinel_of_scored [LinearOrder K]
    (hcommit : BlockPool.Committed pool lanes 1 after)
    (hkv : kv.Shaped numBlocks after.blockSize heads headDim)
    (hblock : 0 < after.blockSize) (hq : q.shape = [lanes.length, heads * nRep, 1, headDim])
    (hscores : ∀ {j lane : ℕ}, lanes[j]? = some lane → ∀ kvHead < heads, ∀ g < nRep,
      ∀ key ∈ scoredKeys scale
          (fun channel : Fin headDim => q.entry [j, kvHead * nRep + g, 0, channel])
          (kv.laneRecords after heads headDim lane) kvHead,
        PagedAttn.negSentinel ≤ key.1) :
    let plan := LanePlan.ofCommit after lanes (lanes.map pool.laneLen) 1
    PagedAttn.AboveSentinel (decodeOperands q kv plan)
      (roundShape after lanes heads headDim nRep plan.blocksPerLane scale) := by
  intro plan j hrow kvHead hkvHead g hg column hcolumn
  have hj : lanes[j]? = some lanes[j] := List.getElem?_eq_getElem hrow
  have hlength : (decodeOperands q kv plan).lengths j = pool.laneLen lanes[j] + 1 :=
    (flat_vector rfl j).trans (LanePlan.entry_lengths _ _ _ _ hj)
  rw [hlength] at hcolumn
  have hlive : column < after.laneLen lanes[j] := by
    rw [hcommit.laneLen, if_pos (List.getElem_mem hrow)]
    exact hcolumn
  rw [score_keyRow hkv hblock hq hj hkvHead hg hcolumn]
  have hscored := hscores hj kvHead hkvHead g hg _ (List.mem_map_of_mem
    (List.mem_map_of_mem (List.mem_range.mpr hlive)))
  exact hscored.trans_eq (congrArg (· * scale) (Finset.sum_congr rfl fun channel _ =>
    congrArg (q.entry _ * ·) (congrFun (extend_of_lt _ hkvHead) channel)))

/-- The shapes of a round of one token per lane. -/
def roundArgs (after : BlockPool) (lanes : List ℕ) (numBlocks heads headDim nRep blocksPerLane : ℕ)
    (contiguous : Bool) : PagedAttn.LaunchArgs where
  n := lanes.length
  numHeads := heads * nRep
  seqQ := 1
  headDim := headDim
  numBlocks := numBlocks
  blockSize := after.blockSize
  numKvHeads := heads
  kHeadDim := headDim
  vShape := [numBlocks, after.blockSize, heads, headDim]
  tableLen := lanes.length * blocksPerLane
  lengthsLen := lanes.length
  nRep := nRep
  elemSize := 0
  contiguous := contiguous

omit [Field K] in
/-- They are what such a round hands over. -/
theorem decodeArgs_eq (hkv : kv.Shaped numBlocks after.blockSize heads headDim)
    (hq : q.shape = [lanes.length, heads * nRep, 1, headDim]) (contiguous : Bool) :
    let plan := LanePlan.ofCommit after lanes (lanes.map pool.laneLen) 1
    decodeArgs q kv plan nRep contiguous =
      roundArgs after lanes numBlocks heads headDim nRep plan.blocksPerLane contiguous := by
  intro plan
  have hkey : kv.key.pool.shape = [numBlocks, after.blockSize, heads, headDim] := (hkv .key).shape
  have hpool : kv.key.pool.dim 0 = numBlocks ∧ kv.key.pool.dim 1 = after.blockSize ∧
      kv.key.pool.dim 2 = heads ∧ kv.key.pool.dim 3 = headDim := by simp [Tensor.dim, hkey]
  have hquery : q.dim 0 = lanes.length ∧ q.dim 1 = heads * nRep ∧ q.dim 2 = 1 ∧
      q.dim 3 = headDim := by simp [Tensor.dim, hq]
  have hvalue : kv.value.pool.shape = [numBlocks, after.blockSize, heads, headDim] :=
    (hkv .value).shape
  simp only [decodeArgs, hpool, hquery, hvalue]
  rfl

omit [Field K] in
/-- What is launched on those shapes is the round's geometry. -/
theorem launchShape_eq {plan : LanePlan} {client : PagedAttn.Client} {args : PagedAttn.LaunchArgs}
    {elemSize : ℕ} {config : PagedAttn.LaunchConfig} {contiguous : Bool}
    (hwords : InWords lanes.length heads nRep after.blockSize plan.blocksPerLane)
    (hlanes : 0 < lanes.length)
    (hargs : args =
      roundArgs after lanes numBlocks heads headDim nRep plan.blocksPerLane contiguous)
    (hconfig : PagedAttn.configure client { args with elemSize } = .ok config)
    (hlegal : PagedAttn.Legal client { args with elemSize } config) :
    config.shape scale = roundShape after lanes heads headDim nRep plan.blocksPerLane scale := by
  subst hargs
  obtain ⟨hcount, hsize, hper, hheads, hgroup⟩ := PagedAttn.configure_eq hlanes hconfig
  have hslots : config.slots = headDim / config.width := hlegal.slots_eq
  have hdvd : config.width ∣ headDim := hlegal.width_dvd
  simp only [roundArgs, PagedAttn.asU32, Nat.mul_div_cancel_left _ hlanes,
    Nat.mod_eq_of_lt hwords.lanes, Nat.mod_eq_of_lt hwords.heads, Nat.mod_eq_of_lt hwords.blockSize,
    Nat.mod_eq_of_lt hwords.blocksPerLane] at hcount hsize hper hheads hgroup
  simp only [PagedAttn.LaunchConfig.shape, roundShape, hcount, hsize, hper, hheads, hgroup, hslots,
    Nat.div_mul_cancel hdvd]

variable [LinearOrder K] [IsStrictOrderedRing K] {device : DecodeDevice K}
  {attention : Tensor K → Tensor K → Tensor K → Tensor Bool → Tensor K}

/-- What is launched on a round's geometry leaves the reference's answer. -/
theorem exists_run (hdevice : device.Honest) (hbefore : pool.Partitioned)
    (hcommit : BlockPool.Committed pool lanes 1 after)
    (hkv : kv.Shaped numBlocks after.blockSize heads headDim)
    (hq : q.shape = [lanes.length, heads * nRep, 1, headDim])
    (hattention : IsSoftmaxAttention device.runtime.exp scale headDim attention)
    {client : PagedAttn.Client} {args : PagedAttn.LaunchArgs} {config : PagedAttn.LaunchConfig}
    (hlegal : PagedAttn.Legal client args config) :
    let plan := LanePlan.ofCommit after lanes (lanes.map pool.laneLen) 1
    let shape := [lanes.length, heads * nRep, 1, headDim]
    PagedAttn.AboveSentinel (decodeOperands q kv plan)
        (roundShape after lanes heads headDim nRep plan.blocksPerLane scale) →
      config.shape scale = roundShape after lanes heads headDim nRep plan.blocksPerLane scale →
      ∃ attended, pagedAttentionReference attention q kv plan nRep = some attended ∧
        ∀ index, Tensor.InBounds shape index →
          device.runtime.run config scale (decodeOperands q kv plan) (Tensor.offset shape index) =
            attended.entry index := by
  intro plan shape habove hshape
  have hblock : 0 < after.blockSize := (hcommit.partitioned hbefore).blockSize_pos
  obtain ⟨walked, attended, hwalked, hattended, hentries, _⟩ :=
    round_walk_eq_reference hdevice.runtime.exponential hattention hkv hblock hq (rfl : plan = plan)
      rfl habove
  have hcount : config.cubeCount.2.1 = lanes.length := congrArg PagedAttn.DecodeShape.n hshape
  have hheads : config.numKvHeads * config.nRep = heads * nRep :=
    congrArg PagedAttn.DecodeShape.numHeads hshape
  have hwidth : config.slots * config.width = headDim :=
    congrArg PagedAttn.DecodeShape.headDim hshape
  have hsize : config.blockSize = after.blockSize :=
    congrArg PagedAttn.DecodeShape.blockSize hshape
  have hper : config.blocksPerLane = plan.blocksPerLane :=
    congrArg PagedAttn.DecodeShape.blocksPerLane hshape
  have hlength : ∀ j (hj : j < lanes.length),
      (decodeOperands q kv plan).lengths j = pool.laneLen lanes[j] + 1 := fun j hj =>
    (flat_vector rfl j).trans (LanePlan.entry_lengths _ _ _ _ (List.getElem?_eq_getElem hj))
  refine ⟨attended, hattended, fun index hindex => ?_⟩
  have hbound := Tensor.offset_lt_prod hindex
  simp only [shape] at hindex
  obtain _ | ⟨hj, _ | ⟨hhead, _ | ⟨hone, _ | ⟨hd, _ | _⟩⟩⟩⟩ := hindex
  rename_i j head row d
  obtain rfl : row = 0 := Nat.lt_one_iff.mp hone
  have hindex : Tensor.offset shape [j, head, 0, d] =
      (j * (heads * nRep) + head) * headDim + d := by
    simp only [shape, Tensor.offset, List.prod_cons, List.prod_nil]
    ring
  have hinside : (j * (heads * nRep) + head) * headDim + d <
      lanes.length * (heads * nRep) * headDim :=
    hindex ▸ hbound.trans_eq (by simp [shape, Nat.mul_assoc])
  have hrun : device.runtime.run config scale (decodeOperands q kv plan)
      ((j * (heads * nRep) + head) * headDim + d) =
        walked ((j * (heads * nRep) + head) * headDim + d) := by
    refine PagedAttn.KernelRuntime.run_eq hdevice.runtime hlegal (hsize ▸ hblock)
      (fun lane hlane => ?_) (fun lane hlane => ?_) (hshape ▸ hwalked)
      (by rwa [hcount, hheads, hwidth])
    · rw [hlength lane (hcount ▸ hlane)]
      exact Nat.succ_pos _
    · rw [hlength lane (hcount ▸ hlane), hsize, hper]
      exact ceilDiv_mono _ (LanePlan.length_le_lMax after lanes pool.laneLen 1
        (List.getElem_mem (hcount ▸ hlane)))
  rw [hindex, hrun]
  exact hentries j hj head hhead d hd

/-- On the plan of a granted round of one token per lane, the offer is declined or
answered, and an answer is the reference's in every entry. -/
theorem DecodeDevice.exists_pagedDecode (hdevice : device.Honest) (hbefore : pool.Partitioned)
    (hcommit : BlockPool.Committed pool lanes 1 after) (hsome : lanes ≠ [])
    (hkv : kv.Shaped numBlocks after.blockSize heads headDim)
    (hq : q.shape = [lanes.length, heads * nRep, 1, headDim]) (hgroup : 0 < nRep)
    (hattention : IsSoftmaxAttention device.runtime.exp scale headDim attention) {plan : LanePlan}
    (hplan : plan = .ofCommit after lanes (lanes.map pool.laneLen) 1)
    (hwords : InWords lanes.length heads nRep after.blockSize plan.blocksPerLane)
    (habove : PagedAttn.AboveSentinel (decodeOperands q kv plan)
      (roundShape after lanes heads headDim nRep plan.blocksPerLane scale)) :
    ∃ answer attended, device.pagedDecode scale q kv plan nRep = .ok answer ∧
      pagedAttentionReference attention q kv plan nRep = some attended ∧
      (answer = none ↔ ∀ elemSize, ¬ PagedAttn.Takes device.host device.types
        (decodeArgs q kv plan nRep (device.contiguous headDim)) elemSize) ∧
      ∀ out, answer = some out → out.shape = [lanes.length, heads * nRep, 1, headDim] ∧
        ∀ index, Tensor.InBounds out.shape index → out.entry index = attended.entry index := by
  subst hplan
  set plan := LanePlan.ofCommit after lanes (lanes.map pool.laneLen) 1
  have hlanes : 0 < lanes.length := List.length_pos_iff.mpr hsome
  have hdims : q.dim 0 = lanes.length ∧ q.dim 1 = heads * nRep ∧ q.dim 3 = headDim := by
    simp [Tensor.dim, hq]
  set args := decodeArgs q kv plan nRep (device.contiguous (q.dim 3))
  have hargs : args = roundArgs after lanes numBlocks heads headDim nRep plan.blocksPerLane
      (device.contiguous (q.dim 3)) := decodeArgs_eq hkv hq _
  have hsane : device.host.Sane device.types args :=
    ⟨hdevice.client, fun cube elemSize => hdevice.pools cube elemSize _⟩
  have hn : args.n = lanes.length := congrArg PagedAttn.LaunchArgs.n hargs
  by_cases hdeclined : device.host.pagedDecode device.types args = .ok none
  · obtain ⟨attended, hattended⟩ :
        ∃ attended, pagedAttentionReference attention q kv plan nRep = some attended :=
      exists_pagedAttentionReference nRep q attention
    refine ⟨none, attended, by simp only [pagedDecode, args, hdeclined]; rfl, hattended,
      iff_of_true rfl fun elemSize htakes => ?_, by simp⟩
    obtain ⟨_, _, _, hanswer, _⟩ := PagedAttn.launched_of_takes hsane (hn ▸ hlanes)
      hgroup hwords.nRep (hdims.2.2 ▸ htakes)
    exact absurd (hanswer.symm.trans hdeclined) (by simp)
  · obtain ⟨elemSize, htakes⟩ := PagedAttn.Host.takes_of_pagedDecode (hn ▸ hlanes) hdeclined
    obtain ⟨cube, config, hcube, hanswer, hconfig, hlegal⟩ :=
      PagedAttn.launched_of_takes hsane (hn ▸ hlanes) hgroup hwords.nRep htakes
    obtain ⟨attended, hattended, hentries⟩ := exists_run hdevice hbefore hcommit hkv hq hattention
      hlegal habove (launchShape_eq hwords hlanes hargs hconfig hlegal)
    refine ⟨_, attended, by simp only [pagedDecode, args, hanswer]; rfl, hattended,
      iff_of_false (by simp) fun hnot => hnot elemSize (hdims.2.2 ▸ htakes), ?_⟩
    rintro out ⟨⟩
    rw [hdims.1, hdims.2.1, hdims.2.2]
    exact ⟨rfl, hentries⟩

end Round

/-! ## Runs -/

section Runs

variable {K : Type u} [Field K] {layout : KvLayout} {maxLanes blockSize usableBlocks : ℕ}
  {uninit : ℕ → (List ℕ → K) × (List ℕ → K)} {cache : PagedKvCache K}

/-- A block of a fresh cache is no longer than the window. -/
theorem blockSize_le_of_new
    (hnew : PagedKvCache.new layout maxLanes blockSize usableBlocks uninit = some cache) :
    blockSize ≤ layout.maxSeqLen := by
  unfold PagedKvCache.new at hnew
  split at hnew
  · next hsizes => exact hsizes.2.1
  · simp at hnew

variable [LinearOrder K] [IsStrictOrderedRing K]

end Runs

end BurnLm.PagedKv
