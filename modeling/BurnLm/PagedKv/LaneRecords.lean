/-
# Reading a lane back

What a lane holds in one layer can be read straight off the stores: at every live
position, the key row and the value row at that position's address. A granted
round adds the rows it wrote to the lanes it names, a refused one and a release
elsewhere change nothing. And what the reference attends over, for any query row
of any round, is a beginning of that reading: the softmax over the lane's records
up to the row's own position.
-/

import BurnLm.PagedKv.Attention

namespace BurnLm.PagedKv

open BurnLm.Math
open scoped BigOperators

universe u

/-- What one token leaves in one layer: a key row and a value row per head. -/
abbrev TokenKv (α : Type u) (heads headDim : ℕ) : Type u := Side → Fin heads → Fin headDim → α

/-- A family over a finite range, and zero past it. -/
def extend {β : Type u} [Zero β] {count : ℕ} (family : Fin count → β) (at_ : ℕ) : β :=
  if hat : at_ < count then family ⟨at_, hat⟩ else 0

theorem extend_of_lt {β : Type u} [Zero β] {count : ℕ} (family : Fin count → β) {at_ : ℕ}
    (hat : at_ < count) : extend family at_ = family ⟨at_, hat⟩ := dif_pos hat

/-- The softmax-weighted sum of the values, by their scores. -/
def softmaxRow {K : Type u} [Field K] (exp : K → K) {width : ℕ}
    (keys : List (K × (Fin width → K))) : Fin width → K :=
  (Softmax.weightAt exp 0 keys)⁻¹ • Softmax.valueAt exp 0 keys

variable {α : Type u}

namespace KeyValueCache

/-- The record at one address. -/
def recordAt (kv : KeyValueCache α) (heads headDim : ℕ) (address : ℕ × ℕ) :
    TokenKv α heads headDim :=
  fun side head channel => (kv.store side).pool.entry [address.1, address.2, head, channel]

/-- What a lane's live positions hold. -/
def laneRecords (kv : KeyValueCache α) (pool : BlockPool) (heads headDim lane : ℕ) :
    List (TokenKv α heads headDim) :=
  (List.range (pool.laneLen lane)).map fun position =>
    kv.recordAt heads headDim (pool.address lane position)

@[simp]
theorem length_laneRecords (kv : KeyValueCache α) (pool : BlockPool) (heads headDim lane : ℕ) :
    (kv.laneRecords pool heads headDim lane).length = pool.laneLen lane := by
  simp [laneRecords]

/-- The record of one token of a round's `j`-th lane. -/
def rowRecord (rows : Side → Tensor α) (heads headDim j step : ℕ) : TokenKv α heads headDim :=
  fun side head channel => (rows side).entry [j, head, step, channel]

/-- The records a round's rows make for its `j`-th lane. -/
def roundRecords (rows : Side → Tensor α) (heads headDim seqLen j : ℕ) :
    List (TokenKv α heads headDim) :=
  (List.range seqLen).map (rowRecord rows heads headDim j)

variable {kv : KeyValueCache α} {pool after : BlockPool} {heads headDim numBlocks seqLen : ℕ}
  {lanes : List ℕ} {rows : Side → Tensor α}

/-! ## Calls and records -/

/-- A round that was refused changes no record. -/
theorem laneRecords_restored (hafter : BlockPool.Restored pool after) (lane : ℕ) :
    kv.laneRecords after heads headDim lane = kv.laneRecords pool heads headDim lane := by
  simp only [laneRecords, BlockPool.laneLen, BlockPool.address, BlockPool.laneBlocks, hafter.lens,
    hafter.tables, hafter.blockSize]

/-- Freeing a lane leaves the records of the others. -/
theorem laneRecords_freeLane_of_ne {lane other : ℕ} (hne : other ≠ lane) :
    kv.laneRecords (pool.freeLane lane) heads headDim other =
      kv.laneRecords pool heads headDim other := by
  have haddress : ∀ position,
      (pool.freeLane lane).address other position = pool.address other position := fun position => by
    rw [BlockPool.address, BlockPool.laneBlocks_freeLane, if_neg hne]
    rfl
  simp only [laneRecords, BlockPool.laneLen_freeLane, if_neg hne, haddress]

section Write

/-- Writing a granted round keeps the record of every position live before it. -/
theorem recordAt_write_live {lane position : ℕ} (hpool : pool.Partitioned)
    (hafter : BlockPool.Committed pool lanes seqLen after) (hlive : position < pool.laneLen lane) :
    (kv.write (.ofCommit after lanes (lanes.map pool.laneLen) seqLen) (rows .key)
        (rows .value)).recordAt heads headDim (after.address lane position) =
      kv.recordAt heads headDim (pool.address lane position) := by
  funext side head channel
  rw [recordAt, recordAt, kv.store_write, hafter.address_eq hpool hlive]
  exact Tensor.entry_scatterNd_of_absent _ _ _ fun other hother hblock =>
    LanePlan.destination_ne_live hpool (hafter.partitioned hpool) hafter hother hlive hblock

/-- Writing a granted round leaves every new row at its own address. -/
theorem recordAt_write_new (hnodup : lanes.Nodup) (hpool : pool.Partitioned)
    (hafter : BlockPool.Committed pool lanes seqLen after)
    (hrows : ∀ side, (rows side).shape = [lanes.length, heads, seqLen, headDim]) {j lane step : ℕ}
    (hj : lanes[j]? = some lane) (hstep : step < seqLen) :
    (kv.write (.ofCommit after lanes (lanes.map pool.laneLen) seqLen) (rows .key)
        (rows .value)).recordAt heads headDim (after.address lane (pool.laneLen lane + step)) =
      rowRecord rows heads headDim j step := by
  obtain ⟨hlt, rfl⟩ := List.getElem?_eq_some_iff.mp hj
  funext side head channel
  rw [recordAt, kv.store_write]
  exact BlockStore.Mirrors.write_places hnodup (hafter.partitioned hpool) hafter (hrows side) hlt
    hstep head.isLt channel.isLt

/-- **A granted round adds its rows to the records of the lanes it names.** -/
theorem laneRecords_write (hnodup : lanes.Nodup) (hpool : pool.Partitioned)
    (hafter : BlockPool.Committed pool lanes seqLen after)
    (hrows : ∀ side, (rows side).shape = [lanes.length, heads, seqLen, headDim]) {j lane : ℕ}
    (hj : lanes[j]? = some lane) :
    (kv.write (.ofCommit after lanes (lanes.map pool.laneLen) seqLen) (rows .key)
        (rows .value)).laneRecords after heads headDim lane =
      kv.laneRecords pool heads headDim lane ++ roundRecords rows heads headDim seqLen j := by
  rw [laneRecords, hafter.laneLen, if_pos (List.mem_of_getElem? hj), List.range_add,
    List.map_append, List.map_map]
  congr 1
  · exact List.map_congr_left fun position hposition =>
      recordAt_write_live hpool hafter (List.mem_range.mp hposition)
  · exact List.map_congr_left fun step hstep =>
      recordAt_write_new hnodup hpool hafter hrows hj (List.mem_range.mp hstep)

/-- It leaves the records of the other lanes. -/
theorem laneRecords_write_of_notMem (hpool : pool.Partitioned)
    (hafter : BlockPool.Committed pool lanes seqLen after) {lane : ℕ} (hlane : lane ∉ lanes) :
    (kv.write (.ofCommit after lanes (lanes.map pool.laneLen) seqLen) (rows .key)
        (rows .value)).laneRecords after heads headDim lane =
      kv.laneRecords pool heads headDim lane := by
  rw [laneRecords, hafter.laneLen, if_neg hlane]
  exact List.map_congr_left fun position hposition =>
    recordAt_write_live hpool hafter (List.mem_range.mp hposition)

end Write

/-! ## Attending over records -/

section Attend

variable [Zero α]

/-- What the reference attends over, at a live column, is that position's record. -/
theorem neutralized_eq_record (hkv : kv.Shaped numBlocks after.blockSize heads headDim)
    (hblock : 0 < after.blockSize) (side : Side) {tensor : Tensor α} {j lane : ℕ}
    (hj : lanes[j]? = some lane)
    (htensor : (kv.gatherSide (.ofCommit after lanes (lanes.map pool.laneLen) seqLen)
      side).neutralized (.ofCommit after lanes (lanes.map pool.laneLen) seqLen) = some tensor)
    {column : ℕ} (hcolumn : column < pool.laneLen lane + seqLen) (head : Fin heads)
    (channel : Fin headDim) :
    tensor.entry [j, head, column, channel] =
      kv.recordAt heads headDim (after.address lane column) side head channel := by
  have hwidth : column < (LanePlan.ofCommit after lanes (lanes.map pool.laneLen) seqLen).lMax :=
    LanePlan.lt_lMax_of_live hj hcolumn
  rw [LanePlan.neutralized_gather hkv hblock side htensor hj hwidth,
    LanePlan.entry_lengths after lanes pool.laneLen seqLen hj, if_pos hcolumn, kv.gatherSide_eq,
    LanePlan.entry_gather (hkv side) hblock hj hwidth head.isLt channel.isLt]
  rfl

end Attend

end KeyValueCache

section Softmax

variable {K : Type u} [Field K] {exp : K → K} {scale : K} {kv : KeyValueCache K}
  {pool after : BlockPool} {lanes : List ℕ} {heads headDim numBlocks seqLen nRep : ℕ}

/-- The keys one query head scores: every record's own head, with its value. -/
def scoredKeys (scale : K) (query : Fin headDim → K) (records : List (TokenKv K heads headDim))
    (kvHead : ℕ) : List (K × (Fin headDim → K)) :=
  records.map fun record =>
    let key : Fin headDim → K := extend (record .key) kvHead
    ((∑ channel, query channel * key channel) * scale, extend (record .value) kvHead)

/-- The columns a query row is shown are those up to its own position. -/
theorem shownColumns_round {j lane head numHeads row : ℕ} (hj : lanes[j]? = some lane)
    (hhead : head < numHeads) (hrow : row < seqLen) :
    let plan := LanePlan.ofCommit after lanes (lanes.map pool.laneLen) seqLen
    shownColumns (maskOverHeads plan.mask numHeads) plan.lMax j head row =
      Finset.range (pool.laneLen lane + row + 1) := by
  intro plan
  have hlt : j < lanes.length := (List.getElem?_eq_some_iff.mp hj).1
  have hread : ∀ column < plan.lMax, ((maskOverHeads plan.mask numHeads).entry
      [j, head, row, column] = false ↔ column < pool.laneLen lane + row + 1) := by
    intro column hwidth
    rw [entry_maskOverHeads (LanePlan.shape_mask after lanes pool.laneLen seqLen) hlt hhead hrow
      hwidth, LanePlan.entry_mask after lanes pool.laneLen seqLen hj hrow hwidth,
      decide_eq_false_iff_not, not_lt, Nat.lt_succ_iff]
  ext column
  rw [shownColumns, Finset.mem_filter, Finset.mem_range, Finset.mem_range]
  constructor
  · rintro ⟨hwidth, hshown⟩
    exact (hread column hwidth).mp hshown
  · intro hcolumn
    have hwidth : column < plan.lMax := LanePlan.lt_lMax_of_live hj (by omega)
    exact ⟨hwidth, (hread column hwidth).mpr hcolumn⟩

/-- The axes of what the reference attends over. -/
theorem shape_neutralized (hkv : kv.Shaped numBlocks after.blockSize heads headDim)
    (hblock : 0 < after.blockSize) (side : Side) {tensor : Tensor K} {j lane : ℕ}
    (hj : lanes[j]? = some lane) (hseq : 0 < seqLen)
    (htensor : (kv.gatherSide (.ofCommit after lanes (lanes.map pool.laneLen) seqLen)
      side).neutralized (.ofCommit after lanes (lanes.map pool.laneLen) seqLen) = some tensor) :
    tensor.shape = [lanes.length, heads,
      (LanePlan.ofCommit after lanes (lanes.map pool.laneLen) seqLen).lMax, headDim] := by
  have hcolumn : pool.laneLen lane <
      (LanePlan.ofCommit after lanes (lanes.map pool.laneLen) seqLen).lMax :=
    LanePlan.lt_lMax_of_live hj (Nat.lt_add_of_pos_right hseq)
  have hgathered := LanePlan.shape_gatherSide hkv hblock side hcolumn
  have hmask := LanePlan.shape_mask after lanes pool.laneLen seqLen
  obtain ⟨last, rfl⟩ := Nat.exists_eq_succ_of_ne_zero hseq.ne'
  obtain ⟨_, hsame, hshape, _⟩ := RaggedKv.exists_neutralized _ hgathered hmask
  obtain rfl := Option.some.inj (htensor.symm.trans hsame)
  exact hshape.trans hgathered

/-- A round with a lane and a token is answered. -/
theorem exists_reference (attention : Tensor K → Tensor K → Tensor K → Tensor Bool → Tensor K)
    (hkv : kv.Shaped numBlocks after.blockSize heads headDim) (hblock : 0 < after.blockSize)
    (q : Tensor K) (nRep : ℕ) {j lane : ℕ} (hj : lanes[j]? = some lane) (hseq : 0 < seqLen) :
    let plan := LanePlan.ofCommit after lanes (lanes.map pool.laneLen) seqLen
    ∃ k v, (kv.gatherSide plan .key).neutralized plan = some k ∧
      (kv.gatherSide plan .value).neutralized plan = some v ∧
      pagedAttentionReference attention q kv plan nRep =
        some (attention q (repeatKv k nRep) (repeatKv v nRep)
          (maskOverHeads plan.mask (q.dim 1))) := by
  intro plan
  have hside : ∀ side : Side, ∃ tensor, (kv.gatherSide plan side).neutralized plan = some tensor :=
    fun side => LanePlan.exists_neutralized_gather hkv hblock side hseq hj
  obtain ⟨k, hk⟩ := hside .key
  obtain ⟨v, hv⟩ := hside .value
  refine ⟨k, v, hk, hv, ?_⟩
  have hgathered : kv.gather plan = (kv.gatherSide plan .key, kv.gatherSide plan .value) := rfl
  simp only [pagedAttentionReference, hgathered, plan, hk, hv, Option.bind_eq_bind,
    Option.bind_some]

/-- A query row that is shown a beginning of the columns gets their softmax. -/
theorem IsSoftmaxAttention.entry_range
    {attention : Tensor K → Tensor K → Tensor K → Tensor Bool → Tensor K}
    (hattention : IsSoftmaxAttention exp scale headDim attention) {q k v : Tensor K}
    {mask : Tensor Bool} {n numHeads seqQ seqKv b head row count : ℕ}
    (hq : q.shape = [n, numHeads, seqQ, headDim]) (hk : k.shape = [n, numHeads, seqKv, headDim])
    (hv : v.shape = [n, numHeads, seqKv, headDim]) (hmask : mask.shape = [n, numHeads, seqQ, seqKv])
    (hb : b < n) (hhead : head < numHeads) (hrow : row < seqQ)
    (hshown : shownColumns mask seqKv b head row = Finset.range (count + 1))
    (channel : Fin headDim) :
    (attention q k v mask).entry [b, head, row, channel] =
      softmaxRow exp ((List.range (count + 1)).map fun column =>
        ((∑ channel : Fin headDim,
          q.entry [b, head, row, channel] * k.entry [b, head, column, channel]) * scale,
          fun channel : Fin headDim => v.entry [b, head, column, channel])) channel := by
  have hscore : ∀ column, attentionScore scale q k headDim b head row column =
      (∑ channel : Fin headDim,
        q.entry [b, head, row, channel] * k.entry [b, head, column, channel]) * scale := fun column =>
    congrArg (· * scale) (Fin.sum_univ_eq_sum_range
      (fun d => q.entry [b, head, row, d] * k.entry [b, head, column, d]) headDim).symm
  rw [hattention q k v mask n numHeads seqQ seqKv hq hk hv hmask b hb head hhead row hrow
    (hshown ▸ ⟨0, Finset.mem_range.mpr (Nat.succ_pos _)⟩) channel channel.isLt, hshown, softmaxRow,
    Pi.smul_apply, smul_eq_mul, inv_mul_eq_div, Softmax.valueAt_range, Softmax.weightAt_range,
    Finset.sum_apply]
  simp only [hscore, sub_zero, Pi.smul_apply, smul_eq_mul]

/-- **Attending over records.** In a round of any width, a query row gets the
softmax over its lane's records up to its own position, and nothing else. -/
theorem pagedAttentionReference_entry
    {attention : Tensor K → Tensor K → Tensor K → Tensor Bool → Tensor K}
    (hattention : IsSoftmaxAttention exp scale headDim attention)
    (hafter : BlockPool.Committed pool lanes seqLen after) (hblock : 0 < after.blockSize)
    (hkv : kv.Shaped numBlocks after.blockSize heads headDim) {q attended : Tensor K}
    (hq : q.shape = [lanes.length, heads * nRep, seqLen, headDim]) {j lane kvHead g row : ℕ}
    (hj : lanes[j]? = some lane) (hkvHead : kvHead < heads) (hg : g < nRep) (hrow : row < seqLen)
    (hattended : pagedAttentionReference attention q kv
      (.ofCommit after lanes (lanes.map pool.laneLen) seqLen) nRep = some attended)
    (channel : Fin headDim) :
    attended.entry [j, kvHead * nRep + g, row, channel] =
      softmaxRow exp (scoredKeys scale
        (fun channel => q.entry [j, kvHead * nRep + g, row, channel])
        ((kv.laneRecords after heads headDim lane).take (pool.laneLen lane + row + 1))
        kvHead) channel := by
  have hlt : j < lanes.length := (List.getElem?_eq_some_iff.mp hj).1
  have hhead : kvHead * nRep + g < heads * nRep := Tensor.merged_lt hkvHead hg
  have hseq : 0 < seqLen := Nat.zero_lt_of_lt hrow
  set plan := LanePlan.ofCommit after lanes (lanes.map pool.laneLen) seqLen with hplan
  obtain ⟨k, v, hk, hv, hanswer⟩ := exists_reference attention hkv hblock q nRep hj hseq
  obtain rfl := Option.some.inj (hanswer.symm.trans hattended)
  have hkshape := shape_neutralized hkv hblock .key hj hseq hk
  have hvshape := shape_neutralized hkv hblock .value hj hseq hv
  have hheads : q.dim 1 = heads * nRep := by simp [Tensor.dim, hq]
  have hshown : shownColumns (maskOverHeads plan.mask (heads * nRep)) plan.lMax j
      (kvHead * nRep + g) row = Finset.range (pool.laneLen lane + row + 1) :=
    shownColumns_round hj hhead hrow
  have hrecords : (kv.laneRecords after heads headDim lane).take (pool.laneLen lane + row + 1) =
      (List.range (pool.laneLen lane + row + 1)).map fun position =>
        kv.recordAt heads headDim (after.address lane position) := by
    have hle : pool.laneLen lane + row + 1 ≤ after.laneLen lane := by
      rw [hafter.laneLen, if_pos (List.mem_of_getElem? hj)]
      omega
    rw [KeyValueCache.laneRecords, ← List.map_take, List.take_range, min_eq_left hle]
  have hread : ∀ (side : Side) (tensor : Tensor K), (kv.gatherSide plan side).neutralized plan =
      some tensor → tensor.shape = [lanes.length, heads, plan.lMax, headDim] →
      ∀ column < pool.laneLen lane + row + 1, ∀ channel : Fin headDim,
        (repeatKv tensor nRep).entry [j, kvHead * nRep + g, column, channel] =
          extend (kv.recordAt heads headDim (after.address lane column) side) kvHead channel := by
    intro side tensor htensor hshape column hcolumn channel
    have hwidth : column < plan.lMax := LanePlan.lt_lMax_of_live hj (by omega)
    rw [entry_repeatKv hshape hlt hkvHead hg hwidth channel.isLt, extend_of_lt _ hkvHead]
    exact KeyValueCache.neutralized_eq_record hkv hblock side hj htensor (by omega) ⟨kvHead, hkvHead⟩
      channel
  rw [hheads, hattention.entry_range hq (shape_repeatKv hkshape nRep) (shape_repeatKv hvshape nRep)
    (shape_maskOverHeads (LanePlan.shape_mask after lanes pool.laneLen seqLen) _) hlt hhead hrow
    hshown channel, hrecords, scoredKeys, List.map_map]
  refine congrArg (fun keys => softmaxRow exp keys channel)
    (List.map_congr_left fun column hcolumn => ?_)
  have hlive := List.mem_range.mp hcolumn
  refine Prod.ext (congrArg (· * scale) (Finset.sum_congr rfl fun channel _ => ?_)) ?_
  · rw [hread .key k hk hkshape column hlive channel]
  · funext channel
    exact hread .value v hv hvshape column hlive channel

end Softmax

end BurnLm.PagedKv
