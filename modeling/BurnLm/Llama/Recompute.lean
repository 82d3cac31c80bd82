/-
# The cached forward recomputes

A decoder answers a lane from what it kept of the lane's earlier tokens. The plain
way to the same logits is to run the training forward over all of the lane's
tokens again and keep the last row. This module proves that the two agree, for
every call of every run: however a lane's tokens were cut into chunks, whatever
other lanes shared its rounds, whichever blocks it was given, whether the decode
kernel ran or the reference, after refused rounds and releases.

What carries it is that a lane's live positions hold, in every layer, exactly the
records the causal stack leaves for the lane's tokens.
-/

import BurnLm.Llama.CausalForward
import BurnLm.Llama.Coupling
import BurnLm.Llama.KernelDevice

namespace BurnLm.Llama

open BurnLm.Math BurnLm.PagedKv BurnLm.Inference

universe u

/-- A fresh cache has the layers it was asked for. -/
theorem length_layers_of_new {K : Type u} [Zero K] {layout : KvLayout}
    {maxLanes blockSize usableBlocks : ℕ} {uninit : ℕ → (List ℕ → K) × (List ℕ → K)}
    {cache : PagedKvCache K}
    (hnew : PagedKvCache.new layout maxLanes blockSize usableBlocks uninit = some cache) :
    cache.layers.length = layout.nLayers := by
  unfold PagedKvCache.new at hnew
  split at hnew
  · obtain ⟨pool, _, rfl⟩ := Option.map_eq_some_iff.mp hnew
    simp
  · simp at hnew

variable {K : Type u} [Field K] [LinearOrder K] [Inhabited K] {config : TransformerConfig}

/-- A transformer with everything a decoder runs it by. -/
structure Deployment (K : Type u) [Field K] [LinearOrder K] (config : TransformerConfig) where
  transformer : Transformer K config
  ops : TensorOps K
  kernel : DecodeDevice K
  rope : RotaryEncoding K
  scale : K
  /-- Lanes of the cache. -/
  laneCount : ℕ
  /-- Blocks of every store. -/
  numBlocks : ℕ
  fits : config.Fits
  honest_ops : ops.Honest kernel.runtime.exp scale config
  honest_kernel : kernel.Honest
  /-- Positions in the rotation table. -/
  rows : ℕ
  table : rope.freqComplex.shape = [rows, config.headDim, 2]
  /-- The table covers the context window. -/
  covers : config.maxSeqLen ≤ rows
  /-- No score is one the kernel would get wrong. -/
  tempered : ∀ block ∈ transformer.layers, block.Tempered scale rope rows (Bearable kernel)
  /-- A block is no longer than the window, and neither is a row of a round's table. -/
  words : InWords laneCount config.nKvHeads config.nRep config.maxSeqLen config.maxSeqLen

namespace Deployment

variable (deployed : Deployment K config)

/-- The exponential of its softmax. -/
def exp : K → K := deployed.kernel.runtime.exp

/-- The ops with the kernel. -/
def device : Device K := deployed.ops.withKernel deployed.kernel

omit [Inhabited K] in
/-- What the layers rely on. -/
theorem honest [IsStrictOrderedRing K] :
    deployed.device.Honest deployed.exp deployed.scale (Bearable deployed.kernel) config :=
  TensorOps.honest_withKernel deployed.honest_ops deployed.honest_kernel deployed.fits

/-- The decoder the transformer is run by. -/
abbrev Decoder (_ : Deployment K config) : Type u :=
  LlamaDecoder K (Fin config.vocabSize → K) config.kvLayout

/-- What a decoder keeps true of itself. -/
structure Serves (decoder : deployed.Decoder) : Prop where
  model_eq : decoder.model = deployed.transformer.lastLogits deployed.device deployed.rope
  laneCount_eq : decoder.cache.pool.laneCount = deployed.laneCount
  pool : decoder.cache.pool.Partitioned
  blockSize_le : decoder.cache.pool.blockSize ≤ config.maxSeqLen
  length_layers : decoder.cache.layers.length = config.nLayers
  shaped : ∀ kv ∈ decoder.cache.layers,
    kv.Shaped deployed.numBlocks decoder.cache.pool.blockSize config.nKvHeads config.headDim

/-- The plain way to the logits after some tokens. -/
def recomputed (tokens : List Token) : Fin config.vocabSize → K :=
  deployed.transformer.recomputed deployed.rope deployed.device tokens

/-- A decoder's lanes, read off its cache: how long a lane is, and what its live
positions hold in every layer. -/
def laneModel : LaneModel deployed.Decoder
    (ℕ × List (List (TokenKv K config.nKvHeads config.headDim))) where
  valid slot := slot < deployed.laneCount
  sound := deployed.Serves
  content decoder lane := (decoder.cache.laneLen lane,
    Transformer.transcript decoder.cache.layers decoder.cache.pool config lane)
  holding tokens := (tokens.length,
    deployed.transformer.records deployed.exp deployed.scale deployed.rope tokens)
  samples _ _ := True

/-! ## One round -/

/-- What one lane brings to a round: what was pushed into it before, and what is
pushed now. -/
structure LaneInput where
  lane : ℕ
  pushed : List Token
  tokens : List Token

variable {deployed} {decoder : deployed.Decoder}

/-- A lane of no length holds nothing. -/
theorem content_of_empty (hlength : decoder.cache.layers.length = config.nLayers) {lane : ℕ}
    (hempty : decoder.cache.pool.laneLen lane = 0) :
    deployed.laneModel.content decoder lane = deployed.laneModel.holding [] := by
  refine Prod.ext hempty ?_
  have hrecords : ∀ kv : KeyValueCache K,
      kv.laneRecords decoder.cache.pool config.nKvHeads config.headDim lane = [] := fun kv => by
    rw [KeyValueCache.laneRecords, hempty]
    rfl
  have hholding : (deployed.laneModel.holding []).2 = CausalLayer.fresh
      (deployed.transformer.stack deployed.exp deployed.scale deployed.rope) :=
    CausalLayer.pushAll_nil
  rw [hholding]
  simp only [laneModel, Transformer.transcript, hrecords, CausalLayer.fresh, Transformer.stack,
    List.map_const', List.length_map, hlength, deployed.transformer.length_layers]

/-- A fresh cache serves, and its lanes are empty. -/
theorem Serves.fresh {blockSize usableBlocks : ℕ} {uninit : ℕ → (List ℕ → K) × (List ℕ → K)}
    (hmodel : decoder.model = deployed.transformer.lastLogits deployed.device deployed.rope)
    (hblocks : deployed.numBlocks = usableBlocks + 1)
    (hnew : PagedKvCache.new config.kvLayout deployed.laneCount blockSize usableBlocks uninit =
      some decoder.cache) :
    deployed.Serves decoder ∧ ∀ lane,
      deployed.laneModel.content decoder lane = deployed.laneModel.holding [] := by
  have hstart := LoggedCache.Mirrored.start hnew
  have hlength : decoder.cache.layers.length = config.nLayers := length_layers_of_new hnew
  refine ⟨⟨hmodel, hstart.laneCount_eq, hstart.pool,
    hstart.blockSize_eq.trans_le (blockSize_le_of_new hnew), hlength, fun kv hkv side => ?_⟩,
    fun lane => content_of_empty hlength (BlockPool.laneLen_of_new (pool_of_new hnew) lane)⟩
  obtain ⟨layer, hlayer⟩ := List.getElem?_of_mem hkv
  exact hblocks ▸ (hstart.stores layer kv hlayer side).shape

/-- Freeing a lane empties it and leaves the others. -/
theorem Serves.resetLane (hserves : deployed.Serves decoder) (slot : ℕ) :
    deployed.Serves (decoder.resetLane slot) ∧
      deployed.laneModel.content (decoder.resetLane slot) slot = deployed.laneModel.holding [] ∧
      ∀ lane, lane ≠ slot → deployed.laneModel.content (decoder.resetLane slot) lane =
        deployed.laneModel.content decoder lane := by
  have hpool : (decoder.resetLane slot).cache.pool = decoder.cache.pool.freeLane slot :=
    LlamaDecoder.pool_resetLane decoder hserves.pool.toLedgered slot
  have hlayers : (decoder.resetLane slot).cache.layers = decoder.cache.layers := by
    unfold LlamaDecoder.resetLane PagedKvCache.resetLane
    split <;> rfl
  refine ⟨⟨hserves.model_eq, ?_, ?_, ?_, ?_, ?_⟩, ?_, fun lane hlane => ?_⟩
  · rw [hpool]
    simpa [BlockPool.laneCount, BlockPool.freeLane] using hserves.laneCount_eq
  · exact hpool ▸ hserves.pool.freeLane slot
  · rw [hpool]
    exact hserves.blockSize_le
  · exact hlayers ▸ hserves.length_layers
  · rw [hlayers, hpool]
    exact hserves.shaped
  · refine content_of_empty (hlayers ▸ hserves.length_layers) ?_
    rw [hpool, BlockPool.laneLen_freeLane, if_pos rfl]
  · refine Prod.ext ?_ ?_
    · show (decoder.resetLane slot).cache.pool.laneLen lane = decoder.cache.pool.laneLen lane
      rw [hpool, BlockPool.laneLen_freeLane, if_neg hlane]
    · show Transformer.transcript _ _ _ _ = Transformer.transcript _ _ _ _
      rw [hlayers, hpool]
      exact List.map_congr_left fun kv _ => KeyValueCache.laneRecords_freeLane_of_ne hlane

/-- A round that was refused, at the window or by the pool, changes no lane. -/
theorem Serves.restored (hserves : deployed.Serves decoder) {pool : BlockPool}
    (hpool : BlockPool.Restored decoder.cache.pool pool) {after : deployed.Decoder}
    (hmodel : after.model = decoder.model) (hcache : after.cache = { decoder.cache with pool }) :
    deployed.Serves after ∧ ∀ lane,
      deployed.laneModel.content after lane = deployed.laneModel.content decoder lane := by
  refine ⟨⟨hmodel.trans hserves.model_eq, ?_, ?_, ?_, ?_, ?_⟩, fun lane => ?_⟩
  · rw [hcache]
    exact (congrArg List.length hpool.lens).trans hserves.laneCount_eq
  · rw [hcache]
    exact hpool.partitioned hserves.pool
  · rw [hcache]
    exact hpool.blockSize.le.trans hserves.blockSize_le
  · rw [hcache]
    exact hserves.length_layers
  · rw [hcache]
    intro kv hkv side
    rw [hpool.blockSize]
    exact hserves.shaped kv hkv side
  · refine Prod.ext ?_ ?_
    · show after.cache.pool.laneLen lane = decoder.cache.pool.laneLen lane
      rw [hcache, BlockPool.laneLen, BlockPool.laneLen, hpool.lens]
    · show Transformer.transcript _ _ _ _ = Transformer.transcript _ _ _ _
      rw [hcache]
      exact List.map_congr_left fun kv _ => KeyValueCache.laneRecords_restored hpool lane

/-- Pushing more tokens into a lane leaves the records of all of them. -/
theorem pushed_records {lane : ℕ} {pushed : List Token}
    (hheld : deployed.laneModel.content decoder lane = deployed.laneModel.holding pushed)
    (tokens : List Token) :
    CausalLayer.pushAll (deployed.transformer.stack deployed.exp deployed.scale deployed.rope)
        (Transformer.transcript decoder.cache.layers decoder.cache.pool config lane)
        (deployed.transformer.embedded tokens) =
      (deployed.laneModel.holding (pushed ++ tokens)).2 := by
  have hbefore : Transformer.transcript decoder.cache.layers decoder.cache.pool config lane =
      deployed.transformer.records deployed.exp deployed.scale deployed.rope pushed :=
    congrArg Prod.snd hheld
  rw [hbefore, Transformer.records, ← CausalLayer.pushAll_append]
  exact congrArg _ (List.map_append ..).symm

/-- A round inside the window fits the rotation table, and its sizes their words. -/
theorem Serves.granted (hserves : deployed.Serves decoder) {lanes : List ℕ} {seqLen : ℕ}
    {after : BlockPool} (hnodup : lanes.Nodup) (hrange : ∀ lane ∈ lanes, lane < deployed.laneCount)
    (hnonempty : lanes ≠ []) (hseq : 0 < seqLen)
    (hwindow : ∀ lane ∈ lanes, decoder.cache.laneLen lane + seqLen ≤ config.maxSeqLen)
    (hcommit : BlockPool.Committed decoder.cache.pool lanes seqLen after) :
    GrantedRound config deployed.rows decoder.cache.pool after lanes seqLen where
  nodup := hnodup
  nonempty := hnonempty
  seqLen_pos := hseq
  before := hserves.pool
  commit := hcommit
  within lane hlane := (hwindow lane hlane).trans deployed.covers
  words := by
    have hblock : 0 < after.blockSize := (hcommit.partitioned hserves.pool).blockSize_pos
    exact deployed.words.mono (length_le_of_nodup hnodup hrange)
      (hcommit.blockSize.le.trans hserves.blockSize_le) (LanePlan.blocksPerLane_le hblock hwindow)

variable [IsStrictOrderedRing K]

/-- On top of a lane's records, the last answer is the training forward's over all
of the lane's tokens. -/
theorem last_answer {lane : ℕ} {pushed tokens : List Token}
    (hheld : deployed.laneModel.content decoder lane = deployed.laneModel.holding pushed)
    (hsome : 0 < tokens.length)
    (hwindow : decoder.cache.laneLen lane + tokens.length ≤ config.maxSeqLen) :
    (CausalLayer.answersAll
        (deployed.transformer.stack deployed.exp deployed.scale deployed.rope)
        (Transformer.transcript decoder.cache.layers decoder.cache.pool config lane)
        (deployed.transformer.embedded tokens)).getLast?.map deployed.transformer.unembed =
      some (deployed.recomputed (pushed ++ tokens)) := by
  have hlength : decoder.cache.laneLen lane = pushed.length := congrArg Prod.fst hheld
  have hbefore : Transformer.transcript decoder.cache.layers decoder.cache.pool config lane =
      deployed.transformer.records deployed.exp deployed.scale deployed.rope pushed :=
    congrArg Prod.snd hheld
  have hnonempty : deployed.transformer.embedded tokens ≠ [] := by
    simpa [Transformer.embedded] using List.length_pos_iff.mp hsome
  have hall : deployed.transformer.embedded (pushed ++ tokens) =
      deployed.transformer.embedded pushed ++ deployed.transformer.embedded tokens :=
    List.map_append ..
  have hrows : (pushed ++ tokens).length ≤ deployed.rows := by
    rw [List.length_append, ← hlength]
    exact hwindow.trans deployed.covers
  rw [recomputed, Transformer.recomputed_eq deployed.honest.ops deployed.fits deployed.table
    deployed.transformer (List.append_ne_nil_of_right_ne_nil _ (List.length_pos_iff.mp hsome)) hrows,
    hall, CausalLayer.getLast?_answersAll_append hnonempty, hbefore]
  rfl

omit [Field K] [LinearOrder K] [Inhabited K] [IsStrictOrderedRing K] in
/-- A forward whose plan was refused. -/
theorem forwardLanes_of_error {Row : Type u} {layout : KvLayout}
    {decoder : LlamaDecoder K Row layout} {lanes : List ℕ} {input : List (List Token)} {seqLen : ℕ}
    {error : PagedKvError} {after : PagedKvCache K}
    (hplan : decoder.cache.prepareLanes lanes seqLen = (.error error, after)) :
    let called := decoder.forwardLanes lanes input seqLen
    called.1 = .error (toInferenceError error) ∧ called.2.model = decoder.model ∧
      called.2.cache = after := by
  have hafter : (decoder.cache.prepareLanes lanes seqLen).2 = after := congrArg Prod.snd hplan
  simp only [LlamaDecoder.forwardLanes]
  split
  · next other hother =>
      rw [hplan] at hother
      obtain rfl := Except.error.inj hother
      exact ⟨rfl, rfl, hafter⟩
  · next plan hother =>
      rw [hplan] at hother
      simp at hother

omit [Field K] [LinearOrder K] [Inhabited K] [IsStrictOrderedRing K] in
/-- A forward whose plan was granted. -/
theorem forwardLanes_of_ok {Row : Type u} {layout : KvLayout}
    {decoder : LlamaDecoder K Row layout} {lanes : List ℕ} {input : List (List Token)} {seqLen : ℕ}
    {plan : LanePlan} {after : PagedKvCache K}
    (hplan : decoder.cache.prepareLanes lanes seqLen = (.ok plan, after)) :
    let called := decoder.forwardLanes lanes input seqLen
    let answered := decoder.model input plan after.layers
    called.1 = .ok answered.1 ∧ called.2.model = decoder.model ∧
      called.2.cache = { after with layers := answered.2 } := by
  obtain rfl : (decoder.cache.prepareLanes lanes seqLen).2 = after := congrArg Prod.snd hplan
  simp only [LlamaDecoder.forwardLanes]
  split
  · next error hother =>
      rw [hplan] at hother
      simp at hother
  · next other hother =>
      rw [hplan] at hother
      obtain rfl := Except.ok.inj hother
      exact ⟨rfl, rfl, rfl⟩

/-- **One round recomputes.** Over distinct lanes that hold what was pushed into
them, a round is refused and changes no lane, or it answers every lane as the
training forward does over all the lane's tokens, and pushes the new ones. -/
theorem Serves.forwardLanes (hserves : deployed.Serves decoder) {round : List LaneInput}
    {seqLen : ℕ} (hnodup : (round.map LaneInput.lane).Nodup)
    (hrange : ∀ entry ∈ round, entry.lane < deployed.laneCount) (hnonempty : round ≠ [])
    (hseq : 0 < seqLen) (hwidth : ∀ entry ∈ round, entry.tokens.length = seqLen)
    (hheld : ∀ entry ∈ round,
      deployed.laneModel.content decoder entry.lane = deployed.laneModel.holding entry.pushed) :
    let called := decoder.forwardLanes (round.map LaneInput.lane) (round.map LaneInput.tokens) seqLen
    deployed.Serves called.2 ∧
      (∀ lane ∉ round.map LaneInput.lane,
        deployed.laneModel.content called.2 lane = deployed.laneModel.content decoder lane) ∧
      ((∃ error, called.1 = .error error ∧ ∀ lane,
          deployed.laneModel.content called.2 lane = deployed.laneModel.content decoder lane) ∨
        ∃ logits, called.1 = .ok logits ∧
          logits.rows = round.map (fun entry => deployed.recomputed (entry.pushed ++ entry.tokens)) ∧
          ∀ entry ∈ round, deployed.laneModel.content called.2 entry.lane =
            deployed.laneModel.holding (entry.pushed ++ entry.tokens)) := by
  intro called
  have hinRange : ∀ lane ∈ round.map LaneInput.lane, lane < deployed.laneCount := by
    simpa using hrange
  rcases decoder.cache.prepareLanes_cases hserves.pool.toLedgered hserves.laneCount_eq
      ⟨round.map LaneInput.lane, hnodup, hinRange⟩ seqLen with
    ⟨lane, _, _, hplan⟩ | ⟨_, _, exhausted, pool, hplan, hpool⟩ | ⟨hwindow, _, pool, hplan, hpool⟩
  · obtain ⟨herror, hmodel, hcache⟩ := @forwardLanes_of_error K _ _ decoder _
      (round.map LaneInput.tokens) _ _ _ hplan
    obtain ⟨hsound, hsame⟩ := hserves.restored ⟨rfl, rfl, rfl, List.Perm.refl _⟩ hmodel hcache
    exact ⟨hsound, fun lane _ => hsame lane, Or.inl ⟨_, herror, hsame⟩⟩
  · obtain ⟨herror, hmodel, hcache⟩ := @forwardLanes_of_error K _ _ decoder _
      (round.map LaneInput.tokens) _ _ _ hplan
    obtain ⟨hsound, hsame⟩ := hserves.restored hpool hmodel hcache
    exact ⟨hsound, fun lane _ => hsame lane, Or.inl ⟨_, herror, hsame⟩⟩
  · obtain ⟨hok, hmodel, hcache⟩ := @forwardLanes_of_ok K _ _ decoder _
      (round.map LaneInput.tokens) _ _ _ hplan
    have hwindow : ∀ lane ∈ round.map LaneInput.lane,
        decoder.cache.laneLen lane + seqLen ≤ config.maxSeqLen := fun lane hlane =>
      (hwindow lane hlane).trans_eq (congrArg KvLayout.maxSeqLen decoder.layout_eq)
    have hgranted := hserves.granted hnodup hinRange (by simpa using hnonempty) hseq hwindow hpool
    have hkept : ∀ {j lane : ℕ}, (round.map LaneInput.lane)[j]? = some lane →
        List.Forall₂ CausalLayer.Kept
          (deployed.transformer.stack deployed.exp deployed.scale deployed.rope)
          (Transformer.transcript decoder.cache.layers decoder.cache.pool config lane) := by
      intro j lane hj
      obtain ⟨entry, hentry, rfl⟩ := List.mem_map.mp (List.mem_of_getElem? hj)
      have hheld := congrArg Prod.snd (hheld entry hentry)
      simp only [laneModel, Transformer.records] at hheld
      rw [hheld]
      exact CausalLayer.kept_pushAll_fresh
    obtain ⟨logits, written, hanswer, hcount, hshaped, hlength, hrows, huntouched⟩ :=
      Transformer.lastLogits_round deployed.honest deployed.fits deployed.table hgranted
        deployed.tempered hserves.length_layers hserves.shaped hkept
        (by simp : (round.map LaneInput.tokens).length = (round.map LaneInput.lane).length)
        (by simpa using hwidth)
    rw [hserves.model_eq] at hok hcache
    rw [hanswer] at hok hcache
    have hlane : ∀ lane, called.2.cache.laneLen lane =
        decoder.cache.laneLen lane + if lane ∈ round.map LaneInput.lane then seqLen else 0 :=
      fun lane => by
        rw [hcache]
        exact hpool.laneLen lane
    refine ⟨⟨hmodel.trans hserves.model_eq, ?_, ?_, ?_, ?_, ?_⟩, fun lane hout => ?_,
      Or.inr ⟨logits, hok, ?_, fun entry hentry => ?_⟩⟩
    · rw [hcache]
      exact hpool.lens_length.trans hserves.laneCount_eq
    · rw [hcache]
      exact hpool.partitioned hserves.pool
    · rw [hcache]
      exact hpool.blockSize.le.trans hserves.blockSize_le
    · rw [hcache]
      exact hcount
    · rw [hcache]
      exact hshaped
    · refine Prod.ext ?_ ?_
      · show called.2.cache.laneLen lane = decoder.cache.laneLen lane
        rw [hlane, if_neg hout, add_zero]
      · show Transformer.transcript _ _ _ _ = _
        rw [hcache]
        exact huntouched lane hout
    · refine List.ext_getElem? fun j => ?_
      cases hentry : round[j]? with
      | none =>
          have hpast : round.length ≤ j := List.getElem?_eq_none_iff.mp hentry
          rw [List.getElem?_eq_none (by simpa [hlength] using hpast), List.getElem?_map, hentry,
            Option.map_none]
      | some entry =>
          have hmem : entry ∈ round := List.mem_of_getElem? hentry
          obtain ⟨hrow, _⟩ := @hrows j entry.lane entry.tokens (by simp [hentry]) (by simp [hentry])
          rw [hrow, List.getElem?_map, hentry, Option.map_some]
          refine last_answer (hheld entry hmem) (by rw [hwidth entry hmem]; exact hseq) ?_
          rw [hwidth entry hmem]
          exact hwindow entry.lane (List.mem_map_of_mem hmem)
    · obtain ⟨j, hj⟩ := List.getElem?_of_mem hentry
      obtain ⟨_, hpush⟩ := @hrows j entry.lane entry.tokens (by simp [hj]) (by simp [hj])
      have hbefore : decoder.cache.laneLen entry.lane = entry.pushed.length :=
        congrArg Prod.fst (hheld entry hentry)
      refine Prod.ext ?_ ?_
      · show called.2.cache.laneLen entry.lane = (entry.pushed ++ entry.tokens).length
        rw [hlane, if_pos (List.mem_map_of_mem hentry), hbefore, List.length_append,
          hwidth entry hentry]
      · show Transformer.transcript _ _ _ _ = _
        rw [hcache]
        exact hpush.trans (pushed_records (hheld entry hentry) _)

/-! ## One call -/

/-- A prefill, from position zero or on top of what its lane was given before. -/
theorem Serves.prefill (hserves : deployed.Serves decoder) {slot position : ℕ}
    {tokens pushed : List Token} (hslot : slot < deployed.laneCount) (hsome : tokens ≠ [])
    (hheld : deployed.laneModel.content decoder slot = deployed.laneModel.holding pushed) :
    let called := decoder.prefill slot tokens position
    let before := if position = 0 then [] else pushed
    deployed.Serves called.2 ∧
      (∀ lane, lane ≠ slot →
        deployed.laneModel.content called.2 lane = deployed.laneModel.content decoder lane) ∧
      ((∃ error, called.1 = .error error ∧
          deployed.laneModel.content called.2 slot = deployed.laneModel.holding before) ∨
        ∃ logits, called.1 = .ok logits ∧
          logits.rows = [deployed.recomputed (before ++ tokens)] ∧
          deployed.laneModel.content called.2 slot =
            deployed.laneModel.holding (before ++ tokens)) := by
  intro called before
  set emptied := if position = 0 then decoder.resetLane slot else decoder
  have hstart : deployed.Serves emptied ∧
      deployed.laneModel.content emptied slot = deployed.laneModel.holding before ∧
      ∀ lane, lane ≠ slot →
        deployed.laneModel.content emptied lane = deployed.laneModel.content decoder lane := by
    by_cases hzero : position = 0
    · have hreset : emptied = decoder.resetLane slot := if_pos hzero
      have hnothing : before = [] := if_pos hzero
      rw [hreset, hnothing]
      exact hserves.resetLane slot
    · have hsame : emptied = decoder := if_neg hzero
      have hall : before = pushed := if_neg hzero
      rw [hsame, hall]
      exact ⟨hserves, hheld, fun _ _ => rfl⟩
  obtain ⟨hsound, hbefore, hother⟩ := hstart
  obtain ⟨hafter, huntouched, hanswer⟩ := @Serves.forwardLanes K _ _ _ config deployed emptied _ hsound
    [⟨slot, before, tokens⟩] tokens.length (by simp) (by simpa using hslot) (by simp)
    (List.length_pos_iff.mpr hsome) (by simp) (by simpa using hbefore)
  refine ⟨hafter, fun lane hlane => (huntouched lane (by simpa using hlane)).trans
    (hother lane hlane), ?_⟩
  rcases hanswer with ⟨error, herror, hsame⟩ | ⟨logits, hok, hrows, hpushed⟩
  · exact Or.inl ⟨error, herror, (hsame slot).trans hbefore⟩
  · exact Or.inr ⟨logits, hok, hrows, hpushed _ (List.mem_singleton_self _)⟩

/-- A fused decode over distinct lanes. -/
theorem Serves.decode (hserves : deployed.Serves decoder) {rows : List DecodeRow}
    {pushed : DecodeRow → List Token} (hnodup : (rows.map DecodeRow.slot).Nodup)
    (hslots : ∀ row ∈ rows, row.slot < deployed.laneCount) (hsome : rows ≠ [])
    (hheld : ∀ row ∈ rows,
      deployed.laneModel.content decoder row.slot = deployed.laneModel.holding (pushed row)) :
    let called := decoder.decode rows
    deployed.Serves called.2 ∧
      (∀ lane, (∀ row ∈ rows, row.slot ≠ lane) →
        deployed.laneModel.content called.2 lane = deployed.laneModel.content decoder lane) ∧
      ((∃ error, called.1 = .error error ∧ ∀ lane,
          deployed.laneModel.content called.2 lane = deployed.laneModel.content decoder lane) ∨
        ∃ logits, called.1 = .ok logits ∧
          logits.rows = rows.map (fun row => deployed.recomputed (pushed row ++ [row.token])) ∧
          ∀ row ∈ rows, deployed.laneModel.content called.2 row.slot =
            deployed.laneModel.holding (pushed row ++ [row.token])) := by
  intro called
  set round := rows.map fun row => (⟨row.slot, pushed row, [row.token]⟩ : LaneInput)
  have hlanes : round.map LaneInput.lane = rows.map DecodeRow.slot := by simp [round]
  have htokens : round.map LaneInput.tokens = rows.map fun row => [row.token] := by simp [round]
  have hround := @Serves.forwardLanes K _ _ _ config deployed decoder _ hserves round 1
    (hlanes ▸ hnodup) (by simpa [round] using hslots) (by simpa [round] using hsome) one_pos
    (by simp [round]) (by simpa [round] using hheld)
  rw [hlanes, htokens] at hround
  obtain ⟨hafter, huntouched, hanswer⟩ := hround
  refine ⟨hafter, fun lane hlane => huntouched lane (by simpa using hlane), hanswer.imp id ?_⟩
  rintro ⟨logits, hok, hrows, hpushed⟩
  refine ⟨logits, hok, hrows.trans List.map_map, fun row hrow => ?_⟩
  exact hpushed _ (List.mem_map_of_mem hrow)

/-! ## Runs -/

variable (deployed) in
/-- A call with something to do: some tokens into a lane, one token into each of
some distinct lanes, or a release. -/
def Admits : DecoderCall → Prop
  | .prefill slot tokens _ => slot < deployed.laneCount ∧ tokens ≠ []
  | .decode rows => (rows.map DecodeRow.slot).Nodup ∧
      (∀ row ∈ rows, row.slot < deployed.laneCount) ∧ rows ≠ []
  | .release _ => True

/-- The lanes a call wants logits of, in order. -/
def askedLanes : DecoderCall → List ℕ
  | .prefill slot _ _ => [slot]
  | .decode rows => rows.map DecodeRow.slot
  | .release _ => []

variable (deployed) in
/-- A decoder beside what each of its lanes was given since it was last emptied. -/
structure Session where
  decoder : deployed.Decoder
  given : ℕ → List Token

/-- Issue a call. What it is answered, if it is, counts as given; a prefill from
position zero empties its lane also when it is refused. -/
def Session.issue (session : deployed.Session) :
    DecoderCall → Option (Logits (Fin config.vocabSize → K)) × deployed.Session
  | .prefill slot tokens position =>
    let given := if position = 0 then Function.update session.given slot [] else session.given
    match session.decoder.prefill slot tokens position with
    | (.error _, decoder) => (none, ⟨decoder, given⟩)
    | (.ok logits, decoder) =>
      (some logits, ⟨decoder, Function.update given slot (given slot ++ tokens)⟩)
  | .decode rows =>
    match session.decoder.decode rows with
    | (.error _, decoder) => (none, ⟨decoder, session.given⟩)
    | (.ok logits, decoder) => (some logits, ⟨decoder, fun lane => session.given lane ++
        (rows.filter fun row => row.slot = lane).map DecodeRow.token⟩)
  | .release slot => (none, ⟨session.decoder.resetLane slot, Function.update session.given slot []⟩)

/-- Issue calls in turn. -/
def Session.issueAll (session : deployed.Session) (calls : List DecoderCall) : deployed.Session :=
  calls.foldl (fun session call => (session.issue call).2) session

/-- Every lane holds what it was given. -/
structure Session.Mirrors (session : deployed.Session) : Prop where
  serves : deployed.Serves session.decoder
  held : ∀ lane, deployed.laneModel.content session.decoder lane =
    deployed.laneModel.holding (session.given lane)

/-- An answer has the recomputed logits of every lane that was asked for. -/
theorem Session.Mirrors.issue {session : deployed.Session} (hsession : session.Mirrors)
    {call : DecoderCall} (hcall : deployed.Admits call) :
    (session.issue call).2.Mirrors ∧ ∀ logits, (session.issue call).1 = some logits →
      logits.rows =
        (askedLanes call).map fun lane => deployed.recomputed ((session.issue call).2.given lane) := by
  cases call with
  | prefill slot tokens position =>
      obtain ⟨hslot, hsome⟩ := hcall
      have hstart : (if position = 0 then Function.update session.given slot [] else
          session.given) slot = if position = 0 then [] else session.given slot := by
        split <;> simp
      obtain ⟨hserves, hother, hanswer⟩ :=
        @Serves.prefill K _ _ _ config deployed _ _ hsession.serves slot position tokens
          (session.given slot) hslot hsome (hsession.held slot)
      have hothers : ∀ lane, lane ≠ slot → deployed.laneModel.content
          (session.decoder.prefill slot tokens position).2 lane = deployed.laneModel.holding
            ((if position = 0 then Function.update session.given slot [] else session.given)
              lane) := by
        intro lane hlane
        rw [hother lane hlane, hsession.held lane]
        split
        · rw [Function.update_of_ne hlane]
        · rfl
      rcases hcalled : session.decoder.prefill slot tokens position with ⟨answer, after⟩
      rw [hcalled] at hserves hothers hanswer
      rcases hanswer with ⟨error, rfl, hslotHeld⟩ | ⟨logits, rfl, hrows, hslotHeld⟩
      · simp only [Session.issue, hcalled]
        refine ⟨⟨hserves, fun lane => ?_⟩, by simp⟩
        by_cases hlane : lane = slot
        · subst hlane
          exact hslotHeld.trans (congrArg _ hstart.symm)
        · exact hothers lane hlane
      · simp only [Session.issue, hcalled]
        refine ⟨⟨hserves, fun lane => ?_⟩, ?_⟩
        · by_cases hlane : lane = slot
          · subst hlane
            simp only [Function.update_self, hstart]
            exact hslotHeld
          · simp only [Function.update_of_ne hlane]
            exact hothers lane hlane
        · rintro _ ⟨⟩
          simp only [askedLanes, List.map_cons, List.map_nil, Function.update_self, hstart]
          exact hrows
  | decode rows =>
      obtain ⟨hnodup, hslots, hsome⟩ := hcall
      obtain ⟨hserves, hother, hanswer⟩ :=
        @Serves.decode K _ _ _ config deployed _ _ hsession.serves rows
          (fun row => session.given row.slot) hnodup hslots hsome fun row _ =>
            hsession.held row.slot
      rcases hcalled : session.decoder.decode rows with ⟨answer, after⟩
      rw [hcalled] at hserves hother hanswer
      rcases hanswer with ⟨error, rfl, hsame⟩ | ⟨logits, rfl, hrows, hrowsHeld⟩
      · simp only [Session.issue, hcalled]
        exact ⟨⟨hserves, fun lane => (hsame lane).trans (hsession.held lane)⟩, by simp⟩
      · simp only [Session.issue, hcalled]
        refine ⟨⟨hserves, fun lane => ?_⟩, ?_⟩
        · by_cases hnamed : ∃ row ∈ rows, row.slot = lane
          · obtain ⟨row, hrow, rfl⟩ := hnamed
            simp only [filter_key_eq_singleton hnodup hrow]
            exact hrowsHeld row hrow
          · have hfree : ∀ row ∈ rows, row.slot ≠ lane := fun row hrow hsame =>
              hnamed ⟨row, hrow, hsame⟩
            simp only [filter_key_eq_nil hfree, List.map_nil, List.append_nil]
            exact (hother lane hfree).trans (hsession.held lane)
        · rintro _ ⟨⟩
          rw [hrows, askedLanes, List.map_map]
          refine List.map_congr_left fun row hrow => ?_
          simp only [Function.comp_apply, filter_key_eq_singleton hnodup hrow, List.map_cons,
            List.map_nil]
  | release slot =>
      obtain ⟨hserves, hempty, hother⟩ := hsession.serves.resetLane slot
      refine ⟨⟨hserves, fun lane => ?_⟩, by simp [Session.issue]⟩
      simp only [Session.issue]
      by_cases hlane : lane = slot
      · subst hlane
        rw [Function.update_self]
        exact hempty
      · rw [Function.update_of_ne hlane, hother lane hlane]
        exact hsession.held lane

/-- Calls in turn keep every lane on what it was given. -/
theorem Session.Mirrors.issueAll {session : deployed.Session} (hsession : session.Mirrors)
    {calls : List DecoderCall} (hcalls : ∀ call ∈ calls, deployed.Admits call) :
    (session.issueAll calls).Mirrors := by
  induction calls generalizing session with
  | nil => exact hsession
  | cons call calls ih =>
      exact ih (hsession.issue (hcalls call List.mem_cons_self)).1 fun other hother =>
        hcalls other (List.mem_cons_of_mem _ hother)

/-- **The cached forward recomputes.** From a fresh cache, after any calls, with
whatever refusals among them: every lane is as long as what it was given since it
was last emptied, and a call that is answered is answered, for every lane it asks
about, with the last row of the training forward over all that lane was given. -/
theorem answers_recomputed
    (hmodel : decoder.model = deployed.transformer.lastLogits deployed.device deployed.rope)
    {blockSize usableBlocks : ℕ} {uninit : ℕ → (List ℕ → K) × (List ℕ → K)}
    (hblocks : deployed.numBlocks = usableBlocks + 1)
    (hnew : PagedKvCache.new config.kvLayout deployed.laneCount blockSize usableBlocks uninit =
      some decoder.cache) {calls : List DecoderCall} {call : DecoderCall}
    (hcalls : ∀ other ∈ calls ++ [call], deployed.Admits other) :
    let session := Session.issueAll (⟨decoder, fun _ => []⟩ : deployed.Session) calls
    let issued := session.issue call
    (∀ lane, issued.2.decoder.cache.laneLen lane = (issued.2.given lane).length) ∧
      ∀ logits, issued.1 = some logits → logits.rows =
        (askedLanes call).map fun lane => deployed.recomputed (issued.2.given lane) := by
  intro session issued
  obtain ⟨hserves, hempty⟩ := Serves.fresh hmodel hblocks hnew
  have hstart : Session.Mirrors (⟨decoder, fun _ => []⟩ : deployed.Session) := ⟨hserves, hempty⟩
  have hsession : session.Mirrors := hstart.issueAll fun other hother =>
    hcalls other (List.mem_append_left _ hother)
  obtain ⟨hafter, hrows⟩ := hsession.issue (hcalls call (by simp))
  exact ⟨fun lane => congrArg Prod.fst (hafter.held lane), hrows⟩

/-! ## A small deployment -/

/-- Two layers of two heads on one key/value head. -/
def small : TransformerConfig where
  vocabSize := 2
  nLayers := 2
  dModel := 4
  hiddenSize := 3
  nHeads := 2
  nKvHeads := 1
  maxSeqLen := 8

/-- A linear layer that counts up its weights. -/
private noncomputable def counting (dIn dOut : ℕ) : RowModule ℝ dIn dOut :=
  .linear fun i channel => (i : ℝ) - channel

private noncomputable def smallBlock : TransformerBlock ℝ small where
  attention := ⟨counting _ _, counting _ _, counting _ _, counting _ _⟩
  feedForward := ⟨.swiGlu (fun i channel => i + channel) fun i _ => i, counting _ _⟩
  attentionNorm := .rmsNorm (fun _ => 1) 1
  ffnNorm := .rmsNorm (fun i => i + 1) 1

/-- Planes of 32 units, unless somebody asks for the reference. -/
private noncomputable def smallKernel : DecodeDevice ℝ where
  host := PagedAttn.unasked
  types := ⟨.f32, .f32, .f32, .i32, .i32⟩
  contiguous _ := true
  runtime :=
    { exp := Real.exp
      planeSum _ part := ∑ u, part u
      scratch _ _ _ := ⟨fun _ => 0, fun _ => 0, fun _ _ => 0⟩
      uninit _ := 0
      outputScale := 1 }

/-- A turn for every position. -/
private noncomputable def smallRope : RotaryEncoding ℝ :=
  ⟨⟨[8, 2, 2], fun index =>
    if index.getD 2 0 = 0 then Real.cos (index.getD 0 0) else Real.sin (index.getD 0 0)⟩⟩

private theorem small_tempered : smallBlock.Tempered (1 / Real.sqrt small.headDim) smallRope 8
    (Bearable smallKernel) := by
  have hweights : ∀ {width : ℕ}, width ≤ 4 → ∀ (i : Fin 4) (channel : Fin width),
      |((i : ℕ) : ℝ) - (channel : ℕ)| ≤ 4 := by
    intro width hwidth i channel
    have hi : ((i : ℕ) : ℝ) ≤ 4 := by exact_mod_cast i.isLt.le
    have hchannel : ((channel : ℕ) : ℝ) ≤ 4 := by exact_mod_cast channel.isLt.le.trans hwidth
    exact abs_sub_le_of_nonneg_of_le (Nat.cast_nonneg _) hi (Nat.cast_nonneg _) hchannel
  have hbound : scoreBound small (1 / Real.sqrt small.headDim) 1 4 ≤ 10 ^ 6 := by
    have hmodel : (small.dModel : ℝ) ≤ 4 := by norm_num [small]
    have hroot : Real.sqrt small.dModel ≤ 4 := Real.sqrt_le_iff.mpr (by norm_num [small])
    have hhead : (small.headDim : ℝ) ≤ 2 := by exact_mod_cast (by decide : small.headDim ≤ 2)
    have hscale : |1 / Real.sqrt small.headDim| ≤ 1 := by
      rw [abs_of_nonneg (by positivity)]
      refine div_le_one_of_le₀ (Real.one_le_sqrt.mpr ?_) (Real.sqrt_nonneg _)
      exact_mod_cast (by decide : 1 ≤ small.headDim)
    calc scoreBound small (1 / Real.sqrt small.headDim) 1 4
        ≤ 2 * ((4 * (4 * 1 * 4) + 4 * (4 * 1 * 4)) * (4 * (4 * 1 * 4) + 4 * (4 * 1 * 4))) * 1 := by
          simp only [scoreBound]
          gcongr
      _ ≤ 10 ^ 6 := by norm_num
  refine TransformerBlock.tempered_of_rmsNorm rfl rfl rfl zero_le_one zero_le_one zero_le_four
    (fun _ => abs_one.le) (hweights le_rfl) (hweights (by decide))
    (fun position _ channel part => ?_) fun score hscore => bearable_of_abs_le
      (by norm_num [PagedAttn.negSentinel]) (hscore.trans hbound)
  simp only [smallRope, List.getD_cons_succ, List.getD_cons_zero]
  split
  · exact Real.abs_cos_le_one _
  · exact Real.abs_sin_le_one _

/-- By its formulas, on two lanes over four usable blocks. -/
noncomputable def smallDeployment : Deployment ℝ small where
  transformer :=
    { tokEmbeddings := .ofTable fun id channel => id + channel
      layers := [smallBlock, smallBlock]
      length_layers := rfl
      norm := .rmsNorm (fun _ => 1) 1
      output := counting _ _ }
  ops := .formulas Real.exp (1 / Real.sqrt small.headDim)
  kernel := smallKernel
  rope := smallRope
  scale := 1 / Real.sqrt small.headDim
  laneCount := 2
  numBlocks := 5
  fits := ⟨rfl, rfl, rfl⟩
  honest_ops := TensorOps.honest_formulas _ _ _
  honest_kernel := ⟨fun _ hcube => Option.some.inj hcube ▸ PagedAttn.planes32_sane,
    fun _ _ _ _ _ _ => rfl, exponential_real, fun _ _ => rfl, rfl⟩
  rows := 8
  table := rfl
  covers := le_rfl
  tempered block hblock := by
    obtain rfl : block = smallBlock := by simpa using hblock
    exact small_tempered
  words := by constructor <;> decide

/-- A prompt in two chunks beside another lane, then both lanes in one decode. -/
theorem answers_recomputed_in_chunks :
    let cache := (PagedKvCache.new small.kvLayout 2 4 4 fun _ => (fun _ => 0, fun _ => 0)).get rfl
    let decoder : smallDeployment.Decoder :=
      ⟨cache, rfl, smallDeployment.transformer.lastLogits smallDeployment.device
        smallDeployment.rope⟩
    let session := Session.issueAll (⟨decoder, fun _ => []⟩ : smallDeployment.Session)
      [.prefill 0 [1] 0, .prefill 1 [0, 1] 0, .prefill 0 [0] 1]
    let issued := session.issue (.decode [⟨1, 1⟩, ⟨0, 1⟩])
    ∃ logits, issued.1 = some logits ∧
      logits.rows = [smallDeployment.recomputed [0, 1, 1], smallDeployment.recomputed [1, 0, 1]] := by
  intro cache decoder session issued
  have hcalls : ∀ other ∈ ([.prefill 0 [1] 0, .prefill 1 [0, 1] 0, .prefill 0 [0] 1] ++
      [.decode [⟨1, 1⟩, ⟨0, 1⟩]] : List DecoderCall), smallDeployment.Admits other := by
    simp [Admits, smallDeployment]
  have hnew : PagedKvCache.new small.kvLayout 2 4 4 (fun _ => (fun _ => 0, fun _ => 0)) =
      some decoder.cache := (@Option.some_get _ (PagedKvCache.new _ _ _ _ _) rfl).symm
  obtain ⟨_, hrows⟩ := answers_recomputed rfl rfl hnew hcalls
  have hanswered : issued.1.isSome = true := by decide +kernel
  have hfirst : issued.2.given 0 = [1, 0, 1] := by decide +kernel
  have hsecond : issued.2.given 1 = [0, 1, 1] := by decide +kernel
  obtain ⟨logits, hlogits⟩ := Option.isSome_iff_exists.mp hanswered
  refine ⟨logits, hlogits, ?_⟩
  have hlanes := hrows logits hlogits
  simp only [askedLanes, List.map_cons, List.map_nil] at hlanes
  rw [hlanes, hfirst, hsecond]

end Deployment

end BurnLm.Llama
