/-
# Both forwards are one stack

The blocks of a transformer stack up to causal layers. The training forward runs
that stack over whole sequences, from no records. The lane-aware forward runs it
over the new rows of every lane, on top of the records the lane's live positions
hold in each layer, and leaves the new ones there. Both end in the same norm and
projection, so the last logits of a round are those of the training forward over
everything its lane was given.
-/

import BurnLm.Llama.CausalBlock

namespace BurnLm.Llama

open BurnLm.Math BurnLm.PagedKv BurnLm.Inference

universe u

/-! ## Ids -/

/-- The input of a forward, one list of tokens per lane. -/
def idsOf (input : List (List Token)) : Tensor ℤ :=
  .fromData (input.flatten.map Transformer.asI32) [input.length, (input.headD []).length]

/-- Lists of one width are laid out row by row. -/
theorem entry_idsOf {input : List (List Token)} {q j r : ℕ} {tokens : List Token}
    (hwidth : ∀ tokens ∈ input, tokens.length = q) (hj : input[j]? = some tokens) (hr : r < q) :
    (idsOf input).entry [j, r] = Transformer.asI32 (tokens.getD r 0) := by
  have hmem : tokens ∈ input := List.mem_of_getElem? hj
  obtain ⟨first, rest, rfl⟩ := List.exists_cons_of_ne_nil (List.ne_nil_of_mem hmem)
  have hfirst : first.length = q := hwidth first List.mem_cons_self
  have hflat : ((first :: rest).flatten.map Transformer.asI32) =
      (first :: rest).flatMap fun tokens => tokens.map Transformer.asI32 := by
    rw [List.map_flatten]
    rfl
  simp only [idsOf, Tensor.fromData, Tensor.offset, List.prod_cons, List.prod_nil, mul_one,
    add_zero, List.headD_cons, hfirst, hflat]
  rw [getD_flatMap_of_length _ _ (fun tokens htokens => by
    rw [List.length_map, hwidth tokens htokens]) hr _ tokens hj]
  have hlt : r < tokens.length := hwidth tokens hmem ▸ hr
  rw [List.getD_eq_getElem _ _ (by simpa using hlt), List.getD_eq_getElem _ _ hlt, List.getElem_map]

/-- The last position of every lane, cut out and flattened. -/
theorem entry_lastPosition {α : Type u} (logits : Tensor α) {n seqLen vocab j : ℕ} (hj : j < n)
    (hseq : 0 < seqLen) (channel : Fin vocab) :
    ((logits.slice [(0, n), (seqLen - 1, seqLen), (0, vocab)]).reshape [n, vocab]).entry
        [j, channel] = tokenRow logits vocab j (seqLen - 1) channel := by
  have hone : seqLen - (seqLen - 1) = 1 := by omega
  have hshape : (logits.slice [(0, n), (seqLen - 1, seqLen), (0, vocab)]).shape = [n, 1, vocab] := by
    simp [Tensor.slice, hone]
  have hsource : Tensor.InBounds [n, 1, vocab] [j, 0, channel] :=
    .cons hj (.cons one_pos (.cons channel.isLt .nil))
  refine (Tensor.entry_reshape _ (hshape ▸ hsource) ?_).trans ?_
  · rw [hshape]
    simp only [Tensor.offset, List.prod_cons, List.prod_nil]
    ring
  · simp [Tensor.slice, tokenRow]

variable {K : Type u} [Field K] {config : TransformerConfig}

namespace Transformer

/-! ## The stack -/

section Stack

variable (transformer : Transformer K config) (exp : K → K) (scale : K) (rope : RotaryEncoding K)

/-- The causal layers of the blocks. -/
def stack : List (CausalLayer (Fin config.dModel → K) (TokenKv K config.nKvHeads config.headDim)) :=
  transformer.layers.map fun block => block.causal exp scale rope

/-- The rows tokens are looked up as. -/
def embedded (tokens : List Token) : List (Fin config.dModel → K) :=
  tokens.map fun token => transformer.tokEmbeddings.row (asI32 token)

/-- The logits of a row that came out of the stack. -/
def unembed (row : Fin config.dModel → K) : Fin config.vocabSize → K :=
  transformer.output.row (transformer.norm.row row)

/-- The plain way to the logits after some tokens: the training forward over all
of them, and its last row. -/
def recomputed (device : Device K) (tokens : List Token) : Fin config.vocabSize → K :=
  tokenRow (transformer.forwardTrain device rope (idsOf [tokens])) config.vocabSize 0
    (tokens.length - 1)

/-- The records the stack keeps for a lane's tokens. -/
def records (tokens : List Token) : List (List (TokenKv K config.nKvHeads config.headDim)) :=
  CausalLayer.pushAll (transformer.stack exp scale rope)
    (CausalLayer.fresh (transformer.stack exp scale rope)) (transformer.embedded tokens)

end Stack

omit [Field K] in
/-- Looking tokens up lays their rows out lane by lane. -/
theorem laneRows_embedding (transformer : Transformer K config) {input : List (List Token)} {q j : ℕ}
    {tokens : List Token} (hwidth : ∀ tokens ∈ input, tokens.length = q)
    (hj : input[j]? = some tokens) :
    laneRows (transformer.tokEmbeddings.forward (idsOf input)) config.dModel q j =
      transformer.embedded tokens := by
  have hmem : tokens ∈ input := List.mem_of_getElem? hj
  have hlt : j < input.length := (List.getElem?_eq_some_iff.mp hj).1
  have hshape : (idsOf input).shape = [input.length, q] := by
    obtain ⟨first, rest, rfl⟩ := List.exists_cons_of_ne_nil (List.ne_nil_of_mem hmem)
    simp [idsOf, Tensor.fromData, hwidth first List.mem_cons_self]
  refine List.ext_getElem (by simp [embedded, hwidth tokens hmem]) fun r hr _ => ?_
  have hr' : r < q := by simpa using hr
  simp only [laneRows, embedded, List.getElem_map, List.getElem_range]
  rw [transformer.tokEmbeddings.row_forward hshape hlt hr', entry_idsOf hwidth hj hr',
    List.getD_eq_getElem _ _ (hwidth tokens hmem ▸ hr')]

omit [Field K] in
/-- Norm and output projection of a batch. -/
theorem unembed_rows (transformer : Transformer K config) {h : Tensor K} {n q j r : ℕ}
    (hh : h.shape = [n, q, config.dModel]) (hj : j < n) (hr : r < q) :
    tokenRow (transformer.output.forward (transformer.norm.forward h)) config.vocabSize j r =
      transformer.unembed (tokenRow h config.dModel j r) := by
  rw [transformer.output.row_forward (transformer.norm.shape_forward hh) hj hr,
    transformer.norm.row_forward hh hj hr, unembed]

section Device

variable {exp : K → K} {scale : K} {device : Device K} {rope : RotaryEncoding K} {rows : ℕ}

/-- The training forward is the stack without records. -/
theorem foldl_forwardTrain (hops : device.toTensorOps.Honest exp scale config) (hfits : config.Fits)
    (htable : rope.freqComplex.shape = [rows, config.headDim, 2]) {n q : ℕ} (hrows : q ≤ rows)
    (blocks : List (TransformerBlock K config)) {h : Tensor K}
    (hh : h.shape = [n, q, config.dModel]) :
    (blocks.foldl (fun h block => block.forwardTrain device rope h) h).shape =
        [n, q, config.dModel] ∧
      ∀ {j : ℕ}, j < n →
        laneRows (blocks.foldl (fun h block => block.forwardTrain device rope h) h) config.dModel q
            j =
          CausalLayer.answersAll (blocks.map fun block => block.causal exp scale rope)
            (CausalLayer.fresh (blocks.map fun block => block.causal exp scale rope))
            (laneRows h config.dModel q j) := by
  induction blocks generalizing h with
  | nil => exact ⟨hh, fun _ => rfl⟩
  | cons block blocks ih =>
      obtain ⟨hshape, hblock⟩ := block.forwardTrain_rows hops hfits htable hrows hh
      obtain ⟨hrest, hanswers⟩ := ih hshape
      refine ⟨hrest, fun {j} hj => ?_⟩
      rw [List.foldl_cons, hanswers hj, hblock hj]
      rfl

/-- The last logits of the training forward are the stack's last answer. -/
theorem recomputed_eq (hops : device.toTensorOps.Honest exp scale config) (hfits : config.Fits)
    (htable : rope.freqComplex.shape = [rows, config.headDim, 2])
    (transformer : Transformer K config) {tokens : List Token} (hnonempty : tokens ≠ [])
    (hrows : tokens.length ≤ rows) :
    some (transformer.recomputed rope device tokens) =
      (CausalLayer.answersAll (transformer.stack exp scale rope)
        (CausalLayer.fresh (transformer.stack exp scale rope))
          (transformer.embedded tokens)).getLast?.map transformer.unembed := by
  have hpos : 0 < tokens.length := List.length_pos_iff.mpr hnonempty
  have hwidth : ∀ other ∈ [tokens], other.length = tokens.length := by simp
  have hshape : (transformer.tokEmbeddings.forward (idsOf [tokens])).shape =
      [1, tokens.length, config.dModel] := transformer.tokEmbeddings.shape_forward rfl
  obtain ⟨hout, hanswers⟩ := foldl_forwardTrain hops hfits htable hrows transformer.layers hshape
  have hlast := hanswers one_pos
  rw [transformer.laneRows_embedding hwidth rfl] at hlast
  rw [stack, ← hlast, laneRows, List.getLast?_map, List.getLast?_range, if_neg hpos.ne',
    Option.map_some, Option.map_some, recomputed, forwardTrain,
    transformer.unembed_rows hout one_pos (by omega)]

variable [Inhabited K] {inRange : K → Prop} {numBlocks seqLen : ℕ} {pool after : BlockPool}
  {lanes : List ℕ}

/-- What a lane's live positions hold, layer by layer. -/
def transcript (layers : List (KeyValueCache K)) (pool : BlockPool) (config : TransformerConfig)
    (lane : ℕ) : List (List (TokenKv K config.nKvHeads config.headDim)) :=
  layers.map fun kv => kv.laneRecords pool config.nKvHeads config.headDim lane

/-- **All blocks of a round are the stack**, lane by lane, on top of what the
lanes' live positions hold. -/
theorem exists_forwardLayers (hdevice : device.Honest exp scale inRange config)
    (hfits : config.Fits) (htable : rope.freqComplex.shape = [rows, config.headDim, 2])
    (hround : GrantedRound config rows pool after lanes seqLen)
    {blocks : List (TransformerBlock K config)}
    (htempered : ∀ block ∈ blocks, block.Tempered scale rope rows inRange)
    {layers : List (KeyValueCache K)} (hlength : blocks.length = layers.length)
    (hlayers : ∀ kv ∈ layers, kv.Shaped numBlocks pool.blockSize config.nKvHeads config.headDim)
    (hkept : ∀ {j lane : ℕ}, lanes[j]? = some lane → List.Forall₂ CausalLayer.Kept
      (blocks.map fun block => block.causal exp scale rope) (transcript layers pool config lane))
    {h : Tensor K} (hh : h.shape = [lanes.length, seqLen, config.dModel]) :
    let stack := blocks.map fun block => block.causal exp scale rope
    ∃ out written, forwardLayers device rope (planOf pool after lanes seqLen) blocks layers h =
        some (out, written) ∧
      out.shape = [lanes.length, seqLen, config.dModel] ∧ written.length = layers.length ∧
      (∀ kv ∈ written, kv.Shaped numBlocks after.blockSize config.nKvHeads config.headDim) ∧
      (∀ {j lane : ℕ}, lanes[j]? = some lane →
        laneRows out config.dModel seqLen j =
            CausalLayer.answersAll stack (transcript layers pool config lane)
              (laneRows h config.dModel seqLen j) ∧
          transcript written after config lane =
            CausalLayer.pushAll stack (transcript layers pool config lane)
              (laneRows h config.dModel seqLen j)) ∧
      ∀ lane ∉ lanes, transcript written after config lane = transcript layers pool config lane := by
  intro stack
  induction blocks generalizing layers h with
  | nil =>
      obtain rfl : layers = [] := List.eq_nil_of_length_eq_zero hlength.symm
      exact ⟨h, [], rfl, hh, rfl, by simp, fun _ => ⟨rfl, rfl⟩, fun _ _ => rfl⟩
  | cons block blocks ih =>
      obtain ⟨kv, rest, rfl⟩ : ∃ kv rest, layers = kv :: rest :=
        List.exists_cons_of_ne_nil (by rintro rfl; simp at hlength)
      obtain ⟨mid, kv', hblock, hmid, hkv', hanswers, hothers⟩ :=
        TransformerBlock.exists_forwardLanes hdevice hfits htable hround
          (hlayers kv List.mem_cons_self) (htempered block List.mem_cons_self) hh
          fun hj => (List.forall₂_cons.mp (hkept hj)).1
      obtain ⟨out, rest', hforward, hout, hcount, hshaped, hrest, huntouched⟩ :=
        ih (fun block hblock => htempered block (List.mem_cons_of_mem _ hblock))
          (by simpa using hlength) (fun kv hkv => hlayers kv (List.mem_cons_of_mem _ hkv))
          (fun hj => (List.forall₂_cons.mp (hkept hj)).2) hmid
      refine ⟨out, kv' :: rest', ?_, hout, by simpa using hcount, ?_, fun {j lane} hj => ?_,
        fun lane hlane => ?_⟩
      · simp only [forwardLayers, hblock, hforward, Option.bind_eq_bind, Option.bind_some]
      · rintro other hother
        rcases List.mem_cons.mp hother with rfl | hother
        · exact hkv'
        · exact hshaped other hother
      · obtain ⟨hrow, hpush⟩ := hanswers hj
        obtain ⟨hlast, hpushes⟩ := hrest hj
        rw [hrow] at hlast hpushes
        exact ⟨hlast, congrArg₂ List.cons hpush hpushes⟩
      · exact congrArg₂ List.cons (hothers lane hlane) (huntouched lane hlane)

/-- What a round answers a lane: the stack's last answer to the lane's tokens, on
top of what the lane's live positions hold. -/
theorem lastLogits_round (hdevice : device.Honest exp scale inRange config)
    (hfits : config.Fits) (htable : rope.freqComplex.shape = [rows, config.headDim, 2])
    (hround : GrantedRound config rows pool after lanes seqLen) {transformer : Transformer K config}
    (htempered : ∀ block ∈ transformer.layers, block.Tempered scale rope rows inRange)
    {layers : List (KeyValueCache K)} (hlength : layers.length = config.nLayers)
    (hlayers : ∀ kv ∈ layers, kv.Shaped numBlocks pool.blockSize config.nKvHeads config.headDim)
    (hkept : ∀ {j lane : ℕ}, lanes[j]? = some lane → List.Forall₂ CausalLayer.Kept
      (transformer.stack exp scale rope) (transcript layers pool config lane))
    {input : List (List Token)} (hinput : input.length = lanes.length)
    (hwidth : ∀ tokens ∈ input, tokens.length = seqLen) :
    let stack := transformer.stack exp scale rope
    ∃ logits written, transformer.lastLogits device rope input (planOf pool after lanes seqLen)
        layers = (logits, written) ∧
      written.length = config.nLayers ∧
      (∀ kv ∈ written, kv.Shaped numBlocks after.blockSize config.nKvHeads config.headDim) ∧
      logits.rows.length = lanes.length ∧
      (∀ {j lane : ℕ} {tokens : List Token}, lanes[j]? = some lane → input[j]? = some tokens →
        logits.rows[j]? = (CausalLayer.answersAll stack (transcript layers pool config lane)
            (transformer.embedded tokens)).getLast?.map transformer.unembed ∧
          transcript written after config lane =
            CausalLayer.pushAll stack (transcript layers pool config lane)
              (transformer.embedded tokens)) ∧
      ∀ lane ∉ lanes, transcript written after config lane = transcript layers pool config lane := by
  intro stack
  have hsome : input ≠ [] := by
    rw [← List.length_pos_iff, hinput]
    exact List.length_pos_iff.mpr hround.nonempty
  have hhead : (input.headD []).length = seqLen := by
    obtain ⟨first, rest, rfl⟩ := List.exists_cons_of_ne_nil hsome
    exact hwidth first List.mem_cons_self
  have hshape : (idsOf input).shape = [lanes.length, seqLen] := by
    rw [← hinput, ← hhead]
    rfl
  obtain ⟨out, written, hforward, hout, hcount, hshaped, hrows, huntouched⟩ :=
    exists_forwardLayers hdevice hfits htable hround htempered
      (transformer.length_layers.trans hlength.symm) hlayers hkept
      (transformer.tokEmbeddings.shape_forward hshape)
  set logits := transformer.output.forward (transformer.norm.forward out)
  have hlogits : logits.shape = [lanes.length, seqLen, config.vocabSize] :=
    transformer.output.shape_forward (transformer.norm.shape_forward hout)
  have hlanes : transformer.forwardLanes device rope (planOf pool after lanes seqLen) layers
      (.fromData (input.flatten.map asI32) [input.length, (input.headD []).length]) =
        some (logits, written) := by
    have hids : Tensor.fromData (input.flatten.map asI32) [input.length, (input.headD []).length] =
        idsOf input := rfl
    rw [hids, forwardLanes, hforward]
    rfl
  refine ⟨_, written, by rw [lastLogits, hlanes], hcount.trans hlength, hshaped, by simp [hinput],
    fun {j lane tokens} hj htokens => ?_, huntouched⟩
  have hlt : j < lanes.length := (List.getElem?_eq_some_iff.mp hj).1
  obtain ⟨hlast, hpush⟩ := hrows hj
  rw [transformer.laneRows_embedding hwidth htokens] at hlast hpush
  refine ⟨?_, hpush⟩
  have hseq := hround.seqLen_pos
  have hanswer : (CausalLayer.answersAll stack (transcript layers pool config lane)
      (transformer.embedded tokens)).getLast? =
        some (tokenRow out config.dModel j (seqLen - 1)) := by
    refine (congrArg List.getLast? hlast.symm).trans ?_
    rw [laneRows, List.getLast?_map, List.getLast?_range, if_neg hseq.ne', Option.map_some]
  rw [hanswer, Option.map_some, ← transformer.unembed_rows hout hlt (by omega), List.getElem?_map,
    List.getElem?_range (hinput.symm ▸ hlt), Option.map_some, hhead, hinput]
  exact congrArg some (funext fun channel => entry_lastPosition logits hlt hseq channel)

end Device

end Transformer

end BurnLm.Llama
