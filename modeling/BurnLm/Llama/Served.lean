/-
# What a server generates

A server on a transformer prefills in chunks, lets strangers share its decodes,
evicts and comes back to what it evicted. The plainest way to generate has none of
that, and no cache either: run the training forward over all tokens so far, sample
its last row, append, and start over. Every request gets the tokens of the
plainest way.
-/

import BurnLm.Inference.Transparency
import BurnLm.Llama.Recompute
import BurnLm.Llama.Sampling

namespace BurnLm.Llama.Deployment

open BurnLm.PagedKv BurnLm.Inference

universe u w

variable {K Task : Type u} [Field K] [LinearOrder K] [IsStrictOrderedRing K] [Inhabited K]
  {config : TransformerConfig} {R : Type w}

/-- The lanes of a server are those of its decoder. -/
def served (deployed : Deployment K config) (R : Type w) :
    LaneModel (Driven deployed.Decoder R)
      (ℕ × List (List (TokenKv K config.nKvHeads config.headDim))) where
  valid := deployed.laneModel.valid
  sound server := deployed.Serves server.engine
  content server := deployed.laneModel.content server.engine
  holding := deployed.laneModel.holding
  samples := deployed.laneModel.samples

/-- All that the tokens for a request depend on, with the training forward for the
logits. -/
def terms (deployed : Deployment K config) (prompt : Task → InferenceResult (List Token))
    (pick : (Fin config.vocabSize → K) → Token) (stopIds : List Token) (maxGenTokens : ℕ) :
    Terms (Fin config.vocabSize → K) Task where
  prompt
  rowAfter := deployed.recomputed
  pick
  stopIds
  contextLen := config.maxSeqLen
  maxGenTokens

/-- Settings under which a request's tokens are settled by its task: at most as many
slots as there are lanes, and a sampler that picks every token from its own row. -/
structure Settles (R : Type w) [ServerSettings R (Fin config.vocabSize → K) Task]
    (deployed : Deployment K config) (terms : Terms (Fin config.vocabSize → K) Task) : Prop where
  slots : ∀ settings : R,
    (ServerSettings.batchCapacity settings).maxSlots ≤ deployed.laneCount
  sampler_picks : ∀ {configured settings : R} {logits : Logits (Fin config.vocabSize → K)}
    {ids : List Token}, (ServerSettings.sampler configured settings logits).1 = .ok ids →
      ids = logits.rows.map terms.pick
  prompt_eq : ∀ (settings : R) (task : Task),
    ServerSettings.tokenize settings task = terms.prompt task
  stopIds_eq : ∀ settings : R, ServerSettings.stopIds settings = terms.stopIds
  maxGenTokens_eq : ∀ settings : R, ServerSettings.maxGenTokens settings = terms.maxGenTokens

variable [ServerSettings R (Fin config.vocabSize → K) Task] {deployed : Deployment K config}

/-- A prefill the contract covers goes on from what was pushed. -/
theorem served_prefill {server : Driven deployed.Decoder R} {slot position : ℕ}
    {tokens pushed : List Token}
    (hcan : (deployed.served R).CanPrefill server slot tokens position pushed) :
    (deployed.served R).sound (prefill server slot tokens position).2 ∧
      (∀ lane, lane ≠ slot → (deployed.served R).content (prefill server slot tokens position).2 lane =
        (deployed.served R).content server lane) ∧
      ∀ logits, (prefill server slot tokens position).1 = .ok logits →
        logits.rows = [deployed.recomputed (pushed ++ tokens)] ∧
          (deployed.served R).content (prefill server slot tokens position).2 slot =
            (deployed.served R).holding (pushed ++ tokens) := by
  have hbefore : (if position = 0 then [] else pushed) = pushed := by
    split
    · next hzero => exact (List.eq_nil_of_length_eq_zero (hcan.position_eq.symm.trans hzero)).symm
    · rfl
  obtain ⟨hserves, hother, hanswer⟩ :=
    @Serves.prefill K _ _ _ config deployed _ _ hcan.sound slot position tokens pushed hcan.valid
      hcan.nonempty hcan.held
  rw [hbefore] at hanswer
  refine ⟨hserves, hother, fun logits hlogits => ?_⟩
  rcases hanswer with ⟨error, herror, _⟩ | ⟨answered, hok, hrows, hpushed⟩
  · exact absurd (herror.symm.trans hlogits) (by simp)
  · obtain rfl := Except.ok.inj (hok.symm.trans hlogits)
    exact ⟨hrows, hpushed⟩

/-- A fused decode the contract covers goes on from what was pushed, row by row. -/
theorem served_decode {server : Driven deployed.Decoder R} {rows : List DecodeRow}
    {pushed : DecodeRow → List Token} (hcan : (deployed.served R).CanDecode server rows pushed) :
    (deployed.served R).sound (decode server rows).2 ∧
      (∀ lane, (∀ row ∈ rows, row.slot ≠ lane) →
        (deployed.served R).content (decode server rows).2 lane =
          (deployed.served R).content server lane) ∧
      ∀ logits, (decode server rows).1 = .ok logits →
        logits.rows = rows.map (fun row => deployed.recomputed (pushed row ++ [row.token])) ∧
          ∀ row ∈ rows, (deployed.served R).content (decode server rows).2 row.slot =
            (deployed.served R).holding (pushed row ++ [row.token]) := by
  obtain ⟨hserves, hother, hanswer⟩ :=
    @Serves.decode K _ _ _ config deployed _ _ hcan.sound rows pushed hcan.nodup hcan.valid
      hcan.nonempty hcan.held
  refine ⟨hserves, hother, fun logits hlogits => ?_⟩
  rcases hanswer with ⟨error, herror, _⟩ | ⟨answered, hok, hrows, hpushed⟩
  · exact absurd (herror.symm.trans hlogits) (by simp)
  · obtain rfl := Except.ok.inj (hok.symm.trans hlogits)
    exact ⟨hrows, hpushed⟩

/-- Such a server owes its scheduler nothing. -/
theorem served_honoured {terms : Terms (Fin config.vocabSize → K) Task}
    (hsettles : deployed.Settles R terms) : (deployed.served R).Honoured where
  valid_slot server _ hslot := lt_of_lt_of_le hslot (hsettles.slots server.settings)
  reborrow _ _ := rfl
  decoder_sound _ hsound := hsound
  decoder_content _ _ := rfl
  prefill_sound hcan := (served_prefill hcan).1
  prefill_self hcan hlogits := ((served_prefill hcan).2.2 _ hlogits).2
  prefill_other hcan hlane := (served_prefill hcan).2.1 _ hlane
  prefill_samples _ _ _ _ := trivial
  decode_sound hcan := (served_decode hcan).1
  decode_self hcan hlogits := ((served_decode hcan).2.2 _ hlogits).2
  decode_other hcan hlane := (served_decode hcan).2.1 _ hlane
  decode_samples _ _ _ _ _ _ := trivial
  release_sound hsound _ := (Serves.resetLane hsound _).1
  release_self hsound _ := (Serves.resetLane hsound _).2.1
  release_other hsound _ hlane := (Serves.resetLane hsound _).2.2 _ hlane
  sampler_sound hsound := hsound
  sampler_content _ _ _ _ := rfl

/-- Its logits depend on nothing but the tokens in the slot. -/
theorem served_determined {prompt : Task → InferenceResult (List Token)}
    {pick : (Fin config.vocabSize → K) → Token} {stopIds : List Token} {maxGenTokens : ℕ}
    (hsettles : deployed.Settles R (deployed.terms prompt pick stopIds maxGenTokens)) :
    (deployed.served R).Determined (deployed.terms prompt pick stopIds maxGenTokens) where
  honoured := served_honoured hsettles
  prefill_row hcan hlogits := ((served_prefill hcan).2.2 _ hlogits).1
  decode_rows hcan hlogits := ((served_decode hcan).2.2 _ hlogits).1
  sampler_picks hsampled := hsettles.sampler_picks hsampled
  prompt_eq server task := hsettles.prompt_eq server.settings task
  stopIds_eq server := hsettles.stopIds_eq server.settings
  context_eq server := congrArg KvLayout.maxSeqLen server.engine.layout_eq
  maxGenTokens_eq server := hsettles.maxGenTokens_eq server.settings

/-- **A served request generates by recomputing.** From a fresh cache, in every run
over submissions and cancellations, the tokens generated for a request are, in
order, the first of those the training forward generates for its prompt, each from
all tokens before it, up to a stop id, the cap or the end of the context; and all of
them if the request is told anything but a failure or that it was cancelled. -/
theorem served_by_recomputing {prompt : Task → InferenceResult (List Token)}
    {pick : (Fin config.vocabSize → K) → Token} {stopIds : List Token} {maxGenTokens : ℕ}
    (hsettles : deployed.Settles R (deployed.terms prompt pick stopIds maxGenTokens))
    {engine : deployed.Decoder}
    (hmodel : engine.model = deployed.transformer.lastLogits deployed.device deployed.rope)
    {blockSize usableBlocks : ℕ} {uninit : ℕ → (List ℕ → K) × (List ℕ → K)}
    (hblocks : deployed.numBlocks = usableBlocks + 1)
    (hnew : PagedKvCache.new config.kvLayout deployed.laneCount blockSize usableBlocks uninit =
      some engine.cache) (settings : R) (envs : List (TurnEnv Task))
    (hcommands : ∀ env ∈ envs, ∀ command ∈ env.commands, command.isServed = false) :
    let terms := deployed.terms prompt pick stopIds maxGenTokens
    let log := (Worker.run envs (Worker.spawn (Driven.fresh engine settings))).2.log
    ∀ id queued, (id, queued) ∈ assignments log → ∃ tokens, prompt queued.job.task = .ok tokens ∧
      generatedFor log id <+: terms.solo (queued.job.maxGen maxGenTokens) tokens ∧
      ∀ stats, verdict log id = some (.ok stats) →
        .named finishReasonStatName "Cancelled" ∉ stats.entries →
          generatedFor log id = terms.solo (queued.job.maxGen maxGenTokens) tokens := by
  intro terms log id queued hqueued
  have hsound : (deployed.served R).sound (Driven.fresh engine settings) :=
    (Serves.fresh hmodel hblocks hnew).1
  obtain ⟨_, htransparent⟩ :=
    Worker.transparent_of_run (served_determined hsettles) hsound envs hcommands
  obtain ⟨tokens, htokens⟩ := htransparent.readable (id, queued) hqueued
  have hanswer : terms.answer queued = terms.solo (queued.job.maxGen maxGenTokens) tokens := by
    simp only [Terms.answer, htokens, terms]
    rfl
  refine ⟨tokens, htokens, ?_, fun stats htold huncancelled => ?_⟩
  · exact hanswer ▸ htransparent.initial id queued hqueued
  · exact hanswer ▸ htransparent.told id queued hqueued stats htold huncancelled

/-- Settings for the small deployment: greedy, prompts in chunks of one, no stop
ids. -/
inductive Greedy
  | mk

/-- The sampler at temperature zero. -/
noncomputable def greedySample (logits : Logits (Fin small.vocabSize → ℝ)) :
    InferenceResult (List Token) :=
  LlamaSampler.sample (.exact 1) ⟨1, 0⟩ (fun _ _ => 0) logits

/-- The likelier of two tokens. -/
noncomputable def greedyPick (row : Fin small.vocabSize → ℝ) : Token :=
  UInt32.ofNat ((SamplerOps.exact 1).argmax fun i => (row i : ℝ))

theorem greedySample_eq (logits : Logits (Fin small.vocabSize → ℝ)) :
    greedySample logits = .ok (logits.rows.map greedyPick) :=
  LlamaSampler.sample_of_greedy _ _ le_rfl _ _

noncomputable instance : ServerSettings Greedy (Fin small.vocabSize → ℝ) (List Token) where
  downloader settings := (none, settings)
  isDownloaded settings := (true, settings)
  deleter settings := (none, settings)
  parseCliConfig settings _ := settings
  parseJsonConfig settings _ := settings
  load settings := (.ok none, settings)
  isLoaded settings := (true, settings)
  unload settings := (.ok none, settings)
  clearState settings := (.ok (), settings)
  batchCapacity _ := ⟨2, ⟨4, 4⟩⟩
  prefillChunkSize _ := 1
  prefillTokenBudget _ := 0
  kvAdmission _ := .elastic
  tokenize _ task := .ok task
  detokenizeBytes _ tokens := tokens.map UInt32.toUInt8
  stopIds _ := []
  maxGenTokens _ := 4
  sampler _ settings logits := (greedySample logits, settings)

/-- Two requests served together, the first to its end. -/
theorem served_by_recomputing_together :
    let cache := (PagedKvCache.new small.kvLayout 2 4 4 fun _ => (fun _ => 0, fun _ => 0)).get rfl
    let engine : smallDeployment.Decoder :=
      ⟨cache, rfl, smallDeployment.transformer.lastLogits smallDeployment.device
        smallDeployment.rope⟩
    let terms := smallDeployment.terms .ok greedyPick [] 4
    let envs : List (TurnEnv (List Token)) :=
      .taking [.submission 0 2 [1, 0], .submission 1 3 [1]] :: List.replicate 3 (.taking [])
    let log := (Worker.run envs (Worker.spawn (Driven.fresh engine Greedy.mk))).2.log
    generatedFor log 0 = terms.solo 2 [1, 0] ∧ generatedFor log 1 <+: terms.solo 3 [1] := by
  intro cache engine terms envs log
  have hsettles : smallDeployment.Settles Greedy terms :=
    ⟨fun _ => le_rfl, fun hsampled => (Except.ok.inj ((greedySample_eq _).symm.trans hsampled)).symm,
      fun _ _ => rfl, fun _ => rfl, fun _ => rfl⟩
  have hnew : PagedKvCache.new small.kvLayout 2 4 4 (fun _ => (fun _ => 0, fun _ => 0)) =
      some engine.cache := (@Option.some_get _ (PagedKvCache.new _ _ _ _ _) rfl).symm
  have hfirst : (0, ⟨⟨[1, 0], 0, some 2, 0⟩, 0, 0⟩) ∈ assignments log := by decide +kernel
  have hsecond : (1, ⟨⟨[1], 1, some 3, 1⟩, 1, 0⟩) ∈ assignments log := by decide +kernel
  have htold : ∃ stats, verdict log 0 = some (.ok stats) ∧
      .named finishReasonStatName "Cancelled" ∉ stats.entries := by
    refine ⟨⟨[.named finishReasonStatName "Length", .named queueWaitStatName (renderSeconds 0),
      .tokensCount 2]⟩, by decide +kernel, by decide⟩
  have hserved := served_by_recomputing hsettles rfl rfl hnew Greedy.mk envs (by decide)
  obtain ⟨_, hprompt, _, hall⟩ := hserved 0 _ hfirst
  obtain rfl := Except.ok.inj hprompt
  obtain ⟨_, hprompt, hstarts, _⟩ := hserved 1 _ hsecond
  obtain rfl := Except.ok.inj hprompt
  obtain ⟨stats, hverdict, huncancelled⟩ := htold
  exact ⟨hall stats hverdict huncancelled, hstarts⟩

end BurnLm.Llama.Deployment
