/-
# Batched generation

The library's own driver: a fixed batch of prompts, one slot each, advanced round
by round until every sequence is finished. It paces nothing and admits nobody
later. The first failed outcome ends the whole batch; the slots are released
either way.

The loop has no bound of its own. It is given fuel here, and `sampleLen + 1`
rounds are always enough.
-/

import BurnLm.Inference.Reservation
import BurnLm.Inference.RowWise
import BurnLm.Inference.Transparency
import BurnLm.Llama.Decoder
import BurnLm.Llama.Streaming

namespace BurnLm.Llama

open BurnLm.Math BurnLm.Inference

universe u v w t e c

/-- What generation needs of a tokenizer beside streaming. -/
class PromptTokenizer (T : Type t) extends Tokenizer T where
  encode : T → Text → Bool → Bool → List Token
  stopIds : T → List Token

/-- A decoder that owns its lanes. -/
class GenerationDecoder (D : Type u) (Row : outParam (Type v)) extends BatchedDecoder D Row where
  laneCount : D → ℕ
  /-- Forget every generation. -/
  reset : D → D

/-- What one prompt came to. -/
structure GenerationOutput where
  /-- The number of generated tokens. -/
  tokens : ℕ
  /-- The prompt and everything generated. -/
  sequence : List Token
  /-- What the emitter was handed. -/
  emitted : List Text
  deriving DecidableEq

/-- A batch whose loop has ended. -/
structure BatchRun (T : Type t) (D : Type u) where
  active : List (ActiveSeq (GenerationContext T))
  failure : Option InferenceError
  decoder : D
  rounds : ℕ

variable {T : Type t} {D : Type u} {Row : Type v} {E : Type e}

/-- The sequence a prompt starts as. -/
def startSeq [PromptTokenizer T] (tokenizer : T) (sampleLen slot : ℕ) (prompt : Text) :
    ActiveSeq (GenerationContext T) where
  slot := slot
  tokens := PromptTokenizer.encode tokenizer prompt false false
  processed := 0
  generated := 0
  maxGen := sampleLen
  finished := false
  kvReservation := 0
  paused := false
  extra := .new tokenizer

/-- The active set: a slot for each prompt, in order. -/
def startBatch [PromptTokenizer T] (tokenizer : T) (sampleLen : ℕ) (prompts : List Text)
    (emitters : List E) : List (ActiveSeq (GenerationContext T)) :=
  (prompts.zip emitters).zipIdx.map fun entry => startSeq tokenizer sampleLen entry.2 entry.1.1

/-- Send what a round generated to its stream, unless it is a stop id. -/
def streamed (seq : ActiveSeq (GenerationContext T)) : StepOutcome → ActiveSeq (GenerationContext T)
  | .stepped token isStop _ =>
    if isStop then seq else { seq with extra := seq.extra.update token }
  | _ => seq

section Rounds

variable [BatchedDecoder D Row] (sample : D → Logits Row → InferenceResult (List Token) × D)

/-- The output of a finished sequence. -/
def outputOf [Tokenizer T] (seq : ActiveSeq (GenerationContext T)) : GenerationOutput :=
  ⟨seq.generated, seq.tokens, seq.extra.finish.2.emitter⟩

/-- Release every slot, and finish every stream unless something failed. -/
def BatchRun.finish [Tokenizer T] (run : BatchRun T D) : InferenceResult (List GenerationOutput) × D :=
  let decoder := run.active.foldl (fun decoder seq => BatchedDecoder.release decoder seq.slot)
    run.decoder
  match run.failure with
  | some error => (.error error, decoder)
  | none => (.ok (run.active.map outputOf), decoder)

end Rounds

section Batch

variable [PromptTokenizer T] [GenerationDecoder D Row]
  (sample : D → Logits Row → InferenceResult (List Token) × D)

end Batch

/-! ## Streaming a round -/

/-- Streaming changes a sequence's stream only. -/
def Restreamed (seq after : ActiveSeq (GenerationContext T)) : Prop :=
  ∃ extra, after = { seq with extra }

theorem Restreamed.live {seq after : ActiveSeq (GenerationContext T)}
    (hstreamed : Restreamed seq after) (hlive : seq.Live) : after.Live := by
  obtain ⟨extra, rfl⟩ := hstreamed
  exact ⟨hlive.unpaused, hlive.owing⟩

theorem Restreamed.rest_eq {Task : Type w} (terms : Terms Row Task)
    {seq after : ActiveSeq (GenerationContext T)} (hstreamed : Restreamed seq after) :
    after.rest terms = seq.rest terms := by
  obtain ⟨extra, rfl⟩ := hstreamed
  rfl

section Loop

variable [BatchedDecoder D Row] {sample : D → Logits Row → InferenceResult (List Token) × D}
  {stopIds : List Token} {active : List (ActiveSeq (GenerationContext T))} {decoder : D}

end Loop

/-! ## What a sequence comes to -/

section Completed

variable [Tokenizer T] {Task : Type w} {terms : Terms Row Task}

/-- What a sequence comes to by its own tokens. -/
def completed (terms : Terms Row Task) (seq : ActiveSeq (GenerationContext T)) :
    GenerationOutput where
  tokens := seq.generated + (seq.rest terms).length
  sequence := seq.tokens ++ seq.rest terms
  emitted := (((seq.rest terms).filter fun token => token ∉ terms.stopIds).foldl
    TokenGeneration.process seq.extra.settled).emitter

variable {C : Type c} {model : LaneModel D C}

variable [BatchedDecoder D Row] {sample : D → Logits Row → InferenceResult (List Token) × D}
  {mayFail : Prop}

end Completed

/-! ## The batch -/

section Batches

variable [PromptTokenizer T] {Task : Type w} {terms : Terms Row Task} {tokenizer : T}
  {sampleLen : ℕ} {prompts : List Text} {emitters : List E}

/-- What a prompt comes to by its own tokens. -/
def generated (terms : Terms Row Task) (tokenizer : T) (sampleLen : ℕ) (prompt : Text) :
    GenerationOutput :=
  completed terms (startSeq tokenizer sampleLen 0 prompt)

theorem slots_startBatch (hemitters : prompts.length = emitters.length) :
    (startBatch tokenizer sampleLen prompts emitters).map ActiveSeq.slot =
      List.range prompts.length := by
  have hslots : (startBatch tokenizer sampleLen prompts emitters).map ActiveSeq.slot =
      (prompts.zip emitters).zipIdx.map Prod.snd := by
    rw [startBatch, List.map_map]
    rfl
  rw [hslots, List.zipIdx_map_snd, List.range_eq_range', List.length_zip, ← hemitters, min_self]

/-- Every sequence starts as its prompt does in any slot. -/
theorem mem_startBatch {seq : ActiveSeq (GenerationContext T)}
    (hseq : seq ∈ startBatch tokenizer sampleLen prompts emitters) :
    ∃ slot, ∃ prompt ∈ prompts, seq = startSeq tokenizer sampleLen slot prompt := by
  obtain ⟨⟨⟨prompt, emitter⟩, slot⟩, hentry, rfl⟩ := List.mem_map.mp hseq
  have hmem : (prompt, emitter) ∈ (prompts.zip emitters).zipIdx.map Prod.fst :=
    List.mem_map_of_mem hentry
  rw [List.zipIdx_map_fst] at hmem
  exact ⟨slot, prompt, (List.of_mem_zip hmem).1, rfl⟩

variable {C : Type c} {model : LaneModel D C} [GenerationDecoder D Row]
  {sample : D → Logits Row → InferenceResult (List Token) × D} {mayFail : Prop}

/-- A row-wise decoder that starts over when it is reset. -/
structure Generates (model : LaneModel D C) (terms : Terms Row Task)
    (sample : D → Logits Row → InferenceResult (List Token) × D) (mayFail : Prop) : Prop where
  rowWise : model.RowWise terms sample mayFail
  valid_lane : ∀ (decoder : D) (lane : ℕ), lane < GenerationDecoder.laneCount decoder →
    model.valid lane
  reset_sound : ∀ {decoder : D}, model.sound decoder →
    model.sound (GenerationDecoder.reset decoder)
  reset_empties : ∀ {decoder : D} {lane : ℕ}, model.sound decoder → model.valid lane →
    model.content (GenerationDecoder.reset decoder) lane = model.holding []

/-- A batch starts with decoder and sequences in step. -/
theorem Generates.holding (hgenerates : Generates model terms sample mayFail) {decoder : D}
    (hsound : model.sound decoder) (hemitters : prompts.length = emitters.length)
    (hlanes : prompts.length ≤ GenerationDecoder.laneCount decoder) :
    model.Holding (GenerationDecoder.reset decoder)
      (startBatch tokenizer sampleLen prompts emitters) := by
  have hslots := @slots_startBatch T E _ tokenizer sampleLen prompts emitters hemitters
  have hvalid : ∀ seq ∈ startBatch tokenizer sampleLen prompts emitters, model.valid seq.slot := by
    intro seq hseq
    have hslot : seq.slot ∈ List.range prompts.length :=
      hslots ▸ List.mem_map_of_mem hseq
    exact hgenerates.valid_lane decoder _ ((List.mem_range.mp hslot).trans_le hlanes)
  refine ⟨hgenerates.reset_sound hsound, hslots ▸ List.nodup_range, hvalid, ?_, ?_⟩ <;>
    intro seq hseq
  · obtain ⟨slot, prompt, _, rfl⟩ := mem_startBatch hseq
    exact Nat.zero_le _
  · intro _
    rw [hgenerates.reset_empties hsound (hvalid seq hseq)]
    obtain ⟨slot, prompt, _, rfl⟩ := mem_startBatch hseq
    rfl

end Batches

/-! ## Decoders -/

namespace LlamaDecoder

variable {α : Type u} {layout : PagedKv.KvLayout}

/-- Free every lane of the cache. -/
def reset (decoder : LlamaDecoder α Row layout) : LlamaDecoder α Row layout :=
  { decoder with
    cache := decoder.cache.reset
    layout_eq := by
      have hkept : ∀ (lanes : List ℕ) (cache : PagedKv.PagedKvCache α),
          (lanes.foldl PagedKv.PagedKvCache.resetLane cache).layout = cache.layout := by
        intro lanes
        induction lanes with
        | nil => exact fun _ => rfl
        | cons lane lanes ih => exact fun cache => (ih _).trans (resetLane_layout cache lane)
      exact (hkept _ decoder.cache).trans decoder.layout_eq }

instance : GenerationDecoder (LlamaDecoder α Row layout) Row where
  laneCount decoder := decoder.cache.pool.laneCount
  reset := reset

end LlamaDecoder

instance {config : RecallConfig} : GenerationDecoder (RecallServer config) (List Token) where
  laneCount _ := config.capacity.maxSlots
  reset _ := .fresh

/-- Letters are numbered from zero, and the fourth stops. -/
instance : PromptTokenizer LetterTokenizer where
  encode _ text _ _ := text.map fun char => UInt32.ofNat (char.toNat - 'a'.toNat)
  stopIds _ := [3]

end BurnLm.Llama
