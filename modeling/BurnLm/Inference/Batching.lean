/-
# The shared decode core

One round turns a batch of in-flight sequences into at most one token each. The
round owns nothing a driver would: it looks at a list of sequences, calls the
decoder, samples, and says per sequence what happened. A decoder is anything
with slots that can be prefilled, decoded and released; where the worker borrows
it from a server, the server is that decoder.

Logits cross as one value per row. The vocabulary width is kept because a
contract violation reports it. The round is written as three passes over one
list of entries, a sequence with what it was classified as and its outcome, in
the order in which the source's index vectors visit them.
-/

import Mathlib.Algebra.Order.Floor.Div
import Mathlib.Data.List.Basic

namespace BurnLm.Inference

universe u v w

abbrev Token : Type := UInt32

inductive InferenceError
  | deleteError (model reason : String)
  | downloadError (model reason : String)
  | loadError (model : String)
  | modelNotLoaded
  | pluginDownloadUnsupportedError (plugin : String)
  | unloadError (model reason : String)
  /-- A sequence would not fit the context window. -/
  | contextLengthExceeded (tokens window : ℕ)
  /-- A request needs this many more blocks than the pool holds. -/
  | kvPoolExhausted (missing : ℕ)
  | batchContractViolation (message : String)
  /-- In-flight sequences and queued jobs that must finish first. -/
  | busy (active queued : ℕ)
  | cancelled
  | overloaded
  | workerDied
  deriving DecidableEq, Repr

abbrev InferenceResult (α : Type u) : Type u := Except InferenceError α

/-- How admission charges a sequence against the pool: its worst case up front,
or its prompt first and growth block by block. -/
inductive KvAdmission
  | reserve
  | elastic
  deriving DecidableEq, Repr

structure KvBudget where
  blockSize : ℕ
  /-- Usable blocks in the pool. -/
  totalBlocks : ℕ
  deriving DecidableEq, Repr

def usizeMax : ℕ := 2 ^ 64 - 1

namespace KvBudget

def unlimited : KvBudget := ⟨1, usizeMax⟩

/-- How many blocks a sequence of `tokens` tokens occupies. -/
def blocksFor (kv : KvBudget) (tokens : ℕ) : ℕ := tokens ⌈/⌉ kv.blockSize

end KvBudget

structure BatchCapacity where
  maxSlots : ℕ
  kv : KvBudget
  deriving DecidableEq, Repr

/-- One decoding sequence's next input. -/
structure DecodeRow where
  slot : ℕ
  token : Token
  deriving DecidableEq, Repr

/-- Logits, `[rows, vocab]`. -/
structure Logits (Row : Type v) where
  vocab : ℕ
  rows : List Row
  deriving DecidableEq, Repr

/-- A batch-capable decoder. Every operation leaves a decoder behind, also when
it fails. -/
class BatchedDecoder (D : Type u) (Row : outParam (Type v)) where
  /-- Run tokens into one slot; `position` is the absolute position of the
  first. -/
  prefill : D → ℕ → List Token → ℕ → InferenceResult (Logits Row) × D
  decode : D → List DecodeRow → InferenceResult (Logits Row) × D
  release : D → ℕ → D
  maxContextLen : D → ℕ

structure ActiveSeq (Extra : Type u) where
  slot : ℕ
  /-- Prompt and everything generated. -/
  tokens : List Token
  /-- How many tokens went through the decoder. -/
  processed : ℕ
  generated : ℕ
  maxGen : ℕ
  /-- The next sweep retires it. -/
  finished : Bool
  /-- Blocks reserved against the budget. -/
  kvReservation : ℕ
  /-- Sits this round out. -/
  paused : Bool
  /-- The driver's payload, opaque to the round. -/
  extra : Extra
  deriving DecidableEq, Repr

/-- What one round did to one sequence. -/
inductive StepOutcome
  | skipped
  | stepped (token : Token) (isStop finished : Bool)
  | prefilling
  | failed (error : InferenceError)
  deriving DecidableEq, Repr

/-- The prompt tokens a round may still prefill; `none` is unbounded. -/
structure PrefillBudget where
  remaining : Option ℕ
  deriving DecidableEq, Repr

variable {X : Type w}

/-- Whether a sequence has been through the decoder and owes one token. -/
def ActiveSeq.isDecoding (seq : ActiveSeq X) : Bool :=
  !seq.finished && seq.generated < seq.maxGen && 0 < seq.processed &&
    seq.tokens.length == seq.processed + 1

namespace PrefillBudget

/-- The budget of one round: it binds only while something is decoding. -/
def forRound (active : List (ActiveSeq X)) (tokenBudget : ℕ) : PrefillBudget :=
  if active.any ActiveSeq.isDecoding ∧ 0 < tokenBudget then ⟨some tokenBudget⟩ else ⟨none⟩

/-- How many of the wanted tokens may go in now, and the budget left. -/
def admitPrefill (budget : PrefillBudget) (wanted : ℕ) : Option ℕ × PrefillBudget :=
  match budget.remaining with
  | none => (some wanted, budget)
  | some 0 => (none, budget)
  | some remaining => (some (min wanted remaining), ⟨some (remaining - min wanted remaining)⟩)

end PrefillBudget

def expectRows {Row : Type v} (inRows : ℕ) (logits : Logits Row) : InferenceResult (Logits Row) :=
  let rows := logits.rows.length
  let vocab := logits.vocab
  if rows = inRows then .ok logits
  else
    .error (.batchContractViolation
      (s!"decoder returned logits [{rows}, {vocab}] for {inRows} input row(s); " ++
        s!"expected [{inRows}, vocab]"))

/-- Apply a sampled token, or the reason there is none, to one sequence. -/
def advanceOrFail (stopIds : List Token) (seq : ActiveSeq X) :
    InferenceResult Token → ActiveSeq X × StepOutcome
  | .error error => ({ seq with finished := true }, .failed error)
  | .ok nextToken =>
    let isStop := nextToken ∈ stopIds
    let finished := seq.finished || isStop || decide (seq.maxGen ≤ seq.generated + 1)
    ({ seq with
        -- everything up to here is now processed
        processed := seq.tokens.length
        tokens := seq.tokens ++ [nextToken]
        generated := seq.generated + 1
        finished },
      .stepped nextToken isStop finished)

/-- What a round decided a sequence has to do. -/
inductive Work
  | idle
  | prefill
  | decode (row : DecodeRow)
  deriving DecidableEq, Repr

structure Entry (X : Type w) where
  seq : ActiveSeq X
  work : Work
  outcome : StepOutcome

/-- Retire the no-ops and the over-long, and split the rest into prompt work and
decode rows. -/
def classify (maxContextLen : ℕ) (seq : ActiveSeq X) : Entry X :=
  if seq.finished then ⟨seq, .idle, .skipped⟩
  else if seq.paused then ⟨seq, .idle, .skipped⟩
  else if seq.maxGen ≤ seq.generated ∨ seq.tokens.length ≤ seq.processed then
    ⟨{ seq with finished := true }, .idle, .skipped⟩
  else if maxContextLen < seq.tokens.length then
    ⟨{ seq with finished := true }, .idle,
      .failed (.contextLengthExceeded seq.tokens.length maxContextLen)⟩
  else if 1 < seq.tokens.length - seq.processed then ⟨seq, .prefill, .skipped⟩
  else ⟨seq, .decode ⟨seq.slot, seq.tokens.getD seq.processed 0⟩, .skipped⟩

section Round

variable {D : Type u} {Row : Type v} [BatchedDecoder D Row]

/-- Sample one token per row, after the row check. The sampler may touch the
state the decoder lives in: its randomness comes from the same backend. -/
def sampleRows (sample : D → Logits Row → InferenceResult (List Token) × D) (inRows : ℕ)
    (decoder : D) (logits : InferenceResult (Logits Row)) : InferenceResult (List Token) × D :=
  match logits >>= expectRows inRows with
  | .error error => (.error error, decoder)
  | .ok logits => sample decoder logits

/-- The one token sampled for a prefill. -/
def firstToken : InferenceResult (List Token) → InferenceResult Token
  | .error error => .error error
  | .ok (id :: _) => .ok id
  | .ok [] =>
    .error (.batchContractViolation "sampler produced no token for the prefill row")

/-- Push `granted` tokens of a prompt. Only the chunk that reaches the end of
the tail samples. -/
def prefillChunk (sample : D → Logits Row → InferenceResult (List Token) × D)
    (stopIds : List Token) (granted : ℕ) (decoder : D) (seq : ActiveSeq X) :
    ActiveSeq X × StepOutcome × D :=
  let position := seq.processed
  let chunkEnd := position + granted
  match BatchedDecoder.prefill decoder seq.slot ((seq.tokens.take chunkEnd).drop position)
      position with
  | (logits, decoder) =>
    if chunkEnd < seq.tokens.length then
      match logits with
      | .ok _ => ({ seq with processed := chunkEnd }, .prefilling, decoder)
      | .error error => ({ seq with finished := true }, .failed error, decoder)
    else
      let (sampled, decoder) := sampleRows sample 1 decoder logits
      let (seq, outcome) := advanceOrFail stopIds seq (firstToken sampled)
      (seq, outcome, decoder)

/-- The prefill pass: prompts share the round's budget, in order, and a prompt
it can no longer cover stays skipped. -/
def prefillPass (sample : D → Logits Row → InferenceResult (List Token) × D)
    (stopIds : List Token) (chunkSize : ℕ) :
    List (Entry X) → PrefillBudget → D → List (Entry X) × PrefillBudget × D
  | [], budget, decoder => ([], budget, decoder)
  | entry :: entries, budget, decoder =>
    match entry.work with
    | .prefill =>
      let tail := entry.seq.tokens.length - entry.seq.processed
      let wanted := if chunkSize = 0 then tail else min chunkSize tail
      match budget.admitPrefill wanted with
      | (some (granted + 1), budget) =>
        let (seq, outcome, decoder) := prefillChunk sample stopIds (granted + 1) decoder entry.seq
        let (entries, rest) := prefillPass sample stopIds chunkSize entries budget decoder
        ({ entry with seq, outcome } :: entries, rest)
      | (_, budget) =>
        let (entries, rest) := prefillPass sample stopIds chunkSize entries budget decoder
        (entry :: entries, rest)
    | _ =>
      let (entries, rest) := prefillPass sample stopIds chunkSize entries budget decoder
      (entry :: entries, rest)

def decodeRows (entries : List (Entry X)) : List DecodeRow :=
  entries.filterMap fun entry =>
    match entry.work with
    | .decode row => some row
    | _ => none

def Entry.advance (stopIds : List Token) (entry : Entry X) (sampled : InferenceResult Token) :
    Entry X :=
  let (seq, outcome) := advanceOrFail stopIds entry.seq sampled
  { entry with seq, outcome }

/-- Hand the sampled ids back to the decoding entries, in row order. -/
def fanOut (stopIds : List Token) : List (Entry X) → List Token → List (Entry X)
  | [], _ => []
  | entry :: entries, ids =>
    match entry.work, ids with
    | .decode _, id :: ids => entry.advance stopIds (.ok id) :: fanOut stopIds entries ids
    | _, ids => entry :: fanOut stopIds entries ids

/-- Route every decoding entry through the fail path. -/
def failRows (stopIds : List Token) (entries : List (Entry X)) (error : InferenceError) :
    List (Entry X) :=
  entries.map fun entry =>
    match entry.work with
    | .decode _ => entry.advance stopIds (.error error)
    | _ => entry

/-- The decode pass: one fused call over every decode-ready row, all or
nothing. -/
def decodePass (sample : D → Logits Row → InferenceResult (List Token) × D)
    (stopIds : List Token) (entries : List (Entry X)) (decoder : D) : List (Entry X) × D :=
  let rows := decodeRows entries
  if rows = [] then (entries, decoder)
  else
    let (logits, decoder) := BatchedDecoder.decode decoder rows
    match sampleRows sample rows.length decoder logits with
    | (.ok ids, decoder) =>
      if ids.length = rows.length then (fanOut stopIds entries ids, decoder)
      else
        let width := rows.length
        (failRows stopIds entries (.batchContractViolation
          s!"sampler returned a different number of ids than the {width} decode row(s) sampled"),
          decoder)
    | (.error error, decoder) => (failRows stopIds entries error, decoder)

/-- Advance every active sequence by at most one token. -/
def stepRound (sample : D → Logits Row → InferenceResult (List Token) × D)
    (stopIds : List Token) (budget : PrefillBudget) (chunkSize : ℕ) (active : List (ActiveSeq X))
    (decoder : D) : List (ActiveSeq X) × List StepOutcome × D :=
  let entries := active.map (classify (BatchedDecoder.maxContextLen decoder))
  let (entries, _, decoder) := prefillPass sample stopIds chunkSize entries budget decoder
  let (entries, decoder) := decodePass sample stopIds entries decoder
  (entries.map Entry.seq, entries.map Entry.outcome, decoder)

end Round

end BurnLm.Inference
