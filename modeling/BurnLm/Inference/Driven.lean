/-
# A server around a decoder

The servers of the source are a decoder with settings beside it, and their
decoder can be borrowed as soon as the model is loaded. Here that is a server
of its own: the decoder is any decoder, the settings answer whatever they like,
and borrowing always succeeds. Lifecycle commands reach the settings only.

The server keeps every call together with the decoder the call found. The record
is there to be reasoned about and nothing reads it.
-/

import BurnLm.Inference.Worker

namespace BurnLm.Inference

universe u v w

/-- One call on a decoder. -/
inductive DecoderCall
  | prefill (slot : ℕ) (tokens : List Token) (position : ℕ)
  | decode (rows : List DecodeRow)
  | release (slot : ℕ)
  deriving DecidableEq, Repr

/-- A call and the decoder it found. -/
structure Issued (D : Type u) where
  found : D
  call : DecoderCall

/-- Everything a server is beside its decoder. -/
class ServerSettings (R : Type u) (Row : outParam (Type v)) (Task : outParam (Type w))
    extends InferenceServer R where
  batchCapacity : R → BatchCapacity
  prefillChunkSize : R → ℕ
  prefillTokenBudget : R → ℕ
  kvAdmission : R → KvAdmission
  tokenize : R → Task → InferenceResult (List Token)
  detokenizeBytes : R → List Token → List UInt8
  stopIds : R → List Token
  maxGenTokens : R → ℕ
  sampler : R → R → Logits Row → InferenceResult (List Token) × R

/-- A decoder, the settings beside it, and every call so far. -/
structure Driven (D : Type u) (R : Type v) where
  engine : D
  settings : R
  calls : List (Issued D)

namespace Driven

variable {D : Type u} {R : Type v} {Row Task : Type w}

/-- A server nobody has called. -/
def fresh (engine : D) (settings : R) : Driven D R := ⟨engine, settings, []⟩

/-- Replace the decoder by what a call left of it, and keep the call. -/
def note (server : Driven D R) (call : DecoderCall) (engine : D) : Driven D R :=
  { server with engine, calls := server.calls ++ [⟨server.engine, call⟩] }

/-- Let the settings answer. -/
def answer {β : Type w} (server : Driven D R) (ask : R → β × R) : β × Driven D R :=
  ((ask server.settings).1, { server with settings := (ask server.settings).2 })

variable [BatchedDecoder D Row] [ServerSettings R Row Task]

instance : BatchedInferenceServer (Driven D R) Row Task where
  downloader server := server.answer InferenceServer.downloader
  isDownloaded server := server.answer InferenceServer.isDownloaded
  deleter server := server.answer InferenceServer.deleter
  parseCliConfig server args :=
    { server with settings := InferenceServer.parseCliConfig server.settings args }
  parseJsonConfig server json :=
    { server with settings := InferenceServer.parseJsonConfig server.settings json }
  load server := server.answer InferenceServer.load
  isLoaded server := server.answer InferenceServer.isLoaded
  unload server := server.answer InferenceServer.unload
  clearState server := server.answer InferenceServer.clearState
  prefill server slot tokens position :=
    let (logits, engine) := BatchedDecoder.prefill server.engine slot tokens position
    (logits, server.note (.prefill slot tokens position) engine)
  decode server rows :=
    let (logits, engine) := BatchedDecoder.decode server.engine rows
    (logits, server.note (.decode rows) engine)
  release server slot := server.note (.release slot) (BatchedDecoder.release server.engine slot)
  maxContextLen server := BatchedDecoder.maxContextLen server.engine
  decoder server := (.ok (), server)
  batchCapacity server := ServerSettings.batchCapacity server.settings
  prefillChunkSize server := ServerSettings.prefillChunkSize server.settings
  prefillTokenBudget server := ServerSettings.prefillTokenBudget server.settings
  kvAdmission server := ServerSettings.kvAdmission server.settings
  tokenize server := ServerSettings.tokenize server.settings
  detokenizeBytes server := ServerSettings.detokenizeBytes server.settings
  stopIds server := ServerSettings.stopIds server.settings
  maxGenTokens server := ServerSettings.maxGenTokens server.settings
  sampler configured server logits :=
    server.answer fun settings => ServerSettings.sampler configured.settings settings logits

end Driven

end BurnLm.Inference
