/-
# A server that recalls

The simplest server there is: a lane holds the tokens pushed into it, and the
logits of a row are those tokens. Whatever a model computes is a function of
that, so runs on this server stand for runs on a model.
-/

import Mathlib.Logic.Function.Basic
import BurnLm.Inference.Driven

namespace BurnLm.Inference

/-- What a recalling server is built with. -/
structure RecallConfig where
  capacity : BatchCapacity
  admission : KvAdmission
  chunkSize : ℕ
  tokenBudget : ℕ
  contextLen : ℕ
  stops : List Token
  generationCap : ℕ
  /-- The token generated after these. -/
  next : List Token → Token

/-- A server whose lanes are their own histories. -/
structure RecallServer (config : RecallConfig) where
  /-- What was pushed into each lane since it was last released. -/
  lanes : ℕ → List Token

namespace RecallServer

variable {config : RecallConfig}

/-- Nothing pushed yet. -/
def fresh : RecallServer config := ⟨fun _ => []⟩

/-- Append to a lane. -/
def push (server : RecallServer config) (slot : ℕ) (tokens : List Token) : RecallServer config :=
  ⟨Function.update server.lanes slot (server.lanes slot ++ tokens)⟩

instance : BatchedInferenceServer (RecallServer config) (List Token) (List Token) where
  downloader server := (none, server)
  isDownloaded server := (true, server)
  deleter server := (none, server)
  parseCliConfig server _ := server
  parseJsonConfig server _ := server
  load server := (.ok none, server)
  isLoaded server := (true, server)
  unload _ := (.ok none, fresh)
  clearState _ := (.ok (), fresh)
  prefill server slot tokens _ :=
    let server := server.push slot tokens
    (.ok ⟨1, [server.lanes slot]⟩, server)
  decode server rows :=
    let server := rows.foldl (fun server row => server.push row.slot [row.token]) server
    (.ok ⟨1, rows.map fun row => server.lanes row.slot⟩, server)
  release server slot := ⟨Function.update server.lanes slot []⟩
  maxContextLen _ := config.contextLen
  decoder server := (.ok (), server)
  batchCapacity _ := config.capacity
  prefillChunkSize _ := config.chunkSize
  prefillTokenBudget _ := config.tokenBudget
  kvAdmission _ := config.admission
  tokenize _ task := .ok task
  detokenizeBytes _ tokens := tokens.map UInt32.toUInt8
  stopIds _ := config.stops
  maxGenTokens _ := config.generationCap
  sampler _ server logits := (.ok (logits.rows.map config.next), server)

end RecallServer

/-- A recalling server whose decoder can be borrowed only so many times. -/
structure FailingServer (config : RecallConfig) where
  server : RecallServer config
  borrows : ℕ

instance {config : RecallConfig} :
    BatchedInferenceServer (FailingServer config) (List Token) (List Token) where
  downloader failing := (none, failing)
  isDownloaded failing := (true, failing)
  deleter failing := (none, failing)
  parseCliConfig failing _ := failing
  parseJsonConfig failing _ := failing
  load failing := (.ok none, failing)
  isLoaded failing := (true, failing)
  unload failing := (.ok none, { failing with server := .fresh })
  clearState failing := (.ok (), { failing with server := .fresh })
  prefill failing slot tokens position :=
    let (logits, server) := prefill failing.server slot tokens position
    (logits, { failing with server })
  decode failing rows :=
    let (logits, server) := decode failing.server rows
    (logits, { failing with server })
  release failing slot := { failing with server := release failing.server slot }
  maxContextLen _ := config.contextLen
  decoder failing :=
    match failing.borrows with
    | 0 => (.error (.loadError "recall"), failing)
    | borrows + 1 => (.ok (), { failing with borrows })
  batchCapacity _ := config.capacity
  prefillChunkSize _ := config.chunkSize
  prefillTokenBudget _ := config.tokenBudget
  kvAdmission _ := config.admission
  tokenize _ task := .ok task
  detokenizeBytes _ tokens := tokens.map UInt32.toUInt8
  stopIds _ := config.stops
  maxGenTokens _ := config.generationCap
  sampler _ failing logits := (.ok (logits.rows.map config.next), failing)

/-- Settings that never change, beside a decoder whose logits are token lists. -/
inductive FixedSettings (config : RecallConfig)
  | mk

instance {config : RecallConfig} :
    ServerSettings (FixedSettings config) (List Token) (List Token) where
  downloader settings := (none, settings)
  isDownloaded settings := (true, settings)
  deleter settings := (none, settings)
  parseCliConfig settings _ := settings
  parseJsonConfig settings _ := settings
  load settings := (.ok none, settings)
  isLoaded settings := (true, settings)
  unload settings := (.ok none, settings)
  clearState settings := (.ok (), settings)
  batchCapacity _ := config.capacity
  prefillChunkSize _ := config.chunkSize
  prefillTokenBudget _ := config.tokenBudget
  kvAdmission _ := config.admission
  tokenize _ task := .ok task
  detokenizeBytes _ tokens := tokens.map UInt32.toUInt8
  stopIds _ := config.stops
  maxGenTokens _ := config.generationCap
  sampler _ settings logits := (.ok (logits.rows.map config.next), settings)

/-- A turn that finds these commands and no cancellations. -/
def TurnEnv.taking {Task : Type} (commands : List (Command Task)) : TurnEnv Task :=
  ⟨commands, fun _ => false, fun _ => false, 0⟩

/-- A turn that finds no commands and one signal fired. -/
def TurnEnv.firing {Task : Type} (signal : ℕ) : TurnEnv Task :=
  ⟨[], fun other => other = signal, fun other => other = signal, 0⟩

/-- A submission of a tokenized prompt under a cap. -/
def Command.submission (completion maxTokens : ℕ) (prompt : List Token) : Command (List Token) :=
  .submit ⟨⟨prompt, completion, some maxTokens, completion⟩, completion, 0⟩

end BurnLm.Inference
