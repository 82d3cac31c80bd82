/-
# The Llama decoder

One shared paged cache holds a lane per engine slot, and every call is one
lane-aware forward: plan the lanes, run the transformer through the plan, keep
the last position's logits of each lane. Slot numbers are lane numbers.

The transformer is a parameter. It is given the input, the plan and the layers,
and it returns logits and layers; the ledger is out of its reach. Its weights,
the rotary table and the device are inside it.
-/

import BurnLm.Inference.PoolBacked
import BurnLm.PagedKv.Cache

namespace BurnLm.Llama

open BurnLm.PagedKv BurnLm.Inference

universe u v

/-- How a cache's refusal is reported to the scheduler. -/
def toInferenceError : PagedKvError → InferenceError
  | .maxSequenceLengthExceeded actual max => .contextLengthExceeded actual max
  | .poolExhausted shortBy => .kvPoolExhausted shortBy

/-- Reusable decoder state for autoregressive inference. The cache keeps the
layout it was built with. -/
structure LlamaDecoder (α : Type u) (Row : Type v) (layout : KvLayout) where
  cache : PagedKvCache α
  layout_eq : cache.layout = layout
  /-- Each lane's last-position logits, and the layers after the forward. -/
  model : List (List Token) → LanePlan → List (KeyValueCache α) →
    Logits Row × List (KeyValueCache α)

/-- Planning changes the ledger only. -/
theorem prepareLanes_layout {α : Type u} (cache : PagedKvCache α) (lanes : List ℕ) (seqLen : ℕ) :
    (cache.prepareLanes lanes seqLen).2.layout = cache.layout := by
  unfold PagedKvCache.prepareLanes
  split
  · rfl
  · split <;> rfl

/-- So does freeing a lane. -/
theorem resetLane_layout {α : Type u} (cache : PagedKvCache α) (lane : ℕ) :
    (cache.resetLane lane).layout = cache.layout := by
  unfold PagedKvCache.resetLane
  split <;> rfl

namespace LlamaDecoder

variable {α : Type u} {Row : Type v} {layout : KvLayout}

/-- Free one lane of the cache. -/
def resetLane (decoder : LlamaDecoder α Row layout) (slot : ℕ) : LlamaDecoder α Row layout :=
  { decoder with
    cache := decoder.cache.resetLane slot
    layout_eq := (resetLane_layout decoder.cache slot).trans decoder.layout_eq }

/-- Forward `seqLen` new tokens for each lane, returning each lane's
last-position logits. -/
def forwardLanes (decoder : LlamaDecoder α Row layout) (lanes : List ℕ) (input : List (List Token))
    (seqLen : ℕ) : InferenceResult (Logits Row) × LlamaDecoder α Row layout :=
  let planned := decoder.cache.prepareLanes lanes seqLen
  have hlayout : planned.2.layout = layout :=
    (prepareLanes_layout decoder.cache lanes seqLen).trans decoder.layout_eq
  match planned.1 with
  | .error error =>
    (.error (toInferenceError error), { decoder with cache := planned.2, layout_eq := hlayout })
  | .ok plan =>
    let (logits, layers) := decoder.model input plan planned.2.layers
    (.ok logits, { decoder with cache := { planned.2 with layers }, layout_eq := hlayout })

/-- Run a prompt, or the next chunk of one, into one lane. A prompt from position
zero empties the lane first. -/
def prefill (decoder : LlamaDecoder α Row layout) (slot : ℕ) (tokens : List Token)
    (position : ℕ) : InferenceResult (Logits Row) × LlamaDecoder α Row layout :=
  let decoder := if position = 0 then decoder.resetLane slot else decoder
  decoder.forwardLanes [slot] [tokens] tokens.length

/-- Advance every row's lane by one token in one fused forward. -/
def decode (decoder : LlamaDecoder α Row layout) (rows : List DecodeRow) :
    InferenceResult (Logits Row) × LlamaDecoder α Row layout :=
  decoder.forwardLanes (rows.map DecodeRow.slot) (rows.map fun row => [row.token]) 1

instance : BatchedDecoder (LlamaDecoder α Row layout) Row where
  prefill := prefill
  decode := decode
  release := resetLane
  maxContextLen decoder := decoder.cache.maxSeqLen

/-- The ledger behind a decoder. -/
def ledger (decoder : LlamaDecoder α Row layout) : BlockPool := decoder.cache.pool

/-! ## The pool behind it -/

/-- Planning refuses a lane past the window, or asks the pool for lengths within
it. -/
theorem prepareLanes_asks (cache : PagedKvCache α) (lanes : List ℕ) (seqLen : ℕ) :
    (∃ error, (cache.prepareLanes lanes seqLen).1 = .error error ∧
      (cache.prepareLanes lanes seqLen).2.pool = cache.pool) ∨
    (cache.pool.Fits lanes seqLen ∧
      (cache.prepareLanes lanes seqLen).2.pool = (cache.pool.beginRound lanes seqLen).2 ∧
      ∀ exhausted, (cache.pool.beginRound lanes seqLen).1 = .error exhausted →
        ∃ error, (cache.prepareLanes lanes seqLen).1 = .error error) := by
  unfold PagedKvCache.prepareLanes
  split
  · exact Or.inl ⟨_, rfl, rfl⟩
  · next hfind =>
    have hfits : cache.pool.Fits lanes seqLen := fun lane hlane => by
      have hwindow := List.find?_eq_none.mp hfind lane hlane
      simp only [gt_iff_lt, decide_eq_true_eq, not_lt] at hwindow
      exact hwindow.trans_lt cache.layout.maxSeqLen_lt
    split
    · next exhausted pool hround => exact Or.inr ⟨hfits, by rw [hround], fun _ _ => ⟨_, rfl⟩⟩
    · next starts pool hround =>
        refine Or.inr ⟨hfits, by rw [hround], fun exhausted hshort => ?_⟩
        rw [hround] at hshort
        simp at hshort

/-- A forward does to the ledger what planning does. -/
theorem forwardLanes_cases (decoder : LlamaDecoder α Row layout) (lanes : List ℕ)
    (input : List (List Token)) (seqLen : ℕ) :
    (decoder.forwardLanes lanes input seqLen).2.cache.pool =
        (decoder.cache.prepareLanes lanes seqLen).2.pool ∧
      ∀ error, (decoder.cache.prepareLanes lanes seqLen).1 = .error error →
        (decoder.forwardLanes lanes input seqLen).1 = .error (toInferenceError error) := by
  unfold forwardLanes
  dsimp only
  split
  · next error hplanned =>
      refine ⟨rfl, fun other hother => ?_⟩
      rw [hplanned] at hother
      rw [Except.error.inj hother]
  · next plan hplanned =>
      refine ⟨rfl, fun other hother => ?_⟩
      rw [hplanned] at hother
      simp at hother

/-- A forward refuses, or asks the pool. -/
theorem forwardLanes_asks (decoder : LlamaDecoder α Row layout) (lanes : List ℕ)
    (input : List (List Token)) (seqLen : ℕ) :
    Asked decoder.cache.pool lanes seqLen (decoder.forwardLanes lanes input seqLen).1
      (decoder.forwardLanes lanes input seqLen).2.cache.pool := by
  obtain ⟨hpool, hresult⟩ := decoder.forwardLanes_cases lanes input seqLen
  rw [hpool]
  rcases prepareLanes_asks decoder.cache lanes seqLen with ⟨error, herror, hafter⟩ |
    ⟨hfits, hafter, hshort⟩
  · exact .refused _ (hresult error herror) hafter
  · refine .asked hfits hafter fun exhausted hexhausted => ?_
    obtain ⟨error, herror⟩ := hshort exhausted hexhausted
    exact ⟨_, hresult error herror⟩

/-- Freeing a lane past the ledger frees nothing. -/
theorem freeLane_of_le {pool : BlockPool} (hpool : pool.Ledgered) {lane : ℕ}
    (hlane : pool.laneCount ≤ lane) : pool.freeLane lane = pool := by
  have htables : pool.tables.length ≤ lane := hpool.tables_length ▸ hlane
  have hblocks : pool.laneBlocks lane = [] := List.getD_eq_default _ _ htables
  rw [BlockPool.freeLane, hblocks, List.modify_eq_self htables, List.modify_eq_self hlane]
  rfl

theorem pool_resetLane (decoder : LlamaDecoder α Row layout)
    (hpool : decoder.cache.pool.Ledgered) (slot : ℕ) :
    (decoder.resetLane slot).cache.pool = decoder.cache.pool.freeLane slot := by
  unfold resetLane PagedKvCache.resetLane
  split
  · next hslot => exact (freeLane_of_le hpool hslot).symm
  · rfl

/-- **The Llama decoder is backed by its cache's pool.** -/
theorem poolBacked : PoolBacked (LlamaDecoder α Row layout) ledger where
  prefill_asks decoder slot tokens position hpool := by
    refine ⟨(if position = 0 then decoder.resetLane slot else decoder).cache.pool, ?_, ?_⟩
    · split
      · next hzero => exact Or.inr ⟨hzero, pool_resetLane decoder hpool.toLedgered slot⟩
      · exact Or.inl rfl
    · exact forwardLanes_asks _ [slot] [tokens] tokens.length
  decode_asks decoder rows := forwardLanes_asks decoder _ _ 1
  release_frees decoder slot hpool := pool_resetLane decoder hpool.toLedgered slot

end LlamaDecoder

end BurnLm.Llama
