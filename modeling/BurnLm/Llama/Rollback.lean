/-
# What a failed prefill leaves behind

A decoder owes its scheduler that a prefill which fails leaves the slot as if it
had never been used. The Llama decoder keeps no record of what a call has done;
its ledger takes a refused round back, and a prompt from position zero empties
the lane before it asks. A later chunk of a prompt does neither for the chunks
before it.
-/

import BurnLm.Llama.Decoder
import BurnLm.PagedKv.Exhaustion

namespace BurnLm.Llama

open BurnLm.PagedKv BurnLm.Inference BurnLm.Math

universe u v

variable {α : Type u} {Row : Type v} {layout : KvLayout}

theorem Restored.refl (pool : BlockPool) : BlockPool.Restored pool pool :=
  ⟨rfl, rfl, rfl, List.Perm.refl _⟩

namespace LlamaDecoder

/-- A forward that fails was refused while planning: the ledger is restored and
no layer was written. -/
theorem forwardLanes_error {decoder : LlamaDecoder α Row layout} {laneCount : ℕ}
    (hpool : decoder.cache.pool.Ledgered) (hcount : decoder.cache.pool.laneCount = laneCount)
    (lanes : RoundLanes laneCount) (input : List (List Token)) (seqLen : ℕ) {error : InferenceError}
    (herror : (decoder.forwardLanes lanes.lanes input seqLen).1 = .error error) :
    BlockPool.Restored decoder.cache.pool
        (decoder.forwardLanes lanes.lanes input seqLen).2.cache.pool ∧
      (decoder.forwardLanes lanes.lanes input seqLen).2.cache.layers = decoder.cache.layers := by
  unfold forwardLanes at herror ⊢
  rcases decoder.cache.prepareLanes_cases hpool hcount lanes seqLen with
    ⟨lane, _, _, hplan⟩ | ⟨_, _, exhausted, pool, hplan, hrestored⟩ | ⟨_, _, pool, hplan, _⟩
  · simp only [hplan]
    exact ⟨Restored.refl _, trivial⟩
  · simp only [hplan]
    exact ⟨hrestored, trivial⟩
  · simp [hplan] at herror

/-- One lane, as a round. -/
def single {laneCount slot : ℕ} (hslot : slot < laneCount) : RoundLanes laneCount where
  lanes := [slot]
  nodup := List.nodup_singleton slot
  inRange := by simpa using hslot

/-- Freeing a lane writes no layer. -/
theorem layers_resetLane (decoder : LlamaDecoder α Row layout) (slot : ℕ) :
    (decoder.resetLane slot).cache.layers = decoder.cache.layers := by
  unfold resetLane PagedKvCache.resetLane
  split <;> rfl

/-- What a failed prefill leaves: the lane as the call found it, or emptied when
the call was for position zero; the other lanes and the layers as they were. -/
theorem prefill_error {decoder : LlamaDecoder α Row layout} {laneCount : ℕ}
    (hpool : decoder.cache.pool.Ledgered) (hcount : decoder.cache.pool.laneCount = laneCount)
    {slot : ℕ} (hslot : slot < laneCount) (tokens : List Token) (position : ℕ)
    {error : InferenceError} (herror : (decoder.prefill slot tokens position).1 = .error error) :
    (∀ lane, (decoder.prefill slot tokens position).2.cache.laneLen lane =
          (if position = 0 ∧ lane = slot then 0 else decoder.cache.laneLen lane) ∧
        (decoder.prefill slot tokens position).2.cache.pool.laneBlocks lane =
          (if position = 0 ∧ lane = slot then [] else decoder.cache.pool.laneBlocks lane)) ∧
      (decoder.prefill slot tokens position).2.cache.layers = decoder.cache.layers := by
  by_cases hzero : position = 0
  · have hcount' : (decoder.resetLane slot).cache.pool.laneCount = laneCount := by
      rw [pool_resetLane decoder hpool, ← hcount]
      exact List.length_modify ..
    have hpool' : (decoder.resetLane slot).cache.pool.Ledgered := by
      rw [pool_resetLane decoder hpool]
      exact hpool.freeLane slot
    simp only [prefill, if_pos hzero] at herror ⊢
    obtain ⟨hrestored, hlayers⟩ :=
      forwardLanes_error hpool' hcount' (single hslot) [tokens] tokens.length herror
    refine ⟨fun lane => ?_, hlayers.trans (layers_resetLane decoder slot)⟩
    obtain ⟨hlen, hblocks⟩ := hrestored.lane lane
    rw [pool_resetLane decoder hpool, BlockPool.laneLen_freeLane] at hlen
    rw [pool_resetLane decoder hpool, BlockPool.laneBlocks_freeLane] at hblocks
    simp only [hzero, true_and]
    exact ⟨hlen, hblocks⟩
  · simp only [prefill, if_neg hzero] at herror ⊢
    obtain ⟨hrestored, hlayers⟩ :=
      forwardLanes_error hpool hcount (single hslot) [tokens] tokens.length herror
    simp only [hzero, false_and, if_false]
    exact ⟨fun lane => hrestored.lane lane, hlayers⟩

/-- **When a failed prefill leaves the slot as never used.** In every decoder
whose ledger was reached from `new`, for a slot the ledger has and a position
the scheduler may pass (zero, or the lane's length for a later chunk), a prefill
that fails leaves the lane empty, without blocks, and everything else as it was,
exactly when the position is zero. -/
theorem failed_prefill_leaves_unused_iff {blockSize numBlocks laneCount : ℕ} {start : BlockPool}
    (hnew : BlockPool.new blockSize numBlocks laneCount = some start)
    (ops : List (BlockPool.Op laneCount)) {decoder : LlamaDecoder α Row layout}
    (hledger : decoder.cache.pool = start.run ops) {slot : ℕ} (hslot : slot < laneCount)
    (tokens : List Token) {position : ℕ}
    (hposition : position = 0 ∨ position = decoder.cache.laneLen slot) {error : InferenceError}
    (herror : (decoder.prefill slot tokens position).1 = .error error) :
    let after := (decoder.prefill slot tokens position).2.cache
    (after.laneLen slot = 0 ∧ after.pool.laneBlocks slot = [] ∧
      (∀ lane, lane ≠ slot → after.laneLen lane = decoder.cache.laneLen lane ∧
        after.pool.laneBlocks lane = decoder.cache.pool.laneBlocks lane) ∧
      after.layers = decoder.cache.layers) ↔ position = 0 := by
  obtain ⟨_, hcount, _⟩ := BlockPool.new_fields hnew
  obtain ⟨hpool, hcount', _⟩ :=
    BlockPool.Ledgered.run ops (BlockPool.partitioned_of_new hnew).toLedgered hcount
  rw [← hledger] at hpool hcount'
  obtain ⟨hlanes, hlayers⟩ := prefill_error hpool hcount' hslot tokens position herror
  intro after
  constructor
  · intro hunused
    rcases hposition with hzero | hlength
    · exact hzero
    · by_contra hne
      have hkept := (hlanes slot).1
      rw [if_neg (fun hboth => hne hboth.1)] at hkept
      exact hne (hlength.trans (hkept.symm.trans hunused.1))
  · intro hzero
    obtain ⟨hlen, hblocks⟩ := hlanes slot
    rw [if_pos ⟨hzero, rfl⟩] at hlen hblocks
    refine ⟨hlen, hblocks, fun lane hlane => ?_, hlayers⟩
    obtain ⟨hlen', hblocks'⟩ := hlanes lane
    rw [if_neg fun hboth => hlane hboth.2] at hlen' hblocks'
    exact ⟨hlen', hblocks'⟩

/-- A prompt longer than the window, in a pool that has been used. -/
theorem failed_prefill_leaves_unused_iff_fresh :
    let layout : KvLayout := ⟨1, 1, 1, 4, by decide⟩
    let ops : List (BlockPool.Op 2) :=
      [.beginRound ⟨[0], by decide, by decide⟩ 2, .beginRound ⟨[1], by decide, by decide⟩ 1]
    let pool := (⟨1, [6, 5, 4, 3, 2, 1], [[], []], [0, 0]⟩ : BlockPool).run ops
    let decoder : LlamaDecoder ℕ (List Token) layout :=
      ⟨⟨[], layout, pool⟩, rfl, fun input _ layers => (⟨1, input⟩, layers)⟩
    let after := (decoder.prefill 0 [1, 2, 3, 4, 5] 0).2.cache
    (after.laneLen 0 = 0 ∧ after.pool.laneBlocks 0 = [] ∧
      (∀ lane, lane ≠ 0 → after.laneLen lane = decoder.cache.laneLen lane ∧
        after.pool.laneBlocks lane = decoder.cache.pool.laneBlocks lane) ∧
      after.layers = decoder.cache.layers) ↔ 0 = 0 := by
  intro layout ops pool decoder
  have hnew : BlockPool.new 1 7 2 = some ⟨1, [6, 5, 4, 3, 2, 1], [[], []], [0, 0]⟩ := by decide
  have herror : (decoder.prefill 0 [1, 2, 3, 4, 5] 0).1 = .error (.contextLengthExceeded 5 4) := by
    decide +kernel
  exact failed_prefill_leaves_unused_iff hnew ops rfl (by decide) [1, 2, 3, 4, 5] (Or.inl rfl)
    herror

/-- A prompt of five tokens in chunks of three, in a pool of four one-token
blocks: the second chunk finds one block free and fails, and the first chunk's
three tokens and blocks stay. -/
theorem failed_second_chunk_keeps_first :
    let layout : KvLayout := ⟨1, 1, 1, 8, by decide⟩
    let cache := (PagedKvCache.new layout 2 1 4 fun _ => (fun _ => 0, fun _ => 0)).get rfl
    let fresh : LlamaDecoder ℕ (List Token) layout :=
      ⟨cache, rfl, fun input _ layers => (⟨1, input⟩, layers)⟩
    let first := fresh.prefill 0 [1, 2, 3] 0
    let second := first.2.prefill 0 [4, 5] 3
    first.2.cache.laneLen 0 = 3 ∧ second.1 = .error (.kvPoolExhausted 1) ∧
      second.2.cache.laneLen 0 = 3 ∧ second.2.cache.pool.laneBlocks 0 = [4, 3, 2] := by
  decide +kernel

end LlamaDecoder

end BurnLm.Llama
