/-
# Decoders on a block pool

A decoder is backed by a block pool when a prefill asks the pool for a round over
its one lane, a decode for a round over its rows' lanes, and a release frees the
lane. A call may refuse before it asks, a prefill at position zero may empty its
lane first, and a call may fail after the pool has granted its round.

Called as a scheduler calls it, such a decoder keeps its pool a partition, and
its lanes read as the tokens pushed into them, each at its own position.
-/

import BurnLm.PagedKv.Capacity
import BurnLm.Inference.Driven
import BurnLm.Inference.LaneModel

namespace BurnLm.Inference

open BurnLm.Math BurnLm.PagedKv

universe u v w

/-- How a call that wants a round of a pool leaves the pool and what it answers:
it refuses, or it asks for lengths a word holds, and a short pool is an error. -/
inductive Asked {β : Type v} (before : BlockPool) (lanes : List ℕ) (seqLen : ℕ)
    (result : InferenceResult β) (after : BlockPool) : Prop
  | refused (error : InferenceError) (hresult : result = .error error) (hafter : after = before)
  | asked (hfits : before.Fits lanes seqLen) (hafter : after = (before.beginRound lanes seqLen).2)
      (hshort : ∀ exhausted, (before.beginRound lanes seqLen).1 = .error exhausted →
        ∃ error, result = .error error)

/-- A decoder backed by a block pool, as long as the pool is a partition. -/
structure PoolBacked (D : Type u) {Row : Type v} [BatchedDecoder D Row] (pool : D → BlockPool) :
    Prop where
  prefill_asks : ∀ (engine : D) (slot : ℕ) (tokens : List Token) (position : ℕ),
    (pool engine).Partitioned →
      ∃ before, (before = pool engine ∨ position = 0 ∧ before = (pool engine).freeLane slot) ∧
        Asked before [slot] tokens.length (prefill engine slot tokens position).1
          (pool (prefill engine slot tokens position).2)
  decode_asks : ∀ (engine : D) (rows : List DecodeRow),
    Asked (pool engine) (rows.map DecodeRow.slot) 1 (decode engine rows).1
      (pool (decode engine rows).2)
  release_frees : ∀ (engine : D) (slot : ℕ), (pool engine).Partitioned →
    pool (release engine slot) = (pool engine).freeLane slot

/-- Two pools of one size. -/
structure SameSize (first pool : BlockPool) : Prop where
  laneCount : pool.laneCount = first.laneCount
  blockSize : pool.blockSize = first.blockSize
  usableBlocks : pool.usableBlocks = first.usableBlocks

theorem SameSize.trans {first second third : BlockPool} (hfirst : SameSize first second)
    (hsecond : SameSize second third) : SameSize first third :=
  ⟨hsecond.laneCount.trans hfirst.laneCount, hsecond.blockSize.trans hfirst.blockSize,
    hsecond.usableBlocks.trans hfirst.usableBlocks⟩

/-- Freeing a lane changes no size. -/
theorem SameSize.freeLane (pool : BlockPool) (lane : ℕ) : SameSize pool (pool.freeLane lane) :=
  ⟨by simp [BlockPool.freeLane, BlockPool.laneCount], rfl, by
    rw [← BlockPool.length_ledger, ← BlockPool.length_ledger,
      (BlockPool.ledger_freeLane_perm pool lane).length_eq]⟩

/-- Freeing an empty lane changes no length. -/
theorem laneLen_freeLane_of_empty {pool : BlockPool} {lane : ℕ} (hempty : pool.laneLen lane = 0)
    (other : ℕ) : (pool.freeLane lane).laneLen other = pool.laneLen other := by
  rw [BlockPool.laneLen_freeLane]
  split
  · next hsame => rw [hsame, hempty]
  · rfl

/-- What asking for a round comes to, in a pool that is a partition. -/
structure Asked.Outcome (before : BlockPool) (lanes : List ℕ) (seqLen : ℕ) (granted : Prop)
    (after : BlockPool) : Prop where
  partitioned : after.Partitioned
  size : SameSize before after
  other : ∀ lane, lane ∉ lanes → after.laneLen lane = before.laneLen lane
  bound : ∀ lane ∈ lanes, after.laneLen lane ≤ before.laneLen lane + seqLen
  granted : granted → ∀ lane ∈ lanes, after.laneLen lane = before.laneLen lane + seqLen

theorem Asked.outcome {β : Type v} {before after : BlockPool} {seqLen laneCount : ℕ}
    {result : InferenceResult β} (hpool : before.Partitioned) (hcount : before.laneCount = laneCount)
    (lanes : RoundLanes laneCount) (hasked : Asked before lanes.lanes seqLen result after) :
    Asked.Outcome before lanes.lanes seqLen (∃ value, result = .ok value) after := by
  cases hasked with
  | refused error hresult hafter =>
      subst hafter
      exact ⟨hpool, ⟨rfl, rfl, rfl⟩, fun _ _ => rfl, fun _ _ => Nat.le_add_right _ _,
        fun ⟨value, hvalue⟩ => by simp [hresult] at hvalue⟩
  | asked hfits hafter hshort =>
      subst hafter
      rcases hpool.toLedgered.beginRound_fits hcount lanes hfits with
        ⟨_, pool, hround, hpool'⟩ | ⟨_, exhausted, pool, hround, hpool'⟩ <;> rw [hround]
      · exact
          { partitioned := hpool'.partitioned hpool
            size := ⟨hpool'.lens_length, hpool'.blockSize,
              (BlockPool.ledger_perm_range hpool.toLedgered hpool'.ledger).1⟩
            other := fun lane hlane => by rw [hpool'.laneLen, if_neg hlane, add_zero]
            bound := fun lane hlane => by rw [hpool'.laneLen, if_pos hlane]
            granted := fun _ lane hlane => by rw [hpool'.laneLen, if_pos hlane] }
      · refine
          { partitioned := hpool'.partitioned hpool
            size := ⟨congrArg List.length hpool'.lens, hpool'.blockSize,
              (BlockPool.ledger_perm_range hpool.toLedgered hpool'.ledger).1⟩
            other := fun lane _ => (hpool'.lane lane).1
            bound := fun lane _ => (hpool'.lane lane).1.trans_le (Nat.le_add_right _ _)
            granted := fun ⟨value, hvalue⟩ => ?_ }
        obtain ⟨error, herror⟩ := hshort exhausted (by rw [hround])
        rw [hvalue] at herror
        simp at herror

/-! ## What was pushed where -/

section Record

variable {D : Type u} (pool : D → BlockPool)

/-- A call that goes where it should: a prefill on from the length of its lane, a
decode over distinct lanes. -/
def Issued.Placed (issued : Issued D) : Prop :=
  match issued.call with
  | .prefill slot _ position =>
    slot < (pool issued.found).laneCount ∧ (pool issued.found).laneLen slot = position
  | .decode rows =>
    (rows.map DecodeRow.slot).Nodup ∧ ∀ row ∈ rows, row.slot < (pool issued.found).laneCount
  | .release slot => slot < (pool issued.found).laneCount

/-- One call's entry in what was pushed into a lane: tokens at their positions.
A decode row goes to the present end of its lane. -/
def occupy (lane : ℕ) (pushed : List (Token × ℕ)) (issued : Issued D) : List (Token × ℕ) :=
  match issued.call with
  | .prefill slot tokens position => if slot = lane then pushed ++ tokens.zipIdx position else pushed
  | .decode rows =>
    pushed ++ (rows.filter fun row => row.slot = lane).map fun row =>
      (row.token, (pool issued.found).laneLen row.slot)
  | .release slot => if slot = lane then [] else pushed

theorem occupy_prefill (lane : ℕ) (pushed : List (Token × ℕ)) (engine : D) (slot : ℕ)
    (tokens : List Token) (position : ℕ) :
    occupy pool lane pushed ⟨engine, .prefill slot tokens position⟩ =
      if slot = lane then pushed ++ tokens.zipIdx position else pushed := rfl

theorem occupy_release (lane : ℕ) (pushed : List (Token × ℕ)) (engine : D) (slot : ℕ) :
    occupy pool lane pushed ⟨engine, .release slot⟩ = if slot = lane then [] else pushed := rfl

/-- What was pushed into a lane since it was last released. -/
def occupancy (calls : List (Issued D)) (lane : ℕ) : List (Token × ℕ) :=
  calls.foldl (occupy pool lane) []

/-- One more call. -/
theorem occupancy_concat (calls : List (Issued D)) (issued : Issued D) (lane : ℕ) :
    occupancy pool (calls ++ [issued]) lane = occupy pool lane (occupancy pool calls lane) issued := by
  rw [occupancy, List.foldl_append]
  rfl

end Record

namespace Driven

variable {D : Type u} {R : Type v} {Row Task : Type w} {pool : D → BlockPool} {first : BlockPool}

/-- What a server on a pool keeps true of itself. -/
structure Sound (pool : D → BlockPool) (first : BlockPool) (server : Driven D R) : Prop where
  partitioned : (pool server.engine).Partitioned
  size : SameSize first (pool server.engine)
  placed : ∀ issued ∈ server.calls, issued.Placed pool
  /-- At every moment every lane was pushed a list of tokens, in order, each
  once. -/
  contiguous : ∀ earlier, earlier <+: server.calls → ∀ lane, ∃ tokens : List Token,
    occupancy pool earlier lane = tokens.zipIdx

variable (R) in
/-- Lanes read as their length and what was pushed into them. -/
def pooled (pool : D → BlockPool) (first : BlockPool) :
    LaneModel (Driven D R) (ℕ × List (Token × ℕ)) where
  valid slot := slot < first.laneCount
  sound server := server.Sound pool first
  content server lane := ((pool server.engine).laneLen lane, occupancy pool server.calls lane)
  holding tokens := (tokens.length, tokens.zipIdx)
  samples _ _ := True

/-- A server nobody has called, on a pool that is a partition. -/
theorem Sound.fresh {engine : D} (settings : R) (hpool : (pool engine).Partitioned) :
    (fresh engine settings).Sound pool (pool engine) where
  partitioned := hpool
  size := ⟨rfl, rfl, rfl⟩
  placed := by simp [Driven.fresh]
  contiguous earlier hearlier lane := by
    obtain rfl := List.prefix_nil.mp hearlier
    exact ⟨[], rfl⟩

/-- One more call keeps a server sound. -/
theorem Sound.note {server : Driven D R} (hserver : server.Sound pool first) {call : DecoderCall}
    {engine : D} (hpool : (pool engine).Partitioned) (hsize : SameSize first (pool engine))
    (hplaced : Issued.Placed pool ⟨server.engine, call⟩)
    (hcontiguous : ∀ lane, ∃ tokens : List Token,
      occupy pool lane (occupancy pool server.calls lane) ⟨server.engine, call⟩ = tokens.zipIdx) :
    (server.note call engine).Sound pool first where
  partitioned := hpool
  size := hsize
  placed issued hissued := by
    rcases List.mem_append.mp hissued with hissued | hissued
    · exact hserver.placed issued hissued
    · obtain rfl := List.mem_singleton.mp hissued
      exact hplaced
  contiguous earlier hearlier lane := by
    rcases List.prefix_concat_iff.mp hearlier with rfl | hearlier
    · rw [occupancy_concat]
      exact hcontiguous lane
    · exact hserver.contiguous earlier hearlier lane

/-- What is in every lane now. -/
theorem Sound.now {server : Driven D R} (hserver : server.Sound pool first) (lane : ℕ) :
    ∃ tokens : List Token, occupancy pool server.calls lane = tokens.zipIdx :=
  hserver.contiguous _ List.prefix_rfl lane

variable [BatchedDecoder D Row]

/-- What a prefill on from the end of its lane does to the pool. -/
theorem prefill_outcome (hbacked : PoolBacked D pool) {engine : D} {slot position : ℕ}
    (tokens : List Token) (hpool : (pool engine).Partitioned)
    (hslot : slot < (pool engine).laneCount) (hlength : (pool engine).laneLen slot = position) :
    Asked.Outcome (pool engine) [slot] tokens.length
      (∃ logits, (BatchedDecoder.prefill engine slot tokens position).1 = .ok logits)
      (pool (BatchedDecoder.prefill engine slot tokens position).2) := by
  obtain ⟨before, rfl | ⟨hzero, rfl⟩, hasked⟩ :=
    hbacked.prefill_asks engine slot tokens position hpool
  · exact hasked.outcome hpool rfl
      (⟨[slot], List.nodup_singleton slot, by simpa using hslot⟩ : RoundLanes _)
  · -- a lane that is empty already stays as it was
    have hsame := laneLen_freeLane_of_empty (hlength.trans hzero)
    have hsize := SameSize.freeLane (pool engine) slot
    have houtcome := hasked.outcome (hpool.freeLane slot) hsize.laneCount
      (⟨[slot], List.nodup_singleton slot, by simpa using hslot⟩ : RoundLanes _)
    exact
      { partitioned := houtcome.partitioned
        size := hsize.trans houtcome.size
        other := fun lane hlane => (houtcome.other lane hlane).trans (hsame lane)
        bound := fun lane hlane => hsame lane ▸ houtcome.bound lane hlane
        granted := fun hok lane hlane => hsame lane ▸ houtcome.granted hok lane hlane }

/-- What a decode over distinct lanes does to the pool. -/
theorem decode_outcome (hbacked : PoolBacked D pool) {engine : D} {rows : List DecodeRow}
    (hpool : (pool engine).Partitioned) (hnodup : (rows.map DecodeRow.slot).Nodup)
    (hrange : ∀ row ∈ rows, row.slot < (pool engine).laneCount) :
    Asked.Outcome (pool engine) (rows.map DecodeRow.slot) 1
      (∃ logits, (BatchedDecoder.decode engine rows).1 = .ok logits)
      (pool (BatchedDecoder.decode engine rows).2) :=
  (hbacked.decode_asks engine rows).outcome hpool rfl
    (⟨rows.map DecodeRow.slot, hnodup, by simpa using hrange⟩ : RoundLanes _)

/-- What a decode pushes into one of its lanes, and into any other. -/
theorem occupy_decode (engine : D) {rows : List DecodeRow} (pushed : List (Token × ℕ))
    (hnodup : (rows.map DecodeRow.slot).Nodup) :
    (∀ row ∈ rows, occupy pool row.slot pushed ⟨engine, .decode rows⟩ =
      pushed ++ [(row.token, (pool engine).laneLen row.slot)]) ∧
    ∀ lane, (∀ row ∈ rows, row.slot ≠ lane) →
      occupy pool lane pushed ⟨engine, .decode rows⟩ = pushed := by
  refine ⟨fun row hrow => ?_, fun lane hlane => ?_⟩
  · have hfilter := filter_key_eq_singleton hnodup hrow
    simp only [occupy, hfilter, List.map_cons, List.map_nil]
  · have hfilter : (rows.filter fun row => row.slot = lane) = [] := filter_key_eq_nil hlane
    simp only [occupy, hfilter, List.map_nil, List.append_nil]

variable [ServerSettings R Row Task]

/-- A prefill the contract covers, read off the pool. -/
theorem CanPrefill.read {server : Driven D R} {slot position : ℕ} {tokens pushed : List Token}
    (hcan : (pooled R pool first).CanPrefill server slot tokens position pushed) :
    slot < (pool server.engine).laneCount ∧ (pool server.engine).laneLen slot = position ∧
      occupancy pool server.calls slot = pushed.zipIdx := by
  obtain ⟨hlength, hpushed⟩ := Prod.mk.inj hcan.held
  exact ⟨hcan.sound.size.laneCount ▸ hcan.valid, hlength.trans hcan.position_eq.symm, hpushed⟩

/-- What a prefill the contract covers leaves behind. -/
theorem prefill_note (hbacked : PoolBacked D pool) {server : Driven D R} {slot position : ℕ}
    {tokens pushed : List Token}
    (hcan : (pooled R pool first).CanPrefill server slot tokens position pushed) :
    (prefill server slot tokens position).2.Sound pool first ∧
      (∀ lane, lane ≠ slot → (pooled R pool first).content (prefill server slot tokens position).2 lane =
        (pooled R pool first).content server lane) ∧
      ((∃ logits, (prefill server slot tokens position).1 = .ok logits) →
        (pooled R pool first).content (prefill server slot tokens position).2 slot =
          (pooled R pool first).holding (pushed ++ tokens)) := by
  obtain ⟨hslot, hlength, hpushed⟩ := CanPrefill.read hcan
  have hsound : server.Sound pool first := hcan.sound
  have houtcome := prefill_outcome hbacked tokens hsound.partitioned hslot hlength
  have hself : occupy pool slot (occupancy pool server.calls slot)
      ⟨server.engine, .prefill slot tokens position⟩ = (pushed ++ tokens).zipIdx := by
    rw [occupy_prefill, if_pos rfl, hpushed, hcan.position_eq, List.zipIdx_append, Nat.zero_add]
  have hother : ∀ lane, lane ≠ slot → occupy pool lane (occupancy pool server.calls lane)
      ⟨server.engine, .prefill slot tokens position⟩ = occupancy pool server.calls lane := by
    intro lane hlane
    rw [occupy_prefill, if_neg hlane.symm]
  refine ⟨hsound.note houtcome.partitioned (hsound.size.trans houtcome.size) ⟨hslot, hlength⟩
    fun lane => ?_, fun lane hlane => Prod.ext ?_ ?_, fun hok => Prod.ext ?_ ?_⟩
  · by_cases hlane : lane = slot
    · subst hlane
      exact ⟨_, hself⟩
    · rw [hother lane hlane]
      exact hsound.now lane
  · exact houtcome.other lane (by simpa using hlane)
  · exact (occupancy_concat pool server.calls _ lane).trans (hother lane hlane)
  · have hgranted := houtcome.granted hok slot (List.mem_singleton_self _)
    exact hgranted.trans (by rw [hlength, hcan.position_eq]; exact List.length_append.symm)
  · exact (occupancy_concat pool server.calls _ slot).trans hself

/-- What a decode the contract covers leaves behind. -/
theorem decode_note (hbacked : PoolBacked D pool) {server : Driven D R} {rows : List DecodeRow}
    {pushed : DecodeRow → List Token}
    (hcan : (pooled R pool first).CanDecode server rows pushed) :
    (decode server rows).2.Sound pool first ∧
      (∀ lane, (∀ row ∈ rows, row.slot ≠ lane) →
        (pooled R pool first).content (decode server rows).2 lane =
          (pooled R pool first).content server lane) ∧
      ((∃ logits, (decode server rows).1 = .ok logits) → ∀ row ∈ rows,
        (pooled R pool first).content (decode server rows).2 row.slot =
          (pooled R pool first).holding (pushed row ++ [row.token])) := by
  have hsound : server.Sound pool first := hcan.sound
  have hrange : ∀ row ∈ rows, row.slot < (pool server.engine).laneCount := fun row hrow =>
    hsound.size.laneCount ▸ hcan.valid row hrow
  have hheld : ∀ row ∈ rows, (pool server.engine).laneLen row.slot = (pushed row).length ∧
      occupancy pool server.calls row.slot = (pushed row).zipIdx := fun row hrow =>
    Prod.mk.inj (hcan.held row hrow)
  have houtcome := decode_outcome hbacked hsound.partitioned hcan.nodup hrange
  have hself : ∀ row ∈ rows, occupy pool row.slot (occupancy pool server.calls row.slot)
      ⟨server.engine, .decode rows⟩ = (pushed row ++ [row.token]).zipIdx := by
    intro row hrow
    obtain ⟨hlength, hpushed⟩ := hheld row hrow
    rw [(occupy_decode server.engine _ hcan.nodup).1 row hrow, hlength, hpushed,
      List.zipIdx_append, Nat.zero_add]
    rfl
  have hother : ∀ lane, (∀ row ∈ rows, row.slot ≠ lane) →
      occupy pool lane (occupancy pool server.calls lane) ⟨server.engine, .decode rows⟩ =
        occupancy pool server.calls lane := fun lane hlane =>
    (occupy_decode server.engine _ hcan.nodup).2 lane hlane
  refine ⟨hsound.note houtcome.partitioned (hsound.size.trans houtcome.size) ⟨hcan.nodup, hrange⟩
    fun lane => ?_, fun lane hlane => Prod.ext ?_ ?_, fun hok row hrow => Prod.ext ?_ ?_⟩
  · by_cases hlane : ∃ row ∈ rows, row.slot = lane
    · obtain ⟨row, hrow, rfl⟩ := hlane
      exact ⟨_, hself row hrow⟩
    · rw [hother lane fun row hrow hsame => hlane ⟨row, hrow, hsame⟩]
      exact hsound.now lane
  · refine houtcome.other lane fun hmem => ?_
    obtain ⟨row, hrow, hsame⟩ := List.mem_map.mp hmem
    exact hlane row hrow hsame
  · exact (occupancy_concat pool server.calls _ lane).trans (hother lane hlane)
  · have hgranted := houtcome.granted hok row.slot (List.mem_map_of_mem hrow)
    rw [(hheld row hrow).1] at hgranted
    exact hgranted.trans (by simp [pooled])
  · exact (occupancy_concat pool server.calls _ row.slot).trans (hself row hrow)

/-- What a release leaves behind. -/
theorem release_note (hbacked : PoolBacked D pool) {server : Driven D R} {slot : ℕ}
    (hsound : server.Sound pool first) (hslot : slot < first.laneCount) :
    (release server slot).Sound pool first ∧
      (pooled R pool first).content (release server slot) slot = (pooled R pool first).holding [] ∧
      ∀ lane, lane ≠ slot → (pooled R pool first).content (release server slot) lane =
        (pooled R pool first).content server lane := by
  have hpool : pool (BatchedDecoder.release server.engine slot) =
      (pool server.engine).freeLane slot := hbacked.release_frees server.engine slot hsound.partitioned
  refine ⟨hsound.note ?_ ?_ ?_ fun lane => ?_, Prod.ext ?_ ?_, fun lane hlane => Prod.ext ?_ ?_⟩
  · rw [hpool]
    exact hsound.partitioned.freeLane slot
  · rw [hpool]
    exact hsound.size.trans (SameSize.freeLane _ slot)
  · exact lt_of_lt_of_eq hslot hsound.size.laneCount.symm
  · rw [occupy_release]
    split
    · exact ⟨[], rfl⟩
    · exact hsound.now lane
  · exact (congrArg (fun pool => pool.laneLen slot) hpool).trans (by
      rw [BlockPool.laneLen_freeLane, if_pos rfl])
  · exact (occupancy_concat pool server.calls _ slot).trans (if_pos rfl)
  · exact (congrArg (fun pool => pool.laneLen lane) hpool).trans (by
      rw [BlockPool.laneLen_freeLane, if_neg hlane])
  · exact (occupancy_concat pool server.calls _ lane).trans (if_neg hlane.symm)

/-- **A server on a block pool keeps the contract.** -/
theorem pooled_honoured (hbacked : PoolBacked D pool)
    (hslots : ∀ settings : R, (ServerSettings.batchCapacity settings).maxSlots ≤ first.laneCount) :
    (pooled R pool first).Honoured where
  valid_slot server _ hslot := lt_of_lt_of_le hslot (hslots server.settings)
  reborrow _ _ := rfl
  decoder_sound _ hsound := hsound
  decoder_content _ _ := rfl
  prefill_sound hcan := (prefill_note hbacked hcan).1
  prefill_self hcan hlogits := (prefill_note hbacked hcan).2.2 ⟨_, hlogits⟩
  prefill_other hcan hlane := (prefill_note hbacked hcan).2.1 _ hlane
  prefill_samples _ _ _ _ := trivial
  decode_sound hcan := (decode_note hbacked hcan).1
  decode_self hcan hlogits := (decode_note hbacked hcan).2.2 ⟨_, hlogits⟩
  decode_other hcan hlane := (decode_note hbacked hcan).2.1 _ hlane
  decode_samples _ _ _ _ _ _ := trivial
  release_sound hsound hvalid := (release_note hbacked hsound hvalid).1
  release_self hsound hvalid := (release_note hbacked hsound hvalid).2.1
  release_other hsound hvalid hlane := (release_note hbacked hsound hvalid).2.2 _ hlane
  sampler_sound hsound := ⟨hsound.partitioned, hsound.size, hsound.placed, hsound.contiguous⟩
  sampler_content _ _ _ _ := rfl

end Driven

end BurnLm.Inference
