/-
# What lanes hold

A scheduler never looks into a decoder. What it relies on is that a lane's state
is settled by the tokens pushed into it since it was released, in order, and that
calls leave the lanes they do not name alone. This module states that contract
over an arbitrary notion of lane content, and proves that a round honours the
scheduler's side: every unfinished sequence's lane holds exactly the part of its
tokens that counts as processed.

A call that fails may leave anything in the lanes it names. Sampling may touch
the server, but no lane.
-/

import BurnLm.Inference.Turn

namespace BurnLm.Inference

open BurnLm.Math

universe u v w c

/-- A reading of a server's lanes. -/
structure LaneModel (S : Type u) (C : Type c) where
  /-- The slots that are lanes. -/
  valid : ℕ → Prop
  /-- What the server keeps true of itself as long as it is called as it should
  be. -/
  sound : S → Prop
  /-- What a lane holds. -/
  content : S → ℕ → C
  /-- What a lane holds once these tokens were pushed into it. -/
  holding : List Token → C
  /-- Which tokens may be sampled after these. -/
  samples : List Token → Token → Prop

namespace LaneModel

variable {S : Type u} {C : Type c} {Row : Type v} {Task : Type w}

/-- A prefill the contract covers: it goes on where the lane stands. -/
structure CanPrefill (model : LaneModel S C) (server : S) (slot : ℕ) (tokens : List Token)
    (position : ℕ) (pushed : List Token) : Prop where
  sound : model.sound server
  valid : model.valid slot
  held : model.content server slot = model.holding pushed
  position_eq : position = pushed.length
  nonempty : tokens ≠ []

/-- A fused decode the contract covers: distinct lanes, each holding something
pushed. -/
structure CanDecode (model : LaneModel S C) (server : S) (rows : List DecodeRow)
    (pushed : DecodeRow → List Token) : Prop where
  sound : model.sound server
  valid : ∀ row ∈ rows, model.valid row.slot
  held : ∀ row ∈ rows, model.content server row.slot = model.holding (pushed row)
  nodup : (rows.map DecodeRow.slot).Nodup
  nonempty : rows ≠ []

/-- What a server owes its scheduler. -/
structure Honoured [BatchedInferenceServer S Row Task] (model : LaneModel S C) : Prop where
  valid_slot : ∀ (server : S) (slot : ℕ), slot < (batchCapacity server).maxSlots →
    model.valid slot
  /-- A decoder that was just borrowed can be borrowed again. -/
  reborrow : ∀ server : S, (decoder server).1 = .ok () →
    (decoder (decoder server).2).1 = .ok ()
  decoder_sound : ∀ server : S, model.sound server → model.sound (decoder server).2
  decoder_content : ∀ (server : S) (lane : ℕ),
    model.content (decoder server).2 lane = model.content server lane
  prefill_sound : ∀ {server : S} {slot : ℕ} {tokens : List Token} {position : ℕ}
    {pushed : List Token}, model.CanPrefill server slot tokens position pushed →
      model.sound (prefill server slot tokens position).2
  prefill_self : ∀ {server : S} {slot : ℕ} {tokens : List Token} {position : ℕ}
    {pushed : List Token} {logits : Logits Row},
    model.CanPrefill server slot tokens position pushed →
      (prefill server slot tokens position).1 = .ok logits →
        model.content (prefill server slot tokens position).2 slot =
          model.holding (pushed ++ tokens)
  prefill_other : ∀ {server : S} {slot : ℕ} {tokens : List Token} {position : ℕ}
    {pushed : List Token} {other : ℕ}, model.CanPrefill server slot tokens position pushed →
      other ≠ slot → model.content (prefill server slot tokens position).2 other =
        model.content server other
  prefill_samples : ∀ {server configured : S} {slot : ℕ} {tokens : List Token} {position : ℕ}
    {pushed : List Token} {logits : Logits Row} {token : Token} {rest : List Token},
    model.CanPrefill server slot tokens position pushed →
      (prefill server slot tokens position).1 = .ok logits → logits.rows.length = 1 →
        (sampler configured (prefill server slot tokens position).2 logits).1 =
          .ok (token :: rest) → model.samples (pushed ++ tokens) token
  decode_sound : ∀ {server : S} {rows : List DecodeRow} {pushed : DecodeRow → List Token},
    model.CanDecode server rows pushed → model.sound (decode server rows).2
  decode_self : ∀ {server : S} {rows : List DecodeRow} {pushed : DecodeRow → List Token}
    {logits : Logits Row}, model.CanDecode server rows pushed →
      (decode server rows).1 = .ok logits → ∀ row ∈ rows,
        model.content (decode server rows).2 row.slot = model.holding (pushed row ++ [row.token])
  decode_other : ∀ {server : S} {rows : List DecodeRow} {pushed : DecodeRow → List Token}
    {other : ℕ}, model.CanDecode server rows pushed → (∀ row ∈ rows, row.slot ≠ other) →
      model.content (decode server rows).2 other = model.content server other
  decode_samples : ∀ {server configured : S} {rows : List DecodeRow}
    {pushed : DecodeRow → List Token} {logits : Logits Row} {pick : DecodeRow → Token},
    model.CanDecode server rows pushed → (decode server rows).1 = .ok logits →
      logits.rows.length = rows.length →
        (sampler configured (decode server rows).2 logits).1 = .ok (rows.map pick) →
          ∀ row ∈ rows, model.samples (pushed row ++ [row.token]) (pick row)
  release_sound : ∀ {server : S} {slot : ℕ}, model.sound server → model.valid slot →
    model.sound (release server slot)
  release_self : ∀ {server : S} {slot : ℕ}, model.sound server → model.valid slot →
    model.content (release server slot) slot = model.holding []
  release_other : ∀ {server : S} {slot other : ℕ}, model.sound server → model.valid slot →
    other ≠ slot → model.content (release server slot) other = model.content server other
  sampler_sound : ∀ {configured server : S} {logits : Logits Row}, model.sound server →
    model.sound (sampler configured server logits).2
  sampler_content : ∀ (configured server : S) (logits : Logits Row) (lane : ℕ),
    model.content (sampler configured server logits).2 lane = model.content server lane

/-- Every generated token may be sampled after the tokens before it. -/
structure Traced (model : LaneModel S C) (tokens : List Token) (generated : ℕ) : Prop where
  generated_le : generated ≤ tokens.length
  sampled : ∀ index token, tokens.length - generated ≤ index → tokens[index]? = some token →
    model.samples (tokens.take index) token

/-- Nothing generated yet. -/
theorem Traced.start {model : LaneModel S C} (tokens : List Token) : model.Traced tokens 0 := by
  refine ⟨Nat.zero_le _, fun index token hindex htoken => ?_⟩
  rw [List.getElem?_eq_none (by simpa using hindex)] at htoken
  simp at htoken

/-- One more token. -/
theorem Traced.push {model : LaneModel S C} {tokens : List Token} {generated : ℕ}
    (htraced : model.Traced tokens generated) {token : Token}
    (htoken : model.samples tokens token) :
    model.Traced (tokens ++ [token]) (generated + 1) := by
  refine ⟨?_, fun index other hindex hother => ?_⟩
  · rw [List.length_append, List.length_singleton]
    exact Nat.succ_le_succ htraced.generated_le
  · rw [List.length_append, List.length_singleton] at hindex
    rcases Nat.lt_or_ge index tokens.length with hlt | hge
    · rw [List.getElem?_append_left hlt] at hother
      rw [List.take_append_of_le_length hlt.le]
      exact htraced.sampled index other (by omega) hother
    · rw [List.getElem?_append_right hge, List.getElem?_singleton] at hother
      split at hother
      · next hzero =>
          obtain rfl := Option.some.inj hother
          obtain rfl : index = tokens.length := by omega
          rwa [List.take_left]
      · simp at hother

/-- The scheduler's side: slots are its own, an unfinished sequence's lane holds
its processed tokens, and everything it generated was sampled. -/
structure InStep (model : LaneModel S C) (server : S) (active : List JobSeq) : Prop where
  nodup : (active.map ActiveSeq.slot).Nodup
  valid : ∀ seq ∈ active, model.valid seq.slot
  traced : ∀ seq ∈ active, model.Traced seq.tokens seq.generated
  processed_le : ∀ seq ∈ active, seq.processed ≤ seq.tokens.length
  held : ∀ seq ∈ active, seq.finished = false →
    model.content server seq.slot = model.holding (seq.tokens.take seq.processed)

/-- What may become of one sequence while the server becomes another. -/
structure Advances (model : LaneModel S C) (next : S) (seq changed : JobSeq) : Prop where
  slot_eq : changed.slot = seq.slot
  traced : model.Traced changed.tokens changed.generated
  processed_le : changed.processed ≤ changed.tokens.length
  held : changed.finished = false →
    model.content next changed.slot = model.holding (changed.tokens.take changed.processed)

section Keeping

variable {model : LaneModel S C} {server next : S} {active changed : List JobSeq}

/-- Sequences keep their slots. -/
theorem slots_of_advances (hchanged : List.Forall₂ (model.Advances next) active changed) :
    changed.map ActiveSeq.slot = active.map ActiveSeq.slot := by
  have hmap : List.Forall₂ (· = ·) (changed.map ActiveSeq.slot) (active.map ActiveSeq.slot) :=
    List.forall₂_map_left_iff.mpr
      (List.forall₂_map_right_iff.mpr (hchanged.flip.imp fun _ _ h => h.slot_eq))
  rwa [List.forall₂_eq_eq_eq] at hmap

/-- Every sequence may change in its own lane. -/
theorem InStep.advance (hstep : model.InStep server active)
    (hchanged : List.Forall₂ (model.Advances next) active changed) :
    model.InStep next changed := by
  refine
    { nodup := by
        rw [slots_of_advances hchanged]
        exact hstep.nodup
      valid := fun seq hseq => ?_
      traced := fun seq hseq => ?_
      processed_le := fun seq hseq => ?_
      held := fun seq hseq => ?_ } <;>
    obtain ⟨before, hbefore, hadvances⟩ := exists_of_forall₂_right hchanged hseq
  · rw [hadvances.slot_eq]
    exact hstep.valid before hbefore
  · exact hadvances.traced
  · exact hadvances.processed_le
  · exact hadvances.held

/-- A sequence whose lane stands still may be relabelled, or finished. -/
theorem InStep.relabel {seq : JobSeq} (hstep : model.InStep server active) (hseq : seq ∈ active)
    (hstill : model.content next seq.slot = model.content server seq.slot) (finished paused : Bool)
    (kvReservation : ℕ) (extra : JobMeta) (hfinished : finished = false → seq.finished = false) :
    model.Advances next seq { seq with finished, paused, kvReservation, extra } :=
  ⟨rfl, hstep.traced seq hseq, hstep.processed_le seq hseq, fun hunfinished => by
    rw [hstill]
    exact hstep.held seq hseq (hfinished hunfinished)⟩

/-- A sequence whose lane stands still may stay as it is. -/
theorem InStep.stays {seq : JobSeq} (hstep : model.InStep server active) (hseq : seq ∈ active)
    (hstill : model.content next seq.slot = model.content server seq.slot) :
    model.Advances next seq seq :=
  hstep.relabel hseq hstill _ _ _ _ id

/-- A finished sequence's lane may hold anything. -/
theorem InStep.fails {seq : JobSeq} (hstep : model.InStep server active) (hseq : seq ∈ active) :
    model.Advances next seq { seq with finished := true } :=
  ⟨rfl, hstep.traced seq hseq, hstep.processed_le seq hseq, by simp⟩

/-- A sampled token moves its sequence on. -/
theorem InStep.samples {seq : JobSeq} {token : Token} {stopIds : List Token}
    (hstep : model.InStep server active) (hseq : seq ∈ active)
    (htoken : model.samples seq.tokens token)
    (hheld : model.content next seq.slot = model.holding seq.tokens) :
    model.Advances next seq (advanceOrFail stopIds seq (.ok token)).1 := by
  refine ⟨rfl, (hstep.traced seq hseq).push htoken, ?_, fun _ => ?_⟩
  · simp [advanceOrFail]
  · simpa [advanceOrFail] using hheld

/-- Only the lane contents count. -/
theorem InStep.congr (hstep : model.InStep server active)
    (hstill : ∀ lane, model.content next lane = model.content server lane) :
    model.InStep next active :=
  hstep.advance (List.forall₂_same.mpr fun _ hseq => hstep.stays hseq (hstill _))

/-- A new sequence joins in a lane that was just emptied. -/
theorem InStep.join {seq : JobSeq} (hstep : model.InStep server active)
    (hapart : ∀ other ∈ active, other.slot ≠ seq.slot) (hvalid : model.valid seq.slot)
    (htraced : model.Traced seq.tokens seq.generated) (hprocessed : seq.processed = 0)
    (hempty : model.content next seq.slot = model.holding [])
    (hstill : ∀ lane, lane ≠ seq.slot → model.content next lane = model.content server lane) :
    model.InStep next (active ++ [seq]) := by
  refine
    { nodup := ?_
      valid := ?_
      traced := ?_
      processed_le := ?_
      held := ?_ }
  · rw [List.map_append, List.map_singleton, List.nodup_append]
    refine ⟨hstep.nodup, List.nodup_singleton _, ?_⟩
    rintro slot hslot other hother rfl
    obtain ⟨owner, howner, rfl⟩ := List.mem_map.mp hslot
    exact hapart owner howner (List.mem_singleton.mp hother)
  · simpa [or_imp, forall_and] using ⟨hstep.valid, hvalid⟩
  · simpa [or_imp, forall_and] using ⟨hstep.traced, htraced⟩
  · simpa [or_imp, forall_and, hprocessed] using hstep.processed_le
  · intro other hother hunfinished
    rcases List.mem_append.mp hother with hother | hother
    · rw [hstill _ (hapart other hother)]
      exact hstep.held other hother hunfinished
    · obtain rfl := List.mem_singleton.mp hother
      rw [hempty, hprocessed, List.take_zero]

/-- Sequences may leave while the lanes that stay in use stand still. -/
theorem InStep.leave {kept : List JobSeq} (hstep : model.InStep server active)
    (hkept : kept.Sublist active)
    (hstill : ∀ seq ∈ kept, seq.finished = false →
      model.content next seq.slot = model.content server seq.slot) :
    model.InStep next kept where
  nodup := (hkept.map _).nodup hstep.nodup
  valid := fun seq hseq => hstep.valid seq (hkept.subset hseq)
  traced := fun seq hseq => hstep.traced seq (hkept.subset hseq)
  processed_le := fun seq hseq => hstep.processed_le seq (hkept.subset hseq)
  held := fun seq hseq hunfinished => by
    rw [hstill seq hseq hunfinished]
    exact hstep.held seq (hkept.subset hseq) hunfinished

end Keeping

/-! ## A round -/

section Round

/-- What a round keeps: the server is sound, lanes and sequences are in step, and
the lanes nobody uses are as they were at the start. -/
structure Kept (model : LaneModel S C) (start server : S) (active : List JobSeq) : Prop where
  sound : model.sound server
  step : model.InStep server active
  untouched : ∀ lane, (∀ seq ∈ active, seq.slot ≠ lane) →
    model.content server lane = model.content start lane

variable {model : LaneModel S C} {start : S}

/-- Every sequence may change in its own lane while the other lanes stand still. -/
theorem Kept.advance {server next : S} {active changed : List JobSeq}
    (hkept : model.Kept start server active) (hsound : model.sound next)
    (hchanged : List.Forall₂ (model.Advances next) active changed)
    (hstill : ∀ lane, (∀ seq ∈ active, seq.slot ≠ lane) →
      model.content next lane = model.content server lane) : model.Kept start next changed := by
  refine ⟨hsound, hkept.step.advance hchanged, fun lane hlane => ?_⟩
  have hfree : ∀ seq ∈ active, seq.slot ≠ lane := by
    intro seq hseq hsame
    have hslot : lane ∈ changed.map ActiveSeq.slot := by
      rw [slots_of_advances hchanged, ← hsame]
      exact List.mem_map_of_mem hseq
    obtain ⟨other, hother, hsame'⟩ := List.mem_map.mp hslot
    exact hlane other hother hsame'
  rw [hstill lane hfree]
  exact hkept.untouched lane hfree

/-- One sequence changes in its own lane. -/
theorem Kept.update {server next : S} {before after : List JobSeq} {seq changed : JobSeq}
    (hkept : model.Kept start server (before ++ seq :: after)) (hsound : model.sound next)
    (hadvances : model.Advances next seq changed)
    (hstill : ∀ lane, lane ≠ seq.slot → model.content next lane = model.content server lane) :
    model.Kept start next (before ++ changed :: after) := by
  have hnodup := hkept.step.nodup
  rw [List.map_append, List.map_cons, List.nodup_middle, List.nodup_cons] at hnodup
  have hstays : ∀ other, other ∈ before ∨ other ∈ after → model.Advances next other other := by
    intro other hother
    refine hkept.step.stays (by simp; tauto) (hstill _ fun hsame => hnodup.1 ?_)
    rw [← hsame, ← List.map_append]
    exact List.mem_map_of_mem (List.mem_append.mpr hother)
  refine hkept.advance hsound (List.rel_append ?_ (List.Forall₂.cons hadvances ?_)) ?_
  · exact List.forall₂_same.mpr fun other hother => hstays other (Or.inl hother)
  · exact List.forall₂_same.mpr fun other hother => hstays other (Or.inr hother)
  · exact fun lane hlane => hstill lane (hlane seq (by simp)).symm

variable [BatchedInferenceServer S Row Task] {configured : S} {stopIds : List Token}

/-- A call's server, sampled or not. -/
theorem Honoured.sampled (hhonoured : model.Honoured) {called after : S}
    {result : InferenceResult (Logits Row)} (hsound : model.sound called)
    (hafter : after = called ∨ ∃ logits, result = .ok logits ∧
      after = (sampler configured called logits).2) :
    model.sound after ∧ ∀ lane, model.content after lane = model.content called lane := by
  rcases hafter with rfl | ⟨logits, _, rfl⟩
  · exact ⟨hsound, fun _ => rfl⟩
  · exact ⟨hhonoured.sampler_sound hsound, hhonoured.sampler_content _ _ _⟩

/-- One chunk keeps lanes and sequences in step. -/
theorem Kept.prefillChunk (hhonoured : model.Honoured) {server : S} {before after : List JobSeq}
    {seq : JobSeq} {granted contextLen : ℕ}
    (hkept : model.Kept start server (before ++ seq :: after))
    (hseq : Prefillable contextLen seq) (hpos : 0 < granted)
    (hgranted : seq.processed + granted ≤ seq.tokens.length) :
    model.Kept start (prefillChunk (sampler configured) stopIds granted server seq).2.2
      (before ++ (prefillChunk (sampler configured) stopIds granted server seq).1 :: after) := by
  have hstep := hkept.step
  have hmem : seq ∈ before ++ seq :: after := by simp
  have hcan : model.CanPrefill server seq.slot (chunkOf seq granted) seq.processed
      (seq.tokens.take seq.processed) :=
    { sound := hkept.sound
      valid := hstep.valid seq hmem
      held := hstep.held seq hmem hseq.unfinished
      position_eq := (List.length_take_of_le (hstep.processed_le seq hmem)).symm
      nonempty := by
        rw [← List.length_pos_iff, chunkOf, List.length_drop, List.length_take]
        omega }
  have hcalled := hhonoured.prefill_sound hcan
  have hother : ∀ lane, lane ≠ seq.slot → model.content
      (prefill server seq.slot (chunkOf seq granted) seq.processed).2 lane =
        model.content server lane := fun lane hlane => hhonoured.prefill_other hcan hlane
  rcases @prefillChunk_cases JobMeta S Row _ (sampler configured) stopIds granted server seq
      hgranted with
    ⟨hchunk, ⟨logits, hlogits⟩, hresult⟩ | ⟨error, last, hresult, hlast⟩ |
      ⟨hall, logits, token, rest, last, hlogits, hrows, hsampled, hresult⟩ <;> rw [hresult]
  · refine hkept.update hcalled ⟨rfl, hstep.traced seq hmem, hchunk.le, fun _ => ?_⟩ hother
    rw [hhonoured.prefill_self hcan hlogits, take_append_chunkOf]
  · obtain ⟨hsound, hstill⟩ := hhonoured.sampled hcalled hlast
    refine hkept.update hsound (hstep.fails hmem) fun lane hlane => ?_
    rw [hstill, hother lane hlane]
  · have hpushed : seq.tokens.take seq.processed ++ chunkOf seq granted = seq.tokens := by
      rw [take_append_chunkOf, hall, List.take_length]
    have htoken := hhonoured.prefill_samples hcan hlogits hrows (by rw [hsampled])
    obtain ⟨hsound, hstill⟩ := hhonoured.sampled hcalled
      (Or.inr ⟨logits, hlogits, by rw [hsampled]⟩ : last = _ ∨ _)
    rw [hpushed] at htoken
    refine hkept.update hsound (hstep.samples hmem htoken ?_) fun lane hlane => ?_
    · rw [hstill, hhonoured.prefill_self hcan hlogits, hpushed]
    · rw [hstill, hother lane hlane]

/-- Settling the rows keeps step when every row's sequence does. -/
theorem Kept.settle {server next : S} {entries : List (Entry JobMeta)} {contextLen : ℕ}
    {sampled : DecodeRow → InferenceResult Token}
    (hkept : model.Kept start server (entries.map Entry.seq)) (hsound : model.sound next)
    (hdecodable : ∀ entry ∈ entries, entry.DecodeReady contextLen)
    (hstill : ∀ lane, (∀ row ∈ decodeRows entries, row.slot ≠ lane) →
      model.content next lane = model.content server lane)
    (hrows : ∀ entry ∈ entries, ∀ row, entry.work = .decode row →
      model.Advances next entry.seq (advanceOrFail stopIds entry.seq (sampled row)).1) :
    model.Kept start next ((entries.map (Entry.settle stopIds sampled)).map Entry.seq) := by
  have hslots : (entries.map fun entry => entry.seq.slot).Nodup := by
    have hnodup := hkept.step.nodup
    rwa [List.map_map] at hnodup
  have hstays : ∀ entry ∈ entries, (∀ row, entry.work ≠ .decode row) →
      model.Advances next entry.seq entry.seq := fun entry hentry hidle =>
    hkept.step.stays (List.mem_map_of_mem hentry)
      (hstill _ (slot_ne_of_idle hslots hdecodable hentry hidle))
  refine hkept.advance hsound ?_ fun lane hlane => hstill lane fun row hrow hsame => ?_
  · rw [List.map_map, List.forall₂_map_left_iff, List.forall₂_map_right_iff, List.forall₂_same]
    intro entry hentry
    rw [Function.comp_apply, Entry.settle]
    cases hwork : entry.work with
    | decode row => exact hrows entry hentry row hwork
    | idle => exact hstays entry hentry (by simp [hwork])
    | prefill => exact hstays entry hentry (by simp [hwork])
  · obtain ⟨owner, howner, hwork⟩ := mem_decodeRows.mp hrow
    obtain ⟨_, rfl⟩ := hdecodable owner howner row hwork
    exact hlane _ (List.mem_map_of_mem howner) hsame

/-- The decode pass keeps lanes and sequences in step. -/
theorem Kept.decodePass (hhonoured : model.Honoured) {server : S} {entries : List (Entry JobMeta)}
    {contextLen : ℕ} (hkept : model.Kept start server (entries.map Entry.seq))
    (hdecodable : ∀ entry ∈ entries, entry.DecodeReady contextLen) :
    model.Kept start (decodePass (sampler configured) stopIds entries server).2
      ((decodePass (sampler configured) stopIds entries server).1.map Entry.seq) := by
  have hstep := hkept.step
  have hmem : ∀ entry ∈ entries, entry.seq ∈ entries.map Entry.seq :=
    fun entry hentry => List.mem_map_of_mem hentry
  have hslots : (entries.map fun entry => entry.seq.slot).Nodup := by
    have hnodup := hstep.nodup
    rwa [List.map_map] at hnodup
  have hnodup := nodup_decodeRows hdecodable hslots
  obtain ⟨pushed, hpushed⟩ := exists_lookup hslots
    fun entry => entry.seq.tokens.take entry.seq.processed
  have hcan : decodeRows entries ≠ [] →
      model.CanDecode server (decodeRows entries) fun row => pushed row.slot := by
    refine fun hnonempty => ⟨hkept.sound, fun row hrow => ?_, fun row hrow => ?_, hnodup, hnonempty⟩
    all_goals
      obtain ⟨entry, hentry, hwork⟩ := mem_decodeRows.mp hrow
      obtain ⟨hseq, rfl⟩ := hdecodable entry hentry row hwork
    · exact hstep.valid _ (hmem entry hentry)
    · rw [hpushed entry hentry]
      exact hstep.held _ (hmem entry hentry) hseq.unfinished
  rcases @decodePass_cases JobMeta S Row _ (sampler configured) stopIds entries server
      hnodup.of_map with ⟨_, hresult⟩ | ⟨hnonempty, error, last, hresult, hlast⟩ |
      ⟨hnonempty, logits, pick, last, hlogits, hlength, hsampled, hresult⟩ <;> rw [hresult]
  · exact hkept
  · obtain ⟨hsound, hstill⟩ := hhonoured.sampled (hhonoured.decode_sound (hcan hnonempty)) hlast
    refine hkept.settle hsound hdecodable (fun lane hlane => ?_) fun entry hentry _ _ =>
      hstep.fails (hmem entry hentry)
    rw [hstill, hhonoured.decode_other (hcan hnonempty) hlane]
  · obtain ⟨hsound, hstill⟩ := hhonoured.sampled (hhonoured.decode_sound (hcan hnonempty))
      (Or.inr ⟨logits, hlogits, by rw [hsampled]⟩ : last = _ ∨ _)
    refine hkept.settle hsound hdecodable (fun lane hlane => ?_) fun entry hentry row hwork => ?_
    · rw [hstill, hhonoured.decode_other (hcan hnonempty) hlane]
    · have hrow : row ∈ decodeRows entries := mem_decodeRows.mpr ⟨entry, hentry, hwork⟩
      have hself := hhonoured.decode_self (hcan hnonempty) hlogits row hrow
      have htoken := hhonoured.decode_samples (hcan hnonempty) hlogits hlength
        (by rw [hsampled]) row hrow
      obtain ⟨hseq, rfl⟩ := hdecodable entry hentry row hwork
      dsimp only at hself htoken
      rw [hpushed entry hentry, take_append_owed hseq] at hself htoken
      refine hstep.samples (hmem entry hentry) htoken ?_
      rw [hstill, hself]

/-- **A round keeps lanes and sequences in step.** -/
theorem Kept.stepRound (hhonoured : model.Honoured) {server : S} {active : List JobSeq}
    (budget : PrefillBudget) (chunkSize : ℕ) (hkept : model.Kept start server active) :
    model.Kept start
      (stepRound (sampler configured) stopIds budget chunkSize active server).2.2
      (stepRound (sampler configured) stopIds budget chunkSize active server).1 := by
  refine @stepRound_rule JobMeta S Row _ (sampler configured) stopIds _ chunkSize
    (fun server active => model.Kept start server active) budget active server rfl ?_ ?_ ?_ hkept
  · intro before seq after hkept _
    exact hkept.update hkept.sound (hkept.step.fails (by simp)) fun _ _ => rfl
  · exact fun server before seq after granted hkept hseq hpos hgranted =>
      hkept.prefillChunk hhonoured hseq.1 hpos hgranted
  · exact fun server entries hkept hdecodable _ => hkept.decodePass hhonoured hdecodable

end Round

end LaneModel

end BurnLm.Inference
