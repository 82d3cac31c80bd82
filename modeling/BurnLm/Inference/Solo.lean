/-
# A request on its own

What a request is answered where nobody else is: its whole prompt goes in with
one prefill and every further token with one decode, until a stop id, the cap on
generated tokens or the end of the context. `alone` is that run on a server.

Where the logits depend on nothing but the tokens in the slot, and every token is
picked from its own row, no server is needed to say what the run generates:
`Terms.solo` does.
-/

import BurnLm.Inference.LaneModel

namespace BurnLm.Inference

universe u v w c

/-! ## Alone on a server -/

section Alone

variable {S : Type u} {Row : Type v} {Task : Type w} [BatchedInferenceServer S Row Task]

/-- Sample what the last call answered, and go on with a decode of that token
while there is anything left to generate. -/
def aloneFrom (configured : S) (slot : ℕ) :
    ℕ → List Token → InferenceResult (Logits Row) × S → InferenceResult (List Token)
  | 0, _, _ => .ok []
  | left + 1, tokens, (logits, server) =>
    let (sampled, server) := sampleRows (sampler configured) 1 server logits
    match firstToken sampled with
    | .error error => .error error
    | .ok token =>
      if token ∈ stopIds configured ∨ left = 0 ∨ maxContextLen server < tokens.length + 1 then
        .ok [token]
      else
        (aloneFrom configured slot left (tokens ++ [token]) (decode server [⟨slot, token⟩])).map
          (token :: ·)

/-- The tokens generated for a prompt in a slot of its own. A prompt without
tokens leaves nothing to run, and one beyond the context is not run. -/
def alone (server : S) (slot : ℕ) (prompt : List Token) (limit : ℕ) :
    InferenceResult (List Token) :=
  if prompt = [] ∨ maxContextLen server < prompt.length then .ok []
  else aloneFrom server slot limit prompt (prefill (release server slot) slot prompt 0)

end Alone

/-! ## Without a server -/

/-- All that the tokens generated for a request depend on. -/
structure Terms (Row : Type v) (Task : Type w) where
  /-- How a task reads as tokens. -/
  prompt : Task → InferenceResult (List Token)
  /-- The row of logits after these tokens. -/
  rowAfter : List Token → Row
  /-- The token sampled from a row. -/
  pick : Row → Token
  stopIds : List Token
  contextLen : ℕ
  maxGenTokens : ℕ

namespace Terms

variable {Row : Type v} {Task : Type w}

/-- The token that follows these. -/
def next (terms : Terms Row Task) (tokens : List Token) : Token :=
  terms.pick (terms.rowAfter tokens)

/-- At most `left` tokens, each following from those before it, up to a stop id
or the end of the context. -/
def solo (terms : Terms Row Task) : ℕ → List Token → List Token
  | 0, _ => []
  | left + 1, tokens =>
    if tokens = [] ∨ terms.contextLen < tokens.length then []
    else if terms.next tokens ∈ terms.stopIds then [terms.next tokens]
    else terms.next tokens :: terms.solo left (tokens ++ [terms.next tokens])

variable {terms : Terms Row Task}

@[simp]
theorem solo_zero (tokens : List Token) : terms.solo 0 tokens = [] := rfl

@[simp]
theorem solo_nil (left : ℕ) : terms.solo left [] = [] := by
  cases left <;> simp [solo]

theorem solo_of_overlong (left : ℕ) {tokens : List Token}
    (hover : terms.contextLen < tokens.length) : terms.solo left tokens = [] := by
  cases left <;> simp [solo, hover]

/-- The first token, and what comes after it. -/
theorem solo_succ (left : ℕ) {tokens : List Token} (hnonempty : tokens ≠ [])
    (hfits : tokens.length ≤ terms.contextLen) :
    terms.solo (left + 1) tokens = terms.next tokens ::
      if terms.next tokens ∈ terms.stopIds then []
      else terms.solo left (tokens ++ [terms.next tokens]) := by
  rw [solo, if_neg (by simp [hnonempty, hfits])]
  split <;> rfl

end Terms

namespace LaneModel

variable {S : Type u} {C : Type c} {Row : Type v} {Task : Type w}

/-- A server whose logits for a slot are a function of the tokens pushed into it
since it was released, whose sampler picks every token from its own row, and
whose settings for a request never change. Any call may fail. -/
structure Determined [BatchedInferenceServer S Row Task] (model : LaneModel S C)
    (terms : Terms Row Task) : Prop where
  honoured : model.Honoured
  prefill_row : ∀ {server : S} {slot : ℕ} {tokens : List Token} {position : ℕ}
    {pushed : List Token} {logits : Logits Row},
    model.CanPrefill server slot tokens position pushed →
      (prefill server slot tokens position).1 = .ok logits →
        logits.rows = [terms.rowAfter (pushed ++ tokens)]
  decode_rows : ∀ {server : S} {rows : List DecodeRow} {pushed : DecodeRow → List Token}
    {logits : Logits Row}, model.CanDecode server rows pushed →
      (decode server rows).1 = .ok logits →
        logits.rows = rows.map fun row => terms.rowAfter (pushed row ++ [row.token])
  sampler_picks : ∀ {configured server : S} {logits : Logits Row} {ids : List Token},
    (sampler configured server logits).1 = .ok ids → ids = logits.rows.map terms.pick
  prompt_eq : ∀ (server : S) (task : Task), tokenize server task = terms.prompt task
  stopIds_eq : ∀ server : S, stopIds server = terms.stopIds
  context_eq : ∀ server : S, maxContextLen server = terms.contextLen
  maxGenTokens_eq : ∀ server : S, maxGenTokens server = terms.maxGenTokens

/-- The same lanes, with one token to be sampled after any others. -/
def sampling (model : LaneModel S C) (next : List Token → Token) : LaneModel S C :=
  { model with samples := fun tokens token => token = next tokens }

theorem CanPrefill.plain {model : LaneModel S C} {next : List Token → Token} {server : S}
    {slot : ℕ} {tokens : List Token} {position : ℕ} {pushed : List Token}
    (hcan : (model.sampling next).CanPrefill server slot tokens position pushed) :
    model.CanPrefill server slot tokens position pushed :=
  ⟨hcan.sound, hcan.valid, hcan.held, hcan.position_eq, hcan.nonempty⟩

theorem CanDecode.plain {model : LaneModel S C} {next : List Token → Token} {server : S}
    {rows : List DecodeRow} {pushed : DecodeRow → List Token}
    (hcan : (model.sampling next).CanDecode server rows pushed) :
    model.CanDecode server rows pushed :=
  ⟨hcan.sound, hcan.valid, hcan.held, hcan.nodup, hcan.nonempty⟩

variable [BatchedInferenceServer S Row Task] {model : LaneModel S C} {terms : Terms Row Task}

/-- Such a server samples after some tokens the one token that follows them. -/
theorem Determined.sampling_honoured (hdetermined : model.Determined terms) :
    (model.sampling terms.next).Honoured where
  valid_slot := hdetermined.honoured.valid_slot
  reborrow := hdetermined.honoured.reborrow
  decoder_sound := hdetermined.honoured.decoder_sound
  decoder_content := hdetermined.honoured.decoder_content
  prefill_sound hcan := hdetermined.honoured.prefill_sound hcan.plain
  prefill_self hcan hlogits := hdetermined.honoured.prefill_self hcan.plain hlogits
  prefill_other hcan hlane := hdetermined.honoured.prefill_other hcan.plain hlane
  prefill_samples hcan hlogits _ hsampled := by
    have hids := hdetermined.sampler_picks hsampled
    rw [hdetermined.prefill_row hcan.plain hlogits] at hids
    exact (List.cons.inj hids).1
  decode_sound hcan := hdetermined.honoured.decode_sound hcan.plain
  decode_self hcan hlogits := hdetermined.honoured.decode_self hcan.plain hlogits
  decode_other hcan hlane := hdetermined.honoured.decode_other hcan.plain hlane
  decode_samples hcan hlogits _ hsampled row hrow := by
    have hids := hdetermined.sampler_picks hsampled
    rw [hdetermined.decode_rows hcan.plain hlogits, List.map_map] at hids
    exact List.map_inj_left.mp hids row hrow
  release_sound := hdetermined.honoured.release_sound
  release_self := hdetermined.honoured.release_self
  release_other := hdetermined.honoured.release_other
  sampler_sound := hdetermined.honoured.sampler_sound
  sampler_content := hdetermined.honoured.sampler_content

/-- What the last call answered leads to the rest of the solo list. -/
theorem Determined.aloneFrom_eq (hdetermined : model.Determined terms) (configured : S)
    {slot : ℕ} (hvalid : model.valid slot) (left : ℕ) {tokens : List Token}
    (hnonempty : tokens ≠ []) (hfits : tokens.length ≤ terms.contextLen)
    {called : InferenceResult (Logits Row) × S} (hsound : model.sound called.2)
    (hanswer : ∀ logits, called.1 = .ok logits →
      model.content called.2 slot = model.holding tokens ∧
        logits.rows = [terms.rowAfter tokens]) :
    aloneFrom configured slot left tokens called = .ok (terms.solo left tokens) ∨
      ∃ error, aloneFrom configured slot left tokens called = .error error := by
  have hhonoured := hdetermined.honoured
  induction left generalizing tokens called with
  | zero => exact Or.inl rfl
  | succ left ih =>
      obtain ⟨result, server⟩ := called
      rw [aloneFrom, Terms.solo_succ left hnonempty hfits]
      rcases sampleRows_cases (sampler configured) 1 server result with
        ⟨error, after, hsampled, _⟩ | ⟨logits, ids, after, hlogits, _, hids, hsampled⟩ <;>
        simp only [hsampled]
      · exact Or.inr ⟨error, rfl⟩
      obtain ⟨hheld, hrow⟩ := hanswer logits hlogits
      obtain rfl : ids = [terms.next tokens] := by
        rw [hdetermined.sampler_picks (congrArg Prod.fst hids), hrow]
        rfl
      obtain rfl : (sampler configured server logits).2 = after := by rw [hids]
      simp only [firstToken, hdetermined.stopIds_eq, hdetermined.context_eq]
      by_cases hstop : terms.next tokens ∈ terms.stopIds
      · exact Or.inl (by simp only [hstop, true_or, if_true])
      by_cases hlast : left = 0 ∨ terms.contextLen < tokens.length + 1
      · have hend : terms.solo left (tokens ++ [terms.next tokens]) = [] := by
          rcases hlast with rfl | hover
          · rfl
          · exact Terms.solo_of_overlong left (by simpa using hover)
        exact Or.inl (by simp only [hstop, hlast, hend, false_or, if_true, if_false])
      simp only [hstop, hlast, false_or, if_false]
      -- the token just sampled is the one row of the next decode
      have hcan : model.CanDecode (sampler configured server logits).2
          [⟨slot, terms.next tokens⟩] fun _ => tokens :=
        { sound := hhonoured.sampler_sound hsound
          valid := by simpa using hvalid
          held := by simpa [hhonoured.sampler_content] using hheld
          nodup := List.nodup_singleton _
          nonempty := List.cons_ne_nil _ _ }
      have hmore := @ih (tokens ++ [terms.next tokens]) (by simp)
        (by simpa using not_lt.mp fun h => hlast (Or.inr h))
        (decode (sampler configured server logits).2 [⟨slot, terms.next tokens⟩])
        (hhonoured.decode_sound hcan) fun logits hlogits => ⟨?_, ?_⟩
      · rcases hmore with hmore | ⟨error, hmore⟩
        · exact Or.inl (by rw [hmore]; rfl)
        · exact Or.inr ⟨error, by rw [hmore]; rfl⟩
      · exact hhonoured.decode_self hcan hlogits _ (List.mem_singleton_self _)
      · rw [hdetermined.decode_rows hcan hlogits]
        rfl

/-- **A request alone generates its solo list**, unless a call fails. -/
theorem Determined.alone_eq (hdetermined : model.Determined terms) {server : S} {slot : ℕ}
    (hsound : model.sound server) (hvalid : model.valid slot) (prompt : List Token) (limit : ℕ) :
    alone server slot prompt limit = .ok (terms.solo limit prompt) ∨
      ∃ error, alone server slot prompt limit = .error error := by
  have hhonoured := hdetermined.honoured
  rw [alone, hdetermined.context_eq]
  by_cases hnothing : prompt = [] ∨ terms.contextLen < prompt.length
  · have hend : terms.solo limit prompt = [] := by
      rcases hnothing with rfl | hover
      · exact Terms.solo_nil limit
      · exact Terms.solo_of_overlong limit hover
    rw [if_pos hnothing, hend]
    exact Or.inl rfl
  rw [if_neg hnothing]
  rw [not_or, not_lt] at hnothing
  have hcan : model.CanPrefill (release server slot) slot prompt 0 [] :=
    { sound := hhonoured.release_sound hsound hvalid
      valid := hvalid
      held := hhonoured.release_self hsound hvalid
      position_eq := rfl
      nonempty := hnothing.1 }
  refine hdetermined.aloneFrom_eq server hvalid limit hnothing.1 hnothing.2
    (hhonoured.prefill_sound hcan) fun logits hlogits => ⟨?_, ?_⟩
  · exact hhonoured.prefill_self hcan hlogits
  · exact hdetermined.prefill_row hcan hlogits

end LaneModel

end BurnLm.Inference
