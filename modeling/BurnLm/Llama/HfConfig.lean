/-
# Reading a checkpoint's own configuration

A repository carries its architecture's configuration as JSON, and the loader
builds its module from that alone. The scaling of the rotary frequencies has
been written in several shapes over the years, of which one is implemented. The
others are to be refused by name: a scaling taken for none loads and answers
fluently, and wrongly, beyond the original context.

The numbers of a document and their conversion are left open, and so is how a
value is spelled out in a message.
-/

import BurnLm.Llama.Rotary

namespace BurnLm.Llama

variable {ν φ δ : Type}

/-- A JSON value. -/
inductive Json (ν : Type)
  | null
  | bool (value : Bool)
  | number (value : ν)
  | string (value : String)
  | array (items : List (Json ν))
  | object (entries : List (String × Json ν))

namespace Json

def asObject : Json ν → Option (List (String × Json ν))
  | .object entries => some entries
  | _ => none

def asStr : Json ν → Option String
  | .string value => some value
  | _ => none

/-- A number of the document, as a float. -/
def asF32 (toF32 : ν → φ) : Json ν → Option φ
  | .number value => some (toF32 value)
  | _ => none

/-- The value under a key. Of a key written twice the last value stays. -/
def get (entries : List (String × Json ν)) (key : String) : Option (Json ν) :=
  entries.reverse.lookup key

/-- A JSON number, whichever way it was written. -/
def numberAt (toF32 : ν → φ) (entries : List (String × Json ν)) (key : String) : Option φ :=
  (get entries key).bind (asF32 toF32)

@[simp]
theorem asF32_eq_some_iff {toF32 : ν → φ} {value : Json ν} {factor : φ} :
    value.asF32 toF32 = some factor ↔
      ∃ written, value = .number written ∧ toF32 written = factor := by
  cases value <;> simp [asF32]

@[simp]
theorem asStr_eq_some_iff {value : Json ν} {text : String} :
    value.asStr = some text ↔ value = .string text := by
  cases value <;> simp [asStr]

theorem numberAt_eq_none_iff {toF32 : ν → φ} {entries : List (String × Json ν)} {key : String} :
    numberAt toF32 entries key = none ↔ ∀ written, get entries key ≠ some (.number written) := by
  unfold numberAt
  rcases hvalue : get entries key with _ | value
  · simp
  · cases value <;> simp [asF32]

end Json

/-! ## Configurations -/

/-- Llama 3.1's scaling of the rotary frequencies. -/
structure RopeFrequencyScaling (φ : Type) where
  scaleFactor : φ
  lowFreqFactor : φ
  highFreqFactor : φ
  oldContextLen : φ
  deriving DecidableEq

/-- A scaling with its defaults. -/
def RopeFrequencyScaling.new [NatCast φ] : RopeFrequencyScaling φ :=
  ⟨(8 : ℕ), (1 : ℕ), (4 : ℕ), (8192 : ℕ)⟩

structure RopeConfig (φ : Type) where
  theta : φ
  scaled : Option (RopeFrequencyScaling φ)

/-- The configuration of a whole model: the part that sizes its cache, and the
rest. -/
structure LlamaModelConfig (φ : Type) (δ : Type) extends LlamaConfig where
  hiddenSize : ℕ
  vocabSize : ℕ
  normEps : δ
  rope : RopeConfig φ
  tokenizer : String

/-- The part of a repository's configuration that decides the module's shape. -/
structure HfConfig (ν : Type) (φ : Type) (δ : Type) where
  architectures : List String
  modelType : Option String
  hiddenSize : ℕ
  intermediateSize : ℕ
  numHiddenLayers : ℕ
  numAttentionHeads : ℕ
  /-- Absent for as many as there are attention heads. -/
  numKeyValueHeads : Option ℕ
  vocabSize : ℕ
  rmsNormEps : δ
  ropeTheta : φ
  ropeScaling : Option (Json ν)
  headDim : Option ℕ

/-- Why a configuration is refused, with what was found. -/
inductive HfConfigError (ν : Type)
  | unsupportedArchitecture (architectures : List String) (modelType : Option String)
  | indivisibleHeads (hiddenSize numAttentionHeads : ℕ)
  | headDim (stated derived : ℕ)
  | scalingNotObject (scaling : Json ν)
  | noFactor
  | unknownScaling (other : String)
  /-- No answer: the division by zero heads. -/
  | panicked

/-- How values are spelled out in a message. -/
structure Spelling (ν : Type) where
  display : Json ν → String
  debug : String → String

namespace Spelling

def debugList (spell : Spelling ν) (texts : List String) : String :=
  "[" ++ ", ".intercalate (texts.map spell.debug) ++ "]"

def debugOption (spell : Spelling ν) : Option String → String
  | none => "None"
  | some text => "Some(" ++ spell.debug text ++ ")"

end Spelling

/-- The architectures a module can be built for. -/
def supportedArchitectures : List String := ["LlamaForCausalLM"]

namespace HfConfigError

/-- What was found, as the message spells it. -/
def found (spell : Spelling ν) : HfConfigError ν → String
  | .unsupportedArchitecture architectures _ => spell.debugList architectures
  | .indivisibleHeads hiddenSize _ => toString hiddenSize
  | .headDim stated _ => toString stated
  | .scalingNotObject scaling => spell.display scaling
  | .noFactor => "llama3"
  | .unknownScaling other => spell.debug other
  | .panicked => "divide by zero"

def message (spell : Spelling ν) : HfConfigError ν → String
  | .unsupportedArchitecture architectures modelType =>
    "unsupported architecture " ++ (spell.debugList architectures ++ (" (model_type " ++
      (spell.debugOption modelType ++ ("); this loader builds " ++
        spell.debugList supportedArchitectures))))
  | .indivisibleHeads hiddenSize numAttentionHeads =>
    "hidden_size " ++ (toString hiddenSize ++ (" is not divisible by num_attention_heads " ++
      toString numAttentionHeads))
  | .headDim stated derived =>
    "config states head_dim " ++ (toString stated ++
      (" but hidden_size / num_attention_heads is " ++ (toString derived ++
        "; this loader builds heads of the derived width only")))
  | .scalingNotObject scaling =>
    "rope_scaling is " ++ (spell.display scaling ++
      (", not an object; the bare-factor spelling predates the " ++
        "llama3 scheme and is not supported"))
  | .noFactor => "rope_scaling is llama3 but carries no numeric factor"
  | .unknownScaling other =>
    "rope_scaling type " ++ (spell.debug other ++
      (" is not implemented; only the llama3 scheme is " ++
        "(loading it as unscaled would generate fluent nonsense past the original context)"))
  | .panicked => "attempt to divide by zero"

/-- Every refusal spells out what it found. -/
theorem found_infix_message (spell : Spelling ν) (error : HfConfigError ν) :
    (error.found spell).toList <:+: (error.message spell).toList := by
  have hmiddle (before middle after : String) :
      middle.toList <:+: (before ++ (middle ++ after)).toList := by
    rw [String.toList_append, String.toList_append]
    exact ⟨_, _, by rw [List.append_assoc]⟩
  cases error with
  | panicked =>
      show "divide by zero".toList <:+: "attempt to divide by zero".toList
      decide
  | unsupportedArchitecture architectures modelType => exact hmiddle _ _ _
  | indivisibleHeads hiddenSize numAttentionHeads => exact hmiddle _ _ _
  | headDim stated derived => exact hmiddle _ _ _
  | scalingNotObject scaling => exact hmiddle _ _ _
  | noFactor =>
      show "llama3".toList <:+: "rope_scaling is llama3 but carries no numeric factor".toList
      decide
  | unknownScaling other => exact hmiddle _ _ _

end HfConfigError

/-! ## The loader's own reading -/

namespace HfConfig

/-- How the field is read off the document: absent and null are both nothing. -/
def readScaling : Option (Json ν) → Option (Json ν)
  | some .null => none
  | field => field

def kvHeads (config : HfConfig ν φ δ) : ℕ :=
  config.numKeyValueHeads.getD config.numAttentionHeads

def checkArchitecture (config : HfConfig ν φ δ) : Except (HfConfigError ν) Unit :=
  if config.architectures.any fun arch => supportedArchitectures.contains arch then .ok ()
  else if config.architectures = [] ∧ config.modelType = some "llama" then .ok ()
  else .error (.unsupportedArchitecture config.architectures config.modelType)

def checkHeadDim (config : HfConfig ν φ δ) : Except (HfConfigError ν) Unit :=
  if ¬ config.numAttentionHeads ∣ config.hiddenSize then
    .error (.indivisibleHeads config.hiddenSize config.numAttentionHeads)
  else if config.numAttentionHeads = 0 then .error .panicked
  else
    let derived := config.hiddenSize / config.numAttentionHeads
    match config.headDim with
    | some stated => if stated ≠ derived then .error (.headDim stated derived) else .ok ()
    | none => .ok ()

/-- The scaling the configuration asks for, or nothing for unscaled. -/
def ropeFrequencyScaling [NatCast φ] (toF32 : ν → φ) (ropeScaling : Option (Json ν)) :
    Except (HfConfigError ν) (Option (RopeFrequencyScaling φ)) :=
  match ropeScaling with
  | none => .ok none
  | some .null => .ok none
  | some scaling =>
    match scaling.asObject with
    | none => .error (.scalingNotObject scaling)
    | some object =>
      let kind := ((Json.get object "rope_type").or (Json.get object "type")).bind Json.asStr
      match kind with
      -- An object that states no type, or states it by something else than a
      -- text, is read as one that states there is no scaling.
      | none => .ok none
      | some kind =>
        if kind = "default" then .ok none
        else if kind = "llama3" then
          match Json.numberAt toF32 object "factor" with
          | none => .error .noFactor
          | some factor =>
            let freq : RopeFrequencyScaling φ :=
              { RopeFrequencyScaling.new with scaleFactor := factor }
            let freq := match Json.numberAt toF32 object "low_freq_factor" with
              | some low => { freq with lowFreqFactor := low }
              | none => freq
            let freq := match Json.numberAt toF32 object "high_freq_factor" with
              | some high => { freq with highFreqFactor := high }
              | none => freq
            let freq := match Json.numberAt toF32 object "original_max_position_embeddings" with
              | some old => { freq with oldContextLen := old }
              | none => freq
            .ok (some freq)
        else .error (.unknownScaling kind)

/-- The configuration of the module this checkpoint describes. -/
def toLlamaConfig [NatCast φ] (toF32 : ν → φ) (config : HfConfig ν φ δ) (tokenizerPath : String) :
    Except (HfConfigError ν) (LlamaModelConfig φ δ) := do
  config.checkArchitecture
  config.checkHeadDim
  let scaled ← ropeFrequencyScaling toF32 config.ropeScaling
  return {
    dModel := config.hiddenSize
    numHiddenLayers := config.numHiddenLayers
    numAttentionHeads := config.numAttentionHeads
    numKeyValueHeads := some config.kvHeads
    maxSeqLen := 128
    maxBatchSize := 1
    kvPoolTokens := 0
    hiddenSize := config.intermediateSize
    vocabSize := config.vocabSize
    normEps := config.rmsNormEps
    rope := ⟨config.ropeTheta, scaled⟩
    tokenizer := tokenizerPath }

/-! ## No scaling is dropped silently -/

/-- The type a scaling object states: the current key's, else the older one's. -/
def statedType (entries : List (String × Json ν)) : Option (Json ν) :=
  (Json.get entries "rope_type").or (Json.get entries "type")

/-- Asks for no scaling: absent, null, or an object that says so. -/
def Unscaled (field : Option (Json ν)) : Prop :=
  field = none ∨ field = some .null ∨
    ∃ entries, field = some (.object entries) ∧ statedType entries = some (.string "default")

/-- Asks for the scaling that is implemented. -/
def Scaled (field : Option (Json ν)) : Prop :=
  ∃ entries factor, field = some (.object entries) ∧
    statedType entries = some (.string "llama3") ∧ Json.get entries "factor" = some (.number factor)

/-- An object that states no type, or states it by something else than a text. -/
def Untyped (field : Option (Json ν)) : Prop :=
  ∃ entries, field = some (.object entries) ∧ ∀ kind, statedType entries ≠ some (.string kind)

/-- No scaling is taken for none: neither by the reading of the field nor by the
configuration made from it. -/
structure NeverDropped [NatCast φ] (δ : Type) (toF32 : ν → φ) (field : Option (Json ν)) :
    Prop where
  unscaled : ropeFrequencyScaling toF32 (readScaling field) = .ok none → Unscaled field
  scaled : ∀ freq, ropeFrequencyScaling toF32 (readScaling field) = .ok (some freq) → Scaled field
  refused : ¬ Unscaled field → ¬ Scaled field →
    ∃ error, ropeFrequencyScaling toF32 (readScaling field) = .error error
  loaded : ∀ (config : HfConfig ν φ δ) tokenizerPath llama,
    config.ropeScaling = readScaling field →
      config.toLlamaConfig toF32 tokenizerPath = .ok llama → llama.rope.scaled = none →
        Unscaled field

theorem Untyped.not_unscaled {field : Option (Json ν)} (huntyped : Untyped field) :
    ¬ Unscaled field := by
  obtain ⟨entries, rfl, hkind⟩ := huntyped
  rintro (hnone | hnull | ⟨_, hsame, hdefault⟩)
  · simp at hnone
  · simp at hnull
  · cases hsame
    exact hkind _ hdefault

/-- An object without a type is read as asking for nothing. -/
theorem Untyped.read [NatCast φ] (toF32 : ν → φ) {field : Option (Json ν)}
    (huntyped : Untyped field) : ropeFrequencyScaling toF32 (readScaling field) = .ok none := by
  obtain ⟨entries, rfl, hkind⟩ := huntyped
  have hread : ((Json.get entries "rope_type").or (Json.get entries "type")).bind Json.asStr =
      none := by
    rw [Option.eq_none_iff_forall_ne_some]
    intro kind hstated
    obtain ⟨value, hvalue, hstr⟩ := Option.bind_eq_some_iff.mp hstated
    exact hkind kind (by rw [statedType, hvalue, Json.asStr_eq_some_iff.mp hstr])
  simp only [readScaling, ropeFrequencyScaling, Json.asObject, hread]

/-- What the reading makes of an object that states a type. -/
theorem ropeFrequencyScaling_of_stated [NatCast φ] (toF32 : ν → φ)
    {entries : List (String × Json ν)} {kind : String}
    (hkind : statedType entries = some (.string kind)) :
    (kind = "default" ∧
        ropeFrequencyScaling toF32 (some (.object entries)) = .ok none) ∨
      (kind = "llama3" ∧ (∃ factor, Json.get entries "factor" = some (.number factor)) ∧
        ∃ freq, ropeFrequencyScaling toF32 (some (.object entries)) = .ok (some freq)) ∨
      (kind ≠ "default" ∧
        (kind = "llama3" → ∀ factor, Json.get entries "factor" ≠ some (.number factor)) ∧
        ∃ error, ropeFrequencyScaling toF32 (some (.object entries)) = .error error) := by
  have hread : ((Json.get entries "rope_type").or (Json.get entries "type")).bind Json.asStr =
      some kind := by
    rw [← statedType, hkind]
    rfl
  simp only [ropeFrequencyScaling, Json.asObject, hread]
  by_cases hdefault : kind = "default"
  · exact Or.inl ⟨hdefault, by rw [if_pos hdefault]⟩
  rw [if_neg hdefault]
  by_cases hllama : kind = "llama3"
  · rw [if_pos hllama]
    rcases hfactor : Json.numberAt toF32 entries "factor" with _ | factor
    · exact Or.inr (Or.inr ⟨hdefault, fun _ => Json.numberAt_eq_none_iff.mp hfactor, _, rfl⟩)
    · obtain ⟨value, hvalue, hnumber⟩ := Option.bind_eq_some_iff.mp hfactor
      obtain ⟨written, rfl, -⟩ := Json.asF32_eq_some_iff.mp hnumber
      exact Or.inr (Or.inl ⟨hllama, ⟨written, hvalue⟩, _, rfl⟩)
  · rw [if_neg hllama]
    exact Or.inr (Or.inr ⟨hdefault, fun hkind => absurd hkind hllama, _, rfl⟩)

/-- The three ways a reading ends, and on which fields. -/
theorem ropeFrequencyScaling_cases [NatCast φ] (toF32 : ν → φ) (field : Option (Json ν)) :
    ((Unscaled field ∨ Untyped field) ∧
        ropeFrequencyScaling toF32 (readScaling field) = .ok none) ∨
      (Scaled field ∧
        ∃ freq, ropeFrequencyScaling toF32 (readScaling field) = .ok (some freq)) ∨
      (¬ Unscaled field ∧ ¬ Scaled field ∧
        ∃ error, ropeFrequencyScaling toF32 (readScaling field) = .error error) := by
  have hscalar (value : Json ν) (hnull : value ≠ .null)
      (hobject : ∀ entries, value ≠ .object entries) :
      ¬ Unscaled (some value) ∧ ¬ Scaled (some value) := by
    constructor
    · rintro (hnone | hsame | ⟨entries, hsame, -⟩)
      · simp at hnone
      · exact hnull (Option.some.inj hsame)
      · exact hobject entries (Option.some.inj hsame)
    · rintro ⟨entries, _, hsame, -⟩
      exact hobject entries (Option.some.inj hsame)
  rcases field with _ | value
  · exact Or.inl ⟨Or.inl (Or.inl rfl), rfl⟩
  cases value with
  | null => exact Or.inl ⟨Or.inl (Or.inr (Or.inl rfl)), rfl⟩
  | bool value =>
      obtain ⟨hunscaled, hscaled⟩ := hscalar (.bool value) nofun nofun
      exact Or.inr (Or.inr ⟨hunscaled, hscaled, _, rfl⟩)
  | number value =>
      obtain ⟨hunscaled, hscaled⟩ := hscalar (.number value) nofun nofun
      exact Or.inr (Or.inr ⟨hunscaled, hscaled, _, rfl⟩)
  | string value =>
      obtain ⟨hunscaled, hscaled⟩ := hscalar (.string value) nofun nofun
      exact Or.inr (Or.inr ⟨hunscaled, hscaled, _, rfl⟩)
  | array items =>
      obtain ⟨hunscaled, hscaled⟩ := hscalar (.array items) nofun nofun
      exact Or.inr (Or.inr ⟨hunscaled, hscaled, _, rfl⟩)
  | object entries =>
      by_cases huntyped : Untyped (some (.object entries))
      · exact Or.inl ⟨Or.inr huntyped, huntyped.read toF32⟩
      · obtain ⟨kind, hkind⟩ : ∃ kind, statedType entries = some (.string kind) := by
          by_contra hnone
          exact huntyped ⟨entries, rfl, fun kind hkind => hnone ⟨kind, hkind⟩⟩
        rcases ropeFrequencyScaling_of_stated toF32 hkind with
          ⟨rfl, hread⟩ | ⟨rfl, ⟨factor, hfactor⟩, hread⟩ | ⟨hdefault, hfactor, hread⟩
        · exact Or.inl ⟨Or.inl (Or.inr (Or.inr ⟨entries, rfl, hkind⟩)), hread⟩
        · exact Or.inr (Or.inl ⟨⟨entries, factor, rfl, hkind, hfactor⟩, hread⟩)
        · refine Or.inr (Or.inr ⟨?_, ?_, hread⟩)
          · rintro (hnone | hsame | ⟨_, hsame, hstated⟩)
            · simp at hnone
            · simp at hsame
            · cases hsame
              rw [hkind] at hstated
              simp only [Option.some.injEq, Json.string.injEq] at hstated
              exact hdefault hstated
          · rintro ⟨_, factor, hsame, hstated, hnumber⟩
            cases hsame
            rw [hkind] at hstated
            simp only [Option.some.injEq, Json.string.injEq] at hstated
            exact hfactor hstated factor hnumber

/-- A configuration is made only with the scaling its field was read as. -/
theorem scaled_of_toLlamaConfig [NatCast φ] {toF32 : ν → φ} {config : HfConfig ν φ δ}
    {tokenizerPath : String} {llama : LlamaModelConfig φ δ}
    (hloaded : config.toLlamaConfig toF32 tokenizerPath = .ok llama) :
    ropeFrequencyScaling toF32 config.ropeScaling = .ok llama.rope.scaled := by
  simp only [toLlamaConfig, bind, pure, Except.pure] at hloaded
  rcases harchitecture : config.checkArchitecture with error | _
  · rw [harchitecture] at hloaded
    nomatch hloaded
  rcases hheads : config.checkHeadDim with error | _
  · rw [harchitecture, hheads] at hloaded
    nomatch hloaded
  rcases hscaled : ropeFrequencyScaling toF32 config.ropeScaling with error | scaled
  · rw [harchitecture, hheads, hscaled] at hloaded
    nomatch hloaded
  · rw [harchitecture, hheads, hscaled] at hloaded
    cases hloaded
    rfl

/-- **A scaling is dropped exactly from the objects that state no type, or state
it by something else than a text.** On every other field the reading yields
nothing only where nothing was asked for, and a scaling only where the
implemented one was; what is left is refused, and no configuration is made of
it. -/
theorem neverDropped_iff [NatCast φ] (toF32 : ν → φ) (field : Option (Json ν)) :
    NeverDropped δ toF32 field ↔ ¬ Untyped field := by
  constructor
  · intro hnever huntyped
    exact huntyped.not_unscaled (hnever.unscaled (huntyped.read toF32))
  · intro htyped
    have hunscaled (hread : ropeFrequencyScaling toF32 (readScaling field) = .ok none) :
        Unscaled field := by
      rcases ropeFrequencyScaling_cases toF32 field with
        ⟨hfield, -⟩ | ⟨-, freq, hother⟩ | ⟨-, -, error, hother⟩
      · exact hfield.resolve_right htyped
      · simp [hread] at hother
      · simp [hread] at hother
    refine ⟨hunscaled, ?_, ?_, ?_⟩
    · intro freq hread
      rcases ropeFrequencyScaling_cases toF32 field with
        ⟨-, hother⟩ | ⟨hfield, -⟩ | ⟨-, -, error, hother⟩
      · simp [hread] at hother
      · exact hfield
      · simp [hread] at hother
    · intro hnotUnscaled hnotScaled
      rcases ropeFrequencyScaling_cases toF32 field with
        ⟨hfield, -⟩ | ⟨hfield, -⟩ | ⟨-, -, herror⟩
      · exact absurd (hfield.resolve_right htyped) hnotUnscaled
      · exact absurd hfield hnotScaled
      · exact herror
    · intro config tokenizerPath llama hfield hloaded hnone
      have hread := scaled_of_toLlamaConfig hloaded
      rw [hfield, hnone] at hread
      exact hunscaled hread

/-- A Llama checkpoint whose scaling is a factor without a type. -/
def untypedCheckpoint : HfConfig ℕ ℕ Unit where
  architectures := ["LlamaForCausalLM"]
  modelType := some "llama"
  hiddenSize := 64
  intermediateSize := 128
  numHiddenLayers := 2
  numAttentionHeads := 4
  numKeyValueHeads := none
  vocabSize := 32
  rmsNormEps := ()
  ropeTheta := 10000
  ropeScaling := some (.object [("factor", .number 8)])
  headDim := none

/-- The factor is dropped, and the checkpoint is configured unscaled. -/
theorem neverDropped_untypedCheckpoint :
    ropeFrequencyScaling id (readScaling untypedCheckpoint.ropeScaling) = .ok none ∧
      (untypedCheckpoint.toLlamaConfig id "tokenizer.json").toOption.map
        (fun llama => llama.rope.scaled) = some none ∧
      ¬ NeverDropped Unit (id : ℕ → ℕ) untypedCheckpoint.ropeScaling := by
  have huntyped : Untyped untypedCheckpoint.ropeScaling :=
    ⟨_, rfl, fun kind hkind => by simp [statedType, Json.get, List.lookup_cons] at hkind⟩
  exact ⟨rfl, rfl, fun hnever => huntyped.not_unscaled (hnever.unscaled (huntyped.read id))⟩

end HfConfig

end BurnLm.Llama
