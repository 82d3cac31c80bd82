/-
# The library's streaming decoder

Some tokenizers cannot decode token by token. The streaming decoder collects
tokens until a window is full, decodes them together with the two before, and
emits what the window adds. It runs on a thread of its own, fed through a
channel; finishing a generation closes the channel and joins the thread.

Nothing empties the window when the channel closes. What is emitted is the text
of the windows that filled; the tokens behind the last of them are lost, unless
they spell nothing.
-/

import BurnLm.Math.Text
import BurnLm.Math.Windows
import BurnLm.Inference.Batching

namespace BurnLm.Llama

open BurnLm.Math BurnLm.Inference

universe u

/-- What streaming needs of a tokenizer. -/
class Tokenizer (T : Type u) where
  decode : T → List Token → Text
  /-- How many tokens incremental decoding needs as context. -/
  streamingContextSize : T → ℕ

/-- A wrapper for tokenizers that must buffer to decode incrementally. -/
structure StreamingDecoder (T : Type u) where
  tokenizer : T
  buffer : List Token
  contextSize : ℕ
  contextOverlap : ℕ
  emittedTokens : ℕ

variable {T : Type u} [Tokenizer T]

namespace StreamingDecoder

def new (tokenizer : T) : StreamingDecoder T where
  tokenizer := tokenizer
  buffer := []
  contextSize := Tokenizer.streamingContextSize tokenizer
  contextOverlap := 2
  emittedTokens := 0

/-- Feed new tokens; what a full window adds to the text is emitted. -/
def pushTokens (decoder : StreamingDecoder T) (newTokens : List Token) :
    Option Text × StreamingDecoder T :=
  if decoder.contextSize = 0 then
    (some (Tokenizer.decode decoder.tokenizer newTokens), decoder)
  else
    let decoder := { decoder with buffer := decoder.buffer ++ newTokens }
    if decoder.buffer.length - decoder.emittedTokens < decoder.contextSize then (none, decoder)
    else
      let overlapStart := decoder.emittedTokens - decoder.contextOverlap
      let decoded := Tokenizer.decode decoder.tokenizer (decoder.buffer.drop overlapStart)
      let overlapDecoded := Tokenizer.decode decoder.tokenizer
        ((decoder.buffer.take decoder.emittedTokens).drop overlapStart)
      match Text.dropBytes decoded (Text.byteLen overlapDecoded) with
      | some newText =>
        if newText ≠ [] then (some newText, { decoder with emittedTokens := decoder.buffer.length })
        else (none, decoder)
      | none => (none, decoder)

end StreamingDecoder

/-- What the decoder thread owns, and the count it shares. -/
structure TokenGeneration (T : Type u) where
  /-- The texts the emitter was handed, in order. -/
  emitter : List Text
  decoder : StreamingDecoder T
  numTokensGenerated : ℕ
  numGenerated : ℕ

namespace TokenGeneration

def new (tokenizer : T) : TokenGeneration T where
  emitter := []
  decoder := .new tokenizer
  numTokensGenerated := 0
  numGenerated := 0

def process (generation : TokenGeneration T) (token : Token) : TokenGeneration T :=
  let numGenerated := generation.numGenerated + 1
  let (text, decoder) := generation.decoder.pushTokens [token]
  { emitter := generation.emitter ++ text.toList
    decoder
    numTokensGenerated := numGenerated
    numGenerated }

end TokenGeneration

/-- The streaming side of a generating sequence: tokens sent and not yet
received, and the thread that receives them. -/
structure GenerationContext (T : Type u) where
  channel : List Token
  generation : TokenGeneration T

namespace GenerationContext

def new (tokenizer : T) : GenerationContext T := ⟨[], .new tokenizer⟩

/-- Send one more token. -/
def update (context : GenerationContext T) (token : Token) : GenerationContext T :=
  { context with channel := context.channel ++ [token] }

/-- The thread receives one token, if one is there. -/
def receive (context : GenerationContext T) : GenerationContext T :=
  match context.channel with
  | [] => context
  | token :: channel => ⟨channel, context.generation.process token⟩

/-- Close the channel and join the thread, which first takes what is left. -/
def finish (context : GenerationContext T) : ℕ × TokenGeneration T :=
  let generation := context.channel.foldl TokenGeneration.process context.generation
  (generation.numTokensGenerated, generation)

/-- One step of a generation: the caller sends, or the thread receives. -/
inductive Step
  | update (token : Token)
  | receive
  deriving DecidableEq

def Step.apply (context : GenerationContext T) : Step → GenerationContext T
  | .update token => context.update token
  | .receive => context.receive

/-- The tokens sent in a run. -/
def sent (steps : List Step) : List Token :=
  steps.filterMap fun
    | .update token => some token
    | .receive => none

/-- A generation, however the thread keeps up with it. -/
def run (tokenizer : T) (steps : List Step) : GenerationContext T :=
  steps.foldl Step.apply (new tokenizer)

/-- Everything a generation emits, from its first token to its end. -/
def streamed (tokenizer : T) (steps : List Step) : Text :=
  (run tokenizer steps).finish.2.emitter.flatten

/-! ## However the thread keeps up -/

/-- What the thread will have done once it has taken all that was sent. -/
def settled (context : GenerationContext T) : TokenGeneration T :=
  context.channel.foldl TokenGeneration.process context.generation

/-- Receiving settles nothing new. -/
@[simp]
theorem settled_receive (context : GenerationContext T) :
    context.receive.settled = context.settled := by
  obtain ⟨channel, generation⟩ := context
  cases channel <;> rfl

@[simp]
theorem settled_update (context : GenerationContext T) (token : Token) :
    (context.update token).settled = context.settled.process token := by
  simp [settled, update]

theorem settled_steps (steps : List Step) (context : GenerationContext T) :
    (steps.foldl Step.apply context).settled =
      (sent steps).foldl TokenGeneration.process context.settled := by
  induction steps generalizing context with
  | nil => rfl
  | cons step steps ih =>
      rw [List.foldl_cons, ih]
      cases step with
      | update token => exact congrArg (List.foldl _ · (sent steps)) (settled_update context token)
      | receive => exact congrArg (List.foldl _ · (sent steps)) (settled_receive context)

/-- A finished generation has processed the tokens sent, in order. -/
theorem finish_run (tokenizer : T) (steps : List Step) :
    (run tokenizer steps).finish.2 = (sent steps).foldl TokenGeneration.process (.new tokenizer) :=
  settled_steps steps (new tokenizer)

end GenerationContext

/-! ## What is emitted -/

section Emitted

variable {tokenizer : T} {piece : Token → Text}

/-- Where a generation stands after `tokens`: windows emitted, a rest withheld. -/
structure Streaming (tokenizer : T) (piece : Token → Text) (tokens : List Token)
    (windows : List (List Token)) (rest : List Token) (generation : TokenGeneration T) : Prop where
  tokenizer_eq : generation.decoder.tokenizer = tokenizer
  contextSize_eq : generation.decoder.contextSize = Tokenizer.streamingContextSize tokenizer
  buffer_eq : generation.decoder.buffer = tokens
  cut : CutInto (Tokenizer.streamingContextSize tokenizer) piece tokens windows rest
  unfilled : Unfilled (Tokenizer.streamingContextSize tokenizer) piece rest
  emittedTokens_eq : generation.decoder.emittedTokens = windows.flatten.length
  emitter_eq : generation.emitter.flatten = windows.flatten.flatMap piece

theorem Streaming.new (tokenizer : T) (piece : Token → Text) :
    Streaming tokenizer piece [] [] [] (.new tokenizer) where
  tokenizer_eq := rfl
  contextSize_eq := rfl
  buffer_eq := rfl
  cut := ⟨rfl, by simp⟩
  unfilled := .of_silent rfl
  emittedTokens_eq := rfl
  emitter_eq := rfl

variable (hdecode : ∀ tokens, Tokenizer.decode tokenizer tokens = tokens.flatMap piece)
include hdecode

/-- A push emits the tokens not yet emitted, if they fill a window and spell
something; otherwise it only collects. -/
theorem StreamingDecoder.pushTokens_cases {decoder : StreamingDecoder T}
    (htokenizer : decoder.tokenizer = tokenizer) (hsize : decoder.contextSize ≠ 0)
    (hemitted : decoder.emittedTokens ≤ decoder.buffer.length) (newTokens : List Token) :
    let buffer := decoder.buffer ++ newTokens
    let fresh := buffer.drop decoder.emittedTokens
    (decoder.contextSize ≤ fresh.length ∧ fresh.flatMap piece ≠ [] ∧
        decoder.pushTokens newTokens = (some (fresh.flatMap piece),
          { decoder with buffer := buffer, emittedTokens := buffer.length })) ∨
      ((decoder.contextSize ≤ fresh.length → fresh.flatMap piece = []) ∧
        decoder.pushTokens newTokens = (none, { decoder with buffer := buffer })) := by
  intro buffer fresh
  have hfresh : fresh.length = buffer.length - decoder.emittedTokens := List.length_drop ..
  -- the overlap is decoded twice and cut away
  have hslice : Text.dropBytes
      (Tokenizer.decode decoder.tokenizer
        (buffer.drop (decoder.emittedTokens - decoder.contextOverlap)))
      (Text.byteLen (Tokenizer.decode decoder.tokenizer
        ((buffer.take decoder.emittedTokens).drop
          (decoder.emittedTokens - decoder.contextOverlap)))) = some (fresh.flatMap piece) := by
    have hlong : decoder.emittedTokens - decoder.contextOverlap ≤
        (buffer.take decoder.emittedTokens).length := by
      rw [List.length_take, List.length_append]
      omega
    have hsplit : buffer.drop (decoder.emittedTokens - decoder.contextOverlap) =
        (buffer.take decoder.emittedTokens).drop
          (decoder.emittedTokens - decoder.contextOverlap) ++ fresh := by
      conv_lhs => rw [← List.take_append_drop decoder.emittedTokens buffer]
      exact List.drop_append_of_le_length hlong
    rw [htokenizer, hdecode, hdecode, hsplit, List.flatMap_append, Text.dropBytes_append]
  simp only [pushTokens, if_neg hsize]
  by_cases hfull : decoder.contextSize ≤ fresh.length
  · have hlength : ¬ (decoder.buffer ++ newTokens).length - decoder.emittedTokens <
        decoder.contextSize := by
      rw [hfresh] at hfull
      exact not_lt.mpr hfull
    rw [if_neg hlength, hslice]
    by_cases hspells : fresh.flatMap piece = []
    · exact Or.inr ⟨fun _ => hspells, by simp [hspells, buffer]⟩
    · exact Or.inl ⟨hfull, hspells, by simp [hspells, buffer]⟩
  · have hlength : (decoder.buffer ++ newTokens).length - decoder.emittedTokens <
        decoder.contextSize := by
      rw [hfresh] at hfull
      exact not_le.mp hfull
    rw [if_pos hlength]
    exact Or.inr ⟨fun h => absurd h hfull, rfl⟩

/-- One token: it fills a window, which is emitted, or is withheld. -/
theorem Streaming.process {tokens : List Token} {windows : List (List Token)} {rest : List Token}
    {generation : TokenGeneration T} (hsize : Tokenizer.streamingContextSize tokenizer ≠ 0)
    (hbefore : Streaming tokenizer piece tokens windows rest generation) (token : Token) :
    Streaming tokenizer piece (tokens ++ [token]) (windows ++ [rest ++ [token]]) []
        (generation.process token) ∨
      Streaming tokenizer piece (tokens ++ [token]) windows (rest ++ [token])
        (generation.process token) := by
  have hitems := hbefore.cut.items_eq
  have hemitted : generation.decoder.emittedTokens ≤ generation.decoder.buffer.length := by
    rw [hbefore.emittedTokens_eq, hbefore.buffer_eq, hitems, List.length_append]
    omega
  have hfresh : (generation.decoder.buffer ++ [token]).drop generation.decoder.emittedTokens =
      rest ++ [token] := by
    rw [hbefore.emittedTokens_eq, hbefore.buffer_eq, hitems, List.append_assoc, List.drop_left]
  have hpush := StreamingDecoder.pushTokens_cases hdecode hbefore.tokenizer_eq
    (hbefore.contextSize_eq ▸ hsize) hemitted [token]
  simp only [hfresh, hbefore.contextSize_eq] at hpush
  rcases hpush with ⟨hfull, hspells, hpush⟩ | ⟨hsilent, hpush⟩
  · refine Or.inl
      { tokenizer_eq := ?_
        contextSize_eq := ?_
        buffer_eq := ?_
        cut := ⟨by simp [hitems], ?_⟩
        unfilled := .of_silent rfl
        emittedTokens_eq := ?_
        emitter_eq := ?_ }
    · simp only [TokenGeneration.process, hpush, hbefore.tokenizer_eq]
    · simp only [TokenGeneration.process, hpush]
    · simp only [TokenGeneration.process, hpush, hbefore.buffer_eq]
    · intro window hwindow
      rcases List.mem_append.mp hwindow with hwindow | hwindow
      · exact hbefore.cut.window window hwindow
      · rw [List.mem_singleton.mp hwindow]
        exact hbefore.unfilled.window hfull hspells
    · simp [TokenGeneration.process, hpush, hbefore.buffer_eq, hitems]
    · simp [TokenGeneration.process, hpush, hbefore.emitter_eq]
  · refine Or.inr
      { tokenizer_eq := ?_
        contextSize_eq := ?_
        buffer_eq := ?_
        cut := ⟨by simp [hitems], hbefore.cut.window⟩
        unfilled := hbefore.unfilled.concat hsilent
        emittedTokens_eq := ?_
        emitter_eq := ?_ }
    · simp only [TokenGeneration.process, hpush, hbefore.tokenizer_eq]
    · simp only [TokenGeneration.process, hpush]
    · simp only [TokenGeneration.process, hpush, hbefore.buffer_eq]
    · simpa only [TokenGeneration.process, hpush] using hbefore.emittedTokens_eq
    · simp [TokenGeneration.process, hpush, hbefore.emitter_eq]

/-- After any tokens, some windows are emitted and a rest is withheld. -/
theorem Streaming.run (hsize : Tokenizer.streamingContextSize tokenizer ≠ 0)
    (tokens : List Token) :
    ∃ windows rest, Streaming tokenizer piece tokens windows rest
      (tokens.foldl TokenGeneration.process (.new tokenizer)) := by
  induction tokens using List.reverseRecOn with
  | nil => exact ⟨[], [], .new tokenizer piece⟩
  | append_singleton tokens token ih =>
      obtain ⟨windows, rest, hbefore⟩ := ih
      rw [List.foldl_append]
      rcases hbefore.process hdecode hsize token with hafter | hafter
      · exact ⟨_, _, hafter⟩
      · exact ⟨_, _, hafter⟩

/-- Without context every token is emitted as it comes. -/
theorem unbuffered_emitter (hsize : Tokenizer.streamingContextSize tokenizer = 0)
    (tokens : List Token) :
    ((tokens.foldl TokenGeneration.process (.new tokenizer)).decoder =
        StreamingDecoder.new tokenizer) ∧
      (tokens.foldl TokenGeneration.process (.new tokenizer)).emitter.flatten =
        tokens.flatMap piece := by
  induction tokens using List.reverseRecOn with
  | nil => exact ⟨rfl, rfl⟩
  | append_singleton tokens token ih =>
      obtain ⟨hdecoder, hemitter⟩ := ih
      have hpush : (StreamingDecoder.new tokenizer).pushTokens [token] =
          (some (piece token), StreamingDecoder.new tokenizer) := by
        simp [StreamingDecoder.pushTokens, StreamingDecoder.new, hsize, hdecode]
      rw [List.foldl_append]
      simp [TokenGeneration.process, hdecoder, hpush, hemitter]

/-- **When streaming loses nothing.** For a tokenizer that decodes token by
token, and however the decoder thread keeps up, the text emitted up to the end of
a generation is the decoding of all its tokens exactly when the tokenizer asks
for no context, or the tokens cut into windows, each the shortest run of at least
the context size that spells something, and a rest that spells nothing. -/
theorem streamed_eq_decode_iff (steps : List GenerationContext.Step) :
    GenerationContext.streamed tokenizer steps =
        Tokenizer.decode tokenizer (GenerationContext.sent steps) ↔
      Tokenizer.streamingContextSize tokenizer = 0 ∨ ∃ windows rest,
        CutInto (Tokenizer.streamingContextSize tokenizer) piece (GenerationContext.sent steps)
          windows rest ∧ rest.flatMap piece = [] := by
  rw [GenerationContext.streamed, GenerationContext.finish_run, hdecode]
  by_cases hsize : Tokenizer.streamingContextSize tokenizer = 0
  · exact iff_of_true (unbuffered_emitter hdecode hsize _).2 (Or.inl hsize)
  · obtain ⟨windows, rest, hafter⟩ := Streaming.run hdecode hsize (GenerationContext.sent steps)
    have hlossless : (GenerationContext.sent steps).flatMap piece =
        windows.flatten.flatMap piece ++ rest.flatMap piece := by
      rw [hafter.cut.items_eq, List.flatMap_append]
    rw [hafter.emitter_eq, hlossless, List.self_eq_append_right]
    constructor
    · exact fun hsilent => Or.inr ⟨windows, rest, hafter.cut, hsilent⟩
    · rintro (hzero | ⟨windows', rest', hcut, hsilent⟩)
      · exact absurd hzero hsize
      · rw [(hafter.cut.unique hafter.unfilled hcut (.of_silent hsilent)).2]
        exact hsilent

/-- Whatever is lost is lost at the end: what is emitted is a prefix of the
text. -/
theorem streamed_isPrefix_decode (steps : List GenerationContext.Step) :
    GenerationContext.streamed tokenizer steps <+:
      Tokenizer.decode tokenizer (GenerationContext.sent steps) := by
  rw [GenerationContext.streamed, GenerationContext.finish_run, hdecode]
  by_cases hsize : Tokenizer.streamingContextSize tokenizer = 0
  · rw [(unbuffered_emitter hdecode hsize _).2]
  · obtain ⟨windows, rest, hafter⟩ := Streaming.run hdecode hsize (GenerationContext.sent steps)
    rw [hafter.emitter_eq, hafter.cut.items_eq, List.flatMap_append]
    exact List.prefix_append _ _

/-- If every token spells something, nothing is lost exactly when the number of
tokens is a multiple of the context size. -/
theorem streamed_eq_decode_iff_dvd
    (hspells : ∀ token, piece token ≠ []) (steps : List GenerationContext.Step) :
    GenerationContext.streamed tokenizer steps =
        Tokenizer.decode tokenizer (GenerationContext.sent steps) ↔
      Tokenizer.streamingContextSize tokenizer = 0 ∨
        Tokenizer.streamingContextSize tokenizer ∣ (GenerationContext.sent steps).length := by
  rw [GenerationContext.streamed, GenerationContext.finish_run, hdecode]
  by_cases hsize : Tokenizer.streamingContextSize tokenizer = 0
  · exact iff_of_true (unbuffered_emitter hdecode hsize _).2 (Or.inl hsize)
  · obtain ⟨windows, rest, hafter⟩ := Streaming.run hdecode hsize (GenerationContext.sent steps)
    obtain ⟨hwindows, hrest⟩ := hafter.cut.lengths hafter.unfilled hspells (Nat.pos_of_ne_zero hsize)
    have hlossless : (GenerationContext.sent steps).flatMap piece =
        windows.flatten.flatMap piece ++ rest.flatMap piece := by
      rw [hafter.cut.items_eq, List.flatMap_append]
    rw [hafter.emitter_eq, hlossless, List.self_eq_append_right, or_iff_right hsize, hwindows,
      Nat.dvd_add_right (Nat.dvd_mul_left _ _)]
    constructor
    · intro hsilent
      cases rest with
      | nil => exact Nat.dvd_zero _
      | cons token rest =>
          exact absurd (List.append_eq_nil_iff.mp (List.flatMap_cons ▸ hsilent)).1 (hspells token)
    · intro hdvd
      rw [List.eq_nil_of_length_eq_zero (Nat.eq_zero_of_dvd_of_lt hdvd hrest)]
      rfl

end Emitted

/-- The context size of the SentencePiece tokenizer over pieces of one letter. -/
structure LetterTokenizer where
  deriving DecidableEq

def letter (token : Token) : Text := [Char.ofNat ('a'.toNat + token.toNat)]

instance : Tokenizer LetterTokenizer where
  decode _ tokens := tokens.flatMap letter
  streamingContextSize _ := 4

/-- Eight tokens fill two windows. -/
theorem streamed_eq_decode_iff_full :
    let steps := [0, 1, 2, 3, 4, 5, 6, 7].map GenerationContext.Step.update
    GenerationContext.streamed LetterTokenizer.mk steps =
        Tokenizer.decode LetterTokenizer.mk (GenerationContext.sent steps) ↔
      Tokenizer.streamingContextSize LetterTokenizer.mk = 0 ∨ ∃ windows rest,
        CutInto (Tokenizer.streamingContextSize LetterTokenizer.mk) letter
          (GenerationContext.sent steps) windows rest ∧ rest.flatMap letter = [] :=
  streamed_eq_decode_iff (fun _ => rfl) _

/-- Of five tokens the last is never emitted, and finishing counts it. -/
theorem fifth_token_lost :
    let steps := [0, 1, 2, 3, 4].map GenerationContext.Step.update
    GenerationContext.streamed LetterTokenizer.mk steps = ['a', 'b', 'c', 'd'] ∧
      Tokenizer.decode LetterTokenizer.mk (GenerationContext.sent steps) =
        ['a', 'b', 'c', 'd', 'e'] ∧
      (GenerationContext.run LetterTokenizer.mk steps).finish.1 = 5 := by
  decide +kernel

end BurnLm.Llama
