/-
# The tokenizer of a Hugging Face repository

A byte-level vocabulary writes each byte as one printable character: the
printable bytes as themselves, the others moved up past U+0100 in ascending
order. A token's bytes come back by inverting that map with arithmetic. A token
with a character outside the alphabet is literal text and stands for its own
UTF-8, and so does plain ASCII, which the alphabet leaves alone.

Generation streams these bytes. A character split across tokens, and tokens
split across rounds, come to the text that was encoded.
-/

import BurnLm.Inference.Batching
import BurnLm.Inference.TextStream

namespace BurnLm.Llama

open BurnLm.Inference

universe u

/-! ## The byte-level alphabet -/

/-- Whether byte-level encoding leaves a byte as its own character. -/
def isPrintableByte (code : ℕ) : Bool :=
  (0x21 ≤ code && code ≤ 0x7E) || (0xA1 ≤ code && code ≤ 0xAC) || (0xAE ≤ code && code ≤ 0xFF)

/-- How many bytes had to be moved, and so how far past U+0100 the alphabet runs. -/
def moved : ℕ := 68

/-- The byte one byte-level character stands for. The moved bytes fall in three
runs: 0x00..=0x20, 0x7F..=0xA0 and 0xAD alone. -/
def byteOf (char : Char) : Option UInt8 :=
  let code := char.toNat
  if isPrintableByte code then some (UInt8.ofNat code)
  else if ¬(0x100 ≤ code ∧ code < 0x100 + moved) then none
  else
    let index := code - 0x100
    some (if index ≤ 32 then UInt8.ofNat index
      else if index ≤ 66 then UInt8.ofNat (0x7F + (index - 33))
      else 0xAD)

/-- The UTF-8 of a text. -/
def asBytes (text : String) : List UInt8 := text.toList.flatMap String.utf8EncodeChar

/-- The loop of `byteLevelToBytes`: the characters left and the bytes so far. -/
def byteLevelLoop (token : String) : List Char → List UInt8 → List UInt8
  | [], bytes => bytes
  | char :: chars, bytes =>
    match byteOf char with
    | some byte => byteLevelLoop token chars (bytes ++ [byte])
    | none => asBytes token

/-- Undo byte-level BPE's byte-to-character mapping. -/
def byteLevelToBytes (token : String) : List UInt8 := byteLevelLoop token token.toList []

/-- The bytes byte-level encoding has to move, in ascending order. -/
def remappedBytes : List UInt8 :=
  ((List.range 256).filter fun byte => !isPrintableByte byte).map UInt8.ofNat

/-- The character a byte is written as: the definition the arithmetic of `byteOf`
inverts. -/
def charOf (byte : UInt8) : Char :=
  match remappedBytes.idxOf? byte with
  | some index => Char.ofNat (0x100 + index)
  | none => Char.ofNat byte.toNat

/-- What holds of every code below 256 holds of every byte. -/
theorem forall_byte {P : UInt8 → Prop} (hall : ∀ code < 256, P (UInt8.ofNat code))
    (byte : UInt8) : P byte := by
  have hbyte := hall byte.toNat byte.toNat_lt
  rwa [UInt8.ofNat_toNat] at hbyte

theorem byteOf_charOf (byte : UInt8) : byteOf (charOf byte) = some byte := by
  apply forall_byte (P := fun byte => byteOf (charOf byte) = some byte)
  decide +kernel

theorem byteOf_eq_none {char : Char} (hchar : 0x100 + moved ≤ char.toNat) : byteOf char = none := by
  have hcode : 0x144 ≤ char.toNat := hchar
  have hprintable : isPrintableByte char.toNat = false := by
    simp only [isPrintableByte, Bool.or_eq_false_iff, Bool.and_eq_false_iff,
      decide_eq_false_iff_not]
    omega
  simp only [byteOf, hprintable, Bool.false_eq_true, if_false]
  rw [if_pos (by omega)]

/-- **The alphabet is a bijection**: a byte is written as the one character that
stands for it. -/
theorem byteOf_eq_some_iff {char : Char} {byte : UInt8} :
    byteOf char = some byte ↔ char = charOf byte := by
  refine ⟨fun hbyte => ?_, fun hchar => by rw [hchar, byteOf_charOf]⟩
  have hall : ∀ code < 0x100 + moved,
      (byteOf (Char.ofNat code)).all fun byte => Char.ofNat code = charOf byte := by
    decide +kernel
  by_cases hlt : char.toNat < 0x100 + moved
  · have hchar := hall char.toNat hlt
    rw [Char.ofNat_toNat, hbyte] at hchar
    simpa using hchar
  · simp [byteOf_eq_none (not_lt.mp hlt)] at hbyte

/-! ## Tokens as bytes -/

/-- A text the alphabet leaves alone, one way or the other. -/
def OwnText (text : String) : Prop :=
  (∃ char ∈ text.toList, byteOf char = none) ∨
    ∀ char ∈ text.toList, 0x21 ≤ char.toNat ∧ char.toNat ≤ 0x7E

/-- The bytes a token is there for: those it is written for, or a literal's own. -/
inductive TokenSpelling : String → List UInt8 → Prop
  | byteLevel (bytes : List UInt8) : TokenSpelling (String.ofList (bytes.map charOf)) bytes
  | literal {text : String} (hown : OwnText text) : TokenSpelling text (asBytes text)

theorem byteLevelLoop_map (token : String) (bytes before : List UInt8) :
    byteLevelLoop token (bytes.map charOf) before = before ++ bytes := by
  induction bytes generalizing before with
  | nil => simp [byteLevelLoop]
  | cons byte bytes ih => simp [byteLevelLoop, byteOf_charOf, ih]

theorem byteLevelLoop_of_none {token : String} {chars : List Char}
    (hchars : ∃ char ∈ chars, byteOf char = none) (before : List UInt8) :
    byteLevelLoop token chars before = asBytes token := by
  induction chars generalizing before with
  | nil => simp at hchars
  | cons char chars ih =>
      cases hbyte : byteOf char with
      | none => simp only [byteLevelLoop, hbyte]
      | some byte =>
          obtain ⟨other, hmem, hnone⟩ := hchars
          rcases List.mem_cons.mp hmem with rfl | hmem
          · simp [hbyte] at hnone
          · simp only [byteLevelLoop, hbyte]
            exact ih ⟨other, hmem, hnone⟩ _

/-- A token is written in the alphabet or has a character outside it. -/
theorem exists_map_charOf_or_none (chars : List Char) :
    (∃ bytes : List UInt8, chars = bytes.map charOf) ∨ ∃ char ∈ chars, byteOf char = none := by
  by_cases houtside : ∃ char ∈ chars, byteOf char = none
  · exact .inr houtside
  · push Not at houtside
    refine .inl ?_
    induction chars with
    | nil => exact ⟨[], rfl⟩
    | cons char chars ih =>
        obtain ⟨byte, hbyte⟩ := Option.ne_none_iff_exists'.mp (houtside char (by simp))
        obtain ⟨bytes, rfl⟩ := ih fun other hother => houtside other (by simp [hother])
        exact ⟨byte :: bytes, by rw [List.map_cons, byteOf_eq_some_iff.mp hbyte]⟩

/-- A byte written as a character of the same UTF-8 is printable ASCII. -/
theorem utf8EncodeChar_charOf (byte : UInt8) :
    String.utf8EncodeChar (charOf byte) = [byte] ↔
      0x21 ≤ (charOf byte).toNat ∧ (charOf byte).toNat ≤ 0x7E := by
  apply forall_byte (P := fun byte => String.utf8EncodeChar (charOf byte) = [byte] ↔
    0x21 ≤ (charOf byte).toNat ∧ (charOf byte).toNat ≤ 0x7E)
  decide +kernel

theorem length_le_flatMap_utf8EncodeChar (chars : List Char) :
    chars.length ≤ (chars.flatMap String.utf8EncodeChar).length := by
  induction chars with
  | nil => simp
  | cons char chars ih =>
      have hpos := List.length_pos_of_ne_nil (@String.utf8EncodeChar_ne_nil char)
      rw [List.flatMap_cons, List.length_append, List.length_cons]
      omega

theorem eq_flatMap_utf8EncodeChar_iff (bytes : List UInt8) :
    bytes = (bytes.map charOf).flatMap String.utf8EncodeChar ↔
      ∀ char ∈ bytes.map charOf, 0x21 ≤ char.toNat ∧ char.toNat ≤ 0x7E := by
  induction bytes with
  | nil => simp
  | cons byte bytes ih =>
      rw [List.map_cons, List.flatMap_cons, List.forall_mem_cons, ← utf8EncodeChar_charOf, ← ih]
      refine ⟨fun heq => ?_, fun ⟨hbyte, hbytes⟩ => by rw [hbyte, ← hbytes]; rfl⟩
      have hrest := length_le_flatMap_utf8EncodeChar (bytes.map charOf)
      have hlength := congrArg List.length heq
      obtain ⟨first, more, hfirst⟩ :=
        List.exists_cons_of_ne_nil (@String.utf8EncodeChar_ne_nil (charOf byte))
      rw [hfirst] at heq hlength ⊢
      simp only [List.length_cons, List.length_append, List.length_map] at hrest hlength
      obtain rfl : more = [] := List.eq_nil_of_length_eq_zero (by omega)
      obtain ⟨rfl, hbytes⟩ := List.cons.inj heq
      exact ⟨rfl, hbytes⟩

/-- **A token comes back as its own text exactly if** it has a character outside
the alphabet or is plain printable ASCII. -/
theorem byteLevelToBytes_eq_asBytes_iff (token : String) :
    byteLevelToBytes token = asBytes token ↔ OwnText token := by
  rcases exists_map_charOf_or_none token.toList with ⟨bytes, hbytes⟩ | houtside
  · have hinside : ¬∃ char ∈ token.toList, byteOf char = none := by
      simp [hbytes, byteOf_charOf]
    rw [OwnText, or_iff_right hinside, byteLevelToBytes, asBytes, hbytes, byteLevelLoop_map,
      List.nil_append, eq_flatMap_utf8EncodeChar_iff]
  · exact ⟨fun _ => .inl houtside, fun _ => byteLevelLoop_of_none houtside _⟩

theorem TokenSpelling.byteLevelToBytes_eq {token : String} {bytes : List UInt8}
    (hspelling : TokenSpelling token bytes) : byteLevelToBytes token = bytes := by
  cases hspelling with
  | byteLevel => rw [byteLevelToBytes, String.toList_ofList, byteLevelLoop_map, List.nil_append]
  | literal hown => exact (byteLevelToBytes_eq_asBytes_iff token).mpr hown

/-- A space is written `Ġ`. An added token that is printable but not ASCII would be
taken for bytes. -/
example : byteLevelToBytes "Ġthe" = asBytes " the" ∧ byteLevelToBytes "é" = [0xE9] := by
  decide +kernel

/-! ## The tokenizer -/

/-- What is used of the third-party tokenizer a file is read into. -/
class BaseTokenizer (B : Type u) where
  /-- Encoding without the post-processor; `none` if it fails. -/
  encode : B → String → Option (List Token)
  tokenToId : B → String → Option Token
  idToToken : B → Token → Option String

/-- The beginning-of-text token, and its older spelling. -/
def bosCandidates : List String := ["<|begin_of_text|>", "<s>"]

/-- End of text, not end of turn. -/
def eosCandidates : List String := ["<|end_of_text|>", "</s>"]

/-- The tokens that end a generation. -/
def stopCandidates : List String := ["<|end_of_text|>", "<|eot_id|>", "<|eom_id|>", "</s>"]

/-- A loaded tokenizer with the special ids found in its file. -/
structure HfTokenizer (B : Type u) where
  bpe : B
  bosTokenId : Token
  eosTokenId : Token
  stopTokenIds : List Token

namespace HfTokenizer

variable {B : Type u} [BaseTokenizer B]

/-- How a list of plain names is printed. -/
def debugNames (names : List String) : String :=
  "[" ++ ", ".intercalate (names.map fun name => "\"" ++ name ++ "\"") ++ "]"

/-- Load a `tokenizer.json`: `file` is what reading the path came to. -/
def new (tokenizerPath : String) (file : Except String B) : Except String (HfTokenizer B) :=
  match file with
  | .error err => .error ("could not read the tokenizer at " ++ tokenizerPath ++ ": " ++ err)
  | .ok bpe =>
    let idOf (names : List String) := names.findSome? (BaseTokenizer.tokenToId bpe)
    match idOf bosCandidates with
    | none =>
      .error (tokenizerPath ++ " has none of the beginning-of-text tokens " ++
        debugNames bosCandidates ++ "; this loader expects a Llama-family tokenizer")
    | some bosTokenId =>
      match idOf eosCandidates with
      | none =>
        .error (tokenizerPath ++ " has none of the end-of-text tokens " ++
          debugNames eosCandidates ++ "; this loader expects a Llama-family tokenizer")
      | some eosTokenId =>
        .ok
          { bpe, bosTokenId, eosTokenId
            stopTokenIds := stopCandidates.filterMap (BaseTokenizer.tokenToId bpe) }

/-- Encode a text between the marks that were asked for. Nothing comes back where
the source panics. -/
def encode (tokenizer : HfTokenizer B) (text : String) (bos eos : Bool) : Option (List Token) :=
  (BaseTokenizer.encode tokenizer.bpe text).map fun ids =>
    (if bos then [tokenizer.bosTokenId] else []) ++ ids ++
      (if eos then [tokenizer.eosTokenId] else [])

/-- The bytes tokens stand for. An id outside the vocabulary contributes nothing. -/
def decodeBytes (tokenizer : HfTokenizer B) (tokens : List Token) : List UInt8 :=
  tokens.flatMap fun token =>
    match BaseTokenizer.idToToken tokenizer.bpe token with
    | some text => byteLevelToBytes text
    | none => []

end HfTokenizer

/-! ## Streaming what was encoded -/

section

variable {B : Type u} [BaseTokenizer B]

/-- The tokens with these ids are there for these bytes, one after the other. -/
inductive StandsFor (bpe : B) : List Token → List UInt8 → Prop
  | nil : StandsFor bpe [] []
  | cons {id : Token} {token : String} {ids : List Token} {bytes more : List UInt8}
      (htoken : BaseTokenizer.idToToken bpe id = some token)
      (hspelling : TokenSpelling token bytes) (hmore : StandsFor bpe ids more) :
      StandsFor bpe (id :: ids) (bytes ++ more)

theorem StandsFor.append {bpe : B} {ids ids' : List Token} {bytes bytes' : List UInt8}
    (hfirst : StandsFor bpe ids bytes) (hsecond : StandsFor bpe ids' bytes') :
    StandsFor bpe (ids ++ ids') (bytes ++ bytes') := by
  induction hfirst with
  | nil => exact hsecond
  | cons htoken hspelling _ ih =>
      rw [List.cons_append, List.append_assoc]
      exact .cons htoken hspelling ih

/-- What a byte-level tokenizer promises: a name's id is that of the token so named,
and the tokens a text is encoded into are there for its bytes. -/
structure ByteLevel (bpe : B) : Prop where
  idToToken_tokenToId {name : String} {id : Token} :
    BaseTokenizer.tokenToId bpe name = some id → BaseTokenizer.idToToken bpe id = some name
  encode_standsFor {text : String} {ids : List Token} :
    BaseTokenizer.encode bpe text = some ids → StandsFor bpe ids (asBytes text)

namespace HfTokenizer

theorem decodeBytes_of_standsFor {tokenizer : HfTokenizer B} {ids : List Token} {bytes : List UInt8}
    (hids : StandsFor tokenizer.bpe ids bytes) : tokenizer.decodeBytes ids = bytes := by
  induction hids with
  | nil => rfl
  | cons htoken hspelling _ ih =>
      simp only [decodeBytes, List.flatMap_cons, htoken, hspelling.byteLevelToBytes_eq] at ih ⊢
      rw [ih]

theorem flatten_decodeBytes (tokenizer : HfTokenizer B) (rounds : List (List Token)) :
    (rounds.map tokenizer.decodeBytes).flatten = tokenizer.decodeBytes rounds.flatten := by
  induction rounds with
  | nil => rfl
  | cons round rounds ih =>
      rw [List.map_cons, List.flatten_cons, ih, List.flatten_cons]
      exact List.flatMap_append.symm

/-- What a loaded tokenizer was found to have. -/
theorem new_spec {bpe : B} {tokenizerPath : String} {tokenizer : HfTokenizer B}
    (hnew : new tokenizerPath (.ok bpe) = .ok tokenizer) :
    tokenizer.bpe = bpe ∧
      (∃ name ∈ bosCandidates, BaseTokenizer.tokenToId bpe name = some tokenizer.bosTokenId) ∧
      ∃ name ∈ eosCandidates, BaseTokenizer.tokenToId bpe name = some tokenizer.eosTokenId := by
  simp only [new] at hnew
  split at hnew
  · cases hnew
  next bosTokenId hbos =>
    split at hnew
    · cases hnew
    next eosTokenId heos =>
      obtain rfl := Except.ok.inj hnew
      exact ⟨rfl, List.exists_of_findSome?_eq_some hbos, List.exists_of_findSome?_eq_some heos⟩

/-- The marks are plain ASCII. -/
theorem ownText_candidates {name : String} (hname : name ∈ bosCandidates ++ eosCandidates) :
    OwnText name := by
  have hall : ∀ name ∈ bosCandidates ++ eosCandidates,
      name.toList.all fun char => 0x21 ≤ char.toNat ∧ char.toNat ≤ 0x7E := by
    decide +kernel
  exact .inr fun char hchar => by simpa using List.all_eq_true.mp (hall name hname) char hchar

/-- Tokens that are there for a text stream as that text, however they are cut. -/
theorem stream_of_standsFor {tokenizer : HfTokenizer B} {rounds : List (List Token)}
    {text : List Char}
    (hrounds : StandsFor tokenizer.bpe rounds.flatten (text.flatMap String.utf8EncodeChar)) :
    Utf8Buffer.new.pushAll (rounds.map tokenizer.decodeBytes) = (text, .new) := by
  have hassembled := @Utf8Buffer.pushAll_assembled (rounds.map tokenizer.decodeBytes) .new rfl
  have hbytes : Utf8Buffer.new.pending ++ (rounds.map tokenizer.decodeBytes).flatten =
      text.flatMap String.utf8EncodeChar := by
    rw [flatten_decodeBytes, decodeBytes_of_standsFor hrounds]
    rfl
  rw [hbytes] at hassembled
  obtain ⟨htext, hheld⟩ := hassembled.unique (.of_text text)
  exact Prod.ext htext (congrArg Utf8Buffer.mk hheld)

/-- **What is encoded streams back.** However the tokens of an encoded text fall
into rounds, and wherever that cuts its characters, pushing each round's bytes
comes to the text between the marks that were asked for, with nothing replaced and
nothing held back. -/
theorem stream_encode {bpe : B} (hbpe : ByteLevel bpe) {tokenizerPath : String}
    {tokenizer : HfTokenizer B} (hnew : new tokenizerPath (.ok bpe) = .ok tokenizer)
    {text : String} {bos eos : Bool} {rounds : List (List Token)}
    (hencode : tokenizer.encode text bos eos = some rounds.flatten) :
    ∃ first ∈ bosCandidates, ∃ last ∈ eosCandidates,
      Utf8Buffer.new.pushAll (rounds.map tokenizer.decodeBytes) =
        ((if bos then first.toList else []) ++ text.toList ++ (if eos then last.toList else []),
          .new) := by
  obtain ⟨hsame, ⟨first, hfirst, hbos⟩, last, hlast, heos⟩ := new_spec hnew
  refine ⟨first, hfirst, last, hlast, stream_of_standsFor ?_⟩
  -- a mark is a token of its own, and there for its own text
  have hmark : ∀ {name id}, name ∈ bosCandidates ++ eosCandidates →
      BaseTokenizer.tokenToId bpe name = some id → ∀ mark : Bool,
      StandsFor bpe (if mark then [id] else [])
        ((if mark then name.toList else []).flatMap String.utf8EncodeChar) := by
    intro name id hname hid mark
    cases mark with
    | false => exact .nil
    | true =>
        have hone := StandsFor.cons (hbpe.idToToken_tokenToId hid)
          (.literal (ownText_candidates hname)) .nil
        rwa [List.append_nil] at hone
  obtain ⟨ids, hids, htokens⟩ := Option.map_eq_some_iff.mp hencode
  rw [hsame] at hids ⊢
  rw [← htokens, List.flatMap_append, List.flatMap_append]
  exact ((hmark (by simp [hfirst]) hbos bos).append (hbpe.encode_standsFor hids)).append
    (hmark (by simp [hlast]) heos eos)

/-- A vocabulary without merges: a token for each byte, and two marks. -/
inductive Mergeless
  | vocabulary

instance : BaseTokenizer Mergeless where
  encode _ text := some ((asBytes text).map UInt8.toUInt32)
  tokenToId _ name :=
    if name = "<|begin_of_text|>" then some 256
    else if name = "<|end_of_text|>" then some 257
    else
      match name.toList with
      | [char] => (byteOf char).map UInt8.toUInt32
      | _ => none
  idToToken _ id :=
    if id = 256 then some "<|begin_of_text|>"
    else if id = 257 then some "<|end_of_text|>"
    else if id < 256 then some (String.ofList [charOf id.toUInt8])
    else none

theorem Mergeless.idToToken_byte (byte : UInt8) :
    BaseTokenizer.idToToken vocabulary byte.toUInt32 = some (String.ofList [charOf byte]) := by
  have hbyte := byte.toNat_lt
  have hmark : ∀ id : Token, 256 ≤ id.toNat → byte.toUInt32 ≠ id := by
    rintro _ hid rfl
    rw [UInt8.toNat_toUInt32] at hid
    omega
  have hlt : byte.toUInt32 < 256 := by
    rw [UInt32.lt_iff_toNat_lt, UInt8.toNat_toUInt32]
    exact hbyte
  simp only [BaseTokenizer.idToToken]
  rw [if_neg (hmark 256 (by decide)), if_neg (hmark 257 (by decide)), if_pos hlt,
    UInt8.toUInt8_toUInt32]

theorem Mergeless.byteLevel : ByteLevel vocabulary where
  idToToken_tokenToId {name id} hid := by
    simp only [BaseTokenizer.tokenToId] at hid
    split_ifs at hid with hbos heos
    · obtain rfl := Option.some.inj hid
      rw [hbos]
      rfl
    · obtain rfl := Option.some.inj hid
      rw [heos]
      rfl
    · split at hid
      · next char hname =>
          obtain ⟨byte, hbyte, rfl⟩ := Option.map_eq_some_iff.mp hid
          rw [idToToken_byte, ← byteOf_eq_some_iff.mp hbyte, ← hname, String.ofList_toList]
      · cases hid
  encode_standsFor {text ids} hids := by
    obtain rfl := Option.some.inj hids
    induction asBytes text with
    | nil => exact .nil
    | cons byte bytes ih => exact .cons (idToToken_byte byte) (.byteLevel [byte]) ih

/-- The two bytes of `é` come in two rounds. -/
theorem stream_encode_split_character :
    ∃ first ∈ bosCandidates, ∃ last ∈ eosCandidates,
      Utf8Buffer.new.pushAll ([[256, 0xC3], [0xA9], [257]].map
          (decodeBytes ⟨Mergeless.vocabulary, 256, 257, [257]⟩)) =
        (first.toList ++ "é".toList ++ last.toList, .new) :=
  @stream_encode _ _ _ Mergeless.byteLevel "tokenizer.json" _ rfl "é" true true
    [[256, 0xC3], [0xA9], [257]] rfl

end HfTokenizer

end

end BurnLm.Llama
