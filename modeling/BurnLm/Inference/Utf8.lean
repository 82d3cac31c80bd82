/-
# Incremental text assembly

A byte-level tokenizer splits characters across tokens. The buffer turns such a
byte stream into text: it emits what is complete, replaces what can never become
valid, and holds back a trailing partial character. Validation follows the
standard library's: the front of a byte string is a character, is invalid over
so many bytes, or is a character cut short.
-/

import Mathlib.Data.UInt
import BurnLm.Math.Loop

namespace BurnLm.Inference

open BurnLm.Math

/-- What stands at the front of a byte string. -/
inductive Utf8Front
  | char (width : ℕ)
  | invalid (errorLen : ℕ)
  | incomplete
  deriving DecidableEq, Repr

/-- The width the first byte of a character announces, or 0. -/
def charWidth (first : UInt8) : ℕ :=
  if first < 0x80 then 1
  else if 0xC2 ≤ first ∧ first ≤ 0xDF then 2
  else if 0xE0 ≤ first ∧ first ≤ 0xEF then 3
  else if 0xF0 ≤ first ∧ first ≤ 0xF4 then 4
  else 0

/-- A continuation byte. -/
def isContinuation (byte : UInt8) : Bool := 0x80 ≤ byte && byte ≤ 0xBF

/-- The second bytes a first byte allows: overlong forms, surrogates and values
past the last code point are cut off here. -/
def allowsSecond (first second : UInt8) : Bool :=
  if first = 0xE0 then 0xA0 ≤ second && second ≤ 0xBF
  else if first = 0xED then 0x80 ≤ second && second ≤ 0x9F
  else if first = 0xF0 then 0x90 ≤ second && second ≤ 0xBF
  else if first = 0xF4 then 0x80 ≤ second && second ≤ 0x8F
  else isContinuation second

/-- Check the bytes that follow a first byte, one after the other: `checked` of
them were fine. -/
def followers (width : ℕ) : ℕ → List UInt8 → Utf8Front
  | checked, [] => if checked = width then .char width else .incomplete
  | checked, byte :: rest =>
    if checked = width then .char width
    else if isContinuation byte then followers width (checked + 1) rest
    else .invalid checked

/-- The front of a byte string. -/
def utf8Front : List UInt8 → Utf8Front
  | [] => .incomplete
  | first :: rest =>
    match charWidth first with
    | 0 => .invalid 1
    | 1 => .char 1
    | width + 2 =>
      match rest with
      | [] => .incomplete
      | second :: rest =>
        if allowsSecond first second then followers (width + 2) 2 rest else .invalid 1

/-- The character a valid front spells. -/
def decodeChar : List UInt8 → Char
  | [a] => Char.ofNat a.toNat
  | [a, b] => Char.ofNat ((a.toNat % 32) * 64 + b.toNat % 64)
  | [a, b, c] => Char.ofNat ((a.toNat % 16) * 4096 + (b.toNat % 64) * 64 + c.toNat % 64)
  | [a, b, c, d] =>
    Char.ofNat ((a.toNat % 8) * 262144 + (b.toNat % 64) * 4096 + (c.toNat % 64) * 64 +
      d.toNat % 64)
  | _ => Char.ofNat 0xFFFD

/-- What stands in for bytes that spell nothing. -/
def replacementChar : Char := Char.ofNat 0xFFFD

/-- Why a byte string is not text. -/
structure Utf8Error where
  validUpTo : ℕ
  /-- `none` when more bytes could still complete the character. -/
  errorLen : Option ℕ
  deriving DecidableEq, Repr

/-- The longest valid prefix as text, and the bytes from there on. -/
def validPrefix : ℕ → List UInt8 → List Char × List UInt8
  | 0, bytes => ([], bytes)
  | bound + 1, bytes =>
    match utf8Front bytes with
    | .char width =>
      let (text, rest) := validPrefix bound (bytes.drop width)
      (decodeChar (bytes.take width) :: text, rest)
    | _ => ([], bytes)

/-- Checked conversion to text. -/
def fromUtf8 (bytes : List UInt8) : Except Utf8Error (List Char) :=
  match validPrefix bytes.length bytes with
  | (text, []) => .ok text
  | (_, rest) =>
    .error
      { validUpTo := bytes.length - rest.length
        errorLen := match utf8Front rest with
          | .invalid errorLen => some errorLen
          | _ => none }

/-- A streaming assembler and the bytes it holds back. -/
structure Utf8Buffer where
  pending : List UInt8
  deriving DecidableEq, Repr

namespace Utf8Buffer

/-- An empty buffer. -/
def new : Utf8Buffer := ⟨[]⟩

/-- One pass of `push`'s loop over the pending bytes and the text so far. -/
def pushStep (state : List UInt8 × List Char) : Bool × (List UInt8 × List Char) :=
  let (pending, out) := state
  match fromUtf8 pending with
  | .ok text => (false, ([], out ++ text))
  | .error error =>
    let valid := error.validUpTo
    let out := out ++ (validPrefix valid (pending.take valid)).1
    match error.errorLen with
    | some len => (true, (pending.drop (valid + len), out ++ [replacementChar]))
    | none => (false, (pending.drop valid, out))

/-- Append bytes and return the text that is now complete. -/
def push (buffer : Utf8Buffer) (bytes : List UInt8) : Option (List Char) × Utf8Buffer :=
  let pending := buffer.pending ++ bytes
  let (pending, out) := loop pushStep (pending.length + 1) (pending, [])
  (if out = [] then none else some out, ⟨pending⟩)

/-- One pass of the lossy conversion. -/
def lossyStep (state : List UInt8 × List Char) : Bool × (List UInt8 × List Char) :=
  let (bytes, out) := state
  match fromUtf8 bytes with
  | .ok text => (false, ([], out ++ text))
  | .error error =>
    let valid := error.validUpTo
    let out := out ++ (validPrefix valid (bytes.take valid)).1 ++ [replacementChar]
    match error.errorLen with
    | some len => (true, (bytes.drop (valid + len), out))
    | none => (false, ([], out))

/-- Text of any bytes, with what spells nothing replaced. -/
def fromUtf8Lossy (bytes : List UInt8) : List Char :=
  (loop lossyStep (bytes.length + 1) (bytes, [])).2

/-- End of stream: drain what is held back, lossily. -/
def finish (buffer : Utf8Buffer) : Option (List Char) × Utf8Buffer :=
  if buffer.pending = [] then (none, buffer)
  else (some (fromUtf8Lossy buffer.pending), ⟨[]⟩)

/-- Half a character is held back, and its other half completes it. -/
example : (push new [0xE2]).1 = none ∧
    (push (push new [0xE2]).2 [0x82, 0xAC]).1 = some [Char.ofNat 0x20AC] := by
  decide +kernel

end Utf8Buffer

end BurnLm.Inference
