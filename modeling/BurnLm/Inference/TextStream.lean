/-
# Text from a stream of bytes

Splitting a byte string into text, replacements and a held-back rest is one walk
along its fronts, and the walk does not care where the string was cut: walking a
first part and then what it held back together with a second part is walking
both. That is why a stream assembled chunk by chunk comes to the text of the
whole.
-/

import BurnLm.Inference.Utf8Fronts

namespace BurnLm.Inference

open BurnLm.Math

/-- The text and the held-back rest of a byte string. -/
inductive Assembled : List UInt8 → List Char → List UInt8 → Prop
  | held {bytes : List UInt8} (hcut : utf8Front bytes = .incomplete) : Assembled bytes [] bytes
  | char {bytes held : List UInt8} {text : List Char} {width : ℕ}
      (hchar : utf8Front bytes = .char width) (hrest : Assembled (bytes.drop width) text held) :
      Assembled bytes (decodeChar (bytes.take width) :: text) held
  | replaced {bytes held : List UInt8} {text : List Char} {errorLen : ℕ}
      (hinvalid : utf8Front bytes = .invalid errorLen)
      (hrest : Assembled (bytes.drop errorLen) text held) :
      Assembled bytes (replacementChar :: text) held

namespace Assembled

theorem unique {bytes held held' : List UInt8} {text text' : List Char}
    (hfirst : Assembled bytes text held) (hsecond : Assembled bytes text' held') :
    text = text' ∧ held = held' := by
  induction hfirst generalizing text' with
  | held hcut =>
      cases hsecond with
      | held => exact ⟨rfl, rfl⟩
      | char hchar => simp [hcut] at hchar
      | replaced hinvalid => simp [hcut] at hinvalid
  | char hchar _ ih =>
      cases hsecond with
      | held hcut => simp [hchar] at hcut
      | char hchar' hrest' =>
          obtain rfl := Utf8Front.char.inj (hchar.symm.trans hchar')
          obtain ⟨rfl, rfl⟩ := ih hrest'
          exact ⟨rfl, rfl⟩
      | replaced hinvalid => simp [hchar] at hinvalid
  | replaced hinvalid _ ih =>
      cases hsecond with
      | held hcut => simp [hinvalid] at hcut
      | char hchar => simp [hinvalid] at hchar
      | replaced hinvalid' hrest' =>
          obtain rfl := Utf8Front.invalid.inj (hinvalid.symm.trans hinvalid')
          obtain ⟨rfl, rfl⟩ := ih hrest'
          exact ⟨rfl, rfl⟩

/-- What is held back is a character cut short. -/
theorem cut {bytes held : List UInt8} {text : List Char} (hbytes : Assembled bytes text held) :
    utf8Front held = .incomplete := by
  induction hbytes with
  | held hcut => exact hcut
  | char _ _ ih => exact ih
  | replaced _ _ ih => exact ih

/-- **Where a stream is cut does not matter.** -/
theorem append {first second held held' : List UInt8} {text text' : List Char}
    (hfirst : Assembled first text held) (hsecond : Assembled (held ++ second) text' held') :
    Assembled (first ++ second) (text ++ text') held' := by
  induction hfirst with
  | held => exact hsecond
  | @char bytes _ text width hchar _ ih =>
      obtain ⟨_, hle, _⟩ := isEncoded_take hchar
      have hmore : utf8Front (bytes ++ second) = .char width := by
        rw [utf8Front_append second (by simp [hchar]), hchar]
      have hwhole := Assembled.char hmore (by rw [List.drop_append_of_le_length hle]; exact ih hsecond)
      rwa [List.take_append_of_le_length hle] at hwhole
  | @replaced bytes _ text errorLen hinvalid _ ih =>
      have hle := (errorLen_le hinvalid).2
      have hmore : utf8Front (bytes ++ second) = .invalid errorLen := by
        rw [utf8Front_append second (by simp [hinvalid]), hinvalid]
      exact Assembled.replaced hmore
        (by rw [List.drop_append_of_le_length hle]; exact ih hsecond)

/-- **Text comes back from its encoding**, whole. -/
theorem of_text (text : List Char) : Assembled (text.flatMap String.utf8EncodeChar) text [] := by
  induction text with
  | nil => exact .held rfl
  | cons char text ih =>
      have hencoded := (encoding_utf8EncodeChar char).isEncoded
      have hfront : utf8Front (String.utf8EncodeChar char ++ text.flatMap String.utf8EncodeChar) =
          .char (String.utf8EncodeChar char).length := by
        rw [utf8Front_append _ (by rw [hencoded]; simp), hencoded]
      have hrest := Assembled.char hfront (by rw [List.drop_left]; exact ih)
      rwa [List.take_left, decodeChar_utf8EncodeChar] at hrest

end Assembled

/-! ## The longest valid prefix -/

/-- The longest valid prefix is text, also by itself, and what follows it is no
character. -/
theorem validPrefix_spec {bound : ℕ} {bytes : List UInt8} (hbound : bytes.length ≤ bound) :
    ∃ valid text rest, validPrefix bound bytes = (text, rest) ∧ bytes = valid ++ rest ∧
      (∀ width, utf8Front rest ≠ .char width) ∧
      (∀ bound', valid.length ≤ bound' → validPrefix bound' valid = (text, [])) ∧
      ∀ more held, Assembled rest more held → Assembled bytes (text ++ more) held := by
  have hnil : ∀ bound', validPrefix bound' [] = ([], []) := by
    intro bound'
    cases bound' <;> rfl
  induction bound generalizing bytes with
  | zero =>
      obtain rfl := List.eq_nil_of_length_eq_zero (Nat.le_zero.mp hbound)
      exact ⟨[], [], [], rfl, rfl, by simp [utf8Front], fun _ _ => hnil _, fun _ _ h => h⟩
  | succ bound ih =>
      cases hfront : utf8Front bytes with
      | char width =>
          obtain ⟨hpos, hle, hencoded⟩ := isEncoded_take hfront
          obtain ⟨valid, text, rest, hprefix, hbytes, hrest, hvalid, hassembled⟩ :=
            @ih (bytes.drop width) (by rw [List.length_drop]; omega)
          have hlength : (bytes.take width).length = width := List.length_take_of_le hle
          refine ⟨bytes.take width ++ valid, decodeChar (bytes.take width) :: text, rest, ?_, ?_,
            hrest, fun bound' hbound' => ?_, fun more held h => .char hfront (hassembled more held h)⟩
          · simp only [validPrefix, hfront, hprefix]
          · rw [List.append_assoc, ← hbytes, List.take_append_drop]
          · rw [List.length_append, hlength] at hbound'
            obtain ⟨bound', rfl⟩ := Nat.exists_eq_add_one_of_ne_zero (show bound' ≠ 0 by omega)
            have hagain : utf8Front (bytes.take width ++ valid) = .char width := by
              rw [utf8Front_append valid (by rw [hencoded]; simp), hencoded, hlength]
            simp only [validPrefix, hagain, List.take_left' hlength, List.drop_left' hlength,
              hvalid bound' (by omega)]
      | _ =>
          refine ⟨[], [], bytes, by simp only [validPrefix, hfront], rfl, by simp [hfront],
            fun _ _ => hnil _, fun _ _ h => h⟩

/-- The checked conversion: all of it is text, or the text ends where a character
is cut short or where bytes spell nothing. -/
theorem fromUtf8_cases (bytes : List UInt8) :
    ∃ valid text rest, bytes = valid ++ rest ∧
      validPrefix valid.length valid = (text, []) ∧
      (∀ more held, Assembled rest more held → Assembled bytes (text ++ more) held) ∧
      ((rest = [] ∧ fromUtf8 bytes = .ok text) ∨
        (rest ≠ [] ∧ utf8Front rest = .incomplete ∧
          fromUtf8 bytes = .error ⟨valid.length, none⟩) ∨
        ∃ errorLen, utf8Front rest = .invalid errorLen ∧
          fromUtf8 bytes = .error ⟨valid.length, some errorLen⟩) := by
  obtain ⟨valid, text, rest, hprefix, hbytes, hrest, hvalid, hassembled⟩ :=
    @validPrefix_spec _ bytes le_rfl
  refine ⟨valid, text, rest, hbytes, hvalid _ le_rfl, hassembled, ?_⟩
  rcases rest with _ | ⟨byte, rest⟩
  · exact Or.inl ⟨rfl, by simp only [fromUtf8, hprefix]⟩
  have hcount : bytes.length - (byte :: rest).length = valid.length := by
    rw [hbytes, List.length_append, Nat.add_sub_cancel_right]
  refine Or.inr ?_
  cases hfront : utf8Front (byte :: rest) with
  | char width => exact absurd hfront (hrest width)
  | invalid errorLen =>
      exact Or.inr ⟨errorLen, rfl, by simp only [fromUtf8, hprefix, hcount, hfront]⟩
  | incomplete =>
      exact Or.inl ⟨by simp, rfl, by simp only [fromUtf8, hprefix, hcount, hfront]⟩

/-- One pass over pending bytes, of `push` and of the lossy conversion: they part
only where a character is cut short. -/
theorem pass_cases (pending : List UInt8) (out : List Char) :
    ∃ text rest, rest.length ≤ pending.length ∧
      (∀ more held, Assembled rest more held → Assembled pending (text ++ more) held) ∧
      ((utf8Front rest = .incomplete ∧
          Utf8Buffer.pushStep (pending, out) = (false, (rest, out ++ text)) ∧
          Utf8Buffer.lossyStep (pending, out) =
            (false, ([], out ++ text ++ if rest = [] then [] else [replacementChar]))) ∨
        ∃ errorLen, utf8Front rest = .invalid errorLen ∧
          Utf8Buffer.pushStep (pending, out) =
            (true, (rest.drop errorLen, out ++ text ++ [replacementChar])) ∧
          Utf8Buffer.lossyStep (pending, out) =
            (true, (rest.drop errorLen, out ++ text ++ [replacementChar]))) := by
  obtain ⟨valid, text, rest, rfl, hvalid, hassembled, hcase⟩ := fromUtf8_cases pending
  refine ⟨text, rest, by simp, hassembled, ?_⟩
  rcases hcase with ⟨rfl, hok⟩ | ⟨hne, hcut, herror⟩ | ⟨errorLen, hinvalid, herror⟩
  · refine Or.inl ⟨rfl, ?_, ?_⟩
    · simp only [Utf8Buffer.pushStep, hok]
    · simp only [Utf8Buffer.lossyStep, hok]
      simp
  · refine Or.inl ⟨hcut, ?_, ?_⟩
    · simp only [Utf8Buffer.pushStep, herror, List.take_left, List.drop_left, hvalid]
    · simp only [Utf8Buffer.lossyStep, herror, List.take_left, hvalid, if_neg hne]
  · refine Or.inr ⟨errorLen, hinvalid, ?_, ?_⟩
    · simp only [Utf8Buffer.pushStep, herror, List.take_left, hvalid, List.drop_length_add_append]
    · simp only [Utf8Buffer.lossyStep, herror, List.take_left, hvalid,
        List.drop_length_add_append]

/-! ## Streams -/

/-- Pending bytes and the text so far, on the way through `bytes`. -/
def Underway (bytes : List UInt8) (state : List UInt8 × List Char) : Prop :=
  ∀ text held, Assembled state.1 text held → Assembled bytes (state.2 ++ text) held

theorem Underway.again {bytes : List UInt8} {state next : List UInt8 × List Char}
    (hstate : Underway bytes state)
    (hagain : Utf8Buffer.pushStep state = (true, next) ∨
      Utf8Buffer.lossyStep state = (true, next)) :
    Underway bytes next ∧ next.1.length < state.1.length := by
  obtain ⟨pending, out⟩ := state
  obtain ⟨text, rest, hle, hassembled, ⟨_, hpush, hlossy⟩ | ⟨errorLen, hinvalid, hpush, hlossy⟩⟩ :=
    pass_cases pending out
  · rw [hpush, hlossy] at hagain
    simp at hagain
  · rw [hpush, hlossy, or_self, Prod.mk.injEq] at hagain
    obtain rfl := hagain.2
    have herror := errorLen_le hinvalid
    refine ⟨fun more held hmore => ?_, by rw [List.length_drop]; dsimp only; omega⟩
    have hwhole := hstate _ _ (hassembled _ _ (.replaced hinvalid hmore))
    simpa using hwhole

namespace Utf8Buffer

/-- **`push` is left by its loop**, with the text and the rest of what is pending. -/
theorem push_leaves (buffer : Utf8Buffer) (bytes : List UInt8) :
    ∃ last text held,
      Relation.ReflTransGen (Again pushStep) (buffer.pending ++ bytes, []) last ∧
      pushStep last = (false, (held, text)) ∧
      buffer.push bytes = (if text = [] then none else some text, ⟨held⟩) ∧
      Assembled (buffer.pending ++ bytes) text held := by
  obtain ⟨⟨pending, out⟩, hpasses, hlast, hleaves⟩ := @loop_leaves _ pushStep
    (Underway (buffer.pending ++ bytes)) (fun state => state.1.length)
    (fun state next hstate hnext => hstate.again (Or.inl hnext))
    ((buffer.pending ++ bytes).length + 1) (buffer.pending ++ bytes, [])
    (fun _ _ h => h) (Nat.lt_succ_self _)
  obtain ⟨text, rest, _, hassembled, ⟨hcut, hpush, _⟩ | ⟨_, _, hpush, _⟩⟩ := pass_cases pending out
  · refine ⟨_, out ++ text, rest, hpasses, hpush, ?_, ?_⟩
    · have hloop := (Prod.mk.inj (hleaves.symm.trans hpush)).2
      simp only [push, hloop]
    · simpa using hlast _ _ (hassembled _ _ (.held hcut))
  · simp [hpush] at hleaves

/-- The lossy conversion replaces what is held back in the end. -/
theorem fromUtf8Lossy_eq {bytes held : List UInt8} {text : List Char}
    (hbytes : Assembled bytes text held) :
    fromUtf8Lossy bytes = text ++ if held = [] then [] else [replacementChar] := by
  obtain ⟨⟨pending, out⟩, _, hlast, hleaves⟩ := @loop_leaves _ lossyStep (Underway bytes)
    (fun state => state.1.length) (fun state next hstate hnext => hstate.again (Or.inr hnext))
    (bytes.length + 1) (bytes, []) (fun _ _ h => h) (Nat.lt_succ_self _)
  obtain ⟨more, rest, _, hassembled, ⟨hcut, _, hlossy⟩ | ⟨_, _, _, hlossy⟩⟩ := pass_cases pending out
  · have hwhole := hlast _ _ (hassembled _ _ (.held hcut))
    obtain ⟨rfl, rfl⟩ := hbytes.unique hwhole
    have hloop := (Prod.mk.inj (hleaves.symm.trans hlossy)).2
    simp only [fromUtf8Lossy, hloop, List.append_nil]
  · simp [hlossy] at hleaves

/-- Push chunks in order, and put what comes out together. -/
def pushAll (buffer : Utf8Buffer) : List (List UInt8) → List Char × Utf8Buffer
  | [] => ([], buffer)
  | chunk :: chunks =>
    let (text, buffer) := buffer.push chunk
    let (more, buffer) := buffer.pushAll chunks
    (text.getD [] ++ more, buffer)

/-- Pushing chunks assembles what they come to. -/
theorem pushAll_assembled (chunks : List (List UInt8)) {buffer : Utf8Buffer}
    (hbuffer : utf8Front buffer.pending = .incomplete) :
    Assembled (buffer.pending ++ chunks.flatten) (buffer.pushAll chunks).1
      (buffer.pushAll chunks).2.pending := by
  induction chunks generalizing buffer with
  | nil => simpa [pushAll] using Assembled.held hbuffer
  | cons chunk chunks ih =>
      obtain ⟨_, text, held, _, _, hpush, hassembled⟩ := push_leaves buffer chunk
      have htext : (if text = [] then none else some text).getD [] = text := by
        split <;> simp_all
      simp only [pushAll, hpush, htext, List.flatten_cons, ← List.append_assoc]
      exact hassembled.append (ih hassembled.cut)

/-- What is left in the end comes out lossily. -/
theorem finish_text {buffer : Utf8Buffer} (hbuffer : utf8Front buffer.pending = .incomplete) :
    (buffer.finish).1.getD [] = if buffer.pending = [] then [] else [replacementChar] := by
  unfold finish
  split
  · rfl
  · next hpending =>
      rw [Option.getD_some, fromUtf8Lossy_eq (.held hbuffer), if_neg hpending, List.nil_append]

/-- **Text does not depend on the chunks.** Whatever a byte string is split into,
what the pushes and the final flush return is its lossy conversion; what is held
back in between is a proper prefix of some character's encoding, three bytes at
most; and no push goes round forever, from any buffer. -/
theorem chunking (chunks : List (List UInt8)) :
    (new.pushAll chunks).1 ++ (new.pushAll chunks).2.finish.1.getD [] =
        fromUtf8Lossy chunks.flatten ∧
      ((new.pushAll chunks).2.pending.length ≤ 3 ∧ ∃ character,
        (new.pushAll chunks).2.pending <+: String.utf8EncodeChar character ∧
          (new.pushAll chunks).2.pending ≠ String.utf8EncodeChar character) ∧
      ∀ (buffer : Utf8Buffer) (bytes : List UInt8), ∃ last text held,
        Relation.ReflTransGen (Again pushStep) (buffer.pending ++ bytes, []) last ∧
          pushStep last = (false, (held, text)) ∧
          buffer.push bytes = (if text = [] then none else some text, ⟨held⟩) := by
  have hassembled := @pushAll_assembled chunks new rfl
  refine ⟨?_, ?_, fun buffer bytes => ?_⟩
  · rw [finish_text hassembled.cut]
    exact (fromUtf8Lossy_eq hassembled).symm
  · obtain ⟨hle, more, hmore, hencoded⟩ := exists_completion hassembled.cut
    refine ⟨hle, decodeChar ((new.pushAll chunks).2.pending ++ more), ?_⟩
    rw [encode_decodeChar hencoded]
    exact ⟨List.prefix_append _ _, fun heq => hmore (List.append_right_eq_self.mp heq.symm)⟩
  · obtain ⟨last, text, held, hpasses, hleaves, hpush, _⟩ := push_leaves buffer bytes
    exact ⟨last, text, held, hpasses, hleaves, hpush⟩

end Utf8Buffer

end BurnLm.Inference
