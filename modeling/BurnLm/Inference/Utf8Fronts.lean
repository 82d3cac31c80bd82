/-
# Fronts of byte strings

What stands at the front of a byte string does not change when more bytes
arrive, unless it is a character cut short. A character cut short is three bytes
at most and some bytes would complete it, and what counts as a character is what
the encoding of a character is.
-/

import BurnLm.Inference.Utf8

namespace BurnLm.Inference

/-- A byte string that is one character. -/
def IsEncoded (bytes : List UInt8) : Prop := utf8Front bytes = .char bytes.length

theorem charWidth_le (first : UInt8) : charWidth first ≤ 4 := by
  unfold charWidth
  split_ifs <;> decide

/-! ## Following bytes -/

theorem followers_append {width checked : ℕ} {bytes : List UInt8} (more : List UInt8)
    (hdecided : followers width checked bytes ≠ .incomplete) :
    followers width checked (bytes ++ more) = followers width checked bytes := by
  induction bytes generalizing checked with
  | nil =>
      by_cases hwidth : checked = width
      · cases more <;> simp [followers, hwidth]
      · simp [followers, hwidth] at hdecided
  | cons byte bytes ih =>
      simp only [List.cons_append, followers] at hdecided ⊢
      split
      · rfl
      · next hwidth =>
          rw [if_neg hwidth] at hdecided
          split
          · next hbyte =>
              rw [if_pos hbyte] at hdecided
              exact ih hdecided
          · rfl

/-- The following bytes complete a character, break it off, or are all fine and
too few. -/
theorem followers_cases {width checked : ℕ} (bytes : List UInt8) (hchecked : checked ≤ width) :
    (followers width checked bytes = .char width ∧ width ≤ checked + bytes.length) ∨
    (∃ errorLen, followers width checked bytes = .invalid errorLen ∧ checked ≤ errorLen ∧
      errorLen < checked + bytes.length) ∨
    (followers width checked bytes = .incomplete ∧ checked + bytes.length < width ∧
      ∀ byte ∈ bytes, isContinuation byte = true) := by
  induction bytes generalizing checked with
  | nil =>
      by_cases hwidth : checked = width
      · exact Or.inl ⟨by simp [followers, hwidth], by simp [hwidth]⟩
      · refine Or.inr (Or.inr ⟨by simp [followers, hwidth], ?_, by simp⟩)
        simpa using lt_of_le_of_ne hchecked hwidth
  | cons byte bytes ih =>
      simp only [followers, List.length_cons]
      by_cases hwidth : checked = width
      · exact Or.inl ⟨if_pos hwidth, by omega⟩
      rw [if_neg hwidth]
      by_cases hbyte : isContinuation byte = true
      swap
      · exact Or.inr (Or.inl ⟨checked, if_neg hbyte, le_rfl, by omega⟩)
      rw [if_pos hbyte]
      rcases @ih (checked + 1) (by omega) with
        ⟨hchar, hle⟩ | ⟨errorLen, hinvalid, hle, hlt⟩ | ⟨hcut, hlt, hall⟩
      · exact Or.inl ⟨hchar, by omega⟩
      · exact Or.inr (Or.inl ⟨errorLen, hinvalid, by omega, by omega⟩)
      · exact Or.inr (Or.inr ⟨hcut, by omega, by simpa [hbyte] using hall⟩)

/-- Enough fine bytes complete a character. -/
theorem followers_complete {width checked : ℕ} {bytes : List UInt8}
    (hall : ∀ byte ∈ bytes, isContinuation byte = true)
    (hlength : checked + bytes.length = width) :
    followers width checked bytes = .char width := by
  induction bytes generalizing checked with
  | nil => simpa [followers] using hlength
  | cons byte bytes ih =>
      simp only [List.length_cons] at hlength
      rw [followers, if_neg (by omega), if_pos (hall byte List.mem_cons_self)]
      exact ih (fun other hother => hall other (List.mem_cons_of_mem _ hother)) (by omega)

/-! ## Fronts -/

/-- A first byte that announces more, and what may follow it at once. -/
theorem utf8Front_cons_cons {first second : UInt8} {width : ℕ}
    (hwidth : charWidth first = width + 2) (rest : List UInt8) :
    utf8Front (first :: second :: rest) =
      if allowsSecond first second then followers (width + 2) 2 rest else .invalid 1 := by
  simp only [utf8Front, hwidth]

/-- What stands at the front, with how far it reaches. -/
theorem utf8Front_cases (bytes : List UInt8) :
    (∃ first rest, bytes = first :: rest ∧ utf8Front bytes = .char (charWidth first) ∧
      0 < charWidth first ∧ charWidth first ≤ bytes.length) ∨
    (∃ errorLen, utf8Front bytes = .invalid errorLen ∧ 0 < errorLen ∧ errorLen ≤ bytes.length) ∨
    (utf8Front bytes = .incomplete ∧ (bytes = [] ∨ ∃ first rest, bytes = first :: rest ∧
      2 ≤ charWidth first ∧ bytes.length < charWidth first ∧
      (rest = [] ∨ ∃ second rest', rest = second :: rest' ∧ allowsSecond first second = true ∧
        ∀ byte ∈ rest', isContinuation byte = true))) := by
  rcases bytes with _ | ⟨first, rest⟩
  · exact Or.inr (Or.inr ⟨rfl, Or.inl rfl⟩)
  rcases hwidth : charWidth first with _ | _ | width
  · exact Or.inr (Or.inl ⟨1, by simp only [utf8Front, hwidth], Nat.one_pos, by simp⟩)
  · exact Or.inl ⟨first, rest, rfl, by simp only [utf8Front, hwidth], by omega, by simp [hwidth]⟩
  rcases rest with _ | ⟨second, rest⟩
  · refine Or.inr (Or.inr ⟨by simp only [utf8Front, hwidth], Or.inr ⟨first, [], rfl, ?_⟩⟩)
    exact ⟨by omega, by simp [hwidth], Or.inl rfl⟩
  rw [utf8Front_cons_cons hwidth]
  by_cases hsecond : allowsSecond first second = true
  swap
  · exact Or.inr (Or.inl ⟨1, if_neg hsecond, Nat.one_pos, by simp⟩)
  rw [if_pos hsecond]
  simp only [List.length_cons]
  rcases followers_cases rest (Nat.le_add_left 2 width) with
    ⟨hchar, hle⟩ | ⟨errorLen, hinvalid, hle, hlt⟩ | ⟨hcut, hlt, hall⟩
  · exact Or.inl ⟨first, second :: rest, rfl, by rw [hchar, hwidth], by omega, by omega⟩
  · exact Or.inr (Or.inl ⟨errorLen, hinvalid, by omega, by omega⟩)
  · refine Or.inr (Or.inr ⟨hcut, Or.inr ⟨first, second :: rest, rfl, by omega, by omega, ?_⟩⟩)
    exact Or.inr ⟨second, rest, rfl, hsecond, hall⟩

/-- **More bytes change nothing** but a character cut short. -/
theorem utf8Front_append {bytes : List UInt8} (more : List UInt8)
    (hdecided : utf8Front bytes ≠ .incomplete) : utf8Front (bytes ++ more) = utf8Front bytes := by
  rcases bytes with _ | ⟨first, rest⟩
  · exact absurd rfl hdecided
  rcases hwidth : charWidth first with _ | _ | width
  · simp only [List.cons_append, utf8Front, hwidth]
  · simp only [List.cons_append, utf8Front, hwidth]
  rcases rest with _ | ⟨second, rest⟩
  · simp only [utf8Front, hwidth, ne_eq, not_true_eq_false] at hdecided
  simp only [List.cons_append, utf8Front_cons_cons hwidth] at hdecided ⊢
  by_cases hsecond : allowsSecond first second = true
  · rw [if_pos hsecond] at hdecided
    rw [if_pos hsecond, if_pos hsecond, followers_append more hdecided]
  · rw [if_neg hsecond, if_neg hsecond]

/-- What is replaced is there. -/
theorem errorLen_le {bytes : List UInt8} {errorLen : ℕ}
    (hinvalid : utf8Front bytes = .invalid errorLen) : 0 < errorLen ∧ errorLen ≤ bytes.length := by
  rcases utf8Front_cases bytes with ⟨_, _, _, hfront, _⟩ | ⟨other, hfront, hpos, hle⟩ | ⟨hfront, _⟩
  · simp [hinvalid] at hfront
  · obtain rfl := Utf8Front.invalid.inj (hfront.symm.trans hinvalid)
    exact ⟨hpos, hle⟩
  · simp [hinvalid] at hfront

/-- A character at the front is a character by itself. -/
theorem isEncoded_take {bytes : List UInt8} {width : ℕ} (hchar : utf8Front bytes = .char width) :
    0 < width ∧ width ≤ bytes.length ∧ IsEncoded (bytes.take width) := by
  rcases utf8Front_cases bytes with ⟨first, rest, rfl, hfront, hpos, hle⟩ | ⟨_, hfront, _⟩ |
    ⟨hfront, _⟩
  · obtain rfl := Utf8Front.char.inj (hfront.symm.trans hchar)
    have hlength : ((first :: rest).take (charWidth first)).length = charWidth first :=
      List.length_take_of_le hle
    refine ⟨hpos, hle, ?_⟩
    by_cases hcut : utf8Front ((first :: rest).take (charWidth first)) = .incomplete
    · exfalso
      -- it would be cut short of the very width it has
      rcases utf8Front_cases ((first :: rest).take (charWidth first)) with
        ⟨_, _, _, h, _⟩ | ⟨_, h, _⟩ | ⟨_, hnil | ⟨other, _, hother, _, hlt, _⟩⟩
      · simp [hcut] at h
      · simp [hcut] at h
      · rw [hnil] at hlength
        exact hpos.ne hlength
      · obtain ⟨width, hwidth⟩ := Nat.exists_eq_add_one_of_ne_zero hpos.ne'
        rw [hwidth, List.take_succ_cons, List.cons.injEq] at hother
        rw [hlength, hother.1] at hlt
        exact lt_irrefl _ hlt
    · have hsame := utf8Front_append ((first :: rest).drop (charWidth first)) hcut
      rw [List.take_append_drop] at hsame
      rw [IsEncoded, hlength, ← hsame, hfront]
  · simp [hchar] at hfront
  · simp [hchar] at hfront

/-- Every first byte that announces more allows some second byte. -/
theorem exists_allowsSecond (first : UInt8) : ∃ second, allowsSecond first second = true := by
  by_cases hE0 : first = 0xE0
  · exact ⟨0xA0, by simp [allowsSecond, hE0]⟩
  by_cases hF0 : first = 0xF0
  · exact ⟨0x90, by simp [allowsSecond, hF0]⟩
  refine ⟨0x80, ?_⟩
  unfold allowsSecond
  rw [if_neg hE0, if_neg hF0]
  split_ifs <;> decide

/-- **A character cut short is short, and can be completed.** -/
theorem exists_completion {bytes : List UInt8} (hcut : utf8Front bytes = .incomplete) :
    bytes.length ≤ 3 ∧ ∃ more, more ≠ [] ∧ IsEncoded (bytes ++ more) := by
  rcases utf8Front_cases bytes with ⟨_, _, _, hfront, _⟩ | ⟨_, hfront, _⟩ |
    ⟨_, rfl | ⟨first, rest, rfl, htwo, hlt, hrest⟩⟩
  · simp [hcut] at hfront
  · simp [hcut] at hfront
  · exact ⟨Nat.zero_le _, [0x41], by simp, rfl⟩
  have hle := charWidth_le first
  refine ⟨by omega, ?_⟩
  obtain ⟨width, hwidth⟩ := Nat.exists_eq_add_of_le' htwo
  rcases hrest with rfl | ⟨second, others, rfl, hsecond, hall⟩
  · obtain ⟨second, hsecond⟩ := exists_allowsSecond first
    refine ⟨second :: List.replicate width 0x80, by simp, ?_⟩
    simp only [IsEncoded, List.cons_append, List.nil_append, utf8Front_cons_cons hwidth,
      if_pos hsecond, List.length_cons, List.length_replicate]
    exact followers_complete (by simpa using fun _ => by decide) (by simp [Nat.add_comm])
  · simp only [List.length_cons] at hlt
    refine ⟨List.replicate (charWidth first - (others.length + 2)) 0x80, ?_, ?_⟩
    · rw [ne_eq, List.replicate_eq_nil_iff]
      omega
    · simp only [IsEncoded, List.cons_append, utf8Front_cons_cons hwidth, if_pos hsecond,
        List.length_cons, List.length_append, List.length_replicate]
      rw [followers_complete]
      · congr 1
        omega
      · simpa [or_imp, forall_and] using ⟨hall, fun _ => by decide⟩
      · simp only [List.length_append, List.length_replicate]
        omega

/-! ## Characters -/

theorem charWidth_cases (first : UInt8) :
    charWidth first = 0 ∨ (first.toNat ≤ 0x7F ∧ charWidth first = 1) ∨
    (0xC2 ≤ first.toNat ∧ first.toNat ≤ 0xDF ∧ charWidth first = 2) ∨
    (0xE0 ≤ first.toNat ∧ first.toNat ≤ 0xEF ∧ charWidth first = 3) ∨
    (0xF0 ≤ first.toNat ∧ first.toNat ≤ 0xF4 ∧ charWidth first = 4) := by
  simp only [charWidth, UInt8.le_iff_toNat_le, UInt8.lt_iff_toNat_lt, UInt8.reduceToNat]
  split_ifs <;> omega

theorem isContinuation_range {byte : UInt8} (hbyte : isContinuation byte = true) :
    0x80 ≤ byte.toNat ∧ byte.toNat ≤ 0xBF := by
  simpa [isContinuation, UInt8.le_iff_toNat_le] using hbyte

theorem allowsSecond_range {first second : UInt8} (hsecond : allowsSecond first second = true) :
    (0x80 ≤ second.toNat ∧ second.toNat ≤ 0xBF) ∧
      (first.toNat = 0xE0 → 0xA0 ≤ second.toNat) ∧ (first.toNat = 0xED → second.toNat ≤ 0x9F) ∧
      (first.toNat = 0xF0 → 0x90 ≤ second.toNat) ∧
      (first.toNat = 0xF4 → second.toNat ≤ 0x8F) := by
  simp only [allowsSecond, isContinuation, UInt8.le_iff_toNat_le, ← UInt8.toNat_inj,
    UInt8.reduceToNat] at hsecond
  split_ifs at hsecond <;> simp at hsecond <;> omega

/-- The four forms of a character. -/
inductive Encoding : List UInt8 → Prop
  | one {a : UInt8} (ha : a.toNat ≤ 0x7F) : Encoding [a]
  | two {a b : UInt8} (ha : 0xC2 ≤ a.toNat ∧ a.toNat ≤ 0xDF) (hb : allowsSecond a b = true) :
      Encoding [a, b]
  | three {a b c : UInt8} (ha : 0xE0 ≤ a.toNat ∧ a.toNat ≤ 0xEF) (hb : allowsSecond a b = true)
      (hc : isContinuation c = true) : Encoding [a, b, c]
  | four {a b c d : UInt8} (ha : 0xF0 ≤ a.toNat ∧ a.toNat ≤ 0xF4) (hb : allowsSecond a b = true)
      (hc : isContinuation c = true) (hd : isContinuation d = true) : Encoding [a, b, c, d]

/-- Being one character, read byte by byte. -/
theorem IsEncoded.encoding {bytes : List UInt8} (hencoded : IsEncoded bytes) :
    Encoding bytes := by
  rcases utf8Front_cases bytes with ⟨first, rest, rfl, hfront, hpos, _⟩ | ⟨_, hfront, _⟩ |
    ⟨hfront, _⟩
  swap; · simp [hfront, IsEncoded] at hencoded
  swap; · simp [hfront, IsEncoded] at hencoded
  have hlength := Utf8Front.char.inj (hfront.symm.trans hencoded)
  rw [List.length_cons] at hlength
  unfold IsEncoded at hencoded
  rcases charWidth_cases first with hwidth | ⟨ha, hwidth⟩ | ⟨ha, ha', hwidth⟩ | ⟨ha, ha', hwidth⟩ |
    ⟨ha, ha', hwidth⟩
  · omega
  · obtain rfl : rest = [] := List.eq_nil_of_length_eq_zero (by omega)
    exact .one ha
  · obtain ⟨b, rfl⟩ := List.length_eq_one_iff.mp (show rest.length = 1 by omega)
    rw [utf8Front_cons_cons hwidth] at hencoded
    split at hencoded
    · next hb => exact .two ⟨ha, ha'⟩ hb
    · simp at hencoded
  · obtain ⟨b, c, rfl⟩ := List.length_eq_two.mp (show rest.length = 2 by omega)
    rw [utf8Front_cons_cons hwidth] at hencoded
    split at hencoded
    · next hb =>
        by_cases hc : isContinuation c = true
        · exact .three ⟨ha, ha'⟩ hb hc
        · simp [followers, hc] at hencoded
    · simp at hencoded
  · obtain ⟨b, c, d, rfl⟩ := List.length_eq_three.mp (show rest.length = 3 by omega)
    rw [utf8Front_cons_cons hwidth] at hencoded
    split at hencoded
    · next hb =>
        by_cases hc : isContinuation c = true
        · by_cases hd : isContinuation d = true
          · exact .four ⟨ha, ha'⟩ hb hc hd
          · simp [followers, hc, hd] at hencoded
        · simp [followers, hc] at hencoded
    · simp at hencoded

theorem val_ofNat {code : ℕ} (hcode : code.isValidChar) :
    (Char.ofNat code).val.toNat = code := by
  rw [Char.ofNat, dif_pos hcode]
  rfl

theorem ofNat_eq_of_toNat {code : ℕ} {byte : UInt8} (hcode : code = byte.toNat) :
    UInt8.ofNat code = byte := by
  subst hcode
  exact UInt8.ofNat_toNat

/-- **A character at the front is spelled by its encoding.** -/
theorem encode_decodeChar {bytes : List UInt8} (hencoded : IsEncoded bytes) :
    String.utf8EncodeChar (decodeChar bytes) = bytes := by
  cases hencoded.encoding with
  | @one a ha =>
      have hcode : a.toNat.isValidChar := Or.inl (by omega)
      simp only [decodeChar, String.utf8EncodeChar, val_ofNat hcode]
      rw [if_pos ha, UInt8.ofNat_toNat]
  | @two a b ha hb =>
      have hb := allowsSecond_range hb
      have hcode : (a.toNat % 32 * 64 + b.toNat % 64).isValidChar := Or.inl (by omega)
      simp only [decodeChar, String.utf8EncodeChar, val_ofNat hcode]
      rw [if_neg (by omega), if_pos (by omega)]
      congr <;> (apply ofNat_eq_of_toNat; omega)
  | @three a b c ha hb hc =>
      have hb := allowsSecond_range hb
      have hc := isContinuation_range hc
      have hcode : (a.toNat % 16 * 4096 + b.toNat % 64 * 64 + c.toNat % 64).isValidChar := by
        unfold Nat.isValidChar
        omega
      simp only [decodeChar, String.utf8EncodeChar, val_ofNat hcode]
      rw [if_neg (by omega), if_neg (by omega), if_pos (by omega)]
      congr <;> (apply ofNat_eq_of_toNat; omega)
  | @four a b c d ha hb hc hd =>
      have hb := allowsSecond_range hb
      have hc := isContinuation_range hc
      have hd := isContinuation_range hd
      have hcode : (a.toNat % 8 * 262144 + b.toNat % 64 * 4096 + c.toNat % 64 * 64 +
          d.toNat % 64).isValidChar := by
        unfold Nat.isValidChar
        omega
      simp only [decodeChar, String.utf8EncodeChar, val_ofNat hcode]
      rw [if_neg (by omega), if_neg (by omega), if_neg (by omega)]
      congr <;> (apply ofNat_eq_of_toNat; omega)

/-! ## Characters from their encoding -/

theorem toNat_ofNat_of_lt {code : ℕ} (hcode : code < 256) : (UInt8.ofNat code).toNat = code := by
  rw [UInt8.toNat_ofNat', Nat.mod_eq_of_lt hcode]

theorem charWidth_of_range (first : UInt8) :
    (first.toNat ≤ 0x7F → charWidth first = 1) ∧
    (0xC2 ≤ first.toNat ∧ first.toNat ≤ 0xDF → charWidth first = 2) ∧
    (0xE0 ≤ first.toNat ∧ first.toNat ≤ 0xEF → charWidth first = 3) ∧
    (0xF0 ≤ first.toNat ∧ first.toNat ≤ 0xF4 → charWidth first = 4) := by
  simp only [charWidth, UInt8.le_iff_toNat_le, UInt8.lt_iff_toNat_lt, UInt8.reduceToNat]
  split_ifs <;> omega

theorem isContinuation_of_range {byte : UInt8} (hbyte : 0x80 ≤ byte.toNat ∧ byte.toNat ≤ 0xBF) :
    isContinuation byte = true := by
  simpa [isContinuation, UInt8.le_iff_toNat_le] using hbyte

theorem allowsSecond_of_range {first second : UInt8}
    (hsecond : 0x80 ≤ second.toNat ∧ second.toNat ≤ 0xBF)
    (hoverlong : first.toNat = 0xE0 → 0xA0 ≤ second.toNat)
    (hsurrogate : first.toNat = 0xED → second.toNat ≤ 0x9F)
    (hoverlong' : first.toNat = 0xF0 → 0x90 ≤ second.toNat)
    (hlast : first.toNat = 0xF4 → second.toNat ≤ 0x8F) : allowsSecond first second = true := by
  simp only [allowsSecond, isContinuation, UInt8.le_iff_toNat_le, ← UInt8.toNat_inj,
    UInt8.reduceToNat]
  split_ifs <;> simp <;> omega

/-- Each of the four forms is one character. -/
theorem Encoding.isEncoded {bytes : List UInt8} (hbytes : Encoding bytes) : IsEncoded bytes := by
  cases hbytes with
  | @one a ha =>
      have hwidth : charWidth a = 1 := (charWidth_of_range a).1 ha
      simp [IsEncoded, utf8Front, hwidth]
  | @two a b ha hb =>
      have hwidth : charWidth a = 0 + 2 := (charWidth_of_range a).2.1 ha
      simp [IsEncoded, utf8Front_cons_cons hwidth, hb, followers]
  | @three a b c ha hb hc =>
      have hwidth : charWidth a = 1 + 2 := (charWidth_of_range a).2.2.1 ha
      simp [IsEncoded, utf8Front_cons_cons hwidth, hb, hc, followers]
  | @four a b c d ha hb hc hd =>
      have hwidth : charWidth a = 2 + 2 := (charWidth_of_range a).2.2.2 ha
      simp [IsEncoded, utf8Front_cons_cons hwidth, hb, hc, hd, followers]

/-- The encoding of a character has one of the four forms. -/
theorem encoding_utf8EncodeChar (char : Char) : Encoding (String.utf8EncodeChar char) := by
  have hvalid : char.val.toNat < 0xD800 ∨ 0xDFFF < char.val.toNat ∧ char.val.toNat < 0x110000 :=
    char.valid
  simp only [String.utf8EncodeChar]
  generalize char.val.toNat = code at hvalid
  split_ifs with hone htwo hthree
  · exact .one (by rw [toNat_ofNat_of_lt (by omega)]; omega)
  · refine .two ?_ (allowsSecond_of_range ?_ ?_ ?_ ?_ ?_) <;>
      simp only [toNat_ofNat_of_lt (show code / 64 % 32 + 192 < 256 by omega),
        toNat_ofNat_of_lt (show code % 64 + 128 < 256 by omega)] <;> omega
  · refine .three ?_ (allowsSecond_of_range ?_ ?_ ?_ ?_ ?_) (isContinuation_of_range ?_) <;>
      simp only [toNat_ofNat_of_lt (show code / 4096 % 16 + 224 < 256 by omega),
        toNat_ofNat_of_lt (show code / 64 % 64 + 128 < 256 by omega),
        toNat_ofNat_of_lt (show code % 64 + 128 < 256 by omega)] <;> omega
  · refine .four ?_ (allowsSecond_of_range ?_ ?_ ?_ ?_ ?_) (isContinuation_of_range ?_)
        (isContinuation_of_range ?_) <;>
      simp only [toNat_ofNat_of_lt (show code / 262144 % 8 + 240 < 256 by omega),
        toNat_ofNat_of_lt (show code / 4096 % 64 + 128 < 256 by omega),
        toNat_ofNat_of_lt (show code / 64 % 64 + 128 < 256 by omega),
        toNat_ofNat_of_lt (show code % 64 + 128 < 256 by omega)] <;> omega

/-- **A character comes back from its encoding.** -/
theorem decodeChar_utf8EncodeChar (char : Char) :
    decodeChar (String.utf8EncodeChar char) = char := by
  have hvalid : char.val.toNat < 0xD800 ∨ 0xDFFF < char.val.toNat ∧ char.val.toNat < 0x110000 :=
    char.valid
  have hback : ∀ code, code = char.val.toNat → Char.ofNat code = char := by
    rintro _ rfl
    exact Char.ofNat_toNat char
  simp only [String.utf8EncodeChar]
  split_ifs with hone htwo hthree <;> simp only [decodeChar] <;> apply hback <;>
    simp only [UInt8.toNat_ofNat'] <;> omega

end BurnLm.Inference
