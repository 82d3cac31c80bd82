/-
# What a round does

The round is three passes; this module says what each of them can do and hides
how. For one sequence there are seven possibilities, listed in `SeqStep`. For
the decoder there are two kinds of calls, one chunk of one prompt and one fused
decode, and an invariant of decoder and sequences together is an invariant of
the round as soon as marking a sequence finished, pushing a chunk and the decode
pass keep it.
-/

import BurnLm.Math.Tables
import BurnLm.Inference.Batching

namespace BurnLm.Inference

open BurnLm.Math

universe u v w

variable {X : Type w}

/-- Prompt work: more than one token is still to go in. -/
structure Prefillable (maxContextLen : ℕ) (seq : ActiveSeq X) : Prop where
  unfinished : seq.finished = false
  unpaused : seq.paused = false
  generated_lt : seq.generated < seq.maxGen
  tail : seq.processed + 1 < seq.tokens.length
  fits : seq.tokens.length ≤ maxContextLen

/-- Decode-ready: exactly one token is still to go in. -/
structure Decodable (maxContextLen : ℕ) (seq : ActiveSeq X) : Prop where
  unfinished : seq.finished = false
  unpaused : seq.paused = false
  generated_lt : seq.generated < seq.maxGen
  tail : seq.processed + 1 = seq.tokens.length
  fits : seq.tokens.length ≤ maxContextLen

/-- What a round can do to one sequence. -/
inductive SeqStep (maxContextLen : ℕ) (stopIds : List Token) (seq : ActiveSeq X) :
    ActiveSeq X → StepOutcome → Prop
  | idle (hidle : seq.finished = true ∨ seq.paused = true) :
      SeqStep maxContextLen stopIds seq seq .skipped
  | noop (hunfinished : seq.finished = false) (hunpaused : seq.paused = false)
      (hnoop : seq.maxGen ≤ seq.generated ∨ seq.tokens.length ≤ seq.processed) :
      SeqStep maxContextLen stopIds seq { seq with finished := true } .skipped
  | overlong (hunfinished : seq.finished = false) (hover : maxContextLen < seq.tokens.length) :
      SeqStep maxContextLen stopIds seq { seq with finished := true }
        (.failed (.contextLengthExceeded seq.tokens.length maxContextLen))
  | deferred (hseq : Prefillable maxContextLen seq) :
      SeqStep maxContextLen stopIds seq seq .skipped
  | chunk (hseq : Prefillable maxContextLen seq) (granted : ℕ) (hgranted : 0 < granted)
      (hchunk : seq.processed + granted < seq.tokens.length) :
      SeqStep maxContextLen stopIds seq { seq with processed := seq.processed + granted }
        .prefilling
  | failed (hunfinished : seq.finished = false) (hunpaused : seq.paused = false)
      (error : InferenceError) :
      SeqStep maxContextLen stopIds seq { seq with finished := true } (.failed error)
  | stepped (hunfinished : seq.finished = false) (hunpaused : seq.paused = false)
      (hgenerated : seq.generated < seq.maxGen) (hprocessed : seq.processed < seq.tokens.length)
      (hfits : seq.tokens.length ≤ maxContextLen) (token : Token) :
      SeqStep maxContextLen stopIds seq (advanceOrFail stopIds seq (.ok token)).1
        (advanceOrFail stopIds seq (.ok token)).2

/-! ## Classification -/

/-- An entry marked as prompt work is prompt work. -/
def Entry.PrefillReady (maxContextLen : ℕ) (entry : Entry X) : Prop :=
  entry.work = .prefill → Prefillable maxContextLen entry.seq

/-- An entry's decode row is the one its sequence owes. -/
def Entry.DecodeReady (maxContextLen : ℕ) (entry : Entry X) : Prop :=
  ∀ row, entry.work = .decode row → Decodable maxContextLen entry.seq ∧
    row = ⟨entry.seq.slot, entry.seq.tokens.getD entry.seq.processed 0⟩

/-- The five answers of classification. -/
theorem classify_cases (maxContextLen : ℕ) (seq : ActiveSeq X) :
    ((seq.finished = true ∨ seq.paused = true) ∧
      classify maxContextLen seq = ⟨seq, .idle, .skipped⟩) ∨
    (seq.finished = false ∧ seq.paused = false ∧
      (seq.maxGen ≤ seq.generated ∨ seq.tokens.length ≤ seq.processed) ∧
      classify maxContextLen seq = ⟨{ seq with finished := true }, .idle, .skipped⟩) ∨
    (seq.finished = false ∧ seq.paused = false ∧ maxContextLen < seq.tokens.length ∧
      classify maxContextLen seq = ⟨{ seq with finished := true }, .idle,
        .failed (.contextLengthExceeded seq.tokens.length maxContextLen)⟩) ∨
    (Prefillable maxContextLen seq ∧ classify maxContextLen seq = ⟨seq, .prefill, .skipped⟩) ∨
    (Decodable maxContextLen seq ∧ classify maxContextLen seq =
      ⟨seq, .decode ⟨seq.slot, seq.tokens.getD seq.processed 0⟩, .skipped⟩) := by
  unfold classify
  by_cases hfinished : seq.finished = true
  · exact Or.inl ⟨Or.inl hfinished, by rw [if_pos hfinished]⟩
  rw [if_neg hfinished]
  by_cases hpaused : seq.paused = true
  · exact Or.inl ⟨Or.inr hpaused, by rw [if_pos hpaused]⟩
  rw [if_neg hpaused]
  rw [Bool.not_eq_true] at hfinished hpaused
  by_cases hnoop : seq.maxGen ≤ seq.generated ∨ seq.tokens.length ≤ seq.processed
  · exact Or.inr (Or.inl ⟨hfinished, hpaused, hnoop, by rw [if_pos hnoop]⟩)
  rw [if_neg hnoop]
  by_cases hover : maxContextLen < seq.tokens.length
  · exact Or.inr (Or.inr (Or.inl ⟨hfinished, hpaused, hover, by rw [if_pos hover]⟩))
  rw [if_neg hover]
  by_cases htail : 1 < seq.tokens.length - seq.processed
  · refine Or.inr (Or.inr (Or.inr (Or.inl ⟨⟨hfinished, hpaused, ?_, ?_, ?_⟩, by rw [if_pos htail]⟩)))
    all_goals omega
  · refine Or.inr (Or.inr (Or.inr (Or.inr ⟨⟨hfinished, hpaused, ?_, ?_, ?_⟩, by rw [if_neg htail]⟩)))
    all_goals omega

theorem ready_classify (maxContextLen : ℕ) (seq : ActiveSeq X) :
    (classify maxContextLen seq).PrefillReady maxContextLen ∧
      (classify maxContextLen seq).DecodeReady maxContextLen := by
  unfold Entry.PrefillReady Entry.DecodeReady
  rcases classify_cases maxContextLen seq with ⟨_, hcase⟩ | ⟨_, _, _, hcase⟩ | ⟨_, _, _, hcase⟩ |
    ⟨hseq, hcase⟩ | ⟨hseq, hcase⟩ <;> rw [hcase]
  · simp
  · simp
  · simp
  · exact ⟨fun _ => hseq, by simp⟩
  · refine ⟨by simp, fun row hrow => ⟨hseq, ?_⟩⟩
    rw [Work.decode.injEq] at hrow
    exact hrow.symm

/-- Classifying marks a sequence finished or leaves it alone. -/
theorem classify_seq (maxContextLen : ℕ) (seq : ActiveSeq X) :
    (classify maxContextLen seq).seq = seq ∨
      (seq.finished = false ∧
        (classify maxContextLen seq).seq = { seq with finished := true }) := by
  rcases classify_cases maxContextLen seq with ⟨_, hcase⟩ | ⟨hfinished, _, _, hcase⟩ |
    ⟨hfinished, _, _, hcase⟩ | ⟨_, hcase⟩ | ⟨_, hcase⟩ <;> rw [hcase]
  · exact Or.inl rfl
  · exact Or.inr ⟨hfinished, rfl⟩
  · exact Or.inr ⟨hfinished, rfl⟩
  · exact Or.inl rfl
  · exact Or.inl rfl

/-! ## The prefill pass -/

/-- A grant is some of what was wanted. -/
theorem PrefillBudget.admitPrefill_le {budget : PrefillBudget} {wanted granted : ℕ}
    (hgrant : (budget.admitPrefill wanted).1 = some granted) : granted ≤ wanted := by
  unfold admitPrefill at hgrant
  split at hgrant <;> simp at hgrant <;> omega

/-- Only a spent budget grants nothing of something. -/
theorem PrefillBudget.remaining_of_admitPrefill {budget : PrefillBudget} {wanted : ℕ}
    (hwanted : 0 < wanted)
    (hnothing : ∀ granted, (budget.admitPrefill wanted).1 ≠ some (granted + 1)) :
    budget.remaining = some 0 := by
  rcases budget with ⟨_ | _ | remaining⟩
  · obtain ⟨granted, rfl⟩ := Nat.exists_eq_succ_of_ne_zero hwanted.ne'
    exact absurd rfl (hnothing granted)
  · rfl
  · obtain ⟨granted, hgranted⟩ : ∃ granted, min wanted (remaining + 1) = granted + 1 :=
      Nat.exists_eq_succ_of_ne_zero (by omega)
    exact absurd (congrArg some hgranted) (hnothing granted)

/-- The row check passes its argument on or fails. -/
theorem expectRows_cases {Row : Type v} (inRows : ℕ) (logits : Logits Row) :
    (logits.rows.length = inRows ∧ expectRows inRows logits = .ok logits) ∨
      ∃ error, expectRows inRows logits = .error error := by
  by_cases hrows : logits.rows.length = inRows
  · exact Or.inl ⟨hrows, if_pos hrows⟩
  · exact Or.inr ⟨_, if_neg hrows⟩

/-- Sampling a call's logits either fails, having touched the state at most by
sampling, or answers for the right number of rows. -/
theorem sampleRows_cases {D : Type u} {Row : Type v}
    (sample : D → Logits Row → InferenceResult (List Token) × D) (inRows : ℕ) (decoder : D)
    (result : InferenceResult (Logits Row)) :
    (∃ error after, sampleRows sample inRows decoder result = (.error error, after) ∧
      (after = decoder ∨ ∃ logits, result = .ok logits ∧ after = (sample decoder logits).2)) ∨
    ∃ logits ids after, result = .ok logits ∧ logits.rows.length = inRows ∧
      sample decoder logits = (.ok ids, after) ∧
      sampleRows sample inRows decoder result = (.ok ids, after) := by
  cases result with
  | error error => exact Or.inl ⟨error, decoder, rfl, Or.inl rfl⟩
  | ok logits =>
      have hbind : (Except.ok logits >>= expectRows inRows) = expectRows inRows logits := rfl
      unfold sampleRows
      rw [hbind]
      rcases expectRows_cases inRows logits with ⟨hrows, hexpect⟩ | ⟨error, hexpect⟩
      · rw [hexpect]
        rcases hsampled : sample decoder logits with ⟨sampled, after⟩
        cases sampled with
        | error error =>
            exact Or.inl ⟨error, after, hsampled, Or.inr ⟨logits, rfl, by rw [hsampled]⟩⟩
        | ok ids => exact Or.inr ⟨logits, ids, after, rfl, hrows, hsampled, hsampled⟩
      · rw [hexpect]
        exact Or.inl ⟨error, decoder, rfl, Or.inl rfl⟩

section Passes

variable {D : Type u} {Row : Type v} [BatchedDecoder D Row]
  {sample : D → Logits Row → InferenceResult (List Token) × D} {stopIds : List Token}
  {maxContextLen chunkSize : ℕ}

/-- The tokens a prefill of `granted` tokens pushes. -/
def chunkOf (seq : ActiveSeq X) (granted : ℕ) : List Token :=
  (seq.tokens.take (seq.processed + granted)).drop seq.processed

/-- What one chunk can do: an intermediate chunk moves the cursor, a final one
samples, and whatever fails finishes the sequence. -/
theorem prefillChunk_cases (granted : ℕ) (decoder : D) (seq : ActiveSeq X)
    (hgranted : seq.processed + granted ≤ seq.tokens.length) :
    let called := BatchedDecoder.prefill decoder seq.slot (chunkOf seq granted) seq.processed
    (seq.processed + granted < seq.tokens.length ∧ (∃ logits, called.1 = .ok logits) ∧
      prefillChunk sample stopIds granted decoder seq =
        ({ seq with processed := seq.processed + granted }, .prefilling, called.2)) ∨
    (∃ error after, prefillChunk sample stopIds granted decoder seq =
        ({ seq with finished := true }, .failed error, after) ∧
      (after = called.2 ∨ ∃ logits, called.1 = .ok logits ∧
        after = (sample called.2 logits).2)) ∨
    (seq.processed + granted = seq.tokens.length ∧ ∃ logits token rest after,
      called.1 = .ok logits ∧ logits.rows.length = 1 ∧
      sample called.2 logits = (.ok (token :: rest), after) ∧
      prefillChunk sample stopIds granted decoder seq =
        ((advanceOrFail stopIds seq (.ok token)).1, (advanceOrFail stopIds seq (.ok token)).2,
          after)) := by
  intro called
  have hcalled : BatchedDecoder.prefill decoder seq.slot
      ((seq.tokens.take (seq.processed + granted)).drop seq.processed) seq.processed =
        (called.1, called.2) := rfl
  unfold prefillChunk
  simp only [hcalled]
  by_cases hchunk : seq.processed + granted < seq.tokens.length
  · simp only [if_pos hchunk]
    cases hresult : called.1 with
    | ok logits => exact Or.inl ⟨hchunk, ⟨logits, rfl⟩, rfl⟩
    | error error => exact Or.inr (Or.inl ⟨error, called.2, rfl, Or.inl rfl⟩)
  · simp only [if_neg hchunk]
    rcases sampleRows_cases sample 1 called.2 called.1 with
      ⟨error, after, hsampled, hafter⟩ | ⟨logits, ids, after, hlogits, hrows, hids, hsampled⟩
    · rw [hsampled]
      exact Or.inr (Or.inl ⟨error, after, rfl, hafter⟩)
    · rw [hsampled]
      cases ids with
      | nil =>
          refine Or.inr (Or.inl ⟨_, after, rfl, Or.inr ⟨logits, hlogits, ?_⟩⟩)
          rw [hids]
      | cons token rest =>
          exact Or.inr (Or.inr ⟨by omega, logits, token, rest, after, hlogits, hrows, hids, rfl⟩)

/-- What was pushed, and the chunk after it. -/
theorem take_append_chunkOf (seq : ActiveSeq X) (granted : ℕ) :
    seq.tokens.take seq.processed ++ chunkOf seq granted =
      seq.tokens.take (seq.processed + granted) := by
  have htake : seq.tokens.take seq.processed =
      (seq.tokens.take (seq.processed + granted)).take seq.processed := by
    rw [List.take_take, min_eq_left (Nat.le_add_right _ _)]
  rw [htake, chunkOf, List.take_append_drop]

/-- The entry a chunk leaves behind. -/
def Entry.prefilled (sample : D → Logits Row → InferenceResult (List Token) × D)
    (stopIds : List Token) (granted : ℕ) (decoder : D) (entry : Entry X) : Entry X :=
  { entry with
    seq := (prefillChunk sample stopIds granted decoder entry.seq).1
    outcome := (prefillChunk sample stopIds granted decoder entry.seq).2.1 }

/-- One entry of the prefill pass: prompt work is granted some of its tail, or
finds the budget spent; everything else is passed over. -/
theorem prefillPass_cons_cases (entry : Entry X) (entries : List (Entry X))
    (budget : PrefillBudget) (decoder : D) :
    ((entry.work = .prefill → entry.seq.processed < entry.seq.tokens.length →
        budget.remaining = some 0) ∧
      ∃ left, prefillPass sample stopIds chunkSize (entry :: entries) budget decoder =
        (entry :: (prefillPass sample stopIds chunkSize entries left decoder).1,
          (prefillPass sample stopIds chunkSize entries left decoder).2)) ∨
    (entry.work = .prefill ∧ ∃ granted left, 0 < granted ∧
      granted ≤ entry.seq.tokens.length - entry.seq.processed ∧
      prefillPass sample stopIds chunkSize (entry :: entries) budget decoder =
        (entry.prefilled sample stopIds granted decoder ::
            (prefillPass sample stopIds chunkSize entries left
              (prefillChunk sample stopIds granted decoder entry.seq).2.2).1,
          (prefillPass sample stopIds chunkSize entries left
            (prefillChunk sample stopIds granted decoder entry.seq).2.2).2)) := by
  cases hwork : entry.work with
  | idle => exact Or.inl ⟨by simp, budget, by simp only [prefillPass, hwork]⟩
  | decode row => exact Or.inl ⟨by simp, budget, by simp only [prefillPass, hwork]⟩
  | prefill =>
      set tail := entry.seq.tokens.length - entry.seq.processed with htail
      set wanted := if chunkSize = 0 then tail else min chunkSize tail with hwanted
      have hle : wanted ≤ tail ∧ (0 < tail → 0 < wanted) := by
        rw [hwanted]
        split <;> omega
      rcases hgrant : budget.admitPrefill wanted with ⟨_ | _ | granted, left⟩
      · refine Or.inl ⟨fun _ hlive => ?_, left, ?_⟩
        · exact PrefillBudget.remaining_of_admitPrefill (hle.2 (by omega)) (by simp [hgrant])
        · simp only [prefillPass, hwork, ← htail, ← hwanted, hgrant]
      · refine Or.inl ⟨fun _ hlive => ?_, left, ?_⟩
        · exact PrefillBudget.remaining_of_admitPrefill (hle.2 (by omega)) (by simp [hgrant])
        · simp only [prefillPass, hwork, ← htail, ← hwanted, hgrant]
      · refine Or.inr ⟨rfl, granted + 1, left, Nat.succ_pos _, ?_, ?_⟩
        · exact le_trans (PrefillBudget.admitPrefill_le (by rw [hgrant])) hle.1
        · simp only [prefillPass, hwork, ← htail, ← hwanted, hgrant, Entry.prefilled]

/-! ## The decode pass -/

/-- The one token a decode-ready sequence owes is the last of its tokens. -/
theorem take_append_owed {contextLen : ℕ} {seq : ActiveSeq X} (hseq : Decodable contextLen seq) :
    seq.tokens.take seq.processed ++ [seq.tokens.getD seq.processed 0] = seq.tokens := by
  have hlt : seq.processed < seq.tokens.length := by
    rw [← hseq.tail]
    exact Nat.lt_succ_self _
  rw [List.getD_eq_getElem _ _ hlt, List.take_append_getElem hlt, hseq.tail, List.take_length]

/-- Settle one entry by the sample of its row. -/
def Entry.settle (stopIds : List Token) (sampled : DecodeRow → InferenceResult Token)
    (entry : Entry X) : Entry X :=
  match entry.work with
  | .decode row => entry.advance stopIds (sampled row)
  | _ => entry

omit [BatchedDecoder D Row] in
/-- Ids given row by row go back to their rows. -/
theorem fanOut_eq_map (pick : DecodeRow → Token) (entries : List (Entry X)) :
    fanOut stopIds entries ((decodeRows entries).map pick) =
      entries.map (Entry.settle stopIds fun row => .ok (pick row)) := by
  induction entries with
  | nil => rfl
  | cons entry entries ih =>
      simp only [decodeRows, Entry.settle, List.map_cons] at ih ⊢
      cases hwork : entry.work with
      | idle => simp only [fanOut, List.filterMap_cons, hwork, ih]
      | prefill => simp only [fanOut, List.filterMap_cons, hwork, ih]
      | decode row => simp only [fanOut, List.filterMap_cons, hwork, List.map_cons, ih]

/-- The decode pass settles every decode row by one fused call, or by one error
for all of them. -/
theorem decodePass_cases (entries : List (Entry X)) (decoder : D)
    (hnodup : (decodeRows entries).Nodup) :
    let rows := decodeRows entries
    let called := BatchedDecoder.decode decoder rows
    (rows = [] ∧ decodePass sample stopIds entries decoder = (entries, decoder)) ∨
    (rows ≠ [] ∧ ∃ error after,
      decodePass sample stopIds entries decoder =
        (entries.map (Entry.settle stopIds fun _ => .error error), after) ∧
      (after = called.2 ∨ ∃ logits, called.1 = .ok logits ∧
        after = (sample called.2 logits).2)) ∨
    (rows ≠ [] ∧ ∃ logits pick after, called.1 = .ok logits ∧
      logits.rows.length = rows.length ∧
      sample called.2 logits = (.ok (rows.map pick), after) ∧
      decodePass sample stopIds entries decoder =
        (entries.map (Entry.settle stopIds fun row => .ok (pick row)), after)) := by
  intro rows called
  by_cases hrows : rows = []
  · exact Or.inl ⟨hrows, if_pos hrows⟩
  have hfail : ∀ error, failRows stopIds entries error =
      entries.map (Entry.settle stopIds fun _ => .error error) := by
    intro error
    refine List.map_congr_left fun entry _ => ?_
    cases hwork : entry.work <;> simp only [Entry.settle, hwork]
  have hrows' : ¬decodeRows entries = [] := hrows
  simp only [decodePass, if_neg hrows']
  rcases sampleRows_cases sample rows.length called.2 called.1 with
    ⟨error, after, hsampled, hafter⟩ | ⟨logits, ids, after, hlogits, hlength, hids, hsampled⟩
  · simp only [rows, called] at hsampled
    simp only [hsampled, hfail]
    exact Or.inr (Or.inl ⟨hrows, error, after, rfl, hafter⟩)
  · simp only [rows, called] at hsampled
    simp only [hsampled]
    by_cases hwidth : ids.length = (decodeRows entries).length
    · obtain ⟨pick, rfl⟩ := exists_map_eq hnodup hwidth
      rw [if_pos hwidth, fanOut_eq_map]
      exact Or.inr (Or.inr ⟨hrows, logits, pick, after, hlogits, hlength, hids, rfl⟩)
    · rw [if_neg hwidth, hfail]
      refine Or.inr (Or.inl ⟨hrows, _, after, rfl, Or.inr ⟨logits, hlogits, ?_⟩⟩)
      rw [hids]

/-! ## The round -/

omit [BatchedDecoder D Row] in
/-- The rows of a round in the order of their sequences. -/
theorem mem_decodeRows {entries : List (Entry X)} {row : DecodeRow} :
    row ∈ decodeRows entries ↔ ∃ entry ∈ entries, entry.work = .decode row := by
  simp only [decodeRows, List.mem_filterMap]
  refine exists_congr fun entry => and_congr_right fun _ => ?_
  cases entry.work <;> simp

/-- Distinct slots make distinct rows. -/
theorem nodup_decodeRows {entries : List (Entry X)}
    (hready : ∀ entry ∈ entries, entry.DecodeReady maxContextLen)
    (hslots : (entries.map fun entry => entry.seq.slot).Nodup) :
    ((decodeRows entries).map DecodeRow.slot).Nodup := by
  induction entries with
  | nil => exact List.nodup_nil
  | cons entry entries ih =>
      rw [List.map_cons, List.nodup_cons] at hslots
      have hrest := ih (fun entry hentry => hready entry (List.mem_cons_of_mem _ hentry)) hslots.2
      cases hwork : entry.work with
      | idle => simpa only [decodeRows, List.filterMap_cons, hwork] using hrest
      | prefill => simpa only [decodeRows, List.filterMap_cons, hwork] using hrest
      | decode row =>
          have hrow := (hready entry List.mem_cons_self row hwork).2
          simp only [decodeRows, List.filterMap_cons, hwork, List.map_cons, List.nodup_cons]
          refine ⟨fun hmem => hslots.1 ?_, hrest⟩
          obtain ⟨other, hother, hslot⟩ := List.mem_map.mp hmem
          obtain ⟨entry', hentry', hwork'⟩ := mem_decodeRows.mp hother
          have hrow' := (hready entry' (List.mem_cons_of_mem _ hentry') other hwork').2
          refine List.mem_map.mpr ⟨entry', hentry', ?_⟩
          rw [hrow'] at hslot
          rw [hrow] at hslot
          exact hslot

/-- No row names the lane of an entry that has none. -/
theorem slot_ne_of_idle {contextLen : ℕ} {entries : List (Entry X)}
    (hslots : (entries.map fun entry => entry.seq.slot).Nodup)
    (hdecodable : ∀ entry ∈ entries, entry.DecodeReady contextLen) {entry : Entry X}
    (hentry : entry ∈ entries) (hidle : ∀ row, entry.work ≠ .decode row) :
    ∀ row ∈ decodeRows entries, row.slot ≠ entry.seq.slot := by
  intro row hrow hsame
  obtain ⟨owner, howner, hwork⟩ := mem_decodeRows.mp hrow
  obtain ⟨_, rfl⟩ := hdecodable owner howner row hwork
  obtain rfl := List.inj_on_of_nodup_map hslots howner hentry hsame
  exact hidle _ hwork

omit [BatchedDecoder D Row] in
/-- Enough ids settle every decode row by one of them. -/
theorem fanOut_forall₂ {entries : List (Entry X)} {ids : List Token}
    (hlength : ids.length = (decodeRows entries).length) :
    List.Forall₂ (fun entry after => ∃ sampled, after = entry.settle stopIds fun _ => sampled)
      entries (fanOut stopIds entries ids) := by
  induction entries generalizing ids with
  | nil => exact List.Forall₂.nil
  | cons entry entries ih =>
      cases hwork : entry.work with
      | decode row =>
          simp only [decodeRows, List.filterMap_cons, hwork, List.length_cons] at hlength
          cases ids with
          | nil => simp at hlength
          | cons id ids =>
              simp only [fanOut, hwork]
              exact List.Forall₂.cons ⟨.ok id, by simp only [Entry.settle, hwork]⟩
                (ih (by simpa [decodeRows] using hlength))
      | idle =>
          simp only [decodeRows, List.filterMap_cons, hwork] at hlength
          simp only [fanOut, hwork]
          exact List.Forall₂.cons ⟨.ok 0, by simp only [Entry.settle, hwork]⟩ (ih hlength)
      | prefill =>
          simp only [decodeRows, List.filterMap_cons, hwork] at hlength
          simp only [fanOut, hwork]
          exact List.Forall₂.cons ⟨.ok 0, by simp only [Entry.settle, hwork]⟩ (ih hlength)

/-- The decode pass settles every entry. -/
theorem decodePass_forall₂ (entries : List (Entry X)) (decoder : D) :
    List.Forall₂ (fun entry after => ∃ sampled, after = entry.settle stopIds fun _ => sampled)
      entries (decodePass sample stopIds entries decoder).1 := by
  have hfail : ∀ error, List.Forall₂ (fun entry after =>
      ∃ sampled, after = entry.settle stopIds fun _ => sampled)
        entries (failRows stopIds entries error) := by
    intro error
    refine List.forall₂_map_right_iff.mpr (List.forall₂_same.mpr fun entry _ => ?_)
    refine ⟨.error error, ?_⟩
    cases hwork : entry.work <;> simp only [Entry.settle, hwork]
  unfold decodePass
  by_cases hrows : decodeRows entries = []
  · simp only [if_pos hrows]
    refine List.forall₂_same.mpr fun entry hentry => ⟨.ok 0, ?_⟩
    cases hwork : entry.work with
    | decode row =>
        have hmem : row ∈ decodeRows entries := mem_decodeRows.mpr ⟨entry, hentry, hwork⟩
        rw [hrows] at hmem
        exact absurd hmem List.not_mem_nil
    | idle => simp only [Entry.settle, hwork]
    | prefill => simp only [Entry.settle, hwork]
  · simp only [if_neg hrows]
    split
    · next ids after _ =>
        split
        · next hlength => exact fanOut_forall₂ hlength
        · exact hfail _
    · exact hfail _

/-- An entry the prefill pass left alone, or pushed some of the tail of. -/
def Entry.Pushed (sample : D → Logits Row → InferenceResult (List Token) × D)
    (stopIds : List Token) (entry after : Entry X) : Prop :=
  after = entry ∨ (entry.work = .prefill ∧ ∃ (granted : ℕ) (decoder : D), 0 < granted ∧
    granted ≤ entry.seq.tokens.length - entry.seq.processed ∧
    after = entry.prefilled sample stopIds granted decoder)

theorem prefillPass_forall₂ (chunkSize : ℕ) (entries : List (Entry X)) (budget : PrefillBudget)
    (decoder : D) :
    List.Forall₂ (Entry.Pushed sample stopIds) entries
      (prefillPass sample stopIds chunkSize entries budget decoder).1 := by
  induction entries generalizing budget decoder with
  | nil => exact List.Forall₂.nil
  | cons entry entries ih =>
      rcases prefillPass_cons_cases entry entries budget decoder with
        ⟨_, left, hpass⟩ | ⟨hwork, granted, left, hpos, hle, hpass⟩
      · rw [hpass]
        exact List.Forall₂.cons (Or.inl rfl) (ih left decoder)
      · rw [hpass]
        exact List.Forall₂.cons (Or.inr ⟨hwork, granted, decoder, hpos, hle, rfl⟩) (ih left _)

/-- Classified, perhaps pushed a chunk, perhaps settled: one step. -/
theorem seqStep_of_passes (seq : ActiveSeq X) {pushed settled : Entry X}
    (hpushed : Entry.Pushed sample stopIds (classify maxContextLen seq) pushed)
    (hsettled : ∃ sampled, settled = pushed.settle stopIds fun _ => sampled) :
    SeqStep maxContextLen stopIds seq settled.seq settled.outcome := by
  obtain ⟨sampled, rfl⟩ := hsettled
  rcases classify_cases maxContextLen seq with ⟨hidle, hcase⟩ | ⟨hfinished, hpaused, hnoop, hcase⟩ |
    ⟨hfinished, _, hover, hcase⟩ | ⟨hseq, hcase⟩ | ⟨hseq, hcase⟩ <;> rw [hcase] at hpushed
  · rcases hpushed with rfl | ⟨hwork, _⟩
    · exact .idle hidle
    · simp at hwork
  · rcases hpushed with rfl | ⟨hwork, _⟩
    · exact .noop hfinished hpaused hnoop
    · simp at hwork
  · rcases hpushed with rfl | ⟨hwork, _⟩
    · exact .overlong hfinished hover
    · simp at hwork
  · rcases hpushed with rfl | ⟨_, granted, decoder, hpos, hle, rfl⟩
    · exact .deferred hseq
    · have hgranted : seq.processed + granted ≤ seq.tokens.length := by
        have := hseq.tail
        simp only at hle
        omega
      simp only [Entry.settle, Entry.prefilled]
      rcases prefillChunk_cases granted decoder seq hgranted with ⟨hchunk, _, hresult⟩ |
          ⟨error, after, hresult, _⟩ | ⟨_, logits, token, rest, after, _, _, _, hresult⟩ <;>
        rw [hresult]
      · exact .chunk hseq granted hpos hchunk
      · exact .failed hseq.unfinished hseq.unpaused error
      · exact .stepped hseq.unfinished hseq.unpaused hseq.generated_lt
          (lt_trans (Nat.lt_succ_self _) hseq.tail) hseq.fits token
  · rcases hpushed with rfl | ⟨hwork, _⟩
    · simp only [Entry.settle, Entry.advance]
      cases sampled with
      | error error => exact .failed hseq.unfinished hseq.unpaused error
      | ok token =>
          exact .stepped hseq.unfinished hseq.unpaused hseq.generated_lt
            (by rw [← hseq.tail]; exact Nat.lt_succ_self _) hseq.fits token
    · simp at hwork

/-- **Every sequence takes one step.** -/
theorem stepRound_steps (budget : PrefillBudget) (active : List (ActiveSeq X)) (decoder : D) :
    ∃ entries : List (Entry X),
      (stepRound sample stopIds budget chunkSize active decoder).1 = entries.map Entry.seq ∧
      (stepRound sample stopIds budget chunkSize active decoder).2.1 =
        entries.map Entry.outcome ∧
      List.Forall₂ (fun seq entry => SeqStep (BatchedDecoder.maxContextLen decoder) stopIds seq
        entry.seq entry.outcome) active entries := by
  have hpushed : List.Forall₂ (fun seq pushed => Entry.Pushed sample stopIds
      (classify (BatchedDecoder.maxContextLen decoder) seq) pushed) active _ :=
    List.forall₂_map_left_iff.mp (prefillPass_forall₂ chunkSize _ budget decoder)
  refine ⟨_, rfl, rfl, forall₂_comp ?_ hpushed (decodePass_forall₂ _ _)⟩
  intro seq pushed settled hpushed hsettled
  exact seqStep_of_passes seq hpushed hsettled

/-! ## The first sequence -/

/-- A sequence that got somewhere in a round: it is done, it generated, or more
of it went in. -/
inductive Progressed (seq next : ActiveSeq X) : Prop
  | finished (hfinished : next.finished = true)
  | generated (hgenerated : next.generated = seq.generated + 1)
      (hcap : seq.generated < seq.maxGen)
  | pushed (hgenerated : next.generated = seq.generated) (htokens : next.tokens = seq.tokens)
      (hprocessed : seq.processed < next.processed) (hfits : next.processed < seq.tokens.length)

/-- A chunk of a prompt gets its sequence somewhere. -/
theorem prefillChunk_progressed (granted : ℕ) (decoder : D) {seq : ActiveSeq X}
    (hseq : Prefillable maxContextLen seq) (hpos : 0 < granted)
    (hgranted : seq.processed + granted ≤ seq.tokens.length) :
    Progressed seq (prefillChunk sample stopIds granted decoder seq).1 := by
  rcases prefillChunk_cases granted decoder seq hgranted with ⟨hchunk, _, hresult⟩ |
      ⟨error, after, hresult, _⟩ | ⟨_, logits, token, rest, after, _, _, _, hresult⟩ <;>
    rw [hresult]
  · exact .pushed rfl rfl (Nat.lt_add_of_pos_right hpos) hchunk
  · exact .finished rfl
  · exact .generated rfl hseq.generated_lt

/-- An entry that was pushed if it is prompt work at all. -/
def Entry.Served (sample : D → Logits Row → InferenceResult (List Token) × D)
    (stopIds : List Token) (entry after : Entry X) : Prop :=
  (after = entry ∧ entry.work ≠ .prefill) ∨
    ∃ (granted : ℕ) (decoder : D), 0 < granted ∧
      granted ≤ entry.seq.tokens.length - entry.seq.processed ∧
      after = entry.prefilled sample stopIds granted decoder ∧ entry.work = .prefill

/-- Classified, served, perhaps settled: it got somewhere. -/
theorem progressed_of_passes {seq : ActiveSeq X} {served settled : Entry X}
    (hunfinished : seq.finished = false) (hunpaused : seq.paused = false)
    (hserved : Entry.Served sample stopIds (classify maxContextLen seq) served)
    (hsettled : ∃ sampled, settled = served.settle stopIds fun _ => sampled) :
    Progressed seq settled.seq := by
  obtain ⟨sampled, rfl⟩ := hsettled
  rcases classify_cases maxContextLen seq with ⟨hidle, _⟩ | ⟨_, _, _, hcase⟩ |
    ⟨_, _, _, hcase⟩ | ⟨hseq, hcase⟩ | ⟨hseq, hcase⟩
  · simp [hunfinished, hunpaused] at hidle
  · rw [hcase] at hserved
    rcases hserved with ⟨rfl, _⟩ | ⟨_, _, _, _, _, hwork⟩
    · exact .finished rfl
    · simp at hwork
  · rw [hcase] at hserved
    rcases hserved with ⟨rfl, _⟩ | ⟨_, _, _, _, _, hwork⟩
    · exact .finished rfl
    · simp at hwork
  · rw [hcase] at hserved
    rcases hserved with ⟨_, hwork⟩ | ⟨granted, decoder, hpos, hle, rfl, _⟩
    · exact absurd rfl hwork
    · simp only at hle
      have htail := hseq.tail
      exact prefillChunk_progressed granted decoder hseq hpos (by omega)
  · rw [hcase] at hserved
    rcases hserved with ⟨rfl, _⟩ | ⟨_, _, _, _, _, hwork⟩
    · cases sampled with
      | error error => exact .finished rfl
      | ok token => exact .generated rfl hseq.generated_lt
    · simp at hwork

/-- A budget that is not spent serves the first entry. -/
theorem prefillPass_head (entry : Entry X) (entries : List (Entry X)) {budget : PrefillBudget}
    (decoder : D) (hbudget : budget.remaining ≠ some 0)
    (hready : entry.PrefillReady maxContextLen) :
    ∃ served others, (prefillPass sample stopIds chunkSize (entry :: entries) budget decoder).1 =
      served :: others ∧ entry.Served sample stopIds served := by
  rcases prefillPass_cons_cases entry entries budget decoder with
    ⟨hspent, left, hpass⟩ | ⟨hwork, granted, left, hpos, hle, hpass⟩ <;> rw [hpass]
  · refine ⟨entry, _, rfl, Or.inl ⟨rfl, fun hwork => hbudget (hspent hwork ?_)⟩⟩
    have htail := (hready hwork).tail
    omega
  · exact ⟨_, _, rfl, Or.inr ⟨granted, decoder, hpos, hle, rfl, hwork⟩⟩

/-- **The first sequence is never starved.** If it may run and the budget is not
spent before the round starts, it gets somewhere. -/
theorem stepRound_head {seq : ActiveSeq X} (rest : List (ActiveSeq X)) {budget : PrefillBudget}
    (decoder : D) (hbudget : budget.remaining ≠ some 0) (hunfinished : seq.finished = false)
    (hunpaused : seq.paused = false) :
    ∃ next others, (stepRound sample stopIds budget chunkSize (seq :: rest) decoder).1 =
      next :: others ∧ Progressed seq next := by
  set pushed := prefillPass sample stopIds chunkSize
    ((seq :: rest).map (classify (BatchedDecoder.maxContextLen decoder))) budget decoder
    with hpushed
  obtain ⟨served, others, hserved, hhead⟩ : ∃ served others, pushed.1 = served :: others ∧
      Entry.Served sample stopIds (classify (BatchedDecoder.maxContextLen decoder) seq) served :=
    prefillPass_head _ _ decoder hbudget
      (ready_classify (BatchedDecoder.maxContextLen decoder) seq).1
  have hsettled : List.Forall₂ _ pushed.1 (decodePass sample stopIds pushed.1 pushed.2.2).1 :=
    decodePass_forall₂ _ _
  have hround : (stepRound sample stopIds budget chunkSize (seq :: rest) decoder).1 =
      (decodePass sample stopIds pushed.1 pushed.2.2).1.map Entry.seq := rfl
  rw [hserved] at hsettled hround
  obtain ⟨settled, more, hsettle, _, hresult⟩ := List.forall₂_cons_left_iff.mp hsettled
  rw [hround, hresult]
  exact ⟨_, _, rfl, progressed_of_passes hunfinished hunpaused hhead hsettle⟩

/-! ## Invariants of a round -/

section Rule

variable {Inv : D → List (ActiveSeq X) → Prop}

omit [BatchedDecoder D Row] in
/-- Classification only marks. -/
theorem classify_rule (maxContextLen : ℕ) (decoder : D)
    (hmark : ∀ before seq after, Inv decoder (before ++ seq :: after) → seq.finished = false →
      Inv decoder (before ++ { seq with finished := true } :: after))
    (before active : List (ActiveSeq X)) (hinv : Inv decoder (before ++ active)) :
    Inv decoder (before ++ (active.map (classify maxContextLen)).map Entry.seq) := by
  induction active generalizing before with
  | nil => exact hinv
  | cons seq active ih =>
      have hhead : Inv decoder (before ++ (classify maxContextLen seq).seq :: active) := by
        rcases classify_seq maxContextLen seq with hseq | ⟨hfinished, hseq⟩ <;> rw [hseq]
        · exact hinv
        · exact hmark before seq active hinv hfinished
      have hrest := ih (before ++ [(classify maxContextLen seq).seq]) (by simpa using hhead)
      simpa using hrest

/-- What one chunk keeps, the prefill pass keeps. -/
theorem prefillPass_rule {Ready : ActiveSeq X → Prop} (chunkSize : ℕ)
    (hprefill : ∀ decoder before seq after granted, Inv decoder (before ++ seq :: after) →
      Ready seq → 0 < granted → seq.processed + granted ≤ seq.tokens.length →
      Inv (prefillChunk sample stopIds granted decoder seq).2.2
        (before ++ (prefillChunk sample stopIds granted decoder seq).1 :: after))
    (entries : List (Entry X)) (hready : ∀ entry ∈ entries, entry.work = .prefill → Ready entry.seq)
    (before : List (ActiveSeq X)) (budget : PrefillBudget) (decoder : D)
    (hinv : Inv decoder (before ++ entries.map Entry.seq)) :
    Inv (prefillPass sample stopIds chunkSize entries budget decoder).2.2
      (before ++ (prefillPass sample stopIds chunkSize entries budget decoder).1.map
        Entry.seq) := by
  induction entries generalizing before budget decoder with
  | nil => exact hinv
  | cons entry entries ih =>
      have hrest := ih fun entry hentry => hready entry (List.mem_cons_of_mem _ hentry)
      rcases prefillPass_cons_cases entry entries budget decoder with
        ⟨_, left, hpass⟩ | ⟨hwork, granted, left, hpos, hle, hpass⟩ <;> rw [hpass]
      · have hkept := hrest (before ++ [entry.seq]) left decoder (by simpa using hinv)
        simpa using hkept
      · have hseq := hready entry List.mem_cons_self hwork
        have hhead := hprefill decoder before entry.seq (entries.map Entry.seq) granted hinv hseq
          hpos (by omega)
        have hkept := hrest
          (before ++ [(prefillChunk sample stopIds granted decoder entry.seq).1]) left _
          (by simpa using hhead)
        simpa [Entry.prefilled] using hkept

omit [BatchedDecoder D Row] in
/-- A classified sequence with work to do is as it was. -/
theorem classify_seq_of_work {maxContextLen : ℕ} {seq : ActiveSeq X}
    (hwork : (classify maxContextLen seq).work ≠ .idle) :
    (classify maxContextLen seq).seq = seq := by
  rcases classify_cases maxContextLen seq with ⟨_, hcase⟩ | ⟨_, _, _, hcase⟩ | ⟨_, _, _, hcase⟩ |
    ⟨_, hcase⟩ | ⟨_, hcase⟩ <;> rw [hcase] at hwork ⊢ <;> simp at hwork

/-- **An invariant of decoder and sequences** that marking, one chunk and the
decode pass keep is kept by the round. Whatever is prefilled or decoded is as it
was when the round began. -/
theorem stepRound_rule (budget : PrefillBudget) (active : List (ActiveSeq X)) (decoder : D)
    (hmax : BatchedDecoder.maxContextLen decoder = maxContextLen)
    (hmark : ∀ before seq after, Inv decoder (before ++ seq :: after) → seq.finished = false →
      Inv decoder (before ++ { seq with finished := true } :: after))
    (hprefill : ∀ decoder before seq after granted, Inv decoder (before ++ seq :: after) →
      Prefillable maxContextLen seq ∧ seq ∈ active → 0 < granted →
      seq.processed + granted ≤ seq.tokens.length →
      Inv (prefillChunk sample stopIds granted decoder seq).2.2
        (before ++ (prefillChunk sample stopIds granted decoder seq).1 :: after))
    (hdecode : ∀ decoder entries, Inv decoder (entries.map Entry.seq) →
      (∀ entry ∈ entries, entry.DecodeReady maxContextLen) →
      (∀ entry ∈ entries, ∀ row, entry.work = .decode row → entry.seq ∈ active) →
      Inv (decodePass sample stopIds entries decoder).2
        ((decodePass sample stopIds entries decoder).1.map Entry.seq))
    (hinv : Inv decoder active) :
    Inv (stepRound sample stopIds budget chunkSize active decoder).2.2
      (stepRound sample stopIds budget chunkSize active decoder).1 := by
  have hclassified := classify_rule maxContextLen decoder hmark [] active hinv
  have hready : ∀ entry ∈ active.map (classify maxContextLen),
      entry.PrefillReady maxContextLen ∧ entry.DecodeReady maxContextLen ∧
        (entry.work ≠ .idle → entry.seq ∈ active) := by
    intro entry hentry
    obtain ⟨seq, hseq, rfl⟩ := List.mem_map.mp hentry
    obtain ⟨hprefillReady, hdecodeReady⟩ := ready_classify maxContextLen seq
    exact ⟨hprefillReady, hdecodeReady, fun hwork => by rwa [classify_seq_of_work hwork]⟩
  have hpushed := prefillPass_rule chunkSize hprefill _
    (fun entry hentry hwork =>
      ⟨(hready entry hentry).1 hwork, (hready entry hentry).2.2 (by simp [hwork])⟩)
    [] budget decoder hclassified
  -- a decode row passed the prefill pass untouched
  have hrows : ∀ entry ∈ (prefillPass sample stopIds chunkSize
      (active.map (classify maxContextLen)) budget decoder).1,
      (∃ row, entry.work = .decode row) → entry ∈ active.map (classify maxContextLen) := by
    rintro entry hentry ⟨row, hwork⟩
    obtain ⟨classified, hmem, hpush⟩ :=
      exists_of_forall₂_right (prefillPass_forall₂ _ _ _ _) hentry
    rcases hpush with rfl | ⟨hprefill', granted, decoder', _, _, rfl⟩
    · exact hmem
    · simp [Entry.prefilled, hprefill'] at hwork
  subst hmax
  refine hdecode _ _ hpushed (fun entry hentry row hwork => ?_) fun entry hentry row hwork => ?_
  · exact (hready _ (hrows entry hentry ⟨row, hwork⟩)).2.1 row hwork
  · exact (hready _ (hrows entry hentry ⟨row, hwork⟩)).2.2 (by simp [hwork])

end Rule

end Passes

end BurnLm.Inference
