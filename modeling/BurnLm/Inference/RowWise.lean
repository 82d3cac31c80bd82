/-
# Rounds of a row-wise decoder

Where a row of logits depends on the tokens of its own lane only, and every token
is picked from its own row, a fused round does to each sequence what that
sequence's own tokens say: `ActiveSeq.stepAlone`. Which rows shared the call, and
in which order, does not show.

The rounds here are those of a driver that paces nothing: no budget, and prompts
go in whole.
-/

import BurnLm.Inference.Solo

namespace BurnLm.Inference

open BurnLm.Math

universe u v w x c

variable {X : Type x}

/-! ## Rounds that pace nothing -/

section Whole

variable {D : Type u} {Row : Type v} [BatchedDecoder D Row]
  {sample : D → Logits Row → InferenceResult (List Token) × D} {stopIds : List Token}
  {maxContextLen : ℕ}

/-- What is left of an entry's prompt. -/
def Entry.tail (entry : Entry X) : ℕ := entry.seq.tokens.length - entry.seq.processed

/-- One entry of a pass that paces nothing. -/
theorem prefillPass_cons_whole {entry : Entry X} (hready : entry.PrefillReady maxContextLen)
    (entries : List (Entry X)) (decoder : D) :
    (entry.work ≠ .prefill ∧ prefillPass sample stopIds 0 (entry :: entries) ⟨none⟩ decoder =
      (entry :: (prefillPass sample stopIds 0 entries ⟨none⟩ decoder).1,
        (prefillPass sample stopIds 0 entries ⟨none⟩ decoder).2)) ∨
    (entry.work = .prefill ∧ prefillPass sample stopIds 0 (entry :: entries) ⟨none⟩ decoder =
      (entry.prefilled sample stopIds entry.tail decoder ::
          (prefillPass sample stopIds 0 entries ⟨none⟩
            (prefillChunk sample stopIds entry.tail decoder entry.seq).2.2).1,
        (prefillPass sample stopIds 0 entries ⟨none⟩
          (prefillChunk sample stopIds entry.tail decoder entry.seq).2.2).2)) := by
  cases hwork : entry.work with
  | idle => exact Or.inl ⟨by simp, by simp only [prefillPass, hwork]⟩
  | decode row => exact Or.inl ⟨by simp, by simp only [prefillPass, hwork]⟩
  | prefill =>
      have hlive := (hready hwork).tail
      obtain ⟨granted, hgranted⟩ : ∃ granted, entry.tail = granted + 1 :=
        Nat.exists_eq_succ_of_ne_zero (by unfold Entry.tail; omega)
      have hwanted : entry.seq.tokens.length - entry.seq.processed = granted + 1 := hgranted
      refine Or.inr ⟨rfl, ?_⟩
      simp only [prefillPass, hwork, if_true, hwanted, PrefillBudget.admitPrefill, hgranted,
        Entry.prefilled]

/-- The last chunk of a prompt samples. -/
theorem prefillChunk_whole (decoder : D) {seq : ActiveSeq X} {granted : ℕ}
    (hall : seq.processed + granted = seq.tokens.length) :
    let called := BatchedDecoder.prefill decoder seq.slot (chunkOf seq granted) seq.processed
    let sampled := sampleRows sample 1 called.2 called.1
    let advanced := advanceOrFail stopIds seq (firstToken sampled.1)
    prefillChunk sample stopIds granted decoder seq = (advanced.1, advanced.2, sampled.2) := by
  have hlast : ¬seq.processed + granted < seq.tokens.length := by omega
  simp only [prefillChunk, if_neg hlast]
  rfl

/-- A decode pass that sampled hands the ids back. -/
theorem decodePass_ok {entries : List (Entry X)} (hrows : decodeRows entries ≠ []) {decoder after : D}
    {ids : List Token} (hlength : ids.length = (decodeRows entries).length)
    (hsampled : sampleRows sample (decodeRows entries).length
      (BatchedDecoder.decode decoder (decodeRows entries)).2
      (BatchedDecoder.decode decoder (decodeRows entries)).1 = (.ok ids, after)) :
    decodePass sample stopIds entries decoder = (fanOut stopIds entries ids, after) := by
  simp only [decodePass, if_neg hrows, hsampled, if_pos hlength]

/-- A decode pass that did not sample fails every row. -/
theorem decodePass_error {entries : List (Entry X)} (hrows : decodeRows entries ≠ [])
    {decoder after : D} {error : InferenceError}
    (hsampled : sampleRows sample (decodeRows entries).length
      (BatchedDecoder.decode decoder (decodeRows entries)).2
      (BatchedDecoder.decode decoder (decodeRows entries)).1 = (.error error, after)) :
    decodePass sample stopIds entries decoder = (failRows stopIds entries error, after) := by
  simp only [decodePass, if_neg hrows, hsampled]

omit [BatchedDecoder D Row] in
/-- Where there are rows to fail, one fails. -/
theorem exists_failed_of_failRows {entries : List (Entry X)} (hrows : decodeRows entries ≠ [])
    (error : InferenceError) :
    ∃ entry ∈ failRows stopIds entries error, ∃ error, entry.outcome = .failed error := by
  obtain ⟨row, hrow⟩ := List.exists_mem_of_ne_nil _ hrows
  obtain ⟨entry, hentry, hwork⟩ := mem_decodeRows.mp hrow
  refine ⟨_, List.mem_map_of_mem hentry, error, ?_⟩
  simp only [hwork]
  rfl

end Whole

/-! ## The contract -/

/-- The step of a sequence whose next token depends on its own tokens only. -/
def ActiveSeq.stepAlone (contextLen : ℕ) (stopIds : List Token) (next : List Token → Token)
    (seq : ActiveSeq X) : ActiveSeq X × StepOutcome :=
  match (classify contextLen seq).work with
  | .idle => ((classify contextLen seq).seq, (classify contextLen seq).outcome)
  | _ => advanceOrFail stopIds seq (.ok (next seq.tokens))

/-- A step alone keeps what is not the round's to change. -/
theorem ActiveSeq.stepAlone_slot (contextLen : ℕ) (stopIds : List Token)
    (next : List Token → Token) (seq : ActiveSeq X) :
    (seq.stepAlone contextLen stopIds next).1.slot = seq.slot := by
  rcases classify_cases contextLen seq with ⟨_, hcase⟩ | ⟨_, _, _, hcase⟩ | ⟨_, _, _, hcase⟩ |
    ⟨_, hcase⟩ | ⟨_, hcase⟩ <;> simp only [stepAlone, hcase] <;> rfl

theorem classify_slot (contextLen : ℕ) (seq : ActiveSeq X) :
    (classify contextLen seq).seq.slot = seq.slot := by
  rcases classify_seq contextLen seq with hseq | ⟨_, hseq⟩ <;> rw [hseq]

/-- A sequence with work to do is unfinished. -/
theorem unfinished_of_work {contextLen : ℕ} {seq : ActiveSeq X}
    (hwork : (classify contextLen seq).work ≠ .idle) : seq.finished = false := by
  rcases classify_cases contextLen seq with ⟨_, hcase⟩ | ⟨_, _, _, hcase⟩ | ⟨_, _, _, hcase⟩ |
    ⟨hseq, _⟩ | ⟨hseq, _⟩
  · simp [hcase] at hwork
  · simp [hcase] at hwork
  · simp [hcase] at hwork
  · exact hseq.unfinished
  · exact hseq.unfinished

/-- Only a sequence that still may generate is refused for its length. -/
theorem generated_lt_of_failed {contextLen : ℕ} {seq : ActiveSeq X} {error : InferenceError}
    (hfailed : (classify contextLen seq).outcome = .failed error) :
    seq.generated < seq.maxGen := by
  by_contra hcap
  have hnoop : seq.maxGen ≤ seq.generated ∨ seq.tokens.length ≤ seq.processed := Or.inl (by omega)
  unfold classify at hfailed
  rw [if_pos hnoop] at hfailed
  split at hfailed
  · simp at hfailed
  · split at hfailed <;> simp at hfailed

/-- What an entry of prompt work becomes by its own tokens. -/
def Entry.filledAlone (stopIds : List Token) (next : List Token → Token) (entry : Entry X) :
    Entry X :=
  match entry.work with
  | .prefill => entry.advance stopIds (.ok (next entry.seq.tokens))
  | _ => entry

theorem Entry.filledAlone_of_prefill {stopIds : List Token} {next : List Token → Token}
    {entry : Entry X} (hwork : entry.work = .prefill) :
    entry.filledAlone stopIds next = entry.advance stopIds (.ok (next entry.seq.tokens)) := by
  simp only [filledAlone, hwork]

theorem Entry.filledAlone_of_ne {stopIds : List Token} {next : List Token → Token}
    {entry : Entry X} (hwork : entry.work ≠ .prefill) :
    entry.filledAlone stopIds next = entry := by
  unfold filledAlone
  split
  · next hprefill => exact absurd hprefill hwork
  · rfl

/-- Filling is no business of the rows. -/
theorem Entry.filledAlone_work (stopIds : List Token) (next : List Token → Token)
    (entry : Entry X) : (entry.filledAlone stopIds next).work = entry.work := by
  unfold filledAlone
  split <;> rfl

theorem Entry.filledAlone_slot (stopIds : List Token) (next : List Token → Token)
    (entry : Entry X) : (entry.filledAlone stopIds next).seq.slot = entry.seq.slot := by
  unfold filledAlone
  split <;> rfl

/-- What an entry with a decode row becomes by its own tokens. -/
def Entry.settledAlone (stopIds : List Token) (next : List Token → Token) (entry : Entry X) :
    Entry X :=
  entry.settle stopIds fun _ => .ok (next entry.seq.tokens)

/-- Classified, filled and settled, each by its own tokens: the step alone. -/
theorem settledAlone_filledAlone_classify (contextLen : ℕ) (stopIds : List Token)
    (next : List Token → Token) (seq : ActiveSeq X) :
    let settled := ((classify contextLen seq).filledAlone stopIds next).settledAlone stopIds next
    (settled.seq, settled.outcome) = seq.stepAlone contextLen stopIds next := by
  rcases classify_cases contextLen seq with ⟨_, hcase⟩ | ⟨_, _, _, hcase⟩ | ⟨_, _, _, hcase⟩ |
    ⟨_, hcase⟩ | ⟨_, hcase⟩ <;>
    simp only [ActiveSeq.stepAlone, Entry.filledAlone, Entry.settledAlone, Entry.settle,
      Entry.advance, hcase]

/-- The sequences and outcomes of a round in which each steps alone. -/
theorem map_settled_filled_classify (contextLen : ℕ) (stopIds : List Token)
    (next : List Token → Token) (active : List (ActiveSeq X)) :
    let settled := ((active.map (classify contextLen)).map (Entry.filledAlone stopIds next)).map
      (Entry.settledAlone stopIds next)
    settled.map Entry.seq = active.map (fun seq => (seq.stepAlone contextLen stopIds next).1) ∧
      settled.map Entry.outcome =
        active.map fun seq => (seq.stepAlone contextLen stopIds next).2 := by
  simp only [List.map_map]
  exact ⟨List.map_congr_left fun seq _ => congrArg Prod.fst
      (settledAlone_filledAlone_classify contextLen stopIds next seq),
    List.map_congr_left fun seq _ => congrArg Prod.snd
      (settledAlone_filledAlone_classify contextLen stopIds next seq)⟩

/-- Rows sampled as their own tokens say settle as their own tokens say. -/
theorem map_settle_eq {stopIds : List Token} {next : List Token → Token}
    {entries : List (Entry X)} {sampled : DecodeRow → InferenceResult Token}
    (hsampled : ∀ entry ∈ entries, ∀ row, entry.work = .decode row →
      sampled row = .ok (next entry.seq.tokens)) :
    entries.map (Entry.settle stopIds sampled) = entries.map (Entry.settledAlone stopIds next) := by
  refine List.map_congr_left fun entry hentry => ?_
  cases hwork : entry.work with
  | decode row =>
      simp only [Entry.settledAlone, Entry.settle, hwork, hsampled entry hentry row hwork]
  | idle => simp only [Entry.settledAlone, Entry.settle, hwork]
  | prefill => simp only [Entry.settledAlone, Entry.settle, hwork]

/-- Where there are no rows nothing settles. -/
theorem map_settledAlone_of_no_rows {stopIds : List Token} {next : List Token → Token}
    {entries : List (Entry X)} (hrows : ∀ entry ∈ entries, ∀ row, entry.work ≠ .decode row) :
    entries.map (Entry.settledAlone stopIds next) = entries := by
  refine (List.map_congr_left fun entry hentry => ?_).trans (List.map_id entries)
  cases hwork : entry.work with
  | decode row => exact absurd hwork (hrows entry hentry row)
  | idle => simp only [id, Entry.settledAlone, Entry.settle, hwork]
  | prefill => simp only [id, Entry.settledAlone, Entry.settle, hwork]

/-- What each lane holds and what it will, lane by lane: a row's token is the one
between the two. -/
theorem exists_owed {contextLen : ℕ} {entries : List (Entry X)}
    (hready : ∀ entry ∈ entries, entry.DecodeReady contextLen)
    (hslots : (entries.map fun entry => entry.seq.slot).Nodup) :
    ∃ pushed tokens : ℕ → List Token,
      (∀ entry ∈ entries,
        pushed entry.seq.slot = entry.seq.tokens.take entry.seq.processed ∧
          tokens entry.seq.slot = entry.seq.tokens) ∧
      ∀ row ∈ decodeRows entries, pushed row.slot ++ [row.token] = tokens row.slot ∧
        (pushed row.slot).length + 1 ≤ contextLen := by
  obtain ⟨tokens, htokens⟩ := exists_lookup hslots fun entry => entry.seq.tokens
  obtain ⟨pushed, hpushed⟩ := exists_lookup hslots
    fun entry => entry.seq.tokens.take entry.seq.processed
  refine ⟨pushed, tokens, fun entry hentry => ⟨hpushed entry hentry, htokens entry hentry⟩,
    fun row hmem => ?_⟩
  obtain ⟨entry, hentry, hwork⟩ := mem_decodeRows.mp hmem
  obtain ⟨hseq, rfl⟩ := hready entry hentry row hwork
  rw [hpushed entry hentry, htokens entry hentry]
  refine ⟨take_append_owed hseq, ?_⟩
  have hlength := congrArg List.length (take_append_owed hseq)
  rw [List.length_append, List.length_singleton] at hlength
  exact hlength.le.trans hseq.fits

namespace LaneModel

variable {D : Type u} {Row : Type v} {Task : Type w} {C : Type c}

/-- A call that answered a row for each of these lanes, which now hold the tokens
they were answered for. -/
structure Answered (model : LaneModel D C) (terms : Terms Row Task) (before after : D)
    (lanes : List (ℕ × List Token)) (logits : Logits Row) : Prop where
  rows_eq : logits.rows = lanes.map fun lane => terms.rowAfter lane.2
  sound : model.sound after
  held : ∀ lane ∈ lanes, model.content after lane.1 = model.holding lane.2
  other : ∀ lane, lane ∉ lanes.map Prod.fst →
    model.content after lane = model.content before lane

/-- A decoder whose logits for a lane depend only on the tokens pushed into it,
and a sampler that picks every token from its own row. Within the context, a call
fails only where calls may fail at all. -/
structure RowWise [BatchedDecoder D Row] (model : LaneModel D C) (terms : Terms Row Task)
    (sample : D → Logits Row → InferenceResult (List Token) × D) (mayFail : Prop) : Prop where
  context_eq : ∀ decoder : D, BatchedDecoder.maxContextLen decoder = terms.contextLen
  prefill_answers : ∀ {decoder : D} {slot : ℕ} {tokens : List Token} {position : ℕ}
    {pushed : List Token}, model.CanPrefill decoder slot tokens position pushed →
      (pushed ++ tokens).length ≤ terms.contextLen →
        let called := BatchedDecoder.prefill decoder slot tokens position
        (mayFail ∧ ∃ error, called.1 = .error error) ∨
          ∃ logits, called.1 = .ok logits ∧
            model.Answered terms decoder called.2 [(slot, pushed ++ tokens)] logits
  decode_answers : ∀ {decoder : D} {rows : List DecodeRow} {pushed : DecodeRow → List Token},
    model.CanDecode decoder rows pushed →
      (∀ row ∈ rows, (pushed row).length + 1 ≤ terms.contextLen) →
        let called := BatchedDecoder.decode decoder rows
        (mayFail ∧ ∃ error, called.1 = .error error) ∨
          ∃ logits, called.1 = .ok logits ∧
            model.Answered terms decoder called.2
              (rows.map fun row => (row.slot, pushed row ++ [row.token])) logits
  sample_picks : ∀ {decoder : D} (logits : Logits Row), model.sound decoder →
    (mayFail ∧ ∃ error, (sample decoder logits).1 = .error error) ∨
      ((sample decoder logits).1 = .ok (logits.rows.map terms.pick) ∧
        model.sound (sample decoder logits).2 ∧
        ∀ lane, model.content (sample decoder logits).2 lane = model.content decoder lane)

/-- Decoder and sequences in step: slots are apart, and an unfinished sequence's
lane holds its processed tokens. -/
structure Holding (model : LaneModel D C) (decoder : D) (active : List (ActiveSeq X)) : Prop where
  sound : model.sound decoder
  nodup : (active.map ActiveSeq.slot).Nodup
  valid : ∀ seq ∈ active, model.valid seq.slot
  processed_le : ∀ seq ∈ active, seq.processed ≤ seq.tokens.length
  held : ∀ seq ∈ active, seq.finished = false →
    model.content decoder seq.slot = model.holding (seq.tokens.take seq.processed)

variable [BatchedDecoder D Row] {model : LaneModel D C} {terms : Terms Row Task}
  {sample : D → Logits Row → InferenceResult (List Token) × D} {mayFail : Prop}

/-- Sampling what a call answered picks what follows in every lane. -/
theorem RowWise.sampleRows (hrow : model.RowWise terms sample mayFail) {before after : D}
    {lanes : List (ℕ × List Token)} {logits : Logits Row}
    (hanswered : model.Answered terms before after lanes logits) :
    let sampled := sampleRows sample lanes.length after (.ok logits)
    (mayFail ∧ ∃ error, sampled.1 = .error error) ∨
      (sampled.1 = .ok (lanes.map fun lane => terms.next lane.2) ∧ model.sound sampled.2 ∧
        ∀ lane, model.content sampled.2 lane = model.content after lane) := by
  have hwidth : expectRows lanes.length logits = .ok logits :=
    if_pos (by rw [hanswered.rows_eq, List.length_map])
  have hsampled : Inference.sampleRows sample lanes.length after (.ok logits) =
      sample after logits := by
    have hbind : (Except.ok logits >>= expectRows lanes.length) = .ok logits := hwidth
    unfold Inference.sampleRows
    rw [hbind]
  rw [hsampled]
  rcases hrow.sample_picks logits hanswered.sound with hfails | ⟨hids, hsound, hstill⟩
  · exact Or.inl hfails
  · refine Or.inr ⟨?_, hsound, hstill⟩
    rw [hids, hanswered.rows_eq, List.map_map]
    rfl

/-! ## The prefill pass -/

/-- A whole prompt steps its sequence as its own tokens say. -/
theorem RowWise.prefillChunk (hrow : model.RowWise terms sample mayFail) {decoder : D}
    {seq : ActiveSeq X} (hsound : model.sound decoder) (hvalid : model.valid seq.slot)
    (hseq : Prefillable terms.contextLen seq)
    (hheld : model.content decoder seq.slot = model.holding (seq.tokens.take seq.processed)) :
    let pushed := prefillChunk sample terms.stopIds (seq.tokens.length - seq.processed) decoder seq
    (mayFail ∧ ∃ error, pushed.2.1 = .failed error) ∨
      (pushed.1 = (advanceOrFail terms.stopIds seq (.ok (terms.next seq.tokens))).1 ∧
        pushed.2.1 = (advanceOrFail terms.stopIds seq (.ok (terms.next seq.tokens))).2 ∧
        model.sound pushed.2.2 ∧
        model.content pushed.2.2 seq.slot = model.holding seq.tokens ∧
        ∀ lane, lane ≠ seq.slot → model.content pushed.2.2 lane = model.content decoder lane) := by
  have htail := hseq.tail
  have hend : seq.processed + (seq.tokens.length - seq.processed) = seq.tokens.length := by omega
  have hall : seq.tokens.take seq.processed ++
      chunkOf seq (seq.tokens.length - seq.processed) = seq.tokens := by
    rw [take_append_chunkOf, hend, List.take_length]
  have hcan : model.CanPrefill decoder seq.slot (chunkOf seq (seq.tokens.length - seq.processed))
      seq.processed (seq.tokens.take seq.processed) :=
    { sound := hsound
      valid := hvalid
      held := hheld
      position_eq := (List.length_take_of_le (by omega)).symm
      nonempty := by
        rw [← List.length_pos_iff, chunkOf, List.length_drop, List.length_take]
        omega }
  have hcalled := hrow.prefill_answers hcan (by rw [hall]; exact hseq.fits)
  rw [hall] at hcalled
  have hchunk := @prefillChunk_whole X D Row _ sample terms.stopIds decoder seq _ hend
  dsimp only at hchunk hcalled ⊢
  rw [hchunk]
  rcases hcalled with ⟨hfails, error, herror⟩ | ⟨logits, hlogits, hanswered⟩
  · rw [herror]
    exact Or.inl ⟨hfails, error, rfl⟩
  rw [hlogits]
  have hsampled := hrow.sampleRows hanswered
  simp only [List.length_cons, List.length_nil, List.map_cons, List.map_nil, Nat.zero_add]
    at hsampled
  rcases hsampled with ⟨hfails, error, herror⟩ | ⟨hids, hsound', hstill⟩
  · rw [herror]
    exact Or.inl ⟨hfails, error, rfl⟩
  · rw [hids]
    refine Or.inr ⟨rfl, rfl, hsound', ?_, fun lane hlane => ?_⟩
    · rw [hstill]
      exact hanswered.held (seq.slot, seq.tokens) (List.mem_singleton_self _)
    · rw [hstill]
      exact hanswered.other lane (by simpa using hlane)

/-- The prefill pass steps its prompts as their own tokens say, or some call
fails. -/
theorem RowWise.prefillPass (hrow : model.RowWise terms sample mayFail)
    {entries : List (Entry X)} {decoder : D} (hsound : model.sound decoder)
    (hready : ∀ entry ∈ entries, entry.PrefillReady terms.contextLen)
    (hslots : (entries.map fun entry => entry.seq.slot).Nodup)
    (hvalid : ∀ entry ∈ entries, model.valid entry.seq.slot)
    (hheld : ∀ entry ∈ entries, entry.work = .prefill → model.content decoder entry.seq.slot =
      model.holding (entry.seq.tokens.take entry.seq.processed)) :
    let pass := prefillPass sample terms.stopIds 0 entries ⟨none⟩ decoder
    (mayFail ∧ ∃ entry ∈ pass.1, entry.work = .prefill ∧ ∃ error, entry.outcome = .failed error) ∨
      (pass.1 = entries.map (Entry.filledAlone terms.stopIds terms.next) ∧
        model.sound pass.2.2 ∧
        (∀ entry ∈ entries, entry.work = .prefill →
          model.content pass.2.2 entry.seq.slot = model.holding entry.seq.tokens) ∧
        ∀ lane, (∀ entry ∈ entries, entry.work = .prefill → entry.seq.slot ≠ lane) →
          model.content pass.2.2 lane = model.content decoder lane) := by
  induction entries generalizing decoder with
  | nil => exact Or.inr ⟨rfl, hsound, by simp, fun _ _ => rfl⟩
  | cons entry entries ih =>
      rw [List.map_cons, List.nodup_cons] at hslots
      have hapart : ∀ other ∈ entries, other.seq.slot ≠ entry.seq.slot := by
        intro other hother hsame
        exact hslots.1 (List.mem_map.mpr ⟨other, hother, hsame⟩)
      have hmem : ∀ other ∈ entries, other ∈ entry :: entries :=
        fun other hother => List.mem_cons_of_mem _ hother
      have hrest := fun decoder' hsound' => @ih decoder' hsound'
        (fun other hother => hready other (hmem other hother)) hslots.2
        (fun other hother => hvalid other (hmem other hother))
      rcases @prefillPass_cons_whole X D Row _ sample terms.stopIds terms.contextLen entry
        (hready entry List.mem_cons_self) entries decoder with ⟨hwork, hpass⟩ | ⟨hwork, hpass⟩
      · rw [hpass]
        rcases hrest decoder hsound fun other hother => hheld other (hmem other hother) with
          ⟨hfails, failed, hfailed, hwhy⟩ | ⟨hentries, hsound', hown, hstill⟩
        · exact Or.inl ⟨hfails, failed, List.mem_cons_of_mem _ hfailed, hwhy⟩
        refine Or.inr ⟨?_, hsound', fun other hother hprefill => ?_, fun lane hlane => ?_⟩
        · rw [List.map_cons, Entry.filledAlone_of_ne hwork, ← hentries]
        · rcases List.mem_cons.mp hother with rfl | hother
          · exact absurd hprefill hwork
          · exact hown other hother hprefill
        · exact hstill lane fun other hother => hlane other (hmem other hother)
      · rw [hpass]
        rcases hrow.prefillChunk hsound (hvalid entry List.mem_cons_self)
            (hready entry List.mem_cons_self hwork) (hheld entry List.mem_cons_self hwork) with
          ⟨hfails, error, herror⟩ | ⟨hseq, houtcome, hpushed, hself, hothers⟩
        · exact Or.inl ⟨hfails, _, List.mem_cons_self, hwork, error, herror⟩
        -- the lanes of the entries behind stood still
        rcases hrest _ hpushed fun other hother hprefill => by
            rw [hothers _ (hapart other hother)]
            exact hheld other (hmem other hother) hprefill with
          ⟨hfails, failed, hfailed, hwhy⟩ | ⟨hentries, hsound', hown, hstill⟩
        · exact Or.inl ⟨hfails, failed, List.mem_cons_of_mem _ hfailed, hwhy⟩
        refine Or.inr ⟨?_, hsound', fun other hother hprefill => ?_, fun lane hlane => ?_⟩
        · rw [List.map_cons, Entry.filledAlone_of_prefill hwork, ← hentries]
          exact congrArg₂ List.cons (by rw [Entry.prefilled, Entry.tail, hseq, houtcome]; rfl) rfl
        · rcases List.mem_cons.mp hother with rfl | hother
          · exact (hstill _ fun behind hbehind _ => hapart behind hbehind).trans hself
          · exact hown other hother hprefill
        · exact (hstill lane fun other hother => hlane other (hmem other hother)).trans
            (hothers lane (hlane entry List.mem_cons_self hwork).symm)

/-! ## The decode pass -/

/-- The decode pass steps its rows as their own tokens say, or the call fails for
all of them. -/
theorem RowWise.decodePass (hrow : model.RowWise terms sample mayFail)
    {entries : List (Entry X)} {decoder : D} (hsound : model.sound decoder)
    (hready : ∀ entry ∈ entries, entry.DecodeReady terms.contextLen)
    (hslots : (entries.map fun entry => entry.seq.slot).Nodup)
    (hvalid : ∀ entry ∈ entries, model.valid entry.seq.slot)
    (hheld : ∀ entry ∈ entries, (∃ row, entry.work = .decode row) →
      model.content decoder entry.seq.slot =
        model.holding (entry.seq.tokens.take entry.seq.processed)) :
    let pass := decodePass sample terms.stopIds entries decoder
    (mayFail ∧ ∃ entry ∈ pass.1, ∃ error, entry.outcome = .failed error) ∨
      (pass.1 = entries.map (Entry.settledAlone terms.stopIds terms.next) ∧
        model.sound pass.2 ∧
        (∀ entry ∈ entries, (∃ row, entry.work = .decode row) →
          model.content pass.2 entry.seq.slot = model.holding entry.seq.tokens) ∧
        ∀ lane, (∀ row ∈ decodeRows entries, row.slot ≠ lane) →
          model.content pass.2 lane = model.content decoder lane) := by
  intro pass
  by_cases hrows : decodeRows entries = []
  · have hpass : pass = (entries, decoder) := if_pos hrows
    have hnone : ∀ entry ∈ entries, ∀ row, entry.work ≠ .decode row := by
      intro entry hentry row hwork
      exact List.ne_nil_of_mem (mem_decodeRows.mpr ⟨entry, hentry, hwork⟩) hrows
    rw [hpass]
    refine Or.inr ⟨(map_settledAlone_of_no_rows hnone).symm, hsound, ?_, fun _ _ => rfl⟩
    rintro entry hentry ⟨row, hwork⟩
    exact absurd hwork (hnone entry hentry row)
  obtain ⟨pushed, tokens, hlanes, howed⟩ := exists_owed hready hslots
  have hcan : model.CanDecode decoder (decodeRows entries) fun row => pushed row.slot := by
    refine ⟨hsound, fun row hmem => ?_, fun row hmem => ?_, nodup_decodeRows hready hslots, hrows⟩
    all_goals
      obtain ⟨entry, hentry, hwork⟩ := mem_decodeRows.mp hmem
      obtain ⟨_, rfl⟩ := hready entry hentry row hwork
    · exact hvalid entry hentry
    · rw [(hlanes entry hentry).1]
      exact hheld entry hentry ⟨_, hwork⟩
  have hgiven : ((decodeRows entries).map fun row => (row.slot, pushed row.slot ++ [row.token])) =
      (decodeRows entries).map fun row => (row.slot, tokens row.slot) :=
    List.map_congr_left fun row hmem => by rw [(howed row hmem).1]
  have hcalled := hrow.decode_answers hcan fun row hmem => (howed row hmem).2
  rw [hgiven] at hcalled
  rcases hcalled with ⟨hfails, error, herror⟩ | ⟨logits, hlogits, hanswered⟩
  · have hpass : pass = _ :=
      @decodePass_error X D Row _ sample terms.stopIds entries hrows decoder _ error
        (congrArg (Inference.sampleRows sample _ _) herror)
    rw [hpass]
    exact Or.inl ⟨hfails, exists_failed_of_failRows hrows error⟩
  have hsampled := hrow.sampleRows hanswered
  rw [List.length_map, ← hlogits, List.map_map] at hsampled
  rcases hsampled with ⟨hfails, error, herror⟩ | ⟨hids, hsound', hstill⟩
  · have hpass : pass = _ := decodePass_error hrows (Prod.ext herror rfl)
    rw [hpass]
    exact Or.inl ⟨hfails, exists_failed_of_failRows hrows error⟩
  have hpass : pass = _ := decodePass_ok hrows (List.length_map _) (Prod.ext hids rfl)
  rw [hpass, fanOut_eq_map]
  refine Or.inr ⟨map_settle_eq fun entry hentry row hwork => ?_, hsound', ?_, fun lane hlane => ?_⟩
  · obtain ⟨_, rfl⟩ := hready entry hentry row hwork
    simp only [Function.comp_apply, (hlanes entry hentry).2]
  · rintro entry hentry ⟨row, hwork⟩
    have hmem := mem_decodeRows.mpr ⟨entry, hentry, hwork⟩
    obtain ⟨_, rfl⟩ := hready entry hentry row hwork
    rw [hstill, ← (hlanes entry hentry).2]
    exact hanswered.held _ (List.mem_map_of_mem hmem)
  · rw [hstill]
    refine hanswered.other lane fun hmem => ?_
    rw [List.map_map] at hmem
    obtain ⟨row, hrow', hsame⟩ := List.mem_map.mp hmem
    exact hlane row hrow' hsame

/-! ## The round -/

omit [BatchedDecoder D Row] in
/-- Decoder and sequences stay in step when each sequence steps alone and the
lanes of those that got a token hold the tokens before it. -/
theorem Holding.step {before after : D} {active : List (ActiveSeq X)}
    (hholding : model.Holding before active) (hsound : model.sound after)
    (hidle : ∀ seq ∈ active, (classify terms.contextLen seq).work = .idle →
      model.content after seq.slot = model.content before seq.slot)
    (hpushed : ∀ seq ∈ active, (classify terms.contextLen seq).work ≠ .idle →
      model.content after seq.slot = model.holding seq.tokens) :
    model.Holding after
      (active.map fun seq => (seq.stepAlone terms.contextLen terms.stopIds terms.next).1) where
  sound := hsound
  nodup := by
    have hslots := hholding.nodup
    simpa [List.map_map, Function.comp_def, ActiveSeq.stepAlone_slot] using hslots
  valid := by
    simpa [ActiveSeq.stepAlone_slot] using hholding.valid
  processed_le := by
    intro stepped hstepped
    obtain ⟨seq, hseq, rfl⟩ := List.mem_map.mp hstepped
    have hle := hholding.processed_le seq hseq
    rcases classify_cases terms.contextLen seq with ⟨_, hcase⟩ | ⟨_, _, _, hcase⟩ |
      ⟨_, _, _, hcase⟩ | ⟨_, hcase⟩ | ⟨_, hcase⟩ <;>
      simp only [ActiveSeq.stepAlone, hcase] <;> first | exact hle | simp [advanceOrFail]
  held := by
    intro stepped hstepped hunfinished
    obtain ⟨seq, hseq, rfl⟩ := List.mem_map.mp hstepped
    rw [ActiveSeq.stepAlone_slot]
    rcases classify_cases terms.contextLen seq with ⟨_, hcase⟩ | ⟨_, _, _, hcase⟩ |
      ⟨_, _, _, hcase⟩ | ⟨_, hcase⟩ | ⟨_, hcase⟩ <;>
      simp only [ActiveSeq.stepAlone, hcase] at hunfinished ⊢
    · rw [hidle seq hseq (by rw [hcase])]
      exact hholding.held seq hseq hunfinished
    · simp at hunfinished
    · simp at hunfinished
    · rw [hpushed seq hseq (by simp [hcase])]
      simp [advanceOrFail]
    · rw [hpushed seq hseq (by simp [hcase])]
      simp [advanceOrFail]

omit [BatchedDecoder D Row] in
/-- Classification of sequences in step with the decoder. -/
theorem Holding.classified {decoder : D} {active : List (ActiveSeq X)}
    (hholding : model.Holding decoder active) :
    ((active.map (classify terms.contextLen)).map fun entry => entry.seq.slot).Nodup ∧
      ∀ entry ∈ active.map (classify terms.contextLen),
        entry.PrefillReady terms.contextLen ∧ entry.DecodeReady terms.contextLen ∧
          model.valid entry.seq.slot ∧
          (entry.work ≠ .idle → model.content decoder entry.seq.slot =
            model.holding (entry.seq.tokens.take entry.seq.processed)) := by
  constructor
  · have hnodup := hholding.nodup
    simpa [List.map_map, Function.comp_def, classify_slot] using hnodup
  · intro entry hentry
    obtain ⟨seq, hseq, rfl⟩ := List.mem_map.mp hentry
    refine ⟨(ready_classify _ seq).1, (ready_classify _ seq).2, ?_, fun hwork => ?_⟩
    · rw [classify_slot]
      exact hholding.valid seq hseq
    · rw [classify_seq_of_work hwork]
      exact hholding.held seq hseq (unfinished_of_work hwork)

/-- **A round is row-wise**: each sequence steps as it would alone, or some call
failed. -/
theorem RowWise.stepRound (hrow : model.RowWise terms sample mayFail)
    {active : List (ActiveSeq X)} {decoder : D} (hholding : model.Holding decoder active) :
    let round := stepRound sample terms.stopIds ⟨none⟩ 0 active decoder
    (mayFail ∧ ∃ error, .failed error ∈ round.2.1) ∨
      (round.1 = active.map (fun seq =>
          (seq.stepAlone terms.contextLen terms.stopIds terms.next).1) ∧
        round.2.1 = active.map (fun seq =>
          (seq.stepAlone terms.contextLen terms.stopIds terms.next).2) ∧
        model.Holding round.2.2 round.1) := by
  intro round
  set classified := active.map (classify terms.contextLen) with hclassified
  set pass := Inference.prefillPass sample terms.stopIds 0 classified ⟨none⟩ decoder with hpass
  set settled := Inference.decodePass sample terms.stopIds pass.1 pass.2.2 with hsettled
  have hround : round = (settled.1.map Entry.seq, settled.1.map Entry.outcome, settled.2) := by
    simp only [round, Inference.stepRound, hrow.context_eq, ← hclassified, ← hpass, ← hsettled]
  obtain ⟨hslots, hready⟩ := @Holding.classified X D Row Task C model terms decoder active
    hholding
  rw [← hclassified] at hslots hready
  rw [hround]
  rcases hrow.prefillPass hholding.sound (fun entry hentry => (hready entry hentry).1) hslots
      (fun entry hentry => (hready entry hentry).2.2.1)
      (fun entry hentry hwork => (hready entry hentry).2.2.2 (by simp [hwork])) with
    ⟨hfails, failed, hfailed, hwork, error, herror⟩ | ⟨hfilled, hsound, hown, hstill⟩
  · -- settling the rows leaves the failed prompt as it is
    have hkept := @decodePass_forall₂ X D Row _ sample terms.stopIds pass.1 pass.2.2
    obtain ⟨after, hafter, sampled, hsame⟩ := exists_of_forall₂_right hkept.flip hfailed
    refine Or.inl ⟨hfails, error, List.mem_map.mpr ⟨after, hafter, ?_⟩⟩
    rw [hsame]
    simpa only [Entry.settle, hwork] using herror
  have happart : ∀ entry ∈ classified, entry.work ≠ .prefill →
      ∀ other ∈ classified, other.work = .prefill → other.seq.slot ≠ entry.seq.slot := by
    intro entry hentry hwork other hother hprefill hsame
    obtain rfl := List.inj_on_of_nodup_map hslots hother hentry hsame
    exact hwork hprefill
  have hfilled_mem : ∀ entry ∈ pass.1, ∃ before ∈ classified,
      before.filledAlone terms.stopIds terms.next = entry :=
    fun entry hentry => List.mem_map.mp (hfilled ▸ hentry)
  have hslots' : (pass.1.map fun entry => entry.seq.slot).Nodup := by
    rw [hfilled, List.map_map]
    simpa only [Function.comp_def, Entry.filledAlone_slot] using hslots
  have hready' : ∀ entry ∈ pass.1, entry.DecodeReady terms.contextLen := by
    intro entry hentry row hwork
    obtain ⟨before, hbefore, rfl⟩ := hfilled_mem entry hentry
    rw [Entry.filledAlone_work] at hwork
    rw [Entry.filledAlone_of_ne (by simp [hwork])]
    exact (hready before hbefore).2.1 row hwork
  rcases hrow.decodePass hsound hready' hslots' (fun entry hentry => by
      obtain ⟨before, hbefore, rfl⟩ := hfilled_mem entry hentry
      rw [Entry.filledAlone_slot]
      exact (hready before hbefore).2.2.1) (by
      rintro entry hentry ⟨row, hwork⟩
      obtain ⟨before, hbefore, rfl⟩ := hfilled_mem entry hentry
      rw [Entry.filledAlone_work] at hwork
      have hne : before.work ≠ .prefill := by simp [hwork]
      rw [Entry.filledAlone_of_ne hne, hstill _ (happart before hbefore hne)]
      exact (hready before hbefore).2.2.2 (by simp [hwork])) with
    ⟨hfails, failed, hfailed, error, herror⟩ | ⟨hdone, hsound', hown', hstill'⟩
  · exact Or.inl ⟨hfails, error, List.mem_map.mpr ⟨failed, hfailed, herror⟩⟩
  obtain ⟨hseqs, houtcomes⟩ := map_settled_filled_classify terms.contextLen terms.stopIds terms.next
    active
  rw [← hclassified, ← hfilled, ← hdone] at hseqs houtcomes
  refine Or.inr ⟨hseqs, houtcomes, ?_⟩
  rw [hseqs]
  -- an entry's lane after both passes
  have hlane : ∀ seq ∈ active, (∀ row, (classify terms.contextLen seq).work ≠ .decode row) →
      model.content settled.2 seq.slot = model.content pass.2.2 seq.slot := by
    intro seq hseq hwork
    have hmem : (classify terms.contextLen seq).filledAlone terms.stopIds terms.next ∈ pass.1 :=
      hfilled ▸ List.mem_map_of_mem (List.mem_map_of_mem hseq)
    have hfree := slot_ne_of_idle hslots' hready' hmem (by simpa only [Entry.filledAlone_work])
    rw [Entry.filledAlone_slot, classify_slot] at hfree
    exact hstill' _ hfree
  refine hholding.step hsound' (fun seq hseq hidle => ?_) fun seq hseq hbusy => ?_
  · have hfree := happart _ (List.mem_map_of_mem hseq) (by simp [hidle])
    rw [classify_slot] at hfree
    rw [hlane seq hseq (by simp [hidle]), hstill _ hfree]
  · have hsame := classify_seq_of_work hbusy
    cases hwork : (classify terms.contextLen seq).work with
    | idle => exact absurd hwork hbusy
    | prefill =>
        have hheld := hown _ (List.mem_map_of_mem hseq) hwork
        rw [hsame] at hheld
        rw [hlane seq hseq (by simp [hwork]), hheld]
    | decode row =>
        have hmem : (classify terms.contextLen seq).filledAlone terms.stopIds terms.next ∈ pass.1 :=
          hfilled ▸ List.mem_map_of_mem (List.mem_map_of_mem hseq)
        have hheld := hown' _ hmem ⟨row, by rw [Entry.filledAlone_work, hwork]⟩
        rw [Entry.filledAlone_of_ne (by simp [hwork]), hsame] at hheld
        exact hheld

end LaneModel

/-! ## Servers that are row-wise -/

namespace LaneModel

variable {S : Type u} {Row : Type v} {Task : Type w} {C : Type c}
  [BatchedInferenceServer S Row Task] {model : LaneModel S C} {terms : Terms Row Task}

/-- A server whose requests generate what they would alone is a row-wise
decoder. -/
theorem Determined.rowWise (hdetermined : model.Determined terms) (configured : S)
    {mayFail : Prop}
    (hprefill : ¬mayFail → ∀ (server : S) (slot : ℕ) (tokens : List Token) (position : ℕ),
      ∃ logits, (prefill server slot tokens position).1 = .ok logits)
    (hdecode : ¬mayFail → ∀ (server : S) (rows : List DecodeRow),
      ∃ logits, (decode server rows).1 = .ok logits)
    (hsampler : ¬mayFail → ∀ (server : S) (logits : Logits Row),
      ∃ ids, (sampler configured server logits).1 = .ok ids) :
    model.RowWise terms (sampler configured) mayFail where
  context_eq := hdetermined.context_eq
  prefill_answers {server slot tokens position pushed} hcan _ := by
    rcases hresult : (prefill server slot tokens position).1 with error | logits
    · refine Or.inl ⟨by_contra fun hnever => ?_, error, hresult⟩
      obtain ⟨logits, hlogits⟩ := hprefill hnever server slot tokens position
      simp [hresult] at hlogits
    · refine Or.inr ⟨logits, hresult, hdetermined.prefill_row hcan hresult,
        hdetermined.honoured.prefill_sound hcan, ?_, fun lane hlane => ?_⟩
      · simpa using hdetermined.honoured.prefill_self hcan hresult
      · exact hdetermined.honoured.prefill_other hcan (by simpa using hlane)
  decode_answers {server rows pushed} hcan _ := by
    rcases hresult : (decode server rows).1 with error | logits
    · refine Or.inl ⟨by_contra fun hnever => ?_, error, hresult⟩
      obtain ⟨logits, hlogits⟩ := hdecode hnever server rows
      simp [hresult] at hlogits
    · refine Or.inr ⟨logits, hresult, ?_, hdetermined.honoured.decode_sound hcan, ?_,
        fun lane hlane => ?_⟩
      · rw [hdetermined.decode_rows hcan hresult, List.map_map]
        rfl
      · exact List.forall_mem_map.mpr (hdetermined.honoured.decode_self hcan hresult)
      · refine hdetermined.honoured.decode_other hcan fun row hrow hsame => hlane ?_
        rw [List.map_map]
        exact List.mem_map.mpr ⟨row, hrow, hsame⟩
  sample_picks {server} logits hsound := by
    rcases hresult : (sampler configured server logits).1 with error | ids
    · refine Or.inl ⟨by_contra fun hnever => ?_, error, rfl⟩
      obtain ⟨ids, hids⟩ := hsampler hnever server logits
      simp [hresult] at hids
    · exact Or.inr ⟨congrArg Except.ok (hdetermined.sampler_picks hresult),
        hdetermined.honoured.sampler_sound hsound, hdetermined.honoured.sampler_content _ _ _⟩

end LaneModel

/-! ## What is still to come -/

section Rest

variable {Row : Type v} {Task : Type w} {terms : Terms Row Task}

/-- Whether the sequences run for at most `left` more tokens fit the context. The
last token is never run. -/
def Terms.Fits (terms : Terms Row Task) : ℕ → List Token → Prop
  | 0, _ => True
  | left + 1, tokens => tokens = [] ∨ (tokens.length ≤ terms.contextLen ∧
      (terms.next tokens ∈ terms.stopIds ∨ terms.Fits left (tokens ++ [terms.next tokens])))

/-- What a sequence has yet to generate. -/
def ActiveSeq.rest (terms : Terms Row Task) (seq : ActiveSeq X) : List Token :=
  if seq.finished then [] else terms.solo (seq.maxGen - seq.generated) seq.tokens

/-- Whether a sequence stays within the context to its end. -/
def ActiveSeq.Fits (terms : Terms Row Task) (seq : ActiveSeq X) : Prop :=
  seq.finished = true ∨ terms.Fits (seq.maxGen - seq.generated) seq.tokens

/-- A sequence that runs, and owes a token while it is unfinished. -/
structure ActiveSeq.Live (seq : ActiveSeq X) : Prop where
  unpaused : seq.paused = false
  owing : seq.finished = false → seq.tokens = [] ∨ seq.processed < seq.tokens.length

/-- What a step alone does to what is still to come: it fails for want of
context, ends the sequence, or takes the first token off. -/
inductive StepsAlone (terms : Terms Row Task) (seq : ActiveSeq X) :
    ActiveSeq X × StepOutcome → Prop
  | failed (error : InferenceError) (hover : ¬seq.Fits terms) :
      StepsAlone terms seq ({ seq with finished := true }, .failed error)
  | ended (hrest : seq.rest terms = []) (hfits : seq.Fits terms) :
      StepsAlone terms seq ({ seq with finished := true }, .skipped)
  | stepped (token : Token) (after : ActiveSeq X) (finished : Bool)
      (hafter : after = { seq with
        processed := seq.tokens.length
        tokens := seq.tokens ++ [token]
        generated := seq.generated + 1
        finished })
      (hrest : seq.rest terms = token :: after.rest terms)
      (hfits : seq.Fits terms ↔ after.Fits terms) :
      StepsAlone terms seq (after, .stepped token (token ∈ terms.stopIds) finished)

/-- A sequence with work to do takes the next token off. -/
theorem StepsAlone.advance {seq : ActiveSeq X} (hunfinished : seq.finished = false)
    (hgenerated : seq.generated < seq.maxGen) (hnonempty : seq.tokens ≠ [])
    (hfits : seq.tokens.length ≤ terms.contextLen) :
    StepsAlone terms seq (advanceOrFail terms.stopIds seq (.ok (terms.next seq.tokens))) := by
  have hleft : seq.maxGen - seq.generated = seq.maxGen - (seq.generated + 1) + 1 := by omega
  refine .stepped (terms.next seq.tokens) _ _ rfl ?_ ?_
  · rw [ActiveSeq.rest, if_neg (by simp [hunfinished]), hleft, Terms.solo_succ _ hnonempty hfits,
      ActiveSeq.rest]
    by_cases hstop : terms.next seq.tokens ∈ terms.stopIds
    · simp [hstop]
    · by_cases hlast : seq.maxGen ≤ seq.generated + 1
      · simp [hstop, hlast, Nat.sub_eq_zero_of_le hlast]
      · simp [hstop, hlast, hunfinished]
  · rw [ActiveSeq.Fits, hleft, Terms.Fits, ActiveSeq.Fits]
    by_cases hstop : terms.next seq.tokens ∈ terms.stopIds
    · simp [hstop, hfits]
    · by_cases hlast : seq.maxGen ≤ seq.generated + 1
      · simp [hlast, hfits, Nat.sub_eq_zero_of_le hlast, Terms.Fits]
      · simp [hstop, hlast, hunfinished, hnonempty, hfits]

/-- A live sequence steps alone in one of these ways. -/
theorem ActiveSeq.Live.stepAlone {seq : ActiveSeq X} (hlive : seq.Live) :
    StepsAlone terms seq (seq.stepAlone terms.contextLen terms.stopIds terms.next) := by
  rcases classify_cases terms.contextLen seq with ⟨hidle, hcase⟩ |
    ⟨hunfinished, _, hnoop, hcase⟩ | ⟨hunfinished, _, hover, hcase⟩ | ⟨hseq, hcase⟩ |
    ⟨hseq, hcase⟩ <;>
    simp only [ActiveSeq.stepAlone, hcase]
  · have hfinished := hidle.resolve_right (by simp [hlive.unpaused])
    have hsame : seq = { seq with finished := true } := by
      cases seq
      simpa using hfinished
    rw [hsame]
    exact .ended (by simp [ActiveSeq.rest]) (Or.inl rfl)
  · have hnothing : seq.maxGen - seq.generated = 0 ∨ seq.tokens = [] := by
      rcases hnoop with hcap | hprocessed
      · exact Or.inl (by omega)
      · exact Or.inr ((hlive.owing hunfinished).resolve_right (by omega))
    refine .ended ?_ (Or.inr ?_)
    · rw [ActiveSeq.rest, if_neg (by simp [hunfinished])]
      rcases hnothing with hcap | hempty
      · rw [hcap, Terms.solo_zero]
      · rw [hempty, Terms.solo_nil]
    · rcases hnothing with hcap | hempty
      · rw [hcap, Terms.Fits]
        trivial
      · rw [hempty]
        cases seq.maxGen - seq.generated <;> simp [Terms.Fits]
  · have hcap : seq.generated < seq.maxGen := generated_lt_of_failed (by rw [hcase])
    obtain ⟨left, hleft⟩ : ∃ left, seq.maxGen - seq.generated = left + 1 :=
      Nat.exists_eq_succ_of_ne_zero (by omega)
    have hnonempty : seq.tokens ≠ [] := List.ne_nil_of_length_pos (by omega)
    exact .failed _ (by simp [ActiveSeq.Fits, Terms.Fits, hunfinished, hleft, hnonempty, hover])
  · have htail := hseq.tail
    exact .advance hseq.unfinished hseq.generated_lt (List.ne_nil_of_length_pos (by omega)) hseq.fits
  · have htail := hseq.tail
    exact .advance hseq.unfinished hseq.generated_lt (List.ne_nil_of_length_pos (by omega)) hseq.fits

end Rest

end BurnLm.Inference
