/-
# Sharing the prompt budget

While something is decoding, a round may push only so many prompt tokens. The
prompts are asked in the list's order and each takes what it wants of what is
left, so who gets what is decided before any call is made. To see the calls, the
round runs on a decoder that records them; recording changes nothing else.
-/

import BurnLm.Inference.RecallServer

namespace BurnLm.Inference

open BurnLm.Math

universe u v w

variable {D : Type u} {Row : Type v} {X : Type w}

/-- One call of `prefill`. -/
structure PromptCall where
  slot : ℕ
  tokens : List Token
  position : ℕ
  deriving DecidableEq, Repr

/-- A decoder, and the prompt calls made on it. -/
structure Recorded (D : Type u) where
  decoder : D
  prompts : List PromptCall

/-- What a prompt wants of a round: its tail, a chunk of it at most. -/
def ActiveSeq.wanted (chunkSize : ℕ) (seq : ActiveSeq X) : ℕ :=
  if chunkSize = 0 then seq.tokens.length - seq.processed
  else min chunkSize (seq.tokens.length - seq.processed)

/-- What the entries of a round are granted, in order. -/
def grants (chunkSize : ℕ) : List (Entry X) → PrefillBudget → List ℕ
  | [], _ => []
  | entry :: entries, budget =>
    match entry.work with
    | .prefill =>
      ((budget.admitPrefill (entry.seq.wanted chunkSize)).1.getD 0) ::
        grants chunkSize entries (budget.admitPrefill (entry.seq.wanted chunkSize)).2
    | _ => 0 :: grants chunkSize entries budget

/-- The call a granted prompt makes: its next tokens. -/
def ActiveSeq.promptCall (seq : ActiveSeq X) (granted : ℕ) : Option PromptCall :=
  if granted = 0 then none
  else some ⟨seq.slot, (seq.tokens.drop seq.processed).take granted, seq.processed⟩

@[simp]
theorem ActiveSeq.promptCall_zero (seq : ActiveSeq X) : seq.promptCall 0 = none := rfl

/-- The calls of a round. -/
def promptCalls (seqs : List (ActiveSeq X)) (granted : List ℕ) : List PromptCall :=
  (seqs.zip granted).filterMap fun pair => pair.1.promptCall pair.2

/-! ## Recording -/

section Recording

variable [BatchedDecoder D Row] {sample : D → Logits Row → InferenceResult (List Token) × D}
  {stopIds : List Token}

instance : BatchedDecoder (Recorded D) Row where
  prefill recorded slot tokens position :=
    let (logits, decoder) := BatchedDecoder.prefill recorded.decoder slot tokens position
    (logits, ⟨decoder, recorded.prompts ++ [⟨slot, tokens, position⟩]⟩)
  decode recorded rows :=
    let (logits, decoder) := BatchedDecoder.decode recorded.decoder rows
    (logits, { recorded with decoder })
  release recorded slot :=
    { recorded with decoder := BatchedDecoder.release recorded.decoder slot }
  maxContextLen recorded := BatchedDecoder.maxContextLen recorded.decoder

/-- Sampling makes no prompt calls. -/
def Recorded.sampling (sample : D → Logits Row → InferenceResult (List Token) × D)
    (recorded : Recorded D) (logits : Logits Row) : InferenceResult (List Token) × Recorded D :=
  let (ids, decoder) := sample recorded.decoder logits
  (ids, { recorded with decoder })

omit [BatchedDecoder D Row] in
theorem sampleRows_recorded (inRows : ℕ) (decoder : D) (prompts : List PromptCall)
    (result : InferenceResult (Logits Row)) :
    sampleRows (Recorded.sampling sample) inRows ⟨decoder, prompts⟩ result =
      ((sampleRows sample inRows decoder result).1,
        ⟨(sampleRows sample inRows decoder result).2, prompts⟩) := by
  unfold sampleRows
  split <;> rfl

theorem prefillChunk_recorded (granted : ℕ) (decoder : D) (prompts : List PromptCall)
    (seq : ActiveSeq X) :
    prefillChunk (Recorded.sampling sample) stopIds granted ⟨decoder, prompts⟩ seq =
      ((prefillChunk sample stopIds granted decoder seq).1,
        (prefillChunk sample stopIds granted decoder seq).2.1,
        ⟨(prefillChunk sample stopIds granted decoder seq).2.2,
          prompts ++ [⟨seq.slot, chunkOf seq granted, seq.processed⟩]⟩) := by
  unfold prefillChunk
  dsimp only [BatchedDecoder.prefill]
  split
  · split <;> rfl
  · rw [sampleRows_recorded]
    rfl

theorem chunkOf_eq (seq : ActiveSeq X) (granted : ℕ) :
    chunkOf seq granted = (seq.tokens.drop seq.processed).take granted := by
  rw [chunkOf, List.drop_take, Nat.add_sub_cancel_left]

/-- The prefill pass, recorded. -/
theorem prefillPass_recorded (chunkSize : ℕ) (entries : List (Entry X)) (budget : PrefillBudget)
    (decoder : D) (prompts : List PromptCall) :
    prefillPass (Recorded.sampling sample) stopIds chunkSize entries budget ⟨decoder, prompts⟩ =
      ((prefillPass sample stopIds chunkSize entries budget decoder).1,
        (prefillPass sample stopIds chunkSize entries budget decoder).2.1,
        ⟨(prefillPass sample stopIds chunkSize entries budget decoder).2.2,
          prompts ++ promptCalls (entries.map Entry.seq) (grants chunkSize entries budget)⟩) := by
  induction entries generalizing budget decoder prompts with
  | nil => simp [prefillPass, promptCalls]
  | cons entry entries ih =>
      cases hwork : entry.work with
      | prefill =>
          rcases hgrant : budget.admitPrefill (entry.seq.wanted chunkSize) with
            ⟨_ | _ | granted, left⟩
          all_goals
            simp only [ActiveSeq.wanted] at hgrant
            simp [prefillPass, hwork, hgrant, ih, promptCalls, grants, ActiveSeq.promptCall,
              ActiveSeq.wanted, prefillChunk_recorded, chunkOf_eq]
      | _ =>
          simp [prefillPass, hwork, ih, promptCalls, grants, ActiveSeq.promptCall]

theorem decodePass_recorded (entries : List (Entry X)) (decoder : D)
    (prompts : List PromptCall) :
    decodePass (Recorded.sampling sample) stopIds entries ⟨decoder, prompts⟩ =
      ((decodePass sample stopIds entries decoder).1,
        ⟨(decodePass sample stopIds entries decoder).2, prompts⟩) := by
  unfold decodePass
  dsimp only [BatchedDecoder.decode]
  split
  · rfl
  · rw [sampleRows_recorded]
    rcases sampleRows sample (decodeRows entries).length (BatchedDecoder.decode decoder
      (decodeRows entries)).2 (BatchedDecoder.decode decoder (decodeRows entries)).1 with
      ⟨error | ids, after⟩
    · rfl
    · dsimp only
      split <;> rfl

/-- **Recording changes nothing else**: a round on the recording decoder is the
round, with its prompt calls. -/
theorem stepRound_recorded (chunkSize : ℕ) (budget : PrefillBudget) (active : List (ActiveSeq X))
    (decoder : D) :
    stepRound (Recorded.sampling sample) stopIds budget chunkSize active ⟨decoder, []⟩ =
      ((stepRound sample stopIds budget chunkSize active decoder).1,
        (stepRound sample stopIds budget chunkSize active decoder).2.1,
        ⟨(stepRound sample stopIds budget chunkSize active decoder).2.2,
          promptCalls
            ((active.map (classify (BatchedDecoder.maxContextLen decoder))).map Entry.seq)
            (grants chunkSize (active.map (classify (BatchedDecoder.maxContextLen decoder)))
              budget)⟩) := by
  have hmax : BatchedDecoder.maxContextLen (⟨decoder, []⟩ : Recorded D) =
      BatchedDecoder.maxContextLen decoder := rfl
  simp only [stepRound, hmax, prefillPass_recorded, decodePass_recorded, List.nil_append]

/-- A round leaves an entry it grants nothing as it was. -/
theorem prefillPass_deferred (chunkSize : ℕ) (entries : List (Entry X)) (budget : PrefillBudget)
    (decoder : D) :
    List.Forall₂ (fun share pushed => share.2 = 0 → pushed = share.1)
      (entries.zip (grants chunkSize entries budget))
      (prefillPass sample stopIds chunkSize entries budget decoder).1 := by
  induction entries generalizing budget decoder with
  | nil => exact List.Forall₂.nil
  | cons entry entries ih =>
      cases hwork : entry.work with
      | prefill =>
          rcases hgrant : budget.admitPrefill (entry.seq.wanted chunkSize) with
            ⟨_ | _ | granted, left⟩
          all_goals
            simp only [ActiveSeq.wanted] at hgrant
            simp [prefillPass, hwork, hgrant, grants, ActiveSeq.wanted, ih]
      | _ => simp [prefillPass, hwork, grants, ih]

end Recording

/-! ## Who gets what -/

/-- The sequences of a round with their grants. -/
def shares (maxContextLen chunkSize : ℕ) (active : List (ActiveSeq X)) (budget : PrefillBudget) :
    List (ActiveSeq X × ℕ) :=
  active.zip (grants chunkSize (active.map (classify maxContextLen)) budget)

theorem length_grants (chunkSize : ℕ) (entries : List (Entry X)) (budget : PrefillBudget) :
    (grants chunkSize entries budget).length = entries.length := by
  induction entries generalizing budget with
  | nil => rfl
  | cons entry entries ih =>
      cases hwork : entry.work <;> simp [grants, hwork, ih]

theorem shares_fst (maxContextLen chunkSize : ℕ) (active : List (ActiveSeq X))
    (budget : PrefillBudget) :
    (shares maxContextLen chunkSize active budget).map Prod.fst = active := by
  refine List.map_fst_zip ?_
  rw [length_grants, List.length_map]

/-- A waiting prompt is classified as prompt work. -/
theorem Prefillable.classify_eq {maxContextLen : ℕ} {seq : ActiveSeq X}
    (hseq : Prefillable maxContextLen seq) :
    classify maxContextLen seq = ⟨seq, .prefill, .skipped⟩ := by
  have hcap := hseq.generated_lt
  have htail := hseq.tail
  have hfits := hseq.fits
  rcases classify_cases maxContextLen seq with ⟨hidle, _⟩ | ⟨_, _, hnoop, _⟩ | ⟨_, _, hover, _⟩ |
    ⟨_, hcase⟩ | ⟨hdecode, _⟩
  · simp [hseq.unfinished, hseq.unpaused] at hidle
  · omega
  · omega
  · exact hcase
  · have := hdecode.tail
    omega

/-- Only waiting prompts share. -/
theorem shares_cons (maxContextLen chunkSize : ℕ) (seq : ActiveSeq X) (active : List (ActiveSeq X))
    (budget : PrefillBudget) :
    (Prefillable maxContextLen seq ∧
      shares maxContextLen chunkSize (seq :: active) budget =
        (seq, (budget.admitPrefill (seq.wanted chunkSize)).1.getD 0) ::
          shares maxContextLen chunkSize active
            (budget.admitPrefill (seq.wanted chunkSize)).2) ∨
    (¬Prefillable maxContextLen seq ∧
      shares maxContextLen chunkSize (seq :: active) budget =
        (seq, 0) :: shares maxContextLen chunkSize active budget) := by
  by_cases hseq : Prefillable maxContextLen seq
  · exact Or.inl ⟨hseq, by simp [shares, grants, hseq.classify_eq]⟩
  · refine Or.inr ⟨hseq, ?_⟩
    rcases classify_cases maxContextLen seq with ⟨_, hcase⟩ | ⟨_, _, _, hcase⟩ |
      ⟨_, _, _, hcase⟩ | ⟨hwaiting, _⟩ | ⟨_, hcase⟩
    all_goals first | exact absurd hwaiting hseq | simp [shares, grants, hcase]

/-- The calls of a round are those of its shares. -/
theorem promptCalls_eq (maxContextLen chunkSize : ℕ) (active : List (ActiveSeq X))
    (budget : PrefillBudget) :
    promptCalls ((active.map (classify maxContextLen)).map Entry.seq)
        (grants chunkSize (active.map (classify maxContextLen)) budget) =
      (shares maxContextLen chunkSize active budget).filterMap fun share =>
        share.1.promptCall share.2 := by
  induction active generalizing budget with
  | nil => rfl
  | cons seq active ih =>
      simp only [promptCalls, shares, List.map_cons] at ih ⊢
      cases hwork : (classify maxContextLen seq).work with
      | prefill =>
          have hseq : (classify maxContextLen seq).seq = seq :=
            classify_seq_of_work (by simp [hwork])
          simp only [grants, hwork, hseq, List.zip_cons_cons, List.filterMap_cons, ih]
      | _ =>
          simp only [grants, hwork, List.zip_cons_cons, List.filterMap_cons,
            ActiveSeq.promptCall_zero, ih]

/-- A waiting prompt wants something. -/
theorem Prefillable.wanted_pos {maxContextLen : ℕ} {seq : ActiveSeq X}
    (hseq : Prefillable maxContextLen seq) (chunkSize : ℕ) : 0 < seq.wanted chunkSize := by
  have := hseq.tail
  unfold ActiveSeq.wanted
  split <;> omega

theorem ActiveSeq.wanted_le (seq : ActiveSeq X) (chunkSize : ℕ) :
    seq.wanted chunkSize ≤ seq.tokens.length - seq.processed := by
  unfold wanted
  split
  · exact le_rfl
  · exact min_le_right _ _

section Shares

variable {maxContextLen chunkSize : ℕ} {active : List (ActiveSeq X)} {budget : PrefillBudget}

/-- Only a waiting prompt is granted something, and never more than it wants. -/
theorem shares_waiting {share : ActiveSeq X × ℕ}
    (hshare : share ∈ shares maxContextLen chunkSize active budget) (hpos : 0 < share.2) :
    Prefillable maxContextLen share.1 ∧ share.2 ≤ share.1.wanted chunkSize := by
  induction active generalizing budget with
  | nil => simp [shares] at hshare
  | cons seq active ih =>
      rcases shares_cons maxContextLen chunkSize seq active budget with
        ⟨hseq, hcons⟩ | ⟨_, hcons⟩ <;> rw [hcons] at hshare <;>
        rcases List.mem_cons.mp hshare with rfl | hshare
      · refine ⟨hseq, ?_⟩
        cases hgrant : (budget.admitPrefill (seq.wanted chunkSize)).1 with
        | none => exact Nat.zero_le _
        | some granted => exact PrefillBudget.admitPrefill_le hgrant
      · exact ih hshare
      · simp at hpos
      · exact ih hshare

/-- Without a limit everyone gets what it wants. -/
theorem shares_unlimited {share : ActiveSeq X × ℕ} (hbudget : budget.remaining = none)
    (hshare : share ∈ shares maxContextLen chunkSize active budget)
    (hwaiting : Prefillable maxContextLen share.1) : share.2 = share.1.wanted chunkSize := by
  obtain ⟨_⟩ := budget
  obtain rfl := hbudget
  induction active with
  | nil => simp [shares] at hshare
  | cons seq active ih =>
      rcases shares_cons maxContextLen chunkSize seq active ⟨none⟩ with
        ⟨_, hcons⟩ | ⟨hseq, hcons⟩ <;> rw [hcons] at hshare <;>
        rcases List.mem_cons.mp hshare with rfl | hshare
      · rfl
      · exact ih hshare
      · exact absurd hwaiting hseq
      · exact ih hshare

/-- A spent budget grants nothing. -/
theorem shares_spent {share : ActiveSeq X × ℕ} (hbudget : budget.remaining = some 0)
    (hshare : share ∈ shares maxContextLen chunkSize active budget) : share.2 = 0 := by
  obtain ⟨_⟩ := budget
  obtain rfl := hbudget
  induction active with
  | nil => simp [shares] at hshare
  | cons seq active ih =>
      rcases shares_cons maxContextLen chunkSize seq active ⟨some 0⟩ with
        ⟨_, hcons⟩ | ⟨_, hcons⟩ <;> rw [hcons] at hshare <;>
        rcases List.mem_cons.mp hshare with rfl | hshare
      · rfl
      · exact ih hshare
      · rfl
      · exact ih hshare

/-- What is granted comes out of the budget. -/
theorem PrefillBudget.admitPrefill_of_some {left wanted : ℕ} :
    let granted := ((⟨some left⟩ : PrefillBudget).admitPrefill wanted).1.getD 0
    granted = min wanted left ∧
      ((⟨some left⟩ : PrefillBudget).admitPrefill wanted).2 = ⟨some (left - granted)⟩ := by
  cases left <;> simp [admitPrefill]

/-- The grants stay within the budget. -/
theorem shares_sum_le {left : ℕ} (hbudget : budget.remaining = some left) :
    ((shares maxContextLen chunkSize active budget).map Prod.snd).sum ≤ left := by
  induction active generalizing budget left with
  | nil => simp [shares]
  | cons seq active ih =>
      rcases shares_cons maxContextLen chunkSize seq active budget with
        ⟨_, hcons⟩ | ⟨_, hcons⟩ <;> rw [hcons]
      · obtain ⟨_⟩ := budget
        obtain rfl := hbudget
        obtain ⟨hgranted, hleft⟩ := @PrefillBudget.admitPrefill_of_some left
          (seq.wanted chunkSize)
        have hrest := ih (congrArg PrefillBudget.remaining hleft)
        simp only [List.map_cons, List.sum_cons]
        omega
      · simpa using ih hbudget

/-- The budget is spent in order: only what everyone before has not asked for is
passed on. -/
theorem shares_pairwise :
    (shares maxContextLen chunkSize active budget).Pairwise fun first second =>
      Prefillable maxContextLen first.1 → 0 < second.2 →
        first.2 = first.1.wanted chunkSize := by
  induction active generalizing budget with
  | nil => simp [shares]
  | cons seq active ih =>
      rcases shares_cons maxContextLen chunkSize seq active budget with
        ⟨_, hcons⟩ | ⟨hseq, hcons⟩ <;> rw [hcons]
      · refine List.pairwise_cons.mpr ⟨fun second hsecond _ hpos => ?_, ih⟩
        rcases budget with ⟨_ | left⟩
        · rfl
        · obtain ⟨hgranted, hleft⟩ := @PrefillBudget.admitPrefill_of_some left
            (seq.wanted chunkSize)
          by_contra hshort
          -- a partial grant spends the budget
          have hspent : left - min (seq.wanted chunkSize) left = 0 := by
            simp only at hshort
            omega
          rw [hgranted, hspent] at hleft
          rw [hleft] at hsecond
          exact hpos.ne' (shares_spent rfl hsecond)
      · exact List.pairwise_cons.mpr ⟨fun _ _ h => absurd h hseq, ih⟩

/-- The first waiting prompt gets something. -/
theorem shares_first {before after : List (ActiveSeq X × ℕ)} {share : ActiveSeq X × ℕ}
    (hbudget : budget.remaining ≠ some 0)
    (hshares : shares maxContextLen chunkSize active budget = before ++ share :: after)
    (hbefore : ∀ other ∈ before, ¬Prefillable maxContextLen other.1)
    (hwaiting : Prefillable maxContextLen share.1) : 0 < share.2 := by
  induction active generalizing before with
  | nil => simp [shares] at hshares
  | cons seq active ih =>
      rcases shares_cons maxContextLen chunkSize seq active budget with
        ⟨hseq, hcons⟩ | ⟨hseq, hcons⟩ <;> rw [hcons] at hshares <;>
        rcases List.cons_eq_append_iff.mp hshares with ⟨rfl, hhead⟩ | ⟨before, rfl, htail⟩
      · obtain ⟨rfl, rfl⟩ := List.cons.inj hhead
        have hwanted := hseq.wanted_pos chunkSize
        rcases budget with ⟨_ | _ | left⟩
        · exact hwanted
        · exact absurd rfl hbudget
        · exact lt_min hwanted (Nat.succ_pos left)
      · exact absurd hseq (hbefore _ List.mem_cons_self)
      · obtain ⟨rfl, rfl⟩ := List.cons.inj hhead
        exact absurd hwaiting hseq
      · exact ih htail fun other hother => hbefore other (List.mem_cons_of_mem _ hother)

/-- A call pushes as many tokens as were granted. -/
theorem length_promptCalls {shares : List (ActiveSeq X × ℕ)}
    (hshares : ∀ share ∈ shares, share.2 ≤ share.1.tokens.length - share.1.processed) :
    ((shares.filterMap fun share => share.1.promptCall share.2).map
      fun call => call.tokens.length).sum = (shares.map Prod.snd).sum := by
  induction shares with
  | nil => rfl
  | cons share shares ih =>
      have hrest := ih fun other hother => hshares other (List.mem_cons_of_mem _ hother)
      have hle := hshares share List.mem_cons_self
      by_cases hzero : share.2 = 0
      · simp [hzero, hrest]
      · have hcall : share.1.promptCall share.2 = some ⟨share.1.slot,
            (share.1.tokens.drop share.1.processed).take share.2, share.1.processed⟩ :=
          if_neg hzero
        simp [hcall, hrest, hle]

end Shares

/-! ## The budget of a round -/

/-- How a round shares its prompt work: what every sequence of its list is
granted, against the calls it made and what became of the sequences. -/
structure PromptShares (maxContextLen chunkSize : ℕ) (active : List (ActiveSeq X))
    (prompts : List PromptCall) (after : List (ActiveSeq X × StepOutcome))
    (shares : List (ActiveSeq X × ℕ)) : Prop where
  sequences : shares.map Prod.fst = active
  /-- One call for each grant, of the next tokens of its sequence. -/
  calls : prompts = shares.filterMap fun share => share.1.promptCall share.2
  waiting : ∀ share ∈ shares, 0 < share.2 →
    Prefillable maxContextLen share.1 ∧ share.2 ≤ share.1.wanted chunkSize
  /-- What is deferred is left as it was. -/
  deferred : List.Forall₂ (fun share next => Prefillable maxContextLen share.1 → share.2 = 0 →
    next = (share.1, .skipped)) shares after

/-- Shares within a budget, spent in the list's order. -/
structure WithinBudget (maxContextLen chunkSize tokenBudget : ℕ) (prompts : List PromptCall)
    (shares : List (ActiveSeq X × ℕ)) : Prop where
  total_le : (prompts.map fun call => call.tokens.length).sum ≤ tokenBudget
  ordered : shares.Pairwise fun first second => Prefillable maxContextLen first.1 →
    0 < second.2 → first.2 = first.1.wanted chunkSize
  first : ∀ before share after, shares = before ++ share :: after →
    (∀ other ∈ before, ¬Prefillable maxContextLen other.1) →
      Prefillable maxContextLen share.1 → 0 < share.2

section Main

variable {D : Type u} {Row : Type v} [BatchedDecoder D Row]
  {sample : D → Logits Row → InferenceResult (List Token) × D} {stopIds : List Token}

/-- A deferred prompt comes out of the round as it went in. -/
theorem stepRound_deferred (chunkSize : ℕ) (budget : PrefillBudget) (active : List (ActiveSeq X))
    (decoder : D) :
    let maxContextLen := BatchedDecoder.maxContextLen decoder
    let round := stepRound sample stopIds budget chunkSize active decoder
    List.Forall₂ (fun share next => Prefillable maxContextLen share.1 → share.2 = 0 →
        next = (share.1, .skipped))
      (shares maxContextLen chunkSize active budget) (round.1.zip round.2.1) := by
  intro maxContextLen round
  have hpushed := @prefillPass_deferred D Row X _ sample stopIds chunkSize
    (active.map (classify maxContextLen)) budget decoder
  rw [List.zip_map_left, List.forall₂_map_left_iff] at hpushed
  have hround : round.1.zip round.2.1 =
      List.map (fun entry : Entry X => (entry.seq, entry.outcome)) _ := List.zip_map'
  rw [hround, List.forall₂_map_right_iff]
  refine forall₂_comp ?_ hpushed (decodePass_forall₂ _ _)
  rintro ⟨seq, granted⟩ pushed settled hpushed ⟨sampled, rfl⟩ hwaiting hgranted
  obtain rfl := hpushed hgranted
  have hcase : classify maxContextLen seq = ⟨seq, .prefill, .skipped⟩ := hwaiting.classify_eq
  simp [hcase, Entry.settle]

/-- **The prompt budget.** Whatever the decoder answers: while something decodes
the prompts of a round share the token budget in the list's order, and otherwise
each is pushed as far as one chunk goes. -/
theorem prompt_budget (active : List (ActiveSeq X)) (chunkSize : ℕ) {tokenBudget : ℕ}
    (hbudget : 0 < tokenBudget) (decoder : D) :
    let maxContextLen := BatchedDecoder.maxContextLen decoder
    let budget := PrefillBudget.forRound active tokenBudget
    let round := stepRound sample stopIds budget chunkSize active decoder
    ∃ prompts shares,
      stepRound (Recorded.sampling sample) stopIds budget chunkSize active ⟨decoder, []⟩ =
        (round.1, round.2.1, ⟨round.2.2, prompts⟩) ∧
      PromptShares maxContextLen chunkSize active prompts (round.1.zip round.2.1) shares ∧
      if active.any ActiveSeq.isDecoding then
        WithinBudget maxContextLen chunkSize tokenBudget prompts shares
      else
        ∀ share ∈ shares, Prefillable maxContextLen share.1 →
          share.2 = share.1.wanted chunkSize := by
  intro maxContextLen budget round
  refine ⟨_, shares maxContextLen chunkSize active budget,
    by rw [stepRound_recorded, promptCalls_eq], ⟨shares_fst _ _ _ _, rfl,
      fun share => shares_waiting, stepRound_deferred chunkSize budget active decoder⟩, ?_⟩
  split
  · next hdecoding =>
      have hremaining : budget.remaining = some tokenBudget := by
        simp [budget, PrefillBudget.forRound, hdecoding, hbudget]
      refine ⟨?_, shares_pairwise, fun before share after => shares_first ?_⟩
      · rw [length_promptCalls]
        · exact shares_sum_le hremaining
        · intro share hshare
          rcases Nat.eq_zero_or_pos share.2 with hzero | hpos
          · omega
          · exact (shares_waiting hshare hpos).2.trans (share.1.wanted_le chunkSize)
      · rw [hremaining]
        simpa using hbudget.ne'
  · next hdecoding =>
      refine fun share => shares_unlimited ?_
      simp [budget, PrefillBudget.forRound, hdecoding]

end Main

/-- A small context, and the sum of a lane as its next token. -/
private def mixedConfig : RecallConfig where
  capacity := ⟨3, .unlimited⟩
  admission := .reserve
  chunkSize := 0
  tokenBudget := 5
  contextLen := 64
  stops := []
  generationCap := 8
  next := List.sum

/-- One sequence decoding ahead of two prompts. -/
private def mixedRound : List (ActiveSeq Unit) :=
  [⟨0, [1, 2], 1, 1, 5, false, 0, false, ()⟩, ⟨1, [3, 4, 5, 6], 0, 0, 5, false, 0, false, ()⟩,
    ⟨2, [7, 8, 9], 0, 0, 5, false, 0, false, ()⟩]

/-- The second prompt takes what the first left. -/
theorem prompt_budget_mixed :
    0 < mixedConfig.tokenBudget ∧ mixedRound.any ActiveSeq.isDecoding = true ∧ ∃ shares,
      WithinBudget 64 0 5 [⟨1, [3, 4, 5, 6], 0⟩, ⟨2, [7], 0⟩] (shares : List (ActiveSeq Unit × ℕ)) ∧
      shares.map Prod.fst = mixedRound := by
  have hbudget : 0 < mixedConfig.tokenBudget := by decide
  have hdecoding : mixedRound.any ActiveSeq.isDecoding = true := rfl
  refine ⟨hbudget, hdecoding, ?_⟩
  obtain ⟨prompts, shares, hround, hshares, hwithin⟩ :=
    @prompt_budget Unit (RecallServer mixedConfig) (List Token) _ (sampler .fresh) []
      mixedRound 0 _ hbudget .fresh
  have hprompts := congrArg (fun round => round.2.2.prompts) hround
  obtain rfl : [⟨1, [3, 4, 5, 6], 0⟩, ⟨2, [7], 0⟩] = prompts := hprompts
  rw [if_pos hdecoding] at hwithin
  exact ⟨shares, hwithin, hshares.sequences⟩

end BurnLm.Inference
