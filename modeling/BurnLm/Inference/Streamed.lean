/-
# What a request is streamed

Only rounds stream. A round's tokens go out in one batch, in the order of its
sequences, stop tokens left out; whoever is in the batch has been handed over and
has not been retired, however often it was evicted in between. So a request's mail
is orderly in every run, and its mailbox ends with the text of its own tokens.
-/

import BurnLm.Inference.Mailbox
import BurnLm.Inference.RecallServer

namespace BurnLm.Inference

open BurnLm.Math

universe u v w

variable {Task : Type w}

/-! ## Columns -/

/-- The token an entry streams, and for whom: a stop token is not streamed. -/
def Effect.streaming : Effect Task → Option (ℕ × Token)
  | .advanced id (.stepped token false _) => some (id, token)
  | _ => none

/-- What one outcome streams. -/
def StepOutcome.streamed : StepOutcome → List Token
  | .stepped token false _ => [token]
  | _ => []

/-- The tokens streamed, with the ids they were generated for. -/
def streamings (log : List (Effect Task)) : List (ℕ × Token) := log.filterMap Effect.streaming

/-- The tokens streamed for one request, in the order they were generated. -/
def streamedFor (log : List (Effect Task)) (id : ℕ) : List Token :=
  ((streamings log).filter fun entry => entry.1 = id).map Prod.snd

@[simp]
theorem streamings_append (log effects : List (Effect Task)) :
    streamings (log ++ effects) = streamings log ++ streamings effects :=
  List.filterMap_append

theorem streamedFor_append (log effects : List (Effect Task)) (id : ℕ) :
    streamedFor (log ++ effects) id = streamedFor log id ++ streamedFor effects id := by
  simp [streamedFor]

theorem generatedFor_append (log effects : List (Effect Task)) (id : ℕ) :
    generatedFor (log ++ effects) id = generatedFor log id ++ generatedFor effects id := by
  simp [generatedFor]

/-- An entry that neither generates nor ships nor hands over. -/
def Effect.isCalm : Effect Task → Bool
  | .advanced _ _ => false
  | .sent (.tokens _) => false
  | .sent (.admitted _ _ _ _) => false
  | _ => true

/-- Entries that generate and stream nothing, and hand over what they give an id to. -/
structure Still (effects : List (Effect Task)) : Prop where
  generations : generations effects = []
  streamings : streamings effects = []
  unshipped : ∀ batch, .tokens batch ∉ sentEvents effects
  handed : ∀ id emitter detok completion,
    .admitted id emitter detok completion ∈ sentEvents effects →
      ∃ queued, (id, queued) ∈ assignments effects ∧ emitter = queued.job.emitter ∧
        detok = .new ∧ completion = queued.completion

theorem Effect.columns_of_isCalm {effect : Effect Task} (hcalm : effect.isCalm = true) :
    effect.generation = none ∧ effect.streaming = none ∧
      (∀ batch, effect.event ≠ some (.tokens batch)) ∧
      ∀ id emitter detok completion,
        effect.event ≠ some (.admitted id emitter detok completion) := by
  cases effect with
  | advanced => simp [Effect.isCalm] at hcalm
  | sent event =>
      refine ⟨rfl, rfl, fun batch hevent => ?_, fun id emitter detok completion hevent => ?_⟩
      · obtain rfl := Option.some.inj hevent
        simp [Effect.isCalm] at hcalm
      · obtain rfl := Option.some.inj hevent
        simp [Effect.isCalm] at hcalm
  | _ => exact ⟨rfl, rfl, by simp [Effect.event], by simp [Effect.event]⟩

theorem still_of_calm {effects : List (Effect Task)}
    (hcalm : ∀ effect ∈ effects, effect.isCalm = true) : Still effects where
  generations := List.filterMap_eq_nil_iff.mpr fun effect heffect =>
    (Effect.columns_of_isCalm (hcalm effect heffect)).1
  streamings := List.filterMap_eq_nil_iff.mpr fun effect heffect =>
    (Effect.columns_of_isCalm (hcalm effect heffect)).2.1
  unshipped := by
    intro batch hmem
    obtain ⟨effect, heffect, hevent⟩ := List.mem_filterMap.mp hmem
    exact (Effect.columns_of_isCalm (hcalm effect heffect)).2.2.1 batch hevent
  handed := by
    intro id emitter detok completion hmem
    obtain ⟨effect, heffect, hevent⟩ := List.mem_filterMap.mp hmem
    exact absurd hevent
      ((Effect.columns_of_isCalm (hcalm effect heffect)).2.2.2 id emitter detok completion)

theorem calm_of_isAnswer {effect : Effect Task} (hanswer : effect.isAnswer = true) :
    effect.isCalm = true := by
  cases effect <;> first | rfl | simp [Effect.isAnswer] at hanswer

theorem shipments_of_unshipped {events : List EmissionEvent}
    (hunshipped : ∀ batch, .tokens batch ∉ events) : shipments events = [] := by
  rw [shipments, List.flatMap_eq_nil_iff]
  intro event hevent
  cases event with
  | tokens batch => exact absurd hevent (hunshipped batch)
  | _ => rfl

namespace Worker

variable {S : Type u} {Row : Type v} [BatchedInferenceServer S Row Task]

/-- Everything but a round is still. -/
theorem Move.still_or_round {env : TurnEnv Task} {worker next : Worker S Task}
    (hmove : Move env worker next) :
    (∃ effects, next.log = worker.log ++ effects ∧ Still effects) ∨
      ∃ configured, next = runRound configured { worker with server := (decoder worker.server).2 } := by
  have hnothing : Still ([] : List (Effect Task)) := still_of_calm (by simp)
  have hretire : ∀ (seqs : List JobSeq) (reply : JobSeq → InferenceResult Stats),
      Still (seqs.map fun seq => Effect.sent (.retire seq.extra.id (reply seq)) :
        List (Effect Task)) := by
    intro seqs reply
    refine still_of_calm fun effect heffect => ?_
    obtain ⟨seq, _, rfl⟩ := List.mem_map.mp heffect
    rfl
  cases hmove with
  | command given hgiven =>
      refine Or.inl ?_
      rcases handleCommand_cases (worker.emit [.received given]) given with
        ⟨queued, _, hcase⟩ | ⟨_, hcase⟩ | ⟨_, server, effects, hcase, hanswers, _⟩ <;> rw [hcase]
      · exact ⟨[.received given], rfl, still_of_calm (by simp [Effect.isCalm])⟩
      · exact ⟨[.received given], rfl, still_of_calm (by simp [Effect.isCalm])⟩
      · refine ⟨.received given :: effects, by simp [emit], still_of_calm ?_⟩
        exact List.forall_mem_cons.mpr ⟨rfl, fun effect heffect =>
          calm_of_isAnswer (hanswers effect heffect)⟩
  | admission hadmission =>
      refine Or.inl ?_
      cases hadmission with
      | borrow => exact ⟨[], (List.append_nil _).symm, hnothing⟩
      | resume => exact ⟨[], (List.append_nil _).symm, hnothing⟩
      | reject front rest error hqueue =>
          exact ⟨_, rfl, still_of_calm (by simp [Effect.isCalm])⟩
      | start front rest tokens maxGen guaranteed slot hqueue =>
          refine ⟨_, rfl, rfl, rfl, by simp [sentEvents, Effect.event], ?_⟩
          intro id emitter detok completion hmem
          obtain ⟨rfl, rfl, rfl, rfl⟩ : worker.nextId = id ∧ front.job.emitter = emitter ∧
              .new = detok ∧ front.completion = completion := by
            simpa [sentEvents, Effect.event] using hmem
          exact ⟨front, by simp [assignments, Effect.assignment], rfl, rfl, rfl⟩
  | sweep => exact Or.inl ⟨[], (List.append_nil _).symm, hnothing⟩
  | regrowth measured hregrowth =>
      cases hregrowth <;> exact Or.inl ⟨[], (List.append_nil _).symm, hnothing⟩
  | round configured hborrowed hcovered => exact Or.inr ⟨configured, rfl⟩
  | retire => exact Or.inl ⟨_, rfl, hretire _ _⟩
  | fail error hrefused => exact Or.inl ⟨_, rfl, hretire _ _⟩

/-! ## Rounds -/

/-- The bytes of a token, as some state of the server spells it. -/
def Spells (S : Type u) {Row : Type v} {Task : Type w} [BatchedInferenceServer S Row Task]
    (token : Token) (piece : List UInt8) : Prop :=
  ∃ server : S, detokenizeBytes server [token] = piece

omit [BatchedInferenceServer S Row Task] in
theorem streamings_roundEffects (entries : List (Entry JobMeta)) :
    streamings (roundEffects entries : List (Effect Task)) =
      entries.flatMap fun entry => entry.outcome.streamed.map (entry.seq.extra.id, ·) := by
  unfold roundEffects
  induction entries with
  | nil => rfl
  | cons entry entries ih =>
      rw [List.flatMap_cons, streamings_append, ih, List.flatMap_cons]
      congr 1
      rcases entry.outcome with _ | ⟨token, _ | _, finished⟩ | _ | _ <;> rfl

omit [BatchedInferenceServer S Row Task] in
theorem sentEvents_roundEffects (entries : List (Entry JobMeta)) :
    sentEvents (roundEffects entries : List (Effect Task)) =
      entries.flatMap fun entry => entry.outcome.failures.map fun error =>
        .retire entry.seq.extra.id (.error error) := by
  unfold roundEffects
  induction entries with
  | nil => rfl
  | cons entry entries ih =>
      rw [List.flatMap_cons, sentEvents_append, ih, List.flatMap_cons]
      congr 1
      cases entry.outcome <;> rfl

/-- A server that spells a token always the same way spells tokens one by one. -/
theorem eq_map_of_spells {bytes : Token → List UInt8}
    (hbytes : ∀ (server : S) (token : Token), detokenizeBytes server [token] = bytes token)
    {tokens : List Token} {pieces : List (List UInt8)}
    (hpieces : List.Forall₂ (Spells S) tokens pieces) : pieces = tokens.map bytes := by
  induction hpieces with
  | nil => rfl
  | cons hhead _ ih =>
      obtain ⟨server, rfl⟩ := hhead
      rw [List.map_cons, ← ih, hbytes]

/-- What a round ships is what it streams, token by token. -/
theorem batch_spells (server : S) (entries : List (Entry JobMeta)) :
    List.Forall₂ (fun (token : ℕ × Token) (piece : ℕ × List UInt8) =>
        token.1 = piece.1 ∧ Spells S token.2 piece.2)
      (entries.flatMap fun entry => entry.outcome.streamed.map (entry.seq.extra.id, ·))
      (entries.flatMap fun entry => outcomeTokens server entry.seq entry.outcome) := by
  induction entries with
  | nil => exact .nil
  | cons entry entries ih =>
      rw [List.flatMap_cons, List.flatMap_cons]
      refine List.rel_append ?_ ih
      rcases entry.outcome with _ | ⟨token, _ | _, finished⟩ | _ | _
      · exact .nil
      · exact .cons ⟨rfl, server, rfl⟩ .nil
      · exact .nil
      · exact .nil
      · exact .nil

/-- What the mail of every request rests on. -/
structure Streamed (worker : Worker S Task) : Prop where
  handed : ∀ id emitter detok completion,
    .admitted id emitter detok completion ∈ sentEvents worker.log →
      ∃ queued, (id, queued) ∈ assignments worker.log ∧ emitter = queued.job.emitter ∧
        detok = .new ∧ completion = queued.completion
  spelled : List.Forall₂ (fun (token : ℕ × Token) (piece : ℕ × List UInt8) =>
    token.1 = piece.1 ∧ Spells S token.2 piece.2) (streamings worker.log)
    (shipments (sentEvents worker.log))
  shipped : ∀ sent batch, sent ++ [.tokens batch] <+: sentEvents worker.log →
    ∀ token ∈ batch, token.1 ∈ admittedIds sent ∧ token.1 ∉ retiredIds sent
  /-- Nothing is generated after a stop token, and nothing else is left out. -/
  stopped : ∀ id, ∃ stop : Option Token,
    generatedFor worker.log id = streamedFor worker.log id ++ stop.toList ∧
      ∀ token ∈ stop, (∃ server : S, token ∈ stopIds server) ∧ ¬worker.Pending id

theorem Streamed.spawn (server : S) : (spawn server : Worker S Task).Streamed := by
  constructor
  case handed => simp [Worker.spawn, sentEvents]
  case spelled => exact .nil
  case shipped => simp [Worker.spawn, sentEvents]
  case stopped => exact fun id => ⟨none, by simp [Worker.spawn, generatedFor, generations,
    streamedFor, streamings], by simp⟩

/-- Still entries leave everyone's mail as it is. -/
theorem Streamed.still {worker next : Worker S Task} {effects : List (Effect Task)}
    (hworker : worker.Streamed) (haccounted : worker.Accounted)
    (hlog : next.log = worker.log ++ effects) (hstill : Still effects)
    (hpending : ∀ id, next.Pending id → worker.Pending id ∨ id = worker.nextId) :
    next.Streamed := by
  constructor
  case handed =>
    intro id emitter detok completion hmem
    rw [hlog, sentEvents_append, List.mem_append] at hmem
    rw [hlog, assignments_append]
    rcases hmem with hmem | hmem
    · obtain ⟨queued, hqueued, hrest⟩ := hworker.handed id emitter detok completion hmem
      exact ⟨queued, List.mem_append_left _ hqueued, hrest⟩
    · obtain ⟨queued, hqueued, hrest⟩ := hstill.handed id emitter detok completion hmem
      exact ⟨queued, List.mem_append_right _ hqueued, hrest⟩
  case spelled =>
    rw [hlog, streamings_append, sentEvents_append, shipments_append, hstill.streamings,
      shipments_of_unshipped hstill.unshipped, List.append_nil, List.append_nil]
    exact hworker.spelled
  case shipped =>
    intro sent batch hsent
    rw [hlog, sentEvents_append] at hsent
    rcases concat_prefix_append hsent with hsent | ⟨middle, _, hmiddle⟩
    · exact hworker.shipped sent batch hsent
    · exact absurd (hmiddle.subset (by simp)) (hstill.unshipped batch)
  case stopped =>
    intro id
    obtain ⟨stop, hgenerated, hstop⟩ := hworker.stopped id
    refine ⟨stop, ?_, fun token htoken => ⟨(hstop token htoken).1, fun hid => ?_⟩⟩
    · rw [hlog, generatedFor_append, streamedFor_append]
      simp [generatedFor, streamedFor, hstill.generations, hstill.streamings] at hgenerated ⊢
      exact hgenerated
    · rcases hpending id hid with hid | rfl
      · exact (hstop token htoken).2 hid
      · -- nothing was generated under an id not given out yet
        have hmem : token ∈ generatedFor worker.log worker.nextId := by
          rw [hgenerated]
          exact List.mem_append_right _ (by simpa using htoken)
        rw [haccounted.generatedFor_unassigned haccounted.fresh] at hmem
        exact absurd hmem List.not_mem_nil

omit [BatchedInferenceServer S Row Task] in
theorem streamings_shipment (batch : List (ℕ × List UInt8)) :
    streamings (shipment batch : List (Effect Task)) = [] := by
  unfold shipment
  split <;> rfl

omit [BatchedInferenceServer S Row Task] in
/-- A shipment is one event at most. -/
theorem prefix_shipment {before : List EmissionEvent} {batch other : List (ℕ × List UInt8)}
    (hstart : before ++ [.tokens other] <+: sentEvents (shipment batch : List (Effect Task))) :
    before = [] ∧ other = batch := by
  unfold shipment at hstart
  split at hstart
  · simp [sentEvents] at hstart
  · have hlength := hstart.length_le
    simp only [List.length_append, List.length_singleton] at hlength
    obtain rfl : before = [] := by simpa [sentEvents, Effect.event] using hlength
    simpa [sentEvents, Effect.event] using hstart

theorem mem_outcomeTokens {server : S} {seq : JobSeq} {outcome : StepOutcome}
    {token : ℕ × List UInt8} (htoken : token ∈ outcomeTokens server seq outcome) :
    token.1 = seq.extra.id ∧ outcome.streamed ≠ [] := by
  rcases outcome with _ | ⟨generated, _ | _, finished⟩ | _ | _
  · simp [outcomeTokens] at htoken
  · obtain rfl := List.mem_singleton.mp htoken
    exact ⟨rfl, by simp [StepOutcome.streamed]⟩
  · simp [outcomeTokens] at htoken
  · simp [outcomeTokens] at htoken
  · simp [outcomeTokens] at htoken

/-- What a step generates and streams: nothing, or a token of an unfinished sequence,
which is streamed unless it is a stop token, and finishes the sequence if it is. -/
theorem streams_cases {X : Type w} {maxContextLen : ℕ} {stopIds : List Token}
    {seq next : ActiveSeq X} {outcome : StepOutcome}
    (hstep : SeqStep maxContextLen stopIds seq next outcome) :
    (outcome.tokens = [] ∧ outcome.streamed = []) ∨
      (seq.finished = false ∧ outcome.failures = [] ∧ ∃ token, outcome.tokens = [token] ∧
        ((token ∉ stopIds ∧ outcome.streamed = [token]) ∨
          token ∈ stopIds ∧ outcome.streamed = [] ∧ next.finished = true)) := by
  cases hstep with
  | stepped hunfinished _ _ _ _ token =>
      refine Or.inr ⟨hunfinished, rfl, token, rfl, ?_⟩
      by_cases htoken : token ∈ stopIds
      · exact Or.inr ⟨htoken, by simp [advanceOrFail, StepOutcome.streamed, htoken],
          by simp [advanceOrFail, htoken]⟩
      · exact Or.inl ⟨htoken, by simp [advanceOrFail, StepOutcome.streamed, htoken]⟩
  | _ => exact Or.inl ⟨rfl, rfl⟩

omit [BatchedInferenceServer S Row Task] in
/-- The columns of a round read back for one request. -/
theorem roundEffects_for (entries : List (Entry JobMeta)) (batch : List (ℕ × List UInt8)) (id : ℕ) :
    generatedFor (roundEffects entries ++ shipment batch : List (Effect Task)) id =
        (entries.filter fun entry => entry.seq.extra.id = id).flatMap (·.outcome.tokens) ∧
      streamedFor (roundEffects entries ++ shipment batch : List (Effect Task)) id =
        (entries.filter fun entry => entry.seq.extra.id = id).flatMap (·.outcome.streamed) := by
  obtain ⟨_, hgenerated, _, _⟩ := @roundEffects_columns Task entries
  constructor
  · rw [generatedFor, generations_append, hgenerated, (quiet_shipment batch).generations,
      List.append_nil]
    exact column_flatMap entries (·.seq.extra.id) (·.outcome.tokens) id
  · rw [streamedFor, streamings_append, streamings_roundEffects, streamings_shipment, List.append_nil]
    exact column_flatMap entries (·.seq.extra.id) (·.outcome.streamed) id

omit [BatchedInferenceServer S Row Task] in
/-- What a round generates for one of its sequences, and for anybody else. -/
theorem generatedFor_roundEffects {entries : List (Entry JobMeta)}
    (batch : List (ℕ × List UInt8)) (hnodup : (entries.map fun entry => entry.seq.extra.id).Nodup) :
    (∀ entry ∈ entries, generatedFor (roundEffects entries ++ shipment batch : List (Effect Task))
      entry.seq.extra.id = entry.outcome.tokens) ∧
    ∀ id, (∀ entry ∈ entries, entry.seq.extra.id ≠ id) →
      generatedFor (roundEffects entries ++ shipment batch : List (Effect Task)) id = [] := by
  refine ⟨fun entry hentry => ?_, fun id hnobody => ?_⟩
  · rw [(roundEffects_for entries batch _).1, filter_key_eq_singleton hnodup hentry,
      List.flatMap_singleton]
  · rw [(roundEffects_for entries batch id).1, filter_key_eq_nil hnobody]
    rfl

/-- A round streams what it generates, to whom it is due. -/
theorem Streamed.round {worker : Worker S Task} (hworker : worker.Streamed)
    (haccounted : worker.Accounted) (configured server : S)
    (hpending : ∀ id, (runRound configured { worker with server }).Pending id → worker.Pending id) :
    (runRound configured { worker with server }).Streamed := by
  obtain ⟨entries, shipper, hsteps, hactive, hlog⟩ :=
    runRound_shipped configured { worker with server }
  have hids := ids_of_steps hsteps
  have hnodup : (entries.map fun entry => entry.seq.extra.id).Nodup := by
    rw [hids]
    exact (List.nodup_append.mp haccounted.nodup).1
  have hfailures := @sentEvents_roundEffects Task entries
  obtain ⟨_, _, _, hretired⟩ := @roundEffects_columns Task entries
  set batch := entries.flatMap fun entry => outcomeTokens shipper entry.seq entry.outcome with hbatch
  have hshipment : shipments (sentEvents (shipment batch : List (Effect Task))) = batch := by
    unfold shipment
    split
    · next hnil => rw [hnil]; rfl
    · simp [sentEvents, Effect.event, shipments]
  have hgone : ∀ entry ∈ entries, entry.seq.finished = true →
      ¬(runRound configured { worker with server }).Pending entry.seq.extra.id := by
    intro entry hentry hfinished hstill
    rcases pending_runRound hactive hstill with ⟨other, hother, hunfinished, hid⟩ | ⟨job, hjob, hid⟩
    · obtain rfl := List.inj_on_of_nodup_map hnodup hother hentry hid
      simp [hfinished] at hunfinished
    · obtain ⟨seq, hseq, hstep⟩ := exists_of_forall₂_right hsteps hentry
      exact haccounted.id_ne hseq hjob (by rw [hid, hstep.frame.2.2.2.2])
  have hunshipped : ∀ other, .tokens other ∉ sentEvents (roundEffects entries : List (Effect Task)) := by
    rw [hfailures]
    simp
  have hunhanded : ∀ id emitter detok completion, .admitted id emitter detok completion ∉
      sentEvents (roundEffects entries ++ shipment batch : List (Effect Task)) := by
    intro id emitter detok completion hmem
    rw [sentEvents_append, hfailures, List.mem_append] at hmem
    rcases hmem with hmem | hmem
    · simp at hmem
    · unfold shipment at hmem
      split at hmem <;> simp [sentEvents, Effect.event] at hmem
  constructor
  case handed =>
    intro id emitter detok completion hmem
    rw [hlog, sentEvents_append, List.mem_append] at hmem
    obtain ⟨queued, hqueued, hrest⟩ := hworker.handed id emitter detok completion
      (hmem.resolve_right (hunhanded id emitter detok completion))
    rw [hlog, assignments_append]
    exact ⟨queued, List.mem_append_left _ hqueued, hrest⟩
  case spelled =>
    rw [hlog, streamings_append, sentEvents_append, shipments_append]
    refine List.rel_append hworker.spelled ?_
    rw [streamings_append, sentEvents_append, shipments_append, hshipment,
      shipments_of_unshipped hunshipped, streamings_roundEffects, streamings_shipment,
      List.append_nil, List.nil_append]
    exact batch_spells shipper entries
  case shipped =>
    intro sent other hsent token htoken
    rw [hlog, sentEvents_append, sentEvents_append] at hsent
    rcases concat_prefix_append hsent with hsent | ⟨middle, rfl, hmiddle⟩
    · exact hworker.shipped sent other hsent token htoken
    rcases concat_prefix_append hmiddle with hround | ⟨last, rfl, hlast⟩
    · exact absurd (hround.subset (by simp)) (hunshipped other)
    obtain ⟨rfl, rfl⟩ := prefix_shipment hlast
    obtain ⟨entry, hentry, htoken⟩ := List.mem_flatMap.mp htoken
    obtain ⟨hid, hstreams⟩ := mem_outcomeTokens htoken
    obtain ⟨seq, hseq, hstep⟩ := exists_of_forall₂_right hsteps hentry
    have hseqId : seq.extra.id = token.1 := by rw [hid, hstep.frame.2.2.2.2]
    rcases streams_cases hstep with ⟨_, hnone⟩ | ⟨hunfinished, hsound, _⟩
    · exact absurd hnone hstreams
    rw [List.append_nil, mem_admittedIds_append, mem_retiredIds_append, not_or]
    refine ⟨Or.inl ?_, ?_, fun hmem => ?_⟩
    · rw [haccounted.admittedIds_eq, ← hseqId]
      exact haccounted.live_assigned _ (mem_liveIds_of_active hseq)
    · exact haccounted.unretired _ (Or.inl ⟨seq, hseq, hunfinished, hseqId⟩)
    · -- whoever failed in this round is somebody else
      rw [retiredIds, hretired] at hmem
      obtain ⟨_, hmem, hkey⟩ := List.mem_map.mp hmem
      obtain ⟨failing, hfailing, hmem⟩ := List.mem_flatMap.mp hmem
      obtain ⟨error, herror, rfl⟩ := List.mem_map.mp hmem
      obtain rfl := List.inj_on_of_nodup_map hnodup hfailing hentry (hkey.trans hid)
      simp [hsound] at herror
  case stopped =>
    intro id
    obtain ⟨stop, hgenerated, hstop⟩ := hworker.stopped id
    obtain ⟨hgenerates, hstreams⟩ := @roundEffects_for Task entries batch id
    have hkeeps : ∀ token ∈ stop, (∃ server : S, token ∈ stopIds server) ∧
        ¬(runRound configured { worker with server }).Pending id := fun token htoken =>
      ⟨(hstop token htoken).1, fun hid => (hstop token htoken).2 (hpending id hid)⟩
    rw [hlog, generatedFor_append, streamedFor_append, hgenerates, hstreams, hgenerated]
    by_cases hentry : ∃ entry ∈ entries, entry.seq.extra.id = id
    · obtain ⟨entry, hentry, rfl⟩ := hentry
      obtain ⟨seq, hseq, hstep⟩ := exists_of_forall₂_right hsteps hentry
      have hseqId : seq.extra.id = entry.seq.extra.id := by rw [hstep.frame.2.2.2.2]
      rw [filter_key_eq_singleton hnodup hentry, List.flatMap_singleton, List.flatMap_singleton]
      rcases streams_cases hstep with ⟨htokens, hstreamed⟩ | ⟨hunfinished, _, token, htokens, hkind⟩
      · rw [htokens, hstreamed]
        exact ⟨stop, by simp, hkeeps⟩
      · obtain rfl : stop = none := by
          refine Option.eq_none_iff_forall_not_mem.mpr fun token htoken => ?_
          exact (hstop token htoken).2 (Or.inl ⟨seq, hseq, hunfinished, hseqId⟩)
        rw [htokens]
        rcases hkind with ⟨_, hstreamed⟩ | ⟨hstopId, hstreamed, hfinished⟩ <;> rw [hstreamed]
        · exact ⟨none, by simp, by simp⟩
        · refine ⟨some token, by simp, fun other hother => ?_⟩
          obtain rfl := Option.some.inj hother
          exact ⟨⟨configured, hstopId⟩, hgone entry hentry hfinished⟩
    · have hnobody : ∀ entry ∈ entries, entry.seq.extra.id ≠ id :=
        fun entry hentry' hid => hentry ⟨entry, hentry', hid⟩
      rw [filter_key_eq_nil hnobody]
      exact ⟨stop, by simp, hkeeps⟩

theorem Streamed.move {env : TurnEnv Task} {worker next : Worker S Task}
    (hworker : worker.Streamed) (haccounted : worker.Accounted) (hmove : Move env worker next) :
    next.Streamed := by
  rcases hmove.still_or_round with ⟨effects, hlog, hstill⟩ | ⟨configured, rfl⟩
  · exact hworker.still haccounted hlog hstill fun id => haccounted.pending_of_move hmove
  · obtain ⟨effects, hcarries⟩ := haccounted.round_carries configured (decoder worker.server).2
    exact hworker.round haccounted configured _ fun id hid => (hcarries.pending id hid).1

/-- In every run the log accounts for what the worker holds, and the mail is in
order. -/
theorem streamed_of_run (server : S) (envs : List (TurnEnv Task)) :
    (run envs (spawn server)).2.Accounted ∧ (run envs (spawn server)).2.Streamed :=
  @run_induction _ _ _ _ (fun worker => worker.Accounted ∧ worker.Streamed) envs
    (fun _ _ _ _ hbefore hmove => ⟨hbefore.1.move hmove, hbefore.2.move hbefore.1 hmove⟩) _
    ⟨Accounted.spawn server, Streamed.spawn server⟩

omit [BatchedInferenceServer S Row Task] in
theorem eq_of_mem_assignments {worker : Worker S Task} (hworker : worker.Accounted) {id : ℕ}
    {first second : QueuedJob Task} (hfirst : (id, first) ∈ assignments worker.log)
    (hsecond : (id, second) ∈ assignments worker.log) : first = second :=
  (Prod.mk.inj (List.inj_on_of_nodup_map hworker.assigned_nodup hfirst hsecond rfl)).2

/-- A request's mail is orderly. -/
theorem Streamed.orderly {worker : Worker S Task} (hworker : worker.Streamed)
    (haccounted : worker.Accounted) {id : ℕ} {queued : QueuedJob Task}
    (hqueued : (id, queued) ∈ assignments worker.log) :
    Orderly id queued.job.emitter queued.completion (sentEvents worker.log) where
  handed := by
    intro emitter detok completion hmem
    obtain ⟨other, hother, hrest⟩ := hworker.handed id emitter detok completion hmem
    obtain rfl := eq_of_mem_assignments haccounted hother hqueued
    exact hrest
  once := by
    rw [haccounted.admittedIds_eq]
    exact haccounted.assigned_nodup
  shipped := hworker.shipped
  retired := haccounted.retired_admitted

/-- What is streamed for one request is spelled in its pieces. -/
theorem Streamed.pieces {worker : Worker S Task} (hworker : worker.Streamed) (id : ℕ) :
    List.Forall₂ (Spells S) (streamedFor worker.log id)
      (piecesFor (sentEvents worker.log) id) := by
  have hspelled := hworker.spelled
  unfold streamedFor piecesFor
  generalize streamings worker.log = tokens at hspelled ⊢
  generalize shipments (sentEvents worker.log) = pieces at hspelled ⊢
  induction hspelled with
  | nil => exact .nil
  | @cons token piece tokens pieces hhead _ ih =>
      by_cases hid : token.1 = id
      · rw [List.filter_cons_of_pos (by simpa using hid),
          List.filter_cons_of_pos (by simpa [← hhead.1] using hid)]
        exact .cons hhead.2 ih
      · rw [List.filter_cons_of_neg (by simpa using hid),
          List.filter_cons_of_neg (by simpa [← hhead.1] using hid)]
        exact ih

/-- **What a request is streamed.** In every run, of every request that has been told
a reply: what the emission thread hands on to it is text for its emitter and then the
reply, and nothing after it. The text is the lossy decoding of the byte strings of
its own generated tokens, in order, one each, without the stop token that may have
ended it; if the server always spells a token the same way, of those byte strings.
The events of other requests do not matter. -/
theorem delivered_stream (server : S) (envs : List (TurnEnv Task)) (id : ℕ)
    (queued : QueuedJob Task) (hqueued : (id, queued) ∈ assignments (run envs (spawn server)).2.log)
    (reply : InferenceResult Stats)
    (hreply : verdict (run envs (spawn server)).2.log id = some reply) :
    let log := (run envs (spawn server)).2.log
    let events := sentEvents log
    (events.foldl Emission.receive .spawn).delivered =
        (Emission.spawn.allHanded events).map Prod.snd ∧
      received id events = received id (events.filterMap (EmissionEvent.about id)) ∧
      ∃ (texts : List (List Char)) (pieces : List (List UInt8)) (stop : Option Token),
        received id events =
            texts.map (.text queued.job.emitter) ++ [.completed queued.completion reply] ∧
          texts.flatten = Utf8Buffer.fromUtf8Lossy pieces.flatten ∧
          List.Forall₂ (Spells S) (streamedFor log id) pieces ∧
          (∀ bytes : Token → List UInt8,
            (∀ (server : S) (token : Token), detokenizeBytes server [token] = bytes token) →
              pieces = (streamedFor log id).map bytes) ∧
          generatedFor log id = streamedFor log id ++ stop.toList ∧
          ∀ token ∈ stop, ∃ server : S, token ∈ stopIds server := by
  intro log events
  obtain ⟨haccounted, hstreamed⟩ := streamed_of_run server envs
  refine ⟨?_, received_about id events, ?_⟩
  · rw [Emission.allHanded_delivered]
    rfl
  obtain ⟨stop, hgenerated, hstop⟩ := hstreamed.stopped id
  have hstage := stage_of_orderly (hstreamed.orderly haccounted hqueued)
  obtain ⟨found, hfound, rfl⟩ := Option.map_eq_some_iff.mp hreply
  generalize hmailbox : (sentEvents (Worker.run envs (Worker.spawn server)).2.log).foldl
    (Mailbox.receive id) .empty = mailbox at hstage
  have hreceived : received id events = mailbox.received := by
    rw [received_eq, hmailbox]
  cases hstage with
  | waiting hwaiting =>
      refine absurd ?_ hwaiting
      rw [haccounted.admittedIds_eq]
      exact List.mem_map_of_mem hqueued
  | streaming texts held _ hretired =>
      refine absurd (List.mem_map.mpr ⟨found, List.mem_of_find?_eq_some hfound, ?_⟩) hretired
      simpa using List.find?_some hfound
  | answered texts first _ hfirst htext =>
      obtain rfl := Option.some.inj (hfound.symm.trans hfirst)
      exact ⟨texts, _, stop, hreceived, htext, hstreamed.pieces id,
        fun bytes hbytes => eq_map_of_spells hbytes (hstreamed.pieces id), hgenerated,
        fun token htoken => (hstop token htoken).1⟩

/-! ## A character across an eviction -/

/-- A server with three slots and eight blocks of one token, whose tokens are the
bytes of one character over and over. -/
private def splitting : RecallConfig where
  capacity := ⟨3, ⟨1, 8⟩⟩
  admission := .elastic
  chunkSize := 0
  tokenBudget := 0
  contextLen := 100
  stops := []
  generationCap := 10
  next := fun tokens => [0xE2, 0x82, 0xAC].getD (tokens.length % 3) 0

/-- The third job is evicted after two bytes, and comes back for the third. -/
theorem delivered_across_eviction :
    let log := (run (.taking [.submission 0 1 [7], .submission 1 6 [7, 7],
      .submission 2 3 [7, 7, 7]] :: List.replicate 6 (.taking []))
        (spawn (.fresh : RecallServer splitting))).2.log
    ∃ (reply : InferenceResult Stats) (texts : List (List Char)) (pieces : List (List UInt8)),
      received 2 (sentEvents log) = texts.map (.text 2) ++ [.completed 2 reply] ∧
        texts.flatten = Utf8Buffer.fromUtf8Lossy pieces.flatten ∧
        List.Forall₂ (Spells (RecallServer splitting)) [0xE2, 0x82, 0xAC] pieces := by
  intro log
  have hassigned : (2, ⟨⟨[7, 7, 7], 2, some 3, 2⟩, 2, 0⟩) ∈ assignments log := by decide +kernel
  have htold : (verdict log 2).isSome = true := by decide +kernel
  have hstreamed : streamedFor log 2 = [0xE2, 0x82, 0xAC] := by decide +kernel
  obtain ⟨reply, hreply⟩ := Option.isSome_iff_exists.mp htold
  obtain ⟨_, _, texts, pieces, _, hreceived, htext, hpieces, _⟩ :=
    delivered_stream _ _ 2 _ hassigned reply hreply
  exact ⟨reply, texts, pieces, hreceived, htext, hstreamed ▸ hpieces⟩

end Worker

end BurnLm.Inference
