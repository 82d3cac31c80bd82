/-
# Scheduling does not show

Prompts go in by chunks, wait for the token budget, are paused, evicted and
recomputed, and share every decode with whoever else is there. None of it shows:
what a request generates is, token by token, what it generates alone.

A request in flight carries its prompt and what it generated, and what it would go
on with alone. Every move but a round leaves that as it is, also an eviction and
the return from it; a round takes the next token off what is to come.
-/

import BurnLm.Inference.Lockstep
import BurnLm.Inference.Solo
import BurnLm.Inference.Streamed

namespace BurnLm.Inference

open BurnLm.Math

universe u v w c

/-- Something is still to be pushed, or there was nothing to push. -/
def ActiveSeq.Owing (seq : JobSeq) : Prop :=
  seq.processed < seq.tokens.length ∨ seq.tokens = []

section Steps

variable {Row : Type v} {Task : Type w}

/-- The tokens a job generates alone; a job that cannot be read is never started. -/
def Terms.answer (terms : Terms Row Task) (queued : QueuedJob Task) : List Token :=
  match terms.prompt queued.job.task with
  | .ok prompt => terms.solo (queued.job.maxGen terms.maxGenTokens) prompt
  | .error _ => []

/-- What a sequence would go on with alone. -/
def Terms.rest (terms : Terms Row Task) (job : ResumedJob) : List Token :=
  terms.solo (job.maxGen - job.generated) job.tokens

variable {terms : Terms Row Task}

/-- What a step generates is the token that follows. -/
theorem SeqStep.token_eq {S : Type u} {C : Type c} {model : LaneModel S C} {seq next : JobSeq}
    {outcome : StepOutcome} {contextLen : ℕ} {stopIds : List Token}
    (hstep : SeqStep contextLen stopIds seq next outcome)
    (htraced : (model.sampling terms.next).Traced next.tokens next.generated) :
    ∀ token ∈ outcome.tokens, token = terms.next seq.tokens := by
  cases hstep with
  | stepped hunfinished hunpaused hgenerated hprocessed hfits token =>
      intro other hother
      obtain rfl := List.mem_singleton.mp hother
      have hsampled := htraced.sampled seq.tokens.length other
        (by simp [advanceOrFail]) (by simp [advanceOrFail])
      have htake : (seq.tokens ++ [other]).take seq.tokens.length = seq.tokens := List.take_left
      simp only [advanceOrFail, htake] at hsampled
      exact hsampled
  | _ => exact fun token htoken => absurd htoken List.not_mem_nil

/-- What a step leaves of an unfinished sequence: what it generates comes off what
was to come, and a sequence that finishes without failing has nothing to come. -/
theorem SeqStep.rest_eq {seq next : JobSeq} {outcome : StepOutcome}
    (hstep : SeqStep terms.contextLen terms.stopIds seq next outcome)
    (hunfinished : seq.finished = false) (howing : seq.Owing)
    (htoken : ∀ token ∈ outcome.tokens, token = terms.next seq.tokens) :
    (∃ rest, terms.rest seq.evicted = outcome.tokens ++ rest) ∧
      (next.finished = false → next.Owing ∧
        terms.rest seq.evicted = outcome.tokens ++ terms.rest next.evicted) ∧
      (next.finished = true → outcome.failures = [] →
        terms.rest seq.evicted = outcome.tokens) := by
  cases hstep with
  | idle hidle => exact ⟨⟨_, rfl⟩, fun _ => ⟨howing, rfl⟩, fun h => by simp [hunfinished] at h⟩
  | noop _ _ hnoop =>
      refine ⟨⟨_, rfl⟩, fun h => by simp at h, fun _ _ => ?_⟩
      rcases hnoop with hcap | hpushed
      · simp [Terms.rest, ActiveSeq.evicted, Nat.sub_eq_zero_of_le hcap, StepOutcome.tokens]
      · have hnil : seq.tokens = [] := howing.resolve_left (not_lt.mpr hpushed)
        simp [Terms.rest, ActiveSeq.evicted, hnil, StepOutcome.tokens]
  | overlong => exact ⟨⟨_, rfl⟩, fun h => by simp at h, fun _ h => by simp [StepOutcome.failures] at h⟩
  | deferred => exact ⟨⟨_, rfl⟩, fun _ => ⟨howing, rfl⟩, fun h => by simp [hunfinished] at h⟩
  | chunk hseq granted hgranted hchunk =>
      exact ⟨⟨_, rfl⟩, fun _ => ⟨Or.inl hchunk, rfl⟩, fun h => by simp [hunfinished] at h⟩
  | failed => exact ⟨⟨_, rfl⟩, fun h => by simp at h, fun _ h => by simp [StepOutcome.failures] at h⟩
  | stepped _ _ hgenerated hprocessed hfits token =>
      obtain rfl := htoken token (List.mem_singleton_self _)
      have hnonempty : seq.tokens ≠ [] := List.ne_nil_of_length_pos (by omega)
      obtain ⟨left, hleft⟩ : ∃ left, seq.maxGen - seq.generated = left + 1 :=
        Nat.exists_eq_succ_of_ne_zero (by omega)
      have hsucc : terms.rest seq.evicted = terms.next seq.tokens ::
          if terms.next seq.tokens ∈ terms.stopIds then []
          else terms.solo left (seq.tokens ++ [terms.next seq.tokens]) := by
        rw [Terms.rest, ActiveSeq.evicted, hleft, Terms.solo_succ left hnonempty hfits]
      refine ⟨⟨_, hsucc⟩, fun hgoes => ⟨?_, ?_⟩, fun hends _ => ?_⟩
      · simp [ActiveSeq.Owing, advanceOrFail]
      · have hcontinues : terms.next seq.tokens ∉ terms.stopIds := by
          intro hstop
          simp [advanceOrFail, hstop] at hgoes
        have hrest : seq.maxGen - (seq.generated + 1) = left := by omega
        rw [hsucc, if_neg hcontinues]
        simp [Terms.rest, ActiveSeq.evicted, advanceOrFail, StepOutcome.tokens, hrest]
      · have hover : terms.next seq.tokens ∈ terms.stopIds ∨ seq.maxGen ≤ seq.generated + 1 := by
          simpa [advanceOrFail, hunfinished] using hends
        rw [hsucc]
        rcases hover with hstop | hcap
        · rw [if_pos hstop]
          rfl
        · obtain rfl : left = 0 := by omega
          simp [StepOutcome.tokens, advanceOrFail]

end Steps

namespace Worker

variable {S : Type u} {C : Type c} {Row : Type v} {Task : Type w}

/-- What is in flight: unfinished, or evicted. -/
def Flies (worker : Worker S Task) (job : ResumedJob) : Prop :=
  (∃ seq ∈ worker.active, seq.finished = false ∧ seq.evicted = job) ∨ job ∈ worker.resume

/-- A first reply in a longer log: the old one, or one of the new ones if nobody was
replied to before. -/
theorem verdict_append {log effects : List (Effect Task)} {id : ℕ}
    {reply : InferenceResult Stats} (hreply : verdict (log ++ effects) id = some reply) :
    verdict log id = some reply ∨
      (id ∉ retiredIds (sentEvents log) ∧ (id, reply) ∈ retirements (sentEvents effects)) := by
  unfold verdict at hreply ⊢
  rw [sentEvents_append, retirements_append, List.find?_append] at hreply
  cases hfound : (retirements (sentEvents log)).find? fun entry => entry.1 = id with
  | some entry =>
      rw [hfound] at hreply
      exact Or.inl hreply
  | none =>
      rw [hfound] at hreply
      obtain ⟨⟨other, _⟩, hentry, rfl⟩ := Option.map_eq_some_iff.mp hreply
      obtain rfl : other = id := by simpa using List.find?_some hentry
      refine Or.inr ⟨fun hmem => ?_, List.mem_of_find?_eq_some hentry⟩
      obtain ⟨old, hold, hid⟩ := List.mem_map.mp hmem
      exact List.find?_eq_none.mp hfound old hold (decide_eq_true hid)

/-- Every request's tokens are those it generates alone: what is in flight has the
rest still to come, what has finished has none, and who was told so has them all. -/
structure Transparent (terms : Terms Row Task) (worker : Worker S Task) : Prop where
  readable : ∀ entry ∈ assignments worker.log,
    ∃ prompt, terms.prompt entry.2.job.task = .ok prompt
  initial : ∀ id queued, (id, queued) ∈ assignments worker.log →
    generatedFor worker.log id <+: terms.answer queued
  flying : ∀ job, worker.Flies job → ∀ queued, (job.extra.id, queued) ∈ assignments worker.log →
    terms.answer queued = generatedFor worker.log job.extra.id ++ terms.rest job
  owing : ∀ seq ∈ worker.active, seq.finished = false → seq.Owing
  finished : ∀ seq ∈ worker.active, seq.finished = true → seq.extra.cancelled = true ∨
    seq.extra.id ∈ retiredIds (sentEvents worker.log) ∨
    ∀ queued, (seq.extra.id, queued) ∈ assignments worker.log →
      generatedFor worker.log seq.extra.id = terms.answer queued
  told : ∀ id queued, (id, queued) ∈ assignments worker.log → ∀ stats,
    verdict worker.log id = some (.ok stats) →
      .named finishReasonStatName "Cancelled" ∉ stats.entries →
        generatedFor worker.log id = terms.answer queued

theorem Transparent.spawn (terms : Terms Row Task) (server : S) :
    (spawn server : Worker S Task).Transparent terms := by
  constructor <;> simp [Worker.spawn, assignments, Flies]

/-- What neither gives out an id nor generates: whoever flies did so before, whoever
has finished had or is cancelled, and whoever is told so has all its tokens. -/
theorem Transparent.carry {terms : Terms Row Task} {worker next : Worker S Task}
    {effects : List (Effect Task)} (hworker : worker.Transparent terms)
    (hlog : next.log = worker.log ++ effects) (hassigned : assignments effects = [])
    (hgenerated : generations effects = [])
    (hflies : ∀ job, next.Flies job → worker.Flies job)
    (howing : ∀ seq ∈ next.active, seq.finished = false → seq.Owing)
    (hfinished : ∀ seq ∈ next.active, seq.finished = true → seq.extra.cancelled = true ∨
      ∃ before ∈ worker.active, before.finished = true ∧ before.extra = seq.extra)
    (htold : ∀ id stats, (id, .ok stats) ∈ retirements (sentEvents effects) →
      id ∉ retiredIds (sentEvents worker.log) →
        .named finishReasonStatName "Cancelled" ∉ stats.entries →
          ∀ queued, (id, queued) ∈ assignments worker.log →
            generatedFor worker.log id = terms.answer queued) :
    next.Transparent terms := by
  have hassignments : assignments next.log = assignments worker.log := by
    rw [hlog, assignments_append, hassigned, List.append_nil]
  have hsame : ∀ id, generatedFor next.log id = generatedFor worker.log id := by
    intro id
    rw [hlog, generatedFor_append, generatedFor, generatedFor, hgenerated]
    simp
  constructor
  case readable => exact hassignments ▸ hworker.readable
  case initial =>
    intro id queued hqueued
    rw [hsame]
    exact hworker.initial id queued (hassignments ▸ hqueued)
  case flying =>
    intro job hjob queued hqueued
    rw [hsame]
    exact hworker.flying job (hflies job hjob) queued (hassignments ▸ hqueued)
  case owing => exact howing
  case finished =>
    intro seq hseq hdone
    rw [hsame, hassignments]
    refine (hfinished seq hseq hdone).elim Or.inl ?_
    rintro ⟨before, hbefore, hfinal, hextra⟩
    rw [← hextra, hlog, sentEvents_append, retiredIds_append]
    exact (hworker.finished before hbefore hfinal).imp_right
      (Or.imp_left (List.mem_append_left _))
  case told =>
    intro id queued hqueued stats hreply huncancelled
    rw [hsame]
    rw [hassignments] at hqueued
    rw [hlog] at hreply
    rcases verdict_append hreply with hold | ⟨hunretired, hnew⟩
    · exact hworker.told id queued hqueued stats hold huncancelled
    · exact htold id stats hnew hunretired huncancelled queued hqueued

theorem Accounted.assigned_of_verdict {worker : Worker S Task} (hworker : worker.Accounted)
    {id : ℕ} {reply : InferenceResult Stats} (hreply : verdict worker.log id = some reply) :
    id ∈ assignedIds worker.log := by
  obtain ⟨entry, hentry, _⟩ := Option.map_eq_some_iff.mp hreply
  rw [← hworker.admittedIds_eq]
  refine hworker.retired_admitted _ List.prefix_rfl id ?_
  rw [← show entry.1 = id by simpa using List.find?_some hentry]
  exact List.mem_map_of_mem (List.mem_of_find?_eq_some hentry)

variable {terms : Terms Row Task}

/-- What changes nothing but the server, the queue and the answers. -/
theorem Transparent.congr {worker next : Worker S Task} {effects : List (Effect Task)}
    (hworker : worker.Transparent terms) (hlog : next.log = worker.log ++ effects)
    (hquiet : Quiet effects) (hactive : next.active = worker.active)
    (hresume : next.resume = worker.resume) : next.Transparent terms := by
  refine hworker.carry hlog hquiet.assignments hquiet.generations (fun job hjob => ?_)
    (fun seq hseq => hworker.owing seq (hactive ▸ hseq))
    (fun seq hseq hdone => Or.inr ⟨seq, hactive ▸ hseq, hdone, rfl⟩) fun id stats hnew => ?_
  · rwa [Flies, hactive, hresume] at hjob
  · rw [hquiet.retirements] at hnew
    exact absurd hnew List.not_mem_nil

/-- A sweep leaves a sequence alone or cancels it. -/
theorem cancelSweep_cases (env : TurnEnv Task) (seq : JobSeq) :
    cancelSweep env seq = seq ∨
      (cancelSweep env seq).finished = true ∧ (cancelSweep env seq).extra.cancelled = true := by
  unfold cancelSweep
  split
  · exact Or.inr ⟨rfl, rfl⟩
  · exact Or.inl rfl

theorem Transparent.sweep (env : TurnEnv Task) {worker : Worker S Task}
    (hworker : worker.Transparent terms) :
    Transparent terms { worker with active := worker.active.map (cancelSweep env) } := by
  refine hworker.carry (List.append_nil _).symm rfl rfl (fun job hjob => hjob.imp_left ?_)
    (fun swept hswept hunfinished => ?_) (fun swept hswept hdone => ?_) fun _ _ hnew =>
      absurd hnew List.not_mem_nil
  · rintro ⟨swept, hswept, hunfinished, rfl⟩
    obtain ⟨seq, hseq, rfl⟩ := List.mem_map.mp hswept
    rcases cancelSweep_cases env seq with hsame | ⟨hdone, _⟩
    · rw [hsame] at hunfinished ⊢
      exact ⟨seq, hseq, hunfinished, rfl⟩
    · simp [hdone] at hunfinished
  · obtain ⟨seq, hseq, rfl⟩ := List.mem_map.mp hswept
    rcases cancelSweep_cases env seq with hsame | ⟨hdone, _⟩
    · rw [hsame] at hunfinished ⊢
      exact hworker.owing seq hseq hunfinished
    · simp [hdone] at hunfinished
  · obtain ⟨seq, hseq, rfl⟩ := List.mem_map.mp hswept
    rcases cancelSweep_cases env seq with hsame | ⟨_, hcancelled⟩
    · rw [hsame] at hdone ⊢
      exact Or.inr ⟨seq, hseq, hdone, rfl⟩
    · exact Or.inl hcancelled

/-- The retirements a list of sequences is told, one by one. -/
theorem mem_retirements {seqs : List JobSeq} {reply : JobSeq → InferenceResult Stats} {id : ℕ}
    {told : InferenceResult Stats}
    (htold : (id, told) ∈ retirements (sentEvents (seqs.map fun seq =>
      Effect.sent (.retire seq.extra.id (reply seq)) : List (Effect Task)))) :
    ∃ seq ∈ seqs, seq.extra.id = id ∧ reply seq = told := by
  obtain ⟨event, hevent, hretires⟩ := List.mem_filterMap.mp htold
  obtain ⟨effect, heffect, hsent⟩ := List.mem_filterMap.mp hevent
  obtain ⟨seq, hseq, rfl⟩ := List.mem_map.mp heffect
  obtain rfl := Option.some.inj hsent
  obtain ⟨rfl, rfl⟩ := Prod.mk.inj (Option.some.inj hretires)
  exact ⟨seq, hseq, rfl, rfl⟩

theorem Transparent.fail {worker : Worker S Task} (hworker : worker.Transparent terms)
    (error : InferenceError) : (failActive worker error).Transparent terms := by
  obtain ⟨hassigned, hgenerated, _⟩ := @retirements_columns Task worker.active fun _ => .error error
  refine hworker.carry rfl hassigned hgenerated (fun job hjob => hjob.imp_left ?_)
    (fun seq hseq => absurd hseq List.not_mem_nil) (fun seq hseq => absurd hseq List.not_mem_nil) ?_
  · rintro ⟨seq, hseq, _⟩
    exact absurd hseq List.not_mem_nil
  · intro id stats hnew
    obtain ⟨seq, _, _, hstats⟩ := mem_retirements hnew
    simp at hstats

/-! ## Rounds -/

/-- A round as its requests see it: every sequence takes a step, what it generates is
the token that follows, and the log grows by that and by failures. -/
structure Rounded (terms : Terms Row Task) (worker next : Worker S Task)
    (entries : List (Entry JobMeta)) (effects : List (Effect Task)) : Prop where
  steps : ∀ entry ∈ entries, ∃ seq ∈ worker.active,
    SeqStep terms.contextLen terms.stopIds seq entry.seq entry.outcome ∧
      ∀ token ∈ entry.outcome.tokens, token = terms.next seq.tokens
  active : next.active = entries.map fun entry => noteOutcome entry.seq entry.outcome
  resume : next.resume = worker.resume
  log : next.log = worker.log ++ effects
  unassigned : assignments effects = []
  failures : retirements (sentEvents effects) = entries.flatMap fun entry =>
    entry.outcome.failures.map fun error => (entry.seq.extra.id, .error error)
  grown : ∀ entry ∈ entries, generatedFor next.log entry.seq.extra.id =
    generatedFor worker.log entry.seq.extra.id ++ entry.outcome.tokens
  same : ∀ id, (∀ entry ∈ entries, entry.seq.extra.id ≠ id) →
    generatedFor next.log id = generatedFor worker.log id

/-- A finished sequence sits a round out. -/
theorem eq_of_finished {seq next : JobSeq} {outcome : StepOutcome} {contextLen : ℕ}
    {stopIds : List Token} (hstep : SeqStep contextLen stopIds seq next outcome)
    (hfinished : seq.finished = true) : next = seq ∧ outcome = .skipped := by
  cases hstep with
  | idle => exact ⟨rfl, rfl⟩
  | deferred hseq => simp [hseq.unfinished] at hfinished
  | chunk hseq => simp [hseq.unfinished] at hfinished
  | _ => simp_all

section Round

variable {worker next : Worker S Task} {entries : List (Entry JobMeta)}
  {effects : List (Effect Task)}

theorem Rounded.assignments_eq (hrounded : worker.Rounded terms next entries effects) :
    assignments next.log = assignments worker.log := by
  rw [hrounded.log, assignments_append, hrounded.unassigned, List.append_nil]

/-- What was to come of a sequence that may run: what it generated now, and a rest that
is none if it has finished without failing. -/
theorem Rounded.coming (hrounded : worker.Rounded terms next entries effects)
    (hworker : worker.Transparent terms) {entry : Entry JobMeta} (hentry : entry ∈ entries)
    {seq : JobSeq} (hseq : seq ∈ worker.active)
    (hstep : SeqStep terms.contextLen terms.stopIds seq entry.seq entry.outcome)
    (htoken : ∀ token ∈ entry.outcome.tokens, token = terms.next seq.tokens)
    (hunfinished : seq.finished = false) {queued : QueuedJob Task}
    (hqueued : (entry.seq.extra.id, queued) ∈ assignments worker.log) :
    ∃ rest, terms.answer queued = generatedFor next.log entry.seq.extra.id ++ rest ∧
      (entry.seq.finished = false → entry.seq.Owing ∧ rest = terms.rest entry.seq.evicted) ∧
      (entry.seq.finished = true → entry.outcome.failures = [] → rest = []) := by
  have hid : entry.seq.extra.id = seq.extra.id := by rw [hstep.frame.2.2.2.2]
  have howing := hworker.owing seq hseq hunfinished
  obtain ⟨⟨rest, hrest⟩, hgoes, hends⟩ := hstep.rest_eq hunfinished howing htoken
  have hall : terms.answer queued =
      generatedFor worker.log entry.seq.extra.id ++ terms.rest seq.evicted := by
    rw [hid] at hqueued ⊢
    exact hworker.flying seq.evicted (Or.inl ⟨seq, hseq, hunfinished, rfl⟩) queued hqueued
  refine ⟨rest, ?_, fun hnext => ⟨(hgoes hnext).1, ?_⟩, fun hnext hsound => ?_⟩
  · rw [hall, hrest, hrounded.grown entry hentry, List.append_assoc]
  · exact List.append_cancel_left (hrest.symm.trans (hgoes hnext).2)
  · have hnothing := hrest.symm.trans (hends hnext hsound)
    simpa using hnothing

/-- A round generates nothing a request would not generate alone. -/
theorem Rounded.initial (hrounded : worker.Rounded terms next entries effects)
    (hworker : worker.Transparent terms) {id : ℕ} {queued : QueuedJob Task}
    (hqueued : (id, queued) ∈ assignments worker.log) :
    generatedFor next.log id <+: terms.answer queued := by
  by_cases hentry : ∃ entry ∈ entries, entry.seq.extra.id = id
  · obtain ⟨entry, hentry, rfl⟩ := hentry
    obtain ⟨seq, hseq, hstep, htoken⟩ := hrounded.steps entry hentry
    cases hfinished : seq.finished with
    | true =>
        rw [hrounded.grown entry hentry, (eq_of_finished hstep hfinished).2]
        simpa [StepOutcome.tokens] using hworker.initial _ queued hqueued
    | false =>
        obtain ⟨rest, hall, _⟩ :=
          hrounded.coming hworker hentry hseq hstep htoken hfinished hqueued
        exact ⟨rest, hall.symm⟩
  · rw [hrounded.same id fun entry hentry' hid => hentry ⟨entry, hentry', hid⟩]
    exact hworker.initial id queued hqueued

/-- Whoever may go on has the rest still to come, also who sat the round out evicted. -/
theorem Rounded.flying (hrounded : worker.Rounded terms next entries effects)
    (hworker : worker.Transparent terms) (haccounted : worker.Accounted) {job : ResumedJob}
    (hjob : next.Flies job) {queued : QueuedJob Task}
    (hqueued : (job.extra.id, queued) ∈ assignments worker.log) :
    terms.answer queued = generatedFor next.log job.extra.id ++ terms.rest job := by
  rcases hjob with ⟨noted, hnoted, hunfinished, rfl⟩ | hjob
  · rw [hrounded.active] at hnoted
    obtain ⟨entry, hentry, rfl⟩ := List.mem_map.mp hnoted
    obtain ⟨seq, hseq, hstep, htoken⟩ := hrounded.steps entry hentry
    obtain ⟨hitStop, hnote⟩ := noteOutcome_eq entry.seq entry.outcome
    rw [hnote] at hunfinished hqueued ⊢
    obtain ⟨rest, hall, hgoes, _⟩ := hrounded.coming hworker hentry hseq hstep htoken
      (unfinished_of_step hstep hunfinished) hqueued
    rw [(hgoes hunfinished).2] at hall
    exact hall
  · rw [hrounded.resume] at hjob
    rw [hrounded.same job.extra.id]
    · exact hworker.flying job (Or.inr hjob) queued hqueued
    · intro entry hentry
      obtain ⟨seq, hseq, hstep, _⟩ := hrounded.steps entry hentry
      rw [hstep.frame.2.2.2.2]
      exact haccounted.id_ne hseq hjob

/-- Whoever has finished was cancelled, has failed, or has all its tokens. -/
theorem Rounded.finished (hrounded : worker.Rounded terms next entries effects)
    (hworker : worker.Transparent terms) {noted : JobSeq} (hnoted : noted ∈ next.active)
    (hfinished : noted.finished = true) :
    noted.extra.cancelled = true ∨ noted.extra.id ∈ retiredIds (sentEvents next.log) ∨
      ∀ queued, (noted.extra.id, queued) ∈ assignments worker.log →
        generatedFor next.log noted.extra.id = terms.answer queued := by
  rw [hrounded.active] at hnoted
  obtain ⟨entry, hentry, rfl⟩ := List.mem_map.mp hnoted
  obtain ⟨seq, hseq, hstep, htoken⟩ := hrounded.steps entry hentry
  obtain ⟨hitStop, hnote⟩ := noteOutcome_eq entry.seq entry.outcome
  rw [hnote] at hfinished ⊢
  rw [hrounded.log, sentEvents_append, retiredIds_append, List.mem_append, ← hrounded.log]
  cases hstarted : seq.finished with
  | true =>
      obtain ⟨hsame, hskipped⟩ := eq_of_finished hstep hstarted
      have hgenerated := hrounded.grown entry hentry
      rw [hskipped] at hgenerated
      refine (hsame ▸ hworker.finished seq hseq hstarted).imp_right
        (Or.imp Or.inl fun hall queued hqueued => ?_)
      exact (hgenerated.trans (List.append_nil _)).trans (hall queued hqueued)
  | false =>
      refine Or.inr ?_
      by_cases hsound : entry.outcome.failures = []
      · refine Or.inr fun queued hqueued => ?_
        obtain ⟨rest, hall, _, hends⟩ :=
          hrounded.coming hworker hentry hseq hstep htoken hstarted hqueued
        rw [hall, hends hfinished hsound, List.append_nil]
      · obtain ⟨error, herror⟩ := List.exists_mem_of_ne_nil _ hsound
        refine Or.inl (Or.inr ?_)
        rw [retiredIds, hrounded.failures]
        exact List.mem_map.mpr ⟨(entry.seq.extra.id, .error error), List.mem_flatMap.mpr
          ⟨entry, hentry, List.mem_map_of_mem herror⟩, rfl⟩

/-- A round tells failures only. -/
theorem Rounded.verdict_eq (hrounded : worker.Rounded terms next entries effects) {id : ℕ}
    {stats : Stats} (hreply : verdict next.log id = some (.ok stats)) :
    verdict worker.log id = some (.ok stats) := by
  rw [hrounded.log] at hreply
  refine (verdict_append hreply).resolve_right fun hnew => ?_
  rw [hrounded.failures] at hnew
  obtain ⟨entry, _, hmem⟩ := List.mem_flatMap.mp hnew.2
  obtain ⟨error, _, herror⟩ := List.mem_map.mp hmem
  simp at herror

/-- **A round takes the next token off what is to come.** -/
theorem Transparent.round (hworker : worker.Transparent terms) (haccounted : worker.Accounted)
    (hrounded : worker.Rounded terms next entries effects) : next.Transparent terms where
  readable := hrounded.assignments_eq ▸ hworker.readable
  initial id queued hqueued := hrounded.initial hworker (hrounded.assignments_eq ▸ hqueued)
  flying job hjob queued hqueued :=
    hrounded.flying hworker haccounted hjob (hrounded.assignments_eq ▸ hqueued)
  owing := by
    intro noted hnoted hunfinished
    rw [hrounded.active] at hnoted
    obtain ⟨entry, hentry, rfl⟩ := List.mem_map.mp hnoted
    obtain ⟨seq, hseq, hstep, htoken⟩ := hrounded.steps entry hentry
    obtain ⟨hitStop, hnote⟩ := noteOutcome_eq entry.seq entry.outcome
    rw [hnote] at hunfinished ⊢
    have hstarted := unfinished_of_step hstep hunfinished
    exact ((hstep.rest_eq hstarted (hworker.owing seq hseq hstarted) htoken).2.1 hunfinished).1
  finished noted hnoted hfinished := by
    rw [hrounded.assignments_eq]
    exact hrounded.finished hworker hnoted hfinished
  told id queued hqueued stats hreply huncancelled := by
    rw [hrounded.assignments_eq] at hqueued
    have hall := hworker.told id queued hqueued stats (hrounded.verdict_eq hreply) huncancelled
    have hlonger : generatedFor worker.log id <+: generatedFor next.log id := by
      rw [hrounded.log, generatedFor_append]
      exact List.prefix_append _ _
    rw [hall] at hlonger
    exact List.Sublist.eq_of_length_le (hrounded.initial hworker hqueued).sublist
      hlonger.length_le

end Round

/-! ## Moves -/

variable [BatchedInferenceServer S Row Task]

/-- A request that starts has all its tokens still to come. -/
theorem Transparent.start {worker : Worker S Task} (hworker : worker.Transparent terms)
    (haccounted : worker.Accounted) (now : ℕ) (front : QueuedJob Task)
    (rest : List (QueuedJob Task)) {tokens : List Token} (guaranteed slot : ℕ)
    (htokens : terms.prompt front.job.task = .ok tokens) :
    (worker.start now front rest tokens (front.job.maxGen terms.maxGenTokens) guaranteed
      slot).Transparent terms := by
  set next := worker.start now front rest tokens (front.job.maxGen terms.maxGenTokens) guaranteed
    slot with hnext
  have hassignments : assignments next.log = assignments worker.log ++ [(worker.nextId, front)] :=
    assignments_append _ _
  have hsame : ∀ id, generatedFor next.log id = generatedFor worker.log id := fun id =>
    (generatedFor_append worker.log _ id).trans (List.append_nil _)
  have hfresh := haccounted.fresh
  -- whoever had an id keeps its job
  have hold : ∀ id ∈ assignedIds worker.log, ∀ queued, (id, queued) ∈ assignments next.log →
      (id, queued) ∈ assignments worker.log := by
    intro id hid queued hqueued
    rw [hassignments, List.mem_append, List.mem_singleton] at hqueued
    refine hqueued.resolve_right fun hnew => hfresh ?_
    rwa [← (Prod.mk.inj hnew).1]
  constructor
  case readable =>
    intro entry hentry
    rw [hassignments, List.mem_append, List.mem_singleton] at hentry
    rcases hentry with hentry | rfl
    · exact hworker.readable entry hentry
    · exact ⟨tokens, htokens⟩
  case initial =>
    intro id queued hqueued
    rw [hsame]
    by_cases hid : id ∈ assignedIds worker.log
    · exact hworker.initial id queued (hold id hid queued hqueued)
    · rw [haccounted.generatedFor_unassigned hid]
      exact List.nil_prefix
  case flying =>
    rintro job hjob queued hqueued
    rw [hsame]
    by_cases hid : job.extra.id ∈ assignedIds worker.log
    · refine hworker.flying job ?_ queued (hold _ hid queued hqueued)
      rcases hjob with ⟨seq, hseq, hunfinished, rfl⟩ | hjob
      · rcases List.mem_append.mp hseq with hseq | hseq
        · exact Or.inl ⟨seq, hseq, hunfinished, rfl⟩
        · obtain rfl := List.mem_singleton.mp hseq
          exact absurd hid hfresh
      · exact Or.inr hjob
    · rw [haccounted.generatedFor_unassigned hid, List.nil_append]
      have hlive : ∀ other ∈ worker.liveIds, other ≠ job.extra.id := fun other hother hsame =>
        hid (hsame ▸ haccounted.live_assigned other hother)
      rcases hjob with ⟨seq, hseq, _, rfl⟩ | hjob
      · rcases List.mem_append.mp hseq with hseq | hseq
        · exact absurd rfl (hlive _ (mem_liveIds_of_active hseq))
        · obtain rfl := List.mem_singleton.mp hseq
          rw [hassignments, List.mem_append, List.mem_singleton] at hqueued
          obtain rfl : queued = front := by
            rcases hqueued with hqueued | hqueued
            · exact absurd (List.mem_map_of_mem hqueued) hid
            · exact (Prod.mk.inj hqueued).2
          simp only [Terms.answer, htokens]
          rfl
      · exact absurd rfl (hlive _ (List.mem_append_right _ (List.mem_map_of_mem hjob)))
  case owing =>
    intro seq hseq hunfinished
    rcases List.mem_append.mp hseq with hseq | hseq
    · exact hworker.owing seq hseq hunfinished
    · obtain rfl := List.mem_singleton.mp hseq
      exact (Nat.eq_zero_or_pos tokens.length).symm.imp_right List.length_eq_zero_iff.mp
  case finished =>
    intro seq hseq hdone
    rcases List.mem_append.mp hseq with hseq | hseq
    · have hid := haccounted.live_assigned _ (mem_liveIds_of_active hseq)
      rw [hsame]
      refine (hworker.finished seq hseq hdone).imp_right (Or.imp (fun hmem => ?_) fun hall queued
        hqueued => hall queued (hold _ hid queued hqueued))
      rw [hnext, Worker.start, emit, sentEvents_append, retiredIds_append]
      exact List.mem_append_left _ hmem
    · obtain rfl := List.mem_singleton.mp hseq
      simp [QueuedJob.seq] at hdone
  case told =>
    intro id queued hqueued stats hreply huncancelled
    rw [hsame]
    have hbefore : verdict worker.log id = some (.ok stats) :=
      (verdict_append hreply).resolve_right fun hnew => List.not_mem_nil hnew.2
    exact hworker.told id queued (hold id (haccounted.assigned_of_verdict hbefore) queued hqueued)
      stats hbefore huncancelled

/-- A borrow shows nowhere. -/
theorem Transparent.borrow {worker : Worker S Task} (hworker : worker.Transparent terms) :
    Transparent terms { worker with server := (decoder worker.server).2 } :=
  hworker.congr (List.append_nil _).symm ⟨rfl, rfl, rfl, rfl⟩ rfl rfl

theorem Transparent.admission {model : LaneModel S C} (hdetermined : model.Determined terms)
    {env : TurnEnv Task} {worker next : Worker S Task} (hworker : worker.Transparent terms)
    (haccounted : worker.Accounted) (hadmission : Admission env worker next) :
    next.Transparent terms := by
  cases hadmission with
  | borrow => exact hworker.borrow
  | resume candidate rest slot guaranteed hresume hborrowed hslot hroom =>
      refine hworker.carry (List.append_nil _).symm rfl rfl (fun job hjob => ?_)
        (fun seq hseq hunfinished => ?_) (fun seq hseq hdone => ?_) fun _ _ hnew =>
          absurd hnew List.not_mem_nil
      · rcases hjob with ⟨seq, hseq, hunfinished, rfl⟩ | hjob
        · rcases List.mem_append.mp hseq with hseq | hseq
          · exact Or.inl ⟨seq, hseq, hunfinished, rfl⟩
          · -- it comes back as what it left as
            obtain rfl := List.mem_singleton.mp hseq
            exact Or.inr (by rw [hresume]; exact List.mem_cons_self)
        · exact Or.inr (by rw [hresume]; exact List.mem_cons_of_mem _ hjob)
      · rcases List.mem_append.mp hseq with hseq | hseq
        · exact hworker.owing seq hseq hunfinished
        · obtain rfl := List.mem_singleton.mp hseq
          exact (Nat.eq_zero_or_pos candidate.tokens.length).symm.imp_right
            List.length_eq_zero_iff.mp
      · rcases List.mem_append.mp hseq with hseq | hseq
        · exact Or.inr ⟨seq, hseq, hdone, rfl⟩
        · obtain rfl := List.mem_singleton.mp hseq
          simp [ResumedJob.seq] at hdone
  | reject front rest error hqueue => exact hworker.congr rfl ⟨rfl, rfl, rfl, rfl⟩ rfl rfl
  | start front rest tokens maxGen guaranteed slot hqueue hborrowed htokens hmaxGen hneed hslot
      hroom =>
      subst hmaxGen
      rw [hdetermined.prompt_eq] at htokens
      rw [hdetermined.maxGenTokens_eq]
      exact hworker.borrow.start haccounted.borrow env.now front rest guaranteed slot htokens

theorem Transparent.regrowth {measured : S} {worker next : Worker S Task}
    (hworker : worker.Transparent terms) (hregrowth : Regrowth measured worker next) :
    next.Transparent terms := by
  cases hregrowth with
  | grow before seq after reservation paused hactive hlimited hraise hroom =>
      -- a sequence's reservation is nothing its tokens depend on
      have hfound : ∀ other ∈ before ++ { seq with kvReservation := reservation, paused } :: after,
          ∃ old ∈ worker.active, old.finished = other.finished ∧ old.evicted = other.evicted ∧
            (old.Owing → other.Owing) := by
        intro other hother
        rw [hactive]
        rcases List.mem_append.mp hother with hother | hother
        · exact ⟨other, by simp [hother], rfl, rfl, id⟩
        · rcases List.mem_cons.mp hother with rfl | hother
          · exact ⟨seq, by simp, rfl, rfl, id⟩
          · exact ⟨other, by simp [hother], rfl, rfl, id⟩
      refine hworker.carry (List.append_nil _).symm rfl rfl (fun job hjob => hjob.imp_left ?_)
        (fun other hother hunfinished => ?_) (fun other hother hdone => ?_) fun _ _ hnew =>
          absurd hnew List.not_mem_nil
      · rintro ⟨other, hother, hunfinished, rfl⟩
        obtain ⟨old, hold, hfinished, hevicted, _⟩ := hfound other hother
        exact ⟨old, hold, hfinished.trans hunfinished, hevicted⟩
      · obtain ⟨old, hold, hfinished, _, howing⟩ := hfound other hother
        exact howing (hworker.owing old hold (hfinished.trans hunfinished))
      · obtain ⟨old, hold, hfinished, hevicted, _⟩ := hfound other hother
        exact Or.inr ⟨old, hold, hfinished.trans hdone, congrArg ResumedJob.extra hevicted⟩
  | evict before victim after hactive hunfinished =>
      have hkept : ∀ seq ∈ before ++ after, seq ∈ worker.active := by
        intro seq hseq
        rw [hactive]
        exact ((List.sublist_cons_self victim after).append_left before).subset hseq
      refine hworker.carry (List.append_nil _).symm rfl rfl (fun job hjob => ?_)
        (fun seq hseq => hworker.owing seq (hkept seq hseq))
        (fun seq hseq hdone => Or.inr ⟨seq, hkept seq hseq, hdone, rfl⟩) fun _ _ hnew =>
          absurd hnew List.not_mem_nil
      rcases hjob with ⟨seq, hseq, hflying, rfl⟩ | hjob
      · exact Or.inl ⟨seq, hkept seq hseq, hflying, rfl⟩
      · rcases List.mem_cons.mp hjob with rfl | hjob
        · exact Or.inl ⟨victim, by rw [hactive]; simp, hunfinished, rfl⟩
        · exact Or.inr hjob

/-- A round is one, if it leaves lanes and sequences in step. -/
theorem runRound_rounded {model : LaneModel S C} (hdetermined : model.Determined terms)
    (configured : S) {worker : Worker S Task} (haccounted : worker.Accounted)
    (hlockstep : (runRound configured worker).Lockstep (model.sampling terms.next)) :
    ∃ entries effects, worker.Rounded terms (runRound configured worker) entries effects := by
  obtain ⟨entries, batch, hsteps, hactive, hlog⟩ := runRound_log configured worker
  rw [hdetermined.context_eq, hdetermined.stopIds_eq] at hsteps
  obtain ⟨hassigned, _, _, hretired⟩ := @roundEffects_columns Task entries
  have hship := @quiet_shipment Task batch
  have hnodup : (entries.map fun entry => entry.seq.extra.id).Nodup := by
    rw [ids_of_steps hsteps]
    exact (List.nodup_append.mp haccounted.nodup).1
  obtain ⟨hown, hnone⟩ := @generatedFor_roundEffects Task entries batch hnodup
  refine ⟨entries, _, ?steps, hactive, rfl, hlog, ?unassigned, ?failures, ?grown, ?same⟩
  case steps =>
    intro entry hentry
    obtain ⟨seq, hseq, hstep⟩ := exists_of_forall₂_right hsteps hentry
    have htraced := hlockstep.step.traced (noteOutcome entry.seq entry.outcome) (by
      rw [hactive]
      exact List.mem_map_of_mem hentry)
    obtain ⟨hitStop, hnote⟩ := noteOutcome_eq entry.seq entry.outcome
    rw [hnote] at htraced
    exact ⟨seq, hseq, hstep, hstep.token_eq htraced⟩
  case unassigned => rw [assignments_append, hassigned, hship.assignments, List.append_nil]
  case failures =>
    rw [sentEvents_append, retirements_append, hretired, hship.retirements, List.append_nil]
  case grown =>
    intro entry hentry
    rw [hlog, generatedFor_append, hown entry hentry]
  case same =>
    intro id hnobody
    rw [hlog, generatedFor_append, hnone id hnobody, List.append_nil]

/-! ## Runs -/

/-- Who retires without having failed or been cancelled has all its tokens. -/
theorem Transparent.retire {worker : Worker S Task} (hworker : worker.Transparent terms) :
    worker.retireFinished.Transparent terms := by
  obtain ⟨hassigned, hgenerated, _⟩ := @retirements_columns Task
    (worker.active.filter ActiveSeq.finished) fun seq => .ok (retireStats seq)
  refine hworker.carry rfl hassigned hgenerated (fun job hjob => hjob.imp_left ?_)
    (fun seq hseq => hworker.owing seq (List.mem_of_mem_filter hseq)) (fun seq hseq hdone => ?_) ?_
  · rintro ⟨seq, hseq, hunfinished, rfl⟩
    exact ⟨seq, List.mem_of_mem_filter hseq, hunfinished, rfl⟩
  · have hkept := (List.mem_filter.mp hseq).2
    simp [hdone] at hkept
  · intro id stats hnew hunretired huncancelled queued hqueued
    obtain ⟨seq, hseq, rfl, hstats⟩ := mem_retirements hnew
    obtain rfl := Except.ok.inj hstats
    obtain ⟨hmem, hdone⟩ := List.mem_filter.mp hseq
    rcases hworker.finished seq hmem hdone with hcancelled | hretired | hall
    · exact absurd (by simp [retireStats, finishReason, hcancelled]) huncancelled
    · exact absurd hretired hunretired
    · exact hall queued hqueued

/-- No move makes a request's tokens depend on anybody else. -/
theorem Transparent.move {model : LaneModel S C} (hdetermined : model.Determined terms)
    {env : TurnEnv Task} {worker next : Worker S Task} (hworker : worker.Transparent terms)
    (haccounted : worker.Accounted) (hlockstep : next.Lockstep (model.sampling terms.next))
    (hmove : Move env worker next) : next.Transparent terms := by
  cases hmove with
  | command given hgiven =>
      rcases handleCommand_cases (worker.emit [.received given]) given with
        ⟨queued, _, hcase⟩ | ⟨_, hcase⟩ | ⟨_, server, effects, hcase, hanswers, _⟩ <;> rw [hcase]
      · exact hworker.congr rfl ⟨rfl, rfl, rfl, rfl⟩ rfl rfl
      · exact hworker.congr rfl ⟨rfl, rfl, rfl, rfl⟩ rfl rfl
      · have hreceived : worker.Transparent terms →
            Transparent terms (worker.emit [.received given]) := fun h =>
          h.congr rfl ⟨rfl, rfl, rfl, rfl⟩ rfl rfl
        exact (hreceived hworker).congr rfl (quiet_of_answers hanswers) rfl rfl
  | admission hadmission => exact hworker.admission hdetermined haccounted hadmission
  | sweep => exact hworker.sweep env
  | regrowth measured hregrowth => exact hworker.regrowth hregrowth
  | round configured hborrowed hcovered =>
      obtain ⟨entries, effects, hrounded⟩ :=
        runRound_rounded hdetermined configured haccounted.borrow hlockstep
      exact hworker.borrow.round haccounted.borrow hrounded
  | retire => exact hworker.retire
  | fail error hrefused => exact hworker.borrow.fail error

/-- In every run over submissions requests are accounted for, lanes and sequences are
in step, and nothing shows. -/
theorem transparent_of_run {model : LaneModel S C} (hdetermined : model.Determined terms)
    {server : S} (hsound : model.sound server) (envs : List (TurnEnv Task))
    (hcommands : ∀ env ∈ envs, ∀ command ∈ env.commands, command.isServed = false) :
    (run envs (spawn server)).2.Accounted ∧ (run envs (spawn server)).2.Transparent terms := by
  have hrun := @run_induction S Row Task _ (fun worker => worker.Accounted ∧
      worker.Lockstep (model.sampling terms.next) ∧ worker.Transparent terms) envs ?_ (.spawn server)
    ⟨Accounted.spawn server, Lockstep.spawn hsound, Transparent.spawn terms server⟩
  · exact ⟨hrun.1, hrun.2.2⟩
  · rintro env henv before after ⟨haccounted, hlockstep, htransparent⟩ hmove
    have hnext := hlockstep.move hdetermined.sampling_honoured (hcommands env henv) hmove
    exact ⟨haccounted.move hmove, hnext, htransparent.move hdetermined haccounted hnext hmove⟩

/-- **Scheduling does not show.** On a server whose logits for a slot depend on
nothing but the tokens pushed into it, under a sampler that picks every token from
its own row: in every run over submissions and cancellations, whatever the slots,
the chunks, the budgets and the admission policy, the tokens of a request are, in
order, the first of those it generates alone, and all of them if it is told anything
but a failure or that it was cancelled. Nothing is generated for a job that was
never started. What it generates alone is what `alone` answers on any server, in any
slot, unless a call fails. -/
theorem generated_as_alone {model : LaneModel S C} (hdetermined : model.Determined terms)
    {server : S} (hsound : model.sound server) (envs : List (TurnEnv Task))
    (hcommands : ∀ env ∈ envs, ∀ command ∈ env.commands, command.isServed = false) :
    let log := (run envs (spawn server)).2.log
    (∀ id, id ∉ assignedIds log → generatedFor log id = []) ∧
      ∀ id queued, (id, queued) ∈ assignments log →
        ∃ prompt, terms.prompt queued.job.task = .ok prompt ∧
          let limit := queued.job.maxGen terms.maxGenTokens
          generatedFor log id <+: terms.solo limit prompt ∧
            (∀ stats, verdict log id = some (.ok stats) →
              .named finishReasonStatName "Cancelled" ∉ stats.entries →
                generatedFor log id = terms.solo limit prompt) ∧
            ∀ (other : S) (slot : ℕ), model.sound other → model.valid slot →
              alone other slot prompt limit = .ok (terms.solo limit prompt) ∨
                ∃ error, alone other slot prompt limit = .error error := by
  intro log
  obtain ⟨haccounted, htransparent⟩ := transparent_of_run hdetermined hsound envs hcommands
  refine ⟨fun id hid => haccounted.generatedFor_unassigned hid, fun id queued hqueued => ?_⟩
  obtain ⟨prompt, hprompt⟩ := htransparent.readable (id, queued) hqueued
  have hanswer : terms.answer queued =
      terms.solo (queued.job.maxGen terms.maxGenTokens) prompt := by
    simp only [Terms.answer, hprompt]
  refine ⟨prompt, hprompt, ?_, fun stats htold huncancelled => ?_, fun other slot hother hslot =>
    hdetermined.alone_eq hother hslot prompt _⟩
  · rw [← hanswer]
    exact htransparent.initial id queued hqueued
  · rw [← hanswer]
    exact htransparent.told id queued hqueued stats htold huncancelled

end Worker

/-! ## A server that recalls -/

namespace RecallServer

variable {config : RecallConfig}

/-- A lane holds its own history. -/
def recalled (config : RecallConfig) : LaneModel (RecallServer config) (List Token) where
  valid _ := True
  sound _ := True
  content server lane := server.lanes lane
  holding tokens := tokens
  samples _ _ := True

/-- What a recalling server generates depends on. -/
def terms (config : RecallConfig) : Terms (List Token) (List Token) where
  prompt task := .ok task
  rowAfter tokens := tokens
  pick := config.next
  stopIds := config.stops
  contextLen := config.contextLen
  maxGenTokens := config.generationCap

/-- A decode appends to each lane what its rows say. -/
theorem lanes_decode (rows : List DecodeRow) (server : RecallServer config) (lane : ℕ) :
    (decode server rows).2.lanes lane =
      server.lanes lane ++ (rows.filter fun row => row.slot = lane).map DecodeRow.token := by
  change (rows.foldl (fun server row => server.push row.slot [row.token]) server).lanes lane = _
  induction rows generalizing server with
  | nil => simp
  | cons row rows ih =>
      rw [List.foldl_cons, ih]
      by_cases hlane : row.slot = lane
      · subst hlane
        simp [push]
      · simp [push, hlane, Function.update_of_ne (Ne.symm hlane)]

theorem recalled_honoured : (recalled config).Honoured where
  valid_slot _ _ _ := trivial
  reborrow _ _ := rfl
  decoder_sound _ _ := trivial
  decoder_content _ _ := rfl
  prefill_sound _ := trivial
  prefill_self {server slot tokens _ pushed _} hcan _ := by
    have hheld : server.lanes slot = pushed := hcan.held
    change Function.update server.lanes slot (server.lanes slot ++ tokens) slot = pushed ++ tokens
    rw [Function.update_self, hheld]
  prefill_other _ hlane := Function.update_of_ne hlane _ _
  prefill_samples _ _ _ _ := trivial
  decode_sound _ := trivial
  decode_self {server rows pushed _} hcan _ row hrow := by
    have hheld : server.lanes row.slot = pushed row := hcan.held row hrow
    refine (lanes_decode rows server row.slot).trans ?_
    rw [filter_key_eq_singleton hcan.nodup hrow, hheld]
    rfl
  decode_other {server rows _ other} _ hlane := by
    refine (lanes_decode rows server other).trans ?_
    rw [filter_key_eq_nil hlane]
    exact List.append_nil _
  decode_samples _ _ _ _ _ _ := trivial
  release_sound _ _ := trivial
  release_self _ _ := Function.update_self _ _ _
  release_other _ _ hlane := Function.update_of_ne hlane _ _
  sampler_sound _ := trivial
  sampler_content _ _ _ _ := rfl

theorem recalled_determined : (recalled config).Determined (terms config) where
  honoured := recalled_honoured
  prefill_row {server slot tokens position pushed logits} hcan hlogits := by
    obtain rfl := Except.ok.inj hlogits
    exact congrArg (fun row => [row]) (recalled_honoured.prefill_self hcan hlogits)
  decode_rows {server rows pushed logits} hcan hlogits := by
    obtain rfl := Except.ok.inj hlogits
    exact List.map_congr_left fun row hrow => recalled_honoured.decode_self hcan hlogits row hrow
  sampler_picks hsampled := (Except.ok.inj hsampled).symm
  prompt_eq _ _ := rfl
  stopIds_eq _ := rfl
  context_eq _ := rfl
  maxGenTokens_eq _ := rfl

end RecallServer

namespace Worker

/-- Three slots over eight one-token blocks, prompts in chunks of two. -/
private def crowded : RecallConfig where
  capacity := ⟨3, ⟨1, 8⟩⟩
  admission := .elastic
  chunkSize := 2
  tokenBudget := 2
  contextLen := 100
  stops := [6]
  generationCap := 10
  next := fun tokens => tokens.foldl (fun sum token => 3 * sum + token) 1 % 10

/-- The third job is evicted after its first token and recomputed; the second is
cancelled before its last. -/
theorem generated_as_alone_when_crowded :
    let envs : List (TurnEnv (List Token)) :=
      .taking [.submission 0 1 [7], .submission 1 6 [7, 8], .submission 2 4 [7, 8, 9]] ::
        List.replicate 4 (.taking []) ++ .firing 1 :: List.replicate 4 (.taking [])
    let log := (run envs (spawn (.fresh : RecallServer crowded))).2.log
    (run (envs.take 5) (spawn (.fresh : RecallServer crowded))).2.resume.length = 1 ∧
      (generatedFor log 1).length = 5 ∧
      generatedFor log 1 <+: (RecallServer.terms crowded).solo 6 [7, 8] ∧
      generatedFor log 2 = (RecallServer.terms crowded).solo 4 [7, 8, 9] ∧
      alone (.fresh : RecallServer crowded) 0 [7, 8, 9] 4 = .ok [3, 2, 8, 2] := by
  intro envs log
  have hsecond : (1, ⟨⟨[7, 8], 1, some 6, 1⟩, 1, 0⟩) ∈ assignments log := by decide +kernel
  have hthird : (2, ⟨⟨[7, 8, 9], 2, some 4, 2⟩, 2, 0⟩) ∈ assignments log := by decide +kernel
  have htold : verdict log 2 = some (.ok ⟨[.named finishReasonStatName "Length",
      .named queueWaitStatName (renderSeconds 0), .tokensCount 4]⟩) := by decide +kernel
  have hsound : (RecallServer.recalled crowded).sound .fresh := trivial
  obtain ⟨_, halone⟩ := generated_as_alone RecallServer.recalled_determined hsound envs (by decide)
  obtain ⟨_, hprompt, hstarts, _⟩ := halone 1 _ hsecond
  obtain rfl := Except.ok.inj hprompt
  obtain ⟨_, hprompt, _, hall, _⟩ := halone 2 _ hthird
  obtain rfl := Except.ok.inj hprompt
  exact ⟨by decide +kernel, by decide +kernel, hstarts, hall _ htold (by decide),
    by decide +kernel⟩

end Worker

end BurnLm.Inference
