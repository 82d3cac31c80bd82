/-
# Reading the worker's log

The log says which ids were given out, what was generated under them, which were
handed over and which retirements were announced. This module reads those columns
and keeps them in line with what the worker holds: ids are never reused, a request
in flight has not been retired, and a request that was given an id is held or was
retired.

No server and no command can disturb that, so nothing is assumed about either.
-/

import BurnLm.Inference.Reservation

namespace BurnLm.Inference

open BurnLm.Math

universe u v w

variable {Task : Type w}

/-! ## Columns -/

/-- What an event takes over, and under which id. -/
def EmissionEvent.admission : EmissionEvent → Option (ℕ × ℕ)
  | .admitted id _ _ completion => some (id, completion)
  | _ => none

/-- The retirement an event announces. -/
def EmissionEvent.retirement : EmissionEvent → Option (ℕ × InferenceResult Stats)
  | .retire id reply => some (id, reply)
  | _ => none

/-- The event an entry sends. -/
def Effect.event : Effect Task → Option EmissionEvent
  | .sent event => some event
  | _ => none

/-- The id an entry gives out. -/
def Effect.assignment : Effect Task → Option (ℕ × QueuedJob Task)
  | .assigned id queued => some (id, queued)
  | _ => none

/-- The token an entry generates, and for whom. -/
def Effect.generation : Effect Task → Option (ℕ × Token)
  | .advanced id (.stepped token _ _) => some (id, token)
  | _ => none

/-- The events sent. -/
def sentEvents (log : List (Effect Task)) : List EmissionEvent := log.filterMap Effect.event

/-- The ids given out, with their jobs. -/
def assignments (log : List (Effect Task)) : List (ℕ × QueuedJob Task) :=
  log.filterMap Effect.assignment

/-- The tokens generated, with the ids they were generated for. -/
def generations (log : List (Effect Task)) : List (ℕ × Token) := log.filterMap Effect.generation

/-- The ids handed over, with the completions they answer to. -/
def admissions (sent : List EmissionEvent) : List (ℕ × ℕ) :=
  sent.filterMap EmissionEvent.admission

/-- The retirements announced. -/
def retirements (sent : List EmissionEvent) : List (ℕ × InferenceResult Stats) :=
  sent.filterMap EmissionEvent.retirement

@[simp]
theorem sentEvents_append (log effects : List (Effect Task)) :
    sentEvents (log ++ effects) = sentEvents log ++ sentEvents effects :=
  List.filterMap_append

@[simp]
theorem assignments_append (log effects : List (Effect Task)) :
    assignments (log ++ effects) = assignments log ++ assignments effects :=
  List.filterMap_append

@[simp]
theorem generations_append (log effects : List (Effect Task)) :
    generations (log ++ effects) = generations log ++ generations effects :=
  List.filterMap_append

@[simp]
theorem admissions_append (sent more : List EmissionEvent) :
    admissions (sent ++ more) = admissions sent ++ admissions more :=
  List.filterMap_append

@[simp]
theorem retirements_append (sent more : List EmissionEvent) :
    retirements (sent ++ more) = retirements sent ++ retirements more :=
  List.filterMap_append

/-- Entries that give nothing out, generate nothing and retire nobody. -/
structure Quiet (effects : List (Effect Task)) : Prop where
  assignments : assignments effects = []
  generations : generations effects = []
  admissions : admissions (sentEvents effects) = []
  retirements : retirements (sentEvents effects) = []

theorem quiet_of_answers {effects : List (Effect Task)}
    (hanswers : ∀ effect ∈ effects, effect.isAnswer = true) : Quiet effects := by
  have hnone : ∀ effect ∈ effects, effect.event = none ∧ effect.assignment = none ∧
      effect.generation = none := by
    intro effect heffect
    have hanswer := hanswers effect heffect
    cases effect <;> first | exact ⟨rfl, rfl, rfl⟩ | simp [Effect.isAnswer] at hanswer
  have hevents : sentEvents effects = [] :=
    List.filterMap_eq_nil_iff.mpr fun effect heffect => (hnone effect heffect).1
  refine ⟨?_, ?_, by rw [hevents]; rfl, by rw [hevents]; rfl⟩
  · exact List.filterMap_eq_nil_iff.mpr fun effect heffect => (hnone effect heffect).2.1
  · exact List.filterMap_eq_nil_iff.mpr fun effect heffect => (hnone effect heffect).2.2

/-- The tokens generated for one request, in order. -/
def generatedFor (log : List (Effect Task)) (id : ℕ) : List Token :=
  ((generations log).filter fun entry => entry.1 = id).map Prod.snd

/-- The reply a request is told: its first retirement. -/
def verdict (log : List (Effect Task)) (id : ℕ) : Option (InferenceResult Stats) :=
  ((retirements (sentEvents log)).find? fun entry => entry.1 = id).map Prod.snd

/-- The ids given out. -/
def assignedIds (log : List (Effect Task)) : List ℕ := (assignments log).map Prod.fst

/-- The ids retired. -/
def retiredIds (sent : List EmissionEvent) : List ℕ := (retirements sent).map Prod.fst

/-- The ids handed over. -/
def admittedIds (sent : List EmissionEvent) : List ℕ := (admissions sent).map Prod.fst

theorem retiredIds_append (sent more : List EmissionEvent) :
    retiredIds (sent ++ more) = retiredIds sent ++ retiredIds more := by
  simp [retiredIds]

theorem admittedIds_append (sent more : List EmissionEvent) :
    admittedIds (sent ++ more) = admittedIds sent ++ admittedIds more := by
  simp [admittedIds]

/-- What one outcome generates. -/
def StepOutcome.tokens : StepOutcome → List Token
  | .stepped token _ _ => [token]
  | _ => []

/-- What one outcome retires. -/
def StepOutcome.failures : StepOutcome → List InferenceError
  | .failed error => [error]
  | _ => []

theorem outcomeEffects_columns (seq : JobSeq) (outcome : StepOutcome) :
    assignments (Worker.outcomeEffects seq outcome : List (Effect Task)) = [] ∧
      generations (Worker.outcomeEffects seq outcome : List (Effect Task)) =
        outcome.tokens.map (seq.extra.id, ·) ∧
      admissions (sentEvents (Worker.outcomeEffects seq outcome : List (Effect Task))) = [] ∧
      retirements (sentEvents (Worker.outcomeEffects seq outcome : List (Effect Task))) =
        outcome.failures.map fun error => (seq.extra.id, .error error) := by
  cases outcome <;> exact ⟨rfl, rfl, rfl, rfl⟩

/-- What a round's outcomes put into the log. -/
def roundEffects (entries : List (Entry JobMeta)) : List (Effect Task) :=
  entries.flatMap fun entry => Worker.outcomeEffects entry.seq entry.outcome

/-- The columns of a round: its tokens and its failures, sequence by sequence. -/
theorem roundEffects_columns (entries : List (Entry JobMeta)) :
    assignments (roundEffects entries : List (Effect Task)) = [] ∧
      generations (roundEffects entries : List (Effect Task)) =
        entries.flatMap (fun entry => entry.outcome.tokens.map (entry.seq.extra.id, ·)) ∧
      admissions (sentEvents (roundEffects entries : List (Effect Task))) = [] ∧
      retirements (sentEvents (roundEffects entries : List (Effect Task))) =
        entries.flatMap fun entry => entry.outcome.failures.map fun error =>
          (entry.seq.extra.id, .error error) := by
  unfold roundEffects
  induction entries with
  | nil => exact ⟨rfl, rfl, rfl, rfl⟩
  | cons entry entries ih =>
      obtain ⟨hassigned, hgenerated, hadmitted, hretired⟩ :=
        @outcomeEffects_columns Task entry.seq entry.outcome
      simp only [List.flatMap_cons, assignments_append, generations_append, sentEvents_append,
        admissions_append, retirements_append, hassigned, hgenerated, hadmitted, hretired, ih,
        List.append_nil, and_self]

namespace Worker

variable {S : Type u} {Row : Type v}

/-- The ids the worker holds. -/
def liveIds (worker : Worker S Task) : List ℕ :=
  worker.active.map (fun seq => seq.extra.id) ++ worker.resume.map fun job => job.extra.id

/-- A request in flight: active and unfinished, or evicted. -/
def Pending (worker : Worker S Task) (id : ℕ) : Prop :=
  (∃ seq ∈ worker.active, seq.finished = false ∧ seq.extra.id = id) ∨
    ∃ job ∈ worker.resume, job.extra.id = id

/-- What the worker holds and what the log says go together. -/
structure Accounted (worker : Worker S Task) : Prop where
  nodup : worker.liveIds.Nodup
  assigned_nodup : (assignedIds worker.log).Nodup
  assigned_lt : ∀ id ∈ assignedIds worker.log, id < worker.nextId
  live_assigned : ∀ id ∈ worker.liveIds, id ∈ assignedIds worker.log
  generated_assigned : ∀ id ∈ (generations worker.log).map Prod.fst, id ∈ assignedIds worker.log
  /-- Whoever gets an id is handed over under it. -/
  admitted : admissions (sentEvents worker.log) =
    (assignments worker.log).map fun entry => (entry.1, entry.2.completion)
  /-- Nobody is retired before that. -/
  retired_admitted : ∀ sent, sent <+: sentEvents worker.log →
    ∀ id ∈ retiredIds sent, id ∈ admittedIds sent
  unretired : ∀ id, worker.Pending id → id ∉ retiredIds (sentEvents worker.log)
  resolved : ∀ id ∈ assignedIds worker.log,
    id ∈ worker.liveIds ∨ id ∈ retiredIds (sentEvents worker.log)

/-- A change that gives no id out: what was held is held or retired, and what is
in flight was and is not retired. -/
structure Carries (worker next : Worker S Task) (effects : List (Effect Task)) : Prop where
  log : next.log = worker.log ++ effects
  nextId : next.nextId = worker.nextId
  unassigned : assignments effects = []
  unadmitted : admissions (sentEvents effects) = []
  generated : ∀ id ∈ (generations effects).map Prod.fst, id ∈ worker.liveIds
  retired : ∀ id ∈ retiredIds (sentEvents effects), id ∈ worker.liveIds
  held : List.Subperm next.liveIds worker.liveIds
  kept : ∀ id ∈ worker.liveIds, id ∈ next.liveIds ∨ id ∈ retiredIds (sentEvents effects)
  pending : ∀ id, next.Pending id → worker.Pending id ∧ id ∉ retiredIds (sentEvents effects)

theorem Accounted.admittedIds_eq {worker : Worker S Task} (hworker : worker.Accounted) :
    admittedIds (sentEvents worker.log) = assignedIds worker.log := by
  simp [admittedIds, assignedIds, hworker.admitted]

/-- The next id was not given out yet. -/
theorem Accounted.fresh {worker : Worker S Task} (hworker : worker.Accounted) :
    worker.nextId ∉ assignedIds worker.log := fun hmem =>
  lt_irrefl _ (hworker.assigned_lt _ hmem)

/-- Nothing is generated under an id not given out. -/
theorem Accounted.generatedFor_unassigned {worker : Worker S Task} (hworker : worker.Accounted)
    {id : ℕ} (hid : id ∉ assignedIds worker.log) : generatedFor worker.log id = [] := by
  rw [generatedFor, List.map_eq_nil_iff, List.filter_eq_nil_iff]
  intro entry hentry hkey
  refine hid (hworker.generated_assigned id ?_)
  rw [← of_decide_eq_true hkey]
  exact List.mem_map_of_mem hentry

/-- The events of a longer log: a prefix stops in the old ones or goes on into the
new ones. -/
theorem prefix_sentEvents_append {log effects : List (Effect Task)} {sent : List EmissionEvent}
    (hsent : sent <+: sentEvents (log ++ effects)) :
    sent <+: sentEvents log ∨ ∃ more, sent = sentEvents log ++ more ∧ more <+: sentEvents effects := by
  rw [sentEvents_append] at hsent
  rcases List.prefix_or_prefix_of_prefix hsent (List.prefix_append _ _) with hold | ⟨more, rfl⟩
  · exact Or.inl hold
  · exact Or.inr ⟨more, rfl, (List.prefix_append_right_inj _).mp hsent⟩

theorem Accounted.carry {worker next : Worker S Task} {effects : List (Effect Task)}
    (hworker : worker.Accounted) (hcarries : worker.Carries next effects) : next.Accounted := by
  have hassignments : assignments next.log = assignments worker.log := by
    rw [hcarries.log, assignments_append, hcarries.unassigned, List.append_nil]
  have hassigned : assignedIds next.log = assignedIds worker.log := by
    rw [assignedIds, hassignments, assignedIds]
  have hretired : retiredIds (sentEvents next.log) =
      retiredIds (sentEvents worker.log) ++ retiredIds (sentEvents effects) := by
    rw [hcarries.log, sentEvents_append, retiredIds_append]
  constructor
  case nodup =>
    obtain ⟨_, hperm, hsublist⟩ := hcarries.held
    exact hperm.nodup_iff.mp (hsublist.nodup hworker.nodup)
  case assigned_nodup => exact hassigned ▸ hworker.assigned_nodup
  case assigned_lt =>
    rw [hassigned, hcarries.nextId]
    exact hworker.assigned_lt
  case live_assigned =>
    exact fun id hid => hassigned ▸ hworker.live_assigned id (hcarries.held.subset hid)
  case generated_assigned =>
    intro id hid
    rw [hcarries.log, generations_append, List.map_append, List.mem_append] at hid
    rw [hassigned]
    rcases hid with hid | hid
    · exact hworker.generated_assigned id hid
    · exact hworker.live_assigned id (hcarries.generated id hid)
  case admitted =>
    rw [hassignments, hcarries.log, sentEvents_append, admissions_append, hcarries.unadmitted,
      List.append_nil, hworker.admitted]
  case retired_admitted =>
    intro sent hsent id hid
    rw [hcarries.log] at hsent
    rcases prefix_sentEvents_append hsent with hsent | ⟨more, rfl, hmore⟩
    · exact hworker.retired_admitted sent hsent id hid
    · rw [retiredIds_append, List.mem_append] at hid
      rw [admittedIds_append, List.mem_append]
      refine Or.inl ?_
      rcases hid with hid | hid
      · exact hworker.retired_admitted _ List.prefix_rfl id hid
      · rw [hworker.admittedIds_eq]
        refine hworker.live_assigned id (hcarries.retired id ?_)
        exact ((hmore.sublist.filterMap EmissionEvent.retirement).map Prod.fst).subset hid
  case unretired =>
    intro id hid hmem
    obtain ⟨hpending, hfresh⟩ := hcarries.pending id hid
    rw [hretired, List.mem_append] at hmem
    exact hmem.elim (hworker.unretired id hpending) hfresh
  case resolved =>
    intro id hid
    rw [hassigned] at hid
    rw [hretired, List.mem_append]
    rcases hworker.resolved id hid with hlive | hdone
    · exact (hcarries.kept id hlive).imp_right Or.inr
    · exact Or.inr (Or.inl hdone)

/-- A change that shows in none of the columns. -/
theorem Carries.quiet {worker next : Worker S Task} {effects : List (Effect Task)}
    (hquiet : Quiet effects) (hlog : next.log = worker.log ++ effects)
    (hnextId : next.nextId = worker.nextId) (hlive : next.liveIds.Perm worker.liveIds)
    (hpending : ∀ id, next.Pending id → worker.Pending id) : worker.Carries next effects where
  log := hlog
  nextId := hnextId
  unassigned := hquiet.assignments
  unadmitted := hquiet.admissions
  generated := by simp [hquiet.generations]
  retired := by simp [retiredIds, hquiet.retirements]
  held := hlive.subperm
  kept := fun id hid => Or.inl (hlive.mem_iff.mpr hid)
  pending := fun id hid => ⟨hpending id hid, by simp [retiredIds, hquiet.retirements]⟩

/-- The ids a worker holds are distinct. -/
theorem Accounted.eq_of_id {worker : Worker S Task} (hworker : worker.Accounted)
    {first second : JobSeq} (hfirst : first ∈ worker.active) (hsecond : second ∈ worker.active)
    (hid : first.extra.id = second.extra.id) : first = second :=
  List.inj_on_of_nodup_map (List.nodup_append.mp hworker.nodup).1 hfirst hsecond hid

theorem Accounted.id_ne {worker : Worker S Task} (hworker : worker.Accounted) {seq : JobSeq}
    (hseq : seq ∈ worker.active) {job : ResumedJob} (hjob : job ∈ worker.resume) :
    seq.extra.id ≠ job.extra.id :=
  (List.nodup_append.mp hworker.nodup).2.2 _ (List.mem_map_of_mem hseq) _
    (List.mem_map_of_mem hjob)

theorem mem_liveIds_of_active {worker : Worker S Task} {seq : JobSeq}
    (hseq : seq ∈ worker.active) : seq.extra.id ∈ worker.liveIds :=
  List.mem_append_left _ (List.mem_map_of_mem hseq)

/-- What a round's tokens are shipped as. -/
def shipment (batch : List (ℕ × List UInt8)) : List (Effect Task) :=
  if batch = [] then [] else [.sent (.tokens batch)]

theorem quiet_shipment (batch : List (ℕ × List UInt8)) :
    Quiet (shipment batch : List (Effect Task)) := by
  unfold shipment
  split <;> exact ⟨rfl, rfl, rfl, rfl⟩

/-- A failed step finishes its sequence. -/
theorem finished_of_failures {X : Type w} {maxContextLen : ℕ} {stopIds : List Token}
    {seq next : ActiveSeq X} {outcome : StepOutcome}
    (hstep : SeqStep maxContextLen stopIds seq next outcome) (hfailed : outcome.failures ≠ []) :
    next.finished = true := by
  cases hstep with
  | overlong _ _ => rfl
  | failed _ _ _ => rfl
  | _ => exact absurd rfl hfailed

/-- Steps finish sequences and never revive one. -/
theorem unfinished_of_step {X : Type w} {maxContextLen : ℕ} {stopIds : List Token}
    {seq next : ActiveSeq X} {outcome : StepOutcome}
    (hstep : SeqStep maxContextLen stopIds seq next outcome) (hnext : next.finished = false) :
    seq.finished = false := by
  cases hstep with
  | idle _ => exact hnext
  | _ => assumption

/-! ## What every move keeps -/

section Moves

variable [BatchedInferenceServer S Row Task]

/-- Commands only queue and answer. -/
theorem command_carries (worker : Worker S Task) (command : Command Task) :
    ∃ effects, worker.Carries ((worker.emit [.received command]).handleCommand command).2
      effects := by
  rcases handleCommand_cases (worker.emit [.received command]) command with
    ⟨queued, _, hcase⟩ | ⟨_, hcase⟩ | ⟨_, server, effects, hcase, hanswers, _⟩ <;> rw [hcase]
  · exact ⟨_, .quiet ⟨rfl, rfl, rfl, rfl⟩ rfl rfl (.refl _) fun _ h => h⟩
  · exact ⟨_, .quiet ⟨rfl, rfl, rfl, rfl⟩ rfl rfl (.refl _) fun _ h => h⟩
  · obtain ⟨hassigned, hgenerated, hadmitted, hretired⟩ := quiet_of_answers hanswers
    exact ⟨.received command :: effects, .quiet ⟨hassigned, hgenerated, hadmitted, hretired⟩
      (by simp [emit]) rfl (.refl _) fun _ h => h⟩

/-- The worker with the request it starts. -/
theorem Accounted.start {worker : Worker S Task} (hworker : worker.Accounted) (now : ℕ)
    (front : QueuedJob Task) (rest : List (QueuedJob Task)) (tokens : List Token)
    (maxGen guaranteed slot : ℕ) :
    (worker.start now front rest tokens maxGen guaranteed slot).Accounted := by
  have hfresh := hworker.fresh
  have hassignments : assignments
      (worker.start now front rest tokens maxGen guaranteed slot).log =
        assignments worker.log ++ [(worker.nextId, front)] := assignments_append _ _
  have hassigned : assignedIds (worker.start now front rest tokens maxGen guaranteed slot).log =
      assignedIds worker.log ++ [worker.nextId] := by
    simp [assignedIds, hassignments]
  have hevents : sentEvents (worker.start now front rest tokens maxGen guaranteed slot).log =
      sentEvents worker.log ++
        [.admitted worker.nextId front.job.emitter .new front.completion] := sentEvents_append _ _
  have hlive : (worker.start now front rest tokens maxGen guaranteed slot).liveIds.Perm
      (worker.nextId :: worker.liveIds) := by
    simp only [liveIds, Worker.start, emit, List.map_append, List.map_cons, List.map_nil,
      List.append_assoc, List.singleton_append]
    exact List.perm_middle
  have hretired : retiredIds
      (sentEvents (worker.start now front rest tokens maxGen guaranteed slot).log) =
        retiredIds (sentEvents worker.log) := by
    rw [hevents, retiredIds_append]
    exact List.append_nil _
  constructor
  case nodup =>
    rw [hlive.nodup_iff, List.nodup_cons]
    exact ⟨fun hmem => hfresh (hworker.live_assigned _ hmem), hworker.nodup⟩
  case assigned_nodup =>
    rw [hassigned, ← List.concat_eq_append, List.nodup_concat]
    exact ⟨hfresh, hworker.assigned_nodup⟩
  case assigned_lt =>
    intro id hid
    rw [hassigned, List.mem_append, List.mem_singleton] at hid
    rcases hid with hid | rfl
    · exact Nat.lt_succ_of_lt (hworker.assigned_lt id hid)
    · exact Nat.lt_succ_self _
  case live_assigned =>
    intro id hid
    rw [hassigned, List.mem_append, List.mem_singleton]
    rcases List.mem_cons.mp (hlive.mem_iff.mp hid) with rfl | hid
    · exact Or.inr rfl
    · exact Or.inl (hworker.live_assigned id hid)
  case generated_assigned =>
    intro id hid
    rw [hassigned, List.mem_append]
    refine Or.inl (hworker.generated_assigned id ?_)
    simpa [Worker.start, emit, generations, Effect.generation] using hid
  case admitted =>
    rw [hevents, admissions_append, hworker.admitted, hassignments, List.map_append]
    rfl
  case retired_admitted =>
    intro sent hsent id hid
    rw [hevents, List.prefix_concat_iff] at hsent
    rcases hsent with rfl | hsent
    · rw [← hevents, hretired] at hid
      rw [admittedIds_append, List.mem_append]
      exact Or.inl (hworker.retired_admitted _ List.prefix_rfl id hid)
    · exact hworker.retired_admitted sent hsent id hid
  case unretired =>
    intro id hid hmem
    rw [hretired] at hmem
    rcases hid with ⟨seq, hseq, hunfinished, rfl⟩ | hresumed
    · rcases List.mem_append.mp hseq with hseq | hseq
      · exact hworker.unretired _ (Or.inl ⟨seq, hseq, hunfinished, rfl⟩) hmem
      · rw [List.mem_singleton.mp hseq] at hmem
        refine hfresh ?_
        rw [← hworker.admittedIds_eq]
        exact hworker.retired_admitted _ List.prefix_rfl _ hmem
    · exact hworker.unretired id (Or.inr hresumed) hmem
  case resolved =>
    intro id hid
    rw [hretired]
    rw [hassigned, List.mem_append, List.mem_singleton] at hid
    rcases hid with hid | rfl
    · exact (hworker.resolved id hid).imp_left fun hlive' =>
        hlive.mem_iff.mpr (List.mem_cons_of_mem _ hlive')
    · exact Or.inl (hlive.mem_iff.mpr List.mem_cons_self)

/-- A request is started. -/
def Starts (worker next : Worker S Task) : Prop :=
  ∃ now front rest tokens maxGen guaranteed slot, next =
    start { worker with server := (decoder worker.server).2 } now front rest tokens maxGen
      guaranteed slot

/-- An admission carries what is held, or starts a request. -/
theorem Admission.carries_or_starts {env : TurnEnv Task} {worker next : Worker S Task}
    (hadmission : Admission env worker next) :
    (∃ effects, worker.Carries next effects) ∨ worker.Starts next := by
  have hnone : Quiet ([] : List (Effect Task)) := ⟨rfl, rfl, rfl, rfl⟩
  cases hadmission with
  | borrow =>
      exact Or.inl ⟨[], .quiet hnone (List.append_nil _).symm rfl (.refl _) fun _ h => h⟩
  | resume candidate rest slot guaranteed hresume hborrowed hslot hroom =>
      refine Or.inl ⟨[], .quiet hnone (List.append_nil _).symm rfl ?_ fun id hid => ?_⟩
      · simp [liveIds, hresume, ResumedJob.seq]
      · rcases hid with ⟨seq, hseq, hunfinished, hid⟩ | ⟨job, hjob, hid⟩
        · rcases List.mem_append.mp hseq with hseq | hseq
          · exact Or.inl ⟨seq, hseq, hunfinished, hid⟩
          · obtain rfl := List.mem_singleton.mp hseq
            exact Or.inr ⟨candidate, by rw [hresume]; exact List.mem_cons_self, hid⟩
        · exact Or.inr ⟨job, by rw [hresume]; exact List.mem_cons_of_mem _ hjob, hid⟩
  | reject front rest error hqueue =>
      exact Or.inl ⟨_, .quiet ⟨rfl, rfl, rfl, rfl⟩ rfl rfl (.refl _) fun _ h => h⟩
  | start front rest tokens maxGen guaranteed slot =>
      exact Or.inr ⟨_, front, rest, tokens, maxGen, guaranteed, slot, rfl⟩

omit [BatchedInferenceServer S Row Task] in
/-- A sweep finishes, and renames nobody. -/
theorem cancelSweep_frame (env : TurnEnv Task) (seq : JobSeq) :
    (cancelSweep env seq).extra.id = seq.extra.id ∧
      ((cancelSweep env seq).finished = false → seq.finished = false) := by
  unfold cancelSweep
  split
  · exact ⟨rfl, by simp⟩
  · exact ⟨rfl, id⟩

omit [BatchedInferenceServer S Row Task] in
theorem sweep_carries (env : TurnEnv Task) (worker : Worker S Task) :
    worker.Carries { worker with active := worker.active.map (cancelSweep env) } [] := by
  refine .quiet ⟨rfl, rfl, rfl, rfl⟩ (List.append_nil _).symm rfl ?_ fun id hpending => ?_
  · have hids : (fun seq : JobSeq => seq.extra.id) ∘ cancelSweep env =
        fun seq => seq.extra.id := by
      funext seq
      exact (cancelSweep_frame env seq).1
    simp [liveIds, hids]
  · refine hpending.imp_left ?_
    rintro ⟨swept, hswept, hunfinished, rfl⟩
    obtain ⟨seq, hseq, rfl⟩ := List.mem_map.mp hswept
    exact ⟨seq, hseq, (cancelSweep_frame env seq).2 hunfinished,
      (cancelSweep_frame env seq).1.symm⟩

theorem Regrowth.carries {measured : S} {worker next : Worker S Task}
    (hregrowth : Regrowth measured worker next) : worker.Carries next [] := by
  cases hregrowth with
  | grow before seq after reservation paused hactive hlimited hraise hroom =>
      refine .quiet ⟨rfl, rfl, rfl, rfl⟩ (List.append_nil _).symm rfl ?_ fun id hpending => ?_
      · simp [liveIds, hactive]
      · refine hpending.imp_left ?_
        rintro ⟨other, hother, hunfinished, rfl⟩
        rw [hactive]
        rcases List.mem_append.mp hother with hother | hother
        · exact ⟨other, by simp [hother], hunfinished, rfl⟩
        · rcases List.mem_cons.mp hother with rfl | hother
          · exact ⟨seq, by simp, hunfinished, rfl⟩
          · exact ⟨other, by simp [hother], hunfinished, rfl⟩
  | evict before victim after hactive hunfinished =>
      refine .quiet ⟨rfl, rfl, rfl, rfl⟩ (List.append_nil _).symm rfl ?_ fun id hpending => ?_
      · simp only [liveIds, hactive, List.map_append, List.map_cons, List.append_assoc,
          List.cons_append]
        refine List.Perm.append_left _ ?_
        exact List.perm_middle
      · rcases hpending with ⟨seq, hseq, hseqUnfinished, hid⟩ | ⟨job, hjob, hid⟩
        · refine Or.inl ⟨seq, ?_, hseqUnfinished, hid⟩
          rw [hactive]
          rcases List.mem_append.mp hseq with hseq | hseq <;> simp [hseq]
        · rcases List.mem_cons.mp hjob with rfl | hjob
          · exact Or.inl ⟨victim, by rw [hactive]; simp, hunfinished, hid⟩
          · exact Or.inr ⟨job, hjob, hid⟩

theorem report_log (worker : Worker S Task) (entries : List (Entry JobMeta)) :
    (worker.report (entries.map Entry.seq) (entries.map Entry.outcome)).log = worker.log ++
      (roundEffects entries ++ shipment (entries.flatMap fun entry =>
          outcomeTokens worker.server entry.seq entry.outcome)) := by
  simp [report, emit, shipment, roundEffects, List.zip_map', List.flatMap_map]

/-- A round, read off the log, down to the batch it ships. -/
theorem runRound_shipped (configured : S) (worker : Worker S Task) :
    ∃ (entries : List (Entry JobMeta)) (shipper : S),
      List.Forall₂ (fun seq entry => SeqStep (maxContextLen worker.server) (stopIds configured) seq
        entry.seq entry.outcome) worker.active entries ∧
      (runRound configured worker).active =
        entries.map (fun entry => noteOutcome entry.seq entry.outcome) ∧
      (runRound configured worker).log = worker.log ++ (roundEffects entries ++
        shipment (entries.flatMap fun entry => outcomeTokens shipper entry.seq entry.outcome)) := by
  obtain ⟨entries, hsteps, _, hround⟩ := runRound_steps configured worker
  refine ⟨entries, (runRound configured worker).server, hsteps, ?_, ?_⟩
  · rw [hround, report_active]
  · rw [hround, report_log]
    rfl

/-- A round, read off the log. -/
theorem runRound_log (configured : S) (worker : Worker S Task) :
    ∃ (entries : List (Entry JobMeta)) (batch : List (ℕ × List UInt8)),
      List.Forall₂ (fun seq entry => SeqStep (maxContextLen worker.server) (stopIds configured) seq
        entry.seq entry.outcome) worker.active entries ∧
      (runRound configured worker).active =
        entries.map (fun entry => noteOutcome entry.seq entry.outcome) ∧
      (runRound configured worker).log = worker.log ++
        (roundEffects entries ++ shipment batch) := by
  obtain ⟨entries, shipper, hsteps, hactive, hlog⟩ := runRound_shipped configured worker
  exact ⟨entries, _, hsteps, hactive, hlog⟩

omit [BatchedInferenceServer S Row Task] in
/-- The entries of a round are its sequences, in order. -/
theorem ids_of_steps {contextLen : ℕ} {stopIds : List Token} {seqs : List JobSeq}
    {entries : List (Entry JobMeta)}
    (hsteps : List.Forall₂ (fun seq entry =>
      SeqStep contextLen stopIds seq entry.seq entry.outcome) seqs entries) :
    entries.map (fun entry => entry.seq.extra.id) = seqs.map fun seq => seq.extra.id := by
  refine List.forall₂_eq_eq_eq ▸ List.forall₂_map_left_iff.mpr (List.forall₂_map_right_iff.mpr
    (hsteps.flip.imp fun entry seq hstep => ?_))
  rw [hstep.frame.2.2.2.2]

/-- Whoever is in flight after a round was an entry of it, or waits to resume. -/
theorem pending_runRound {worker : Worker S Task} {configured server : S}
    {entries : List (Entry JobMeta)}
    (hactive : (runRound configured { worker with server }).active =
      entries.map fun entry => noteOutcome entry.seq entry.outcome)
    {id : ℕ} (hpending : (runRound configured { worker with server }).Pending id) :
    (∃ entry ∈ entries, entry.seq.finished = false ∧ entry.seq.extra.id = id) ∨
      ∃ job ∈ worker.resume, job.extra.id = id := by
  rcases hpending with ⟨noted, hnoted, hunfinished, hid⟩ | ⟨job, hjob, hid⟩
  · rw [hactive] at hnoted
    obtain ⟨entry, hentry, rfl⟩ := List.mem_map.mp hnoted
    obtain ⟨hitStop, hnote⟩ := noteOutcome_eq entry.seq entry.outcome
    rw [hnote] at hunfinished hid
    exact Or.inl ⟨entry, hentry, hunfinished, hid⟩
  · exact Or.inr ⟨job, hjob, hid⟩

/-- A round's tokens and failures belong to what it ran. -/
theorem Accounted.round_carries {worker : Worker S Task} (hworker : worker.Accounted)
    (configured server : S) :
    ∃ effects, worker.Carries (runRound configured { worker with server }) effects := by
  obtain ⟨entries, batch, hsteps, hactive, hlog⟩ := runRound_log configured { worker with server }
  obtain ⟨hassigned, hgenerated, hadmitted, hretired⟩ := @roundEffects_columns Task entries
  have hship := @quiet_shipment Task batch
  have hids : entries.map (fun entry => entry.seq.extra.id) =
      worker.active.map fun seq => seq.extra.id := ids_of_steps hsteps
  have hlive : (runRound configured { worker with server }).liveIds = worker.liveIds := by
    rw [liveIds, hactive, List.map_map]
    refine congrArg (· ++ _) (Eq.trans (List.map_congr_left fun entry _ => ?_) hids)
    obtain ⟨hitStop, hnote⟩ := noteOutcome_eq entry.seq entry.outcome
    exact congrArg (fun seq => seq.extra.id) hnote
  have hheld : ∀ entry ∈ entries, entry.seq.extra.id ∈ worker.liveIds := fun entry hentry =>
    List.mem_append_left _ (hids ▸ List.mem_map_of_mem hentry)
  have hretirements : ∀ id ∈ retiredIds (sentEvents (roundEffects entries ++ shipment batch :
      List (Effect Task))), ∃ entry ∈ entries, entry.outcome.failures ≠ [] ∧
        entry.seq.extra.id = id := by
    intro id hid
    rw [sentEvents_append, retiredIds_append, retiredIds, retiredIds, hship.retirements, hretired,
      List.map_nil, List.append_nil] at hid
    obtain ⟨_, hmem, rfl⟩ := List.mem_map.mp hid
    obtain ⟨entry, hentry, hmem⟩ := List.mem_flatMap.mp hmem
    obtain ⟨error, herror, rfl⟩ := List.mem_map.mp hmem
    exact ⟨entry, hentry, List.ne_nil_of_mem herror, rfl⟩
  refine ⟨roundEffects entries ++ shipment batch, ?_⟩
  constructor
  case log => exact hlog
  case nextId => rfl
  case unassigned => rw [assignments_append, hassigned, hship.assignments, List.nil_append]
  case unadmitted =>
    rw [sentEvents_append, admissions_append, hadmitted, hship.admissions, List.nil_append]
  case generated =>
    intro id hid
    rw [generations_append, hship.generations, List.append_nil, hgenerated] at hid
    obtain ⟨_, hmem, rfl⟩ := List.mem_map.mp hid
    obtain ⟨entry, hentry, hmem⟩ := List.mem_flatMap.mp hmem
    obtain ⟨token, _, rfl⟩ := List.mem_map.mp hmem
    exact hheld entry hentry
  case retired =>
    intro id hid
    obtain ⟨entry, hentry, _, rfl⟩ := hretirements id hid
    exact hheld entry hentry
  case held => exact (List.Perm.of_eq hlive).subperm
  case kept => exact fun id hid => Or.inl (hlive ▸ hid)
  case pending =>
    intro id hpending
    rcases pending_runRound hactive hpending with ⟨entry, hentry, hunfinished, rfl⟩ |
      ⟨job, hjob, rfl⟩
    · obtain ⟨seq, hseq, hstep⟩ := exists_of_forall₂_right hsteps hentry
      refine ⟨Or.inl ⟨seq, hseq, unfinished_of_step hstep hunfinished,
        by rw [hstep.frame.2.2.2.2]⟩, fun hmem => ?_⟩
      -- the failed entry of that id would be this one
      obtain ⟨other, hother, hfailed, hid⟩ := hretirements _ hmem
      have hnodup := (List.nodup_append.mp hworker.nodup).1
      rw [← hids] at hnodup
      obtain rfl := List.inj_on_of_nodup_map hnodup hother hentry hid
      rw [finished_of_failures hstep hfailed] at hunfinished
      simp at hunfinished
    · refine ⟨Or.inr ⟨job, hjob, rfl⟩, fun hmem => ?_⟩
      obtain ⟨entry, hentry, _, hid⟩ := hretirements _ hmem
      obtain ⟨seq, hseq, hstep⟩ := exists_of_forall₂_right hsteps hentry
      exact hworker.id_ne hseq hjob (by rw [← hid, hstep.frame.2.2.2.2])

/-- The retirements a list of sequences is told. -/
theorem retirements_columns (seqs : List JobSeq) (reply : JobSeq → InferenceResult Stats) :
    let effects : List (Effect Task) :=
      seqs.map fun seq => .sent (.retire seq.extra.id (reply seq))
    assignments effects = [] ∧ generations effects = [] ∧ admissions (sentEvents effects) = [] ∧
      retiredIds (sentEvents effects) = seqs.map fun seq => seq.extra.id := by
  induction seqs with
  | nil => exact ⟨rfl, rfl, rfl, rfl⟩
  | cons seq seqs ih =>
      obtain ⟨hassigned, hgenerated, hadmitted, hretired⟩ := ih
      exact ⟨hassigned, hgenerated, hadmitted, congrArg (seq.extra.id :: ·) hretired⟩

/-- Sequences that leave are told. -/
theorem Accounted.leave_carries {worker : Worker S Task} (hworker : worker.Accounted)
    (next : Worker S Task) (gone : JobSeq → Bool) (reply : JobSeq → InferenceResult Stats)
    (hactive : next.active = worker.active.filter fun seq => !gone seq)
    (hresume : next.resume = worker.resume) (hnextId : next.nextId = worker.nextId)
    (hlog : next.log = worker.log ++
      (worker.active.filter gone).map fun seq => Effect.sent (.retire seq.extra.id (reply seq))) :
    ∃ effects, worker.Carries next effects := by
  obtain ⟨hassigned, hgenerated, hadmitted, hretired⟩ :=
    @retirements_columns Task (worker.active.filter gone) reply
  refine ⟨_, ⟨hlog, hnextId, hassigned, hadmitted, by simp [hgenerated], ?_, ?_, ?_, ?_⟩⟩
  · intro id hid
    rw [hretired] at hid
    obtain ⟨seq, hseq, rfl⟩ := List.mem_map.mp hid
    exact mem_liveIds_of_active (List.mem_of_mem_filter hseq)
  · rw [liveIds, liveIds, hactive, hresume]
    exact ((List.filter_sublist.map _).append_right _).subperm
  · intro id hid
    rw [hretired]
    rcases List.mem_append.mp hid with hmem | hmem
    · obtain ⟨seq, hseq, rfl⟩ := List.mem_map.mp hmem
      cases hgone : gone seq with
      | true =>
          exact Or.inr (List.mem_map_of_mem (List.mem_filter.mpr ⟨hseq, hgone⟩))
      | false =>
          refine Or.inl (mem_liveIds_of_active ?_)
          rw [hactive]
          exact List.mem_filter.mpr ⟨hseq, by simp [hgone]⟩
    · exact Or.inl (List.mem_append_right _ (hresume ▸ hmem))
  · rw [hretired]
    rintro id (⟨seq, hseq, hunfinished, rfl⟩ | ⟨job, hjob, rfl⟩)
    · rw [hactive, List.mem_filter] at hseq
      refine ⟨Or.inl ⟨seq, hseq.1, hunfinished, rfl⟩, fun hmem => ?_⟩
      obtain ⟨other, hother, hid⟩ := List.mem_map.mp hmem
      rw [List.mem_filter] at hother
      obtain rfl := hworker.eq_of_id hother.1 hseq.1 hid
      simp [hother.2] at hseq
    · rw [hresume] at hjob
      refine ⟨Or.inr ⟨job, hjob, rfl⟩, fun hmem => ?_⟩
      obtain ⟨other, hother, hid⟩ := List.mem_map.mp hmem
      exact hworker.id_ne (List.mem_of_mem_filter hother) hjob hid

/-- A move carries what is held, or starts a request. -/
theorem Accounted.carries_or_starts {env : TurnEnv Task} {worker next : Worker S Task}
    (hworker : worker.Accounted) (hmove : Move env worker next) :
    (∃ effects, worker.Carries next effects) ∨ worker.Starts next := by
  cases hmove with
  | command given hgiven => exact Or.inl (command_carries worker given)
  | admission hadmission => exact hadmission.carries_or_starts
  | sweep => exact Or.inl ⟨[], sweep_carries env worker⟩
  | regrowth measured hregrowth => exact Or.inl ⟨[], hregrowth.carries⟩
  | round configured hborrowed hcovered =>
      exact Or.inl (hworker.round_carries configured (decoder worker.server).2)
  | retire =>
      exact Or.inl (hworker.leave_carries worker.retireFinished ActiveSeq.finished
        (fun seq => .ok (retireStats seq)) rfl rfl rfl rfl)
  | fail error hrefused =>
      exact Or.inl (hworker.leave_carries
        (failActive { worker with server := (decoder worker.server).2 } error) (fun _ => true)
        (fun _ => .error error) (by simp [failActive, emit]) rfl rfl (by simp [failActive, emit]))

/-- A borrow shows nowhere. -/
theorem Accounted.borrow {worker : Worker S Task} (hworker : worker.Accounted) :
    Accounted { worker with server := (decoder worker.server).2 } :=
  hworker.carry (.quiet ⟨rfl, rfl, rfl, rfl⟩ (List.append_nil _).symm rfl (.refl _) fun _ h => h)

/-- **What the worker holds and what the log says go together**, move by move. -/
theorem Accounted.move {env : TurnEnv Task} {worker next : Worker S Task}
    (hworker : worker.Accounted) (hmove : Move env worker next) : next.Accounted := by
  rcases hworker.carries_or_starts hmove with
    ⟨effects, hcarries⟩ | ⟨now, front, rest, tokens, maxGen, guaranteed, slot, rfl⟩
  · exact hworker.carry hcarries
  · exact hworker.borrow.start _ _ _ _ _ _ _

/-- Who is in flight after a move was so before it, or has just been started. -/
theorem Accounted.pending_of_move {env : TurnEnv Task} {worker next : Worker S Task}
    (hworker : worker.Accounted) (hmove : Move env worker next) {id : ℕ}
    (hpending : next.Pending id) : worker.Pending id ∨ id = worker.nextId := by
  rcases hworker.carries_or_starts hmove with
    ⟨effects, hcarries⟩ | ⟨now, front, rest, tokens, maxGen, guaranteed, slot, rfl⟩
  · exact Or.inl (hcarries.pending id hpending).1
  · rcases hpending with ⟨seq, hseq, hunfinished, hid⟩ | hresumed
    · rcases List.mem_append.mp hseq with hseq | hseq
      · exact Or.inl (Or.inl ⟨seq, hseq, hunfinished, hid⟩)
      · obtain rfl := List.mem_singleton.mp hseq
        exact Or.inr hid.symm
    · exact Or.inl (Or.inr hresumed)

omit [BatchedInferenceServer S Row Task] in
theorem Accounted.spawn (server : S) : (spawn server : Worker S Task).Accounted := by
  constructor <;> simp [Worker.spawn, liveIds, Pending, assignedIds, assignments, generations,
    sentEvents, admissions, retiredIds, retirements]

theorem Accounted.turn {worker : Worker S Task} (hworker : worker.Accounted)
    (env : TurnEnv Task) : (worker.turn env).2.Accounted :=
  (turn_moves env worker).induction (fun _ _ hbefore => hbefore.move) hworker

end Moves

end Worker

end BurnLm.Inference
