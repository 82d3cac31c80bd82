/-
# The stages of a turn

A turn takes in commands, resumes evicted sequences, starts queued jobs, sweeps
for cancellations and then settles who may grow. Claims about one of these stages
are about the worker it finds, so this module names the workers in between, and
says exactly what one pass of each admission loop does. The moves of a turn forget
the guarantee a sequence joins with and the reason a pass stops; here both are
kept.
-/

import BurnLm.Inference.Journal
import BurnLm.Inference.Drain

namespace BurnLm.Inference

open BurnLm.Math
open Relation (ReflTransGen)

universe u v w

namespace Worker

variable {S : Type u} {Row : Type v} {Task : Type w} [BatchedInferenceServer S Row Task]

/-! ## Passes of the admission loops -/

/-- The blocks an evicted sequence is guaranteed on its way back. -/
def resumeGuarantee (server : S) (active : List JobSeq) (candidate : ResumedJob) : ℕ :=
  admissionGuarantee (kvAdmission server) active
    ((batchCapacity server).kv.blocksFor
      (min (subWord (addWord candidate.tokens.length candidate.maxGen) candidate.generated)
        (maxContextLen server)))
    ((batchCapacity server).kv.blocksFor
      (min (candidate.tokens.length + 1) (maxContextLen server)))

/-- The blocks a queued job needs in the worst case. -/
def worstCase (server : S) (front : QueuedJob Task) (tokens : List Token) : ℕ :=
  (batchCapacity server).kv.blocksFor
    (min (addWord tokens.length (front.job.maxGen (maxGenTokens server))) (maxContextLen server))

/-- The blocks a queued job is guaranteed when it starts. -/
def startGuarantee (server : S) (active : List JobSeq) (front : QueuedJob Task)
    (tokens : List Token) : ℕ :=
  admissionGuarantee (kvAdmission server) active (worstCase server front tokens)
    ((batchCapacity server).kv.blocksFor (min (tokens.length + 1) (maxContextLen server)))

/-- There is room for so many blocks, and a slot. -/
def hasRoom (server : S) (active : List JobSeq) (guaranteed : ℕ) : Bool :=
  decide (guaranteed ≤ (batchCapacity server).kv.totalBlocks - reservedBlocks active) &&
    (lowestFreeSlot (batchCapacity server).maxSlots active).isSome

theorem hasRoom_iff {server : S} {active : List JobSeq} {guaranteed : ℕ} :
    hasRoom server active guaranteed = true ↔
      guaranteed ≤ (batchCapacity server).kv.totalBlocks - reservedBlocks active ∧
        ∃ slot, lowestFreeSlot (batchCapacity server).maxSlots active = some slot := by
  simp [hasRoom, Option.isSome_iff_exists]

/-- What one pass of the resume loop does. -/
inductive ResumeStep (worker : Worker S Task) : Bool × Worker S Task → Prop
  | idle (hidle : worker.resume = [] ∨
      (batchCapacity worker.server).maxSlots ≤ worker.active.length) :
      ResumeStep worker (false, worker)
  | stuck {candidate : ResumedJob} {rest : List ResumedJob}
      (hresume : worker.resume = candidate :: rest)
      (hslots : worker.active.length < (batchCapacity worker.server).maxSlots)
      (hstuck : (decoder worker.server).1 = .ok () →
        hasRoom (decoder worker.server).2 worker.active
          (resumeGuarantee (decoder worker.server).2 worker.active candidate) = false) :
      ResumeStep worker (false, { worker with server := (decoder worker.server).2 })
  | resumed {candidate : ResumedJob} {rest : List ResumedJob} {slot : ℕ}
      (hresume : worker.resume = candidate :: rest)
      (hslots : worker.active.length < (batchCapacity worker.server).maxSlots)
      (hborrowed : (decoder worker.server).1 = .ok ())
      (hslot : lowestFreeSlot (batchCapacity (decoder worker.server).2).maxSlots worker.active =
        some slot)
      (hroom : resumeGuarantee (decoder worker.server).2 worker.active candidate ≤
        (batchCapacity (decoder worker.server).2).kv.totalBlocks - reservedBlocks worker.active) :
      ResumeStep worker
        (true,
          { worker with
            server := releaseSlot (decoder worker.server).2 slot
            resume := rest
            active := worker.active ++ [candidate.seq
              (resumeGuarantee (decoder worker.server).2 worker.active candidate) slot] })

theorem resumeStep_cases (worker : Worker S Task) : ResumeStep worker (resumeStep worker) := by
  unfold resumeStep
  split
  · next hresume => exact .idle (Or.inl hresume)
  · next candidate rest hresume =>
      split
      swap
      · next hslots => exact .idle (Or.inr (not_lt.mp hslots))
      next hslots =>
      split
      · next error server hborrow =>
          obtain rfl : (decoder worker.server).2 = server := by rw [hborrow]
          refine .stuck hresume hslots fun hok => ?_
          rw [hborrow] at hok
          cases hok
      · next server hborrow =>
          obtain rfl : (decoder worker.server).2 = server := by rw [hborrow]
          dsimp only
          split
          · next hroom =>
              refine .stuck hresume hslots fun _ => ?_
              rw [← Bool.not_eq_true, hasRoom_iff]
              exact fun h => absurd hroom (not_lt.mpr h.1)
          · next hroom =>
              split
              · next hslot =>
                  refine .stuck hresume hslots fun _ => ?_
                  rw [← Bool.not_eq_true, hasRoom_iff, hslot]
                  simp
              · next slot hslot =>
                  exact .resumed hresume hslots (by rw [hborrow]) hslot (not_lt.mp hroom)

/-- Why a queued job is answered without being run: cancelled, or refused by the
decoder, the tokenizer or the size of the pool. -/
inductive Turned (env : TurnEnv Task) (server : S) (front : QueuedJob Task) :
    InferenceError → S → Prop
  | cancelled (hcancelled : env.cancelledAtAdmission front.job.cancel = true) :
      Turned env server front .cancelled server
  | refused {error : InferenceError}
      (hwanted : env.cancelledAtAdmission front.job.cancel = false)
      (hrefused : (decoder server).1 = .error error) :
      Turned env server front error (decoder server).2
  | unreadable {error : InferenceError}
      (hwanted : env.cancelledAtAdmission front.job.cancel = false)
      (hborrowed : (decoder server).1 = .ok ())
      (herror : tokenize (decoder server).2 front.job.task = .error error) :
      Turned env server front error (decoder server).2
  | oversized {tokens : List Token}
      (hwanted : env.cancelledAtAdmission front.job.cancel = false)
      (hborrowed : (decoder server).1 = .ok ())
      (htokens : tokenize (decoder server).2 front.job.task = .ok tokens)
      (hover : (batchCapacity (decoder server).2).kv.totalBlocks <
        worstCase (decoder server).2 front tokens) :
      Turned env server front
        (.kvPoolExhausted (worstCase (decoder server).2 front tokens -
          (batchCapacity (decoder server).2).kv.totalBlocks)) (decoder server).2

/-- A queued job that could run, if there was room. -/
structure Runnable (env : TurnEnv Task) (server : S) (front : QueuedJob Task)
    (tokens : List Token) : Prop where
  wanted : env.cancelledAtAdmission front.job.cancel = false
  borrowed : (decoder server).1 = .ok ()
  tokenized : tokenize (decoder server).2 front.job.task = .ok tokens
  fits : worstCase (decoder server).2 front tokens ≤
    (batchCapacity (decoder server).2).kv.totalBlocks

/-- What one pass of the queue loop does. -/
inductive QueueStep (env : TurnEnv Task) (worker : Worker S Task) : Bool × Worker S Task → Prop
  | idle (hidle : worker.queue = [] ∨
      (batchCapacity worker.server).maxSlots ≤ worker.active.length) :
      QueueStep env worker (false, worker)
  | turned {front : QueuedJob Task} {rest : List (QueuedJob Task)} {error : InferenceError}
      {server : S} (hqueue : worker.queue = front :: rest)
      (hslots : worker.active.length < (batchCapacity worker.server).maxSlots)
      (hturned : Turned env worker.server front error server) :
      QueueStep env worker (true, reject { worker with server } front rest error)
  | waiting {front : QueuedJob Task} {rest : List (QueuedJob Task)} {tokens : List Token}
      (hqueue : worker.queue = front :: rest)
      (hslots : worker.active.length < (batchCapacity worker.server).maxSlots)
      (hrunnable : Runnable env worker.server front tokens)
      (hwaiting : hasRoom (decoder worker.server).2 worker.active
        (startGuarantee (decoder worker.server).2 worker.active front tokens) = false) :
      QueueStep env worker (false, { worker with server := (decoder worker.server).2 })
  | started {front : QueuedJob Task} {rest : List (QueuedJob Task)} {tokens : List Token}
      {slot : ℕ} (hqueue : worker.queue = front :: rest)
      (hslots : worker.active.length < (batchCapacity worker.server).maxSlots)
      (hrunnable : Runnable env worker.server front tokens)
      (hslot : lowestFreeSlot (batchCapacity (decoder worker.server).2).maxSlots worker.active =
        some slot)
      (hroom : startGuarantee (decoder worker.server).2 worker.active front tokens ≤
        (batchCapacity (decoder worker.server).2).kv.totalBlocks - reservedBlocks worker.active) :
      QueueStep env worker
        (true, start { worker with server := (decoder worker.server).2 } env.now front rest tokens
          (front.job.maxGen (maxGenTokens (decoder worker.server).2))
          (startGuarantee (decoder worker.server).2 worker.active front tokens) slot)

theorem queueStep_cases (env : TurnEnv Task) (worker : Worker S Task) :
    QueueStep env worker (queueStep env worker) := by
  unfold queueStep
  split
  swap
  · next hslots => exact .idle (Or.inr (not_lt.mp hslots))
  next hslots =>
  split
  · next hqueue => exact .idle (Or.inl hqueue)
  next front rest hqueue =>
  by_cases hcancelled : env.cancelledAtAdmission front.job.cancel = true
  · rw [if_pos hcancelled]
    exact .turned hqueue hslots (.cancelled hcancelled)
  rw [if_neg hcancelled]
  rw [Bool.not_eq_true] at hcancelled
  split
  · next error server hborrow =>
      obtain rfl : (decoder worker.server).2 = server := by rw [hborrow]
      exact .turned hqueue hslots (.refused hcancelled (by rw [hborrow]))
  next server hborrow =>
  obtain rfl : (decoder worker.server).2 = server := by rw [hborrow]
  have hborrowed : (decoder worker.server).1 = .ok () := by rw [hborrow]
  dsimp only
  split
  · next error herror => exact .turned hqueue hslots (.unreadable hcancelled hborrowed herror)
  next tokens htokens =>
  split
  · next hover =>
      exact .turned hqueue hslots (.oversized hcancelled hborrowed htokens hover)
  next hfits =>
  have hrunnable : Runnable env worker.server front tokens :=
    ⟨hcancelled, hborrowed, htokens, not_lt.mp hfits⟩
  split
  · next hroom =>
      refine .waiting hqueue hslots hrunnable ?_
      rw [← Bool.not_eq_true, hasRoom_iff]
      exact fun h => absurd hroom (not_lt.mpr h.1)
  next hroom =>
  split
  · next hslot =>
      refine .waiting hqueue hslots hrunnable ?_
      rw [← Bool.not_eq_true, hasRoom_iff, hslot]
      simp
  · next slot hslot => exact .started hqueue hslots hrunnable hslot (not_lt.mp hroom)

/-! ## The workers in between -/

/-- The worker the resume loop leaves to the queue loop. -/
def resumed (worker : Worker S Task) : Worker S Task :=
  loop resumeStep worker.resume.length worker

theorem resumeStep_log (worker : Worker S Task) : (resumeStep worker).2.log = worker.log ∧
    (resumeStep worker).2.queue = worker.queue := by
  generalize hnext : resumeStep worker = next
  have hcase := resumeStep_cases worker
  rw [hnext] at hcase
  cases hcase <;> exact ⟨rfl, rfl⟩

theorem resumed_log (worker : Worker S Task) :
    (resumed worker).log = worker.log ∧ (resumed worker).queue = worker.queue :=
  @loop_induction _ resumeStep (fun state => state.log = worker.log ∧ state.queue = worker.queue)
    (fun state hstate =>
      ⟨(resumeStep_log state).1.trans hstate.1, (resumeStep_log state).2.trans hstate.2⟩)
    _ worker ⟨rfl, rfl⟩

theorem queueStep_resume (env : TurnEnv Task) (worker : Worker S Task) :
    (queueStep env worker).2.resume = worker.resume ∧
      (assignments worker.log).length ≤ (assignments (queueStep env worker).2.log).length := by
  generalize hnext : queueStep env worker = next
  have hcase := queueStep_cases env worker
  rw [hnext] at hcase
  cases hcase with
  | idle => exact ⟨rfl, le_rfl⟩
  | waiting => exact ⟨rfl, le_rfl⟩
  | turned => exact ⟨rfl, by simp [reject, emit]⟩
  | started => exact ⟨rfl, by simp [start, emit]⟩

/-- The queue loop resumes nobody and takes no id back. -/
theorem queueLoop_resume (env : TurnEnv Task) (bound : ℕ) (worker : Worker S Task) :
    (loop (queueStep env) bound worker).resume = worker.resume ∧
      (assignments worker.log).length ≤
        (assignments (loop (queueStep env) bound worker).log).length :=
  @loop_induction _ (queueStep env) (fun state => state.resume = worker.resume ∧
      (assignments worker.log).length ≤ (assignments state.log).length)
    (fun state hstate => ⟨(queueStep_resume env state).1.trans hstate.1,
      hstate.2.trans (queueStep_resume env state).2⟩) bound worker ⟨rfl, le_rfl⟩

/-- The worker the growth pass finds: everyone who gets in is in, and whose signal
has fired is marked. -/
def beforeGrowth (env : TurnEnv Task) (worker : Worker S Task) : Worker S Task :=
  { admitJobs env worker with
    server := (decoder (admitJobs env worker).server).2
    active := (admitJobs env worker).active.map (cancelSweep env) }

/-- Commands leave the evicted sequences alone. -/
theorem handleCommands_resume (commands : List (Command Task)) (worker : Worker S Task) :
    (worker.handleCommands commands).2.resume = worker.resume := by
  refine @handleCommands_induction _ _ _ _ (fun next => next.resume = worker.resume) commands
    (fun before command hbefore => ?_) worker rfl
  rcases handleCommand_cases (before.emit [.received command]) command with
    ⟨queued, _, hcase⟩ | ⟨_, hcase⟩ | ⟨_, server, effects, hcase, _⟩ <;> rw [hcase] <;>
    exact hbefore

/-- A batch stops at a shutdown, and only there. -/
theorem handleCommands_continue (commands : List (Command Task)) (worker : Worker S Task) :
    (worker.handleCommands commands).1 = .continue ↔ .shutdown ∉ commands := by
  induction commands generalizing worker with
  | nil => simp [handleCommands]
  | cons command commands ih =>
      rw [handleCommands]
      rcases handleCommand_cases (worker.emit [.received command]) command with
        ⟨queued, rfl, hcase⟩ | ⟨rfl, hcase⟩ | ⟨hserved, server, effects, hcase, _⟩ <;> rw [hcase]
      · simp [ih]
      · simp
      · have hne : .shutdown ≠ command := by
          rintro rfl
          simp [Command.isServed] at hserved
        simp [ih, hne]

/-- A run comes to a turn that sweeps for admission, and to this worker just before
it does. -/
def Admits (envs : List (TurnEnv Task)) (server : S) (env : TurnEnv Task)
    (worker : Worker S Task) : Prop :=
  ∃ before after taken, envs = before ++ env :: after ∧
    run before (spawn server) = (.continue, taken) ∧
    ¬(taken.active = [] ∧ taken.canAdmit = false ∧ env.commands = []) ∧
    taken.handleCommands env.commands = (.continue, worker)

/-- What the worker of every turn satisfies when it sweeps for admission. -/
theorem Admits.induction {envs : List (TurnEnv Task)} {server : S} {env : TurnEnv Task}
    {worker : Worker S Task} (hadmits : Admits envs server env worker) {Inv : Worker S Task → Prop}
    (hspawn : Inv (spawn server))
    (hmove : ∀ env before after, Inv before → Move env before after → Inv after) :
    Inv worker := by
  obtain ⟨before, after, taken, rfl, hrun, _, hcommands⟩ := hadmits
  have htaken : Inv (run before (spawn server)).2 :=
    run_induction before (fun env _ => hmove env) hspawn
  rw [hrun] at htaken
  have hhandled := (handleCommands_moves env.commands (fun _ h => h) taken).induction
    (hmove env) htaken
  rw [hcommands] at hhandled
  exact hhandled

/-- A turn that sweeps goes on to its step. -/
theorem turn_of_continue {env : TurnEnv Task} {taken worker : Worker S Task}
    (hbusy : ¬(taken.active = [] ∧ taken.canAdmit = false ∧ env.commands = []))
    (hcommands : taken.handleCommands env.commands = (.continue, worker)) :
    taken.turn env = (.continue, step env (admitJobs env worker)) := by
  rw [turn, if_neg hbusy, hcommands]

/-- The growth pass runs on the worker before it, if the decoder can be borrowed. -/
theorem prepareRound_eq (env : TurnEnv Task) (worker : Worker S Task) :
    prepareRound env (admitJobs env worker) =
      if (decoder (admitJobs env worker).server).1 = .ok () then
        grantKvGrowth (batchCapacity (admitJobs env worker).server).kv
          (maxContextLen (beforeGrowth env worker).server) (beforeGrowth env worker)
      else beforeGrowth env worker := by
  unfold prepareRound
  dsimp only
  split
  · next server hborrow =>
      obtain rfl : (decoder (admitJobs env worker).server).2 = server := by rw [hborrow]
      rw [hborrow, if_pos rfl]
      rfl
  · next error server hborrow =>
      obtain rfl : (decoder (admitJobs env worker).server).2 = server := by rw [hborrow]
      rw [hborrow, if_neg (by simp)]
      rfl

end Worker

end BurnLm.Inference
