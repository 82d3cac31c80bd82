/-
# The serving worker

One thread owns the server and takes turns. A turn takes in the commands that
have arrived, admits what fits, settles who may grow, runs one round and retires
what finished. Everything it does that anyone can see goes into a log, in program
order; a few log entries exist only to be reasoned about and say so.

The server is a parameter: its operations may answer anything, and each leaves a
server behind. Where the source borrows the decoder out of the server, the
borrow is the server itself and only its success is a result. Handles (reply
channels, emitters, cancellation signals) are natural numbers. Durations count
hundredths of a second, which is what the one place that shows them shows.

A generation cap may be any machine word, so the sums of a length and a cap are
taken in one, and wrap as a release build lets them wrap. Lengths of lists in memory
are natural numbers.
-/

import BurnLm.Math.Words
import BurnLm.Inference.Round
import BurnLm.Inference.Utf8

namespace BurnLm.Inference

open BurnLm.Math

universe u v w

/-! ## What passes through the worker -/

inductive StatEntry
  | named (name value : String)
  | tokensCount (count : ℕ)
  deriving DecidableEq, Repr

/-- A finished request's statistics, in the order of the set that holds them. -/
structure Stats where
  entries : List StatEntry
  deriving DecidableEq, Repr

def finishReasonStatName : String := "Finish Reason"

def queueWaitStatName : String := "Queue Wait"

/-- Seconds with two decimals. -/
def renderSeconds (hundredths : ℕ) : String :=
  toString (hundredths / 100) ++ "." ++ toString (hundredths % 100 / 10) ++
    toString (hundredths % 10) ++ "s"

structure InferenceJob (Task : Type w) where
  task : Task
  emitter : ℕ
  /-- The caller's own cap on generated tokens. -/
  maxTokens : Option ℕ
  cancel : ℕ
  deriving DecidableEq

/-- The generation cap of a job: what it asked for, but never more than the
server's own cap. -/
def InferenceJob.maxGen {Task : Type w} (job : InferenceJob Task) (maxGenTokens : ℕ) : ℕ :=
  match job.maxTokens with
  | some requested => min requested maxGenTokens
  | none => maxGenTokens

theorem InferenceJob.maxGen_le {Task : Type w} (job : InferenceJob Task) (maxGenTokens : ℕ) :
    job.maxGen maxGenTokens ≤ maxGenTokens := by
  unfold InferenceJob.maxGen
  split
  · exact min_le_right _ _
  · exact le_rfl

/-- A job waiting in the queue. Its queue permit is dropped where the job leaves
the queue. -/
structure QueuedJob (Task : Type w) where
  job : InferenceJob Task
  /-- The one-shot channel the caller waits on. -/
  completion : ℕ
  enqueuedAt : ℕ
  deriving DecidableEq

/-- What a command asks of the server. Each but `submit` and `shutdown` carries
its reply channel. -/
inductive Command (Task : Type w)
  | downloader (reply : ℕ)
  | isDownloaded (reply : ℕ)
  | deleter (reply : ℕ)
  | parseCliConfig (args : List String) (reply : ℕ)
  | parseJsonConfig (json : String) (reply : ℕ)
  | load (reply : ℕ)
  | isLoaded (reply : ℕ)
  | unload (reply : ℕ)
  | submit (queued : QueuedJob Task)
  | clearState (reply : ℕ)
  | shutdown
  deriving DecidableEq

inductive Reply
  | function (handle : Option ℕ)
  | flag (value : Bool)
  | done
  | stats (result : InferenceResult (Option Stats))
  | cleared (result : InferenceResult Unit)
  deriving DecidableEq

/-- The two commands that destroy model state. -/
inductive Destructive
  | unload
  | clearState
  deriving DecidableEq, Repr

/-- What the worker tells the emission thread. -/
inductive EmissionEvent
  /-- Take ownership of a request's delivery state. -/
  | admitted (id emitter : ℕ) (detok : Utf8Buffer) (completion : ℕ)
  /-- One round's streamable tokens, as raw bytes. -/
  | tokens (batch : List (ℕ × List UInt8))
  | retire (id : ℕ) (reply : InferenceResult Stats)
  deriving DecidableEq

inductive Effect (Task : Type w)
  /-- A command was taken off the channel. -/
  | received (command : Command Task)
  | answered (reply : ℕ) (answer : Reply)
  /-- A destructive command was handed to the server. -/
  | passed (command : Destructive)
  | dequeued (queued : QueuedJob Task)
  /-- A completion was answered by the worker itself. -/
  | replied (completion : ℕ) (reply : InferenceResult Stats)
  /-- A job was given an id. For reasoning only. -/
  | assigned (id : ℕ) (queued : QueuedJob Task)
  /-- An event went to the emission thread. -/
  | sent (event : EmissionEvent)
  /-- A round did this to a request. For reasoning only. -/
  | advanced (id : ℕ) (outcome : StepOutcome)
  deriving DecidableEq

/-! ## The server -/

class InferenceServer (S : Type u) where
  downloader : S → Option ℕ × S
  isDownloaded : S → Bool × S
  deleter : S → Option ℕ × S
  parseCliConfig : S → List String → S
  parseJsonConfig : S → String → S
  load : S → InferenceResult (Option Stats) × S
  isLoaded : S → Bool × S
  unload : S → InferenceResult (Option Stats) × S
  clearState : S → InferenceResult Unit × S

/-- A server that can be driven batched. -/
class BatchedInferenceServer (S : Type u) (Row : outParam (Type v)) (Task : outParam (Type w))
    extends InferenceServer S, BatchedDecoder S Row where
  /-- Borrow the decoder, loading the model first if needed. -/
  decoder : S → InferenceResult Unit × S
  batchCapacity : S → BatchCapacity
  prefillChunkSize : S → ℕ
  prefillTokenBudget : S → ℕ
  kvAdmission : S → KvAdmission
  tokenize : S → Task → InferenceResult (List Token)
  detokenizeBytes : S → List Token → List UInt8
  stopIds : S → List Token
  maxGenTokens : S → ℕ
  /-- The sampler built from the server's present configuration. Its randomness
  comes from the backend the server runs on. -/
  sampler : S → S → Logits Row → InferenceResult (List Token) × S

export BatchedDecoder (prefill decode release maxContextLen)
export BatchedInferenceServer (decoder batchCapacity prefillChunkSize prefillTokenBudget
  kvAdmission tokenize detokenizeBytes stopIds maxGenTokens sampler)

/-! ## The worker's state -/

/-- What the worker remembers about an in-flight request beside its decode
state. -/
structure JobMeta where
  /-- Monotonic; slots are reused, ids are not. -/
  id : ℕ
  hitStop : Bool
  cancel : ℕ
  queueWait : ℕ
  /-- Set by the cancel sweep. -/
  cancelled : Bool
  deriving DecidableEq, Repr

/-- One in-flight request. -/
abbrev JobSeq : Type := ActiveSeq JobMeta

/-- A sequence evicted to unblock the pool. -/
structure ResumedJob where
  /-- Prompt and everything generated so far. -/
  tokens : List Token
  maxGen : ℕ
  generated : ℕ
  extra : JobMeta
  deriving DecidableEq, Repr

/-- The worker thread's variables. The resume list is a stack, its top first. -/
structure Worker (S : Type u) (Task : Type w) where
  server : S
  queue : List (QueuedJob Task)
  active : List JobSeq
  resume : List ResumedJob
  nextId : ℕ
  log : List (Effect Task)

/-- What a turn finds in the world outside: the commands that have arrived, what
each cancellation signal reads when admission and when the sweep look at it, and
the clock. -/
structure TurnEnv (Task : Type w) where
  commands : List (Command Task)
  cancelledAtAdmission : ℕ → Bool
  cancelledAtSweep : ℕ → Bool
  now : ℕ

/-- Whether the loop goes on. -/
inductive Flow
  | continue
  | shutdown
  deriving DecidableEq, Repr

/-- The sequence a job starts as. -/
def QueuedJob.seq {Task : Type w} (front : QueuedJob Task) (id now : ℕ) (tokens : List Token)
    (maxGen guaranteed slot : ℕ) : JobSeq where
  slot
  tokens
  processed := 0
  generated := 0
  maxGen
  finished := false
  kvReservation := guaranteed
  paused := false
  extra :=
    { id
      hitStop := false
      cancel := front.job.cancel
      queueWait := now - front.enqueuedAt
      cancelled := false }

/-- The sequence an evicted one comes back as: everything is to be recomputed. -/
def ResumedJob.seq (candidate : ResumedJob) (guaranteed slot : ℕ) : JobSeq where
  slot
  tokens := candidate.tokens
  processed := 0
  generated := candidate.generated
  maxGen := candidate.maxGen
  finished := false
  kvReservation := guaranteed
  paused := false
  extra := candidate.extra

def reservedBlocks (active : List JobSeq) : ℕ := (active.map ActiveSeq.kvReservation).sum

/-- The blocks admission guarantees: the worst case for everyone under `reserve`
and for the first sequence into an empty set, else the prompt footprint. -/
def admissionGuarantee (policy : KvAdmission) (active : List JobSeq) (worst footprint : ℕ) : ℕ :=
  if active = [] ∨ policy = .reserve then worst else footprint

def lowestFreeSlot (maxSlots : ℕ) (active : List JobSeq) : Option ℕ :=
  (List.range maxSlots).find? fun candidate => active.all fun seq => seq.slot ≠ candidate

namespace Worker

variable {S : Type u} {Row : Type v} {Task : Type w}

def spawn (server : S) : Worker S Task := ⟨server, [], [], [], 0, []⟩

/-- Append to the log. -/
def emit (worker : Worker S Task) (effects : List (Effect Task)) : Worker S Task :=
  { worker with log := worker.log ++ effects }

/-- Nothing is held. -/
def Drained (worker : Worker S Task) : Prop :=
  worker.queue = [] ∧ worker.active = [] ∧ worker.resume = []

instance (worker : Worker S Task) : Decidable worker.Drained :=
  inferInstanceAs (Decidable (_ ∧ _ ∧ _))

variable [BatchedInferenceServer S Row Task]

/-! ## Commands -/

/-- Refuse a destructive command while work is in flight, or hand it on. -/
def guardDestructive (worker : Worker S Task) (command : Destructive)
    (run : S → Reply × S) (refuse : InferenceError → Reply) (reply : ℕ) : Worker S Task :=
  if worker.active = [] ∧ worker.queue = [] then
    let (answer, server) := run worker.server
    { worker with server }.emit [.passed command, .answered reply answer]
  else
    worker.emit [.answered reply (refuse (.busy worker.active.length worker.queue.length))]

/-- Handle one command; a shutdown answers `true`. -/
def handleCommand (worker : Worker S Task) : Command Task → Bool × Worker S Task
  | .downloader reply =>
    let (function, server) := InferenceServer.downloader worker.server
    (false, { worker with server }.emit [.answered reply (.function function)])
  | .isDownloaded reply =>
    let (value, server) := InferenceServer.isDownloaded worker.server
    (false, { worker with server }.emit [.answered reply (.flag value)])
  | .deleter reply =>
    let (function, server) := InferenceServer.deleter worker.server
    (false, { worker with server }.emit [.answered reply (.function function)])
  | .parseCliConfig args reply =>
    let server := InferenceServer.parseCliConfig worker.server args
    (false, { worker with server }.emit [.answered reply .done])
  | .parseJsonConfig json reply =>
    let server := InferenceServer.parseJsonConfig worker.server json
    (false, { worker with server }.emit [.answered reply .done])
  | .load reply =>
    let (result, server) := InferenceServer.load worker.server
    (false, { worker with server }.emit [.answered reply (.stats result)])
  | .isLoaded reply =>
    let (value, server) := InferenceServer.isLoaded worker.server
    (false, { worker with server }.emit [.answered reply (.flag value)])
  | .unload reply =>
    (false, worker.guardDestructive .unload
      (fun server =>
        let (result, server) := InferenceServer.unload server
        (.stats result, server))
      (fun error => .stats (.error error)) reply)
  | .submit queued => (false, { worker with queue := worker.queue ++ [queued] })
  | .clearState reply =>
    (false, worker.guardDestructive .clearState
      (fun server =>
        let (result, server) := InferenceServer.clearState server
        (.cleared result, server))
      (fun error => .cleared (.error error)) reply)
  | .shutdown => (true, worker)

/-- Handle the commands a turn takes in, up to a shutdown. -/
def handleCommands (worker : Worker S Task) : List (Command Task) → Flow × Worker S Task
  | [] => (.continue, worker)
  | command :: commands =>
    match (worker.emit [.received command]).handleCommand command with
    | (true, worker) => (.shutdown, worker)
    | (false, worker) => worker.handleCommands commands

/-! ## Admission -/

/-- Release a slot, if the decoder can be borrowed. -/
def releaseSlot (server : S) (slot : ℕ) : S :=
  match decoder server with
  | (.ok (), server) => release server slot
  | (.error _, server) => server

/-- One pass of the resume loop. -/
def resumeStep (worker : Worker S Task) : Bool × Worker S Task :=
  match worker.resume with
  | [] => (false, worker)
  | candidate :: rest =>
    if worker.active.length < (batchCapacity worker.server).maxSlots then
      match decoder worker.server with
      | (.error _, server) => (false, { worker with server })
      | (.ok (), server) =>
        let maxContextLen := maxContextLen server
        let kv := (batchCapacity server).kv
        let guaranteed :=
          admissionGuarantee (kvAdmission server) worker.active
            (kv.blocksFor (min (subWord (addWord candidate.tokens.length candidate.maxGen) candidate.generated)
              maxContextLen))
            (kv.blocksFor (min (candidate.tokens.length + 1) maxContextLen))
        if kv.totalBlocks - reservedBlocks worker.active < guaranteed then
          (false, { worker with server })
        else
          match lowestFreeSlot (batchCapacity server).maxSlots worker.active with
          -- the source expects a slot here
          | none => (false, { worker with server })
          | some slot =>
            (true,
              { worker with
                server := releaseSlot server slot
                resume := rest
                active := worker.active ++ [candidate.seq guaranteed slot] })
    else (false, worker)

/-- Answer the front job without running it. -/
def reject (worker : Worker S Task) (front : QueuedJob Task) (rest : List (QueuedJob Task))
    (error : InferenceError) : Worker S Task :=
  { worker with queue := rest }.emit [.dequeued front, .replied front.completion (.error error)]

/-- Start a job in a slot: hand its delivery state to the emission thread under
a fresh id and put it into the active set. -/
def start (worker : Worker S Task) (now : ℕ) (front : QueuedJob Task)
    (rest : List (QueuedJob Task)) (tokens : List Token) (maxGen guaranteed slot : ℕ) :
    Worker S Task :=
  let started : Worker S Task :=
    { worker with
      server := releaseSlot worker.server slot
      queue := rest
      nextId := worker.nextId + 1
      active := worker.active ++
        [front.seq worker.nextId now tokens maxGen guaranteed slot] }
  started.emit [.dequeued front, .assigned worker.nextId front,
    .sent (.admitted worker.nextId front.job.emitter .new front.completion)]

/-- One pass of the queue loop. -/
def queueStep (env : TurnEnv Task) (worker : Worker S Task) : Bool × Worker S Task :=
  if worker.active.length < (batchCapacity worker.server).maxSlots then
    match worker.queue with
    | [] => (false, worker)
    | front :: rest =>
      if env.cancelledAtAdmission front.job.cancel then
        (true, worker.reject front rest .cancelled)
      else
        match decoder worker.server with
        | (.error error, server) => (true, { worker with server }.reject front rest error)
        | (.ok (), server) =>
          let worker := { worker with server }
          let maxContextLen := maxContextLen server
          match tokenize server front.job.task with
          | .error error => (true, worker.reject front rest error)
          | .ok tokens =>
            let maxGen := front.job.maxGen (maxGenTokens server)
            let kv := (batchCapacity server).kv
            let need := kv.blocksFor (min (addWord tokens.length maxGen) maxContextLen)
            if kv.totalBlocks < need then
              (true, worker.reject front rest (.kvPoolExhausted (need - kv.totalBlocks)))
            else
              let guaranteed :=
                admissionGuarantee (kvAdmission server) worker.active need
                  (kv.blocksFor (min (tokens.length + 1) maxContextLen))
              if kv.totalBlocks - reservedBlocks worker.active < guaranteed then (false, worker)
              else
                match lowestFreeSlot (batchCapacity server).maxSlots worker.active with
                -- the source expects a slot here
                | none => (false, worker)
                | some slot => (true, worker.start env.now front rest tokens maxGen guaranteed slot)
  else (false, worker)

/-- Move evicted sequences, then queued jobs, into the active set. Every pass
that goes round again shortens the list it reads. -/
def admitJobs (env : TurnEnv Task) (worker : Worker S Task) : Worker S Task :=
  let worker := loop resumeStep worker.resume.length worker
  loop (queueStep env) worker.queue.length worker

/-! ## Growth -/

/-- The growth pass: the sequences it has been past, the ones still to come, and
what it accounts. -/
structure Growth (S : Type u) where
  past : List JobSeq
  todo : List JobSeq
  resume : List ResumedJob
  server : S
  reserved : ℕ

/-- The last unfinished sequence of a list, and the list without it. -/
def popYoungest : List JobSeq → Option (JobSeq × List JobSeq)
  | [] => none
  | seq :: rest =>
    match popYoungest rest with
    | some (victim, kept) => some (victim, seq :: kept)
    | none => if seq.finished then none else some (seq, rest)

/-- Top the first unfinished sequence up toward its full worst case. -/
def topUpSenior (kv : KvBudget) (maxContextLen reserved : ℕ) : List JobSeq → List JobSeq × ℕ
  | [] => ([], reserved)
  | seq :: rest =>
    if seq.finished then
      let (rest, reserved) := topUpSenior kv maxContextLen reserved rest
      (seq :: rest, reserved)
    else
      let worst := addWord seq.tokens.length (seq.maxGen - seq.generated)
      let full := kv.blocksFor (min worst maxContextLen)
      if seq.kvReservation < full then
        let take := min (full - seq.kvReservation) (kv.totalBlocks - reserved)
        ({ seq with kvReservation := seq.kvReservation + take } :: rest, reserved + take)
      else (seq :: rest, reserved)

/-- One pass of the growth loop. -/
def growStep (kv : KvBudget) (maxContextLen : ℕ) (seniorIndex : Option ℕ) (growth : Growth S) :
    Bool × Growth S :=
  match growth.todo with
  | [] => (false, growth)
  | seq :: rest =>
    if seq.finished then (true, { growth with past := growth.past ++ [seq], todo := rest })
    else
      let need := kv.blocksFor (min seq.tokens.length maxContextLen)
      if need ≤ seq.kvReservation then
        (true, { growth with past := growth.past ++ [{ seq with paused := false }], todo := rest })
      else
        let delta := need - seq.kvReservation
        if delta ≤ kv.totalBlocks - growth.reserved then
          (true,
            { growth with
              past := growth.past ++
                [{ seq with kvReservation := seq.kvReservation + delta, paused := false }]
              todo := rest
              reserved := growth.reserved + delta })
        else if some growth.past.length = seniorIndex then
          match popYoungest rest with
          | some (victim, kept) =>
            (true,
              { growth with
                todo := seq :: kept
                reserved := growth.reserved - victim.kvReservation
                server := release growth.server victim.slot
                resume := ⟨victim.tokens, victim.maxGen, victim.generated, victim.extra⟩ ::
                  growth.resume })
          | none =>
            (true,
              { growth with past := growth.past ++ [{ seq with paused := true }], todo := rest })
        else
          (true, { growth with past := growth.past ++ [{ seq with paused := true }], todo := rest })

/-- A growth pass about to start: the senior is topped up, nothing is settled. -/
def growthStart (kv : KvBudget) (maxContextLen : ℕ) (worker : Worker S Task) : Growth S :=
  let (todo, reserved) :=
    topUpSenior kv maxContextLen (reservedBlocks worker.active) worker.active
  ⟨[], todo, worker.resume, worker.server, reserved⟩

/-- One round's growth grants. Every pass shortens what is still to come. -/
def grantKvGrowth (kv : KvBudget) (maxContextLen : ℕ) (worker : Worker S Task) : Worker S Task :=
  if kv.totalBlocks = usizeMax then worker
  else
    let start := growthStart kv maxContextLen worker
    let seniorIndex := start.todo.findIdx? fun seq => !seq.finished
    let growth := loop (growStep kv maxContextLen seniorIndex) start.todo.length start
    { worker with
      active := growth.past ++ growth.todo
      resume := growth.resume
      server := growth.server }

/-! ## The round -/

/-- Mark the sequences whose signal has fired. -/
def cancelSweep (env : TurnEnv Task) (seq : JobSeq) : JobSeq :=
  if !seq.finished && env.cancelledAtSweep seq.extra.cancel then
    { seq with finished := true, extra := { seq.extra with cancelled := true } }
  else seq

def finishReason (seq : JobSeq) : String :=
  if seq.extra.cancelled then "Cancelled"
  else if seq.extra.hitStop then "Stop"
  else if seq.maxGen ≤ seq.generated then "Length"
  else "Stop"

def retireStats (seq : JobSeq) : Stats :=
  ⟨[.named finishReasonStatName (finishReason seq),
    .named queueWaitStatName (renderSeconds seq.extra.queueWait), .tokensCount seq.generated]⟩

/-- Remember that a stop token ended a sequence. -/
def noteOutcome (seq : JobSeq) : StepOutcome → JobSeq
  | .stepped _ true _ => { seq with extra := { seq.extra with hitStop := true } }
  | _ => seq

/-- What one outcome puts into the log while the outcomes are looked at. -/
def outcomeEffects (seq : JobSeq) (outcome : StepOutcome) : List (Effect Task) :=
  match outcome with
  | .failed error =>
    [.advanced seq.extra.id outcome, .sent (.retire seq.extra.id (.error error))]
  | _ => [.advanced seq.extra.id outcome]

/-- What one outcome adds to the round's streamable tokens. -/
def outcomeTokens (server : S) (seq : JobSeq) : StepOutcome → List (ℕ × List UInt8)
  | .stepped token false _ => [(seq.extra.id, detokenizeBytes server [token])]
  | _ => []

/-- Report a round: note the stops, retire the failures, ship the tokens. -/
def report (worker : Worker S Task) (active : List JobSeq) (outcomes : List StepOutcome) :
    Worker S Task :=
  let rounds := active.zip outcomes
  let roundTokens := rounds.flatMap fun (seq, outcome) => outcomeTokens worker.server seq outcome
  let noted : Worker S Task :=
    { worker with active := rounds.map fun (seq, outcome) => noteOutcome seq outcome }
  noted.emit (rounds.flatMap (fun (seq, outcome) => outcomeEffects seq outcome) ++
    if roundTokens = [] then [] else [.sent (.tokens roundTokens)])

/-- Release every slot of a list, in one borrow. -/
def releaseSlots (server : S) (slots : List ℕ) : S :=
  if slots = [] then server
  else
    match decoder server with
    | (.ok (), server) => slots.foldl release server
    | (.error _, server) => server

/-- Retire the finished sequences and free their slots. -/
def retireFinished (worker : Worker S Task) : Worker S Task :=
  let retired := worker.active.filter ActiveSeq.finished
  let kept : Worker S Task :=
    { worker with
      active := worker.active.filter fun seq => !seq.finished
      server := releaseSlots worker.server (retired.map ActiveSeq.slot) }
  kept.emit (retired.map fun seq => Effect.sent (.retire seq.extra.id (.ok (retireStats seq))))

def failActive (worker : Worker S Task) (error : InferenceError) : Worker S Task :=
  let emptied : Worker S Task := { worker with active := [] }
  emptied.emit (worker.active.map fun seq => Effect.sent (.retire seq.extra.id (.error error)))

/-- One round on a borrowed decoder, under the settings `configured` was read
for. -/
def runRound (configured : S) (worker : Worker S Task) : Worker S Task :=
  let budget := PrefillBudget.forRound worker.active (prefillTokenBudget configured)
  let (active, outcomes, server) :=
    stepRound (sampler configured) (stopIds configured) budget (prefillChunkSize configured)
      worker.active worker.server
  ({ worker with server } : Worker S Task).report active outcomes

/-- What precedes a round: sweep for cancellations, then settle who may grow. -/
def prepareRound (env : TurnEnv Task) (worker : Worker S Task) : Worker S Task :=
  let swept := { worker with active := worker.active.map (cancelSweep env) }
  let kv := (batchCapacity worker.server).kv
  match decoder worker.server with
  | (.ok (), server) => grantKvGrowth kv (maxContextLen server) { swept with server }
  | (.error _, server) => { swept with server }

/-- Run one round and deal with its results. The stop ids, the sampler and the
prefill settings are read before anything is borrowed. -/
def step (env : TurnEnv Task) (worker : Worker S Task) : Worker S Task :=
  if worker.active = [] then worker
  else
    let prepared := prepareRound env worker
    match decoder prepared.server with
    | (.error error, server) => failActive { prepared with server } error
    | (.ok (), server) => (runRound worker.server { prepared with server }).retireFinished

/-! ## Turns -/

/-- Whether an idle worker has something it could admit. -/
def canAdmit (worker : Worker S Task) : Bool :=
  (worker.queue ≠ [] ∨ worker.resume ≠ []) ∧
    worker.active.length < (batchCapacity worker.server).maxSlots

/-- One turn. A worker with nothing to do waits for a command, so it takes a
turn without one only when every sender is gone. -/
def turn (env : TurnEnv Task) (worker : Worker S Task) : Flow × Worker S Task :=
  if worker.active = [] ∧ worker.canAdmit = false ∧ env.commands = [] then (.shutdown, worker)
  else
    match worker.handleCommands env.commands with
    | (.shutdown, worker) => (.shutdown, worker)
    | (.continue, worker) => (.continue, step env (admitJobs env worker))

/-- Turns, until one shuts the worker down. -/
def run : List (TurnEnv Task) → Worker S Task → Flow × Worker S Task
  | [], worker => (.continue, worker)
  | env :: envs, worker =>
    match worker.turn env with
    | (.shutdown, worker) => (.shutdown, worker)
    | (.continue, worker) => run envs worker

end Worker

end BurnLm.Inference
