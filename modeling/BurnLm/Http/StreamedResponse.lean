/-
# A streamed response

Many hands write one response. The handler greets, waits for the generation and
says good-bye; while it waits it keeps the connection warm with heartbeats. The
engine emits texts into the job's channel, which never blocks it. The job's
listener takes them out and writes them to the stream, which holds ten events and
blocks whoever finds it full. A blocking task waits for the engine's reply and then
for the listener to have written everything. A watcher waits for the client to go
and then cancels the job. The client reads, and may leave at any moment.

The engine may answer while threads of its own still emit; what they hand over
after that is dropped with the listener. It may also panic, and the blocking task
with it. Then the handler puts its end mark at once, and the listener, which nobody
asked to finish, goes on with what is in the channel until no sender is left.

Nothing orders these parties but their channels. What the client is told is still
one reply, piece by piece and in order, and no party waits for ever.
-/

import BurnLm.Http.Framing
import BurnLm.Inference.Batching
import BurnLm.Math.Channel

namespace BurnLm.Http

open BurnLm.Math BurnLm.Inference
open Relation (ReflTransGen)

universe u

variable {D : Type u}

/-! ## What is said -/

inductive FinishReason
  | stop
  | length
  deriving DecidableEq, Repr

/-- What goes over the stream: a chunk with some content, the chunk with the finish
reason, the end mark, or a comment that keeps the connection warm. -/
inductive StreamEvent
  | data (content : Text)
  | finish (reason : FinishReason)
  | done
  | heartbeat
  deriving DecidableEq

/-- Whether a statistic says that the token cap was hit. -/
def StatEntry.isCapHit : StatEntry D → Bool
  | .named name value => name = "Finish Reason".toList && value = "Length".toList
  | _ => false

def finishReasonFrom (stats : List (StatEntry D)) : FinishReason :=
  if stats.any StatEntry.isCapHit then .length else .stop

/-- What the handler does when the client has gone before it could say something. -/
inductive IfGone
  | panics
  | returns
  | goesOn
  deriving DecidableEq

structure Say where
  event : StreamEvent
  ifGone : IfGone
  deriving DecidableEq

/-- What the handler does before there is a job. -/
inductive Action
  | say (say : Say)
  | load
  deriving DecidableEq

/-- What a response is to begin with, and how long the model takes to load if it has
to be and if that is known. -/
structure Request (D : Type u) where
  oldModelName : Option Text
  modelName : Text
  loading : Option (Option D)

/-- How a generation ended for the handler: the engine answered, or the task that
waited for it panicked. -/
inductive Outcome (D : Type u) : Type u
  | answered (result : InferenceResult (List (StatEntry D)))
  | panicked

section Script

variable (writer : Writer D)

/-- Before the job. -/
def Request.greeting (request : Request D) : List Action :=
  (request.oldModelName.toList.map fun name => .say ⟨.data (unloadedChunk name), .panics⟩) ++
    (match request.loading with
      | none => []
      | some duration => [.say ⟨.data (loadingChunk request.modelName), .panics⟩, .load,
          .say ⟨.data (loadedChunk writer duration), .panics⟩]) ++
    [.say ⟨.data (['\n'] ++ replyMarker ++ ['\n']), .panics⟩]

/-- What a client is told in its stream that could no longer be told up front. -/
def overloadedChunk : Text :=
  ("\n```Burn LM\nerror: The server is overloaded: the job queue is full. Retry later." ++
    "\n```\n").toList

/-- After the job. -/
def closing : Outcome D → List Say
  | .answered (.ok stats) => [⟨.data (['\n', '\n'] ++ displayStats writer stats), .returns⟩,
      ⟨.finish (finishReasonFrom stats), .returns⟩, ⟨.done, .goesOn⟩]
  | .answered (.error .overloaded) => [⟨.data overloadedChunk, .goesOn⟩, ⟨.done, .goesOn⟩]
  | .answered (.error _) => [⟨.done, .goesOn⟩]
  | .panicked => [⟨.done, .goesOn⟩]

end Script

/-! ## The parties -/

/-- A message to the listener. -/
inductive Msg
  | text (text : Text)
  | finished
  deriving DecidableEq

/-- The listener's thread: between messages, held up in a write, or through. -/
inductive Listener
  | listening
  | writing (text : Text)
  | gone
  deriving DecidableEq

/-- The blocking task: in `run_job`, in `join`, through, or unwound. -/
inductive Task
  | running
  | joining
  | returned
  | panicked
  deriving DecidableEq

/-- The handler can have the task's result. -/
def Task.IsOver : Task → Prop
  | returned => True
  | panicked => True
  | _ => False

/-- A job and its listener. -/
structure Job where
  queue : List Msg
  listener : Listener
  /-- The emitter has given up. -/
  done : Bool
  /-- The engine still has the emitter. -/
  held : Bool
  task : Task
  deriving DecidableEq

namespace Job

/-- A job just created. -/
def create : Job := ⟨[], .listening, false, true, .running⟩

/-- The engine hands a text over. It never waits. -/
def completed (job : Job) (text : Text) : Job :=
  if job.done then job
  else
    match job.listener with
    | .gone => { job with done := true }
    | _ => { job with queue := job.queue ++ [.text text] }

/-- The engine has replied: ask the listener to finish. -/
def join (job : Job) : Job := { job with queue := job.queue ++ [.finished], task := .joining }

/-- The task unwinds, and its handle with it. -/
def unwind (job : Job) : Job := { job with task := .panicked }

/-- The engine lets go of the emitter. -/
def drop (job : Job) : Job := { job with held := false }

/-- The listener takes a text. Writing nothing is no write. -/
def onText (job : Job) (text : Text) (queue : List Msg) : Job :=
  { job with queue, listener := if text = [] then .listening else .writing text }

/-- The listener has written its text, or failed to. -/
def onWritten (job : Job) : Job := { job with listener := .listening }

/-- The listener has heard that the job is finished. What came in behind that is
dropped. -/
def onFinished (job : Job) : Job :=
  { job with queue := [], listener := .gone, done := true, task := .returned }

/-- The listener has run out of senders. -/
def onDeserted (job : Job) : Job := { job with listener := .gone }

end Job

/-- Where the handler is. -/
inductive Phase
  | greeting (todo : List Action)
  | generating
  | closing (todo : List Say)
  | returned

namespace Phase

/-- What it is to say next, and where it is then. -/
def nextSay : Phase → Option (Say × Phase)
  | greeting (.say say :: rest) => some (say, greeting rest)
  | closing (say :: rest) => some (say, closing rest)
  | _ => none

/-- It waits for a task, with a heartbeat from time to time. -/
def Awaits : Phase → Prop
  | greeting (.load :: _) => True
  | generating => True
  | _ => False

end Phase

/-- Between heartbeats, sending one, or without a client to send one to. -/
inductive Beat
  | quiet
  | sending
  | deaf
  deriving DecidableEq

/-- Who waits for the client to go. -/
inductive Watcher
  | idle
  | watching
  | fired
  | aborted
  deriving DecidableEq

/-- Stop watching. -/
def Watcher.abort : Watcher → Watcher
  | fired => fired
  | _ => aborted

/-- The whole of a response. The texts a listener was to write, and how the
generation ended, are on record. -/
structure Response (D : Type u) where
  channel : Channel StreamEvent
  phase : Phase
  job : Option Job
  beat : Beat
  watcher : Watcher
  cancelled : Bool
  emitted : List Text
  outcome : Option (Outcome D)

namespace Response

/-- The stream's places. -/
def streamCapacity : ℕ := 10

section Steps

variable (writer : Writer D)

/-- A response about to begin. -/
def start (request : Request D) : Response D :=
  { channel := .new streamCapacity
    phase := .greeting (request.greeting writer)
    job := none
    beat := .quiet
    watcher := .idle
    cancelled := false
    emitted := []
    outcome := none }

/-- What the parties do by themselves, as long as the client reads. -/
inductive Proceeds (response : Response D) : Response D → Prop
  | say (say : Say) (next : Phase) (hsay : response.phase.nextSay = some (say, next))
      (hroom : response.channel.HasRoom) :
      Proceeds response { response with channel := response.channel.send say.event, phase := next }
  | unheard (say : Say) (next : Phase) (hsay : response.phase.nextSay = some (say, next))
      (hgone : response.channel.isOpen = false) :
      Proceeds response
        { response with phase := if say.ifGone = .goesOn then next else .returned }
  | launch (hphase : response.phase = .greeting []) :
      Proceeds response
        { response with phase := .generating, job := some .create, watcher := .watching }
  | take (job : Job) (text : Text) (queue : List Msg) (hjob : response.job = some job)
      (hlistener : job.listener = .listening) (hqueue : job.queue = .text text :: queue) :
      Proceeds response { response with job := some (job.onText text queue) }
  | write (job : Job) (text : Text) (hjob : response.job = some job)
      (hlistener : job.listener = .writing text) (hroom : response.channel.HasRoom) :
      Proceeds response
        { response with
          channel := response.channel.send (.data text)
          job := some job.onWritten }
  -- a write that fails is swallowed
  | writeUnheard (job : Job) (text : Text) (hjob : response.job = some job)
      (hlistener : job.listener = .writing text) (hgone : response.channel.isOpen = false) :
      Proceeds response { response with job := some job.onWritten }
  | finish (job : Job) (queue : List Msg) (hjob : response.job = some job)
      (hlistener : job.listener = .listening) (hqueue : job.queue = .finished :: queue) :
      Proceeds response { response with job := some job.onFinished }
  | hangUp (job : Job) (hjob : response.job = some job) (hlistener : job.listener = .listening)
      (hqueue : job.queue = []) (htask : job.task = .panicked) (hheld : job.held = false) :
      Proceeds response { response with job := some job.onDeserted }
  | beat (hbeat : response.beat = .sending) (hroom : response.channel.HasRoom) :
      Proceeds response
        { response with channel := response.channel.send .heartbeat, beat := .quiet }
  | beatUnheard (hbeat : response.beat = .sending) (hgone : response.channel.isOpen = false) :
      Proceeds response { response with beat := .deaf }
  | collect (job : Job) (outcome : Outcome D) (hphase : response.phase = .generating)
      (hjob : response.job = some job) (htask : job.task.IsOver)
      (houtcome : response.outcome = some outcome)
      (hbeat : response.beat ≠ .sending) :
      Proceeds response
        { response with
          phase := .closing (closing writer outcome)
          beat := .quiet
          watcher := response.watcher.abort }
  | close (hphase : response.phase = .closing []) :
      Proceeds response { response with phase := .returned }
  | fire (hwatcher : response.watcher = .watching) (hgone : response.channel.isOpen = false) :
      Proceeds response { response with watcher := .fired, cancelled := true }
  | read (hopen : response.channel.isOpen = true) (hqueue : response.channel.queue ≠ []) :
      Proceeds response { response with channel := response.channel.receive }

/-- What happens to them: the model's loading ends, time passes, the engine works,
answers or panics, the client leaves. -/
inductive Befalls (response : Response D) : Response D → Prop
  | loaded (rest : List Action) (hphase : response.phase = .greeting (.load :: rest))
      (hbeat : response.beat ≠ .sending) :
      Befalls response { response with phase := .greeting rest, beat := .quiet }
  -- a load that fails takes the handler with it
  | loadFailed (rest : List Action) (hphase : response.phase = .greeting (.load :: rest))
      (hbeat : response.beat ≠ .sending) :
      Befalls response { response with phase := .returned, beat := .quiet }
  | elapse (hawaits : response.phase.Awaits) (hbeat : response.beat = .quiet) :
      Befalls response { response with beat := .sending }
  | emit (job : Job) (text : Text) (hjob : response.job = some job) (hheld : job.held = true)
      (htask : job.task = .running ∨ job.task = .panicked) :
      Befalls response
        { response with
          job := some (job.completed text)
          emitted := response.emitted ++ [text] }
  -- behind the message to finish a text reaches nobody
  | emitLate (job : Job) (text : Text) (hjob : response.job = some job) (hheld : job.held = true)
      (htask : job.task = .joining ∨ job.task = .returned) :
      Befalls response { response with job := some (job.completed text) }
  | drop (job : Job) (hjob : response.job = some job) (hheld : job.held = true) :
      Befalls response { response with job := some job.drop }
  | reply (job : Job) (result : InferenceResult (List (StatEntry D)))
      (hjob : response.job = some job) (htask : job.task = .running) :
      Befalls response
        { response with job := some job.join, outcome := some (.answered result) }
  | panic (job : Job) (hjob : response.job = some job) (htask : job.task = .running) :
      Befalls response { response with job := some job.unwind, outcome := some .panicked }
  | leave (hopen : response.channel.isOpen = true) :
      Befalls response { response with channel := response.channel.close }

/-- One step of anybody. -/
def Step (response next : Response D) : Prop :=
  response.Proceeds writer next ∨ response.Befalls next

/-- A state some order of steps leads to. -/
def Reachable (request : Request D) (response : Response D) : Prop :=
  ReflTransGen (Step writer) (start writer request) response

end Steps

end Response

end BurnLm.Http
