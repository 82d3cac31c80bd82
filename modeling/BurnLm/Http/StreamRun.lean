/-
# What a client is told

However the parties of a response interleave, the events on its stream are, apart
from heartbeats, the greeting, the texts the engine emitted and the good-bye, in
that order. A client that leaves has got a beginning of that; a client that stays
gets all of it. Only after a panic may the end mark, which is then the whole of the
good-bye, stand before the last texts.

What is still on its way is read off the places it may be in: the handler's list,
the listener's hands, the job's channel. One equation says that what the stream has
taken in and what is on its way make up the whole, and every step keeps it. After a
panic it is an equation between what there is but end marks, which are counted.
-/

import BurnLm.Http.StreamedResponse

namespace BurnLm.Http

open BurnLm.Math BurnLm.Inference
open Relation (ReflTransGen)

universe u

variable {D : Type u}

/-! ## What is on its way -/

/-- All but heartbeats. -/
def spoken (events : List StreamEvent) : List StreamEvent := events.filter (· ≠ .heartbeat)

/-- All but end marks. -/
def unmarked (events : List StreamEvent) : List StreamEvent := events.filter (· ≠ .done)

/-- What comes in order: after a panic the end mark may come too early. -/
def ordered (outcome : Option (Outcome D)) (events : List StreamEvent) : List StreamEvent :=
  match outcome with
  | some .panicked => unmarked (spoken events)
  | _ => spoken events

/-- The events of some texts; writing nothing is none. -/
def textEvents (texts : List Text) : List StreamEvent := (texts.filter (· ≠ [])).map .data

def Action.events : Action → List StreamEvent
  | say said => [said.event]
  | load => []

def Msg.events : Msg → List StreamEvent
  | text written => textEvents [written]
  | finished => []

def Listener.events : Listener → List StreamEvent
  | writing text => [.data text]
  | _ => []

/-- What a job's listener has yet to write: nothing behind the message to finish. -/
def Job.pending (job : Job) : List StreamEvent :=
  job.listener.events ++ (job.queue.takeWhile (· ≠ .finished)).flatMap Msg.events

/-- The same, where there may be no job. -/
def unwritten : Option Job → List StreamEvent
  | some job => job.pending
  | none => []

section Events

variable (writer : Writer D)

/-- What the handler says once it knows how the generation ended. -/
def closingEvents : Option (Outcome D) → List StreamEvent
  | some outcome => (closing writer outcome).map Say.event
  | none => []

/-- What the handler has yet to say. -/
def Phase.pending (outcome : Option (Outcome D)) : Phase → List StreamEvent
  | greeting todo => todo.flatMap Action.events
  | generating => closingEvents writer outcome
  | closing todo => todo.map Say.event
  | returned => []

/-- What is on its way, in order. -/
def onItsWay (outcome : Option (Outcome D)) (phase : Phase) (job : Option Job) : List StreamEvent :=
  unwritten job ++ ordered outcome (phase.pending writer outcome)

/-- All there is to tell, as far as it is known. -/
def script (request : Request D) (emitted : List Text) (outcome : Option (Outcome D)) :
    List StreamEvent :=
  (request.greeting writer).flatMap Action.events ++ textEvents emitted ++
    closingEvents writer outcome

end Events

@[simp]
theorem spoken_append (first second : List StreamEvent) :
    spoken (first ++ second) = spoken first ++ spoken second := List.filter_append ..

@[simp]
theorem ordered_append (outcome : Option (Outcome D)) (first second : List StreamEvent) :
    ordered outcome (first ++ second) = ordered outcome first ++ ordered outcome second := by
  unfold ordered
  split <;> simp [unmarked]

@[simp]
theorem ordered_nil (outcome : Option (Outcome D)) : ordered outcome [] = [] := by
  unfold ordered
  split <;> rfl

/-- What comes in order is part of what was said. -/
theorem ordered_mono {first second : List StreamEvent} (outcome : Option (Outcome D))
    (hbeginning : first <+: second) : ordered outcome first <+: ordered outcome second := by
  obtain ⟨rest, rfl⟩ := hbeginning
  exact ⟨ordered outcome rest, (ordered_append outcome first rest).symm⟩

theorem ordered_data (outcome : Option (Outcome D)) (text : Text) :
    ordered outcome [.data text] = [.data text] := by
  unfold ordered
  split <;> simp [spoken, unmarked]

theorem textEvents_append (first second : List Text) :
    textEvents (first ++ second) = textEvents first ++ textEvents second := by
  simp [textEvents]

theorem ordered_textEvents (outcome : Option (Outcome D)) (texts : List Text) :
    ordered outcome (textEvents texts) = textEvents texts := by
  induction texts with
  | nil => exact ordered_nil outcome
  | cons text texts ih =>
      have hcons : textEvents (text :: texts) = textEvents [text] ++ textEvents texts :=
        textEvents_append [text] texts
      rw [hcons, ordered_append, ih]
      by_cases hempty : text = []
      · simp [hempty, textEvents]
      · simp [hempty, textEvents, ordered_data]

/-- The texts in front of the message to finish. -/
theorem takeWhile_texts (texts : List Text) (rest : List Msg) :
    (texts.map Msg.text ++ rest).takeWhile (· ≠ .finished) =
      texts.map .text ++ rest.takeWhile (· ≠ .finished) :=
  List.takeWhile_append_of_pos (by simp)

theorem flatMap_events_text (texts : List Text) :
    (texts.map Msg.text).flatMap Msg.events = textEvents texts := by
  induction texts with
  | nil => rfl
  | cons text texts ih =>
      rw [List.map_cons, List.flatMap_cons, ih]
      exact (textEvents_append [text] texts).symm

/-- The listener's share of a text. -/
theorem events_onText (text : Text) :
    (if text = [] then Listener.listening else .writing text).events = textEvents [text] := by
  split
  · next hempty => simp [hempty, textEvents, Listener.events]
  · next hsome => simp [hsome, textEvents, Listener.events]

/-- The listener writes no end mark. -/
theorem unmarked_unwritten (job : Option Job) : unmarked (unwritten job) = unwritten job := by
  have hmsg (msg : Msg) : .done ∉ msg.events := by cases msg <;> simp [Msg.events, textEvents]
  have hlistener (listener : Listener) : .done ∉ listener.events := by
    cases listener <;> simp [Listener.events]
  refine List.filter_eq_self.mpr fun event hevent => ?_
  cases job with
  | none => simp [unwritten] at hevent
  | some job =>
      simp only [decide_eq_true_eq]
      rintro rfl
      rcases List.mem_append.mp hevent with hmem | hmem
      · exact hlistener _ hmem
      · obtain ⟨msg, _, hmsgs⟩ := List.mem_flatMap.mp hmem
        exact hmsg msg hmsgs

/-- No heartbeat is planned. -/
theorem spoken_closing (writer : Writer D) (outcome : Outcome D) :
    ∀ say ∈ closing writer outcome, say.event ≠ .heartbeat := by
  unfold closing
  split <;> simp

/-- The greeting plans neither a heartbeat nor an end mark. -/
theorem event_greeting (writer : Writer D) (request : Request D) :
    ∀ event ∈ (request.greeting writer).flatMap Action.events,
      ∃ content, event = .data content := by
  unfold Request.greeting
  split <;> simp +contextual [or_imp, Action.events]

/-- After a panic the handler says nothing in order. -/
theorem ordered_closing_panicked {writer : Writer D} {said todo : List Say}
    (hclosing : closing writer .panicked = said ++ todo) :
    ordered (some (.panicked : Outcome D)) (todo.map Say.event) = [] := by
  have hdone : ∀ say ∈ todo, say.event = .done := fun say hsay => by
    have hmem : say ∈ closing writer .panicked := hclosing ▸ List.mem_append_right _ hsay
    simp only [closing, List.mem_singleton] at hmem
    rw [hmem]
  refine List.filter_eq_nil_iff.mpr fun event hevent => ?_
  obtain ⟨say, hsay, rfl⟩ := List.mem_map.mp (List.mem_of_mem_filter hevent)
  simp [hdone say hsay]

/-- The reply that is streamed. -/
def Request.reply (request : Request D) (texts : List Text) (stats : List (StatEntry D)) :
    Reply D :=
  ⟨request.oldModelName, request.modelName, request.loading, texts, stats⟩

/-! ## Where everybody is -/

/-- A listener that is still there. -/
def Listener.IsAlive (listener : Listener) : Prop := listener ≠ .gone

/-- Where the engine, the listener and the blocking task are, taken together. -/
inductive Job.Sound : Job → Option (Outcome D) → Prop
  | running (texts : List Text) {listener : Listener} {held : Bool} (hlistener : listener.IsAlive) :
      Sound ⟨texts.map .text, listener, false, held, .running⟩ none
  | joining (texts late : List Text) {listener : Listener} {held : Bool}
      (hlistener : listener.IsAlive) (result : InferenceResult (List (StatEntry D))) :
      Sound ⟨texts.map .text ++ .finished :: late.map .text, listener, false, held, .joining⟩
        (some (.answered result))
  | returned {held : Bool} (result : InferenceResult (List (StatEntry D))) :
      Sound ⟨[], .gone, true, held, .returned⟩ (some (.answered result))
  | panicked (texts : List Text) {listener : Listener} {held : Bool}
      (hlistener : listener.IsAlive) :
      Sound ⟨texts.map .text, listener, false, held, .panicked⟩ (some .panicked)
  | deserted : Sound ⟨[], .gone, false, false, .panicked⟩ (some .panicked)

/-- Handing a text over moves no task. -/
theorem Job.task_completed (job : Job) (text : Text) : (job.completed text).task = job.task := by
  unfold Job.completed
  split
  · rfl
  · split <;> rfl

namespace Job.Sound

variable {job : Job} {outcome : Option (Outcome D)}

/-- A listener that is there takes what it is handed. -/
theorem completed_of_isAlive {queue : List Msg} {listener : Listener} {held : Bool} {task : Task}
    (hlistener : listener.IsAlive) (text : Text) :
    Job.completed ⟨queue, listener, false, held, task⟩ text =
      ⟨queue ++ [.text text], listener, false, held, task⟩ := by
  cases listener with
  | gone => exact absurd rfl hlistener
  | _ => simp [Job.completed]

/-- The engine hands a text over. -/
theorem completed (hjob : job.Sound outcome) (hheld : job.held = true)
    (htask : job.task = .running ∨ job.task = .panicked) (text : Text) :
    (job.completed text).Sound outcome ∧
      (job.completed text).pending = job.pending ++ textEvents [text] := by
  have hpending {texts : List Text} {listener : Listener} {held : Bool} {task : Task} :
      Job.pending ⟨(texts ++ [text]).map .text, listener, false, held, task⟩ =
        Job.pending ⟨texts.map .text, listener, false, held, task⟩ ++ textEvents [text] := by
    have hall (texts : List Text) : (texts.map Msg.text).takeWhile (· ≠ .finished) =
        texts.map .text := by
      have hnone := takeWhile_texts texts []
      rwa [List.append_nil, List.takeWhile_nil, List.append_nil] at hnone
    simp only [pending, hall, flatMap_events_text, textEvents_append, List.append_assoc]
  cases hjob with
  | running texts hlistener =>
      rw [completed_of_isAlive hlistener, ← List.map_singleton, ← List.map_append]
      exact ⟨.running _ hlistener, hpending⟩
  | panicked texts hlistener =>
      rw [completed_of_isAlive hlistener, ← List.map_singleton, ← List.map_append]
      exact ⟨.panicked _ hlistener, hpending⟩
  | joining => simp at htask
  | returned => simp at htask
  | deserted => simp at hheld

/-- What it hands over late changes nothing. -/
theorem completed_late (hjob : job.Sound outcome)
    (htask : job.task = .joining ∨ job.task = .returned) (text : Text) :
    (job.completed text).Sound outcome ∧ (job.completed text).pending = job.pending := by
  cases hjob with
  | joining texts late hlistener result =>
      rw [completed_of_isAlive hlistener, List.append_assoc, List.cons_append,
        ← List.map_singleton, ← List.map_append]
      refine ⟨.joining texts (late ++ [text]) hlistener result, ?_⟩
      simp only [pending, takeWhile_texts]
      simp
  | returned result => exact ⟨.returned result, rfl⟩
  | running => simp at htask
  | panicked => simp at htask
  | deserted => simp at htask

/-- The engine replies. -/
theorem join (hjob : job.Sound outcome) (htask : job.task = .running)
    (result : InferenceResult (List (StatEntry D))) :
    outcome = none ∧ job.join.Sound (some (.answered result)) ∧ job.join.pending = job.pending := by
  cases hjob with
  | running texts hlistener =>
      refine ⟨rfl, .joining texts [] hlistener result, ?_⟩
      have hnone := takeWhile_texts texts []
      have hlast := takeWhile_texts texts [.finished]
      simp only [List.append_nil, ne_eq, not_true_eq_false, decide_false, Bool.false_eq_true,
        not_false_eq_true, List.takeWhile_cons_of_neg] at hnone hlast
      simp only [pending, Job.join, ne_eq, hlast, hnone]
      simp
  | _ => simp at htask

/-- The task unwinds. -/
theorem unwind (hjob : job.Sound outcome) (htask : job.task = .running) :
    outcome = none ∧ job.unwind.Sound (some (.panicked : Outcome D)) := by
  cases hjob with
  | running texts hlistener => exact ⟨rfl, .panicked texts hlistener⟩
  | _ => simp at htask

/-- The engine lets go of the emitter. -/
theorem drop (hjob : job.Sound outcome) : job.drop.Sound outcome := by
  cases hjob with
  | running texts hlistener => exact .running texts hlistener
  | joining texts late hlistener result => exact .joining texts late hlistener result
  | returned result => exact .returned result
  | panicked texts hlistener => exact .panicked texts hlistener
  | deserted => exact .deserted

/-- The listener takes a text. -/
theorem onText (hjob : job.Sound outcome) {text : Text} {queue : List Msg}
    (hlistener : job.listener = .listening) (hqueue : job.queue = .text text :: queue) :
    (job.onText text queue).Sound outcome ∧ (job.onText text queue).pending = job.pending := by
  have hpending : (job.onText text queue).pending = job.pending := by
    simp only [pending, Job.onText, hlistener, hqueue, events_onText]
    simp [Listener.events, Msg.events]
  have halive : (if text = [] then Listener.listening else .writing text).IsAlive := by
    split <;> simp [Listener.IsAlive]
  refine ⟨?_, hpending⟩
  cases hjob with
  | running texts =>
      match texts, hqueue with
      | first :: rest, hqueue =>
          obtain ⟨hfirst, rfl⟩ := List.cons.inj hqueue
          exact .running rest halive
  | joining texts late _ result =>
      match texts, hqueue with
      | first :: rest, hqueue =>
          obtain ⟨hfirst, rfl⟩ := List.cons.inj hqueue
          exact .joining rest late halive result
  | panicked texts =>
      match texts, hqueue with
      | first :: rest, hqueue =>
          obtain ⟨hfirst, rfl⟩ := List.cons.inj hqueue
          exact .panicked rest halive
  | returned => simp at hlistener
  | deserted => simp at hlistener

/-- The listener has written a text. -/
theorem onWritten (hjob : job.Sound outcome) {text : Text}
    (hlistener : job.listener = .writing text) :
    job.onWritten.Sound outcome ∧ job.pending = [.data text] ++ job.onWritten.pending := by
  refine ⟨?_, by simp [pending, Job.onWritten, hlistener, Listener.events]⟩
  have halive : Listener.listening.IsAlive := by simp [Listener.IsAlive]
  cases hjob with
  | running texts => exact .running texts halive
  | joining texts late _ result => exact .joining texts late halive result
  | panicked texts => exact .panicked texts halive
  | returned => simp at hlistener
  | deserted => simp at hlistener

/-- The listener finishes, with nothing left to write. -/
theorem onFinished (hjob : job.Sound outcome) {queue : List Msg}
    (hlistener : job.listener = .listening) (hqueue : job.queue = .finished :: queue) :
    job.onFinished.Sound outcome ∧ job.onFinished.pending = job.pending := by
  have hpending : job.onFinished.pending = job.pending := by
    simp [pending, Job.onFinished, hlistener, hqueue, Listener.events]
  refine ⟨?_, hpending⟩
  cases hjob with
  | joining texts late _ result => exact .returned result
  | running texts => cases texts <;> simp at hqueue
  | panicked texts => cases texts <;> simp at hqueue
  | returned => simp at hlistener
  | deserted => simp at hlistener

/-- The listener runs out of senders, with nothing left to write. -/
theorem onDeserted (hjob : job.Sound outcome) (hlistener : job.listener = .listening)
    (hqueue : job.queue = []) (htask : job.task = .panicked) (hheld : job.held = false) :
    job.onDeserted.Sound outcome ∧ job.onDeserted.pending = job.pending := by
  refine ⟨?_, by simp [pending, Job.onDeserted, hlistener, hqueue, Listener.events]⟩
  cases hjob with
  | panicked texts =>
      obtain rfl : _ = false := hheld
      obtain rfl : texts = [] := by simpa using hqueue
      exact .deserted
  | deserted => simp at hlistener
  | _ => simp at htask

/-- A task that neither joined nor returned has no answer. -/
theorem unanswered (hjob : job.Sound outcome) (htask : job.task = .running ∨ job.task = .panicked) :
    outcome = none ∨ outcome = some .panicked := by
  cases hjob with
  | running => exact Or.inl rfl
  | panicked => exact Or.inr rfl
  | deserted => exact Or.inr rfl
  | joining => simp at htask
  | returned => simp at htask

/-- A task that is over has left nothing to write, unless it panicked. -/
theorem pending_of_isOver {ending : Outcome D} (hjob : job.Sound (some ending))
    (hover : job.task.IsOver) : ending = .panicked ∨ job.pending = [] := by
  generalize houtcome : some ending = outcome at hjob
  cases hjob with
  | returned => exact Or.inr rfl
  | panicked => exact Or.inl (Option.some.inj houtcome)
  | deserted => exact Or.inr rfl
  | running => exact absurd hover id
  | joining => exact absurd hover id

end Job.Sound

/-- Where the handler, the watcher and the job are. -/
inductive Placed (writer : Writer D) (request : Request D) :
    Phase → Option Job → Watcher → List Text → Option (Outcome D) → Prop
  | greeting (said todo : List Action) (hgreeting : request.greeting writer = said ++ todo) :
      Placed writer request (.greeting todo) none .idle [] none
  | generating {job : Job} {watcher : Watcher} {emitted : List Text} {outcome : Option (Outcome D)}
      (hjob : job.Sound outcome) (hwatcher : watcher = .watching ∨ watcher = .fired) :
      Placed writer request .generating (some job) watcher emitted outcome
  | closing (said todo : List Say) {job : Job} {watcher : Watcher} {emitted : List Text}
      {outcome : Outcome D} (hjob : job.Sound (some outcome)) (hover : job.task.IsOver)
      (hclosing : Http.closing writer outcome = said ++ todo) (hwatcher : watcher ≠ .watching) :
      Placed writer request (.closing todo) (some job) watcher emitted (some outcome)
  | returned {job : Job} {watcher : Watcher} {emitted : List Text} {outcome : Outcome D}
      (hjob : job.Sound (some outcome)) (hover : job.task.IsOver) (hwatcher : watcher ≠ .watching) :
      Placed writer request .returned (some job) watcher emitted (some outcome)
  -- the greeting was not to be finished
  | broken {watcher : Watcher} (hwatcher : watcher ≠ .watching) :
      Placed writer request .returned none watcher [] none

namespace Placed

variable {writer : Writer D} {request : Request D} {phase : Phase} {job next : Job}
  {watcher : Watcher} {emitted : List Text} {outcome : Option (Outcome D)}

theorem job_sound (hplaced : Placed writer request phase (some job) watcher emitted outcome) :
    job.Sound outcome := by
  cases hplaced with
  | generating hjob => exact hjob
  | closing _ _ hjob => exact hjob
  | returned hjob => exact hjob

/-- The job goes on where the handler stands. -/
theorem step (hplaced : Placed writer request phase (some job) watcher emitted outcome)
    (hnext : next.Sound outcome) (hover : job.task.IsOver → next.task.IsOver)
    (more : List Text) : Placed writer request phase (some next) watcher more outcome := by
  cases hplaced with
  | generating _ hwatcher => exact .generating hnext hwatcher
  | closing said todo _ hdone hclosing hwatcher =>
      exact .closing said todo hnext (hover hdone) hclosing hwatcher
  | returned _ hdone hwatcher => exact .returned hnext (hover hdone) hwatcher

/-- As long as the task runs the handler waits for it. -/
theorem generating_of_running (htask : job.task = .running)
    (hplaced : Placed writer request phase (some job) watcher emitted outcome) :
    phase = .generating ∧ (watcher = .watching ∨ watcher = .fired) := by
  cases hplaced with
  | generating _ hwatcher => exact ⟨rfl, hwatcher⟩
  | closing _ _ _ hover => simp [htask, Task.IsOver] at hover
  | returned _ hover => simp [htask, Task.IsOver] at hover

/-- A handler that has a job returns only when it knows how that ended. -/
theorem outcome_ne (hplaced : Placed writer request phase (some job) watcher emitted outcome) :
    phase = .returned → outcome ≠ none := by
  rintro rfl
  cases hplaced with
  | returned => simp

/-- Without an answer all that is left to say in order is the listener's. -/
theorem unanswered (hplaced : Placed writer request phase (some job) watcher emitted outcome)
    (htask : job.task = .running ∨ job.task = .panicked) :
    ordered outcome (closingEvents writer outcome) = [] ∧
      ordered outcome (phase.pending writer outcome) = [] := by
  rcases hplaced.job_sound.unanswered htask with rfl | rfl
  · cases hplaced with
    | generating => exact ⟨rfl, rfl⟩
  · have hclosing : ordered (some (.panicked : Outcome D))
        (closingEvents writer (some (.panicked : Outcome D))) = [] :=
      ordered_closing_panicked (List.nil_append _).symm
    refine ⟨hclosing, ?_⟩
    cases hplaced with
    | generating => exact hclosing
    | closing said todo _ _ hsaid => exact ordered_closing_panicked hsaid
    | returned => exact ordered_nil _

/-- The watcher may stop at any time. -/
theorem fire {job : Option Job}
    (hplaced : Placed writer request phase job .watching emitted outcome) :
    Placed writer request phase job .fired emitted outcome := by
  cases hplaced with
  | generating hjob _ => exact .generating hjob (Or.inr rfl)
  | closing _ _ _ _ _ hwatcher => exact absurd rfl hwatcher
  | returned _ _ hwatcher => exact absurd rfl hwatcher
  | broken hwatcher => exact absurd rfl hwatcher

end Placed

/-! ## The account of a response -/

/-- What the stream took in is, in order, a beginning of all there is to tell, and if
the client is there the rest is on its way. A generation that panicked has one end
mark. -/
structure Accounts (writer : Writer D) (request : Request D) (channel : Channel StreamEvent)
    (phase : Phase) (job : Option Job) (emitted : List Text) (outcome : Option (Outcome D)) :
    Prop where
  told : ordered outcome channel.accepted <+:
    ordered outcome (script writer request emitted outcome)
  whole : channel.isOpen = true → (phase = .returned → outcome ≠ none) →
    ordered outcome channel.accepted ++ onItsWay writer outcome phase job =
      ordered outcome (script writer request emitted outcome)
  marks : outcome = some .panicked → channel.accepted.count .done ≤ 1 ∧
    (channel.isOpen = true →
      channel.accepted.count .done + (phase.pending writer outcome).count .done = 1)

namespace Accounts

variable {writer : Writer D} {request : Request D} {channel : Channel StreamEvent}
  {phase next : Phase} {job after : Option Job} {emitted : List Text}
  {outcome : Option (Outcome D)}

/-- One event is taken in off what was on its way. -/
theorem send (haccounts : Accounts writer request channel phase job emitted outcome)
    (hroom : channel.HasRoom) (hphase : phase ≠ .returned ∨ outcome ≠ none) {event : StreamEvent}
    (hmoved : onItsWay writer outcome phase job =
      ordered outcome [event] ++ onItsWay writer outcome next after)
    (hmarks : (phase.pending writer outcome).count .done =
      [event].count .done + (next.pending writer outcome).count .done) :
    Accounts writer request (channel.send event) next after emitted outcome := by
  have hwhole : ordered outcome (channel.send event).accepted ++
      onItsWay writer outcome next after =
        ordered outcome (script writer request emitted outcome) := by
    rw [← haccounts.whole hroom.1 fun hover => hphase.resolve_left fun hne => hne hover, hmoved,
      ← List.append_assoc]
    exact congrArg (· ++ _) (ordered_append outcome _ _)
  refine ⟨⟨_, hwhole⟩, fun _ _ => hwhole, fun hpanicked => ?_⟩
  have hone := (haccounts.marks hpanicked).2 hroom.1
  simp only [Channel.send, List.count_append]
  omega

/-- What is on its way may change hands, as long as the client is there. -/
theorem move (haccounts : Accounts writer request channel phase job emitted outcome)
    (hmoved : channel.isOpen = true → (next = .returned → outcome ≠ none) →
      (phase = .returned → outcome ≠ none) ∧
        onItsWay writer outcome next after = onItsWay writer outcome phase job)
    (hmarks : channel.isOpen = true →
      (next.pending writer outcome).count .done = (phase.pending writer outcome).count .done) :
    Accounts writer request channel next after emitted outcome where
  told := haccounts.told
  whole hopen hover := by
    obtain ⟨hphase, hpending⟩ := hmoved hopen hover
    rw [hpending]
    exact haccounts.whole hopen hphase
  marks hpanicked := by
    obtain ⟨hmost, hone⟩ := haccounts.marks hpanicked
    refine ⟨hmost, fun hopen => ?_⟩
    rw [hmarks hopen]
    exact hone hopen

/-- The listener's share may change hands. -/
theorem hand {mine : Job} {other : Job}
    (haccounts : Accounts writer request channel phase (some mine) emitted outcome)
    (hpending : other.pending = mine.pending) :
    Accounts writer request channel phase (some other) emitted outcome :=
  haccounts.move (fun _ hover => ⟨hover, by simp only [onItsWay, unwritten, hpending]⟩)
    fun _ => rfl

/-- Reading changes nothing. -/
theorem receive (haccounts : Accounts writer request channel phase job emitted outcome) :
    Accounts writer request channel.receive phase job emitted outcome :=
  ⟨haccounts.told, haccounts.whole, haccounts.marks⟩

/-- Once the client has left, only what was told counts. -/
theorem close (haccounts : Accounts writer request channel phase job emitted outcome) :
    Accounts writer request channel.close phase job emitted outcome where
  told := haccounts.told
  whole hopen := by simp [Channel.close] at hopen
  marks hpanicked := ⟨(haccounts.marks hpanicked).1, fun hopen => by simp [Channel.close] at hopen⟩

/-- One more text to tell, at the end of what the listener has to write. -/
theorem emit (haccounts : Accounts writer request channel phase job emitted outcome)
    (hphase : phase = .returned → outcome ≠ none)
    (hlast : ordered outcome (closingEvents writer outcome) = [] ∧
      ordered outcome (phase.pending writer outcome) = []) {text : Text}
    (hpending : unwritten after = unwritten job ++ textEvents [text]) :
    Accounts writer request channel phase after (emitted ++ [text]) outcome := by
  have hscript : ordered outcome (script writer request (emitted ++ [text]) outcome) =
      ordered outcome (script writer request emitted outcome) ++ textEvents [text] := by
    simp only [script, ordered_append, ordered_textEvents, hlast.1, textEvents_append,
      List.append_nil, List.append_assoc]
  refine ⟨hscript ▸ haccounts.told.trans (List.prefix_append _ _), fun hopen _ => ?_,
    haccounts.marks⟩
  rw [hscript, ← haccounts.whole hopen hphase, onItsWay, onItsWay, hpending, hlast.2]
  simp only [List.append_nil, List.append_assoc]

/-- The engine answers: what the handler says to that comes last. -/
theorem answer (haccounts : Accounts writer request channel .generating job emitted none)
    (result : InferenceResult (List (StatEntry D))) (hpending : unwritten after = unwritten job) :
    Accounts writer request channel .generating after emitted (some (.answered result)) := by
  have hscript : script writer request emitted (some (.answered result)) =
      script writer request emitted none ++ closingEvents writer (some (.answered result)) := by
    simp only [script, closingEvents, List.append_nil]
  have htold := haccounts.told
  have hwhole := fun hopen => haccounts.whole hopen (by simp)
  simp only [ordered, onItsWay, Phase.pending, closingEvents, spoken, List.filter_nil,
    List.append_nil] at htold hwhole
  refine ⟨?_, fun hopen _ => ?_, by simp⟩
  · simp only [ordered, hscript, spoken_append]
    exact htold.trans (List.prefix_append _ _)
  · simp only [ordered, onItsWay, Phase.pending, hscript, hpending, spoken_append,
      ← List.append_assoc]
    exact congrArg (· ++ _) (hwhole hopen)

/-- What is there to tell before it is known how the generation ended has no end
mark. -/
theorem done_notMem_script (writer : Writer D) (request : Request D) (emitted : List Text) :
    .done ∉ script writer request emitted none := by
  intro hmem
  simp only [script, closingEvents, List.append_nil, List.mem_append] at hmem
  rcases hmem with hmem | hmem
  · obtain ⟨content, hdata⟩ := event_greeting writer request _ hmem
    simp at hdata
  · simp [textEvents] at hmem

/-- The task unwinds: an end mark is to come, from here on out of order. -/
theorem unwind (haccounts : Accounts writer request channel .generating job emitted none)
    (hpending : unwritten after = unwritten job) :
    Accounts writer request channel .generating after emitted (some .panicked) := by
  have hscript : ordered (some (.panicked : Outcome D))
      (script writer request emitted (some .panicked)) =
        unmarked (spoken (script writer request emitted none)) := by
    simp [ordered, script, closingEvents, closing, spoken, unmarked]
  have honly : onItsWay writer (some .panicked) .generating after = unwritten job := by
    simp [onItsWay, hpending, ordered, Phase.pending, closingEvents, closing, spoken, unmarked]
  have htold := haccounts.told
  have hwhole := fun hopen => haccounts.whole hopen (by simp)
  simp only [ordered, onItsWay, Phase.pending, closingEvents, spoken, List.filter_nil,
    List.append_nil] at htold hwhole
  have hnone : channel.accepted.count .done = 0 := by
    refine List.count_eq_zero.mpr fun hmem => done_notMem_script writer request emitted ?_
    exact List.mem_of_mem_filter (htold.subset (List.mem_filter.mpr ⟨hmem, by simp⟩))
  refine ⟨?_, fun hopen _ => ?_, fun _ => ⟨by omega, fun _ => ?_⟩⟩
  · rw [hscript]
    exact htold.filter _
  · rw [hscript, spoken, ← hwhole hopen, honly, unmarked, List.filter_append]
    exact congrArg (_ ++ ·) (unmarked_unwritten job).symm
  · simp [hnone, Phase.pending, closingEvents, closing]

end Accounts

namespace Response

/-- What every order of steps keeps. -/
structure Sound (writer : Writer D) (request : Request D) (response : Response D) : Prop where
  channel : response.channel.Faithful
  capacity : response.channel.capacity = streamCapacity
  placed : Placed writer request response.phase response.job response.watcher response.emitted
    response.outcome
  deaf : response.beat = .deaf → response.channel.isOpen = false
  awaits : response.beat ≠ .quiet → response.phase.Awaits
  /-- The job is cancelled when the client has left, and then only. -/
  signalled : (response.watcher = .fired → response.cancelled = true) ∧
    (response.cancelled = true → response.channel.isOpen = false)
  accounts : Accounts writer request response.channel response.phase response.job response.emitted
    response.outcome

variable {writer : Writer D} {request : Request D} {response next : Response D}

theorem Sound.start (writer : Writer D) (request : Request D) :
    (start writer request).Sound writer request where
  channel := .new _
  capacity := rfl
  placed := .greeting [] _ rfl
  deaf := by simp [Response.start]
  awaits := by simp [Response.start]
  signalled := by simp [Response.start]
  accounts := ⟨List.nil_prefix, fun _ _ => by
    simp [Response.start, Channel.new, onItsWay, unwritten, ordered, spoken, Phase.pending, script,
      textEvents, closingEvents], by simp [Response.start]⟩

/-- Whoever has something to say is not waiting for a task. -/
theorem not_awaits_of_nextSay {phase next : Phase} {say : Say}
    (hsay : phase.nextSay = some (say, next)) : ¬ phase.Awaits := by
  unfold Phase.nextSay at hsay
  split at hsay <;> simp_all [Phase.Awaits]

/-- Whoever does not wait sends no heartbeats. -/
theorem Sound.quiet (hsound : response.Sound writer request) (hawaits : ¬ response.phase.Awaits) :
    response.beat = .quiet := by
  by_contra hbeat
  exact hawaits (hsound.awaits hbeat)

/-- What is to be said next is said, and then the rest. -/
theorem Sound.nextSay (hsound : response.Sound writer request) {say : Say} {next : Phase}
    (hsay : response.phase.nextSay = some (say, next)) :
    Placed writer request next response.job response.watcher response.emitted response.outcome ∧
      response.phase ≠ .returned ∧ response.watcher ≠ .watching ∧
      onItsWay writer response.outcome response.phase response.job =
        ordered response.outcome [say.event] ++
          onItsWay writer response.outcome next response.job ∧
      (response.phase.pending writer response.outcome).count .done =
        [say.event].count .done + (next.pending writer response.outcome).count .done := by
  have hplaced := hsound.placed
  revert hsay hplaced
  generalize response.phase = phase
  generalize response.job = job
  generalize response.watcher = watcher
  generalize response.emitted = emitted
  generalize response.outcome = outcome
  intro hsay hplaced
  cases hplaced with
  | greeting said todo hgreeting =>
      match todo, hsay, hgreeting with
      | .say first :: rest, hsay, hgreeting =>
          obtain ⟨rfl, rfl⟩ := Prod.mk.inj (Option.some.inj hsay)
          refine ⟨.greeting (said ++ [.say first]) rest (by simp [hgreeting]), by simp, by simp,
            ordered_append none [first.event] _, @List.count_append _ _ _ [first.event] _⟩
  | @closing said todo job watcher emitted outcome hjob hover hclosing hwatcher =>
      match todo, hsay, hclosing with
      | first :: rest, hsay, hclosing =>
          obtain ⟨rfl, rfl⟩ := Prod.mk.inj (Option.some.inj hsay)
          refine ⟨.closing (said ++ [first]) rest hjob hover (by simp [hclosing]) hwatcher, by simp,
            hwatcher, ?_, @List.count_append _ _ _ [first.event] _⟩
          have hfirst : ordered (some outcome) (Phase.pending writer (some outcome)
              (.closing (first :: rest))) = ordered (some outcome) [first.event] ++
                ordered (some outcome) (Phase.pending writer (some outcome) (.closing rest)) :=
            ordered_append _ [first.event] _
          rcases hjob.pending_of_isOver hover with rfl | hnothing
          · -- the end mark does not count, and nothing else is left
            have hall := ordered_closing_panicked hclosing
            rw [← Phase.pending, hfirst] at hall
            obtain ⟨hmark, hrest⟩ := List.append_eq_nil_iff.mp hall
            rw [onItsWay, onItsWay, hfirst, hmark, hrest]
            rfl
          · rw [onItsWay, onItsWay, unwritten, hnothing, hfirst]
            rfl
  | generating => simp [Phase.nextSay] at hsay
  | returned => simp [Phase.nextSay] at hsay
  | broken => simp [Phase.nextSay] at hsay

theorem abort_ne (watcher : Watcher) : watcher.abort ≠ .watching := by
  cases watcher <;> simp [Watcher.abort]

theorem fired_of_abort {watcher : Watcher} (hfired : watcher.abort = .fired) :
    watcher = .fired := by
  cases watcher <;> simp_all [Watcher.abort]

/-- The greeting is over, and nothing else has happened yet. -/
theorem Sound.greeted (hsound : response.Sound writer request)
    (hphase : response.phase = .greeting []) :
    response.job = none ∧ response.emitted = [] ∧ response.outcome = none := by
  have hplaced := hsound.placed
  rw [hphase] at hplaced
  generalize response.job = job at hplaced ⊢
  generalize response.watcher = watcher at hplaced
  generalize response.emitted = emitted at hplaced ⊢
  generalize response.outcome = outcome at hplaced ⊢
  cases hplaced with
  | greeting => exact ⟨rfl, rfl, rfl⟩

/-- While the model loads, nothing else has happened yet. -/
theorem Sound.loading (hsound : response.Sound writer request) {rest : List Action}
    (hphase : response.phase = .greeting (.load :: rest)) :
    Placed writer request (.greeting rest) response.job response.watcher response.emitted
        response.outcome ∧
      Placed writer request .returned response.job response.watcher response.emitted
        response.outcome ∧ response.outcome = none := by
  have hplaced := hsound.placed
  rw [hphase] at hplaced
  generalize response.job = job at hplaced ⊢
  generalize response.watcher = watcher at hplaced ⊢
  generalize response.emitted = emitted at hplaced ⊢
  generalize response.outcome = outcome at hplaced ⊢
  cases hplaced with
  | greeting said todo hgreeting =>
      exact ⟨.greeting (said ++ [.load]) rest (by simp [hgreeting]), .broken (by simp), rfl⟩

/-- Who stops talking has returned. -/
theorem Placed.returned_of_nextSay {phase next : Phase} {job : Option Job} {watcher : Watcher}
    {emitted : List Text} {outcome : Option (Outcome D)} {say : Say}
    (hplaced : Placed writer request phase job watcher emitted outcome)
    (hsay : phase.nextSay = some (say, next)) :
    Placed writer request .returned job watcher emitted outcome := by
  cases hplaced with
  | greeting => exact .broken (by simp)
  | closing _ _ hjob hover _ hwatcher => exact .returned hjob hover hwatcher
  | generating => simp [Phase.nextSay] at hsay
  | returned hjob hover hwatcher => exact .returned hjob hover hwatcher
  | broken hwatcher => exact .broken hwatcher

/-- Once the good-bye is said, the handler returns. -/
theorem Sound.closed (hsound : response.Sound writer request)
    (hphase : response.phase = .closing []) :
    Placed writer request .returned response.job response.watcher response.emitted
      response.outcome ∧ response.outcome ≠ none := by
  have hplaced := hsound.placed
  rw [hphase] at hplaced
  generalize response.job = job at hplaced ⊢
  generalize response.outcome = outcome at hplaced ⊢
  cases hplaced with
  | closing _ _ hjob hover _ hwatcher => exact ⟨.returned hjob hover hwatcher, by simp⟩

/-- With a job, the placement and the account are about that job. -/
theorem Sound.of_job (hsound : response.Sound writer request) {job : Job}
    (hjob : response.job = some job) :
    Placed writer request response.phase (some job) response.watcher response.emitted
        response.outcome ∧
      Accounts writer request response.channel response.phase (some job) response.emitted
        response.outcome :=
  ⟨hjob ▸ hsound.placed, hjob ▸ hsound.accounts⟩

/-- The listener's steps leave the handler where it is. -/
theorem Sound.listener (hsound : response.Sound writer request) {job next : Job}
    (hjob : response.job = some job) (hnext : next.Sound response.outcome)
    (hover : job.task.IsOver → next.task.IsOver) (hpending : next.pending = job.pending) :
    Sound writer request { response with job := some next } where
  channel := hsound.channel
  capacity := hsound.capacity
  placed := (hsound.of_job hjob).1.step hnext hover _
  deaf := hsound.deaf
  awaits := hsound.awaits
  signalled := hsound.signalled
  accounts := (hsound.of_job hjob).2.hand hpending

/-- The stream takes an event in, off what was on its way. -/
theorem Sound.send (hsound : response.Sound writer request) (hroom : response.channel.HasRoom)
    {event : StreamEvent} {phase : Phase} {job : Option Job}
    (hplaced : Placed writer request phase job response.watcher response.emitted response.outcome)
    (hawaits : response.beat ≠ .quiet → phase.Awaits)
    (haccounts : Accounts writer request (response.channel.send event) phase job response.emitted
      response.outcome) :
    Sound writer request
      { response with channel := response.channel.send event, phase, job } where
  channel := hsound.channel.send hroom _
  capacity := hsound.capacity
  placed := hplaced
  deaf hdeaf := hsound.deaf hdeaf
  awaits := hawaits
  signalled := hsound.signalled
  accounts := haccounts

/-- The handler moves without a heartbeat out. -/
theorem Sound.steer (hsound : response.Sound writer request) (hquiet : response.beat = .quiet)
    {phase : Phase} (hplaced : Placed writer request phase response.job response.watcher
      response.emitted response.outcome)
    (haccounts : Accounts writer request response.channel phase response.job response.emitted
      response.outcome) : Sound writer request { response with phase } where
  channel := hsound.channel
  capacity := hsound.capacity
  placed := hplaced
  deaf hdeaf := by simp [hquiet] at hdeaf
  awaits hbeat := absurd hquiet hbeat
  signalled := hsound.signalled
  accounts := haccounts

/-- Heartbeats may stop at any time. -/
theorem Sound.hush (hsound : response.Sound writer request) :
    Sound writer request { response with beat := .quiet } where
  channel := hsound.channel
  capacity := hsound.capacity
  placed := hsound.placed
  deaf := by simp
  awaits := by simp
  signalled := hsound.signalled
  accounts := hsound.accounts

/-- The handler has greeted and creates the job. -/
theorem Sound.launch (hsound : response.Sound writer request)
    (hphase : response.phase = .greeting []) :
    Sound writer request
      { response with phase := .generating, job := some .create, watcher := .watching } := by
  obtain ⟨hjob, hemitted, houtcome⟩ := hsound.greeted hphase
  refine
    { channel := hsound.channel
      capacity := hsound.capacity
      placed := .generating ?_ (Or.inl rfl)
      deaf := hsound.deaf
      awaits := fun _ => trivial
      signalled := ⟨by simp, hsound.signalled.2⟩
      accounts := hsound.accounts.move (fun _ _ => ⟨by simp [hphase], ?_⟩) fun _ => ?_ }
  · rw [houtcome]
    exact .running [] (by simp [Listener.IsAlive])
  · rw [hphase, houtcome, hjob]
    rfl
  · rw [hphase, houtcome]
    rfl

/-- The handler learns how the generation ended. -/
theorem Sound.collect (hsound : response.Sound writer request) {job : Job} {outcome : Outcome D}
    (hphase : response.phase = .generating) (hjob : response.job = some job)
    (hover : job.task.IsOver) (houtcome : response.outcome = some outcome) :
    Sound writer request
      { response with
        phase := .closing (closing writer outcome)
        beat := .quiet
        watcher := response.watcher.abort } := by
  obtain ⟨hplaced, haccounts⟩ := hsound.of_job hjob
  have hplace := hplaced.job_sound
  rw [houtcome] at hplace
  rw [hphase, houtcome] at haccounts
  have hsaid : Phase.pending writer (some outcome) (.closing (closing writer outcome)) =
      Phase.pending writer (some outcome) .generating := rfl
  refine
    { channel := hsound.channel
      capacity := hsound.capacity
      placed := ?_
      deaf := by simp
      awaits := by simp
      signalled := ⟨fun hfired => hsound.signalled.1 (fired_of_abort hfired), hsound.signalled.2⟩
      accounts := ?_ }
  · dsimp only
    rw [hjob, houtcome]
    exact .closing [] _ hplace hover rfl (abort_ne _)
  · dsimp only
    rw [hjob, houtcome]
    exact haccounts.move (fun _ _ => ⟨by simp, by rw [onItsWay, onItsWay, hsaid]⟩)
      fun _ => by rw [hsaid]

/-- The task ends, one way or the other. -/
theorem Sound.conclude (hsound : response.Sound writer request) {job next : Job}
    {outcome : Outcome D} (hjob : response.job = some job) (htask : job.task = .running)
    (hnext : next.Sound (some outcome))
    (haccounts : Accounts writer request response.channel .generating (some next)
      response.emitted (some outcome)) :
    Sound writer request { response with job := some next, outcome := some outcome } := by
  obtain ⟨hphase, hwatcher⟩ := (hsound.of_job hjob).1.generating_of_running htask
  exact
    { channel := hsound.channel
      capacity := hsound.capacity
      placed := hphase ▸ .generating hnext hwatcher
      deaf := hsound.deaf
      awaits := hsound.awaits
      signalled := hsound.signalled
      accounts := hphase ▸ haccounts }

/-- What the parties do by themselves keeps everything. -/
theorem Proceeds.sound (hstep : response.Proceeds writer next)
    (hsound : response.Sound writer request) : next.Sound writer request := by
  cases hstep with
  | say say next hsay hroom =>
      obtain ⟨hplaced, hphase, _, hpending, hmarks⟩ := hsound.nextSay hsay
      have hquiet := hsound.quiet (not_awaits_of_nextSay hsay)
      exact hsound.send hroom hplaced (fun hbeat => absurd hquiet hbeat)
        (hsound.accounts.send hroom (Or.inl hphase) hpending hmarks)
  | unheard say next hsay hgone =>
      refine hsound.steer (hsound.quiet (not_awaits_of_nextSay hsay)) ?_
        (hsound.accounts.move (fun hopen => by simp [hgone] at hopen)
          fun hopen => by simp [hgone] at hopen)
      split
      · exact (hsound.nextSay hsay).1
      · exact Placed.returned_of_nextSay hsound.placed hsay
  | launch hphase => exact hsound.launch hphase
  | take job text queue hjob hlistener hqueue =>
      obtain ⟨hnext, hpending⟩ := (hsound.of_job hjob).1.job_sound.onText hlistener hqueue
      exact hsound.listener hjob hnext id hpending
  | write job text hjob hlistener hroom =>
      obtain ⟨hplaced, haccounts⟩ := hsound.of_job hjob
      obtain ⟨hnext, hpending⟩ := hplaced.job_sound.onWritten hlistener
      have hphase : response.phase ≠ .returned ∨ response.outcome ≠ none :=
        (em (response.phase = .returned)).elim (fun hover => Or.inr (hplaced.outcome_ne hover))
          Or.inl
      refine hsound.send hroom (hplaced.step hnext id _) hsound.awaits
        (haccounts.send hroom hphase ?_ (by simp))
      rw [onItsWay, onItsWay, unwritten, unwritten, hpending, ordered_data, List.append_assoc]
  | writeUnheard job text hjob hlistener hgone =>
      obtain ⟨hplaced, haccounts⟩ := hsound.of_job hjob
      exact
        { channel := hsound.channel
          capacity := hsound.capacity
          placed := hplaced.step (hplaced.job_sound.onWritten hlistener).1 id _
          deaf := hsound.deaf
          awaits := hsound.awaits
          signalled := hsound.signalled
          accounts := haccounts.move (fun hopen => by simp [hgone] at hopen) fun _ => rfl }
  | finish job queue hjob hlistener hqueue =>
      obtain ⟨hnext, hpending⟩ := (hsound.of_job hjob).1.job_sound.onFinished hlistener hqueue
      exact hsound.listener hjob hnext (fun _ => trivial) hpending
  | hangUp job hjob hlistener hqueue htask hheld =>
      obtain ⟨hnext, hpending⟩ :=
        (hsound.of_job hjob).1.job_sound.onDeserted hlistener hqueue htask hheld
      exact hsound.listener hjob hnext id hpending
  | beat hbeat hroom =>
      have hawaits : response.phase.Awaits := hsound.awaits (by simp [hbeat])
      have hphase : response.phase ≠ .returned := fun hover => by
        simp [hover, Phase.Awaits] at hawaits
      have hsilent : ordered response.outcome [.heartbeat] = [] := by
        unfold ordered
        split <;> simp [spoken, unmarked]
      exact (hsound.send hroom hsound.placed hsound.awaits
        (hsound.accounts.send hroom (Or.inl hphase) (by rw [hsilent]; rfl) (by simp))).hush
  | beatUnheard hbeat hgone =>
      exact
        { channel := hsound.channel
          capacity := hsound.capacity
          placed := hsound.placed
          deaf := fun _ => hgone
          awaits := fun _ => hsound.awaits (by simp [hbeat])
          signalled := hsound.signalled
          accounts := hsound.accounts }
  | collect job outcome hphase hjob hover houtcome hbeat =>
      exact hsound.collect hphase hjob hover houtcome
  | close hphase =>
      obtain ⟨hplaced, houtcome⟩ := hsound.closed hphase
      exact hsound.steer (hsound.quiet (by simp [hphase, Phase.Awaits])) hplaced
        (hsound.accounts.move (fun _ _ => ⟨fun _ => houtcome, by rw [hphase]; rfl⟩)
          fun _ => by rw [hphase]; rfl)
  | fire hwatcher hgone =>
      have hplaced := hsound.placed
      rw [hwatcher] at hplaced
      exact
        { channel := hsound.channel
          capacity := hsound.capacity
          placed := hplaced.fire
          deaf := hsound.deaf
          awaits := hsound.awaits
          signalled := ⟨fun _ => rfl, fun _ => hgone⟩
          accounts := hsound.accounts }
  | read hopen hqueue =>
      exact
        { channel := hsound.channel.receive
          capacity := hsound.capacity
          placed := hsound.placed
          deaf := hsound.deaf
          awaits := hsound.awaits
          signalled := hsound.signalled
          accounts := hsound.accounts.receive }

/-- So does whatever happens to them. -/
theorem Befalls.sound (hstep : response.Befalls next) (hsound : response.Sound writer request) :
    next.Sound writer request := by
  cases hstep with
  | loaded rest hphase hbeat =>
      obtain ⟨hplaced, _, _⟩ := hsound.loading hphase
      exact hsound.hush.steer rfl hplaced
        (hsound.accounts.move (fun _ _ => ⟨by simp [hphase], by rw [hphase]; rfl⟩)
          fun _ => by rw [hphase]; rfl)
  | loadFailed rest hphase hbeat =>
      obtain ⟨_, hplaced, houtcome⟩ := hsound.loading hphase
      exact hsound.hush.steer rfl hplaced
        ⟨hsound.accounts.told, fun _ hover => absurd houtcome (hover rfl), by simp [houtcome]⟩
  | elapse hawaits hbeat =>
      exact
        { channel := hsound.channel
          capacity := hsound.capacity
          placed := hsound.placed
          deaf := by simp
          awaits := fun _ => hawaits
          signalled := hsound.signalled
          accounts := hsound.accounts }
  | emit job text hjob hheld htask =>
      obtain ⟨hplaced, haccounts⟩ := hsound.of_job hjob
      obtain ⟨hnext, hpending⟩ := hplaced.job_sound.completed hheld htask text
      exact
        { channel := hsound.channel
          capacity := hsound.capacity
          placed := hplaced.step hnext (fun hover => job.task_completed text ▸ hover) _
          deaf := hsound.deaf
          awaits := hsound.awaits
          signalled := hsound.signalled
          accounts := haccounts.emit hplaced.outcome_ne (hplaced.unanswered htask) hpending }
  | emitLate job text hjob hheld htask =>
      obtain ⟨hnext, hpending⟩ := (hsound.of_job hjob).1.job_sound.completed_late htask text
      exact hsound.listener hjob hnext (fun hover => job.task_completed text ▸ hover) hpending
  | drop job hjob hheld =>
      exact hsound.listener hjob (hsound.of_job hjob).1.job_sound.drop id rfl
  | reply job result hjob htask =>
      obtain ⟨hplaced, haccounts⟩ := hsound.of_job hjob
      obtain ⟨houtcome, hnext, hpending⟩ := hplaced.job_sound.join htask result
      rw [(hplaced.generating_of_running htask).1, houtcome] at haccounts
      exact hsound.conclude hjob htask hnext (haccounts.answer result hpending)
  | panic job hjob htask =>
      obtain ⟨hplaced, haccounts⟩ := hsound.of_job hjob
      obtain ⟨houtcome, hnext⟩ := hplaced.job_sound.unwind htask
      rw [(hplaced.generating_of_running htask).1, houtcome] at haccounts
      exact hsound.conclude hjob htask hnext (haccounts.unwind rfl)
  | leave hopen =>
      exact
        { channel := hsound.channel.close
          capacity := hsound.capacity
          placed := hsound.placed
          deaf := fun _ => rfl
          awaits := hsound.awaits
          signalled := ⟨hsound.signalled.1, fun _ => rfl⟩
          accounts := hsound.accounts.close }

/-- Every state some order of steps leads to is sound. -/
theorem Reachable.sound (hreachable : Reachable writer request response) :
    response.Sound writer request := by
  induction hreachable with
  | refl => exact Sound.start writer request
  | tail _ hstep ih => exact hstep.elim (fun h => h.sound ih) fun h => h.sound ih

/-! ## What is told -/

theorem map_flatMap_events_greeting (writer : Writer D) (request : Request D) (texts : List Text)
    (stats : List (StatEntry D)) :
    (request.greeting writer).flatMap Action.events ++ texts.map .data ++
        [.data (['\n', '\n'] ++ displayStats writer stats)] =
      ((request.reply texts stats).chunks writer).map .data := by
  obtain ⟨old, model, loading⟩ := request
  cases old <;> cases loading <;>
    simp [Request.greeting, Request.reply, Reply.chunks, Reply.preamble, Action.events]

/-- All there is to tell is told in so many words. -/
theorem spoken_script (writer : Writer D) (request : Request D) (emitted : List Text)
    (outcome : Option (Outcome D)) :
    spoken (script writer request emitted outcome) = script writer request emitted outcome := by
  refine List.filter_eq_self.mpr fun event hevent => ?_
  simp only [decide_eq_true_eq]
  rintro rfl
  simp only [script, List.mem_append] at hevent
  rcases hevent with (hgreeting | htext) | hclosing
  · obtain ⟨content, hdata⟩ := event_greeting writer request _ hgreeting
    simp at hdata
  · simp [textEvents] at htext
  · cases outcome with
    | none => simp [closingEvents] at hclosing
    | some outcome =>
        obtain ⟨say, hsay, hevent⟩ := List.mem_map.mp hclosing
        exact spoken_closing writer outcome say hsay hevent

/-- Without a panic everything comes in order. -/
theorem ordered_of_ne {outcome : Option (Outcome D)} (houtcome : outcome ≠ some .panicked)
    (events : List StreamEvent) : ordered outcome events = spoken events := by
  unfold ordered
  split
  · exact absurd rfl houtcome
  · rfl

/-- A handler that has returned after an answer has left nothing to write. -/
theorem Sound.written (hsound : response.Sound writer request) (hphase : response.phase = .returned)
    (houtcome : response.outcome ≠ some .panicked) : unwritten response.job = [] := by
  have hplaced := hsound.placed
  rw [hphase] at hplaced
  revert hplaced houtcome
  generalize response.job = job
  generalize response.outcome = outcome
  generalize response.watcher = watcher
  generalize response.emitted = emitted
  intro houtcome hplaced
  cases hplaced with
  | returned hjob hover =>
      exact (hjob.pending_of_isOver hover).resolve_left fun hpanicked => houtcome (hpanicked ▸ rfl)
  | broken => rfl

/-- A handler that has returned waits for no task. -/
theorem Sound.task_ne_running (hsound : response.Sound writer request)
    (hphase : response.phase = .returned) {job : Job} (hjob : response.job = some job) :
    job.task ≠ .running := fun htask => by
  obtain ⟨hgenerating, _⟩ := (hsound.of_job hjob).1.generating_of_running htask
  simp [hphase] at hgenerating

/-- Once the handler has returned, what a client that has stayed does not have yet is
the listener's. -/
theorem Sound.all_told (hsound : response.Sound writer request)
    (hphase : response.phase = .returned) (hopen : response.channel.isOpen = true)
    (houtcome : response.outcome ≠ none) :
    ordered response.outcome (response.channel.received ++ response.channel.queue) ++
        unwritten response.job =
      ordered response.outcome (script writer request response.emitted response.outcome) := by
  have hwhole := hsound.accounts.whole hopen fun _ => houtcome
  rw [onItsWay, hphase, Phase.pending, ordered_nil, List.append_nil] at hwhole
  rw [hsound.channel.all hopen]
  exact hwhole

/-- After a panic it has one end mark by then. -/
theorem Sound.marked (hsound : response.Sound writer request) (hphase : response.phase = .returned)
    (hopen : response.channel.isOpen = true) (houtcome : response.outcome = some .panicked) :
    (response.channel.received ++ response.channel.queue).count .done = 1 := by
  have hone := (hsound.accounts.marks houtcome).2 hopen
  rw [hphase] at hone
  rw [hsound.channel.all hopen]
  simpa [Phase.pending] using hone

/-- Once the handler has returned after an answer, nobody is left to say anything. -/
theorem Step.of_over (hsound : response.Sound writer request) (hphase : response.phase = .returned)
    (houtcome : response.outcome ≠ some .panicked) (hstep : response.Step writer next) :
    next.phase = .returned ∧ next.outcome ≠ some .panicked ∧
      next.channel.accepted = response.channel.accepted := by
  have hquiet := hsound.quiet (by simp [hphase, Phase.Awaits])
  have hwritten := hsound.written hphase houtcome
  rcases hstep with hstep | hstep
  · cases hstep with
    | say _ _ hsay => simp [hphase, Phase.nextSay] at hsay
    | unheard _ _ hsay => simp [hphase, Phase.nextSay] at hsay
    | launch hgreeting => simp [hphase] at hgreeting
    | write job text hjob hlistener =>
        simp [hjob, unwritten, Job.pending, hlistener, Listener.events] at hwritten
    | beat hbeat => simp [hquiet] at hbeat
    | collect _ _ hgenerating => simp [hphase] at hgenerating
    | close hclosing => simp [hphase] at hclosing
    | _ => exact ⟨hphase, houtcome, rfl⟩
  · cases hstep with
    | loaded _ hgreeting => simp [hphase] at hgreeting
    | loadFailed _ hgreeting => simp [hphase] at hgreeting
    | reply _ _ hjob htask => exact absurd htask (hsound.task_ne_running hphase hjob)
    | panic _ hjob htask => exact absurd htask (hsound.task_ne_running hphase hjob)
    | _ => exact ⟨hphase, houtcome, rfl⟩

/-- Nor later. -/
theorem accepted_of_over (hsound : response.Sound writer request)
    (hphase : response.phase = .returned) (houtcome : response.outcome ≠ some .panicked)
    (hlater : ReflTransGen (Step writer) response next) :
    next.channel.accepted = response.channel.accepted := by
  have hkept : next.Sound writer request ∧ next.phase = .returned ∧
      next.outcome ≠ some .panicked ∧ next.channel.accepted = response.channel.accepted := by
    induction hlater with
    | refl => exact ⟨hsound, hphase, houtcome, rfl⟩
    | tail _ hstep ih =>
        obtain ⟨hnext, hover, hanswered, haccepted⟩ := ih
        obtain ⟨hover', hanswered', hsame⟩ := Step.of_over hnext hover hanswered hstep
        exact ⟨hstep.elim (fun h => h.sound hnext) fun h => h.sound hnext, hover', hanswered',
          hsame.trans haccepted⟩
  exact hkept.2.2.2

/-- **A stream is one reply.** In whatever order the parties take their steps, unless
the generation panicked: what the client has received is, heartbeats apart, a
beginning of the greeting, the texts emitted before the engine answered and the
good-bye, in that order. When the handler has returned and the client is still there,
it has received all of it or can read the rest, and nothing follows, whatever happens
next. For a generation that came to its end that is the reply in its frame, the finish
reason and one end mark. After a panic the same holds of the greeting and the texts,
with what the listener has yet to write still to follow, and the end mark is the
handler's whole good-bye: it comes once, wherever it stands. -/
theorem stream_in_order (hreachable : Reachable writer request response) :
    let all := script writer request response.emitted response.outcome
    let channel := response.channel
    (response.outcome ≠ some .panicked → spoken channel.received <+: all ∧
        (response.phase = .returned → channel.isOpen = true → response.outcome ≠ none →
          spoken (channel.received ++ channel.queue) = all ∧
            ∀ later, ReflTransGen (Step writer) response later →
              later.channel.accepted = channel.accepted)) ∧
      (response.outcome = some .panicked →
        unmarked (spoken channel.received) <+: unmarked all ∧ channel.received.count .done ≤ 1 ∧
        (response.phase = .returned → channel.isOpen = true →
          unmarked (spoken (channel.received ++ channel.queue)) ++ unwritten response.job =
              unmarked all ∧
            (channel.received ++ channel.queue).count .done = 1)) ∧
      ∀ stats, response.outcome = some (.answered (.ok stats)) →
        all = ((request.reply (response.emitted.filter (· ≠ [])) stats).chunks writer).map .data ++
          [.finish (finishReasonFrom stats), .done] := by
  intro all channel
  have hsound := hreachable.sound
  have haccepted : channel.received <+: channel.accepted :=
    (List.prefix_append _ _).trans hsound.channel.delivered
  have htold : ordered response.outcome channel.received <+: ordered response.outcome all :=
    (ordered_mono response.outcome haccepted).trans hsound.accounts.told
  refine ⟨fun houtcome => ⟨?_, fun hphase hopen hended => ⟨?_, fun later hlater => ?_⟩⟩,
    fun houtcome => ⟨?_, ?_, fun hphase hopen => ⟨?_, ?_⟩⟩, fun stats hstats => ?_⟩
  · rw [ordered_of_ne houtcome, ordered_of_ne houtcome, spoken_script] at htold
    exact htold
  · have htotal := hsound.all_told hphase hopen hended
    rw [hsound.written hphase houtcome, List.append_nil, ordered_of_ne houtcome,
      ordered_of_ne houtcome, spoken_script] at htotal
    exact htotal
  · exact accepted_of_over hsound hphase houtcome hlater
  · rw [houtcome] at htold
    simpa only [ordered, all, spoken_script] using htold
  · exact (haccepted.sublist.count_le _).trans (hsound.accounts.marks houtcome).1
  · have htotal := hsound.all_told hphase hopen (by simp [houtcome])
    rw [houtcome] at htotal
    simpa only [ordered, all, houtcome, spoken_script] using htotal
  · exact hsound.marked hphase hopen houtcome
  · rw [← map_flatMap_events_greeting]
    simp only [all, script, hstats, closingEvents, closing, textEvents, List.map_cons, List.map_nil,
      List.append_assoc, List.cons_append, List.nil_append]

/-- A loaded model, and nothing unloaded for it. -/
def quick : Request ℕ := ⟨none, ['p'], none⟩

/-- The engine has emitted a text and replied while a heartbeat is due. -/
theorem exists_replied : ∃ response : Response ℕ, Reachable markdown quick response ∧
    response.emitted = [['h', 'i']] ∧ response.outcome = some (.answered (.ok [])) ∧
    response.channel.isOpen = true ∧ response.beat = .sending := by
  have hgreeted := (ReflTransGen.refl : Reachable markdown quick _).tail
    (Or.inl (.say _ _ rfl ⟨rfl, by decide⟩))
  have hlaunched := hgreeted.tail (Or.inl (.launch rfl))
  have hbeating := hlaunched.tail (Or.inr (.elapse trivial rfl))
  have hemitted := hbeating.tail (Or.inr (.emit _ ['h', 'i'] rfl rfl (Or.inl rfl)))
  exact ⟨_, hemitted.tail (Or.inr (.reply _ (.ok []) rfl rfl)), rfl, rfl, rfl, rfl⟩

/-- There, the client has the marker or can read it, and the rest is settled. -/
theorem stream_in_order_replied : ∃ response : Response ℕ, Reachable markdown quick response ∧
    spoken response.channel.received <+:
      ((quick.reply [['h', 'i']] []).chunks markdown).map .data ++ [.finish .stop, .done] := by
  obtain ⟨response, hreachable, hemitted, houtcome, _⟩ := exists_replied
  obtain ⟨hanswered, _, hchunks⟩ := stream_in_order hreachable
  obtain ⟨hreceived, _⟩ := hanswered (by simp [houtcome])
  rw [hchunks [] houtcome, hemitted] at hreceived
  exact ⟨response, hreachable, hreceived⟩

end Response

end BurnLm.Http
