/-
# One worker's lifetime

Callers send commands, the worker thread works through its turns, the emission
thread delivers. They share two channels and nothing else, so a lifetime is an
interleaving of their steps. What a turn does is known before it starts, but it is
done log entry by log entry, and a panic may come between any two.

A panic drops the job in hand, answers what is queued and ends the thread. A
thread that ends drops what it still owns and what was sent to it and not
received. The emission thread outlives it: it works off its channel, then tells
whoever is left.

A turn may take in fewer commands than have arrived. The worker that replaces a
dead one starts a lifetime of its own.
-/

import BurnLm.Inference.Custody
import BurnLm.Inference.Drain
import BurnLm.Inference.Emission

namespace BurnLm.Inference

open BurnLm.Math
open Relation (ReflTransGen)

universe u v w

variable {S : Type u} {Row : Type v} {Task : Type w}

/-- The request a command submits. -/
def Command.completion : Command Task → Option ℕ
  | .submit queued => some queued.completion
  | _ => none

/-- The command an entry receives. -/
def Effect.command : Effect Task → Option (Command Task)
  | .received command => some command
  | _ => none

/-- The reply an entry sends from the worker thread itself. -/
def Effect.reply : Effect Task → Option (ℕ × InferenceResult Stats)
  | .replied completion reply => some (completion, reply)
  | _ => none

/-- The requests that are in the worker's custody. -/
def Custody.completions (custody : Custody Task) : List ℕ :=
  custody.queue.map QueuedJob.completion ++ custody.hand.toList.map QueuedJob.completion

/-- Where the worker thread is: in its loop, answering its queue after a panic, or
gone. -/
inductive Phase
  | running
  | failing
  | exited
  deriving DecidableEq, Repr

/-- Everything of one lifetime. -/
structure Serving (S : Type u) (Task : Type w) where
  /-- Sent to the worker, not received. -/
  commands : List (Command Task)
  phase : Phase
  /-- The worker as the turn in progress leaves it. -/
  worker : Worker S Task
  /-- What that turn has still to do. -/
  script : List (Effect Task)
  /-- How that turn ends. -/
  flow : Flow
  custody : Custody Task
  /-- Sent to the emission thread, not received. -/
  events : List EmissionEvent
  emission : Emission
  /-- What the worker thread answered itself. -/
  replies : List (ℕ × InferenceResult Stats)
  /-- The requests whose completion was dropped without an answer. -/
  dropped : List ℕ
  /-- The requests whose submission returned a receiver. -/
  submitted : List ℕ

namespace Serving

/-- A worker just spawned. -/
def spawn (server : S) : Serving S Task :=
  ⟨[], .running, .spawn server, [], .continue, ⟨[], none⟩, [], .spawn, [], [], []⟩

/-- One log entry done. -/
def perform (serving : Serving S Task) (effect : Effect Task) (script : List (Effect Task)) :
    Serving S Task :=
  { serving with
    script
    custody := serving.custody.perform effect
    events := serving.events ++ effect.event.toList
    replies := serving.replies ++ effect.reply.toList }

/-- The turn in progress panics. -/
def panic (serving : Serving S Task) : Serving S Task :=
  { serving with
    phase := .failing
    script := []
    custody := ⟨serving.custody.queue, none⟩
    dropped := serving.dropped ++ serving.custody.hand.toList.map QueuedJob.completion }

/-- The worker thread ends. -/
def exit (serving : Serving S Task) : Serving S Task :=
  { serving with
    commands := []
    phase := .exited
    custody := ⟨[], none⟩
    dropped := serving.dropped ++ (serving.commands.filterMap Command.completion ++
      serving.custody.completions) }

variable [BatchedInferenceServer S Row Task]

/-- One step of one of the parties. -/
inductive Step (serving : Serving S Task) : Serving S Task → Prop
  /-- A caller submits a job and gets a receiver. -/
  | submit (queued : QueuedJob Task) (halive : serving.phase ≠ .exited)
      (hfresh : queued.completion ∉ serving.submitted) :
      Step serving
        { serving with
          commands := serving.commands ++ [.submit queued]
          submitted := serving.submitted ++ [queued.completion] }
  /-- A caller sends something else. -/
  | send (command : Command Task) (halive : serving.phase ≠ .exited)
      (hother : command.completion = none) :
      Step serving { serving with commands := serving.commands ++ [command] }
  /-- The next turn begins. -/
  | turn (env : TurnEnv Task) (hrunning : serving.phase = .running)
      (hdone : serving.script = []) (hflow : serving.flow = .continue) :
      Step serving
        { serving with
          worker := (serving.worker.turn env).2
          script := (serving.worker.turn env).2.log.drop serving.worker.log.length
          flow := (serving.worker.turn env).1 }
  /-- The turn takes a command off the channel. -/
  | receive (command : Command Task) (commands : List (Command Task))
      (script : List (Effect Task)) (hrunning : serving.phase = .running)
      (hscript : serving.script = .received command :: script)
      (hcommands : serving.commands = command :: commands) :
      Step serving (perform { serving with commands } (.received command) script)
  /-- The turn does anything else. -/
  | perform (effect : Effect Task) (script : List (Effect Task))
      (hrunning : serving.phase = .running) (hscript : serving.script = effect :: script)
      (hother : effect.command = none) :
      Step serving (serving.perform effect script)
  /-- A turn that shuts down is done. -/
  | shutdown (hrunning : serving.phase = .running) (hdone : serving.script = [])
      (hflow : serving.flow = .shutdown) : Step serving serving.exit
  | panic (hrunning : serving.phase = .running) : Step serving serving.panic
  /-- After a panic the queue is answered, job by job. -/
  | fail (queued : QueuedJob Task) (queue : List (QueuedJob Task))
      (hfailing : serving.phase = .failing) (hqueue : serving.custody.queue = queued :: queue) :
      Step serving
        { serving with
          custody := { serving.custody with queue }
          replies := serving.replies ++ [(queued.completion, .error .workerDied)] }
  | exit (hfailing : serving.phase = .failing) (hqueue : serving.custody.queue = []) :
      Step serving serving.exit
  /-- The emission thread receives an event. -/
  | emit (event : EmissionEvent) (events : List EmissionEvent)
      (hevents : serving.events = event :: events) :
      Step serving { serving with events, emission := serving.emission.receive event }
  /-- The emission thread tells somebody who is left. -/
  | abandon (id : ℕ) (hexited : serving.phase = .exited) (hevents : serving.events = [])
      (hlive : id ∈ serving.emission.registered.map Prod.fst) :
      Step serving { serving with emission := serving.emission.abandon id }

/-- What a lifetime around this server can come to. -/
def Reachable (server : S) : Serving S Task → Prop := ReflTransGen Step (spawn server)

/-! ## No completion is lost or doubled -/

/-- The requests that got a reply, once for each. -/
def answered (serving : Serving S Task) : List ℕ :=
  serving.emission.completed ++ serving.replies.map Prod.fst

/-- Every completion there is, wherever it is. -/
def owners (serving : Serving S Task) : List ℕ :=
  serving.commands.filterMap Command.completion ++ serving.custody.completions ++
    (admissions serving.events).map Prod.snd ++ serving.emission.registered.map Prod.snd ++
    serving.answered ++ serving.dropped

/-- What is submitted is somewhere, once, and no id is registered twice. -/
structure Conserved (serving : Serving S Task) : Prop where
  nodup : serving.submitted.Nodup
  perm : serving.owners.Perm serving.submitted
  fresh : (serving.emission.registered.map Prod.fst ++ admittedIds serving.events).Nodup
  exited : serving.phase = .exited → serving.commands = [] ∧ serving.custody = ⟨[], none⟩

omit [BatchedInferenceServer S Row Task] in
theorem count_owners (serving : Serving S Task) (completion : ℕ) :
    serving.owners.count completion =
      (serving.commands.filterMap Command.completion).count completion +
        serving.custody.completions.count completion +
        ((admissions serving.events).map Prod.snd).count completion +
        (serving.emission.registered.map Prod.snd).count completion +
        (serving.emission.completed.count completion +
          (serving.replies.map Prod.fst).count completion) +
        serving.dropped.count completion := by
  simp only [owners, answered, List.count_append]

omit [BatchedInferenceServer S Row Task] in
theorem Conserved.count_eq {serving : Serving S Task} (hserving : serving.Conserved)
    (completion : ℕ) :
    serving.owners.count completion = serving.submitted.count completion :=
  List.perm_iff_count.mp hserving.perm completion

omit [BatchedInferenceServer S Row Task] in
theorem conserved_spawn (server : S) : (spawn server : Serving S Task).Conserved := by
  constructor <;> simp [spawn, owners, answered, Custody.completions, Emission.spawn,
    Emission.registered, Emission.completed, admissions, admittedIds]

omit [BatchedInferenceServer S Row Task] in
/-- An entry the custody allows moves completions and loses none. -/
theorem count_custody_perform {custody : Custody Task} {effect : Effect Task}
    (hallows : custody.Allows effect) (completion : ℕ) :
    (custody.perform effect).completions.count completion +
        ((admissions effect.event.toList).map Prod.snd).count completion +
        (effect.reply.toList.map Prod.fst).count completion =
      custody.completions.count completion +
        (effect.command.toList.filterMap Command.completion).count completion := by
  obtain ⟨queue, hand⟩ := custody
  cases effect with
  | received command =>
      cases command with
      | submit queued =>
          have hcommand : [Command.submit queued].filterMap Command.completion =
              [queued.completion] := rfl
          simp [Custody.perform, Custody.completions, Effect.event, Effect.reply, Effect.command,
            admissions, hcommand, List.count_cons]
          omega
      | _ => rfl
  | dequeued queued =>
      obtain ⟨rfl, hqueue⟩ := hallows
      obtain ⟨rest, rfl⟩ := List.head?_eq_some_iff.mp hqueue
      simp [Custody.perform, Custody.completions, Effect.event, Effect.reply, Effect.command,
        admissions, List.count_cons]
  | replied completion' reply =>
      obtain ⟨queued, rfl, rfl⟩ := Option.map_eq_some_iff.mp hallows
      simp [Custody.perform, Custody.completions, Effect.event, Effect.reply, Effect.command,
        admissions]
  | sent event =>
      cases event with
      | admitted id emitter detok completion' =>
          obtain ⟨queued, rfl, rfl⟩ := Option.map_eq_some_iff.mp hallows
          simp [Custody.perform, Custody.completions, Effect.event, Effect.reply, Effect.command,
            admissions, EmissionEvent.admission]
      | _ => rfl
  | _ => rfl

omit [BatchedInferenceServer S Row Task] in
/-- An entry done: what it receives leaves the channel. -/
theorem Conserved.perform {serving next : Serving S Task} (hserving : serving.Conserved)
    {effect : Effect Task} {commands : List (Command Task)} {script : List (Effect Task)}
    (hrunning : serving.phase = .running) (hallows : serving.custody.Allows effect)
    (hcommands : serving.commands = effect.command.toList ++ commands)
    (hfresh : (serving.emission.registered.map Prod.fst ++
      admittedIds (serving.events ++ effect.event.toList)).Nodup)
    (hnext : next = Serving.perform { serving with commands } effect script) :
    next.Conserved := by
  subst hnext
  constructor
  case nodup => exact hserving.nodup
  case perm =>
    refine List.perm_iff_count.mpr fun completion => ?_
    have hcount := hserving.count_eq completion
    have hmoved := count_custody_perform hallows completion
    rw [count_owners, hcommands, List.filterMap_append, List.count_append] at hcount
    rw [count_owners]
    simp only [Serving.perform, admissions_append, List.map_append, List.count_append]
    omega
  case fresh => exact hfresh
  case exited =>
    intro hexited
    simp [Serving.perform, hrunning] at hexited

omit [BatchedInferenceServer S Row Task] in
/-- The emission thread does something about one event. -/
theorem Conserved.receive {serving : Serving S Task} (hserving : serving.Conserved)
    {event : EmissionEvent} {events : List EmissionEvent} {emission : Emission}
    (hevents : admissions serving.events = event.admission.toList ++ admissions events)
    (hreceipt : serving.emission.Receipt event emission) :
    Conserved { serving with events, emission } := by
  have hfresh := hserving.fresh
  rw [admittedIds, hevents, List.map_append] at hfresh
  constructor
  case nodup => exact hserving.nodup
  case perm =>
    refine List.perm_iff_count.mpr fun completion => ?_
    have hcount := hserving.count_eq completion
    rw [count_owners, hevents, List.map_append, List.count_append] at hcount
    rw [count_owners]
    cases hreceipt with
    | register id emitter detok given _ hregistered hcompleted =>
        rw [hregistered, hcompleted]
        simp [EmissionEvent.admission, List.count_cons] at hcount ⊢
        omega
    | settle id reply before given after _ hregistered hsettled hcompleted =>
        rw [hregistered] at hcount
        rw [hsettled, hcompleted]
        simp [EmissionEvent.admission, List.count_cons, List.count_append] at hcount ⊢
        omega
    | ignore _ _ hadmission hgone hregistered hcompleted =>
        rw [hregistered, hcompleted]
        simp [hadmission] at hcount ⊢
        omega
  case fresh =>
    cases hreceipt with
    | register id emitter detok given _ hregistered hcompleted =>
        rw [hregistered]
        exact (List.perm_middle.nodup_iff.mp hfresh)
    | settle id reply before given after _ hregistered hsettled hcompleted =>
        rw [hregistered] at hfresh
        rw [hsettled]
        refine hfresh.sublist (List.Sublist.append ?_ ?_)
        · exact (List.Sublist.append_left (List.sublist_cons_self _ _) _).map _
        · exact List.Sublist.refl _
    | ignore _ _ hadmission hgone hregistered hcompleted =>
        rw [hregistered]
        rw [hadmission] at hfresh
        exact hfresh
  case exited => exact hserving.exited

/-! ## The parties agree -/

/-- The table of deliveries is what the emission thread has heard. -/
structure Heard (emission : Emission) (heard : List EmissionEvent) : Prop where
  registered : ∀ entry ∈ emission.registered, entry ∈ admissions heard
  unretired : ∀ entry ∈ emission.registered, entry.1 ∉ retiredIds heard
  served : ∀ entry ∈ admissions heard,
    entry ∈ emission.registered ∨ entry.2 ∈ emission.completed

omit [BatchedInferenceServer S Row Task] in
theorem Heard.receive {emission next : Emission} {heard : List EmissionEvent}
    {event : EmissionEvent} (hheard : Heard emission heard)
    (hreceipt : emission.Receipt event next)
    (hnodup : (emission.registered.map Prod.fst).Nodup)
    (hfresh : ∀ id completion, event.admission = some (id, completion) → id ∉ retiredIds heard) :
    Heard next (heard ++ [event]) := by
  cases hreceipt with
  | register id emitter detok completion _ hregistered hcompleted =>
      have hadmissions : admissions (heard ++ [.admitted id emitter detok completion]) =
          admissions heard ++ [(id, completion)] := admissions_append _ _
      have hretired : retiredIds (heard ++ [.admitted id emitter detok completion]) =
          retiredIds heard := (retiredIds_append _ _).trans (List.append_nil _)
      constructor
      case registered =>
        intro entry hentry
        rw [hregistered, List.mem_cons] at hentry
        rw [hadmissions, List.mem_append, List.mem_singleton]
        exact hentry.symm.imp_left (hheard.registered entry)
      case unretired =>
        intro entry hentry
        rw [hregistered, List.mem_cons] at hentry
        rw [hretired]
        rcases hentry with rfl | hentry
        · exact hfresh id completion rfl
        · exact hheard.unretired entry hentry
      case served =>
        intro entry hentry
        rw [hadmissions, List.mem_append, List.mem_singleton] at hentry
        rw [hregistered, hcompleted, List.mem_cons]
        rcases hentry with hentry | rfl
        · exact (hheard.served entry hentry).imp_left Or.inr
        · exact Or.inl (Or.inl rfl)
  | settle id reply before completion after _ hregistered hsettled hcompleted =>
      have hadmissions : admissions (heard ++ [.retire id reply]) = admissions heard :=
        (admissions_append _ _).trans (List.append_nil _)
      have hretired : retiredIds (heard ++ [.retire id reply]) = retiredIds heard ++ [id] :=
        retiredIds_append _ _
      rw [hregistered, List.map_append, List.map_cons, List.nodup_middle, List.nodup_cons,
        ← List.map_append] at hnodup
      have hold : ∀ entry ∈ before ++ after, entry ∈ emission.registered := by
        intro entry hentry
        rw [hregistered]
        exact (List.sublist_cons_self _ _).append_left before |>.subset hentry
      constructor
      case registered =>
        intro entry hentry
        rw [hsettled] at hentry
        rw [hadmissions]
        exact hheard.registered entry (hold entry hentry)
      case unretired =>
        intro entry hentry
        rw [hsettled] at hentry
        rw [hretired, List.mem_append, List.mem_singleton, not_or]
        exact ⟨hheard.unretired entry (hold entry hentry), fun hid =>
          hnodup.1 (List.mem_map.mpr ⟨entry, hentry, hid⟩)⟩
      case served =>
        intro entry hentry
        rw [hadmissions] at hentry
        rw [hsettled, hcompleted, @List.mem_append _ entry.2]
        rcases hheard.served entry hentry with hlive | hdone
        · rw [hregistered] at hlive
          rcases List.mem_cons.mp (List.perm_middle.mem_iff.mp hlive) with rfl | hlive
          · exact Or.inr (Or.inr (List.mem_singleton_self _))
          · exact Or.inl hlive
        · exact Or.inr (Or.inl hdone)
  | ignore _ _ hadmission hgone hregistered hcompleted =>
      have hadmissions : admissions (heard ++ [event]) = admissions heard := by
        rw [admissions_append]
        simp [admissions, hadmission]
      constructor
      case registered =>
        rw [hregistered, hadmissions]
        exact hheard.registered
      case unretired =>
        intro entry hentry
        rw [hregistered] at hentry
        rw [retiredIds_append, List.mem_append, not_or]
        refine ⟨hheard.unretired entry hentry, fun hmem => ?_⟩
        obtain ⟨found, hfound, hid⟩ := List.mem_map.mp hmem
        obtain ⟨other, hother, hretirement⟩ := List.mem_filterMap.mp hfound
        obtain rfl := List.mem_singleton.mp hother
        exact hgone found.1 found.2 hretirement (hid ▸ List.mem_map_of_mem hentry)
      case served =>
        rw [hregistered, hcompleted, hadmissions]
        exact hheard.served

/-- While the worker runs, what it holds, what it has still to do, what is on its
way and what has arrived add up to its log. -/
structure Synced (serving : Serving S Task) : Prop where
  accounted : serving.worker.Accounted
  between : serving.worker.Between
  undropped : serving.dropped = []
  heard : ∃ heard, Heard serving.emission heard ∧
    sentEvents serving.worker.log = heard ++ (serving.events ++ sentEvents serving.script)
  replays : serving.custody.Replays serving.script serving.worker.custody

/-- What every step keeps. -/
structure Sound (serving : Serving S Task) : Prop where
  conserved : serving.Conserved
  synced : serving.phase = .running → serving.Synced

theorem sentEvents_cons (effect : Effect Task) (effects : List (Effect Task)) :
    sentEvents (effect :: effects) = effect.event.toList ++ sentEvents effects := by
  unfold sentEvents
  rw [List.filterMap_cons]
  cases effect.event <;> rfl

omit [BatchedInferenceServer S Row Task] in
theorem Synced.nodup {serving : Serving S Task} (hsynced : serving.Synced) :
    (admittedIds (sentEvents serving.worker.log)).Nodup := by
  rw [hsynced.accounted.admittedIds_eq]
  exact hsynced.accounted.assigned_nodup

omit [BatchedInferenceServer S Row Task] in
theorem Sound.perform {serving next : Serving S Task} (hserving : serving.Sound)
    {effect : Effect Task} {commands : List (Command Task)} {script : List (Effect Task)}
    (hrunning : serving.phase = .running) (hscript : serving.script = effect :: script)
    (hcommands : serving.commands = effect.command.toList ++ commands)
    (hnext : next = Serving.perform { serving with commands } effect script) : next.Sound := by
  have hsynced := hserving.synced hrunning
  obtain ⟨heard, hheard, hlog⟩ := hsynced.heard
  have hreplays := hsynced.replays
  rw [hscript] at hreplays
  rw [hscript, sentEvents_cons, ← List.append_assoc serving.events] at hlog
  have hnodup := hsynced.nodup
  rw [hlog, admittedIds_append, admittedIds_append, List.nodup_append] at hnodup
  refine ⟨hserving.conserved.perform hrunning hreplays.1 hcommands ?_ hnext, fun _ => ?_⟩
  · rw [List.nodup_append]
    refine ⟨(List.nodup_append.mp hserving.conserved.fresh).1,
      (List.nodup_append.mp hnodup.2.1).1, fun id hid other hother => ?_⟩
    obtain ⟨entry, hentry, rfl⟩ := List.mem_map.mp hid
    exact hnodup.2.2 _ (List.mem_map_of_mem (hheard.registered entry hentry)) other
      (List.mem_append_left _ hother)
  · subst hnext
    exact ⟨hsynced.accounted, hsynced.between, hsynced.undropped, ⟨heard, hheard, hlog⟩,
      hreplays.2⟩

theorem Sound.turn {serving : Serving S Task} (hserving : serving.Sound) (env : TurnEnv Task)
    (hrunning : serving.phase = .running) (hdone : serving.script = []) :
    Sound { serving with
      worker := (serving.worker.turn env).2
      script := (serving.worker.turn env).2.log.drop serving.worker.log.length
      flow := (serving.worker.turn env).1 } := by
  have hsynced := hserving.synced hrunning
  obtain ⟨heard, hheard, hlog⟩ := hsynced.heard
  have hcustody : serving.custody = serving.worker.custody := by
    have hreplays := hsynced.replays
    rwa [hdone] at hreplays
  obtain ⟨effects, heffects, hreplays⟩ := Worker.turn_logged env serving.worker
  refine ⟨⟨hserving.conserved.nodup, hserving.conserved.perm, hserving.conserved.fresh,
    hserving.conserved.exited⟩, fun _ => ⟨hsynced.accounted.turn env, hsynced.between.turn env,
      hsynced.undropped, ⟨heard, hheard, ?_⟩, ?_⟩⟩
  · rw [hdone] at hlog
    rw [heffects, List.drop_left, sentEvents_append, hlog]
    simp [sentEvents]
  · rw [heffects, List.drop_left, hcustody]
    exact hreplays

omit [BatchedInferenceServer S Row Task] in
/-- An event handed over is news to the emission thread. -/
theorem Sound.emit {serving : Serving S Task} (hserving : serving.Sound) {event : EmissionEvent}
    {events : List EmissionEvent} (hevents : serving.events = event :: events) :
    Sound { serving with events, emission := serving.emission.receive event } := by
  have hkeys := hserving.conserved.fresh
  rw [hevents] at hkeys
  have hadmissions : admissions (event :: events) = event.admission.toList ++ admissions events := by
    unfold admissions
    rw [List.filterMap_cons]
    cases event.admission <;> rfl
  have hreceipt := serving.emission.receive_receipt event fun id completion hadmission hmem => by
    refine (List.nodup_append.mp hkeys).2.2 id hmem id ?_ rfl
    rw [admittedIds, hadmissions, hadmission]
    exact List.mem_cons_self
  refine ⟨hserving.conserved.receive (by rw [hevents, hadmissions]) hreceipt, fun hrunning => ?_⟩
  have hsynced := hserving.synced hrunning
  obtain ⟨heard, hheard, hlog⟩ := hsynced.heard
  rw [hevents, List.cons_append] at hlog
  refine ⟨hsynced.accounted, hsynced.between, hsynced.undropped, ⟨heard ++ [event], ?_, ?_⟩,
    hsynced.replays⟩
  · refine hheard.receive hreceipt (List.nodup_append.mp hkeys).1 fun id completion hadmission hid =>
      ?_
    -- nobody is retired before being handed over, and nobody is handed over twice
    have hearly := hsynced.accounted.retired_admitted heard (hlog ▸ List.prefix_append _ _) id hid
    have hnodup := hsynced.nodup
    rw [hlog, admittedIds_append] at hnodup
    refine (List.nodup_append.mp hnodup).2.2 id hearly id ?_ rfl
    refine List.mem_map.mpr ⟨(id, completion), List.mem_filterMap.mpr ⟨event, ?_, hadmission⟩, rfl⟩
    exact List.mem_cons_self
  · rw [hlog]
    simp

omit [BatchedInferenceServer S Row Task] in
/-- The thread may end wherever it is. -/
theorem Sound.exit {serving : Serving S Task} (hserving : serving.Sound) : serving.exit.Sound := by
  refine ⟨⟨hserving.conserved.nodup, List.perm_iff_count.mpr fun completion => ?_,
    hserving.conserved.fresh, fun _ => ⟨rfl, rfl⟩⟩, by simp [Serving.exit]⟩
  have hcount := hserving.conserved.count_eq completion
  rw [count_owners] at hcount ⊢
  simp [Serving.exit, Custody.completions, List.count_append] at hcount ⊢
  omega

omit [BatchedInferenceServer S Row Task] in
theorem Sound.panic {serving : Serving S Task} (hserving : serving.Sound) :
    serving.panic.Sound := by
  refine ⟨⟨hserving.conserved.nodup, List.perm_iff_count.mpr fun completion => ?_,
    hserving.conserved.fresh, by simp [Serving.panic]⟩, by simp [Serving.panic]⟩
  have hcount := hserving.conserved.count_eq completion
  rw [count_owners] at hcount ⊢
  simp [Serving.panic, Custody.completions, List.count_append] at hcount ⊢
  omega

/-- **Every step keeps it.** -/
theorem Sound.step {serving next : Serving S Task} (hserving : serving.Sound)
    (hstep : Step serving next) : next.Sound := by
  have hconserved := hserving.conserved
  cases hstep with
  | submit queued halive hfresh =>
      have hnodup : (serving.submitted ++ [queued.completion]).Nodup := by
        rw [← List.concat_eq_append, List.nodup_concat]
        exact ⟨hfresh, hconserved.nodup⟩
      refine ⟨⟨hnodup, List.perm_iff_count.mpr fun completion => ?_, hconserved.fresh,
        fun hexited => absurd hexited halive⟩, fun hrunning => ?_⟩
      · have hcount := hconserved.count_eq completion
        have hcommand : [Command.submit queued].filterMap Command.completion =
            [queued.completion] := rfl
        rw [count_owners] at hcount ⊢
        simp only [List.filterMap_append, List.count_append, hcommand]
        omega
      · have hsynced := hserving.synced hrunning
        exact ⟨hsynced.accounted, hsynced.between, hsynced.undropped, hsynced.heard,
          hsynced.replays⟩
  | send command halive hother =>
      refine ⟨⟨hconserved.nodup, List.perm_iff_count.mpr fun completion => ?_, hconserved.fresh,
        fun hexited => absurd hexited halive⟩, fun hrunning => ?_⟩
      · have hcount := hconserved.count_eq completion
        rw [count_owners] at hcount ⊢
        simpa [List.filterMap_append, hother] using hcount
      · have hsynced := hserving.synced hrunning
        exact ⟨hsynced.accounted, hsynced.between, hsynced.undropped, hsynced.heard,
          hsynced.replays⟩
  | turn env hrunning hdone hflow => exact hserving.turn env hrunning hdone
  | receive command commands script hrunning hscript hcommands =>
      exact hserving.perform hrunning hscript hcommands rfl
  | perform effect script hrunning hscript hother =>
      refine hserving.perform hrunning hscript ?_ rfl
      rw [hother]
      rfl
  | shutdown hrunning hdone hflow => exact hserving.exit
  | panic hrunning => exact hserving.panic
  | fail queued queue hfailing hqueue =>
      refine ⟨⟨hconserved.nodup, List.perm_iff_count.mpr fun completion => ?_, hconserved.fresh,
        by simp [hfailing]⟩, by simp [hfailing]⟩
      have hcount := hconserved.count_eq completion
      rw [count_owners] at hcount ⊢
      simp [Custody.completions, hqueue, List.count_append, List.count_cons] at hcount ⊢
      omega
  | exit hfailing hqueue => exact hserving.exit
  | emit event events hevents => exact hserving.emit hevents
  | abandon id hexited hevents hlive =>
      have hreceipt := serving.emission.receive_receipt (.retire id (.error .workerDied))
        (by simp [EmissionEvent.admission])
      refine ⟨hconserved.receive ?_ hreceipt, by simp [hexited]⟩
      simp [EmissionEvent.admission]

theorem sound_of_reachable {server : S} {serving : Serving S Task}
    (hreachable : Reachable server serving) : serving.Sound := by
  induction hreachable with
  | refl =>
      refine ⟨conserved_spawn server, fun _ => ⟨Worker.Accounted.spawn server, ?_, rfl,
        ⟨[], ?_, rfl⟩, rfl⟩⟩
      · exact fun _ hseq => absurd hseq List.not_mem_nil
      · constructor <;> simp [spawn, Emission.spawn, Emission.registered, admissions]
  | tail _ hstep ih => exact ih.step hstep

/-! ## Where a request is -/

/-- The places a request can be waiting in. -/
inductive Place
  | commandChannel
  | pendingQueue
  | activeSet
  | resumeList
  | retireInFlight
  deriving DecidableEq, Repr

/-- The worker gave this request this id. -/
def Given (serving : Serving S Task) (id completion : ℕ) : Prop :=
  ∃ queued, (id, queued) ∈ assignments serving.worker.log ∧ queued.completion = completion

/-- A request is in a place. -/
def HeldIn (serving : Serving S Task) (completion : ℕ) : Place → Prop
  | .commandChannel => completion ∈ serving.commands.filterMap Command.completion
  | .pendingQueue => completion ∈ serving.worker.queue.map QueuedJob.completion
  | .activeSet => ∃ seq ∈ serving.worker.active, serving.Given seq.extra.id completion
  | .resumeList => ∃ job ∈ serving.worker.resume, serving.Given job.extra.id completion
  | .retireInFlight => ∃ id ∈ retiredIds serving.events, serving.Given id completion

/-- Its delivery state belongs to the emission thread, or is on its way there. -/
def Registered (serving : Serving S Task) (completion : ℕ) : Prop :=
  completion ∈ serving.emission.registered.map Prod.snd ∨
    completion ∈ (admissions serving.events).map Prod.snd

/-- The worker is alive and between two turns. -/
def AtTurnBoundary (serving : Serving S Task) : Prop :=
  serving.phase = .running ∧ serving.script = []

/-- The worker is gone and both channels have drained. -/
def Over (serving : Serving S Task) : Prop :=
  serving.phase = .exited ∧ serving.events = [] ∧ serving.emission.live = []

/-- Between turns, and unanswered: what the parties hold of such a request. -/
structure Waiting (serving : Serving S Task) (completion : ℕ) : Prop where
  sound : serving.Sound
  boundary : serving.AtTurnBoundary
  submitted : completion ∈ serving.submitted
  unanswered : completion ∉ serving.answered

namespace Waiting

variable {serving : Serving S Task} {completion : ℕ}

omit [BatchedInferenceServer S Row Task]

theorem synced (hwaiting : serving.Waiting completion) : serving.Synced :=
  hwaiting.sound.synced hwaiting.boundary.1

theorem custody_eq (hwaiting : serving.Waiting completion) :
    serving.custody = serving.worker.custody := by
  have hreplays := hwaiting.synced.replays
  rwa [hwaiting.boundary.2] at hreplays

/-- The completion is in exactly one pair of hands. -/
theorem count_eq (hwaiting : serving.Waiting completion) :
    (serving.commands.filterMap Command.completion).count completion +
        (serving.worker.queue.map QueuedJob.completion).count completion +
        (((admissions serving.events).map Prod.snd).count completion +
          (serving.emission.registered.map Prod.snd).count completion) = 1 := by
  have hcount := hwaiting.sound.conserved.count_eq completion
  have hunanswered := List.count_eq_zero.mpr hwaiting.unanswered
  rw [answered, List.count_append] at hunanswered
  rw [count_owners, hwaiting.synced.undropped, hwaiting.custody_eq,
    List.count_eq_one_of_mem hwaiting.sound.conserved.nodup hwaiting.submitted] at hcount
  simp [Custody.completions, Worker.custody] at hcount
  omega

theorem registered_iff (hwaiting : serving.Waiting completion) :
    serving.Registered completion ↔
      ¬serving.HeldIn completion .commandChannel ∧ ¬serving.HeldIn completion .pendingQueue := by
  have hcount := hwaiting.count_eq
  simp only [Registered, HeldIn, ← List.count_pos_iff]
  omega

/-- Whoever has an id is registered under it. -/
theorem mem_of_given (hwaiting : serving.Waiting completion) {id : ℕ}
    (hgiven : serving.Given id completion) :
    (id, completion) ∈ serving.emission.registered ++ admissions serving.events := by
  obtain ⟨queued, hassigned, rfl⟩ := hgiven
  obtain ⟨heard, hheard, hlog⟩ := hwaiting.synced.heard
  have hadmitted : (id, queued.completion) ∈ admissions (sentEvents serving.worker.log) := by
    rw [hwaiting.synced.accounted.admitted]
    exact List.mem_map.mpr ⟨_, hassigned, rfl⟩
  rw [hlog, hwaiting.boundary.2, admissions_append, admissions_append, List.mem_append] at hadmitted
  rw [List.mem_append]
  rcases hadmitted with hadmitted | hadmitted
  · refine Or.inl ((hheard.served _ hadmitted).resolve_right fun hdone => ?_)
    exact hwaiting.unanswered (List.mem_append_left _ hdone)
  · exact Or.inr (by simpa [sentEvents, admissions] using hadmitted)

/-- Whoever is registered has an id. -/
theorem given_of_mem (hwaiting : serving.Waiting completion) {id : ℕ}
    (hmem : (id, completion) ∈ serving.emission.registered ++ admissions serving.events) :
    serving.Given id completion := by
  obtain ⟨heard, hheard, hlog⟩ := hwaiting.synced.heard
  have hadmitted : (id, completion) ∈ admissions (sentEvents serving.worker.log) := by
    rw [hlog, hwaiting.boundary.2, admissions_append, admissions_append]
    rcases List.mem_append.mp hmem with hmem | hmem
    · exact List.mem_append_left _ (hheard.registered _ hmem)
    · exact List.mem_append_right _ (List.mem_append_left _ hmem)
  rw [hwaiting.synced.accounted.admitted] at hadmitted
  obtain ⟨⟨_, queued⟩, hassigned, hentry⟩ := List.mem_map.mp hadmitted
  obtain ⟨rfl, rfl⟩ := Prod.mk.inj hentry
  exact ⟨queued, hassigned, rfl⟩

/-- A request has one id. -/
theorem given_inj (hwaiting : serving.Waiting completion) {first second : ℕ}
    (hfirst : serving.Given first completion) (hsecond : serving.Given second completion) :
    first = second := by
  have hcount := hwaiting.count_eq
  have honce : ((serving.emission.registered ++ admissions serving.events).map Prod.snd).count
      completion ≤ 1 := by
    rw [List.map_append, List.count_append]
    omega
  exact (Prod.mk.inj (eq_of_count_map_le_one honce (hwaiting.mem_of_given hfirst)
    (hwaiting.mem_of_given hsecond) rfl rfl)).1

/-- Whoever has an id left channel and queue. -/
theorem left_of_given (hwaiting : serving.Waiting completion) {id : ℕ}
    (hgiven : serving.Given id completion) :
    ¬serving.HeldIn completion .commandChannel ∧ ¬serving.HeldIn completion .pendingQueue := by
  rw [← hwaiting.registered_iff]
  rcases List.mem_append.mp (hwaiting.mem_of_given hgiven) with hmem | hmem
  · exact Or.inl (List.mem_map_of_mem hmem)
  · exact Or.inr (List.mem_map_of_mem hmem)

/-- The retirement of a request still waiting is still on its way. -/
theorem retired_in_flight (hwaiting : serving.Waiting completion) {id : ℕ}
    (hgiven : serving.Given id completion)
    (hretired : id ∈ retiredIds (sentEvents serving.worker.log)) :
    id ∈ retiredIds serving.events := by
  obtain ⟨heard, hheard, hlog⟩ := hwaiting.synced.heard
  have hnodup := hwaiting.synced.nodup
  rw [hlog, admittedIds_append, admittedIds_append] at hnodup
  rw [hlog, hwaiting.boundary.2, retiredIds_append, retiredIds_append, List.mem_append,
    List.mem_append] at hretired
  rcases hretired with hretired | hretired | hretired
  · exfalso
    rcases List.mem_append.mp (hwaiting.mem_of_given hgiven) with hmem | hmem
    · exact hheard.unretired _ hmem hretired
    · have hearly := hwaiting.synced.accounted.retired_admitted heard
        (hlog ▸ List.prefix_append _ _) id hretired
      exact (List.nodup_append.mp hnodup).2.2 id hearly id
        (List.mem_append_left _ (List.mem_map_of_mem hmem)) rfl
  · exact hretired
  · exact absurd hretired List.not_mem_nil

theorem pending_of_active (hwaiting : serving.Waiting completion) {seq : JobSeq}
    (hseq : seq ∈ serving.worker.active) : serving.worker.Pending seq.extra.id :=
  Or.inl ⟨seq, hseq, hwaiting.synced.between seq hseq, rfl⟩

/-- What is in flight has no retirement on its way. -/
theorem not_retired (hwaiting : serving.Waiting completion) {id : ℕ}
    (hpending : serving.worker.Pending id) : id ∉ retiredIds serving.events := by
  obtain ⟨heard, _, hlog⟩ := hwaiting.synced.heard
  have hunretired := hwaiting.synced.accounted.unretired id hpending
  rw [hlog, retiredIds_append, retiredIds_append, List.mem_append, List.mem_append] at hunretired
  exact fun hmem => hunretired (Or.inr (Or.inl hmem))

theorem exists_place (hwaiting : serving.Waiting completion) :
    ∃ place, serving.HeldIn completion place := by
  by_cases hregistered : serving.Registered completion
  · obtain ⟨id, hmem⟩ : ∃ id, (id, completion) ∈
        serving.emission.registered ++ admissions serving.events := by
      rcases hregistered with hmem | hmem
      · obtain ⟨⟨id, _⟩, hentry, rfl⟩ := List.mem_map.mp hmem
        exact ⟨id, List.mem_append_left _ hentry⟩
      · obtain ⟨⟨id, _⟩, hentry, rfl⟩ := List.mem_map.mp hmem
        exact ⟨id, List.mem_append_right _ hentry⟩
    have hgiven := hwaiting.given_of_mem hmem
    have hassigned : id ∈ assignedIds serving.worker.log := by
      obtain ⟨queued, hassigned, _⟩ := hgiven
      exact List.mem_map_of_mem hassigned
    rcases hwaiting.synced.accounted.resolved id hassigned with
      hlive | hretired
    · rcases List.mem_append.mp hlive with hlive | hlive
      · obtain ⟨seq, hseq, rfl⟩ := List.mem_map.mp hlive
        exact ⟨.activeSet, seq, hseq, hgiven⟩
      · obtain ⟨job, hjob, rfl⟩ := List.mem_map.mp hlive
        exact ⟨.resumeList, job, hjob, hgiven⟩
    · exact ⟨.retireInFlight, id, hwaiting.retired_in_flight hgiven hretired, hgiven⟩
  · rw [hwaiting.registered_iff, not_and_or, not_not, not_not] at hregistered
    rcases hregistered with hchannel | hqueue
    · exact ⟨.commandChannel, hchannel⟩
    · exact ⟨.pendingQueue, hqueue⟩

/-- Which ids a place after the queue holds a request under. -/
def idsIn (serving : Serving S Task) : Place → List ℕ
  | .activeSet => serving.worker.active.map fun seq => seq.extra.id
  | .resumeList => serving.worker.resume.map fun job => job.extra.id
  | .retireInFlight => retiredIds serving.events
  | _ => []

theorem given_of_heldIn {place : Place} (hplace : serving.HeldIn completion place)
    (hchannel : place ≠ .commandChannel) (hqueue : place ≠ .pendingQueue) :
    ∃ id ∈ idsIn serving place, serving.Given id completion := by
  cases place with
  | commandChannel => exact absurd rfl hchannel
  | pendingQueue => exact absurd rfl hqueue
  | activeSet =>
      obtain ⟨seq, hseq, hgiven⟩ := hplace
      exact ⟨_, List.mem_map_of_mem hseq, hgiven⟩
  | resumeList =>
      obtain ⟨job, hjob, hgiven⟩ := hplace
      exact ⟨_, List.mem_map_of_mem hjob, hgiven⟩
  | retireInFlight => exact hplace

/-- No id is in two places. -/
theorem place_of_id (hwaiting : serving.Waiting completion) {id : ℕ} {first second : Place}
    (hfirst : id ∈ idsIn serving first) (hsecond : id ∈ idsIn serving second) : first = second := by
  have hapart : ∀ id, id ∈ idsIn serving .activeSet → id ∉ idsIn serving .resumeList := by
    intro id hactive hresume
    exact (List.nodup_append.mp hwaiting.synced.accounted.nodup).2.2 id hactive id hresume rfl
  have hpending : ∀ id, id ∈ idsIn serving .activeSet ∨ id ∈ idsIn serving .resumeList →
      id ∉ idsIn serving .retireInFlight := by
    rintro id (hactive | hresume)
    · obtain ⟨seq, hseq, rfl⟩ := List.mem_map.mp hactive
      exact hwaiting.not_retired (hwaiting.pending_of_active hseq)
    · obtain ⟨job, hjob, rfl⟩ := List.mem_map.mp hresume
      exact hwaiting.not_retired (Or.inr ⟨job, hjob, rfl⟩)
  cases first <;> cases second <;> try rfl
  all_goals first
    | exact absurd hfirst List.not_mem_nil
    | exact absurd hsecond List.not_mem_nil
    | exact absurd hsecond (hapart id hfirst)
    | exact absurd hfirst (hapart id hsecond)
    | exact absurd hsecond (hpending id (Or.inl hfirst))
    | exact absurd hfirst (hpending id (Or.inl hsecond))
    | exact absurd hsecond (hpending id (Or.inr hfirst))
    | exact absurd hfirst (hpending id (Or.inr hsecond))

theorem place_unique (hwaiting : serving.Waiting completion) {first second : Place}
    (hfirst : serving.HeldIn completion first) (hsecond : serving.HeldIn completion second) :
    first = second := by
  have hleft : ∀ {place other : Place}, serving.HeldIn completion place →
      serving.HeldIn completion other → place ≠ .commandChannel → place ≠ .pendingQueue →
      other ≠ .commandChannel ∧ other ≠ .pendingQueue := by
    intro place other hplace hother hchannel hqueue
    obtain ⟨id, _, hgiven⟩ := given_of_heldIn hplace hchannel hqueue
    obtain ⟨hnochannel, hnoqueue⟩ := hwaiting.left_of_given hgiven
    exact ⟨fun hsame => hnochannel (hsame ▸ hother), fun hsame => hnoqueue (hsame ▸ hother)⟩
  have hboth : ¬(serving.HeldIn completion .commandChannel ∧
      serving.HeldIn completion .pendingQueue) := by
    have hcount := hwaiting.count_eq
    simp only [HeldIn, ← List.count_pos_iff]
    omega
  by_cases hqueued : first = .commandChannel ∨ first = .pendingQueue
  · by_cases hqueued' : second = .commandChannel ∨ second = .pendingQueue
    · rcases hqueued with rfl | rfl <;> rcases hqueued' with rfl | rfl
      · rfl
      · exact absurd ⟨hfirst, hsecond⟩ hboth
      · exact absurd ⟨hsecond, hfirst⟩ hboth
      · rfl
    · rw [not_or] at hqueued'
      obtain ⟨hchannel, hqueue⟩ := hleft hsecond hfirst hqueued'.1 hqueued'.2
      exact (hqueued.elim hchannel hqueue).elim
  · rw [not_or] at hqueued
    obtain ⟨hchannel, hqueue⟩ := hleft hfirst hsecond hqueued.1 hqueued.2
    obtain ⟨id, hid, hgiven⟩ := given_of_heldIn hfirst hqueued.1 hqueued.2
    obtain ⟨id', hid', hgiven'⟩ := given_of_heldIn hsecond hchannel hqueue
    obtain rfl := hwaiting.given_inj hgiven hgiven'
    exact hwaiting.place_of_id hid hid'

end Waiting

/-- **Exactly-once resolution.** No completion is answered twice; between turns of a
live worker every unanswered request is in one place, registered exactly when it has
left channel and queue; and when all is over every request was answered once or its
completion was dropped without an answer. -/
theorem exactly_once {server : S} {serving : Serving S Task}
    (hreachable : Reachable server serving) :
    (∀ completion, serving.answered.count completion ≤ 1) ∧
    (serving.AtTurnBoundary → ∀ completion ∈ serving.submitted, completion ∉ serving.answered →
      (∃! place, serving.HeldIn completion place) ∧
        (serving.Registered completion ↔ ¬serving.HeldIn completion .commandChannel ∧
          ¬serving.HeldIn completion .pendingQueue)) ∧
    (serving.Over → ∀ completion ∈ serving.submitted,
      (serving.answered.count completion = 1 ∧ completion ∉ serving.dropped) ∨
        (completion ∉ serving.answered ∧ serving.dropped.count completion = 1)) := by
  have hsound := sound_of_reachable hreachable
  refine ⟨fun completion => ?_, fun hboundary completion hsubmitted hunanswered => ?_,
    fun hover completion hsubmitted => ?_⟩
  · have hcount := hsound.conserved.count_eq completion
    have honce := List.nodup_iff_count_le_one.mp hsound.conserved.nodup completion
    rw [owners, List.count_append, List.count_append] at hcount
    omega
  · have hwaiting : serving.Waiting completion := ⟨hsound, hboundary, hsubmitted, hunanswered⟩
    obtain ⟨place, hplace⟩ := hwaiting.exists_place
    exact ⟨⟨place, hplace, fun other hother => hwaiting.place_unique hother hplace⟩,
      hwaiting.registered_iff⟩
  · obtain ⟨hexited, hevents, hlive⟩ := hover
    obtain ⟨hcommands, hcustody⟩ := hsound.conserved.exited hexited
    have hcount := hsound.conserved.count_eq completion
    rw [List.count_eq_one_of_mem hsound.conserved.nodup hsubmitted, owners, hcommands, hcustody,
      hevents, Emission.registered, hlive] at hcount
    simp only [List.filterMap_nil, Custody.completions, List.map_nil, Option.toList_none,
      List.append_nil, List.nil_append, admissions, List.count_append] at hcount
    rw [← List.count_eq_zero, ← List.count_eq_zero]
    omega

/-- The worker panics right after handing a job over: when all is over, the emission
thread has answered it. -/
theorem exactly_once_after_panic :
    let config : RecallConfig :=
      { capacity := ⟨1, ⟨1, 4⟩⟩
        admission := .reserve
        chunkSize := 0
        tokenBudget := 0
        contextLen := 100
        stops := []
        generationCap := 10
        next := fun tokens => tokens.getLastD 0 }
    ∃ serving : Serving (RecallServer config) (List Token),
      Reachable .fresh serving ∧ serving.Over ∧ serving.answered.count 5 = 1 := by
  intro config
  let queued : QueuedJob (List Token) := ⟨⟨[7], 5, some 1, 5⟩, 5, 0⟩
  let log : List (Effect (List Token)) :=
    (Worker.turn (.taking [.submit queued]) (.spawn (.fresh : RecallServer config))).2.log
  have hspawn : Reachable (.fresh : RecallServer config) (spawn .fresh) := .refl
  have hsubmitted := hspawn.tail (.submit queued (by decide) (by decide))
  have hturn := hsubmitted.tail (.turn (.taking [.submit queued]) rfl rfl rfl)
  have hreceived := hturn.tail
    (.receive (.submit queued) [] (log.drop 1) rfl (by decide +kernel) rfl)
  have hdequeued := hreceived.tail
    (.perform (.dequeued queued) (log.drop 2) rfl (by decide +kernel) rfl)
  have hassigned := hdequeued.tail
    (.perform (.assigned 0 queued) (log.drop 3) rfl (by decide +kernel) rfl)
  have hadmitted := hassigned.tail
    (.perform (.sent (.admitted 0 5 .new 5)) (log.drop 4) rfl (by decide +kernel) rfl)
  have hexited := (hadmitted.tail (.panic rfl)).tail (.exit rfl rfl)
  have hover := (hexited.tail (.emit (.admitted 0 5 .new 5) [] rfl)).tail
    (.abandon 0 rfl rfl (by decide))
  refine ⟨_, hover, ⟨rfl, rfl, rfl⟩, ?_⟩
  rcases (exactly_once hover).2.2 ⟨rfl, rfl, rfl⟩ 5 (by decide) with ⟨hanswered, _⟩ | ⟨_, hdropped⟩
  · exact hanswered
  · exact absurd hdropped (by decide)

end Serving

end BurnLm.Inference
