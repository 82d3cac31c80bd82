/-
# Whose job it is

A job the worker has received is in its queue until the worker takes it out; then
it is in hand until it is answered or handed over. This module replays a log on
queue and hand and shows that a worker's log is always such a replay: what leaves
the queue is its front, and whatever is answered or handed over is what is in
hand. So a log may stop anywhere and it is still known whose job every job is.
-/

import BurnLm.Inference.Journal

namespace BurnLm.Inference

open Relation (ReflTransGen)

universe u v w

/-- The jobs the worker thread owns: its queue, and the one it has taken out. -/
structure Custody (Task : Type w) where
  queue : List (QueuedJob Task)
  hand : Option (QueuedJob Task)

namespace Custody

variable {Task : Type w}

/-- What a log entry does with them. -/
def perform (custody : Custody Task) : Effect Task → Custody Task
  | .received (.submit queued) => { custody with queue := custody.queue ++ [queued] }
  | .dequeued queued => ⟨custody.queue.tail, some queued⟩
  | .replied _ _ => { custody with hand := none }
  | .sent (.admitted _ _ _ _) => { custody with hand := none }
  | _ => custody

/-- What they must be for it. -/
def Allows (custody : Custody Task) : Effect Task → Prop
  | .dequeued queued => custody.hand = none ∧ custody.queue.head? = some queued
  | .replied completion _ => custody.hand.map QueuedJob.completion = some completion
  | .sent (.admitted _ _ _ completion) => custody.hand.map QueuedJob.completion = some completion
  | _ => True

/-- A log replays from one custody to another. -/
def Replays : Custody Task → List (Effect Task) → Custody Task → Prop
  | custody, [], last => custody = last
  | custody, effect :: effects, last =>
    custody.Allows effect ∧ (custody.perform effect).Replays effects last

theorem Replays.append {first second third : Custody Task} {effects more : List (Effect Task)}
    (hfirst : first.Replays effects second) (hsecond : second.Replays more third) :
    first.Replays (effects ++ more) third := by
  induction effects generalizing first with
  | nil =>
      obtain rfl := hfirst
      exact hsecond
  | cons effect effects ih => exact ⟨hfirst.1, ih hfirst.2⟩

/-- A log entry that moves no job. -/
def Neutral (effect : Effect Task) : Prop :=
  ∀ custody : Custody Task, custody.Allows effect ∧ custody.perform effect = custody

theorem replays_of_neutral (custody : Custody Task) {effects : List (Effect Task)}
    (hneutral : ∀ effect ∈ effects, Neutral effect) : custody.Replays effects custody := by
  induction effects with
  | nil => rfl
  | cons effect effects ih =>
      rw [List.forall_mem_cons] at hneutral
      obtain ⟨hallows, hperform⟩ := hneutral.1 custody
      exact ⟨hallows, hperform.symm ▸ ih hneutral.2⟩

theorem neutral_of_isAnswer {effect : Effect Task} (hanswer : effect.isAnswer = true) :
    Neutral effect := by
  cases effect <;> first | exact fun _ => ⟨trivial, rfl⟩ | simp [Effect.isAnswer] at hanswer

theorem neutral_roundEffects (entries : List (Entry JobMeta)) :
    ∀ effect ∈ (roundEffects entries : List (Effect Task)), Neutral effect := by
  intro effect heffect
  obtain ⟨entry, _, heffect⟩ := List.mem_flatMap.mp heffect
  unfold Worker.outcomeEffects at heffect
  split at heffect <;> simp at heffect
  · rcases heffect with rfl | rfl
    · exact fun _ => ⟨trivial, rfl⟩
    · exact fun _ => ⟨trivial, rfl⟩
  · subst heffect
    exact fun _ => ⟨trivial, rfl⟩

theorem neutral_shipment (batch : List (ℕ × List UInt8)) :
    ∀ effect ∈ (Worker.shipment batch : List (Effect Task)), Neutral effect := by
  unfold Worker.shipment
  split
  · simp
  · intro effect heffect
    obtain rfl := List.mem_singleton.mp heffect
    exact fun _ => ⟨trivial, rfl⟩

theorem neutral_retirements (seqs : List JobSeq) (reply : JobSeq → InferenceResult Stats) :
    ∀ effect ∈ seqs.map fun seq =>
      (Effect.sent (.retire seq.extra.id (reply seq)) : Effect Task), Neutral effect := by
  intro effect heffect
  obtain ⟨seq, _, rfl⟩ := List.mem_map.mp heffect
  exact fun _ => ⟨trivial, rfl⟩

end Custody

namespace Worker

variable {S : Type u} {Row : Type v} {Task : Type w}

/-- What a worker owns between log entries that move a job. -/
def custody (worker : Worker S Task) : Custody Task := ⟨worker.queue, none⟩

/-- What was logged on the way is a replay. -/
def Logged (worker next : Worker S Task) : Prop :=
  ∃ effects, next.log = worker.log ++ effects ∧ worker.custody.Replays effects next.custody

theorem Logged.quiet {worker next : Worker S Task} (hlog : next.log = worker.log)
    (hqueue : next.queue = worker.queue) : worker.Logged next :=
  ⟨[], by rw [hlog, List.append_nil], by rw [Custody.Replays, custody, custody, hqueue]⟩

theorem Logged.neutral {worker next : Worker S Task} {effects : List (Effect Task)}
    (hlog : next.log = worker.log ++ effects) (hqueue : next.queue = worker.queue)
    (hneutral : ∀ effect ∈ effects, Custody.Neutral effect) : worker.Logged next := by
  have hcustody : next.custody = worker.custody := by rw [custody, custody, hqueue]
  exact ⟨effects, hlog, hcustody ▸ Custody.replays_of_neutral _ hneutral⟩

theorem Logged.trans {first second third : Worker S Task} (hfirst : first.Logged second)
    (hsecond : second.Logged third) : first.Logged third := by
  obtain ⟨effects, hlog, hreplays⟩ := hfirst
  obtain ⟨more, hlog', hreplays'⟩ := hsecond
  exact ⟨effects ++ more, by rw [hlog', hlog, List.append_assoc], hreplays.append hreplays'⟩

variable [BatchedInferenceServer S Row Task]

theorem command_logged (worker : Worker S Task) (command : Command Task) :
    worker.Logged ((worker.emit [.received command]).handleCommand command).2 := by
  rcases handleCommand_cases (worker.emit [.received command]) command with
    ⟨queued, rfl, hcase⟩ | ⟨rfl, hcase⟩ | ⟨hserved, server, effects, hcase, hanswers, _⟩ <;>
    rw [hcase]
  · exact ⟨[.received (.submit queued)], rfl, trivial, rfl⟩
  · exact ⟨[.received .shutdown], rfl, trivial, rfl⟩
  · have hreceived : Custody.Neutral (.received command : Effect Task) := by
      intro custody
      cases command <;> first | exact ⟨trivial, rfl⟩ | simp [Command.isServed] at hserved
    have hlog : (emit { worker.emit [.received command] with server } effects).log =
        worker.log ++ .received command :: effects := by
      simp [emit]
    exact .neutral hlog rfl (List.forall_mem_cons.mpr ⟨hreceived, fun effect heffect =>
      Custody.neutral_of_isAnswer (hanswers effect heffect)⟩)

theorem admission_logged {env : TurnEnv Task} {worker next : Worker S Task}
    (hadmission : Admission env worker next) : worker.Logged next := by
  cases hadmission with
  | borrow => exact .quiet rfl rfl
  | resume => exact .quiet rfl rfl
  | reject front rest error hqueue =>
      refine ⟨_, rfl, ?_⟩
      rw [custody, hqueue]
      exact ⟨⟨rfl, rfl⟩, rfl, rfl⟩
  | start front rest tokens maxGen guaranteed slot hqueue =>
      refine ⟨_, rfl, ?_⟩
      rw [custody, hqueue]
      exact ⟨⟨rfl, rfl⟩, trivial, rfl, rfl⟩

/-- **A move logs a replay.** -/
theorem Move.logged {env : TurnEnv Task} {worker next : Worker S Task}
    (hmove : Move env worker next) : worker.Logged next := by
  cases hmove with
  | command given hgiven => exact command_logged worker given
  | admission hadmission => exact admission_logged hadmission
  | sweep => exact .quiet rfl rfl
  | regrowth measured hregrowth => cases hregrowth <;> exact .quiet rfl rfl
  | round configured hborrowed hcovered =>
      obtain ⟨entries, batch, _, _, hlog⟩ :=
        runRound_log configured { worker with server := (decoder worker.server).2 }
      refine .neutral hlog rfl fun effect heffect => ?_
      rcases List.mem_append.mp heffect with heffect | heffect
      · exact Custody.neutral_roundEffects entries effect heffect
      · exact Custody.neutral_shipment batch effect heffect
  | retire => exact .neutral rfl rfl (Custody.neutral_retirements _ _)
  | fail error hrefused => exact .neutral rfl rfl (Custody.neutral_retirements _ _)

theorem turn_logged (env : TurnEnv Task) (worker : Worker S Task) :
    worker.Logged (worker.turn env).2 :=
  (turn_moves env worker).induction (fun _ _ hbefore hmove => hbefore.trans hmove.logged)
    (.quiet rfl rfl)

end Worker

end BurnLm.Inference
