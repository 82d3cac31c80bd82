/-
# Nobody waits for ever

The handler, the listener and the blocking task wait for each other and for places
in one small stream. They cannot lock each other up: as long as the client reads, or
once it has left, somebody can go on, unless the model is still loading or the
engine has not replied; and what they do by themselves comes to an end. So a reply
of the engine is all it takes for the response to be over, and a client that leaves
meanwhile has its job cancelled.

A panic of the engine does as well as a reply, with one difference: the listener then
ends with the last sender, and stays while the engine keeps its emitter.
-/

import BurnLm.Http.StreamRun

namespace BurnLm.Http

open BurnLm.Math BurnLm.Inference
open Relation (ReflTransGen)

universe u

variable {D : Type u} {writer : Writer D} {request : Request D}

/-! ## What is left to do -/

def Msg.cost : Msg → ℕ
  | text _ => 3
  | finished => 1

def Listener.cost : Listener → ℕ
  | writing _ => 3
  | listening => 1
  | gone => 0

/-- Whatever else is in the job, its listener goes through it. -/
def Job.cost (job : Job) : ℕ := job.listener.cost + (job.queue.map Msg.cost).sum

/-- A say takes two steps, its own and the client's; after the job there are at most
three. -/
def Phase.cost : Phase → ℕ
  | greeting todo => 2 * todo.length + 12
  | generating => 9
  | closing todo => 2 * todo.length + 1
  | returned => 0

def Beat.cost : Beat → ℕ
  | sending => 2
  | _ => 0

def Watcher.cost : Watcher → ℕ
  | watching => 1
  | _ => 0

namespace Response

variable {response next : Response D}

/-- What the listener has left, if there is one. -/
def jobCost : Option Job → ℕ
  | some job => job.cost
  | none => 0

/-- How many steps the parties can take by themselves, at most. -/
def cost (response : Response D) : ℕ :=
  response.channel.queue.length + response.phase.cost + jobCost response.job +
    response.beat.cost + response.watcher.cost

/-- Waiting for what only the surroundings can bring: the model, or the engine's
reply. -/
def Waits (response : Response D) : Prop :=
  (∃ rest, response.phase = .greeting (.load :: rest)) ∨
    ∃ job, response.job = some job ∧ job.task = .running

/-- The handler has returned, and there is nothing to read and nothing to write. The
listener has ended, unless the engine panicked and has kept its emitter. -/
structure Ended (response : Response D) : Prop where
  returned : response.phase = .returned
  read : response.channel.queue = []
  written : unwritten response.job = []
  ended : ∀ job, response.job = some job →
    job.listener = .gone ∨ (job.task = .panicked ∧ job.held = true)

/-- Nobody can go on. -/
def Stuck (writer : Writer D) (response : Response D) : Prop :=
  ∀ next, ¬ response.Proceeds writer next

/-- Where nobody can go on, the stream is empty: who has something to send can do so,
or has nobody to send it to. -/
theorem Stuck.room (hstuck : response.Stuck writer) (hsound : response.Sound writer request) :
    response.channel.queue = [] ∧
      (response.channel.HasRoom ∨ response.channel.isOpen = false) := by
  have hcapacity : 0 < response.channel.capacity := by
    rw [hsound.capacity]
    decide
  have hread : response.channel.queue = [] := by
    cases hopen : response.channel.isOpen with
    | false => exact hsound.channel.closed hopen
    | true =>
        by_contra hqueue
        exact hstuck _ (.read hopen hqueue)
  refine ⟨hread, ?_⟩
  rcases Channel.room_or_full hcapacity with hroom | ⟨_, hfull⟩ | hgone
  · exact Or.inl hroom
  · exact absurd hread hfull
  · exact Or.inr hgone

/-- Where nobody can go on, a task still runs or the listener has written everything. -/
theorem Stuck.job (hstuck : response.Stuck writer) (hsound : response.Sound writer request)
    {job : Job} (hjob : response.job = some job) :
    job.task = .running ∨ (job.task.IsOver ∧ job.pending = [] ∧
      (job.listener = .gone ∨ (job.task = .panicked ∧ job.held = true))) := by
  have hlistening : job.listener.IsAlive → job.listener = .listening := fun halive => by
    cases hlistener : job.listener with
    | listening => rfl
    | gone => exact absurd hlistener halive
    | writing text =>
        rcases (hstuck.room hsound).2 with hroom | hgone
        · exact absurd (.write job text hjob hlistener hroom) (hstuck _)
        · exact absurd (.writeUnheard job text hjob hlistener hgone) (hstuck _)
  have hplace := (hsound.of_job hjob).1.job_sound
  generalize response.outcome = outcome at hplace
  cases hplace with
  | running => exact Or.inl rfl
  | joining texts late halive result =>
      obtain rfl := hlistening halive
      cases texts with
      | nil => exact absurd (.finish _ _ hjob rfl rfl) (hstuck _)
      | cons text texts => exact absurd (.take _ text _ hjob rfl rfl) (hstuck _)
  | returned => exact Or.inr ⟨trivial, rfl, Or.inl rfl⟩
  | @panicked texts listener held halive =>
      obtain rfl := hlistening halive
      cases texts with
      | cons text texts => exact absurd (.take _ text _ hjob rfl rfl) (hstuck _)
      | nil =>
          cases held with
          | false => exact absurd (.hangUp _ hjob rfl rfl rfl rfl) (hstuck _)
          | true => exact Or.inr ⟨trivial, rfl, Or.inr ⟨rfl, rfl⟩⟩
  | deserted => exact Or.inr ⟨trivial, rfl, Or.inl rfl⟩

/-- A handler that waits for its job has one. -/
theorem Sound.generating (hsound : response.Sound writer request)
    (hphase : response.phase = .generating) :
    (∃ job, response.job = some job ∧ (job.task.IsOver → response.outcome ≠ none)) ∧
      (response.watcher = .watching ∨ response.watcher = .fired) := by
  have hplaced := hsound.placed
  rw [hphase] at hplaced
  generalize response.job = job at hplaced ⊢
  generalize response.watcher = watcher at hplaced ⊢
  generalize response.emitted = emitted at hplaced
  generalize response.outcome = outcome at hplaced ⊢
  cases hplaced with
  | generating hjob hwatcher =>
      refine ⟨⟨_, rfl, fun hover => ?_⟩, hwatcher⟩
      cases hjob with
      | running => exact absurd hover id
      | _ => simp

/-- What it takes for nobody to go on. -/
theorem Stuck.cases (hstuck : response.Stuck writer) (hsound : response.Sound writer request) :
    response.Waits ∨ response.Ended := by
  obtain ⟨hread, hroom⟩ := hstuck.room hsound
  have hsilent : response.phase.nextSay = none := by
    cases hsay : response.phase.nextSay with
    | none => rfl
    | some next =>
        rcases hroom with hroom | hgone
        · exact absurd (.say _ _ hsay hroom) (hstuck _)
        · exact absurd (.unheard _ _ hsay hgone) (hstuck _)
  have hquiet : response.beat ≠ .sending := fun hbeat => by
    rcases hroom with hroom | hgone
    · exact hstuck _ (.beat hbeat hroom)
    · exact hstuck _ (.beatUnheard hbeat hgone)
  cases hphase : response.phase with
  | greeting todo =>
      rw [hphase] at hsilent
      match todo, hsilent with
      | [], _ => exact absurd (.launch hphase) (hstuck _)
      | .load :: rest, _ => exact Or.inl (Or.inl ⟨rest, hphase⟩)
  | generating =>
      obtain ⟨⟨job, hjob, hended⟩, _⟩ := hsound.generating hphase
      rcases hstuck.job hsound hjob with hrunning | ⟨hover, _⟩
      · exact Or.inl (Or.inr ⟨job, hjob, hrunning⟩)
      · obtain ⟨outcome, houtcome⟩ := Option.ne_none_iff_exists'.mp (hended hover)
        exact absurd (.collect job outcome hphase hjob hover houtcome hquiet) (hstuck _)
  | closing todo =>
      rw [hphase] at hsilent
      match todo, hsilent with
      | [], _ => exact absurd (.close hphase) (hstuck _)
  | returned =>
      have hover {job : Job} (hjob : response.job = some job) :=
        (hstuck.job hsound hjob).resolve_left (hsound.task_ne_running hphase hjob)
      refine Or.inr ⟨hphase, hread, ?_, fun job hjob => (hover hjob).2.2⟩
      cases hjob : response.job with
      | none => rfl
      | some job => exact (hover hjob).2.1

/-- By themselves the parties add nothing to what there is to tell. -/
theorem Proceeds.frame (hstep : response.Proceeds writer next) :
    next.emitted = response.emitted ∧ next.outcome = response.outcome := by
  cases hstep <;> exact ⟨rfl, rfl⟩

end Response

end BurnLm.Http
