/-
# When the decoder is lost

Once every attempt to borrow the decoder fails, active sequences are retired with
the error by the step and queued jobs are answered with it by admission. The
resume loop only stops, so an evicted sequence is never told and keeps the worker
awake. With nobody evicted two turns are enough to be rid of everything.
-/

import BurnLm.Inference.Stages
import BurnLm.Inference.RecallServer

namespace BurnLm.Inference

open BurnLm.Math
open Relation (ReflTransGen)

universe u v w

/-- The decoder cannot be borrowed, now or after any number of attempts. -/
def Lost {S : Type u} {Row : Type v} {Task : Type w} [BatchedInferenceServer S Row Task]
    (server : S) : Prop :=
  ∀ attempts : ℕ, ∃ error,
    (decoder ((fun server => (decoder server).2)^[attempts] server)).1 = .error error

section Lost

variable {S : Type u} {Row : Type v} {Task : Type w} [BatchedInferenceServer S Row Task]

theorem Lost.next {server : S} (hlost : Lost server) : Lost (decoder server).2 :=
  fun attempts => hlost (attempts + 1)

theorem Lost.refuses {server : S} (hlost : Lost server) :
    ∃ error, decoder server = (.error error, (decoder server).2) := by
  obtain ⟨error, herror⟩ := hlost 0
  exact ⟨error, Prod.ext herror rfl⟩

theorem Lost.not_ok {server : S} (hlost : Lost server) : (decoder server).1 ≠ .ok () := by
  obtain ⟨error, herror⟩ := hlost 0
  rw [show (decoder server).1 = .error error from herror]
  simp

end Lost

namespace Worker

variable {S : Type u} {Row : Type v} {Task : Type w}

/-- A queued job was answered with an error. -/
def Rejected (effects : List (Effect Task)) (queued : QueuedJob Task) : Prop :=
  ∃ error, .replied queued.completion (.error error) ∈ effects

/-- A request was retired with an error. -/
def Failed (effects : List (Effect Task)) (id : ℕ) : Prop :=
  ∃ error, .sent (.retire id (.error error)) ∈ effects

/-- Nothing is held any more, and everyone was told an error on the way. -/
structure Dismisses (worker final : Worker S Task) : Prop where
  drained : final.Drained
  told : ∃ effects, final.log = worker.log ++ effects ∧
    (∀ queued ∈ worker.queue, Rejected effects queued) ∧ ∀ id ∈ worker.liveIds, Failed effects id

variable [BatchedInferenceServer S Row Task]

/-- The worker lets go of requests, telling each an error, and of no evicted one. -/
structure Sheds (worker next : Worker S Task) : Prop where
  lost : Lost next.server
  resume : next.resume = worker.resume
  told : ∃ effects, next.log = worker.log ++ effects ∧
    (∀ queued ∈ worker.queue, queued ∈ next.queue ∨ Rejected effects queued) ∧
    ∀ id ∈ worker.active.map (fun seq => seq.extra.id),
      id ∈ next.active.map (fun seq => seq.extra.id) ∨ Failed effects id

theorem Sheds.refl {worker : Worker S Task} (hlost : Lost worker.server) : Sheds worker worker :=
  ⟨hlost, rfl, [], (List.append_nil _).symm, fun _ => Or.inl, fun _ => Or.inl⟩

theorem Sheds.trans {first second third : Worker S Task} (hfirst : Sheds first second)
    (hsecond : Sheds second third) : Sheds first third := by
  obtain ⟨effects, hlog, hqueue, hactive⟩ := hfirst.told
  obtain ⟨more, hlog', hqueue', hactive'⟩ := hsecond.told
  refine ⟨hsecond.lost, hsecond.resume.trans hfirst.resume, effects ++ more,
    by rw [hlog', hlog, List.append_assoc], fun queued hqueued => ?_, fun id hid => ?_⟩
  · rcases hqueue queued hqueued with hkept | ⟨error, herror⟩
    · exact (hqueue' queued hkept).imp_right fun ⟨error, herror⟩ =>
        ⟨error, List.mem_append_right _ herror⟩
    · exact Or.inr ⟨error, List.mem_append_left _ herror⟩
  · rcases hactive id hid with hkept | ⟨error, herror⟩
    · exact (hactive' id hkept).imp_right fun ⟨error, herror⟩ =>
        ⟨error, List.mem_append_right _ herror⟩
    · exact Or.inr ⟨error, List.mem_append_left _ herror⟩

/-- Only the server changed, and it is lost. -/
theorem Sheds.of_server {worker : Worker S Task} {server : S} (hlost : Lost server) :
    Sheds worker { worker with server } :=
  ⟨hlost, rfl, [], (List.append_nil _).symm, fun _ => Or.inl, fun _ => Or.inl⟩

/-! ## The stages of a turn -/

theorem resumed_sheds {worker : Worker S Task} (hlost : Lost worker.server) :
    Sheds worker (resumed worker) ∧ (resumed worker).active = worker.active ∧
      (resumed worker).queue = worker.queue := by
  refine @loop_induction _ resumeStep (fun state => Sheds worker state ∧
    state.active = worker.active ∧ state.queue = worker.queue)
    (fun state ⟨hsheds, hactive, hqueue⟩ => ?_) _ worker ⟨.refl hlost, rfl, rfl⟩
  generalize hnext : resumeStep state = next
  have hcase := resumeStep_cases state
  rw [hnext] at hcase
  cases hcase with
  | idle => exact ⟨hsheds, hactive, hqueue⟩
  | stuck => exact ⟨hsheds.trans (.of_server hsheds.lost.next), hactive, hqueue⟩
  | resumed hresume hslots hborrowed => exact absurd hborrowed hsheds.lost.not_ok

/-- A pass of the queue loop answers the job in front, or stops at a full set or an
empty queue. -/
theorem queueStep_of_lost (env : TurnEnv Task) {worker : Worker S Task}
    (hlost : Lost worker.server) :
    (queueStep env worker = (false, worker) ∧ (worker.queue = [] ∨
      (batchCapacity worker.server).maxSlots ≤ worker.active.length)) ∨
    ∃ front rest next, worker.queue = front :: rest ∧ queueStep env worker = (true, next) ∧
      next.queue = rest ∧ next.active = worker.active ∧ Sheds worker next := by
  generalize hnext : queueStep env worker = next
  have hcase := queueStep_cases env worker
  rw [hnext] at hcase
  cases hcase with
  | idle hidle => exact Or.inl ⟨rfl, hidle⟩
  | waiting _ _ hrunnable => exact absurd hrunnable.borrowed hlost.not_ok
  | started _ _ hrunnable => exact absurd hrunnable.borrowed hlost.not_ok
  | @turned front rest error server hqueue hslots hturned =>
      have hserver : Lost server := by
        cases hturned with
        | cancelled => exact hlost
        | _ => exact hlost.next
      refine Or.inr ⟨front, rest, _, hqueue, rfl, rfl, rfl, hserver, rfl, _, rfl, ?_,
        fun _ => Or.inl⟩
      intro queued hqueued
      rw [hqueue] at hqueued
      rcases List.mem_cons.mp hqueued with rfl | hqueued
      · exact Or.inr ⟨error, by simp⟩
      · exact Or.inl hqueued

theorem queueLoop_of_lost (env : TurnEnv Task) (hslots : ∀ server : S,
    1 ≤ (batchCapacity server).maxSlots) (bound : ℕ) {worker : Worker S Task}
    (hbound : worker.queue.length ≤ bound) (hlost : Lost worker.server) :
    Sheds worker (loop (queueStep env) bound worker) ∧
      (loop (queueStep env) bound worker).active = worker.active ∧
      (worker.active = [] → (loop (queueStep env) bound worker).queue = []) := by
  induction bound generalizing worker with
  | zero =>
      exact ⟨.refl hlost, rfl, fun _ => List.eq_nil_of_length_eq_zero (Nat.le_zero.mp hbound)⟩
  | succ bound ih =>
      rcases queueStep_of_lost env hlost with ⟨hstep, hidle⟩ |
        ⟨front, rest, next, hqueue, hstep, hrest, hactive, hsheds⟩ <;> rw [loop, hstep]
      · refine ⟨.refl hlost, rfl, fun hactive => hidle.resolve_right ?_⟩
        rw [hactive, List.length_nil]
        exact not_le.mpr (hslots worker.server)
      · rw [hqueue, List.length_cons] at hbound
        obtain ⟨hmore, hactive', hempty⟩ :=
          @ih next (hrest ▸ Nat.le_of_succ_le_succ hbound) hsheds.lost
        exact ⟨hsheds.trans hmore, hactive'.trans hactive, fun h => hempty (hactive.trans h)⟩

/-- The step retires everything active. -/
theorem step_of_lost (env : TurnEnv Task) {worker : Worker S Task} (hlost : Lost worker.server) :
    Sheds worker (step env worker) ∧ (step env worker).active = [] ∧
      (step env worker).queue = worker.queue := by
  unfold step
  by_cases hactive : worker.active = []
  · rw [if_pos hactive]
    exact ⟨.refl hlost, hactive, rfl⟩
  obtain ⟨first, hfirst⟩ := hlost.refuses
  obtain ⟨second, hsecond⟩ := hlost.next.refuses
  have hprepared : prepareRound env worker =
      { worker with
        server := (decoder worker.server).2
        active := worker.active.map (cancelSweep env) } := by
    rw [prepareRound, hfirst]
  rw [if_neg hactive, hprepared]
  dsimp only
  rw [hsecond]
  refine ⟨⟨hlost.next.next, rfl, _, rfl, fun _ => Or.inl, fun id hid => Or.inr ?_⟩, rfl, rfl⟩
  obtain ⟨seq, hseq, rfl⟩ := List.mem_map.mp hid
  refine ⟨second, List.mem_map.mpr ⟨_, List.mem_map_of_mem hseq, ?_⟩⟩
  rw [(cancelSweep_frame env seq).1]

/-! ## Turns -/

/-- A turn without commands sheds, and clears the active set; an empty one lets it
clear the queue as well. -/
theorem turn_of_lost {env : TurnEnv Task} (hquiet : env.commands = [])
    (hslots : ∀ server : S, 1 ≤ (batchCapacity server).maxSlots) {worker : Worker S Task}
    (hlost : Lost worker.server) :
    Sheds worker (worker.turn env).2 ∧ (worker.turn env).2.active = [] ∧
      (worker.active = [] → (worker.turn env).2.queue = []) ∧
      (worker.active ≠ [] ∨ worker.queue ≠ [] → (worker.turn env).1 = .continue) := by
  have hcommands : worker.handleCommands env.commands = (.continue, worker) := by
    rw [hquiet]
    rfl
  by_cases hidle : worker.active = [] ∧ worker.canAdmit = false ∧ env.commands = []
  · have hturn : worker.turn env = (.shutdown, worker) := by rw [turn, if_pos hidle]
    have hqueue : worker.queue = [] := by
      by_contra hqueue
      have hroom : worker.active.length < (batchCapacity worker.server).maxSlots := by
        rw [hidle.1]
        exact hslots worker.server
      simp [canAdmit, hqueue, hroom] at hidle
    rw [hturn]
    exact ⟨.refl hlost, hidle.1, fun _ => hqueue, by simp [hidle.1, hqueue]⟩
  · obtain ⟨hresumed, hactive, hqueue⟩ := resumed_sheds hlost
    obtain ⟨hadmitted, hactive', hempty⟩ :=
      queueLoop_of_lost env hslots _ le_rfl hresumed.lost
    obtain ⟨hstepped, hcleared, hqueue'⟩ := step_of_lost env hadmitted.lost
    rw [turn_of_continue hidle hcommands]
    exact ⟨(hresumed.trans hadmitted).trans hstepped, hcleared,
      fun h => hqueue'.trans (hempty (hactive.trans h)), fun _ => rfl⟩

/-- Turns without commands never touch an evicted sequence. -/
theorem run_resume_of_lost (hslots : ∀ server : S, 1 ≤ (batchCapacity server).maxSlots)
    (envs : List (TurnEnv Task)) (hquiet : ∀ env ∈ envs, env.commands = [])
    {worker : Worker S Task} (hlost : Lost worker.server) :
    (run envs worker).2.resume = worker.resume := by
  induction envs generalizing worker with
  | nil => rfl
  | cons env envs ih =>
      have hsheds := (turn_of_lost (hquiet env List.mem_cons_self) hslots hlost).1
      rw [run]
      split
      · next next hcase =>
          rw [hcase] at hsheds
          exact hsheds.resume
      · next next hcase =>
          rw [hcase] at hsheds
          exact (ih (fun env henv => hquiet env (List.mem_cons_of_mem _ henv)) hsheds.lost).trans
            hsheds.resume

theorem Sheds.dismisses {worker final : Worker S Task} (hsheds : Sheds worker final)
    (hresume : worker.resume = []) (hqueue : final.queue = []) (hactive : final.active = []) :
    Dismisses worker final := by
  obtain ⟨effects, hlog, htold, htold'⟩ := hsheds.told
  refine ⟨⟨hqueue, hactive, hsheds.resume.trans hresume⟩, effects, hlog, fun queued hqueued => ?_,
    fun id hid => ?_⟩
  · exact (htold queued hqueued).resolve_left (by simp [hqueue])
  · rw [liveIds, hresume, List.map_nil, List.append_nil] at hid
    exact (htold' id hid).resolve_left (by simp [hactive])

/-- **Losing the decoder answers everyone unless somebody is evicted.** From any
worker whose decoder is lost for good, turns without commands come to a worker that
holds nothing and has told everyone an error, exactly if the resume list is empty
when the decoder is lost. -/
theorem dismisses_iff (hslots : ∀ server : S, 1 ≤ (batchCapacity server).maxSlots)
    (worker : Worker S Task) (hlost : Lost worker.server) (quiet : ℕ → TurnEnv Task)
    (hquiet : ∀ n, (quiet n).commands = []) :
    (∃ (turns : ℕ) (final : Worker S Task),
      run ((List.range turns).map quiet) worker = (.continue, final) ∧ Dismisses worker final) ↔
      worker.resume = [] := by
  constructor
  · rintro ⟨turns, final, hrun, hdismisses⟩
    have hresume := run_resume_of_lost hslots ((List.range turns).map quiet)
      (by simpa using fun n _ => hquiet n) hlost
    rw [hrun] at hresume
    exact hresume.symm.trans hdismisses.drained.2.2
  · intro hresume
    obtain ⟨hfirst, hactive, hqueue, hflow⟩ := turn_of_lost (hquiet 0) hslots hlost
    by_cases hdrained : worker.active = [] ∧ worker.queue = []
    · exact ⟨0, worker, rfl, (Sheds.refl hlost).dismisses hresume hdrained.2 hdrained.1⟩
    have hone : worker.turn (quiet 0) = (.continue, (worker.turn (quiet 0)).2) :=
      Prod.ext (hflow (by tauto)) rfl
    obtain ⟨hsecond, hactive', hqueue', hflow'⟩ := turn_of_lost (hquiet 1) hslots hfirst.lost
    by_cases hempty : (worker.turn (quiet 0)).2.queue = []
    · refine ⟨1, _, ?_, hfirst.dismisses hresume hempty hactive⟩
      simp only [List.range_one, List.map_cons, List.map_nil, run]
      rw [hone]
    · refine ⟨2, _, ?_, (hfirst.trans hsecond).dismisses hresume (hqueue' hactive) hactive'⟩
      have htwo : (worker.turn (quiet 0)).2.turn (quiet 1) =
          (.continue, ((worker.turn (quiet 0)).2.turn (quiet 1)).2) :=
        Prod.ext (hflow' (Or.inr hempty)) rfl
      simp only [List.range_succ, List.range_zero, List.nil_append, List.cons_append, List.map_cons,
        List.map_nil, run]
      rw [hone]
      dsimp only
      rw [htwo]

/-! ## A server that loses its decoder -/

/-- A server with three slots and eight blocks of one token. -/
private def losing : RecallConfig where
  capacity := ⟨3, ⟨1, 8⟩⟩
  admission := .elastic
  chunkSize := 0
  tokenBudget := 0
  contextLen := 100
  stops := []
  generationCap := 10
  next := fun tokens => tokens.getLastD 0

omit [BatchedInferenceServer S Row Task] in
private theorem lost_of_borrows {failing : FailingServer losing} (hborrows : failing.borrows = 0) :
    Lost failing := by
  obtain ⟨server, borrows⟩ := failing
  obtain rfl := hborrows
  intro attempts
  have hsame : (fun failing : FailingServer losing => (decoder failing).2)^[attempts]
      ⟨server, 0⟩ = ⟨server, 0⟩ := Function.iterate_fixed rfl attempts
  rw [hsame]
  exact ⟨_, rfl⟩

private theorem losing_slots (failing : FailingServer losing) :
    1 ≤ (batchCapacity failing).maxSlots :=
  show 1 ≤ 3 by decide

/-- Three jobs, the first of which finishes at once. -/
private def threeJobs : TurnEnv (List Token) :=
  .taking [.submission 0 1 [7], .submission 1 6 [7, 7], .submission 2 3 [7, 7, 7]]

/-- The decoder is lost after the first turn: a job is queued, a sequence is active,
nobody is evicted. -/
theorem dismisses_before_eviction :
    let worker : Worker (FailingServer losing) (List Token) :=
      (run [threeJobs] (spawn ⟨.fresh, 8⟩)).2
    worker.queue ≠ [] ∧ worker.active ≠ [] ∧ ∃ (turns : ℕ) (final : Worker _ (List Token)),
      run ((List.range turns).map fun _ => .taking []) worker = (.continue, final) ∧
        Dismisses worker final := by
  intro worker
  have hlost : Lost worker.server := lost_of_borrows (by decide +kernel)
  exact ⟨by decide +kernel, by decide +kernel,
    (dismisses_iff losing_slots worker hlost (fun _ => .taking []) fun _ => rfl).mpr
      (by decide +kernel)⟩

/-- **An evicted request is never told.** The decoder is lost right after the second
job has evicted the third. -/
theorem lost_after_eviction :
    ∃ (config : RecallConfig) (envs : List (TurnEnv (List Token))) (server : FailingServer config)
      (worker : Worker (FailingServer config) (List Token)) (quiet : ℕ → TurnEnv (List Token)),
      run envs (spawn server) = (.continue, worker) ∧
        (∀ server : FailingServer config, 1 ≤ (batchCapacity server).maxSlots) ∧
        Lost worker.server ∧ (∀ n, (quiet n).commands = []) ∧
        ∀ (turns : ℕ) (final : Worker (FailingServer config) (List Token)),
          run ((List.range turns).map quiet) worker = (.continue, final) →
            ¬Dismisses worker final := by
  let envs : List (TurnEnv (List Token)) := [threeJobs, .taking [], .taking [], .taking []]
  let worker : Worker (FailingServer losing) (List Token) := (run envs (spawn ⟨.fresh, 16⟩)).2
  have hflow : (run envs (spawn (⟨.fresh, 16⟩ : FailingServer losing))).1 = .continue := by
    decide +kernel
  have hreached : run envs (spawn ⟨.fresh, 16⟩) = (.continue, worker) := by
    rw [← hflow]
  have hlost : Lost worker.server := lost_of_borrows (by decide +kernel)
  have hevicted : worker.resume ≠ [] := by decide +kernel
  refine ⟨losing, envs, ⟨.fresh, 16⟩, worker, fun _ => .taking [], hreached, losing_slots,
    hlost,
    fun _ => rfl, fun turns final hrun hdismisses => hevicted ?_⟩
  have hresume := run_resume_of_lost losing_slots ((List.range turns).map fun _ => .taking [])
    (by simp [TurnEnv.taking]) hlost
  rw [hrun] at hresume
  exact hresume.symm.trans hdismisses.drained.2.2

end Worker

end BurnLm.Inference
