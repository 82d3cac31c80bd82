/-
# When a queued job overtakes an evicted sequence

Evicted sequences are to come back ahead of the queue. The resume loop does come
first, but when it stops short because the sequence on top finds too few blocks,
the queue loop still runs, and a job small enough for what is left starts. This
module says exactly when, in terms of the worker before admission: somebody on the
stack finds too few blocks although a slot is free, and behind those above it the
first queued job that is not answered outright finds its own.
-/

import BurnLm.Inference.Reentry

namespace BurnLm.Inference

open BurnLm.Math

universe u v w

namespace Worker

variable {S : Type u} {Row : Type v} {Task : Type w} [BatchedInferenceServer S Row Task]

/-- Of these jobs the first that is not answered outright finds a slot and its
blocks. -/
inductive Startable (env : TurnEnv Task) (active : List JobSeq) :
    S → List (QueuedJob Task) → Prop
  | here {server : S} {front : QueuedJob Task} {rest : List (QueuedJob Task)}
      {tokens : List Token} (hslots : active.length < (batchCapacity server).maxSlots)
      (hrunnable : Runnable env server front tokens)
      (hroom : hasRoom (decoder server).2 active
        (startGuarantee (decoder server).2 active front tokens) = true) :
      Startable env active server (front :: rest)
  | later {server after : S} {front : QueuedJob Task} {rest : List (QueuedJob Task)}
      {error : InferenceError} (hslots : active.length < (batchCapacity server).maxSlots)
      (hturned : Turned env server front error after) (hrest : Startable env active after rest) :
      Startable env active server (front :: rest)

/-- A sweep for admission that starts a queued job although it leaves an evicted
sequence waiting. -/
def Overtakes (env : TurnEnv Task) (worker : Worker S Task) : Prop :=
  assignments (admitJobs env worker).log ≠ assignments worker.log ∧
    (admitJobs env worker).resume ≠ []

/-- On a worker before admission: once those above it are back, an evicted sequence
finds a slot but cannot have it, and a queued job can. -/
structure Outrun (env : TurnEnv Task) (worker : Worker S Task) (front : List ResumedJob)
    (job : ResumedJob) (rest : List ResumedJob) : Prop where
  split : worker.resume = front ++ job :: rest
  above : worker.floor.AllRegain front
  slots : (worker.floor.regains front).active.length <
    (batchCapacity (worker.floor.regains front).server).maxSlots
  held : ¬(worker.floor.regains front).Regains job
  startable : Startable env (worker.floor.regains front).active
    (decoder (worker.floor.regains front).server).2 worker.queue

/-! ## The gate, job by job -/

section Gate

variable {env : TurnEnv Task} {server after : S} {active : List JobSeq}
  {front : QueuedJob Task} {rest : List (QueuedJob Task)} {error : InferenceError}

/-- A job is answered outright in one way, and is not one that could run. -/
theorem Turned.unique {other : S} {error' : InferenceError}
    (hturned : Turned env server front error after)
    (hturned' : Turned env server front error' other) : other = after := by
  cases hturned <;> cases hturned' <;> simp_all

theorem Turned.not_runnable {tokens : List Token} (hturned : Turned env server front error after)
    (hrunnable : Runnable env server front tokens) : False := by
  obtain ⟨hwanted, hborrowed, htokenized, hfits⟩ := hrunnable
  cases hturned with
  | cancelled hcancelled => simp [hwanted] at hcancelled
  | refused _ hrefused => simp [hborrowed] at hrefused
  | unreadable _ _ herror => simp [htokenized] at herror
  | oversized _ _ htokens hover =>
      obtain rfl := Except.ok.inj (htokenized.symm.trans htokens)
      exact absurd hover (not_lt.mpr hfits)

/-- Nothing starts without a free slot. -/
theorem Startable.slots {queue : List (QueuedJob Task)}
    (hstartable : Startable env active server queue) :
    active.length < (batchCapacity server).maxSlots := by
  cases hstartable with
  | here hslots => exact hslots
  | later hslots => exact hslots

theorem startable_of_turned (hslots : active.length < (batchCapacity server).maxSlots)
    (hturned : Turned env server front error after) :
    Startable env active server (front :: rest) ↔ Startable env active after rest := by
  constructor
  · intro hstartable
    cases hstartable with
    | here _ hrunnable => exact (hturned.not_runnable hrunnable).elim
    | later _ hturned' hrest => exact hturned.unique hturned' ▸ hrest
  · exact .later hslots hturned

theorem startable_of_runnable {tokens : List Token}
    (hslots : active.length < (batchCapacity server).maxSlots)
    (hrunnable : Runnable env server front tokens) :
    Startable env active server (front :: rest) ↔ hasRoom (decoder server).2 active
      (startGuarantee (decoder server).2 active front tokens) = true := by
  constructor
  · intro hstartable
    cases hstartable with
    | here _ hrunnable' hroom =>
        obtain rfl := Except.ok.inj (hrunnable.tokenized.symm.trans hrunnable'.tokenized)
        exact hroom
    | later _ hturned => exact (hturned.not_runnable hrunnable).elim
  · exact .here hslots hrunnable

end Gate

/-! ## The sweep -/

/-- **The queue loop starts something exactly when something is startable.** -/
theorem queueLoop_starts (env : TurnEnv Task) (bound : ℕ) {worker : Worker S Task}
    (hbound : worker.queue.length ≤ bound) :
    assignments (loop (queueStep env) bound worker).log ≠ assignments worker.log ↔
      Startable env worker.active worker.server worker.queue := by
  induction bound generalizing worker with
  | zero =>
      have hqueue := List.eq_nil_of_length_eq_zero (Nat.le_zero.mp hbound)
      rw [hqueue]
      exact iff_of_false (not_not_intro rfl) nofun
  | succ bound ih =>
      generalize hnext : queueStep env worker = next
      have hcase := queueStep_cases env worker
      rw [hnext] at hcase
      rw [loop, hnext]
      cases hcase with
      | idle hidle =>
          refine iff_of_false (not_not_intro rfl) fun hstartable => ?_
          rcases hidle with hqueue | hfull
          · rw [hqueue] at hstartable
            cases hstartable
          · exact absurd hstartable.slots (not_lt.mpr hfull)
      | @turned front rest error server hqueue hslots hturned =>
          rw [hqueue, List.length_cons] at hbound
          rw [hqueue, startable_of_turned hslots hturned]
          have hsame : assignments (reject { worker with server } front rest error).log =
              assignments worker.log := (assignments_append _ _).trans (List.append_nil _)
          rw [← hsame]
          exact @ih (reject { worker with server } front rest error)
            (Nat.le_of_succ_le_succ hbound)
      | waiting hqueue hslots hrunnable hwaiting =>
          rw [hqueue, startable_of_runnable hslots hrunnable, hwaiting]
          simp
      | @started front rest tokens slot hqueue hslots hrunnable hslot hroom =>
          have hstartable : Startable env worker.active worker.server worker.queue := by
            rw [hqueue, startable_of_runnable hslots hrunnable]
            exact hasRoom_iff.mpr ⟨hroom, slot, hslot⟩
          refine iff_of_true (fun hsame => ?_) hstartable
          have hmore := (queueLoop_resume env bound (start
            { worker with server := (decoder worker.server).2 } env.now front rest tokens
            (front.job.maxGen (maxGenTokens (decoder worker.server).2))
            (startGuarantee (decoder worker.server).2 worker.active front tokens) slot)).2
          dsimp only at hsame
          rw [hsame] at hmore
          simp [start, emit, assignments, Effect.assignment] at hmore

/-- Whether a sweep lets a queued job overtake, read off the worker the resume loop
leaves. -/
theorem overtakes_resumed (env : TurnEnv Task) (worker : Worker S Task) :
    Overtakes env worker ↔ (resumed worker).resume ≠ [] ∧
      Startable env (resumed worker).active (resumed worker).server worker.queue := by
  obtain ⟨hlog, hqueue⟩ := resumed_log worker
  have hgets : admitJobs env worker =
      loop (queueStep env) (resumed worker).queue.length (resumed worker) := rfl
  unfold Overtakes
  rw [hgets, (queueLoop_resume env _ (resumed worker)).1, ← hlog,
    queueLoop_starts env _ le_rfl, hqueue, and_comm]

/-- **What decides whether a sweep lets a queued job overtake.** -/
theorem overtakes_iff (env : TurnEnv Task) (worker : Worker S Task) :
    Overtakes env worker ↔ ∃ front job rest, Outrun env worker front job rest := by
  obtain ⟨back, left, hreentered⟩ := reentered worker
  rw [overtakes_resumed, hreentered.resume, hreentered.active, hreentered.server]
  constructor
  · rintro ⟨hleft, hstartable⟩
    obtain ⟨job, rest, rfl⟩ := List.exists_cons_of_ne_nil hleft
    have hheld := hreentered.stuck job rest rfl
    by_cases hslots : (worker.floor.regains back).active.length <
        (batchCapacity (worker.floor.regains back).server).maxSlots
    · rw [if_pos ⟨hleft, hslots⟩] at hstartable
      exact ⟨back, job, rest, hreentered.split, hreentered.allRegain, hslots, hheld, hstartable⟩
    · -- no slot is free, so nothing queued starts
      rw [if_neg fun h => hslots h.2] at hstartable
      exact absurd hstartable.slots hslots
  · rintro ⟨front, job, rest, houtrun⟩
    -- the front is exactly what the resume loop brings back
    have hsplit : back ++ left = front ++ job :: rest := hreentered.split.symm.trans houtrun.split
    have hle : front.length ≤ back.length :=
      houtrun.above.length_le (hsplit ▸ List.prefix_append front _) hreentered.stuck
    have hge : back.length ≤ front.length :=
      hreentered.allRegain.length_le (hsplit ▸ List.prefix_append back left)
        fun other more hmore => (List.cons.inj hmore).1 ▸ houtrun.held
    obtain ⟨rfl, rfl⟩ := List.append_inj hsplit (le_antisymm hge hle)
    rw [if_pos ⟨by simp, houtrun.slots⟩]
    exact ⟨by simp, houtrun.startable⟩

/-- **When evicted sequences come first.** A run starts no queued job ahead of an
evicted sequence exactly if, in none of its sweeps for admission, an evicted sequence
behind those that get back finds a slot but too few blocks while the first queued job
that is not answered outright finds both. -/
theorem evicted_first_iff (server : S) (envs : List (TurnEnv Task)) :
    (∀ env worker, Admits envs server env worker → ¬Overtakes env worker) ↔
      ∀ env worker, Admits envs server env worker →
        ¬∃ front job rest, Outrun env worker front job rest := by
  refine forall₂_congr fun env worker => imp_congr_right fun _ => ?_
  rw [overtakes_iff]

/-- **A small job overtakes.** Three slots and eight blocks of one token each: the
second job evicts the third, five tokens long, to get on, and the job that arrives
next needs only two of the three blocks left. -/
theorem small_job_overtakes :
    ∃ (config : RecallConfig) (envs : List (TurnEnv (List Token))) (env : TurnEnv (List Token))
      (worker : Worker (RecallServer config) (List Token)),
      Admits envs RecallServer.fresh env worker ∧ Overtakes env worker := by
  let config : RecallConfig :=
    { capacity := ⟨3, ⟨1, 8⟩⟩
      admission := .elastic
      chunkSize := 0
      tokenBudget := 0
      contextLen := 100
      stops := []
      generationCap := 10
      next := fun tokens => tokens.getLastD 0 }
  let before : List (TurnEnv (List Token)) :=
    [.taking [.submission 0 1 [7], .submission 1 6 [7, 7], .submission 2 3 [7, 7, 7]],
      .taking [], .taking [], .taking [.submission 3 1 [7]]]
  let worker : Worker (RecallServer config) (List Token) := (run before (spawn .fresh)).2
  refine ⟨config, before ++ [.taking []], .taking [], worker,
    ⟨before, [], worker, rfl, Prod.ext (by decide +kernel) rfl, by decide +kernel, rfl⟩, ?_⟩
  unfold Overtakes
  decide +kernel

end Worker

end BurnLm.Inference
