/-
# What the guard of destructive commands sees

An unload or a state wipe is refused while sequences are active or jobs are
queued. Evicted sequences waiting to resume are work in flight as well, and the
guard does not look at them. This module says exactly when that matters: a batch
of commands can destroy state under an evicted sequence if and only if it is
taken in with nothing active, nothing queued and something evicted, and reaches
a destructive command before a submission or a shutdown.
-/

import BurnLm.Inference.Turn
import BurnLm.Inference.RecallServer

namespace BurnLm.Inference

universe u v w

/-- Whether a batch of commands comes to a destructive one before it queues a job
or ends. -/
def destroysFirst {Task : Type w} : List (Command Task) → Bool
  | [] => false
  | .unload _ :: _ => true
  | .clearState _ :: _ => true
  | .submit _ :: _ => false
  | .shutdown :: _ => false
  | _ :: commands => destroysFirst commands

namespace Worker

variable {S : Type u} {Row : Type v} {Task : Type w} [BatchedInferenceServer S Row Task]

/-- Whether handling a command hands something destructive to the server. -/
def handsOver (worker : Worker S Task) (command : Command Task) : Bool :=
  ((worker.handleCommand command).2.log.drop worker.log.length).any Effect.isPassed

/-- The guard as the code has it. -/
theorem handsOver_iff (worker : Worker S Task) (command : Command Task) :
    worker.handsOver command = true ↔
      command.isDestructive = true ∧ worker.active = [] ∧ worker.queue = [] := by
  unfold handsOver
  rcases handleCommand_cases worker command with ⟨queued, rfl, hcase⟩ | ⟨rfl, hcase⟩ |
    ⟨_, server, effects, hcase, -, hpassed⟩ <;> rw [hcase]
  · simp [Command.isDestructive]
  · simp [Command.isDestructive]
  · rw [← hpassed]
    simp [emit]

/-- Every destructive command of a batch that is handed to the server finds
nothing held. -/
def Waits (worker : Worker S Task) (commands : List (Command Task)) : Prop :=
  ∀ early command late, commands = early ++ command :: late →
    ∀ next, worker.handleCommands early = (.continue, next) →
      next.handsOver command = true → next.Drained

/-- The state of a turn's start that decides whether its batch waits. -/
def Guarded (worker : Worker S Task) (commands : List (Command Task)) : Prop :=
  worker.active ≠ [] ∨ worker.queue ≠ [] ∨ worker.resume = [] ∨ destroysFirst commands = false

instance (worker : Worker S Task) (commands : List (Command Task)) :
    Decidable (worker.Guarded commands) :=
  inferInstanceAs (Decidable (_ ∨ _ ∨ _ ∨ _))

theorem handleCommands_cons (worker : Worker S Task) (command : Command Task)
    (commands : List (Command Task)) :
    worker.handleCommands (command :: commands) =
      if ((worker.emit [.received command]).handleCommand command).1 = true then
        (.shutdown, ((worker.emit [.received command]).handleCommand command).2)
      else ((worker.emit [.received command]).handleCommand command).2.handleCommands commands := by
  rw [handleCommands]
  split
  · next next hcase => rw [hcase, if_pos rfl]
  · next next hcase => rw [hcase, if_neg Bool.false_ne_true]

/-- The first command, then the rest. -/
theorem waits_cons (worker : Worker S Task) (command : Command Task)
    (commands : List (Command Task)) :
    worker.Waits (command :: commands) ↔
      (worker.handsOver command = true → worker.Drained) ∧
        ∀ next, (worker.emit [.received command]).handleCommand command = (false, next) →
          next.Waits commands := by
  constructor
  · intro hwaits
    refine ⟨hwaits [] command commands rfl worker rfl, ?_⟩
    intro next hnext early later late hcommands last hlast
    refine hwaits (command :: early) later late (by rw [hcommands]; rfl) last ?_
    rw [handleCommands_cons, hnext, if_neg Bool.false_ne_true]
    exact hlast
  · rintro ⟨hfirst, hrest⟩ early later late hcommands last hlast
    cases early with
    | nil =>
        obtain ⟨rfl, rfl⟩ := List.cons.inj hcommands
        obtain rfl := (Prod.mk.inj hlast).2
        exact hfirst
    | cons other early =>
        obtain ⟨rfl, rfl⟩ := List.cons.inj hcommands
        rw [handleCommands_cons] at hlast
        split at hlast
        · simp at hlast
        · next hcontinue =>
            refine hrest _ (Prod.ext ?_ rfl) early later late rfl last hlast
            exact Bool.not_eq_true _ ▸ hcontinue

/-- A batch waits exactly when its turn's start is guarded. -/
theorem waits_iff_guarded (worker : Worker S Task) (commands : List (Command Task)) :
    worker.Waits commands ↔ worker.Guarded commands := by
  induction commands generalizing worker with
  | nil => simp [Waits, Guarded, destroysFirst]
  | cons command commands ih =>
      rw [waits_cons, handsOver_iff]
      rcases handleCommand_cases (worker.emit [.received command]) command with
        ⟨queued, rfl, hcase⟩ | ⟨rfl, hcase⟩ | ⟨hserved, server, effects, hcase, -⟩ <;> rw [hcase]
      · -- a queued job keeps the guard up for the rest of the batch
        simp [ih, Guarded, Command.isDestructive, destroysFirst]
      · simp [Guarded, Command.isDestructive, destroysFirst]
      · have hnext : (∀ next : Worker S Task,
            (false, emit { worker.emit [.received command] with server } effects) = (false, next) →
              next.Waits commands) ↔ worker.Guarded commands := by
          simp only [Prod.mk.injEq, true_and, forall_eq', ih, Guarded, emit]
        rw [hnext]
        cases command with
        | unload reply | clearState reply =>
            simp only [Guarded, Command.isDestructive, destroysFirst, Drained]
            tauto
        | submit queued | shutdown => simp [Command.isServed] at hserved
        | _ => simp [Guarded, Command.isDestructive, destroysFirst]

/-- A run comes to this worker and takes this turn next. -/
def Takes (envs : List (TurnEnv Task)) (server : S) (env : TurnEnv Task)
    (worker : Worker S Task) : Prop :=
  ∃ before after, envs = before ++ env :: after ∧
    run before (spawn server) = (.continue, worker)

/-- **When destructive commands wait.** In a run whose turns all start guarded,
an unload or a state wipe reaches the server only when nothing is active, nothing
is queued and nothing is evicted; and no other run has that property. -/
theorem destructive_waits_iff (server : S) (envs : List (TurnEnv Task)) :
    (∀ env worker, Takes envs server env worker → worker.Waits env.commands) ↔
      ∀ env worker, Takes envs server env worker → worker.Guarded env.commands := by
  simp only [waits_iff_guarded]

/-- **An eviction slips past the guard.** Two slots and four blocks of one token
each: the first job finishes, the second one evicts the third to finish, and the
unload that arrives next finds nothing active and nothing queued. -/
theorem unload_under_eviction :
    ∃ (config : RecallConfig) (envs : List (TurnEnv (List Token))) (env : TurnEnv (List Token))
      (worker : Worker (RecallServer config) (List Token)),
      Takes envs RecallServer.fresh env worker ∧ ¬worker.Waits env.commands := by
  let config : RecallConfig :=
    { capacity := ⟨2, ⟨1, 4⟩⟩
      admission := .elastic
      chunkSize := 0
      tokenBudget := 0
      contextLen := 100
      stops := []
      generationCap := 10
      next := fun tokens => tokens.getLastD 0 }
  let before : List (TurnEnv (List Token)) :=
    [.taking [.submission 0 1 [7], .submission 1 3 [7], .submission 2 2 [7]], .taking [],
      .taking []]
  let worker : Worker (RecallServer config) (List Token) := (run before (spawn .fresh)).2
  refine ⟨config, before ++ [.taking [.unload 3]], .taking [.unload 3], worker,
    ⟨before, [], rfl, Prod.ext (by decide +kernel) rfl⟩, ?_⟩
  rw [waits_iff_guarded]
  decide +kernel

end Worker

end BurnLm.Inference
