/-
# Reserved up front

Under the reserve policy a sequence joins with the blocks of its worst case, and
generating moves tokens from what is still to come to what is there: the worst
case stays what it was. So a growth pass finds nobody to top up, and nobody to grant
anything to, to pause or to evict either, whatever the decoder, the sampler and the
clients did so far. What is reserved is what the worst case comes to in a machine
word, so this is exactly as true as that covers the worst case itself.
-/

import BurnLm.Inference.Stages

namespace BurnLm.Inference

open BurnLm.Math
open Relation (ReflTransGen)

universe u v w

/-- A server with a fixed capacity and context length that always admits by worst
case. -/
structure ReservesUpFront (S : Type u) {Row : Type v} {Task : Type w}
    [BatchedInferenceServer S Row Task] (capacity : BatchCapacity) (contextLen : ℕ) : Prop where
  capacity_eq : ∀ server : S, batchCapacity server = capacity
  context_eq : ∀ server : S, maxContextLen server = contextLen
  reserve : ∀ server : S, kvAdmission server = .reserve

/-- A sequence that may run and holds the blocks of its worst case. -/
structure ActiveSeq.Booked (kv : KvBudget) (contextLen : ℕ) (seq : JobSeq) : Prop where
  generated_le : seq.generated ≤ seq.maxGen
  unpaused : seq.paused = false
  reserved : seq.kvReservation =
    kv.blocksFor (min (addWord seq.tokens.length (seq.maxGen - seq.generated)) contextLen)

/-- If its sum covers the worst case, so does what is booked. -/
theorem ActiveSeq.Booked.covers {kv : KvBudget} {contextLen length : ℕ} {seq : JobSeq}
    (hseq : seq.Booked kv contextLen) (hcovers : SumCovers kv contextLen seq.total)
    (hlength : length ≤ seq.total) :
    kv.blocksFor (min length contextLen) ≤ seq.kvReservation := by
  rw [hseq.reserved]
  exact hcovers.part hlength

namespace Worker

variable {S : Type u} {Row : Type v} {Task : Type w}

/-- Everyone is booked and nobody was evicted. -/
structure Booked (kv : KvBudget) (contextLen : ℕ) (worker : Worker S Task) : Prop where
  active : ∀ seq ∈ worker.active, seq.Booked kv contextLen
  resume : worker.resume = []

theorem Booked.spawn {kv : KvBudget} {contextLen : ℕ} (server : S) :
    (spawn server : Worker S Task).Booked kv contextLen :=
  ⟨by simp [Worker.spawn], rfl⟩

theorem Booked.congr {kv : KvBudget} {contextLen : ℕ} {worker next : Worker S Task}
    (hworker : worker.Booked kv contextLen) (hactive : next.active = worker.active)
    (hresume : next.resume = worker.resume) : next.Booked kv contextLen :=
  ⟨by rw [hactive]; exact hworker.active, by rw [hresume]; exact hworker.resume⟩

/-- Sequences may leave. -/
theorem Booked.leave {kv : KvBudget} {contextLen : ℕ} {worker next : Worker S Task}
    (hworker : worker.Booked kv contextLen) (hactive : ∀ seq ∈ next.active, seq ∈ worker.active)
    (hresume : next.resume = worker.resume) : next.Booked kv contextLen :=
  ⟨fun seq hseq => hworker.active seq (hactive seq hseq), by rw [hresume]; exact hworker.resume⟩

variable [BatchedInferenceServer S Row Task] {kv : KvBudget} {contextLen : ℕ}

/-! ## Growth -/

omit [BatchedInferenceServer S Row Task] in
/-- A booked senior is at its top. -/
theorem topUpSenior_of_booked (reserved : ℕ) {active : List JobSeq}
    (hactive : ∀ seq ∈ active, seq.Booked kv contextLen) :
    topUpSenior kv contextLen reserved active = (active, reserved) := by
  induction active with
  | nil => rfl
  | cons seq rest ih =>
      have hrest := ih fun other hother => hactive other (List.mem_cons_of_mem _ hother)
      have hseq := (hactive seq List.mem_cons_self).reserved
      simp only [topUpSenior, hrest, ← hseq, lt_irrefl, if_false, ite_self]

/-- The growth loop goes past whoever is booked. -/
theorem growLoop_of_booked (seniorIndex : Option ℕ) {todo : List JobSeq}
    (htodo : ∀ seq ∈ todo, seq.Booked kv contextLen ∧ SumCovers kv contextLen seq.total)
    (past : List JobSeq)
    (resume : List ResumedJob) (server : S) (reserved : ℕ) :
    loop (growStep kv contextLen seniorIndex) todo.length
        ⟨past, todo, resume, server, reserved⟩ = ⟨past ++ todo, [], resume, server, reserved⟩ := by
  induction todo generalizing past with
  | nil => simp [loop]
  | cons seq rest ih =>
      have hrest := ih fun other hother => htodo other (List.mem_cons_of_mem _ hother)
      obtain ⟨hseq, hcovers⟩ := htodo seq List.mem_cons_self
      have hsame : { seq with paused := false } = seq := by rw [← hseq.unpaused]
      have hcovered := hseq.covers hcovers (Nat.le_add_right seq.tokens.length _)
      have hstep : growStep kv contextLen seniorIndex
          (⟨past, seq :: rest, resume, server, reserved⟩ : Growth S) =
            (true, ⟨past ++ [seq], rest, resume, server, reserved⟩) := by
        simp only [growStep, if_pos hcovered, hsame, ite_self]
      rw [List.length_cons, loop, hstep]
      simp only [hrest, List.append_assoc, List.singleton_append]

/-- **A growth pass over booked sequences does nothing**, if their sums cover their
worst cases. -/
theorem grantKvGrowth_of_booked {worker : Worker S Task} (hworker : worker.Booked kv contextLen)
    (hcovers : ∀ seq ∈ worker.active, SumCovers kv contextLen seq.total) :
    grantKvGrowth kv contextLen worker = worker := by
  unfold grantKvGrowth
  by_cases hlimited : kv.totalBlocks = usizeMax
  · rw [if_pos hlimited]
  · simp only [if_neg hlimited, growthStart, topUpSenior_of_booked _ hworker.active,
      growLoop_of_booked _ fun seq hseq => ⟨hworker.active seq hseq, hcovers seq hseq⟩,
      List.nil_append, List.append_nil]

/-! ## The other stages -/

theorem Booked.commands (commands : List (Command Task)) {worker : Worker S Task}
    (hworker : worker.Booked kv contextLen) :
    (worker.handleCommands commands).2.Booked kv contextLen := by
  refine handleCommands_induction commands (fun before command hbefore => ?_) hworker
  rcases handleCommand_cases (before.emit [.received command]) command with
    ⟨queued, _, hcase⟩ | ⟨_, hcase⟩ | ⟨_, server, effects, hcase, _⟩ <;> rw [hcase] <;>
    exact hbefore.congr rfl rfl

theorem Booked.queueStep {capacity : BatchCapacity}
    (hreserves : ReservesUpFront S capacity contextLen) (env : TurnEnv Task)
    {worker : Worker S Task} (hworker : worker.Booked capacity.kv contextLen) :
    (queueStep env worker).2.Booked capacity.kv contextLen := by
  generalize hnext : Worker.queueStep env worker = next
  have hcase := queueStep_cases env worker
  rw [hnext] at hcase
  cases hcase with
  | idle => exact hworker
  | turned => exact hworker.congr rfl rfl
  | waiting => exact hworker.congr rfl rfl
  | @started front rest tokens slot hqueue hslots hrunnable hslot hroom =>
      refine ⟨fun seq hseq => ?_, hworker.resume⟩
      rcases List.mem_append.mp hseq with hseq | hseq
      · exact hworker.active seq hseq
      · obtain rfl := List.mem_singleton.mp hseq
        refine ⟨Nat.zero_le _, rfl, ?_⟩
        simp [QueuedJob.seq, startGuarantee, admissionGuarantee, worstCase, hreserves.reserve,
          hreserves.capacity_eq, hreserves.context_eq]

/-- Nobody comes back and whoever starts is booked. -/
theorem Booked.admitJobs {capacity : BatchCapacity}
    (hreserves : ReservesUpFront S capacity contextLen) (env : TurnEnv Task)
    {worker : Worker S Task} (hworker : worker.Booked capacity.kv contextLen) :
    (admitJobs env worker).Booked capacity.kv contextLen := by
  unfold Worker.admitJobs
  rw [hworker.resume]
  exact loop_induction (fun _ hstate => hstate.queueStep hreserves env) _ hworker

omit [BatchedInferenceServer S Row Task] in
theorem Booked.sweep (env : TurnEnv Task) {worker next : Worker S Task}
    (hworker : worker.Booked kv contextLen)
    (hactive : next.active = worker.active.map (cancelSweep env))
    (hresume : next.resume = worker.resume) : next.Booked kv contextLen := by
  refine ⟨fun seq hseq => ?_, by rw [hresume]; exact hworker.resume⟩
  rw [hactive] at hseq
  obtain ⟨before, hbefore, rfl⟩ := List.mem_map.mp hseq
  have hbooked := hworker.active before hbefore
  unfold cancelSweep
  split
  · exact ⟨hbooked.generated_le, hbooked.unpaused, hbooked.reserved⟩
  · exact hbooked

theorem Booked.round (configured : S) {worker : Worker S Task}
    (hworker : worker.Booked kv contextLen) :
    (runRound configured worker).Booked kv contextLen := by
  refine ⟨fun next hnext => ?_, hworker.resume⟩
  obtain ⟨seq, hseq, hstep⟩ := exists_of_forall₂_right (runRound_active configured worker) hnext
  have hbooked := hworker.active seq hseq
  obtain ⟨hle, htotal⟩ := hstep.total hbooked.generated_le
  obtain ⟨_, hreservation, _, hpaused, _⟩ := hstep.frame
  exact ⟨hle, hpaused.trans hbooked.unpaused, by
    rw [hreservation, hbooked.reserved, addWord_congr htotal.symm]⟩

/-- Before its growth pass a turn's worker is booked. -/
theorem Booked.beforeGrowth {capacity : BatchCapacity}
    (hreserves : ReservesUpFront S capacity contextLen) (env : TurnEnv Task)
    {worker : Worker S Task} (hworker : worker.Booked capacity.kv contextLen) :
    (beforeGrowth env worker).Booked capacity.kv contextLen :=
  (hworker.admitJobs hreserves env).sweep env rfl rfl

/-- A turn whose growth pass changes nothing keeps everyone booked. -/
theorem Booked.step {capacity : BatchCapacity}
    (hreserves : ReservesUpFront S capacity contextLen) (env : TurnEnv Task)
    {worker : Worker S Task} (hworker : worker.Booked capacity.kv contextLen)
    (hstill : grantKvGrowth capacity.kv contextLen (Worker.beforeGrowth env worker) =
      Worker.beforeGrowth env worker) :
    (step env (Worker.admitJobs env worker)).Booked capacity.kv contextLen := by
  have hprepared : (prepareRound env (Worker.admitJobs env worker)).Booked capacity.kv
      contextLen := by
    rw [prepareRound_eq, hreserves.capacity_eq, hreserves.context_eq, hstill, ite_self]
    exact hworker.beforeGrowth hreserves env
  unfold Worker.step
  split
  · exact hworker.admitJobs hreserves env
  · dsimp only
    split
    · exact ⟨by simp [failActive, emit], hprepared.resume⟩
    · next server _ =>
        have hround := Booked.round (Worker.admitJobs env worker).server
          (hprepared.congr rfl rfl :
            Booked _ _ { prepareRound env (Worker.admitJobs env worker) with server })
        exact hround.leave (fun seq hseq => List.mem_of_mem_filter hseq) rfl

/-- **Everyone is booked as long as growth does nothing.** If a booked worker's growth
pass changes nothing in any turn of a run, every turn finds its worker booked. -/
theorem booked_of_still {capacity : BatchCapacity}
    (hreserves : ReservesUpFront S capacity contextLen) {server : S} {envs : List (TurnEnv Task)}
    (hstill : ∀ env worker, Admits envs server env worker → worker.Booked capacity.kv contextLen →
      grantKvGrowth capacity.kv contextLen (Worker.beforeGrowth env worker) =
        Worker.beforeGrowth env worker)
    {env : TurnEnv Task} {worker : Worker S Task} (hadmits : Admits envs server env worker) :
    worker.Booked capacity.kv contextLen := by
  have hrun : ∀ before after, envs = before ++ after → ∀ taken,
      run before (Worker.spawn server) = (.continue, taken) →
        taken.Booked capacity.kv contextLen := by
    intro before
    induction before using List.reverseRecOn with
    | nil =>
        rintro after - taken hrun
        obtain rfl := (Prod.mk.inj hrun).2
        exact .spawn server
    | append_singleton before last ih =>
        intro after henvs taken hrun
        rw [run_concat] at hrun
        split at hrun
        swap
        · next hstopped => exact absurd (by rw [hrun]) hstopped
        next hflow =>
        have hprior := ih (last :: after) (by rw [henvs, List.append_assoc]; rfl) _
          (Prod.ext hflow rfl)
        set prior := (run before (Worker.spawn server)).2 with hprior_def
        unfold Worker.turn at hrun
        split at hrun
        · simp at hrun
        next hbusy =>
        split at hrun
        · simp at hrun
        next commanded hcommands =>
        obtain rfl := (Prod.mk.inj hrun).2
        have hcommanded := hprior.commands last.commands
        rw [hcommands] at hcommanded
        exact hcommanded.step hreserves last (hstill last commanded ⟨before, after, prior,
          by rw [henvs, List.append_assoc]; rfl, Prod.ext hflow rfl, hbusy, hcommands⟩ hcommanded)
  obtain ⟨before, after, taken, henvs, htaken, _, hcommands⟩ := hadmits
  have hhandled := (hrun before (env :: after) henvs taken htaken).commands env.commands
  rw [hcommands] at hhandled
  exact hhandled

/-- A worker a growth pass changes nothing about: nobody is paused or was evicted, and
what a sequence holds covers every length it can still reach. -/
structure Undisturbed (kv : KvBudget) (contextLen : ℕ) (found : Worker S Task) : Prop where
  still : grantKvGrowth kv contextLen found = found
  resume : found.resume = []
  unpaused : ∀ seq ∈ found.active, seq.paused = false
  covers : ∀ seq ∈ found.active, ∀ length ≤ seq.total,
    kv.blocksFor (min length contextLen) ≤ seq.kvReservation

/-- **When reserve admission leaves growth nothing to do.** In every turn of a run,
whatever was cancelled and whatever the decoder and the sampler answered, the growth
pass finds nothing to change, exactly if in every turn what the worst case of each
active sequence comes to in a machine word covers it. -/
theorem growth_does_nothing_iff {capacity : BatchCapacity}
    (hreserves : ReservesUpFront S capacity contextLen) (server : S)
    (envs : List (TurnEnv Task)) :
    (∀ env worker, Admits envs server env worker →
      Undisturbed capacity.kv contextLen (beforeGrowth env worker)) ↔
    ∀ env worker, Admits envs server env worker → ∀ seq ∈ (beforeGrowth env worker).active,
      SumCovers capacity.kv contextLen seq.total := by
  constructor
  · intro hundisturbed env worker hadmits seq hseq
    have hworker := booked_of_still hreserves (fun env worker hadmits _ =>
      (hundisturbed env worker hadmits).still) hadmits
    have hcovers := (hundisturbed env worker hadmits).covers seq hseq _ le_rfl
    rwa [((hworker.beforeGrowth hreserves env).active seq hseq).reserved] at hcovers
  · intro hcovers env worker hadmits
    have hstill : ∀ env worker, Admits envs server env worker →
        worker.Booked capacity.kv contextLen →
          grantKvGrowth capacity.kv contextLen (beforeGrowth env worker) =
            beforeGrowth env worker := fun env worker hadmits hworker =>
      grantKvGrowth_of_booked (hworker.beforeGrowth hreserves env) (hcovers env worker hadmits)
    have hworker := booked_of_still hreserves hstill hadmits
    have hfound := hworker.beforeGrowth hreserves env
    exact ⟨hstill env worker hadmits hworker, hfound.resume,
      fun seq hseq => (hfound.active seq hseq).unpaused, fun seq hseq length hlength =>
        (hfound.active seq hseq).covers (hcovers env worker hadmits seq hseq) hlength⟩

/-- It is enough that the worst cases of the jobs submitted are covered. -/
theorem covers_of_submitted {server : S} {envs : List (TurnEnv Task)}
    (hsubmitted : ∀ env ∈ envs, ∀ queued, .submit queued ∈ env.commands →
      queued.SumCovered S kv contextLen)
    {env : TurnEnv Task} {worker : Worker S Task} (hadmits : Admits envs server env worker) :
    ∀ seq ∈ (beforeGrowth env worker).active, SumCovers kv contextLen seq.total := by
  obtain ⟨before, after, taken, rfl, hrun, _, hcommands⟩ := hadmits
  have htaken : taken.Summed kv contextLen := by
    have hsummed := Summed.run (fun env henv => hsubmitted env (List.mem_append_left _ henv))
      (Summed.spawn server)
    rw [hrun] at hsummed
    exact hsummed
  have hworker : worker.Summed kv contextLen := by
    have hhandled := (handleCommands_moves env.commands (fun _ h => h) taken).induction
      (fun _ _ hbefore => hbefore.move (hsubmitted env (by simp))) htaken
    rw [hcommands] at hhandled
    exact hhandled
  exact fun seq hseq => (((hworker.admits (admitJobs_admits env worker)).sweep env).active seq
    hseq).2

/-- Five blocks: two sequences generate side by side, the last token of the pool
included. -/
theorem growth_does_nothing_when_full :
    let config : RecallConfig :=
      { capacity := ⟨2, ⟨1, 5⟩⟩
        admission := .reserve
        chunkSize := 0
        tokenBudget := 0
        contextLen := 100
        stops := []
        generationCap := 10
        next := fun tokens => tokens.getLastD 0 }
    let before : List (TurnEnv (List Token)) :=
      [.taking [.submission 0 2 [7], .submission 1 1 [7]]]
    let worker : Worker (RecallServer config) (List Token) := (run before (spawn .fresh)).2
    worker.active ≠ [] ∧
      Undisturbed config.capacity.kv 100 (beforeGrowth (.taking []) worker) := by
  intro config before worker
  have hreserves : ReservesUpFront (RecallServer config) config.capacity 100 :=
    ⟨fun _ => rfl, fun _ => rfl, fun _ => rfl⟩
  have hsubmitted : ∀ env ∈ before ++ [.taking []], ∀ queued, .submit queued ∈ env.commands →
      queued.SumCovered (RecallServer config) config.capacity.kv 100 := by
    intro env henv queued hqueued server tokens htokens
    have hprompt : queued.job.task.length = 1 := by
      revert queued
      revert env
      simp [before, TurnEnv.taking, Command.submission]
    obtain rfl : queued.job.task = tokens := Except.ok.inj htokens
    have hcap : queued.job.maxGen 10 ≤ 10 := queued.job.maxGen_le 10
    exact .of_lt (by
      rw [hprompt]
      exact Nat.lt_of_le_of_lt (Nat.add_le_add_left hcap 1) (by decide))
  refine ⟨by decide +kernel, (growth_does_nothing_iff hreserves .fresh (before ++ [.taking []])).mpr
    (fun _ _ => covers_of_submitted hsubmitted) (.taking []) worker
    ⟨before, [], worker, rfl, Prod.ext (by decide +kernel) rfl, ?_, rfl⟩⟩
  decide +kernel

/-- **A wrapped cap is reserved for what is left of it.** A prompt of three tokens and
a cap that fills the word: two blocks are reserved, and the first growth pass adds
one. -/
theorem growth_does_something :
    ∃ (config : RecallConfig) (envs : List (TurnEnv (List Token))) (env : TurnEnv (List Token))
      (worker : Worker (RecallServer config) (List Token)),
      ReservesUpFront (RecallServer config) config.capacity config.contextLen ∧
        Admits envs .fresh env worker ∧
        grantKvGrowth config.capacity.kv config.contextLen (beforeGrowth env worker) ≠
          beforeGrowth env worker := by
  let config : RecallConfig :=
    { capacity := ⟨1, ⟨1, 8⟩⟩
      admission := .reserve
      chunkSize := 0
      tokenBudget := 0
      contextLen := 100
      stops := []
      generationCap := 2 ^ 64 - 1
      next := fun tokens => tokens.getLastD 0 }
  let env : TurnEnv (List Token) := .taking [.submit ⟨⟨[7, 7, 7], 0, none, 0⟩, 0, 0⟩]
  let worker : Worker (RecallServer config) (List Token) :=
    ((spawn .fresh).handleCommands env.commands).2
  refine ⟨config, [env], env, worker, ⟨fun _ => rfl, fun _ => rfl, fun _ => rfl⟩,
    ⟨[], [], spawn .fresh, rfl, rfl, by decide, Prod.ext (by decide +kernel) rfl⟩, fun hsame => ?_⟩
  have hreserved := congrArg (fun found => found.active.map ActiveSeq.kvReservation) hsame
  revert hreserved
  decide +kernel

end Worker

end BurnLm.Inference
