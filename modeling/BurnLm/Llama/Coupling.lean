/-
# Scheduler and cache stay coupled

The scheduler counts a sequence's processed tokens and the cache counts its
lane's length. Nothing compares the two; they agree because every way a sequence
can leave frees its lane before the slot is handed out again. This module reads
that off the lockstep invariant for the decoder the servers run on.
-/

import BurnLm.Inference.Drain
import BurnLm.Inference.PoolSafety
import BurnLm.Llama.Decoder

namespace BurnLm.Llama

open BurnLm.PagedKv BurnLm.Inference

universe u v w

variable {α : Type u} {Row Task : Type v} {R : Type w} {layout : KvLayout}

/-- A fresh cache has an empty ledger of the size asked for. -/
theorem pool_of_new [Zero α] {maxLanes blockSize usableBlocks : ℕ}
    {uninit : ℕ → (List ℕ → α) × (List ℕ → α)} {cache : PagedKvCache α}
    (hnew : PagedKvCache.new layout maxLanes blockSize usableBlocks uninit = some cache) :
    BlockPool.new blockSize (usableBlocks + 1) maxLanes = some cache.pool := by
  unfold PagedKvCache.new at hnew
  split at hnew
  · obtain ⟨pool, hpool, rfl⟩ := Option.map_eq_some_iff.mp hnew
    exact hpool
  · simp at hnew

namespace LlamaDecoder

variable [ServerSettings R Row Task]

variable (R) in
/-- A server on a Llama decoder, read against the decoder's first ledger. -/
abbrev laneModel (engine : LlamaDecoder α Row layout) :
    LaneModel (Driven (LlamaDecoder α Row layout) R) (ℕ × List (Token × ℕ)) :=
  Driven.pooled R ledger engine.ledger

omit [ServerSettings R Row Task] in
/-- A worker just spawned around a fresh cache is in step, and its lanes are
empty. -/
theorem coupled_spawn [Zero α] {engine : LlamaDecoder α Row layout}
    {maxLanes blockSize usableBlocks : ℕ} {uninit : ℕ → (List ℕ → α) × (List ℕ → α)} (settings : R)
    (hnew : PagedKvCache.new layout maxLanes blockSize usableBlocks uninit = some engine.cache) :
    let worker : Worker (Driven (LlamaDecoder α Row layout) R) Task :=
      .spawn (Driven.fresh engine settings)
    worker.Lockstep (engine.laneModel R) ∧ worker.Tidy (engine.laneModel R) := by
  have hpool := pool_of_new hnew
  refine ⟨Worker.Lockstep.spawn (Driven.Sound.fresh settings (BlockPool.partitioned_of_new hpool)),
    fun lane _ => Prod.ext (BlockPool.laneLen_of_new hpool lane) rfl⟩

/-- **Scheduler and cache stay coupled.** After every turn of every run over
submissions, with whatever cancellations, refusals and sampler failures: active
slots are distinct lanes, each lane's length is its sequence's processed count
and it was pushed exactly the processed tokens, in order, each once; every other
lane is empty; every prefill went on from its lane's length, every decode named
distinct lanes; and what was ever pushed in one occupancy was some token list in
order, each token at its own position. -/
theorem coupled [Zero α] {engine : LlamaDecoder α Row layout} {maxSlots blockSize usableBlocks : ℕ}
    {uninit : ℕ → (List ℕ → α) × (List ℕ → α)} (settings : R)
    (hnew : PagedKvCache.new layout maxSlots blockSize usableBlocks uninit = some engine.cache)
    (hslots : ∀ settings : R, (ServerSettings.batchCapacity settings).maxSlots = maxSlots)
    (envs : List (TurnEnv Task))
    (hcommands : ∀ env ∈ envs, ∀ command ∈ env.commands, command.isServed = false) :
    let worker := (Worker.run envs (Worker.spawn (Driven.fresh engine settings))).2
    let cache := worker.server.engine.cache
    (worker.active.map ActiveSeq.slot).Nodup ∧
      (∀ seq ∈ worker.active, seq.slot < cache.pool.laneCount ∧
        cache.laneLen seq.slot = seq.processed ∧
        occupancy ledger worker.server.calls seq.slot =
          (seq.tokens.take seq.processed).zipIdx) ∧
      (∀ lane, (∀ seq ∈ worker.active, seq.slot ≠ lane) →
        cache.laneLen lane = 0 ∧ cache.pool.laneBlocks lane = []) ∧
      (∀ issued ∈ worker.server.calls, issued.Placed ledger) ∧
      ∀ earlier, earlier <+: worker.server.calls → ∀ lane, ∃ tokens : List Token,
        occupancy ledger earlier lane = tokens.zipIdx := by
  intro worker cache
  obtain ⟨_, hlanes, _⟩ := BlockPool.new_fields (pool_of_new hnew)
  have hhonoured : (engine.laneModel R).Honoured :=
    Driven.pooled_honoured poolBacked fun settings => by
      rw [hslots settings]
      exact hlanes.ge
  obtain ⟨hspawned, hempty⟩ := @coupled_spawn α Row Task R layout _ engine _ _ _ _ settings hnew
  obtain ⟨hlockstep, htidy⟩ := hempty.run hhonoured (fun _ => rfl) hspawned envs hcommands
  have hbetween : worker.Between := by
    have hspawn : Worker.Between (Worker.spawn (Driven.fresh engine settings) :
        Worker (Driven (LlamaDecoder α Row layout) R) Task) := by simp [Worker.Between, Worker.spawn]
    exact hspawn.run envs
  have hsound : worker.server.Sound ledger engine.ledger := hlockstep.sound
  refine ⟨hlockstep.step.nodup, fun seq hseq => ?_, fun lane hlane => ?_, hsound.placed,
    hsound.contiguous⟩
  · obtain ⟨hlength, hpushed⟩ := Prod.mk.inj (hlockstep.step.held seq hseq (hbetween seq hseq))
    refine ⟨lt_of_lt_of_eq (hlockstep.step.valid seq hseq) hsound.size.laneCount.symm, ?_, hpushed⟩
    exact hlength.trans (List.length_take_of_le (hlockstep.step.processed_le seq hseq))
  · have hlength : cache.laneLen lane = 0 := congrArg Prod.fst (htidy lane hlane)
    refine ⟨hlength, List.eq_nil_of_length_eq_zero ?_⟩
    have hcovers := hsound.partitioned.covers lane
    rw [show worker.server.engine.ledger.laneLen lane = 0 from hlength] at hcovers
    exact hcovers.trans (by simp [BlockPool.blocksFor])

/-- Two lanes over six one-token blocks, left with one sequence running and one
evicted. -/
theorem coupled_under_eviction :
    let layout : KvLayout := ⟨1, 1, 1, 8, by decide⟩
    let cache := (PagedKvCache.new layout 2 1 6 fun _ => (fun _ => 0, fun _ => 0)).get rfl
    let engine : LlamaDecoder ℕ (List Token) layout :=
      ⟨cache, rfl, fun input _ layers => (⟨1, input⟩, layers)⟩
    let config : RecallConfig :=
      { capacity := ⟨2, ⟨1, 6⟩⟩
        admission := .elastic
        chunkSize := 0
        tokenBudget := 0
        contextLen := 8
        stops := []
        generationCap := 10
        next := fun tokens => tokens.getLastD 0 }
    let settings : FixedSettings config := .mk
    let envs : List (TurnEnv (List Token)) :=
      [.taking [.submission 0 1 [7], .submission 1 5 [7], .submission 2 2 [7, 8, 9]], .taking [],
        .taking []]
    let worker := (Worker.run envs (Worker.spawn (Driven.fresh engine settings))).2
    worker.active.length = 1 ∧ worker.resume.length = 1 ∧
      (∀ seq ∈ worker.active, worker.server.engine.cache.laneLen seq.slot = seq.processed) ∧
      ∀ issued ∈ worker.server.calls, issued.Placed ledger := by
  intro layout cache engine config settings envs worker
  have hnew : PagedKvCache.new layout 2 1 6 (fun _ => (fun _ => 0, fun _ => 0)) =
      some engine.cache := rfl
  obtain ⟨_, hactive, _, hplaced, _⟩ := coupled settings hnew (fun _ => rfl) envs (by decide)
  exact ⟨by decide +kernel, by decide +kernel, fun seq hseq => (hactive seq hseq).2.1, hplaced⟩

end LlamaDecoder

end BurnLm.Llama

namespace BurnLm.Inference.Worker

open BurnLm.PagedKv BurnLm.Llama

variable {D : Type u} {Row Task : Type v} {R : Type w} [BatchedDecoder D Row]
  [ServerSettings R Row Task] {pool : D → BlockPool} {capacity : BatchCapacity} {contextLen : ℕ}

/-- **The pool never runs dry.** Under a fixed capacity whose budget is that of
the decoder's pool, in every state of every turn of every run over submissions:
the reservations together stay within the pool, the blocks of every active lane
stay within its sequence's reservation, and every round a call has asked the pool
for was granted. -/
theorem pool_never_exhausted (hbacked : PoolBacked D pool)
    (hcapacity : ∀ settings : R, ServerSettings.batchCapacity settings = capacity)
    (hcontext : ∀ engine : D, maxContextLen engine = contextLen) {engine : D} (settings : R)
    {numBlocks laneCount : ℕ}
    (hnew : BlockPool.new capacity.kv.blockSize numBlocks laneCount = some (pool engine))
    (husable : (pool engine).usableBlocks = capacity.kv.totalBlocks)
    (hlanes : capacity.maxSlots ≤ laneCount) (envs : List (TurnEnv Task)) (env : TurnEnv Task)
    (hcommands : ∀ other ∈ env :: envs, ∀ command ∈ other.commands, command.isServed = false)
    {next : Worker (Driven D R) Task}
    (hnext : Moves env (run envs (spawn (Driven.fresh engine settings))).2 next) :
    reservedBlocks next.active ≤ capacity.kv.totalBlocks ∧
      (∀ seq ∈ next.active,
        ((pool next.server.engine).laneBlocks seq.slot).length ≤ seq.kvReservation) ∧
      ∀ issued ∈ next.server.calls, issued.Granted pool := by
  obtain ⟨hblock, hcount, hblocks⟩ := BlockPool.new_fields hnew
  have hbudget : Driven.Budgeted D R pool (pool engine) capacity contextLen :=
    { backed := hbacked
      capacity_eq := hcapacity
      context_eq := hcontext
      blockSize_eq := hblock
      usableBlocks_eq := husable
      lanes := hcount.symm ▸ hlanes
      limited := by
        -- block ids are 32 bits wide
        rw [← husable, hblocks, usizeMax]
        omega }
  have hrun := run_induction envs (fun other hother _ _ hworker =>
    Funded.move hbudget (hcommands other (List.mem_cons_of_mem _ hother)) hworker)
    (Funded.spawn settings hnew)
  have hfunded := hnext.induction (fun _ _ hworker =>
    Funded.move hbudget (hcommands env List.mem_cons_self) hworker) hrun
  have hsound : next.server.Sound pool (pool engine) := hfunded.lockstep.sound
  refine ⟨hfunded.reserved.sum_le, fun seq hseq => ?_, hfunded.spending.granted⟩
  have hspent := hfunded.spending.backed _ (mem_claims hseq)
  rw [hsound.partitioned.covers, BlockPool.blocksFor, hsound.size.blockSize, hblock]
  exact hspent

/-- Two lanes over six one-token blocks, in the turn that evicts. -/
theorem pool_never_exhausted_under_eviction :
    let layout : KvLayout := ⟨1, 1, 1, 8, by decide⟩
    let cache := (PagedKvCache.new layout 2 1 6 fun _ => (fun _ => 0, fun _ => 0)).get rfl
    let engine : LlamaDecoder ℕ (List Token) layout :=
      ⟨cache, rfl, fun input _ layers => (⟨1, input⟩, layers)⟩
    let config : RecallConfig :=
      { capacity := ⟨2, ⟨1, 6⟩⟩
        admission := .elastic
        chunkSize := 0
        tokenBudget := 0
        contextLen := 8
        stops := []
        generationCap := 10
        next := fun tokens => tokens.getLastD 0 }
    let settings : FixedSettings config := .mk
    let envs : List (TurnEnv (List Token)) :=
      [.taking [.submission 0 1 [7], .submission 1 5 [7], .submission 2 2 [7, 8, 9]], .taking []]
    let worker := (run envs (spawn (Driven.fresh engine settings))).2
    let next := (worker.turn (.taking [])).2
    worker.resume.length = 0 ∧ next.resume.length = 1 ∧ reservedBlocks worker.active = 6 ∧
      reservedBlocks next.active ≤ 6 ∧
      ∀ issued ∈ next.server.calls, issued.Granted LlamaDecoder.ledger := by
  intro layout cache engine config settings envs worker next
  have hnew : BlockPool.new 1 7 2 = some engine.ledger := by decide
  obtain ⟨hsum, _, hgranted⟩ := pool_never_exhausted LlamaDecoder.poolBacked
    (fun _ : FixedSettings config => rfl)
    (fun engine => congrArg KvLayout.maxSeqLen engine.layout_eq) settings hnew (by decide) (by decide)
    envs (.taking []) (by decide) (turn_moves _ _)
  exact ⟨by decide +kernel, by decide +kernel, by decide +kernel, hsum, hgranted⟩

end BurnLm.Inference.Worker
