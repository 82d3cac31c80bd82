/-
# Reservations stay within the pool

Admission, growth, eviction and retirement all change how many blocks are
reserved. Under a fixed capacity no move lets the reservations outgrow the pool,
and every sequence the worker holds, active or evicted, could finish if it had
the pool to itself. The second fact is what eviction and draining rest on.
-/

import Mathlib.Algebra.Order.BigOperators.Group.List
import BurnLm.Inference.Turn

namespace BurnLm.Inference

open BurnLm.Math
open Relation (ReflTransGen)

universe u v w

/-! ## What a round changes of a sequence -/

section Steps

variable {X : Type w} {maxContextLen : ℕ} {stopIds : List Token}

/-- A round leaves a sequence's place and its settings alone. -/
theorem SeqStep.frame {seq next : ActiveSeq X} {outcome : StepOutcome}
    (hstep : SeqStep maxContextLen stopIds seq next outcome) :
    next.slot = seq.slot ∧ next.kvReservation = seq.kvReservation ∧ next.maxGen = seq.maxGen ∧
      next.paused = seq.paused ∧ next.extra = seq.extra := by
  cases hstep <;> simp [advanceOrFail]

/-- A round moves generated tokens onto the sequence one by one, never past the
cap. -/
theorem SeqStep.generated {seq next : ActiveSeq X} {outcome : StepOutcome}
    (hstep : SeqStep maxContextLen stopIds seq next outcome)
    (hgenerated : seq.generated ≤ seq.maxGen) :
    next.generated ≤ seq.maxGen ∧ seq.generated ≤ next.generated ∧
      next.tokens.length + seq.generated = seq.tokens.length + next.generated := by
  cases hstep with
  | stepped _ _ hlt _ _ token =>
      simp only [advanceOrFail, List.length_append, List.length_singleton]
      omega
  | _ => exact ⟨hgenerated, le_rfl, rfl⟩

end Steps

/-- A sequence that admission lets into an empty pool: it generates within its cap,
and what its worst case comes to in a machine word fits. -/
structure Feasible (kv : KvBudget) (maxContextLen length maxGen generated : ℕ) : Prop where
  generated_le : generated ≤ maxGen
  fits : kv.blocksFor (min (addWord length (maxGen - generated)) maxContextLen) ≤ kv.totalBlocks

/-- A sequence's feasibility. -/
def ActiveSeq.Feasible (kv : KvBudget) (maxContextLen : ℕ) (seq : JobSeq) : Prop :=
  BurnLm.Inference.Feasible kv maxContextLen seq.tokens.length seq.maxGen seq.generated

/-- An evicted sequence's feasibility. -/
def ResumedJob.Feasible (kv : KvBudget) (maxContextLen : ℕ) (job : ResumedJob) : Prop :=
  BurnLm.Inference.Feasible kv maxContextLen job.tokens.length job.maxGen job.generated

/-! ## Worst cases in a machine word -/

/-- The tokens a sequence has and may still get. -/
def ActiveSeq.total (seq : JobSeq) : ℕ := seq.tokens.length + (seq.maxGen - seq.generated)

def ResumedJob.total (job : ResumedJob) : ℕ := job.tokens.length + (job.maxGen - job.generated)

/-- What so many tokens come to in a machine word needs all the blocks they need. -/
def SumCovers (kv : KvBudget) (contextLen total : ℕ) : Prop :=
  kv.blocksFor (min total contextLen) ≤ kv.blocksFor (min (total % 2 ^ 64) contextLen)

/-- A sum that fits the word covers itself. -/
theorem SumCovers.of_lt {kv : KvBudget} {contextLen total : ℕ} (hfits : total < 2 ^ 64) :
    SumCovers kv contextLen total := by
  rw [SumCovers, Nat.mod_eq_of_lt hfits]

/-- It covers every part of itself. -/
theorem SumCovers.part {kv : KvBudget} {contextLen length more : ℕ}
    (hcovers : SumCovers kv contextLen (length + more)) {part : ℕ} (hpart : part ≤ length + more) :
    kv.blocksFor (min part contextLen) ≤ kv.blocksFor (min (addWord length more) contextLen) :=
  (ceilDiv_mono _ (min_le_min_right _ hpart)).trans hcovers

/-- A job whose worst case is covered, whatever its prompt is tokenized to. -/
def QueuedJob.SumCovered (S : Type u) {Row : Type v} {Task : Type w}
    [BatchedInferenceServer S Row Task] (kv : KvBudget) (contextLen : ℕ)
    (queued : QueuedJob Task) : Prop :=
  ∀ (server : S) (tokens : List Token), tokenize server queued.job.task = .ok tokens →
    SumCovers kv contextLen (tokens.length + queued.job.maxGen (maxGenTokens server))

/-- A server with a fixed capacity and context length whose decoder can always be
borrowed. -/
structure Steady (S : Type u) {Row : Type v} {Task : Type w} [BatchedInferenceServer S Row Task]
    (capacity : BatchCapacity) (contextLen : ℕ) : Prop where
  capacity_eq : ∀ server : S, batchCapacity server = capacity
  context_eq : ∀ server : S, maxContextLen server = contextLen
  decoder_ok : ∀ server : S, (decoder server).1 = .ok ()

theorem Steady.borrow {S : Type u} {Row : Type v} {Task : Type w}
    [BatchedInferenceServer S Row Task] {capacity : BatchCapacity} {contextLen : ℕ}
    (hsteady : Steady S capacity contextLen) (server : S) :
    ∃ borrowed, decoder server = (.ok (), borrowed) :=
  ⟨_, Prod.ext (hsteady.decoder_ok server) rfl⟩

namespace Worker

variable {S : Type u} {Row : Type v} {Task : Type w}

/-- The reservation invariant. -/
structure Reserved (capacity : BatchCapacity) (contextLen : ℕ) (worker : Worker S Task) :
    Prop where
  sum_le : reservedBlocks worker.active ≤ capacity.kv.totalBlocks
  feasible : ∀ seq ∈ worker.active, seq.Feasible capacity.kv contextLen
  resume_feasible : ∀ job ∈ worker.resume, job.Feasible capacity.kv contextLen
  /-- Without a budget nothing is ever paused. -/
  unpaused : capacity.kv.totalBlocks = usizeMax → ∀ seq ∈ worker.active, seq.paused = false

variable [BatchedInferenceServer S Row Task]

/-- What a round and the look at its outcomes did to one sequence. -/
def Stepped (contextLen : ℕ) (stopIds : List Token) (seq next : JobSeq) : Prop :=
  ∃ stepped outcome, SeqStep contextLen stopIds seq stepped outcome ∧
    next = noteOutcome stepped outcome

omit [BatchedInferenceServer S Row Task] in
theorem noteOutcome_eq (seq : JobSeq) (outcome : StepOutcome) :
    ∃ hitStop, noteOutcome seq outcome = { seq with extra := { seq.extra with hitStop } } := by
  unfold noteOutcome
  split
  · exact ⟨true, rfl⟩
  · exact ⟨seq.extra.hitStop, rfl⟩

/-- A round keeps everything but the sequences, the server and the log, and takes
every sequence one step. -/
theorem runRound_steps (configured : S) (worker : Worker S Task) :
    ∃ entries : List (Entry JobMeta),
      List.Forall₂ (fun seq entry => SeqStep (maxContextLen worker.server) (stopIds configured) seq
        entry.seq entry.outcome) worker.active entries ∧
      (stepRound (sampler configured) (stopIds configured)
        (PrefillBudget.forRound worker.active (prefillTokenBudget configured))
        (prefillChunkSize configured) worker.active worker.server).1 = entries.map Entry.seq ∧
      runRound configured worker = report
        { worker with
          server := (stepRound (sampler configured) (stopIds configured)
            (PrefillBudget.forRound worker.active (prefillTokenBudget configured))
            (prefillChunkSize configured) worker.active worker.server).2.2 }
        (entries.map Entry.seq) (entries.map Entry.outcome) := by
  obtain ⟨entries, hseqs, houtcomes, hsteps⟩ := @stepRound_steps JobMeta S Row _
    (sampler configured) (stopIds configured) (prefillChunkSize configured)
    (PrefillBudget.forRound worker.active (prefillTokenBudget configured)) worker.active
    worker.server
  refine ⟨entries, hsteps, hseqs, ?_⟩
  rw [← hseqs, ← houtcomes]
  rfl

theorem report_active (worker : Worker S Task) (entries : List (Entry JobMeta)) :
    (worker.report (entries.map Entry.seq) (entries.map Entry.outcome)).active =
      entries.map fun entry => noteOutcome entry.seq entry.outcome := by
  simp [report, emit, List.zip_map']

/-- The sequences after a round. -/
theorem runRound_active (configured : S) (worker : Worker S Task) :
    List.Forall₂ (Stepped (maxContextLen worker.server) (stopIds configured)) worker.active
      (runRound configured worker).active := by
  obtain ⟨entries, hsteps, _, hround⟩ := runRound_steps configured worker
  rw [hround, report_active]
  refine List.forall₂_map_right_iff.mpr (hsteps.imp fun seq entry hstep => ?_)
  exact ⟨entry.seq, entry.outcome, hstep, rfl⟩

omit [BatchedInferenceServer S Row Task] in
/-- Looking at an outcome changes only what the worker remembers. -/
theorem Stepped.frame {contextLen : ℕ} {stopIds : List Token} {seq next : JobSeq}
    (hstep : Stepped contextLen stopIds seq next) :
    next.slot = seq.slot ∧ next.kvReservation = seq.kvReservation ∧ next.maxGen = seq.maxGen ∧
      next.paused = seq.paused ∧ next.extra.id = seq.extra.id := by
  obtain ⟨stepped, outcome, hstep, rfl⟩ := hstep
  obtain ⟨hslot, hreservation, hmaxGen, hpaused, hextra⟩ := hstep.frame
  obtain ⟨hitStop, hnote⟩ := noteOutcome_eq stepped outcome
  rw [hnote]
  exact ⟨hslot, hreservation, hmaxGen, hpaused, by rw [← hextra]⟩

omit [BatchedInferenceServer S Row Task] in
/-- Generating moves tokens from what is still to come to what is there. -/
theorem Stepped.total {contextLen : ℕ} {stopIds : List Token} {seq next : JobSeq}
    (hstep : Stepped contextLen stopIds seq next) (hgenerated : seq.generated ≤ seq.maxGen) :
    next.generated ≤ next.maxGen ∧ next.total = seq.total := by
  obtain ⟨stepped, outcome, hstep, rfl⟩ := hstep
  obtain ⟨hle, _, htokens⟩ := hstep.generated hgenerated
  obtain ⟨_, _, hmaxGen, _, _⟩ := hstep.frame
  obtain ⟨hitStop, hnote⟩ := noteOutcome_eq stepped outcome
  rw [hnote]
  refine ⟨hle.trans_eq hmaxGen.symm, ?_⟩
  simp only [ActiveSeq.total]
  omega

omit [BatchedInferenceServer S Row Task] in
theorem Stepped.feasible {kv : KvBudget} {contextLen bound : ℕ} {stopIds : List Token}
    {seq next : JobSeq} (hstep : Stepped contextLen stopIds seq next)
    (hseq : seq.Feasible kv bound) : next.Feasible kv bound := by
  obtain ⟨hle, htotal⟩ := hstep.total hseq.generated_le
  refine ⟨hle, ?_⟩
  rw [addWord_congr htotal]
  exact hseq.fits

/-! ## The invariant -/

section Invariant

variable {capacity : BatchCapacity} {contextLen : ℕ}

theorem Reserved.spawn (server : S) :
    Reserved capacity contextLen (spawn server : Worker S Task) :=
  ⟨by simp [Worker.spawn, reservedBlocks], by simp [Worker.spawn], by simp [Worker.spawn],
    by simp [Worker.spawn]⟩

omit [BatchedInferenceServer S Row Task] in
/-- What the invariant reads. -/
theorem Reserved.congr {worker next : Worker S Task} (hworker : worker.Reserved capacity contextLen)
    (hactive : next.active = worker.active) (hresume : next.resume = worker.resume) :
    next.Reserved capacity contextLen :=
  ⟨by rw [hactive]; exact hworker.sum_le, by rw [hactive]; exact hworker.feasible,
    by rw [hresume]; exact hworker.resume_feasible, by rw [hactive]; exact hworker.unpaused⟩

/-- A sequence joins with blocks that are there. -/
theorem Reserved.join {worker next : Worker S Task} {seq : JobSeq}
    (hworker : worker.Reserved capacity contextLen)
    (hactive : next.active = worker.active ++ [seq])
    (hresume : ∀ job ∈ next.resume, job ∈ worker.resume)
    (hroom : seq.kvReservation ≤ capacity.kv.totalBlocks - reservedBlocks worker.active)
    (hfeasible : seq.Feasible capacity.kv contextLen) (hpaused : seq.paused = false) :
    next.Reserved capacity contextLen := by
  have hsum := hworker.sum_le
  refine ⟨?_, ?_, fun job hjob => hworker.resume_feasible job (hresume job hjob), ?_⟩
  · rw [hactive, reservedBlocks_append, reservedBlocks_cons]
    simp only [reservedBlocks, List.map_nil, List.sum_nil] at *
    omega
  · rw [hactive]
    simpa [or_imp, forall_and] using ⟨hworker.feasible, hfeasible⟩
  · intro hunlimited
    rw [hactive]
    simpa [or_imp, forall_and] using ⟨hworker.unpaused hunlimited, hpaused⟩

omit [BatchedInferenceServer S Row Task] in
/-- Sequences may change in place as long as their reservations do not. -/
theorem Reserved.relate {worker next : Worker S Task}
    (hworker : worker.Reserved capacity contextLen)
    (hactive : List.Forall₂ (fun before after : JobSeq =>
      after.kvReservation = before.kvReservation ∧ after.paused = before.paused ∧
        (before.Feasible capacity.kv contextLen → after.Feasible capacity.kv contextLen))
      worker.active next.active)
    (hresume : next.resume = worker.resume) : next.Reserved capacity contextLen := by
  have hreserved : reservedBlocks next.active = reservedBlocks worker.active := by
    have hmap : List.Forall₂ (· = ·) (worker.active.map ActiveSeq.kvReservation)
        (next.active.map ActiveSeq.kvReservation) :=
      List.forall₂_map_left_iff.mpr
        (List.forall₂_map_right_iff.mpr (hactive.imp fun _ _ h => h.1.symm))
    rw [List.forall₂_eq_eq_eq] at hmap
    rw [reservedBlocks, reservedBlocks, hmap]
  refine ⟨by rw [hreserved]; exact hworker.sum_le, ?_, by
    rw [hresume]; exact hworker.resume_feasible, ?_⟩
  · intro seq hseq
    obtain ⟨before, hbefore, _, _, hfeasible⟩ := exists_of_forall₂_right hactive hseq
    exact hfeasible (hworker.feasible before hbefore)
  · intro hunlimited seq hseq
    obtain ⟨before, hbefore, _, hpaused, _⟩ := exists_of_forall₂_right hactive hseq
    rw [hpaused]
    exact hworker.unpaused hunlimited before hbefore

omit [BatchedInferenceServer S Row Task] in
/-- Sequences may leave. -/
theorem Reserved.leave {worker next : Worker S Task}
    (hworker : worker.Reserved capacity contextLen)
    (hactive : next.active.Sublist worker.active)
    (hresume : ∀ job ∈ next.resume, job ∈ worker.resume ∨ ∃ seq ∈ worker.active, job = seq.evicted) :
    next.Reserved capacity contextLen := by
  refine ⟨le_trans ((hactive.map _).sum_le_sum (by simp)) hworker.sum_le,
    fun seq hseq => hworker.feasible seq (hactive.subset hseq), fun job hjob => ?_,
    fun hunlimited seq hseq => hworker.unpaused hunlimited seq (hactive.subset hseq)⟩
  rcases hresume job hjob with hjob | ⟨seq, hseq, rfl⟩
  · exact hworker.resume_feasible job hjob
  · exact hworker.feasible seq hseq

theorem Reserved.admission {env : TurnEnv Task} {worker next : Worker S Task}
    (hsteady : Steady S capacity contextLen) (hworker : worker.Reserved capacity contextLen)
    (hadmission : Admission env worker next) : next.Reserved capacity contextLen := by
  cases hadmission with
  | borrow => exact hworker.congr rfl rfl
  | resume candidate rest slot guaranteed hresume hborrowed hslot hroom =>
      rw [hsteady.capacity_eq] at hroom
      refine hworker.join rfl (fun job hjob => ?_) hroom ?_ rfl
      · rw [hresume]
        exact List.mem_cons_of_mem _ hjob
      · exact hworker.resume_feasible candidate (by rw [hresume]; exact List.mem_cons_self)
  | reject front rest error hqueue => exact hworker.congr rfl rfl
  | start front rest tokens maxGen guaranteed slot hqueue hborrowed htokens hmaxGen hneed hslot
      hroom =>
      rw [hsteady.capacity_eq] at hroom hneed
      rw [hsteady.context_eq] at hneed
      exact hworker.join rfl (fun job hjob => hjob) hroom ⟨Nat.zero_le _, hneed⟩ rfl

theorem Reserved.admits {env : TurnEnv Task} {worker next : Worker S Task}
    (hsteady : Steady S capacity contextLen) (hworker : worker.Reserved capacity contextLen)
    (hadmits : ReflTransGen (Admission env) worker next) :
    next.Reserved capacity contextLen := by
  induction hadmits with
  | refl => exact hworker
  | tail _ hlast ih => exact ih.admission hsteady hlast

omit [BatchedInferenceServer S Row Task] in
theorem Reserved.sweep (env : TurnEnv Task) {worker : Worker S Task}
    (hworker : worker.Reserved capacity contextLen) :
    Reserved capacity contextLen
      { worker with active := worker.active.map (cancelSweep env) } := by
  refine hworker.relate (List.forall₂_map_right_iff.mpr (List.forall₂_same.mpr ?_)) rfl
  intro seq _
  unfold cancelSweep
  split
  · exact ⟨rfl, rfl, id⟩
  · exact ⟨rfl, rfl, id⟩

theorem Reserved.regrowth {measured : S} {worker next : Worker S Task}
    (hsteady : Steady S capacity contextLen) (hworker : worker.Reserved capacity contextLen)
    (hregrowth : Regrowth measured worker next) : next.Reserved capacity contextLen := by
  cases hregrowth with
  | grow before seq after reservation paused hactive hlimited hraise hroom =>
      rw [hsteady.capacity_eq] at hroom hlimited
      have hsum := hworker.sum_le
      have hfeasible := hworker.feasible
      rw [hactive] at hsum hfeasible hroom
      refine ⟨?_, ?_, hworker.resume_feasible, fun hunlimited => absurd hunlimited hlimited⟩
      · rw [reservedBlocks_append, reservedBlocks_cons] at hsum hroom ⊢
        dsimp only
        omega
      · intro other hother
        rcases List.mem_append.mp hother with hother | hother
        · exact hfeasible other (List.mem_append_left _ hother)
        · rcases List.mem_cons.mp hother with rfl | hother
          · exact hfeasible seq (List.mem_append_right _ List.mem_cons_self)
          · exact hfeasible other (List.mem_append_right _ (List.mem_cons_of_mem _ hother))
  | evict before victim after hactive hunfinished =>
      refine hworker.leave ?_ ?_
      · rw [hactive]
        exact (List.sublist_cons_self victim after).append_left before
      · intro job hjob
        rcases List.mem_cons.mp hjob with rfl | hjob
        · exact Or.inr ⟨victim, by rw [hactive]; simp, rfl⟩
        · exact Or.inl hjob

/-- **Reservations stay within the pool**, move by move. -/
theorem Reserved.move {env : TurnEnv Task} {worker next : Worker S Task}
    (hsteady : Steady S capacity contextLen) (hworker : worker.Reserved capacity contextLen)
    (hmove : Move env worker next) : next.Reserved capacity contextLen := by
  cases hmove with
  | command given hgiven =>
      rcases handleCommand_cases (worker.emit [.received given]) given with
        ⟨queued, _, hcase⟩ | ⟨_, hcase⟩ | ⟨_, server, effects, hcase, _⟩ <;>
        rw [hcase] <;> exact hworker.congr rfl rfl
  | admission hadmission => exact hworker.admission hsteady hadmission
  | sweep => exact hworker.sweep env
  | regrowth measured hregrowth => exact hworker.regrowth hsteady hregrowth
  | round configured hborrowed hcovered =>
      have hsteps := runRound_active configured { worker with server := (decoder worker.server).2 }
      refine hworker.relate (hsteps.imp fun before after hstep => ?_) rfl
      obtain ⟨_, hreservation, _, hpaused, _⟩ := hstep.frame
      exact ⟨hreservation, hpaused, hstep.feasible⟩
  | retire => exact hworker.leave List.filter_sublist fun job hjob => Or.inl hjob
  | fail error hrefused =>
      exact hworker.leave (List.nil_sublist _) fun job hjob => Or.inl hjob

theorem Reserved.turn (hsteady : Steady S capacity contextLen) {worker : Worker S Task}
    (hworker : worker.Reserved capacity contextLen) (env : TurnEnv Task) :
    (worker.turn env).2.Reserved capacity contextLen :=
  (turn_moves env worker).induction (fun _ _ hbefore => hbefore.move hsteady) hworker

theorem Reserved.run (hsteady : Steady S capacity contextLen) {worker : Worker S Task}
    (hworker : worker.Reserved capacity contextLen) (envs : List (TurnEnv Task)) :
    (run envs worker).2.Reserved capacity contextLen :=
  run_induction envs (fun _ _ _ _ hbefore => hbefore.move hsteady) hworker

end Invariant

/-! ## Worst cases -/

/-- Every request held generates within its cap, and has a worst case that is
covered. -/
structure Summed (kv : KvBudget) (contextLen : ℕ) (worker : Worker S Task) : Prop where
  queue : ∀ queued ∈ worker.queue, queued.SumCovered S kv contextLen
  active : ∀ seq ∈ worker.active, seq.generated ≤ seq.maxGen ∧ SumCovers kv contextLen seq.total
  resume : ∀ job ∈ worker.resume, job.generated ≤ job.maxGen ∧ SumCovers kv contextLen job.total

section Summed

variable {kv : KvBudget} {contextLen : ℕ} {env : TurnEnv Task} {worker next : Worker S Task}

theorem Summed.spawn (server : S) : (spawn server : Worker S Task).Summed kv contextLen :=
  ⟨by simp [Worker.spawn], by simp [Worker.spawn], by simp [Worker.spawn]⟩

theorem Summed.admission (hworker : worker.Summed kv contextLen)
    (hadmission : Admission env worker next) : next.Summed kv contextLen := by
  cases hadmission with
  | borrow => exact ⟨hworker.queue, hworker.active, hworker.resume⟩
  | resume candidate rest slot guaranteed hresume =>
      have hheld := hworker.resume
      rw [hresume] at hheld
      refine ⟨hworker.queue, fun seq hseq => ?_, fun job hjob => hheld job (.tail _ hjob)⟩
      rcases List.mem_append.mp hseq with hseq | hseq
      · exact hworker.active seq hseq
      · obtain rfl := List.mem_singleton.mp hseq
        exact hheld candidate List.mem_cons_self
  | reject front rest error hqueue =>
      have hheld := hworker.queue
      rw [hqueue] at hheld
      exact ⟨fun queued hqueued => hheld queued (.tail _ hqueued), hworker.active, hworker.resume⟩
  | start front rest tokens maxGen guaranteed slot hqueue hborrowed htokens hmaxGen =>
      have hheld := hworker.queue
      rw [hqueue] at hheld
      refine ⟨fun queued hqueued => hheld queued (.tail _ hqueued), fun seq hseq => ?_,
        hworker.resume⟩
      rcases List.mem_append.mp hseq with hseq | hseq
      · exact hworker.active seq hseq
      · obtain rfl := List.mem_singleton.mp hseq
        exact ⟨Nat.zero_le _, hmaxGen ▸ hheld front List.mem_cons_self _ _ htokens⟩

theorem Summed.admits (hworker : worker.Summed kv contextLen)
    (hadmits : ReflTransGen (Admission env) worker next) : next.Summed kv contextLen := by
  induction hadmits with
  | refl => exact hworker
  | tail _ hlast ih => exact ih.admission hlast

theorem Summed.sweep (env : TurnEnv Task)
    (hworker : worker.Summed kv contextLen) :
    Summed kv contextLen { worker with active := worker.active.map (cancelSweep env) } := by
  refine ⟨hworker.queue, fun seq hseq => ?_, hworker.resume⟩
  obtain ⟨before, hbefore, rfl⟩ := List.mem_map.mp hseq
  have hbefore := hworker.active before hbefore
  unfold cancelSweep
  split <;> exact hbefore

/-- **Worst cases stay covered**, move by move, if those of the jobs submitted are. -/
theorem Summed.move
    (hsubmitted : ∀ queued, .submit queued ∈ env.commands → queued.SumCovered S kv contextLen)
    (hworker : worker.Summed kv contextLen) (hmove : Move env worker next) :
    next.Summed kv contextLen := by
  cases hmove with
  | command given hgiven =>
      rcases handleCommand_cases (worker.emit [.received given]) given with
        ⟨queued, rfl, hcase⟩ | ⟨_, hcase⟩ | ⟨_, server, effects, hcase, _⟩ <;> rw [hcase]
      · refine ⟨fun other hother => ?_, hworker.active, hworker.resume⟩
        rcases List.mem_append.mp hother with hother | hother
        · exact hworker.queue other hother
        · obtain rfl := List.mem_singleton.mp hother
          exact hsubmitted other hgiven
      · exact ⟨hworker.queue, hworker.active, hworker.resume⟩
      · exact ⟨hworker.queue, hworker.active, hworker.resume⟩
  | admission hadmission => exact hworker.admission hadmission
  | sweep => exact hworker.sweep env
  | regrowth measured hregrowth =>
      have hheld := hworker.active
      cases hregrowth with
      | grow before seq after reservation paused hactive =>
          rw [hactive] at hheld
          refine ⟨hworker.queue, fun other hother => ?_, hworker.resume⟩
          rcases List.mem_append.mp hother with hother | hother
          · exact hheld other (List.mem_append_left _ hother)
          · rcases List.mem_cons.mp hother with rfl | hother
            · exact hheld seq (List.mem_append_right _ List.mem_cons_self)
            · exact hheld other (List.mem_append_right _ (.tail _ hother))
      | evict before victim after hactive =>
          rw [hactive] at hheld
          refine ⟨hworker.queue, fun other hother => hheld other ?_, fun job hjob => ?_⟩
          · exact ((List.sublist_cons_self victim after).append_left before).subset hother
          · rcases List.mem_cons.mp hjob with rfl | hjob
            · exact hheld victim (List.mem_append_right _ List.mem_cons_self)
            · exact hworker.resume job hjob
  | round configured =>
      refine ⟨hworker.queue, fun next hnext => ?_, hworker.resume⟩
      obtain ⟨seq, hseq, hstep⟩ := exists_of_forall₂_right (runRound_active configured _) hnext
      obtain ⟨hgenerated, hcovers⟩ := hworker.active seq hseq
      obtain ⟨hle, htotal⟩ := hstep.total hgenerated
      exact ⟨hle, htotal ▸ hcovers⟩
  | retire =>
      exact ⟨hworker.queue, fun seq hseq => hworker.active seq (List.mem_of_mem_filter hseq),
        hworker.resume⟩
  | fail => exact ⟨hworker.queue, by simp [failActive, emit], hworker.resume⟩

theorem Summed.turn
    (hsubmitted : ∀ queued, .submit queued ∈ env.commands → queued.SumCovered S kv contextLen)
    (hworker : worker.Summed kv contextLen) : (worker.turn env).2.Summed kv contextLen :=
  (turn_moves env worker).induction (fun _ _ hbefore => hbefore.move hsubmitted) hworker

theorem Summed.run {envs : List (TurnEnv Task)}
    (hsubmitted : ∀ env ∈ envs, ∀ queued, .submit queued ∈ env.commands →
      queued.SumCovered S kv contextLen)
    (hworker : worker.Summed kv contextLen) : (run envs worker).2.Summed kv contextLen :=
  run_induction envs (fun env henv _ _ hbefore => hbefore.move (hsubmitted env henv)) hworker

end Summed

end Worker

end BurnLm.Inference
