/-
# The worker drains

Left alone, the worker gets rid of everything it holds. An evicted sequence
starts over, so no counter of its own goes down; what goes down turn by turn is
the number of requests held, or else the first active sequence gets on: it is
never evicted, never paused unless something is about to leave, and first in line
for the prompt budget.

All of this rests on worst cases that are counted right. Where the sum of a prompt's
length and a cap wraps, admission lets in what the pool can never serve, and the
worker pauses it for ever.
-/

import Mathlib.Data.Prod.Lex
import BurnLm.Inference.RecallServer
import BurnLm.Inference.Reservation

namespace BurnLm.Inference

open BurnLm.Math
open Relation (ReflTransGen)

universe u v w

/-- One sequence is another one but for its reservation and whether it waits. -/
def SameProgress (seq other : JobSeq) : Prop :=
  other.slot = seq.slot ∧ other.tokens = seq.tokens ∧ other.processed = seq.processed ∧
    other.generated = seq.generated ∧ other.maxGen = seq.maxGen ∧ other.finished = seq.finished

/-- A free slot of an empty set. -/
theorem lowestFreeSlot_nil {maxSlots : ℕ} (hslots : 0 < maxSlots) :
    lowestFreeSlot maxSlots [] = some 0 := by
  obtain ⟨slots, rfl⟩ := Nat.exists_eq_succ_of_ne_zero hslots.ne'
  simp [lowestFreeSlot, List.range_succ_eq_map]

namespace Worker

variable {S : Type u} {Row : Type v} {Task : Type w}

/-- How many requests the worker holds. -/
def load (worker : Worker S Task) : ℕ :=
  worker.queue.length + worker.active.length + worker.resume.length

/-- Between turns nothing is finished. -/
def Between (worker : Worker S Task) : Prop := ∀ seq ∈ worker.active, seq.finished = false

variable [BatchedInferenceServer S Row Task] {capacity : BatchCapacity} {contextLen : ℕ}

/-! ## Admission -/

/-- What has joined since, without a request too many. -/
def Joined (worker next : Worker S Task) : Prop :=
  next.load ≤ worker.load ∧ ∃ joined, next.active = worker.active ++ joined ∧
    ∀ seq ∈ joined, seq.finished = false

omit [BatchedInferenceServer S Row Task] in
theorem Joined.refl (worker : Worker S Task) : Joined worker worker :=
  ⟨le_rfl, [], (List.append_nil _).symm, by simp⟩

omit [BatchedInferenceServer S Row Task] in
theorem Joined.trans {first second third : Worker S Task} (hfirst : Joined first second)
    (hsecond : Joined second third) : Joined first third := by
  obtain ⟨hload, joined, hactive, hjoined⟩ := hfirst
  obtain ⟨hload', joined', hactive', hjoined'⟩ := hsecond
  refine ⟨hload'.trans hload, joined ++ joined', by rw [hactive', hactive, List.append_assoc], ?_⟩
  intro seq hseq
  rcases List.mem_append.mp hseq with hseq | hseq
  · exact hjoined seq hseq
  · exact hjoined' seq hseq

omit [BatchedInferenceServer S Row Task] in
theorem Joined.nonempty {worker next : Worker S Task} (hjoined : Joined worker next)
    (hactive : worker.active ≠ []) : next.active ≠ [] := by
  obtain ⟨_, joined, hnext, _⟩ := hjoined
  rw [hnext]
  exact List.append_ne_nil_of_left_ne_nil hactive joined

theorem joined_of_admission {env : TurnEnv Task} {worker next : Worker S Task}
    (hadmission : Admission env worker next) : Joined worker next := by
  cases hadmission with
  | borrow => exact Joined.refl _
  | resume candidate rest slot guaranteed hresume =>
      refine ⟨?_, [_], rfl, by simp [ResumedJob.seq]⟩
      simp only [load, hresume, List.length_append, List.length_cons, List.length_nil]
      omega
  | reject front rest error hqueue =>
      refine ⟨?_, [], (List.append_nil _).symm, by simp⟩
      simp only [load, reject, emit, hqueue, List.length_cons]
      omega
  | start front rest tokens maxGen guaranteed slot hqueue =>
      refine ⟨?_, [_], rfl, by simp [QueuedJob.seq]⟩
      simp only [load, start, emit, hqueue, List.length_append, List.length_cons, List.length_nil]
      omega

theorem joined_of_admits {env : TurnEnv Task} {worker next : Worker S Task}
    (hadmits : ReflTransGen (Admission env) worker next) : Joined worker next := by
  induction hadmits with
  | refl => exact Joined.refl _
  | tail _ hlast ih => exact ih.trans (joined_of_admission hlast)

/-- Into an empty set an evicted sequence always gets back. -/
theorem resumeStep_of_empty (hsteady : Steady S capacity contextLen)
    (hslots : 0 < capacity.maxSlots) {worker : Worker S Task}
    (hworker : worker.Reserved capacity contextLen) (hactive : worker.active = [])
    (hresume : worker.resume ≠ []) :
    ∃ next, resumeStep worker = (true, next) ∧ next.active ≠ [] := by
  obtain ⟨candidate, rest, hcandidate⟩ := List.exists_cons_of_ne_nil hresume
  obtain ⟨server, hborrow⟩ := hsteady.borrow worker.server
  have hfeasible := hworker.resume_feasible candidate (by rw [hcandidate]; exact List.mem_cons_self)
  have hfits : ¬capacity.kv.totalBlocks - reservedBlocks [] <
      capacity.kv.blocksFor
        (min (subWord (addWord candidate.tokens.length candidate.maxGen) candidate.generated)
          contextLen) := by
    rw [subWord_addWord _ hfeasible.generated_le]
    exact not_lt.mpr hfeasible.fits
  unfold resumeStep
  simp only [hcandidate, hactive, List.length_nil, hsteady.capacity_eq, if_pos hslots, hborrow,
    hsteady.context_eq, admissionGuarantee, true_or, if_true, if_neg hfits,
    lowestFreeSlot_nil hslots]
  exact ⟨_, rfl, by simp⟩

/-- Into an empty set the first queued job starts, or it leaves the queue. -/
theorem queueStep_of_empty (env : TurnEnv Task) (hsteady : Steady S capacity contextLen)
    (hslots : 0 < capacity.maxSlots) {worker : Worker S Task} (hactive : worker.active = [])
    (hqueue : worker.queue ≠ []) :
    ∃ next, queueStep env worker = (true, next) ∧
      (next.active ≠ [] ∨ next.load < worker.load) := by
  obtain ⟨front, rest, hfront⟩ := List.exists_cons_of_ne_nil hqueue
  obtain ⟨server, hborrow⟩ := hsteady.borrow worker.server
  have hreject : ∀ (other : Worker S Task) (error : InferenceError), other.active = [] →
      other.resume = worker.resume → (other.reject front rest error).load < worker.load := by
    intro other error hactive' hresume
    simp [load, reject, emit, hfront, hactive, hactive', hresume]
  unfold queueStep
  simp only [hfront, hactive, List.length_nil, hsteady.capacity_eq, if_pos hslots, hborrow,
    hsteady.context_eq, admissionGuarantee, true_or, if_true]
  split
  · exact ⟨_, rfl, Or.inr (hreject _ _ hactive rfl)⟩
  · split
    · exact ⟨_, rfl, Or.inr (hreject _ _ rfl rfl)⟩
    · split
      · exact ⟨_, rfl, Or.inr (hreject _ _ rfl rfl)⟩
      · next hneed =>
          have hroom : ¬capacity.kv.totalBlocks - reservedBlocks [] < capacity.kv.blocksFor _ :=
            hneed
          rw [if_neg hroom, lowestFreeSlot_nil hslots]
          exact ⟨_, rfl, Or.inl (by simp [start, emit])⟩

/-- Admission leaves something active, or gets rid of something. -/
theorem admitJobs_of_held (env : TurnEnv Task) (hsteady : Steady S capacity contextLen)
    (hslots : 0 < capacity.maxSlots) {worker : Worker S Task}
    (hworker : worker.Reserved capacity contextLen) (hheld : ¬worker.Drained) :
    (admitJobs env worker).active ≠ [] ∨ (admitJobs env worker).load < worker.load := by
  have hjoined := joined_of_admits (admitJobs_admits env worker)
  by_cases hactive : worker.active = []
  swap
  · exact Or.inl (hjoined.nonempty hactive)
  have hloop : ∀ (bound : ℕ) (state : Worker S Task), Joined state (loop resumeStep bound state) :=
    fun bound state => loop_induction
      (fun next hnext => hnext.trans (joined_of_admits (resumeStep_admits env next))) bound
      (Joined.refl state)
  have hloop' : ∀ (bound : ℕ) (state : Worker S Task),
      Joined state (loop (queueStep env) bound state) :=
    fun bound state => loop_induction
      (fun next hnext => hnext.trans (joined_of_admits (queueStep_admits env next))) bound
      (Joined.refl state)
  unfold admitJobs
  dsimp only
  by_cases hresume : worker.resume = []
  · have hqueue : worker.queue ≠ [] := fun hqueue => hheld ⟨hqueue, hactive, hresume⟩
    rw [hresume, List.length_nil, loop]
    obtain ⟨next, hnext, hgot⟩ := queueStep_of_empty env hsteady hslots hactive hqueue
    obtain ⟨front, rest, hfront⟩ := List.exists_cons_of_ne_nil hqueue
    rw [hfront, List.length_cons, loop, hnext]
    rcases hgot with hgot | hgot
    · exact Or.inl ((hloop' _ next).nonempty hgot)
    · exact Or.inr (lt_of_le_of_lt (hloop' _ next).1 hgot)
  · obtain ⟨next, hnext, hgot⟩ := resumeStep_of_empty hsteady hslots hworker hactive hresume
    obtain ⟨candidate, rest, hcandidate⟩ := List.exists_cons_of_ne_nil hresume
    rw [hcandidate, List.length_cons, loop, hnext]
    exact Or.inl ((hloop' _ _).nonempty ((hloop _ next).nonempty hgot))

/-! ## Growth -/

/-- A growth pass moves requests around but loses none. -/
theorem load_of_regrowth {measured : S} {worker next : Worker S Task}
    (hregrowth : Regrowth measured worker next) : next.load = worker.load := by
  cases hregrowth with
  | grow before seq after reservation paused hactive =>
      simp [load, hactive]
  | evict before victim after hactive =>
      simp only [load, hactive, List.length_append, List.length_cons]
      omega

/-- What is finished is not evicted. -/
theorem finished_of_regrowth {measured : S} {worker next : Worker S Task}
    (hregrowth : Regrowth measured worker next)
    (hfinished : ∃ seq ∈ worker.active, seq.finished = true) :
    ∃ seq ∈ next.active, seq.finished = true := by
  obtain ⟨seq, hseq, hfinished⟩ := hfinished
  cases hregrowth with
  | grow before other after reservation paused hactive =>
      rw [hactive] at hseq
      rcases List.mem_append.mp hseq with hseq | hseq
      · exact ⟨seq, List.mem_append_left _ hseq, hfinished⟩
      · rcases List.mem_cons.mp hseq with rfl | hseq
        · exact ⟨_, List.mem_append_right _ List.mem_cons_self, hfinished⟩
        · exact ⟨seq, List.mem_append_right _ (List.mem_cons_of_mem _ hseq), hfinished⟩
  | evict before victim after hactive hunfinished =>
      rw [hactive] at hseq
      rcases List.mem_append.mp hseq with hseq | hseq
      · exact ⟨seq, List.mem_append_left _ hseq, hfinished⟩
      · rcases List.mem_cons.mp hseq with rfl | hseq
        · rw [hunfinished] at hfinished
          simp at hfinished
        · exact ⟨seq, List.mem_append_right _ hseq, hfinished⟩

theorem load_of_regrows {measured : S} {worker next : Worker S Task}
    (hregrows : ReflTransGen (Regrowth measured) worker next) : next.load = worker.load := by
  induction hregrows with
  | refl => rfl
  | tail _ hlast ih => rw [load_of_regrowth hlast, ih]

theorem finished_of_regrows {measured : S} {worker next : Worker S Task}
    (hregrows : ReflTransGen (Regrowth measured) worker next)
    (hfinished : ∃ seq ∈ worker.active, seq.finished = true) :
    ∃ seq ∈ next.active, seq.finished = true := by
  induction hregrows with
  | refl => exact hfinished
  | tail _ hlast ih => exact finished_of_regrowth hlast ih

/-- A growth pass over unfinished sequences, as its first sequence sees it. -/
structure Heading (head : JobSeq) (growth : Growth S) : Prop where
  unfinished : ∀ seq ∈ growth.past ++ growth.todo, seq.finished = false
  accounted : growth.reserved = reservedBlocks (growth.past ++ growth.todo)
  place : (growth.past = [] ∧ ∃ senior rest, growth.todo = senior :: rest ∧
      SameProgress head senior) ∨
    ∃ senior rest, growth.past = senior :: rest ∧ SameProgress head senior ∧
      senior.paused = false

/-- The first sequence is never left without the blocks it needs: once everything
younger is evicted the pool is its own. -/
theorem Heading.step {kv : KvBudget} {head seq : JobSeq} {rest : List JobSeq}
    {growth next : Growth S} (hfeasible : head.Feasible kv contextLen)
    (hcovers : SumCovers kv contextLen head.total)
    (hheading : Heading head growth) (htodo : growth.todo = seq :: rest)
    (hstep : GrowStep kv contextLen (some 0) growth seq rest next) : Heading head next := by
  refine ⟨hstep.unfinished htodo hheading.unfinished, hstep.accounted htodo hheading.accounted, ?_⟩
  have hunfinished := hheading.unfinished
  have haccounted := hheading.accounted
  rcases hheading.place with ⟨hpast, senior, others, hsenior, hsame⟩ |
    ⟨senior, others, hpast, hsame, hpaused⟩
  · obtain ⟨rfl, rfl⟩ := List.cons.inj (htodo.symm.trans hsenior)
    rw [hpast, htodo, List.nil_append] at hunfinished haccounted
    cases hstep with
    | finished hfinished =>
        rw [hunfinished seq List.mem_cons_self] at hfinished
        simp at hfinished
    | covered hseq hcovered =>
        exact Or.inr ⟨{ seq with paused := false }, [], by rw [hpast]; rfl, hsame, rfl⟩
    | grant delta hseq hpos hdelta hroom =>
        exact Or.inr ⟨{ seq with kvReservation := seq.kvReservation + delta, paused := false }, [],
          by rw [hpast]; rfl, hsame, rfl⟩
    | evict victim kept hseq hindex hpop => exact Or.inl ⟨hpast, seq, kept, rfl, hsame⟩
    | pause hseq hshort hstuck =>
        -- alone in the pool, and feasible: there is room after all
        obtain rfl : rest = [] := by
          refine List.eq_nil_iff_forall_not_mem.mpr fun other hother => ?_
          have hfinished := hstuck (by rw [hpast]; rfl) other hother
          rw [hunfinished other (List.mem_cons_of_mem _ hother)] at hfinished
          simp at hfinished
        obtain ⟨_, htokens, _, hgenerated, hmaxGen, _⟩ := hsame
        have hfits := hfeasible.fits
        have hneed := hcovers.part (Nat.le_add_right head.tokens.length _)
        rw [← htokens] at hfits hneed
        rw [reservedBlocks_cons] at haccounted
        simp only [reservedBlocks, List.map_nil, List.sum_nil] at haccounted
        omega
  · refine Or.inr ?_
    cases hstep with
    | evict victim kept hseq hindex hpop => exact ⟨senior, others, hpast, hsame, hpaused⟩
    | _ => exact ⟨senior, others ++ [_], by rw [hpast]; rfl, hsame, hpaused⟩

/-- The first sequence, if unfinished, is the senior that is topped up. -/
theorem growthStart_head {kv : KvBudget} {worker : Worker S Task} {head : JobSeq}
    {rest : List JobSeq} (hactive : worker.active = head :: rest) (hhead : head.finished = false) :
    ∃ senior, growthStart kv contextLen worker = ⟨[], senior :: rest, worker.resume,
      worker.server, reservedBlocks (senior :: rest)⟩ ∧ SameProgress head senior := by
  unfold growthStart
  rcases topUpSenior_cases kv contextLen (reservedBlocks worker.active) worker.active with
    ⟨hall, _⟩ | ⟨before, first, after, hfirst, hbefore, _, htop⟩
  · have hfinished := hall head (by rw [hactive]; exact List.mem_cons_self)
    rw [hhead] at hfinished
    simp at hfinished
  · cases before with
    | cons other before =>
        have hfinished := hbefore other List.mem_cons_self
        rw [hactive] at hfirst
        rw [← (List.cons.inj hfirst).1, hhead] at hfinished
        simp at hfinished
    | nil =>
        obtain ⟨rfl, rfl⟩ := List.cons.inj (hactive.symm.trans hfirst)
        refine ⟨{ head with
          kvReservation :=
            head.kvReservation + topUp kv contextLen (reservedBlocks worker.active) head },
          ?_, by simp [SameProgress]⟩
        rw [htop, hactive]
        simp only [List.nil_append, reservedBlocks_cons, Nat.add_right_comm]

/-- **A growth pass never stops the first sequence**, if nothing is about to
leave. -/
theorem grantKvGrowth_head {kv : KvBudget} {worker : Worker S Task} {head : JobSeq}
    {rest : List JobSeq} (hactive : worker.active = head :: rest) (hbetween : worker.Between)
    (hfeasible : head.Feasible kv contextLen) (hcovers : SumCovers kv contextLen head.total)
    (hunpaused : kv.totalBlocks = usizeMax → head.paused = false) :
    ∃ senior others, (grantKvGrowth kv contextLen worker).active = senior :: others ∧
      SameProgress head senior ∧ senior.paused = false := by
  unfold grantKvGrowth
  by_cases hlimited : kv.totalBlocks = usizeMax
  · rw [if_pos hlimited]
    exact ⟨head, rest, hactive, by simp [SameProgress], hunpaused hlimited⟩
  rw [if_neg hlimited]
  have hhead : head.finished = false := hbetween head (by rw [hactive]; exact List.mem_cons_self)
  obtain ⟨senior, hstart, hsame⟩ := growthStart_head hactive hhead
  have hsenior : senior.finished = false := by rw [hsame.2.2.2.2.2, hhead]
  have hindex : (growthStart kv contextLen worker).todo.findIdx? (fun seq => !seq.finished) =
      some 0 := by
    rw [hstart]
    simp [List.findIdx?_cons, hsenior]
  have hheading : Heading head (growthStart kv contextLen worker) := by
    rw [hstart]
    refine ⟨?_, rfl, Or.inl ⟨rfl, senior, rest, rfl, hsame⟩⟩
    intro seq hseq
    rcases List.mem_cons.mp hseq with rfl | hseq
    · exact hsenior
    · exact hbetween seq (by rw [hactive]; exact List.mem_cons_of_mem _ hseq)
  have hgrown : Heading head (loop (growStep kv contextLen (some 0))
      (growthStart kv contextLen worker).todo.length (growthStart kv contextLen worker)) := by
    refine loop_induction (fun growth hgrowth => ?_) _ hheading
    cases htodo : growth.todo with
    | nil =>
        rw [growStep, htodo]
        exact hgrowth
    | cons seq rest =>
        obtain ⟨next, hnext, hstep⟩ := growStep_cases htodo
        rw [hnext]
        exact hgrowth.step hfeasible hcovers htodo hstep
  dsimp only
  rw [hindex]
  rcases hgrown.place with ⟨_, first, others, htodo, _⟩ | ⟨first, others, hpast, hfirst, hpaused⟩
  · rw [growLoop_todo] at htodo
    simp at htodo
  · exact ⟨first, others ++ _, by rw [hpast]; rfl, hfirst, hpaused⟩

/-! ## The round -/

/-- What precedes a round either has somebody leaving, or the first sequence
ready to run. -/
theorem prepareRound_head (env : TurnEnv Task) (hsteady : Steady S capacity contextLen)
    {worker : Worker S Task} (hworker : worker.Reserved capacity contextLen)
    (hsummed : worker.Summed capacity.kv contextLen) {head : JobSeq} {rest : List JobSeq}
    (hactive : worker.active = head :: rest) :
    (prepareRound env worker).load = worker.load ∧
      ((∃ seq ∈ (prepareRound env worker).active, seq.finished = true) ∨
        ∃ senior others, (prepareRound env worker).active = senior :: others ∧
          SameProgress head senior ∧ senior.paused = false) := by
  obtain ⟨borrowed, hborrow⟩ := hsteady.borrow worker.server
  set swept : Worker S Task :=
    { worker with active := worker.active.map (cancelSweep env), server := borrowed } with hswept
  have hprepare : prepareRound env worker =
      grantKvGrowth (batchCapacity worker.server).kv contextLen swept := by
    simp only [prepareRound, hborrow, hsteady.context_eq]
    rfl
  have hgrowth := (grantKvGrowth_regrows swept worker.server contextLen).1
  rw [hprepare]
  constructor
  · rw [load_of_regrows hgrowth]
    simp [load, hswept]
  · by_cases hfinished : ∃ seq ∈ swept.active, seq.finished = true
    · exact Or.inl (finished_of_regrows hgrowth hfinished)
    · refine Or.inr ?_
      have hbetween' : swept.Between := by
        intro seq hseq
        by_contra h
        exact hfinished ⟨seq, hseq, Bool.not_eq_false _ ▸ h⟩
      have hhead : cancelSweep env head = head := by
        have hnot := hbetween' (cancelSweep env head)
          (List.mem_map.mpr ⟨head, by rw [hactive]; exact List.mem_cons_self, rfl⟩)
        unfold cancelSweep at hnot ⊢
        split at hnot
        · simp at hnot
        · next hcancel => rw [if_neg hcancel]
      rw [hsteady.capacity_eq]
      have hmem : head ∈ worker.active := by rw [hactive]; exact List.mem_cons_self
      have hfirst : swept.active = head :: rest.map (cancelSweep env) := by
        rw [hswept]
        simp only [hactive, List.map_cons, hhead]
      exact grantKvGrowth_head hfirst hbetween' (hworker.feasible head hmem)
        (hsummed.active head hmem).2 fun hunlimited => hworker.unpaused hunlimited head hmem

/-- The prompt budget is not spent before a round. -/
theorem forRound_remaining (active : List JobSeq) (tokenBudget : ℕ) :
    (PrefillBudget.forRound active tokenBudget).remaining ≠ some 0 := by
  unfold PrefillBudget.forRound
  split
  · next hbinds =>
      simp only [ne_eq, Option.some.injEq]
      omega
  · simp

/-- A round gets its first sequence somewhere, if it may run. -/
theorem runRound_head (configured : S) {worker : Worker S Task} {head : JobSeq}
    {rest : List JobSeq} (hactive : worker.active = head :: rest)
    (hunfinished : head.finished = false) (hunpaused : head.paused = false) :
    ∃ next others, (runRound configured worker).active = next :: others ∧
      Progressed head next ∧ next.maxGen = head.maxGen := by
  obtain ⟨entries, hsteps, hseqs, hround⟩ := runRound_steps configured worker
  obtain ⟨stepped, others, hhead, hprogressed⟩ := @stepRound_head JobMeta S Row _
    (sampler configured) (stopIds configured) (prefillChunkSize configured) head rest
    (PrefillBudget.forRound worker.active (prefillTokenBudget configured)) worker.server
    (forRound_remaining _ _) hunfinished hunpaused
  rw [hactive] at hsteps hseqs
  rw [hactive] at hhead
  rw [hhead] at hseqs
  obtain ⟨entry, others', hentry, _, rfl⟩ := List.forall₂_cons_left_iff.mp hsteps
  obtain ⟨rfl, _⟩ := List.cons.inj hseqs
  obtain ⟨hitStop, hnote⟩ := noteOutcome_eq entry.seq entry.outcome
  refine ⟨_, _, by rw [hround, report_active, List.map_cons], ?_, ?_⟩
  · rw [hnote]
    cases hprogressed with
    | finished hfinished => exact .finished hfinished
    | generated hgenerated hcap => exact .generated hgenerated hcap
    | pushed hgenerated htokens hprocessed hfits =>
        exact .pushed hgenerated htokens hprocessed hfits
  · rw [hnote]
    exact hentry.frame.2.2.1

/-- A round keeps what is finished finished. -/
theorem finished_of_runRound (configured : S) {worker : Worker S Task}
    (hfinished : ∃ seq ∈ worker.active, seq.finished = true) :
    ∃ seq ∈ (runRound configured worker).active, seq.finished = true := by
  obtain ⟨seq, hseq, hfinished⟩ := hfinished
  obtain ⟨next, hnext, stepped, outcome, hstep, rfl⟩ :=
    exists_of_forall₂_right (runRound_active configured worker).flip hseq
  refine ⟨_, hnext, ?_⟩
  obtain ⟨hitStop, hnote⟩ := noteOutcome_eq stepped outcome
  rw [hnote]
  cases hstep with
  | idle hidle => exact hfinished
  | deferred hseq => rw [hseq.unfinished] at hfinished; simp at hfinished
  | chunk hseq granted hgranted hchunk => rw [hseq.unfinished] at hfinished; simp at hfinished
  | stepped hunfinished => rw [hunfinished] at hfinished; simp at hfinished
  | _ => rfl

theorem load_of_runRound (configured : S) (worker : Worker S Task) :
    (runRound configured worker).load = worker.load := by
  have hlength := (runRound_active configured worker).length_eq
  have hqueue : (runRound configured worker).queue = worker.queue := rfl
  have hresume : (runRound configured worker).resume = worker.resume := rfl
  rw [load, load, hqueue, hresume, hlength]

/-- Retiring never adds, and takes something away if something is finished. -/
theorem load_of_retire (worker : Worker S Task) :
    worker.retireFinished.load ≤ worker.load ∧
      ((∃ seq ∈ worker.active, seq.finished = true) →
        worker.retireFinished.load < worker.load) := by
  have hactive : worker.retireFinished.active = worker.active.filter fun seq => !seq.finished :=
    rfl
  have hqueue : worker.retireFinished.queue = worker.queue := rfl
  have hresume : worker.retireFinished.resume = worker.resume := rfl
  rw [load, load, hactive, hqueue, hresume]
  constructor
  · have hle := List.length_filter_le (fun seq : JobSeq => !seq.finished) worker.active
    omega
  · rintro ⟨seq, hseq, hfinished⟩
    have hless : (worker.active.filter fun seq => !seq.finished).length < worker.active.length :=
      List.length_filter_lt_length_iff_exists.mpr ⟨seq, hseq, by simp [hfinished]⟩
    omega

/-- What the first sequence still has before it. -/
def remaining (seq : JobSeq) : ℕ ×ₗ ℕ :=
  toLex (seq.maxGen - seq.generated, seq.tokens.length - seq.processed)

omit [BatchedInferenceServer S Row Task] in
theorem remaining_lt {seq next : JobSeq} (hprogressed : Progressed seq next)
    (hunfinished : next.finished = false) (hmaxGen : next.maxGen = seq.maxGen) :
    remaining next < remaining seq := by
  rw [remaining, remaining, Prod.Lex.toLex_lt_toLex]
  cases hprogressed with
  | finished hfinished => rw [hunfinished] at hfinished; simp at hfinished
  | generated hgenerated hcap => exact Or.inl (by simp only; omega)
  | pushed hgenerated htokens hprocessed hfits =>
      rw [hgenerated, hmaxGen, htokens]
      exact Or.inr ⟨rfl, by simp only; omega⟩

/-- **A step gets rid of something or gets its first sequence on.** -/
theorem step_descends (env : TurnEnv Task) (hsteady : Steady S capacity contextLen)
    {worker : Worker S Task} (hworker : worker.Reserved capacity contextLen)
    (hsummed : worker.Summed capacity.kv contextLen) (hbetween : worker.Between)
    {head : JobSeq} {rest : List JobSeq} (hactive : worker.active = head :: rest) :
    (step env worker).load < worker.load ∨ ((step env worker).load = worker.load ∧
      ∃ next others, (step env worker).active = next :: others ∧
        remaining next < remaining head) := by
  obtain ⟨borrowed, hborrow⟩ := hsteady.borrow (prepareRound env worker).server
  obtain ⟨hload, hprepared⟩ := prepareRound_head env hsteady hworker hsummed hactive
  set prepared : Worker S Task := { prepareRound env worker with server := borrowed }
    with hprepared_def
  have hstep : step env worker = (runRound worker.server prepared).retireFinished := by
    have hne : worker.active ≠ [] := by simp [hactive]
    simp only [step, if_neg hne, hborrow]
    rfl
  have hround : (runRound worker.server prepared).load = worker.load := by
    rw [load_of_runRound]
    exact hload
  have hretire := load_of_retire (runRound worker.server prepared)
  rw [hstep, ← hround]
  rcases hprepared with hfinished | ⟨senior, others, hsenior, hsame, hpaused⟩
  · exact Or.inl (hretire.2 (finished_of_runRound worker.server hfinished))
  have hhead : head.finished = false := hbetween head (by rw [hactive]; exact List.mem_cons_self)
  have hfirst : prepared.active = senior :: others := hsenior
  obtain ⟨next, more, hnext, hprogressed, hmaxGen⟩ := runRound_head worker.server hfirst
    (by rw [hsame.2.2.2.2.2, hhead]) hpaused
  by_cases hfinished : next.finished = true
  · exact Or.inl (hretire.2 ⟨next, by rw [hnext]; exact List.mem_cons_self, hfinished⟩)
  rcases hretire.1.lt_or_eq with hless | hsameLoad
  · exact Or.inl hless
  refine Or.inr ⟨hsameLoad, next, more.filter fun seq => !seq.finished, ?_, ?_⟩
  · have hfilter : (runRound worker.server prepared).retireFinished.active =
        (runRound worker.server prepared).active.filter fun seq => !seq.finished := rfl
    rw [hfilter, hnext, List.filter_cons_of_pos (by simpa using hfinished)]
  · obtain ⟨_, htokens, hprocessed, hgenerated, hmax, _⟩ := hsame
    have hremaining : remaining head = remaining senior := by
      rw [remaining, remaining, htokens, hprocessed, hgenerated, hmax]
    rw [hremaining]
    exact remaining_lt hprogressed (Bool.not_eq_true _ ▸ hfinished) hmaxGen

/-! ## Turns -/

/-- A step leaves nothing finished behind. -/
theorem between_step (env : TurnEnv Task) (worker : Worker S Task) :
    (step env worker).Between := by
  intro seq hseq
  unfold step at hseq
  split at hseq
  · next hactive =>
      rw [hactive] at hseq
      simp at hseq
  · dsimp only at hseq
    split at hseq
    · simp [failActive, emit] at hseq
    · simpa using (List.mem_filter.mp hseq).2

/-- A turn leaves nothing finished behind. -/
theorem Between.turn {worker : Worker S Task} (hworker : worker.Between) (env : TurnEnv Task) :
    (worker.turn env).2.Between := by
  unfold Worker.turn
  split
  · exact hworker
  · have hactive := handleCommands_active env.commands worker
    split
    · next next hcase =>
        rw [hcase] at hactive
        intro seq hseq
        exact hworker seq (by rw [← hactive]; exact hseq)
    · exact between_step env _

theorem Between.run {worker : Worker S Task} (hworker : worker.Between)
    (envs : List (TurnEnv Task)) : (run envs worker).2.Between := by
  induction envs generalizing worker with
  | nil => exact hworker
  | cons env envs ih =>
      have hturn := hworker.turn env
      rw [Worker.run]
      split
      · next next hcase =>
          rw [hcase] at hturn
          exact hturn
      · next next hcase =>
          rw [hcase] at hturn
          exact ih hturn

/-- What goes down turn by turn: the requests held, or whether there is a first
sequence, or what is still before it. -/
def standing (worker : Worker S Task) : ℕ ×ₗ ℕ ×ₗ ℕ ×ₗ ℕ :=
  match worker.active with
  | [] => toLex (worker.load, toLex (1, toLex (0, 0)))
  | head :: _ => toLex (worker.load, toLex (0, remaining head))

omit [BatchedInferenceServer S Row Task] in
theorem standing_of_nil {worker : Worker S Task} (hactive : worker.active = []) :
    worker.standing = toLex (worker.load, toLex (1, toLex (0, 0))) := by
  rw [standing, hactive]

omit [BatchedInferenceServer S Row Task] in
theorem standing_of_cons {worker : Worker S Task} {head : JobSeq} {rest : List JobSeq}
    (hactive : worker.active = head :: rest) :
    worker.standing = toLex (worker.load, toLex (0, remaining head)) := by
  rw [standing, hactive]

omit [BatchedInferenceServer S Row Task] in
theorem standing_lt_of_load {worker next : Worker S Task} (hload : next.load < worker.load) :
    next.standing < worker.standing := by
  unfold standing
  split <;> split <;> exact Prod.Lex.toLex_lt_toLex.mpr (Or.inl hload)

/-- **A turn without commands brings the worker down.** -/
theorem turn_descends (env : TurnEnv Task) (hquiet : env.commands = [])
    (hsteady : Steady S capacity contextLen) (hslots : 0 < capacity.maxSlots)
    {worker : Worker S Task} (hworker : worker.Reserved capacity contextLen)
    (hsummed : worker.Summed capacity.kv contextLen) (hbetween : worker.Between)
    (hheld : ¬worker.Drained) :
    (worker.turn env).1 = .continue ∧ (worker.turn env).2.standing < worker.standing := by
  have hadmits : ¬(worker.active = [] ∧ worker.canAdmit = false ∧ env.commands = []) := by
    rintro ⟨hactive, hcannot, -⟩
    refine hheld ⟨?_, hactive, ?_⟩ <;> by_contra hne <;>
      simp [canAdmit, hne, hactive, hsteady.capacity_eq, hslots] at hcannot
  have hturn : worker.turn env = (.continue, step env (admitJobs env worker)) := by
    rw [turn, if_neg hadmits, hquiet]
    rfl
  rw [hturn]
  refine ⟨rfl, ?_⟩
  have hadmitted := hworker.admits hsteady (admitJobs_admits env worker)
  have hsummed' : (admitJobs env worker).Summed capacity.kv contextLen :=
    hsummed.admits (admitJobs_admits env worker)
  obtain ⟨hload, joined, hjoined, hunfinished⟩ := joined_of_admits (admitJobs_admits env worker)
  have hgot := admitJobs_of_held env hsteady hslots hworker hheld
  set admitted := admitJobs env worker
  have hbetween' : admitted.Between := by
    intro seq hseq
    rw [hjoined] at hseq
    rcases List.mem_append.mp hseq with hseq | hseq
    · exact hbetween seq hseq
    · exact hunfinished seq hseq
  cases hactive : admitted.active with
  | nil =>
      -- nothing runs, so admission got rid of something
      rw [step, if_pos hactive]
      exact standing_lt_of_load (hgot.resolve_left (not_not_intro hactive))
  | cons head rest =>
      rcases step_descends env hsteady hadmitted hsummed' hbetween' hactive with
        hless | ⟨hsame, next, others, hnext, hremaining⟩
      · exact standing_lt_of_load (lt_of_lt_of_le hless hload)
      rcases hload.lt_or_eq with hless | hloadEq
      · exact standing_lt_of_load (by rw [hsame]; exact hless)
      -- nobody left: the first sequence is new, or it is the one there was
      rw [standing_of_cons hnext]
      cases hfirst : worker.active with
      | nil =>
          rw [standing_of_nil hfirst]
          exact Prod.Lex.toLex_lt_toLex.mpr (Or.inr ⟨hsame.trans hloadEq,
            Prod.Lex.toLex_lt_toLex.mpr (Or.inl Nat.zero_lt_one)⟩)
      | cons first more =>
          rw [standing_of_cons hfirst]
          rw [hfirst, hactive] at hjoined
          obtain ⟨rfl, _⟩ := List.cons.inj hjoined
          exact Prod.Lex.toLex_lt_toLex.mpr (Or.inr ⟨hsame.trans hloadEq,
            Prod.Lex.toLex_lt_toLex.mpr (Or.inr ⟨rfl, hremaining⟩)⟩)

/-- **The worker drains.** From every worker a run comes to, over any commands
and whatever the decoder, the tokenizer and the sampler answered, turns without
commands empty the queue, the active set and the resume list, as long as what the
worst case of every submitted job comes to in a machine word covers it. -/
theorem drains (hsteady : Steady S capacity contextLen) (hslots : 1 ≤ capacity.maxSlots)
    (server : S) (envs : List (TurnEnv Task)) (worker : Worker S Task)
    (hreached : run envs (spawn server) = (.continue, worker))
    (hsubmitted : ∀ env ∈ envs, ∀ queued, .submit queued ∈ env.commands →
      queued.SumCovered S capacity.kv contextLen)
    (quiet : ℕ → TurnEnv Task) (hquiet : ∀ n, (quiet n).commands = []) :
    ∃ (turns : ℕ) (final : Worker S Task),
      run ((List.range turns).map quiet) worker = (.continue, final) ∧ final.Drained := by
  have hreserved : worker.Reserved capacity contextLen := by
    have hrun := Reserved.run hsteady (Reserved.spawn server) envs
    rw [hreached] at hrun
    exact hrun
  have hsummed : worker.Summed capacity.kv contextLen := by
    have hrun := Summed.run hsubmitted (Summed.spawn server)
    rw [hreached] at hrun
    exact hrun
  have hbetween : worker.Between := by
    have hspawn : Between (spawn server : Worker S Task) := by simp [Between, spawn]
    have hrun := hspawn.run envs
    rw [hreached] at hrun
    exact hrun
  have hdescends := @exists_of_descending _ _ _ _
    (fun state : Flow × Worker S Task => state.2.standing)
    (fun state => state.1 = .continue ∧ (state.2.Reserved capacity contextLen ∧
      state.2.Summed capacity.kv contextLen) ∧ state.2.Between)
    (fun state => state.2.Drained) (fun n => run ((List.range n).map quiet) worker)
    ⟨rfl, ⟨hreserved, hsummed⟩, hbetween⟩ ?_
  · obtain ⟨turns, ⟨hflow, _, _⟩, hdrained⟩ := hdescends
    exact ⟨turns, _, Prod.ext hflow rfl, hdrained⟩
  rintro n ⟨hflow, ⟨hreserved, hsummed⟩, hbetween⟩
  by_cases hdrained : (run ((List.range n).map quiet) worker).2.Drained
  · exact Or.inl hdrained
  have hnext : run ((List.range (n + 1)).map quiet) worker =
      (run ((List.range n).map quiet) worker).2.turn (quiet n) := by
    rw [List.range_succ, List.map_append, List.map_singleton, run_concat, if_pos hflow]
  obtain ⟨hcontinue, hless⟩ :=
    turn_descends (quiet n) (hquiet n) hsteady hslots hreserved hsummed hbetween hdrained
  rw [hnext]
  exact Or.inr ⟨⟨hcontinue, ⟨hreserved.turn hsteady _, hsummed.turn (by simp [hquiet])⟩,
    hbetween.turn _⟩, hless⟩

/-- Two slots, four blocks: left with one evicted sequence, the worker drains. -/
theorem drains_from_eviction :
    let config : RecallConfig :=
      { capacity := ⟨2, ⟨1, 4⟩⟩
        admission := .elastic
        chunkSize := 0
        tokenBudget := 0
        contextLen := 100
        stops := []
        generationCap := 10
        next := fun tokens => tokens.getLastD 0 }
    let envs : List (TurnEnv (List Token)) :=
      [.taking [.submission 0 1 [7], .submission 1 3 [7], .submission 2 2 [7]], .taking [],
        .taking []]
    let worker : Worker (RecallServer config) (List Token) := (run envs (spawn .fresh)).2
    worker.resume.length = 1 ∧ ∃ (turns : ℕ) (final : Worker (RecallServer config) (List Token)),
      run ((List.range turns).map fun _ => .taking []) worker = (.continue, final) ∧
        final.Drained := by
  intro config envs worker
  have hsteady : Steady (RecallServer config) config.capacity 100 :=
    ⟨fun _ => rfl, fun _ => rfl, fun _ => rfl⟩
  refine ⟨by decide +kernel, drains hsteady (by decide) .fresh envs worker
    (Prod.ext (by decide +kernel) rfl) (fun env henv queued hqueued => ?_) _ fun _ => rfl⟩
  intro server tokens htokens
  have hprompt : queued.job.task.length = 1 := by
    revert queued
    revert env
    simp [envs, TurnEnv.taking, Command.submission]
  obtain rfl : queued.job.task = tokens := Except.ok.inj htokens
  have hcap : queued.job.maxGen 10 ≤ 10 := queued.job.maxGen_le 10
  exact .of_lt (by rw [hprompt]; exact Nat.lt_of_le_of_lt (Nat.add_le_add_left hcap 1) (by decide))

/-- Four blocks of one token, and no limit on what is generated. -/
private def uncapped : RecallConfig where
  capacity := ⟨1, ⟨1, 4⟩⟩
  admission := .elastic
  chunkSize := 0
  tokenBudget := 0
  contextLen := 100
  stops := []
  generationCap := 2 ^ 64 - 1
  next := fun tokens => tokens.getLastD 0

/-- A prompt of five tokens, let in because the sum wraps to four. -/
private def parked : JobSeq where
  slot := 0
  tokens := [7, 7, 7, 7, 7]
  processed := 0
  generated := 0
  maxGen := 2 ^ 64 - 1
  finished := false
  kvReservation := 4
  paused := true
  extra := ⟨0, false, 0, 0, false⟩

/-- It waits for a fifth block, turn after turn. -/
private theorem turn_parked (server : RecallServer uncapped) (log : List (Effect (List Token))) :
    ∃ later, turn (.taking []) ⟨server, [], [parked], [], 1, log⟩ =
      (.continue, ⟨server, [], [parked], [], 1, later⟩) := by
  have htop : topUpSenior uncapped.capacity.kv 100 (reservedBlocks [parked]) [parked] =
      ([parked], 4) := by decide +kernel
  have hgrowth : ∀ log : List (Effect (List Token)), grantKvGrowth uncapped.capacity.kv 100
      (⟨server, [], [parked], [], 1, log⟩ : Worker (RecallServer uncapped) (List Token)) =
        ⟨server, [], [parked], [], 1, log⟩ := by
    intro log
    simp only [grantKvGrowth, growthStart, htop]
    rfl
  have hprepare : prepareRound (.taking [])
      (⟨server, [], [parked], [], 1, log⟩ : Worker (RecallServer uncapped) (List Token)) =
        ⟨server, [], [parked], [], 1, log⟩ := (rfl : _ = grantKvGrowth _ _ _).trans (hgrowth log)
  have hstep : step (.taking [])
      (⟨server, [], [parked], [], 1, log⟩ : Worker (RecallServer uncapped) (List Token)) =
        ⟨server, [], [parked], [], 1, log ++ [.advanced 0 .skipped] ++ []⟩ := by
    simp only [step, hprepare]
    rfl
  exact ⟨_, congrArg (Prod.mk Flow.continue) hstep⟩

/-- **A wrapped cap is paused for ever.** The sum of the prompt's length and the cap
wraps to four blocks, so the job is let in, and its prompt never is. -/
theorem drains_wrappedCap :
    ∃ (config : RecallConfig) (envs : List (TurnEnv (List Token)))
      (worker : Worker (RecallServer config) (List Token)),
      Steady (RecallServer config) config.capacity config.contextLen ∧
        1 ≤ config.capacity.maxSlots ∧ run envs (spawn .fresh) = (.continue, worker) ∧
        ∀ turns : ℕ, ¬(run ((List.range turns).map fun _ => .taking []) worker).2.Drained := by
  let envs : List (TurnEnv (List Token)) :=
    [.taking [.submit ⟨⟨[7, 7, 7, 7, 7], 0, none, 0⟩, 0, 0⟩]]
  let worker : Worker (RecallServer uncapped) (List Token) := (run envs (spawn .fresh)).2
  have hparked : worker.queue = [] ∧ worker.active = [parked] ∧ worker.resume = [] ∧
      worker.nextId = 1 := by decide +kernel
  have hstuck : ∀ turns : ℕ, ∃ server log,
      run ((List.range turns).map fun _ => .taking []) worker =
        (.continue, ⟨server, [], [parked], [], 1, log⟩) := by
    intro turns
    induction turns with
    | zero =>
        obtain ⟨hqueue, hactive, hresume, hnextId⟩ := hparked
        refine ⟨worker.server, worker.log, ?_⟩
        rw [← hqueue, ← hactive, ← hresume, ← hnextId]
        rfl
    | succ turns ih =>
        obtain ⟨server, log, hrun⟩ := ih
        obtain ⟨later, hturn⟩ := turn_parked server log
        refine ⟨server, later, ?_⟩
        rw [List.range_succ, List.map_append, List.map_singleton, run_concat, hrun, if_pos rfl]
        exact hturn
  refine ⟨uncapped, envs, worker, ⟨fun _ => rfl, fun _ => rfl, fun _ => rfl⟩, by decide,
    Prod.ext (by decide +kernel) rfl, fun turns hdrained => ?_⟩
  obtain ⟨server, log, hrun⟩ := hstuck turns
  rw [hrun] at hdrained
  exact absurd hdrained.2.1 (by simp)

end Worker

end BurnLm.Inference
