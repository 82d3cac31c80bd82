/-
# The moves of a turn

A turn is long, but each thing it does to the worker is one of a dozen moves, and
the guards a later argument needs are part of the move. Every turn is a chain of
moves, so what every move keeps holds in every state a run passes through, also
in the middle of a turn.
-/

import Mathlib.Logic.Relation
import BurnLm.Inference.Worker

namespace BurnLm.Inference

open BurnLm.Math
open Relation (ReflTransGen)

universe u v w

/-- Every sequence about to run has the blocks its present length needs. -/
def Covered (kv : KvBudget) (maxContextLen : ℕ) (active : List JobSeq) : Prop :=
  kv.totalBlocks ≠ usizeMax → ∀ seq ∈ active, seq.finished = false → seq.paused = false →
    kv.blocksFor (min seq.tokens.length maxContextLen) ≤ seq.kvReservation

theorem reservedBlocks_append (first second : List JobSeq) :
    reservedBlocks (first ++ second) = reservedBlocks first + reservedBlocks second := by
  simp [reservedBlocks]

theorem reservedBlocks_cons (seq : JobSeq) (seqs : List JobSeq) :
    reservedBlocks (seq :: seqs) = seq.kvReservation + reservedBlocks seqs := by
  simp [reservedBlocks]

theorem Covered.concat {kv : KvBudget} {maxContextLen : ℕ} {seqs : List JobSeq} {seq : JobSeq}
    (hseqs : Covered kv maxContextLen seqs)
    (hseq : seq.finished = false → seq.paused = false →
      kv.blocksFor (min seq.tokens.length maxContextLen) ≤ seq.kvReservation) :
    Covered kv maxContextLen (seqs ++ [seq]) := by
  intro hlimited other hother
  rcases List.mem_append.mp hother with hother | hother
  · exact hseqs hlimited other hother
  · obtain rfl := List.mem_singleton.mp hother
    exact hseq

/-- Whether a command destroys model state. -/
def Command.isDestructive {Task : Type w} : Command Task → Bool
  | .unload _ => true
  | .clearState _ => true
  | _ => false

/-- Whether a command is answered at once. -/
def Command.isServed {Task : Type w} : Command Task → Bool
  | .submit _ => false
  | .shutdown => false
  | _ => true

/-- Whether a log entry hands a destructive command to the server. -/
def Effect.isPassed {Task : Type w} : Effect Task → Bool
  | .passed _ => true
  | _ => false

/-- Whether a log entry only serves a command. -/
def Effect.isAnswer {Task : Type w} : Effect Task → Bool
  | .answered _ _ => true
  | .passed _ => true
  | _ => false

/-- What the worker keeps of an evicted sequence. -/
def ActiveSeq.evicted (seq : JobSeq) : ResumedJob :=
  ⟨seq.tokens, seq.maxGen, seq.generated, seq.extra⟩

namespace Worker

variable {S : Type u} {Row : Type v} {Task : Type w} [BatchedInferenceServer S Row Task]

/-- One thing admission does to the worker. -/
inductive Admission (env : TurnEnv Task) (worker : Worker S Task) : Worker S Task → Prop
  | borrow : Admission env worker { worker with server := (decoder worker.server).2 }
  | resume (candidate : ResumedJob) (rest : List ResumedJob) (slot guaranteed : ℕ)
      (hresume : worker.resume = candidate :: rest)
      (hborrowed : (decoder worker.server).1 = .ok ())
      (hslot : lowestFreeSlot (batchCapacity (decoder worker.server).2).maxSlots worker.active =
        some slot)
      (hroom : guaranteed ≤ (batchCapacity (decoder worker.server).2).kv.totalBlocks -
        reservedBlocks worker.active) :
      Admission env worker
        { worker with
          server := releaseSlot (decoder worker.server).2 slot
          resume := rest
          active := worker.active ++ [candidate.seq guaranteed slot] }
  | reject (front : QueuedJob Task) (rest : List (QueuedJob Task)) (error : InferenceError)
      (hqueue : worker.queue = front :: rest) :
      Admission env worker (worker.reject front rest error)
  | start (front : QueuedJob Task) (rest : List (QueuedJob Task)) (tokens : List Token)
      (maxGen guaranteed slot : ℕ) (hqueue : worker.queue = front :: rest)
      (hborrowed : (decoder worker.server).1 = .ok ())
      (htokens : tokenize (decoder worker.server).2 front.job.task = .ok tokens)
      (hmaxGen : maxGen = front.job.maxGen (maxGenTokens (decoder worker.server).2))
      (hneed : (batchCapacity (decoder worker.server).2).kv.blocksFor
          (min (addWord tokens.length maxGen) (maxContextLen (decoder worker.server).2)) ≤
        (batchCapacity (decoder worker.server).2).kv.totalBlocks)
      (hslot : lowestFreeSlot (batchCapacity (decoder worker.server).2).maxSlots worker.active =
        some slot)
      (hroom : guaranteed ≤ (batchCapacity (decoder worker.server).2).kv.totalBlocks -
        reservedBlocks worker.active) :
      Admission env worker (start { worker with server := (decoder worker.server).2 } env.now
        front rest tokens maxGen guaranteed slot)

/-- One thing the growth pass does to the worker: a sequence gets a new
reservation and is paused or not, or the youngest leaves. -/
inductive Regrowth (measured : S) (worker : Worker S Task) : Worker S Task → Prop
  | grow (before : List JobSeq) (seq : JobSeq) (after : List JobSeq) (reservation : ℕ)
      (paused : Bool) (hactive : worker.active = before ++ seq :: after)
      (hlimited : (batchCapacity measured).kv.totalBlocks ≠ usizeMax)
      (hraise : seq.kvReservation ≤ reservation)
      (hroom : reservation - seq.kvReservation ≤
        (batchCapacity measured).kv.totalBlocks - reservedBlocks worker.active) :
      Regrowth measured worker
        { worker with
          active := before ++ { seq with kvReservation := reservation, paused } :: after }
  | evict (before : List JobSeq) (victim : JobSeq) (after : List JobSeq)
      (hactive : worker.active = before ++ victim :: after)
      (hunfinished : victim.finished = false) :
      Regrowth measured worker
        { worker with
          active := before ++ after
          server := release worker.server victim.slot
          resume := victim.evicted :: worker.resume }

/-- One thing a turn does to the worker. -/
inductive Move (env : TurnEnv Task) (worker : Worker S Task) : Worker S Task → Prop
  | command (given : Command Task) (hgiven : given ∈ env.commands) :
      Move env worker ((worker.emit [.received given]).handleCommand given).2
  | admission {next : Worker S Task} (hadmission : Admission env worker next) :
      Move env worker next
  | sweep : Move env worker { worker with active := worker.active.map (cancelSweep env) }
  | regrowth (measured : S) {next : Worker S Task} (hregrowth : Regrowth measured worker next) :
      Move env worker next
  | round (configured : S) (hborrowed : (decoder worker.server).1 = .ok ())
      (hcovered : (∀ server : S, (decoder server).1 = .ok ()) → ∃ measured borrowed : S,
        Covered (batchCapacity measured).kv (maxContextLen borrowed) worker.active) :
      Move env worker (runRound configured { worker with server := (decoder worker.server).2 })
  | retire : Move env worker worker.retireFinished
  | fail (error : InferenceError) (hrefused : (decoder worker.server).1 = .error error) :
      Move env worker (failActive { worker with server := (decoder worker.server).2 } error)

/-- A chain of moves. -/
abbrev Moves (env : TurnEnv Task) : Worker S Task → Worker S Task → Prop :=
  ReflTransGen (Move env)

/-! ## Commands and admission -/

/-- What a command can do to the worker: queue a job, stop it, or be served. -/
theorem handleCommand_cases (worker : Worker S Task) (command : Command Task) :
    (∃ queued, command = .submit queued ∧
      worker.handleCommand command = (false, { worker with queue := worker.queue ++ [queued] })) ∨
    (command = .shutdown ∧ worker.handleCommand command = (true, worker)) ∨
    (command.isServed = true ∧ ∃ server effects,
      worker.handleCommand command = (false, emit { worker with server } effects) ∧
      (∀ effect ∈ effects, effect.isAnswer = true) ∧
      (effects.any Effect.isPassed = true ↔
        command.isDestructive = true ∧ worker.active = [] ∧ worker.queue = [])) := by
  have hguard : ∀ (destructive : Destructive) (serve : S → Reply × S)
      (refuse : InferenceError → Reply) (reply : ℕ), ∃ server effects,
      worker.guardDestructive destructive serve refuse reply = emit { worker with server } effects ∧
        (∀ effect ∈ effects, effect.isAnswer = true) ∧
        (effects.any Effect.isPassed = true ↔ worker.active = [] ∧ worker.queue = []) := by
    intro destructive serve refuse reply
    unfold guardDestructive
    split
    · next hidle => exact ⟨_, _, rfl, by simp [Effect.isAnswer], by simp [Effect.isPassed, hidle]⟩
    · next hbusy =>
        exact ⟨worker.server, _, rfl, by simp [Effect.isAnswer], by simp [Effect.isPassed, hbusy]⟩
  cases command with
  | submit queued => exact Or.inl ⟨queued, rfl, rfl⟩
  | shutdown => exact Or.inr (Or.inl ⟨rfl, rfl⟩)
  | unload reply =>
      obtain ⟨server, effects, hresult, hanswers, hpassed⟩ := hguard .unload _ _ reply
      exact Or.inr (Or.inr ⟨rfl, server, effects, by rw [handleCommand, hresult], hanswers,
        by rw [hpassed]; simp [Command.isDestructive]⟩)
  | clearState reply =>
      obtain ⟨server, effects, hresult, hanswers, hpassed⟩ := hguard .clearState _ _ reply
      exact Or.inr (Or.inr ⟨rfl, server, effects, by rw [handleCommand, hresult], hanswers,
        by rw [hpassed]; simp [Command.isDestructive]⟩)
  | _ =>
      exact Or.inr (Or.inr ⟨rfl, _, _, rfl, by simp [Effect.isAnswer],
        by simp [Effect.isPassed, Command.isDestructive]⟩)

theorem handleCommands_moves {env : TurnEnv Task} (commands : List (Command Task))
    (hcommands : ∀ command ∈ commands, command ∈ env.commands) (worker : Worker S Task) :
    Moves env worker (worker.handleCommands commands).2 := by
  induction commands generalizing worker with
  | nil => exact .refl
  | cons command commands ih =>
      have hmove : Move env worker _ := .command command (hcommands command List.mem_cons_self)
      have hrest := ih (fun other hother => hcommands other (List.mem_cons_of_mem _ hother))
      rw [handleCommands]
      split
      · next next hcase =>
          rw [hcase] at hmove
          exact .single hmove
      · next next hcase =>
          rw [hcase] at hmove
          exact .head hmove (hrest next)

/-- What each command keeps, a batch keeps. -/
theorem handleCommands_induction {Inv : Worker S Task → Prop} (commands : List (Command Task))
    (hcommand : ∀ before command, Inv before →
      Inv ((before.emit [.received command]).handleCommand command).2)
    {worker : Worker S Task} (hworker : Inv worker) : Inv (worker.handleCommands commands).2 := by
  induction commands generalizing worker with
  | nil => exact hworker
  | cons command commands ih =>
      have hnext := hcommand worker command hworker
      rw [handleCommands]
      split
      · next next hcase =>
          rw [hcase] at hnext
          exact hnext
      · next next hcase =>
          rw [hcase] at hnext
          exact ih hnext

/-- Commands leave the sequences alone. -/
theorem handleCommands_active (commands : List (Command Task)) (worker : Worker S Task) :
    (worker.handleCommands commands).2.active = worker.active := by
  refine @handleCommands_induction _ _ _ _ (fun next => next.active = worker.active) commands
    (fun before command hbefore => ?_) worker rfl
  rcases handleCommand_cases (before.emit [.received command]) command with
    ⟨queued, _, hcase⟩ | ⟨_, hcase⟩ | ⟨_, server, effects, hcase, _⟩ <;> rw [hcase] <;>
    exact hbefore

theorem resumeStep_admits (env : TurnEnv Task) (worker : Worker S Task) :
    ReflTransGen (Admission env) worker (resumeStep worker).2 := by
  unfold resumeStep
  split
  · exact .refl
  · next candidate rest hresume =>
      split
      · split
        · next error server hborrow =>
            obtain rfl : (decoder worker.server).2 = server := by rw [hborrow]
            exact .single .borrow
        · next server hborrow =>
            obtain rfl : (decoder worker.server).2 = server := by rw [hborrow]
            dsimp only
            split
            · exact .single .borrow
            · next hroom =>
                split
                · exact .single .borrow
                · next slot hslot =>
                    exact .single (.resume candidate rest slot _ hresume (by rw [hborrow]) hslot
                      (not_lt.mp hroom))
      · exact .refl

theorem queueStep_admits (env : TurnEnv Task) (worker : Worker S Task) :
    ReflTransGen (Admission env) worker (queueStep env worker).2 := by
  unfold queueStep
  split
  · split
    · exact .refl
    · next front rest hqueue =>
        split
        · exact .single (.reject front rest _ hqueue)
        · split
          · next error server hborrow =>
              obtain rfl : (decoder worker.server).2 = server := by rw [hborrow]
              exact .head .borrow (.single (.reject front rest _ hqueue))
          · next server hborrow =>
              obtain rfl : (decoder worker.server).2 = server := by rw [hborrow]
              dsimp only
              split
              · exact .head .borrow (.single (.reject front rest _ hqueue))
              · next tokens htokens =>
                  split
                  · exact .head .borrow (.single (.reject front rest _ hqueue))
                  · next hneed =>
                      split
                      · exact .single .borrow
                      · next hroom =>
                          split
                          · exact .single .borrow
                          · next slot hslot =>
                              exact .single (.start front rest tokens _ _ slot hqueue
                                (by rw [hborrow]) htokens rfl (not_lt.mp hneed) hslot
                                (not_lt.mp hroom))
  · exact .refl

theorem admitJobs_admits (env : TurnEnv Task) (worker : Worker S Task) :
    ReflTransGen (Admission env) worker (admitJobs env worker) := by
  have hresumed : ReflTransGen (Admission env) worker (loop resumeStep worker.resume.length worker) :=
    loop_induction (fun state hstate => hstate.trans (resumeStep_admits env state)) _ .refl
  exact loop_induction (fun state hstate => hstate.trans (queueStep_admits env state)) _ hresumed

/-- Admissions are moves. -/
theorem moves_of_admits {env : TurnEnv Task} {worker next : Worker S Task}
    (hadmits : ReflTransGen (Admission env) worker next) : Moves env worker next :=
  ReflTransGen.mono (fun _ _ => .admission) _ _ hadmits

/-! ## Growth -/

/-- The youngest unfinished sequence, taken out of its list. -/
theorem popYoungest_some {seqs : List JobSeq} {victim : JobSeq} {kept : List JobSeq}
    (hpop : popYoungest seqs = some (victim, kept)) :
    ∃ before after, seqs = before ++ victim :: after ∧ kept = before ++ after ∧
      victim.finished = false := by
  induction seqs generalizing kept with
  | nil => simp [popYoungest] at hpop
  | cons seq seqs ih =>
      rw [popYoungest] at hpop
      split at hpop
      · next other others hrest =>
          obtain ⟨rfl, rfl⟩ := Prod.mk.inj (Option.some.inj hpop)
          obtain ⟨before, after, rfl, rfl, hvictim⟩ := ih hrest
          exact ⟨seq :: before, after, rfl, rfl, hvictim⟩
      · split at hpop
        · simp at hpop
        · next hseq =>
            obtain ⟨rfl, rfl⟩ := Prod.mk.inj (Option.some.inj hpop)
            exact ⟨[], seqs, rfl, rfl, Bool.not_eq_true _ ▸ hseq⟩

/-- Nothing to take out means nothing unfinished. -/
theorem popYoungest_none {seqs : List JobSeq} (hpop : popYoungest seqs = none) :
    ∀ seq ∈ seqs, seq.finished = true := by
  induction seqs with
  | nil => simp
  | cons seq seqs ih =>
      rw [popYoungest] at hpop
      split at hpop
      · simp at hpop
      · next hrest =>
          split at hpop
          · next hseq => exact List.forall_mem_cons.mpr ⟨hseq, ih hrest⟩
          · simp at hpop

/-- The blocks a sequence's whole generation needs. -/
def worstBlocks (kv : KvBudget) (maxContextLen : ℕ) (seq : JobSeq) : ℕ :=
  kv.blocksFor (min (addWord seq.tokens.length (seq.maxGen - seq.generated)) maxContextLen)

/-- What the senior is topped up by. -/
def topUp (kv : KvBudget) (maxContextLen reserved : ℕ) (seq : JobSeq) : ℕ :=
  min (worstBlocks kv maxContextLen seq - seq.kvReservation) (kv.totalBlocks - reserved)

/-- The first unfinished sequence is topped up, and nothing else changes. -/
theorem topUpSenior_cases (kv : KvBudget) (maxContextLen reserved : ℕ) (seqs : List JobSeq) :
    ((∀ seq ∈ seqs, seq.finished = true) ∧
      topUpSenior kv maxContextLen reserved seqs = (seqs, reserved)) ∨
    ∃ before senior after, seqs = before ++ senior :: after ∧
      (∀ seq ∈ before, seq.finished = true) ∧ senior.finished = false ∧
      topUpSenior kv maxContextLen reserved seqs =
        (before ++ { senior with
            kvReservation := senior.kvReservation + topUp kv maxContextLen reserved senior } ::
          after, reserved + topUp kv maxContextLen reserved senior) := by
  induction seqs with
  | nil => exact Or.inl ⟨by simp, rfl⟩
  | cons seq seqs ih =>
      by_cases hseq : seq.finished = true
      · simp only [topUpSenior, if_pos hseq]
        rcases ih with ⟨hall, hrest⟩ | ⟨before, senior, after, rfl, hbefore, hsenior, hrest⟩
        · exact Or.inl ⟨List.forall_mem_cons.mpr ⟨hseq, hall⟩, by rw [hrest]⟩
        · exact Or.inr ⟨seq :: before, senior, after, rfl,
            List.forall_mem_cons.mpr ⟨hseq, hbefore⟩, hsenior, by rw [hrest]; rfl⟩
      · refine Or.inr ⟨[], seq, seqs, rfl, by simp, Bool.not_eq_true _ ▸ hseq, ?_⟩
        simp only [topUpSenior, if_neg hseq]
        split
        · rfl
        · next hfull =>
            have hzero : topUp kv maxContextLen reserved seq = 0 := by
              unfold topUp worstBlocks
              omega
            rw [hzero]
            rfl

/-- One pass of the growth loop over the sequence it has come to. -/
inductive GrowStep (kv : KvBudget) (maxContextLen : ℕ) (seniorIndex : Option ℕ)
    (growth : Growth S) (seq : JobSeq) (rest : List JobSeq) : Growth S → Prop
  | finished (hfinished : seq.finished = true) :
      GrowStep kv maxContextLen seniorIndex growth seq rest
        { growth with past := growth.past ++ [seq], todo := rest }
  | covered (hunfinished : seq.finished = false)
      (hcovered : kv.blocksFor (min seq.tokens.length maxContextLen) ≤ seq.kvReservation) :
      GrowStep kv maxContextLen seniorIndex growth seq rest
        { growth with past := growth.past ++ [{ seq with paused := false }], todo := rest }
  | grant (delta : ℕ) (hunfinished : seq.finished = false) (hpos : 0 < delta)
      (hdelta : seq.kvReservation + delta = kv.blocksFor (min seq.tokens.length maxContextLen))
      (hroom : delta ≤ kv.totalBlocks - growth.reserved) :
      GrowStep kv maxContextLen seniorIndex growth seq rest
        { growth with
          past := growth.past ++
            [{ seq with kvReservation := seq.kvReservation + delta, paused := false }]
          todo := rest
          reserved := growth.reserved + delta }
  | evict (victim : JobSeq) (kept : List JobSeq) (hunfinished : seq.finished = false)
      (hsenior : some growth.past.length = seniorIndex)
      (hpop : popYoungest rest = some (victim, kept)) :
      GrowStep kv maxContextLen seniorIndex growth seq rest
        { growth with
          todo := seq :: kept
          reserved := growth.reserved - victim.kvReservation
          server := release growth.server victim.slot
          resume := victim.evicted :: growth.resume }
  | pause (hunfinished : seq.finished = false)
      (hshort : kv.totalBlocks - growth.reserved <
        kv.blocksFor (min seq.tokens.length maxContextLen) - seq.kvReservation)
      (hstuck : some growth.past.length = seniorIndex → ∀ other ∈ rest, other.finished = true) :
      GrowStep kv maxContextLen seniorIndex growth seq rest
        { growth with past := growth.past ++ [{ seq with paused := true }], todo := rest }

theorem growStep_cases {kv : KvBudget} {maxContextLen : ℕ} {seniorIndex : Option ℕ}
    {growth : Growth S} {seq : JobSeq} {rest : List JobSeq} (htodo : growth.todo = seq :: rest) :
    ∃ next, growStep kv maxContextLen seniorIndex growth = (true, next) ∧
      GrowStep kv maxContextLen seniorIndex growth seq rest next := by
  unfold growStep
  rw [htodo]
  by_cases hseq : seq.finished = true
  · exact ⟨_, by simp only [if_pos hseq], .finished hseq⟩
  simp only [if_neg hseq]
  rw [Bool.not_eq_true] at hseq
  by_cases hneed : kv.blocksFor (min seq.tokens.length maxContextLen) ≤ seq.kvReservation
  · exact ⟨_, by simp only [if_pos hneed], .covered hseq hneed⟩
  simp only [if_neg hneed]
  by_cases hroom : kv.blocksFor (min seq.tokens.length maxContextLen) - seq.kvReservation ≤
      kv.totalBlocks - growth.reserved
  · exact ⟨_, by simp only [if_pos hroom], .grant _ hseq (by omega) (by omega) hroom⟩
  simp only [if_neg hroom]
  by_cases hsenior : some growth.past.length = seniorIndex
  · simp only [if_pos hsenior]
    split
    · next victim kept hpop => exact ⟨_, rfl, .evict victim kept hseq hsenior hpop⟩
    · next hpop =>
        exact ⟨_, rfl, .pause hseq (not_le.mp hroom) fun _ => popYoungest_none hpop⟩
  · exact ⟨_, by simp only [if_neg hsenior],
      .pause hseq (not_le.mp hroom) fun h => absurd h hsenior⟩

/-- A growth pass accounts exactly. -/
theorem GrowStep.accounted {kv : KvBudget} {maxContextLen : ℕ} {seniorIndex : Option ℕ}
    {growth next : Growth S} {seq : JobSeq} {rest : List JobSeq}
    (hstep : GrowStep kv maxContextLen seniorIndex growth seq rest next)
    (htodo : growth.todo = seq :: rest)
    (haccounted : growth.reserved = reservedBlocks (growth.past ++ growth.todo)) :
    next.reserved = reservedBlocks (next.past ++ next.todo) := by
  rw [htodo] at haccounted
  cases hstep with
  | evict victim kept hunfinished hsenior hpop =>
      obtain ⟨before, after, rfl, rfl, _⟩ := popYoungest_some hpop
      simp [reservedBlocks] at haccounted ⊢
      omega
  | _ =>
      simp [reservedBlocks] at haccounted ⊢
      omega

/-- A growth pass finishes nothing. -/
theorem GrowStep.unfinished {kv : KvBudget} {maxContextLen : ℕ} {seniorIndex : Option ℕ}
    {growth next : Growth S} {seq : JobSeq} {rest : List JobSeq}
    (hstep : GrowStep kv maxContextLen seniorIndex growth seq rest next)
    (htodo : growth.todo = seq :: rest)
    (hunfinished : ∀ other ∈ growth.past ++ growth.todo, other.finished = false) :
    ∀ other ∈ next.past ++ next.todo, other.finished = false := by
  rw [htodo] at hunfinished
  cases hstep with
  | evict victim kept hseq hsenior hpop =>
      obtain ⟨before, after, rfl, rfl, _⟩ := popYoungest_some hpop
      simp [or_imp, forall_and] at hunfinished ⊢
      tauto
  | _ =>
      simp [or_imp, forall_and] at hunfinished ⊢
      tauto

/-- The worker a growth pass stands for. -/
def grownWorker (worker : Worker S Task) (growth : Growth S) : Worker S Task :=
  { worker with
    active := growth.past ++ growth.todo
    resume := growth.resume
    server := growth.server }

/-- What a growth pass keeps: it is a chain of regrowths, it accounts exactly,
and what it is past is covered. -/
structure Growing (worker : Worker S Task) (measured : S) (maxContextLen : ℕ)
    (growth : Growth S) : Prop where
  chain : ReflTransGen (Regrowth measured) worker (grownWorker worker growth)
  accounted : growth.reserved = reservedBlocks (growth.past ++ growth.todo)
  covered : Covered (batchCapacity measured).kv maxContextLen growth.past

/-- One pass keeps it all. -/
theorem Growing.step {worker : Worker S Task} {measured : S}
    {maxContextLen : ℕ} {seniorIndex : Option ℕ} {growth next : Growth S} {seq : JobSeq}
    {rest : List JobSeq} (hlimited : (batchCapacity measured).kv.totalBlocks ≠ usizeMax)
    (hgrowing : Growing worker measured maxContextLen growth)
    (htodo : growth.todo = seq :: rest)
    (hstep : GrowStep (batchCapacity measured).kv maxContextLen seniorIndex growth seq rest
      next) : Growing worker measured maxContextLen next := by
  have hactive : (grownWorker worker growth).active = growth.past ++ seq :: rest := by
    rw [← htodo]
    rfl
  have haccounted := hgrowing.accounted
  rw [htodo] at haccounted
  refine ⟨?_, hstep.accounted htodo hgrowing.accounted, ?_⟩
  · cases hstep with
    | finished hfinished =>
        have hchain := hgrowing.chain
        rw [grownWorker, htodo] at hchain
        simpa [grownWorker] using hchain
    | covered hunfinished hcovered =>
        have hmove : Regrowth measured (grownWorker worker growth) _ :=
          .grow growth.past seq rest seq.kvReservation false hactive hlimited le_rfl (by omega)
        exact hgrowing.chain.tail (by simpa [grownWorker] using hmove)
    | grant delta hunfinished hpos hdelta hroom =>
        have hmove : Regrowth measured (grownWorker worker growth) _ :=
          .grow growth.past seq rest (seq.kvReservation + delta) false hactive hlimited
            (Nat.le_add_right _ _) (by
              rw [hactive]
              omega)
        exact hgrowing.chain.tail (by simpa [grownWorker] using hmove)
    | evict victim kept hunfinished hsenior hpop =>
        obtain ⟨before, after, hrest, rfl, hvictim⟩ := popYoungest_some hpop
        have hmove : Regrowth measured (grownWorker worker growth) _ :=
          .evict (growth.past ++ seq :: before) victim after (by rw [hactive, hrest]; simp) hvictim
        exact hgrowing.chain.tail (by simpa [grownWorker] using hmove)
    | pause hunfinished hshort hstuck =>
        have hmove : Regrowth measured (grownWorker worker growth) _ :=
          .grow growth.past seq rest seq.kvReservation true hactive hlimited le_rfl (by omega)
        exact hgrowing.chain.tail (by simpa [grownWorker] using hmove)
  · cases hstep with
    | finished hfinished => exact hgrowing.covered.concat (by simp [hfinished])
    | covered hunfinished hcovered => exact hgrowing.covered.concat fun _ _ => hcovered
    | grant delta hunfinished hpos hdelta hroom =>
        exact hgrowing.covered.concat fun _ _ => hdelta.ge
    | evict victim kept hunfinished hsenior hpop => exact hgrowing.covered
    | pause hunfinished hshort hstuck => exact hgrowing.covered.concat (by simp)

/-- The growth loop is past everything when it stops. -/
theorem growLoop_todo (kv : KvBudget) (maxContextLen : ℕ) (seniorIndex : Option ℕ)
    (growth : Growth S) :
    (loop (growStep kv maxContextLen seniorIndex) growth.todo.length growth).todo = [] := by
  have hexit := @loop_exits _ (growStep kv maxContextLen seniorIndex) (fun _ => True)
    (fun growth => growth.todo.length) (fun _ _ => trivial) ?_ growth.todo.length growth trivial
    le_rfl
  · rcases hexit with ⟨last, _, hlast⟩ | ⟨_, hnil⟩
    · cases htodo : last.todo with
      | nil =>
          rw [growStep, htodo] at hlast
          rw [← (Prod.mk.inj hlast).2]
          exact htodo
      | cons seq rest =>
          obtain ⟨next, hnext, _⟩ := growStep_cases htodo
          rw [hnext] at hlast
          simp at hlast
    · exact List.length_eq_zero_iff.mp hnil
  · intro growth next _ hnext
    cases htodo : growth.todo with
    | nil =>
        rw [growStep, htodo] at hnext
        simp at hnext
    | cons seq rest =>
        obtain ⟨next', hnext', hstep⟩ := growStep_cases htodo
        rw [hnext'] at hnext
        obtain rfl := (Prod.mk.inj hnext).2
        cases hstep with
        | evict victim kept _ _ hpop =>
            obtain ⟨before, after, rfl, rfl, _⟩ := popYoungest_some hpop
            simp
        | _ => simp

/-- A growth pass is a chain of regrowths and leaves everything covered. -/
theorem grantKvGrowth_regrows (worker : Worker S Task) (measured : S) (maxContextLen : ℕ) :
    ReflTransGen (Regrowth measured) worker
        (grantKvGrowth (batchCapacity measured).kv maxContextLen worker) ∧
      Covered (batchCapacity measured).kv maxContextLen
        (grantKvGrowth (batchCapacity measured).kv maxContextLen worker).active := by
  unfold grantKvGrowth
  by_cases hlimited : (batchCapacity measured).kv.totalBlocks = usizeMax
  · rw [if_pos hlimited]
    exact ⟨.refl, fun h => absurd hlimited h⟩
  rw [if_neg hlimited]
  -- the top-up is one move, or none
  have hstart : Growing worker measured maxContextLen
      (growthStart (batchCapacity measured).kv maxContextLen worker) := by
    unfold growthStart
    rcases topUpSenior_cases (batchCapacity measured).kv maxContextLen
        (reservedBlocks worker.active) worker.active with
      ⟨_, htop⟩ | ⟨before, senior, after, hactive, _, _, htop⟩ <;> rw [htop]
    · exact ⟨.refl, by simp, fun _ => by simp⟩
    · refine ⟨.single ?_, ?_, fun _ => by simp⟩
      · exact .grow before senior after _ senior.paused hactive hlimited
          (Nat.le_add_right _ _) (by
            rw [Nat.add_sub_cancel_left]
            exact min_le_right _ _)
      · rw [hactive]
        simp [reservedBlocks]
        omega
  have hgrown := @loop_induction _ (growStep (batchCapacity measured).kv maxContextLen
      ((growthStart (batchCapacity measured).kv maxContextLen worker).todo.findIdx? fun seq =>
        !seq.finished))
    (Growing worker measured maxContextLen) ?_
    (growthStart (batchCapacity measured).kv maxContextLen worker).todo.length _ hstart
  · refine ⟨hgrown.chain, ?_⟩
    simpa only [growLoop_todo, List.append_nil] using hgrown.covered
  · intro growth hgrowing
    cases htodo : growth.todo with
    | nil =>
        rw [growStep, htodo]
        exact hgrowing
    | cons seq rest =>
        obtain ⟨next, hnext, hstep⟩ := growStep_cases htodo
        rw [hnext]
        exact hgrowing.step hlimited htodo hstep

/-! ## Turns -/

/-- What precedes a round leaves everything covered, if the decoder lets it. -/
theorem prepareRound_moves (env : TurnEnv Task) (worker : Worker S Task) :
    Moves env worker (prepareRound env worker) ∧
      ((∀ server : S, (decoder server).1 = .ok ()) → ∃ measured borrowed : S,
        Covered (batchCapacity measured).kv (maxContextLen borrowed)
          (prepareRound env worker).active) := by
  have hborrow : Moves env worker
      { worker with
        active := worker.active.map (cancelSweep env)
        server := (decoder worker.server).2 } :=
    .head .sweep (.single (.admission .borrow))
  unfold prepareRound
  split
  · next server hok =>
      obtain rfl : (decoder worker.server).2 = server := by rw [hok]
      have hgrow := grantKvGrowth_regrows
        { worker with
          active := worker.active.map (cancelSweep env)
          server := (decoder worker.server).2 }
        worker.server (maxContextLen (decoder worker.server).2)
      have hmoves : Moves env _ _ :=
        ReflTransGen.mono (fun _ _ => .regrowth worker.server) _ _ hgrow.1
      exact ⟨hborrow.trans hmoves, fun _ => ⟨worker.server, _, hgrow.2⟩⟩
  · next error server hrefused =>
      obtain rfl : (decoder worker.server).2 = server := by rw [hrefused]
      refine ⟨hborrow, fun hok => ?_⟩
      have herror := hok worker.server
      rw [hrefused] at herror
      simp at herror

theorem step_moves (env : TurnEnv Task) (worker : Worker S Task) :
    Moves env worker (step env worker) := by
  unfold step
  split
  · exact .refl
  obtain ⟨hchain, hcovered⟩ := prepareRound_moves env worker
  dsimp only
  split
  · next error server hrefused =>
      obtain rfl : (decoder (prepareRound env worker).server).2 = server := by rw [hrefused]
      exact hchain.tail (.fail error (by rw [hrefused]))
  · next server hok =>
      obtain rfl : (decoder (prepareRound env worker).server).2 = server := by rw [hok]
      exact (hchain.tail (.round worker.server (by rw [hok]) hcovered)).tail .retire

/-- **A turn is a chain of moves.** -/
theorem turn_moves (env : TurnEnv Task) (worker : Worker S Task) :
    Moves env worker (worker.turn env).2 := by
  unfold turn
  split
  · exact .refl
  · have hcommands := handleCommands_moves env.commands (fun _ h => h) worker
    split
    · next next hcase =>
        rw [hcase] at hcommands
        exact hcommands
    · next next hcase =>
        rw [hcase] at hcommands
        exact (hcommands.trans (moves_of_admits (admitJobs_admits env next))).trans (step_moves env _)

/-- What every move keeps, a chain of moves keeps. -/
theorem Moves.induction {env : TurnEnv Task} {Inv : Worker S Task → Prop}
    {worker next : Worker S Task} (hmoves : Moves env worker next)
    (hmove : ∀ before after, Inv before → Move env before after → Inv after)
    (hworker : Inv worker) : Inv next := by
  induction hmoves with
  | refl => exact hworker
  | tail _ hlast ih => exact hmove _ _ ih hlast

/-- **What every move keeps, a run keeps.** -/
theorem run_induction {Inv : Worker S Task → Prop} (envs : List (TurnEnv Task))
    (hmove : ∀ env ∈ envs, ∀ before after, Inv before → Move env before after → Inv after)
    {worker : Worker S Task} (hworker : Inv worker) : Inv (run envs worker).2 := by
  induction envs generalizing worker with
  | nil => exact hworker
  | cons env envs ih =>
      have hturn := (turn_moves env worker).induction (hmove env List.mem_cons_self) hworker
      rw [run]
      split
      · next next hcase =>
          rw [hcase] at hturn
          exact hturn
      · next next hcase =>
          rw [hcase] at hturn
          exact ih (fun env henv => hmove env (List.mem_cons_of_mem _ henv)) hturn

/-- A run that goes on takes the next turn. -/
theorem run_concat (envs : List (TurnEnv Task)) (env : TurnEnv Task) (worker : Worker S Task) :
    run (envs ++ [env]) worker =
      if (run envs worker).1 = .continue then (run envs worker).2.turn env
      else run envs worker := by
  induction envs generalizing worker with
  | nil =>
      rw [List.nil_append, run, run, if_pos rfl]
      split
      · next next hcase => exact hcase.symm
      · next next hcase => exact hcase.symm
  | cons other envs ih =>
      rw [List.cons_append, run, run]
      split
      · rfl
      · exact ih _

end Worker

end BurnLm.Inference
