/-
# Queue permits

A channel bounds the jobs that were submitted and not admitted by a counter its
callers and its workers share. `submit` adds one before it knows whether it may, and
what it saw decides. From then on the one is a permit: it travels with the job into
the command channel and the queue, and is taken back where it is dropped. That is
somewhere in `submit` if there is no worker to send to, and in a worker's thread once
the job left its queue, or once the thread ended and the job with it.

The source counts in a `usize` and subtracts unchecked. The count is an integer here,
and that it never is negative is a result. All its accesses are `Relaxed`: only the
order of its own changes is used.

A worker is one lifetime. A channel goes through any number of them, since `sender`
replaces a worker whose thread ended.
-/

import BurnLm.Math.Semaphore
import BurnLm.Inference.RecallServer
import BurnLm.Inference.Serving

namespace BurnLm.Inference

open BurnLm.Math
open Relation (ReflTransGen)

universe u v w

variable {S : Type u} {Row : Type v} {Task : Type w}

/-- How far a `submit` has got. -/
inductive SubmitPhase
  /-- It has added one, and seen what was there before. -/
  | counted (previous : ℤ)
  /-- It took the one back and returned `Overloaded`. -/
  | refused
  /-- It owns a permit and wants a sender. -/
  | permitted
  /-- It has the sender of a worker. -/
  | sending (worker : ℕ)
  /-- It has nowhere to send to, and is about to drop its permit. -/
  | abandoning
  /-- It returned `WorkerDied`, or unwound. -/
  | failed
  /-- It sent the job to a worker, and the permit with it. -/
  | sent (worker : ℕ)
  deriving DecidableEq, Repr

/-- One call of `submit`. Its request is known by the completion handle. -/
structure Submit (Task : Type w) where
  queued : QueuedJob Task
  phase : SubmitPhase

namespace Submit

def completion (submit : Submit Task) : ℕ := submit.queued.completion

/-- The permit it holds. -/
def permits (submit : Submit Task) : List ℕ :=
  match submit.phase with
  | .permitted | .sending _ | .abandoning => [submit.completion]
  | _ => []

/-- What it has to decide on. -/
def undecided (submit : Submit Task) : List (ℕ × ℤ) :=
  match submit.phase with
  | .counted previous => [(submit.completion, previous)]
  | _ => []

end Submit

namespace Serving

/-- The permits in the command channel and the queue. -/
def permits (serving : Serving S Task) : List ℕ :=
  serving.commands.filterMap Command.completion ++
    serving.custody.queue.map QueuedJob.completion

/-- The requests handed over to the emission thread. -/
def handed (serving : Serving S Task) : List ℕ :=
  (admissions serving.events).map Prod.snd ++
    (serving.emission.registered.map Prod.snd ++ serving.emission.completed)

/-- The requests the worker thread answered itself or dropped with what it owned. -/
def rejected (serving : Serving S Task) : List ℕ :=
  serving.replies.map Prod.fst ++ serving.dropped

end Serving

/-- A worker, and the permits whose jobs are out of its channel and queue and which
its thread has yet to drop. -/
structure Lifetime (S : Type u) (Task : Type w) where
  serving : Serving S Task
  releasing : List ℕ

namespace Lifetime

def spawn (server : S) : Lifetime S Task := ⟨.spawn server, []⟩

/-- The permits alive in it. -/
def permits (lifetime : Lifetime S Task) : List ℕ := lifetime.serving.permits ++ lifetime.releasing

/-- It receives a job. -/
def submit (lifetime : Lifetime S Task) (queued : QueuedJob Task) : Lifetime S Task :=
  { lifetime with
    serving :=
      { lifetime.serving with
        commands := lifetime.serving.commands ++ [.submit queued]
        submitted := lifetime.serving.submitted ++ [queued.completion] } }

/-- It gets here; what is gone from channel and queue is in the thread's hands. -/
def advance (lifetime : Lifetime S Task) (serving : Serving S Task) : Lifetime S Task where
  serving := serving
  releasing := lifetime.releasing ++ lifetime.serving.permits.diff serving.permits

end Lifetime

/-- The channel: the counter and its bound, the worker in use, every `submit` so far
and every worker so far. -/
structure BatchingChannel (S : Type u) (Task : Type w) where
  maxQueueDepth : ℕ
  pending : ℤ
  inner : Option ℕ
  submits : List (Submit Task)
  lifetimes : List (Lifetime S Task)
  /-- Who changed the counter, by how much. For reasoning only. -/
  changes : List (ℕ × ℤ)

namespace BatchingChannel

def withQueueDepth (maxQueueDepth : ℕ) : BatchingChannel S Task :=
  ⟨maxQueueDepth, 0, none, [], [], []⟩

/-- No worker in use, or one whose thread ended. -/
def Vacant (channel : BatchingChannel S Task) : Prop :=
  ∀ worker lifetime, channel.inner = some worker → channel.lifetimes[worker]? = some lifetime →
    lifetime.serving.phase = .exited

/-- `sender`, under its lock: the worker it finds or spawns, if any, and the channel
it leaves. An ended thread may not look finished yet, and then its worker stays. -/
inductive Sender (channel : BatchingChannel S Task) :
    Option ℕ → BatchingChannel S Task → Prop
  | running (worker : ℕ) (hinner : channel.inner = some worker) :
      Sender channel (some worker) channel
  | spawned (server : S) (hvacant : channel.Vacant) :
      Sender channel (some channel.lifetimes.length)
        { channel with
          inner := some channel.lifetimes.length
          lifetimes := channel.lifetimes ++ [.spawn server] }
  /-- The new worker does not come up. -/
  | failed (hvacant : channel.Vacant) : Sender channel none { channel with inner := none }
  /-- A caller panicked under the lock. -/
  | poisoned : Sender channel none channel

variable [BatchedInferenceServer S Row Task]

/-- One step of one of the parties. -/
inductive Step (channel : BatchingChannel S Task) : BatchingChannel S Task → Prop
  /-- `submit` begins: `fetch_add`. -/
  | count (queued : QueuedJob Task)
      (hfresh : queued.completion ∉ channel.submits.map Submit.completion) :
      Step channel
        { channel with
          pending := channel.pending + 1
          submits := channel.submits ++ [⟨queued, .counted channel.pending⟩]
          changes := channel.changes ++ [(queued.completion, 1)] }
  /-- The bound was reached: `fetch_sub` and out. -/
  | refuse (index : ℕ) (queued : QueuedJob Task) (previous : ℤ)
      (hsubmit : channel.submits[index]? = some ⟨queued, .counted previous⟩)
      (hfull : channel.maxQueueDepth ≤ previous) :
      Step channel
        { channel with
          pending := channel.pending - 1
          submits := channel.submits.set index ⟨queued, .refused⟩
          changes := channel.changes ++ [(queued.completion, -1)] }
  | permit (index : ℕ) (queued : QueuedJob Task) (previous : ℤ)
      (hsubmit : channel.submits[index]? = some ⟨queued, .counted previous⟩)
      (hroom : previous < channel.maxQueueDepth) :
      Step channel { channel with submits := channel.submits.set index ⟨queued, .permitted⟩ }
  /-- `sender`, as `submit` calls it. -/
  | sender (index : ℕ) (queued : QueuedJob Task) (answer : Option ℕ)
      (next : BatchingChannel S Task)
      (hsubmit : channel.submits[index]? = some ⟨queued, .permitted⟩)
      (hsender : channel.Sender answer next) :
      Step channel
        { next with
          submits := channel.submits.set index ⟨queued, answer.elim .abandoning .sending⟩ }
  /-- `sender`, as anybody else calls it. -/
  | request (answer : Option ℕ) (next : BatchingChannel S Task)
      (hsender : channel.Sender answer next) : Step channel next
  | send (index worker : ℕ) (queued : QueuedJob Task) (lifetime : Lifetime S Task)
      (hsubmit : channel.submits[index]? = some ⟨queued, .sending worker⟩)
      (hlifetime : channel.lifetimes[worker]? = some lifetime)
      (halive : lifetime.serving.phase ≠ .exited) :
      Step channel
        { channel with
          submits := channel.submits.set index ⟨queued, .sent worker⟩
          lifetimes := channel.lifetimes.set worker (lifetime.submit queued) }
  /-- The receiver is gone: the command comes back. -/
  | disconnected (index worker : ℕ) (queued : QueuedJob Task) (lifetime : Lifetime S Task)
      (hsubmit : channel.submits[index]? = some ⟨queued, .sending worker⟩)
      (hlifetime : channel.lifetimes[worker]? = some lifetime)
      (hexited : lifetime.serving.phase = .exited) :
      Step channel { channel with submits := channel.submits.set index ⟨queued, .abandoning⟩ }
  /-- `submit` drops its permit and returns. -/
  | abandon (index : ℕ) (queued : QueuedJob Task)
      (hsubmit : channel.submits[index]? = some ⟨queued, .abandoning⟩) :
      Step channel
        { channel with
          pending := channel.pending - 1
          submits := channel.submits.set index ⟨queued, .failed⟩
          changes := channel.changes ++ [(queued.completion, -1)] }
  /-- Anything else that can happen around a worker. `admit` has dropped a permit
  before it hands the job over. -/
  | work (worker : ℕ) (lifetime : Lifetime S Task) (serving : Serving S Task)
      (hlifetime : channel.lifetimes[worker]? = some lifetime)
      (hstep : lifetime.serving.Step serving)
      (hsubmitted : serving.submitted = lifetime.serving.submitted)
      (hdropped : ∀ completion ∈ (lifetime.advance serving).releasing,
        completion ∉ (admissions serving.events).map Prod.snd) :
      Step channel
        { channel with lifetimes := channel.lifetimes.set worker (lifetime.advance serving) }
  /-- A worker's thread drops a permit. -/
  | release (worker completion : ℕ) (lifetime : Lifetime S Task)
      (hlifetime : channel.lifetimes[worker]? = some lifetime)
      (hreleasing : completion ∈ lifetime.releasing) :
      Step channel
        { channel with
          pending := channel.pending - 1
          lifetimes := channel.lifetimes.set worker
            { lifetime with releasing := lifetime.releasing.erase completion }
          changes := channel.changes ++ [(completion, -1)] }

/-- What a channel with this bound can come to. -/
def Reachable (maxQueueDepth : ℕ) : BatchingChannel S Task → Prop :=
  ReflTransGen Step (withQueueDepth maxQueueDepth)

/-- The permits alive, wherever they are. -/
def permits (channel : BatchingChannel S Task) : List ℕ :=
  channel.submits.flatMap Submit.permits ++ channel.lifetimes.flatMap Lifetime.permits

/-- The submits between incrementing and deciding. -/
def undecided (channel : BatchingChannel S Task) : List (ℕ × ℤ) :=
  channel.submits.flatMap Submit.undecided

/-- What the counter is about. -/
def semaphore (channel : BatchingChannel S Task) : Semaphore ℕ where
  limit := channel.maxQueueDepth
  counter := channel.pending
  undecided := channel.undecided
  permits := (channel.submits.flatMap Submit.permits : Multiset ℕ) +
    (channel.lifetimes.flatMap Lifetime.permits : Multiset ℕ)
  ledger := channel.changes

/-! ## The counter is an optimistic semaphore -/

omit [BatchedInferenceServer S Row Task] in
/-- What `sender` leaves differs in the worker in use, and in workers just spawned. -/
theorem Sender.eq {channel next : BatchingChannel S Task} {answer : Option ℕ}
    (hsender : channel.Sender answer next) :
    ∃ inner lifetimes, next = { channel with inner, lifetimes := channel.lifetimes ++ lifetimes } ∧
      ∀ lifetime ∈ lifetimes, ∃ server : S, lifetime = .spawn server := by
  cases hsender with
  | running worker hinner => exact ⟨channel.inner, [], by rw [List.append_nil], by simp⟩
  | spawned server hvacant => exact ⟨_, [.spawn server], rfl, by simp⟩
  | failed hvacant => exact ⟨none, [], by rw [List.append_nil], by simp⟩
  | poisoned => exact ⟨channel.inner, [], by rw [List.append_nil], by simp⟩

end BatchingChannel

/-- One entry of a list replaced: what the others hold stays. -/
theorem exists_coe_flatMap {α β : Type*} (held : α → List β) {entries : List α} {index : ℕ}
    {entry : α} (hentry : entries[index]? = some entry) :
    ∃ rest : Multiset β, (entries.flatMap held : Multiset β) = held entry + rest ∧
      ∀ given, ((entries.set index given).flatMap held : Multiset β) = held given + rest := by
  induction entries generalizing index with
  | nil => simp at hentry
  | cons first entries ih =>
      cases index with
      | zero =>
          obtain rfl : first = entry := by simpa using hentry
          exact ⟨entries.flatMap held, by simp, by simp⟩
      | succ index =>
          obtain ⟨rest, hbefore, hafter⟩ := @ih index (by simpa using hentry)
          refine ⟨held first + rest, ?_, fun given => ?_⟩
          · rw [List.flatMap_cons, ← Multiset.coe_add, hbefore, add_left_comm]
          · rw [List.set_cons_succ, List.flatMap_cons, ← Multiset.coe_add, hafter, add_left_comm]

namespace Serving

variable [BatchedInferenceServer S Row Task]

/-- **Nothing enters channel or queue but what is submitted.** -/
theorem Step.permits_subperm {serving next : Serving S Task} (hstep : serving.Step next)
    (hsubmitted : next.submitted = serving.submitted) :
    next.permits.Subperm serving.permits := by
  cases hstep with
  | submit queued halive hfresh => simp at hsubmitted
  | send command halive hother =>
      have hnone : [command].filterMap Command.completion = [] := by simp [hother]
      rw [permits, List.filterMap_append, hnone, List.append_nil]
      exact List.Subperm.refl _
  | turn => exact List.Subperm.refl _
  | receive command commands script hrunning hscript hcommands =>
      refine List.Perm.subperm ?_
      rw [permits, permits, hcommands]
      cases command with
      | submit queued =>
          simp only [Serving.perform, Custody.perform, List.map_append, List.map_singleton,
            ← List.append_assoc]
          exact List.perm_append_comm
      | _ => rfl
  | perform effect script hrunning hscript hother =>
      refine List.Sublist.subperm (List.Sublist.append_left ?_ _)
      cases effect with
      | received => simp [Effect.command] at hother
      | dequeued => exact (List.tail_sublist _).map _
      | sent event => cases event <;> exact List.Sublist.refl _
      | _ => exact List.Sublist.refl _
  | shutdown => exact List.nil_subperm
  | panic => exact List.Subperm.refl _
  | fail queued queue hfailing hqueue =>
      refine List.Sublist.subperm (List.Sublist.append_left ?_ _)
      rw [hqueue]
      exact (List.sublist_cons_self _ _).map _
  | exit => exact List.nil_subperm
  | emit => exact List.Subperm.refl _
  | abandon => exact List.Subperm.refl _

end Serving

namespace Lifetime

/-- A job brings its permit along. -/
theorem coe_permits_submit (lifetime : Lifetime S Task) (queued : QueuedJob Task) :
    ((lifetime.submit queued).permits : Multiset ℕ) = queued.completion ::ₘ lifetime.permits := by
  have hcommand : [Command.submit queued].filterMap Command.completion = [queued.completion] := rfl
  refine Multiset.coe_eq_coe.mpr ?_
  simp only [permits, submit, Serving.permits, List.filterMap_append, hcommand, List.append_assoc]
  exact List.perm_middle

theorem coe_permits_release {lifetime : Lifetime S Task} {completion : ℕ}
    (hreleasing : completion ∈ lifetime.releasing) :
    (lifetime.permits : Multiset ℕ) = completion ::ₘ
      (({ lifetime with releasing := lifetime.releasing.erase completion } :
        Lifetime S Task).permits : Multiset ℕ) := by
  refine Multiset.coe_eq_coe.mpr (List.Perm.trans ?_ List.perm_middle)
  exact (List.perm_cons_erase hreleasing).append_left _

/-- Whatever else a lifetime does, its permits stay alive. -/
theorem coe_permits_advance [BatchedInferenceServer S Row Task]
    {lifetime : Lifetime S Task} {serving : Serving S Task}
    (hstep : lifetime.serving.Step serving)
    (hsubmitted : serving.submitted = lifetime.serving.submitted) :
    ((lifetime.advance serving).permits : Multiset ℕ) = lifetime.permits := by
  have hle := Multiset.coe_le.mpr (hstep.permits_subperm hsubmitted)
  rw [permits, permits, advance, ← Multiset.coe_add, ← Multiset.coe_add, ← Multiset.coe_add,
    ← Multiset.coe_sub]
  nth_rewrite 2 [← tsub_add_cancel_of_le hle]
  ac_rfl

end Lifetime

namespace BatchingChannel

/-- All submits but one, as the counter sees them. -/
theorem exists_others {submits : List (Submit Task)} {index : ℕ} {submit : Submit Task}
    (hsubmit : submits[index]? = some submit) :
    ∃ (undecided : Multiset (ℕ × ℤ)) (permits : Multiset ℕ),
      ((submits.flatMap Submit.undecided : Multiset (ℕ × ℤ)) = submit.undecided + undecided ∧
        (submits.flatMap Submit.permits : Multiset ℕ) = submit.permits + permits) ∧
      ∀ given : Submit Task,
        ((submits.set index given).flatMap Submit.undecided : Multiset (ℕ × ℤ)) =
            given.undecided + undecided ∧
          ((submits.set index given).flatMap Submit.permits : Multiset ℕ) =
            given.permits + permits := by
  obtain ⟨undecided, hundecided, hundecided'⟩ := exists_coe_flatMap Submit.undecided hsubmit
  obtain ⟨permits, hpermits, hpermits'⟩ := exists_coe_flatMap Submit.permits hsubmit
  exact ⟨undecided, permits, ⟨hundecided, hpermits⟩, fun given =>
    ⟨hundecided' given, hpermits' given⟩⟩

/-- Workers spawned bring no permits. -/
theorem Sender.permits_eq {channel next : BatchingChannel S Task} {answer : Option ℕ}
    (hsender : channel.Sender answer next) :
    next.lifetimes.flatMap Lifetime.permits = channel.lifetimes.flatMap Lifetime.permits := by
  obtain ⟨inner, lifetimes, rfl, hspawned⟩ := hsender.eq
  have hnone : lifetimes.flatMap Lifetime.permits = [] := by
    refine List.flatMap_eq_nil_iff.mpr fun lifetime hlifetime => ?_
    obtain ⟨server, rfl⟩ := hspawned lifetime hlifetime
    rfl
  rw [List.flatMap_append, hnone, List.append_nil]

variable [BatchedInferenceServer S Row Task]

/-- **Every step of the channel is a step of the semaphore, or none.** -/
theorem Step.refines {channel next : BatchingChannel S Task} (hstep : Step channel next) :
    next.semaphore = channel.semaphore ∨ channel.semaphore.Step next.semaphore := by
  cases hstep with
  | count queued hfresh =>
      refine Or.inr ((Semaphore.Step.enter queued.completion).of_eq
        (Semaphore.ext rfl rfl ?_ ?_ rfl))
      · simp only [semaphore, undecided, List.flatMap_append]
        exact Multiset.coe_eq_coe.mpr (List.perm_append_singleton _ _)
      · simp [semaphore, Submit.permits]
  | refuse index queued previous hsubmit hfull =>
      obtain ⟨undecided, permits, ⟨hundecided, hpermits⟩, hset⟩ := exists_others hsubmit
      obtain ⟨hundecided', hpermits'⟩ := hset ⟨queued, .refused⟩
      exact Or.inr ((Semaphore.Step.refuse queued.completion previous undecided hundecided
        hfull).of_eq (Semaphore.ext rfl rfl (hundecided'.trans (zero_add _))
          (congrArg (· + _) (hpermits'.trans hpermits.symm)) rfl))
  | permit index queued previous hsubmit hroom =>
      obtain ⟨undecided, permits, ⟨hundecided, hpermits⟩, hset⟩ := exists_others hsubmit
      obtain ⟨hundecided', hpermits'⟩ := hset ⟨queued, .permitted⟩
      refine Or.inr ((Semaphore.Step.permit queued.completion previous undecided hundecided
        hroom).of_eq (Semaphore.ext rfl rfl (hundecided'.trans (zero_add _)) ?_ rfl))
      simp [semaphore, hpermits, hpermits', Submit.permits, Submit.completion]
  | sender index queued answer next hsubmit hsender =>
      obtain ⟨undecided, permits, ⟨hundecided, hpermits⟩, hset⟩ := exists_others hsubmit
      obtain ⟨hundecided', hpermits'⟩ := hset ⟨queued, answer.elim .abandoning .sending⟩
      have hlifetimes := hsender.permits_eq
      obtain ⟨inner, lifetimes, rfl, _⟩ := hsender.eq
      refine Or.inl (Semaphore.ext rfl rfl ?_ ?_ rfl)
      · refine hundecided'.trans (Eq.trans ?_ hundecided.symm)
        cases answer <;> rfl
      · simp only [semaphore]
        rw [hpermits', hpermits, hlifetimes]
        cases answer <;> rfl
  | request answer next hsender =>
      have hlifetimes := hsender.permits_eq
      obtain ⟨inner, lifetimes, rfl, _⟩ := hsender.eq
      refine Or.inl (Semaphore.ext rfl rfl rfl ?_ rfl)
      simp only [semaphore]
      rw [hlifetimes]
  | send index worker queued lifetime hsubmit hlifetime halive =>
      obtain ⟨undecided, permits, ⟨hundecided, hpermits⟩, hset⟩ := exists_others hsubmit
      obtain ⟨hundecided', hpermits'⟩ := hset ⟨queued, .sent worker⟩
      obtain ⟨elsewhere, hheld, hgiven⟩ := exists_coe_flatMap Lifetime.permits hlifetime
      refine Or.inl (Semaphore.ext rfl rfl (hundecided'.trans hundecided.symm) ?_ rfl)
      simp only [semaphore]
      rw [hpermits', hpermits, hgiven, hheld, Lifetime.coe_permits_submit, Multiset.cons_add,
        Multiset.add_cons, ← Multiset.cons_add, ← Multiset.cons_add]
      rfl
  | disconnected index worker queued lifetime hsubmit hlifetime hexited =>
      obtain ⟨undecided, permits, ⟨hundecided, hpermits⟩, hset⟩ := exists_others hsubmit
      obtain ⟨hundecided', hpermits'⟩ := hset ⟨queued, .abandoning⟩
      exact Or.inl (Semaphore.ext rfl rfl (hundecided'.trans hundecided.symm)
        (congrArg (· + _) (hpermits'.trans hpermits.symm)) rfl)
  | abandon index queued hsubmit =>
      obtain ⟨undecided, permits, ⟨hundecided, hpermits⟩, hset⟩ := exists_others hsubmit
      obtain ⟨hundecided', hpermits'⟩ := hset ⟨queued, .failed⟩
      refine Or.inr ((Semaphore.Step.release queued.completion _ ?_).of_eq
        (Semaphore.ext rfl rfl (hundecided'.trans hundecided.symm) rfl rfl))
      simp [semaphore, hpermits, hpermits', Submit.permits, Submit.completion]
  | work worker lifetime serving hlifetime hstep hsubmitted hdropped =>
      obtain ⟨elsewhere, hheld, hgiven⟩ := exists_coe_flatMap Lifetime.permits hlifetime
      refine Or.inl (Semaphore.ext rfl rfl rfl ?_ rfl)
      simp only [semaphore]
      rw [hgiven, hheld, Lifetime.coe_permits_advance hstep hsubmitted]
  | release worker completion lifetime hlifetime hreleasing =>
      obtain ⟨elsewhere, hheld, hgiven⟩ := exists_coe_flatMap Lifetime.permits hlifetime
      refine Or.inr ((Semaphore.Step.release completion _ ?_).of_eq
        (Semaphore.ext rfl rfl rfl rfl rfl))
      simp only [semaphore]
      rw [hgiven, hheld, Lifetime.coe_permits_release hreleasing, Multiset.cons_add,
        Multiset.add_cons]

end BatchingChannel

/-! ## Whose permits they are -/

namespace Serving

/-- Every request of a lifetime is at one of these. -/
theorem count_owners_places (serving : Serving S Task) (completion : ℕ) :
    serving.owners.count completion =
      serving.permits.count completion +
        (serving.custody.hand.toList.map QueuedJob.completion).count completion +
        serving.handed.count completion + serving.rejected.count completion := by
  rw [count_owners]
  simp only [permits, handed, rejected, Custody.completions, List.count_append]
  omega

/-- What waits in channel or queue is neither handed over nor rejected. -/
theorem Conserved.apart {serving : Serving S Task} (hserving : serving.Conserved) {completion : ℕ}
    (hpermit : completion ∈ serving.permits) :
    completion ∈ serving.submitted ∧ completion ∉ serving.handed ∧
      completion ∉ serving.rejected := by
  have hcount := hserving.count_eq completion
  have honce := List.nodup_iff_count_le_one.mp hserving.nodup completion
  have hpos := List.count_pos_iff.mpr hpermit
  rw [count_owners_places] at hcount
  simp only [← List.count_pos_iff]
  omega

variable [BatchedInferenceServer S Row Task]

/-- What is handed over was so before, or has just been sent. -/
theorem Sound.handed_of_step {serving next : Serving S Task} (hserving : serving.Sound)
    (hstep : serving.Step next) {completion : ℕ} (hmem : completion ∈ next.handed) :
    completion ∈ serving.handed ∨ completion ∈ (admissions next.events).map Prod.snd := by
  have hsame : next.emission = serving.emission →
      completion ∈ serving.handed ∨ completion ∈ (admissions next.events).map Prod.snd := by
    intro hemission
    rw [handed, hemission] at hmem
    exact (List.mem_append.mp hmem).symm.imp_left (List.mem_append_right _)
  -- the emission thread moves what it is handed, and nothing else moves then
  have hmoved : next.owners.count completion = serving.owners.count completion →
      next.permits.count completion = serving.permits.count completion →
      next.custody = serving.custody → next.rejected = serving.rejected →
      completion ∈ serving.handed ∨ completion ∈ (admissions next.events).map Prod.snd := by
    intro howners hpermits hcustody hrejected
    rw [count_owners_places, count_owners_places, hcustody, hrejected] at howners
    rw [← List.count_pos_iff] at hmem
    exact Or.inl (List.count_pos_iff.mp (by omega))
  have hnext := (hserving.step hstep).conserved.count_eq completion
  have hcount := hserving.conserved.count_eq completion
  cases hstep with
  | emit event events hevents => exact hmoved (hnext.trans hcount.symm) rfl rfl rfl
  | abandon id hexited hevents hlive => exact hmoved (hnext.trans hcount.symm) rfl rfl rfl
  | _ => exact hsame rfl

end Serving

namespace Lifetime

variable [BatchedInferenceServer S Row Task]

/-- What a worker keeps: it is one, and its thread drops the permits of jobs it was
sent and has not handed over. -/
structure Kept (lifetime : Lifetime S Task) : Prop where
  reachable : ∃ server : S, Serving.Reachable server lifetime.serving
  submitted : ∀ completion ∈ lifetime.releasing, completion ∈ lifetime.serving.submitted
  unhanded : ∀ completion ∈ lifetime.releasing, completion ∉ lifetime.serving.handed

theorem Kept.sound {lifetime : Lifetime S Task} (hkept : lifetime.Kept) :
    lifetime.serving.Sound := by
  obtain ⟨server, hreachable⟩ := hkept.reachable
  exact Serving.sound_of_reachable hreachable

theorem kept_spawn (server : S) : (spawn server : Lifetime S Task).Kept :=
  ⟨⟨server, .refl⟩, by simp [spawn], by simp [spawn]⟩

theorem Kept.submit {lifetime : Lifetime S Task} (hkept : lifetime.Kept)
    {queued : QueuedJob Task} (halive : lifetime.serving.phase ≠ .exited)
    (hfresh : queued.completion ∉ lifetime.serving.submitted) :
    (lifetime.submit queued).Kept := by
  obtain ⟨server, hreachable⟩ := hkept.reachable
  exact ⟨⟨server, hreachable.tail (.submit queued halive hfresh)⟩, fun completion hmem =>
    List.mem_append_left _ (hkept.submitted completion hmem), hkept.unhanded⟩

theorem Kept.advance {lifetime : Lifetime S Task} (hkept : lifetime.Kept)
    {serving : Serving S Task} (hstep : lifetime.serving.Step serving)
    (hsubmitted : serving.submitted = lifetime.serving.submitted)
    (hdropped : ∀ completion ∈ (lifetime.advance serving).releasing,
      completion ∉ (admissions serving.events).map Prod.snd) :
    (lifetime.advance serving).Kept := by
  obtain ⟨server, hreachable⟩ := hkept.reachable
  have hsources : ∀ completion ∈ (lifetime.advance serving).releasing,
      completion ∈ lifetime.serving.submitted ∧ completion ∉ lifetime.serving.handed := by
    intro completion hmem
    rcases List.mem_append.mp hmem with hmem | hmem
    · exact ⟨hkept.submitted completion hmem, hkept.unhanded completion hmem⟩
    · have hpermit := (List.diff_sublist _ _).subset hmem
      obtain ⟨hsubmitted, hunhanded, _⟩ := hkept.sound.conserved.apart hpermit
      exact ⟨hsubmitted, hunhanded⟩
  refine ⟨⟨server, hreachable.tail hstep⟩, fun completion hmem => ?_, fun completion hmem hhanded =>
    ?_⟩
  · exact hsubmitted ▸ (hsources completion hmem).1
  · rcases hkept.sound.handed_of_step hstep hhanded with hbefore | hsent
    · exact (hsources completion hmem).2 hbefore
    · exact hdropped completion hmem hsent

theorem Kept.release {lifetime : Lifetime S Task} (hkept : lifetime.Kept) (completion : ℕ) :
    Kept { lifetime with releasing := lifetime.releasing.erase completion } :=
  ⟨hkept.reachable, fun other hmem => hkept.submitted other (List.mem_of_mem_erase hmem),
    fun other hmem => hkept.unhanded other (List.mem_of_mem_erase hmem)⟩

end Lifetime

/-- A replacement that looks the same changes no look. -/
theorem map_set_of_eq {α β : Type*} {look : α → β} {entries : List α} {index : ℕ} {entry given : α}
    (hentry : entries[index]? = some entry) (hgiven : look given = look entry) :
    (entries.set index given).map look = entries.map look := by
  have hlook : (entries.map look)[index]? = some (look given) := by
    rw [List.getElem?_map, hentry, hgiven]
    rfl
  obtain ⟨hindex, hsame⟩ := List.getElem?_eq_some_iff.mp hlook
  rw [List.map_set, ← hsame, List.set_getElem_self]

/-- What is not replaced stays. -/
theorem mem_set_of_ne {α : Type*} {entries : List α} {index : ℕ} {entry other given : α}
    (hentry : entries[index]? = some entry) (hother : other ∈ entries) (hne : other ≠ entry) :
    other ∈ entries.set index given := by
  obtain ⟨place, hplace⟩ := List.mem_iff_getElem?.mp hother
  have hapart : index ≠ place := by
    rintro rfl
    exact hne (Option.some.inj (hplace.symm.trans hentry))
  exact List.mem_of_getElem? ((List.getElem?_set_ne hapart).trans hplace)

namespace BatchingChannel

variable [BatchedInferenceServer S Row Task]

/-- What a channel keeps: no request twice, and a worker was sent what submits sent to it. -/
structure Kept (channel : BatchingChannel S Task) : Prop where
  nodup : (channel.submits.map Submit.completion).Nodup
  lifetimes : ∀ lifetime ∈ channel.lifetimes, lifetime.Kept
  sent : ∀ worker lifetime, channel.lifetimes[worker]? = some lifetime →
    ∀ completion ∈ lifetime.serving.submitted, ∃ submit ∈ channel.submits,
      submit.phase = .sent worker ∧ submit.completion = completion

theorem kept_withQueueDepth (maxQueueDepth : ℕ) :
    (withQueueDepth maxQueueDepth : BatchingChannel S Task).Kept := by
  constructor <;> simp [withQueueDepth]

namespace Kept

variable {channel : BatchingChannel S Task} (hkept : channel.Kept)

include hkept

/-- A submit goes on, to wherever it was not, and nobody else does. -/
theorem setPhase {index : ℕ} {queued : QueuedJob Task} {phase : SubmitPhase}
    (hsubmit : channel.submits[index]? = some ⟨queued, phase⟩)
    (hphase : ∀ worker, phase ≠ .sent worker) (given : SubmitPhase) (pending : ℤ)
    (changes : List (ℕ × ℤ)) :
    Kept { channel with
      pending, changes, submits := channel.submits.set index ⟨queued, given⟩ } := by
  refine ⟨?_, hkept.lifetimes, fun worker lifetime hlifetime completion hmem => ?_⟩
  · have hsame : (channel.submits.set index ⟨queued, given⟩).map Submit.completion =
        channel.submits.map Submit.completion := map_set_of_eq hsubmit rfl
    exact hsame ▸ hkept.nodup
  · obtain ⟨submit, hother, hsent, hcompletion⟩ :=
      hkept.sent worker lifetime hlifetime completion hmem
    refine ⟨submit, mem_set_of_ne hsubmit hother ?_, hsent, hcompletion⟩
    rintro rfl
    exact hphase worker hsent

/-- A worker goes on with what it was sent, or has just been. -/
theorem setLifetime {worker : ℕ} {lifetime given : Lifetime S Task}
    (hlifetime : channel.lifetimes[worker]? = some lifetime) (hgiven : given.Kept)
    (hsubmitted : ∀ completion ∈ given.serving.submitted,
      completion ∈ lifetime.serving.submitted ∨ ∃ submit ∈ channel.submits,
        submit.phase = .sent worker ∧ submit.completion = completion)
    (pending : ℤ) (changes : List (ℕ × ℤ)) :
    Kept { channel with
      pending, changes, lifetimes := channel.lifetimes.set worker given } := by
  refine ⟨hkept.nodup, fun other hother => ?_, fun other found hfound completion hmem => ?_⟩
  · rcases List.mem_or_eq_of_mem_set hother with hother | rfl
    · exact hkept.lifetimes other hother
    · exact hgiven
  · rw [List.getElem?_set] at hfound
    split at hfound
    · next hsame =>
        subst hsame
        split at hfound
        · obtain rfl := Option.some.inj hfound
          exact (hsubmitted completion hmem).elim
            (hkept.sent worker lifetime hlifetime completion) id
        · simp at hfound
    · exact hkept.sent other found hfound completion hmem

/-- Workers are spawned. -/
theorem sender {next : BatchingChannel S Task} {answer : Option ℕ}
    (hsender : channel.Sender answer next) : next.Kept := by
  obtain ⟨inner, lifetimes, rfl, hspawned⟩ := hsender.eq
  refine ⟨hkept.nodup, fun lifetime hlifetime => ?_,
    fun worker lifetime hlifetime completion hmem => ?_⟩
  · rcases List.mem_append.mp hlifetime with hlifetime | hlifetime
    · exact hkept.lifetimes lifetime hlifetime
    · obtain ⟨server, rfl⟩ := hspawned lifetime hlifetime
      exact Lifetime.kept_spawn server
  · by_cases hworker : worker < channel.lifetimes.length
    · rw [List.getElem?_append_left hworker] at hlifetime
      exact hkept.sent worker lifetime hlifetime completion hmem
    · rw [List.getElem?_append_right (not_lt.mp hworker)] at hlifetime
      obtain ⟨server, rfl⟩ := hspawned lifetime (List.mem_of_getElem? hlifetime)
      simp [Lifetime.spawn, Serving.spawn] at hmem

/-- A request is one submit. -/
theorem eq_of_completion {submit other : Submit Task} (hsubmit : submit ∈ channel.submits)
    (hother : other ∈ channel.submits) (hcompletion : submit.completion = other.completion) :
    submit = other :=
  List.inj_on_of_nodup_map hkept.nodup hsubmit hother hcompletion

end Kept

theorem Step.kept {channel next : BatchingChannel S Task} (hstep : Step channel next)
    (hkept : channel.Kept) : next.Kept := by
  cases hstep with
  | count queued hfresh =>
      refine ⟨?_, hkept.lifetimes, fun worker lifetime hlifetime completion hmem => ?_⟩
      · rw [List.map_append, List.map_singleton, ← List.concat_eq_append, List.nodup_concat]
        exact ⟨hfresh, hkept.nodup⟩
      · obtain ⟨submit, hsubmit, hsent⟩ := hkept.sent worker lifetime hlifetime completion hmem
        exact ⟨submit, List.mem_append_left _ hsubmit, hsent⟩
  | refuse index queued previous hsubmit hfull =>
      exact hkept.setPhase hsubmit (by simp) _ _ _
  | permit index queued previous hsubmit hroom =>
      exact hkept.setPhase hsubmit (by simp) _ _ _
  | sender index queued answer next hsubmit hsender =>
      have hnext := hkept.sender hsender
      obtain ⟨inner, lifetimes, rfl, _⟩ := hsender.eq
      exact hnext.setPhase hsubmit (by simp) _ _ _
  | request answer next hsender => exact hkept.sender hsender
  | send index worker queued lifetime hsubmit hlifetime halive =>
      have hfresh : queued.completion ∉ lifetime.serving.submitted := by
        intro hmem
        obtain ⟨other, hother, hsent, hcompletion⟩ :=
          hkept.sent worker lifetime hlifetime _ hmem
        obtain rfl := hkept.eq_of_completion hother (List.mem_of_getElem? hsubmit) hcompletion
        simp at hsent
      have hbefore := hkept.lifetimes lifetime (List.mem_of_getElem? hlifetime)
      have hgiven := hbefore.submit halive hfresh
      have hphase := hkept.setPhase hsubmit (by simp) (.sent worker) channel.pending channel.changes
      refine hphase.setLifetime hlifetime hgiven (fun completion hmem => ?_) _ _
      rcases List.mem_append.mp hmem with hmem | hmem
      · exact Or.inl hmem
      · obtain rfl := List.mem_singleton.mp hmem
        have hindex := (List.getElem?_eq_some_iff.mp hsubmit).1
        exact Or.inr ⟨⟨queued, .sent worker⟩, List.mem_set hindex _, rfl, rfl⟩
  | disconnected index worker queued lifetime hsubmit hlifetime hexited =>
      exact hkept.setPhase hsubmit (by simp) _ _ _
  | abandon index queued hsubmit => exact hkept.setPhase hsubmit (by simp) _ _ _
  | work worker lifetime serving hlifetime hstep hsubmitted hdropped =>
      have hbefore := hkept.lifetimes lifetime (List.mem_of_getElem? hlifetime)
      refine hkept.setLifetime hlifetime (hbefore.advance hstep hsubmitted hdropped)
        (fun completion hmem => Or.inl (hsubmitted ▸ hmem)) _ _
  | release worker completion lifetime hlifetime hreleasing =>
      have hbefore := hkept.lifetimes lifetime (List.mem_of_getElem? hlifetime)
      exact hkept.setLifetime hlifetime (hbefore.release completion)
        (fun completion hmem => Or.inl hmem) _ _

theorem kept_of_reachable {maxQueueDepth : ℕ} {channel : BatchingChannel S Task}
    (hreachable : Reachable maxQueueDepth channel) : channel.Kept := by
  induction hreachable with
  | refl => exact kept_withQueueDepth maxQueueDepth
  | tail _ hstep ih => exact hstep.kept ih

theorem semaphore_reachable {maxQueueDepth : ℕ} {channel : BatchingChannel S Task}
    (hreachable : Reachable maxQueueDepth channel) :
    ReflTransGen Semaphore.Step (.new maxQueueDepth) channel.semaphore := by
  induction hreachable with
  | refl => exact .refl
  | tail _ hstep ih =>
      rcases hstep.refines with hsame | hstep
      · exact hsame ▸ ih
      · exact ih.tail hstep

/-! ## Bounded, and given back -/

/-- The permits worker threads have yet to drop. -/
def releasing (channel : BatchingChannel S Task) : List ℕ :=
  channel.lifetimes.flatMap Lifetime.releasing

/-- A request is out of the queue: refused, given up, or sent to a worker that handed
it over, answered it or dropped it. -/
def Out (channel : BatchingChannel S Task) (submit : Submit Task) : Prop :=
  submit.phase = .refused ∨ submit.phase = .failed ∨
    ∃ worker lifetime, submit.phase = .sent worker ∧
      channel.lifetimes[worker]? = some lifetime ∧
      submit.completion ∈ lifetime.serving.handed ++ lifetime.serving.rejected

/-- A request is admitted or resolved: out, and no thread is still in the middle of
letting its job go. -/
def Settled (channel : BatchingChannel S Task) (submit : Submit Task) : Prop :=
  channel.Out submit ∧ submit.completion ∉ channel.releasing

end BatchingChannel

namespace Submit

theorem eq_of_mem_permits {submit : Submit Task} {completion : ℕ}
    (hmem : completion ∈ submit.permits) : submit.completion = completion := by
  unfold permits at hmem
  split at hmem <;> simp_all

theorem eq_of_mem_undecided {submit : Submit Task} {entry : ℕ × ℤ}
    (hmem : entry ∈ submit.undecided) : submit.completion = entry.1 := by
  unfold undecided at hmem
  split at hmem <;> simp_all

end Submit

namespace BatchingChannel

variable [BatchedInferenceServer S Row Task] {channel : BatchingChannel S Task}

/-- A permit in a worker came with a job that was sent to it. -/
theorem Kept.sent_of_permit (hkept : channel.Kept) {lifetime : Lifetime S Task}
    (hlifetime : lifetime ∈ channel.lifetimes) {completion : ℕ}
    (hmem : completion ∈ lifetime.permits) :
    ∃ submit ∈ channel.submits, ∃ worker, channel.lifetimes[worker]? = some lifetime ∧
      submit.phase = .sent worker ∧ submit.completion = completion := by
  have hlife := hkept.lifetimes lifetime hlifetime
  have hsubmitted : completion ∈ lifetime.serving.submitted := by
    rcases List.mem_append.mp hmem with hmem | hmem
    · exact (hlife.sound.conserved.apart hmem).1
    · exact hlife.submitted completion hmem
  obtain ⟨worker, hworker⟩ := List.mem_iff_getElem?.mp hlifetime
  obtain ⟨submit, hsubmit, hsent, hcompletion⟩ :=
    hkept.sent worker lifetime hworker completion hsubmitted
  exact ⟨submit, hsubmit, worker, hworker, hsent, hcompletion⟩

/-- A refused submit has given back what it added. -/
theorem Kept.share_of_refused (hkept : channel.Kept) (hsound : channel.semaphore.Sound)
    {submit : Submit Task} (hsubmit : submit ∈ channel.submits)
    (hrefused : submit.phase = .refused) :
    channel.semaphore.share submit.completion = 0 := by
  have hphase : ∀ other ∈ channel.submits, other.completion = submit.completion →
      other.phase = .refused := fun other hother hcompletion =>
    hkept.eq_of_completion hother hsubmit hcompletion ▸ hrefused
  refine hsound.share_eq_zero (fun hmem => ?_) (fun hmem => ?_)
  · rcases Multiset.mem_add.mp hmem with hmem | hmem
    · obtain ⟨other, hother, hpermit⟩ := List.mem_flatMap.mp hmem
      have hrefused' := hphase other hother (Submit.eq_of_mem_permits hpermit)
      simp [Submit.permits, hrefused'] at hpermit
    · obtain ⟨lifetime, hlifetime, hpermit⟩ := List.mem_flatMap.mp hmem
      obtain ⟨other, hother, worker, _, hsent, hcompletion⟩ :=
        hkept.sent_of_permit hlifetime hpermit
      simp [hphase other hother hcompletion] at hsent
  · obtain ⟨entry, hentry, hcompletion⟩ := Multiset.mem_map.mp hmem
    obtain ⟨other, hother, hundecided⟩ := List.mem_flatMap.mp hentry
    have hsame := (Submit.eq_of_mem_undecided hundecided).trans hcompletion
    have hrefused' := hphase other hother hsame
    simp [Submit.undecided, hrefused'] at hundecided

section Out

variable (hkept : channel.Kept) (hout : ∀ submit ∈ channel.submits, channel.Out submit)

include hkept hout

theorem done_of_out {lifetime : Lifetime S Task} (hlifetime : lifetime ∈ channel.lifetimes)
    {completion : ℕ} (hmem : completion ∈ lifetime.permits) :
    completion ∈ lifetime.serving.handed ++ lifetime.serving.rejected := by
  obtain ⟨submit, hsubmit, worker, hworker, hsent, rfl⟩ := hkept.sent_of_permit hlifetime hmem
  rcases hout submit hsubmit with hphase | hphase | ⟨other, found, hphase, hfound, hdone⟩
  · simp [hphase] at hsent
  · simp [hphase] at hsent
  · obtain rfl : other = worker := by simpa [hphase] using hsent
    obtain rfl := Option.some.inj (hfound.symm.trans hworker)
    exact hdone

/-- Nobody waits in a channel or a queue. -/
theorem permits_of_out {lifetime : Lifetime S Task} (hlifetime : lifetime ∈ channel.lifetimes) :
    lifetime.permits = lifetime.releasing := by
  have hnone : lifetime.serving.permits = [] := by
    refine List.eq_nil_iff_forall_not_mem.mpr fun completion hpermit => ?_
    obtain ⟨_, hunhanded, hunrejected⟩ :=
      (hkept.lifetimes lifetime hlifetime).sound.conserved.apart hpermit
    rcases List.mem_append.mp (done_of_out hkept hout hlifetime
      (List.mem_append_left _ hpermit)) with hdone | hdone
    · exact hunhanded hdone
    · exact hunrejected hdone
  rw [Lifetime.permits, hnone, List.nil_append]

/-- What is still alive is about to be dropped by a worker that rejected its job. -/
theorem rejected_of_out {lifetime : Lifetime S Task} (hlifetime : lifetime ∈ channel.lifetimes)
    {completion : ℕ} (hmem : completion ∈ lifetime.releasing) :
    completion ∈ lifetime.serving.rejected := by
  refine (List.mem_append.mp (done_of_out hkept hout hlifetime
    (List.mem_append_right _ hmem))).resolve_left ?_
  exact (hkept.lifetimes lifetime hlifetime).unhanded completion hmem

theorem shares_of_out :
    channel.undecided = [] ∧ channel.permits = channel.releasing := by
  have hnobody : ∀ submit ∈ channel.submits, submit.undecided = [] ∧ submit.permits = [] := by
    intro submit hsubmit
    rcases hout submit hsubmit with hphase | hphase | ⟨_, _, hphase, _⟩ <;>
      exact ⟨by simp [Submit.undecided, hphase], by simp [Submit.permits, hphase]⟩
  refine ⟨List.flatMap_eq_nil_iff.mpr fun submit hsubmit => (hnobody submit hsubmit).1, ?_⟩
  rw [permits, List.flatMap_eq_nil_iff.mpr fun submit hsubmit => (hnobody submit hsubmit).2,
    List.nil_append, releasing]
  exact List.flatMap_congr fun lifetime hlifetime => permits_of_out hkept hout hlifetime

end Out

/-- A permit that is being dropped is some submit's. -/
theorem Kept.releasing_eq_nil (hkept : channel.Kept)
    (hsettled : ∀ submit ∈ channel.submits, channel.Settled submit) : channel.releasing = [] := by
  refine List.eq_nil_iff_forall_not_mem.mpr fun completion hmem => ?_
  obtain ⟨lifetime, hlifetime, hreleasing⟩ := List.mem_flatMap.mp hmem
  obtain ⟨submit, hsubmit, _, _, _, rfl⟩ :=
    hkept.sent_of_permit hlifetime (List.mem_append_right _ hreleasing)
  exact (hsettled submit hsubmit).2 hmem

/-- Threads can drop what they have to drop, whatever anybody else does not do. -/
theorem exists_released (channel : BatchingChannel S Task) :
    ∃ next, ReflTransGen Step channel next ∧ next.submits = channel.submits ∧
      next.lifetimes.map Lifetime.serving = channel.lifetimes.map Lifetime.serving ∧
      next.pending = channel.pending - channel.releasing.length := by
  induction hcount : channel.releasing.length generalizing channel with
  | zero => exact ⟨channel, .refl, rfl, rfl, by simp⟩
  | succ count ih =>
      have hsome : channel.releasing ≠ [] := by
        rintro hnone
        simp [hnone] at hcount
      obtain ⟨completion, hmem⟩ := List.exists_mem_of_ne_nil _ hsome
      obtain ⟨lifetime, hlifetime, hreleasing⟩ := List.mem_flatMap.mp hmem
      obtain ⟨worker, hworker⟩ := List.mem_iff_getElem?.mp hlifetime
      have hfewer : ((channel.lifetimes.set worker
          { lifetime with releasing := lifetime.releasing.erase completion }).flatMap
            Lifetime.releasing).length = count := by
        obtain ⟨rest, hbefore, hafter⟩ := exists_coe_flatMap Lifetime.releasing hworker
        have hlength := congrArg Multiset.card hbefore
        have hlength' := congrArg Multiset.card
          (hafter { lifetime with releasing := lifetime.releasing.erase completion })
        have hpos := List.length_pos_of_mem hreleasing
        simp only [Multiset.coe_card, Multiset.card_add, List.length_erase_of_mem hreleasing]
          at hlength hlength'
        rw [releasing] at hcount
        omega
      have hstep := Step.release worker completion lifetime hworker hreleasing
      obtain ⟨next, hrun, hsubmits, hservings, hpending⟩ := ih
        { channel with
          pending := channel.pending - 1
          lifetimes := channel.lifetimes.set worker
            { lifetime with releasing := lifetime.releasing.erase completion }
          changes := channel.changes ++ [(completion, -1)] } hfewer
      refine ⟨next, .head hstep hrun, hsubmits, hservings.trans ?_, hpending.trans ?_⟩
      · exact map_set_of_eq hworker rfl
      · push_cast
        ring

/-- **Queue permits bound and never leak.** However callers, workers, deaths and
respawns interleave: there are never more permits than the queue is deep; the counter
is the permits and the submits that have not decided, so it is never negative; a
refused submit's changes of it cancel out; and once every request has been admitted or
resolved it is back to 0. Where all are out of the queue, it already counts no more
than the permits of jobs that workers rejected and are letting go of, and dropping
these, with nobody else moving, brings it to 0. -/
theorem permits_bounded_and_given_back {maxQueueDepth : ℕ} {channel : BatchingChannel S Task}
    (hreachable : Reachable maxQueueDepth channel) :
    channel.permits.length ≤ maxQueueDepth ∧
    (channel.pending = channel.permits.length + channel.undecided.length ∧ 0 ≤ channel.pending) ∧
    (channel.pending = (channel.changes.map Prod.snd).sum ∧
      ∀ submit ∈ channel.submits, submit.phase = .refused →
        channel.semaphore.share submit.completion = 0) ∧
    ((∀ submit ∈ channel.submits, channel.Settled submit) → channel.pending = 0) ∧
    ((∀ submit ∈ channel.submits, channel.Out submit) →
      channel.pending = channel.releasing.length ∧
      (∀ lifetime ∈ channel.lifetimes, ∀ completion ∈ lifetime.releasing,
        completion ∈ lifetime.serving.rejected) ∧
      ∃ next, ReflTransGen Step channel next ∧ next.submits = channel.submits ∧
        next.lifetimes.map Lifetime.serving = channel.lifetimes.map Lifetime.serving ∧
        next.pending = 0) := by
  have hkept := kept_of_reachable hreachable
  have hrun := semaphore_reachable hreachable
  have hsound := Semaphore.sound_of_reachable hrun
  have hcard : channel.semaphore.permits.card = channel.permits.length := by
    simp [semaphore, permits]
  have hbalance : channel.pending = channel.permits.length + channel.undecided.length :=
    hcard ▸ hsound.balance
  have hpending : (∀ submit ∈ channel.submits, channel.Out submit) →
      channel.pending = channel.releasing.length := by
    intro hout
    obtain ⟨hnobody, hheld⟩ := shares_of_out hkept hout
    rw [hbalance, hnobody, hheld]
    simp
  refine ⟨?_, ⟨hbalance, hsound.counter_nonneg⟩, ⟨hsound.total, fun submit hsubmit hrefused =>
    hkept.share_of_refused hsound hsubmit hrefused⟩, fun hsettled => ?_, fun hout => ?_⟩
  · exact hcard ▸ Semaphore.limit_of_reachable hrun ▸ hsound.permits_le
  · rw [hpending fun submit hsubmit => (hsettled submit hsubmit).1,
      hkept.releasing_eq_nil hsettled]
    rfl
  · obtain ⟨next, hdrops, hsubmits, hservings, hnext⟩ := exists_released channel
    refine ⟨hpending hout, fun lifetime hlifetime completion hmem =>
      rejected_of_out hkept hout hlifetime hmem, next, hdrops, hsubmits, hservings, ?_⟩
    rw [hnext, hpending hout, sub_self]

/-- One of two submits is refused, the other's job dies with its worker in the command
channel: the last permit is dropped by the thread that ended. -/
theorem permits_bounded_and_given_back_after_death :
    let config : RecallConfig :=
      { capacity := ⟨1, ⟨1, 4⟩⟩
        admission := .reserve
        chunkSize := 0
        tokenBudget := 0
        contextLen := 100
        stops := []
        generationCap := 10
        next := fun tokens => tokens.getLastD 0 }
    ∃ channel : BatchingChannel (RecallServer config) (List Token),
      Reachable 1 channel ∧ channel.submits.length = 2 ∧
        (∀ submit ∈ channel.submits, channel.Settled submit) ∧
        channel.permits.length ≤ 1 ∧ channel.pending = 0 := by
  intro config
  let first : QueuedJob (List Token) := ⟨⟨[7], 5, some 1, 5⟩, 5, 0⟩
  let second : QueuedJob (List Token) := ⟨⟨[8], 6, some 1, 6⟩, 6, 0⟩
  let server : RecallServer config := .fresh
  have hstart : Reachable 1 (withQueueDepth 1 : BatchingChannel (RecallServer config) _) := .refl
  have hfirst := hstart.tail (.count first (by decide))
  have hsecond := hfirst.tail (.count second (by decide))
  have hrefused := hsecond.tail (.refuse 1 second 1 rfl (by decide))
  have hpermitted := hrefused.tail (.permit 0 first 0 rfl (by decide))
  have hspawned := hpermitted.tail
    (.sender 0 first _ _ rfl (.spawned server fun _ _ hinner => by cases hinner))
  have hsent := hspawned.tail (.send 0 0 first (.spawn server) rfl rfl (by decide))
  have hpanicked := hsent.tail (.work 0 _ _ rfl (.panic rfl) rfl (by decide))
  have hexited := hpanicked.tail (.work 0 _ _ rfl (.exit rfl rfl) rfl (by decide))
  have hreleased := hexited.tail (.release 0 5 _ rfl (by decide))
  obtain ⟨hbounded, _, _, hzero, _⟩ := permits_bounded_and_given_back hreleased
  have hboth := fun hsettled => And.intro hsettled (hzero hsettled)
  obtain ⟨hsettled, hpending⟩ := hboth (List.forall_mem_cons.mpr
    ⟨⟨Or.inr (Or.inr ⟨0, _, rfl, rfl, List.mem_append_right _ (by decide)⟩), by decide⟩,
      List.forall_mem_singleton.mpr ⟨Or.inl rfl, by decide⟩⟩)
  exact ⟨_, hreleased, rfl, hsettled, hbounded, hpending⟩

end BatchingChannel

end BurnLm.Inference
