/-
# What the oldest sequence is granted

A growth pass evicts the youngest until the oldest unfinished sequence has the
blocks it needs. What it cannot evict is what is already finished: a sequence
cancelled in this very turn still holds its blocks and is only let go after the
round. So the oldest gets what it needs exactly if its need fits beside the blocks
of the finished; otherwise it is paused, alone.
-/

import BurnLm.Inference.Stages
import BurnLm.Inference.RecallServer

namespace BurnLm.Inference

open BurnLm.Math
open Relation (ReflTransGen)

universe u v w

/-- The blocks a sequence needs for its present length. -/
def ActiveSeq.need (kv : KvBudget) (contextLen : ℕ) (seq : JobSeq) : ℕ :=
  kv.blocksFor (min seq.tokens.length contextLen)

/-- The oldest unfinished sequence. -/
def senior (active : List JobSeq) : Option JobSeq := active.find? fun seq => !seq.finished

/-- The blocks of what is finished. -/
def finishedBlocks (active : List JobSeq) : ℕ := reservedBlocks (active.filter ActiveSeq.finished)

/-- A sequence that may run and holds the blocks it needs. -/
def ActiveSeq.Ready (kv : KvBudget) (contextLen : ℕ) (seq : JobSeq) : Prop :=
  seq.paused = false ∧ seq.need kv contextLen ≤ seq.kvReservation

/-- A sequence whose need fits beside the finished; without a budget nothing is
granted and it must have its blocks. -/
def Coverable (kv : KvBudget) (contextLen : ℕ) (active : List JobSeq) (seq : JobSeq) : Prop :=
  if kv.totalBlocks = usizeMax then seq.need kv contextLen ≤ seq.kvReservation
  else seq.need kv contextLen + finishedBlocks active ≤ kv.totalBlocks

instance (kv : KvBudget) (contextLen : ℕ) (active : List JobSeq) (seq : JobSeq) :
    Decidable (Coverable kv contextLen active seq) :=
  inferInstanceAs (Decidable (if kv.totalBlocks = usizeMax then
    seq.need kv contextLen ≤ seq.kvReservation
    else seq.need kv contextLen + finishedBlocks active ≤ kv.totalBlocks))

theorem senior_eq_some {active : List JobSeq} {seq : JobSeq} :
    senior active = some seq ↔ ∃ before after, active = before ++ seq :: after ∧
      (∀ other ∈ before, other.finished = true) ∧ seq.finished = false := by
  rw [senior, List.find?_eq_some_iff_append]
  constructor
  · rintro ⟨hseq, before, after, rfl, hbefore⟩
    exact ⟨before, after, rfl, by simpa using hbefore, by simpa using hseq⟩
  · rintro ⟨before, after, rfl, hbefore, hseq⟩
    exact ⟨by simpa using hseq, before, after, rfl, by simpa using hbefore⟩

theorem finishedBlocks_append (first second : List JobSeq) :
    finishedBlocks (first ++ second) = finishedBlocks first + finishedBlocks second := by
  rw [finishedBlocks, List.filter_append, reservedBlocks_append]
  rfl

theorem finishedBlocks_of_finished {seqs : List JobSeq}
    (hseqs : ∀ seq ∈ seqs, seq.finished = true) : finishedBlocks seqs = reservedBlocks seqs := by
  rw [finishedBlocks, List.filter_eq_self.mpr hseqs]

theorem finishedBlocks_cons_unfinished {seq : JobSeq} (hseq : seq.finished = false)
    (seqs : List JobSeq) : finishedBlocks (seq :: seqs) = finishedBlocks seqs := by
  rw [finishedBlocks, List.filter_cons_of_neg (by simp [hseq])]
  rfl

theorem finishedBlocks_le (seqs : List JobSeq) : finishedBlocks seqs ≤ reservedBlocks seqs :=
  ((List.filter_sublist).map _).sum_le_sum (by simp)

/-- An unfinished sequence holds its blocks beside those of the finished. -/
theorem reservation_add_finishedBlocks_le {active : List JobSeq} {seq : JobSeq}
    (hseq : seq ∈ active) (hunfinished : seq.finished = false) :
    seq.kvReservation + finishedBlocks active ≤ reservedBlocks active := by
  obtain ⟨before, after, rfl⟩ := List.append_of_mem hseq
  rw [finishedBlocks_append, finishedBlocks_cons_unfinished hunfinished, reservedBlocks_append,
    reservedBlocks_cons]
  have hbefore := finishedBlocks_le before
  have hafter := finishedBlocks_le after
  omega

namespace Worker

variable {S : Type u} {Row : Type v} {Task : Type w} [BatchedInferenceServer S Row Task]
  {kv : KvBudget} {contextLen : ℕ}

/-- A growth pass keeps the blocks of the finished. -/
theorem GrowStep.finishedBlocks {seniorIndex : Option ℕ} {growth next : Growth S} {seq : JobSeq}
    {rest : List JobSeq} (hstep : GrowStep kv contextLen seniorIndex growth seq rest next)
    (htodo : growth.todo = seq :: rest) :
    finishedBlocks (next.past ++ next.todo) = finishedBlocks (growth.past ++ growth.todo) := by
  rw [htodo]
  cases hstep with
  | finished hseq => simp [finishedBlocks_append]
  | evict victim kept hseq hsenior hpop =>
      obtain ⟨before, after, rfl, rfl, hvictim⟩ := popYoungest_some hpop
      simp [finishedBlocks_append, finishedBlocks_cons_unfinished, hseq, hvictim]
  | _ => simp [finishedBlocks_append, finishedBlocks_cons_unfinished, *]

/-- A growth pass as its oldest unfinished sequence sees it: the finished keep their
blocks, and once the pass is past it, it is ready if it could be. -/
structure Elder (kv : KvBudget) (contextLen : ℕ) (before : List JobSeq) (head : JobSeq)
    (spent : ℕ) (growth : Growth S) : Prop where
  accounted : growth.reserved = reservedBlocks (growth.past ++ growth.todo)
  spent_eq : finishedBlocks (growth.past ++ growth.todo) = spent
  place :
    (∃ left elder rest, before = growth.past ++ left ∧ growth.todo = left ++ elder :: rest ∧
      SameProgress head elder) ∨
    ∃ elder rest, growth.past = before ++ elder :: rest ∧ SameProgress head elder ∧
      (head.need kv contextLen + spent ≤ kv.totalBlocks → elder.Ready kv contextLen)

omit [BatchedInferenceServer S Row Task] in
theorem need_of_sameProgress {head elder : JobSeq} (hsame : SameProgress head elder) :
    elder.need kv contextLen = head.need kv contextLen := by
  rw [ActiveSeq.need, hsame.2.1, ActiveSeq.need]

/-- Everything younger goes before the oldest is paused, so only the finished can be
in its way. -/
theorem Elder.step {before : List JobSeq} {head seq : JobSeq} {spent : ℕ} {rest : List JobSeq}
    {growth next : Growth S} (hbefore : ∀ other ∈ before, other.finished = true)
    (hhead : head.finished = false) (helder : Elder kv contextLen before head spent growth)
    (htodo : growth.todo = seq :: rest)
    (hstep : GrowStep kv contextLen (some before.length) growth seq rest next) :
    Elder kv contextLen before head spent next := by
  refine ⟨hstep.accounted htodo helder.accounted,
    (hstep.finishedBlocks htodo).trans helder.spent_eq, ?_⟩
  rcases helder.place with ⟨left, elder, others, hleft, helders, hsame⟩ |
    ⟨elder, others, hpast, hsame, hready⟩
  · cases left with
    | cons first left =>
        -- not there yet: what comes before the oldest is finished
        obtain ⟨rfl, rfl⟩ := List.cons.inj (htodo.symm.trans helders)
        have hfinished : seq.finished = true :=
          hbefore seq (by rw [hleft]; simp)
        cases hstep with
        | finished => exact Or.inl ⟨left, elder, others, by simp [hleft], rfl, hsame⟩
        | _ => simp_all
    | nil =>
        obtain ⟨rfl, rfl⟩ := List.cons.inj (htodo.symm.trans helders)
        rw [List.append_nil] at hleft
        have hunfinished : seq.finished = false := hsame.2.2.2.2.2.trans hhead
        cases hstep with
        | finished hfinished => simp [hunfinished] at hfinished
        | covered _ hcovered =>
            exact Or.inr ⟨{ seq with paused := false }, [], by rw [hleft], hsame,
              fun _ => ⟨rfl, hcovered⟩⟩
        | grant delta _ _ hdelta =>
            exact Or.inr ⟨{ seq with kvReservation := seq.kvReservation + delta, paused := false },
              [], by rw [hleft], hsame, fun _ => ⟨rfl, hdelta.ge⟩⟩
        | evict victim kept => exact Or.inl ⟨[], seq, kept, by simp [hleft], rfl, hsame⟩
        | pause _ hshort hstuck =>
            refine Or.inr ⟨{ seq with paused := true }, [], by rw [hleft], hsame, fun hfits => ?_⟩
            -- alone with the finished, and still short: the need does not fit beside them
            have hrest := hstuck (by rw [hleft])
            have haccounted := helder.accounted
            have hspent := helder.spent_eq
            rw [htodo, ← hleft, reservedBlocks_append, reservedBlocks_cons] at haccounted
            rw [htodo, ← hleft, finishedBlocks_append, finishedBlocks_cons_unfinished hunfinished,
              finishedBlocks_of_finished hbefore, finishedBlocks_of_finished hrest] at hspent
            rw [← need_of_sameProgress hsame] at hfits
            unfold ActiveSeq.need at hfits
            omega
  · refine Or.inr ?_
    cases hstep with
    | evict => exact ⟨elder, others, hpast, hsame, hready⟩
    | _ => exact ⟨elder, others ++ [_], by rw [hpast, List.append_assoc]; rfl, hsame, hready⟩

/-- A growth pass starts by topping up the oldest. -/
theorem Elder.start {worker : Worker S Task} {head : JobSeq}
    (hhead : senior worker.active = some head) :
    ∃ before, (∀ other ∈ before, other.finished = true) ∧ head.finished = false ∧
      Elder kv contextLen before head (finishedBlocks worker.active)
        (growthStart kv contextLen worker) ∧
      (growthStart kv contextLen worker).todo.findIdx? (fun seq => !seq.finished) =
        some before.length := by
  unfold growthStart
  rcases topUpSenior_cases kv contextLen (reservedBlocks worker.active) worker.active with
    ⟨hall, _⟩ | ⟨before, oldest, after, hactive, hbefore, hunfinished, htop⟩
  · obtain ⟨before, after, hactive, _, hunfinished⟩ := senior_eq_some.mp hhead
    have hfinished := hall head (by rw [hactive]; simp)
    simp [hunfinished] at hfinished
  · have holdest := senior_eq_some.mpr ⟨before, after, hactive, hbefore, hunfinished⟩
    obtain rfl := Option.some.inj (holdest.symm.trans hhead)
    rw [htop]
    refine ⟨before, hbefore, hunfinished, ⟨?_, ?_, Or.inl ⟨before, _, after, rfl, rfl,
      ⟨rfl, rfl, rfl, rfl, rfl, rfl⟩⟩⟩, ?_⟩
    · rw [hactive]
      simp only [List.nil_append, reservedBlocks_append, reservedBlocks_cons]
      omega
    · rw [hactive]
      simp only [List.nil_append, finishedBlocks_append,
        finishedBlocks_cons_unfinished hunfinished]
      exact congrArg _ (finishedBlocks_cons_unfinished (by exact hunfinished) after)
    · rw [List.findIdx?_append, List.findIdx?_eq_none_iff.mpr (by simpa using hbefore)]
      simp [List.findIdx?_cons, hunfinished]

/-- What the pass leaves of the oldest unfinished sequence. -/
theorem grantKvGrowth_senior {worker : Worker S Task} {head : JobSeq}
    (hlimited : kv.totalBlocks ≠ usizeMax) (hhead : senior worker.active = some head) :
    ∃ elder, senior (grantKvGrowth kv contextLen worker).active = some elder ∧
      SameProgress head elder ∧
      finishedBlocks (grantKvGrowth kv contextLen worker).active =
        finishedBlocks worker.active ∧
      (head.need kv contextLen + finishedBlocks worker.active ≤ kv.totalBlocks →
        elder.Ready kv contextLen) := by
  obtain ⟨before, hbefore, hunfinished, hstart, hindex⟩ :=
    Elder.start hhead
  unfold grantKvGrowth
  rw [if_neg hlimited]
  dsimp only
  rw [hindex]
  set grown := loop (growStep kv contextLen (some before.length))
    (growthStart kv contextLen worker).todo.length (growthStart kv contextLen worker) with hloop
  have hgrown : Elder kv contextLen before head (finishedBlocks worker.active) grown := by
    refine loop_induction (fun growth hgrowth => ?_) _ hstart
    cases htodo : growth.todo with
    | nil =>
        rw [growStep, htodo]
        exact hgrowth
    | cons seq rest =>
        obtain ⟨next, hnext, hstep⟩ := growStep_cases htodo
        rw [hnext]
        exact hgrowth.step hbefore hunfinished htodo hstep
  rcases hgrown.place with ⟨left, elder, rest, _, htodo, _⟩ | ⟨elder, rest, hpast, hsame, hready⟩
  · rw [hloop, growLoop_todo] at htodo
    simp at htodo
  · refine ⟨elder, senior_eq_some.mpr ⟨before, rest ++ grown.todo, ?_, hbefore,
      hsame.2.2.2.2.2.trans hunfinished⟩, hsame, hgrown.spent_eq, hready⟩
    rw [hpast, List.append_assoc]
    rfl

/-- A growth pass over finished sequences leaves nobody unfinished. -/
theorem senior_of_regrows {measured : S} {worker next : Worker S Task}
    (hregrows : ReflTransGen (Regrowth measured) worker next)
    (hnobody : senior worker.active = none) : senior next.active = none := by
  induction hregrows with
  | refl => exact hnobody
  | tail _ hlast ih =>
      rw [senior, List.find?_eq_none] at ih ⊢
      cases hlast with
      | grow before seq after reservation paused hactive =>
          rw [hactive] at ih
          simpa [or_imp, forall_and] using ih
      | evict before victim after hactive hunfinished =>
          rw [hactive] at ih
          simpa [hunfinished] using ih victim

theorem Reserved.regrows {capacity : BatchCapacity} (hsteady : Steady S capacity contextLen)
    {measured : S} {worker next : Worker S Task} (hworker : worker.Reserved capacity contextLen)
    (hregrows : ReflTransGen (Regrowth measured) worker next) :
    next.Reserved capacity contextLen := by
  induction hregrows with
  | refl => exact hworker
  | tail _ hlast ih => exact ih.regrowth hsteady hlast

/-- What a growth pass finds in a run keeps to the pool. -/
theorem Reserved.beforeGrowth {capacity : BatchCapacity} (hsteady : Steady S capacity contextLen)
    {worker : Worker S Task} (hworker : worker.Reserved capacity contextLen)
    (env : TurnEnv Task) : (beforeGrowth env worker).Reserved capacity contextLen :=
  ((hworker.admits hsteady (admitJobs_admits env worker)).sweep env).congr rfl rfl

/-- **When the oldest sequence advances.** In every turn of every run, after the
growth pass the oldest unfinished sequence is unpaused and holds the blocks for its
length exactly if its need fits beside the blocks of the sequences that are finished
but not let go yet. -/
theorem senior_ready_iff {capacity : BatchCapacity} (hsteady : Steady S capacity contextLen)
    (server : S) (envs : List (TurnEnv Task)) (env : TurnEnv Task) (worker : Worker S Task)
    (hadmits : Admits envs server env worker) :
    let found := beforeGrowth env worker
    (∀ seq, senior (grantKvGrowth capacity.kv contextLen found).active = some seq →
        seq.Ready capacity.kv contextLen) ↔
      ∀ seq, senior found.active = some seq →
        Coverable capacity.kv contextLen found.active seq := by
  intro found
  have hreserved : found.Reserved capacity contextLen :=
    (hadmits.induction (Reserved.spawn server)
      fun _ _ _ hbefore hmove => hbefore.move hsteady hmove).beforeGrowth hsteady env
  obtain ⟨hregrows, _⟩ := grantKvGrowth_regrows found found.server contextLen
  rw [hsteady.capacity_eq] at hregrows
  cases hhead : senior found.active with
  | none => simp [senior_of_regrows hregrows hhead]
  | some head =>
      by_cases hlimited : capacity.kv.totalBlocks = usizeMax
      · have hsame : grantKvGrowth capacity.kv contextLen found = found := if_pos hlimited
        obtain ⟨before, after, hactive, _, _⟩ := senior_eq_some.mp hhead
        have hpaused := hreserved.unpaused hlimited head (by rw [hactive]; simp)
        simp [hsame, hhead, ActiveSeq.Ready, Coverable, hlimited, hpaused]
      · obtain ⟨elder, helder, hsame, hspent, hready⟩ :=
          @grantKvGrowth_senior S Row Task _ capacity.kv contextLen found head hlimited hhead
        have hgrown := (hreserved.regrows hsteady hregrows).sum_le
        obtain ⟨before, after, hactive, _, hunfinished⟩ := senior_eq_some.mp helder
        have hmem : elder ∈ (grantKvGrowth capacity.kv contextLen found).active := by
          rw [hactive]
          simp
        have hholds := reservation_add_finishedBlocks_le hmem hunfinished
        simp only [helder, Option.some.injEq, forall_eq', Coverable, if_neg hlimited]
        refine ⟨fun hadvances => ?_, hready⟩
        have hneed := hadvances.2
        rw [need_of_sameProgress hsame] at hneed
        omega

/-! ## A full pool and a cancellation -/

/-- A server with three slots and ten blocks of one token. -/
private def full : RecallConfig where
  capacity := ⟨3, ⟨1, 10⟩⟩
  admission := .elastic
  chunkSize := 0
  tokenBudget := 0
  contextLen := 100
  stops := []
  generationCap := 10
  next := fun tokens => tokens.getLastD 0

omit [BatchedInferenceServer S Row Task] in
private theorem full_steady : Steady (RecallServer full) full.capacity 100 :=
  ⟨fun _ => rfl, fun _ => rfl, fun _ => rfl⟩

/-- The first job leaves after its first token; the second then waits for blocks the
third holds. -/
private def crowding : List (TurnEnv (List Token)) :=
  [.taking [.submission 0 1 [7], .submission 1 6 [7], .submission 2 5 [7, 7, 7, 7, 7]],
    .taking [], .taking [], .taking []]

omit [BatchedInferenceServer S Row Task] in
private theorem crowding_admits (env : TurnEnv (List Token)) (hquiet : env.commands = []) :
    Admits (crowding ++ [env]) (.fresh : RecallServer full) env
      (run crowding (spawn .fresh)).2 := by
  have hflow : (run crowding (spawn (.fresh : RecallServer full))).1 = .continue := by
    decide +kernel
  have hactive : (run crowding (spawn (.fresh : RecallServer full))).2.active ≠ [] := by
    decide +kernel
  obtain ⟨taken, htaken⟩ : ∃ taken,
      run crowding (spawn (.fresh : RecallServer full)) = (.continue, taken) :=
    ⟨_, Prod.ext hflow rfl⟩
  rw [htaken] at hactive ⊢
  exact ⟨crowding, [], taken, rfl, htaken, fun h => hactive h.1, by rw [hquiet, handleCommands]⟩

/-- Without the cancellation the younger of the two is evicted, and the oldest gets
its block. -/
theorem senior_ready_when_full :
    let grown : Worker (RecallServer full) (List Token) :=
      grantKvGrowth full.capacity.kv 100 (beforeGrowth (.taking []) (run crowding (spawn .fresh)).2)
    senior grown.active ≠ none ∧
      ∀ seq, senior grown.active = some seq → seq.Ready full.capacity.kv 100 := by
  intro grown
  have hfits : (senior (beforeGrowth (.taking [])
      (run crowding (spawn (.fresh : RecallServer full))).2).active).all (fun seq =>
        Coverable full.capacity.kv 100 (beforeGrowth (.taking [])
          (run crowding (spawn (.fresh : RecallServer full))).2).active seq) = true := by
    decide +kernel
  refine ⟨by decide +kernel, (senior_ready_iff full_steady .fresh (crowding ++ [.taking []])
    (.taking []) _ (crowding_admits _ rfl)).mpr fun seq hseq => ?_⟩
  simpa using ((Option.all_eq_true _ _).mp hfits) seq hseq

/-- **The oldest is paused beside a cancelled sequence.** The third job is cancelled in
the turn in which the second needs a fifth block: it keeps its six, and nobody is
left to evict. -/
theorem senior_paused_when_cancelled :
    ∃ (config : RecallConfig) (envs : List (TurnEnv (List Token))) (env : TurnEnv (List Token))
      (worker : Worker (RecallServer config) (List Token)),
      config.admission = .elastic ∧ Steady (RecallServer config) config.capacity 100 ∧
        Admits envs .fresh env worker ∧
        ∃ seq, senior (grantKvGrowth config.capacity.kv 100 (beforeGrowth env worker)).active =
          some seq ∧ seq.paused = true ∧ ¬seq.Ready config.capacity.kv 100 := by
  have hoverfull : (senior (grantKvGrowth full.capacity.kv 100 (beforeGrowth (.firing 2)
      (run crowding (spawn (.fresh : RecallServer full))).2)).active).map ActiveSeq.paused =
        some true := by
    decide +kernel
  obtain ⟨seq, hsenior, hpaused⟩ := Option.map_eq_some_iff.mp hoverfull
  exact ⟨full, crowding ++ [.firing 2], .firing 2, _, rfl, full_steady, crowding_admits _ rfl,
    seq, hsenior, hpaused, fun hready => by simp [hready.1] at hpaused⟩

end Worker

end BurnLm.Inference
