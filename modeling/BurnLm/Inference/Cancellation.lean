/-
# Who is retired when its signal fires

The sweep before a round marks every active sequence whose signal has fired, and
what is marked is retired in the same turn: it is never evicted and the round
passes it over. Nothing looks at the signal of an evicted sequence, so a request
is retired in the turn after its signal fired exactly if it is active or comes back
with everything above it on the stack, and if the turn gets that far at all.
-/

import BurnLm.Inference.Reentry

namespace BurnLm.Inference

open BurnLm.Math
open Relation (ReflTransGen)

universe u v w

namespace Worker

variable {S : Type u} {Row : Type v} {Task : Type w}

/-! ## Signals -/

/-- What the worker remembers about the requests it holds. -/
def metas (worker : Worker S Task) : List JobMeta :=
  worker.active.map ActiveSeq.extra ++ worker.resume.map ResumedJob.extra

theorem liveIds_eq (worker : Worker S Task) : worker.liveIds = worker.metas.map JobMeta.id := by
  simp only [liveIds, metas, List.map_append, List.map_map]
  rfl

/-- Every request the worker holds watches the signal it was submitted with. -/
def Signed (worker : Worker S Task) : Prop :=
  ∀ extra ∈ worker.metas, ∃ queued, (extra.id, queued) ∈ assignments worker.log ∧
    queued.job.cancel = extra.cancel

theorem Signed.spawn (server : S) : (spawn server : Worker S Task).Signed := by
  simp [Signed, metas, Worker.spawn]

theorem Signed.mono {worker next : Worker S Task} {effects : List (Effect Task)}
    (hworker : worker.Signed) (hlog : next.log = worker.log ++ effects)
    (hmetas : ∀ extra ∈ next.metas, ∃ old ∈ worker.metas, old.id = extra.id ∧
      old.cancel = extra.cancel) : next.Signed := by
  intro extra hextra
  obtain ⟨old, hold, hid, hcancel⟩ := hmetas extra hextra
  obtain ⟨queued, hqueued, hsignal⟩ := hworker old hold
  refine ⟨queued, ?_, hsignal.trans hcancel⟩
  rw [hlog, assignments_append, ← hid]
  exact List.mem_append_left _ hqueued

theorem Signed.subset {worker next : Worker S Task} {effects : List (Effect Task)}
    (hworker : worker.Signed) (hlog : next.log = worker.log ++ effects)
    (hmetas : next.metas ⊆ worker.metas) : next.Signed :=
  hworker.mono hlog fun extra hextra => ⟨extra, hmetas hextra, rfl, rfl⟩

variable [BatchedInferenceServer S Row Task]

theorem Signed.admission {env : TurnEnv Task} {worker next : Worker S Task}
    (hworker : worker.Signed) (hadmission : Admission env worker next) : next.Signed := by
  cases hadmission with
  | borrow => exact hworker.subset (List.append_nil _).symm (List.Subset.refl _)
  | resume candidate rest slot guaranteed hresume =>
      refine hworker.subset (List.append_nil _).symm ?_
      simp [metas, hresume, ResumedJob.seq]
  | reject front rest error hqueue => exact hworker.subset rfl (List.Subset.refl _)
  | start front rest tokens maxGen guaranteed slot hqueue =>
      intro extra hextra
      have hlog : assignments (start { worker with server := (decoder worker.server).2 } env.now
          front rest tokens maxGen guaranteed slot).log =
            assignments worker.log ++ [(worker.nextId, front)] := assignments_append _ _
      rw [hlog]
      simp only [metas, start, emit, List.map_append, List.map_cons, List.map_nil,
        List.append_assoc, List.mem_append, List.mem_singleton] at hextra
      rcases hextra with hextra | rfl | hextra
      · obtain ⟨queued, hqueued, hsignal⟩ := hworker extra (List.mem_append_left _ hextra)
        exact ⟨queued, List.mem_append_left _ hqueued, hsignal⟩
      · exact ⟨front, List.mem_append_right _ (List.mem_singleton.mpr rfl), rfl⟩
      · obtain ⟨queued, hqueued, hsignal⟩ := hworker extra (List.mem_append_right _ hextra)
        exact ⟨queued, List.mem_append_left _ hqueued, hsignal⟩

theorem Signed.move {env : TurnEnv Task} {worker next : Worker S Task}
    (hworker : worker.Signed) (hmove : Move env worker next) : next.Signed := by
  cases hmove with
  | command given hgiven =>
      rcases handleCommand_cases (worker.emit [.received given]) given with
        ⟨queued, _, hcase⟩ | ⟨_, hcase⟩ | ⟨_, server, effects, hcase, _⟩ <;> rw [hcase]
      · exact hworker.subset rfl (List.Subset.refl _)
      · exact hworker.subset rfl (List.Subset.refl _)
      · exact hworker.subset (List.append_assoc _ _ _) (List.Subset.refl _)
  | admission hadmission => exact hworker.admission hadmission
  | sweep =>
      refine hworker.mono (List.append_nil _).symm fun extra hextra => ?_
      simp only [metas, List.map_map, List.mem_append, List.mem_map] at hextra
      rcases hextra with ⟨seq, hseq, rfl⟩ | ⟨job, hjob, rfl⟩
      · refine ⟨seq.extra, List.mem_append_left _ (List.mem_map_of_mem hseq), ?_⟩
        simp only [Function.comp_apply, cancelSweep]
        split <;> exact ⟨rfl, rfl⟩
      · exact ⟨job.extra, List.mem_append_right _ (List.mem_map_of_mem hjob), rfl, rfl⟩
  | regrowth measured hregrowth =>
      cases hregrowth with
      | grow before seq after reservation paused hactive =>
          refine hworker.subset (List.append_nil _).symm ?_
          simp [metas, hactive]
      | evict before victim after hactive =>
          refine hworker.subset (List.append_nil _).symm ?_
          simp only [metas, hactive, List.map_append, List.map_cons, List.append_assoc,
            List.cons_append]
          exact (List.Perm.append_left _ List.perm_middle).subset
  | round configured hborrowed hcovered =>
      obtain ⟨entries, batch, hsteps, hactive, hlog⟩ :=
        runRound_log configured { worker with server := (decoder worker.server).2 }
      refine hworker.mono hlog fun extra hextra => ?_
      rcases List.mem_append.mp hextra with hextra | hextra
      · rw [hactive, List.map_map] at hextra
        obtain ⟨entry, hentry, rfl⟩ := List.mem_map.mp hextra
        obtain ⟨seq, hseq, hstep⟩ := exists_of_forall₂_right hsteps hentry
        obtain ⟨hitStop, hnote⟩ := noteOutcome_eq entry.seq entry.outcome
        refine ⟨seq.extra, List.mem_append_left _ (List.mem_map_of_mem hseq), ?_⟩
        rw [Function.comp_apply, hnote, hstep.frame.2.2.2.2]
        exact ⟨rfl, rfl⟩
      · exact ⟨extra, List.mem_append_right _ hextra, rfl, rfl⟩
  | retire =>
      exact hworker.subset rfl ((List.filter_sublist.map _).append_right _).subset
  | fail error hrefused => exact hworker.subset rfl (List.subset_append_right _ _)

/-! ## What a turn does with a marked request -/

/-- A request is active, finished, and marked as cancelled. -/
def Marked (worker : Worker S Task) (id : ℕ) : Prop :=
  ∃ seq ∈ worker.active, seq.extra.id = id ∧ seq.finished = true ∧ seq.extra.cancelled = true

omit [BatchedInferenceServer S Row Task] in
/-- The sweep marks whoever is unfinished and whose signal has fired. -/
theorem marked_of_sweep {env : TurnEnv Task} {worker next : Worker S Task} {seq : JobSeq}
    (hseq : seq ∈ worker.active) (hunfinished : seq.finished = false)
    (hfired : env.cancelledAtSweep seq.extra.cancel = true)
    (hactive : next.active = worker.active.map (cancelSweep env)) :
    next.Marked seq.extra.id := by
  refine ⟨_, hactive ▸ List.mem_map_of_mem hseq, ?_⟩
  simp [cancelSweep, hunfinished, hfired]

/-- Growth leaves the marked where they are. -/
theorem Marked.regrowth {measured : S} {worker next : Worker S Task} {id : ℕ}
    (hworker : worker.Marked id) (hregrowth : Regrowth measured worker next) :
    next.Marked id := by
  obtain ⟨seq, hseq, hid, hfinished, hcancelled⟩ := hworker
  cases hregrowth with
  | grow before other after reservation paused hactive =>
      rw [hactive] at hseq
      rcases List.mem_append.mp hseq with hseq | hseq
      · exact ⟨seq, List.mem_append_left _ hseq, hid, hfinished, hcancelled⟩
      · rcases List.mem_cons.mp hseq with rfl | hseq
        · exact ⟨_, List.mem_append_right _ List.mem_cons_self, hid, hfinished, hcancelled⟩
        · exact ⟨seq, List.mem_append_right _ (List.mem_cons_of_mem _ hseq), hid, hfinished,
            hcancelled⟩
  | evict before victim after hactive hunfinished =>
      rw [hactive] at hseq
      rcases List.mem_append.mp hseq with hseq | hseq
      · exact ⟨seq, List.mem_append_left _ hseq, hid, hfinished, hcancelled⟩
      · rcases List.mem_cons.mp hseq with rfl | hseq
        · simp [hfinished] at hunfinished
        · exact ⟨seq, List.mem_append_right _ hseq, hid, hfinished, hcancelled⟩

theorem Marked.regrows {measured : S} {worker next : Worker S Task} {id : ℕ}
    (hworker : worker.Marked id) (hregrows : ReflTransGen (Regrowth measured) worker next) :
    next.Marked id := by
  induction hregrows with
  | refl => exact hworker
  | tail _ hlast ih => exact ih.regrowth hlast

/-- The round passes the marked over. -/
theorem Marked.round {worker : Worker S Task} {id : ℕ} (configured : S)
    (hworker : worker.Marked id) : (runRound configured worker).Marked id := by
  obtain ⟨seq, hseq, hid, hfinished, hcancelled⟩ := hworker
  obtain ⟨next, hnext, stepped, outcome, hstep, rfl⟩ :=
    exists_of_forall₂_right (runRound_active configured worker).flip hseq
  cases hstep with
  | idle _ => exact ⟨seq, hnext, hid, hfinished, hcancelled⟩
  | deferred hready => simp [hready.unfinished] at hfinished
  | chunk hready => simp [hready.unfinished] at hfinished
  | _ hunfinished => simp [hunfinished] at hfinished

/-- A request is retired as cancelled. -/
def RetiredAsCancelled (log : List (Effect Task)) (id : ℕ) : Prop :=
  ∃ stats : Stats, (id, .ok stats) ∈ retirements (sentEvents log) ∧
    .named finishReasonStatName "Cancelled" ∈ stats.entries

/-- The marked are retired as cancelled. -/
theorem Marked.retire {worker : Worker S Task} {id : ℕ} (hworker : worker.Marked id) :
    RetiredAsCancelled worker.retireFinished.log id := by
  obtain ⟨seq, hseq, rfl, hfinished, hcancelled⟩ := hworker
  refine ⟨retireStats seq, ?_, by simp [retireStats, finishReason, hcancelled]⟩
  have hevent : EmissionEvent.retire seq.extra.id (.ok (retireStats seq)) ∈
      sentEvents worker.retireFinished.log := by
    refine List.mem_filterMap.mpr ⟨.sent (.retire seq.extra.id (.ok (retireStats seq))), ?_, rfl⟩
    refine List.mem_append_right _ (List.mem_map.mpr ⟨seq, ?_, rfl⟩)
    exact List.mem_filter.mpr ⟨hseq, hfinished⟩
  exact List.mem_filterMap.mpr ⟨_, hevent, rfl⟩

/-- Whoever is active when the step begins and whose signal has fired is retired by
it as cancelled, if the decoder can be borrowed. -/
theorem retired_of_step {env : TurnEnv Task} {worker : Worker S Task} {seq : JobSeq}
    (hdecoder : ∀ server : S, (decoder server).1 = .ok ()) (hseq : seq ∈ worker.active)
    (hunfinished : seq.finished = false)
    (hfired : env.cancelledAtSweep seq.extra.cancel = true) :
    RetiredAsCancelled (step env worker).log seq.extra.id := by
  have hborrow : ∀ server : S, decoder server = (.ok (), (decoder server).2) :=
    fun server => Prod.ext (hdecoder server) rfl
  have hprepared : (prepareRound env worker).Marked seq.extra.id := by
    rw [prepareRound, hborrow]
    have hregrows := (grantKvGrowth_regrows
      { worker with
        active := worker.active.map (cancelSweep env)
        server := (decoder worker.server).2 }
      worker.server (maxContextLen (decoder worker.server).2)).1
    exact Marked.regrows (marked_of_sweep hseq hunfinished hfired rfl) hregrows
  rw [step, if_neg (List.ne_nil_of_mem hseq)]
  dsimp only
  rw [hborrow]
  have hready : Marked
      { prepareRound env worker with
        server := (decoder (prepareRound env worker).server).2 } seq.extra.id := hprepared
  exact (hready.round worker.server).retire

/-! ## Who is active when the step begins -/

/-- Resuming moves requests and loses none. -/
theorem resumed_metas (worker : Worker S Task) : (resumed worker).metas.Perm worker.metas := by
  refine @loop_induction _ resumeStep (fun state => state.metas.Perm worker.metas)
    (fun state hstate => ?_) _ worker (.refl _)
  generalize hnext : resumeStep state = next
  have hcase := resumeStep_cases state
  rw [hnext] at hcase
  cases hcase with
  | idle => exact hstate
  | stuck => exact hstate
  | resumed hresume =>
      refine List.Perm.trans ?_ hstate
      simp [metas, hresume, ResumedJob.seq]

/-- An idle worker resumes nobody. -/
theorem resumed_of_idle {worker : Worker S Task}
    (hcannot : worker.canAdmit = false) : resumed worker = worker := by
  cases hresume : worker.resume with
  | nil => rw [resumed, hresume]; rfl
  | cons candidate rest =>
      have hslots : ¬worker.active.length < (batchCapacity worker.server).maxSlots := by
        intro hslots
        simp [canAdmit, hresume, hslots] at hcannot
      have hstep : resumeStep worker = (false, worker) := by
        simp only [resumeStep, hresume, if_neg hslots]
      rw [resumed, hresume, List.length_cons, loop, hstep]

/-- Whom the resume loop leaves out is still out at the end of the turn. -/
theorem step_resume (env : TurnEnv Task) (worker : Worker S Task) :
    (resumed worker).resume ⊆ (step env (admitJobs env worker)).resume := by
  have hadmitted : (admitJobs env worker).resume = (resumed worker).resume :=
    (queueLoop_resume env _ (resumed worker)).1
  have hregrows : ∀ {measured : S} {before after : Worker S Task},
      ReflTransGen (Regrowth measured) before after → before.resume ⊆ after.resume := by
    intro measured before after hregrows
    induction hregrows with
    | refl => exact List.Subset.refl _
    | tail _ hlast ih =>
        refine List.Subset.trans ih ?_
        cases hlast with
        | grow => exact List.Subset.refl _
        | evict => exact List.subset_cons_self _ _
  have hprepared : (resumed worker).resume ⊆ (prepareRound env (admitJobs env worker)).resume := by
    rw [← hadmitted, prepareRound_eq]
    split
    · have hgrown := hregrows (grantKvGrowth_regrows (beforeGrowth env worker)
        (admitJobs env worker).server (maxContextLen (beforeGrowth env worker).server)).1
      exact hgrown
    · exact List.Subset.refl _
  unfold step
  split
  · exact hadmitted ▸ List.Subset.refl _
  · dsimp only
    split
    · exact hprepared
    · exact hprepared

theorem retiredIds_of_cancelled {log : List (Effect Task)} {id : ℕ}
    (hretired : RetiredAsCancelled log id) : id ∈ retiredIds (sentEvents log) := by
  obtain ⟨stats, hstats, _⟩ := hretired
  exact List.mem_map_of_mem hstats

/-- What was assigned and not answered is held, and watches its own signal. -/
theorem exists_extra {worker : Worker S Task} (haccounted : worker.Accounted)
    (hsigned : worker.Signed) {id : ℕ} {queued : QueuedJob Task}
    (hadmitted : (id, queued) ∈ assignments worker.log)
    (hunanswered : id ∉ retiredIds (sentEvents worker.log)) :
    ∃ extra ∈ worker.metas, extra.id = id ∧ extra.cancel = queued.job.cancel := by
  have hlive : id ∈ worker.liveIds :=
    (haccounted.resolved id (List.mem_map_of_mem hadmitted)).resolve_right hunanswered
  rw [liveIds_eq] at hlive
  obtain ⟨extra, hextra, rfl⟩ := List.mem_map.mp hlive
  obtain ⟨other, hother, hsignal⟩ := hsigned extra hextra
  have hsame := List.inj_on_of_nodup_map haccounted.assigned_nodup hother hadmitted rfl
  obtain rfl := (Prod.mk.inj hsame).2
  exact ⟨extra, hextra, rfl, hsignal.symm⟩

/-- Between turns, whatever is held is pending, whoever else holds it. -/
theorem pending_of_between {worker next : Worker S Task} (hbetween : worker.Between)
    (hactive : next.active = worker.active) (hresume : next.resume = worker.resume)
    {extra : JobMeta} (hextra : extra ∈ worker.metas) : next.Pending extra.id := by
  rw [Pending, hactive, hresume]
  rcases List.mem_append.mp hextra with hmem | hmem
  · obtain ⟨seq, hseq, rfl⟩ := List.mem_map.mp hmem
    exact Or.inl ⟨seq, hseq, hbetween seq hseq, rfl⟩
  · obtain ⟨job, hjob, rfl⟩ := List.mem_map.mp hmem
    exact Or.inr ⟨job, hjob, rfl⟩

/-- Who is in reach is told by the resume loop after the commands, which change
neither the active set nor the stack. -/
theorem inReach_commanded {worker : Worker S Task} (haccounted : worker.Accounted)
    {extra : JobMeta} (hextra : extra ∈ worker.metas) (commands : List (Command Task)) :
    InReach ⟨(worker.handleCommands commands).2.server, worker.active⟩ worker.resume extra.id ↔
      ∀ job ∈ (resumed (worker.handleCommands commands).2).resume, job.extra.id ≠ extra.id := by
  have hactive := handleCommands_active commands worker
  have hresume := handleCommands_resume commands worker
  have hids : (worker.handleCommands commands).2.liveIds = worker.liveIds := by
    rw [liveIds, liveIds, hactive, hresume]
  have hlive : extra.id ∈ (worker.handleCommands commands).2.liveIds := by
    rw [hids, liveIds_eq]
    exact List.mem_map_of_mem hextra
  rw [← inReach_iff (hids ▸ haccounted.nodup) hlive, hresume, floor, hactive]

/-- Who is active after the resume loop stays active through the queue loop, and
unfinished. -/
theorem mem_active_admitJobs (env : TurnEnv Task) {worker : Worker S Task}
    (hbetween : worker.Between) {seq : JobSeq} (hseq : seq ∈ (resumed worker).active) :
    seq ∈ (admitJobs env worker).active ∧ seq.finished = false := by
  obtain ⟨_, joined, hjoined, _⟩ : Joined (resumed worker) (admitJobs env worker) :=
    loop_induction (fun state hstate => hstate.trans
      (joined_of_admits (queueStep_admits env state))) _ (Joined.refl (resumed worker))
  obtain ⟨_, fresh, hfresh, hunfinished⟩ := joined_of_admits (admitJobs_admits env worker)
  have hmem : seq ∈ (admitJobs env worker).active := hjoined ▸ List.mem_append_left _ hseq
  refine ⟨hmem, ?_⟩
  rw [hfresh] at hmem
  exact (List.mem_append.mp hmem).elim (hbetween seq) (hunfinished seq)

/-- A turn that is told to shut down handles its commands and no more. -/
theorem turn_of_shutdown {env : TurnEnv Task} {worker : Worker S Task}
    (hbusy : ¬(worker.active = [] ∧ worker.canAdmit = false ∧ env.commands = []))
    (hshutdown : .shutdown ∈ env.commands) :
    (worker.turn env).2 = (worker.handleCommands env.commands).2 := by
  have hflow : (worker.handleCommands env.commands).1 = .shutdown := by
    cases hflow : (worker.handleCommands env.commands).1 with
    | shutdown => rfl
    | «continue» => exact absurd hshutdown ((handleCommands_continue _ _).mp hflow)
  have hcommands : worker.handleCommands env.commands =
      (.shutdown, (worker.handleCommands env.commands).2) := Prod.ext hflow rfl
  rw [turn, if_neg hbusy, hcommands]

/-- **Who is retired in the turn after its signal fired.** In any run on a decoder
that can always be borrowed, take a request that was admitted, has not been
answered, and whose signal has fired: the next turn retires it as cancelled exactly
if it takes in no shutdown and, on the server its commands leave, the request is in
reach: it is active, or each evicted sequence down to it finds a slot and its blocks. -/
theorem cancelled_promptly_iff (hdecoder : ∀ server : S, (decoder server).1 = .ok ()) (server : S)
    (envs : List (TurnEnv Task)) (worker : Worker S Task)
    (hreached : run envs (spawn server) = (.continue, worker)) (env : TurnEnv Task) (id : ℕ)
    (queued : QueuedJob Task) (hadmitted : (id, queued) ∈ assignments worker.log)
    (hunanswered : id ∉ retiredIds (sentEvents worker.log))
    (hfired : env.cancelledAtAdmission queued.job.cancel = true ∧
      env.cancelledAtSweep queued.job.cancel = true) :
    RetiredAsCancelled (worker.turn env).2.log id ↔ .shutdown ∉ env.commands ∧
      InReach ⟨(worker.handleCommands env.commands).2.server, worker.active⟩ worker.resume id := by
  obtain ⟨haccounted, hsigned, hbetween⟩ : worker.Accounted ∧ worker.Signed ∧ worker.Between := by
    have hworker := @run_induction _ _ _ _ (fun state => state.Accounted ∧ state.Signed) envs
      (fun _ _ _ _ hbefore hmove => ⟨hbefore.1.move hmove, hbefore.2.move hmove⟩) (spawn server)
      ⟨.spawn server, .spawn server⟩
    have hrun := (show Between (spawn server : Worker S Task) by simp [Between, spawn]).run envs
    rw [hreached] at hworker hrun
    exact ⟨hworker.1, hworker.2, hrun⟩
  obtain ⟨extra, hextra, rfl, hsignal⟩ := exists_extra haccounted hsigned hadmitted hunanswered
  rw [inReach_commanded haccounted hextra]
  set commanded := (worker.handleCommands env.commands).2 with hcommanded
  have hactive : commanded.active = worker.active := handleCommands_active env.commands worker
  have hresume : commanded.resume = worker.resume := handleCommands_resume env.commands worker
  -- as long as it is held unfinished it has not been retired
  have hkept : (worker.turn env).2.Pending extra.id →
      ¬RetiredAsCancelled (worker.turn env).2.log extra.id := fun hpending hretired =>
    (haccounted.turn env).unretired _ hpending (retiredIds_of_cancelled hretired)
  by_cases hidle : worker.active = [] ∧ worker.canAdmit = false ∧ env.commands = []
  · have hturn : (worker.turn env).2 = worker := by rw [turn, if_pos hidle]
    have hnothing : commanded = worker := by rw [hcommanded, hidle.2.2]; rfl
    have hpending : worker.Pending extra.id := pending_of_between hbetween rfl rfl hextra
    refine iff_of_false (hkept (by rw [hturn]; exact hpending)) fun hout => ?_
    rw [hnothing, resumed_of_idle hidle.2.1] at hout
    rcases hpending with ⟨seq, hseq, _⟩ | ⟨job, hjob, hid⟩
    · simp [hidle.1] at hseq
    · exact hout.2 job hjob hid
  by_cases hshutdown : .shutdown ∈ env.commands
  · refine iff_of_false (hkept ?_) (by simp [hshutdown])
    rw [turn_of_shutdown hidle hshutdown]
    exact pending_of_between hbetween hactive hresume hextra
  have hcommands : worker.handleCommands env.commands = (.continue, commanded) :=
    Prod.ext ((handleCommands_continue _ _).mpr hshutdown) rfl
  have hturn := turn_of_continue hidle hcommands
  constructor
  · refine fun hretired => ⟨hshutdown, fun job hjob hid => ?_⟩
    refine hkept (Or.inr ⟨job, ?_, hid⟩) hretired
    rw [hturn]
    exact step_resume env commanded hjob
  · rintro ⟨-, hout⟩
    have hmetas : extra ∈ (resumed commanded).metas := by
      rw [(resumed_metas commanded).mem_iff, metas, hactive, hresume]
      exact hextra
    rcases List.mem_append.mp hmetas with hmem | hmem
    · obtain ⟨seq, hseq, rfl⟩ := List.mem_map.mp hmem
      have hbefore : commanded.Between := fun other hother => hbetween other (hactive ▸ hother)
      obtain ⟨hstays, hunfinished⟩ := mem_active_admitJobs env hbefore hseq
      rw [hturn]
      exact retired_of_step hdecoder hstays hunfinished (hsignal ▸ hfired.2)
    · obtain ⟨job, hjob, rfl⟩ := List.mem_map.mp hmem
      exact absurd rfl (hout job hjob)

/-- A server with three slots and eight blocks of one token. -/
private def cramped : RecallConfig where
  capacity := ⟨3, ⟨1, 8⟩⟩
  admission := .elastic
  chunkSize := 0
  tokenBudget := 0
  contextLen := 100
  stops := []
  generationCap := 10
  next := fun tokens => tokens.getLastD 0

private def submitted (maxTokens : ℕ) : QueuedJob (List Token) :=
  ⟨⟨[7], 0, some maxTokens, 0⟩, 0, 0⟩

/-- A decoding request is retired. -/
theorem cancelled_while_decoding :
    let worker : Worker (RecallServer cramped) (List Token) :=
      (run [.taking [.submit (submitted 5)]] (spawn .fresh)).2
    RetiredAsCancelled (worker.turn (.firing 0)).2.log 0 := by
  intro worker
  exact (cancelled_promptly_iff (fun _ => rfl) .fresh [.taking [.submit (submitted 5)]] worker
    (Prod.ext (by decide +kernel) rfl) (.firing 0) 0 (submitted 5) (by decide +kernel)
    (by decide +kernel) ⟨by decide, by decide⟩).mpr ⟨by decide, Or.inl (by decide +kernel)⟩

/-- **An evicted request is not seen.** The second job evicts the third to get on,
and the third one's signal fires while the second is still running. -/
theorem cancelled_while_evicted :
    ∃ (config : RecallConfig) (envs : List (TurnEnv (List Token))) (env : TurnEnv (List Token))
      (worker : Worker (RecallServer config) (List Token)) (id : ℕ)
      (queued : QueuedJob (List Token)),
      run envs (spawn .fresh) = (.continue, worker) ∧
        (id, queued) ∈ assignments worker.log ∧ id ∉ retiredIds (sentEvents worker.log) ∧
        env.cancelledAtAdmission queued.job.cancel = true ∧
        env.cancelledAtSweep queued.job.cancel = true ∧
        ¬RetiredAsCancelled (worker.turn env).2.log id := by
  let envs : List (TurnEnv (List Token)) :=
    [.taking [.submission 0 1 [7], .submission 1 6 [7, 7], .submission 2 3 [7, 7, 7]],
      .taking [], .taking [], .taking []]
  let worker : Worker (RecallServer cramped) (List Token) := (run envs (spawn .fresh)).2
  let queued : QueuedJob (List Token) := ⟨⟨[7, 7, 7], 2, some 3, 2⟩, 2, 0⟩
  have hflow : (run envs (spawn (.fresh : RecallServer cramped))).1 = .continue := by
    decide +kernel
  have hreached : run envs (spawn .fresh) = (.continue, worker) := by
    rw [← hflow]
  have hadmitted : (2, queued) ∈ assignments worker.log := by decide +kernel
  have hunanswered : 2 ∉ retiredIds (sentEvents worker.log) := by decide +kernel
  have hstill : 2 ∉ retiredIds (sentEvents (worker.turn (.firing 2)).2.log) := by decide +kernel
  exact ⟨cramped, envs, .firing 2, worker, 2, queued, hreached, hadmitted, hunanswered,
    by decide, by decide, fun hretired => hstill (retiredIds_of_cancelled hretired)⟩

end Worker

end BurnLm.Inference
