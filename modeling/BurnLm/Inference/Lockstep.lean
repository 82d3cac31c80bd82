/-
# Worker and lanes in lockstep

What a round keeps, the worker keeps: every move of a turn leaves lanes and
sequences in step. Admission empties the lane it hands out, eviction empties the
lane it takes, and a round works in the lanes of its sequences only. Where the
decoder can always be borrowed nothing is left behind either, so a lane no
sequence uses is empty.

Commands are submissions and shutdowns here; the others may do anything to the
server.
-/

import BurnLm.Inference.LaneModel
import BurnLm.Inference.Reservation

namespace BurnLm.Inference

open BurnLm.Math

universe u v w c

/-- The slot admission picks is one, and nobody uses it. -/
theorem lowestFreeSlot_some {maxSlots slot : ℕ} {active : List JobSeq}
    (hslot : lowestFreeSlot maxSlots active = some slot) :
    slot < maxSlots ∧ ∀ seq ∈ active, seq.slot ≠ slot := by
  refine ⟨List.mem_range.mp (List.mem_of_find?_eq_some hslot), ?_⟩
  have hfree := List.find?_some hslot
  simpa using hfree

namespace LaneModel

variable {S : Type u} {C : Type c} {Row : Type v} {Task : Type w}
  [BatchedInferenceServer S Row Task] {model : LaneModel S C}

/-- Some lanes were emptied and the others left alone. -/
structure Emptied (model : LaneModel S C) (server next : S) (slots : List ℕ) : Prop where
  sound : model.sound next
  emptied : ∀ slot ∈ slots, model.content next slot = model.holding []
  still : ∀ lane, lane ∉ slots → model.content next lane = model.content server lane

theorem Honoured.release_emptied (hhonoured : model.Honoured) {server : S} {slot : ℕ}
    (hsound : model.sound server) (hvalid : model.valid slot) :
    model.Emptied server (release server slot) [slot] where
  sound := hhonoured.release_sound hsound hvalid
  emptied := by simpa using hhonoured.release_self hsound hvalid
  still := fun lane hlane =>
    hhonoured.release_other hsound hvalid (by simpa using hlane)

/-- Slots are emptied one after the other. -/
theorem Honoured.foldl_release_emptied (hhonoured : model.Honoured) (slots : List ℕ) {server : S}
    (hsound : model.sound server) (hvalid : ∀ slot ∈ slots, model.valid slot) :
    model.Emptied server (slots.foldl release server) slots := by
  induction slots generalizing server with
  | nil => exact ⟨hsound, by simp, fun _ _ => rfl⟩
  | cons slot slots ih =>
      have hfirst := hhonoured.release_emptied hsound (hvalid slot List.mem_cons_self)
      have hrest := ih hfirst.sound fun other hother => hvalid other (List.mem_cons_of_mem _ hother)
      refine ⟨hrest.sound, fun other hother => ?_, fun lane hlane => ?_⟩
      · by_cases hmem : other ∈ slots
        · exact hrest.emptied other hmem
        · obtain rfl := (List.mem_cons.mp hother).resolve_right hmem
          rw [List.foldl_cons, hrest.still _ hmem]
          exact hfirst.emptied _ (List.mem_singleton_self _)
      · rw [List.mem_cons, not_or] at hlane
        rw [List.foldl_cons, hrest.still lane hlane.2]
        exact hfirst.still lane (by simpa using hlane.1)

/-- A slot handed out was emptied: the second borrow succeeds like the first. -/
theorem Honoured.releaseSlot_emptied (hhonoured : model.Honoured) {server : S} {slot : ℕ}
    (hsound : model.sound server) (hborrowed : (decoder server).1 = .ok ())
    (hvalid : model.valid slot) :
    model.Emptied server (Worker.releaseSlot (decoder server).2 slot) [slot] := by
  obtain ⟨again, hagain⟩ : ∃ again, decoder (decoder server).2 = (.ok (), again) :=
    ⟨_, Prod.ext (hhonoured.reborrow server hborrowed) rfl⟩
  obtain rfl : (decoder (decoder server).2).2 = again := by rw [hagain]
  have hemptied := hhonoured.release_emptied
    (hhonoured.decoder_sound _ (hhonoured.decoder_sound _ hsound)) hvalid
  rw [Worker.releaseSlot, hagain]
  refine ⟨hemptied.sound, hemptied.emptied, fun lane hlane => ?_⟩
  rw [hemptied.still lane hlane, hhonoured.decoder_content, hhonoured.decoder_content]

/-- Retired slots are emptied, unless the decoder is refused. -/
theorem Honoured.releaseSlots_emptied (hhonoured : model.Honoured) {server : S} {slots : List ℕ}
    (hsound : model.sound server) (hvalid : ∀ slot ∈ slots, model.valid slot) :
    (∃ error, (decoder server).1 = .error error ∧
      model.Emptied server (Worker.releaseSlots server slots) []) ∨
    model.Emptied server (Worker.releaseSlots server slots) slots := by
  unfold Worker.releaseSlots
  split
  · next hnil => exact Or.inr ⟨hsound, by simp [hnil], fun _ _ => rfl⟩
  · split
    · next borrowed hborrow =>
        obtain rfl : (decoder server).2 = borrowed := by rw [hborrow]
        have hemptied := hhonoured.foldl_release_emptied slots
          (hhonoured.decoder_sound server hsound) hvalid
        refine Or.inr ⟨hemptied.sound, hemptied.emptied, fun lane hlane => ?_⟩
        rw [hemptied.still lane hlane, hhonoured.decoder_content]
    · next error borrowed hborrow =>
        obtain rfl : (decoder server).2 = borrowed := by rw [hborrow]
        exact Or.inl ⟨error, by rw [hborrow], hhonoured.decoder_sound server hsound, by simp,
          fun lane _ => hhonoured.decoder_content server lane⟩

end LaneModel

namespace Worker

variable {S : Type u} {C : Type c} {Row : Type v} {Task : Type w} {model : LaneModel S C}

/-- Lanes and sequences are in step, and what is to be resumed was sampled. -/
structure Lockstep (model : LaneModel S C) (worker : Worker S Task) : Prop where
  sound : model.sound worker.server
  step : model.InStep worker.server worker.active
  resume : ∀ job ∈ worker.resume, model.Traced job.tokens job.generated

/-- A lane no sequence uses is empty. -/
def Tidy (model : LaneModel S C) (worker : Worker S Task) : Prop :=
  ∀ lane, (∀ seq ∈ worker.active, seq.slot ≠ lane) →
    model.content worker.server lane = model.holding []

theorem Lockstep.spawn {server : S} (hsound : model.sound server) :
    Lockstep model (spawn server : Worker S Task) :=
  ⟨hsound, ⟨by simp [Worker.spawn], by simp [Worker.spawn], by simp [Worker.spawn],
    by simp [Worker.spawn], by simp [Worker.spawn]⟩, by simp [Worker.spawn]⟩

/-- What the invariant reads. -/
theorem Lockstep.congr {worker next : Worker S Task} (hworker : worker.Lockstep model)
    (hserver : next.server = worker.server) (hactive : next.active = worker.active)
    (hresume : next.resume = worker.resume) : next.Lockstep model :=
  ⟨by rw [hserver]; exact hworker.sound, by rw [hserver, hactive]; exact hworker.step,
    by rw [hresume]; exact hworker.resume⟩

variable [BatchedInferenceServer S Row Task]

/-- A borrow shows in no lane. -/
theorem Lockstep.borrow (hhonoured : model.Honoured) {worker : Worker S Task}
    (hworker : worker.Lockstep model) :
    Lockstep model { worker with server := (decoder worker.server).2 } :=
  ⟨hhonoured.decoder_sound _ hworker.sound,
    hworker.step.congr fun lane => hhonoured.decoder_content _ lane, hworker.resume⟩

/-- The slot admission picks is a lane. -/
theorem valid_of_lowestFreeSlot (hhonoured : model.Honoured) {server : S} {slot : ℕ}
    {active : List JobSeq}
    (hslot : lowestFreeSlot (batchCapacity server).maxSlots active = some slot) :
    model.valid slot :=
  hhonoured.valid_slot server slot (lowestFreeSlot_some hslot).1

theorem Lockstep.admission (hhonoured : model.Honoured) {env : TurnEnv Task}
    {worker next : Worker S Task} (hworker : worker.Lockstep model)
    (hadmission : Admission env worker next) : next.Lockstep model := by
  cases hadmission with
  | borrow => exact hworker.borrow hhonoured
  | resume candidate rest slot guaranteed hresume hborrowed hslot hroom =>
      have hvalid := valid_of_lowestFreeSlot hhonoured hslot
      have hemptied := hhonoured.releaseSlot_emptied hworker.sound hborrowed hvalid
      refine ⟨hemptied.sound, hworker.step.join (lowestFreeSlot_some hslot).2 hvalid ?_ rfl
        (hemptied.emptied slot (List.mem_singleton_self _)) fun lane hlane =>
          hemptied.still lane fun hmem => hlane (List.mem_singleton.mp hmem),
        fun job hjob => hworker.resume job ?_⟩
      · exact hworker.resume candidate (by rw [hresume]; exact List.mem_cons_self)
      · rw [hresume]
        exact List.mem_cons_of_mem _ hjob
  | reject front rest error hqueue => exact hworker.congr rfl rfl rfl
  | start front rest tokens maxGen guaranteed slot hqueue hborrowed htokens hmaxGen hneed hslot
      hroom =>
      have hvalid := valid_of_lowestFreeSlot hhonoured hslot
      have hemptied := hhonoured.releaseSlot_emptied hworker.sound hborrowed hvalid
      exact ⟨hemptied.sound, hworker.step.join (lowestFreeSlot_some hslot).2 hvalid
        (LaneModel.Traced.start tokens) rfl (hemptied.emptied slot (List.mem_singleton_self _))
        fun lane hlane => hemptied.still lane fun hmem => hlane (List.mem_singleton.mp hmem),
        hworker.resume⟩

omit [BatchedInferenceServer S Row Task] in
/-- A sweep finishes sequences in place. -/
theorem Lockstep.sweep (env : TurnEnv Task) {worker : Worker S Task}
    (hworker : worker.Lockstep model) :
    Lockstep model { worker with active := worker.active.map (cancelSweep env) } := by
  refine ⟨hworker.sound, hworker.step.advance (List.forall₂_map_right_iff.mpr
    (List.forall₂_same.mpr fun seq hseq => ?_)), hworker.resume⟩
  unfold cancelSweep
  split
  · exact hworker.step.relabel hseq rfl true _ _ _ (by simp)
  · exact hworker.step.stays hseq rfl

theorem Lockstep.regrowth (hhonoured : model.Honoured) {measured : S}
    {worker next : Worker S Task} (hworker : worker.Lockstep model)
    (hregrowth : Regrowth measured worker next) : next.Lockstep model := by
  have hstep := hworker.step
  cases hregrowth with
  | grow before seq after reservation paused hactive hlimited hraise hroom =>
      rw [hactive] at hstep
      refine ⟨hworker.sound, hstep.advance (List.rel_append ?_ (List.Forall₂.cons ?_ ?_)),
        hworker.resume⟩
      · exact List.forall₂_same.mpr fun other hother => hstep.stays (by simp [hother]) rfl
      · exact hstep.relabel (by simp) rfl _ paused reservation _ id
      · exact List.forall₂_same.mpr fun other hother => hstep.stays (by simp [hother]) rfl
  | evict before victim after hactive hunfinished =>
      rw [hactive] at hstep
      have hmem : victim ∈ before ++ victim :: after := by simp
      have hemptied := hhonoured.release_emptied hworker.sound (hstep.valid victim hmem)
      have hnodup := hstep.nodup
      rw [List.map_append, List.map_cons, List.nodup_middle, List.nodup_cons, ← List.map_append]
        at hnodup
      refine ⟨hemptied.sound, hstep.leave ((List.sublist_cons_self victim after).append_left before)
        fun seq hseq _ => hemptied.still _ fun hsame => hnodup.1 ?_, fun job hjob => ?_⟩
      · rw [← List.mem_singleton.mp hsame]
        exact List.mem_map_of_mem hseq
      · rcases List.mem_cons.mp hjob with rfl | hjob
        · exact hstep.traced victim hmem
        · exact hworker.resume job hjob

/-- A round, and the look at its outcomes, work in the lanes of the sequences. -/
theorem Lockstep.round (hhonoured : model.Honoured) (configured : S) {worker : Worker S Task}
    (hworker : worker.Lockstep model) :
    (runRound configured worker).Lockstep model ∧
      ∀ lane, (∀ seq ∈ (runRound configured worker).active, seq.slot ≠ lane) →
        model.content (runRound configured worker).server lane =
          model.content worker.server lane := by
  obtain ⟨entries, _, hseqs, hround⟩ := runRound_steps configured worker
  have hkept := @LaneModel.Kept.stepRound S C Row Task model worker.server _ configured
    (stopIds configured) hhonoured worker.server worker.active
    (PrefillBudget.forRound worker.active (prefillTokenBudget configured))
    (prefillChunkSize configured) ⟨hworker.sound, hworker.step, fun _ _ => rfl⟩
  rw [hseqs] at hkept
  have hactive : (runRound configured worker).active =
      entries.map fun entry => noteOutcome entry.seq entry.outcome := by
    rw [hround, report_active]
  refine ⟨⟨?_, ?_, hworker.resume⟩, fun lane hlane => hkept.untouched lane fun seq hseq => ?_⟩
  · exact hkept.sound
  · rw [hactive]
    refine hkept.step.advance (List.forall₂_map_left_iff.mpr (List.forall₂_map_right_iff.mpr
      (List.forall₂_same.mpr fun entry hentry => ?_)))
    obtain ⟨hitStop, hnote⟩ := noteOutcome_eq entry.seq entry.outcome
    rw [hnote]
    exact hkept.step.relabel (List.mem_map_of_mem hentry) rfl _ _ _ _ id
  · obtain ⟨entry, hentry, rfl⟩ := List.mem_map.mp hseq
    obtain ⟨hitStop, hnote⟩ := noteOutcome_eq entry.seq entry.outcome
    have hslot := hlane (noteOutcome entry.seq entry.outcome) (by
      rw [hactive]
      exact List.mem_map_of_mem hentry)
    rwa [hnote] at hslot

omit [BatchedInferenceServer S Row Task] in
/-- What is retired leaves lanes. -/
theorem Lockstep.valid_retired {worker : Worker S Task} (hworker : worker.Lockstep model) :
    ∀ slot ∈ (worker.active.filter ActiveSeq.finished).map ActiveSeq.slot, model.valid slot := by
  intro slot hslot
  obtain ⟨seq, hseq, rfl⟩ := List.mem_map.mp hslot
  exact hworker.step.valid seq (List.mem_of_mem_filter hseq)

/-- What is kept has lanes apart from what is retired. -/
theorem Lockstep.retire (hhonoured : model.Honoured) {worker : Worker S Task}
    (hworker : worker.Lockstep model) : worker.retireFinished.Lockstep model := by
  have happart : ∀ seq ∈ worker.active.filter fun seq => !seq.finished,
      seq.slot ∉ (worker.active.filter ActiveSeq.finished).map ActiveSeq.slot := by
    intro seq hseq hslot
    obtain ⟨other, hother, hsame⟩ := List.mem_map.mp hslot
    rw [List.mem_filter] at hseq hother
    obtain rfl := List.inj_on_of_nodup_map hworker.step.nodup hother.1 hseq.1 hsame
    simp [hother.2] at hseq
  rcases hhonoured.releaseSlots_emptied hworker.sound hworker.valid_retired with
    ⟨_, _, hemptied⟩ | hemptied
  · exact ⟨hemptied.sound, hworker.step.leave List.filter_sublist fun seq _ _ =>
      hemptied.still _ List.not_mem_nil, hworker.resume⟩
  · exact ⟨hemptied.sound, hworker.step.leave List.filter_sublist fun seq hseq _ =>
      hemptied.still _ (happart seq hseq), hworker.resume⟩

/-- **Lanes and sequences stay in step**, move by move. -/
theorem Lockstep.move (hhonoured : model.Honoured) {env : TurnEnv Task}
    (hcommands : ∀ command ∈ env.commands, command.isServed = false) {worker next : Worker S Task}
    (hworker : worker.Lockstep model) (hmove : Move env worker next) : next.Lockstep model := by
  cases hmove with
  | command given hgiven =>
      rcases handleCommand_cases (worker.emit [.received given]) given with
        ⟨queued, _, hcase⟩ | ⟨_, hcase⟩ | ⟨hserved, _⟩
      · rw [hcase]
        exact hworker.congr rfl rfl rfl
      · rw [hcase]
        exact hworker.congr rfl rfl rfl
      · simp [hcommands given hgiven] at hserved
  | admission hadmission => exact hworker.admission hhonoured hadmission
  | sweep => exact hworker.sweep env
  | regrowth measured hregrowth => exact hworker.regrowth hhonoured hregrowth
  | round configured hborrowed hcovered =>
      exact ((hworker.borrow hhonoured).round hhonoured configured).1
  | retire => exact hworker.retire hhonoured
  | fail error hrefused =>
      have hborrowed := hworker.borrow hhonoured
      exact ⟨hborrowed.sound, hborrowed.step.leave (List.nil_sublist _) fun seq hseq =>
        absurd hseq List.not_mem_nil, hborrowed.resume⟩

/-! ## Nothing is left behind -/

omit [BatchedInferenceServer S Row Task] in
/-- A lane unused before and after stays empty if it stays as it is. -/
theorem Tidy.keep {worker next : Worker S Task} (hworker : worker.Tidy model)
    (hnext : ∀ lane, (∀ seq ∈ next.active, seq.slot ≠ lane) →
      ((∀ seq ∈ worker.active, seq.slot ≠ lane) ∧
        model.content next.server lane = model.content worker.server lane) ∨
      model.content next.server lane = model.holding []) : next.Tidy model := by
  intro lane hlane
  rcases hnext lane hlane with ⟨hfree, hstill⟩ | hempty
  · rw [hstill]
    exact hworker lane hfree
  · exact hempty

theorem Tidy.admission (hhonoured : model.Honoured) {env : TurnEnv Task}
    {worker next : Worker S Task} (hlockstep : worker.Lockstep model) (hworker : worker.Tidy model)
    (hadmission : Admission env worker next) : next.Tidy model := by
  cases hadmission with
  | borrow => exact hworker.keep fun lane hlane => Or.inl ⟨hlane, hhonoured.decoder_content _ lane⟩
  | resume candidate rest slot guaranteed hresume hborrowed hslot hroom =>
      have hemptied := hhonoured.releaseSlot_emptied hlockstep.sound hborrowed
        (valid_of_lowestFreeSlot hhonoured hslot)
      refine hworker.keep fun lane hlane => Or.inl ⟨fun seq hseq => hlane seq (by simp [hseq]),
        hemptied.still lane fun hmem => ?_⟩
      exact hlane (candidate.seq guaranteed slot) (by simp) (List.mem_singleton.mp hmem).symm
  | reject front rest error hqueue => exact hworker
  | start front rest tokens maxGen guaranteed slot hqueue hborrowed htokens hmaxGen hneed hslot
      hroom =>
      have hemptied := hhonoured.releaseSlot_emptied hlockstep.sound hborrowed
        (valid_of_lowestFreeSlot hhonoured hslot)
      refine hworker.keep fun lane hlane => Or.inl ⟨fun seq hseq => hlane seq ?_,
        hemptied.still lane fun hmem => ?_⟩
      · exact List.mem_append_left _ hseq
      · exact hlane (front.seq worker.nextId env.now tokens maxGen guaranteed slot)
          (List.mem_append_right _ (List.mem_singleton_self _)) (List.mem_singleton.mp hmem).symm

/-- An evicted sequence's lane is emptied. -/
theorem Tidy.regrowth (hhonoured : model.Honoured) {measured : S} {worker next : Worker S Task}
    (hlockstep : worker.Lockstep model) (hworker : worker.Tidy model)
    (hregrowth : Regrowth measured worker next) : next.Tidy model := by
  cases hregrowth with
  | grow before seq after reservation paused hactive hlimited hraise hroom =>
      refine hworker.keep fun lane hlane => Or.inl ⟨fun other hother => ?_, rfl⟩
      rw [hactive, List.mem_append, List.mem_cons] at hother
      rcases hother with hother | rfl | hother
      · exact hlane other (by simp [hother])
      · exact hlane { other with kvReservation := reservation, paused } (by simp)
      · exact hlane other (by simp [hother])
  | evict before victim after hactive hunfinished =>
      have hemptied := hhonoured.release_emptied hlockstep.sound
        (hlockstep.step.valid victim (by rw [hactive]; simp))
      refine hworker.keep fun lane hlane => ?_
      by_cases hvictim : lane = victim.slot
      · exact Or.inr (hemptied.emptied lane (List.mem_singleton.mpr hvictim))
      · refine Or.inl ⟨fun other hother hsame => ?_, hemptied.still lane fun hmem =>
          hvictim (List.mem_singleton.mp hmem)⟩
        rw [hactive, List.mem_append, List.mem_cons] at hother
        rcases hother with hother | rfl | hother
        · exact hlane other (by simp [hother]) hsame
        · exact hvictim hsame.symm
        · exact hlane other (by simp [hother]) hsame

/-- A retired sequence's lane is emptied, as the decoder can be borrowed. -/
theorem Tidy.retire (hhonoured : model.Honoured)
    (hdecoder : ∀ server : S, (decoder server).1 = .ok ()) {worker : Worker S Task}
    (hlockstep : worker.Lockstep model) (hworker : worker.Tidy model) :
    worker.retireFinished.Tidy model := by
  rcases hhonoured.releaseSlots_emptied hlockstep.sound hlockstep.valid_retired with
    ⟨error, hrefused, _⟩ | hemptied
  · rw [hdecoder] at hrefused
    simp at hrefused
  · refine hworker.keep fun lane hlane => ?_
    by_cases hretired : lane ∈ (worker.active.filter ActiveSeq.finished).map ActiveSeq.slot
    · exact Or.inr (hemptied.emptied lane hretired)
    · refine Or.inl ⟨fun seq hseq hsame => ?_, hemptied.still lane hretired⟩
      cases hfinished : seq.finished with
      | true =>
          exact hretired (List.mem_map.mpr ⟨seq, List.mem_filter.mpr ⟨hseq, hfinished⟩, hsame⟩)
      | false =>
          exact hlane seq (List.mem_filter.mpr ⟨hseq, by simp [hfinished]⟩) hsame

/-- **No move leaves anything behind**, where the decoder can always be
borrowed. -/
theorem Tidy.move (hhonoured : model.Honoured)
    (hdecoder : ∀ server : S, (decoder server).1 = .ok ()) {env : TurnEnv Task}
    (hcommands : ∀ command ∈ env.commands, command.isServed = false) {worker next : Worker S Task}
    (hlockstep : worker.Lockstep model) (hworker : worker.Tidy model)
    (hmove : Move env worker next) : next.Tidy model := by
  cases hmove with
  | command given hgiven =>
      rcases handleCommand_cases (worker.emit [.received given]) given with
        ⟨queued, _, hcase⟩ | ⟨_, hcase⟩ | ⟨hserved, _⟩
      · rw [hcase]
        exact hworker
      · rw [hcase]
        exact hworker
      · simp [hcommands given hgiven] at hserved
  | admission hadmission => exact hworker.admission hhonoured hlockstep hadmission
  | sweep =>
      refine hworker.keep fun lane hlane => Or.inl ⟨fun seq hseq => ?_, rfl⟩
      have hslot := hlane (cancelSweep env seq) (List.mem_map_of_mem hseq)
      unfold cancelSweep at hslot
      split at hslot <;> exact hslot
  | regrowth measured hregrowth => exact hworker.regrowth hhonoured hlockstep hregrowth
  | round configured hborrowed hcovered =>
      have hround := ((hlockstep.borrow hhonoured).round hhonoured configured).2
      refine hworker.keep fun lane hlane => Or.inl ⟨fun seq hseq hsame => ?_, ?_⟩
      · obtain ⟨next, hnext, hstepped⟩ := exists_of_forall₂_right (runRound_active configured
          { worker with server := (decoder worker.server).2 }).flip hseq
        exact hlane next hnext ((Stepped.frame hstepped).1.trans hsame)
      · rw [hround lane hlane]
        exact hhonoured.decoder_content _ lane
  | retire => exact hworker.retire hhonoured hdecoder hlockstep
  | fail error hrefused =>
      rw [hdecoder] at hrefused
      simp at hrefused

theorem Tidy.run (hhonoured : model.Honoured)
    (hdecoder : ∀ server : S, (decoder server).1 = .ok ()) {worker : Worker S Task}
    (hlockstep : worker.Lockstep model) (hworker : worker.Tidy model) (envs : List (TurnEnv Task))
    (hcommands : ∀ env ∈ envs, ∀ command ∈ env.commands, command.isServed = false) :
    (Worker.run envs worker).2.Lockstep model ∧ (Worker.run envs worker).2.Tidy model := by
  refine @run_induction S Row Task _ (fun worker => worker.Lockstep model ∧ worker.Tidy model) envs
    ?_ worker ⟨hlockstep, hworker⟩
  rintro env henv before after ⟨hlockstep, htidy⟩ hmove
  exact ⟨hlockstep.move hhonoured (hcommands env henv) hmove,
    htidy.move hhonoured hdecoder (hcommands env henv) hlockstep hmove⟩

end Worker

end BurnLm.Inference
