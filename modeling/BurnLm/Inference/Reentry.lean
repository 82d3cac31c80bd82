/-
# Who gets back in

Evicted sequences come back from the top of their stack, each if a slot is free and
the pool has the blocks it is guaranteed, and the first that finds no room holds up
the ones below it. How far that goes is a matter of the worker before admission: its
server, its active set and the stack.
-/

import BurnLm.Inference.Stages

namespace BurnLm.Inference

open BurnLm.Math

universe u v w

/-- What admission goes by: the server, and who is active. -/
structure Floor (S : Type u) where
  server : S
  active : List JobSeq

variable {S : Type u} {Row : Type v} {Task : Type w} [BatchedInferenceServer S Row Task]

namespace Floor

open Worker

/-- An evicted sequence finds a slot and its blocks. -/
structure Regains (floor : Floor S) (candidate : ResumedJob) : Prop where
  slots : floor.active.length < (batchCapacity floor.server).maxSlots
  borrowed : (decoder floor.server).1 = .ok ()
  room : hasRoom (decoder floor.server).2 floor.active
    (resumeGuarantee (decoder floor.server).2 floor.active candidate) = true

/-- The floor once an evicted sequence is back. -/
def regain (floor : Floor S) (candidate : ResumedJob) : Floor S :=
  let server := (decoder floor.server).2
  let slot := (lowestFreeSlot (batchCapacity server).maxSlots floor.active).getD 0
  ⟨releaseSlot server slot,
    floor.active ++ [candidate.seq (resumeGuarantee server floor.active candidate) slot]⟩

/-- The floor once all of these are back. -/
def regains (floor : Floor S) (candidates : List ResumedJob) : Floor S :=
  candidates.foldl regain floor

/-- Each of these finds a slot and its blocks, behind the ones before it. -/
def AllRegain (floor : Floor S) (candidates : List ResumedJob) : Prop :=
  ∀ front candidate rest, candidates = front ++ candidate :: rest →
    (floor.regains front).Regains candidate

variable {floor : Floor S} {candidate : ResumedJob} {front back : List ResumedJob}

theorem allRegain_nil : floor.AllRegain [] := by
  intro front candidate rest hsplit
  simp at hsplit

theorem allRegain_cons {rest : List ResumedJob} :
    floor.AllRegain (candidate :: rest) ↔
      floor.Regains candidate ∧ (floor.regain candidate).AllRegain rest := by
  constructor
  · exact fun hall => ⟨hall [] candidate rest rfl, fun front other more hsplit =>
      hall (candidate :: front) other more (congrArg (candidate :: ·) hsplit)⟩
  · rintro ⟨hfirst, hrest⟩ front other more hsplit
    cases front with
    | nil =>
        obtain ⟨rfl, rfl⟩ := List.cons.inj hsplit
        exact hfirst
    | cons first front =>
        obtain ⟨rfl, hrest'⟩ := List.cons.inj hsplit
        exact hrest front other more hrest'

theorem AllRegain.of_prefix (hall : floor.AllRegain back) (hfront : front <+: back) :
    floor.AllRegain front := by
  obtain ⟨more, rfl⟩ := hfront
  intro before other rest hsplit
  exact hall before other (rest ++ more) (by rw [hsplit, List.append_assoc]; rfl)

/-- Who all come back reach no further than the first that cannot. -/
theorem AllRegain.length_le {left : List ResumedJob} (hall : floor.AllRegain front)
    (hfront : front <+: back ++ left)
    (hstuck : ∀ job rest, left = job :: rest → ¬(floor.regains back).Regains job) :
    front.length ≤ back.length := by
  by_contra hlonger
  obtain ⟨more, hmore⟩ : back <+: front :=
    List.prefix_of_prefix_length_le (List.prefix_append back left) hfront (by omega)
  obtain ⟨tail, htail⟩ := hfront
  cases more with
  | nil => simp [← hmore] at hlonger
  | cons job rest =>
      refine hstuck job (rest ++ tail) ?_ (hall back job rest hmore.symm)
      rw [← hmore, List.append_assoc] at htail
      exact (List.append_cancel_left htail).symm

end Floor

namespace Worker

/-- The floor a worker's admission begins on. -/
def floor (worker : Worker S Task) : Floor S := ⟨worker.server, worker.active⟩

/-- What the resume loop comes to: those on top are back, as far as each found room,
and the first that did not is the first left over. -/
structure Reentered (worker next : Worker S Task) (back left : List ResumedJob) : Prop where
  split : worker.resume = back ++ left
  allRegain : worker.floor.AllRegain back
  stuck : ∀ job rest, left = job :: rest → ¬(worker.floor.regains back).Regains job
  resume : next.resume = left
  active : next.active = (worker.floor.regains back).active
  /-- Trying the first that finds no room borrows the decoder, if a slot is free. -/
  server : next.server =
    if left ≠ [] ∧ (worker.floor.regains back).active.length <
        (batchCapacity (worker.floor.regains back).server).maxSlots then
      (decoder (worker.floor.regains back).server).2
    else (worker.floor.regains back).server

/-- A request is active, or it comes back with everything above it on the stack. -/
def InReach (floor : Floor S) (stack : List ResumedJob) (id : ℕ) : Prop :=
  (∃ seq ∈ floor.active, seq.extra.id = id) ∨
    ∃ front job rest, stack = front ++ job :: rest ∧ job.extra.id = id ∧
      floor.AllRegain (front ++ [job])

/-- **How far the resume loop gets.** -/
theorem reentered (worker : Worker S Task) :
    ∃ back left, Reentered worker (resumed worker) back left := by
  rw [resumed]
  generalize hstack : worker.resume = stack
  induction stack generalizing worker with
  | nil =>
      exact ⟨[], [], hstack, Floor.allRegain_nil, nofun, hstack, rfl, rfl⟩
  | cons candidate rest ih =>
      generalize hnext : resumeStep worker = next
      have hcase := resumeStep_cases worker
      rw [hnext] at hcase
      rw [List.length_cons, loop, hnext]
      cases hcase with
      | idle hidle =>
          have hfull := hidle.resolve_left (by simp [hstack])
          refine ⟨[], candidate :: rest, hstack, Floor.allRegain_nil, ?_, hstack, rfl, ?_⟩
          · exact fun _ _ _ hregains => absurd hregains.slots (not_lt.mpr hfull)
          · exact (if_neg fun h => absurd h.2 (not_lt.mpr hfull)).symm
      | @stuck other others hresume hslots hstuck =>
          obtain ⟨rfl, rfl⟩ := List.cons.inj (hstack.symm.trans hresume)
          refine ⟨[], candidate :: rest, hstack, Floor.allRegain_nil, ?_, hstack, rfl, ?_⟩
          · rintro job more hsplit ⟨_, hborrowed, hroom⟩
            obtain ⟨rfl, -⟩ := List.cons.inj hsplit
            exact absurd hroom (by rw [Bool.not_eq_true]; exact hstuck hborrowed)
          · exact (if_pos ⟨by simp, hslots⟩).symm
      | @resumed other others slot hresume hslots hborrowed hslot hroom =>
          obtain ⟨rfl, rfl⟩ := List.cons.inj (hstack.symm.trans hresume)
          set later : Worker S Task :=
            { worker with
              server := releaseSlot (decoder worker.server).2 slot
              resume := rest
              active := worker.active ++ [candidate.seq
                (resumeGuarantee (decoder worker.server).2 worker.active candidate) slot] }
          have hregains : worker.floor.Regains candidate :=
            ⟨hslots, hborrowed, hasRoom_iff.mpr ⟨hroom, slot, hslot⟩⟩
          have hfloor : later.floor = worker.floor.regain candidate := by
            simp only [floor, Floor.regain, hslot, Option.getD_some, later]
          obtain ⟨back, left, hrest⟩ := ih later rfl
          have hregained : later.floor.regains back = worker.floor.regains (candidate :: back) := by
            rw [hfloor]
            rfl
          refine ⟨candidate :: back, left, ?_,
            Floor.allRegain_cons.mpr ⟨hregains, hfloor ▸ hrest.allRegain⟩, ?_, hrest.resume,
            hregained ▸ hrest.active, hregained ▸ hrest.server⟩
          · exact hstack.trans (congrArg (candidate :: ·) hrest.split)
          · exact fun job more hsplit => hregained ▸ hrest.stuck job more hsplit

/-- **Who is not left waiting.** Of the requests a worker holds, those in reach are the
ones that the resume loop does not leave on the stack. -/
theorem inReach_iff {worker : Worker S Task} (hnodup : worker.liveIds.Nodup) {id : ℕ}
    (hlive : id ∈ worker.liveIds) :
    InReach worker.floor worker.resume id ↔
      ∀ job ∈ (resumed worker).resume, job.extra.id ≠ id := by
  obtain ⟨back, left, hreentered⟩ := reentered worker
  obtain ⟨-, hstack, hapart⟩ := List.nodup_append.mp hnodup
  rw [hreentered.split, List.map_append] at hstack hapart
  obtain ⟨-, -, hleft⟩ := List.nodup_append.mp hstack
  rw [hreentered.resume]
  constructor
  · rintro (⟨seq, hseq, rfl⟩ | ⟨front, job, rest, hsplit, rfl, hall⟩) other hother hid
    · exact hapart _ (List.mem_map_of_mem hseq) _
        (List.mem_append_right _ (List.mem_map_of_mem hother)) hid.symm
    · have hwhole : front ++ [job] ++ rest = back ++ left := by
        rw [List.append_assoc, ← hreentered.split, hsplit]
        rfl
      have hle := hall.length_le (hwhole ▸ List.prefix_append _ rest) hreentered.stuck
      have hback : front ++ [job] <+: back :=
        List.prefix_of_prefix_length_le (hwhole ▸ List.prefix_append _ rest)
          (List.prefix_append back left) hle
      exact hleft _ (List.mem_map_of_mem (hback.subset (by simp))) _ (List.mem_map_of_mem hother)
        hid.symm
  · intro hout
    rcases List.mem_append.mp hlive with hmem | hmem
    · obtain ⟨seq, hseq, rfl⟩ := List.mem_map.mp hmem
      exact Or.inl ⟨seq, hseq, rfl⟩
    · obtain ⟨job, hjob, rfl⟩ := List.mem_map.mp hmem
      rw [hreentered.split] at hjob
      have hback := (List.mem_append.mp hjob).resolve_right fun hjob => hout job hjob rfl
      obtain ⟨front, more, rfl⟩ := List.mem_iff_append.mp hback
      refine Or.inr ⟨front, job, more ++ left, ?_, rfl, ?_⟩
      · rw [hreentered.split, List.append_assoc]
        rfl
      · exact hreentered.allRegain.of_prefix ⟨more, by simp⟩

end Worker

end BurnLm.Inference
