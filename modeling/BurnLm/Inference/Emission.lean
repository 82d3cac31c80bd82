/-
# The emission thread

From admission to retirement a request's delivery state belongs to this thread:
it pushes token bytes through the request's buffer, hands on the text that is
complete, and answers the request once. The table of deliveries is a list of
entries under their ids; entering one under an id replaces what was there.

Two views of the thread are enough to reason about replies: who is registered,
and who has been answered. `Receipt` says what an event can do to them.
-/

import BurnLm.Inference.Journal

namespace BurnLm.Inference

/-- What reaches a caller. -/
inductive Delivered
  | text (emitter : ℕ) (text : List Char)
  | completed (completion : ℕ) (reply : InferenceResult Stats)
  deriving DecidableEq

/-- The request a delivery answers. -/
def Delivered.completion : Delivered → Option ℕ
  | .completed completion _ => some completion
  | .text _ _ => none

/-- One request's delivery state. -/
structure Delivery where
  emitter : ℕ
  detok : Utf8Buffer
  completion : ℕ
  deriving DecidableEq, Repr

namespace Delivery

/-- Push one token's bytes and hand on whatever text is now complete. -/
def deliver (delivery : Delivery) (bytes : List UInt8) : Delivery × List Delivered :=
  let (text, detok) := delivery.detok.push bytes
  ({ delivery with detok }, text.toList.map (.text delivery.emitter))

/-- End of stream: flush what is held back, then answer. -/
def finish (delivery : Delivery) (reply : InferenceResult Stats) : List Delivered :=
  let (text, _) := delivery.detok.finish
  text.toList.map (.text delivery.emitter) ++ [.completed delivery.completion reply]

@[simp]
theorem deliver_completion (delivery : Delivery) (bytes : List UInt8) :
    (delivery.deliver bytes).1.completion = delivery.completion := rfl

theorem filterMap_text (emitter : ℕ) (text : Option (List Char)) :
    (text.toList.map (Delivered.text emitter)).filterMap Delivered.completion = [] := by
  cases text <;> rfl

@[simp]
theorem completions_deliver (delivery : Delivery) (bytes : List UInt8) :
    (delivery.deliver bytes).2.filterMap Delivered.completion = [] :=
  filterMap_text _ _

@[simp]
theorem completions_finish (delivery : Delivery) (reply : InferenceResult Stats) :
    (delivery.finish reply).filterMap Delivered.completion = [delivery.completion] := by
  unfold finish
  dsimp only
  rw [List.filterMap_append, filterMap_text]
  rfl

end Delivery

/-- The emission thread: the deliveries it owns, and what it has handed on. -/
structure Emission where
  live : List (ℕ × Delivery)
  delivered : List Delivered
  deriving DecidableEq

namespace Emission

/-- A thread just spawned. -/
def spawn : Emission := ⟨[], []⟩

/-- One token of a round: an id without a delivery is passed over. -/
def deliver (emission : Emission) (token : ℕ × List UInt8) : Emission :=
  match emission.live.find? fun entry => entry.1 = token.1 with
  | some (_, delivery) =>
    { live := emission.live.map fun entry =>
        if entry.1 = token.1 then (entry.1, (entry.2.deliver token.2).1) else entry
      delivered := emission.delivered ++ (delivery.deliver token.2).2 }
  | none => emission

/-- One event. -/
def receive (emission : Emission) : EmissionEvent → Emission
  | .admitted id emitter detok completion =>
    { emission with
      live := (id, ⟨emitter, detok, completion⟩) ::
        emission.live.eraseP fun entry => entry.1 = id }
  | .tokens batch => batch.foldl deliver emission
  | .retire id reply =>
    match emission.live.find? fun entry => entry.1 = id with
    | some (_, delivery) =>
      { live := emission.live.eraseP fun entry => entry.1 = id
        delivered := emission.delivered ++ delivery.finish reply }
    | none => emission

/-- The worker is gone: whoever is still live is flushed and told so. The order is
the table's own. -/
def abandon (emission : Emission) (id : ℕ) : Emission :=
  emission.receive (.retire id (.error .workerDied))

/-- Who is registered, under which id. -/
def registered (emission : Emission) : List (ℕ × ℕ) :=
  emission.live.map fun entry => (entry.1, entry.2.completion)

/-- Who has been answered. -/
def completed (emission : Emission) : List ℕ :=
  emission.delivered.filterMap Delivered.completion

/-- A partial character is flushed before its request is answered, and a second
retirement finds nobody. -/
example : (([.admitted 4 7 .new 9, .tokens [(4, [0x41, 0xE2]), (5, [0x42])], .retire 4 (.ok ⟨[]⟩),
    .retire 4 (.error .cancelled)] : List EmissionEvent).foldl receive spawn).delivered =
      [.text 7 ['A'], .text 7 [Char.ofNat 0xFFFD], .completed 9 (.ok ⟨[]⟩)] := by
  decide +kernel

/-- What one event does to who is registered and who has been answered. -/
inductive Receipt (emission : Emission) : EmissionEvent → Emission → Prop
  | register (id emitter : ℕ) (detok : Utf8Buffer) (completion : ℕ) (next : Emission)
      (hregistered : next.registered = (id, completion) :: emission.registered)
      (hcompleted : next.completed = emission.completed) :
      Receipt emission (.admitted id emitter detok completion) next
  | settle (id : ℕ) (reply : InferenceResult Stats) (before : List (ℕ × ℕ)) (completion : ℕ)
      (after : List (ℕ × ℕ)) (next : Emission)
      (hregistered : emission.registered = before ++ (id, completion) :: after)
      (hsettled : next.registered = before ++ after)
      (hcompleted : next.completed = emission.completed ++ [completion]) :
      Receipt emission (.retire id reply) next
  | ignore (event : EmissionEvent) (next : Emission) (hadmission : event.admission = none)
      (hgone : ∀ id reply, event.retirement = some (id, reply) →
        id ∉ emission.registered.map Prod.fst)
      (hregistered : next.registered = emission.registered)
      (hcompleted : next.completed = emission.completed) :
      Receipt emission event next

theorem deliver_frame (emission : Emission) (token : ℕ × List UInt8) :
    (emission.deliver token).registered = emission.registered ∧
      (emission.deliver token).completed = emission.completed := by
  unfold deliver
  split
  · refine ⟨?_, by simp [completed]⟩
    unfold registered
    rw [List.map_map]
    refine List.map_congr_left fun entry _ => ?_
    by_cases hentry : entry.1 = token.1 <;> simp [hentry]
  · exact ⟨rfl, rfl⟩

theorem tokens_frame (batch : List (ℕ × List UInt8)) (emission : Emission) :
    (batch.foldl deliver emission).registered = emission.registered ∧
      (batch.foldl deliver emission).completed = emission.completed := by
  induction batch generalizing emission with
  | nil => exact ⟨rfl, rfl⟩
  | cons token batch ih =>
      obtain ⟨hregistered, hcompleted⟩ := ih (emission.deliver token)
      obtain ⟨htoken, htoken'⟩ := emission.deliver_frame token
      exact ⟨hregistered.trans htoken, hcompleted.trans htoken'⟩

/-- An event registers, settles or does neither. -/
theorem receive_receipt (emission : Emission) (event : EmissionEvent)
    (hfresh : ∀ id completion, event.admission = some (id, completion) →
      id ∉ emission.registered.map Prod.fst) :
    Receipt emission event (emission.receive event) := by
  cases event with
  | admitted id emitter detok completion =>
      have habsent := hfresh id completion rfl
      refine .register id emitter detok completion _ ?_ rfl
      rw [receive, List.eraseP_of_forall_not]
      · rfl
      · intro entry hentry hid
        refine habsent (List.mem_map.mpr ⟨(entry.1, entry.2.completion), ?_, ?_⟩)
        · exact List.mem_map_of_mem hentry
        · simpa using hid
  | tokens batch =>
      obtain ⟨hregistered, hcompleted⟩ := tokens_frame batch emission
      exact .ignore _ _ rfl (by simp [EmissionEvent.retirement]) hregistered hcompleted
  | retire id reply =>
      rw [receive]
      split
      · next key delivery hfind =>
          obtain ⟨hkey, before, after, hlive, hbefore⟩ := List.find?_eq_some_iff_append.mp hfind
          obtain rfl : key = id := by simpa using hkey
          have herased : emission.live.eraseP (fun entry => entry.1 = key) = before ++ after := by
            rw [hlive, List.eraseP_append_right _ (by simpa using hbefore)]
            simp
          refine .settle key reply (before.map fun entry => (entry.1, entry.2.completion))
            delivery.completion (after.map fun entry => (entry.1, entry.2.completion)) _ ?_ ?_ ?_
          · simp [registered, hlive]
          · simp [registered, herased]
          · simp [completed]
      · next hfind =>
          refine .ignore _ _ rfl (fun other reply' hother hmem => ?_) rfl rfl
          obtain ⟨rfl, rfl⟩ := Prod.mk.inj (Option.some.inj hother)
          obtain ⟨_, hmem, hid⟩ := List.mem_map.mp hmem
          obtain ⟨entry, hentry, rfl⟩ := List.mem_map.mp hmem
          exact List.find?_eq_none.mp hfind entry hentry (by simpa using hid)

end Emission

end BurnLm.Inference
