/-
# The emission thread, as one request sees it

The thread serves everyone from one table. To a single request it is a mailbox:
one delivery state, fed by the events that name the request and blind to the rest.
`Shows` ties the mailbox to the thread, so what a request receives can be read off
the events about it alone.
-/

import BurnLm.Inference.Emission
import BurnLm.Inference.TextStream

namespace BurnLm.Inference

/-! ## Who is handed what -/

namespace Emission

/-- What one token makes the thread hand on, and to whom. -/
def tokenHanded (emission : Emission) (token : ℕ × List UInt8) : List (ℕ × Delivered) :=
  match emission.live.find? fun entry => entry.1 = token.1 with
  | some (_, delivery) => (delivery.deliver token.2).2.map (token.1, ·)
  | none => []

/-- What a batch makes it hand on. -/
def batchHanded : Emission → List (ℕ × List UInt8) → List (ℕ × Delivered)
  | _, [] => []
  | emission, token :: batch =>
    emission.tokenHanded token ++ (emission.deliver token).batchHanded batch

/-- What one event makes it hand on. -/
def handed (emission : Emission) : EmissionEvent → List (ℕ × Delivered)
  | .admitted _ _ _ _ => []
  | .tokens batch => emission.batchHanded batch
  | .retire id reply =>
    match emission.live.find? fun entry => entry.1 = id with
    | some (_, delivery) => (delivery.finish reply).map (id, ·)
    | none => []

/-- What a sequence of events makes it hand on. -/
def allHanded : Emission → List EmissionEvent → List (ℕ × Delivered)
  | _, [] => []
  | emission, event :: events =>
    emission.handed event ++ (emission.receive event).allHanded events

/-- The delivery state of a request. -/
def deliveryOf (emission : Emission) (id : ℕ) : Option Delivery :=
  (emission.live.find? fun entry => entry.1 = id).map Prod.snd

theorem deliveryOf_deliver (emission : Emission) (token : ℕ × List UInt8) (id : ℕ) :
    (emission.deliver token).deliveryOf id =
      if token.1 = id then (emission.deliveryOf id).map fun delivery => (delivery.deliver token.2).1
      else emission.deliveryOf id := by
  unfold deliver
  cases hfind : emission.live.find? (fun entry => decide (entry.1 = token.1)) with
  | none =>
      dsimp only
      split
      · next hid =>
          subst hid
          simp [deliveryOf, hfind]
      · rfl
  | some found =>
      -- the update renames nobody, so it can be taken after the look-up
      have hkeys : (fun entry : ℕ × Delivery => decide (entry.1 = id)) ∘ (fun entry =>
          if entry.1 = token.1 then (entry.1, (entry.2.deliver token.2).1) else entry) =
            fun entry => decide (entry.1 = id) := by
        funext entry
        simp only [Function.comp_apply]
        split <;> rfl
      simp only [deliveryOf, List.find?_map, hkeys, Option.map_map]
      cases hown : emission.live.find? (fun entry => decide (entry.1 = id)) with
      | none => simp
      | some entry =>
          have hentry : entry.1 = id := by simpa using List.find?_some hown
          by_cases hid : token.1 = id <;> simp [hentry, hid, Ne.symm]

/-- Dropping one key of distinct keys hides it and nothing else. -/
theorem find?_eraseP_key {live : List (ℕ × Delivery)} (hkeyed : (live.map Prod.fst).Nodup)
    (other id : ℕ) :
    ((live.eraseP fun entry => entry.1 = other).find? fun entry => entry.1 = id) =
      if other = id then none else live.find? fun entry => entry.1 = id := by
  induction live with
  | nil => simp
  | cons entry live ih =>
      rw [List.map_cons, List.nodup_cons] at hkeyed
      have hrest := ih hkeyed.2
      by_cases hother : entry.1 = other
      · rw [List.eraseP_cons_of_pos (by simpa using hother)]
        subst hother
        by_cases hid : entry.1 = id
        · rw [if_pos hid, List.find?_eq_none]
          intro found hfound hkey
          refine hkeyed.1 ?_
          rw [hid, ← of_decide_eq_true hkey]
          exact List.mem_map_of_mem hfound
        · rw [if_neg hid, List.find?_cons_of_neg (by simpa using hid)]
      · rw [List.eraseP_cons_of_neg (by simpa using hother)]
        by_cases hid : entry.1 = id
        · have hne : other ≠ id := fun h => hother (hid.trans h.symm)
          rw [List.find?_cons_of_pos (by simpa using hid), if_neg hne,
            List.find?_cons_of_pos (by simpa using hid)]
        · rw [List.find?_cons_of_neg (by simpa using hid), hrest,
            List.find?_cons_of_neg (by simpa using hid)]

theorem keys_deliver (emission : Emission) (token : ℕ × List UInt8) :
    (emission.deliver token).live.map Prod.fst = emission.live.map Prod.fst := by
  unfold deliver
  split
  · rw [List.map_map]
    refine List.map_congr_left fun entry _ => ?_
    simp only [Function.comp_apply]
    split <;> rfl
  · rfl

theorem tokenHanded_eq (emission : Emission) (token : ℕ × List UInt8) :
    emission.tokenHanded token = (((emission.deliveryOf token.1).map fun delivery =>
      (delivery.deliver token.2).2).getD []).map (token.1, ·) := by
  unfold tokenHanded deliveryOf
  cases emission.live.find? (fun entry => decide (entry.1 = token.1)) <;> rfl

theorem deliver_delivered (emission : Emission) (token : ℕ × List UInt8) :
    (emission.deliver token).delivered =
      emission.delivered ++ (emission.tokenHanded token).map Prod.snd := by
  unfold deliver tokenHanded
  cases emission.live.find? fun entry => entry.1 = token.1 with
  | none => simp
  | some found => simp [List.map_map, Function.comp_def]

theorem batch_delivered (batch : List (ℕ × List UInt8)) (emission : Emission) :
    (batch.foldl deliver emission).delivered =
      emission.delivered ++ (emission.batchHanded batch).map Prod.snd := by
  induction batch generalizing emission with
  | nil => simp [batchHanded]
  | cons token batch ih =>
      rw [List.foldl_cons, ih, deliver_delivered, batchHanded, List.map_append, List.append_assoc]

/-- An event adds what it makes the thread hand on. -/
theorem receive_delivered (emission : Emission) (event : EmissionEvent) :
    (emission.receive event).delivered =
      emission.delivered ++ (emission.handed event).map Prod.snd := by
  cases event with
  | admitted => simp [receive, handed]
  | tokens batch => exact batch_delivered batch emission
  | retire id reply =>
      simp only [receive, handed]
      cases emission.live.find? fun entry => entry.1 = id with
      | none => simp
      | some found => simp [List.map_map, Function.comp_def]

/-- What the thread hands on, without the names. -/
theorem allHanded_delivered (events : List EmissionEvent) (emission : Emission) :
    (events.foldl receive emission).delivered =
      emission.delivered ++ (emission.allHanded events).map Prod.snd := by
  induction events generalizing emission with
  | nil => simp [allHanded]
  | cons event events ih =>
      rw [List.foldl_cons, ih, receive_delivered, allHanded, List.map_append, List.append_assoc]

end Emission

/-- What a sequence of events makes the thread hand on to one request. -/
def received (id : ℕ) (events : List EmissionEvent) : List Delivered :=
  ((Emission.spawn.allHanded events).filter fun entry => entry.1 = id).map Prod.snd

/-! ## Mailboxes -/

/-- One request's delivery state, and what it has received. -/
structure Mailbox where
  delivery : Option Delivery
  received : List Delivered

namespace Mailbox

def empty : Mailbox := ⟨none, []⟩

/-- The bytes of one token. -/
def push (mailbox : Mailbox) (bytes : List UInt8) : Mailbox :=
  match mailbox.delivery with
  | some delivery =>
    ⟨some (delivery.deliver bytes).1, mailbox.received ++ (delivery.deliver bytes).2⟩
  | none => mailbox

theorem push_delivery (mailbox : Mailbox) (bytes : List UInt8) :
    (mailbox.push bytes).delivery = mailbox.delivery.map fun delivery =>
      (delivery.deliver bytes).1 := by
  obtain ⟨_ | delivery, received⟩ := mailbox <;> rfl

theorem push_received (mailbox : Mailbox) (bytes : List UInt8) :
    (mailbox.push bytes).received = mailbox.received ++ (mailbox.delivery.map fun delivery =>
      (delivery.deliver bytes).2).getD [] := by
  obtain ⟨_ | delivery, received⟩ := mailbox
  · exact (List.append_nil _).symm
  · rfl

/-- One event, for the request `id`. -/
def receive (id : ℕ) (mailbox : Mailbox) : EmissionEvent → Mailbox
  | .admitted other emitter detok completion =>
    if other = id then { mailbox with delivery := some ⟨emitter, detok, completion⟩ } else mailbox
  | .tokens batch =>
    ((batch.filter fun token => token.1 = id).map Prod.snd).foldl push mailbox
  | .retire other reply =>
    if other = id then
      match mailbox.delivery with
      | some delivery => ⟨none, mailbox.received ++ delivery.finish reply⟩
      | none => mailbox
    else mailbox

end Mailbox

/-- The thread and what it has handed on, as one request sees them. -/
structure Emission.Shows (id : ℕ) (emission : Emission) (out : List (ℕ × Delivered))
    (mailbox : Mailbox) : Prop where
  keyed : (emission.live.map Prod.fst).Nodup
  delivery : emission.deliveryOf id = mailbox.delivery
  received : (out.filter fun entry => entry.1 = id).map Prod.snd = mailbox.received

namespace Emission.Shows

variable {id : ℕ} {emission : Emission} {out : List (ℕ × Delivered)} {mailbox : Mailbox}

theorem spawn (id : ℕ) : Shows id Emission.spawn [] .empty := ⟨by simp [Emission.spawn], rfl, rfl⟩

/-- What is handed to one request is that request's, or nobody's. -/
theorem filter_map_mk (id other : ℕ) (delivered : List Delivered) :
    ((delivered.map (other, ·)).filter fun entry => entry.1 = id).map Prod.snd =
      if other = id then delivered else [] := by
  split
  · next hid =>
      rw [List.filter_eq_self.mpr (by simp [hid]), List.map_map]
      exact List.map_id _
  · next hid => simp [List.filter_map, Function.comp_def, hid]

theorem deliver (hshows : Shows id emission out mailbox) (token : ℕ × List UInt8) :
    Shows id (emission.deliver token) (out ++ emission.tokenHanded token)
      (if token.1 = id then mailbox.push token.2 else mailbox) := by
  refine ⟨by rw [keys_deliver]; exact hshows.keyed, ?_, ?_⟩
  · rw [deliveryOf_deliver, hshows.delivery]
    split
    · rw [Mailbox.push_delivery]
    · rfl
  · rw [tokenHanded_eq, List.filter_append, List.map_append, filter_map_mk, hshows.received]
    split
    · next hid => rw [Mailbox.push_received, hid, hshows.delivery]
    · rw [List.append_nil]

theorem batch (hshows : Shows id emission out mailbox) (batch : List (ℕ × List UInt8)) :
    Shows id (batch.foldl Emission.deliver emission) (out ++ emission.batchHanded batch)
      (((batch.filter fun token => token.1 = id).map Prod.snd).foldl Mailbox.push mailbox) := by
  induction batch generalizing emission out mailbox with
  | nil => simpa [batchHanded] using hshows
  | cons token batch ih =>
      have hrest := ih (hshows.deliver token)
      rw [List.append_assoc] at hrest
      by_cases hid : token.1 = id <;> simpa [hid, batchHanded] using hrest

theorem receive (hshows : Shows id emission out mailbox) (event : EmissionEvent) :
    Shows id (emission.receive event) (out ++ emission.handed event)
      (mailbox.receive id event) := by
  have herased : ∀ other, ((emission.live.eraseP fun entry => entry.1 = other).map
      Prod.fst).Nodup := fun other => (List.eraseP_sublist.map Prod.fst).nodup hshows.keyed
  have habsent := fun other id => find?_eraseP_key hshows.keyed other id
  cases event with
  | tokens batch => exact hshows.batch batch
  | admitted other emitter detok completion =>
      refine ⟨?_, ?_, ?_⟩
      · rw [Emission.receive, List.map_cons, List.nodup_cons]
        refine ⟨fun hmem => ?_, herased other⟩
        obtain ⟨entry, hentry, hkey⟩ := List.mem_map.mp hmem
        have hnone := habsent other other
        rw [if_pos rfl, List.find?_eq_none] at hnone
        exact hnone entry hentry (by simpa using hkey)
      · by_cases hid : other = id
        · simp [deliveryOf, Emission.receive, Mailbox.receive, hid]
        · have hdelivery := hshows.delivery
          simp only [deliveryOf, Emission.receive, Mailbox.receive, if_neg hid] at hdelivery ⊢
          rw [List.find?_cons_of_neg (by simpa using hid), habsent, if_neg hid, hdelivery]
      · rw [handed, List.append_nil, hshows.received, Mailbox.receive]
        split <;> rfl
  | retire other reply =>
      have hdelivery := hshows.delivery
      have hreceived := hshows.received
      simp only [Emission.receive, handed, Mailbox.receive]
      cases hfind : emission.live.find? fun entry => decide (entry.1 = other) with
      | none =>
          dsimp only
          rw [List.append_nil]
          split
          · next hid =>
              subst hid
              rw [deliveryOf, hfind] at hdelivery
              simpa [← hdelivery] using hshows
          · exact hshows
      | some found =>
          refine ⟨herased other, ?_, ?_⟩
          · rw [deliveryOf, habsent]
            split
            · next hid =>
                subst hid
                rw [deliveryOf, hfind] at hdelivery
                simp [← hdelivery]
            · exact hdelivery
          · rw [List.filter_append, List.map_append, filter_map_mk, hreceived]
            split
            · next hid =>
                subst hid
                rw [deliveryOf, hfind] at hdelivery
                simp [← hdelivery]
            · rw [List.append_nil]

/-- The thread shows a request its mailbox, whatever comes. -/
theorem run (hshows : Shows id emission out mailbox) (events : List EmissionEvent) :
    Shows id (events.foldl Emission.receive emission) (out ++ emission.allHanded events)
      (events.foldl (Mailbox.receive id) mailbox) := by
  induction events generalizing emission out mailbox with
  | nil => simpa [allHanded] using hshows
  | cons event events ih =>
      rw [allHanded, ← List.append_assoc]
      exact ih (hshows.receive event)

end Emission.Shows

theorem received_eq (id : ℕ) (events : List EmissionEvent) :
    received id events = (events.foldl (Mailbox.receive id) .empty).received :=
  ((Emission.Shows.spawn id).run events).received

/-! ## Other requests' events -/

/-- What of an event is about one request. -/
def EmissionEvent.about (id : ℕ) : EmissionEvent → Option EmissionEvent
  | .admitted other emitter detok completion =>
    if other = id then some (.admitted other emitter detok completion) else none
  | .tokens batch =>
    match batch.filter fun token => token.1 = id with
    | [] => none
    | own => some (.tokens own)
  | .retire other reply => if other = id then some (.retire other reply) else none

theorem Mailbox.receive_about (id : ℕ) (mailbox : Mailbox) (event : EmissionEvent) :
    mailbox.receive id event = (event.about id).elim mailbox (mailbox.receive id) := by
  cases event with
  | admitted other emitter detok completion =>
      by_cases hid : other = id <;> simp [EmissionEvent.about, Mailbox.receive, hid]
  | retire other reply =>
      by_cases hid : other = id <;> simp [EmissionEvent.about, Mailbox.receive, hid]
  | tokens batch =>
      simp only [EmissionEvent.about]
      split
      · next hown => simp [Mailbox.receive, hown]
      · simp [Mailbox.receive, List.filter_filter]

/-- **Other requests' events change nothing**: what a request receives is what it
receives from the events about it. -/
theorem received_about (id : ℕ) (events : List EmissionEvent) :
    received id events = received id (events.filterMap (EmissionEvent.about id)) := by
  rw [received_eq, received_eq]
  generalize Mailbox.empty = mailbox
  congr 1
  induction events generalizing mailbox with
  | nil => rfl
  | cons event events ih =>
      rw [List.foldl_cons, ih, Mailbox.receive_about]
      cases habout : event.about id with
      | none => rw [List.filterMap_cons_none habout]; rfl
      | some own => rw [List.filterMap_cons_some habout]; rfl

/-! ## From admission to reply -/

/-- The bytes shipped, with the ids they were shipped for. -/
def shipments (events : List EmissionEvent) : List (ℕ × List UInt8) :=
  events.flatMap fun event =>
    match event with
    | .tokens batch => batch
    | _ => []

/-- The pieces shipped for one request, in order. -/
def piecesFor (events : List EmissionEvent) (id : ℕ) : List (List UInt8) :=
  ((shipments events).filter fun entry => entry.1 = id).map Prod.snd

theorem shipments_append (events more : List EmissionEvent) :
    shipments (events ++ more) = shipments events ++ shipments more :=
  List.flatMap_append

theorem piecesFor_append (events more : List EmissionEvent) (id : ℕ) :
    piecesFor (events ++ more) id = piecesFor events id ++ piecesFor more id := by
  simp [piecesFor, shipments_append]

/-- The events about one request come in order: it is handed over once, with its own
emitter and completion and an empty buffer, and only between that and its first
retirement are bytes shipped for it. -/
structure Orderly (id emitter completion : ℕ) (events : List EmissionEvent) : Prop where
  handed : ∀ emitter' detok completion', .admitted id emitter' detok completion' ∈ events →
    emitter' = emitter ∧ detok = .new ∧ completion' = completion
  once : (admittedIds events).Nodup
  shipped : ∀ sent batch, sent ++ [.tokens batch] <+: events →
    ∀ token ∈ batch, token.1 ∈ admittedIds sent ∧ token.1 ∉ retiredIds sent
  retired : ∀ sent, sent <+: events → ∀ id ∈ retiredIds sent, id ∈ admittedIds sent

theorem Orderly.initial {id emitter completion : ℕ} {events sent : List EmissionEvent}
    (horderly : Orderly id emitter completion events) (hsent : sent <+: events) :
    Orderly id emitter completion sent where
  handed := fun emitter' detok completion' hmem =>
    horderly.handed emitter' detok completion' (hsent.subset hmem)
  once := (((hsent.sublist.filterMap EmissionEvent.admission).map Prod.fst)).nodup horderly.once
  shipped := fun before batch hbefore => horderly.shipped before batch (hbefore.trans hsent)
  retired := fun before hbefore => horderly.retired before (hbefore.trans hsent)

/-- How far a request has come, and what its mailbox holds then. -/
inductive Stage (id emitter completion : ℕ) (heard : List EmissionEvent) : Mailbox → Prop
  | waiting (hadmitted : id ∉ admittedIds heard) (hpieces : piecesFor heard id = []) :
      Stage id emitter completion heard .empty
  | streaming (texts : List (List Char)) (held : List UInt8) (hadmitted : id ∈ admittedIds heard)
      (hretired : id ∉ retiredIds heard)
      (hassembled : Assembled (piecesFor heard id).flatten texts.flatten held) :
      Stage id emitter completion heard
        ⟨some ⟨emitter, ⟨held⟩, completion⟩, texts.map (.text emitter)⟩
  | answered (texts : List (List Char)) (reply : InferenceResult Stats)
      (hadmitted : id ∈ admittedIds heard)
      (hreply : (retirements heard).find? (fun entry => entry.1 = id) = some (id, reply))
      (htext : texts.flatten = Utf8Buffer.fromUtf8Lossy (piecesFor heard id).flatten) :
      Stage id emitter completion heard
        ⟨none, texts.map (.text emitter) ++ [.completed completion reply]⟩

/-- Pushing pieces hands on what they assemble to. -/
theorem Mailbox.push_pieces (pieces : List (List UInt8)) {emitter completion : ℕ}
    {bytes held : List UInt8} {texts : List (List Char)}
    (hassembled : Assembled bytes texts.flatten held) :
    ∃ (texts' : List (List Char)) (held' : List UInt8), pieces.foldl Mailbox.push
        ⟨some ⟨emitter, ⟨held⟩, completion⟩, texts.map (.text emitter)⟩ =
          ⟨some ⟨emitter, ⟨held'⟩, completion⟩, texts'.map (.text emitter)⟩ ∧
      Assembled (bytes ++ pieces.flatten) texts'.flatten held' := by
  induction pieces generalizing bytes held texts with
  | nil => exact ⟨texts, held, rfl, by simpa using hassembled⟩
  | cons piece pieces ih =>
      obtain ⟨_, text, held', _, _, hpush, hmore⟩ := Utf8Buffer.push_leaves ⟨held⟩ piece
      have hnext : Assembled (bytes ++ piece)
          (texts ++ (if text = [] then none else some text).toList).flatten held' := by
        have htext : (if text = [] then none else some text).toList.flatten = text := by
          split <;> simp_all
        rw [List.flatten_append, htext]
        exact hassembled.append hmore
      obtain ⟨texts', held'', hpieces, hwhole⟩ := ih hnext
      refine ⟨texts', held'', ?_, by simpa using hwhole⟩
      rw [← hpieces, List.foldl_cons]
      simp [Mailbox.push, Delivery.deliver, hpush]

/-- An event that is not about a request shows in none of its columns. -/
theorem columns_of_about_none {id : ℕ} {event : EmissionEvent} (habout : event.about id = none) :
    id ∉ admittedIds [event] ∧ id ∉ retiredIds [event] ∧ piecesFor [event] id = [] := by
  cases event with
  | admitted other emitter detok completion =>
      have hid : other ≠ id := by simpa [EmissionEvent.about] using habout
      refine ⟨?_, List.not_mem_nil, rfl⟩
      show id ∉ [other]
      simpa using hid.symm
  | retire other reply =>
      have hid : other ≠ id := by simpa [EmissionEvent.about] using habout
      refine ⟨List.not_mem_nil, ?_, rfl⟩
      show id ∉ [other]
      simpa using hid.symm
  | tokens batch =>
      refine ⟨List.not_mem_nil, List.not_mem_nil, ?_⟩
      have hown : batch.filter (fun token => token.1 = id) = [] := by
        rw [EmissionEvent.about] at habout
        split at habout
        · assumption
        · simp at habout
      show (List.filter (fun token : ℕ × List UInt8 => decide (token.1 = id))
        (batch ++ [])).map Prod.snd = []
      rw [List.append_nil, hown, List.map_nil]

theorem mem_admittedIds_append {id : ℕ} {heard more : List EmissionEvent} :
    id ∈ admittedIds (heard ++ more) ↔ id ∈ admittedIds heard ∨ id ∈ admittedIds more := by
  rw [admittedIds_append, List.mem_append]

theorem mem_retiredIds_append {id : ℕ} {heard more : List EmissionEvent} :
    id ∈ retiredIds (heard ++ more) ↔ id ∈ retiredIds heard ∨ id ∈ retiredIds more := by
  rw [retiredIds_append, List.mem_append]

/-- The first retirement stays the first. -/
theorem find?_retirements_append {id : ℕ} {heard : List EmissionEvent}
    {found : ℕ × InferenceResult Stats}
    (hreply : (retirements heard).find? (fun entry => entry.1 = id) = some found)
    (more : List EmissionEvent) :
    (retirements (heard ++ more)).find? (fun entry => entry.1 = id) = some found := by
  rw [retirements_append, List.find?_append, hreply]
  rfl

namespace Stage

variable {id emitter completion : ℕ} {heard : List EmissionEvent} {mailbox : Mailbox}

/-- An event about somebody else leaves a request where it is. -/
theorem skip (hstage : Stage id emitter completion heard mailbox) {event : EmissionEvent}
    (habout : event.about id = none) : Stage id emitter completion (heard ++ [event]) mailbox := by
  obtain ⟨hadmitted, hretired, hpieces⟩ := columns_of_about_none habout
  have hpieces' : piecesFor (heard ++ [event]) id = piecesFor heard id := by
    rw [piecesFor_append, hpieces, List.append_nil]
  cases hstage with
  | waiting hwaiting hnone =>
      exact .waiting (by simp [mem_admittedIds_append, hwaiting, hadmitted])
        (hpieces'.trans hnone)
  | streaming texts held hadmitted' hretired' hassembled =>
      exact .streaming texts held (mem_admittedIds_append.mpr (Or.inl hadmitted'))
        (by simp [mem_retiredIds_append, hretired', hretired]) (hpieces' ▸ hassembled)
  | answered texts reply hadmitted' hreply htext =>
      exact .answered texts reply (mem_admittedIds_append.mpr (Or.inl hadmitted'))
        (find?_retirements_append hreply _) (hpieces' ▸ htext)

theorem admitted (hstage : Stage id emitter completion heard mailbox)
    (hfresh : id ∉ admittedIds heard) (hretired : id ∉ retiredIds heard) :
    Stage id emitter completion (heard ++ [.admitted id emitter .new completion])
      (mailbox.receive id (.admitted id emitter .new completion)) := by
  cases hstage with
  | waiting _ hpieces =>
      have hpieces' : piecesFor (heard ++ [.admitted id emitter .new completion]) id = [] := by
        rw [piecesFor_append, hpieces]
        rfl
      have hempty : Mailbox.receive id .empty (.admitted id emitter .new completion) =
          ⟨some ⟨emitter, ⟨[]⟩, completion⟩, ([] : List (List Char)).map (.text emitter)⟩ :=
        if_pos rfl
      rw [hempty]
      refine .streaming [] [] (mem_admittedIds_append.mpr (Or.inr List.mem_cons_self)) ?_ ?_
      · exact fun hmem => (mem_retiredIds_append.mp hmem).elim hretired List.not_mem_nil
      · rw [hpieces']
        exact .held rfl
  | streaming _ _ hadmitted => exact absurd hadmitted hfresh
  | answered _ _ hadmitted => exact absurd hadmitted hfresh

theorem ship (hstage : Stage id emitter completion heard mailbox)
    {batch : List (ℕ × List UInt8)} (hadmitted : id ∈ admittedIds heard)
    (hretired : id ∉ retiredIds heard) :
    Stage id emitter completion (heard ++ [.tokens batch])
      (mailbox.receive id (.tokens batch)) := by
  cases hstage with
  | waiting hwaiting => exact absurd hadmitted hwaiting
  | streaming texts held _ _ hassembled =>
      have hpieces : piecesFor (heard ++ [.tokens batch]) id = piecesFor heard id ++
          (batch.filter fun token => token.1 = id).map Prod.snd := by
        rw [piecesFor_append]
        simp [piecesFor, shipments]
      obtain ⟨texts', held', hpushed, hwhole⟩ := @Mailbox.push_pieces
        ((batch.filter fun token => token.1 = id).map Prod.snd) emitter completion _ _ _ hassembled
      rw [Mailbox.receive, hpushed]
      refine .streaming texts' held' (mem_admittedIds_append.mpr (Or.inl hadmitted)) ?_ ?_
      · exact fun hmem => (mem_retiredIds_append.mp hmem).elim hretired List.not_mem_nil
      · rw [hpieces, List.flatten_append]
        exact hwhole
  | answered _ reply _ hreply =>
      refine absurd (List.mem_map.mpr ⟨(id, reply), List.mem_of_find?_eq_some hreply, rfl⟩) hretired

/-- The flush comes before the reply, and a second retirement finds nobody. -/
theorem retire (hstage : Stage id emitter completion heard mailbox)
    (hadmitted : id ∈ admittedIds heard) (reply : InferenceResult Stats) :
    Stage id emitter completion (heard ++ [.retire id reply])
      (mailbox.receive id (.retire id reply)) := by
  have hpieces : piecesFor (heard ++ [.retire id reply]) id = piecesFor heard id := by
    rw [piecesFor_append]
    exact List.append_nil _
  have hadmitted' : id ∈ admittedIds (heard ++ [.retire id reply]) :=
    mem_admittedIds_append.mpr (Or.inl hadmitted)
  cases hstage with
  | waiting hwaiting => exact absurd hadmitted hwaiting
  | streaming texts held _ hretired hassembled =>
      have hfirst : (retirements heard).find? (fun entry => entry.1 = id) = none :=
        List.find?_eq_none.mpr fun entry hentry hid =>
          hretired (List.mem_map.mpr ⟨entry, hentry, of_decide_eq_true hid⟩)
      have hflushed := @Utf8Buffer.finish_text ⟨held⟩ hassembled.cut
      have hmailbox : Mailbox.receive id
          ⟨some ⟨emitter, ⟨held⟩, completion⟩, texts.map (.text emitter)⟩ (.retire id reply) =
            ⟨none, (texts ++ (Utf8Buffer.finish ⟨held⟩).1.toList).map (.text emitter) ++
              [.completed completion reply]⟩ := by
        simp [Mailbox.receive, Delivery.finish]
      rw [hmailbox]
      refine .answered _ reply hadmitted' ?_ ?_
      · rw [retirements_append, List.find?_append, hfirst]
        simp [retirements, EmissionEvent.retirement]
      · rw [hpieces, Utf8Buffer.fromUtf8Lossy_eq hassembled, List.flatten_append, ← hflushed]
        cases (Utf8Buffer.finish ⟨held⟩).1 <;> simp
  | answered texts first _ hreply htext =>
      have hmailbox : Mailbox.receive id
          ⟨none, texts.map (.text emitter) ++ [.completed completion first]⟩ (.retire id reply) =
            ⟨none, texts.map (.text emitter) ++ [.completed completion first]⟩ := if_pos rfl
      rw [hmailbox]
      exact .answered texts first hadmitted' (find?_retirements_append hreply _) (hpieces ▸ htext)

/-- One event takes a request one stage on, or leaves it where it is. -/
theorem receive (hstage : Stage id emitter completion heard mailbox) (event : EmissionEvent)
    (horderly : Orderly id emitter completion (heard ++ [event])) :
    Stage id emitter completion (heard ++ [event]) (mailbox.receive id event) := by
  cases habout : event.about id with
  | none =>
      rw [Mailbox.receive_about, habout]
      exact hstage.skip habout
  | some own =>
      cases event with
      | admitted other emitter' detok completion' =>
          obtain rfl : other = id := by
            by_contra hid
            simp [EmissionEvent.about, hid] at habout
          obtain ⟨rfl, rfl, rfl⟩ := horderly.handed emitter' detok completion' (by simp)
          have honce := horderly.once
          rw [admittedIds_append] at honce
          have hfresh : other ∉ admittedIds heard := fun hmem =>
            (List.nodup_append.mp honce).2.2 other hmem other List.mem_cons_self rfl
          exact hstage.admitted hfresh fun hmem =>
            hfresh (horderly.retired heard (List.prefix_append _ _) other hmem)
      | tokens batch =>
          obtain ⟨token, htoken, hid⟩ : ∃ token ∈ batch, token.1 = id := by
            by_contra hnobody
            push Not at hnobody
            have hown : batch.filter (fun token => token.1 = id) = [] :=
              List.filter_eq_nil_iff.mpr (by simpa using hnobody)
            simp [EmissionEvent.about, hown] at habout
          obtain ⟨hadmitted, hretired⟩ := horderly.shipped heard batch List.prefix_rfl token htoken
          rw [hid] at hadmitted hretired
          exact hstage.ship hadmitted hretired
      | retire other reply =>
          obtain rfl : other = id := by
            by_contra hid
            simp [EmissionEvent.about, hid] at habout
          have hadmitted := horderly.retired _ List.prefix_rfl other
            (mem_retiredIds_append.mpr (Or.inr List.mem_cons_self))
          refine hstage.retire ((mem_admittedIds_append.mp hadmitted).resolve_right ?_) reply
          exact List.not_mem_nil

end Stage

/-- What a request's mailbox holds after orderly events. -/
theorem stage_of_orderly {id emitter completion : ℕ} {events : List EmissionEvent}
    (horderly : Orderly id emitter completion events) :
    Stage id emitter completion events (events.foldl (Mailbox.receive id) .empty) := by
  induction events using List.reverseRecOn with
  | nil => exact .waiting List.not_mem_nil rfl
  | append_singleton heard event ih =>
      rw [List.foldl_append]
      exact (ih (horderly.initial (List.prefix_append _ _))).receive event horderly

end BurnLm.Inference
