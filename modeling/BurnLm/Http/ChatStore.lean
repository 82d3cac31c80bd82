/-
# Switching models

The chat store remembers one model, the one it served last. A request for
another model first unloads the remembered one, then remembers the new one, and
tells the client that the old one is gone.

An unload can be refused, for instance while requests are still in flight. The
store logs the refusal and carries on as if it had not happened. The runs below
interleave requests with what happens to the models outside the store: loads,
and models lost on their own.
-/

import BurnLm.Inference.Batching

namespace BurnLm.Http

open BurnLm.Inference

/-- Why a request has no model. -/
inductive ServerError
  | modelNotFound (name : String)
  deriving DecidableEq, Repr

/-- The registered models and the one served last, which is registered. -/
structure ChatStore where
  /-- The names the registry is keyed by, in the order it is searched. -/
  registry : List String
  currentPluginName : Option String
  current_mem : ∀ name ∈ currentPluginName, name ∈ registry

namespace ChatStore

def new (registry : List String) : ChatStore := ⟨registry, none, by simp⟩

/-- A request's answer (the model, and an old model said to be unloaded), the
store after it, and the model asked to unload. -/
structure Served where
  answer : Except ServerError (String × Option String)
  store : ChatStore
  unloading : Option String

/-- Turn to a registered model. `unload` is what the models answer when asked to
unload. -/
def switchTo (store : ChatStore) {requested : String} (hrequested : requested ∈ store.registry)
    (unload : String → InferenceResult Unit) : Served :=
  let switched : ChatStore :=
    { store with
      currentPluginName := some requested
      current_mem := by simpa using hrequested }
  match store.currentPluginName with
  | none => ⟨.ok (requested, none), switched, none⟩
  -- looking the current model up cannot fail: it is registered
  | some current =>
    if current ≠ requested then
      match unload current with
      -- a refusal is logged, and nothing else
      | .error _ => ⟨.ok (requested, some current), switched, some current⟩
      | .ok _ => ⟨.ok (requested, some current), switched, some current⟩
    else ⟨.ok (requested, none), switched, none⟩

/-- The registered model a name stands for, whatever its case. -/
def lookup (toLowercase : String → String) (store : ChatStore) (name : String) : Option String :=
  store.registry.find? fun pname => toLowercase pname == toLowercase name

/-- Resolve a model by name and switch to it. -/
def getPlugin (toLowercase : String → String) (store : ChatStore) (name : String)
    (unload : String → InferenceResult Unit) : Served :=
  match hfound : store.lookup toLowercase name with
  | none => ⟨.error (.modelNotFound name), store, none⟩
  | some _ => store.switchTo (List.mem_of_find?_eq_some hfound) unload

/-- The model a request switches away from. -/
def leaving (toLowercase : String → String) (store : ChatStore) (name : String) : Option String :=
  (store.lookup toLowercase name).bind fun requested =>
    store.currentPluginName.filter (· ≠ requested)

/-- Turning to a model asks the one left to unload, and reports it as unloaded
whatever it answers. -/
theorem switchTo_eq (store : ChatStore) {requested : String}
    (hrequested : requested ∈ store.registry) (unload : String → InferenceResult Unit) :
    (store.switchTo hrequested unload).unloading = store.currentPluginName.filter (· ≠ requested) ∧
      (store.switchTo hrequested unload).answer =
        .ok (requested, store.currentPluginName.filter (· ≠ requested)) ∧
      (store.switchTo hrequested unload).store.registry = store.registry ∧
      (store.switchTo hrequested unload).store.currentPluginName = some requested := by
  unfold switchTo
  cases hcurrent : store.currentPluginName with
  | none => exact ⟨rfl, rfl, rfl, rfl⟩
  | some current =>
      by_cases hsame : current = requested
      · simp [hsame, Option.filter]
      · cases hunload : unload current <;> simp [hsame, hunload, Option.filter]

/-- What a request does: nothing if the model is unknown; otherwise the store
turns to it. -/
theorem getPlugin_cases (toLowercase : String → String) (store : ChatStore) (name : String)
    (unload : String → InferenceResult Unit) :
    let served := store.getPlugin toLowercase name unload
    (served.unloading = store.leaving toLowercase name ∧ store.leaving toLowercase name = none ∧
        served.answer = .error (.modelNotFound name) ∧ served.store = store) ∨
      ∃ requested, served.unloading = store.leaving toLowercase name ∧
        store.leaving toLowercase name = store.currentPluginName.filter (· ≠ requested) ∧
        served.answer = .ok (requested, store.leaving toLowercase name) ∧
        served.store.currentPluginName = some requested := by
  intro served
  simp only [served, getPlugin]
  split
  · next hfound => exact Or.inl ⟨by simp [leaving, hfound], by simp [leaving, hfound], rfl, rfl⟩
  · next requested hfound =>
      have hleaving : store.leaving toLowercase name =
          store.currentPluginName.filter (· ≠ requested) := by
        simp [leaving, hfound]
      obtain ⟨hunloading, hanswer, _, hcurrent⟩ :=
        store.switchTo_eq (List.mem_of_find?_eq_some hfound) unload
      exact Or.inr ⟨requested, hunloading.trans hleaving.symm, hleaving, hleaving ▸ hanswer, hcurrent⟩

end ChatStore

/-! ## A server's life -/

/-- One event: a request, with what the model it leaves answers; a model loaded
by whoever acquired it; a model lost without being asked. -/
inductive Event
  | request (name : String) (answer : InferenceResult Unit)
  | load (name : String)
  | lost (name : String)
  deriving DecidableEq

/-- The store, the models in memory, and those among them that refused their last
unload. -/
structure World where
  store : ChatStore
  loaded : List String
  refused : List String

namespace World

variable (toLowercase : String → String)

def new (registry : List String) : World := ⟨.new registry, [], []⟩

/-- A model leaves memory. -/
def drop (world : World) (name : String) : World :=
  { world with
    loaded := world.loaded.filter (· ≠ name)
    refused := world.refused.filter (· ≠ name) }

def step (world : World) : Event → World
  | .request name answer =>
    let served := world.store.getPlugin toLowercase name fun _ => answer
    let after := { world with store := served.store }
    match served.unloading, answer with
    | none, _ => after
    | some old, .ok _ => after.drop old
    | some old, .error _ =>
      { after with refused := after.refused ++ after.loaded.filter (· = old) }
  | .load name => { world with loaded := name :: world.loaded }
  | .lost name => world.drop name

def run (registry : List String) (events : List Event) : World :=
  events.foldl (step toLowercase) (new registry)

/-- What the event reports as unloaded was unloaded. -/
def Honest (world : World) (event : Event) : Prop :=
  ∀ name answer, event = .request name answer →
    ∀ requested old,
      (world.store.getPlugin toLowercase name fun _ => answer).answer =
        .ok (requested, some old) → answer = .ok ()

/-- A model still in memory after refusing is the one the store will ask to
unload next. -/
def Tracked (world : World) : Prop :=
  ∀ name ∈ world.refused, world.store.currentPluginName = some name

/-- The event is a switch, and the model left refuses to unload. -/
def Refuses (world : World) (event : Event) : Prop :=
  ∃ name error, event = .request name (.error error) ∧
    (world.store.leaving toLowercase name).isSome

variable {toLowercase}

/-- A switch that is not refused reports the truth. -/
theorem honest_of_not_refuses {world : World} {event : Event}
    (hevent : ¬ world.Refuses toLowercase event) : world.Honest toLowercase event := by
  rintro name answer rfl requested old hreported
  cases answer with
  | ok done => rfl
  | error error =>
      refine absurd ⟨name, error, rfl, ?_⟩ hevent
      rcases world.store.getPlugin_cases toLowercase name fun _ => .error error with
        ⟨_, _, hanswer, _⟩ | ⟨_, _, _, hanswer, _⟩
      · rw [hanswer] at hreported
        simp at hreported
      · have hsame := Except.ok.inj (hanswer.symm.trans hreported)
        rw [(Prod.mk.inj hsame).2]
        rfl

/-- A refused switch does not. -/
theorem not_honest_of_refuses {world : World} {event : Event}
    (hevent : world.Refuses toLowercase event) : ¬ world.Honest toLowercase event := by
  obtain ⟨name, error, rfl, hleaving⟩ := hevent
  obtain ⟨old, hold⟩ := Option.isSome_iff_exists.mp hleaving
  intro hhonest
  rcases world.store.getPlugin_cases toLowercase name fun _ => .error error with
    ⟨_, hnone, _, _⟩ | ⟨requested, _, _, hanswer, _⟩
  · rw [hnone] at hold
    simp at hold
  · rw [hold] at hanswer
    simpa using hhonest name (.error error) rfl requested old hanswer

/-- Only a refused switch leaves a model that refused. -/
theorem refused_step {world : World} {event : Event} (hevent : ¬ world.Refuses toLowercase event)
    (hworld : world.refused = []) : (world.step toLowercase event).refused = [] := by
  cases event with
  | load name => exact hworld
  | lost name => simp [step, drop, hworld]
  | request name answer =>
      have hunloading : (world.store.getPlugin toLowercase name fun _ => answer).unloading =
          world.store.leaving toLowercase name := by
        rcases world.store.getPlugin_cases toLowercase name fun _ => answer with
          ⟨hunloading, _⟩ | ⟨_, hunloading, _⟩ <;> exact hunloading
      cases hleaving : world.store.leaving toLowercase name with
      | none => simp [step, hunloading, hleaving, hworld]
      | some old =>
          cases answer with
          | ok done => simp [step, hunloading, hleaving, drop, hworld]
          | error error => exact absurd ⟨name, error, rfl, by simp [hleaving]⟩ hevent

/-- **When switching keeps track of every model.** In every run, whatever the
requests, the answers and the loads: every report of an unloaded model is true
and every model that refused is still tracked, at every point, exactly when no
switch was refused. -/
theorem switching_keeps_track_iff (toLowercase : String → String) (registry : List String)
    (events : List Event) :
    (∀ before event after, events = before ++ event :: after →
      (run toLowercase registry before).Honest toLowercase event ∧
        (run toLowercase registry (before ++ [event])).Tracked) ↔
      ∀ before event after, events = before ++ event :: after →
        ¬ (run toLowercase registry before).Refuses toLowercase event := by
  constructor
  · intro hkept before event after hsplit hrefuses
    exact not_honest_of_refuses hrefuses (hkept before event after hsplit).1
  · intro hgranted before event after hsplit
    refine ⟨honest_of_not_refuses (hgranted before event after hsplit), ?_⟩
    have hnone : ∀ front, front <+: events → (run toLowercase registry front).refused = [] := by
      intro front
      induction front using List.reverseRecOn with
      | nil => exact fun _ => rfl
      | append_singleton front last ih =>
          rintro ⟨rest, hrest⟩
          rw [run, List.foldl_append]
          refine refused_step (hgranted front last rest (by simpa using hrest.symm)) (ih ?_)
          exact ⟨last :: rest, by simpa using hrest⟩
    rw [Tracked, hnone (before ++ [event]) ⟨after, by simp [hsplit]⟩]
    simp

/-- A model is acquired and loaded, another is requested while the first is busy:
the client is told the first is gone, it stays in memory, and the store has
forgotten it. -/
theorem busy_model_forgotten :
    let before := [.request "a" (.ok ()), .load "a"]
    let event := Event.request "b" (.error (.busy 1 0))
    let world := run id ["a", "b"] before
    let after := run id ["a", "b"] (before ++ [event])
    (world.store.getPlugin id "b" fun _ => .error (.busy 1 0)).answer = .ok ("b", some "a") ∧
      after.loaded = ["a"] ∧ after.refused = ["a"] ∧ after.store.currentPluginName = some "b" := by
  decide +kernel

end World

end BurnLm.Http
