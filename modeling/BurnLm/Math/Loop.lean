/-
# Loops that stop

A loop body either asks to go round again or leaves the loop. Running it under a
bound is structural recursion on the bound, so a loop is an ordinary function
and the usual two questions about it have one answer each: an invariant of the
body is an invariant of the loop, and a measure the body decreases makes any
large enough bound irrelevant. A driver that goes round forever is a trace, and
the same measure argument says where it gets to.
-/

import Mathlib.Logic.Relation
import Mathlib.Order.RelClasses

namespace BurnLm.Math

universe u

variable {σ : Type u}

/-- Run `body` until it answers `false`, at most `bound` times. -/
def loop (body : σ → Bool × σ) : ℕ → σ → σ
  | 0, state => state
  | bound + 1, state =>
    match body state with
    | (true, next) => loop body bound next
    | (false, final) => final

/-- What the body keeps, the loop keeps. -/
theorem loop_induction {body : σ → Bool × σ} {Inv : σ → Prop}
    (hbody : ∀ state, Inv state → Inv (body state).2) (bound : ℕ) {state : σ}
    (hstate : Inv state) : Inv (loop body bound state) := by
  induction bound generalizing state with
  | zero => exact hstate
  | succ bound ih =>
      have hnext := hbody state hstate
      rw [loop]
      split
      · next next hcase => exact ih (by simpa [hcase] using hnext)
      · next final hcase => simpa [hcase] using hnext

/-- A loop whose measure fits its bound ends where its body says to leave, or
where the measure is spent. -/
theorem loop_exits {body : σ → Bool × σ} {Inv : σ → Prop} (measure : σ → ℕ)
    (hbody : ∀ state, Inv state → Inv (body state).2)
    (hdecreases : ∀ state next, Inv state → body state = (true, next) →
      measure next < measure state)
    (bound : ℕ) {state : σ} (hstate : Inv state) (hbound : measure state ≤ bound) :
    (∃ last, Inv last ∧ body last = (false, loop body bound state)) ∨
      (Inv (loop body bound state) ∧ measure (loop body bound state) = 0) := by
  induction bound generalizing state with
  | zero => exact Or.inr ⟨hstate, Nat.le_zero.mp hbound⟩
  | succ bound ih =>
      have hnext := hbody state hstate
      rw [loop]
      split
      · next next hcase =>
          have hless := hdecreases state next hstate hcase
          rw [hcase] at hnext
          exact ih hnext (by omega)
      · next final hcase => exact Or.inl ⟨state, hstate, hcase⟩

/-- The body asks to go round again. -/
def Again (body : σ → Bool × σ) (state next : σ) : Prop := body state = (true, next)

/-- A loop whose measure stays below its bound is left by its body: going round
from where it started gets to a pass that asks to leave. -/
theorem loop_leaves {body : σ → Bool × σ} {Inv : σ → Prop} (measure : σ → ℕ)
    (hbody : ∀ state next, Inv state → body state = (true, next) →
      Inv next ∧ measure next < measure state)
    (bound : ℕ) {state : σ} (hstate : Inv state) (hbound : measure state < bound) :
    ∃ last, Relation.ReflTransGen (Again body) state last ∧ Inv last ∧
      body last = (false, loop body bound state) := by
  induction bound generalizing state with
  | zero => exact absurd hbound (Nat.not_lt_zero _)
  | succ bound ih =>
      rw [loop]
      split
      · next next hcase =>
          obtain ⟨hnext, hless⟩ := hbody state next hstate hcase
          obtain ⟨last, hpasses, hlast, hleaves⟩ := ih hnext (by omega)
          exact ⟨last, .head hcase hpasses, hlast, hleaves⟩
      · next final hcase => exact ⟨state, .refl, hstate, hcase⟩

/-- A trace that keeps an invariant and whose measure goes down until it is
somewhere gets there. -/
theorem exists_of_descending {β : Type*} [LT β] [WellFoundedLT β] (measure : σ → β)
    {Inv goal : σ → Prop} (trace : ℕ → σ) (hstart : Inv (trace 0))
    (hstep : ∀ n, Inv (trace n) → goal (trace n) ∨
      (Inv (trace (n + 1)) ∧ measure (trace (n + 1)) < measure (trace n))) :
    ∃ n, Inv (trace n) ∧ goal (trace n) := by
  suffices h : ∀ value n, Inv (trace n) → measure (trace n) = value →
      ∃ m, Inv (trace m) ∧ goal (trace m) from h _ 0 hstart rfl
  intro value
  induction value using WellFoundedLT.induction with
  | ind value ih =>
      intro n hinv hn
      rcases hstep n hinv with hgoal | ⟨hnext, hless⟩
      · exact ⟨n, hinv, hgoal⟩
      · exact ih _ (hn ▸ hless) (n + 1) hnext rfl

end BurnLm.Math
