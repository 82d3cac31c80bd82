/-
# The window of rotary positions

Generation that runs past the rotation table shifts it: the table is computed
anew from the current position on, and from then on its rows are counted from
there. How far a table has been shifted depends on the widths of all calls so
far. This module follows the counters over any calls and finds every row that is
read to be the one of its absolute position.

The table is a parameter. What is relied on is that it is computed anew from the
start a shift names, for starts behind the one before.
-/

import Mathlib.Data.Nat.Basic

namespace BurnLm.Llama

universe u

variable {ρ : Type u}

/-- A precomputed rotation table. -/
structure RopeTable (ρ : Type u) where
  rows : ρ → ℕ
  /-- The absolute position a row is computed for. -/
  positionAt : ρ → ℕ → ℕ
  shift : ρ → ℕ → ρ
  reset : ρ → ρ

/-- Shifting forward computes the rows from the new start on, and resetting from
zero on. -/
structure RopeTable.Rebases (table : RopeTable ρ) : Prop where
  rows_shift : ∀ rope start, table.positionAt rope 0 < start →
    table.rows (table.shift rope start) = table.rows rope
  positionAt_shift : ∀ rope start, table.positionAt rope 0 < start →
    ∀ row < table.rows rope, table.positionAt (table.shift rope start) row = start + row
  rows_reset : ∀ rope, table.rows (table.reset rope) = table.rows rope
  positionAt_reset : ∀ rope, ∀ row < table.rows rope, table.positionAt (table.reset rope) row = row

/-- Where generation is, and where the table begins. -/
structure PositionalEncodingState (ρ : Type u) where
  rope : ρ
  maxSeqLen : ℕ
  nextPosition : ℕ
  currSeqLen : ℕ
  startOffset : ℕ

namespace PositionalEncodingState

/-- The state over a table: its rows are the longest sequence. -/
def new (table : RopeTable ρ) (rope : ρ) : PositionalEncodingState ρ where
  rope := rope
  maxSeqLen := table.rows rope
  nextPosition := 0
  currSeqLen := 0
  startOffset := 0

/-- The absolute position, without the current input. -/
def position (state : PositionalEncodingState ρ) : ℕ := state.nextPosition - state.currSeqLen

/-- The row of the current position. -/
def index (state : PositionalEncodingState ρ) : ℕ :=
  if 0 < state.startOffset then state.position - state.startOffset else state.position

/-- The counters moved over an input. -/
def advance (state : PositionalEncodingState ρ) (seqLen : ℕ) : PositionalEncodingState ρ :=
  { state with currSeqLen := seqLen, nextPosition := state.nextPosition + seqLen }

/-- The start a call asks the table to be shifted to. -/
def requested (state : PositionalEncodingState ρ) (seqLen : ℕ) : Option ℕ :=
  let state := state.advance seqLen
  if state.maxSeqLen + state.startOffset < state.nextPosition then some state.position else none

def prepare (table : RopeTable ρ) (state : PositionalEncodingState ρ) (seqLen : ℕ) :
    PositionalEncodingState ρ :=
  match state.requested seqLen with
  | some start =>
    { state.advance seqLen with rope := table.shift state.rope start, startOffset := start }
  | none => state.advance seqLen

def reset (table : RopeTable ρ) (state : PositionalEncodingState ρ) : PositionalEncodingState ρ :=
  { state with
    rope := table.reset state.rope
    nextPosition := 0
    currSeqLen := 0
    startOffset := 0 }

/-- One call. -/
inductive Call
  | prepare (seqLen : ℕ)
  | reset
  deriving DecidableEq, Repr

def apply (table : RopeTable ρ) (state : PositionalEncodingState ρ) :
    Call → PositionalEncodingState ρ
  | .prepare seqLen => state.prepare table seqLen
  | .reset => state.reset table

def run (table : RopeTable ρ) (state : PositionalEncodingState ρ) (calls : List Call) :
    PositionalEncodingState ρ :=
  calls.foldl (apply table) state

/-- The counters are in order and inside the table, which begins at the offset. -/
structure InWindow (table : RopeTable ρ) (state : PositionalEncodingState ρ) : Prop where
  curr_le : state.currSeqLen ≤ state.nextPosition
  offset_le : state.startOffset ≤ state.position
  next_le : state.nextPosition ≤ state.maxSeqLen + state.startOffset
  rows_eq : table.rows state.rope = state.maxSeqLen
  based : ∀ row < state.maxSeqLen, table.positionAt state.rope row = state.startOffset + row

namespace InWindow

variable {table : RopeTable ρ} {state : PositionalEncodingState ρ}

theorem new {rope : ρ}
    (hfresh : ∀ row < table.rows rope, table.positionAt rope row = row) :
    InWindow table (PositionalEncodingState.new table rope) where
  curr_le := le_rfl
  offset_le := le_rfl
  next_le := Nat.zero_le _
  rows_eq := rfl
  based row hrow := (hfresh row hrow).trans (Nat.zero_add row).symm

/-- What is requested is the position so far, and lies behind the offset. -/
theorem requested_eq_some (hstate : InWindow table state) {seqLen start : ℕ}
    (hfits : seqLen ≤ state.maxSeqLen) (hstart : state.requested seqLen = some start) :
    start = state.nextPosition ∧ state.startOffset < start ∧
      table.positionAt state.rope 0 = state.startOffset := by
  simp only [requested, advance, position, Nat.add_sub_cancel_right] at hstart
  split at hstart
  · rename_i hover
    obtain rfl := Option.some.inj hstart
    have hnext := hstate.next_le
    refine ⟨rfl, by omega, ?_⟩
    rw [hstate.based 0 (by omega), Nat.add_zero]
  · simp at hstart

theorem requested_eq_none {seqLen : ℕ} (hnone : state.requested seqLen = none) :
    state.nextPosition + seqLen ≤ state.maxSeqLen + state.startOffset := by
  by_contra hover
  simp [requested, advance, not_le.mp hover] at hnone

/-- **One call.** An input that fits the table keeps the counters inside it. -/
theorem prepare (htable : table.Rebases) (hstate : InWindow table state) {seqLen : ℕ}
    (hfits : seqLen ≤ state.maxSeqLen) : InWindow table (state.prepare table seqLen) := by
  unfold PositionalEncodingState.prepare
  have hoffset : state.startOffset ≤ state.nextPosition :=
    le_trans hstate.offset_le (Nat.sub_le _ _)
  rcases hrequest : state.requested seqLen with _ | start
  · exact
      { curr_le := Nat.le_add_left _ _
        offset_le := by simpa [advance, position] using hoffset
        next_le := requested_eq_none hrequest
        rows_eq := hstate.rows_eq
        based := hstate.based }
  · -- The table begins at the position of this input.
    obtain ⟨rfl, hforward, hbase⟩ := hstate.requested_eq_some hfits hrequest
    rw [← hbase] at hforward
    exact
      { curr_le := Nat.le_add_left _ _
        offset_le := by simp [advance, position]
        next_le := by simpa [advance, Nat.add_comm] using hfits
        rows_eq := (htable.rows_shift _ _ hforward).trans hstate.rows_eq
        based := fun row hrow =>
          htable.positionAt_shift _ _ hforward row (hstate.rows_eq.symm ▸ hrow) }

theorem reset (htable : table.Rebases) (hstate : InWindow table state) :
    InWindow table (state.reset table) where
  curr_le := le_rfl
  offset_le := le_rfl
  next_le := Nat.zero_le _
  rows_eq := (htable.rows_reset _).trans hstate.rows_eq
  based row hrow :=
    (htable.positionAt_reset _ row (hstate.rows_eq.symm ▸ hrow)).trans (Nat.zero_add row).symm

/-- The window is never resized. -/
theorem maxSeqLen_apply (call : Call) : (state.apply table call).maxSeqLen = state.maxSeqLen := by
  cases call with
  | prepare seqLen =>
      simp only [apply, PositionalEncodingState.prepare]
      split <;> rfl
  | reset => rfl

/-- Whatever calls that fit are made, the counters stay inside the table. -/
theorem run (htable : table.Rebases) (calls : List Call) :
    ∀ {state : PositionalEncodingState ρ}, InWindow table state →
      (∀ seqLen, .prepare seqLen ∈ calls → seqLen ≤ state.maxSeqLen) →
        InWindow table (state.run table calls) ∧
          (state.run table calls).maxSeqLen = state.maxSeqLen := by
  induction calls with
  | nil => exact fun hstate _ => ⟨hstate, rfl⟩
  | cons call calls ih =>
      intro state hstate hcalls
      have happly : InWindow table (state.apply table call) := by
        cases call with
        | prepare seqLen => exact hstate.prepare htable (hcalls seqLen List.mem_cons_self)
        | reset => exact hstate.reset htable
      obtain ⟨hrun, hmax⟩ := ih happly fun seqLen hcall => by
        rw [maxSeqLen_apply]
        exact hcalls seqLen (List.mem_cons_of_mem _ hcall)
      exact ⟨hrun, hmax.trans (maxSeqLen_apply call)⟩

/-- The row of the current position counts from the offset. -/
theorem index_add (hstate : InWindow table state) :
    state.index + state.startOffset = state.position := by
  have hoffset := hstate.offset_le
  unfold index
  split <;> omega

theorem index_add_curr_le (hstate : InWindow table state) :
    state.index + state.currSeqLen ≤ state.maxSeqLen := by
  have hindex := hstate.index_add
  have hcurr := hstate.curr_le
  have hnext := hstate.next_le
  unfold position at hindex
  omega

end InWindow

/-- **Every row read is the row of its absolute position.** After any calls whose
inputs fit the table, the subtractions of the counters do not underflow, the row
of the current position counted from the offset is that position, the rows of
the current input are inside the table, and the table's rows there are those of
the input's own positions; and any next call asks the table only to be shifted
forward. -/
theorem window_consistent {table : RopeTable ρ} (htable : table.Rebases) {rope : ρ}
    (hfresh : ∀ row < table.rows rope, table.positionAt rope row = row) (calls : List Call)
    (hcalls : ∀ seqLen, .prepare seqLen ∈ calls → seqLen ≤ table.rows rope) :
    let state := (new table rope).run table calls
    state.currSeqLen ≤ state.nextPosition ∧ state.startOffset ≤ state.position ∧
      state.index + state.startOffset = state.position ∧
      state.index + state.currSeqLen ≤ state.maxSeqLen ∧
      table.rows state.rope = state.maxSeqLen ∧ state.maxSeqLen = table.rows rope ∧
      (∀ row < state.currSeqLen,
        table.positionAt state.rope (state.index + row) = state.position + row) ∧
      ∀ seqLen ≤ state.maxSeqLen, ∀ start, state.requested seqLen = some start →
        state.startOffset < start ∧ table.positionAt state.rope 0 = state.startOffset := by
  intro state
  obtain ⟨hstate, hmax⟩ := InWindow.run htable calls (InWindow.new hfresh) hcalls
  have hinside := hstate.index_add_curr_le
  refine ⟨hstate.curr_le, hstate.offset_le, hstate.index_add, hinside, hstate.rows_eq, hmax,
    fun row hrow => ?_, fun seqLen hfits start hstart =>
      (hstate.requested_eq_some hfits hstart).2⟩
  rw [hstate.based _ (lt_of_lt_of_le (Nat.add_lt_add_left hrow _) hinside), ← hstate.index_add]
  omega

/-- A table as its length and the position of its first row. -/
def countingTable : RopeTable (ℕ × ℕ) where
  rows rope := rope.1
  positionAt rope row := rope.2 + row
  shift rope start := (rope.1, start)
  reset rope := (rope.1, 0)

theorem countingTable_rebases : countingTable.Rebases where
  rows_shift _ _ _ := rfl
  positionAt_shift _ _ _ _ _ := rfl
  rows_reset _ := rfl
  positionAt_reset _ row _ := Nat.zero_add row

/-- A table of sixteen rows, shifted twice. -/
theorem window_consistent_shifted :
    let state := (new countingTable (16, 0)).run countingTable
      ([14, 1, 1, 8, 1, 8, 1].map .prepare)
    state.position = 33 ∧ state.index = 8 ∧ state.rope.2 = 25 ∧
      state.index + state.startOffset = state.position ∧
      ∀ row < state.currSeqLen,
        countingTable.positionAt state.rope (state.index + row) = state.position + row := by
  have hwindow := @window_consistent _ countingTable countingTable_rebases (16, 0)
    (fun row _ => Nat.zero_add row) ([14, 1, 1, 8, 1, 8, 1].map .prepare) fun seqLen hcall => by
      obtain ⟨_, hwidth, ⟨⟩⟩ := List.mem_map.mp hcall
      exact (by decide : ∀ width ∈ [14, 1, 1, 8, 1, 8, 1], width ≤ 16) _ hwidth
  exact ⟨rfl, rfl, rfl, hwindow.2.2.1, hwindow.2.2.2.2.2.2.1⟩

end PositionalEncodingState

end BurnLm.Llama
