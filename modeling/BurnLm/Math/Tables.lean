/-
# Indexed tables and what they hold

A table is a list of lists read by position, with positions past the end
reading as empty. Moving a segment into or out of one row is the only update,
and the lemmas here say what such an update does to the row itself, to the
other rows, and to the multiset of everything held.

Nothing in this module knows what a row stands for.
-/

import Mathlib.Data.List.GetD
import Mathlib.Data.List.Forall2
import Mathlib.Data.List.Perm.Basic
import Mathlib.Data.List.Nodup
import Mathlib.Algebra.Order.Floor.Div
import Mathlib.Algebra.BigOperators.Group.List.Basic

namespace BurnLm.Math

open scoped List

universe u

variable {α : Type u}

/-! ## Reading a row after an update -/

/-- Reading a modified list at the modified position, provided it exists. -/
theorem getD_modify_self {rows : List α} {index : ℕ} {change : α → α} {fallback : α}
    (hindex : index < rows.length) :
    (rows.modify index change).getD index fallback = change (rows.getD index fallback) := by
  simp [List.getD_eq_getElem?_getD, hindex]

/-- The same at any position, when the change leaves the fallback alone. -/
theorem getD_modify_self_of_fixed (rows : List α) (index : ℕ) {change : α → α} {fallback : α}
    (hfixed : change fallback = fallback) :
    (rows.modify index change).getD index fallback = change (rows.getD index fallback) := by
  by_cases hindex : index < rows.length
  · exact getD_modify_self hindex
  · rw [List.getD_eq_default _ _ (by simpa using hindex),
      List.getD_eq_default _ _ (not_lt.mp hindex), hfixed]

/-- Every other position reads as before. -/
theorem getD_modify_of_ne {rows : List α} {index other : ℕ} {change : α → α} {fallback : α}
    (hne : other ≠ index) :
    (rows.modify index change).getD other fallback = rows.getD other fallback := by
  simp [List.getD_eq_getElem?_getD, Ne.symm hne]

/-- Rewriting a position to what it already was changes nothing. -/
@[simp]
theorem modify_fun_id (rows : List α) (index : ℕ) :
    (rows.modify index fun row => row) = rows :=
  List.modify_id index rows

/-- Two lists of one length that read alike at every position are equal. -/
theorem eq_of_getD_eq {first second : List α} (fallback : α)
    (hlength : first.length = second.length)
    (hread : ∀ index, first.getD index fallback = second.getD index fallback) :
    first = second := by
  refine List.ext_getElem hlength fun index hfirst hsecond => ?_
  simpa [List.getD_eq_getElem?_getD, hfirst, hsecond] using hread index

/-- As many values as distinct keys are the values of a function on keys. -/
theorem exists_map_eq {β : Type*} [DecidableEq α] [Inhabited β]
    {keys : List α}
    (hnodup : keys.Nodup) {values : List β} (hlength : values.length = keys.length) :
    ∃ value : α → β, values = keys.map value := by
  refine ⟨fun key => values.getD (keys.idxOf key) default, ?_⟩
  refine List.ext_getElem (by simpa using hlength) fun index hindex _ => ?_
  rw [List.getElem_map, hnodup.idxOf_getElem, List.getD_eq_getElem _ _ hindex]

/-- What belongs to distinctly keyed items is a function of their keys. -/
theorem exists_lookup {β γ : Type*} [DecidableEq β] [Inhabited γ] {items : List α} {key : α → β}
    (hnodup : (items.map key).Nodup) (value : α → γ) :
    ∃ lookup : β → γ, ∀ item ∈ items, lookup (key item) = value item := by
  have hlength : (items.map value).length = (items.map key).length := by simp
  obtain ⟨lookup, hlookup⟩ := exists_map_eq hnodup hlength
  rw [List.map_map, List.map_inj_left] at hlookup
  exact ⟨lookup, fun item hitem => (hlookup item hitem).symm⟩

/-- A key that occurs at most once is one item's. -/
theorem eq_of_count_map_le_one {β : Type*} [DecidableEq β] {key : α → β} {items : List α}
    {value : β} (hcount : (items.map key).count value ≤ 1) {first second : α}
    (hfirst : first ∈ items) (hsecond : second ∈ items) (hkey : key first = value)
    (hkey' : key second = value) : first = second := by
  induction items with
  | nil => exact absurd hfirst List.not_mem_nil
  | cons item items ih =>
      rw [List.map_cons, List.count_cons] at hcount
      have htail : ∀ other ∈ items, key other = value → 0 < (items.map key).count value :=
        fun other hother hsame => List.count_pos_iff.mpr (hsame ▸ List.mem_map_of_mem hother)
      rcases List.mem_cons.mp hfirst with rfl | hmem <;>
        rcases List.mem_cons.mp hsecond with rfl | hmem'
      · rfl
      · have := htail second hmem' hkey'
        simp [hkey] at hcount
        omega
      · have := htail first hmem hkey
        simp [hkey'] at hcount
        omega
      · exact ih (by omega) hmem hmem'

/-- A key nobody has. -/
theorem filter_key_eq_nil {β : Type*} [DecidableEq β] {items : List α} {key : α → β} {value : β}
    (hnobody : ∀ item ∈ items, key item ≠ value) :
    (items.filter fun item => key item = value) = [] :=
  List.filter_eq_nil_iff.mpr fun item hitem hsame => hnobody item hitem (of_decide_eq_true hsame)

/-- Distinctly keyed items are told apart by their keys. -/
theorem filter_key_eq_singleton {β : Type*} [DecidableEq β] {items : List α} {key : α → β}
    (hnodup : (items.map key).Nodup) {item : α} (hitem : item ∈ items) :
    (items.filter fun other => key other = key item) = [item] := by
  induction items with
  | nil => simp at hitem
  | cons head items ih =>
      rw [List.map_cons, List.nodup_cons] at hnodup
      rcases List.mem_cons.mp hitem with rfl | hitem
      · have hrest : (items.filter fun other => key other = key item) = [] :=
          filter_key_eq_nil fun other hother hsame =>
            hnodup.1 (hsame ▸ List.mem_map_of_mem hother)
        simp [hrest]
      · have hne : key head ≠ key item := fun hsame =>
          hnodup.1 (hsame ▸ List.mem_map_of_mem hitem)
        simp [hne, ih hnodup.2 hitem]

/-- Reading back the column of one key. -/
theorem column_flatMap {β γ : Type*} [DecidableEq β] (items : List α) (key : α → β)
    (column : α → List γ) (value : β) :
    ((items.flatMap fun item => (column item).map (key item, ·)).filter
        fun entry => entry.1 = value).map Prod.snd =
      (items.filter fun item => key item = value).flatMap column := by
  induction items with
  | nil => rfl
  | cons item items ih =>
      rw [List.flatMap_cons, List.filter_append, List.map_append, ih]
      by_cases hkey : key item = value
      · rw [List.filter_cons_of_pos (by simpa using hkey), List.flatMap_cons,
          List.filter_eq_self.mpr (by simp [hkey])]
        simp [List.map_map, Function.comp_def]
      · rw [List.filter_cons_of_neg (by simpa using hkey),
          List.filter_eq_nil_iff.mpr (by simp [hkey])]
        rfl

/-- A nonempty prefix stops in the first part or goes on into the second. -/
theorem concat_prefix_append {before first second : List α} {last : α}
    (hstart : before ++ [last] <+: first ++ second) :
    before ++ [last] <+: first ∨
      ∃ middle, before = first ++ middle ∧ middle ++ [last] <+: second := by
  rcases List.prefix_or_prefix_of_prefix hstart (List.prefix_append _ _) with hfirst | ⟨rest, hrest⟩
  · exact Or.inl hfirst
  · rcases List.eq_nil_or_concat rest with rfl | ⟨middle, other, rfl⟩
    · exact Or.inl (by simp [← hrest])
    · rw [List.concat_eq_append, ← List.append_assoc] at hrest
      obtain ⟨rfl, hlast⟩ := List.append_inj' hrest rfl
      obtain rfl := List.singleton_inj.mp hlast
      rw [List.append_assoc, List.prefix_append_right_inj] at hstart
      exact Or.inr ⟨middle, rfl, hstart⟩

/-- Two positionwise relations compose. -/
theorem forall₂_comp {β γ : Type*} {first : α → β → Prop} {second : β → γ → Prop}
    {both : α → γ → Prop} (hboth : ∀ a b c, first a b → second b c → both a c) {as : List α}
    {bs : List β} {cs : List γ} (hfirst : List.Forall₂ first as bs)
    (hsecond : List.Forall₂ second bs cs) : List.Forall₂ both as cs := by
  induction hfirst generalizing cs with
  | nil =>
      cases hsecond
      exact List.Forall₂.nil
  | cons hhead _ ih =>
      cases hsecond with
      | cons hhead' htail' => exact List.Forall₂.cons (hboth _ _ _ hhead hhead') (ih htail')

/-- What a positionwise relation relates an item to. -/
theorem exists_of_forall₂_right {β : Type*} {rel : α → β → Prop} {as : List α} {bs : List β}
    (hrel : List.Forall₂ rel as bs) {b : β} (hb : b ∈ bs) : ∃ a ∈ as, rel a b := by
  induction hrel with
  | nil => simp at hb
  | cons hhead _ ih =>
      rcases List.mem_cons.mp hb with rfl | hb
      · exact ⟨_, List.mem_cons_self, hhead⟩
      · obtain ⟨a, ha, hab⟩ := ih hb
        exact ⟨a, List.mem_cons_of_mem _ ha, hab⟩

/-! ## What a table holds -/

/-- Appending a segment to one row adds exactly that segment to what is held. -/
theorem flatten_modify_append_perm (rows : List (List α)) {index : ℕ} (segment : List α)
    (hindex : index < rows.length) :
    (rows.modify index (· ++ segment)).flatten.Perm (segment ++ rows.flatten) := by
  induction rows generalizing index with
  | nil => simp at hindex
  | cons row rows ih =>
      cases index with
      | zero =>
          simp only [List.modify_zero_cons, List.flatten_cons, List.append_assoc]
          exact List.perm_append_comm_assoc row segment rows.flatten
      | succ index =>
          simp only [List.length_cons, Nat.add_lt_add_iff_right] at hindex
          simp only [List.modify_succ_cons, List.flatten_cons]
          calc row ++ (rows.modify index (· ++ segment)).flatten
            _ ~ row ++ (segment ++ rows.flatten) := (ih hindex).append_left row
            _ ~ segment ++ (row ++ rows.flatten) :=
                List.perm_append_comm_assoc row segment rows.flatten

/-- Cutting a row at `keep` removes exactly the segment past `keep`. -/
theorem flatten_modify_take_perm (rows : List (List α)) (index keep : ℕ) :
    ((rows.getD index []).drop keep ++ (rows.modify index (·.take keep)).flatten).Perm
      rows.flatten := by
  induction rows generalizing index with
  | nil => simp
  | cons row rows ih =>
      cases index with
      | zero =>
          simp only [List.getD_cons_zero, List.modify_zero_cons, List.flatten_cons]
          rw [← List.append_assoc]
          calc row.drop keep ++ row.take keep ++ rows.flatten
            _ ~ row.take keep ++ row.drop keep ++ rows.flatten :=
                List.perm_append_comm.append_right _
            _ ~ row ++ rows.flatten := by rw [List.take_append_drop]
      | succ index =>
          simp only [List.getD_cons_succ, List.modify_succ_cons, List.flatten_cons]
          calc (rows.getD index []).drop keep ++
                (row ++ (rows.modify index (·.take keep)).flatten)
            _ ~ row ++ ((rows.getD index []).drop keep ++
                (rows.modify index (·.take keep)).flatten) :=
                List.perm_append_comm_assoc _ _ _
            _ ~ row ++ rows.flatten := (ih index).append_left row

/-- Everything in a row is held by the table. -/
theorem mem_flatten_of_mem_getD {rows : List (List α)} {index : ℕ} {item : α}
    (hitem : item ∈ rows.getD index []) : item ∈ rows.flatten := by
  by_cases hindex : index < rows.length
  · rw [List.getD_eq_getElem _ _ hindex] at hitem
    exact List.mem_flatten.mpr ⟨_, List.getElem_mem hindex, hitem⟩
  · rw [List.getD_eq_default _ _ (not_lt.mp hindex)] at hitem
    simp at hitem

/-- In a table without repetitions an item lies in one row only. -/
theorem eq_of_mem_getD_of_nodup {rows : List (List α)} (hnodup : rows.flatten.Nodup)
    {first second : ℕ} {item : α} (hfirst : item ∈ rows.getD first [])
    (hsecond : item ∈ rows.getD second []) : first = second := by
  induction rows generalizing first second with
  | nil => simp at hfirst
  | cons row rows ih =>
      rw [List.flatten_cons, List.nodup_append] at hnodup
      obtain ⟨_, hrows, hdisjoint⟩ := hnodup
      cases first with
      | zero =>
          cases second with
          | zero => rfl
          | succ second =>
              exact absurd rfl (hdisjoint item hfirst item (mem_flatten_of_mem_getD hsecond))
      | succ first =>
          cases second with
          | zero =>
              exact absurd rfl (hdisjoint item hsecond item (mem_flatten_of_mem_getD hfirst))
          | succ second => exact congrArg (· + 1) (ih hrows hfirst hsecond)

/-- A row of a table without repetitions has no repetitions itself. -/
theorem nodup_getD_of_nodup {rows : List (List α)} (hnodup : rows.flatten.Nodup)
    (index : ℕ) : (rows.getD index []).Nodup := by
  by_cases hindex : index < rows.length
  · rw [List.getD_eq_getElem _ _ hindex]
    exact (List.nodup_flatten.mp hnodup).1 _ (List.getElem_mem hindex)
  · rw [List.getD_eq_default _ _ (not_lt.mp hindex)]
    exact List.nodup_nil

/-! ## Blocks covering a length -/

/-- Covering is monotone in the length covered. -/
theorem ceilDiv_mono {first second : ℕ} (block : ℕ) (hle : first ≤ second) :
    first ⌈/⌉ block ≤ second ⌈/⌉ block := by
  rw [Nat.ceilDiv_eq_add_pred_div, Nat.ceilDiv_eq_add_pred_div]
  exact Nat.div_le_div_right (by omega)

/-- A position inside a length lies inside one of the blocks covering it. -/
theorem div_lt_ceilDiv {position length block : ℕ} (hblock : 0 < block)
    (hposition : position < length) : position / block < length ⌈/⌉ block := by
  rw [Nat.div_lt_iff_lt_mul hblock, mul_comm]
  exact lt_of_lt_of_le hposition (le_smul_ceilDiv hblock)

end BurnLm.Math
