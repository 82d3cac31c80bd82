/-
# Cutting a list into windows

Items spell text, and a reader wants text in portions: it waits until it has at
least `size` items that spell something and takes them all. Read from the front
this cuts a list into windows, each the shortest that will do, and a rest that
is not a window yet. The cut is unique.
-/

import Mathlib.Data.List.Infix

namespace BurnLm.Math

universe u v

variable {α : Type u} {β : Type v} (size : ℕ) (piece : α → List β)

/-- At least `size` items that spell something, and no fewer would do. -/
structure Window (window : List α) : Prop where
  size_le : size ≤ window.length
  spells : window.flatMap piece ≠ []
  shortest : ∀ front, front <+: window → size ≤ front.length → front.flatMap piece ≠ [] →
    front = window

/-- No window begins here. -/
def Unfilled (rest : List α) : Prop :=
  ∀ front, front <+: rest → size ≤ front.length → front.flatMap piece = []

/-- `items` is `windows`, one after the other, and then `rest`. -/
structure CutInto (items : List α) (windows : List (List α)) (rest : List α) : Prop where
  items_eq : items = windows.flatten ++ rest
  window : ∀ window ∈ windows, Window size piece window

variable {size piece}

/-- Items that spell nothing fill no window. -/
theorem Unfilled.of_silent {rest : List α} (hsilent : rest.flatMap piece = []) :
    Unfilled size piece rest := by
  rintro front ⟨tail, rfl⟩ -
  exact (List.append_eq_nil_iff.mp (List.flatMap_append ▸ hsilent)).1

/-- One more item that leaves the rest short, or silent, fills no window. -/
theorem Unfilled.concat {rest : List α} (hrest : Unfilled size piece rest) {item : α}
    (hitem : size ≤ (rest ++ [item]).length → (rest ++ [item]).flatMap piece = []) :
    Unfilled size piece (rest ++ [item]) := by
  intro front hfront hsize
  rcases List.prefix_concat_iff.mp hfront with heq | hfront
  · rw [heq] at hsize ⊢
    exact hitem hsize
  · exact hrest front hfront hsize

/-- One more item that fills a window. -/
theorem Unfilled.window {rest : List α} (hrest : Unfilled size piece rest) {item : α}
    (hsize : size ≤ (rest ++ [item]).length) (hspells : (rest ++ [item]).flatMap piece ≠ []) :
    Window size piece (rest ++ [item]) where
  size_le := hsize
  spells := hspells
  shortest front hfront hlength htext := by
    rcases List.prefix_concat_iff.mp hfront with heq | hfront
    · exact heq
    · exact absurd (hrest front hfront hlength) htext

/-- When every item spells something, a window has just `size` items. -/
theorem Window.length_eq {window : List α} (hwindow : Window size piece window)
    (hspells : ∀ item, piece item ≠ []) (hsize : 0 < size) : window.length = size := by
  have hlength : (window.take size).length = size := List.length_take_of_le hwindow.size_le
  have hfront : (window.take size).flatMap piece ≠ [] := by
    cases hfront : window.take size with
    | nil =>
        rw [hfront] at hlength
        exact absurd hlength hsize.ne
    | cons item front =>
        exact fun hsilent => hspells item (List.append_eq_nil_iff.mp (List.flatMap_cons ▸ hsilent)).1
  rw [← hwindow.shortest _ (List.take_prefix _ _) hlength.ge hfront]
  exact hlength

/-- Two windows at the front of one list are the same. -/
theorem Window.eq_of_prefix {first second items : List α} (hfirst : Window size piece first)
    (hsecond : Window size piece second) (hitems : first <+: items) (hitems' : second <+: items) :
    first = second := by
  rcases List.prefix_or_prefix_of_prefix hitems hitems' with hle | hle
  · exact hsecond.shortest first hle hfirst.size_le hfirst.spells
  · exact (hfirst.shortest second hle hsecond.size_le hsecond.spells).symm

/-- No window stands at the front of an unfilled rest. -/
theorem Unfilled.not_window {window tail : List α} (hrest : Unfilled size piece (window ++ tail)) :
    ¬ Window size piece window := fun hwindow =>
  hwindow.spells (hrest window (List.prefix_append window tail) hwindow.size_le)

/-- **The cut is unique.** -/
theorem CutInto.unique {items rest rest' : List α} {windows windows' : List (List α)}
    (hcut : CutInto size piece items windows rest) (hrest : Unfilled size piece rest)
    (hcut' : CutInto size piece items windows' rest') (hrest' : Unfilled size piece rest') :
    windows = windows' ∧ rest = rest' := by
  induction windows generalizing items windows' with
  | nil =>
      cases windows' with
      | nil => exact ⟨rfl, by simpa using hcut.items_eq.symm.trans hcut'.items_eq⟩
      | cons window windows' =>
          have hitems : rest = window ++ (windows'.flatten ++ rest') := by
            simpa using hcut.items_eq.symm.trans hcut'.items_eq
          exact absurd (hcut'.window window List.mem_cons_self) (hitems ▸ hrest).not_window
  | cons window windows ih =>
      have hwindow := hcut.window window List.mem_cons_self
      cases windows' with
      | nil =>
          have hitems : rest' = window ++ (windows.flatten ++ rest) := by
            simpa using hcut'.items_eq.symm.trans hcut.items_eq
          exact absurd hwindow (hitems ▸ hrest').not_window
      | cons window' windows' =>
          have hitems : items = window ++ (windows.flatten ++ rest) := by
            simpa using hcut.items_eq
          have hitems' : items = window' ++ (windows'.flatten ++ rest') := by
            simpa using hcut'.items_eq
          have hsame : window = window' :=
            hwindow.eq_of_prefix (hcut'.window window' List.mem_cons_self)
              ⟨_, hitems.symm⟩ ⟨_, hitems'.symm⟩
          have htails : windows.flatten ++ rest = windows'.flatten ++ rest' := by
            refine (List.append_right_inj window).mp ?_
            rw [← hitems, hitems', hsame]
          obtain ⟨hwindows, hrests⟩ := @ih (windows.flatten ++ rest) windows'
            ⟨rfl, fun other hother => hcut.window other (List.mem_cons_of_mem _ hother)⟩
            ⟨htails, fun other hother => hcut'.window other (List.mem_cons_of_mem _ hother)⟩
          exact ⟨by rw [hsame, hwindows], hrests⟩

/-- When every item spells something, the windows are `size` items each, and the
rest has fewer. -/
theorem CutInto.lengths {items rest : List α} {windows : List (List α)}
    (hcut : CutInto size piece items windows rest) (hrest : Unfilled size piece rest)
    (hspells : ∀ item, piece item ≠ []) (hsize : 0 < size) :
    items.length = windows.length * size + rest.length ∧ rest.length < size := by
  constructor
  · have hwindows : windows.map List.length = windows.map fun _ => size :=
      List.map_congr_left fun window hwindow =>
        (hcut.window window hwindow).length_eq hspells hsize
    rw [hcut.items_eq, List.length_append, List.length_flatten, hwindows, List.map_const',
      List.sum_replicate_nat]
  · by_contra hlong
    cases rest with
    | nil => simp at hlong; omega
    | cons item rest =>
        have hsilent := hrest _ List.prefix_rfl (not_lt.mp hlong)
        exact hspells item (List.append_eq_nil_iff.mp (List.flatMap_cons ▸ hsilent)).1

end BurnLm.Math
