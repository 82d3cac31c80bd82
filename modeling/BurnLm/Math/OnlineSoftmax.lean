/-
# Online softmax

A softmax-weighted sum can be taken in one pass: keep the largest score so far,
the sum of weights relative to it and the weighted sum, and rescale both whenever
a larger score turns up. What the pass holds is then exactly the two sums relative
to the largest score, whichever way the keys are ordered or split, so partial passes
over parts of the keys merge into the pass over all of them.

The exponential is any positive function that takes sums to products, and values lie
in any module: a row of channels, or one channel of it. The pass starts from a finite
level instead of minus infinity; nothing here assumes that the scores lie above it
except the bound on the total weight.
-/

import Mathlib.Algebra.Order.Field.Basic
import Mathlib.Algebra.Order.BigOperators.Group.List
import Mathlib.Algebra.BigOperators.Group.List.Lemmas
import Mathlib.Algebra.BigOperators.GroupWithZero.Action
import Mathlib.Algebra.BigOperators.Group.Finset.Basic
import Mathlib.Algebra.BigOperators.Ring.List
import Mathlib.Algebra.Module.LinearMap.Basic
import Mathlib.Analysis.Complex.Exponential
import Mathlib.Tactic.Ring

namespace BurnLm.Math

open scoped BigOperators

universe u v w

/-- A positive function that takes sums to products. -/
structure Exponential {K : Type u} [Field K] [LinearOrder K] (exp : K → K) : Prop where
  pos : ∀ a, 0 < exp a
  zero : exp 0 = 1
  add : ∀ a b, exp (a + b) = exp a * exp b

/-- The real exponential is one. -/
theorem exponential_real : Exponential Real.exp := ⟨Real.exp_pos, Real.exp_zero, Real.exp_add⟩

namespace Softmax

/-- What a pass holds. -/
@[ext]
structure Running (K : Type u) (V : Type v) where
  /-- The largest score so far. -/
  max : K
  /-- The sum of the weights relative to it. -/
  weight : K
  /-- The weighted sum. -/
  acc : V

variable {K : Type u} {V : Type v}

section Definitions

variable [Field K] [LinearOrder K] [AddCommGroup V] [Module K V] (exp : K → K)

/-- Nothing seen yet. -/
def Running.start (level : K) : Running K V := ⟨level, 0, 0⟩

/-- Take in one key: its score and its value. -/
def Running.absorb (running : Running K V) (score : K) (value : V) : Running K V :=
  let top := Max.max running.max score
  let alpha := exp (running.max - top)
  let weight := exp (score - top)
  ⟨top, running.weight * alpha + weight, alpha • running.acc + weight • value⟩

/-- One pass over keys. -/
def walk (level : K) (keys : List (K × V)) : Running K V :=
  keys.foldl (fun running key => running.absorb exp key.1 key.2) (.start level)

/-- Join partial passes: bring all of them to the largest of their scores. -/
def merge (first : Running K V) (rest : List (Running K V)) : Running K V :=
  let top := rest.foldl (fun top part => Max.max top part.max) first.max
  ⟨top, ((first :: rest).map fun part => part.weight * exp (part.max - top)).sum,
    ((first :: rest).map fun part => exp (part.max - top) • part.acc).sum⟩

/-- The largest score, but at least the starting level. -/
def top (level : K) (keys : List (K × V)) : K := (keys.map Prod.fst).foldl Max.max level

/-- The sum of the weights relative to a level. -/
def weightAt (level : K) (keys : List (K × V)) : K := (keys.map fun key => exp (key.1 - level)).sum

/-- The weighted sum relative to a level. -/
def valueAt (level : K) (keys : List (K × V)) : V :=
  (keys.map fun key => exp (key.1 - level) • key.2).sum

end Definitions

/-! ## Levels -/

section Levels

variable [Field K] [LinearOrder K] {exp : K → K} (hexp : Exponential exp)
include hexp

theorem exp_sub_mul (first second third : K) :
    exp (first - second) * exp (second - third) = exp (first - third) := by
  rw [← hexp.add]
  congr 1
  ring

/-- Another level scales the weights. -/
theorem weightAt_mul (first second : K) (keys : List (K × V)) :
    weightAt exp first keys * exp (first - second) = weightAt exp second keys := by
  rw [weightAt, ← List.sum_map_mul_right, weightAt]
  exact congrArg List.sum (List.map_congr_left fun key _ => exp_sub_mul hexp _ _ _)

variable [AddCommGroup V] [Module K V]

/-- Another level scales the weighted sum the same way. -/
theorem smul_valueAt (first second : K) (keys : List (K × V)) :
    exp (first - second) • valueAt exp first keys = valueAt exp second keys := by
  rw [valueAt, List.smul_sum, valueAt, List.map_map]
  refine congrArg List.sum (List.map_congr_left fun key _ => ?_)
  rw [Function.comp_apply, smul_smul, mul_comm, exp_sub_mul hexp]

/-- The quotient of the two does not depend on the level. -/
theorem weightAt_inv_smul_valueAt (first second : K) (keys : List (K × V)) :
    (weightAt exp first keys)⁻¹ • valueAt exp first keys =
      (weightAt exp second keys)⁻¹ • valueAt exp second keys := by
  have hne : exp (first - second) ≠ 0 := (hexp.pos _).ne'
  rw [← weightAt_mul hexp first second, ← smul_valueAt hexp first second, smul_smul, mul_inv,
    inv_mul_cancel_right₀ hne]

end Levels

/-! ## A pass -/

section Order

variable [LinearOrder K]

/-- The largest score is the same in any order. -/
theorem top_perm (level : K) {first second : List (K × V)} (hperm : first.Perm second) :
    top level first = top level second :=
  (hperm.map Prod.fst).foldl_eq level

theorem top_concat (level : K) (keys : List (K × V)) (key : K × V) :
    top level (keys ++ [key]) = max (top level keys) key.1 := by
  simp [top]

theorem le_top (level : K) (keys : List (K × V)) : level ≤ top level keys := by
  induction keys using List.reverseRecOn with
  | nil => exact le_rfl
  | append_singleton keys key ih =>
      rw [top_concat]
      exact le_trans ih (le_max_left _ _)

/-- Two parts together reach as high as the higher of them. -/
theorem max_top (level : K) (first second : List (K × V)) :
    max (top level first) (top level second) = top level (first ++ second) := by
  induction second using List.reverseRecOn with
  | nil =>
      rw [List.append_nil]
      exact max_eq_left (le_top level first)
  | append_singleton second key ih =>
      rw [← List.append_assoc, top_concat, top_concat, ← max_assoc, ih]

/-- The largest score is the level or a key's. -/
theorem top_eq_level_or (level : K) (keys : List (K × V)) :
    top level keys = level ∨ ∃ key ∈ keys, key.1 = top level keys := by
  induction keys using List.reverseRecOn with
  | nil => exact Or.inl rfl
  | append_singleton keys key ih =>
      rw [top_concat]
      rcases le_total (top level keys) key.1 with hle | hle
      · exact Or.inr ⟨key, by simp, (max_eq_right hle).symm⟩
      · rw [max_eq_left hle]
        refine ih.imp_right fun ⟨best, hbest, heq⟩ => ⟨best, by simp [hbest], heq⟩

theorem score_le_top (level : K) {keys : List (K × V)} {key : K × V} (hkey : key ∈ keys) :
    key.1 ≤ top level keys := by
  induction keys using List.reverseRecOn with
  | nil => simp at hkey
  | append_singleton keys last ih =>
      rw [top_concat]
      rcases List.mem_append.mp hkey with hkey | hkey
      · exact le_trans (ih hkey) (le_max_left _ _)
      · rw [List.mem_singleton.mp hkey]
        exact le_max_right _ _

end Order

section Sums

variable [Field K] (exp : K → K)

theorem weightAt_append (level : K) (first second : List (K × V)) :
    weightAt exp level (first ++ second) = weightAt exp level first + weightAt exp level second := by
  simp [weightAt]

theorem weightAt_perm (level : K) {first second : List (K × V)} (hperm : first.Perm second) :
    weightAt exp level first = weightAt exp level second :=
  (hperm.map _).sum_eq

/-- Over indexed keys the sums are indexed sums. -/
theorem weightAt_range (level : K) (count : ℕ) (key : ℕ → K × V) :
    weightAt exp level ((List.range count).map key) =
      ∑ index ∈ Finset.range count, exp ((key index).1 - level) := by
  rw [weightAt, List.map_map]
  rfl

variable [AddCommGroup V] [Module K V]

theorem valueAt_append (level : K) (first second : List (K × V)) :
    valueAt exp level (first ++ second) = valueAt exp level first + valueAt exp level second := by
  simp [valueAt]

theorem valueAt_perm (level : K) {first second : List (K × V)} (hperm : first.Perm second) :
    valueAt exp level first = valueAt exp level second :=
  (hperm.map _).sum_eq

theorem valueAt_range (level : K) (count : ℕ) (key : ℕ → K × V) :
    valueAt exp level ((List.range count).map key) =
      ∑ index ∈ Finset.range count, exp ((key index).1 - level) • (key index).2 := by
  rw [valueAt, List.map_map]
  rfl

end Sums

section Pass

variable [Field K] [LinearOrder K] [AddCommGroup V] [Module K V] {exp : K → K}
  (hexp : Exponential exp)
include hexp

/-- **What a pass holds**: the largest score, and both sums relative to it. -/
theorem walk_eq (level : K) (keys : List (K × V)) :
    walk exp level keys =
      ⟨top level keys, weightAt exp (top level keys) keys, valueAt exp (top level keys) keys⟩ := by
  induction keys using List.reverseRecOn with
  | nil => rfl
  | append_singleton keys key ih =>
      have hstep : walk exp level (keys ++ [key]) =
          (walk exp level keys).absorb exp key.1 key.2 := by
        rw [walk, List.foldl_append]
        rfl
      rw [hstep, ih, Running.absorb, top_concat]
      simp only [weightAt_mul hexp, smul_valueAt hexp, weightAt_append, valueAt_append,
        Running.mk.injEq, true_and]
      exact ⟨by simp [weightAt], by simp [valueAt]⟩

/-- A pass comes to the same in any order. -/
theorem walk_perm (level : K) {first second : List (K × V)} (hperm : first.Perm second) :
    walk exp level first = walk exp level second := by
  rw [walk_eq hexp, walk_eq hexp, top_perm level hperm, weightAt_perm exp _ hperm,
    valueAt_perm exp _ hperm]

theorem foldl_max_walk_max (level : K) (first : List (K × V))
    (rest : List (List (K × V))) :
    (rest.map (walk exp level)).foldl (fun top part => max top part.max) (top level first) =
      top level (first ++ rest.flatten) := by
  induction rest generalizing first with
  | nil => simp
  | cons next rest ih =>
      rw [List.map_cons, List.foldl_cons, walk_eq hexp, max_top, ih, List.flatten_cons,
        List.append_assoc]

/-- **Partial passes merge** into the pass over all their keys. -/
theorem merge_walk (level : K) (first : List (K × V)) (rest : List (List (K × V))) :
    merge exp (walk exp level first) (rest.map (walk exp level)) =
      walk exp level (first ++ rest.flatten) := by
  have htop : (rest.map (walk exp level)).foldl (fun top part => max top part.max)
      (walk exp level first).max = top level (first ++ rest.flatten) := by
    rw [walk_eq hexp level first]
    exact foldl_max_walk_max hexp level first rest
  have hparts : ∀ (reached : K) (parts : List (List (K × V))),
      ((parts.map (walk exp level)).map fun part => part.weight * exp (part.max - reached)).sum =
          weightAt exp reached parts.flatten ∧
        ((parts.map (walk exp level)).map fun part => exp (part.max - reached) • part.acc).sum =
          valueAt exp reached parts.flatten := by
    intro reached parts
    induction parts with
    | nil => exact ⟨rfl, rfl⟩
    | cons part parts ih =>
        simp only [List.map_cons, List.sum_cons, List.flatten_cons, weightAt_append,
          valueAt_append, ih.1, ih.2, walk_eq hexp level part, weightAt_mul hexp,
          smul_valueAt hexp, and_self]
  rw [merge, htop, walk_eq hexp level (first ++ rest.flatten)]
  obtain ⟨hweight, hvalue⟩ := hparts (top level (first ++ rest.flatten)) (first :: rest)
  rw [List.map_cons, List.flatten_cons] at hweight hvalue
  rw [hweight, hvalue]

/-- The key with the largest score weighs one, so the total weight is at least
one as soon as some score reaches the starting level. -/
theorem one_le_weight [IsStrictOrderedRing K] {level : K} {keys : List (K × V)}
    (hkeys : ∃ key ∈ keys, level ≤ key.1) : 1 ≤ (walk exp level keys).weight := by
  rw [walk_eq hexp]
  have hbest : ∃ key ∈ keys, key.1 = top level keys := by
    rcases top_eq_level_or level keys with hlevel | hbest
    · obtain ⟨key, hmem, hle⟩ := hkeys
      exact ⟨key, hmem, le_antisymm (score_le_top level hmem) (hlevel.trans_le hle)⟩
    · exact hbest
  obtain ⟨key, hmem, hkey⟩ := hbest
  calc (1 : K)
    _ = exp (key.1 - top level keys) := by rw [hkey, sub_self, hexp.zero]
    _ ≤ weightAt exp (top level keys) keys :=
        List.single_le_sum (fun weight hweight => by
          obtain ⟨other, _, rfl⟩ := List.mem_map.mp hweight
          exact (hexp.pos _).le) _ (List.mem_map.mpr ⟨key, hmem, rfl⟩)

/-- **What a pass is for**: dividing gives the softmax-weighted sum. -/
theorem weight_inv_smul_acc (level : K) (keys : List (K × V)) :
    (walk exp level keys).weight⁻¹ • (walk exp level keys).acc =
      (weightAt exp 0 keys)⁻¹ • valueAt exp 0 keys := by
  rw [walk_eq hexp]
  exact weightAt_inv_smul_valueAt hexp _ _ _

end Pass

/-! ## One channel of a pass -/

section Channel

variable {W : Type w} [Field K] [LinearOrder K] [AddCommGroup V] [Module K V] [AddCommGroup W]
  [Module K W] (exp : K → K)

/-- What a pass holds of the image of its values. -/
def Running.map (image : V →ₗ[K] W) (running : Running K V) : Running K W :=
  ⟨running.max, running.weight, image running.acc⟩

/-- A pass over the images of the values is the image of the pass. -/
theorem walk_map (image : V →ₗ[K] W) (level : K) (keys : List (K × V)) :
    (walk exp level keys).map image =
      walk exp level (keys.map fun key => (key.1, image key.2)) := by
  induction keys using List.reverseRecOn with
  | nil => simp [walk, Running.map, Running.start]
  | append_singleton keys key ih =>
      simp only [List.map_append, List.map_cons, List.map_nil, walk, List.foldl_append,
        List.foldl_cons, List.foldl_nil] at ih ⊢
      rw [← ih]
      simp [Running.map, Running.absorb]

/-- The largest score and the total weight do not depend on the values. -/
theorem walk_scores (level : K) {first : List (K × V)} {second : List (K × W)}
    (hscores : first.map Prod.fst = second.map Prod.fst) :
    (walk exp level first).max = (walk exp level second).max ∧
      (walk exp level first).weight = (walk exp level second).weight := by
  have hkeys : (first.map fun key => (key.1, (0 : K))) = second.map fun key => (key.1, (0 : K)) := by
    simpa [Function.comp_def] using congrArg (List.map fun score => (score, (0 : K))) hscores
  have hsame : (walk exp level first).map (0 : V →ₗ[K] K) =
      (walk exp level second).map (0 : W →ₗ[K] K) := by
    rw [walk_map, walk_map]
    exact congrArg (walk exp level) hkeys
  exact ⟨congrArg Running.max hsame, congrArg Running.weight hsame⟩

end Channel

end Softmax

end BurnLm.Math
