/-
# Flat buffers

Numerical code keeps tables of several dimensions in one flat buffer, addresses
an entry by multiplying out the dimensions, and splits a range of work into
blocks or hands it out in strides. The facts here are the ones such code rests on:
multiplied-out addresses enumerate the buffer, blocks and strides enumerate the
range, and what is written once is read back.
-/

import Mathlib.Algebra.BigOperators.Fin
import Mathlib.Algebra.BigOperators.Group.Finset.Piecewise
import Mathlib.Algebra.Order.Floor.Div
import Mathlib.Data.List.Nodup
import BurnLm.Math.Loop
import BurnLm.Math.Tensor

namespace BurnLm.Math

open scoped BigOperators

universe u

/-! ## Multiplied-out addresses -/

/-- Rows of one width, one after another, are a range. -/
theorem range_mul (count width : ℕ) :
    List.range (count * width) =
      (List.range count).flatMap fun row => (List.range width).map (row * width + ·) := by
  induction count with
  | zero => simp
  | succ count ih =>
      rw [Nat.succ_mul, List.range_add, List.range_succ, List.flatMap_append, ih]
      simp

/-- So a pass over them is a pass over rows. -/
theorem flatMap_range_mul {β : Type*} (count width : ℕ) (run : ℕ → List β) :
    (List.range (count * width)).flatMap run =
      (List.range count).flatMap fun row => (List.range width).flatMap fun at_ =>
        run (row * width + at_) := by
  rw [range_mul, List.flatMap_assoc]
  exact List.flatMap_congr fun row _ => List.flatMap_map _ _ _

/-- And a sum over them is a sum over rows. -/
theorem sum_range_mul {M : Type*} [AddCommMonoid M] (count width : ℕ) (term : ℕ → M) :
    ∑ index ∈ Finset.range (count * width), term index =
      ∑ row ∈ Finset.range count, ∑ at_ ∈ Finset.range width, term (row * width + at_) := by
  have hlist : ∀ (size : ℕ) (value : ℕ → M),
      ∑ index ∈ Finset.range size, value index = ((List.range size).map value).sum :=
    fun _ _ => rfl
  simp only [hlist, range_mul, List.flatMap_def, List.map_flatten, List.sum_flatten, List.map_map,
    Function.comp_def]

/-- Terms past the end of a range that are blanked out do not count. -/
theorem sum_range_blanked {M : Type*} [AddCommMonoid M] {count total : ℕ} (hle : count ≤ total)
    (term : ℕ → M) :
    (∑ index ∈ Finset.range total, if index < count then term index else 0) =
      ∑ index ∈ Finset.range count, term index := by
  rw [← Finset.sum_filter]
  congr 1
  ext index
  simp only [Finset.mem_filter, Finset.mem_range]
  omega

/-- Two nested passes can be exchanged. -/
theorem flatMap_swap_perm {α β γ : Type*} (outer : List α) (inner : List β)
    (run : α → β → List γ) :
    (outer.flatMap fun first => inner.flatMap fun second => run first second).Perm
      (inner.flatMap fun second => outer.flatMap fun first => run first second) := by
  induction outer with
  | nil => simp
  | cons first outer ih =>
      simp only [List.flatMap_cons]
      exact (ih.append_left _).trans (List.flatMap_append_perm _ _ _)

/-- A pass that appends what it has seen to an invariant. -/
theorem foldl_flatMap_induction {σ ι β : Type*} {Inv : List β → σ → Prop} {body : σ → ι → σ}
    {part : ι → List β} {items : List ι}
    (hstep : ∀ seen state, ∀ item ∈ items, Inv seen state →
      Inv (seen ++ part item) (body state item)) {seen : List β} {state : σ}
    (hstate : Inv seen state) : Inv (seen ++ items.flatMap part) (items.foldl body state) := by
  induction items generalizing seen state with
  | nil => simpa using hstate
  | cons item items ih =>
      rw [List.foldl_cons, List.flatMap_cons, ← List.append_assoc]
      exact ih (fun seen state item hitem => hstep seen state item (List.mem_cons_of_mem _ hitem))
        (hstep seen state item List.mem_cons_self hstate)

/-- A pass over the indices below a bound reads their values only. -/
theorem flatMap_finRange {β : Type*} (count : ℕ) (run : ℕ → List β) :
    ((List.finRange count).flatMap fun index : Fin count => run index) =
      (List.range count).flatMap run := by
  rw [← List.map_coe_finRange_eq_range, List.flatMap_map]

/-! ## Blocks -/

/-- The positions of block `b`; the last block holds what is left. -/
def blockPositions (length block b : ℕ) : List ℕ :=
  (List.range (min block (length - b * block))).map (b * block + ·)

/-- The blocks cut a range up. -/
theorem flatMap_blockPositions (length : ℕ) {block : ℕ} (hblock : 0 < block) :
    (List.range (length ⌈/⌉ block)).flatMap (blockPositions length block) =
      List.range length := by
  have hstart : ∀ count, (List.range count).flatMap (blockPositions length block) =
      List.range (min (count * block) length) := by
    intro count
    induction count with
    | zero => simp
    | succ count ih =>
        rw [List.range_succ, List.flatMap_append, ih, List.flatMap_singleton, blockPositions]
        rcases le_total (count * block) length with hle | hle
        · rw [min_eq_left hle, ← List.range_add]
          congr 1
          rw [Nat.succ_mul]
          omega
        · rw [Nat.sub_eq_zero_of_le hle, min_eq_right hle, Nat.succ_mul,
            min_eq_right (le_trans hle (Nat.le_add_right _ _))]
          simp
  rw [hstart, min_eq_right]
  have hceil : length ≤ block • (length ⌈/⌉ block) := le_smul_ceilDiv hblock
  rwa [smul_eq_mul, Nat.mul_comm] at hceil

/-- Position `t` of block `b`. -/
theorem block_position {length block b t : ℕ} (ht : t < min block (length - b * block)) :
    (b * block + t) / block = b ∧ (b * block + t) % block = t ∧ b * block + t < length := by
  obtain ⟨hblock, hlive⟩ := lt_min_iff.mp ht
  obtain ⟨hdiv, hmod⟩ := Tensor.div_mod_of_lt b hblock
  exact ⟨hdiv, hmod, by omega⟩

/-! ## Strides -/

/-- Every `step`-th number from `start` up to `count`. -/
def strided (start step count : ℕ) : List ℕ := List.range' start ((count - start) ⌈/⌉ step) step

theorem mem_strided {start step count index : ℕ} (hstep : 0 < step) :
    index ∈ strided start step count ↔
      ∃ turn, start + step * turn < count ∧ index = start + step * turn := by
  have hturn : ∀ turn, turn < (count - start) ⌈/⌉ step ↔ start + step * turn < count := by
    intro turn
    rw [← not_le, ceilDiv_le_iff_le_mul hstep, not_le, Nat.mul_comm]
    omega
  rw [strided, List.mem_range']
  exact exists_congr fun turn => and_congr_left fun _ => hturn turn

/-- Strides from different starts share a range out between them. -/
theorem strided_perm (count : ℕ) {step : ℕ} (hstep : 0 < step) :
    ((List.range step).flatMap fun start => strided start step count).Perm (List.range count) := by
  have hmod : ∀ start < step, ∀ index, index ∈ strided start step count ↔
      index < count ∧ index % step = start := by
    intro start hstart index
    rw [mem_strided hstep]
    constructor
    · rintro ⟨turn, hlt, rfl⟩
      exact ⟨hlt, by rw [Nat.add_mul_mod_self_left, Nat.mod_eq_of_lt hstart]⟩
    · rintro ⟨hlt, rfl⟩
      have hsplit := Nat.mod_add_div index step
      exact ⟨index / step, by omega, hsplit.symm⟩
  have hnodup : ((List.range step).flatMap fun start => strided start step count).Nodup := by
    refine List.nodup_flatMap.mpr ⟨fun start _ => List.nodup_range' step hstep, ?_⟩
    refine List.Pairwise.imp_of_mem ?_ List.nodup_range
    intro first second hfirst hsecond hne index hleft hright
    rw [hmod first (List.mem_range.mp hfirst)] at hleft
    rw [hmod second (List.mem_range.mp hsecond)] at hright
    exact hne (hleft.2.symm.trans hright.2)
  rw [List.perm_ext_iff_of_nodup hnodup List.nodup_range]
  intro index
  rw [List.mem_flatMap, List.mem_range]
  constructor
  · rintro ⟨start, hstart, hindex⟩
    exact ((hmod start (List.mem_range.mp hstart) index).mp hindex).1
  · intro hlt
    have hstart : index % step < step := Nat.mod_lt _ hstep
    exact ⟨index % step, List.mem_range.mpr hstart, (hmod _ hstart index).mpr ⟨hlt, rfl⟩⟩

/-- So do the blocks handed out in strides. -/
theorem strided_blocks_perm (length : ℕ) {block step : ℕ} (hblock : 0 < block)
    (hstep : 0 < step) :
    ((List.range step).flatMap fun start =>
      (strided start step (length ⌈/⌉ block)).flatMap (blockPositions length block)).Perm
        (List.range length) := by
  rw [← flatMap_blockPositions length hblock, ← List.flatMap_assoc]
  exact (strided_perm _ hstep).flatMap_right _

/-- A counting loop that advances by `step` visits its stride in order. -/
theorem loop_strided {σ : Type u} (body : σ → ℕ → σ) {step count : ℕ} (hstep : 0 < step)
    (bound : ℕ) {start : ℕ} (hbound : count < bound + start) (state : σ) :
    (loop (fun (turn : ℕ × σ) =>
      if turn.1 < count then (true, (turn.1 + step, body turn.2 turn.1)) else (false, turn))
        bound (start, state)).2 = (strided start step count).foldl body state := by
  induction bound generalizing start state with
  | zero =>
      have hnone : count - start = 0 := by omega
      simp [strided, loop, hnone]
  | succ bound ih =>
      rw [loop]
      by_cases hlt : start < count
      · simp only [if_pos hlt]
        have hceil : (count - start) ⌈/⌉ step = (count - (start + step)) ⌈/⌉ step + 1 := by
          rw [Nat.ceilDiv_eq_add_pred_div, Nat.ceilDiv_eq_add_pred_div]
          rcases le_total (count - start) step with hle | hle
          · have hlast : count - (start + step) = 0 := by omega
            rw [hlast, Nat.div_eq_of_lt (by omega : 0 + step - 1 < step),
              Nat.div_eq_of_lt_le] <;> omega
          · rw [← Nat.add_div_right _ hstep]
            congr 1
            omega
        rw [ih (by omega), strided, strided, hceil, List.range'_succ, List.foldl_cons]
      · have hnone : count - start = 0 := by omega
        simp [strided, if_neg hlt, hnone]

/-- Units that take turns with a step of their own, and stop at the end of the
range, cover it. -/
theorem unrolled_perm {count turns step : ℕ} (hle : count ≤ turns * step) :
    ((List.range step).flatMap fun start => (List.range turns).flatMap fun turn =>
      if start + turn * step < count then [start + turn * step] else []).Perm
        (List.range count) := by
  have hinside : (List.range (turns * step)).flatMap
      (fun index => if index < count then [index] else []) = List.range count := by
    obtain ⟨extra, hextra⟩ := Nat.exists_eq_add_of_le hle
    have hlive : ∀ index ∈ List.range count,
        (if index < count then [index] else []) = [index] :=
      fun index hindex => if_pos (List.mem_range.mp hindex)
    rw [hextra, List.range_add, List.flatMap_append, List.flatMap_congr hlive]
    simp
  rw [flatMap_range_mul] at hinside
  simp only [Nat.add_comm _ (_ * step)]
  rw [← hinside]
  exact flatMap_swap_perm _ _ _

/-- And a sum over what each of them sees is a sum over the range. -/
theorem sum_unrolled {M : Type*} [AddCommMonoid M] {count turns step : ℕ}
    (hle : count ≤ turns * step) (term : ℕ → M) :
    (∑ start : Fin step, ∑ turn : Fin turns,
      if (start : ℕ) + (turn : ℕ) * step < count then term (start + turn * step) else 0) =
        ∑ index ∈ Finset.range count, term index := by
  rw [← sum_range_blanked hle, sum_range_mul, Finset.sum_comm,
    ← Fin.sum_univ_eq_sum_range (fun turn => ∑ start ∈ Finset.range step,
      if turn * step + start < count then term (turn * step + start) else 0)]
  refine Finset.sum_congr rfl fun turn _ => ?_
  rw [← Fin.sum_univ_eq_sum_range (fun start =>
    if turn * step + start < count then term (turn * step + start) else 0)]
  exact Finset.sum_congr rfl fun start _ => by rw [Nat.add_comm]

/-! ## Writing and reading back -/

section Store

variable {α : Type u}

/-- A buffer after some writes, made in order. -/
def store (buffer : ℕ → α) (writes : List (ℕ × α)) : ℕ → α :=
  writes.foldl (fun buffer write => Function.update buffer write.1 write.2) buffer

theorem store_concat (buffer : ℕ → α) (writes : List (ℕ × α)) (write : ℕ × α) :
    store buffer (writes ++ [write]) = Function.update (store buffer writes) write.1 write.2 := by
  simp [store]

/-- What every write to an index agrees on is read back. -/
theorem store_of_unique (buffer : ℕ → α) {writes : List (ℕ × α)} {index : ℕ} {value : α}
    (hmem : (index, value) ∈ writes) (hunique : ∀ other, (index, other) ∈ writes → other = value) :
    store buffer writes index = value := by
  induction writes using List.reverseRecOn with
  | nil => simp at hmem
  | append_singleton writes write ih =>
      rw [store_concat]
      by_cases hwrite : index = write.1
      · have hlast : (index, write.2) ∈ writes ++ [write] := by simp [hwrite]
        rw [← hunique _ hlast, hwrite, Function.update_self]
      · have hbefore : (index, value) ∈ writes := by
          rcases List.mem_append.mp hmem with hmem | hmem
          · exact hmem
          · exact absurd (congrArg Prod.fst (List.mem_singleton.mp hmem)) hwrite
        rw [Function.update_of_ne hwrite]
        exact ih hbefore fun other hother => hunique other (List.mem_append_left _ hother)

/-- So is what is written once. -/
theorem store_of_nodup (buffer : ℕ → α) {writes : List (ℕ × α)}
    (hnodup : (writes.map Prod.fst).Nodup) {index : ℕ} {value : α}
    (hmem : (index, value) ∈ writes) : store buffer writes index = value :=
  store_of_unique buffer hmem fun _ hother =>
    congrArg Prod.snd (List.inj_on_of_nodup_map hnodup hother hmem rfl)

end Store

end BurnLm.Math
