/-
# Sampling from the nucleus

The sampler of a server. At temperature zero it takes each row's largest logit. Above,
it sorts a row's probabilities, keeps the leading run before which the mass stays below
a threshold, adds noise to the logarithms of what it kept, and takes the largest sum.

A row's token always comes from its nucleus, the fewest likeliest tokens whose mass
reaches the threshold. How often each of them comes is its share of the nucleus, up to
the little that the draws keep clear of zero.

Logits, probabilities and draws are real numbers and the arithmetic on them is exact;
how 32-bit floats round them is not followed.
-/

import BurnLm.Inference.Batching
import BurnLm.Math.GumbelMax
import Mathlib.Data.Fin.Tuple.Sort

namespace BurnLm.Llama

open BurnLm.Math BurnLm.Inference
open scoped BigOperators

/-! ## The sampler -/

/-- Probabilities of a row of logits at a temperature. -/
noncomputable def temperatureScaledSoftmax {vocab : ℕ} (logits : Fin vocab → ℝ)
    (temperature : ℝ) : Fin vocab → ℝ := fun i =>
  Real.exp (logits i / temperature) / ∑ j, Real.exp (logits j / temperature)

/-- The lower bound on the uniform draws. -/
noncomputable def gumbelLow : ℝ := 1 / (10 ^ 7 : ℕ)

/-- The effective sampling settings, as far as the sampler reads them. -/
structure SamplingSettings where
  topP : ℝ
  temperature : ℝ

/-- What the tensor library sorts and picks rows by. -/
structure SamplerOps (vocab : ℕ) where
  /-- The ids of a row, from the largest value to the smallest. -/
  sortDescending : (Fin vocab → ℝ) → Equiv.Perm (Fin vocab)
  antitone_sortDescending : ∀ row : Fin vocab → ℝ, Antitone (row ∘ sortDescending row)
  /-- The id of a row's largest value. -/
  argmax : (Fin vocab → WithBot ℝ) → Fin vocab
  le_argmax : ∀ (row : Fin vocab → WithBot ℝ) (i : Fin vocab), row i ≤ row (argmax row)

namespace LlamaSampler

variable {vocab : ℕ} (ops : SamplerOps vocab) (settings : SamplingSettings)

/-- The mass before each place of a sorted row: the cumulative sum less the place's own. -/
noncomputable def exclusiveMass (sorted : Fin vocab → ℝ) (j : Fin vocab) : ℝ :=
  (∑ i ∈ Finset.Iic j, sorted i) - sorted j

/-- The logarithms of a sorted row, with everything past the nucleus dropped. -/
noncomputable def masked (sorted : Fin vocab → ℝ) (j : Fin vocab) : WithBot ℝ :=
  if settings.topP ≤ exclusiveMass sorted j then ⊥ else (Real.log (sorted j) : ℝ)

/-- The token of one row, from the row's uniform draws. -/
noncomputable def sampleRow (logits uniform : Fin vocab → ℝ) : Fin vocab :=
  if settings.temperature ≤ 0 then ops.argmax fun i => (logits i : ℝ)
  else
    let probs := temperatureScaledSoftmax logits settings.temperature
    let idx := ops.sortDescending probs
    let winner := ops.argmax fun j => masked settings (probs ∘ idx) j + (gumbel (uniform j) : ℝ)
    idx winner

/-- One token for each row of a batch. -/
noncomputable def sample (uniform : ℕ → Fin vocab → ℝ) (logits : Logits (Fin vocab → ℝ)) :
    InferenceResult (List Token) :=
  .ok (logits.rows.mapIdx fun r row => UInt32.ofNat (sampleRow ops settings row (uniform r)))

/-- At temperature zero every row is picked by itself, and nothing is drawn. -/
theorem sample_of_greedy (hgreedy : settings.temperature ≤ 0) (uniform : ℕ → Fin vocab → ℝ)
    (logits : Logits (Fin vocab → ℝ)) :
    sample ops settings uniform logits =
      .ok (logits.rows.map fun row => UInt32.ofNat (ops.argmax fun i => (row i : ℝ))) := by
  refine congrArg Except.ok (List.ext_getElem (by simp) fun r _ _ => ?_)
  simp [sampleRow, hgreedy]

/-! ## The nucleus -/

section Nucleus

variable {sorted : Fin vocab → ℝ} {topP : ℝ}

/-- The fewest likeliest tokens whose mass reaches a threshold: no other token is
likelier, and without a least likely one of them the mass stays below. -/
structure IsNucleus (probs : Fin vocab → ℝ) (topP : ℝ) (nucleus : Finset (Fin vocab)) : Prop where
  likeliest : ∀ token ∈ nucleus, ∀ other ∉ nucleus, probs other ≤ probs token
  reaches : nucleus = Finset.univ ∨ topP ≤ ∑ token ∈ nucleus, probs token
  fewest : ∀ token ∈ nucleus, (∀ other ∈ nucleus, probs token ≤ probs other) →
    ∑ other ∈ nucleus.erase token, probs other < topP

variable (sorted topP) in
/-- The places that are not dropped. -/
noncomputable def kept : Finset (Fin vocab) :=
  Finset.univ.filter fun j => exclusiveMass sorted j < topP

theorem mem_kept {j : Fin vocab} : j ∈ kept sorted topP ↔ exclusiveMass sorted j < topP := by
  simp [kept]

theorem exclusiveMass_eq (sorted : Fin vocab → ℝ) (j : Fin vocab) :
    exclusiveMass sorted j = ∑ i ∈ Finset.Iio j, sorted i := by
  rw [exclusiveMass, ← Finset.Iio_insert, Finset.sum_insert (by simp),
    add_sub_cancel_left]

/-- More places, more mass before them. -/
theorem monotone_exclusiveMass (hnonneg : ∀ j, 0 ≤ sorted j) : Monotone (exclusiveMass sorted) := by
  intro first second hle
  rw [exclusiveMass_eq, exclusiveMass_eq]
  exact Finset.sum_le_sum_of_subset_of_nonneg (Finset.Iio_subset_Iio hle) fun j _ _ => hnonneg j

/-- What is kept is a leading run. -/
theorem mem_kept_of_le (hnonneg : ∀ j, 0 ≤ sorted j) {first second : Fin vocab}
    (hle : first ≤ second) (hsecond : second ∈ kept sorted topP) : first ∈ kept sorted topP :=
  mem_kept.mpr ((monotone_exclusiveMass hnonneg hle).trans_lt (mem_kept.mp hsecond))

/-- The places kept of a sorted row are its nucleus. -/
theorem isNucleus_kept (hnonneg : ∀ j, 0 ≤ sorted j) (hsorted : Antitone sorted) :
    IsNucleus sorted topP (kept sorted topP) where
  likeliest := by
    intro j hj other hother
    refine hsorted (not_lt.mp fun hbefore => hother ?_)
    exact mem_kept_of_le hnonneg hbefore.le hj
  reaches := by
    by_cases hall : kept sorted topP = Finset.univ
    · exact Or.inl hall
    · -- up to the first place dropped
      obtain ⟨j, hj, hfirst⟩ : ∃ j ∉ kept sorted topP, ∀ i < j, i ∈ kept sorted topP := by
        obtain ⟨other, hother⟩ : ∃ other, other ∉ kept sorted topP := by
          simpa [Finset.eq_univ_iff_forall] using hall
        obtain ⟨j, hj, hleast⟩ := wellFounded_lt.has_min {j | j ∉ kept sorted topP}
          ⟨other, hother⟩
        exact ⟨j, hj, fun i hi => not_not.mp fun hdropped => hleast i hdropped hi⟩
      have hrun : kept sorted topP = Finset.Iio j := by
        ext i
        rw [Finset.mem_Iio]
        exact ⟨fun hi => not_le.mp fun hle => hj (mem_kept_of_le hnonneg hle hi), hfirst i⟩
      refine Or.inr ?_
      rw [hrun, ← exclusiveMass_eq]
      exact not_lt.mp fun hbelow => hj (mem_kept.mpr hbelow)
  fewest := by
    intro j hj hleast
    have hsome : (kept sorted topP).Nonempty := ⟨j, hj⟩
    set last := (kept sorted topP).max' hsome
    have hlast : last ∈ kept sorted topP := Finset.max'_mem _ hsome
    have hrun : kept sorted topP = Finset.Iic last := by
      ext i
      rw [Finset.mem_Iic]
      exact ⟨Finset.le_max' _ i, fun hle => mem_kept_of_le hnonneg hle hlast⟩
    have hsame : sorted j = sorted last :=
      le_antisymm (hleast last hlast) (hsorted (Finset.le_max' _ j hj))
    have hsplit := Finset.sum_erase_add (kept sorted topP) sorted hj
    have hmass : exclusiveMass sorted last = ∑ i ∈ kept sorted topP, sorted i - sorted last := by
      rw [hrun, exclusiveMass]
    have hbelow := mem_kept.mp hlast
    rw [hmass] at hbelow
    linarith

/-- A nucleus of a row, through the ids of its sorted places. -/
theorem IsNucleus.map {probs : Fin vocab → ℝ} {idx : Equiv.Perm (Fin vocab)}
    {places : Finset (Fin vocab)} (hplaces : IsNucleus (probs ∘ idx) topP places) :
    IsNucleus probs topP (places.map idx.toEmbedding) where
  likeliest := by
    intro token htoken other hother
    rw [Finset.mem_map_equiv] at htoken hother
    simpa using hplaces.likeliest _ htoken _ hother
  reaches := by
    rcases hplaces.reaches with hall | hmass
    · exact Or.inl (by rw [hall, Finset.map_univ_equiv])
    · exact Or.inr (by simpa [Finset.sum_map] using hmass)
  fewest := by
    intro token htoken hleast
    obtain ⟨j, hj, rfl⟩ := Finset.mem_map.mp htoken
    rw [← Finset.map_erase, Finset.sum_map]
    exact hplaces.fewest j hj fun other hother => hleast _ (Finset.mem_map_of_mem _ hother)

end Nucleus

/-! ## How often a token comes -/

section Draws

variable {settings}

theorem temperatureScaledSoftmax_pos (logits : Fin vocab → ℝ) (temperature : ℝ) (i : Fin vocab) :
    0 < temperatureScaledSoftmax logits temperature i :=
  div_pos (Real.exp_pos _) (Finset.sum_pos (fun _ _ => Real.exp_pos _) ⟨i, Finset.mem_univ i⟩)

variable (settings) in
/-- What the places of a sorted row weigh in the pick. -/
noncomputable def weights (sorted : Fin vocab → ℝ) (j : Fin vocab) : ℝ :=
  if settings.topP ≤ exclusiveMass sorted j then 0 else sorted j

theorem masked_eq_logWeight {sorted : Fin vocab → ℝ} {j : Fin vocab} (hpos : 0 < sorted j) :
    masked settings sorted j = logWeight (weights settings sorted j) := by
  by_cases hdropped : settings.topP ≤ exclusiveMass sorted j
  · simp [masked, weights, logWeight, hdropped]
  · simp [masked, weights, logWeight, hdropped, hpos.ne']

theorem sum_weights (sorted : Fin vocab → ℝ) :
    ∑ j, weights settings sorted j = ∑ j ∈ kept sorted settings.topP, sorted j := by
  rw [kept, Finset.sum_filter]
  refine Finset.sum_congr rfl fun j _ => ?_
  by_cases hdropped : settings.topP ≤ exclusiveMass sorted j
  · rw [weights, if_pos hdropped, if_neg hdropped.not_gt]
  · rw [weights, if_neg hdropped, if_pos (not_le.mp hdropped)]

theorem weights_nonneg {sorted : Fin vocab → ℝ} (hnonneg : ∀ j, 0 ≤ sorted j) (j : Fin vocab) :
    0 ≤ weights settings sorted j := by
  unfold weights
  split
  · exact le_rfl
  · exact hnonneg j

theorem weights_of_mem_kept {sorted : Fin vocab → ℝ} {j : Fin vocab}
    (hj : j ∈ kept sorted settings.topP) : weights settings sorted j = sorted j :=
  if_neg (mem_kept.mp hj).not_ge

/-- The first place is kept. -/
theorem exists_mem_kept {sorted : Fin vocab → ℝ} {topP : ℝ} (htopP : 0 < topP)
    (hsome : 0 < vocab) : ∃ first, first ∈ kept sorted topP := by
  refine ⟨⟨0, hsome⟩, mem_kept.mpr ?_⟩
  rw [exclusiveMass_eq, Finset.sum_eq_zero]
  · exact htopP
  · intro i hi
    exact absurd (Finset.mem_Iio.mp hi) (Nat.not_lt_zero _)

/-- A place that was dropped is never the largest. -/
theorem mem_kept_of_largest {sorted : Fin vocab → ℝ} (hpos : ∀ j, 0 < sorted j)
    (htopP : 0 < settings.topP) {uniform : Fin vocab → ℝ} {j : Fin vocab}
    (hlargest : ∀ i, noisy (weights settings sorted i) (uniform i) ≤
      noisy (weights settings sorted j) (uniform j)) : j ∈ kept sorted settings.topP := by
  obtain ⟨first, hfirst⟩ := @exists_mem_kept vocab sorted _ htopP j.pos
  by_contra hdropped
  have hnothing : weights settings sorted j = 0 :=
    if_pos (not_lt.mp fun hbelow => hdropped (mem_kept.mpr hbelow))
  have hbot := hlargest first
  rw [noisy_eq_bot_iff.mpr hnothing, le_bot_iff, noisy_eq_bot_iff,
    weights_of_mem_kept hfirst] at hbot
  exact (hpos first).ne' hbot

/-- **A row's token is drawn from its nucleus.** Whatever is drawn, it is one of the
fewest likeliest tokens whose mass reaches the threshold; and over uniform draws, each
of these comes with its share of their mass, up to the lower bound of the draws for
each word of the vocabulary. -/
theorem sampleRow_from_nucleus {ops : SamplerOps vocab} {settings : SamplingSettings}
    (htemperature : 0 < settings.temperature) (htopP : 0 < settings.topP) {logits : Fin vocab → ℝ} :
    let probs := temperatureScaledSoftmax logits settings.temperature
    ∃ nucleus, IsNucleus probs settings.topP nucleus ∧
      (∀ uniform, sampleRow ops settings logits uniform ∈ nucleus) ∧
      ∀ token ∈ nucleus,
        |(floorDraws gumbelLow vocab).real
            {uniform | sampleRow ops settings logits uniform = token} -
          probs token / ∑ other ∈ nucleus, probs other| ≤ vocab * gumbelLow := by
  intro probs
  set idx := ops.sortDescending probs
  set sorted := probs ∘ idx
  have hpos : ∀ j, 0 < sorted j := fun j => temperatureScaledSoftmax_pos logits _ _
  have hnonneg : ∀ j, 0 ≤ sorted j := fun j => (hpos j).le
  set winner : (Fin vocab → ℝ) → Fin vocab := fun uniform =>
    ops.argmax fun j => masked settings sorted j + (gumbel (uniform j) : ℝ)
  have hrow : ∀ uniform, sampleRow ops settings logits uniform = idx (winner uniform) := by
    intro uniform
    rw [sampleRow, if_neg (not_le.mpr htemperature)]
  have hlargest : ∀ uniform j, noisy (weights settings sorted j) (uniform j) ≤
      noisy (weights settings sorted (winner uniform)) (uniform (winner uniform)) := by
    intro uniform j
    have hle := ops.le_argmax (fun j => masked settings sorted j + (gumbel (uniform j) : ℝ)) j
    simp only [masked_eq_logWeight (hpos _)] at hle
    simp only [winner, masked_eq_logWeight (hpos _)]
    exact hle
  refine ⟨(kept sorted settings.topP).map idx.toEmbedding,
    (isNucleus_kept hnonneg (ops.antitone_sortDescending probs)).map, fun uniform => ?_,
    fun token htoken => ?_⟩
  · rw [hrow]
    exact Finset.mem_map_of_mem _ (mem_kept_of_largest hpos htopP (hlargest uniform))
  · obtain ⟨j, hj, rfl⟩ := Finset.mem_map.mp htoken
    have hsame : {uniform | sampleRow ops settings logits uniform = idx.toEmbedding j} =
        {uniform | winner uniform = j} := by
      ext uniform
      simp [hrow]
    have htotal : 0 < ∑ j, weights settings sorted j := by
      rw [sum_weights]
      exact Finset.sum_pos (fun j _ => hpos j) ⟨j, hj⟩
    have hshare := abs_real_picked_sub_le (by norm_num [gumbelLow] : 0 < gumbelLow)
      (by norm_num [gumbelLow]) (weights_nonneg hnonneg) htotal hlargest j
    rw [weights_of_mem_kept hj, sum_weights] at hshare
    rw [hsame, Finset.sum_map]
    exact hshare

end Draws

end LlamaSampler

/-- Sorting and picking by exact comparisons. -/
noncomputable def SamplerOps.exact (last : ℕ) : SamplerOps (last + 1) where
  sortDescending row := Tuple.sort fun i => -row i
  antitone_sortDescending row _ _ hle :=
    neg_le_neg_iff.mp (Tuple.monotone_sort (fun i => -row i) hle)
  argmax row := (Finite.exists_max row).choose
  le_argmax row i := (Finite.exists_max row).choose_spec i

/-- A token that reaches the threshold by itself is all there is to draw. -/
theorem LlamaSampler.sampleRow_from_nucleus_alone :
    {uniform | sampleRow (.exact 1) ⟨1 / 2, 1⟩ ![1, 0] uniform = 0} = Set.univ := by
  obtain ⟨nucleus, hnucleus, hmem, _⟩ := @sampleRow_from_nucleus 2 (.exact 1) ⟨1 / 2, 1⟩
    (by norm_num) (by norm_num) ![1, 0]
  set probs := temperatureScaledSoftmax ![1, 0] 1
  have hexp : (1 : ℝ) < Real.exp 1 := Real.one_lt_exp_iff.mpr one_pos
  have hfirst : 1 / 2 < probs 0 := by
    simp only [probs, temperatureScaledSoftmax, Fin.sum_univ_two]
    rw [div_lt_div_iff₀ two_pos (by positivity)]
    norm_num
    linarith
  have hsecond : probs 1 < probs 0 := by
    refine div_lt_div_of_pos_right (Real.exp_lt_exp.mpr ?_) (by positivity)
    norm_num
  have halone : (1 : Fin 2) ∉ nucleus := fun hother => by
    have hlikeliest : (0 : Fin 2) ∈ nucleus := by
      by_contra hout
      exact absurd (hnucleus.likeliest 1 hother 0 hout) hsecond.not_ge
    have hfew := hnucleus.fewest 1 hother fun other _ => by
      fin_cases other
      · exact hsecond.le
      · exact le_rfl
    have hshare : probs 0 ≤ ∑ other ∈ nucleus.erase 1, probs other :=
      Finset.single_le_sum (fun other _ => (temperatureScaledSoftmax_pos _ _ other).le)
        (Finset.mem_erase.mpr ⟨by decide, hlikeliest⟩)
    linarith
  refine Set.eq_univ_of_forall fun uniform => ?_
  have hdrawn := hmem uniform
  match hrow : sampleRow (.exact 1) ⟨1 / 2, 1⟩ ![1, 0] uniform with
  | 0 => exact hrow
  | 1 => exact absurd (hrow ▸ hdrawn) halone

end BurnLm.Llama
