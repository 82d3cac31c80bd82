/-
# Picking by the largest noisy weight

One of finitely many weights is picked by giving each a uniform draw, turning the
draw into noise, and taking the largest sum of a weight's logarithm and its noise.
With draws from the whole unit interval, each weight is picked with its share of the
total. A weight of nothing has no logarithm and is never picked.

Draws that keep clear of zero are the same draws on the condition that they do. What
a condition of high probability makes of any other probability is bounded by what it
rules out, so the picks are off by no more than that.
-/

import Mathlib.Analysis.SpecialFunctions.Integrals.Basic
import Mathlib.MeasureTheory.Constructions.Pi
import Mathlib.Probability.ConditionalProbability

namespace BurnLm.Math

open MeasureTheory ProbabilityTheory
open scoped BigOperators ENNReal

/-! ## Keys -/

/-- The noise a draw is turned into. -/
noncomputable def gumbel (draw : ℝ) : ℝ := -Real.log (-Real.log draw)

/-- The logarithm of a weight, below everything for a weight of nothing. -/
noncomputable def logWeight (weight : ℝ) : WithBot ℝ :=
  if weight = 0 then ⊥ else (Real.log weight : ℝ)

/-- What a weight is compared by. -/
noncomputable def noisy (weight draw : ℝ) : WithBot ℝ := logWeight weight + (gumbel draw : ℝ)

/-- Only a weight of nothing is below everything. -/
theorem noisy_eq_bot_iff {weight draw : ℝ} : noisy weight draw = ⊥ ↔ weight = 0 := by
  by_cases hweight : weight = 0 <;> simp [noisy, logWeight, hweight]

/-- A weight beats another where the other's draw stays below a power of its own. -/
theorem noisy_lt_noisy_iff {weight other draw against : ℝ} (hweight : 0 < weight)
    (hother : 0 ≤ other) (hdraw : draw ∈ Set.Ioo 0 1) (hagainst : against ∈ Set.Ioo 0 1) :
    noisy other against < noisy weight draw ↔ against < draw ^ (other / weight) := by
  have hkey : noisy weight draw = (Real.log weight + gumbel draw : ℝ) := by
    simp [noisy, logWeight, hweight.ne']
  rcases hother.eq_or_lt with rfl | hpos
  · simp [noisy, logWeight, hweight.ne', hagainst.2]
  have hminus : ∀ {u : ℝ}, u ∈ Set.Ioo (0 : ℝ) 1 → 0 < -Real.log u := fun hu =>
    neg_pos.mpr (Real.log_neg hu.1 hu.2)
  have hsum : ∀ {w u : ℝ}, 0 < w → u ∈ Set.Ioo (0 : ℝ) 1 →
      Real.log w + gumbel u = Real.log (w / -Real.log u) := fun hw hu => by
    rw [gumbel, ← sub_eq_add_neg, Real.log_div hw.ne' (hminus hu).ne']
  have hother_key : noisy other against = (Real.log other + gumbel against : ℝ) := by
    simp [noisy, logWeight, hpos.ne']
  rw [hkey, hother_key, WithBot.coe_lt_coe, hsum hweight hdraw, hsum hpos hagainst,
    Real.log_lt_log_iff (div_pos hpos (hminus hagainst)) (div_pos hweight (hminus hdraw)),
    div_lt_div_iff₀ (hminus hagainst) (hminus hdraw), ← Real.log_lt_log_iff hagainst.1
      (Real.rpow_pos_of_pos hdraw.1 _), Real.log_rpow hdraw.1, div_mul_eq_mul_div,
    lt_div_iff₀ hweight]
  constructor <;> intro h <;> linarith

/-! ## Draws from the whole interval -/

section Shares

variable {count : ℕ}

/-- Where a weight beats all others. -/
def beats (weights : Fin count → ℝ) (i : Fin count) : Set (Fin count → ℝ) :=
  {draws | ∀ j ≠ i, noisy (weights j) (draws j) < noisy (weights i) (draws i)}

/-- Draws inside the unit interval. -/
def unitCube (count : ℕ) : Set (Fin count → ℝ) := Set.univ.pi fun _ => Set.Ioo 0 1

theorem measurableSet_unitCube : MeasurableSet (unitCube count) :=
  MeasurableSet.univ_pi fun _ => measurableSet_Ioo

/-- Uniform draws from the unit interval, one for each weight. -/
noncomputable def unitDraws (count : ℕ) : Measure (Fin count → ℝ) :=
  volume.restrict (unitCube count)

instance : IsProbabilityMeasure (unitDraws count) :=
  ⟨by simp [unitDraws, unitCube, volume_pi_pi]⟩

/-- A power, integrated over the interval. -/
theorem lintegral_rpow_unit {power : ℝ} (hpower : 0 ≤ power) :
    ∫⁻ u in Set.Ioo (0 : ℝ) 1, ENNReal.ofReal (u ^ power) = ENNReal.ofReal (1 / (power + 1)) := by
  have hintegrable : IntegrableOn (fun u : ℝ => u ^ power) (Set.Ioc 0 1) :=
    (intervalIntegral.intervalIntegrable_rpow' (by linarith)).1
  rw [← ofReal_integral_eq_lintegral_ofReal (hintegrable.mono_set Set.Ioo_subset_Ioc_self)
    ((ae_restrict_mem measurableSet_Ioo).mono fun u hu => Real.rpow_nonneg hu.1.le _),
    ← integral_Ioc_eq_integral_Ioo, ← intervalIntegral.integral_of_le zero_le_one,
    integral_rpow (Or.inl (by linarith)), Real.one_rpow, Real.zero_rpow (by linarith), sub_zero]

/-- A first draw in the interval, and others below powers of it. -/
def belowPowers (power : Fin count → ℝ) : Set (ℝ × (Fin count → ℝ)) :=
  {pair | pair.1 ∈ Set.Ioo 0 1 ∧ ∀ j, pair.2 j ∈ Set.Ioo 0 (pair.1 ^ power j)}

theorem measurableSet_belowPowers (power : Fin count → ℝ) : MeasurableSet (belowPowers power) := by
  have hinter : belowPowers power = Set.preimage Prod.fst (Set.Ioo 0 1) ∩
      ⋂ j, {pair : ℝ × (Fin count → ℝ) | pair.2 j ∈ Set.Ioo 0 (pair.1 ^ power j)} := by
    ext pair
    simp [belowPowers]
  rw [hinter]
  refine (measurable_fst measurableSet_Ioo).inter (MeasurableSet.iInter fun j => ?_)
  have hown : Measurable fun pair : ℝ × (Fin count → ℝ) => pair.2 j := by fun_prop
  exact (measurableSet_lt measurable_const hown).inter
    (measurableSet_lt hown (measurable_fst.pow_const _))

/-- Slice by slice, such draws are boxes. -/
theorem volume_belowPowers {power : Fin count → ℝ} (hpower : ∀ j, 0 ≤ power j) :
    volume (belowPowers power) = ENNReal.ofReal (1 / (∑ j, power j + 1)) := by
  have hslice : ∀ u ∈ Set.Ioo (0 : ℝ) 1, volume (Set.preimage (Prod.mk u) (belowPowers power)) =
      ENNReal.ofReal (u ^ ∑ j, power j) := by
    intro u hu
    have hbox : Set.preimage (Prod.mk u) (belowPowers power) =
        Set.univ.pi fun j => Set.Ioo 0 (u ^ power j) := by
      ext draws
      simp [belowPowers, hu.1, hu.2]
    rw [hbox, volume_pi_pi, Real.rpow_sum_of_nonneg hu.1.le fun j _ => hpower j,
      ENNReal.ofReal_prod_of_nonneg fun j _ => Real.rpow_nonneg hu.1.le _]
    simp
  have houtside : ∀ u ∉ Set.Ioo (0 : ℝ) 1,
      volume (Set.preimage (Prod.mk u) (belowPowers power)) = 0 := by
    intro u hu
    have hempty : Set.preimage (Prod.mk u) (belowPowers power) = ∅ :=
      Set.eq_empty_of_forall_notMem fun _ hpair => hu hpair.1
    rw [hempty, measure_empty]
  calc volume (belowPowers power)
      = ∫⁻ u, volume (Set.preimage (Prod.mk u) (belowPowers power)) :=
        Measure.prod_apply (measurableSet_belowPowers power)
    _ = ∫⁻ u in Set.Ioo 0 1, ENNReal.ofReal (u ^ ∑ j, power j) := by
        rw [← lintegral_indicator measurableSet_Ioo]
        refine lintegral_congr fun u => ?_
        by_cases hu : u ∈ Set.Ioo (0 : ℝ) 1
        · rw [Set.indicator_of_mem hu, hslice u hu]
        · rw [Set.indicator_of_notMem hu, houtside u hu]
    _ = ENNReal.ofReal (1 / (∑ j, power j + 1)) :=
        lintegral_rpow_unit (Finset.sum_nonneg fun j _ => hpower j)

/-- A weight beats all others where their draws stay below powers of its own. -/
theorem beats_inter_unitCube {weights : Fin (count + 1) → ℝ} (hweights : ∀ j, 0 ≤ weights j)
    {i : Fin (count + 1)} (hi : 0 < weights i) :
    beats weights i ∩ unitCube (count + 1) =
      Set.preimage (MeasurableEquiv.piFinSuccAbove (fun _ => ℝ) i)
        (belowPowers fun j => weights (i.succAbove j) / weights i) := by
  ext draws
  have hbeats : draws ∈ beats weights i ↔
      ∀ j, noisy (weights (i.succAbove j)) (draws (i.succAbove j)) <
        noisy (weights i) (draws i) := by
    refine ⟨fun hdraws j => hdraws _ (Fin.succAbove_ne i j), fun hdraws j hj => ?_⟩
    obtain ⟨j, rfl⟩ := Fin.exists_succAbove_eq hj
    exact hdraws j
  have hcube : draws ∈ unitCube (count + 1) ↔
      draws i ∈ Set.Ioo 0 1 ∧ ∀ j, draws (i.succAbove j) ∈ Set.Ioo (0 : ℝ) 1 := by
    rw [unitCube, Set.mem_univ_pi]
    exact Fin.forall_iff_succAbove i
  rw [Set.mem_inter_iff, hbeats, hcube]
  constructor
  · rintro ⟨hdraws, hown, hothers⟩
    exact ⟨hown, fun j => ⟨(hothers j).1,
      (noisy_lt_noisy_iff hi (hweights _) hown (hothers j)).mp (hdraws j)⟩⟩
  · rintro ⟨hown, hothers⟩
    have hinside : ∀ j, draws (i.succAbove j) ∈ Set.Ioo (0 : ℝ) 1 := fun j =>
      ⟨(hothers j).1, (hothers j).2.trans_le
        (Real.rpow_le_one hown.1.le hown.2.le (div_nonneg (hweights _) hi.le))⟩
    exact ⟨fun j => (noisy_lt_noisy_iff hi (hweights _) hown (hinside j)).mpr (hothers j).2,
      hown, hinside⟩

variable {weights : Fin count → ℝ}

/-- A weight of something beats all others with its share of the total. -/
theorem measure_beats (hweights : ∀ j, 0 ≤ weights j) {i : Fin count} (hi : 0 < weights i) :
    MeasurableSet (beats weights i ∩ unitCube count) ∧
      unitDraws count (beats weights i) = ENNReal.ofReal (weights i / ∑ j, weights j) := by
  obtain ⟨rest, rfl⟩ : ∃ rest, count = rest + 1 := Nat.exists_eq_succ_of_ne_zero i.pos.ne'
  have hsame := beats_inter_unitCube hweights hi
  set power : Fin rest → ℝ := fun j => weights (i.succAbove j) / weights i
  have htotal : ∑ j, weights j = weights i * (∑ j, power j + 1) := by
    rw [Fin.sum_univ_succAbove _ i, mul_add, Finset.mul_sum, mul_one, add_comm]
    simp [power, mul_div_cancel₀ _ hi.ne']
  refine ⟨hsame ▸ (MeasurableEquiv.measurable _) (measurableSet_belowPowers power), ?_⟩
  rw [unitDraws, Measure.restrict_apply' measurableSet_unitCube, hsame,
    (volume_preserving_piFinSuccAbove (fun _ => ℝ) i).measure_preimage
      (measurableSet_belowPowers power).nullMeasurableSet,
    volume_belowPowers fun j => div_nonneg (hweights _) hi.le, htotal, div_mul_eq_div_div,
    div_self hi.ne']

variable {winner : (Fin count → ℝ) → Fin count}

/-- **Picks are shares.** However ties are broken, each weight is picked with its
share of the total. -/
theorem real_picked (hweights : ∀ j, 0 ≤ weights j) (htotal : 0 < ∑ j, weights j)
    (hwinner : ∀ draws j, noisy (weights j) (draws j) ≤
      noisy (weights (winner draws)) (draws (winner draws))) (i : Fin count) :
    (unitDraws count).real {draws | winner draws = i} = weights i / ∑ j, weights j := by
  set share : Fin count → ℝ := fun j => weights j / ∑ j, weights j
  have hshare : ∀ j, 0 ≤ share j := fun j => div_nonneg (hweights j) htotal.le
  have hshares : ∑ j, share j = 1 := by rw [← Finset.sum_div, div_self htotal.ne']
  have hpicked : ∀ j, beats weights j ⊆ {draws | winner draws = j} := fun j draws hdraws => by
    by_contra hother
    exact absurd (hdraws _ hother) (hwinner draws j).not_gt
  -- what is sure to be picked, weight by weight
  let sure : Fin count → Set (Fin count → ℝ) := fun j =>
    if 0 < weights j then beats weights j ∩ unitCube count else ∅
  have hsure : ∀ j, sure j ⊆ {draws | winner draws = j} := fun j => by
    by_cases hj : 0 < weights j
    · simpa [sure, hj] using Set.inter_subset_left.trans (hpicked j)
    · simp [sure, hj]
  have hmeasurable : ∀ j, MeasurableSet (sure j) := fun j => by
    by_cases hj : 0 < weights j
    · simpa [sure, hj] using (measure_beats hweights hj).1
    · simp [sure, hj]
  have hreal : ∀ j, (unitDraws count).real (sure j) = share j := fun j => by
    by_cases hj : 0 < weights j
    · have hinside : unitDraws count (sure j) = unitDraws count (beats weights j) := by
        simp only [sure, hj, if_true, unitDraws, Measure.restrict_apply' measurableSet_unitCube,
          Set.inter_assoc, Set.inter_self]
      rw [measureReal_def, hinside, (measure_beats hweights hj).2,
        ENNReal.toReal_ofReal (hshare j)]
    · have hzero : weights j = 0 := le_antisymm (not_lt.mp hj) (hweights j)
      simp [sure, share, hzero]
  have hdisjoint : Pairwise (Function.onFun Disjoint sure) := fun first second hne =>
    Set.disjoint_left.mpr fun draws hfirst hsecond =>
      hne ((hsure first hfirst).symm.trans (hsure second hsecond))
  refine le_antisymm ?_ ?_
  · have hrest : {draws | winner draws = i} ⊆ (⋃ j ∈ Finset.univ.erase i, sure j)ᶜ := by
      intro draws hdraws hsome
      obtain ⟨j, hj, hdraw⟩ := Set.mem_iUnion₂.mp hsome
      exact (Finset.mem_erase.mp hj).1 ((hsure j hdraw).symm.trans hdraws)
    calc (unitDraws count).real {draws | winner draws = i}
        ≤ (unitDraws count).real (⋃ j ∈ Finset.univ.erase i, sure j)ᶜ := measureReal_mono hrest
      _ = 1 - ∑ j ∈ Finset.univ.erase i, share j := by
          rw [probReal_compl_eq_one_sub (Finset.measurableSet_biUnion _ fun j _ => hmeasurable j),
            measureReal_biUnion_finset (hdisjoint.set_pairwise _) fun j _ => hmeasurable j]
          simp only [hreal]
      _ = share i := by
          rw [← hshares, ← Finset.add_sum_erase _ _ (Finset.mem_univ i), add_sub_cancel_right]
  · calc share i = (unitDraws count).real (sure i) := (hreal i).symm
      _ ≤ (unitDraws count).real {draws | winner draws = i} := measureReal_mono (hsure i)

end Shares

/-! ## Draws that keep clear of zero -/

/-- A condition moves no probability by more than what it rules out. -/
theorem abs_cond_real_sub_le {Ω : Type*} [MeasurableSpace Ω] {μ : Measure Ω}
    [IsProbabilityMeasure μ] {given : Set Ω} (hgiven : MeasurableSet given)
    (hpos : 0 < μ.real given) (event : Set Ω) :
    |(cond μ given).real event - μ.real event| ≤ 1 - μ.real given := by
  have hcond : (cond μ given).real event = μ.real (event ∩ given) / μ.real given := by
    rw [measureReal_def, cond_apply hgiven, ENNReal.toReal_mul, ENNReal.toReal_inv, Set.inter_comm,
      inv_mul_eq_div]
    rfl
  have hsplit : μ.real (event ∩ given) + μ.real (event \ given) = μ.real event :=
    measureReal_inter_add_sdiff hgiven
  have hinside : μ.real (event ∩ given) ≤ μ.real given := measureReal_mono Set.inter_subset_right
  have houtside : μ.real (event \ given) ≤ 1 - μ.real given := by
    rw [← probReal_compl_eq_one_sub hgiven]
    exact measureReal_mono fun _ hout => hout.2
  have hgrowth : μ.real (event ∩ given) / μ.real given - μ.real (event ∩ given) =
      μ.real (event ∩ given) / μ.real given * (1 - μ.real given) := by
    field_simp
  have hrest : 0 ≤ 1 - μ.real given := sub_nonneg.mpr measureReal_le_one
  have hgrown : μ.real (event ∩ given) / μ.real given * (1 - μ.real given) ≤ 1 - μ.real given :=
    mul_le_of_le_one_left hrest ((div_le_one hpos).mpr hinside)
  have hpositive : 0 ≤ μ.real (event ∩ given) / μ.real given * (1 - μ.real given) :=
    mul_nonneg (div_nonneg measureReal_nonneg hpos.le) hrest
  have hnonneg : 0 ≤ μ.real (event \ given) := measureReal_nonneg
  rw [hcond, ← hsplit, abs_le]
  constructor <;> linarith

section Floor

variable {count : ℕ} {low : ℝ}

/-- Draws at or above a level. -/
def floorCube (low : ℝ) (count : ℕ) : Set (Fin count → ℝ) := Set.univ.pi fun _ => Set.Ico low 1

theorem measurableSet_floorCube : MeasurableSet (floorCube low count) :=
  MeasurableSet.univ_pi fun _ => measurableSet_Ico

theorem floorCube_inter_unitCube (hlow : 0 < low) :
    floorCube low count ∩ unitCube count = floorCube low count :=
  Set.inter_eq_left.mpr fun _ hdraws j _ =>
    ⟨hlow.trans_le (hdraws j trivial).1, (hdraws j trivial).2⟩

/-- Uniform draws from a level up to one, one for each weight. -/
noncomputable def floorDraws (low : ℝ) (count : ℕ) : Measure (Fin count → ℝ) :=
  cond volume (floorCube low count)

/-- They are draws from the unit interval that happen to keep above the level. -/
theorem floorDraws_eq_cond (hlow : 0 < low) :
    floorDraws low count = cond (unitDraws count) (floorCube low count) := by
  rw [floorDraws, unitDraws, ProbabilityTheory.cond, ProbabilityTheory.cond,
    Measure.restrict_apply' measurableSet_unitCube,
    Measure.restrict_restrict measurableSet_floorCube, floorCube_inter_unitCube hlow]

theorem real_floorCube (hlow : 0 < low) (hone : low < 1) :
    (unitDraws count).real (floorCube low count) = (1 - low) ^ count := by
  rw [measureReal_def, unitDraws, Measure.restrict_apply' measurableSet_unitCube,
    floorCube_inter_unitCube hlow, floorCube, volume_pi_pi]
  simp [ENNReal.toReal_ofReal (sub_nonneg.mpr hone.le)]

/-- **Picks above a level are nearly shares.** With draws from a level up to one, each
weight is picked with its share of the total, up to the level for each weight. -/
theorem abs_real_picked_sub_le {weights : Fin count → ℝ} (hlow : 0 < low) (hone : low < 1)
    (hweights : ∀ j, 0 ≤ weights j) (htotal : 0 < ∑ j, weights j)
    {winner : (Fin count → ℝ) → Fin count}
    (hwinner : ∀ draws j, noisy (weights j) (draws j) ≤
      noisy (weights (winner draws)) (draws (winner draws))) (i : Fin count) :
    |(floorDraws low count).real {draws | winner draws = i} - weights i / ∑ j, weights j| ≤
      count * low := by
  have hpos : 0 < (unitDraws count).real (floorCube low count) := by
    rw [real_floorCube hlow hone]
    exact pow_pos (sub_pos.mpr hone) count
  have hbernoulli : 1 + (count : ℝ) * -low ≤ (1 + -low) ^ count :=
    one_add_mul_le_pow (by linarith) count
  calc |(floorDraws low count).real {draws | winner draws = i} - weights i / ∑ j, weights j|
      = |(cond (unitDraws count) (floorCube low count)).real {draws | winner draws = i} -
          (unitDraws count).real {draws | winner draws = i}| := by
        rw [floorDraws_eq_cond hlow, real_picked hweights htotal hwinner]
    _ ≤ 1 - (unitDraws count).real (floorCube low count) :=
        abs_cond_real_sub_le measurableSet_floorCube hpos _
    _ = 1 - (1 - low) ^ count := by rw [real_floorCube hlow hone]
    _ ≤ count * low := by
        rw [← sub_eq_add_neg] at hbernoulli
        linarith

end Floor

end BurnLm.Math
