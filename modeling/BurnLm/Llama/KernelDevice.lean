/-
# A device with the kernel

The library's ops and the decode kernel make a device. A round the host declines is
left to the reference, any other is launched, and the layers get what they rely on
either way: nothing is assumed of the kernel but the arithmetic it is made of.

The kernel starts its maximum from a finite sentinel, so it is right only while no
score lies below it. The norm in front of attention sees to that. A normed row is
bounded whatever comes in, so with bounded weights the scores are, and the bound is
far above the sentinel.
-/

import BurnLm.Llama.Formulas

namespace BurnLm.Llama

open BurnLm.Math BurnLm.PagedKv
open scoped BigOperators

universe u

/-! ## The device -/

section Device

variable {K : Type u} [Field K] [LinearOrder K]

/-- Whether the kernel is ever run. -/
def Reaches (kernel : DecodeDevice K) : Prop :=
  kernel.host.switch.mode ≠ .reference ∧ kernel.host.build.kernel = true ∧
    kernel.host.device ≠ none

/-- The scores a kernel is right for, if it is ever run. -/
def Bearable (kernel : DecodeDevice K) (score : K) : Prop :=
  Reaches kernel → PagedAttn.negSentinel ≤ score

/-- The ops with a decode kernel beside them. -/
def TensorOps.withKernel (ops : TensorOps K) (kernel : DecodeDevice K) : Device K :=
  { ops with pagedDecode := kernel.pagedDecode }

variable [IsStrictOrderedRing K] {config : TransformerConfig}

theorem bearable_of_abs_le {kernel : DecodeDevice K} {score most : K}
    (hmost : most ≤ -PagedAttn.negSentinel) (hscore : |score| ≤ most) : Bearable kernel score :=
  fun _ => neg_le_neg_iff.mp ((neg_le_of_abs_le hscore |> neg_le.mp).trans hmost)

/-- **A device with the kernel is what the layers rely on.** -/
theorem TensorOps.honest_withKernel {ops : TensorOps K} {kernel : DecodeDevice K} {scale : K}
    (hops : ops.Honest kernel.runtime.exp scale config) (hkernel : kernel.Honest)
    (hfits : config.Fits) :
    (ops.withKernel kernel).Honest kernel.runtime.exp scale (Bearable kernel) config where
  ops := hops
  decodes := by
    intro pool after lanes numBlocks q cache hbefore hcommit hsome hcache hq hdecodable plan
    have hblock : 0 < after.blockSize := (hcommit.partitioned hbefore).blockSize_pos
    have hlanes : 0 < lanes.length := List.length_pos_iff.mpr hsome
    have hq' : q.shape = [lanes.length, config.nKvHeads * config.nRep, 1, config.headDim] :=
      hfits.groups.symm ▸ hq
    set attention := fun q k v mask => ops.attention q k v (some mask)
    obtain ⟨k, v, _, _, hreference⟩ := @exists_reference K _ cache pool after lanes config.nKvHeads
      config.headDim numBlocks 1 attention hcache hblock q config.nRep 0 _
      (List.getElem?_eq_getElem hlanes) one_pos
    let args := decodeArgs q cache plan config.nRep (kernel.contiguous (q.dim 3))
    by_cases hdeclined : kernel.host.pagedDecode kernel.types args = .ok none
    · exact ⟨none, _, by simp only [withKernel, DecodeDevice.pagedDecode, args, hdeclined]; rfl,
        hreference, by simp⟩
    · have hargs : args = roundArgs after lanes numBlocks config.nKvHeads config.headDim config.nRep
          plan.blocksPerLane (kernel.contiguous (q.dim 3)) := decodeArgs_eq hcache hq' _
      obtain ⟨elemSize, htakes⟩ :=
        PagedAttn.Host.takes_of_pagedDecode (hargs ▸ hlanes : 0 < args.n) hdeclined
      have hreaches : Reaches kernel := by
        refine ⟨htakes.mode, htakes.build, fun hnone => ?_⟩
        simpa [PagedAttn.Host.deviceSupports, hnone] using htakes.supports
      have hgroup : 0 < config.nRep := by
        refine Nat.pos_of_ne_zero fun hzero => htakes.headDim.2 ?_
        have hnone : config.nHeads = 0 := by rw [← hfits.groups, hzero, Nat.mul_zero]
        rw [hargs]
        exact (congrArg (config.dModel / ·) hnone).trans (Nat.div_zero _)
      have habove := aboveSentinel_of_scored hcommit hcache hblock hq'
        fun {j lane} hj kvHead hkvHead g hg key hkey => by
          have hhead : kvHead * config.nRep + g < config.nHeads :=
            (Tensor.merged_lt hkvHead hg).trans_eq hfits.groups
          have hown : (kvHead * config.nRep + g) / config.nRep = kvHead := by
            rw [Nat.add_comm, Nat.add_mul_div_right _ _ hgroup, Nat.div_eq_of_lt hg, Nat.zero_add]
          exact hdecodable.scores hj ⟨_, hhead⟩ key (by rw [hown]; exact hkey) hreaches
      obtain ⟨answer, attended, hanswer, hattended, _, hsame⟩ := DecodeDevice.exists_pagedDecode
        hkernel hbefore hcommit hsome hcache hq' hgroup hops.attends rfl hdecodable.words habove
      refine ⟨answer, attended, hanswer, hattended, fun out hout => ?_⟩
      obtain ⟨hshape, hentry⟩ := hsame out hout
      refine ⟨?_, hentry⟩
      rw [hshape, ← Option.some.inj (hreference.symm.trans hattended), ← hq']
      exact (hops.shape_attention _ _ _ _).symm

end Device

/-! ## Scores of normed rows -/

section Bounds

variable {dIn dOut : ℕ}

/-- A sum of products is bounded by its factors. -/
theorem abs_sum_mul_le {count : ℕ} {first second : Fin count → ℝ} {most factor : ℝ}
    (hmost : 0 ≤ most) (hfirst : ∀ i, |first i| ≤ most) (hsecond : ∀ i, |second i| ≤ factor) :
    |∑ i, first i * second i| ≤ count * (most * factor) := by
  calc |∑ i, first i * second i| ≤ ∑ i, |first i * second i| := Finset.abs_sum_le_sum_abs _ _
    _ ≤ ∑ _i : Fin count, most * factor := Finset.sum_le_sum fun i _ => by
        rw [abs_mul]
        exact mul_le_mul (hfirst i) (hsecond i) (abs_nonneg _) hmost
    _ = count * (most * factor) := by simp

/-- A normed row is bounded, whatever row it was. -/
theorem abs_rmsNorm_le {gamma : Fin dIn → ℝ} {epsilon gain : ℝ} (hepsilon : 0 ≤ epsilon)
    (hgamma : ∀ i, |gamma i| ≤ gain) (row : Fin dIn → ℝ) (channel : Fin dIn) :
    |(RowModule.rmsNorm gamma epsilon).row row channel| ≤ Real.sqrt dIn * gain := by
  set mean := (∑ i, row i ^ 2) / (dIn : ℝ) + epsilon
  have hwidth : (0 : ℝ) < dIn := Nat.cast_pos.mpr (Fin.pos channel)
  have hsquare : row channel ^ 2 ≤ dIn * mean := by
    calc row channel ^ 2 ≤ ∑ i, row i ^ 2 :=
          Finset.single_le_sum (fun i _ => sq_nonneg (row i)) (Finset.mem_univ channel)
      _ = dIn * ((∑ i, row i ^ 2) / dIn) := (mul_div_cancel₀ _ hwidth.ne').symm
      _ ≤ dIn * mean := mul_le_mul_of_nonneg_left (le_add_of_nonneg_right hepsilon) hwidth.le
  have hrow : |row channel| ≤ Real.sqrt dIn * Real.sqrt mean := by
    rw [← Real.sqrt_mul hwidth.le]
    exact Real.abs_le_sqrt hsquare
  have hnormed : |row channel / Real.sqrt mean| ≤ Real.sqrt dIn := by
    rw [abs_div, abs_of_nonneg (Real.sqrt_nonneg mean)]
    exact div_le_of_le_mul₀ (Real.sqrt_nonneg _) (Real.sqrt_nonneg _) hrow
  calc |row channel / Real.sqrt mean * gamma channel|
      = |row channel / Real.sqrt mean| * |gamma channel| := abs_mul _ _
    _ ≤ Real.sqrt dIn * gain :=
        mul_le_mul hnormed (hgamma channel) (abs_nonneg _) (Real.sqrt_nonneg _)

/-- A turned head is bounded by twice its bound. -/
theorem abs_turned_le {rope : RotaryEncoding ℝ} {rows position width : ℕ}
    (hrope : ∀ position < rows, ∀ channel part,
      |rope.freqComplex.entry [position, channel, part]| ≤ 1)
    (hposition : position < rows) {head : Fin width → ℝ} {most : ℝ} (hmost : 0 ≤ most)
    (hhead : ∀ channel, |head channel| ≤ most) (channel : Fin width) :
    |turned rope position head channel| ≤ most + most := by
  have hneighbour : ∀ other, |extend head other| ≤ most := fun other => by
    by_cases hother : other < width
    · rw [extend_of_lt _ hother]
      exact hhead _
    · simpa [extend, hother] using hmost
  have hproduct : ∀ {entry : ℝ} (part : ℕ), |entry| ≤ most →
      |entry * rope.freqComplex.entry [position, channel, part]| ≤ most := by
    intro entry part hentry
    rw [abs_mul]
    exact (mul_le_of_le_one_right (abs_nonneg _) (hrope position hposition _ _)).trans hentry
  simp only [turned]
  split
  · exact (abs_sub _ _).trans (add_le_add (hproduct 0 (hhead _)) (hproduct 1 (hneighbour _)))
  · exact (abs_add_le _ _).trans (add_le_add (hproduct 0 (hhead _)) (hproduct 1 (hneighbour _)))

variable {config : TransformerConfig}

variable (config) in
/-- What no score exceeds, with the norm's gains and the two projections' weights
bounded. -/
noncomputable def scoreBound (scale gain weight : ℝ) : ℝ :=
  let projected := config.dModel * (Real.sqrt config.dModel * gain * weight)
  config.headDim * ((projected + projected) * (projected + projected)) * |scale|

/-- **A normed block is tempered.** Behind a norm with bounded gains, linear
projections with bounded weights score every row at every record within a bound. -/
theorem TransformerBlock.tempered_of_rmsNorm {block : TransformerBlock ℝ config}
    {gamma : Fin config.dModel → ℝ} {epsilon scale gain weight : ℝ}
    {wq : Fin config.dModel → Fin (config.nHeads * config.headDim) → ℝ}
    {wk : Fin config.dModel → Fin (config.nKvHeads * config.headDim) → ℝ}
    (hnorm : block.attentionNorm = .rmsNorm gamma epsilon)
    (hquery : block.attention.wq = .linear wq) (hkey : block.attention.wk = .linear wk)
    (hepsilon : 0 ≤ epsilon) (hgain : 0 ≤ gain) (hweight : 0 ≤ weight)
    (hgamma : ∀ i, |gamma i| ≤ gain)
    (hwq : ∀ i channel, |wq i channel| ≤ weight) (hwk : ∀ i channel, |wk i channel| ≤ weight)
    {rope : RotaryEncoding ℝ} {rows : ℕ}
    (hrope : ∀ position < rows, ∀ channel part,
      |rope.freqComplex.entry [position, channel, part]| ≤ 1)
    {inRange : ℝ → Prop}
    (hrange : ∀ score, |score| ≤ scoreBound config scale gain weight → inRange score) :
    block.Tempered scale rope rows inRange := by
  rintro position hposition past hpast _ ⟨row, rfl⟩ _ ⟨before, rfl⟩ head
  refine hrange _ ?_
  rw [hnorm]
  set projected := config.dModel * (Real.sqrt config.dModel * gain * weight) with hprojected
  have hsome : 0 ≤ Real.sqrt config.dModel * gain := mul_nonneg (Real.sqrt_nonneg _) hgain
  have hnonneg : 0 ≤ projected := mul_nonneg (Nat.cast_nonneg _) (mul_nonneg hsome hweight)
  have htwice : 0 ≤ projected + projected := add_nonneg hnonneg hnonneg
  have hlinear : ∀ {width : ℕ} {weights : Fin config.dModel → Fin width → ℝ},
      (∀ i channel, |weights i channel| ≤ weight) → ∀ row channel,
        |(RowModule.linear weights).row ((RowModule.rmsNorm gamma epsilon).row row) channel| ≤
          projected := fun {width weights} hweights row channel =>
    abs_sum_mul_le hsome (abs_rmsNorm_le hepsilon hgamma row) (hweights · channel)
  have hturned : ∀ channel, |turned rope position (headRow (block.attention.wq.row
      ((RowModule.rmsNorm gamma epsilon).row row)) head) channel| ≤ projected + projected :=
    abs_turned_le hrope hposition hnonneg fun channel => by
      rw [hquery]
      exact hlinear hwq row _
  have hrecord : ∀ kvHead channel, |block.attention.record rope past
      ((RowModule.rmsNorm gamma epsilon).row before) .key kvHead channel| ≤ projected + projected :=
    fun kvHead => abs_turned_le hrope (hpast.trans_lt hposition) hnonneg fun channel => by
      rw [hkey]
      exact hlinear hwk before _
  rw [MultiHeadAttention.score, abs_mul]
  refine mul_le_mul_of_nonneg_right (abs_sum_mul_le htwice hturned fun channel => ?_) (abs_nonneg _)
  by_cases hkvHead : (head : ℕ) / config.nRep < config.nKvHeads
  · rw [extend_of_lt _ hkvHead]
    exact hrecord _ channel
  · simpa [extend, hkvHead] using htwice

end Bounds

end BurnLm.Llama
