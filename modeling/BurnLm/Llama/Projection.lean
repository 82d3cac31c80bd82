/-
# Queries and keys from checkpoint weights

A checkpoint orders each head's query and key channels for a rotation that pairs
channel `d` with the one half a head along. The rotation here pairs neighbours,
so loading reorders the columns of the two weights. Attention only ever sees
dot products of rotated queries and keys, and those are the same either way: the
reordering moves a pair together with its rotation.
-/

import BurnLm.Llama.Rotary
import BurnLm.Math.Flat

namespace BurnLm.Llama

open BurnLm.Math
open scoped BigOperators

universe u

variable {α : Type u}

/-! ## Loading -/

/-- The query and key projections of one layer, `[d_in, d_out]` each. -/
structure RotaryProjections (α : Type u) where
  wq : Tensor α
  wk : Tensor α

/-- Split each head's columns into two halves and interleave them. -/
def permute (w : Tensor α) (heads dIn dOut : ℕ) : Tensor α :=
  ((w.reshape [dIn, heads, 2, dOut / heads / 2]).swapDims 2 3).reshape [dIn, dOut]

/-- Undo the checkpoint's query and key permutation, layer by layer. -/
def unpermuteRotaryProjections (layers : List (RotaryProjections α))
    (nHeads nKvHeads dModel : ℕ) : List (RotaryProjections α) :=
  let kvDim := dModel * nKvHeads / nHeads
  layers.map fun layer =>
    { wq := permute layer.wq nHeads dModel dModel
      wk := permute layer.wk nKvHeads dModel kvDim }

/-- Column `2k + b` of a head is column `k` of its half `b`. -/
theorem entry_permute {w : Tensor α} {heads dIn half i h k b : ℕ}
    (hw : w.shape = [dIn, heads * (2 * half)]) (hi : i < dIn) (hh : h < heads) (hk : k < half)
    (hb : b < 2) :
    (permute w heads dIn (heads * (2 * half))).entry [i, h * (2 * half) + (2 * k + b)] =
      w.entry [i, h * (2 * half) + (b * half + k)] := by
  have hheads : 0 < heads := by omega
  have hwidth : heads * (2 * half) / heads / 2 = half := by
    rw [Nat.mul_div_cancel_left _ hheads, Nat.mul_div_cancel_left _ two_pos]
  have hsource : Tensor.InBounds [dIn, heads, half, 2] [i, h, k, b] :=
    .cons hi (.cons hh (.cons hk (.cons hb .nil)))
  have hcolumn : b * half + k < 2 * half := Tensor.merged_lt hb hk
  have hsplit : Tensor.InBounds w.shape [i, h * (2 * half) + (b * half + k)] :=
    hw ▸ .cons hi (.cons (Tensor.merged_lt hh hcolumn) .nil)
  rw [permute, hwidth, Tensor.entry_reshape _ hsource (by
    simp only [Tensor.swapDims, Tensor.swapAt, Tensor.reshape, Tensor.offset, List.prod_cons,
      List.prod_nil, List.getD_cons_succ, List.getD_cons_zero, List.set_cons_succ,
      List.set_cons_zero]
    ring)]
  refine w.entry_reshape hsplit ?_
  rw [hw]
  simp only [Tensor.swapAt, Tensor.offset, List.prod_cons, List.prod_nil, List.getD_cons_succ,
    List.getD_cons_zero, List.set_cons_succ, List.set_cons_zero]
  ring

/-! ## Projecting -/

/-- A linear layer without bias. -/
def linear [AddCommMonoid α] [Mul α] (weight input : Tensor α) : Tensor α :=
  input.matmul (weight.unsqueezeDim 0)

/-- The projected heads of a batch, `[batch, heads, seq_len, head_dim]`. -/
def projectHeads [AddCommMonoid α] [Mul α] (weight input : Tensor α) (heads headDim : ℕ) :
    Tensor α :=
  ((linear weight input).reshape [input.dim 0, input.dim 1, heads, headDim]).swapDims 1 2

section Project

variable [AddCommMonoid α] [Mul α] {weight input : Tensor α} {n q dModel heads headDim : ℕ}

theorem shape_projectHeads (hinput : input.shape = [n, q, dModel]) :
    (projectHeads weight input heads headDim).shape = [n, heads, q, headDim] := by
  simp [projectHeads, Tensor.swapDims, Tensor.swapAt, Tensor.reshape, Tensor.dim, hinput]

/-- A channel of a head is the input row times a column of the weight. -/
theorem entry_projectHeads (hweight : weight.shape = [dModel, heads * headDim])
    (hinput : input.shape = [n, q, dModel]) {j h r d : ℕ} (hj : j < n) (hh : h < heads) (hr : r < q)
    (hd : d < headDim) :
    (projectHeads weight input heads headDim).entry [j, h, r, d] =
      ∑ e ∈ Finset.range dModel, input.entry [j, r, e] * weight.entry [e, h * headDim + d] := by
  have hdims : input.dim 0 = n ∧ input.dim 1 = q := by simp [Tensor.dim, hinput]
  have hshape : (linear weight input).shape = [n, q, heads * headDim] := by
    simp [linear, Tensor.matmul, Tensor.unsqueezeDim, hinput, hweight]
  have hsource : Tensor.InBounds (linear weight input).shape [j, r, h * headDim + d] :=
    hshape ▸ .cons hj (.cons hr (.cons (Tensor.merged_lt hh hd) .nil))
  have hread : (projectHeads weight input heads headDim).entry [j, h, r, d] =
      (linear weight input).entry [j, r, h * headDim + d] := by
    refine (linear weight input).entry_reshape hsource ?_
    rw [hshape, hdims.1, hdims.2]
    simp only [Tensor.swapAt, Tensor.offset, List.prod_cons, List.prod_nil, List.getD_cons_succ,
      List.getD_cons_zero, List.set_cons_succ, List.set_cons_zero]
    ring
  have hproduct := @Tensor.entry_matmul α _ _ input (weight.unsqueezeDim 0) [n] [1] q dModel
    (heads * headDim) hinput (by simp [Tensor.unsqueezeDim, hweight]) (by simp) rfl [j] rfl r
    (h * headDim + d)
  rw [hread, linear]
  exact hproduct

/-- Reordering the columns of a weight reorders the channels of every head. -/
theorem entry_projectHeads_permute {half : ℕ} (hweight : weight.shape = [dModel, heads * (2 * half)])
    (hinput : input.shape = [n, q, dModel]) {j h r k b : ℕ} (hj : j < n) (hh : h < heads)
    (hr : r < q) (hk : k < half) (hb : b < 2) :
    (projectHeads (permute weight heads dModel (heads * (2 * half))) input heads
        (2 * half)).entry [j, h, r, 2 * k + b] =
      (projectHeads weight input heads (2 * half)).entry [j, h, r, b * half + k] := by
  have hcolumn : b * half + k < 2 * half := Tensor.merged_lt hb hk
  rw [entry_projectHeads hweight hinput hj hh hr hcolumn,
    @entry_projectHeads α _ _ (permute weight heads dModel (heads * (2 * half))) input n q dModel
      heads (2 * half) rfl hinput j h r (2 * k + b) hj hh hr (by omega)]
  refine Finset.sum_congr rfl fun e he => ?_
  rw [entry_permute hweight (Finset.mem_range.mp he) hh hk hb]

end Project

/-! ## The two rotations -/

/-- A rotation table from a cosine and a sine for every position and pair. -/
def tableOf (cos sin : ℕ → ℕ → α) (rows half : ℕ) : RotaryEncoding α where
  freqComplex :=
    { shape := [rows, 2 * half, 2]
      entry := fun index =>
        if index.getD 2 0 = 0 then cos (index.getD 0 0) (index.getD 1 0 / 2)
        else sin (index.getD 0 0) (index.getD 1 0 / 2) }

/-- The checkpoint's rotation of one head at one position: channel `d` is paired
with channel `d + half`. -/
def rotateHalf [CommRing α] (half : ℕ) (cos sin : ℕ → α) (head : ℕ → α) (d : ℕ) : α :=
  if d < half then head d * cos d - head (d + half) * sin d
  else head d * cos (d - half) + head (d - half) * sin (d - half)

/-- A sum over pairs of neighbours is a sum over the two halves. -/
theorem sum_pairs_eq_sum_halves {M : Type*} [AddCommMonoid M] (half : ℕ) {paired halved : ℕ → M}
    (hmoved : ∀ k < half, ∀ b < 2, paired (2 * k + b) = halved (b * half + k)) :
    ∑ d ∈ Finset.range (2 * half), paired d = ∑ d ∈ Finset.range (2 * half), halved d := by
  calc ∑ d ∈ Finset.range (2 * half), paired d
      = ∑ k ∈ Finset.range half, ∑ b ∈ Finset.range 2, paired (k * 2 + b) := by
        rw [Nat.mul_comm, sum_range_mul half 2]
    _ = ∑ k ∈ Finset.range half, ∑ b ∈ Finset.range 2, halved (b * half + k) :=
        Finset.sum_congr rfl fun k hk => Finset.sum_congr rfl fun b hb => by
          rw [Nat.mul_comm, hmoved k (Finset.mem_range.mp hk) b (Finset.mem_range.mp hb)]
    _ = ∑ d ∈ Finset.range (2 * half), halved d := by
        rw [Finset.sum_comm, sum_range_mul 2 half]

section Rotate

variable [CommRing α] [Inhabited α]

/-- **Neighbours of the reordered head turn as the halves of the original.** -/
theorem entry_applyRopeLanes_permute {weight input : Tensor α} {n q dModel heads half rows : ℕ}
    {cos sin : ℕ → ℕ → α} {starts : List ℕ} (hweight : weight.shape = [dModel, heads * (2 * half)])
    (hinput : input.shape = [n, q, dModel]) {j h r start : ℕ} (hj : j < n) (hh : h < heads)
    (hr : r < q) (hstart : starts[j]? = some start) {k b : ℕ} (hk : k < half) (hb : b < 2) :
    (applyRopeLanes (tableOf cos sin rows half)
        (projectHeads (permute weight heads dModel (heads * (2 * half))) input heads (2 * half))
        starts).entry [j, h, r, 2 * k + b] =
      rotateHalf half (cos (start + r)) (sin (start + r))
        (fun d => (projectHeads weight input heads (2 * half)).entry [j, h, r, d])
        (b * half + k) := by
  have hfirst := entry_projectHeads_permute hweight hinput hj hh hr hk two_pos
  have hsecond := entry_projectHeads_permute hweight hinput hj hh hr hk one_lt_two
  simp only [Nat.add_zero, Nat.zero_mul, Nat.zero_add, Nat.one_mul] at hfirst hsecond
  obtain ⟨heven, hodd⟩ := @entry_applyRopeLanes α _ _ (tableOf cos sin rows half)
    (projectHeads (permute weight heads dModel (heads * (2 * half))) input heads (2 * half)) starts
    n heads q half rows j h r start rfl (shape_projectHeads hinput) hstart hj hh hr k hk
  have hpair : (2 * k + 1) / 2 = k := by omega
  interval_cases b
  · simp only [Nat.add_zero, Nat.zero_mul, Nat.zero_add]
    rw [heven, hfirst, hsecond, rotateHalf, if_pos hk, Nat.add_comm k half]
    simp [tableOf]
  · simp only [Nat.one_mul]
    rw [hodd, hfirst, hsecond, rotateHalf, if_neg (by omega), Nat.add_sub_cancel_left]
    simp [tableOf, hpair]

end Rotate

/-- **Loading a checkpoint preserves attention scores.** Whatever the cosines and
sines, the number of key/value heads and of query heads to each: for every layer,
query head and the key head it attends to, at any two positions of any two
rounds, the dot product of the loaded and rotated channels is the one the
checkpoint's own rotation gives on the original weights. -/
theorem unpermuted_scores_eq [CommRing α] [Inhabited α] (cos sin : ℕ → ℕ → α)
    {kvHeads nRep half rows dModel : ℕ} (hwidth : dModel = kvHeads * nRep * (2 * half))
    {layers : List (RotaryProjections α)} {l : ℕ} {layer loaded : RotaryProjections α}
    (hlayer : layers[l]? = some layer)
    (hloaded : (unpermuteRotaryProjections layers (kvHeads * nRep) kvHeads dModel)[l]? =
      some loaded)
    (hwq : layer.wq.shape = [dModel, kvHeads * nRep * (2 * half)])
    (hwk : layer.wk.shape = [dModel, kvHeads * (2 * half)])
    {x y : Tensor α} {n q m s : ℕ} (hx : x.shape = [n, q, dModel]) (hy : y.shape = [m, s, dModel])
    {starts starts' : List ℕ} {j r start i t start' g u : ℕ} (hj : j < n) (hr : r < q)
    (hstart : starts[j]? = some start) (hi : i < m) (ht : t < s)
    (hstart' : starts'[i]? = some start') (hg : g < kvHeads) (hu : u < nRep) :
    let rope := tableOf cos sin rows half
    let queries := applyRopeLanes rope (projectHeads loaded.wq x (kvHeads * nRep) (2 * half)) starts
    let keys := applyRopeLanes rope (projectHeads loaded.wk y kvHeads (2 * half)) starts'
    let query := rotateHalf half (cos (start + r)) (sin (start + r)) fun d =>
      (projectHeads layer.wq x (kvHeads * nRep) (2 * half)).entry [j, g * nRep + u, r, d]
    let key := rotateHalf half (cos (start' + t)) (sin (start' + t)) fun d =>
      (projectHeads layer.wk y kvHeads (2 * half)).entry [i, g, t, d]
    ∑ d ∈ Finset.range (2 * half),
        queries.entry [j, g * nRep + u, r, d] * keys.entry [i, g, t, d] =
      ∑ d ∈ Finset.range (2 * half), query d * key d := by
  intro rope queries keys query key
  have hhead : g * nRep + u < kvHeads * nRep := Tensor.merged_lt hg hu
  have hkv : dModel * kvHeads / (kvHeads * nRep) = kvHeads * (2 * half) := by
    rw [hwidth, Nat.mul_assoc, Nat.mul_div_cancel_left _ (by omega), Nat.mul_comm]
  obtain rfl : loaded = ⟨permute layer.wq (kvHeads * nRep) dModel (kvHeads * nRep * (2 * half)),
      permute layer.wk kvHeads dModel (kvHeads * (2 * half))⟩ := by
    simpa [unpermuteRotaryProjections, hlayer, hkv, ← hwidth] using hloaded.symm
  refine sum_pairs_eq_sum_halves half fun k hk b hb => ?_
  exact congrArg₂ (· * ·) (entry_applyRopeLanes_permute hwq hx hj hhead hr hstart hk hb)
    (entry_applyRopeLanes_permute hwk hy hi hg ht hstart' hk hb)

/-- Two key/value heads, four query heads of width six, on integer weights: the
third query head against the second key head, at positions 5 and 2. -/
theorem unpermuted_scores_eq_grouped :
    let cos : ℕ → ℕ → ℤ := fun position pair => position + 2 * pair
    let sin : ℕ → ℕ → ℤ := fun position pair => 3 * position - pair
    let layer : RotaryProjections ℤ :=
      ⟨⟨[24, 24], fun index => index.getD 0 0 * 24 + index.getD 1 0⟩,
        ⟨[24, 12], fun index => index.getD 0 0 - 5 * index.getD 1 0⟩⟩
    let loaded := (unpermuteRotaryProjections [layer] 4 2 24).headD layer
    let x : Tensor ℤ := ⟨[1, 2, 24], fun index => index.getD 1 0 + index.getD 2 0⟩
    let queries := applyRopeLanes (tableOf cos sin 8 3) (projectHeads loaded.wq x 4 6) [4]
    let keys := applyRopeLanes (tableOf cos sin 8 3) (projectHeads loaded.wk x 2 6) [1]
    ∑ d ∈ Finset.range 6, queries.entry [0, 2, 1, d] * keys.entry [0, 1, 1, d] =
      ∑ d ∈ Finset.range 6,
        rotateHalf 3 (cos 5) (sin 5) (fun d => (projectHeads layer.wq x 4 6).entry [0, 2, 1, d]) d *
          rotateHalf 3 (cos 2) (sin 2)
            (fun d => (projectHeads layer.wk x 2 6).entry [0, 1, 1, d]) d := by
  intro cos sin layer loaded x queries keys
  have hloaded : (unpermuteRotaryProjections [layer] (2 * 2) 2 24)[0]? = some loaded := rfl
  have hwq : layer.wq.shape = [24, 2 * 2 * (2 * 3)] := rfl
  have hwk : layer.wk.shape = [24, 2 * (2 * 3)] := rfl
  have hx : x.shape = [1, 2, 24] := rfl
  have hscores := @unpermuted_scores_eq ℤ _ _ cos sin 2 2 3 8 24 (by decide) [layer] 0 layer loaded
    rfl hloaded hwq hwk x x 1 2 1 2 hx hx [4] [1] 0 1 4 0 1 1 1 0 one_pos one_lt_two rfl one_pos
    one_lt_two rfl one_lt_two two_pos
  exact hscores

end BurnLm.Llama
