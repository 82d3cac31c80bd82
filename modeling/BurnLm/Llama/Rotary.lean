/-
# Rotary positions of ragged lanes

A round's lanes sit at different positions. The rotation gathers one table row
for every lane and row of the round in a single `select`, lays the rows out over
the heads, and rotates all lanes at once. This module reads every entry of the
result off the table: the rotation of a channel pair depends on its own lane's
start and on nothing of the other lanes.

The table is the precomputed one of the rotary encoding: a row for every
position and, for every channel, the cosine and the sine it is rotated by. How
these are computed is left open.
-/

import Mathlib.Analysis.SpecialFunctions.Pow.Real
import Mathlib.Analysis.SpecialFunctions.Trigonometric.Deriv
import Mathlib.Tactic.IntervalCases
import BurnLm.Math.TensorArith
import BurnLm.PagedKv.Cache

namespace BurnLm.Llama

open BurnLm.Math BurnLm.PagedKv
open scoped BigOperators

universe u

variable {α : Type u}

/-- The precomputed rotation table, `[positions, head_dim, 2]`. -/
structure RotaryEncoding (α : Type u) where
  freqComplex : Tensor α

/-- The table rows one round reads, lane by lane. -/
def ropeRows (starts : List ℕ) (q : ℕ) : List ℕ :=
  starts.flatMap fun s => (List.range q).map fun r => s + r

/-- The row the gather reads for row `r` of lane `j`. -/
theorem getD_ropeRows {starts : List ℕ} {q j r start : ℕ} (hstart : starts[j]? = some start)
    (hr : r < q) : (ropeRows starts q).getD (j * q + r) default = start + r := by
  rw [ropeRows, getD_flatMap_of_length starts _ (fun _ _ => by simp) hr default start hstart]
  simp [List.getD_eq_getElem?_getD, List.getElem?_range hr]

/-- The frequencies laid out over lanes, heads and rows. -/
theorem entry_freqs {rope : RotaryEncoding α} {starts : List ℕ}
    {n heads q half rows j h r start : ℕ}
    (htable : rope.freqComplex.shape = [rows, 2 * half, 2])
    (hstart : starts[j]? = some start) (hj : j < n) (hh : h < heads) (hr : r < q) {d c : ℕ}
    (hd : d < 2 * half) (hc : c < 2) :
    ((((rope.freqComplex.select (.fromData (ropeRows starts q) [n * q])).reshape
      [n, 1, q, 2 * half, 2]).expand [n, heads, q, 2 * half, 2]).reshape
        [n * heads, q, 2 * half, 2]).entry [j * heads + h, r, d, c] =
      rope.freqComplex.entry [start + r, d, c] := by
  have hexpanded : Tensor.InBounds [n, heads, q, 2 * half, 2] [j, h, r, d, c] :=
    .cons hj (.cons hh (.cons hr (.cons hd (.cons hc .nil))))
  have hselected : Tensor.InBounds [n * q, 2 * half, 2] [j * q + r, d, c] :=
    .cons (Tensor.merged_lt hj hr) (.cons hd (.cons hc .nil))
  have hsame := Tensor.zipWith_expand (.cons hj (.cons Nat.one_pos (.cons hr
    (.cons hd (.cons hc .nil)))) : Tensor.InBounds [n, 1, q, 2 * half, 2] [j, 0, r, d, c])
  rw [Tensor.entry_reshape _ hexpanded
    (by simp only [Tensor.expand, Tensor.offset, List.prod_cons, List.prod_nil]; ring)]
  have hrepeat : List.zipWith (fun size at_ => if size = 1 then 0 else at_)
      [n, 1, q, 2 * half, 2] [j, h, r, d, c] = [j, 0, r, d, c] := by
    simpa using hsame
  have hshape : (rope.freqComplex.select (.fromData (ropeRows starts q) [n * q])).shape =
      [n * q, 2 * half, 2] := by
    simp [Tensor.select, Tensor.fromData, htable]
  simp only [Tensor.expand]
  rw [show ((rope.freqComplex.select (.fromData (ropeRows starts q) [n * q])).reshape
    [n, 1, q, 2 * half, 2]).shape = [n, 1, q, 2 * half, 2] from rfl, hrepeat,
    Tensor.entry_reshape _ (hshape ▸ hselected)
      (by rw [hshape]; simp only [Tensor.offset, List.prod_cons, List.prod_nil]; ring)]
  simp only [Tensor.select, List.headD_cons, List.tail_cons, Tensor.fromData, Tensor.offset,
    List.prod_nil, mul_one, add_zero, getD_ropeRows hstart hr]

/-! ## The table a model is built with -/

/-- What a model's cache and rotation table are sized by. -/
structure LlamaConfig where
  dModel : ℕ
  numHiddenLayers : ℕ
  numAttentionHeads : ℕ
  numKeyValueHeads : Option ℕ
  maxSeqLen : ℕ
  maxBatchSize : ℕ
  /-- Tokens the pool holds; zero for one window per lane. -/
  kvPoolTokens : ℕ
  maxSeqLen_lt : maxSeqLen < 2 ^ 64 := by decide

namespace LlamaConfig

/-- The sizes of the key/value cache. -/
def kvLayout (config : LlamaConfig) : KvLayout where
  nLayers := config.numHiddenLayers
  nKvHeads := config.numKeyValueHeads.getD config.numAttentionHeads
  headDim := config.dModel / config.numAttentionHeads
  maxSeqLen := config.maxSeqLen
  maxSeqLen_lt := config.maxSeqLen_lt

/-- The cache and the rotation table of a new model. `rotary` computes a table
for so many positions and channels. -/
def init [Zero α] (config : LlamaConfig) (rotary : ℕ → ℕ → RotaryEncoding α)
    (uninit : ℕ → (List ℕ → α) × (List ℕ → α)) : Option (PagedKvCache α × RotaryEncoding α) :=
  let layout := config.kvLayout
  let cache :=
    if 0 < config.kvPoolTokens then
      let blockSize := min defaultBlockSize layout.maxSeqLen
      PagedKvCache.new layout config.maxBatchSize blockSize
        (config.kvPoolTokens ⌈/⌉ blockSize) uninit
    else PagedKvCache.withDefaultBlocks layout config.maxBatchSize uninit
  let rope := rotary (config.maxSeqLen * 5) (config.dModel / config.numAttentionHeads)
  cache.map fun cache => (cache, rope)

end LlamaConfig

variable [CommRing α] [Inhabited α]

/-- The sign pattern of a rotation: a pair `(a, b)` becomes `(a, -b, b, a)`. -/
def ropeSign : Tensor α := .fromData [1, 0, 0, 1, 0, -1, 1, 0] [2, 4]

/-- Rotate `x`, shaped `[n_lanes, heads, seq_len, head_dim]`, lane `j` from
position `starts[j]` on. -/
def applyRopeLanes (rope : RotaryEncoding α) (x : Tensor α) (starts : List ℕ) : Tensor α :=
  let n := x.dim 0
  let heads := x.dim 1
  let q := x.dim 2
  let headDim := x.dim 3
  let idx := Tensor.fromData (ropeRows starts q) [n * q]
  let freqs := (((rope.freqComplex.select idx).reshape [n, 1, q, headDim, 2]).expand
    [n, heads, q, headDim, 2]).reshape [n * heads, q, headDim, 2]
  let sign := (ropeSign.unsqueezeDim 0).unsqueezeDim 0
  let out := (((x.reshape [n * heads, q, headDim / 2, 2]).matmul sign).reshape
    [n * heads, q, headDim, 2]).mul freqs
  (out.sumDim 3).reshape [n, heads, q, headDim]

section Entries

variable {rope : RotaryEncoding α} {x : Tensor α} {starts : List ℕ}
  {n heads q half rows j h r start : ℕ}

/-- The sign pattern over a stack of pairs. -/
theorem entry_ropeSign {i e : ℕ} (hi : i < 2) (he : e < 4) :
    (((ropeSign : Tensor α).unsqueezeDim 0).unsqueezeDim 0).entry [0, 0, i, e] =
      ([[1, 0, 0, 1], [0, -1, 1, 0]].getD i []).getD e 0 := by
  interval_cases i <;> interval_cases e <;>
    simp [ropeSign, Tensor.unsqueezeDim, Tensor.fromData, Tensor.offset]

/-- A pair spread out by the sign pattern, read back under the channel it will be
summed into. -/
theorem entry_spread (hx : x.shape = [n, heads, q, 2 * half]) (hj : j < n) (hh : h < heads)
    (hr : r < q) {k b c : ℕ} (hk : k < half) (hb : b < 2) (hc : c < 2) :
    (((x.reshape [n * heads, q, half, 2]).matmul
      ((ropeSign.unsqueezeDim 0).unsqueezeDim 0)).reshape [n * heads, q, 2 * half, 2]).entry
        [j * heads + h, r, 2 * k + b, c] =
      x.entry [j, h, r, 2 * k] * ([[1, 0, 0, 1], [0, -1, 1, 0]].getD 0 []).getD (2 * b + c) 0 +
        x.entry [j, h, r, 2 * k + 1] *
          ([[1, 0, 0, 1], [0, -1, 1, 0]].getD 1 []).getD (2 * b + c) 0 := by
  have hm : j * heads + h < n * heads := Tensor.merged_lt hj hh
  have hpair : ∀ i < 2, (x.reshape [n * heads, q, half, 2]).entry [j * heads + h, r, k, i] =
      x.entry [j, h, r, 2 * k + i] := by
    intro i hi
    have hsource : Tensor.InBounds x.shape [j, h, r, 2 * k + i] :=
      hx ▸ .cons hj (.cons hh (.cons hr (.cons (by omega) .nil)))
    refine x.entry_reshape hsource ?_
    rw [hx]
    simp only [Tensor.offset, List.prod_cons, List.prod_nil]
    ring
  have hshape : ((x.reshape [n * heads, q, half, 2]).matmul
      ((ropeSign.unsqueezeDim 0).unsqueezeDim 0)).shape = [n * heads, q, half, 4] := by
    simp [Tensor.matmul, Tensor.reshape, Tensor.unsqueezeDim, ropeSign, Tensor.fromData]
  have hsource : Tensor.InBounds [n * heads, q, half, 4] [j * heads + h, r, k, 2 * b + c] :=
    .cons hm (.cons hr (.cons hk (.cons (by omega) .nil)))
  rw [Tensor.entry_reshape _ (hshape ▸ hsource)
    (by rw [hshape]; simp only [Tensor.offset, List.prod_cons, List.prod_nil]; ring)]
  have hproduct := @Tensor.entry_matmul α _ _ (x.reshape [n * heads, q, half, 2])
    ((ropeSign.unsqueezeDim 0).unsqueezeDim 0) [n * heads, q] [1, 1] half 2 4 rfl rfl
    (by simp) rfl [j * heads + h, r] rfl k (2 * b + c)
  simp only [List.cons_append, List.nil_append, List.length_cons, List.length_nil,
    List.replicate_succ, List.replicate_zero] at hproduct
  rw [hproduct, Finset.sum_range_succ, Finset.sum_range_one, hpair 0 (by omega),
    hpair 1 (by omega), entry_ropeSign (by omega) (by omega), entry_ropeSign (by omega) (by omega)]
  rfl

/-- What a channel of the result is, from the pair it belongs to. -/
theorem entry_applyRopeLanes_sum (htable : rope.freqComplex.shape = [rows, 2 * half, 2])
    (hx : x.shape = [n, heads, q, 2 * half]) (hstart : starts[j]? = some start) (hj : j < n)
    (hh : h < heads) (hr : r < q) {k b : ℕ} (hk : k < half) (hb : b < 2) :
    (applyRopeLanes rope x starts).entry [j, h, r, 2 * k + b] =
      ∑ c ∈ Finset.range 2,
        (x.entry [j, h, r, 2 * k] *
            ([[1, 0, 0, 1], [0, -1, 1, 0]].getD 0 []).getD (2 * b + c) 0 +
          x.entry [j, h, r, 2 * k + 1] *
            ([[1, 0, 0, 1], [0, -1, 1, 0]].getD 1 []).getD (2 * b + c) 0) *
          rope.freqComplex.entry [start + r, 2 * k + b, c] := by
  have hdims : x.dim 0 = n ∧ x.dim 1 = heads ∧ x.dim 2 = q ∧ x.dim 3 = 2 * half := by
    simp [Tensor.dim, hx]
  obtain ⟨h0, h1, h2, h3⟩ := hdims
  have hsource : Tensor.InBounds [n * heads, q, 2 * half, 1] [j * heads + h, r, 2 * k + b, 0] :=
    .cons (Tensor.merged_lt hj hh) (.cons hr (.cons (by omega) (.cons Nat.one_pos .nil)))
  simp only [applyRopeLanes, h0, h1, h2, h3, Nat.mul_div_cancel_left half two_pos]
  rw [Tensor.entry_reshape _ hsource (by
    simp only [Tensor.sumDim, Tensor.mul, Tensor.reshape, List.set_cons_succ, List.set_cons_zero,
      Tensor.offset, List.prod_cons, List.prod_nil]
    ring)]
  rw [Tensor.entry_sumDim (show _ = 2 from rfl)]
  refine Finset.sum_congr rfl fun c hc => ?_
  have hc' : c < 2 := Finset.mem_range.mp hc
  rw [Tensor.entry_mul]
  exact congrArg₂ (· * ·) (entry_spread hx hj hh hr hk hb hc')
    (entry_freqs htable hstart hj hh hr (by omega) hc')

/-- **Every channel pair is rotated by its own lane's table row.** -/
theorem entry_applyRopeLanes (htable : rope.freqComplex.shape = [rows, 2 * half, 2])
    (hx : x.shape = [n, heads, q, 2 * half]) (hstart : starts[j]? = some start) (hj : j < n)
    (hh : h < heads) (hr : r < q) {k : ℕ} (hk : k < half) :
    (applyRopeLanes rope x starts).entry [j, h, r, 2 * k] =
        x.entry [j, h, r, 2 * k] * rope.freqComplex.entry [start + r, 2 * k, 0] -
          x.entry [j, h, r, 2 * k + 1] * rope.freqComplex.entry [start + r, 2 * k, 1] ∧
      (applyRopeLanes rope x starts).entry [j, h, r, 2 * k + 1] =
        x.entry [j, h, r, 2 * k + 1] * rope.freqComplex.entry [start + r, 2 * k + 1, 0] +
          x.entry [j, h, r, 2 * k] * rope.freqComplex.entry [start + r, 2 * k + 1, 1] := by
  have hfirst := @entry_applyRopeLanes_sum α _ _ rope x starts n heads q half rows j h r start
    htable hx hstart hj hh hr k 0 hk two_pos
  have hsecond := @entry_applyRopeLanes_sum α _ _ rope x starts n heads q half rows j h r start
    htable hx hstart hj hh hr k 1 hk one_lt_two
  rw [Finset.sum_range_succ, Finset.sum_range_one] at hfirst hsecond
  simp only [Nat.add_zero] at hfirst
  rw [hfirst, hsecond]
  constructor
  · simp
    ring
  · simp

end Entries

end BurnLm.Llama
