/-
# Rounds that succeed, rounds that are refused

Seen from outside, a round either happens for all its lanes or for none, and
one sum decides which. This module reads that off for every pool reached from
`new`, and then looks at the number a refusal reports.

A lane whose new length leaves the machine word asks for nothing, since its
wrapped length is shorter than the one it had. A round with such a lane can be
granted although it needs more than there is.

The number a refusal reports is measured where the loop stops: the lanes before
the stopping point have already been served from the stack, and the lanes after
it have not been looked at. It is the round's shortfall only if those later lanes
ask for nothing.
-/

import BurnLm.PagedKv.PoolRun

namespace BurnLm.PagedKv

open BurnLm.Math
open scoped List

namespace BlockPool

/-! ## All lanes or none -/

/-- A lane outside a committed round keeps its length and its table. -/
theorem Committed.unlisted {pool after : BlockPool} {lanes : List ℕ} {seqLen lane : ℕ}
    (hafter : Committed pool lanes seqLen after) (hlane : lane ∉ lanes) :
    after.laneLen lane = pool.laneLen lane ∧ after.laneBlocks lane = pool.laneBlocks lane := by
  have hlength := hafter.length_laneBlocks lane
  rw [if_neg hlane, add_zero] at hlength
  refine ⟨?_, ((hafter.isPrefix lane).eq_of_length hlength.symm).symm⟩
  rw [hafter.laneLen, if_neg hlane, add_zero]

/-- One round, all or nothing: it succeeds exactly when the new blocks of all its
lanes together are free. If it succeeds it returns the lengths from before, every
listed lane is `seqLen` longer and keeps the blocks it had in front. If it fails
every lane is as it was and the free stack is the old one in some order. The
other lanes are never touched. -/
structure AllOrNothing (pool : BlockPool) (lanes : List ℕ) (seqLen : ℕ) : Prop where
  granted_iff : (∃ starts, (pool.beginRound lanes seqLen).1 = .ok starts) ↔
    pool.demand lanes seqLen ≤ pool.freeBlocks
  advanced : ∀ starts, (pool.beginRound lanes seqLen).1 = .ok starts →
    starts = lanes.map pool.laneLen ∧ ∀ lane ∈ lanes,
      (pool.beginRound lanes seqLen).2.laneLen lane = pool.laneLen lane + seqLen ∧
      pool.laneBlocks lane <+: (pool.beginRound lanes seqLen).2.laneBlocks lane
  restored : ∀ exhausted, (pool.beginRound lanes seqLen).1 = .error exhausted →
    (∀ lane, (pool.beginRound lanes seqLen).2.laneLen lane = pool.laneLen lane ∧
      (pool.beginRound lanes seqLen).2.laneBlocks lane = pool.laneBlocks lane) ∧
    (pool.beginRound lanes seqLen).2.free ~ pool.free
  untouched : ∀ lane ∉ lanes,
    (pool.beginRound lanes seqLen).2.laneLen lane = pool.laneLen lane ∧
      (pool.beginRound lanes seqLen).2.laneBlocks lane = pool.laneBlocks lane

theorem Committed.allOrNothing {pool after : BlockPool} {lanes : List ℕ} {seqLen : ℕ}
    (hafter : Committed pool lanes seqLen after)
    (hround : pool.beginRound lanes seqLen = (.ok (lanes.map pool.laneLen), after))
    (hdemand : pool.demand lanes seqLen ≤ pool.freeBlocks) : AllOrNothing pool lanes seqLen where
  granted_iff := by
    rw [hround]
    exact iff_of_true ⟨_, rfl⟩ hdemand
  advanced starts hstarts := by
    rw [hround] at hstarts ⊢
    refine ⟨(Except.ok.inj hstarts).symm, fun lane hlane => ⟨?_, hafter.isPrefix lane⟩⟩
    rw [hafter.laneLen, if_pos hlane]
  restored exhausted herror := by
    rw [hround] at herror
    simp at herror
  untouched lane hlane := by
    rw [hround]
    exact hafter.unlisted hlane

theorem Restored.allOrNothing {pool after : BlockPool} {lanes : List ℕ} {seqLen : ℕ}
    {exhausted : PoolExhausted} (hafter : Restored pool after)
    (hround : pool.beginRound lanes seqLen = (.error exhausted, after))
    (hdemand : pool.freeBlocks < pool.demand lanes seqLen) : AllOrNothing pool lanes seqLen where
  granted_iff := by
    rw [hround]
    exact iff_of_false (by simp) (not_le.mpr hdemand)
  advanced starts hstarts := by
    rw [hround] at hstarts
    simp at hstarts
  restored _ _ := by
    rw [hround]
    exact ⟨hafter.lane, hafter.free⟩
  untouched lane _ := by
    rw [hround]
    exact hafter.lane lane

/-- A lane whose length wraps already holds what the wrapped length needs. -/
theorem Ledgered.growth_of_wraps {pool : BlockPool} (hpool : Ledgered pool) {seqLen lane : ℕ}
    (hword : seqLen < 2 ^ 64) (hwraps : 2 ^ 64 ≤ pool.laneLen lane + seqLen) :
    pool.growth seqLen lane = 0 := by
  have hshrinks : addWord (pool.laneLen lane) seqLen ≤ pool.laneLen lane := by
    unfold addWord
    omega
  exact Nat.sub_eq_zero_of_le (le_trans (ceilDiv_mono _ hshrinks) (hpool.held lane))

/-- So a round takes what its fitting lanes need, and no more. -/
theorem Ledgered.roundGrowth_eq {pool : BlockPool} (hpool : Ledgered pool) {seqLen : ℕ}
    (hword : seqLen < 2 ^ 64) (lanes : List ℕ) :
    pool.roundGrowth lanes seqLen = pool.demand (pool.fitting lanes seqLen) seqLen := by
  induction lanes with
  | nil => simp [fitting]
  | cons lane lanes ih =>
      simp only [fitting] at ih ⊢
      rw [roundGrowth_cons, List.filter_cons, ih]
      split
      · next hfits => rw [demand_cons, growth_of_lt (by simpa using hfits)]
      · next hwraps =>
          rw [hpool.growth_of_wraps hword (by simpa using hwraps), zero_add]

/-- **When a round is all or nothing.** In every pool reached from `new`, a round
over distinct lanes is all or nothing exactly when a word holds the new lengths
of all its lanes, or the lanes for which it does need more blocks than are free. -/
theorem beginRound_all_or_nothing_iff {blockSize numBlocks laneCount : ℕ} {start : BlockPool}
    (hnew : new blockSize numBlocks laneCount = some start) (ops : List (Op laneCount))
    (lanes : RoundLanes laneCount) {seqLen : ℕ} (hword : seqLen < 2 ^ 64) :
    (start.run ops).AllOrNothing lanes.lanes seqLen ↔
      (start.run ops).Unwrapped lanes.lanes seqLen := by
  obtain ⟨_, hcount, _⟩ := new_fields hnew
  obtain ⟨hpool, hcount', _⟩ := Ledgered.run ops (partitioned_of_new hnew).toLedgered hcount
  generalize start.run ops = pool at *
  constructor
  · intro hround
    by_contra hwraps
    obtain ⟨hunfit, hroom⟩ := not_or.mp hwraps
    rcases hpool.beginRound_cases hcount' lanes seqLen with
      ⟨_, after, hok, hafter⟩ | ⟨hshort, _⟩
    · -- the wrapped lane is not longer by the width
      refine hunfit fun lane hlane => ?_
      obtain ⟨hlen, _⟩ := (hround.advanced _ (congrArg Prod.fst hok)).2 lane hlane
      rw [hok, hafter.laneLen, if_pos hlane] at hlen
      exact hlen ▸ addWord_lt _ _
    · rw [hpool.roundGrowth_eq hword] at hshort
      exact hroom hshort
  · rintro (hfits | hshort)
    · rcases hpool.beginRound_fits hcount' lanes hfits with
        ⟨hdemand, after, hok, hafter⟩ | ⟨hdemand, exhausted, after, herror, hafter⟩
      · exact hafter.allOrNothing hok hdemand
      · exact hafter.allOrNothing herror hdemand
    · have htaken := hshort.trans_le (pool.demand_fitting_le lanes.lanes seqLen)
      rcases hpool.beginRound_cases hcount' lanes seqLen with
        ⟨hroom, _⟩ | ⟨_, exhausted, after, herror, hafter⟩
      · exact absurd hroom (not_le.mpr htaken)
      · exact hafter.allOrNothing herror
          (htaken.trans_le (pool.roundGrowth_le_demand lanes.lanes seqLen))

/-- A round that does not fit the free blocks, in a pool that has been used. -/
theorem beginRound_all_or_nothing_iff_used :
    let ops : List (Op 3) := [.beginRound ⟨[0], by decide, by decide⟩ 4]
    let pool := (⟨4, [3, 2, 1], [[], [], []], [0, 0, 0]⟩ : BlockPool).run ops
    pool.AllOrNothing [1, 2] 8 ↔ pool.Unwrapped [1, 2] 8 :=
  @beginRound_all_or_nothing_iff 4 4 3 _ (by decide)
    _ ⟨[1, 2], by decide, by decide⟩ 8 (by decide)

/-- A lane of one token asked to grow by all the word allows: the round wants
`2 ^ 64 - 1` blocks, has two, succeeds, and leaves the lane at length zero. -/
theorem wrapped_round_succeeds :
    let start : BlockPool := ⟨1, [3, 2, 1], [[], []], [0, 0]⟩
    let pool := start.run [Op.beginRound (⟨[0], by decide, by decide⟩ : RoundLanes 2) 1]
    new 1 4 2 = some start ∧
      pool.demand [0] (2 ^ 64 - 1) = 2 ^ 64 - 1 ∧ pool.freeBlocks = 2 ∧
      (pool.beginRound [0] (2 ^ 64 - 1)).1 = .ok [1] ∧
      (pool.beginRound [0] (2 ^ 64 - 1)).2.laneLen 0 = 0 ∧
      ¬ pool.AllOrNothing [0] (2 ^ 64 - 1) := by
  intro start pool
  refine ⟨by decide, by decide, by decide, by decide, by decide, fun hround => ?_⟩
  have hdemand := hround.granted_iff.mp ⟨[1], by decide⟩
  exact absurd hdemand (by decide)

/-! ## The number a refusal reports -/

/-- What a loop reports that serves every lane its need from `free` blocks: the
lane it stops at needs that many blocks more than the lanes before it left. -/
def shortAt (need : ℕ → ℕ) : List ℕ → ℕ → ℕ
  | [], _ => 0
  | lane :: lanes, free =>
    if need lane ≤ free then shortAt need lanes (free - need lane) else need lane - free

/-- Once the lanes of a round have asked for more than `free` blocks, the lanes
still to come ask for none. -/
def NothingAfterShort (need : ℕ → ℕ) (lanes : List ℕ) (free : ℕ) : Prop :=
  ∀ looked later, lanes = looked ++ later → free < (looked.map need).sum →
    (later.map need).sum = 0

section Serving

variable {need : ℕ → ℕ}

/-- A lane that is served moves the question to the rest of the round. -/
theorem nothingAfterShort_cons_of_le {lane free : ℕ} {lanes : List ℕ} (hserved : need lane ≤ free) :
    NothingAfterShort need (lane :: lanes) free ↔
      NothingAfterShort need lanes (free - need lane) := by
  constructor
  · intro hafter looked later hsplit hshort
    refine hafter (lane :: looked) later (by rw [hsplit, List.cons_append]) ?_
    rw [List.map_cons, List.sum_cons]
    omega
  · intro hafter looked later hsplit hshort
    cases looked with
    | nil => simp at hshort
    | cons head looked =>
        obtain ⟨rfl, hrest⟩ := List.cons.inj hsplit
        rw [List.map_cons, List.sum_cons] at hshort
        exact hafter looked later hrest (by omega)

/-- A lane that is not served must be the last that asks. -/
theorem nothingAfterShort_cons_of_lt {lane free : ℕ} {lanes : List ℕ} (hshort : free < need lane) :
    NothingAfterShort need (lane :: lanes) free ↔ (lanes.map need).sum = 0 := by
  constructor
  · exact fun hafter => hafter [lane] lanes rfl (by simpa using hshort)
  · intro hnone looked later hsplit hlooked
    cases looked with
    | nil => simp at hlooked
    | cons head looked =>
        obtain ⟨_, hrest⟩ := List.cons.inj hsplit
        rw [show lanes = looked ++ later from hrest, List.map_append, List.sum_append] at hnone
        omega

/-- The number reported never passes the sum's shortfall. -/
theorem shortAt_le (need : ℕ → ℕ) :
    ∀ (lanes : List ℕ) (free : ℕ), shortAt need lanes free ≤ (lanes.map need).sum - free
  | [], _ => Nat.zero_le _
  | lane :: lanes, free => by
      have hrest := shortAt_le need lanes (free - need lane)
      rw [shortAt, List.map_cons, List.sum_cons]
      split <;> omega

/-- It is that shortfall exactly when nothing is asked for past the lane it was
measured at. -/
theorem shortAt_eq_iff (need : ℕ → ℕ) :
    ∀ (lanes : List ℕ) (free : ℕ), free < (lanes.map need).sum →
      (shortAt need lanes free = (lanes.map need).sum - free ↔ NothingAfterShort need lanes free)
  | [], free, hdemand => by simp at hdemand
  | lane :: lanes, free, hdemand => by
      rw [List.map_cons, List.sum_cons] at hdemand
      by_cases hserved : need lane ≤ free
      · have hrest := shortAt_eq_iff need lanes (free - need lane) (by omega)
        rw [nothingAfterShort_cons_of_le hserved, ← hrest, shortAt, if_pos hserved, List.map_cons,
          List.sum_cons]
        omega
      · rw [nothingAfterShort_cons_of_lt (not_le.mp hserved), shortAt, if_neg hserved,
          List.map_cons, List.sum_cons]
        omega

/-- Only the needs of the lanes of the round count. -/
theorem NothingAfterShort.congr {other : ℕ → ℕ} {lanes : List ℕ} {free : ℕ}
    (hsame : ∀ lane ∈ lanes, need lane = other lane) (hafter : NothingAfterShort need lanes free) :
    NothingAfterShort other lanes free := by
  intro looked later hsplit hshort
  have hlooked : looked.map need = looked.map other := List.map_congr_left fun lane hlane =>
    hsame lane (hsplit ▸ List.mem_append_left _ hlane)
  have hlater : later.map need = later.map other := List.map_congr_left fun lane hlane =>
    hsame lane (hsplit ▸ List.mem_append_right _ hlane)
  rw [← hlater]
  exact hafter looked later hsplit (hlooked ▸ hshort)

end Serving

/-- A refused growth loop reports the number of the lane it stops at. -/
theorem growRound_shortBy {base : BlockPool} {seqLen : ℕ} {exhausted : PoolExhausted} :
    ∀ (lanes : List ℕ) (grown : List (ℕ × ℕ)) (pool : BlockPool),
      (grown.map Prod.fst ++ lanes).Nodup → (∀ lane ∈ lanes, lane < base.tables.length) →
      GrownFrom base seqLen grown pool →
      (growRound seqLen lanes grown pool).1 = .error exhausted →
      exhausted.shortBy = shortAt (base.growth seqLen) lanes pool.free.length
  | [], grown, pool, _, _, _, herror => by simp [growRound] at herror
  | lane :: lanes, grown, pool, hnodup, hrange, hgrown, herror => by
      have hfresh : lane ∉ grown.map Prod.fst := fun hmem =>
        List.disjoint_of_nodup_append hnodup hmem List.mem_cons_self
      rcases hgrown.growTable hfresh with ⟨hfree, hgrow⟩ | ⟨hfree, hgrow⟩
      · have hnext := hgrown.grow hfresh (hrange lane List.mem_cons_self) hfree
        simp only [growRound, hgrow, hgrown.untouched lane hfresh] at herror
        have hrest := growRound_shortBy lanes _ _ (by simpa using hnodup)
          (fun other hother => hrange other (List.mem_cons_of_mem _ hother)) hnext herror
        rw [hrest, shortAt, if_pos hfree, List.length_drop]
      · simp only [growRound, hgrow] at herror
        rw [← Except.error.inj herror, shortAt, if_neg (not_le.mpr hfree)]

/-- A refused round reports what its loop stopped at. -/
theorem Ledgered.beginRound_shortBy {pool : BlockPool} {laneCount : ℕ}
    (hpool : Ledgered pool) (hcount : pool.laneCount = laneCount)
    (lanes : RoundLanes laneCount) {seqLen : ℕ} {exhausted : PoolExhausted}
    (herror : (pool.beginRound lanes.lanes seqLen).1 = .error exhausted) :
    pool.free.length < pool.roundGrowth lanes.lanes seqLen ∧
      exhausted.shortBy = shortAt (pool.growth seqLen) lanes.lanes pool.free.length := by
  constructor
  · rcases hpool.beginRound_cases hcount lanes seqLen with ⟨_, after, hround, _⟩ | ⟨hshort, _⟩
    · rw [hround] at herror
      simp at herror
    · exact hshort
  · refine growRound_shortBy lanes.lanes [] pool (by simpa using lanes.nodup) (fun lane hlane => ?_)
      (GrownFrom.refl pool seqLen) ?_
    · rw [hpool.tables_length, hcount]
      exact lanes.inRange lane hlane
    · unfold beginRound at herror
      split at herror
      · next other after hgrow =>
          rw [hgrow]
          exact congrArg Except.error (Except.error.inj herror)
      · simp at herror

/-- The listed lanes stand as they did: same lengths, as many blocks. -/
def SameLanes (pool later : BlockPool) (lanes : List ℕ) : Prop :=
  ∀ lane ∈ lanes, later.laneLen lane = pool.laneLen lane ∧
    (later.laneBlocks lane).length = (pool.laneBlocks lane).length

/-- Then a round over them takes as many blocks as before. -/
theorem SameLanes.roundGrowth_eq {pool later : BlockPool} {lanes : List ℕ}
    (hsame : SameLanes pool later lanes) (hblock : later.blockSize = pool.blockSize) (seqLen : ℕ) :
    later.roundGrowth lanes seqLen = pool.roundGrowth lanes seqLen := by
  refine congrArg List.sum (List.map_congr_left fun lane hlane => ?_)
  rw [growth, growth, (hsame lane hlane).1, (hsame lane hlane).2, blocksFor, blocksFor, hblock]

/-- A round that takes as many blocks as it needs takes for every lane what that
lane needs. -/
theorem growth_eq_of_roundGrowth_eq {pool : BlockPool} {lanes : List ℕ} {seqLen : ℕ}
    (hsum : pool.roundGrowth lanes seqLen = pool.demand lanes seqLen) :
    ∀ lane ∈ lanes, pool.growth seqLen lane = pool.shortfall seqLen lane := by
  intro lane hlane
  by_contra hne
  have hless := lt_of_le_of_ne (pool.growth_le_shortfall seqLen lane) hne
  exact absurd hsum (List.sum_lt_sum _ _ (fun other _ => pool.growth_le_shortfall seqLen other)
    ⟨lane, hlane, hless⟩).ne

/-- The lanes of a round that wrap need nothing. -/
def WrapsNeedNothing (pool : BlockPool) (lanes : List ℕ) (seqLen : ℕ) : Prop :=
  ∀ lane ∈ lanes, pool.laneLen lane + seqLen < 2 ^ 64 ∨ pool.shortfall seqLen lane = 0

/-- That is, every lane takes what it needs. -/
theorem Ledgered.wrapsNeedNothing_iff {pool : BlockPool} (hpool : Ledgered pool)
    {lanes : List ℕ} {seqLen : ℕ} (hword : seqLen < 2 ^ 64) :
    pool.WrapsNeedNothing lanes seqLen ↔
      ∀ lane ∈ lanes, pool.growth seqLen lane = pool.shortfall seqLen lane := by
  constructor
  · intro hwraps lane hlane
    rcases hwraps lane hlane with hfits | hnone
    · exact growth_of_lt hfits
    · exact le_antisymm (pool.growth_le_shortfall seqLen lane) (hnone ▸ Nat.zero_le _)
  · intro hsame lane hlane
    by_cases hfits : pool.laneLen lane + seqLen < 2 ^ 64
    · exact Or.inl hfits
    · exact Or.inr ((hsame lane hlane).symm.trans
        (hpool.growth_of_wraps hword (not_lt.mp hfits)))

/-- **When a refusal reports the true shortfall.** In every pool reached from
`new`, a refused round reports the blocks the whole round needs beyond those
free, and freeing that many more makes the same round succeed, exactly when a
word holds the new length of every lane that needs a block, and no lane after the
one the stack ran out at needs one. -/
theorem shortBy_eq_shortfall_iff {blockSize numBlocks laneCount : ℕ} {start : BlockPool}
    (hnew : new blockSize numBlocks laneCount = some start) (ops : List (Op laneCount))
    (lanes : RoundLanes laneCount) {seqLen : ℕ} (hword : seqLen < 2 ^ 64)
    {exhausted : PoolExhausted}
    (herror : ((start.run ops).beginRound lanes.lanes seqLen).1 = .error exhausted) :
    let pool := start.run ops
    (exhausted.shortBy = pool.demand lanes.lanes seqLen - pool.freeBlocks ∧
      ∀ frees : List (Op laneCount), SameLanes pool (pool.run frees) lanes.lanes →
        (pool.run frees).freeBlocks = pool.freeBlocks + exhausted.shortBy →
        ∃ starts, ((pool.run frees).beginRound lanes.lanes seqLen).1 = .ok starts) ↔
      pool.WrapsNeedNothing lanes.lanes seqLen ∧
        NothingAfterShort (pool.shortfall seqLen) lanes.lanes pool.freeBlocks := by
  obtain ⟨_, hcount, _⟩ := new_fields hnew
  obtain ⟨hpool, hcount', _⟩ := Ledgered.run ops (partitioned_of_new hnew).toLedgered hcount
  intro pool
  change Ledgered pool at hpool
  obtain ⟨hshort, hreported⟩ := hpool.beginRound_shortBy hcount' lanes herror
  have hexact := shortAt_eq_iff (pool.growth seqLen) lanes.lanes pool.free.length hshort
  have hle := pool.roundGrowth_le_demand lanes.lanes seqLen
  constructor
  · rintro ⟨hshortfall, -⟩
    have hbound := shortAt_le (pool.growth seqLen) lanes.lanes pool.free.length
    rw [← hreported, hshortfall, freeBlocks] at hbound
    have hsum : pool.roundGrowth lanes.lanes seqLen = pool.demand lanes.lanes seqLen := by
      change _ ≤ pool.roundGrowth lanes.lanes seqLen - _ at hbound
      omega
    have hsame := growth_eq_of_roundGrowth_eq hsum
    refine ⟨(hpool.wrapsNeedNothing_iff hword).mpr hsame, (hexact.mp ?_).congr hsame⟩
    rw [← hreported, hshortfall, ← hsum]
    rfl
  · rintro ⟨hwraps, hafter⟩
    have hsame := (hpool.wrapsNeedNothing_iff hword).mp hwraps
    have hsum : pool.roundGrowth lanes.lanes seqLen = pool.demand lanes.lanes seqLen :=
      congrArg List.sum (List.map_congr_left hsame)
    have hshortfall : exhausted.shortBy = pool.demand lanes.lanes seqLen - pool.freeBlocks := by
      rw [hreported, hexact.mpr (hafter.congr fun lane hlane => (hsame lane hlane).symm), ← hsum]
      rfl
    refine ⟨hshortfall, fun frees hlanes hfree => ?_⟩
    obtain ⟨hlater, hcount'', hblock, _⟩ := Ledgered.run frees hpool hcount'
    have hroom : (pool.run frees).roundGrowth lanes.lanes seqLen ≤
        (pool.run frees).free.length := by
      rw [hlanes.roundGrowth_eq hblock, hsum, ← freeBlocks, hfree, hshortfall]
      exact (Nat.add_sub_cancel' (hsum ▸ hshort.le)).ge
    rcases hlater.beginRound_cases hcount'' lanes seqLen with ⟨_, after, hround, _⟩ | ⟨hlt, _⟩
    · exact ⟨_, congrArg Prod.fst hround⟩
    · exact absurd hroom (not_le.mpr hlt)

/-- Three lanes: the first is served, the second is not, the third asks for
nothing. -/
theorem shortBy_eq_shortfall_iff_served :
    let ops : List (Op 3) := [.beginRound ⟨[2], by decide, by decide⟩ 1]
    let pool := (⟨4, [2, 1], [[], [], []], [0, 0, 0]⟩ : BlockPool).run ops
    ((⟨1⟩ : PoolExhausted).shortBy = pool.demand [0, 1, 2] 3 - pool.freeBlocks ∧
      ∀ frees : List (Op 3), SameLanes pool (pool.run frees) [0, 1, 2] →
        (pool.run frees).freeBlocks = pool.freeBlocks + 1 →
        ∃ starts, ((pool.run frees).beginRound [0, 1, 2] 3).1 = .ok starts) ↔
      pool.WrapsNeedNothing [0, 1, 2] 3 ∧
        NothingAfterShort (pool.shortfall 3) [0, 1, 2] pool.freeBlocks :=
  @shortBy_eq_shortfall_iff 4 3 3 _ (by decide) _ ⟨[0, 1, 2], by decide, by decide⟩ 3 (by decide)
    ⟨1⟩ (by decide)

/-- Two empty lanes want two blocks each, and one block is free: three are
missing, one is reported. Once a third lane has given that one back, the same
round still fails. -/
theorem shortBy_misses_later_lanes :
    let start : BlockPool := ⟨4, [2, 1], [[], [], []], [0, 0, 0]⟩
    let pool := start.run [Op.beginRound (⟨[2], by decide, by decide⟩ : RoundLanes 3) 4]
    new 4 3 3 = some start ∧
      (pool.beginRound [0, 1] 8).1 = .error ⟨1⟩ ∧
      pool.demand [0, 1] 8 - pool.freeBlocks = 3 ∧
      (pool.freeLane 2).freeBlocks = pool.freeBlocks + 1 ∧
      ((pool.freeLane 2).beginRound [0, 1] 8).1 = .error ⟨2⟩ := by
  decide

end BlockPool

end BurnLm.PagedKv
