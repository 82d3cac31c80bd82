/-
# Where a round writes

A granted round hands every layer one list of destinations, a block and an
offset for each new token of each lane. The list is computed by looking tables up
at computed indices, and a lookup past a table's end does not return. On every
cache that calls can lead to, the lookups all hit, the destinations lie inside
blocks of the lanes they are for, and no two of them are the same.
-/

import BurnLm.PagedKv.CacheRun

namespace BurnLm.PagedKv

open BurnLm.Math

universe u

/-- A map that succeeds at every entry. -/
theorem mapM_eq_some_map {β γ : Type*} {items : List β} {find : β → Option γ} {found : β → γ}
    (hfind : ∀ item ∈ items, find item = some (found item)) :
    items.mapM find = some (items.map found) := by
  induction items with
  | nil => rfl
  | cons item items ih =>
      rw [List.mapM_cons, hfind item List.mem_cons_self,
        ih fun item hitem => hfind item (List.mem_cons_of_mem _ hitem)]
      rfl

/-- The destinations of one lane's new tokens, each looked up in its table. -/
def laneDestinations (table : List ℕ) (start seqLen blockSize : ℕ) : Option (List (ℕ × ℕ)) :=
  (List.range' start seqLen).mapM fun p =>
    table[p / blockSize]?.map fun block => (block, p % blockSize)

/-- The destinations of a round, or nothing where a lookup is past its table. -/
def destinations (tables : List (List ℕ)) (starts : List ℕ) (seqLen blockSize : ℕ) :
    Option (List (ℕ × ℕ)) :=
  ((tables.zip starts).mapM fun entry =>
    laneDestinations entry.1 entry.2 seqLen blockSize).map List.flatten

/-- A number as it is cast to 32 bits with a sign. -/
def asI32 (value : ℕ) : ℤ := (value : ℤ).bmod (2 ^ 32)

theorem asI32_of_lt {value : ℕ} (hvalue : value < 2 ^ 31) : asI32 value = value :=
  Int.bmod_eq_of_le (by omega) (by omega)

namespace BlockPool

variable {pool after : BlockPool} {lanes : List ℕ} {seqLen : ℕ}

/-- The addresses of a round's new tokens, lane by lane. -/
def writtenAddresses (pool after : BlockPool) (lanes : List ℕ) (seqLen : ℕ) : List (ℕ × ℕ) :=
  lanes.flatMap fun lane => (List.range' (pool.laneLen lane) seqLen).map (after.address lane)

/-- A new token of a lane of the round is live after it. -/
theorem Committed.live (hafter : Committed pool lanes seqLen after) {lane position : ℕ}
    (hlane : lane ∈ lanes) (hposition : position ∈ List.range' (pool.laneLen lane) seqLen) :
    position < after.laneLen lane := by
  rw [List.mem_range'_1] at hposition
  rw [hafter.laneLen, if_pos hlane]
  exact hposition.2

/-- Every lookup of a committed round hits, and finds the token's address. -/
theorem Committed.destinations_eq (hafter : Committed pool lanes seqLen after)
    (hpool : after.Partitioned) :
    destinations (lanes.map after.laneBlocks) (lanes.map pool.laneLen) seqLen after.blockSize =
      some (writtenAddresses pool after lanes seqLen) := by
  have hlane : ∀ lane ∈ lanes,
      laneDestinations (after.laneBlocks lane) (pool.laneLen lane) seqLen after.blockSize =
        some ((List.range' (pool.laneLen lane) seqLen).map (after.address lane)) := by
    intro lane hlane
    refine mapM_eq_some_map fun position hposition => ?_
    have hhit := hpool.div_lt_length (hafter.live hlane hposition)
    rw [List.getElem?_eq_getElem hhit, Option.map_some, address, List.getD_eq_getElem _ _ hhit]
  rw [destinations, LanePlan.zip_tables_starts, List.mapM_map]
  exact congrArg (Option.map List.flatten) (mapM_eq_some_map hlane)

/-- A round's destinations are pairwise distinct. -/
theorem Committed.nodup_writtenAddresses (hafter : Committed pool lanes seqLen after)
    (hpool : after.Partitioned) (hnodup : lanes.Nodup) :
    (writtenAddresses pool after lanes seqLen).Nodup := by
  have hinj {lane other position otherPosition : ℕ} (hlane : lane ∈ lanes) (hother : other ∈ lanes)
      (hposition : position ∈ List.range' (pool.laneLen lane) seqLen)
      (hotherPosition : otherPosition ∈ List.range' (pool.laneLen other) seqLen)
      (hsame : after.address lane position = after.address other otherPosition) :
      lane = other ∧ position = otherPosition :=
    hpool.address_inj (hafter.live hlane hposition) (hafter.live hother hotherPosition) hsame
  refine List.nodup_flatMap.mpr ⟨fun lane hlane => ?_, ?_⟩
  · exact List.Nodup.map_on (fun position hposition other hother hsame =>
      (hinj hlane hlane hposition hother hsame).2) List.nodup_range'
  · refine hnodup.imp_of_mem fun {lane other} hlane hother hne => ?_
    intro address haddress hotherAddress
    obtain ⟨position, hposition, rfl⟩ := List.mem_map.mp haddress
    obtain ⟨otherPosition, hotherPosition, hsame⟩ := List.mem_map.mp hotherAddress
    exact hne (hinj hother hlane hotherPosition hposition hsame).1.symm

/-- A destination lies in a block of its own lane, at an offset inside it. -/
theorem Committed.address_mem (hafter : Committed pool lanes seqLen after)
    (hpool : after.Partitioned) {lane position : ℕ} (hlane : lane ∈ lanes)
    (hposition : position ∈ List.range' (pool.laneLen lane) seqLen) :
    (after.address lane position).1 ∈ after.laneBlocks lane ∧
      (after.address lane position).1 ≠ sentinelBlock ∧
      (after.address lane position).2 < after.blockSize := by
  have hblock := hpool.address_mem (hafter.live hlane hposition)
  exact ⟨hblock, hpool.ne_sentinel_of_mem_laneBlocks hblock, Nat.mod_lt _ hpool.blockSize_pos⟩

theorem length_writtenAddresses :
    (writtenAddresses pool after lanes seqLen).length = lanes.length * seqLen := by
  rw [writtenAddresses, List.length_flatMap,
    List.map_congr_left (fun lane _ => by rw [List.length_map, List.length_range'])]
  simp

/-- Token `step` of lane row `j` is written to its address. -/
theorem getElem?_writtenAddresses {j lane step : ℕ} (hj : lanes[j]? = some lane)
    (hstep : step < seqLen) :
    (writtenAddresses pool after lanes seqLen)[j * seqLen + step]? =
      some (after.address lane (pool.laneLen lane + step)) := by
  have hinside : j * seqLen + step < (writtenAddresses pool after lanes seqLen).length := by
    rw [length_writtenAddresses]
    exact Tensor.merged_lt (List.getElem?_eq_some_iff.mp hj).1 hstep
  rw [List.getElem?_eq_getElem hinside, ← List.getD_eq_getElem _ default hinside,
    writtenAddresses, getD_flatMap_of_length lanes _ (fun _ _ => by simp) hstep default lane hj]
  simp [List.getD_eq_getElem?_getD, hstep]

/-- A lane's blocks are usable blocks. -/
theorem Partitioned.le_usableBlocks (hpool : pool.Partitioned) {lane block : ℕ}
    (hblock : block ∈ pool.laneBlocks lane) : block ≤ pool.usableBlocks :=
  (hpool.mem_ledger.mp (List.mem_append_right _ (mem_flatten_of_mem_getD hblock))).2

end BlockPool

/-- The ids a round writes with are its destinations, flattened. -/
theorem writeIndices_eq {pool after : BlockPool} {lanes : List ℕ} {seqLen : ℕ} :
    writeIndices (lanes.map after.laneBlocks) (lanes.map pool.laneLen) seqLen after.blockSize =
      (BlockPool.writtenAddresses pool after lanes seqLen).flatMap fun at_ => [at_.1, at_.2] := by
  rw [writeIndices, LanePlan.zip_tables_starts, BlockPool.writtenAddresses, List.flatMap_map,
    List.flatMap_assoc]
  simp only [List.flatMap_map]
  rfl

namespace LoggedCache

variable {α : Type u} [Zero α] {layout : KvLayout} {maxLanes blockSize usableBlocks : ℕ}
  {uninit : ℕ → (List ℕ → α) × (List ℕ → α)} {cache planned : PagedKvCache α}

/-- What a granted plan on a reachable cache is made of. -/
theorem granted_of_run
    (hnew : PagedKvCache.new layout maxLanes blockSize usableBlocks uninit = some cache)
    (ops : List (CacheOp α layout maxLanes)) (lanes : RoundLanes maxLanes) {seqLen : ℕ}
    {plan : LanePlan}
    (hround : ((start cache).run ops).cache.prepareLanes lanes.lanes seqLen = (.ok plan, planned)) :
    planned.pool.Partitioned ∧ planned.pool.blockSize = blockSize ∧
      BlockPool.Committed ((start cache).run ops).cache.pool lanes.lanes seqLen planned.pool ∧
      plan = .ofCommit planned.pool lanes.lanes
        (lanes.lanes.map ((start cache).run ops).cache.pool.laneLen) seqLen := by
  have hbefore : Mirrored layout maxLanes blockSize (usableBlocks + 1) ((start cache).run ops) :=
    (Mirrored.start hnew).run ops
  rcases PagedKvCache.prepareLanes_cases _ hbefore.pool.toLedgered hbefore.laneCount_eq lanes
      seqLen with
    ⟨lane, _, _, hcase⟩ | ⟨_, _, exhausted, pool, hcase, _⟩ | ⟨_, _, pool, hcase, hpool⟩
  · simp [hround] at hcase
  · simp [hround] at hcase
  · rw [hround, Prod.mk.injEq, Except.ok.injEq] at hcase
    obtain ⟨rfl, rfl⟩ := hcase
    exact ⟨hpool.partitioned hbefore.pool, hpool.blockSize.trans hbefore.blockSize_eq, hpool, rfl⟩

/-- **A round writes in range and nowhere twice.** After any calls, a granted
plan over distinct lanes looks its destinations up without passing the end of a
table; each lies in a block of the writing lane's own table, never the sentinel,
at an offset inside the block; no two of the round are the same; and the ids the
layers are handed are these. In a pool of 32-bit sizes they are not changed by
the cast. -/
theorem destinations_sound
    (hnew : PagedKvCache.new layout maxLanes blockSize usableBlocks uninit = some cache)
    (ops : List (CacheOp α layout maxLanes)) (lanes : RoundLanes maxLanes) {seqLen : ℕ}
    {plan : LanePlan}
    (hround : ((start cache).run ops).cache.prepareLanes lanes.lanes seqLen = (.ok plan, planned)) :
    ∃ found, destinations plan.tables plan.starts seqLen blockSize = some found ∧
      writeIndices plan.tables plan.starts seqLen blockSize =
        found.flatMap (fun at_ => [at_.1, at_.2]) ∧
      found.length = lanes.lanes.length * seqLen ∧ found.Nodup ∧
      (∀ (j lane step : ℕ), lanes.lanes[j]? = some lane → step < seqLen →
        ∃ at_, found[j * seqLen + step]? = some at_ ∧ at_.1 ∈ planned.pool.laneBlocks lane ∧
          at_.1 ≠ sentinelBlock ∧ at_.2 < blockSize) ∧
      (planned.pool.usableBlocks < 2 ^ 31 → blockSize ≤ 2 ^ 31 →
        ∀ id ∈ writeIndices plan.tables plan.starts seqLen blockSize, asI32 id = id) := by
  obtain ⟨hpool, rfl, hcommit, rfl⟩ := granted_of_run hnew ops lanes hround
  refine ⟨_, hcommit.destinations_eq hpool, writeIndices_eq, BlockPool.length_writtenAddresses,
    hcommit.nodup_writtenAddresses hpool lanes.nodup, fun j lane step hj hstep => ?_,
    fun hblocks hsize id hid => ?_⟩
  · refine ⟨_, BlockPool.getElem?_writtenAddresses hj hstep, ?_⟩
    refine hcommit.address_mem hpool (List.mem_of_getElem? hj) (List.mem_range'_1.mpr ?_)
    omega
  · rw [LanePlan.ofCommit, writeIndices_eq] at hid
    obtain ⟨at_, hat, hid⟩ := List.mem_flatMap.mp hid
    obtain ⟨lane, hlane, hat⟩ := List.mem_flatMap.mp hat
    obtain ⟨position, hposition, rfl⟩ := List.mem_map.mp hat
    obtain ⟨hblock, -, hoffset⟩ := hcommit.address_mem hpool hlane hposition
    rcases List.mem_cons.mp hid with rfl | hid
    · exact asI32_of_lt (lt_of_le_of_lt (hpool.le_usableBlocks hblock) hblocks)
    · rw [List.mem_singleton.mp hid]
      exact asI32_of_lt (lt_of_lt_of_le hoffset hsize)

/-- Two lanes over four blocks of two tokens. Lane 0 is released and lane 1 goes
on into one of its blocks; then both write, lane 1 across the edge of a block. -/
theorem destinations_sound_churn :
    let layout : KvLayout := ⟨1, 1, 1, 8, by decide⟩
    let first : RoundLanes 2 := ⟨[0], by decide, by decide⟩
    let second : RoundLanes 2 := ⟨[1], by decide, by decide⟩
    let both : RoundLanes 2 := ⟨[0, 1], by decide, by decide⟩
    let ops : List (CacheOp ℕ layout 2) := [.round (.filled first 3 7), .round (.filled second 1 8),
      .resetLane 0]
    ∃ cache plan planned found,
      PagedKvCache.new layout 2 2 4 (fun _ => (fun _ => 1, fun _ => 1)) = some cache ∧
      ((start cache).run ops).cache.prepareLanes both.lanes 2 = (.ok plan, planned) ∧
      destinations plan.tables plan.starts 2 2 = some found ∧ found.length = 4 ∧ found.Nodup := by
  intro layout first second both ops
  let cache := (PagedKvCache.new layout 2 2 4 (fun _ => (fun _ => 1, fun _ => 1))).get
    (by decide +kernel)
  have hok : (((start cache).run ops).cache.prepareLanes both.lanes 2).1.isOk := by
    decide +kernel
  have hnew : PagedKvCache.new layout 2 2 4 (fun _ => (fun _ => 1, fun _ => 1)) = some cache :=
    (Option.some_get _).symm
  obtain ⟨plan, planned, hround⟩ := exists_granted hok
  obtain ⟨found, hfound, -, hlength, hnodup, -⟩ := destinations_sound hnew ops both hround
  exact ⟨cache, plan, planned, found, hnew, hround, hfound, hlength, hnodup⟩

end LoggedCache

end BurnLm.PagedKv
