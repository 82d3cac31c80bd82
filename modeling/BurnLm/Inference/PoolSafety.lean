/-
# The pool never runs dry

Reservations stay within the pool, and a lane stays within its sequence's
reservation: it was emptied when the sequence joined, and a round pushes only
into sequences whose present length is covered. So the blocks of all lanes, at
the lengths a call would give them, fit into the pool, and every round the
decoder asks for is granted.
-/

import BurnLm.Inference.Lockstep
import BurnLm.Inference.PoolBacked

namespace BurnLm.Inference

open BurnLm.Math BurnLm.PagedKv

universe u v w

section Asks

variable {D : Type u} (pool : D → BlockPool)

/-- The rounds a call may ask its pool for. A prefill at position zero may have
emptied its lane first. -/
def Issued.asks (issued : Issued D) : List (BlockPool × List ℕ × ℕ) :=
  match issued.call with
  | .prefill slot tokens position =>
    (pool issued.found, [slot], tokens.length) ::
      if position = 0 then [((pool issued.found).freeLane slot, [slot], tokens.length)] else []
  | .decode rows => [(pool issued.found, rows.map DecodeRow.slot, 1)]
  | .release _ => []

/-- Whichever round a call asks for is granted. -/
def Issued.Granted (issued : Issued D) : Prop :=
  ∀ ask ∈ issued.asks pool, ∃ starts, (ask.1.beginRound ask.2.1 ask.2.2).1 = .ok starts

end Asks

/-- What the sequences hold: slots and reservations. -/
def claims (active : List JobSeq) : List (ℕ × ℕ) :=
  active.map fun seq => (seq.slot, seq.kvReservation)

theorem claims_fst (active : List JobSeq) :
    (claims active).map Prod.fst = active.map ActiveSeq.slot := by
  simp [claims, Function.comp_def]

theorem claims_snd (active : List JobSeq) : ((claims active).map Prod.snd).sum =
    reservedBlocks active := by
  simp [claims, reservedBlocks, Function.comp_def]

theorem mem_claims {active : List JobSeq} {seq : JobSeq} (hseq : seq ∈ active) :
    (seq.slot, seq.kvReservation) ∈ claims active :=
  List.mem_map_of_mem hseq

theorem claims_concat (active : List JobSeq) (seq : JobSeq) :
    claims (active ++ [seq]) = claims active ++ [(seq.slot, seq.kvReservation)] := by
  simp [claims]

/-- Slots and reservations survive a change in place. -/
theorem claims_eq_of_forall₂ {active changed : List JobSeq}
    (hchanged : List.Forall₂ (fun before after : JobSeq => after.slot = before.slot ∧
      after.kvReservation = before.kvReservation) active changed) :
    claims changed = claims active := by
  have hmap : List.Forall₂ (· = ·) (claims changed) (claims active) := by
    refine List.forall₂_map_left_iff.mpr (List.forall₂_map_right_iff.mpr ?_)
    exact hchanged.flip.imp fun after before h => Prod.ext h.1 h.2
  rwa [List.forall₂_eq_eq_eq] at hmap

namespace Driven

variable {D : Type u} {R : Type v} {Row Task : Type w} {pool : D → BlockPool} {first : BlockPool}

/-- Every lane stays within its claim, and every call so far was granted. -/
structure Spending (pool : D → BlockPool) (kv : KvBudget) (server : Driven D R)
    (held : List (ℕ × ℕ)) : Prop where
  backed : ∀ claim ∈ held, kv.blocksFor ((pool server.engine).laneLen claim.1) ≤ claim.2
  granted : ∀ issued ∈ server.calls, issued.Granted pool

/-- One more call, granted and within the claims. -/
theorem Spending.note {kv : KvBudget} {server : Driven D R} {held : List (ℕ × ℕ)}
    (hserver : server.Spending pool kv held) {call : DecoderCall} {engine : D}
    (hgranted : Issued.Granted pool ⟨server.engine, call⟩)
    (hbacked : ∀ claim ∈ held, kv.blocksFor ((pool engine).laneLen claim.1) ≤ claim.2) :
    (server.note call engine).Spending pool kv held := by
  refine ⟨hbacked, fun issued hissued => ?_⟩
  rcases List.mem_append.mp hissued with hissued | hissued
  · exact hserver.granted issued hissued
  · obtain rfl := List.mem_singleton.mp hissued
    exact hgranted

variable [BatchedDecoder D Row] [ServerSettings R Row Task]

/-- A pool, a budget and a context length that belong together. -/
structure Budgeted (D : Type u) (R : Type v) {Row Task : Type w} [BatchedDecoder D Row]
    [ServerSettings R Row Task] (pool : D → BlockPool) (first : BlockPool)
    (capacity : BatchCapacity) (contextLen : ℕ) : Prop where
  backed : PoolBacked D pool
  capacity_eq : ∀ settings : R, ServerSettings.batchCapacity settings = capacity
  context_eq : ∀ engine : D, BatchedDecoder.maxContextLen engine = contextLen
  blockSize_eq : first.blockSize = capacity.kv.blockSize
  usableBlocks_eq : first.usableBlocks = capacity.kv.totalBlocks
  lanes : capacity.maxSlots ≤ first.laneCount
  limited : capacity.kv.totalBlocks ≠ usizeMax

variable {capacity : BatchCapacity} {contextLen : ℕ}

theorem Budgeted.honoured (hbudget : Budgeted D R pool first capacity contextLen) :
    (pooled R pool first).Honoured :=
  pooled_honoured hbudget.backed fun settings => by
    rw [hbudget.capacity_eq]
    exact hbudget.lanes

theorem Budgeted.steady (hbudget : Budgeted D R pool first capacity contextLen) :
    Steady (Driven D R) capacity contextLen :=
  ⟨fun server => hbudget.capacity_eq server.settings, fun server => hbudget.context_eq server.engine,
    fun _ => rfl⟩

/-- Freeing a lane keeps every lane within its claim. -/
theorem Spending.release (hbudget : Budgeted D R pool first capacity contextLen)
    {server : Driven D R} {held : List (ℕ × ℕ)} (hsound : server.Sound pool first)
    (hserver : server.Spending pool capacity.kv held) (slot : ℕ) :
    (release server slot).Spending pool capacity.kv held := by
  have hpool : pool (BatchedDecoder.release server.engine slot) =
      (pool server.engine).freeLane slot :=
    hbudget.backed.release_frees server.engine slot hsound.partitioned
  refine hserver.note (by simp [Issued.Granted, Issued.asks]) fun claim hclaim => ?_
  rw [hpool, BlockPool.laneLen_freeLane]
  split
  · simp [KvBudget.blocksFor]
  · exact hserver.backed claim hclaim

/-- So does freeing several. -/
theorem Spending.foldl_release (hbudget : Budgeted D R pool first capacity contextLen)
    {held : List (ℕ × ℕ)} (slots : List ℕ) (hslots : ∀ slot ∈ slots, slot < first.laneCount)
    {server : Driven D R} (hsound : server.Sound pool first)
    (hserver : server.Spending pool capacity.kv held) :
    (slots.foldl Inference.release server).Spending pool capacity.kv held := by
  induction slots generalizing server with
  | nil => exact hserver
  | cons slot slots ih =>
      exact ih (fun other hother => hslots other (List.mem_cons_of_mem _ hother))
        (release_note hbudget.backed hsound (hslots slot List.mem_cons_self)).1
        (hserver.release hbudget hsound slot)

omit [BatchedDecoder D Row] [ServerSettings R Row Task] in
/-- Claims may be given up, or grow. -/
theorem Spending.mono {kv : KvBudget} {server : Driven D R} {held kept : List (ℕ × ℕ)}
    (hserver : server.Spending pool kv held)
    (hkept : ∀ claim ∈ kept, ∃ other ∈ held, other.1 = claim.1 ∧ other.2 ≤ claim.2) :
    server.Spending pool kv kept := by
  refine ⟨fun claim hclaim => ?_, hserver.granted⟩
  obtain ⟨other, hother, hslot, hle⟩ := hkept claim hclaim
  rw [← hslot]
  exact le_trans (hserver.backed other hother) hle

omit [BatchedDecoder D Row] [ServerSettings R Row Task] in
/-- An empty lane may be claimed. -/
theorem Spending.join {kv : KvBudget} {server : Driven D R} {held : List (ℕ × ℕ)} {slot : ℕ}
    (hserver : server.Spending pool kv held) (hempty : (pool server.engine).laneLen slot = 0)
    (reservation : ℕ) : server.Spending pool kv (held ++ [(slot, reservation)]) := by
  refine ⟨fun claim hclaim => ?_, hserver.granted⟩
  rcases List.mem_append.mp hclaim with hclaim | hclaim
  · exact hserver.backed claim hclaim
  · obtain rfl := List.mem_singleton.mp hclaim
    rw [hempty]
    simp [KvBudget.blocksFor]

/-! ## A round -/

section Round

variable {start : Driven D R} {held : List (ℕ × ℕ)}

/-- What a round keeps. -/
structure Within (pool : D → BlockPool) (first : BlockPool) (kv : KvBudget) (start : Driven D R)
    (held : List (ℕ × ℕ)) (server : Driven D R) (active : List JobSeq) : Prop where
  kept : (pooled R pool first).Kept start server active
  claims_eq : claims active = held
  spending : server.Spending pool kv held

variable {server : Driven D R} {active : List JobSeq}

omit [ServerSettings R Row Task] in
/-- A round within the claims is granted, in the pool as it is or in one that
reads the same. -/
theorem Within.grants (hblock : first.blockSize = capacity.kv.blockSize)
    (husable : first.usableBlocks = capacity.kv.totalBlocks)
    (hwithin : Within pool first capacity.kv start held server active)
    (hsum : (held.map Prod.snd).sum ≤ capacity.kv.totalBlocks)
    (htidy : ∀ lane, (∀ claim ∈ held, claim.1 ≠ lane) → (pool start.engine).laneLen lane = 0)
    {asked : BlockPool} (hasked : asked.Partitioned) (hsize : SameSize first asked)
    (hlens : ∀ lane, asked.laneLen lane = (pool server.engine).laneLen lane)
    {lanes : List ℕ} (hnodup : lanes.Nodup) {seqLen : ℕ}
    (howned : ∀ lane ∈ lanes, ∃ claim ∈ held, claim.1 = lane)
    (hroom : ∀ claim ∈ held, claim.1 ∈ lanes →
      capacity.kv.blocksFor ((pool server.engine).laneLen claim.1 + seqLen) ≤ claim.2) :
    ∃ starts, (asked.beginRound lanes seqLen).1 = .ok starts := by
  have hblocks : ∀ length, asked.blocksFor length = capacity.kv.blocksFor length := by
    intro length
    rw [BlockPool.blocksFor, KvBudget.blocksFor, hsize.blockSize, hblock]
  have hslots : held.map Prod.fst = active.map ActiveSeq.slot := by
    rw [← hwithin.claims_eq, claims_fst]
  have hrange : ∀ lane ∈ lanes, lane < asked.laneCount := by
    intro lane hlane
    obtain ⟨claim, hclaim, rfl⟩ := howned lane hlane
    have hslot : claim.1 ∈ active.map ActiveSeq.slot := hslots ▸ List.mem_map_of_mem hclaim
    obtain ⟨seq, hseq, hsame⟩ := List.mem_map.mp hslot
    rw [hsize.laneCount, ← hsame]
    exact hwithin.kept.step.valid seq hseq
  refine hasked.grants ⟨lanes, hnodup, hrange⟩ seqLen (hslots ▸ hwithin.kept.step.nodup)
    (fun claim hclaim => ?_) (fun lane hlane => ?_) (by rw [hsize.usableBlocks, husable]; exact hsum)
  · rw [hblocks]
    by_cases hmem : claim.1 ∈ lanes
    · rw [BlockPool.lenAfter_of_mem asked seqLen hmem, hlens]
      exact hroom claim hclaim hmem
    · rw [BlockPool.lenAfter_of_notMem asked seqLen hmem, hlens]
      exact hwithin.spending.backed claim hclaim
  · have hfree : lane ∉ lanes := fun hmem => by
      obtain ⟨claim, hclaim, hsame⟩ := howned lane hmem
      exact hlane claim hclaim hsame
    have huntouched := hwithin.kept.untouched lane fun seq hseq hsame => by
      have hclaim := mem_claims hseq
      rw [hwithin.claims_eq] at hclaim
      exact hlane _ hclaim hsame
    rw [BlockPool.lenAfter_of_notMem asked seqLen hfree, hlens]
    exact (congrArg Prod.fst huntouched).trans (htidy lane hlane)

omit [ServerSettings R Row Task] [BatchedDecoder D Row] in
/-- What asking for a round within the claims leaves is within them. -/
theorem Spending.asked {server : Driven D R} (hserver : server.Spending pool capacity.kv held)
    {lanes : List ℕ} {seqLen : ℕ} {granted : Prop} {after : BlockPool}
    (houtcome : Asked.Outcome (pool server.engine) lanes seqLen granted after)
    (hroom : ∀ claim ∈ held, claim.1 ∈ lanes →
      capacity.kv.blocksFor ((pool server.engine).laneLen claim.1 + seqLen) ≤ claim.2) :
    ∀ claim ∈ held, capacity.kv.blocksFor (after.laneLen claim.1) ≤ claim.2 := by
  intro claim hclaim
  by_cases hmem : claim.1 ∈ lanes
  · exact le_trans (ceilDiv_mono _ (houtcome.bound _ hmem)) (hroom claim hclaim hmem)
  · rw [houtcome.other _ hmem]
    exact hserver.backed claim hclaim

omit [ServerSettings R Row Task] [BatchedDecoder D Row] in
/-- A slot has one claim. -/
theorem Within.claim_eq {kv : KvBudget} (hwithin : Within pool first kv start held server active)
    {seq : JobSeq} (hseq : seq ∈ active) {claim : ℕ × ℕ} (hclaim : claim ∈ held)
    (hslot : claim.1 = seq.slot) : claim = (seq.slot, seq.kvReservation) := by
  have hnodup : (held.map Prod.fst).Nodup := by
    rw [← hwithin.claims_eq, claims_fst]
    exact hwithin.kept.step.nodup
  refine List.inj_on_of_nodup_map hnodup hclaim ?_ hslot
  rw [← hwithin.claims_eq]
  exact mem_claims hseq

/-- Sampling shows neither in the pool nor in the record. -/
theorem Spending.sampled {kv : KvBudget} {configured called after : Driven D R}
    {result : InferenceResult (Logits Row)} (hcalled : called.Spending pool kv held)
    (hafter : after = called ∨ ∃ logits, result = .ok logits ∧
      after = (sampler configured called logits).2) : after.Spending pool kv held := by
  rcases hafter with rfl | ⟨logits, _, rfl⟩
  · exact hcalled
  · exact ⟨hcalled.backed, hcalled.granted⟩

/-- One chunk is granted and stays within the claims. -/
theorem Within.prefillChunk (hbudget : Budgeted D R pool first capacity contextLen)
    {configured : Driven D R} {stopIds : List Token} {before after : List JobSeq} {seq : JobSeq}
    {granted : ℕ}
    (hwithin : Within pool first capacity.kv start held server (before ++ seq :: after))
    (hsum : (held.map Prod.snd).sum ≤ capacity.kv.totalBlocks)
    (htidy : ∀ lane, (∀ claim ∈ held, claim.1 ≠ lane) → (pool start.engine).laneLen lane = 0)
    (hseq : Prefillable contextLen seq)
    (hcovered : capacity.kv.blocksFor (min seq.tokens.length contextLen) ≤ seq.kvReservation)
    (hpos : 0 < granted) (hgranted : seq.processed + granted ≤ seq.tokens.length) :
    Within pool first capacity.kv start held
      (prefillChunk (sampler configured) stopIds granted server seq).2.2
      (before ++ (prefillChunk (sampler configured) stopIds granted server seq).1 :: after) := by
  have hmem : seq ∈ before ++ seq :: after := by simp
  have hsound : server.Sound pool first := hwithin.kept.sound
  have hkept := @LaneModel.Kept.prefillChunk _ _ _ _ _ _ _ configured stopIds hbudget.honoured
    server before after seq granted contextLen hwithin.kept hseq hpos hgranted
  have hlength : (pool server.engine).laneLen seq.slot = seq.processed :=
    (congrArg Prod.fst (hwithin.kept.step.held seq hmem hseq.unfinished)).trans
      (List.length_take_of_le (hwithin.kept.step.processed_le seq hmem))
  have hchunk : (chunkOf seq granted).length = granted := by
    rw [chunkOf, List.length_drop, List.length_take, min_eq_left hgranted,
      Nat.add_sub_cancel_left]
  have hroom : ∀ claim ∈ held, claim.1 ∈ [seq.slot] → capacity.kv.blocksFor
      ((pool server.engine).laneLen claim.1 + (chunkOf seq granted).length) ≤ claim.2 := by
    intro claim hclaim hslot
    obtain rfl := hwithin.claim_eq hmem hclaim (List.mem_singleton.mp hslot)
    rw [hlength, hchunk]
    exact le_trans (ceilDiv_mono _ (le_min hgranted (hgranted.trans hseq.fits))) hcovered
  have howned : ∀ lane ∈ [seq.slot], ∃ claim ∈ held, claim.1 = lane := by
    intro lane hlane
    refine ⟨(seq.slot, seq.kvReservation), ?_, (List.mem_singleton.mp hlane).symm⟩
    rw [← hwithin.claims_eq]
    exact mem_claims hmem
  have hcalled : (prefill server seq.slot (chunkOf seq granted) seq.processed).2.Spending pool
      capacity.kv held := by
    refine hwithin.spending.note ?_ (hwithin.spending.asked (prefill_outcome hbudget.backed
      (chunkOf seq granted) hsound.partitioned ?_ hlength) hroom)
    · intro ask hask
      rcases List.mem_cons.mp hask with rfl | hask
      · exact hwithin.grants hbudget.blockSize_eq hbudget.usableBlocks_eq hsum htidy
          hsound.partitioned hsound.size (fun _ => rfl) (List.nodup_singleton _) howned hroom
      · split at hask
        · next hzero =>
            obtain rfl := List.mem_singleton.mp hask
            exact hwithin.grants hbudget.blockSize_eq hbudget.usableBlocks_eq hsum htidy
              (hsound.partitioned.freeLane _) (hsound.size.trans (SameSize.freeLane _ _))
              (laneLen_freeLane_of_empty (hlength.trans hzero)) (List.nodup_singleton _) howned
              hroom
        · simp at hask
    · exact lt_of_lt_of_eq (hwithin.kept.step.valid seq hmem) hsound.size.laneCount.symm
  have hclaims := hwithin.claims_eq
  rcases @prefillChunk_cases JobMeta (Driven D R) Row _ (sampler configured) stopIds granted server
      seq hgranted with
    ⟨_, _, hresult⟩ | ⟨error, last, hresult, hlast⟩ |
      ⟨_, logits, token, rest, last, hlogits, _, hsampled, hresult⟩ <;>
    rw [hresult] at hkept ⊢
  · exact ⟨hkept, by simpa [claims] using hclaims, hcalled⟩
  · exact ⟨hkept, by simpa [claims] using hclaims, hcalled.sampled hlast⟩
  · exact ⟨hkept, by simpa [claims, advanceOrFail] using hclaims,
      hcalled.sampled (Or.inr ⟨logits, hlogits, by rw [hsampled]⟩)⟩

/-- The decode pass is granted and stays within the claims. -/
theorem Within.decodePass (hbudget : Budgeted D R pool first capacity contextLen)
    {configured : Driven D R} {stopIds : List Token} {entries : List (Entry JobMeta)}
    (hwithin : Within pool first capacity.kv start held server (entries.map Entry.seq))
    (hsum : (held.map Prod.snd).sum ≤ capacity.kv.totalBlocks)
    (htidy : ∀ lane, (∀ claim ∈ held, claim.1 ≠ lane) → (pool start.engine).laneLen lane = 0)
    (hdecodable : ∀ entry ∈ entries, entry.DecodeReady contextLen)
    (hcovered : ∀ entry ∈ entries, ∀ row, entry.work = .decode row →
      capacity.kv.blocksFor (min entry.seq.tokens.length contextLen) ≤ entry.seq.kvReservation) :
    Within pool first capacity.kv start held
      (decodePass (sampler configured) stopIds entries server).2
      ((decodePass (sampler configured) stopIds entries server).1.map Entry.seq) := by
  have hsound : server.Sound pool first := hwithin.kept.sound
  have hkept := @LaneModel.Kept.decodePass _ _ _ _ _ _ _ configured stopIds hbudget.honoured
    server entries contextLen hwithin.kept hdecodable
  have hmem : ∀ entry ∈ entries, entry.seq ∈ entries.map Entry.seq :=
    fun entry hentry => List.mem_map_of_mem hentry
  have hnodup : ((decodeRows entries).map DecodeRow.slot).Nodup := by
    refine nodup_decodeRows hdecodable ?_
    have hslots := hwithin.kept.step.nodup
    rwa [List.map_map] at hslots
  -- a row's lane is one token short of its sequence's tokens
  have hrow : ∀ row ∈ decodeRows entries, ∃ entry ∈ entries, row.slot = entry.seq.slot ∧
      capacity.kv.blocksFor ((pool server.engine).laneLen row.slot + 1) ≤
        entry.seq.kvReservation := by
    intro row hrow
    obtain ⟨entry, hentry, hwork⟩ := mem_decodeRows.mp hrow
    have hcover := hcovered entry hentry row hwork
    obtain ⟨hseq, rfl⟩ := hdecodable entry hentry row hwork
    refine ⟨entry, hentry, rfl, ?_⟩
    have hlength : (pool server.engine).laneLen entry.seq.slot = entry.seq.processed :=
      (congrArg Prod.fst (hwithin.kept.step.held _ (hmem entry hentry) hseq.unfinished)).trans
        (List.length_take_of_le (hwithin.kept.step.processed_le _ (hmem entry hentry)))
    rw [hlength, hseq.tail]
    rwa [min_eq_left hseq.fits] at hcover
  have hroom : ∀ claim ∈ held, claim.1 ∈ (decodeRows entries).map DecodeRow.slot →
      capacity.kv.blocksFor ((pool server.engine).laneLen claim.1 + 1) ≤ claim.2 := by
    intro claim hclaim hslot
    obtain ⟨row, hmemRow, hsame⟩ := List.mem_map.mp hslot
    obtain ⟨entry, hentry, hslot', hblocks⟩ := hrow row hmemRow
    have hclaim' := hwithin.claim_eq (hmem entry hentry) hclaim (hsame.symm.trans hslot')
    rw [hclaim']
    rwa [hslot'] at hblocks
  have howned : ∀ lane ∈ (decodeRows entries).map DecodeRow.slot, ∃ claim ∈ held,
      claim.1 = lane := by
    intro lane hlane
    obtain ⟨row, hmemRow, rfl⟩ := List.mem_map.mp hlane
    obtain ⟨entry, hentry, hslot, _⟩ := hrow row hmemRow
    refine ⟨(entry.seq.slot, entry.seq.kvReservation), ?_, hslot.symm⟩
    rw [← hwithin.claims_eq]
    exact mem_claims (hmem entry hentry)
  have hcalled : (decode server (decodeRows entries)).2.Spending pool capacity.kv held := by
    refine hwithin.spending.note ?_ (hwithin.spending.asked (decode_outcome hbudget.backed
      hsound.partitioned hnodup ?_) hroom)
    · intro ask hask
      obtain rfl := List.mem_singleton.mp hask
      exact hwithin.grants hbudget.blockSize_eq hbudget.usableBlocks_eq hsum htidy
        hsound.partitioned hsound.size (fun _ => rfl) hnodup howned hroom
    · intro row hmemRow
      obtain ⟨entry, hentry, hslot, _⟩ := hrow row hmemRow
      rw [hslot, hsound.size.laneCount]
      exact hwithin.kept.step.valid _ (hmem entry hentry)
  have hclaims : claims ((Inference.decodePass (sampler configured) stopIds entries server).1.map
      Entry.seq) = held := by
    rw [← hwithin.claims_eq]
    refine claims_eq_of_forall₂ (List.forall₂_map_left_iff.mpr (List.forall₂_map_right_iff.mpr
      ((decodePass_forall₂ entries server).imp ?_)))
    rintro entry _ ⟨sampled, rfl⟩
    unfold Entry.settle
    split
    · cases sampled <;> exact ⟨rfl, rfl⟩
    · exact ⟨rfl, rfl⟩
  refine ⟨hkept, hclaims, ?_⟩
  rcases @decodePass_cases JobMeta (Driven D R) Row _ (sampler configured) stopIds entries server
      hnodup.of_map with ⟨_, hresult⟩ | ⟨_, error, last, hresult, hlast⟩ |
      ⟨_, logits, pick, last, hlogits, _, hsampled, hresult⟩ <;> rw [hresult]
  · exact hwithin.spending
  · exact hcalled.sampled hlast
  · exact hcalled.sampled (Or.inr ⟨logits, hlogits, by rw [hsampled]⟩)

/-- **A round is granted whatever it asks for.** -/
theorem Within.stepRound (hbudget : Budgeted D R pool first capacity contextLen)
    {configured : Driven D R} {stopIds : List Token} (budget : PrefillBudget) (chunkSize : ℕ)
    (hwithin : Within pool first capacity.kv start held server active)
    (hsum : (held.map Prod.snd).sum ≤ capacity.kv.totalBlocks)
    (htidy : ∀ lane, (∀ claim ∈ held, claim.1 ≠ lane) → (pool start.engine).laneLen lane = 0)
    (hcovered : Covered capacity.kv contextLen active) :
    Within pool first capacity.kv start held
      (stepRound (sampler configured) stopIds budget chunkSize active server).2.2
      (stepRound (sampler configured) stopIds budget chunkSize active server).1 := by
  refine @stepRound_rule JobMeta (Driven D R) Row _ (sampler configured) stopIds contextLen chunkSize
    (fun server active => Within pool first capacity.kv start held server active) budget active
    server (hbudget.context_eq server.engine) ?_ ?_ ?_ hwithin
  · intro before seq after hwithin _
    exact ⟨hwithin.kept.update hwithin.kept.sound (hwithin.kept.step.fails (by simp))
      fun _ _ => rfl, by simpa [claims] using hwithin.claims_eq, hwithin.spending⟩
  · rintro server before seq after granted hwithin ⟨hseq, hmem⟩ hpos hgranted
    exact hwithin.prefillChunk hbudget hsum htidy hseq
      (hcovered hbudget.limited seq hmem hseq.unfinished hseq.unpaused) hpos hgranted
  · intro server entries hwithin hdecodable hmem
    refine hwithin.decodePass hbudget hsum htidy hdecodable fun entry hentry row hwork => ?_
    obtain ⟨hseq, _⟩ := hdecodable entry hentry row hwork
    exact hcovered hbudget.limited _ (hmem entry hentry row hwork) hseq.unfinished hseq.unpaused

end Round

end Driven

namespace Worker

open Driven

variable {D : Type u} {R : Type v} {Row Task : Type w} [BatchedDecoder D Row]
  [ServerSettings R Row Task] {pool : D → BlockPool} {first : BlockPool}
  {capacity : BatchCapacity} {contextLen : ℕ}

/-- The reservation invariant with the pool under it. -/
structure Funded (pool : D → BlockPool) (first : BlockPool) (capacity : BatchCapacity)
    (contextLen : ℕ) (worker : Worker (Driven D R) Task) : Prop where
  lockstep : worker.Lockstep (pooled R pool first)
  tidy : worker.Tidy (pooled R pool first)
  reserved : worker.Reserved capacity contextLen
  spending : worker.server.Spending pool capacity.kv (claims worker.active)

/-- Admission hands out emptied lanes. -/
theorem Funded.admission (hbudget : Budgeted D R pool first capacity contextLen)
    {env : TurnEnv Task} {worker next : Worker (Driven D R) Task}
    (hworker : worker.Funded pool first capacity contextLen)
    (hadmission : Admission env worker next) :
    next.server.Spending pool capacity.kv (claims next.active) := by
  have hsound : worker.server.Sound pool first := hworker.lockstep.sound
  have hempty : ∀ slot, slot < first.laneCount →
      (pool (release worker.server slot).engine).laneLen slot = 0 := fun slot hslot =>
    congrArg Prod.fst (release_note hbudget.backed hsound hslot).2.1
  cases hadmission with
  | borrow => exact hworker.spending
  | resume candidate rest slot guaranteed hresume hborrowed hslot hroom =>
      have hvalid := valid_of_lowestFreeSlot hbudget.honoured hslot
      have hjoined := (hworker.spending.release hbudget hsound slot).join (hempty slot hvalid)
        guaranteed
      exact (claims_concat worker.active (candidate.seq guaranteed slot)).symm ▸ hjoined
  | reject front rest error hqueue => exact hworker.spending
  | start front rest tokens maxGen guaranteed slot hqueue hborrowed htokens hmaxGen hneed hslot
      hroom =>
      have hvalid := valid_of_lowestFreeSlot hbudget.honoured hslot
      have hjoined := (hworker.spending.release hbudget hsound slot).join (hempty slot hvalid)
        guaranteed
      exact (claims_concat worker.active
        (front.seq worker.nextId env.now tokens maxGen guaranteed slot)).symm ▸ hjoined

/-- Growth raises claims, eviction gives one up. -/
theorem Funded.regrowth (hbudget : Budgeted D R pool first capacity contextLen) {measured : Driven D R}
    {worker next : Worker (Driven D R) Task}
    (hworker : worker.Funded pool first capacity contextLen)
    (hregrowth : Regrowth measured worker next) :
    next.server.Spending pool capacity.kv (claims next.active) := by
  have hspending := hworker.spending
  cases hregrowth with
  | grow before seq after reservation paused hactive hlimited hraise hroom =>
      rw [hactive] at hspending
      refine hspending.mono fun claim hclaim => ?_
      simp only [claims, List.map_append, List.map_cons, List.mem_append, List.mem_cons]
        at hclaim ⊢
      rcases hclaim with hclaim | rfl | hclaim
      · exact ⟨claim, Or.inl hclaim, rfl, le_rfl⟩
      · exact ⟨_, Or.inr (Or.inl rfl), rfl, hraise⟩
      · exact ⟨claim, Or.inr (Or.inr hclaim), rfl, le_rfl⟩
  | evict before victim after hactive hunfinished =>
      have hreleased := hspending.release hbudget hworker.lockstep.sound victim.slot
      refine hreleased.mono fun claim hclaim => ⟨claim, ?_, rfl, le_rfl⟩
      rw [hactive]
      simp only [claims, List.map_append, List.map_cons, List.mem_append, List.mem_cons]
        at hclaim ⊢
      tauto

/-- A covered round stays within the claims. -/
theorem Funded.round (hbudget : Budgeted D R pool first capacity contextLen)
    (configured : Driven D R) {worker : Worker (Driven D R) Task}
    (hworker : worker.Funded pool first capacity contextLen)
    (hcovered : Covered capacity.kv contextLen worker.active) :
    (runRound configured worker).server.Spending pool capacity.kv
      (claims (runRound configured worker).active) := by
  obtain ⟨entries, _, hseqs, hround⟩ := runRound_steps configured worker
  have hwithin := @Within.stepRound D R Row Task pool first _ _ capacity contextLen worker.server
    (claims worker.active) worker.server worker.active hbudget configured (stopIds configured)
    (PrefillBudget.forRound worker.active (prefillTokenBudget configured))
    (prefillChunkSize configured)
    ⟨⟨hworker.lockstep.sound, hworker.lockstep.step, fun _ _ => rfl⟩, rfl, hworker.spending⟩
    (by rw [claims_snd]; exact hworker.reserved.sum_le)
    (fun lane hlane => congrArg Prod.fst (hworker.tidy lane fun seq hseq =>
      hlane _ (mem_claims hseq))) hcovered
  rw [hseqs] at hwithin
  have hclaims : claims (runRound configured worker).active = claims worker.active := by
    refine claims_eq_of_forall₂ ((runRound_active configured worker).imp fun seq next hstep => ?_)
    obtain ⟨hslot, hreservation, _⟩ := Stepped.frame hstep
    exact ⟨hslot, hreservation⟩
  rw [hclaims, hround]
  exact hwithin.spending

/-- Retirement frees lanes and gives their claims up. -/
theorem Funded.retire (hbudget : Budgeted D R pool first capacity contextLen)
    {worker : Worker (Driven D R) Task} (hworker : worker.Funded pool first capacity contextLen) :
    worker.retireFinished.server.Spending pool capacity.kv (claims worker.retireFinished.active) := by
  have hkept : ∀ claim ∈ claims worker.retireFinished.active, ∃ other ∈ claims worker.active,
      other.1 = claim.1 ∧ other.2 ≤ claim.2 := by
    intro claim hclaim
    obtain ⟨seq, hseq, rfl⟩ := List.mem_map.mp hclaim
    exact ⟨_, mem_claims (List.mem_of_mem_filter hseq), rfl, le_rfl⟩
  have hreleased : (releaseSlots worker.server
      ((worker.active.filter ActiveSeq.finished).map ActiveSeq.slot)).Spending pool capacity.kv
        (claims worker.active) := by
    unfold releaseSlots
    split
    · exact hworker.spending
    · refine hworker.spending.foldl_release hbudget _ (fun slot hslot => ?_)
        hworker.lockstep.sound
      obtain ⟨seq, hseq, rfl⟩ := List.mem_map.mp hslot
      exact hworker.lockstep.step.valid seq (List.mem_of_mem_filter hseq)
  exact hreleased.mono hkept

/-- **Every move keeps the pool behind the reservations.** -/
theorem Funded.move (hbudget : Budgeted D R pool first capacity contextLen) {env : TurnEnv Task}
    (hcommands : ∀ command ∈ env.commands, command.isServed = false)
    {worker next : Worker (Driven D R) Task}
    (hworker : worker.Funded pool first capacity contextLen) (hmove : Move env worker next) :
    next.Funded pool first capacity contextLen := by
  refine
    { lockstep := hworker.lockstep.move hbudget.honoured hcommands hmove
      tidy := hworker.tidy.move hbudget.honoured (fun _ => rfl) hcommands hworker.lockstep hmove
      reserved := hworker.reserved.move hbudget.steady hmove
      spending := ?_ }
  cases hmove with
  | command given hgiven =>
      rcases handleCommand_cases (worker.emit [.received given]) given with
        ⟨queued, _, hcase⟩ | ⟨_, hcase⟩ | ⟨hserved, _⟩
      · rw [hcase]
        exact hworker.spending
      · rw [hcase]
        exact hworker.spending
      · simp [hcommands given hgiven] at hserved
  | admission hadmission => exact hworker.admission hbudget hadmission
  | sweep =>
      have hclaims : claims (worker.active.map (cancelSweep env)) = claims worker.active := by
        refine claims_eq_of_forall₂ (List.forall₂_map_right_iff.mpr (List.forall₂_same.mpr ?_))
        intro seq _
        unfold cancelSweep
        split <;> exact ⟨rfl, rfl⟩
      rw [hclaims]
      exact hworker.spending
  | regrowth measured hregrowth => exact hworker.regrowth hbudget hregrowth
  | round configured hborrowed hcovered =>
      obtain ⟨measured, borrowed, hcovers⟩ := hcovered fun _ => rfl
      rw [hbudget.steady.capacity_eq, hbudget.steady.context_eq] at hcovers
      exact hworker.round hbudget configured hcovers
  | retire => exact hworker.retire hbudget
  | fail error hrefused => simp [hbudget.steady.decoder_ok] at hrefused

/-- A worker just spawned around a fresh pool is funded. -/
theorem Funded.spawn {engine : D} (settings : R) {numBlocks laneCount : ℕ}
    (hnew : BlockPool.new capacity.kv.blockSize numBlocks laneCount = some (pool engine)) :
    (spawn (fresh engine settings) : Worker (Driven D R) Task).Funded pool (pool engine) capacity
      contextLen where
  lockstep := .spawn (Sound.fresh settings (BlockPool.partitioned_of_new hnew))
  tidy := fun lane _ => Prod.ext (BlockPool.laneLen_of_new hnew lane) rfl
  reserved := .spawn _
  spending := ⟨by simp [Worker.spawn, claims], by simp [Worker.spawn, fresh]⟩

end Worker

end BurnLm.Inference
