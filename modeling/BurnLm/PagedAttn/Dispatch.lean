/-
# Reaching the kernel

Attention offers every one-token round to the decode kernel first. The host
decides: by the implementation the process or the thread asks for, by the shapes
and element types of the operands, and by the device. Where it declines, the caller
falls back without a word. Where it does not, the launch checks the same things
again, and takes a disagreement for a bug that ends the process.

This module shows that the two never disagree: a round is declined or launched.
-/

import BurnLm.PagedAttn.Launch

namespace BurnLm.PagedAttn

open BurnLm.Math
open scoped BigOperators

/-! ## What the host asks -/

/-- Which implementation runs. -/
inductive PagedAttentionMode
  | reference
  | kernel
  | auto
  deriving DecidableEq, Repr

/-- The mode the environment asks for, if its variable is set to a text. -/
def parseMode : Option String → PagedAttentionMode
  | some "kernel" => .kernel
  | some "reference" => .reference
  | _ => .auto

/-- The environment's setting, and what the calling thread forces. -/
structure Switch where
  setting : Option String
  forced : Option PagedAttentionMode
  deriving DecidableEq, Repr

/-- The mode of a call. -/
def Switch.mode (switch : Switch) : PagedAttentionMode :=
  switch.forced.getD (parseMode switch.setting)

/-- Element types of the tensor library. -/
inductive DType
  | f64 | f32 | flex32 | f16 | bf16
  | i64 | i32 | i16 | i8
  | u64 | u32 | u16 | u8
  | bool
  | qfloat
  deriving DecidableEq, Repr

/-- Bytes of an element, for the types the kernel is written for. -/
def DType.kernelSize : DType → Option ℕ
  | .f32 => some 4
  | .f16 => some 2
  | .bf16 => some 2
  | _ => none

/-- The element types of the operands. -/
structure OperandTypes where
  q : DType
  kPool : DType
  vPool : DType
  blockTable : DType
  lengths : DType
  deriving DecidableEq, Repr

/-- Features of a build. -/
structure BuildFeatures where
  kernel : Bool
  cubeBackend : Bool
  wgpu : Bool
  metal : Bool
  deriving DecidableEq, Repr

/-- The kinds of cubecl devices that are told apart. -/
inductive CubeKind
  | cuda
  /-- Pinned to Metal, or not. -/
  | wgpu (metal : Bool)
  | other
  deriving DecidableEq, Repr

/-- A cubecl device. -/
structure CubeDevice where
  kind : CubeKind
  client : Client

/-- What a call finds around it. The device may be no cubecl device. -/
structure Host where
  switch : Switch
  build : BuildFeatures
  device : Option CubeDevice

namespace Host

variable (host : Host)

/-- Whether the device runs the kernel when nobody asks for either. -/
def deviceDefaultsToKernel : Bool :=
  match host.device with
  | none => false
  | some cube =>
    host.build.cubeBackend &&
      match cube.kind with
      | .cuda => true
      | .wgpu metal => host.build.wgpu && (metal || host.build.metal)
      | .other => false

/-- Whether the kernel is reachable on the device at a problem size. -/
def deviceSupports (n numKvHeads headDim elemSize : ℕ) : Bool :=
  match host.device with
  | none => false
  | some cube => host.build.cubeBackend && supported cube.client n numKvHeads headDim elemSize

/-- Hand the operands to the backend, which has to serve them. -/
def dispatch (args : LaunchArgs) : Except LaunchError LaunchConfig :=
  match host.device with
  | none => .error (.assertion "not implemented")
  | some cube => do
    match ← launch cube.client args with
    | some config => return config
    | none => .error (.assertion
      ("paged_decode reached the kernel on a configuration it cannot serve; the host " ++
        "availability gate and the launch's own preconditions have drifted apart"))

/-- Attend over the pools in place, or decline. -/
def pagedDecode (types : OperandTypes) (args : LaunchArgs) :
    Except LaunchError (Option LaunchConfig) :=
  if host.switch.mode = .reference then .ok none
  else if args.seqQ ≠ 1 then .ok none
  else match types.q.kernelSize with
    | none => .ok none
    | some elemSize =>
      if types.kPool ≠ types.q ∨ types.vPool ≠ types.q then .ok none
      else if types.blockTable ≠ types.lengths then .ok none
      else if args.numHeads ≠ args.numKvHeads * args.nRep ∨ args.headDim ≠ args.kHeadDim ∨
        args.headDim = 0 then .ok none
      else if args.vShape ≠ [args.numBlocks, args.blockSize, args.numKvHeads, args.kHeadDim] then
        .ok none
      else if args.lengthsLen ≠ args.n then .ok none
      else match remainder args.tableLen args.n with
        | .error error => .error error
        | .ok rest =>
          if rest ≠ 0 then .ok none
          else if !host.build.kernel then .ok none
          else if host.switch.mode = .auto ∧ !host.deviceDefaultsToKernel then .ok none
          else if !host.deviceSupports args.n args.numKvHeads args.headDim elemSize then .ok none
          else some <$> host.dispatch { args with nRep := asU32 args.nRep, elemSize }

end Host

/-! ## The gate and the launch -/

/-- What has to hold of a call for the kernel to take it. -/
structure Takes (host : Host) (types : OperandTypes) (args : LaunchArgs) (elemSize : ℕ) : Prop where
  mode : host.switch.mode ≠ .reference
  decode : args.seqQ = 1
  size : types.q.kernelSize = some elemSize
  pools : types.kPool = types.q ∧ types.vPool = types.q
  indices : types.blockTable = types.lengths
  heads : args.numHeads = args.numKvHeads * args.nRep
  headDim : args.headDim = args.kHeadDim ∧ args.headDim ≠ 0
  vShape : args.vShape = [args.numBlocks, args.blockSize, args.numKvHeads, args.kHeadDim]
  lengths : args.lengthsLen = args.n
  table : args.tableLen % args.n = 0
  build : host.build.kernel = true
  default : host.switch.mode = .auto → host.deviceDefaultsToKernel = true
  supports : host.deviceSupports args.n args.numKvHeads args.headDim elemSize = true

namespace Host

variable {host : Host} {types : OperandTypes} {args : LaunchArgs}

/-- A call the kernel takes is handed to the backend. -/
theorem pagedDecode_of_takes {elemSize : ℕ} (hlanes : 0 < args.n)
    (htakes : Takes host types args elemSize) : host.pagedDecode types args =
      some <$> host.dispatch { args with nRep := asU32 args.nRep, elemSize } := by
  have hdefault : ¬ (host.switch.mode = .auto ∧ host.deviceDefaultsToKernel = false) :=
    fun ⟨hauto, hnot⟩ => by simp [htakes.default hauto] at hnot
  simp [pagedDecode, remainder, hlanes.ne', htakes.mode, htakes.decode, htakes.size, htakes.pools,
    htakes.indices, ← htakes.heads, ← htakes.headDim.1, htakes.headDim.2, htakes.vShape,
    htakes.lengths, htakes.table, htakes.build, htakes.supports, -not_and, hdefault]

/-- A call is declined unless the kernel takes it: every answer on the way is no. -/
theorem takes_of_pagedDecode (hlanes : 0 < args.n)
    (hanswer : host.pagedDecode types args ≠ .ok none) :
    ∃ elemSize, Takes host types args elemSize := by
  obtain ⟨elemSize, hsize⟩ : ∃ elemSize, types.q.kernelSize = some elemSize := by
    refine Option.ne_none_iff_exists'.mp fun hnone => hanswer ?_
    simp [pagedDecode, hnone]
  refine ⟨elemSize, ?_⟩
  constructor
  case size => exact hsize
  case mode => exact fun hmode => hanswer (by simp [pagedDecode, hmode])
  case default =>
    intro hauto
    by_contra hfails
    exact hanswer (by simp [pagedDecode, remainder, hlanes.ne', hsize, hauto, hfails])
  all_goals
    by_contra hfails
    refine hanswer ?_
    simp [pagedDecode, remainder, hlanes.ne', hsize, hfails]

end Host

/-- The shapes the gate lets through pass the launch's assertions. -/
theorem Takes.accepted {host : Host} {types : OperandTypes} {args : LaunchArgs} {elemSize : ℕ}
    (htakes : Takes host types args elemSize) (hlanes : 0 < args.n)
    (hpools : args.contiguous = true) : LaunchArgs.Accepted { args with elemSize } where
  shapes := by
    simp [checkShapes, ensure, remainder, hlanes.ne', htakes.decode, htakes.headDim.1, htakes.heads,
      htakes.vShape, htakes.table, htakes.lengths, bind, Except.bind]
  pools := by simp [checkPools, ensure, hpools]

/-- A step of a launch that went well. -/
theorem exists_of_bind_eq_ok {α β : Type} {step : Except LaunchError α}
    {next : α → Except LaunchError β} {result : β} (hok : step >>= next = .ok result) :
    ∃ value, step = .ok value ∧ next value = .ok result := by
  cases step with
  | error error => simp [bind, Except.bind] at hok
  | ok value => exact ⟨value, rfl, hok⟩

/-- What a launch is configured with, in the shapes it was given. -/
theorem configure_eq {client : Client} {args : LaunchArgs} {config : LaunchConfig}
    (hlanes : 0 < args.n) (hconfig : configure client args = .ok config) :
    config.cubeCount = (asU32 args.numKvHeads, asU32 args.n, 1) ∧
      config.blockSize = asU32 args.blockSize ∧
      config.blocksPerLane = asU32 (args.tableLen / args.n) ∧
      config.numKvHeads = asU32 args.numKvHeads ∧ config.nRep = args.nRep := by
  obtain ⟨width, _, hconfig⟩ := exists_of_bind_eq_ok hconfig
  obtain ⟨slots, _, hconfig⟩ := exists_of_bind_eq_ok hconfig
  obtain ⟨dpu, _, hconfig⟩ := exists_of_bind_eq_ok hconfig
  obtain ⟨blocksPerLane, hblocks, hconfig⟩ := exists_of_bind_eq_ok hconfig
  obtain ⟨planes, _, hconfig⟩ := exists_of_bind_eq_ok hconfig
  obtain rfl := Except.ok.inj ((divide_of_pos _ hlanes).symm.trans hblocks)
  obtain rfl := Except.ok.inj hconfig
  exact ⟨rfl, rfl, rfl, rfl, rfl⟩

/-- What is assumed of a device: its limits are extents, and its allocator puts the
pools where it says it puts rows. -/
structure Host.Sane (host : Host) (types : OperandTypes) (args : LaunchArgs) : Prop where
  client : ∀ cube, host.device = some cube → cube.client.Sane
  pools : ∀ cube elemSize, host.device = some cube → types.q.kernelSize = some elemSize →
    cube.client.rowStride args.headDim elemSize = args.headDim → args.contiguous = true

/-- What the kernel takes is launched, and legal. -/
theorem launched_of_takes {host : Host} {types : OperandTypes} {args : LaunchArgs} {elemSize : ℕ}
    (hsane : host.Sane types args) (hlanes : 0 < args.n) (hgroup : 0 < args.nRep)
    (hwords : args.nRep < 2 ^ 32) (htakes : Takes host types args elemSize) :
    ∃ cube config, host.device = some cube ∧ host.pagedDecode types args = .ok (some config) ∧
      configure cube.client { args with elemSize } = .ok config ∧
      Legal cube.client { args with elemSize } config := by
  obtain ⟨cube, hcube⟩ : ∃ cube, host.device = some cube := by
    refine Option.ne_none_iff_exists'.mp fun hnone => ?_
    simpa [Host.deviceSupports, hnone] using htakes.supports
  have hsupported : supported cube.client args.n args.numKvHeads args.headDim elemSize = true := by
    have hboth := htakes.supports
    simp only [Host.deviceSupports, hcube, Bool.and_eq_true] at hboth
    exact hboth.2
  have hpools : args.contiguous = true := by
    obtain ⟨-, -, -, -, -, -, -, hstride⟩ := supported_iff.mp hsupported
    exact hsane.pools cube elemSize hcube htakes.size hstride
  have haccepted := htakes.accepted hlanes hpools
  obtain ⟨config, hconfig, hlegal, _⟩ := configure_legal (hsane.client cube hcube) haccepted
    hgroup hsupported
  refine ⟨cube, config, hcube, ?_, hconfig, hlegal⟩
  rw [Host.pagedDecode_of_takes hlanes htakes, asU32, Nat.mod_eq_of_lt hwords]
  simp only [Host.dispatch, hcube, launch, haccepted.shapes, haccepted.pools, hsupported, hconfig,
    bind, Except.bind, pure, Except.pure, Bool.not_true, Bool.false_eq_true, if_false]
  rfl

/-- A device with planes of 32 units that nobody asks for either implementation. -/
def unasked : Host where
  switch := ⟨none, none⟩
  build := ⟨true, true, false, false⟩
  device := some ⟨.cuda, planes32⟩

section Run

universe u

variable {K : Type u} [Field K] [LinearOrder K]

/-- How a device runs a kernel. -/
structure KernelRuntime (K : Type u) where
  exp : K → K
  /-- The sum over the units of a plane. -/
  planeSum : (units : ℕ) → (Fin units → K) → K
  /-- What each cube finds in its shared arrays. -/
  scratch : (width : ℕ) → ℕ → ℕ → Shared K width
  /-- What the output buffer holds before. -/
  uninit : ℕ → K
  /-- The factor of the epilogue. -/
  outputScale : K

/-- The geometry a kernel is launched over. -/
def LaunchConfig.shape (config : LaunchConfig) (scale : K) : DecodeShape K where
  n := config.cubeCount.2.1
  numKvHeads := config.numKvHeads
  nRep := config.nRep
  headDim := config.slots * config.width
  blockSize := config.blockSize
  blocksPerLane := config.blocksPerLane
  scale := scale

/-- How the work is divided, if anything is to do it. -/
def LaunchConfig.geometry (config : LaunchConfig) :
    Option (Geometry (config.slots * config.width)) :=
  if hunits : 0 < config.width ∧ 0 < config.planeDim ∧ 0 < config.planes then
    some
      { width := config.width
        planeDim := config.planeDim
        planes := config.planes
        width_pos := hunits.1
        width_dvd := Nat.dvd_mul_left _ _
        planeDim_pos := hunits.2.1
        planes_pos := hunits.2.2 }
  else none

namespace KernelRuntime

variable (runtime : KernelRuntime K)

/-- The output buffer after a launch. -/
def run (config : LaunchConfig) (scale : K) (operands : Operands K) : ℕ → K :=
  match config.geometry with
  | none => runtime.uninit
  | some geometry =>
    let stored := pagedDecodeKernel runtime.exp (config.shape scale) geometry (runtime.planeSum _)
      (operands.vectorized geometry.width) runtime.outputScale (runtime.scratch _)
      (vectorized geometry.width runtime.uninit)
    fun element => stored (element / geometry.width)
      ⟨element % geometry.width, Nat.mod_lt _ geometry.width_pos⟩

/-- What is assumed of a device that runs kernels. -/
structure Honest : Prop where
  exponential : Exponential runtime.exp
  sums : ∀ units part, runtime.planeSum units part = ∑ u, part u
  /-- Nobody turned the factor of the epilogue. -/
  unscaled : runtime.outputScale = 1

end KernelRuntime

variable {exp : K → K} {operands : Operands K} {shape : DecodeShape K}
  {geometry : Geometry shape.headDim} {planeSum : (Fin geometry.planeDim → K) → K}

/-- An element of the output, out of the slot that holds it. -/
theorem pagedDecodeKernel_element (hexp : Exponential exp)
    (hsum : ∀ part, planeSum part = ∑ u, part u) (hblock : 0 < shape.blockSize)
    (hlens : ∀ lane < shape.n, 1 ≤ operands.lengths lane)
    (htable : ∀ lane < shape.n,
      operands.lengths lane ⌈/⌉ shape.blockSize ≤ shape.blocksPerLane)
    (scratch : ℕ → ℕ → Shared K geometry.width) (before : ℕ → Vec K geometry.width)
    {walked : ℕ → K} (hwalked : decodeReferenceOnline exp operands shape = some walked) {slot : ℕ}
    (hslot : slot < shape.n * shape.numHeads * geometry.slots) (k : Fin geometry.width) :
    pagedDecodeKernel exp shape geometry planeSum (operands.vectorized geometry.width) 1 scratch
      before slot k = walked (slot * geometry.width + k) := by
  have hstores := indices_gridStores_perm exp shape geometry planeSum
    (operands.vectorized geometry.width) 1 scratch
  obtain ⟨_, hout, hentry⟩ := exists_decodeReferenceOnline exp operands shape hblock hlens
  obtain rfl := Option.some.inj (hwalked.symm.trans hout)
  obtain ⟨⟨_, value⟩, hwrite, rfl⟩ :=
    List.mem_map.mp (hstores.mem_iff.mpr (List.mem_range.mpr hslot))
  -- the slot is some unit's, and no other store meets it
  obtain ⟨lane, hlane, kvHead, hkvHead, u, g, i, hinside, hvalue⟩ :=
    exists_unit_of_mem_gridStores exp shape geometry planeSum _ 1 hwrite
  obtain ⟨rfl, rfl⟩ := Prod.mk.injEq .. ▸ hvalue
  have hd := geometry.element_lt hinside k
  obtain ⟨hweight, hacc⟩ := final_channel hexp hsum hblock (htable lane hlane) kvHead
    (scratch lane kvHead) u g hinside k ⟨_, hd⟩ rfl
  rw [pagedDecodeKernel, store_of_nodup before (hstores.nodup_iff.mpr List.nodup_range) hwrite,
    Nat.add_mul, queryBase_mul_width, Nat.add_assoc, hentry lane hlane kvHead hkvHead g ⟨_, hd⟩,
    Pi.mul_apply, hacc, hweight]
  rfl

/-- **What was launched computes the reference**, element by element. -/
theorem KernelRuntime.run_eq {runtime : KernelRuntime K} (hruntime : runtime.Honest)
    {client : Client} {args : LaunchArgs} {config : LaunchConfig}
    (hlegal : Legal client args config) {scale : K} (hblock : 0 < config.blockSize)
    (hlens : ∀ lane < config.cubeCount.2.1, 1 ≤ operands.lengths lane)
    (htable : ∀ lane < config.cubeCount.2.1,
      operands.lengths lane ⌈/⌉ config.blockSize ≤ config.blocksPerLane) {walked : ℕ → K}
    (hwalked : decodeReferenceOnline runtime.exp operands (config.shape scale) = some walked)
    {element : ℕ} (helement : element <
      config.cubeCount.2.1 * (config.numKvHeads * config.nRep) * (config.slots * config.width)) :
    runtime.run config scale operands element = walked element := by
  have hunits : 0 < config.width ∧ 0 < config.planeDim ∧ 0 < config.planes :=
    ⟨hlegal.width_pos, hlegal.planeDim_pos, hlegal.geometry.planes_pos⟩
  simp only [run, LaunchConfig.geometry, dif_pos hunits]
  set geometry : Geometry (config.shape scale).headDim :=
    ⟨config.width, config.planeDim, config.planes, hunits.1, Nat.dvd_mul_left _ _, hunits.2.1,
      hunits.2.2⟩
  have hslot : element / config.width <
      (config.shape scale).n * (config.shape scale).numHeads * geometry.slots := by
    refine (Nat.div_lt_iff_lt_mul hunits.1).mpr ?_
    rw [Nat.mul_assoc _ geometry.slots]
    exact helement.trans_eq (congrArg _ geometry.slots_mul_width.symm)
  have hsame := @pagedDecodeKernel_element K _ _ runtime.exp operands (config.shape scale) geometry
    (runtime.planeSum _) hruntime.exponential (hruntime.sums _) hblock hlens htable
    (runtime.scratch _) (vectorized _ runtime.uninit) _ hwalked _ hslot
    ⟨element % config.width, Nat.mod_lt _ hunits.1⟩
  rw [hruntime.unscaled]
  exact hsame.trans (congrArg walked (Nat.div_add_mod' element config.width))

end Run

end BurnLm.PagedAttn
