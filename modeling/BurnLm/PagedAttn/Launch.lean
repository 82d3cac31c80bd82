/-
# Launching the kernel

The launch derives everything the kernel divides its work by from what the device
reports and from the shapes of its operands: how wide a load is, how many slots a
row has and a unit takes, and how many planes share a cube. None of it is checked
again on the device. This module shows that what is launched is legal on every
device the launch does not decline.

Integer division by zero does not return, so the divisions here say so. Sizes are
exact; the numbers handed to the kernel are cut to 32 bits.
-/

import Mathlib.Tactic.Ring
import BurnLm.Math.Tables
import BurnLm.PagedAttn.Merge

namespace BurnLm.PagedAttn

open BurnLm.Math

/-- What a device reports. The extents of a cube and of the grid are given by
axis. -/
structure Hardware where
  planeSizeMin : ℕ
  planeSizeMax : ℕ
  maxUnitsPerCube : ℕ
  maxCubeDim : ℕ × ℕ × ℕ
  maxCubeCount : ℕ × ℕ × ℕ
  maxSharedMemorySize : ℕ
  /-- Not every device reports it. -/
  numStreamingMultiprocessors : Option ℕ
  deriving DecidableEq, Repr

/-- A device, its load widths by element size, and where its allocator puts the
second row of a head's width. -/
structure Client where
  hardware : Hardware
  planeOps : Bool
  ioOptimizedVectorSizes : ℕ → List ℕ
  rowStride : ℕ → ℕ → ℕ

/-- The shapes a launch is given. -/
structure LaunchArgs where
  n : ℕ
  numHeads : ℕ
  seqQ : ℕ
  headDim : ℕ
  numBlocks : ℕ
  blockSize : ℕ
  numKvHeads : ℕ
  kHeadDim : ℕ
  vShape : List ℕ
  tableLen : ℕ
  lengthsLen : ℕ
  nRep : ℕ
  /-- Bytes of an element. -/
  elemSize : ℕ
  /-- Both pools are. -/
  contiguous : Bool
  deriving DecidableEq, Repr

/-- Why a launch does not return. -/
inductive LaunchError
  | assertion (text : String)
  | divideByZero
  deriving DecidableEq, Repr

/-- What the kernel is launched with. -/
structure LaunchConfig where
  cubeCount : ℕ × ℕ × ℕ
  cubeDim : ℕ × ℕ × ℕ
  width : ℕ
  blockSize : ℕ
  blocksPerLane : ℕ
  numKvHeads : ℕ
  slots : ℕ
  planeDim : ℕ
  dpu : ℕ
  planes : ℕ
  nRep : ℕ
  deriving DecidableEq, Repr

/-- A number cut to 32 bits. -/
def asU32 (value : ℕ) : ℕ := value % 2 ^ 32

def divide (value divisor : ℕ) : Except LaunchError ℕ :=
  if divisor = 0 then .error .divideByZero else .ok (value / divisor)

def divCeil (value divisor : ℕ) : Except LaunchError ℕ :=
  if divisor = 0 then .error .divideByZero else .ok (value ⌈/⌉ divisor)

def remainder (value divisor : ℕ) : Except LaunchError ℕ :=
  if divisor = 0 then .error .divideByZero else .ok (value % divisor)

def ensure (holds : Prop) [Decidable holds] (text : String) : Except LaunchError Unit :=
  if holds then .ok () else .error (.assertion text)

/-- How many elements one unit moves per load. -/
def vectorWidth (client : Client) (elemSize headDim planeDim : ℕ) : Except LaunchError ℕ := do
  let most ← divide headDim (max planeDim 1)
  return ((client.ioOptimizedVectorSizes elemSize).find? fun width =>
    width ≤ most ∧ width ∣ headDim).getD 1

/-- How many planes one cube holds, given how few cubes the grid has. -/
def planesPerCube (client : Client) (n numKvHeads blocksPerLane nRep dpu planeDim width : ℕ) :
    Except LaunchError ℕ := do
  let hw := client.hardware
  let targetPlanes := (hw.numStreamingMultiprocessors.map (· * 16)).getD 512
  let cubes := max (n * numKvHeads) 1
  let wanted := (max (← divCeil targetPlanes cubes) 1).nextPowerOfTwo
  let byWork := max blocksPerLane 1
  let byUnits := max (← divide hw.maxUnitsPerCube planeDim) 1
  let byCubeDim := max hw.maxCubeDim.2.1 1
  let floatsPerPlane := nRep * dpu * planeDim * width + 2 * nRep
  let byShared := max (← divide hw.maxSharedMemorySize (floatsPerPlane * 4)) 1
  let cap := min (min (min (min (min wanted byWork) byUnits) byCubeDim) byShared) 32
  return 2 ^ (max cap 1).log2

/-- Whether a device can run the kernel at a problem size. -/
def supported (client : Client) (n numKvHeads headDim elemSize : ℕ) : Bool :=
  let hw := client.hardware
  if !client.planeOps then false
  else if hw.planeSizeMin ≠ hw.planeSizeMax then false
  else if hw.planeSizeMax = 0 ∨ hw.planeSizeMax > hw.maxUnitsPerCube then false
  else if hw.planeSizeMax > hw.maxCubeDim.1 then false
  else if asU32 numKvHeads > hw.maxCubeCount.1 ∨ asU32 n > hw.maxCubeCount.2.1 then false
  else if client.rowStride headDim elemSize ≠ headDim then false
  else true

/-- What the launch asserts of the shapes. -/
def checkShapes (args : LaunchArgs) : Except LaunchError Unit := do
  ensure (args.seqQ = 1) "paged_decode is decode-only"
  ensure (args.headDim = args.kHeadDim) "q and the pool disagree on head_dim"
  ensure (args.numHeads = args.numKvHeads * args.nRep) "head counts disagree"
  ensure (args.vShape = [args.numBlocks, args.blockSize, args.numKvHeads, args.kHeadDim])
    "the V pool must have the K pool's shape"
  let rest ← remainder args.tableLen args.n
  ensure (rest = 0) "the block table must be n x blocks_per_lane"
  ensure (args.lengthsLen = args.n) "one length per lane"

def checkPools (args : LaunchArgs) : Except LaunchError Unit :=
  ensure (args.contiguous = true)
    ("burn-lm paged decode: the KV pools are not contiguous, which the host gate is supposed " ++
      "to have made impossible (it declines any head_dim this runtime would pitch)")

/-- What the work is divided by on a device that takes it. -/
def configure (client : Client) (args : LaunchArgs) : Except LaunchError LaunchConfig := do
  let planeDim := client.hardware.planeSizeMax
  let width ← vectorWidth client args.elemSize args.headDim planeDim
  let slots ← divide args.headDim width
  let dpu ← divCeil slots planeDim
  let blocksPerLane ← divide args.tableLen args.n
  let planes ← planesPerCube client args.n args.numKvHeads blocksPerLane args.nRep dpu planeDim
    width
  return {
    cubeCount := (asU32 args.numKvHeads, asU32 args.n, 1)
    -- A device reports its plane size in 32 bits, and no cube has over 32 planes.
    cubeDim := (planeDim, planes, 1)
    width
    blockSize := asU32 args.blockSize
    blocksPerLane := asU32 blocksPerLane
    numKvHeads := asU32 args.numKvHeads
    slots
    planeDim
    dpu
    planes
    nRep := args.nRep }

/-- Launch the kernel, or decline. -/
def launch (client : Client) (args : LaunchArgs) : Except LaunchError (Option LaunchConfig) := do
  checkShapes args
  if !supported client args.n args.numKvHeads args.headDim args.elemSize then return none
  checkPools args
  return some (← configure client args)

namespace LaunchConfig

/-- Bytes of the arrays the kernel shares between planes: a maximum and a weight
per plane and query head, and an accumulator of vectors per unit. One plane
shares nothing. -/
def sharedBytes (config : LaunchConfig) : ℕ :=
  if config.planes = 1 then 0
  else
    4 * (config.planes * config.nRep) + 4 * (config.planes * config.nRep) +
      4 * config.width * (config.planes * config.nRep * config.dpu * config.planeDim)

end LaunchConfig

/-! ## Legal launches -/

/-- A device's limits are extents, and its load widths load something. -/
structure Client.Sane (client : Client) : Prop where
  cubeDim_y : 1 ≤ client.hardware.maxCubeDim.2.1
  cubeDim_z : 1 ≤ client.hardware.maxCubeDim.2.2
  widths : ∀ elemSize, ∀ width ∈ client.ioOptimizedVectorSizes elemSize, 0 < width

/-- The launch gets past its own assertions. -/
structure LaunchArgs.Accepted (args : LaunchArgs) : Prop where
  shapes : checkShapes args = .ok ()
  pools : checkPools args = .ok ()

/-- What a launch has to be. -/
structure Legal (client : Client) (args : LaunchArgs) (config : LaunchConfig) : Prop where
  width_pos : 0 < config.width
  width_dvd : config.width ∣ args.headDim
  slots_eq : config.slots = args.headDim / config.width
  planeDim_pos : 0 < config.planeDim
  dpu_eq : config.dpu = config.slots ⌈/⌉ config.planeDim
  /-- Every slot of a row is one unit's, at one of its steps. -/
  assigned : ∀ slot < config.slots, ∃! step : Fin config.planeDim × Fin config.dpu,
    (step.1 : ℕ) + step.2 * config.planeDim = slot
  cubeDim_eq : config.cubeDim = (config.planeDim, config.planes, 1)
  planes_pow : ∃ exponent, config.planes = 2 ^ exponent
  units_le : config.planeDim * config.planes ≤ client.hardware.maxUnitsPerCube
  extent_x : config.planeDim ≤ client.hardware.maxCubeDim.1
  extent_y : config.planes ≤ client.hardware.maxCubeDim.2.1
  extent_z : 1 ≤ client.hardware.maxCubeDim.2.2
  planes_le : 1 < config.planes → config.planes ≤ args.tableLen / args.n
  shared_le : 1 < config.planes → config.sharedBytes ≤ client.hardware.maxSharedMemorySize

theorem divide_of_pos (value : ℕ) {divisor : ℕ} (hpos : 0 < divisor) :
    divide value divisor = .ok (value / divisor) := if_neg hpos.ne'

theorem divCeil_of_pos (value : ℕ) {divisor : ℕ} (hpos : 0 < divisor) :
    divCeil value divisor = .ok (value ⌈/⌉ divisor) := if_neg hpos.ne'

/-- What the device's answer says of it. -/
theorem supported_iff {client : Client} {n numKvHeads headDim elemSize : ℕ} :
    supported client n numKvHeads headDim elemSize = true ↔
      client.planeOps = true ∧
        client.hardware.planeSizeMin = client.hardware.planeSizeMax ∧
        0 < client.hardware.planeSizeMax ∧
        client.hardware.planeSizeMax ≤ client.hardware.maxUnitsPerCube ∧
        client.hardware.planeSizeMax ≤ client.hardware.maxCubeDim.1 ∧
        asU32 numKvHeads ≤ client.hardware.maxCubeCount.1 ∧
        asU32 n ≤ client.hardware.maxCubeCount.2.1 ∧
        client.rowStride headDim elemSize = headDim := by
  simp only [supported, Bool.not_eq_true', ne_eq, gt_iff_lt, ite_not]
  split_ifs <;> simp_all <;> omega

/-- The shapes the launch's assertions let through have a lane. -/
theorem LaunchArgs.Accepted.n_pos {args : LaunchArgs} (haccepted : args.Accepted) : 0 < args.n := by
  rcases Nat.eq_zero_or_pos args.n with hzero | hpos
  · have hshapes := haccepted.shapes
    simp only [checkShapes, ensure, remainder, hzero, bind, Except.bind, if_true] at hshapes
    split_ifs at hshapes
  · exact hpos

/-- The width divides a row, and is at least one. -/
theorem vectorWidth_spec {client : Client} (hsane : client.Sane)
    (elemSize headDim planeDim : ℕ) :
    ∃ width, vectorWidth client elemSize headDim planeDim = .ok width ∧ 0 < width ∧
      width ∣ headDim := by
  have hdivide := divide_of_pos headDim (Nat.lt_of_lt_of_le Nat.one_pos (le_max_right planeDim 1))
  simp only [vectorWidth, hdivide, bind, Except.bind, pure, Except.pure]
  refine ⟨_, rfl, ?_⟩
  rcases hfind : (client.ioOptimizedVectorSizes elemSize).find? fun width =>
    width ≤ headDim / max planeDim 1 ∧ width ∣ headDim with _ | width
  · exact ⟨Nat.one_pos, one_dvd _⟩
  · have hwidth := List.find?_some hfind
    simp only [decide_eq_true_eq] at hwidth
    exact ⟨hsane.widths elemSize width (List.mem_of_find?_eq_some hfind), hwidth.2⟩

/-- The largest power of two in a number is no more than what bounds it. -/
theorem two_pow_log2_le {cap bound : ℕ} (hcap : cap ≤ bound) (hbound : 1 ≤ bound) :
    2 ^ (max cap 1).log2 ≤ bound :=
  le_trans (Nat.log2_self_le (by omega)) (max_le hcap hbound)

/-- The number of planes is within each of its bounds. -/
theorem planes_le_bounds {wanted byWork byUnits byCubeDim byShared : ℕ} (hwork : 1 ≤ byWork)
    (hunits : 1 ≤ byUnits) (hcubeDim : 1 ≤ byCubeDim) (hshared : 1 ≤ byShared) :
    let planes :=
      2 ^ (max (min (min (min (min (min wanted byWork) byUnits) byCubeDim) byShared) 32) 1).log2
    planes ≤ byWork ∧ planes ≤ byUnits ∧ planes ≤ byCubeDim ∧ planes ≤ byShared := by
  refine ⟨two_pow_log2_le ?_ hwork, two_pow_log2_le ?_ hunits, two_pow_log2_le ?_ hcubeDim,
    two_pow_log2_le ?_ hshared⟩ <;> omega

/-- The planes of a cube are a power of two; their units fit a cube and they fit
its extent; and several planes have a block each and room for what they share. -/
theorem planesPerCube_spec (client : Client) (n numKvHeads blocksPerLane : ℕ)
    {nRep dpu planeDim width : ℕ} (hnRep : 1 ≤ nRep) (hplane : 0 < planeDim)
    (hunits : planeDim ≤ client.hardware.maxUnitsPerCube) :
    ∃ exponent, planesPerCube client n numKvHeads blocksPerLane nRep dpu planeDim width =
        .ok (2 ^ exponent) ∧
      planeDim * 2 ^ exponent ≤ client.hardware.maxUnitsPerCube ∧
      2 ^ exponent ≤ max client.hardware.maxCubeDim.2.1 1 ∧
      (1 < 2 ^ exponent → 2 ^ exponent ≤ blocksPerLane ∧
        2 ^ exponent * ((nRep * dpu * planeDim * width + 2 * nRep) * 4) ≤
          client.hardware.maxSharedMemorySize) := by
  have hcubes : 0 < max (n * numKvHeads) 1 := Nat.lt_of_lt_of_le Nat.one_pos (le_max_right _ _)
  have hfloats : 0 < (nRep * dpu * planeDim * width + 2 * nRep) * 4 := by omega
  simp only [planesPerCube, divide_of_pos _ hplane, divide_of_pos _ hfloats,
    divCeil_of_pos _ hcubes, bind, Except.bind, pure, Except.pure]
  obtain ⟨hwork, hbyUnits, hcubeDim, hshared⟩ := planes_le_bounds
    (le_max_right blocksPerLane 1)
    (le_max_right (client.hardware.maxUnitsPerCube / planeDim) 1)
    (le_max_right client.hardware.maxCubeDim.2.1 1)
    (le_max_right (client.hardware.maxSharedMemorySize /
      ((nRep * dpu * planeDim * width + 2 * nRep) * 4)) 1)
  generalize Nat.log2 _ = exponent at hwork hbyUnits hcubeDim hshared ⊢
  refine ⟨exponent, rfl, ?_, hcubeDim, fun hseveral => ⟨?_, ?_⟩⟩
  · rw [max_eq_left ((Nat.one_le_div_iff hplane).mpr hunits)] at hbyUnits
    exact le_trans (Nat.mul_le_mul_left _ hbyUnits) (Nat.mul_div_le _ _)
  · exact (le_max_iff.mp hwork).resolve_right (not_le.mpr hseveral)
  · have hroom := (le_max_iff.mp hshared).resolve_right (not_le.mpr hseveral)
    exact le_trans (Nat.mul_le_mul_right _ hroom) (Nat.div_mul_le_self _ _)

/-- A unit and a step of it make one slot, and each slot once. -/
theorem exists_unique_step {slots planeDim : ℕ} (hplane : 0 < planeDim) :
    ∀ slot < slots, ∃! step : Fin planeDim × Fin (slots ⌈/⌉ planeDim),
      (step.1 : ℕ) + step.2 * planeDim = slot := by
  intro slot hslot
  have hstep : slot / planeDim < slots ⌈/⌉ planeDim := div_lt_ceilDiv hplane hslot
  refine ⟨(⟨slot % planeDim, Nat.mod_lt _ hplane⟩, ⟨slot / planeDim, hstep⟩),
    Nat.mod_add_div' slot planeDim, ?_⟩
  rintro ⟨u, i⟩ hsame
  have hunit : (u : ℕ) = slot % planeDim := by
    rw [← hsame, Nat.add_mul_mod_self_right, Nat.mod_eq_of_lt u.isLt]
  have hindex : (i : ℕ) = slot / planeDim := by
    rw [← hsame, Nat.add_mul_div_right _ _ hplane, Nat.div_eq_of_lt u.isLt, Nat.zero_add]
  exact Prod.ext (Fin.ext hunit) (Fin.ext hindex)

/-- Several planes share their floats each, four bytes a float. -/
theorem LaunchConfig.sharedBytes_eq {config : LaunchConfig} (hseveral : 1 < config.planes) :
    config.sharedBytes = config.planes *
      ((config.nRep * config.dpu * config.planeDim * config.width + 2 * config.nRep) * 4) := by
  rw [sharedBytes, if_neg (by omega)]
  ring

/-- On a device that takes it, an accepted launch is configured legally. -/
theorem configure_legal {client : Client} (hsane : client.Sane) {args : LaunchArgs}
    (haccepted : args.Accepted) (hnRep : 1 ≤ args.nRep)
    (hsupported : supported client args.n args.numKvHeads args.headDim args.elemSize = true) :
    ∃ config, configure client args = .ok config ∧ Legal client args config ∧
      config.blockSize = asU32 args.blockSize := by
  obtain ⟨-, -, hplane, hunits, hextent, -⟩ := supported_iff.mp hsupported
  obtain ⟨width, hwidth, hpos, hdvd⟩ := vectorWidth_spec hsane args.elemSize args.headDim
    client.hardware.planeSizeMax
  obtain ⟨exponent, hplanes, hfit, hextentY, hseveral⟩ := @planesPerCube_spec client args.n
    args.numKvHeads (args.tableLen / args.n) args.nRep
    ((args.headDim / width) ⌈/⌉ client.hardware.planeSizeMax) client.hardware.planeSizeMax width
    hnRep hplane hunits
  simp only [configure, hwidth, divide_of_pos _ hpos, divCeil_of_pos _ hplane,
    divide_of_pos _ haccepted.n_pos, hplanes, bind, Except.bind, pure, Except.pure]
  refine ⟨_, rfl, ?_, rfl⟩
  exact
    { width_pos := hpos
      width_dvd := hdvd
      slots_eq := rfl
      planeDim_pos := hplane
      dpu_eq := rfl
      assigned := exists_unique_step hplane
      cubeDim_eq := rfl
      planes_pow := ⟨exponent, rfl⟩
      units_le := hfit
      extent_x := hextent
      extent_y := by simpa [max_eq_left hsane.cubeDim_y] using hextentY
      extent_z := hsane.cubeDim_z
      planes_le := fun hplanes => (hseveral hplanes).1
      shared_le := fun hplanes => by
        rw [LaunchConfig.sharedBytes_eq hplanes]
        exact (hseveral hplanes).2 }

/-- How a legal launch divides the kernel's work. -/
def Legal.geometry {client : Client} {args : LaunchArgs} {config : LaunchConfig}
    (hlegal : Legal client args config) : Geometry args.headDim where
  width := config.width
  planeDim := config.planeDim
  planes := config.planes
  width_pos := hlegal.width_pos
  width_dvd := hlegal.width_dvd
  planeDim_pos := hlegal.planeDim_pos
  planes_pos := by
    obtain ⟨exponent, hplanes⟩ := hlegal.planes_pow
    rw [hplanes]
    exact Nat.two_pow_pos exponent

/-- A device with planes of 32 units. -/
def planes32 : Client where
  hardware :=
    { planeSizeMin := 32
      planeSizeMax := 32
      maxUnitsPerCube := 1024
      maxCubeDim := (1024, 1024, 64)
      maxCubeCount := (65535, 65535, 65535)
      maxSharedMemorySize := 49152
      numStreamingMultiprocessors := none }
  planeOps := true
  ioOptimizedVectorSizes _ := [4, 2, 1]
  rowStride headDim _ := headDim

theorem planes32_sane : planes32.Sane where
  cubeDim_y := by decide
  cubeDim_z := by decide
  widths _ := by
    show ∀ width ∈ [4, 2, 1], 0 < width
    decide

end BurnLm.PagedAttn
