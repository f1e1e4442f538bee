import Alpaka.Api.IdxLayer
import Alpaka.Math.Split

/-! # Indices of workers

A kernel asks for its index within an origin, counted in a unit, and for the extents of
the origin. Both are computed from the hardware indices in the index type, those of
warps in 32 bits. The workers of the hardware are numbered one-to-one and as the
hardware groups them exactly when the launch loses nothing and the extents of the grid,
in threads and in warps, are representable (`Alpaka.numbered_iff`).
-/

namespace Alpaka

open Math.MixedRadix

variable {w n : ℕ}

structure ThreadSpec (w n : ℕ) where
  numBlocks : Vec (BitVec w) (n + 1)
  numThreads : Vec (BitVec w) (n + 1)

/-- A thread of the hardware: the index of its block and its index within the block. -/
structure HardwareThread where
  blockIdx : Dim3
  threadIdx : Dim3

/-- What a kernel knows: the specification, the size of a warp, and the hardware. -/
structure Acc (w n : ℕ) extends HardwareThread where
  threadSpec : ThreadSpec w n
  warpSize : ℕ
  gridDim : Dim3
  blockDim : Dim3

/-- The pairs of an origin and a unit for which indices are defined. -/
inductive Scope
  | threadThreads
  | warpThreads
  | blockThreads
  | blockWarps
  | gridThreads
  | gridWarps
  | gridBlocks

/-- The number of components: indices in warps are linear. -/
@[simp] def Scope.dim (n : ℕ) : Scope → ℕ
  | .warpThreads | .blockWarps | .gridWarps => 1
  | .threadThreads | .blockThreads | .gridThreads | .gridBlocks => n + 1

/-- The index of a warp in the grid has 32 bits and is only defined if the index type
has. -/
def Scope.Defined (w : ℕ) : Scope → Prop
  | .gridWarps => w = 32
  | _ => True

namespace Acc

variable (acc : Acc w n)

/-! The layers of blocks and threads. -/

def blockLayerIdx : Vec (BitVec w) (n + 1) := layerIdx acc.threadSpec.numBlocks acc.blockIdx

def blockLayerCount : Vec (BitVec w) (n + 1) := layerCount acc.threadSpec.numBlocks acc.gridDim

def threadLayerIdx : Vec (BitVec w) (n + 1) := layerIdx acc.threadSpec.numThreads acc.threadIdx

def threadLayerCount : Vec (BitVec w) (n + 1) := layerCount acc.threadSpec.numThreads acc.blockDim

/-- The position within the warp, which the hardware tells. -/
def getLaneIdx : ℕ := acc.blockDim.linear acc.threadIdx % acc.warpSize

def getWarpIdx : BitVec 32 :=
  ((linearize acc.threadLayerCount acc.threadLayerIdx).toNat / acc.warpSize : ℕ)

def numWarpsInBlock : BitVec w := divCeil acc.threadLayerCount.product (acc.warpSize : BitVec w)

/-- The index within the origin, in the unit. -/
def getIdxWithin : (scope : Scope) → Vec ℕ (scope.dim n)
  | .threadThreads => fun _ => 0
  | .warpThreads => fun _ => acc.getLaneIdx
  | .blockThreads => acc.threadLayerIdx.toNats
  | .blockWarps => fun _ => acc.getWarpIdx.toNat
  | .gridThreads => fun d =>
      (acc.threadLayerCount d * acc.blockLayerIdx d + acc.threadLayerIdx d).toNat
  | .gridWarps => fun _ =>
      ((linearize acc.blockLayerCount acc.blockLayerIdx * acc.numWarpsInBlock).setWidth 32 +
        acc.getWarpIdx).toNat
  | .gridBlocks => acc.blockLayerIdx.toNats

/-- The extents of the origin, in the unit. -/
def getExtentsOf : (scope : Scope) → Vec ℕ (scope.dim n)
  | .threadThreads => fun _ => 1
  | .warpThreads => fun _ => acc.warpSize
  | .blockThreads => acc.threadLayerCount.toNats
  | .blockWarps => fun _ => acc.numWarpsInBlock.toNat
  | .gridThreads => fun d => (acc.blockLayerCount d * acc.threadLayerCount d).toNat
  | .gridWarps => fun _ => (acc.blockLayerCount.product * acc.numWarpsInBlock).toNat
  | .gridBlocks => acc.blockLayerCount.toNats

end Acc

namespace ThreadSpec

variable (spec : ThreadSpec w n) (warpSize : ℕ)

/-- The threads that the hardware runs. -/
def workers : Set HardwareThread :=
  {worker | worker.blockIdx ∈ (launchDim spec.numBlocks).ids ∧
    worker.threadIdx ∈ (launchDim spec.numThreads).ids}

/-- What a thread of the launched kernel knows. -/
def gpuKernel (worker : HardwareThread) : Acc w n where
  toHardwareThread := worker
  threadSpec := spec
  warpSize := warpSize
  gridDim := launchDim spec.numBlocks
  blockDim := launchDim spec.numThreads

/-- The warp of its block into which the hardware groups a thread. -/
def hardwareWarp (worker : HardwareThread) : ℕ :=
  (launchDim spec.numThreads).linear worker.threadIdx / warpSize

/-- What it means that workers are numbered one-to-one. -/
structure Numbered : Prop where
  ids : Set.BijOn (fun worker => ((spec.gpuKernel warpSize worker).blockLayerIdx,
      (spec.gpuKernel warpSize worker).threadLayerIdx)) spec.workers
    (box spec.numBlocks ×ˢ box spec.numThreads)
  below : ∀ worker ∈ spec.workers, ∀ scope : Scope, scope.Defined w → ∀ d,
    (spec.gpuKernel warpSize worker).getIdxWithin scope d <
      (spec.gpuKernel warpSize worker).getExtentsOf scope d
  grid : Set.BijOn (fun worker => (spec.gpuKernel warpSize worker).getIdxWithin .gridThreads)
    spec.workers {x | ∀ d, x d < (spec.numBlocks d).toNat * (spec.numThreads d).toNat}
  grouped : ∀ worker ∈ spec.workers,
    (spec.gpuKernel warpSize worker).getIdxWithin .blockWarps =
      fun _ => spec.hardwareWarp warpSize worker
  warps : w = 32 → ∀ worker ∈ spec.workers, ∀ other ∈ spec.workers,
    ((spec.gpuKernel warpSize worker).getIdxWithin .gridWarps =
        (spec.gpuKernel warpSize other).getIdxWithin .gridWarps ↔
      worker.blockIdx = other.blockIdx ∧
        spec.hardwareWarp warpSize worker = spec.hardwareWarp warpSize other)
  ordered : w = 32 → ∀ worker ∈ spec.workers, ∀ other ∈ spec.workers,
    worker.blockIdx = other.blockIdx →
    ((spec.gpuKernel warpSize worker).getIdxWithin .gridWarps ≤
        (spec.gpuKernel warpSize other).getIdxWithin .gridWarps ↔
      spec.hardwareWarp warpSize worker ≤ spec.hardwareWarp warpSize other)

/-- Nothing is lost in the launch, and the extents are representable. -/
structure Exact : Prop where
  blocks : LaunchExact spec.numBlocks
  threads : LaunchExact spec.numThreads
  grid : ∀ d, (spec.numBlocks d).toNat * (spec.numThreads d).toNat < 2 ^ w
  rounded : (∏ d, (spec.numThreads d).toNat) + warpSize - 1 < 2 ^ w
  narrow : ((∏ d, (spec.numThreads d).toNat) - 1) / warpSize < 2 ^ 32
  warps : w = 32 → (∏ d, (spec.numBlocks d).toNat) *
    divCeil (∏ d, (spec.numThreads d).toNat) warpSize < 2 ^ 32

variable {spec : ThreadSpec w n} {warpSize : ℕ}

/-! ## What kernels compute -/

/-- In an exact launch a kernel computes from the extents that it was launched with. -/
structure Launched (spec : ThreadSpec w n) : Prop where
  blocks : LaunchExact spec.numBlocks
  threads : LaunchExact spec.numThreads

section Launched

variable {worker : HardwareThread}

theorem Launched.blockCount (launched : spec.Launched) (worker : HardwareThread) :
    (spec.gpuKernel warpSize worker).blockLayerCount = spec.numBlocks :=
  launched.blocks.count

theorem Launched.threadCount (launched : spec.Launched) (worker : HardwareThread) :
    (spec.gpuKernel warpSize worker).threadLayerCount = spec.numThreads :=
  launched.threads.count

private theorem Launched.blockIdx_inside (launched : spec.Launched)
    (member : worker ∈ spec.workers) :
    (spec.gpuKernel warpSize worker).blockLayerIdx ∈ box spec.numBlocks :=
  launched.blocks.bijOn.mapsTo member.1

private theorem Launched.threadIdx_inside (launched : spec.Launched)
    (member : worker ∈ spec.workers) :
    (spec.gpuKernel warpSize worker).threadLayerIdx ∈ box spec.numThreads :=
  launched.threads.bijOn.mapsTo member.2

/-- The index of the warp, from the linear index of the hardware. -/
theorem Launched.toNat_getWarpIdx (launched : spec.Launched) (member : worker ∈ spec.workers) :
    (spec.gpuKernel warpSize worker).getWarpIdx.toNat =
      (launchDim spec.numThreads).linear worker.threadIdx % 2 ^ w / warpSize % 2 ^ 32 := by
  unfold Acc.getWarpIdx
  rw [toNat_cast, launched.threadCount, toNat_linearize,
    linear_eq_linearize launched.threads member.2]
  rfl

private theorem Launched.toNat_numWarpsInBlock (launched : spec.Launched) (positive : 0 < warpSize)
    (narrow : warpSize < 2 ^ w) :
    (spec.gpuKernel warpSize worker).numWarpsInBlock.toNat =
      ((∏ d, (spec.numThreads d).toNat) + warpSize - 1) % 2 ^ w / warpSize := by
  unfold Acc.numWarpsInBlock
  rw [launched.threadCount]
  exact toNat_divCeil positive narrow _ (Vec.toNat_product spec.numThreads)

private theorem Launched.toNat_gridThread (launched : spec.Launched) (worker : HardwareThread)
    (d : Fin (n + 1)) :
    (spec.gpuKernel warpSize worker).getIdxWithin .gridThreads d =
      ((spec.numThreads d).toNat * (layerIdx spec.numBlocks worker.blockIdx d).toNat +
        (layerIdx spec.numThreads worker.threadIdx d).toNat) % 2 ^ w := by
  change ((spec.gpuKernel warpSize worker).threadLayerCount d * _ + _ : BitVec w).toNat = _
  rw [launched.threadCount, BitVec.toNat_add, BitVec.toNat_mul, Nat.mod_add_mod]
  rfl

/-- The threads of the hardware are numbered by pairs of a block and a thread. -/
theorem Launched.ids (launched : spec.Launched) (warpSize : ℕ) :
    Set.BijOn (fun worker => ((spec.gpuKernel warpSize worker).blockLayerIdx,
      (spec.gpuKernel warpSize worker).threadLayerIdx)) spec.workers
      (box spec.numBlocks ×ˢ box spec.numThreads) := by
  refine ⟨fun worker member =>
    ⟨launched.blockIdx_inside member, launched.threadIdx_inside member⟩, ?_, ?_⟩
  · intro first firstIn second secondIn same
    have block := launched.blocks.bijOn.injOn firstIn.1 secondIn.1 (congrArg Prod.fst same)
    have thread := launched.threads.bijOn.injOn firstIn.2 secondIn.2 (congrArg Prod.snd same)
    cases first
    cases second
    simp_all
  · rintro ⟨block, thread⟩ ⟨blockIn, threadIn⟩
    obtain ⟨blockId, member, rfl⟩ := launched.blocks.bijOn.surjOn blockIn
    obtain ⟨threadId, member', rfl⟩ := launched.threads.bijOn.surjOn threadIn
    exact ⟨⟨blockId, threadId⟩, ⟨member, member'⟩, rfl⟩

end Launched

/-- Pairs of a block and a thread are the indices of the grid. -/
theorem grid_bijOn (numBlocks numThreads : Vec (BitVec w) n) :
    Set.BijOn (fun (pair : Vec (BitVec w) n × Vec (BitVec w) n) d =>
        (numThreads d).toNat * (pair.1 d).toNat + (pair.2 d).toNat)
      (box numBlocks ×ˢ box numThreads)
      {x | ∀ d, x d < (numBlocks d).toNat * (numThreads d).toNat} := by
  have thread {pair : Vec (BitVec w) n × Vec (BitVec w) n}
      (member : pair ∈ box numBlocks ×ˢ box numThreads) (d : Fin n) :
      (pair.2 d).toNat < (numThreads d).toNat := member.2 d
  refine ⟨fun pair member d => ?_, fun first firstIn second secondIn same => ?_,
    fun x inside => ?_⟩
  · have block : (pair.1 d).toNat + 1 ≤ (numBlocks d).toNat := member.1 d
    have rows := Nat.mul_le_mul_right (numThreads d).toNat block
    have column := thread member d
    rw [Nat.succ_mul, Nat.mul_comm (pair.1 d).toNat] at rows
    exact (Nat.add_lt_add_left column _).trans_le rows
  · have quotient (d : Fin n) : (first.1 d).toNat = (second.1 d).toNat := by
      have number := congrArg (· / (numThreads d).toNat) (congrFun same d)
      have positive := Nat.zero_lt_of_lt (thread firstIn d)
      simp only [Nat.mul_add_div positive, Nat.div_eq_of_lt (thread firstIn d),
        Nat.div_eq_of_lt (thread secondIn d), Nat.add_zero] at number
      exact number
    have remainder (d : Fin n) : (first.2 d).toNat = (second.2 d).toNat := by
      have number := congrFun same d
      simp only [quotient d] at number
      exact Nat.add_left_cancel number
    exact Prod.ext (funext fun d => BitVec.eq_of_toNat_eq (quotient d))
      (funext fun d => BitVec.eq_of_toNat_eq (remainder d))
  · have positive (d : Fin n) : 0 < (numThreads d).toNat :=
      Nat.pos_of_mul_pos_left (Nat.zero_lt_of_lt (inside d))
    have quotient (d : Fin n) : x d / (numThreads d).toNat < (numBlocks d).toNat :=
      Nat.div_lt_of_lt_mul (by rw [Nat.mul_comm]; exact inside d)
    have remainder (d : Fin n) := Nat.mod_lt (x d) (positive d)
    have block : (Vec.ofNats fun d => x d / (numThreads d).toNat : Vec (BitVec w) n).toNats =
        fun d => x d / (numThreads d).toNat :=
      Vec.toNats_ofNats fun d => (quotient d).trans (numBlocks d).isLt
    have thread' : (Vec.ofNats fun d => x d % (numThreads d).toNat : Vec (BitVec w) n).toNats =
        fun d => x d % (numThreads d).toNat :=
      Vec.toNats_ofNats fun d => (remainder d).trans (numThreads d).isLt
    refine ⟨(Vec.ofNats fun d => x d / (numThreads d).toNat,
      Vec.ofNats fun d => x d % (numThreads d).toNat),
      ⟨fun d => (congrFun block d).trans_lt (quotient d),
        fun d => (congrFun thread' d).trans_lt (remainder d)⟩, funext fun d => ?_⟩
    have left := congrFun block d
    have right := congrFun thread' d
    simp only [Vec.toNats] at left right
    dsimp only
    rw [left, right]
    exact Nat.div_add_mod _ _

/-! ## Exact launches -/

section Exact

variable {worker : HardwareThread}

theorem Exact.launched (exact : spec.Exact warpSize) : spec.Launched :=
  ⟨exact.blocks, exact.threads⟩

/-- The number of warps of a block. -/
theorem Exact.toNat_numWarpsInBlock (exact : spec.Exact warpSize) (positive : 0 < warpSize)
    (narrow : warpSize < 2 ^ w) (worker : HardwareThread) :
    (spec.gpuKernel warpSize worker).numWarpsInBlock.toNat =
      divCeil (∏ d, (spec.numThreads d).toNat) warpSize := by
  rw [exact.launched.toNat_numWarpsInBlock positive narrow, Nat.mod_eq_of_lt exact.rounded]
  rfl

theorem Exact.linear_lt (exact : spec.Exact warpSize) (positive : 0 < warpSize)
    (member : worker ∈ spec.workers) :
    (launchDim spec.numThreads).linear worker.threadIdx < 2 ^ w := by
  have below := Alpaka.linear_lt exact.threads member.2
  have := exact.rounded
  omega

/-- The index of a warp in its block is that of the hardware. -/
theorem Exact.toNat_getWarpIdx (exact : spec.Exact warpSize) (positive : 0 < warpSize)
    (member : worker ∈ spec.workers) :
    (spec.gpuKernel warpSize worker).getWarpIdx.toNat = spec.hardwareWarp warpSize worker := by
  have below := Alpaka.linear_lt exact.threads member.2
  have narrow : (launchDim spec.numThreads).linear worker.threadIdx / warpSize < 2 ^ 32 :=
    (Nat.div_le_div_right (Nat.le_sub_one_of_lt below)).trans_lt exact.narrow
  rw [exact.launched.toNat_getWarpIdx member, Nat.mod_eq_of_lt (exact.linear_lt positive member),
    Nat.mod_eq_of_lt narrow]
  rfl

private theorem Exact.hardwareWarp_lt (exact : spec.Exact warpSize) (positive : 0 < warpSize)
    (member : worker ∈ spec.workers) :
    spec.hardwareWarp warpSize worker < divCeil (∏ d, (spec.numThreads d).toNat) warpSize := by
  have below := Alpaka.linear_lt exact.threads member.2
  unfold divCeil hardwareWarp
  rw [Math.lt_ceil_iff positive]
  exact (Nat.div_mul_le_self _ _).trans_lt below

/-- The index of a thread in the grid. -/
theorem Exact.gridThread (exact : spec.Exact warpSize) (member : worker ∈ spec.workers) :
    (spec.gpuKernel warpSize worker).getIdxWithin .gridThreads = fun d =>
      (spec.numThreads d).toNat * (layerIdx spec.numBlocks worker.blockIdx d).toNat +
        (layerIdx spec.numThreads worker.threadIdx d).toNat := by
  have inside := (grid_bijOn spec.numBlocks spec.numThreads).mapsTo
    ((exact.launched.ids warpSize).mapsTo member)
  funext d
  exact (exact.launched.toNat_gridThread worker d).trans
    (Nat.mod_eq_of_lt ((inside d).trans (exact.grid d)))

private theorem Exact.grid_ids (exact : spec.Exact warpSize) :
    Set.BijOn (fun worker => (spec.gpuKernel warpSize worker).getIdxWithin .gridThreads)
      spec.workers {x | ∀ d, x d < (spec.numBlocks d).toNat * (spec.numThreads d).toNat} := by
  have composed := (grid_bijOn spec.numBlocks spec.numThreads).comp
    (exact.launched.ids warpSize)
  exact composed.congr fun worker member => (exact.gridThread member).symm

/-- Everything an index is compared with, apart from warps in the grid. -/
theorem Exact.below (exact : spec.Exact warpSize) (positive : 0 < warpSize)
    (narrow : warpSize < 2 ^ w) (member : worker ∈ spec.workers) {scope : Scope}
    (inBlock : scope ≠ .gridWarps) (d : Fin (scope.dim n)) :
    (spec.gpuKernel warpSize worker).getIdxWithin scope d <
      (spec.gpuKernel warpSize worker).getExtentsOf scope d := by
  have launched := exact.launched
  cases scope with
  | threadThreads => exact Nat.one_pos
  | warpThreads => exact Nat.mod_lt _ positive
  | blockThreads =>
      change _ < ((spec.gpuKernel warpSize worker).threadLayerCount d).toNat
      rw [launched.threadCount]
      exact launched.threadIdx_inside member d
  | blockWarps =>
      change (spec.gpuKernel warpSize worker).getWarpIdx.toNat <
        (spec.gpuKernel warpSize worker).numWarpsInBlock.toNat
      rw [exact.toNat_getWarpIdx positive member, exact.toNat_numWarpsInBlock positive narrow]
      exact exact.hardwareWarp_lt positive member
  | gridThreads =>
      have extents : (spec.gpuKernel warpSize worker).getExtentsOf .gridThreads d =
          (spec.numBlocks d).toNat * (spec.numThreads d).toNat := by
        change ((spec.gpuKernel warpSize worker).blockLayerCount d *
          (spec.gpuKernel warpSize worker).threadLayerCount d).toNat = _
        rw [launched.blockCount, launched.threadCount, BitVec.toNat_mul,
          Nat.mod_eq_of_lt (exact.grid d)]
      exact (exact.grid_ids.mapsTo member d).trans_eq extents.symm
  | gridWarps => exact absurd rfl inBlock
  | gridBlocks =>
      change _ < ((spec.gpuKernel warpSize worker).blockLayerCount d).toNat
      rw [launched.blockCount]
      exact launched.blockIdx_inside member d

end Exact

/-! ## Warps in the grid -/

section Warps

variable {spec : ThreadSpec 32 n} {worker : HardwareThread}

/-- The index of a warp in the grid, from the linear indices. -/
theorem Launched.toNat_gridWarp (launched : spec.Launched) (member : worker ∈ spec.workers) :
    (spec.gpuKernel warpSize worker).getIdxWithin .gridWarps (0 : Fin 1) =
      ((launchDim spec.numBlocks).linear worker.blockIdx *
          (spec.gpuKernel warpSize worker).numWarpsInBlock.toNat +
        (spec.gpuKernel warpSize worker).getWarpIdx.toNat) % 2 ^ 32 := by
  change ((linearize (spec.gpuKernel warpSize worker).blockLayerCount _ * _).setWidth 32 +
    _ : BitVec 32).toNat = _
  rw [launched.blockCount, BitVec.setWidth_eq, BitVec.toNat_add, BitVec.toNat_mul,
    toNat_linearize, Nat.mod_mul_mod, Nat.mod_add_mod,
    linear_eq_linearize launched.blocks member.1]
  rfl

private theorem Exact.gridWarp_lt (exact : spec.Exact warpSize) (positive : 0 < warpSize)
    (member : worker ∈ spec.workers) :
    (launchDim spec.numBlocks).linear worker.blockIdx *
        divCeil (∏ d, (spec.numThreads d).toNat) warpSize + spec.hardwareWarp warpSize worker <
      (∏ d, (spec.numBlocks d).toNat) * divCeil (∏ d, (spec.numThreads d).toNat) warpSize := by
  have block := Alpaka.linear_lt exact.blocks member.1
  have rows := Nat.mul_le_mul_right (divCeil (∏ d, (spec.numThreads d).toNat) warpSize)
    (Nat.succ_le_of_lt block)
  have column := exact.hardwareWarp_lt positive member
  rw [Nat.succ_mul] at rows
  exact (Nat.add_lt_add_left column _).trans_le rows

/-- The index of a warp in the grid counts the warps of the blocks in front. -/
theorem Exact.gridWarp (exact : spec.Exact warpSize) (positive : 0 < warpSize)
    (narrow : warpSize < 2 ^ 32) (member : worker ∈ spec.workers) :
    (spec.gpuKernel warpSize worker).getIdxWithin .gridWarps = fun _ =>
      (launchDim spec.numBlocks).linear worker.blockIdx *
        divCeil (∏ d, (spec.numThreads d).toNat) warpSize + spec.hardwareWarp warpSize worker := by
  have small := (exact.gridWarp_lt positive member).trans (exact.warps rfl)
  funext d
  rw [Fin.fin_one_eq_zero d]
  refine (exact.launched.toNat_gridWarp member).trans ?_
  rw [exact.toNat_numWarpsInBlock positive narrow, exact.toNat_getWarpIdx positive member]
  exact Nat.mod_eq_of_lt small

private theorem Exact.gridWarp_below (exact : spec.Exact warpSize) (positive : 0 < warpSize)
    (narrow : warpSize < 2 ^ 32) (member : worker ∈ spec.workers) (d : Fin 1) :
    (spec.gpuKernel warpSize worker).getIdxWithin .gridWarps d <
      (spec.gpuKernel warpSize worker).getExtentsOf .gridWarps d := by
  have extents : (spec.gpuKernel warpSize worker).getExtentsOf .gridWarps d =
      (∏ d, (spec.numBlocks d).toNat) *
        divCeil (∏ d, (spec.numThreads d).toNat) warpSize := by
    change ((spec.gpuKernel warpSize worker).blockLayerCount.product *
      (spec.gpuKernel warpSize worker).numWarpsInBlock).toNat = _
    rw [exact.launched.blockCount, BitVec.toNat_mul, Vec.toNat_product,
      exact.toNat_numWarpsInBlock positive narrow, Nat.mod_mul_mod,
      Nat.mod_eq_of_lt (exact.warps rfl)]
  rw [extents, exact.gridWarp positive narrow member]
  exact exact.gridWarp_lt positive member

/-- The indices of warps in the grid tell blocks and warps apart. -/
theorem Exact.gridWarp_injective (exact : spec.Exact warpSize) (positive : 0 < warpSize)
    (narrow : warpSize < 2 ^ 32) {other : HardwareThread} (member : worker ∈ spec.workers)
    (member' : other ∈ spec.workers) :
    (spec.gpuKernel warpSize worker).getIdxWithin .gridWarps =
        (spec.gpuKernel warpSize other).getIdxWithin .gridWarps ↔
      worker.blockIdx = other.blockIdx ∧
        spec.hardwareWarp warpSize worker = spec.hardwareWarp warpSize other := by
  rw [exact.gridWarp positive narrow member, exact.gridWarp positive narrow member']
  have first := exact.hardwareWarp_lt positive member
  have second := exact.hardwareWarp_lt positive member'
  constructor
  · intro same
    have number := congrFun same (0 : Fin 1)
    beta_reduce at number
    have warps : 0 < divCeil (∏ d, (spec.numThreads d).toNat) warpSize := by omega
    have block := congrArg (· / divCeil (∏ d, (spec.numThreads d).toNat) warpSize) number
    simp only [Nat.mul_comm _ (divCeil (∏ d, (spec.numThreads d).toNat) warpSize),
      Nat.mul_add_div warps, Nat.div_eq_of_lt first, Nat.div_eq_of_lt second,
      Nat.add_zero] at block
    refine ⟨linear_injOn exact.blocks member.1 member'.1 block, ?_⟩
    rw [block] at number
    exact Nat.add_left_cancel number
  · rintro ⟨block, warp⟩
    rw [block, warp]

/-- Within a block the indices of warps have the order of the hardware. -/
theorem Exact.gridWarp_ordered (exact : spec.Exact warpSize) (positive : 0 < warpSize)
    (narrow : warpSize < 2 ^ 32) {other : HardwareThread} (member : worker ∈ spec.workers)
    (member' : other ∈ spec.workers) (block : worker.blockIdx = other.blockIdx) :
    (spec.gpuKernel warpSize worker).getIdxWithin .gridWarps ≤
        (spec.gpuKernel warpSize other).getIdxWithin .gridWarps ↔
      spec.hardwareWarp warpSize worker ≤ spec.hardwareWarp warpSize other := by
  rw [exact.gridWarp positive narrow member, exact.gridWarp positive narrow member', block]
  constructor
  · intro ordered
    exact Nat.le_of_add_le_add_left (ordered (0 : Fin 1))
  · intro ordered d
    exact Nat.add_le_add_left ordered _

end Warps

/-- In an exact launch everything is numbered one-to-one. -/
theorem Exact.numbered (exact : spec.Exact warpSize) (positive : 0 < warpSize)
    (narrow : warpSize < 2 ^ w) : spec.Numbered warpSize where
  ids := exact.launched.ids warpSize
  below := by
    intro worker member scope defined d
    by_cases inBlock : scope = .gridWarps
    · subst inBlock
      obtain rfl : w = 32 := defined
      exact exact.gridWarp_below positive narrow member d
    · exact exact.below positive narrow member inBlock d
  grid := exact.grid_ids
  grouped := fun _ member => funext fun _ => exact.toNat_getWarpIdx positive member
  warps := by
    rintro rfl worker member other member'
    exact exact.gridWarp_injective positive narrow member member'
  ordered := by
    rintro rfl worker member other member' block
    exact exact.gridWarp_ordered positive narrow member member' block

/-! ## What the numbering needs -/

section Needs

private theorem zero_mem_box {extents : Vec (BitVec w) n} (positive : ∀ d, 0 < (extents d).toNat) :
    (fun _ => 0) ∈ box extents := by
  intro d
  rw [BitVec.lt_def]
  exact (congrArg (· < _) (BitVec.toNat_ofNat 0 w)).mpr (by rw [Nat.zero_mod]; exact positive d)

/-- Without the launch being exact some index has no thread. -/
theorem Numbered.launched (numbered : spec.Numbered warpSize)
    (blocks : ∀ d, 0 < (spec.numBlocks d).toNat) (threads : ∀ d, 0 < (spec.numThreads d).toNat) :
    spec.Launched where
  blocks := by
    refine LaunchExact.of_surjOn blocks fun idx inside => ?_
    obtain ⟨worker, member, reached⟩ :=
      numbered.ids.surjOn (Set.mk_mem_prod inside (zero_mem_box threads))
    exact ⟨worker.blockIdx, member.1, congrArg Prod.fst reached⟩
  threads := by
    refine LaunchExact.of_surjOn threads fun idx inside => ?_
    obtain ⟨worker, member, reached⟩ :=
      numbered.ids.surjOn (Set.mk_mem_prod (zero_mem_box blocks) inside)
    exact ⟨worker.threadIdx, member.2, congrArg Prod.snd reached⟩

/-- Along a dimension that is too long, some index of the grid is the largest number. -/
theorem Numbered.grid_lt (numbered : spec.Numbered warpSize) (d : Fin (n + 1))
    (blocks : ∀ d, 0 < (spec.numBlocks d).toNat)
    (threads : ∀ d, 0 < (spec.numThreads d).toNat) :
    (spec.numBlocks d).toNat * (spec.numThreads d).toNat < 2 ^ w := by
  by_contra long
  have inside : Function.update (fun _ => 0) d (2 ^ w - 1) ∈
      {x : Fin (n + 1) → ℕ | ∀ d, x d < (spec.numBlocks d).toNat * (spec.numThreads d).toNat} := by
    intro e
    by_cases same : e = d
    · subst same
      rw [Function.update_self]
      have := Nat.two_pow_pos w
      omega
    · rw [Function.update_of_ne same]
      exact Nat.mul_pos (blocks e) (threads e)
  obtain ⟨worker, member, reached⟩ := numbered.grid.surjOn inside
  have largest := congrFun reached d
  beta_reduce at largest
  rw [Function.update_self] at largest
  have below := numbered.below worker member .gridThreads trivial d
  rw [largest] at below
  have machine : (spec.gpuKernel warpSize worker).getExtentsOf .gridThreads d < 2 ^ w :=
    BitVec.isLt _
  omega

/-- The number of threads of a block. -/
theorem prod_pos {extents : Vec (BitVec w) n} (positive : ∀ d, 0 < (extents d).toNat) :
    0 < ∏ d, (extents d).toNat :=
  Finset.prod_pos fun d _ => positive d

/-- The last thread of a block tells whether the number of warps is exact. -/
theorem Numbered.rounded (numbered : spec.Numbered warpSize) (launched : spec.Launched)
    (positive : 0 < warpSize) (narrow : warpSize < 2 ^ w)
    (blocks : ∀ d, 0 < (spec.numBlocks d).toNat) (threads : ∀ d, 0 < (spec.numThreads d).toNat) :
    (∏ d, (spec.numThreads d).toNat) + warpSize - 1 < 2 ^ w ∧
      ((∏ d, (spec.numThreads d).toNat) - 1) / warpSize < 2 ^ 32 := by
  have several := prod_pos threads
  obtain ⟨blockId, blockIn, -⟩ := exists_linear launched.blocks (prod_pos blocks)
  obtain ⟨threadId, threadIn, last⟩ := exists_linear launched.threads
    (show (∏ d, (spec.numThreads d).toNat) - 1 < ∏ d, (spec.numThreads d).toNat by omega)
  have member : (⟨blockId, threadId⟩ : HardwareThread) ∈ spec.workers := ⟨blockIn, threadIn⟩
  have warp : (spec.gpuKernel warpSize ⟨blockId, threadId⟩).getWarpIdx.toNat =
      ((∏ d, (spec.numThreads d).toNat) - 1) / warpSize := by
    rw [← last]
    exact congrFun (numbered.grouped _ member) (0 : Fin 1)
  have below : (spec.gpuKernel warpSize ⟨blockId, threadId⟩).getWarpIdx.toNat <
      (spec.gpuKernel warpSize ⟨blockId, threadId⟩).numWarpsInBlock.toNat :=
    numbered.below _ member .blockWarps trivial (0 : Fin 1)
  rw [warp, launched.toNat_numWarpsInBlock positive narrow] at below
  refine ⟨?_, warp ▸ BitVec.isLt _⟩
  by_contra wraps
  have wrapped : ((∏ d, (spec.numThreads d).toNat) + warpSize - 1) % 2 ^ w ≤
      (∏ d, (spec.numThreads d).toNat) - 1 := by
    rw [Nat.mod_eq_sub_mod (Nat.le_of_not_lt wraps)]
    refine (Nat.mod_le _ _).trans ?_
    omega
  have fewer : _ / warpSize ≤ _ / warpSize := Nat.div_le_div_right wrapped
  omega

/-- In a grid with too many warps, some warp has the largest number as its index. -/
theorem Numbered.warps_lt {spec : ThreadSpec 32 n} (numbered : spec.Numbered warpSize)
    (launched : spec.Launched) (positive : 0 < warpSize) (narrow : warpSize < 2 ^ 32)
    (threads : ∀ d, 0 < (spec.numThreads d).toNat)
    (rounded : (∏ d, (spec.numThreads d).toNat) + warpSize - 1 < 2 ^ 32) :
    (∏ d, (spec.numBlocks d).toNat) * divCeil (∏ d, (spec.numThreads d).toNat) warpSize <
      2 ^ 32 := by
  by_contra many
  have several := prod_pos threads
  have warp (count : ℕ) : count < divCeil (∏ d, (spec.numThreads d).toNat) warpSize ↔
      count * warpSize < ∏ d, (spec.numThreads d).toNat := Math.lt_ceil_iff positive _ count
  have warps : 0 < divCeil (∏ d, (spec.numThreads d).toNat) warpSize := by
    rw [warp, Nat.zero_mul]
    exact several
  -- the quotient and the remainder of the largest number are a block and a warp
  have quotient : (2 ^ 32 - 1) / divCeil (∏ d, (spec.numThreads d).toNat) warpSize <
      ∏ d, (spec.numBlocks d).toNat := by
    apply Nat.div_lt_of_lt_mul
    rw [Nat.mul_comm]
    omega
  have remainder := Nat.mod_lt (2 ^ 32 - 1) warps
  rw [warp] at remainder
  obtain ⟨blockId, blockIn, block⟩ := exists_linear launched.blocks quotient
  obtain ⟨threadId, threadIn, thread⟩ := exists_linear launched.threads remainder
  have member : (⟨blockId, threadId⟩ : HardwareThread) ∈ spec.workers := ⟨blockIn, threadIn⟩
  have grouped : (spec.gpuKernel warpSize ⟨blockId, threadId⟩).getWarpIdx.toNat =
      (2 ^ 32 - 1) % divCeil (∏ d, (spec.numThreads d).toNat) warpSize := by
    refine (congrFun (numbered.grouped _ member) (0 : Fin 1)).trans ?_
    unfold hardwareWarp
    rw [thread, Nat.mul_div_cancel _ positive]
  have exact : (spec.gpuKernel warpSize ⟨blockId, threadId⟩).numWarpsInBlock.toNat =
      divCeil (∏ d, (spec.numThreads d).toNat) warpSize := by
    rw [launched.toNat_numWarpsInBlock positive narrow, Nat.mod_eq_of_lt rounded]
    rfl
  have largest : (spec.gpuKernel warpSize ⟨blockId, threadId⟩).getIdxWithin .gridWarps
      (0 : Fin 1) = 2 ^ 32 - 1 := by
    rw [launched.toNat_gridWarp member, grouped, exact, block, Nat.mul_comm, Nat.div_add_mod]
    rfl
  have below := numbered.below _ member .gridWarps rfl (0 : Fin 1)
  rw [largest] at below
  have machine : (spec.gpuKernel warpSize ⟨blockId, threadId⟩).getExtentsOf .gridWarps
      (0 : Fin 1) < 2 ^ 32 := BitVec.isLt _
  omega

end Needs

/-- **Numbering workers.** For positive extents the threads of the hardware are numbered
one-to-one, every index is below its extents and warps are counted as the hardware groups
threads, if and only if nothing is lost in the launch and the extents are
representable. -/
theorem numbered_iff (positive : 0 < warpSize) (narrow : warpSize < 2 ^ w)
    (blocks : ∀ d, 0 < (spec.numBlocks d).toNat) (threads : ∀ d, 0 < (spec.numThreads d).toNat) :
    spec.Numbered warpSize ↔ spec.Exact warpSize := by
  constructor
  · intro numbered
    have launched := numbered.launched blocks threads
    have rounded := numbered.rounded launched positive narrow blocks threads
    refine ⟨launched.blocks, launched.threads, fun d => numbered.grid_lt d blocks threads,
      rounded.1, rounded.2, ?_⟩
    rintro rfl
    exact numbered.warps_lt launched positive narrow threads rounded.1
  · exact fun exact => exact.numbered positive narrow

/-- A volume of blocks and threads. -/
theorem numbered_iff_volume :
    (⟨![2, 3, 5], ![2, 4, 8]⟩ : ThreadSpec 32 2).Numbered 32 ↔
      (⟨![2, 3, 5], ![2, 4, 8]⟩ : ThreadSpec 32 2).Exact 32 :=
  numbered_iff (by decide) (by decide) (by decide) (by decide)

/-- Of a grid with four dimensions whose number of blocks wraps around, few are launched. -/
theorem numbered_wraps :
    ¬ (⟨![65537, 65536, 1, 1], ![1, 1, 1, 1]⟩ : ThreadSpec 32 3).Numbered 32 := by
  intro numbered
  have launched := (numbered.launched (by decide) (by decide)).blocks
  revert launched
  unfold LaunchExact
  decide

end ThreadSpec

end Alpaka
