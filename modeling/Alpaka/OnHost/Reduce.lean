import Alpaka.OnHost.EveryExecutor
import Alpaka.OnHost.TransformReduce

/-! # Reducing on every executor

The frames of the SIMD algorithm are cut down so that they do not keep a device too busy, the
first element of the output is filled with the neutral element, and the kernel is enqueued with
the frames. If nothing overflows, the output is the fold of the transformed elements, whatever
the device is and however the executor runs the blocks and threads that it derives
(`Alpaka.TransformReduce.transformReduce_onEveryExecutor`).
-/

namespace Alpaka.TransformReduce

open Math (Settles)
open Math.Loop (Fault)
open Math.TreeReduce (offsets)
open FrameSpec (getSimdFrameSpec)

variable {M Byte : Type} {w n k : ℕ} {A : Fin k → Type}

attribute [local instance (2000)] neZero_add_one

/-- What the number of frames depends on. -/
structure Processor where
  arch : Arch
  warpSize : ℕ
  multiProcessorCount : ℕ
  isCpu : Bool

/-- How many frames do not keep a device too busy, in the index type. -/
def Processor.limit (w : ℕ) (processor : Processor) : ℕ :=
  let multiprocessorScaling := if processor.isCpu then 1 else 32
  processor.multiProcessorCount * multiprocessorScaling % 2 ^ 32 % 2 ^ w

/-- The frames that the kernel is enqueued with. -/
def reduceFrameSpec (w : ℕ) (processor : Processor) (extentMd : Vec ℕ (n + 1)) (fuel : ℕ) :
    Except Fault (FrameSpec n) := do
  let frameSpec := getSimdFrameSpec processor.arch processor.warpSize extentMd
  let adjustedNumFrames ← adjustToLimit (processor.limit w) fuel frameSpec.numFrames
  return ⟨adjustedNumFrames, frameSpec.frameExtents⟩

/-- What `transformReduce` is called with. -/
structure Reduction (M Byte : Type) {k : ℕ} (A : Fin k → Type) (w n : ℕ) where
  sizeofValue : ℕ
  extentMd : Vec (BitVec w) (n + 1)
  neutralElement : M
  reduceFn : M → M → M
  transformFn : TransformFunc A M Byte w n
  inputs : (j : Fin k) → DataSource w (A j) Byte n

/-- What the kernel is called with. -/
def Reduction.arguments (reduction : Reduction M Byte A w n) (frameSpec : FrameSpec n) :
    Arguments M Byte A w n where
  sizeofValue := reduction.sizeofValue
  numChunks := Vec.ofNats frameSpec.numFrames
  chunkExtents := Vec.ofNats frameSpec.frameExtents
  extentMd := reduction.extentMd
  neutralElement := reduction.neutralElement
  reduceFunc := reduction.reduceFn
  transformFunc := reduction.transformFn
  inputs := reduction.inputs

/-! ## Blocks and threads in order -/

/-- The orders in which the threads that run a kernel get to it. -/
structure Launch.Orders (launch : Launch w n) (threads : List (GridThread w n)) : Prop where
  counts : ∀ acc ∈ threads, acc.block.count = launch.numBlocks ∧
    acc.thread.count = launch.numThreads
  blocks_nodup : launch.blocks.Nodup
  mem_blocks : ∀ idx, idx ∈ launch.blocks ↔ ∃ acc ∈ threads, acc.block.idx = idx
  threads_nodup : ∀ block ∈ launch.blocks, ∀ phase, (launch.threads block phase).Nodup
  mem_threads : ∀ block ∈ launch.blocks, ∀ phase idx, idx ∈ launch.threads block phase ↔
    ∃ acc ∈ threads, acc.block.idx = block ∧ acc.thread.idx = idx

private theorem foldlM_congr {α β : Type} {body other : β → α → Except Fault β} {listed : List α}
    (same : ∀ x ∈ listed, ∀ value, body value x = other value x) (value : β) :
    listed.foldlM body value = listed.foldlM other value := by
  induction listed generalizing value with
  | nil => rfl
  | cons x listed ih =>
      rw [List.foldlM_cons, List.foldlM_cons, same x List.mem_cons_self]
      exact bind_congr fun next => ih (fun y member => same y (List.mem_cons_of_mem _ member)) next

/-- The kernel only depends on the threads of its blocks. -/
theorem simdTransformReduceKernel_congr (device : Device) (args : Arguments M Byte A w n)
    {numBlocks numThreads : Vec (BitVec w) (n + 1)} {blocks : List (Vec (BitVec w) (n + 1))}
    {threads other : Vec (BitVec w) (n + 1) → ℕ → List (Vec (BitVec w) (n + 1))}
    (same : ∀ block ∈ blocks, threads block = other block) (memory : ℕ → Byte)
    (scratch : Vec (BitVec w) (n + 1) → ℕ → M) (fuel : ℕ) (output : M) :
    simdTransformReduceKernel device ⟨numBlocks, numThreads, blocks, threads⟩ args memory scratch
        fuel output =
      simdTransformReduceKernel device ⟨numBlocks, numThreads, blocks, other⟩ args memory scratch
        fuel output := by
  refine foldlM_congr (fun block listed output => ?_) output
  -- a block sees no more of the launch than its own threads
  let body (launch : Launch w n) : Except Fault M := do
    let dynS ← reduceBlock device launch args memory block fuel (scratch block)
    let levels := offsets (blockSize launch / 2)
    return ((launch.threads block (2 + levels.dropLast.length)).foldl
      (updateOutput launch args (levels.getLastD 0)) (dynS, output)).2
  change body ⟨numBlocks, numThreads, blocks, fun _ => threads block⟩ =
    body ⟨numBlocks, numThreads, blocks, fun _ => other block⟩
  rw [same block listed]

/-- A list of all indices below the extents. -/
private noncomputable def listed (extents : Vec (BitVec w) (n + 1)) :
    List (Vec (BitVec w) (n + 1)) :=
  (Math.box extents.toNats).toList.map Vec.ofNats

private theorem nodup_listed (extents : Vec (BitVec w) (n + 1)) : (listed extents).Nodup := by
  refine (Finset.nodup_toList _).map_on fun first member second member' same => ?_
  have exact {idx : Vec ℕ (n + 1)} (member : idx ∈ (Math.box extents.toNats).toList) :
      (Vec.ofNats idx : Vec (BitVec w) (n + 1)).toNats = idx :=
    Vec.toNats_ofNats fun d =>
      (Math.mem_box.mp (Finset.mem_toList.mp member) d).trans (extents d).isLt
  rw [← exact member, same, exact member']

private theorem mem_listed {extents idx : Vec (BitVec w) (n + 1)} :
    idx ∈ listed extents ↔ idx ∈ box extents := by
  unfold listed
  rw [List.mem_map]
  constructor
  · rintro ⟨exact, member, rfl⟩
    obtain ⟨words, inside, rfl⟩ := (toNats_box extents).surjOn
      (Math.mem_box.mp (Finset.mem_toList.mp member))
    rwa [Vec.ofNats_toNats]
  · intro inside
    exact ⟨idx.toNats, Finset.mem_toList.mpr (Math.mem_box.mpr ((toNats_box extents).mapsTo
      inside)), Vec.ofNats_toNats idx⟩

/-- With all threads of a specification, a kernel that follows their orders does what it does
in a proper launch. -/
theorem Launch.Orders.proper {spec : ThreadSpec w n} {threads : List (GridThread w n)}
    (all : AllThreads spec threads) (blocks_pos : ∀ d, 0 < spec.numBlocks d)
    (threads_pos : ∀ d, 0 < spec.numThreads d) {launch : Launch w n}
    (orders : launch.Orders threads) : ∃ proper : Launch w n, proper.Proper ∧
      proper.numBlocks = spec.numBlocks ∧ proper.numThreads = spec.numThreads ∧
      ∀ (device : Device) (args : Arguments M Byte A w n) (memory : ℕ → Byte)
        (scratch : Vec (BitVec w) (n + 1) → ℕ → M) (fuel : ℕ) (output : M),
          simdTransformReduceKernel device launch args memory scratch fuel output =
            simdTransformReduceKernel device proper args memory scratch fuel output := by
  classical
  have pairs := all.pairs
  have first : ∃ acc, acc ∈ threads := by
    obtain ⟨acc, member, -⟩ := pairs.surjOn (show ((Vec.fill 0, Vec.fill 0) :
      Vec (BitVec w) (n + 1) × Vec (BitVec w) (n + 1)) ∈ _ from ⟨blocks_pos, threads_pos⟩)
    exact ⟨acc, member⟩
  obtain ⟨acc, member⟩ := first
  obtain ⟨numBlocks, numThreads, blocks, order⟩ := launch
  obtain ⟨blocks', places', -⟩ := (all.mem_iff acc).mp member
  obtain ⟨counts, counts'⟩ := orders.counts acc member
  obtain rfl : spec.numBlocks = numBlocks := blocks' ▸ counts
  obtain rfl : spec.numThreads = numThreads := places' ▸ counts'
  have mem_blocks (idx : Vec (BitVec w) (n + 1)) : idx ∈ blocks ↔ idx ∈ box spec.numBlocks := by
    rw [orders.mem_blocks idx]
    constructor
    · rintro ⟨acc, listed, rfl⟩
      exact (pairs.mapsTo listed).1
    · intro inside
      obtain ⟨acc, listed, same⟩ := pairs.surjOn (show (idx, Vec.fill 0) ∈ _ from
        ⟨inside, threads_pos⟩)
      exact ⟨acc, listed, congrArg Prod.fst same⟩
  have mem_threads (block : Vec (BitVec w) (n + 1)) (inGrid : block ∈ blocks) (phase : ℕ)
      (idx : Vec (BitVec w) (n + 1)) : idx ∈ order block phase ↔ idx ∈ box spec.numThreads := by
    rw [orders.mem_threads block inGrid phase idx]
    constructor
    · rintro ⟨acc, listed, -, rfl⟩
      exact (pairs.mapsTo listed).2
    · intro inside
      obtain ⟨acc, listed, same⟩ := pairs.surjOn (show (block, idx) ∈ _ from
        ⟨(mem_blocks block).mp inGrid, inside⟩)
      exact ⟨acc, listed, congrArg Prod.fst same, congrArg Prod.snd same⟩
  refine ⟨⟨spec.numBlocks, spec.numThreads, blocks, fun block phase =>
    if block ∈ blocks then order block phase else listed spec.numThreads⟩,
    ⟨blocks_pos, threads_pos, orders.blocks_nodup, mem_blocks, fun block phase => ?_,
      fun block phase idx => ?_⟩, rfl, rfl, fun device args memory scratch fuel output => ?_⟩
  · dsimp only
    split
    · exact orders.threads_nodup block ‹_› phase
    · exact nodup_listed _
  · dsimp only
    split
    · exact mem_threads block ‹_› phase idx
    · exact mem_listed
  · refine simdTransformReduceKernel_congr device args (fun block inGrid => ?_) memory scratch fuel
      output
    funext phase
    exact (if_pos inGrid).symm

/-- The threads that run a kernel get to it in some orders. -/
theorem exists_orders {spec : ThreadSpec w n} {threads : List (GridThread w n)}
    (all : AllThreads spec threads) : ∃ launch : Launch w n, launch.Orders threads := by
  classical
  refine ⟨⟨spec.numBlocks, spec.numThreads, (threads.map fun acc => acc.block.idx).dedup,
    fun block _ => ((threads.filter fun acc => acc.block.idx = block).map fun acc =>
      acc.thread.idx).dedup⟩, fun acc member => ?_, List.nodup_dedup _, fun idx => ?_,
      fun _ _ _ => List.nodup_dedup _, fun block _ _ idx => ?_⟩
  · obtain ⟨blocks, places, -⟩ := (all.mem_iff acc).mp member
    exact ⟨blocks, places⟩
  · rw [List.mem_dedup, List.mem_map]
  · rw [List.mem_dedup, List.mem_map]
    simp only [List.mem_filter, decide_eq_true_eq, and_assoc]

/-! ## The algorithm -/

/-- The frames that are left can be launched by every executor. -/
theorem reduceFrameSpec_settles {processor : Processor} (warp : 0 < processor.warpSize)
    (busy : 0 < processor.limit w) {extentMd : Vec ℕ (n + 1)} (positive : ∀ d, 0 < extentMd d)
    (representable : ∏ d, extentMd d < 2 ^ w) {exec : Executor} (limited : exec.Limited w) :
    ∃ frameSpec, Settles (reduceFrameSpec w processor extentMd) frameSpec ∧
      frameSpec.frameExtents =
        (getSimdFrameSpec processor.arch processor.warpSize extentMd).frameExtents ∧
      frameSpec.Launchable w exec := by
  have index : processor.limit w < 2 ^ w := Nat.mod_lt _ (Nat.two_pow_pos w)
  have narrow : processor.limit w < 2 ^ 32 :=
    (Nat.mod_le _ _).trans_lt (Nat.mod_lt _ (Nat.two_pow_pos 32))
  obtain ⟨numFrames, settles, shrunk, within⟩ := adjustToLimit_settles
    (getSimdFrameSpec processor.arch processor.warpSize extentMd).numFrames (processor.limit w)
    (fun _ => divExZero_pos _ _) busy
  obtain ⟨-, exact⟩ := FrameSpec.Launchable.launchExact_of_le shrunk.one_le within narrow index
  refine ⟨_, settles.bind (Settles.pure _), rfl, shrunk.one_le,
    (FrameSpec.fits_getFrameSpec warp positive).pos, fun d => ?_, ?_⟩
  · have component : extentMd d ≤ ∏ e, extentMd e :=
      Finset.single_le_prod' (fun e _ => positive e) (Finset.mem_univ d)
    exact (Nat.mul_le_mul_right _ (shrunk.le d)).trans_lt
      ((getSimdFrameSpec_le processor.arch warp positive d).trans_lt
        (component.trans_lt representable))
  · rw [Vec.product_eq_prod] at within
    refine ⟨limited, ?_⟩
    cases exec with
    | cpuSerial => trivial
    | cpuOmpBlocks | cpuTbbBlocks => exact within.trans_lt index
    | gpu maxThreadsPerBlock => exact exact

/-- Blocks that are derived from frames of powers of two. -/
private theorem shape_of_adjusted (reduction : Reduction M Byte A w n) {frameSpec : FrameSpec n}
    {exec : Executor} (launchable : frameSpec.Launchable w exec) {spec : ThreadSpec w n}
    (adjusted : Adjusted frameSpec exec spec)
    (powers : ∀ d, ∃ bits, frameSpec.frameExtents d = 2 ^ bits) {launch : Launch w n}
    (numThreads : launch.numThreads = spec.numThreads) :
    Shape launch (reduction.arguments frameSpec) := by
  have frame : (reduction.arguments frameSpec).chunkExtents.toNats = frameSpec.frameExtents :=
    Vec.toNats_ofNats launchable.frameExtents_lt
  refine ⟨fun d => ?_, fun d => ?_, fun d => ?_⟩
  · rw [frame]
    exact powers d
  · rw [numThreads]
    exact adjusted.pow d (powers d)
  · rw [numThreads, frame]
    exact adjusted.threads_le d

/-- **Reducing on every executor.** If nothing overflows, the output is the fold of the transformed
elements, each taken once, whatever the frames, the executor, the blocks and threads that it
derives, and the orders in which these run. -/
theorem transformReduce_onEveryExecutor (device : Device) (reduction : Reduction M Byte A w n)
    [Std.Commutative reduction.reduceFn] [Std.Associative reduction.reduceFn]
    (neutral : ∀ x, reduction.reduceFn reduction.neutralElement x = x)
    {f : ((j : Fin k) → A j) → M} (applies : TransformFunc.Applies f reduction.transformFn)
    (perFnCall : 0 < device.reduction.numSimdPerFnCall) (size : 0 < reduction.sizeofValue)
    (positive : ∀ d, 0 < reduction.extentMd d)
    (representable : ∏ d, reduction.extentMd.toNats d < 2 ^ w)
    {processor : Processor} (warp : 0 < processor.warpSize) (busy : 0 < processor.limit w)
    {exec : Executor} (limited : exec.Limited w)
    (fits : ∀ frameSpec, Settles (reduceFrameSpec w processor reduction.extentMd.toNats) frameSpec →
      ∀ spec, Settles (adjustThreadSpec w exec frameSpec) spec →
        KernelFits device spec.numBlocks (reduction.arguments frameSpec)) :
    ∃ frameSpec, Settles (reduceFrameSpec w processor reduction.extentMd.toNats) frameSpec ∧
    ∃ spec, Settles (adjustThreadSpec w exec frameSpec) spec ∧
      (∃ threads, exec.Runs spec threads ∧ ∃ launch : Launch w n, launch.Orders threads) ∧
      ∀ threads, exec.Runs spec threads → ∀ launch : Launch w n, launch.Orders threads →
        ∀ memory scratch, Settles (fun fuel => simdTransformReduceKernel device launch
            (reduction.arguments frameSpec) memory scratch fuel reduction.neutralElement)
          ((Math.box reduction.extentMd.toNats).fold reduction.reduceFn reduction.neutralElement
            fun idx => f fun j => (reduction.inputs j).get memory idx) := by
  have exactPositive := toNats_positive positive
  obtain ⟨frameSpec, frames, extents, launchable⟩ :=
    reduceFrameSpec_settles warp busy exactPositive representable limited
  obtain ⟨spec, settles, adjusted, ⟨started, runs⟩, everyRun⟩ := launchable.enqueues
  refine ⟨frameSpec, frames, spec, settles, ⟨started, runs, exists_orders (everyRun _ runs)⟩,
    fun threads runs launch orders memory scratch => ?_⟩
  have word {number : BitVec w} (some : 0 < number.toNat) : 0 < number :=
    BitVec.lt_def.mpr ((Nat.zero_mod _).trans_lt some)
  obtain ⟨proper, isProper, numBlocks, numThreads, same⟩ := orders.proper (everyRun threads runs)
    (fun d => word (adjusted.blocks_pos d)) fun d => word (adjusted.threads_pos d)
  have powers (d : Fin (n + 1)) : ∃ bits, frameSpec.frameExtents d = 2 ^ bits := by
    rw [extents]
    exact (FrameSpec.fits_getFrameSpec warp exactPositive).pow d
  have fold : Settles (fun fuel => simdTransformReduceKernel device proper
      (reduction.arguments frameSpec) memory scratch fuel reduction.neutralElement)
      (reduction.reduceFn reduction.neutralElement ((Math.box reduction.extentMd.toNats).fold
        reduction.reduceFn reduction.neutralElement
          fun idx => f fun j => (reduction.inputs j).get memory idx)) := by
    have commutes : Std.Commutative (reduction.arguments frameSpec).reduceFunc :=
      inferInstanceAs (Std.Commutative reduction.reduceFn)
    have associates : Std.Associative (reduction.arguments frameSpec).reduceFunc :=
      inferInstanceAs (Std.Associative reduction.reduceFn)
    have shape := shape_of_adjusted reduction launchable adjusted powers numThreads
    exact kernel_folds neutral applies perFnCall size shape isProper
      (numBlocks.symm ▸ fits frameSpec frames spec settles) memory
      scratch reduction.neutralElement
  rw [neutral] at fold
  rw [funext fun fuel => same device (reduction.arguments frameSpec) memory scratch fuel
    reduction.neutralElement]
  exact fold

/-- Two rows of three bytes, of which ten times the sum is wanted. -/
private def sumOfRows : Reduction ℕ ℕ (fun _ : Fin 1 => ℕ) 32 1 where
  sizeofValue := 8
  extentMd := ![2, 3]
  neutralElement := 0
  reduceFn := (· + ·)
  transformFn := .scalarFunc fun x => 10 * x ⟨0, Nat.one_pos⟩
  inputs := fun _ => .mdSpan ⟨100, 1, ![2, 3], ![4]⟩ fun bytes => bytes ⟨0, Nat.one_pos⟩

private instance : Std.Commutative sumOfRows.reduceFn := ⟨Nat.add_comm⟩

private instance : Std.Associative sumOfRows.reduceFn := ⟨Nat.add_assoc⟩

private theorem twoLanes_positive : 0 < 8 := by decide

private theorem twoLanes_narrow : 16 ≤ 256 ∨ 16 = 8 := by decide

/-- A processor with vectors of two elements. -/
private def twoLanes : Processor :=
  ⟨⟨8, 16, 1, 64, twoLanes_positive, twoLanes_narrow⟩, 1, 4, false⟩

/-- Packs of two elements, and flat loops. -/
private def twoLanesDevice : Device :=
  ⟨⟨.flat, .strided⟩, ⟨false, true, 1, 1, .flat, .contiguous⟩⟩

/-- The device has less to do than would keep it busy. -/
private theorem sumOfRows_frames : Settles (reduceFrameSpec 32 twoLanes ![2, 3])
    ⟨![1, 1], ![2, 2]⟩ := by
  have frame : (FrameSpec.getFrameSpec 1 ![2, 3]).frameExtents = ![2, 2] := by
    unfold FrameSpec.getFrameSpec
    decide +kernel
  have frames : (fun d => divExZero (![2, 3] d) (![2, 2] d *
      (Vec.fill 1 : Vec ℕ 2).rAssign (getNumElemPerThread twoLanes.arch) d)) = ![1, 1] := by decide
  have derived : getSimdFrameSpec twoLanes.arch twoLanes.warpSize ![2, 3] =
      ⟨![1, 1], ![2, 2]⟩ := by
    unfold getSimdFrameSpec
    rw [show twoLanes.warpSize = 1 from rfl, frame]
    exact congrArg (FrameSpec.mk · ![2, 2]) frames
  have idle : Settles (fun fuel => adjustToLimit 128 fuel ![1, 1]) ![1, 1] :=
    Math.While.settles_of_done (by decide)
  unfold reduceFrameSpec
  rw [derived]
  exact idle.bind (Settles.pure _)

/-- Nothing overflows in one block. -/
private theorem sumOfRows_fits : KernelFits twoLanesDevice (Vec.ofNats ![1, 1])
    (sumOfRows.arguments ⟨![1, 1], ![2, 2]⟩) := by
  have chunks : (sumOfRows.arguments ⟨![1, 1], ![2, 2]⟩).chunkExtents = ![2, 2] := by decide
  have data : (sumOfRows.arguments ⟨![1, 1], ![2, 2]⟩).chunkDataExtent = ![2, 2] := by decide
  refine ⟨⟨?_, ?_, ?_, ?_⟩, ⟨?_, ?_⟩, ?_⟩
  · rw [data]
    decide
  · rw [chunks]
    decide
  · rw [chunks]
    decide
  · rw [data, chunks]
    exact .inr (by decide)
  · rw [data, ConcurrentFits, if_pos (by decide)]
    refine ⟨by decide, by decide, ?_, by decide, .inr (by decide)⟩
    rw [PacksFit, if_pos (by decide)]
    exact ⟨by decide, .inr (by decide)⟩
  · rw [data]
    decide
  · rintro - idx ⟨inside, -⟩
    have last : Math.Strides.offset (Vec.toNats (![4, 1] : Vec (BitVec 32) 2)) ![1, 2] <
        2 ^ 32 := by decide
    refine .inr ((Math.Strides.offset_mono _ fun d => ?_).trans_lt last)
    have below : ∀ d, Vec.toNats (![2, 3] : Vec (BitVec 32) 2) d = (![1, 2] : Fin 2 → ℕ) d + 1 := by
      decide
    exact Nat.le_of_lt_succ ((inside d).trans_eq (below d))

theorem transformReduce_onEveryExecutor_sumOfRows :
    ∃ frameSpec, Settles (reduceFrameSpec 32 twoLanes
      (Vec.toNats (![2, 3] : Vec (BitVec 32) 2))) frameSpec ∧
    ∃ spec, Settles (adjustThreadSpec 32 (.gpu 2) frameSpec) spec ∧
      (∃ threads, (Executor.gpu 2).Runs spec threads ∧
        ∃ launch : Launch 32 1, launch.Orders threads) ∧
      ∀ threads, (Executor.gpu 2).Runs spec threads → ∀ launch : Launch 32 1,
        launch.Orders threads → ∀ memory scratch, Settles (fun fuel =>
            simdTransformReduceKernel twoLanesDevice launch (sumOfRows.arguments frameSpec) memory
              scratch fuel 0)
          ((Math.box (Vec.toNats (![2, 3] : Vec (BitVec 32) 2))).fold sumOfRows.reduceFn 0
            fun idx => 10 * (sumOfRows.inputs 0).get memory idx) := by
  have extents : Vec.toNats (![2, 3] : Vec (BitVec 32) 2) = ![2, 3] := by decide
  refine transformReduce_onEveryExecutor twoLanesDevice sumOfRows Nat.zero_add .scalarFunc
    Nat.one_pos (show 0 < 8 from twoLanes_positive)
    (show ∀ d, 0 < (![2, 3] : Vec (BitVec 32) 2) d by decide)
    (show ∏ d, Vec.toNats (![2, 3] : Vec (BitVec 32) 2) d < 2 ^ 32 by decide)
    (show 0 < 1 from Nat.one_pos) (show 0 < twoLanes.limit 32 by decide)
    ⟨by decide, by decide, by decide⟩ fun frameSpec frames spec settles => ?_
  change Settles (reduceFrameSpec 32 twoLanes (Vec.toNats (![2, 3] : Vec (BitVec 32) 2))) _
    at frames
  rw [extents] at frames
  obtain rfl := frames.unique sumOfRows_frames
  have halved : halveLargest 2 ![2, 2] = ![1, 2] := by decide
  have cut : Settles (fun fuel => adjustToLimit 2 fuel ![2, 2]) ![1, 2] := by
    refine (Math.While.settles_step_iff (by decide)).mpr ?_
    rw [halved]
    exact Math.While.settles_of_done (by decide)
  have derived : Settles (adjustThreadSpec 32 (.gpu 2) ⟨![1, 1], ![2, 2]⟩)
      (⟨Vec.ofNats ![1, 1], Vec.ofNats ![1, 2]⟩ : ThreadSpec 32 1) := cut.bind (Settles.pure _)
  rw [settles.unique derived]
  exact sumOfRows_fits

end Alpaka.TransformReduce
