import Alpaka.Api.AdjustToLimit
import Alpaka.Host.Executors
import Alpaka.Mem.RangeWidth
import Alpaka.OnAcc.IdxWithin
import Alpaka.OnAcc.Phases
import Alpaka.OnHost.FrameSpec

/-! # From frames to threads

A kernel is enqueued with frames, and every executor derives blocks and threads from them in
its own way: a single thread, a thread for every frame, or as many threads for a frame as a
block of the hardware can have. The executor accepts what is derived for it and runs the kernel
in each thread of each block once (`Alpaka.FrameSpec.Launchable.enqueues`).
-/

namespace Alpaka

open Math (Settles Partitions)
open Math.Loop (Fault)

variable {w n : ℕ}

attribute [local instance (2000)] neZero_add_one

/-- The executors. Graphics processors have a limit on the threads of a block. -/
inductive Executor
  | cpuSerial
  | cpuOmpBlocks
  | cpuTbbBlocks
  | gpu (maxThreadsPerBlock : ℕ)

/-- The specification of blocks and threads that is derived from frames, in the index type. -/
def adjustThreadSpec (w : ℕ) (exec : Executor) (frameSpec : FrameSpec n) (fuel : ℕ) :
    Except Fault (ThreadSpec w n) :=
  match exec with
  | .cpuSerial => return ⟨Vec.fill 1, Vec.fill 1⟩
  | .cpuOmpBlocks | .cpuTbbBlocks => return ⟨Vec.ofNats frameSpec.numFrames, Vec.fill 1⟩
  | .gpu maxThreadsPerBlock => do
      let result ← adjustToLimit maxThreadsPerBlock fuel frameSpec.frameExtents
      return ⟨Vec.ofNats frameSpec.numFrames, Vec.ofNats result⟩

/-- A layer of the hierarchy of threads. -/
@[ext]
structure Layer (w n : ℕ) where
  idx : Vec (BitVec w) (n + 1)
  count : Vec (BitVec w) (n + 1)

/-- What a thread of a kernel knows about itself. -/
@[ext]
structure GridThread (w n : ℕ) where
  block : Layer w n
  thread : Layer w n

namespace GridThread

variable (acc : GridThread w n)

/-! The worker groups. -/

def threadsInGrid : ThreadSpace (BitVec w) (n + 1) :=
  ⟨fun d => acc.thread.count d * acc.block.idx d + acc.thread.idx d,
    fun d => acc.block.count d * acc.thread.count d⟩

end GridThread

/-- The only thread of a block of the host. -/
def hostThread (numBlocks blockIdx : Vec (BitVec w) (n + 1)) : GridThread w n :=
  ⟨⟨blockIdx, numBlocks⟩, ⟨Vec.fill 0, Vec.fill 1⟩⟩

/-- A thread of the hardware. -/
def ThreadSpec.gpuThread (spec : ThreadSpec w n) (warpSize : ℕ) (worker : HardwareThread) :
    GridThread w n :=
  let acc := spec.gpuKernel warpSize worker
  ⟨⟨acc.blockLayerIdx, acc.blockLayerCount⟩, ⟨acc.threadLayerIdx, acc.threadLayerCount⟩⟩

/-- The block indices for which the TBB executor runs the kernel, in the order of a parallel
loop. -/
def SingleThreadSpec.tbbCalls (spec : SingleThreadSpec w n) (order : List (BitVec w)) :
    List (Vec (BitVec w) (n + 1)) :=
  order.map (mapToND spec.numBlocks)

/-- The threads that run a kernel, in the order of their starts. The executors of the host
check that blocks have a single thread. -/
inductive Executor.Runs : Executor → ThreadSpec w n → List (GridThread w n) → Prop
  | cpuSerial {spec : ThreadSpec w n} {single : SingleThreadSpec w n}
      (made : SingleThreadSpec.make spec.numBlocks spec.numThreads = .ok single) :
      Runs .cpuSerial spec (single.serialCalls.map (hostThread single.numBlocks))
  | cpuOmpBlocks {spec : ThreadSpec w n} {single : SingleThreadSpec w n}
      (made : SingleThreadSpec.make spec.numBlocks spec.numThreads = .ok single) (team : ℕ)
      (share : ℕ → List (BitVec w))
      (shared : Partitions {thread | thread < team} share single.iterations)
      {threads : List (GridThread w n)} (order : threads.Perm ((List.range team).flatMap
        fun thread => (single.ompCalls (share thread)).map (hostThread single.numBlocks))) :
      Runs .cpuOmpBlocks spec threads
  | cpuTbbBlocks {spec : ThreadSpec w n} {single : SingleThreadSpec w n}
      (made : SingleThreadSpec.make spec.numBlocks spec.numThreads = .ok single)
      (order : List (BitVec w)) (once : order.Nodup)
      (all : ∀ i, i ∈ order ↔ i ∈ single.iterations) :
      Runs .cpuTbbBlocks spec ((single.tbbCalls order).map (hostThread single.numBlocks))
  | gpu {spec : ThreadSpec w n} {maxThreadsPerBlock : ℕ} (warpSize : ℕ)
      (workers : List HardwareThread) (once : workers.Nodup)
      (all : ∀ worker, worker ∈ workers ↔ worker ∈ spec.workers) :
      Runs (.gpu maxThreadsPerBlock) spec (workers.map (spec.gpuThread warpSize))

/-! ## Deriving blocks and threads -/

/-- The limit of a graphics processor is a number of the hardware and of the index type. -/
def Executor.Limited (w : ℕ) : Executor → Prop
  | .gpu maxThreadsPerBlock => 0 < maxThreadsPerBlock ∧ maxThreadsPerBlock < 2 ^ 32 ∧
      maxThreadsPerBlock < 2 ^ w
  | _ => True

/-- What an executor needs of the frames. -/
def Executor.Accepts (w : ℕ) (frameSpec : FrameSpec n) (exec : Executor) : Prop :=
  exec.Limited w ∧ match exec with
    | .cpuSerial => True
    | .cpuOmpBlocks | .cpuTbbBlocks => ∏ d, frameSpec.numFrames d < 2 ^ w
    | .gpu _ => LaunchExact (Vec.ofNats frameSpec.numFrames : Vec (BitVec w) (n + 1))

/-- There are frames, and the grid that they make up has indices in the index type. -/
structure FrameSpec.Launchable (w : ℕ) (frameSpec : FrameSpec n) (exec : Executor) : Prop where
  frames : ∀ d, 0 < frameSpec.numFrames d
  extents : ∀ d, 0 < frameSpec.frameExtents d
  representable : ∀ d, frameSpec.numFrames d * frameSpec.frameExtents d < 2 ^ w
  accepts : exec.Accepts w frameSpec

/-- What an executor can start. -/
def Executor.Starts (spec : ThreadSpec w n) : Executor → Prop
  | .cpuSerial => spec.numThreads = Vec.fill 1
  | .cpuOmpBlocks | .cpuTbbBlocks =>
      spec.numThreads = Vec.fill 1 ∧ ∏ d, (spec.numBlocks d).toNat < 2 ^ w
  | .gpu _ => spec.Launched

/-- What is derived from frames. -/
structure Adjusted (frameSpec : FrameSpec n) (exec : Executor) (spec : ThreadSpec w n) :
    Prop where
  blocks_pos : ∀ d, 0 < (spec.numBlocks d).toNat
  threads_pos : ∀ d, 0 < (spec.numThreads d).toNat
  blocks_le : ∀ d, (spec.numBlocks d).toNat ≤ frameSpec.numFrames d
  threads_le : ∀ d, (spec.numThreads d).toNat ≤ frameSpec.frameExtents d
  pow : ∀ d, (∃ bits, frameSpec.frameExtents d = 2 ^ bits) →
    ∃ bits, (spec.numThreads d).toNat = 2 ^ bits
  starts : exec.Starts spec

namespace FrameSpec.Launchable

variable {frameSpec : FrameSpec n} {exec : Executor}

private theorem numFrames_lt (launchable : frameSpec.Launchable w exec) (d : Fin (n + 1)) :
    frameSpec.numFrames d < 2 ^ w :=
  (Nat.le_mul_of_pos_right _ (launchable.extents d)).trans_lt (launchable.representable d)

theorem frameExtents_lt (launchable : frameSpec.Launchable w exec) (d : Fin (n + 1)) :
    frameSpec.frameExtents d < 2 ^ w :=
  (Nat.le_mul_of_pos_left _ (launchable.frames d)).trans_lt (launchable.representable d)

/-- The index type has a one. -/
theorem toNat_one (launchable : frameSpec.Launchable w exec) : (1 : BitVec w).toNat = 1 := by
  have single : 1 < 2 ^ w :=
    lt_of_le_of_lt (Nat.mul_pos (launchable.frames 0) (launchable.extents 0))
      (launchable.representable 0)
  rw [← Nat.cast_one, toNat_cast, Nat.mod_eq_of_lt single]

private theorem toNats_numFrames (launchable : frameSpec.Launchable w exec) :
    (Vec.ofNats frameSpec.numFrames : Vec (BitVec w) (n + 1)).toNats = frameSpec.numFrames :=
  Vec.toNats_ofNats launchable.numFrames_lt

/-- Blocks of one thread are derived. -/
private theorem adjusted_single (launchable : frameSpec.Launchable w exec)
    {numBlocks : Vec (BitVec w) (n + 1)} (positive : ∀ d, 0 < (numBlocks d).toNat)
    (few : ∀ d, (numBlocks d).toNat ≤ frameSpec.numFrames d)
    (starts : exec.Starts ⟨numBlocks, Vec.fill 1⟩) :
    Adjusted frameSpec exec (⟨numBlocks, Vec.fill 1⟩ : ThreadSpec w n) where
  blocks_pos := positive
  threads_pos := fun _ => Nat.one_pos.trans_eq launchable.toNat_one.symm
  blocks_le := few
  threads_le := fun d => launchable.toNat_one.trans_le (launchable.extents d)
  pow := fun _ _ => ⟨0, launchable.toNat_one⟩
  starts := starts

/-- A block of the hardware within the limit. -/
theorem launchExact_of_le {result : Vec ℕ (n + 1)} {limit : ℕ}
    (one_le : ∀ d, 1 ≤ result d) (within : Vec.product result ≤ limit) (narrow : limit < 2 ^ 32)
    (index : limit < 2 ^ w) :
    (Vec.ofNats result : Vec (BitVec w) (n + 1)).toNats = result ∧
      LaunchExact (Vec.ofNats result : Vec (BitVec w) (n + 1)) := by
  rw [Vec.product_eq_prod] at within
  have component (d : Fin (n + 1)) : result d ≤ limit :=
    (Finset.single_le_prod' (fun e _ => one_le e) (Finset.mem_univ d)).trans within
  have kept : (Vec.ofNats result : Vec (BitVec w) (n + 1)).toNats = result :=
    Vec.toNats_ofNats fun d => (component d).trans_lt index
  have same (d : Fin (n + 1)) :
      ((Vec.ofNats result : Vec (BitVec w) (n + 1)) d).toNat = result d := congrFun kept d
  refine ⟨kept, ?_⟩
  unfold LaunchExact
  simp only [same]
  split
  · exact fun d => (component d).trans_lt narrow
  · exact ⟨within.trans_lt index, within.trans_lt narrow⟩

/-- Every executor derives blocks and threads. -/
theorem adjustThreadSpec_settles (launchable : frameSpec.Launchable w exec) :
    ∃ spec, Settles (adjustThreadSpec w exec frameSpec) spec ∧ Adjusted frameSpec exec spec := by
  have one := launchable.toNat_one
  have frames (d : Fin (n + 1)) :
      ((Vec.ofNats frameSpec.numFrames : Vec (BitVec w) (n + 1)) d).toNat =
        frameSpec.numFrames d := congrFun launchable.toNats_numFrames d
  have accepts := launchable.accepts
  cases exec with
  | cpuSerial =>
      refine ⟨_, Settles.pure _, launchable.adjusted_single (fun _ => ?_) (fun d => ?_) rfl⟩
      · exact Nat.one_pos.trans_eq one.symm
      · exact one.trans_le (launchable.frames d)
  | cpuOmpBlocks | cpuTbbBlocks =>
      refine ⟨_, Settles.pure _, launchable.adjusted_single (fun d => ?_) (fun d => (frames d).le)
        ⟨rfl, ?_⟩⟩
      · exact (launchable.frames d).trans_eq (frames d).symm
      · simp only [frames]
        exact accepts.2
  | gpu maxThreadsPerBlock =>
      obtain ⟨⟨limited, narrow, index⟩, exact⟩ := accepts
      obtain ⟨result, settles, shrunk, within⟩ := adjustToLimit_settles frameSpec.frameExtents
        maxThreadsPerBlock launchable.extents limited
      obtain ⟨kept, threads⟩ := launchExact_of_le shrunk.one_le within narrow index
      have same (d : Fin (n + 1)) :
          ((Vec.ofNats result : Vec (BitVec w) (n + 1)) d).toNat = result d := congrFun kept d
      refine ⟨_, settles.bind (Settles.pure _), fun d => ?_, fun d => ?_, fun d => (frames d).le,
        fun d => ?_, fun d power => ?_, ⟨exact, threads⟩⟩
      · exact (launchable.frames d).trans_eq (frames d).symm
      · exact (shrunk.one_le d).trans_eq (same d).symm
      · exact (same d).trans_le (shrunk.le d)
      · obtain ⟨bits, power⟩ := shrunk.pow d power
        exact ⟨bits, (same d).trans power⟩

end FrameSpec.Launchable

/-! ## The threads that run -/

/-- Every thread of every block, and each of them once. -/
structure AllThreads (spec : ThreadSpec w n) (threads : List (GridThread w n)) : Prop where
  once : threads.Nodup
  mem_iff : ∀ acc, acc ∈ threads ↔ acc.block.count = spec.numBlocks ∧
    acc.thread.count = spec.numThreads ∧ acc.block.idx ∈ box spec.numBlocks ∧
    acc.thread.idx ∈ box spec.numThreads

theorem AllThreads.perm {spec : ThreadSpec w n} {threads others : List (GridThread w n)}
    (all : AllThreads spec threads) (order : others.Perm threads) : AllThreads spec others where
  once := order.nodup_iff.mpr all.once
  mem_iff := fun acc => order.mem_iff.trans (all.mem_iff acc)

/-- Threads by their block and by their place in it. -/
theorem AllThreads.pairs {spec : ThreadSpec w n} {threads : List (GridThread w n)}
    (all : AllThreads spec threads) :
    Set.BijOn (fun acc : GridThread w n => (acc.block.idx, acc.thread.idx))
      {acc | acc ∈ threads} (box spec.numBlocks ×ˢ box spec.numThreads) := by
  refine ⟨fun acc listed => ?_, fun first firstIn second secondIn same => ?_,
    fun ⟨block, thread⟩ member => ?_⟩
  · obtain ⟨-, -, block, thread⟩ := (all.mem_iff acc).mp listed
    exact ⟨block, thread⟩
  · obtain ⟨block, thread⟩ := Prod.ext_iff.mp same
    obtain ⟨blocks, places, -⟩ := (all.mem_iff first).mp firstIn
    obtain ⟨blocks', places', -⟩ := (all.mem_iff second).mp secondIn
    exact GridThread.ext (Layer.ext block (blocks.trans blocks'.symm))
      (Layer.ext thread (places.trans places'.symm))
  · exact ⟨⟨⟨block, spec.numBlocks⟩, ⟨thread, spec.numThreads⟩⟩,
      (all.mem_iff _).mpr ⟨rfl, rfl, member.1, member.2⟩, rfl⟩

/-- Threads by the numbers of both. -/
theorem AllThreads.ids {spec : ThreadSpec w n} {threads : List (GridThread w n)}
    (all : AllThreads spec threads) :
    Set.BijOn (fun acc : GridThread w n => (acc.block.idx.toNats, acc.thread.idx.toNats))
      {acc | acc ∈ threads}
      (threadIdxs spec.numBlocks.toNats ×ˢ threadIdxs spec.numThreads.toNats) :=
  ((toNats_box spec.numBlocks).prodMap (toNats_box spec.numThreads)).comp all.pairs

private theorem hostThread_injective (numBlocks : Vec (BitVec w) (n + 1)) :
    Function.Injective (hostThread numBlocks) := fun _ _ same =>
  congrArg (fun acc => acc.block.idx) same

/-- The threads of the host are all threads, if its blocks are all blocks. -/
theorem allThreads_host (one : (1 : BitVec w).toNat = 1) {numBlocks : Vec (BitVec w) (n + 1)}
    {blocks : List (Vec (BitVec w) (n + 1))} (once : blocks.Nodup)
    (all : ∀ idx, idx ∈ blocks ↔ idx ∈ box numBlocks) :
    AllThreads ⟨numBlocks, Vec.fill 1⟩ (blocks.map (hostThread numBlocks)) where
  once := once.map (hostThread_injective numBlocks)
  mem_iff := by
    have origin (idx : Vec (BitVec w) (n + 1)) : idx ∈ box (Vec.fill 1) ↔ idx = Vec.fill 0 := by
      constructor
      · intro inside
        funext d
        have below : (idx d).toNat < (1 : BitVec w).toNat := inside d
        apply BitVec.eq_of_toNat_eq
        rw [one] at below
        exact Nat.lt_one_iff.mp below
      · rintro rfl d
        change (0 : BitVec w).toNat < (1 : BitVec w).toNat
        rw [one]
        exact Nat.one_pos
    intro acc
    rw [List.mem_map]
    constructor
    · rintro ⟨blockIdx, listed, rfl⟩
      exact ⟨rfl, rfl, (all blockIdx).mp listed, (origin _).mpr rfl⟩
    · rintro ⟨blockCount, threadCount, block, thread⟩
      refine ⟨acc.block.idx, (all _).mpr block, ?_⟩
      exact GridThread.ext (Layer.ext rfl blockCount.symm)
        (Layer.ext ((origin _).mp thread).symm threadCount.symm)

private theorem make_single {numBlocks : Vec (BitVec w) (n + 1)} {single : SingleThreadSpec w n}
    {numThreads : Vec (BitVec w) (n + 1)}
    (made : SingleThreadSpec.make numBlocks numThreads = .ok single) :
    single.numBlocks = numBlocks := by
  unfold SingleThreadSpec.make at made
  split at made
  · rw [← Except.ok.inj made]
  · exact absurd made nofun

/-- A parallel loop that shares the iterations visits all blocks. -/
private theorem mem_blocks {single : SingleThreadSpec w n}
    (representable : ∏ d, (single.numBlocks d).toNat < 2 ^ w) {team : ℕ}
    {share : ℕ → List (BitVec w)}
    (shared : Partitions {thread | thread < team} share single.iterations) :
    ((List.range team).flatMap fun thread => single.ompCalls (share thread)).Nodup ∧
      ∀ idx, idx ∈ ((List.range team).flatMap fun thread => single.ompCalls (share thread)) ↔
        idx ∈ box single.numBlocks := by
  have blocks := SingleThreadSpec.partitions_ompCalls representable shared
  have workers (thread : ℕ) : thread ∈ List.range team ↔ thread ∈ {thread | thread < team} :=
    List.mem_range
  exact ⟨blocks.nodup_flatMap List.nodup_range workers, fun idx => blocks.mem_flatMap workers⟩

/-- **All threads.** Every executor runs the kernel in each thread of each block once. -/
theorem Executor.Runs.allThreads {exec : Executor} {spec : ThreadSpec w n}
    {threads : List (GridThread w n)} (runs : exec.Runs spec threads)
    (one : (1 : BitVec w).toNat = 1) (starts : exec.Starts spec) : AllThreads spec threads := by
  obtain ⟨numBlocks, numThreads⟩ := spec
  cases runs with
  | cpuSerial made =>
      obtain rfl : numThreads = Vec.fill 1 := starts
      obtain rfl := make_single made
      exact allThreads_host one (SingleThreadSpec.nodup_serialCalls _) fun _ =>
        SingleThreadSpec.mem_serialCalls
  | cpuOmpBlocks made team share shared order =>
      obtain ⟨rfl, representable⟩ : numThreads = Vec.fill 1 ∧ _ := starts
      obtain rfl := make_single made
      obtain ⟨once, all⟩ := mem_blocks representable shared
      rw [← List.map_flatMap] at order
      exact (allThreads_host one once all).perm order
  | @cpuTbbBlocks _ single made iterations once all =>
      obtain ⟨rfl, representable⟩ : numThreads = Vec.fill 1 ∧ _ := starts
      obtain rfl := make_single made
      have shared : Partitions {thread | thread < 1} (fun _ : ℕ => iterations)
          single.iterations :=
        { nodup := fun _ _ => once
          unique := fun first firstIn second secondIn _ _ _ =>
            (Nat.lt_one_iff.mp firstIn).trans (Nat.lt_one_iff.mp secondIn).symm
          mem_iff := fun i => (all i).symm.trans
            ⟨fun listed => ⟨0, Nat.one_pos, listed⟩, fun ⟨_, _, listed⟩ => listed⟩ }
      have blocks := mem_blocks representable shared
      simp only [List.range_one, List.flatMap_singleton, SingleThreadSpec.ompCalls_eq] at blocks
      exact allThreads_host one blocks.1 blocks.2
  | gpu warpSize workers once all =>
      have launched : (⟨numBlocks, numThreads⟩ : ThreadSpec w n).Launched := starts
      have ids := launched.ids warpSize
      have counts (worker : HardwareThread) :
          ((⟨numBlocks, numThreads⟩ : ThreadSpec w n).gpuThread warpSize worker).block.count =
            numBlocks ∧
          ((⟨numBlocks, numThreads⟩ : ThreadSpec w n).gpuThread warpSize worker).thread.count =
            numThreads := ⟨launched.blockCount worker, launched.threadCount worker⟩
      constructor
      · refine once.map_on fun first firstIn second secondIn same => ?_
        refine ids.injOn ((all first).mp firstIn) ((all second).mp secondIn) ?_
        exact Prod.ext (congrArg (fun acc => acc.block.idx) same)
          (congrArg (fun acc => acc.thread.idx) same)
      · intro acc
        rw [List.mem_map]
        constructor
        · rintro ⟨worker, listed, rfl⟩
          obtain ⟨block, thread⟩ := ids.mapsTo ((all worker).mp listed)
          exact ⟨(counts worker).1, (counts worker).2, block, thread⟩
        · rintro ⟨blockCount, threadCount, block, thread⟩
          obtain ⟨worker, member, same⟩ :=
            ids.surjOn (show (acc.block.idx, acc.thread.idx) ∈ _ from ⟨block, thread⟩)
          refine ⟨worker, (all worker).mpr member, ?_⟩
          obtain ⟨blockIdx, threadIdx⟩ := Prod.ext_iff.mp same
          exact GridThread.ext (Layer.ext blockIdx ((counts worker).1.trans blockCount.symm))
            (Layer.ext threadIdx ((counts worker).2.trans threadCount.symm))

private theorem make_ok (numBlocks : Vec (BitVec w) (n + 1)) (one : (1 : BitVec w).toNat = 1) :
    ∃ single, SingleThreadSpec.make numBlocks (Vec.fill 1) = .ok single ∧
      single.numBlocks = numBlocks := by
  have oneThread : (Vec.fill 1 : Vec (BitVec w) (n + 1)).product = 1 := by
    apply BitVec.eq_of_toNat_eq
    rw [Vec.toNat_product]
    have ones : ∏ d, ((Vec.fill 1 : Vec (BitVec w) (n + 1)) d).toNat = 1 :=
      Finset.prod_eq_one fun _ _ => one
    rw [ones, one]
    exact Nat.mod_eq_of_lt (one ▸ (1 : BitVec w).isLt)
  exact ⟨⟨numBlocks, Vec.fill 1, oneThread⟩, dif_pos oneThread, rfl⟩

private theorem finite_bitVec (w : ℕ) : Finite (BitVec w) :=
  Finite.of_injective BitVec.toFin fun _ _ => BitVec.eq_of_toFin_eq

private theorem finite_box (extents : Vec (BitVec w) (n + 1)) : (box extents).Finite :=
  have := finite_bitVec w
  have : Finite (Vec (BitVec w) (n + 1)) := Pi.finite
  Set.toFinite _

/-- A finite set has a list. -/
private theorem exists_list {α : Type} (elements : Set α) (finite : elements.Finite) :
    ∃ listed : List α, listed.Nodup ∧ ∀ x, x ∈ listed ↔ x ∈ elements := by
  refine ⟨finite.toFinset.toList, Finset.nodup_toList _, fun x => ?_⟩
  rw [Finset.mem_toList, Set.Finite.mem_toFinset]

/-- An executor can run what it can start. -/
theorem Executor.exists_runs {exec : Executor} {spec : ThreadSpec w n}
    (one : (1 : BitVec w).toNat = 1) (starts : exec.Starts spec) :
    ∃ threads, exec.Runs spec threads := by
  obtain ⟨numBlocks, numThreads⟩ := spec
  have := finite_bitVec w
  cases exec with
  | cpuSerial =>
      obtain rfl : numThreads = Vec.fill 1 := starts
      obtain ⟨single, made, -⟩ := make_ok numBlocks one
      exact ⟨_, .cpuSerial made⟩
  | cpuOmpBlocks =>
      obtain ⟨rfl, -⟩ : numThreads = Vec.fill 1 ∧ _ := starts
      obtain ⟨single, made, -⟩ := make_ok numBlocks one
      obtain ⟨order, once, all⟩ := exists_list single.iterations (Set.toFinite _)
      have shared : Partitions {thread | thread < 1} (fun _ => order) single.iterations := by
        refine ⟨fun _ _ => once, fun first firstIn second secondIn _ _ _ => ?_, fun i => ?_⟩
        · exact (Nat.lt_one_iff.mp firstIn).trans (Nat.lt_one_iff.mp secondIn).symm
        · exact ⟨fun member => ⟨0, Nat.one_pos, (all i).mpr member⟩,
            fun ⟨_, _, listed⟩ => (all i).mp listed⟩
      exact ⟨_, @Runs.cpuOmpBlocks w n ⟨numBlocks, Vec.fill 1⟩ single made 1 (fun _ => order) shared
        _ (.refl _)⟩
  | cpuTbbBlocks =>
      obtain ⟨rfl, -⟩ : numThreads = Vec.fill 1 ∧ _ := starts
      obtain ⟨single, made, -⟩ := make_ok numBlocks one
      obtain ⟨order, once, all⟩ := exists_list single.iterations (Set.toFinite _)
      exact ⟨_, @Runs.cpuTbbBlocks w n ⟨numBlocks, Vec.fill 1⟩ single made order once all⟩
  | gpu maxThreadsPerBlock =>
      have launched : (⟨numBlocks, numThreads⟩ : ThreadSpec w n).Launched := starts
      have finite : (⟨numBlocks, numThreads⟩ : ThreadSpec w n).workers.Finite :=
        (launched.ids 1).finite_iff_finite.mpr ((finite_box numBlocks).prod (finite_box numThreads))
      obtain ⟨workers, once, all⟩ := exists_list _ finite
      exact ⟨_, .gpu 1 workers once all⟩

/-- **Enqueueing.** From the frames that an executor accepts it derives blocks and threads that
it can run, and however it runs them, each thread of each block runs once. -/
theorem FrameSpec.Launchable.enqueues {frameSpec : FrameSpec n} {exec : Executor}
    (launchable : frameSpec.Launchable w exec) :
    ∃ spec, Settles (adjustThreadSpec w exec frameSpec) spec ∧ Adjusted frameSpec exec spec ∧
      (∃ threads, exec.Runs spec threads) ∧
      ∀ threads, exec.Runs spec threads → AllThreads spec threads := by
  have one := launchable.toNat_one
  obtain ⟨spec, settles, adjusted⟩ := launchable.adjustThreadSpec_settles
  exact ⟨spec, settles, adjusted, Executor.exists_runs one adjusted.starts,
    fun _ runs => runs.allThreads one adjusted.starts⟩

end Alpaka
