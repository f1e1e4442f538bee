import Alpaka.OnHost.Launch
import Alpaka.OnHost.Transform

/-! # Algorithms on every executor

An algorithm is enqueued with frames that depend on the device, and the executor derives blocks
and threads from them. What a transformation leaves in memory depends on none of this: all
executors compute the same function of the memory before
(`Alpaka.transform_onEveryExecutor`).
-/

namespace Alpaka

open Math (Settles)
open Math.Loop (Fault)
open FrameSpec (getFrameSpec getSimdFrameSpec)

variable {w n : ℕ}

attribute [local instance (2000)] neZero_add_one

/-! ## The threads of the grid -/

section Grid

variable {spec : ThreadSpec w n} {threads : List (GridThread w n)}

/-- How many threads the grid has, in the index type. -/
def ThreadSpec.gridCount (spec : ThreadSpec w n) : Vec (BitVec w) (n + 1) :=
  fun d => spec.numBlocks d * spec.numThreads d

private theorem ThreadSpec.toNats_gridCount {spec : ThreadSpec w n}
    (representable : ∀ d, (spec.numBlocks d).toNat * (spec.numThreads d).toNat < 2 ^ w) :
    spec.gridCount.toNats = fun d => (spec.numBlocks d).toNat * (spec.numThreads d).toNat := by
  funext d
  change (spec.numBlocks d * spec.numThreads d).toNat = _
  rw [BitVec.toNat_mul]
  exact Nat.mod_eq_of_lt (representable d)

/-- Threads number themselves one-to-one if the index type has the numbers. -/
theorem AllThreads.grid (all : AllThreads spec threads)
    (representable : ∀ d, (spec.numBlocks d).toNat * (spec.numThreads d).toNat < 2 ^ w) :
    (∀ acc ∈ threads, acc.threadsInGrid.threadCount = spec.gridCount) ∧
    Set.BijOn (fun acc : GridThread w n => acc.threadsInGrid.threadIdx) {acc | acc ∈ threads}
      (box spec.gridCount) := by
  have composed := (ThreadSpec.grid_bijOn spec.numBlocks spec.numThreads).comp all.pairs
  have exact {acc : GridThread w n} (listed : acc ∈ threads) :
      acc.threadsInGrid.threadIdx.toNats = fun d => (spec.numThreads d).toNat *
        (acc.block.idx d).toNat + (acc.thread.idx d).toNat := by
    obtain ⟨-, places, -⟩ := (all.mem_iff acc).mp listed
    have inside := composed.mapsTo listed
    funext d
    change (acc.thread.count d * acc.block.idx d + acc.thread.idx d).toNat = _
    rw [places, BitVec.toNat_add, BitVec.toNat_mul, Nat.mod_add_mod]
    exact Nat.mod_eq_of_lt ((inside d).trans (representable d))
  have counts := ThreadSpec.toNats_gridCount representable
  refine ⟨fun acc listed => ?_, fun acc listed d => ?_,
    fun first firstIn second secondIn same => ?_, fun idx inside => ?_⟩
  · obtain ⟨blocks, places, -⟩ := (all.mem_iff acc).mp listed
    funext d
    change acc.block.count d * acc.thread.count d = _
    rw [blocks, places]
    rfl
  · rw [BitVec.lt_def]
    exact (congrFun (exact listed) d).trans_lt
      ((composed.mapsTo listed d).trans_eq (congrFun counts d).symm)
  · have numbers := congrArg Vec.toNats same
    rw [exact firstIn, exact secondIn] at numbers
    exact composed.injOn firstIn secondIn numbers
  · obtain ⟨acc, listed, number⟩ := composed.surjOn (show idx.toNats ∈ _ from fun d =>
      (BitVec.lt_def.mp (inside d)).trans_eq (congrFun counts d))
    exact ⟨acc, listed, Vec.toNats_injective ((exact listed).trans number)⟩

end Grid

/-! ## Enqueueing a kernel of SIMD calls -/

/-- The functor calls of a thread, when the algorithm has no budget of its own. -/
def simdGridConcurrent (arch : Arch) (policy : Policy) (extents : Vec (BitVec w) (n + 1))
    (acc : GridThread w n) (fuel : ℕ) : Except Fault (List (Call (BitVec w) n)) :=
  let config := calcSimdPackConfig arch (getNumElemPerThread arch * arch.sizeofValue)
  concurrent config.simdWidth config.numSimdPacksPerFnCall policy.traverse policy.layout
    acc.threadsInGrid extents fuel

/-- The executor derives blocks and threads and runs the kernel, the functor calls of every
thread come to an end, and whatever the order of all calls, the memory is as wanted. -/
def Executor.Executes (exec : Executor) (frameSpec : FrameSpec n) (arch : Arch)
    (policy : Policy) (extents : Vec (BitVec w) (n + 1)) {Byte : Type}
    (act : (ℕ → Byte) → Call (BitVec w) n → ℕ → Byte)
    (wanted : (ℕ → Byte) → (ℕ → Byte) → Prop) : Prop :=
  ∃ spec, Settles (adjustThreadSpec w exec frameSpec) spec ∧
    (∃ threads, exec.Runs spec threads) ∧
    ∀ threads, exec.Runs spec threads → ∃ calls : GridThread w n → List (Call (BitVec w) n),
      (∀ acc ∈ threads, Settles (simdGridConcurrent arch policy extents acc) (calls acc)) ∧
      ∀ schedule : List (Call (BitVec w) n), schedule.Perm (threads.flatMap calls) →
        ∀ memory, wanted memory (schedule.foldl act memory)

/-- The loops of the threads of a grid do not overflow. -/
def ThreadSpec.LoopsFit (spec : ThreadSpec w n) (arch : Arch) (policy : Policy)
    (extents : Vec (BitVec w) (n + 1)) : Prop :=
  let config := calcSimdPackConfig arch (getNumElemPerThread arch * arch.sizeofValue)
  ConcurrentFits config.simdWidth config.numSimdPacksPerFnCall policy.traverse policy.layout
    spec.gridCount extents

/-- The threads of a grid launch the SIMD algorithm. -/
def AllThreads.launch {spec : ThreadSpec w n} {threads : List (GridThread w n)}
    (all : AllThreads spec threads) (positive : ∀ d, 0 < spec.gridCount d)
    (representable : ∀ d, (spec.numBlocks d).toNat * (spec.numThreads d).toNat < 2 ^ w)
    (arch : Arch) (policy : Policy) : SimdLaunch w n where
  simdWidth := (calcSimdPackConfig arch (getNumElemPerThread arch * arch.sizeofValue)).simdWidth
  numSimdPerFnCall :=
    (calcSimdPackConfig arch (getNumElemPerThread arch * arch.sizeofValue)).numSimdPacksPerFnCall
  traverse := policy.traverse
  layout := policy.layout
  threadCount := spec.gridCount
  threads := threads.map fun acc => acc.threadsInGrid.threadIdx
  positive := positive
  width := by
    obtain ⟨bits, -, width⟩ := calcSimdPackConfig_width arch
      (getNumElemPerThread arch * arch.sizeofValue)
    rw [width]
    exact Nat.two_pow_pos bits
  perFnCall := calcSimdPackConfig_packs arch _
  once := all.once.map_on fun _ firstIn _ secondIn same =>
    (all.grid representable).2.injOn firstIn secondIn same
  order := fun idx => by
    rw [List.mem_map]
    refine ⟨?_, fun inside => (all.grid representable).2.surjOn inside⟩
    rintro ⟨acc, listed, rfl⟩
    exact (all.grid representable).2.mapsTo listed

/-- What every launch of the SIMD algorithm that fits does is done on every executor. -/
theorem FrameSpec.Launchable.executes {frameSpec : FrameSpec n} {exec : Executor}
    (launchable : frameSpec.Launchable w exec) {arch : Arch} {policy : Policy}
    {extents : Vec (BitVec w) (n + 1)}
    (loops : ∀ spec, Settles (adjustThreadSpec w exec frameSpec) spec →
      spec.LoopsFit arch policy extents)
    {Byte : Type} {act : (ℕ → Byte) → Call (BitVec w) n → ℕ → Byte}
    {wanted : (ℕ → Byte) → (ℕ → Byte) → Prop}
    (done : ∀ launch : SimdLaunch w n, launch.Fits extents → launch.Executes extents act wanted) :
    exec.Executes frameSpec arch policy extents act wanted := by
  obtain ⟨spec, settles, adjusted, started, everyRun⟩ := launchable.enqueues
  refine ⟨spec, settles, started, fun threads runs => ?_⟩
  have all := everyRun threads runs
  have representable (d : Fin (n + 1)) :
      (spec.numBlocks d).toNat * (spec.numThreads d).toNat < 2 ^ w :=
    (Nat.mul_le_mul (adjusted.blocks_le d) (adjusted.threads_le d)).trans_lt
      (launchable.representable d)
  have positive (d : Fin (n + 1)) : 0 < spec.gridCount d := by
    rw [BitVec.lt_def]
    exact (Nat.zero_mod _).trans_lt ((Nat.mul_pos (adjusted.blocks_pos d)
      (adjusted.threads_pos d)).trans_eq
        (congrFun (ThreadSpec.toNats_gridCount representable) d).symm)
  obtain ⟨counts, -⟩ := all.grid representable
  have fits : (all.launch positive representable arch policy).Fits extents := by
    obtain ⟨bits, -, width⟩ := calcSimdPackConfig_width arch
      (getNumElemPerThread arch * arch.sizeofValue)
    have narrow := loops spec settles
    exact ⟨narrow, room_of_power width (narrow.width_lt positive) _ _⟩
  obtain ⟨calls, terminates, scheduled⟩ := done _ fits
  refine ⟨fun acc => calls acc.threadsInGrid.threadIdx, fun acc listed => ?_,
    fun schedule order => scheduled schedule ?_⟩
  · have own := terminates acc.threadsInGrid.threadIdx (List.mem_map_of_mem listed)
    have group : (⟨acc.threadsInGrid.threadIdx, spec.gridCount⟩ : ThreadSpace (BitVec w) (n + 1)) =
        acc.threadsInGrid := by rw [← counts acc listed]
    unfold simdGridConcurrent
    rw [← group]
    exact own
  · refine order.trans ?_
    unfold AllThreads.launch
    dsimp only
    rw [List.flatMap_map]

/-! ## Frames of the SIMD algorithm -/

/-- The frames make up no more than the extents. -/
theorem getSimdFrameSpec_le (arch : Arch) {warpSize : ℕ} (warp : 0 < warpSize)
    {extents : Vec ℕ (n + 1)} (positive : ∀ d, 0 < extents d) (d : Fin (n + 1)) :
    (getSimdFrameSpec arch warpSize extents).numFrames d *
      (getSimdFrameSpec arch warpSize extents).frameExtents d ≤ extents d := by
  have fits := FrameSpec.fits_getFrameSpec warp positive
  unfold getSimdFrameSpec divExZero
  dsimp only
  rw [max_mul_of_nonneg _ _ (Nat.zero_le _), Nat.one_mul, ← Nat.div_div_eq_div_mul]
  refine max_le ?_ (fits.le d)
  exact (Nat.mul_le_mul_right _ (Nat.div_le_self _ _)).trans (Nat.div_mul_le_self _ _)

/-- Extents of the index type have frames for the executors that accept these. -/
theorem getSimdFrameSpec_launchable {arch : Arch} {warpSize : ℕ} (warp : 0 < warpSize)
    {extents : Vec ℕ (n + 1)} (positive : ∀ d, 0 < extents d)
    (representable : ∀ d, extents d < 2 ^ w) {exec : Executor}
    (accepts : exec.Accepts w (getSimdFrameSpec arch warpSize extents)) :
    (getSimdFrameSpec arch warpSize extents).Launchable w exec where
  frames := fun _ => divExZero_pos _ _
  extents := (FrameSpec.fits_getFrameSpec warp positive).pos
  representable := fun d =>
    (getSimdFrameSpec_le arch warp positive d).trans_lt (representable d)
  accepts := accepts

/-- Calls for single elements. -/
private theorem takesAll_elements (extents : Vec ℕ (n + 1)) :
    TakesAll 1 extents ((ndIdxs extents).map fun idx => (⟨idx, 1⟩ : Call ℕ n)) := by
  have own (idx : Vec ℕ (n + 1)) : (⟨idx, 1⟩ : Call ℕ n).elements = [idx] :=
    congrArg (fun x => [x]) (rAssign_self idx)
  refine ⟨(nodup_ndIdxs extents).map fun _ _ same => congrArg Call.dataIdx same, ?_, fun idx => ?_,
    ?_⟩
  · intro first held second held' different
    obtain ⟨x, -, rfl⟩ := List.mem_map.mp held
    obtain ⟨y, -, rfl⟩ := List.mem_map.mp held'
    rw [own, own, List.disjoint_singleton, List.mem_singleton]
    rintro rfl
    exact different rfl
  · constructor
    · intro inside
      refine ⟨⟨idx, 1⟩, List.mem_map_of_mem (mem_ndIdxs.mpr inside), ?_⟩
      rw [own]
      exact List.mem_singleton_self idx
    · rintro ⟨call, held, element⟩
      obtain ⟨x, listed, rfl⟩ := List.mem_map.mp held
      rw [own, List.mem_singleton] at element
      exact element ▸ mem_ndIdxs.mp listed
  · intro call held wide
    obtain ⟨x, -, rfl⟩ := List.mem_map.mp held
    exact absurd rfl wide

section Algorithms

variable {U Byte : Type} {k : ℕ} {A : Fin k → Type} {extents : Vec (BitVec w) (n + 1)}
  {output : Output (BitVec w) U Byte n} {func : TransformFunc A U Byte w n}
  {inputs : (j : Fin k) → DataSource w (A j) Byte n}

/-- **Transform on every executor.** There is a function of the memory that gives every element
of the output its value, and every executor of every device that accepts the frames computes it,
with whatever frames, SIMD packs and policy, if its loops do not overflow. -/
theorem transform_onEveryExecutor {f : ((j : Fin k) → A j) → U}
    (applies : TransformFunc.Applies f func)
    (sources : ∀ j, (inputs j).Fits (elements extents.toNats))
    (places : PlacesFit (elements extents.toNats) output.span)
    (own : OwnElements extents.toNats output.toNats
      fun idx => {x | ∃ j, x ∈ (inputs j).bytesAt idx})
    (positive : ∀ d, 0 < extents d) : ∃ result : (ℕ → Byte) → ℕ → Byte,
      (∀ memory, Transformed extents.toNats output.toNats
        (fun idx => f fun j => (inputs j).get memory idx) memory (result memory)) ∧
      ∀ (exec : Executor) (arch : Arch) (policy : Policy) (warpSize : ℕ), 0 < warpSize →
        exec.Accepts w (getSimdFrameSpec arch warpSize extents.toNats) →
        (∀ spec, Settles (adjustThreadSpec w exec (getSimdFrameSpec arch warpSize extents.toNats))
          spec → spec.LoopsFit arch policy extents) →
        exec.Executes (getSimdFrameSpec arch warpSize extents.toNats) arch policy extents
          (transformPack output func inputs) fun before after => after = result before := by
  have transformed {simdWidth : ℕ} {schedule : List (Call ℕ n)}
      (takes : TakesAll simdWidth extents.toNats schedule)
      (first : ∀ call ∈ schedule, call.dataIdx ∈ elements extents.toNats) (memory : ℕ → Byte) :=
    transformPack_transforms takes first subset_rfl (applies.computes sources subset_rfl) places own
      memory
  have single : ∀ call ∈ (ndIdxs extents.toNats).map fun idx => (⟨idx, 1⟩ : Call ℕ n),
      call.dataIdx ∈ elements extents.toNats := by
    intro call held
    obtain ⟨idx, listed, rfl⟩ := List.mem_map.mp held
    exact mem_ndIdxs.mp listed
  refine ⟨_, transformed (takesAll_elements extents.toNats) single,
    fun exec arch policy warpSize warp accepts loops => ?_⟩
  refine (getSimdFrameSpec_launchable warp (toNats_positive positive) (fun d => (extents d).isLt)
    accepts).executes loops fun launch fits => fits.executes fun schedule takes first memory => ?_
  exact (transformed takes (fun call held => SimdLaunch.begins_subset (first call held)) memory).eq
    (transformed (takesAll_elements extents.toNats) single memory)

end Algorithms

private theorem words_positive : 0 < 4 := Nat.succ_pos 3

private theorem words_narrow : 16 ≤ 256 ∨ 16 = 4 := by decide

/-- Vectors of four words. -/
private def fourWords : Arch := ⟨4, 16, 1, 64, words_positive, words_narrow⟩

private theorem twoByFive_frames :
    getSimdFrameSpec fourWords 1 twoByFive.toNats = ⟨![1, 1], ![2, 4]⟩ := by
  have extents : twoByFive.toNats = ![2, 5] := by decide
  have frame : (getFrameSpec 1 ![2, 5]).frameExtents = ![2, 4] := by
    unfold getFrameSpec
    decide +kernel
  have frames : (fun d => divExZero (![2, 5] d) (![2, 4] d *
      (Vec.fill 1 : Vec ℕ 2).rAssign (getNumElemPerThread fourWords) d)) = ![1, 1] := by decide
  unfold getSimdFrameSpec
  rw [extents, frame]
  exact congrArg (FrameSpec.mk · ![2, 4]) frames

/-- A block of two threads is derived for a graphics processor, and its loops do not overflow. -/
private theorem twoThreads_fit {spec : ThreadSpec 32 1}
    (settles : Settles (adjustThreadSpec 32 (.gpu 2) ⟨![1, 1], ![2, 4]⟩) spec) :
    spec.LoopsFit fourWords ⟨.flat, .strided⟩ twoByFive := by
  have first : halveLargest 2 ![2, 4] = ![2, 2] := by decide
  have second : halveLargest 2 ![2, 2] = ![1, 2] := by decide
  have adjusted : Settles (fun fuel => adjustToLimit 2 fuel ![2, 4]) ![1, 2] := by
    refine (Math.While.settles_step_iff (by decide)).mpr ?_
    rw [first]
    refine (Math.While.settles_step_iff (by decide)).mpr ?_
    rw [second]
    exact Math.While.settles_of_done (by decide)
  have derived : Settles (adjustThreadSpec 32 (.gpu 2) ⟨![1, 1], ![2, 4]⟩)
      (⟨Vec.ofNats ![1, 1], Vec.ofNats ![1, 2]⟩ : ThreadSpec 32 1) :=
    adjusted.bind (Settles.pure _)
  rw [settles.unique derived, ThreadSpec.LoopsFit]
  dsimp only
  rw [ConcurrentFits, if_pos (by decide)]
  refine ⟨by decide, by decide, ?_, .inr (by decide)⟩
  rw [PacksFit, if_pos (by decide)]
  exact .inr (by decide)

/-- The positions of the elements are added to the elements. -/
theorem transform_onEveryExecutor_inPlace : ∃ result : (ℕ → ℕ) → ℕ → ℕ,
    (∀ memory, Transformed twoByFive.toNats fiveWords.toNats
      (fun idx => wordOf (fun byte => memory (fiveWords.toNats.span.ptr id idx + byte)) +
        ((linearize twoByFive.toNats idx : ℕ) : BitVec 32).toNat) memory (result memory)) ∧
    (Executor.gpu 2).Executes ⟨![1, 1], ![2, 4]⟩ fourWords ⟨.flat, .strided⟩ twoByFive
      (transformPack fiveWords (.scalarFunc fun x : Fin 2 → ℕ => x 0 + x 1)
        ![.mdSpan fiveWords.span wordOf, .linearizedIdxGenerator twoByFive BitVec.toNat])
      fun before after => after = result before := by
  have own : OwnElements twoByFive.toNats fiveWords.toNats fun idx => {x | ∃ j, x ∈
      ((![.mdSpan fiveWords.span wordOf, .linearizedIdxGenerator twoByFive BitVec.toNat] :
        (j : Fin 2) → DataSource 32 ℕ ℕ 1) j).bytesAt idx} := by
    refine fiveWords_own _ fun idx inside other inside' different => ?_
    apply Set.disjoint_left.mpr
    rintro x cell ⟨j, read⟩
    fin_cases j
    · exact Set.disjoint_left.mp (fiveWords_disjoint inside inside' different) cell read
    · exact read
  have applies : TransformFunc.Applies (fun x : Fin 2 → ℕ => x 0 + x 1)
      (.scalarFunc fun x => x 0 + x 1 : TransformFunc (fun _ => ℕ) ℕ ℕ 32 1) := .scalarFunc
  have sources (j : Fin 2) : ((![.mdSpan fiveWords.span wordOf, .linearizedIdxGenerator twoByFive
      BitVec.toNat] : (j : Fin 2) → DataSource 32 ℕ ℕ 1) j).Fits (elements twoByFive.toNats) := by
    fin_cases j
    · exact fiveWords_places subset_rfl
    · trivial
  obtain ⟨result, transformed, executes⟩ := transform_onEveryExecutor applies sources
    (fiveWords_places subset_rfl) own (by decide)
  refine ⟨result, transformed, twoByFive_frames ▸ executes (.gpu 2) fourWords ⟨.flat, .strided⟩ 1
    Nat.one_pos ?_ fun spec settles => ?_⟩
  · rw [twoByFive_frames]
    refine ⟨⟨by decide, by decide, by decide⟩, ?_⟩
    exact (if_pos (by decide) : LaunchExact _ = _).mpr (by decide)
  · rw [twoByFive_frames] at settles
    exact twoThreads_fit settles

end Alpaka
