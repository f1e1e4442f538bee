import Alpaka.Api.AdjustToLimit
import Alpaka.Math.TreeReduce
import Alpaka.OnAcc.PhasesWidth
import Alpaka.OnAcc.SimdTransformReduce
import Alpaka.OnHost.FrameSpec
import Alpaka.OnHost.Transform
import Mathlib.Tactic.FinCases

/-! # Transforming and reducing on a device

Every element of a frame has a slot in the shared memory of a block. The threads of the
block reduce the elements of all frames that the block takes into the slots, the slots are
reduced to the first one, and the blocks add their first slots to the output. In a
commutative monoid this is the fold of the transformed elements, if nothing overflows in the
index type (`Alpaka.TransformReduce.simdTransformReduceKernel_folds`). With as many elements as
there are indices a flat loop sees none of them
(`Alpaka.TransformReduce.simdTransformReduceKernel_lost`).
-/

namespace Alpaka.TransformReduce

open Math (Assigns Settles Partitions foldl_assigns foldl_update_assigns)
open Math.Loop (Fault)
open Math.TreeReduce (gather takeHalf takeHalf_first foldl_dropLast offsets Lanes)
open IdxContainer (LoopFits words_yield)

attribute [local instance (2000)] neZero_add_one

variable {M Byte : Type} {w n k : ℕ} {A : Fin k → Type}

/-- What the kernel is called with. -/
structure Arguments (M Byte : Type) {k : ℕ} (A : Fin k → Type) (w n : ℕ) where
  sizeofValue : ℕ
  numChunks : Vec (BitVec w) (n + 1)
  chunkExtents : Vec (BitVec w) (n + 1)
  extentMd : Vec (BitVec w) (n + 1)
  neutralElement : M
  reduceFunc : M → M → M
  transformFunc : TransformFunc A M Byte w n
  inputs : (j : Fin k) → DataSource w (A j) Byte n

/-- A launch of the kernel, with the orders of the blocks and of the threads between
barriers. -/
structure Launch (w n : ℕ) where
  numBlocks : Vec (BitVec w) (n + 1)
  numThreads : Vec (BitVec w) (n + 1)
  blocks : List (Vec (BitVec w) (n + 1))
  threads : (block : Vec (BitVec w) (n + 1)) → (phase : ℕ) → List (Vec (BitVec w) (n + 1))

/-- How loops over index maps and SIMD algorithms are executed on a device. -/
structure Device where
  idxPolicy : Policy
  reduction : SimdReduction

def Arguments.chunkDataExtent (args : Arguments M Byte A w n) : Vec (BitVec w) (n + 1) :=
  fun d => args.numChunks d * args.chunkExtents d

/-- The slot of an element of a frame: its distance from the begin of the shared memory, in
values. -/
def tbSum (args : Arguments M Byte A w n) (elemIdxInFrame : Vec (BitVec w) (n + 1)) : ℕ :=
  (contiguousSpan args.sizeofValue args.chunkExtents).byteOffset BitVec.toNat elemIdxInFrame /
    args.sizeofValue

section Kernel

variable (device : Device) (launch : Launch w n) (args : Arguments M Byte A w n)

def traverseInFrame (threadIdx : Vec (BitVec w) (n + 1)) : IdxContainer (BitVec w) n n :=
  makeIdxMap ⟨threadIdx, launch.numThreads⟩ (IdxRange.ofExtents args.chunkExtents)
    device.idxPolicy.traverse device.idxPolicy.layout

def traverseOverFrames (blockIdx : Vec (BitVec w) (n + 1)) : IdxContainer (BitVec w) n n :=
  makeIdxMap ⟨blockIdx, launch.numBlocks⟩ ⟨Vec.fill 0, args.chunkDataExtent, args.chunkExtents⟩
    device.idxPolicy.traverse device.idxPolicy.layout

def laneIdInBlock (threadIdx : Vec (BitVec w) (n + 1)) : ℕ :=
  (linearize launch.numThreads threadIdx).toNat

def blockSize : ℕ := (Vec.product launch.numThreads).toNat

/-- What a thread does before the first barrier: it reduces the elements of all frames into
its slots. The inputs lie in a memory that the kernel does not write to. -/
def accumulate (memory : ℕ → Byte) (blockIdx threadIdx : Vec (BitVec w) (n + 1)) (fuel : ℕ)
    (dynS : ℕ → M) : Except Fault (ℕ → M) := do
  let elems ← (traverseInFrame device launch args threadIdx).run fuel
  let dynS := elems.foldl (fun dynS elemIdxInFrame =>
    Function.update dynS (tbSum args elemIdxInFrame) args.neutralElement) dynS
  let frames ← (traverseOverFrames device launch args blockIdx).run fuel
  frames.foldlM (fun dynS chunkIdx =>
    elems.foldlM (fun dynS elemIdxInChunk => do
      let reducedValue ← transformReduce device.reduction args.neutralElement args.reduceFunc
        (args.transformFunc.pack args.inputs memory)
        ⟨fun d => chunkIdx d + elemIdxInChunk d, args.chunkDataExtent⟩ args.extentMd fuel
      let slot := tbSum args elemIdxInChunk
      return Function.update dynS slot (args.reduceFunc (dynS slot) reducedValue)) dynS) dynS

/-- The first slots take in the slots for which there is no thread. -/
def aggregate (threadIdx : Vec (BitVec w) (n + 1)) (fuel : ℕ) (dynS : ℕ → M) :
    Except Fault (ℕ → M) := do
  let linearThreadsInBlock := Vec.product launch.numThreads
  let linearSharedElemIdxs ← lineIdxs device.idxPolicy (linearize launch.numThreads threadIdx)
    linearThreadsInBlock linearThreadsInBlock (Vec.product args.chunkExtents) 1 fuel
  return gather args.reduceFunc (linearSharedElemIdxs.map BitVec.toNat)
    (laneIdInBlock launch threadIdx) dynS

/-- One level of the tree. -/
def treeLevel (offset : ℕ) (threads : List (Vec (BitVec w) (n + 1))) (dynS : ℕ → M) : ℕ → M :=
  threads.foldl (fun dynS threadIdx =>
    takeHalf args.reduceFunc offset (laneIdInBlock launch threadIdx) dynS) dynS

/-- The shared memory of a block at the last barrier, which is in front of the last level of
the tree. -/
def reduceBlock (memory : ℕ → Byte) (blockIdx : Vec (BitVec w) (n + 1)) (fuel : ℕ)
    (dynS : ℕ → M) : Except Fault (ℕ → M) := do
  let dynS ← (launch.threads blockIdx 0).foldlM (fun dynS threadIdx =>
    accumulate device launch args memory blockIdx threadIdx fuel dynS) dynS
  let dynS ← (launch.threads blockIdx 1).foldlM (fun dynS threadIdx =>
    aggregate device launch args threadIdx fuel dynS) dynS
  return ((offsets (blockSize launch / 2)).dropLast.zipIdx 2).foldl (fun dynS level =>
    treeLevel launch args level.1 (launch.threads blockIdx level.2) dynS) dynS

/-- What a thread does behind the last barrier: the last level of the tree, and the atomic
update of the output if it is the first thread. -/
def updateOutput (offset : ℕ) (state : (ℕ → M) × M) (threadIdx : Vec (BitVec w) (n + 1)) :
    (ℕ → M) × M :=
  let lane := laneIdInBlock launch threadIdx
  let dynS := takeHalf args.reduceFunc offset lane state.1
  (dynS, if lane = 0 then args.reduceFunc state.2 (dynS lane) else state.2)

/-- The kernel: what all blocks make of the output. The shared memory of a block holds
anything before. -/
def simdTransformReduceKernel (memory : ℕ → Byte) (scratch : Vec (BitVec w) (n + 1) → ℕ → M)
    (fuel : ℕ) (output : M) : Except Fault M :=
  launch.blocks.foldlM (fun output blockIdx => do
    let dynS ← reduceBlock device launch args memory blockIdx fuel (scratch blockIdx)
    let levels := offsets (blockSize launch / 2)
    -- a block of one thread has no levels, and no lane is below an offset of zero
    return ((launch.threads blockIdx (2 + levels.dropLast.length)).foldl
      (updateOutput launch args (levels.getLastD 0)) (dynS, output)).2) output

end Kernel

/-- What a launch is like: it has blocks and threads, and all of them run, in whatever order. -/
structure Launch.Proper (launch : Launch w n) : Prop where
  blocks_pos : ∀ d, 0 < launch.numBlocks d
  threads_pos : ∀ d, 0 < launch.numThreads d
  blocks_nodup : launch.blocks.Nodup
  mem_blocks : ∀ idx, idx ∈ launch.blocks ↔ idx ∈ box launch.numBlocks
  threads_nodup : ∀ block phase, (launch.threads block phase).Nodup
  mem_threads : ∀ block phase idx,
    idx ∈ launch.threads block phase ↔ idx ∈ box launch.numThreads

/-! ## What must not overflow -/

/-- Frames and blocks have powers of two as extents, and a block has no more threads in a
dimension than a frame has elements. -/
structure Shape (launch : Launch w n) (args : Arguments M Byte A w n) : Prop where
  frame : ∀ d, ∃ bits, args.chunkExtents.toNats d = 2 ^ bits
  block : ∀ d, ∃ bits, launch.numThreads.toNats d = 2 ^ bits
  within : ∀ d, launch.numThreads.toNats d ≤ args.chunkExtents.toNats d

/-- Nothing that blocks and threads compute overflows: there are workers, the slots of a frame
can be counted and found, and the blocks' loop over the frames does not overflow. -/
structure FramesFit (device : Device) (numBlocks : Vec (BitVec w) (n + 1))
    (args : Arguments M Byte A w n) : Prop where
  workers : ∀ d, 0 < args.chunkDataExtent d
  slots : ∏ d, args.chunkExtents.toNats d < 2 ^ w
  places : n = 0 ∨ (∏ d, args.chunkExtents.toNats d - 1) * args.sizeofValue < 2 ^ w
  overFrames : LoopFits ⟨Vec.fill 0, args.chunkDataExtent, args.chunkExtents⟩ numBlocks
    device.idxPolicy.traverse device.idxPolicy.layout

/-- Nothing that the kernel computes overflows, neither in the blocks nor in the workers, whose
calls find the places where they begin. -/
structure KernelFits (device : Device) (numBlocks : Vec (BitVec w) (n + 1))
    (args : Arguments M Byte A w n) : Prop extends FramesFit device numBlocks args where
  reductions : device.reduction.Fits args.chunkDataExtent args.extentMd
  sources : ∀ j, (args.inputs j).Fits
    (device.reduction.begins args.chunkDataExtent.toNats args.extentMd.toNats)

section Shapes

variable {device : Device} {launch : Launch w n} {args : Arguments M Byte A w n}

/-- A power of two in the index type leaves room for a number that is not larger. -/
private theorem add_le_of_power {power number : ℕ} (isPower : ∃ bits, power = 2 ^ bits)
    (narrow : power < 2 ^ w) (few : number ≤ power) : power + number ≤ 2 ^ w := by
  obtain ⟨bits, rfl⟩ := isPower
  have double : 2 ^ (bits + 1) ≤ 2 ^ w :=
    Nat.pow_le_pow_right Nat.two_pos ((Nat.pow_lt_pow_iff_right Nat.one_lt_two).mp narrow)
  rw [Nat.pow_succ] at double
  omega

private theorem prod_power {extents : Vec ℕ (n + 1)} (powers : ∀ d, ∃ bits, extents d = 2 ^ bits) :
    ∃ bits, ∏ d, extents d = 2 ^ bits := by
  choose bits power using powers
  refine ⟨∑ d, bits d, ?_⟩
  rw [← Finset.prod_pow_eq_pow_sum]
  exact Finset.prod_congr rfl fun d _ => power d

private theorem Shape.frame_pos (shape : Shape launch args) (d : Fin (n + 1)) :
    0 < args.chunkExtents.toNats d := by
  obtain ⟨bits, power⟩ := shape.frame d
  rw [power]
  exact Nat.two_pow_pos bits

/-- A block has at most as many threads as a frame has elements. -/
theorem Shape.threads_le (shape : Shape launch args) :
    ∏ d, launch.numThreads.toNats d ≤ ∏ d, args.chunkExtents.toNats d :=
  Finset.prod_le_prod (fun _ _ => Nat.zero_le _) fun d _ => shape.within d

/-- A dimension of a frame has at most as many elements as the frame. -/
theorem Shape.frame_le (shape : Shape launch args) (d : Fin (n + 1)) :
    args.chunkExtents.toNats d ≤ ∏ e, args.chunkExtents.toNats e :=
  Finset.single_le_prod' (fun e _ => shape.frame_pos e) (Finset.mem_univ d)

/-- The number of threads of a block is exact. -/
theorem Shape.blockSize_eq (shape : Shape launch args)
    (fits : FramesFit device launch.numBlocks args) :
    blockSize launch = ∏ d, launch.numThreads.toNats d :=
  (Vec.toNat_product _).trans (Nat.mod_eq_of_lt (shape.threads_le.trans_lt fits.slots))

/-- The lane of a thread is exact. -/
theorem Shape.laneIdInBlock_eq (shape : Shape launch args)
    (fits : FramesFit device launch.numBlocks args) {threadIdx : Vec (BitVec w) (n + 1)}
    (member : threadIdx ∈ box launch.numThreads) :
    laneIdInBlock launch threadIdx =
      Math.MixedRadix.value launch.numThreads.toNats threadIdx.toNats := by
  have below := (Math.MixedRadix.value_bijOn launch.numThreads.toNats).mapsTo
    ((toNats_box launch.numThreads).mapsTo member)
  unfold laneIdInBlock
  rw [toNat_linearize, linearize_eq_value]
  exact Nat.mod_eq_of_lt (lt_trans below (shape.threads_le.trans_lt fits.slots))

end Shapes

/-! ## Slots -/

section Slots

variable {device : Device} {launch : Launch w n} {args : Arguments M Byte A w n}
  (size : 0 < args.sizeofValue) (fits : FramesFit device launch.numBlocks args)

include size fits

/-- The slots are numbered by the row-major position in the frame. -/
theorem tbSum_eq {idx : Vec ℕ (n + 1)} (inside : idx ∈ elements args.chunkExtents.toNats) :
    tbSum args (Vec.ofNats idx) = Math.MixedRadix.value args.chunkExtents.toNats idx := by
  have exact : (Vec.ofNats idx : Vec (BitVec w) (n + 1)).toNats = idx :=
    Vec.toNats_ofNats fun d => (inside d).trans (args.chunkExtents d).isLt
  have below := (Math.MixedRadix.value_bijOn args.chunkExtents.toNats).mapsTo inside
  have last : Math.MixedRadix.value args.chunkExtents.toNats idx ≤
      ∏ d, args.chunkExtents.toNats d - 1 := Nat.le_sub_one_of_lt below
  unfold tbSum
  rw [contiguousSpan_toNats (fits.places.imp_right fun room => ?_), exact,
    Nat.mul_div_cancel _ size]
  rw [exact]
  exact (Nat.mul_le_mul_right _ last).trans_lt room

private theorem tbSum_injOn : Set.InjOn (fun idx => tbSum args (Vec.ofNats idx))
    (elements args.chunkExtents.toNats) := by
  intro first member second member' same
  dsimp only at same
  rw [tbSum_eq size fits member, tbSum_eq size fits member'] at same
  exact (Math.MixedRadix.value_bijOn args.chunkExtents.toNats).injOn member member' same

end Slots

/-! ## Frames and elements -/

section Shares

variable {device : Device} {launch : Launch w n} {args : Arguments M Byte A w n}

/-- The elements of a frame that a thread takes. -/
def inFrame (device : Device) (launch : Launch w n) (args : Arguments M Byte A w n)
    (threadIdx : Vec (BitVec w) (n + 1)) : List (Vec ℕ (n + 1)) :=
  (makeIdxMap ⟨threadIdx.toNats, launch.numThreads.toNats⟩
    (IdxRange.ofExtents args.chunkExtents.toNats) device.idxPolicy.traverse
      device.idxPolicy.layout).indices

/-- The frames that a block takes. -/
def overFrames (device : Device) (launch : Launch w n) (args : Arguments M Byte A w n)
    (blockIdx : Vec (BitVec w) (n + 1)) : List (Vec ℕ (n + 1)) :=
  (makeIdxMap ⟨blockIdx.toNats, launch.numBlocks.toNats⟩
    ⟨Vec.fill 0, args.chunkDataExtent.toNats, args.chunkExtents.toNats⟩ device.idxPolicy.traverse
      device.idxPolicy.layout).indices

/-- The threads of a block share out the elements of a frame. -/
theorem inFrame_partitions (device : Device) (proper : launch.Proper)
    (args : Arguments M Byte A w n) :
    Partitions (box launch.numThreads) (inFrame device launch args)
      (elements args.chunkExtents.toNats) := by
  have whole : (IdxRange.ofExtents args.chunkExtents.toNats).Proper :=
    ⟨fun _ => Nat.zero_le _, fun _ => Nat.one_pos⟩
  have shares := (IdxContainer.makeIdxMap_partitions whole (toNats_positive proper.threads_pos)
    device.idxPolicy.traverse device.idxPolicy.layout).2
  rw [lattice_ofExtents] at shares
  exact shares.comp (toNats_box launch.numThreads)

/-- Their loops overflow neither. -/
theorem inFrame_settles (proper : launch.Proper) (shape : Shape launch args)
    (fits : FramesFit device launch.numBlocks args) {threadIdx : Vec (BitVec w) (n + 1)}
    (member : threadIdx ∈ box launch.numThreads) :
    Settles (traverseInFrame device launch args threadIdx).run
      ((inFrame device launch args threadIdx).map Vec.ofNats) := by
  have range := toNats_ofExtents proper.threads_pos args.chunkExtents
  have whole : (IdxRange.ofExtents args.chunkExtents).toNats.Proper := by
    rw [range]
    exact ⟨fun _ => Nat.zero_le _, fun _ => Nat.one_pos⟩
  have unit (d : Fin (n + 1)) : (IdxRange.ofExtents args.chunkExtents).toNats.strideMd d = 1 :=
    congrFun (congrArg IdxRange.strideMd range) d
  have count (d : Fin (n + 1)) : (IdxRange.ofExtents args.chunkExtents).toNats.logicalExtent id d =
      args.chunkExtents.toNats d := by
    rw [range]
    exact Nat.div_one _
  have total : ∏ d, (IdxRange.ofExtents args.chunkExtents).toNats.logicalExtent id d +
      ∏ d, (launch.numThreads d).toNat ≤ 2 ^ w := by
    rw [Finset.prod_congr rfl fun d _ => count d]
    exact add_le_of_power (prod_power shape.frame) fits.slots shape.threads_le
  have loops := LoopFits.of_room whole unit proper.threads_pos
    (shape.threads_le.trans_lt fits.slots) total
    (fun d => add_le_of_power (shape.frame d) (args.chunkExtents d).isLt (shape.within d))
    device.idxPolicy.traverse device.idxPolicy.layout
  obtain ⟨yields, divides⟩ := words_yield whole proper.threads_pos (representable_unit whole unit)
    device.idxPolicy.traverse device.idxPolicy.layout loops member
  rw [range] at yields
  exact yields.run divides

/-- As many frames as there are distinct positions of them. -/
def chunksOf (args : Arguments M Byte A w n) : Vec ℕ (n + 1) :=
  fun d => args.chunkDataExtent.toNats d / args.chunkExtents.toNats d

/-- The width is a multiple of the extents of a frame. -/
private theorem frame_dvd (shape : Shape launch args) (d : Fin (n + 1)) :
    args.chunkExtents.toNats d ∣ 2 ^ w := by
  have narrow : args.chunkExtents.toNats d < 2 ^ w := (args.chunkExtents d).isLt
  obtain ⟨bits, power⟩ := shape.frame d
  rw [power] at narrow ⊢
  exact Nat.pow_dvd_pow 2 ((Nat.pow_lt_pow_iff_right Nat.one_lt_two).mp narrow).le

/-- The data of all frames are whole frames, also if their extents wrap around. -/
private theorem chunksOf_mul (shape : Shape launch args) (d : Fin (n + 1)) :
    chunksOf args d * args.chunkExtents.toNats d = args.chunkDataExtent.toNats d := by
  refine Nat.div_mul_cancel ?_
  change _ ∣ (args.numChunks d * args.chunkExtents d).toNat
  rw [BitVec.toNat_mul]
  exact (Nat.dvd_mod_iff (frame_dvd shape d)).mpr (Nat.dvd_mul_left _ _)

/-- Where the frames begin. -/
def frameBegins (args : Arguments M Byte A w n) : Finset (Vec ℕ (n + 1)) :=
  (Math.box (chunksOf args)).image fun tile d => tile d * args.chunkExtents.toNats d

private theorem mem_frameBegins (shape : Shape launch args) (x : Vec ℕ (n + 1)) :
    x ∈ frameBegins args ↔ x ∈ (⟨Vec.fill 0, args.chunkDataExtent.toNats,
      args.chunkExtents.toNats⟩ : IdxRange ℕ (n + 1)).lattice (id : CSelect (n + 1) (n + 1)) := by
  unfold frameBegins
  rw [Finset.mem_image]
  constructor
  · rintro ⟨tile, member, rfl⟩
    refine ⟨fun d => ⟨tile d, (Nat.zero_add _).symm, ?_⟩, fun d outside => absurd rfl (outside d)⟩
    have below := Nat.mul_lt_mul_of_pos_right (Math.mem_box.mp member d) (shape.frame_pos d)
    rwa [chunksOf_mul shape d] at below
  · rintro ⟨strided, -⟩
    choose tile begins below using strided
    have index (d : Fin (n + 1)) : x d = tile d * args.chunkExtents.toNats d :=
      (begins d).trans (Nat.zero_add _)
    refine ⟨tile, Math.mem_box.mpr fun d => ?_, (funext index).symm⟩
    have room : x d < args.chunkDataExtent.toNats d := below d
    rw [index, ← chunksOf_mul shape d] at room
    exact Nat.lt_of_mul_lt_mul_right room

/-- The blocks share out the frames. -/
theorem overFrames_partitions (device : Device) (proper : launch.Proper)
    (shape : Shape launch args) :
    Partitions (box launch.numBlocks) (overFrames device launch args)
      {x | x ∈ frameBegins args} := by
  have whole : (⟨Vec.fill 0, args.chunkDataExtent.toNats, args.chunkExtents.toNats⟩ :
      IdxRange ℕ (n + 1)).Proper := ⟨fun _ => Nat.zero_le _, shape.frame_pos⟩
  have shares := (IdxContainer.makeIdxMap_partitions whole (toNats_positive proper.blocks_pos)
    device.idxPolicy.traverse device.idxPolicy.layout).2
  have same : {x | x ∈ frameBegins args} = _ := Set.ext (mem_frameBegins shape)
  rw [same]
  exact shares.comp (toNats_box launch.numBlocks)

private theorem overFrames_settles (proper : launch.Proper) (shape : Shape launch args)
    (fits : FramesFit device launch.numBlocks args) {blockIdx : Vec (BitVec w) (n + 1)}
    (member : blockIdx ∈ box launch.numBlocks) :
    Settles (traverseOverFrames device launch args blockIdx).run
      ((overFrames device launch args blockIdx).map Vec.ofNats) := by
  have zero : (Vec.fill 0 : Vec (BitVec w) (n + 1)).toNats = Vec.fill 0 :=
    funext fun _ => Nat.zero_mod _
  have range : (⟨Vec.fill 0, args.chunkDataExtent, args.chunkExtents⟩ :
      IdxRange (BitVec w) (n + 1)).toNats =
        ⟨Vec.fill 0, args.chunkDataExtent.toNats, args.chunkExtents.toNats⟩ := by
    unfold IdxRange.toNats
    rw [zero]
  have whole : (⟨Vec.fill 0, args.chunkDataExtent, args.chunkExtents⟩ :
      IdxRange (BitVec w) (n + 1)).toNats.Proper := by
    rw [range]
    exact ⟨fun _ => Nat.zero_le _, shape.frame_pos⟩
  have divides (d : Fin (n + 1)) : args.chunkExtents.toNats d ∣ args.chunkDataExtent.toNats d :=
    Dvd.intro_left _ (chunksOf_mul shape d)
  have narrow (d : Fin (n + 1)) : args.chunkDataExtent.toNats d < 2 ^ w :=
    (args.chunkDataExtent d).isLt
  have representable : TiledIdxContainer.StepsFit (⟨Vec.fill 0, args.chunkDataExtent,
      args.chunkExtents⟩ : IdxRange (BitVec w) (n + 1)).toNats (2 ^ w) := by
    refine representable_of_dvd whole (fun d => ?_) (fun d => narrow d) fun d => ?_ <;> rw [range]
    · exact divides d
    · exact add_le_of_dvd (frame_dvd shape d) (divides d) (narrow d)
  obtain ⟨yields, divides⟩ := words_yield whole proper.blocks_pos representable
    device.idxPolicy.traverse device.idxPolicy.layout fits.overFrames member
  rw [range] at yields
  exact yields.run divides

/-- The worker of an element of a frame. -/
theorem add_mem_chunkData (shape : Shape launch args) {chunkIdx elemIdx : Vec ℕ (n + 1)}
    (frame : chunkIdx ∈ frameBegins args) (element : elemIdx ∈ elements args.chunkExtents.toNats) :
    (fun d => chunkIdx d + elemIdx d) ∈ threadIdxs args.chunkDataExtent.toNats := by
  obtain ⟨tile, member, rfl⟩ := Finset.mem_image.mp frame
  intro d
  calc tile d * args.chunkExtents.toNats d + elemIdx d
      < tile d * args.chunkExtents.toNats d + args.chunkExtents.toNats d :=
        Nat.add_lt_add_left (element d) _
    _ = (tile d + 1) * args.chunkExtents.toNats d := (Nat.succ_mul _ _).symm
    _ ≤ chunksOf args d * args.chunkExtents.toNats d :=
        Nat.mul_le_mul_right _ (Math.mem_box.mp member d)
    _ = args.chunkDataExtent.toNats d := chunksOf_mul shape d

/-- The index of the worker of an element in the index type. -/
private theorem ofNats_add (chunkIdx elemIdx : Vec ℕ (n + 1)) :
    (fun d => (Vec.ofNats chunkIdx : Vec (BitVec w) (n + 1)) d + Vec.ofNats elemIdx d) =
      Vec.ofNats fun d => chunkIdx d + elemIdx d :=
  funext fun _ => (Nat.cast_add _ _).symm

end Shares

/-! ## Accumulating -/

section Accumulate

variable [AddCommMonoid M] {device : Device} {launch : Launch w n} {args : Arguments M Byte A w n}
  {memory : ℕ → Byte}

/-- The functors of the kernel are those of a commutative monoid. -/
structure Arguments.Sums (args : Arguments M Byte A w n) : Prop where
  neutral : args.neutralElement = 0
  reduce : args.reduceFunc = (· + ·)

/-- What the workers reduce. -/
def WorkersReduce (device : Device) (args : Arguments M Byte A w n) (memory : ℕ → Byte)
    (value : Vec ℕ (n + 1) → M) : Prop :=
  ∀ idx ∈ threadIdxs args.chunkDataExtent.toNats, Settles (transformReduce device.reduction 0
    (· + ·) (args.transformFunc.pack args.inputs memory) ⟨Vec.ofNats idx, args.chunkDataExtent⟩
      args.extentMd) (value idx)

/-- Rounds in which every task adds to its own place. -/
private theorem rounds_assign {Task Round : Type} {place : Task → ℕ} {tasks : List Task}
    (once : tasks.Nodup) (apart : Set.InjOn place {task | task ∈ tasks})
    (value : Round → Task → M) (rounds : List Round) {start : Task → M}
    {before memory : ℕ → M}
    (held : Assigns ∅ {task | task ∈ tasks} place start before memory) :
    Assigns ∅ {task | task ∈ tasks} place
      (fun task => start task + (rounds.map fun round => value round task).sum) before
      (rounds.foldl (fun memory round => tasks.foldl (fun memory task =>
        Function.update memory (place task) (memory (place task) + value round task)) memory)
        memory) := by
  induction rounds generalizing start memory with
  | nil => exact held.congr_value fun task _ => (add_zero _).symm
  | cons round rounds ih =>
      have added := foldl_update_assigns place
        (fun task memory => memory (place task) + value round task)
        (fun task => {x | x = place task}) once
        (fun task _ first second agree => by rw [agree _ rfl])
        (fun first member second member' different =>
          have places := fun same => different (apart member member' same)
          ⟨places, places⟩) memory
      have next := held.overwrite added fun task member => ⟨task, member, rfl⟩
      have counted := next.congr_value fun task member =>
        congrArg (· + value round task) (held.written task member)
      refine (ih counted).congr_value fun task _ => ?_
      rw [List.map_cons, List.sum_cons, add_assoc]

/-- **Accumulating.** A thread reduces the elements of all frames of its block into its
slots. -/
private theorem accumulate_settles (sums : args.Sums) (size : 0 < args.sizeofValue)
    (proper : launch.Proper) (shape : Shape launch args)
    (fits : FramesFit device launch.numBlocks args) {value : Vec ℕ (n + 1) → M}
    (workers : WorkersReduce device args memory value)
    {blockIdx threadIdx : Vec (BitVec w) (n + 1)} (block : blockIdx ∈ box launch.numBlocks)
    (thread : threadIdx ∈ box launch.numThreads) (dynS : ℕ → M) :
    ∃ after, Settles (fun fuel => accumulate device launch args memory blockIdx threadIdx fuel dynS)
        after ∧
      Assigns ∅ {e | e ∈ inFrame device launch args threadIdx}
        (fun e => tbSum args (Vec.ofNats e))
        (fun e => ((overFrames device launch args blockIdx).map fun chunkIdx =>
          value fun d => chunkIdx d + e d).sum) dynS after := by
  have elems := inFrame_partitions device proper args
  have frames := overFrames_partitions device proper shape
  have inside {e : Vec ℕ (n + 1)} (member : e ∈ inFrame device launch args threadIdx) :
      e ∈ elements args.chunkExtents.toNats := elems.sound thread member
  have apart : Set.InjOn (fun e => tbSum args (Vec.ofNats e))
      {e | e ∈ inFrame device launch args threadIdx} :=
    (tbSum_injOn size fits).mono fun e member => inside member
  have once := elems.nodup threadIdx thread
  have cleared := Math.foldl_store_assigns (fun e => tbSum args (Vec.ofNats e)) (fun _ => (0 : M))
    once (fun first member second member' different same => different (apart member member' same))
    dynS
  have counted := rounds_assign once apart
    (fun (chunkIdx e : Vec ℕ (n + 1)) => value fun d => chunkIdx d + e d)
    (overFrames device launch args blockIdx) cleared
  refine ⟨_, ?_, counted.congr_value fun e _ => zero_add _⟩
  unfold accumulate
  rw [sums.neutral, sums.reduce]
  refine (inFrame_settles proper shape fits thread).bind
    ((overFrames_settles proper shape fits block).bind ?_)
  simp only [List.foldl_map, List.foldlM_map]
  refine Settles.foldlM (fun chunkIdx listed dynS => ?_) _
  refine Settles.foldlM (fun e held dynS => ?_) _
  have worker := workers _ (add_mem_chunkData shape (frames.sound block listed) (inside held))
  rw [← ofNats_add] at worker
  exact worker.bind (Settles.pure _)

/-- The slots after the first barrier, whatever the order of the threads. -/
private theorem accumulateAll_settles (sums : args.Sums) (size : 0 < args.sizeofValue)
    (proper : launch.Proper) (shape : Shape launch args)
    (fits : FramesFit device launch.numBlocks args) {value : Vec ℕ (n + 1) → M}
    (workers : WorkersReduce device args memory value)
    {blockIdx : Vec (BitVec w) (n + 1)} (block : blockIdx ∈ box launch.numBlocks) (dynS : ℕ → M) :
    ∃ after, Settles (fun fuel => (launch.threads blockIdx 0).foldlM (fun dynS threadIdx =>
        accumulate device launch args memory blockIdx threadIdx fuel dynS) dynS) after ∧
      ∀ e ∈ elements args.chunkExtents.toNats, after (tbSum args (Vec.ofNats e)) =
        ((overFrames device launch args blockIdx).map fun chunkIdx =>
          value fun d => chunkIdx d + e d).sum := by
  choose! after settles assigns using fun threadIdx (thread : threadIdx ∈ box launch.numThreads)
      (dynS : ℕ → M) => accumulate_settles sums size proper shape fits workers block thread dynS
  have listed (threadIdx : Vec (BitVec w) (n + 1)) : threadIdx ∈ launch.threads blockIdx 0 ↔ _ :=
    proper.mem_threads blockIdx 0 threadIdx
  have shares := inFrame_partitions device proper args
  have slots := foldl_assigns (fun _ => ∅) (proper.threads_nodup blockIdx 0)
    (fun threadIdx member dynS => assigns threadIdx ((listed threadIdx).mp member) dynS)
    (fun _ _ _ _ _ _ _ => rfl) (fun _ _ => Set.disjoint_empty _)
    (fun _ _ _ _ => Set.notMem_empty _)
    (fun first member second member' different e held =>
      ⟨Set.notMem_empty _, fun e' held' same => ?_⟩) dynS
  · refine ⟨_, Settles.foldlM (fun threadIdx member dynS =>
      settles threadIdx ((listed threadIdx).mp member) dynS) dynS, fun e inside => ?_⟩
    obtain ⟨threadIdx, thread, held⟩ := (shares.mem_iff e).mp inside
    exact slots.written (threadIdx, e) ⟨(listed threadIdx).mpr thread, held⟩
  · have thread := (listed first).mp member
    have thread' := (listed second).mp member'
    obtain rfl := tbSum_injOn size fits (shares.sound thread held) (shares.sound thread' held') same
    exact different (shares.unique first thread second thread' e held held')

/-! ## The tree -/

omit [AddCommMonoid M] in
/-- The lanes of a block. -/
private theorem lanes_of_threads (proper : launch.Proper) (shape : Shape launch args)
    (fits : FramesFit device launch.numBlocks args) (blockIdx : Vec (BitVec w) (n + 1))
    (phase : ℕ) :
    Lanes (blockSize launch) ((launch.threads blockIdx phase).map (laneIdInBlock launch)) := by
  have bijection := Math.MixedRadix.value_bijOn launch.numThreads.toNats
  have numbered := toNats_box launch.numThreads
  have inBlock {idx : Vec (BitVec w) (n + 1)} (member : idx ∈ launch.threads blockIdx phase) :
      idx ∈ box launch.numThreads := (proper.mem_threads _ _ _).mp member
  rw [shape.blockSize_eq fits]
  constructor
  · refine (proper.threads_nodup blockIdx phase).map_on fun first member second member' same => ?_
    rw [shape.laneIdInBlock_eq fits (inBlock member),
      shape.laneIdInBlock_eq fits (inBlock member')] at same
    exact Vec.toNats_injective (bijection.injOn (numbered.mapsTo (inBlock member))
      (numbered.mapsTo (inBlock member')) same)
  · intro slot
    rw [List.mem_map]
    constructor
    · rintro ⟨idx, member, rfl⟩
      rw [shape.laneIdInBlock_eq fits (inBlock member)]
      exact bijection.mapsTo (numbered.mapsTo (inBlock member))
    · intro below
      obtain ⟨_, inside, rfl⟩ := bijection.surjOn below
      obtain ⟨idx, member, rfl⟩ := numbered.surjOn inside
      exact ⟨idx, (proper.mem_threads _ _ _).mpr member, shape.laneIdInBlock_eq fits member⟩

/-- The last level of the tree in the shared memory of a block. -/
private def lastLevel (launch : Launch w n) (args : Arguments M Byte A w n)
    (blockIdx : Vec (BitVec w) (n + 1)) (dynS : ℕ → M) : ℕ → M :=
  let levels := offsets (blockSize launch / 2)
  treeLevel launch args (levels.getLastD 0) (launch.threads blockIdx (2 + levels.dropLast.length))
    dynS

omit [AddCommMonoid M] in
/-- No lane is below an offset of zero. -/
private theorem treeLevel_zero (threads : List (Vec (BitVec w) (n + 1))) (dynS : ℕ → M) :
    treeLevel launch args 0 threads dynS = dynS :=
  List.foldl_fixed' (fun _ => if_neg (Nat.not_lt_zero _)) threads

/-- All levels of the tree, the last one of them behind the last barrier. -/
private theorem tree_sum (sums : args.Sums) (proper : launch.Proper) (shape : Shape launch args)
    (fits : FramesFit device launch.numBlocks args) (blockIdx : Vec (BitVec w) (n + 1))
    (slots : ℕ → M) :
    lastLevel launch args blockIdx
        (((offsets (blockSize launch / 2)).dropLast.zipIdx 2).foldl (fun dynS level =>
          treeLevel launch args level.1 (launch.threads blockIdx level.2) dynS) slots) 0 =
      ∑ slot ∈ Finset.range (blockSize launch), slots slot := by
  obtain ⟨bits, power⟩ : ∃ bits, blockSize launch = 2 ^ bits := by
    rw [shape.blockSize_eq fits]
    exact prod_power shape.block
  have reduced := Math.TreeReduce.reduced (lanes_of_threads proper shape fits blockIdx)
    (show 2 ^ bits ≤ _ from power.ge) 2 slots
  have levels := foldl_dropLast (fun offset phase =>
    treeLevel launch args offset (launch.threads blockIdx phase))
    (fun phase dynS => treeLevel_zero (launch.threads blockIdx phase) dynS)
    (offsets (blockSize launch / 2)) 2 slots
  rw [← power] at reduced
  refine (congrFun levels 0).trans (Eq.trans ?_ reduced)
  simp only [treeLevel, sums.reduce, List.foldl_map]

/-- The slots behind those of the threads that a thread takes in. -/
private def others (device : Device) (launch : Launch w n) (args : Arguments M Byte A w n)
    (lane : ℕ) : List ℕ :=
  lineShare device.idxPolicy lane (blockSize launch) (blockSize launch)
    (∏ d, args.chunkExtents.toNats d) 1

omit [AddCommMonoid M] in
/-- The threads share out the slots for which there is no thread. -/
private theorem others_partitions (device : Device) (args : Arguments M Byte A w n)
    (ordered : blockSize launch ≤ ∏ d, args.chunkExtents.toNats d)
    (several : 0 < blockSize launch) :
    Partitions {lane | lane < blockSize launch} (others device launch args)
      {x | blockSize launch ≤ x ∧ x < ∏ d, args.chunkExtents.toNats d} := by
  have behind : {x | ∃ count, x = blockSize launch + count * 1 ∧
      x < ∏ d, args.chunkExtents.toNats d} =
        {x | blockSize launch ≤ x ∧ x < ∏ d, args.chunkExtents.toNats d} := by
    ext x
    constructor
    · rintro ⟨count, index, below⟩
      exact ⟨by omega, below⟩
    · rintro ⟨above, below⟩
      exact ⟨x - blockSize launch, by omega, below⟩
  rw [← behind]
  exact lineShare_partitions device.idxPolicy ordered Nat.one_pos several

omit [AddCommMonoid M] in
/-- **Aggregating.** The loop over these slots does not overflow. -/
private theorem aggregate_settles (shape : Shape launch args)
    (fits : FramesFit device launch.numBlocks args) {threadIdx : Vec (BitVec w) (n + 1)}
    (member : threadIdx ∈ box launch.numThreads) (dynS : ℕ → M) :
    Settles (fun fuel => aggregate device launch args threadIdx fuel dynS)
      (gather args.reduceFunc (others device launch args (laneIdInBlock launch threadIdx))
        (laneIdInBlock launch threadIdx) dynS) := by
  have lane := shape.laneIdInBlock_eq fits member
  have size := shape.blockSize_eq fits
  have stop : (Vec.product args.chunkExtents).toNat = ∏ d, args.chunkExtents.toNats d :=
    (Vec.toNat_product _).trans (Nat.mod_eq_of_lt fits.slots)
  have within : blockSize launch ≤ ∏ d, args.chunkExtents.toNats d := size ▸ shape.threads_le
  have inside : linearize launch.numThreads threadIdx < Vec.product launch.numThreads := by
    have below := (Math.MixedRadix.value_bijOn launch.numThreads.toNats).mapsTo
      ((toNats_box launch.numThreads).mapsTo member)
    rw [BitVec.lt_def]
    change laneIdInBlock launch threadIdx < blockSize launch
    rw [lane, size]
    exact below
  have ordered : Vec.product launch.numThreads ≤ Vec.product args.chunkExtents := by
    rw [BitVec.le_def, stop]
    exact within
  have room : ∏ d, args.chunkExtents.toNats d + blockSize launch ≤ 2 ^ w :=
    add_le_of_power (prod_power shape.frame) fits.slots within
  have range := toNats_lineRange inside (Vec.product launch.numThreads)
    (Vec.product args.chunkExtents)
  have whole := lineRange_proper inside ordered
  have count : (⟨![Vec.product launch.numThreads], ![Vec.product args.chunkExtents], ![1]⟩ :
      IdxRange (BitVec w) 1).toNats.logicalExtent id 0 =
        (∏ d, args.chunkExtents.toNats d) - blockSize launch := by
    rw [range]
    change divCeil ((Vec.product args.chunkExtents).toNat - blockSize launch) 1 = _
    rw [stop]
    exact Nat.div_one _
  have loops : LoopFits ⟨![Vec.product launch.numThreads], ![Vec.product args.chunkExtents], ![1]⟩
      ![Vec.product launch.numThreads] device.idxPolicy.traverse device.idxPolicy.layout := by
    refine LoopFits.of_room whole (fun d => ?_) (fun d => ?_) ?_ ?_ (fun d => ?_) _ _
    · rw [range, Fin.fin_one_eq_zero d]
      rfl
    · rw [Fin.fin_one_eq_zero d]
      exact BitVec.lt_def.mpr ((Nat.zero_mod _).trans_lt (Nat.zero_lt_of_lt inside))
    · rw [Fin.prod_univ_one]
      exact (Vec.product launch.numThreads).isLt
    · rw [Fin.prod_univ_one, Fin.prod_univ_one, count]
      change _ + blockSize launch ≤ _
      omega
    · rw [range, Fin.fin_one_eq_zero d]
      change (Vec.product args.chunkExtents).toNat + blockSize launch ≤ _
      rwa [stop]
  have words := lineIdxs_words device.idxPolicy inside ordered loops
  unfold aggregate
  refine words.bind ?_
  have numbers : ((lineShare device.idxPolicy (linearize launch.numThreads threadIdx).toNat
      (Vec.product launch.numThreads).toNat (Vec.product launch.numThreads).toNat
        (Vec.product args.chunkExtents).toNat 1).map (Nat.cast : ℕ → BitVec w)).map BitVec.toNat =
          others device launch args (laneIdInBlock launch threadIdx) := by
    rw [List.map_map, stop]
    refine (List.map_congr_left fun x listed => ?_).trans (List.map_id _)
    have share := (others_partitions device args within
      (Nat.zero_lt_of_lt (BitVec.lt_def.mp inside))).sound (BitVec.lt_def.mp inside) listed
    exact toNat_cast_of_lt (share.2.trans fits.slots)
  rw [numbers]
  exact Settles.pure _

/-- **A block.** The first slot of a block gets the sum over all elements of its frames. -/
private theorem reduceBlock_settles (sums : args.Sums) (size : 0 < args.sizeofValue)
    (proper : launch.Proper) (shape : Shape launch args)
    (fits : FramesFit device launch.numBlocks args) {value : Vec ℕ (n + 1) → M}
    (workers : WorkersReduce device args memory value)
    {blockIdx : Vec (BitVec w) (n + 1)} (block : blockIdx ∈ box launch.numBlocks) (dynS : ℕ → M) :
    ∃ after, Settles (fun fuel => reduceBlock device launch args memory blockIdx fuel dynS) after ∧
      lastLevel launch args blockIdx after 0 =
        ((overFrames device launch args blockIdx).map fun chunkIdx =>
          ∑ e ∈ Math.box args.chunkExtents.toNats, value fun d => chunkIdx d + e d).sum := by
  obtain ⟨slots, settles, filled⟩ :=
    accumulateAll_settles sums size proper shape fits workers block dynS
  have within : blockSize launch ≤ ∏ d, args.chunkExtents.toNats d :=
    shape.blockSize_eq fits ▸ shape.threads_le
  have several : 0 < blockSize launch := by
    rw [shape.blockSize_eq fits]
    exact Finset.prod_pos fun d _ => toNats_positive proper.threads_pos d
  have lanes := lanes_of_threads proper shape fits blockIdx
  have gathered := Math.TreeReduce.gathered within
    (others_partitions device args within several) (lanes 1) slots
  rw [List.foldl_map] at gathered
  refine ⟨_, ?_, (tree_sum sums proper shape fits blockIdx
    ((launch.threads blockIdx 1).foldl (fun dynS threadIdx => gather (· + ·)
      (others device launch args (laneIdInBlock launch threadIdx))
      (laneIdInBlock launch threadIdx) dynS) slots)).trans ?_⟩
  · refine settles.bind (Settles.bind ?_ (Settles.pure _))
    refine Settles.foldlM (fun threadIdx member dynS => ?_) slots
    have aggregated := aggregate_settles shape fits
      ((proper.mem_threads blockIdx 1 threadIdx).mp member) dynS
    rwa [sums.reduce] at aggregated
  · rw [gathered, ← Math.sum_box_value, ← Math.sum_list_comm]
    refine Finset.sum_congr rfl fun e member => ?_
    have inside : e ∈ elements args.chunkExtents.toNats := Math.mem_box.mp member
    rw [← tbSum_eq size fits inside]
    exact filled e inside

/-! ## The grid -/

omit [AddCommMonoid M] in
/-- The threads behind the first one change neither the output nor the first slot. -/
private theorem foldl_updateOutput_others (args : Arguments M Byte A w n)
    {threads : List (Vec (BitVec w) (n + 1))}
    (others : ∀ threadIdx ∈ threads, laneIdInBlock launch threadIdx ≠ 0) (offset : ℕ)
    (dynS : ℕ → M) (output : M) :
    threads.foldl (updateOutput launch args offset) (dynS, output) =
        (treeLevel launch args offset threads dynS, output) ∧
      treeLevel launch args offset threads dynS 0 = dynS 0 := by
  induction threads generalizing dynS with
  | nil => exact ⟨rfl, rfl⟩
  | cons threadIdx threads ih =>
      have behind := others threadIdx List.mem_cons_self
      have kept : updateOutput launch args offset (dynS, output) threadIdx =
          (takeHalf args.reduceFunc offset (laneIdInBlock launch threadIdx) dynS, output) :=
        Prod.ext rfl (if_neg behind)
      obtain ⟨rest, first⟩ := ih (fun other member => others other (List.mem_cons_of_mem _ member))
        (takeHalf args.reduceFunc offset (laneIdInBlock launch threadIdx) dynS)
      rw [List.foldl_cons, kept]
      exact ⟨rest, first.trans (takeHalf_first args.reduceFunc offset behind dynS)⟩

omit [AddCommMonoid M] in
/-- One thread of a block reduces the first slot into the output, as soon as it is done with
its own slot. -/
private theorem foldl_updateOutput (args : Arguments M Byte A w n)
    {threads : List (Vec (BitVec w) (n + 1))} {size : ℕ}
    (lanes : Lanes size (threads.map (laneIdInBlock launch))) (several : 0 < size)
    (offset : ℕ) (dynS : ℕ → M) (output : M) :
    (threads.foldl (updateOutput launch args offset) (dynS, output)).2 =
      args.reduceFunc output (treeLevel launch args offset threads dynS 0) := by
  obtain ⟨first, member, lane⟩ := List.mem_map.mp ((lanes.mem_iff 0).mpr several)
  obtain ⟨before, after, rfl⟩ := List.append_of_mem member
  have once := lanes.nodup
  rw [List.map_append, List.map_cons, lane] at once
  have absent := (List.nodup_cons.mp (List.nodup_middle.mp once)).1
  rw [← List.map_append] at absent
  have others {threadIdx : Vec (BitVec w) (n + 1)} (listed : threadIdx ∈ before ++ after) :
      laneIdInBlock launch threadIdx ≠ 0 :=
    fun same => absent (List.mem_map.mpr ⟨threadIdx, listed, same⟩)
  have earlier := (foldl_updateOutput_others args
    (fun _ listed => others (List.mem_append_left after listed)) offset dynS output).1
  let done := takeHalf args.reduceFunc offset (laneIdInBlock launch first)
    (treeLevel launch args offset before dynS)
  have updates : updateOutput launch args offset (treeLevel launch args offset before dynS, output)
      first = (done, args.reduceFunc output (done 0)) :=
    Prod.ext rfl ((if_pos lane).trans (congrArg (args.reduceFunc output <| done ·) lane))
  obtain ⟨later, kept⟩ := foldl_updateOutput_others args
    (fun _ listed => others (List.mem_append_right before listed)) offset done
    (args.reduceFunc output (done 0))
  have whole : treeLevel launch args offset (before ++ first :: after) dynS =
      treeLevel launch args offset after done := List.foldl_append
  rw [List.foldl_append, earlier, List.foldl_cons, updates, later, whole, kept]

/-- The frames of all blocks are the whole index space of the workers. -/
private theorem sum_blocks (device : Device) (proper : launch.Proper)
    (shape : Shape launch args) (value : Vec ℕ (n + 1) → M) :
    (launch.blocks.map fun blockIdx =>
      ((overFrames device launch args blockIdx).map fun chunkIdx =>
        ∑ e ∈ Math.box args.chunkExtents.toNats, value fun d => chunkIdx d + e d).sum).sum =
      ∑ idx ∈ Math.box args.chunkDataExtent.toNats, value idx := by
  have frames := overFrames_partitions device proper shape
  have distinct : Set.InjOn (fun (tile : Vec ℕ (n + 1)) d => tile d * args.chunkExtents.toNats d)
      (Math.box (chunksOf args)) := by
    intro first _ second _ same
    funext d
    exact Nat.eq_of_mul_eq_mul_right (shape.frame_pos d) (congrFun same d)
  have data : args.chunkDataExtent.toNats =
      fun d => chunksOf args d * args.chunkExtents.toNats d :=
    funext fun d => (chunksOf_mul shape d).symm
  rw [frames.sum_eq proper.blocks_nodup proper.mem_blocks (fun _ => Iff.rfl)
    fun chunkIdx => ∑ e ∈ Math.box args.chunkExtents.toNats, value fun d => chunkIdx d + e d]
  unfold frameBegins
  rw [Finset.sum_image distinct, data]
  exact (Math.sum_box_mul _ _ value).symm

/-- The kernel adds what the workers reduce to the output. -/
theorem kernel_adds (sums : args.Sums) (size : 0 < args.sizeofValue) (proper : launch.Proper)
    (shape : Shape launch args) (fits : FramesFit device launch.numBlocks args)
    {value : Vec ℕ (n + 1) → M} (workers : WorkersReduce device args memory value)
    (scratch : Vec (BitVec w) (n + 1) → ℕ → M) (output : M) :
    Settles (fun fuel => simdTransformReduceKernel device launch args memory scratch fuel output)
      (output + ∑ idx ∈ Math.box args.chunkDataExtent.toNats, value idx) := by
  choose! dynS settles first using fun blockIdx (block : blockIdx ∈ box launch.numBlocks) =>
    reduceBlock_settles sums size proper shape fits workers block (scratch blockIdx)
  have several : 0 < blockSize launch := by
    rw [shape.blockSize_eq fits]
    exact Finset.prod_pos fun d _ => toNats_positive proper.threads_pos d
  have total : output + ∑ idx ∈ Math.box args.chunkDataExtent.toNats, value idx =
      launch.blocks.foldl (fun output blockIdx =>
        output + lastLevel launch args blockIdx (dynS blockIdx) 0) output := by
    rw [← List.foldl_map, foldl_add_sum, ← sum_blocks device proper shape]
    refine congrArg (output + List.sum ·) (List.map_congr_left fun blockIdx member => ?_)
    exact (first blockIdx ((proper.mem_blocks blockIdx).mp member)).symm
  rw [total]
  unfold simdTransformReduceKernel
  refine Settles.foldlM (fun blockIdx member output => ?_) output
  let levels := offsets (blockSize launch / 2)
  have lanes := lanes_of_threads proper shape fits blockIdx (2 + levels.dropLast.length)
  have updated := foldl_updateOutput args lanes several (levels.getLastD 0) (dynS blockIdx) output
  rw [sums.reduce] at updated
  refine Eq.subst updated ?_
  exact (settles blockIdx ((proper.mem_blocks blockIdx).mp member)).bind (Settles.pure _)

/-- The kernel over a commutative monoid, with a functor whose packs consist of values of the
elements. -/
theorem kernel_settles (sums : args.Sums) (perFnCall : 0 < device.reduction.numSimdPerFnCall)
    (size : 0 < args.sizeofValue) (proper : launch.Proper) (shape : Shape launch args)
    (fits : FramesFit device launch.numBlocks args)
    (reductions : device.reduction.Fits args.chunkDataExtent args.extentMd)
    {value : Vec ℕ (n + 1) → M}
    (lanes : ∀ call : Call ℕ n, call.dataIdx ∈ device.reduction.begins
      args.chunkDataExtent.toNats args.extentMd.toNats → ∀ laneId < call.width,
        call.dataIdx.rAssign (call.dataIdx.back + laneId) ∈ elements args.extentMd.toNats →
          args.transformFunc.pack args.inputs memory (Call.ofNats call) laneId =
            value (call.dataIdx.rAssign (call.dataIdx.back + laneId)))
    (scratch : Vec (BitVec w) (n + 1) → ℕ → M) (output : M) :
    Settles (fun fuel => simdTransformReduceKernel device launch args memory scratch fuel output)
      (output + ∑ idx ∈ Math.box args.extentMd.toNats, value idx) := by
  obtain ⟨share, shares, reduced⟩ := transformReduce_settles perFnCall fits.workers reductions
    lanes
  have workers : WorkersReduce device args memory fun idx => ((share idx).map value).sum := by
    intro idx member
    obtain ⟨words, inside, rfl⟩ := (toNats_box args.chunkDataExtent).surjOn member
    rw [Vec.ofNats_toNats]
    exact reduced words inside
  have elements : ∑ idx ∈ Math.box args.chunkDataExtent.toNats, ((share idx).map value).sum =
      ∑ idx ∈ Math.box args.extentMd.toNats, value idx := by
    rw [← Finset.sum_map_toList]
    exact shares.sum_eq (Finset.nodup_toList _)
      (fun idx => (Finset.mem_toList.trans Math.mem_box)) (fun idx => Math.mem_box) _
  rw [← elements]
  exact kernel_adds sums size proper shape fits workers scratch output

end Accumulate

variable {device : Device} {launch : Launch w n} {args : Arguments M Byte A w n}

/-- Blocks that are a frame cut down to a limit. -/
theorem shape_of_limit (powers : ∀ d, ∃ bits, args.chunkExtents.toNats d = 2 ^ bits) {limit : ℕ}
    (limited : 1 ≤ limit) (threads : Settles
      (fun fuel => adjustToLimit limit fuel args.chunkExtents.toNats) launch.numThreads.toNats) :
    Shape launch args := by
  have positive (d : Fin (n + 1)) : 1 ≤ args.chunkExtents.toNats d := by
    obtain ⟨bits, power⟩ := powers d
    rw [power]
    exact Nat.two_pow_pos bits
  obtain ⟨result, settles, shrunk, -⟩ :=
    adjustToLimit_settles args.chunkExtents.toNats limit positive limited
  rw [← threads.unique settles] at shrunk
  exact ⟨powers, fun d => shrunk.pow d (powers d), shrunk.le⟩

section Folds

variable [Std.Commutative args.reduceFunc] [Std.Associative args.reduceFunc]
  (neutral : ∀ x, args.reduceFunc args.neutralElement x = x) {f : ((j : Fin k) → A j) → M}
  (applies : TransformFunc.Applies f args.transformFunc)
  (perFnCall : 0 < device.reduction.numSimdPerFnCall) (size : 0 < args.sizeofValue)

include neutral applies perFnCall size

/-- The kernel in blocks of any shape. -/
theorem kernel_folds (shape : Shape launch args) (proper : launch.Proper)
    (fits : KernelFits device launch.numBlocks args) (memory : ℕ → Byte)
    (scratch : Vec (BitVec w) (n + 1) → ℕ → M) (output : M) :
    Settles (fun fuel => simdTransformReduceKernel device launch args memory scratch fuel output)
      (args.reduceFunc output ((Math.box args.extentMd.toNats).fold args.reduceFunc
        args.neutralElement fun idx => f fun j => (args.inputs j).get memory idx)) := by
  have comm := (inferInstance : Std.Commutative args.reduceFunc).comm
  let add : Add M := ⟨args.reduceFunc⟩
  let zero : Zero M := ⟨args.neutralElement⟩
  let monoid : AddCommMonoid M :=
    { add with
      add_assoc := (inferInstance : Std.Associative args.reduceFunc).assoc
      zero_add := neutral
      add_zero := fun x => (comm x _).trans (neutral x)
      add_comm := comm
      nsmul := nsmulRec }
  have sums : args.Sums := ⟨rfl, rfl⟩
  have computes := applies.computes fits.sources fun _ begin => begin.1
  exact kernel_settles sums perFnCall size proper shape fits.toFramesFit fits.reductions
    (fun call begin laneId below inside => computes.lanes memory call begin laneId below inside)
    scratch output

/-- **Transforming and reducing.** Whatever the number of frames, the blocks, the limit of
the threads, the packs, the policies and the orders: if nothing overflows, the kernel adds the
fold of the transformed elements to the output, each element taken once. Frames have powers of
two as extents, as those that are derived from extents have
(`Alpaka.FrameSpec.fits_getFrameSpec`). -/
theorem simdTransformReduceKernel_folds
    (powers : ∀ d, ∃ bits, args.chunkExtents.toNats d = 2 ^ bits) {limit : ℕ}
    (limited : 1 ≤ limit) (threads : Settles
      (fun fuel => adjustToLimit limit fuel args.chunkExtents.toNats) launch.numThreads.toNats)
    (proper : launch.Proper) (fits : KernelFits device launch.numBlocks args) (memory : ℕ → Byte)
    (scratch : Vec (BitVec w) (n + 1) → ℕ → M) (output : M) :
    Settles (fun fuel => simdTransformReduceKernel device launch args memory scratch fuel output)
      (args.reduceFunc output ((Math.box args.extentMd.toNats).fold args.reduceFunc
        args.neutralElement fun idx => f fun j => (args.inputs j).get memory idx)) :=
  kernel_folds neutral applies perFnCall size (shape_of_limit powers limited threads) proper fits
    memory scratch output

end Folds

/-! ## A run that fits, and one that does not -/

private theorem lane_positive : 0 < 8 := by decide

private theorem lane_narrow : 16 ≤ 256 ∨ 16 = 8 := by decide

/-- Vectors of two elements. -/
private def pairs : Arch := ⟨8, 16, 1, 64, lane_positive, lane_narrow⟩

/-- Six bytes in two rows with a gap, of which ten times the sum is wanted, in two frames. -/
private def sumOfSix : Arguments ℕ ℕ (fun _ : Fin 1 => ℕ) 32 1 where
  sizeofValue := 8
  numChunks := ![1, 2]
  chunkExtents := Vec.ofNats (FrameSpec.getSimdFrameSpec pairs 1 ![2, 3]).frameExtents
  extentMd := ![2, 3]
  neutralElement := 0
  reduceFunc := (· + ·)
  transformFunc := .scalarFunc fun x => 10 * x ⟨0, Nat.one_pos⟩
  inputs := fun _ => .mdSpan ⟨100, 1, ![2, 3], ![4]⟩ fun bytes => bytes ⟨0, Nat.one_pos⟩

private def twoByTwo : Launch 32 1 where
  numBlocks := ![1, 2]
  numThreads := ![1, 2]
  blocks := [1, 0].map fun block => ![0, block]
  threads := fun _ phase => (if phase = 0 then [1, 0] else [0, 1]).map fun thread => ![0, thread]

private theorem mem_row {order : List (BitVec 32)} (perm : order.Perm [0, 1])
    (idx : Vec (BitVec 32) 2) : idx ∈ order.map (fun x => ![0, x]) ↔ idx ∈ box ![1, 2] := by
  rw [List.mem_map]
  constructor
  · rintro ⟨x, member, rfl⟩
    have listed := perm.mem_iff.mp member
    simp only [List.mem_cons, List.not_mem_nil, or_false] at listed
    obtain rfl | rfl := listed <;> exact show ∀ d, _ < (![1, 2] : Vec (BitVec 32) 2) d by decide
  · intro inside
    have slow : idx 0 < 1 := inside 0
    have fast : idx 1 < 2 := inside 1
    have row : idx 0 = 0 := by bv_omega
    have column : idx 1 = 0 ∨ idx 1 = 1 := by bv_omega
    refine ⟨idx 1, perm.mem_iff.mpr (by simpa using column), ?_⟩
    funext d
    fin_cases d
    · exact row.symm
    · rfl

private theorem twoByTwo_proper : twoByTwo.Proper where
  blocks_pos := by decide
  threads_pos := by decide
  blocks_nodup := by decide
  mem_blocks := mem_row (by decide)
  threads_nodup := fun block phase => by
    unfold twoByTwo
    dsimp only
    split <;> decide
  mem_threads := fun block phase => by
    unfold twoByTwo
    dsimp only
    split <;> exact mem_row (by decide)

private instance : Std.Commutative sumOfSix.reduceFunc := ⟨Nat.add_comm⟩

private instance : Std.Associative sumOfSix.reduceFunc := ⟨Nat.add_assoc⟩

/-- A loop over a line without policies that divide, and packs of two elements. -/
private def pairDevice : Device := ⟨⟨.flat, .strided⟩, ⟨false, true, 1, 1, .flat, .contiguous⟩⟩

private theorem sumOfSix_frame : sumOfSix.chunkExtents = ![2, 2] := by
  have frame : (FrameSpec.getSimdFrameSpec pairs 1 ![2, 3]).frameExtents = ![2, 2] := by
    unfold FrameSpec.getSimdFrameSpec FrameSpec.getFrameSpec
    decide +kernel
  unfold sumOfSix
  rw [frame]
  decide

private theorem sumOfSix_data : sumOfSix.chunkDataExtent = ![2, 4] := by
  unfold Arguments.chunkDataExtent
  rw [sumOfSix_frame]
  decide

private theorem sumOfSix_fits : KernelFits pairDevice twoByTwo.numBlocks sumOfSix where
  workers := by
    rw [sumOfSix_data]
    decide
  slots := by
    rw [sumOfSix_frame]
    decide
  places := by
    rw [sumOfSix_frame]
    decide
  overFrames := by
    rw [sumOfSix_data, sumOfSix_frame]
    exact .inr (by decide)
  reductions := by
    rw [sumOfSix_data]
    refine ⟨?_, by decide⟩
    rw [ConcurrentFits, if_pos (by decide)]
    refine ⟨by decide, by decide, ?_, ?_⟩
    · rw [PacksFit, if_pos (by decide)]
      exact ⟨by decide, .inr (by decide)⟩
    · exact ⟨by decide, .inr (by decide)⟩
  sources := by
    rintro - idx ⟨inside, -⟩
    have last : Math.Strides.offset (Vec.toNats (![4, 1] : Vec (BitVec 32) 2)) ![1, 2] <
        2 ^ 32 := by decide
    refine .inr ((Math.Strides.offset_mono _ fun d => ?_).trans_lt last)
    have below : ∀ d, Vec.toNats (![2, 3] : Vec (BitVec 32) 2) d = (![1, 2] : Fin 2 → ℕ) d + 1 := by
      decide
    exact Nat.le_of_lt_succ ((inside d).trans_eq (below d))

theorem simdTransformReduceKernel_folds_sumOfSix :
    Settles (fun fuel => simdTransformReduceKernel pairDevice twoByTwo sumOfSix
        (fun address => address) (fun _ _ => 7) fuel 0)
      (sumOfSix.reduceFunc 0 ((Math.box (Vec.toNats (![2, 3] : Vec (BitVec 32) 2))).fold
        sumOfSix.reduceFunc 0 fun idx => 10 * (sumOfSix.inputs 0).get (fun address => address)
          idx)) := by
  have halved : halveLargest 2 ![2, 2] = ![1, 2] := by decide
  have exact : sumOfSix.chunkExtents.toNats = ![2, 2] := by
    rw [sumOfSix_frame]
    decide
  have cut : Settles (fun fuel => adjustToLimit 2 fuel ![2, 2]) ![1, 2] := by
    refine (Math.While.settles_step_iff (by decide)).mpr ?_
    rw [halved]
    exact Math.While.settles_of_done (by decide)
  have threads : Settles (fun fuel => adjustToLimit 2 fuel sumOfSix.chunkExtents.toNats)
      twoByTwo.numThreads.toNats := by
    have count : twoByTwo.numThreads.toNats = ![1, 2] := by decide
    rw [exact, count]
    exact cut
  refine simdTransformReduceKernel_folds Nat.zero_add .scalarFunc Nat.one_pos
    (show 0 < 8 from lane_positive) (fun d => ?_) one_le_two threads twoByTwo_proper sumOfSix_fits
    (fun address => address) (fun _ _ => 7) 0
  rw [exact]
  refine ⟨1, ?_⟩
  fin_cases d <;> rfl

/-- Ones at all indices of 32 bits, which are to be added up. -/
private def allOnes : Arguments ℕ ℕ (fun _ : Fin 0 => ℕ) 32 1 where
  sizeofValue := 8
  numChunks := ![1, 1]
  chunkExtents := Vec.ofNats (FrameSpec.getSimdFrameSpec pairs 1 ![65536, 65536]).frameExtents
  extentMd := ![65536, 65536]
  neutralElement := 0
  reduceFunc := (· + ·)
  transformFunc := .scalarFunc fun _ => 1
  inputs := nofun

private instance : Std.Commutative allOnes.reduceFunc := ⟨Nat.add_comm⟩

private instance : Std.Associative allOnes.reduceFunc := ⟨Nat.add_assoc⟩

private def oneThread : Launch 32 1 where
  numBlocks := ![1, 1]
  numThreads := ![1, 1]
  blocks := [![0, 0]]
  threads := fun _ _ => [![0, 0]]

/-- Single elements, and flat loops. -/
private def flatDevice : Device := ⟨⟨.flat, .strided⟩, ⟨false, true, 0, 1, .flat, .strided⟩⟩

private theorem mem_one (idx : Vec (BitVec 32) 2) : idx ∈ [![0, 0]] ↔ idx ∈ box ![1, 1] := by
  rw [List.mem_singleton]
  constructor
  · rintro rfl
    exact show ∀ d, _ < (![1, 1] : Vec (BitVec 32) 2) d by decide
  · intro inside
    have slow : idx 0 < 1 := inside 0
    have fast : idx 1 < 1 := inside 1
    have row : idx 0 = 0 := by bv_omega
    have column : idx 1 = 0 := by bv_omega
    funext d
    fin_cases d
    · exact row
    · exact column

private theorem oneThread_proper : oneThread.Proper where
  blocks_pos := by decide
  threads_pos := by decide
  blocks_nodup := by decide
  mem_blocks := mem_one
  threads_nodup := fun _ _ => List.nodup_singleton _
  mem_threads := fun _ _ => mem_one

private theorem allOnes_frame : allOnes.chunkExtents = ![32, 16] := by
  have frame : (FrameSpec.getSimdFrameSpec pairs 1 ![65536, 65536]).frameExtents = ![32, 16] := by
    unfold FrameSpec.getSimdFrameSpec FrameSpec.getFrameSpec
    decide +kernel
  unfold allOnes
  rw [frame]
  decide

private theorem allOnes_data : allOnes.chunkDataExtent = ![32, 16] := by
  unfold Arguments.chunkDataExtent
  rw [allOnes_frame]
  decide

private theorem allOnes_fits : FramesFit flatDevice oneThread.numBlocks allOnes where
  workers := by
    rw [allOnes_data]
    decide
  slots := by
    rw [allOnes_frame]
    decide
  places := by
    rw [allOnes_frame]
    decide
  overFrames := by
    rw [allOnes_data, allOnes_frame]
    exact .inr (by decide)

/-- A block of one thread is the frame cut down to one element. -/
private theorem oneThread_cut :
    Settles (fun fuel => adjustToLimit 1 fuel allOnes.chunkExtents.toNats)
      oneThread.numThreads.toNats := by
  have frame : allOnes.chunkExtents.toNats = ![32, 16] := by
    rw [allOnes_frame]
    decide
  obtain ⟨result, settles, shrunk, within⟩ :=
    adjustToLimit_settles ![32, 16] 1 (by decide) le_rfl
  have single : result = oneThread.numThreads.toNats := by
    rw [Vec.product_eq_prod] at within
    funext d
    have component : result d ≤ ∏ e, result e :=
      Finset.single_le_prod' (fun e _ => shrunk.one_le e) (Finset.mem_univ d)
    have one : oneThread.numThreads.toNats d = 1 := by
      fin_cases d <;> rfl
    rw [one]
    exact Nat.le_antisymm (component.trans within) (shrunk.one_le d)
  rw [frame, ← single]
  exact settles

/-- The product of the extents is zero in the index type, so that a worker sees no element. -/
private theorem run_none (workGroup : ThreadSpace (BitVec 32) 2) :
    Settles (makeIdxMap workGroup (IdxRange.ofExtents ![65536, 65536]) .flat .strided).run [] := by
  refine ⟨1, fun fuel enough => ?_⟩
  obtain ⟨rest, rfl⟩ : ∃ rest, fuel = rest + 1 := ⟨fuel - 1, by omega⟩
  let container : FlatIdxContainer (BitVec 32) 1 1 :=
    ⟨IdxRange.ofExtents ![65536, 65536], workGroup, .strided, id⟩
  have counts : (fun d => divCeil (IdxRange.distance (IdxRange.ofExtents
      (![65536, 65536] : Vec (BitVec 32) 2)) d) 1) = ![65536, 65536] := by decide
  have total : container.end = 0 := by
    change Vec.product (fun d => divCeil (IdxRange.distance (IdxRange.ofExtents
      (![65536, 65536] : Vec (BitVec 32) 2)) d) 1) = 0
    rw [counts]
    decide
  have ended : container.loop.done container.begin = true := by
    refine decide_eq_true ?_
    rw [total]
    exact BitVec.le_def.mpr (Nat.zero_le _)
  have visited : container.loop.run (rest + 1) container.begin = some [] := if_pos ended
  have divides : (IdxContainer.flat container).Divides := fun other => nomatch other
  have run : (IdxContainer.flat container).run (rest + 1) =
      (container.loop.run (rest + 1) container.begin).elim (.error .outOfFuel) .ok :=
    if_pos divides
  rw [visited] at run
  exact run

/-- There are ones to be added up. -/
private theorem ones_ne_zero {m : ℕ} {extents : Vec ℕ m} (positive : ∀ d, 0 < extents d) :
    0 ≠ allOnes.reduceFunc 0 ((Math.box extents).fold allOnes.reduceFunc 0 fun _ => 1) := by
  have some : 0 < ∑ _idx ∈ Math.box extents, 1 :=
    Finset.sum_pos (fun _ _ => Nat.one_pos) ⟨Vec.fill 0, Math.mem_box.mpr positive⟩
  exact (some.trans_eq (Nat.zero_add _).symm).ne

private theorem allOnes_shape : Shape oneThread allOnes := by
  refine shape_of_limit (fun d => ?_) le_rfl oneThread_cut
  rw [allOnes_frame]
  fin_cases d
  · exact ⟨5, rfl⟩
  · exact ⟨4, rfl⟩

private theorem allOnes_workers : WorkersReduce flatDevice allOnes (fun _ => 0) fun _ => 0 := by
  have single : ¬ flatDevice.reduction.simdWidth ≠ 1 := by decide
  intro idx _
  unfold transformReduce
  simp only [if_neg single]
  exact (run_none _).bind (Settles.pure _)

/-- The kernel adds nothing. -/
private theorem allOnes_settles : Settles (fun fuel => simdTransformReduceKernel flatDevice
    oneThread allOnes (fun _ => 0) (fun _ _ => 0) fuel 0) 0 := by
  have nothing := kernel_adds ⟨rfl, rfl⟩ lane_positive oneThread_proper allOnes_shape allOnes_fits
    allOnes_workers (fun _ _ => 0) 0
  rwa [Finset.sum_const_zero, Nat.zero_add] at nothing

/-- A flat loop over as many elements as there are numbers of 32 bits sees none of them, and
nothing is added to the output. -/
theorem simdTransformReduceKernel_lost :
    (∀ x, allOnes.reduceFunc allOnes.neutralElement x = x) ∧ oneThread.Proper ∧
      Settles (fun fuel => adjustToLimit 1 fuel allOnes.chunkExtents.toNats)
        oneThread.numThreads.toNats ∧
      ¬ Settles (fun fuel => simdTransformReduceKernel flatDevice oneThread allOnes (fun _ => 0)
          (fun _ _ => 0) fuel 0)
        (allOnes.reduceFunc 0 ((Math.box (Vec.toNats (![65536, 65536] : Vec (BitVec 32) 2))).fold
          allOnes.reduceFunc 0 fun _ => 1)) := by
  have present : ∀ d, 0 < Vec.toNats (![65536, 65536] : Vec (BitVec 32) 2) d := by decide
  exact ⟨Nat.zero_add, oneThread_proper, oneThread_cut,
    fun settles => ones_ne_zero present (allOnes_settles.unique settles)⟩

end Alpaka.TransformReduce
