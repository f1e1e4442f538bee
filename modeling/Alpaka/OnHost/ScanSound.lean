import Alpaka.OnHost.ScanParameters
import Alpaka.OnHost.ScanWidth

/-! # The scan of all elements

A level of the recursion scans the chunks, scans the sums of the chunks by the next level,
and adds them. Every level works in its own part of the scratch buffer. With the buffer that
the host asks for, and where nothing overflows on any level (`Alpaka.Scan.LevelsFit`), the
output ends up with the prefix sums of the input, also when both are the same memory
(`Alpaka.Scan.scan_computes`). Where the length cannot be rounded up to whole chunks, there are
no chunks at all, and the memory stays as it is.
-/

namespace Alpaka.Scan

open Finset (range sum_congr)
open IdxContainer (LoopFits)
open Math (Settles)
open Math.Sweep (sum_range_blocks)

attribute [local instance (2000)] neZero_one

variable {w : ℕ} {Address M : Type}

/-- The sum of what is before an element, with or without the element itself. -/
def prefixSum [AddCommMonoid M] (scanType : ScanType) (values : ℕ → M) (i : ℕ) : M :=
  match scanType with
  | .exclusiveScan => ∑ j ∈ range i, values j
  | .inclusiveScan => ∑ j ∈ range (i + 1), values j

/-- The launches of a level are those of proper configurations. -/
structure Launches.Proper (device : Device) (launches : Launches) : Prop where
  scanBlocks : launches.scanBlocks.Proper device
  addIncrements : launches.addIncrements.Proper

/-- The memory a scan is given. The output may be the input itself, element for element; the
bytes of the buffer are apart from both. -/
structure Apart (device : Device) (extent : ℕ) (buffer outputVec inputVec : ℕ → Address) :
    Prop where
  outputs : Set.InjOn outputVec (Set.Iio extent)
  aligned : ∀ i < extent, ∀ j < extent, outputVec i = inputVec j → i = j
  bytes : Set.InjOn buffer (Set.Iio (scanBufferSize device extent))
  buffer : ∀ b < scanBufferSize device extent, ∀ i < extent,
    buffer b ≠ outputVec i ∧ buffer b ≠ inputVec i

/-- What a scan makes of the memory. -/
structure Scanned [AddCommMonoid M] (device : Device) (scanType : ScanType) (extent : ℕ)
    (buffer outputVec inputVec : ℕ → Address) (before after : Memory Address M) : Prop where
  outputs : ∀ i < extent, after (.global (outputVec i)) =
    prefixSum scanType (fun j => before (.global (inputVec j))) i
  unchanged : ∀ address, (∀ i < extent, address ≠ outputVec i) →
    (∀ b < scanBufferSize device extent, address ≠ buffer b) →
      after (.global address) = before (.global address)

/-! ## The buffer of a level -/

section Buffer

variable {device : Device} {extent : ℕ} {buffer outputVec inputVec : ℕ → Address}

/-- Where a level keeps the sums of its chunks. -/
def increments (device : Device) (buffer : ℕ → Address) (i : ℕ) : Address :=
  buffer (i * device.arch.sizeofValue)

/-- What a level leaves to the next one. -/
def bufferNext (device : Device) (numFrames : ℕ) (buffer : ℕ → Address) (b : ℕ) : Address :=
  buffer (numFrames * device.arch.sizeofValue + b)

/-- A level takes one element for each chunk. -/
theorem scanBufferSize_several (several : 1 < divCeil extent chunkSize) :
    scanBufferSize device extent = divCeil extent chunkSize * device.arch.sizeofValue +
      scanBufferSize device (divCeil extent chunkSize) := by
  unfold scanBufferSize
  rw [scanBufferElements, if_pos several, Nat.add_mul]

private theorem increment_lt (several : 1 < divCeil extent chunkSize) {c : ℕ}
    (below : c < divCeil extent chunkSize) :
    c * device.arch.sizeofValue < scanBufferSize device extent := by
  rw [scanBufferSize_several several]
  have first := Nat.mul_lt_mul_of_pos_right below device.arch.positive
  exact first.trans_le (Nat.le_add_right _ _)

private theorem next_lt (several : 1 < divCeil extent chunkSize) {b : ℕ}
    (below : b < scanBufferSize device (divCeil extent chunkSize)) :
    divCeil extent chunkSize * device.arch.sizeofValue + b < scanBufferSize device extent := by
  rw [scanBufferSize_several several]
  exact Nat.add_lt_add_left below _

namespace Apart

variable (apart : Apart device extent buffer outputVec inputVec)
include apart

private theorem increments_inj (several : 1 < divCeil extent chunkSize) :
    Set.InjOn (increments device buffer) (Set.Iio (divCeil extent chunkSize)) := by
  intro c below c' below' same
  have places := apart.bytes (increment_lt several below) (increment_lt several below') same
  exact Nat.eq_of_mul_eq_mul_right device.arch.positive places

/-- The memory of the next level. -/
private theorem next (several : 1 < divCeil extent chunkSize) :
    Apart device (divCeil extent chunkSize)
      (bufferNext device (divCeil extent chunkSize) buffer) (increments device buffer)
      (increments device buffer) where
  outputs := apart.increments_inj several
  aligned := fun c below c' below' same => apart.increments_inj several below below' same
  bytes := by
    intro b below b' below' same
    exact Nat.add_left_cancel (apart.bytes (next_lt several below) (next_lt several below') same)
  buffer := by
    intro b below c below'
    have different : bufferNext device (divCeil extent chunkSize) buffer b ≠
        increments device buffer c := by
      intro same
      have places := apart.bytes (next_lt several below) (increment_lt several below') same
      have first := Nat.mul_lt_mul_of_pos_right below' device.arch.positive
      omega
    exact ⟨different, different⟩

/-- What the kernel for the chunks is given when their sums are wanted. -/
private theorem several {launch : BlocksLaunch} (proper : launch.Proper device)
    (scanType : ScanType) (several : 1 < divCeil extent chunkSize) :
    BlocksArgs.Separate ⟨scanType, extent, inputVec, outputVec, some (increments device buffer)⟩
      (numChunks launch ⟨scanType, extent, inputVec, outputVec, some (increments device buffer)⟩)
      where
  outputs := apart.outputs
  aligned := apart.aligned
  sums := by
    intro sums held
    obtain rfl := Option.mem_some.mp held
    unfold numChunks
    rw [proper.chunkExtent_eq]
    exact ⟨apart.increments_inj several, fun c below => apart.buffer _ (increment_lt several below)⟩

/-- What the kernel for a single chunk is given. -/
private theorem single (scanType : ScanType) (chunks : ℕ) :
    BlocksArgs.Separate ⟨scanType, extent, inputVec, outputVec, none⟩ chunks where
  outputs := apart.outputs
  aligned := apart.aligned
  sums := by
    intro sums held
    cases held

end Apart

end Buffer

/-! ## The values of a level -/

section Values

variable [AddCommMonoid M] {device : Device} {launch : BlocksLaunch} {args : BlocksArgs ℕ Address}
  {memory : Memory Address M}

/-- The elements of the input, and zeros behind them. -/
private def padded (args : BlocksArgs ℕ Address) (memory : Memory Address M) (i : ℕ) : M :=
  if i < args.numElements then memory (.global (args.inputVec i)) else 0

private theorem chunkInput_eq (proper : launch.Proper device) (c p : ℕ) :
    chunkInput launch args c memory p = padded args memory (c * chunkSize + p) := by
  unfold chunkInput padded
  rw [proper.chunkExtent_eq, Nat.mul_comm]

private theorem sum_padded {i : ℕ} (inside : i ≤ args.numElements) :
    ∑ j ∈ range i, padded args memory j = ∑ j ∈ range i, memory (.global (args.inputVec j)) := by
  apply sum_congr rfl
  intro j below
  exact if_pos ((Finset.mem_range.mp below).trans_le inside)

/-- The value in the chunk and the sums of the chunks before are the prefix sum. -/
private theorem finalValue_add (proper : launch.Proper device) (args : BlocksArgs ℕ Address)
    (memory : Memory Address M) {c p : ℕ} (here : c * chunkSize + p < args.numElements) :
    finalValue launch args c p (∑ j ∈ range p, chunkInput launch args c memory j) memory +
        ∑ k ∈ range c, ∑ j ∈ range chunkSize, chunkInput launch args k memory j =
      prefixSum args.scanType (fun j => memory (.global (args.inputVec j)))
        (c * chunkSize + p) := by
  have before : ∑ j ∈ range p, chunkInput launch args c memory j +
      ∑ k ∈ range c, ∑ j ∈ range chunkSize, chunkInput launch args k memory j =
        ∑ j ∈ range (c * chunkSize + p), memory (.global (args.inputVec j)) := by
    simp only [chunkInput_eq proper]
    rw [add_comm, sum_range_blocks, sum_padded here.le]
  unfold finalValue prefixSum
  cases args.scanType with
  | exclusiveScan => exact before
  | inclusiveScan =>
      dsimp only
      rw [add_assoc, before, proper.chunkExtent_eq, Nat.mul_comm chunkSize, add_comm]
      exact (Finset.sum_range_succ _ _).symm

end Values

/-! ## The memory of a level -/

section Memory

variable [AddCommMonoid M] {device : Device} {extent : ℕ}
  {buffer outputVec inputVec : ℕ → Address} {scanType : ScanType} {launch : BlocksLaunch}

/-- A single scanned chunk is all there is to scan. -/
private theorem ChunksScanned.single (proper : launch.Proper device)
    (few : ¬ 1 < divCeil extent chunkSize) {memory after : Memory Address M}
    (chunks : ChunksScanned launch ⟨scanType, extent, inputVec, outputVec, none⟩ memory after) :
    Scanned device scanType extent buffer outputVec inputVec memory after where
  outputs := by
    intro i below
    have inChunk : i < chunkSize := by
      have whole := le_divCeil_mul (by decide : 0 < chunkSize) extent
      have first := Nat.mul_le_mul_right chunkSize (Nat.le_of_not_lt few)
      omega
    have here : 0 * chunkSize + i < extent := by omega
    have value := finalValue_add proper ⟨scanType, extent, inputVec, outputVec, none⟩ memory here
    rw [Nat.zero_mul, Nat.zero_add, Finset.range_zero, Finset.sum_empty, add_zero] at value
    have written := chunks.outputs 0 i (proper.chunkExtent_eq ▸ inChunk)
      (by rwa [Nat.mul_zero, Nat.zero_add])
    rw [Nat.mul_zero, Nat.zero_add] at written
    exact written.trans value
  unchanged := by
    intro address outputs _
    exact chunks.unchanged address outputs fun sums held => by cases held

private theorem chunk_lt {i : ℕ} (below : i < extent) :
    i / chunkSize < divCeil extent chunkSize := by
  apply Nat.div_lt_of_lt_mul
  rw [Nat.mul_comm]
  exact below.trans_le (le_divCeil_mul (by decide) extent)

/-- Scanned chunks whose scanned sums are added to them are scanned together. -/
private theorem ChunksScanned.several (proper : launch.Proper device)
    (several : 1 < divCeil extent chunkSize)
    (apart : Apart device extent buffer outputVec inputVec)
    {memory scanned summed added : Memory Address M}
    (chunks : ChunksScanned launch
      ⟨scanType, extent, inputVec, outputVec, some (increments device buffer)⟩ memory scanned)
    (sums : Scanned device .exclusiveScan (divCeil extent chunkSize)
      (bufferNext device (divCeil extent chunkSize) buffer) (increments device buffer)
      (increments device buffer) scanned summed)
    (increased : IncrementsAdded extent (increments device buffer) outputVec summed added) :
    Scanned device scanType extent buffer outputVec inputVec memory added where
  outputs := by
    intro i below
    have place : launch.chunkExtent * (i / chunkSize) + i % chunkSize = i := by
      rw [proper.chunkExtent_eq, Nat.div_add_mod]
    have index : i / chunkSize * chunkSize + i % chunkSize = i := Nat.div_add_mod' i chunkSize
    have inChunk : i % chunkSize < launch.chunkExtent := by
      rw [proper.chunkExtent_eq]
      exact Nat.mod_lt i (by decide)
    have written := chunks.outputs (i / chunkSize) (i % chunkSize) inChunk (place.symm ▸ below)
    have kept : summed (.global (outputVec i)) = scanned (.global (outputVec i)) := by
      apply sums.unchanged
      · intro c inside same
        exact (apart.buffer _ (increment_lt several inside) i below).1 same.symm
      · intro b inside same
        exact (apart.buffer _ (next_lt several inside) i below).1 same.symm
    have before : summed (.global (increments device buffer (i / chunkSize))) =
        ∑ k ∈ range (i / chunkSize), ∑ j ∈ range chunkSize, chunkInput launch
          ⟨scanType, extent, inputVec, outputVec, some (increments device buffer)⟩
            k memory j := by
      rw [sums.outputs _ (chunk_lt below)]
      apply sum_congr rfl
      intro k earlier
      rw [← proper.chunkExtent_eq]
      apply chunks.sums _ rfl
      unfold numChunks
      rw [proper.chunkExtent_eq]
      exact (Finset.mem_range.mp earlier).trans (chunk_lt below)
    rw [place] at written
    rw [increased.outputs i below, kept, written, before]
    have value := finalValue_add proper
      ⟨scanType, extent, inputVec, outputVec, some (increments device buffer)⟩ memory
      (index.symm ▸ below : i / chunkSize * chunkSize + i % chunkSize < extent)
    rw [index] at value
    exact value
  unchanged := by
    intro address outputs bytes
    have apartSums : ∀ c < divCeil extent chunkSize, address ≠ increments device buffer c := by
      intro c inside
      exact bytes _ (increment_lt several inside)
    have first : scanned (.global address) = memory (.global address) := by
      apply chunks.unchanged address outputs
      intro saved held c inside
      obtain rfl := Option.mem_some.mp held
      unfold numChunks at inside
      rw [proper.chunkExtent_eq] at inside
      exact apartSums c inside
    have second : summed (.global address) = scanned (.global address) :=
      sums.unchanged address apartSums fun b inside => bytes _ (next_lt several inside)
    exact (increased.unchanged address outputs).trans (second.trans first)

end Memory

/-! ## The recursion -/

/-- Nothing overflows where the chunks are scanned: the length is rounded up to whole chunks,
and the blocks loop over the chunks. -/
structure BlocksFit (device : Device) (launch : BlocksLaunch) (extent : BitVec w) : Prop where
  whole : extent.toNat + (chunkSize - 1) < 2 ^ w
  chunks : LoopFits ⟨![0], ![divCeil extent (IdxValue.ofNat chunkSize)], ![1]⟩
    ![(launch.numBlocks : BitVec w)] device.idxPolicy.traverse device.idxPolicy.layout

/-- Nothing overflows where the increments are added: the threads of the grid are counted, and
they loop over the elements. -/
structure IncrementsFit (device : Device) (launch : GridLaunch) (extent : BitVec w) : Prop where
  narrow : launch.numBlocks * launch.numThreads < 2 ^ w
  elements : ConcurrentFits (simdConfig device).simdWidth (simdConfig device).numSimdPacksPerFnCall
    device.simdPolicy.traverse device.simdPolicy.layout
    ![((launch.numBlocks * launch.numThreads : ℕ) : BitVec w)] ![extent]

/-- Nothing overflows on a level and the levels below. Where the sums of the chunks take several
chunks themselves, the bytes of all sums are counted too. -/
inductive LevelsFit (device : Device) (launches : ℕ → Launches) : ℕ → BitVec w → Prop
  | single {level : ℕ} {extent : BitVec w} (few : ¬ 1 < divCeil extent.toNat chunkSize)
      (blocks : BlocksFit device (launches level).scanBlocks extent) :
      LevelsFit device launches level extent
  | several {level : ℕ} {extent : BitVec w} (several : 1 < divCeil extent.toNat chunkSize)
      (blocks : BlocksFit device (launches level).scanBlocks extent)
      (increments : IncrementsFit device (launches level).addIncrements extent)
      (bytes : 1 < divCeil (divCeil extent.toNat chunkSize) chunkSize →
        divCeil extent.toNat chunkSize * device.arch.sizeofValue < 2 ^ w)
      (next : LevelsFit device launches (level + 1) (divCeil extent (IdxValue.ofNat chunkSize))) :
      LevelsFit device launches level extent

section Recursion

variable [DecidableEq Address] [AddCommMonoid M] {device : Device} {launches : ℕ → Launches}

/-- The chunks of a level are scanned. -/
private theorem scanBlocksKernel_fits (wide : 16 ≤ w) {launch : BlocksLaunch}
    (proper : launch.Proper device) {extent : BitVec w}
    (some : 0 < extent.toNat → 0 < launch.numBlocks) (narrow : launch.numBlocks < 2 ^ w)
    (fits : BlocksFit device launch extent)
    {scanType : ScanType} {inputVec outputVec : ℕ → Address} {blockSums : Option (ℕ → Address)}
    (separate : BlocksArgs.Separate ⟨scanType, extent.toNat, inputVec, outputVec, blockSums⟩
      (numChunks launch ⟨scanType, extent.toNat, inputVec, outputVec, blockSums⟩))
    (memory : Memory Address M) :
    ∃ after, Settles (fun fuel => scanBlocksKernel device launch
        ⟨scanType, extent, inputVec, outputVec, blockSums⟩ fuel memory) after ∧
      ChunksScanned launch ⟨scanType, extent.toNat, inputVec, outputVec, blockSums⟩ memory
        after := by
  obtain ⟨after, settles, chunks⟩ := scanBlocksKernel_scans proper some separate memory
  refine ⟨after, ?_, chunks⟩
  refine scanBlocksKernel_words wide proper fits.whole narrow ?_ memory settles
  unfold numChunks
  rw [proper.chunkExtent_eq]
  exact fits.chunks

/-- Whether a level recurses. -/
private theorem one_lt_frames (wide : 16 ≤ w) {extent : BitVec w}
    (whole : extent.toNat + (chunkSize - 1) < 2 ^ w) :
    1 < divCeil extent (IdxValue.ofNat chunkSize) ↔ 1 < divCeil extent.toNat chunkSize := by
  have one : (1 : BitVec w).toNat = 1 := Nat.mod_eq_of_lt ((by decide : 1 < 2 ^ 16).trans_le
    (Nat.pow_le_pow_right Nat.two_pos wide))
  rw [BitVec.lt_def, one, toNat_numFrames wide whole]

/-- Every level scans its elements. A level that does not recurse ignores the buffer. -/
theorem scan_scanned (wide : 16 ≤ w) (proper : ∀ level, (launches level).Proper device)
    {level : ℕ} {extent : BitVec w} (fits : LevelsFit device launches level extent)
    (present : 0 < extent.toNat → ∀ level, 0 < (launches level).scanBlocks.numBlocks)
    (narrow : ∀ level, (launches level).scanBlocks.numBlocks < 2 ^ w)
    (scanType : ScanType) {buffer outputVec inputVec : ℕ → Address}
    (apart : Apart device extent.toNat buffer outputVec inputVec) {given : ℕ → Address}
    (used : 1 < divCeil extent.toNat chunkSize → given = buffer) (memory : Memory Address M) :
    ∃ after, Settles (fun fuel => scan device launches fuel level scanType extent given
        outputVec inputVec memory) after ∧
      Scanned device scanType extent.toNat buffer outputVec inputVec memory after := by
  induction fits generalizing scanType buffer outputVec inputVec given memory with
  | @single level extent few blocks =>
      obtain ⟨after, settles, chunks⟩ := scanBlocksKernel_fits wide (proper level).scanBlocks
        (fun positive => present positive level) (narrow level) blocks (apart.single scanType _)
        memory
      refine ⟨after, settles.succ fun fuel => ?_, chunks.single (proper level).scanBlocks few⟩
      exact if_neg (mt (one_lt_frames wide blocks.whole).mp few)
  | @several level extent several blocks increased bytes next ih =>
      obtain rfl := used several
      have frames := toNat_numFrames wide blocks.whole
      have positive : 0 < extent.toNat := by
        unfold divCeil chunkSize at several
        omega
      obtain ⟨scanned, settlesBlocks, chunks⟩ := scanBlocksKernel_fits wide
        (proper level).scanBlocks (fun positive => present positive level) (narrow level) blocks
        (apart.several (proper level).scanBlocks scanType several) memory
      have apartNext := apart.next several
      rw [← frames] at apartNext
      have rest (recurses : 1 < divCeil (divCeil extent (IdxValue.ofNat chunkSize)).toNat
          chunkSize) : (fun i => given (IdxValue.toNat (divCeil extent (IdxValue.ofNat chunkSize) *
            IdxValue.ofNat device.arch.sizeofValue) + i)) =
          bufferNext device (divCeil extent (IdxValue.ofNat chunkSize)).toNat given := by
        rw [frames] at recurses
        have size : (divCeil extent (IdxValue.ofNat chunkSize) *
            IdxValue.ofNat device.arch.sizeofValue).toNat =
              (divCeil extent (IdxValue.ofNat chunkSize)).toNat * device.arch.sizeofValue := by
          rw [BitVec.toNat_mul]
          change (_ * (device.arch.sizeofValue % 2 ^ w)) % 2 ^ w = _
          rw [Nat.mul_mod, Nat.mod_mod, ← Nat.mul_mod, frames]
          exact Nat.mod_eq_of_lt (bytes recurses)
        unfold bufferNext
        rw [← size]
        rfl
      obtain ⟨summed, settlesSums, sums⟩ :=
        ih (fun _ => present positive) .exclusiveScan apartNext rest scanned
      rw [frames] at sums
      have fresh : ∀ i < extent.toNat, ∀ j < extent.toNat,
          increments device given (i / chunkSize) ≠ outputVec j := by
        intro i below j below'
        exact (apart.buffer _ (increment_lt several (chunk_lt below)) j below').1
      obtain ⟨added, settlesAdd, adds⟩ :=
        scanAddIncrementsKernel_adds (proper level).addIncrements device apart.outputs fresh summed
      have settlesWords := scanAddIncrementsKernel_words wide (proper level).addIncrements
        increased.narrow increased.elements summed settlesAdd
      refine ⟨added, ?_, chunks.several (proper level).scanBlocks several apart sums adds⟩
      have stages : Settles (fun fuel =>
          scanBlocksKernel device (launches level).scanBlocks
              ⟨scanType, extent, inputVec, outputVec, some (increments device given)⟩ fuel
              memory >>= fun memory =>
            scan device launches fuel (level + 1) .exclusiveScan
              (divCeil extent (IdxValue.ofNat chunkSize)) (fun i => given (IdxValue.toNat
                (divCeil extent (IdxValue.ofNat chunkSize) *
                  IdxValue.ofNat device.arch.sizeofValue) + i))
              (increments device given) (increments device given) memory >>= fun memory =>
            scanAddIncrementsKernel device (launches level).addIncrements extent
              (increments device given) outputVec fuel memory) added :=
        settlesBlocks.bind (settlesSums.bind settlesWords)
      refine stages.succ fun fuel => ?_
      exact if_pos ((one_lt_frames wide blocks.whole).mpr several)

/-- The host function returns, and the output is the prefix sums of the input. -/
def ComputesPrefixSums (device : Device) (launches : ℕ → Launches) (scanType : ScanType)
    (extent : BitVec w) (buffer outputVec inputVec : ℕ → Address) (memory : Memory Address M) :
    Prop :=
  ∃ after, Settles (fun fuel => scan device launches fuel 0 scanType extent buffer outputVec
      inputVec memory) after ∧
    ∀ i < extent.toNat, after (.global (outputVec i)) =
      prefixSum scanType (fun j => memory (.global (inputVec j))) i

/-- Where the length cannot be rounded up, there are no chunks and the memory stays. -/
private theorem scan_wraps (wide : 16 ≤ w) {level : ℕ}
    (proper : (launches level).scanBlocks.Proper device)
    (narrow : (launches level).scanBlocks.numBlocks < 2 ^ w) {extent : BitVec w}
    (wraps : 2 ^ w ≤ extent.toNat + (chunkSize - 1)) (scanType : ScanType)
    (buffer outputVec inputVec : ℕ → Address) (memory : Memory Address M) :
    Settles (fun fuel => scan device launches fuel level scanType extent buffer outputVec inputVec
      memory) memory := by
  have none : divCeil extent (IdxValue.ofNat chunkSize) = 0 := by
    have below := extent.isLt
    have chunk := chunkSize_lt wide
    have rounded := toNat_divCeil (w := w) (by decide) chunk extent (Nat.mod_eq_of_lt below).symm
    apply BitVec.eq_of_toNat_eq
    refine rounded.trans ?_
    rw [Nat.mod_eq_sub_mod (by exact wraps), Nat.mod_eq_of_lt (by omega)]
    refine (Nat.div_eq_of_lt ?_).trans (Nat.zero_mod _).symm
    omega
  have chunks : numChunks (launches level).scanBlocks
      (⟨scanType, extent, inputVec, outputVec, Option.none⟩ : BlocksArgs (BitVec w) Address) =
        0 := by
    unfold numChunks
    rw [proper.chunkExtent_eq]
    exact none
  have kept : Settles (fun fuel => scanBlocksKernel device (launches level).scanBlocks
      ⟨scanType, extent, inputVec, outputVec, Option.none⟩ fuel memory)
      ((launches level).scanBlocks.blocks.foldl (fun memory _ => memory) memory) := by
    unfold scanBlocksKernel
    refine Settles.foldlM (fun block member memory => ?_) memory
    rw [chunks]
    have below : block < (launches level).scanBlocks.numBlocks :=
      List.mem_range.mp (proper.blocks_perm.mem_iff.mp member)
    exact (lineIdxs_zero device.idxPolicy below narrow).bind (Settles.pure _)
  rw [List.foldl_fixed] at kept
  refine kept.succ fun fuel => ?_
  refine if_neg ?_
  rw [none]
  exact Nat.not_lt_zero _

/-- A memory with a single element that is not zero. -/
private def onlyFirst (inputVec : ℕ → Address) (m : M) : Memory Address M :=
  Function.update 0 (.global (inputVec 0)) m

private theorem onlyFirst_zero (inputVec : ℕ → Address) (m : M) :
    onlyFirst inputVec m (.global (inputVec 0)) = m :=
  Function.update_self _ _ _

private theorem onlyFirst_of_ne {inputVec : ℕ → Address} {address : Address}
    (other : address ≠ inputVec 0) {m : M} : onlyFirst inputVec m (.global address) = 0 :=
  Function.update_of_ne (fun same => other (Location.global.inj same)) _ _

/-- **Scan computes prefix sums.** Where nothing overflows on any level, the output gets the
prefix sums of the input, which may be the output itself, whatever the length, the
configurations of the kernels and the orders of blocks and threads. It does so for every input
only where the length can be rounded up to whole chunks. -/
theorem scan_computes (wide : 16 ≤ w) (proper : ∀ level, (launches level).Proper device)
    {extent : BitVec w}
    (blocks : 0 < extent.toNat → ∀ level, 0 < (launches level).scanBlocks.numBlocks)
    (narrow : ∀ level, (launches level).scanBlocks.numBlocks < 2 ^ w)
    (scanType : ScanType) {buffer outputVec inputVec : ℕ → Address}
    (apart : Apart device extent.toNat buffer outputVec inputVec) :
    (LevelsFit device launches 0 extent → ∀ memory : Memory Address M,
      ComputesPrefixSums device launches scanType extent buffer outputVec inputVec memory) ∧
    ∀ m : M, m ≠ 0 → (∀ memory : Memory Address M,
      ComputesPrefixSums device launches scanType extent buffer outputVec inputVec memory) →
        extent.toNat + (chunkSize - 1) < 2 ^ w := by
  constructor
  · intro fits memory
    obtain ⟨after, settles, scanned⟩ := scan_scanned wide proper fits blocks narrow
      scanType apart (fun _ => rfl) memory
    exact ⟨after, settles, scanned.outputs⟩
  · intro m nonzero computes
    by_contra wraps
    have many : 1 < extent.toNat := by
      have chunk := chunkSize_lt wide
      unfold chunkSize at chunk wraps
      omega
    have first : 0 < extent.toNat := Nat.zero_lt_of_lt many
    -- the first element is all there is to sum up
    obtain ⟨after, settles, outputs⟩ := computes (onlyFirst inputVec m)
    obtain rfl := settles.unique (scan_wraps wide (proper 0).scanBlocks (narrow 0)
      (not_lt.mp wraps) scanType buffer outputVec inputVec _)
    have second : outputVec 1 ≠ inputVec 0 := fun same =>
      absurd (apart.aligned 1 many 0 first same) (by decide)
    cases scanType with
    | exclusiveScan =>
        have sum := outputs 1 many
        rw [onlyFirst_of_ne second, prefixSum, Finset.sum_range_one, onlyFirst_zero] at sum
        exact nonzero sum.symm
    | inclusiveScan =>
        by_cases inPlace : outputVec 0 = inputVec 0
        · have other : inputVec 1 ≠ inputVec 0 := fun same =>
            absurd (apart.aligned 0 first 1 many (inPlace.trans same.symm)) (by decide)
          have sum := outputs 1 many
          rw [onlyFirst_of_ne second, prefixSum, Finset.sum_range_succ, Finset.sum_range_one,
            onlyFirst_zero, onlyFirst_of_ne other, add_zero] at sum
          exact nonzero sum.symm
        · have sum := outputs 0 first
          rw [onlyFirst_of_ne inPlace, prefixSum, Finset.sum_range_one, onlyFirst_zero] at sum
          exact nonzero sum.symm

/-- Blocks and threads one after the other. -/
private def inOrder (numBlocks numThreads : ℕ) : Launches :=
  ⟨⟨numBlocks, numThreads, List.range numBlocks, fun _ _ _ => List.range numThreads⟩,
    ⟨numBlocks, numThreads, List.range (numBlocks * numThreads)⟩⟩

private theorem inOrder_proper {numBlocks numThreads : ℕ} (several : 0 < numBlocks)
    (threads : numThreads ∣ chunkSize)
    (miniBlocks : (inOrder numBlocks numThreads).scanBlocks.miniBlockSize device ∣
      (inOrder numBlocks numThreads).scanBlocks.elsPerThread) :
    (inOrder numBlocks numThreads).Proper device where
  scanBlocks := ⟨threads, miniBlocks, List.Perm.refl _, fun _ _ _ => List.Perm.refl _⟩
  addIncrements := ⟨threads, several, List.Perm.refl _⟩

/-- The bytes behind the elements are apart from them. -/
private theorem inPlace_apart {device : Device} (extent : ℕ) :
    Apart device extent (extent + ·) id id where
  outputs := fun _ _ _ _ same => same
  aligned := fun _ _ _ _ same => same
  bytes := fun _ _ _ _ same => Nat.add_left_cancel same
  buffer := by
    intro b _ i below
    have apart : extent + b ≠ i := by omega
    exact ⟨apart, apart⟩

/-- A CPU with elements of four bytes. -/
private def cpu : Device := ofKind .cpu (cpuDevice 4 (Nat.succ_pos 3))

private theorem threeBlocks_proper (_ : ℕ) : (inOrder 3 256).Proper cpu :=
  inOrder_proper (by decide) (by decide) (by decide)

/-- Three chunks and their three sums overflow nowhere. -/
private theorem threeBlocks_fit : LevelsFit cpu (fun _ => inOrder 3 256) 0 (5000 : BitVec 32) := by
  refine .several (by decide) ⟨by decide, .inr (by decide)⟩ ⟨by decide, ?_⟩
    (fun recurses => absurd recurses (by decide))
    (.single (by decide) ⟨by decide, .inr (by decide)⟩)
  rw [ConcurrentFits, if_pos (by decide)]
  refine ⟨by decide, by decide, ?_, .inr (by decide)⟩
  rw [PacksFit, if_neg (by decide)]
  exact .inr (by decide)

/-- Five thousand numbers in place. -/
theorem scan_computes_inPlace :
    ComputesPrefixSums cpu (fun _ => inOrder 3 256) .inclusiveScan (5000 : BitVec 32) (5000 + ·) id
        id (fun _ : Location ℕ => 1) ∧
      (5000 : BitVec 32).toNat + (chunkSize - 1) < 2 ^ 32 := by
  obtain ⟨computes, rounded⟩ := scan_computes (M := ℕ) (by decide) threeBlocks_proper
    (fun _ _ => by decide) (fun _ => by decide) .inclusiveScan
    (inPlace_apart (5000 : BitVec 32).toNat)
  exact ⟨computes threeBlocks_fit _, rounded 1 one_ne_zero (computes threeBlocks_fit)⟩

/-- **No chunk.** The number of chunks wraps around to zero, and the memory stays. -/
theorem scan_unchanged :
    Apart cpu (4294967295 : BitVec 32).toNat (4294967295 + ·) id id ∧
      ¬ ComputesPrefixSums cpu (fun _ => inOrder 3 256) .exclusiveScan (4294967295 : BitVec 32)
        (4294967295 + ·) id id (fun _ : Location ℕ => 1) := by
  refine ⟨inPlace_apart _, ?_⟩
  rintro ⟨after, settles, outputs⟩
  have kept : Settles (fun fuel => scan cpu (fun _ => inOrder 3 256) fuel 0 .exclusiveScan
      (4294967295 : BitVec 32) (4294967295 + ·) id id fun _ : Location ℕ => 1) fun _ => 1 := by
    refine scan_wraps (by decide) ?_ (by decide) (by decide) _ _ id id _
    exact (threeBlocks_proper 0).scanBlocks
  obtain rfl := settles.unique kept
  exact absurd (outputs 0 (by decide)) (by decide)

end Recursion

end Alpaka.Scan
