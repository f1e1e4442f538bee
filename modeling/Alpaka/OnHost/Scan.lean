import Alpaka.Math.Sweep
import Alpaka.OnAcc.Phases
import Alpaka.OnAcc.SimdConcurrent
import Alpaka.OnAcc.SimdConfig

/-! # Scan

Prefix sums in chunks. A kernel scans each chunk for itself: every thread scans mini
blocks in its registers, and the block sweeps over the sums of the mini blocks in
shared memory. The sums of the chunks are scanned by recursion, and a second kernel
adds them to the elements.

The locations of a kernel are the memory of the device, the shared memory of its
blocks and the registers of its threads. Blocks come in any order, and between two
barriers so do the threads.
-/

namespace Alpaka.Scan

open Math (Settles progression)
open Math.Loop (Fault)
open Math.Sweep (upPair downPair upSteps downSteps)

attribute [local instance (2000)] neZero_one

inductive ScanType
  | exclusiveScan
  | inclusiveScan
  deriving DecidableEq

def chunkSize : ℕ := 2048

/-- A location that a kernel reads or writes. -/
inductive Location (Address : Type)
  | global (address : Address)
  | shared (block idx : ℕ)
  | register (block thread idx : ℕ)
  deriving DecidableEq

abbrev Memory (Address M : Type) := Location Address → M

/-- What is known of a device when a kernel is compiled. -/
structure Device where
  warpSize : ℕ
  maximumMiniBlockSize : ℕ
  arch : Arch
  idxPolicy : Policy
  simdPolicy : Policy

/-- Padding against bank conflicts. -/
def conflictFreeAccess (warpSize n : ℕ) : ℕ := n + n / warpSize

section MiniBlock

variable {Place M : Type} [DecidableEq Place] [Add M]

/-- The up-sweep of a single thread. -/
def upSweep (block : ℕ → Place) (extent : ℕ) (memory : Place → M) : Place → M :=
  (upSteps (extent / 2) 1).foldl (fun memory step =>
    (progression 0 2 (2 * step.1)).foldl
      (fun memory frameElem => upPair block step.2 frameElem memory) memory) memory

/-- The down-sweep of a single thread. -/
def downSweep (block : ℕ → Place) (extent : ℕ) (memory : Place → M) : Place → M :=
  (downSteps extent 1 (extent / 2)).foldl (fun memory step =>
    (progression 0 2 (2 * step.1)).foldl
      (fun memory frameElem => downPair block step.2 frameElem memory) memory) memory

/-- An exclusive scan of a mini block in place, and its total sum. -/
def scanMiniBlock [Zero M] (block : ℕ → Place) (extent : ℕ) (memory : Place → M) :
    M × (Place → M) :=
  let memory := upSweep block extent memory
  let blockSum := memory (block (extent - 1))
  let memory := Function.update memory (block (extent - 1)) 0
  (blockSum, downSweep block extent memory)

/-- Add the sum of what comes before a mini block to its elements. -/
def addIncrements (block : ℕ → Place) (blockSum : M) (extent : ℕ) (memory : Place → M) :
    Place → M :=
  (List.range extent).foldl
    (fun memory i => Function.update memory (block i) (memory (block i) + blockSum)) memory

/-- Write the lanes of a SIMD pack. -/
def store (place : ℕ → Place) (width : ℕ) (pack : ℕ → M) (memory : Place → M) : Place → M :=
  (List.range width).foldl (fun memory lane => Function.update memory (place lane) (pack lane))
    memory

end MiniBlock

variable {I Address M : Type} [Add I] [Sub I] [Mul I] [Div I] [Mod I] [LT I] [DecidableLT I]
  [LE I] [DecidableLE I] [OfNat I 0] [OfNat I 1] [DecidableEq I] [IdxValue I]
  [DecidableEq Address] [Add M] [Zero M]

/-- The arguments of the kernel that scans the chunks. Elements of the views, which have one
dimension, are addressed by pointer arithmetic. -/
structure BlocksArgs (I Address : Type) where
  scanType : ScanType
  numElements : I
  inputVec : ℕ → Address
  outputVec : ℕ → Address
  blockSums : Option (ℕ → Address)

/-- A launch of the kernel that scans the chunks, with the orders of the blocks and of
the threads in each phase. -/
structure BlocksLaunch where
  numBlocks : ℕ
  numThreads : ℕ
  blocks : List ℕ
  threads : (block chunkIdx phase : ℕ) → List ℕ

namespace BlocksLaunch

variable (device : Device) (launch : BlocksLaunch)

def elsPerThread : ℕ := chunkSize / launch.numThreads

def chunkExtent : ℕ := launch.elsPerThread * launch.numThreads

def miniBlockSize : ℕ := min device.maximumMiniBlockSize launch.elsPerThread

def miniBlocksPerChunk : ℕ := launch.chunkExtent / launch.miniBlockSize device

end BlocksLaunch

section Kernel

variable (device : Device) (launch : BlocksLaunch) (args : BlocksArgs I Address)
  (block : ℕ) (chunkIdx : I)

/-- The sums of the mini blocks in shared memory. -/
def tmp (idx : ℕ) : Location Address := .shared block (conflictFreeAccess device.warpSize idx)

def numChunks : I := divCeil args.numElements (IdxValue.ofNat launch.chunkExtent)

/-- Whether elements are loaded and stored one by one. -/
def elementwise : Bool :=
  let validElementsInLastFrame :=
    (args.numElements - 1) % IdxValue.ofNat launch.chunkExtent + 1
  let lastFrameFull := validElementsInLastFrame = IdxValue.ofNat launch.chunkExtent
  let isLastFrame := chunkIdx = numChunks launch args - 1
  (¬ lastFrameFull ∧ isLastFrame) ∨ launch.elsPerThread % 4 ≠ 0

/-- The index of an element of a chunk, in the index type. -/
def elementIdx (frameElem i : ℕ) : I :=
  let frameOffset := IdxValue.ofNat launch.chunkExtent * chunkIdx
  frameOffset + IdxValue.ofNat frameElem + IdxValue.ofNat i

/-- The elements of a thread are copied to its registers. -/
def copyIn (thread frameElem : ℕ) (memory : Memory Address M) : Memory Address M :=
  if elementwise launch args chunkIdx then
    (List.range launch.elsPerThread).foldl (fun memory i =>
      Function.update memory (.register block thread i)
        (if elementIdx launch chunkIdx frameElem i < args.numElements then
          memory (.global (args.inputVec (IdxValue.toNat
            (elementIdx launch chunkIdx frameElem i))))
        else 0)) memory
  else
    (progression 0 4 launch.elsPerThread).foldl (fun memory i =>
      store (fun lane => .register block thread (i + lane)) 4
        (fun lane => memory (.global (args.inputVec (IdxValue.toNat
          (elementIdx launch chunkIdx frameElem i) + lane)))) memory) memory

/-- The mini blocks of a thread are scanned. -/
def scanMiniBlocks (thread frameElem : ℕ) (memory : Memory Address M) : Memory Address M :=
  (progression 0 (launch.miniBlockSize device) launch.elsPerThread).foldl
    (fun memory miniBlockOffset =>
      let (miniBlockSum, memory) := scanMiniBlock
        (fun i => .register block thread (miniBlockOffset + i)) (launch.miniBlockSize device) memory
      Function.update memory
        (tmp device block ((frameElem + miniBlockOffset) / launch.miniBlockSize device))
        miniBlockSum) memory

/-- Save the sum of the chunk and set the last place to zero. -/
def saveBlockSums (memory : Memory Address M) : Memory Address M :=
  let last := tmp device block (launch.miniBlocksPerChunk device - 1)
  let memory := match args.blockSums with
    | some blockSums =>
        Function.update memory (.global (blockSums (IdxValue.toNat chunkIdx))) (memory last)
    | none => memory
  Function.update memory last 0

/-- The sums of what comes before them are added to the mini blocks of a thread. -/
def addToMiniBlocks (thread frameElem : ℕ) (memory : Memory Address M) : Memory Address M :=
  (progression 0 (launch.miniBlockSize device) launch.elsPerThread).foldl
    (fun memory miniBlockOffset =>
      let blockSum :=
        if elementIdx launch chunkIdx frameElem miniBlockOffset < args.numElements then
          memory (tmp device block ((frameElem + miniBlockOffset) / launch.miniBlockSize device))
        else 0
      addIncrements (fun i => .register block thread (miniBlockOffset + i)) blockSum
        (launch.miniBlockSize device) memory) memory

/-- The value for an element of the output. -/
def outputValue (thread frameElem i lane : ℕ) (memory : Memory Address M) : M :=
  match args.scanType with
  | .exclusiveScan => memory (.register block thread (i + lane))
  | .inclusiveScan =>
      memory (.global (args.inputVec (IdxValue.toNat (elementIdx launch chunkIdx frameElem i) +
        lane))) + memory (.register block thread (i + lane))

/-- The registers of a thread are written to the output. -/
def copyOut (thread frameElem : ℕ) (memory : Memory Address M) : Memory Address M :=
  if elementwise launch args chunkIdx then
    (List.range launch.elsPerThread).foldl (fun memory i =>
      if elementIdx launch chunkIdx frameElem i < args.numElements then
        Function.update memory (.global (args.outputVec (IdxValue.toNat
          (elementIdx launch chunkIdx frameElem i))))
          (outputValue launch args block chunkIdx thread frameElem i 0 memory)
      else memory) memory
  else
    (progression 0 4 launch.elsPerThread).foldl (fun memory i =>
      store (fun lane => .global (args.outputVec (IdxValue.toNat
          (elementIdx launch chunkIdx frameElem i) + lane))) 4
        (fun lane => outputValue launch args block chunkIdx thread frameElem i lane memory)
        memory) memory

/-- What the threads of a block do to a chunk, from barrier to barrier. -/
def chunkPhases : List (Phase (Memory Address M)) :=
  let miniBlocksPerChunk := launch.miniBlocksPerChunk device
  [⟨0, launch.chunkExtent, launch.elsPerThread, fun thread frameElem memory =>
    scanMiniBlocks device launch block thread frameElem
      (copyIn launch args block chunkIdx thread frameElem memory)⟩] ++
  (upSteps (miniBlocksPerChunk / 2) 1).map (fun step =>
    ⟨0, 2 * step.1, 2, fun _ frameElem => upPair (tmp device block) step.2 frameElem⟩) ++
  [⟨0, 1, 1, fun _ _ => saveBlockSums device launch args block chunkIdx⟩] ++
  (downSteps miniBlocksPerChunk 1 (miniBlocksPerChunk / 2)).map (fun step =>
    ⟨0, 2 * step.1, 2, fun _ frameElem => downPair (tmp device block) step.2 frameElem⟩) ++
  [⟨0, launch.chunkExtent, launch.elsPerThread, fun thread frameElem memory =>
    copyOut launch args block chunkIdx thread frameElem
      (addToMiniBlocks device launch args block chunkIdx thread frameElem memory)⟩]

end Kernel

/-- The kernel that scans each chunk for itself. -/
def scanBlocksKernel (device : Device) (launch : BlocksLaunch) (args : BlocksArgs I Address)
    (fuel : ℕ) (memory : Memory Address M) : Except Fault (Memory Address M) :=
  launch.blocks.foldlM (fun memory block => do
    let chunks ← lineIdxs device.idxPolicy (IdxValue.ofNat block)
      (IdxValue.ofNat launch.numBlocks) 0 (numChunks launch args) 1 fuel
    chunks.foldlM (fun memory chunkIdx =>
      runPhases device.idxPolicy launch.numThreads (launch.threads block (IdxValue.toNat chunkIdx))
        (chunkPhases device launch args block chunkIdx) fuel memory) memory) memory

/-- A launch of the kernel that adds the increments, with the order of all threads of
the grid. -/
structure GridLaunch where
  numBlocks : ℕ
  numThreads : ℕ
  threads : List ℕ

/-- The kernel that adds the sum of all chunks before it to each element. -/
def scanAddIncrementsKernel (device : Device) (launch : GridLaunch) (numElements : I)
    (blockSums outputVec : ℕ → Address) (fuel : ℕ) (memory : Memory Address M) :
    Except Fault (Memory Address M) :=
  let elsPerThread := chunkSize / launch.numThreads
  let chunkExtent := elsPerThread * launch.numThreads
  let config := calcSimdPackConfig device.arch
    (getNumElemPerThread device.arch * device.arch.sizeofValue)
  launch.threads.foldlM (fun memory thread => do
    let calls ← concurrent config.simdWidth config.numSimdPacksPerFnCall device.simdPolicy.traverse
      device.simdPolicy.layout ⟨![IdxValue.ofNat thread],
        ![IdxValue.ofNat launch.numBlocks * IdxValue.ofNat launch.numThreads]⟩ ![numElements] fuel
    return calls.foldl (fun memory call =>
      let idx := call.dataIdx 0
      let increment :=
        memory (.global (blockSums (IdxValue.toNat (idx / IdxValue.ofNat chunkExtent))))
      store (fun lane => .global (outputVec (IdxValue.toNat idx + lane))) call.width
        (fun lane => memory (.global (outputVec (IdxValue.toNat idx + lane))) + increment)
        memory) memory) memory

/-! ## The host -/

/-- The launches of one level of the recursion. -/
structure Launches where
  scanBlocks : BlocksLaunch
  addIncrements : GridLaunch

/-- The chunks of the whole recursion. -/
def scanBufferElements (elements : ℕ) : ℕ :=
  if 1 < elements then elements + scanBufferElements (divCeil elements chunkSize) else 0
termination_by elements
decreasing_by
  unfold divCeil chunkSize
  omega

/-- How many bytes of scratch memory a scan takes. -/
def scanBufferSize (device : Device) (extent : ℕ) : ℕ :=
  scanBufferElements (divCeil extent chunkSize) * device.arch.sizeofValue

/-- The host function. The scratch buffer is given by its bytes, of which the first
ones hold the increments and the rest is left to the recursion. -/
def scan (device : Device) (launches : ℕ → Launches) : (fuel level : ℕ) → ScanType → I →
    (buffer outputVec inputVec : ℕ → Address) → Memory Address M →
      Except Fault (Memory Address M)
  | 0, _, _, _, _, _, _, _ => .error .outOfFuel
  | fuel + 1, level, scanType, extent, buffer, outputVec, inputVec, memory =>
      let launch := launches level
      let numFrames := divCeil extent (IdxValue.ofNat chunkSize)
      if 1 < numFrames then do
        let bufSizeBytes := numFrames * IdxValue.ofNat device.arch.sizeofValue
        let increments := fun i => buffer (i * device.arch.sizeofValue)
        let bufferNext := fun i => buffer (IdxValue.toNat bufSizeBytes + i)
        let memory ← scanBlocksKernel device launch.scanBlocks
          ⟨scanType, extent, inputVec, outputVec, some increments⟩ fuel memory
        let memory ← scan device launches fuel (level + 1) .exclusiveScan numFrames
          bufferNext increments increments memory
        scanAddIncrementsKernel device launch.addIncrements extent increments outputVec fuel memory
      else
        scanBlocksKernel device launch.scanBlocks ⟨scanType, extent, inputVec, outputVec, none⟩
          fuel memory

end Alpaka.Scan
