import Alpaka.OnAcc.PhasesWidth
import Alpaka.OnAcc.SimdConcurrentWidth
import Alpaka.OnHost.ScanGrid

/-! # The kernels of a scan in machine arithmetic

The number of chunks, the index of an element and the loops over chunks and elements are
computed in the index type. Where the number of elements can be rounded up to whole chunks and
the loops do not overflow, both kernels do what they do in exact arithmetic
(`Alpaka.Scan.scanBlocksKernel_words`, `Alpaka.Scan.scanAddIncrementsKernel_words`). What a
thread counts within a chunk never overflows: an index type has the size of a chunk as a value,
and so at least 16 bits.
-/

namespace Alpaka.Scan

open Math (Settles progression mem_progression)
open Math.Loop (Fault)
open Math.Sweep (upPair downPair upSteps downSteps)
open IdxContainer (LoopFits)

attribute [local instance (2000)] neZero_one

variable {w : ℕ} {Address M : Type}

/-- The arguments with a number of elements. -/
def BlocksArgs.toNats (args : BlocksArgs (BitVec w) Address) : BlocksArgs ℕ Address :=
  ⟨args.scanType, args.numElements.toNat, args.inputVec, args.outputVec, args.blockSums⟩

/-! ## Indices -/

section Indices

variable {device : Device} {launch : BlocksLaunch} {args : BlocksArgs (BitVec w) Address}
  (wide : 16 ≤ w) (proper : launch.Proper device)
  (whole : args.numElements.toNat + (chunkSize - 1) < 2 ^ w)

include wide in
/-- A chunk is representable. -/
theorem chunkSize_lt : chunkSize < 2 ^ w :=
  calc chunkSize < 2 ^ 16 := by decide
    _ ≤ 2 ^ w := Nat.pow_le_pow_right Nat.two_pos wide

include wide in
/-- A length that can be rounded up is divided exactly. -/
theorem toNat_numFrames {extent : BitVec w} (whole : extent.toNat + (chunkSize - 1) < 2 ^ w) :
    (divCeil extent (IdxValue.ofNat chunkSize)).toNat = divCeil extent.toNat chunkSize := by
  have rounded := toNat_divCeil (w := w) (by decide) (chunkSize_lt wide) extent
    (Nat.mod_eq_of_lt extent.isLt).symm
  refine rounded.trans ?_
  rw [Nat.mod_eq_of_lt (by exact whole)]
  rfl

include wide proper whole

/-- The number of chunks is exact. -/
theorem toNat_numChunks : (numChunks launch args).toNat = numChunks launch args.toNats := by
  unfold numChunks
  rw [proper.chunkExtent_eq]
  exact toNat_numFrames wide whole

omit wide whole in
/-- The chunks are below the width. -/
private theorem numChunks_room : chunkSize * numChunks launch args.toNats ≤
    args.numElements.toNat + (chunkSize - 1) := by
  unfold numChunks
  rw [proper.chunkExtent_eq]
  exact Nat.mul_div_le _ _

variable {chunkIdx : ℕ} (inside : chunkIdx < numChunks launch args.toNats)

include inside

omit wide in
/-- An index of a chunk is exact. -/
theorem toNat_elementIdx {frameElem i : ℕ} (below : frameElem + i < launch.chunkExtent) :
    (elementIdx launch (chunkIdx : BitVec w) frameElem i).toNat =
      elementIdx launch chunkIdx frameElem i := by
  have cast : elementIdx launch (chunkIdx : BitVec w) frameElem i =
      ((elementIdx launch chunkIdx frameElem i : ℕ) : BitVec w) := by
    rw [elementIdx_exact, Nat.cast_add, Nat.cast_add, Nat.cast_mul]
    rfl
  have room : chunkSize * numChunks launch args.toNats ≤ args.numElements.toNat + (chunkSize - 1) :=
    numChunks_room proper
  have next := Nat.mul_le_mul_left chunkSize (Nat.succ_le_of_lt inside)
  rw [Nat.mul_succ] at next
  rw [proper.chunkExtent_eq] at below
  rw [cast, toNat_cast, elementIdx_exact, proper.chunkExtent_eq]
  exact Nat.mod_eq_of_lt (by omega)

omit wide in
/-- A chunk has its own number. -/
theorem toNat_chunkIdx : (chunkIdx : BitVec w).toNat = chunkIdx := by
  have room : chunkSize * numChunks launch args.toNats ≤ args.numElements.toNat + (chunkSize - 1) :=
    numChunks_room proper
  have positive : 0 < chunkSize := by decide
  have narrow : chunkIdx < chunkSize * numChunks launch args.toNats :=
    inside.trans_le (Nat.le_mul_of_pos_left _ positive)
  rw [toNat_cast]
  exact Nat.mod_eq_of_lt (by omega)

omit wide in
/-- An element is behind the end where it is in exact arithmetic. -/
theorem elementIdx_lt_iff {frameElem i : ℕ} (below : frameElem + i < launch.chunkExtent) :
    elementIdx launch (chunkIdx : BitVec w) frameElem i < args.numElements ↔
      elementIdx launch chunkIdx frameElem i < args.toNats.numElements := by
  rw [BitVec.lt_def, toNat_elementIdx proper whole inside below]
  rfl

end Indices

/-! ## A thread -/

section Thread

variable [DecidableEq Address] [AddCommMonoid M] {device : Device} {launch : BlocksLaunch}
  {args : BlocksArgs (BitVec w) Address} (wide : 16 ≤ w) (proper : launch.Proper device)
  (whole : args.numElements.toNat + (chunkSize - 1) < 2 ^ w) {chunkIdx : ℕ}
  (inside : chunkIdx < numChunks launch args.toNats)

include wide proper whole inside

omit [DecidableEq Address] in
/-- The last chunk and a partial one are found as in exact arithmetic. -/
private theorem elementwise_words :
    elementwise launch args (chunkIdx : BitVec w) = elementwise launch args.toNats chunkIdx := by
  have some : 0 < args.numElements.toNat := by
    have before := (lt_numChunks_iff (proper.chunkExtent_eq ▸ by decide)).mp inside
    exact Nat.zero_lt_of_lt before
  have narrow := chunkSize_lt wide
  have one : (1 : BitVec w).toNat = 1 := Nat.mod_eq_of_lt ((by decide : 1 < chunkSize).trans narrow)
  have extent : (IdxValue.ofNat chunkSize : BitVec w).toNat = chunkSize := Nat.mod_eq_of_lt narrow
  have last : (args.numElements - 1).toNat = args.numElements.toNat - 1 := by
    rw [BitVec.toNat_sub_of_le (BitVec.le_def.mpr (by rw [one]; exact some)), one]
  have rest := Nat.mod_lt (args.numElements.toNat - 1) (by decide : 0 < chunkSize)
  have valid : ((args.numElements - 1) % IdxValue.ofNat chunkSize + 1).toNat =
      (args.numElements.toNat - 1) % chunkSize + 1 := by
    rw [BitVec.toNat_add, BitVec.toNat_umod, last, extent, one]
    exact Nat.mod_eq_of_lt (by omega)
  have chunks := toNat_numChunks wide proper whole
  have several : 0 < numChunks launch args.toNats := Nat.zero_lt_of_lt inside
  have lastChunk : (numChunks launch args - 1).toNat = numChunks launch args.toNats - 1 := by
    rw [BitVec.toNat_sub_of_le (BitVec.le_def.mpr (by rw [one, chunks]; exact several)), one,
      chunks]
  have full : (args.numElements - 1) % IdxValue.ofNat chunkSize + 1 = IdxValue.ofNat chunkSize ↔
      (args.numElements.toNat - 1) % chunkSize + 1 = chunkSize := by
    rw [← BitVec.toNat_inj, valid, extent]
  have isLast : (chunkIdx : BitVec w) = numChunks launch args - 1 ↔
      chunkIdx = numChunks launch args.toNats - 1 := by
    rw [← BitVec.toNat_inj, lastChunk, toNat_chunkIdx proper whole inside]
  unfold elementwise
  simp only [proper.chunkExtent_eq, full, isLast]
  rfl

/-- Copying to the registers. -/
private theorem copyIn_words (block thread : ℕ) {frameElem : ℕ}
    (room : frameElem + launch.elsPerThread ≤ launch.chunkExtent) (memory : Memory Address M) :
    copyIn launch args block (chunkIdx : BitVec w) thread frameElem memory =
      copyIn launch args.toNats block chunkIdx thread frameElem memory := by
  have inChunk {i : ℕ} (below : i < launch.elsPerThread) : frameElem + i < launch.chunkExtent :=
    (Nat.add_lt_add_left below _).trans_le room
  unfold copyIn
  rw [elementwise_words wide proper whole inside]
  split
  · refine List.foldl_ext _ _ _ fun memory i member => ?_
    have below := inChunk (List.mem_range.mp member)
    simp only [elementIdx_lt_iff proper whole inside below]
    refine congrArg (Function.update memory _) (if_congr Iff.rfl ?_ rfl)
    exact congrArg (fun index => memory (.global (args.inputVec index)))
      (toNat_elementIdx proper whole inside below)
  · refine List.foldl_ext _ _ _ fun memory i member => ?_
    obtain ⟨_, -, inThread⟩ := (mem_progression (by decide)).mp member
    have index := toNat_elementIdx proper whole inside (inChunk inThread)
    refine congrArg (fun pack => store _ 4 pack memory) (funext fun lane => ?_)
    exact congrArg (fun index => memory (.global (args.inputVec (index + lane)))) index

omit wide in
/-- Adding what comes before the mini blocks. -/
private theorem addToMiniBlocks_words (block thread : ℕ) {frameElem : ℕ}
    (room : frameElem + launch.elsPerThread ≤ launch.chunkExtent) (memory : Memory Address M) :
    addToMiniBlocks device launch args block (chunkIdx : BitVec w) thread frameElem memory =
      addToMiniBlocks device launch args.toNats block chunkIdx thread frameElem memory := by
  unfold addToMiniBlocks
  refine List.foldl_ext _ _ _ fun memory i member => ?_
  obtain ⟨_, -, inThread⟩ := (mem_progression proper.miniBlockSize_pos).mp member
  have below := (Nat.add_lt_add_left inThread _).trans_le room
  simp only [elementIdx_lt_iff proper whole inside below]

omit wide [DecidableEq Address] in
/-- The value for an element. -/
private theorem outputValue_words (block thread : ℕ) {frameElem i : ℕ}
    (below : frameElem + i < launch.chunkExtent) (lane : ℕ) (memory : Memory Address M) :
    outputValue launch args block (chunkIdx : BitVec w) thread frameElem i lane memory =
      outputValue launch args.toNats block chunkIdx thread frameElem i lane memory := by
  have index := toNat_elementIdx proper whole inside below
  unfold outputValue
  cases scanType : args.scanType with
  | exclusiveScan =>
      have same : args.toNats.scanType = .exclusiveScan := scanType
      rw [same]
  | inclusiveScan =>
      have same : args.toNats.scanType = .inclusiveScan := scanType
      rw [same]
      exact congrArg (fun index => memory (.global (args.inputVec (index + lane))) + _) index

/-- Writing to the output. -/
private theorem copyOut_words (block thread : ℕ) {frameElem : ℕ}
    (room : frameElem + launch.elsPerThread ≤ launch.chunkExtent) (memory : Memory Address M) :
    copyOut launch args block (chunkIdx : BitVec w) thread frameElem memory =
      copyOut launch args.toNats block chunkIdx thread frameElem memory := by
  have inChunk {i : ℕ} (below : i < launch.elsPerThread) : frameElem + i < launch.chunkExtent :=
    (Nat.add_lt_add_left below _).trans_le room
  unfold copyOut
  rw [elementwise_words wide proper whole inside]
  split
  · refine List.foldl_ext _ _ _ fun memory i member => ?_
    have below := inChunk (List.mem_range.mp member)
    have index := toNat_elementIdx proper whole inside below
    simp only [elementIdx_lt_iff proper whole inside below,
      outputValue_words proper whole inside block thread below]
    refine if_congr Iff.rfl ?_ rfl
    exact congrArg (fun index => Function.update memory (.global (args.outputVec index)) _) index
  · refine List.foldl_ext _ _ _ fun memory i member => ?_
    obtain ⟨_, -, inThread⟩ := (mem_progression (by decide)).mp member
    have index := toNat_elementIdx proper whole inside (inChunk inThread)
    simp only [outputValue_words proper whole inside block thread (inChunk inThread)]
    exact congrArg (fun index => store (fun lane => .global (args.outputVec (index + lane))) 4 _
      memory) index

omit wide in
/-- Saving the sum of the chunk. -/
private theorem saveBlockSums_words (block : ℕ) (memory : Memory Address M) :
    saveBlockSums device launch args block (chunkIdx : BitVec w) memory =
      saveBlockSums device launch args.toNats block chunkIdx memory := by
  have index := toNat_chunkIdx proper whole inside
  unfold saveBlockSums
  cases stored : args.blockSums with
  | none =>
      have same : args.toNats.blockSums = none := stored
      rw [same]
  | some sums =>
      have same : args.toNats.blockSums = some sums := stored
      rw [same]
      refine congrArg (fun memory => Function.update memory _ 0) ?_
      exact congrArg (fun index => Function.update memory (.global (sums index)) _) index

/-- **A chunk.** From barrier to barrier the threads do what they do in exact arithmetic. -/
private theorem chunkPhases_words (block : ℕ) (memory : Memory Address M) :
    afterPhases device.idxPolicy launch.numThreads (launch.threads block chunkIdx)
        (chunkPhases device launch args block (chunkIdx : BitVec w)) 0 memory =
      chunkAfter device launch args.toNats block chunkIdx memory := by
  have members (phase : ℕ) : ∀ thread ∈ launch.threads block chunkIdx phase,
      thread < launch.numThreads := fun thread member =>
    List.mem_range.mp ((proper.threads_perm block chunkIdx phase).mem_iff.mp member)
  have frames {count : ℕ} (below : 0 + count * launch.elsPerThread < launch.chunkExtent) :
      0 + count * launch.elsPerThread + launch.elsPerThread ≤ launch.chunkExtent := by
    rw [Nat.zero_add] at below ⊢
    exact add_le_of_dvd (Nat.dvd_mul_right _ _) (Nat.dvd_mul_left _ _) below
  let load (chunk : ℕ → ℕ → Memory Address M → Memory Address M) : Phase (Memory Address M) :=
    ⟨0, launch.chunkExtent, launch.elsPerThread, chunk⟩
  have properFrames (chunk : ℕ → ℕ → Memory Address M → Memory Address M) : (load chunk).Proper :=
    ⟨Nat.zero_le _, proper.elsPerThread_pos⟩
  let copied (thread frameElem : ℕ) (memory : Memory Address M) :=
    scanMiniBlocks device launch block thread frameElem
    (copyIn launch args block (chunkIdx : BitVec w) thread frameElem memory)
  let stored (thread frameElem : ℕ) (memory : Memory Address M) :=
    copyOut launch args block (chunkIdx : BitVec w) thread frameElem
      (addToMiniBlocks device launch args block (chunkIdx : BitVec w) thread frameElem memory)
  have phases : chunkPhases device launch args block (chunkIdx : BitVec w) =
      [load copied] ++ sweepPhases device launch args.toNats block chunkIdx ++ [load stored] := by
    have saved : saveBlockSums device launch args block (chunkIdx : BitVec w) =
        saveBlockSums (M := M) device launch args.toNats block chunkIdx :=
      funext fun memory => saveBlockSums_words proper whole inside block memory
    unfold chunkPhases
    rw [saved]
    rfl
  let copiedExact (thread frameElem : ℕ) (memory : Memory Address M) :=
    scanMiniBlocks device launch block thread frameElem
      (copyIn launch args.toNats block chunkIdx thread frameElem memory)
  let storedExact (thread frameElem : ℕ) (memory : Memory Address M) :=
    copyOut launch args.toNats block chunkIdx thread frameElem
      (addToMiniBlocks device launch args.toNats block chunkIdx thread frameElem memory)
  have exact : chunkPhases device launch args.toNats block chunkIdx = [load copiedExact] ++
      sweepPhases device launch args.toNats block chunkIdx ++ [load storedExact] := rfl
  have loads := Phase.foldl_tasks_congr device.idxPolicy (properFrames copied) (members 0)
    copiedExact (fun thread count below memory =>
      congrArg (scanMiniBlocks device launch block thread (0 + count * launch.elsPerThread))
        (copyIn_words wide proper whole inside block thread (frames below) memory)) memory
  unfold chunkAfter
  rw [phases, exact, afterPhases_append, afterPhases_append, afterPhases_append,
    afterPhases_append, afterPhases_single, afterPhases_single, afterPhases_single,
    afterPhases_single, loads]
  refine Phase.foldl_tasks_congr device.idxPolicy (properFrames stored) (members _) storedExact
    (fun thread count below memory => ?_) _
  have added := addToMiniBlocks_words proper whole inside block thread (frames below) memory
  have written := copyOut_words wide proper whole inside block thread (frames below)
    (addToMiniBlocks device launch args.toNats block chunkIdx thread
      (0 + count * launch.elsPerThread) memory)
  exact (congrArg (copyOut launch args block (chunkIdx : BitVec w) thread
    (0 + count * launch.elsPerThread)) added).trans written

end Thread

/-! ## The chunks of the grid -/

section Line

variable {worker workers : ℕ}

/-- A worker of a representable number of workers. -/
theorem line_mem_box (member : worker < workers) (narrow : workers < 2 ^ w) :
    ![(worker : BitVec w)] ∈ box ![(workers : BitVec w)] := by
  intro d
  rw [Fin.fin_one_eq_zero d, BitVec.lt_def]
  change (worker : BitVec w).toNat < (workers : BitVec w).toNat
  rw [toNat_cast_of_lt (member.trans narrow), toNat_cast_of_lt narrow]
  exact member

private theorem line_words_positive (some : 0 < workers) (narrow : workers < 2 ^ w) (d : Fin 1) :
    0 < ![(workers : BitVec w)] d := by
  rw [Fin.fin_one_eq_zero d, BitVec.lt_def]
  change 0 % 2 ^ w < (workers : BitVec w).toNat
  rw [toNat_cast_of_lt narrow, Nat.zero_mod]
  exact some

/-- The loop of a worker over numbers from zero, when nothing overflows. -/
theorem lineIdxs_chunks (policy : Policy) (member : worker < workers) (narrow : workers < 2 ^ w)
    {stop : BitVec w}
    (fits : LoopFits ⟨![0], ![stop], ![1]⟩ ![(workers : BitVec w)] policy.traverse policy.layout) :
    Settles (lineIdxs policy (IdxValue.ofNat worker) (IdxValue.ofNat workers) 0 stop 1)
      ((lineShare policy worker workers 0 stop.toNat 1).map (Nat.cast : ℕ → BitVec w)) := by
  have words := lineIdxs_words policy (line_mem_box member narrow 0)
    (BitVec.le_def.mpr ((Nat.zero_mod _).trans_le (Nat.zero_le _))) fits
  change Settles _ ((lineShare policy (worker : BitVec w).toNat (workers : BitVec w).toNat
    (0 : BitVec w).toNat stop.toNat 1).map _) at words
  rwa [toNat_cast_of_lt (member.trans narrow), toNat_cast_of_lt narrow,
    show (0 : BitVec w).toNat = 0 from Nat.zero_mod _] at words

/-- There is no number below zero, so nothing overflows. -/
theorem lineIdxs_zero (policy : Policy) (member : worker < workers) (narrow : workers < 2 ^ w) :
    Settles (lineIdxs policy (IdxValue.ofNat worker) (IdxValue.ofNat workers) 0 (0 : BitVec w) 1)
      [] := by
  have number : (workers : BitVec w).toNat = workers := toNat_cast_of_lt narrow
  have empty : (⟨![0], ![(0 : BitVec w)], ![1]⟩ : IdxRange (BitVec w) 1).toNats.logicalExtent id
      0 = 0 := by
    change divCeil (0 % 2 ^ w - 0 % 2 ^ w) (1 % 2 ^ w) = 0
    rw [Nat.sub_self, Nat.mod_eq_of_lt (Nat.lt_of_le_of_lt (Nat.zero_lt_of_lt member) narrow)]
    rfl
  have fits : LoopFits ⟨![0], ![(0 : BitVec w)], ![1]⟩ ![(workers : BitVec w)] policy.traverse
      policy.layout := by
    cases policy.traverse with
    | flat =>
        cases policy.layout with
        | strided => exact .inl ⟨0, empty⟩
        | contiguous =>
            refine ⟨fun divides => ?_, .inl ⟨0, empty⟩⟩
            rw [Fin.prod_univ_one] at divides
            have few := Nat.le_of_dvd (number.symm ▸ Nat.zero_lt_of_lt member) divides
            exact absurd narrow (not_lt.mpr (number ▸ few))
    | tiled =>
        cases policy.layout with
        | strided =>
            refine .inl ⟨0, empty, fun position _ _ => ?_⟩
            exact BitVec.le_def.mpr (Nat.zero_le _)
        | contiguous => trivial
  have visited := lineIdxs_chunks policy member narrow fits
  have nothing : lineShare policy worker workers 0 (0 : BitVec w).toNat 1 = [] := by
    rw [show (0 : BitVec w).toNat = 0 from Nat.zero_mod _]
    refine List.eq_nil_iff_forall_not_mem.mpr fun x held => ?_
    obtain ⟨-, -, inside⟩ := (lineShare_partitions policy (Nat.zero_le _) Nat.one_pos
      (Nat.zero_lt_of_lt member)).sound member held
    exact Nat.not_lt_zero x inside
  rwa [nothing] at visited

end Line

section Blocks

variable [DecidableEq Address] [AddCommMonoid M] {device : Device} {launch : BlocksLaunch}
  {args : BlocksArgs (BitVec w) Address}

/-- **The scan of all chunks in machine arithmetic.** -/
theorem scanBlocksKernel_words (wide : 16 ≤ w) (proper : launch.Proper device)
    (whole : args.numElements.toNat + (chunkSize - 1) < 2 ^ w) (narrow : launch.numBlocks < 2 ^ w)
    (fits : LoopFits ⟨![0], ![numChunks launch args], ![1]⟩ ![(launch.numBlocks : BitVec w)]
      device.idxPolicy.traverse device.idxPolicy.layout) (memory : Memory Address M)
    {after : Memory Address M}
    (exact : Settles (fun fuel => scanBlocksKernel device launch args.toNats fuel memory) after) :
    Settles (fun fuel => scanBlocksKernel device launch args fuel memory) after := by
  rw [exact.unique (scanBlocksKernel_settles proper memory)]
  have chunks : (numChunks launch args).toNat = numChunks launch args.toNats :=
    toNat_numChunks wide proper whole
  unfold scanBlocksKernel Phase.tasks
  rw [List.foldl_flatMap]
  simp only [List.foldl_map]
  refine Settles.foldlM (fun block member memory => ?_) memory
  have below : block < launch.numBlocks :=
    List.mem_range.mp (proper.blocks_perm.mem_iff.mp member)
  refine (lineIdxs_chunks device.idxPolicy below narrow fits).bind ?_
  rw [chunks]
  simp only [List.foldlM_map]
  refine Settles.foldlM (fun chunkIdx held memory => ?_) memory
  have inside : chunkIdx < numChunks launch args.toNats := by
    obtain ⟨count, -, inside⟩ := (lineShare_partitions device.idxPolicy (Nat.zero_le _)
      Nat.one_pos (Nat.zero_lt_of_lt below)).sound below held
    exact inside
  have index := toNat_chunkIdx proper whole inside
  have settled := runPhases_settles device.idxPolicy
    (proper.threads_perm block (chunkIdx : BitVec w).toNat)
    (chunkPhases_proper args proper block (chunkIdx : BitVec w)) memory
  rw [index, chunkPhases_words wide proper whole inside block memory] at settled
  change Settles (fun fuel => runPhases device.idxPolicy launch.numThreads
    (launch.threads block (chunkIdx : BitVec w).toNat) _ fuel memory) _
  rw [index]
  exact settled

end Blocks

/-! ## The increments -/

section Increments

variable [DecidableEq Address] [AddCommMonoid M]

/-- The widths that a device's SIMD algorithm derives. -/
def simdConfig (device : Device) : SimdPackConfig :=
  calcSimdPackConfig device.arch (getNumElemPerThread device.arch * device.arch.sizeofValue)

/-- What a call adds to its elements. -/
private def addToCall {I : Type} [Div I] [IdxValue I] (chunkExtent : ℕ)
    (blockSums outputVec : ℕ → Address) (memory : Memory Address M) (call : Call I 0) :
    Memory Address M :=
  let idx := call.dataIdx 0
  let increment :=
    memory (.global (blockSums (IdxValue.toNat (idx / IdxValue.ofNat chunkExtent))))
  store (fun lane => .global (outputVec (IdxValue.toNat idx + lane))) call.width
    (fun lane => memory (.global (outputVec (IdxValue.toNat idx + lane))) + increment) memory

/-- A call adds what it does in exact arithmetic. -/
private theorem addToCall_ofNats (wide : 16 ≤ w) {call : Call ℕ 0}
    (begins : call.dataIdx 0 < 2 ^ w) (blockSums outputVec : ℕ → Address)
    (memory : Memory Address M) :
    addToCall chunkSize blockSums outputVec memory (Call.ofNats call : Call (BitVec w) 0) =
      addToCall chunkSize blockSums outputVec memory call := by
  have first : ((call.dataIdx 0 : ℕ) : BitVec w).toNat = call.dataIdx 0 := toNat_cast_of_lt begins
  have chunk : (IdxValue.ofNat chunkSize : BitVec w).toNat = chunkSize :=
    Nat.mod_eq_of_lt (chunkSize_lt wide)
  have quotient : (((call.dataIdx 0 : ℕ) : BitVec w) / IdxValue.ofNat chunkSize).toNat =
      call.dataIdx 0 / chunkSize := by
    rw [BitVec.toNat_udiv, first, chunk]
  unfold addToCall
  change store (fun lane => .global (outputVec (((call.dataIdx 0 : ℕ) : BitVec w).toNat + lane)))
    call.width (fun lane => memory (.global (outputVec (((call.dataIdx 0 : ℕ) :
      BitVec w).toNat + lane))) + memory (.global (blockSums (((call.dataIdx 0 : ℕ) :
        BitVec w) / IdxValue.ofNat chunkSize).toNat))) memory = _
  rw [first, quotient]
  rfl

variable {launch : GridLaunch} {device : Device}

/-- The calls of a thread in exact arithmetic. -/
private def gridCalls (device : Device) (launch : GridLaunch) (numElements thread : ℕ) :
    List (Call ℕ 0) :=
  concurrentCalls (simdConfig device).simdWidth (simdConfig device).numSimdPacksPerFnCall
    device.simdPolicy.traverse device.simdPolicy.layout ![launch.numBlocks * launch.numThreads]
    ![numElements] ![thread]

private theorem simdConfig_proper (device : Device) :
    (∃ bits, (simdConfig device).simdWidth = 2 ^ bits) ∧
      0 < (simdConfig device).numSimdPacksPerFnCall := by
  obtain ⟨bits, -, width⟩ := calcSimdPackConfig_width device.arch
    (getNumElemPerThread device.arch * device.arch.sizeofValue)
  exact ⟨⟨bits, width⟩, calcSimdPackConfig_packs device.arch
    (getNumElemPerThread device.arch * device.arch.sizeofValue)⟩

private theorem lt_of_listed (proper : launch.Proper) {thread : ℕ}
    (listed : thread ∈ launch.threads) : thread < launch.numBlocks * launch.numThreads :=
  List.mem_range.mp (proper.threads_perm.mem_iff.mp listed)

/-- The kernel settles on what the threads add, in turn. -/
private theorem scanAddIncrementsKernel_settles (proper : launch.Proper) (numElements : ℕ)
    (blockSums outputVec : ℕ → Address) (memory : Memory Address M) :
    Settles (fun fuel => scanAddIncrementsKernel device launch numElements blockSums outputVec fuel
        memory)
      (launch.threads.foldl (fun memory thread => (gridCalls device launch numElements
        thread).foldl (addToCall chunkSize blockSums outputVec) memory) memory) := by
  obtain ⟨⟨bits, power⟩, packs⟩ := simdConfig_proper device
  have cover := concurrent_calls (line_positive (Nat.mul_pos proper.several proper.numThreads_pos))
    (power ▸ Nat.two_pow_pos bits : 0 < (simdConfig device).simdWidth) packs
    device.simdPolicy.traverse device.simdPolicy.layout ![numElements]
  unfold scanAddIncrementsKernel
  dsimp only
  rw [proper.chunkExtent_eq]
  refine Settles.foldlM (fun thread listed memory => ?_) memory
  exact (cover.settles _ (line_member.mpr (lt_of_listed proper listed))).bind (Settles.pure _)

/-- **The increments in machine arithmetic.** -/
theorem scanAddIncrementsKernel_words (wide : 16 ≤ w) (proper : launch.Proper)
    (narrow : launch.numBlocks * launch.numThreads < 2 ^ w) {numElements : BitVec w}
    (fits : ConcurrentFits (simdConfig device).simdWidth (simdConfig device).numSimdPacksPerFnCall
      device.simdPolicy.traverse device.simdPolicy.layout
      ![((launch.numBlocks * launch.numThreads : ℕ) : BitVec w)] ![numElements])
    {blockSums outputVec : ℕ → Address} (memory : Memory Address M) {after : Memory Address M}
    (exact : Settles (fun fuel => scanAddIncrementsKernel device launch numElements.toNat blockSums
      outputVec fuel memory) after) :
    Settles (fun fuel => scanAddIncrementsKernel device launch numElements blockSums outputVec fuel
      memory) after := by
  obtain ⟨⟨bits, power⟩, packs⟩ := simdConfig_proper device
  have lanes : 0 < (simdConfig device).simdWidth := power ▸ Nat.two_pow_pos bits
  have several := Nat.mul_pos proper.several proper.numThreads_pos
  have positive := line_words_positive several narrow
  have threads : (IdxValue.ofNat launch.numBlocks * IdxValue.ofNat launch.numThreads : BitVec w) =
      ((launch.numBlocks * launch.numThreads : ℕ) : BitVec w) := (Nat.cast_mul _ _).symm
  rw [exact.unique (scanAddIncrementsKernel_settles proper _ _ _ memory)]
  unfold scanAddIncrementsKernel
  dsimp only
  rw [proper.chunkExtent_eq, threads]
  refine Settles.foldlM (fun thread listed memory => ?_) memory
  have below := lt_of_listed proper listed
  have words := concurrent_words positive lanes
    (room_of_power power (fits.width_lt positive) _ _) packs fits (line_mem_box below narrow)
  rw [Vec.toNats_line, Vec.toNats_line, Vec.toNats_line, toNat_cast_of_lt narrow,
    toNat_cast_of_lt (below.trans narrow)] at words
  have same : ((gridCalls device launch numElements.toNat thread).map
      (Call.ofNats : Call ℕ 0 → Call (BitVec w) 0)).foldl
        (addToCall chunkSize blockSums outputVec) memory =
        (gridCalls device launch numElements.toNat thread).foldl
          (addToCall chunkSize blockSums outputVec) memory := by
    rw [List.foldl_map]
    refine List.foldl_ext _ _ _ fun memory call held => ?_
    have begins := (concurrentCalls_begin (line_positive several) lanes packs
      (line_member.mpr below) held).1 0
    exact addToCall_ofNats wide (lt_trans begins numElements.isLt) blockSums outputVec memory
  rw [← same]
  exact words.bind (Settles.pure _)

end Increments

end Alpaka.Scan
