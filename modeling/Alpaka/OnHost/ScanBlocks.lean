import Alpaka.OnHost.ScanMiniBlocks

/-! # The scan of a chunk

A block takes a chunk from barrier to barrier. Its threads hold the sums within their
mini blocks, the sweeps turn the sums of the mini blocks into the sums of everything
before them, and the threads put both together. Whatever the orders of the threads,
every element of the chunk ends up with the sum of what comes before it in the chunk
(`Alpaka.Scan.chunk_assigns`).
-/

namespace Alpaka.Scan

open Finset (range sum_congr)
open Math (Assigns foldl_assigns)
open Math.Sweep (Pairs Summed Prefixed upPair downPair upSteps downSteps sum_range_blocks)

/-- Every thread has a frame of the chunk. -/
theorem BlocksLaunch.Proper.exists_frames {device : Device} {launch : BlocksLaunch}
    (proper : launch.Proper device) :
    ∃ frame : ℕ → ℕ,
      (∀ thread < launch.numThreads, lineShare device.idxPolicy thread launch.numThreads 0
        launch.chunkExtent launch.elsPerThread = [frame thread]) ∧
      Set.BijOn frame (Set.Iio launch.numThreads)
        {x | launch.elsPerThread ∣ x ∧ x < launch.chunkExtent} := by
  have frames := Alpaka.exists_frames device.idxPolicy launch.numThreads proper.elsPerThread_pos
  rwa [Nat.mul_comm] at frames

/-! ## Loading -/

section Load

variable {Address M : Type} [DecidableEq Address] [AddCommMonoid M] {device : Device}
  {launch : BlocksLaunch} {args : BlocksArgs ℕ Address} {block chunkIdx : ℕ} {frame : ℕ → ℕ}
  {order : List ℕ}

/-- Threads with different frames keep the sums of their mini blocks apart. -/
private theorem sums_of_frames (proper : launch.Proper device) {first second k k' : ℕ}
    (aligned : launch.elsPerThread ∣ first) (aligned' : launch.elsPerThread ∣ second)
    (below : k < launch.elsPerThread / launch.miniBlockSize device)
    (below' : k' < launch.elsPerThread / launch.miniBlockSize device)
    (same : first / launch.miniBlockSize device + k = second / launch.miniBlockSize device + k') :
    first = second := by
  have width := proper.miniBlockSize_pos
  obtain ⟨blocks, els⟩ := proper.miniBlockSize_dvd
  obtain ⟨a, rfl⟩ := aligned
  obtain ⟨b, rfl⟩ := aligned'
  have several : 0 < blocks := Nat.pos_of_mul_pos_left (els ▸ proper.elsPerThread_pos)
  rw [els, Nat.mul_div_cancel_left _ width] at below below'
  rw [els, Nat.mul_assoc, Nat.mul_assoc, Nat.mul_div_cancel_left _ width,
    Nat.mul_div_cancel_left _ width] at same
  have quotients := congrArg (· / blocks) same
  simp only [Nat.mul_add_div several, Nat.div_eq_of_lt below, Nat.div_eq_of_lt below',
    Nat.add_zero] at quotients
  rw [quotients]

/-- **The first phase.** -/
private theorem loadPhase_assigns (block : ℕ) (proper : launch.Proper device)
    (inside : chunkIdx < numChunks launch args)
    (frames : Set.BijOn frame (Set.Iio launch.numThreads)
      {x | launch.elsPerThread ∣ x ∧ x < launch.chunkExtent})
    (complete : order.Perm (List.range launch.numThreads)) (memory : Memory Address M) :
    Assigns ∅ {i : ℕ × (ℕ ⊕ ℕ) | i.1 ∈ order ∧ i.2 ∈ scanIndex device launch}
      (fun i => scanPlace device launch block i.1 (frame i.1) i.2)
      (fun i => scanValue device launch
        (fun q => chunkInput launch args chunkIdx memory (frame i.1 + q)) i.2) memory
      (order.foldl (fun memory thread => scanMiniBlocks device launch block thread (frame thread)
        (copyIn launch args block chunkIdx thread (frame thread) memory)) memory) := by
  have member {thread : ℕ} (inOrder : thread ∈ order) : thread < launch.numThreads :=
    List.mem_range.mp (complete.mem_iff.mp inOrder)
  have aligned {thread : ℕ} (inOrder : thread ∈ order) : launch.elsPerThread ∣ frame thread :=
    (frames.mapsTo (member inOrder)).1
  refine foldl_assigns (fun _ => {x | ∃ a, x = .global a}) (complete.nodup_iff.mpr List.nodup_range)
    (fun thread inOrder memory => loadAndScan_assigns block thread proper inside ?_ memory) ?_
    (fun _ _ => Set.disjoint_empty _) (fun _ _ _ _ => Set.notMem_empty _) ?_ memory
  · exact add_le_of_dvd (Nat.dvd_mul_right _ _) (aligned inOrder) (frames.mapsTo (member inOrder)).2
  · intro thread _ first second agree i _
    congr 1
    funext q
    unfold chunkInput
    rw [agree _ ⟨_, rfl⟩]
  · intro first inOrder second inOrder' different i inIndex
    refine ⟨fun ⟨a, global⟩ => ?_, fun j inIndex' same => ?_⟩
    · cases i <;> cases global
    · cases i with
      | inl q =>
          cases j with
          | inl q' => exact different (Location.register.inj same).2.1
          | inr k => exact register_ne_tmp same
      | inr k =>
          cases j with
          | inl q' => exact register_ne_tmp same.symm
          | inr k' =>
              have frames' := sums_of_frames proper (aligned inOrder) (aligned inOrder') inIndex
                inIndex' (tmp_injective same)
              exact different (frames.injOn (member inOrder) (member inOrder') frames')

/-- Every mini block of the chunk is one of those of a thread. -/
private theorem exists_thread (proper : launch.Proper device)
    (frames : Set.BijOn frame (Set.Iio launch.numThreads)
      {x | launch.elsPerThread ∣ x ∧ x < launch.chunkExtent}) {k : ℕ}
    (inside : k < launch.miniBlocksPerChunk device) :
    ∃ thread < launch.numThreads, ∃ own < launch.elsPerThread / launch.miniBlockSize device,
      frame thread + own * launch.miniBlockSize device = k * launch.miniBlockSize device ∧
        frame thread / launch.miniBlockSize device + own = k := by
  have width := proper.miniBlockSize_pos
  obtain ⟨blocks, els⟩ := proper.miniBlockSize_dvd
  have several : 0 < blocks := Nat.pos_of_mul_pos_left (els ▸ proper.elsPerThread_pos)
  have whole : k / blocks * blocks + k % blocks = k := Nat.div_add_mod' k blocks
  have begins : k / blocks * launch.elsPerThread + k % blocks * launch.miniBlockSize device =
      k * launch.miniBlockSize device := by
    calc k / blocks * launch.elsPerThread + k % blocks * launch.miniBlockSize device
        = (k / blocks * blocks + k % blocks) * launch.miniBlockSize device := by rw [els]; ring
      _ = k * launch.miniBlockSize device := by rw [whole]
  have before : k / blocks * launch.elsPerThread < launch.chunkExtent := by
    have end_ := (Nat.mul_lt_mul_right width).mpr inside
    rw [proper.miniBlocks_mul] at end_
    omega
  obtain ⟨thread, below, same⟩ := frames.surjOn ⟨Nat.dvd_mul_left _ _, before⟩
  refine ⟨thread, below, k % blocks, ?_, ?_, ?_⟩
  · rw [els, Nat.mul_div_cancel_left _ width]
    exact Nat.mod_lt k several
  · rw [same]
    exact begins
  · rw [same, els, Nat.mul_left_comm, Nat.mul_div_cancel_left _ width]
    exact whole

/-- What a block knows of a chunk once it is loaded: the registers hold the sums within the
mini blocks, the shared memory those of the mini blocks. -/
structure Loaded (device : Device) (launch : BlocksLaunch) (block : ℕ) (frame : ℕ → ℕ)
    (values : ℕ → M) (memory after : Memory Address M) : Prop where
  registers : ∀ thread < launch.numThreads, ∀ q < launch.elsPerThread,
    after (.register block thread q) =
      inMiniBlock (launch.miniBlockSize device) (fun q => values (frame thread + q)) q
  sums : ∀ k < launch.miniBlocksPerChunk device,
    after (tmp device block k) = miniBlockSum (launch.miniBlockSize device) values k
  unchanged : ∀ address, after (.global address) = memory (.global address)

private theorem loaded (proper : launch.Proper device) (inside : chunkIdx < numChunks launch args)
    (frames : Set.BijOn frame (Set.Iio launch.numThreads)
      {x | launch.elsPerThread ∣ x ∧ x < launch.chunkExtent})
    (complete : order.Perm (List.range launch.numThreads)) (memory : Memory Address M) :
    Loaded device launch block frame (chunkInput launch args chunkIdx memory) memory
      (order.foldl (fun memory thread => scanMiniBlocks device launch block thread (frame thread)
        (copyIn launch args block chunkIdx thread (frame thread) memory)) memory) := by
  have width := proper.miniBlockSize_pos
  have assigns := loadPhase_assigns block proper inside frames complete memory
  have inOrder {thread : ℕ} (below : thread < launch.numThreads) : thread ∈ order :=
    complete.mem_iff.mpr (List.mem_range.mpr below)
  refine ⟨fun thread below q here => assigns.written (thread, .inl q) ⟨inOrder below, here⟩,
    fun k here => ?_, fun address => assigns.other _ (Set.notMem_empty _) fun i _ same => ?_⟩
  · obtain ⟨thread, below, own, inThread, begins, place⟩ := exists_thread proper frames here
    have sum : order.foldl (fun memory thread => scanMiniBlocks device launch block thread
        (frame thread) (copyIn launch args block chunkIdx thread (frame thread) memory)) memory
          (tmp device block (frame thread / launch.miniBlockSize device + own)) = _ :=
      assigns.written (thread, .inr own) ⟨inOrder below, inThread⟩
    rw [place] at sum
    refine sum.trans ?_
    change miniBlockSum _ (fun q => chunkInput launch args chunkIdx memory (frame thread + q))
      own = _
    unfold miniBlockSum
    refine sum_congr rfl fun j _ => ?_
    dsimp only
    rw [← Nat.add_assoc, begins]
  · obtain ⟨thread, q | k⟩ := i
    · cases same
    · cases same

end Load

/-! ## Sweeping -/

section Sweep

variable (policy : Policy) {numThreads : ℕ} {orders : ℕ → List ℕ}

/-- The phases of a sweep are its levels, each with the pairs in some order. -/
private theorem afterPhases_sweep {Memory : Type} (several : 0 < numThreads)
    (complete : ∀ number, (orders number).Perm (List.range numThreads)) (steps : List (ℕ × ℕ))
    (pair : ℕ → ℕ → Memory → Memory) (number : ℕ) (memory : Memory) :
    ∃ runs : List ((ℕ × ℕ) × List ℕ), runs.map Prod.fst = steps ∧
      (∀ run ∈ runs, Pairs run.1.1 run.2) ∧
      afterPhases policy numThreads orders (steps.map fun step =>
        (⟨0, 2 * step.1, 2, fun _ frameElem => pair step.2 frameElem⟩ : Phase Memory)) number
          memory =
        runs.foldl (fun memory run => run.2.foldl
          (fun memory element => pair run.1.2 element memory) memory) memory := by
  let phase (step : ℕ × ℕ) : Phase Memory :=
    ⟨0, 2 * step.1, 2, fun _ frameElem => pair step.2 frameElem⟩
  have proper (step : ℕ × ℕ) : (phase step).Proper := ⟨Nat.zero_le _, Nat.two_pos⟩
  refine ⟨(steps.zipIdx number).map fun step =>
    (step.1, ((phase step.1).tasks policy numThreads (orders step.2)).map Prod.snd),
    ?_, fun run member => ?_, ?_⟩
  · rw [List.map_map]
    exact List.zipIdx_map_fst _ _
  · obtain ⟨step, _, rfl⟩ := List.mem_map.mp member
    refine ⟨Phase.nodup_elements policy (proper step.1) (complete step.2), fun element => ?_⟩
    rw [Phase.mem_elements policy (proper step.1) several (complete step.2)]
    change (∃ count, element = 0 + count * 2 ∧ element < 2 * step.1.1) ↔
      ∃ pair < step.1.1, element = 2 * pair
    constructor
    · rintro ⟨count, rfl, below⟩
      exact ⟨count, by omega, by omega⟩
    · rintro ⟨count, below, rfl⟩
      exact ⟨count, by omega, by omega⟩
  · unfold afterPhases
    rw [List.zipIdx_map, List.foldl_map, List.foldl_map]
    simp only [List.foldl_map]
    rfl

/-- A phase that is run for one index only. -/
private theorem afterPhases_once {Memory : Type} (several : 0 < numThreads)
    (complete : ∀ number, (orders number).Perm (List.range numThreads)) (act : Memory → Memory)
    (number : ℕ) (memory : Memory) :
    afterPhases policy numThreads orders [⟨0, 1, 1, fun _ _ => act⟩] number memory =
      act memory := by
  have proper : (⟨0, 1, 1, fun _ _ => act⟩ : Phase Memory).Proper := ⟨Nat.zero_le _, Nat.one_pos⟩
  have only := (List.perm_ext_iff_of_nodup (Phase.nodup_elements policy proper (complete number))
    (List.nodup_singleton 0)).mpr fun element => ?_
  · have length := only.length_eq
    rw [List.length_map, List.length_singleton] at length
    obtain ⟨task, single⟩ := List.length_eq_one_iff.mp length
    rw [afterPhases_single, single]
    rfl
  · rw [Phase.mem_elements policy proper several (complete number), List.mem_singleton]
    change (∃ count, element = 0 + count * 1 ∧ element < 1) ↔ _
    constructor
    · rintro ⟨count, index, below⟩
      omega
    · rintro rfl
      exact ⟨0, rfl, Nat.one_pos⟩

variable {Address M : Type} [DecidableEq Address] [AddCommMonoid M] {device : Device}
  {launch : BlocksLaunch} {args : BlocksArgs ℕ Address} {block chunkIdx : ℕ}

/-- The phases between loading and storing. -/
def sweepPhases (device : Device) (launch : BlocksLaunch) (args : BlocksArgs ℕ Address)
    (block chunkIdx : ℕ) : List (Phase (Memory Address M)) :=
  (upSteps (launch.miniBlocksPerChunk device / 2) 1).map (fun step =>
    ⟨0, 2 * step.1, 2, fun _ frameElem => upPair (tmp device block) step.2 frameElem⟩) ++
  [⟨0, 1, 1, fun _ _ => saveBlockSums device launch args block chunkIdx⟩] ++
  (downSteps (launch.miniBlocksPerChunk device) 1 (launch.miniBlocksPerChunk device / 2)).map
    (fun step =>
      ⟨0, 2 * step.1, 2, fun _ frameElem => downPair (tmp device block) step.2 frameElem⟩)

/-- Saving the sum of the chunk. -/
private theorem saveBlockSums_spec (device : Device) (launch : BlocksLaunch)
    (args : BlocksArgs ℕ Address) (block chunkIdx : ℕ) (memory : Memory Address M) :
    (∀ k, k ≠ launch.miniBlocksPerChunk device - 1 →
      saveBlockSums device launch args block chunkIdx memory (tmp device block k) =
        memory (tmp device block k)) ∧
    saveBlockSums device launch args block chunkIdx memory
      (tmp device block (launch.miniBlocksPerChunk device - 1)) = 0 ∧
    (∀ sums ∈ args.blockSums,
      saveBlockSums device launch args block chunkIdx memory (.global (sums chunkIdx)) =
        memory (tmp device block (launch.miniBlocksPerChunk device - 1))) ∧
    ∀ x, x ≠ tmp device block (launch.miniBlocksPerChunk device - 1) →
      (∀ sums ∈ args.blockSums, x ≠ .global (sums chunkIdx)) →
      saveBlockSums device launch args block chunkIdx memory x = memory x := by
  have other (x : Location Address)
      (away : x ≠ tmp device block (launch.miniBlocksPerChunk device - 1))
      (apart : ∀ sums ∈ args.blockSums, x ≠ .global (sums chunkIdx)) :
      saveBlockSums device launch args block chunkIdx memory x = memory x := by
    refine (Function.update_of_ne away _ _).trans ?_
    cases stored : args.blockSums with
    | none => rfl
    | some sums => exact Function.update_of_ne (apart sums stored) _ _
  refine ⟨fun k different => ?_, Function.update_self _ _ _, fun sums stored => ?_, other⟩
  · exact other _ (fun same => different (tmp_injective same)) fun _ _ same => by cases same
  · have apart : (.global (sums chunkIdx) : Location Address) ≠
        tmp device block (launch.miniBlocksPerChunk device - 1) := by
      intro same
      cases same
    refine (Function.update_of_ne apart _ _).trans ?_
    rw [show args.blockSums = some sums from stored]
    exact Function.update_self _ _ _

/-- What the sweeps do to a chunk: the sums of the mini blocks become the sums of
everything before them, and the sum of the chunk is saved. -/
structure Swept (device : Device) (launch : BlocksLaunch) (args : BlocksArgs ℕ Address)
    (block chunkIdx : ℕ) (memory after : Memory Address M) : Prop where
  sums : ∀ k < launch.miniBlocksPerChunk device,
    after (tmp device block k) = ∑ j ∈ range k, memory (tmp device block j)
  total : ∀ sums ∈ args.blockSums, after (.global (sums chunkIdx)) =
    ∑ j ∈ range (launch.miniBlocksPerChunk device), memory (tmp device block j)
  unchanged : ∀ x, (∀ k, x ≠ tmp device block k) →
    (∀ sums ∈ args.blockSums, x ≠ .global (sums chunkIdx)) → after x = memory x

private theorem upSwept (block : ℕ) (proper : launch.Proper device)
    (complete : ∀ number, (orders number).Perm (List.range launch.numThreads)) {bits : ℕ}
    (size : launch.miniBlocksPerChunk device = 2 ^ bits) (number : ℕ) (memory : Memory Address M) :
    Summed (tmp device block) (fun k => memory (tmp device block k)) memory bits bits
      (afterPhases policy launch.numThreads orders
        ((upSteps (launch.miniBlocksPerChunk device / 2) 1).map fun step =>
          ⟨0, 2 * step.1, 2, fun _ frameElem => upPair (tmp device block) step.2 frameElem⟩)
        number memory) := by
  obtain ⟨runs, levels, pairs, up⟩ := afterPhases_sweep policy proper.numThreads_pos complete
    (upSteps (launch.miniBlocksPerChunk device / 2) 1) (upPair (tmp device block)) number memory
  rw [up]
  rw [size] at levels
  have row : Summed (tmp device block) (fun k => memory (tmp device block k)) memory bits 0
      memory := Summed.of_row fun _ _ => rfl
  exact row.sweep runs tmp_injective.injOn (Nat.zero_le bits) levels pairs

private theorem downSwept (proper : launch.Proper device)
    (complete : ∀ number, (orders number).Perm (List.range launch.numThreads)) {bits : ℕ}
    (size : launch.miniBlocksPerChunk device = 2 ^ bits) {values : ℕ → M}
    {base memory : Memory Address M}
    (prefixed : Prefixed (tmp device block) values base bits bits memory) (number : ℕ) :
    Prefixed (tmp device block) values base bits 0
      (afterPhases policy launch.numThreads orders
        ((downSteps (launch.miniBlocksPerChunk device) 1
          (launch.miniBlocksPerChunk device / 2)).map fun step =>
            ⟨0, 2 * step.1, 2, fun _ frameElem => downPair (tmp device block) step.2 frameElem⟩)
        number memory) := by
  obtain ⟨runs, levels, pairs, down⟩ := afterPhases_sweep policy proper.numThreads_pos complete
    (downSteps (launch.miniBlocksPerChunk device) 1 (launch.miniBlocksPerChunk device / 2))
    (downPair (tmp device block)) number memory
  rw [down]
  refine prefixed.sweep runs tmp_injective.injOn le_rfl ?_ pairs
  rw [levels, size, Nat.sub_self, pow_zero]

/-- **The sweeps.** -/
private theorem swept (proper : launch.Proper device)
    (complete : ∀ number, (orders number).Perm (List.range launch.numThreads)) (number : ℕ)
    (memory : Memory Address M) :
    Swept device launch args block chunkIdx memory
      (afterPhases policy launch.numThreads orders
        (sweepPhases device launch args block chunkIdx) number memory) := by
  obtain ⟨-, bits, -, size⟩ := proper.powers
  unfold sweepPhases
  have summed := upSwept policy block proper complete size number memory
  rw [afterPhases_append, afterPhases_append,
    afterPhases_once policy proper.numThreads_pos complete]
  generalize afterPhases policy launch.numThreads orders ((upSteps _ 1).map _) number memory =
    middle at summed ⊢
  obtain ⟨cells, zero, total, other⟩ :=
    saveBlockSums_spec device launch args block chunkIdx middle
  rw [size] at cells zero total other
  have prefixed (later : ℕ) := downSwept policy proper complete size
    (summed.prefixed zero fun k below => cells k below.ne) later
  refine ⟨fun k below => (prefixed _).row (size ▸ below), fun sums stored => ?_,
    fun x away apart => ?_⟩
  · have sum := (total sums stored).trans summed.total
    rw [← size] at sum
    refine ((prefixed _).outside _ fun k _ same => ?_).trans sum
    cases same
  · have kept := (other x (away _) apart).trans (summed.outside x fun k _ => away k)
    exact ((prefixed _).outside x fun k _ => away k).trans kept

end Sweep

/-! ## Storing -/

section Store

variable {Address M : Type} [DecidableEq Address] [AddCommMonoid M] {device : Device}
  {launch : BlocksLaunch} {args : BlocksArgs ℕ Address} {block chunkIdx chunks : ℕ}
  {frame : ℕ → ℕ} {order : List ℕ}

/-- Elements of different frames are different. -/
private theorem frames_apart {width first second i j : ℕ} (aligned : width ∣ first)
    (aligned' : width ∣ second) (below : i < width) (below' : j < width)
    (same : first + i = second + j) : first = second := by
  have positive := Nat.zero_lt_of_lt below
  obtain ⟨a, rfl⟩ := aligned
  obtain ⟨b, rfl⟩ := aligned'
  have quotients := congrArg (· / width) same
  simp only [Nat.mul_add_div positive, Nat.div_eq_of_lt below, Nat.div_eq_of_lt below',
    Nat.add_zero] at quotients
  rw [quotients]

/-- What a thread reads behind the sweeps: its registers, the shared memory and its
elements of the input. -/
private def storeReads (device : Device) (launch : BlocksLaunch) (args : BlocksArgs ℕ Address)
    (block chunkIdx thread frameElem : ℕ) : Set (Location Address) :=
  {x | (∃ q, x = .register block thread q) ∨ (∃ k, x = tmp device block k) ∨
    ∃ i < launch.elsPerThread, launch.chunkExtent * chunkIdx + frameElem + i < args.numElements ∧
      x = .global (args.inputVec (launch.chunkExtent * chunkIdx + frameElem + i))}

/-- **The last phase.** -/
private theorem storePhase_assigns (block : ℕ) (proper : launch.Proper device)
    (separate : args.Separate chunks) (inside : chunkIdx < numChunks launch args)
    (frames : Set.BijOn frame (Set.Iio launch.numThreads)
      {x | launch.elsPerThread ∣ x ∧ x < launch.chunkExtent})
    (complete : order.Perm (List.range launch.numThreads)) (memory : Memory Address M) :
    Assigns ∅ {i : ℕ × (ℕ ⊕ ℕ) | i.1 ∈ order ∧ i.2 ∈ storeIndex launch args chunkIdx (frame i.1)}
      (fun i => storePlace launch args block chunkIdx i.1 (frame i.1) i.2)
      (fun i => Sum.elim
        (incremented device launch args block chunkIdx i.1 (frame i.1) memory)
        (fun j => finalValue launch args chunkIdx (frame i.1 + j)
          (incremented device launch args block chunkIdx i.1 (frame i.1) memory j) memory) i.2)
      memory
      (order.foldl (fun memory thread => copyOut launch args block chunkIdx thread (frame thread)
        (addToMiniBlocks device launch args block chunkIdx thread (frame thread) memory))
        memory) := by
  have member {thread : ℕ} (inOrder : thread ∈ order) : thread < launch.numThreads :=
    List.mem_range.mp (complete.mem_iff.mp inOrder)
  have aligned {thread : ℕ} (inOrder : thread ∈ order) : launch.elsPerThread ∣ frame thread :=
    (frames.mapsTo (member inOrder)).1
  have threads {first second i j : ℕ} (inOrder : first ∈ order) (inOrder' : second ∈ order)
      (below : i < launch.elsPerThread) (below' : j < launch.elsPerThread)
      (same : launch.chunkExtent * chunkIdx + frame first + i =
        launch.chunkExtent * chunkIdx + frame second + j) : first = second := by
    rw [Nat.add_assoc, Nat.add_assoc] at same
    exact frames.injOn (member inOrder) (member inOrder') (frames_apart (aligned inOrder)
      (aligned inOrder') below below' (Nat.add_left_cancel same))
  refine foldl_assigns
    (fun thread => storeReads device launch args block chunkIdx thread (frame thread))
    (complete.nodup_iff.mpr List.nodup_range)
    (fun thread inOrder memory =>
      addAndStore_assigns block thread proper separate inside ?_ memory) ?_
    (fun _ _ => Set.disjoint_empty _) (fun _ _ _ _ => Set.notMem_empty _) ?_ memory
  · exact add_le_of_dvd (Nat.dvd_mul_right _ _) (aligned inOrder) (frames.mapsTo (member inOrder)).2
  · intro thread _ first second agree i inIndex
    have sums (q : ℕ) :
        incremented device launch args block chunkIdx thread (frame thread) first q =
          incremented device launch args block chunkIdx thread (frame thread) second q := by
      unfold incremented
      rw [agree _ (.inl ⟨q, rfl⟩), agree _ (.inr (.inl ⟨_, rfl⟩))]
    cases i with
    | inl q => exact sums q
    | inr j =>
        obtain ⟨below, here⟩ := inIndex
        have input := agree _ (.inr (.inr ⟨j, below, here, rfl⟩))
        rw [Nat.add_assoc] at input
        simp only [Sum.elim_inr, finalValue, sums, input]
  · intro first inOrder second inOrder' different i inIndex
    cases i with
    | inl q =>
        refine ⟨fun read => ?_, fun j inIndex' same => ?_⟩
        · obtain ⟨q', same⟩ | ⟨k, same⟩ | ⟨_, _, _, same⟩ := read
          · exact different (Location.register.inj same).2.1
          · exact register_ne_tmp same
          · cases same
        · cases j with
          | inl q' => exact different (Location.register.inj same).2.1
          | inr i' => cases same
    | inr i =>
        obtain ⟨below, here⟩ := inIndex
        refine ⟨fun read => ?_, fun j inIndex' same => ?_⟩
        · obtain ⟨q', same⟩ | ⟨k, same⟩ | ⟨i', below', here', same⟩ := read
          · cases same
          · cases same
          · exact different (threads inOrder inOrder' below below'
              (separate.aligned _ here _ here' (Location.global.inj same)))
        · cases j with
          | inl q' => cases same
          | inr i' =>
              obtain ⟨below', here'⟩ := inIndex'
              exact different (threads inOrder inOrder' below below'
                (separate.outputs here here' (Location.global.inj same)))

end Store

/-! ## The chunk -/

section Chunk

variable {Address M : Type} [DecidableEq Address] [AddCommMonoid M] {device : Device}
  {launch : BlocksLaunch} {args : BlocksArgs ℕ Address} {block chunkIdx : ℕ} {frame : ℕ → ℕ}

/-- The memory after a block has taken a chunk through all phases. -/
def chunkAfter (device : Device) (launch : BlocksLaunch) (args : BlocksArgs ℕ Address)
    (block chunkIdx : ℕ) (memory : Memory Address M) : Memory Address M :=
  afterPhases device.idxPolicy launch.numThreads (launch.threads block chunkIdx)
    (chunkPhases device launch args block chunkIdx) 0 memory

/-- Phases in which every thread handles its frame. -/
private theorem afterPhases_frames {Memory : Type} {policy : Policy} {numThreads : ℕ}
    {orders : ℕ → List ℕ} {phase : Phase Memory}
    (complete : ∀ number, (orders number).Perm (List.range numThreads))
    (frames : ∀ thread < numThreads,
      lineShare policy thread numThreads phase.first phase.stop phase.step = [frame thread])
    (number : ℕ) (memory : Memory) :
    afterPhases policy numThreads orders [phase] number memory =
      (orders number).foldl (fun memory thread => phase.body thread (frame thread) memory)
        memory := by
  rw [afterPhases_single, Phase.tasks_of_frames policy frames, List.foldl_map]
  intro thread member
  exact List.mem_range.mp ((complete number).mem_iff.mp member)

/-- The phases are loading, sweeping and storing. -/
private theorem exists_phases (block : ℕ) (proper : launch.Proper device)
    (inside : chunkIdx < numChunks launch args)
    (frames : ∀ thread < launch.numThreads, lineShare device.idxPolicy thread launch.numThreads 0
      launch.chunkExtent launch.elsPerThread = [frame thread])
    (owned : Set.BijOn frame (Set.Iio launch.numThreads)
      {x | launch.elsPerThread ∣ x ∧ x < launch.chunkExtent})
    (memory : Memory Address M) :
    ∃ middle late : Memory Address M, ∃ order : List ℕ,
      Loaded device launch block frame (chunkInput launch args chunkIdx memory) memory middle ∧
      Swept device launch args block chunkIdx middle late ∧
      order.Perm (List.range launch.numThreads) ∧
      chunkAfter device launch args block chunkIdx memory =
        order.foldl (fun memory thread => copyOut launch args block chunkIdx thread (frame thread)
          (addToMiniBlocks device launch args block chunkIdx thread (frame thread) memory))
          late := by
  have complete (number : ℕ) := proper.threads_perm block chunkIdx number
  let load : Phase (Memory Address M) := ⟨0, launch.chunkExtent, launch.elsPerThread,
    fun thread frameElem memory => scanMiniBlocks device launch block thread frameElem
      (copyIn launch args block chunkIdx thread frameElem memory)⟩
  let storing : Phase (Memory Address M) := ⟨0, launch.chunkExtent, launch.elsPerThread,
    fun thread frameElem memory => copyOut launch args block chunkIdx thread frameElem
      (addToMiniBlocks device launch args block chunkIdx thread frameElem memory)⟩
  have phases : chunkPhases device launch args block chunkIdx =
      [load] ++ sweepPhases device launch args block chunkIdx ++ [storing] := rfl
  have after := afterPhases_append device.idxPolicy launch.numThreads
    (launch.threads block chunkIdx) ([load] ++ sweepPhases device launch args block chunkIdx)
    [storing] 0 memory
  rw [← phases, afterPhases_append, afterPhases_frames complete frames,
    afterPhases_frames complete frames] at after
  exact ⟨_, _, _, loaded proper inside owned (complete _) memory,
    swept device.idxPolicy proper complete _ _, complete _, after⟩

omit [DecidableEq Address] in
/-- A register together with the mini blocks before its own is everything before it. -/
private theorem incremented_eq (proper : launch.Proper device) {values : ℕ → M}
    {memory middle late : Memory Address M}
    (load : Loaded device launch block frame values memory middle)
    (sweep : Swept device launch args block chunkIdx middle late) {thread i : ℕ}
    (below : thread < launch.numThreads) (aligned : launch.elsPerThread ∣ frame thread)
    (inChunk : frame thread < launch.chunkExtent) (inThread : i < launch.elsPerThread)
    (here : launch.chunkExtent * chunkIdx + (frame thread + i) < args.numElements) :
    incremented device launch args block chunkIdx thread (frame thread) late i =
      ∑ p ∈ range (frame thread + i), values p := by
  have width := proper.miniBlockSize_pos
  obtain ⟨first, begins⟩ := proper.miniBlockSize_dvd.trans aligned
  have own : frame thread + i / launch.miniBlockSize device * launch.miniBlockSize device =
      (first + i / launch.miniBlockSize device) * launch.miniBlockSize device := by
    rw [begins]
    ring
  have place : (frame thread + i / launch.miniBlockSize device * launch.miniBlockSize device) /
      launch.miniBlockSize device = first + i / launch.miniBlockSize device := by
    rw [own, Nat.mul_div_cancel _ width]
  have index : (first + i / launch.miniBlockSize device) * launch.miniBlockSize device +
      i % launch.miniBlockSize device = frame thread + i := by
    rw [← own, Nat.add_assoc, Nat.div_add_mod']
  have row : first + i / launch.miniBlockSize device < launch.miniBlocksPerChunk device := by
    have room : frame thread + launch.elsPerThread ≤ launch.chunkExtent :=
      add_le_of_dvd (Nat.dvd_mul_right _ _) aligned inChunk
    have inside : (first + i / launch.miniBlockSize device) * launch.miniBlockSize device <
        launch.miniBlocksPerChunk device * launch.miniBlockSize device := by
      rw [proper.miniBlocks_mul]
      omega
    exact Nat.lt_of_mul_lt_mul_right inside
  have begun : launch.chunkExtent * chunkIdx + frame thread +
      i / launch.miniBlockSize device * launch.miniBlockSize device < args.numElements := by
    have := Nat.div_mul_le_self i (launch.miniBlockSize device)
    omega
  have register : late (.register block thread i) = middle (.register block thread i) :=
    sweep.unchanged _ (fun _ => register_ne_tmp) fun _ _ same => by cases same
  have before : late (tmp device block (first + i / launch.miniBlockSize device)) =
      ∑ k ∈ range (first + i / launch.miniBlockSize device),
        ∑ j ∈ range (launch.miniBlockSize device),
          values (k * launch.miniBlockSize device + j) := by
    rw [sweep.sums _ row]
    refine sum_congr rfl fun k member => load.sums k ?_
    exact (Finset.mem_range.mp member).trans row
  have within : middle (.register block thread i) = ∑ j ∈ range (i % launch.miniBlockSize device),
      values ((first + i / launch.miniBlockSize device) * launch.miniBlockSize device + j) := by
    rw [load.registers thread below i inThread, ← own]
    unfold inMiniBlock
    refine sum_congr rfl fun j _ => ?_
    rw [Nat.add_assoc]
  unfold incremented
  rw [if_pos begun, place, register, within, before, add_comm, sum_range_blocks, index]

/-- The elements of a chunk, and where the sum of the chunk is kept. -/
def chunkIndex (launch : BlocksLaunch) (args : BlocksArgs ℕ Address) (chunkIdx : ℕ) :
    Set (ℕ ⊕ (ℕ → Address)) :=
  {i | i.elim (fun p => p < launch.chunkExtent ∧
    launch.chunkExtent * chunkIdx + p < args.numElements) (· ∈ args.blockSums)}

def chunkPlace (launch : BlocksLaunch) (args : BlocksArgs ℕ Address) (chunkIdx : ℕ) :
    ℕ ⊕ (ℕ → Address) → Location Address
  | .inl p => .global (args.outputVec (launch.chunkExtent * chunkIdx + p))
  | .inr sums => .global (sums chunkIdx)

/-- The elements get the sum of what is before them in the chunk. -/
def chunkValue (launch : BlocksLaunch) (args : BlocksArgs ℕ Address) (chunkIdx : ℕ)
    (memory : Memory Address M) : ℕ ⊕ (ℕ → Address) → M
  | .inl p => finalValue launch args chunkIdx p
      (∑ j ∈ range p, chunkInput launch args chunkIdx memory j) memory
  | .inr _ => ∑ j ∈ range launch.chunkExtent, chunkInput launch args chunkIdx memory j

/-- Everything but the memory of the device. -/
def local_ (Address : Type) : Set (Location Address) := {x | ∀ address, x ≠ .global address}

/-- **A chunk.** -/
theorem chunk_assigns (block : ℕ) (proper : launch.Proper device)
    (separate : args.Separate (numChunks launch args))
    (inside : chunkIdx < numChunks launch args) (memory : Memory Address M) :
    Assigns (local_ Address) (chunkIndex launch args chunkIdx) (chunkPlace launch args chunkIdx)
      (chunkValue launch args chunkIdx memory) memory
      (chunkAfter device launch args block chunkIdx memory) := by
  obtain ⟨frame, frames, owned⟩ := proper.exists_frames
  obtain ⟨middle, late, order, load, sweep, complete, after⟩ :=
    exists_phases block proper inside frames owned memory
  have stored := storePhase_assigns block proper separate inside owned complete late
  rw [after]
  have inOrder {thread : ℕ} (below : thread < launch.numThreads) : thread ∈ order :=
    complete.mem_iff.mpr (List.mem_range.mpr below)
  have kept {address : Address} (apart : ∀ sums ∈ args.blockSums, address ≠ sums chunkIdx) :
      late (.global address) = memory (.global address) := by
    refine (sweep.unchanged _ (fun _ same => ?_) fun sums held same => ?_).trans
      (load.unchanged address)
    · cases same
    · exact apart sums held (Location.global.inj same)
  refine ⟨fun i member => ?_, fun x global away => ?_⟩
  · cases i with
    | inl p =>
        obtain ⟨below, here⟩ := member
        have several := proper.elsPerThread_pos
        have begins : p / launch.elsPerThread * launch.elsPerThread < launch.chunkExtent :=
          (Nat.div_mul_le_self p _).trans_lt below
        obtain ⟨thread, inBlock, same⟩ := owned.surjOn ⟨Nat.dvd_mul_left _ _, begins⟩
        have place : frame thread + p % launch.elsPerThread = p := by
          rw [same]
          exact Nat.div_add_mod' p _
        have inThread : p % launch.elsPerThread < launch.elsPerThread := Nat.mod_lt p several
        have before := incremented_eq proper load sweep inBlock (owned.mapsTo inBlock).1
          (owned.mapsTo inBlock).2 inThread (by rw [place]; exact here)
        have written := stored.written (thread, .inr (p % launch.elsPerThread))
          ⟨inOrder inBlock, inThread, by rw [Nat.add_assoc, place]; exact here⟩
        simp only [storePlace, Sum.elim_inr, Nat.add_assoc, place, before] at written
        refine written.trans ?_
        unfold chunkValue finalValue
        cases args.scanType with
        | exclusiveScan => rfl
        | inclusiveScan =>
            refine congrArg (· + _) (kept fun sums held same => ?_)
            exact ((separate.sums sums held).2 _ inside _ here).2 same.symm
    | inr sums =>
        refine (stored.other (.global (sums chunkIdx)) (Set.notMem_empty _) ?_).trans
          ((sweep.total sums member).trans ?_)
        · rintro ⟨thread, q | j⟩ ⟨_, held⟩ same
          · cases same
          · exact ((separate.sums sums member).2 _ inside _ held.2).1 (Location.global.inj same)
        · have all := sum_range_blocks (chunkInput launch args chunkIdx memory)
            (launch.miniBlockSize device) (launch.miniBlocksPerChunk device) 0
          rw [Finset.range_zero, Finset.sum_empty, add_zero, Nat.add_zero,
            proper.miniBlocks_mul] at all
          refine (sum_congr rfl fun k below => ?_).trans all
          exact load.sums k (Finset.mem_range.mp below)
  · obtain ⟨address, rfl⟩ : ∃ address, x = .global address := by
      by_contra none
      exact global fun address same => none ⟨address, same⟩
    refine (stored.other _ (Set.notMem_empty _) ?_).trans (kept fun sums held same => ?_)
    · rintro ⟨thread, q | j⟩ ⟨member, held⟩ same
      · cases same
      · have below : thread < launch.numThreads :=
          List.mem_range.mp (complete.mem_iff.mp member)
        have room := add_le_of_dvd (Nat.dvd_mul_right launch.elsPerThread launch.numThreads)
          (owned.mapsTo below).1 (owned.mapsTo below).2
        refine away (.inl (frame thread + j)) ⟨?_, ?_⟩ ?_
        · exact (Nat.add_lt_add_left held.1 _).trans_le room
        · rw [← Nat.add_assoc]
          exact held.2
        · rw [same]
          change (.global _ : Location Address) = .global _
          rw [← Nat.add_assoc]
    · exact away (.inr sums) held (congrArg Location.global same)

end Chunk

end Alpaka.Scan
