import Alpaka.OnHost.ScanBlocks

/-! # The kernels of a scan

Every chunk is taken by one block of the grid. Whatever the order of the blocks, each
element ends up with the sum of what comes before it in its chunk, and the sums of the
chunks are saved (`Alpaka.Scan.scanBlocksKernel_scans`). The second kernel adds a saved sum
to every element of its chunk (`Alpaka.Scan.scanAddIncrementsKernel_adds`).
-/

namespace Alpaka.Scan

open Finset (range sum_congr)
open Math (Assigns Settles foldl_assigns)

attribute [local instance (2000)] neZero_one

/-! ## The chunks of the grid -/

section Blocks

variable {Address M : Type} [DecidableEq Address] [AddCommMonoid M] {device : Device}
  {launch : BlocksLaunch} {args : BlocksArgs ℕ Address}

/-- The blocks of the grid share out the chunks as the threads of a block share out the
elements. -/
def gridPhase (device : Device) (launch : BlocksLaunch) (args : BlocksArgs ℕ Address) :
    Phase (Memory Address M) :=
  ⟨0, numChunks launch args, 1, chunkAfter device launch args⟩

private theorem gridPhase_proper :
    (gridPhase device launch args : Phase (Memory Address M)).Proper :=
  ⟨Nat.zero_le _, Nat.one_pos⟩

theorem chunkPhases_proper {I : Type} [Add I] [Sub I] [Mul I] [Div I] [Mod I] [LT I]
    [DecidableLT I] [OfNat I 1] [DecidableEq I] [IdxValue I] (args : BlocksArgs I Address)
    (proper : launch.Proper device) (block : ℕ) (chunkIdx : I) :
    ∀ phase ∈ (chunkPhases device launch args block chunkIdx : List (Phase (Memory Address M))),
      phase.Proper := by
  intro phase member
  unfold chunkPhases at member
  simp only [List.mem_append, List.mem_singleton, List.mem_map] at member
  obtain (((rfl | ⟨_, _, rfl⟩) | rfl) | ⟨_, _, rfl⟩) | rfl := member
  · exact ⟨Nat.zero_le _, proper.elsPerThread_pos⟩
  · exact ⟨Nat.zero_le _, Nat.two_pos⟩
  · exact ⟨Nat.zero_le _, Nat.one_pos⟩
  · exact ⟨Nat.zero_le _, Nat.two_pos⟩
  · exact ⟨Nat.zero_le _, proper.elsPerThread_pos⟩

/-- The kernel settles on what the blocks do to their chunks, in turn. -/
theorem scanBlocksKernel_settles (proper : launch.Proper device)
    (memory : Memory Address M) :
    Settles (fun fuel => scanBlocksKernel device launch args fuel memory)
      (((gridPhase device launch args : Phase (Memory Address M)).tasks device.idxPolicy
        launch.numBlocks launch.blocks).foldl
          (fun memory task => chunkAfter device launch args task.1 task.2 memory) memory) := by
  unfold scanBlocksKernel Phase.tasks
  rw [List.foldl_flatMap]
  simp only [List.foldl_map]
  refine Settles.foldlM (fun block member memory => ?_) memory
  have below : block < launch.numBlocks :=
    List.mem_range.mp (proper.blocks_perm.mem_iff.mp member)
  refine (lineIdxs_settles device.idxPolicy (Nat.zero_le _) Nat.one_pos below).bind ?_
  refine Settles.foldlM (fun chunkIdx _ memory => ?_) memory
  exact runPhases_settles device.idxPolicy (proper.threads_perm block chunkIdx)
    (chunkPhases_proper args proper block chunkIdx) memory

/-- The blocks take all chunks. -/
private theorem mem_chunks (proper : launch.Proper device)
    (several : 0 < args.numElements → 0 < launch.numBlocks) {chunkIdx : ℕ} :
    chunkIdx ∈ ((gridPhase device launch args : Phase (Memory Address M)).tasks device.idxPolicy
        launch.numBlocks launch.blocks).map Prod.snd ↔
      chunkIdx < numChunks launch args := by
  obtain none | some := Nat.eq_zero_or_pos launch.numBlocks
  · have empty : launch.blocks = [] := by
      have complete := proper.blocks_perm
      rw [none] at complete
      exact complete.eq_nil
    have nothing : args.numElements = 0 := by
      by_contra something
      exact (several (Nat.pos_of_ne_zero something)).ne' none
    rw [lt_numChunks_iff (by rw [proper.chunkExtent_eq]; decide), nothing, empty]
    simp [Phase.tasks]
  · rw [Phase.mem_elements device.idxPolicy gridPhase_proper some proper.blocks_perm]
    change (∃ count, chunkIdx = 0 + count * 1 ∧ chunkIdx < numChunks launch args) ↔ _
    constructor
    · rintro ⟨_, _, below⟩
      exact below
    · intro below
      exact ⟨chunkIdx, by omega, below⟩

/-- The elements of a chunk in the input. -/
private def chunkReads (launch : BlocksLaunch) (args : BlocksArgs ℕ Address) (chunkIdx : ℕ) :
    Set (Location Address) :=
  {x | ∃ p < launch.chunkExtent, launch.chunkExtent * chunkIdx + p < args.numElements ∧
    x = .global (args.inputVec (launch.chunkExtent * chunkIdx + p))}

omit [DecidableEq Address] in
/-- What becomes of a chunk depends on its elements. -/
private theorem chunkValue_determined {chunkIdx : ℕ} {first second : Memory Address M}
    (agree : ∀ x ∈ chunkReads launch args chunkIdx, first x = second x)
    {i : ℕ ⊕ (ℕ → Address)} (member : i ∈ chunkIndex launch args chunkIdx) :
    chunkValue launch args chunkIdx first i = chunkValue launch args chunkIdx second i := by
  have input (p : ℕ) (below : p < launch.chunkExtent) :
      chunkInput launch args chunkIdx first p = chunkInput launch args chunkIdx second p := by
    unfold chunkInput
    split
    · next here => exact agree _ ⟨p, below, here, rfl⟩
    · rfl
  cases i with
  | inl p =>
      obtain ⟨below, here⟩ := member
      have before : ∑ j ∈ range p, chunkInput launch args chunkIdx first j =
          ∑ j ∈ range p, chunkInput launch args chunkIdx second j :=
        sum_congr rfl fun j earlier => input j ((Finset.mem_range.mp earlier).trans below)
      unfold chunkValue finalValue
      dsimp only
      rw [before]
      cases args.scanType with
      | exclusiveScan => rfl
      | inclusiveScan => exact congrArg (· + _) (agree _ ⟨p, below, here, rfl⟩)
  | inr sums => exact sum_congr rfl fun j inside => input j (Finset.mem_range.mp inside)

omit [DecidableEq Address] in
/-- A chunk is read from the memory of the device. -/
private theorem chunkReads_global {chunkIdx : ℕ} :
    Disjoint (chunkReads launch args chunkIdx) (local_ Address) := by
  apply Set.disjoint_left.mpr
  rintro x ⟨p, _, _, rfl⟩ scratch
  exact scratch _ rfl

omit [DecidableEq Address] in
/-- A chunk is written to the memory of the device. -/
private theorem chunkPlace_global {chunkIdx : ℕ} {i : ℕ ⊕ (ℕ → Address)} :
    chunkPlace launch args chunkIdx i ∉ local_ Address := by
  intro scratch
  cases i with
  | inl p => exact scratch _ rfl
  | inr sums => exact scratch _ rfl

/-- Elements of different chunks are different. -/
private theorem chunk_apart {first second p q : ℕ} (below : p < launch.chunkExtent)
    (below' : q < launch.chunkExtent)
    (same : launch.chunkExtent * first + p = launch.chunkExtent * second + q) :
    first = second := by
  have positive := Nat.zero_lt_of_lt below
  have quotients := congrArg (· / launch.chunkExtent) same
  simp only [Nat.mul_add_div positive, Nat.div_eq_of_lt below, Nat.div_eq_of_lt below',
    Nat.add_zero] at quotients
  exact quotients

omit [DecidableEq Address] in
/-- A chunk writes nothing that another one reads or writes. -/
private theorem chunkPlace_apart {first second : ℕ}
    (separate : args.Separate (numChunks launch args))
    (inside : first < numChunks launch args) (inside' : second < numChunks launch args)
    (different : first ≠ second) {i : ℕ ⊕ (ℕ → Address)}
    (member : i ∈ chunkIndex launch args first) :
    chunkPlace launch args first i ∉ chunkReads launch args second ∧
      ∀ j ∈ chunkIndex launch args second,
        chunkPlace launch args first i ≠ chunkPlace launch args second j := by
  constructor
  · rintro ⟨q, below', here', same⟩
    cases i with
    | inl p =>
        obtain ⟨below, here⟩ := member
        exact different (chunk_apart below below'
          (separate.aligned _ here _ here' (Location.global.inj same)))
    | inr sums =>
        exact ((separate.sums sums member).2 first inside _ here').2 (Location.global.inj same)
  · intro j member' same
    cases i with
    | inl p =>
        obtain ⟨below, here⟩ := member
        cases j with
        | inl q =>
            obtain ⟨below', here'⟩ := member'
            exact different (chunk_apart below below'
              (separate.outputs here here' (Location.global.inj same)))
        | inr sums =>
            exact ((separate.sums sums member').2 second inside' _ here).1
              (Location.global.inj same).symm
    | inr sums =>
        cases j with
        | inl q =>
            obtain ⟨_, here'⟩ := member'
            exact ((separate.sums sums member).2 first inside _ here').1 (Location.global.inj same)
        | inr others =>
            obtain rfl : sums = others := Option.mem_unique member member'
            exact different
              ((separate.sums sums member).1 inside inside' (Location.global.inj same))

/-- What the kernel makes of the memory: every element gets the sum of what is before it in
its chunk, and the sums of the chunks are saved. -/
structure ChunksScanned (launch : BlocksLaunch) (args : BlocksArgs ℕ Address)
    (before after : Memory Address M) : Prop where
  outputs : ∀ c p, p < launch.chunkExtent → launch.chunkExtent * c + p < args.numElements →
    after (.global (args.outputVec (launch.chunkExtent * c + p))) =
      finalValue launch args c p (∑ j ∈ range p, chunkInput launch args c before j) before
  sums : ∀ sums ∈ args.blockSums, ∀ c < numChunks launch args,
    after (.global (sums c)) = ∑ j ∈ range launch.chunkExtent, chunkInput launch args c before j
  unchanged : ∀ address, (∀ i < args.numElements, address ≠ args.outputVec i) →
    (∀ sums ∈ args.blockSums, ∀ c < numChunks launch args, address ≠ sums c) →
      after (.global address) = before (.global address)

/-- **The scan of all chunks.** -/
theorem scanBlocksKernel_scans (proper : launch.Proper device)
    (several : 0 < args.numElements → 0 < launch.numBlocks)
    (separate : args.Separate (numChunks launch args)) (memory : Memory Address M) :
    ∃ after, Settles (fun fuel => scanBlocksKernel device launch args fuel memory) after ∧
      ChunksScanned launch args memory after := by
  refine ⟨_, scanBlocksKernel_settles proper memory, ?_⟩
  generalize listed : (gridPhase device launch args : Phase (Memory Address M)).tasks
    device.idxPolicy launch.numBlocks launch.blocks = tasks
  have chunks (c : ℕ) : c ∈ tasks.map Prod.snd ↔ c < numChunks launch args := by
    rw [← listed]
    exact mem_chunks proper several
  have once : (tasks.map Prod.snd).Nodup := by
    rw [← listed]
    exact Phase.nodup_elements device.idxPolicy gridPhase_proper proper.blocks_perm
  have inside {task : ℕ × ℕ} (member : task ∈ tasks) : task.2 < numChunks launch args :=
    (chunks task.2).mp (List.mem_map_of_mem member)
  have assigned := foldl_assigns (fun task : ℕ × ℕ => chunkReads launch args task.2) once.of_map
    (fun task member memory => chunk_assigns task.1 proper separate (inside member) memory)
    (fun task _ first second agree i member => chunkValue_determined agree member)
    (fun task _ => chunkReads_global) (fun task _ i _ scratch => chunkPlace_global scratch)
    (fun first member second member' different i index =>
      chunkPlace_apart separate (inside member) (inside member')
        (fun same => different (List.inj_on_of_nodup_map once member member' same)) index) memory
  have taken {c : ℕ} (below : c < numChunks launch args) {i : ℕ ⊕ (ℕ → Address)}
      (index : i ∈ chunkIndex launch args c) :
      tasks.foldl (fun memory task => chunkAfter device launch args task.1 task.2 memory) memory
        (chunkPlace launch args c i) = chunkValue launch args c memory i := by
    obtain ⟨task, member, rfl⟩ := List.mem_map.mp ((chunks c).mpr below)
    exact assigned.written (task, i) ⟨member, index⟩
  constructor
  · intro c p below here
    have inside : c < numChunks launch args :=
      (lt_numChunks_iff (Nat.zero_lt_of_lt below)).mpr ((Nat.le_add_right _ p).trans_lt here)
    exact taken inside (i := .inl p) ⟨below, here⟩
  · intro sums held c below
    exact taken below (i := .inr sums) held
  · intro address outputs sums
    apply assigned.other
    · intro scratch
      exact scratch address rfl
    · rintro ⟨task, p | held⟩ ⟨member, index⟩ same
      · exact outputs _ index.2 (Location.global.inj same)
      · exact sums held index _ (inside member) (Location.global.inj same)

end Blocks

/-! ## The increments -/

/-- What a launch over all threads of the grid is given. -/
structure GridLaunch.Proper (launch : GridLaunch) : Prop where
  threads_dvd : launch.numThreads ∣ chunkSize
  several : 0 < launch.numBlocks
  threads_perm : launch.threads.Perm (List.range (launch.numBlocks * launch.numThreads))

/-- Calls that take every element once, none of them reaching into another chunk. -/
private structure TakesLine (numElements : ℕ) (calls : List (Call ℕ 0)) : Prop where
  distinct : calls.Nodup
  unique : ∀ first ∈ calls, ∀ second ∈ calls, first ≠ second → ∀ i < first.width,
    ∀ j < second.width, first.dataIdx 0 + i ≠ second.dataIdx 0 + j
  mem_iff : ∀ i, i < numElements ↔ ∃ call ∈ calls, ∃ lane < call.width, call.dataIdx 0 + lane = i
  inChunk : ∀ call ∈ calls, ∀ lane < call.width,
    (call.dataIdx 0 + lane) / chunkSize = call.dataIdx 0 / chunkSize

/-- An element of a call in one dimension. -/
private theorem mem_call {call : Call ℕ 0} {x : Vec ℕ 1} :
    x ∈ call.elements ↔ ∃ lane < call.width, call.dataIdx 0 + lane = x 0 := by
  unfold Call.elements cells
  simp only [List.mem_map, List.mem_range]
  constructor
  · rintro ⟨lane, below, rfl⟩
    exact ⟨lane, below, (rAssign_last _ _).symm⟩
  · rintro ⟨lane, below, same⟩
    refine ⟨lane, below, ?_⟩
    funext d
    rw [Fin.fin_one_eq_zero d, ← same]
    exact rAssign_last _ _

/-- A pack that begins at a multiple of its width stays in a chunk. -/
private theorem div_of_pack {width begin lane : ℕ} (divides : width ∣ chunkSize)
    (pack : width ∣ begin) (below : lane < width) :
    (begin + lane) / chunkSize = begin / chunkSize := by
  obtain ⟨packs, whole⟩ := divides
  obtain ⟨first, rfl⟩ := pack
  have positive := Nat.zero_lt_of_lt below
  rw [whole, ← Nat.div_div_eq_div_mul, ← Nat.div_div_eq_div_mul, Nat.mul_add_div positive,
    Nat.div_eq_of_lt below, Nat.add_zero, Nat.mul_div_cancel_left _ positive]

namespace GridLaunch.Proper

variable {launch : GridLaunch}

theorem numThreads_pos (proper : launch.Proper) : 0 < launch.numThreads :=
  Nat.pos_of_dvd_of_pos proper.threads_dvd (by decide)

theorem chunkExtent_eq (proper : launch.Proper) :
    chunkSize / launch.numThreads * launch.numThreads = chunkSize :=
  Nat.div_mul_cancel proper.threads_dvd

/-- The threads of the grid. -/
private theorem mem_threads (proper : launch.Proper) (idx : Vec ℕ 1) :
    idx ∈ launch.threads.map (fun thread => ![thread]) ↔
      idx ∈ threadIdxs ![launch.numBlocks * launch.numThreads] := by
  rw [List.mem_map]
  constructor
  · rintro ⟨thread, member, rfl⟩
    exact line_member.mpr (List.mem_range.mp (proper.threads_perm.mem_iff.mp member))
  · intro member
    refine ⟨idx 0, proper.threads_perm.mem_iff.mpr (List.mem_range.mpr (member 0)), ?_⟩
    funext d
    rw [Fin.fin_one_eq_zero d]
    rfl

/-- The calls of all threads take every element once. -/
private theorem exists_calls (proper : launch.Proper) {config : SimdPackConfig} {bits : ℕ}
    (few : bits ≤ 11) (width : config.simdWidth = 2 ^ bits)
    (packs : 0 < config.numSimdPacksPerFnCall) (policy : Policy) (numElements : ℕ) :
    ∃ calls : Vec ℕ 1 → List (Call ℕ 0),
      (∀ thread ∈ launch.threads, Settles (concurrent config.simdWidth
        config.numSimdPacksPerFnCall policy.traverse policy.layout
        ⟨![thread], ![launch.numBlocks * launch.numThreads]⟩ ![numElements]) (calls ![thread])) ∧
      TakesLine numElements ((launch.threads.map fun thread => ![thread]).flatMap calls) := by
  have positive := line_positive (Nat.mul_pos proper.several proper.numThreads_pos)
  have lanes : 0 < config.simdWidth := width ▸ Nat.two_pow_pos bits
  have cover := concurrent_calls positive lanes packs policy.traverse policy.layout ![numElements]
  have order := proper.mem_threads
  have once : (launch.threads.map fun thread => (![thread] : Vec ℕ 1)).Nodup :=
    (proper.threads_perm.nodup_iff.mpr List.nodup_range).map fun _ _ same => congrFun same 0
  have takes := cover.takesAll lanes once order
  refine ⟨concurrentCalls config.simdWidth config.numSimdPacksPerFnCall policy.traverse
    policy.layout ![launch.numBlocks * launch.numThreads] ![numElements],
    fun thread listed => ?_, takes.distinct, ?_, ?_, ?_⟩
  · exact cover.settles _ ((order _).mp (List.mem_map_of_mem listed))
  · intro first held second held' different i below j below' same
    have inFirst : ![first.dataIdx 0 + i] ∈ first.elements := mem_call.mpr ⟨i, below, rfl⟩
    exact takes.disjoint first held second held' different inFirst
      (mem_call.mpr ⟨j, below', same.symm⟩)
  · intro i
    have inside : ![i] ∈ elements ![numElements] ↔ i < numElements := line_member
    rw [← inside, takes.mem_iff]
    exact exists_congr fun call => and_congr_right fun _ => mem_call
  · intro call held lane below
    by_cases element : call.width = 1
    · rw [element, Nat.lt_one_iff] at below
      rw [below, Nat.add_zero]
    · obtain ⟨lanesOf, pack⟩ := takes.packs call held element
      apply div_of_pack _ pack (lanesOf ▸ below)
      rw [width]
      exact Nat.pow_dvd_pow 2 few

end GridLaunch.Proper

section Increments

variable {Address M : Type} [DecidableEq Address] [AddCommMonoid M] {launch : GridLaunch}
  {numElements : ℕ} {calls : List (Call ℕ 0)}
  {blockSums outputVec : ℕ → Address}

/-- A call adds a saved sum to its elements. -/
private def addIncrement (blockSums outputVec : ℕ → Address) (memory : Memory Address M)
    (call : Call ℕ 0) : Memory Address M :=
  store (fun lane => .global (outputVec (call.dataIdx 0 + lane))) call.width
    (fun lane => memory (.global (outputVec (call.dataIdx 0 + lane))) +
      memory (.global (blockSums (call.dataIdx 0 / chunkSize)))) memory

/-- What a call reads. -/
private def callReads (blockSums outputVec : ℕ → Address) (call : Call ℕ 0) :
    Set (Location Address) :=
  {x | ∃ lane < call.width, x = .global (outputVec (call.dataIdx 0 + lane)) ∨
    x = .global (blockSums ((call.dataIdx 0 + lane) / chunkSize))}

/-- The calls together add the sum of its chunk to every element. -/
private theorem addIncrement_assigns (takes : TakesLine numElements calls)
    (outputs : Set.InjOn outputVec (Set.Iio numElements))
    (apart : ∀ i < numElements, ∀ j < numElements, blockSums (i / chunkSize) ≠ outputVec j)
    (memory : Memory Address M) :
    Assigns ∅ (Set.Iio numElements) (fun i => .global (outputVec i))
      (fun i => memory (.global (outputVec i)) + memory (.global (blockSums (i / chunkSize))))
      memory (calls.foldl (addIncrement blockSums outputVec) memory) := by
  have inside {call : Call ℕ 0} (held : call ∈ calls) {lane : ℕ} (below : lane < call.width) :
      call.dataIdx 0 + lane < numElements :=
    (takes.mem_iff _).mpr ⟨call, held, lane, below, rfl⟩
  have chunk {call : Call ℕ 0} (held : call ∈ calls) {lane : ℕ} (below : lane < call.width) :=
    takes.inChunk call held lane below
  have single : ∀ call ∈ calls, ∀ memory : Memory Address M,
      Assigns ∅ (Set.Iio call.width)
        (fun lane => .global (outputVec (call.dataIdx 0 + lane)))
        (fun lane => memory (.global (outputVec (call.dataIdx 0 + lane))) +
          memory (.global (blockSums ((call.dataIdx 0 + lane) / chunkSize))))
        memory (addIncrement blockSums outputVec memory call) := by
    intro call held memory
    have stored : Assigns ∅ (Set.Iio call.width)
        (fun lane => .global (outputVec (call.dataIdx 0 + lane)))
        (fun lane => memory (.global (outputVec (call.dataIdx 0 + lane))) +
          memory (.global (blockSums (call.dataIdx 0 / chunkSize))))
        memory (addIncrement blockSums outputVec memory call) :=
      store_assigns (fun i below j below' same => Nat.add_left_cancel
        (outputs (inside held below) (inside held below') (Location.global.inj same))) _ memory
    apply stored.congr_value
    intro lane below
    rw [chunk held below]
  have all := foldl_assigns (callReads blockSums outputVec) takes.distinct single
    (fun call held first second agree lane below => ?_)
    (fun _ _ => Set.disjoint_empty _) (fun _ _ _ _ => Set.notMem_empty _)
    (fun first held second held' different i below => ⟨?_, ?_⟩) memory
  · apply all.relabel
    · intro i below
      obtain ⟨call, held, lane, inside, rfl⟩ := (takes.mem_iff i).mp below
      exact ⟨(call, lane), ⟨held, inside⟩, rfl, rfl⟩
    · rintro ⟨call, lane⟩ ⟨held, below⟩
      exact ⟨_, inside held below, rfl⟩
  · rw [agree _ ⟨lane, below, .inl rfl⟩, agree _ ⟨lane, below, .inr rfl⟩]
  · rintro ⟨j, below', same | same⟩
    · exact takes.unique first held second held' different i below j below'
        (outputs (inside held below) (inside held' below') (Location.global.inj same))
    · exact apart _ (inside held' below') _ (inside held below) (Location.global.inj same).symm
  · intro j below' same
    exact takes.unique first held second held' different i below j below'
      (outputs (inside held below) (inside held' below') (Location.global.inj same))

/-- What the kernel makes of the memory: every element gets the saved sum of its chunk. -/
structure IncrementsAdded (numElements : ℕ) (blockSums outputVec : ℕ → Address)
    (before after : Memory Address M) : Prop where
  outputs : ∀ i < numElements, after (.global (outputVec i)) =
    before (.global (outputVec i)) + before (.global (blockSums (i / chunkSize)))
  unchanged : ∀ address, (∀ i < numElements, address ≠ outputVec i) →
    after (.global address) = before (.global address)

/-- **The increments.** -/
theorem scanAddIncrementsKernel_adds (proper : launch.Proper) (device : Device)
    (outputs : Set.InjOn outputVec (Set.Iio numElements))
    (apart : ∀ i < numElements, ∀ j < numElements, blockSums (i / chunkSize) ≠ outputVec j)
    (memory : Memory Address M) :
    ∃ after, Settles (fun fuel => scanAddIncrementsKernel device launch numElements blockSums
        outputVec fuel memory) after ∧
      IncrementsAdded numElements blockSums outputVec memory after := by
  obtain ⟨bits, few, width⟩ := calcSimdPackConfig_width device.arch
    (getNumElemPerThread device.arch * device.arch.sizeofValue)
  have packs := calcSimdPackConfig_packs device.arch
    (getNumElemPerThread device.arch * device.arch.sizeofValue)
  obtain ⟨calls, settles, takes⟩ := proper.exists_calls (few.trans (by decide)) width packs
    device.simdPolicy numElements
  have added := addIncrement_assigns takes outputs apart memory
  refine ⟨_, ?_, fun i below => added.written i below, fun address away => ?_⟩
  · unfold scanAddIncrementsKernel
    rw [List.flatMap_map, List.foldl_flatMap]
    dsimp only
    rw [proper.chunkExtent_eq]
    refine Settles.foldlM (fun thread listed memory => ?_) memory
    exact (settles thread listed).bind (Settles.pure _)
  · apply added.other _ (Set.notMem_empty _)
    intro i below same
    exact away i below (Location.global.inj same)

end Increments

end Alpaka.Scan
