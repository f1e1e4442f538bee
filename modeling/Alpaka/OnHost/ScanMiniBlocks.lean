import Mathlib.Data.Nat.Prime.Basic
import Alpaka.OnHost.Scan

/-! # The work of one thread

A thread scans its mini blocks in registers and keeps the sum of each one
(`Alpaka.Scan.loadAndScan_assigns`); later it adds what comes before a mini block to
its elements and writes them out (`Alpaka.Scan.addAndStore_assigns`).
-/

namespace Alpaka.Scan

open Finset (range Ico sum_congr)
open Math (Assigns progression mem_progression progression_nodup foldl_assigns
  foldl_update_assigns foldl_store_assigns foldl_blocks_assigns)
open Math.Sweep (Pairs Summed Prefixed upPair downPair upSteps downSteps)

/-- Looping over all indices below a bound. -/
private theorem mem_range_set (stop : ℕ) : {i | i ∈ List.range stop} = Set.Iio stop :=
  Set.ext fun _ => List.mem_range

/-- The lanes of a SIMD pack. -/
theorem store_assigns {Place M : Type} [DecidableEq Place] {place : ℕ → Place} {width : ℕ}
    (distinct : Set.InjOn place (Set.Iio width)) (pack : ℕ → M) (memory : Place → M) :
    Assigns ∅ (Set.Iio width) place pack memory (store place width pack memory) := by
  rw [← mem_range_set] at distinct ⊢
  exact foldl_store_assigns place pack List.nodup_range
    (fun first member second member' different same => different (distinct member member' same))
    memory

/-! ## A mini block -/

section MiniBlock

variable {Place M : Type} [DecidableEq Place] [AddCommMonoid M] {block : ℕ → Place} {bits : ℕ}

/-- A single thread takes the pairs of a level in order. -/
theorem pairs_progression (d : ℕ) : Pairs d (progression 0 2 (2 * d)) where
  nodup := progression_nodup Nat.two_pos
  mem_iff := fun element => by
    rw [mem_progression Nat.two_pos]
    constructor
    · rintro ⟨pair, rfl, below⟩
      exact ⟨pair, by omega, by omega⟩
    · rintro ⟨pair, below, rfl⟩
      exact ⟨pair, by omega, by omega⟩

private theorem upSweep_summed (distinct : Set.InjOn block (Set.Iio (2 ^ bits)))
    (memory : Place → M) :
    Summed block (fun i => memory (block i)) memory bits bits
      (upSweep block (2 ^ bits) memory) := by
  have row : Summed block (fun i => memory (block i)) memory bits 0 memory :=
    Summed.of_row fun _ _ => rfl
  have runs := row.sweep
    ((upSteps (2 ^ bits / 2) 1).map fun step => (step, progression 0 2 (2 * step.1)))
    distinct (Nat.zero_le bits) ?_ ?_
  · rw [List.foldl_map] at runs
    exact runs
  · rw [List.map_map]
    exact List.map_id _
  · intro run member
    obtain ⟨step, _, rfl⟩ := List.mem_map.mp member
    exact pairs_progression step.1

private theorem downSweep_prefixed {values : ℕ → M} {memory : Place → M}
    (distinct : Set.InjOn block (Set.Iio (2 ^ bits)))
    (prefixed : Prefixed block values memory bits bits memory) :
    Prefixed block values memory bits 0 (downSweep block (2 ^ bits) memory) := by
  have runs := prefixed.sweep
    ((downSteps (2 ^ bits) 1 (2 ^ bits / 2)).map fun step =>
      (step, progression 0 2 (2 * step.1))) distinct le_rfl ?_ ?_
  · rw [List.foldl_map] at runs
    exact runs
  · rw [List.map_map, Nat.sub_self]
    exact List.map_id _
  · intro run member
    obtain ⟨step, _, rfl⟩ := List.mem_map.mp member
    exact pairs_progression step.1

/-- **A mini block.** The cells hold the sums of everything before them, and the total
sum is returned. -/
theorem scanMiniBlock_assigns (distinct : Set.InjOn block (Set.Iio (2 ^ bits)))
    (memory : Place → M) :
    (scanMiniBlock block (2 ^ bits) memory).1 = ∑ i ∈ range (2 ^ bits), memory (block i) ∧
      Assigns ∅ (Set.Iio (2 ^ bits)) block (fun i => ∑ j ∈ range i, memory (block j)) memory
        (scanMiniBlock block (2 ^ bits) memory).2 := by
  have summed := upSweep_summed distinct memory
  have positive : 0 < 2 ^ bits := Nat.two_pow_pos bits
  have prefixed := downSweep_prefixed distinct (summed.prefixed (Function.update_self _ _ _)
    fun i below => Function.update_of_ne (fun same => below.ne (distinct
      (below.trans_le (Nat.sub_le _ _)) (Nat.sub_lt positive Nat.one_pos) same)) _ _)
  refine ⟨summed.total, fun i inside => prefixed.row inside, fun x _ away => ?_⟩
  calc (scanMiniBlock block (2 ^ bits) memory).2 x
      = Function.update (upSweep block (2 ^ bits) memory) (block (2 ^ bits - 1)) 0 x :=
        prefixed.outside x away
    _ = upSweep block (2 ^ bits) memory x :=
        Function.update_of_ne (away _ (Nat.sub_lt positive Nat.one_pos)) _ _
    _ = memory x := summed.outside x away

private theorem addIncrements_assigns {extent : ℕ} (distinct : Set.InjOn block (Set.Iio extent))
    (blockSum : M) (memory : Place → M) :
    Assigns ∅ (Set.Iio extent) block (fun i => memory (block i) + blockSum) memory
      (addIncrements block blockSum extent memory) := by
  rw [← mem_range_set] at distinct ⊢
  have apart : ∀ first ∈ List.range extent, ∀ second ∈ List.range extent, first ≠ second →
      block first ∉ ({block second} : Set Place) ∧ block first ≠ block second :=
    fun first member second member' different =>
      ⟨fun same => different (distinct member member' same),
        fun same => different (distinct member member' same)⟩
  exact foldl_update_assigns block (fun i memory => memory (block i) + blockSum)
    (fun i => {block i}) List.nodup_range
    (fun i _ first second agree => congrArg (· + blockSum) (agree (block i) rfl)) apart memory

end MiniBlock

/-! ## Kernel configurations -/

/-- A configuration whose threads and mini blocks share out a chunk evenly. All blocks
and all threads run. -/
structure BlocksLaunch.Proper (device : Device) (launch : BlocksLaunch) : Prop where
  threads_dvd : launch.numThreads ∣ chunkSize
  miniBlockSize_dvd : launch.miniBlockSize device ∣ launch.elsPerThread
  blocks_perm : launch.blocks.Perm (List.range launch.numBlocks)
  threads_perm : ∀ block chunkIdx phase,
    (launch.threads block chunkIdx phase).Perm (List.range launch.numThreads)

namespace BlocksLaunch.Proper

variable {device : Device} {launch : BlocksLaunch}

theorem chunkExtent_eq (proper : launch.Proper device) : launch.chunkExtent = chunkSize :=
  Nat.div_mul_cancel proper.threads_dvd

theorem numThreads_pos (proper : launch.Proper device) : 0 < launch.numThreads :=
  Nat.pos_of_dvd_of_pos proper.threads_dvd (by decide)

private theorem elsPerThread_dvd (proper : launch.Proper device) :
    launch.elsPerThread ∣ chunkSize :=
  ⟨launch.numThreads, proper.chunkExtent_eq.symm⟩

theorem elsPerThread_pos (proper : launch.Proper device) : 0 < launch.elsPerThread :=
  Nat.pos_of_dvd_of_pos proper.elsPerThread_dvd (by decide)

theorem miniBlockSize_pos (proper : launch.Proper device) : 0 < launch.miniBlockSize device :=
  Nat.pos_of_dvd_of_pos proper.miniBlockSize_dvd proper.elsPerThread_pos

/-- A mini block and the mini blocks of a chunk are powers of two. -/
theorem powers (proper : launch.Proper device) :
    ∃ small large, launch.miniBlockSize device = 2 ^ small ∧
      launch.miniBlocksPerChunk device = 2 ^ large := by
  have divides : launch.miniBlockSize device ∣ 2 ^ 11 :=
    proper.miniBlockSize_dvd.trans proper.elsPerThread_dvd
  obtain ⟨small, below, size⟩ := (Nat.dvd_prime_pow Nat.prime_two).mp divides
  refine ⟨small, 11 - small, size, ?_⟩
  unfold miniBlocksPerChunk
  rw [proper.chunkExtent_eq, size]
  exact Nat.pow_div below Nat.two_pos

theorem miniBlocks_mul (proper : launch.Proper device) :
    launch.miniBlocksPerChunk device * launch.miniBlockSize device = launch.chunkExtent := by
  refine Nat.div_mul_cancel ?_
  exact proper.miniBlockSize_dvd.trans (Nat.dvd_mul_right _ _)

/-- The mini blocks of a thread only hold elements of the thread. -/
theorem miniBlock_room (proper : launch.Proper device) {k j : ℕ}
    (inside : k < launch.elsPerThread / launch.miniBlockSize device)
    (below : j < launch.miniBlockSize device) :
    k * launch.miniBlockSize device + j < launch.elsPerThread := by
  calc k * launch.miniBlockSize device + j
      < (k + 1) * launch.miniBlockSize device := by
        rw [Nat.succ_mul]
        exact Nat.add_lt_add_left below _
    _ ≤ launch.elsPerThread / launch.miniBlockSize device * launch.miniBlockSize device :=
        Nat.mul_le_mul_right _ inside
    _ = launch.elsPerThread := Nat.div_mul_cancel proper.miniBlockSize_dvd

end BlocksLaunch.Proper

/-- The output may be the input itself, element for element, or apart from it. The sums of
the chunks are apart from both. -/
structure BlocksArgs.Separate {Address : Type} (args : BlocksArgs ℕ Address) (chunks : ℕ) :
    Prop where
  outputs : Set.InjOn args.outputVec (Set.Iio args.numElements)
  aligned : ∀ i < args.numElements, ∀ j < args.numElements,
    args.outputVec i = args.inputVec j → i = j
  sums : ∀ blockSums ∈ args.blockSums, Set.InjOn blockSums (Set.Iio chunks) ∧
    ∀ c < chunks, ∀ i < args.numElements,
      blockSums c ≠ args.outputVec i ∧ blockSums c ≠ args.inputVec i

/-! ## A thread -/

section Thread

variable {Address M : Type} {device : Device} {launch : BlocksLaunch} {args : BlocksArgs ℕ Address}
  {block chunkIdx thread frameElem : ℕ}

/-- Padding keeps the order of places. -/
theorem conflictFreeAccess_strictMono (warpSize : ℕ) : StrictMono (conflictFreeAccess warpSize) :=
  fun _ _ below => Nat.add_lt_add_of_lt_of_le below (Nat.div_le_div_right below.le)

/-- The padded places of the mini block sums are different. -/
theorem tmp_injective : Function.Injective (tmp device block : ℕ → Location Address) := by
  intro first second same
  exact (conflictFreeAccess_strictMono device.warpSize).injective (Location.shared.inj same).2

theorem register_ne_tmp {other q k : ℕ} :
    (.register block thread q : Location Address) ≠ tmp device other k := by
  intro same
  cases same

/-- An index in exact arithmetic. -/
theorem elementIdx_exact (launch : BlocksLaunch) (chunkIdx frameElem i : ℕ) :
    elementIdx launch chunkIdx frameElem i = launch.chunkExtent * chunkIdx + frameElem + i := rfl

/-- Chunks are counted by rounding up. -/
theorem lt_numChunks_iff (positive : 0 < launch.chunkExtent) :
    chunkIdx < numChunks launch args ↔ launch.chunkExtent * chunkIdx < args.numElements := by
  rw [Nat.mul_comm]
  exact Math.lt_ceil_iff positive _ _

/-- Packs are only used where a chunk is full. -/
theorem full_of_not_elementwise (inside : chunkIdx < numChunks launch args)
    (positive : 0 < launch.chunkExtent) (packs : elementwise launch args chunkIdx = false) :
    4 ∣ launch.elsPerThread ∧
      launch.chunkExtent * chunkIdx + launch.chunkExtent ≤ args.numElements := by
  unfold elementwise at packs
  simp only [ofNat_exactValue, decide_eq_false_iff_not, not_or, not_and, not_not] at packs
  obtain ⟨full, divides⟩ := packs
  have before := (lt_numChunks_iff positive).mp inside
  refine ⟨Nat.dvd_of_mod_eq_zero divides, ?_⟩
  by_cases lastFull : (args.numElements - 1) % launch.chunkExtent + 1 = launch.chunkExtent
  · have whole := Nat.div_add_mod (args.numElements - 1) launch.chunkExtent
    generalize (args.numElements - 1) / launch.chunkExtent = quotient at whole
    have end_eq : args.numElements = launch.chunkExtent * (quotient + 1) := by
      rw [Nat.mul_succ]
      omega
    rw [end_eq] at before ⊢
    exact Nat.mul_le_mul_left _ (Nat.lt_of_mul_lt_mul_left before)
  · have next : chunkIdx + 1 < numChunks launch args := by
      have := full lastFull
      omega
    exact ((lt_numChunks_iff positive).mp next).le

variable [AddCommMonoid M]

/-- The element of the input at a place of a chunk, nothing behind the end. -/
def chunkInput (launch : BlocksLaunch) (args : BlocksArgs ℕ Address) (chunkIdx : ℕ)
    (memory : Memory Address M) (p : ℕ) : M :=
  if launch.chunkExtent * chunkIdx + p < args.numElements then
    memory (.global (args.inputVec (launch.chunkExtent * chunkIdx + p)))
  else 0

/-- Copying gives every register its element of the input. -/
theorem copyIn_assigns [DecidableEq Address] (block thread : ℕ) (proper : launch.Proper device)
    (inside : chunkIdx < numChunks launch args)
    (room : frameElem + launch.elsPerThread ≤ launch.chunkExtent) (memory : Memory Address M) :
    Assigns ∅ (Set.Iio launch.elsPerThread) (fun q => .register block thread q)
      (fun q => chunkInput launch args chunkIdx memory (frameElem + q)) memory
      (copyIn launch args block chunkIdx thread frameElem memory) := by
  let place (q : ℕ) : Location Address := .register block thread q
  let value (q : ℕ) (memory : Memory Address M) : M :=
    chunkInput launch args chunkIdx memory (frameElem + q)
  let reads (q : ℕ) : Set (Location Address) :=
    {.global (args.inputVec (launch.chunkExtent * chunkIdx + (frameElem + q)))}
  have determined (q : ℕ) (first second : Memory Address M)
      (agree : ∀ x ∈ reads q, first x = second x) : value q first = value q second := by
    simp only [value, chunkInput, agree _ rfl]
  have apart (first second : ℕ) (different : first ≠ second) :
      place first ∉ reads second ∧ place first ≠ place second :=
    ⟨nofun, fun same => different (Location.register.inj same).2.2⟩
  unfold copyIn
  simp only [elementIdx_exact, toNat_exactValue]
  split
  · rw [← mem_range_set]
    simp only [Nat.add_assoc]
    exact foldl_update_assigns _ value reads List.nodup_range (fun q _ => determined q)
      (fun first _ second _ => apart first second) memory
  · rename_i packs
    obtain ⟨divides, full⟩ := full_of_not_elementwise inside
      (Nat.mul_pos proper.elsPerThread_pos proper.numThreads_pos) (by simpa using packs)
    have stored (start : ℕ) (aligned : 4 ∣ start) (below : start < launch.elsPerThread)
        (memory : Memory Address M) :
        Assigns ∅ (Set.Iio 4) (fun lane => place (start + lane))
          (fun lane => value (start + lane) memory) memory
          (store (fun lane => place (start + lane)) 4 (fun lane => memory (.global (args.inputVec
            (launch.chunkExtent * chunkIdx + frameElem + start + lane)))) memory) := by
      refine (store_assigns ?_ _ memory).congr_value fun lane inPack => ?_
      · exact fun _ _ _ _ same => Nat.add_left_cancel (Location.register.inj same).2.2
      · have here : launch.chunkExtent * chunkIdx + (frameElem + (start + lane)) <
            args.numElements := by
          have : lane < 4 := inPack
          omega
        simp only [value, chunkInput, if_pos here, Nat.add_assoc]
    exact foldl_blocks_assigns (by decide) divides reads stored (fun q _ => determined q)
      (fun first _ second _ different => apart first second fun same => different (same ▸ rfl))
      memory

/-- The sum of the elements of a mini block before a register of a thread. -/
def inMiniBlock (width : ℕ) (values : ℕ → M) (q : ℕ) : M :=
  ∑ j ∈ range (q % width), values (q / width * width + j)

/-- The sum of a mini block. -/
def miniBlockSum (width : ℕ) (values : ℕ → M) (k : ℕ) : M :=
  ∑ j ∈ range width, values (k * width + j)

variable [DecidableEq Address]

/-- One mini block of a thread, from its start on: its registers and its sum. -/
private theorem scanAt_assigns (block thread frameElem : ℕ) (proper : launch.Proper device)
    (start : ℕ)
    (memory : Memory Address M) :
    Assigns ∅ {i : Option ℕ | ∀ q ∈ i, q < launch.miniBlockSize device}
      (fun i => i.elim (tmp device block ((frameElem + start) / launch.miniBlockSize device))
        fun q => .register block thread (start + q))
      (fun i => i.elim
        (∑ j ∈ range (launch.miniBlockSize device), memory (.register block thread (start + j)))
        fun q => ∑ j ∈ range q, memory (.register block thread (start + j))) memory
      (Function.update
        (scanMiniBlock (fun i => .register block thread (start + i)) (launch.miniBlockSize device)
          memory).2
        (tmp device block ((frameElem + start) / launch.miniBlockSize device))
        (scanMiniBlock (fun i => .register block thread (start + i)) (launch.miniBlockSize device)
          memory).1) := by
  obtain ⟨small, -, size, -⟩ := proper.powers
  rw [size]
  let registers (q : ℕ) : Location Address := .register block thread (start + q)
  have distinct : Set.InjOn registers (Set.Iio (2 ^ small)) :=
    fun _ _ _ _ same => Nat.add_left_cancel (Location.register.inj same).2.2
  obtain ⟨total, scanned⟩ := scanMiniBlock_assigns distinct memory
  refine ⟨fun i inside => ?_, fun x _ away => ?_⟩
  · cases i with
    | none => exact (Function.update_self _ _ _).trans total
    | some q =>
        refine (Function.update_of_ne register_ne_tmp _ _).trans ?_
        exact scanned.written q (inside q rfl)
  · refine (Function.update_of_ne (away none nofun) _ _).trans ?_
    refine scanned.other x (Set.notMem_empty x) fun q below => away (some q) ?_
    rintro _ ⟨⟩
    exact below

/-- The registers of a thread, and where the sums of its mini blocks are kept. -/
def scanPlace (device : Device) (launch : BlocksLaunch) (block thread frameElem : ℕ) :
    ℕ ⊕ ℕ → Location Address
  | .inl q => .register block thread q
  | .inr k => tmp device block (frameElem / launch.miniBlockSize device + k)

/-- What a thread holds after scanning its mini blocks. -/
def scanValue (device : Device) (launch : BlocksLaunch) (values : ℕ → M) : ℕ ⊕ ℕ → M
  | .inl q => inMiniBlock (launch.miniBlockSize device) values q
  | .inr k => miniBlockSum (launch.miniBlockSize device) values k

/-- The registers and the mini blocks of a thread. -/
def scanIndex (device : Device) (launch : BlocksLaunch) : Set (ℕ ⊕ ℕ) :=
  {i | i.elim (· < launch.elsPerThread)
    (· < launch.elsPerThread / launch.miniBlockSize device)}

/-- A mini block begins at a multiple of its size. -/
private theorem start_iff (proper : launch.Proper device) {start : ℕ} :
    start ∈ progression 0 (launch.miniBlockSize device) launch.elsPerThread ↔
      ∃ k < launch.elsPerThread / launch.miniBlockSize device,
        start = k * launch.miniBlockSize device := by
  rw [mem_progression proper.miniBlockSize_pos]
  constructor
  · rintro ⟨k, rfl, below⟩
    rw [Nat.zero_add] at below ⊢
    exact ⟨k, (Nat.lt_div_iff_mul_lt_of_dvd proper.miniBlockSize_pos.ne'
      proper.miniBlockSize_dvd).mpr below, rfl⟩
  · rintro ⟨k, below, rfl⟩
    exact ⟨k, (Nat.zero_add _).symm, (Nat.lt_div_iff_mul_lt_of_dvd proper.miniBlockSize_pos.ne'
      proper.miniBlockSize_dvd).mp below⟩

/-- Mini blocks with different starts have different registers. -/
private theorem starts_apart (proper : launch.Proper device) {first second q q' : ℕ}
    (member : first ∈ progression 0 (launch.miniBlockSize device) launch.elsPerThread)
    (member' : second ∈ progression 0 (launch.miniBlockSize device) launch.elsPerThread)
    (different : first ≠ second) (below : q < launch.miniBlockSize device)
    (below' : q' < launch.miniBlockSize device) : first + q ≠ second + q' := by
  have width := proper.miniBlockSize_pos
  obtain ⟨k, -, rfl⟩ := (start_iff proper).mp member
  obtain ⟨k', -, rfl⟩ := (start_iff proper).mp member'
  intro same
  have quotients := congrArg (· / launch.miniBlockSize device) same
  simp only [Nat.mul_comm k, Nat.mul_comm k', Nat.mul_add_div width, Nat.div_eq_of_lt below,
    Nat.div_eq_of_lt below', Nat.add_zero] at quotients
  exact different (congrArg (· * launch.miniBlockSize device) quotients)

/-- Mini blocks with different starts keep their sums at different places. -/
private theorem sums_apart (proper : launch.Proper device) {first second : ℕ}
    (member : first ∈ progression 0 (launch.miniBlockSize device) launch.elsPerThread)
    (member' : second ∈ progression 0 (launch.miniBlockSize device) launch.elsPerThread)
    (different : first ≠ second) :
    (frameElem + first) / launch.miniBlockSize device ≠
      (frameElem + second) / launch.miniBlockSize device := by
  have width := proper.miniBlockSize_pos
  obtain ⟨k, -, rfl⟩ := (start_iff proper).mp member
  obtain ⟨k', -, rfl⟩ := (start_iff proper).mp member'
  rw [Nat.add_mul_div_right _ _ width, Nat.add_mul_div_right _ _ width]
  intro same
  exact different (congrArg (· * launch.miniBlockSize device) (Nat.add_left_cancel same))

/-- **The mini blocks of a thread.** -/
theorem scanMiniBlocks_assigns (block thread frameElem : ℕ) (proper : launch.Proper device)
    (memory : Memory Address M) :
    Assigns ∅ (scanIndex device launch) (scanPlace device launch block thread frameElem)
      (scanValue device launch fun q => memory (.register block thread q)) memory
      (scanMiniBlocks device launch block thread frameElem memory) := by
  have width := proper.miniBlockSize_pos
  have distinct : (progression 0 (launch.miniBlockSize device) launch.elsPerThread).Nodup :=
    progression_nodup width
  have all := foldl_assigns
    (fun start => {x | ∃ q < launch.miniBlockSize device, x = .register block thread (start + q)})
    distinct
    (fun start _ memory => scanAt_assigns block thread frameElem proper start memory)
    ?_ (fun _ _ => Set.disjoint_empty _) (fun _ _ _ _ => Set.notMem_empty _) ?_ memory
  · refine all.relabel (fun i inside => ?_) fun i inside => ?_
    · cases i with
      | inl q =>
          refine ⟨(q / launch.miniBlockSize device * launch.miniBlockSize device,
            some (q % launch.miniBlockSize device)), ⟨(start_iff proper).mpr ⟨_, ?_, rfl⟩, ?_⟩,
            ?_, rfl⟩
          · exact Nat.div_lt_div_of_lt_of_dvd proper.miniBlockSize_dvd inside
          · rintro _ ⟨⟩
            exact Nat.mod_lt q width
          · exact congrArg _ (Nat.div_add_mod' q _)
      | inr k =>
          refine ⟨(k * launch.miniBlockSize device, none),
            ⟨(start_iff proper).mpr ⟨k, inside, rfl⟩, nofun⟩, ?_, rfl⟩
          exact congrArg (tmp device block) (Nat.add_mul_div_right _ _ width)
    · obtain ⟨⟨start, i⟩, member, inMiniBlock⟩ := i, inside
      obtain ⟨k, below, rfl⟩ := (start_iff proper).mp member
      cases i with
      | none =>
          exact ⟨.inr k, below,
            congrArg (tmp device block) (Nat.add_mul_div_right _ _ width).symm⟩
      | some q =>
          refine ⟨.inl (k * launch.miniBlockSize device + q), ?_, rfl⟩
          exact proper.miniBlock_room below (inMiniBlock q rfl)
  · intro start _ first second agree i inside
    cases i with
    | none => exact sum_congr rfl fun j below => agree _ ⟨j, Finset.mem_range.mp below, rfl⟩
    | some q =>
        refine sum_congr rfl fun j below => agree _ ⟨j, ?_, rfl⟩
        exact (Finset.mem_range.mp below).trans (inside q rfl)
  · intro first member second member' different i inside
    cases i with
    | none =>
        refine ⟨fun ⟨q, _, same⟩ => register_ne_tmp same.symm, fun j _ same => ?_⟩
        cases j with
        | none => exact sums_apart proper member member' different (tmp_injective same)
        | some q => exact register_ne_tmp same.symm
    | some q =>
        refine ⟨fun ⟨q', below', same⟩ => ?_, fun j inside' same => ?_⟩
        · exact starts_apart proper member member' different (inside q rfl) below'
            (Location.register.inj same).2.2
        · cases j with
          | none => exact register_ne_tmp same
          | some q' =>
              exact starts_apart proper member member' different (inside q rfl) (inside' q' rfl)
                (Location.register.inj same).2.2

/-- What a thread holds only depends on its own elements. -/
private theorem scanValue_congr (proper : launch.Proper device) {values values' : ℕ → M}
    (same : ∀ q < launch.elsPerThread, values q = values' q) {i : ℕ ⊕ ℕ}
    (inside : i ∈ scanIndex device launch) :
    scanValue device launch values i = scanValue device launch values' i := by
  cases i with
  | inl q =>
      unfold scanValue inMiniBlock
      refine sum_congr rfl fun j below => same _ ?_
      have inBlock := (Finset.mem_range.mp below).trans (Nat.mod_lt q proper.miniBlockSize_pos)
      exact proper.miniBlock_room
        (Nat.div_lt_div_of_lt_of_dvd proper.miniBlockSize_dvd inside) inBlock
  | inr k =>
      unfold scanValue miniBlockSum
      exact sum_congr rfl fun j below =>
        same _ (proper.miniBlock_room inside (Finset.mem_range.mp below))

/-- **Before the sweeps.** A thread reads its elements, and holds the sums within its mini
blocks and of its mini blocks. -/
theorem loadAndScan_assigns (block thread : ℕ) (proper : launch.Proper device)
    (inside : chunkIdx < numChunks launch args)
    (room : frameElem + launch.elsPerThread ≤ launch.chunkExtent) (memory : Memory Address M) :
    Assigns ∅ (scanIndex device launch) (scanPlace device launch block thread frameElem)
      (scanValue device launch fun q => chunkInput launch args chunkIdx memory (frameElem + q))
      memory (scanMiniBlocks device launch block thread frameElem
        (copyIn launch args block chunkIdx thread frameElem memory)) := by
  have loaded := copyIn_assigns block thread proper inside room memory
  have scanned := loaded.overwrite (scanMiniBlocks_assigns block thread frameElem proper _)
    fun q below => ⟨.inl q, below, rfl⟩
  exact scanned.congr_value fun i member => scanValue_congr proper loaded.written member

/-- A register with the sum of the mini blocks before its own. -/
def incremented (device : Device) (launch : BlocksLaunch) (args : BlocksArgs ℕ Address)
    (block chunkIdx thread frameElem : ℕ) (memory : Memory Address M) (q : ℕ) : M :=
  memory (.register block thread q) +
    if launch.chunkExtent * chunkIdx + frameElem +
        q / launch.miniBlockSize device * launch.miniBlockSize device < args.numElements then
      memory (tmp device block ((frameElem +
        q / launch.miniBlockSize device * launch.miniBlockSize device) /
          launch.miniBlockSize device))
    else 0

private theorem addToMiniBlocks_assigns (args : BlocksArgs ℕ Address)
    (block chunkIdx thread frameElem : ℕ)
    (proper : launch.Proper device) (memory : Memory Address M) :
    Assigns ∅ (Set.Iio launch.elsPerThread) (fun q => .register block thread q)
      (incremented device launch args block chunkIdx thread frameElem memory) memory
      (addToMiniBlocks device launch args block chunkIdx thread frameElem memory) := by
  have width := proper.miniBlockSize_pos
  let place (q : ℕ) : Location Address := .register block thread q
  let value (q : ℕ) (memory : Memory Address M) : M :=
    incremented device launch args block chunkIdx thread frameElem memory q
  let reads (q : ℕ) : Set (Location Address) :=
    {.register block thread q, tmp device block ((frameElem +
      q / launch.miniBlockSize device * launch.miniBlockSize device) /
        launch.miniBlockSize device)}
  have added (start : ℕ) (aligned : launch.miniBlockSize device ∣ start)
      (_ : start < launch.elsPerThread) (memory : Memory Address M) :
      Assigns ∅ (Set.Iio (launch.miniBlockSize device)) (fun i => place (start + i))
        (fun i => value (start + i) memory) memory
        (addIncrements (fun i => place (start + i))
          (if launch.chunkExtent * chunkIdx + frameElem + start < args.numElements then
            memory (tmp device block ((frameElem + start) / launch.miniBlockSize device))
          else 0) (launch.miniBlockSize device) memory) := by
    refine (addIncrements_assigns ?_ _ memory).congr_value fun i inPack => ?_
    · exact fun _ _ _ _ same => Nat.add_left_cancel (Location.register.inj same).2.2
    · obtain ⟨k, rfl⟩ := aligned
      have first : (launch.miniBlockSize device * k + i) / launch.miniBlockSize device *
          launch.miniBlockSize device = launch.miniBlockSize device * k := by
        rw [Nat.mul_add_div width, Nat.div_eq_of_lt inPack, Nat.add_zero, Nat.mul_comm]
      simp only [value, incremented, first]
      rfl
  refine foldl_blocks_assigns width proper.miniBlockSize_dvd reads added ?_ ?_ memory
  · intro q _ first second agree
    have register := agree _ (Set.mem_insert _ _)
    have sum := agree _ (Set.mem_insert_of_mem _ (Set.mem_singleton _))
    simp only [value, incremented, register, sum]
  · intro p _ q _ different
    have others : p ≠ q := fun same => different (congrArg (· / launch.miniBlockSize device) same)
    have registers : place p ≠ place q := fun same => others (Location.register.inj same).2.2
    refine ⟨fun read => ?_, registers⟩
    obtain same | same := read
    · exact registers same
    · exact register_ne_tmp same

/-- What the output of an element depends on. -/
private def outputReads (launch : BlocksLaunch) (args : BlocksArgs ℕ Address)
    (block chunkIdx thread frameElem i : ℕ) : Set (Location Address) :=
  {x | x = .register block thread i ∨
    (launch.chunkExtent * chunkIdx + frameElem + i < args.numElements ∧
      x = .global (args.inputVec (launch.chunkExtent * chunkIdx + frameElem + i)))}

omit [DecidableEq Address] in
private theorem outputValue_determined {i : ℕ}
    (here : launch.chunkExtent * chunkIdx + frameElem + i < args.numElements)
    (first second : Memory Address M)
    (agree : ∀ x ∈ outputReads launch args block chunkIdx thread frameElem i,
      first x = second x) :
    outputValue launch args block chunkIdx thread frameElem i 0 first =
      outputValue launch args block chunkIdx thread frameElem i 0 second := by
  have register := agree _ (.inl rfl)
  have input := agree _ (.inr ⟨here, rfl⟩)
  unfold outputValue
  cases args.scanType with
  | exclusiveScan => exact register
  | inclusiveScan =>
      simp only [elementIdx_exact, toNat_exactValue, Nat.add_zero]
      rw [register, input]

omit [DecidableEq Address] in
/-- A lane is the element that is as many places further. -/
private theorem outputValue_lane (i lane : ℕ) (memory : Memory Address M) :
    outputValue launch args block chunkIdx thread frameElem i lane memory =
      outputValue launch args block chunkIdx thread frameElem (i + lane) 0 memory := by
  unfold outputValue
  simp only [elementIdx_exact, toNat_exactValue, Nat.add_assoc, Nat.add_zero]

omit [DecidableEq Address] [AddCommMonoid M] in
/-- The output of an element is no place that another one depends on. -/
private theorem output_apart {chunks : ℕ} (block thread : ℕ) (separate : args.Separate chunks)
    {i j : ℕ}
    (here : launch.chunkExtent * chunkIdx + frameElem + i < args.numElements)
    (different : i ≠ j) :
    .global (args.outputVec (launch.chunkExtent * chunkIdx + frameElem + i)) ∉
        outputReads launch args block chunkIdx thread frameElem j ∧
      (launch.chunkExtent * chunkIdx + frameElem + j < args.numElements →
        (.global (args.outputVec (launch.chunkExtent * chunkIdx + frameElem + i)) :
            Location Address) ≠
          .global (args.outputVec (launch.chunkExtent * chunkIdx + frameElem + j))) := by
  refine ⟨fun read => ?_, fun here' same => ?_⟩
  · obtain same | ⟨here', same⟩ := read
    · cases same
    · exact different (Nat.add_left_cancel
        (separate.aligned _ here _ here' (Location.global.inj same)))
  · exact different (Nat.add_left_cancel
      (separate.outputs here here' (Location.global.inj same)))

/-- Writing out gives every element of the chunk its value. -/
theorem copyOut_assigns {chunks : ℕ} (block thread : ℕ) (proper : launch.Proper device)
    (separate : args.Separate chunks) (inside : chunkIdx < numChunks launch args)
    (room : frameElem + launch.elsPerThread ≤ launch.chunkExtent) (memory : Memory Address M) :
    Assigns ∅ {i | i < launch.elsPerThread ∧
        launch.chunkExtent * chunkIdx + frameElem + i < args.numElements}
      (fun i => .global (args.outputVec (launch.chunkExtent * chunkIdx + frameElem + i)))
      (fun i => outputValue launch args block chunkIdx thread frameElem i 0 memory) memory
      (copyOut launch args block chunkIdx thread frameElem memory) := by
  unfold copyOut
  simp only [elementIdx_exact, toNat_exactValue]
  split
  · have single (i : ℕ) (memory : Memory Address M) :
        Assigns ∅ {_u : Unit | launch.chunkExtent * chunkIdx + frameElem + i < args.numElements}
          (fun _ => .global (args.outputVec (launch.chunkExtent * chunkIdx + frameElem + i)))
          (fun _ => outputValue launch args block chunkIdx thread frameElem i 0 memory) memory
          (if launch.chunkExtent * chunkIdx + frameElem + i < args.numElements then
            Function.update memory
              (.global (args.outputVec (launch.chunkExtent * chunkIdx + frameElem + i)))
              (outputValue launch args block chunkIdx thread frameElem i 0 memory)
          else memory) := by
      refine ⟨fun _ here => ?_, fun x _ away => ?_⟩
      · have inside : launch.chunkExtent * chunkIdx + frameElem + i < args.numElements := here
        rw [if_pos inside]
        exact Function.update_self _ _ _
      · split
        · rename_i here
          exact Function.update_of_ne (away () here) _ _
        · rfl
    have distinct : (List.range launch.elsPerThread).Nodup := List.nodup_range
    have all := foldl_assigns (outputReads launch args block chunkIdx thread frameElem)
      distinct (fun i _ memory => single i memory)
      (fun i _ first second agree _ here => outputValue_determined here first second agree)
      (fun _ _ => Set.disjoint_empty _) (fun _ _ _ _ => Set.notMem_empty _)
      (fun i _ j _ different _ here =>
        (output_apart block thread separate here different).imp_right fun places _ => places) memory
    exact all.reindex (fun i => (i, ())) (fun i member => ⟨List.mem_range.mpr member.1, member.2⟩)
      fun i member => ⟨i.1, ⟨List.mem_range.mp member.1, member.2⟩, rfl⟩
  · rename_i packs
    obtain ⟨divides, full⟩ := full_of_not_elementwise inside
      (Nat.mul_pos proper.elsPerThread_pos proper.numThreads_pos) (by simpa using packs)
    have here {q : ℕ} (below : q < launch.elsPerThread) :
        launch.chunkExtent * chunkIdx + frameElem + q < args.numElements := by omega
    have every : {i | i < launch.elsPerThread ∧
        launch.chunkExtent * chunkIdx + frameElem + i < args.numElements} =
          Set.Iio launch.elsPerThread :=
      Set.ext fun q => ⟨fun member => member.1, fun below => ⟨below, here below⟩⟩
    rw [every]
    refine foldl_blocks_assigns (by decide) divides
      (outputReads launch args block chunkIdx thread frameElem)
      (fun start aligned below memory => ?_)
      (fun q below first second agree => outputValue_determined (here below) first second agree)
      (fun p below q below' different => ?_) memory
    · have inChunk {lane : ℕ} (inPack : lane < 4) : start + lane < launch.elsPerThread := by
        obtain ⟨packs, length⟩ := divides
        obtain ⟨pack, rfl⟩ := aligned
        omega
      simp only [← Nat.add_assoc]
      refine (store_assigns (fun lane inPack lane' inPack' same => ?_) _ memory).congr_value
        fun lane _ => outputValue_lane start lane memory
      simp only [Nat.add_assoc] at same here
      have places := separate.outputs (here (inChunk inPack)) (here (inChunk inPack'))
        (Location.global.inj same)
      omega
    · have others : p ≠ q := fun same => different (congrArg (· / 4) same)
      have apart := output_apart block thread separate (here below) others
      exact ⟨apart.1, apart.2 (here below')⟩

/-- The registers of a thread and the elements that it writes. -/
def storeIndex (launch : BlocksLaunch) (args : BlocksArgs ℕ Address) (chunkIdx frameElem : ℕ) :
    Set (ℕ ⊕ ℕ) :=
  {i | Sum.elim (· ∈ Set.Iio launch.elsPerThread)
    (· ∈ {i | i < launch.elsPerThread ∧
      launch.chunkExtent * chunkIdx + frameElem + i < args.numElements}) i}

/-- Where they are. -/
def storePlace (launch : BlocksLaunch) (args : BlocksArgs ℕ Address)
    (block chunkIdx thread frameElem : ℕ) : ℕ ⊕ ℕ → Location Address :=
  Sum.elim (fun q => .register block thread q)
    fun i => .global (args.outputVec (launch.chunkExtent * chunkIdx + frameElem + i))

/-- The value for an element of the output, from the sum of everything before it. -/
def finalValue (launch : BlocksLaunch) (args : BlocksArgs ℕ Address) (chunkIdx p : ℕ) (before : M)
    (memory : Memory Address M) : M :=
  match args.scanType with
  | .exclusiveScan => before
  | .inclusiveScan =>
      memory (.global (args.inputVec (launch.chunkExtent * chunkIdx + p))) + before

/-- **Behind the sweeps.** A thread adds what comes before its mini blocks and writes its
elements. -/
theorem addAndStore_assigns {chunks : ℕ} (block thread : ℕ) (proper : launch.Proper device)
    (separate : args.Separate chunks) (inside : chunkIdx < numChunks launch args)
    (room : frameElem + launch.elsPerThread ≤ launch.chunkExtent) (memory : Memory Address M) :
    Assigns ∅ (storeIndex launch args chunkIdx frameElem)
      (storePlace launch args block chunkIdx thread frameElem)
      (Sum.elim (incremented device launch args block chunkIdx thread frameElem memory) fun i =>
        finalValue launch args chunkIdx (frameElem + i)
          (incremented device launch args block chunkIdx thread frameElem memory i) memory)
      memory (copyOut launch args block chunkIdx thread frameElem
        (addToMiniBlocks device launch args block chunkIdx thread frameElem memory)) := by
  have added := addToMiniBlocks_assigns args block chunkIdx thread frameElem proper memory
  have stored := copyOut_assigns block thread proper separate inside room
    (addToMiniBlocks device launch args block chunkIdx thread frameElem memory)
  refine (added.sum (stored.congr_value fun i member => ?_) (fun _ _ => Set.notMem_empty _)
    fun q _ i _ same => ?_)
  · have register := added.written i member.1
    have input := added.other (.global (args.inputVec
      (launch.chunkExtent * chunkIdx + frameElem + i))) (Set.notMem_empty _) fun q _ same => ?_
    · unfold outputValue finalValue
      cases args.scanType with
      | exclusiveScan => exact register
      | inclusiveScan =>
          simp only [elementIdx_exact, toNat_exactValue, Nat.add_zero]
          rw [register, input, Nat.add_assoc]
    · cases same
  · cases same

end Thread

end Alpaka.Scan
