import Alpaka.OnHost.ScanMiniBlocks

/-! # The sizes of a scan

The kernel cuts the elements of a thread into mini blocks. On GPUs these have eight
elements, elsewhere as many as fit into 32 KiB, and never more than the elements of the
thread. The kernel needs mini blocks that fill the elements of the thread evenly, which
the quotient by the size of an element does not promise
(`Alpaka.Scan.divides_iff`).
-/

namespace Alpaka

inductive DeviceKind
  | cpu
  | numaCpu
  | amdGpu
  | nvidiaGpu
  | intelGpu
  deriving DecidableEq

namespace Scan

def maximumMiniBlockSize (kind : DeviceKind) (sizeofData : ℕ) : ℕ :=
  match kind with
  | .nvidiaGpu => 8
  | .amdGpu => 8
  | .intelGpu => 8
  | _ => 32768 / sizeofData

/-- A device with the mini blocks of its kind. -/
def ofKind (kind : DeviceKind) (device : Device) : Device :=
  { device with maximumMiniBlockSize := maximumMiniBlockSize kind device.arch.sizeofValue }

namespace BlocksLaunch

variable (device : Device) (launch : BlocksLaunch)

def miniBlocksPerThread : ℕ := launch.elsPerThread / launch.miniBlockSize device

/-- The length of the shared array. -/
def conflictFreeAdr : ℕ :=
  conflictFreeAccess device.warpSize (launch.miniBlocksPerChunk device - 1) + 1

/-- What the kernel takes for granted about its sizes. -/
structure Divides : Prop where
  positive : 1 ≤ launch.miniBlockSize device
  pow : ∃ bits, launch.miniBlockSize device = 2 ^ bits
  divides : launch.miniBlockSize device ∣ launch.elsPerThread
  registers : launch.miniBlocksPerThread device * launch.miniBlockSize device = launch.elsPerThread
  chunk : ∃ bits, launch.miniBlocksPerChunk device = 2 ^ bits
  inside : ∀ i < launch.miniBlocksPerChunk device,
    conflictFreeAccess device.warpSize i < launch.conflictFreeAdr device
  apart : ∀ i < launch.miniBlocksPerChunk device, ∀ j < launch.miniBlocksPerChunk device,
    conflictFreeAccess device.warpSize i = conflictFreeAccess device.warpSize j → i = j

variable {device launch}

/-- The elements of a thread are a power of two. -/
theorem elsPerThread_pow (threads : launch.numThreads ∣ chunkSize) :
    ∃ bits, launch.elsPerThread = 2 ^ bits := by
  have divides : launch.elsPerThread ∣ 2 ^ 11 := Nat.div_dvd_of_dvd threads
  obtain ⟨bits, -, power⟩ := (Nat.dvd_prime_pow Nat.prime_two).mp divides
  exact ⟨bits, power⟩

/-- Mini blocks that are a power of two fill everything evenly. -/
theorem divides_of_pow (threads : launch.numThreads ∣ chunkSize) {bits : ℕ}
    (power : launch.miniBlockSize device = 2 ^ bits) : launch.Divides device := by
  obtain ⟨els, elements⟩ := elsPerThread_pow threads
  have divides : launch.miniBlockSize device ∣ launch.elsPerThread := by
    have le : launch.miniBlockSize device ≤ launch.elsPerThread := min_le_right _ _
    rw [power, elements] at le ⊢
    exact Nat.pow_dvd_pow 2 ((Nat.pow_le_pow_iff_right (by decide)).mp le)
  -- the sizes do not depend on the orders of blocks and threads
  have proper : Proper device { launch with
      numBlocks := 0, blocks := [], threads := fun _ _ _ => List.range launch.numThreads } :=
    ⟨threads, divides, List.Perm.refl _, fun _ _ _ => List.Perm.refl _⟩
  have monotone := conflictFreeAccess_strictMono device.warpSize
  refine ⟨proper.miniBlockSize_pos, ⟨bits, power⟩, divides, Nat.div_mul_cancel divides, ?_,
    fun i inside => ?_, fun i _ j _ same => monotone.injective same⟩
  · obtain ⟨-, large, -, blocks⟩ := proper.powers
    exact ⟨large, blocks⟩
  · exact Nat.lt_succ_of_le (monotone.monotone (Nat.le_sub_one_of_lt inside))

end BlocksLaunch

/-- A minimum with a power of two is one. -/
private theorem min_pow_iff {a b : ℕ} (power : ∃ bits, b = 2 ^ bits) :
    (∃ bits, min a b = 2 ^ bits) ↔ b ≤ a ∨ ∃ bits, a = 2 ^ bits := by
  rcases min_choice a b with first | second
  · rw [first]
    constructor
    · exact .inr
    · rintro (le | power')
      · rwa [← le_antisymm (min_eq_left_iff.mp first) le] at power
      · exact power'
  · rw [second]
    exact ⟨fun _ => .inl (min_eq_right_iff.mp second), fun _ => power⟩

/-- **The sizes of a scan.** Everything divides evenly on GPUs, and elsewhere when a thread
has no more elements than fit into 32 KiB, or the number of elements that fit is a power
of two. -/
theorem divides_iff (kind : DeviceKind) (device : Device) {launch : BlocksLaunch}
    (threads : launch.numThreads ∣ chunkSize) :
    launch.Divides (ofKind kind device) ↔
      (kind = .nvidiaGpu ∨ kind = .amdGpu ∨ kind = .intelGpu) ∨
        chunkSize / launch.numThreads ≤ 32768 / device.arch.sizeofValue ∨
        ∃ bits, 32768 / device.arch.sizeofValue = 2 ^ bits := by
  have size : launch.Divides (ofKind kind device) ↔
      chunkSize / launch.numThreads ≤ maximumMiniBlockSize kind device.arch.sizeofValue ∨
        ∃ bits, maximumMiniBlockSize kind device.arch.sizeofValue = 2 ^ bits := by
    refine Iff.trans ?_ (min_pow_iff (BlocksLaunch.elsPerThread_pow threads))
    constructor
    · exact BlocksLaunch.Divides.pow
    · rintro ⟨bits, power⟩
      exact BlocksLaunch.divides_of_pow threads power
  have eight : ∃ bits, 8 = 2 ^ bits := ⟨3, rfl⟩
  rw [size]
  cases kind with
  | nvidiaGpu => exact ⟨fun _ => .inl (.inl rfl), fun _ => .inr eight⟩
  | amdGpu => exact ⟨fun _ => .inl (.inr (.inl rfl)), fun _ => .inr eight⟩
  | intelGpu => exact ⟨fun _ => .inl (.inr (.inr rfl)), fun _ => .inr eight⟩
  | cpu => exact (or_iff_right (by decide)).symm
  | numaCpu => exact (or_iff_right (by decide)).symm

/-- A CPU with elements of a given size. -/
def cpuDevice (sizeofValue : ℕ) (positive : 0 < sizeofValue) : Device where
  warpSize := 1
  maximumMiniBlockSize := 0
  arch := ⟨sizeofValue, 32, 1, 64, positive, .inl (by decide)⟩
  idxPolicy := ⟨.flat, .strided⟩
  simdPolicy := ⟨.flat, .strided⟩

/-- A single thread of a CPU takes a chunk of four-byte elements as one mini block. -/
theorem divides_float :
    BlocksLaunch.Divides (ofKind .cpu (cpuDevice 4 (by decide))) ⟨1, 1, [0], fun _ _ _ => [0]⟩ :=
  (divides_iff .cpu _ (by decide)).mpr (.inr (.inl (by decide)))

/-- With 24-byte elements, 1365 of them are a mini block. -/
theorem divides_lost :
    ¬ ∀ (kind : DeviceKind) (device : Device) (launch : BlocksLaunch),
      launch.numThreads ∣ chunkSize → launch.Divides (ofKind kind device) := by
  intro law
  have divides := (law .cpu (cpuDevice 24 (by decide)) ⟨1, 1, [0], fun _ _ _ => [0]⟩
    (by decide)).divides
  revert divides
  decide

end Scan

end Alpaka
