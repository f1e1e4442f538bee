import Mathlib.Order.Interval.Finset.Fin
import Alpaka.OnHost.ScanMiniBlocks

/-! # The accesses to a mini block

The scan of a mini block on an array, with every access checked against the extent. For a
power of two no check fails, the array ends up with the sums of everything before each
element, and the total sum is returned (`Alpaka.Scan.scanMiniBlockAt_spec`).
-/

namespace Alpaka.Scan

open Finset (range)
open Math (progression mem_progression)
open Math.Sweep (upPair downPair upSteps downSteps mem_upSteps mem_downSteps)

variable {M : Type} {extent : ℕ}

/-- Reading an element, if there is one. -/
def readAt (block : Fin extent → M) (i : ℕ) : Option M :=
  if inside : i < extent then some (block ⟨i, inside⟩) else none

/-- Writing an element, if there is one. -/
def writeAt (block : Fin extent → M) (i : ℕ) (value : M) : Option (Fin extent → M) :=
  if inside : i < extent then some (Function.update block ⟨i, inside⟩ value) else none

section Definitions

variable [Add M]

/-- A step of the up-sweep. -/
def upPairAt (offset frameElem : ℕ) (block : Fin extent → M) : Option (Fin extent → M) := do
  let left := offset * (frameElem + 1) - 1
  let right := offset * (frameElem + 2) - 1
  writeAt block right ((← readAt block right) + (← readAt block left))

/-- A step of the down-sweep. -/
def downPairAt (offset frameElem : ℕ) (block : Fin extent → M) : Option (Fin extent → M) := do
  let left := offset * (frameElem + 1) - 1
  let right := offset * (frameElem + 2) - 1
  let t ← readAt block left
  let block ← writeAt block left (← readAt block right)
  writeAt block right ((← readAt block right) + t)

/-- The function with checked accesses. -/
def scanMiniBlockAt [Zero M] (extent : ℕ) (block : Fin extent → M) :
    Option (M × (Fin extent → M)) := do
  let block ← (upSteps (extent / 2) 1).foldlM (fun block step =>
    (progression 0 2 (2 * step.1)).foldlM
      (fun block frameElem => upPairAt step.2 frameElem block) block) block
  let blockSum ← readAt block (extent - 1)
  let block ← writeAt block (extent - 1) 0
  let block ← (downSteps extent 1 (extent / 2)).foldlM (fun block step =>
    (progression 0 2 (2 * step.1)).foldlM
      (fun block frameElem => downPairAt step.2 frameElem block) block) block
  return (blockSum, block)

end Definitions

private theorem readAt_of_lt (block : Fin extent → M) {i : ℕ} (inside : i < extent) :
    readAt block i = some (block ⟨i, inside⟩) := dif_pos inside

private theorem writeAt_of_lt (block : Fin extent → M) {i : ℕ} (inside : i < extent) (value : M) :
    writeAt block i value = some (Function.update block ⟨i, inside⟩ value) := dif_pos inside

/-- Steps that all succeed. -/
private theorem foldlM_some {σ α : Type*} {partialStep : σ → α → Option σ} {step : σ → α → σ}
    {elements : List α} (succeeds : ∀ x ∈ elements, ∀ state,
      partialStep state x = some (step state x)) (state : σ) :
    elements.foldlM partialStep state = some (elements.foldl step state) := by
  induction elements generalizing state with
  | nil => rfl
  | cons x elements ih =>
      rw [List.foldlM_cons, succeeds x List.mem_cons_self, List.foldl_cons]
      exact ih (fun y member => succeeds y (List.mem_cons_of_mem _ member)) _

section Checked

variable {bits : ℕ}

/-- An index as an element of the block. -/
private def cell (bits i : ℕ) : Fin (2 ^ bits) :=
  ⟨i % 2 ^ bits, Nat.mod_lt i (Nat.two_pow_pos bits)⟩

private theorem cell_eq {i : ℕ} (inside : i < 2 ^ bits) : cell bits i = ⟨i, inside⟩ :=
  Fin.ext (Nat.mod_eq_of_lt inside)

private theorem cell_injOn : Set.InjOn (cell bits) (Set.Iio (2 ^ bits)) := by
  intro i inside j inside' same
  rw [cell_eq inside, cell_eq inside'] at same
  exact congrArg Fin.val same

/-- The cells of the pairs of a level are in the block. -/
private theorem right_lt {step : ℕ × ℕ} (positive : 0 < step.2)
    (span : step.2 * (2 * step.1) = 2 ^ bits) {frameElem : ℕ}
    (member : frameElem ∈ progression 0 2 (2 * step.1)) :
    step.2 * (frameElem + 1) - 1 < 2 ^ bits ∧ step.2 * (frameElem + 2) - 1 < 2 ^ bits := by
  obtain ⟨pair, rfl, below⟩ := (mem_progression Nat.two_pos).mp member
  have room : step.2 * (0 + pair * 2 + 2) ≤ step.2 * (2 * step.1) :=
    Nat.mul_le_mul_left _ (by omega)
  have order : step.2 * (0 + pair * 2 + 1) ≤ step.2 * (0 + pair * 2 + 2) :=
    Nat.mul_le_mul_left _ (by omega)
  have some : 0 < step.2 * (0 + pair * 2 + 1) := Nat.mul_pos positive (Nat.succ_pos _)
  omega

variable [AddCommMonoid M]

private theorem upPairAt_eq {offset frameElem : ℕ} (left : offset * (frameElem + 1) - 1 < 2 ^ bits)
    (right : offset * (frameElem + 2) - 1 < 2 ^ bits) (block : Fin (2 ^ bits) → M) :
    upPairAt offset frameElem block = some (upPair (cell bits) offset frameElem block) := by
  unfold upPairAt upPair
  dsimp only
  rw [readAt_of_lt block left, readAt_of_lt block right, cell_eq left, cell_eq right]
  exact writeAt_of_lt block right _

private theorem downPairAt_eq {offset frameElem : ℕ}
    (left : offset * (frameElem + 1) - 1 < 2 ^ bits)
    (right : offset * (frameElem + 2) - 1 < 2 ^ bits) (block : Fin (2 ^ bits) → M) :
    downPairAt offset frameElem block = some (downPair (cell bits) offset frameElem block) := by
  unfold downPairAt downPair
  dsimp only
  rw [readAt_of_lt block left, readAt_of_lt block right, cell_eq left, cell_eq right]
  simp only [Option.bind_eq_bind, Option.bind_some, writeAt_of_lt _ left, readAt_of_lt _ right,
    writeAt_of_lt _ right]

/-- No access fails, and the block is that of the function without checks. -/
private theorem scanMiniBlockAt_eq (block : Fin (2 ^ bits) → M) :
    scanMiniBlockAt (2 ^ bits) block = some (scanMiniBlock (cell bits) (2 ^ bits) block) := by
  have last : 2 ^ bits - 1 < 2 ^ bits := Nat.sub_lt (Nat.two_pow_pos bits) Nat.one_pos
  have up (block : Fin (2 ^ bits) → M) :
      (upSteps (2 ^ bits / 2) 1).foldlM (fun block step =>
        (progression 0 2 (2 * step.1)).foldlM
          (fun block frameElem => upPairAt step.2 frameElem block) block) block =
        some (upSweep (cell bits) (2 ^ bits) block) := by
    apply foldlM_some
    intro step member block
    obtain ⟨positive, span⟩ := mem_upSteps 0 member
    rw [Nat.zero_add] at span
    apply foldlM_some
    intro frameElem listed block
    obtain ⟨left, right⟩ := right_lt positive span listed
    exact upPairAt_eq left right block
  have down (block : Fin (2 ^ bits) → M) :
      (downSteps (2 ^ bits) 1 (2 ^ bits / 2)).foldlM (fun block step =>
        (progression 0 2 (2 * step.1)).foldlM
          (fun block frameElem => downPairAt step.2 frameElem block) block) block =
        some (downSweep (cell bits) (2 ^ bits) block) := by
    apply foldlM_some
    intro step member block
    obtain ⟨positive, span⟩ := mem_downSteps 0 member
    rw [Nat.add_zero] at span
    apply foldlM_some
    intro frameElem listed block
    obtain ⟨left, right⟩ := right_lt positive span listed
    exact downPairAt_eq left right block
  unfold scanMiniBlockAt scanMiniBlock
  dsimp only
  rw [cell_eq last]
  simp only [up, Option.bind_eq_bind, Option.bind_some, readAt_of_lt _ last, writeAt_of_lt _ last,
    down]
  rfl

private theorem cell_val (i : Fin (2 ^ bits)) : cell bits i = i :=
  cell_eq i.isLt

/-- **A mini block in place.** No access is beyond the extent, every element becomes the sum
of the elements before it, and the sum of all of them is returned. -/
theorem scanMiniBlockAt_spec (bits : ℕ) (block : Fin (2 ^ bits) → M) :
    scanMiniBlockAt (2 ^ bits) block =
      some (∑ i, block i, fun i => ∑ j ∈ Finset.Iio i, block j) := by
  have distinct : Set.InjOn (cell bits) (Set.Iio (2 ^ bits)) := cell_injOn
  obtain ⟨total, assigns⟩ := scanMiniBlock_assigns distinct block
  rw [scanMiniBlockAt_eq]
  refine congrArg some (Prod.ext ?_ ?_)
  · rw [total, Finset.sum_range]
    simp only [cell_val]
  · funext i
    have written := assigns.written i i.isLt
    rw [cell_val] at written
    rw [written, ← Nat.Iio_eq_range, ← Fin.map_valEmbedding_Iio, Finset.sum_map]
    exact Finset.sum_congr rfl fun j _ => congrArg block (cell_val j)

end Checked

end Alpaka.Scan
