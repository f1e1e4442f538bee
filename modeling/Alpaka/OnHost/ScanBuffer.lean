import Alpaka.OnHost.Scan

/-! # The scratch buffer of a scan

Every level of the recursion cuts the increments of its chunks off the front of the
buffer and hands the rest on. For a buffer of bytes with the computed size the levels
share it out without a gap (`Alpaka.Scan.scanLevels_exact`). A level compares bytes with
the bytes it needs, but cuts off elements; for a buffer of larger elements the comparison
does not keep the cut inside (`Alpaka.Scan.scanLevel_iff`).
-/

namespace Alpaka.Scan

/-- Bytes of the memory. -/
structure Region where
  data : ℕ
  bytes : ℕ
  deriving DecidableEq

namespace Region

def Within (inner outer : Region) : Prop :=
  outer.data ≤ inner.data ∧ inner.data + inner.bytes ≤ outer.data + outer.bytes

def Disjoint (first second : Region) : Prop :=
  first.data + first.bytes ≤ second.data ∨ second.data + second.bytes ≤ first.data

end Region

/-- A one-dimensional view. Offsets and extents count elements. -/
structure BufferView where
  data : ℕ
  extents : ℕ
  sizeofValue : ℕ
  deriving DecidableEq

/-- A violated assertion. -/
inductive Violated
  | bufferSize
  | subView
  deriving DecidableEq

namespace BufferView

variable (view : BufferView)

def region : Region := ⟨view.data, view.extents * view.sizeofValue⟩

/-- `getSubView` from the begin of the view. -/
def getSubView (extents : ℕ) : Except Violated BufferView :=
  if extents ≤ view.extents then .ok { view with extents := extents } else .error .subView

/-- `getSubView` from an offset. -/
def getSubViewAt (offset extents : ℕ) : Except Violated BufferView :=
  if offset + extents ≤ view.extents then
    .ok ⟨view.data + offset * view.sizeofValue, extents, view.sizeofValue⟩
  else .error .subView

end BufferView

/-- One level of the recursion: the memory of the increments, and the buffer for the next
level. -/
def scanLevel (sizeofData numFrames : ℕ) (buffer : BufferView) :
    Except Violated (Region × BufferView) := do
  let bufSizeBytes := numFrames * sizeofData
  if ¬ buffer.extents * buffer.sizeofValue ≥ bufSizeBytes then throw .bufferSize
  let subBuf ← buffer.getSubView bufSizeBytes
  let increments : Region := ⟨subBuf.data, numFrames * sizeofData⟩
  let bufferNext ← buffer.getSubViewAt bufSizeBytes (buffer.extents - bufSizeBytes)
  return (increments, bufferNext)

/-- What the levels of the recursion cut off and hand on, and what is left for the case
without recursion. -/
def scanLevels (sizeofData extent : ℕ) (buffer : BufferView) :
    Except Violated (List (Region × BufferView) × BufferView) :=
  let numFrames := divCeil extent chunkSize
  if 1 < numFrames then do
    let (increments, bufferNext) ← scanLevel sizeofData numFrames buffer
    let (levels, rest) ← scanLevels sizeofData numFrames bufferNext
    return ((increments, bufferNext) :: levels, rest)
  else return ([], buffer)
termination_by extent
decreasing_by
  have several : 1 < divCeil extent chunkSize := by assumption
  unfold divCeil chunkSize at several ⊢
  omega

/-- The loop of `scanBufferSize`. -/
def scanBufferLoop (bufSize elements : ℕ) : ℕ :=
  if 1 < elements then scanBufferLoop (bufSize + elements) (divCeil elements chunkSize)
  else bufSize
termination_by elements
decreasing_by
  unfold divCeil chunkSize
  omega

/-- The size of the buffer for elements of a given size. -/
def bufferBytes (sizeofData extent : ℕ) : ℕ :=
  scanBufferLoop 0 (divCeil extent chunkSize) * sizeofData

private theorem scanBufferLoop_eq (bufSize elements : ℕ) :
    scanBufferLoop bufSize elements = bufSize + scanBufferElements elements := by
  induction elements using scanBufferElements.induct generalizing bufSize with
  | case1 elements several ih =>
      rw [scanBufferLoop, scanBufferElements, if_pos several, if_pos several, ih, Nat.add_assoc]
  | case2 elements few => rw [scanBufferLoop, scanBufferElements, if_neg few, if_neg few]; rfl

/-- What the scan of a device asks for. -/
theorem bufferBytes_eq (device : Device) (extent : ℕ) :
    bufferBytes device.arch.sizeofValue extent = scanBufferSize device extent := by
  unfold bufferBytes scanBufferSize
  rw [scanBufferLoop_eq, Nat.zero_add]

/-! ## One level -/

section Level

variable {sizeofData numFrames : ℕ} {buffer : BufferView}

private theorem scanLevel_ok
    (accepted : numFrames * sizeofData ≤ buffer.extents * buffer.sizeofValue)
    (fits : numFrames * sizeofData ≤ buffer.extents) :
    scanLevel sizeofData numFrames buffer = .ok
      (⟨buffer.data, numFrames * sizeofData⟩,
        ⟨buffer.data + numFrames * sizeofData * buffer.sizeofValue,
          buffer.extents - numFrames * sizeofData, buffer.sizeofValue⟩) := by
  unfold scanLevel BufferView.getSubView BufferView.getSubViewAt
  dsimp only
  rw [if_neg (not_not_intro accepted), if_pos fits, if_pos (Nat.add_sub_of_le fits).le]
  rfl

private theorem scanLevel_error
    (accepted : numFrames * sizeofData ≤ buffer.extents * buffer.sizeofValue)
    (beyond : ¬ numFrames * sizeofData ≤ buffer.extents) :
    scanLevel sizeofData numFrames buffer = .error .subView := by
  unfold scanLevel BufferView.getSubView
  dsimp only
  rw [if_neg (not_not_intro accepted), if_neg beyond]
  rfl

/-- A level cuts a buffer of bytes in two. -/
private theorem scanLevel_split (sizeofData numFrames data others : ℕ) :
    scanLevel sizeofData numFrames ⟨data, numFrames * sizeofData + others, 1⟩ =
      .ok (⟨data, numFrames * sizeofData⟩, ⟨data + numFrames * sizeofData, others, 1⟩) := by
  rw [scanLevel_ok ((Nat.le_add_right _ _).trans (Nat.mul_one _).ge) (Nat.le_add_right _ _)]
  dsimp only
  rw [Nat.mul_one, Nat.add_sub_cancel_left]

/-- **One level.** A buffer that the level accepts is cut inside its bounds, and the
increments are inside of it and apart from the rest, exactly when it has as many elements
as bytes are needed. -/
theorem scanLevel_iff (elements : 0 < buffer.sizeofValue)
    (accepted : buffer.extents * buffer.sizeofValue ≥ numFrames * sizeofData) :
    (∃ increments bufferNext, scanLevel sizeofData numFrames buffer = .ok (increments, bufferNext) ∧
        increments.Within buffer.region ∧ bufferNext.region.Within buffer.region ∧
        increments.Disjoint bufferNext.region) ↔
      numFrames * sizeofData ≤ buffer.extents := by
  constructor
  · rintro ⟨increments, bufferNext, cut, -⟩
    by_contra beyond
    rw [scanLevel_error accepted beyond] at cut
    cases cut
  · intro fits
    have grown := Nat.le_mul_of_pos_right (numFrames * sizeofData) elements
    have whole : numFrames * sizeofData * buffer.sizeofValue +
        (buffer.extents - numFrames * sizeofData) * buffer.sizeofValue =
          buffer.extents * buffer.sizeofValue := by
      rw [← Nat.add_mul, Nat.add_sub_of_le fits]
    refine ⟨_, _, scanLevel_ok accepted fits, ⟨le_rfl, ?_⟩, ⟨?_, ?_⟩, .inl ?_⟩
    · exact Nat.add_le_add_left accepted _
    · exact Nat.le_add_right _ _
    · unfold BufferView.region
      dsimp only
      rw [Nat.add_assoc, whole]
    · exact Nat.add_le_add_left grown _

/-- Two frames of four-byte increments and a buffer of bytes. -/
theorem scanLevel_bytes :
    ∃ increments bufferNext, scanLevel 4 2 ⟨4096, 8, 1⟩ = .ok (increments, bufferNext) ∧
      increments.Within ⟨4096, 8⟩ ∧ bufferNext.region.Within ⟨4096, 8⟩ ∧
      increments.Disjoint bufferNext.region :=
  (@scanLevel_iff 4 2 ⟨4096, 8, 1⟩ (by decide) (by decide)).mpr (by decide)

end Level

/-- Two four-byte elements are enough bytes for two frames, but not enough elements. -/
theorem scanLevel_overrun :
    ¬ ∀ (sizeofData extent : ℕ) (buffer : BufferView), 0 < sizeofData →
      0 < buffer.sizeofValue → 1 < divCeil extent chunkSize →
      buffer.extents * buffer.sizeofValue ≥ divCeil extent chunkSize * sizeofData →
      ∃ increments bufferNext,
        scanLevel sizeofData (divCeil extent chunkSize) buffer = .ok (increments, bufferNext) ∧
          increments.Within buffer.region ∧ bufferNext.region.Within buffer.region ∧
          increments.Disjoint bufferNext.region := by
  intro law
  obtain ⟨increments, bufferNext, cut, -⟩ :=
    law 4 4096 ⟨4096, 2, 4⟩ (by decide) (by decide) (by decide) (by decide)
  have failed : scanLevel 4 (divCeil 4096 chunkSize) ⟨4096, 2, 4⟩ = .error .subView := by decide
  rw [failed] at cut
  cases cut

/-! ## All levels -/

/-- **The recursion.** A buffer of bytes of the computed size is enough for all levels. The
increments of different levels are apart, each level hands on what it does not use, and
nothing is left in the end. -/
theorem scanLevels_exact (sizeofData extent data : ℕ) :
    ∃ levels rest,
      scanLevels sizeofData extent ⟨data, bufferBytes sizeofData extent, 1⟩ = .ok (levels, rest) ∧
        rest.extents = 0 ∧ (levels.map Prod.fst).Pairwise Region.Disjoint ∧
        (∀ level ∈ levels, level.1.Within ⟨data, bufferBytes sizeofData extent⟩ ∧
          level.2.region.Within ⟨data, bufferBytes sizeofData extent⟩ ∧
          level.1.Disjoint level.2.region) ∧
        (levels.map fun level => level.1.bytes).sum = bufferBytes sizeofData extent := by
  unfold bufferBytes
  rw [scanBufferLoop_eq, Nat.zero_add]
  induction extent using Nat.strong_induction_on generalizing data with
  | _ extent ih =>
      unfold scanLevels
      rw [scanBufferElements]
      dsimp only
      split
      · rename_i several
        have smaller : divCeil extent chunkSize < extent := by
          unfold divCeil chunkSize at several ⊢
          omega
        generalize divCeil extent chunkSize = numFrames at several smaller ⊢
        generalize later : scanBufferElements (divCeil numFrames chunkSize) = elements
        rw [Nat.add_mul]
        obtain ⟨levels, rest, run, empty, apart, inside, sum⟩ :=
          ih numFrames smaller (data + numFrames * sizeofData)
        rw [later] at run inside sum
        rw [scanLevel_split]
        generalize numFrames * sizeofData = first at run inside sum ⊢
        generalize elements * sizeofData = others at run inside sum ⊢
        refine ⟨(⟨data, first⟩, ⟨data + first, others, 1⟩) :: levels, rest, ?_, empty, ?_, ?_, ?_⟩
        · change (scanLevels sizeofData numFrames ⟨data + first, others, 1⟩ >>= fun result =>
            Except.ok (_ :: result.1, result.2)) = _
          rw [run]
          rfl
        · refine List.Pairwise.cons (fun region member => ?_) apart
          obtain ⟨level, held, rfl⟩ := List.mem_map.mp member
          exact .inl (inside level held).1.1
        · refine List.forall_mem_cons.mpr ⟨⟨⟨le_rfl, ?_⟩, ⟨Nat.le_add_right _ _, ?_⟩, .inl le_rfl⟩,
            fun level held => ?_⟩
          · exact Nat.add_le_add_left (Nat.le_add_right _ _) _
          · change data + first + others * 1 ≤ data + (first + others)
            omega
          · obtain ⟨⟨front, back⟩, ⟨front', back'⟩, disjoint⟩ := inside level held
            dsimp only at front back front' back'
            refine ⟨⟨?_, ?_⟩, ⟨?_, ?_⟩, disjoint⟩ <;> dsimp only <;> omega
        · rw [List.map_cons, List.sum_cons, sum]
      · refine ⟨[], _, rfl, Nat.zero_mul _, List.Pairwise.nil, fun _ member => ?_, ?_⟩
        · exact absurd member List.not_mem_nil
        · exact (Nat.zero_mul _).symm

end Alpaka.Scan
