import Alpaka.Math.Strides
import Alpaka.Vec

/-! # Memory layouts of multidimensional data

The rows of a multidimensional allocation are padded to the alignment, and the pitch
of a dimension is the distance in bytes between its neighbours. All elements lie in
the allocation, no two of them overlap, and every row starts at a multiple of the
alignment (`Alpaka.alloc_layout`).
-/

namespace Alpaka

open Math.Strides (Nested offset offset_succ offset_last offset_single)

variable {T S : Type} {n : ℕ}

/-- The vector without the fastest moving dimension. -/
def Vec.eraseBack (v : Vec T (n + 1)) : Vec T n := fun i => v i.castSucc

/-- The pitches of rows that follow each other without a gap. -/
def calculatePitchesFromExtents [Mul T] (sizeofElem : T) : {n : ℕ} → Vec T (n + 1) → Vec T (n + 1)
  | 0, _ => fun _ => sizeofElem
  | _ + 1, extent =>
      let faster := calculatePitchesFromExtents sizeofElem (Vec.rshrink extent)
      Fin.cons (extent 1 * faster 0) faster

/-- The pitches of data whose row pitch is given. -/
def calculatePitches [Mul T] (sizeofElem rowPitchBytes : T) : {n : ℕ} → Vec T (n + 2) →
    Vec T (n + 2)
  | 0, _ => ![rowPitchBytes, sizeofElem]
  | _ + 1, extent =>
      let faster := calculatePitches sizeofElem rowPitchBytes (Vec.rshrink extent)
      Fin.cons (extent 1 * faster 0) faster

/-- The size of an allocation in bytes and its pitches. -/
def emulatedAlignedMemDescription [Add T] [Sub T] [Mul T] [Div T] [OfNat T 1] [NatCast T] [Mul S]
    [NatCast S] (toSizeT : T → S) (sizeofValue alignmentInByte : ℕ) : {n : ℕ} → Vec T (n + 1) →
    S × Vec T (n + 1)
  | 0, extents => (toSizeT extents.back * (sizeofValue : S), fun _ => (sizeofValue : T))
  | _ + 1, extents =>
      let alignment : T := alignmentInByte
      let rowExtentInBytes := extents.back * (sizeofValue : T)
      let rowPitchInBytes := divCeil rowExtentInBytes alignment * alignment
      let pitches := calculatePitches (sizeofValue : T) rowPitchInBytes extents
      (toSizeT (pitches 0) * toSizeT (extents 0), pitches)

/-- A view on multidimensional data. Of the pitches the fastest one, which is the size
of an element, is not stored. -/
structure MdSpan (T : Type) (n : ℕ) where
  data : ℕ
  sizeofValue : ℕ
  extents : Vec T (n + 1)
  pitch : Vec T n

/-- How far an element is from the begin of the data, in bytes. With one dimension
this is pointer arithmetic, otherwise arithmetic in the index type. -/
def MdSpan.byteOffset [Add T] [Mul T] [NatCast T] (toSizeT : T → ℕ) : {n : ℕ} → MdSpan T n →
    Vec T (n + 1) → ℕ
  | 0, span, idx => toSizeT idx.back * span.sizeofValue
  | n + 1, span, idx => toSizeT (Fin.foldl (n + 1)
      (fun offset d => offset + span.pitch d * idx d.castSucc) ((span.sizeofValue : T) * idx.back))

/-- The address of an element. -/
def MdSpan.ptr [Add T] [Mul T] [NatCast T] (toSizeT : T → ℕ) (span : MdSpan T n)
    (idx : Vec T (n + 1)) : ℕ :=
  span.data + span.byteOffset toSizeT idx

/-- The size that the host allocates, and the view on the allocation at a pointer. -/
def alloc [Add T] [Sub T] [Mul T] [Div T] [OfNat T 1] [NatCast T] [Mul S] [NatCast S]
    (toSizeT : T → S) (sizeofValue alignment : ℕ) (extents : Vec T (n + 1)) (ptr : ℕ) :
    S × MdSpan T n :=
  let (memSizeInByte, pitches) :=
    emulatedAlignedMemDescription toSizeT sizeofValue alignment extents
  (memSizeInByte, ⟨ptr, sizeofValue, extents, pitches.eraseBack⟩)

/-! ## Exact arithmetic -/

section Exact

/-- Adding up in a loop. -/
theorem foldl_add_eq_sum (start : ℕ) (f : Fin n → ℕ) :
    Fin.foldl n (fun total d => total + f d) start = start + ∑ d, f d := by
  induction n with
  | zero => rw [Fin.foldl_zero, Fin.sum_univ_zero, Nat.add_zero]
  | succ n ih => rw [Fin.foldl_succ_last, ih, Fin.sum_univ_castSucc, Nat.add_assoc]

/-- The pitches of a view, the size of an element last. -/
def MdSpan.getPitches [NatCast T] (span : MdSpan T n) : Vec T (n + 1) :=
  Fin.snoc span.pitch (span.sizeofValue : T)

theorem MdSpan.byteOffset_eq (span : MdSpan ℕ n) (idx : Vec ℕ (n + 1)) :
    span.byteOffset id idx = offset span.getPitches idx := by
  have split : offset span.getPitches idx =
      offset span.pitch (Vec.eraseBack idx) + idx.back * span.sizeofValue := by
    rw [offset_last, MdSpan.getPitches, Fin.init_snoc, Fin.snoc_last, Nat.cast_id]
    rfl
  rw [split]
  cases n with
  | zero => exact (Nat.zero_add _).symm
  | succ n =>
      have loop := foldl_add_eq_sum (span.sizeofValue * idx.back)
        fun d => span.pitch d * idx d.castSucc
      refine loop.trans ?_
      rw [Nat.add_comm, Nat.mul_comm span.sizeofValue]
      congr 1
      exact Finset.sum_congr rfl fun d _ => Nat.mul_comm _ _

theorem MdSpan.ptr_eq_offset (span : MdSpan ℕ n) (idx : Vec ℕ (n + 1)) :
    span.ptr id idx = span.data + offset span.getPitches idx :=
  congrArg (span.data + ·) (span.byteOffset_eq idx)

theorem calculatePitchesFromExtents_contiguous (sizeofElem : ℕ) (extent : Vec ℕ (n + 1))
    (d : Fin n) : extent d.succ * calculatePitchesFromExtents sizeofElem extent d.succ =
      calculatePitchesFromExtents sizeofElem extent d.castSucc := by
  induction n with
  | zero => exact d.elim0
  | succ n ih =>
      cases d using Fin.cases with
      | zero => rfl
      | succ d => exact ih (Vec.rshrink extent) d

theorem calculatePitchesFromExtents_last (sizeofElem : ℕ) (extent : Vec ℕ (n + 1)) :
    calculatePitchesFromExtents sizeofElem extent (Fin.last n) = sizeofElem := by
  induction n with
  | zero => rfl
  | succ n ih => exact ih (Vec.rshrink extent)

private theorem calculatePitches_nested {sizeofElem rowPitchBytes : ℕ} {extent : Vec ℕ (n + 2)}
    (room : extent.back * sizeofElem ≤ rowPitchBytes) :
    Nested extent (calculatePitches sizeofElem rowPitchBytes extent) := by
  induction n with
  | zero =>
      intro i
      rw [Fin.fin_one_eq_zero i]
      exact room
  | succ n ih =>
      intro i
      cases i using Fin.cases with
      | zero => exact le_rfl
      | succ i =>
          have faster : Nested (Vec.rshrink extent)
              (calculatePitches sizeofElem rowPitchBytes (Vec.rshrink extent)) := ih room
          exact faster i

private theorem calculatePitches_last (sizeofElem rowPitchBytes : ℕ) (extent : Vec ℕ (n + 2)) :
    calculatePitches sizeofElem rowPitchBytes extent (Fin.last (n + 1)) = sizeofElem := by
  induction n with
  | zero => rfl
  | succ n ih => exact ih (Vec.rshrink extent)

/-- All pitches but the fastest are multiples of the row pitch. -/
theorem dvd_calculatePitches {divisor sizeofElem rowPitchBytes : ℕ}
    (divides : divisor ∣ rowPitchBytes) (extent : Vec ℕ (n + 2)) (d : Fin (n + 1)) :
    divisor ∣ calculatePitches sizeofElem rowPitchBytes extent d.castSucc := by
  induction n with
  | zero =>
      rw [Fin.fin_one_eq_zero d]
      exact divides
  | succ n ih =>
      cases d using Fin.cases with
      | zero => exact (ih (Vec.rshrink extent) 0).mul_left _
      | succ d => exact ih (Vec.rshrink extent) d

/-- What an allocation must be like. -/
structure Description (sizeofValue alignment : ℕ) (extents : Vec ℕ (n + 1)) (memSizeInByte : ℕ)
    (pitches : Vec ℕ (n + 1)) : Prop where
  nested : Nested extents pitches
  fastest : pitches (Fin.last n) = sizeofValue
  size : memSizeInByte = extents 0 * pitches 0
  aligned : ∀ d, alignment ∣ pitches.eraseBack d

theorem emulatedAlignedMemDescription_description (sizeofValue : ℕ) {alignment : ℕ}
    (positive : 0 < alignment) (extents : Vec ℕ (n + 1)) :
    Description sizeofValue alignment extents
      (emulatedAlignedMemDescription id sizeofValue alignment extents).1
      (emulatedAlignedMemDescription id sizeofValue alignment extents).2 := by
  cases n with
  | zero => exact ⟨fun d => d.elim0, rfl, rfl, fun d => d.elim0⟩
  | succ n =>
      refine ⟨calculatePitches_nested ?_, calculatePitches_last _ _ _, Nat.mul_comm _ _,
        dvd_calculatePitches (Nat.dvd_mul_left _ _) extents⟩
      exact le_divCeil_mul positive _

/-- The view on an allocation has the pitches of its description. -/
theorem getPitches_alloc (sizeofValue : ℕ) {alignment : ℕ} (positive : 0 < alignment)
    (extents : Vec ℕ (n + 1)) (ptr : ℕ) :
    (alloc id sizeofValue alignment extents ptr : ℕ × MdSpan ℕ n).2.getPitches =
      (emulatedAlignedMemDescription id sizeofValue alignment extents : ℕ × Vec ℕ (n + 1)).2 := by
  have fastest := (emulatedAlignedMemDescription_description sizeofValue positive extents).fastest
  refine Eq.trans ?_ (Fin.snoc_init_self _)
  unfold MdSpan.getPitches alloc
  rw [fastest]
  rfl

/-- **Layout.** Every element lies in the allocation, different elements do not
overlap, and every row starts at a multiple of the alignment. -/
theorem alloc_layout (sizeofValue : ℕ) {alignment : ℕ} (positive : 0 < alignment)
    (extents : Vec ℕ (n + 1)) {ptr : ℕ} (aligned : alignment ∣ ptr) :
    let memSizeInByte := (alloc id sizeofValue alignment extents ptr).1
    let span := (alloc id sizeofValue alignment extents ptr).2
    (∀ idx, (∀ d, idx d < extents d) → ptr ≤ span.ptr id idx ∧
      span.ptr id idx + sizeofValue ≤ ptr + memSizeInByte) ∧
    (∀ idx other, (∀ d, idx d < extents d) → (∀ d, other d < extents d) → idx ≠ other →
      span.ptr id idx + sizeofValue ≤ span.ptr id other ∨
        span.ptr id other + sizeofValue ≤ span.ptr id idx) ∧
    (∀ idx, (∀ d, idx d < extents d) → idx.back = 0 → alignment ∣ span.ptr id idx) := by
  have description := emulatedAlignedMemDescription_description sizeofValue positive extents
  intro memSizeInByte span
  have address (idx : Vec ℕ (n + 1)) : span.ptr id idx =
      ptr + offset (emulatedAlignedMemDescription id sizeofValue alignment extents).2 idx := by
    rw [← getPitches_alloc sizeofValue positive extents ptr]
    exact MdSpan.ptr_eq_offset _ idx
  refine ⟨fun idx inside => ?_, fun idx other inside inside' different => ?_,
    fun idx inside first => ?_⟩
  · have size : memSizeInByte = extents 0 *
        (emulatedAlignedMemDescription id sizeofValue alignment extents).2 0 := description.size
    have room := (description.nested.room inside).trans (Nat.mul_le_mul_right _ (inside 0))
    rw [description.fastest, ← size] at room
    rw [address]
    omega
  · have apart := description.nested.lt inside inside' different
    rw [description.fastest] at apart
    rw [address, address]
    omega
  · rw [address, offset_last, show idx (Fin.last n) = 0 from first, Nat.zero_mul, Nat.add_zero]
    exact aligned.add (Math.Strides.dvd_offset description.aligned)

/-- A volume of three bytes to the element, with padded rows. -/
theorem alloc_layout_padded :
    let memSizeInByte := (alloc id 3 64 ![2, 5, 30] 128).1
    let span := (alloc id 3 64 ![2, 5, 30] 128).2
    (∀ idx, (∀ d, idx d < ![2, 5, 30] d) → 128 ≤ span.ptr id idx ∧
      span.ptr id idx + 3 ≤ 128 + memSizeInByte) ∧
    (∀ idx other, (∀ d, idx d < ![2, 5, 30] d) → (∀ d, other d < ![2, 5, 30] d) → idx ≠ other →
      span.ptr id idx + 3 ≤ span.ptr id other ∨ span.ptr id other + 3 ≤ span.ptr id idx) ∧
    (∀ idx, (∀ d, idx d < ![2, 5, 30] d) → idx.back = 0 → 64 ∣ span.ptr id idx) :=
  alloc_layout 3 (by decide) ![2, 5, 30] (by decide)

end Exact

end Alpaka
