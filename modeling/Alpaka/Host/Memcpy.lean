import Alpaka.Mem.RowWrites

/-! # Copying and setting boxes on the host

The host queue copies and sets multidimensional data row by row. Exactly the bytes of
the elements in the requested box are written (`Alpaka.Host.Memcpy.op_writes`,
`Alpaka.Host.Memset.op_writes`); padding, and everything else, stays as it was.
-/

namespace Alpaka

open Math (Assigns)
open Math.Strides (Nested)

variable {n : ℕ}

/-- The standard library's copy of ranges that do not overlap. -/
def memcpy (dest src count : ℕ) (memory : Bytes) : Bytes := fun address =>
  if dest ≤ address ∧ address < dest + count then memory (src + (address - dest))
  else memory address

/-- The standard library's setting of a range. -/
def memset (dest : ℕ) (byteValue : UInt8) (count : ℕ) (memory : Bytes) : Bytes := fun address =>
  if dest ≤ address ∧ address < dest + count then byteValue else memory address

theorem memcpy_assigns (dest src count : ℕ) (memory : Bytes) :
    Assigns ∅ (Set.Iio count) (dest + ·) (fun i => memory (src + i)) memory
      (memcpy dest src count memory) where
  written := fun i below => by
    have inside : dest ≤ dest + i ∧ dest + i < dest + count :=
      ⟨Nat.le_add_right _ _, Nat.add_lt_add_left below _⟩
    rw [memcpy, if_pos inside, Nat.add_sub_cancel_left]
  other := fun address _ away => if_neg fun ⟨above, below⟩ =>
    away (address - dest) (Set.mem_Iio.mpr (by omega)) (by omega)

theorem memset_assigns (dest : ℕ) (byteValue : UInt8) (count : ℕ) (memory : Bytes) :
    Assigns ∅ (Set.Iio count) (dest + ·) (fun _ => byteValue) memory
      (memset dest byteValue count memory) where
  written := fun i below => if_pos ⟨Nat.le_add_right _ _, Nat.add_lt_add_left below _⟩
  other := fun address _ away => if_neg fun ⟨above, below⟩ =>
    away (address - dest) (Set.mem_Iio.mpr (by omega)) (by omega)

theorem memcpy_copies (dest source count : ℕ) :
    Copies (Set.univ : Set Unit) (fun _ => dest) (fun _ => source) count
      (memcpy dest source count) := fun _ memory =>
  (memcpy_assigns dest source count memory).relabel
    (fun ⟨_, i⟩ inside => ⟨i, inside.2, rfl, rfl⟩)
    (fun i below => ⟨((), i), ⟨Set.mem_univ _, below⟩, rfl⟩)

theorem memset_sets (dest : ℕ) (byteValue : UInt8) (count : ℕ) :
    Sets (Set.univ : Set Unit) (fun _ => dest) count byteValue (memset dest byteValue count) :=
  fun memory => (memset_assigns dest byteValue count memory).relabel
    (fun ⟨_, i⟩ inside => ⟨i, inside.2, rfl, rfl⟩)
    (fun i below => ⟨((), i), ⟨Set.mem_univ _, below⟩, rfl⟩)

/-! ## The operations of the host queue -/

def Memcpy.op {n : ℕ} (dest source : MdSpan ℕ n) (extents : Vec ℕ (n + 1)) (memory : Bytes) :
    Bytes :=
  if extents.product = 0 then memory
  else
    match n, dest, source, extents with
    | 0, dest, source, extents =>
        memcpy dest.data source.data (extents.back * dest.sizeofValue) memory
    | _ + 1, dest, source, extents =>
        let destPitchBytesWithoutColumn := dest.getPitches.eraseBack
        let sourcePitchBytesWithoutColumn := source.getPitches.eraseBack
        ndLoopIncIdx extents.eraseBack (fun idx =>
          memcpy (dest.data + ∑ d, idx d * destPitchBytesWithoutColumn d)
            (source.data + ∑ d, idx d * sourcePitchBytesWithoutColumn d)
            (extents.back * dest.sizeofValue)) memory

def Memset.op {n : ℕ} (dest : MdSpan ℕ n) (byteValue : UInt8) (extents : Vec ℕ (n + 1))
    (memory : Bytes) : Bytes :=
  if extents.product = 0 then memory
  else
    match n, dest, extents with
    | 0, dest, extents => memset dest.data byteValue (extents.back * dest.sizeofValue) memory
    | _ + 1, dest, extents =>
        let destPitchBytesWithoutColumn := dest.getPitches.eraseBack
        ndLoopIncIdx extents.eraseBack (fun idx =>
          memset (dest.data + ∑ d, idx d * destPitchBytesWithoutColumn d) byteValue
            (extents.back * dest.sizeofValue)) memory

private theorem Memcpy.op_of_empty {dest source : MdSpan ℕ n} {extents : Vec ℕ (n + 1)}
    (empty : extents.product = 0) (memory : Bytes) :
    Memcpy.op dest source extents memory = memory := by
  unfold Memcpy.op
  exact if_pos empty

/-- A copy goes row by row, also where there is only one. -/
private theorem Memcpy.op_rows {dest source : MdSpan ℕ n} {extents : Vec ℕ (n + 1)}
    (some : extents.product ≠ 0) (memory : Bytes) :
    Memcpy.op dest source extents memory = (ndIdxs extents.eraseBack).foldl (fun memory row =>
      memcpy (dest.row row) (source.row row) (extents.back * dest.sizeofValue) memory) memory := by
  unfold Memcpy.op
  rw [if_neg some]
  cases n with
  | zero => rfl
  | succ n =>
      simp only [MdSpan.eraseBack_getPitches]
      exact ndLoopIncIdx_eq _ _ _

private theorem Memset.op_rows {dest : MdSpan ℕ n} {byteValue : UInt8} {extents : Vec ℕ (n + 1)}
    (some : extents.product ≠ 0) (memory : Bytes) :
    Memset.op dest byteValue extents memory = (ndIdxs extents.eraseBack).foldl (fun memory row =>
      memset (dest.row row) byteValue (extents.back * dest.sizeofValue) memory) memory := by
  unfold Memset.op
  rw [if_neg some]
  cases n with
  | zero => rfl
  | succ n =>
      simp only [MdSpan.eraseBack_getPitches]
      exact ndLoopIncIdx_eq _ _ _

/-- One call for every row. -/
private theorem distributes_rows (box : Vec ℕ n) :
    Distributes box (ndIdxs box) (Set.univ : Set Unit) (fun row _ => row) where
  distinct := nodup_ndIdxs _
  inside := fun _ member _ _ => mem_ndIdxs.mp member
  onto := fun row inside => ⟨row, mem_ndIdxs.mpr inside, (), Set.mem_univ _, rfl⟩
  apart := fun _ _ _ _ different _ _ _ _ => different

/-- **Copying a box.** The elements of the destination hold what those of the source
held. -/
theorem Memcpy.op_writes {dest source : MdSpan ℕ n} {extents : Vec ℕ (n + 1)}
    (same : source.sizeofValue = dest.sizeofValue) (rows : dest.RowsApart extents)
    (apart : dest.Apart source extents) (memory : Bytes) :
    Writes dest extents (fun idx byte => memory (source.ptr id idx + byte)) memory
      (Memcpy.op dest source extents memory) := by
  by_cases empty : extents.product = 0
  · rw [Memcpy.op_of_empty empty]
    exact Writes.of_empty empty _ memory
  · rw [Memcpy.op_rows empty]
    exact (distributes_rows extents.eraseBack).copies same rows apart
      (fun row _ => memcpy_copies (dest.row row) (source.row row) _) memory

/-- **Setting a box.** All bytes of the elements have the given value. -/
theorem Memset.op_writes {dest : MdSpan ℕ n} {extents : Vec ℕ (n + 1)} (byteValue : UInt8)
    (rows : dest.RowsApart extents) (memory : Bytes) :
    Writes dest extents (fun _ _ => byteValue) memory
      (Memset.op dest byteValue extents memory) := by
  by_cases empty : extents.product = 0
  · unfold Memset.op
    rw [if_pos empty]
    exact Writes.of_empty empty _ memory
  · rw [Memset.op_rows empty]
    exact (distributes_rows extents.eraseBack).sets rows
      (fun row _ => memset_sets (dest.row row) byteValue _) memory

/-- **Boxes.** A copy writes exactly the bytes of the elements in the box, with what the
elements of the source held, and nothing if the box is empty; setting writes the same
bytes. -/
theorem box_writes {dest : MdSpan ℕ n} {extents : Vec ℕ (n + 1)}
    (rows : dest.RowsApart dest.extents) (fits : ∀ d, extents d ≤ dest.extents d)
    (memory : Bytes) :
    (∀ source : MdSpan ℕ n, source.sizeofValue = dest.sizeofValue → dest.Apart source extents →
      Writes dest extents (fun idx byte => memory (source.ptr id idx + byte)) memory
        (Memcpy.op dest source extents memory)) ∧
    (∀ source : MdSpan ℕ n, (∃ d, extents d = 0) →
      Memcpy.op dest source extents memory = memory) ∧
    ∀ byteValue : UInt8, Writes dest extents (fun _ _ => byteValue) memory
      (Memset.op dest byteValue extents memory) := by
  refine ⟨fun source same apart => Memcpy.op_writes same (rows.mono fits) apart memory,
    fun source empty => Memcpy.op_of_empty ?_ memory,
    fun byteValue => Memset.op_writes byteValue (rows.mono fits) memory⟩
  obtain ⟨d, zero⟩ := empty
  rw [Vec.product_eq_prod]
  exact Finset.prod_eq_zero (Finset.mem_univ d) zero

/-- Part of a padded volume and dense data behind it. -/
theorem box_writes_volume :
    let dest : MdSpan ℕ 2 := ⟨0, 4, ![3, 5, 6], ![160, 32]⟩
    let source : MdSpan ℕ 2 := ⟨1000, 4, ![3, 5, 6], ![120, 24]⟩
    let memory : Bytes := fun address => UInt8.ofNat address
    Writes dest ![2, 4, 5] (fun idx byte => memory (source.ptr id idx + byte)) memory
      (Memcpy.op dest source ![2, 4, 5] memory) := by
  intro dest source memory
  have nested : Nested ![3, 5, 6] dest.getPitches := by decide
  have fits (d : Fin 3) : ![2, 4, 5] d ≤ dest.extents d := by
    revert d
    decide
  refine (box_writes (MdSpan.rowsApart_of_nested nested) fits memory).1 source rfl ?_
  intro first second inside inside' byte below byte' below' same
  have before := MdSpan.ptr_add_le nested fun d => (inside d).trans_le (fits d)
  have behind : 1000 ≤ source.ptr id second := Nat.le_add_right _ _
  have size : dest.data + ![3, 5, 6] 0 * dest.getPitches 0 = 480 := rfl
  omega

end Alpaka
