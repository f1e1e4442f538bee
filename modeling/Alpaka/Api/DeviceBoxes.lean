import Alpaka.Host.Memcpy
import Alpaka.Mem.FusedRows

/-! # Copying and setting boxes on devices

The queues of devices use calls of the device's vendor, which write rows at a constant
distance or slices of such rows. Boxes with more dimensions are written in one call when
the slower dimensions follow each other without a gap, otherwise in a call for every
index of the slower dimensions. The outcome is that of the host's queue
(`Alpaka.device_boxes`).
-/

namespace Alpaka

open Math (foldl_assigns)
open Math.MixedRadix (place)
open Math.Strides (Nested offset)

attribute [local instance (2000)] neZero_two neZero_add_three

variable {n k m : ℕ}

private theorem offset_fill_zero (stride : Vec ℕ m) : offset stride (Vec.fill 0) = 0 :=
  Finset.sum_eq_zero fun d _ => Nat.zero_mul (stride d)

private theorem once_eq (act : Vec ℕ m → Bytes → Bytes) :
    ndLoopIncIdx (Vec.fill 1) act = act (Vec.fill 0) := by
  funext memory
  rw [ndLoopIncIdx_eq, ndIdxs_one]
  rfl

private theorem pos_of_product {extents : Vec ℕ (n + 1)} (some : extents.product ≠ 0)
    (d : Fin (n + 1)) : 0 < extents d := by
  rw [Vec.product_eq_prod] at some
  exact Nat.pos_of_ne_zero fun none => some (Finset.prod_eq_zero (Finset.mem_univ d) none)

/-! ## CUDA and HIP -/

namespace UnifiedCudaHip

structure PitchedPtr where
  ptr : ℕ
  pitch : ℕ
  xsize : ℕ
  ysize : ℕ

structure Extent where
  width : ℕ
  height : ℕ
  depth : ℕ

structure Memcpy3DParms where
  srcPtr : PitchedPtr
  dstPtr : PitchedPtr
  extent : Extent

/-- Where a row of a slice begins. -/
def PitchedPtr.row (pitchedPtr : PitchedPtr) (label : ℕ × ℕ) : ℕ :=
  pitchedPtr.ptr + (label.1 * (pitchedPtr.ysize * pitchedPtr.pitch) + label.2 * pitchedPtr.pitch)

/-- The rows of the slices. -/
def Extent.rows (extent : Extent) : Set (ℕ × ℕ) :=
  {label | label.1 ∈ Set.Iio extent.depth ∧ label.2 < extent.height}

/-- The calls of the vendor. -/
structure ApiInterface where
  memcpyAsync (dst src count : ℕ) : Bytes → Bytes
  memcpy2DAsync (dst dpitch src spitch width height : ℕ) : Bytes → Bytes
  memcpy3DAsync (parms : Memcpy3DParms) : Bytes → Bytes
  memsetAsync (dst : ℕ) (value : UInt8) (count : ℕ) : Bytes → Bytes
  memset2DAsync (dst pitch : ℕ) (value : UInt8) (width height : ℕ) : Bytes → Bytes
  memset3DAsync (pitchedPtr : PitchedPtr) (value : UInt8) (extent : Extent) : Bytes → Bytes

/-- What the vendor documents: rows are not longer than their pitch, a slice has no more
rows than it is high, and the rows are then copied or set. -/
structure ApiInterface.Documented (api : ApiInterface) : Prop where
  memcpyAsync : ∀ dst src count,
    Copies (Set.univ : Set Unit) (fun _ => dst) (fun _ => src) count (api.memcpyAsync dst src count)
  memcpy2DAsync : ∀ dst dpitch src spitch width height, width ≤ dpitch → width ≤ spitch →
    Copies (Set.Iio height) (fun y => dst + y * dpitch) (fun y => src + y * spitch) width
      (api.memcpy2DAsync dst dpitch src spitch width height)
  memcpy3DAsync : ∀ parms, parms.extent.width ≤ parms.dstPtr.pitch →
    parms.extent.width ≤ parms.srcPtr.pitch → parms.extent.height ≤ parms.dstPtr.ysize →
    parms.extent.height ≤ parms.srcPtr.ysize →
    Copies parms.extent.rows parms.dstPtr.row parms.srcPtr.row parms.extent.width
      (api.memcpy3DAsync parms)
  memsetAsync : ∀ dst value count,
    Sets (Set.univ : Set Unit) (fun _ => dst) count value (api.memsetAsync dst value count)
  memset2DAsync : ∀ dst pitch value width height, width ≤ pitch →
    Sets (Set.Iio height) (fun y => dst + y * pitch) width value
      (api.memset2DAsync dst pitch value width height)
  memset3DAsync : ∀ pitchedPtr value extent, extent.width ≤ pitchedPtr.pitch →
    extent.height ≤ pitchedPtr.ysize →
    Sets extent.rows pitchedPtr.row extent.width value (api.memset3DAsync pitchedPtr value extent)

/-- The pointer of a call of the loop over the slower dimensions; its height is the
number of rows in a slice of the original memory. -/
def makePitchedPtr (ptr : ℕ) (pitchJump : Vec ℕ m) (extentMd pitchesOriginal : Vec ℕ (k + 3))
    (idx : Vec ℕ m) : PitchedPtr where
  ptr := ptr + ∑ d, idx d * pitchJump d
  pitch := pitchesOriginal.y
  xsize := extentMd.x
  ysize := pitchesOriginal.z / pitchesOriginal.y

def makeExtent (sizeofValue : ℕ) (extentMd : Vec ℕ (k + 3)) : Extent :=
  ⟨extentMd.x * sizeofValue, extentMd.y, extentMd.z⟩

/-- The parameters of a call of the loop over the slower dimensions. -/
def Memcpy.memCpy3DParms (sizeofValue : ℕ) (destPitchJump srcPitchJump : Vec ℕ m)
    (extentMd : Vec ℕ (k + 3)) (destPtr : ℕ) (destPitchesOriginal : Vec ℕ (k + 3)) (srcPtr : ℕ)
    (srcPitchesOriginal : Vec ℕ (k + 3)) (idx : Vec ℕ m) : Memcpy3DParms where
  srcPtr := makePitchedPtr srcPtr srcPitchJump extentMd srcPitchesOriginal idx
  dstPtr := makePitchedPtr destPtr destPitchJump extentMd destPitchesOriginal idx
  extent := makeExtent sizeofValue extentMd

def Memcpy.memcopy3D (api : ApiInterface) (sizeofValue : ℕ)
    (repetitions destPitchJump srcPitchJump : Vec ℕ m) (extentMd : Vec ℕ (k + 3)) (destPtr : ℕ)
    (destPitchesOriginal : Vec ℕ (k + 3)) (srcPtr : ℕ) (srcPitchesOriginal : Vec ℕ (k + 3)) :
    Bytes → Bytes :=
  ndLoopIncIdx repetitions fun idx => api.memcpy3DAsync (memCpy3DParms sizeofValue destPitchJump
    srcPitchJump extentMd destPtr destPitchesOriginal srcPtr srcPitchesOriginal idx)

def Memset.memset3D (api : ApiInterface) (sizeofValue : ℕ) (byteValue : UInt8)
    (repetitions destPitchJump : Vec ℕ m) (extentMd : Vec ℕ (k + 3)) (destPtr : ℕ)
    (destPitchesOriginal : Vec ℕ (k + 3)) : Bytes → Bytes :=
  ndLoopIncIdx repetitions fun idx => api.memset3DAsync
    (makePitchedPtr destPtr destPitchJump extentMd destPitchesOriginal idx) byteValue
    (makeExtent sizeofValue extentMd)

/-- The extents of a call that takes all dimensions but the two fastest as one. -/
def mappedExtentMd (extentMd : Vec ℕ (k + 3)) : Vec ℕ 3 :=
  Function.update (extentMd.rshrinkTo 3) 0 (Vec.product (extentMd.rshrinkAt (k + 1) k))

def Memcpy.op (api : ApiInterface) {n : ℕ} (dest source : MdSpan ℕ n) (extentMd : Vec ℕ (n + 1))
    (memory : Bytes) : Bytes :=
  if extentMd.product = 0 then memory
  else
    match n, dest, source, extentMd with
    | 0, dest, source, extentMd =>
        api.memcpyAsync dest.data source.data (extentMd.x * dest.sizeofValue) memory
    | 1, dest, source, extentMd =>
        api.memcpy2DAsync dest.data dest.getPitches.y source.data source.getPitches.y
          (extentMd.x * dest.sizeofValue) extentMd.y memory
    | 2, dest, source, extentMd =>
        memcopy3D api dest.sizeofValue (Vec.fill 1 : Vec ℕ 3) (Vec.fill 0) (Vec.fill 0) extentMd
          dest.data dest.getPitches source.data source.getPitches memory
    | k + 3, dest, source, extentMd =>
        let destPitch : Vec ℕ (k + 1 + 3) := dest.getPitches
        let srcPitch : Vec ℕ (k + 1 + 3) := source.getPitches
        if isContiguous 2 extentMd destPitch && isContiguous 2 extentMd srcPitch then
          memcopy3D api dest.sizeofValue (Vec.fill 1 : Vec ℕ 3) (Vec.fill 0) (Vec.fill 0)
            (mappedExtentMd (k := k + 1) extentMd) dest.data (destPitch.rshrinkTo 3) source.data
            (srcPitch.rshrinkTo 3) memory
        else
          memcopy3D api dest.sizeofValue ((extentMd : Vec ℕ (k + 1 + 3)).rshrinkAt (k + 1) k)
            (destPitch.rshrinkAt (k + 1) k) (srcPitch.rshrinkAt (k + 1) k) extentMd dest.data
            destPitch source.data srcPitch memory

def Memset.op (api : ApiInterface) {n : ℕ} (dest : MdSpan ℕ n) (byteValue : UInt8)
    (extentMd : Vec ℕ (n + 1)) (memory : Bytes) : Bytes :=
  if extentMd.product = 0 then memory
  else
    match n, dest, extentMd with
    | 0, dest, extentMd =>
        api.memsetAsync dest.data byteValue (extentMd.x * dest.sizeofValue) memory
    | 1, dest, extentMd =>
        api.memset2DAsync dest.data dest.getPitches.y byteValue (extentMd.x * dest.sizeofValue)
          extentMd.y memory
    | 2, dest, extentMd =>
        memset3D api dest.sizeofValue byteValue (Vec.fill 1 : Vec ℕ 3) (Vec.fill 0) extentMd
          dest.data dest.getPitches memory
    | k + 3, dest, extentMd =>
        let destPitch : Vec ℕ (k + 1 + 3) := dest.getPitches
        if isContiguous 2 extentMd destPitch then
          memset3D api dest.sizeofValue byteValue (Vec.fill 1 : Vec ℕ 3) (Vec.fill 0)
            (mappedExtentMd extentMd) dest.data (destPitch.rshrinkTo 3) memory
        else
          memset3D api dest.sizeofValue byteValue
            ((extentMd : Vec ℕ (k + 1 + 3)).rshrinkAt (k + 1) k) (destPitch.rshrinkAt (k + 1) k)
            extentMd dest.data destPitch memory

/-! ### Slices -/

/-- Rows and slices of a box have room in what the pitches say. -/
structure Sliced (sizeofValue : ℕ) (extentMd pitches : Vec ℕ (k + 3)) : Prop where
  width : extentMd.x * sizeofValue ≤ pitches.y
  height : extentMd.y ≤ pitches.z / pitches.y
  whole : pitches.z / pitches.y * pitches.y = pitches.z

private theorem makePitchedPtr_row {sizeofValue : ℕ} {extentMd pitches : Vec ℕ (k + 3)}
    (sliced : Sliced sizeofValue extentMd pitches) (ptr : ℕ) (pitchJump idx : Vec ℕ m)
    (label : ℕ × ℕ) :
    (makePitchedPtr ptr pitchJump extentMd pitches idx).row label =
      ptr + (offset pitchJump idx + label.1 * pitches.z + label.2 * pitches.y) := by
  have slices : (makePitchedPtr ptr pitchJump extentMd pitches idx).ysize *
      (makePitchedPtr ptr pitchJump extentMd pitches idx).pitch = pitches.z := sliced.whole
  unfold PitchedPtr.row
  rw [slices, Nat.add_assoc (offset pitchJump idx), ← Nat.add_assoc ptr]
  rfl

private theorem Sliced.of_pitched {span : MdSpan ℕ (k + 2)} {extents : Vec ℕ (k + 3)}
    (pitched : span.Pitched extents) (positive : ∀ d, 0 < extents d) :
    Sliced span.sizeofValue extents span.getPitches := by
  have row : 0 < span.getPitches.y :=
    (Nat.mul_pos (positive (Fin.last (k + 2))) pitched.sizeofValue_pos).trans_le pitched.width
  have divides : span.getPitches.y ∣ span.getPitches.z := by
    rw [span.y_getPitches, span.z_getPitches]
    exact pitched.divides (Fin.last k).castSucc (Fin.last (k + 1)) (Fin.le_last _)
  exact ⟨pitched.width, (Nat.le_div_iff_mul_le row).mpr pitched.slice, Nat.div_mul_cancel divides⟩

section Calls

variable {api : ApiInterface} {sizeofValue : ℕ} {extentMd destPitches sourcePitches : Vec ℕ (k + 3)}

/-- What a call for an index of the slower dimensions copies. -/
theorem memcpy3D_copies (documented : api.Documented)
    (slicedDest : Sliced sizeofValue extentMd destPitches)
    (slicedSource : Sliced sizeofValue extentMd sourcePitches)
    (destPtr sourcePtr : ℕ) (destPitchJump sourcePitchJump idx : Vec ℕ m) :
    Copies {label : ℕ × ℕ | label.1 ∈ Set.Iio extentMd.z ∧ label.2 < extentMd.y}
      (fun label => destPtr +
        (offset destPitchJump idx + label.1 * destPitches.z + label.2 * destPitches.y))
      (fun label => sourcePtr +
        (offset sourcePitchJump idx + label.1 * sourcePitches.z + label.2 * sourcePitches.y))
      (extentMd.x * sizeofValue)
      (api.memcpy3DAsync (Memcpy.memCpy3DParms sizeofValue destPitchJump sourcePitchJump extentMd
        destPtr destPitches sourcePtr sourcePitches idx)) :=
  have copies := documented.memcpy3DAsync (Memcpy.memCpy3DParms sizeofValue destPitchJump
    sourcePitchJump extentMd destPtr destPitches sourcePtr sourcePitches idx) slicedDest.width
    slicedSource.width slicedDest.height slicedSource.height
  copies.congr rfl (makePitchedPtr_row slicedDest destPtr destPitchJump idx)
    (makePitchedPtr_row slicedSource sourcePtr sourcePitchJump idx)

private theorem memset3D_sets (documented : api.Documented) (byteValue : UInt8)
    (sliced : Sliced sizeofValue extentMd destPitches) (destPtr : ℕ)
    (destPitchJump idx : Vec ℕ m) :
    Sets {label : ℕ × ℕ | label.1 ∈ Set.Iio extentMd.z ∧ label.2 < extentMd.y}
      (fun label => destPtr +
        (offset destPitchJump idx + label.1 * destPitches.z + label.2 * destPitches.y))
      (extentMd.x * sizeofValue) byteValue
      (api.memset3DAsync (makePitchedPtr destPtr destPitchJump extentMd destPitches idx) byteValue
        (makeExtent sizeofValue extentMd)) :=
  have sets := documented.memset3DAsync
    (makePitchedPtr destPtr destPitchJump extentMd destPitches idx) byteValue
    (makeExtent sizeofValue extentMd) sliced.width sliced.height
  sets.congr rfl (makePitchedPtr_row sliced destPtr destPitchJump idx)

end Calls

/-- The box without the rows and slices of a call is that of the slower dimensions. -/
private theorem mappedExtentMd_z (extents : Vec ℕ (k + 3)) :
    (mappedExtentMd extents).z = ∏ d, extents.eraseBack.eraseBack d := by
  have slower : extents.rshrinkAt (k + 1) k = extents.eraseBack.eraseBack :=
    Vec.rshrinkAt_first (n := 2) extents
  rw [← slower, ← Vec.product_eq_prod]
  exact Function.update_self (0 : Fin 3) _ (extents.rshrinkTo 3)

private theorem mappedExtentMd_three (extents : Vec ℕ 3) :
    mappedExtentMd (k := 0) extents = extents := by
  funext d
  refine Fin.cases ?_ (fun d => ?_) d
  · refine (mappedExtentMd_z extents).trans ?_
    rw [Fin.prod_univ_one]
    rfl
  · exact (Function.update_of_ne (Fin.succ_ne_zero d) _ _).trans
      (congrArg extents (Fin.ext (Nat.zero_add _)))

theorem Sliced.mapped {sizeofValue : ℕ} {extentMd pitches : Vec ℕ (k + 3)}
    (sliced : Sliced sizeofValue extentMd pitches) :
    Sliced (k := 0) sizeofValue (mappedExtentMd extentMd) (pitches.rshrinkTo 3) :=
  ⟨sliced.width, sliced.height, sliced.whole⟩

section Fused

variable {api : ApiInterface} {dest source : MdSpan ℕ (k + 2)} {extents : Vec ℕ (k + 3)}

private theorem Memcpy.fused_writes (documented : api.Documented)
    (same : source.sizeofValue = dest.sizeofValue) (destPitched : dest.Pitched extents)
    (sourcePitched : source.Pitched extents) (apart : dest.Apart source extents)
    (positive : ∀ d, 0 < extents d)
    (destContiguous : ∀ d : Fin k, extents.eraseBack.eraseBack d.succ *
      dest.pitch.eraseBack d.succ = dest.pitch.eraseBack d.castSucc)
    (sourceContiguous : ∀ d : Fin k, extents.eraseBack.eraseBack d.succ *
      source.pitch.eraseBack d.succ = source.pitch.eraseBack d.castSucc) (memory : Bytes) :
    Writes dest extents (fun idx byte => memory (source.ptr id idx + byte)) memory
      (memcopy3D api dest.sizeofValue (Vec.fill 1 : Vec ℕ 3) (Vec.fill 0) (Vec.fill 0)
        (mappedExtentMd extents) dest.data (dest.getPitches.rshrinkTo 3) source.data
        (source.getPitches.rshrinkTo 3) memory) := by
  have copies := memcpy3D_copies documented (Sliced.of_pitched destPitched positive).mapped
    (same ▸ Sliced.of_pitched sourcePitched positive).mapped dest.data source.data (Vec.fill 0)
    (Vec.fill 0) (Vec.fill 0 : Vec ℕ 3)
  unfold memcopy3D
  rw [once_eq]
  refine copies_fused_slices same (MdSpan.rowsApart_of_nested destPitched.nested) apart positive
    destContiguous sourceContiguous (copies.congr ?_ (fun label => ?_) fun label => ?_) memory
  · rw [mappedExtentMd_z]
    rfl
  · rw [offset_fill_zero, Nat.zero_add]
    rfl
  · rw [offset_fill_zero, Nat.zero_add]
    rfl

private theorem Memset.fused_writes (documented : api.Documented) (byteValue : UInt8)
    (pitched : dest.Pitched extents) (positive : ∀ d, 0 < extents d)
    (contiguous : ∀ d : Fin k, extents.eraseBack.eraseBack d.succ * dest.pitch.eraseBack d.succ =
      dest.pitch.eraseBack d.castSucc) (memory : Bytes) :
    Writes dest extents (fun _ _ => byteValue) memory
      (memset3D api dest.sizeofValue byteValue (Vec.fill 1 : Vec ℕ 3) (Vec.fill 0)
        (mappedExtentMd extents) dest.data (dest.getPitches.rshrinkTo 3) memory) := by
  have sets := memset3D_sets documented byteValue (Sliced.of_pitched pitched positive).mapped
    dest.data (Vec.fill 0) (Vec.fill 0 : Vec ℕ 3)
  unfold memset3D
  rw [once_eq]
  refine sets_fused_slices (MdSpan.rowsApart_of_nested pitched.nested) positive contiguous
    (sets.congr ?_ fun label => ?_) memory
  · rw [mappedExtentMd_z]
    rfl
  · rw [offset_fill_zero, Nat.zero_add]
    rfl

end Fused

private theorem rshrinkAt_slower (v : Vec ℕ (k + 1 + 3)) :
    v.rshrinkAt (k + 1) k = v.eraseBack.eraseBack.eraseBack :=
  Vec.rshrinkAt_first v

/-- The pitches of the dimensions that are slower than a slice. -/
private theorem rshrinkAt_getPitches (span : MdSpan ℕ (k + 3)) :
    (span.getPitches : Vec ℕ (k + 1 + 3)).rshrinkAt (k + 1) k = span.pitch.eraseBack.eraseBack :=
  (rshrinkAt_slower _).trans
    (congrArg (fun pitch => Vec.eraseBack (Vec.eraseBack pitch)) span.eraseBack_getPitches)

private theorem rshrinkTo_three (v : Vec ℕ (0 + 3)) : v.rshrinkTo 3 = v :=
  funext fun _ => congrArg v (Fin.ext (Nat.zero_add _))

theorem Memcpy.op_writes {api : ApiInterface} (documented : api.Documented)
    {dest source : MdSpan ℕ n} {extents : Vec ℕ (n + 1)}
    (same : source.sizeofValue = dest.sizeofValue) (destPitched : dest.Pitched extents)
    (sourcePitched : source.Pitched extents) (apart : dest.Apart source extents)
    (memory : Bytes) :
    Writes dest extents (fun idx byte => memory (source.ptr id idx + byte)) memory
      (Memcpy.op api dest source extents memory) := by
  have rows : dest.RowsApart extents := MdSpan.rowsApart_of_nested destPitched.nested
  unfold Memcpy.op
  by_cases empty : extents.product = 0
  · rw [if_pos empty]
    exact Writes.of_empty empty _ memory
  rw [if_neg empty]
  have positive := pos_of_product empty
  match n, dest, source, extents with
  | 0, dest, source, extents =>
      exact (Distributes.single extents.eraseBack ()).copies same rows apart
        (fun _ _ => documented.memcpyAsync dest.data source.data _) memory
  | 1, dest, source, extents =>
      refine copies_fused same rows apart positive (fun d => d.elim0) (fun d => d.elim0)
        ((documented.memcpy2DAsync dest.data dest.getPitches.y source.data source.getPitches.y _ _
          destPitched.width (same ▸ sourcePitched.width)).congr ?_ (fun _ => rfl) fun _ => rfl)
        memory
      rw [Fin.prod_univ_one]
      rfl
  | 2, dest, source, extents =>
      have fused := Memcpy.fused_writes (k := 0) documented same destPitched sourcePitched apart
        positive (fun d => d.elim0) (fun d => d.elim0) memory
      rwa [mappedExtentMd_three, rshrinkTo_three, rshrinkTo_three] at fused
  | k + 3, dest, source, extents =>
      dsimp only
      split
      case isTrue contiguous =>
        obtain ⟨destContiguous, sourceContiguous⟩ := (Bool.and_eq_true _ _).mp contiguous
        exact Memcpy.fused_writes documented same destPitched sourcePitched apart positive
          (MdSpan.contiguous_of_isContiguous 1 destContiguous)
          (MdSpan.contiguous_of_isContiguous 1 sourceContiguous) memory
      case isFalse =>
        rw [rshrinkAt_getPitches, rshrinkAt_getPitches, rshrinkAt_slower]
        exact copies_outer_slices same rows apart
          (memcpy3D_copies documented (Sliced.of_pitched destPitched positive)
            (same ▸ Sliced.of_pitched sourcePitched positive) dest.data source.data _ _) memory

theorem Memset.op_writes {api : ApiInterface} (documented : api.Documented)
    {dest : MdSpan ℕ n} (byteValue : UInt8) {extents : Vec ℕ (n + 1)}
    (pitched : dest.Pitched extents) (memory : Bytes) :
    Writes dest extents (fun _ _ => byteValue) memory
      (Memset.op api dest byteValue extents memory) := by
  have rows : dest.RowsApart extents := MdSpan.rowsApart_of_nested pitched.nested
  unfold Memset.op
  by_cases empty : extents.product = 0
  · rw [if_pos empty]
    exact Writes.of_empty empty _ memory
  rw [if_neg empty]
  have positive := pos_of_product empty
  match n, dest, extents with
  | 0, dest, extents =>
      exact (Distributes.single extents.eraseBack ()).sets rows
        (fun _ _ => documented.memsetAsync dest.data byteValue _) memory
  | 1, dest, extents =>
      refine sets_fused rows positive (fun d => d.elim0)
        ((documented.memset2DAsync dest.data dest.getPitches.y byteValue _ _
          pitched.width).congr ?_ fun _ => rfl) memory
      rw [Fin.prod_univ_one]
      rfl
  | 2, dest, extents =>
      have fused := Memset.fused_writes (k := 0) documented byteValue pitched positive
        (fun d => d.elim0) memory
      rwa [mappedExtentMd_three, rshrinkTo_three] at fused
  | k + 3, dest, extents =>
      dsimp only
      split
      case isTrue contiguous =>
        exact Memset.fused_writes documented byteValue pitched positive
          (MdSpan.contiguous_of_isContiguous 1 contiguous) memory
      case isFalse =>
        rw [rshrinkAt_getPitches, rshrinkAt_slower]
        exact sets_outer_slices rows
          (memset3D_sets documented byteValue (Sliced.of_pitched pitched positive) dest.data _)
          memory

end UnifiedCudaHip

/-! ## SYCL -/

namespace SyclGeneric

/-- The calls of a queue that the extensions for pitched memory add. -/
structure SyclQueue where
  ext_oneapi_memcpy2d (dest destPitch src srcPitch width height : ℕ) : Bytes → Bytes
  ext_oneapi_memset2d (dest destPitch : ℕ) (value : UInt8) (width height : ℕ) : Bytes → Bytes

structure SyclQueue.Documented (sycl_queue : SyclQueue) : Prop where
  memcpy2d : ∀ dest destPitch src srcPitch width height, width ≤ destPitch → width ≤ srcPitch →
    Copies (Set.Iio height) (fun y => dest + y * destPitch) (fun y => src + y * srcPitch) width
      (sycl_queue.ext_oneapi_memcpy2d dest destPitch src srcPitch width height)
  memset2d : ∀ dest destPitch value width height, width ≤ destPitch →
    Sets (Set.Iio height) (fun y => dest + y * destPitch) width value
      (sycl_queue.ext_oneapi_memset2d dest destPitch value width height)

/-- The call for the last index is the one whose event is kept, otherwise all calls are
the same. -/
def Memcpy.memcopy2D (sycl_queue : SyclQueue) (sizeofValue : ℕ)
    (repetitions destPitchJump srcPitchJump : Vec ℕ m) (extentMd : Vec ℕ (k + 2)) (destPtr : ℕ)
    (destPitchesOriginal : Vec ℕ (k + 2)) (srcPtr : ℕ) (srcPitchesOriginal : Vec ℕ (k + 2)) :
    Bytes → Bytes :=
  ndLoopIncIdx repetitions fun idx => sycl_queue.ext_oneapi_memcpy2d
    (destPtr + ∑ d, idx d * destPitchJump d) destPitchesOriginal.y
    (srcPtr + ∑ d, idx d * srcPitchJump d) srcPitchesOriginal.y (extentMd.x * sizeofValue)
    extentMd.y

def Memset.memset2D (sycl_queue : SyclQueue) (sizeofValue : ℕ) (byteValue : UInt8)
    (repetitions destPitchJump : Vec ℕ m) (extentMd : Vec ℕ (k + 2)) (destPtr : ℕ)
    (destPitchesOriginal : Vec ℕ (k + 2)) : Bytes → Bytes :=
  ndLoopIncIdx repetitions fun idx => sycl_queue.ext_oneapi_memset2d
    (destPtr + ∑ d, idx d * destPitchJump d) destPitchesOriginal.y byteValue
    (extentMd.x * sizeofValue) extentMd.y

/-- The extents of a call that takes all dimensions but the fastest as one. -/
def mappedExtentMd (extentMd : Vec ℕ (k + 2)) : Vec ℕ 2 :=
  Function.update (extentMd.rshrinkTo 2) 0 (Vec.product extentMd.eraseBack)

def Memcpy.op (sycl_queue : SyclQueue) {n : ℕ} (dest source : MdSpan ℕ (n + 1))
    (extentMd : Vec ℕ (n + 2)) (memory : Bytes) : Bytes :=
  if extentMd.product = 0 then memory
  else
    match n, dest, source, extentMd with
    | 0, dest, source, extentMd =>
        sycl_queue.ext_oneapi_memcpy2d dest.data dest.getPitches.y source.data source.getPitches.y
          (extentMd.x * dest.sizeofValue) extentMd.y memory
    | k + 1, dest, source, extentMd =>
        let destPitch : Vec ℕ (k + 1 + 2) := dest.getPitches
        let srcPitch : Vec ℕ (k + 1 + 2) := source.getPitches
        if isContiguous 1 extentMd destPitch && isContiguous 1 extentMd srcPitch then
          memcopy2D sycl_queue dest.sizeofValue (Vec.fill 1 : Vec ℕ 2) (Vec.fill 0) (Vec.fill 0)
            (mappedExtentMd extentMd) dest.data (destPitch.rshrinkTo 2) source.data
            (srcPitch.rshrinkTo 2) memory
        else
          memcopy2D sycl_queue dest.sizeofValue
            ((extentMd : Vec ℕ (k + 1 + 2)).rshrinkAt (k + 1) k) (destPitch.rshrinkAt (k + 1) k)
            (srcPitch.rshrinkAt (k + 1) k) extentMd dest.data destPitch source.data srcPitch memory

def Memset.op (sycl_queue : SyclQueue) {n : ℕ} (dest : MdSpan ℕ (n + 1)) (byteValue : UInt8)
    (extentMd : Vec ℕ (n + 2)) (memory : Bytes) : Bytes :=
  if extentMd.product = 0 then memory
  else
    match n, dest, extentMd with
    | 0, dest, extentMd =>
        sycl_queue.ext_oneapi_memset2d dest.data dest.getPitches.y byteValue
          (extentMd.x * dest.sizeofValue) extentMd.y memory
    | k + 1, dest, extentMd =>
        let destPitch : Vec ℕ (k + 1 + 2) := dest.getPitches
        if isContiguous 1 extentMd destPitch then
          memset2D sycl_queue dest.sizeofValue byteValue (Vec.fill 1 : Vec ℕ 2) (Vec.fill 0)
            (mappedExtentMd extentMd) dest.data (destPitch.rshrinkTo 2) memory
        else
          memset2D sycl_queue dest.sizeofValue byteValue
            ((extentMd : Vec ℕ (k + 1 + 2)).rshrinkAt (k + 1) k) (destPitch.rshrinkAt (k + 1) k)
            extentMd dest.data destPitch memory

private theorem mappedExtentMd_y (extents : Vec ℕ (k + 2)) :
    (mappedExtentMd extents).y = ∏ d, extents.eraseBack d := by
  rw [← Vec.product_eq_prod]
  exact Function.update_self (0 : Fin 2) _ (extents.rshrinkTo 2)

private theorem rshrinkAt_slower (v : Vec ℕ (k + 1 + 2)) :
    v.rshrinkAt (k + 1) k = v.eraseBack.eraseBack :=
  Vec.rshrinkAt_first v

/-- The pitches of the dimensions that are slower than a row. -/
private theorem rshrinkAt_getPitches (span : MdSpan ℕ (k + 2)) :
    (span.getPitches : Vec ℕ (k + 1 + 2)).rshrinkAt (k + 1) k = span.pitch.eraseBack :=
  (rshrinkAt_slower _).trans (congrArg Vec.eraseBack span.eraseBack_getPitches)

theorem Memcpy.op_writes {sycl_queue : SyclQueue} (documented : sycl_queue.Documented)
    {dest source : MdSpan ℕ (n + 1)} {extents : Vec ℕ (n + 2)}
    (same : source.sizeofValue = dest.sizeofValue) (destPitched : dest.Pitched extents)
    (sourcePitched : source.Pitched extents) (apart : dest.Apart source extents)
    (memory : Bytes) :
    Writes dest extents (fun idx byte => memory (source.ptr id idx + byte)) memory
      (Memcpy.op sycl_queue dest source extents memory) := by
  have rows : dest.RowsApart extents := MdSpan.rowsApart_of_nested destPitched.nested
  have widthSource : extents.x * dest.sizeofValue ≤ source.getPitches.y :=
    same ▸ sourcePitched.width
  unfold Memcpy.op
  by_cases empty : extents.product = 0
  · rw [if_pos empty]
    exact Writes.of_empty empty _ memory
  rw [if_neg empty]
  have positive := pos_of_product empty
  match n, dest, source, extents with
  | 0, dest, source, extents =>
      refine copies_fused same rows apart positive (fun d => d.elim0) (fun d => d.elim0)
        ((documented.memcpy2d dest.data dest.getPitches.y source.data source.getPitches.y _ _
          destPitched.width widthSource).congr ?_ (fun _ => rfl) fun _ => rfl) memory
      rw [Fin.prod_univ_one]
      rfl
  | k + 1, dest, source, extents =>
      dsimp only
      split
      case isTrue contiguous =>
        obtain ⟨destContiguous, sourceContiguous⟩ := (Bool.and_eq_true _ _).mp contiguous
        unfold memcopy2D
        rw [once_eq]
        refine copies_fused same rows apart positive
          (MdSpan.contiguous_of_isContiguous 0 destContiguous)
          (MdSpan.contiguous_of_isContiguous 0 sourceContiguous)
          ((documented.memcpy2d _ _ _ _ _ _ destPitched.width widthSource).congr ?_
            (fun y => ?_) fun y => ?_) memory
        · rw [mappedExtentMd_y]
        · exact congrArg (fun origin => dest.data + origin + y * dest.getPitches.y)
            (offset_fill_zero (Vec.fill 0 : Vec ℕ 2))
        · exact congrArg (fun origin => source.data + origin + y * source.getPitches.y)
            (offset_fill_zero (Vec.fill 0 : Vec ℕ 2))
      case isFalse =>
        rw [rshrinkAt_getPitches, rshrinkAt_getPitches, rshrinkAt_slower]
        refine copies_outer same rows apart (fun idx => ?_) memory
        exact (documented.memcpy2d _ _ _ _ _ _ destPitched.width widthSource).congr rfl
          (fun y => Nat.add_assoc _ _ _) fun y => Nat.add_assoc _ _ _

theorem Memset.op_writes {sycl_queue : SyclQueue} (documented : sycl_queue.Documented)
    {dest : MdSpan ℕ (n + 1)} (byteValue : UInt8) {extents : Vec ℕ (n + 2)}
    (pitched : dest.Pitched extents) (memory : Bytes) :
    Writes dest extents (fun _ _ => byteValue) memory
      (Memset.op sycl_queue dest byteValue extents memory) := by
  have rows : dest.RowsApart extents := MdSpan.rowsApart_of_nested pitched.nested
  unfold Memset.op
  by_cases empty : extents.product = 0
  · rw [if_pos empty]
    exact Writes.of_empty empty _ memory
  rw [if_neg empty]
  have positive := pos_of_product empty
  match n, dest, extents with
  | 0, dest, extents =>
      refine sets_fused rows positive (fun d => d.elim0)
        ((documented.memset2d dest.data dest.getPitches.y byteValue _ _
          pitched.width).congr ?_ fun _ => rfl) memory
      rw [Fin.prod_univ_one]
      rfl
  | k + 1, dest, extents =>
      dsimp only
      split
      case isTrue contiguous =>
        unfold memset2D
        rw [once_eq]
        refine sets_fused rows positive (MdSpan.contiguous_of_isContiguous 0 contiguous)
          ((documented.memset2d _ _ byteValue _ _ pitched.width).congr ?_ fun y => ?_) memory
        · rw [mappedExtentMd_y]
        · exact congrArg (fun origin => dest.data + origin + y * dest.getPitches.y)
            (offset_fill_zero (Vec.fill 0 : Vec ℕ 2))
      case isFalse =>
        rw [rshrinkAt_getPitches, rshrinkAt_slower]
        refine sets_outer rows (fun idx => ?_) memory
        exact (documented.memset2d _ _ byteValue _ _ pitched.width).congr rfl
          fun y => Nat.add_assoc _ _ _

end SyclGeneric

/-! ## The same as on the host -/

/-- An operation copies boxes as the host's queue does: exactly the bytes of the elements,
whatever the extents and the pitches. -/
def CopiesLikeHost (op : MdSpan ℕ n → MdSpan ℕ n → Vec ℕ (n + 1) → Bytes → Bytes) : Prop :=
  ∀ (dest source : MdSpan ℕ n) (extents : Vec ℕ (n + 1)) (memory : Bytes),
    source.sizeofValue = dest.sizeofValue → dest.Pitched extents → source.Pitched extents →
    dest.Apart source extents →
    op dest source extents memory = Memcpy.op dest source extents memory ∧
      Writes dest extents (fun idx byte => memory (source.ptr id idx + byte)) memory
        (op dest source extents memory)

/-- An operation sets boxes as the host's queue does. -/
def SetsLikeHost (op : MdSpan ℕ n → UInt8 → Vec ℕ (n + 1) → Bytes → Bytes) : Prop :=
  ∀ (dest : MdSpan ℕ n) (byteValue : UInt8) (extents : Vec ℕ (n + 1)) (memory : Bytes),
    dest.Pitched extents →
    op dest byteValue extents memory = Memset.op dest byteValue extents memory ∧
      Writes dest extents (fun _ _ => byteValue) memory (op dest byteValue extents memory)

private theorem copiesLikeHost {op : MdSpan ℕ n → MdSpan ℕ n → Vec ℕ (n + 1) → Bytes → Bytes}
    (writes : ∀ {dest source : MdSpan ℕ n} {extents : Vec ℕ (n + 1)},
      source.sizeofValue = dest.sizeofValue → dest.Pitched extents → source.Pitched extents →
      dest.Apart source extents → ∀ memory,
      Writes dest extents (fun idx byte => memory (source.ptr id idx + byte)) memory
        (op dest source extents memory)) : CopiesLikeHost op := by
  intro dest source extents memory same destPitched sourcePitched apart
  have device := writes same destPitched sourcePitched apart memory
  have host := Memcpy.op_writes same (MdSpan.rowsApart_of_nested destPitched.nested) apart memory
  exact ⟨device.unique host, device⟩

private theorem setsLikeHost {op : MdSpan ℕ n → UInt8 → Vec ℕ (n + 1) → Bytes → Bytes}
    (writes : ∀ {dest : MdSpan ℕ n} (byteValue : UInt8) {extents : Vec ℕ (n + 1)},
      dest.Pitched extents → ∀ memory,
      Writes dest extents (fun _ _ => byteValue) memory (op dest byteValue extents memory)) :
    SetsLikeHost op := by
  intro dest byteValue extents memory pitched
  have device := writes byteValue pitched memory
  have host := Memset.op_writes byteValue (MdSpan.rowsApart_of_nested pitched.nested) memory
  exact ⟨device.unique host, device⟩

/-- **Devices.** Boxes are copied and set as on the host, with CUDA or HIP in any dimension
and with SYCL in two or more. -/
theorem device_boxes :
    (∀ api : UnifiedCudaHip.ApiInterface, api.Documented → ∀ n : ℕ,
      CopiesLikeHost (n := n) (UnifiedCudaHip.Memcpy.op api) ∧
        SetsLikeHost (n := n) (UnifiedCudaHip.Memset.op api)) ∧
    ∀ sycl_queue : SyclGeneric.SyclQueue, sycl_queue.Documented → ∀ n : ℕ,
      CopiesLikeHost (n := n + 1) (SyclGeneric.Memcpy.op sycl_queue) ∧
        SetsLikeHost (n := n + 1) (SyclGeneric.Memset.op sycl_queue) :=
  ⟨fun _ documented _ => ⟨copiesLikeHost (UnifiedCudaHip.Memcpy.op_writes documented),
      setsLikeHost (UnifiedCudaHip.Memset.op_writes documented)⟩,
    fun _ documented _ => ⟨copiesLikeHost (SyclGeneric.Memcpy.op_writes documented),
      setsLikeHost (SyclGeneric.Memset.op_writes documented)⟩⟩

/-! ### Calls that do what is documented -/

section RowLoops

variable {Label : Type}

def copyRows (labels : List Label) (destRow sourceRow : Label → ℕ) (width : ℕ)
    (memory : Bytes) : Bytes :=
  labels.foldl (fun memory label => memcpy (destRow label) (sourceRow label) width memory) memory

def setRows (labels : List Label) (destRow : Label → ℕ) (width : ℕ) (byteValue : UInt8)
    (memory : Bytes) : Bytes :=
  labels.foldl (fun memory label => memset (destRow label) byteValue width memory) memory

/-- Rows that do not overlap. -/
def Separate (labels : List Label) (row : Label → ℕ) (width : ℕ) : Prop :=
  ∀ first ∈ labels, ∀ second ∈ labels, first ≠ second →
    row first + width ≤ row second ∨ row second + width ≤ row first

variable {labels : List Label} {destRow : Label → ℕ} {width : ℕ}

private theorem copyRows_copies (distinct : labels.Nodup)
    (separate : Separate labels destRow width) (sourceRow : Label → ℕ) :
    Copies {label | label ∈ labels} destRow sourceRow width
      (copyRows labels destRow sourceRow width) := fun unread memory =>
  foldl_assigns (fun label => {x | ∃ i < width, x = sourceRow label + i}) distinct
    (fun label _ memory => memcpy_assigns (destRow label) (sourceRow label) width memory)
    (fun _ _ _ _ agree i below => agree _ ⟨i, below, rfl⟩)
    (fun _ _ => Set.disjoint_empty _) (fun _ _ _ _ => Set.notMem_empty _)
    (fun first member second member' different i below =>
      ⟨fun ⟨j, below', same⟩ => unread first member second member' i below j below' same,
        fun j below' => by
          have inRow : i < width := below
          have inRow' : j < width := below'
          have rows := separate first member second member' different
          omega⟩) memory

private theorem setRows_sets (distinct : labels.Nodup)
    (separate : Separate labels destRow width) (byteValue : UInt8) :
    Sets {label | label ∈ labels} destRow width byteValue
      (setRows labels destRow width byteValue) := fun memory =>
  foldl_assigns (fun _ => ∅) distinct
    (fun label _ memory => memset_assigns (destRow label) byteValue width memory)
    (fun _ _ _ _ _ _ _ => rfl) (fun _ _ => Set.disjoint_empty _)
    (fun _ _ _ _ => Set.notMem_empty _)
    (fun first member second member' different i below => ⟨Set.notMem_empty _,
      fun j below' => by
        have inRow : i < width := below
        have inRow' : j < width := below'
        have rows := separate first member second member' different
        omega⟩) memory

/-- Rows at a distance that has room for them. -/
private theorem separate_range (dest : ℕ) {pitch width : ℕ} (room : width ≤ pitch) (height : ℕ) :
    Separate (List.range height) (fun y => dest + y * pitch) width := by
  have behind {first second : ℕ} (below : first < second) :
      dest + first * pitch + width ≤ dest + second * pitch := by
    have := Nat.mul_le_mul_right pitch (Nat.succ_le_of_lt below)
    rw [Nat.succ_mul] at this
    omega
  intro first _ second _ different
  exact (Nat.lt_or_gt_of_ne different).imp behind behind

/-- Rows of slices that have room for them. -/
private theorem separate_slices (dest : UnifiedCudaHip.PitchedPtr) {width height : ℕ}
    (room : width ≤ dest.pitch) (inSlice : height ≤ dest.ysize) (depth : ℕ) :
    Separate (List.range depth ×ˢ List.range height) dest.row width := by
  have number (label : ℕ × ℕ) :
      dest.row label = dest.ptr + (label.1 * dest.ysize + label.2) * dest.pitch := by
    unfold UnifiedCudaHip.PitchedPtr.row
    rw [Nat.add_mul, Nat.mul_assoc]
  have below {label : ℕ × ℕ} (member : label ∈ List.range depth ×ˢ List.range height) :
      label.2 < dest.ysize :=
    (List.mem_range.mp (List.mem_product.mp member).2).trans_le inSlice
  intro first member second member' different
  have numbers : first.1 * dest.ysize + first.2 ≠ second.1 * dest.ysize + second.2 := fun same => by
    have rows := congrArg (· % dest.ysize) same
    have slices := congrArg (· / dest.ysize) same
    have positive : 0 < dest.ysize := Nat.zero_lt_of_lt (below member)
    simp only [Nat.mul_comm _ dest.ysize, Nat.mul_add_mod, Nat.mul_add_div positive,
      Nat.mod_eq_of_lt (below member), Nat.mod_eq_of_lt (below member'),
      Nat.div_eq_of_lt (below member), Nat.div_eq_of_lt (below member')] at rows slices
    exact different (Prod.ext slices rows)
  have apart := separate_range dest.ptr room
    (max (first.1 * dest.ysize + first.2) (second.1 * dest.ysize + second.2) + 1) _
    (List.mem_range.mpr (Nat.lt_succ_of_le (Nat.le_max_left _ _))) _
    (List.mem_range.mpr (Nat.lt_succ_of_le (Nat.le_max_right _ _))) numbers
  rw [number, number]
  exact apart

end RowLoops

private theorem setOf_mem_range (height : ℕ) : {y | y ∈ List.range height} = Set.Iio height :=
  Set.ext fun _ => List.mem_range

private theorem setOf_mem_slices (extent : UnifiedCudaHip.Extent) :
    {label | label ∈ List.range extent.depth ×ˢ List.range extent.height} = extent.rows :=
  Set.ext fun _ => List.mem_product.trans (and_congr List.mem_range List.mem_range)

/-- Calls of CUDA and HIP that go row by row. -/
def UnifiedCudaHip.rowLoops : ApiInterface where
  memcpyAsync := memcpy
  memcpy2DAsync dst dpitch src spitch width height :=
    copyRows (List.range height) (fun y => dst + y * dpitch) (fun y => src + y * spitch) width
  memcpy3DAsync parms := copyRows
    (List.range parms.extent.depth ×ˢ List.range parms.extent.height) parms.dstPtr.row
    parms.srcPtr.row parms.extent.width
  memsetAsync := memset
  memset2DAsync dst pitch value width height :=
    setRows (List.range height) (fun y => dst + y * pitch) width value
  memset3DAsync pitchedPtr value extent := setRows
    (List.range extent.depth ×ˢ List.range extent.height) pitchedPtr.row extent.width value

private theorem UnifiedCudaHip.rowLoops_documented : rowLoops.Documented where
  memcpyAsync := memcpy_copies
  memcpy2DAsync := fun dst _ _ _ _ height room _ =>
    (copyRows_copies List.nodup_range (separate_range dst room height) _).congr
      (setOf_mem_range height) (fun _ => rfl) fun _ => rfl
  memcpy3DAsync := fun parms room _ inSlice _ =>
    (copyRows_copies (List.nodup_range.product List.nodup_range)
      (separate_slices parms.dstPtr room inSlice _) _).congr (setOf_mem_slices parms.extent)
      (fun _ => rfl) fun _ => rfl
  memsetAsync := memset_sets
  memset2DAsync := fun dst _ value _ height room =>
    (setRows_sets List.nodup_range (separate_range dst room height) value).congr
      (setOf_mem_range height) fun _ => rfl
  memset3DAsync := fun pitchedPtr value extent room inSlice =>
    (setRows_sets (List.nodup_range.product List.nodup_range)
      (separate_slices pitchedPtr room inSlice _) value).congr (setOf_mem_slices extent)
      fun _ => rfl

/-- Calls of a SYCL queue that go row by row. -/
def SyclGeneric.rowLoops : SyclQueue where
  ext_oneapi_memcpy2d := UnifiedCudaHip.rowLoops.memcpy2DAsync
  ext_oneapi_memset2d := UnifiedCudaHip.rowLoops.memset2DAsync

private theorem SyclGeneric.rowLoops_documented : rowLoops.Documented where
  memcpy2d := UnifiedCudaHip.rowLoops_documented.memcpy2DAsync
  memset2d := UnifiedCudaHip.rowLoops_documented.memset2DAsync

/-- A part of a padded volume in four dimensions, from dense data behind it: the slices of
the source follow each other without a gap, those of the destination do not. -/
theorem device_boxes_padded :
    let dest : MdSpan ℕ 3 := ⟨0, 4, ![2, 2, 2, 3], ![96, 32, 16]⟩
    let source : MdSpan ℕ 3 := ⟨1000, 4, ![2, 2, 2, 3], ![48, 24, 12]⟩
    let memory : Bytes := fun address => UInt8.ofNat address
    UnifiedCudaHip.Memcpy.op UnifiedCudaHip.rowLoops dest source ![2, 2, 2, 3] memory =
        Memcpy.op dest source ![2, 2, 2, 3] memory ∧
      SyclGeneric.Memcpy.op SyclGeneric.rowLoops dest source ![2, 2, 2, 3] memory =
        Memcpy.op dest source ![2, 2, 2, 3] memory := by
  intro dest source memory
  have destNested : Nested ![2, 2, 2, 3] dest.getPitches := by decide
  have sourceNested : Nested ![2, 2, 2, 3] source.getPitches := by decide
  have destPitched : dest.Pitched ![2, 2, 2, 3] := ⟨by decide, destNested, by decide⟩
  have sourcePitched : source.Pitched ![2, 2, 2, 3] := ⟨by decide, sourceNested, by decide⟩
  have apart : dest.Apart source ![2, 2, 2, 3] := by
    intro first second inside inside' byte below byte' below' same
    have before := MdSpan.ptr_add_le destNested inside
    have behind : 1000 ≤ source.ptr id second := Nat.le_add_right _ _
    have size : dest.data + ![2, 2, 2, 3] 0 * dest.getPitches 0 = 192 := rfl
    have width : dest.sizeofValue = 4 := rfl
    omega
  exact ⟨((device_boxes.1 _ UnifiedCudaHip.rowLoops_documented 3).1 dest source _ memory rfl
      destPitched sourcePitched apart).1,
    ((device_boxes.2 _ SyclGeneric.rowLoops_documented 2).1 dest source _ memory rfl destPitched
      sourcePitched apart).1⟩

end Alpaka
