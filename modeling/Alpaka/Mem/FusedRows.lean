import Alpaka.Mem.RowWrites

/-! # Rows in a pattern

A call of a device's vendor writes rows at a constant distance, or slices of such rows.
The rows of a box are distributed over one call when the slower dimensions follow each
other without a gap (`Alpaka.Distributes.fused`), and otherwise over a call for every
index of the slower dimensions (`Alpaka.Distributes.outer`).
-/

namespace Alpaka

open Math.MixedRadix (place)
open Math.Strides (Nested offset offset_last offset_contiguous)

variable {T : Type} {n k : ℕ}

/-! ## Components -/

namespace Vec

def x (v : Vec T (n + 1)) : T := v.back

def y (v : Vec T (n + 2)) : T := v.eraseBack.back

def z (v : Vec T (n + 3)) : T := v.eraseBack.eraseBack.back

/-- As many components, the last of them the one at the given index; further to the
front it goes on from the back. -/
def rshrinkAt {dim : ℕ} [NeZero dim] (numElements startIdx : ℕ) (v : Vec T dim) :
    Vec T numElements :=
  fun i => v (Fin.ofNat dim (dim + startIdx - (numElements - 1 - i)))

/-- The last components. -/
def rshrinkTo {dim : ℕ} (numElements : ℕ) (v : Vec T (dim + numElements)) : Vec T numElements :=
  fun i => v (Fin.natAdd dim i)

/-- The first components. -/
theorem rshrinkAt_first (v : Vec T (k + 1 + n)) :
    v.rshrinkAt (k + 1) k = fun i => v (i.castAdd n) := by
  funext i
  refine congrArg v (Fin.ext ?_)
  have index : k + 1 + n + k - (k + 1 - 1 - i) = k + 1 + n + i := by omega
  have inside : (i : ℕ) < k + 1 + n := by omega
  calc (k + 1 + n + k - (k + 1 - 1 - i)) % (k + 1 + n) = (k + 1 + n + i) % (k + 1 + n) := by
        rw [index]
    _ = i := by rw [Nat.add_mod_left, Nat.mod_eq_of_lt inside]

end Vec

/-- Whether the dimensions but the fastest ones follow each other without a gap: the
loop runs over all of them but the slowest. -/
def isContiguous (fastest : ℕ) (extentMd pitch : Vec ℕ (n + 1 + fastest)) : Bool :=
  (List.finRange n).reverse.all fun d =>
    extentMd (d.succ.castAdd fastest) * pitch (d.succ.castAdd fastest) ==
      pitch (d.castSucc.castAdd fastest)

private theorem isContiguous_iff {fastest : ℕ} {extentMd pitch : Vec ℕ (n + 1 + fastest)} :
    isContiguous fastest extentMd pitch = true ↔ ∀ d : Fin n,
      extentMd (d.succ.castAdd fastest) * pitch (d.succ.castAdd fastest) =
        pitch (d.castSucc.castAdd fastest) := by
  unfold isContiguous
  simp only [List.all_reverse, List.all_eq_true, List.mem_finRange, true_imp_iff, beq_iff_eq]

theorem ndIdxs_one : ndIdxs (Vec.fill 1 : Vec ℕ n) = [Vec.fill 0] := by
  have origin (idx : Vec ℕ n) (member : idx ∈ ndIdxs (Vec.fill 1 : Vec ℕ n)) : idx = Vec.fill 0 :=
    funext fun d => Nat.lt_one_iff.mp (mem_ndIdxs.mp member d)
  have distinct := nodup_ndIdxs (Vec.fill 1 : Vec ℕ n)
  have present : Vec.fill 0 ∈ ndIdxs (Vec.fill 1 : Vec ℕ n) := mem_ndIdxs.mpr fun _ => Nat.one_pos
  match equation : ndIdxs (Vec.fill 1 : Vec ℕ n) with
  | [] =>
      rw [equation] at present
      cases present
  | [idx] => rw [origin idx (equation ▸ List.mem_singleton_self idx)]
  | first :: second :: rest =>
      rw [equation] at origin distinct
      have same : first = second := (origin first List.mem_cons_self).trans
        (origin second (List.mem_cons_of_mem _ List.mem_cons_self)).symm
      exact absurd (same ▸ List.mem_cons_self) (List.nodup_cons.mp distinct).1

/-! ## Distributions -/

namespace Distributes

variable {Call Label : Type} {box : Vec ℕ (n + 1)} {calls : List Call} {labels : Set Label}

/-- One call for the only row. -/
theorem single (box : Vec ℕ 0) (call : Call) :
    Distributes box [call] (Set.univ : Set Unit) (fun _ _ => Fin.elim0) where
  distinct := List.nodup_singleton call
  inside := fun _ _ _ _ d => d.elim0
  onto := fun _ _ => ⟨call, List.mem_singleton_self call, (), Set.mem_univ _,
    Subsingleton.elim _ _⟩
  apart := fun _ member _ member' different =>
    absurd ((List.mem_singleton.mp member).trans (List.mem_singleton.mp member').symm) different

/-- One call for all rows. -/
theorem fused (box : Vec ℕ (n + 1)) (call : Call) :
    Distributes box [call] (Set.Iio (∏ d, box d)) (fun _ => place box) where
  distinct := List.nodup_singleton call
  inside := fun _ _ _ below d => Math.MixedRadix.place_lt_of_lt below d
  onto := fun row inside => ⟨call, List.mem_singleton_self call, Math.MixedRadix.value box row,
    Math.MixedRadix.value_lt inside, Math.MixedRadix.place_value fun d _ => inside d⟩
  apart := fun _ member _ member' different =>
    absurd ((List.mem_singleton.mp member).trans (List.mem_singleton.mp member').symm) different

/-- A call for every index of the slower dimensions. -/
theorem outer (box : Vec ℕ (n + 1)) :
    Distributes box (ndIdxs box.eraseBack) (Set.Iio box.back)
      (fun idx y => (Fin.snoc idx y : Vec ℕ (n + 1))) where
  distinct := nodup_ndIdxs _
  inside := fun idx member y below d => by
    cases d using Fin.lastCases with
    | last =>
        rw [Fin.snoc_last]
        exact below
    | cast d =>
        rw [Fin.snoc_castSucc]
        exact mem_ndIdxs.mp member d
  onto := fun row inside => ⟨row.eraseBack, mem_ndIdxs.mpr fun d => inside d.castSucc, row.back,
    inside (Fin.last n), Fin.snoc_init_self row⟩
  apart := fun _ _ _ _ different _ _ _ _ same => different (Fin.snoc_injective2 same).1

/-- Slices of rows. -/
theorem snoc {rowOf : Call → Label → Vec ℕ n}
    (distributes : Distributes box.eraseBack calls labels rowOf) :
    Distributes box calls {label : Label × ℕ | label.1 ∈ labels ∧ label.2 < box.back}
      (fun call label => (Fin.snoc (rowOf call label.1) label.2 : Vec ℕ (n + 1))) where
  distinct := distributes.distinct
  inside := fun call member label labelled d => by
    cases d using Fin.lastCases with
    | last =>
        rw [Fin.snoc_last]
        exact labelled.2
    | cast d =>
        rw [Fin.snoc_castSucc]
        exact distributes.inside call member label.1 labelled.1 d
  onto := fun row inside => by
    obtain ⟨call, member, label, labelled, same⟩ :=
      distributes.onto row.eraseBack fun d => inside d.castSucc
    refine ⟨call, member, (label, row.back), ⟨labelled, inside (Fin.last n)⟩, ?_⟩
    rw [same]
    exact Fin.snoc_init_self row
  apart := fun call member other member' different label labelled label' labelled' same =>
    distributes.apart call member other member' different label.1 labelled.1 label'.1 labelled'.1
      (Fin.snoc_injective2 same).1

end Distributes

/-! ## Where the rows are -/

/-- Pitches as an allocation has them, and a part of it. -/
structure MdSpan.Pitched (span : MdSpan ℕ n) (extents : Vec ℕ (n + 1)) : Prop where
  sizeofValue_pos : 0 < span.sizeofValue
  nested : Nested extents span.getPitches
  divides : ∀ slower faster : Fin n, slower ≤ faster → span.pitch faster ∣ span.pitch slower

/-- A row pitch has room for a row … -/
theorem MdSpan.Pitched.width {span : MdSpan ℕ (k + 1)} {extents : Vec ℕ (k + 2)}
    (pitched : span.Pitched extents) :
    extents.x * span.sizeofValue ≤ span.getPitches.y := by
  have room := pitched.nested (Fin.last k)
  rw [Fin.succ_last, show span.getPitches (Fin.last (k + 1)) = span.sizeofValue from
    Fin.snoc_last _ _] at room
  exact room

/-- … and a slice pitch for a slice. -/
theorem MdSpan.Pitched.slice {span : MdSpan ℕ (k + 2)} {extents : Vec ℕ (k + 3)}
    (pitched : span.Pitched extents) : extents.y * span.getPitches.y ≤ span.getPitches.z :=
  pitched.nested (Fin.last k).castSucc

private theorem MdSpan.row_snoc (span : MdSpan ℕ (n + 1)) (idx : Vec ℕ n) (y : ℕ) :
    span.row (Fin.snoc idx y : Vec ℕ (n + 1)) =
      span.data + (offset span.pitch.eraseBack idx + y * span.pitch.back) := by
  unfold row
  rw [offset_last, Fin.init_snoc, Fin.snoc_last]
  rfl

/-- The rows of dimensions without gaps are a row pitch apart. -/
theorem offset_place {box pitch : Vec ℕ (n + 1)} (positive : ∀ d, 0 < box d)
    (contiguous : ∀ d : Fin n, box d.succ * pitch d.succ = pitch d.castSucc) (number : ℕ) :
    offset pitch (place box number) = number * pitch.back := by
  rw [offset_contiguous contiguous, Math.MixedRadix.value_place fun d _ => positive d]
  rfl

/-- Whether there are gaps, for the pitches of a view. -/
theorem MdSpan.contiguous_of_isContiguous (fastest : ℕ) {span : MdSpan ℕ (n + 1 + fastest)}
    {extents : Vec ℕ (n + 1 + fastest + 1)}
    (contiguous : isContiguous (fastest + 1) extents span.getPitches = true) (d : Fin n) :
    extents (d.succ.castAdd (fastest + 1)) * span.pitch (d.succ.castAdd fastest) =
      span.pitch (d.castSucc.castAdd fastest) := by
  have gapless := isContiguous_iff.mp contiguous d
  have pitches (i : Fin (n + 1)) :
      span.getPitches (i.castAdd (fastest + 1)) = span.pitch (i.castAdd fastest) :=
    congrFun span.eraseBack_getPitches (i.castAdd fastest)
  rwa [pitches, pitches] at gapless

theorem MdSpan.y_getPitches (span : MdSpan ℕ (n + 1)) : span.getPitches.y = span.pitch.back :=
  congrArg Vec.back span.eraseBack_getPitches

theorem MdSpan.z_getPitches (span : MdSpan ℕ (n + 2)) :
    span.getPitches.z = span.pitch.eraseBack.back :=
  congrArg (fun pitch => Vec.back (Vec.eraseBack pitch)) span.eraseBack_getPitches

/-! ## Rows with one distance -/

section Rows

variable {dest source : MdSpan ℕ (n + 1)} {extents : Vec ℕ (n + 2)}

private theorem row_place {span : MdSpan ℕ (n + 1)} (positive : ∀ d, 0 < extents d)
    (contiguous : ∀ d : Fin n, extents.eraseBack d.succ * span.pitch d.succ = span.pitch d.castSucc)
    (y : ℕ) : span.row (place extents.eraseBack y) = span.data + y * span.getPitches.y := by
  have inBox (d : Fin (n + 1)) : 0 < extents.eraseBack d := positive d.castSucc
  unfold MdSpan.row
  rw [offset_place inBox contiguous, span.y_getPitches]

/-- One call for a box whose slower dimensions have no gaps. -/
theorem copies_fused (same : source.sizeofValue = dest.sizeofValue) (rows : dest.RowsApart extents)
    (apart : dest.Apart source extents) (positive : ∀ d, 0 < extents d)
    (destContiguous : ∀ d : Fin n,
      extents.eraseBack d.succ * dest.pitch d.succ = dest.pitch d.castSucc)
    (sourceContiguous : ∀ d : Fin n,
      extents.eraseBack d.succ * source.pitch d.succ = source.pitch d.castSucc)
    {act : Bytes → Bytes}
    (copies : Copies (Set.Iio (∏ d, extents.eraseBack d))
      (fun y => dest.data + y * dest.getPitches.y) (fun y => source.data + y * source.getPitches.y)
      (extents.x * dest.sizeofValue) act) (memory : Bytes) :
    Writes dest extents (fun idx byte => memory (source.ptr id idx + byte)) memory (act memory) :=
  (Distributes.fused extents.eraseBack ()).copies same rows apart
    (fun _ _ => copies.congr rfl (fun y => (row_place positive destContiguous y).symm)
      fun y => (row_place positive sourceContiguous y).symm) memory

theorem sets_fused (rows : dest.RowsApart extents) (positive : ∀ d, 0 < extents d)
    (contiguous : ∀ d : Fin n, extents.eraseBack d.succ * dest.pitch d.succ = dest.pitch d.castSucc)
    {byteValue : UInt8} {act : Bytes → Bytes}
    (sets : Sets (Set.Iio (∏ d, extents.eraseBack d)) (fun y => dest.data + y * dest.getPitches.y)
      (extents.x * dest.sizeofValue) byteValue act) (memory : Bytes) :
    Writes dest extents (fun _ _ => byteValue) memory (act memory) :=
  (Distributes.fused extents.eraseBack ()).sets rows
    (fun _ _ => sets.congr rfl fun y => (row_place positive contiguous y).symm) memory

/-- A call for every index of the dimensions that are slower than a row. -/
theorem copies_outer (same : source.sizeofValue = dest.sizeofValue)
    (rows : dest.RowsApart extents) (apart : dest.Apart source extents)
    {act : Vec ℕ n → Bytes → Bytes}
    (copies : ∀ idx, Copies (Set.Iio extents.y)
      (fun y => dest.data + (offset dest.pitch.eraseBack idx + y * dest.getPitches.y))
      (fun y => source.data + (offset source.pitch.eraseBack idx + y * source.getPitches.y))
      (extents.x * dest.sizeofValue) (act idx)) (memory : Bytes) :
    Writes dest extents (fun idx byte => memory (source.ptr id idx + byte)) memory
      (ndLoopIncIdx extents.eraseBack.eraseBack act memory) := by
  rw [ndLoopIncIdx_eq]
  exact (Distributes.outer extents.eraseBack).copies same rows apart
    (fun idx _ => (copies idx).congr rfl
      (fun y => by rw [dest.row_snoc, dest.y_getPitches])
      fun y => by rw [source.row_snoc, source.y_getPitches]) memory

theorem sets_outer (rows : dest.RowsApart extents) {byteValue : UInt8}
    {act : Vec ℕ n → Bytes → Bytes}
    (sets : ∀ idx, Sets (Set.Iio extents.y)
      (fun y => dest.data + (offset dest.pitch.eraseBack idx + y * dest.getPitches.y))
      (extents.x * dest.sizeofValue) byteValue (act idx)) (memory : Bytes) :
    Writes dest extents (fun _ _ => byteValue) memory
      (ndLoopIncIdx extents.eraseBack.eraseBack act memory) := by
  rw [ndLoopIncIdx_eq]
  exact (Distributes.outer extents.eraseBack).sets rows
    (fun idx _ => (sets idx).congr rfl fun y => by rw [dest.row_snoc, dest.y_getPitches]) memory

end Rows

/-! ## Rows of slices -/

section Slices

variable {dest source : MdSpan ℕ (n + 2)} {extents : Vec ℕ (n + 3)}

private theorem row_slice_place {span : MdSpan ℕ (n + 2)} (positive : ∀ d, 0 < extents d)
    (contiguous : ∀ d : Fin n, extents.eraseBack.eraseBack d.succ * span.pitch.eraseBack d.succ =
      span.pitch.eraseBack d.castSucc) (label : ℕ × ℕ) :
    span.row (Fin.snoc (place extents.eraseBack.eraseBack label.1) label.2 : Vec ℕ (n + 2)) =
      span.data + (label.1 * span.getPitches.z + label.2 * span.getPitches.y) := by
  have inBox (d : Fin (n + 1)) : 0 < extents.eraseBack.eraseBack d := positive d.castSucc.castSucc
  rw [span.row_snoc, offset_place inBox contiguous, span.y_getPitches, span.z_getPitches]

private theorem row_slice_outer (span : MdSpan ℕ (n + 2)) (idx : Vec ℕ n) (label : ℕ × ℕ) :
    span.row (Fin.snoc (Fin.snoc idx label.1 : Vec ℕ (n + 1)) label.2 : Vec ℕ (n + 2)) =
      span.data + (offset span.pitch.eraseBack.eraseBack idx + label.1 * span.getPitches.z +
        label.2 * span.getPitches.y) := by
  rw [span.row_snoc, offset_last, Fin.init_snoc, Fin.snoc_last, span.y_getPitches,
    span.z_getPitches]
  rfl

/-- One call for a box whose slices follow each other without gaps. -/
theorem copies_fused_slices (same : source.sizeofValue = dest.sizeofValue)
    (rows : dest.RowsApart extents) (apart : dest.Apart source extents)
    (positive : ∀ d, 0 < extents d)
    (destContiguous : ∀ d : Fin n, extents.eraseBack.eraseBack d.succ *
      dest.pitch.eraseBack d.succ = dest.pitch.eraseBack d.castSucc)
    (sourceContiguous : ∀ d : Fin n, extents.eraseBack.eraseBack d.succ *
      source.pitch.eraseBack d.succ = source.pitch.eraseBack d.castSucc)
    {act : Bytes → Bytes}
    (copies : Copies {label : ℕ × ℕ |
        label.1 ∈ Set.Iio (∏ d, extents.eraseBack.eraseBack d) ∧ label.2 < extents.y}
      (fun label => dest.data + (label.1 * dest.getPitches.z + label.2 * dest.getPitches.y))
      (fun label => source.data + (label.1 * source.getPitches.z + label.2 * source.getPitches.y))
      (extents.x * dest.sizeofValue) act) (memory : Bytes) :
    Writes dest extents (fun idx byte => memory (source.ptr id idx + byte)) memory (act memory) :=
  (Distributes.fused extents.eraseBack.eraseBack ()).snoc.copies same rows apart
    (fun _ _ => copies.congr rfl
      (fun label => (row_slice_place positive destContiguous label).symm)
      fun label => (row_slice_place positive sourceContiguous label).symm) memory

theorem sets_fused_slices (rows : dest.RowsApart extents) (positive : ∀ d, 0 < extents d)
    (contiguous : ∀ d : Fin n, extents.eraseBack.eraseBack d.succ * dest.pitch.eraseBack d.succ =
      dest.pitch.eraseBack d.castSucc) {byteValue : UInt8} {act : Bytes → Bytes}
    (sets : Sets {label : ℕ × ℕ |
        label.1 ∈ Set.Iio (∏ d, extents.eraseBack.eraseBack d) ∧ label.2 < extents.y}
      (fun label => dest.data + (label.1 * dest.getPitches.z + label.2 * dest.getPitches.y))
      (extents.x * dest.sizeofValue) byteValue act) (memory : Bytes) :
    Writes dest extents (fun _ _ => byteValue) memory (act memory) :=
  (Distributes.fused extents.eraseBack.eraseBack ()).snoc.sets rows
    (fun _ _ => sets.congr rfl fun label =>
      (row_slice_place positive contiguous label).symm) memory

/-- A call for every index of the dimensions that are slower than a slice. -/
theorem copies_outer_slices (same : source.sizeofValue = dest.sizeofValue)
    (rows : dest.RowsApart extents) (apart : dest.Apart source extents)
    {act : Vec ℕ n → Bytes → Bytes}
    (copies : ∀ idx, Copies {label : ℕ × ℕ | label.1 ∈ Set.Iio extents.z ∧ label.2 < extents.y}
      (fun label => dest.data + (offset dest.pitch.eraseBack.eraseBack idx +
        label.1 * dest.getPitches.z + label.2 * dest.getPitches.y))
      (fun label => source.data + (offset source.pitch.eraseBack.eraseBack idx +
        label.1 * source.getPitches.z + label.2 * source.getPitches.y))
      (extents.x * dest.sizeofValue) (act idx)) (memory : Bytes) :
    Writes dest extents (fun idx byte => memory (source.ptr id idx + byte)) memory
      (ndLoopIncIdx extents.eraseBack.eraseBack.eraseBack act memory) := by
  rw [ndLoopIncIdx_eq]
  exact (Distributes.outer extents.eraseBack.eraseBack).snoc.copies same rows apart
    (fun idx _ => (copies idx).congr rfl (fun label => (row_slice_outer dest idx label).symm)
      fun label => (row_slice_outer source idx label).symm) memory

theorem sets_outer_slices (rows : dest.RowsApart extents) {byteValue : UInt8}
    {act : Vec ℕ n → Bytes → Bytes}
    (sets : ∀ idx, Sets {label : ℕ × ℕ | label.1 ∈ Set.Iio extents.z ∧ label.2 < extents.y}
      (fun label => dest.data + (offset dest.pitch.eraseBack.eraseBack idx +
        label.1 * dest.getPitches.z + label.2 * dest.getPitches.y))
      (extents.x * dest.sizeofValue) byteValue (act idx)) (memory : Bytes) :
    Writes dest extents (fun _ _ => byteValue) memory
      (ndLoopIncIdx extents.eraseBack.eraseBack.eraseBack act memory) := by
  rw [ndLoopIncIdx_eq]
  exact (Distributes.outer extents.eraseBack.eraseBack).snoc.sets rows
    (fun idx _ => (sets idx).congr rfl fun label => (row_slice_outer dest idx label).symm) memory

end Slices

end Alpaka
