import Alpaka.Math.Independent
import Alpaka.Mem.MdSpan
import Alpaka.Meta.NdLoop

/-! # Boxes written row by row

A box of a view consists of rows, and an operation on it is a sequence of calls that
write some rows each. However the rows are distributed over the calls, exactly the
bytes of the elements in the box are written (`Alpaka.Distributes.copies`,
`Alpaka.Distributes.sets`).
-/

namespace Alpaka

open Math (Assigns foldl_assigns)
open Math.Strides (Nested offset offset_last)

variable {n : ℕ}

/-- The bytes of a memory. -/
abbrev Bytes := ℕ → UInt8

/-! ## Boxes of a view -/

/-- The bytes of the elements in a box have got their values, and nothing else has
changed. -/
structure Writes (dest : MdSpan ℕ n) (extents : Vec ℕ (n + 1))
    (value : Vec ℕ (n + 1) → ℕ → UInt8) (before after : Bytes) : Prop where
  written : ∀ idx, (∀ d, idx d < extents d) → ∀ byte < dest.sizeofValue,
    after (dest.ptr id idx + byte) = value idx byte
  other : ∀ address, (∀ idx, (∀ d, idx d < extents d) → ∀ byte < dest.sizeofValue,
    address ≠ dest.ptr id idx + byte) → after address = before address

/-- Where a row of a view begins. -/
def MdSpan.row (span : MdSpan ℕ n) (row : Vec ℕ n) : ℕ := span.data + offset span.pitch row

private theorem MdSpan.ptr_eq (span : MdSpan ℕ n) (idx : Vec ℕ (n + 1)) :
    span.ptr id idx = span.row idx.eraseBack + idx.back * span.sizeofValue := by
  unfold row
  rw [ptr_eq_offset, offset_last, getPitches, Fin.init_snoc, Fin.snoc_last, Nat.cast_id,
    Nat.add_assoc]
  rfl

/-- The rows of a box do not overlap. -/
def MdSpan.RowsApart (span : MdSpan ℕ n) (extents : Vec ℕ (n + 1)) : Prop :=
  ∀ first second : Vec ℕ n, (∀ d, first d < extents.eraseBack d) →
    (∀ d, second d < extents.eraseBack d) → first ≠ second →
    span.row first + extents.back * span.sizeofValue ≤ span.row second ∨
      span.row second + extents.back * span.sizeofValue ≤ span.row first

theorem MdSpan.RowsApart.mono {span : MdSpan ℕ n} {extents smaller : Vec ℕ (n + 1)}
    (apart : span.RowsApart extents) (below : ∀ d, smaller d ≤ extents d) :
    span.RowsApart smaller := by
  intro first second inside inside' different
  have shorter : smaller.back * span.sizeofValue ≤ extents.back * span.sizeofValue :=
    Nat.mul_le_mul_right _ (below (Fin.last n))
  have rows := apart first second (fun d => (inside d).trans_le (below d.castSucc))
    (fun d => (inside' d).trans_le (below d.castSucc)) different
  omega

/-- The bytes of a row are those of its elements. -/
theorem MdSpan.ptr_snoc (span : MdSpan ℕ n) (row : Vec ℕ n) {i : ℕ} :
    span.ptr id (Fin.snoc row (i / span.sizeofValue)) + i % span.sizeofValue =
      span.row row + i := by
  have erased : Vec.eraseBack (Fin.snoc row (i / span.sizeofValue) : Vec ℕ (n + 1)) = row :=
    funext fun d => Fin.snoc_castSucc _ _ _
  have last : Vec.back (Fin.snoc row (i / span.sizeofValue) : Vec ℕ (n + 1)) =
      i / span.sizeofValue := Fin.snoc_last _ _
  rw [MdSpan.ptr_eq, erased, last, Nat.add_assoc, Nat.div_add_mod']

private theorem snoc_inside {extents : Vec ℕ (n + 1)} {row : Vec ℕ n} {sizeofValue i : ℕ}
    (inRow : row ∈ ndIdxs extents.eraseBack) (inside : i < extents.back * sizeofValue)
    (d : Fin (n + 1)) :
    (Fin.snoc row (i / sizeofValue) : Vec ℕ (n + 1)) d < extents d := by
  have positive : 0 < sizeofValue := Nat.pos_of_mul_pos_left (Nat.zero_lt_of_lt inside)
  cases d using Fin.lastCases with
  | last =>
      rw [Fin.snoc_last]
      exact (Nat.div_lt_iff_lt_mul positive).mpr inside
  | cast d =>
      rw [Fin.snoc_castSucc]
      exact mem_ndIdxs.mp inRow d

/-- Writing row by row writes the box. -/
private theorem writes_of_rows {dest : MdSpan ℕ n} {extents : Vec ℕ (n + 1)}
    {value : Vec ℕ (n + 1) → ℕ → UInt8} {before after : Bytes}
    (rows : Assigns ∅ {i : Vec ℕ n × ℕ | i.1 ∈ ndIdxs extents.eraseBack ∧
        i.2 ∈ Set.Iio (extents.back * dest.sizeofValue)}
      (fun i => dest.row i.1 + i.2)
      (fun i => value (Fin.snoc i.1 (i.2 / dest.sizeofValue)) (i.2 % dest.sizeofValue))
      before after) : Writes dest extents value before after := by
  have room {column byte : ℕ} (inside : column < extents.back) (inByte : byte < dest.sizeofValue) :
      column * dest.sizeofValue + byte < extents.back * dest.sizeofValue := by
    have := Nat.mul_le_mul_right dest.sizeofValue (Nat.succ_le_of_lt inside)
    rw [Nat.succ_mul] at this
    omega
  refine ⟨fun idx inside byte inByte => ?_, fun address away => ?_⟩
  · have here := rows.written (idx.eraseBack, idx.back * dest.sizeofValue + byte)
      ⟨mem_ndIdxs.mpr fun d => inside d.castSucc, room (inside (Fin.last n)) inByte⟩
    have column : (idx.back * dest.sizeofValue + byte) / dest.sizeofValue = idx.back := by
      rw [Nat.mul_comm, Nat.mul_add_div (Nat.zero_lt_of_lt inByte), Nat.div_eq_of_lt inByte,
        Nat.add_zero]
    have rest : (idx.back * dest.sizeofValue + byte) % dest.sizeofValue = byte := by
      rw [Nat.mul_comm, Nat.mul_add_mod, Nat.mod_eq_of_lt inByte]
    have whole : Fin.snoc idx.eraseBack idx.back = idx := Fin.snoc_init_self idx
    simp only [column, rest, whole] at here
    rw [MdSpan.ptr_eq, Nat.add_assoc]
    exact here
  · refine rows.other address (Set.notMem_empty address) fun ⟨row, i⟩ ⟨inRow, inside⟩ same => ?_
    have positive : 0 < dest.sizeofValue := Nat.pos_of_mul_pos_left (Nat.zero_lt_of_lt inside)
    exact away (Fin.snoc row (i / dest.sizeofValue)) (snoc_inside inRow inside)
      (i % dest.sizeofValue) (Nat.mod_lt i positive) (same.trans (dest.ptr_snoc row).symm)

theorem MdSpan.eraseBack_getPitches (span : MdSpan ℕ n) : span.getPitches.eraseBack = span.pitch :=
  Fin.init_snoc _ _

/-- There is nothing to write in an empty box. -/
theorem Writes.of_empty {dest : MdSpan ℕ n} {extents : Vec ℕ (n + 1)}
    (empty : extents.product = 0) (value : Vec ℕ (n + 1) → ℕ → UInt8) (memory : Bytes) :
    Writes dest extents value memory memory := by
  rw [Vec.product_eq_prod] at empty
  obtain ⟨d, _, none⟩ := Finset.prod_eq_zero_iff.mp empty
  have outside {idx : Vec ℕ (n + 1)} (inside : ∀ d, idx d < extents d) : False :=
    Nat.not_lt_zero (idx d) (none ▸ inside d)
  exact ⟨fun idx inside => (outside inside).elim, fun _ _ => rfl⟩

/-- Everything about a box that has been written is known. -/
theorem Writes.unique {dest : MdSpan ℕ n} {extents : Vec ℕ (n + 1)}
    {value : Vec ℕ (n + 1) → ℕ → UInt8} {before first second : Bytes}
    (writes : Writes dest extents value before first)
    (writes' : Writes dest extents value before second) : first = second := by
  funext address
  by_cases inBox : ∃ idx, (∀ d, idx d < extents d) ∧ ∃ byte < dest.sizeofValue,
      address = dest.ptr id idx + byte
  · obtain ⟨idx, inside, byte, below, rfl⟩ := inBox
    exact (writes.written idx inside byte below).trans (writes'.written idx inside byte below).symm
  · have away : ∀ idx, (∀ d, idx d < extents d) → ∀ byte < dest.sizeofValue,
        address ≠ dest.ptr id idx + byte :=
      fun idx inside byte below same => inBox ⟨idx, inside, byte, below, same⟩
    exact (writes.other address away).trans (writes'.other address away).symm

/-! ## Calls -/

section Calls

variable {Call Label : Type} {labels : Set Label}

/-- A call that copies rows to rows, as long as they do not overlap. -/
def Copies (labels : Set Label) (destRow sourceRow : Label → ℕ) (width : ℕ)
    (act : Bytes → Bytes) : Prop :=
  (∀ first ∈ labels, ∀ second ∈ labels, ∀ i < width, ∀ j < width,
    destRow first + i ≠ sourceRow second + j) →
  ∀ memory, Assigns ∅ {i : Label × ℕ | i.1 ∈ labels ∧ i.2 ∈ Set.Iio width}
    (fun i => destRow i.1 + i.2) (fun i => memory (sourceRow i.1 + i.2)) memory (act memory)

/-- A call that sets the bytes of rows. -/
def Sets (labels : Set Label) (destRow : Label → ℕ) (width : ℕ) (byteValue : UInt8)
    (act : Bytes → Bytes) : Prop :=
  ∀ memory, Assigns ∅ {i : Label × ℕ | i.1 ∈ labels ∧ i.2 ∈ Set.Iio width}
    (fun i => destRow i.1 + i.2) (fun _ => byteValue) memory (act memory)

theorem Copies.congr {labels' : Set Label} {destRow sourceRow destRow' sourceRow' : Label → ℕ}
    {width : ℕ} {act : Bytes → Bytes} (copies : Copies labels destRow sourceRow width act)
    (sameLabels : labels = labels') (sameDest : ∀ label, destRow label = destRow' label)
    (sameSource : ∀ label, sourceRow label = sourceRow' label) :
    Copies labels' destRow' sourceRow' width act := by
  obtain rfl := sameLabels
  obtain rfl : destRow = destRow' := funext sameDest
  obtain rfl : sourceRow = sourceRow' := funext sameSource
  exact copies

theorem Sets.congr {labels' : Set Label} {destRow destRow' : Label → ℕ} {width : ℕ}
    {byteValue : UInt8} {act : Bytes → Bytes} (sets : Sets labels destRow width byteValue act)
    (sameLabels : labels = labels') (sameDest : ∀ label, destRow label = destRow' label) :
    Sets labels' destRow' width byteValue act := by
  obtain rfl := sameLabels
  obtain rfl : destRow = destRow' := funext sameDest
  exact sets

/-- Every row of a box has a label in one of the calls. -/
structure Distributes (box : Vec ℕ n) (calls : List Call) (labels : Set Label)
    (rowOf : Call → Label → Vec ℕ n) : Prop where
  distinct : calls.Nodup
  inside : ∀ call ∈ calls, ∀ label ∈ labels, ∀ d, rowOf call label d < box d
  onto : ∀ row : Vec ℕ n, (∀ d, row d < box d) →
    ∃ call ∈ calls, ∃ label ∈ labels, rowOf call label = row
  apart : ∀ call ∈ calls, ∀ other ∈ calls, call ≠ other →
    ∀ label ∈ labels, ∀ label' ∈ labels, rowOf call label ≠ rowOf other label'

variable {dest source : MdSpan ℕ n} {extents : Vec ℕ (n + 1)} {calls : List Call}
  {rowOf : Call → Label → Vec ℕ n} {act : Call → Bytes → Bytes}

/-- Calls that write rows to places nobody reads from. -/
private theorem Distributes.assigns (distributes : Distributes extents.eraseBack calls labels rowOf)
    (rows : dest.RowsApart extents) (value : Vec ℕ n → ℕ → Bytes → UInt8)
    (reads : Vec ℕ n → Set ℕ)
    (each : ∀ call ∈ calls, ∀ memory,
      Assigns ∅ {i : Label × ℕ | i.1 ∈ labels ∧ i.2 ∈ Set.Iio (extents.back * dest.sizeofValue)}
        (fun i => dest.row (rowOf call i.1) + i.2) (fun i => value (rowOf call i.1) i.2 memory)
        memory (act call memory))
    (determined : ∀ row, ∀ first second : Bytes, (∀ x ∈ reads row, first x = second x) →
      ∀ i < extents.back * dest.sizeofValue, value row i first = value row i second)
    (unread : ∀ row row', (∀ d, row d < extents.eraseBack d) → (∀ d, row' d < extents.eraseBack d) →
      ∀ i < extents.back * dest.sizeofValue, dest.row row + i ∉ reads row') (memory : Bytes) :
    Assigns ∅ {i : Vec ℕ n × ℕ | i.1 ∈ ndIdxs extents.eraseBack ∧
        i.2 ∈ Set.Iio (extents.back * dest.sizeofValue)}
      (fun i => dest.row i.1 + i.2) (fun i => value i.1 i.2 memory) memory
      (calls.foldl (fun memory call => act call memory) memory) := by
  have all := foldl_assigns (fun call => {x | ∃ label ∈ labels, x ∈ reads (rowOf call label)})
    distributes.distinct each
    (fun call _ first second agree i inside => determined _ first second
      (fun x read => agree x ⟨i.1, inside.1, read⟩) i.2 inside.2)
    (fun _ _ => Set.disjoint_empty _) (fun _ _ _ _ => Set.notMem_empty _)
    (fun call member other member' different i inside => ⟨fun ⟨label, labelled, read⟩ =>
        unread _ _ (distributes.inside call member i.1 inside.1)
          (distributes.inside other member' label labelled) i.2 inside.2 read,
      fun j inside' => by
        have below : i.2 < extents.back * dest.sizeofValue := inside.2
        have below' : j.2 < extents.back * dest.sizeofValue := inside'.2
        have ordered := rows _ _ (distributes.inside call member i.1 inside.1)
          (distributes.inside other member' j.1 inside'.1)
          (distributes.apart call member other member' different i.1 inside.1 j.1 inside'.1)
        omega⟩) memory
  refine all.relabel ?_ ?_
  · rintro ⟨row, i⟩ ⟨inBox, below⟩
    obtain ⟨call, member, label, labelled, rfl⟩ := distributes.onto row (mem_ndIdxs.mp inBox)
    exact ⟨(call, label, i), ⟨member, labelled, below⟩, rfl, rfl⟩
  · rintro ⟨call, label, i⟩ ⟨member, labelled, below⟩
    exact ⟨(rowOf call label, i),
      ⟨mem_ndIdxs.mpr (distributes.inside call member label labelled), below⟩, rfl⟩

/-- Source and destination of a copy do not overlap. -/
def MdSpan.Apart (dest source : MdSpan ℕ n) (extents : Vec ℕ (n + 1)) : Prop :=
  ∀ first second, (∀ d, first d < extents d) → (∀ d, second d < extents d) →
    ∀ byte < dest.sizeofValue, ∀ byte' < dest.sizeofValue,
      dest.ptr id first + byte ≠ source.ptr id second + byte'

/-- Neither do their rows. -/
private theorem MdSpan.Apart.rows (apart : dest.Apart source extents)
    (same : source.sizeofValue = dest.sizeofValue) {row row' : Vec ℕ n}
    (inside : ∀ d, row d < extents.eraseBack d) (inside' : ∀ d, row' d < extents.eraseBack d)
    {i j : ℕ} (below : i < extents.back * dest.sizeofValue)
    (below' : j < extents.back * dest.sizeofValue) : dest.row row + i ≠ source.row row' + j := by
  have positive : 0 < dest.sizeofValue := Nat.pos_of_mul_pos_left (Nat.zero_lt_of_lt below)
  rw [← dest.ptr_snoc, ← source.ptr_snoc, same]
  exact apart _ _ (snoc_inside (mem_ndIdxs.mpr inside) below)
    (snoc_inside (mem_ndIdxs.mpr inside') below') _ (Nat.mod_lt i positive) _
    (Nat.mod_lt j positive)

/-- **Copying.** -/
theorem Distributes.copies (distributes : Distributes extents.eraseBack calls labels rowOf)
    (same : source.sizeofValue = dest.sizeofValue) (rows : dest.RowsApart extents)
    (apart : dest.Apart source extents)
    (each : ∀ call ∈ calls, Copies labels (fun label => dest.row (rowOf call label))
      (fun label => source.row (rowOf call label)) (extents.back * dest.sizeofValue) (act call))
    (memory : Bytes) :
    Writes dest extents (fun idx byte => memory (source.ptr id idx + byte)) memory
      (calls.foldl (fun memory call => act call memory) memory) := by
  have all := distributes.assigns rows (fun row i memory => memory (source.row row + i))
    (fun row => {x | ∃ i < extents.back * dest.sizeofValue, x = source.row row + i})
    (fun call member => each call member fun first labelled second labelled' i below j below' =>
      apart.rows same (distributes.inside call member first labelled)
        (distributes.inside call member second labelled') below below')
    (fun row first second agree i below => agree _ ⟨i, below, rfl⟩)
    (fun row row' inside inside' i below ⟨j, below', equal⟩ =>
      apart.rows same inside inside' below below' equal) memory
  exact writes_of_rows (all.congr_value fun ⟨row, i⟩ _ => by rw [← same, source.ptr_snoc])

/-- **Setting.** -/
theorem Distributes.sets (distributes : Distributes extents.eraseBack calls labels rowOf)
    (rows : dest.RowsApart extents) {byteValue : UInt8}
    (each : ∀ call ∈ calls, Sets labels (fun label => dest.row (rowOf call label))
      (extents.back * dest.sizeofValue) byteValue (act call)) (memory : Bytes) :
    Writes dest extents (fun _ _ => byteValue) memory
      (calls.foldl (fun memory call => act call memory) memory) :=
  writes_of_rows (distributes.assigns rows (fun _ _ _ => byteValue) (fun _ => ∅) each
    (fun _ _ _ _ _ _ => rfl) (fun _ _ _ _ _ _ => Set.notMem_empty _) memory)

end Calls

/-! ## Nested pitches -/

/-- Pitches with room for the faster dimensions keep the rows apart. -/
theorem MdSpan.rowsApart_of_nested {span : MdSpan ℕ n} {extents : Vec ℕ (n + 1)}
    (nested : Nested extents span.getPitches) : span.RowsApart extents := by
  cases n with
  | zero =>
      exact fun first second _ _ different => absurd (Subsingleton.elim first second) different
  | succ n =>
      intro first second inside inside' different
      have rows : Nested (extents.eraseBack) span.pitch := fun d => by
        have slower := nested d.castSucc
        rw [Fin.succ_castSucc, getPitches, Fin.snoc_castSucc, Fin.snoc_castSucc] at slower
        exact slower
      have room : extents.back * span.sizeofValue ≤ span.pitch (Fin.last n) := by
        have fastest := nested (Fin.last n)
        rw [Fin.succ_last, getPitches, Fin.snoc_last, Fin.snoc_castSucc] at fastest
        exact fastest
      have apart := rows.lt inside inside' different
      unfold row
      omega

/-- All elements are in front of the end of a view. -/
theorem MdSpan.ptr_add_le {span : MdSpan ℕ n} {extents : Vec ℕ (n + 1)}
    (nested : Nested extents span.getPitches) {idx : Vec ℕ (n + 1)}
    (inside : ∀ d, idx d < extents d) :
    span.ptr id idx + span.sizeofValue ≤ span.data + extents 0 * span.getPitches 0 := by
  have room := (nested.room inside).trans (Nat.mul_le_mul_right _ (inside 0))
  rw [show span.getPitches (Fin.last n) = span.sizeofValue from Fin.snoc_last _ _] at room
  unfold ptr
  rw [byteOffset_eq]
  omega

end Alpaka
