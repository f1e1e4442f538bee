import Mathlib.Data.Nat.Prime.Basic
import Alpaka.OnAcc.SimdIssued
import Alpaka.Simd.SimdPtr

/-! # Alignment of pack accesses

`concurrent` hands the functor pointers to packs. Each of them claims the alignment of
the view, whatever the row. In a view on an allocation every row has this alignment. A
view made from a pointer and extents has rows without padding, and its packs are
aligned only if the length of the rows is a multiple of what the SIMD type requires
(`Alpaka.aligned_iff`). All of this is in the arithmetic of the index type.
-/

namespace Alpaka

open Math (Settles)
open Math.Strides (offset)

variable {w n : ℕ}

/-! ## Views -/

/-- The pitches of an allocation: the rows have a given distance. -/
def allocPitches (sizeofElem rowPitchBytes : BitVec w) : {n : ℕ} → Vec (BitVec w) (n + 1) →
    Vec (BitVec w) (n + 1)
  | 0, _ => fun _ => sizeofElem
  | _ + 1, extents => calculatePitches sizeofElem rowPitchBytes extents

/-- How a view is created: by an allocation, whose alignment is a power of two and whose
row pitch comes from the padding or the vendor, or from a pointer and extents. -/
inductive Created (w n : ℕ)
  | alloc (bits : ℕ) (rowPitchBytes : BitVec w) (extents : Vec (BitVec w) (n + 1)) (ptr : ℕ)
  | makeView (alignment : Alignment) (extents : Vec (BitVec w) (n + 1)) (ptr : ℕ)

/-- The view, with the pitches of an allocation or those of rows without padding. -/
def Created.view (type : ValueType) : Created w n → AlignedView (BitVec w) n
  | .alloc bits rowPitchBytes extents ptr =>
      ⟨⟨ptr, type.sizeof, extents, (allocPitches type.sizeof rowPitchBytes extents).eraseBack⟩,
        .byte (2 ^ bits)⟩
  | .makeView alignment extents ptr =>
      ⟨⟨ptr, type.sizeof, extents,
        (calculatePitchesFromExtents (type.sizeof : BitVec w) extents).eraseBack⟩, alignment⟩

/-- What creating a view promises: rows and the pointer of an allocation have its
alignment, and a pointer to elements has the stated one. The alignment of a type is a power
of two. -/
def Created.Proper (type : ValueType) : Created w n → Prop
  | .alloc bits rowPitchBytes _ ptr =>
      type.alignof ∣ 2 ^ bits ∧ 2 ^ bits ∣ rowPitchBytes.toNat ∧ 2 ^ bits ∣ ptr
  | .makeView alignment _ ptr =>
      (∃ bits, type.alignof = 2 ^ bits) ∧ alignment.Allowed type ∧ alignment.get type ∣ ptr ∧
        type.alignof ∣ ptr

/-- An allocation on the host, with the padding of the rows. -/
theorem alloc_eq_view (type : ValueType) (bits : ℕ) (extents : Vec (BitVec w) (n + 1)) (ptr : ℕ) :
    (machineAlloc type.sizeof (2 ^ bits) extents ptr).2 =
      ((Created.alloc bits (divCeil (extents.back * (type.sizeof : BitVec w))
        ((2 ^ bits : ℕ) : BitVec w) * ((2 ^ bits : ℕ) : BitVec w)) extents ptr).view
          type).span := by
  cases n <;> rfl

/-- The distance of the rows of an allocation on the host is a multiple of the alignment. -/
theorem dvd_rowPitch (bits sizeof : ℕ) (extent : BitVec w) :
    2 ^ bits ∣ (divCeil (extent * (sizeof : BitVec w)) ((2 ^ bits : ℕ) : BitVec w) *
      ((2 ^ bits : ℕ) : BitVec w)).toNat := by
  rw [BitVec.toNat_mul, toNat_cast]
  exact two_pow_dvd_mod ((two_pow_dvd_mod (dvd_refl _) w).mul_left _) w

/-- The pitches of an allocation are multiples of what divides the distance of the rows. -/
theorem dvd_allocPitches {bits : ℕ} {sizeofElem rowPitchBytes : BitVec w}
    (divides : 2 ^ bits ∣ rowPitchBytes.toNat) (extents : Vec (BitVec w) (n + 1)) (d : Fin n) :
    2 ^ bits ∣ ((allocPitches sizeofElem rowPitchBytes extents).eraseBack d).toNat := by
  cases n with
  | zero => exact d.elim0
  | succ n =>
      change 2 ^ bits ∣ (calculatePitches sizeofElem rowPitchBytes extents d.castSucc).toNat
      induction n with
      | zero =>
          rw [Fin.fin_one_eq_zero d]
          exact divides
      | succ n ih =>
          cases d using Fin.cases with
          | zero =>
              change 2 ^ bits ∣ (extents 1 * calculatePitches sizeofElem rowPitchBytes
                (Vec.rshrink extents) 0).toNat
              rw [BitVec.toNat_mul]
              exact two_pow_dvd_mod ((ih (Vec.rshrink extents) 0).mul_left _) w
          | succ d => exact ih (Vec.rshrink extents) d

/-- The pitches of rows without padding are multiples of what divides the size of an element. -/
theorem dvd_calculatePitchesFromExtents {bits sizeofElem : ℕ} (divides : 2 ^ bits ∣ sizeofElem)
    (extents : Vec (BitVec w) (n + 1)) (d : Fin (n + 1)) :
    2 ^ bits ∣ (calculatePitchesFromExtents (sizeofElem : BitVec w) extents d).toNat := by
  induction n with
  | zero =>
      change 2 ^ bits ∣ (sizeofElem : BitVec w).toNat
      rw [toNat_cast]
      exact two_pow_dvd_mod divides w
  | succ n ih =>
      cases d using Fin.cases with
      | zero =>
          change 2 ^ bits ∣ (extents 1 * calculatePitchesFromExtents (sizeofElem : BitVec w)
            (Vec.rshrink extents) 0).toNat
          rw [BitVec.toNat_mul]
          exact two_pow_dvd_mod ((ih (Vec.rshrink extents) 0).mul_left _) w
      | succ d => exact ih (Vec.rshrink extents) d

theorem Created.Proper.power {type : ValueType} {created : Created w n}
    (proper : created.Proper type) : ∃ bits, type.alignof = 2 ^ bits := by
  cases created with
  | alloc bits rowPitchBytes extents ptr =>
      obtain ⟨element, -, same⟩ := (Nat.dvd_prime_pow Nat.prime_two).mp proper.1
      exact ⟨element, same⟩
  | makeView alignment extents ptr => exact proper.1

/-- Elements of a created view are aligned. -/
theorem Created.Proper.view {type : ValueType} {created : Created w n}
    (proper : created.Proper type) : (created.view type).Proper BitVec.toNat type := by
  cases created with
  | alloc bits rowPitchBytes extents ptr =>
      obtain ⟨element, rows, pointer⟩ := proper
      refine ⟨rfl, element.trans pointer, fun d => ?_,
        Nat.le_of_dvd (Nat.two_pow_pos bits) element⟩
      exact element.trans (dvd_allocPitches rows extents d)
  | makeView alignment extents ptr =>
      obtain ⟨⟨bits, power⟩, allowed, -, element⟩ := proper
      refine ⟨rfl, element, fun d => ?_, allowed⟩
      have whole := type.divides
      rw [power] at whole ⊢
      exact dvd_calculatePitchesFromExtents whole extents d.castSucc

/-- What the padding of the host promises, for a pointer with the alignment. -/
theorem proper_alloc {type : ValueType} {bits ptr : ℕ} (element : type.alignof ∣ 2 ^ bits)
    (pointer : 2 ^ bits ∣ ptr) (extents : Vec (BitVec w) (n + 1)) :
    (Created.alloc bits (divCeil (extents.back * (type.sizeof : BitVec w))
      ((2 ^ bits : ℕ) : BitVec w) * ((2 ^ bits : ℕ) : BitVec w)) extents ptr).Proper type :=
  ⟨element, dvd_rowPitch bits type.sizeof extents.back, pointer⟩

/-! ## Runs -/

/-- The pointer that a call is given. -/
def Call.simdPtr (memAlignment : Alignment) (call : Call (BitVec w) n) : SimdPtr w n :=
  ⟨call.dataIdx, memAlignment, call.width⟩

/-- Every load or store through a pointer that a call is given, shifted or not, has an aligned
address if it takes the aligned branch. -/
def SimdRun.Aligned (run : SimdRun w n) (type : ValueType) (view : AlignedView (BitVec w) n)
    (memAlignment : Alignment) : Prop :=
  ∀ idx ∈ box run.threadCount, ∀ call, run.Issues idx call →
    (call.simdPtr memAlignment).Sound type view ∧
      ∀ shift, ((call.simdPtr memAlignment).shift type shift).Sound type view

/-- If the aligned branch is compiled in and there are packs, then the first row has the
required alignment, and so have the pitches of the dimensions in which rows behind the first
one are processed. -/
def SimdRun.RowsAligned (run : SimdRun w n) (type : ValueType) (view : AlignedView (BitVec w) n)
    (memAlignment : Alignment) : Prop :=
  (⟨Vec.fill 0, memAlignment, run.simdWidth⟩ : SimdPtr w n).TakesAligned type view →
    run.column ≠ 0 → ∀ row ∈ run.rows,
      alignofSimd type run.simdWidth ∣ view.span.data ∧
        ∀ d : Fin n, row d.castSucc ≠ 0 →
          alignofSimd type run.simdWidth ∣ (view.span.pitch d).toNat

section Rows

variable {run : SimdRun w n} {type : ValueType} {view : AlignedView (BitVec w) n}
  {memAlignment : Alignment}

/-- What a SIMD type requires beyond the alignment of an element, and its width, are powers of
two. -/
private theorem power_of_wide {width bits : ℕ} (power : type.sizeof * width = 2 ^ bits) :
    ∃ lanes, width = 2 ^ lanes := by
  obtain ⟨lanes, -, same⟩ :=
    (Nat.dvd_prime_pow Nat.prime_two).mp (power ▸ Nat.dvd_mul_left width type.sizeof)
  exact ⟨lanes, same⟩

/-- Packs in aligned rows are aligned, whatever overflows. -/
theorem SimdRun.RowsAligned.sound (rows : run.RowsAligned type view memAlignment)
    (proper : view.Proper BitVec.toNat type) (power : ∃ bits, type.alignof = 2 ^ bits)
    (config : run.Proper)
    (args : run.simdWidth * run.numSimdPerFnCall < 2 ^ 32) {idx x : Vec (BitVec w) (n + 1)}
    (member : idx ∈ box run.threadCount) (reached : run.PackReached idx x) :
    (⟨x, memAlignment, run.simdWidth⟩ : SimdPtr w n).Sound type view := by
  rcases alignofSimd_cases type run.simdWidth with element | ⟨whole, -, bits, size⟩
  · exact proper.sound_of_alignof power element
  · intro taken
    obtain ⟨lanes, width⟩ := power_of_wide size
    have located := reached.located config width args member
    obtain ⟨row, processed, slow⟩ := located.row
    obtain ⟨data, pitch⟩ := rows taken located.column row processed
    have pack := alignofSimd_dvd type located.pack
    rw [whole, size] at data pitch pack
    change alignofSimd type run.simdWidth ∣ _
    rw [whole, size]
    refine SimdPtr.dvd_address data (fun d later => pitch d ?_) ?_
    · rw [← slow d]
      exact later
    · rw [proper.sizeof]
      exact pack

/-- **Aligned rows are enough**, whatever overflows. -/
theorem SimdRun.RowsAligned.aligned (rows : run.RowsAligned type view memAlignment)
    (proper : view.Proper BitVec.toNat type) (power : ∃ bits, type.alignof = 2 ^ bits)
    (config : run.Proper)
    (args : run.simdWidth * run.numSimdPerFnCall < 2 ^ 32) :
    run.Aligned type view memAlignment := by
  intro idx member call issued
  refine ⟨?_, proper.sound_shift power _⟩
  have single (element : call.width = 1) : (call.simdPtr memAlignment).Sound type view := by
    apply proper.sound_of_alignof power
    change alignofSimd type call.width = _
    rw [element, alignofSimd_one]
  unfold SimdRun.Issues at issued
  split_ifs at issued with wide
  · rcases issued with ⟨pack, reached⟩ | ⟨element, -⟩
    · have sound := rows.sound proper power config args member reached
      rw [← pack] at sound
      exact sound
    · exact single element
  · exact single issued.1

/-- Where the loop over the rows does not overflow, their number is representable. -/
private theorem product_of_fits {threadCount extents : Vec (BitVec w) (n + 1)} {layout : Layout}
    (positive : ∀ d, 0 < threadCount d)
    (fits : IdxContainer.LoopFits (IdxRange.ofExtents extents) threadCount .flat layout)
    (some : ∏ d, (extents d).toNat ≠ 0) : ∏ d, (extents d).toNat < 2 ^ w := by
  have whole (d : Fin (n + 1)) : (IdxRange.ofExtents extents).toNats.logicalExtent id d =
      (extents d).toNat := by
    rw [toNats_ofExtents positive]
    exact Nat.div_one _
  have present : ¬ ∃ d, (IdxRange.ofExtents extents).toNats.logicalExtent id d = 0 := by
    rintro ⟨d, none⟩
    rw [whole] at none
    exact some (Finset.prod_eq_zero (Finset.mem_univ d) none)
  cases layout with
  | strided =>
      have room := fits.resolve_left present
      have threads : 0 < ∏ d, (threadCount d).toNat :=
        Finset.prod_pos fun d _ => toNats_positive positive d
      simp only [whole] at room
      omega
  | contiguous =>
      have room := (fits.2.resolve_left present).1
      simp only [whole] at room
      exact room

/-- Where no loop overflows, the rows that are processed are those of the extents. -/
private theorem SimdRun.inside_of_fits (config : run.Proper) (wide : run.simdWidth ≠ 1)
    (fits : ConcurrentFits run.simdWidth run.numSimdPerFnCall run.traverse run.layout
      run.threadCount run.numElements) {row : Vec (BitVec w) (n + 1)} (processed : row ∈ run.rows)
    (d : Fin n) : row d.castSucc < run.numElements d.castSucc := by
  rw [ConcurrentFits, if_pos wide] at fits
  have packs := fits.packs
  unfold SimdRun.rows at processed
  unfold PacksFit at packs
  split_ifs at processed packs with rows
  · obtain ⟨number, below, rfl⟩ := processed
    have inside := BitVec.lt_def.mp below
    rw [Vec.toNat_product] at inside
    have some : ∏ d, (run.numElements.rAssign 1 d).toNat ≠ 0 := by
      intro none
      rw [none, Nat.zero_mod] at inside
      exact Nat.not_lt_zero _ inside
    have representable := product_of_fits (slow_positive config.threads) packs some
    rw [Nat.mod_eq_of_lt representable] at inside
    have row := (mapToND_bijOn representable).mapsTo inside d.castSucc
    rwa [Vec.rAssign, Function.update_of_ne (Fin.castSucc_lt_last d).ne] at row
  · exact processed d

/-- Where no loop overflows, every pack of exact arithmetic is issued. -/
private theorem SimdRun.issues_of_fits {bits : ℕ} (config : run.Proper)
    (power : run.simdWidth = 2 ^ bits) (wide : run.simdWidth ≠ 1)
    (fits : ConcurrentFits run.simdWidth run.numSimdPerFnCall run.traverse run.layout
      run.threadCount run.numElements) {x : Vec ℕ (n + 1)}
    (begins : x ∈ packBegins run.simdWidth run.column run.numElements.toNats) :
    ∃ idx ∈ box run.threadCount, run.Issues idx ⟨Vec.ofNats x, run.simdWidth⟩ := by
  have exact := simdPackBursts_settles (toNats_positive config.threads) config.width config.packs
    run.traverse run.layout run.numElements.toNats
  have packsFit := fits
  rw [ConcurrentFits, if_pos wide] at packsFit
  unfold SimdRun.column at begins
  rw [remainderBegin_toNats packsFit.args] at begins
  obtain ⟨worker, member, held⟩ := (exact.partitions.mem_iff x).mp begins
  obtain ⟨idx, inside, rfl⟩ := (toNats_box run.threadCount).surjOn member
  refine ⟨idx, inside, ?_⟩
  obtain ⟨bound, finished⟩ := concurrent_words config.threads config.width
    (room_of_power power (fits.width_lt config.threads) _ _) config.packs fits inside
  refine SimdRun.issues_of_calls (finished bound le_rfl) ?_
  refine List.mem_map.mpr ⟨⟨x, run.simdWidth⟩, ?_, rfl⟩
  unfold concurrentCalls
  rw [if_pos wide]
  exact List.mem_append_left _ (List.mem_map.mpr ⟨x, held, rfl⟩)

/-- The begin of a row is the begin of a pack. -/
private theorem SimdRun.begins_of_row (some : run.column ≠ 0) {row : Vec ℕ n}
    (inside : ∀ d, row d < (run.numElements d.castSucc).toNat) :
    (Fin.snoc row 0 : Vec ℕ (n + 1)) ∈
      packBegins run.simdWidth run.column run.numElements.toNats := by
  have back : Vec.back (Fin.snoc row 0 : Vec ℕ (n + 1)) = 0 := Fin.snoc_last _ _
  refine ⟨mem_elements_rAssign.mpr ⟨fun d slow => ?_, ?_⟩, ?_⟩
  · cases d using Fin.lastCases with
    | last => exact absurd rfl slow
    | cast d =>
        rw [Fin.snoc_castSucc]
        exact inside d
  · rw [back]
    exact Nat.pos_of_ne_zero some
  · rw [back]
    exact Nat.dvd_zero _

/-- **Only aligned rows are enough** where no loop overflows. -/
theorem SimdRun.Aligned.rows (aligned : run.Aligned type view memAlignment)
    (proper : view.Proper BitVec.toNat type) (config : run.Proper)
    (fits : ConcurrentFits run.simdWidth run.numSimdPerFnCall run.traverse run.layout
      run.threadCount run.numElements) : run.RowsAligned type view memAlignment := by
  intro taken some row processed
  rcases alignofSimd_cases type run.simdWidth with element | ⟨-, -, bits, size⟩
  · rw [element]
    exact ⟨proper.data, fun d _ => proper.pitch d⟩
  by_cases single : run.simdWidth = 1
  · rw [single, alignofSimd_one]
    exact ⟨proper.data, fun d _ => proper.pitch d⟩
  obtain ⟨lanes, width⟩ := power_of_wide size
  have inside := run.inside_of_fits config single fits processed
  have present (d : Fin n) : 0 < (run.numElements d.castSucc).toNat :=
    Nat.zero_lt_of_lt (BitVec.lt_def.mp (inside d))
  have inRow (first : Vec ℕ n) (within : ∀ d, first d < (run.numElements d.castSucc).toNat) :
      alignofSimd type run.simdWidth ∣
        view.span.data + offset view.span.pitch.toNats first % 2 ^ w := by
    obtain ⟨idx, member, issued⟩ := run.issues_of_fits config width single fits
      (run.begins_of_row some within)
    have begins : (Vec.ofNats (Fin.snoc first 0 : Vec ℕ (n + 1)) :
        Vec (BitVec w) (n + 1)).toNats = Fin.snoc first 0 := by
      refine Vec.toNats_ofNats fun d => ?_
      cases d using Fin.lastCases with
      | last =>
          rw [Fin.snoc_last]
          exact Nat.two_pow_pos w
      | cast d =>
          rw [Fin.snoc_castSucc]
          exact (within d).trans (run.numElements d.castSucc).isLt
    have address := (aligned idx member _ issued).1 taken
    rwa [Call.simdPtr, SimdPtr.address_row begins] at address
  have first := inRow (fun _ => 0) present
  have origin : offset view.span.pitch.toNats (fun _ => 0) = 0 :=
    Finset.sum_eq_zero fun d _ => Nat.zero_mul _
  rw [origin, Nat.zero_mod, Nat.add_zero] at first
  refine ⟨first, fun d later => ?_⟩
  have several : 2 ≤ (run.numElements d.castSucc).toNat := by
    have below := BitVec.lt_def.mp (inside d)
    have positive : (row d.castSucc).toNat ≠ 0 := fun none =>
      later (BitVec.eq_of_toNat_eq (none.trans (Nat.zero_mod _).symm))
    omega
  have second := inRow (Pi.single d 1) fun e => by
    by_cases same : e = d
    · subst same
      rw [Pi.single_eq_same]
      exact several
    · rw [Pi.single_eq_of_ne same]
      exact present e
  have narrow : view.span.pitch.toNats d < 2 ^ w := (view.span.pitch d).isLt
  rw [Math.Strides.offset_unit, Nat.mod_eq_of_lt narrow] at second
  exact (Nat.dvd_add_right first).mp second

/-- A view on an allocation has aligned rows for every SIMD type that divides its
alignment. -/
theorem Created.rowsAligned_alloc {bits ptr : ℕ} {rowPitchBytes : BitVec w}
    {extents : Vec (BitVec w) (n + 1)}
    (proper : (Created.alloc bits rowPitchBytes extents ptr).Proper type)
    (stated : memAlignment.Allowed type) :
    run.RowsAligned type ((Created.alloc bits rowPitchBytes extents ptr).view type)
      memAlignment := by
  obtain ⟨element, rows, pointer⟩ := proper
  intro taken _ _ _
  -- what the SIMD type requires is an element or a power of two up to the alignment
  have required : alignofSimd type run.simdWidth ∣ 2 ^ bits := by
    rcases alignofSimd_cases type run.simdWidth with single | ⟨whole, -, power, eq⟩
    · rw [single]
      exact element
    · have below : alignofSimd type run.simdWidth ≤ 2 ^ bits :=
        taken.alignofSimd_le (Nat.le_of_dvd (Nat.two_pow_pos bits) element) stated
      rw [whole, eq] at below ⊢
      exact Nat.pow_dvd_pow 2 ((Nat.pow_le_pow_iff_right Nat.one_lt_two).mp below)
  exact ⟨required.trans pointer, fun d _ => required.trans (dvd_allocPitches rows extents d)⟩

/-- The rows of a view on an allocation are aligned by its padding. The rows of a view on
a pointer are so if nothing is loaded or stored at once, or if the pointer and the
distances of the rows have the required alignment. -/
def Created.RowsAligned (run : SimdRun w n) (type : ValueType) (memAlignment : Alignment) :
    Created w n → Prop
  | .alloc .. => True
  | .makeView alignment extents ptr =>
      run.RowsAligned type ((Created.makeView alignment extents ptr).view type) memAlignment

/-- **Alignment of pack accesses.** For every number of dimensions, SIMD width and
configuration of the workers, and whatever overflows in the loops, all loads and stores of
whole packs have an aligned address if the view is one on an allocation or its rows are
aligned. Where no loop overflows they have one only then. -/
theorem aligned_iff {created : Created w n} (proper : created.Proper type) (config : run.Proper)
    (stated : memAlignment.Allowed type) :
    (run.simdWidth * run.numSimdPerFnCall < 2 ^ 32 →
      created.RowsAligned run type memAlignment →
        run.Aligned type (created.view type) memAlignment) ∧
    (ConcurrentFits run.simdWidth run.numSimdPerFnCall run.traverse run.layout run.threadCount
        run.numElements →
      run.Aligned type (created.view type) memAlignment →
        created.RowsAligned run type memAlignment) := by
  constructor
  · intro args rows
    have inView : run.RowsAligned type (created.view type) memAlignment := by
      cases created with
      | alloc bits rowPitchBytes extents ptr => exact Created.rowsAligned_alloc proper stated
      | makeView alignment extents ptr => exact rows
    exact inView.aligned proper.view proper.power config args
  · intro fits aligned
    cases created with
    | alloc bits rowPitchBytes extents ptr => trivial
    | makeView alignment extents ptr => exact aligned.rows proper.view config fits

end Rows

/-- A float. -/
private def float : ValueType := ⟨4, 4, by decide, by decide⟩

/-- A single worker that reads two rows of so many elements with packs of four. -/
private def twoRows (elements : BitVec 32) : SimdRun 32 1 :=
  ⟨4, 1, .flat, .contiguous, Vec.fill 1, ![2, elements]⟩

private theorem twoRows_proper (elements : BitVec 32) : (twoRows elements).Proper :=
  ⟨fun _ => show (0 : BitVec 32) < 1 by decide, Nat.succ_pos 3, Nat.one_pos⟩

/-- A view on a pointer with an alignment of 16 bytes. -/
private def onPointer (extents : Vec (BitVec 32) 2) : Created 32 1 :=
  .makeView (.byte 16) extents 1024

private theorem onPointer_proper (extents : Vec (BitVec 32) 2) :
    (onPointer extents).Proper float :=
  ⟨⟨2, rfl⟩, by unfold Alignment.Allowed; decide, by decide, by decide⟩

/-- With rows of eight elements the packs of both rows are aligned. -/
theorem aligned_iff_eight :
    (onPointer ![2, 8]).Proper float ∧ (twoRows 8).Proper ∧ Alignment.auto.Allowed float ∧
      (twoRows 8).Aligned float ((onPointer ![2, 8]).view float) .auto := by
  have stated : Alignment.auto.Allowed float := Nat.le_refl _
  refine ⟨onPointer_proper _, twoRows_proper 8, stated, ?_⟩
  have pitches : ∀ d, alignofSimd float (twoRows 8).simdWidth ∣
      (((onPointer ![2, 8]).view float).span.pitch d).toNat := by
    decide
  apply (aligned_iff (onPointer_proper ![2, 8]) (twoRows_proper 8) stated).1 (by decide)
  intro _ _ _ _
  exact ⟨by decide, fun d _ => pitches d⟩

/-- With rows of five elements the pack of the second row is read at once from an address
that is no multiple of 16. -/
theorem not_aligned_five :
    (onPointer ![2, 5]).Proper float ∧ (twoRows 5).Proper ∧ Alignment.auto.Allowed float ∧
      ¬ (twoRows 5).Aligned float ((onPointer ![2, 5]).view float) .auto := by
  refine ⟨onPointer_proper _, twoRows_proper 5, Nat.le_refl _, ?_⟩
  intro aligned
  have fits : ConcurrentFits 4 1 .flat .contiguous (Vec.fill 1 : Vec (BitVec 32) 2) ![2, 5] := by
    rw [ConcurrentFits, if_pos (by decide)]
    refine ⟨by decide, by decide, ?_, ?_⟩
    · rw [PacksFit, if_pos (by decide)]
      exact ⟨by decide, .inr (by decide)⟩
    · exact ⟨by decide, .inr (by decide)⟩
  have rows := aligned.rows (onPointer_proper ![2, 5]).view (twoRows_proper 5) fits
  have taken : (⟨Vec.fill 0, .auto, 4⟩ : SimdPtr 32 1).TakesAligned float
      ((onPointer ![2, 5]).view float) := by decide
  have second : (![1, 0] : Vec (BitVec 32) 2) ∈ (twoRows 5).rows := by
    unfold SimdRun.rows
    rw [if_pos (by decide)]
    exact ⟨1, by decide, by decide⟩
  have row := (rows taken (by decide) _ second).2 0 (by decide)
  exact absurd row (by decide)

end Alpaka
