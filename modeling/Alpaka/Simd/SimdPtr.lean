import Alpaka.Mem.IndexWidth

/-! # SIMD pointers

A SIMD pointer names the first element of a pack in a view. The alignment that it
passes on to a load or store is known at compile time: that of the memory as the view
states it, or that of an element once the pointer has been shifted. A load or store
accesses the whole pack at once if this alignment is a multiple of what the SIMD type
requires. Addresses are computed in the index type, whatever overflows.
-/

namespace Alpaka

open Math.Strides (offset)

variable {w n : ℕ}

/-- What the compiler knows about a value type. -/
structure ValueType where
  sizeof : ℕ
  alignof : ℕ
  positive : 0 < sizeof
  divides : alignof ∣ sizeof

private theorem ValueType.alignof_pos (type : ValueType) : 0 < type.alignof :=
  Nat.pos_of_dvd_of_pos type.divides type.positive

/-- An alignment in bytes, or that of the elements. -/
inductive Alignment
  | auto
  | byte (value : ℕ)
  deriving DecidableEq

def Alignment.get (type : ValueType) : Alignment → ℕ
  | .auto => type.alignof
  | .byte value => value

/-- The assertion on the value of an alignment. -/
def Alignment.Allowed (type : ValueType) (alignment : Alignment) : Prop :=
  type.alignof ≤ alignment.get type

def hasSingleBit (number : ℕ) : Bool := number = 2 ^ number.log2

/-- The best alignment of a number of elements, not above a given one. -/
def optimalAlignment (type : ValueType) (numElements : ℕ) (given : Alignment) : ℕ :=
  if numElements % 2 ≠ 0 then type.alignof
  else
    let dataSizeInBytes := type.sizeof * numElements
    let alignment := min (given.get type) dataSizeInBytes
    if hasSingleBit alignment then alignment else type.alignof

/-- The alignment that the storage of a SIMD pack requires. -/
def alignofSimd (type : ValueType) (width : ℕ) : ℕ :=
  optimalAlignment type width (.byte (type.sizeof * width))

/-- A view with the alignment that it states. -/
structure AlignedView (T : Type) (n : ℕ) where
  span : MdSpan T n
  memAlignment : Alignment

/-- A pointer to a pack, with the alignment that its template parameter states. -/
structure SimdPtr (w n : ℕ) where
  idx : Vec (BitVec w) (n + 1)
  memAlignment : Alignment
  width : ℕ

/-- The pointer shifted by an index: only the alignment of an element remains. -/
def SimdPtr.shift (type : ValueType) (simdPtr : SimdPtr w n)
    (idx : Vec (BitVec w) (n + 1)) : SimdPtr w n :=
  ⟨fun d => idx d + simdPtr.idx d, .byte type.alignof, simdPtr.width⟩

/-- The alignment of a load or store. -/
def SimdPtr.getAlignment (type : ValueType) (view : AlignedView (BitVec w) n)
    (simdPtr : SimdPtr w n) : ℕ :=
  let spanAlignment := view.memAlignment.get type
  if simdPtr.memAlignment = .auto then spanAlignment
  else min (simdPtr.memAlignment.get type) spanAlignment

/-- The address of a load or store. -/
def SimdPtr.address (view : AlignedView (BitVec w) n) (simdPtr : SimdPtr w n) : ℕ :=
  view.span.ptr BitVec.toNat simdPtr.idx

/-- The compile time condition of the branch that accesses the whole pack. -/
def SimdPtr.TakesAligned (type : ValueType) (view : AlignedView (BitVec w) n)
    (simdPtr : SimdPtr w n) : Prop :=
  simdPtr.getAlignment type view % alignofSimd type simdPtr.width = 0

instance (type : ValueType) (view : AlignedView (BitVec w) n) (simdPtr : SimdPtr w n) :
    Decidable (simdPtr.TakesAligned type view) :=
  inferInstanceAs (Decidable (_ = 0))

/-- A load or store that takes the aligned branch has an aligned address. -/
def SimdPtr.Sound (type : ValueType) (view : AlignedView (BitVec w) n)
    (simdPtr : SimdPtr w n) : Prop :=
  simdPtr.TakesAligned type view → alignofSimd type simdPtr.width ∣ simdPtr.address view

/-- Elements of the view are aligned as their type requires, and alignments are allowed. -/
structure AlignedView.Proper {T : Type} (toSizeT : T → ℕ) (type : ValueType)
    (view : AlignedView T n) : Prop where
  sizeof : view.span.sizeofValue = type.sizeof
  data : type.alignof ∣ view.span.data
  pitch : ∀ d, type.alignof ∣ toSizeT (view.span.pitch d)
  allowed : view.memAlignment.Allowed type

/-! ## What a SIMD type requires -/

private theorem exists_pow_of_hasSingleBit {number : ℕ} (single : hasSingleBit number = true) :
    ∃ bits, number = 2 ^ bits :=
  ⟨number.log2, of_decide_eq_true single⟩

/-- A SIMD type requires the alignment of an element, or its whole size, which is then a
power of two of at least two elements. -/
theorem alignofSimd_cases (type : ValueType) (width : ℕ) :
    alignofSimd type width = type.alignof ∨
      (alignofSimd type width = type.sizeof * width ∧ width % 2 = 0 ∧
        ∃ bits, type.sizeof * width = 2 ^ bits) := by
  unfold alignofSimd optimalAlignment
  by_cases odd : width % 2 ≠ 0
  · rw [if_pos odd]
    exact .inl rfl
  · rw [if_neg odd]
    have size : min ((Alignment.byte (type.sizeof * width)).get type) (type.sizeof * width) =
        type.sizeof * width := Nat.min_self _
    dsimp only
    rw [size]
    by_cases single : hasSingleBit (type.sizeof * width) = true
    · rw [if_pos single]
      exact .inr ⟨rfl, by omega, exists_pow_of_hasSingleBit single⟩
    · rw [if_neg single]
      exact .inl rfl

/-- A pack of a single element requires the alignment of an element. -/
theorem alignofSimd_one (type : ValueType) : alignofSimd type 1 = type.alignof := rfl

/-- A pack begins at a multiple of what it requires within an aligned row. -/
theorem alignofSimd_dvd (type : ValueType) {width column : ℕ} (pack : width ∣ column) :
    alignofSimd type width ∣ column * type.sizeof := by
  rcases alignofSimd_cases type width with element | ⟨whole, -, -⟩
  · rw [element]
    exact type.divides.mul_left _
  · rw [whole, Nat.mul_comm column]
    exact Nat.mul_dvd_mul_left _ pack

/-! ## Addresses -/

/-- A power of two divides an address if it divides that of the data, the pitches of the
dimensions with an index that is not zero, and the distance of the column. -/
theorem SimdPtr.dvd_address {view : AlignedView (BitVec w) n} {simdPtr : SimdPtr w n} {bits : ℕ}
    (data : 2 ^ bits ∣ view.span.data)
    (rows : ∀ d, simdPtr.idx.eraseBack d ≠ 0 → 2 ^ bits ∣ (view.span.pitch d).toNat)
    (column : 2 ^ bits ∣ simdPtr.idx.back.toNat * view.span.sizeofValue) :
    2 ^ bits ∣ simdPtr.address view := by
  have whole : 2 ^ bits ∣ view.span.pitchSum simdPtr.idx := by
    refine (Finset.dvd_sum fun d _ => ?_).add column
    by_cases first : simdPtr.idx.eraseBack d = 0
    · have zero : (simdPtr.idx.eraseBack d).toNat = 0 := by
        rw [first]
        exact Nat.zero_mod _
      rw [zero, Nat.zero_mul]
      exact Nat.dvd_zero _
    · exact (rows d first).mul_left _
  refine data.add ?_
  cases n with
  | zero => exact column
  | succ n =>
      rw [MdSpan.byteOffset_eq_pitchSum]
      exact two_pow_dvd_mod whole w

/-- The address of the begin of a row. -/
theorem SimdPtr.address_row {view : AlignedView (BitVec w) n} {simdPtr : SimdPtr w n}
    {row : Vec ℕ n}
    (begins : simdPtr.idx.toNats = Fin.snoc row 0) :
    simdPtr.address view = view.span.data + offset view.span.pitch.toNats row % 2 ^ w := by
  have back : simdPtr.idx.back.toNat = 0 :=
    (congrFun begins (Fin.last n)).trans (Fin.snoc_last _ _)
  have slow (d : Fin n) : (simdPtr.idx.eraseBack d).toNat = row d :=
    (congrFun begins d.castSucc).trans (Fin.snoc_castSucc _ _ _)
  have sum : view.span.pitchSum simdPtr.idx = offset view.span.pitch.toNats row := by
    unfold MdSpan.pitchSum
    rw [back, Nat.zero_mul, Nat.add_zero]
    exact Finset.sum_congr rfl fun d _ => congrArg (· * _) (slow d)
  refine congrArg (view.span.data + ·) ?_
  cases n with
  | zero =>
      have column : view.span.byteOffset BitVec.toNat simdPtr.idx =
          simdPtr.idx.back.toNat * view.span.sizeofValue := rfl
      rw [column, back, Nat.zero_mul]
      exact (Nat.zero_mod _).symm
  | succ n => rw [MdSpan.byteOffset_eq_pitchSum, sum]

section Proper

variable {type : ValueType} {view : AlignedView (BitVec w) n} {simdPtr : SimdPtr w n}

/-- All elements of a proper view have the alignment of their type. -/
theorem AlignedView.Proper.alignof_dvd_address (proper : view.Proper BitVec.toNat type)
    (power : ∃ bits, type.alignof = 2 ^ bits) (simdPtr : SimdPtr w n) :
    type.alignof ∣ simdPtr.address view := by
  obtain ⟨bits, power⟩ := power
  have pitch := proper.pitch
  have data := proper.data
  have column := type.divides.mul_left simdPtr.idx.back.toNat
  rw [power] at pitch data column ⊢
  rw [← proper.sizeof] at column
  exact SimdPtr.dvd_address data (fun d _ => pitch d) column

/-- A pointer to single elements is sound. -/
theorem AlignedView.Proper.sound_of_alignof (proper : view.Proper BitVec.toNat type)
    (power : ∃ bits, type.alignof = 2 ^ bits)
    (element : alignofSimd type simdPtr.width = type.alignof) : simdPtr.Sound type view := by
  intro _
  rw [element]
  exact proper.alignof_dvd_address power simdPtr

/-- The aligned branch requires no more than the alignment of the view. -/
theorem SimdPtr.TakesAligned.alignofSimd_le (taken : simdPtr.TakesAligned type view)
    (allowed : view.memAlignment.Allowed type) (stated : simdPtr.memAlignment.Allowed type) :
    alignofSimd type simdPtr.width ≤ view.memAlignment.get type := by
  have element := type.alignof_pos
  have span : 0 < view.memAlignment.get type := element.trans_le allowed
  have divides := Nat.dvd_of_mod_eq_zero taken
  unfold SimdPtr.getAlignment at divides
  dsimp only at divides
  by_cases auto : simdPtr.memAlignment = .auto
  · rw [if_pos auto] at divides
    exact Nat.le_of_dvd span divides
  · rw [if_neg auto] at divides
    have positive := lt_min (element.trans_le stated) span
    exact (Nat.le_of_dvd positive divides).trans (Nat.min_le_right _ _)

/-- A shifted pointer is sound: an access of more than an element would need a larger
alignment than that of an element. -/
theorem AlignedView.Proper.sound_shift (proper : view.Proper BitVec.toNat type)
    (power : ∃ bits, type.alignof = 2 ^ bits) (simdPtr : SimdPtr w n)
    (shift : Vec (BitVec w) (n + 1)) :
    (simdPtr.shift type shift).Sound type view := by
  rcases alignofSimd_cases type simdPtr.width with element | ⟨whole, even, bits, size⟩
  · exact proper.sound_of_alignof power element
  · intro taken
    have alignment : (simdPtr.shift type shift).getAlignment type view = type.alignof :=
      Nat.min_eq_left proper.allowed
    have required : alignofSimd type (simdPtr.shift type shift).width =
        type.sizeof * simdPtr.width := whole
    unfold SimdPtr.TakesAligned at taken
    rw [alignment, required] at taken
    have positive := type.alignof_pos
    have nonzero : 0 < type.sizeof * simdPtr.width := size ▸ Nat.two_pow_pos bits
    have lanes : 2 ≤ simdPtr.width := by
      have := Nat.pos_of_mul_pos_left nonzero
      omega
    have small : type.alignof ≤ type.sizeof := Nat.le_of_dvd type.positive type.divides
    have more : type.sizeof * 2 ≤ type.sizeof * simdPtr.width := Nat.mul_le_mul_left _ lanes
    have := type.positive
    rw [Nat.mod_eq_of_lt (by omega)] at taken
    omega

end Proper

end Alpaka
