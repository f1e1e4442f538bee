import Alpaka.Mem.MdSpan
import Alpaka.VecWidth

/-! # Layouts in machine arithmetic

With an index type of a fixed width, the pitches of an allocation and the offset of an
element are computed modulo a power of two, while copies add up pitches as sizes. Both
agree with the exact layout precisely when the pitches and the offset of the last
element are representable (`Alpaka.indexing_exact_iff`).
-/

namespace Alpaka

open Math.Strides (offset offset_last)

variable {w n : ℕ}

/-- The layout of an allocation on the host with `w`-bit indices and 64-bit sizes. -/
def machineAlloc (sizeofValue alignment : ℕ) (extents : Vec (BitVec w) (n + 1)) (ptr : ℕ) :
    BitVec 64 × MdSpan (BitVec w) n :=
  alloc (BitVec.setWidth 64) sizeofValue alignment extents ptr

/-- The byte offset that copies use: pitches and indices are cast to sizes. -/
def MdSpan.pitchSum (span : MdSpan (BitVec w) n) (idx : Vec (BitVec w) (n + 1)) : ℕ :=
  (∑ d, (idx.eraseBack d).toNat * (span.pitch d).toNat) + idx.back.toNat * span.sizeofValue

/-- The exact size and pitches of an allocation. -/
def exactDescription (sizeofValue alignment : ℕ) (extents : Vec (BitVec w) (n + 1)) :
    ℕ × Vec ℕ (n + 1) :=
  emulatedAlignedMemDescription id sizeofValue alignment fun d => (extents d).toNat

/-- Pitches and size of an allocation are exact, and indexing finds the elements that
copies find. -/
structure Agrees (sizeofValue alignment : ℕ) (extents : Vec (BitVec w) (n + 1)) (ptr : ℕ) :
    Prop where
  pitches : ∀ d, ((machineAlloc sizeofValue alignment extents ptr).2.getPitches d).toNat =
    (exactDescription sizeofValue alignment extents).2 d
  size : (machineAlloc sizeofValue alignment extents ptr).1.toNat =
    (exactDescription sizeofValue alignment extents).1
  offsets : ∀ idx, (∀ d, idx d < extents d) →
    (machineAlloc sizeofValue alignment extents ptr).2.byteOffset BitVec.toNat idx =
      (machineAlloc sizeofValue alignment extents ptr).2.pitchSum idx

/-- The exact pitches and the offset of the last element fit into the index type, and
the exact size fits into a size. -/
structure Representable (sizeofValue alignment : ℕ) (extents : Vec (BitVec w) (n + 1)) :
    Prop where
  pitches : ∀ d, (exactDescription sizeofValue alignment extents).2 d < 2 ^ w
  size : (exactDescription sizeofValue alignment extents).1 < 2 ^ 64
  last : (∀ d, 0 < (extents d).toNat) →
    offset (exactDescription sizeofValue alignment extents).2 (fun d => (extents d).toNat - 1) <
      2 ^ w

/-! ## Arithmetic modulo a power of two -/

/-- Rounding down to a divisor of the modulus. -/
private theorem mod_div_mul {divisor modulus : ℕ} (divides : divisor ∣ modulus) (number : ℕ) :
    number % modulus / divisor * divisor = number / divisor * divisor % modulus := by
  obtain ⟨factor, rfl⟩ := divides
  rw [Nat.mod_mul_right_div_self, Nat.mul_comm divisor factor, Nat.mul_mod_mul_right]

/-- Rounding up to the alignment. -/
private theorem toNat_rowPitch (bits sizeofValue : ℕ) (extent : BitVec w) :
    (divCeil (extent * (sizeofValue : BitVec w)) ((2 ^ bits : ℕ) : BitVec w) *
        ((2 ^ bits : ℕ) : BitVec w)).toNat =
      divCeil (extent.toNat * sizeofValue) (2 ^ bits) * 2 ^ bits % 2 ^ w := by
  rcases Nat.lt_or_ge bits w with narrow | wide
  · have whole : extent * (sizeofValue : BitVec w) + ((2 ^ bits : ℕ) : BitVec w) - 1 =
        ((extent.toNat * sizeofValue + 2 ^ bits - 1 : ℕ) : BitVec w) := by
      have positive := Nat.two_pow_pos bits
      have split : extent.toNat * sizeofValue + 2 ^ bits =
          extent.toNat * sizeofValue + 2 ^ bits - 1 + 1 := by omega
      have cast : extent * (sizeofValue : BitVec w) + ((2 ^ bits : ℕ) : BitVec w) =
          ((extent.toNat * sizeofValue + 2 ^ bits : ℕ) : BitVec w) := by
        rw [Nat.cast_add, Nat.cast_mul, natCast_toNat]
      rw [cast, split, Nat.cast_succ, add_sub_cancel_right, Nat.add_sub_cancel]
    have below : 2 ^ bits % 2 ^ w = 2 ^ bits :=
      Nat.mod_eq_of_lt (Nat.pow_lt_pow_right (by decide) narrow)
    unfold divCeil
    rw [whole, BitVec.toNat_mul, BitVec.toNat_udiv, toNat_cast, toNat_cast, below,
      mod_div_mul (Nat.pow_dvd_pow 2 narrow.le), Nat.mod_mod]
  · have zero : ((2 ^ bits : ℕ) : BitVec w) = 0 := by
      apply BitVec.eq_of_toNat_eq
      rw [toNat_cast, Nat.mod_eq_zero_of_dvd (Nat.pow_dvd_pow 2 wide)]
      rfl
    rw [zero, mul_zero]
    exact (Nat.mod_eq_zero_of_dvd
      ((Nat.pow_dvd_pow 2 wide).trans (Nat.dvd_mul_left _ _))).symm

/-- Pitches are exact modulo the width. -/
private theorem toNat_calculatePitches {sizeofElem rowPitchBytes : ℕ} {rowPitch : BitVec w}
    (row : rowPitch.toNat = rowPitchBytes % 2 ^ w) (extents : Vec (BitVec w) (n + 2))
    (d : Fin (n + 2)) :
    (calculatePitches (sizeofElem : BitVec w) rowPitch extents d).toNat =
      calculatePitches sizeofElem rowPitchBytes (fun d => (extents d).toNat) d % 2 ^ w := by
  induction n with
  | zero =>
      match d with
      | 0 => exact row
      | 1 => exact toNat_cast sizeofElem
  | succ n ih =>
      have faster := ih (Vec.rshrink extents)
      cases d using Fin.cases with
      | zero =>
          change (extents 1 * calculatePitches (sizeofElem : BitVec w) rowPitch
            (Vec.rshrink extents) 0).toNat = (extents 1).toNat * _ % 2 ^ w
          rw [BitVec.toNat_mul, faster 0, Nat.mul_mod_mod]
          rfl
      | succ d => exact faster d

/-- Summing up in the index type. -/
theorem toNat_foldl (start : BitVec w) (f : Fin n → BitVec w) :
    (Fin.foldl n (fun total d => total + f d) start).toNat =
      (start.toNat + ∑ d, (f d).toNat) % 2 ^ w := by
  induction n with
  | zero =>
      rw [Fin.foldl_zero, Fin.sum_univ_zero, Nat.add_zero, Nat.mod_eq_of_lt start.isLt]
  | succ n ih =>
      rw [Fin.foldl_succ_last, BitVec.toNat_add, ih, Fin.sum_univ_castSucc, Nat.mod_add_mod,
        Nat.add_assoc]

/-- Indexing finds what copies find modulo the width. -/
theorem MdSpan.byteOffset_eq_pitchSum (span : MdSpan (BitVec w) (n + 1))
    (idx : Vec (BitVec w) (n + 2)) :
    span.byteOffset BitVec.toNat idx = span.pitchSum idx % 2 ^ w := by
  have loop := toNat_foldl ((span.sizeofValue : BitVec w) * idx.back) fun d =>
    span.pitch d * idx d.castSucc
  refine loop.trans ?_
  unfold MdSpan.pitchSum
  simp only [BitVec.toNat_mul, toNat_cast]
  have column : span.sizeofValue % 2 ^ w * idx.back.toNat % 2 ^ w ≡
      idx.back.toNat * span.sizeofValue [MOD 2 ^ w] := by
    rw [Nat.mul_comm idx.back.toNat]
    exact (Nat.mod_modEq _ _).trans ((Nat.mod_modEq _ _).mul_right _)
  have rows : ∑ d : Fin (n + 1), ((span.pitch d).toNat * (idx d.castSucc).toNat % 2 ^ w) ≡
      ∑ d : Fin (n + 1), (idx.eraseBack d).toNat * (span.pitch d).toNat [MOD 2 ^ w] := by
    unfold Nat.ModEq
    rw [← Finset.sum_nat_mod]
    simp only [Nat.mul_comm, Vec.eraseBack]
  rw [Nat.add_comm]
  exact rows.add column

/-- The view with its extents and pitches as numbers. -/
def MdSpan.toNats (span : MdSpan (BitVec w) n) : MdSpan ℕ n :=
  ⟨span.data, span.sizeofValue, span.extents.toNats, span.pitch.toNats⟩

/-- Copies add up the pitches as numbers. -/
theorem MdSpan.pitchSum_eq_offset (span : MdSpan (BitVec w) n) (idx : Vec (BitVec w) (n + 1)) :
    span.pitchSum idx = offset span.toNats.getPitches idx.toNats := by
  rw [offset_last, MdSpan.getPitches, Fin.init_snoc, Fin.snoc_last, Nat.cast_id]
  rfl

/-- An element is where it is in exact arithmetic, if there is one dimension or its offset is
representable. -/
theorem MdSpan.ptr_toNats (span : MdSpan (BitVec w) n) {idx : Vec (BitVec w) (n + 1)}
    (room : n = 0 ∨ offset span.toNats.getPitches idx.toNats < 2 ^ w) :
    span.ptr BitVec.toNat idx = span.toNats.ptr id idx.toNats := by
  rw [MdSpan.ptr_eq_offset, ← span.pitchSum_eq_offset]
  rw [← span.pitchSum_eq_offset] at room
  refine congrArg (span.data + ·) ?_
  cases n with
  | zero =>
      unfold MdSpan.pitchSum
      rw [Fin.sum_univ_zero, Nat.zero_add]
      rfl
  | succ n =>
      rw [span.byteOffset_eq_pitchSum, Nat.mod_eq_of_lt (room.resolve_left (Nat.succ_ne_zero n))]

/-! ## Rows without gaps -/

/-- Pitches without gaps are exact modulo the width. -/
private theorem toNat_calculatePitchesFromExtents (sizeofElem : ℕ)
    (extents : Vec (BitVec w) (n + 1)) (d : Fin (n + 1)) :
    (calculatePitchesFromExtents (sizeofElem : BitVec w) extents d).toNat =
      calculatePitchesFromExtents sizeofElem extents.toNats d % 2 ^ w := by
  induction n with
  | zero => exact toNat_cast sizeofElem
  | succ n ih =>
      have faster := ih (Vec.rshrink extents)
      cases d using Fin.cases with
      | zero =>
          change (extents 1 * calculatePitchesFromExtents (sizeofElem : BitVec w)
            (Vec.rshrink extents) 0).toNat = (extents 1).toNat * _ % 2 ^ w
          rw [BitVec.toNat_mul, faster 0, Nat.mul_mod_mod]
          rfl
      | succ d => exact faster d

/-- The view on rows without gaps. -/
def contiguousSpan {T : Type} [Mul T] [NatCast T] (sizeofValue : ℕ) (extents : Vec T (n + 1)) :
    MdSpan T n :=
  ⟨0, sizeofValue, extents,
    (calculatePitchesFromExtents (sizeofValue : T) extents).eraseBack⟩

/-- Without gaps an offset counts the elements in front. -/
theorem contiguousSpan_byteOffset (sizeofValue : ℕ) (extents idx : Vec ℕ (n + 1)) :
    (contiguousSpan sizeofValue extents).byteOffset id idx =
      Math.MixedRadix.value extents idx * sizeofValue := by
  have last := calculatePitchesFromExtents_last sizeofValue extents
  rw [MdSpan.byteOffset_eq]
  have pitches : (contiguousSpan sizeofValue extents).getPitches =
      calculatePitchesFromExtents sizeofValue extents := by
    unfold MdSpan.getPitches contiguousSpan
    dsimp only
    rw [Nat.cast_id]
    nth_rewrite 2 [← last]
    exact Fin.snoc_init_self _
  rw [pitches, Math.Strides.offset_contiguous
    (calculatePitchesFromExtents_contiguous sizeofValue extents), last]

/-- Indexing rows without gaps is exact if there is one dimension or the offset is
representable. -/
theorem contiguousSpan_toNats {sizeofValue : ℕ} {extents idx : Vec (BitVec w) (n + 1)}
    (room : n = 0 ∨ Math.MixedRadix.value extents.toNats idx.toNats * sizeofValue < 2 ^ w) :
    (contiguousSpan sizeofValue extents).byteOffset BitVec.toNat idx =
      Math.MixedRadix.value extents.toNats idx.toNats * sizeofValue := by
  rw [← contiguousSpan_byteOffset] at room ⊢
  cases n with
  | zero => rfl
  | succ n =>
      have exact := room.resolve_left (Nat.succ_ne_zero n)
      refine Eq.trans ?_ (Nat.mod_eq_of_lt exact)
      rw [MdSpan.byteOffset_eq_pitchSum, MdSpan.byteOffset_eq, offset_last]
      unfold MdSpan.getPitches contiguousSpan MdSpan.pitchSum
      rw [Fin.init_snoc, Fin.snoc_last]
      refine Nat.ModEq.add_right _ ?_
      unfold Nat.ModEq offset
      rw [Finset.sum_nat_mod]
      refine Eq.trans ?_ (Finset.sum_nat_mod _ _ _).symm
      refine congrArg (· % 2 ^ w) (Finset.sum_congr rfl fun d _ => ?_)
      unfold Vec.eraseBack Fin.init
      rw [toNat_calculatePitchesFromExtents, Nat.mul_mod_mod]
      rfl

section Layout

variable {sizeofValue bits ptr : ℕ} {extents : Vec (BitVec w) (n + 2)}

private theorem toNat_getPitches (sizeofValue bits ptr : ℕ) (extents : Vec (BitVec w) (n + 2))
    (d : Fin (n + 2)) :
    ((machineAlloc sizeofValue (2 ^ bits) extents ptr).2.getPitches d).toNat =
      (exactDescription sizeofValue (2 ^ bits) extents).2 d % 2 ^ w := by
  cases d using Fin.lastCases with
  | last =>
      have fastest := (emulatedAlignedMemDescription_description sizeofValue
        (Nat.two_pow_pos bits) fun d => (extents d).toNat).fastest
      rw [MdSpan.getPitches, Fin.snoc_last, exactDescription, fastest]
      exact toNat_cast sizeofValue
  | cast d =>
      rw [MdSpan.getPitches, Fin.snoc_castSucc]
      exact toNat_calculatePitches (toNat_rowPitch bits sizeofValue extents.back) extents d.castSucc

private theorem toNat_setWidth_of_lt {number : BitVec w} {exact : ℕ}
    (same : number.toNat = exact % 2 ^ w) (below : exact < 2 ^ w) :
    (number.setWidth 64).toNat = exact % 2 ^ 64 := by
  rw [BitVec.toNat_setWidth, same, Nat.mod_eq_of_lt below]

private theorem toNat_size
    (below : (exactDescription sizeofValue (2 ^ bits) extents).2 0 < 2 ^ w) :
    (machineAlloc sizeofValue (2 ^ bits) extents ptr).1.toNat =
      (exactDescription sizeofValue (2 ^ bits) extents).1 % 2 ^ 64 := by
  have pitch := toNat_setWidth_of_lt (toNat_getPitches sizeofValue bits ptr extents 0) below
  have machine : (machineAlloc sizeofValue (2 ^ bits) extents ptr).1 =
      BitVec.setWidth 64 ((machineAlloc sizeofValue (2 ^ bits) extents ptr).2.getPitches 0) *
        BitVec.setWidth 64 (extents 0) := rfl
  rw [machine, BitVec.toNat_mul, pitch, BitVec.toNat_setWidth, ← Nat.mul_mod]
  rfl

/-- Adding up pitches gives the exact offset once the pitches are exact. -/
private theorem pitchSum_eq
    (below : ∀ d, (exactDescription sizeofValue (2 ^ bits) extents).2 d < 2 ^ w)
    (idx : Vec (BitVec w) (n + 2)) :
    (machineAlloc sizeofValue (2 ^ bits) extents ptr).2.pitchSum idx =
      offset (exactDescription sizeofValue (2 ^ bits) extents).2 fun d => (idx d).toNat := by
  have fastest : (exactDescription sizeofValue (2 ^ bits) extents).2 (Fin.last (n + 1)) =
      sizeofValue :=
    (emulatedAlignedMemDescription_description sizeofValue (Nat.two_pow_pos bits)
      fun d => (extents d).toNat).fastest
  rw [offset_last, fastest]
  unfold MdSpan.pitchSum
  refine congrArg (· + _) (Finset.sum_congr rfl fun d _ => congrArg (_ * ·) ?_)
  have pitch := toNat_getPitches sizeofValue bits ptr extents d.castSucc
  rw [MdSpan.getPitches, Fin.snoc_castSucc, Nat.mod_eq_of_lt (below _)] at pitch
  exact pitch

end Layout

/-- **Machine arithmetic.** The layout is exact and indexing finds what copies find if
and only if the pitches, the offset of the last element and the size are
representable. -/
theorem indexing_exact_iff (sizeofValue bits : ℕ) (extents : Vec (BitVec w) (n + 2)) (ptr : ℕ) :
    Agrees sizeofValue (2 ^ bits) extents ptr ↔ Representable sizeofValue (2 ^ bits) extents := by
  constructor
  · intro agrees
    have below (d : Fin (n + 2)) :
        (exactDescription sizeofValue (2 ^ bits) extents).2 d < 2 ^ w := by
      rw [← agrees.pitches d]
      exact BitVec.isLt _
    refine ⟨below, ?_, fun positive => ?_⟩
    · rw [← agrees.size]
      exact BitVec.isLt _
    · have last (d : Fin (n + 2)) : (((extents d).toNat - 1 : ℕ) : BitVec w).toNat =
          (extents d).toNat - 1 := by
        rw [toNat_cast, Nat.mod_eq_of_lt ((Nat.sub_le _ _).trans_lt (extents d).isLt)]
      have offsets := agrees.offsets (fun d => ((extents d).toNat - 1 : ℕ)) fun d => by
        rw [BitVec.lt_def, last]
        exact Nat.sub_lt (positive d) Nat.one_pos
      rw [MdSpan.byteOffset_eq_pitchSum, pitchSum_eq below] at offsets
      simp only [last] at offsets
      rw [← offsets]
      exact Nat.mod_lt _ (Nat.two_pow_pos w)
  · intro representable
    have below (d : Fin (n + 2)) := representable.pitches d
    refine ⟨fun d => ?_, ?_, fun idx inside => ?_⟩
    · rw [toNat_getPitches, Nat.mod_eq_of_lt (below d)]
    · rw [toNat_size (below 0), Nat.mod_eq_of_lt representable.size]
    · have positive (d : Fin (n + 2)) : (idx d).toNat < (extents d).toNat := inside d
      rw [MdSpan.byteOffset_eq_pitchSum, pitchSum_eq below, Nat.mod_eq_of_lt]
      refine (Math.Strides.offset_mono _ fun d => ?_).trans_lt
        (representable.last fun d => Nat.zero_lt_of_lt (positive d))
      exact Nat.le_sub_one_of_lt (positive d)

/-- The rows of a picture of 65537 by 65536 bytes with 32-bit indices: the last one
starts over at the begin of the picture. -/
theorem indexing_wraps :
    ¬ Agrees 1 64 (![65537, 65536] : Vec (BitVec 32) 2) 4096 := by
  intro agrees
  have offsets := agrees.offsets ![65536, 0] (by decide)
  revert offsets
  decide

end Alpaka
