import Alpaka.OnAcc.IdxMapWidth
import Alpaka.OnAcc.Phases

/-! # Loops of one dimension in machine arithmetic

A worker of a one-dimensional group visits what it visits in exact arithmetic if nothing
overflows (`Alpaka.lineIdxs_words`).
-/

namespace Alpaka

open Math (Settles)
open IdxContainer (LoopFits)

variable {w : ℕ}

theorem Vec.toNats_line (number : BitVec w) : Vec.toNats ![number] = ![number.toNat] := by
  funext d
  rw [Fin.fin_one_eq_zero d]
  rfl

section Line

variable {worker workers first stop : BitVec w}

/-- The indices of a line as numbers. -/
theorem toNats_lineRange (some : worker < workers) (first stop : BitVec w) :
    (⟨![first], ![stop], ![1]⟩ : IdxRange (BitVec w) 1).toNats =
      ⟨![first.toNat], ![stop.toNat], ![1]⟩ := by
  have positive (d : Fin 1) : 0 < ![workers] d := by
    rw [Fin.fin_one_eq_zero d, BitVec.lt_def]
    exact (Nat.zero_mod _).trans_lt (Nat.zero_lt_of_lt some)
  unfold IdxRange.toNats
  rw [Vec.toNats_line, Vec.toNats_line, Vec.toNats_line, toNat_one positive]

theorem lineRange_proper (some : worker < workers) (ordered : first ≤ stop) :
    (⟨![first], ![stop], ![1]⟩ : IdxRange (BitVec w) 1).toNats.Proper := by
  rw [toNats_lineRange some]
  refine ⟨fun d => ?_, fun d => ?_⟩ <;> rw [Fin.fin_one_eq_zero d]
  · exact BitVec.le_def.mp ordered
  · exact Nat.one_pos

/-- The loop of a worker, when nothing overflows. -/
theorem lineIdxs_words (policy : Policy) (member : worker < workers) (ordered : first ≤ stop)
    (fits : LoopFits ⟨![first], ![stop], ![1]⟩ ![workers] policy.traverse policy.layout) :
    Settles (lineIdxs policy worker workers first stop 1)
      ((lineShare policy worker.toNat workers.toNat first.toNat stop.toNat 1).map
        (Nat.cast : ℕ → BitVec w)) := by
  have positive (d : Fin 1) : 0 < ![workers] d := by
    rw [Fin.fin_one_eq_zero d, BitVec.lt_def]
    exact (Nat.zero_mod _).trans_lt (Nat.zero_lt_of_lt member)
  have inside : ![worker] ∈ box ![workers] := fun d => by
    rw [Fin.fin_one_eq_zero d]
    exact member
  have range := toNats_lineRange member first stop
  have proper := lineRange_proper member ordered
  have representable := representable_unit proper fun d => by
    rw [range, Fin.fin_one_eq_zero d]
    rfl
  obtain ⟨yields, divides⟩ := IdxContainer.words_yield proper positive representable
    policy.traverse policy.layout fits inside
  rw [range, Vec.toNats_line, Vec.toNats_line] at yields
  have same : (lineShare policy worker.toNat workers.toNat first.toNat stop.toNat 1).map
      (Nat.cast : ℕ → BitVec w) = ((makeIdxMap ⟨![worker.toNat], ![workers.toNat]⟩
        ⟨![first.toNat], ![stop.toNat], ![1]⟩ policy.traverse policy.layout).indices.map
          Vec.ofNats).map fun idx => idx 0 := by
    unfold lineShare
    rw [List.map_map, List.map_map]
    rfl
  rw [same]
  exact (yields.run divides).bind (Settles.pure _)

end Line

end Alpaka
