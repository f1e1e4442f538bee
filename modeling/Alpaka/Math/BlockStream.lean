import Mathlib.Algebra.Ring.Periodic
import Mathlib.Data.Nat.ModEq
import Mathlib.Data.Nat.Prime.Basic
import Mathlib.Dynamics.PeriodicPts.Defs
import Mathlib.Tactic.Ring

/-! # Streams of blocks

A counter-based generator delivers the components of one block after the other.
When the blocks belong to a counter that wraps around at a power of two, and
different counters have different blocks, a stream with its first elements
dropped is a stream of blocks again only if whole blocks were dropped
(`Math.BlockStream.stream_drop_iff`): otherwise the stream would be periodic with
a period that is no multiple of the block size, and all blocks would be equal.
-/

namespace Math.BlockStream

variable {α : Type*}

/-- The components of the blocks from a counter on. -/
def stream (block : ℕ → Fin 4 → α) (start j : ℕ) : α :=
  block (start + j / 4) ⟨j % 4, Nat.mod_lt _ (by decide)⟩

/-- Blocks that repeat with their counters, and only then. -/
structure Wraps (block : ℕ → Fin 4 → α) (bits : ℕ) : Prop where
  block_eq_iff : ∀ first second, block first = block second ↔ first ≡ second [MOD 2 ^ bits]

variable {block : ℕ → Fin 4 → α} {bits : ℕ}

theorem stream_add_mul (start skipped j : ℕ) :
    stream block start (4 * skipped + j) = stream block (start + skipped) j := by
  unfold stream
  congr 1
  · rw [Nat.mul_add_div (by decide), Nat.add_assoc]
  · simp only [Nat.mul_add_mod]

theorem stream_congr (wraps : Wraps block bits) {first second : ℕ}
    (same : first ≡ second [MOD 2 ^ bits]) (j : ℕ) :
    stream block first j = stream block second j := by
  unfold stream
  rw [(wraps.block_eq_iff _ _).mpr (same.add_right (j / 4))]

/-- Streams that agree have the same first block. -/
theorem modEq_of_stream_eq (wraps : Wraps block bits) {first second : ℕ}
    (same : ∀ j, stream block first j = stream block second j) :
    first ≡ second [MOD 2 ^ bits] := by
  apply (wraps.block_eq_iff first second).mp
  funext i
  have component := same i
  simp only [stream, Nat.div_eq_of_lt i.isLt, Nat.mod_eq_of_lt i.isLt, Nat.add_zero] at component
  exact component

/-- Two periods of a sequence have their greatest common divisor as a period. -/
theorem periodic_gcd {sequence : ℕ → α} {first second : ℕ}
    (left : Function.Periodic sequence first) (right : Function.Periodic sequence second) :
    Function.Periodic sequence (first.gcd second) := by
  have shifts (count : ℕ) (s : ℕ → α) :
      (fun (t : ℕ → α) j => t (j + 1))^[count] s = fun j => s (j + count) := by
    induction count generalizing s with
    | zero => rfl
    | succ count ih =>
        rw [Function.iterate_succ_apply, ih]
        funext j
        rw [Nat.add_assoc, Nat.add_comm count]
  have point {period : ℕ} (periodic : Function.Periodic sequence period) :
      Function.IsPeriodicPt (fun (t : ℕ → α) j => t (j + 1)) period sequence :=
    (shifts period sequence).trans (funext periodic)
  have both := (point left).gcd (point right)
  intro j
  exact congrFun ((shifts _ _).symm.trans both) j

/-- A stream does not repeat at a distance that cuts through the blocks. -/
theorem not_periodic (wraps : Wraps block bits) (several : 0 < bits) (start : ℕ) {period : ℕ}
    (cuts : ¬ 4 ∣ period) : ¬ Function.Periodic (stream block start) period := by
  intro periodic
  have whole : Function.Periodic (stream block start) (2 ^ (bits + 2)) := by
    intro j
    have turn : start + 2 ^ bits ≡ start [MOD 2 ^ bits] := Nat.add_modEq_right
    rw [show j + 2 ^ (bits + 2) = 4 * 2 ^ bits + j by ring, stream_add_mul]
    exact stream_congr wraps turn j
  have common := periodic_gcd periodic whole
  obtain ⟨exponent, _, power⟩ :=
    (Nat.dvd_prime_pow Nat.prime_two).mp (Nat.gcd_dvd_right period (2 ^ (bits + 2)))
  have small : exponent < 2 := by
    by_contra large
    apply cuts
    calc 4 = 2 ^ 2 := rfl
      _ ∣ 2 ^ exponent := Nat.pow_dvd_pow 2 (not_lt.mp large)
      _ = period.gcd (2 ^ (bits + 2)) := power.symm
      _ ∣ period := Nat.gcd_dvd_left _ _
  obtain ⟨turns, four⟩ : period.gcd (2 ^ (bits + 2)) ∣ 4 := by
    rw [power]
    exact Nat.pow_dvd_pow 2 small.le
  have next : start + 1 ≡ start [MOD 2 ^ bits] := by
    apply modEq_of_stream_eq wraps
    intro j
    rw [← stream_add_mul start 1 j, Nat.mul_one, Nat.add_comm, four, Nat.mul_comm]
    exact common.nat_mul turns j
  have one : 2 ^ bits ∣ 1 := Nat.add_modEq_left_iff.mp next
  have large : 2 ^ 1 ≤ 2 ^ bits := Nat.pow_le_pow_right (by decide) several
  have := Nat.le_of_dvd Nat.one_pos one
  omega

/-- **Dropping elements.** A stream with its first elements dropped is a given
stream exactly when whole blocks were dropped and the counters agree. -/
theorem stream_drop_iff (wraps : Wraps block bits) (several : 0 < bits) (first second dropped : ℕ) :
    (∀ j, stream block first (dropped + j) = stream block second j) ↔
      dropped % 4 = 0 ∧ first + dropped / 4 ≡ second [MOD 2 ^ bits] := by
  refine ⟨fun same => ?_, fun ⟨whole, agree⟩ j => ?_⟩
  · by_cases whole : dropped % 4 = 0
    · refine ⟨whole, modEq_of_stream_eq wraps fun j => ?_⟩
      rw [← same, ← stream_add_mul, Nat.mul_div_cancel' (Nat.dvd_of_mod_eq_zero whole)]
    · exfalso
      obtain ⟨ahead, shift⟩ : ∃ ahead, ahead = second + (2 ^ bits - 1) * first +
        2 ^ bits * (dropped + 1) := ⟨_, rfl⟩
      have positive : 0 < 2 ^ bits := Nat.two_pow_pos bits
      have later : dropped + 1 ≤ ahead := by
        have := Nat.le_mul_of_pos_left (dropped + 1) positive
        omega
      have agree : first + ahead ≡ second [MOD 2 ^ bits] := by
        have total : first + ahead = second + 2 ^ bits * (first + (dropped + 1)) := by
          obtain ⟨rest, power⟩ : ∃ rest, 2 ^ bits = rest + 1 := ⟨2 ^ bits - 1, by omega⟩
          rw [shift, power, Nat.add_sub_cancel]
          ring
        rw [total]
        exact Nat.add_modulus_mul_modEq_iff.mpr rfl
      have cuts : ¬ 4 ∣ 4 * ahead - dropped := by omega
      apply not_periodic wraps several first cuts
      · intro j
        have far (x : ℕ) : stream block first (dropped + x + (4 * ahead - dropped)) =
            stream block first (dropped + x) := by
          rw [show dropped + x + (4 * ahead - dropped) = 4 * ahead + x by omega, stream_add_mul,
            stream_congr wraps agree, ← same]
        have turn (x : ℕ) : stream block first (4 * (2 ^ bits * dropped) + x) =
            stream block first x := by
          rw [stream_add_mul]
          exact stream_congr wraps (Nat.add_modulus_mul_modEq_iff.mpr rfl) x
        have room : dropped ≤ 4 * (2 ^ bits * dropped) := by
          have := Nat.le_mul_of_pos_left dropped positive
          omega
        obtain ⟨x, split⟩ := Nat.exists_eq_add_of_le (room.trans (Nat.le_add_right _ j))
        rw [← turn (j + _), ← Nat.add_assoc, split, far, ← split, turn]
  · rw [show dropped + j = 4 * (dropped / 4) + j by omega, stream_add_mul]
    exact stream_congr wraps agree j

end Math.BlockStream
