import Alpaka.Mem.FlatWidth
import Alpaka.Mem.TiledTraversal

/-! # Tiled traversal in machine arithmetic

An odometer digit steps past the last position of its dimension before it is compared with
the end. With the strided layout and all dimensions selected, the threads share out a range
that is not empty exactly when in every dimension the positions that the threads step to
behind the last one are not below the end modulo the width
(`Alpaka.TiledIdxContainer.sharesOut_iff`).
-/

namespace Alpaka

namespace TiledIdxContainer

open Math.MixedRadix

variable {w n : ℕ}

/-- The thread of a strided container over all dimensions of a whole thread space. -/
def machineThread (range : IdxRange (BitVec w) (n + 1)) (threadCount : Vec (BitVec w) (n + 1))
    (selection : CSelect (n + 1) (n + 1)) (idx : Vec (BitVec w) (n + 1)) :
    TiledIdxContainer (BitVec w) n n :=
  ⟨range, ⟨idx, threadCount⟩, .strided, selection⟩

/-- All threads terminate and share out the range. -/
def SharesOut (range : IdxRange (BitVec w) (n + 1)) (threadCount : Vec (BitVec w) (n + 1))
    (selection : CSelect (n + 1) (n + 1)) : Prop :=
  Math.Loop.SharesOut (fun idx => (machineThread range threadCount selection idx).loop)
    (fun idx => (machineThread range threadCount selection idx).begin) (box threadCount)
    (range.words selection)

/-- No thread takes a position behind the last one for one of the range. -/
def Stops (range : IdxRange (BitVec w) n) (threadCount : Vec (BitVec w) n) (d : Fin n) : Prop :=
  ∀ position, range.toNats.logicalExtent id d ≤ position →
    position < range.toNats.logicalExtent id d + (threadCount d).toNat →
      range.endMd d ≤ range.component d position

/-- A dimension stops if what the threads step to behind the last position is
representable. -/
theorem stops_of_representable {range : IdxRange (BitVec w) n} (proper : range.toNats.Proper)
    {threadCount : Vec (BitVec w) n} {d : Fin n}
    (representable : range.toNats.beginMd d + (range.toNats.logicalExtent id d +
      (threadCount d).toNat) * range.toNats.strideMd d ≤ 2 ^ w) :
    Stops range threadCount d := by
  intro position behind within
  have positive := proper.positive d
  have last := Nat.mul_le_mul_right (range.toNats.strideMd d) (Nat.succ_le_of_lt within)
  have beyond := mt (IdxRange.lt_logicalExtent_iff proper id d position).mpr (not_lt.mpr behind)
  rw [Nat.succ_mul] at last
  rw [BitVec.le_def, IdxRange.component, toNat_cast, Nat.mod_eq_of_lt (by omega)]
  exact not_lt.mp beyond

/-! ## The odometer of a thread -/

section Thread

variable {range : IdxRange (BitVec w) (n + 1)} {threadCount : Vec (BitVec w) (n + 1)}
  {selection : CSelect (n + 1) (n + 1)} {idx : Vec (BitVec w) (n + 1)}

/-- The positions after the given numbers of steps. -/
private def reached (threadCount : Vec (BitVec w) (n + 1)) (selection : CSelect (n + 1) (n + 1))
    (idx : Vec (BitVec w) (n + 1)) (numeral : Vec ℕ (n + 1)) : Vec ℕ (n + 1) :=
  position (fun i => (idx (selection i)).toNat) (fun i => (threadCount (selection i)).toNat) numeral

/-- The digits go through the components. -/
private def machineOdometer (range : IdxRange (BitVec w) (n + 1))
    (threadCount : Vec (BitVec w) (n + 1)) (selection : CSelect (n + 1) (n + 1))
    (idx : Vec (BitVec w) (n + 1)) : Math.Odometer (BitVec w) n where
  advance i x := x + threadCount (selection i) * range.strideMd (selection i)
  full i x := decide (range.endMd (selection i) ≤ x)
  first i := idx (selection i) * range.strideMd (selection i) + range.beginMd (selection i)

private theorem machineOdometer_value (i : Fin (n + 1)) (count : ℕ) :
    (machineOdometer range threadCount selection idx).value i count = range.component (selection i)
      ((idx (selection i)).toNat + count * (threadCount (selection i)).toNat) := by
  have cast (d : Fin (n + 1)) : ((range.toNats.beginMd d : ℕ) : BitVec w) = range.beginMd d ∧
      ((range.toNats.strideMd d : ℕ) : BitVec w) = range.strideMd d :=
    ⟨natCast_toNat _, natCast_toNat _⟩
  unfold IdxRange.component
  push_cast
  rw [(cast _).1, (cast _).2, natCast_toNat, natCast_toNat]
  induction count with
  | zero =>
      change idx (selection i) * range.strideMd (selection i) + range.beginMd (selection i) = _
      push_cast
      ring
  | succ count ih =>
      rw [Math.Odometer.value_succ, ih]
      change _ + threadCount (selection i) * range.strideMd (selection i) = _
      push_cast
      ring

private theorem machineOdometer_full (i : Fin (n + 1)) (count : ℕ) :
    (machineOdometer range threadCount selection idx).full i
        ((machineOdometer range threadCount selection idx).value i count) =
      decide (range.endMd (selection i) ≤ range.component (selection i)
        ((idx (selection i)).toNat + count * (threadCount (selection i)).toNat)) := by
  rw [machineOdometer_value]
  rfl

/-- The iterator of a strided thread before any step. -/
theorem machine_begin (range : IdxRange (BitVec w) (n + 1))
    (threadCount : Vec (BitVec w) (n + 1)) (selection : CSelect (n + 1) (n + 1))
    (idx : Vec (BitVec w) (n + 1)) :
    (machineThread range threadCount selection idx).begin =
      ConstIterator.make selection range.beginMd (fun d => idx d * range.strideMd d)
        range.distance fun d => threadCount d * range.strideMd d := by
  have mapped : (ThreadSpace.mk idx threadCount).mapTo selection = ⟨idx, threadCount⟩ :=
    ThreadSpace.mapTo_of_le le_rfl _ _
  simp only [«begin», machineThread, mapped]

/-- It compares with the end of the range. -/
theorem begin_extent (threadCount idx : Vec (BitVec w) (n + 1)) (i : Fin (n + 1)) :
    (machineThread range threadCount selection idx).begin.extent i = range.endMd (selection i) := by
  rw [machine_begin]
  exact BitVec.sub_add_cancel _ _

/-- So does the end iterator. -/
theorem machine_end (threadCount idx : Vec (BitVec w) (n + 1)) :
    (machineThread range threadCount selection idx).end = range.endMd (selection 0) := by
  change range.beginMd (selection 0) + (range.endMd (selection 0) - range.beginMd (selection 0)) = _
  rw [BitVec.add_comm, BitVec.sub_add_cancel]

private theorem begin_turns (range : IdxRange (BitVec w) (n + 1))
    (threadCount : Vec (BitVec w) (n + 1)) (selection : CSelect (n + 1) (n + 1))
    (idx : Vec (BitVec w) (n + 1)) :
    (machineThread range threadCount selection idx).begin.Turns
      (machineOdometer range threadCount selection idx) where
  advance := fun i x => by
    rw [machine_begin]
    rfl
  full := fun i x => by
    rw [begin_extent]
    rfl
  first := fun i => by
    rw [machine_begin]
    rfl

private theorem first_eq (threadCount idx : Vec (BitVec w) (n + 1)) (i : Fin (n + 1)) :
    (machineOdometer range threadCount selection idx).first i =
      range.component (selection i) (idx (selection i)).toNat := by
  have start : (idx (selection i)).toNat + 0 * (threadCount (selection i)).toNat =
      (idx (selection i)).toNat := by rw [Nat.zero_mul, Nat.add_zero]
  rw [← start, ← machineOdometer_value]
  rfl

/-- The iterator with the given numbers of steps in every dimension. -/
private def shown (range : IdxRange (BitVec w) (n + 1)) (threadCount : Vec (BitVec w) (n + 1))
    (selection : CSelect (n + 1) (n + 1)) (idx : Vec (BitVec w) (n + 1)) (numeral : Vec ℕ (n + 1)) :
    ConstIterator (BitVec w) n n :=
  (machineThread range threadCount selection idx).begin.withDigits selection
    ((machineOdometer range threadCount selection idx).digits numeral)

/-- The components of the iterator. -/
private theorem shown_current (distinct : Function.Injective selection) (numeral : Vec ℕ (n + 1))
    (i : Fin (n + 1)) :
    (shown range threadCount selection idx numeral).current (selection i) =
      range.component (selection i) (reached threadCount selection idx numeral i) := by
  unfold shown
  rw [ConstIterator.withDigits_current _ distinct]
  exact machineOdometer_value i _

/-- The iterator points at the lattice point at its positions. -/
private theorem deref_shown (distinct : Function.Injective selection) (numeral : Vec ℕ (n + 1)) :
    (shown range threadCount selection idx numeral).current =
      Vec.ofNats (range.toNats.point selection (reached threadCount selection idx numeral)) := by
  funext d
  obtain ⟨i, rfl⟩ := ThreadSpace.surjective_of_full distinct le_rfl d
  rw [shown_current distinct, IdxRange.ofNats_point distinct]

private theorem done_shown (distinct : Function.Injective selection) (numeral : Vec ℕ (n + 1)) :
    (machineThread range threadCount selection idx).loop.done
        (shown range threadCount selection idx numeral) = true ↔
      range.endMd (selection 0) ≤
        range.component (selection 0) (reached threadCount selection idx numeral 0) := by
  rw [← shown_current distinct, ← machine_end threadCount idx]
  exact decide_eq_true_iff

/-- A thread whose fast components start below the end starts without steps. -/
private theorem begin_of_below (distinct : Function.Injective selection)
    (below : ∀ i : Fin n, range.component (selection i.succ) (idx (selection i.succ)).toNat <
      range.endMd (selection i.succ)) :
    (machineThread range threadCount selection idx).begin =
      shown range threadCount selection idx fun _ => 0 := by
  have current : (machineThread range threadCount selection idx).begin.current =
      (shown range threadCount selection idx fun _ => 0).current := by
    funext d
    obtain ⟨i, rfl⟩ := ThreadSpace.surjective_of_full distinct le_rfl d
    unfold shown
    rw [ConstIterator.withDigits_current _ distinct, machine_begin, make_current_of_below]
    · rfl
    · intro j
      have start := below j
      rw [← first_eq threadCount idx, ← begin_extent threadCount idx, machine_begin] at start
      exact start
  exact congrArg (fun current => { (machineThread range threadCount selection idx).begin with
    current := current }) current

/-- Any other thread is at the end from the start. -/
private theorem done_of_beyond {i : Fin n}
    (beyond : range.endMd (selection i.succ) ≤
      range.component (selection i.succ) (idx (selection i.succ)).toNat) :
    (machineThread range threadCount selection idx).loop.done
      (machineThread range threadCount selection idx).begin = true := by
  have stopped : (machineThread range threadCount selection idx).begin.current (selection 0) =
      range.endMd (selection 0) := by
    rw [machine_begin, make_current_of_beyond (i := i)]
    · exact BitVec.sub_add_cancel _ _
    · rw [BitVec.not_lt]
      rw [← first_eq threadCount idx, ← begin_extent threadCount idx, machine_begin] at beyond
      exact beyond
  apply decide_eq_true
  change _ ≤ (machineThread range threadCount selection idx).begin.current (selection 0)
  rw [machine_end, stopped]
  exact BitVec.le_refl _

/-- **One step.** -/
private theorem next_shown (distinct : Function.Injective selection) {radix : Vec ℕ (n + 1)}
    {number : ℕ} (positive : ∀ i, i ≠ 0 → 0 < radix i)
    (room : ∀ i, i ≠ 0 → ∀ count < radix i, range.component (selection i)
      ((idx (selection i)).toNat + count * (threadCount (selection i)).toNat) <
        range.endMd (selection i))
    (carries : ∀ i, i ≠ 0 → weight radix i ∣ number + 1 → place radix number i + 1 = radix i →
      range.endMd (selection i) ≤ range.component (selection i)
        ((idx (selection i)).toNat + radix i * (threadCount (selection i)).toNat)) :
    (shown range threadCount selection idx (place radix number)).next selection =
      shown range threadCount selection idx (place radix (number + 1)) := by
  have stepped := (begin_turns range threadCount selection idx).advance_withDigits distinct
    (Fin.last n)
      ((machineOdometer range threadCount selection idx).digits (place radix number))
  have turned : (machineOdometer range threadCount selection idx).turn _ = _ :=
    Math.Odometer.turn_digits number positive
      (fun i faster count below => by
        rw [machineOdometer_full]
        exact decide_eq_false (BitVec.not_le.mpr (room i faster _ below)))
      (fun i faster carried full => by
        rw [machineOdometer_full]
        exact decide_eq_true (carries i faster carried full))
  unfold shown
  rw [← turned]
  exact stepped

/-! ## When the odometers stop -/

/-- The numbers of steps a thread takes in every dimension. -/
private def lengths (range : IdxRange (BitVec w) (n + 1)) (threadCount : Vec (BitVec w) (n + 1))
    (selection : CSelect (n + 1) (n + 1)) (idx : Vec (BitVec w) (n + 1)) : Vec ℕ (n + 1) :=
  fun i => (Math.progression (idx (selection i)).toNat (threadCount (selection i)).toNat
    (range.toNats.logicalExtent id (selection i))).length

private theorem lt_lengths_iff (positive : ∀ d, 0 < threadCount d) (i : Fin (n + 1)) (count : ℕ) :
    count < lengths range threadCount selection idx i ↔
      (idx (selection i)).toNat + count * (threadCount (selection i)).toNat <
        range.toNats.logicalExtent id (selection i) :=
  Math.lt_length_progression_iff (toNats_positive positive _) _ _ _

/-- The steps of a thread within the range lead to components below its end. -/
private theorem lt_end_of_lt_lengths (proper : range.toNats.Proper)
    (positive : ∀ d, 0 < threadCount d) {i : Fin (n + 1)} {count : ℕ}
    (below : count < lengths range threadCount selection idx i) :
    range.component (selection i)
      ((idx (selection i)).toNat + count * (threadCount (selection i)).toNat) <
        range.endMd (selection i) :=
  IdxRange.component_lt proper ((lt_lengths_iff positive i count).mp below)

/-- The step behind the last one leads to a component that is not. -/
private theorem end_le_lengths (positive : ∀ d, 0 < threadCount d) (member : idx ∈ box threadCount)
    {i : Fin (n + 1)} (stops : Stops range threadCount (selection i)) :
    range.endMd (selection i) ≤ range.component (selection i) ((idx (selection i)).toNat +
      lengths range threadCount selection idx i * (threadCount (selection i)).toNat) := by
  apply stops
  · exact not_lt.mp (mt (lt_lengths_iff positive i _).mpr (lt_irrefl _))
  · exact Math.length_progression_lt (BitVec.lt_def.mp (member (selection i))) _

/-- The indices of a thread in exact arithmetic. -/
private theorem indices_words (proper : range.toNats.Proper) (positive : ∀ d, 0 < threadCount d)
    (distinct : Function.Injective selection) (member : idx ∈ box threadCount) :
    (ofThread range.toNats threadCount.toNats .strided selection idx.toNats).indices =
      (List.range (∏ i, lengths range threadCount selection idx i)).map fun number =>
        range.toNats.point selection (reached threadCount selection idx
          (place (lengths range threadCount selection idx) number)) := by
  rw [indices_eq proper (toNats_positive positive) distinct .strided
    ((toNats_box threadCount).mapsTo member), threadVisited, visited,
    ThreadSpace.mapCount_of_le le_rfl, ThreadSpace.mapIdx_of_le le_rfl, positions, List.map_map]
  rfl

/-- When all odometers stop, a thread visits what it visits in exact arithmetic. -/
private theorem yields_words (proper : range.toNats.Proper) (positive : ∀ d, 0 < threadCount d)
    (distinct : Function.Injective selection) (stops : ∀ d, Stops range threadCount d)
    (member : idx ∈ box threadCount) :
    (machineThread range threadCount selection idx).loop.Yields
      (machineThread range threadCount selection idx).begin
      ((ofThread range.toNats threadCount.toNats .strided selection idx.toNats).indices.map
        Vec.ofNats) := by
  have behind (i : Fin (n + 1)) := end_le_lengths positive member (stops (selection i))
  rw [indices_words proper positive distinct member, List.map_map]
  by_cases present : ∀ i : Fin n, 0 < lengths range threadCount selection idx i.succ
  · have fast (i : Fin (n + 1)) (faster : i ≠ 0) :
        0 < lengths range threadCount selection idx i := by
      obtain ⟨j, rfl⟩ := Fin.exists_succ_eq.mpr faster
      exact present j
    have run := (machineThread range threadCount selection idx).loop.run_of_states
      (fun number => shown range threadCount selection idx
        (place (lengths range threadCount selection idx) number))
      (∏ i, lengths range threadCount selection idx i)
      (fun number _ => next_shown distinct fast
        (fun i _ count below => lt_end_of_lt_lengths proper positive below)
        (fun i _ _ _ => behind i))
      (fun number below => by
        rw [← Bool.not_eq_true, done_shown distinct, BitVec.not_le]
        exact lt_end_of_lt_lengths proper positive (place_lt_of_lt below 0))
      (by
        have slow : place (lengths range threadCount selection idx)
            (∏ i, lengths range threadCount selection idx i) 0 =
              lengths range threadCount selection idx 0 := by
          rw [place_zero, prod_eq_mul_weight, Nat.mul_div_cancel _ (weight_positive fast 0)]
        rw [done_shown distinct, reached, position, slow]
        exact behind 0)
    refine ⟨(∏ i, lengths range threadCount selection idx i) + 1, fun fuel enough => ?_⟩
    have visited := run fuel enough
    rw [place_number_zero, ← begin_of_below distinct fun i => ?_] at visited
    · rw [visited]
      congr 1
      apply List.map_congr_left
      intro number _
      exact deref_shown distinct _
    · have first := lt_end_of_lt_lengths proper positive (present i)
      simpa only [Nat.zero_mul, Nat.add_zero] using first
  · obtain ⟨i, nothing⟩ := not_forall.mp present
    have none : lengths range threadCount selection idx i.succ = 0 := Nat.eq_zero_of_not_pos nothing
    have beyond := behind i.succ
    simp only [none, Nat.zero_mul, Nat.add_zero] at beyond
    refine ⟨1, fun fuel enough => ?_⟩
    obtain ⟨rest, rfl⟩ : ∃ rest, fuel = rest + 1 := ⟨fuel - 1, by omega⟩
    rw [Math.Loop.run, if_pos (done_of_beyond beyond),
      Finset.prod_eq_zero (Finset.mem_univ i.succ) none]
    rfl

/-- **Visiting.** What a thread visits when its odometer, up to there, turns over in time. -/
private theorem visits_words (range : IdxRange (BitVec w) (n + 1))
    (threadCount idx : Vec (BitVec w) (n + 1))
    (distinct : Function.Injective selection) (radix : Vec ℕ (n + 1))
    (positive : ∀ i, 0 < radix i)
    (room : ∀ i, ∀ count < radix i, range.component (selection i)
      ((idx (selection i)).toNat + count * (threadCount (selection i)).toNat) <
        range.endMd (selection i))
    (carries : ∀ number, number + 1 < ∏ i, radix i → ∀ i, i ≠ 0 → weight radix i ∣ number + 1 →
      place radix number i + 1 = radix i → range.endMd (selection i) ≤
        range.component (selection i)
          ((idx (selection i)).toNat + radix i * (threadCount (selection i)).toNat))
    {steps : ℕ} (inside : steps < ∏ i, radix i) :
    (machineThread range threadCount selection idx).loop.Visits
      (machineThread range threadCount selection idx).begin steps
      (Vec.ofNats (range.toNats.point selection
        (reached threadCount selection idx (place radix steps)))) := by
  have visits := (machineThread range threadCount selection idx).loop.visits_of_states
    (fun number => shown range threadCount selection idx (place radix number)) steps
    (fun number before => next_shown distinct (fun i _ => positive i) (fun i _ => room i)
      (carries number (by omega)))
    (fun number within => by
      rw [← Bool.not_eq_true, done_shown distinct, BitVec.not_le]
      exact room 0 _ (place_lt_of_lt (within.trans_lt inside) 0))
  rw [place_number_zero, ← begin_of_below distinct fun i => ?_] at visits
  · rw [← deref_shown distinct]
    exact visits
  · have first := room i.succ 0 (positive i.succ)
    simpa only [Nat.zero_mul, Nat.add_zero] using first

/-! ## When an odometer does not stop -/

/-- The thread that takes a position along one dimension and the first ones along all
others. -/
private def taker (threadCount : Vec (BitVec w) (n + 1)) (d : Fin (n + 1)) (position : ℕ) :
    Vec (BitVec w) (n + 1) :=
  Vec.ofNats (Pi.single d (position % (threadCount d).toNat))

private theorem toNats_taker (positive : ∀ d, 0 < threadCount d) (d : Fin (n + 1))
    (position : ℕ) : (taker threadCount d position).toNats =
      Pi.single d (position % (threadCount d).toNat) := by
  apply Vec.toNats_ofNats
  intro e
  by_cases same : e = d
  · subst same
    rw [Pi.single_eq_same]
    exact (Nat.mod_lt _ (toNats_positive positive e)).trans (threadCount e).isLt
  · rw [Pi.single_eq_of_ne same]
    exact Nat.two_pow_pos w

private theorem taker_mem (positive : ∀ d, 0 < threadCount d) (d : Fin (n + 1)) (position : ℕ) :
    taker threadCount d position ∈ box threadCount := by
  intro e
  have number := congrFun (toNats_taker positive d position) e
  rw [BitVec.lt_def]
  change (taker threadCount d position).toNats e < _
  rw [number]
  by_cases same : e = d
  · subst same
    rw [Pi.single_eq_same]
    exact Nat.mod_lt _ (toNats_positive positive e)
  · rw [Pi.single_eq_of_ne same]
    exact toNats_positive positive e

/-- The radices on the way to a number of steps along one dimension: the slower ones do
not move, the faster ones turn over as they should. -/
private def detour (range : IdxRange (BitVec w) (n + 1)) (threadCount : Vec (BitVec w) (n + 1))
    (selection : CSelect (n + 1) (n + 1)) (i : Fin (n + 1)) (count : ℕ) : Vec ℕ (n + 1) :=
  fun j => if j < i then 1 else if j = i then count + 1
    else lengths range threadCount selection (fun _ => 0) j

private theorem taker_self (positive : ∀ d, 0 < threadCount d) (d : Fin (n + 1))
    (position : ℕ) :
    (taker threadCount d position d).toNat = position % (threadCount d).toNat :=
  (congrFun (toNats_taker positive d position) d).trans (Pi.single_eq_same _ _)

private theorem taker_other (positive : ∀ d, 0 < threadCount d) {d e : Fin (n + 1)}
    (other : e ≠ d) (position : ℕ) : (taker threadCount d position e).toNat = 0 :=
  (congrFun (toNats_taker positive d position) e).trans (Pi.single_eq_of_ne other _)

section Detour

variable {i j : Fin (n + 1)} {count : ℕ}

private theorem detour_slower (slower : j < i) : detour range threadCount selection i count j = 1 :=
  if_pos slower

private theorem detour_self : detour range threadCount selection i count i = count + 1 := by
  unfold detour
  rw [if_neg (lt_irrefl i), if_pos rfl]

private theorem detour_faster (faster : i < j) :
    detour range threadCount selection i count j =
      lengths range threadCount selection (fun _ => 0) j := by
  unfold detour
  rw [if_neg faster.not_gt, if_neg faster.ne']

private theorem detour_positive (positive : ∀ d, 0 < threadCount d)
    (present : ∀ d, 0 < range.toNats.logicalExtent id d) (j : Fin (n + 1)) :
    0 < detour range threadCount selection i count j := by
  rcases lt_trichotomy j i with slower | same | faster
  · rw [detour_slower slower]
    exact Nat.one_pos
  · subst same
    rw [detour_self]
    exact Nat.succ_pos _
  · rw [detour_faster faster, lt_lengths_iff positive, Nat.zero_mul, Nat.add_zero]
    exact present (selection j)

/-- What a step is worth does not depend on the number of steps. -/
private theorem weight_detour : weight (detour range threadCount selection i count) i =
    weight (detour range threadCount selection i 0) i := by
  apply Finset.prod_congr rfl
  intro j faster
  rw [detour_faster (Finset.mem_Ioi.mp faster), detour_faster (Finset.mem_Ioi.mp faster)]

/-- The dimension and the slower ones do not turn over on the way. -/
private theorem not_dvd_detour {number : ℕ}
    (inside : number + 1 < ∏ j, detour range threadCount selection i count j) (within : j ≤ i) :
    ¬ detour range threadCount selection i count j *
      weight (detour range threadCount selection i count) j ∣ number + 1 := by
  intro turned
  rw [turn_eq_prod fun k slower => detour_slower (slower.trans_le within)] at turned
  exact absurd (Nat.le_of_dvd (Nat.succ_pos number) turned) (not_le.mpr inside)

end Detour

/-- The thread that takes a position visits it if the components on the way are below the
end and all faster odometers stop. -/
private theorem visits_position (position : ℕ) (proper : range.toNats.Proper)
    (positive : ∀ d, 0 < threadCount d) (distinct : Function.Injective selection)
    (present : ∀ d, 0 < range.toNats.logicalExtent id d) {i : Fin (n + 1)}
    (stops : ∀ j, i < j → Stops range threadCount (selection j))
    (below : ∀ count ≤ position / (threadCount (selection i)).toNat,
      range.component (selection i) (position % (threadCount (selection i)).toNat +
        count * (threadCount (selection i)).toNat) < range.endMd (selection i)) :
    (machineThread range threadCount selection
        (taker threadCount (selection i) position)).loop.Visits
      (machineThread range threadCount selection
        (taker threadCount (selection i) position)).begin
      (position / (threadCount (selection i)).toNat *
        weight (detour range threadCount selection i 0) i)
      (Vec.ofNats (range.toNats.point selection (Pi.single i position))) := by
  have other {j : Fin (n + 1)} (different : j ≠ i) :
      (taker threadCount (selection i) position (selection j)).toNat = 0 :=
    taker_other positive (distinct.ne different) position
  have origin : (fun _ => 0 : Vec (BitVec w) (n + 1)) ∈ box threadCount := positive
  generalize steps : position / (threadCount (selection i)).toNat = count at below ⊢
  have bounded (j : Fin (n + 1)) :
      (Pi.single i count : Vec ℕ (n + 1)) j < detour range threadCount selection i count j := by
    by_cases same : j = i
    · subst same
      rw [Pi.single_eq_same, detour_self]
      exact Nat.lt_succ_self count
    · rw [Pi.single_eq_of_ne same]
      exact detour_positive positive present j
  have number := place_value fun j _ => bounded j
  have inside := value_lt bounded
  have visits := visits_words range threadCount (taker threadCount (selection i) position) distinct
    (detour range threadCount selection i count) (detour_positive positive present) ?_ ?_ inside
  · have arrived : reached threadCount selection (taker threadCount (selection i) position)
        (Pi.single i count) = Pi.single i position := by
      funext j
      unfold reached TiledIdxContainer.position
      dsimp only
      by_cases same : j = i
      · subst same
        rw [taker_self positive, Pi.single_eq_same, Pi.single_eq_same, ← steps, Nat.mod_add_div']
      · rw [other same, Pi.single_eq_of_ne same, Pi.single_eq_of_ne same, Nat.zero_mul,
          Nat.add_zero]
    rw [number, arrived, value_single_digit, weight_detour] at visits
    exact visits
  · intro j taken early
    rcases lt_trichotomy j i with slower | same | faster
    · rw [detour_slower slower, Nat.lt_one_iff] at early
      rw [other slower.ne, early, Nat.zero_mul]
      exact IdxRange.component_lt proper (present _)
    · subst same
      rw [detour_self] at early
      rw [taker_self positive]
      exact below taken (Nat.le_of_lt_succ early)
    · rw [detour_faster faster] at early
      have within := lt_end_of_lt_lengths proper positive early
      rw [other faster.ne']
      exact within
  · intro number early j notSlow carried full
    rcases le_or_gt j i with within | faster
    · exact absurd (turn_dvd_of_full notSlow (detour_positive positive present j) carried full.ge)
        (not_dvd_detour early within)
    · have behind := end_le_lengths positive origin (stops j faster)
      rw [detour_faster faster, other faster.ne']
      exact behind

/-- **Two visits.** When the range is not empty and the threads share it out, every odometer
stops: one that does not takes a thread to an index that is another thread's or its own
already. -/
private theorem stops_of_sharesOut (proper : range.toNats.Proper)
    (positive : ∀ d, 0 < threadCount d) (distinct : Function.Injective selection)
    (present : ∀ d, 0 < range.toNats.logicalExtent id d)
    (shares : SharesOut range threadCount selection) (i : Fin (n + 1)) :
    Stops range threadCount (selection i) := by
  -- from the fastest dimension on: the slower ones have not moved yet
  induction i using WellFoundedGT.induction with
  | ind i ih =>
  intro position behind within
  by_contra notBehind
  have below (count : ℕ) (before : count ≤ position / (threadCount (selection i)).toNat) :
      range.component (selection i) (position % (threadCount (selection i)).toNat +
        count * (threadCount (selection i)).toNat) < range.endMd (selection i) := by
    have split := Nat.mod_add_div' position (threadCount (selection i)).toNat
    rcases Nat.eq_or_lt_of_le before with last | earlier
    · rw [last, split]
      exact BitVec.not_le.mp notBehind
    · apply IdxRange.component_lt proper
      have next := Nat.mul_le_mul_right (threadCount (selection i)).toNat earlier
      rw [Nat.succ_mul] at next
      omega
  have visits := visits_position position proper positive distinct present ih below
  obtain ⟨other, inside, same⟩ := IdxRange.exists_position_of_mem_words proper distinct
    (shares.target_of_visits (taker_mem positive _ position) visits) i
  rw [IdxRange.ofNats_point distinct, Pi.single_eq_same] at same
  have otherVisits := visits_position other proper positive distinct present ih
    fun count before => by
      apply IdxRange.component_lt proper
      have split := Nat.mod_add_div' other (threadCount (selection i)).toNat
      have earlier := Nat.mul_le_mul_right (threadCount (selection i)).toNat before
      omega
  have index : (Vec.ofNats (range.toNats.point selection (Pi.single i other)) :
      Vec (BitVec w) (n + 1)) =
        Vec.ofNats (range.toNats.point selection (Pi.single i position)) := by
    funext d
    obtain ⟨j, rfl⟩ := ThreadSpace.surjective_of_full distinct le_rfl d
    rw [IdxRange.ofNats_point distinct, IdxRange.ofNats_point distinct]
    by_cases along : j = i
    · subst along
      rw [Pi.single_eq_same, Pi.single_eq_same, same]
    · rw [Pi.single_eq_of_ne along, Pi.single_eq_of_ne along]
  rw [index] at otherVisits
  obtain ⟨thread, steps⟩ := shares.eq_of_visits (taker_mem positive _ position)
    (taker_mem positive _ other) visits otherVisits
  have residue := congrArg (fun idx : Vec (BitVec w) (n + 1) => (idx (selection i)).toNat) thread
  rw [taker_self positive, taker_self positive] at residue
  have quotient := Nat.eq_of_mul_eq_mul_right
    (weight_positive (fun j _ => detour_positive positive present j) i) steps
  have split := Nat.mod_add_div' position (threadCount (selection i)).toNat
  rw [residue, quotient, Nat.mod_add_div'] at split
  omega

/-- When a dimension without indices stops, every thread is at the end from the start. -/
private theorem done_of_empty (distinct : Function.Injective selection)
    (member : idx ∈ box threadCount) {d : Fin (n + 1)}
    (empty : range.toNats.logicalExtent id d = 0) (stops : Stops range threadCount d) :
    (machineThread range threadCount selection idx).loop.done
      (machineThread range threadCount selection idx).begin = true := by
  have beyond : range.endMd d ≤ range.component d (idx d).toNat := by
    apply stops
    · rw [empty]
      exact Nat.zero_le _
    · rw [empty, Nat.zero_add]
      exact member d
  obtain ⟨i, rfl⟩ := ThreadSpace.surjective_of_full distinct le_rfl d
  by_cases below : ∀ i : Fin n, range.component (selection i.succ)
      (idx (selection i.succ)).toNat < range.endMd (selection i.succ)
  · cases i using Fin.cases with
    | zero =>
        rw [begin_of_below distinct below, done_shown distinct, reached, position, Nat.zero_mul]
        exact beyond
    | succ i => exact absurd (below i) (BitVec.not_lt.mpr beyond)
  · obtain ⟨j, notBelow⟩ := not_forall.mp below
    exact done_of_beyond (BitVec.not_lt.mp notBelow)

/-- **Strided threads in machine arithmetic.** Where all odometers stop, or that of a dimension
without indices does, a thread visits what it visits in exact arithmetic. -/
theorem strided_yields (proper : range.toNats.Proper) (positive : ∀ d, 0 < threadCount d)
    (distinct : Function.Injective selection)
    (stops : (∃ d, range.toNats.logicalExtent id d = 0 ∧ Stops range threadCount d) ∨
      ∀ d, Stops range threadCount d) (member : idx ∈ box threadCount) :
    (machineThread range threadCount selection idx).loop.Yields
      (machineThread range threadCount selection idx).begin
      ((ofThread range.toNats threadCount.toNats .strided selection idx.toNats).indices.map
        Vec.ofNats) := by
  rcases stops with ⟨d, empty, stops⟩ | stops
  · obtain ⟨i, rfl⟩ := ThreadSpace.surjective_of_full distinct le_rfl d
    have none : lengths range threadCount selection idx i = 0 := by
      refine Nat.eq_zero_of_not_pos fun first => ?_
      have below := (lt_lengths_iff positive i 0).mp first
      rw [empty] at below
      exact Nat.not_lt_zero _ below
    rw [indices_words proper positive distinct member,
      Finset.prod_eq_zero (Finset.mem_univ i) none]
    refine ⟨1, fun fuel enough => ?_⟩
    obtain ⟨rest, rfl⟩ : ∃ rest, fuel = rest + 1 := ⟨fuel - 1, by omega⟩
    rw [Math.Loop.run, if_pos (done_of_empty distinct member empty stops)]
    rfl
  · exact yields_words proper positive distinct stops member

/-- When no dimension without indices stops, a thread visits what it starts at. -/
private theorem exists_empty_stops (proper : range.toNats.Proper)
    (positive : ∀ d, 0 < threadCount d) (distinct : Function.Injective selection)
    (shares : SharesOut range threadCount selection) (nothing : range.words selection = ∅) :
    ∃ d, range.toNats.logicalExtent id d = 0 ∧ Stops range threadCount d := by
  by_contra none
  have start (d : Fin (n + 1)) :
      ∃ number < (threadCount d).toNat, range.component d number < range.endMd d := by
    by_cases empty : range.toNats.logicalExtent id d = 0
    · by_contra stopped
      apply none
      refine ⟨d, empty, fun position _ within => BitVec.not_lt.mp fun below => stopped ?_⟩
      rw [empty, Nat.zero_add] at within
      exact ⟨position, within, below⟩
    · exact ⟨0, toNats_positive positive d,
        IdxRange.component_lt proper (Nat.pos_of_ne_zero empty)⟩
  choose number inside below using start
  have thread : (Vec.ofNats number : Vec (BitVec w) (n + 1)).toNats = number :=
    Vec.toNats_ofNats fun d => (inside d).trans (threadCount d).isLt
  have member : Vec.ofNats number ∈ box threadCount := by
    intro d
    rw [BitVec.lt_def]
    exact (congrFun thread d).trans_lt (inside d)
  have room (i : Fin (n + 1)) (count : ℕ) (before : count < 1) :
      range.component (selection i) (((Vec.ofNats number : Vec (BitVec w) (n + 1))
        (selection i)).toNat + count * (threadCount (selection i)).toNat) <
          range.endMd (selection i) := by
    have first : ((Vec.ofNats number : Vec (BitVec w) (n + 1)) (selection i)).toNat =
        number (selection i) := congrFun thread (selection i)
    rw [Nat.lt_one_iff.mp before, first, Nat.zero_mul]
    exact below (selection i)
  have single : ∏ _i : Fin (n + 1), 1 = 1 := Finset.prod_const_one
  have visits := visits_words range threadCount (Vec.ofNats number) distinct (fun _ => 1)
    (fun _ => Nat.one_pos) room
    (fun number early => absurd early (by rw [single]; omega))
    (show 0 < ∏ _i : Fin (n + 1), 1 by rw [single]; exact Nat.one_pos)
  have index := shares.target_of_visits member visits
  rw [nothing] at index
  exact index

/-- **Tiled traversal in machine arithmetic.** With the strided layout the threads share out
a range if and only if no odometer takes a position behind the last one for one of the
range; where the range is empty, one dimension that stops is enough. -/
theorem sharesOut_iff (proper : range.toNats.Proper) (distinct : Function.Injective selection)
    (positive : ∀ d, 0 < threadCount d) :
    SharesOut range threadCount selection ↔
      (∃ d, range.toNats.logicalExtent id d = 0 ∧ Stops range threadCount d) ∨
        ∀ d, 0 < range.toNats.logicalExtent id d ∧ Stops range threadCount d := by
  have nothing := IdxRange.words_eq_empty_iff proper distinct
  have all := ThreadSpace.surjective_of_full distinct le_rfl
  constructor
  · intro shares
    by_cases present : ∀ d, 0 < range.toNats.logicalExtent id d
    · right
      intro d
      obtain ⟨i, rfl⟩ := all d
      exact ⟨present _, stops_of_sharesOut proper positive distinct present shares i⟩
    · left
      obtain ⟨d, none⟩ := not_forall.mp present
      obtain ⟨i, rfl⟩ := all d
      exact exists_empty_stops proper positive distinct shares
        (nothing.mpr ⟨i, Nat.eq_zero_of_not_pos none⟩)
  · rintro (⟨d, empty, stops⟩ | every)
    · obtain ⟨i, rfl⟩ := all d
      apply (Math.Loop.sharesOut_iff_of_done fun idx member =>
        done_of_empty distinct member empty stops).mpr
      exact nothing.mpr ⟨i, empty⟩
    · have maps := ThreadSpace.mapsBijectively_of_full distinct le_rfl threadCount.toNats
      exact ⟨_, fun idx member =>
        yields_words proper positive distinct (fun d => (every d).2) member,
        IdxRange.words_partitions
          (indices_partitions proper (toNats_positive positive) distinct maps .strided)⟩

end Thread

end TiledIdxContainer

/-- **Strided traversal in machine arithmetic.** In which ranges the threads of a flat
container and those of a tiled one terminate and share out the range. -/
theorem strided_sharesOut_iff {w n : ℕ} {range : IdxRange (BitVec w) (n + 1)}
    (proper : range.toNats.Proper) {threadCount : Vec (BitVec w) (n + 1)}
    (positive : ∀ d, 0 < threadCount d) {selection : CSelect (n + 1) (n + 1)}
    (distinct : Function.Injective selection) :
    (FlatIdxContainer.SharesOut range threadCount selection ↔
      (∃ i, range.toNats.logicalExtent selection i = 0) ∨
        FlatIdxContainer.Fits range.toNats threadCount.toNats selection (2 ^ w)) ∧
    (TiledIdxContainer.SharesOut range threadCount selection ↔
      (∃ d, range.toNats.logicalExtent id d = 0 ∧
        TiledIdxContainer.Stops range threadCount d) ∨
      ∀ d, 0 < range.toNats.logicalExtent id d ∧
        TiledIdxContainer.Stops range threadCount d) :=
  ⟨FlatIdxContainer.sharesOut_iff proper distinct positive,
    TiledIdxContainer.sharesOut_iff proper distinct positive⟩

/-- Bytes as indices: the fast dimension, listed first, is strided. -/
theorem strided_sharesOut_bytes :
    FlatIdxContainer.SharesOut (⟨![0, 1], ![3, 200], ![1, 5]⟩ : IdxRange (BitVec 8) 2) ![3, 2]
      (![1, 0] : CSelect 2 2) ∧
    TiledIdxContainer.SharesOut (⟨![0, 1], ![3, 200], ![1, 5]⟩ : IdxRange (BitVec 8) 2) ![3, 2]
      (![1, 0] : CSelect 2 2) := by
  have proper : (⟨![0, 1], ![3, 200], ![1, 5]⟩ : IdxRange (BitVec 8) 2).toNats.Proper :=
    ⟨by decide, by decide⟩
  have positive : ∀ d, 0 < (![3, 2] : Vec (BitVec 8) 2) d := by decide
  have distinct : Function.Injective (![1, 0] : CSelect 2 2) := by decide
  have both := strided_sharesOut_iff proper positive distinct
  refine ⟨both.1.mpr (.inr ⟨by decide, by decide⟩), both.2.mpr (.inr fun d => ⟨?_, ?_⟩)⟩
  · revert d
    decide
  · apply TiledIdxContainer.stops_of_representable proper
    revert d
    decide

/-- Every second index below the largest 32-bit number, and one thread: rounding up
overflows in the flat container, and the odometer of the tiled one turns over. -/
theorem strided_wraps :
    (⟨![0], ![4294967295], ![2]⟩ : IdxRange (BitVec 32) 1).toNats.Proper ∧
    FlatIdxContainer.total (⟨![0], ![4294967295], ![2]⟩ : IdxRange (BitVec 32) 1).toNats
      (![0] : CSelect 1 1) < 2 ^ 32 ∧
    ¬ FlatIdxContainer.SharesOut (⟨![0], ![4294967295], ![2]⟩ : IdxRange (BitVec 32) 1) ![1]
      (![0] : CSelect 1 1) ∧
    ¬ TiledIdxContainer.SharesOut (⟨![0], ![4294967295], ![2]⟩ : IdxRange (BitVec 32) 1) ![1]
      (![0] : CSelect 1 1) := by
  have proper : (⟨![0], ![4294967295], ![2]⟩ : IdxRange (BitVec 32) 1).toNats.Proper :=
    ⟨by decide, by decide⟩
  have elements : FlatIdxContainer.total
      (⟨![0], ![4294967295], ![2]⟩ : IdxRange (BitVec 32) 1).toNats
        (![0] : CSelect 1 1) < 2 ^ 32 := by decide
  refine ⟨proper, elements, ?_, ?_⟩
  · rw [FlatIdxContainer.sharesOut_iff proper (by decide) (by decide)]
    rintro (empty | fits)
    · revert empty
      decide
    · exact absurd (fits.distance 0) (by decide)
  · rw [TiledIdxContainer.sharesOut_iff proper (by decide) (by decide)]
    rintro (⟨d, empty, _⟩ | every)
    · rw [Fin.fin_one_eq_zero d] at empty
      exact absurd empty (by decide)
    · exact absurd ((every 0).2 2147483648 (by decide) (by decide)) (by decide)

end Alpaka
