import Mathlib.Data.Set.Card
import Alpaka.Math.SharedLoop
import Alpaka.Mem.FlatTraversal
import Alpaka.Mem.ThreadSpaceWidth

/-! # Flat traversal in machine arithmetic

The number of indices along a dimension is rounded up by adding first, and the linear index
steps past the last one before it is compared. With the strided layout the threads share out
the range exactly when it is empty or neither of the two overflows
(`Alpaka.FlatIdxContainer.strided_words_iff`, and for a selection of all dimensions
`Alpaka.FlatIdxContainer.sharesOut_iff`). Under the contiguous layout nothing is added to the
linear index behind the last one, and a thread visits what it visits in exact arithmetic as
long as its block begins at a representable number
(`Alpaka.FlatIdxContainer.contiguous_yields`).
-/

namespace Alpaka.FlatIdxContainer

open ThreadSpace (mapIdx mapCount MapsBijectively)

variable {w n k : ℕ}

/-- The thread of a strided container over all dimensions of a whole thread space. -/
def machineThread (range : IdxRange (BitVec w) (n + 1)) (threadCount : Vec (BitVec w) (n + 1))
    (selection : CSelect (n + 1) (n + 1)) (idx : Vec (BitVec w) (n + 1)) :
    FlatIdxContainer (BitVec w) n n :=
  ⟨range, ⟨idx, threadCount⟩, .strided, selection⟩

/-- All threads terminate and share out the range. -/
def SharesOut (range : IdxRange (BitVec w) (n + 1)) (threadCount : Vec (BitVec w) (n + 1))
    (selection : CSelect (n + 1) (n + 1)) : Prop :=
  Math.Loop.SharesOut (fun idx => (machineThread range threadCount selection idx).loop)
    (fun idx => (machineThread range threadCount selection idx).begin) (box threadCount)
    (range.words selection)

/-- Adding a stride to a distance and adding the number of threads to the number of indices
does not overflow. -/
structure Fits (range : IdxRange ℕ (n + 1)) (threadCount : Vec ℕ (n + 1))
    (selection : CSelect (n + 1) (n + 1)) (limit : ℕ) : Prop where
  distance : ∀ d, range.distance d + range.strideMd d ≤ limit
  total : total range selection + ∏ d, threadCount d ≤ limit

section Thread

variable {range : IdxRange (BitVec w) (n + 1)} {threadCount : Vec (BitVec w) (n + 1)}
  {selection : CSelect (k + 1) (n + 1)} {layout : Layout} {idx : Vec (BitVec w) (n + 1)}

/-- What the container takes for the numbers of indices along the dimensions. -/
def extents (range : IdxRange (BitVec w) (n + 1)) (selection : CSelect (k + 1) (n + 1)) :
    Vec (BitVec w) (k + 1) :=
  fun i => divCeil (range.distance (selection i)) (range.strideMd (selection i))

/-- Without overflows the extents are exact. -/
private theorem toNats_extents (proper : range.toNats.Proper)
    (fits : ∀ i, range.toNats.distance (selection i) + range.toNats.strideMd (selection i) ≤
      2 ^ w) :
    (extents range selection).toNats = range.toNats.logicalExtent selection :=
  funext fun i => IdxRange.toNat_extent proper (fits i)

/-- A thread of the mapped thread space has no coordinates in unselected dimensions. -/
private theorem mapIdx_words (distinct : Function.Injective selection)
    (member : idx ∈ box threadCount) {d : Fin (n + 1)} (outside : ∀ i, selection i ≠ d) :
    mapIdx threadCount selection idx d = 0 := by
  rw [ThreadSpace.mapIdx_eq_ofNats, Vec.ofNats,
    ThreadSpace.mapIdx_unselected distinct ((toNats_box threadCount).mapsTo member) d outside]
  exact Nat.cast_zero

/-- A thread starts at the begin of the range. -/
theorem offsetMD_words (layout : Layout) (distinct : Function.Injective selection)
    (member : idx ∈ box threadCount) :
    (ofThread range threadCount layout selection idx).begin.offsetMD = range.beginMd := by
  unfold «begin»
  cases layout <;>
  · funext d
    by_cases selected : ∃ i, selection i = d
    · obtain ⟨i, rfl⟩ := selected
      simp only [ofThread, Vec.refAssign_selected _ _ distinct, Vec.swizzle, BitVec.sub_self,
        BitVec.add_zero]
    · have outside : ∀ i, selection i ≠ d := fun i same => selected ⟨i, same⟩
      have folded : ((ThreadSpace.mk idx threadCount).mapTo selection).threadIdx d = 0 :=
        mapIdx_words distinct member outside
      simp only [ofThread, Vec.refAssign_of_not_mem _ _ _ _ _ outside, folded, zero_mul, add_zero]

/-- The iterator of a thread with the given linear index. -/
private def state (range : IdxRange (BitVec w) (n + 1)) (threadCount : Vec (BitVec w) (n + 1))
    (layout : Layout) (selection : CSelect (k + 1) (n + 1)) (idx : Vec (BitVec w) (n + 1))
    (number : ℕ) : ConstIterator (BitVec w) n k :=
  { (ofThread range threadCount layout selection idx).begin with current := number }

private theorem prod_extents (exact : (extents range selection).toNats =
      range.toNats.logicalExtent selection) :
    ∏ i, (extents range selection i).toNat = total range.toNats selection :=
  Finset.prod_congr rfl fun i _ => congrFun exact i

/-- What the container takes for the number of indices. -/
private theorem product_extents (exact : (extents range selection).toNats =
      range.toNats.logicalExtent selection) :
    (Vec.product (extents range selection)).toNat = total range.toNats selection % 2 ^ w := by
  rw [Vec.toNat_product, prod_extents exact]

/-- The iterator points at the element with its linear index. -/
private theorem deref_state (layout : Layout) (distinct : Function.Injective selection)
    (member : idx ∈ box threadCount)
    (exact : (extents range selection).toNats = range.toNats.logicalExtent selection)
    (representable : total range.toNats selection < 2 ^ w) {number : ℕ}
    (inside : number % 2 ^ w < total range.toNats selection) :
    ConstIterator.deref selection (state range threadCount layout selection idx number) =
      Vec.ofNats (element range.toNats selection (number % 2 ^ w)) := by
  have product := prod_extents exact
  have place : (mapToND (extents range selection) (number : BitVec w)).toNats =
      Math.MixedRadix.place (range.toNats.logicalExtent selection) (number % 2 ^ w) := by
    have digits : (mapToND (extents range selection) (number : BitVec w)).toNats =
        mapToND (extents range selection).toNats (number : BitVec w).toNat :=
      toNats_mapToND (by rwa [product]) (by rwa [product, toNat_cast])
    rw [digits, mapToND_eq_place, exact, toNat_cast]
  funext d
  unfold ConstIterator.deref element Vec.ofNats
  have offset : (state range threadCount layout selection idx number).offsetMD = range.beginMd :=
    offsetMD_words layout distinct member
  by_cases selected : ∃ i, selection i = d
  · obtain ⟨i, rfl⟩ := selected
    have shape : (state range threadCount layout selection idx number).extentMD =
          extents range selection ∧
        (state range threadCount layout selection idx number).strideMD =
          Vec.swizzle range.strideMd selection := by
      cases layout <;> exact ⟨rfl, rfl⟩
    apply BitVec.eq_of_toNat_eq
    rw [Vec.refAssign_selected _ _ distinct, toNat_cast, range.toNats.point_selected distinct,
      offset, shape.1, shape.2, BitVec.toNat_add, BitVec.toNat_mul, Nat.add_mod_mod,
      ← congrFun place i]
    rfl
  · have outside : ∀ i, selection i ≠ d := fun i same => selected ⟨i, same⟩
    rw [Vec.refAssign_of_not_mem _ _ _ _ _ outside, range.toNats.point_unselected _ _ outside,
      offset]
    exact (natCast_toNat _).symm

/-- Where nothing is added that overflows, a thread visits what it visits in exact
arithmetic. -/
private theorem yields_words (distinct : Function.Injective selection)
    (positive : ∀ d, 0 < threadCount d) (member : idx ∈ box threadCount)
    (exact : (extents range selection).toNats = range.toNats.logicalExtent selection)
    (representable : total range.toNats selection < 2 ^ w) {first step stop : ℕ}
    (starts : (ofThread range threadCount layout selection idx).begin.current = (first : BitVec w))
    (steps : (ofThread range threadCount layout selection idx).begin.stride = (step : BitVec w))
    (ends : (ofThread range threadCount layout selection idx).end.toNat = stop)
    (progression : (ofThread range.toNats threadCount.toNats layout selection
      idx.toNats).linearIndices = Math.progression first step stop)
    (forward : 0 < step) (within : stop ≤ total range.toNats selection)
    (room : first + (Math.progression first step stop).length * step < 2 ^ w) :
    (ofThread range threadCount layout selection idx).loop.Yields
      (ofThread range threadCount layout selection idx).begin
      ((ofThread range.toNats threadCount.toNats layout selection idx.toNats).indices.map
        Vec.ofNats) := by
  rw [ofThread_indices (toNats_positive positive) distinct layout
    ((toNats_box threadCount).mapsTo member), progression, List.map_map]
  have below := Math.lt_length_progression_iff forward first stop
  rw [Math.progression_eq, List.map_map]
  generalize (Math.progression first step stop).length = count at below room ⊢
  have done (number : ℕ) : (ofThread range threadCount layout selection idx).loop.done
      (state range threadCount layout selection idx number) = true ↔ stop ≤ number % 2 ^ w := by
    rw [← ends, ← toNat_cast number]
    exact decide_eq_true_iff
  have bounded {round : ℕ} (before : round ≤ count) :
      (first + round * step) % 2 ^ w = first + round * step := by
    have earlier := Nat.mul_le_mul_right step before
    exact Nat.mod_eq_of_lt (by omega)
  have run := (ofThread range threadCount layout selection idx).loop.run_of_states
    (fun round => state range threadCount layout selection idx (first + round * step)) count
    (fun round _ => by
      have moved : (((first + round * step : ℕ) : BitVec w)) + (step : BitVec w) =
          ((first + (round + 1) * step : ℕ) : BitVec w) := by
        rw [← Nat.cast_add, Nat.succ_mul, Nat.add_assoc]
      change ConstIterator.next _ = _
      unfold ConstIterator.next state
      rw [← moved, ← steps])
    (fun round before => by
      have inside := (below round).mp before
      rw [← Bool.not_eq_true, done, bounded before.le]
      omega)
    (by
      have beyond := mt (below count).mpr (lt_irrefl count)
      rw [done, bounded le_rfl]
      omega)
  refine ⟨count + 1, fun fuel enough => ?_⟩
  have start : state range threadCount layout selection idx (first + 0 * step) =
      (ofThread range threadCount layout selection idx).begin := by
    unfold state
    rw [Nat.zero_mul, Nat.add_zero, ← starts]
  have visited := run fuel enough
  rw [start] at visited
  rw [visited]
  congr 1
  apply List.map_congr_left
  intro round before
  have inside := (below round).mp (List.mem_range.mp before)
  have number := bounded (List.mem_range.mp before).le
  have here := deref_state layout distinct member exact representable
    (number.symm ▸ inside.trans_le within)
  rw [number] at here
  exact here

/-- Where an extent is computed as zero, every thread is at the end from the start. -/
theorem done_of_zero (layout : Layout) (idx : Vec (BitVec w) (n + 1)) {i : Fin (k + 1)}
    (zero : (extents range selection i).toNat = 0) :
    (ofThread range threadCount layout selection idx).loop.done
      (ofThread range threadCount layout selection idx).begin = true := by
  have product : (Vec.product (extents range selection)).toNat = 0 := by
    rw [Vec.toNat_product, Finset.prod_eq_zero (Finset.mem_univ i) zero, Nat.zero_mod]
  apply decide_eq_true
  cases layout with
  | strided =>
      change Vec.product (extents range selection) ≤ _
      rw [BitVec.le_def, product]
      exact Nat.zero_le _
  | contiguous =>
      change stdMin _ (Vec.product (extents range selection)) ≤ _
      rw [BitVec.le_def, toNat_stdMin, product, Nat.min_zero]
      exact Nat.zero_le _

private theorem sharesOut_iff_of_zero (layout : Layout) {i : Fin (k + 1)}
    (zero : (extents range selection i).toNat = 0) :
    Math.Loop.SharesOut (fun idx => (ofThread range threadCount layout selection idx).loop)
      (fun idx => (ofThread range threadCount layout selection idx).begin) (box threadCount)
      (range.words selection) ↔ range.words selection = ∅ :=
  Math.Loop.sharesOut_iff_of_done fun idx _ => done_of_zero layout idx zero

/-- Where there is nothing to iterate over, a thread visits nothing, as in exact arithmetic. -/
theorem yields_of_empty (layout : Layout) (proper : range.toNats.Proper)
    (distinct : Function.Injective selection) (positive : ∀ d, 0 < threadCount d)
    (member : idx ∈ box threadCount) (empty : ∃ i, range.toNats.logicalExtent selection i = 0) :
    (ofThread range threadCount layout selection idx).loop.Yields
      (ofThread range threadCount layout selection idx).begin
      ((ofThread range.toNats threadCount.toNats layout selection idx.toNats).indices.map
        Vec.ofNats) := by
  obtain ⟨i, none⟩ := empty
  have nothing : total range.toNats selection = 0 := Finset.prod_eq_zero (Finset.mem_univ i) none
  have stops (first : ℕ) {step stop : ℕ} (forward : 0 < step) (zero : stop = 0) :
      Math.progression first step stop = [] := by
    apply List.eq_nil_of_length_eq_zero
    have behind := mt (Math.lt_length_progression_iff forward first stop 0).mp
    rw [zero] at behind ⊢
    exact Nat.eq_zero_of_not_pos (behind (Nat.not_lt_zero _))
  have visits : (ofThread range.toNats threadCount.toNats layout selection
      idx.toNats).linearIndices = [] := by
    cases layout with
    | strided =>
        rw [linearIndices_strided]
        exact stops _ (numSlots_positive (toNats_positive positive) selection) nothing
    | contiguous =>
        rw [linearIndices_contiguous distinct]
        exact stops _ Nat.one_pos (by rw [nothing, Nat.min_zero])
  rw [ofThread_indices (toNats_positive positive) distinct layout
    ((toNats_box threadCount).mapsTo member), visits]
  refine ⟨1, fun fuel enough => ?_⟩
  obtain ⟨rest, rfl⟩ : ∃ rest, fuel = rest + 1 := ⟨fuel - 1, by omega⟩
  rw [Math.Loop.run, if_pos (done_of_zero layout idx (IdxRange.toNat_extent_of_empty proper none))]
  rfl

/-- Where there is nothing to iterate over, nothing is shared out. -/
theorem sharesOut_of_empty (layout : Layout) (proper : range.toNats.Proper)
    (distinct : Function.Injective selection)
    (empty : ∃ i, range.toNats.logicalExtent selection i = 0) :
    Math.Loop.SharesOut (fun idx => (ofThread range threadCount layout selection idx).loop)
      (fun idx => (ofThread range threadCount layout selection idx).begin) (box threadCount)
      (range.words selection) := by
  have nothing := (IdxRange.words_eq_empty_iff proper distinct).mpr empty
  obtain ⟨i, none⟩ := empty
  have zero : (extents range selection i).toNat = 0 := IdxRange.toNat_extent_of_empty proper none
  exact (sharesOut_iff_of_zero layout zero).mpr nothing

/-! ## The strided layout -/

/-- A thread starts at its slot. -/
private theorem strided_current (range : IdxRange (BitVec w) (n + 1))
    (threadCount : Vec (BitVec w) (n + 1)) (selection : CSelect (k + 1) (n + 1))
    (idx : Vec (BitVec w) (n + 1)) :
    (ofThread range threadCount .strided selection idx).begin.current =
      (slot threadCount.toNats selection idx.toNats : BitVec w) := by
  simp only [«begin», ofThread, ThreadSpace.mapTo_eq_ofNats]
  exact linearize_ofNats _ _

/-- A step adds the number of slots. -/
private theorem strided_stride (range : IdxRange (BitVec w) (n + 1))
    (threadCount : Vec (BitVec w) (n + 1)) (selection : CSelect (k + 1) (n + 1))
    (idx : Vec (BitVec w) (n + 1)) :
    (ofThread range threadCount .strided selection idx).begin.stride =
      (numSlots threadCount.toNats selection : BitVec w) := by
  simp only [«begin», ofThread, ThreadSpace.mapTo_eq_ofNats]
  exact Vec.product_ofNats _

private theorem next_state (number : ℕ) :
    (state range threadCount .strided selection idx number).next =
      state range threadCount .strided selection idx
        (number + numSlots threadCount.toNats selection) := by
  have moved := strided_stride range threadCount selection idx
  unfold ConstIterator.next state
  rw [Nat.cast_add, ← moved]

private theorem begin_eq_state :
    (ofThread range threadCount .strided selection idx).begin =
      state range threadCount .strided selection idx
        (slot threadCount.toNats selection idx.toNats) := by
  unfold state
  rw [← strided_current]

private theorem done_state (exact : (extents range selection).toNats =
      range.toNats.logicalExtent selection) (number : ℕ) :
    (ofThread range threadCount .strided selection idx).loop.done
        (state range threadCount .strided selection idx number) = true ↔
      total range.toNats selection % 2 ^ w ≤ number % 2 ^ w := by
  rw [← product_extents exact, ← toNat_cast number]
  exact decide_eq_true_iff

/-- When adding the number of slots does not overflow, a thread visits what it visits in
exact arithmetic. -/
private theorem strided_yields_words (distinct : Function.Injective selection)
    (positive : ∀ d, 0 < threadCount d)
    (maps : MapsBijectively threadCount.toNats selection)
    (exact : (extents range selection).toNats = range.toNats.logicalExtent selection)
    (room : total range.toNats selection + numSlots threadCount.toNats selection ≤ 2 ^ w)
    (member : idx ∈ box threadCount) :
    (ofThread range threadCount .strided selection idx).loop.Yields
      (ofThread range threadCount .strided selection idx).begin
      ((ofThread range.toNats threadCount.toNats .strided selection idx.toNats).indices.map
        Vec.ofNats) := by
  have slots := numSlots_positive (toNats_positive positive) selection
  have representable : total range.toNats selection < 2 ^ w := by omega
  have inside := (slot_bijOn distinct maps).mapsTo ((toNats_box threadCount).mapsTo member)
  have last := Math.length_progression_lt inside (total range.toNats selection)
  refine yields_words distinct positive member exact representable (strided_current _ _ _ _)
    (strided_stride _ _ _ _) ?_ (linearIndices_strided _ _ _ _) slots le_rfl (last.trans_le room)
  exact (product_extents exact).trans (Nat.mod_eq_of_lt representable)

/-- **Strided threads in machine arithmetic.** Where there is nothing to iterate over or nothing
overflows, a thread visits what it visits in exact arithmetic. -/
theorem strided_yields (proper : range.toNats.Proper) (distinct : Function.Injective selection)
    (positive : ∀ d, 0 < threadCount d)
    (maps : MapsBijectively threadCount.toNats selection)
    (fits : ∀ i, range.toNats.distance (selection i) + range.toNats.strideMd (selection i) ≤ 2 ^ w)
    (either : (∃ i, range.toNats.logicalExtent selection i = 0) ∨
      total range.toNats selection + numSlots threadCount.toNats selection ≤ 2 ^ w)
    (member : idx ∈ box threadCount) :
    (ofThread range threadCount .strided selection idx).loop.Yields
      (ofThread range threadCount .strided selection idx).begin
      ((ofThread range.toNats threadCount.toNats .strided selection idx.toNats).indices.map
        Vec.ofNats) := by
  rcases either with empty | room
  · exact yields_of_empty .strided proper distinct positive member empty
  · exact strided_yields_words distinct positive maps (toNats_extents proper fits) room member

/-- A thread visits elements as long as its linear index, modulo the width, is that of
one. -/
private theorem visits_words (distinct : Function.Injective selection)
    (member : idx ∈ box threadCount)
    (exact : (extents range selection).toNats = range.toNats.logicalExtent selection)
    (representable : total range.toNats selection < 2 ^ w) {steps number : ℕ}
    (inside : ∀ step ≤ steps, (slot threadCount.toNats selection idx.toNats +
      step * numSlots threadCount.toNats selection) % 2 ^ w < total range.toNats selection)
    (here : (slot threadCount.toNats selection idx.toNats +
      steps * numSlots threadCount.toNats selection) % 2 ^ w = number) :
    (ofThread range threadCount .strided selection idx).loop.Visits
      (ofThread range threadCount .strided selection idx).begin steps
      (Vec.ofNats (element range.toNats selection number)) := by
  subst here
  rw [begin_eq_state,
    ← deref_state .strided distinct member exact representable (inside steps le_rfl)]
  generalize slot threadCount.toNats selection idx.toNats = first at inside ⊢
  have visits := (ofThread range threadCount .strided selection idx).loop.visits_of_states
    (fun step => state range threadCount .strided selection idx
      (first + step * numSlots threadCount.toNats selection)) steps
    (fun step _ => by
      rw [Nat.succ_mul, ← Nat.add_assoc]
      exact next_state _)
    (fun step within => by
      rw [← Bool.not_eq_true, done_state exact, Nat.mod_eq_of_lt representable]
      exact not_le.mpr (inside step within))
  have start : first + 0 * numSlots threadCount.toNats selection = first := by omega
  rw [start] at visits
  exact visits

private theorem iterate_state (number steps : ℕ) :
    ConstIterator.next^[steps] (state range threadCount .strided selection idx number) =
      state range threadCount .strided selection idx
        (number + steps * numSlots threadCount.toNats selection) := by
  induction steps with
  | zero => rw [Function.iterate_zero_apply, Nat.zero_mul, Nat.add_zero]
  | succ steps ih => rw [Function.iterate_succ_apply', ih, next_state, Nat.succ_mul, Nat.add_assoc]

/-- The iterators of all threads point at the same elements. -/
private theorem deref_state_congr (distinct : Function.Injective selection)
    {other : Vec (BitVec w) (n + 1)} (member : idx ∈ box threadCount)
    (otherMember : other ∈ box threadCount) {first second : ℕ}
    (same : first % 2 ^ w = second % 2 ^ w) :
    ConstIterator.deref selection (state range threadCount .strided selection idx first) =
      ConstIterator.deref selection (state range threadCount .strided selection other second) := by
  have word : (first : BitVec w) = (second : BitVec w) := by
    apply BitVec.eq_of_toNat_eq
    rw [toNat_cast, toNat_cast, same]
  have offset : (ofThread range threadCount .strided selection idx).begin.offsetMD =
      (ofThread range threadCount .strided selection other).begin.offsetMD :=
    (offsetMD_words .strided distinct member).trans
      (offsetMD_words .strided distinct otherMember).symm
  unfold ConstIterator.deref state
  rw [word, offset]
  rfl

/-- There are as many words as indices. -/
private theorem ncard_words (proper : range.toNats.Proper)
    (distinct : Function.Injective selection) :
    (range.words selection).ncard = total range.toNats selection := by
  have numbered := IdxRange.ofNats_bijOn.comp (element_bijOn proper distinct)
  rw [← numbered.ncard_eq]
  exact (congrArg Set.ncard (Finset.coe_range _).symm).trans
    ((Set.ncard_coe_finset _).trans (Finset.card_range _))

/-- The threads visit no more words than the computed number of indices. -/
private theorem total_lt_of_sharesOut (proper : range.toNats.Proper)
    (distinct : Function.Injective selection) (positive : ∀ d, 0 < threadCount d)
    (exact : (extents range selection).toNats = range.toNats.logicalExtent selection)
    (shares : Math.Loop.SharesOut
      (fun idx => (ofThread range threadCount .strided selection idx).loop)
      (fun idx => (ofThread range threadCount .strided selection idx).begin) (box threadCount)
      (range.words selection)) : total range.toNats selection < 2 ^ w := by
  have few : range.words selection ⊆ (fun number => ConstIterator.deref selection
      (state range threadCount .strided selection (fun _ => 0) number)) ''
        (Finset.range (total range.toNats selection % 2 ^ w)) := by
    intro x inside
    obtain ⟨idx, member, steps, running, rfl⟩ := shares.exists_visits inside
    have here := running steps le_rfl
    rw [begin_eq_state] at here ⊢
    rw [← Bool.not_eq_true, show (ofThread range threadCount .strided selection idx).loop.next =
      ConstIterator.next from rfl, iterate_state, done_state exact, not_le] at here
    refine ⟨_, Finset.mem_coe.mpr (Finset.mem_range.mpr here), ?_⟩
    refine (deref_state_congr distinct positive member (Nat.mod_mod _ _)).trans ?_
    exact congrArg (ConstIterator.deref selection) (iterate_state _ steps).symm
  have counted := (Set.ncard_le_ncard few).trans (Set.ncard_image_le (Finset.finite_toSet _))
  rw [ncard_words proper distinct, Set.ncard_coe_finset, Finset.card_range] at counted
  exact counted.trans_lt (Nat.mod_lt _ (Nat.two_pow_pos w))

private theorem exists_slot (distinct : Function.Injective selection)
    (maps : MapsBijectively threadCount.toNats selection) {number : ℕ}
    (inside : number < numSlots threadCount.toNats selection) :
    ∃ idx ∈ box threadCount, slot threadCount.toNats selection idx.toNats = number :=
  ((slot_bijOn distinct maps).comp (toNats_box threadCount)).surjOn inside

section Necessary

variable (proper : range.toNats.Proper) (distinct : Function.Injective selection)
  (positive : ∀ d, 0 < threadCount d) (maps : MapsBijectively threadCount.toNats selection)
  (exact : (extents range selection).toNats = range.toNats.logicalExtent selection)
  (shares : Math.Loop.SharesOut
    (fun idx => (ofThread range threadCount .strided selection idx).loop)
    (fun idx => (ofThread range threadCount .strided selection idx).begin) (box threadCount)
    (range.words selection))

include distinct exact shares

/-- No linear index is reached twice. -/
private theorem eq_of_reached (representable : total range.toNats selection < 2 ^ w)
    {other : Vec (BitVec w) (n + 1)} (member : idx ∈ box threadCount)
    (otherMember : other ∈ box threadCount) {steps otherSteps number : ℕ}
    (inside : ∀ step ≤ steps, (slot threadCount.toNats selection idx.toNats +
      step * numSlots threadCount.toNats selection) % 2 ^ w < total range.toNats selection)
    (otherInside : ∀ step ≤ otherSteps, (slot threadCount.toNats selection other.toNats +
      step * numSlots threadCount.toNats selection) % 2 ^ w < total range.toNats selection)
    (here : (slot threadCount.toNats selection idx.toNats +
      steps * numSlots threadCount.toNats selection) % 2 ^ w = number)
    (otherHere : (slot threadCount.toNats selection other.toNats +
      otherSteps * numSlots threadCount.toNats selection) % 2 ^ w = number) :
    idx = other ∧ steps = otherSteps :=
  shares.eq_of_visits member otherMember
    (visits_words distinct member exact representable inside here)
    (visits_words distinct otherMember exact representable otherInside otherHere)

include maps

/-- There are no more slots than numbers: the first element is not visited twice. -/
private theorem slots_of_sharesOut (representable : total range.toNats selection < 2 ^ w)
    (present : 0 < total range.toNats selection) :
    numSlots threadCount.toNats selection < 2 ^ w := by
  by_contra many
  have wide := Nat.two_pow_pos w
  obtain ⟨idx, member, number⟩ := exists_slot distinct maps
    (show 0 < numSlots threadCount.toNats selection by omega)
  have first : ∀ step ≤ 0, (slot threadCount.toNats selection idx.toNats +
      step * numSlots threadCount.toNats selection) % 2 ^ w < total range.toNats selection := by
    intro step within
    rw [number, Nat.le_zero.mp within, Nat.zero_mul, Nat.zero_mod]
    exact present
  rcases (not_lt.mp many).eq_or_lt with same | more
  · -- the first thread does not leave the first element
    have stays (step : ℕ) : (slot threadCount.toNats selection idx.toNats +
        step * numSlots threadCount.toNats selection) % 2 ^ w = 0 := by
      rw [number, ← same, Nat.zero_add, Nat.mul_mod_left]
    have twice := eq_of_reached distinct exact shares representable member member first
      (fun step _ => (stays step).trans_lt present) (stays 0) (stays 1)
    exact Nat.zero_ne_one twice.2
  · obtain ⟨other, otherMember, otherNumber⟩ := exists_slot distinct maps more
    have otherFirst : ∀ step ≤ 0, (slot threadCount.toNats selection other.toNats +
        step * numSlots threadCount.toNats selection) % 2 ^ w < total range.toNats selection := by
      intro step within
      rw [otherNumber, Nat.le_zero.mp within, Nat.zero_mul, Nat.add_zero, Nat.mod_self]
      exact present
    have twice := eq_of_reached distinct exact shares representable member otherMember first
      otherFirst (by rw [number, Nat.zero_mul, Nat.zero_mod])
      (by rw [otherNumber, Nat.zero_mul, Nat.add_zero, Nat.mod_self])
    rw [twice.1, otherNumber] at number
    exact wide.ne' number

/-- When adding the number of slots overflows, the thread that visits the last element goes
on with one that another thread visits first. -/
private theorem room_of_sharesOut (representable : total range.toNats selection < 2 ^ w)
    (present : 0 < total range.toNats selection) :
    total range.toNats selection + numSlots threadCount.toNats selection ≤ 2 ^ w := by
  have threads := slots_of_sharesOut distinct maps exact shares representable present
  by_contra overflow
  obtain ⟨last, elements⟩ : ∃ last, total range.toNats selection = last + 1 :=
    ⟨total range.toNats selection - 1, by omega⟩
  have slots : 0 < numSlots threadCount.toNats selection := by omega
  obtain ⟨idx, member, number⟩ := exists_slot distinct maps (Nat.mod_lt last slots)
  obtain ⟨other, otherMember, otherNumber⟩ := exists_slot distinct maps
    (show last + numSlots threadCount.toNats selection - 2 ^ w < _ by omega)
  have split := Nat.mod_add_div' last (numSlots threadCount.toNats selection)
  have wrapped : (slot threadCount.toNats selection idx.toNats +
      (last / numSlots threadCount.toNats selection + 1) *
        numSlots threadCount.toNats selection) % 2 ^ w =
      last + numSlots threadCount.toNats selection - 2 ^ w := by
    rw [number, Nat.succ_mul, ← Nat.add_assoc, split, Nat.mod_eq_sub_mod (by omega),
      Nat.mod_eq_of_lt (by omega)]
  have inside (step : ℕ) (within : step ≤ last / numSlots threadCount.toNats selection + 1) :
      (slot threadCount.toNats selection idx.toNats +
        step * numSlots threadCount.toNats selection) % 2 ^ w < total range.toNats selection := by
    obtain beyond | before := Nat.eq_or_lt_of_le within
    · rw [beyond, wrapped]
      omega
    · have earlier := Nat.mul_le_mul_right (numSlots threadCount.toNats selection)
        (Nat.le_of_lt_succ before)
      rw [number, Nat.mod_eq_of_lt (by omega)]
      omega
  have start : (slot threadCount.toNats selection other.toNats +
      0 * numSlots threadCount.toNats selection) % 2 ^ w =
        last + numSlots threadCount.toNats selection - 2 ^ w := by
    rw [otherNumber, Nat.zero_mul, Nat.add_zero, Nat.mod_eq_of_lt (by omega)]
  have twice := eq_of_reached distinct exact shares representable member otherMember inside
    (fun step within => by
      obtain rfl := Nat.le_zero.mp within
      rw [start]
      omega) wrapped start
  exact Nat.succ_ne_zero _ twice.2

end Necessary

/-- **Flat traversal in machine arithmetic.** Where `mapTo` keeps the threads apart, those of
a strided container share out the selected dimensions if and only if there is nothing to
iterate over, or nothing overflows. -/
theorem strided_words_iff (proper : range.toNats.Proper) (distinct : Function.Injective selection)
    (positive : ∀ d, 0 < threadCount d) (maps : MapsBijectively threadCount.toNats selection) :
    Math.Loop.SharesOut (fun idx => (ofThread range threadCount .strided selection idx).loop)
      (fun idx => (ofThread range threadCount .strided selection idx).begin) (box threadCount)
      (range.words selection) ↔
      (∃ i, range.toNats.logicalExtent selection i = 0) ∨
        (∀ i, range.toNats.distance (selection i) + range.toNats.strideMd (selection i) ≤ 2 ^ w) ∧
        total range.toNats selection + numSlots threadCount.toNats selection ≤ 2 ^ w := by
  have nothing := IdxRange.words_eq_empty_iff proper distinct
  by_cases empty : ∃ i, range.toNats.logicalExtent selection i = 0
  · exact ⟨fun _ => .inl empty, fun _ => sharesOut_of_empty .strided proper distinct empty⟩
  by_cases fits : ∀ i, range.toNats.distance (selection i) +
      range.toNats.strideMd (selection i) ≤ 2 ^ w
  · have exact := toNats_extents proper fits
    constructor
    · intro shares
      have present : 0 < total range.toNats selection :=
        Finset.prod_pos fun i _ => Nat.pos_of_ne_zero fun none => empty ⟨i, none⟩
      have representable := total_lt_of_sharesOut proper distinct positive exact shares
      exact .inr ⟨fits, room_of_sharesOut distinct maps exact shares representable present⟩
    · rintro (none | ⟨_, room⟩)
      · exact absurd none empty
      · exact ⟨_, fun idx member => strided_yields_words distinct positive maps exact room member,
          IdxRange.words_partitions
            (strided_partitions proper (toNats_positive positive) distinct maps)⟩
  · obtain ⟨i, overflow⟩ := not_forall.mp fits
    have zero : (extents range selection i).toNat = 0 :=
      IdxRange.toNat_extent_of_wraps proper (not_le.mp overflow)
    rw [sharesOut_iff_of_zero .strided zero, nothing]
    exact ⟨fun none => .inl none, fun either => either.resolve_right fun fit => fits fit.1⟩

/-! ## The contiguous layout -/

/-- The blocks of a contiguous container begin where the split among the original threads of
the selected dimensions does, modulo the width. -/
private theorem contiguous_current (distinct : Function.Injective selection)
    (exact : (extents range selection).toNats = range.toNats.logicalExtent selection)
    (representable : total range.toNats selection < 2 ^ w)
    (begins : ∏ i, (threadCount (selection i)).toNat < 2 ^ w)
    (narrow : slot threadCount.toNats selection idx.toNats < 2 ^ w) :
    (ofThread range threadCount .contiguous selection idx).begin.current =
      (Math.blockStart (total range.toNats selection) (∏ i, (threadCount (selection i)).toNat)
        (slot threadCount.toNats selection idx.toNats) : BitVec w) := by
  have logical := product_extents exact
  rw [Nat.mod_eq_of_lt representable] at logical
  have slots : (Vec.product (Vec.swizzle threadCount selection)).toNat =
      ∏ i, (threadCount (selection i)).toNat :=
    (Vec.toNat_product _).trans (Nat.mod_eq_of_lt begins)
  have number : linearize (Vec.swizzle threadCount selection)
      (Vec.swizzle ((ThreadSpace.mk idx threadCount).mapTo selection).threadIdx selection) =
        (slot threadCount.toNats selection idx.toNats : BitVec w) := by
    rw [← slot_eq distinct, ← linearize_ofNats, ThreadSpace.mapTo_eq_ofNats]
    exact congrArg (linearize · _) (Vec.ofNats_toNats (Vec.swizzle threadCount selection)).symm
  apply BitVec.eq_of_toNat_eq
  change (linearize (Vec.swizzle threadCount selection)
      (Vec.swizzle ((ThreadSpace.mk idx threadCount).mapTo selection).threadIdx selection) *
        (Vec.product (extents range selection) / Vec.product (Vec.swizzle threadCount selection)) +
      stdMin (linearize (Vec.swizzle threadCount selection)
        (Vec.swizzle ((ThreadSpace.mk idx threadCount).mapTo selection).threadIdx selection))
        (Vec.product (extents range selection) %
          Vec.product (Vec.swizzle threadCount selection))).toNat = _
  rw [number, BitVec.toNat_add, BitVec.toNat_mul, toNat_stdMin, BitVec.toNat_udiv,
    BitVec.toNat_umod, logical, slots, toNat_cast, toNat_cast, Nat.mod_eq_of_lt narrow,
    Nat.mod_add_mod]
  rfl

/-- They end where the split among all threads does. -/
private theorem contiguous_end
    (exact : (extents range selection).toNats = range.toNats.logicalExtent selection)
    (representable : total range.toNats selection < 2 ^ w)
    (ends : numSlots threadCount.toNats selection < 2 ^ w)
    (inside : slot threadCount.toNats selection idx.toNats <
      numSlots threadCount.toNats selection) :
    (ofThread range threadCount .contiguous selection idx).end.toNat =
      min (Math.blockStart (total range.toNats selection) (numSlots threadCount.toNats selection)
        (slot threadCount.toNats selection idx.toNats + 1)) (total range.toNats selection) := by
  have logical := product_extents exact
  rw [Nat.mod_eq_of_lt representable] at logical
  have slots : (Vec.product (Vec.swizzle
      ((ThreadSpace.mk idx threadCount).mapTo selection).threadCount selection)).toNat =
        numSlots threadCount.toNats selection := by
    rw [ThreadSpace.mapTo_eq_ofNats]
    refine (congrArg BitVec.toNat (Vec.product_ofNats _)).trans ?_
    rw [toNat_cast]
    exact Nat.mod_eq_of_lt ends
  have number : linearize (Vec.swizzle
      ((ThreadSpace.mk idx threadCount).mapTo selection).threadCount selection)
      (Vec.swizzle ((ThreadSpace.mk idx threadCount).mapTo selection).threadIdx selection) + 1 =
        ((slot threadCount.toNats selection idx.toNats + 1 : ℕ) : BitVec w) := by
    rw [ThreadSpace.mapTo_eq_ofNats, Nat.cast_succ]
    exact congrArg (· + 1) (linearize_ofNats _ _)
  have within := Math.blockStart_le (Nat.zero_lt_of_lt inside) (total range.toNats selection) inside
  change (stdMin ((linearize (Vec.swizzle
      ((ThreadSpace.mk idx threadCount).mapTo selection).threadCount selection)
      (Vec.swizzle ((ThreadSpace.mk idx threadCount).mapTo selection).threadIdx selection) + 1) *
        (Vec.product (extents range selection) / Vec.product (Vec.swizzle
          ((ThreadSpace.mk idx threadCount).mapTo selection).threadCount selection)) +
      stdMin (linearize (Vec.swizzle
        ((ThreadSpace.mk idx threadCount).mapTo selection).threadCount selection)
        (Vec.swizzle ((ThreadSpace.mk idx threadCount).mapTo selection).threadIdx selection) + 1)
        (Vec.product (extents range selection) % Vec.product (Vec.swizzle
          ((ThreadSpace.mk idx threadCount).mapTo selection).threadCount selection)))
      (Vec.product (extents range selection))).toNat = _
  have next : (slot threadCount.toNats selection idx.toNats + 1) % 2 ^ w =
      slot threadCount.toNats selection idx.toNats + 1 := Nat.mod_eq_of_lt (by omega)
  rw [toNat_stdMin, number, BitVec.toNat_add, BitVec.toNat_mul, toNat_stdMin, BitVec.toNat_udiv,
    BitVec.toNat_umod, logical, slots, toNat_cast, next, Nat.mod_add_mod]
  exact congrArg (min · _) (Nat.mod_eq_of_lt (within.trans_lt representable))

/-- **Contiguous blocks in machine arithmetic.** A thread whose block begins at a representable
number visits what it visits in exact arithmetic. -/
theorem contiguous_yields (proper : range.toNats.Proper) (distinct : Function.Injective selection)
    (positive : ∀ d, 0 < threadCount d) (maps : MapsBijectively threadCount.toNats selection)
    (fits : ∀ i, range.toNats.distance (selection i) + range.toNats.strideMd (selection i) ≤ 2 ^ w)
    (representable : total range.toNats selection < 2 ^ w)
    (slots : numSlots threadCount.toNats selection < 2 ^ w)
    (begins : ∏ i, (threadCount (selection i)).toNat < 2 ^ w)
    (member : idx ∈ box threadCount)
    (start : Math.blockStart (total range.toNats selection)
      (∏ i, (threadCount (selection i)).toNat) (slot threadCount.toNats selection idx.toNats) <
        2 ^ w) :
    (ofThread range threadCount .contiguous selection idx).loop.Yields
      (ofThread range threadCount .contiguous selection idx).begin
      ((ofThread range.toNats threadCount.toNats .contiguous selection idx.toNats).indices.map
        Vec.ofNats) := by
  have exact := toNats_extents proper fits
  have inside := (slot_bijOn distinct maps).mapsTo ((toNats_box threadCount).mapsTo member)
  refine yields_words distinct positive member exact representable
    (contiguous_current distinct exact representable begins (lt_trans inside slots))
    (Nat.cast_one (R := BitVec w)).symm (contiguous_end exact representable slots inside)
    (linearIndices_contiguous distinct _) Nat.one_pos (Nat.min_le_right _ _) ?_
  rw [Math.length_progression_one]
  omega

end Thread

section Full

variable {range : IdxRange (BitVec w) (n + 1)} {threadCount : Vec (BitVec w) (n + 1)}
  {selection : CSelect (n + 1) (n + 1)}

/-- **Flat traversal in machine arithmetic.** With the strided layout the threads share out
the range if and only if it is empty or nothing overflows. -/
theorem sharesOut_iff (proper : range.toNats.Proper) (distinct : Function.Injective selection)
    (positive : ∀ d, 0 < threadCount d) :
    SharesOut range threadCount selection ↔
      (∃ i, range.toNats.logicalExtent selection i = 0) ∨
        Fits range.toNats threadCount.toNats selection (2 ^ w) := by
  have bijective : Function.Bijective selection :=
    ⟨distinct, ThreadSpace.surjective_of_full distinct le_rfl⟩
  have slots : numSlots threadCount.toNats selection = ∏ d, threadCount.toNats d := by
    rw [numSlots, ThreadSpace.mapCount_of_le le_rfl]
    exact bijective.prod_comp threadCount.toNats
  refine (strided_words_iff proper distinct positive
    (ThreadSpace.mapsBijectively_of_full distinct le_rfl _)).trans (or_congr_right ?_)
  rw [slots]
  constructor
  · rintro ⟨distance, room⟩
    refine ⟨fun d => ?_, room⟩
    obtain ⟨i, rfl⟩ := bijective.2 d
    exact distance i
  · rintro ⟨distance, room⟩
    exact ⟨fun i => distance (selection i), room⟩

end Full

end Alpaka.FlatIdxContainer
