import Alpaka.Mem.FlatWidth

/-! # Flat traversal of selected dimensions

Under a proper selection `begin` splits the indices among fewer workers than `end`. This does
no harm when every slot holds at most one index; otherwise the first index behind the first
block is lost, unless a begin wraps around and happens to fall on it. A traversal of selected
dimensions is right when nothing overflows and the begins do no harm
(`Alpaka.FlatIdxContainer.selectedTraversal_iff`).
-/

namespace Alpaka.FlatIdxContainer

open ThreadSpace (mapIdx mapCount MapsBijectively KeepsThreads)

variable {w n k : ℕ}

/-! ## Two numbers of workers -/

/-- With at most one index in every slot the begins are right even when they are
computed from fewer workers. -/
theorem mem_block_of_le {total begins ends slot x : ℕ} (few : total ≤ begins)
    (fewer : begins ≤ ends) : x ∈ block total begins ends slot ↔ x = slot ∧ x < total := by
  have start (workers worker : ℕ) (within : total ≤ workers) :
      min (Math.blockStart total workers worker) total = min worker total := by
    unfold Math.blockStart
    rcases Nat.lt_or_eq_of_le within with less | same
    · rw [Nat.div_eq_of_lt less, Nat.mod_eq_of_lt less]
      omega
    · subst same
      rcases Nat.eq_zero_or_pos total with zero | present
      · omega
      · rw [Nat.div_self present, Nat.mod_self]
        omega
  have first := start begins slot few
  have last := start ends (slot + 1) (few.trans fewer)
  rw [block, Math.mem_progression_one]
  omega

/-- The first block ends at the rounded up quotient. -/
theorem blockStart_one_le_iff {workers : ℕ} (positive : 0 < workers) (total x : ℕ) :
    Math.blockStart total workers 1 ≤ x ↔ total ≤ x * workers := by
  have remainder := Nat.mod_lt total positive
  have split := Nat.div_add_mod' total workers
  unfold Math.blockStart
  rcases Nat.lt_trichotomy x (total / workers) with below | same | above
  · have room : (x + 1) * workers ≤ total / workers * workers := Nat.mul_le_mul_right _ below
    rw [Nat.succ_mul] at room
    omega
  · subst same
    omega
  · have room : (total / workers + 1) * workers ≤ x * workers := Nat.mul_le_mul_right _ above
    rw [Nat.succ_mul] at room
    omega

/-- The index behind the first block is in no block when there are more indices
than begins. -/
theorem lost_index {total begins ends : ℕ} (positive : 0 < begins) (twice : 2 * begins ≤ ends)
    (many : begins < total) :
    Math.blockStart total ends 1 < total ∧
      ∀ slot, Math.blockStart total ends 1 ∉ block total begins ends slot := by
  have present : 0 < ends := by omega
  obtain ⟨lost, value⟩ : ∃ lost, lost = Math.blockStart total ends 1 := ⟨_, rfl⟩
  rw [← value]
  have covered : total ≤ lost * ends := (blockStart_one_le_iff present total lost).mp value.ge
  obtain ⟨before, rfl⟩ : ∃ before, lost = before + 1 := by
    refine ⟨lost - 1, ?_⟩
    rcases Nat.eq_zero_or_pos lost with zero | later
    · subst zero
      omega
    · omega
  have short : before * ends < total := by
    have least := mt (blockStart_one_le_iff present total before).mpr (by omega)
    omega
  have inside : (before + 1) * begins < total := by
    rcases Nat.eq_zero_or_pos before with zero | later
    · subst zero
      omega
    · calc (before + 1) * begins ≤ before * 2 * begins := Nat.mul_le_mul_right _ (by omega)
        _ = before * (2 * begins) := Nat.mul_assoc _ _ _
        _ ≤ before * ends := Nat.mul_le_mul_left _ twice
        _ < total := short
  have skipped : before + 1 < Math.blockStart total begins 1 := by
    have later := mt (blockStart_one_le_iff positive total (before + 1)).mp (by omega)
    omega
  refine ⟨?_, fun slot held => ?_⟩
  · have grown : before + 1 ≤ (before + 1) * begins := Nat.le_mul_of_pos_right _ positive
    omega
  · have bounds := Math.mem_progression_one.mp held
    cases slot with
    | zero =>
        rw [Nat.zero_add] at bounds
        omega
    | succ slot =>
        have mono := Math.blockStart_mono total begins (show 1 ≤ slot + 1 by omega)
        omega

section Numbers

variable {range : IdxRange ℕ (n + 1)} {threadCount : Vec ℕ (n + 1)}
  {selection : CSelect (k + 1) (n + 1)}

/-- The unselected threads multiply the number of slots. -/
theorem numSlots_of_lt (proper : k < n) (distinct : Function.Injective selection)
    (threadCount : Vec ℕ (n + 1)) :
    numSlots threadCount selection = (∏ i, threadCount (selection i)) *
      ∏ d ∈ ThreadSpace.unselected selection, threadCount d := by
  have slow : mapCount threadCount selection (selection 0) = threadCount (selection 0) *
      ∏ d ∈ ThreadSpace.unselected selection, threadCount d := by
    rw [ThreadSpace.mapCount_of_lt proper]
    simp only [↓reduceIte]
  rw [numSlots, Fin.prod_univ_succ, Fin.prod_univ_succ, slow]
  simp only [mapCount_faster distinct]
  ring

/-- Both layouts are right when every slot holds at most one index. -/
private theorem contiguous_of_few (proper : k < n) (rangeProper : range.Proper)
    (positive : ∀ d, 0 < threadCount d) (distinct : Function.Injective selection)
    (maps : MapsBijectively threadCount selection)
    (few : total range selection ≤ ∏ i, threadCount (selection i)) :
    Math.Partitions (threadIdxs threadCount)
      (fun idx => (ofThread range threadCount .contiguous selection idx).indices)
      (range.lattice selection) := by
  have fewer : ∏ i, threadCount (selection i) ≤ numSlots threadCount selection := by
    rw [numSlots_of_lt proper distinct threadCount]
    exact Nat.le_mul_of_pos_right _ (Finset.prod_pos fun d _ => positive d)
  refine indices_partitions rangeProper positive distinct maps
    (linearIndices_contiguous distinct) ?_
  refine ⟨fun slot _ => Math.progression_nodup Nat.one_pos, ?_, fun x => ?_⟩
  · intro first _ second _ x heldFirst heldSecond
    rw [mem_block_of_le few fewer] at heldFirst heldSecond
    exact heldFirst.1.symm.trans heldSecond.1
  · simp only [mem_block_of_le few fewer, Set.mem_ofPred_eq]
    refine ⟨fun below => ⟨x, by omega, rfl, below⟩, fun ⟨slot, _, _, below⟩ => below⟩

/-- Under the contiguous layout the threads share out the lattice where the begins do no harm. -/
private theorem contiguous_of_begins (proper : k < n) (rangeProper : range.Proper)
    (positive : ∀ d, 0 < threadCount d) (distinct : Function.Injective selection)
    (maps : MapsBijectively threadCount selection)
    (begins : ∏ d ∈ ThreadSpace.unselected selection, threadCount d = 1 ∨
      total range selection ≤ ∏ i, threadCount (selection i)) :
    Math.Partitions (threadIdxs threadCount)
      (fun idx => (ofThread range threadCount .contiguous selection idx).indices)
      (range.lattice selection) := by
  rcases begins with none | few
  · apply contiguous_partitions rangeProper positive distinct maps
    rw [numSlots_of_lt proper distinct threadCount, none, Nat.mul_one]
  · exact contiguous_of_few proper rangeProper positive distinct maps few

/-- With at most one index to a worker, a block begins at the worker's number or behind the last
index. -/
private theorem blockStart_le_max {total workers : ℕ} (few : total ≤ workers) (worker : ℕ) :
    Math.blockStart total workers worker ≤ max worker total := by
  unfold Math.blockStart
  rcases Nat.lt_or_eq_of_le few with less | rfl
  · rw [Nat.div_eq_of_lt less, Nat.mod_eq_of_lt less]
    omega
  · rcases Nat.eq_zero_or_pos total with rfl | present
    · omega
    · rw [Nat.div_self present, Nat.mod_self]
      omega

/-- When there are more indices than threads of the selected dimensions, and other threads are
folded in, some index is in no block. -/
private theorem exists_lost (proper : k < n) (rangeProper : range.Proper)
    (positive : ∀ d, 0 < threadCount d) (distinct : Function.Injective selection)
    (folded : ∏ d ∈ ThreadSpace.unselected selection, threadCount d ≠ 1)
    (many : ∏ i, threadCount (selection i) < total range selection) :
    ∃ x ∈ range.lattice selection, ∀ idx ∈ threadIdxs threadCount,
      x ∉ (ofThread range threadCount .contiguous selection idx).indices := by
  have slots := numSlots_of_lt proper distinct threadCount
  have present : 0 < ∏ d ∈ ThreadSpace.unselected selection, threadCount d :=
    Finset.prod_pos fun d _ => positive d
  have begins : 0 < ∏ i, threadCount (selection i) := Finset.prod_pos fun i _ => positive _
  have twice : 2 * ∏ i, threadCount (selection i) ≤ numSlots threadCount selection := by
    rw [slots, Nat.mul_comm]
    exact Nat.mul_le_mul_left _ (by omega)
  obtain ⟨below, lost⟩ := lost_index begins twice many
  refine ⟨_, (element_bijOn rangeProper distinct).mapsTo below, fun idx member held => ?_⟩
  rw [ofThread_indices positive distinct .contiguous member,
    linearIndices_contiguous distinct] at held
  obtain ⟨number, inBlock, same⟩ := List.mem_map.mp held
  have numberBelow : number < total range selection := by
    have := (Math.mem_progression_one.mp inBlock).2
    omega
  have equal := (element_bijOn rangeProper distinct).injOn numberBelow below same
  exact lost _ (equal ▸ inBlock)

/-- The indices of a block are those of the range. -/
private theorem indices_sound (rangeProper : range.Proper) (positive : ∀ d, 0 < threadCount d)
    (distinct : Function.Injective selection) {idx : Vec ℕ (n + 1)}
    (member : idx ∈ threadIdxs threadCount) {x : Vec ℕ (n + 1)}
    (held : x ∈ (ofThread range threadCount .contiguous selection idx).indices) :
    x ∈ range.lattice selection := by
  rw [ofThread_indices positive distinct .contiguous member,
    linearIndices_contiguous distinct] at held
  obtain ⟨number, inBlock, rfl⟩ := List.mem_map.mp held
  have below := (Math.mem_progression_one.mp inBlock).2
  exact (element_bijOn rangeProper distinct).mapsTo (show number < total range selection by omega)

end Numbers

/-! ## Machine arithmetic -/

/-- The container of a thread, restricted to selected dimensions. -/
def ofSelected (range : IdxRange (BitVec w) (n + 1)) (threadCount : Vec (BitVec w) (n + 1))
    (layout : Layout) (selection : CSelect (k + 1) (n + 1)) (idx : Vec (BitVec w) (n + 1)) :
    FlatIdxContainer (BitVec w) n k :=
  (ofThread range threadCount layout id idx).select selection

/-- The indices that the threads visit. -/
def visited (range : IdxRange (BitVec w) (n + 1)) (threadCount : Vec (BitVec w) (n + 1))
    (layout : Layout) (selection : CSelect (k + 1) (n + 1)) : Set (Vec (BitVec w) (n + 1)) :=
  {x | ∃ idx ∈ box threadCount, ∃ steps, (ofSelected range threadCount layout selection
    idx).loop.Visits (ofSelected range threadCount layout selection idx).begin steps x}

/-- What a traversal of selected dimensions promises: all threads terminate without a division
by zero, they share out the range, and they do so under both layouts. -/
structure SelectedTraversal (range : IdxRange (BitVec w) (n + 1))
    (threadCount : Vec (BitVec w) (n + 1)) (selection : CSelect (k + 1) (n + 1)) : Prop where
  divides : ∀ idx ∈ box threadCount,
    (ofSelected range threadCount .contiguous selection idx).Divides
  sharesOut : ∀ layout, Math.Loop.SharesOut
    (fun idx => (ofSelected range threadCount layout selection idx).loop)
    (fun idx => (ofSelected range threadCount layout selection idx).begin) (box threadCount)
    (range.words selection)
  sameIndices : visited range threadCount .strided selection =
    visited range threadCount .contiguous selection

/-- Nothing overflows, and the begins do no harm. -/
structure Enough (range : IdxRange ℕ (n + 1)) (threadCount : Vec ℕ (n + 1))
    (selection : CSelect (k + 1) (n + 1)) (limit : ℕ) : Prop where
  distance : ∀ i, range.distance (selection i) + range.strideMd (selection i) ≤ limit
  room : total range selection + ∏ d, threadCount d ≤ limit
  begins : ∏ d ∈ ThreadSpace.unselected selection, threadCount d = 1 ∨
    total range selection ≤ ∏ i, threadCount (selection i)

section Words

variable {range : IdxRange (BitVec w) (n + 1)} {threadCount : Vec (BitVec w) (n + 1)}
  {selection : CSelect (k + 1) (n + 1)}

/-- In two dimensions no thread is lost in exact arithmetic. -/
private theorem maps_of_two (proper : k < n) (positive : ∀ d, 0 < threadCount d)
    (keeps : n = 1 ∨ KeepsThreads threadCount selection) :
    MapsBijectively threadCount.toNats selection := by
  rcases keeps with two | keeps
  · subst two
    apply ThreadSpace.mapsBijectively_of_single proper
    intro d e outsideD outsideE different
    have slowD := outsideD 0
    have slowE := outsideE 0
    omega
  · exact keeps.maps positive

/-- A slot for every thread. -/
private theorem numSlots_eq (threadCount : Vec ℕ (n + 1))
    (distinct : Function.Injective selection) :
    numSlots threadCount selection = ∏ d, threadCount d := by
  have product := ThreadSpace.mapCount_product threadCount selection
  rw [Vec.product_eq_prod, Vec.product_eq_prod] at product
  rw [← product]
  refine Fintype.prod_of_injective selection distinct _ _ (fun d outside => ?_) fun _ => rfl
  exact ThreadSpace.mapCount_unselected threadCount distinct fun i same => outside ⟨i, same⟩

/-- There is no division by zero unless the number of threads is zero modulo the width. -/
private theorem divides_iff_slots (proper : k < n) (distinct : Function.Injective selection)
    (idx : Vec (BitVec w) (n + 1)) :
    (ofSelected range threadCount .contiguous selection idx).Divides ↔
      ¬ 2 ^ w ∣ ∏ d, (threadCount d).toNat := by
  have slots := (numSlots_eq threadCount.toNats distinct).symm.trans
    (numSlots_of_lt proper distinct threadCount.toNats)
  have nonzero (number : BitVec w) : number ≠ 0 ↔ number.toNat ≠ 0 := by
    rw [ne_eq, BitVec.toNat_eq]
    rfl
  have ends : (Vec.product (Vec.swizzle
      ((ThreadSpace.mk idx threadCount).mapTo selection).threadCount selection)).toNat =
        (∏ d, (threadCount d).toNat) % 2 ^ w := by
    rw [ThreadSpace.mapTo_eq_ofNats]
    refine (congrArg BitVec.toNat (Vec.product_ofNats _)).trans ?_
    rw [toNat_cast]
    exact congrArg (· % 2 ^ w) (numSlots_eq threadCount.toNats distinct)
  unfold Divides
  rw [nonzero, nonzero]
  change (Vec.product (Vec.swizzle threadCount selection)).toNat ≠ 0 ∧
    (Vec.product (Vec.swizzle
      ((ThreadSpace.mk idx threadCount).mapTo selection).threadCount selection)).toNat ≠ 0 ↔ _
  rw [ends, Vec.toNat_product, Nat.dvd_iff_mod_eq_zero]
  refine ⟨fun both => both.2, fun rest => ⟨fun zero => rest ?_, rest⟩⟩
  exact Nat.mod_eq_zero_of_dvd ((Nat.dvd_of_mod_eq_zero zero).trans ⟨_, slots⟩)

/-- Where both layouts share out the range they visit the same indices. -/
private theorem visited_eq (shares : ∀ layout, Math.Loop.SharesOut
      (fun idx => (ofSelected range threadCount layout selection idx).loop)
      (fun idx => (ofSelected range threadCount layout selection idx).begin) (box threadCount)
      (range.words selection)) (layout : Layout) :
    visited range threadCount layout selection = range.words selection := by
  ext x
  constructor
  · rintro ⟨idx, member, steps, visits⟩
    exact (shares layout).target_of_visits member visits
  · intro inside
    exact (shares layout).exists_visits inside

section Traversal

variable (proper : k < n) (rangeProper : range.toNats.Proper) (positive : ∀ d, 0 < threadCount d)
  (distinct : Function.Injective selection)
  (maps : MapsBijectively threadCount.toNats selection)

include proper distinct rangeProper positive maps

/-- Where nothing overflows and no block begins behind the representable numbers, the threads of
a contiguous container visit what they visit in exact arithmetic. -/
private theorem contiguous_words (fits : ∀ i, range.toNats.distance (selection i) +
      range.toNats.strideMd (selection i) ≤ 2 ^ w)
    (room : total range.toNats selection + ∏ d, (threadCount d).toNat ≤ 2 ^ w)
    (start : Math.blockStart (total range.toNats selection)
      (∏ i, (threadCount (selection i)).toNat) (∏ d, (threadCount d).toNat - 1) < 2 ^ w)
    (present : 0 < total range.toNats selection) {idx : Vec (BitVec w) (n + 1)}
    (member : idx ∈ box threadCount) :
    (ofSelected range threadCount .contiguous selection idx).loop.Yields
      (ofSelected range threadCount .contiguous selection idx).begin
      ((ofThread range.toNats threadCount.toNats .contiguous selection idx.toNats).indices.map
        Vec.ofNats) := by
  have slots := numSlots_eq threadCount.toNats distinct
  have inside := (slot_bijOn distinct maps).mapsTo ((toNats_box threadCount).mapsTo member)
  have below : slot threadCount.toNats selection idx.toNats ≤ ∏ d, (threadCount d).toNat - 1 :=
    Nat.le_sub_one_of_lt (lt_of_lt_of_eq inside slots)
  have few : ∏ i, (threadCount (selection i)).toNat ≤ ∏ d, (threadCount d).toNat := by
    refine Nat.le_of_dvd (Finset.prod_pos fun d _ => toNats_positive positive d) ?_
    exact ⟨_, slots.symm.trans (numSlots_of_lt proper distinct threadCount.toNats)⟩
  have threads : 0 < ∏ d, (threadCount d).toNat :=
    Finset.prod_pos fun d _ => toNats_positive positive d
  have narrow : ∏ d, (threadCount d).toNat < 2 ^ w := by omega
  have representable : total range.toNats selection < 2 ^ w := by omega
  exact contiguous_yields rangeProper distinct positive maps fits representable
    (slots.trans_lt narrow) (few.trans_lt narrow) member
    ((Math.blockStart_mono _ _ below).trans_lt start)

end Traversal

/-- Where the begins do no harm, none of them wraps around. -/
private theorem Enough.start_lt
    (enough : Enough range.toNats threadCount.toNats selection (2 ^ w)) (proper : k < n)
    (positive : ∀ d, 0 < threadCount d) (distinct : Function.Injective selection) :
    Math.blockStart (total range.toNats selection) (∏ i, (threadCount (selection i)).toNat)
      (∏ d, (threadCount d).toNat - 1) < 2 ^ w := by
  have room : total range.toNats selection + ∏ d, (threadCount d).toNat ≤ 2 ^ w := enough.room
  have slots := (numSlots_eq threadCount.toNats distinct).symm.trans
    (numSlots_of_lt proper distinct threadCount.toNats)
  have threads : 0 < ∏ d, (threadCount d).toNat :=
    Finset.prod_pos fun d _ => toNats_positive positive d
  rcases enough.begins with none | few
  · have same : ∏ d, (threadCount d).toNat = ∏ i, (threadCount (selection i)).toNat := by
      rw [none, Nat.mul_one] at slots
      exact slots
    have last := Math.blockStart_le threads (total range.toNats selection)
      (Nat.sub_le (∏ d, (threadCount d).toNat) 1)
    rw [← same]
    omega
  · have last := blockStart_le_max few (∏ d, (threadCount d).toNat - 1)
    refine last.trans_lt (max_lt ?_ ?_) <;> omega

/-- **Traversal of selected dimensions.** Where `mapTo` keeps the threads apart, both layouts
share out the range if there is no division by zero, and there is nothing to iterate over, or
nothing overflows and nothing is folded into the selection or the selected dimensions alone have
a thread for every index. Otherwise they do not, unless the begin of a block wraps around. -/
theorem selectedTraversal_iff (proper : k < n) (rangeProper : range.toNats.Proper)
    (positive : ∀ d, 0 < threadCount d) (distinct : Function.Injective selection)
    (keeps : n = 1 ∨ KeepsThreads threadCount selection) :
    (¬ 2 ^ w ∣ ∏ d, (threadCount d).toNat ∧
        ((∃ i, range.toNats.logicalExtent selection i = 0) ∨
          Enough range.toNats threadCount.toNats selection (2 ^ w)) →
      SelectedTraversal range threadCount selection) ∧
    (SelectedTraversal range threadCount selection →
      ¬ 2 ^ w ∣ ∏ d, (threadCount d).toNat ∧
        ((∃ i, range.toNats.logicalExtent selection i = 0) ∨
          Enough range.toNats threadCount.toNats selection (2 ^ w)) ∨
      2 ^ w ≤ Math.blockStart (total range.toNats selection)
        (∏ i, (threadCount (selection i)).toNat) (∏ d, (threadCount d).toNat - 1)) := by
  have maps := maps_of_two proper positive keeps
  have slots := numSlots_eq threadCount.toNats distinct
  have strided := strided_words_iff rangeProper distinct positive maps
  rw [slots] at strided
  have positiveNats := toNats_positive positive
  constructor
  · rintro ⟨divides, either⟩
    have shares (layout : Layout) : Math.Loop.SharesOut
        (fun idx => (ofSelected range threadCount layout selection idx).loop)
        (fun idx => (ofSelected range threadCount layout selection idx).begin) (box threadCount)
        (range.words selection) := by
      by_cases empty : ∃ i, range.toNats.logicalExtent selection i = 0
      · exact sharesOut_of_empty layout rangeProper distinct empty
      have enough := either.resolve_left empty
      cases layout with
      | strided => exact strided.mpr (.inr ⟨enough.distance, enough.room⟩)
      | contiguous =>
          have present : 0 < total range.toNats selection :=
            Finset.prod_pos fun i _ => Nat.pos_of_ne_zero fun none => empty ⟨i, none⟩
          exact ⟨_, fun idx member => contiguous_words proper rangeProper positive distinct maps
            enough.distance enough.room (enough.start_lt proper positive distinct) present member,
            IdxRange.words_partitions (contiguous_of_begins proper rangeProper positiveNats
              distinct maps enough.begins)⟩
    exact ⟨fun idx _ => (divides_iff_slots proper distinct idx).mpr divides, shares,
      (visited_eq shares .strided).trans (visited_eq shares .contiguous).symm⟩
  · intro traversal
    have divides := (divides_iff_slots proper distinct _).mp (traversal.divides _ positive)
    rcases strided.mp (traversal.sharesOut .strided) with empty | ⟨fits, room⟩
    · exact .inl ⟨divides, .inl empty⟩
    rcases Nat.lt_or_ge (Math.blockStart (total range.toNats selection)
      (∏ i, (threadCount (selection i)).toNat) (∏ d, (threadCount d).toNat - 1)) (2 ^ w) with
        start | wraps
    swap
    · exact .inr wraps
    refine .inl ⟨divides, or_iff_not_imp_left.mpr fun nonempty => ⟨fits, room, ?_⟩⟩
    have present : 0 < total range.toNats selection :=
      Finset.prod_pos fun i _ => Nat.pos_of_ne_zero fun none => nonempty ⟨i, none⟩
    by_contra harm
    obtain ⟨folded, many⟩ := not_or.mp harm
    obtain ⟨x, inside, lost⟩ :=
      exists_lost proper rangeProper positiveNats distinct folded (not_le.mp many)
    obtain ⟨share, yields, partition⟩ := traversal.sharesOut .contiguous
    obtain ⟨idx, member, held⟩ :=
      (partition.mem_iff _).mp (IdxRange.ofNats_bijOn.mapsTo inside)
    have shared := (yields idx member).unique _ (contiguous_words proper rangeProper positive
      distinct maps fits room start present member)
    rw [shared] at held
    obtain ⟨y, inIndices, same⟩ := List.mem_map.mp held
    have numbers := (toNats_box threadCount).mapsTo member
    have sound := indices_sound rangeProper positiveNats distinct numbers inIndices
    rw [IdxRange.ofNats_bijOn.injOn sound inside same] at inIndices
    exact lost _ numbers inIndices

/-- Two threads along the slow dimension, restricted to the fast one, over two indices: the
second index is lost. -/
theorem selectedTraversal_lost :
    ¬ SelectedTraversal (IdxRange.ofExtents ![1, 2] : IdxRange (BitVec 32) 2) ![2, 1]
      (![1] : CSelect 1 2) := by
  intro traversal
  have member : (![0, 1] : Vec (BitVec 32) 2) ∈
      (IdxRange.ofExtents ![1, 2] : IdxRange (BitVec 32) 2).words (![1] : CSelect 1 2) := by
    refine ⟨fun i => ⟨1, ?_⟩, ?_⟩
    · revert i
      decide
    · decide
  obtain ⟨idx, idxIn, steps, visits⟩ := (traversal.sharesOut .contiguous).exists_visits member
  have slow : (idx 0).toNat < 2 := idxIn 0
  have fast : (idx 1).toNat < 1 := idxIn 1
  have known : idx = ![0, 0] ∨ idx = ![1, 0] := by
    rcases (show (idx 0).toNat = 0 ∨ (idx 0).toNat = 1 by omega) with zero | one
    · refine .inl (funext fun d => BitVec.eq_of_toNat_eq ?_)
      match d with
      | 0 => exact zero
      | 1 => exact Nat.lt_one_iff.mp fast
    · refine .inr (funext fun d => BitVec.eq_of_toNat_eq ?_)
      match d with
      | 0 => exact one
      | 1 => exact Nat.lt_one_iff.mp fast
  rcases known with rfl | rfl
  · cases steps with
    | zero => exact absurd visits.2 (by decide)
    | succ steps => exact absurd (visits.1 1 (Nat.succ_le_succ (Nat.zero_le _))) (by decide)
  · exact absurd (visits.1 0 (Nat.zero_le _)) (by decide)

/-- With a thread of its own for every index the begins do no harm. -/
theorem selectedTraversal_enough :
    SelectedTraversal (IdxRange.ofExtents ![1, 2] : IdxRange (BitVec 32) 2) ![2, 3]
      (![1] : CSelect 1 2) :=
  (selectedTraversal_iff (by decide) ⟨by decide, by decide⟩ (by decide) (by decide)
    (.inl rfl)).1 ⟨by decide, .inr ⟨by decide, by decide, .inr (by decide)⟩⟩

end Words

end Alpaka.FlatIdxContainer
