import Alpaka.OnAcc.IdxMapWidth
import Alpaka.OnAcc.SimdConcurrent

/-! # Calling a functor for all elements in machine arithmetic

The index type of the extents wraps around, so that a loop may see too few elements or none, or
start over. Where none of the loops that `concurrent` runs overflows, the calls of all workers
are those of exact arithmetic, and cover every element exactly once
(`Alpaka.concurrent_covers`).
-/

namespace Alpaka

open Math (Settles Partitions)
open IdxContainer (LoopFits words_yield)
open TiledIdxContainer (StepsFit)

variable {w n simdWidth numSimdPerFnCall : ℕ} {threadCount numElements idx : Vec (BitVec w) (n + 1)}
  {traverse : Traverse} {layout : Layout}

/-! ## Words of the vectors -/

private theorem Vec.toNats_rAssign (v : Vec (BitVec w) (n + 1)) (value : BitVec w) :
    (v.rAssign value).toNats = v.toNats.rAssign value.toNat :=
  funext fun d => Function.apply_update (fun _ (number : BitVec w) => number.toNat) v _ value d

/-- A call of exact arithmetic in machine words. -/
def Call.ofNats (call : Call ℕ n) : Call (BitVec w) n := ⟨Vec.ofNats call.dataIdx, call.width⟩

/-! ## What must not overflow -/

/-- The loops over the packs: those over the rows, or those over all packs. -/
def PacksFit (simdWidth numSimdPerFnCall : ℕ) (traverse : Traverse) (layout : Layout)
    (threadCount numElements : Vec (BitVec w) (n + 1)) : Prop :=
  if 0 < n ∧ traverse = .flat then
    LoopFits (IdxRange.ofExtents (numElements.rAssign 1)) (threadCount.rAssign 1) .flat layout
  else
    LoopFits (packRange simdWidth (remainderBegin simdWidth numSimdPerFnCall threadCount
      numElements) numElements (Vec.fill 0)) threadCount traverse layout

/-- The elements behind the packs, in machine words. -/
def remainderRange (simdWidth numSimdPerFnCall : ℕ)
    (threadCount numElements : Vec (BitVec w) (n + 1)) : IdxRange (BitVec w) (n + 1) :=
  IdxRange.ofBeginEnd (Vec.rAssign (Vec.fill 0) (IdxValue.ofNat
    (remainderBegin simdWidth numSimdPerFnCall threadCount numElements))) numElements

/-- Nothing that the loops with packs compute overflows: the elements of a call and the width of
a pack are representable, and so is what the loops over the packs and over the remainder
compute. -/
structure PackLoopsFit (simdWidth numSimdPerFnCall : ℕ) (traverse : Traverse) (layout : Layout)
    (threadCount numElements : Vec (BitVec w) (n + 1)) : Prop where
  args : simdWidth * numSimdPerFnCall < 2 ^ 32
  width : simdWidth < 2 ^ w
  packs : PacksFit simdWidth numSimdPerFnCall traverse layout threadCount numElements
  remainder : LoopFits (remainderRange simdWidth numSimdPerFnCall threadCount numElements)
    threadCount traverse layout

/-- Nothing that the loops of `concurrent` compute overflows. -/
def ConcurrentFits (simdWidth numSimdPerFnCall : ℕ) (traverse : Traverse) (layout : Layout)
    (threadCount extents : Vec (BitVec w) (n + 1)) : Prop :=
  if simdWidth ≠ 1 then
    PackLoopsFit simdWidth numSimdPerFnCall traverse layout threadCount extents
  else LoopFits (IdxRange.ofExtents extents) threadCount traverse layout

/-! ## The loops over the packs -/

/-- The remainder begins where it does in exact arithmetic. -/
theorem remainderBegin_toNats (args : simdWidth * numSimdPerFnCall < 2 ^ 32)
    (threadCount numElements : Vec (BitVec w) (n + 1)) :
    remainderBegin simdWidth numSimdPerFnCall threadCount numElements =
      remainderBegin simdWidth numSimdPerFnCall threadCount.toNats numElements.toNats := by
  have product : IdxValue.mulArgs (BitVec w) simdWidth numSimdPerFnCall =
      IdxValue.mulArgs ℕ simdWidth numSimdPerFnCall := Nat.mod_eq_of_lt args
  unfold remainderBegin numSimdPackLoops
  rw [product]
  rfl

section Packs

variable (positive : ∀ d, 0 < threadCount d) (width : simdWidth < 2 ^ w) {column : ℕ}
  (within : column ≤ numElements.toNats.back)

include positive width within

private theorem toNats_packRange (row : Vec (BitVec w) (n + 1)) :
    (packRange simdWidth column numElements row).toNats =
      packRange simdWidth column numElements.toNats row.toNats := by
  have narrow : column < 2 ^ w := within.trans_lt numElements.back.isLt
  have cut : (IdxValue.ofNat column : BitVec w).toNat = column := Nat.mod_eq_of_lt narrow
  have stride : (IdxValue.ofNat simdWidth : BitVec w).toNat = simdWidth := Nat.mod_eq_of_lt width
  have ones : (Vec.fill 1 : Vec (BitVec w) (n + 1)).toNats = Vec.fill 1 :=
    funext fun d => toNat_one positive
  unfold packRange IdxRange.toNats
  rw [Vec.toNats_rAssign, Vec.toNats_rAssign, cut, stride, ones]
  rfl

/-- The packs of a row are representable. -/
private theorem representable_packs (room : column + simdWidth ≤ 2 ^ w)
    (divides : simdWidth ∣ column) {row : Vec (BitVec w) (n + 1)} (start : row.toNats.back = 0)
    (proper : (packRange simdWidth column numElements.toNats row.toNats).Proper) :
    StepsFit (packRange simdWidth column numElements row).toNats (2 ^ w) := by
  have narrow : column < 2 ^ w := within.trans_lt numElements.back.isLt
  rw [toNats_packRange positive width within]
  refine representable_of_dvd proper (fun d => ?_) (fun d => ?_) fun d => ?_ <;>
    by_cases last : d = Fin.last n
  · subst last
    change Vec.rAssign _ _ _ ∣ Vec.rAssign _ _ _ - row.toNats.back
    rw [rAssign_last, rAssign_last, start, Nat.sub_zero]
    exact divides
  · change Vec.rAssign _ _ _ ∣ _
    rw [rAssign_of_ne _ _ last]
    exact Nat.one_dvd _
  · subst last
    exact (rAssign_last _ _).trans_lt narrow
  · exact (rAssign_of_ne _ _ last).trans_lt (numElements d).isLt
  · subst last
    change Vec.rAssign _ _ _ - row.toNats.back + Vec.rAssign _ _ _ ≤ 2 ^ w
    rw [rAssign_last, rAssign_last, start, Nat.sub_zero]
    exact room
  · change Vec.rAssign _ _ _ - _ + Vec.rAssign _ _ _ ≤ 2 ^ w
    rw [rAssign_of_ne _ _ last, rAssign_of_ne _ _ last]
    have below := (numElements d).isLt
    change (numElements d).toNat - _ + 1 ≤ 2 ^ w
    omega

end Packs

/-- Behind the packs there is room for a further one, if their width is a power of two. -/
theorem room_of_power {bits : ℕ} (power : simdWidth = 2 ^ bits) (width : simdWidth < 2 ^ w)
    (threadCount numElements : Vec (BitVec w) (n + 1)) :
    remainderBegin simdWidth numSimdPerFnCall threadCount.toNats numElements.toNats + simdWidth ≤
      2 ^ w := by
  have narrow : remainderBegin simdWidth numSimdPerFnCall threadCount.toNats
      numElements.toNats < 2 ^ w := (remainderBegin_le _).trans_lt numElements.back.isLt
  have whole : simdWidth ∣ 2 ^ w := by
    rw [power] at width ⊢
    exact Nat.pow_dvd_pow 2 ((Nat.pow_lt_pow_iff_right Nat.one_lt_two).mp width).le
  exact add_le_of_dvd whole (dvd_remainderBegin _) narrow

/-- The width is representable if nothing overflows. -/
theorem ConcurrentFits.width_lt (positive : ∀ d, 0 < threadCount d)
    (fits : ConcurrentFits simdWidth numSimdPerFnCall traverse layout threadCount numElements) :
    simdWidth < 2 ^ w := by
  unfold ConcurrentFits at fits
  split_ifs at fits with wide
  · exact fits.width
  · have some := BitVec.lt_def.mp (positive 0)
    have narrow := (threadCount 0).isLt
    rw [not_not.mp wide]
    omega

/-! ## The loops -/

/-- The number of packs of a row and that of the workers of the fastest dimension can be added:
there are no packs, or at least as many as workers, and a pack has at least two elements. -/
private theorem packs_add_le {loops perCall workers : ℕ} (several : 2 ≤ simdWidth)
    (narrow : loops * (simdWidth * perCall) * workers < 2 ^ w) :
    loops * perCall * workers = 0 ∨ loops * perCall * workers + workers ≤ 2 ^ w := by
  rcases Nat.eq_zero_or_pos (loops * perCall) with none | some
  · exact .inl (by rw [none, Nat.zero_mul])
  · right
    have each : workers ≤ loops * perCall * workers := Nat.le_mul_of_pos_left _ some
    have pairs : loops * perCall * workers * 2 ≤ loops * (simdWidth * perCall) * workers :=
      calc loops * perCall * workers * 2
          ≤ loops * perCall * workers * simdWidth := Nat.mul_le_mul_left _ several
        _ = loops * (simdWidth * perCall) * workers := by ring
    omega

section Loops

variable (positive : ∀ d, 0 < threadCount d)

include positive

/-- The workers of the slow dimensions. -/
theorem slow_positive (d : Fin (n + 1)) : 0 < threadCount.rAssign 1 d := by
  rw [BitVec.lt_def]
  change 0 % 2 ^ w < (threadCount.rAssign 1).toNats d
  rw [Vec.toNats_rAssign, toNat_one positive, Nat.zero_mod]
  exact rAssign_positive (toNats_positive positive) d

private theorem toNats_fastestOnly_one :
    (fastestOnly 1 threadCount).toNats = fastestOnly 1 threadCount.toNats := by
  have ones : (Vec.fill 1 : Vec (BitVec w) (n + 1)).toNats = Vec.fill 1 :=
    funext fun d => toNat_one positive
  unfold fastestOnly
  rw [Vec.toNats_rAssign, ones]
  rfl

/-- A worker of the slow dimensions. -/
theorem rAssign_mem_box (member : idx ∈ box threadCount) :
    idx.rAssign 0 ∈ box (threadCount.rAssign 1) := by
  intro d
  by_cases last : d = Fin.last n
  · subst last
    have room := slow_positive positive (Fin.last n)
    simp only [Vec.rAssign, Function.update_self] at room ⊢
    exact room
  · simp only [Vec.rAssign, Function.update_of_ne last]
    exact member d

/-- A worker of the fastest dimension. -/
theorem fastestOnly_mem_box (member : idx ∈ box threadCount) :
    fastestOnly 0 idx ∈ box (fastestOnly 1 threadCount) := by
  intro d
  unfold fastestOnly
  by_cases last : d = Fin.last n
  · subst last
    simp only [Vec.rAssign, Function.update_self]
    exact member _
  · simp only [Vec.rAssign, Function.update_of_ne last, Vec.fill]
    rw [BitVec.lt_def, toNat_one positive]
    exact (Nat.zero_mod _).trans_lt Nat.one_pos

/-- The rows that a worker goes through. -/
private theorem rowsMap_words (layout : Layout)
    (fits : LoopFits (IdxRange.ofExtents (numElements.rAssign 1)) (threadCount.rAssign 1) .flat
      layout) (member : idx ∈ box threadCount) :
    (rowsMap layout threadCount numElements idx).Yields
        ((rowsMap layout threadCount.toNats numElements.toNats idx.toNats).indices.map
          Vec.ofNats) ∧
      (rowsMap layout threadCount numElements idx).Divides := by
  have range : (IdxRange.ofExtents (numElements.rAssign 1)).toNats =
      IdxRange.ofExtents (numElements.toNats.rAssign 1) := by
    rw [toNats_ofExtents positive, Vec.toNats_rAssign, toNat_one positive]
  have proper : (IdxRange.ofExtents (numElements.rAssign 1)).toNats.Proper := by
    rw [range]
    exact ⟨fun _ => Nat.zero_le _, fun _ => Nat.one_pos⟩
  have representable : StepsFit (IdxRange.ofExtents (numElements.rAssign 1)).toNats
      (2 ^ w) := representable_unit proper fun d => congrFun (congrArg IdxRange.strideMd range) d
  have inside := rAssign_mem_box positive member
  obtain ⟨yields, divides⟩ := words_yield proper (slow_positive positive) representable .flat
    layout fits inside
  refine ⟨?_, divides⟩
  rw [range, Vec.toNats_rAssign, Vec.toNats_rAssign, toNat_one positive] at yields
  exact yields

/-- The packs of a row that a worker goes through: no loop of theirs overflows. -/
private theorem rowPacksMap_words (room : remainderBegin simdWidth numSimdPerFnCall
      threadCount.toNats numElements.toNats + simdWidth ≤ 2 ^ w)
    (several : 2 ≤ simdWidth) (args : simdWidth * numSimdPerFnCall < 2 ^ 32)
    (width : simdWidth < 2 ^ w) (layout : Layout) {row : Vec (BitVec w) (n + 1)}
    (rowIn : row.toNats ∈ elements (numElements.toNats.rAssign 1))
    (member : idx ∈ box threadCount) :
    (rowPacksMap simdWidth numSimdPerFnCall layout threadCount numElements row idx).Yields
        ((rowPacksMap simdWidth numSimdPerFnCall layout threadCount.toNats numElements.toNats
          row.toNats idx.toNats).indices.map Vec.ofNats) ∧
      (rowPacksMap simdWidth numSimdPerFnCall layout threadCount numElements row idx).Divides := by
  have column := remainderBegin_toNats args threadCount numElements
  have within : remainderBegin simdWidth numSimdPerFnCall threadCount numElements ≤
      numElements.toNats.back := by
    rw [column]
    exact remainderBegin_le _
  have divides : simdWidth ∣ remainderBegin simdWidth numSimdPerFnCall threadCount
      numElements := by
    rw [column]
    exact dvd_remainderBegin _
  have lanes : 0 < simdWidth := by omega
  have start : row.toNats.back = 0 := Nat.lt_one_iff.mp (mem_elements_rAssign.mp rowIn).2
  have range := toNats_packRange positive width within row
  have exactProper : (packRange simdWidth (remainderBegin simdWidth numSimdPerFnCall threadCount
      numElements) numElements.toNats row.toNats).Proper := packRange_row_proper lanes rowIn
  have proper : (packRange simdWidth (remainderBegin simdWidth numSimdPerFnCall threadCount
      numElements) numElements row).toNats.Proper := by rwa [range]
  have fits := (representable_packs positive width within (column.symm ▸ room) divides start
    exactProper).distance
  have workers := toNats_fastestOnly_one positive
  have workersPositive (d : Fin (n + 1)) : 0 < fastestOnly 1 threadCount d := by
    rw [BitVec.lt_def]
    change 0 % 2 ^ w < (fastestOnly 1 threadCount).toNats d
    rw [workers, Nat.zero_mod]
    exact fastestOnly_positive (toNats_positive positive) d
  have fastest : (fastestOnly 1 threadCount (Fin.last n)).toNat = threadCount.toNats.back := by
    change (fastestOnly 1 threadCount).toNats (Fin.last n) = _
    rw [workers]
    exact rAssign_last _ _
  have idxOnly : (fastestOnly 0 idx).toNats = fastestOnly 0 idx.toNats := by
    unfold fastestOnly
    rw [Vec.toNats_rAssign]
    congr 1
  have inside := fastestOnly_mem_box positive member
  have words := IdxContainer.words_yield_single proper workersPositive (Fin.last n)
    (fun d slow => by
      change (fastestOnly 1 threadCount).toNats d = 1
      rw [workers]
      exact rAssign_of_ne _ _ slow.symm) (fits _) layout ?_ inside
  · rw [range, workers, idxOnly, column] at words
    unfold rowPacksMap
    rw [column]
    exact words
  · rw [range, fastest]
    have packs : (packRange simdWidth (remainderBegin simdWidth numSimdPerFnCall threadCount.toNats
        numElements.toNats) numElements.toNats row.toNats).logicalExtent id (Fin.last n) =
          numSimdPackLoops simdWidth numSimdPerFnCall threadCount.toNats numElements.toNats *
            numSimdPerFnCall * threadCount.toNats.back := packRange_even lanes start rfl rfl
    rw [column, packs]
    apply packs_add_le several
    exact (remainderBegin_le _).trans_lt numElements.back.isLt

/-- The packs that a worker goes through without an outer loop. -/
theorem packsMap_words (lanes : 0 < simdWidth) (room : remainderBegin simdWidth numSimdPerFnCall
      threadCount.toNats numElements.toNats + simdWidth ≤ 2 ^ w)
    (args : simdWidth * numSimdPerFnCall < 2 ^ 32) (width : simdWidth < 2 ^ w)
    (fits : LoopFits (packRange simdWidth (remainderBegin simdWidth numSimdPerFnCall threadCount
      numElements) numElements (Vec.fill 0)) threadCount traverse layout)
    (member : idx ∈ box threadCount) :
    (packsMap simdWidth numSimdPerFnCall traverse layout threadCount numElements idx).Yields
        ((packsMap simdWidth numSimdPerFnCall traverse layout threadCount.toNats
          numElements.toNats idx.toNats).indices.map Vec.ofNats) ∧
      (packsMap simdWidth numSimdPerFnCall traverse layout threadCount numElements
        idx).Divides := by
  have column := remainderBegin_toNats args threadCount numElements
  have within : remainderBegin simdWidth numSimdPerFnCall threadCount numElements ≤
      numElements.toNats.back := by
    rw [column]
    exact remainderBegin_le _
  have divides : simdWidth ∣ remainderBegin simdWidth numSimdPerFnCall threadCount
      numElements := by
    rw [column]
    exact dvd_remainderBegin _
  have zero : (Vec.fill 0 : Vec (BitVec w) (n + 1)).toNats = Vec.fill 0 :=
    funext fun _ => Nat.zero_mod _
  have range := toNats_packRange positive width within (Vec.fill 0)
  have exactProper : (packRange simdWidth (remainderBegin simdWidth numSimdPerFnCall threadCount
      numElements) numElements.toNats (Vec.fill 0 : Vec (BitVec w) (n + 1)).toNats).Proper := by
    rw [zero]
    exact packRange_proper lanes fun d => Nat.zero_le _
  have proper : (packRange simdWidth (remainderBegin simdWidth numSimdPerFnCall threadCount
      numElements) numElements (Vec.fill 0)).toNats.Proper := by rwa [range]
  have start : (Vec.fill 0 : Vec (BitVec w) (n + 1)).toNats.back = 0 := by
    rw [zero]
    rfl
  have words := words_yield proper positive
    (representable_packs positive width within (column.symm ▸ room) divides start exactProper)
    traverse layout fits member
  rw [range, zero, column] at words
  unfold packsMap
  rw [column]
  exact words

/-- **Unrolled pack loops in machine arithmetic.** Where nothing overflows, the loops over the
packs settle on the bursts of exact arithmetic. -/
theorem simdPackBursts_words (several : 2 ≤ simdWidth)
    (room : remainderBegin simdWidth numSimdPerFnCall threadCount.toNats numElements.toNats +
      simdWidth ≤ 2 ^ w) (perFnCall : 0 < numSimdPerFnCall)
    (fits : PackLoopsFit simdWidth numSimdPerFnCall traverse layout threadCount numElements)
    (member : idx ∈ box threadCount) :
    Settles (simdPackBursts simdWidth numSimdPerFnCall traverse layout ⟨idx, threadCount⟩
      numElements) ((packBursts simdWidth numSimdPerFnCall traverse layout threadCount.toNats
        numElements.toNats idx.toNats).map (List.map Vec.ofNats)) := by
  have lanes : 0 < simdWidth := by omega
  have exactPositive := toNats_positive positive
  have exactMember := (toNats_box threadCount).mapsTo member
  have column := remainderBegin_toNats fits.args threadCount numElements
  have packs := fits.packs
  unfold PacksFit at packs
  unfold packBursts
  split_ifs at packs ⊢ with rows
  · obtain ⟨dimensions, rfl⟩ := rows
    obtain ⟨outer, outerDivides⟩ := rowsMap_words positive layout packs member
    have rowIn {row : Vec ℕ (n + 1)} (held : row ∈ (rowsMap layout threadCount.toNats
        numElements.toNats idx.toNats).indices) :
        row ∈ elements (numElements.toNats.rAssign 1) := rowsMap_mem exactPositive exactMember held
    have exactRow {row : Vec ℕ (n + 1)} (held : row ∈ (rowsMap layout threadCount.toNats
        numElements.toNats idx.toNats).indices) :
        (Vec.ofNats row : Vec (BitVec w) (n + 1)).toNats = row := by
      obtain ⟨slow, fast⟩ := mem_elements_rAssign.mp (rowIn held)
      refine Vec.toNats_ofNats fun d => ?_
      by_cases last : d = Fin.last n
      · subst last
        exact (Nat.lt_one_iff.mp fast).trans_lt (Nat.two_pow_pos w)
      · exact (slow d last).trans (numElements d).isLt
    have inner {row : Vec (BitVec w) (n + 1)} (held : row ∈ (rowsMap layout threadCount.toNats
        numElements.toNats idx.toNats).indices.map Vec.ofNats) :
        row.toNats ∈ elements (numElements.toNats.rAssign 1) := by
      obtain ⟨exact, exactHeld, rfl⟩ := List.mem_map.mp held
      rw [exactRow exactHeld]
      exact rowIn exactHeld
    have settled := simdPackBursts_rows dimensions perFnCall
      (fun row => (rowPacksMap simdWidth numSimdPerFnCall layout threadCount.toNats
        numElements.toNats row.toNats idx.toNats).indices.map Vec.ofNats) outer outerDivides
      (fun row held => (rowPacksMap_words positive room several fits.args fits.width layout
        (inner held) member).1)
      (fun row held => (rowPacksMap_words positive room several fits.args fits.width layout
        (inner held) member).2)
      (fun row held => by
        rw [List.length_map]
        exact (rowPacksMap_yields numSimdPerFnCall exactPositive lanes layout (inner held)
          exactMember).2)
    rw [List.map_map] at settled
    rw [List.map_flatten, List.map_map]
    convert settled using 2
    apply List.map_congr_left
    intro row held
    rw [Function.comp_apply, Function.comp_apply, exactRow held, Math.Loop.bursts_map]
  · have dimensions : ¬ (0 < n ∧ traverse = .flat) := rows
    obtain ⟨yields, divides⟩ := packsMap_words positive lanes room fits.args fits.width packs member
    have even : numSimdPerFnCall ∣ (packsMap simdWidth numSimdPerFnCall traverse layout
        threadCount.toNats numElements.toNats idx.toNats).indices.length :=
      dvd_length_packsMap numSimdPerFnCall exactPositive lanes dimensions layout exactMember
    rw [← Math.Loop.bursts_map]
    refine simdPackBursts_whole dimensions perFnCall yields divides ?_
    rwa [List.length_map]

/-- The elements behind the packs. -/
theorem remainderIdxs_words
    (fits : PackLoopsFit simdWidth numSimdPerFnCall traverse layout threadCount numElements)
    (member : idx ∈ box threadCount) :
    Settles (remainderIdxs simdWidth numSimdPerFnCall traverse layout ⟨idx, threadCount⟩
      numElements) ((remainderMap simdWidth numSimdPerFnCall traverse layout threadCount.toNats
        numElements.toNats idx.toNats).indices.map Vec.ofNats) := by
  have column := remainderBegin_toNats fits.args threadCount numElements
  have narrow : remainderBegin simdWidth numSimdPerFnCall threadCount numElements < 2 ^ w := by
    rw [column]
    exact (remainderBegin_le _).trans_lt numElements.back.isLt
  have cut : (IdxValue.ofNat (remainderBegin simdWidth numSimdPerFnCall threadCount numElements) :
      BitVec w).toNat = remainderBegin simdWidth numSimdPerFnCall threadCount.toNats
        numElements.toNats := (Nat.mod_eq_of_lt narrow).trans column
  have zero : (Vec.fill 0 : Vec (BitVec w) (n + 1)).toNats = Vec.fill 0 :=
    funext fun _ => Nat.zero_mod _
  have ones : (Vec.fill 1 : Vec (BitVec w) (n + 1)).toNats = Vec.fill 1 :=
    funext fun d => toNat_one positive
  have range : (remainderRange simdWidth numSimdPerFnCall threadCount numElements).toNats =
      IdxRange.ofBeginEnd (Vec.rAssign (Vec.fill 0) (remainderBegin simdWidth numSimdPerFnCall
        threadCount.toNats numElements.toNats)) numElements.toNats := by
    unfold remainderRange IdxRange.ofBeginEnd IdxRange.toNats
    rw [Vec.toNats_rAssign, cut, zero, ones]
  have proper : (remainderRange simdWidth numSimdPerFnCall threadCount
      numElements).toNats.Proper := by
    rw [range]
    exact remainder_proper _ _ _ _
  have representable := representable_unit proper fun d =>
    congrFun (congrArg IdxRange.strideMd range) d
  obtain ⟨yields, divides⟩ := words_yield proper positive representable traverse layout
    fits.remainder member
  rw [range] at yields
  exact yields.run divides

/-- The calls of a worker. -/
theorem concurrent_words (lanes : 0 < simdWidth)
    (room : remainderBegin simdWidth numSimdPerFnCall threadCount.toNats numElements.toNats +
      simdWidth ≤ 2 ^ w) (perFnCall : 0 < numSimdPerFnCall)
    (fits : ConcurrentFits simdWidth numSimdPerFnCall traverse layout threadCount numElements)
    (member : idx ∈ box threadCount) :
    Settles (concurrent simdWidth numSimdPerFnCall traverse layout ⟨idx, threadCount⟩ numElements)
      ((concurrentCalls simdWidth numSimdPerFnCall traverse layout threadCount.toNats
        numElements.toNats idx.toNats).map Call.ofNats) := by
  unfold ConcurrentFits at fits
  unfold concurrentCalls concurrent
  split_ifs at fits ⊢ with wide
  · have several : 2 ≤ simdWidth := by omega
    have bursts := simdPackBursts_words positive several room perFnCall fits member
    have rest := remainderIdxs_words positive fits member
    rw [List.map_append, List.map_map, List.map_map]
    have packed (packs : List (List (Vec ℕ (n + 1)))) :
        packs.flatten.map (Call.ofNats ∘ (⟨·, simdWidth⟩)) =
          (packs.map (List.map Vec.ofNats)).flatten.map
            (⟨·, simdWidth⟩ : Vec (BitVec w) (n + 1) → Call (BitVec w) n) := by
      rw [← List.map_flatten, List.map_map]
      rfl
    have single (idxs : List (Vec ℕ (n + 1))) : idxs.map (Call.ofNats ∘ (⟨·, 1⟩)) =
        (idxs.map Vec.ofNats).map (⟨·, 1⟩ : Vec (BitVec w) (n + 1) → Call (BitVec w) n) := by
      rw [List.map_map]
      rfl
    rw [packed, single]
    exact bursts.bind (rest.bind (Settles.pure _))
  · have range := toNats_ofExtents positive numElements
    have proper : (IdxRange.ofExtents numElements).toNats.Proper := by
      rw [range]
      exact ⟨fun _ => Nat.zero_le _, fun _ => Nat.one_pos⟩
    have representable := representable_unit proper fun d =>
      congrFun (congrArg IdxRange.strideMd range) d
    obtain ⟨yields, divides⟩ := words_yield proper positive representable traverse layout fits
      member
    rw [range] at yields
    have single (idxs : List (Vec ℕ (n + 1))) : (idxs.map (⟨·, 1⟩)).map Call.ofNats =
        (idxs.map Vec.ofNats).map (⟨·, 1⟩ : Vec (BitVec w) (n + 1) → Call (BitVec w) n) := by
      rw [List.map_map, List.map_map]
      rfl
    rw [single]
    exact (yields.run divides).bind (Settles.pure _)

end Loops

/-- Calls that do in machine words what calls of exact arithmetic do cover what those cover. -/
private theorem Calls.words {column : ℕ} {extents : Vec (BitVec w) (n + 1)} (lanes : 0 < simdWidth)
    {program : Vec ℕ (n + 1) → ℕ → Except Math.Loop.Fault (List (Call ℕ n))}
    {calls : Vec ℕ (n + 1) → List (Call ℕ n)}
    (exact : Calls simdWidth column (threadIdxs threadCount.toNats) extents.toNats program calls)
    {words : Vec (BitVec w) (n + 1) → ℕ → Except Math.Loop.Fault (List (Call (BitVec w) n))}
    (settles : ∀ idx ∈ box threadCount, Settles (words idx)
      ((calls idx.toNats).map Call.ofNats)) :
    Calls simdWidth column (box threadCount) extents.toNats words
      fun idx => (calls idx.toNats).map Call.ofNats := by
  have numbered := toNats_box threadCount
  have values {idx : Vec (BitVec w) (n + 1)} (member : idx ∈ box threadCount) {call : Call ℕ n}
      (held : call ∈ calls idx.toNats) :
      (Call.ofNats call : Call (BitVec w) n).dataIdx.values = call.dataIdx := by
    have wide : 0 < call.width := by
      by_cases element : call.width = 1
      · exact element ▸ Nat.one_pos
      · exact (exact.packs _ (numbered.mapsTo member) call held element).1 ▸ lanes
    have inside := exact.partitions.sound (numbered.mapsTo member)
      (List.mem_flatMap.mpr ⟨call, held, Call.dataIdx_mem wide⟩)
    exact Vec.toNats_ofNats fun d => (inside d).trans (extents d).isLt
  refine ⟨settles, ?_, ?_⟩
  · refine (exact.partitions.comp numbered).congr_share fun idx member => ?_
    rw [List.flatMap_map]
    apply List.flatMap_congr
    intro call held
    unfold Call.elements
    rw [values member held]
    rfl
  · intro idx member call held wide
    obtain ⟨precise, preciseHeld, rfl⟩ := List.mem_map.mp held
    rw [values member preciseHeld]
    exact exact.packs _ (numbered.mapsTo member) precise preciseHeld wide

/-- What calling the functor for all elements promises: all workers finish without dereferencing
an iterator that has reached its end, their calls cover every element once, and packs stay before
the begin of the remainder. -/
def ConcurrentCovers (simdWidth numSimdPerFnCall : ℕ) (traverse : Traverse) (layout : Layout)
    (threadCount extents : Vec (BitVec w) (n + 1)) : Prop :=
  ∃ calls, Calls simdWidth (remainderBegin simdWidth numSimdPerFnCall threadCount extents)
    (box threadCount) extents.toNats
    (fun idx => concurrent simdWidth numSimdPerFnCall traverse layout ⟨idx, threadCount⟩ extents)
    calls

/-- Where nothing overflows, every element is covered. -/
private theorem covers_of_fits (positive : ∀ d, 0 < threadCount d) {bits : ℕ}
    (power : simdWidth = 2 ^ bits) (perFnCall : 0 < numSimdPerFnCall)
    {extents : Vec (BitVec w) (n + 1)}
    (fits : ConcurrentFits simdWidth numSimdPerFnCall traverse layout threadCount extents) :
    ConcurrentCovers simdWidth numSimdPerFnCall traverse layout threadCount extents := by
  have lanes : 0 < simdWidth := power ▸ Nat.two_pow_pos bits
  have exact := concurrent_calls (toNats_positive positive) lanes perFnCall traverse layout
    extents.toNats
  have words := exact.words lanes fun idx member =>
    concurrent_words positive lanes (room_of_power power (fits.width_lt positive) _ _) perFnCall
      fits member
  refine ⟨_, words.settles, words.partitions, fun idx member call held wide => ?_⟩
  have pack := words.packs idx member call held wide
  have several : simdWidth ≠ 1 := pack.1 ▸ wide
  have packsFit : PackLoopsFit simdWidth numSimdPerFnCall traverse layout threadCount extents := by
    rwa [ConcurrentFits, if_pos several] at fits
  rwa [remainderBegin_toNats packsFit.args]

/-- Calls with one element each share out the indices. -/
private theorem Calls.indices {column : ℕ} {extents : Vec (BitVec w) (n + 1)}
    (positive : ∀ d, 0 < threadCount d)
    {calls : Vec (BitVec w) (n + 1) → List (Call (BitVec w) n)}
    (cover : Calls 1 column (box threadCount) extents.toNats
      (fun idx => concurrent 1 numSimdPerFnCall traverse layout ⟨idx, threadCount⟩ extents) calls) :
    (∀ idx ∈ box threadCount, (makeIdxMap ⟨idx, threadCount⟩ (IdxRange.ofExtents extents) traverse
      layout).Yields ((calls idx).map Call.dataIdx)) ∧
    Partitions (box threadCount) (fun idx => (calls idx).map Call.dataIdx)
      ((IdxRange.ofExtents extents).words id) := by
  have range := toNats_ofExtents positive extents
  constructor
  · intro idx member
    obtain ⟨bound, finished⟩ := cover.settles idx member
    refine IdxContainer.yields_of_settles ⟨bound, fun fuel enough => ?_⟩
    have run := finished fuel enough
    unfold concurrent at run
    rw [if_neg (not_not.mpr rfl)] at run
    cases loop : (makeIdxMap ⟨idx, threadCount⟩ (IdxRange.ofExtents extents) traverse layout).run
        fuel with
    | error fault =>
        rw [loop] at run
        cases run
    | ok idxs =>
        rw [loop] at run
        rw [← Except.ok.inj run, List.map_map]
        exact congrArg Except.ok (List.map_id idxs).symm
  · have numbered : Set.BijOn Vec.ofNats (elements extents.toNats)
        ((IdxRange.ofExtents extents).words id) := by
      rw [← lattice_ofExtents, ← range]
      exact IdxRange.ofNats_bijOn
    refine (cover.partitions.map numbered).congr_share fun idx member => ?_
    rw [List.map_flatMap, List.map_eq_flatMap]
    apply List.flatMap_congr
    intro call held
    have single : call.width = 1 := by
      by_contra wide
      exact wide (cover.packs idx member call held wide).1
    have element : call.elements = [call.dataIdx.toNats] := by
      unfold Call.elements cells
      rw [single, List.range_one, List.map_singleton]
      exact congrArg (fun idx => [idx]) (rAssign_self _)
    rw [element, List.map_singleton, Vec.ofNats_toNats]

/-- With elements instead of packs and the strided layout, only loops that do not overflow cover
every element. -/
private theorem fits_of_covers (positive : ∀ d, 0 < threadCount d)
    {extents : Vec (BitVec w) (n + 1)}
    (covers : ConcurrentCovers 1 numSimdPerFnCall traverse .strided threadCount extents) :
    ConcurrentFits 1 numSimdPerFnCall traverse .strided threadCount extents := by
  obtain ⟨calls, cover⟩ := covers
  obtain ⟨yields, partition⟩ := cover.indices positive
  have distinct : Function.Injective (id : CSelect (n + 1) (n + 1)) := Function.injective_id
  have proper : (IdxRange.ofExtents extents).toNats.Proper := by
    rw [toNats_ofExtents positive]
    exact ⟨fun _ => Nat.zero_le _, fun _ => Nat.one_pos⟩
  rw [ConcurrentFits, if_neg (not_not.mpr rfl)]
  cases traverse with
  | flat =>
      exact ((FlatIdxContainer.sharesOut_iff proper distinct positive).mp
        ⟨_, yields, partition⟩).imp_right FlatIdxContainer.Fits.total
  | tiled =>
      exact ((TiledIdxContainer.sharesOut_iff proper distinct positive).mp
        ⟨_, yields, partition⟩).imp_right fun stops d => (stops d).2

/-- **Every element once.** With a power of two as SIMD width all elements are covered once if
nothing overflows; with elements instead of packs and the strided layout only then. -/
theorem concurrent_covers (positive : ∀ d, 0 < threadCount d) {bits : ℕ}
    (power : simdWidth = 2 ^ bits) (perFnCall : 0 < numSimdPerFnCall) (traverse : Traverse)
    (layout : Layout) (extents : Vec (BitVec w) (n + 1)) :
    (ConcurrentFits simdWidth numSimdPerFnCall traverse layout threadCount extents →
      ConcurrentCovers simdWidth numSimdPerFnCall traverse layout threadCount extents) ∧
    (simdWidth = 1 → layout = .strided →
      ConcurrentCovers simdWidth numSimdPerFnCall traverse layout threadCount extents →
        ConcurrentFits simdWidth numSimdPerFnCall traverse layout threadCount extents) := by
  refine ⟨covers_of_fits positive power perFnCall, ?_⟩
  rintro rfl rfl covers
  exact fits_of_covers positive covers

/-- Two dimensions of 50 bytes and six threads: with packs of four elements, two to a call. -/
theorem concurrent_covers_twoByThree : ConcurrentCovers 4 2 .flat .contiguous
    (![2, 3] : Vec (BitVec 8) 2) ![5, 50] := by
  have fits : ConcurrentFits 4 2 .flat .contiguous (![2, 3] : Vec (BitVec 8) 2) ![5, 50] := by
    rw [ConcurrentFits, if_pos (by decide)]
    refine ⟨by decide, by decide, ?_, ?_⟩
    · rw [PacksFit, if_pos (by decide)]
      exact ⟨by decide, .inr (by decide)⟩
    · exact ⟨by decide, .inr (by decide)⟩
  exact (concurrent_covers (by decide) (show 4 = 2 ^ 2 from rfl) (by decide) .flat .contiguous
    _).1 fits

/-- As many elements as there are numbers of 32 bits, and one thread: their number wraps around to
zero, and nothing is visited. -/
theorem concurrent_lost : ¬ ConcurrentCovers 1 1 .flat .strided (![1, 1] : Vec (BitVec 32) 2)
    ![65536, 65536] := by
  intro covers
  have fits := fits_of_covers (by decide) covers
  rw [ConcurrentFits, if_neg (by decide)] at fits
  rcases fits with ⟨d, empty⟩ | room
  · revert d
    decide
  · exact absurd room (by decide)

end Alpaka
