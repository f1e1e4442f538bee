import Alpaka.OnAcc.SimdConcurrentWidth

/-! # What the SIMD loops hand to the functor

The index type may wrap around in the loops of `concurrent`, so that they visit elements twice,
leave some out, or never end. Even then a pack lies in one of the rows that are processed, and
begins at a multiple of the SIMD width (`Alpaka.SimdRun.PackReached.located`). This is where packs
are, not which ones there are.
-/

namespace Alpaka

open ThreadSpace (mapIdx mapCount)

variable {w n k : ℕ}

attribute [local instance (2000)] neZero_add_one neZero_one

/-! ## Flat loops -/

namespace FlatIdxContainer

variable {range : IdxRange (BitVec w) (n + 1)} {threadCount : Vec (BitVec w) (n + 1)}
  {selection : CSelect (k + 1) (n + 1)} {layout : Layout} {idx : Vec (BitVec w) (n + 1)}

/-- The index with a given linear index, whatever overflows. -/
def wordElement (range : IdxRange (BitVec w) (n + 1)) (selection : CSelect (k + 1) (n + 1))
    (number : BitVec w) : Vec (BitVec w) (n + 1) :=
  Vec.refAssign (· + ·) range.beginMd selection fun i =>
    mapToND (extents range selection) number i * range.strideMd (selection i)

private theorem wordElement_selected (range : IdxRange (BitVec w) (n + 1))
    (distinct : Function.Injective selection) (number : BitVec w)
    (i : Fin (k + 1)) : wordElement range selection number (selection i) =
      range.beginMd (selection i) +
        mapToND (extents range selection) number i * range.strideMd (selection i) :=
  Vec.refAssign_selected _ _ distinct _ i

private theorem wordElement_unselected (range : IdxRange (BitVec w) (n + 1)) (number : BitVec w)
    {d : Fin (n + 1)}
    (outside : ∀ i, selection i ≠ d) : wordElement range selection number d = range.beginMd d :=
  Vec.refAssign_of_not_mem _ _ _ _ _ outside

private theorem end_le_product (layout : Layout) (idx : Vec (BitVec w) (n + 1)) :
    (ofThread range threadCount layout selection idx).end ≤
      Vec.product (extents range selection) := by
  cases layout with
  | strided => exact BitVec.le_refl _
  | contiguous =>
      change stdMin _ (Vec.product (extents range selection)) ≤ _
      rw [BitVec.le_def, toNat_stdMin]
      exact Nat.min_le_right _ _

private theorem deref_current (distinct : Function.Injective selection)
    (member : idx ∈ box threadCount) (number : BitVec w) :
    ConstIterator.deref selection { (ofThread range threadCount layout selection idx).begin with
      current := number } = wordElement range selection number := by
  have offset : (ofThread range threadCount layout selection idx).begin.offsetMD =
      range.beginMd := offsetMD_words layout distinct member
  unfold ConstIterator.deref wordElement
  dsimp only
  rw [offset]
  cases layout <;> rfl

private theorem iterate_next (iterator : ConstIterator (BitVec w) n k) (advances : ℕ) :
    ∃ number, ConstIterator.next^[advances] iterator = { iterator with current := number } := by
  induction advances with
  | zero => exact ⟨iterator.current, rfl⟩
  | succ advances ih =>
      obtain ⟨number, same⟩ := ih
      exact ⟨number + iterator.stride, by rw [Function.iterate_succ_apply', same]; rfl⟩

/-- **Elements of a flat loop.** Whatever overflows, a loop dereferences elements with a linear
index; one that looks at the end each time only those below what it takes for their number. -/
theorem reaches_element (distinct : Function.Injective selection) (member : idx ∈ box threadCount)
    {count : ℕ} {x : Vec (BitVec w) (n + 1)}
    (reached : (ofThread range threadCount layout selection idx).loop.Reaches count
      (ofThread range threadCount layout selection idx).begin x) :
    0 < Vec.product (extents range selection) ∧
      ∃ number, x = wordElement range selection number ∧
        (count = 1 → number < Vec.product (extents range selection)) := by
  have below {iterator : ConstIterator (BitVec w) n k} (running : (ofThread range threadCount
      layout selection idx).loop.done iterator = false) :
      iterator.current < Vec.product (extents range selection) := by
    have before := BitVec.lt_def.mp (BitVec.not_le.mp (of_decide_eq_false running))
    have last : (ofThread range threadCount layout selection idx).end.toNat ≤ _ :=
      BitVec.le_def.mp (end_le_product layout idx)
    exact BitVec.lt_def.mpr (before.trans_le last)
  have some := BitVec.lt_def.mp (below reached.running)
  refine ⟨BitVec.lt_def.mpr ((Nat.zero_le _).trans_lt some), ?_⟩
  refine reached.of_invariant (fun iterator => ∃ number, iterator =
      { (ofThread range threadCount layout selection idx).begin with current := number })
    (fun x => ∃ number, x = wordElement range selection number ∧
      (count = 1 → number < Vec.product (extents range selection))) ?_ ?_ ⟨_, rfl⟩
  · rintro iterator ⟨number, rfl⟩ running advances early
    obtain ⟨later, same⟩ := iterate_next { (ofThread range threadCount layout selection
      idx).begin with current := number } advances
    refine ⟨later, ?_, fun single => ?_⟩
    · change ConstIterator.deref selection (ConstIterator.next^[advances] _) = _
      rw [same]
      exact deref_current distinct member later
    · obtain rfl : advances = 0 := by omega
      have current := congrArg ConstIterator.current same
      rw [Function.iterate_zero_apply] at current
      change number = later at current
      rw [← current]
      exact below running
  · rintro iterator ⟨number, rfl⟩ _
    obtain ⟨later, same⟩ := iterate_next { (ofThread range threadCount layout selection
      idx).begin with current := number } count
    exact ⟨later, same⟩

/-- Rounding up to whole elements. -/
private theorem divCeil_one (number : BitVec w) : divCeil number 1 = number := by
  unfold divCeil
  rw [BitVec.add_sub_cancel]
  exact BitVec.udiv_one

private theorem extents_ofExtents (extent : Vec (BitVec w) (n + 1)) :
    extents (IdxRange.ofExtents extent) id = extent := by
  funext d
  change divCeil (extent d - 0) 1 = extent d
  rw [divCeil_one, sub_zero]

/-- The elements of a range from zero with unit stride. -/
theorem wordElement_ofExtents (extent : Vec (BitVec w) (n + 1)) (number : BitVec w) :
    wordElement (IdxRange.ofExtents extent) id number = mapToND extent number := by
  funext d
  refine (wordElement_selected _ Function.injective_id number d).trans ?_
  rw [extents_ofExtents]
  change 0 + mapToND extent number d * 1 = _
  rw [zero_add, mul_one]

/-- Rounding up nothing. -/
theorem divCeil_zero (divisor : BitVec w) : divCeil 0 divisor = 0 := by
  unfold divCeil
  rw [zero_add]
  by_cases zero : divisor = 0
  · rw [zero]
    exact BitVec.udiv_zero
  · have some : 0 < divisor.toNat := by
      apply Nat.pos_of_ne_zero
      intro none
      exact zero (BitVec.eq_of_toNat_eq (none.trans (Nat.zero_mod _).symm))
    have one : (1 : BitVec w).toNat = 1 := Nat.mod_eq_of_lt (Nat.lt_of_le_of_lt some divisor.isLt)
    have below : (divisor - 1).toNat = divisor.toNat - 1 := by
      rw [BitVec.toNat_sub_of_le (BitVec.le_def.mpr (one.trans_le some)), one]
    apply BitVec.eq_of_toNat_eq
    rw [BitVec.toNat_udiv, below, Nat.div_eq_of_lt (by omega)]
    exact (Nat.zero_mod _).symm

end FlatIdxContainer

/-! ## Tiled loops

The fastest component of an odometer may wrap around instead of carrying. Where it does so only
after as many steps as there are packs for the thread, the slower components still stay within
the range.
-/

namespace TiledIdxContainer

/-- The faster components are below their extents, and so are the values that they are reset
to. -/
private structure Within (iterator : ConstIterator (BitVec w) n n) : Prop where
  current : ∀ d : Fin n, iterator.current d.succ < iterator.extent d.succ
  first : ∀ d : Fin n, iterator.first d < iterator.extent d.succ

/-- The iterator has the constants of another one. -/
private def SameShape (iterator other : ConstIterator (BitVec w) n n) : Prop :=
  iterator.stride = other.stride ∧ iterator.extent = other.extent ∧ iterator.first = other.first

private theorem sameShape_advance (idx : ℕ) (inside : idx < n + 1)
    (iterator : ConstIterator (BitVec w) n n) :
    SameShape (iterator.advance id idx inside) iterator := by
  induction idx generalizing iterator with
  | zero => exact ⟨rfl, rfl, rfl⟩
  | succ idx ih =>
      rw [ConstIterator.advance_of_succ]
      dsimp only
      split
      · exact ih (Nat.lt_of_succ_lt inside) _
      · exact ⟨rfl, rfl, rfl⟩

/-- Advancing from a dimension on leaves the faster ones alone. -/
private theorem advance_faster (idx : ℕ) (inside : idx < n + 1)
    (iterator : ConstIterator (BitVec w) n n) {d : Fin (n + 1)} (faster : idx < d.val) :
    (iterator.advance id idx inside).current d = iterator.current d := by
  induction idx generalizing iterator with
  | zero =>
      have other : d ≠ 0 := fun same => absurd faster (by rw [same]; exact Nat.lt_irrefl 0)
      exact Function.update_of_ne other _ _
  | succ idx ih =>
      have other : d ≠ (⟨idx + 1, inside⟩ : Fin (n + 1)) := fun same =>
        absurd faster (by rw [same]; exact Nat.lt_irrefl _)
      rw [ConstIterator.advance_of_succ]
      dsimp only [id_eq]
      split
      · rw [ih (Nat.lt_of_succ_lt inside) _ (Nat.lt_of_succ_lt faster)]
        dsimp only
        rw [Function.update_of_ne other, Function.update_of_ne other]
      · exact Function.update_of_ne other _ _

/-- **One step.** -/
private theorem Within.advance {idx : ℕ} (inside : idx < n + 1)
    {iterator : ConstIterator (BitVec w) n n} (within : Within iterator) :
    Within (iterator.advance id idx inside) := by
  induction idx generalizing iterator with
  | zero =>
      refine ⟨fun d => ?_, within.first⟩
      rw [advance_faster 0 inside iterator (Nat.succ_pos _)]
      exact within.current d
  | succ idx ih =>
      have slow : idx < n := Nat.lt_of_succ_lt_succ inside
      have digit (d : Fin n) : (⟨idx + 1, inside⟩ : Fin (n + 1)) = d.succ ↔
          (⟨idx, slow⟩ : Fin n) = d := Fin.succ_inj (a := ⟨idx, slow⟩)
      rw [ConstIterator.advance_of_succ]
      dsimp only [id_eq]
      split
      · apply ih
        refine ⟨fun d => ?_, within.first⟩
        by_cases here : (⟨idx, slow⟩ : Fin n) = d
        · subst here
          have digit : (⟨idx, slow⟩ : Fin n).succ = ⟨idx + 1, inside⟩ := rfl
          dsimp only
          rw [digit, Function.update_self]
          exact within.first _
        · have other : d.succ ≠ (⟨idx + 1, inside⟩ : Fin (n + 1)) := fun same =>
            here ((digit d).mp same.symm)
          dsimp only
          rw [Function.update_of_ne other, Function.update_of_ne other]
          exact within.current d
      · next room =>
        refine ⟨fun d => ?_, within.first⟩
        by_cases here : (⟨idx, slow⟩ : Fin n) = d
        · subst here
          exact BitVec.not_le.mp room
        · have other : d.succ ≠ (⟨idx + 1, inside⟩ : Fin (n + 1)) := fun same =>
            here ((digit d).mp same.symm)
          dsimp only
          rw [Function.update_of_ne other]
          exact within.current d

section Rounds

variable {length count : ℕ} {At : ℕ → BitVec w → Prop}
  {start iterator : ConstIterator (BitVec w) (n + 1) (n + 1)}

/-- What the fastest component goes through: after so many steps it is full or back where a round
begins. -/
structure Rounds (length : ℕ) (At : ℕ → BitVec w → Prop) (first stride extent : BitVec w) :
    Prop where
  first : At 0 first
  step : ∀ round x, round + 1 < length → At round x →
    x + stride < extent ∧ At (round + 1) (x + stride)
  last : ∀ round x, round + 1 = length → At round x → x + stride < extent → At 0 (x + stride)

/-- What holds of an iterator within a round. -/
private structure AtRound (start : ConstIterator (BitVec w) (n + 1) (n + 1)) (length : ℕ)
    (At : ℕ → BitVec w → Prop) (round : ℕ) (iterator : ConstIterator (BitVec w) (n + 1) (n + 1)) :
    Prop where
  shape : SameShape iterator start
  within : Within iterator
  early : round < length
  fastest : At round (iterator.current (Fin.last (n + 1)))

private theorem sameShape_next (shape : SameShape iterator start) :
    SameShape (iterator.next id) start := by
  obtain ⟨stride, extent, first⟩ := sameShape_advance (n + 1) (Nat.lt_succ_self _) iterator
  exact ⟨stride.trans shape.1, extent.trans shape.2.1, first.trans shape.2.2⟩

/-- Without a carry only the fastest component changes. -/
private theorem next_of_room (room : iterator.current (Fin.last (n + 1)) +
    iterator.stride (Fin.last (n + 1)) < iterator.extent (Fin.last (n + 1))) :
    (iterator.next id).current = Function.update iterator.current (Fin.last (n + 1))
      (iterator.current (Fin.last (n + 1)) + iterator.stride (Fin.last (n + 1))) := by
  have step := iterator.advance_succ id (Fin.last n)
  dsimp only [id_eq] at step
  rw [if_neg (by rw [Function.update_self]; exact BitVec.not_le.mpr room)] at step
  exact congrArg ConstIterator.current step

/-- With a carry it begins again. -/
private theorem next_of_full (full : iterator.extent (Fin.last (n + 1)) ≤
    iterator.current (Fin.last (n + 1)) + iterator.stride (Fin.last (n + 1))) :
    (iterator.next id).current (Fin.last (n + 1)) = iterator.first (Fin.last n) := by
  have step := iterator.advance_succ id (Fin.last n)
  dsimp only [id_eq] at step
  rw [if_pos (by rw [Function.update_self]; exact full)] at step
  have fastest := congrFun (congrArg ConstIterator.current step) (Fin.last (n + 1))
  refine fastest.trans ?_
  rw [advance_faster _ _ _ (by exact Nat.lt_succ_self n)]
  exact Function.update_self _ _ _

variable (rounds : Rounds length At (start.first (Fin.last n)) (start.stride (Fin.last (n + 1)))
  (start.extent (Fin.last (n + 1))))

include rounds

/-- **A step within a round** changes only the fastest component. -/
private theorem AtRound.next {round : ℕ} (here : AtRound start length At round iterator)
    (more : round + 1 < length) : AtRound start length At (round + 1) (iterator.next id) ∧
      ∀ d : Fin (n + 1), (iterator.next id).current d.castSucc = iterator.current d.castSucc := by
  obtain ⟨below, there⟩ := rounds.step round _ more here.fastest
  rw [← here.shape.1, ← here.shape.2.1] at below
  rw [← here.shape.1] at there
  have moved := next_of_room below
  refine ⟨⟨sameShape_next here.shape, here.within.advance _, more, ?_⟩, fun d => ?_⟩
  · rw [moved, Function.update_self]
    exact there
  · rw [moved, Function.update_of_ne (Fin.castSucc_lt_last d).ne]

/-- The last step of a round leads to the begin of one. -/
private theorem AtRound.next_last {round : ℕ} (here : AtRound start length At round iterator)
    (last : round + 1 = length) : AtRound start length At 0 (iterator.next id) := by
  refine ⟨sameShape_next here.shape, here.within.advance _, by omega, ?_⟩
  by_cases full : iterator.extent (Fin.last (n + 1)) ≤
      iterator.current (Fin.last (n + 1)) + iterator.stride (Fin.last (n + 1))
  · rw [next_of_full full, here.shape.2.2]
    exact rounds.first
  · have room := BitVec.not_le.mp full
    have again := rounds.last round _ last here.fastest
    rw [← here.shape.1, ← here.shape.2.1] at again
    rw [next_of_room room, Function.update_self]
    exact again room

/-- **A burst within a round** changes only the fastest component. -/
private theorem AtRound.iterate {round : ℕ} (here : AtRound start length At round iterator)
    (advances : ℕ) (more : round + advances < length) :
    AtRound start length At (round + advances) ((ConstIterator.next id)^[advances] iterator) ∧
      ∀ d : Fin (n + 1), ((ConstIterator.next id)^[advances] iterator).current d.castSucc =
        iterator.current d.castSucc := by
  induction advances with
  | zero => exact ⟨here, fun _ => rfl⟩
  | succ advances ih =>
      obtain ⟨there, slow⟩ := ih (by omega)
      obtain ⟨next, kept⟩ := there.next rounds more
      rw [Function.iterate_succ_apply']
      exact ⟨next, fun d => (kept d).trans (slow d)⟩

end Rounds

/-- A component at a pack: that of one of the threads, after so many steps. -/
def AtPack (width threads round : ℕ) (x : BitVec w) : Prop :=
  ∃ slot < threads, x.toNat = (slot + round * threads) * width

/-- **Rounds of packs.** If all threads have as many packs, and the packs fit into the index type,
then a thread that wraps around goes on as another one. -/
theorem rounds_of_packs {width threads length : ℕ} (whole : width ∣ 2 ^ w)
    {first stride extent : BitVec w} (starts : AtPack width threads 0 first)
    (steps : stride.toNat = threads * width) (ends : extent.toNat = length * threads * width) :
    Rounds length (AtPack width threads) first stride extent := by
  have narrow := extent.isLt
  rw [ends] at narrow
  have sum {round slot : ℕ} {x : BitVec w} (here : x.toNat = (slot + round * threads) * width) :
      x.toNat + stride.toNat = (slot + (round + 1) * threads) * width := by
    rw [here, steps]
    ring
  refine ⟨starts, fun round x more => ?_, fun round x last => ?_⟩
  · rintro ⟨slot, below, here⟩
    have before : (slot + (round + 1) * threads) * width < length * threads * width := by
      have packs : slot + (round + 1) * threads < length * threads :=
        calc slot + (round + 1) * threads
            < (round + 1 + 1) * threads := by rw [Nat.succ_mul (round + 1)]; omega
          _ ≤ length * threads := Nat.mul_le_mul_right _ more
      refine Nat.mul_lt_mul_of_pos_right packs (Nat.pos_of_ne_zero ?_)
      rintro rfl
      exact (Nat.two_pow_pos w).ne' (Nat.eq_zero_of_zero_dvd whole)
    have exact : (x + stride).toNat = (slot + (round + 1) * threads) * width := by
      rw [BitVec.toNat_add, sum here, Nat.mod_eq_of_lt (before.trans narrow)]
    refine ⟨BitVec.lt_def.mpr ?_, slot, below, exact⟩
    rw [exact, ends]
    exact before
  · rintro ⟨slot, below, here⟩ room
    obtain ⟨places, wide⟩ := whole
    have total : x.toNat + stride.toNat = (slot + length * threads) * width := by
      rw [sum here, last]
    -- the component is not full, so that it has wrapped around
    have wraps : 2 ^ w ≤ x.toNat + stride.toNat := by
      by_contra fits
      have before := BitVec.lt_def.mp room
      rw [BitVec.toNat_add, Nat.mod_eq_of_lt (not_le.mp fits), total, ends] at before
      exact absurd (Nat.mul_le_mul_right width (Nat.le_add_left (length * threads) slot))
        (not_le.mpr before)
    have lanes : 0 < width := by
      apply Nat.pos_of_ne_zero
      rintro rfl
      rw [Nat.zero_mul] at wide
      exact (Nat.two_pow_pos w).ne' wide
    rw [wide, Nat.mul_comm width] at narrow wraps
    rw [total] at wraps
    have packs : length * threads < places := Nat.lt_of_mul_lt_mul_right narrow
    have beyond : places ≤ slot + length * threads := Nat.le_of_mul_le_mul_right wraps lanes
    refine ⟨slot + length * threads - places, by omega, ?_⟩
    have twice : (slot + length * threads) * width < 2 ^ w + 2 ^ w := by
      rw [← total]
      have := x.isLt
      have := stride.isLt
      omega
    rw [BitVec.toNat_add, total, Nat.zero_mul, Nat.add_zero, Nat.sub_mul,
      ← Nat.mul_comm width places, ← wide, Nat.mod_eq_sub_mod, Nat.mod_eq_of_lt]
    · omega
    · rw [wide, Nat.mul_comm width]
      exact wraps

private theorem zero_le_word (number : BitVec w) : 0 ≤ number :=
  BitVec.le_def.mpr ((Nat.zero_mod _).trans_le (Nat.zero_le _))

/-- Where nothing is along the fastest dimension, an iterator is at the end from the start. -/
private theorem make_at_end {offset first extent stride : Vec (BitVec w) (n + 1)}
    (empty : extent (Fin.last n) + offset (Fin.last n) = 0) :
    extent 0 + offset 0 ≤ (ConstIterator.make (id : CSelect (n + 1) (n + 1)) offset first extent
      stride).current 0 := by
  cases n with
  | zero =>
      have none : extent 0 + offset 0 = 0 := empty
      rw [none]
      exact zero_le_word _
  | succ n =>
      have beyond : ¬ first (Fin.last n).succ + offset (Fin.last n).succ <
          extent (Fin.last n).succ + offset (Fin.last n).succ := by
        have none : extent (Fin.last n).succ + offset (Fin.last n).succ = 0 := empty
        rw [none]
        exact BitVec.not_lt.mpr (zero_le_word _)
      have stopped : (ConstIterator.make (id : CSelect (n + 2) (n + 2)) offset first extent
          stride).current (id 0) = extent 0 + offset 0 :=
        make_current_of_beyond (i := Fin.last n) beyond
      exact stopped ▸ BitVec.le_refl _

/-- Then so are all threads. -/
theorem done_of_begin_beyond {range : IdxRange (BitVec w) (n + 1)}
    {threadCount idx : Vec (BitVec w) (n + 1)}
    (layout : Layout) (zero : range.beginMd (Fin.last n) = 0)
    (empty : range.endMd (Fin.last n) = 0) :
    (TiledIdxContainer.mk range ⟨idx, threadCount⟩ layout id).loop.done
      (TiledIdxContainer.mk range ⟨idx, threadCount⟩ layout
        (id : CSelect (n + 1) (n + 1))).begin = true := by
  have distance : range.distance (Fin.last n) = 0 := by
    change range.endMd _ - range.beginMd _ = 0
    rw [zero, empty, sub_zero]
  obtain ⟨first, last, stride, cap, begins, ends, capped⟩ : ∃ first last stride cap,
      (TiledIdxContainer.mk range ⟨idx, threadCount⟩ layout
        (id : CSelect (n + 1) (n + 1))).begin =
          ConstIterator.make id range.beginMd first last stride ∧
      (TiledIdxContainer.mk range ⟨idx, threadCount⟩ layout (id : CSelect (n + 1) (n + 1))).end =
        range.beginMd 0 + last 0 ∧
      (last (Fin.last n) = range.distance (Fin.last n) ∨
        last (Fin.last n) = stdMin (range.distance (Fin.last n)) cap) := by
    cases layout with
    | strided => exact ⟨_, _, _, 0, rfl, rfl, .inl rfl⟩
    | contiguous => exact ⟨_, _, _, _, rfl, rfl, .inr rfl⟩
  have none : last (Fin.last n) + range.beginMd (Fin.last n) = 0 := by
    rw [zero, add_zero]
    rcases capped with whole | least
    · rw [whole, distance]
    · apply BitVec.eq_of_toNat_eq
      rw [least, distance, toNat_stdMin]
      exact (Nat.min_eq_left ((Nat.zero_mod _).trans_le (Nat.zero_le _)))
  apply decide_eq_true
  change _ ≤ (TiledIdxContainer.mk range ⟨idx, threadCount⟩ layout id).begin.current 0
  rw [begins, ends, add_comm]
  exact make_at_end none

/-! ### The strided layout -/

section Strided

variable {range : IdxRange (BitVec w) (n + 2)} {threadCount idx : Vec (BitVec w) (n + 2)}

/-- A thread that has not reached the end from the start begins within the range. -/
private theorem begin_within (running : (machineThread range threadCount id idx).loop.done
      (machineThread range threadCount id idx).begin = false) :
    Within (machineThread range threadCount id idx).begin ∧
      (machineThread range threadCount id idx).begin.current (Fin.last (n + 1)) =
        (machineThread range threadCount id idx).begin.first (Fin.last n) := by
  have running' : ¬ (machineThread range threadCount id idx).end ≤
      (machineThread range threadCount id idx).begin.current 0 := of_decide_eq_false running
  have below (d : Fin (n + 1)) : (machineThread range threadCount id idx).begin.first d <
      (machineThread range threadCount id idx).begin.extent d.succ := by
    by_contra beyond
    rw [machine_begin] at beyond
    have stopped : (ConstIterator.make id range.beginMd (fun d => idx d * range.strideMd d)
        range.distance fun d => threadCount d * range.strideMd d).current (id 0) =
          range.endMd 0 - range.beginMd 0 + range.beginMd 0 :=
        make_current_of_beyond (i := d) beyond
    rw [BitVec.sub_add_cancel] at stopped
    apply running'
    rw [machine_end, machine_begin]
    exact stopped ▸ BitVec.le_refl _
  have current : (machineThread range threadCount id idx).begin.current =
      fun d => idx d * range.strideMd d + range.beginMd d := by
    rw [machine_begin] at below ⊢
    exact make_current_of_below below
  have first (d : Fin (n + 1)) : (machineThread range threadCount id idx).begin.first d =
      idx d.succ * range.strideMd d.succ + range.beginMd d.succ := by
    rw [machine_begin]
    rfl
  refine ⟨⟨fun d => ?_, below⟩, ?_⟩
  · have start := below d
    rw [first] at start
    rw [current]
    exact start
  · rw [current]
    exact (first (Fin.last n)).symm

/-- **Where the threads are.** Whatever overflows in the slower dimensions, a strided thread
stays within their extents, and its fastest component within a round. -/
theorem reaches_within {length count : ℕ} {At : ℕ → BitVec w → Prop}
    (rounds : Rounds length At (idx (Fin.last (n + 1)) * range.strideMd (Fin.last (n + 1)) +
        range.beginMd (Fin.last (n + 1)))
      (threadCount (Fin.last (n + 1)) * range.strideMd (Fin.last (n + 1)))
      (range.endMd (Fin.last (n + 1)))) (positive : 0 < length) (divides : count ∣ length)
    {x : Vec (BitVec w) (n + 2)}
    (reached : (machineThread range threadCount id idx).loop.Reaches count
      (machineThread range threadCount id idx).begin x) :
    (∀ d : Fin (n + 1), x d.castSucc < range.endMd d.castSucc) ∧
      ∃ round < length, At round (x (Fin.last (n + 1))) := by
  have extent (d : Fin (n + 2)) : (machineThread range threadCount id idx).begin.extent d =
      range.endMd d := begin_extent threadCount idx d
  have shape : Rounds length At ((machineThread range threadCount id idx).begin.first (Fin.last n))
      ((machineThread range threadCount id idx).begin.stride (Fin.last (n + 1)))
      ((machineThread range threadCount id idx).begin.extent (Fin.last (n + 1))) := by
    rw [extent, machine_begin]
    exact rounds
  obtain ⟨within, starts⟩ := begin_within reached.running
  refine reached.of_invariant (fun iterator => ∃ round, count ∣ round ∧ AtRound
      (machineThread range threadCount id idx).begin length At round iterator)
    (fun x => (∀ d : Fin (n + 1), x d.castSucc < range.endMd d.castSucc) ∧
      ∃ round < length, At round (x (Fin.last (n + 1)))) ?_ ?_
    ⟨0, Nat.dvd_zero _, ⟨rfl, rfl, rfl⟩, within, positive, starts ▸ shape.first⟩
  · rintro iterator ⟨round, whole, here⟩ running advances early
    have room := add_le_of_dvd divides whole here.early
    obtain ⟨there, slow⟩ := here.iterate shape advances (by omega)
    refine ⟨fun d => ?_, _, there.early, there.fastest⟩
    change ((ConstIterator.next id)^[advances] iterator).current d.castSucc < _
    rw [slow]
    cases d using Fin.cases with
    | zero =>
        have before := BitVec.not_le.mp (of_decide_eq_false running)
        rw [machine_end] at before
        exact before
    | succ d =>
        have inside := here.within.current d.castSucc
        rw [here.shape.2.1, extent] at inside
        exact inside
  · rintro iterator ⟨round, whole, here⟩ _
    have room := add_le_of_dvd divides whole here.early
    obtain ⟨advances, rfl⟩ : ∃ advances, count = advances + 1 := by
      refine ⟨count - 1, (Nat.sub_add_cancel (Nat.pos_of_ne_zero ?_)).symm⟩
      rintro rfl
      exact positive.ne' (Nat.eq_zero_of_zero_dvd divides)
    obtain ⟨there, -⟩ := here.iterate shape advances (by omega)
    change ∃ round, _ ∧ AtRound _ _ _ round ((ConstIterator.next id)^[advances + 1] iterator)
    rw [Function.iterate_succ_apply']
    rcases Nat.lt_or_ge (round + advances + 1) length with more | last
    · exact ⟨_, whole.add (Nat.dvd_refl _), (there.next shape more).1⟩
    · exact ⟨0, Nat.dvd_zero _, there.next_last shape (by omega)⟩

/-- What holds of where a thread begins and is kept by its stride holds of all it visits in a
single dimension. -/
theorem reaches_single {range : IdxRange (BitVec w) 1} {threadCount idx : Vec (BitVec w) 1}
    {count : ℕ} (property : BitVec w → Prop)
    (starts : property (idx 0 * range.strideMd 0 + range.beginMd 0))
    (steps : ∀ number, property number → property (number + threadCount 0 * range.strideMd 0))
    {x : Vec (BitVec w) 1}
    (reached : (machineThread range threadCount id idx).loop.Reaches count
      (machineThread range threadCount id idx).begin x) : property (x 0) := by
  have iterate (advances : ℕ) {iterator : ConstIterator (BitVec w) 0 0}
      (here : iterator.stride 0 = threadCount 0 * range.strideMd 0 ∧
        property (iterator.current 0)) :
      ((ConstIterator.next id)^[advances] iterator).stride 0 =
          threadCount 0 * range.strideMd 0 ∧
        property (((ConstIterator.next id)^[advances] iterator).current 0) := by
    induction advances with
    | zero => exact here
    | succ advances ih =>
        rw [Function.iterate_succ_apply']
        refine ⟨ih.1, ?_⟩
        have next := steps _ ih.2
        have moved (iterator : ConstIterator (BitVec w) 0 0) : (iterator.next id).current 0 =
            iterator.current 0 + iterator.stride 0 := by
          exact Function.update_self (0 : Fin 1) _ iterator.current
        rw [moved, ih.1]
        exact next
  have current : (machineThread range threadCount id idx).begin.current =
      fun d => idx d * range.strideMd d + range.beginMd d := by
    rw [machine_begin]
    exact make_current_of_below fun i => i.elim0
  have stride : (machineThread range threadCount id idx).begin.stride 0 =
      threadCount 0 * range.strideMd 0 := by
    rw [machine_begin]
    rfl
  refine reached.of_invariant (fun iterator => iterator.stride 0 =
    threadCount 0 * range.strideMd 0 ∧ property (iterator.current 0)) (fun x => property (x 0))
      (fun iterator here _ advances _ => (iterate advances here).2)
      (fun iterator here _ => iterate count here) ⟨stride, ?_⟩
  rw [current]
  exact starts

end Strided

end TiledIdxContainer

/-! ## Calls -/

/-- A configuration of the workers and the packs. -/
structure SimdRun (w n : ℕ) where
  simdWidth : ℕ
  numSimdPerFnCall : ℕ
  traverse : Traverse
  layout : Layout
  threadCount : Vec (BitVec w) (n + 1)
  numElements : Vec (BitVec w) (n + 1)

namespace SimdRun

variable {run : SimdRun w n} {idx x : Vec (BitVec w) (n + 1)}

/-- There is at least one worker, an element to a pack and a pack to a call. -/
structure Proper (run : SimdRun w n) : Prop where
  threads : ∀ d, 0 < run.threadCount d
  width : 0 < run.simdWidth
  packs : 0 < run.numSimdPerFnCall

/-- The first column behind the packs. -/
def column (run : SimdRun w n) : ℕ :=
  remainderBegin run.simdWidth run.numSimdPerFnCall run.threadCount run.numElements

/-- The calls of a worker. -/
def calls (run : SimdRun w n) (idx : Vec (BitVec w) (n + 1)) (fuel : ℕ) :
    Except Math.Loop.Fault (List (Call (BitVec w) n)) :=
  concurrent run.simdWidth run.numSimdPerFnCall run.traverse run.layout ⟨idx, run.threadCount⟩
    run.numElements fuel

/-- The packs that the loops of a worker hand to the functor, whether or not they end. What
follows a row whose loop does not end counts as well. -/
def PackReached (run : SimdRun w n) (idx x : Vec (BitVec w) (n + 1)) : Prop :=
  if 0 < n ∧ run.traverse = .flat then
    ∃ row, (rowsMap run.layout run.threadCount run.numElements idx).Reaches 1 row ∧
      (rowPacksMap run.simdWidth run.numSimdPerFnCall run.layout run.threadCount run.numElements
        row idx).Reaches run.numSimdPerFnCall x
  else (packsMap run.simdWidth run.numSimdPerFnCall run.traverse run.layout run.threadCount
    run.numElements idx).Reaches run.numSimdPerFnCall x

/-- The calls that a worker issues, whether or not it finishes: those with packs, and those with
single elements. -/
def Issues (run : SimdRun w n) (idx : Vec (BitVec w) (n + 1)) (call : Call (BitVec w) n) : Prop :=
  if run.simdWidth ≠ 1 then
    call.width = run.simdWidth ∧ run.PackReached idx call.dataIdx ∨
      call.width = 1 ∧ (remainderMap run.simdWidth run.numSimdPerFnCall run.traverse run.layout
        run.threadCount run.numElements idx).Reaches 1 call.dataIdx
  else call.width = 1 ∧ (makeIdxMap ⟨idx, run.threadCount⟩ (IdxRange.ofExtents run.numElements)
    run.traverse run.layout).Reaches 1 call.dataIdx

/-- The packs that the loops over them return. -/
private theorem packReached_of_bursts {fuel : ℕ} {bursts : List (List (Vec (BitVec w) (n + 1)))}
    (finished : simdPackBursts run.simdWidth run.numSimdPerFnCall run.traverse run.layout
      ⟨idx, run.threadCount⟩ run.numElements fuel = .ok bursts)
    {burst : List (Vec (BitVec w) (n + 1))} (taken : burst ∈ bursts) (held : x ∈ burst) :
    run.PackReached idx x := by
  unfold simdPackBursts at finished
  unfold PackReached
  split_ifs at finished ⊢ with rows
  · rw [rows.2] at finished
    simp only [Vec.rAssign, Function.update_idem] at finished
    obtain ⟨visited, rowsRun, finished⟩ := Math.exists_of_bind finished
    obtain ⟨perRow, packsRun, finished⟩ := Math.exists_of_bind finished
    rw [← Except.ok.inj finished] at taken
    obtain ⟨ofRow, inRow, taken⟩ := List.mem_flatten.mp taken
    obtain ⟨row, rowVisited, ofRowRun⟩ := Math.exists_of_mapM packsRun inRow
    exact ⟨row, IdxContainer.reaches_of_run rowsRun rowVisited,
      IdxContainer.reaches_of_runBursts ofRowRun taken held⟩
  · exact IdxContainer.reaches_of_runBursts finished taken held

/-- **What is returned is issued.** -/
theorem issues_of_calls {fuel : ℕ} {calls : List (Call (BitVec w) n)}
    (finished : run.calls idx fuel = .ok calls) {call : Call (BitVec w) n} (held : call ∈ calls) :
    run.Issues idx call := by
  unfold SimdRun.calls concurrent at finished
  unfold Issues
  split_ifs at finished ⊢ with wide
  · obtain ⟨bursts, packs, finished⟩ := Math.exists_of_bind finished
    obtain ⟨rest, elements, finished⟩ := Math.exists_of_bind finished
    rw [← Except.ok.inj finished] at held
    rcases List.mem_append.mp held with inPacks | inRest
    · obtain ⟨x, member, rfl⟩ := List.mem_map.mp inPacks
      obtain ⟨burst, taken, member⟩ := List.mem_flatten.mp member
      exact .inl ⟨rfl, packReached_of_bursts packs taken member⟩
    · obtain ⟨x, member, rfl⟩ := List.mem_map.mp inRest
      exact .inr ⟨rfl, IdxContainer.reaches_of_run elements member⟩
  · obtain ⟨idxs, elements, finished⟩ := Math.exists_of_bind finished
    rw [← Except.ok.inj finished] at held
    obtain ⟨x, member, rfl⟩ := List.mem_map.mp held
    exact ⟨rfl, IdxContainer.reaches_of_run elements member⟩

/-! ## Where packs are -/

/-- The rows that are processed. With the flat traversal these are the ones whose linear index is
below the product of the slow extents, all of it computed in the index type. -/
def rows (run : SimdRun w n) : Set (Vec (BitVec w) (n + 1)) :=
  if 0 < n ∧ run.traverse = .flat then
    {row | ∃ number < Vec.product (run.numElements.rAssign 1),
      row = mapToND (run.numElements.rAssign 1) number}
  else {row | ∀ d : Fin n, row d.castSucc < run.numElements d.castSucc}

/-- The index lies in a row that is processed, at a multiple of the width, and there is a column
with packs. -/
structure Located (run : SimdRun w n) (x : Vec (BitVec w) (n + 1)) : Prop where
  column : run.column ≠ 0
  row : ∃ row ∈ run.rows, ∀ d : Fin n, x d.castSucc = row d.castSucc
  pack : run.simdWidth ∣ x.back.toNat

private theorem dvd_width {bits : ℕ} (power : run.simdWidth = 2 ^ bits) (number : BitVec w) :
    run.simdWidth ∣ (number * BitVec.ofNat w run.simdWidth).toNat := by
  rw [BitVec.toNat_mul, BitVec.toNat_ofNat, Nat.mul_mod_mod, power]
  exact two_pow_dvd_mod (Nat.dvd_mul_left _ _) w

private theorem packRange_stride (run : SimdRun w n) (first : Vec (BitVec w) (n + 1)) :
    (packRange run.simdWidth run.column run.numElements first).strideMd (Fin.last n) =
      BitVec.ofNat w run.simdWidth :=
  Function.update_self _ _ _

private theorem packRange_end (run : SimdRun w n) (first : Vec (BitVec w) (n + 1)) :
    (packRange run.simdWidth run.column run.numElements first).endMd (Fin.last n) =
      BitVec.ofNat w run.column :=
  Function.update_self _ _ _

private theorem packRange_end_slow (run : SimdRun w n) (first : Vec (BitVec w) (n + 1))
    (d : Fin n) : (packRange run.simdWidth run.column run.numElements first).endMd d.castSucc =
      run.numElements d.castSucc :=
  Function.update_of_ne (Fin.castSucc_lt_last d).ne _ _

/-- A flat loop over packs visits multiples of the width. -/
private theorem dvd_wordElement {bits : ℕ} (power : run.simdWidth = 2 ^ bits)
    {selection : CSelect (k + 1) (n + 1)} (distinct : Function.Injective selection)
    {i : Fin (k + 1)}
    (fastest : selection i = Fin.last n) {first : Vec (BitVec w) (n + 1)} (start : first.back = 0)
    (pack : BitVec w) : run.simdWidth ∣ (FlatIdxContainer.wordElement (packRange run.simdWidth
      run.column run.numElements first) selection pack).back.toNat := by
  have column := FlatIdxContainer.wordElement_selected (packRange run.simdWidth run.column
    run.numElements first) distinct pack i
  have begins : (packRange run.simdWidth run.column run.numElements first).beginMd (Fin.last n) =
      0 := start
  rw [fastest, packRange_stride, begins, zero_add] at column
  change run.simdWidth ∣ (FlatIdxContainer.wordElement (packRange run.simdWidth run.column
    run.numElements first) selection pack (Fin.last n)).toNat
  rw [column]
  exact dvd_width power _

/-- The packs of a row. -/
private theorem located_of_row {bits : ℕ} (proper : run.Proper) (power : run.simdWidth = 2 ^ bits)
    (member : idx ∈ box run.threadCount) (several : 0 < n) (flat : run.traverse = .flat)
    {row : Vec (BitVec w) (n + 1)}
    (outer : (rowsMap run.layout run.threadCount run.numElements idx).Reaches 1 row)
    (inner : (rowPacksMap run.simdWidth run.numSimdPerFnCall run.layout run.threadCount
      run.numElements row idx).Reaches run.numSimdPerFnCall x) : run.Located x := by
  have rowDistinct : Function.Injective (id : CSelect (n + 1) (n + 1)) := Function.injective_id
  have single : Function.Injective fun _ : Fin 1 => Fin.last n := fun i j _ => Fin.ext (by omega)
  obtain ⟨-, number, rfl, below⟩ := FlatIdxContainer.reaches_element rowDistinct
    (rAssign_mem_box proper.threads member) outer.2
  obtain ⟨some, pack, rfl, -⟩ := FlatIdxContainer.reaches_element single
    (fastestOnly_mem_box proper.threads member) inner.2
  obtain ⟨slow, rfl⟩ : ∃ slow, n = slow + 1 := ⟨n - 1, by omega⟩
  rw [FlatIdxContainer.extents_ofExtents] at below
  rw [FlatIdxContainer.wordElement_ofExtents] at some ⊢
  have start : (mapToND (run.numElements.rAssign 1) number).back = 0 :=
    mapToND_back (run.numElements.rAssign 1) (Function.update_self _ _ _) number
  generalize here : mapToND (run.numElements.rAssign 1) number = row at start some ⊢
  refine ⟨fun none => ?_, ⟨row, ?_, fun d => ?_⟩, ?_⟩
  · have distance : (packRange run.simdWidth run.column run.numElements row).distance
        (Fin.last (slow + 1)) = 0 := by
      change Vec.rAssign run.numElements (IdxValue.ofNat run.column) (Fin.last (slow + 1)) -
        row.back = 0
      rw [Vec.rAssign, Function.update_self, start, none, sub_zero]
      rfl
    have empty : Vec.product (FlatIdxContainer.extents (packRange run.simdWidth run.column
        run.numElements row) fun _ : Fin 1 => Fin.last (slow + 1)) = 0 := by
      change divCeil ((packRange run.simdWidth run.column run.numElements row).distance
        (Fin.last (slow + 1))) _ = 0
      rw [distance, FlatIdxContainer.divCeil_zero]
    exact absurd (empty ▸ some) (BitVec.lt_irrefl 0)
  · rw [rows, if_pos ⟨several, flat⟩]
    exact ⟨number, below rfl, here.symm⟩
  · exact FlatIdxContainer.wordElement_unselected _ pack fun _ => (Fin.castSucc_lt_last d).ne'
  · exact dvd_wordElement power single (i := 0) rfl start pack

/-- With packs somewhere the width and the number of packs of the threads are representable, and
all threads of the fastest dimension have as many packs. -/
private theorem column_eq (run : SimdRun w n)
    (args : run.simdWidth * run.numSimdPerFnCall < 2 ^ 32) :
    run.column = numSimdPackLoops run.simdWidth run.numSimdPerFnCall run.threadCount.toNats
      run.numElements.toNats * run.numSimdPerFnCall * run.threadCount.back.toNat *
        run.simdWidth := by
  have column := remainderBegin_toNats args run.threadCount run.numElements
  rw [remainderBegin_eq] at column
  refine column.trans ?_
  change _ * _ * run.threadCount.back.toNat = _
  ring

private theorem column_le (args : run.simdWidth * run.numSimdPerFnCall < 2 ^ 32) :
    run.column ≤ run.numElements.back.toNat := by
  have column := remainderBegin_toNats args run.threadCount run.numElements
  exact column.trans_le (remainderBegin_le run.numElements.toNats)

/-- Packs that a loop over all of them reaches are there. -/
private theorem column_of_reaches
    (reached : (packsMap run.simdWidth run.numSimdPerFnCall run.traverse run.layout
      run.threadCount run.numElements idx).Reaches run.numSimdPerFnCall x) : run.column ≠ 0 := by
  intro none
  have begins : (packRange run.simdWidth run.column run.numElements (Vec.fill 0)).beginMd
      (Fin.last n) = 0 := rfl
  have ends : (packRange run.simdWidth run.column run.numElements
      (Vec.fill (0 : BitVec w))).endMd (Fin.last n) = 0 := by
    refine (Function.update_self _ _ _).trans ?_
    rw [none]
    rfl
  have running := reached.2
  unfold packsMap makeIdxMap at running
  cases traversal : run.traverse with
  | flat =>
      rw [traversal] at running
      have empty : (FlatIdxContainer.extents (packRange run.simdWidth run.column run.numElements
          (Vec.fill (0 : BitVec w))) id (Fin.last n)).toNat = 0 := by
        change (divCeil ((packRange run.simdWidth run.column run.numElements
          (Vec.fill (0 : BitVec w))).endMd (Fin.last n) - 0) _).toNat = 0
        rw [ends, sub_zero, FlatIdxContainer.divCeil_zero]
        exact Nat.zero_mod _
      exact Bool.false_ne_true (running.running.symm.trans
        (FlatIdxContainer.done_of_zero run.layout idx empty))
  | tiled =>
      rw [traversal] at running
      exact Bool.false_ne_true (running.running.symm.trans
        (TiledIdxContainer.done_of_begin_beyond run.layout begins ends))

/-- Blocks of packs are those of exact arithmetic. -/
private theorem inside_of_contiguous {bits : ℕ} (proper : run.Proper)
    (power : run.simdWidth = 2 ^ bits) (args : run.simdWidth * run.numSimdPerFnCall < 2 ^ 32)
    (lanes : run.simdWidth < 2 ^ w) (whole : ¬ (0 < n ∧ Traverse.tiled = .flat))
    (member : idx ∈ box run.threadCount)
    (reached : (packsMap run.simdWidth run.numSimdPerFnCall .tiled .contiguous
      run.threadCount run.numElements idx).Reaches run.numSimdPerFnCall x) :
    (∀ d : Fin n, x d.castSucc < run.numElements d.castSucc) ∧ run.simdWidth ∣ x.back.toNat := by
  have memberNats := (toNats_box run.threadCount).mapsTo member
  have positive := toNats_positive proper.threads
  have fits : IdxContainer.LoopFits (packRange run.simdWidth run.column run.numElements
      (Vec.fill 0)) run.threadCount .tiled .contiguous := trivial
  have yields : (packsMap run.simdWidth run.numSimdPerFnCall .tiled .contiguous run.threadCount
      run.numElements idx).Yields ((packsMap run.simdWidth run.numSimdPerFnCall .tiled .contiguous
        run.threadCount.toNats run.numElements.toNats idx.toNats).indices.map Vec.ofNats) :=
    (packsMap_words proper.threads proper.width (room_of_power power lanes _ _) args lanes fits
      member).1
  have even : run.numSimdPerFnCall ∣ (packsMap run.simdWidth run.numSimdPerFnCall .tiled
      .contiguous run.threadCount.toNats run.numElements.toNats idx.toNats).indices.length :=
    dvd_length_packsMap run.numSimdPerFnCall positive proper.width whole .contiguous memberNats
  have visited := Math.Loop.Yields.mem_of_reaches _ yields (by rwa [List.length_map]) reached.2
  obtain ⟨exact, held, rfl⟩ := List.mem_map.mp visited
  obtain ⟨inside, pack⟩ := (packsMap_partitions run.numSimdPerFnCall positive proper.width .tiled
    .contiguous run.numElements.toNats).2.2.sound memberNats held
  obtain ⟨slow, fast⟩ := mem_elements_rAssign.mp inside
  constructor
  · intro d
    have below := slow d.castSucc (Fin.castSucc_lt_last d).ne
    rw [BitVec.lt_def]
    exact (Nat.mod_le _ _).trans_lt below
  · rw [power] at pack ⊢
    exact (toNat_cast exact.back).symm ▸ two_pow_dvd_mod pack w

/-- Strided odometers stay within the range. -/
private theorem inside_of_strided {bits : ℕ} (power : run.simdWidth = 2 ^ bits)
    (args : run.simdWidth * run.numSimdPerFnCall < 2 ^ 32)
    (lanes : run.simdWidth < 2 ^ w) (some : run.column ≠ 0) (narrow : run.column < 2 ^ w)
    (member : idx ∈ box run.threadCount)
    (reached : (packsMap run.simdWidth run.numSimdPerFnCall .tiled .strided
      run.threadCount run.numElements idx).Reaches run.numSimdPerFnCall x) :
    (∀ d : Fin n, x d.castSucc < run.numElements d.castSucc) ∧ run.simdWidth ∣ x.back.toNat := by
  have even := run.column_eq args
  have sum (first second : BitVec w) (left : run.simdWidth ∣ first.toNat)
      (right : run.simdWidth ∣ second.toNat) : run.simdWidth ∣ (first + second).toNat := by
    rw [power] at left right ⊢
    rw [BitVec.toNat_add]
    exact two_pow_dvd_mod (left.add right) w
  cases n with
  | zero =>
      refine ⟨fun d => d.elim0, ?_⟩
      refine TiledIdxContainer.reaches_single (fun number => run.simdWidth ∣ number.toNat) ?_
        (fun number divides => ?_) reached.2
      · change run.simdWidth ∣ (idx.back * (packRange run.simdWidth run.column run.numElements
          (Vec.fill 0)).strideMd (Fin.last 0) + 0).toNat
        rw [packRange_stride, add_zero]
        exact dvd_width power _
      · refine sum _ _ divides ?_
        change run.simdWidth ∣ (run.threadCount.back * (packRange run.simdWidth run.column
          run.numElements (Vec.fill 0)).strideMd (Fin.last 0)).toNat
        rw [packRange_stride]
        exact dvd_width power _
  | succ n =>
      have length : 0 < numSimdPackLoops run.simdWidth run.numSimdPerFnCall run.threadCount.toNats
          run.numElements.toNats * run.numSimdPerFnCall := by
        apply Nat.pos_of_ne_zero
        intro none
        rw [none, Nat.zero_mul, Nat.zero_mul] at even
        exact some even
      have threads : run.threadCount.back.toNat * run.simdWidth ≤ run.column := by
        rw [even, Nat.mul_assoc]
        exact Nat.le_mul_of_pos_left _ length
      have worker : idx.back.toNat < run.threadCount.back.toNat := BitVec.lt_def.mp (member _)
      have words (number : BitVec w) (below : number.toNat ≤ run.threadCount.back.toNat) :
          (number * BitVec.ofNat w run.simdWidth).toNat = number.toNat * run.simdWidth := by
        rw [BitVec.toNat_mul, BitVec.toNat_ofNat, Nat.mul_mod_mod, Nat.mod_eq_of_lt]
        exact (Nat.mul_le_mul_right _ below).trans_lt (threads.trans_lt narrow)
      have whole : run.simdWidth ∣ 2 ^ w := by
        rw [power] at lanes ⊢
        exact Nat.pow_dvd_pow 2 ((Nat.pow_lt_pow_iff_right Nat.one_lt_two).mp lanes).le
      have rounds : TiledIdxContainer.Rounds _ (TiledIdxContainer.AtPack run.simdWidth
          run.threadCount.back.toNat) (idx.back * BitVec.ofNat w run.simdWidth + 0)
            (run.threadCount.back * BitVec.ofNat w run.simdWidth) (BitVec.ofNat w run.column) :=
        TiledIdxContainer.rounds_of_packs whole
          ⟨idx.back.toNat, worker, by rw [add_zero, words _ worker.le, Nat.zero_mul]; rfl⟩
          (words _ le_rfl) ((Nat.mod_eq_of_lt narrow).trans even)
      rw [← packRange_stride run (Vec.fill 0), ← packRange_end run (Vec.fill 0)] at rounds
      obtain ⟨inside, round, -, slot, -, column⟩ := TiledIdxContainer.reaches_within rounds length
        (Nat.dvd_mul_left _ _) reached.2
      refine ⟨fun d => ?_, column ▸ Nat.dvd_mul_left _ _⟩
      have below := inside d
      rwa [packRange_end_slow] at below

/-- Without an outer loop a pack lies in the box of the slow extents. -/
private theorem located_of_whole {bits : ℕ} (proper : run.Proper)
    (power : run.simdWidth = 2 ^ bits) (args : run.simdWidth * run.numSimdPerFnCall < 2 ^ 32)
    (member : idx ∈ box run.threadCount) (whole : ¬ (0 < n ∧ run.traverse = .flat))
    (reached : (packsMap run.simdWidth run.numSimdPerFnCall run.traverse run.layout
      run.threadCount run.numElements idx).Reaches run.numSimdPerFnCall x) : run.Located x := by
  have some := column_of_reaches reached
  suffices inside : (∀ d : Fin n, x d.castSucc < run.numElements d.castSucc) ∧
      run.simdWidth ∣ x.back.toNat by
    refine ⟨some, ⟨x, ?_, fun _ => rfl⟩, inside.2⟩
    rw [rows, if_neg whole]
    exact inside.1
  have narrow := (column_le args).trans_lt run.numElements.back.isLt
  have even := run.column_eq args
  have lanes : run.simdWidth < 2 ^ w :=
    (Nat.le_of_dvd (Nat.pos_of_ne_zero some) (even ▸ Nat.dvd_mul_left _ _)).trans_lt narrow
  cases traversal : run.traverse with
  | flat =>
      obtain rfl : n = 0 := by simpa [traversal] using whole
      rw [traversal] at reached
      obtain ⟨-, pack, rfl, -⟩ := FlatIdxContainer.reaches_element Function.injective_id member
        reached.2
      exact ⟨fun d => d.elim0, dvd_wordElement power Function.injective_id (i := 0) rfl rfl pack⟩
  | tiled =>
      rw [traversal] at reached whole
      cases layout : run.layout with
      | contiguous =>
          rw [layout] at reached
          exact inside_of_contiguous proper power args lanes whole member reached
      | strided =>
          rw [layout] at reached
          exact inside_of_strided power args lanes some narrow member reached

/-- **Where packs are.** Whatever overflows, the packs that are handed to the functor begin at a
multiple of the width in a row that is processed. -/
theorem PackReached.located {bits : ℕ} (proper : run.Proper) (power : run.simdWidth = 2 ^ bits)
    (args : run.simdWidth * run.numSimdPerFnCall < 2 ^ 32) (member : idx ∈ box run.threadCount)
    (reached : run.PackReached idx x) : run.Located x := by
  unfold PackReached at reached
  split_ifs at reached with outer
  · obtain ⟨row, inRow, inPacks⟩ := reached
    exact located_of_row proper power member outer.1 outer.2 inRow inPacks
  · exact located_of_whole proper power args member outer reached

end SimdRun

end Alpaka
