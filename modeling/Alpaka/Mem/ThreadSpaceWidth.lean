import Alpaka.Mem.RangeWidth

/-! # Mapping threads in machine arithmetic

Both loops of `mapTo` compute modulo a power of two. The mapping keeps all threads distinct
exactly when it does so in exact arithmetic and the thread count of the slowest selected
dimension, into which the unselected ones are folded, is representable
(`Alpaka.ThreadSpace.mapTo_bijective_iff`).
-/

namespace Alpaka.ThreadSpace

variable {w n k : ℕ}

/-- `mapTo` computes with words what it computes with numbers. -/
theorem mapTo_ofNats (threadCount idx : Vec ℕ (n + 1)) (selection : CSelect (k + 1) (n + 1)) :
    (ThreadSpace.mk (Vec.ofNats idx) (Vec.ofNats threadCount) :
        ThreadSpace (BitVec w) (n + 1)).mapTo selection =
      ⟨Vec.ofNats (mapIdx threadCount selection idx),
        Vec.ofNats (mapCount threadCount selection)⟩ := by
  unfold mapIdx mapCount mapTo
  split
  · rfl
  · congr 1
    · refine List.foldl_hom Vec.ofNats fun threadIndex d => ?_
      have cleared : (Vec.ofNats (Function.update threadIndex d 0) : Vec (BitVec w) (n + 1)) =
          Function.update (Vec.ofNats threadIndex) d 0 := Vec.ofNats_update threadIndex d 0
      simp only [← cleared, Vec.ofNats_update _ (selection 0), Nat.cast_add, Nat.cast_mul]
      rfl
    · refine List.foldl_hom Vec.ofNats fun numThreads d => ?_
      have cleared : (Vec.ofNats (Function.update numThreads d 1) : Vec (BitVec w) (n + 1)) =
          Function.update (Vec.ofNats numThreads) d 1 := Vec.ofNats_update numThreads d 1
      simp only [← cleared, Vec.ofNats_update _ (selection 0), Nat.cast_mul]
      rfl

section Words

variable (threadCount idx : Vec (BitVec w) (n + 1)) (selection : CSelect (k + 1) (n + 1))

/-- `mapTo` on words is `mapTo` on the numbers. -/
theorem mapTo_eq_ofNats : (ThreadSpace.mk idx threadCount).mapTo selection =
    ⟨Vec.ofNats (mapIdx threadCount.toNats selection idx.toNats),
      Vec.ofNats (mapCount threadCount.toNats selection)⟩ := by
  rw [← mapTo_ofNats, Vec.ofNats_toNats, Vec.ofNats_toNats]

theorem mapIdx_eq_ofNats : mapIdx threadCount selection idx =
    Vec.ofNats (mapIdx threadCount.toNats selection idx.toNats) :=
  congrArg ThreadSpace.threadIdx (mapTo_eq_ofNats threadCount idx selection)

private theorem mapCount_eq_ofNats :
    mapCount threadCount selection = Vec.ofNats (mapCount threadCount.toNats selection) :=
  congrArg ThreadSpace.threadCount (mapTo_eq_ofNats threadCount (Vec.fill 0) selection)

end Words

/-- What selecting dimensions promises: the threads are mapped one to one onto the indices
below the mapped thread count, which are as many, and unselected coordinates vanish. -/
structure KeepsThreads (threadCount : Vec (BitVec w) (n + 1))
    (selection : CSelect (k + 1) (n + 1)) : Prop where
  bijOn : Set.BijOn (mapIdx threadCount selection) (box threadCount)
    (box (mapCount threadCount selection))
  unselected_zero : ∀ idx ∈ box threadCount, ∀ d, (∀ i, selection i ≠ d) →
    mapIdx threadCount selection idx d = 0
  product : ∏ d, (mapCount threadCount selection d).toNat = ∏ d, (threadCount d).toNat

section Exact

variable {threadCount : Vec (BitVec w) (n + 1)} {selection : CSelect (k + 1) (n + 1)}

/-- Where the mapped thread counts are representable, the words are mapped as the numbers. -/
private theorem keepsThreads_iff_numbers
    (representable : ∀ d, mapCount threadCount.toNats selection d < 2 ^ w) :
    KeepsThreads threadCount selection ↔ MapsBijectively threadCount.toNats selection := by
  have counts : (mapCount threadCount selection).toNats =
      mapCount threadCount.toNats selection := by
    rw [mapCount_eq_ofNats, Vec.toNats_ofNats representable]
  constructor
  · intro keeps
    have exact {idx : Vec ℕ (n + 1)} (member : idx ∈ threadIdxs threadCount.toNats) :
        (mapIdx threadCount selection (Vec.ofNats idx)).toNats =
          mapIdx threadCount.toNats selection idx := by
      have below := mapIdx_mapsTo threadCount.toNats selection member
      rw [mapIdx_eq_ofNats, Vec.toNats_ofNats fun d => (member d).trans (threadCount d).isLt,
        Vec.toNats_ofNats fun d => (below d).trans (representable d)]
    have through := ((toNats_box _).comp keeps.bijOn).comp (ofNats_box threadCount)
    rw [counts] at through
    refine ⟨through.congr fun idx member => exact member, fun idx member d outside => ?_,
      mapCount_product threadCount.toNats selection⟩
    have vanishes := keeps.unselected_zero _ ((ofNats_box threadCount).mapsTo member) d outside
    rw [← congrFun (exact member) d, Vec.toNats, vanishes]
    exact BitVec.toNat_zero
  · intro maps
    have words := ofNats_box (mapCount threadCount selection)
    rw [counts] at words
    refine ⟨((words.comp maps.bijOn).comp (toNats_box threadCount)).congr fun idx _ => ?_,
      fun idx member d outside => ?_, ?_⟩
    · exact (mapIdx_eq_ofNats threadCount idx selection).symm
    · rw [mapIdx_eq_ofNats, Vec.ofNats,
        maps.unselected_zero _ ((toNats_box threadCount).mapsTo member) d outside, Nat.cast_zero]
    · have product := maps.product
      rw [Vec.product_eq_prod, Vec.product_eq_prod, ← counts] at product
      exact product

/-- The mapped thread counts are representable if the one of the slowest selected dimension
is. -/
private theorem mapCount_lt (proper : k < n) (positive : ∀ d, 0 < threadCount d)
    (folded : (threadCount (selection 0)).toNat *
      ∏ d ∈ unselected selection, (threadCount d).toNat < 2 ^ w) (d : Fin (n + 1)) :
    mapCount threadCount.toNats selection d < 2 ^ w := by
  rw [mapCount_of_lt proper]
  dsimp only
  split
  · exact folded
  · split
    · have present := toNats_positive positive d
      exact (Nat.succ_le_of_lt present).trans_lt (threadCount d).isLt
    · exact (threadCount d).isLt

/-- A thread count that wraps around is smaller, and so is the product. -/
private theorem mapCount_lt_of_keeps (positive : ∀ d, 0 < threadCount d)
    (keeps : KeepsThreads threadCount selection) (d : Fin (n + 1)) :
    mapCount threadCount.toNats selection d < 2 ^ w := by
  have product := keeps.product
  have exact := mapCount_product threadCount.toNats selection
  rw [Vec.product_eq_prod, Vec.product_eq_prod] at exact
  have several : 0 < ∏ d, (threadCount d).toNat :=
    Finset.prod_pos fun d _ => toNats_positive positive d
  have count (e : Fin (n + 1)) : (mapCount threadCount selection e).toNat =
      mapCount threadCount.toNats selection e % 2 ^ w := by
    rw [mapCount_eq_ofNats]
    exact toNat_cast _
  by_contra wraps
  refine (Finset.prod_lt_prod (s := Finset.univ) (fun e _ => ?_) (fun e _ => ?_)
    ⟨d, Finset.mem_univ d, ?_⟩).ne (product.trans exact.symm)
  · refine Nat.pos_of_ne_zero fun zero => ?_
    rw [← product, Finset.prod_eq_zero (Finset.mem_univ e) zero] at several
    exact lt_irrefl 0 several
  · rw [count]
    exact Nat.mod_le _ _
  · rw [count]
    exact (Nat.mod_lt _ (Nat.two_pow_pos w)).trans_le (not_lt.mp wraps)

/-- Threads that are kept apart are kept apart in exact arithmetic. -/
theorem KeepsThreads.maps (keeps : KeepsThreads threadCount selection)
    (positive : ∀ d, 0 < threadCount d) : MapsBijectively threadCount.toNats selection :=
  (keepsThreads_iff_numbers (mapCount_lt_of_keeps positive keeps)).mp keeps

private theorem eq_one_iff {number : BitVec w} (positive : 0 < number) :
    number = 1 ↔ number.toNat = 1 := by
  have above : 0 < number.toNat := BitVec.lt_def.mp positive
  have wide : 1 < 2 ^ w := (Nat.succ_le_of_lt above).trans_lt number.isLt
  have one : (1 : BitVec w).toNat = 1 := (BitVec.toNat_ofNat 1 w).trans (Nat.mod_eq_of_lt wide)
  rw [BitVec.toNat_eq, one]

/-- **When no thread is lost.** A proper selection keeps all threads distinct exactly when at
most one unselected dimension has more than one thread, and the folded thread count is
representable. -/
theorem mapTo_bijective_iff (proper : k < n) (positive : ∀ d, 0 < threadCount d)
    (selection : CSelect (k + 1) (n + 1)) :
    KeepsThreads threadCount selection ↔
      (∀ d e, (∀ i, selection i ≠ d) → (∀ i, selection i ≠ e) → d ≠ e →
        threadCount d = 1 ∨ threadCount e = 1) ∧
      (threadCount (selection 0)).toNat *
        ∏ d ∈ unselected selection, (threadCount d).toNat < 2 ^ w := by
  have single := mapsBijectively_iff proper (toNats_positive positive) selection
  simp only [Vec.toNats, ← eq_one_iff (positive _)] at single
  constructor
  · intro keeps
    have representable := mapCount_lt_of_keeps positive keeps
    have folded := representable (selection 0)
    rw [mapCount_of_lt proper] at folded
    simp only [↓reduceIte] at folded
    exact ⟨single.mp (keeps.maps positive), folded⟩
  · rintro ⟨alone, folded⟩
    exact (keepsThreads_iff_numbers (mapCount_lt proper positive folded)).mpr (single.mpr alone)

/-- A three-dimensional block whose two slow dimensions have two threads each, restricted to
the fast dimension, loses a thread: `(1, 0, 0)` and `(0, 1, 0)` are mapped to the same index. -/
theorem mapTo_not_bijective :
    ¬ KeepsThreads (![2, 2, 1] : Vec (BitVec 32) 3) (![2] : CSelect 1 3) := by
  intro keeps
  have firstIn : (![1, 0, 0] : Vec (BitVec 32) 3) ∈ box ![2, 2, 1] :=
    show ∀ d, (![1, 0, 0] : Vec (BitVec 32) 3) d < (![2, 2, 1] : Vec (BitVec 32) 3) d by decide
  have secondIn : (![0, 1, 0] : Vec (BitVec 32) 3) ∈ box ![2, 2, 1] :=
    show ∀ d, (![0, 1, 0] : Vec (BitVec 32) 3) d < (![2, 2, 1] : Vec (BitVec 32) 3) d by decide
  have collide : mapIdx ![2, 2, 1] (![2] : CSelect 1 3) (![1, 0, 0] : Vec (BitVec 32) 3) =
      mapIdx ![2, 2, 1] (![2] : CSelect 1 3) ![0, 1, 0] := by decide
  have same := keeps.bijOn.injOn firstIn secondIn collide
  exact absurd (congrFun same 0) (by decide)

/-- With one thread in every slow dimension but one, the mapping is a bijection. -/
theorem mapTo_bijective_of_single :
    KeepsThreads (![2, 1, 3] : Vec (BitVec 32) 3) (![2] : CSelect 1 3) :=
  (mapTo_bijective_iff (by decide) (by decide) _).mpr (by decide)

end Exact

end Alpaka.ThreadSpace
