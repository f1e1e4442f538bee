import Mathlib.Data.Fintype.Pi
import Mathlib.Data.Fintype.BigOperators
import Mathlib.Data.List.FinRange
import Alpaka.Vec

/-! # Mapping threads to selected dimensions

A container restricted to selected dimensions folds the unselected coordinates
of a thread into the slowest selected one. The two loops of `mapTo` do not
agree on the radix: the index loop scales every unselected coordinate by the
original thread count of the slowest selected dimension, the count loop
multiplies up all of them. In exact arithmetic the mapping is a bijection exactly when
at most one unselected dimension has more than one thread
(`Alpaka.ThreadSpace.mapsBijectively_iff`).
-/

namespace Alpaka

structure ThreadSpace (T : Type*) (n : ℕ) where
  threadIdx : Vec T n
  threadCount : Vec T n

variable {n k : ℕ}

attribute [local instance (2000)] neZero_add_one

/-- All values of the left sequence that are not in the right one, in their
original order. -/
def filter (left : List (Fin n)) (right : CSelect k n) : List (Fin n) :=
  left.filter fun value => decide (∀ i, right i ≠ value)

/-- The dimensions that are not selected. -/
def notSelectedDims (selection : CSelect k n) : List (Fin n) :=
  filter (List.finRange n) selection

namespace ThreadSpace

/-- The threads of the whole space mapped to the selected dimensions. -/
def mapTo {T : Type*} [Add T] [Mul T] [OfNat T 0] [OfNat T 1] (space : ThreadSpace T (n + 1))
    (selection : CSelect (k + 1) (n + 1)) : ThreadSpace T (n + 1) :=
  if n + 1 ≤ k + 1 then space
  else
    { threadIdx := (notSelectedDims selection).foldl (fun threadIndex d =>
        let old := threadIndex d
        let cleared := Function.update threadIndex d 0
        Function.update cleared (selection 0)
          (cleared (selection 0) + old * space.threadCount (selection 0))) space.threadIdx
      threadCount := (notSelectedDims selection).foldl (fun numThreads d =>
        let old := numThreads d
        let cleared := Function.update numThreads d 1
        Function.update cleared (selection 0) (cleared (selection 0) * old)) space.threadCount }

/-- The thread index `mapTo` returns. -/
def mapIdx {T : Type*} [Add T] [Mul T] [OfNat T 0] [OfNat T 1] (threadCount : Vec T (n + 1))
    (selection : CSelect (k + 1) (n + 1)) (idx : Vec T (n + 1)) : Vec T (n + 1) :=
  ((ThreadSpace.mk idx threadCount).mapTo selection).threadIdx

/-- The thread count `mapTo` returns, the same for every thread. -/
def mapCount {T : Type*} [Add T] [Mul T] [OfNat T 0] [OfNat T 1] (threadCount : Vec T (n + 1))
    (selection : CSelect (k + 1) (n + 1)) : Vec T (n + 1) :=
  ((ThreadSpace.mk (Vec.fill 0) threadCount).mapTo selection).threadCount

end ThreadSpace

private theorem mem_notSelectedDims {selection : CSelect k n} {d : Fin n} :
    d ∈ notSelectedDims selection ↔ ∀ i, selection i ≠ d := by
  simp [notSelectedDims, filter]

private theorem notSelectedDims_nodup (selection : CSelect k n) :
    (notSelectedDims selection).Nodup :=
  (List.nodup_finRange n).filter _

/-- The indices below a thread count. -/
def threadIdxs (threadCount : Vec ℕ n) : Set (Vec ℕ n) :=
  {idx | ∀ d, idx d < threadCount d}

namespace ThreadSpace

/-- Both loops of `mapTo` clear the components of a list of dimensions and fold
the old values, in order, into the slowest selected one. -/
private theorem fold_loop (op : ℕ → ℕ → ℕ) (clear : ℕ) (dims : List (Fin n)) (slow : Fin n)
    (v : Vec ℕ n) (nodup : dims.Nodup) (outside : slow ∉ dims) :
    dims.foldl (fun current d =>
        let old := current d
        let cleared := Function.update current d clear
        Function.update cleared slow (op (cleared slow) old)) v =
      fun d => if d = slow then (dims.map v).foldl op (v slow)
        else if d ∈ dims then clear else v d := by
  induction dims generalizing v with
  | nil =>
      funext d
      by_cases same : d = slow
      · subst same; simp
      · simp [same]
  | cons head dims ih =>
      obtain ⟨fresh, nodup⟩ := List.nodup_cons.mp nodup
      have headNe : slow ≠ head := fun same => outside (same ▸ List.mem_cons_self)
      have outsideTail : slow ∉ dims := fun member => outside (List.mem_cons_of_mem _ member)
      have kept : dims.map (Function.update (Function.update v head clear) slow
          (op (v slow) (v head))) = dims.map v := by
        apply List.map_congr_left
        intro d member
        have notSlow : d ≠ slow := fun same => outsideTail (same ▸ member)
        have notHead : d ≠ head := fun same => fresh (same ▸ member)
        rw [Function.update_of_ne notSlow, Function.update_of_ne notHead]
      rw [List.foldl_cons, ih _ nodup outsideTail]
      funext d
      simp only [Function.update_of_ne headNe, kept, Function.update_self, List.map_cons,
        List.foldl_cons, List.mem_cons]
      by_cases same : d = slow
      · simp only [same, ↓reduceIte]
      · by_cases atHead : d = head
        · simp [atHead, headNe.symm]
        · simp [same, atHead]

private theorem foldl_add_mul (scale : ℕ) (values : List ℕ) (start : ℕ) :
    values.foldl (fun total old => total + old * scale) start = start + values.sum * scale := by
  induction values generalizing start with
  | nil => simp
  | cons value values ih =>
      rw [List.foldl_cons, ih, List.sum_cons]
      ring

private theorem foldl_mul (values : List ℕ) (start : ℕ) :
    values.foldl (fun total old => total * old) start = start * values.prod := by
  induction values generalizing start with
  | nil => simp
  | cons value values ih => rw [List.foldl_cons, ih, List.prod_cons, Nat.mul_assoc]


/-- The unselected dimensions as a finite set. -/
def unselected (selection : CSelect k n) : Finset (Fin n) :=
  Finset.univ.filter fun d => ∀ i, selection i ≠ d

theorem mem_unselected {selection : CSelect k n} {d : Fin n} :
    d ∈ unselected selection ↔ ∀ i, selection i ≠ d := by
  simp [unselected]

private theorem notSelectedDims_toFinset (selection : CSelect k n) :
    (notSelectedDims selection).toFinset = unselected selection := by
  ext d
  rw [List.mem_toFinset, mem_notSelectedDims, mem_unselected]

/-- The mapped thread count is the same for every thread. -/
theorem mapTo_threadCount {T : Type*} [Add T] [Mul T] [OfNat T 0] [OfNat T 1]
    (threadCount idx : Vec T (n + 1)) (selection : CSelect (k + 1) (n + 1)) :
    ((ThreadSpace.mk idx threadCount).mapTo selection).threadCount =
      mapCount threadCount selection := by
  unfold mapCount mapTo
  split <;> rfl

/-- A selection of all dimensions leaves the threads alone. -/
theorem mapTo_of_le {T : Type*} [Add T] [Mul T] [OfNat T 0] [OfNat T 1] (full : n ≤ k)
    (space : ThreadSpace T (n + 1)) (selection : CSelect (k + 1) (n + 1)) :
    space.mapTo selection = space :=
  if_pos (Nat.succ_le_succ full)

theorem mapIdx_of_le (full : n ≤ k) (threadCount : Vec ℕ (n + 1))
    (selection : CSelect (k + 1) (n + 1)) (idx : Vec ℕ (n + 1)) :
    mapIdx threadCount selection idx = idx := by
  rw [mapIdx, mapTo_of_le full]

theorem mapCount_of_le (full : n ≤ k) (threadCount : Vec ℕ (n + 1))
    (selection : CSelect (k + 1) (n + 1)) : mapCount threadCount selection = threadCount := by
  rw [mapCount, mapTo_of_le full]

/-- The index loop in closed form: all unselected coordinates are scaled by the
same count. -/
theorem mapIdx_of_lt (proper : k < n) (threadCount : Vec ℕ (n + 1))
    (selection : CSelect (k + 1) (n + 1)) (idx : Vec ℕ (n + 1)) :
    mapIdx threadCount selection idx = fun d =>
      if d = selection 0 then
        idx (selection 0) + (∑ d ∈ unselected selection, idx d) * threadCount (selection 0)
      else if d ∈ unselected selection then 0 else idx d := by
  have outside : selection 0 ∉ notSelectedDims selection := fun member =>
    mem_notSelectedDims.mp member 0 rfl
  have loop := fold_loop (fun total old => total + old * threadCount (selection 0)) 0 _ _ idx
    (notSelectedDims_nodup selection) outside
  simp only [mapIdx, mapTo, Nat.add_le_add_iff_right, proper.not_ge, ↓reduceIte]
  rw [loop, foldl_add_mul, ← List.sum_toFinset _ (notSelectedDims_nodup selection),
    notSelectedDims_toFinset]
  simp only [mem_notSelectedDims, mem_unselected]

/-- The count loop in closed form: the unselected counts are multiplied up. -/
theorem mapCount_of_lt (proper : k < n) (threadCount : Vec ℕ (n + 1))
    (selection : CSelect (k + 1) (n + 1)) :
    mapCount threadCount selection = fun d =>
      if d = selection 0 then
        threadCount (selection 0) * ∏ d ∈ unselected selection, threadCount d
      else if d ∈ unselected selection then 1 else threadCount d := by
  have outside : selection 0 ∉ notSelectedDims selection := fun member =>
    mem_notSelectedDims.mp member 0 rfl
  have loop := fold_loop (fun total old => total * old) 1 _ _ threadCount
    (notSelectedDims_nodup selection) outside
  simp only [mapCount, mapTo, Nat.add_le_add_iff_right, proper.not_ge, ↓reduceIte]
  rw [loop, foldl_mul, ← List.prod_toFinset _ (notSelectedDims_nodup selection),
    notSelectedDims_toFinset]
  simp only [mem_notSelectedDims, mem_unselected]

/-- Distinct dimensions that are not fewer than all dimensions are all of
them. -/
theorem surjective_of_full {selection : CSelect (k + 1) (n + 1)}
    (distinct : Function.Injective selection) (full : n ≤ k) : Function.Surjective selection := by
  have fewer : k + 1 ≤ n + 1 := by simpa using Fintype.card_le_of_injective selection distinct
  obtain rfl : k = n := by omega
  exact Finite.surjective_of_injective distinct

/-- Unselected dimensions are left with one thread. -/
theorem mapCount_unselected (threadCount : Vec ℕ (n + 1)) {selection : CSelect (k + 1) (n + 1)}
    (distinct : Function.Injective selection) {d : Fin (n + 1)}
    (outside : ∀ i, selection i ≠ d) : mapCount threadCount selection d = 1 := by
  rcases Nat.lt_or_ge k n with proper | full
  · rw [mapCount_of_lt proper]
    simp only [(outside 0).symm, ↓reduceIte, mem_unselected.mpr outside]
  · obtain ⟨i, same⟩ := surjective_of_full distinct full d
    exact (outside i same).elim

/-- Selected dimensions keep at least one thread. -/
theorem mapCount_positive {threadCount : Vec ℕ (n + 1)} (positive : ∀ d, 0 < threadCount d)
    (selection : CSelect (k + 1) (n + 1)) (d : Fin (n + 1)) :
    0 < mapCount threadCount selection d := by
  rcases Nat.lt_or_ge k n with proper | full
  · rw [mapCount_of_lt proper]
    dsimp only
    split
    · exact Nat.mul_pos (positive _) (Finset.prod_pos fun d _ => positive d)
    · split
      · exact Nat.one_pos
      · exact positive d
  · rw [mapCount_of_le full]
    exact positive d

/-- The two loops agree on the number of threads. -/
theorem mapCount_product (threadCount : Vec ℕ (n + 1)) (selection : CSelect (k + 1) (n + 1)) :
    Vec.product (mapCount threadCount selection) = Vec.product threadCount := by
  rcases Nat.lt_or_ge k n with proper | full
  · have slowIn : selection 0 ∈ Finset.univ \ unselected selection := by
      rw [Finset.mem_sdiff, mem_unselected]
      exact ⟨Finset.mem_univ _, fun outside => outside 0 rfl⟩
    have folded : ∏ d ∈ unselected selection, mapCount threadCount selection d = 1 := by
      apply Finset.prod_eq_one
      intro d member
      have notSlow : d ≠ selection 0 := fun same => mem_unselected.mp member 0 same.symm
      rw [mapCount_of_lt proper]
      simp only [notSlow, ↓reduceIte, member]
    have others : ∏ d ∈ (Finset.univ \ unselected selection).erase (selection 0),
        mapCount threadCount selection d =
          ∏ d ∈ (Finset.univ \ unselected selection).erase (selection 0), threadCount d := by
      apply Finset.prod_congr rfl
      intro d member
      have parts := Finset.mem_erase.mp member
      rw [mapCount_of_lt proper]
      simp only [parts.1, ↓reduceIte, (Finset.mem_sdiff.mp parts.2).2]
    have slow : mapCount threadCount selection (selection 0) =
        threadCount (selection 0) * ∏ d ∈ unselected selection, threadCount d := by
      rw [mapCount_of_lt proper]
      simp only [↓reduceIte]
    rw [Vec.product_eq_prod, Vec.product_eq_prod,
      ← Finset.prod_sdiff (Finset.subset_univ (unselected selection)), folded, Nat.mul_one,
      ← Finset.mul_prod_erase _ _ slowIn, others, slow,
      ← Finset.prod_sdiff (Finset.subset_univ (unselected selection)),
      ← Finset.mul_prod_erase _ _ slowIn]
    ring
  · rw [mapCount_of_le full]

/-- The folded coordinates of a thread are fewer than the folded counts allow. -/
private theorem sum_lt_prod {threadCount idx : Vec ℕ n} (dims : Finset (Fin n))
    (member : idx ∈ threadIdxs threadCount) :
    ∑ d ∈ dims, idx d < ∏ d ∈ dims, threadCount d := by
  induction dims using Finset.induction_on with
  | empty => simp
  | insert d dims fresh ih =>
      rw [Finset.sum_insert fresh, Finset.prod_insert fresh]
      have below : idx d + 1 ≤ threadCount d := member d
      calc idx d + ∑ d ∈ dims, idx d
          < (idx d + 1) * (∑ d ∈ dims, idx d + 1) := by ring_nf; omega
        _ ≤ threadCount d * ∏ d ∈ dims, threadCount d := Nat.mul_le_mul below ih

/-- The mapped index is below the mapped count, bijective or not. -/
theorem mapIdx_mapsTo (threadCount : Vec ℕ (n + 1)) (selection : CSelect (k + 1) (n + 1)) :
    Set.MapsTo (mapIdx threadCount selection) (threadIdxs threadCount)
      (threadIdxs (mapCount threadCount selection)) := by
  intro idx member d
  rcases Nat.lt_or_ge k n with proper | full
  · rw [mapIdx_of_lt proper, mapCount_of_lt proper]
    by_cases slow : d = selection 0
    · subst slow
      simp only [↓reduceIte]
      have own : idx (selection 0) < threadCount (selection 0) := member (selection 0)
      have folded : ∑ d ∈ unselected selection, idx d + 1 ≤
          ∏ d ∈ unselected selection, threadCount d := sum_lt_prod _ member
      calc idx (selection 0) + (∑ d ∈ unselected selection, idx d) * threadCount (selection 0)
          < threadCount (selection 0) * (∑ d ∈ unselected selection, idx d + 1) := by
            rw [Nat.mul_succ, Nat.mul_comm]
            omega
        _ ≤ threadCount (selection 0) * ∏ d ∈ unselected selection, threadCount d :=
            Nat.mul_le_mul_left _ folded
    · simp only [slow, ↓reduceIte]
      split
      · exact Nat.one_pos
      · exact member d
  · rw [mapIdx_of_le full, mapCount_of_le full]
    exact member d

/-- A mapped thread has no coordinates in the unselected dimensions. -/
theorem mapIdx_unselected {threadCount : Vec ℕ (n + 1)} {selection : CSelect (k + 1) (n + 1)}
    (distinct : Function.Injective selection) {idx : Vec ℕ (n + 1)}
    (member : idx ∈ threadIdxs threadCount) (d : Fin (n + 1)) (outside : ∀ i, selection i ≠ d) :
    mapIdx threadCount selection idx d = 0 := by
  have below := mapIdx_mapsTo threadCount selection member d
  rw [mapCount_unselected threadCount distinct outside] at below
  exact Nat.lt_one_iff.mp below

/-- A selection of distinct dimensions maps the threads one to one onto the
mapped thread count: unselected coordinates vanish and no thread is lost. -/
structure MapsBijectively (threadCount : Vec ℕ (n + 1)) (selection : CSelect (k + 1) (n + 1)) :
    Prop where
  bijOn : Set.BijOn (mapIdx threadCount selection) (threadIdxs threadCount)
    (threadIdxs (mapCount threadCount selection))
  unselected_zero : ∀ idx ∈ threadIdxs threadCount, ∀ d, (∀ i, selection i ≠ d) →
    mapIdx threadCount selection idx d = 0
  product : Vec.product (mapCount threadCount selection) = Vec.product threadCount

/-- The selected components of the mapped index number the threads. -/
theorem MapsBijectively.selected_bijOn {threadCount : Vec ℕ (n + 1)}
    {selection : CSelect (k + 1) (n + 1)} (maps : MapsBijectively threadCount selection)
    (distinct : Function.Injective selection) :
    Set.BijOn (fun idx => Vec.swizzle (mapIdx threadCount selection idx) selection)
      (threadIdxs threadCount)
      {digit | ∀ i, digit i < Vec.swizzle (mapCount threadCount selection) selection i} := by
  have inner : Set.BijOn (fun idx => Vec.swizzle idx selection)
      (threadIdxs (mapCount threadCount selection))
      {digit | ∀ i, digit i < Vec.swizzle (mapCount threadCount selection) selection i} := by
    refine ⟨fun idx member i => member (selection i), ?_, ?_⟩
    · intro first firstIn second secondIn same
      funext d
      by_cases selected : ∃ i, selection i = d
      · obtain ⟨i, rfl⟩ := selected
        exact congrFun same i
      · have one := mapCount_unselected threadCount distinct fun i same => selected ⟨i, same⟩
        have firstBelow := firstIn d
        have secondBelow := secondIn d
        omega
    · intro digit bounded
      refine ⟨Function.extend selection digit (fun _ => 0), fun d => ?_, ?_⟩
      · by_cases selected : ∃ i, selection i = d
        · obtain ⟨i, rfl⟩ := selected
          rw [distinct.extend_apply]
          exact bounded i
        · rw [Function.extend_apply' _ _ _ selected,
            mapCount_unselected threadCount distinct fun i same => selected ⟨i, same⟩]
          exact Nat.one_pos
      · funext i
        exact distinct.extend_apply _ _ _
  exact inner.comp maps.bijOn

/-- A selection of all dimensions is trivially a bijection. -/
theorem mapsBijectively_of_full {selection : CSelect (k + 1) (n + 1)}
    (distinct : Function.Injective selection) (full : n ≤ k) (threadCount : Vec ℕ (n + 1)) :
    MapsBijectively threadCount selection where
  bijOn := by
    rw [mapCount_of_le full, show mapIdx threadCount selection = id from
      funext (mapIdx_of_le full threadCount selection)]
    exact Set.bijOn_id _
  unselected_zero := fun _ _ d outside => by
    obtain ⟨i, same⟩ := surjective_of_full distinct full d
    exact (outside i same).elim
  product := mapCount_product threadCount selection

/-- With at most one unselected dimension of more than one thread, the sum of
the folded coordinates determines each of them. -/
private theorem folded_unique {threadCount first second : Vec ℕ n} {dims : Finset (Fin n)}
    (single : ∀ d ∈ dims, ∀ e ∈ dims, d ≠ e → threadCount d = 1 ∨ threadCount e = 1)
    (firstIn : first ∈ threadIdxs threadCount) (secondIn : second ∈ threadIdxs threadCount)
    (same : ∑ d ∈ dims, first d = ∑ d ∈ dims, second d) (d : Fin n) (member : d ∈ dims) :
    first d = second d := by
  have vanish {idx : Vec ℕ n} {e : Fin n} (idxIn : idx ∈ threadIdxs threadCount)
      (one : threadCount e = 1) : idx e = 0 := by
    have := idxIn e
    omega
  by_cases one : threadCount d = 1
  · rw [vanish firstIn one, vanish secondIn one]
  · have alone {idx : Vec ℕ n} (idxIn : idx ∈ threadIdxs threadCount) :
        ∑ d ∈ dims, idx d = idx d := by
      apply Finset.sum_eq_single_of_mem d member
      intro e eIn different
      exact vanish idxIn ((single d member e eIn different.symm).resolve_left one)
    rw [alone firstIn, alone secondIn] at same
    exact same

private theorem mapIdx_injOn (proper : k < n) {threadCount : Vec ℕ (n + 1)}
    {selection : CSelect (k + 1) (n + 1)}
    (single : ∀ d ∈ unselected selection, ∀ e ∈ unselected selection, d ≠ e →
      threadCount d = 1 ∨ threadCount e = 1) :
    Set.InjOn (mapIdx threadCount selection) (threadIdxs threadCount) := by
  intro first firstIn second secondIn same
  rw [mapIdx_of_lt proper, mapIdx_of_lt proper] at same
  have slow := congrFun same (selection 0)
  simp only [↓reduceIte] at slow
  have firstBelow : first (selection 0) < threadCount (selection 0) := firstIn _
  have secondBelow : second (selection 0) < threadCount (selection 0) := secondIn _
  have positive : 0 < threadCount (selection 0) := by omega
  have own := congrArg (· % threadCount (selection 0)) slow
  simp only [Nat.add_mul_mod_self_right, Nat.mod_eq_of_lt firstBelow,
    Nat.mod_eq_of_lt secondBelow] at own
  have folded : ∑ d ∈ unselected selection, first d = ∑ d ∈ unselected selection, second d := by
    rw [own] at slow
    exact Nat.eq_of_mul_eq_mul_right positive (Nat.add_left_cancel slow)
  funext d
  by_cases outside : d ∈ unselected selection
  · exact folded_unique single firstIn secondIn folded d outside
  · have component := congrFun same d
    simp only [outside, ↓reduceIte] at component
    by_cases slowest : d = selection 0
    · subst slowest
      exact own
    · simpa only [slowest, ↓reduceIte] using component

/-- As many indices are below the mapped count as below the original one, so
that an injective mapping is also onto. -/
private theorem mapIdx_surjOn {threadCount : Vec ℕ (n + 1)} {selection : CSelect (k + 1) (n + 1)}
    (injective : Set.InjOn (mapIdx threadCount selection) (threadIdxs threadCount)) :
    Set.SurjOn (mapIdx threadCount selection) (threadIdxs threadCount)
      (threadIdxs (mapCount threadCount selection)) := by
  have box (count : Vec ℕ (n + 1)) :
      (Fintype.piFinset fun d => Finset.range (count d) : Finset (Vec ℕ (n + 1))) =
        threadIdxs count := by
    ext idx
    simp [threadIdxs]
  have size (count : Vec ℕ (n + 1)) :
      (Fintype.piFinset fun d => Finset.range (count d)).card = Vec.product count := by
    rw [Fintype.card_piFinset, Vec.product_eq_prod]
    simp only [Finset.card_range]
  rw [← box, ← box]
  apply Finset.surjOn_of_injOn_of_card_le
  · rw [box, box]
    exact mapIdx_mapsTo threadCount selection
  · rw [box]
    exact injective
  · rw [size, size, mapCount_product]

/-- The thread that is one along a dimension and zero elsewhere. -/
private def unitIdx (d : Fin n) : Vec ℕ n := Function.update (Vec.fill 0) d 1

private theorem unitIdx_mem {threadCount : Vec ℕ n} (positive : ∀ d, 0 < threadCount d)
    {d : Fin n} (many : threadCount d ≠ 1) : unitIdx d ∈ threadIdxs threadCount := by
  intro c
  have present := positive c
  unfold unitIdx
  by_cases same : c = d
  · subst same
    rw [Function.update_self]
    omega
  · rw [Function.update_of_ne same]
    exact present

/-- Every unit thread of an unselected dimension is mapped to the same place. -/
private theorem mapIdx_unitIdx (proper : k < n) (threadCount : Vec ℕ (n + 1))
    {selection : CSelect (k + 1) (n + 1)} {d : Fin (n + 1)} (outside : ∀ i, selection i ≠ d) :
    mapIdx threadCount selection (unitIdx d) =
      Function.update (Vec.fill 0) (selection 0) (threadCount (selection 0)) := by
  have sum : ∑ e ∈ unselected selection, unitIdx d e = 1 := by
    rw [Finset.sum_eq_single_of_mem d (mem_unselected.mpr outside) fun e _ different =>
      Function.update_of_ne different _ _]
    exact Function.update_self _ _ _
  have slowZero : unitIdx d (selection 0) = 0 := Function.update_of_ne (outside 0) _ _
  rw [mapIdx_of_lt proper, sum, slowZero, Nat.zero_add, Nat.one_mul]
  funext e
  by_cases slow : e = selection 0
  · subst slow
    simp only [↓reduceIte, Function.update_self]
  · rw [Function.update_of_ne slow]
    simp only [slow, ↓reduceIte, Vec.fill, ite_eq_left_iff]
    intro selected
    apply Function.update_of_ne
    intro same
    exact selected (mem_unselected.mpr (same ▸ outside))

/-- At most one unselected dimension with more than one thread is enough. -/
theorem mapsBijectively_of_single (proper : k < n) {threadCount : Vec ℕ (n + 1)}
    {selection : CSelect (k + 1) (n + 1)}
    (single : ∀ d e, (∀ i, selection i ≠ d) → (∀ i, selection i ≠ e) → d ≠ e →
      threadCount d = 1 ∨ threadCount e = 1) : MapsBijectively threadCount selection := by
  have injective : Set.InjOn (mapIdx threadCount selection) (threadIdxs threadCount) :=
    mapIdx_injOn proper fun d dIn e eIn =>
      single d e (mem_unselected.mp dIn) (mem_unselected.mp eIn)
  refine ⟨⟨mapIdx_mapsTo threadCount selection, injective, mapIdx_surjOn injective⟩, ?_,
    mapCount_product threadCount selection⟩
  intro idx _ d outside
  rw [mapIdx_of_lt proper]
  simp only [(outside 0).symm, ↓reduceIte, mem_unselected.mpr outside]

/-- In exact arithmetic a proper selection keeps all threads distinct exactly when at
most one unselected dimension has more than one thread. -/
theorem mapsBijectively_iff (proper : k < n) {threadCount : Vec ℕ (n + 1)}
    (positive : ∀ d, 0 < threadCount d) (selection : CSelect (k + 1) (n + 1)) :
    MapsBijectively threadCount selection ↔
      ∀ d e, (∀ i, selection i ≠ d) → (∀ i, selection i ≠ e) → d ≠ e →
        threadCount d = 1 ∨ threadCount e = 1 := by
  refine ⟨fun maps d e outsideD outsideE different => ?_, mapsBijectively_of_single proper⟩
  by_contra many
  obtain ⟨manyD, manyE⟩ := not_or.mp many
  have collide : mapIdx threadCount selection (unitIdx d) =
      mapIdx threadCount selection (unitIdx e) := by
    rw [mapIdx_unitIdx proper threadCount outsideD, mapIdx_unitIdx proper threadCount outsideE]
  have same := maps.bijOn.injOn (unitIdx_mem positive manyD) (unitIdx_mem positive manyE) collide
  have component := congrFun same d
  simp [unitIdx, Function.update_of_ne different, Vec.fill] at component

end ThreadSpace

end Alpaka
