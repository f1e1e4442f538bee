import Alpaka.OnAcc.IdxMap

/-! # SIMD packs over the fastest dimension

The SIMD algorithms walk over the begins of the packs of a row as long as all
workers of the fastest dimension get the same whole number of functor calls, and
over single elements behind that point. The pack iterator is advanced several
times without a look at the end. This is safe because the number of packs of
every worker is a multiple of the packs per call
(`Alpaka.simdPackBursts_settles`); the flat traversal needs its own outer loop
over the rows for it.
-/

namespace Alpaka

open Math (Settles Partitions)

variable {n : ℕ}

/-- What the algorithms need of an index type besides its operations: its values, and the product
of two template arguments, which are of type `uint32_t`. In exact arithmetic a product does not
overflow. -/
class IdxValue (T : Type) where
  toNat : T → ℕ
  ofNat : ℕ → T
  mulArgs : ℕ → ℕ → ℕ

instance exactValue : IdxValue ℕ := ⟨id, id, fun first second => first * second⟩

instance wordValue {w : ℕ} : IdxValue (BitVec w) :=
  ⟨BitVec.toNat, BitVec.ofNat w, fun first second => first * second % 2 ^ 32⟩

@[simp] theorem toNat_exactValue (number : ℕ) : IdxValue.toNat number = number := rfl

@[simp] theorem ofNat_exactValue (number : ℕ) : (IdxValue.ofNat number : ℕ) = number := rfl

section Code

variable {T : Type} [Add T] [Sub T] [Mul T] [Div T] [Mod T] [LT T] [DecidableLT T] [LE T]
  [DecidableLE T] [OfNat T 0] [OfNat T 1] [DecidableEq T] [IdxValue T]

/-- How often every worker of the fastest dimension calls the functor per row. Two divisions
are exact in every type. -/
def numSimdPackLoops (simdWidth numSimdPerFnCall : ℕ) (threadCount numElements : Vec T (n + 1)) :
    ℕ :=
  IdxValue.toNat numElements.back / IdxValue.mulArgs T simdWidth numSimdPerFnCall /
    IdxValue.toNat threadCount.back

/-- The number of data elements to jump over to start the remainder loop. It is not above the
number of elements, so that nothing overflows. -/
def remainderBegin (simdWidth numSimdPerFnCall : ℕ) (threadCount numElements : Vec T (n + 1)) :
    ℕ :=
  numSimdPackLoops simdWidth numSimdPerFnCall threadCount numElements *
    IdxValue.mulArgs T simdWidth numSimdPerFnCall * IdxValue.toNat threadCount.back

/-- The loops over the packs: for every functor call the begins of the packs it
is given. -/
def simdPackBursts (simdWidth numSimdPerFnCall : ℕ) (traverse : Traverse) (layout : Layout)
    (workGroup : ThreadSpace T (n + 1)) (numElements : Vec T (n + 1)) (fuel : ℕ) :
    Except Math.Loop.Fault (List (List (Vec T (n + 1)))) :=
  let domainSize := numElements.rAssign (IdxValue.ofNat
    (remainderBegin simdWidth numSimdPerFnCall workGroup.threadCount numElements))
  let stride : Vec T (n + 1) := Vec.rAssign (Vec.fill 1) (IdxValue.ofNat simdWidth)
  if 0 < n ∧ traverse = .flat then do
    -- a worker group of the slow dimensions for the outer loop
    let wOuter : ThreadSpace T (n + 1) :=
      ⟨workGroup.threadIdx.rAssign 0, workGroup.threadCount.rAssign 1⟩
    let domSize := Vec.rAssign domainSize 1
    let rows ← (makeIdxMap wOuter (IdxRange.ofExtents domSize) traverse layout).run fuel
    let bursts ← rows.mapM fun rowIdx =>
      -- a worker group of the fastest dimension for the inner loop
      let wInner : ThreadSpace T (n + 1) :=
        ⟨Vec.rAssign (Vec.fill 0) workGroup.threadIdx.back,
          Vec.rAssign (Vec.fill 1) workGroup.threadCount.back⟩
      ((makeIdxMap wInner ⟨rowIdx, domainSize, stride⟩ traverse layout).select
        fun _ : Fin 1 => Fin.last n).runBursts numSimdPerFnCall fuel
    return bursts.flatten
  else
    (makeIdxMap workGroup ⟨Vec.fill 0, domainSize, stride⟩ traverse layout).runBursts
      numSimdPerFnCall fuel

/-- The range of the packs from a first index up to a column. -/
def packRange (width column : ℕ) (numElements first : Vec T (n + 1)) : IdxRange T (n + 1) :=
  ⟨first, numElements.rAssign (IdxValue.ofNat column),
    Vec.rAssign (Vec.fill 1) (IdxValue.ofNat width)⟩

/-- A vector that keeps only the fastest dimension of another one. -/
def fastestOnly (others : T) (v : Vec T (n + 1)) : Vec T (n + 1) :=
  Vec.rAssign (Vec.fill others) v.back

/-- The rows that a worker of the slow dimensions goes through. -/
def rowsMap (layout : Layout) (threadCount numElements idx : Vec T (n + 1)) : IdxContainer T n n :=
  makeIdxMap ⟨idx.rAssign 0, threadCount.rAssign 1⟩ (IdxRange.ofExtents (numElements.rAssign 1))
    .flat layout

/-- The packs of a row that a worker of the fastest dimension goes through. -/
def rowPacksMap (simdWidth numSimdPerFnCall : ℕ) (layout : Layout)
    (threadCount numElements row idx : Vec T (n + 1)) : IdxContainer T n 0 :=
  IdxContainer.ofThread (packRange simdWidth
      (remainderBegin simdWidth numSimdPerFnCall threadCount numElements) numElements row)
    (fastestOnly 1 threadCount) .flat layout (fun _ => Fin.last n) (fastestOnly 0 idx)

/-- The packs that a worker goes through without an outer loop. -/
def packsMap (simdWidth numSimdPerFnCall : ℕ) (traverse : Traverse) (layout : Layout)
    (threadCount numElements idx : Vec T (n + 1)) : IdxContainer T n n :=
  makeIdxMap ⟨idx, threadCount⟩ (packRange simdWidth
    (remainderBegin simdWidth numSimdPerFnCall threadCount numElements) numElements (Vec.fill 0))
      traverse layout

/-- The elements behind the packs that a worker goes through. -/
def remainderMap (simdWidth numSimdPerFnCall : ℕ) (traverse : Traverse) (layout : Layout)
    (threadCount numElements idx : Vec T (n + 1)) : IdxContainer T n n :=
  makeIdxMap ⟨idx, threadCount⟩ (IdxRange.ofBeginEnd (Vec.rAssign (Vec.fill 0) (IdxValue.ofNat
    (remainderBegin simdWidth numSimdPerFnCall threadCount numElements))) numElements) traverse
      layout

/-- The loop over the elements behind the packs. -/
def remainderIdxs (simdWidth numSimdPerFnCall : ℕ) (traverse : Traverse) (layout : Layout)
    (workGroup : ThreadSpace T (n + 1)) (numElements : Vec T (n + 1)) (fuel : ℕ) :
    Except Math.Loop.Fault (List (Vec T (n + 1))) :=
  let remainderDomainSize : Vec T (n + 1) := Vec.rAssign (Vec.fill 0) (IdxValue.ofNat
    (remainderBegin simdWidth numSimdPerFnCall workGroup.threadCount numElements))
  (makeIdxMap workGroup (IdxRange.ofBeginEnd remainderDomainSize numElements) traverse layout).run
    fuel

/-- With the flat traversal in several dimensions the loops settle if the one over the rows
does and every row holds a whole number of calls for the worker. -/
theorem simdPackBursts_rows {simdWidth numSimdPerFnCall : ℕ} {layout : Layout}
    {threadCount numElements idx : Vec T (n + 1)} (several : 0 < n)
    (perFnCall : 0 < numSimdPerFnCall) {rows : List (Vec T (n + 1))}
    (packs : Vec T (n + 1) → List (Vec T (n + 1)))
    (outer : (rowsMap layout threadCount numElements idx).Yields rows)
    (outerDivides : (rowsMap layout threadCount numElements idx).Divides)
    (inner : ∀ row ∈ rows, (rowPacksMap simdWidth numSimdPerFnCall layout threadCount numElements
      row idx).Yields (packs row))
    (innerDivides : ∀ row ∈ rows, (rowPacksMap simdWidth numSimdPerFnCall layout threadCount
      numElements row idx).Divides)
    (even : ∀ row ∈ rows, numSimdPerFnCall ∣ (packs row).length) :
    Settles (simdPackBursts simdWidth numSimdPerFnCall .flat layout ⟨idx, threadCount⟩ numElements)
      (rows.map fun row => Math.Loop.bursts numSimdPerFnCall (packs row)).flatten := by
  have burstsRun := Settles.mapM fun row held =>
    (inner row held).runBursts (innerDivides row held) perFnCall (even row held)
  unfold simdPackBursts
  simp only [several, true_and, ↓reduceIte, Vec.rAssign, Function.update_idem]
  exact (outer.run outerDivides).bind (burstsRun.bind (Settles.pure _))

/-- Otherwise they settle if the worker has a whole number of calls. -/
theorem simdPackBursts_whole {simdWidth numSimdPerFnCall : ℕ} {traverse : Traverse}
    {layout : Layout} {threadCount numElements idx : Vec T (n + 1)}
    (whole : ¬ (0 < n ∧ traverse = .flat)) (perFnCall : 0 < numSimdPerFnCall)
    {packs : List (Vec T (n + 1))}
    (yields : (packsMap simdWidth numSimdPerFnCall traverse layout threadCount numElements
      idx).Yields packs)
    (divides : (packsMap simdWidth numSimdPerFnCall traverse layout threadCount numElements
      idx).Divides)
    (even : numSimdPerFnCall ∣ packs.length) :
    Settles (simdPackBursts simdWidth numSimdPerFnCall traverse layout ⟨idx, threadCount⟩
      numElements) (Math.Loop.bursts numSimdPerFnCall packs) := by
  unfold simdPackBursts
  simp only [whole, ↓reduceIte]
  exact yields.runBursts divides perFnCall even

end Code

/-- The elements of an extents vector. -/
def elements (extents : Vec ℕ (n + 1)) : Set (Vec ℕ (n + 1)) :=
  {x | ∀ d, x d < extents d}

/-- The elements of a pack: consecutive along the fastest dimension. -/
def cells (width : ℕ) (idx : Vec ℕ (n + 1)) : List (Vec ℕ (n + 1)) :=
  (List.range width).map fun lane => idx.rAssign (idx.back + lane)

/-- The begins of the packs of all rows that are cut at a given column. -/
def packBegins (width column : ℕ) (extents : Vec ℕ (n + 1)) : Set (Vec ℕ (n + 1)) :=
  {x | x ∈ elements (extents.rAssign column) ∧ width ∣ x.back}

section Packs

variable {simdWidth numSimdPerFnCall : ℕ} {threadCount numElements : Vec ℕ (n + 1)}

@[simp] theorem ofNat_nat (number : ℕ) : (IdxValue.ofNat number : ℕ) = number := rfl

theorem remainderBegin_eq (numElements : Vec ℕ (n + 1)) :
    remainderBegin simdWidth numSimdPerFnCall threadCount numElements =
      numSimdPackLoops simdWidth numSimdPerFnCall threadCount numElements *
        (simdWidth * numSimdPerFnCall) * threadCount.back := rfl

@[simp] theorem rAssign_back (v : Vec ℕ (n + 1)) (value : ℕ) : (v.rAssign value).back = value :=
  Function.update_self _ _ _

theorem rAssign_last {T : Type} (v : Vec T (n + 1)) (value : T) :
    v.rAssign value (Fin.last n) = value :=
  Function.update_self _ _ _

theorem rAssign_of_ne {T : Type} (v : Vec T (n + 1)) (value : T) {d : Fin (n + 1)}
    (slow : d ≠ Fin.last n) : v.rAssign value d = v d :=
  Function.update_of_ne slow _ _

theorem rAssign_self (v : Vec ℕ (n + 1)) : v.rAssign v.back = v :=
  Function.update_eq_self _ _

/-- An element of the cut extents is in its row and before the cut. -/
theorem mem_elements_rAssign {x : Vec ℕ (n + 1)} {column : ℕ} :
    x ∈ elements (numElements.rAssign column) ↔
      (∀ d, d ≠ Fin.last n → x d < numElements d) ∧ x.back < column := by
  refine ⟨fun inside => ⟨fun d slow => ?_, ?_⟩, fun ⟨slow, fast⟩ d => ?_⟩
  · have below := inside d
    rwa [rAssign_of_ne _ _ slow] at below
  · have below := inside (Fin.last n)
    rwa [rAssign_last] at below
  · by_cases last : d = Fin.last n
    · subst last
      rw [rAssign_last]
      exact fast
    · rw [rAssign_of_ne _ _ last]
      exact slow d last

/-- A pack that begins before a multiple of the width ends before it. -/
theorem add_le_of_dvd {width column first : ℕ} (divides : width ∣ column) (pack : width ∣ first)
    (before : first < column) : first + width ≤ column := by
  obtain ⟨packs, rfl⟩ := divides
  obtain ⟨number, rfl⟩ := pack
  have room : width * (number + 1) ≤ width * packs :=
    Nat.mul_le_mul_left _ (Nat.lt_of_mul_lt_mul_left before)
  exact room

/-- The elements before a cut and those behind it. -/
theorem elements_cut {column : ℕ} (within : column ≤ numElements.back) :
    elements (numElements.rAssign column) ∪ {x | x ∈ elements numElements ∧ column ≤ x.back} =
      elements numElements := by
  ext x
  have whole : x ∈ elements numElements ↔
      (∀ d, d ≠ Fin.last n → x d < numElements d) ∧ x.back < numElements.back := by
    have parts := @mem_elements_rAssign _ numElements x numElements.back
    rwa [rAssign_self] at parts
  rw [Set.mem_union, mem_elements_rAssign, whole]
  refine ⟨fun member => ?_, fun ⟨slow, fast⟩ => ?_⟩
  · rcases member with ⟨slow, fast⟩ | ⟨inside, _⟩
    · exact ⟨slow, by omega⟩
    · exact whole.mp inside
  · by_cases before : x.back < column
    · exact .inl ⟨slow, before⟩
    · exact .inr ⟨whole.mpr ⟨slow, fast⟩, not_lt.mp before⟩

theorem remainderBegin_le (numElements : Vec ℕ (n + 1)) :
    remainderBegin simdWidth numSimdPerFnCall threadCount numElements ≤ numElements.back := by
  calc numElements.back / (simdWidth * numSimdPerFnCall) / threadCount.back *
        (simdWidth * numSimdPerFnCall) * threadCount.back
      = numElements.back / (simdWidth * numSimdPerFnCall) / threadCount.back * threadCount.back *
          (simdWidth * numSimdPerFnCall) := by ring
    _ ≤ numElements.back / (simdWidth * numSimdPerFnCall) * (simdWidth * numSimdPerFnCall) :=
        Nat.mul_le_mul_right _ (Nat.div_mul_le_self _ _)
    _ ≤ numElements.back := Nat.div_mul_le_self _ _

theorem dvd_remainderBegin (numElements : Vec ℕ (n + 1)) :
    simdWidth ∣ remainderBegin simdWidth numSimdPerFnCall threadCount numElements :=
  ((Nat.dvd_mul_right _ _).mul_left _).mul_right _

/-- **Packs and elements.** The packs that begin at multiples of the width before
a multiple of the width are disjoint and cover everything before it. -/
theorem cells_partitions {workers : Set (Vec ℕ (n + 1))}
    {share : Vec ℕ (n + 1) → List (Vec ℕ (n + 1))} {width column : ℕ} (positive : 0 < width)
    (divides : width ∣ column) (partition : Partitions workers share
      (packBegins width column numElements)) :
    Partitions workers (fun worker => (share worker).flatMap (cells width))
      (elements (numElements.rAssign column)) := by
  have mem_cells {x y : Vec ℕ (n + 1)} (member : y ∈ cells width x) :
      (∀ d, d ≠ Fin.last n → y d = x d) ∧ ∃ lane < width, y.back = x.back + lane := by
    obtain ⟨lane, below, rfl⟩ := List.mem_map.mp member
    exact ⟨fun d slow => rAssign_of_ne _ _ slow, lane, List.mem_range.mp below, rAssign_back _ _⟩
  apply partition.flatMap
  · intro x _
    refine List.nodup_range.map fun first second same => ?_
    have column := congrArg Vec.back same
    simp only [rAssign_back] at column
    omega
  · intro x xIn y yIn cell cellX cellY
    obtain ⟨slowX, laneX, belowX, fastX⟩ := mem_cells cellX
    obtain ⟨slowY, laneY, belowY, fastY⟩ := mem_cells cellY
    obtain ⟨_, packX, columnX⟩ := xIn
    obtain ⟨_, packY, columnY⟩ := yIn
    have begins : x.back = y.back := by
      have quotient : (width * packX + laneX) / width = (width * packY + laneY) / width := by
        rw [← columnX, ← columnY, ← fastX, ← fastY]
      rw [Nat.mul_add_div positive, Nat.mul_add_div positive, Nat.div_eq_of_lt belowX,
        Nat.div_eq_of_lt belowY] at quotient
      rw [columnX, columnY]
      exact congrArg _ quotient
    funext d
    by_cases last : d = Fin.last n
    · subst last
      exact begins
    · rw [← slowX d last, slowY d last]
  · intro cell
    refine ⟨fun inside => ?_, fun ⟨x, ⟨xIn, packX⟩, member⟩ => ?_⟩
    · obtain ⟨slow, fast⟩ := mem_elements_rAssign.mp inside
      refine ⟨cell.rAssign (width * (cell.back / width)), ⟨?_, ?_⟩, ?_⟩
      · rw [mem_elements_rAssign, rAssign_back]
        refine ⟨fun d last => ?_, (Nat.mul_div_le _ _).trans_lt fast⟩
        rw [rAssign_of_ne _ _ last]
        exact slow d last
      · rw [rAssign_back]
        exact Nat.dvd_mul_right _ _
      · refine List.mem_map.mpr ⟨cell.back % width, List.mem_range.mpr (Nat.mod_lt _ positive), ?_⟩
        rw [rAssign_back, Nat.div_add_mod]
        unfold Vec.rAssign
        rw [Function.update_idem]
        exact rAssign_self cell
    · obtain ⟨slow, fast⟩ := mem_elements_rAssign.mp xIn
      obtain ⟨slowCell, lane, below, fastCell⟩ := mem_cells member
      refine mem_elements_rAssign.mpr ⟨fun d last => ?_, ?_⟩
      · rw [slowCell d last]
        exact slow d last
      · have room := add_le_of_dvd divides packX fast
        omega

/-- The packs from a first index on are those of a proper range. -/
theorem packRange_proper {width column : ℕ} {first : Vec ℕ (n + 1)}
    (positive : 0 < width) (inside : ∀ d, first d ≤ numElements.rAssign column d) :
    (packRange width column numElements first).Proper where
  ordered := inside
  positive := fun d => by
    by_cases last : d = Fin.last n
    · subst last
      exact positive.trans_eq (rAssign_last (Vec.fill 1) width).symm
    · exact Nat.one_pos.trans_eq (rAssign_of_ne (Vec.fill 1) width last).symm

/-- Along the fastest dimension there are a whole number of packs for every
worker. -/
theorem packRange_even (positive : 0 < simdWidth) {k : ℕ} {first : Vec ℕ (n + 1)}
    (start : first.back = 0) {selection : CSelect (k + 1) (n + 1)}
    (fastest : selection (Fin.last k) = Fin.last n) {fastCount : ℕ}
    (fast : fastCount = threadCount.back) :
    (packRange simdWidth (remainderBegin simdWidth numSimdPerFnCall threadCount numElements)
        numElements first).logicalExtent selection (Fin.last k) =
      numSimdPackLoops simdWidth numSimdPerFnCall threadCount numElements * numSimdPerFnCall *
        fastCount := by
  have column : first (Fin.last n) = 0 := start
  have packs : remainderBegin simdWidth numSimdPerFnCall threadCount numElements =
      simdWidth * (numSimdPackLoops simdWidth numSimdPerFnCall threadCount numElements *
        numSimdPerFnCall * fastCount) := by
    rw [fast, remainderBegin_eq]
    ring
  simp only [packRange, ofNat_nat, IdxRange.logicalExtent, IdxRange.distance, fastest,
    rAssign_last, column, Nat.sub_zero, divCeil]
  rw [packs, Nat.add_sub_assoc positive, Nat.mul_add_div positive,
    Nat.div_eq_of_lt (Nat.sub_lt positive Nat.one_pos), Nat.add_zero]

/-- The lattice of the pack begins, over all dimensions. -/
private theorem lattice_packRange (width column : ℕ) :
    (packRange width column numElements (Vec.fill 0)).lattice (id : CSelect (n + 1) (n + 1)) =
      packBegins width column numElements := by
  ext x
  refine ⟨fun ⟨strided, _⟩ => ⟨fun d => (strided d).elim fun _ parts => parts.2, ?_⟩,
    fun ⟨inside, divides⟩ => ⟨fun d => ?_, fun d outside => absurd rfl (outside d)⟩⟩
  · obtain ⟨count, same, _⟩ := strided (Fin.last n)
    simp only [packRange, id_eq, rAssign_last, Vec.fill, Nat.zero_add] at same
    exact ⟨count, same.trans (Nat.mul_comm _ _)⟩
  · by_cases last : d = Fin.last n
    · subst last
      obtain ⟨count, same⟩ := divides
      refine ⟨count, ?_, inside _⟩
      simp only [packRange, id_eq, rAssign_last, Vec.fill, Nat.zero_add]
      exact same.trans (Nat.mul_comm _ _)
    · refine ⟨x d, ?_, inside d⟩
      simp only [packRange, id_eq, rAssign_of_ne _ _ last, Vec.fill, Nat.zero_add, Nat.mul_one]

/-- The bursts of the loops over the packs, in exact arithmetic. -/
def packBursts (simdWidth numSimdPerFnCall : ℕ) (traverse : Traverse) (layout : Layout)
    (threadCount numElements idx : Vec ℕ (n + 1)) : List (List (Vec ℕ (n + 1))) :=
  if 0 < n ∧ traverse = .flat then
    ((rowsMap layout threadCount numElements idx).indices.map fun row =>
      Math.Loop.bursts numSimdPerFnCall (rowPacksMap simdWidth numSimdPerFnCall layout threadCount
        numElements row idx).indices).flatten
  else
    Math.Loop.bursts numSimdPerFnCall
      (packsMap simdWidth numSimdPerFnCall traverse layout threadCount numElements idx).indices

/-- What the loops over the packs come down to: every worker's loops settle on
bursts of the given length, and the begins of the packs are shared out. -/
structure SharesPacks (simdWidth numSimdPerFnCall : ℕ) (traverse : Traverse) (layout : Layout)
    (threadCount numElements : Vec ℕ (n + 1))
    (bursts : Vec ℕ (n + 1) → List (List (Vec ℕ (n + 1)))) : Prop where
  settles : ∀ idx ∈ threadIdxs threadCount,
    Settles (simdPackBursts simdWidth numSimdPerFnCall traverse layout ⟨idx, threadCount⟩
      numElements) (bursts idx)
  full : ∀ idx ∈ threadIdxs threadCount, ∀ burst ∈ bursts idx, burst.length = numSimdPerFnCall
  partitions : Partitions (threadIdxs threadCount) (fun idx => (bursts idx).flatten)
    (packBegins simdWidth (remainderBegin simdWidth numSimdPerFnCall threadCount numElements)
      numElements)

/-- Without an outer loop the packs are shared out among all workers. -/
theorem packsMap_partitions (numSimdPerFnCall : ℕ) (positive : ∀ d, 0 < threadCount d)
    (width : 0 < simdWidth) (traverse : Traverse) (layout : Layout)
    (numElements : Vec ℕ (n + 1)) :
    (∀ idx ∈ threadIdxs threadCount, (packsMap simdWidth numSimdPerFnCall traverse layout
      threadCount numElements idx).Yields (packsMap simdWidth numSimdPerFnCall traverse layout
        threadCount numElements idx).indices) ∧
    (∀ idx, (packsMap simdWidth numSimdPerFnCall traverse layout threadCount numElements
      idx).Divides) ∧
    Partitions (threadIdxs threadCount)
      (fun idx => (packsMap simdWidth numSimdPerFnCall traverse layout threadCount numElements
        idx).indices)
      (packBegins simdWidth (remainderBegin simdWidth numSimdPerFnCall threadCount numElements)
        numElements) := by
  have proper : (packRange simdWidth (remainderBegin simdWidth numSimdPerFnCall threadCount
    numElements) numElements (Vec.fill 0)).Proper := packRange_proper width fun d => Nat.zero_le _
  have whole := IdxContainer.partitions proper positive Function.injective_id
    (fun d outside => absurd rfl (outside d)) traverse layout
  simp only [IdxContainer.ofThread, IdxContainer.select_id, lattice_packRange] at whole
  exact ⟨whole.1, IdxContainer.divides_makeIdxMap _ positive traverse layout, whole.2⟩

/-- Without an outer loop every worker has a whole number of calls. -/
theorem dvd_length_packsMap (numSimdPerFnCall : ℕ) (positive : ∀ d, 0 < threadCount d)
    (width : 0 < simdWidth) {traverse : Traverse} (whole : ¬ (0 < n ∧ traverse = .flat))
    (layout : Layout)
    {idx : Vec ℕ (n + 1)} (member : idx ∈ threadIdxs threadCount) :
    numSimdPerFnCall ∣ (packsMap simdWidth numSimdPerFnCall traverse layout threadCount
      numElements idx).indices.length := by
  have single : traverse = .tiled ∨ n = 0 := by
    cases traverse with
    | tiled => exact .inl rfl
    | flat => exact .inr (by simpa using whole)
  have whole : (packRange simdWidth (remainderBegin simdWidth numSimdPerFnCall threadCount
      numElements) numElements (Vec.fill 0)).logicalExtent id (Fin.last n) =
        numSimdPackLoops simdWidth numSimdPerFnCall threadCount numElements * numSimdPerFnCall *
          threadCount.back := packRange_even width rfl rfl rfl
  have even := IdxContainer.dvd_length (packRange_proper width fun d => Nat.zero_le _) positive
    Function.injective_id (fun d outside => absurd rfl (outside d)) single layout member whole
  rw [IdxContainer.ofThread, IdxContainer.select_id] at even
  exact (Nat.dvd_mul_left _ _).trans even

/-- The lattice of a range from zero with unit stride. -/
theorem lattice_ofExtents (extents : Vec ℕ (n + 1)) :
    (IdxRange.ofExtents extents).lattice (id : CSelect (n + 1) (n + 1)) = elements extents := by
  ext x
  refine ⟨fun ⟨strided, _⟩ d => (strided d).elim fun _ parts => parts.2,
    fun inside => ⟨fun d => ⟨x d, ?_, inside d⟩, fun d outside => absurd rfl (outside d)⟩⟩
  simp [IdxRange.ofExtents, Vec.fill]

/-- The lattice of a range with unit stride from a column on. -/
private theorem lattice_ofBeginEnd (column : ℕ) :
    (IdxRange.ofBeginEnd (Vec.rAssign (Vec.fill 0) column) numElements).lattice
        (id : CSelect (n + 1) (n + 1)) =
      {x | x ∈ elements numElements ∧ column ≤ x.back} := by
  ext x
  refine ⟨fun ⟨strided, _⟩ => ⟨fun d => (strided d).elim fun _ parts => parts.2, ?_⟩,
    fun ⟨inside, behind⟩ => ⟨fun d => ?_, fun d outside => absurd rfl (outside d)⟩⟩
  · obtain ⟨count, same, _⟩ := strided (Fin.last n)
    simp only [IdxRange.ofBeginEnd, id_eq, rAssign_last] at same
    exact Nat.le_of_add_right_le same.ge
  · by_cases last : d = Fin.last n
    · subst last
      refine ⟨x.back - column, ?_, inside _⟩
      simp only [IdxRange.ofBeginEnd, id_eq, rAssign_last, Vec.fill, Nat.mul_one]
      exact (Nat.add_sub_cancel' behind).symm
    · refine ⟨x d, ?_, inside d⟩
      simp only [IdxRange.ofBeginEnd, id_eq, rAssign_of_ne _ _ last, Vec.fill, Nat.zero_add,
        Nat.mul_one]

/-- The packs of one row. -/
private theorem mem_lattice_row {row x : Vec ℕ (n + 1)} {width column : ℕ} (start : row.back = 0) :
    x ∈ (packRange width column numElements row).lattice (fun _ : Fin 1 => Fin.last n) ↔
      (∀ d, d ≠ Fin.last n → x d = row d) ∧ x.back < column ∧ width ∣ x.back := by
  have first : row (Fin.last n) = 0 := start
  refine ⟨fun ⟨strided, others⟩ => ?_, fun ⟨others, below, pack, same⟩ =>
    ⟨fun _ => ⟨pack, ?_, ?_⟩, fun d outside => others d (outside 0).symm⟩⟩
  · obtain ⟨count, same, below⟩ := strided 0
    simp only [packRange, rAssign_last, first, Nat.zero_add] at same below
    exact ⟨fun d slow => others d fun _ => slow.symm, below, count,
      same.trans (Nat.mul_comm _ _)⟩
  · simp only [packRange, rAssign_last, first, Nat.zero_add]
    exact same.trans (Nat.mul_comm _ _)
  · simp only [packRange, rAssign_last]
    exact below

/-- The packs of all rows are the pack begins. -/
private theorem rows_packs (width column : ℕ) :
    {x | ∃ row ∈ elements (numElements.rAssign 1), x ∈
        (packRange width column numElements row).lattice (fun _ : Fin 1 => Fin.last n)} =
      packBegins width column numElements := by
  ext x
  refine ⟨fun ⟨row, rowIn, member⟩ => ?_, fun ⟨inside, divides⟩ => ?_⟩
  · obtain ⟨slow, fast⟩ := mem_elements_rAssign.mp rowIn
    obtain ⟨others, below, divides⟩ := (mem_lattice_row (Nat.lt_one_iff.mp fast)).mp member
    refine ⟨mem_elements_rAssign.mpr ⟨fun d last => ?_, below⟩, divides⟩
    rw [others d last]
    exact slow d last
  · obtain ⟨slow, below⟩ := mem_elements_rAssign.mp inside
    refine ⟨x.rAssign 0, mem_elements_rAssign.mpr ⟨fun d last => ?_, ?_⟩,
      (mem_lattice_row (rAssign_back _ _)).mpr ⟨fun d last => ?_, below, divides⟩⟩
    · rw [rAssign_of_ne _ _ last]
      exact slow d last
    · rw [rAssign_back]
      exact Nat.one_pos
    · rw [rAssign_of_ne _ _ last]

/-- A worker is a worker of the slow dimensions together with one of the fastest
dimension. -/
private theorem splitWorker_bijOn (threadCount : Vec ℕ (n + 1)) :
    Set.BijOn (fun idx => (Vec.rAssign idx 0, fastestOnly 0 idx)) (threadIdxs threadCount)
      (threadIdxs (threadCount.rAssign 1) ×ˢ threadIdxs (fastestOnly 1 threadCount)) := by
  unfold fastestOnly
  refine ⟨fun idx member => ⟨fun d => ?_, fun d => ?_⟩, ?_, ?_⟩
  · by_cases last : d = Fin.last n
    · subst last
      simp only [rAssign_last, Nat.one_pos]
    · simp only [rAssign_of_ne _ _ last]
      exact member d
  · by_cases last : d = Fin.last n
    · subst last
      simp only [rAssign_last]
      exact member _
    · simp only [rAssign_of_ne _ _ last, Vec.fill, Nat.one_pos]
  · intro first _ second _ same
    obtain ⟨slow, fast⟩ := Prod.ext_iff.mp same
    funext d
    by_cases last : d = Fin.last n
    · subst last
      have component := congrFun fast (Fin.last n)
      simp only [rAssign_last] at component
      exact component
    · have component := congrFun slow d
      simpa only [rAssign_of_ne _ _ last] using component
  · rintro ⟨outer, inner⟩ ⟨outerIn, innerIn⟩
    refine ⟨outer.rAssign inner.back, fun d => ?_, Prod.ext ?_ ?_⟩
    · by_cases last : d = Fin.last n
      · subst last
        have below := innerIn (Fin.last n)
        rw [rAssign_last] at below ⊢
        exact below
      · have below := outerIn d
        rw [rAssign_of_ne _ _ last] at below ⊢
        exact below
    · have zero := outerIn (Fin.last n)
      simp only [rAssign_last] at zero
      have cleared : outer.back = 0 := Nat.lt_one_iff.mp zero
      dsimp only
      unfold Vec.rAssign
      rw [Function.update_idem, ← cleared]
      exact rAssign_self outer
    · funext d
      by_cases last : d = Fin.last n
      · subst last
        simp only [rAssign_last, rAssign_back]
        rfl
      · have below := innerIn d
        simp only [rAssign_of_ne _ _ last, Vec.fill] at below ⊢
        omega

theorem fastestOnly_positive (positive : ∀ d, 0 < threadCount d) (d : Fin (n + 1)) :
    0 < fastestOnly 1 threadCount d := by
  unfold fastestOnly
  by_cases last : d = Fin.last n
  · subst last
    rw [rAssign_last]
    exact positive _
  · rw [rAssign_of_ne _ _ last]
    exact Nat.one_pos

theorem rAssign_positive (positive : ∀ d, 0 < threadCount d) (d : Fin (n + 1)) :
    0 < threadCount.rAssign 1 d := by
  by_cases last : d = Fin.last n
  · subst last
    rw [rAssign_last]
    exact Nat.one_pos
  · rw [rAssign_of_ne _ _ last]
    exact positive d

/-- The packs of a row are those of a proper range. -/
theorem packRange_row_proper {width column : ℕ} (positive : 0 < width) {row : Vec ℕ (n + 1)}
    (rowIn : row ∈ elements (numElements.rAssign 1)) :
    (packRange width column numElements row).Proper := by
  obtain ⟨slow, fast⟩ := mem_elements_rAssign.mp rowIn
  refine packRange_proper positive fun d => ?_
  by_cases last : d = Fin.last n
  · subst last
    exact (Nat.lt_one_iff.mp fast).le.trans (Nat.zero_le _)
  · rw [rAssign_of_ne _ _ last]
    exact (slow d last).le

/-- The packs of one row are shared out among the workers of the fastest dimension, as whole
calls. -/
private theorem row_partitions (numSimdPerFnCall : ℕ) (positive : ∀ d, 0 < threadCount d)
    (width : 0 < simdWidth) (layout : Layout) {row : Vec ℕ (n + 1)}
    (rowIn : row ∈ elements (numElements.rAssign 1)) :
    (∀ idx ∈ threadIdxs (fastestOnly 1 threadCount),
      (IdxContainer.ofThread (packRange simdWidth (remainderBegin simdWidth numSimdPerFnCall
        threadCount numElements) numElements row) (fastestOnly 1 threadCount) .flat layout
        (fun _ : Fin 1 => Fin.last n) idx).Yields
        (IdxContainer.ofThread (packRange simdWidth (remainderBegin simdWidth numSimdPerFnCall
          threadCount numElements) numElements row) (fastestOnly 1 threadCount) .flat layout
          (fun _ : Fin 1 => Fin.last n) idx).indices) ∧
    (∀ idx ∈ threadIdxs (fastestOnly 1 threadCount), numSimdPerFnCall ∣
      (IdxContainer.ofThread (packRange simdWidth (remainderBegin simdWidth numSimdPerFnCall
        threadCount numElements) numElements row) (fastestOnly 1 threadCount) .flat layout
        (fun _ : Fin 1 => Fin.last n) idx).indices.length) ∧
    Partitions (threadIdxs (fastestOnly 1 threadCount))
      (fun idx => (IdxContainer.ofThread (packRange simdWidth (remainderBegin simdWidth
        numSimdPerFnCall threadCount numElements) numElements row) (fastestOnly 1 threadCount)
        .flat layout (fun _ : Fin 1 => Fin.last n) idx).indices)
      ((packRange simdWidth (remainderBegin simdWidth numSimdPerFnCall threadCount numElements)
        numElements row).lattice (fun _ : Fin 1 => Fin.last n)) := by
  have start : row.back = 0 := Nat.lt_one_iff.mp (mem_elements_rAssign.mp rowIn).2
  have single : Function.Injective fun _ : Fin 1 => Fin.last n := fun i j _ => Fin.ext (by omega)
  have proper : (packRange simdWidth (remainderBegin simdWidth numSimdPerFnCall threadCount
    numElements) numElements row).Proper := packRange_row_proper width rowIn
  have alone (d : Fin (n + 1)) (outside : ∀ i : Fin 1, (fun _ => Fin.last n) i ≠ d) :
      fastestOnly 1 threadCount d = 1 := rAssign_of_ne _ _ (outside 0).symm
  have shared := IdxContainer.partitions proper (fastestOnly_positive positive) single alone .flat
    layout
  exact ⟨shared.1, fun idx member => (Nat.dvd_mul_left _ _).trans
    (IdxContainer.dvd_length proper (fastestOnly_positive positive) single alone (.inr rfl) layout
      member (packRange_even width start rfl (rAssign_last _ _))), shared.2⟩

/-- Every worker of the fastest dimension has a whole number of calls in every row. -/
theorem rowPacksMap_yields (numSimdPerFnCall : ℕ) (positive : ∀ d, 0 < threadCount d)
    (width : 0 < simdWidth) (layout : Layout) {row idx : Vec ℕ (n + 1)}
    (rowIn : row ∈ elements (numElements.rAssign 1))
    (member : idx ∈ threadIdxs threadCount) :
    (rowPacksMap simdWidth numSimdPerFnCall layout threadCount numElements row idx).Yields
        (rowPacksMap simdWidth numSimdPerFnCall layout threadCount numElements row idx).indices ∧
      numSimdPerFnCall ∣ (rowPacksMap simdWidth numSimdPerFnCall layout threadCount numElements row
        idx).indices.length := by
  have innerIn := ((splitWorker_bijOn threadCount).mapsTo member).2
  have row := row_partitions numSimdPerFnCall positive width layout rowIn
  exact ⟨row.1 _ innerIn, row.2.1 _ innerIn⟩

/-- The rows are shared out among the workers of the slow dimensions. -/
theorem rowsMap_partitions (positive : ∀ d, 0 < threadCount d) (layout : Layout)
    (numElements : Vec ℕ (n + 1)) :
    (∀ idx ∈ threadIdxs threadCount, (rowsMap layout threadCount numElements idx).Yields
      (rowsMap layout threadCount numElements idx).indices) ∧
    Partitions (threadIdxs (threadCount.rAssign 1))
      (fun idx => (makeIdxMap ⟨idx, threadCount.rAssign 1⟩
        (IdxRange.ofExtents (numElements.rAssign 1)) .flat layout).indices)
      (elements (numElements.rAssign 1)) := by
  have proper : (IdxRange.ofExtents (numElements.rAssign 1)).Proper :=
    ⟨fun _ => Nat.zero_le _, fun _ => Nat.one_pos⟩
  have whole := IdxContainer.partitions proper (rAssign_positive positive) Function.injective_id
    (fun d outside => absurd rfl (outside d)) .flat layout
  simp only [IdxContainer.ofThread, IdxContainer.select_id, lattice_ofExtents] at whole
  exact ⟨fun idx member => whole.1 _ ((splitWorker_bijOn threadCount).mapsTo member).1, whole.2⟩

/-- A worker of the slow dimensions goes through rows of the extents. -/
theorem rowsMap_mem (positive : ∀ d, 0 < threadCount d) {layout : Layout}
    {idx row : Vec ℕ (n + 1)} (member : idx ∈ threadIdxs threadCount)
    (held : row ∈ (rowsMap layout threadCount numElements idx).indices) :
    row ∈ elements (numElements.rAssign 1) :=
  (rowsMap_partitions positive layout numElements).2.sound
    ((splitWorker_bijOn threadCount).mapsTo member).1 held

/-- With the flat traversal in several dimensions, the rows are shared out among
the workers of the slow dimensions and the packs of a row among those of the
fastest one. -/
private theorem sharesPacks_rows (positive : ∀ d, 0 < threadCount d) (width : 0 < simdWidth)
    (perFnCall : 0 < numSimdPerFnCall) (several : 0 < n) (layout : Layout)
    (numElements : Vec ℕ (n + 1)) :
    SharesPacks simdWidth numSimdPerFnCall .flat layout threadCount numElements
      (packBursts simdWidth numSimdPerFnCall .flat layout threadCount numElements) := by
  obtain ⟨outerYields, outerShared⟩ := rowsMap_partitions positive layout numElements
  have workers := splitWorker_bijOn threadCount
  have packs {idx row : Vec ℕ (n + 1)} (member : idx ∈ threadIdxs threadCount)
      (held : row ∈ (rowsMap layout threadCount numElements idx).indices) :=
    rowPacksMap_yields numSimdPerFnCall positive width layout
      (rowsMap_mem positive member held) member
  have shape (idx : Vec ℕ (n + 1)) :
      packBursts simdWidth numSimdPerFnCall .flat layout threadCount numElements idx =
        ((rowsMap layout threadCount numElements idx).indices.map fun row =>
          Math.Loop.bursts numSimdPerFnCall (rowPacksMap simdWidth numSimdPerFnCall layout
            threadCount numElements row idx).indices).flatten := if_pos ⟨several, rfl⟩
  refine ⟨fun idx member => ?_, ?_, ?_⟩
  · rw [shape]
    exact simdPackBursts_rows several perFnCall _ (outerYields idx member)
      (IdxContainer.divides_makeIdxMap _ (rAssign_positive positive) .flat layout _)
      (fun row held => (packs member held).1)
      (fun row _ => IdxContainer.divides_ofThread (fastestOnly_positive positive) .flat layout _)
      fun row held => (packs member held).2
  · intro idx member taken held
    rw [shape] at held
    obtain ⟨row, rowHeld, inBursts⟩ := List.mem_flatMap.mp held
    exact Math.Loop.length_of_mem_bursts inBursts
  · have nested := outerShared.bind
      (fun row rowIn => (row_partitions numSimdPerFnCall positive width layout
        rowIn).2.2)
      fun row rowIn other otherIn cell cellRow cellOther => by
        have start := Nat.lt_one_iff.mp (mem_elements_rAssign.mp rowIn).2
        have otherStart := Nat.lt_one_iff.mp (mem_elements_rAssign.mp otherIn).2
        have rowParts := ((mem_lattice_row start).mp cellRow).1
        have otherParts := ((mem_lattice_row otherStart).mp cellOther).1
        funext d
        by_cases last : d = Fin.last n
        · subst last
          exact start.trans otherStart.symm
        · rw [← rowParts d last, otherParts d last]
    have renamed := nested.comp workers
    rw [rows_packs] at renamed
    refine renamed.congr_share fun idx member => ?_
    rw [shape, List.flatten_flatten, List.map_map, List.flatMap_def]
    congr 1
    apply List.map_congr_left
    intro row held
    exact Math.Loop.flatten_bursts perFnCall (packs member held).2

/-- Without an outer loop, the tiled traversal shares out the packs evenly, as
does the flat one in a single dimension. -/
private theorem sharesPacks_whole (positive : ∀ d, 0 < threadCount d) (width : 0 < simdWidth)
    (perFnCall : 0 < numSimdPerFnCall) {traverse : Traverse}
    (whole : ¬ (0 < n ∧ traverse = .flat)) (layout : Layout) (numElements : Vec ℕ (n + 1)) :
    SharesPacks simdWidth numSimdPerFnCall traverse layout threadCount numElements
      (packBursts simdWidth numSimdPerFnCall traverse layout threadCount numElements) := by
  have shape (idx : Vec ℕ (n + 1)) :
      packBursts simdWidth numSimdPerFnCall traverse layout threadCount numElements idx =
        Math.Loop.bursts numSimdPerFnCall (packsMap simdWidth numSimdPerFnCall traverse layout
          threadCount numElements idx).indices := if_neg whole
  have even (idx : Vec ℕ (n + 1)) (member : idx ∈ threadIdxs threadCount) :
      numSimdPerFnCall ∣ (packsMap simdWidth numSimdPerFnCall traverse layout threadCount
        numElements idx).indices.length :=
    dvd_length_packsMap numSimdPerFnCall positive width whole layout member
  obtain ⟨yields, divides, shared⟩ := packsMap_partitions numSimdPerFnCall positive width traverse
    layout numElements
  refine ⟨fun idx member => ?_, fun idx member taken held => ?_, ?_⟩
  · rw [shape]
    exact simdPackBursts_whole whole perFnCall (yields idx member) (divides idx) (even idx member)
  · rw [shape] at held
    exact Math.Loop.length_of_mem_bursts held
  · refine shared.congr_share fun idx member => ?_
    rw [shape, Math.Loop.flatten_bursts perFnCall (even idx member)]

/-- **Unrolled pack loops.** Whatever the policies, all workers' pack loops settle
without dereferencing an iterator that has reached the end, and share out the
begins of the packs. -/
theorem simdPackBursts_settles (positive : ∀ d, 0 < threadCount d) (width : 0 < simdWidth)
    (perFnCall : 0 < numSimdPerFnCall) (traverse : Traverse) (layout : Layout)
    (numElements : Vec ℕ (n + 1)) :
    SharesPacks simdWidth numSimdPerFnCall traverse layout threadCount numElements
      (packBursts simdWidth numSimdPerFnCall traverse layout threadCount numElements) := by
  by_cases rows : 0 < n ∧ traverse = .flat
  · obtain ⟨several, rfl⟩ := rows
    exact sharesPacks_rows positive width perFnCall several layout numElements
  · exact sharesPacks_whole positive width perFnCall rows layout numElements

/-- The elements behind the cut are those of a proper range. -/
theorem remainder_proper (simdWidth numSimdPerFnCall : ℕ)
    (threadCount numElements : Vec ℕ (n + 1)) :
    (IdxRange.ofBeginEnd (Vec.rAssign (Vec.fill 0) (remainderBegin simdWidth numSimdPerFnCall
      threadCount numElements)) numElements).Proper := by
  refine ⟨fun d => ?_, fun _ => Nat.one_pos⟩
  by_cases last : d = Fin.last n
  · subst last
    exact (rAssign_last _ _).le.trans (remainderBegin_le numElements)
  · exact (rAssign_of_ne _ _ last).le.trans (Nat.zero_le _)

/-- The elements behind the cut are shared out among all workers. -/
theorem remainderMap_partitions (simdWidth numSimdPerFnCall : ℕ)
    (positive : ∀ d, 0 < threadCount d) (traverse : Traverse) (layout : Layout)
    (numElements : Vec ℕ (n + 1)) :
    (∀ idx ∈ threadIdxs threadCount, (remainderMap simdWidth numSimdPerFnCall traverse layout
      threadCount numElements idx).Yields (remainderMap simdWidth numSimdPerFnCall traverse layout
        threadCount numElements idx).indices) ∧
    Partitions (threadIdxs threadCount)
      (fun idx => (remainderMap simdWidth numSimdPerFnCall traverse layout threadCount numElements
        idx).indices)
      {x | x ∈ elements numElements ∧
        remainderBegin simdWidth numSimdPerFnCall threadCount numElements ≤ x.back} := by
  have whole := IdxContainer.partitions
    (remainder_proper simdWidth numSimdPerFnCall threadCount numElements) positive
    Function.injective_id
    (fun d outside => absurd rfl (outside d)) traverse layout
  simp only [IdxContainer.ofThread, IdxContainer.select_id, lattice_ofBeginEnd] at whole
  exact whole

/-- The loops over the remainder settle. -/
theorem remainderIdxs_settles (simdWidth numSimdPerFnCall : ℕ)
    (positive : ∀ d, 0 < threadCount d) (traverse : Traverse) (layout : Layout)
    (numElements : Vec ℕ (n + 1)) {idx : Vec ℕ (n + 1)} (member : idx ∈ threadIdxs threadCount) :
    Settles (remainderIdxs simdWidth numSimdPerFnCall traverse layout ⟨idx, threadCount⟩
      numElements) (remainderMap simdWidth numSimdPerFnCall traverse layout threadCount numElements
        idx).indices :=
  ((remainderMap_partitions simdWidth numSimdPerFnCall positive traverse layout numElements).1 idx
    member).run (IdxContainer.divides_makeIdxMap _ positive traverse layout idx)

/-- **Packs and remainder.** The elements of the packs and those behind them are together all
elements. -/
theorem SharesPacks.join (width : 0 < simdWidth) {traverse : Traverse} {layout : Layout}
    {bursts : Vec ℕ (n + 1) → List (List (Vec ℕ (n + 1)))}
    (packs : SharesPacks simdWidth numSimdPerFnCall traverse layout threadCount numElements bursts)
    {rest : Vec ℕ (n + 1) → List (Vec ℕ (n + 1))}
    (restShared : Partitions (threadIdxs threadCount) rest
      {x | x ∈ elements numElements ∧
        remainderBegin simdWidth numSimdPerFnCall threadCount numElements ≤ x.back}) :
    Partitions (threadIdxs threadCount)
      (fun idx => (bursts idx).flatten.flatMap (cells simdWidth) ++ rest idx)
      (elements numElements) := by
  have joined := (cells_partitions width (dvd_remainderBegin numElements) packs.partitions).append
    restShared fun x inPacks behind => not_lt.mpr behind.2 (mem_elements_rAssign.mp inPacks).2
  rwa [elements_cut (remainderBegin_le numElements)] at joined

end Packs

end Alpaka
