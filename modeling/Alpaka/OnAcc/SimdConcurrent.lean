import Alpaka.OnAcc.SimdPacks

/-! # Calling a functor for all elements

`concurrent` calls the functor with SIMD packs of consecutive elements and, for
what does not fill a pack, with single elements. The calls of all workers cover
every element exactly once, a pack does not reach behind the begin of the
remainder, and the unrolled loops never dereference an iterator that has reached
the end (`Alpaka.concurrent_covers`).
-/

namespace Alpaka

open Math (Settles Partitions)

variable {n : ℕ}

/-- A functor call: the data index of the `SimdPtr` and the number of elements
it stands for. -/
structure Call (T : Type) (n : ℕ) where
  dataIdx : Vec T (n + 1)
  width : ℕ

/-- The components of a vector as numbers. -/
def Vec.values {T : Type} [IdxValue T] (v : Vec T n) : Vec ℕ n := fun d => IdxValue.toNat (v d)

/-- The elements a call is given, which follow each other in memory. -/
def Call.elements {T : Type} [IdxValue T] (call : Call T n) : List (Vec ℕ (n + 1)) :=
  cells call.width call.dataIdx.values

section Code

variable {T : Type} [Add T] [Sub T] [Mul T] [Div T] [Mod T] [LT T] [DecidableLT T] [LE T]
  [DecidableLE T] [OfNat T 0] [OfNat T 1] [DecidableEq T] [IdxValue T]

def concurrentSimdPackExecution (simdWidth numSimdPerFnCall : ℕ) (traverse : Traverse)
    (layout : Layout) (workGroup : ThreadSpace T (n + 1)) (numElements : Vec T (n + 1))
    (fuel : ℕ) : Except Math.Loop.Fault (List (Call T n)) := do
  let bursts ← simdPackBursts simdWidth numSimdPerFnCall traverse layout workGroup numElements fuel
  let rest ← remainderIdxs simdWidth numSimdPerFnCall traverse layout workGroup numElements fuel
  return bursts.flatten.map (⟨·, simdWidth⟩) ++ rest.map (⟨·, 1⟩)

/-- The functor calls of one worker. -/
def concurrent (simdWidth numSimdPerFnCall : ℕ) (traverse : Traverse) (layout : Layout)
    (workGroup : ThreadSpace T (n + 1)) (extents : Vec T (n + 1)) (fuel : ℕ) :
    Except Math.Loop.Fault (List (Call T n)) :=
  if simdWidth ≠ 1 then
    concurrentSimdPackExecution simdWidth numSimdPerFnCall traverse layout workGroup extents fuel
  else do
    let idxs ← (makeIdxMap workGroup (IdxRange.ofExtents extents) traverse layout).run fuel
    return idxs.map (⟨·, 1⟩)

end Code

/-- What the calls of all workers are like: they come to an end, cover every element once, and
packs do not reach behind the remainder's begin. -/
structure Calls {T : Type} [IdxValue T] (simdWidth column : ℕ) (workers : Set (Vec T (n + 1)))
    (extents : Vec ℕ (n + 1))
    (program : Vec T (n + 1) → ℕ → Except Math.Loop.Fault (List (Call T n)))
    (calls : Vec T (n + 1) → List (Call T n)) : Prop where
  settles : ∀ idx ∈ workers, Settles (program idx) (calls idx)
  partitions : Partitions workers (fun idx => (calls idx).flatMap Call.elements)
    (elements extents)
  packs : ∀ idx ∈ workers, ∀ call ∈ calls idx, call.width ≠ 1 →
    call.width = simdWidth ∧ simdWidth ∣ call.dataIdx.values.back ∧
      call.dataIdx.values.back + call.width ≤ column

/-! ## Exact arithmetic -/

section Exact

variable {threadCount : Vec ℕ (n + 1)}

/-- Calls with one element each. -/
private theorem flatMap_single (idxs : List (Vec ℕ (n + 1))) :
    (idxs.map (⟨·, 1⟩)).flatMap Call.elements = idxs := by
  have single (idx : Vec ℕ (n + 1)) : (Call.mk idx 1).elements = [idx] := by
    simp only [Call.elements, cells, List.range_one, List.map_cons, List.map_nil, Nat.add_zero,
      rAssign_self]
    rfl
  rw [List.flatMap_map]
  simp only [single]
  exact List.flatMap_singleton' idxs

/-- The calls of a worker in exact arithmetic. -/
def concurrentCalls (simdWidth numSimdPerFnCall : ℕ) (traverse : Traverse) (layout : Layout)
    (threadCount extents idx : Vec ℕ (n + 1)) : List (Call ℕ n) :=
  if simdWidth ≠ 1 then
    (packBursts simdWidth numSimdPerFnCall traverse layout threadCount extents idx).flatten.map
      (⟨·, simdWidth⟩) ++ (remainderMap simdWidth numSimdPerFnCall traverse layout threadCount
        extents idx).indices.map (⟨·, 1⟩)
  else
    (makeIdxMap ⟨idx, threadCount⟩ (IdxRange.ofExtents extents) traverse layout).indices.map
      (⟨·, 1⟩)

/-- The calls of all workers with SIMD packs. -/
private theorem packs_cover (positive : ∀ d, 0 < threadCount d) {simdWidth numSimdPerFnCall : ℕ}
    (width : 0 < simdWidth) (perFnCall : 0 < numSimdPerFnCall) (wide : simdWidth ≠ 1)
    (traverse : Traverse) (layout : Layout) (extents : Vec ℕ (n + 1)) :
    Calls simdWidth (remainderBegin simdWidth numSimdPerFnCall threadCount extents)
      (threadIdxs threadCount) extents
      (fun idx => concurrentSimdPackExecution simdWidth numSimdPerFnCall traverse layout
        ⟨idx, threadCount⟩ extents)
      (concurrentCalls simdWidth numSimdPerFnCall traverse layout threadCount extents) := by
  have packs := simdPackBursts_settles positive width perFnCall traverse layout extents
  have rest := (remainderMap_partitions simdWidth numSimdPerFnCall positive traverse layout
    extents).2
  have divides : simdWidth ∣ remainderBegin simdWidth numSimdPerFnCall threadCount extents :=
    dvd_remainderBegin extents
  have shape (idx : Vec ℕ (n + 1)) :
      concurrentCalls simdWidth numSimdPerFnCall traverse layout threadCount extents idx =
        (packBursts simdWidth numSimdPerFnCall traverse layout threadCount extents idx).flatten.map
          (⟨·, simdWidth⟩) ++ (remainderMap simdWidth numSimdPerFnCall traverse layout threadCount
            extents idx).indices.map (⟨·, 1⟩) := if_pos wide
  refine ⟨fun idx member => ?_, ?_, ?_⟩
  · rw [shape]
    exact (packs.settles idx member).bind ((remainderIdxs_settles simdWidth numSimdPerFnCall
      positive traverse layout extents member).bind (Settles.pure _))
  · refine (packs.join width rest).congr_share fun idx _ => ?_
    rw [shape, List.flatMap_append, flatMap_single, List.flatMap_map]
    rfl
  · intro idx member call held several
    rw [shape] at held
    rcases List.mem_append.mp held with inPacks | inRest
    · obtain ⟨x, inBursts, rfl⟩ := List.mem_map.mp inPacks
      obtain ⟨inside, pack⟩ := packs.partitions.sound member inBursts
      have before := (mem_elements_rAssign.mp inside).2
      exact ⟨rfl, pack, add_le_of_dvd divides pack before⟩
    · obtain ⟨x, _, rfl⟩ := List.mem_map.mp inRest
      exact absurd rfl several

/-- **Every element once.** Whatever the policies, the SIMD width and the packs
per call, in exact arithmetic all workers finish without dereferencing an iterator that has
reached its end, their calls cover every element exactly once, and packs stay before the
begin of the remainder. -/
theorem concurrent_calls (positive : ∀ d, 0 < threadCount d) {simdWidth numSimdPerFnCall : ℕ}
    (width : 0 < simdWidth) (perFnCall : 0 < numSimdPerFnCall) (traverse : Traverse)
    (layout : Layout) (extents : Vec ℕ (n + 1)) :
    Calls simdWidth (remainderBegin simdWidth numSimdPerFnCall threadCount extents)
      (threadIdxs threadCount) extents
      (fun idx => concurrent simdWidth numSimdPerFnCall traverse layout ⟨idx, threadCount⟩ extents)
      (concurrentCalls simdWidth numSimdPerFnCall traverse layout threadCount extents) := by
  by_cases single : simdWidth = 1
  · have proper : (IdxRange.ofExtents extents).Proper :=
      ⟨fun _ => Nat.zero_le _, fun _ => Nat.one_pos⟩
    obtain ⟨run, shared⟩ := IdxContainer.makeIdxMap_partitions proper positive traverse layout
    rw [lattice_ofExtents] at shared
    have shape (idx : Vec ℕ (n + 1)) :
        concurrentCalls simdWidth numSimdPerFnCall traverse layout threadCount extents idx =
          (makeIdxMap ⟨idx, threadCount⟩ (IdxRange.ofExtents extents) traverse layout).indices.map
            (⟨·, 1⟩) := if_neg (not_not.mpr single)
    refine ⟨fun idx member => ?_, ?_, ?_⟩
    · rw [shape]
      unfold concurrent
      simp only [single, ne_eq, not_true_eq_false, ↓reduceIte]
      exact (run idx member).bind (Settles.pure _)
    · refine shared.congr_share fun idx _ => ?_
      rw [shape]
      exact flatMap_single _
    · intro idx _ call held wide
      rw [shape] at held
      obtain ⟨x, _, rfl⟩ := List.mem_map.mp held
      exact absurd rfl wide
  · unfold concurrent
    simp only [ne_eq, single, not_false_eq_true, ↓reduceIte]
    exact packs_cover positive width perFnCall single traverse layout extents

end Exact

section All

variable {T : Type} [IdxValue T]

/-- A call has its first element. -/
theorem Call.dataIdx_mem {call : Call T n} (wide : 0 < call.width) :
    call.dataIdx.values ∈ call.elements := by
  unfold Call.elements cells
  rw [List.mem_map]
  exact ⟨0, List.mem_range.mpr wide, rAssign_self _⟩

/-- Calls that take every element once. -/
structure TakesAll (simdWidth : ℕ) (extents : Vec ℕ (n + 1)) (calls : List (Call T n)) :
    Prop where
  distinct : calls.Nodup
  disjoint : ∀ first ∈ calls, ∀ second ∈ calls, first ≠ second →
    List.Disjoint first.elements second.elements
  mem_iff : ∀ idx, idx ∈ elements extents ↔ ∃ call ∈ calls, idx ∈ call.elements
  packs : ∀ call ∈ calls, call.width ≠ 1 →
    call.width = simdWidth ∧ simdWidth ∣ call.dataIdx.values.back

/-- The calls of all workers, in any order of the workers. -/
theorem Calls.takesAll {simdWidth column : ℕ} {group : Set (Vec T (n + 1))}
    {extents : Vec ℕ (n + 1)}
    {program : Vec T (n + 1) → ℕ → Except Math.Loop.Fault (List (Call T n))}
    {calls : Vec T (n + 1) → List (Call T n)}
    (cover : Calls simdWidth column group extents program calls)
    (lanes : 0 < simdWidth) {workers : List (Vec T (n + 1))} (once : workers.Nodup)
    (order : ∀ idx, idx ∈ workers ↔ idx ∈ group) :
    TakesAll simdWidth extents (workers.flatMap calls) := by
  have elementsOnce := cover.partitions.nodup_flatMap once order
  rw [← List.flatMap_assoc, List.nodup_flatMap] at elementsOnce
  have apart := elementsOnce.2
  have packs : ∀ call ∈ workers.flatMap calls, call.width ≠ 1 →
      call.width = simdWidth ∧ simdWidth ∣ call.dataIdx.values.back := by
    intro call held wide
    obtain ⟨idx, listed, held⟩ := List.mem_flatMap.mp held
    have pack := cover.packs idx ((order idx).mp listed) call held wide
    exact ⟨pack.1, pack.2.1⟩
  have wide : ∀ call ∈ workers.flatMap calls, 0 < call.width := by
    intro call held
    by_cases element : call.width = 1
    · rw [element]
      exact Nat.one_pos
    · rw [(packs call held element).1]
      exact lanes
  refine ⟨?_, ?_, ?_, packs⟩
  · apply apart.imp_of_mem
    intro first second held _ disjoint same
    have read := Call.dataIdx_mem (wide first held)
    exact disjoint read (same ▸ read)
  · intro first held second held' different
    have : Std.Symm (Function.onFun List.Disjoint (Call.elements (T := T) (n := n))) :=
      ⟨fun _ _ disjoint => disjoint.symm⟩
    exact apart.forall held held' different
  · intro idx
    have all := cover.partitions.mem_flatMap order (x := idx)
    rw [← List.flatMap_assoc, List.mem_flatMap] at all
    exact all.symm

end All

/-- Where calls begin: with a pack before the begin of the remainder, or with an element
behind it. -/
def callBegins (simdWidth column : ℕ) (extents : Vec ℕ (n + 1)) : Set (Vec ℕ (n + 1)) :=
  {x | x ∈ elements extents ∧ (x.back < column → simdWidth ∣ x.back)}

/-- Calls begin there. -/
theorem concurrentCalls_begin {threadCount : Vec ℕ (n + 1)} (positive : ∀ d, 0 < threadCount d)
    {simdWidth numSimdPerFnCall : ℕ} (width : 0 < simdWidth) (perFnCall : 0 < numSimdPerFnCall)
    {traverse : Traverse} {layout : Layout} {extents idx : Vec ℕ (n + 1)}
    (member : idx ∈ threadIdxs threadCount) {call : Call ℕ n}
    (held : call ∈ concurrentCalls simdWidth numSimdPerFnCall traverse layout threadCount extents
      idx) :
    call.dataIdx ∈ callBegins simdWidth (remainderBegin simdWidth numSimdPerFnCall threadCount
      extents) extents := by
  have cover := concurrent_calls positive width perFnCall traverse layout extents
  have lanes : 0 < call.width := by
    by_cases element : call.width = 1
    · exact element ▸ Nat.one_pos
    · exact (cover.packs idx member call held element).1 ▸ width
  refine ⟨cover.partitions.sound member (List.mem_flatMap.mpr ⟨call, held,
    call.dataIdx_mem lanes⟩), fun before => ?_⟩
  by_cases wide : simdWidth ≠ 1
  · rw [concurrentCalls, if_pos wide] at held
    rcases List.mem_append.mp held with inPacks | inRest
    · obtain ⟨x, inBursts, rfl⟩ := List.mem_map.mp inPacks
      exact ((simdPackBursts_settles positive width perFnCall traverse layout
        extents).partitions.sound member inBursts).2
    · obtain ⟨x, single, rfl⟩ := List.mem_map.mp inRest
      have behind := ((remainderMap_partitions simdWidth numSimdPerFnCall positive traverse layout
        extents).2.sound member single).2
      exact absurd before (not_lt.mpr behind)
  · rw [not_not.mp wide]
    exact Nat.one_dvd _

end Alpaka
