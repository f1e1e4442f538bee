import Mathlib.Data.List.Sort
import Alpaka.Vec

/-! # Nested loops over a box

`ndLoopIncIdx` nests a loop for every dimension, the first one outermost. It calls its
function for every index of the box, once each (`Alpaka.ndLoopIncIdx_eq`,
`Alpaka.mem_ndIdxs`, `Alpaka.nodup_ndIdxs`), in the order of the linear indices
(`Alpaka.ndIdxs_eq_map`).
-/

namespace Alpaka

variable {n : ℕ} {σ : Type*}

/-- The loops over the given dimensions; the function is called in the innermost one. -/
def ndLoopImpl (f : Vec ℕ n → σ → σ) (extent : Vec ℕ n) : List (Fin n) → Vec ℕ n → σ → σ
  | [], idx, state => f idx state
  | dim :: dims, idx, state => (List.range (extent dim)).foldl
      (fun state i => ndLoopImpl f extent dims (Function.update idx dim i) state) state

def ndLoopIncIdx (extent : Vec ℕ n) (f : Vec ℕ n → σ → σ) (state : σ) : σ :=
  ndLoopImpl f extent (List.finRange n) (Vec.fill 0) state

/-- The indices that nested loops visit. -/
def ndLoopIdxs (extent : Vec ℕ n) : List (Fin n) → Vec ℕ n → List (Vec ℕ n)
  | [], idx => [idx]
  | dim :: dims, idx => (List.range (extent dim)).flatMap fun i =>
      ndLoopIdxs extent dims (Function.update idx dim i)

/-- The indices of a box, the fastest component last. -/
def ndIdxs (extent : Vec ℕ n) : List (Vec ℕ n) :=
  ndLoopIdxs extent (List.finRange n) (Vec.fill 0)

private theorem ndLoopImpl_eq (f : Vec ℕ n → σ → σ) (extent : Vec ℕ n) (dims : List (Fin n))
    (idx : Vec ℕ n) (state : σ) :
    ndLoopImpl f extent dims idx state =
      (ndLoopIdxs extent dims idx).foldl (fun state idx => f idx state) state := by
  induction dims generalizing idx state with
  | nil => rfl
  | cons dim dims ih =>
      unfold ndLoopImpl ndLoopIdxs
      rw [List.foldl_flatMap]
      simp only [ih]

theorem ndLoopIncIdx_eq (extent : Vec ℕ n) (f : Vec ℕ n → σ → σ) (state : σ) :
    ndLoopIncIdx extent f state = (ndIdxs extent).foldl (fun state idx => f idx state) state :=
  ndLoopImpl_eq f extent _ _ state

private theorem mem_ndLoopIdxs {extent : Vec ℕ n} {dims : List (Fin n)} (distinct : dims.Nodup)
    {idx x : Vec ℕ n} :
    x ∈ ndLoopIdxs extent dims idx ↔ (∀ d ∈ dims, x d < extent d) ∧ ∀ d ∉ dims, x d = idx d := by
  induction dims generalizing idx with
  | nil =>
      simp only [ndLoopIdxs, List.mem_singleton, List.not_mem_nil, false_imp_iff, implies_true,
        not_false_eq_true, forall_const, true_and]
      exact funext_iff
  | cons dim dims ih =>
      obtain ⟨fresh, distinctRest⟩ := List.nodup_cons.mp distinct
      simp only [ndLoopIdxs, List.mem_flatMap, List.mem_range, ih distinctRest]
      constructor
      · rintro ⟨i, below, inside, others⟩
        have here : x dim = i := (others dim fresh).trans (Function.update_self _ _ _)
        refine ⟨fun d member => ?_, fun d outside => ?_⟩
        · obtain rfl | later := List.mem_cons.mp member
          · exact here ▸ below
          · exact inside d later
        · obtain ⟨different, later⟩ := not_or.mp (List.mem_cons.not.mp outside)
          exact (others d later).trans (Function.update_of_ne different _ _)
      · rintro ⟨inside, others⟩
        refine ⟨x dim, inside dim List.mem_cons_self,
          fun d later => inside d (List.mem_cons_of_mem _ later), fun d later => ?_⟩
        by_cases same : d = dim
        · rw [same, Function.update_self]
        · rw [Function.update_of_ne same]
          exact others d (List.mem_cons.not.mpr (not_or.mpr ⟨same, later⟩))

private theorem nodup_ndLoopIdxs (extent : Vec ℕ n) {dims : List (Fin n)} (distinct : dims.Nodup)
    (idx : Vec ℕ n) : (ndLoopIdxs extent dims idx).Nodup := by
  induction dims generalizing idx with
  | nil => exact List.nodup_singleton idx
  | cons dim dims ih =>
      obtain ⟨fresh, distinctRest⟩ := List.nodup_cons.mp distinct
      refine List.nodup_flatMap.mpr ⟨fun i _ => ih distinctRest _,
        List.nodup_range.imp fun {i j} different => List.disjoint_left.mpr fun x left right => ?_⟩
      have first := ((mem_ndLoopIdxs distinctRest).mp left).2 dim fresh
      have second := ((mem_ndLoopIdxs distinctRest).mp right).2 dim fresh
      rw [Function.update_self] at first second
      exact different (first.symm.trans second)

/-- All indices of the box are visited … -/
theorem mem_ndIdxs {extent x : Vec ℕ n} : x ∈ ndIdxs extent ↔ ∀ d, x d < extent d := by
  rw [ndIdxs, mem_ndLoopIdxs (List.nodup_finRange n)]
  exact ⟨fun inside d => inside.1 d (List.mem_finRange d), fun inside =>
    ⟨fun d _ => inside d, fun d outside => absurd (List.mem_finRange d) outside⟩⟩

/-- … and each of them once. -/
theorem nodup_ndIdxs (extent : Vec ℕ n) : (ndIdxs extent).Nodup :=
  nodup_ndLoopIdxs extent (List.nodup_finRange n) _

/-! ## The order of the visits -/

/-- With the slowest loop outermost the indices are visited in lexicographic order. -/
theorem pairwise_ndLoopIdxs (extent : Vec ℕ n) {dims : List (Fin n)}
    (ordered : dims.Pairwise (· < ·)) (idx : Vec ℕ n) :
    (ndLoopIdxs extent dims idx).Pairwise fun first second => toLex first < toLex second := by
  induction dims generalizing idx with
  | nil => exact List.pairwise_singleton _ _
  | cons dim dims ih =>
      obtain ⟨slowest, orderedRest⟩ := List.pairwise_cons.mp ordered
      have distinct : dims.Nodup := orderedRest.imp ne_of_lt
      have fresh : dim ∉ dims := fun member => (slowest dim member).false
      refine List.pairwise_flatMap.mpr ⟨fun i _ => ih orderedRest _,
        List.pairwise_lt_range.imp fun {i j} earlier first left second right => ?_⟩
      have before := ((mem_ndLoopIdxs distinct).mp left).2
      have after := ((mem_ndLoopIdxs distinct).mp right).2
      refine ⟨dim, fun d slower => ?_, ?_⟩
      · have outside : d ∉ dims := fun member => (slower.trans (slowest d member)).false
        change first d = second d
        rw [before d outside, after d outside, Function.update_of_ne slower.ne,
          Function.update_of_ne slower.ne]
      · change first dim < second dim
        rwa [before dim fresh, after dim fresh, Function.update_self, Function.update_self]

/-- **Row-major order.** Nested loops visit the indices of the linear indices in turn. -/
theorem ndIdxs_eq_map (extent : Vec ℕ (n + 1)) :
    ndIdxs extent = (List.range (∏ d, extent d)).map (mapToND extent) := by
  have digits : mapToND extent = Math.MixedRadix.place extent :=
    funext (mapToND_eq_place extent)
  have numbers := Math.MixedRadix.place_bijOn extent
  have nested := pairwise_ndLoopIdxs extent (List.pairwise_lt_finRange (n + 1)) (Vec.fill 0)
  have flat : ((List.range (∏ d, extent d)).map (mapToND extent)).Pairwise
      fun first second => toLex first < toLex second := by
    rw [digits, List.pairwise_map]
    refine List.pairwise_lt_range.imp_of_mem fun {i j} inFirst inSecond earlier => ?_
    exact (Math.MixedRadix.place_lt_place_iff (List.mem_range.mp inFirst)
      (List.mem_range.mp inSecond)).mpr earlier
  have order : Std.Asymm fun first second : Vec ℕ (n + 1) => toLex first < toLex second :=
    ⟨fun _ _ => lt_asymm⟩
  refine List.Pairwise.eq_of_mem_iff nested flat fun x => ?_
  refine mem_ndIdxs.trans ⟨fun inside => ?_, fun member => ?_⟩
  · obtain ⟨number, below, reached⟩ := numbers.surjOn inside
    exact List.mem_map.mpr ⟨number, List.mem_range.mpr below, by rw [digits, reached]⟩
  · obtain ⟨number, below, rfl⟩ := List.mem_map.mp member
    rw [digits]
    exact numbers.mapsTo (List.mem_range.mp below)

end Alpaka
