import Alpaka.Math.Partition
import Alpaka.Meta.NdLoop
import Alpaka.VecWidth

/-! # The host executors

The serial executor nests a loop for every dimension of the block index. The OpenMP
executor counts the blocks with one loop, whose iterations the threads of a team share,
and maps the count to a block index. Both run the kernel once for every block
(`Alpaka.sameBlocks`), the serial executor in the order of the linear indices.
-/

namespace Alpaka

variable {w n : ℕ} {σ : Type*}

/-- A specification whose blocks have a single thread, as the constructors of the
executors demand. -/
structure SingleThreadSpec (w n : ℕ) where
  numBlocks : Vec (BitVec w) (n + 1)
  numThreads : Vec (BitVec w) (n + 1)
  oneThread : numThreads.product = 1

/-- The check in the constructors of both executors. -/
def SingleThreadSpec.make (numBlocks numThreads : Vec (BitVec w) (n + 1)) :
    Except String (SingleThreadSpec w n) :=
  if oneThread : numThreads.product = 1 then .ok ⟨numBlocks, numThreads, oneThread⟩
  else .error "Thread block extent must be 1."

/-! ## Machine loops -/

/-- A counter below a bound does not wrap around. -/
theorem toNat_succ_of_lt {i bound : BitVec w} (below : i < bound) :
    (i + 1).toNat = i.toNat + 1 := by
  have small : i.toNat + 1 < 2 ^ w := (Nat.succ_le_of_lt below).trans_lt bound.isLt
  rw [← Nat.cast_one, BitVec.toNat_add, toNat_cast, Nat.add_mod_mod, Nat.mod_eq_of_lt small]

/-- A loop that counts up to a bound. -/
def forLoop (body : BitVec w → σ → σ) (bound i : BitVec w) (state : σ) : σ :=
  if i < bound then forLoop body bound (i + 1) (body i state) else state
termination_by bound.toNat - i.toNat
decreasing_by
  rename_i below
  have next := toNat_succ_of_lt below
  have := BitVec.lt_def.mp below
  omega

/-- The nested loops with counters of the index type. -/
def ndForLoop (f : Vec (BitVec w) n → σ → σ) (extent : Vec (BitVec w) n) :
    List (Fin n) → Vec (BitVec w) n → σ → σ
  | [], idx, state => f idx state
  | dim :: dims, idx, state => forLoop
      (fun i state => ndForLoop f extent dims (Function.update idx dim i) state) (extent dim) 0
      state

/-! ## The executors -/

namespace SingleThreadSpec

/-- The serial executor: the block index is the counter of the nested loops. -/
def serial (spec : SingleThreadSpec w n) (kernel : Vec (BitVec w) (n + 1) → σ → σ) (state : σ) :
    σ :=
  ndForLoop kernel spec.numBlocks (List.finRange (n + 1)) (Vec.fill 0) state

/-- The iterations that a team of threads shares. -/
def iterations (spec : SingleThreadSpec w n) : Set (BitVec w) :=
  {i | i < spec.numBlocks.product}

/-- A thread of the OpenMP executor, with the iterations it is given. -/
def ompBlocks (spec : SingleThreadSpec w n) (share : List (BitVec w))
    (kernel : Vec (BitVec w) (n + 1) → σ → σ) (state : σ) : σ :=
  share.foldl (fun state i => kernel (mapToND spec.numBlocks i) state) state

/-- The block indices for which the serial executor runs the kernel, in turn. -/
def serialCalls (spec : SingleThreadSpec w n) : List (Vec (BitVec w) (n + 1)) :=
  spec.serial (fun blockIdx calls => calls ++ [blockIdx]) []

/-- The block indices for which a thread of the OpenMP executor runs the kernel. -/
def ompCalls (spec : SingleThreadSpec w n) (share : List (BitVec w)) :
    List (Vec (BitVec w) (n + 1)) :=
  spec.ompBlocks share (fun blockIdx calls => calls ++ [blockIdx]) []

end SingleThreadSpec

/-! ## Loops as lists -/

private theorem forLoop_eq (body : BitVec w → σ → σ) (bound : BitVec w) (state : σ) :
    forLoop body bound 0 state =
      (List.range bound.toNat).foldl (fun state (i : ℕ) => body (i : BitVec w) state) state := by
  have loop (count : ℕ) (i : BitVec w) (left : i.toNat + count = bound.toNat) (state : σ) :
      forLoop body bound i state =
        (List.range' i.toNat count).foldl (fun state (i : ℕ) => body (i : BitVec w) state)
          state := by
    induction count generalizing i state with
    | zero =>
        have stopped : ¬ i < bound := by
          rw [BitVec.lt_def]
          omega
        rw [forLoop, if_neg stopped, List.range'_zero, List.foldl_nil]
    | succ count ih =>
        have running : i < bound := by
          rw [BitVec.lt_def]
          omega
        have next := toNat_succ_of_lt running
        rw [forLoop, if_pos running, ih (i + 1) (by omega), next, List.range'_succ,
          List.foldl_cons, natCast_toNat]
  have whole := loop bound.toNat 0 (by simp) state
  rw [List.range_eq_range']
  simpa using whole

/-- Nested machine loops run like the loops over numbers. -/
theorem ndForLoop_eq (f : Vec (BitVec w) n → σ → σ) (extent : Vec (BitVec w) n)
    (dims : List (Fin n)) (idx : Vec ℕ n) (state : σ) :
    ndForLoop f extent dims (Vec.ofNats idx) state =
      ndLoopImpl (fun idx => f (Vec.ofNats idx)) extent.toNats dims idx state := by
  induction dims generalizing idx state with
  | nil => rfl
  | cons dim dims ih =>
      unfold ndForLoop ndLoopImpl
      rw [forLoop_eq]
      simp only [← Vec.ofNats_update, ih]
      rfl

private theorem foldl_append_singleton {α β : Type*} (f : α → β) (elements : List α)
    (calls : List β) :
    elements.foldl (fun calls x => calls ++ [f x]) calls = calls ++ elements.map f := by
  induction elements generalizing calls with
  | nil => exact (List.append_nil calls).symm
  | cons x elements ih =>
      rw [List.foldl_cons, ih, List.map_cons, List.append_assoc, List.singleton_append]

namespace SingleThreadSpec

variable {spec : SingleThreadSpec w n}

/-- The serial executor runs the kernel for the indices that the loops over numbers visit. -/
theorem serial_eq (spec : SingleThreadSpec w n) (kernel : Vec (BitVec w) (n + 1) → σ → σ)
    (state : σ) : spec.serial kernel state =
      (ndIdxs spec.numBlocks.toNats).foldl (fun state idx => kernel (Vec.ofNats idx) state)
        state := by
  have origin : (Vec.fill 0 : Vec (BitVec w) (n + 1)) = Vec.ofNats (Vec.fill 0) :=
    funext fun _ => Nat.cast_zero.symm
  unfold serial
  rw [origin, ndForLoop_eq]
  exact ndLoopIncIdx_eq _ _ state

private theorem serialCalls_eq (spec : SingleThreadSpec w n) :
    spec.serialCalls = (ndIdxs spec.numBlocks.toNats).map Vec.ofNats := by
  unfold serialCalls
  rw [serial_eq, foldl_append_singleton, List.nil_append]

theorem ompCalls_eq (spec : SingleThreadSpec w n) (share : List (BitVec w)) :
    spec.ompCalls share = share.map (mapToND spec.numBlocks) := by
  unfold ompCalls ompBlocks
  rw [foldl_append_singleton, List.nil_append]

/-- The serial executor goes through the linear indices in turn. -/
theorem serialCalls_eq_map (representable : ∏ d, (spec.numBlocks d).toNat < 2 ^ w) :
    spec.serialCalls = (List.range (∏ d, (spec.numBlocks d).toNat)).map
      fun (i : ℕ) => mapToND spec.numBlocks (i : BitVec w) := by
  rw [serialCalls_eq, ndIdxs_eq_map, List.map_map]
  refine List.map_congr_left fun i member => ?_
  have below : i < ∏ d, (spec.numBlocks d).toNat := List.mem_range.mp member
  have cast : (i : BitVec w).toNat = i := by
    rw [toNat_cast, Nat.mod_eq_of_lt (below.trans representable)]
  have below' : (i : BitVec w).toNat < ∏ d, (spec.numBlocks d).toNat := by rwa [cast]
  have machine := toNats_mapToND representable below'
  rw [cast] at machine
  change Vec.ofNats (mapToND spec.numBlocks.toNats i) = _
  rw [← machine, Vec.ofNats_toNats]

/-- The serial executor runs the kernel for the indices of the box and for no others. -/
theorem mem_serialCalls {idx : Vec (BitVec w) (n + 1)} :
    idx ∈ spec.serialCalls ↔ ∀ d, idx d < spec.numBlocks d := by
  rw [serialCalls_eq, List.mem_map]
  constructor
  · rintro ⟨x, member, rfl⟩ d
    have below := mem_ndIdxs.mp member d
    rw [BitVec.lt_def]
    change (x d : BitVec w).toNat < _
    rwa [toNat_cast, Nat.mod_eq_of_lt (below.trans (spec.numBlocks d).isLt)]
  · intro inside
    exact ⟨idx.toNats, mem_ndIdxs.mpr inside, Vec.ofNats_toNats idx⟩

/-- The serial executor runs the kernel for each index once. -/
theorem nodup_serialCalls (spec : SingleThreadSpec w n) : spec.serialCalls.Nodup := by
  rw [serialCalls_eq]
  refine (nodup_ndIdxs _).map_on fun first firstIn second secondIn same => ?_
  have kept {x : Vec ℕ (n + 1)} (member : x ∈ ndIdxs spec.numBlocks.toNats) :
      (Vec.ofNats x : Vec (BitVec w) (n + 1)).toNats = x :=
    Vec.toNats_ofNats fun d => (mem_ndIdxs.mp member d).trans (spec.numBlocks d).isLt
  rw [← kept firstIn, same, kept secondIn]

/-- However the iterations are shared, the threads run the kernel for each index once. -/
theorem partitions_ompCalls (representable : ∏ d, (spec.numBlocks d).toNat < 2 ^ w) {ι : Type}
    {team : Set ι} {share : ι → List (BitVec w)}
    (distribution : Math.Partitions team share spec.iterations) :
    Math.Partitions team (fun thread => spec.ompCalls (share thread))
      {idx | ∀ d, idx d < spec.numBlocks d} := by
  have counted : spec.iterations =
      {linearIdx | linearIdx.toNat < ∏ d, (spec.numBlocks d).toNat} := by
    ext i
    change i < _ ↔ _
    rw [BitVec.lt_def, Vec.toNat_product, Nat.mod_eq_of_lt representable]
    rfl
  rw [counted] at distribution
  simp only [ompCalls_eq]
  exact distribution.map (mapToND_bijOn representable)

end SingleThreadSpec

/-- **The same blocks.** Both executors run the kernel exactly once for every index of the
box and for no other one, however the iterations are shared among the threads of a team,
and the serial executor does so in the order of the linear indices. -/
theorem sameBlocks (spec : SingleThreadSpec w n)
    (representable : ∏ d, (spec.numBlocks d).toNat < 2 ^ w) :
    spec.serialCalls.Nodup ∧
    (∀ idx, idx ∈ spec.serialCalls ↔ ∀ d, idx d < spec.numBlocks d) ∧
    spec.serialCalls = (List.range (∏ d, (spec.numBlocks d).toNat)).map
      (fun (i : ℕ) => mapToND spec.numBlocks (i : BitVec w)) ∧
    ∀ (ι : Type) (team : Set ι) (share : ι → List (BitVec w)),
      Math.Partitions team share spec.iterations →
      Math.Partitions team (fun thread => spec.ompCalls (share thread))
        {idx | ∀ d, idx d < spec.numBlocks d} :=
  ⟨spec.nodup_serialCalls, fun _ => SingleThreadSpec.mem_serialCalls,
    SingleThreadSpec.serialCalls_eq_map representable,
    fun _ _ _ => SingleThreadSpec.partitions_ompCalls representable⟩

/-- Two rows of three blocks, of which the second of two threads takes two backwards. -/
theorem sameBlocks_rows :
    let spec : SingleThreadSpec 32 1 := ⟨![2, 3], ![1, 1], by decide⟩
    let share : Bool → List (BitVec 32) := fun first => if first then [0, 1, 2, 3] else [5, 4]
    spec.serialCalls.Nodup ∧
    (∀ idx, idx ∈ spec.serialCalls ↔ ∀ d, idx d < spec.numBlocks d) ∧
    spec.serialCalls = (List.range (∏ d, (spec.numBlocks d).toNat)).map
      (fun (i : ℕ) => mapToND spec.numBlocks (i : BitVec 32)) ∧
    Math.Partitions Set.univ (fun thread => spec.ompCalls (share thread))
      {idx | ∀ d, idx d < spec.numBlocks d} := by
  intro spec share
  obtain ⟨nodup, mem, order, teams⟩ := sameBlocks spec (by decide)
  refine ⟨nodup, mem, order, teams Bool Set.univ share ⟨?_, ?_, fun i => ?_⟩⟩
  · intro thread _
    cases thread <;> simp [share]
  · have apart (i : BitVec 32) (left : i ∈ share true) : i ∉ share false := by
      simp only [share, Bool.false_eq_true, if_true, if_false, List.mem_cons, List.not_mem_nil,
        or_false] at left ⊢
      rcases left with rfl | rfl | rfl | rfl <;> decide
    intro first _ second _ i heldFirst heldSecond
    cases first <;> cases second
    · rfl
    · exact absurd heldFirst (apart i heldSecond)
    · exact absurd heldSecond (apart i heldFirst)
    · rfl
  · have below : spec.numBlocks.product = 6#32 := by decide
    have listed : (∃ thread ∈ Set.univ, i ∈ share thread) ↔
        i ∈ [5#32, 4#32] ∨ i ∈ [0#32, 1#32, 2#32, 3#32] := by
      simp [share]
    rw [listed]
    change i < spec.numBlocks.product ↔ _
    rw [below]
    simp only [List.mem_cons, List.not_mem_nil, or_false]
    bv_omega

end Alpaka
