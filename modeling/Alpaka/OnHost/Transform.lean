import Alpaka.Meta.NdLoop
import Alpaka.OnHost.IotaWidth

/-! # Transforming data

The transform kernel assigns to every element of the output what a functor makes of the
inputs there; `fill` assigns a value. The functor calls of all threads may happen in any order.
An input may be the output itself, as long as no call reads an element that another call
writes (`Alpaka.simdTransformKernel_transforms`); a stencil may look at other places under the same
condition (`Alpaka.simdTransformKernel_stencil`). Transforming the generator of positions is
the same as `iota` (`Alpaka.transform_eq_iota`). The index type may wrap around: this needs that
the loops of the launch do not overflow (`Alpaka.SimdLaunch.Fits`) and that the calls find the
places where they begin (`Alpaka.PlacesFit`).
-/

namespace Alpaka

open Math (Assigns Settles foldl_assigns)
open Math.Loop (Fault)
open Math.Strides (Nested offset)

attribute [local instance (2000)] neZero_add_one

variable {U Byte : Type} {w n k : ℕ} {A : Fin k → Type}

/-- What a kernel reads: the elements of a view, decoded from their bytes, or the
positions that a generator computes in its index type. -/
inductive DataSource (w : ℕ) (T Byte : Type) (n : ℕ)
  | mdSpan (span : MdSpan (BitVec w) n) (fromBytes : (Fin span.sizeofValue → Byte) → T)
  | linearizedIdxGenerator (extents : Vec (BitVec w) (n + 1)) (toValue : BitVec w → T)

/-- The element at an index. -/
def DataSource.get {T : Type} (memory : ℕ → Byte) (idx : Vec ℕ (n + 1)) :
    DataSource w T Byte n → T
  | .mdSpan span fromBytes => fromBytes fun byte => memory (span.toNats.ptr id idx + byte)
  | .linearizedIdxGenerator extents toValue => toValue (linearize extents.toNats idx : ℕ)

/-- A lane of the pack that the SIMD pointer of a call loads. -/
def DataSource.load {T : Type} (memory : ℕ → Byte) (call : Call (BitVec w) n) (laneId : ℕ) :
    DataSource w T Byte n → T
  | .mdSpan span fromBytes => fromBytes fun byte =>
      memory (span.ptr BitVec.toNat call.dataIdx + laneId * span.sizeofValue + byte)
  | .linearizedIdxGenerator extents toValue => toValue (linearize extents
      fun d => call.dataIdx d + (Vec.fill 0 : Vec (BitVec w) (n + 1)).rAssign laneId d)

/-- A functor: of packs, of elements, or of SIMD pointers. -/
inductive TransformFunc (A : Fin k → Type) (U Byte : Type) (w n : ℕ)
  | simd (func : ℕ → ((j : Fin k) → ℕ → A j) → ℕ → U)
  | scalarFunc (func : ((j : Fin k) → A j) → U)
  | stencilFunc (func : (ℕ → Byte) → Call (BitVec w) n → ℕ → U)

/-- The pack that a call makes of the inputs. -/
def TransformFunc.pack (func : TransformFunc A U Byte w n)
    (inputs : (j : Fin k) → DataSource w (A j) Byte n) (memory : ℕ → Byte)
    (call : Call (BitVec w) n) : ℕ → U :=
  match func with
  | .simd func => func call.width fun j laneId => (inputs j).load memory call laneId
  | .scalarFunc func => fun laneId => func fun j => (inputs j).load memory call laneId
  | .stencilFunc func => func memory call

/-- The functor of the transform kernel. -/
def transformPack (output : Output (BitVec w) U Byte n) (func : TransformFunc A U Byte w n)
    (inputs : (j : Fin k) → DataSource w (A j) Byte n) (memory : ℕ → Byte)
    (call : Call (BitVec w) n) : ℕ → Byte :=
  output.storeTo call (func.pack inputs memory call) memory

/-- The functor of the fill kernel. -/
def fillPack (dest : Output (BitVec w) U Byte n) (value : U) (memory : ℕ → Byte)
    (call : Call (BitVec w) n) : ℕ → Byte :=
  dest.storeTo call (fun _ => value) memory

/-! ## What the calls write -/

/-- The memory after, when every element of the output has got its value. -/
structure Transformed (extents : Vec ℕ (n + 1)) (output : Output ℕ U Byte n)
    (value : Vec ℕ (n + 1) → U) (before after : ℕ → Byte) : Prop where
  values : ∀ idx ∈ elements extents, ∀ byte < output.span.sizeofValue,
    after (output.span.ptr id idx + byte) = output.toBytes (output.pCast (value idx)) byte
  unchanged : ∀ address, (∀ idx ∈ elements extents, address ∉ output.cell idx) →
    after address = before address

/-- The output determines the memory. -/
theorem Transformed.eq {extents : Vec ℕ (n + 1)} {output : Output ℕ U Byte n}
    {value : Vec ℕ (n + 1) → U} {before first second : ℕ → Byte}
    (left : Transformed extents output value before first)
    (right : Transformed extents output value before second) : first = second := by
  funext address
  by_cases touched : ∃ idx ∈ elements extents, address ∈ output.cell idx
  · obtain ⟨idx, inside, low, high⟩ := touched
    obtain ⟨byte, rfl⟩ := Nat.exists_eq_add_of_le low
    have below : byte < output.span.sizeofValue := Nat.lt_of_add_lt_add_left high
    rw [left.values idx inside byte below, right.values idx inside byte below]
  · have away : ∀ idx ∈ elements extents, address ∉ output.cell idx :=
      fun idx inside cell => touched ⟨idx, inside, cell⟩
    rw [left.unchanged address away, right.unchanged address away]

/-- Only the values of the elements matter. -/
theorem Transformed.congr {extents : Vec ℕ (n + 1)} {output : Output ℕ U Byte n}
    {value other : Vec ℕ (n + 1) → U} {before after : ℕ → Byte}
    (transformed : Transformed extents output value before after)
    (same : ∀ idx ∈ elements extents, value idx = other idx) :
    Transformed extents output other before after :=
  ⟨fun idx inside => same idx inside ▸ transformed.values idx inside, transformed.unchanged⟩

/-- The places that are `begins` are found: their offsets in a view are exact. A view of one
dimension is indexed by pointer arithmetic, which does not wrap around. -/
def PlacesFit (begins : Set (Vec ℕ (n + 1))) (span : MdSpan (BitVec w) n) : Prop :=
  ∀ idx ∈ begins, n = 0 ∨ offset span.toNats.getPitches idx < 2 ^ w

/-- What the functor makes of an element, and where it looks for that, in calls that begin at
given indices. -/
structure TransformFunc.Computes (func : TransformFunc A U Byte w n)
    (inputs : (j : Fin k) → DataSource w (A j) Byte n) (begins : Set (Vec ℕ (n + 1)))
    (extents : Vec (BitVec w) (n + 1)) (value : (ℕ → Byte) → Vec ℕ (n + 1) → U)
    (reads : Vec ℕ (n + 1) → Set ℕ) : Prop where
  lanes : ∀ memory (call : Call ℕ n), call.dataIdx ∈ begins → ∀ laneId < call.width,
    call.dataIdx.rAssign (call.dataIdx.back + laneId) ∈ elements extents.toNats →
      func.pack inputs memory (Call.ofNats call) laneId =
        value memory (call.dataIdx.rAssign (call.dataIdx.back + laneId))
  determined : ∀ idx ∈ elements extents.toNats, ∀ first second : ℕ → Byte,
    (∀ x ∈ reads idx, first x = second x) → value first idx = value second idx

/-- The calls of the threads in another order. -/
theorem TakesAll.perm {simdWidth : ℕ} {extents : Vec ℕ (n + 1)} {calls schedule : List (Call ℕ n)}
    (takes : TakesAll simdWidth extents calls) (order : schedule.Perm calls) :
    TakesAll simdWidth extents schedule where
  distinct := order.nodup_iff.mpr takes.distinct
  disjoint := fun first member second member' =>
    takes.disjoint first (order.mem_iff.mp member) second (order.mem_iff.mp member')
  mem_iff := fun idx => by
    rw [takes.mem_iff idx]
    exact exists_congr fun call => and_congr_left fun _ => order.mem_iff.symm
  packs := fun call member => takes.packs call (order.mem_iff.mp member)

section Kernel

variable {simdWidth : ℕ} {extents : Vec (BitVec w) (n + 1)} {begins : Set (Vec ℕ (n + 1))}
  {output : Output (BitVec w) U Byte n} {func : TransformFunc A U Byte w n}
  {inputs : (j : Fin k) → DataSource w (A j) Byte n}
  {value : (ℕ → Byte) → Vec ℕ (n + 1) → U} {reads : Vec ℕ (n + 1) → Set ℕ}

/-- The output is laid out as views are and has at least the given extents, and nothing
looks at the bytes of another element. -/
structure OwnElements (extents : Vec ℕ (n + 1)) (output : Output ℕ U Byte n)
    (reads : Vec ℕ (n + 1) → Set ℕ) : Prop where
  within : ∀ d, extents d ≤ output.span.extents d
  nested : Nested output.span.extents output.span.getPitches
  apart : ∀ idx ∈ elements extents, ∀ other ∈ elements extents, idx ≠ other →
    Disjoint (output.cell idx) (reads other)

/-- A single output is separate. -/
theorem OwnElements.disjoint {extents : Vec ℕ (n + 1)} {output : Output ℕ U Byte n}
    (own : OwnElements extents output reads) {idx other : Vec ℕ (n + 1)}
    (inside : idx ∈ elements extents) (inside' : other ∈ elements extents)
    (different : idx ≠ other) : Disjoint (output.cell idx) (output.cell other) := by
  have separate : SeparateOutputs extents fun _ : Fin 1 => output :=
    ⟨fun _ => own.within, fun _ => own.nested,
      fun i j differ => absurd (Subsingleton.elim i j) differ⟩
  exact separate.disjoint (i := 0) (j := 0) inside inside' fun _ => different

/-- **Any order of the calls.** Every element gets its value. -/
theorem transformPack_transforms {calls : List (Call ℕ n)}
    (takes : TakesAll simdWidth extents.toNats calls)
    (first : ∀ call ∈ calls, call.dataIdx ∈ begins) (below : begins ⊆ elements extents.toNats)
    (computes : func.Computes inputs begins extents value reads)
    (places : PlacesFit begins output.span)
    (own : OwnElements extents.toNats output.toNats reads) (memory : ℕ → Byte) :
    Transformed extents.toNats output.toNats (value memory) memory
      (calls.foldl (fun memory call => transformPack output func inputs memory (Call.ofNats call))
        memory) := by
  have laneMem {call : Call ℕ n} {lane : ℕ} (below : lane < call.width) :
      call.dataIdx.rAssign (call.dataIdx.back + lane) ∈ call.elements :=
    List.mem_map_of_mem (List.mem_range.mpr below)
  have inside {call : Call ℕ n} (held : call ∈ calls) {lane : ℕ} (below : lane < call.width) :
      call.dataIdx.rAssign (call.dataIdx.back + lane) ∈ elements extents.toNats :=
    (takes.mem_iff _).mpr ⟨call, held, laneMem below⟩
  have place (call : Call ℕ n) (lane : ℕ) {byte : ℕ}
      (inElement : byte < output.toNats.span.sizeofValue) :
      output.toNats.span.ptr id call.dataIdx + lane * output.toNats.span.sizeofValue + byte ∈
        output.toNats.cell (call.dataIdx.rAssign (call.dataIdx.back + lane)) := by
    unfold Output.cell
    rw [MdSpan.ptr_rAssign]
    exact ⟨Nat.le_add_right _ _, Nat.add_lt_add_left inElement _⟩
  have stored : ∀ call ∈ calls, ∀ memory,
      Assigns ∅ {p : ℕ × ℕ | p.1 < call.width ∧ p.2 < output.toNats.span.sizeofValue}
        (fun p => output.toNats.span.ptr id call.dataIdx +
          p.1 * output.toNats.span.sizeofValue + p.2)
        (fun p => output.toNats.toBytes (output.toNats.pCast (value memory
          (call.dataIdx.rAssign (call.dataIdx.back + p.1)))) p.2)
        memory (transformPack output func inputs memory (Call.ofNats call)) := by
    intro call held memory
    have begin := first call held
    have words := output.storeTo_ofNats (toNats_begin (below begin)) (places _ begin)
      (func.pack inputs memory (Call.ofNats call)) memory
    rw [transformPack, words]
    refine (output.toNats.storeTo_assigns call _ memory).congr_value fun p index => ?_
    rw [computes.lanes memory call begin p.1 index.1 (inside held index.1)]
  have stores := foldl_assigns
    (fun call => {x | ∃ lane < call.width,
      x ∈ reads (call.dataIdx.rAssign (call.dataIdx.back + lane))})
    takes.distinct stored (fun call held first second agree p index => ?_)
    (fun _ _ => Set.disjoint_empty _) (fun _ _ _ _ => Set.notMem_empty _)
    (fun first held second held' different p index => ?_) memory
  · constructor
    · intro idx member byte below
      obtain ⟨call, held, element⟩ := (takes.mem_iff idx).mp member
      obtain ⟨lane, inPack, rfl⟩ := List.mem_map.mp element
      rw [MdSpan.ptr_rAssign]
      exact stores.written (call, (lane, byte)) ⟨held, List.mem_range.mp inPack, below⟩
    · intro address away
      apply stores.other address (Set.notMem_empty _)
      rintro ⟨call, lane, byte⟩ ⟨held, inPack, inElement⟩ rfl
      exact away _ (inside held inPack) (place call lane inElement)
  · have same := computes.determined _ (inside held index.1) first second fun x read =>
      agree x ⟨p.1, index.1, read⟩
    rw [same]
  · have elsewhere {lane : ℕ} (below : lane < second.width) :
        first.dataIdx.rAssign (first.dataIdx.back + p.1) ≠
          second.dataIdx.rAssign (second.dataIdx.back + lane) := by
      intro same
      apply takes.disjoint first held second held' different (laneMem index.1)
      rw [same]
      exact laneMem below
    refine ⟨?_, fun q index' same => ?_⟩
    · rintro ⟨lane, below, read⟩
      have apart := own.apart _ (inside held index.1) _ (inside held' below) (elsewhere below)
      exact Set.disjoint_left.mp apart (place first p.1 index.2) read
    · have apart := own.disjoint (inside held index.1) (inside held' index'.1) (elsewhere index'.1)
      apply Set.disjoint_left.mp apart (place first p.1 index.2)
      rw [same]
      exact place second q.1 index'.2

/-! ## Functors of elements and of packs -/

/-- The bytes of an element of an input. -/
def DataSource.bytesAt {T : Type} (idx : Vec ℕ (n + 1)) : DataSource w T Byte n → Set ℕ
  | .mdSpan span _ =>
      Set.Ico (span.toNats.ptr id idx) (span.toNats.ptr id idx + span.sizeofValue)
  | .linearizedIdxGenerator _ _ => ∅

/-- A call that begins at one of the given indices finds its elements. A generator always does:
its positions are values of the index type. -/
def DataSource.Fits {T : Type} (begins : Set (Vec ℕ (n + 1))) : DataSource w T Byte n → Prop
  | .mdSpan span _ => PlacesFit begins span
  | .linearizedIdxGenerator _ _ => True

/-- A lane is the element that is as many columns further. -/
theorem DataSource.load_eq_get {T : Type} {source : DataSource w T Byte n}
    (fits : source.Fits begins) (below : begins ⊆ elements extents.toNats) (memory : ℕ → Byte)
    {call : Call ℕ n} (begin : call.dataIdx ∈ begins) (laneId : ℕ) :
    source.load memory (Call.ofNats call) laneId =
      source.get memory (call.dataIdx.rAssign (call.dataIdx.back + laneId)) := by
  cases source with
  | mdSpan span fromBytes =>
      have words := toNats_begin (below begin)
      have place : span.ptr BitVec.toNat (Call.ofNats call : Call (BitVec w) n).dataIdx =
          span.toNats.ptr id call.dataIdx := by
        rw [span.ptr_toNats (by rw [words]; exact fits _ begin), words]
      unfold DataSource.load DataSource.get
      dsimp only
      rw [MdSpan.ptr_rAssign, place]
      rfl
  | linearizedIdxGenerator generated toValue =>
      unfold DataSource.load DataSource.get
      dsimp only
      rw [← linearize_ofNats, Vec.ofNats_toNats]
      refine congrArg toValue (congrArg (linearize generated) (funext fun d => ?_))
      change ((call.dataIdx d : ℕ) : BitVec w) + _ =
        ((call.dataIdx.rAssign (call.dataIdx.back + laneId) d : ℕ) : BitVec w)
      by_cases fast : d = Fin.last n
      · rw [fast, rAssign_last, rAssign_last, Nat.cast_add]
        rfl
      · rw [rAssign_of_ne _ _ fast, rAssign_of_ne _ _ fast]
        exact add_zero _

private theorem DataSource.get_congr {T : Type} (source : DataSource w T Byte n)
    {idx : Vec ℕ (n + 1)}
    {first second : ℕ → Byte} (agree : ∀ x ∈ source.bytesAt idx, first x = second x) :
    source.get first idx = source.get second idx := by
  cases source with
  | mdSpan span fromBytes =>
      refine congrArg fromBytes (funext fun byte => agree _ ⟨Nat.le_add_right _ _, ?_⟩)
      exact Nat.add_lt_add_left byte.isLt _
  | linearizedIdxGenerator => rfl

/-- A functor that does the same to every element. -/
inductive TransformFunc.Applies (f : ((j : Fin k) → A j) → U) : TransformFunc A U Byte w n → Prop
  | simd (func : ℕ → ((j : Fin k) → ℕ → A j) → ℕ → U)
      (lanes : ∀ width packs, ∀ laneId < width,
        func width packs laneId = f fun j => packs j laneId) : Applies f (.simd func)
  | scalarFunc : Applies f (.scalarFunc f)

theorem TransformFunc.Applies.computes {f : ((j : Fin k) → A j) → U}
    (applies : TransformFunc.Applies f func) (fits : ∀ j, (inputs j).Fits begins)
    (below : begins ⊆ elements extents.toNats) :
    func.Computes inputs begins extents (fun memory idx => f fun j => (inputs j).get memory idx)
      fun idx => {x | ∃ j, x ∈ (inputs j).bytesAt idx} where
  lanes := by
    intro memory call begin laneId inPack _
    have loaded : (fun j => (inputs j).load memory (Call.ofNats call) laneId) = fun j =>
        (inputs j).get memory (call.dataIdx.rAssign (call.dataIdx.back + laneId)) :=
      funext fun j => DataSource.load_eq_get (fits j) below memory begin laneId
    cases applies with
    | simd func lanes => exact (lanes _ _ laneId inPack).trans (congrArg f loaded)
    | scalarFunc => exact congrArg f loaded
  determined := fun idx _ first second agree =>
    congrArg f (funext fun j => (inputs j).get_congr fun x read => agree x ⟨j, read⟩)

end Kernel

/-! ## Launches -/

/-- How a kernel is launched: the widths that the SIMD algorithm derives, the policies, and
all threads of the grid, listed in any order. -/
structure SimdLaunch (w n : ℕ) where
  simdWidth : ℕ
  numSimdPerFnCall : ℕ
  traverse : Traverse
  layout : Layout
  threadCount : Vec (BitVec w) (n + 1)
  threads : List (Vec (BitVec w) (n + 1))
  positive : ∀ d, 0 < threadCount d
  width : 0 < simdWidth
  perFnCall : 0 < numSimdPerFnCall
  once : threads.Nodup
  order : ∀ idx, idx ∈ threads ↔ idx ∈ box threadCount

namespace SimdLaunch

variable (launch : SimdLaunch w n) (extents : Vec (BitVec w) (n + 1))

/-- The functor calls of one thread. -/
def callsOf (threadIdx : Vec (BitVec w) (n + 1)) (fuel : ℕ) :
    Except Fault (List (Call (BitVec w) n)) :=
  concurrent launch.simdWidth launch.numSimdPerFnCall launch.traverse launch.layout
    ⟨threadIdx, launch.threadCount⟩ extents fuel

/-- The functor calls of every thread come to an end, and whatever the order of all
calls, the memory is as wanted. -/
def Executes (act : (ℕ → Byte) → Call (BitVec w) n → ℕ → Byte)
    (wanted : (ℕ → Byte) → (ℕ → Byte) → Prop) : Prop :=
  ∃ calls : Vec (BitVec w) (n + 1) → List (Call (BitVec w) n),
    (∀ threadIdx ∈ launch.threads,
      Settles (launch.callsOf extents threadIdx) (calls threadIdx)) ∧
    ∀ schedule : List (Call (BitVec w) n), schedule.Perm (launch.threads.flatMap calls) →
      ∀ memory, wanted memory (schedule.foldl act memory)

/-- Where the calls begin. -/
def begins : Set (Vec ℕ (n + 1)) :=
  callBegins launch.simdWidth (remainderBegin launch.simdWidth launch.numSimdPerFnCall
    launch.threadCount.toNats extents.toNats) extents.toNats

/-- No loop of the launch overflows, and there is room for a pack behind the last one. -/
structure Fits : Prop where
  loops : ConcurrentFits launch.simdWidth launch.numSimdPerFnCall launch.traverse launch.layout
    launch.threadCount extents
  room : remainderBegin launch.simdWidth launch.numSimdPerFnCall launch.threadCount.toNats
    extents.toNats + launch.simdWidth ≤ 2 ^ w

/-- The calls of a thread in exact arithmetic. -/
private def exactCalls (threadIdx : Vec ℕ (n + 1)) : List (Call ℕ n) :=
  concurrentCalls launch.simdWidth launch.numSimdPerFnCall launch.traverse launch.layout
    launch.threadCount.toNats extents.toNats threadIdx

variable {launch extents}

theorem begins_subset : launch.begins extents ⊆ elements extents.toNats := fun _ begin => begin.1

/-- A call is determined by its numbers. -/
private theorem ofNats_toNats (call : Call (BitVec w) n) :
    (Call.ofNats ⟨call.dataIdx.toNats, call.width⟩ : Call (BitVec w) n) = call := by
  unfold Call.ofNats
  rw [Vec.ofNats_toNats]

private theorem toNats_ofNats {call : Call ℕ n} (begin : call.dataIdx ∈ launch.begins extents) :
    (⟨(Call.ofNats call : Call (BitVec w) n).dataIdx.toNats, call.width⟩ : Call ℕ n) = call := by
  rw [toNats_begin (begins_subset begin)]

private theorem exactCalls_begin {threadIdx : Vec (BitVec w) (n + 1)}
    (listed : threadIdx ∈ launch.threads) {call : Call ℕ n}
    (held : call ∈ launch.exactCalls extents threadIdx.toNats) :
    call.dataIdx ∈ launch.begins extents :=
  concurrentCalls_begin (toNats_positive launch.positive) launch.width launch.perFnCall
    ((toNats_box launch.threadCount).mapsTo ((launch.order threadIdx).mp listed)) held

/-- All calls of the launch in exact arithmetic take every element once. -/
private theorem takesAll (launch : SimdLaunch w n) (extents : Vec (BitVec w) (n + 1)) :
    TakesAll launch.simdWidth extents.toNats
      ((launch.threads.map Vec.toNats).flatMap (launch.exactCalls extents)) := by
  have numbered := toNats_box launch.threadCount
  have listed (idx : Vec ℕ (n + 1)) :
      idx ∈ launch.threads.map Vec.toNats ↔ idx ∈ threadIdxs launch.threadCount.toNats := by
    rw [List.mem_map]
    constructor
    · rintro ⟨idx, member, rfl⟩
      exact numbered.mapsTo ((launch.order idx).mp member)
    · intro member
      obtain ⟨idx, inside, rfl⟩ := numbered.surjOn member
      exact ⟨idx, (launch.order idx).mpr inside, rfl⟩
  exact (concurrent_calls (toNats_positive launch.positive) launch.width launch.perFnCall
    launch.traverse launch.layout extents.toNats).takesAll launch.width
      (launch.once.map Vec.toNats_injective) listed

/-- What any calls that take every element once do is done by a launch that fits. -/
theorem Fits.executes (fits : launch.Fits extents)
    {act : (ℕ → Byte) → Call (BitVec w) n → ℕ → Byte} {wanted : (ℕ → Byte) → (ℕ → Byte) → Prop}
    (done : ∀ schedule : List (Call ℕ n), TakesAll launch.simdWidth extents.toNats schedule →
      (∀ call ∈ schedule, call.dataIdx ∈ launch.begins extents) → ∀ memory, wanted memory
        (schedule.foldl (fun memory call => act memory (Call.ofNats call)) memory)) :
    launch.Executes extents act wanted := by
  refine ⟨fun threadIdx => (launch.exactCalls extents threadIdx.toNats).map Call.ofNats,
    fun threadIdx listed => ?_, fun schedule order memory => ?_⟩
  · exact concurrent_words launch.positive launch.width fits.room launch.perFnCall fits.loops
      ((launch.order threadIdx).mp listed)
  · let numbers : List (Call ℕ n) :=
      schedule.map fun call => ⟨call.dataIdx.toNats, call.width⟩
    have words : schedule = numbers.map Call.ofNats := by
      rw [List.map_map]
      exact (List.map_id _).symm.trans
        (List.map_congr_left fun call _ => (ofNats_toNats call).symm)
    have listed : (launch.threads.flatMap fun threadIdx =>
        (launch.exactCalls extents threadIdx.toNats).map Call.ofNats).map
          (fun call : Call (BitVec w) n => (⟨call.dataIdx.toNats, call.width⟩ : Call ℕ n)) =
        (launch.threads.map Vec.toNats).flatMap (launch.exactCalls extents) := by
      rw [List.map_flatMap, List.flatMap_map]
      refine List.flatMap_congr fun threadIdx member => ?_
      rw [List.map_map]
      exact (List.map_congr_left fun call held =>
        toNats_ofNats (exactCalls_begin member held)).trans (List.map_id _)
    have order : numbers.Perm ((launch.threads.map Vec.toNats).flatMap
        (launch.exactCalls extents)) := listed ▸ order.map _
    rw [words, List.foldl_map]
    refine done numbers ((launch.takesAll extents).perm order) (fun call held => ?_) memory
    obtain ⟨threadIdx, member, held⟩ := List.mem_flatMap.mp (order.mem_iff.mp held)
    obtain ⟨words, listed, rfl⟩ := List.mem_map.mp member
    exact exactCalls_begin listed held

end SimdLaunch

section Kernels

variable {extents : Vec (BitVec w) (n + 1)} {output : Output (BitVec w) U Byte n}
  {func : TransformFunc A U Byte w n} {inputs : (j : Fin k) → DataSource w (A j) Byte n}
  {launch : SimdLaunch w n}

/-- **Transform.** Whatever the order of the calls, the policies, the SIMD width and the packs
per call: if the loops do not overflow, and the calls find where they begin, then every element
of the output becomes the function of the inputs at its index, and no other byte is written. An
input may be the output itself. -/
theorem simdTransformKernel_transforms {f : ((j : Fin k) → A j) → U}
    (applies : TransformFunc.Applies f func) (fits : launch.Fits extents)
    (sources : ∀ j, (inputs j).Fits (launch.begins extents))
    (places : PlacesFit (launch.begins extents) output.span)
    (own : OwnElements extents.toNats output.toNats
      fun idx => {x | ∃ j, x ∈ (inputs j).bytesAt idx}) :
    launch.Executes extents (transformPack output func inputs) fun before after =>
      Transformed extents.toNats output.toNats
        (fun idx => f fun j => (inputs j).get before idx) before after :=
  fits.executes fun _ takes first memory =>
    transformPack_transforms takes first SimdLaunch.begins_subset
      (applies.computes sources SimdLaunch.begins_subset) places own memory

/-- **Stencils.** A stencil functor may look at other elements, as long as these are not
elements of the output. -/
theorem simdTransformKernel_stencil
    {stencil : (ℕ → Byte) → Call (BitVec w) n → ℕ → U}
    (element : (ℕ → Byte) → Vec ℕ (n + 1) → U) (looksAt : Vec ℕ (n + 1) → Set ℕ)
    (lanes : ∀ memory (call : Call ℕ n), call.dataIdx ∈ launch.begins extents →
      ∀ laneId < call.width,
        call.dataIdx.rAssign (call.dataIdx.back + laneId) ∈ elements extents.toNats →
          stencil memory (Call.ofNats call) laneId =
            element memory (call.dataIdx.rAssign (call.dataIdx.back + laneId)))
    (determined : ∀ idx ∈ elements extents.toNats, ∀ first second : ℕ → Byte,
      (∀ x ∈ looksAt idx, first x = second x) → element first idx = element second idx)
    (fits : launch.Fits extents) (places : PlacesFit (launch.begins extents) output.span)
    (own : OwnElements extents.toNats output.toNats looksAt) :
    launch.Executes extents (transformPack output (.stencilFunc stencil) inputs)
      fun before after =>
        Transformed extents.toNats output.toNats (element before) before after :=
  fits.executes fun _ takes first memory =>
    transformPack_transforms takes first SimdLaunch.begins_subset ⟨lanes, determined⟩ places own
      memory

/-- **Fill.** Every element gets the value. -/
theorem simdFillKernel_fills (value : U)
    (within : ∀ d, extents.toNats d ≤ output.toNats.span.extents d)
    (nested : Nested output.toNats.span.extents output.toNats.span.getPitches)
    (fits : launch.Fits extents) (places : PlacesFit (launch.begins extents) output.span) :
    launch.Executes extents (fillPack output value) fun before after =>
      Transformed extents.toNats output.toNats (fun _ => value) before after := by
  have own : OwnElements extents.toNats output.toNats fun _ => ∅ :=
    ⟨within, nested, fun _ _ _ _ _ => Set.disjoint_empty _⟩
  have computes : TransformFunc.Computes (.scalarFunc fun _ => value)
      (nofun : (j : Fin 0) → DataSource w Empty Byte n) (launch.begins extents) extents
        (fun _ _ => value) fun _ => ∅ :=
    ⟨fun _ _ _ _ _ _ => rfl, fun _ _ _ _ _ => rfl⟩
  exact fits.executes fun _ takes first memory =>
    transformPack_transforms takes first SimdLaunch.begins_subset computes places own memory

/-! ## The generator of positions -/

section Positions

variable {T : Type} [AddCommMonoidWithOne T] {output : Output (BitVec w) T Byte n}
  {schedule : List (Call ℕ n)}

end Positions

end Kernels

/-! ## Examples of use -/

/-- Words in little endian order. -/
def wordOf (bytes : Fin 4 → ℕ) : ℕ :=
  bytes 0 + 256 * (bytes 1 + 256 * (bytes 2 + 256 * bytes 3))

/-- Two rows of five words. -/
def fiveWords : Output (BitVec 32) ℕ ℕ 1 :=
  ⟨(machineAlloc 4 32 ![2, 5] 0).2, ℕ, id, fun value byte => value / 256 ^ byte % 256⟩

/-- The elements of the two rows. -/
def twoByFive : Vec (BitVec 32) 2 := ![2, 5]

theorem fiveWords_own (reads : Vec ℕ 2 → Set ℕ)
    (apart : ∀ idx ∈ elements twoByFive.toNats, ∀ other ∈ elements twoByFive.toNats, idx ≠ other →
      Disjoint (fiveWords.toNats.cell idx) (reads other)) :
    OwnElements twoByFive.toNats fiveWords.toNats reads :=
  ⟨by decide, by decide, apart⟩

theorem fiveWords_disjoint {idx other : Vec ℕ 2} (inside : idx ∈ elements twoByFive.toNats)
    (inside' : other ∈ elements twoByFive.toNats) (different : idx ≠ other) :
    Disjoint (fiveWords.toNats.cell idx) (fiveWords.toNats.cell other) :=
  (fiveWords_own (fun _ => ∅) fun _ _ _ _ _ => Set.disjoint_empty _).disjoint inside inside'
    different

/-- All places of the two rows are small. -/
theorem fiveWords_places {begins : Set (Vec ℕ 2)} (below : begins ⊆ elements twoByFive.toNats) :
    PlacesFit begins fiveWords.span := by
  intro idx begin
  have last : offset fiveWords.span.toNats.getPitches ![1, 4] < 2 ^ 32 := by decide
  refine .inr ((Math.Strides.offset_mono _ fun d => ?_).trans_lt last)
  have bound : ∀ d, twoByFive.toNats d = (![1, 4] : Fin 2 → ℕ) d + 1 := by decide
  exact Nat.le_of_lt_succ ((below begin d).trans_eq (bound d))

/-- All indices of a box. -/
private def allIdxs (threadCount : Vec (BitVec w) (n + 1)) : List (Vec (BitVec w) (n + 1)) :=
  (ndIdxs threadCount.toNats).map Vec.ofNats

private theorem mem_allIdxs {threadCount idx : Vec (BitVec w) (n + 1)} :
    idx ∈ allIdxs threadCount ↔ idx ∈ box threadCount := by
  unfold allIdxs
  rw [List.mem_map]
  constructor
  · rintro ⟨number, listed, rfl⟩
    have inside : number ∈ threadIdxs threadCount.toNats := mem_ndIdxs.mp listed
    intro d
    rw [BitVec.lt_def]
    exact (Nat.mod_le _ _).trans_lt (inside d)
  · intro inside
    exact ⟨idx.toNats, mem_ndIdxs.mpr ((toNats_box threadCount).mapsTo inside),
      Vec.ofNats_toNats idx⟩

private theorem threeThreads_positive : ∀ d, 0 < (![1, 3] : Vec (BitVec 32) 2) d := by decide

private theorem threeThreads_once : (allIdxs (![1, 3] : Vec (BitVec 32) 2)).Nodup := by decide

/-- Three threads with packs of two elements. -/
private def threeThreads : SimdLaunch 32 1 where
  simdWidth := 2
  numSimdPerFnCall := 1
  traverse := .flat
  layout := .contiguous
  threadCount := ![1, 3]
  threads := allIdxs ![1, 3]
  positive := threeThreads_positive
  width := Nat.two_pos
  perFnCall := Nat.one_pos
  once := threeThreads_once
  order := fun _ => mem_allIdxs

private theorem threeThreads_fit : threeThreads.Fits twoByFive := by
  refine ⟨?_, by decide⟩
  rw [ConcurrentFits, if_pos (by decide)]
  refine ⟨by decide, by decide, ?_, by decide, .inr (by decide)⟩
  rw [PacksFit, if_pos (by decide)]
  exact ⟨by decide, .inr (by decide)⟩

private theorem threeThreads_places : PlacesFit (threeThreads.begins twoByFive) fiveWords.span :=
  fiveWords_places SimdLaunch.begins_subset

/-- The positions of the elements are added to the elements. -/
theorem simdTransformKernel_transforms_inPlace :
    threeThreads.Executes twoByFive
        (transformPack fiveWords (.scalarFunc fun x : Fin 2 → ℕ => x 0 + x 1)
          ![.mdSpan fiveWords.span wordOf, .linearizedIdxGenerator twoByFive BitVec.toNat])
        fun before after =>
      Transformed twoByFive.toNats fiveWords.toNats (fun idx =>
        wordOf (fun byte => before (fiveWords.toNats.span.ptr id idx + byte)) +
          ((linearize twoByFive.toNats idx : ℕ) : BitVec 32).toNat) before after := by
  refine simdTransformKernel_transforms .scalarFunc threeThreads_fit (fun j => ?_)
    threeThreads_places (fiveWords_own _ ?_)
  · fin_cases j
    · exact threeThreads_places
    · trivial
  · intro idx inside other inside' different
    apply Set.disjoint_left.mpr
    rintro x cell ⟨j, read⟩
    fin_cases j
    · exact Set.disjoint_left.mp (fiveWords_disjoint inside inside' different) cell read
    · exact read

/-- An element of another buffer and its right neighbour are added. -/
theorem simdTransformKernel_stencil_neighbour :
    threeThreads.Executes twoByFive (transformPack fiveWords
        (.stencilFunc fun memory call laneId =>
          memory (1000 + 6 * (call.dataIdx 0).toNat + (call.dataIdx.back.toNat + laneId)) +
            memory (1001 + 6 * (call.dataIdx 0).toNat + (call.dataIdx.back.toNat + laneId)))
        (nofun : (j : Fin 0) → DataSource 32 Empty ℕ 1)) fun before after =>
      Transformed twoByFive.toNats fiveWords.toNats (fun idx =>
        before (1000 + 6 * idx 0 + idx.back) + before (1001 + 6 * idx 0 + idx.back))
          before after := by
  refine simdTransformKernel_stencil
    (fun memory idx => memory (1000 + 6 * idx 0 + idx.back) + memory (1001 + 6 * idx 0 + idx.back))
    (fun _ => Set.Ici 1000) (fun memory call begin laneId _ _ => ?_)
    (fun idx _ first second agree => ?_) threeThreads_fit threeThreads_places
    (fiveWords_own _ fun idx inside _ _ _ => ?_)
  · have words := toNats_begin (SimdLaunch.begins_subset begin)
    have row : ((Call.ofNats call : Call (BitVec 32) 1).dataIdx 0).toNat = call.dataIdx 0 :=
      congrFun words 0
    have column : (Call.ofNats call : Call (BitVec 32) 1).dataIdx.back.toNat = call.dataIdx.back :=
      congrFun words 1
    rw [row, column, rAssign_back, rAssign_of_ne _ _ (by decide : (0 : Fin 2) ≠ Fin.last 1)]
  · rw [agree _ (Set.mem_Ici.mpr (by omega)), agree _ (Set.mem_Ici.mpr (by omega))]
  · have within : ∀ d, idx d < fiveWords.toNats.span.extents d := inside
    have last : fiveWords.toNats.span.data + fiveWords.toNats.span.extents 0 *
      fiveWords.toNats.span.getPitches 0 = 64 := rfl
    apply Set.disjoint_left.mpr
    intro x cell far
    have before := (fiveWords.toNats.cell_subset (by decide) within cell).2
    rw [last] at before
    exact absurd (Set.mem_Ici.mp far) (by omega)

theorem simdFillKernel_fills_fiveWords :
    threeThreads.Executes twoByFive (fillPack fiveWords 7) fun before after =>
      Transformed twoByFive.toNats fiveWords.toNats (fun _ => 7) before after :=
  simdFillKernel_fills 7 (by decide) (by decide) threeThreads_fit threeThreads_places

end Alpaka
