import Alpaka.Math.Fuel
import Alpaka.Math.Loop
import Alpaka.Vec

/-! # Shared memory of a block on the host

The variables of a block live in one array of bytes. In front of every variable is a
header with its id and the offset behind it; a lookup walks from header to header and
recomputes where each of them begins. The headers form a chain
(`Alpaka.SharedStorage.Chain`), a lookup on a chain terminates
(`Alpaka.SharedStorage.Chain.walk_settles`), and a request keeps it a chain
(`Alpaka.SharedStorage.Holds.answer`).
-/

namespace Alpaka.SharedStorage

open Math (Settles)
open Math.Loop (Fault)

/-- Where the array lies, its size and the alignment that all chunks get. -/
structure Config where
  base : ℕ
  minDataAlignBits : ℕ
  totalSharedBytes : ℕ

namespace Config

variable (config : Config)

def minDataAlignBytes : ℕ := 2 ^ config.minDataAlignBits

/-- A header holds an 8-byte id and a 4-byte offset. -/
def metaDataAlign : ℕ := max config.minDataAlignBytes 8

def metaDataSize : ℕ := divCeil 12 config.metaDataAlign * config.metaDataAlign

end Config

structure MetaData where
  id : ℕ
  offset : ℕ

/-- The headers that were written, by their offsets, and how much is allocated. -/
structure Storage where
  headers : ℕ → MetaData
  allocdBytes : ℕ

/-- A variable: its id and the size and the alignment of its type. -/
structure Var where
  id : ℕ
  size : ℕ
  alignBits : ℕ
  deriving DecidableEq

def Var.align (var : Var) : ℕ := 2 ^ var.alignBits

section Storage

variable (config : Config)

/-- The offset behind a chunk whose begin is aligned. -/
def varChunkEnd (align byteOffset numBytes : ℕ) : ℕ :=
  let ptr := config.base + byteOffset
  let align := max config.minDataAlignBytes align
  let newPtrAdress := (ptr + align - 1) / align * align + numBytes
  newPtrAdress - config.base

/-- A header and the chunk of a variable behind it. -/
def allocChunk (var : Var) (numBytes : ℕ) (storage : Storage) : Storage :=
  let metaEnd := varChunkEnd config config.metaDataAlign storage.allocdBytes config.metaDataSize
  let stop := varChunkEnd config var.align metaEnd numBytes
  ⟨Function.update storage.headers (metaEnd - config.metaDataSize) ⟨var.id, stop⟩, stop⟩

def alloc (var : Var) (storage : Storage) : Storage := allocChunk config var var.size storage

def allocDynamic (var : Var) (numBytes : ℕ) (storage : Storage) : Storage :=
  allocChunk config var numBytes storage

/-- The walk from header to header: the offset behind the variable with an id. -/
def walk (storage : Storage) (id : ℕ) : ℕ → ℕ → Except Fault (Option ℕ)
  | 0, _ => .error .outOfFuel
  | fuel + 1, off =>
      if off < storage.allocdBytes then
        let alignedMetaDataOffset :=
          varChunkEnd config config.metaDataAlign off config.metaDataSize - config.metaDataSize
        let metaData := storage.headers alignedMetaDataOffset
        if metaData.id = id then .ok (some metaData.offset)
        else walk storage id fuel metaData.offset
      else .ok none

/-- The address of a variable whose chunk ends at an offset. -/
def addressAt (size stop : ℕ) : ℤ := config.base + stop - size

/-- The address of the variable with an id, if there is one. -/
def getVarPtr (size id fuel : ℕ) (storage : Storage) : Except Fault (Option ℤ) := do
  let off ← walk config storage id fuel 0
  return off.map (addressAt config size)

def getLatestVarPtr (size : ℕ) (storage : Storage) : ℤ :=
  addressAt config size storage.allocdBytes

end Storage

/-- A request of a kernel, for a variable or for dynamic shared memory. -/
inductive Request
  | allocVar (var : Var)
  | allocDynamic (var : Var) (numBytes : ℕ)
  deriving DecidableEq

namespace Request

def var : Request → Var
  | .allocVar var => var
  | .allocDynamic var _ => var

/-- The bytes of the chunk that a new variable gets. -/
def numBytes : Request → ℕ
  | .allocVar var => var.size
  | .allocDynamic _ numBytes => numBytes

def id (request : Request) : ℕ := request.var.id

def allocate (config : Config) : Request → Storage → Storage
  | .allocVar var, storage => alloc config var storage
  | .allocDynamic var numBytes, storage => SharedStorage.allocDynamic config var numBytes storage

/-- The answer to a request: what was allocated before, or something new. -/
def answer (config : Config) (request : Request) (fuel : ℕ) (storage : Storage) :
    Except Fault (ℤ × Storage) := do
  match ← getVarPtr config request.var.size request.id fuel storage with
  | some data => return (data, storage)
  | none =>
      let storage := request.allocate config storage
      return (getLatestVarPtr config request.var.size storage, storage)

theorem allocate_eq (config : Config) (request : Request) (storage : Storage) :
    request.allocate config storage = allocChunk config request.var request.numBytes storage := by
  cases request with
  | allocVar var => rfl
  | allocDynamic var numBytes => rfl

end Request

/-- A sequence of requests, with the answers. -/
def run (config : Config) (requests : List Request) (fuel : ℕ)
    (begin : List (Request × ℤ) × Storage) : Except Fault (List (Request × ℤ) × Storage) :=
  requests.foldlM (fun state request => do
    let (data, storage) ← request.answer config fuel state.2
    return (state.1 ++ [(request, data)], storage)) begin

/-! ## Chains of headers -/

/-- A header and the chunk behind it. -/
structure Chunk where
  request : Request
  header : ℕ
  start : ℕ
  stop : ℕ
  deriving DecidableEq

variable {config : Config}

/-- A chunk lies behind an offset, its header directly in front of it up to alignment. -/
structure Chunk.Follows (config : Config) (off : ℕ) (chunk : Chunk) : Prop where
  behind : off ≤ chunk.header
  headerEnd : chunk.header + config.metaDataSize =
    varChunkEnd config config.metaDataAlign off config.metaDataSize
  inFront : chunk.header + config.metaDataSize ≤ chunk.start
  aligned : chunk.request.var.align ∣ config.base + chunk.start
  bytes : chunk.start + chunk.request.numBytes = chunk.stop

/-- The chunk that a new variable gets behind an offset. -/
def place (config : Config) (off : ℕ) (request : Request) : Chunk :=
  let metaEnd := varChunkEnd config config.metaDataAlign off config.metaDataSize
  let stop := varChunkEnd config request.var.align metaEnd request.numBytes
  ⟨request, metaEnd - config.metaDataSize, stop - request.numBytes, stop⟩

/-- The offset behind chunks that begin at an offset. -/
def endOf (off : ℕ) (chunks : List Chunk) : ℕ := (chunks.getLast?.map Chunk.stop).getD off

/-- The chunks after one more request: the first one for an id gets a chunk. -/
def extend (config : Config) (chunks : List Chunk) (request : Request) : List Chunk :=
  if ∃ chunk ∈ chunks, chunk.request.id = request.id then chunks
  else chunks ++ [place config (endOf 0 chunks) request]

/-- Where a sequence of requests puts its variables. -/
def layout (config : Config) (requests : List Request) : List Chunk :=
  requests.foldl (extend config) []

/-- The headers from an offset on, up to the end of what is allocated. -/
def Chain (config : Config) (headers : ℕ → MetaData) : ℕ → List Chunk → ℕ → Prop
  | off, [], stop => off = stop
  | off, chunk :: chunks, stop => chunk.Follows config off ∧
      headers chunk.header = ⟨chunk.request.id, chunk.stop⟩ ∧
        Chain config headers chunk.stop chunks stop

theorem metaDataSize_pos (config : Config) : 0 < config.metaDataSize := by
  have align : 0 < config.metaDataAlign := (by decide : 0 < 8).trans_le (Nat.le_max_right _ _)
  refine Nat.mul_pos (Nat.div_pos ?_ align) align
  omega

/-- A chunk begins at an aligned place behind the offset. -/
theorem varChunkEnd_spec (config : Config) (bits off : ℕ) :
    ∃ start ≥ off, 2 ^ bits ∣ config.base + start ∧
      ∀ numBytes, varChunkEnd config (2 ^ bits) off numBytes = start + numBytes := by
  have divides : 2 ^ bits ∣ max config.minDataAlignBytes (2 ^ bits) := by
    rcases le_total config.minDataAlignBytes (2 ^ bits) with smaller | larger
    · rw [max_eq_right smaller]
    · rw [max_eq_left larger]
      exact Nat.pow_dvd_pow 2 ((Nat.pow_le_pow_iff_right (by decide)).mp larger)
  have positive : 0 < max config.minDataAlignBytes (2 ^ bits) :=
    (Nat.two_pow_pos bits).trans_le (Nat.le_max_right _ _)
  have above := le_divCeil_mul positive (config.base + off)
  unfold divCeil at above
  refine ⟨(config.base + off + max config.minDataAlignBytes (2 ^ bits) - 1) /
    max config.minDataAlignBytes (2 ^ bits) * max config.minDataAlignBytes (2 ^ bits) -
      config.base, by omega, ?_, fun numBytes => ?_⟩
  · rw [Nat.add_sub_cancel' (by omega)]
    exact divides.mul_left _
  · unfold varChunkEnd
    dsimp only
    omega

/-- The alignment of headers is a power of two. -/
theorem metaDataAlign_eq (config : Config) : ∃ bits, config.metaDataAlign = 2 ^ bits := by
  rcases le_total config.minDataAlignBytes 8 with smaller | larger
  · exact ⟨3, max_eq_right smaller⟩
  · exact ⟨config.minDataAlignBits, max_eq_left larger⟩

theorem Chunk.Follows.lt {off : ℕ} {chunk : Chunk} (follows : chunk.Follows config off) :
    off < chunk.stop := by
  have := follows.behind
  have := follows.inFront
  have := follows.bytes
  have := metaDataSize_pos config
  omega

namespace Chain

variable {headers other : ℕ → MetaData} {off stop : ℕ} {chunks : List Chunk}

theorem le (chain : Chain config headers off chunks stop) : off ≤ stop := by
  induction chunks generalizing off with
  | nil => exact chain.le
  | cons chunk chunks ih => exact chain.1.lt.le.trans (ih chain.2.2)

theorem endOf_eq (chain : Chain config headers off chunks stop) : endOf off chunks = stop := by
  induction chunks generalizing off with
  | nil => exact chain
  | cons chunk chunks ih =>
      refine Eq.trans ?_ (ih chain.2.2)
      unfold endOf
      rw [List.getLast?_cons]
      cases chunks.getLast? <;> rfl

/-- All chunks lie in front of the end. -/
theorem bounds (chain : Chain config headers off chunks stop) {chunk : Chunk}
    (member : chunk ∈ chunks) :
    off ≤ chunk.header ∧ chunk.header + config.metaDataSize ≤ chunk.start ∧
      chunk.start + chunk.request.numBytes = chunk.stop ∧ chunk.stop ≤ stop ∧
      chunk.request.var.align ∣ config.base + chunk.start := by
  induction chunks generalizing off with
  | nil => cases member
  | cons first chunks ih =>
      obtain rfl | later := List.mem_cons.mp member
      · exact ⟨chain.1.behind, chain.1.inFront, chain.1.bytes, chain.2.2.le, chain.1.aligned⟩
      · obtain ⟨behind, rest⟩ := ih chain.2.2 later
        exact ⟨chain.1.lt.le.trans behind, rest⟩

/-- Chunks do not overlap. -/
theorem pairwise (chain : Chain config headers off chunks stop) :
    chunks.Pairwise fun first second => first.stop ≤ second.header := by
  induction chunks generalizing off with
  | nil => exact List.Pairwise.nil
  | cons first chunks ih =>
      exact List.pairwise_cons.mpr ⟨fun chunk later => (chain.2.2.bounds later).1, ih chain.2.2⟩

/-- Only the headers of the chain matter. -/
theorem congr (chain : Chain config headers off chunks stop)
    (same : ∀ place < stop, other place = headers place) :
    Chain config other off chunks stop := by
  induction chunks generalizing off with
  | nil => exact chain
  | cons chunk chunks ih =>
      obtain ⟨follows, header, rest⟩ := chain
      refine ⟨follows, (same _ ?_).trans header, ih rest⟩
      have := follows.inFront
      have := follows.bytes
      have := rest.le
      have := metaDataSize_pos config
      omega

/-- A chain continued by one chunk. -/
theorem append (chain : Chain config headers off chunks stop) {chunk : Chunk}
    (follows : chunk.Follows config stop)
    (header : headers chunk.header = ⟨chunk.request.id, chunk.stop⟩) :
    Chain config headers off (chunks ++ [chunk]) chunk.stop := by
  induction chunks generalizing off with
  | nil =>
      obtain rfl : off = stop := chain
      exact ⟨follows, header, rfl⟩
  | cons first chunks ih => exact ⟨chain.1, chain.2.1, ih chain.2.2⟩

/-- **Lookup.** The walk over a chain terminates and finds the first chunk with the
id. -/
theorem walk_settles {storage : Storage}
    (chain : Chain config storage.headers off chunks storage.allocdBytes) (id : ℕ) :
    Settles (fun fuel => walk config storage id fuel off)
      ((chunks.find? fun chunk => chunk.request.id = id).map Chunk.stop) := by
  induction chunks generalizing off with
  | nil =>
      obtain rfl : off = storage.allocdBytes := chain
      refine ⟨1, fun fuel enough => ?_⟩
      obtain ⟨fuel, rfl⟩ := Nat.exists_eq_add_of_le' enough
      exact if_neg (lt_irrefl _)
  | cons chunk chunks ih =>
      obtain ⟨follows, header, rest⟩ := chain
      obtain ⟨bound, found⟩ := ih rest
      refine ⟨bound + 1, fun fuel enough => ?_⟩
      obtain ⟨fuel, rfl⟩ : ∃ less, fuel = less + 1 := ⟨fuel - 1, by omega⟩
      have place : varChunkEnd config config.metaDataAlign off config.metaDataSize -
          config.metaDataSize = chunk.header := by
        rw [← follows.headerEnd, Nat.add_sub_cancel]
      have step : walk config storage id (fuel + 1) off = if chunk.request.id = id then
          .ok (some chunk.stop) else walk config storage id fuel chunk.stop := by
        rw [walk, if_pos (follows.lt.trans_le rest.le)]
        simp only [place, header]
      refine step.trans ?_
      by_cases same : chunk.request.id = id
      · rw [if_pos same, List.find?_cons_of_pos (by simpa using same)]
        rfl
      · rw [if_neg same, List.find?_cons_of_neg (by simpa using same)]
        exact found fuel (by omega)

theorem getVarPtr_settles {storage : Storage}
    (chain : Chain config storage.headers 0 chunks storage.allocdBytes) (size id : ℕ) :
    Settles (fun fuel => getVarPtr config size id fuel storage)
      ((chunks.find? fun chunk => chunk.request.id = id).map fun chunk =>
        addressAt config size chunk.stop) := by
  have counted : Settles (fun fuel => getVarPtr config size id fuel storage)
      (((chunks.find? fun chunk => chunk.request.id = id).map Chunk.stop).map
        (addressAt config size)) :=
    (chain.walk_settles id).bind (Settles.pure _)
  rw [Option.map_map] at counted
  exact counted

end Chain

/-! ## Sequences of requests -/

/-- What holds after requests have been answered: every chunk belongs to the first
request for its id, and every answer is the address counted back from the end of the
chunk. -/
structure Holds (config : Config) (storage : Storage) (chunks : List Chunk)
    (answers : List (Request × ℤ)) : Prop where
  chain : Chain config storage.headers 0 chunks storage.allocdBytes
  distinct : chunks.Pairwise fun first second => first.request.id ≠ second.request.id
  answered : ∀ answer ∈ answers, ∃ chunk ∈ chunks, chunk.request.id = answer.1.id ∧
    answer.2 = addressAt config answer.1.var.size chunk.stop
  requested : ∀ chunk ∈ chunks, ∃ before data after,
    answers = before ++ (chunk.request, data) :: after ∧
      ∀ earlier ∈ before, earlier.1.id ≠ chunk.request.id

variable {storage : Storage} {chunks : List Chunk} {answers : List (Request × ℤ)}

theorem Holds.initial (config : Config) (headers : ℕ → MetaData) :
    Holds config ⟨headers, 0⟩ [] [] where
  chain := rfl
  distinct := List.Pairwise.nil
  answered := nofun
  requested := nofun

/-- What was answered earlier stays true with more answers. -/
private theorem Holds.requested_append (holds : Holds config storage chunks answers)
    (later : List (Request × ℤ)) {chunk : Chunk} (member : chunk ∈ chunks) :
    ∃ before data after, answers ++ later = before ++ (chunk.request, data) :: after ∧
      ∀ earlier ∈ before, earlier.1.id ≠ chunk.request.id := by
  obtain ⟨before, data, after, split, first⟩ := holds.requested chunk member
  refine ⟨before, data, after ++ later, ?_, first⟩
  rw [split, List.append_assoc, List.cons_append]

/-- A new chunk follows, and it is the one that is allocated. -/
private theorem place_spec (config : Config) (request : Request) (off : ℕ) :
    (place config off request).Follows config off ∧
      ∀ headers, allocChunk config request.var request.numBytes ⟨headers, off⟩ =
        ⟨Function.update headers (place config off request).header
          ⟨request.id, (place config off request).stop⟩, (place config off request).stop⟩ := by
  obtain ⟨bits, power⟩ := metaDataAlign_eq config
  obtain ⟨header, behind, _, headerEnd⟩ := varChunkEnd_spec config bits off
  rw [← power] at headerEnd
  obtain ⟨start, inFront, aligned, stopEnd⟩ :=
    varChunkEnd_spec config request.var.alignBits (header + config.metaDataSize)
  have placed : place config off request = ⟨request, header, start, start + request.numBytes⟩ := by
    unfold place Var.align
    simp only [headerEnd, stopEnd, Nat.add_sub_cancel]
  rw [placed]
  refine ⟨⟨behind, (headerEnd _).symm, inFront, aligned, rfl⟩, fun headers => ?_⟩
  unfold allocChunk Var.align
  simp only [headerEnd, stopEnd, Nat.add_sub_cancel]
  rfl

/-- **One request.** It is answered, and what holds is kept. -/
theorem Holds.answer (holds : Holds config storage chunks answers) (request : Request) :
    ∃ data next, Settles (fun fuel => request.answer config fuel storage) (data, next) ∧
      Holds config next (extend config chunks request) (answers ++ [(request, data)]) := by
  have looked := holds.chain.getVarPtr_settles request.var.size request.id
  rcases found : chunks.find? fun chunk => chunk.request.id = request.id with - | chunk
  · rw [found] at looked
    have fresh (chunk : Chunk) (member : chunk ∈ chunks) : chunk.request.id ≠ request.id := by
      simpa using List.find?_eq_none.mp found chunk member
    have extended : extend config chunks request =
        chunks ++ [place config storage.allocdBytes request] := by
      unfold extend
      rw [if_neg fun ⟨chunk, member, same⟩ => fresh chunk member same, holds.chain.endOf_eq]
    obtain ⟨follows, allocated⟩ := place_spec config request storage.allocdBytes
    have next := (request.allocate_eq config storage).trans (allocated storage.headers)
    have chunkRequest : (place config storage.allocdBytes request).request = request := rfl
    generalize place config storage.allocdBytes request = chunk
      at follows next extended chunkRequest
    subst chunkRequest
    refine ⟨addressAt config chunk.request.var.size chunk.stop,
      chunk.request.allocate config storage, ?_, ?_⟩
    · have returned : getLatestVarPtr config chunk.request.var.size
          (chunk.request.allocate config storage) =
            addressAt config chunk.request.var.size chunk.stop := by
        rw [next]
        rfl
      rw [← returned]
      exact looked.bind (Settles.pure _)
    · rw [next, extended]
      have chain := holds.chain.congr fun place below =>
        Function.update_of_ne (v := ⟨chunk.request.id, chunk.stop⟩)
          (below.trans_le follows.behind).ne storage.headers
      refine ⟨chain.append follows (Function.update_self _ _ _),
        List.pairwise_append.mpr ⟨holds.distinct, List.pairwise_singleton _ _,
          fun first member second last => ?_⟩, fun answer answered => ?_, fun other inside => ?_⟩
      · rw [List.mem_singleton.mp last]
        exact fresh first member
      · obtain earlier | rfl := List.mem_append.mp answered |>.imp_right List.mem_singleton.mp
        · obtain ⟨other, inside, rest⟩ := holds.answered answer earlier
          exact ⟨other, List.mem_append_left _ inside, rest⟩
        · exact ⟨chunk, List.mem_append_right _ (List.mem_singleton_self _), rfl, rfl⟩
      · obtain earlier | rfl := List.mem_append.mp inside |>.imp_right List.mem_singleton.mp
        · exact holds.requested_append _ earlier
        · refine ⟨answers, _, [], rfl, fun answer answered same => ?_⟩
          obtain ⟨held, inside', id, _⟩ := holds.answered answer answered
          exact fresh held inside' (id.trans same)
  · rw [found] at looked
    have member := List.mem_of_find?_eq_some found
    have same : chunk.request.id = request.id := by simpa using List.find?_some found
    have extended : extend config chunks request = chunks := if_pos ⟨chunk, member, same⟩
    rw [extended]
    refine ⟨addressAt config request.var.size chunk.stop, storage,
      looked.bind (Settles.pure _), holds.chain, holds.distinct, fun answer answered => ?_,
      fun _ inside => holds.requested_append _ inside⟩
    obtain earlier | rfl := List.mem_append.mp answered |>.imp_right List.mem_singleton.mp
    · exact holds.answered answer earlier
    · exact ⟨chunk, member, same, rfl⟩

/-- Requests are answered one after the other. -/
theorem settles_run_cons {request : Request} {requests : List Request} {data : ℤ} {next : Storage}
    {final : List (Request × ℤ) × Storage}
    (first : Settles (fun fuel => request.answer config fuel storage) (data, next))
    (rest : Settles (fun fuel => run config requests fuel (answers ++ [(request, data)], next))
      final) :
    Settles (fun fuel => run config (request :: requests) fuel (answers, storage)) final := by
  have extended : Settles (fun fuel => do
      let (data, storage) ← request.answer config fuel storage
      return (answers ++ [(request, data)], storage)) (answers ++ [(request, data)], next) :=
    first.bind (Settles.pure _)
  exact extended.bind rest

/-- A sequence of requests is answered. -/
theorem Holds.run (holds : Holds config storage chunks answers) (requests : List Request) :
    ∃ answers' storage', Settles (fun fuel => run config requests fuel (answers, storage))
        (answers', storage') ∧
      Holds config storage' (requests.foldl (extend config) chunks) answers' ∧
      answers'.map Prod.fst = answers.map Prod.fst ++ requests := by
  induction requests generalizing storage chunks answers with
  | nil => exact ⟨answers, storage, Settles.pure _, holds, (List.append_nil _).symm⟩
  | cons request requests ih =>
      obtain ⟨data, next, settles, kept⟩ := holds.answer request
      obtain ⟨answers', storage', rest, held, same⟩ := ih kept
      refine ⟨answers', storage', ?_, held, ?_⟩
      · exact settles_run_cons settles rest
      · rw [same, List.map_append, List.append_assoc]
        rfl

end Alpaka.SharedStorage
