import Mathlib.Algebra.Order.Ring.Int
import Alpaka.Host.SharedStorage

/-! # What requests for shared memory return

A variable gets bytes of its own, and later requests for its id find it again if and
only if they ask for as many bytes as the first one
(`Alpaka.SharedStorage.allocVar_sound_iff`). The address of dynamic memory is counted
back from its end by one element only, so that its bytes are its own if and only if
what lies behind leaves room for the others
(`Alpaka.SharedStorage.allocDynamic_exclusive_iff`).
-/

namespace Alpaka.SharedStorage

open Math (Settles)
open Math.Loop (Fault)

variable {config : Config} {storage : Storage} {chunks : List Chunk}
  {answers : List (Request × ℤ)}

namespace Holds

/-- There is one chunk for an id. -/
theorem chunk_unique (holds : Holds config storage chunks answers) {first second : Chunk}
    (member : first ∈ chunks) (member' : second ∈ chunks)
    (same : first.request.id = second.request.id) : first = second := by
  have symmetric : Std.Symm fun first second : Chunk => first.request.id ≠ second.request.id :=
    ⟨fun _ _ => Ne.symm⟩
  by_contra different
  exact holds.distinct.forall member member' different same

/-- Of two chunks one lies in front of the other. -/
theorem chunks_apart (holds : Holds config storage chunks answers) {first second : Chunk}
    (member : first ∈ chunks) (member' : second ∈ chunks)
    (different : first.request.id ≠ second.request.id) :
    first.stop ≤ second.header ∨ second.stop ≤ first.header := by
  have symmetric : Std.Symm fun first second : Chunk =>
      first.stop ≤ second.header ∨ second.stop ≤ first.header := ⟨fun _ _ => Or.symm⟩
  have either : chunks.Pairwise fun first second =>
      first.stop ≤ second.header ∨ second.stop ≤ first.header := holds.chain.pairwise.imp .inl
  exact either.forall member member' fun same => different (same ▸ rfl)

/-- A chunk lies in front of or behind every header. -/
theorem header_apart (holds : Holds config storage chunks answers) {chunk other : Chunk}
    (member : chunk ∈ chunks) (member' : other ∈ chunks) :
    chunk.stop ≤ other.header ∨ other.header + config.metaDataSize ≤ chunk.start := by
  have here := holds.chain.bounds member
  have there := holds.chain.bounds member'
  by_cases same : chunk.request.id = other.request.id
  · obtain rfl := holds.chunk_unique member member' same
    exact .inr here.2.1
  · have := holds.chunks_apart member member' same
    omega

/-- The chunk of an id belongs to the first request for it. -/
theorem chunk_first (holds : Holds config storage chunks answers) {chunk : Chunk}
    (member : chunk ∈ chunks) {before after : List (Request × ℤ)} {answer : Request × ℤ}
    (split : answers = before ++ answer :: after)
    (first : ∀ earlier ∈ before, earlier.1.id ≠ answer.1.id)
    (same : chunk.request.id = answer.1.id) : chunk.request = answer.1 := by
  obtain ⟨before', data, after', split', first'⟩ := holds.requested chunk member
  have found : answers.find? (fun other => other.1.id = answer.1.id) = some answer := by
    refine List.find?_eq_some_iff_append.mpr
      ⟨by simp, before, after, split, fun earlier inside => ?_⟩
    simpa using first earlier inside
  have found' : answers.find? (fun other => other.1.id = answer.1.id) =
      some (chunk.request, data) := by
    refine List.find?_eq_some_iff_append.mpr ⟨by simpa using same, before', after', split',
      fun earlier inside => ?_⟩
    simpa only [← same, Bool.not_eq_true', decide_eq_false_iff_not] using first' earlier inside
  exact congrArg Prod.fst (Option.some.inj (found'.symm.trans found))

/-- An id that was not requested is not found. -/
theorem absent (holds : Holds config storage chunks answers) {id : ℕ}
    (never : ∀ answer ∈ answers, answer.1.id ≠ id) (size : ℕ) :
    Settles (fun fuel => getVarPtr config size id fuel storage) none := by
  have looked := holds.chain.getVarPtr_settles size id
  have missing : chunks.find? (fun chunk => chunk.request.id = id) = none := by
    refine List.find?_eq_none.mpr fun chunk member => ?_
    obtain ⟨before, data, after, split, _⟩ := holds.requested chunk member
    have inside : (chunk.request, data) ∈ answers := by
      rw [split]
      exact List.mem_append_right _ List.mem_cons_self
    simpa using never _ inside
  rw [missing] at looked
  exact looked

end Holds

/-! ## Static variables -/

/-- What is expected of the answers to requests for variables. -/
structure Sound (config : Config) (storage : Storage) (chunks : List Chunk)
    (answers : List (Request × ℤ)) : Prop where
  first : ∀ before answer after, answers = before ++ answer :: after →
    (∀ earlier ∈ before, earlier.1.id ≠ answer.1.id) →
      (answer.1.var.align : ℤ) ∣ answer.2 ∧ (config.base : ℤ) ≤ answer.2 ∧
        answer.2 + answer.1.var.size ≤ (config.base + config.totalSharedBytes : ℤ)
  repeated : ∀ answer ∈ answers, ∀ other ∈ answers, answer.1.id = other.1.id →
    answer.2 = other.2
  apart : ∀ answer ∈ answers, ∀ other ∈ answers, answer.1.id ≠ other.1.id →
    answer.2 + answer.1.var.size ≤ other.2 ∨ other.2 + other.1.var.size ≤ answer.2
  headers : ∀ answer ∈ answers, ∀ chunk ∈ chunks,
    answer.2 + answer.1.var.size ≤ (config.base + chunk.header : ℤ) ∨
      (config.base + chunk.header + config.metaDataSize : ℤ) ≤ answer.2
  absent : ∀ id, (∀ answer ∈ answers, answer.1.id ≠ id) → ∀ size,
    Settles (fun fuel => getVarPtr config size id fuel storage) none

/-- All requests for an id are for as many bytes. -/
def SameSizes (vars : List Var) : Prop :=
  ∀ first ∈ vars, ∀ second ∈ vars, first.id = second.id → first.size = second.size

section Static

variable {vars : List Var}

/-- With the sizes of the first requests, answers are the begins of chunks. -/
private theorem answer_start (holds : Holds config storage chunks answers)
    (requested : answers.map Prod.fst = vars.map .allocVar) (sizes : SameSizes vars)
    {answer : Request × ℤ} (answered : answer ∈ answers) :
    ∃ chunk ∈ chunks, chunk.request.id = answer.1.id ∧ answer.2 = config.base + chunk.start ∧
      answer.2 + answer.1.var.size = config.base + chunk.stop := by
  have isVar {other : Request × ℤ} (member : other ∈ answers) :
      ∃ var ∈ vars, Request.allocVar var = other.1 := by
    have inside := List.mem_map_of_mem (f := Prod.fst) member
    rw [requested] at inside
    exact List.mem_map.mp inside
  obtain ⟨chunk, member, same, address⟩ := holds.answered answer answered
  obtain ⟨before, data, after, split, _⟩ := holds.requested chunk member
  have there : (chunk.request, data) ∈ answers := by
    rw [split]
    exact List.mem_append_right _ List.mem_cons_self
  obtain ⟨var, inVars, isAnswer⟩ := isVar answered
  obtain ⟨first, inVars', isFirst⟩ := isVar there
  have size : chunk.request.numBytes = answer.1.var.size := by
    rw [← isAnswer, ← show Request.allocVar first = chunk.request from isFirst] at same ⊢
    exact sizes first inVars' var inVars same
  have bytes := (holds.chain.bounds member).2.2.1
  unfold addressAt at address
  exact ⟨chunk, member, same, by omega, by omega⟩

private theorem sound_of_sizes (holds : Holds config storage chunks answers)
    (requested : answers.map Prod.fst = vars.map .allocVar) (sizes : SameSizes vars)
    (fits : storage.allocdBytes ≤ config.totalSharedBytes) :
    Sound config storage chunks answers where
  first := fun before answer after split first => by
    have answered : answer ∈ answers := by
      rw [split]
      exact List.mem_append_right _ List.mem_cons_self
    obtain ⟨chunk, member, same, start, stop⟩ := answer_start holds requested sizes answered
    obtain ⟨_, _, _, inside, aligned⟩ := holds.chain.bounds member
    rw [holds.chunk_first member split first same] at aligned
    refine ⟨?_, by omega, by omega⟩
    rw [start, ← Int.natCast_add]
    exact Int.natCast_dvd_natCast.mpr aligned
  repeated := fun answer answered other answered' same => by
    obtain ⟨chunk, member, id, start, _⟩ := answer_start holds requested sizes answered
    obtain ⟨chunk', member', id', start', _⟩ := answer_start holds requested sizes answered'
    obtain rfl := holds.chunk_unique member member' (id.trans (same.trans id'.symm))
    exact start.trans start'.symm
  apart := fun answer answered other answered' different => by
    obtain ⟨chunk, member, id, start, stop⟩ := answer_start holds requested sizes answered
    obtain ⟨chunk', member', id', start', stop'⟩ := answer_start holds requested sizes answered'
    have := holds.chunks_apart member member' fun same => different (id.symm.trans (same.trans id'))
    have := holds.chain.bounds member
    have := holds.chain.bounds member'
    omega
  headers := fun answer answered chunk member => by
    obtain ⟨chunk', member', _, start, stop⟩ := answer_start holds requested sizes answered
    have := holds.header_apart member' member
    omega
  absent := fun _ never => holds.absent never

private theorem sizes_of_sound (holds : Holds config storage chunks answers)
    (requested : answers.map Prod.fst = vars.map .allocVar)
    (sound : Sound config storage chunks answers) : SameSizes vars := by
  intro first inVars second inVars' same
  have answered {var : Var} (inside : var ∈ vars) :
      ∃ answer ∈ answers, answer.1 = .allocVar var := by
    have member : Request.allocVar var ∈ answers.map Prod.fst := by
      rw [requested]
      exact List.mem_map_of_mem inside
    exact List.mem_map.mp member
  obtain ⟨answer, inAnswers, isFirst⟩ := answered inVars
  obtain ⟨other, inAnswers', isSecond⟩ := answered inVars'
  have ids : answer.1.id = other.1.id := by
    rw [isFirst, isSecond]
    exact same
  obtain ⟨chunk, member, id, address⟩ := holds.answered answer inAnswers
  obtain ⟨chunk', member', id', address'⟩ := holds.answered other inAnswers'
  obtain rfl := holds.chunk_unique member member' (id.trans (ids.trans id'.symm))
  have data := sound.repeated answer inAnswers other inAnswers' ids
  rw [address, address', isFirst, isSecond] at data
  unfold addressAt at data
  change (config.base + chunk.stop - first.size : ℤ) =
    config.base + chunk.stop - second.size at data
  omega

/-- **Static variables.** The answers to requests that fit are what is expected of them
if and only if all requests for an id are for as many bytes. -/
theorem allocVar_sound_iff (config : Config) (headers : ℕ → MetaData) {vars : List Var}
    (fits : endOf 0 (layout config (vars.map .allocVar)) ≤ config.totalSharedBytes) :
    ∃ answers storage,
      Settles (fun fuel => run config (vars.map .allocVar) fuel ([], ⟨headers, 0⟩))
        (answers, storage) ∧
      answers.map Prod.fst = vars.map .allocVar ∧
      Chain config storage.headers 0 (layout config (vars.map .allocVar)) storage.allocdBytes ∧
      (Sound config storage (layout config (vars.map .allocVar)) answers ↔ SameSizes vars) := by
  obtain ⟨answers, storage, settles, holds, requested⟩ :=
    (Holds.initial config headers).run (vars.map .allocVar)
  refine ⟨answers, storage, settles, requested, holds.chain, sizes_of_sound holds requested,
    fun sizes => sound_of_sizes holds requested sizes ?_⟩
  rw [← holds.chain.endOf_eq]
  exact fits

/-- Three variables, one of them requested twice. -/
theorem allocVar_sound_iff_three :
    let config : Config := ⟨4100, 4, 65536⟩
    let vars : List Var := [⟨7, 4, 2⟩, ⟨8, 24, 3⟩, ⟨7, 4, 2⟩, ⟨9, 1, 0⟩]
    ∃ answers storage,
      Settles (fun fuel => run config (vars.map .allocVar) fuel ([], ⟨fun _ => ⟨0, 0⟩, 0⟩))
        (answers, storage) ∧
      answers.map Prod.fst = vars.map .allocVar ∧
      Chain config storage.headers 0 (layout config (vars.map .allocVar)) storage.allocdBytes ∧
      (Sound config storage (layout config (vars.map .allocVar)) answers ↔ SameSizes vars) :=
  allocVar_sound_iff ⟨4100, 4, 65536⟩ (fun _ => ⟨0, 0⟩) (by decide)

set_option maxRecDepth 8000 in
/-- A second request for an id, for a larger type: the address moves into the header. -/
theorem allocVar_moves :
    let config : Config := ⟨4096, 4, 65536⟩
    let vars : List Var := [⟨7, 4, 2⟩, ⟨7, 8, 3⟩]
    let storage : Storage := ⟨Function.update (fun _ => ⟨0, 0⟩) 0 ⟨7, 20⟩, 20⟩
    let answers : List (Request × ℤ) :=
      [(.allocVar ⟨7, 4, 2⟩, 4112), (.allocVar ⟨7, 8, 3⟩, 4108)]
    Settles (fun fuel => run config (vars.map .allocVar) fuel ([], ⟨fun _ => ⟨0, 0⟩, 0⟩))
        (answers, storage) ∧
      ¬ Sound config storage (layout config (vars.map .allocVar)) answers := by
  dsimp only
  have first : Settles (fun fuel => Request.answer ⟨4096, 4, 65536⟩ (.allocVar ⟨7, 4, 2⟩) fuel
      ⟨fun _ => ⟨0, 0⟩, 0⟩) (4112, ⟨Function.update (fun _ => ⟨0, 0⟩) 0 ⟨7, 20⟩, 20⟩) := by
    refine ⟨1, fun fuel enough => ?_⟩
    obtain ⟨fuel, rfl⟩ := Nat.exists_eq_add_of_le' enough
    rfl
  have second : Settles (fun fuel => Request.answer ⟨4096, 4, 65536⟩ (.allocVar ⟨7, 8, 3⟩) fuel
      ⟨Function.update (fun _ => ⟨0, 0⟩) 0 ⟨7, 20⟩, 20⟩)
        (4108, ⟨Function.update (fun _ => ⟨0, 0⟩) 0 ⟨7, 20⟩, 20⟩) := by
    refine ⟨1, fun fuel enough => ?_⟩
    obtain ⟨fuel, rfl⟩ := Nat.exists_eq_add_of_le' enough
    rfl
  refine ⟨settles_run_cons first (settles_run_cons second (Settles.pure _)), fun sound => ?_⟩
  have same := sound.repeated (.allocVar ⟨7, 4, 2⟩, 4112) (by decide)
    (.allocVar ⟨7, 8, 3⟩, 4108) (by decide) rfl
  exact absurd same (by decide)

end Static

/-! ## Dynamic memory -/

/-- Requests for dynamic memory among requests for other variables. -/
structure DynamicRequests (var : Var) (numBytes : ℕ) (requests : List Request) : Prop where
  present : .allocDynamic var numBytes ∈ requests
  others : ∀ request ∈ requests, request ≠ .allocDynamic var numBytes →
    request.id ≠ var.id ∧ ∃ other, request = .allocVar other

/-- What is expected of the answers to requests for dynamic memory. -/
structure Exclusive (config : Config) (chunks : List Chunk) (answers : List (Request × ℤ))
    (var : Var) (numBytes : ℕ) : Prop where
  aligned : ∀ answer ∈ answers, answer.1 = .allocDynamic var numBytes →
    (var.align : ℤ) ∣ answer.2
  inside : ∀ answer ∈ answers, answer.1 = .allocDynamic var numBytes → ∀ byte : ℤ,
    answer.2 ≤ byte → byte < answer.2 + numBytes →
      (config.base : ℤ) ≤ byte ∧ byte < config.base + config.totalSharedBytes
  headers : ∀ answer ∈ answers, answer.1 = .allocDynamic var numBytes → ∀ byte : ℤ,
    answer.2 ≤ byte → byte < answer.2 + numBytes → ∀ chunk ∈ chunks,
      byte < config.base + chunk.header ∨
        (config.base + chunk.header + config.metaDataSize : ℤ) ≤ byte
  others : ∀ answer ∈ answers, answer.1 = .allocDynamic var numBytes → ∀ byte : ℤ,
    answer.2 ≤ byte → byte < answer.2 + numBytes → ∀ chunk ∈ chunks,
      chunk.request.id ≠ var.id →
        byte < config.base + chunk.start ∨ (config.base + chunk.stop : ℤ) ≤ byte

/-- What is requested beyond one element fits between the end of the chunk and what
lies behind it. -/
def Room (config : Config) (chunks : List Chunk) (var : Var) (numBytes : ℕ) : Prop :=
  ∀ chunk ∈ chunks, chunk.request.id = var.id →
    chunk.stop + numBytes ≤ config.totalSharedBytes + var.size ∧
      ∀ later ∈ chunks, chunk.stop ≤ later.header →
        chunk.stop + numBytes ≤ later.header + var.size

section Dynamic

variable {var : Var} {numBytes : ℕ} {requests : List Request}

/-- The chunk of dynamic memory. -/
private theorem dynamic_chunk (holds : Holds config storage chunks answers)
    (requested : answers.map Prod.fst = requests) (dynamic : DynamicRequests var numBytes requests)
    {chunk : Chunk} (member : chunk ∈ chunks) (same : chunk.request.id = var.id) :
    chunk.request = .allocDynamic var numBytes := by
  obtain ⟨before, data, after, split, _⟩ := holds.requested chunk member
  have inside : chunk.request ∈ requests := by
    rw [← requested, split, List.map_append]
    exact List.mem_append_right _ List.mem_cons_self
  by_contra different
  exact (dynamic.others _ inside different).1 same

private theorem exclusive_of_room (holds : Holds config storage chunks answers)
    (requested : answers.map Prod.fst = requests) (dynamic : DynamicRequests var numBytes requests)
    (elements : var.align ∣ var.size) (whole : var.size ∣ numBytes)
    (room : Room config chunks var numBytes) : Exclusive config chunks answers var numBytes := by
  have chunkOf {answer : Request × ℤ} (answered : answer ∈ answers)
      (isDynamic : answer.1 = .allocDynamic var numBytes) : ∃ chunk ∈ chunks,
        chunk.request.id = var.id ∧ answer.2 + var.size = config.base + chunk.start + numBytes ∧
          chunk.start + numBytes = chunk.stop ∧ var.align ∣ config.base + chunk.start := by
    obtain ⟨chunk, member, same, address⟩ := holds.answered answer answered
    rw [isDynamic] at same address
    have request := dynamic_chunk holds requested dynamic member same
    obtain ⟨_, _, bytes, _, aligned⟩ := holds.chain.bounds member
    rw [request] at bytes aligned
    have bytes' : chunk.start + numBytes = chunk.stop := bytes
    have address' : answer.2 = config.base + chunk.stop - var.size := address
    exact ⟨chunk, member, same, by omega, bytes', aligned⟩
  have behind {answer : Request × ℤ} {start : ℕ} {byte : ℤ}
      (address : answer.2 + var.size = config.base + start + numBytes) (above : answer.2 ≤ byte)
      (below : byte < answer.2 + numBytes) : (config.base + start : ℤ) ≤ byte := by
    have some : 0 < numBytes := by omega
    have := Nat.le_of_dvd some whole
    omega
  refine ⟨fun answer answered isDynamic => ?_, fun answer answered isDynamic byte above below => ?_,
    fun answer answered isDynamic byte above below other member' => ?_,
    fun answer answered isDynamic byte above below other member' different => ?_⟩
  · obtain ⟨chunk, member, same, address, stop, aligned⟩ := chunkOf answered isDynamic
    have sum : (var.align : ℤ) ∣ answer.2 + var.size := by
      rw [address]
      exact_mod_cast aligned.add (elements.trans whole)
    exact (Int.dvd_iff_dvd_of_dvd_add sum).mpr (Int.natCast_dvd_natCast.mpr elements)
  · obtain ⟨chunk, member, same, address, stop, _⟩ := chunkOf answered isDynamic
    have := (room chunk member same).1
    have := behind address above below
    omega
  · obtain ⟨chunk, member, same, address, stop, _⟩ := chunkOf answered isDynamic
    have := behind address above below
    rcases holds.header_apart member member' with later | earlier
    · have := (room chunk member same).2 other member' later
      omega
    · omega
  · obtain ⟨chunk, member, same, address, stop, _⟩ := chunkOf answered isDynamic
    have := behind address above below
    have := holds.chain.bounds member
    have := holds.chain.bounds member'
    rcases holds.chunks_apart member member' fun equal => different (equal.symm.trans same)
      with later | earlier
    · have := (room chunk member same).2 other member' later
      omega
    · omega

private theorem room_of_exclusive (holds : Holds config storage chunks answers)
    (requested : answers.map Prod.fst = requests) (dynamic : DynamicRequests var numBytes requests)
    (fits : storage.allocdBytes ≤ config.totalSharedBytes)
    (exclusive : Exclusive config chunks answers var numBytes) :
    Room config chunks var numBytes := by
  obtain ⟨answer, answered, isDynamic⟩ : ∃ answer ∈ answers,
      answer.1 = .allocDynamic var numBytes := by
    have present := dynamic.present
    rw [← requested] at present
    exact List.mem_map.mp present
  intro chunk member same
  have address : answer.2 = config.base + chunk.stop - var.size := by
    obtain ⟨chunk', member', same', address⟩ := holds.answered answer answered
    rw [isDynamic] at same' address
    rw [holds.chunk_unique member member' (same.trans same'.symm)]
    exact address
  have := holds.chain.bounds member
  constructor
  · by_contra beyond
    have inside := exclusive.inside answer answered isDynamic
      (config.base + config.totalSharedBytes) (by omega) (by omega)
    exact lt_irrefl _ inside.2
  · intro later member' behind
    by_contra beyond
    have outside := exclusive.headers answer answered isDynamic (config.base + later.header)
      (by omega) (by omega) later member'
    have := metaDataSize_pos config
    omega

/-- **Dynamic memory.** The bytes of dynamic memory are its own if and only if what is
requested beyond one element fits in front of what lies behind the chunk. -/
theorem allocDynamic_exclusive_iff (config : Config) (headers : ℕ → MetaData)
    (dynamic : DynamicRequests var numBytes requests) (elements : var.align ∣ var.size)
    (whole : var.size ∣ numBytes)
    (fits : endOf 0 (layout config requests) ≤ config.totalSharedBytes) :
    ∃ answers storage,
      Settles (fun fuel => run config requests fuel ([], ⟨headers, 0⟩)) (answers, storage) ∧
      answers.map Prod.fst = requests ∧
      Chain config storage.headers 0 (layout config requests) storage.allocdBytes ∧
      (Exclusive config (layout config requests) answers var numBytes ↔
        Room config (layout config requests) var numBytes) := by
  obtain ⟨answers, storage, settles, holds, requested⟩ :=
    (Holds.initial config headers).run requests
  refine ⟨answers, storage, settles, requested, holds.chain,
    room_of_exclusive holds requested dynamic ?_,
    exclusive_of_room holds requested dynamic elements whole⟩
  rw [← holds.chain.endOf_eq]
  exact fits

/-- Two elements, whose second one fits in front of the next header. -/
theorem allocDynamic_exclusive_iff_two :
    let config : Config := ⟨4096, 4, 65536⟩
    let requests : List Request := [.allocVar ⟨1, 4, 2⟩, .allocDynamic ⟨2, 4, 2⟩ 8,
      .allocVar ⟨3, 4, 2⟩, .allocDynamic ⟨2, 4, 2⟩ 8]
    ∃ answers storage,
      Settles (fun fuel => run config requests fuel ([], ⟨fun _ => ⟨0, 0⟩, 0⟩))
        (answers, storage) ∧
      answers.map Prod.fst = requests ∧
      Chain config storage.headers 0 (layout config requests) storage.allocdBytes ∧
      (Exclusive config (layout config requests) answers ⟨2, 4, 2⟩ 8 ↔
        Room config (layout config requests) ⟨2, 4, 2⟩ 8) := by
  refine allocDynamic_exclusive_iff ⟨4096, 4, 65536⟩ (fun _ => ⟨0, 0⟩) ⟨by decide, ?_⟩ (by decide)
    (by decide) (by decide)
  intro request member different
  simp only [List.mem_cons, List.not_mem_nil, or_false] at member
  rcases member with rfl | rfl | rfl | rfl
  · exact ⟨by decide, _, rfl⟩
  · exact absurd rfl different
  · exact ⟨by decide, _, rfl⟩
  · exact absurd rfl different

set_option maxRecDepth 8000 in
/-- Four elements and a variable behind them: the second element is the header of the
variable. -/
theorem allocDynamic_overlaps :
    let config : Config := ⟨4096, 4, 65536⟩
    let requests : List Request := [.allocDynamic ⟨1, 4, 2⟩ 16, .allocVar ⟨2, 4, 2⟩]
    let storage : Storage :=
      ⟨Function.update (Function.update (fun _ => ⟨0, 0⟩) 0 ⟨1, 32⟩) 32 ⟨2, 52⟩, 52⟩
    let answers : List (Request × ℤ) :=
      [(.allocDynamic ⟨1, 4, 2⟩ 16, 4124), (.allocVar ⟨2, 4, 2⟩, 4144)]
    Settles (fun fuel => run config requests fuel ([], ⟨fun _ => ⟨0, 0⟩, 0⟩))
        (answers, storage) ∧
      ¬ Exclusive config (layout config requests) answers ⟨1, 4, 2⟩ 16 := by
  dsimp only
  have first : Settles (fun fuel => Request.answer ⟨4096, 4, 65536⟩ (.allocDynamic ⟨1, 4, 2⟩ 16)
      fuel ⟨fun _ => ⟨0, 0⟩, 0⟩) (4124, ⟨Function.update (fun _ => ⟨0, 0⟩) 0 ⟨1, 32⟩, 32⟩) := by
    refine ⟨1, fun fuel enough => ?_⟩
    obtain ⟨fuel, rfl⟩ := Nat.exists_eq_add_of_le' enough
    rfl
  have second : Settles (fun fuel => Request.answer ⟨4096, 4, 65536⟩ (.allocVar ⟨2, 4, 2⟩) fuel
      ⟨Function.update (fun _ => ⟨0, 0⟩) 0 ⟨1, 32⟩, 32⟩)
        (4144, ⟨Function.update (Function.update (fun _ => ⟨0, 0⟩) 0 ⟨1, 32⟩) 32 ⟨2, 52⟩, 52⟩) := by
    refine ⟨2, fun fuel enough => ?_⟩
    obtain ⟨fuel, rfl⟩ := Nat.exists_eq_add_of_le' enough
    rfl
  refine ⟨settles_run_cons first (settles_run_cons second (Settles.pure _)), fun exclusive => ?_⟩
  have outside := exclusive.headers (.allocDynamic ⟨1, 4, 2⟩ 16, 4124) (by decide) rfl 4128
    (by decide) (by decide) ⟨.allocVar ⟨2, 4, 2⟩, 32, 48, 52⟩ (by decide)
  revert outside
  decide

end Dynamic

end Alpaka.SharedStorage
