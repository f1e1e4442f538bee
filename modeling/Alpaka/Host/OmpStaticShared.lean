import Alpaka.Host.SharedStorageSound
import Alpaka.Math.Interleaving
import Alpaka.Math.SingleRounds

/-! # Shared memory of a team of threads

The threads of a block run in a team and make the same requests for shared memory. A thread
that does not find a variable meets the others at a barrier; one of them allocates the variable,
and behind another barrier all of them take the latest one. However the threads are interleaved,
they get what a single thread would get, a lookup never runs while memory is allocated, and
nobody is held up forever (`Alpaka.OmpStaticShared.answers_sound`).
-/

namespace Alpaka.OmpStaticShared

open Math (Settles)
open Math.Interleaving (Reachable)
open Math.SingleRounds (Stage Team)
open SharedStorage

/-- How far a thread has got with an allocation: it has made room for the header, and for the
variable behind it. -/
inductive Progress
  | fresh
  | headed (metaOffset : ℕ)
  | sized (metaOffset : ℕ)
  deriving DecidableEq

/-- A thread that may be in a lookup, at an offset, or in an allocation. -/
structure Thread where
  lookup : Option ℕ := none
  progress : Progress := .fresh
  answers : List (Request × ℤ) := []

structure Block (numThreads : ℕ) where
  team : Team (Fin numThreads)
  storage : Storage
  threads : Fin numThreads → Thread

variable {numThreads : ℕ}

namespace Block

def start (headers : ℕ → MetaData) : Block numThreads := ⟨.initial, ⟨headers, 0⟩, fun _ => {}⟩

variable (block : Block numThreads) (t : Fin numThreads)

def set (thread : Thread) : Block numThreads :=
  { block with threads := Function.update block.threads t thread }

/-- The thread returns from a request. -/
def answer (request : Request) (data : ℤ) : Block numThreads :=
  block.set t ⟨none, .fresh, (block.threads t).answers ++ [(request, data)]⟩

/-- The thread takes a step between barriers. -/
def advance : Option (Block numThreads) :=
  (block.team.advance t).map fun team => { block with team := team }

end Block

section Steps

variable (config : Config)

/-- A step of `getVarPtr`; without the variable the thread goes on to the first barrier. -/
def lookupStep (request : Request) (off : ℕ) (block : Block numThreads) (t : Fin numThreads) :
    Option (Block numThreads) :=
  if off < block.storage.allocdBytes then
    let alignedMetaDataOffset :=
      varChunkEnd config config.metaDataAlign off config.metaDataSize - config.metaDataSize
    let metaData := block.storage.headers alignedMetaDataOffset
    if metaData.id = request.id then
      some (block.answer t request (addressAt config request.var.size metaData.offset))
    else some (block.set t { block.threads t with lookup := some metaData.offset })
  else (block.set t { block.threads t with lookup := none }).advance t

/-- A step of `alloc` or `allocDynamic`. -/
def allocStep (request : Request) (block : Block numThreads) (t : Fin numThreads) :
    Option (Block numThreads) :=
  match (block.threads t).progress with
  | .fresh =>
      let metaEnd :=
        varChunkEnd config config.metaDataAlign block.storage.allocdBytes config.metaDataSize
      some ({ block with storage := { block.storage with allocdBytes := metaEnd } }.set t
        { block.threads t with progress := .headed (metaEnd - config.metaDataSize) })
  | .headed metaOffset =>
      let stop := varChunkEnd config request.var.align block.storage.allocdBytes request.numBytes
      some ({ block with storage := { block.storage with allocdBytes := stop } }.set t
        { block.threads t with progress := .sized metaOffset })
  | .sized metaOffset =>
      let headers := Function.update block.storage.headers metaOffset
        ⟨request.id, block.storage.allocdBytes⟩
      ({ block with storage := { block.storage with headers := headers } }.set t
        { block.threads t with progress := .fresh }).advance t

/-- The next step of a thread in its requests, if it has not returned from all of them and
nothing holds it up. -/
def step (requests : List Request) (block : Block numThreads) (t : Fin numThreads) :
    Option (Block numThreads) :=
  requests[(block.threads t).answers.length]?.bind fun request =>
    match (block.team.member t).stage with
    | .outside =>
        match (block.threads t).lookup with
        | none => some (block.set t { block.threads t with lookup := some 0 })
        | some off => lookupStep config request off block t
    | .elected => allocStep config request block t
    | .behind =>
        (block.answer t request (getLatestVarPtr config request.var.size block.storage)).advance t
    | _ => block.advance t

end Steps

/-! ## Layouts -/

section Layouts

variable {config : Config} {requests : List Request} {request : Request} {chunks : List Chunk}
  {storage : Storage} {answers : List (Request × ℤ)} {k l : ℕ}

private theorem layout_take_succ (config : Config) (next : requests[k]? = some request) :
    layout config (requests.take (k + 1)) = extend config (layout config (requests.take k))
      request := by
  rw [List.take_add_one, next]
  unfold layout
  rw [List.foldl_append]
  rfl

private theorem prefix_extend (config : Config) (chunks : List Chunk) (request : Request) :
    chunks <+: extend config chunks request := by
  unfold extend
  split
  · exact List.prefix_rfl
  · exact List.prefix_append _ _

private theorem layout_take_mono (config : Config) (requests : List Request) (le : k ≤ l) :
    layout config (requests.take k) <+: layout config (requests.take l) := by
  induction l, le using Nat.le_induction with
  | base => exact List.prefix_rfl
  | succ l _ earlier =>
      cases next : requests[l]? with
      | none =>
          have past := List.getElem?_eq_none_iff.mp next
          rw [List.take_of_length_le past] at earlier
          rwa [List.take_of_length_le (Nat.le_succ_of_le past)]
      | some request =>
          rw [layout_take_succ config next]
          exact earlier.trans (prefix_extend config _ request)

/-- The number of chunks tells which ones there are. -/
theorem layout_take_eq (same : (layout config (requests.take k)).length =
    (layout config (requests.take l)).length) :
    layout config (requests.take k) = layout config (requests.take l) := by
  rcases le_total k l with le | le
  · exact (layout_take_mono config requests le).eq_of_length same
  · exact ((layout_take_mono config requests le).eq_of_length same.symm).symm

private theorem mem_layout {chunk : Chunk} (member : chunk ∈ layout config (requests.take k)) :
    chunk ∈ layout config requests := by
  have whole := layout_take_mono config requests (Nat.le_add_right k requests.length)
  rw [List.take_of_length_le (Nat.le_add_left _ _)] at whole
  exact whole.subset member

/-- What an allocation does to the storage. -/
theorem holds_allocate (holds : Holds config storage chunks answers)
    (fresh : ∀ chunk ∈ chunks, chunk.request.id ≠ request.id) :
    ∃ answers, Holds config (request.allocate config storage) (extend config chunks request)
      answers := by
  obtain ⟨data, next, settles, kept⟩ := holds.answer request
  have looked := holds.chain.getVarPtr_settles request.var.size request.id
  have missing : chunks.find? (fun chunk => chunk.request.id = request.id) = none := by
    refine List.find?_eq_none.mpr fun chunk member => ?_
    simpa using fresh chunk member
  rw [missing] at looked
  have allocated : Settles (fun fuel => request.answer config fuel storage)
      (getLatestVarPtr config request.var.size (request.allocate config storage),
        request.allocate config storage) :=
    looked.bind (Settles.pure _)
  obtain ⟨-, rfl⟩ := Prod.mk.inj (settles.unique allocated)
  exact ⟨_, kept⟩

end Layouts

/-! ## What holds in every order of steps -/

section Invariant

variable (config : Config) (requests : List Request)

/-- An answer is the address counted back from the end of the chunk of its id. -/
def Answered (answer : Request × ℤ) : Prop :=
  ∃ chunk ∈ layout config requests, chunk.request.id = answer.1.id ∧
    answer.2 = addressAt config answer.1.var.size chunk.stop

/-- The chunks of the requests that a thread has returned from. -/
def chunksOf (thread : Thread) : List Chunk :=
  layout config (requests.take thread.answers.length)

/-- The storage during an allocation. -/
def Allocating (base : Storage) (request : Request) : Progress → Storage → Prop
  | .fresh, storage => storage = base
  | .headed metaOffset, storage =>
      let metaEnd := varChunkEnd config config.metaDataAlign base.allocdBytes config.metaDataSize
      metaOffset = metaEnd - config.metaDataSize ∧ storage = ⟨base.headers, metaEnd⟩
  | .sized metaOffset, storage =>
      let metaEnd := varChunkEnd config config.metaDataAlign base.allocdBytes config.metaDataSize
      metaOffset = metaEnd - config.metaDataSize ∧
        storage = ⟨base.headers, varChunkEnd config request.var.align metaEnd request.numBytes⟩

/-- A thread has its answers, and it knows about the chunks. -/
structure Thread.Sound (team : Team (Fin numThreads)) (chunks : List Chunk) (base : Storage)
    (t : Fin numThreads) (thread : Thread) : Prop where
  taken : thread.answers.map Prod.fst = requests.take thread.answers.length
  answered : ∀ answer ∈ thread.answers, Answered config requests answer
  round : (team.member t).round = (chunksOf config requests thread).length
  idle : (team.member t).stage ≠ .elected → thread.progress = .fresh
  missing : (team.member t).stage ≠ .outside →
    ∃ request, requests[thread.answers.length]? = some request ∧
      ∀ chunk ∈ chunksOf config requests thread, chunk.request.id ≠ request.id
  looking : ∀ off, (team.member t).stage = .outside → thread.lookup = some off →
    ∃ before after request, requests[thread.answers.length]? = some request ∧
      chunks = before ++ after ∧ (∀ chunk ∈ before, chunk.request.id ≠ request.id) ∧
      Chain config base.headers off after base.allocdBytes

/-- Behind the allocations that are finished the storage holds a chain. During an allocation
the storage differs from it. -/
structure Block.Sound (chunks : List Chunk) (base : Storage) (block : Block numThreads) : Prop where
  team : block.team.Sound
  reached : ∃ k, chunks = layout config (requests.take k)
  counted : block.team.finished = chunks.length
  holds : ∃ answers, Holds config base chunks answers
  storage : (∀ t, (block.team.member t).stage ≠ .elected) → block.storage = base
  allocating : ∀ t request, (block.team.member t).stage = .elected →
    requests[(block.threads t).answers.length]? = some request →
    Allocating config base request (block.threads t).progress block.storage
  threads : ∀ t, (block.threads t).Sound config requests block.team chunks base t

def Block.Coherent (block : Block numThreads) : Prop :=
  ∃ chunks base, block.Sound config requests chunks base

end Invariant

variable {config : Config} {requests : List Request} {chunks : List Chunk} {base : Storage}
  {block next : Block numThreads} {t : Fin numThreads}

theorem Block.sound_start (config : Config) (requests : List Request) (headers : ℕ → MetaData) :
    (start headers : Block numThreads).Sound config requests [] ⟨headers, 0⟩ where
  team := .initial
  reached := ⟨0, rfl⟩
  counted := rfl
  holds := ⟨[], .initial config headers⟩
  storage := fun _ => rfl
  allocating := fun _ _ => nofun
  threads := fun _ =>
    { taken := rfl
      answered := nofun
      round := rfl
      idle := fun _ => rfl
      missing := fun inside => absurd rfl inside
      looking := fun _ _ => nofun }

/-- A variable that is not there yet gets a chunk behind the others. -/
private theorem extend_eq_append {request : Request}
    (absent : ∀ chunk ∈ chunks, chunk.request.id ≠ request.id) :
    extend config chunks request = chunks ++ [place config (endOf 0 chunks) request] := by
  refine if_neg ?_
  rintro ⟨chunk, member, found⟩
  exact absent chunk member found

namespace Thread.Sound

variable {team : Team (Fin numThreads)} {thread : Thread} {request : Request}

/-- In a round a thread makes a request that has no chunk among those it knows. -/
theorem absent (sound : thread.Sound config requests team chunks base t)
    (inside : (team.member t).stage ≠ .outside)
    (request? : requests[thread.answers.length]? = some request) :
    ∀ chunk ∈ chunksOf config requests thread, chunk.request.id ≠ request.id := by
  obtain ⟨request', request'?, absent⟩ := sound.missing inside
  obtain rfl := Option.some.inj (request'?.symm.trans request?)
  exact absent

private theorem layout_next (sound : thread.Sound config requests team chunks base t)
    (inside : (team.member t).stage ≠ .outside)
    (request? : requests[thread.answers.length]? = some request) :
    layout config (requests.take (thread.answers.length + 1)) = chunksOf config requests thread ++
      [place config (endOf 0 (chunksOf config requests thread)) request] := by
  rw [layout_take_succ config request?]
  exact extend_eq_append (sound.absent inside request?)

end Thread.Sound

namespace Block.Sound

/-- What other threads know does not depend on the thread that takes a step. -/
private theorem thread_congr {team team' : Team (Fin numThreads)} {thread : Thread}
    (sound : thread.Sound config requests team chunks base t)
    (same : team'.member t = team.member t) :
    thread.Sound config requests team' chunks base t where
  taken := sound.taken
  answered := sound.answered
  round := same ▸ sound.round
  idle := same ▸ sound.idle
  missing := same ▸ sound.missing
  looking := same ▸ sound.looking

/-- A step of a thread that keeps the chunks. -/
private theorem update (sound : block.Sound config requests chunks base)
    {team : Team (Fin numThreads)} {storage : Storage} {thread : Thread} (teamSound : team.Sound)
    (others : ∀ j ≠ t, team.member j = block.team.member j)
    (finished : team.finished = block.team.finished)
    (stored : (∀ j, (team.member j).stage ≠ .elected) → storage = base)
    (allocating : ∀ j request, (team.member j).stage = .elected →
      requests[(Function.update block.threads t thread j).answers.length]? = some request →
      Allocating config base request (Function.update block.threads t thread j).progress storage)
    (own : thread.Sound config requests team chunks base t) :
    (⟨team, storage, Function.update block.threads t thread⟩ : Block numThreads).Sound config
      requests chunks base where
  team := teamSound
  reached := sound.reached
  counted := finished.trans sound.counted
  holds := sound.holds
  storage := stored
  allocating := allocating
  threads := fun j => by
    change (Function.update block.threads t thread j).Sound config requests team chunks base j
    by_cases same : j = t
    · subst same
      rwa [Function.update_self]
    · rw [Function.update_of_ne same]
      exact thread_congr (sound.threads j) (others j same)

/-- A step between barriers of a thread that does not allocate. -/
private theorem move (sound : block.Sound config requests chunks base)
    {team : Team (Fin numThreads)} {thread : Thread}
    (advanced : block.team.advance t = some team)
    (notElected : (block.team.member t).stage ≠ .elected)
    (notBehind : (block.team.member t).stage ≠ .behind)
    (answers : thread.answers = (block.threads t).answers) (fresh : thread.progress = .fresh)
    (missing : ∃ request, requests[(block.threads t).answers.length]? = some request ∧
      ∀ chunk ∈ chunksOf config requests (block.threads t), chunk.request.id ≠ request.id) :
    (⟨team, block.storage, Function.update block.threads t thread⟩ : Block numThreads).Sound
      config requests chunks base := by
  obtain ⟨stage, member, inside, finished, alone⟩ :=
    sound.team.advance_inside advanced notElected notBehind
  have own : team.member t = ⟨(block.team.member t).round, stage⟩ := by
    rw [member, Function.update_self]
  have others (j : Fin numThreads) (different : j ≠ t) :
      team.member j = block.team.member j := by
    rw [member, Function.update_of_ne different]
  have before := sound.threads t
  refine sound.update (sound.team.advance advanced) others finished (fun idle => ?_)
    (fun j request elected next => ?_) ?_
  · refine sound.storage fun j => ?_
    by_cases same : j = t
    · exact same ▸ notElected
    · exact others j same ▸ idle j
  · by_cases same : j = t
    · subst same
      rw [Function.update_self, fresh]
      rw [own] at elected
      exact sound.storage (alone elected)
    · rw [Function.update_of_ne same] at next ⊢
      rw [others j same] at elected
      exact sound.allocating j request elected next
  · have chunksSame : chunksOf config requests thread =
        chunksOf config requests (block.threads t) := by
      unfold chunksOf
      rw [answers]
    exact
      { taken := answers ▸ before.taken
        answered := answers ▸ before.answered
        round := by rw [own, chunksSame, before.round]
        idle := fun _ => fresh
        missing := fun _ => by rwa [answers, chunksSame]
        looking := fun off outside => by
          rw [own] at outside
          exact absurd outside inside }

/-- Outside of a round and in an allocation a thread has been through all allocations. -/
theorem chunksOf_eq (sound : block.Sound config requests chunks base)
    (finished : block.team.finished = (block.team.member t).round) :
    chunksOf config requests (block.threads t) = chunks := by
  obtain ⟨k, reached⟩ := sound.reached
  have same := (sound.threads t).round.symm.trans (finished.symm.trans sound.counted)
  rw [reached] at same ⊢
  exact layout_take_eq same

/-- A thread returns from a request without an allocation. -/
private theorem answered_of_mem {thread : Thread} {request : Request} {chunk : Chunk}
    (sound : thread.Sound config requests block.team chunks base t)
    (next : requests[thread.answers.length]? = some request)
    (member : chunk ∈ layout config requests) (same : chunk.request.id = request.id) {data : ℤ}
    (value : data = addressAt config request.var.size chunk.stop) :
    (thread.answers ++ [(request, data)]).map Prod.fst =
        requests.take (thread.answers ++ [(request, data)]).length ∧
      ∀ answer ∈ thread.answers ++ [(request, data)], Answered config requests answer := by
  constructor
  · rw [List.map_append, sound.taken, List.length_append, List.length_singleton,
      List.take_add_one, next]
    rfl
  · intro answer inside
    rcases List.mem_append.mp inside with earlier | last
    · exact sound.answered answer earlier
    · obtain rfl := List.mem_singleton.mp last
      exact ⟨chunk, member, same, value⟩

/-- A thread that finds the chunk of its request returns. -/
private theorem answer_found (sound : block.Sound config requests chunks base) {request : Request}
    {chunk : Chunk} (request? : requests[(block.threads t).answers.length]? = some request)
    (outside : (block.team.member t).stage = .outside)
    (inside : chunk ∈ chunksOf config requests (block.threads t))
    (found : chunk.request.id = request.id) :
    (block.answer t request (addressAt config request.var.size chunk.stop)).Sound config requests
      chunks base := by
  have thread := sound.threads t
  obtain ⟨taken, answered⟩ := answered_of_mem thread request? (mem_layout inside) found rfl
  refine sound.update sound.team (fun _ _ => rfl) rfl sound.storage
    (fun j _ elected => absurd elected (sound.team.not_elected (.inl outside) j))
    ⟨taken, answered, ?_, fun _ => rfl, fun inside => absurd outside inside, fun _ _ looking => ?_⟩
  · rw [thread.round]
    unfold chunksOf
    rw [List.length_append, List.length_singleton, layout_take_succ config request?]
    unfold extend
    rw [if_pos ⟨chunk, inside, found⟩]
  · cases looking

/-- A thread looks on behind chunks of other variables. -/
private theorem look_on (sound : block.Sound config requests chunks base) {request : Request}
    {off : ℕ} {before after : List Chunk}
    (request? : requests[(block.threads t).answers.length]? = some request)
    (split : chunks = before ++ after) (absent : ∀ chunk ∈ before, chunk.request.id ≠ request.id)
    (chain : Chain config base.headers off after base.allocdBytes)
    (outside : (block.team.member t).stage = .outside) :
    (block.set t { block.threads t with lookup := some off }).Sound config requests chunks
      base := by
  have thread := sound.threads t
  refine sound.update sound.team (fun _ _ => rfl) rfl sound.storage
    (fun j _ elected => absurd elected (sound.team.not_elected (.inl outside) j))
    ⟨thread.taken, thread.answered, thread.round, thread.idle, thread.missing,
      fun off' _ looking => ?_⟩
  obtain rfl := Option.some.inj looking
  exact ⟨before, after, request, request?, split, absent, chain⟩

private theorem lookupStep (sound : block.Sound config requests chunks base) {request : Request}
    {off : ℕ}
    (request? : requests[(block.threads t).answers.length]? = some request)
    (outside : (block.team.member t).stage = .outside)
    (looking : (block.threads t).lookup = some off)
    (stepped : OmpStaticShared.lookupStep config request off block t = some next) :
    next.Sound config requests chunks base := by
  have thread := sound.threads t
  have same : chunksOf config requests (block.threads t) = chunks :=
    sound.chunksOf_eq (sound.team.finished_of_outside outside)
  have idle := sound.team.not_elected (.inl outside)
  have stored := sound.storage idle
  obtain ⟨before, after, request', request'?, split, absent, chain⟩ :=
    thread.looking off outside looking
  obtain rfl := Option.some.inj (request'?.symm.trans request?)
  unfold OmpStaticShared.lookupStep at stepped
  rw [stored] at stepped
  cases after with
  | nil =>
      obtain rfl : off = base.allocdBytes := chain
      rw [if_neg (Nat.lt_irrefl _)] at stepped
      obtain ⟨team, advanced, rfl⟩ := Option.map_eq_some_iff.mp stepped
      refine sound.move advanced (by simp [outside]) (by simp [outside]) rfl
        (thread.idle (idle t)) ⟨request', request?, ?_⟩
      rw [same, split, List.append_nil]
      exact absent
  | cons chunk after =>
      obtain ⟨follows, header, rest⟩ := chain
      have place : varChunkEnd config config.metaDataAlign off config.metaDataSize -
          config.metaDataSize = chunk.header := by
        rw [← follows.headerEnd, Nat.add_sub_cancel]
      rw [if_pos (follows.lt.trans_le rest.le)] at stepped
      simp only [place, header] at stepped
      have inside : chunk ∈ chunksOf config requests (block.threads t) := by
        rw [same, split]
        exact List.mem_append_right _ List.mem_cons_self
      split at stepped
      · rename_i found
        obtain rfl := Option.some.inj stepped
        exact sound.answer_found request? outside inside found
      · rename_i other
        obtain rfl := Option.some.inj stepped
        refine sound.look_on request? (split.trans (List.append_cons before chunk after))
          (fun earlier member => ?_) rest outside
        rcases List.mem_append.mp member with earlier' | last
        · exact absent earlier earlier'
        · rw [List.mem_singleton.mp last]
          exact other

/-- A step of an allocation that is not its last. -/
private theorem allocating_step (sound : block.Sound config requests chunks base)
    {request : Request} (request? : requests[(block.threads t).answers.length]? = some request)
    (elected : (block.team.member t).stage = .elected) {progress : Progress} {storage : Storage}
    (allocating : Allocating config base request progress storage) :
    (⟨block.team, storage, Function.update block.threads t
      { block.threads t with progress := progress }⟩ : Block numThreads).Sound config requests
        chunks base := by
  have thread := sound.threads t
  refine sound.update sound.team (fun _ _ => rfl) rfl (fun idle => absurd elected (idle t))
    (fun j request' elected' next => ?_) ⟨thread.taken, thread.answered, thread.round,
      fun other => absurd elected other, thread.missing, fun off outside => ?_⟩
  · obtain rfl := sound.team.unique j t elected' elected
    rw [Function.update_self] at next ⊢
    obtain rfl := Option.some.inj (request?.symm.trans next)
    exact allocating
  · rw [elected] at outside
    cases outside

/-- The last step of an allocation adds the chunk. -/
private theorem allocated (sound : block.Sound config requests chunks base) {request : Request}
    {team : Team (Fin numThreads)}
    (request? : requests[(block.threads t).answers.length]? = some request)
    (elected : (block.team.member t).stage = .elected)
    (advanced : block.team.advance t = some team) :
    (⟨team, request.allocate config base, Function.update block.threads t
      { block.threads t with progress := .fresh }⟩ : Block numThreads).Sound config requests
        (extend config chunks request) (request.allocate config base) := by
  have thread := sound.threads t
  have same : chunksOf config requests (block.threads t) = chunks :=
    sound.chunksOf_eq (sound.team.finished_of_elected elected)
  obtain ⟨answers, holds⟩ := sound.holds
  have absent := thread.absent (by simp [elected]) request?
  rw [same] at absent
  have later := sound.team.advance advanced
  simp only [Team.advance, elected, Option.some.injEq] at advanced
  have own : team.member t = ⟨(block.team.member t).round, .second⟩ := by
    rw [← advanced]
    exact Function.update_self _ _ _
  have others (j : Fin numThreads) (different : j ≠ t) : team.member j = block.team.member j := by
    rw [← advanced]
    exact Function.update_of_ne different _ _
  have notOutside (j : Fin numThreads) : (block.team.member j).stage ≠ .outside := fun outside =>
    sound.team.not_elected (.inl outside) t elected
  refine ⟨later, ⟨(block.threads t).answers.length + 1, ?_⟩, ?_, holds_allocate holds absent,
    fun _ => rfl, fun j request' elected' => ?_, fun j => ?_⟩
  · rw [layout_take_succ config request?]
    exact congrArg (extend config · request) same.symm
  · rw [← advanced, extend_eq_append absent, List.length_append]
    exact congrArg (· + 1) sound.counted
  · by_cases there : j = t
    · subst there
      change (team.member j).stage = _ at elected'
      rw [own] at elected'
      cases elected'
    · change (team.member j).stage = _ at elected'
      rw [others j there] at elected'
      exact absurd (sound.team.unique j t elected' elected) there
  · change (Function.update block.threads t _ j).Sound config requests team _ _ j
    by_cases there : j = t
    · subst there
      rw [Function.update_self]
      refine ⟨thread.taken, thread.answered, own ▸ thread.round, fun _ => rfl,
        fun _ => thread.missing (notOutside j), fun off outside => ?_⟩
      rw [own] at outside
      cases outside
    · rw [Function.update_of_ne there]
      have other := sound.threads j
      refine ⟨other.taken, other.answered, others j there ▸ other.round,
        others j there ▸ other.idle, fun _ => other.missing (notOutside j), fun off outside => ?_⟩
      rw [others j there] at outside
      exact absurd outside (notOutside j)

private theorem allocStep (sound : block.Sound config requests chunks base) {request : Request}
    (request? : requests[(block.threads t).answers.length]? = some request)
    (elected : (block.team.member t).stage = .elected)
    (stepped : OmpStaticShared.allocStep config request block t = some next) :
    ∃ chunks base, next.Sound config requests chunks base := by
  have allocating := sound.allocating t request elected request?
  unfold OmpStaticShared.allocStep at stepped
  cases progress : (block.threads t).progress with
  | fresh =>
      rw [progress] at stepped allocating
      obtain rfl := Option.some.inj stepped
      refine ⟨chunks, base, sound.allocating_step request? elected ?_⟩
      rw [show block.storage = base from allocating]
      exact ⟨rfl, rfl⟩
  | headed metaOffset =>
      rw [progress] at stepped allocating
      obtain rfl := Option.some.inj stepped
      obtain ⟨offset, stored⟩ := allocating
      refine ⟨chunks, base, sound.allocating_step request? elected ⟨offset, ?_⟩⟩
      rw [stored]
  | sized metaOffset =>
      rw [progress] at stepped allocating
      obtain ⟨team, advanced, rfl⟩ := Option.map_eq_some_iff.mp stepped
      obtain ⟨offset, stored⟩ := allocating
      have stored' : (⟨Function.update block.storage.headers metaOffset
          ⟨request.id, block.storage.allocdBytes⟩, block.storage.allocdBytes⟩ : Storage) =
            request.allocate config base := by
        rw [request.allocate_eq, offset, stored]
        rfl
      refine ⟨extend config chunks request, request.allocate config base, ?_⟩
      have done := sound.allocated request? elected advanced
      rw [← stored'] at done ⊢
      exact done

/-- Behind the second barrier the latest chunk is that of the request. -/
private theorem latest_chunk (sound : block.Sound config requests chunks base) {request : Request}
    (request? : requests[(block.threads t).answers.length]? = some request)
    (behind : (block.team.member t).stage = .behind) :
    layout config (requests.take ((block.threads t).answers.length + 1)) = chunks ∧
      (block.team.member t).round + 1 = chunks.length ∧
      ∃ chunk ∈ chunks, chunk.request.id = request.id ∧ chunk.stop = base.allocdBytes := by
  have thread := sound.threads t
  have grown := thread.layout_next (by simp [behind]) request?
  have counted : (block.team.member t).round + 1 = chunks.length := by
    rw [← sound.counted, sound.team.finished_of_behind behind]
  have all : layout config (requests.take ((block.threads t).answers.length + 1)) = chunks := by
    obtain ⟨k, reached⟩ := sound.reached
    rw [reached]
    refine layout_take_eq ?_
    rw [← reached, ← counted, thread.round, grown, List.length_append, List.length_singleton]
  refine ⟨all, counted, place config (endOf 0 (chunksOf config requests (block.threads t))) request,
    ?_, rfl, ?_⟩
  · rw [← all, grown]
    exact List.mem_append_right _ (List.mem_singleton_self _)
  · obtain ⟨answers, holds⟩ := sound.holds
    rw [← holds.chain.endOf_eq, ← all, grown]
    unfold endOf
    rw [List.getLast?_concat]
    rfl

/-- Behind the second barrier the latest variable is the one that was asked for. -/
theorem latest (sound : block.Sound config requests chunks base) {request : Request}
    (request? : requests[(block.threads t).answers.length]? = some request)
    (behind : (block.team.member t).stage = .behind)
    (stepped : (block.answer t request
      (getLatestVarPtr config request.var.size block.storage)).advance t = some next) :
    next.Sound config requests chunks base := by
  have stored := sound.storage (sound.team.not_elected (.inr behind))
  obtain ⟨all, counted, chunk, member, found, last⟩ := sound.latest_chunk request? behind
  obtain ⟨team, advanced, rfl⟩ := Option.map_eq_some_iff.mp stepped
  change block.team.advance t = some team at advanced
  have later := sound.team.advance advanced
  simp only [Team.advance, behind, Option.some.injEq] at advanced
  have own : team.member t = ⟨(block.team.member t).round + 1, .outside⟩ := by
    rw [← advanced]
    exact Function.update_self _ _ _
  have others (j : Fin numThreads) (different : j ≠ t) : team.member j = block.team.member j := by
    rw [← advanced]
    exact Function.update_of_ne different _ _
  have value : getLatestVarPtr config request.var.size block.storage =
      addressAt config request.var.size chunk.stop := by
    rw [stored, last]
    rfl
  obtain ⟨taken, answered⟩ := answered_of_mem (sound.threads t) request?
    (mem_layout (all.symm ▸ member)) found value
  refine sound.update later others (by rw [← advanced]) (fun _ => stored)
    (fun j _ elected => ?_)
    ⟨taken, answered, ?_, fun _ => rfl, fun inside => ?_, fun off _ looking => ?_⟩
  · by_cases there : j = t
    · subst there
      rw [own] at elected
      cases elected
    · rw [others j there] at elected
      exact absurd elected (sound.team.not_elected (.inr behind) j)
  · rw [own]
    change (block.team.member t).round + 1 = (layout config (requests.take
      ((block.threads t).answers ++ [_]).length)).length
    rw [List.length_append, List.length_singleton, all, counted]
  · rw [own] at inside
    exact absurd rfl inside
  · cases looking

private theorem between (sound : block.Sound config requests chunks base)
    (stepped : block.advance t = some next) (notElected : (block.team.member t).stage ≠ .elected)
    (notBehind : (block.team.member t).stage ≠ .behind)
    (inside : (block.team.member t).stage ≠ .outside) : next.Sound config requests chunks base := by
  have thread := sound.threads t
  obtain ⟨team, advanced, rfl⟩ := Option.map_eq_some_iff.mp stepped
  have moved := sound.move advanced notElected notBehind rfl (thread.idle notElected)
    (thread.missing inside)
  rwa [Function.update_eq_self] at moved

theorem step (sound : block.Sound config requests chunks base)
    (stepped : OmpStaticShared.step config requests block t = some next) :
    next.Coherent config requests := by
  obtain ⟨request, request?, stepped⟩ := Option.bind_eq_some_iff.mp stepped
  cases stage : (block.team.member t).stage with
  | outside =>
      simp only [stage] at stepped
      cases lookup : (block.threads t).lookup with
      | none =>
          rw [lookup] at stepped
          obtain rfl := Option.some.inj stepped
          obtain ⟨answers, holds⟩ := sound.holds
          exact ⟨chunks, base, sound.look_on request? (List.nil_append chunks).symm nofun
            holds.chain stage⟩
      | some off =>
          rw [lookup] at stepped
          exact ⟨chunks, base, sound.lookupStep request? stage lookup stepped⟩
  | elected =>
      simp only [stage] at stepped
      exact sound.allocStep request? stage stepped
  | behind =>
      simp only [stage] at stepped
      exact ⟨chunks, base, sound.latest request? stage stepped⟩
  | first =>
      simp only [stage] at stepped
      exact ⟨chunks, base, sound.between stepped (by simp [stage]) (by simp [stage])
        (by simp [stage])⟩
  | single =>
      simp only [stage] at stepped
      exact ⟨chunks, base, sound.between stepped (by simp [stage]) (by simp [stage])
        (by simp [stage])⟩
  | second =>
      simp only [stage] at stepped
      exact ⟨chunks, base, sound.between stepped (by simp [stage]) (by simp [stage])
        (by simp [stage])⟩

theorem of_reachable {headers : ℕ → MetaData}
    (reachable : Reachable (OmpStaticShared.step config requests) (.start headers) block) :
    block.Coherent config requests := by
  apply reachable.induction
  · exact ⟨_, _, sound_start config requests headers⟩
  · rintro block t next ⟨chunks, base, sound⟩ stepped
    exact sound.step stepped

/-! ## Progress -/

/-- A thread outside of a round that has a request to make can go on. -/
private theorem step_of_outside {request : Request}
    (request? : requests[(block.threads t).answers.length]? = some request)
    (outside : (block.team.member t).stage = .outside) :
    OmpStaticShared.step config requests block t ≠ none := by
  unfold OmpStaticShared.step
  rw [request?, Option.bind_some]
  simp only [outside]
  cases (block.threads t).lookup with
  | none => exact Option.some_ne_none _
  | some off =>
      unfold OmpStaticShared.lookupStep
      dsimp only
      split
      · split
        · exact Option.some_ne_none _
        · exact Option.some_ne_none _
      · simp [Block.advance, Block.set, Team.advance, outside]

/-- A thread in a round is only held up by its team. -/
private theorem advance_of_stuck {request : Request}
    (request? : requests[(block.threads t).answers.length]? = some request)
    (inside : (block.team.member t).stage ≠ .outside)
    (stuck : OmpStaticShared.step config requests block t = none) :
    block.team.advance t = none := by
  unfold OmpStaticShared.step at stuck
  rw [request?, Option.bind_some] at stuck
  cases stage : (block.team.member t).stage with
  | outside => exact absurd stage inside
  | elected =>
      simp only [stage] at stuck
      unfold OmpStaticShared.allocStep at stuck
      split at stuck
      · cases stuck
      · cases stuck
      · exact Option.map_eq_none_iff.mp stuck
  | behind =>
      simp only [stage] at stuck
      exact Option.map_eq_none_iff.mp stuck
  | first =>
      simp only [stage] at stuck
      exact Option.map_eq_none_iff.mp stuck
  | single =>
      simp only [stage] at stuck
      exact Option.map_eq_none_iff.mp stuck
  | second =>
      simp only [stage] at stuck
      exact Option.map_eq_none_iff.mp stuck

/-- When no thread can go on, all of them have returned from all requests. -/
theorem finished (sound : block.Sound config requests chunks base)
    (stuck : ∀ t, OmpStaticShared.step config requests block t = none) (t : Fin numThreads) :
    (block.threads t).answers.length = requests.length := by
  have most (t : Fin numThreads) : (block.threads t).answers.length ≤ requests.length := by
    have taken := congrArg List.length (sound.threads t).taken
    rw [List.length_map, List.length_take] at taken
    omega
  refine le_antisymm (most t) (Nat.le_of_not_lt fun fewer => ?_)
  obtain ⟨request, request?⟩ : ∃ request,
      requests[(block.threads t).answers.length]? = some request :=
    ⟨_, List.getElem?_eq_getElem fewer⟩
  have inside : (block.team.member t).stage ≠ .outside := fun outside =>
    step_of_outside request? outside (stuck t)
  have blocked (j : Fin numThreads) :
      (block.team.member j).stage = .outside ∨ block.team.advance j = none := by
    by_cases outside : (block.team.member j).stage = .outside
    · exact .inl outside
    · obtain ⟨other, other?, -⟩ := (sound.threads j).missing outside
      exact .inr (advance_of_stuck other? outside (stuck j))
  -- the others wait for a thread that has returned from all requests
  obtain ⟨j, outside, behind⟩ := Team.Sound.held_up blocked inside
  have returned : requests[(block.threads j).answers.length]? = none := by
    by_contra more
    obtain ⟨other, other?⟩ := Option.ne_none_iff_exists'.mp more
    exact step_of_outside other? outside (stuck j)
  have all : chunksOf config requests (block.threads j) = layout config requests := by
    unfold chunksOf
    rw [List.take_of_length_le (List.getElem?_eq_none_iff.mp returned)]
  have grown : (chunksOf config requests (block.threads t)).length + 1 ≤
      (layout config requests).length := by
    have whole := layout_take_mono config requests
      (Nat.le_add_right ((block.threads t).answers.length + 1) requests.length)
    rw [List.take_of_length_le (Nat.le_add_left _ _),
      (sound.threads t).layout_next inside request?] at whole
    refine le_of_eq_of_le ?_ whole.length_le
    rw [List.length_append, List.length_singleton]
  have first := (sound.threads j).round
  have second := (sound.threads t).round
  rw [all] at first
  omega

end Block.Sound

/-- The answers of a single thread, which are determined by the chunks. -/
private theorem answers_eq {storage : Storage} {first second : List (Request × ℤ)}
    {answers : List (Request × ℤ)} (holds : Holds config storage (layout config requests) answers)
    (same : first.map Prod.fst = second.map Prod.fst)
    (answered : ∀ answer ∈ first, Answered config requests answer)
    (answered' : ∀ answer ∈ second, Answered config requests answer) : first = second := by
  induction first generalizing second with
  | nil => exact (List.map_eq_nil_iff.mp same.symm).symm
  | cons answer first later =>
      cases second with
      | nil => cases same
      | cons answer' second =>
          obtain ⟨request, rest⟩ := List.cons.inj same
          obtain ⟨chunk, member, id, value⟩ := answered answer List.mem_cons_self
          obtain ⟨chunk', member', id', value'⟩ := answered' answer' List.mem_cons_self
          obtain rfl := holds.chunk_unique member member' (id.trans (request ▸ id'.symm))
          have data : answer = answer' := Prod.ext request (by rw [value, value', request])
          rw [data, later rest (fun _ inside => answered _ (List.mem_cons_of_mem _ inside))
            fun _ inside => answered' _ (List.mem_cons_of_mem _ inside)]

/-- **Shared memory of a team.** In every order of steps the threads get the answers that a
single thread would get, nobody looks at the storage while another thread allocates, and the
threads only stop when all requests are answered and as much is allocated as for one thread. -/
theorem answers_sound (config : Config) (requests : List Request) (headers : ℕ → MetaData) :
    ∃ answers storage, Settles (fun fuel => SharedStorage.run config requests fuel
        ([], ⟨headers, 0⟩)) (answers, storage) ∧
      ∀ (numThreads : ℕ) (block : Block numThreads),
        Reachable (step config requests) (.start headers) block →
          (∀ t, (block.threads t).answers = answers.take (block.threads t).answers.length) ∧
          (∀ t other, (block.team.member t).stage = .elected →
            (block.team.member other).stage ≠ .outside ∧
              (block.team.member other).stage ≠ .behind) ∧
          ((∀ t, step config requests block t = none) →
            (∀ t, (block.threads t).answers = answers) ∧
              (0 < numThreads → block.storage.allocdBytes = storage.allocdBytes)) := by
  obtain ⟨answers, storage, settles, holds, same⟩ :=
    (Holds.initial config headers).run requests
  refine ⟨answers, storage, settles, fun numThreads block reachable => ?_⟩
  obtain ⟨chunks, base, sound⟩ := Block.Sound.of_reachable reachable
  have own (t : Fin numThreads) :
      (block.threads t).answers = answers.take (block.threads t).answers.length := by
    refine answers_eq holds ?_ (sound.threads t).answered fun answer inside => ?_
    · rw [(sound.threads t).taken, List.map_take, same]
      rfl
    · exact holds.answered answer (List.mem_of_mem_take inside)
  refine ⟨own, fun t other elected => ⟨fun outside => ?_, fun behind => ?_⟩, fun stuck => ⟨?_, ?_⟩⟩
  · exact sound.team.not_elected (.inl outside) t elected
  · exact sound.team.not_elected (.inr behind) t elected
  · intro t
    have length : answers.length = requests.length := by
      rw [← List.length_map Prod.fst, same]
      rfl
    rw [own t, sound.finished stuck t, ← length, List.take_length]
  · intro positive
    let t : Fin numThreads := ⟨0, positive⟩
    have returned : requests[(block.threads t).answers.length]? = none :=
      List.getElem?_eq_none_iff.mpr (sound.finished stuck t).ge
    have outside : (block.team.member t).stage = .outside := by
      by_contra inside
      obtain ⟨request, request?, -⟩ := (sound.threads t).missing inside
      rw [returned] at request?
      cases request?
    have all : layout config requests = chunks := by
      rw [← sound.chunksOf_eq (sound.team.finished_of_outside outside)]
      unfold chunksOf
      rw [List.take_of_length_le (List.getElem?_eq_none_iff.mp returned)]
    obtain ⟨_, held⟩ := sound.holds
    rw [sound.storage (sound.team.not_elected (.inl outside)), ← held.chain.endOf_eq, ← all]
    exact holds.chain.endOf_eq

/-- A configuration and two requests for the same variable. -/
private def aligned16 : Config := ⟨4096, 4, 65536⟩

private def twice : List Request := [.allocVar ⟨1, 4, 2⟩, .allocVar ⟨1, 4, 2⟩]

/-- Two threads ask for a variable twice: the one that comes first to the single construct
allocates it, and both find it the second time. -/
theorem answers_sound_twoThreads :
    ∃ block : Block 2, Reachable (step aligned16 twice) (.start fun _ => ⟨0, 0⟩) block ∧
      (∀ t, step aligned16 twice block t = none) ∧
      ∃ answers storage, Settles (fun fuel => SharedStorage.run aligned16 twice fuel
          ([], ⟨fun _ => ⟨0, 0⟩, 0⟩)) (answers, storage) ∧
        (∀ t, (block.threads t).answers = answers) ∧
        block.storage.allocdBytes = storage.allocdBytes := by
  have ran : (Math.Interleaving.run (step aligned16 twice) (.start fun _ => ⟨0, 0⟩ : Block 2)
      [1, 1, 0, 0, 1, 1, 1, 1, 1, 0, 0, 1, 1, 1, 1, 0, 0, 0, 0]).isSome := rfl
  have reachable : Reachable (step aligned16 twice) (.start fun _ => ⟨0, 0⟩ : Block 2) _ :=
    ⟨_, (Option.some_get ran).symm⟩
  have stuck (t : Fin 2) : step aligned16 twice (Option.get _ ran) t = none := by
    rcases Fin.exists_fin_two.mp ⟨t, rfl⟩ with rfl | rfl <;> rfl
  obtain ⟨answers, storage, settles, sound⟩ := answers_sound aligned16 twice fun _ => ⟨0, 0⟩
  obtain ⟨-, -, finished⟩ := sound 2 _ reachable
  obtain ⟨same, allocated⟩ := finished stuck
  exact ⟨_, reachable, stuck, answers, storage, settles, same, allocated Nat.two_pos⟩

end Alpaka.OmpStaticShared
