import Alpaka.Api.SyclSharedMemory
import Mathlib.Algebra.BigOperators.Fin
import Mathlib.Algebra.Order.BigOperators.Group.Finset
import Mathlib.Tactic.IntervalCases

/-! # The shared variables resolve

Every action passes a point of a request, so that the runs of a group are bounded, and
no group is stuck (`Alpaka.SyclSharedMemory.Group.Sound.continues`). Between a group-wide
operation and the write of the first item the last entry holds an address that nobody
wrote, and another item can get that far and repeat its request. So all requests are
answered in every run exactly when the group has one item or no request is for the id
that was allocated last (`Alpaka.SyclSharedMemory.allocVar_iff`).
-/

namespace Alpaka.SyclSharedMemory

open Math.Interleaving

/-! ## Every request returns -/

section Progress

variable {n capacity : ℕ} {requests : List ℕ} {allocated : ℕ → ℕ} {start : ℕ → MetaData}
  {group next : Group n} {operations : ℕ} {mem : ℕ → MetaData} {own : Item}

private theorem Item.Sound.served_le (sound : own.Sound requests allocated mem operations) :
    own.served ≤ requests.length := by
  have length : own.served = min own.served requests.length := by
    have lengths := congrArg List.length sound.results
    rwa [List.length_map, List.length_take] at lengths
  rw [length]
  exact Nat.min_le_right _ _

/-- An item without a request is between two of them. -/
private theorem Item.Sound.finished (sound : own.Sound requests allocated mem operations)
    (all : own.served = requests.length) :
    own.phase = .getVarPtr 0 ∧ own.numEntries = requests.eraseDups.length ∧
      operations = requests.eraseDups.length := by
  have none (id : ℕ) : requests[own.served]? ≠ some id := by
    rw [all, List.getElem?_length]
    exact fun impossible => nomatch impossible
  have point := sound.point
  unfold Item.At at point
  cases phase : own.phase with
  | getVarPtr off =>
      rw [phase, all, ← eraseDups_eq_known] at point
      obtain ⟨counted, passed, -, rfl | ⟨id, request, -⟩⟩ := point
      · exact ⟨rfl, counted, passed⟩
      · exact (none id (all ▸ request)).elim
  | found off =>
      rw [phase] at point
      obtain ⟨-, -, id, request, -⟩ := point
      exact (none id request).elim
  | groupLocalMemory =>
      rw [phase] at point
      obtain ⟨-, -, id, request, -⟩ := point
      exact (none id request).elim
  | updatePtr data | updateId data =>
      rw [phase] at point
      obtain ⟨-, -, ⟨id, request, -⟩, -⟩ := point
      exact (none id request).elim

/-- An unknown id has its entry ahead. -/
private theorem known_length_lt {served id : ℕ} (request : requests[served]? = some id)
    (unknown : id ∉ known requests served) :
    (known requests served).length < requests.eraseDups.length := by
  apply lt_of_le_of_ne (known_prefixOf requests served).length_le
  intro same
  have all := (known_prefixOf requests served).eq_of_length same
  rw [all, List.mem_eraseDups] at unknown
  exact unknown (List.mem_of_getElem? request)

/-- Only the group-wide operation makes an item wait. -/
private theorem Item.Sound.advances (sound : own.Sound requests allocated mem operations)
    (room : requests.eraseDups.length ≤ capacity) (localLinearId id : ℕ)
    (runs : own.phase ≠ .groupLocalMemory) :
    ∃ mem' own', own.advance localLinearId capacity id mem = some (mem', own') := by
  have point := sound.point
  unfold Item.At at point
  unfold Item.advance
  cases phase : own.phase with
  | getVarPtr off =>
      dsimp only
      split_ifs
      · exact ⟨_, _, rfl⟩
      · exact ⟨_, _, rfl⟩
      · exact ⟨_, _, rfl⟩
  | found off =>
      dsimp only
      split
      · exact ⟨_, _, rfl⟩
      · exact ⟨_, _, rfl⟩
  | groupLocalMemory => exact (runs phase).elim
  | updatePtr data =>
      rw [phase] at point
      obtain ⟨counted, -, ⟨id, request, unknown⟩, -⟩ := point
      have fits : own.numEntries + 1 ≤ capacity := by
        rw [counted]
        exact (known_length_lt request unknown).trans_le room
      dsimp only
      rw [if_pos fits]
      exact ⟨_, _, rfl⟩
  | updateId data => exact ⟨_, _, rfl⟩

/-- An item that has a request and does not wait takes a step. -/
private theorem Group.Sound.advances (sound : group.Sound requests allocated start)
    (room : requests.eraseDups.length ≤ capacity) {item : Fin (n + 1)}
    (unfinished : (group.items item).served ≠ requests.length)
    (runs : (group.items item).phase ≠ .groupLocalMemory) :
    ∃ next, step requests allocated capacity group (.advance item) = some next := by
  have below := lt_of_le_of_ne (sound.items item).served_le unfinished
  obtain ⟨mem, own, advanced⟩ := (sound.items item).advances room item.val
    requests[(group.items item).served] runs
  exact ⟨_, step_advance (List.getElem?_eq_getElem below) advanced⟩

/-- No group is stuck. -/
private theorem Group.Sound.continues (sound : group.Sound requests allocated start)
    (room : requests.eraseDups.length ≤ capacity) :
    (∀ item, (group.items item).served = requests.length) ∨
      ∃ action next, step requests allocated capacity group action = some next := by
  by_cases runs : ∃ item, (group.items item).served ≠ requests.length ∧
      (group.items item).phase ≠ .groupLocalMemory
  · obtain ⟨item, unfinished, runs⟩ := runs
    obtain ⟨next, taken⟩ := sound.advances room unfinished runs
    exact .inr ⟨_, next, taken⟩
  · push Not at runs
    by_cases waits : ∃ item, (group.items item).phase = .groupLocalMemory
    · obtain ⟨item, waits⟩ := waits
      have point := (sound.items item).point
      unfold Item.At at point
      rw [waits] at point
      obtain ⟨-, passed, id, request, unknown⟩ := point
      have ahead := known_length_lt request unknown
      have all (other : Fin (n + 1)) : (group.items other).phase = .groupLocalMemory := by
        apply runs
        intro finished
        have through := ((sound.items other).finished finished).2.2
        omega
      exact .inr ⟨.groupLocalMemory, _, if_pos all⟩
    · push Not at waits
      left
      intro item
      by_contra unfinished
      exact waits item (runs item unfinished)

/-- The points of its requests that an item has passed. -/
def Item.spent (length : ℕ) (own : Item) : ℕ :=
  own.served * (length + 6) +
    match own.phase with
    | .getVarPtr off => off
    | .found _ => length + 1
    | .groupLocalMemory => length + 2
    | .updatePtr _ => length + 3
    | .updateId _ => length + 4

def Group.spent (length : ℕ) (group : Group n) : ℕ :=
  ∑ item, (group.items item).spent length

private theorem Item.spent_answer (length data : ℕ) (own : Item) :
    (own.answer data).spent length = (own.served + 1) * (length + 6) := by
  have more : (own.answer data).served = own.served + 1 := List.length_append
  unfold Item.spent
  rw [more]
  rfl

/-- A step of an item is progress. -/
private theorem Item.Sound.spent_lt {localLinearId id : ℕ} {mem' : ℕ → MetaData} {own' : Item}
    (sound : own.Sound requests allocated mem operations)
    (turn : own.Turn localLinearId capacity id mem mem' own') :
    own.spent requests.length < own'.spent requests.length := by
  have served := sound.served_le
  have entries := known_length_le requests own.served
  have point := sound.point
  unfold Item.At at point
  cases turn with
  | @hit off phase entry same =>
      rw [phase] at point
      unfold Item.spent Item.served at *
      rw [phase]
      dsimp only at *
      omega
  | @miss off phase entry different =>
      unfold Item.spent Item.served
      rw [phase]
      exact Nat.lt_succ_self _
  | @absent off phase through =>
      rw [phase] at point
      unfold Item.spent Item.served at *
      rw [phase]
      dsimp only at *
      omega
  | @null off phase ptr =>
      unfold Item.spent Item.served
      rw [phase]
      exact Nat.lt_succ_self _
  | @pointer data phase room =>
      unfold Item.spent Item.served
      rw [phase]
      exact Nat.lt_succ_self _
  | @read off data phase ptr | @name data phase =>
      rw [Item.spent_answer]
      unfold Item.spent
      rw [phase, Nat.succ_mul]
      dsimp only
      omega

private theorem Item.Sound.spent_le (sound : own.Sound requests allocated mem operations) :
    own.spent requests.length ≤ (requests.length + 1) * (requests.length + 6) := by
  have served := sound.served_le
  have entries := known_length_le requests own.served
  have rows := Nat.mul_le_mul_right (requests.length + 6) served
  have point := sound.point
  unfold Item.At at point
  unfold Item.spent
  rw [Nat.succ_mul]
  refine Nat.add_le_add rows ?_
  cases phase : own.phase with
  | getVarPtr off =>
      rw [phase] at point
      obtain ⟨-, -, within, -⟩ := point
      exact within.trans (by omega)
  | found off | groupLocalMemory | updatePtr data | updateId data =>
      dsimp only
      omega

private theorem Group.Sound.spent_lt (sound : group.Sound requests allocated start)
    {action : Action n} (taken : step requests allocated capacity group action = some next) :
    group.spent requests.length < next.spent requests.length := by
  unfold Group.spent
  obtain ⟨-, all, rfl⟩ | ⟨item, id, mem, own, -, request, turn, rfl⟩ := step_cases taken
  · have further (item : Fin (n + 1)) : (group.items item).spent requests.length <
        { group.items item with phase := .updatePtr (allocated group.operations) : Item }.spent
          requests.length := by
      unfold Item.spent Item.served
      rw [all item]
      exact Nat.lt_succ_self _
    exact Finset.sum_lt_sum_of_nonempty Finset.univ_nonempty fun item _ => further item
  · apply Finset.sum_lt_sum
    · intro other _
      by_cases same : other = item
      · rw [same, Group.put_self]
        exact ((sound.items item).spent_lt turn).le
      · rw [Group.put_of_ne same]
    · refine ⟨item, Finset.mem_univ _, ?_⟩
      rw [Group.put_self]
      exact (sound.items item).spent_lt turn

private theorem Group.Sound.spent_le (sound : group.Sound requests allocated start) :
    group.spent requests.length ≤ (n + 1) * ((requests.length + 1) * (requests.length + 6)) := by
  have each := Finset.sum_le_card_nsmul Finset.univ _ _ fun item _ => (sound.items item).spent_le
  rwa [Finset.card_univ, Fintype.card_fin, smul_eq_mul] at each

end Progress

section Resolves

variable {n capacity : ℕ} {requests : List ℕ} {allocated : ℕ → ℕ}

private theorem sound_of_reachable (apart : n = 0 ∨ Spaced requests) {mem : ℕ → MetaData}
    {group : Group n}
    (reachable : Reachable (step requests allocated capacity) { mem } group) :
    group.Sound requests allocated mem :=
  reachable.induction (Group.sound_start mem) fun _ _ _ sound taken => sound.kept apart taken

/-- The requests are answered where the invariant holds. -/
private theorem resolves_of_apart (room : requests.eraseDups.length ≤ capacity)
    (apart : n = 0 ∨ Spaced requests) : Resolves requests allocated capacity n := by
  refine ⟨fun mem group reachable item => ?_, fun mem group reachable item other own its => ?_,
    fun mem group reachable => ?_, (n + 1) * ((requests.length + 1) * (requests.length + 6)),
    fun mem actions final reached => ?_⟩
  · exact ((sound_of_reachable apart reachable).items item).results
  · have sound := sound_of_reachable apart reachable
    obtain level | ⟨data, leaving, -⟩ := (sound.items item).counts
    · obtain level' | ⟨data, leaving, -⟩ := (sound.items other).counts
      · rw [level, level']
      · exact (its data leaving).elim
    · exact (own data leaving).elim
  · exact (sound_of_reachable apart reachable).continues room
  · have sound := sound_of_reachable apart ⟨actions, reached⟩
    have grown := run_length_le (fun _ _ _ kept taken => Group.Sound.kept kept apart taken)
      (fun _ _ _ kept taken => Group.Sound.spent_lt kept taken) (Group.sound_start mem) reached
    exact (Nat.le_add_right _ _).trans (grown.trans sound.spent_le)

/-- The invariant, and the first item has not written the last address. -/
private structure Group.Behind (requests : List ℕ) (allocated : ℕ → ℕ) (mem : ℕ → MetaData)
    (group : Group n) : Prop where
  sound : group.Sound requests allocated mem
  behind : (group.items leader).numEntries < requests.eraseDups.length

/-- Another item with a request need not wait for that write. -/
private theorem Group.Behind.next {mem : ℕ → MetaData} {group : Group n}
    (kept : group.Behind requests allocated mem) (room : requests.eraseDups.length ≤ capacity)
    (spaced : Spaced requests) {second : Fin (n + 1)} (other : leader ≠ second)
    (unfinished : (group.items second).served ≠ requests.length) :
    ∃ action next, step requests allocated capacity group action = some next ∧
      next.Behind requests allocated mem := by
  obtain ⟨sound, behind⟩ := kept
  by_cases waits : (group.items second).phase = .groupLocalMemory
  · have point := (sound.items second).point
    unfold Item.At at point
    rw [waits] at point
    obtain ⟨-, passed, id, request, unknown⟩ := point
    have ahead := known_length_lt request unknown
    obtain all | ⟨action, next, taken⟩ := sound.continues room
    · exact (unfinished (all second)).elim
    have kept := sound.kept (.inr spaced) taken
    refine ⟨action, next, taken, kept, ?_⟩
    obtain ⟨-, -, rfl⟩ | ⟨item, _, table, own, -, -, -, rfl⟩ := step_cases taken
    · exact behind
    · have same : (group.put table item own).operations = group.operations := rfl
      obtain level | ⟨_, -, leaving⟩ := (kept.items leader).counts
      · omega
      · omega
  · obtain ⟨next, taken⟩ := sound.advances room unfinished waits
    refine ⟨.advance second, next, taken, sound.kept (.inr spaced) taken, ?_⟩
    obtain ⟨impossible, -⟩ | ⟨item, _, _, own, same, -, -, rfl⟩ := step_cases taken
    · cases impossible
    · cases same
      rwa [Group.put_of_ne other]

/-- So it can have all its requests answered. -/
private theorem exists_ahead (allocated : ℕ → ℕ) (room : requests.eraseDups.length ≤ capacity)
    (spaced : Spaced requests) (several : requests ≠ []) {second : Fin (n + 1)}
    (other : leader ≠ second) (mem : ℕ → MetaData) :
    ∃ group : Group n, Reachable (step requests allocated capacity) { mem } group ∧
      group.Behind requests allocated mem ∧ (group.items second).served = requests.length := by
  have some : 0 < requests.eraseDups.length := by
    obtain ⟨id, rest, rfl⟩ := List.exists_cons_of_ne_nil several
    rw [List.eraseDups_cons]
    exact Nat.succ_pos _
  have live (group : Group n) (kept : group.Behind requests allocated mem) :
      (group.Behind requests allocated mem ∧ (group.items second).served = requests.length) ∨
        ∃ action next, True ∧ step requests allocated capacity group action = .some next ∧
          group.spent requests.length < next.spent requests.length ∧
          next.Behind requests allocated mem := by
    by_cases finished : (group.items second).served = requests.length
    · exact .inl ⟨kept, finished⟩
    · obtain ⟨action, next, taken, later⟩ := kept.next room spaced other finished
      exact .inr ⟨action, next, trivial, taken, kept.sound.spent_lt taken, later⟩
  have leads := Leads.of_measure (fun _ kept => Group.Sound.spent_le (Group.Behind.sound kept)) live
    ⟨Group.sound_start mem, some⟩
  exact leads.reachable ⟨[], rfl⟩

/-- What the first requests do, all of them do at the beginning. -/
private theorem reachable_of_take {count : ℕ} {start group : Group n}
    (reachable : Reachable (step (requests.take count) allocated capacity) start group) :
    Reachable (step requests allocated capacity) start group := by
  refine reachable.mono fun state action next taken => ?_
  cases action with
  | groupLocalMemory => exact taken
  | advance item =>
      obtain ⟨id, request, rest⟩ := Option.bind_eq_some_iff.mp taken
      refine Option.bind_eq_some_iff.mpr ⟨id, ?_, rest⟩
      rw [List.getElem?_take] at request
      exact (Option.ite_none_right_eq_some.mp request).2

/-- An item alone finds the first entry with the id. -/
private theorem reachable_found {start group : Group n} {item : Fin (n + 1)} {id off entry : ℕ}
    (reachable : Reachable (step requests allocated capacity) start group)
    (request : requests[(group.items item).served]? = some id)
    (phase : (group.items item).phase = .getVarPtr off) (ahead : off ≤ entry)
    (counted : entry < (group.items item).numEntries) (here : (group.mem entry).id = id)
    (before : ∀ earlier < entry, (group.mem earlier).id ≠ id) :
    ∃ found : Group n, Reachable (step requests allocated capacity) start found ∧
      found.mem = group.mem ∧
      found.items item = { group.items item with phase := .found entry } := by
  induction distance : entry - off generalizing group off with
  | zero =>
      have same : off = entry := by omega
      subst same
      have advanced : (group.items item).advance item.val capacity id group.mem =
          some (group.mem, { group.items item with phase := .found off }) := by
        unfold Item.advance
        rw [phase]
        dsimp only
        rw [if_pos counted, if_pos here]
      exact ⟨_, reachable.snoc (step_advance request advanced), rfl, Group.put_self ..⟩
  | succ distance ih =>
      have advanced : (group.items item).advance item.val capacity id group.mem =
          some (group.mem, { group.items item with phase := .getVarPtr (off + 1) }) := by
        unfold Item.advance
        rw [phase]
        dsimp only
        rw [if_pos (by omega), if_neg (before off (by omega))]
      have next := reachable.snoc (step_advance request advanced)
      obtain ⟨found, reached, mem, point⟩ := ih next (by rwa [Group.put_self])
        (by rw [Group.put_self]) (by omega) (by rwa [Group.put_self]) here before (by omega)
      exact ⟨found, reached, mem, point.trans (by rw [Group.put_self])⟩

/-- The item reads the pointer and returns it. -/
private theorem reachable_read {start group : Group n} {item : Fin (n + 1)} {id entry data : ℕ}
    (reachable : Reachable (step requests allocated capacity) start group)
    (request : requests[(group.items item).served]? = some id)
    (phase : (group.items item).phase = .found entry)
    (ptr : (group.mem entry).ptr = some data) :
    ∃ read : Group n, Reachable (step requests allocated capacity) start read ∧
      (read.items item).results = (group.items item).results ++ [data] := by
  have advanced : (group.items item).advance item.val capacity id group.mem =
      some (group.mem, (group.items item).answer data) := by
    unfold Item.advance
    rw [phase]
    dsimp only
    rw [ptr]
  exact ⟨_, reachable.snoc (step_advance request advanced), by rw [Group.put_self]; rfl⟩

/-- A request for the last id can be answered with what the table held at the start. -/
private theorem spaced_of_resolves (room : requests.eraseDups.length ≤ capacity) (several : n ≠ 0)
    (resolves : Resolves requests allocated capacity n) : Spaced requests := by
  intro served
  -- the first request for the last id, so that those before it are answered
  induction served using Nat.strongRecOn with
  | ind served earlier =>
    intro id request last
    have shorter : (requests.take served).eraseDups.length ≤ capacity :=
      (known_prefixOf requests served).length_le.trans room
    have within : served ≤ requests.length := (List.getElem?_eq_some_iff.mp request).1.le
    have spaced : Spaced (requests.take served) := by
      intro sooner id' request'
      obtain ⟨before, request'⟩ :=
        Option.ite_none_right_eq_some.mp (List.getElem?_take.symm.trans request')
      unfold known
      rw [List.take_take, Nat.min_eq_left before.le]
      exact earlier sooner before id' request'
    have requested : requests.take served ≠ [] := by
      intro none
      unfold known at last
      rw [none] at last
      cases last
    let second : Fin (n + 1) := ⟨1, by omega⟩
    have other : leader ≠ second := fun same => absurd (Fin.val_eq_of_eq same) Nat.zero_ne_one
    let stale : ℕ → MetaData :=
      fun _ => ⟨some (allocated ((known requests served).length - 1) + 1), 0⟩
    obtain ⟨group, reachable, kept, all⟩ := exists_ahead allocated shorter spaced
      requested other stale
    obtain ⟨phase, counted, passed⟩ := (kept.sound.items second).finished all
    have answered : (group.items second).served = served :=
      all.trans (List.length_take_of_le within)
    rw [← answered] at request
    -- the table holds the known ids, of which the last one is requested
    have ids := (kept.sound.items second).ids
    rw [all, ← eraseDups_eq_known] at ids
    have nodup := known_nodup requests served
    rw [List.getLast?_eq_getElem?] at last
    obtain ⟨inside, here⟩ := List.getElem?_eq_some_iff.mp last
    have before (off : ℕ) (sooner : off < (known requests served).length - 1) :
        (group.mem off).id ≠ id := by
      have below : off < (known requests served).length := by omega
      rw [ids off _ (List.getElem?_eq_getElem below), ← here]
      exact fun same => absurd (nodup.getElem_inj_iff.mp same) sooner.ne
    obtain ⟨found, reached, mem, point⟩ := reachable_found (reachable_of_take reachable) request
      phase (Nat.zero_le _) (counted ▸ inside) (ids _ id last) before
    have unwritten : (found.mem ((known requests served).length - 1)).ptr =
        some (allocated ((known requests served).length - 1) + 1) := by
      rw [mem, kept.sound.ptrs, if_neg]
      have behind : (group.items leader).numEntries < (known requests served).length := kept.behind
      omega
    have same : (found.items second).served = (group.items second).served := by
      rw [point]
      rfl
    obtain ⟨read, reached, results⟩ := reachable_read reached (by rwa [same]) (by rw [point])
      unwritten
    have returned := resolves.returns stale read reached second
    have more : (read.items second).served = (group.items second).served + 1 := by
      rw [← same]
      unfold Item.served
      rw [results, List.length_append, List.length_singleton]
    rw [more, List.take_add_one, request, Option.toList_some, List.map_append, results,
      List.map_singleton, address_of_getElem? allocated last] at returned
    obtain ⟨-, wrong⟩ := List.append_inj' returned rfl
    exact Nat.succ_ne_self _ (List.singleton_inj.mp wrong)

/-- **Shared variables of a group.** All requests are answered with the address of their
id in every run from every table exactly when the group has a single item or no request
is for the id that was allocated last. -/
theorem allocVar_iff (room : requests.eraseDups.length ≤ capacity) :
    Resolves requests allocated capacity n ↔ n = 0 ∨ Spaced requests := by
  constructor
  · intro resolves
    by_cases single : n = 0
    · exact .inl single
    · exact .inr (spaced_of_resolves room single resolves)
  · exact resolves_of_apart room

/-- Four items request two variables in turn. -/
theorem allocVar_alternating :
    Resolves [7, 9, 7] (fun operation => 64 * operation) 4 3 := by
  refine (allocVar_iff (by decide)).mpr (.inr fun served id request => ?_)
  have below : served < 3 := (List.getElem?_eq_some_iff.mp request).1
  interval_cases served
  all_goals
    cases request
    decide

/-- The second of two items repeats its request before the first one wrote the address. -/
theorem allocVar_stale :
    ¬ ∀ (n : ℕ) (requests : List ℕ) (allocated : ℕ → ℕ) (capacity : ℕ),
      requests.eraseDups.length ≤ capacity → Resolves requests allocated capacity n := by
  intro law
  have resolves := law 1 [7, 7] (fun _ => 64) 4 (by decide)
  have early : (run (step [7, 7] (fun _ => 64) 4) { mem := fun _ => ⟨some 99, 0⟩ }
      [.advance 0, .advance 1, .groupLocalMemory, .advance 1, .advance 1, .advance 1,
        .advance 1]).map (fun group : Group 1 => (group.items 1).results) = some [64, 99] := rfl
  obtain ⟨group, reached, results⟩ := Option.map_eq_some_iff.mp early
  have returned := resolves.returns _ group ⟨_, reached⟩ 1
  rw [Item.served, results] at returned
  revert returned
  decide

end Resolves

end Alpaka.SyclSharedMemory
