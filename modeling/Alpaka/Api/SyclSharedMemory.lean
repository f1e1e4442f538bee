import Alpaka.Math.Interleaving
import Mathlib.Data.Fin.Basic
import Mathlib.Data.List.Nodup

/-! # Shared variables of a SYCL work group

The ids and the addresses of the shared variables of a work group stand in a table in
local memory. Every work item counts the entries for itself and writes the ids, and the
first one writes the addresses. A new variable is a group-wide operation; apart from
these the items take turns in any order. Where no request is for the id that was
allocated last, every item finds its entries filled
(`Alpaka.SyclSharedMemory.Group.Sound.kept`).
-/

namespace Alpaka.SyclSharedMemory

open Math.Interleaving

/-- An entry of the table; the null pointer is no address. -/
structure MetaData where
  ptr : Option ℕ
  id : ℕ

/-- How far a work item is in a request: `getVarPtr` compares the id of an entry and
reads its pointer, `alloc` enters the group-wide operation and fills the next entry. -/
inductive Phase
  | getVarPtr (off : ℕ)
  | found (off : ℕ)
  | groupLocalMemory
  | updatePtr (data : ℕ)
  | updateId (data : ℕ)
  deriving DecidableEq

/-- A work item and the addresses that it has got. -/
structure Item where
  numEntries : ℕ := 0
  phase : Phase := .getVarPtr 0
  results : List ℕ := []

def Item.served (own : Item) : ℕ := own.results.length

/-- The request returns. -/
def Item.answer (own : Item) (data : ℕ) : Item :=
  { own with phase := .getVarPtr 0, results := own.results ++ [data] }

/-- The work items of a group, the table, and how many group-wide operations took
place. -/
structure Group (n : ℕ) where
  mem : ℕ → MetaData
  items : Fin (n + 1) → Item := fun _ => {}
  operations : ℕ := 0

def Group.put {n : ℕ} (group : Group n) (mem : ℕ → MetaData) (item : Fin (n + 1)) (own : Item) :
    Group n :=
  { group with mem, items := Function.update group.items item own }

@[simp] theorem Group.put_self {n : ℕ} (group : Group n) (mem : ℕ → MetaData)
    (item : Fin (n + 1)) (own : Item) : (group.put mem item own).items item = own :=
  Function.update_self ..

theorem Group.put_of_ne {n : ℕ} {item other : Fin (n + 1)} (different : other ≠ item)
    (group : Group n) (mem : ℕ → MetaData) (own : Item) :
    (group.put mem item own).items other = group.items other :=
  Function.update_of_ne different ..

/-- All items perform the group-wide operation, or one of them takes its next step. -/
inductive Action (n : ℕ)
  | groupLocalMemory
  | advance (item : Fin (n + 1))

/-- The next step of an item in a request for an id, with at most one access to the
table. -/
def Item.advance (localLinearId capacity id : ℕ) (mem : ℕ → MetaData) (own : Item) :
    Option ((ℕ → MetaData) × Item) :=
  match own.phase with
  | .getVarPtr off =>
      if off < own.numEntries then
        if (mem off).id = id then some (mem, { own with phase := .found off })
        else some (mem, { own with phase := .getVarPtr (off + 1) })
      else some (mem, { own with phase := .groupLocalMemory })
  | .found off =>
      match (mem off).ptr with
      | some data => some (mem, own.answer data)
      | none => some (mem, { own with phase := .groupLocalMemory })
  | .groupLocalMemory => none
  | .updatePtr data =>
      -- the assertion on the number of entries
      if own.numEntries + 1 ≤ capacity then
        some (if localLinearId = 0 then
            Function.update mem own.numEntries { mem own.numEntries with ptr := some data }
          else mem,
          { own with numEntries := own.numEntries + 1, phase := .updateId data })
      else none
  | .updateId data =>
      let off := own.numEntries - 1
      some (Function.update mem off { mem off with id }, own.answer data)

section Step

variable {n : ℕ} (requests : List ℕ) (allocated : ℕ → ℕ) (capacity : ℕ)

/-- The group-wide operation gives all items the same address. -/
def step (group : Group n) : Action n → Option (Group n)
  | .groupLocalMemory =>
      if ∀ item, (group.items item).phase = .groupLocalMemory then
        some { group with
          items := fun item =>
            { group.items item with phase := .updatePtr (allocated group.operations) }
          operations := group.operations + 1 }
      else none
  | .advance item => do
      let own := group.items item
      let id ← requests[own.served]?
      let (mem, own) ← own.advance item.val capacity id group.mem
      return group.put mem item own

/-- The ids that are known after so many requests, in the order of their first one. -/
def known (served : ℕ) : List ℕ := (requests.take served).eraseDups

/-- The address of the allocation of an id. -/
def address (id : ℕ) : ℕ := allocated (requests.eraseDups.idxOf id)

/-- No request is for the id that was allocated last. -/
def Spaced : Prop :=
  ∀ served id, requests[served]? = some id → (known requests served).getLast? ≠ some id

/-- In every run from every table all requests are answered with the address of their
id, and the items outside of the group-wide operation have counted the same entries. -/
structure Resolves (n : ℕ) : Prop where
  returns : ∀ mem group, Reachable (step requests allocated capacity) { mem } group →
    ∀ item : Fin (n + 1), (group.items item).results =
      (requests.take (group.items item).served).map (address requests allocated)
  counters : ∀ mem group, Reachable (step requests allocated capacity) { mem } group →
    ∀ item other : Fin (n + 1), (∀ data, (group.items item).phase ≠ .updatePtr data) →
      (∀ data, (group.items other).phase ≠ .updatePtr data) →
      (group.items item).numEntries = (group.items other).numEntries
  continues : ∀ mem (group : Group n), Reachable (step requests allocated capacity) { mem } group →
    (∀ item, (group.items item).served = requests.length) ∨
      ∃ action next, step requests allocated capacity group action = some next
  ends : ∃ bound, ∀ mem actions (final : Group n),
    run (step requests allocated capacity) { mem } actions = some final → actions.length ≤ bound

end Step

/-! ## The known ids -/

section Known

variable {requests : List ℕ} {served id : ℕ}

theorem known_prefixOf (requests : List ℕ) (served : ℕ) :
    known requests served <+: requests.eraseDups := by
  have parts : (requests.take served ++ requests.drop served).eraseDups = _ :=
    List.eraseDups_append
  rw [List.take_append_drop] at parts
  exact ⟨_, parts.symm⟩

private theorem known_succ (request : requests[served]? = some id) :
    known requests (served + 1) =
      if id ∈ known requests served then known requests served
      else known requests served ++ [id] := by
  unfold known
  rw [List.take_add_one, request, Option.toList_some, List.eraseDups_append]
  simp only [List.mem_eraseDups]
  split
  · simp [List.removeAll, *]
  · rename_i unknown
    simp [List.removeAll, unknown, List.eraseDups_cons]

theorem known_length_le (requests : List ℕ) (served : ℕ) :
    (known requests served).length ≤ served := by
  induction served with
  | zero => simp [known]
  | succ served ih =>
      cases request : requests[served]? with
      | none =>
          have all : requests.take (served + 1) = requests.take served := by
            rw [List.take_add_one, request, Option.toList_none, List.append_nil]
          unfold known at ih ⊢
          rw [all]
          exact ih.trans (Nat.le_succ _)
      | some id =>
          rw [known_succ request]
          split
          · exact ih.trans (Nat.le_succ _)
          · rw [List.length_append]
            exact Nat.succ_le_succ ih

theorem known_nodup (requests : List ℕ) (served : ℕ) : (known requests served).Nodup := by
  induction served with
  | zero => simp [known]
  | succ served ih =>
      cases request : requests[served]? with
      | none =>
          unfold known at ih ⊢
          rwa [List.take_add_one, request, Option.toList_none, List.append_nil]
      | some id =>
          rw [known_succ request]
          split
          · exact ih
          · rename_i unknown
            exact List.nodup_append.mpr ⟨ih, List.nodup_singleton _, by
              rintro other member _ (_ | ⟨_, ⟨⟩⟩) rfl
              exact unknown member⟩

private theorem known_last (request : requests[served]? = some id)
    (unknown : id ∉ known requests served) :
    (known requests (served + 1))[(known requests served).length]? = some id := by
  rw [known_succ request, if_neg unknown, List.getElem?_concat_length]

theorem eraseDups_eq_known (requests : List ℕ) :
    requests.eraseDups = known requests requests.length := by
  rw [known, List.take_length]

private theorem getElem?_eraseDups {off : ℕ} (entry : (known requests served)[off]? = some id) :
    requests.eraseDups[off]? = some id := by
  obtain ⟨rest, whole⟩ := known_prefixOf requests served
  obtain ⟨below, -⟩ := List.getElem?_eq_some_iff.mp entry
  rw [← whole, List.getElem?_append_left below, entry]

theorem address_of_getElem? (allocated : ℕ → ℕ) {off : ℕ}
    (entry : (known requests served)[off]? = some id) :
    address requests allocated id = allocated off := by
  obtain ⟨below, here⟩ := List.getElem?_eq_some_iff.mp (getElem?_eraseDups entry)
  have nodup : requests.eraseDups.Nodup := by
    rw [eraseDups_eq_known]
    exact known_nodup _ _
  rw [address, ← here, nodup.idxOf_getElem]

end Known

/-! ## One step of an item -/

/-- What a step of an item does to the table and to the item. -/
inductive Item.Turn (localLinearId capacity id : ℕ) (mem : ℕ → MetaData) (own : Item) :
    (ℕ → MetaData) → Item → Prop
  | hit {off : ℕ} (phase : own.phase = .getVarPtr off) (entry : off < own.numEntries)
      (same : (mem off).id = id) : Turn localLinearId capacity id mem own mem
        { own with phase := .found off }
  | miss {off : ℕ} (phase : own.phase = .getVarPtr off) (entry : off < own.numEntries)
      (different : (mem off).id ≠ id) : Turn localLinearId capacity id mem own mem
        { own with phase := .getVarPtr (off + 1) }
  | absent {off : ℕ} (phase : own.phase = .getVarPtr off) (through : own.numEntries ≤ off) :
      Turn localLinearId capacity id mem own mem { own with phase := .groupLocalMemory }
  | read {off data : ℕ} (phase : own.phase = .found off) (ptr : (mem off).ptr = some data) :
      Turn localLinearId capacity id mem own mem (own.answer data)
  | null {off : ℕ} (phase : own.phase = .found off) (ptr : (mem off).ptr = none) :
      Turn localLinearId capacity id mem own mem { own with phase := .groupLocalMemory }
  | pointer {data : ℕ} (phase : own.phase = .updatePtr data)
      (room : own.numEntries + 1 ≤ capacity) :
      Turn localLinearId capacity id mem own
        (if localLinearId = 0 then
            Function.update mem own.numEntries { mem own.numEntries with ptr := some data }
          else mem)
        { own with numEntries := own.numEntries + 1, phase := .updateId data }
  | name {data : ℕ} (phase : own.phase = .updateId data) :
      Turn localLinearId capacity id mem own
        (Function.update mem (own.numEntries - 1) { mem (own.numEntries - 1) with id })
        (own.answer data)

section Turn

variable {localLinearId capacity id : ℕ} {mem mem' : ℕ → MetaData} {own own' : Item}

private theorem Item.turn_of_advance (advanced : own.advance localLinearId capacity id mem =
    some (mem', own')) : own.Turn localLinearId capacity id mem mem' own' := by
  unfold Item.advance at advanced
  split at advanced
  · rename_i off phase
    split_ifs at advanced with entry same
    · cases advanced
      exact .hit phase entry same
    · cases advanced
      exact .miss phase entry same
    · cases advanced
      exact .absent phase (Nat.le_of_not_lt entry)
  · rename_i off phase
    split at advanced
    · rename_i data ptr
      cases advanced
      exact .read phase ptr
    · rename_i ptr
      cases advanced
      exact .null phase ptr
  · cases advanced
  · rename_i data phase
    obtain ⟨room, taken⟩ := Option.ite_none_right_eq_some.mp advanced
    cases taken
    exact .pointer phase room
  · rename_i data phase
    cases advanced
    exact .name phase

end Turn

/-! ## The invariant -/

section Sound

variable {n : ℕ} (requests : List ℕ) (allocated : ℕ → ℕ)

/-- An item is about to allocate the variable that it requests. -/
def Item.Lacks (own : Item) : Prop :=
  ∃ id, requests[own.served]? = some id ∧ id ∉ known requests own.served

/-- What an item relies on at its point of a request. All items have left the same
group-wide operations, one for each id that they know. -/
def Item.At (operations : ℕ) (own : Item) : Prop :=
  let entries := (known requests own.served).length
  match own.phase with
  | .getVarPtr off => own.numEntries = entries ∧ operations = entries ∧ off ≤ entries ∧
      (off = 0 ∨ ∃ id, requests[own.served]? = some id ∧ id ∉ (known requests own.served).take off)
  | .found off => own.numEntries = entries ∧ operations = entries ∧
      ∃ id, requests[own.served]? = some id ∧ (known requests own.served)[off]? = some id
  | .groupLocalMemory => own.numEntries = entries ∧ operations = entries ∧ own.Lacks requests
  | .updatePtr data => own.numEntries = entries ∧ operations = entries + 1 ∧
      own.Lacks requests ∧ data = allocated entries
  | .updateId data => own.numEntries = entries + 1 ∧ operations = entries + 1 ∧
      own.Lacks requests ∧ data = allocated entries

/-- The item has got the right addresses, and it knows the ids of the table. -/
structure Item.Sound (mem : ℕ → MetaData) (operations : ℕ) (own : Item) : Prop where
  results : own.results = (requests.take own.served).map (address requests allocated)
  ids : ∀ off id, (known requests own.served)[off]? = some id → (mem off).id = id
  point : own.At requests allocated operations

/-- So many entries hold their address, and the others what they held at the start. -/
def Written (start : ℕ → MetaData) (entries : ℕ) (mem : ℕ → MetaData) : Prop :=
  ∀ off, (mem off).ptr = if off < entries then some (allocated off) else (start off).ptr

def leader : Fin (n + 1) := ⟨0, Nat.succ_pos n⟩

/-- The first item has written the addresses of the entries that it counts. -/
structure Group.Sound (start : ℕ → MetaData) (group : Group n) : Prop where
  ptrs : Written allocated start (group.items leader).numEntries group.mem
  items : ∀ item, (group.items item).Sound requests allocated group.mem group.operations

end Sound

section Preserved

variable {n : ℕ} {requests : List ℕ} {allocated : ℕ → ℕ} {localLinearId capacity id operations : ℕ}
  {mem mem' : ℕ → MetaData} {own own' : Item}

/-- A result that is right makes the item right that returns it. -/
private theorem Item.Sound.answer {data : ℕ} (sound : own.Sound requests allocated mem operations)
    (request : requests[own.served]? = some id) (right : data = address requests allocated id)
    (counted : own.numEntries = (known requests (own.served + 1)).length)
    (passed : operations = own.numEntries)
    (ids : ∀ off id, (known requests (own.served + 1))[off]? = some id → (mem' off).id = id) :
    (own.answer data).Sound requests allocated mem' operations := by
  have more : (own.answer data).served = own.served + 1 := List.length_append
  refine ⟨?_, ?_, ?_⟩
  · rw [more, List.take_add_one, request, Option.toList_some, List.map_append, ← sound.results,
      List.map_singleton, ← right]
    rfl
  · rwa [more]
  · unfold Item.At
    rw [more]
    exact ⟨counted, passed.trans counted, Nat.zero_le _, .inl rfl⟩

private theorem absent_before {off : ℕ}
    (before : off = 0 ∨ ∃ id, requests[own.served]? = some id ∧
      id ∉ (known requests own.served).take off) (request : requests[own.served]? = some id) :
    id ∉ (known requests own.served).take off := by
  obtain rfl | ⟨_, request', absent⟩ := before
  · exact List.not_mem_nil
  · cases request.symm.trans request'
    exact absent

/-- A step of an item keeps it right, if the entries that it finds hold their address. -/
private theorem Item.Sound.turn (sound : own.Sound requests allocated mem operations)
    (request : requests[own.served]? = some id)
    (written : ∀ off, own.phase = .found off → (mem off).ptr = some (allocated off))
    (turn : own.Turn localLinearId capacity id mem mem' own') :
    own'.Sound requests allocated mem' operations := by
  have point := sound.point
  unfold Item.At at point
  cases turn with
  | @hit off phase entry same =>
      rw [phase] at point
      obtain ⟨counted, passed, within, before⟩ := point
      have below : off < (known requests own.served).length := counted ▸ entry
      have here := List.getElem?_eq_getElem below
      have found : (known requests own.served)[off]? = some id := by
        rw [here, ← same, sound.ids off _ here]
      exact ⟨sound.results, sound.ids, counted, passed, id, request, found⟩
  | @miss off phase entry different =>
      rw [phase] at point
      obtain ⟨counted, passed, within, before⟩ := point
      have below : off < (known requests own.served).length := counted ▸ entry
      have here := List.getElem?_eq_getElem below
      have absent : id ∉ (known requests own.served).take (off + 1) := by
        rw [List.take_add_one, here, Option.toList_some, List.mem_append, List.mem_singleton]
        rintro (earlier | rfl)
        · exact absent_before before request earlier
        · exact different (sound.ids off _ here)
      exact ⟨sound.results, sound.ids, counted, passed, below, .inr ⟨id, request, absent⟩⟩
  | @absent off phase through =>
      rw [phase] at point
      obtain ⟨counted, passed, within, before⟩ := point
      have absent := absent_before before request
      rw [List.take_of_length_le (counted ▸ through)] at absent
      exact ⟨sound.results, sound.ids, counted, passed, id, request, absent⟩
  | @read off data phase ptr =>
      rw [phase] at point
      obtain ⟨counted, passed, id', request', entry⟩ := point
      cases request.symm.trans request'
      have same : known requests (own.served + 1) = known requests own.served := by
        rw [known_succ request, if_pos (List.mem_of_getElem? entry)]
      refine sound.answer request ?_ ?_ ?_ ?_
      · rw [address_of_getElem? allocated entry]
        exact Option.some.inj (ptr.symm.trans (written off phase))
      · rw [same, counted]
      · rw [passed, counted]
      · rw [same]
        exact sound.ids
  | @null off phase ptr =>
      cases ptr.symm.trans (written off phase)
  | @pointer data phase room =>
      rw [phase] at point
      obtain ⟨counted, passed, lacks, right⟩ := point
      refine ⟨sound.results, fun off id' entry => ?_, congrArg (· + 1) counted, passed, lacks,
        right⟩
      rw [← sound.ids off id' entry]
      split
      · by_cases here : off = own.numEntries
        · rw [here, Function.update_self]
        · rw [Function.update_of_ne here]
      · rfl
  | @name data phase =>
      rw [phase] at point
      obtain ⟨counted, passed, ⟨id', request', unknown⟩, right⟩ := point
      cases request.symm.trans request'
      have grown : known requests (own.served + 1) = known requests own.served ++ [id] := by
        rw [known_succ request, if_neg unknown]
      have last := known_last request unknown
      refine sound.answer request ?_ ?_ ?_ ?_
      · rw [right, address_of_getElem? allocated last]
      · rw [grown, counted, List.length_append, List.length_singleton]
      · rw [passed, counted]
      · intro off other entry
        rw [counted, Nat.add_sub_cancel]
        by_cases here : off = (known requests own.served).length
        · rw [here] at entry ⊢
          rw [Function.update_self]
          exact Option.some.inj (last.symm.trans entry)
        · rw [Function.update_of_ne here]
          apply sound.ids
          obtain ⟨below, -⟩ := List.getElem?_eq_some_iff.mp entry
          rw [grown, List.length_append, List.length_singleton] at below
          rwa [grown, List.getElem?_append_left
            (lt_of_le_of_ne (Nat.le_of_lt_succ below) here)] at entry

/-- What a step writes into the table agrees with what the other items know. -/
private theorem Item.Sound.keeps_ids (sound : own.Sound requests allocated mem operations)
    (request : requests[own.served]? = some id)
    (turn : own.Turn localLinearId capacity id mem mem' own') {off other : ℕ}
    (entry : requests.eraseDups[off]? = some other) (same : (mem off).id = other) :
    (mem' off).id = other := by
  have point := sound.point
  unfold Item.At at point
  cases turn with
  | hit | miss | absent | read | null => exact same
  | pointer phase room =>
      split
      · by_cases here : off = own.numEntries
        · rwa [here, Function.update_self, ← here]
        · rwa [Function.update_of_ne here]
      · exact same
  | name phase =>
      rw [phase] at point
      obtain ⟨counted, passed, ⟨id', request', unknown⟩, right⟩ := point
      cases request.symm.trans request'
      rw [counted, Nat.add_sub_cancel]
      by_cases here : off = (known requests own.served).length
      · have last := getElem?_eraseDups (known_last request unknown)
        rw [here] at entry ⊢
        rw [Function.update_self]
        exact Option.some.inj (last.symm.trans entry)
      · rwa [Function.update_of_ne here]

/-- The first item writes an address for each entry that it counts. -/
private theorem Item.Sound.writes {start : ℕ → MetaData}
    (sound : own.Sound requests allocated mem operations)
    (turn : own.Turn localLinearId capacity id mem mem' own') (first : localLinearId = 0)
    (written : Written allocated start own.numEntries mem) :
    Written allocated start own'.numEntries mem' := by
  have point := sound.point
  unfold Item.At at point
  cases turn with
  | hit | miss | absent | read | null => exact written
  | pointer phase room =>
      rw [phase] at point
      obtain ⟨counted, passed, lacks, right⟩ := point
      intro off
      rw [if_pos first]
      by_cases here : off = own.numEntries
      · rw [here, Function.update_self, if_pos (Nat.lt_succ_self _), right, counted]
      · rw [Function.update_of_ne here, written off]
        have same : off < own.numEntries + 1 ↔ off < own.numEntries := by omega
        simp only [same]
  | name phase =>
      intro off
      by_cases here : off = own.numEntries - 1
      · rw [here, Function.update_self]
        exact written _
      · rw [Function.update_of_ne here]
        exact written off

/-- The other items write none. -/
private theorem Item.Turn.keeps_ptrs (turn : own.Turn localLinearId capacity id mem mem' own')
    (later : localLinearId ≠ 0) (off : ℕ) : (mem' off).ptr = (mem off).ptr := by
  cases turn with
  | hit | miss | absent | read | null => rfl
  | pointer phase room => rw [if_neg later]
  | name phase =>
      by_cases here : off = own.numEntries - 1
      · rw [here, Function.update_self]
      · rw [Function.update_of_ne here]

theorem Item.Sound.counts (sound : own.Sound requests allocated mem operations) :
    own.numEntries = operations ∨
      ∃ data, own.phase = .updatePtr data ∧ own.numEntries + 1 = operations := by
  have point := sound.point
  unfold Item.At at point
  cases phase : own.phase with
  | getVarPtr off | found off | groupLocalMemory | updateId data =>
      rw [phase] at point
      exact .inl (point.1.trans point.2.1.symm)
  | updatePtr data =>
      rw [phase] at point
      exact .inr ⟨data, rfl, (congrArg (· + 1) point.1).trans point.2.1.symm⟩

end Preserved

section Group

variable {n capacity : ℕ} {requests : List ℕ} {allocated : ℕ → ℕ} {start : ℕ → MetaData}
  {group next : Group n}

/-- What an action does to the group. -/
theorem step_cases {action : Action n}
    (taken : step requests allocated capacity group action = some next) :
    (action = .groupLocalMemory ∧ (∀ item, (group.items item).phase = .groupLocalMemory) ∧
      next = { group with
        items := fun item =>
          { group.items item with phase := .updatePtr (allocated group.operations) }
        operations := group.operations + 1 }) ∨
    ∃ item id mem own, action = .advance item ∧
      requests[(group.items item).served]? = some id ∧
      (group.items item).Turn item.val capacity id group.mem mem own ∧
      next = group.put mem item own := by
  cases action with
  | groupLocalMemory =>
      obtain ⟨all, same⟩ := Option.ite_none_right_eq_some.mp taken
      exact .inl ⟨rfl, all, (Option.some.inj same).symm⟩
  | advance item =>
      obtain ⟨id, request, rest⟩ := Option.bind_eq_some_iff.mp taken
      obtain ⟨⟨mem, own⟩, advanced, same⟩ := Option.bind_eq_some_iff.mp rest
      exact .inr ⟨item, id, mem, own, rfl, request, Item.turn_of_advance advanced,
        (Option.some.inj same).symm⟩

theorem step_advance {item : Fin (n + 1)} {id : ℕ} {mem : ℕ → MetaData} {own : Item}
    (request : requests[(group.items item).served]? = some id)
    (advanced : (group.items item).advance item.val capacity id group.mem = some (mem, own)) :
    step requests allocated capacity group (.advance item) =
      some (group.put mem item own) := by
  unfold step
  dsimp only
  rw [request]
  refine Option.bind_eq_some_iff.mpr ⟨id, rfl, ?_⟩
  exact Option.bind_eq_some_iff.mpr ⟨_, advanced, rfl⟩

/-- An entry that an item finds holds its address: the first item is behind the write,
or it is the entry of an older id. -/
private theorem Group.Sound.written (sound : group.Sound requests allocated start)
    (apart : n = 0 ∨ Spaced requests) {item : Fin (n + 1)} {off : ℕ}
    (found : (group.items item).phase = .found off) :
    (group.mem off).ptr = some (allocated off) := by
  have point := (sound.items item).point
  unfold Item.At at point
  rw [found] at point
  obtain ⟨-, passed, id, request, entry⟩ := point
  obtain ⟨below, -⟩ := List.getElem?_eq_some_iff.mp entry
  rw [sound.ptrs off, if_pos]
  obtain level | ⟨data, leaving, behind⟩ := (sound.items leader).counts
  · rwa [level, passed]
  · obtain rfl | spaced := apart
    · have alone : leader = item := Fin.ext (by omega)
      rw [alone, found] at leaving
      cases leaving
    · have newest : off + 1 ≠ (known requests (group.items item).served).length := by
        intro last
        apply spaced _ id request
        rwa [List.getLast?_eq_getElem?, ← last]
      omega

theorem Group.sound_start (mem : ℕ → MetaData) :
    ({ mem } : Group n).Sound requests allocated mem := by
  refine ⟨fun off => (if_neg (Nat.not_lt_zero off)).symm, fun item => ⟨rfl, ?_, ?_⟩⟩
  · intro off id entry
    cases entry
  · exact ⟨rfl, rfl, le_rfl, .inl rfl⟩

/-- **Every action keeps the invariant.** -/
theorem Group.Sound.kept (sound : group.Sound requests allocated start)
    (apart : n = 0 ∨ Spaced requests) {action : Action n}
    (taken : step requests allocated capacity group action = some next) :
    next.Sound requests allocated start := by
  obtain ⟨-, all, rfl⟩ | ⟨item, id, mem, own, -, request, turn, rfl⟩ := step_cases taken
  · refine ⟨sound.ptrs, fun item => ?_⟩
    have own := sound.items item
    have point := own.point
    unfold Item.At at point
    rw [all item] at point
    obtain ⟨counted, passed, lacks⟩ := point
    exact ⟨own.results, own.ids, counted, congrArg (· + 1) passed, lacks, congrArg allocated passed⟩
  · have moved := sound.items item
    refine ⟨?_, fun other => ?_⟩
    · by_cases first : leader = item
      · rw [first, Group.put_self]
        have written := sound.ptrs
        rw [first] at written
        exact moved.writes turn (first ▸ rfl) written
      · rw [Group.put_of_ne first]
        intro off
        exact (turn.keeps_ptrs (fun zero => first (Fin.ext zero.symm)) off).trans (sound.ptrs off)
    · by_cases same : other = item
      · rw [same, Group.put_self]
        exact moved.turn request (fun off found => sound.written apart found) turn
      · rw [Group.put_of_ne same]
        have still := sound.items other
        exact ⟨still.results, fun off id' entry => moved.keeps_ids request turn
          (getElem?_eraseDups entry) (still.ids off id' entry), still.point⟩

end Group

end Alpaka.SyclSharedMemory
