import Mathlib.Data.List.Nodup
import Mathlib.Data.Set.Disjoint
import Mathlib.Data.Set.Lattice
import Mathlib.Logic.Function.Basic
import Mathlib.Order.CompletePartialOrder
import Mathlib.Order.Interval.Set.Defs
import Alpaka.Math.Split

/-! # Independent tasks

Tasks change a common memory one after the other. Each task writes its own places,
from values that no other task writes, and may leave anything behind in places that
nobody looks at. Whatever the order of the tasks, every place then holds what its
own task makes of the memory as it was before all of them (`Math.Footprint.runs`).
-/

namespace Math

variable {Task Place Value : Type*}

/-- What a family of tasks does to a memory, and what each of them writes and looks at.
The places that only serve as scratch are common to all tasks. -/
structure Footprint (Task Place Value : Type*) where
  act : Task → (Place → Value) → Place → Value
  reads : Task → Set Place
  writes : Task → Set Place
  scratch : Set Place

namespace Footprint

variable {footprint : Footprint Task Place Value} {tasks : List Task}

/-- The footprint of a task tells the truth. -/
structure Bounds (footprint : Footprint Task Place Value) (task : Task) : Prop where
  unchanged : ∀ memory x, x ∉ footprint.writes task → x ∉ footprint.scratch →
    footprint.act task memory x = memory x
  determined : ∀ first second, (∀ x ∈ footprint.reads task, first x = second x) →
    ∀ x ∈ footprint.writes task, footprint.act task first x = footprint.act task second x
  readsClean : Disjoint (footprint.reads task) footprint.scratch
  writesClean : Disjoint (footprint.writes task) footprint.scratch

/-- One task writes nothing that the other one reads or writes. -/
def Spares (footprint : Footprint Task Place Value) (first second : Task) : Prop :=
  Disjoint (footprint.writes first) (footprint.reads second) ∧
    Disjoint (footprint.writes first) (footprint.writes second)

/-- The tasks run one after the other. -/
def run (footprint : Footprint Task Place Value) (tasks : List Task) (memory : Place → Value) :
    Place → Value :=
  tasks.foldl (fun memory task => footprint.act task memory) memory

theorem run_unwritten (bounds : ∀ task ∈ tasks, footprint.Bounds task) (memory : Place → Value)
    {x : Place} (unwritten : ∀ task ∈ tasks, x ∉ footprint.writes task)
    (clean : x ∉ footprint.scratch) : footprint.run tasks memory x = memory x := by
  induction tasks generalizing memory with
  | nil => rfl
  | cons task tasks ih =>
      have rest := ih (fun other member => bounds other (List.mem_cons_of_mem _ member))
        (footprint.act task memory)
        (fun other member => unwritten other (List.mem_cons_of_mem _ member))
      exact rest.trans ((bounds task List.mem_cons_self).unchanged memory x
        (unwritten task List.mem_cons_self) clean)

/-- **Any order.** A place holds what its own task makes of the memory before all
tasks. -/
theorem run_written (bounds : ∀ task ∈ tasks, footprint.Bounds task) (distinct : tasks.Nodup)
    (apart : ∀ first ∈ tasks, ∀ second ∈ tasks, first ≠ second → footprint.Spares first second)
    (memory : Place → Value) {task : Task} (member : task ∈ tasks) {x : Place}
    (written : x ∈ footprint.writes task) :
    footprint.run tasks memory x = footprint.act task memory x := by
  induction tasks generalizing memory with
  | nil => cases member
  | cons head tasks ih =>
      obtain ⟨fresh, distinctRest⟩ := List.nodup_cons.mp distinct
      have boundsRest : ∀ other ∈ tasks, footprint.Bounds other := fun other inside =>
        bounds other (List.mem_cons_of_mem _ inside)
      have clean : x ∉ footprint.scratch :=
        Set.disjoint_left.mp (bounds task member).writesClean written
      obtain rfl | later := List.mem_cons.mp member
      · apply run_unwritten boundsRest _ (fun other inside => ?_) clean
        have different : task ≠ other := fun same => fresh (same ▸ inside)
        exact Set.disjoint_left.mp (apart task member other (List.mem_cons_of_mem _ inside)
          different).2 written
      · have different : head ≠ task := fun same => fresh (same ▸ later)
        have spares := apart head List.mem_cons_self task member different
        have rest := ih boundsRest distinctRest
          (fun first inside second inside' => apart first (List.mem_cons_of_mem _ inside) second
            (List.mem_cons_of_mem _ inside')) (footprint.act head memory) later
        refine rest.trans ((bounds task member).determined _ _ (fun y read => ?_) x written)
        exact (bounds head List.mem_cons_self).unchanged memory y
          (fun other => Set.disjoint_left.mp spares.1 other read)
          (Set.disjoint_left.mp (bounds task member).readsClean read)

end Footprint

/-! ## Assigning to places -/

/-- The memory after differs from the memory before in that some places were given
their values, and in the scratch. -/
structure Assigns {Index : Type*} (scratch : Set Place) (index : Set Index)
    (place : Index → Place) (value : Index → Value) (before after : Place → Value) : Prop where
  written : ∀ i ∈ index, after (place i) = value i
  other : ∀ x, x ∉ scratch → (∀ i ∈ index, x ≠ place i) → after x = before x

namespace Assigns

variable {Index Other : Type*} {scratch : Set Place} {index : Set Index} {place : Index → Place}
  {value : Index → Value} {before after : Place → Value}

theorem congr_value {value' : Index → Value}
    (assigns : Assigns scratch index place value before after)
    (same : ∀ i ∈ index, value i = value' i) :
    Assigns scratch index place value' before after :=
  ⟨fun i member => (assigns.written i member).trans (same i member), assigns.other⟩

/-- The same places under other indices. -/
theorem relabel {others : Set Other} {place' : Other → Place} {value' : Other → Value}
    (assigns : Assigns scratch index place value before after)
    (covered : ∀ j ∈ others, ∃ i ∈ index, place i = place' j ∧ value i = value' j)
    (onto : ∀ i ∈ index, ∃ j ∈ others, place' j = place i) :
    Assigns scratch others place' value' before after where
  written := fun j member => by
    obtain ⟨i, inside, samePlace, sameValue⟩ := covered j member
    rw [← samePlace, ← sameValue]
    exact assigns.written i inside
  other := fun x clean away => by
    refine assigns.other x clean fun i member same => ?_
    obtain ⟨j, member', same'⟩ := onto i member
    exact away j member' (same.trans same'.symm)

theorem reindex (assigns : Assigns scratch index place value before after) {others : Set Other}
    (rename : Other → Index) (inside : ∀ i ∈ others, rename i ∈ index)
    (onto : ∀ i ∈ index, ∃ j ∈ others, place (rename j) = place i) :
    Assigns scratch others (fun i => place (rename i)) (fun i => value (rename i)) before after :=
  assigns.relabel (fun j member => ⟨rename j, inside j member, rfl, rfl⟩) onto

/-- Two assignments to different places, one after the other. -/
theorem sum {others : Set Other} {place' : Other → Place} {value' : Other → Value}
    {between : Place → Value} (first : Assigns scratch index place value before between)
    (second : Assigns scratch others place' value' between after)
    (clean : ∀ i ∈ index, place i ∉ scratch)
    (apart : ∀ i ∈ index, ∀ j ∈ others, place i ≠ place' j) :
    Assigns scratch {i | Sum.elim (· ∈ index) (· ∈ others) i} (Sum.elim place place')
      (Sum.elim value value') before after where
  written
    | .inl i, member => (second.other _ (clean i member) (apart i member)).trans
        (first.written i member)
    | .inr j, member => second.written j member
  other := fun x cleanX away => by
    have later : after x = between x := second.other x cleanX fun j member => away (.inr j) member
    exact later.trans (first.other x cleanX fun i member => away (.inl i) member)

/-- An assignment to places that are assigned to again. -/
theorem overwrite {others : Set Other} {place' : Other → Place} {value' : Other → Value}
    {between : Place → Value} (first : Assigns scratch index place value before between)
    (second : Assigns scratch others place' value' between after)
    (covered : ∀ i ∈ index, ∃ j ∈ others, place' j = place i) :
    Assigns scratch others place' value' before after where
  written := second.written
  other := fun x clean away => by
    refine (second.other x clean away).trans (first.other x clean fun i member same => ?_)
    obtain ⟨j, member', same'⟩ := covered i member
    exact away j member' (same.trans same'.symm)

end Assigns

section Assigning

/-- **Assigning in any order.** No task writes a place that another one reads or
writes. -/
theorem foldl_assigns {Index : Type*} {scratch : Set Place} {index : Task → Set Index}
    {place : Task → Index → Place} {value : Task → (Place → Value) → Index → Value}
    {act : Task → (Place → Value) → Place → Value} (reads : Task → Set Place) {tasks : List Task}
    (distinct : tasks.Nodup)
    (assigns : ∀ task ∈ tasks, ∀ memory,
      Assigns scratch (index task) (place task) (value task memory) memory (act task memory))
    (determined : ∀ task ∈ tasks, ∀ first second : Place → Value,
      (∀ x ∈ reads task, first x = second x) →
        ∀ i ∈ index task, value task first i = value task second i)
    (readsClean : ∀ task ∈ tasks, Disjoint (reads task) scratch)
    (writesClean : ∀ task ∈ tasks, ∀ i ∈ index task, place task i ∉ scratch)
    (apart : ∀ first ∈ tasks, ∀ second ∈ tasks, first ≠ second → ∀ i ∈ index first,
      place first i ∉ reads second ∧ ∀ j ∈ index second, place first i ≠ place second j)
    (memory : Place → Value) :
    Assigns scratch {i : Task × Index | i.1 ∈ tasks ∧ i.2 ∈ index i.1}
      (fun i => place i.1 i.2) (fun i => value i.1 memory i.2) memory
      (tasks.foldl (fun memory task => act task memory) memory) := by
  let footprint : Footprint Task Place Value :=
    ⟨act, reads, fun task => Set.image (place task) (index task), scratch⟩
  have bounds : ∀ task ∈ tasks, footprint.Bounds task := by
    refine fun task member => ⟨fun memory x away clean => ?_,
      fun first second agree x written => ?_, readsClean task member, Set.disjoint_left.mpr ?_⟩
    · exact (assigns task member memory).other x clean fun i inside same =>
        away ⟨i, inside, same.symm⟩
    · obtain ⟨i, inside, rfl⟩ := written
      exact ((assigns task member first).written i inside).trans
        ((determined task member first second agree i inside).trans
          ((assigns task member second).written i inside).symm)
    · rintro x ⟨i, inside, rfl⟩
      exact writesClean task member i inside
  have spares : ∀ first ∈ tasks, ∀ second ∈ tasks, first ≠ second →
      footprint.Spares first second := by
    refine fun first member second member' different =>
      ⟨Set.disjoint_left.mpr ?_, Set.disjoint_left.mpr ?_⟩
    · rintro x ⟨i, inside, rfl⟩
      exact (apart first member second member' different i inside).1
    · rintro x ⟨i, inside, rfl⟩ ⟨j, inside', same⟩
      exact (apart first member second member' different i inside).2 j inside' same.symm
  refine ⟨fun ⟨task, i⟩ ⟨member, inside⟩ => ?_, fun x clean away => ?_⟩
  · exact (Footprint.run_written bounds distinct spares memory member ⟨i, inside, rfl⟩).trans
      ((assigns task member memory).written i inside)
  · refine Footprint.run_unwritten bounds memory (fun task member written => ?_) clean
    obtain ⟨i, inside, rfl⟩ := written
    exact away (task, i) ⟨member, inside⟩ rfl

/-- Blocks of `width` places each, and no block looks at another one. -/
theorem foldl_blocks_assigns {width stop : ℕ} (positive : 0 < width) (divides : width ∣ stop)
    {place : ℕ → Place} {value : ℕ → (Place → Value) → Value}
    {act : ℕ → (Place → Value) → Place → Value} (reads : ℕ → Set Place)
    (assigns : ∀ start, width ∣ start → start < stop → ∀ memory,
      Assigns ∅ (Set.Iio width) (fun i => place (start + i)) (fun i => value (start + i) memory)
        memory (act start memory))
    (determined : ∀ q < stop, ∀ first second : Place → Value,
      (∀ x ∈ reads q, first x = second x) → value q first = value q second)
    (apart : ∀ p < stop, ∀ q < stop, p / width ≠ q / width →
      place p ∉ reads q ∧ place p ≠ place q) (memory : Place → Value) :
    Assigns ∅ (Set.Iio stop) place (fun q => value q memory) memory
      ((progression 0 width stop).foldl (fun memory start => act start memory) memory) := by
  have starts {start : ℕ} (member : start ∈ progression 0 width stop) :
      width ∣ start ∧ start < stop := by
    obtain ⟨count, rfl, below⟩ := (mem_progression positive).mp member
    rw [Nat.zero_add] at below ⊢
    exact ⟨Nat.dvd_mul_left width count, below⟩
  have inside {start i : ℕ} (member : start ∈ progression 0 width stop) (lane : i < width) :
      start + i < stop ∧ (start + i) / width = start / width := by
    obtain ⟨aligned, below⟩ := starts member
    obtain ⟨count, rfl⟩ := aligned
    obtain ⟨blocks, rfl⟩ := divides
    have next : count + 1 ≤ blocks := Nat.lt_of_mul_lt_mul_left below
    have : width * count + width ≤ width * blocks := Nat.mul_le_mul_left width next
    rw [Nat.mul_add_div positive, Nat.div_eq_of_lt lane, Nat.mul_div_cancel_left _ positive]
    exact ⟨by omega, rfl⟩
  have other {first second : ℕ} (member : first ∈ progression 0 width stop)
      (member' : second ∈ progression 0 width stop) (different : first ≠ second) :
      first / width ≠ second / width := fun same =>
    different ((Nat.div_left_inj (starts member).1 (starts member').1).mp same)
  have all := foldl_assigns (fun start => {x | ∃ i < width, x ∈ reads (start + i)})
    (progression_nodup positive)
    (fun start member => assigns start (starts member).1 (starts member).2)
    (fun start member first second agree i lane => determined (start + i) (inside member lane).1
      first second fun x read => agree x ⟨i, lane, read⟩)
    (fun _ _ => Set.disjoint_empty _) (fun _ _ _ _ => Set.notMem_empty _)
    (fun first member second member' different i lane => by
      have blocks {j : ℕ} (lane' : j < width) : (first + i) / width ≠ (second + j) / width := by
        rw [(inside member lane).2, (inside member' lane').2]
        exact other member member' different
      refine ⟨fun ⟨j, lane', read⟩ => ?_, fun j lane' => ?_⟩
      · exact (apart _ (inside member lane).1 _ (inside member' lane').1 (blocks lane')).1 read
      · exact (apart _ (inside member lane).1 _ (inside member' lane').1 (blocks lane')).2) memory
  have whole (q : ℕ) : q / width * width + q % width = q := Nat.div_add_mod' q width
  have renamed : Assigns ∅ (Set.Iio stop) (fun q => place (q / width * width + q % width))
      (fun q => value (q / width * width + q % width) memory) memory _ :=
    all.reindex (fun q => (q / width * width, q % width)) ?_ ?_
  · simpa only [whole] using renamed
  · intro q below
    refine ⟨(mem_progression positive).mpr ⟨q / width, (Nat.zero_add _).symm, ?_⟩,
      Nat.mod_lt q positive⟩
    exact (Nat.div_mul_le_self q width).trans_lt below
  · rintro ⟨start, i⟩ ⟨member, lane⟩
    exact ⟨start + i, (inside member lane).1, congrArg place (whole (start + i))⟩

variable [DecidableEq Place] (place : Task → Place)

/-- Tasks that write one place each. -/
theorem foldl_update_assigns (value : Task → (Place → Value) → Value)
    (reads : Task → Set Place) {tasks : List Task} (distinct : tasks.Nodup)
    (determined : ∀ task ∈ tasks, ∀ first second : Place → Value,
      (∀ x ∈ reads task, first x = second x) → value task first = value task second)
    (apart : ∀ first ∈ tasks, ∀ second ∈ tasks, first ≠ second →
      place first ∉ reads second ∧ place first ≠ place second) (memory : Place → Value) :
    Assigns ∅ {task | task ∈ tasks} place (fun task => value task memory) memory
      (tasks.foldl (fun memory task =>
        Function.update memory (place task) (value task memory)) memory) := by
  have single : ∀ task ∈ tasks, ∀ memory : Place → Value,
      Assigns ∅ (Set.univ : Set Unit) (fun _ => place task) (fun _ => value task memory) memory
        (Function.update memory (place task) (value task memory)) := fun task _ memory =>
    ⟨fun _ _ => Function.update_self _ _ _,
      fun x _ away => Function.update_of_ne (away () (Set.mem_univ _)) _ _⟩
  have all := foldl_assigns reads distinct single
    (fun task member first second agree _ _ => determined task member first second agree)
    (fun _ _ => Set.disjoint_empty _) (fun _ _ _ _ => Set.notMem_empty _)
    (fun first member second member' different _ _ =>
      (apart first member second member' different).imp_right fun places _ _ => places) memory
  exact all.reindex (fun task => (task, ())) (fun task member => ⟨member, Set.mem_univ _⟩)
    fun i member => ⟨i.1, member.1, rfl⟩

/-- Values that are known beforehand. -/
theorem foldl_store_assigns (value : Task → Value) {tasks : List Task} (distinct : tasks.Nodup)
    (apart : ∀ first ∈ tasks, ∀ second ∈ tasks, first ≠ second → place first ≠ place second)
    (memory : Place → Value) :
    Assigns ∅ {task | task ∈ tasks} place value memory
      (tasks.foldl (fun memory task => Function.update memory (place task) (value task)) memory) :=
  foldl_update_assigns place (fun task _ => value task) (fun _ => ∅) distinct (fun _ _ _ _ _ => rfl)
    (fun first member second member' different =>
      ⟨Set.notMem_empty _, apart first member second member' different⟩) memory

end Assigning

end Math
