import Mathlib.Data.Option.Basic
import Mathlib.Logic.Function.Basic
import Mathlib.Data.Nat.Notation

/-! # Caches of weak references

Objects are shared by counted references. For every key a cache has a weak reference to the
object that was created last for it. A request for a key takes over that object as long as
somebody refers to it, and creates an object otherwise. Objects with the same key to which
somebody refers are the same (`Math.WeakCache.Sound.unique`), and a request is answered with
such an object if there is one (`Math.WeakCache.Sound.acquire_eq`).
-/

namespace Math

/-- Objects are numbered by their creation. -/
structure WeakCache (K : Type*) where
  created : ℕ
  keyOf : ℕ → Option K
  strong : ℕ → ℕ
  weak : K → Option ℕ

namespace WeakCache

variable {K : Type*}

def empty : WeakCache K := ⟨0, fun _ => none, fun _ => 0, fun _ => none⟩

section Operations

variable [DecidableEq K] (cache : WeakCache K)

/-- The object that a weak reference still refers to. -/
def lock (key : K) : Option ℕ := (cache.weak key).filter fun object => 0 < cache.strong object

def copy (object : ℕ) : WeakCache K :=
  { cache with strong := Function.update cache.strong object (cache.strong object + 1) }

def drop (object : ℕ) : WeakCache K :=
  { cache with strong := Function.update cache.strong object (cache.strong object - 1) }

/-- A new object with a single reference. -/
def create (key : K) : WeakCache K where
  created := cache.created + 1
  keyOf := Function.update cache.keyOf cache.created (some key)
  strong := Function.update cache.strong cache.created 1
  weak := Function.update cache.weak key (some cache.created)

/-- The object of a key, and the cache with the new reference to it. -/
def acquire (key : K) : ℕ × WeakCache K :=
  match cache.lock key with
  | some object => (object, cache.copy object)
  | none => (cache.created, cache.create key)

end Operations

/-- Objects with references are those of the weak references. -/
structure Sound (cache : WeakCache K) : Prop where
  numbered : ∀ object, cache.created ≤ object → cache.strong object = 0
  keyed : ∀ object < cache.created, ∃ key, cache.keyOf object = some key
  weak_keyOf : ∀ key object, cache.weak key = some object →
    object < cache.created ∧ cache.keyOf object = some key
  cached : ∀ key object, cache.keyOf object = some key → 0 < cache.strong object →
    cache.weak key = some object

theorem sound_empty : (empty : WeakCache K).Sound where
  numbered := fun _ _ => rfl
  keyed := fun _ below => absurd below (Nat.not_lt_zero _)
  weak_keyOf := nofun
  cached := nofun

variable {cache : WeakCache K} {key : K} {object other : ℕ}

theorem lock_eq_some_iff :
    cache.lock key = some object ↔ cache.weak key = some object ∧ 0 < cache.strong object := by
  unfold lock
  rw [Option.filter_eq_some_iff, decide_eq_true_eq]

namespace Sound

theorem lt_created (sound : cache.Sound) (referred : 0 < cache.strong object) :
    object < cache.created := by
  by_contra fresh
  rw [sound.numbered object (Nat.le_of_not_lt fresh)] at referred
  exact Nat.lt_irrefl 0 referred

/-- **Uniqueness.** Two objects with the same key to which somebody refers are the same. -/
theorem unique (sound : cache.Sound) (keyOf : cache.keyOf object = some key)
    (keyOf' : cache.keyOf other = some key) (referred : 0 < cache.strong object)
    (referred' : 0 < cache.strong other) : object = other :=
  Option.some.inj ((sound.cached key object keyOf referred).symm.trans
    (sound.cached key other keyOf' referred'))

theorem lock_eq (sound : cache.Sound) (keyOf : cache.keyOf object = some key)
    (referred : 0 < cache.strong object) : cache.lock key = some object :=
  lock_eq_some_iff.mpr ⟨sound.cached key object keyOf referred, referred⟩

/-- References are only added to objects that have some. -/
theorem of_strong (sound : cache.Sound) {strong : ℕ → ℕ}
    (fewer : ∀ object, cache.strong object = 0 → strong object = 0) :
    ({ cache with strong := strong } : WeakCache K).Sound where
  numbered := fun object fresh => fewer object (sound.numbered object fresh)
  keyed := sound.keyed
  weak_keyOf := sound.weak_keyOf
  cached := fun key object keyOf referred => sound.cached key object keyOf
    (Nat.pos_of_ne_zero fun none => Nat.ne_of_gt referred (fewer object none))

theorem copy (sound : cache.Sound) (referred : 0 < cache.strong object) :
    (cache.copy object).Sound := by
  refine sound.of_strong fun other none => ?_
  have different : other ≠ object := by
    rintro rfl
    exact Nat.ne_of_gt referred none
  rw [Function.update_of_ne different, none]

theorem drop (sound : cache.Sound) (object : ℕ) : (cache.drop object).Sound := by
  refine sound.of_strong fun other none => ?_
  by_cases same : other = object
  · subst same
    rw [Function.update_self, none]
  · rw [Function.update_of_ne same, none]

section Requests

variable [DecidableEq K]

/-- An object is only created when nobody refers to one with the key. -/
theorem create (sound : cache.Sound) (expired : cache.lock key = none) :
    (cache.create key).Sound where
  numbered := fun object fresh => by
    have later : object ≠ cache.created := Nat.ne_of_gt (Nat.lt_of_succ_le fresh)
    change Function.update cache.strong cache.created 1 object = 0
    rw [Function.update_of_ne later]
    exact sound.numbered object (Nat.le_of_succ_le fresh)
  keyed := fun object below => by
    change ∃ key', Function.update cache.keyOf cache.created (some key) object = some key'
    by_cases same : object = cache.created
    · rw [same, Function.update_self]
      exact ⟨key, rfl⟩
    · rw [Function.update_of_ne same]
      exact sound.keyed object (Nat.lt_of_le_of_ne (Nat.le_of_lt_succ below) same)
  weak_keyOf := fun key' object reference => by
    change Function.update cache.weak key (some cache.created) key' = some object at reference
    change object < cache.created + 1 ∧
      Function.update cache.keyOf cache.created (some key) object = some key'
    by_cases same : key' = key
    · rw [same, Function.update_self] at reference
      rw [← Option.some.inj reference, Function.update_self, same]
      exact ⟨Nat.lt_succ_self _, rfl⟩
    · rw [Function.update_of_ne same] at reference
      obtain ⟨below, keyOf⟩ := sound.weak_keyOf key' object reference
      rw [Function.update_of_ne (Nat.ne_of_lt below)]
      exact ⟨Nat.lt_succ_of_lt below, keyOf⟩
  cached := fun key' object keyOf referred => by
    change Function.update cache.keyOf cache.created (some key) object = some key' at keyOf
    change 0 < Function.update cache.strong cache.created 1 object at referred
    change Function.update cache.weak key (some cache.created) key' = some object
    by_cases same : object = cache.created
    · rw [same, Function.update_self] at keyOf
      rw [← Option.some.inj keyOf, Function.update_self, same]
    · rw [Function.update_of_ne same] at keyOf referred
      have different : key' ≠ key := by
        rintro rfl
        rw [sound.lock_eq keyOf referred] at expired
        exact Option.some_ne_none _ expired
      rw [Function.update_of_ne different]
      exact sound.cached key' object keyOf referred

theorem acquire (sound : cache.Sound) (key : K) : (cache.acquire key).2.Sound := by
  unfold WeakCache.acquire
  split
  · rename_i object locked
    exact sound.copy (lock_eq_some_iff.mp locked).2
  · rename_i expired
    exact sound.create expired

/-- **Taking over.** A request is answered with the object to which somebody refers. -/
theorem acquire_eq (sound : cache.Sound) (keyOf : cache.keyOf object = some key)
    (referred : 0 < cache.strong object) :
    cache.acquire key = (object, cache.copy object) := by
  unfold WeakCache.acquire
  rw [sound.lock_eq keyOf referred]

/-- What a request changes: there is one more reference to the object of the answer, which
has the key, and objects keep their keys. -/
theorem acquire_spec (sound : cache.Sound) (key : K) :
    (cache.acquire key).2.strong = Function.update cache.strong (cache.acquire key).1
      (cache.strong (cache.acquire key).1 + 1) ∧
    (cache.acquire key).2.keyOf (cache.acquire key).1 = some key ∧
    ∀ object < cache.created, (cache.acquire key).2.keyOf object = cache.keyOf object := by
  unfold WeakCache.acquire
  split
  · rename_i object locked
    obtain ⟨reference, referred⟩ := lock_eq_some_iff.mp locked
    exact ⟨rfl, (sound.weak_keyOf key object reference).2, fun _ _ => rfl⟩
  · refine ⟨?_, Function.update_self _ _ _, fun object below => ?_⟩
    · change Function.update cache.strong cache.created 1 = _
      rw [sound.numbered cache.created (Nat.le_refl _)]
    · exact Function.update_of_ne (Nat.ne_of_lt below) _ _

end Requests

end Sound

end WeakCache

end Math
