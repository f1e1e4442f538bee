import Mathlib.Data.Finset.Card
import Mathlib.Data.Finset.Filter
import Mathlib.Data.Multiset.Count
import Mathlib.Tactic.Ring
import Alpaka.Math.Interleaving
import Alpaka.Math.WeakCache

/-! # Platforms and devices of the host

Platforms are made by a singleton, and a platform makes its devices. Both only keep weak
references to what they have made, and a device keeps its platform. However the calls of
threads overlap, all handles on a device with the same index are handles on the same device
(`Alpaka.CpuPlatform.devices_shared`).
-/

namespace Alpaka.CpuPlatform

open Math (WeakCache)
open Math.Interleaving

/-- How far a call of `makeDevice` has got: it looks at the number of entries, it makes the
entries, it looks for the device. -/
inductive Stage
  | checking
  | resizing
  | locking
  deriving DecidableEq

/-- A call of `makeDevice`. The caller keeps its handle on the platform for the call. A call
of `getDeviceCount` does what a call with an index out of range does. -/
structure Call where
  platform : ℕ
  idx : ℕ
  stage : Stage
  deriving DecidableEq

/-- The platforms and devices that were made, how many entries each platform has, and who
refers to what. A device with references belongs to those who hold handles, and a device
without references exists until its destructor ends. -/
structure Registry where
  platforms : WeakCache Unit
  devices : WeakCache (ℕ × ℕ)
  size : ℕ → ℕ
  platformHandles : ℕ → ℕ
  calls : Multiset Call
  existing : Finset ℕ
  faulted : Bool

namespace Registry

variable (registry : Registry)

def empty : Registry := ⟨.empty, .empty, fun _ => 0, fun _ => 0, 0, ∅, false⟩

def addHandle (platform : ℕ) : Registry :=
  { registry with
    platformHandles := Function.update registry.platformHandles platform
      (registry.platformHandles platform + 1) }

def removeHandle (platform : ℕ) : Registry :=
  { registry with
    platformHandles := Function.update registry.platformHandles platform
      (registry.platformHandles platform - 1) }

/-- The platform of a device. -/
def platformOf (device : ℕ) : Option ℕ := (registry.devices.keyOf device).map Prod.fst

/-- `makeSharedSingleton` -/
def makePlatform : Registry :=
  let (platform, platforms) := registry.platforms.acquire ()
  { registry with platforms := platforms }.addHandle platform

/-- What follows `getDeviceCount` in a call: it fails, or it goes on to lock the mutex. -/
def counted (devCount : ℕ) (call : Call) : Registry :=
  if devCount ≤ call.idx then registry.addHandle call.platform
  else { registry with calls := { call with stage := .locking } ::ₘ registry.calls }

/-- What a call does under the lock. A new device keeps its platform. -/
def makeDevice (call : Call) : Registry :=
  let key := (call.platform, call.idx)
  let (device, devices) := registry.devices.acquire key
  match registry.devices.lock key with
  | some _ => { registry with devices := devices }.addHandle call.platform
  | none =>
      { registry with
        devices := devices
        platforms := registry.platforms.copy call.platform
        existing := insert device registry.existing }.addHandle call.platform

/-- The next step of a call, which is taken out of the calls before. -/
def advance (devCount : ℕ) (call : Call) : Registry :=
  match call.stage with
  | .checking =>
      if registry.size call.platform < devCount then
        { registry with calls := { call with stage := .resizing } ::ₘ registry.calls }
      else registry.counted devCount call
  | .resizing =>
      { registry with size := Function.update registry.size call.platform devCount }.counted
        devCount call
  | .locking =>
      if call.idx < registry.size call.platform then registry.makeDevice call
      else { registry with faulted := true }

/-- Somebody has a handle on this device with this index. -/
def RefersTo (idx device : ℕ) : Prop :=
  0 < registry.devices.strong device ∧
    ∃ platform, registry.devices.keyOf device = some (platform, idx)

end Registry

/-- What threads do. -/
inductive Action
  | makePlatform
  | copyPlatform (platform : ℕ)
  | dropPlatform (platform : ℕ)
  | callMakeDevice (platform idx : ℕ)
  | advance (call : Call)
  | copyDevice (device : ℕ)
  | dropDevice (device : ℕ)
  | destroyDevice (device : ℕ)

/-- A step, if the action is possible. -/
def step (devCount : ℕ) (registry : Registry) : Action → Option Registry
  | .makePlatform => some registry.makePlatform
  | .copyPlatform platform =>
      if 0 < registry.platformHandles platform then
        some ({ registry with platforms := registry.platforms.copy platform }.addHandle platform)
      else none
  | .dropPlatform platform =>
      if 0 < registry.platformHandles platform then
        some ({ registry with platforms := registry.platforms.drop platform }.removeHandle platform)
      else none
  | .callMakeDevice platform idx =>
      if 0 < registry.platformHandles platform then
        some ({ registry with calls := ⟨platform, idx, .checking⟩ ::ₘ registry.calls }.removeHandle
          platform)
      else none
  | .advance call =>
      if call ∈ registry.calls then
        some ({ registry with calls := registry.calls.erase call }.advance devCount call)
      else none
  | .copyDevice device =>
      if 0 < registry.devices.strong device then
        some { registry with devices := registry.devices.copy device }
      else none
  | .dropDevice device =>
      if 0 < registry.devices.strong device then
        some { registry with devices := registry.devices.drop device }
      else none
  | .destroyDevice device =>
      if device ∈ registry.existing ∧ registry.devices.strong device = 0 then
        (registry.platformOf device).map fun platform =>
          { registry with
            existing := registry.existing.erase device
            platforms := registry.platforms.drop platform }
      else none

/-! ## Who refers to a platform -/

namespace Registry

/-- The handles of threads, the calls and the devices. -/
def owners (registry : Registry) (platform : ℕ) : ℕ :=
  registry.platformHandles platform + registry.calls.countP (fun call => call.platform = platform) +
    (registry.existing.filter fun device => registry.platformOf device = some platform).card

variable {registry : Registry} {platform idx device other : ℕ}

private theorem owners_insertDevice
    (created : ∀ device ∈ registry.existing, device < registry.devices.created) :
    owners
        { registry with
          devices := registry.devices.create (platform, idx)
          existing := insert registry.devices.created registry.existing } other =
      registry.owners other + if platform = other then 1 else 0 := by
  have older : ∀ device ∈ registry.existing,
      ((Function.update registry.devices.keyOf registry.devices.created
        (some (platform, idx)) device).map Prod.fst = some other) =
        (registry.platformOf device = some other) := by
    intro device member
    rw [Function.update_of_ne (Nat.ne_of_lt (created device member))]
    rfl
  have fresh : registry.devices.created ∉
      registry.existing.filter fun device => registry.platformOf device = some other :=
    fun member => Nat.lt_irrefl _ (created _ (Finset.mem_filter.mp member).1)
  change registry.platformHandles other + registry.calls.countP _ +
    ((insert registry.devices.created registry.existing).filter fun device =>
      (Function.update registry.devices.keyOf registry.devices.created
        (some (platform, idx)) device).map Prod.fst = some other).card = _
  rw [Finset.filter_insert, Function.update_self, Option.map_some,
    Finset.filter_congr fun device member => iff_of_eq (older device member)]
  by_cases owner : platform = other
  · rw [if_pos (congrArg some owner), if_pos owner, Finset.card_insert_of_notMem fresh]
    rfl
  · rw [if_neg fun equal => owner (Option.some.inj equal), if_neg owner]
    rfl

private theorem owners_eraseDevice (member : device ∈ registry.existing) :
    registry.owners other =
      owners { registry with existing := registry.existing.erase device } other +
        if registry.platformOf device = some other then 1 else 0 := by
  change registry.platformHandles other + registry.calls.countP _ + _ =
    registry.platformHandles other + registry.calls.countP _ +
      ((registry.existing.erase device).filter fun device =>
        registry.platformOf device = some other).card + _
  rw [Finset.filter_erase]
  by_cases owner : registry.platformOf device = some other
  · have owning : device ∈
        registry.existing.filter fun device => registry.platformOf device = some other :=
      Finset.mem_filter.mpr ⟨member, owner⟩
    rw [if_pos owner, ← Finset.card_erase_add_one owning]
    rfl
  · have free : device ∉
        registry.existing.filter fun device => registry.platformOf device = some other :=
      fun owning => owner (Finset.mem_filter.mp owning).2
    rw [if_neg owner, Finset.erase_eq_of_notMem free]
    rfl

end Registry

/-- What holds at any time, up to a reference to a platform that a thread has in its hands. -/
structure Registered (devCount : ℕ) (lent : Option ℕ) (registry : Registry) : Prop where
  platforms : registry.platforms.Sound
  devices : registry.devices.Sound
  owned : ∀ platform, registry.platforms.strong platform =
    registry.owners platform + if lent = some platform then 1 else 0
  alive : ∀ device, 0 < registry.devices.strong device → device ∈ registry.existing
  created : ∀ device ∈ registry.existing, device < registry.devices.created
  sized : ∀ platform, registry.size platform ≤ devCount
  locking : ∀ call ∈ registry.calls, call.stage = .locking →
    call.idx < devCount ∧ registry.size call.platform = devCount
  indexed : ∀ device platform idx, registry.devices.keyOf device = some (platform, idx) →
    idx < devCount
  safe : registry.faulted = false

namespace Registered

variable {devCount platform device : ℕ} {registry : Registry} {call : Call}

theorem start (devCount : ℕ) : Registered devCount none .empty where
  platforms := WeakCache.sound_empty
  devices := WeakCache.sound_empty
  owned := fun _ => rfl
  alive := fun _ referred => absurd referred (Nat.lt_irrefl 0)
  created := nofun
  sized := fun _ => Nat.zero_le _
  locking := fun _ member => absurd member (Multiset.notMem_zero _)
  indexed := nofun
  safe := rfl

/-! References to platforms change hands. -/

private theorem addHandle (registered : Registered devCount (some platform) registry) :
    Registered devCount none (registry.addHandle platform) where
  platforms := registered.platforms
  devices := registered.devices
  owned := fun other => by
    refine (registered.owned other).trans ?_
    simp only [Option.some.injEq, reduceCtorEq, ↓reduceIte, Nat.add_zero]
    change registry.platformHandles other + _ + _ + _ =
      Function.update registry.platformHandles platform _ other + _ + _
    by_cases same : platform = other
    · subst same
      rw [Function.update_self, if_pos rfl, Nat.add_right_comm _ _ 1, Nat.add_right_comm _ _ 1]
      rfl
    · rw [Function.update_of_ne (Ne.symm same), if_neg same]
      rfl
  alive := registered.alive
  created := registered.created
  sized := registered.sized
  locking := registered.locking
  indexed := registered.indexed
  safe := registered.safe

private theorem removeHandle (registered : Registered devCount none registry)
    (held : 0 < registry.platformHandles platform) :
    Registered devCount (some platform) (registry.removeHandle platform) where
  platforms := registered.platforms
  devices := registered.devices
  owned := fun other => by
    refine (registered.owned other).trans ?_
    simp only [Option.some.injEq, reduceCtorEq, ↓reduceIte, Nat.add_zero]
    change registry.platformHandles other + _ + _ =
      Function.update registry.platformHandles platform _ other + _ + _ + _
    by_cases same : platform = other
    · subst same
      rw [Function.update_self, if_pos rfl, Nat.add_right_comm _ _ 1, Nat.add_right_comm _ _ 1,
        Nat.sub_add_cancel held]
      rfl
    · rw [Function.update_of_ne (Ne.symm same), if_neg same]
      rfl
  alive := registered.alive
  created := registered.created
  sized := registered.sized
  locking := registered.locking
  indexed := registered.indexed
  safe := registered.safe

theorem push (registered : Registered devCount (some call.platform) registry)
    (ready : call.stage = .locking →
      call.idx < devCount ∧ registry.size call.platform = devCount) :
    Registered devCount none { registry with calls := call ::ₘ registry.calls } where
  platforms := registered.platforms
  devices := registered.devices
  owned := fun other => by
    refine (registered.owned other).trans ?_
    simp only [Option.some.injEq, reduceCtorEq, ↓reduceIte, Nat.add_zero]
    change registry.platformHandles other + _ + _ + _ =
      registry.platformHandles other + (call ::ₘ registry.calls).countP _ + _
    rw [Multiset.countP_cons, ← Nat.add_assoc]
    exact Nat.add_right_comm _ _ _
  alive := registered.alive
  created := registered.created
  sized := registered.sized
  locking := fun other member stage => by
    rcases Multiset.mem_cons.mp member with rfl | member
    · exact ready stage
    · exact registered.locking other member stage
  indexed := registered.indexed
  safe := registered.safe

theorem pop (registered : Registered devCount none registry) (member : call ∈ registry.calls) :
    Registered devCount (some call.platform)
      { registry with calls := registry.calls.erase call } where
  platforms := registered.platforms
  devices := registered.devices
  owned := fun other => by
    refine (registered.owned other).trans ?_
    obtain ⟨rest, same⟩ := Multiset.exists_cons_of_mem member
    simp only [Option.some.injEq, reduceCtorEq, ↓reduceIte, Nat.add_zero]
    change registry.platformHandles other + registry.calls.countP _ + _ =
      registry.platformHandles other + (registry.calls.erase call).countP _ + _ + _
    rw [same, Multiset.erase_cons_head, Multiset.countP_cons, ← Nat.add_assoc]
    exact Nat.add_right_comm _ _ _
  alive := registered.alive
  created := registered.created
  sized := registered.sized
  locking := fun other member => registered.locking other (Multiset.mem_of_mem_erase member)
  indexed := registered.indexed
  safe := registered.safe

/-- The references to platforms and their count change together. -/
private theorem of_platforms {lent lent' : Option ℕ} {platforms : WeakCache Unit}
    (registered : Registered devCount lent registry) (sound : platforms.Sound)
    (counts : ∀ other, platforms.strong other + (if lent = some other then 1 else 0) =
      registry.platforms.strong other + if lent' = some other then 1 else 0) :
    Registered devCount lent' { registry with platforms := platforms } where
  platforms := sound
  devices := registered.devices
  owned := fun other => by
    have before := registered.owned other
    have change := counts other
    change platforms.strong other = registry.owners other + _
    omega
  alive := registered.alive
  created := registered.created
  sized := registered.sized
  locking := registered.locking
  indexed := registered.indexed
  safe := registered.safe

theorem copyPlatform (registered : Registered devCount none registry)
    (referred : 0 < registry.platforms.strong platform) :
    Registered devCount (some platform)
      { registry with platforms := registry.platforms.copy platform } := by
  refine registered.of_platforms (registered.platforms.copy referred) fun other => ?_
  change Function.update registry.platforms.strong platform _ other + _ = _
  by_cases same : platform = other
  · subst same
    rw [Function.update_self, if_pos rfl]
    rfl
  · rw [Function.update_of_ne (Ne.symm same), if_neg fun equal => same (Option.some.inj equal)]
    rfl

theorem dropPlatform (registered : Registered devCount (some platform) registry) :
    Registered devCount none
      { registry with platforms := registry.platforms.drop platform } := by
  refine registered.of_platforms (registered.platforms.drop platform) fun other => ?_
  have owned := registered.owned other
  change Function.update registry.platforms.strong platform _ other + _ = _
  by_cases same : platform = other
  · subst same
    rw [if_pos rfl] at owned ⊢
    rw [Function.update_self]
    exact Nat.sub_add_cancel (owned ▸ Nat.succ_pos _)
  · rw [Function.update_of_ne (Ne.symm same), if_neg fun equal => same (Option.some.inj equal)]
    rfl

theorem makePlatform (registered : Registered devCount none registry) :
    Registered devCount none registry.makePlatform := by
  have counts (other : ℕ) : (registry.platforms.acquire ()).2.strong other +
        (if (none : Option ℕ) = some other then 1 else 0) =
      registry.platforms.strong other +
        if some (registry.platforms.acquire ()).1 = some other then 1 else 0 := by
    rw [(registered.platforms.acquire_spec ()).1]
    by_cases same : (registry.platforms.acquire ()).1 = other
    · rw [← same, Function.update_self, if_pos rfl]
      rfl
    · rw [Function.update_of_ne (Ne.symm same), if_neg fun equal => same (Option.some.inj equal)]
      rfl
  exact addHandle (registered.of_platforms (registered.platforms.acquire ()) counts)

/-! The steps of a call. -/

theorem counted (registered : Registered devCount (some call.platform) registry)
    (enough : devCount ≤ registry.size call.platform) :
    Registered devCount none (registry.counted devCount call) := by
  unfold Registry.counted
  split
  · exact registered.addHandle
  · rename_i inside
    have lent : Registered devCount (some ({ call with stage := .locking } : Call).platform)
      registry := registered
    exact lent.push fun _ => ⟨Nat.lt_of_not_le inside,
      Nat.le_antisymm (registered.sized _) enough⟩

private theorem resize {lent : Option ℕ} (registered : Registered devCount lent registry)
    (platform : ℕ) : Registered devCount lent
      { registry with size := Function.update registry.size platform devCount } where
  platforms := registered.platforms
  devices := registered.devices
  owned := registered.owned
  alive := registered.alive
  created := registered.created
  sized := fun other => by
    change Function.update registry.size platform devCount other ≤ devCount
    by_cases same : other = platform
    · rw [same, Function.update_self]
    · rw [Function.update_of_ne same]
      exact registered.sized other
  locking := fun call member stage => by
    obtain ⟨inside, sized⟩ := registered.locking call member stage
    refine ⟨inside, ?_⟩
    change Function.update registry.size platform devCount call.platform = devCount
    by_cases same : call.platform = platform
    · rw [same, Function.update_self]
    · rw [Function.update_of_ne same, sized]
  indexed := registered.indexed
  safe := registered.safe

/-- The references to devices that exist may change in number. -/
private theorem of_devices {lent : Option ℕ} (registered : Registered devCount lent registry)
    {devices : WeakCache (ℕ × ℕ)} (sound : devices.Sound)
    (keys : devices.keyOf = registry.devices.keyOf)
    (created : devices.created = registry.devices.created)
    (alive : ∀ device, 0 < devices.strong device → 0 < registry.devices.strong device) :
    Registered devCount lent { registry with devices := devices } where
  platforms := registered.platforms
  devices := sound
  owned := fun platform => by
    refine (registered.owned platform).trans ?_
    unfold Registry.owners Registry.platformOf
    dsimp only
    rw [keys]
  alive := fun device referred => registered.alive device (alive device referred)
  created := fun device member => (registered.created device member).trans_eq created.symm
  sized := registered.sized
  locking := registered.locking
  indexed := fun device platform idx keyOf =>
    registered.indexed device platform idx ((congrFun keys device).symm.trans keyOf)
  safe := registered.safe

theorem copyDevice {lent : Option ℕ} (registered : Registered devCount lent registry)
    (referred : 0 < registry.devices.strong device) : Registered devCount lent
      { registry with devices := registry.devices.copy device } := by
  refine registered.of_devices (registered.devices.copy referred) rfl rfl fun other more => ?_
  change 0 < Function.update registry.devices.strong device _ other at more
  by_cases same : other = device
  · rwa [same]
  · rwa [Function.update_of_ne same] at more

theorem dropDevice {lent : Option ℕ} (registered : Registered devCount lent registry)
    (device : ℕ) : Registered devCount lent
      { registry with devices := registry.devices.drop device } := by
  refine registered.of_devices (registered.devices.drop device) rfl rfl fun other more => ?_
  change 0 < Function.update registry.devices.strong device _ other at more
  by_cases same : other = device
  · rw [same, Function.update_self] at more
    rw [same]
    exact more.trans_le (Nat.sub_le _ _)
  · rwa [Function.update_of_ne same] at more

/-- A platform that somebody owns is referred to. -/
theorem referred_of_handle {lent : Option ℕ} (registered : Registered devCount lent registry)
    (held : 0 < registry.platformHandles platform) : 0 < registry.platforms.strong platform := by
  rw [registered.owned]
  unfold Registry.owners
  omega

private theorem referred_of_device {lent : Option ℕ}
    (registered : Registered devCount lent registry) (member : device ∈ registry.existing)
    (platformOf : registry.platformOf device = some platform) :
    0 < registry.platforms.strong platform := by
  have owning : 0 <
      (registry.existing.filter fun device => registry.platformOf device = some platform).card :=
    Finset.card_pos.mpr ⟨device, Finset.mem_filter.mpr ⟨member, platformOf⟩⟩
  rw [registered.owned]
  unfold Registry.owners
  omega

/-- A new device takes the reference that a call made for it. -/
private theorem insertDevice {idx : ℕ}
    (registered : Registered devCount (some platform) registry) (inside : idx < devCount)
    (expired : registry.devices.lock (platform, idx) = none) :
    Registered devCount none
      { registry with
        devices := registry.devices.create (platform, idx)
        existing := insert registry.devices.created registry.existing } where
  platforms := registered.platforms
  devices := registered.devices.create expired
  owned := fun other => by
    refine (registered.owned other).trans ?_
    rw [Registry.owners_insertDevice registered.created]
    by_cases owner : platform = other
    · rw [if_pos owner, if_pos (congrArg some owner)]
      rfl
    · rw [if_neg owner, if_neg fun equal => owner (Option.some.inj equal)]
      rfl
  alive := fun device referred => by
    change 0 < Function.update registry.devices.strong registry.devices.created 1 device at referred
    by_cases same : device = registry.devices.created
    · exact same ▸ Finset.mem_insert_self _ _
    · rw [Function.update_of_ne same] at referred
      exact Finset.mem_insert_of_mem (registered.alive device referred)
  created := fun device member => by
    rcases Finset.mem_insert.mp member with rfl | member
    · exact Nat.lt_succ_self _
    · exact Nat.lt_succ_of_lt (registered.created device member)
  sized := registered.sized
  locking := registered.locking
  indexed := fun device other idx' keyOf => by
    change Function.update registry.devices.keyOf registry.devices.created
      (some (platform, idx)) device = some (other, idx') at keyOf
    by_cases same : device = registry.devices.created
    · rw [same, Function.update_self] at keyOf
      obtain ⟨rfl, rfl⟩ := Prod.mk.inj (Option.some.inj keyOf)
      exact inside
    · rw [Function.update_of_ne same] at keyOf
      exact registered.indexed device other idx' keyOf
  safe := registered.safe

/-- A device without references gives its platform back. -/
private theorem eraseDevice (registered : Registered devCount none registry)
    (member : device ∈ registry.existing) (unreferred : registry.devices.strong device = 0)
    (platformOf : registry.platformOf device = some platform) :
    Registered devCount (some platform)
      { registry with existing := registry.existing.erase device } where
  platforms := registered.platforms
  devices := registered.devices
  owned := fun other => by
    refine (registered.owned other).trans ?_
    rw [Registry.owners_eraseDevice member]
    by_cases owner : platform = other
    · rw [if_pos (owner ▸ platformOf), if_pos (congrArg some owner)]
      rfl
    · rw [if_neg fun equal => owner (Option.some.inj (platformOf.symm.trans equal)),
        if_neg fun equal => owner (Option.some.inj equal)]
      rfl
  alive := fun other referred => by
    refine Finset.mem_erase.mpr ⟨?_, registered.alive other referred⟩
    rintro rfl
    exact Nat.ne_of_gt referred unreferred
  created := fun other member => registered.created other (Finset.mem_of_mem_erase member)
  sized := registered.sized
  locking := registered.locking
  indexed := registered.indexed
  safe := registered.safe

private theorem makeDevice (registered : Registered devCount (some call.platform) registry)
    (referred : 0 < registry.platforms.strong call.platform) (inside : call.idx < devCount) :
    Registered devCount none (registry.makeDevice call) := by
  unfold Registry.makeDevice WeakCache.acquire
  cases locked : registry.devices.lock (call.platform, call.idx) with
  | some device =>
      dsimp only
      rw [locked]
      exact addHandle (registered.copyDevice (WeakCache.lock_eq_some_iff.mp locked).2)
  | none =>
      dsimp only
      rw [locked]
      exact addHandle ((registered.insertDevice inside locked).copyPlatform referred)

theorem advance (registered : Registered devCount none registry) (member : call ∈ registry.calls) :
    Registered devCount none
      ({ registry with calls := registry.calls.erase call }.advance devCount call) := by
  have popped := registered.pop member
  cases stage : call.stage with
  | checking =>
      simp only [Registry.advance, stage]
      split
      · have lent : Registered devCount
            (some ({ call with stage := .resizing } : Call).platform) _ := popped
        exact lent.push nofun
      · rename_i enough
        exact popped.counted (Nat.le_of_not_lt enough)
  | resizing =>
      simp only [Registry.advance, stage]
      refine (popped.resize call.platform).counted ?_
      exact (Function.update_self (f := registry.size) _ _).ge
  | locking =>
      obtain ⟨inside, sized⟩ := registered.locking call member stage
      simp only [Registry.advance, stage]
      rw [if_pos (inside.trans_eq sized.symm)]
      refine popped.makeDevice ?_ inside
      rw [popped.owned, if_pos rfl]
      exact Nat.succ_pos _

theorem destroyDevice (registered : Registered devCount none registry)
    (member : device ∈ registry.existing) (unreferred : registry.devices.strong device = 0)
    (platformOf : registry.platformOf device = some platform) :
    Registered devCount none
      { registry with
        existing := registry.existing.erase device
        platforms := registry.platforms.drop platform } :=
  (registered.eraseDevice member unreferred platformOf).dropPlatform

theorem step (registered : Registered devCount none registry) {action : Action} {next : Registry}
    (stepped : CpuPlatform.step devCount registry action = some next) :
    Registered devCount none next := by
  cases action with
  | makePlatform =>
      obtain rfl := Option.some.inj stepped
      exact registered.makePlatform
  | copyPlatform platform =>
      obtain ⟨held, ⟨⟩⟩ := Option.ite_none_right_eq_some.mp stepped
      exact addHandle (registered.copyPlatform (registered.referred_of_handle held))
  | dropPlatform platform =>
      obtain ⟨held, ⟨⟩⟩ := Option.ite_none_right_eq_some.mp stepped
      exact (registered.removeHandle held).dropPlatform
  | callMakeDevice platform idx =>
      obtain ⟨held, ⟨⟩⟩ := Option.ite_none_right_eq_some.mp stepped
      have lent : Registered devCount (some (⟨platform, idx, .checking⟩ : Call).platform) _ :=
        registered.removeHandle held
      exact lent.push nofun
  | advance call =>
      obtain ⟨member, ⟨⟩⟩ := Option.ite_none_right_eq_some.mp stepped
      exact registered.advance member
  | copyDevice device =>
      obtain ⟨referred, ⟨⟩⟩ := Option.ite_none_right_eq_some.mp stepped
      exact registered.copyDevice referred
  | dropDevice device =>
      obtain ⟨-, ⟨⟩⟩ := Option.ite_none_right_eq_some.mp stepped
      exact registered.dropDevice device
  | destroyDevice device =>
      simp only [CpuPlatform.step] at stepped
      split at stepped
      · rename_i possible
        obtain ⟨platform, platformOf, rfl⟩ := Option.map_eq_some_iff.mp stepped
        exact registered.destroyDevice possible.1 possible.2 platformOf
      · cases stepped

theorem of_reachable (reachable : Reachable (CpuPlatform.step devCount) .empty registry) :
    Registered devCount none registry :=
  reachable.induction (start devCount) fun _ _ _ registered stepped => registered.step stepped

/-! A device keeps its platform, and there is only one platform that anybody refers to. -/

theorem platform_unique {lent : Option ℕ} (registered : Registered devCount lent registry)
    {other : ℕ} (referred : 0 < registry.platforms.strong platform)
    (referred' : 0 < registry.platforms.strong other) : platform = other := by
  obtain ⟨_, keyOf⟩ :=
    registered.platforms.keyed platform (registered.platforms.lt_created referred)
  obtain ⟨_, keyOf'⟩ :=
    registered.platforms.keyed other (registered.platforms.lt_created referred')
  exact registered.platforms.unique keyOf keyOf' referred referred'

theorem referred_of_refersTo {lent : Option ℕ} {idx : ℕ}
    (registered : Registered devCount lent registry) (referred : 0 < registry.devices.strong device)
    (keyOf : registry.devices.keyOf device = some (platform, idx)) :
    0 < registry.platforms.strong platform :=
  registered.referred_of_device (registered.alive device referred)
    (congrArg (Option.map Prod.fst) keyOf)

private theorem device_unique {lent : Option ℕ} {idx other : ℕ}
    (registered : Registered devCount lent registry) (refers : registry.RefersTo idx device)
    (refers' : registry.RefersTo idx other) : device = other := by
  obtain ⟨referred, platform, keyOf⟩ := refers
  obtain ⟨referred', platform', keyOf'⟩ := refers'
  obtain rfl := registered.platform_unique (registered.referred_of_refersTo referred keyOf)
    (registered.referred_of_refersTo referred' keyOf')
  exact registered.devices.unique keyOf keyOf' referred referred'

/-- A call that gets the lock hands out the device with its index. -/
theorem makeDevice_spec (registered : Registered devCount (some call.platform) registry) :
    ∃ device, (registry.makeDevice call).devices.strong =
        Function.update registry.devices.strong device (registry.devices.strong device + 1) ∧
      (registry.makeDevice call).RefersTo call.idx device ∧
      ∀ other, registry.RefersTo call.idx other → other = device := by
  let key := (call.platform, call.idx)
  obtain ⟨strong, keyOf, -⟩ := registered.devices.acquire_spec key
  have devices : (registry.makeDevice call).devices = (registry.devices.acquire key).2 := by
    unfold Registry.makeDevice
    dsimp only
    split
    · rfl
    · rfl
  refine ⟨(registry.devices.acquire key).1, by rw [devices, strong], ⟨?_, call.platform, ?_⟩, ?_⟩
  · rw [devices, strong, Function.update_self]
    exact Nat.succ_pos _
  · rw [devices, keyOf]
  · rintro other ⟨referred, platform, keyOf'⟩
    have owned : 0 < registry.platforms.strong call.platform := by
      rw [registered.owned, if_pos rfl]
      exact Nat.succ_pos _
    obtain rfl := registered.platform_unique (registered.referred_of_refersTo referred keyOf') owned
    rw [registered.devices.acquire_eq keyOf' referred]

end Registered

private theorem counted_existing {registry : Registry} {devCount : ℕ} {call : Call} :
    (registry.counted devCount call).existing = registry.existing ∧
      (registry.counted devCount call).devices = registry.devices := by
  unfold Registry.counted
  split
  · exact ⟨rfl, rfl⟩
  · exact ⟨rfl, rfl⟩

/-- A call keeps the devices and their keys, or it creates one under the lock. -/
private theorem advance_existing {registry : Registry} (devCount : ℕ) (call : Call) :
    ((registry.advance devCount call).existing = registry.existing ∧
      (registry.advance devCount call).devices.keyOf = registry.devices.keyOf) ∨
    (call.stage = .locking ∧ registry.devices.lock (call.platform, call.idx) = none ∧
      (registry.advance devCount call).existing =
        insert registry.devices.created registry.existing ∧
      (registry.advance devCount call).devices.keyOf = Function.update registry.devices.keyOf
        registry.devices.created (some (call.platform, call.idx))) := by
  cases stage : call.stage with
  | checking =>
      simp only [Registry.advance, stage]
      split
      · exact .inl ⟨rfl, rfl⟩
      · obtain ⟨existing, devices⟩ := counted_existing
        exact .inl ⟨existing, congrArg WeakCache.keyOf devices⟩
  | resizing =>
      simp only [Registry.advance, stage]
      obtain ⟨existing, devices⟩ := counted_existing
      exact .inl ⟨existing, congrArg WeakCache.keyOf devices⟩
  | locking =>
      simp only [Registry.advance, stage]
      split
      · unfold Registry.makeDevice WeakCache.acquire
        cases locked : registry.devices.lock (call.platform, call.idx) with
        | some device =>
            dsimp only
            rw [locked]
            exact .inl ⟨rfl, rfl⟩
        | none =>
            dsimp only
            rw [locked]
            exact .inr ⟨trivial, rfl, rfl, rfl⟩
      · exact .inl ⟨rfl, rfl⟩

/-- A step keeps the devices that exist and their keys, or some of them, or a call under the
lock has created one. -/
theorem step_existing {devCount : ℕ} {registry next : Registry} {action : Action}
    (stepped : step devCount registry action = some next) :
    (next.existing ⊆ registry.existing ∧ next.devices.keyOf = registry.devices.keyOf) ∨
      ∃ call ∈ registry.calls, action = .advance call ∧ call.stage = .locking ∧
        registry.devices.lock (call.platform, call.idx) = none ∧
        next.existing = insert registry.devices.created registry.existing ∧
        next.devices.keyOf = Function.update registry.devices.keyOf registry.devices.created
          (some (call.platform, call.idx)) := by
  have kept {same : Registry} (existing : same.existing = registry.existing)
      (keys : same.devices.keyOf = registry.devices.keyOf) :
      same.existing ⊆ registry.existing ∧ same.devices.keyOf = registry.devices.keyOf :=
    ⟨existing.subset, keys⟩
  cases action with
  | makePlatform =>
      obtain rfl := Option.some.inj stepped
      exact .inl (kept rfl rfl)
  | copyPlatform platform =>
      obtain ⟨-, ⟨⟩⟩ := Option.ite_none_right_eq_some.mp stepped
      exact .inl (kept rfl rfl)
  | dropPlatform platform =>
      obtain ⟨-, ⟨⟩⟩ := Option.ite_none_right_eq_some.mp stepped
      exact .inl (kept rfl rfl)
  | callMakeDevice platform idx =>
      obtain ⟨-, ⟨⟩⟩ := Option.ite_none_right_eq_some.mp stepped
      exact .inl (kept rfl rfl)
  | advance call =>
      obtain ⟨member, ⟨⟩⟩ := Option.ite_none_right_eq_some.mp stepped
      rcases advance_existing devCount call with ⟨existing, keys⟩ | created
      · exact .inl (kept existing keys)
      · exact .inr ⟨call, member, rfl, created⟩
  | copyDevice device =>
      obtain ⟨-, ⟨⟩⟩ := Option.ite_none_right_eq_some.mp stepped
      exact .inl (kept rfl rfl)
  | dropDevice device =>
      obtain ⟨-, ⟨⟩⟩ := Option.ite_none_right_eq_some.mp stepped
      exact .inl (kept rfl rfl)
  | destroyDevice device =>
      simp only [step] at stepped
      split at stepped
      · obtain ⟨platform, -, rfl⟩ := Option.map_eq_some_iff.mp stepped
        exact .inl ⟨Finset.erase_subset _ _, rfl⟩
      · cases stepped

/-- **Sharing.** At any time all handles on devices with the same index are handles on the same
device, whose platform still exists. A call of `makeDevice` that gets the lock stays inside the
entries, and it hands out the device that others already have. -/
theorem devices_shared {devCount : ℕ} {registry : Registry}
    (reachable : Reachable (step devCount) .empty registry) :
    registry.faulted = false ∧
      (∀ idx device, registry.RefersTo idx device →
        idx < devCount ∧ (∃ platform, registry.platformOf device = some platform ∧
          0 < registry.platforms.strong platform) ∧
        ∀ other, registry.RefersTo idx other → other = device) ∧
      ∀ call ∈ registry.calls, call.stage = .locking →
        ∃ next device, step devCount registry (.advance call) = some next ∧
          next.devices.strong =
            Function.update registry.devices.strong device (registry.devices.strong device + 1) ∧
          next.RefersTo call.idx device ∧
          ∀ other, registry.RefersTo call.idx other → other = device := by
  have registered := Registered.of_reachable reachable
  refine ⟨registered.safe, fun idx device refers => ?_, fun call member stage => ?_⟩
  · obtain ⟨referred, platform, keyOf⟩ := refers
    refine ⟨registered.indexed device platform idx keyOf, ⟨platform, ?_, ?_⟩,
      fun other refers' => ?_⟩
    · exact congrArg (Option.map Prod.fst) keyOf
    · exact registered.referred_of_refersTo referred keyOf
    · exact registered.device_unique refers' ⟨referred, platform, keyOf⟩
  · obtain ⟨inside, sized⟩ := registered.locking call member stage
    obtain ⟨device, spec⟩ := (registered.pop member).makeDevice_spec
    refine ⟨_, device, if_pos member, ?_⟩
    simp only [Registry.advance, stage]
    rw [if_pos (inside.trans_eq sized.symm)]
    exact spec

/-- Two threads make the device with the index 0, and both look at the entries before one of
them makes these. -/
theorem devices_shared_twoCalls :
    ∃ registry : Registry, registry.RefersTo 0 0 ∧ registry.devices.strong 0 = 2 ∧
      ∀ other, registry.RefersTo 0 other → other = 0 := by
  obtain ⟨registry, reachable, refers, strong⟩ : ∃ registry,
      Reachable (step 1) .empty registry ∧ registry.RefersTo 0 0 ∧ registry.devices.strong 0 = 2 :=
    ⟨_, ⟨[.makePlatform, .makePlatform, .callMakeDevice 0 0, .callMakeDevice 0 0,
      .advance ⟨0, 0, .checking⟩, .advance ⟨0, 0, .checking⟩, .advance ⟨0, 0, .resizing⟩,
      .advance ⟨0, 0, .locking⟩, .advance ⟨0, 0, .resizing⟩, .advance ⟨0, 0, .locking⟩], rfl⟩,
      ⟨by decide, 0, rfl⟩, rfl⟩
  exact ⟨registry, refers, strong, ((devices_shared reachable).2.1 0 0 refers).2.2⟩

end Alpaka.CpuPlatform
