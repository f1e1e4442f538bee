import Alpaka.Host.Platform

/-! # Resets of devices with a runtime

A platform of a CUDA or HIP runtime makes its devices like the platform of the host, but the
destructor of a device resets the native device with its index. The platform may have made
another device with that index before the destructor gets there, and then the reset takes away
what this device owns. Without such a creation no device loses anything
(`Alpaka.UnifiedDevice.reset_sound`).
-/

namespace Alpaka.UnifiedDevice

open CpuPlatform (Registry Action Registered)
open Math.Interleaving

/-- The devices to which somebody had references when their native device was reset are kept
as history. -/
structure Devices where
  registry : Registry
  lost : Finset ℕ

def start : Devices := ⟨.empty, ∅⟩

def idxOf (registry : Registry) (device : ℕ) : Option ℕ :=
  (registry.devices.keyOf device).map Prod.snd

/-- A step; the destructor of a device calls `deviceReset`. -/
def step (devCount : ℕ) (devices : Devices) (action : Action) : Option Devices :=
  (CpuPlatform.step devCount devices.registry action).map fun registry =>
    match action with
    | .destroyDevice device =>
        ⟨registry, devices.lost ∪ devices.registry.existing.filter fun other =>
          idxOf devices.registry other = idxOf devices.registry device ∧
            0 < devices.registry.devices.strong other⟩
    | _ => ⟨registry, devices.lost⟩

/-- No device is asked for while one with its index is being destroyed. -/
def Undisturbed (devices : Devices) (action : Action) : Prop :=
  ∀ call, action = .advance call → call.stage = .locking →
    ∀ device ∈ devices.registry.existing, idxOf devices.registry device = some call.idx →
      0 < devices.registry.devices.strong device

/-! ## One device for each index -/

def Single (registry : Registry) : Prop :=
  ∀ device ∈ registry.existing, ∀ other ∈ registry.existing,
    idxOf registry device = idxOf registry other → device = other

variable {devCount : ℕ} {devices next : Devices} {action : Action}

/-- Without devices being destroyed a call takes over the device with its index. -/
private theorem new_idx {registry : Registry} {call : CpuPlatform.Call} {device : ℕ}
    (registered : Registered devCount none registry) (member : call ∈ registry.calls)
    (expired : registry.devices.lock (call.platform, call.idx) = none)
    (referred : 0 < registry.devices.strong device) :
    idxOf registry device ≠ some call.idx := by
  intro same
  obtain ⟨⟨platform, idx⟩, keyOf, rfl⟩ := Option.map_eq_some_iff.mp same
  have owned := (registered.pop member).owned call.platform
  rw [if_pos rfl] at owned
  have held : 0 < registry.platforms.strong call.platform := owned ▸ Nat.succ_pos _
  obtain rfl := registered.platform_unique (registered.referred_of_refersTo referred keyOf) held
  rw [registered.devices.lock_eq keyOf referred] at expired
  cases expired

theorem Single.step {registry next : Registry} (single : Single registry)
    (registered : Registered devCount none registry)
    (undisturbed : Undisturbed ⟨registry, ∅⟩ action)
    (stepped : CpuPlatform.step devCount registry action = some next) : Single next := by
  rcases CpuPlatform.step_existing stepped with ⟨fewer, keys⟩ | ⟨call, member, rfl, stage, expired,
    existing, keys⟩
  · intro device inside other inside' same
    unfold idxOf at same
    rw [keys] at same
    exact single device (fewer inside) other (fewer inside') same
  · have fresh (device : ℕ) (inside : device ∈ registry.existing) :
        idxOf next device = idxOf registry device ∧ idxOf next device ≠ some call.idx := by
      have older : idxOf next device = idxOf registry device := by
        unfold idxOf
        rw [keys, Function.update_of_ne (Nat.ne_of_lt (registered.created device inside))]
      refine ⟨older, fun same => ?_⟩
      rw [older] at same
      exact new_idx registered member expired (undisturbed call rfl stage device inside same) same
    have created : idxOf next registry.devices.created = some call.idx := by
      unfold idxOf
      rw [keys, Function.update_self]
      rfl
    intro device inside other inside' same
    rw [existing] at inside inside'
    rcases Finset.mem_insert.mp inside with rfl | inside
    · rcases Finset.mem_insert.mp inside' with rfl | inside'
      · rfl
      · exact absurd (same.symm.trans created) (fresh other inside').2
    · rcases Finset.mem_insert.mp inside' with rfl | inside'
      · exact absurd (same.trans created) (fresh device inside).2
      · rw [(fresh device inside).1, (fresh other inside').1] at same
        exact single device inside other inside' same

/-- What holds as long as nobody asks for a device that is being destroyed. -/
structure Kept (devCount : ℕ) (devices : Devices) : Prop where
  registered : Registered devCount none devices.registry
  single : Single devices.registry
  lost : devices.lost = ∅

theorem Kept.step (kept : Kept devCount devices) (undisturbed : Undisturbed devices action)
    (stepped : UnifiedDevice.step devCount devices action = some next) : Kept devCount next := by
  obtain ⟨registry, taken, rfl⟩ := Option.map_eq_some_iff.mp stepped
  have registered := kept.registered.step taken
  have single := kept.single.step kept.registered undisturbed taken
  cases action with
  | destroyDevice device =>
      refine ⟨registered, single, ?_⟩
      dsimp only
      rw [kept.lost, Finset.empty_union]
      refine Finset.filter_eq_empty_iff.mpr fun other inside lost => ?_
      simp only [CpuPlatform.step] at taken
      split at taken
      · rename_i possible
        obtain rfl := kept.single other inside device possible.1 lost.1
        exact Nat.ne_of_gt lost.2 possible.2
      · cases taken
  | makePlatform => exact ⟨registered, single, kept.lost⟩
  | copyPlatform platform => exact ⟨registered, single, kept.lost⟩
  | dropPlatform platform => exact ⟨registered, single, kept.lost⟩
  | callMakeDevice platform idx => exact ⟨registered, single, kept.lost⟩
  | advance call => exact ⟨registered, single, kept.lost⟩
  | copyDevice device => exact ⟨registered, single, kept.lost⟩
  | dropDevice device => exact ⟨registered, single, kept.lost⟩

/-- **Resets.** As long as no call of `makeDevice` gets the lock while a device with its index is
being destroyed, no device that somebody refers to is ever reset. Where two threads do that, one
may lose its device. -/
theorem reset_sound :
    (∀ devCount devices, ReachableBy Undisturbed (step devCount) start devices →
      devices.lost = ∅) ∧
    ∃ devices, Reachable (step 1) start devices ∧ devices.lost.Nonempty := by
  refine ⟨fun devCount devices reached => ?_, _, ⟨[.makePlatform, .makePlatform,
    .callMakeDevice 0 0, .advance ⟨0, 0, .checking⟩, .advance ⟨0, 0, .resizing⟩,
    .advance ⟨0, 0, .locking⟩, .dropDevice 0, .callMakeDevice 0 0, .advance ⟨0, 0, .checking⟩,
    .advance ⟨0, 0, .locking⟩, .destroyDevice 0], rfl⟩, 1, ?_⟩
  · have kept : Kept devCount devices := by
      induction reached with
      | start => exact ⟨.start devCount, nofun, rfl⟩
      | step _ undisturbed taken earlier => exact earlier.step undisturbed taken
    exact kept.lost
  · decide

/-- A device is dropped and destroyed before the next one with its index is made. -/
theorem reset_sound_destroyed :
    ∃ devices, ReachableBy Undisturbed (step 1) start devices ∧
      devices.registry.devices.created = 2 ∧ devices.lost = ∅ := by
  have next {devices next : Devices} (action : Action)
      (reached : ReachableBy Undisturbed (step 1) start devices)
      (undisturbed : Undisturbed devices action)
      (taken : step 1 devices action = some next) : ReachableBy Undisturbed (step 1) start next :=
    reached.step undisturbed taken
  have platform := next .makePlatform .start (by rintro _ ⟨⟩) rfl
  have again := next .makePlatform platform (by rintro _ ⟨⟩) rfl
  have calls := next (.callMakeDevice 0 0) again (by rintro _ ⟨⟩) rfl
  have checks := next (.advance ⟨0, 0, .checking⟩) calls (by rintro _ ⟨⟩ ⟨⟩) rfl
  have resizes := next (.advance ⟨0, 0, .resizing⟩) checks (by rintro _ ⟨⟩ ⟨⟩) rfl
  have makes := next (.advance ⟨0, 0, .locking⟩) resizes (fun _ _ _ _ none =>
    absurd none (Finset.notMem_empty _)) rfl
  have drops := next (.dropDevice 0) makes (by rintro _ ⟨⟩) rfl
  have destroys := next (.destroyDevice 0) drops (by rintro _ ⟨⟩) rfl
  have callsAgain := next (.callMakeDevice 0 0) destroys (by rintro _ ⟨⟩) rfl
  have checksAgain := next (.advance ⟨0, 0, .checking⟩) callsAgain (by rintro _ ⟨⟩ ⟨⟩) rfl
  have makesAgain := next (.advance ⟨0, 0, .locking⟩) checksAgain (fun _ _ _ _ none =>
    absurd none (by decide +revert)) rfl
  exact ⟨_, makesAgain, rfl, reset_sound.1 1 _ makesAgain⟩

end Alpaka.UnifiedDevice
