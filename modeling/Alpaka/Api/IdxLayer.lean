import Mathlib.Data.Finset.Card
import Alpaka.VecWidth

/-! # Hardware indices

With up to three dimensions a launch uses the dimensions of the hardware, the fastest
one first. With more it uses one dimension, as long as the product of the extents, and
the kernel maps the hardware index back. The launch casts its dimensions to 32 bits.
The indices of the hardware number the indices of the extents one-to-one exactly when
this loses nothing (`Alpaka.layer_bijOn_iff`), and then the linear order of the hardware
is that of the indices (`Alpaka.linear_eq_linearize`).
-/

namespace Alpaka

open Math.MixedRadix

variable {w n : ℕ}

/-- The dimensions or an index of the hardware. -/
structure Dim3 where
  x : BitVec 32
  y : BitVec 32
  z : BitVec 32
  deriving DecidableEq

/-- The slowest dimension first. -/
def Dim3.zyx (dim : Dim3) : Vec (BitVec 32) 3 := ![dim.z, dim.y, dim.x]

/-- The fastest components of a vector. -/
def Vec.rshrinkFit {T : Type*} {m k : ℕ} (fits : k ≤ m) (v : Vec T m) : Vec T k :=
  fun d => v ⟨m - k + d, by omega⟩

def convertVecToUniformCudaHipDim (vec : Vec (BitVec w) n) : Dim3 where
  x := if inside : 1 ≤ n then (vec ⟨n - 1, by omega⟩).setWidth 32 else 1
  y := if inside : 2 ≤ n then (vec ⟨n - 2, by omega⟩).setWidth 32 else 1
  z := if inside : 3 ≤ n then (vec ⟨n - 3, by omega⟩).setWidth 32 else 1

/-- The dimensions with which a kernel is launched. -/
def launchDim (extents : Vec (BitVec w) (n + 1)) : Dim3 :=
  if 4 ≤ n + 1 then convertVecToUniformCudaHipDim fun _ : Fin 1 => extents.product
  else convertVecToUniformCudaHipDim extents

/-- The index of a layer: that of the hardware, or what it is mapped to. -/
def layerIdx (extents : Vec (BitVec w) (n + 1)) (id : Dim3) : Vec (BitVec w) (n + 1) :=
  if few : n + 1 ≤ 3 then (fun d => (id.zyx.rshrinkFit few d).setWidth w)
  else mapToND extents (id.x.setWidth w)

/-- The number of indices of a layer. -/
def layerCount (extents : Vec (BitVec w) (n + 1)) (dim : Dim3) : Vec (BitVec w) (n + 1) :=
  if few : n + 1 ≤ 3 then (fun d => (dim.zyx.rshrinkFit few d).setWidth w) else extents

/-- The indices of the hardware. -/
def Dim3.ids (dim : Dim3) : Set Dim3 := {id | id.x < dim.x ∧ id.y < dim.y ∧ id.z < dim.z}

/-- The linear order of the hardware, in which threads are grouped into warps. -/
def Dim3.linear (dim id : Dim3) : ℕ :=
  id.x.toNat + id.y.toNat * dim.x.toNat + id.z.toNat * dim.x.toNat * dim.y.toNat

/-- The launch loses nothing: with up to three dimensions the components have 32 bits,
otherwise the product is representable and has 32 bits. -/
def LaunchExact (extents : Vec (BitVec w) (n + 1)) : Prop :=
  if n + 1 ≤ 3 then ∀ d, (extents d).toNat < 2 ^ 32
  else ∏ d, (extents d).toNat < 2 ^ w ∧ ∏ d, (extents d).toNat < 2 ^ 32

private theorem Dim3.zyx_injective : Function.Injective Dim3.zyx := by
  intro first second same
  have z : first.z = second.z := congrFun same 0
  have y : first.y = second.y := congrFun same 1
  have x : first.x = second.x := congrFun same 2
  cases first
  cases second
  simp_all

private theorem Dim3.mem_ids {dim id : Dim3} : id ∈ dim.ids ↔ ∀ e, id.zyx e < dim.zyx e := by
  constructor
  · rintro ⟨x, y, z⟩ e
    match e with
    | 0 => exact z
    | 1 => exact y
    | 2 => exact x
  · exact fun inside => ⟨inside 2, inside 1, inside 0⟩

private theorem toNat_setWidth_of_lt_two_pow {u v : ℕ} {number : BitVec u}
    (small : number.toNat < 2 ^ v) : (number.setWidth v).toNat = number.toNat := by
  rw [BitVec.toNat_setWidth, Nat.mod_eq_of_lt small]

/-! ## Up to three dimensions -/

section Few

variable {extents : Vec (BitVec w) (n + 1)}

private theorem layerIdx_few (few : n + 1 ≤ 3) (extents : Vec (BitVec w) (n + 1)) (id : Dim3)
    (d : Fin (n + 1)) : layerIdx extents id d = (id.zyx.rshrinkFit few d).setWidth w := by
  unfold layerIdx
  rw [dif_pos few]

/-- A dimension of the hardware is one of the extents … -/
theorem launchDim_few (few : n + 1 ≤ 3) (extents : Vec (BitVec w) (n + 1)) (d : Fin (n + 1)) :
    (launchDim extents).zyx.rshrinkFit few d = (extents d).setWidth 32 := by
  have small : ¬ 4 ≤ n + 1 := by omega
  unfold launchDim
  rw [if_neg small]
  match n, few with
  | 0, _ => match d with
    | 0 => rfl
  | 1, _ => match d with
    | 0 => rfl
    | 1 => rfl
  | 2, _ => match d with
    | 0 => rfl
    | 1 => rfl
    | 2 => rfl

/-- … or has a single index. -/
theorem launchDim_outer (few : n + 1 ≤ 3) (extents : Vec (BitVec w) (n + 1)) {e : Fin 3}
    (outer : (e : ℕ) < 3 - (n + 1)) : (launchDim extents).zyx e = 1 := by
  have small : ¬ 4 ≤ n + 1 := by omega
  unfold launchDim
  rw [if_neg small]
  match n, few with
  | 0, _ => match e with
    | 0 => rfl
    | 1 => rfl
    | 2 => exact absurd outer (by decide)
  | 1, _ => match e with
    | 0 => rfl
    | 1 => exact absurd outer (by decide)
    | 2 => exact absurd outer (by decide)
  | 2, _ => exact absurd outer (Nat.not_lt_zero _)

/-- Every dimension of the hardware is used or has a single index. -/
theorem outer_or_axis (few : n + 1 ≤ 3) (e : Fin 3) :
    (e : ℕ) < 3 - (n + 1) ∨ ∃ d : Fin (n + 1), e = ⟨3 - (n + 1) + d, by omega⟩ := by
  by_cases outer : (e : ℕ) < 3 - (n + 1)
  · exact .inl outer
  · refine .inr ⟨⟨e - (3 - (n + 1)), by omega⟩, Fin.ext ?_⟩
    change (e : ℕ) = 3 - (n + 1) + (e - (3 - (n + 1)))
    omega

private theorem toNat_layerIdx_few (few : n + 1 ≤ 3) {id : Dim3}
    (member : id ∈ (launchDim extents).ids) (d : Fin (n + 1)) (small : (extents d).toNat < 2 ^ 32) :
    (layerIdx extents id d).toNat = (id.zyx.rshrinkFit few d).toNat ∧
      (id.zyx.rshrinkFit few d).toNat < (extents d).toNat := by
  have below : (id.zyx.rshrinkFit few d).toNat < (extents d).toNat := by
    have inside : id.zyx.rshrinkFit few d < (launchDim extents).zyx.rshrinkFit few d :=
      Dim3.mem_ids.mp member _
    rwa [launchDim_few few, BitVec.lt_def, toNat_setWidth_of_lt_two_pow small] at inside
  rw [layerIdx_few few, toNat_setWidth_of_lt_two_pow (below.trans (extents d).isLt)]
  exact ⟨rfl, below⟩

private theorem layer_bijOn_few (few : n + 1 ≤ 3) (small : ∀ d, (extents d).toNat < 2 ^ 32) :
    Set.BijOn (layerIdx extents) (launchDim extents).ids (box extents) := by
  refine ⟨fun id member d => ?_, fun first firstIn second secondIn same => ?_,
    fun idx inside => ?_⟩
  · obtain ⟨machine, below⟩ := toNat_layerIdx_few few member d (small d)
    rw [BitVec.lt_def, machine]
    exact below
  · apply Dim3.zyx_injective
    funext e
    rcases outer_or_axis few e with outer | ⟨d, rfl⟩
    · have left := Dim3.mem_ids.mp firstIn e
      have right := Dim3.mem_ids.mp secondIn e
      rw [launchDim_outer few extents outer] at left right
      bv_omega
    · have left := toNat_layerIdx_few few firstIn d (small d)
      have right := toNat_layerIdx_few few secondIn d (small d)
      have equal := congrArg BitVec.toNat (congrFun same d)
      rw [left.1, right.1] at equal
      exact BitVec.eq_of_toNat_eq equal
  · let component (e : Fin 3) : BitVec 32 :=
      if outer : (e : ℕ) < 3 - (n + 1) then 0
      else (idx ⟨e - (3 - (n + 1)), by omega⟩).setWidth 32
    have axis (d : Fin (n + 1)) :
        component ⟨3 - (n + 1) + d, by omega⟩ = (idx d).setWidth 32 := by
      have used : ¬ 3 - (n + 1) + (d : ℕ) < 3 - (n + 1) := by omega
      have same : (⟨3 - (n + 1) + d - (3 - (n + 1)), by omega⟩ : Fin (n + 1)) = d :=
        Fin.ext (Nat.add_sub_cancel_left _ _)
      change (if outer : 3 - (n + 1) + (d : ℕ) < 3 - (n + 1) then _ else _) = _
      rw [dif_neg used, same]
    have below (d : Fin (n + 1)) : (idx d).toNat < (extents d).toNat := inside d
    have cast (d : Fin (n + 1)) : ((idx d).setWidth 32).toNat = (idx d).toNat :=
      toNat_setWidth_of_lt_two_pow ((below d).trans (small d))
    let id : Dim3 := ⟨component 2, component 1, component 0⟩
    have zyx (e : Fin 3) : id.zyx e = component e := by
      match e with
      | 0 => rfl
      | 1 => rfl
      | 2 => rfl
    have member : id ∈ (launchDim extents).ids := by
      refine Dim3.mem_ids.mpr fun e => ?_
      rw [zyx]
      rcases outer_or_axis few e with outer | ⟨d, rfl⟩
      · rw [launchDim_outer few extents outer]
        change (if outer : (e : ℕ) < 3 - (n + 1) then _ else _) < _
        rw [dif_pos outer]
        decide
      · have machine : (launchDim extents).zyx ⟨3 - (n + 1) + d, by omega⟩ =
            (extents d).setWidth 32 := launchDim_few few extents d
        rw [axis, machine, BitVec.lt_def, cast, toNat_setWidth_of_lt_two_pow (small d)]
        exact below d
    refine ⟨id, member, funext fun d => BitVec.eq_of_toNat_eq ?_⟩
    have machine : id.zyx.rshrinkFit few d = (idx d).setWidth 32 := (zyx _).trans (axis d)
    rw [(toNat_layerIdx_few few member d (small d)).1, machine, cast]

/-- A dimension that loses bits has too few indices. -/
theorem small_of_surjOn (few : n + 1 ≤ 3) (positive : ∀ d, 0 < (extents d).toNat)
    (onto : Set.SurjOn (layerIdx extents) (launchDim extents).ids (box extents)) (d : Fin (n + 1)) :
    (extents d).toNat < 2 ^ 32 := by
  have last (e : Fin (n + 1)) : (((extents e).toNat - 1 : ℕ) : BitVec w).toNat =
      (extents e).toNat - 1 := by
    rw [toNat_cast, Nat.mod_eq_of_lt ((Nat.sub_le _ _).trans_lt (extents e).isLt)]
  have corner : (fun e => (((extents e).toNat - 1 : ℕ) : BitVec w)) ∈ box extents := by
    intro e
    rw [BitVec.lt_def, last]
    exact Nat.sub_lt (positive e) Nat.one_pos
  obtain ⟨id, member, reached⟩ := onto corner
  have inside : id.zyx.rshrinkFit few d < (launchDim extents).zyx.rshrinkFit few d :=
    Dim3.mem_ids.mp member _
  rw [launchDim_few few, BitVec.lt_def, BitVec.toNat_setWidth] at inside
  have number := congrArg BitVec.toNat (congrFun reached d)
  rw [layerIdx_few few, BitVec.toNat_setWidth, last] at number
  have narrowed := Nat.mod_le (id.zyx.rshrinkFit few d).toNat (2 ^ w)
  have lost := Nat.mod_lt (extents d).toNat (show 2 ^ 32 > 0 by decide)
  have := positive d
  omega

end Few

/-! ## More dimensions -/

section Many

variable {extents : Vec (BitVec w) (n + 1)}

private theorem layerIdx_many (many : ¬ n + 1 ≤ 3) (extents : Vec (BitVec w) (n + 1)) (id : Dim3) :
    layerIdx extents id = mapToND extents (id.x.setWidth w) := by
  unfold layerIdx
  rw [dif_neg many]

private theorem launchDim_many (many : ¬ n + 1 ≤ 3) (extents : Vec (BitVec w) (n + 1)) :
    launchDim extents = ⟨extents.product.setWidth 32, 1, 1⟩ := by
  have large : 4 ≤ n + 1 := by omega
  unfold launchDim
  rw [if_pos large]
  rfl

/-- The indices of a launch with one dimension. -/
theorem mem_ids_many (many : ¬ n + 1 ≤ 3) {id : Dim3} :
    id ∈ (launchDim extents).ids ↔
      id.x.toNat < (∏ d, (extents d).toNat) % 2 ^ w % 2 ^ 32 ∧ id.y = 0 ∧ id.z = 0 := by
  have first (number : BitVec 32) : number < 1 ↔ number = 0 := by bv_omega
  rw [launchDim_many many]
  change id.x < _ ∧ id.y < 1 ∧ id.z < 1 ↔ _
  rw [BitVec.lt_def, BitVec.toNat_setWidth, Vec.toNat_product, first, first]

private theorem numbers_bijOn (many : ¬ n + 1 ≤ 3) (representable : ∏ d, (extents d).toNat < 2 ^ w)
    (small : ∏ d, (extents d).toNat < 2 ^ 32) :
    Set.BijOn (fun id : Dim3 => id.x.setWidth w) (launchDim extents).ids
      {linearIdx | linearIdx.toNat < ∏ d, (extents d).toNat} := by
  have member {id : Dim3} : id ∈ (launchDim extents).ids ↔
      id.x.toNat < ∏ d, (extents d).toNat ∧ id.y = 0 ∧ id.z = 0 := by
    rw [mem_ids_many many, Nat.mod_eq_of_lt representable, Nat.mod_eq_of_lt small]
  have cast {id : Dim3} (inside : id ∈ (launchDim extents).ids) :
      (id.x.setWidth w).toNat = id.x.toNat :=
    toNat_setWidth_of_lt_two_pow ((member.mp inside).1.trans representable)
  refine ⟨fun id inside => ?_, fun first firstIn second secondIn same => ?_,
    fun linearIdx below => ?_⟩
  · change (id.x.setWidth w).toNat < _
    rw [cast inside]
    exact (member.mp inside).1
  · have numbers := congrArg BitVec.toNat same
    simp only [cast firstIn, cast secondIn] at numbers
    obtain ⟨-, y, z⟩ := member.mp firstIn
    obtain ⟨-, y', z'⟩ := member.mp secondIn
    have x := BitVec.eq_of_toNat_eq numbers
    cases first
    cases second
    simp_all
  · have narrow : (linearIdx.setWidth 32).toNat = linearIdx.toNat :=
      toNat_setWidth_of_lt_two_pow (lt_trans below small)
    have inside : (⟨linearIdx.setWidth 32, 0, 0⟩ : Dim3) ∈ (launchDim extents).ids := by
      rw [member]
      refine ⟨?_, rfl, rfl⟩
      rw [narrow]
      exact below
    exact ⟨_, inside, BitVec.eq_of_toNat_eq ((cast inside).trans narrow)⟩

private theorem layer_bijOn_many (many : ¬ n + 1 ≤ 3)
    (representable : ∏ d, (extents d).toNat < 2 ^ w) (small : ∏ d, (extents d).toNat < 2 ^ 32) :
    Set.BijOn (layerIdx extents) (launchDim extents).ids (box extents) := by
  have composed := (mapToND_bijOn representable).comp (numbers_bijOn many representable small)
  have same : layerIdx extents = mapToND extents ∘ fun id : Dim3 => id.x.setWidth w :=
    funext fun id => layerIdx_many many extents id
  rw [same]
  exact composed

/-- A product that loses bits has too few indices. -/
theorem exact_of_surjOn (many : ¬ n + 1 ≤ 3)
    (onto : Set.SurjOn (layerIdx extents) (launchDim extents).ids (box extents)) :
    ∏ d, (extents d).toNat < 2 ^ w ∧ ∏ d, (extents d).toNat < 2 ^ 32 := by
  let rank (number : ℕ) : ℕ := value extents.toNats (layerIdx extents ⟨number, 0, 0⟩).toNats
  have ranks : Set.SurjOn rank (Finset.range ((∏ d, (extents d).toNat) % 2 ^ w % 2 ^ 32))
      (Finset.range (∏ d, (extents d).toNat)) := by
    intro number below
    rw [Finset.mem_coe, Finset.mem_range] at below
    have digits : ∀ d, place extents.toNats number d < extents.toNats d := place_lt_of_lt below
    have exact : (Vec.ofNats (place extents.toNats number) : Vec (BitVec w) (n + 1)).toNats =
        place extents.toNats number :=
      Vec.toNats_ofNats fun d => (digits d).trans (extents d).isLt
    obtain ⟨id, member, reached⟩ := onto (show Vec.ofNats (place extents.toNats number) ∈ _ from
      fun d => (congrFun exact d).trans_lt (digits d))
    obtain ⟨inside, y, z⟩ := (mem_ids_many many).mp member
    refine ⟨id.x.toNat, Finset.mem_coe.mpr (Finset.mem_range.mpr inside), ?_⟩
    have whole : (⟨id.x.toNat, 0, 0⟩ : Dim3) = id := by
      cases id
      simp_all
    change value extents.toNats (layerIdx extents ⟨id.x.toNat, 0, 0⟩).toNats = number
    rw [whole, reached, exact]
    exact value_place (fun d _ => Nat.zero_lt_of_lt (digits d)) number
  have fewer := Finset.card_le_card_of_surjOn rank ranks
  rw [Finset.card_range, Finset.card_range] at fewer
  have narrowed := Nat.mod_le ((∏ d, (extents d).toNat) % 2 ^ w) (2 ^ 32)
  have representable := Nat.mod_lt (∏ d, (extents d).toNat) (Nat.two_pow_pos w)
  have small := Nat.mod_lt ((∏ d, (extents d).toNat) % 2 ^ w) (Nat.two_pow_pos 32)
  constructor <;> omega

end Many

/-! ## Any number of dimensions -/

section Layer

variable {extents : Vec (BitVec w) (n + 1)}

/-- An exact launch numbers the indices one-to-one. -/
theorem LaunchExact.bijOn (exact : LaunchExact extents) :
    Set.BijOn (layerIdx extents) (launchDim extents).ids (box extents) := by
  unfold LaunchExact at exact
  by_cases few : n + 1 ≤ 3
  · rw [if_pos few] at exact
    exact layer_bijOn_few few exact
  · rw [if_neg few] at exact
    exact layer_bijOn_many few exact.1 exact.2

/-- A launch that reaches all indices is exact. -/
theorem LaunchExact.of_surjOn (positive : ∀ d, 0 < (extents d).toNat)
    (onto : Set.SurjOn (layerIdx extents) (launchDim extents).ids (box extents)) :
    LaunchExact extents := by
  unfold LaunchExact
  by_cases few : n + 1 ≤ 3
  · rw [if_pos few]
    exact small_of_surjOn few positive onto
  · rw [if_neg few]
    exact exact_of_surjOn few onto

/-- **Hardware indices.** They number the indices of the extents one-to-one exactly when
the launch is exact. -/
theorem layer_bijOn_iff (positive : ∀ d, 0 < (extents d).toNat) :
    Set.BijOn (layerIdx extents) (launchDim extents).ids (box extents) ↔ LaunchExact extents :=
  ⟨fun bijective => LaunchExact.of_surjOn positive bijective.surjOn, LaunchExact.bijOn⟩

/-- An exact launch counts the extents. -/
theorem LaunchExact.count (exact : LaunchExact extents) :
    layerCount extents (launchDim extents) = extents := by
  unfold LaunchExact at exact
  unfold layerCount
  by_cases few : n + 1 ≤ 3
  · rw [if_pos few] at exact
    rw [dif_pos few]
    funext d
    apply BitVec.eq_of_toNat_eq
    rw [launchDim_few few, BitVec.toNat_setWidth, toNat_setWidth_of_lt_two_pow (exact d),
      Nat.mod_eq_of_lt (extents d).isLt]
  · rw [dif_neg few]

/-- The linear order of the hardware is that of the indices. -/
theorem linear_eq_linearize (exact : LaunchExact extents) {id : Dim3}
    (member : id ∈ (launchDim extents).ids) :
    (launchDim extents).linear id = linearize extents.toNats (layerIdx extents id).toNats := by
  have bijective := exact.bijOn
  unfold LaunchExact at exact
  by_cases few : n + 1 ≤ 3
  · rw [if_pos few] at exact
    have index (d : Fin (n + 1)) : (layerIdx extents id).toNats d =
        (id.zyx.rshrinkFit few d).toNat := (toNat_layerIdx_few few member d (exact d)).1
    have extent (d : Fin (n + 1)) : extents.toNats d =
        ((launchDim extents).zyx.rshrinkFit few d).toNat := by
      rw [launchDim_few few, toNat_setWidth_of_lt_two_pow (exact d)]
      rfl
    have zero {e : Fin 3} (outer : (e : ℕ) < 3 - (n + 1)) : id.zyx e = 0 := by
      have inside := Dim3.mem_ids.mp member e
      rw [launchDim_outer few extents outer] at inside
      bv_omega
    rw [funext index, funext extent]
    generalize launchDim extents = dim
    unfold Dim3.linear
    match n, few with
    | 0, few =>
        have y : id.y = 0 := zero (show ((1 : Fin 3) : ℕ) < 3 - (0 + 1) by decide)
        have z : id.z = 0 := zero (show ((0 : Fin 3) : ℕ) < 3 - (0 + 1) by decide)
        change _ = id.x.toNat
        rw [y, z]
        simp
    | 1, few =>
        have z : id.z = 0 := zero (show ((0 : Fin 3) : ℕ) < 3 - (1 + 1) by decide)
        change _ = id.y.toNat * dim.x.toNat + id.x.toNat
        rw [z]
        simp [Nat.add_comm]
    | 2, few =>
        change _ = (id.z.toNat * dim.y.toNat + id.y.toNat) * dim.x.toNat + id.x.toNat
        ring
  · rw [if_neg few] at exact
    obtain ⟨below, y, z⟩ := (mem_ids_many few).mp member
    rw [Nat.mod_eq_of_lt exact.1, Nat.mod_eq_of_lt exact.2] at below
    have cast : (id.x.setWidth w).toNat = id.x.toNat :=
      toNat_setWidth_of_lt_two_pow (below.trans exact.1)
    have digits : (layerIdx extents id).toNats = place extents.toNats id.x.toNat := by
      rw [layerIdx_many few, toNats_mapToND exact.1 (by rwa [cast]), mapToND_eq_place, cast]
    have bounded (d : Fin (n + 1)) (_ : d ≠ 0) : 0 < extents.toNats d :=
      Nat.zero_lt_of_lt (place_lt_of_lt below d)
    rw [digits, linearize_eq_value, value_place bounded, Dim3.linear, y, z]
    simp

theorem linear_lt (exact : LaunchExact extents) {id : Dim3}
    (member : id ∈ (launchDim extents).ids) :
    (launchDim extents).linear id < ∏ d, (extents d).toNat := by
  rw [linear_eq_linearize exact member, linearize_eq_value]
  exact value_lt (exact.bijOn.mapsTo member)

/-- Different indices of the hardware have different linear indices. -/
theorem linear_injOn (exact : LaunchExact extents) :
    Set.InjOn (launchDim extents).linear (launchDim extents).ids := by
  intro first firstIn second secondIn same
  rw [linear_eq_linearize exact firstIn, linear_eq_linearize exact secondIn, linearize_eq_value,
    linearize_eq_value] at same
  have digits := (value_bijOn extents.toNats).injOn (exact.bijOn.mapsTo firstIn)
    (exact.bijOn.mapsTo secondIn) same
  exact exact.bijOn.injOn firstIn secondIn (Vec.toNats_injective digits)

/-- Every number below the product is the linear index of the hardware for an index. -/
theorem exists_linear (exact : LaunchExact extents) {number : ℕ}
    (below : number < ∏ d, (extents d).toNat) :
    ∃ id ∈ (launchDim extents).ids, (launchDim extents).linear id = number := by
  have digits (d : Fin (n + 1)) : place extents.toNats number d < extents.toNats d :=
    place_lt_of_lt below d
  have kept : (Vec.ofNats (place extents.toNats number) : Vec (BitVec w) (n + 1)).toNats =
      place extents.toNats number :=
    Vec.toNats_ofNats fun d => (digits d).trans (extents d).isLt
  have inside : (Vec.ofNats (place extents.toNats number) : Vec (BitVec w) (n + 1)) ∈
      box extents := fun d => (congrFun kept d).trans_lt (digits d)
  obtain ⟨id, member, reached⟩ := exact.bijOn.surjOn inside
  refine ⟨id, member, ?_⟩
  rw [linear_eq_linearize exact member, linearize_eq_value, reached, kept]
  exact value_place (fun d _ => Nat.zero_lt_of_lt (digits d)) number

end Layer

end Alpaka
