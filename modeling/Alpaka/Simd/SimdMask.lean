import Mathlib.Data.BitVec
import Mathlib.Data.Fin.Basic
import Mathlib.Logic.Function.Basic

/-! # SIMD masks

The emulated mask of a lane type of four or eight bytes stores an integer of the same
size in each lane, all of whose bits are meant to be equal, since `update` blends with
them. Boolean values go through `valueMaskCast`, which sets all bits. Values of the
lane type are stored as they are, and `pCast` hands the ones of the casted lanes to
this constructor. Every mask along a sequence of constructions and assignments has
canonical lanes exactly when no such value with unequal bits is stored
(`Alpaka.SimdMask.selects_iff`).
-/

namespace Alpaka.SimdMask

/-- Whether a lane type has a mask type of its own. Otherwise the lanes of the mask are
Booleans, with a single bit. -/
def hasValueMask (bytes : ℕ) : Bool := bytes = 4 || bytes = 8

def maskBits (bytes : ℕ) : ℕ := if hasValueMask bytes then 8 * bytes else 1

/-- An unsigned integral lane type, by its size. -/
abbrev Value (bytes : ℕ) := BitVec (8 * bytes)

abbrev ValueMask (bytes : ℕ) := BitVec (maskBits bytes)

/-- The storage of a mask: one lane at least. -/
abbrev EmuSimdMask (bytes n : ℕ) := Fin (n + 1) → ValueMask bytes

abbrev EmuSimd (bytes n : ℕ) := Fin (n + 1) → Value bytes

variable {bytes n : ℕ}

/-- All bits are one if the condition is true, else all bits are zero. -/
def valueMaskCast (bytes : ℕ) (condition : Bool) : ValueMask bytes :=
  let value : ValueMask bytes := (BitVec.ofBool condition).setWidth _
  if hasValueMask bytes then -value else value

/-- The conversion of a value of the lane type, which keeps the bits unless the lanes
are Booleans. -/
def convert (value : Value bytes) : ValueMask bytes :=
  if hasValueMask bytes then value.setWidth _ else (BitVec.ofBool (value ≠ 0)).setWidth _

/-- What reading a lane gives. -/
def read (lane : ValueMask bytes) : Bool := lane ≠ 0

/-! ## The operations of the storage -/

/-- The comparison operators of SIMD packs. -/
inductive CmpOp
  | ge
  | gt
  | le
  | lt
  | eq
  | ne

def CmpOp.apply (lhs rhs : ℕ) : CmpOp → Bool
  | .ge => lhs ≥ rhs
  | .gt => lhs > rhs
  | .le => lhs ≤ rhs
  | .lt => lhs < rhs
  | .eq => lhs = rhs
  | .ne => lhs ≠ rhs

/-- The binary operators of masks, which see the integers in the lanes. -/
inductive MaskOp
  | eq
  | ne
  | and
  | or

def MaskOp.apply (lhs rhs : ℕ) : MaskOp → Bool
  | .eq => lhs = rhs
  | .ne => lhs ≠ rhs
  | .and => lhs ≠ 0 && rhs ≠ 0
  | .or => lhs ≠ 0 || rhs ≠ 0

/-- The assignment operators. -/
inductive AssignOp
  | assign
  | and
  | or
  | xor

def AssignOp.apply {bits : ℕ} (lane value : BitVec bits) : AssignOp → BitVec bits
  | .assign => value
  | .and => lane &&& value
  | .or => lane ||| value
  | .xor => lane ^^^ value

/-- The masks that can be built. The arguments of an operation have been built before.
An assignment operator with two masks has the body of the template, lane by lane; only
the plain assignment is ever instantiated for the emulated storage. -/
inductive Expr (n : ℕ) : ℕ → Type
  | bools {bytes : ℕ} (args : Fin (n + 1) → Bool) : Expr n bytes
  | values {bytes : ℕ} (args : EmuSimd bytes n) : Expr n bytes
  | generator {bytes : ℕ} (generator : Fin (n + 1) → Bool) : Expr n bytes
  | valueGenerator {bytes : ℕ} (generator : Fin (n + 1) → Value bytes) : Expr n bytes
  | fill {bytes : ℕ} (value : Bool) : Expr n bytes
  | cmp {bytes : ℕ} (op : CmpOp) (lhs rhs : EmuSimd bytes n) : Expr n bytes
  | cmpScalar {bytes : ℕ} (op : CmpOp) (lhs : EmuSimd bytes n) (rhs : Value bytes) : Expr n bytes
  | scalarCmp {bytes : ℕ} (op : CmpOp) (lhs : Value bytes) (rhs : EmuSimd bytes n) : Expr n bytes
  | mask {bytes : ℕ} (op : MaskOp) (lhs rhs : Expr n bytes) : Expr n bytes
  | maskScalar {bytes : ℕ} (op : MaskOp) (lhs : Expr n bytes) (rhs : Value bytes) : Expr n bytes
  | scalarMask {bytes : ℕ} (op : MaskOp) (lhs : Value bytes) (rhs : Expr n bytes) : Expr n bytes
  | assign {bytes : ℕ} (op : AssignOp) (lhs rhs : Expr n bytes) : Expr n bytes
  | assignScalar {bytes : ℕ} (op : AssignOp) (lhs : Expr n bytes) (value : Value bytes) :
      Expr n bytes
  | laneBool {bytes : ℕ} (op : AssignOp) (lhs : Expr n bytes) (lane : Fin (n + 1)) (value : Bool) :
      Expr n bytes
  | laneValue {bytes : ℕ} (op : AssignOp) (lhs : Expr n bytes) (lane : Fin (n + 1))
      (value : Value bytes) : Expr n bytes
  | pCast {bytes target : ℕ} (input : Expr n bytes) : Expr n target
  | pCastSame {bytes : ℕ} (input : Expr n bytes) : Expr n bytes

/-- The constructor with values of the lane type. -/
def ofValues (args : EmuSimd bytes n) : EmuSimdMask bytes n := fun i => convert (args i)

/-- The constructor with Boolean lanes. -/
def ofBools (args : Fin (n + 1) → Bool) : EmuSimdMask bytes n :=
  fun i => valueMaskCast bytes (args i)

/-- The binary operators write their results as Booleans. -/
def binaryCmp (op : ℕ → ℕ → Bool) {bits bits' : ℕ} (lhs : Fin (n + 1) → BitVec bits)
    (rhs : Fin (n + 1) → BitVec bits') : EmuSimdMask bytes n :=
  fun i => valueMaskCast bytes (op (lhs i).toNat (rhs i).toNat)

/-- A value is assigned through the reference to a lane. -/
def assignLane (op : AssignOp) (mask : EmuSimdMask bytes n) (lane : Fin (n + 1))
    (value : ValueMask bytes) : EmuSimdMask bytes n :=
  Function.update mask lane (op.apply (mask lane) value)

/-- The mask. -/
def Expr.eval {bytes : ℕ} : Expr n bytes → EmuSimdMask bytes n
  | .bools args => ofBools args
  | .values args => ofValues args
  | .generator lanes => ofBools lanes
  | .valueGenerator lanes => ofValues lanes
  | .fill value => fun _ => valueMaskCast _ value
  | .cmp op lhs rhs => binaryCmp (op.apply · ·) lhs rhs
  | .cmpScalar op lhs rhs => binaryCmp (op.apply · ·) lhs fun _ => rhs
  | .scalarCmp op lhs rhs => binaryCmp (op.apply · ·) (fun _ => lhs) rhs
  | .mask op lhs rhs => binaryCmp (op.apply · ·) lhs.eval rhs.eval
  | .maskScalar op lhs rhs => binaryCmp (op.apply · ·) lhs.eval fun _ => rhs
  | .scalarMask op lhs rhs => binaryCmp (op.apply · ·) (fun _ => lhs) rhs.eval
  | .assign op lhs rhs => fun i => op.apply (lhs.eval i) (rhs.eval i)
  | .assignScalar op lhs value => fun i => op.apply (lhs.eval i) (convert value)
  | .laneBool op lhs lane value => assignLane op lhs.eval lane (valueMaskCast _ value)
  | .laneValue op lhs lane value => assignLane op lhs.eval lane (convert value)
  | .pCast input => ofValues fun i => (BitVec.ofBool (read (input.eval i))).setWidth _
  | .pCastSame input => input.eval

/-- Element-wise conditional value update. -/
def update (mask : EmuSimdMask bytes n) (t old : EmuSimd bytes n) : EmuSimd bytes n := fun i =>
  if hasValueMask bytes then
    BitVec.setWidth _
      ((mask i &&& (t i).setWidth _) ||| (~~~ mask i &&& (old i).setWidth _))
  else if read (mask i) then t i
  else old i

/-! ## Canonical lanes -/

/-- All bits of a lane are equal. -/
def Canonical (lane : ValueMask bytes) : Prop := lane = 0 ∨ lane = BitVec.allOnes _

private theorem setWidth_ofBool (bits : ℕ) (condition : Bool) :
    (BitVec.ofBool condition).setWidth bits = if condition then 1 else 0 := by
  cases condition
  · simp
  · apply BitVec.eq_of_toNat_eq
    simp

private theorem maskBits_of_wide (wide : hasValueMask bytes = true) : maskBits bytes = 8 * bytes :=
  if_pos wide

private theorem maskBits_of_narrow (narrow : ¬ hasValueMask bytes = true) : maskBits bytes = 1 :=
  if_neg narrow

private theorem maskBits_pos (bytes : ℕ) : 0 < maskBits bytes := by
  unfold maskBits hasValueMask
  split
  · rename_i wide
    simp only [Bool.or_eq_true, decide_eq_true_eq] at wide
    omega
  · exact Nat.one_pos

/-- The only bit of a Boolean lane. -/
theorem one_eq_allOnes (narrow : ¬ hasValueMask bytes = true) :
    (1 : ValueMask bytes) = BitVec.allOnes _ := by
  apply BitVec.eq_of_toNat_eq
  simp [maskBits_of_narrow narrow]

private theorem valueMaskCast_eq (bytes : ℕ) (condition : Bool) :
    valueMaskCast bytes condition = if condition then BitVec.allOnes _ else 0 := by
  unfold valueMaskCast
  rw [setWidth_ofBool]
  by_cases wide : hasValueMask bytes = true
  · cases condition <;> simp [wide, BitVec.neg_one_eq_allOnes]
  · rw [one_eq_allOnes wide]
    simp [wide]

private theorem canonical_valueMaskCast (condition : Bool) :
    Canonical (valueMaskCast bytes condition) := by
  rw [valueMaskCast_eq]
  cases condition
  · exact .inl rfl
  · exact .inr rfl

/-- A Boolean lane is canonical. -/
theorem canonical_of_narrow (narrow : ¬ hasValueMask bytes = true) (lane : ValueMask bytes) :
    Canonical lane := by
  have size : 2 ^ maskBits bytes = 2 := by
    rw [maskBits_of_narrow narrow]
    rfl
  have bound := lane.isLt
  rcases Nat.lt_or_ge lane.toNat 1 with zero | one
  · left
    apply BitVec.eq_of_toNat_eq
    simp only [BitVec.ofNat_eq_ofNat, BitVec.toNat_ofNat, Nat.zero_mod]
    omega
  · right
    apply BitVec.eq_of_toNat_eq
    rw [BitVec.toNat_allOnes]
    omega

/-- A value of the lane type that may be stored as it is. -/
def Value.Whole (value : Value bytes) : Prop :=
  hasValueMask bytes = true → value = 0 ∨ value = BitVec.allOnes _

/-- Values and lanes of the same size. -/
theorem setWidth_eq_iff (wide : hasValueMask bytes = true) {value : Value bytes}
    {lane : ValueMask bytes} : value.setWidth _ = lane ↔ value = lane.setWidth _ := by
  have size := maskBits_of_wide wide
  constructor
  · intro same
    rw [← same, BitVec.setWidth_setWidth_of_le _ (Nat.le_of_eq size.symm), BitVec.setWidth_eq]
  · intro same
    rw [same, BitVec.setWidth_setWidth_of_le _ (Nat.le_of_eq size), BitVec.setWidth_eq]

private theorem setWidth_allOnes (wide : hasValueMask bytes = true) :
    (BitVec.allOnes (maskBits bytes)).setWidth (8 * bytes) = BitVec.allOnes _ := by
  rw [maskBits_of_wide wide, BitVec.setWidth_eq]

private theorem canonical_convert_iff (value : Value bytes) :
    Canonical (convert value) ↔ value.Whole := by
  unfold Value.Whole
  by_cases wide : hasValueMask bytes = true
  · have kept : convert value = value.setWidth _ := if_pos wide
    unfold Canonical
    rw [kept, setWidth_eq_iff wide, setWidth_eq_iff wide, setWidth_allOnes wide]
    simp [wide]
  · exact iff_of_true (canonical_of_narrow wide _) fun wide' => absurd wide' wide

private theorem read_allOnes : read (BitVec.allOnes (maskBits bytes)) = true := by
  simp [read, (maskBits_pos bytes).ne']

private theorem read_zero : read (0#(maskBits bytes)) = false := by simp [read]

private theorem canonical_not_iff (lane : ValueMask bytes) :
    Canonical (~~~lane) ↔ Canonical lane := by
  unfold Canonical
  constructor
  · rintro (same | same)
    · exact .inr (by rw [← BitVec.not_not (b := lane), same]; exact BitVec.not_zero)
    · exact .inl (by rw [← BitVec.not_not (b := lane), same]; exact BitVec.not_allOnes)
  · rintro (same | same)
    · exact .inr (by rw [same]; exact BitVec.not_zero)
    · exact .inl (by rw [same]; exact BitVec.not_allOnes)

/-! ## Assignments -/

private theorem canonical_apply {lane value : ValueMask bytes} (canonical : Canonical lane)
    (canonical' : Canonical value) (op : AssignOp) : Canonical (op.apply lane value) := by
  unfold Canonical at *
  rcases canonical with same | same <;> rcases canonical' with same' | same' <;>
    cases op <;> simp [AssignOp.apply, same, same']

/-- When a value of the lane type may be assigned to a lane: the other bits of the lane
must not survive. -/
def AssignOp.Stores (value : Value bytes) (lane : ValueMask bytes) : AssignOp → Prop
  | .assign => value.Whole
  | .and => value.Whole ∨ read lane = false
  | .or => value.Whole ∨ read lane = true
  | .xor => value.Whole

private theorem canonical_apply_iff {lane : ValueMask bytes} (canonical : Canonical lane)
    (op : AssignOp) (value : Value bytes) :
    Canonical (op.apply lane (convert value)) ↔ op.Stores value lane := by
  have converted := canonical_convert_iff value
  rcases canonical with unset | set
  · subst unset
    cases op with
    | assign => exact converted
    | and =>
        apply iff_of_true
        · exact .inl BitVec.zero_and
        · exact .inr read_zero
    | or => simp [AssignOp.apply, AssignOp.Stores, read_zero, converted]
    | xor => simp [AssignOp.apply, AssignOp.Stores, converted]
  · subst set
    cases op with
    | assign => exact converted
    | and => simp [AssignOp.apply, AssignOp.Stores, read_allOnes, converted]
    | or =>
        apply iff_of_true
        · exact .inr BitVec.allOnes_or
        · exact .inr read_allOnes
    | xor =>
        simp only [AssignOp.apply, AssignOp.Stores, BitVec.allOnes_xor]
        rw [canonical_not_iff]
        exact converted

/-! ## Updates -/

/-- A canonical lane selects one of the operands as a whole. -/
theorem update_of_canonical {mask : EmuSimdMask bytes n} {i : Fin (n + 1)}
    (canonical : Canonical (mask i)) (t old : EmuSimd bytes n) :
    update mask t old i = if read (mask i) then t i else old i := by
  unfold update
  by_cases wide : hasValueMask bytes = true
  · have size := maskBits_of_wide wide
    have keeps (value : Value bytes) :
        (value.setWidth (maskBits bytes)).setWidth (8 * bytes) = value := by
      rw [BitVec.setWidth_setWidth_of_le _ (Nat.le_of_eq size.symm), BitVec.setWidth_eq]
    rw [if_pos wide]
    rcases canonical with unset | set
    · simp [unset, keeps, read_zero]
    · simp [set, keeps, read_allOnes]
  · rw [if_neg wide]

/-! ## Sequences of operations -/

/-- A mask that updates whole lanes: its lanes are canonical, and where a lane reads
true, an update leaves the new value, and elsewhere the old one. -/
structure Selects {bytes : ℕ} (mask : EmuSimdMask bytes n) : Prop where
  canonical : ∀ i, Canonical (mask i)
  update_eq : ∀ (t old : EmuSimd bytes n) i,
    update mask t old i = if read (mask i) then t i else old i

private theorem selects_iff_canonical {mask : EmuSimdMask bytes n} :
    Selects mask ↔ ∀ i, Canonical (mask i) :=
  ⟨Selects.canonical, fun canonical => ⟨canonical, fun t old i =>
    update_of_canonical (canonical i) t old⟩⟩

/-- Every mask along the sequence selects whole lanes. -/
def Expr.AllSelect {bytes : ℕ} : Expr n bytes → Prop
  | .mask op lhs rhs => Selects (Expr.mask op lhs rhs).eval ∧ lhs.AllSelect ∧ rhs.AllSelect
  | .maskScalar op lhs rhs => Selects (Expr.maskScalar op lhs rhs).eval ∧ lhs.AllSelect
  | .scalarMask op lhs rhs => Selects (Expr.scalarMask op lhs rhs).eval ∧ rhs.AllSelect
  | .assign op lhs rhs => Selects (Expr.assign op lhs rhs).eval ∧ lhs.AllSelect ∧ rhs.AllSelect
  | .assignScalar op lhs value => Selects (Expr.assignScalar op lhs value).eval ∧ lhs.AllSelect
  | .laneBool op lhs lane value => Selects (Expr.laneBool op lhs lane value).eval ∧ lhs.AllSelect
  | .laneValue op lhs lane value =>
      Selects (Expr.laneValue op lhs lane value).eval ∧ lhs.AllSelect
  | @Expr.pCast _ _ target input => Selects (@Expr.pCast _ _ target input).eval ∧ input.AllSelect
  | .pCastSame input => Selects (Expr.pCastSame input).eval ∧ input.AllSelect
  | leaf => Selects leaf.eval

/-- No operation of the sequence stores a value of the lane type with unequal bits: none
is given to a constructor or assigned where the lane keeps them, and no mask with a true
lane is cast to a lane type with a mask type of its own. -/
def Expr.StoresWhole {bytes : ℕ} : Expr n bytes → Prop
  | .bools _ => True
  | .values args => ∀ i, (args i).Whole
  | .generator _ => True
  | .valueGenerator lanes => ∀ i, (lanes i).Whole
  | .fill _ => True
  | .cmp _ _ _ => True
  | .cmpScalar _ _ _ => True
  | .scalarCmp _ _ _ => True
  | .mask _ lhs rhs => lhs.StoresWhole ∧ rhs.StoresWhole
  | .maskScalar _ lhs _ => lhs.StoresWhole
  | .scalarMask _ _ rhs => rhs.StoresWhole
  | .assign _ lhs rhs => lhs.StoresWhole ∧ rhs.StoresWhole
  | .assignScalar op lhs value => (∀ i, op.Stores value (lhs.eval i)) ∧ lhs.StoresWhole
  | .laneBool _ lhs _ _ => lhs.StoresWhole
  | .laneValue op lhs lane value => op.Stores value (lhs.eval lane) ∧ lhs.StoresWhole
  | @Expr.pCast _ _ target input =>
      (hasValueMask target = true → ∀ i, read (input.eval i) = false) ∧ input.StoresWhole
  | .pCastSame input => input.StoresWhole

private theorem Expr.AllSelect.selects {expr : Expr n bytes} (all : expr.AllSelect) :
    Selects expr.eval := by
  cases expr with
  | bools _ => exact all
  | values _ => exact all
  | generator _ => exact all
  | valueGenerator _ => exact all
  | fill _ => exact all
  | cmp _ _ _ => exact all
  | cmpScalar _ _ _ => exact all
  | scalarCmp _ _ _ => exact all
  | mask _ _ _ => exact all.1
  | maskScalar _ _ _ => exact all.1
  | scalarMask _ _ _ => exact all.1
  | assign _ _ _ => exact all.1
  | assignScalar _ _ _ => exact all.1
  | laneBool _ _ _ _ => exact all.1
  | laneValue _ _ _ _ => exact all.1
  | pCast _ => exact all.1
  | pCastSame _ => exact all.1

/-- An assignment to one lane leaves the others alone. -/
theorem canonical_assignLane_iff {mask : EmuSimdMask bytes n} (canonical : ∀ i, Canonical (mask i))
    (op : AssignOp) (lane : Fin (n + 1)) (value : ValueMask bytes) :
    (∀ i, Canonical (assignLane op mask lane value i)) ↔
      Canonical (op.apply (mask lane) value) := by
  unfold assignLane
  constructor
  · intro all
    have own := all lane
    rwa [Function.update_self] at own
  · intro own i
    by_cases same : i = lane
    · rw [same, Function.update_self]
      exact own
    · rw [Function.update_of_ne same]
      exact canonical i

/-- A cast lane holds zero or one. -/
theorem whole_ofBool_iff (bytes : ℕ) (condition : Bool) :
    Value.Whole ((BitVec.ofBool condition).setWidth (8 * bytes)) ↔
      (hasValueMask bytes = true → condition = false) := by
  unfold Value.Whole
  refine forall_congr' fun wide => ?_
  have size : 32 ≤ 8 * bytes := by
    simp only [hasValueMask, Bool.or_eq_true, decide_eq_true_eq] at wide
    omega
  rw [setWidth_ofBool]
  cases condition with
  | false => simp
  | true =>
      have power : 2 ^ 32 ≤ 2 ^ (8 * bytes) := Nat.pow_le_pow_right (by decide) size
      have small : 1 % 2 ^ (8 * bytes) = 1 := Nat.mod_eq_of_lt (by omega)
      simp only [← BitVec.toNat_inj, BitVec.toNat_allOnes, BitVec.ofNat_eq_ofNat,
        BitVec.toNat_ofNat, small, Nat.zero_mod, if_true, reduceCtorEq, iff_false,
        Nat.one_ne_zero, false_or]
      omega

/-- **Whole lanes.** Every mask along a sequence of operations has canonical lanes and
selects whole lanes exactly when no operation stores a value of the lane type with unequal
bits. -/
theorem selects_iff (expr : Expr n bytes) : expr.AllSelect ↔ expr.StoresWhole := by
  have cast (condition : Bool) {bytes : ℕ} : Canonical (valueMaskCast bytes condition) :=
    canonical_valueMaskCast condition
  induction expr with
  | bools args => exact iff_of_true (selects_iff_canonical.mpr fun _ => cast _) trivial
  | values args =>
      exact selects_iff_canonical.trans (forall_congr' fun i => canonical_convert_iff (args i))
  | generator lanes => exact iff_of_true (selects_iff_canonical.mpr fun _ => cast _) trivial
  | valueGenerator lanes =>
      exact selects_iff_canonical.trans (forall_congr' fun i => canonical_convert_iff (lanes i))
  | fill value => exact iff_of_true (selects_iff_canonical.mpr fun _ => cast _) trivial
  | cmp op lhs rhs => exact iff_of_true (selects_iff_canonical.mpr fun _ => cast _) trivial
  | cmpScalar op lhs rhs => exact iff_of_true (selects_iff_canonical.mpr fun _ => cast _) trivial
  | scalarCmp op lhs rhs => exact iff_of_true (selects_iff_canonical.mpr fun _ => cast _) trivial
  | mask op lhs rhs left right =>
      have canonical : Selects (Expr.mask op lhs rhs).eval :=
        selects_iff_canonical.mpr fun _ => cast _
      exact (and_iff_right canonical).trans (and_congr left right)
  | maskScalar op lhs rhs ih =>
      have canonical : Selects (Expr.maskScalar op lhs rhs).eval :=
        selects_iff_canonical.mpr fun _ => cast _
      exact (and_iff_right canonical).trans ih
  | scalarMask op lhs rhs ih =>
      have canonical : Selects (Expr.scalarMask op lhs rhs).eval :=
        selects_iff_canonical.mpr fun _ => cast _
      exact (and_iff_right canonical).trans ih
  | assign op lhs rhs left right =>
      have canonical (all : lhs.AllSelect ∧ rhs.AllSelect) :
          Selects (Expr.assign op lhs rhs).eval :=
        selects_iff_canonical.mpr fun i =>
          canonical_apply (all.1.selects.canonical i) (all.2.selects.canonical i) op
      exact (and_iff_right_of_imp canonical).trans (and_congr left right)
  | assignScalar op lhs value ih =>
      refine (and_congr_left fun all => ?_).trans (and_congr_right fun _ => ih)
      exact selects_iff_canonical.trans (forall_congr' fun i =>
        canonical_apply_iff (all.selects.canonical i) op value)
  | laneBool op lhs lane value ih =>
      have canonical (all : lhs.AllSelect) : Selects (Expr.laneBool op lhs lane value).eval :=
        selects_iff_canonical.mpr ((canonical_assignLane_iff all.selects.canonical op lane _).mpr
          (canonical_apply (all.selects.canonical lane) (cast _) op))
      exact (and_iff_right_of_imp canonical).trans ih
  | laneValue op lhs lane value ih =>
      refine (and_congr_left fun all => ?_).trans (and_congr_right fun _ => ih)
      exact selects_iff_canonical.trans ((canonical_assignLane_iff all.selects.canonical op lane
        _).trans (canonical_apply_iff (all.selects.canonical lane) op value))
  | @pCast _ target input ih =>
      refine (and_congr ?_ ih)
      refine selects_iff_canonical.trans ?_
      have lane (i : Fin (n + 1)) := (canonical_convert_iff _).trans
        (whole_ofBool_iff target (read (input.eval i)))
      refine (forall_congr' lane).trans ?_
      exact ⟨fun all wide i => all i wide, fun all i wide => all wide i⟩
  | pCastSame input ih =>
      exact (and_iff_right_of_imp fun all => all.selects).trans ih

/-- Cast to 64 bits, a true lane of 32 bits is left with its lowest bit set, and an update
mixes the operands. -/
theorem pCast_lost :
    ¬ ∀ (n bytes : ℕ) (expr : Expr n bytes), Selects expr.eval := by
  intro law
  let cast : Expr 0 8 := .pCast (.bools fun _ => true : Expr 0 4)
  have blend := (law 0 8 cast).update_eq (fun _ => 6) (fun _ => 9) 0
  revert blend
  decide

end Alpaka.SimdMask
