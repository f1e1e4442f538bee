import Alpaka.Simd.SimdPtr

/-! # Views of a part of the data

A sub view keeps the pitches and either the origin and the alignment or neither of
them. However sub views are chained, the last one shows a box of the first view
(`Alpaka.Covers.chain`), so that its elements are those of the first one
(`Alpaka.chain_element`).
-/

namespace Alpaka

open Math.Strides (offset_add dvd_offset)

/-- A view that shares the ownership of its data. -/
structure SharedBuffer (Deleter : Type) (n : ℕ) extends AlignedView ℕ n where
  deleter : Deleter

variable {Deleter : Type} {n : ℕ}

/-- A view of data of the same type. -/
def AlignedView.makeView (view : AlignedView ℕ n) (pointer : ℕ) (extents pitches : Vec ℕ (n + 1))
    (memAlignment : Alignment) : AlignedView ℕ n :=
  ⟨⟨pointer, view.span.sizeofValue, extents, pitches.eraseBack⟩, memAlignment⟩

/-- The first elements of a view, if there are as many. -/
def AlignedView.getSubView (view : AlignedView ℕ n) (extents : Vec ℕ (n + 1)) :
    Option (AlignedView ℕ n) :=
  if ∀ d, extents d ≤ view.span.extents d then
    some (view.makeView view.span.data extents view.span.getPitches view.memAlignment)
  else none

/-- The elements of a view from an offset on, if there are as many. -/
def AlignedView.getSubViewAt (view : AlignedView ℕ n) (offset extents : Vec ℕ (n + 1)) :
    Option (AlignedView ℕ n) :=
  if ∀ d, offset d + extents d ≤ view.span.extents d then
    some (view.makeView (view.span.ptr id offset) extents view.span.getPitches .auto)
  else none

def SharedBuffer.getSubSharedBuffer (buffer : SharedBuffer Deleter n) (extents : Vec ℕ (n + 1)) :
    Option (SharedBuffer Deleter n) :=
  if ∀ d, extents d ≤ buffer.span.extents d then
    some ⟨buffer.makeView buffer.span.data extents buffer.span.getPitches buffer.memAlignment,
      buffer.deleter⟩
  else none

def SharedBuffer.getSubSharedBufferAt (buffer : SharedBuffer Deleter n)
    (offsets extents : Vec ℕ (n + 1)) : Option (SharedBuffer Deleter n) :=
  if ∀ d, offsets d + extents d ≤ buffer.span.extents d then
    some ⟨buffer.makeView (buffer.span.ptr id offsets) extents buffer.span.getPitches .auto,
      buffer.deleter⟩
  else none

/-- What the calls are made on. -/
inductive ViewOrBuffer (Deleter : Type) (n : ℕ)
  | view (view : AlignedView ℕ n)
  | buffer (buffer : SharedBuffer Deleter n)

def ViewOrBuffer.toView : ViewOrBuffer Deleter n → AlignedView ℕ n
  | .view shown => shown
  | .buffer shared => shared.toAlignedView

inductive SubViewCall (n : ℕ)
  | getSubView (extents : Vec ℕ (n + 1))
  | getSubViewAt (offset extents : Vec ℕ (n + 1))
  | getSubSharedBuffer (extents : Vec ℕ (n + 1))
  | getSubSharedBufferAt (offsets extents : Vec ℕ (n + 1))

/-- The result of a call, if the view has the function and its assertion holds. -/
def SubViewCall.apply : SubViewCall n → ViewOrBuffer Deleter n → Option (ViewOrBuffer Deleter n)
  | .getSubView extents, current => (current.toView.getSubView extents).map .view
  | .getSubViewAt offset extents, current => (current.toView.getSubViewAt offset extents).map .view
  | .getSubSharedBuffer extents, .buffer shared => (shared.getSubSharedBuffer extents).map .buffer
  | .getSubSharedBufferAt offsets extents, .buffer shared =>
      (shared.getSubSharedBufferAt offsets extents).map .buffer
  | .getSubSharedBuffer _, .view _ => none
  | .getSubSharedBufferAt _ _, .view _ => none

/-- A chain of calls, each on the result of the one before. -/
def subViewChain (calls : List (SubViewCall n)) (root : ViewOrBuffer Deleter n) :
    Option (ViewOrBuffer Deleter n) :=
  calls.foldlM (fun current call => call.apply current) root

/-- The offset that a call gives. -/
def SubViewCall.offset : SubViewCall n → Vec ℕ (n + 1)
  | .getSubView _ => Vec.fill 0
  | .getSubViewAt offset _ => offset
  | .getSubSharedBuffer _ => Vec.fill 0
  | .getSubSharedBufferAt offsets _ => offsets

def totalOffset (calls : List (SubViewCall n)) : Vec ℕ (n + 1) :=
  fun d => (calls.map fun call => call.offset d).sum

/-- The first element has the alignment that the type of the view states. -/
def AlignedView.Aligned (type : ValueType) (view : AlignedView ℕ n) : Prop :=
  view.memAlignment.get type ∣ view.span.data

/-- The view on an allocation is proper, and it has the alignment that it states. -/
theorem AlignedView.proper_of_alloc (type : ValueType) {alignment : ℕ} (positive : 0 < alignment)
    (fits : type.alignof ∣ alignment) {ptr : ℕ} (aligned : alignment ∣ ptr)
    (extents : Vec ℕ (n + 1)) :
    let view : AlignedView ℕ n :=
      ⟨(alloc id type.sizeof alignment extents ptr : ℕ × MdSpan ℕ n).2, .byte alignment⟩
    view.Proper id type ∧ view.Aligned type := by
  have description := emulatedAlignedMemDescription_description type.sizeof positive extents
  exact ⟨⟨rfl, fits.trans aligned, fun d => fits.trans (description.aligned d),
    Nat.le_of_dvd positive fits⟩, aligned⟩

/-! ## One call -/

section Covers

variable {root view : AlignedView ℕ n} {shift : Vec ℕ (n + 1)} {type : ValueType}

/-- The stored pitches are those of the view. -/
theorem AlignedView.makeView_pitch (view : AlignedView ℕ n) (pointer : ℕ) (extents : Vec ℕ (n + 1))
    (memAlignment : Alignment) :
    (view.makeView pointer extents view.span.getPitches memAlignment).span.pitch =
      view.span.pitch := by
  funext d
  unfold makeView Vec.eraseBack MdSpan.getPitches
  exact @Fin.snoc_castSucc n (fun _ => ℕ) _ _ d

private theorem AlignedView.makeView_getPitches (view : AlignedView ℕ n) (pointer : ℕ)
    (extents : Vec ℕ (n + 1)) (memAlignment : Alignment) :
    (view.makeView pointer extents view.span.getPitches memAlignment).span.getPitches =
      view.span.getPitches := by
  have stored := view.makeView_pitch pointer extents memAlignment
  unfold MdSpan.getPitches at stored ⊢
  rw [stored]
  rfl

private theorem MdSpan.ptr_fill_zero (span : MdSpan ℕ n) :
    span.ptr id (Vec.fill 0) = span.data := by
  have first : Math.Strides.offset span.getPitches (Vec.fill 0) = 0 :=
    Finset.sum_eq_zero fun d _ => Nat.zero_mul _
  rw [MdSpan.ptr_eq_offset, first, Nat.add_zero]

/-- An element of a shifted view. -/
theorem MdSpan.ptr_ptr {span shifted : MdSpan ℕ n} (offset : Vec ℕ (n + 1))
    (data : shifted.data = span.ptr id offset) (pitches : shifted.getPitches = span.getPitches)
    (idx : Vec ℕ (n + 1)) : shifted.ptr id idx = span.ptr id fun d => offset d + idx d := by
  rw [MdSpan.ptr_eq_offset, data, MdSpan.ptr_eq_offset, MdSpan.ptr_eq_offset, pitches, offset_add,
    Nat.add_assoc]

/-- Every element of a proper view is aligned for its type. -/
theorem AlignedView.Proper.dvd_ptr (proper : view.Proper id type) (idx : Vec ℕ (n + 1)) :
    type.alignof ∣ view.span.ptr id idx := by
  rw [MdSpan.ptr_eq_offset]
  refine proper.data.add (dvd_offset fun d => ?_)
  unfold MdSpan.getPitches
  cases d using Fin.lastCases with
  | last =>
      rw [Fin.snoc_last, proper.sizeof]
      exact type.divides
  | cast d =>
      rw [Fin.snoc_castSucc]
      exact proper.pitch d

/-- A view shows the box of another one that begins at a shift. -/
structure Covers (type : ValueType) (root view : AlignedView ℕ n) (shift : Vec ℕ (n + 1)) :
    Prop where
  element : ∀ idx, view.span.ptr id idx = root.span.ptr id fun d => shift d + idx d
  inside : ∀ d, shift d + view.span.extents d ≤ root.span.extents d
  pitches : view.span.getPitches = root.span.getPitches
  proper : root.Proper id type → view.Proper id type
  aligned : root.Proper id type → root.Aligned type → view.Aligned type

theorem Covers.refl (type : ValueType) (view : AlignedView ℕ n) :
    Covers type view view (Vec.fill 0) := by
  refine ⟨fun idx => ?_, fun d => (Nat.zero_add _).le, rfl, id, fun _ => id⟩
  congr 1
  funext d
  exact (Nat.zero_add _).symm

/-- A box of a box. The alignment that it states has to be allowed, and true of its own
first element. -/
theorem Covers.makeView (covers : Covers type root view shift) {offset extents : Vec ℕ (n + 1)}
    (inside : ∀ d, offset d + extents d ≤ view.span.extents d) {memAlignment : Alignment}
    (kept : memAlignment = .auto ∨ memAlignment = view.memAlignment ∧ offset = Vec.fill 0) :
    Covers type root
      (view.makeView (view.span.ptr id offset) extents view.span.getPitches memAlignment)
      fun d => shift d + offset d := by
  have pitches := view.makeView_getPitches (view.span.ptr id offset) extents memAlignment
  refine ⟨fun idx => ?_, fun d => ?_, pitches.trans covers.pitches, fun proper => ?_,
    fun proper claimed => ?_⟩
  · rw [MdSpan.ptr_ptr offset rfl pitches, covers.element]
    congr 1
    funext d
    exact (Nat.add_assoc _ _ _).symm
  · have within := covers.inside d
    have there := inside d
    change shift d + offset d + extents d ≤ _
    omega
  · have old := covers.proper proper
    refine ⟨old.sizeof, old.dvd_ptr offset, fun d => ?_, ?_⟩
    · rw [AlignedView.makeView_pitch]
      exact old.pitch d
    · obtain rfl | ⟨rfl, -⟩ := kept
      · exact le_rfl
      · exact old.allowed
  · obtain rfl | ⟨rfl, rfl⟩ := kept
    · exact (covers.proper proper).dvd_ptr offset
    · rw [MdSpan.ptr_fill_zero]
      exact covers.aligned proper claimed

end Covers

/-- What a call returns: the origin is kept with the alignment, or shifted without. -/
private theorem SubViewCall.apply_cases {call : SubViewCall n}
    {current next : ViewOrBuffer Deleter n} (taken : call.apply current = some next) :
    ∃ extents memAlignment,
      (∀ d, call.offset d + extents d ≤ current.toView.span.extents d) ∧
      next.toView = current.toView.makeView (current.toView.span.ptr id call.offset) extents
        current.toView.span.getPitches memAlignment ∧
      (memAlignment = .auto ∨
        memAlignment = current.toView.memAlignment ∧ call.offset = Vec.fill 0) := by
  have same (extents : Vec ℕ (n + 1)) (d : Fin (n + 1)) : (Vec.fill 0 : Vec ℕ (n + 1)) d +
      extents d = extents d := Nat.zero_add _
  cases call with
  | getSubView extents =>
      obtain ⟨view, cut, rfl⟩ := Option.map_eq_some_iff.mp taken
      obtain ⟨inside, made⟩ := Option.ite_none_right_eq_some.mp cut
      refine ⟨extents, current.toView.memAlignment, fun d => (same extents d).trans_le (inside d),
        ?_, .inr ⟨rfl, rfl⟩⟩
      unfold offset
      rw [MdSpan.ptr_fill_zero]
      exact (Option.some.inj made).symm
  | getSubViewAt offset extents =>
      obtain ⟨view, cut, rfl⟩ := Option.map_eq_some_iff.mp taken
      obtain ⟨inside, made⟩ := Option.ite_none_right_eq_some.mp cut
      exact ⟨extents, Alignment.auto, inside, (Option.some.inj made).symm, .inl rfl⟩
  | getSubSharedBuffer extents =>
      cases current with
      | view shown => cases taken
      | buffer shared =>
          obtain ⟨part, cut, rfl⟩ := Option.map_eq_some_iff.mp taken
          obtain ⟨inside, made⟩ := Option.ite_none_right_eq_some.mp cut
          refine ⟨extents, shared.memAlignment, fun d => (same extents d).trans_le (inside d), ?_,
            .inr ⟨rfl, rfl⟩⟩
          unfold offset
          rw [MdSpan.ptr_fill_zero, ← Option.some.inj made]
          rfl
  | getSubSharedBufferAt offsets extents =>
      cases current with
      | view shown => cases taken
      | buffer shared =>
          obtain ⟨part, cut, rfl⟩ := Option.map_eq_some_iff.mp taken
          obtain ⟨inside, made⟩ := Option.ite_none_right_eq_some.mp cut
          refine ⟨extents, Alignment.auto, inside, ?_, .inl rfl⟩
          rw [← Option.some.inj made]
          rfl

/-! ## Chains -/

/-- **One call.** The result shows a box of what the view shows. -/
theorem Covers.apply {type : ValueType} {root : AlignedView ℕ n} {shift : Vec ℕ (n + 1)}
    {call : SubViewCall n} {current next : ViewOrBuffer Deleter n}
    (covers : Covers type root current.toView shift) (taken : call.apply current = some next) :
    Covers type root next.toView fun d => shift d + call.offset d := by
  obtain ⟨extents, memAlignment, inside, made, kept⟩ := SubViewCall.apply_cases taken
  rw [made]
  exact covers.makeView inside kept

/-- **A chain.** The last view shows the box at the sum of all offsets. -/
theorem Covers.chain {type : ValueType} {root : AlignedView ℕ n} {shift : Vec ℕ (n + 1)}
    {calls : List (SubViewCall n)} {current last : ViewOrBuffer Deleter n}
    (covers : Covers type root current.toView shift)
    (run : subViewChain calls current = some last) :
    Covers type root last.toView fun d => shift d + totalOffset calls d := by
  induction calls generalizing current shift with
  | nil =>
      cases run
      exact covers
  | cons call calls ih =>
      obtain ⟨next, taken, rest⟩ := Option.bind_eq_some_iff.mp run
      have later := ih (covers.apply taken) rest
      have sum : (fun d => shift d + totalOffset (call :: calls) d) =
          fun d => shift d + call.offset d + totalOffset calls d := by
        funext d
        unfold totalOffset
        rw [List.map_cons, List.sum_cons, Nat.add_assoc]
      rwa [sum]

/-- **Chains of sub views.** Their elements are those of the root at the sum of all offsets,
inside of its extents, the pitches are those of the root, and the first element has the
alignment that the type states. -/
theorem chain_element (type : ValueType) {root last : ViewOrBuffer Deleter n}
    {calls : List (SubViewCall n)} (run : subViewChain calls root = some last) :
    (∀ j, (∀ d, j d < last.toView.span.extents d) →
      (last.toView.span.ptr id j = root.toView.span.ptr id fun d => totalOffset calls d + j d) ∧
        ∀ d, totalOffset calls d + j d < root.toView.span.extents d) ∧
      last.toView.span.getPitches = root.toView.span.getPitches ∧
      (root.toView.Proper id type → root.toView.Aligned type → last.toView.Aligned type) := by
  have covers := (Covers.refl type root.toView).chain run
  have sum (d : Fin (n + 1)) : (Vec.fill 0 : Vec ℕ (n + 1)) d + totalOffset calls d =
      totalOffset calls d := Nat.zero_add _
  simp only [sum] at covers
  refine ⟨fun j below => ⟨covers.element j, fun d => ?_⟩, covers.pitches, covers.aligned⟩
  exact (Nat.add_lt_add_left (below d) _).trans_le (covers.inside d)

/-- A buffer of four-byte elements with padded rows. -/
private def padded : ViewOrBuffer Unit 1 := .buffer ⟨⟨⟨256, 4, ![4, 6], ![64]⟩, .byte 64⟩, ()⟩

/-- A part of a part of a part of it. -/
theorem chain_element_padded :
    ∃ last, subViewChain [.getSubSharedBufferAt ![1, 2] ![3, 4], .getSubView ![2, 3],
        .getSubViewAt ![1, 1] ![1, 2]] padded = some last ∧
      last.toView.span.ptr id ![0, 1] = padded.toView.span.ptr id ![2, 4] ∧
      last.toView.Aligned ⟨4, 4, by decide, by decide⟩ := by
  have run : subViewChain [.getSubSharedBufferAt ![1, 2] ![3, 4], .getSubView ![2, 3],
    .getSubViewAt ![1, 1] ![1, 2]] padded = some _ := rfl
  have proper : padded.toView.Proper id ⟨4, 4, by decide, by decide⟩ :=
    ⟨by decide, by decide, by decide, show 4 ≤ 64 by decide⟩
  have aligned : padded.toView.Aligned ⟨4, 4, by decide, by decide⟩ := show 64 ∣ 256 by decide
  exact ⟨_, rfl, rfl, (chain_element _ run).2.2 proper aligned⟩

end Alpaka
