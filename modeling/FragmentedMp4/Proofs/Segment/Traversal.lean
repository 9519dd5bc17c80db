import FragmentedMp4.Proofs.Segment.Steps

/-!
# The traversal of a segment as steps

Writing a fragment or a segment is carrying out its steps: the segment type, then the
index boxes and the two boxes of each fragment, where a movie fragment whose data offsets
cannot be moved stops the steps. The steps never take more room than the size of the
segment, and exactly that when none of them fails.
-/
namespace FragmentedMp4

open WriteStep

namespace WriteStep

variable {σ : Type}

/-- The steps take at most `count` bytes, and exactly that many unless one fails. -/
structure Sized (steps : List WriteStep) (count : Nat) : Prop where
  le : (steps.map size).sum ≤ count
  eq : firstFailure? steps = none → (steps.map size).sum = count

theorem firstFailure?_append (first second : List WriteStep) :
    firstFailure? (first ++ second) = (firstFailure? first).or (firstFailure? second) :=
  List.findSome?_append

theorem firstFailure?_append_eq_none {first second : List WriteStep} :
    firstFailure? (first ++ second) = none ↔
      firstFailure? first = none ∧ firstFailure? second = none := by
  rw [firstFailure?_append, Option.or_eq_none_iff]

theorem failure?_within (outer : Error → Error) (step : WriteStep) :
    (step.within outer).failure? = step.failure?.map (Failure.mapError outer) := by
  cases step with
  | stop error => rfl
  | put context box =>
    simp only [within, failure?, Option.map_map]
    congr 1
    funext failure
    cases failure <;> rfl

theorem firstFailure?_within (outer : Error → Error) (steps : List WriteStep) :
    firstFailure? (steps.map (within outer)) =
      (firstFailure? steps).map (Failure.mapError outer) := by
  unfold firstFailure?
  induction steps with
  | nil => rfl
  | cons step steps ih =>
    rw [List.map_cons, List.findSome?_cons, List.findSome?_cons, failure?_within, ih]
    cases step.failure? <;> rfl

theorem size_within (outer : Error → Error) (step : WriteStep) :
    (step.within outer).size = step.size := by
  cases step <;> rfl

theorem Sized.nil : Sized [] 0 :=
  ⟨le_rfl, fun _ => rfl⟩

theorem Sized.append {first second : List WriteStep} {m n : Nat} (hfirst : Sized first m)
    (hsecond : Sized second n) : Sized (first ++ second) (m + n) := by
  have h1 := hfirst.le
  have h2 := hsecond.le
  constructor
  · rw [List.map_append, List.sum_append]
    omega
  · intro h
    obtain ⟨hnone1, hnone2⟩ := firstFailure?_append_eq_none.1 h
    rw [List.map_append, List.sum_append, hfirst.eq hnone1, hsecond.eq hnone2]

theorem Sized.within {steps : List WriteStep} {count : Nat} (h : Sized steps count)
    (outer : Error → Error) : Sized (steps.map (within outer)) count := by
  have hsame : (steps.map (WriteStep.within outer)).map size = steps.map size := by
    simp only [List.map_map, Function.comp_def, size_within]
  constructor
  · rw [hsame]
    exact h.le
  · intro hnone
    rw [firstFailure?_within, Option.map_eq_none_iff] at hnone
    rw [hsame]
    exact h.eq hnone

theorem sized_puts {α : Type} (context : Error → Error) (wrap : α → AnyBox) (xs : List α) :
    Sized (xs.map fun x => .put context (wrap x)) (xs.map fun x => Box.size (wrap x)).sum := by
  have hsame : (xs.map fun x => WriteStep.put context (wrap x)).map size =
      xs.map fun x => Box.size (wrap x) := by
    simp only [List.map_map, Function.comp_def, size_put]
  exact ⟨by rw [hsame], fun _ => by rw [hsame]⟩

theorem Sized.length_bytesOf {steps : List WriteStep} {count : Nat} (h : Sized steps count)
    (hnone : firstFailure? steps = none) : (bytesOf (boxesOf steps)).length = count := by
  rw [← h.eq hnone]
  clear h
  induction steps with
  | nil => rfl
  | cons step steps ih =>
    cases step with
    | stop error => cases hnone
    | put context box =>
      have hwritable := (complete_of_no_failure hnone).2 box (by simp [boxesOf, box?])
      rw [firstFailure?_put_of_none (Box.failure?_eq_none.2 hwritable)] at hnone
      have hboxes : boxesOf (.put context box :: steps) = box :: boxesOf steps := rfl
      rw [hboxes, bytesOf_cons, List.length_append, ih hnone, Box.length_emission hwritable,
        List.map_cons, List.sum_cons, size_put]

theorem boxesOf_append (first second : List WriteStep) :
    boxesOf (first ++ second) = boxesOf first ++ boxesOf second :=
  List.filterMap_append

theorem boxesOf_within (outer : Error → Error) (steps : List WriteStep) :
    boxesOf (steps.map (within outer)) = boxesOf steps := by
  have hsame : box? ∘ within outer = box? := by
    funext step
    cases step <;> rfl
  rw [boxesOf, List.filterMap_map, hsame, boxesOf]

theorem boxesOf_puts {α : Type} (context : Error → Error) (wrap : α → AnyBox) (xs : List α) :
    boxesOf (xs.map fun x => .put context (wrap x)) = xs.map wrap := by
  induction xs with
  | nil => rfl
  | cons x xs ih => exact congrArg (wrap x :: ·) ih

theorem forM_append {α : Type} (action : α → Writing σ Unit) (xs ys : List α) :
    (xs ++ ys).forM action = xs.forM action >>= fun _ => ys.forM action :=
  List.forM_append

theorem forM_map {α β : Type} (f : α → β) (action : β → Writing σ Unit) (xs : List α) :
    (xs.map f).forM action = xs.forM fun x => action (f x) :=
  List.forM_map

theorem forM_flatMap {α β : Type} (f : α → List β) (action : β → Writing σ Unit) (xs : List α) :
    (xs.flatMap f).forM action = xs.forM fun x => (f x).forM action := by
  induction xs with
  | nil => rfl
  | cons x xs ih =>
    rw [List.flatMap_cons, forM_append, ih]
    rfl

end WriteStep

namespace Fragment

def writeSteps (fragment : Fragment) : List WriteStep :=
  match fragment.writtenMoof with
  | .error error => [.stop error]
  | .ok moof =>
    [.put (.inBox .moof) (.movieFragment moof), .put (.inBox .mdat) (.mediaData fragment.mdat)]

theorem write_eq_forM {σ : Type} (put : AnyBox → Writing σ Unit) (fragment : Fragment) :
    fragment.write put = fragment.writeSteps.forM (run put) := by
  unfold write writeSteps
  cases fragment.writtenMoof with
  | error error => rfl
  | ok moof =>
    have hlast : (do
        Writing.wrapping (.inBox .mdat) (put (.mediaData fragment.mdat))
        pure ()) = Writing.wrapping (.inBox .mdat) (put (.mediaData fragment.mdat)) :=
      bind_pure_unit
    change (Writing.wrapping (.inBox .moof) (put (.movieFragment moof)) >>= fun _ =>
      Writing.wrapping (.inBox .mdat) (put (.mediaData fragment.mdat))) = _
    rw [← hlast]
    rfl

theorem sized_writeSteps (fragment : Fragment) : Sized fragment.writeSteps fragment.size := by
  unfold writeSteps
  cases hcase : fragment.writtenMoof with
  | error error => exact ⟨Nat.zero_le _, fun h => by cases h⟩
  | ok moof =>
    have hmoof : Box.size moof = Box.size (fragment.moof.inLayout fragment.layout) :=
      MovieFragment.size_of_shifted hcase
    have hsize : fragment.size = Box.size moof + Box.size fragment.mdat := by
      rw [hmoof]
      rfl
    have hsum : Box.size (AnyBox.movieFragment moof) +
        (Box.size (AnyBox.mediaData fragment.mdat) + 0) = fragment.size := hsize.symm
    exact ⟨hsum.le, fun _ => hsum⟩

theorem writeStream_eq (fragment : Fragment) (held : Bytes) :
    fragment.writeStream ⟨none, held⟩ =
      Writing.ending (firstFailure? fragment.writeSteps)
        ⟨none, held ++ bytesOf (completeBoxes fragment.writeSteps)⟩ := by
  unfold writeStream
  rw [write_eq_forM]
  exact forM_writeStream _ held

theorem of_writeStream {fragment : Fragment} {stream : BoundedStream}
    (h : fragment.writeStream (.empty none) = .ok () stream) :
    ∃ moof, fragment.writtenMoof = .ok moof ∧ Box.Writable moof ∧ Box.Writable fragment.mdat ∧
      stream.bytes = (Box.emission moof).bytes ++ (Box.emission fragment.mdat).bytes := by
  have hend := fragment.writeStream_eq []
  rw [show fragment.writeStream ⟨none, []⟩ = .ok () stream from h] at hend
  cases hfailure : firstFailure? fragment.writeSteps with
  | some failure =>
    rw [hfailure] at hend
    cases hend
  | none =>
    obtain ⟨hcomplete, hwritable⟩ := complete_of_no_failure hfailure
    rw [hfailure, hcomplete] at hend
    cases hend
    unfold writeSteps at hfailure hwritable ⊢
    cases hmoof : fragment.writtenMoof with
    | error error =>
      rw [hmoof] at hfailure
      cases hfailure
    | ok moof =>
      simp only [hmoof] at hwritable ⊢
      have hfirst := hwritable (.movieFragment moof) (by simp [boxesOf, box?])
      have hsecond := hwritable (.mediaData fragment.mdat)
        (by simp [boxesOf, box?])
      refine ⟨moof, rfl, ⟨hfirst.size_lt, hfirst.complete⟩, ⟨hsecond.size_lt, hsecond.complete⟩, ?_⟩
      change [] ++ ((Box.emission moof).bytes ++ ((Box.emission fragment.mdat).bytes ++ [])) = _
      rw [List.append_nil, List.nil_append]

end Fragment

namespace SegmentPart

/-- The steps of writing the index boxes and the fragment of a part, counted from 1. -/
def writeSteps (part : SegmentPart) (number : Nat) : List WriteStep :=
  ((part.indexes.map fun index => WriteStep.put (.inBox .sidx) (.segmentIndex index)) ++
    part.fragment.writeSteps).map (within (.inFragment number))

theorem forM_writeSteps {σ : Type} (put : AnyBox → Writing σ Unit) (part : SegmentPart)
    (number : Nat) :
    (part.writeSteps number).forM (run put) = Writing.wrapping (.inFragment number) (do
      part.indexes.forM fun index => Writing.wrapping (.inBox .sidx) (put (.segmentIndex index))
      part.fragment.write put) := by
  rw [writeSteps, forM_within, forM_append, forM_map, Fragment.write_eq_forM]
  rfl

theorem sized_writeSteps (part : SegmentPart) (number : Nat) :
    Sized (part.writeSteps number) (Segment.partSize part.fragment.layout part) := by
  have hindexes := sized_puts (.inBox .sidx) AnyBox.segmentIndex part.indexes
  exact (hindexes.append part.fragment.sized_writeSteps).within (.inFragment number)

end SegmentPart

namespace Segment

def writeSteps (segment : Segment) : List WriteStep :=
  (segment.segmentType.toList.map fun box => .put (.inBox .styp) (.segmentType box)) ++
    segment.parts.zipIdx.flatMap fun pair => pair.1.writeSteps (pair.2 + 1)

/-- Writing a segment is carrying out its steps. -/
theorem writeBoxes_eq_forM {σ : Type} (put : AnyBox → Writing σ Unit) (segment : Segment) :
    segment.writeBoxes put = segment.writeSteps.forM (run put) := by
  unfold writeBoxes visit writeSteps
  rw [forM_append, forM_map, forM_flatMap]
  simp only [SegmentPart.forM_writeSteps]
  rfl

theorem sized_parts {layout : RunLayout} {parts : List SegmentPart} (start : Nat)
    (h : ∀ part ∈ parts, part.fragment.layout = layout) :
    Sized ((parts.zipIdx start).flatMap fun pair => pair.1.writeSteps (pair.2 + 1))
      (parts.map (partSize layout)).sum := by
  induction parts generalizing start with
  | nil => exact Sized.nil
  | cons part parts ih =>
    have hpart := part.sized_writeSteps (start + 1)
    rw [h part (by simp)] at hpart
    have hparts := ih (start + 1) fun other hmem => h other (by simp [hmem])
    exact hpart.append hparts

@[simp] theorem size_prepared (segment : Segment) : segment.prepared.size = segment.size := by
  unfold size prepared
  rw [List.map_map]
  rfl

/-- The size of a segment is what its steps take, unless one of them fails. -/
theorem sized_writeSteps (segment : Segment) :
    Sized segment.prepared.writeSteps segment.size := by
  have htype : Sized (segment.segmentType.toList.map fun box =>
      WriteStep.put (.inBox .styp) (.segmentType box))
      ((segment.segmentType.map (Box.size ·)).getD 0) := by
    cases segment.segmentType with
    | none => exact Sized.nil
    | some box => exact sized_puts (.inBox .styp) AnyBox.segmentType [box]
  have hparts : ∀ part ∈ segment.prepared.parts, part.fragment.layout = segment.layout := by
    intro part hmem
    obtain ⟨source, _, rfl⟩ := List.mem_map.1 hmem
    rfl
  have h := htype.append (sized_parts 0 hparts)
  rw [← size_prepared]
  exact h

theorem writeStream_eq (segment : Segment) (held : Bytes) :
    segment.writeStream ⟨none, held⟩ =
      Writing.ending (firstFailure? segment.prepared.writeSteps)
        ⟨none, held ++ bytesOf (completeBoxes segment.prepared.writeSteps)⟩ := by
  unfold writeStream
  rw [writeBoxes_eq_forM]
  exact forM_writeStream _ held

theorem writeStream_of_no_failure {segment : Segment}
    (h : firstFailure? segment.prepared.writeSteps = none) :
    segment.writeStream (.empty none) =
      .ok () ⟨none, bytesOf (completeBoxes segment.prepared.writeSteps)⟩ := by
  have hstream := segment.writeStream_eq []
  rw [h] at hstream
  exact hstream

/-- What a segment leaves in a buffer that has room for it, and how that ends. -/
theorem writeBuffer_eq (segment : Segment) {buffer : FixedBuffer}
    (room : segment.size ≤ buffer.remaining) :
    ∃ after : FixedBuffer, segment.writeBuffer buffer =
        Writing.ending (firstFailure? segment.prepared.writeSteps) after ∧
      after.bytes = buffer.bytes ++ bytesOf (completeBoxes segment.prepared.writeSteps) ∧
      after.capacity = buffer.capacity := by
  unfold writeBuffer
  rw [writeBoxes_eq_forM]
  exact forM_writeBuffer _ buffer (segment.sized_writeSteps.le.trans room)

end Segment
end FragmentedMp4
