import FragmentedMp4.Proofs.Segment.Traversal
import Mathlib.Data.List.Forall2

/-!
# The boxes that are written

What is written of a segment, in either layout, is the bytes of boxes that stand next to each
other. These are the segment type and the boxes of its parts, where the movie fragments have the
layout of the segment and data offsets that suit it. In the stored layout they are the boxes that
the segment has.
-/
namespace FragmentedMp4

open WriteStep

namespace WriteStep

theorem no_failure_of_puts {steps : List WriteStep} (hputs : ∀ step ∈ steps, step.box? ≠ none)
    (hwritable : ∀ box ∈ boxesOf steps, Box.Writable box) : firstFailure? steps = none := by
  refine List.findSome?_eq_none_iff.2 ?_
  intro step hmem
  cases step with
  | stop error => exact absurd rfl (hputs _ hmem)
  | put context box =>
    have hbox : box ∈ boxesOf steps := List.mem_filterMap.2 ⟨_, hmem, rfl⟩
    rw [failure?, Box.failure?_eq_none.2 (hwritable box hbox)]
    rfl

end WriteStep

theorem Fragment.writtenMoof_of_stored (fragment : Fragment) :
    Fragment.writtenMoof { fragment with layout := .stored } = .ok fragment.moof := by
  change fragment.moof.shifted (Box.size fragment.moof - Box.size fragment.moof) = _
  rw [sub_self, MovieFragment.shifted_zero]

theorem Fragment.writeSteps_of_written {fragment : Fragment} {moof : MovieFragment}
    (h : fragment.writtenMoof = .ok moof) :
    fragment.writeSteps = [.put (.inBox .moof) (.movieFragment moof),
      .put (.inBox .mdat) (.mediaData fragment.mdat)] := by
  unfold writeSteps
  rw [h]

namespace SegmentPart

def boxes (part : SegmentPart) : List AnyBox :=
  part.indexes.map AnyBox.segmentIndex ++ part.fragment.boxes

theorem writable_of_boxes {part : SegmentPart} (h : ∀ box ∈ part.boxes, Box.Writable box) :
    (∀ index ∈ part.indexes, Box.Writable index) ∧ Box.Writable part.fragment.moof ∧
      Box.Writable part.fragment.mdat := by
  refine ⟨?_, ?_, ?_⟩
  · intro index hmem
    have hindex := h (.segmentIndex index) (by simp [boxes, hmem])
    exact ⟨hindex.size_lt, hindex.complete⟩
  · have hmoof := h (.movieFragment part.fragment.moof) (by simp [boxes, Fragment.boxes])
    exact ⟨hmoof.size_lt, hmoof.complete⟩
  · have hmdat := h (.mediaData part.fragment.mdat) (by simp [boxes, Fragment.boxes])
    exact ⟨hmdat.size_lt, hmdat.complete⟩

theorem bytesOf_boxes (part : SegmentPart) (rest : Bytes) :
    bytesOf part.boxes ++ rest = bytesOf (part.indexes.map AnyBox.segmentIndex) ++
      ((Box.emission part.fragment.moof).bytes ++
        ((Box.emission part.fragment.mdat).bytes ++ rest)) := by
  rw [boxes, bytesOf_append, List.append_assoc, Fragment.boxes, bytesOf_cons, bytesOf_cons,
    bytesOf_nil, List.append_nil, List.append_assoc]
  rfl

/-- What is written of a part in a layout. -/
structure WrittenAs (layout : RunLayout) (part written : SegmentPart) : Prop where
  indexes : written.indexes = part.indexes
  moof : Fragment.writtenMoof { part.fragment with layout } = .ok written.fragment.moof
  mdat : written.fragment.mdat = part.fragment.mdat

theorem WrittenAs.of_stored (part : SegmentPart) : part.WrittenAs .stored part :=
  ⟨rfl, part.fragment.writtenMoof_of_stored, rfl⟩

variable {part written : SegmentPart}

theorem WrittenAs.boxesOf_writeSteps (h : part.WrittenAs part.fragment.layout written)
    (number : Nat) : boxesOf (part.writeSteps number) = written.boxes := by
  unfold writeSteps boxes
  rw [boxesOf_within, boxesOf_append, boxesOf_puts, Fragment.writeSteps_of_written h.moof,
    h.indexes, Fragment.boxes, h.mdat]
  rfl

theorem WrittenAs.writeSteps_puts (h : part.WrittenAs part.fragment.layout written)
    (number : Nat) : ∀ step ∈ part.writeSteps number, step.box? ≠ none := by
  intro step hmem
  obtain ⟨inner, hinner, rfl⟩ := List.mem_map.1 hmem
  rw [Fragment.writeSteps_of_written h.moof] at hinner
  rcases List.mem_append.1 hinner with hindex | hfragment
  · obtain ⟨index, -, rfl⟩ := List.mem_map.1 hindex
    exact Option.some_ne_none _
  · rcases List.mem_cons.1 hfragment with rfl | hlast
    · exact Option.some_ne_none _
    · rw [List.mem_singleton.1 hlast]
      exact Option.some_ne_none _

theorem exists_written {number : Nat} (h : firstFailure? (part.writeSteps number) = none) :
    ∃ written, part.WrittenAs part.fragment.layout written := by
  unfold writeSteps at h
  rw [firstFailure?_within, Option.map_eq_none_iff] at h
  obtain ⟨-, hfragment⟩ := firstFailure?_append_eq_none.1 h
  cases hmoof : part.fragment.writtenMoof with
  | error error =>
    rw [Fragment.writeSteps, hmoof] at hfragment
    cases hfragment
  | ok moof => exact ⟨⟨part.indexes, .ofBoxes moof part.fragment.mdat⟩, rfl, hmoof, rfl⟩

theorem WrittenAs.size_moof {layout : RunLayout} (h : part.WrittenAs layout written) :
    Box.size written.fragment.moof = Box.size (part.fragment.moof.inLayout layout) :=
  MovieFragment.size_of_shifted h.moof

end SegmentPart

namespace Segment

def boxes (segment : Segment) : List AnyBox :=
  segment.segmentType.toList.map AnyBox.segmentType ++ segment.parts.flatMap SegmentPart.boxes

variable {segment : Segment} {written : List SegmentPart}

theorem boxesOf_written {parts : List SegmentPart}
    (h : List.Forall₂ (fun part => SegmentPart.WrittenAs part.fragment.layout part) parts written)
    (start : Nat) :
    boxesOf ((parts.zipIdx start).flatMap fun pair => pair.1.writeSteps (pair.2 + 1)) =
        written.flatMap SegmentPart.boxes ∧
      ∀ step ∈ (parts.zipIdx start).flatMap fun pair => pair.1.writeSteps (pair.2 + 1),
        step.box? ≠ none := by
  induction h generalizing start with
  | nil => exact ⟨rfl, fun step hmem => by cases hmem⟩
  | cons hpart _ ih =>
    obtain ⟨hboxes, hputs⟩ := ih (start + 1)
    rw [List.zipIdx_cons, List.flatMap_cons, List.flatMap_cons, boxesOf_append,
      hpart.boxesOf_writeSteps, hboxes]
    refine ⟨rfl, ?_⟩
    intro step hmem
    rcases List.mem_append.1 hmem with hmem | hmem
    · exact hpart.writeSteps_puts _ step hmem
    · exact hputs step hmem

theorem exists_written_parts {parts : List SegmentPart} {start : Nat}
    (h : firstFailure? ((parts.zipIdx start).flatMap fun pair =>
      pair.1.writeSteps (pair.2 + 1)) = none) :
    ∃ written, List.Forall₂ (fun part => SegmentPart.WrittenAs part.fragment.layout part)
      parts written := by
  induction parts generalizing start with
  | nil => exact ⟨[], .nil⟩
  | cons part parts ih =>
    rw [List.zipIdx_cons, List.flatMap_cons] at h
    obtain ⟨hfirst, hrest⟩ := firstFailure?_append_eq_none.1 h
    obtain ⟨first, hwritten⟩ := SegmentPart.exists_written hfirst
    obtain ⟨rest, hall⟩ := ih hrest
    exact ⟨first :: rest, .cons hwritten hall⟩

theorem written_prepared :
    List.Forall₂ (fun part => SegmentPart.WrittenAs part.fragment.layout part)
        segment.prepared.parts written ↔
      List.Forall₂ (SegmentPart.WrittenAs segment.layout) segment.parts written := by
  unfold prepared
  rw [List.forall₂_map_left_iff]
  constructor
  · exact fun h => h.imp fun _ _ ⟨indexes, moof, mdat⟩ => ⟨indexes, moof, mdat⟩
  · exact fun h => h.imp fun _ _ ⟨indexes, moof, mdat⟩ => ⟨indexes, moof, mdat⟩

theorem boxesOf_prepared
    (h : List.Forall₂ (SegmentPart.WrittenAs segment.layout) segment.parts written) :
    boxesOf segment.prepared.writeSteps = { segment with parts := written }.boxes ∧
      ∀ step ∈ segment.prepared.writeSteps, step.box? ≠ none := by
  obtain ⟨hboxes, hputs⟩ := boxesOf_written (written_prepared.2 h) 0
  constructor
  · unfold writeSteps boxes
    rw [boxesOf_append, boxesOf_puts, hboxes]
    rfl
  · intro step hmem
    rcases List.mem_append.1 hmem with hmem | hmem
    · obtain ⟨segmentType, -, rfl⟩ := List.mem_map.1 hmem
      exact Option.some_ne_none _
    · exact hputs step hmem

theorem firstFailure?_of_written
    (h : List.Forall₂ (SegmentPart.WrittenAs segment.layout) segment.parts written)
    (hwritable : ∀ box ∈ { segment with parts := written }.boxes, Box.Writable box) :
    firstFailure? segment.prepared.writeSteps = none ∧
      boxesOf segment.prepared.writeSteps = { segment with parts := written }.boxes := by
  obtain ⟨hboxes, hputs⟩ := boxesOf_prepared h
  exact ⟨no_failure_of_puts hputs (hboxes ▸ hwritable), hboxes⟩

theorem written_of_stored (h : segment.layout = .stored) :
    List.Forall₂ (SegmentPart.WrittenAs segment.layout) segment.parts segment.parts := by
  rw [h, List.forall₂_same]
  exact fun part _ => .of_stored part

theorem boxesOf_writeSteps (h : segment.layout = .stored) :
    boxesOf segment.prepared.writeSteps =
      segment.segmentType.toList.map AnyBox.segmentType ++
        segment.parts.flatMap SegmentPart.boxes :=
  (boxesOf_prepared (written_of_stored h)).1

/-- A buffer of the size of the segment is filled with the boxes if all of them can be
written. -/
theorem writeBuffer_of_written
    (h : List.Forall₂ (SegmentPart.WrittenAs segment.layout) segment.parts written)
    (hwritable : ∀ box ∈ { segment with parts := written }.boxes, Box.Writable box) :
    ∃ after, segment.writeBuffer (.ofCapacity segment.size) = .ok () after ∧
      after.bytes = bytesOf { segment with parts := written }.boxes ∧
      after.bytes.length = segment.size := by
  obtain ⟨hnone, hboxes⟩ := firstFailure?_of_written h hwritable
  have hroom : segment.size ≤ (FixedBuffer.ofCapacity segment.size).remaining := by
    simp [FixedBuffer.remaining, FixedBuffer.capacity, FixedBuffer.ofCapacity]
  obtain ⟨after, hwrite, hbytes, -⟩ := segment.writeBuffer_eq hroom
  have hcomplete := (complete_of_no_failure hnone).1
  have hlength := segment.sized_writeSteps.length_bytesOf hnone
  have hempty : (FixedBuffer.ofCapacity segment.size).bytes = [] := List.take_zero
  rw [hnone] at hwrite
  rw [hempty, List.nil_append] at hbytes
  refine ⟨after, hwrite, ?_, ?_⟩
  · rw [hbytes, hcomplete, hboxes]
  · rw [hbytes, hcomplete, hlength]

theorem exists_written (h : firstFailure? segment.prepared.writeSteps = none) :
    ∃ written, List.Forall₂ (SegmentPart.WrittenAs segment.layout) segment.parts written ∧
      ∀ box ∈ { segment with parts := written }.boxes, Box.Writable box := by
  obtain ⟨-, hwritable⟩ := complete_of_no_failure h
  unfold writeSteps at h
  obtain ⟨-, hparts⟩ := firstFailure?_append_eq_none.1 h
  obtain ⟨written, hwritten⟩ := exists_written_parts hparts
  obtain ⟨hboxes, -⟩ := boxesOf_written hwritten 0
  refine ⟨written, written_prepared.1 hwritten, ?_⟩
  unfold writeSteps at hwritable
  rw [boxesOf_append, boxesOf_puts, hboxes] at hwritable
  exact hwritable

theorem of_writeStream {stream : BoundedStream}
    (h : segment.writeStream (.empty none) = .ok () stream) :
    ∃ written, List.Forall₂ (SegmentPart.WrittenAs segment.layout) segment.parts written ∧
      (∀ box ∈ { segment with parts := written }.boxes, Box.Writable box) ∧
      stream.bytes = bytesOf { segment with parts := written }.boxes := by
  have hend := segment.writeStream_eq []
  rw [show segment.writeStream ⟨none, []⟩ = .ok () stream from h] at hend
  cases hfailure : firstFailure? segment.prepared.writeSteps with
  | some failure =>
    rw [hfailure] at hend
    cases hend
  | none =>
    obtain ⟨written, hwritten, hwritable⟩ := exists_written hfailure
    obtain ⟨-, hboxes⟩ := firstFailure?_of_written hwritten hwritable
    rw [hfailure, (complete_of_no_failure hfailure).1, hboxes] at hend
    cases hend
    exact ⟨written, hwritten, hwritable, rfl⟩

/-- A segment in the stored layout that could be written is on the stream with the boxes that it
has. -/
theorem boxes_of_writeStream {stream : BoundedStream} (hlayout : segment.layout = .stored)
    (h : segment.writeStream (.empty none) = .ok () stream) :
    (∀ box ∈ segment.boxes, Box.Writable box) ∧ stream = ⟨none, bytesOf segment.boxes⟩ := by
  have hend := segment.writeStream_eq []
  rw [show segment.writeStream ⟨none, []⟩ = .ok () stream from h] at hend
  cases hfailure : firstFailure? segment.prepared.writeSteps with
  | some failure =>
    rw [hfailure] at hend
    cases hend
  | none =>
    obtain ⟨hcomplete, hwritable⟩ := complete_of_no_failure hfailure
    rw [boxesOf_writeSteps hlayout] at hwritable
    rw [hfailure, hcomplete, boxesOf_writeSteps hlayout] at hend
    cases hend
    exact ⟨hwritable, rfl⟩

end Segment
end FragmentedMp4
