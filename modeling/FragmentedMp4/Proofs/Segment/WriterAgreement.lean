import FragmentedMp4.Proofs.Segment.Traversal

/-!
# Streams and buffers receive the same segment

Writing a segment to a stream without a limit and writing it to a buffer with room for its
size come to the same end. Either both succeed with the same bytes, as many as the size
says, or both fail alike, behind the boxes that are complete before the one that fails.
Preparing a segment for writing changes nothing that a second writing would show.
-/
namespace FragmentedMp4

open WriteStep

namespace Segment

theorem prepared_prepared (segment : Segment) : segment.prepared.prepared = segment.prepared := by
  unfold prepared
  simp only [List.map_map, Function.comp_def]

/-- Writing leaves the prepared segment, which is written like the segment itself. -/
theorem write_prepared (segment : Segment) :
    segment.prepared.writeStream = segment.writeStream ∧
      segment.prepared.writeBuffer = segment.writeBuffer := by
  unfold writeStream writeBuffer
  rw [prepared_prepared]
  exact ⟨rfl, rfl⟩

/-- A stream without a limit and a buffer with room for the segment end alike. When the
steps of writing all come through, both hold the bytes of all boxes behind what they held
before; else both end with the failure of the first step that fails, and hold the boxes of
the steps before it. The segment that writing leaves has the layout of the segment in all
fragments and is otherwise the same; it has the same size and is written alike. -/
theorem writers_agree (segment : Segment) (held : Bytes) {buffer : FixedBuffer}
    (room : segment.size ≤ buffer.remaining) :
    (∃ (emitted : Bytes) (after : FixedBuffer), after.bytes = buffer.bytes ++ emitted ∧
      ((segment.writeStream ⟨none, held⟩ = .ok () ⟨none, held ++ emitted⟩ ∧
          segment.writeBuffer buffer = .ok () after ∧
          emitted = bytesOf (boxesOf segment.prepared.writeSteps) ∧
          emitted.length = segment.size) ∨
        ∃ failure done step later,
          segment.writeStream ⟨none, held⟩ = .error failure ⟨none, held ++ emitted⟩ ∧
          segment.writeBuffer buffer = .error failure after ∧
          segment.prepared.writeSteps = done ++ step :: later ∧
          firstFailure? done = none ∧ step.failure? = some failure ∧
          emitted = bytesOf (boxesOf done))) ∧
    segment.prepared = { segment with
      parts := segment.parts.map fun part =>
        { part with fragment := { part.fragment with layout := segment.layout } } } ∧
    segment.prepared.size = segment.size ∧
    segment.prepared.writeStream = segment.writeStream ∧
    segment.prepared.writeBuffer = segment.writeBuffer := by
  refine ⟨?_, rfl, segment.size_prepared, segment.write_prepared⟩
  obtain ⟨after, hbuffer, hbytes, _⟩ := segment.writeBuffer_eq room
  have hstream := segment.writeStream_eq held
  refine ⟨bytesOf (completeBoxes segment.prepared.writeSteps), after, hbytes, ?_⟩
  cases hcase : firstFailure? segment.prepared.writeSteps with
  | none =>
    rw [hcase] at hstream hbuffer
    have hcomplete := (complete_of_no_failure hcase).1
    have hlength := segment.sized_writeSteps.length_bytesOf hcase
    rw [← hcomplete] at hlength
    exact .inl ⟨hstream, hbuffer, congrArg bytesOf hcomplete, hlength⟩
  | some failure =>
    rw [hcase] at hstream hbuffer
    obtain ⟨done, step, later, hsteps, hdone, hstep, hcomplete⟩ := exists_of_failure hcase
    exact .inr ⟨failure, done, step, later, hstream, hbuffer, hsteps, hdone, hstep,
      congrArg bytesOf hcomplete⟩

/-- A compact segment with an index box, behind two bytes of a stream and three of a buffer. With
samples that have the same fields both take all of it; with others both stop at the movie fragment
and keep the boxes in front of it. -/
theorem writers_agree_behind_prefix :
    let index : SegmentIndex := ⟨0, 7, 1000, 0, 0, [⟨false, 111, 20, true, 1, 0⟩]⟩
    let segment (samples : List RunSample) : Segment :=
      ⟨some .cmaf, [⟨[index], .ofBoxes ⟨⟨1⟩, [⟨.ofTrack 7, [⟨some 120, none, samples⟩],
        some (.ofTime 5)⟩]⟩ ⟨[1, 2, 3]⟩⟩], [], .compact, 0⟩
    let uniform := segment [⟨some 10, some 1, none, none⟩, ⟨some 10, some 2, none, none⟩]
    let mixed := segment [⟨some 10, some 1, none, none⟩, ⟨none, some 2, none, none⟩]
    let failure : Failure :=
      .error (.inFragment 1 (.inBox .moof (.invalidBox .trun (.mixedSampleFields 2))))
    let buffer : FixedBuffer :=
      ⟨List.replicate 186 0, 3, by rw [List.length_replicate]; omega⟩
    uniform.size ≤ buffer.remaining ∧ mixed.size ≤ buffer.remaining ∧
      (∃ emitted after, uniform.writeStream ⟨none, [8, 9]⟩ = .ok () ⟨none, [8, 9] ++ emitted⟩ ∧
        uniform.writeBuffer buffer = .ok () after ∧ after.bytes = [0, 0, 0] ++ emitted ∧
        emitted.length = uniform.size) ∧
      ∃ after, mixed.writeStream ⟨none, [8, 9]⟩ =
          .error failure ⟨none, [8, 9] ++ bytesOf [.segmentType .cmaf, .segmentIndex index]⟩ ∧
        mixed.writeBuffer buffer = .error failure after ∧
        after.bytes = [0, 0, 0] ++ bytesOf [.segmentType .cmaf, .segmentIndex index] := by
  intro index segment uniform mixed failure buffer
  have room : uniform.size ≤ buffer.remaining := by decide +kernel
  have roomForMixed : mixed.size ≤ buffer.remaining := by decide +kernel
  have hnone : firstFailure? uniform.prepared.writeSteps = none := by decide +kernel
  have hsome : firstFailure? mixed.prepared.writeSteps = some failure := by decide +kernel
  have hboxes : completeBoxes mixed.prepared.writeSteps =
      [.segmentType .cmaf, .segmentIndex index] := by decide +kernel
  have hpart : mixed.writeStream ⟨none, [8, 9]⟩ = .error failure
      ⟨none, [8, 9] ++ bytesOf [.segmentType .cmaf, .segmentIndex index]⟩ := by
    rw [mixed.writeStream_eq, hsome, hboxes]
    rfl
  refine ⟨room, roomForMixed, ?_, ?_⟩
  · obtain ⟨emitted, after, hbytes, hend⟩ := (writers_agree uniform [8, 9] room).1
    rcases hend with ⟨hstream, hbuffer, -, hlength⟩ | ⟨_, _, _, _, hstream, -⟩
    · exact ⟨emitted, after, hstream, hbuffer, hbytes, hlength⟩
    · rw [uniform.writeStream_eq, hnone] at hstream
      cases hstream
  · obtain ⟨emitted, after, hbytes, hend⟩ := (writers_agree mixed [8, 9] roomForMixed).1
    rcases hend with ⟨hstream, -⟩ | ⟨found, _, _, _, hstream, hbuffer, -⟩
    · rw [hpart] at hstream
      cases hstream
    · rw [hpart] at hstream
      injection hstream with hfailure hplace
      injection hplace with _ hemitted
      rw [← List.append_cancel_left hemitted] at hbytes
      rw [← hfailure] at hbuffer
      exact ⟨after, hpart, hbuffer, hbytes⟩

end Segment
end FragmentedMp4
