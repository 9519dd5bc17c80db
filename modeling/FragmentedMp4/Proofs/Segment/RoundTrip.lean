import FragmentedMp4.Proofs.Box.RoundTrip
import FragmentedMp4.Proofs.Fragment.RoundTrip
import FragmentedMp4.Proofs.Segment.WrittenBoxes
import FragmentedMp4.Segment.Decoding

/-!
# Segments are read back

The bytes of a segment whose runs are written as they are stored are read back as the
segment, up to the versions of index boxes and decode times, for which the reader gets
those that were written. Each of the boxes that stand at the top is read by one step, and
the steps of a part leave the segment read so far with that part added.
-/
namespace FragmentedMp4

open WriteStep

namespace SegmentPart

def asWritten (part : SegmentPart) : SegmentPart :=
  ⟨part.indexes.map SegmentIndex.asWritten,
    .ofBoxes part.fragment.moof.asWritten part.fragment.mdat⟩

end SegmentPart

namespace Segment

/-- The segment as a reader gets it that finds it at a position of its file. -/
def asWritten (segment : Segment) (startPosition : UInt64) : Segment :=
  ⟨segment.segmentType, segment.parts.map SegmentPart.asWritten, [], .stored, startPosition⟩

theorem decodeFrom_step {isStart : Bool} {segment next : Segment} {header : BoxHeader}
    {front rest : Bytes} (hne : front ≠ []) (hparse : BoxHeader.parse (front ++ rest) = .ok header)
    (hnext : decodeNext isStart segment header (front ++ rest) = .ok (next, front.length)) :
    decodeFrom isStart segment (front ++ rest) = decodeFrom false next rest := by
  have hfull : (front ++ rest).isEmpty = false := by simp [hne]
  rw [decodeFrom, hfull, if_neg Bool.false_ne_true]
  split
  · rename_i error herror
    rw [hparse] at herror
    cases herror
  · rename_i found hfound
    rw [hparse] at hfound
    cases hfound
    split
    · rename_i error herror
      rw [hnext] at herror
      cases herror
    · rename_i state used hstate
      rw [hnext] at hstate
      cases hstate
      rw [List.drop_left]

theorem decodeFrom_nil (isStart : Bool) (segment : Segment) :
    decodeFrom isStart segment [] = .ok segment := by
  rw [decodeFrom]
  exact if_pos rfl

theorem decodeFrom_segmentType {box : SegmentType} (h : Box.Writable box) (segment : Segment)
    (rest : Bytes) :
    decodeFrom true segment ((Box.emission box).bytes ++ rest) =
      decodeFrom false { segment with segmentType := some box } rest := by
  apply decodeFrom_step (Box.emission_ne_nil h) (Box.parse_emission h rest)
  have hname : (Box.writtenHeader box).name = .styp := rfl
  unfold decodeNext
  rw [if_pos hname, if_neg (by decide), Box.length_emission h]
  simp only [SegmentType.decode_emission h, bind, Except.bind]
  rfl

theorem decodeFrom_index {index : SegmentIndex} (h : Box.Writable index) (hfits : index.FitsWidths)
    (isStart : Bool) (segment : Segment) (rest : Bytes) :
    decodeFrom isStart segment ((Box.emission index).bytes ++ rest) =
      decodeFrom false (segment.addIndex index.asWritten) rest := by
  apply decodeFrom_step (Box.emission_ne_nil h) (Box.parse_emission h rest)
  have hname : (Box.writtenHeader index).name = .sidx := rfl
  have htype : (Box.writtenHeader index).name ≠ .styp := by
    rw [hname]
    decide
  unfold decodeNext
  rw [if_neg htype, if_pos hname, Box.length_emission h]
  simp only [SegmentIndex.decode_emission h hfits, bind, Except.bind]
  rfl

theorem decodeFrom_fragment {moof : MovieFragment} {mdat : MediaData} (hmoof : Box.Writable moof)
    (hmdat : Box.Writable mdat) (hcount : moof.Countable) (isStart : Bool) (segment : Segment)
    (rest : Bytes) :
    decodeFrom isStart segment
        ((Box.emission moof).bytes ++ ((Box.emission mdat).bytes ++ rest)) =
      decodeFrom false (segment.addFragment (.ofBoxes moof.asWritten mdat)) rest := by
  have hlength : ((Box.emission moof).bytes ++ (Box.emission mdat).bytes).length =
      Box.size moof + Box.size mdat := by
    rw [List.length_append, Box.length_emission hmoof, Box.length_emission hmdat]
  have hparse := Box.parse_emission hmoof ((Box.emission mdat).bytes ++ rest)
  have hdecode := Fragment.decode_boxes hmoof hmdat hcount rest
  rw [← List.append_assoc] at hparse hdecode ⊢
  apply decodeFrom_step (by simp [Box.emission_ne_nil hmoof]) hparse
  have hname : (Box.writtenHeader moof).name = .moof := rfl
  have htype : (Box.writtenHeader moof).name ≠ .styp := by
    rw [hname]
    decide
  have hindex : (Box.writtenHeader moof).name ≠ .sidx := by
    rw [hname]
    decide
  unfold decodeNext
  rw [if_neg htype, if_neg hindex, if_pos hname, hlength]
  simp only [hdecode, mapError_ok, bind, Except.bind]
  rfl

theorem decodeFrom_indexes {indexes : List SegmentIndex}
    (hwritable : ∀ index ∈ indexes, Box.Writable index)
    (hfits : ∀ index ∈ indexes, index.FitsWidths) (isStart : Bool) (segment : Segment)
    (rest : Bytes) :
    ∃ later, decodeFrom isStart segment
        (bytesOf (indexes.map AnyBox.segmentIndex) ++ rest) =
      decodeFrom later
        { segment with trailing := segment.trailing ++ indexes.map SegmentIndex.asWritten }
        rest := by
  induction indexes generalizing isStart segment with
  | nil =>
    refine ⟨isStart, ?_⟩
    rw [List.map_nil, List.map_nil, bytesOf_nil, List.append_nil, List.nil_append]
  | cons index indexes ih =>
    obtain ⟨later, hlater⟩ := ih (fun other hmem => hwritable other (by simp [hmem]))
      (fun other hmem => hfits other (by simp [hmem])) false (segment.addIndex index.asWritten)
    refine ⟨later, ?_⟩
    have hfirst := decodeFrom_index (hwritable index (by simp)) (hfits index (by simp)) isStart
      segment (bytesOf (indexes.map AnyBox.segmentIndex) ++ rest)
    rw [List.map_cons, bytesOf_cons, List.append_assoc]
    rw [addIndex, List.append_assoc, List.singleton_append] at hlater
    exact hfirst.trans hlater

/-- A part is read back behind the parts before it. -/
theorem decodeFrom_part {part : SegmentPart} (hwritable : ∀ box ∈ part.boxes, Box.Writable box)
    (hfits : ∀ index ∈ part.indexes, index.FitsWidths) (hcount : part.fragment.moof.Countable)
    (isStart : Bool) (segment : Segment) (htrailing : segment.trailing = []) (rest : Bytes) :
    decodeFrom isStart segment (bytesOf part.boxes ++ rest) =
      decodeFrom false { segment with parts := segment.parts ++ [part.asWritten] } rest := by
  obtain ⟨hindexes, hmoof, hmdat⟩ := SegmentPart.writable_of_boxes hwritable
  obtain ⟨later, hlater⟩ := decodeFrom_indexes hindexes hfits isStart segment
    ((Box.emission part.fragment.moof).bytes ++ ((Box.emission part.fragment.mdat).bytes ++ rest))
  rw [part.bytesOf_boxes, hlater, decodeFrom_fragment hmoof hmdat hcount, addFragment, htrailing]
  rfl

theorem decodeFrom_parts {parts : List SegmentPart}
    (hwritable : ∀ box ∈ parts.flatMap SegmentPart.boxes, Box.Writable box)
    (hfits : ∀ part ∈ parts, ∀ index ∈ part.indexes, index.FitsWidths)
    (hcount : ∀ part ∈ parts, part.fragment.moof.Countable) (isStart : Bool) (segment : Segment)
    (htrailing : segment.trailing = []) :
    decodeFrom isStart segment (bytesOf (parts.flatMap SegmentPart.boxes)) =
      .ok { segment with parts := segment.parts ++ parts.map SegmentPart.asWritten } := by
  induction parts generalizing isStart segment with
  | nil =>
    rw [List.flatMap_nil, bytesOf_nil, decodeFrom_nil, List.map_nil, List.append_nil]
  | cons part parts ih =>
    rw [List.flatMap_cons] at hwritable ⊢
    have hpart := decodeFrom_part (fun box hmem => hwritable box (List.mem_append_left _ hmem))
      (hfits part (by simp)) (hcount part (by simp)) isStart segment htrailing
      (bytesOf (parts.flatMap SegmentPart.boxes))
    have hparts := ih (fun box hmem => hwritable box (List.mem_append_right _ hmem))
      (fun other hmem => hfits other (by simp [hmem]))
      (fun other hmem => hcount other (by simp [hmem])) false
      { segment with parts := segment.parts ++ [part.asWritten] } htrailing
    rw [bytesOf_append, hpart, hparts, List.append_assoc, List.singleton_append, List.map_cons]

/-- A segment that could be written, with its runs as they are stored, is read back from
wherever it is put: with the same segment type, the same fragments, the same index boxes in
front of each, none behind the last one, and the versions that were written. -/
theorem decodeAt_of_written {segment : Segment} {stream : BoundedStream}
    (hlayout : segment.layout = .stored)
    (hfits : ∀ part ∈ segment.parts, ∀ index ∈ part.indexes, index.FitsWidths)
    (hcount : ∀ part ∈ segment.parts, part.fragment.moof.Countable)
    (hwritten : segment.writeStream (.empty none) = .ok () stream) (startPosition : UInt64) :
    decodeAt startPosition stream.bytes = .ok (segment.asWritten startPosition) := by
  have hstream := segment.writeStream_eq []
  have hend : segment.writeStream ⟨none, []⟩ = .ok () stream := hwritten
  cases hcase : firstFailure? segment.prepared.writeSteps with
  | some failure =>
    rw [hend, hcase] at hstream
    cases hstream
  | none =>
    obtain ⟨hcomplete, hwritable⟩ := complete_of_no_failure hcase
    rw [hend, hcase, hcomplete, boxesOf_writeSteps hlayout] at hstream
    rw [boxesOf_writeSteps hlayout] at hwritable
    cases hstream
    have hparts := decodeFrom_parts (fun box hmem => hwritable box (List.mem_append_right _ hmem))
      hfits hcount
    rw [List.nil_append, bytesOf_append]
    unfold decodeAt asWritten
    cases htype : segment.segmentType with
    | none => exact hparts true _ rfl
    | some box =>
      have h := hwritable (.segmentType box) (by simp [htype])
      have hbox : Box.Writable box := ⟨h.size_lt, h.complete⟩
      have hfront : bytesOf [AnyBox.segmentType box] = (Box.emission box).bytes :=
        List.append_nil _
      change decodeFrom true { ofType none with startPosition }
        (bytesOf [AnyBox.segmentType box] ++ bytesOf _) = _
      rw [hfront, decodeFrom_segmentType hbox]
      exact hparts false { ofType (some box) with startPosition } rfl

/-- An index box with a wide offset in front of a fragment with one sample. -/
theorem decodeAt_of_written_indexed :
    let index : SegmentIndex := ⟨0, 7, 90000, 0, 0x100000000, [⟨false, 110, 3000, true, 1, 0⟩]⟩
    let run : TrackRun := ⟨some 108, none, [⟨some 3000, some 2, none, some 0⟩]⟩
    let moof : MovieFragment := ⟨⟨1⟩, [⟨.ofTrack 7, [run], some ⟨0, 5⟩⟩]⟩
    let segment := (cmaf.addIndex index).addFragment (.ofBoxes moof ⟨[1, 2]⟩)
    segment.layout = .stored ∧
      (∀ part ∈ segment.parts, ∀ index ∈ part.indexes, index.FitsWidths) ∧
      (∀ part ∈ segment.parts, part.fragment.moof.Countable) ∧
      ∃ stream, segment.writeStream (.empty none) = .ok () stream ∧
        decodeAt 64 stream.bytes = .ok (segment.asWritten 64) := by
  intro index run moof segment
  have hindex : index.FitsWidths := by
    refine ⟨by decide, ?_⟩
    intro reference hmem
    rw [List.mem_singleton.1 hmem]
    exact ⟨by decide, by decide, by decide⟩
  have hfits : ∀ part ∈ segment.parts, ∀ index ∈ part.indexes, index.FitsWidths := by
    intro part hpart other hmem
    rw [List.mem_singleton.1 hpart] at hmem
    rwa [List.mem_singleton.1 hmem]
  have hcount : ∀ part ∈ segment.parts, part.fragment.moof.Countable := by
    unfold MovieFragment.Countable TrackRun.Countable
    decide
  have hlayout : segment.layout = .stored := rfl
  have hnone : firstFailure? segment.prepared.writeSteps = none := by decide +kernel
  have hwritten : segment.writeStream (.empty none) =
      .ok () ⟨none, bytesOf (completeBoxes segment.prepared.writeSteps)⟩ := by
    have hstream := segment.writeStream_eq []
    rw [hnone] at hstream
    exact hstream
  have hread := decodeAt_of_written hlayout hfits hcount hwritten 64
  exact ⟨hlayout, hfits, hcount, _, hwritten, hread⟩

end Segment
end FragmentedMp4
