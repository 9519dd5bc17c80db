import FragmentedMp4.Proofs.Fragment.Accepted
import FragmentedMp4.Proofs.Segment.RoundTrip

/-!
# Reading brings a segment into a normal form

Whatever bytes a segment is read from, it can be written again, and what it is then read from
gives the same segment and the same bytes. Only index boxes behind the last fragment get lost.
So boxes that are skipped, long headers, boxes that extend to the end and unknown flags are all
settled after one pass, and it takes no more bytes except where a box that extends to the end has
to be given a size of 64 bits.
-/
namespace FragmentedMp4

open WriteStep

namespace WriteStep

theorem length_bytesOf {boxes : List AnyBox} (h : ∀ box ∈ boxes, Box.Writable box) :
    (bytesOf boxes).length = (boxes.map (Box.size ·)).sum := by
  induction boxes with
  | nil => rfl
  | cons box boxes ih =>
    rw [bytesOf_cons, List.length_append, Box.length_emission (h box (by simp)),
      ih fun other hmem => h other (by simp [hmem]), List.map_cons, List.sum_cons]

end WriteStep

namespace SegmentPart

structure Steady (part : SegmentPart) : Prop where
  indexes : ∀ index ∈ part.indexes, index.Steady
  fragment : part.fragment.Steady

namespace Steady

variable {part : SegmentPart}

theorem asWritten_eq (h : part.Steady) : part.asWritten = part := by
  obtain ⟨indexes, moof, mdat, layout⟩ := part
  have hlayout : layout = .stored := h.fragment.layout
  have hmoof : moof.asWritten = moof := h.fragment.moof.asWritten_eq
  have hindexes : indexes.map SegmentIndex.asWritten = indexes := by
    rw [List.map_congr_left fun index hmem => (h.indexes index hmem).asWritten_eq, List.map_id']
  unfold asWritten
  rw [hindexes, hmoof, hlayout]
  rfl

theorem complete (h : part.Steady) : ∀ box ∈ part.boxes, (IsBox.contents box).error = none := by
  intro box hmem
  rcases List.mem_append.1 hmem with hmem | hmem
  · obtain ⟨index, -, rfl⟩ := List.mem_map.1 hmem
    rfl
  · rcases List.mem_cons.1 hmem with rfl | hmem
    · exact h.fragment.moof.complete
    · rw [List.mem_singleton.1 hmem]
      rfl

end Steady

end SegmentPart

namespace Segment

/-- What is known of a segment when some bytes of it have been read, with room for `count` bytes. -/
structure Accepted (startPosition : UInt64) (isStart : Bool) (segment : Segment) (count : Nat) :
    Prop where
  layout : segment.layout = .stored
  startPosition_eq : segment.startPosition = startPosition
  segmentType : isStart = true → segment.segmentType = none
  parts : ∀ part ∈ segment.parts, part.Steady
  trailing : ∀ index ∈ segment.trailing, index.Steady
  size_le : (segment.boxes.map (Box.size ·)).sum + (segment.trailing.map (Box.size ·)).sum ≤ count

namespace Accepted

variable {startPosition : UInt64} {isStart : Bool} {segment : Segment} {count used : Nat}

theorem mono (h : segment.Accepted startPosition isStart count) {more : Nat} (hle : count ≤ more) :
    segment.Accepted startPosition isStart more :=
  ⟨h.layout, h.startPosition_eq, h.segmentType, h.parts, h.trailing, h.size_le.trans hle⟩

theorem withType {box : SegmentType} (h : segment.Accepted startPosition true count)
    (hbox : Box.size box ≤ used) :
    Accepted startPosition false { segment with segmentType := some box } (count + used) := by
  have hsize := h.size_le
  have hboxes : segment.boxes = segment.parts.flatMap SegmentPart.boxes := by
    unfold boxes
    rw [h.segmentType rfl]
    rfl
  have hnext : (({ segment with segmentType := some box }.boxes).map (Box.size ·)).sum =
      Box.size box + (segment.boxes.map (Box.size ·)).sum := by
    rw [hboxes]
    rfl
  refine ⟨h.layout, h.startPosition_eq, by simp, h.parts, h.trailing, ?_⟩
  rw [hnext]
  change _ + (segment.trailing.map (Box.size ·)).sum ≤ _
  omega

theorem addIndex {index : SegmentIndex} (h : segment.Accepted startPosition isStart count)
    (hsteady : index.Steady) (hindex : Box.size index ≤ used) :
    (segment.addIndex index).Accepted startPosition false (count + used) := by
  have hsize := h.size_le
  refine ⟨h.layout, h.startPosition_eq, by simp, h.parts, ?_, ?_⟩
  · exact List.forall_mem_append.2 ⟨h.trailing, List.forall_mem_singleton.2 hsteady⟩
  · have hboxes : (segment.addIndex index).boxes = segment.boxes := rfl
    have htrailing : ((segment.addIndex index).trailing.map (Box.size ·)).sum =
        (segment.trailing.map (Box.size ·)).sum + Box.size index := by
      rw [Segment.addIndex, List.map_append, List.sum_append, List.map_singleton,
        List.sum_singleton]
    rw [hboxes, htrailing]
    omega

theorem addFragment {fragment : Fragment} (h : segment.Accepted startPosition isStart count)
    (hsteady : fragment.Steady)
    (hfragment : Box.size fragment.moof + Box.size fragment.mdat ≤ used) :
    (segment.addFragment fragment).Accepted startPosition false (count + used) := by
  have hsize := h.size_le
  refine ⟨h.layout, h.startPosition_eq, by simp, ?_, ?_, ?_⟩
  · exact List.forall_mem_append.2 ⟨h.parts, List.forall_mem_singleton.2 ⟨h.trailing, hsteady⟩⟩
  · intro index hmem
    cases hmem
  · have hboxes : (segment.addFragment fragment).boxes = segment.boxes ++
        (segment.trailing.map AnyBox.segmentIndex ++ fragment.boxes) := by
      simp [boxes, Segment.addFragment, SegmentPart.boxes]
    have hindexes : (segment.trailing.map AnyBox.segmentIndex).map (Box.size ·) =
        segment.trailing.map (Box.size ·) := List.map_map
    have hlast : (fragment.boxes.map (Box.size ·)).sum =
        Box.size fragment.moof + Box.size fragment.mdat := rfl
    have hnone : ((segment.addFragment fragment).trailing.map (Box.size ·)).sum = 0 := rfl
    rw [hboxes, List.map_append, List.sum_append, List.map_append, List.sum_append, hindexes, hlast,
      hnone]
    omega

theorem skip (h : segment.Accepted startPosition isStart count) :
    segment.Accepted startPosition false count :=
  ⟨h.layout, h.startPosition_eq, by simp, h.parts, h.trailing, h.size_le⟩

/-- The room of the bytes that are left is not taken by one more box, or by the two boxes of a
fragment. -/
theorem decodeNext {next : Segment} {header : BoxHeader} {data : Bytes}
    (hparse : BoxHeader.parse data = .ok header)
    (hnext : Segment.decodeNext isStart segment header data = .ok (next, used))
    (h : segment.Accepted startPosition isStart count) :
    ∃ taken, taken + Box.room [.moof, .traf] (data.drop used) ≤ Box.room [.moof, .traf] data ∧
      next.Accepted startPosition false (count + taken) := by
  unfold Segment.decodeNext at hnext
  split_ifs at hnext with htype hlate hindex hmoof hmdat
  · obtain ⟨⟨box, size⟩, hdecode, hnext⟩ := bind_eq_ok.1 hnext
    cases hnext
    obtain ⟨rfl, hcontents⟩ := Box.decodeContents_of_decodeAs hparse hdecode
    have hstart : isStart = true := by simpa using hlate
    subst hstart
    exact ⟨_, (SegmentType.accepted hcontents).add_room_le hparse _, h.withType le_rfl⟩
  · obtain ⟨⟨index, size⟩, hdecode, hnext⟩ := bind_eq_ok.1 hnext
    cases hnext
    obtain ⟨rfl, hcontents⟩ := Box.decodeContents_of_decodeAs hparse hdecode
    obtain ⟨haccepted, hsteady⟩ := SegmentIndex.accepted hcontents
    exact ⟨_, haccepted.add_room_le hparse _, h.addIndex hsteady le_rfl⟩
  · obtain ⟨⟨fragment, size⟩, hdecode, hnext⟩ := bind_eq_ok.1 hnext
    cases hnext
    obtain ⟨hsteady, hroom⟩ := Fragment.accepted_of_decode (mapError_eq_ok.1 hdecode)
    exact ⟨_, hroom, h.addFragment hsteady le_rfl⟩
  · cases hnext
    refine ⟨0, ?_, h.skip⟩
    rw [Nat.zero_add, Box.room_cut hparse]
    exact Nat.le_add_left _ _

end Accepted

theorem decodeFrom_keeps {holds : Bool → Segment → Bytes → Prop}
    (hstep : ∀ {isStart segment header data next used},
      BoxHeader.parse data = .ok header →
      decodeNext isStart segment header data = .ok (next, used) →
      holds isStart segment data → holds false next (data.drop used))
    {isStart : Bool} {segment final : Segment} {data : Bytes}
    (h : decodeFrom isStart segment data = .ok final) (hstart : holds isStart segment data) :
    ∃ isStart, holds isStart final [] := by
  fun_induction decodeFrom isStart segment data with
  | case1 isStart segment data hempty =>
    cases h
    rw [List.isEmpty_iff.1 hempty] at hstart
    exact ⟨isStart, hstart⟩
  | case2 isStart segment data hne error hparse => cases h
  | case3 isStart segment data hne header hparse error hfailed => cases h
  | case4 isStart segment data hne header hparse next used hnext ih =>
    exact ih h (hstep hparse hnext hstart)

theorem accepted_of_decodeAt {startPosition : UInt64} {data : Bytes} {segment : Segment}
    (h : decodeAt startPosition data = .ok segment) :
    ∃ isStart, segment.Accepted startPosition isStart (Box.room [.moof, .traf] data) := by
  let holds (isStart : Bool) (segment : Segment) (rest : Bytes) : Prop :=
    ∃ count, count + Box.room [.moof, .traf] rest ≤ Box.room [.moof, .traf] data ∧
      segment.Accepted startPosition isStart count
  have hstart : holds true { ofType none with startPosition } data := by
    refine ⟨0, (Nat.zero_add _).le, rfl, rfl, fun _ => rfl, ?_, ?_, le_rfl⟩
    · intro part hmem
      cases hmem
    · intro index hmem
      cases hmem
  have hstep {isStart : Bool} {segment : Segment} {header : BoxHeader} {rest : Bytes}
      {next : Segment} {used : Nat} (hparse : BoxHeader.parse rest = .ok header)
      (hnext : decodeNext isStart segment header rest = .ok (next, used))
      (hbefore : holds isStart segment rest) : holds false next (rest.drop used) := by
    obtain ⟨count, hle, haccepted⟩ := hbefore
    obtain ⟨taken, htaken, hafter⟩ := haccepted.decodeNext hparse hnext
    exact ⟨count + taken, by omega, hafter⟩
  obtain ⟨isStart, count, hle, haccepted⟩ :=
    @decodeFrom_keeps holds hstep true _ segment data h hstart
  exact ⟨isStart, haccepted.mono (Nat.le_of_add_right_le hle)⟩

/-- The boxes of a segment are read as the segment, wherever they are found. -/
theorem decodeAt_boxes {segment : Segment}
    (hwritable : ∀ box ∈ segment.boxes, Box.Writable box)
    (hfits : ∀ part ∈ segment.parts, ∀ index ∈ part.indexes, index.FitsWidths)
    (hcount : ∀ part ∈ segment.parts, part.fragment.moof.Countable) (startPosition : UInt64) :
    decodeAt startPosition (bytesOf segment.boxes) = .ok (segment.asWritten startPosition) := by
  have hparts := decodeFrom_parts (fun box hmem => hwritable box (List.mem_append_right _ hmem))
    hfits hcount
  unfold decodeAt asWritten boxes
  rw [bytesOf_append]
  cases htype : segment.segmentType with
  | none => exact hparts true _ rfl
  | some box =>
    have h := hwritable (.segmentType box) (List.mem_append_left _ (by simp [htype]))
    have hbox : Box.Writable box := ⟨h.size_lt, h.complete⟩
    have hfront : bytesOf [AnyBox.segmentType box] = (Box.emission box).bytes :=
      List.append_nil _
    change decodeFrom true { ofType none with startPosition }
      (bytesOf [AnyBox.segmentType box] ++ bytesOf _) = _
    rw [hfront, decodeFrom_segmentType hbox]
    exact hparts false { ofType (some box) with startPosition } rfl

namespace Accepted

variable {startPosition : UInt64} {isStart : Bool} {segment : Segment} {count : Nat}

theorem writable (h : segment.Accepted startPosition isStart count) (hcount : count < 2 ^ 64) :
    ∀ box ∈ segment.boxes, Box.Writable box := by
  intro box hmem
  have hbox : Box.size box ≤ (segment.boxes.map (Box.size ·)).sum :=
    List.le_sum_of_mem (List.mem_map_of_mem hmem)
  have hsize := h.size_le
  have hlimit : UInt64.size = 2 ^ 64 := rfl
  refine ⟨by omega, ?_⟩
  rcases List.mem_append.1 hmem with hmem | hmem
  · obtain ⟨segmentType, -, rfl⟩ := List.mem_map.1 hmem
    rfl
  · obtain ⟨part, hpart, hmem⟩ := List.mem_flatMap.1 hmem
    exact (h.parts part hpart).complete box hmem

theorem writeStream_eq (h : segment.Accepted startPosition isStart count)
    (hcount : count < 2 ^ 64) :
    segment.writeStream (.empty none) = .ok () ⟨none, bytesOf segment.boxes⟩ := by
  obtain ⟨hnone, hboxes⟩ := firstFailure?_of_written (written_of_stored h.layout)
    (h.writable hcount)
  have hstream := segment.writeStream_eq []
  rw [hnone, (complete_of_no_failure hnone).1, hboxes] at hstream
  exact hstream

/-- What is written of a segment that was read is read as the segment, without the index boxes
behind its last fragment. -/
theorem decodeAt_bytesOf (h : segment.Accepted startPosition isStart count)
    (hcount : count < 2 ^ 64) :
    decodeAt startPosition (bytesOf segment.boxes) = .ok { segment with trailing := [] } := by
  have hsame : segment.parts.map SegmentPart.asWritten = segment.parts := by
    rw [List.map_congr_left fun part hmem => (h.parts part hmem).asWritten_eq, List.map_id']
  have hread := decodeAt_boxes (h.writable hcount)
    (fun part hpart index hmem => ((h.parts part hpart).indexes index hmem).fitsWidths)
    (fun part hpart => (h.parts part hpart).fragment.moof.countable) startPosition
  refine hread.trans ?_
  rw [asWritten, hsame, ← h.layout, ← h.startPosition_eq]

theorem length_bytesOf (h : segment.Accepted startPosition isStart count)
    (hcount : count < 2 ^ 64) : (bytesOf segment.boxes).length ≤ count := by
  rw [WriteStep.length_bytesOf (h.writable hcount)]
  exact Nat.le_of_add_right_le h.size_le

end Accepted

/-- A segment that was read can be written again as it is stored. What is read from that is the
segment without the index boxes behind its last fragment, and it is written with the same bytes
again. They are no more than the bytes that the segment was read from, except for eight bytes for
each box that extended to the end and is too large for a 32-bit size. The bytes of a file are
counted in 63 bits. -/
theorem decodeAt_settles {startPosition : UInt64} {data : Bytes} {segment : Segment}
    (hlength : data.length < 2 ^ 63) (h : decodeAt startPosition data = .ok segment) :
    segment.layout = .stored ∧
      ∃ stream, segment.writeStream (.empty none) = .ok () stream ∧
        stream.bytes.length ≤ data.length + 8 * Box.openLarge [.moof, .traf] data ∧
        (data.length ≤ Box.maxShortSize → stream.bytes.length ≤ data.length) ∧
        decodeAt startPosition stream.bytes = .ok { segment with trailing := [] } ∧
        { segment with trailing := [] }.writeStream (.empty none) = .ok () stream := by
  obtain ⟨isStart, haccepted⟩ := accepted_of_decodeAt h
  have hroom : Box.room [.moof, .traf] data < 2 ^ 64 := (Box.room_le data).trans_lt (by omega)
  have hle := haccepted.length_bytesOf hroom
  have hwritten := haccepted.writeStream_eq hroom
  have hread := haccepted.decodeAt_bytesOf hroom
  refine ⟨haccepted.layout, _, hwritten, hle, fun hshort => ?_, hread, hwritten⟩
  rwa [Box.room, Box.openLarge_of_short _ hshort] at hle

/-- A segment type box and media data with long headers, a box that is skipped, a second header
in the movie fragment, a flag without a meaning, a run that extends to the end of its track and
an index box that extends to the end of the file. -/
theorem decodeAt_settles_with_skipped :
    let data : Bytes :=
      [0, 0, 0, 1, 115, 116, 121, 112, 0, 0, 0, 0, 0, 0, 0, 28, 109, 115, 100, 104, 0, 0, 0, 0,
        109, 115, 105, 120, 0, 0, 0, 8, 102, 114, 101, 101, 0, 0, 0, 112, 109, 111, 111, 102, 0, 0,
        0, 16, 109, 102, 104, 100, 0, 0, 0, 0, 0, 0, 0, 1, 0, 0, 0, 16, 109, 102, 104, 100, 0, 0,
        0, 0, 0, 0, 0, 1, 0, 0, 0, 72, 116, 114, 97, 102, 0, 0, 0, 24, 116, 102, 104, 100, 0, 66, 0,
        40, 0, 0, 0, 7, 0, 0, 0, 10, 0, 0, 0, 0, 0, 0, 0, 16, 116, 102, 100, 116, 0, 0, 0, 0, 0, 0,
        0, 5, 0, 0, 0, 0, 116, 114, 117, 110, 0, 0, 2, 1, 0, 0, 0, 1, 0, 0, 0, 128, 0, 0, 0, 2, 0,
        0, 0, 1, 109, 100, 97, 116, 0, 0, 0, 0, 0, 0, 0, 18, 1, 2, 0, 0, 0, 0, 115, 105, 100, 120,
        0, 0, 0, 0, 0, 0, 0, 7, 0, 1, 95, 144, 0, 0, 0, 0, 0, 0, 0, 0, 0, 0, 0, 0]
    data.length < 2 ^ 63 ∧
      ∃ segment, decodeAt 64 data = .ok segment ∧ segment.trailing.length = 1 ∧
        segment.layout = .stored ∧
        ∃ stream, segment.writeStream (.empty none) = .ok () stream ∧
          stream.bytes.length ≤ data.length + 8 * Box.openLarge [.moof, .traf] data ∧
          (data.length ≤ Box.maxShortSize → stream.bytes.length ≤ data.length) ∧
          decodeAt 64 stream.bytes = .ok { segment with trailing := [] } ∧
          { segment with trailing := [] }.writeStream (.empty none) = .ok () stream := by
  intro data
  let header : TrackFragmentHeader :=
    { TrackFragmentHeader.ofTrack 7 with duration := some 10, flags := some 0 }
  let run : TrackRun := ⟨some 104, none, [⟨none, some 2, none, none⟩]⟩
  let moof : MovieFragment := ⟨⟨1⟩, [⟨header, [run], some ⟨0, 5⟩⟩]⟩
  let segment : Segment :=
    ⟨some ⟨.msdh, 0, [.msix]⟩, [⟨[], .ofBoxes moof ⟨[1, 2]⟩⟩],
      [⟨0, 7, 90000, 0, 0, []⟩], .stored, 64⟩
  have hlength : data.length < 2 ^ 63 := by decide +kernel
  have h : decodeAt 64 data = .ok segment := by decide +kernel
  exact ⟨hlength, segment, h, rfl, decodeAt_settles hlength h⟩

end Segment

/-! ### A box that grows -/

/-- The header of a box that extends to the end. -/
def BoxHeader.toEnd (name : FourCC) : Bytes :=
  bigEndian 4 0 ++ name.bytes

theorem BoxHeader.parse_toEnd (name : FourCC) (rest : Bytes) :
    parse (toEnd name ++ rest) = .ok ⟨name, (toEnd name ++ rest).length, Box.headerSize⟩ := by
  have hname : FourCC.ofBytes? ((toEnd name ++ rest).drop 4) = some name := by
    unfold toEnd
    rw [List.append_assoc, List.drop_left' (length_bigEndian 4 0), FourCC.ofBytes?_bytes_append]
  have hfield : bigEndianValue ((toEnd name ++ rest).take 4) = 0 := by
    unfold toEnd
    rw [List.append_assoc, List.take_left' (length_bigEndian 4 0)]
    rfl
  have hextent : extent name (toEnd name ++ rest) =
      .ok ((toEnd name ++ rest).length, Box.headerSize) := by
    unfold extent
    rw [hfield]
    rfl
  have hfits : Box.headerSize ≤ (toEnd name ++ rest).length := by
    rw [List.length_append]
    exact Nat.le_add_right 8 _
  unfold parse
  rw [hname]
  simp only [hextent, bind, Except.bind]
  rw [if_neg (by omega), if_neg (by omega)]

theorem MovieFragment.shifted_of_no_tracks {moof : MovieFragment} (h : moof.tracks = [])
    (delta : Int) : moof.shifted delta = .ok moof := by
  obtain ⟨header, tracks⟩ := moof
  cases h
  unfold shifted shift
  split_ifs <;> rfl

theorem Fragment.decode_toEnd {moof : MovieFragment} (hmoof : Box.Writable moof)
    (htracks : moof.tracks = []) (payload : Bytes) :
    let data := (Box.emission moof).bytes ++ (BoxHeader.toEnd .mdat ++ payload)
    decode data = .ok (ofBoxes moof ⟨payload⟩, data.length) := by
  intro data
  have hwritten : moof.asWritten = moof := by
    obtain ⟨header, tracks⟩ := moof
    cases htracks
    rfl
  have hcount : moof.Countable := by
    intro track hmem
    rw [htracks] at hmem
    cases hmem
  have hdrop : data.drop (Box.size moof) = BoxHeader.toEnd .mdat ++ payload :=
    Box.drop_emission hmoof _
  have hparse := BoxHeader.parse_toEnd .mdat payload
  have hmdat : MediaData.decode (BoxHeader.toEnd .mdat ++ payload) =
      .ok (⟨payload⟩, (BoxHeader.toEnd .mdat ++ payload).length) := by
    unfold MediaData.decode Box.decodeAs
    simp only [hparse, bind, Except.bind, BoxHeader.contents, List.take_length]
    rfl
  have hheader : mediaDataHeader (BoxHeader.toEnd .mdat ++ payload) =
      .ok ⟨.mdat, (BoxHeader.toEnd .mdat ++ payload).length, Box.headerSize⟩ := by
    unfold mediaDataHeader
    rw [hparse]
    exact if_pos rfl
  have hlength : data.length = Box.size moof + (BoxHeader.toEnd .mdat ++ payload).length := by
    rw [List.length_append, Box.length_emission hmoof]
  have hmoof : MovieFragment.decode data = .ok (moof, Box.size moof) := by
    have hread := MovieFragment.decode_emission hmoof hcount (BoxHeader.toEnd .mdat ++ payload)
    rwa [hwritten] at hread
  unfold decode
  simp only [hmoof, bind, Except.bind, hdrop, hheader, hmdat, ofBoxes,
    MovieFragment.shifted_of_no_tracks htracks, hlength]
  rfl

namespace Segment

/-- Media data that extends to the end grows if it is too large for a 32-bit size. -/
theorem length_of_mediaData_toEnd {moof : MovieFragment} {payload : Bytes}
    (hmoof : Box.Writable moof) (htracks : moof.tracks = [])
    (hlarge : Box.maxShortSize < Box.headerSize + payload.length) :
    let data := (Box.emission moof).bytes ++ (BoxHeader.toEnd .mdat ++ payload)
    data.length < 2 ^ 63 →
      ∃ segment stream, decode data = .ok segment ∧ segment.layout = .stored ∧
        segment.writeStream (.empty none) = .ok () stream ∧
        stream.bytes.length = data.length + 8 := by
  intro data hlength
  let segment := (ofType none).addFragment (.ofBoxes moof ⟨payload⟩)
  have hdecode : decode data = .ok segment := by
    have hnext : decodeNext true { ofType none with startPosition := 0 } (Box.writtenHeader moof)
        (data ++ []) = .ok (segment, data.length) := by
      have hname : (Box.writtenHeader moof).name = .moof := rfl
      rw [List.append_nil]
      unfold decodeNext
      simp only [hname, Fragment.decode_toEnd hmoof htracks payload, data, mapError_ok, bind,
        Except.bind]
      rfl
    have hne : data ≠ [] := by simp [data, Box.emission_ne_nil hmoof]
    have hparse : BoxHeader.parse (data ++ []) = .ok (Box.writtenHeader moof) := by
      rw [List.append_nil]
      exact Box.parse_emission hmoof _
    rw [← List.append_nil data, decode, decodeAt, decodeFrom_step hne hparse hnext, decodeFrom_nil]
  obtain ⟨isStart, haccepted⟩ := accepted_of_decodeAt hdecode
  have hroom : Box.room [.moof, .traf] data < 2 ^ 64 := (Box.room_le data).trans_lt (by omega)
  refine ⟨segment, _, hdecode, rfl, haccepted.writeStream_eq hroom, ?_⟩
  have hmdat : Box.size (⟨payload⟩ : MediaData) = Box.largeHeaderSize + payload.length := by
    change Box.sizeOfBody (0 + payload.length) = _
    rw [Nat.zero_add]
    exact if_neg (by omega)
  have hheader : Box.largeHeaderSize = Box.headerSize + 8 := rfl
  have hsize : (segment.boxes.map (Box.size ·)).sum =
      Box.size moof + Box.size (⟨payload⟩ : MediaData) := rfl
  have hfront : (BoxHeader.toEnd .mdat).length = Box.headerSize := rfl
  simp only [length_bytesOf (haccepted.writable hroom), hsize, hmdat, data, List.length_append,
    Box.length_emission hmoof, hfront, hheader]
  omega

/-- Media data of four gibibytes with a header of eight bytes is written with one of sixteen. -/
theorem decodeAt_settles_longer :
    let data : Bytes :=
      [0, 0, 0, 24, 109, 111, 111, 102, 0, 0, 0, 16, 109, 102, 104, 100, 0, 0, 0, 0, 0, 0, 0, 1] ++
        ([0, 0, 0, 0, 109, 100, 97, 116] ++ List.replicate (2 ^ 32 - 8) 0)
    ∃ segment stream, decode data = .ok segment ∧ segment.layout = .stored ∧
      segment.writeStream (.empty none) = .ok () stream ∧
      stream.bytes.length = data.length + 8 := by
  have hmoof : Box.Writable (⟨⟨1⟩, []⟩ : MovieFragment) := ⟨by decide, rfl⟩
  have hlarge : Box.maxShortSize <
      Box.headerSize + (List.replicate (2 ^ 32 - 8) (0 : UInt8)).length := by
    rw [List.length_replicate, Box.maxShortSize, Box.headerSize]
    omega
  have hlength : (BoxHeader.toEnd .mdat).length = 8 := rfl
  have hsize : Box.size (⟨⟨1⟩, []⟩ : MovieFragment) = 24 := rfl
  apply length_of_mediaData_toEnd hmoof rfl hlarge
  simp only [List.length_append, List.length_replicate, Box.length_emission hmoof, hlength, hsize]
  omega

end Segment
end FragmentedMp4
