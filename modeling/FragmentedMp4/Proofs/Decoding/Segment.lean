import FragmentedMp4.Proofs.Decoding.Fragment
import FragmentedMp4.Proofs.Decoding.Samples
import FragmentedMp4.Proofs.Segment.TopLevel

/-!
# Reading segments by index

A segment is read by a loop over its boxes, which goes over the two boxes of a fragment at once.
Whatever the bytes are, it comes to a segment or to an error, and it never leaves the bytes. A
segment that was read fills them with its boxes.
-/
namespace FragmentedMp4

open IndexedReader

namespace Segment

/-- A box, or the two boxes of a fragment, stand between two places. -/
def Spans (data : Bytes) (start stop : Nat) : Prop :=
  Box.Spans data start stop ∨
    ∃ middle, Box.Spans data start middle ∧ Box.Spans data middle stop

theorem Spans.of_drop {data : Bytes} {position start stop : Nat}
    (h : Spans (data.drop position) start stop) :
    Spans data (position + start) (position + stop) := by
  rcases h with h | ⟨middle, hmoof, hmdat⟩
  · exact .inl h.of_drop
  · exact .inr ⟨position + middle, hmoof.of_drop, hmdat.of_drop⟩

theorem Spans.bounds {data : Bytes} {start stop : Nat} (h : Spans data start stop)
    (hstart : start ≤ data.length) : start + 8 ≤ stop ∧ stop ≤ data.length := by
  rcases h with h | ⟨middle, hmoof, hmdat⟩
  · exact h.bounds hstart
  · obtain ⟨hmin, hle⟩ := hmoof.bounds hstart
    obtain ⟨hmin', hle'⟩ := hmdat.bounds hle
    exact ⟨by omega, hle'⟩

end Segment

theorem Fragment.spans_of_decodeInWords {data : Bytes} {fragment : Fragment} {used : Nat}
    (h : decodeInWords data = .ok (fragment, used)) : Segment.Spans data 0 used := by
  obtain ⟨⟨moof, moofSize⟩, hmoof, h⟩ := bind_eq_ok.1 h
  obtain ⟨rest, hrest, h⟩ := bind_eq_ok.1 h
  obtain ⟨header, -, h⟩ := bind_eq_ok.1 h
  obtain ⟨⟨mdat, mdatSize⟩, hmdat, h⟩ := bind_eq_ok.1 h
  obtain ⟨delta, -, h⟩ := bind_eq_ok.1 h
  obtain ⟨moved, -, h⟩ := bind_eq_ok.1 h
  obtain ⟨sum, hsum, h⟩ := bind_eq_ok.1 h
  cases h
  have hfront := Box.spans_of_decodeAsInWords hmoof
  obtain ⟨-, rfl⟩ := Words.eq_of_slice_back hrest
  refine .inr ⟨moofSize, hfront, ?_⟩
  rw [Words.eq_of_add hsum]
  exact (Box.spans_of_decodeAsInWords hmdat).of_drop

namespace Segment

def decodeNextInWords (isStart : Bool) (segment : Segment) (header : BoxHeader) (data : Bytes) :
    Except Failure (Segment × Nat) :=
  if header.name = .styp then
    if !isStart then .error (.error (.unexpectedBox header.name .lateSegmentType))
    else do
      let (segmentType, _) ← Box.decodeByIndex .styp SegmentType.readInWords data
      return ({ segment with segmentType := some segmentType }, header.size)
  else if header.name = .sidx then do
    let (index, _) ← Box.decodeByIndex .sidx SegmentIndex.readInWords data
    return (segment.addIndex index, header.size)
  else if header.name = .moof then
    match Fragment.decodeInWords data with
    | .ok (fragment, used) => .ok (segment.addFragment fragment, used)
    | .error failure => do
      let number ← Words.add segment.parts.length 1
      .error (failure.mapError (.inFragment number))
  else if header.name = .mdat then
    .error (.error (.unexpectedBox header.name .mediaDataFirst))
  else .ok (segment, header.size)

def iterate (data : Bytes) (segment : Segment) (position : Nat) :
    Except Failure (Segment × Nat) := do
  let rest ← Words.slice data position data.length
  let header ← BoxHeader.parseInWords rest
  let (next, used) ← decodeNextInWords (position = 0) segment header rest
  let after ← Words.add position used
  return (next, after)

variable {data : Bytes} {segment next : Segment} {header : BoxHeader} {isStart : Bool}
  {position after used : Nat}

theorem spans_of_decodeNextInWords (hparse : BoxHeader.parse data = .ok header)
    (h : decodeNextInWords isStart segment header data = .ok (next, used)) : Spans data 0 used := by
  have hbox : Spans data 0 header.size := .inl ⟨header, hparse, (Nat.zero_add _).symm⟩
  unfold decodeNextInWords at h
  split_ifs at h
  · obtain ⟨pair, -, h⟩ := bind_eq_ok.1 h
    cases h
    exact hbox
  · obtain ⟨pair, -, h⟩ := bind_eq_ok.1 h
    cases h
    exact hbox
  · split at h
    · rename_i fragment size hdecode
      cases h
      exact Fragment.spans_of_decodeInWords hdecode
    · obtain ⟨number, -, h⟩ := bind_eq_ok.1 h
      cases h
  · cases h
    exact hbox

theorem iterate_eq_ok (h : iterate data segment position = .ok (next, after)) :
    position ≤ data.length ∧ Spans data position after := by
  obtain ⟨rest, hrest, h⟩ := bind_eq_ok.1 h
  obtain ⟨header, hheader, h⟩ := bind_eq_ok.1 h
  obtain ⟨⟨_, used⟩, hnext, h⟩ := bind_eq_ok.1 h
  obtain ⟨sum, hsum, h⟩ := bind_eq_ok.1 h
  cases h
  obtain ⟨hposition, rfl⟩ := Words.eq_of_slice_back hrest
  rw [BoxHeader.parseInWords_eq] at hheader
  rw [Words.eq_of_add hsum]
  exact ⟨hposition, (spans_of_decodeNextInWords (mapError_eq_ok.1 hheader) hnext).of_drop⟩

def loop (data : Bytes) : CursorLoop Segment where
  stop := data.length
  body := iterate data
  advances h := (iterate_eq_ok h).2.bounds (iterate_eq_ok h).1

def decodeInWords (startPosition : UInt64) (data : Bytes) : Except Failure Segment :=
  (loop data).run { ofType none with startPosition } 0

theorem loop_tiles (data : Bytes) : (loop data).Tiles data (Spans data) :=
  CursorLoop.tiles_of_body rfl fun h => (iterate_eq_ok h).2

/-- There are no more fragments than bytes that have been read. -/
theorem parts_decodeNext (hparse : BoxHeader.parse data = .ok header)
    (h : decodeNext isStart segment header data = .ok (next, used)) :
    next.parts.length ≤ segment.parts.length + used := by
  have hused := decodeNext_used hparse h
  have hlength (segment : Segment) : segment.fragments.length = segment.parts.length :=
    List.length_map _
  rw [← hlength, ← hlength]
  rcases fragments_decodeNext h with hsame | ⟨fragment, -, hmore⟩
  · rw [hsame]
    omega
  · rw [hmore, List.length_append, List.length_singleton]
    omega

theorem agrees_decodeNext (hlength : data.length < 2 ^ 63)
    (hparts : segment.parts.length < 2 ^ 63) :
    Agrees (data.length < 2 ^ 63 - 2 ^ 38) (decodeNextInWords isStart segment header data)
      (decodeNext isStart segment header data) := by
  have hlimit : UInt64.size = 2 ^ 64 := rfl
  unfold decodeNextInWords decodeNext
  split_ifs
  · exact .inl rfl
  · exact Agrees.bind (.inl (Box.decodeByIndex_eq SegmentType.follows _ hlength))
      fun pair _ => .inl rfl
  · exact Agrees.bind (.inl (Box.decodeByIndex_eq SegmentIndex.follows _ hlength))
      fun pair _ => .inl rfl
  · have hnumber : Words.add segment.parts.length 1 = .ok (segment.parts.length + 1) :=
      Words.add_of_lt (by omega)
    rcases Fragment.agrees_decode hlength with hsame | ⟨hoverflow, hlarge⟩
    · refine .inl ?_
      rw [hsame]
      cases Fragment.decode data with
      | error error =>
        simp only [orFailure, mapError_error, hnumber, bind, Except.bind]
        rfl
      | ok pair => rfl
    · refine .inr ⟨?_, hlarge⟩
      simp only [hoverflow, hnumber, bind, Except.bind]
      rfl
  · exact .inl rfl
  · exact .inl rfl

theorem agrees_iterate (hlength : data.length < 2 ^ 63) (hposition : position ≤ data.length)
    (hparts : segment.parts.length ≤ position) :
    Agrees (data.length < 2 ^ 63 - 2 ^ 38) (iterate data segment position) (do
      let header ← BoxHeader.parse (data.drop position)
      let (next, used) ← decodeNext (position = 0) segment header (data.drop position)
      return (next, position + used)) := by
  have hlimit : UInt64.size = 2 ^ 64 := rfl
  have hrest : (data.drop position).length = data.length - position := List.length_drop
  unfold iterate
  simp only [Words.slice_back hposition]
  refine Agrees.bind (.inl (BoxHeader.parseInWords_eq _)) fun header hparse => ?_
  have hnext : Agrees ((data.drop position).length < 2 ^ 63 - 2 ^ 38)
      (decodeNextInWords (position = 0) segment header (data.drop position))
      (decodeNext (position = 0) segment header (data.drop position)) :=
    agrees_decodeNext (by omega) (by omega)
  refine (hnext.mono fun hsmall => by omega).bind fun ⟨next, used⟩ hdecode => ?_
  have hused := decodeNext_used hparse hdecode
  rw [Words.add_of_lt (by omega)]
  exact .inl rfl

theorem decodeFrom_of_lt (segment : Segment) (h : position < data.length) :
    decodeFrom isStart segment (data.drop position) = (do
      let header ← BoxHeader.parse (data.drop position)
      let (next, used) ← decodeNext isStart segment header (data.drop position)
      return (next, position + used)) >>= fun step =>
        decodeFrom false step.1 (data.drop step.2) := by
  cases hparse : BoxHeader.parse (data.drop position) with
  | error error =>
    have hsome : data.drop position ≠ [] :=
      List.ne_nil_of_length_pos (by rw [List.length_drop]; omega)
    rw [decodeFrom_of_error hsome hparse]
    rfl
  | ok header =>
    rw [decodeFrom_of_parse hparse]
    simp only [bind, Except.bind, List.drop_drop]
    cases decodeNext isStart segment header (data.drop position) <;> rfl

/-- The loop reads what is read box by box, unless the bytes are too many. -/
theorem agrees_run (hlength : data.length < 2 ^ 63) (hposition : position ≤ data.length)
    (hparts : segment.parts.length ≤ position) :
    Agrees (data.length < 2 ^ 63 - 2 ^ 38) ((loop data).run segment position)
      (decodeFrom (position = 0) segment (data.drop position)) := by
  induction hleft : data.length - position using Nat.strong_induction_on
    generalizing segment position with
  | _ left ih =>
    by_cases hlt : position < data.length
    · rw [CursorLoop.run_of_lt hlt, decodeFrom_of_lt segment hlt]
      refine (agrees_iterate hlength hposition hparts).bind fun ⟨next, after⟩ hstep => ?_
      obtain ⟨header, hparse, hstep⟩ := bind_eq_ok.1 hstep
      obtain ⟨⟨_, used⟩, hnext, hstep⟩ := bind_eq_ok.1 hstep
      cases hstep
      have hused := decodeNext_used hparse hnext
      rw [List.length_drop] at hused
      have hmore := parts_decodeNext hparse hnext
      have hrest := ih (data.length - (position + used)) (by omega)
        (by omega : position + used ≤ data.length) (by omega : next.parts.length ≤ position + used)
        rfl
      rwa [decide_eq_false (by omega)] at hrest
    · have hnil : data.drop position = [] := List.drop_of_length_le (not_lt.1 hlt)
      rw [CursorLoop.run_of_not_lt hlt, hnil, decodeFrom_nil]
      exact .inl rfl

/-- Reading a segment, a movie fragment or a track fragment comes to an end for all bytes whose
number a signed word holds. It gives what is read box by box, or the error that is found there:
all slices lie inside of what they are taken from, and all sums fit their words. For numbers of
bytes among the last 2³⁸, which no machine can hold, a data offset that is adapted could still
leave its signed word, and nothing else. The loops move on by eight bytes at least and do not leave
the bytes, and if they come through, the boxes that they went over fill the bytes. No run has more
samples than its bytes allow, or than runs without fields may have. -/
theorem decode_within_bounds {data : Bytes} (hlength : data.length < 2 ^ 63) :
    (∀ startPosition, Agrees (data.length < 2 ^ 63 - 2 ^ 38) (decodeInWords startPosition data)
      (decodeAt startPosition data)) ∧
    (MovieFragment.decodeInWords data = orFailure (MovieFragment.decode data) ∧
      MovieFragment.decodeContentsInWords data =
        orFailure (MovieFragment.decodeContents data)) ∧
    (TrackFragment.decodeInWords data = orFailure (TrackFragment.decode data) ∧
      TrackFragment.decodeContentsInWords data =
        orFailure (TrackFragment.decodeContents data)) ∧
    ((loop data).Tiles data (Spans data) ∧
      (MovieFragment.loop data).Tiles data (Box.Spans data) ∧
      (TrackFragment.loop data).Tiles data (Box.Spans data)) ∧
    (∀ run, TrackRun.decodeContents data = .ok run →
      run.samples.length ≤ max (2 ^ 20) (data.length / 4)) ∧
    ∀ startPosition segment, decodeAt startPosition data = .ok segment →
      ∀ fragment ∈ segment.fragments, ∀ track ∈ fragment.moof.tracks, ∀ run ∈ track.runs,
        run.samples.length ≤ max (2 ^ 20) (data.length / 4) := by
  have hmoof := And.intro (MovieFragment.decodeInWords_eq hlength)
    (MovieFragment.decodeContentsInWords_eq hlength)
  have htraf := And.intro (TrackFragment.decodeInWords_eq hlength)
    (TrackFragment.decodeContentsInWords_eq hlength)
  refine ⟨fun startPosition => ?_, hmoof, htraf,
    ⟨loop_tiles data, Box.childLoop_tiles _ data, Box.childLoop_tiles _ data⟩,
    fun run h => TrackRun.sampleCount_le h, fun startPosition segment h => runsWithin_of_decodeAt h⟩
  have hrun : Agrees (data.length < 2 ^ 63 - 2 ^ 38) (decodeInWords startPosition data)
      (decodeFrom true { ofType none with startPosition } (data.drop 0)) :=
    agrees_run hlength (Nat.zero_le _) (Nat.zero_le _)
  rwa [List.drop_zero] at hrun

/-- A box that is skipped, a movie fragment with a long header and a child that is skipped, three
samples without fields, and media data that extends to the end. -/
theorem decode_within_bounds_with_skipped :
    let data : Bytes :=
      [0, 0, 0, 24, 115, 116, 121, 112, 109, 115, 100, 104, 0, 0, 0, 0, 109, 115, 100, 104, 109,
        115, 105, 120, 0, 0, 0, 9, 102, 114, 101, 101, 7, 0, 0, 0, 1, 109, 111, 111, 102, 0, 0, 0,
        0, 0, 0, 0, 104, 0, 0, 0, 16, 109, 102, 104, 100, 0, 0, 0, 0, 0, 0, 0, 1, 0, 0, 0, 12, 112,
        115, 115, 104, 1, 2, 3, 4, 0, 0, 0, 60, 116, 114, 97, 102, 0, 0, 0, 16, 116, 102, 104, 100,
        0, 2, 0, 0, 0, 0, 0, 1, 0, 0, 0, 16, 116, 102, 100, 116, 0, 0, 0, 0, 0, 0, 0, 5, 0, 0, 0,
        20, 116, 114, 117, 110, 0, 0, 0, 1, 0, 0, 0, 3, 0, 0, 0, 112, 0, 0, 0, 0, 109, 100, 97, 116,
        1, 2]
    let moof : MovieFragment :=
      ⟨⟨1⟩, [⟨.ofTrack 1, [⟨some 92, none, .replicate 3 ⟨none, none, none, none⟩⟩], some ⟨0, 5⟩⟩]⟩
    let segment := (ofType (some .cmaf)).addFragment (.ofBoxes moof ⟨[1, 2]⟩)
    data.length < 2 ^ 63 ∧ decodeInWords 0 data = .ok segment ∧
      (∃ moves, (loop data).Completes (ofType none) 0 moves segment ∧
        (moves.map (CursorLoop.piece data)).flatten = data ∧
        ∀ move ∈ moves, Spans data move.1 move.2) ∧
      ∀ fragment ∈ segment.fragments, ∀ track ∈ fragment.moof.tracks, ∀ run ∈ track.runs,
        run.samples.length ≤ max (2 ^ 20) (data.length / 4) := by
  intro data moof segment
  have hlength : data.length < 2 ^ 63 := by decide +kernel
  have hsmall : data.length < 2 ^ 63 - 2 ^ 38 := by decide +kernel
  have h : decodeAt 0 data = .ok segment := by decide +kernel
  -- what follows needs only the facts above, and not what the names stand for
  clear_value segment moof data
  obtain ⟨hagrees, -, -, ⟨htiles, -⟩, -, hruns⟩ := decode_within_bounds hlength
  have hwords : decodeInWords 0 data = .ok segment := by
    rcases hagrees 0 with hsame | ⟨-, hlarge⟩
    · rw [hsame, h]
      rfl
    · exact absurd hsmall hlarge
  exact ⟨hlength, hwords, htiles.fills hwords, hruns 0 segment h⟩

end Segment
end FragmentedMp4
