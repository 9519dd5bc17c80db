import FragmentedMp4.Segment.Basic

/-!
# Reading segments

A segment is read box by box. The segment type may only stand at the very start, media
data only directly behind a movie fragment, and boxes of unknown type are skipped.
-/

namespace FragmentedMp4
namespace Segment

/-- Reads the box at the start of some bytes, or the two boxes of a fragment, and the
number of bytes that they take. -/
def decodeNext (isStart : Bool) (segment : Segment) (header : BoxHeader) (data : Bytes) :
    Except Error (Segment × Nat) :=
  if header.name = .styp then
    if !isStart then .error (.unexpectedBox header.name .lateSegmentType)
    else do
      let (segmentType, _) ← SegmentType.decode data
      return ({ segment with segmentType := some segmentType }, header.size)
  else if header.name = .sidx then do
    let (index, _) ← SegmentIndex.decode data
    return (segment.addIndex index, header.size)
  else if header.name = .moof then do
    let (fragment, used) ←
      (Fragment.decode data).mapError (.inFragment (segment.parts.length + 1))
    return (segment.addFragment fragment, used)
  else if header.name = .mdat then .error (.unexpectedBox header.name .mediaDataFirst)
  else .ok (segment, header.size)

theorem decodeNext_used {isStart : Bool} {segment next : Segment} {header : BoxHeader}
    {data : Bytes} {used : Nat} (hp : BoxHeader.parse data = .ok header)
    (h : decodeNext isStart segment header data = .ok (next, used)) :
    8 ≤ used ∧ used ≤ data.length := by
  have hb := BoxHeader.parse_bounds hp
  have hs : 8 ≤ header.size ∧ header.size ≤ data.length := by omega
  unfold decodeNext at h
  split at h
  · split at h
    · cases h
    · cases hd : SegmentType.decode data with
      | error error => simp [hd, bind, Except.bind] at h
      | ok pair =>
        simp only [hd, bind, Except.bind, pure, Except.pure, Except.ok.injEq, Prod.mk.injEq] at h
        omega
  · split at h
    · cases hd : SegmentIndex.decode data with
      | error error => simp [hd, bind, Except.bind] at h
      | ok pair =>
        simp only [hd, bind, Except.bind, pure, Except.pure, Except.ok.injEq, Prod.mk.injEq] at h
        omega
    · split at h
      · cases hd : Fragment.decode data with
        | error error => simp [hd, mapError_error, bind, Except.bind] at h
        | ok pair =>
          obtain ⟨fragment, n⟩ := pair
          have hn := Fragment.size_of_decode hd
          simp only [hd, mapError_ok, bind, Except.bind, pure, Except.pure, Except.ok.injEq,
            Prod.mk.injEq] at h
          omega
      · split at h
        · cases h
        · simp only [Except.ok.injEq, Prod.mk.injEq] at h
          omega

def decodeFrom (isStart : Bool) (segment : Segment) (data : Bytes) : Except Error Segment :=
  if data.isEmpty then .ok segment
  else
    match _hp : BoxHeader.parse data with
    | .error error => .error error
    | .ok header =>
      match _hd : decodeNext isStart segment header data with
      | .error error => .error error
      | .ok (next, used) => decodeFrom false next (data.drop used)
termination_by data.length
decreasing_by
  have := decodeNext_used _hp _hd
  simp only [List.length_drop]
  omega

/-- Reads a segment that begins at a position of its file. -/
def decodeAt (startPosition : UInt64) (data : Bytes) : Except Error Segment :=
  decodeFrom true { ofType none with startPosition } data

/-- Reads a segment that begins its file. -/
def decode (data : Bytes) : Except Error Segment :=
  decodeAt 0 data

end Segment
end FragmentedMp4
