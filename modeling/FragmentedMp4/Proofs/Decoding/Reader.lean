import FragmentedMp4.Box.MovieFragment
import FragmentedMp4.Box.SegmentType
import FragmentedMp4.Proofs.Box.Taken
import FragmentedMp4.Proofs.Fragment.Words

/-!
# Reading boxes by index

A box is read from a string of bytes that stays where it is: fields are slices of it, and how
far the contents have been read is a word of 64 bits. Here headers and contents are read in this
way. Every slice has to lie inside of what it is taken from, and every sum and difference has to
fit its word. What is read, and the error that is found, are the same as if the bytes were taken
off the front of a list.
-/
namespace FragmentedMp4

namespace Words

def sub (left right : Nat) : Except Failure Nat :=
  if right ≤ left then .ok (left - right) else .error .overflow

def mul? (left right : Nat) : Option Nat :=
  if left * right < UInt64.size then some (left * right) else none

theorem sub_of_le {left right : Nat} (h : right ≤ left) : sub left right = .ok (left - right) :=
  if_pos h

theorem mul?_eq_some {left right word : Nat} (h : word < UInt64.size) :
    mul? left right = some word ↔ left * right = word := by
  unfold mul?
  split_ifs with hfits
  · exact Option.some_inj
  · exact iff_of_false (by simp) (by omega)

theorem slice_of_bounds {bytes : Bytes} {start stop : Nat} (hle : start ≤ stop)
    (hstop : stop ≤ bytes.length) :
    slice bytes start stop = .ok ((bytes.drop start).take (stop - start)) :=
  if_pos ⟨hle, hstop⟩

theorem slice_front {bytes : Bytes} {size : Nat} (h : size ≤ bytes.length) :
    slice bytes 0 size = .ok (bytes.take size) := by
  simp [slice, h]

theorem slice_back {bytes : Bytes} {start : Nat} (h : start ≤ bytes.length) :
    slice bytes start bytes.length = .ok (bytes.drop start) := by
  rw [slice, if_pos ⟨h, le_rfl⟩, List.take_of_length_le (by rw [List.length_drop])]

theorem eq_of_add {left right sum : Nat} (h : add left right = .ok sum) : sum = left + right := by
  unfold add at h
  split_ifs at h
  cases h
  rfl

theorem eq_of_slice_back {bytes rest : Bytes} {start : Nat}
    (h : slice bytes start bytes.length = .ok rest) :
    start ≤ bytes.length ∧ rest = bytes.drop start := by
  by_cases hle : start ≤ bytes.length
  · rw [slice_back hle] at h
    cases h
    exact ⟨hle, rfl⟩
  · rw [slice, if_neg fun hbounds => hle hbounds.1] at h
    cases h

end Words

namespace FourCC

def copied (bytes : Bytes) : Except Failure FourCC :=
  match bytes with
  | [a, b, c, d] => .ok ⟨a, b, c, d⟩
  | bytes => .error (.pastEnd bytes.length 4)

theorem copied_of_length {bytes : Bytes} (h : bytes.length = 4) :
    ∃ code, copied bytes = .ok code ∧ ∀ rest, ofBytes? (bytes ++ rest) = some code :=
  match bytes, h with
  | [a, b, c, d], _ => ⟨⟨a, b, c, d⟩, rfl, fun _ => rfl⟩

theorem ofBytes?_of_short {bytes : Bytes} (h : bytes.length < 4) : ofBytes? bytes = none :=
  match bytes, h with
  | [], _ | [_], _ | [_, _], _ | [_, _, _], _ => rfl

end FourCC

namespace BoxHeader

def extentInWords (name : FourCC) (data : Bytes) : Except Failure (Nat × Nat) := do
  let field ← Words.slice data 0 4
  match bigEndianValue field with
  | 0 => return (data.length, Box.headerSize)
  | 1 =>
    if data.length < Box.largeHeaderSize then
      .error (.error (.truncated name Box.largeHeaderSize data.length))
    else
      let large ← Words.slice data 8 16
      return (bigEndianValue large, Box.largeHeaderSize)
  | size => return (size, Box.headerSize)

def parseInWords (data : Bytes) : Except Failure BoxHeader :=
  if data.length < Box.headerSize then .error (.error (.truncatedHeader data.length))
  else do
    let name ← FourCC.copied (← Words.slice data 4 8)
    let (size, headerSize) ← extentInWords name data
    if size < headerSize then .error (.error (.invalidBox name (.sizeBelowHeader size)))
    else if data.length < size then .error (.error (.truncated name size data.length))
    else return ⟨name, size, headerSize⟩

def contentsInWords (header : BoxHeader) (data : Bytes) : Except Failure Bytes :=
  Words.slice data header.headerSize header.size

variable {data : Bytes}

theorem extentInWords_eq (name : FourCC) (h : Box.headerSize ≤ data.length) :
    extentInWords name data = orFailure (extent name data) := by
  have hlength : 8 ≤ data.length := h
  unfold extentInWords extent
  rw [Words.slice_front (by omega)]
  simp only [bind, Except.bind]
  generalize bigEndianValue (data.take 4) = field
  rcases field with _ | _ | size
  · rfl
  · simp only [Nat.zero_add]
    split_ifs with hshort
    · rfl
    · have hlarge : Words.slice data 8 16 = .ok ((data.drop 8).take 8) :=
        Words.slice_of_bounds (by decide) (not_lt.1 hshort)
      rw [hlarge]
      rfl
  · rfl

theorem parseInWords_eq (data : Bytes) : parseInWords data = orFailure (parse data) := by
  unfold parseInWords parse
  split_ifs with hshort
  · have hfour : (data.drop 4).length < 4 := by
      rw [List.length_drop]
      unfold Box.headerSize at hshort
      omega
    rw [FourCC.ofBytes?_of_short hfour]
    rfl
  · have hlength : 8 ≤ data.length := not_lt.1 hshort
    have hslice : Words.slice data 4 8 = .ok ((data.drop 4).take 4) :=
      Words.slice_of_bounds (by decide) hlength
    have hfour : ((data.drop 4).take 4).length = 4 := by
      rw [List.length_take, List.length_drop]
      omega
    obtain ⟨name, hcopied, hname⟩ := FourCC.copied_of_length hfour
    have hcode := hname ((data.drop 4).drop 4)
    rw [List.take_append_drop] at hcode
    rw [hslice, hcode]
    simp only [bind, Except.bind, hcopied, extentInWords_eq name (not_lt.1 hshort)]
    cases extent name data with
    | error error => rfl
    | ok pair =>
      simp only [orFailure, mapError_ok]
      split_ifs <;> rfl

/-- The contents of a box that was accepted lie inside of the bytes. -/
theorem contentsInWords_eq {header : BoxHeader} (h : parse data = .ok header) :
    header.contentsInWords data = .ok (header.contents data) := by
  obtain ⟨-, hle, hsize⟩ := parse_bounds h
  unfold contentsInWords contents Words.slice
  rw [if_pos ⟨hle, hsize⟩, List.drop_take]

end BoxHeader

/-! ### Fields -/

/-- Contents of a box, and the place up to which they have been read. -/
structure IndexedCursor where
  box : FourCC
  contents : Bytes
  position : Nat

abbrev IndexedReader (α : Type) : Type :=
  StateT IndexedCursor (Except Failure) α

namespace IndexedReader

variable {α β : Type}

def fail (error : Error) : IndexedReader α := fun _ => .error (.error error)

def remaining : IndexedReader Nat := fun cursor => do
  let left ← Words.sub cursor.contents.length cursor.position
  return (left, cursor)

def bytes (count : Nat) : IndexedReader Bytes := fun cursor => do
  let left ← Words.sub cursor.contents.length cursor.position
  let stop ← Words.add cursor.position count
  if left < count then .error (.error (.truncated cursor.box stop cursor.contents.length))
  else
    let front ← Words.slice cursor.contents cursor.position stop
    return (front, { cursor with position := stop })

def number (width : Nat) : IndexedReader Nat := do
  return bigEndianValue (← bytes width)

def uint32 : IndexedReader UInt32 := do
  return UInt32.ofNat (← number 4)

def int32 : IndexedReader Int32 := do
  return (← uint32).toInt32

def uint64 : IndexedReader UInt64 := do
  return UInt64.ofNat (← number 8)

def fourCC : IndexedReader FourCC := do
  let front ← bytes 4
  FourCC.copied front

def word : IndexedReader VersionFlags := do
  let value ← uint32
  return .of (value >>> 24).toUInt8 value

def optional (present : Bool) (read : IndexedReader α) : IndexedReader (Option α) :=
  if present then do return some (← read) else pure none

def finish : IndexedReader Unit := fun cursor => do
  let left ← Words.sub cursor.contents.length cursor.position
  if left = 0 then return ((), cursor)
  else .error (.error (.invalidBox cursor.box (.trailingBytes left)))

/-- Reads a number of items behind those that were read before, which are given in reverse. -/
def timesOnto (read : IndexedReader α) (done : List α) : (count : Nat) → IndexedReader (List α)
  | 0 => return done.reverse
  | count + 1 => do timesOnto read ((← read) :: done) count

def times (count : Nat) (read : IndexedReader α) : IndexedReader (List α) :=
  timesOnto read [] count

def readContents (box : FourCC) (read : IndexedReader α) (contents : Bytes) : Except Failure α := do
  let (value, _) ← read ⟨box, contents, 0⟩
  return value

theorem bind_of_ok {read : IndexedReader α} {next : α → IndexedReader β}
    {cursor after : IndexedCursor} {value : α} (h : read cursor = .ok (value, after)) :
    (read >>= next) cursor = next value after := by
  change (read cursor >>= fun pair => next pair.1 pair.2) = _
  rw [h]
  rfl

theorem bind_of_error {read : IndexedReader α} {next : α → IndexedReader β}
    {cursor : IndexedCursor} {failure : Failure} (h : read cursor = .error failure) :
    (read >>= next) cursor = .error failure := by
  change (read cursor >>= fun pair => next pair.1 pair.2) = _
  rw [h]
  rfl

/-- A reader by index finds the value or the error that another reader finds, and stops where
that stops, from every place in contents that a machine can hold. -/
structure Follows (indexed : IndexedReader α) (read : Reader α) : Prop where
  from_place : ∀ (box : FourCC) {contents : Bytes} {position : Nat}, contents.length < 2 ^ 63 →
    position ≤ contents.length →
      (∃ error, read ⟨box, position, contents.drop position⟩ = .error error ∧
        indexed ⟨box, contents, position⟩ = .error (.error error)) ∨
      ∃ value after, after ≤ contents.length ∧
        read ⟨box, position, contents.drop position⟩ =
          .ok (value, ⟨box, after, contents.drop after⟩) ∧
        indexed ⟨box, contents, position⟩ = .ok (value, ⟨box, contents, after⟩)

namespace Follows

theorem pure (value : α) : Follows (return value) (return value) :=
  ⟨fun _ {_ position} _ hposition => .inr ⟨value, position, hposition, rfl, rfl⟩⟩

theorem fail (error : Error) : Follows (IndexedReader.fail error : IndexedReader α)
    (Reader.fail error) :=
  ⟨fun _ {_ _} _ _ => .inl ⟨error, rfl, rfl⟩⟩

theorem bind {indexed : IndexedReader α} {read : Reader α} {nextIndexed : α → IndexedReader β}
    {next : α → Reader β} (h : Follows indexed read)
    (hnext : ∀ value, Follows (nextIndexed value) (next value)) :
    Follows (indexed >>= nextIndexed) (read >>= next) := by
  constructor
  intro box contents position hlength hposition
  rcases h.from_place box hlength hposition with
    ⟨error, hread, hindexed⟩ | ⟨value, after, hafter, hread, hindexed⟩
  · refine .inl ⟨error, ?_, bind_of_error hindexed⟩
    rw [Reader.bind_apply, hread]
  · rw [Reader.bind_of_ok hread, bind_of_ok hindexed]
    exact (hnext value).from_place box hlength hafter

theorem bind_remaining {nextIndexed : Nat → IndexedReader β} {next : Nat → Reader β}
    (hnext : ∀ left < UInt64.size, Follows (nextIndexed left) (next left)) :
    Follows (remaining >>= nextIndexed) (Reader.remaining >>= next) := by
  constructor
  intro box contents position hlength hposition
  have hlimit : UInt64.size = 2 ^ 64 := rfl
  have hread : Reader.remaining ⟨box, position, contents.drop position⟩ =
      .ok (contents.length - position, ⟨box, position, contents.drop position⟩) := by
    unfold Reader.remaining
    rw [List.length_drop]
  have hindexed : remaining ⟨box, contents, position⟩ =
      .ok (contents.length - position, ⟨box, contents, position⟩) := by
    unfold remaining
    rw [Words.sub_of_le hposition]
    rfl
  rw [Reader.bind_of_ok hread, bind_of_ok hindexed]
  exact (hnext _ (by omega)).from_place box hlength hposition

theorem bytes {count : Nat} (hcount : count < 2 ^ 63) :
    Follows (IndexedReader.bytes count) (Reader.bytes count) := by
  constructor
  intro box contents position hlength hposition
  have hlimit : UInt64.size = 2 ^ 64 := rfl
  unfold Reader.bytes IndexedReader.bytes
  simp only [takeExactly_eq, List.length_drop, Words.sub_of_le hposition,
    Words.add_of_lt (by omega : position + count < UInt64.size), Bind.bind, Except.bind]
  by_cases hroom : count ≤ contents.length - position
  · refine .inr ⟨(contents.drop position).take count, position + count, by omega, ?_, ?_⟩
    · rw [if_pos hroom, List.drop_drop]
    · rw [if_neg (not_lt.2 hroom), Words.slice_of_le (by omega)]
      rfl
  · refine .inl ⟨.truncated box (position + count) contents.length, ?_, ?_⟩
    · rw [if_neg hroom, Nat.add_sub_cancel' hposition]
    · rw [if_pos (not_le.1 hroom)]

theorem number {width : Nat} (hwidth : width < 2 ^ 63) :
    Follows (IndexedReader.number width) (Reader.number width) :=
  (bytes hwidth).bind fun front => .pure (bigEndianValue front)

theorem uint32 : Follows IndexedReader.uint32 Reader.uint32 :=
  (number (by decide)).bind fun value => .pure (UInt32.ofNat value)

theorem int32 : Follows IndexedReader.int32 Reader.int32 :=
  uint32.bind fun value => .pure value.toInt32

theorem uint64 : Follows IndexedReader.uint64 Reader.uint64 :=
  (number (by decide)).bind fun value => .pure (UInt64.ofNat value)

theorem word : Follows IndexedReader.word Reader.word :=
  uint32.bind fun value => .pure (VersionFlags.of (value >>> 24).toUInt8 value)

theorem fourCC : Follows IndexedReader.fourCC Reader.fourCC := by
  constructor
  intro box contents position hlength hposition
  unfold Reader.fourCC IndexedReader.fourCC
  rcases (bytes (by decide : 4 < 2 ^ 63)).from_place box hlength hposition with
    ⟨error, hread, hindexed⟩ | ⟨front, after, hafter, hread, hindexed⟩
  · refine .inl ⟨error, ?_, bind_of_error hindexed⟩
    rw [hread]
  · obtain ⟨code, hcopied, hcode⟩ :=
      FourCC.copied_of_length ((Reader.Takes.bytes 4).of_ok hread).1
    have hfront := hcode []
    rw [List.append_nil] at hfront
    refine .inr ⟨code, after, hafter, ?_, ?_⟩
    · simp only [hread, hfront]
    · rw [bind_of_ok hindexed, hcopied]
      rfl

theorem optional {indexed : IndexedReader α} {read : Reader α} (h : Follows indexed read)
    (present : Bool) :
    Follows (IndexedReader.optional present indexed) (Reader.optional present read) := by
  unfold IndexedReader.optional Reader.optional
  split_ifs
  · exact h.bind fun value => .pure (some value)
  · exact .pure none

theorem finish : Follows IndexedReader.finish Reader.finish := by
  constructor
  intro box contents position hlength hposition
  unfold IndexedReader.finish Reader.finish
  simp only [Words.sub_of_le hposition, List.isEmpty_iff, ← List.length_eq_zero_iff,
    List.length_drop, Bind.bind, Except.bind]
  by_cases hleft : contents.length - position = 0
  · rw [if_pos hleft, if_pos hleft]
    exact .inr ⟨(), position, hposition, rfl, rfl⟩
  · rw [if_neg hleft, if_neg hleft]
    exact .inl ⟨_, rfl, rfl⟩

theorem timesOnto {indexed : IndexedReader α} {read : Reader α} (h : Follows indexed read)
    (done : List α) (count : Nat) :
    Follows (IndexedReader.timesOnto indexed done count) (Reader.timesOnto read done count) := by
  induction count generalizing done with
  | zero => exact .pure done.reverse
  | succ count ih => exact h.bind fun value => ih (value :: done)

theorem times {indexed : IndexedReader α} {read : Reader α} (h : Follows indexed read)
    (count : Nat) : Follows (IndexedReader.times count indexed) (Reader.times count read) :=
  h.timesOnto [] count

theorem readContents_eq {indexed : IndexedReader α} {read : Reader α} (h : Follows indexed read)
    (box : FourCC) {contents : Bytes} (hlength : contents.length < 2 ^ 63) :
    readContents box indexed contents = orFailure (read.run box contents) := by
  unfold readContents Reader.run
  rcases h.from_place box hlength (Nat.zero_le _) with
    ⟨error, hread, hindexed⟩ | ⟨value, after, -, hread, hindexed⟩
  · rw [List.drop_zero] at hread
    rw [hread, hindexed]
    rfl
  · rw [List.drop_zero] at hread
    rw [hread, hindexed]
    rfl

end Follows
end IndexedReader

/-! ### Boxes with fields -/

open IndexedReader

namespace Box

variable {α : Type}

def decodeAsInWords (name : FourCC) (decodeContents : Bytes → Except Failure α) (data : Bytes) :
    Except Failure (α × Nat) := do
  let header ← BoxHeader.parseInWords data
  if header.name ≠ name then
    .error (.error (.unexpectedBox header.name .differentType))
  else
    let contents ← header.contentsInWords data
    let value ← (decodeContents contents).mapError (Failure.mapError (.inBox name))
    return (value, header.size)

/-- A box is read alike if its contents are. -/
theorem decodeAsInWords_eq {name : FourCC} {inWords : Bytes → Except Failure α}
    {decodeContents : Bytes → Except Error α} {data : Bytes}
    (h : ∀ contents, contents.length ≤ data.length →
      inWords contents = orFailure (decodeContents contents)) :
    decodeAsInWords name inWords data = orFailure (decodeAs name decodeContents data) := by
  unfold decodeAsInWords decodeAs
  rw [BoxHeader.parseInWords_eq, orFailure_bind]
  cases hparse : BoxHeader.parse data with
  | error error => rfl
  | ok header =>
    simp only [orFailure, mapError_ok, bind, Except.bind]
    split_ifs
    · rfl
    · have hcontents : (header.contents data).length ≤ data.length := by
        unfold BoxHeader.contents
        rw [List.length_drop, List.length_take]
        omega
      rw [BoxHeader.contentsInWords_eq hparse]
      simp only [h _ hcontents]
      cases decodeContents (header.contents data) <;> rfl

def decodeByIndex (name : FourCC) (read : IndexedReader α) (data : Bytes) :
    Except Failure (α × Nat) :=
  decodeAsInWords name (readContents name read) data

theorem decodeByIndex_eq {indexed : IndexedReader α} {read : Reader α} (h : Follows indexed read)
    (name : FourCC) {data : Bytes} (hlength : data.length < 2 ^ 63) :
    decodeByIndex name indexed data = orFailure (decodeAs name (read.run name) data) :=
  decodeAsInWords_eq fun _ hcontents => h.readContents_eq name (hcontents.trans_lt hlength)

end Box

namespace VersionedTime

def readInWords (version : UInt8) : IndexedReader UInt64 :=
  if version = 1 then IndexedReader.uint64 else do return (← IndexedReader.uint32).toUInt64

theorem follows (version : UInt8) : Follows (readInWords version) (read version) := by
  unfold readInWords read
  split_ifs
  · exact .uint64
  · exact Follows.uint32.bind fun value => .pure value.toUInt64

end VersionedTime

namespace SegmentType

def readInWords : IndexedReader SegmentType := do
  let majorBrand ← IndexedReader.fourCC
  let minorVersion ← IndexedReader.uint32
  let left ← remaining
  if left % 4 ≠ 0 then IndexedReader.fail (.invalidBox .styp .partialBrand)
  else
    let brands ← IndexedReader.times (left / 4) IndexedReader.fourCC
    return ⟨majorBrand, minorVersion, brands⟩

theorem follows : Follows readInWords read := by
  refine Follows.fourCC.bind fun majorBrand => ?_
  refine Follows.uint32.bind fun minorVersion => ?_
  refine .bind_remaining fun left _ => ?_
  split_ifs
  · exact .fail _
  · exact (Follows.fourCC.times _).bind fun brands => .pure _

end SegmentType

namespace SegmentIndex

def readReferenceInWords : IndexedReader IndexReference := do
  let sizeWord ← IndexedReader.uint32
  let duration ← IndexedReader.uint32
  let sapWord ← IndexedReader.uint32
  return .ofWords sizeWord duration sapWord

def readInWords : IndexedReader SegmentIndex := do
  let word ← IndexedReader.word
  let referenceId ← IndexedReader.uint32
  let timescale ← IndexedReader.uint32
  let earliestTime ← VersionedTime.readInWords word.version
  let firstOffset ← VersionedTime.readInWords word.version
  let _reserved ← IndexedReader.number 2
  let count ← IndexedReader.number 2
  let references ← IndexedReader.times count readReferenceInWords
  IndexedReader.finish
  return { version := word.version, referenceId, timescale, earliestTime, firstOffset, references }

theorem follows_reference : Follows readReferenceInWords IndexReference.read := by
  refine Follows.uint32.bind fun sizeWord => ?_
  refine Follows.uint32.bind fun duration => ?_
  exact Follows.uint32.bind fun sapWord => .pure _

theorem follows : Follows readInWords read := by
  refine Follows.word.bind fun word => ?_
  refine Follows.uint32.bind fun referenceId => ?_
  refine Follows.uint32.bind fun timescale => ?_
  refine (VersionedTime.follows word.version).bind fun earliestTime => ?_
  refine (VersionedTime.follows word.version).bind fun firstOffset => ?_
  refine (Follows.number (by decide)).bind fun reserved => ?_
  refine (Follows.number (by decide)).bind fun count => ?_
  refine (follows_reference.times count).bind fun references => ?_
  exact Follows.finish.bind fun _ => .pure _

end SegmentIndex

namespace MovieFragmentHeader

def readInWords : IndexedReader MovieFragmentHeader := do
  let _word ← IndexedReader.word
  let sequenceNumber ← IndexedReader.uint32
  IndexedReader.finish
  return ⟨sequenceNumber⟩

theorem follows : Follows readInWords read := by
  refine Follows.word.bind fun word => ?_
  refine Follows.uint32.bind fun sequenceNumber => ?_
  exact Follows.finish.bind fun _ => .pure _

end MovieFragmentHeader

namespace TrackDecodeTime

def readInWords : IndexedReader TrackDecodeTime := do
  let word ← IndexedReader.word
  let time ← VersionedTime.readInWords word.version
  IndexedReader.finish
  return ⟨word.version, time⟩

theorem follows : Follows readInWords read := by
  refine Follows.word.bind fun word => ?_
  refine (VersionedTime.follows word.version).bind fun time => ?_
  exact Follows.finish.bind fun _ => .pure _

end TrackDecodeTime

namespace TrackFragmentHeader

def readInWords : IndexedReader TrackFragmentHeader := do
  let word ← IndexedReader.word
  let trackId ← IndexedReader.uint32
  let baseDataOffset ← IndexedReader.optional (word.has baseDataOffsetFlag) IndexedReader.uint64
  let descriptionIndex ←
    IndexedReader.optional (word.has descriptionIndexFlag) IndexedReader.uint32
  let duration ← IndexedReader.optional (word.has durationFlag) IndexedReader.uint32
  let size ← IndexedReader.optional (word.has sizeFlag) IndexedReader.uint32
  let flags ← IndexedReader.optional (word.has flagsFlag) IndexedReader.uint32
  IndexedReader.finish
  return {
    trackId, baseDataOffset, descriptionIndex, duration, size, flags
    durationIsEmpty := word.has durationIsEmptyFlag
    baseIsMoof := word.has baseIsMoofFlag }

theorem follows : Follows readInWords read := by
  refine Follows.word.bind fun word => ?_
  refine Follows.uint32.bind fun trackId => ?_
  refine (Follows.uint64.optional _).bind fun baseDataOffset => ?_
  refine (Follows.uint32.optional _).bind fun descriptionIndex => ?_
  refine (Follows.uint32.optional _).bind fun duration => ?_
  refine (Follows.uint32.optional _).bind fun size => ?_
  refine (Follows.uint32.optional _).bind fun flags => ?_
  exact Follows.finish.bind fun _ => .pure _

end TrackFragmentHeader

namespace TrackRun

def readSampleInWords (fields : SampleFields) : IndexedReader RunSample := do
  let duration ← IndexedReader.optional fields.duration IndexedReader.uint32
  let size ← IndexedReader.optional fields.size IndexedReader.uint32
  let flags ← IndexedReader.optional fields.flags IndexedReader.uint32
  let compositionOffset ← IndexedReader.optional fields.compositionOffset IndexedReader.int32
  return { duration, size, flags, compositionOffset }

/-- Reads the samples, whose number must be the one that fills the rest of the contents. The
bytes that they take are a product of words, which is checked. -/
def readSamplesInWords (fields : SampleFields) (count : Nat) : IndexedReader (List RunSample) := do
  let available ← remaining
  if fields.sampleSize = 0 ∧ maxFieldlessSamples < count then
    IndexedReader.fail (.invalidBox .trun (.samplesWithoutFields count))
  else if Words.mul? fields.sampleSize count ≠ some available then
    IndexedReader.fail (.invalidBox .trun (.samplesDoNotFit count fields.sampleSize available))
  else IndexedReader.times count (readSampleInWords fields)

def readInWords : IndexedReader TrackRun := do
  let word ← IndexedReader.word
  let count ← IndexedReader.number 4
  let dataOffset ← IndexedReader.optional (word.has dataOffsetFlag) IndexedReader.int32
  let firstSampleFlags ← IndexedReader.optional (word.has firstSampleFlagsFlag) IndexedReader.uint32
  let samples ← readSamplesInWords (.ofWord word) count
  return { dataOffset, firstSampleFlags, samples }

theorem follows_sample (fields : SampleFields) :
    Follows (readSampleInWords fields) (RunSample.read fields) := by
  refine (Follows.uint32.optional _).bind fun duration => ?_
  refine (Follows.uint32.optional _).bind fun size => ?_
  refine (Follows.uint32.optional _).bind fun flags => ?_
  exact (Follows.int32.optional _).bind fun compositionOffset => .pure _

theorem follows_samples (fields : SampleFields) (count : Nat) :
    Follows (readSamplesInWords fields count) (readSamples fields count) := by
  refine .bind_remaining fun available havailable => ?_
  simp only [ne_eq, Words.mul?_eq_some havailable]
  split_ifs
  · exact .fail _
  · exact (follows_sample fields).times count
  · exact .fail _

theorem follows : Follows readInWords read := by
  refine Follows.word.bind fun word => ?_
  refine (Follows.number (by decide)).bind fun count => ?_
  refine (Follows.int32.optional _).bind fun dataOffset => ?_
  refine (Follows.uint32.optional _).bind fun firstSampleFlags => ?_
  exact (follows_samples _ count).bind fun samples => .pure _

end TrackRun
end FragmentedMp4
