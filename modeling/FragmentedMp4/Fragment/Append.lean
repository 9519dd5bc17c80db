import FragmentedMp4.Fragment.DataOffsets
import FragmentedMp4.Sample

/-!
# Appending samples

The data of a new sample goes to the end of the payload and its values into the last
run of its track, or into a new run if that one carries other fields. Tracks store
their data one after the other, so a track takes no more samples once a later one has
data.

The outcome of an attempt has the fragment as it is afterwards, also when it failed.
-/

namespace FragmentedMp4

/-- A fragment after a change, and the error that stopped the change, if one did. -/
structure Attempt where
  fragment : Fragment
  error : Option Error

namespace TrackFragment

/-- The track fragment with its first sample about to come. -/
def opened (track : TrackFragment) (time : UInt64) : TrackFragment where
  header := { track.header with baseIsMoof := true }
  runs := []
  decodeTime :=
    match track.decodeTime with
    | some decodeTime => some { decodeTime with time }
    | none => some (.ofTime time)

/-- Whether the last run has samples that carry these fields. -/
def lastRunCarries (track : TrackFragment) (fields : SampleFields) : Bool :=
  match track.runs.getLast? with
  | some run => !run.samples.isEmpty && run.fields == fields
  | none => false

/-- The track fragment with an entry at the end of its last run. -/
def pushEntry (track : TrackFragment) (entry : RunSample) : TrackFragment :=
  match track.runs.getLast? with
  | none => track
  | some run =>
    { track with
      runs := track.runs.dropLast ++ [{ run with samples := run.samples ++ [entry] }] }

/-- The track fragment with a new run that begins at a data offset. -/
def pushRun (track : TrackFragment) (dataOffset : Int32) : TrackFragment :=
  { track with runs := track.runs ++ [⟨some dataOffset, none, []⟩] }

end TrackFragment

namespace Sample

/-- What a run stores of a sample that is appended. -/
def entry (sample : Sample) : RunSample where
  duration := some sample.duration
  size := some sample.size
  flags := some sample.flags
  compositionOffset := some sample.compositionOffset

end Sample

namespace Fragment

def withTracks (fragment : Fragment) (tracks : List TrackFragment) : Fragment :=
  { fragment with moof := { fragment.moof with tracks } }

/-- The fragment with more data, and its data offsets moved as far as its movie fragment
has grown. -/
def withData (fragment : Fragment) (oldOffset : Nat) (data : Bytes) : Attempt :=
  let grown := { fragment with mdat := ⟨fragment.mdat.payload ++ data⟩ }
  let (moof, done) := grown.moof.shift (grown.payloadOffset - oldOffset)
  ⟨{ grown with moof }, if done then none else some .offsetOutOfRange⟩

/-- Appends a sample to a track fragment that stands between others. -/
def appendAt (fragment : Fragment) (before : List TrackFragment) (track : TrackFragment)
    (after : List TrackFragment) (sample : Sample) : Attempt :=
  let oldOffset := fragment.payloadOffset
  let opened := if track.sampleCount = 0 then track.opened sample.decodeTime else track
  if opened.lastRunCarries sample.entry.fields then
    (fragment.withTracks (before ++ opened.pushEntry sample.entry :: after)).withData oldOffset
      sample.data
  else if !before.isEmpty && !opened.header.baseIsMoof then
    ⟨fragment, some (.unsupported .runAfterPreviousTrack)⟩
  else
    match offsetWord? (oldOffset + fragment.mdat.payload.length) with
    | none => ⟨fragment.withTracks (before ++ opened :: after), some .offsetOutOfRange⟩
    | some dataOffset =>
      let extended := (opened.pushRun dataOffset).pushEntry sample.entry
      (fragment.withTracks (before ++ extended :: after)).withData oldOffset sample.data

def appendToTrack (fragment : Fragment) (sample : Sample) (trackId : UInt32) : Attempt :=
  let refuse (error : Error) : Attempt := ⟨fragment, some error⟩
  let tracks := fragment.moof.tracks
  match tracks.dropWhile (·.trackId != trackId) with
  | [] => refuse (.trackNotFound trackId)
  | track :: after =>
    if after.any (0 < ·.sampleCount) then refuse (.interleavedTrackData trackId)
    else if sample.data.length ≠ sample.size.toNat then
      refuse (.invalidBox .mdat (.payloadMismatch sample.size.toNat sample.data.length))
    else if track.header.baseDataOffset.isSome then refuse (.unsupported .absoluteBaseOffset)
    else fragment.appendAt (tracks.takeWhile (·.trackId != trackId)) track after sample

def append (fragment : Fragment) (sample : Sample) : Attempt :=
  match fragment.moof.tracks with
  | [track] => fragment.appendToTrack sample track.trackId
  | tracks => ⟨fragment, some (.unsupported (.appendWithoutTrack tracks.length))⟩

end Fragment
end FragmentedMp4
