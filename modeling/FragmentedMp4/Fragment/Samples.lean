import FragmentedMp4.Fragment.Basic
import FragmentedMp4.Sample

/-!
# The samples of a fragment

A value that a sample does not carry is taken from the header of its track fragment
and else from the defaults of the track. A run with a data offset begins there, a run
without one where the run before it ended. Decode times count up from that of the
track fragment.
-/

namespace FragmentedMp4

/-- The values that the samples of a track fragment fall back on. -/
structure SampleDefaults where
  duration : Option UInt32
  size : Option UInt32
  flags : Option UInt32

namespace TrackFragment

/-- What the header gives, and where it gives nothing the defaults of the track. -/
def sampleDefaults (track : TrackFragment) (trex : Option TrackExtends) : SampleDefaults where
  duration := track.header.duration <|> trex.map (·.duration)
  size := track.header.size <|> trex.map (·.size)
  flags := track.header.flags <|> trex.map (·.flags)

end TrackFragment

/-- Where reading the samples of a track fragment has come to. -/
structure Playhead where
  /-- Where the data of the next sample begins in the payload. -/
  position : Nat
  /-- The decode time of the next sample. -/
  decodeTime : UInt64
deriving DecidableEq

namespace Playhead

/-- A value that has to be known. -/
def require {α : Type} (value : Option α) : Except Failure α :=
  match value with
  | some value => .ok value
  | none => .error (.error .missingDefaults)

def readSample (payload : Bytes) (available : Nat) (defaults : SampleDefaults)
    (firstFlags : Option UInt32) (entry : RunSample) (head : Playhead) :
    Except Failure (Sample × Playhead) := do
  let duration ← require (entry.duration <|> defaults.duration)
  let size ← require (entry.size <|> defaults.size)
  let flags ← require (firstFlags <|> entry.flags <|> defaults.flags)
  if available < head.position + size.toNat then
    .error (.error (.sampleDataOutOfRange head.position size.toNat available))
  else
    let decodeTime ← Sample.addUnsigned head.decodeTime.toNat duration.toNat
    let sample :=
      { flags, duration, size
        compositionOffset := entry.compositionOffset.getD 0
        decodeTime := head.decodeTime
        data := (payload.drop head.position).take size.toNat }
    return (sample, ⟨head.position + size.toNat, decodeTime⟩)

/-- Reads the samples of a run behind those read before, which are given in reverse.
Only the first sample can have flags from the run. -/
def readEntries (payload : Bytes) (available : Nat) (defaults : SampleDefaults) :
    (firstFlags : Option UInt32) → List RunSample → List Sample × Playhead →
      Except Failure (List Sample × Playhead)
  | _, [], state => .ok state
  | firstFlags, entry :: entries, (done, head) =>
    match readSample payload available defaults firstFlags entry head with
    | .error failure => .error failure
    | .ok (sample, head) =>
      readEntries payload available defaults none entries (sample :: done, head)

def seek (payloadOffset : Nat) (run : TrackRun) (head : Playhead) : Except Failure Playhead :=
  match run.dataOffset with
  | none => .ok head
  | some offset =>
    if offset.toInt < payloadOffset then
      .error (.error (.invalidBox .trun (.offsetBeforePayload offset.toInt)))
    else .ok { head with position := (offset.toInt - payloadOffset).toNat }

def readRuns (payloadOffset : Nat) (payload : Bytes) (available : Nat)
    (defaults : SampleDefaults) :
    List TrackRun → List Sample × Playhead → Except Failure (List Sample × Playhead)
  | [], state => .ok state
  | run :: runs, (done, head) =>
    match seek payloadOffset run head with
    | .error failure => .error failure
    | .ok head =>
      match readEntries payload available defaults run.firstSampleFlags run.samples
        (done, head) with
      | .error failure => .error failure
      | .ok state => readRuns payloadOffset payload available defaults runs state

end Playhead

namespace Fragment

def readTrack (fragment : Fragment) (isFirst : Bool) (track : TrackFragment)
    (trex : Option TrackExtends) : Except Failure (List Sample) :=
  if track.header.baseDataOffset.isSome then
    .error (.error (.unsupported .absoluteBaseOffset))
  else if !isFirst && !track.header.baseIsMoof then
    .error (.error (.unsupported .offsetAfterPreviousTrack))
  else do
    let start : Playhead := ⟨0, (track.decodeTime.map (·.time)).getD 0⟩
    let payload := fragment.mdat.payload
    let (samples, _) ←
      Playhead.readRuns fragment.payloadOffset payload payload.length
        (track.sampleDefaults trex) track.runs ([], start)
    return samples.reverse

/-- The first track fragment of a track, and whether it is the first of the fragment. -/
def findTrack (fragment : Fragment) (trackId : UInt32) : Except Error (Bool × TrackFragment) :=
  match fragment.moof.track? trackId with
  | some track => .ok (fragment.trackId? == some trackId, track)
  | none => .error (.trackNotFound trackId)

/-- The only track fragment, or the one of the track that the defaults are for when there
are several. -/
def selectTrack (fragment : Fragment) (trex : Option TrackExtends) :
    Except Error (Bool × TrackFragment) :=
  match fragment.moof.tracks with
  | [] => .error (.missingBox .traf "moof")
  | [track] => .ok (true, track)
  | tracks =>
    match trex with
    | some trex => fragment.findTrack trex.trackId
    | none => .error (.unsupported (.noTrackSelected tracks.length))

def samples (fragment : Fragment) (trex : Option TrackExtends) : Except Failure (List Sample) := do
  let (isFirst, track) ← orFailure (fragment.selectTrack trex)
  fragment.readTrack isFirst track trex

def trackSamples (fragment : Fragment) (trackId : UInt32) (trex : Option TrackExtends) :
    Except Failure (List Sample) := do
  let (isFirst, track) ← orFailure (fragment.findTrack trackId)
  fragment.readTrack isFirst track trex

end Fragment
end FragmentedMp4
