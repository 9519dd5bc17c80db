import FragmentedMp4.FourCC

/-!
# Errors

An `Error` says what went wrong and, through its two wrappers, in which box
and in which fragment. `Error.message` is its text, `Error.rootCause` the error
without wrappers and `Error.causes` the chain of errors inside it.

A computation can also end in a `Failure` that is no error of the input as
such: a sum that does not fit its word, or a box that emits more than it
declared. Wrappers never touch those.
-/

namespace FragmentedMp4

/-- What is wrong with a box of a known type. -/
inductive Flaw where
  /-- The size field is smaller than the header that holds it. -/
  | sizeBelowHeader (size : Nat)
  | trailingBytes (count : Nat)
  /-- The brands do not fill a whole number of codes. -/
  | partialBrand
  | samplesWithoutFields (count : Nat)
  | samplesDoNotFit (count bytesEach available : Nat)
  | tooManySamples
  /-- A sample has other optional fields than the first one; counted from 1. -/
  | mixedSampleFields (number : Nat)
  | offsetOutOfRange
  | offsetBeforePayload (offset : Int)
  | payloadMismatch (size payload : Nat)
  /-- The box emitted fewer bytes than it declared. -/
  | sizeMismatch (written declared : Nat)
deriving DecidableEq

/-- Why a box may not stand where it stands. -/
inductive Misplacement where
  | differentType
  | lateSegmentType
  | mediaDataFirst
deriving DecidableEq

/-- A layout that is well formed and not supported. -/
inductive Limitation where
  | absoluteBaseOffset
  | offsetAfterPreviousTrack
  | runAfterPreviousTrack
  | noTrackSelected (tracks : Nat)
  | appendWithoutTrack (tracks : Nat)
  | recutRuns (runs : Nat)
  | recutTracks (tracks : Nat)
deriving DecidableEq

/-- Why samples have no duration in common. -/
inductive DurationFlaw where
  | noSamples
  | different
  | zero
deriving DecidableEq

inductive Error where
  /-- A bounded stream took only part of a write. -/
  | outputFull
  | bufferOverflow (need remaining : Nat)
  /-- Fewer bytes than the shortest box header has. -/
  | truncatedHeader (available : Nat)
  | truncated (box : FourCC) (need available : Nat)
  | invalidBox (box : FourCC) (flaw : Flaw)
  | missingBox (box : FourCC) (parent : String)
  | unexpectedBox (box : FourCC) (reason : Misplacement)
  | inBox (box : FourCC) (cause : Error)
  /-- Fragments are counted from 1. -/
  | inFragment (number : Nat) (cause : Error)
  | missingDefaults
  | durationMismatch (fragment expected found : Nat)
  | noCommonDuration (flaw : DurationFlaw)
  | noBoxes
  | trackNotFound (track : UInt32)
  | sampleDataOutOfRange (offset size available : Nat)
  | interleavedTrackData (track : UInt32)
  | unsupported (limitation : Limitation)
  | invalidDetailLevels (entry : String)
deriving DecidableEq

def Flaw.message : Flaw → String
  | .sizeBelowHeader size => s!"size {size} is smaller than its header"
  | .trailingBytes count => s!"{count} trailing bytes"
  | .partialBrand => "brand list is not a multiple of 4 bytes"
  | .samplesWithoutFields count => s!"{count} samples without per-sample fields"
  | .samplesDoNotFit count bytesEach available =>
    s!"{count} samples of {bytesEach} bytes do not fit {available} bytes"
  | .tooManySamples => "too many samples"
  | .mixedSampleFields number =>
    s!"sample {number} does not carry the same fields as the first sample"
  | .offsetOutOfRange => "data offset out of range"
  | .offsetBeforePayload offset => s!"data offset {offset} points before the mdat payload"
  | .payloadMismatch size payload => s!"sample size {size} does not match {payload} payload bytes"
  | .sizeMismatch written declared => s!"wrote {written} bytes, size says {declared}"

def Misplacement.message : Misplacement → String
  | .differentType => "expected a different box type"
  | .lateSegmentType => "styp after the start of the segment"
  | .mediaDataFirst => "mdat without a preceding moof"

def Limitation.message : Limitation → String
  | .absoluteBaseOffset => "absolute base data offsets"
  | .offsetAfterPreviousTrack => "data offsets relative to a previous track fragment"
  | .runAfterPreviousTrack => "new run in a track fragment without default-base-is-moof"
  | .noTrackSelected tracks =>
    s!"fragment has {tracks} track fragments and no track was selected"
  | .appendWithoutTrack tracks =>
    s!"fragment has {tracks} track fragments, append to a track instead"
  | .recutRuns runs => s!"refragmenting a track fragment with {runs} runs"
  | .recutTracks tracks => s!"refragmenting a fragment with {tracks} track fragments"

def DurationFlaw.message : DurationFlaw → String
  | .noSamples => "no samples"
  | .different => "sample durations differ"
  | .zero => "zero sample duration"

namespace Error

def message : Error → String
  | outputFull => "Failed to write box: failed to write whole buffer"
  | bufferOverflow need remaining =>
    s!"Buffer overflow: need {need} bytes, {remaining} remaining"
  | truncatedHeader available => s!"Truncated box header: need 8 bytes, have {available}"
  | truncated box need available =>
    s!"Truncated {box.text}: need {need} bytes, have {available}"
  | invalidBox box flaw => s!"Invalid {box.text} box: {flaw.message}"
  | missingBox box parent => s!"Missing {box.text} box in {parent}"
  | unexpectedBox box reason => s!"Unexpected {box.text} box: {reason.message}"
  | inBox box cause => s!"{box.text}: {cause.message}"
  | inFragment number cause => s!"fragment {number}: {cause.message}"
  | missingDefaults => "trex not set"
  | durationMismatch fragment expected found =>
    s!"different common sample duration in fragment {fragment} ({found}, expected {expected})"
  | noCommonDuration flaw => s!"No common sample duration: {flaw.message}"
  | noBoxes => "no boxes in segment"
  | trackNotFound track => s!"No track fragment for track {track.toNat}"
  | sampleDataOutOfRange offset size available =>
    s!"Sample data out of range: {size} bytes at offset {offset}, mdat holds {available}"
  | interleavedTrackData track =>
    s!"Track {track.toNat} cannot take samples after a later track fragment has data"
  | unsupported limitation => s!"Unsupported: {limitation.message}"
  | invalidDetailLevels entry => s!"Invalid info levels '{entry}'"

/-- The error that the wrappers say the place of. -/
def rootCause : Error → Error
  | inBox _ cause => cause.rootCause
  | inFragment _ cause => cause.rootCause
  | error => error

/-- The errors inside an error, from the outermost to the root. -/
def causes : Error → List Error
  | inBox _ cause => cause :: cause.causes
  | inFragment _ cause => cause :: cause.causes
  | _ => []

end Error

/-- How a computation ends without a result. -/
inductive Failure where
  | error (cause : Error)
  /-- A sum does not fit its word. -/
  | overflow
  /-- A box emits more contents than it declared. -/
  | pastEnd (room requested : Nat)
deriving DecidableEq

namespace Failure

def message : Failure → String
  | error cause => cause.message
  | overflow => "attempt to add with overflow"
  | pastEnd room requested =>
    s!"advance out of bounds: the len is {room} but advancing by {requested}"

/-- Adds context to an error; the other failures stay as they are. -/
def mapError (wrap : Error → Error) : Failure → Failure
  | error cause => .error (wrap cause)
  | failure => failure

end Failure

theorem mapError_ok {ε ε' α : Type} (wrap : ε → ε') (value : α) :
    (Except.ok value).mapError wrap = .ok value :=
  rfl

theorem mapError_error {ε ε' α : Type} (wrap : ε → ε') (error : ε) :
    (Except.error error : Except ε α).mapError wrap = .error (wrap error) :=
  rfl

/-- A result whose error is one failure among others. -/
def orFailure {α : Type} (result : Except Error α) : Except Failure α :=
  result.mapError Failure.error

end FragmentedMp4
