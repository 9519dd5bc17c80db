import FragmentedMp4.Box.Header
import FragmentedMp4.Box.OptionalField
import FragmentedMp4.Box.Reader

/-!
# Track fragment header box

The track of a track fragment, the base of its data offsets and the values that
its samples fall back on. A flag says of each optional field whether it is there.
-/

namespace FragmentedMp4

structure TrackFragmentHeader where
  trackId : UInt32
  baseDataOffset : Option UInt64
  descriptionIndex : Option UInt32
  duration : Option UInt32
  size : Option UInt32
  flags : Option UInt32
  durationIsEmpty : Bool
  /-- Data offsets count from the start of the movie fragment. -/
  baseIsMoof : Bool
deriving DecidableEq

namespace TrackFragmentHeader

def baseDataOffsetFlag : UInt32 := 0x000001
def descriptionIndexFlag : UInt32 := 0x000002
def durationFlag : UInt32 := 0x000008
def sizeFlag : UInt32 := 0x000010
def flagsFlag : UInt32 := 0x000020
def durationIsEmptyFlag : UInt32 := 0x010000
def baseIsMoofFlag : UInt32 := 0x020000

/-- A header without optional fields, whose offsets count from the movie fragment. -/
def ofTrack (trackId : UInt32) : TrackFragmentHeader where
  trackId := trackId
  baseDataOffset := none
  descriptionIndex := none
  duration := none
  size := none
  flags := none
  durationIsEmpty := false
  baseIsMoof := true

/-- The flags that the fields call for. -/
def flagBits (box : TrackFragmentHeader) : UInt32 :=
  flagIf box.baseDataOffset.isSome baseDataOffsetFlag |||
    flagIf box.descriptionIndex.isSome descriptionIndexFlag |||
    flagIf box.duration.isSome durationFlag |||
    flagIf box.size.isSome sizeFlag |||
    flagIf box.flags.isSome flagsFlag |||
    flagIf box.durationIsEmpty durationIsEmptyFlag |||
    flagIf box.baseIsMoof baseIsMoofFlag

def contentBytes (box : TrackFragmentHeader) : Bytes :=
  bigEndian 4 box.trackId.toNat ++
    OptionalField.wideBytes box.baseDataOffset ++
    OptionalField.bytes box.descriptionIndex ++ OptionalField.bytes box.duration ++
    OptionalField.bytes box.size ++ OptionalField.bytes box.flags

def detailLines (box : TrackFragmentHeader) (level : Nat) (indent : String) : List Line :=
  if level < 1 then []
  else
    [Line.field indent "trackID" (toString box.trackId.toNat)] ++
      OptionalField.line indent "baseDataOffset" (fun value => toString value.toNat)
        box.baseDataOffset ++
      OptionalField.line indent "sampleDescriptionIndex" (fun value => toString value.toNat)
        box.descriptionIndex ++
      OptionalField.line indent "defaultSampleDuration" (fun value => toString value.toNat)
        box.duration ++
      OptionalField.line indent "defaultSampleSize" (fun value => toString value.toNat) box.size ++
      OptionalField.line indent "defaultSampleFlags" (fun value => Text.hex 8 value.toNat)
        box.flags ++
      OptionalField.mark indent "durationIsEmpty" box.durationIsEmpty ++
      OptionalField.mark indent "defaultBaseIsMoof" box.baseIsMoof

instance : IsBox TrackFragmentHeader where
  name _ := .tfhd
  word box := some (.of 0 box.flagBits)
  contentSize box :=
    4 + OptionalField.size box.baseDataOffset 8 + OptionalField.size box.descriptionIndex 4 +
      OptionalField.size box.duration 4 + OptionalField.size box.size 4 +
      OptionalField.size box.flags 4
  contents box := .put box.contentBytes
  details box _ level indent _ := box.detailLines level indent

def read : Reader TrackFragmentHeader := do
  let word ← Reader.word
  let trackId ← Reader.uint32
  let baseDataOffset ← Reader.optional (word.has baseDataOffsetFlag) Reader.uint64
  let descriptionIndex ← Reader.optional (word.has descriptionIndexFlag) Reader.uint32
  let duration ← Reader.optional (word.has durationFlag) Reader.uint32
  let size ← Reader.optional (word.has sizeFlag) Reader.uint32
  let flags ← Reader.optional (word.has flagsFlag) Reader.uint32
  Reader.finish
  return {
    trackId, baseDataOffset, descriptionIndex, duration, size, flags
    durationIsEmpty := word.has durationIsEmptyFlag
    baseIsMoof := word.has baseIsMoofFlag }

def decodeContents (contents : Bytes) : Except Error TrackFragmentHeader :=
  read.run .tfhd contents

def decode (data : Bytes) : Except Error (TrackFragmentHeader × Nat) :=
  Box.decodeAs .tfhd decodeContents data

end TrackFragmentHeader
end FragmentedMp4
