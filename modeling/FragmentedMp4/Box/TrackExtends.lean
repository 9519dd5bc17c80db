import FragmentedMp4.Box.Header
import FragmentedMp4.Box.Reader

/-!
# Track extends box

The values that samples of a track fall back on when neither they nor their
track fragment give their own.
-/

namespace FragmentedMp4

structure TrackExtends where
  trackId : UInt32
  descriptionIndex : UInt32
  duration : UInt32
  size : UInt32
  flags : UInt32
deriving DecidableEq

namespace TrackExtends

instance : IsBox TrackExtends where
  name _ := .trex
  word _ := some (.of 0 0)
  contentSize _ := 20
  contents box :=
    .number 4 box.trackId.toNat ++ .number 4 box.descriptionIndex.toNat ++
      .number 4 box.duration.toNat ++ .number 4 box.size.toNat ++ .number 4 box.flags.toNat
  details box _ level indent _ :=
    if level < 1 then []
    else
      [.field indent "trackID" (toString box.trackId.toNat),
        .field indent "defaultSampleDescriptionIndex" (toString box.descriptionIndex.toNat),
        .field indent "defaultSampleDuration" (toString box.duration.toNat),
        .field indent "defaultSampleSize" (toString box.size.toNat),
        .field indent "defaultSampleFlags" (Text.hex 8 box.flags.toNat)]

def read : Reader TrackExtends := do
  let _word ← Reader.word
  let trackId ← Reader.uint32
  let descriptionIndex ← Reader.uint32
  let duration ← Reader.uint32
  let size ← Reader.uint32
  let flags ← Reader.uint32
  Reader.finish
  return { trackId, descriptionIndex, duration, size, flags }

def decodeContents (contents : Bytes) : Except Error TrackExtends :=
  read.run .trex contents

def decode (data : Bytes) : Except Error (TrackExtends × Nat) :=
  Box.decodeAs .trex decodeContents data

end TrackExtends
end FragmentedMp4
