import FragmentedMp4.Box.Header
import FragmentedMp4.Box.VersionedTime

/-!
# Track fragment decode time box

The decode time of the first sample of a track fragment. It takes 32 bits in
version 0 and 64 bits in version 1; version 1 is written as soon as it is needed.
-/

namespace FragmentedMp4

structure TrackDecodeTime where
  /-- The version that was asked for. -/
  version : UInt8
  time : UInt64
deriving DecidableEq

namespace TrackDecodeTime

/-- A time in the wide form. -/
def ofTime (time : UInt64) : TrackDecodeTime :=
  ⟨1, time⟩

def writtenVersion (box : TrackDecodeTime) : UInt8 :=
  if VersionedTime.isWide box.time then 1 else box.version

instance : IsBox TrackDecodeTime where
  name _ := .tfdt
  word box := some (.of box.writtenVersion 0)
  contentSize box := VersionedTime.width box.writtenVersion
  contents box := .number (VersionedTime.width box.writtenVersion) box.time.toNat
  details box _ level indent _ :=
    if level < 1 then []
    else [.field indent "baseMediaDecodeTime" (toString box.time.toNat)]

def read : Reader TrackDecodeTime := do
  let word ← Reader.word
  let time ← VersionedTime.read word.version
  Reader.finish
  return ⟨word.version, time⟩

def decodeContents (contents : Bytes) : Except Error TrackDecodeTime :=
  read.run .tfdt contents

def decode (data : Bytes) : Except Error (TrackDecodeTime × Nat) :=
  Box.decodeAs .tfdt decodeContents data

end TrackDecodeTime
end FragmentedMp4
