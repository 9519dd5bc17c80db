import FragmentedMp4.Box.Header
import FragmentedMp4.Box.VersionedTime

/-!
# Segment index box

An index of subsegments. Times and offsets take 32 bits in version 0 and 64 bits
in version 1; version 1 is written as soon as one of them needs it.
-/

namespace FragmentedMp4

/-- One entry of an index. -/
structure IndexReference where
  /-- Set when the entry points at another index instead of media. -/
  toIndex : Bool
  /-- Stored in 31 bits. -/
  size : UInt32
  duration : UInt32
  startsWithSap : Bool
  /-- Stored in 3 bits. -/
  sapType : UInt8
  /-- Stored in 28 bits. -/
  sapDelta : UInt32
deriving DecidableEq

namespace IndexReference

def topBit (bit : Bool) : UInt32 :=
  if bit then 0x80000000 else 0

/-- The kind of the entry and its size. -/
def sizeWord (reference : IndexReference) : UInt32 :=
  topBit reference.toIndex ||| (reference.size &&& 0x7FFFFFFF)

/-- What is known of the access point. -/
def sapWord (reference : IndexReference) : UInt32 :=
  topBit reference.startsWithSap ||| ((reference.sapType.toUInt32 &&& 7) <<< 28) |||
    (reference.sapDelta &&& 0x0FFFFFFF)

def bytes (reference : IndexReference) : Bytes :=
  bigEndian 4 reference.sizeWord.toNat ++ bigEndian 4 reference.duration.toNat ++
    bigEndian 4 reference.sapWord.toNat

/-- The entry that three words stand for. -/
def ofWords (sizeWord duration sapWord : UInt32) : IndexReference where
  toIndex := sizeWord >>> 31 != 0
  size := sizeWord &&& 0x7FFFFFFF
  duration := duration
  startsWithSap := sapWord >>> 31 != 0
  sapType := ((sapWord >>> 28) &&& 7).toUInt8
  sapDelta := sapWord &&& 0x0FFFFFFF

def read : Reader IndexReference := do
  let sizeWord ← Reader.uint32
  let duration ← Reader.uint32
  let sapWord ← Reader.uint32
  return ofWords sizeWord duration sapWord

def describe (reference : IndexReference) : String :=
  s!"type={reference.toIndex.toNat} size={reference.size.toNat} " ++
    s!"duration={reference.duration.toNat} startsWithSAP={reference.startsWithSap.toNat} " ++
    s!"SAPType={reference.sapType.toNat} SAPDeltaTime={reference.sapDelta.toNat}"

end IndexReference

structure SegmentIndex where
  /-- The version that was asked for. -/
  version : UInt8
  referenceId : UInt32
  timescale : UInt32
  earliestTime : UInt64
  firstOffset : UInt64
  references : List IndexReference
deriving DecidableEq

namespace SegmentIndex

def writtenVersion (box : SegmentIndex) : UInt8 :=
  if VersionedTime.isWide box.earliestTime || VersionedTime.isWide box.firstOffset then 1
  else box.version

/-- The number of entries is stored in 16 bits. -/
def contentBytes (box : SegmentIndex) : Bytes :=
  bigEndian 4 box.referenceId.toNat ++ bigEndian 4 box.timescale.toNat ++
    bigEndian (VersionedTime.width box.writtenVersion) box.earliestTime.toNat ++
    bigEndian (VersionedTime.width box.writtenVersion) box.firstOffset.toNat ++
    bigEndian 2 0 ++ bigEndian 2 box.references.length ++
    box.references.flatMap IndexReference.bytes

/-- One line for each entry, counted from 1. -/
def referenceLines (box : SegmentIndex) (indent : String) : List Line :=
  box.references.mapIdx fun i reference =>
    .field indent s!"reference[{i + 1}]" reference.describe

def detailLines (box : SegmentIndex) (level : Nat) (indent : String) : List Line :=
  if level < 1 then []
  else
    [.field indent "referenceID" (toString box.referenceId.toNat),
      .field indent "timeScale" (toString box.timescale.toNat),
      .field indent "earliestPresentationTime" (toString box.earliestTime.toNat),
      .field indent "firstOffset" (toString box.firstOffset.toNat),
      .field indent "referenceCount" (toString box.references.length)] ++
      if 2 ≤ level then box.referenceLines indent else []

instance : IsBox SegmentIndex where
  name _ := .sidx
  word box := some (.of box.writtenVersion 0)
  contentSize box := 12 + 2 * VersionedTime.width box.writtenVersion + 12 * box.references.length
  contents box := .put box.contentBytes
  details box _ level indent _ := box.detailLines level indent

def read : Reader SegmentIndex := do
  let word ← Reader.word
  let referenceId ← Reader.uint32
  let timescale ← Reader.uint32
  let earliestTime ← VersionedTime.read word.version
  let firstOffset ← VersionedTime.read word.version
  let _reserved ← Reader.number 2
  let count ← Reader.number 2
  let references ← Reader.times count IndexReference.read
  Reader.finish
  return { version := word.version, referenceId, timescale, earliestTime, firstOffset, references }

def decodeContents (contents : Bytes) : Except Error SegmentIndex :=
  read.run .sidx contents

def decode (data : Bytes) : Except Error (SegmentIndex × Nat) :=
  Box.decodeAs .sidx decodeContents data

end SegmentIndex
end FragmentedMp4
