import FragmentedMp4.Box.OptionalField
import FragmentedMp4.Box.Header
import FragmentedMp4.Box.Reader

/-!
# Track fragment run box

A run of samples whose data lies together. All samples of a run carry the same
optional fields, and a flag says of each field whether they carry it.
-/

namespace FragmentedMp4

/-- What a run stores of one sample. -/
structure RunSample where
  duration : Option UInt32
  size : Option UInt32
  flags : Option UInt32
  compositionOffset : Option Int32
deriving DecidableEq

/-- Which of its optional fields a sample carries. -/
structure SampleFields where
  duration : Bool
  size : Bool
  flags : Bool
  compositionOffset : Bool
deriving DecidableEq

namespace SampleFields

def durationFlag : UInt32 := 0x000100
def sizeFlag : UInt32 := 0x000200
def flagsFlag : UInt32 := 0x000400
def compositionOffsetFlag : UInt32 := 0x000800

def none : SampleFields :=
  ⟨false, false, false, false⟩

/-- The number of bytes that a sample with these fields takes. -/
def sampleSize (fields : SampleFields) : Nat :=
  4 * fields.duration.toNat + 4 * fields.size.toNat + 4 * fields.flags.toNat +
    4 * fields.compositionOffset.toNat

def flagBits (fields : SampleFields) : UInt32 :=
  flagIf fields.duration durationFlag ||| flagIf fields.size sizeFlag |||
    flagIf fields.flags flagsFlag ||| flagIf fields.compositionOffset compositionOffsetFlag

/-- The fields that the flags of a run announce. -/
def ofWord (word : VersionFlags) : SampleFields :=
  ⟨word.has durationFlag, word.has sizeFlag, word.has flagsFlag, word.has compositionOffsetFlag⟩

end SampleFields

namespace RunSample

def fields (sample : RunSample) : SampleFields :=
  ⟨sample.duration.isSome, sample.size.isSome, sample.flags.isSome,
    sample.compositionOffset.isSome⟩

def bytes (sample : RunSample) : Bytes :=
  OptionalField.bytes sample.duration ++ OptionalField.bytes sample.size ++
    OptionalField.bytes sample.flags ++
    OptionalField.bytes (sample.compositionOffset.map Int32.toUInt32)

/-- Composition offsets are read as signed numbers in every version. -/
def read (fields : SampleFields) : Reader RunSample := do
  let duration ← Reader.optional fields.duration Reader.uint32
  let size ← Reader.optional fields.size Reader.uint32
  let flags ← Reader.optional fields.flags Reader.uint32
  let compositionOffset ← Reader.optional fields.compositionOffset Reader.int32
  return { duration, size, flags, compositionOffset }

def describe (sample : RunSample) : String :=
  " ".intercalate
    ((sample.duration.map fun value => s!"dur={value.toNat}").toList ++
      (sample.size.map fun value => s!"size={value.toNat}").toList ++
      (sample.flags.map fun value => s!"flags={Text.hex 8 value.toNat}").toList ++
      (sample.compositionOffset.map fun value => s!"compTimeOffset={value.toInt}").toList)

theorem length_bytes (sample : RunSample) :
    sample.bytes.length = sample.fields.sampleSize := by
  have four {α : Type} (field : Option α) :
      OptionalField.size field 4 = 4 * field.isSome.toNat := by
    cases field <;> rfl
  simp [bytes, fields, SampleFields.sampleSize, four, Nat.add_assoc]

end RunSample

structure TrackRun where
  dataOffset : Option Int32
  /-- Takes the place of the flags of the first sample. -/
  firstSampleFlags : Option UInt32
  samples : List RunSample
deriving DecidableEq

namespace TrackRun

def dataOffsetFlag : UInt32 := 0x000001
def firstSampleFlagsFlag : UInt32 := 0x000004

/-- The largest number of samples that a run without fields may announce. -/
def maxFieldlessSamples : Nat := 0x100000

def sampleCount (box : TrackRun) : Nat :=
  box.samples.length

/-- The fields of the first sample, which all others must carry too. -/
def fields (box : TrackRun) : SampleFields :=
  match box.samples with
  | [] => .none
  | sample :: _ => sample.fields

/-- Negative composition offsets need version 1. -/
def version (box : TrackRun) : UInt8 :=
  if box.samples.any fun sample => sample.compositionOffset.any (· < 0) then 1 else 0

def flagBits (box : TrackRun) : UInt32 :=
  flagIf box.dataOffset.isSome dataOffsetFlag |||
    flagIf box.firstSampleFlags.isSome firstSampleFlagsFlag ||| box.fields.flagBits

/-- The bytes of one sample; it must carry the fields of the run. -/
def sampleEmission (fields : SampleFields) (i : Nat) (sample : RunSample) : Emission :=
  if sample.fields = fields then .put sample.bytes
  else .stop (.invalidBox .trun (.mixedSampleFields (i + 1)))

/-- The fields in front of the samples. -/
def headBytes (box : TrackRun) : Bytes :=
  bigEndian 4 box.samples.length ++
    OptionalField.bytes (box.dataOffset.map Int32.toUInt32) ++
    OptionalField.bytes box.firstSampleFlags

def contentEmission (box : TrackRun) : Emission :=
  if UInt32.size ≤ box.samples.length then .stop (.invalidBox .trun .tooManySamples)
  else .put box.headBytes ++ .concat (box.samples.mapIdx (sampleEmission box.fields))

def sampleLines (box : TrackRun) (indent : String) : List Line :=
  box.samples.mapIdx fun i sample => .field indent s!"sample[{i + 1}]" sample.describe

def detailLines (box : TrackRun) (level : Nat) (indent : String) : List Line :=
  if level < 1 then []
  else
    [Line.field indent "sampleCount" (toString box.samples.length)] ++
      OptionalField.line indent "dataOffset" (fun value => toString value.toInt)
        box.dataOffset ++
      OptionalField.line indent "firstSampleFlags" (fun value => Text.hex 8 value.toNat)
        box.firstSampleFlags ++
      if 2 ≤ level then box.sampleLines indent else []

instance : IsBox TrackRun where
  name _ := .trun
  word box := some (.of box.version box.flagBits)
  contentSize box :=
    4 + OptionalField.size box.dataOffset 4 +
      OptionalField.size box.firstSampleFlags 4 +
      box.fields.sampleSize * box.samples.length
  contents box := box.contentEmission
  details box _ level indent _ := box.detailLines level indent

/-- Reads the samples, which must fill the rest of the contents. -/
def readSamples (fields : SampleFields) (count : Nat) : Reader (List RunSample) := do
  let available ← Reader.remaining
  if fields.sampleSize = 0 ∧ maxFieldlessSamples < count then
    Reader.fail (.invalidBox .trun (.samplesWithoutFields count))
  else if fields.sampleSize * count ≠ available then
    Reader.fail (.invalidBox .trun (.samplesDoNotFit count fields.sampleSize available))
  else Reader.times count (RunSample.read fields)

def read : Reader TrackRun := do
  let word ← Reader.word
  let count ← Reader.number 4
  let dataOffset ← Reader.optional (word.has dataOffsetFlag) Reader.int32
  let firstSampleFlags ← Reader.optional (word.has firstSampleFlagsFlag) Reader.uint32
  let samples ← readSamples (.ofWord word) count
  return { dataOffset, firstSampleFlags, samples }

def decodeContents (contents : Bytes) : Except Error TrackRun :=
  read.run .trun contents

def decode (data : Bytes) : Except Error (TrackRun × Nat) :=
  Box.decodeAs .trun decodeContents data

end TrackRun
end FragmentedMp4
