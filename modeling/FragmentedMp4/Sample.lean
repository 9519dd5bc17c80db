import FragmentedMp4.Error

/-!
# Samples

A sample with all of its values and its data. Times are counted in units of the
track's timescale, and a time that does not fit its 64-bit word is no result.
-/

namespace FragmentedMp4

structure Sample where
  flags : UInt32
  duration : UInt32
  size : UInt32
  compositionOffset : Int32
  decodeTime : UInt64
  data : Bytes
deriving DecidableEq

namespace Sample

/-- The flag of samples that depend on other samples. -/
def dependentFlag : UInt32 := 0x10000

def isSync (sample : Sample) : Bool :=
  sample.flags &&& dependentFlag == 0

/-- The sum of two unsigned 64-bit words, if it fits one. -/
def addUnsigned (left right : Nat) : Except Failure UInt64 :=
  if left + right < UInt64.size then .ok (UInt64.ofNat (left + right)) else .error .overflow

/-- The decode time of a sample that follows without a gap. -/
def endTime (sample : Sample) : Except Failure UInt64 :=
  addUnsigned sample.decodeTime.toNat sample.duration.toNat

/-- When the sample is shown: the decode time, taken as a signed word, plus the
composition offset. -/
def presentationTime (sample : Sample) : Except Failure Int64 :=
  let time := sample.decodeTime.toInt64.toInt + sample.compositionOffset.toInt
  if -0x8000000000000000 ≤ time ∧ time < 0x8000000000000000 then .ok (Int64.ofInt time)
  else .error .overflow

theorem addUnsigned_eq_ok {left right : Nat} {sum : UInt64}
    (h : addUnsigned left right = .ok sum) : sum.toNat = left + right := by
  unfold addUnsigned at h
  split at h
  · cases h
    rename_i hlt
    exact UInt64.toNat_ofNat_of_lt' hlt
  · cases h

end Sample
end FragmentedMp4
