import FragmentedMp4.Box.Header
import FragmentedMp4.Box.Reader

/-!
# Movie fragment header box

The sequence number of a fragment.
-/

namespace FragmentedMp4

structure MovieFragmentHeader where
  sequenceNumber : UInt32
deriving DecidableEq

namespace MovieFragmentHeader

instance : IsBox MovieFragmentHeader where
  name _ := .mfhd
  word _ := some (.of 0 0)
  contentSize _ := 4
  contents box := .number 4 box.sequenceNumber.toNat
  details box _ level indent _ :=
    if level < 1 then []
    else [.field indent "sequenceNumber" (toString box.sequenceNumber.toNat)]

def read : Reader MovieFragmentHeader := do
  let _word ← Reader.word
  let sequenceNumber ← Reader.uint32
  Reader.finish
  return ⟨sequenceNumber⟩

def decodeContents (contents : Bytes) : Except Error MovieFragmentHeader :=
  read.run .mfhd contents

def decode (data : Bytes) : Except Error (MovieFragmentHeader × Nat) :=
  Box.decodeAs .mfhd decodeContents data

end MovieFragmentHeader
end FragmentedMp4
