import FragmentedMp4.Box.Header

/-!
# Media data box

The sample data of a fragment.
-/

namespace FragmentedMp4

structure MediaData where
  payload : Bytes
deriving DecidableEq

namespace MediaData

instance : IsBox MediaData where
  name _ := .mdat
  word _ := none
  contentSize box := box.payload.length
  contents box := .put box.payload
  details box _ level indent _ :=
    if level < 1 then []
    else [.field indent "payloadSize" (toString box.payload.length)]

/-- The number of bytes in front of the payload. -/
def headerSize (box : MediaData) : Nat :=
  Box.size box - box.payload.length

/-- Any bytes are sample data. -/
def decodeContents (contents : Bytes) : Except Error MediaData :=
  .ok ⟨contents⟩

def decode (data : Bytes) : Except Error (MediaData × Nat) :=
  Box.decodeAs .mdat decodeContents data

end MediaData
end FragmentedMp4
