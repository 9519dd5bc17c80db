import FragmentedMp4.Box.Header
import FragmentedMp4.Box.Reader

/-!
# Segment type box

The brands of a media segment. It stands at the start of a segment, if at all.
-/

namespace FragmentedMp4

structure SegmentType where
  majorBrand : FourCC
  minorVersion : UInt32
  brands : List FourCC
deriving DecidableEq

namespace SegmentType

/-- The brands of a CMAF media segment. -/
def cmaf : SegmentType :=
  ⟨.msdh, 0, [.msdh, .msix]⟩

/-- The names of the brands, with commas between them. -/
def brandList (box : SegmentType) : String :=
  ", ".intercalate (box.brands.map FourCC.text)

instance : IsBox SegmentType where
  name _ := .styp
  word _ := none
  contentSize box := 8 + 4 * box.brands.length
  contents box :=
    .put box.majorBrand.bytes ++ .number 4 box.minorVersion.toNat ++
      .put (box.brands.flatMap FourCC.bytes)
  details box _ level indent _ :=
    if level < 1 then []
    else
      [.field indent "majorBrand" box.majorBrand.text,
        .field indent "minorVersion" (toString box.minorVersion.toNat),
        .field indent "compatibleBrands" box.brandList]

def read : Reader SegmentType := do
  let majorBrand ← Reader.fourCC
  let minorVersion ← Reader.uint32
  let left ← Reader.remaining
  if left % 4 ≠ 0 then Reader.fail (.invalidBox .styp .partialBrand)
  else
    let brands ← Reader.times (left / 4) Reader.fourCC
    return ⟨majorBrand, minorVersion, brands⟩

def decodeContents (contents : Bytes) : Except Error SegmentType :=
  read.run .styp contents

def decode (data : Bytes) : Except Error (SegmentType × Nat) :=
  Box.decodeAs .styp decodeContents data

end SegmentType
end FragmentedMp4
