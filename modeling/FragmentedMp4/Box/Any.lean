import FragmentedMp4.Box.SegmentType
import FragmentedMp4.Box.SegmentIndex
import FragmentedMp4.Box.MovieFragment
import FragmentedMp4.Box.MediaData
import FragmentedMp4.Box.TrackExtends

/-!
# A box of any type

The boxes that this library reads and writes, as one type.
-/

namespace FragmentedMp4

inductive AnyBox where
  | segmentType (box : SegmentType)
  | segmentIndex (box : SegmentIndex)
  | movieFragment (box : MovieFragment)
  | movieFragmentHeader (box : MovieFragmentHeader)
  | trackFragment (box : TrackFragment)
  | trackFragmentHeader (box : TrackFragmentHeader)
  | trackDecodeTime (box : TrackDecodeTime)
  | trackRun (box : TrackRun)
  | trackExtends (box : TrackExtends)
  | mediaData (box : MediaData)
deriving DecidableEq

namespace AnyBox

/-- What every type of box can give, taken from the box inside. -/
def view {β : Type} (use : {α : Type} → [IsBox α] → α → β) : AnyBox → β
  | segmentType box => use box
  | segmentIndex box => use box
  | movieFragment box => use box
  | movieFragmentHeader box => use box
  | trackFragment box => use box
  | trackFragmentHeader box => use box
  | trackDecodeTime box => use box
  | trackRun box => use box
  | trackExtends box => use box
  | mediaData box => use box

instance : IsBox AnyBox where
  name := view IsBox.name
  word := view IsBox.word
  contentSize := view IsBox.contentSize
  contents := view IsBox.contents
  details := view IsBox.details

end AnyBox
end FragmentedMp4
