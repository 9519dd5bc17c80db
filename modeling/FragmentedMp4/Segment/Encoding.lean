import FragmentedMp4.Segment.Basic

/-!
# Writing and describing segments

The boxes of a segment are written in order: the segment type, then the index boxes and
the two boxes of each fragment. An error says which box could not be written and, from
the first index box on, in front of or in which fragment; fragments are counted from 1.
-/

namespace FragmentedMp4
namespace Segment

/-- The segment with its layout given to all of its fragments. Writing a segment leaves it
like this. -/
def prepared (segment : Segment) : Segment :=
  { segment with
    parts := segment.parts.map fun part =>
      { part with fragment := { part.fragment with layout := segment.layout } } }

/-- Goes over the segment type, the index boxes and the fragments, and says where an error
arose. -/
def visit {σ : Type} (onType : SegmentType → Writing σ Unit)
    (onIndex : SegmentIndex → Writing σ Unit) (onFragment : Fragment → Writing σ Unit)
    (segment : Segment) : Writing σ Unit := do
  segment.segmentType.toList.forM fun segmentType =>
    Writing.wrapping (.inBox .styp) (onType segmentType)
  segment.parts.zipIdx.forM fun (part, i) =>
    Writing.wrapping (.inFragment (i + 1)) do
      part.indexes.forM fun index => Writing.wrapping (.inBox .sidx) (onIndex index)
      onFragment part.fragment

/-- Writes the boxes of a prepared segment by a given action. -/
def writeBoxes {σ : Type} (put : AnyBox → Writing σ Unit) (segment : Segment) : Writing σ Unit :=
  segment.visit (fun box => put (.segmentType box)) (fun box => put (.segmentIndex box))
    (Fragment.write put)

def writeStream (segment : Segment) : Writing BoundedStream Unit :=
  segment.prepared.writeBoxes Box.writeStream

def writeBuffer (segment : Segment) : Writing FixedBuffer Unit :=
  segment.prepared.writeBoxes Box.writeBuffer

/-- Writes the description of every box, in the order in which they are written. -/
def describe (levels : DetailLevels) (indent step : String) (segment : Segment) :
    Writing BoundedStream Unit :=
  segment.visit (fun box => Box.describe box levels indent step)
    (fun box => Box.describe box levels indent step) (Fragment.describe levels indent step)

end Segment
end FragmentedMp4
