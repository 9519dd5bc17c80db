import FragmentedMp4.Fragment.Encoding

/-!
# Media segments

A segment begins with a segment type box, if it has one. Then come its fragments, each
behind the index boxes that were added in front of it. Index boxes that were added
behind the last fragment wait for the next one; they are neither counted nor written.
-/

namespace FragmentedMp4

/-- A fragment and the index boxes in front of it. -/
structure SegmentPart where
  indexes : List SegmentIndex
  fragment : Fragment
deriving DecidableEq

structure Segment where
  segmentType : Option SegmentType
  parts : List SegmentPart
  /-- The index boxes that wait for a fragment. -/
  trailing : List SegmentIndex
  /-- The layout in which the fragments are written. -/
  layout : RunLayout
  /-- Where the segment begins in the file that it was read from. -/
  startPosition : UInt64
deriving DecidableEq

namespace Segment

def ofType (segmentType : Option SegmentType) : Segment :=
  ⟨segmentType, [], [], .stored, 0⟩

def cmaf : Segment :=
  ofType (some .cmaf)

def addIndex (segment : Segment) (index : SegmentIndex) : Segment :=
  { segment with trailing := segment.trailing ++ [index] }

def addFragment (segment : Segment) (fragment : Fragment) : Segment :=
  { segment with parts := segment.parts ++ [⟨segment.trailing, fragment⟩], trailing := [] }

def clearIndexes (segment : Segment) : Segment :=
  { segment with
    parts := segment.parts.map fun part => { part with indexes := [] }
    trailing := [] }

def fragments (segment : Segment) : List Fragment :=
  segment.parts.map (·.fragment)

def lastFragment? (segment : Segment) : Option Fragment :=
  segment.fragments.getLast?

def changeLastFragment (segment : Segment) (change : Fragment → Fragment) : Segment :=
  match segment.parts.getLast? with
  | none => segment
  | some part =>
    { segment with
      parts := segment.parts.dropLast ++ [{ part with fragment := change part.fragment }] }

/-- The index boxes in front of each fragment, and last those that wait for one, if
there are any. -/
def indexBuckets (segment : Segment) : List (List SegmentIndex) :=
  segment.parts.map (·.indexes) ++ if segment.trailing.isEmpty then [] else [segment.trailing]

/-- The index boxes in front of a fragment, counted from 0. -/
def indexesBefore (segment : Segment) (i : Nat) : List SegmentIndex :=
  (segment.indexBuckets[i]?).getD []

def firstIndex? (segment : Segment) : Option SegmentIndex :=
  segment.indexBuckets.flatten.head?

/-- The bytes that a part takes in a layout. -/
def partSize (layout : RunLayout) (part : SegmentPart) : Nat :=
  (part.indexes.map (Box.size ·)).foldr (· + ·) 0 + part.fragment.sizeIn layout

def size (segment : Segment) : Nat :=
  (segment.segmentType.map (Box.size ·)).getD 0 +
    (segment.parts.map (partSize segment.layout)).foldr (· + ·) 0

/-- The box that the segment begins with: the segment type, else the first index box in
front of the first fragment, else the movie fragment of that. -/
def firstBox (segment : Segment) : Except Error AnyBox :=
  match segment.segmentType with
  | some segmentType => .ok (.segmentType segmentType)
  | none =>
    match (segment.indexesBefore 0).head? with
    | some index => .ok (.segmentIndex index)
    | none =>
      match segment.fragments.head? with
      | some fragment => .ok (.movieFragment fragment.moof)
      | none => .error .noBoxes

end Segment
end FragmentedMp4
