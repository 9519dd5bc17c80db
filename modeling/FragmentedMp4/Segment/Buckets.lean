import FragmentedMp4.Segment.Encoding

/-!
# Index boxes in buckets

A segment can be changed in a few ways, one after the other. Its index boxes can also be kept
in a list of buckets of their own beside the list of fragments: one bucket in front of each
fragment and, while index boxes wait for a fragment, one more. The bucket of the index box
that was added first is remembered. There a box is put into a bucket by its place in the
list, and a place behind the last bucket is no result.
-/

namespace FragmentedMp4
namespace Segment

/-- What can be done to a segment. -/
inductive Edit where
  | addIndex (index : SegmentIndex)
  | addFragment (fragment : Fragment)
  | clearIndexes
  /-- Writing to a stream or to a buffer, whether it comes through or not. -/
  | write
  /-- A change to the last fragment, such as a sample that is appended to it. -/
  | changeLast (change : Fragment → Fragment)

def edit (segment : Segment) : Edit → Segment
  | .addIndex index => segment.addIndex index
  | .addFragment fragment => segment.addFragment fragment
  | .clearIndexes => segment.clearIndexes
  | .write => segment.prepared
  | .changeLast change => segment.changeLastFragment change

def editAll (segment : Segment) (edits : List Edit) : Segment :=
  edits.foldl edit segment

end Segment

/-- A segment with its index boxes in buckets. -/
structure BucketedSegment where
  segmentType : Option SegmentType
  fragments : List Fragment
  buckets : List (List SegmentIndex)
  /-- The bucket that begins with the index box that was added first. -/
  firstBucket? : Option Nat
  layout : RunLayout
  startPosition : UInt64
deriving DecidableEq

namespace BucketedSegment

def ofType (segmentType : Option SegmentType) : BucketedSegment :=
  ⟨segmentType, [], [], none, .stored, 0⟩

/-- The segment with a bucket behind its last fragment. -/
def withOpenBucket (segment : BucketedSegment) : BucketedSegment :=
  if segment.buckets.length ≤ segment.fragments.length then
    { segment with buckets := segment.buckets ++ [[]] }
  else segment

/-- Puts an index box at the end of a bucket, if there is that bucket. -/
def pushInto (place : Nat) (index : SegmentIndex) (buckets : List (List SegmentIndex)) :
    Option (List (List SegmentIndex)) :=
  if place < buckets.length then some (buckets.modify place (· ++ [index])) else none

def addIndex (segment : BucketedSegment) (index : SegmentIndex) : Option BucketedSegment :=
  let place := segment.fragments.length
  (pushInto place index segment.withOpenBucket.buckets).map fun buckets =>
    { segment with buckets, firstBucket? := segment.firstBucket? <|> some place }

def addFragment (segment : BucketedSegment) (fragment : Fragment) : BucketedSegment :=
  { segment.withOpenBucket with fragments := segment.fragments ++ [fragment] }

def clearIndexes (segment : BucketedSegment) : BucketedSegment :=
  { segment with
    buckets := List.replicate segment.fragments.length []
    firstBucket? := none }

/-- Gives the layout of the segment to all of its fragments. -/
def prepared (segment : BucketedSegment) : BucketedSegment :=
  { segment with
    fragments := segment.fragments.map fun fragment => { fragment with layout := segment.layout } }

def changeLastFragment (segment : BucketedSegment) (change : Fragment → Fragment) :
    BucketedSegment :=
  { segment with
    fragments := segment.fragments.modify (segment.fragments.length - 1) change }

def firstIndex? (segment : BucketedSegment) : Option SegmentIndex :=
  segment.firstBucket?.bind fun place => segment.buckets[place]?.bind List.head?

def edit (segment : BucketedSegment) : Segment.Edit → Option BucketedSegment
  | .addIndex index => segment.addIndex index
  | .addFragment fragment => some (segment.addFragment fragment)
  | .clearIndexes => some segment.clearIndexes
  | .write => some segment.prepared
  | .changeLast change => some (segment.changeLastFragment change)

def editAll (segment : BucketedSegment) (edits : List Segment.Edit) : Option BucketedSegment :=
  edits.foldlM edit segment

end BucketedSegment
end FragmentedMp4
