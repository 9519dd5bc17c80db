import FragmentedMp4.Box.TrackFragmentHeader
import FragmentedMp4.Box.TrackRun
import FragmentedMp4.Box.TrackDecodeTime

/-!
# Track fragment box

The runs of one track in a fragment, behind the header of the track fragment and,
if it is known, the decode time of the first sample.
-/

namespace FragmentedMp4

structure TrackFragment where
  header : TrackFragmentHeader
  runs : List TrackRun
  decodeTime : Option TrackDecodeTime
deriving DecidableEq

namespace TrackFragment

def trackId (box : TrackFragment) : UInt32 :=
  box.header.trackId

def sampleCount (box : TrackFragment) : Nat :=
  (box.runs.map TrackRun.sampleCount).foldr (· + ·) 0

def contentEmission (box : TrackFragment) : Emission :=
  Box.emission box.header ++
    (box.decodeTime.map (Box.emission ·)).getD (.put []) ++
    .concat (box.runs.map (Box.emission ·))

def detailLines (box : TrackFragment) (levels : DetailLevels) (indent step : String) :
    List Line :=
  Box.lines box.header levels indent step ++
    (box.decodeTime.map (Box.lines · levels indent step)).getD [] ++
    box.runs.flatMap (Box.lines · levels indent step)

instance : IsBox TrackFragment where
  name _ := .traf
  word _ := none
  contentSize box :=
    Box.size box.header + (box.decodeTime.map (Box.size ·)).getD 0 +
      (box.runs.map (Box.size ·)).foldr (· + ·) 0
  contents box := box.contentEmission
  details box levels _ indent step := box.detailLines levels indent step

/-- The children that have been read. -/
structure Children where
  header : Option TrackFragmentHeader
  decodeTime : Option TrackDecodeTime
  runs : List TrackRun

/-- Reads one child. The first header and the first decode time count; every other
child that is not a run is skipped. -/
def addChild (found : Children) (header : BoxHeader) (child : Bytes) : Except Error Children :=
  if header.name = .tfhd ∧ found.header = none then do
    return { found with header := some (← TrackFragmentHeader.decode child).1 }
  else if header.name = .tfdt ∧ found.decodeTime = none then do
    return { found with decodeTime := some (← TrackDecodeTime.decode child).1 }
  else if header.name = .trun then do
    return { found with runs := found.runs ++ [(← TrackRun.decode child).1] }
  else .ok found

def decodeContents (contents : Bytes) : Except Error TrackFragment := do
  let found ← Box.walk addChild ⟨none, none, []⟩ contents
  match found.header with
  | none => .error (.missingBox .tfhd "traf")
  | some header => .ok { header, runs := found.runs, decodeTime := found.decodeTime }

def decode (data : Bytes) : Except Error (TrackFragment × Nat) :=
  Box.decodeAs .traf decodeContents data

end TrackFragment
end FragmentedMp4
