import FragmentedMp4.Box.TrackFragment
import FragmentedMp4.Box.MovieFragmentHeader

/-!
# Movie fragment box

The track fragments of a fragment, behind its header.
-/

namespace FragmentedMp4

structure MovieFragment where
  header : MovieFragmentHeader
  tracks : List TrackFragment
deriving DecidableEq

namespace MovieFragment

def firstTrack? (box : MovieFragment) : Option TrackFragment :=
  box.tracks.head?

/-- The first track fragment of a track. -/
def track? (box : MovieFragment) (trackId : UInt32) : Option TrackFragment :=
  box.tracks.find? (·.trackId == trackId)

def contentEmission (box : MovieFragment) : Emission :=
  Box.emission box.header ++ .concat (box.tracks.map (Box.emission ·))

instance : IsBox MovieFragment where
  name _ := .moof
  word _ := none
  contentSize box := Box.size box.header + (box.tracks.map (Box.size ·)).foldr (· + ·) 0
  contents box := box.contentEmission
  details box levels _ indent step :=
    Box.lines box.header levels indent step ++ box.tracks.flatMap (Box.lines · levels indent step)

/-- The children that have been read. -/
structure Children where
  header : Option MovieFragmentHeader
  tracks : List TrackFragment

/-- Reads one child. The first header counts; every other child that is not a track
fragment is skipped. -/
def addChild (found : Children) (header : BoxHeader) (child : Bytes) : Except Error Children :=
  if header.name = .mfhd ∧ found.header = none then do
    return { found with header := some (← MovieFragmentHeader.decode child).1 }
  else if header.name = .traf then do
    return { found with tracks := found.tracks ++ [(← TrackFragment.decode child).1] }
  else .ok found

def decodeContents (contents : Bytes) : Except Error MovieFragment := do
  let found ← Box.walk addChild ⟨none, []⟩ contents
  match found.header with
  | none => .error (.missingBox .mfhd "moof")
  | some header => .ok { header, tracks := found.tracks }

def decode (data : Bytes) : Except Error (MovieFragment × Nat) :=
  Box.decodeAs .moof decodeContents data

end MovieFragment
end FragmentedMp4
