import FragmentedMp4.Box.Any

/-!
# Fragments

A movie fragment together with the media data that its samples lie in. The data
offsets of the runs count from the start of the movie fragment and point into the
payload of the media data.
-/

namespace FragmentedMp4

/-- How the runs of a fragment are laid out when it is written. -/
inductive RunLayout where
  /-- As they are stored. -/
  | stored
  /-- With values that the samples of a run share moved to the track fragment. -/
  | compact
deriving DecidableEq

structure Fragment where
  moof : MovieFragment
  mdat : MediaData
  layout : RunLayout
deriving DecidableEq

namespace Fragment

def ofBoxes (moof : MovieFragment) (mdat : MediaData) : Fragment :=
  ⟨moof, mdat, .stored⟩

/-- A fragment without samples, with a track fragment for each track. -/
def ofTracks (sequenceNumber : UInt32) (trackIds : List UInt32) : Fragment :=
  ofBoxes
    ⟨⟨sequenceNumber⟩, trackIds.map fun trackId => ⟨.ofTrack trackId, [], some (.ofTime 0)⟩⟩ ⟨[]⟩

def sequenceNumber (fragment : Fragment) : UInt32 :=
  fragment.moof.header.sequenceNumber

def trackId? (fragment : Fragment) : Option UInt32 :=
  fragment.moof.firstTrack?.map (·.trackId)

def trackIds (fragment : Fragment) : List UInt32 :=
  fragment.moof.tracks.map (·.trackId)

def sampleCount (fragment : Fragment) : Nat :=
  (fragment.moof.tracks.map (·.sampleCount)).foldr (· + ·) 0

def boxes (fragment : Fragment) : List AnyBox :=
  [.movieFragment fragment.moof, .mediaData fragment.mdat]

/-- Where the payload of the media data begins, counted from the start of the movie
fragment. -/
def payloadOffset (fragment : Fragment) : Nat :=
  Box.size fragment.moof + fragment.mdat.headerSize

end Fragment
end FragmentedMp4
