import FragmentedMp4.Segment.Basic
import FragmentedMp4.Fragment.Append
import FragmentedMp4.Fragment.Samples

/-!
# Cutting a segment anew

The samples of a segment are placed into new fragments, in order. A fragment is closed
as soon as its samples last for the target duration; a sample that is placed while no
time has passed in the open fragment begins a new one. A new fragment takes the sequence
number and the track of the fragment that its first sample comes from.
-/

namespace FragmentedMp4

/-- Fragments that are being cut. -/
structure Cutting where
  closed : List Fragment
  current : Option Fragment
  /-- The duration of the samples in the open fragment. -/
  elapsed : Nat

namespace Cutting

def start : Cutting :=
  ⟨[], none, 0⟩

def close (cutting : Cutting) : Cutting :=
  ⟨cutting.closed ++ cutting.current.toList, none, 0⟩

def place (target : Nat) (sequenceNumber trackId : UInt32) (cutting : Cutting)
    (sample : Sample) : Except Error Cutting :=
  let ready := if cutting.elapsed = 0 then cutting.close else cutting
  let fragment := ready.current.getD (.ofTracks sequenceNumber [trackId])
  let attempt := fragment.appendToTrack sample trackId
  match attempt.error with
  | some error => .error error
  | none =>
    let elapsed := ready.elapsed + sample.duration.toNat
    let filled : Cutting := ⟨ready.closed, some attempt.fragment, elapsed⟩
    .ok (if target ≤ elapsed then filled.close else filled)

def placeFragment (target : Nat) (trex : TrackExtends) (cutting : Cutting)
    (fragment : Fragment) : Except Failure Cutting := do
  match fragment.trackId? with
  | none => .error (.error (.missingBox .traf "moof"))
  | some trackId =>
    let samples ← fragment.samples (some trex)
    orFailure (samples.foldlM (place target fragment.sequenceNumber trackId) cutting)

end Cutting

namespace Fragment

/-- Only fragments with one track fragment that has at most one run are cut anew. -/
def checkSingleRun (fragment : Fragment) : Except Error Unit :=
  match fragment.moof.tracks with
  | [track] =>
    if track.runs.length ≤ 1 then .ok ()
    else .error (.unsupported (.recutRuns track.runs.length))
  | tracks => .error (.unsupported (.recutTracks tracks.length))

end Fragment

namespace Segment

/-- Adds the place of a fragment, counted from 0, to the failure that it caused. -/
def atFragment {α : Type} (i : Nat) (result : Except Failure α) : Except Failure α :=
  result.mapError (Failure.mapError (.inFragment (i + 1)))

/-- The samples of the segment in new fragments that last for a target duration each,
except possibly the last one. -/
def recut (segment : Segment) (trex : TrackExtends) (target : Nat) :
    Except Failure (List Fragment) := do
  segment.fragments.zipIdx.forM fun (fragment, i) =>
    atFragment i (orFailure fragment.checkSingleRun)
  let cutting ← segment.fragments.zipIdx.foldlM (fun cutting (fragment, i) =>
    atFragment i (cutting.placeFragment target trex fragment)) Cutting.start
  return cutting.close.closed

end Segment
end FragmentedMp4
