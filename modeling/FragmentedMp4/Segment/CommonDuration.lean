import FragmentedMp4.Segment.Basic
import FragmentedMp4.Fragment.CommonDuration

/-!
# The common sample duration of a segment
-/

namespace FragmentedMp4
namespace Segment

/-- Compares the common durations of fragments, counted from `number`, with the one found
before. -/
def commonDurationFrom (trex : TrackExtends) :
    (number : Nat) → (found : Option UInt32) → List Fragment → Except Error (Option UInt32)
  | _, found, [] => .ok found
  | number, found, fragment :: fragments => do
    let duration ← (fragment.commonDuration trex).mapError (.inFragment number)
    match found with
    | none => commonDurationFrom trex (number + 1) (some duration) fragments
    | some expected =>
      if expected = duration then commonDurationFrom trex (number + 1) found fragments
      else .error (.durationMismatch number expected.toNat duration.toNat)

/-- The duration that all samples of all fragments have; 0 when there are no fragments. The
defaults of the track have to be known. -/
def commonDuration (segment : Segment) (trex : Option TrackExtends) : Except Error UInt32 :=
  match trex with
  | none => .error .missingDefaults
  | some trex => do return (← commonDurationFrom trex 1 none segment.fragments).getD 0

end Segment
end FragmentedMp4
