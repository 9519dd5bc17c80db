import FragmentedMp4.Fragment.Samples

/-!
# The common sample duration of a fragment

Found from the entries of the runs alone: the data of the samples does not matter.
-/

namespace FragmentedMp4

namespace TrackFragment

def durations (track : TrackFragment) (trex : TrackExtends) : List UInt32 :=
  track.runs.flatMap fun run =>
    run.samples.map fun entry =>
      (entry.duration <|> track.header.duration).getD trex.duration

end TrackFragment

/-- The value of a list whose items are all the same and not zero. -/
def commonDuration : List UInt32 → Except DurationFlaw UInt32
  | [] => .error .noSamples
  | first :: rest =>
    if rest.any (· != first) then .error .different
    else if first = 0 then .error .zero
    else .ok first

namespace Fragment

/-- The duration that all samples of the selected track fragment have. -/
def commonDuration (fragment : Fragment) (trex : TrackExtends) : Except Error UInt32 := do
  let (_, track) ← fragment.selectTrack (some trex)
  (FragmentedMp4.commonDuration (track.durations trex)).mapError .noCommonDuration

end Fragment
end FragmentedMp4
