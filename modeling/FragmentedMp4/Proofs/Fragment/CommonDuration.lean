import FragmentedMp4.Fragment.CommonDuration
import FragmentedMp4.Proofs.Fragment.Reading

/-!
# The durations of samples that are read

The common duration of a fragment is found from the entries of the selected track fragment alone.
When the samples of the fragment can be read, these have the durations that were looked at there.
So the common duration is the one that all samples have, and if there is none the error says why.
-/
namespace FragmentedMp4

/-- There are samples, and all of them have one duration that is not zero. -/
structure HaveDuration (samples : List Sample) (duration : UInt32) : Prop where
  some : samples ≠ []
  nonzero : duration ≠ 0
  all : ∀ sample ∈ samples, sample.duration = duration

theorem HaveDuration.unique {samples : List Sample} {first second : UInt32}
    (hfirst : HaveDuration samples first) (hsecond : HaveDuration samples second) :
    first = second := by
  obtain ⟨sample, hmem⟩ := List.exists_mem_of_ne_nil samples hfirst.some
  rw [← hfirst.all sample hmem, hsecond.all sample hmem]

/-- What the flaw says of samples that have no duration in common. -/
def DurationFlaw.Explains : DurationFlaw → List Sample → Prop
  | .noSamples, samples => samples = []
  | .different, samples =>
    ∃ first ∈ samples, ∃ second ∈ samples, first.duration ≠ second.duration
  | .zero, samples => samples ≠ [] ∧ ∀ sample ∈ samples, sample.duration = 0

theorem DurationFlaw.Explains.not_haveDuration {flaw : DurationFlaw} {samples : List Sample}
    (h : flaw.Explains samples) (duration : UInt32) : ¬ HaveDuration samples duration := by
  intro hhave
  cases flaw with
  | noSamples => exact hhave.some h
  | different =>
    obtain ⟨first, hfirst, second, hsecond, hne⟩ := h
    exact hne ((hhave.all first hfirst).trans (hhave.all second hsecond).symm)
  | zero =>
    obtain ⟨hsome, hzero⟩ := h
    obtain ⟨sample, hmem⟩ := List.exists_mem_of_ne_nil samples hsome
    exact hhave.nonzero ((hhave.all sample hmem).symm.trans (hzero sample hmem))

/-- Samples have a duration in common, or one of the flaws. -/
theorem commonDuration_cases (samples : List Sample) :
    (∃ duration, commonDuration (samples.map (·.duration)) = .ok duration ∧
      HaveDuration samples duration) ∨
    ∃ flaw, commonDuration (samples.map (·.duration)) = .error flaw ∧ flaw.Explains samples := by
  cases samples with
  | nil => exact .inr ⟨.noSamples, rfl, rfl⟩
  | cons first rest =>
    rw [List.map_cons, commonDuration]
    by_cases hdifferent : (rest.map (·.duration)).any (· != first.duration) = true
    · rw [if_pos hdifferent]
      obtain ⟨_, hmem, hne⟩ := List.any_eq_true.1 hdifferent
      obtain ⟨other, hother, rfl⟩ := List.mem_map.1 hmem
      exact .inr ⟨.different, rfl, other, List.mem_cons_of_mem _ hother, first,
        List.mem_cons_self .., bne_iff_ne.1 hne⟩
    · rw [if_neg hdifferent]
      have hall : ∀ sample ∈ first :: rest, sample.duration = first.duration := by
        simpa using hdifferent
      by_cases hzero : first.duration = 0
      · rw [if_pos hzero]
        exact .inr ⟨.zero, rfl, List.cons_ne_nil _ _, fun sample hmem =>
          (hall sample hmem).trans hzero⟩
      · rw [if_neg hzero]
        exact .inl ⟨_, rfl, List.cons_ne_nil _ _, hzero, hall⟩

namespace Playhead

variable {payload : Bytes} {available payloadOffset : Nat} {defaults : SampleDefaults}

theorem durations_readEntries {firstFlags : Option UInt32} {entries : List RunSample}
    {done : List Sample} {head : Playhead} {last : List Sample × Playhead} {default : UInt32}
    (hdefault : defaults.duration = some default)
    (h : readEntries payload available defaults firstFlags entries (done, head) = .ok last) :
    last.1.reverse.map (·.duration) = done.reverse.map (·.duration) ++
      entries.map fun entry => entry.duration.getD default := by
  induction entries generalizing firstFlags done head with
  | nil =>
    cases h
    rw [List.map_nil, List.append_nil]
  | cons entry entries ih =>
    obtain ⟨sample, next, hgives, hrest⟩ := readEntries_cons_eq_ok.1 h
    have hduration : entry.duration.getD default = sample.duration := by
      have hgiven := hgives.duration
      rw [hdefault] at hgiven
      cases hentry : entry.duration <;> simp_all
    simp only [ih hrest, List.reverse_cons, List.map_append, List.map_cons, List.map_nil,
      List.append_assoc, List.singleton_append, hduration]

theorem durations_readRuns {runs : List TrackRun} {done : List Sample} {head : Playhead}
    {last : List Sample × Playhead} {default : UInt32}
    (hdefault : defaults.duration = some default)
    (h : readRuns payloadOffset payload available defaults runs (done, head) = .ok last) :
    last.1.reverse.map (·.duration) = done.reverse.map (·.duration) ++
      runs.flatMap fun run => run.samples.map fun entry => entry.duration.getD default := by
  induction runs generalizing done head with
  | nil =>
    cases h
    rw [List.flatMap_nil, List.append_nil]
  | cons run runs ih =>
    obtain ⟨moved, ⟨soFar, next⟩, -, hentries, hrest⟩ := readRuns_cons_eq_ok.1 h
    rw [ih hrest, durations_readEntries hdefault hentries, List.flatMap_cons, List.append_assoc]

end Playhead

namespace Fragment

variable {fragment : Fragment} {trex : TrackExtends} {samples : List Sample}

theorem commonDuration_of_samples (h : fragment.samples (some trex) = .ok samples) :
    fragment.commonDuration trex =
      (FragmentedMp4.commonDuration (samples.map (·.duration))).mapError .noCommonDuration := by
  unfold Fragment.samples orFailure at h
  unfold commonDuration
  cases hselect : fragment.selectTrack (some trex) with
  | error error =>
    rw [hselect] at h
    cases h
  | ok selected =>
    obtain ⟨isFirst, track⟩ := selected
    rw [hselect] at h
    obtain ⟨-, -, head, hplays⟩ := readTrack_eq_ok h
    have hdefault : (track.sampleDefaults (some trex)).duration =
        some (track.header.duration.getD trex.duration) := by
      unfold TrackFragment.sampleDefaults
      cases track.header.duration <;> rfl
    have hread := Playhead.durations_readRuns hdefault hplays
    have hdurations : track.durations trex = samples.map (·.duration) := by
      rw [List.reverse_reverse, List.reverse_nil, List.map_nil, List.nil_append] at hread
      rw [hread]
      unfold TrackFragment.durations
      congr 1
      funext run
      apply List.map_congr_left
      intro entry _
      cases entry.duration <;> rfl
    rw [← hdurations]
    rfl

/-- Samples that can be read have a duration in common that is found, or a flaw that is. -/
theorem commonDuration_cases (h : fragment.samples (some trex) = .ok samples) :
    (∃ duration, fragment.commonDuration trex = .ok duration ∧ HaveDuration samples duration) ∨
    ∃ flaw, fragment.commonDuration trex = .error (.noCommonDuration flaw) ∧
      flaw.Explains samples := by
  rw [commonDuration_of_samples h]
  rcases FragmentedMp4.commonDuration_cases samples with ⟨duration, hok, hhave⟩ | ⟨flaw, hno, hflaw⟩
  · exact .inl ⟨duration, by rw [hok, mapError_ok], hhave⟩
  · exact .inr ⟨flaw, by rw [hno, mapError_error], hflaw⟩

end Fragment
end FragmentedMp4
