import FragmentedMp4.Proofs.Segment.NormalForm

/-!
# How many samples a run has

The number of samples of a run is read before the samples, and a machine makes room for them. It
is not larger than the bytes of the run allow: samples that take bytes take four at least, and of
the others there are not many. This is so for every run of a segment that was read.
-/
namespace FragmentedMp4

theorem SampleFields.none_or_four_le (fields : SampleFields) :
    fields = .none ∨ 4 ≤ fields.sampleSize := by
  obtain ⟨duration, size, flags, compositionOffset⟩ := fields
  revert duration size flags compositionOffset
  decide

namespace TrackRun

/-- The number of samples that a run in some bytes does not exceed. -/
def sampleLimit (length : Nat) : Nat :=
  max (2 ^ 20) (length / 4)

theorem sampleLimit_mono {length more : Nat} (h : length ≤ more) :
    sampleLimit length ≤ sampleLimit more :=
  max_le_max le_rfl (Nat.div_le_div_right h)

/-- Samples that take bytes are not more than their bytes allow, and the others are few. -/
theorem sampleCount_le {contents : Bytes} {run : TrackRun}
    (h : decodeContents contents = .ok run) :
    run.samples.length ≤ sampleLimit contents.length := by
  obtain ⟨hfits, hsteady⟩ := accepted h
  rcases run.fields.none_or_four_le with hnone | hfour
  · exact (hsteady.countable hnone).trans (le_max_left _ _)
  · have hbytes : 4 * run.samples.length ≤ run.fields.sampleSize * run.samples.length :=
      Nat.mul_le_mul_right _ hfour
    have hroom : 4 + (4 + OptionalField.size run.dataOffset 4 +
        OptionalField.size run.firstSampleFlags 4 +
          run.fields.sampleSize * run.samples.length) ≤ contents.length := hfits
    exact le_max_of_le_right (by omega)

theorem sampleCount_le_of_decode {data : Bytes} {run : TrackRun} {used : Nat}
    (h : decode data = .ok (run, used)) : run.samples.length ≤ sampleLimit used := by
  obtain ⟨header, hparse, -, rfl, hcontents⟩ := Box.decodeAs_eq_ok h
  have hlength := Box.length_contents hparse
  exact (sampleCount_le hcontents).trans (sampleLimit_mono (by omega))

end TrackRun

namespace TrackFragment

def RunsWithin (length : Nat) (track : TrackFragment) : Prop :=
  ∀ run ∈ track.runs, run.samples.length ≤ TrackRun.sampleLimit length

theorem RunsWithin.mono {length more : Nat} {track : TrackFragment} (h : track.RunsWithin length)
    (hle : length ≤ more) : track.RunsWithin more :=
  fun run hmem => (h run hmem).trans (TrackRun.sampleLimit_mono hle)

theorem runsWithin_shift {length : Nat} (delta : Int) (isFirst : Bool) (track : TrackFragment) :
    (track.shift delta isFirst).1.RunsWithin length = track.RunsWithin length := by
  have hiff (track : TrackFragment) : track.RunsWithin length ↔
      ∀ samples ∈ track.runs.map (·.samples), samples.length ≤ TrackRun.sampleLimit length := by
    rw [List.forall_mem_map]
    rfl
  rw [eq_iff_iff, hiff, hiff, samples_shift]

def Children.RunsWithin (found : Children) (count : Nat) : Prop :=
  ∀ run ∈ found.runs, run.samples.length ≤ TrackRun.sampleLimit count

theorem Children.RunsWithin.addChild {found next : Children} {count : Nat} {header : BoxHeader}
    {child : Bytes} (hstep : TrackFragment.addChild found header child = .ok next)
    (h : found.RunsWithin count) : next.RunsWithin (count + child.length) := by
  have hold : found.RunsWithin (count + child.length) := fun run hmem =>
    (h run hmem).trans (TrackRun.sampleLimit_mono (by omega))
  unfold TrackFragment.addChild at hstep
  split_ifs at hstep
  · obtain ⟨pair, -, hstep⟩ := bind_eq_ok.1 hstep
    cases hstep
    exact hold
  · obtain ⟨pair, -, hstep⟩ := bind_eq_ok.1 hstep
    cases hstep
    exact hold
  · obtain ⟨⟨run, used⟩, hdecode, hstep⟩ := bind_eq_ok.1 hstep
    cases hstep
    have hused := (Box.size_of_decodeAs hdecode).2
    have hrun := (TrackRun.sampleCount_le_of_decode hdecode).trans
      (TrackRun.sampleLimit_mono (by omega : used ≤ count + child.length))
    intro other hmem
    rcases List.mem_append.1 hmem with hmem | hmem
    · exact hold other hmem
    · rwa [List.mem_singleton.1 hmem]
  · cases hstep
    exact hold

theorem runsWithin_of_decode {data : Bytes} {track : TrackFragment} {used : Nat}
    (h : decode data = .ok (track, used)) : track.RunsWithin used := by
  obtain ⟨header, hparse, -, rfl, hcontents⟩ := Box.decodeAs_eq_ok h
  obtain ⟨found, hwalk, hcontents⟩ := bind_eq_ok.1 hcontents
  have hstart : Children.RunsWithin ⟨none, none, []⟩ 0 := fun run hmem => nomatch hmem
  have hruns := Box.walk_induction Box.addsUp_length Children.RunsWithin.addChild hwalk hstart
  have hlength := Box.length_contents hparse
  split at hcontents
  · cases hcontents
  · cases hcontents
    exact fun run hmem => (hruns run hmem).trans (TrackRun.sampleLimit_mono (by omega))

end TrackFragment

namespace MovieFragment

def RunsWithin (length : Nat) (moof : MovieFragment) : Prop :=
  ∀ track ∈ moof.tracks, track.RunsWithin length

theorem RunsWithin.mono {length more : Nat} {moof : MovieFragment} (h : moof.RunsWithin length)
    (hle : length ≤ more) : moof.RunsWithin more :=
  fun track hmem => (h track hmem).mono hle

theorem RunsWithin.shift {length : Nat} {moof : MovieFragment} (h : moof.RunsWithin length)
    (delta : Int) : (moof.shift delta).1.RunsWithin length := by
  unfold MovieFragment.shift
  split_ifs
  · exact h
  · exact forall_of_map_eq
      (TrackFragment.map_shiftAll (TrackFragment.runsWithin_shift delta) moof.tracks) h

def Children.RunsWithin (found : Children) (count : Nat) : Prop :=
  ∀ track ∈ found.tracks, track.RunsWithin count

theorem Children.RunsWithin.addChild {found next : Children} {count : Nat} {header : BoxHeader}
    {child : Bytes} (hstep : MovieFragment.addChild found header child = .ok next)
    (h : found.RunsWithin count) : next.RunsWithin (count + child.length) := by
  have hold : found.RunsWithin (count + child.length) := fun track hmem =>
    (h track hmem).mono (by omega)
  unfold MovieFragment.addChild at hstep
  split_ifs at hstep
  · obtain ⟨pair, -, hstep⟩ := bind_eq_ok.1 hstep
    cases hstep
    exact hold
  · obtain ⟨⟨track, used⟩, hdecode, hstep⟩ := bind_eq_ok.1 hstep
    cases hstep
    have hused := (Box.size_of_decodeAs hdecode).2
    have htrack := (TrackFragment.runsWithin_of_decode hdecode).mono
      (by omega : used ≤ count + child.length)
    intro other hmem
    rcases List.mem_append.1 hmem with hmem | hmem
    · exact hold other hmem
    · rwa [List.mem_singleton.1 hmem]
  · cases hstep
    exact hold

theorem runsWithin_of_decode {data : Bytes} {moof : MovieFragment} {used : Nat}
    (h : decode data = .ok (moof, used)) : moof.RunsWithin used := by
  obtain ⟨header, hparse, -, rfl, hcontents⟩ := Box.decodeAs_eq_ok h
  obtain ⟨found, hwalk, hcontents⟩ := bind_eq_ok.1 hcontents
  have hstart : Children.RunsWithin ⟨none, []⟩ 0 := fun track hmem => nomatch hmem
  have htracks := Box.walk_induction Box.addsUp_length Children.RunsWithin.addChild hwalk hstart
  have hlength := Box.length_contents hparse
  split at hcontents
  · cases hcontents
  · cases hcontents
    exact fun track hmem => (htracks track hmem).mono (by omega)

end MovieFragment

namespace Fragment

theorem runsWithin_of_decode {data : Bytes} {fragment : Fragment} {used : Nat}
    (h : decode data = .ok (fragment, used)) : fragment.moof.RunsWithin used := by
  obtain ⟨moof, moofSize, _, mdatSize, hmoof, -, -, rfl, -, hmoved⟩ := decode_eq_ok h
  rw [MovieFragment.eq_of_shifted hmoved]
  exact ((MovieFragment.runsWithin_of_decode hmoof).mono (Nat.le_add_right _ _)).shift _

end Fragment

namespace Segment

variable {data : Bytes} {segment next : Segment} {header : BoxHeader} {isStart : Bool}
  {used : Nat}

def RunsWithin (segment : Segment) (length : Nat) : Prop :=
  ∀ fragment ∈ segment.fragments, fragment.moof.RunsWithin length

theorem fragments_decodeNext (h : decodeNext isStart segment header data = .ok (next, used)) :
    next.fragments = segment.fragments ∨
      ∃ fragment, Fragment.decode data = .ok (fragment, used) ∧
        next.fragments = segment.fragments ++ [fragment] := by
  unfold decodeNext at h
  split_ifs at h
  · obtain ⟨pair, -, h⟩ := bind_eq_ok.1 h
    cases h
    exact .inl rfl
  · obtain ⟨pair, -, h⟩ := bind_eq_ok.1 h
    cases h
    exact .inl rfl
  · obtain ⟨⟨fragment, size⟩, hdecode, h⟩ := bind_eq_ok.1 h
    cases h
    refine .inr ⟨fragment, mapError_eq_ok.1 hdecode, ?_⟩
    simp [fragments, addFragment]
  · cases h
    exact .inl rfl

theorem RunsWithin.decodeNext {count : Nat}
    (hnext : Segment.decodeNext isStart segment header data = .ok (next, used))
    (h : segment.RunsWithin count) : next.RunsWithin (count + used) := by
  have hold : segment.RunsWithin (count + used) := fun fragment hmem =>
    (h fragment hmem).mono (Nat.le_add_right _ _)
  rcases fragments_decodeNext hnext with hsame | ⟨fragment, hdecode, hmore⟩
  · unfold RunsWithin
    rwa [hsame]
  · intro other hmem
    rw [hmore] at hmem
    rcases List.mem_append.1 hmem with hmem | hmem
    · exact hold other hmem
    · rw [List.mem_singleton.1 hmem]
      exact (Fragment.runsWithin_of_decode hdecode).mono (Nat.le_add_left _ _)

theorem runsWithin_of_decodeAt {startPosition : UInt64}
    (h : decodeAt startPosition data = .ok segment) : segment.RunsWithin data.length := by
  let holds (_ : Bool) (segment : Segment) (rest : Bytes) : Prop :=
    ∃ count, count + rest.length ≤ data.length ∧ segment.RunsWithin count
  have hstart : holds true { ofType none with startPosition } data :=
    ⟨0, (Nat.zero_add _).le, fun fragment hmem => nomatch hmem⟩
  have hstep {isStart : Bool} {segment : Segment} {header : BoxHeader} {rest : Bytes}
      {next : Segment} {used : Nat} (hparse : BoxHeader.parse rest = .ok header)
      (hnext : Segment.decodeNext isStart segment header rest = .ok (next, used))
      (hbefore : holds isStart segment rest) : holds false next (rest.drop used) := by
    obtain ⟨count, hle, hruns⟩ := hbefore
    have hused := decodeNext_used hparse hnext
    refine ⟨count + used, ?_, hruns.decodeNext hnext⟩
    rw [List.length_drop]
    omega
  obtain ⟨_, count, hle, hend⟩ := @decodeFrom_keeps holds hstep true _ segment data h hstart
  exact fun fragment hmem => (hend fragment hmem).mono (Nat.le_of_add_right_le hle)

end Segment
end FragmentedMp4
