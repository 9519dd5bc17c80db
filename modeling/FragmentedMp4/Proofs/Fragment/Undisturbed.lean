import FragmentedMp4.Proofs.Fragment.ReadBack

/-!
# Appending disturbs nothing

A sample that was appended changes one track fragment and puts its data behind the payload. The
movie fragment may grow, and then all data offsets that count from its start move as far as the
payload does. So every track gives the samples that it gave before, and only the one that the
sample was appended to gives one more.
-/
namespace FragmentedMp4

theorem TrackFragment.trackId_openedFor (track : TrackFragment) (sample : Sample) :
    (track.openedFor sample).trackId = track.trackId := by
  unfold openedFor
  split_ifs <;> rfl

theorem TrackFragment.trackId_pushEntry (track : TrackFragment) (entry : RunSample) :
    (track.pushEntry entry).trackId = track.trackId :=
  congrArg TrackFragmentHeader.trackId (track.header_pushEntry entry)

namespace Fragment

variable {fragment : Fragment} {before after front back : List TrackFragment}
  {track changed kept : TrackFragment} {trackId target : UInt32} {trex : Option TrackExtends}
  {samples : List Sample} {sample : Sample}

/-- A sample that was taken has changed one track fragment, which is still of its track, and its
data stands behind the payload. -/
theorem exists_changed_of_append (h : (fragment.appendToTrack sample target).error = none) :
    ∃ before track changed after, fragment.moof.tracks = before ++ track :: after ∧
      track.trackId = target ∧ changed.trackId = target ∧
      fragment.appendToTrack sample target =
        (fragment.withTracks (before ++ changed :: after)).withData fragment.payloadOffset
          sample.data := by
  obtain ⟨before, track, after, hsplit, -, hid, -, -, -, htaken⟩ := appendToTrack_eq_none h
  rw [htaken] at h ⊢
  rcases fragment.appendAt_cases before track after sample with ⟨-, hjoined⟩ |
    ⟨-, hrefused | ⟨-, hnoroom⟩ | ⟨dataOffset, -, hrun⟩⟩
  · exact ⟨before, track, _, after, hsplit, hid, (track.trackId_pushEntry _).trans hid, hjoined⟩
  · rw [hrefused] at h
    cases h
  · rw [hnoroom] at h
    cases h
  · refine ⟨before, track, _, after, hsplit, hid, ?_, hrun⟩
    rw [TrackFragment.trackId_pushEntry]
    exact (track.trackId_openedFor sample).trans hid

theorem split_of_replaced (hsplit : before ++ track :: after = front ++ kept :: back)
    (hfront : ∀ other ∈ front, other.trackId ≠ kept.trackId)
    (htrack : track.trackId ≠ kept.trackId) (hchanged : changed.trackId ≠ kept.trackId) :
    ∃ front' back', before ++ changed :: after = front' ++ kept :: back' ∧
      front'.isEmpty = front.isEmpty ∧ ∀ other ∈ front', other.trackId ≠ kept.trackId := by
  rcases List.append_eq_append_iff.1 hsplit with ⟨middle, rfl, hmiddle⟩ | ⟨middle, rfl, hmiddle⟩
  · cases middle with
    | nil =>
      obtain rfl : track = kept := (List.cons.inj hmiddle).1
      exact absurd rfl htrack
    | cons first middle =>
      obtain ⟨rfl, rfl⟩ := List.cons.inj hmiddle
      refine ⟨before ++ changed :: middle, back, by simp, by cases before <;> rfl,
        fun other hmem => ?_⟩
      rcases List.mem_append.1 hmem with hmem | hmem
      · exact hfront other (by simp [hmem])
      · rcases List.mem_cons.1 hmem with rfl | hmem
        · exact hchanged
        · exact hfront other (by simp [hmem])
  · cases middle with
    | nil =>
      obtain rfl : kept = track := (List.cons.inj hmiddle).1
      exact absurd rfl htrack
    | cons first middle =>
      obtain ⟨rfl, rfl⟩ := List.cons.inj hmiddle
      exact ⟨front, middle ++ changed :: after, by simp, rfl, hfront⟩

theorem exists_split_of_trackSamples (h : fragment.trackSamples trackId trex = .ok samples) :
    ∃ front kept back, fragment.moof.tracks = front ++ kept :: back ∧ kept.trackId = trackId ∧
      ∀ other ∈ front, other.trackId ≠ trackId := by
  unfold trackSamples findTrack MovieFragment.track? at h
  cases hfound : fragment.moof.tracks.find? (·.trackId == trackId) with
  | none =>
    rw [hfound] at h
    cases h
  | some kept =>
    obtain ⟨hid, front, back, hsplit, hfront⟩ := List.find?_eq_some_iff_append.1 hfound
    exact ⟨front, kept, back, hsplit, by simpa using hid, by simpa using hfront⟩

/-- A sample that goes to another track leaves the samples of a track as they are. -/
theorem trackSamples_append_other (hread : fragment.trackSamples trackId trex = .ok samples)
    (happend : (fragment.appendToTrack sample target).error = none) (hother : target ≠ trackId) :
    (fragment.appendToTrack sample target).fragment.trackSamples trackId trex = .ok samples := by
  obtain ⟨before, track, changed, after, hsplit, rfl, hchanged, htaken⟩ :=
    exists_changed_of_append happend
  obtain ⟨front, kept, back, hkept, rfl, hfront⟩ := exists_split_of_trackSamples hread
  rw [trackSamples_of_split hkept hfront] at hread
  obtain ⟨hbase, hplace, head, hplays⟩ := readTrack_eq_ok hread
  obtain ⟨front', back', hsplit', hempty, hfront'⟩ := split_of_replaced (hsplit.symm.trans hkept)
    hfront hother (hchanged ▸ hother)
  rw [htaken] at happend ⊢
  -- what the track fragment finds in the longer payload is what it found before
  rw [← hempty] at hplace
  exact (trackSamples_withData hsplit' hfront' hbase hplace happend trex samples).2
    ⟨head, Playhead.readRuns_longer sample.data hplays⟩

/-- A sample that was appended disturbs nothing: all other tracks give the samples that they gave,
its own track gives one more behind them, and its data stands behind the payload that was there.
Only the end of the new sample has to be a time that fits. -/
theorem append_disturbs_nothing (hread : fragment.trackSamples trackId trex = .ok samples)
    (happend : (fragment.appendToTrack sample target).error = none)
    (htime : target = trackId →
      (Sample.timeAfter sample.decodeTime samples).toNat + sample.duration.toNat < UInt64.size) :
    (target ≠ trackId →
      (fragment.appendToTrack sample target).fragment.trackSamples trackId trex = .ok samples) ∧
    (target = trackId →
      ∃ last, (fragment.appendToTrack sample target).fragment.trackSamples trackId trex =
        .ok (samples ++ [last])) ∧
    (fragment.appendToTrack sample target).fragment.mdat.payload =
      fragment.mdat.payload ++ sample.data := by
  refine ⟨trackSamples_append_other hread happend, ?_, ?_⟩
  · rintro rfl
    obtain ⟨_, _, -, -, hafter⟩ := trackSamples_append hread happend (htime rfl)
    exact ⟨_, hafter⟩
  · obtain ⟨before, track, changed, after, -, -, -, htaken⟩ := exists_changed_of_append happend
    rw [htaken]
    rfl

/-- The second run of the first track goes on where the first one ended, and the second track has
an empty run and no decode time. Both tracks take a sample; the movie fragment grows by another
amount each time. -/
theorem append_disturbs_nothing_in_either_track :
    let fragment := ofBoxes
      ⟨⟨1⟩, [⟨.ofTrack 1, [⟨some 177, none, [⟨some 10, some 1, some 0, none⟩]⟩,
          ⟨none, none, [⟨some 10, some 2, some 0, none⟩]⟩], some (.ofTime 0)⟩,
        ⟨.ofTrack 2, [⟨none, none, []⟩], none⟩]⟩ ⟨[9, 1, 2, 3]⟩
    let samples : List Sample := [⟨0, 10, 1, 0, 0, [1]⟩, ⟨0, 10, 2, 0, 10, [2, 3]⟩]
    let sample : Sample := ⟨0, 5, 1, -1, 20, [4]⟩
    fragment.trackSamples 1 none = .ok samples ∧
      (fragment.appendToTrack sample 2).error = none ∧
      (fragment.appendToTrack sample 2).fragment.trackSamples 1 none = .ok samples ∧
      (fragment.appendToTrack sample 1).error = none ∧
      ∃ last, (fragment.appendToTrack sample 1).fragment.trackSamples 1 none =
        .ok (samples ++ [last]) := by
  intro fragment samples sample
  have hread : fragment.trackSamples 1 none = .ok samples := by decide +kernel
  have hother : (fragment.appendToTrack sample 2).error = none := by decide +kernel
  have hself : (fragment.appendToTrack sample 1).error = none := by decide +kernel
  refine ⟨hread, hother, ?_, hself, ?_⟩
  · exact (append_disturbs_nothing hread hother (by decide)).1 (by decide)
  · exact (append_disturbs_nothing hread hself fun _ => by decide).2.1 rfl

end Fragment
end FragmentedMp4
