import FragmentedMp4.Proofs.Fragment.TrackLayout

/-!
# Fragments of several tracks that are built sample by sample

A sample is refused if its track is not in the fragment, if a later track has data, or if its
size is not that of its data. A sample that is refused changes nothing, and one that is taken
comes back from its track, at the end of the samples taken before it.
-/
namespace FragmentedMp4

namespace LaidOut

variable {offset : Int} {stored : List TrackSamples} {tracks : List TrackFragment}

theorem of_trackIds (offset : Int) (trackIds : List UInt32) :
    LaidOut offset (trackIds.map fun trackId => ⟨trackId, []⟩)
      (trackIds.map fun trackId => ⟨.ofTrack trackId, [], some (.ofTime 0)⟩) := by
  induction trackIds generalizing offset with
  | nil => exact .nil
  | cons trackId trackIds ih =>
    have hfirst : LaidOut offset (⟨trackId, []⟩ :: _)
        (TrackSamples.trackFragment ⟨trackId, []⟩ 0 :: _) :=
      .cons (fun hne => absurd rfl hne) (ih _)
    exact hfirst

theorem map_trackId (h : LaidOut offset stored tracks) :
    tracks.map (·.trackId) = stored.map (·.trackId) := by
  induction h with
  | nil => rfl
  | cons _ _ ih => rw [List.map_cons, List.map_cons, ih, TrackSamples.trackId_trackFragment]

theorem trackId_ne (h : LaidOut offset stored tracks) {trackId : UInt32}
    (hne : ∀ other ∈ stored, other.trackId ≠ trackId) :
    ∀ track ∈ tracks, track.trackId ≠ trackId := by
  intro track hmem hid
  have hstored : trackId ∈ stored.map (·.trackId) := by
    rw [← h.map_trackId]
    exact List.mem_map.2 ⟨track, hmem, hid⟩
  obtain ⟨other, hother, hsame⟩ := List.mem_map.1 hstored
  exact hne other hother hsame

theorem any_sampleCount (h : LaidOut offset stored tracks) :
    tracks.any (0 < ·.sampleCount) = true ↔ ∃ track ∈ stored, track.samples ≠ [] := by
  induction h with
  | nil => simp
  | cons _ _ ih =>
    rw [List.any_cons, Bool.or_eq_true, ih, TrackSamples.sampleCount_trackFragment]
    simp [List.length_pos_iff]

end LaidOut

theorem flatMap_data_of_empty {tracks : List TrackSamples}
    (h : ∀ stored ∈ tracks, stored.samples = []) : tracks.flatMap (·.data) = [] := by
  rw [List.flatMap_eq_nil_iff]
  intro stored hmem
  rw [TrackSamples.data, h stored hmem]
  rfl

/-- The data of a sample goes behind that of all others, if no later track has data. -/
theorem flatMap_data_push {before after : List TrackSamples} {stored : TrackSamples}
    (hafter : ∀ later ∈ after, later.samples = []) (sample : Sample) :
    (before ++ stored.push sample :: after).flatMap (·.data) =
      (before ++ stored :: after).flatMap (·.data) ++ sample.data := by
  simp [flatMap_data_of_empty hafter]

namespace Fragment

variable {fragment : Fragment} {sequenceNumber : UInt32} {sample : Sample}

theorem appendToTrack_of_notMem {trackId : UInt32}
    (h : trackId ∉ fragment.moof.tracks.map (·.trackId)) :
    fragment.appendToTrack sample trackId = ⟨fragment, some (.trackNotFound trackId)⟩ := by
  have hall : fragment.moof.tracks.dropWhile (·.trackId != trackId) = [] := by
    rw [List.dropWhile_eq_nil_iff]
    intro track hmem
    rw [bne_iff_ne]
    intro hid
    exact h (List.mem_map.2 ⟨track, hmem, hid⟩)
  unfold appendToTrack
  simp only [hall]

theorem appendToTrack_of_split {before after : List TrackFragment} {track : TrackFragment}
    {trackId : UInt32} (htracks : fragment.moof.tracks = before ++ track :: after)
    (hbefore : ∀ other ∈ before, other.trackId ≠ trackId) (hid : track.trackId = trackId)
    (hbase : track.header.baseDataOffset = none) :
    fragment.appendToTrack sample trackId =
      if after.any (0 < ·.sampleCount) then ⟨fragment, some (.interleavedTrackData trackId)⟩
      else if sample.data.length ≠ sample.size.toNat then
        ⟨fragment,
          some (.invalidBox .mdat (.payloadMismatch sample.size.toNat sample.data.length))⟩
      else fragment.appendAt before track after sample := by
  subst hid
  have hpass : ∀ other ∈ before, (other.trackId != track.trackId) = true := by
    simpa using hbefore
  have hdrop : fragment.moof.tracks.dropWhile (·.trackId != track.trackId) = track :: after := by
    rw [htracks, List.dropWhile_append_of_pos hpass, List.dropWhile_cons_of_neg (by simp)]
  have htake : fragment.moof.tracks.takeWhile (·.trackId != track.trackId) = before := by
    rw [htracks, List.takeWhile_append_of_pos hpass, List.takeWhile_cons_of_neg (by simp),
      List.append_nil]
  unfold appendToTrack
  simp only [hdrop, htake, hbase, Option.isSome_none, Bool.false_eq_true, if_false]

namespace Stores

theorem ofTracks (sequenceNumber : UInt32) (trackIds : List UInt32) :
    (Fragment.ofTracks sequenceNumber trackIds).Stores sequenceNumber
      (trackIds.map fun trackId => ⟨trackId, []⟩) := by
  refine ⟨⟨_, .of_trackIds _ trackIds, ?_⟩, ?_⟩
  · have hempty : (trackIds.map fun trackId => (⟨trackId, []⟩ : TrackSamples)).flatMap (·.data) =
        [] := by
      simp [TrackSamples.data]
    rw [hempty]
    rfl
  · simp

theorem map_trackId {tracks : List TrackSamples} (h : fragment.Stores sequenceNumber tracks) :
    fragment.moof.tracks.map (·.trackId) = tracks.map (·.trackId) := by
  obtain ⟨boxes, hlaid, hshape⟩ := h.shape
  rw [← hlaid.map_trackId, hshape]
  rfl

theorem payload {tracks : List TrackSamples} (h : fragment.Stores sequenceNumber tracks) :
    fragment.mdat.payload = tracks.flatMap (·.data) := by
  obtain ⟨_, -, hshape⟩ := h.shape
  rw [hshape]
  rfl

section Step

variable {before after : List TrackSamples} {stored : TrackSamples}
  (h : fragment.Stores sequenceNumber (before ++ stored :: after))
  (hbefore : ∀ other ∈ before, other.trackId ≠ stored.trackId)
include h hbefore

/-- A track takes no sample in front of data of a later one, and none with another size. -/
theorem append_refused
    (hrefused : (∃ later ∈ after, later.samples ≠ []) ∨ sample.data.length ≠ sample.size.toNat) :
    ∃ error, fragment.appendToTrack sample stored.trackId = ⟨fragment, some error⟩ := by
  obtain ⟨boxes, hlaid, hshape⟩ := h.shape
  obtain ⟨front, dataOffset, back, hboxes, hfront, -, hback⟩ := hlaid.split
  have htracks : fragment.moof.tracks = front ++ stored.trackFragment dataOffset :: back := by
    rw [← hboxes, hshape]
    rfl
  rw [appendToTrack_of_split htracks (hfront.trackId_ne hbefore)
    TrackSamples.trackId_trackFragment TrackSamples.baseDataOffset_trackFragment]
  by_cases hlater : ∃ later ∈ after, later.samples ≠ []
  · rw [if_pos (hback.any_sampleCount.2 hlater)]
    exact ⟨_, rfl⟩
  · rw [if_neg (fun hany => hlater (hback.any_sampleCount.1 hany)),
      if_pos (hrefused.resolve_left hlater)]
    exact ⟨_, rfl⟩

/-- Behind the last data, the sample makes the run of its track longer, or begins one. -/
theorem append_grows (hafter : ∀ later ∈ after, later.samples = [])
    (hsize : sample.data.length = sample.size.toNat) (hsmall : fragment.size < 2 ^ 31) :
    ∃ boxes, LaidOut fragment.payloadOffset (before ++ stored.push sample :: after) boxes ∧
      fragment.appendToTrack sample stored.trackId =
        (fragment.withTracks boxes).withData fragment.payloadOffset sample.data := by
  obtain ⟨boxes, hlaid, hshape⟩ := h.shape
  obtain ⟨front, dataOffset, back, hboxes, hfront, hoffset, hback⟩ := hlaid.split
  have htracks : fragment.moof.tracks = front ++ stored.trackFragment dataOffset :: back := by
    rw [← hboxes, hshape]
    rfl
  have hnone : ¬ back.any (0 < ·.sampleCount) = true := by
    intro hany
    obtain ⟨later, hmem, hne⟩ := hback.any_sampleCount.1 hany
    exact hne (hafter later hmem)
  rw [appendToTrack_of_split htracks (hfront.trackId_ne hbefore)
    TrackSamples.trackId_trackFragment TrackSamples.baseDataOffset_trackFragment, if_neg hnone,
    if_neg (not_not.2 hsize)]
  by_cases hempty : stored.samples = []
  · have hpayload : fragment.mdat.payload = before.flatMap (·.data) := by
      rw [h.payload, List.flatMap_append, List.flatMap_cons, flatMap_data_of_empty hafter,
        TrackSamples.data, hempty, List.flatMap_nil, List.append_nil, List.append_nil]
    have hend : fragment.payloadOffset + fragment.mdat.payload.length < 2 ^ 31 := by
      rwa [← size_of_stored (by rw [hshape]; rfl)]
    have hword : offsetWord? (fragment.payloadOffset + fragment.mdat.payload.length) =
        some (.ofInt (fragment.payloadOffset + fragment.mdat.payload.length)) :=
      if_pos ⟨by omega, by omega⟩
    rw [appendAt_of_empty (by rw [TrackSamples.sampleCount_trackFragment, hempty]; rfl), hword]
    simp only
    rw [TrackSamples.pushRun_trackFragment hempty]
    refine ⟨_, hfront.append (.cons (fun _ => ?_) (hback.of_empty hafter _)), rfl⟩
    rw [toInt_of_offsetWord? hword, hpayload]
  · rw [appendAt_of_carries (by rw [TrackSamples.sampleCount_trackFragment]; simpa using hempty)
      (TrackSamples.lastRunCarries_trackFragment hempty sample),
      TrackSamples.pushEntry_trackFragment hempty]
    exact ⟨_, hfront.append (.cons (fun _ => hoffset hempty) (hback.of_empty hafter _)), rfl⟩

/-- In a fragment that stays small, the sample is taken. -/
theorem append_taken (hafter : ∀ later ∈ after, later.samples = [])
    (hsize : sample.data.length = sample.size.toNat) (hsmall : fragment.size < 2 ^ 31)
    (hgrown : (fragment.appendToTrack sample stored.trackId).fragment.size < 2 ^ 31) :
    (fragment.appendToTrack sample stored.trackId).error = none ∧
      (fragment.appendToTrack sample stored.trackId).fragment.Stores sequenceNumber
        (before ++ stored.push sample :: after) := by
  obtain ⟨boxes, hlaid, happend⟩ := h.append_grows hbefore hafter hsize hsmall
  have hshape : { fragment.withTracks boxes with
      mdat := ⟨(fragment.withTracks boxes).mdat.payload ++ sample.data⟩ } =
      ofBoxes ⟨⟨sequenceNumber⟩, boxes⟩
        ⟨(before ++ stored.push sample :: after).flatMap (·.data)⟩ := by
    obtain ⟨_, -, hfragment⟩ := h.shape
    rw [hfragment, flatMap_data_push hafter]
    rfl
  rw [happend] at hgrown ⊢
  have hdone := withData_done hshape hlaid hgrown
  refine ⟨hdone, stores_withData hshape hlaid ?_ hdone⟩
  intro other hmem entry hentry
  rcases List.mem_append.1 hmem with hmem | hmem
  · exact h.sizes other (by simp [hmem]) entry hentry
  · rcases List.mem_cons.1 hmem with rfl | hmem
    · rcases List.mem_append.1 hentry with hentry | hentry
      · exact h.sizes stored (by simp) entry hentry
      · rw [List.mem_singleton.1 hentry]
        exact hsize
    · exact h.sizes other (by simp [hmem]) entry hentry

end Step
end Stores
end Fragment
end FragmentedMp4
