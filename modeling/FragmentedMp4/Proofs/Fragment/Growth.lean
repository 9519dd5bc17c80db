import FragmentedMp4.Proofs.Fragment.Appending
import FragmentedMp4.Proofs.Fragment.Words

/-!
# Appending samples in machine words

A sample that is appended adds an entry to a run, or a run and a decode time to its track fragment,
so the payload moves by no more than a few bytes. Hence all sums that appending makes fit their
words as long as the fragment is not too large.
-/
namespace FragmentedMp4

theorem Box.sizeOfBody_le {body old : Nat} (more : Nat) (h : body ≤ old + more) :
    sizeOfBody body ≤ sizeOfBody old + (more + 8) := by
  unfold sizeOfBody headerSize largeHeaderSize
  split_ifs <;> omega

theorem Box.sizeOfBody_le_add (body : Nat) : sizeOfBody body ≤ body + 16 := by
  unfold sizeOfBody headerSize largeHeaderSize
  split_ifs <;> omega

theorem Box.eight_le_size {α : Type} [IsBox α] (box : α) : 8 ≤ size box := by
  have hbody (body : Nat) : 8 ≤ sizeOfBody body := by
    unfold sizeOfBody headerSize largeHeaderSize
    split_ifs <;> omega
  exact hbody _

theorem TrackDecodeTime.size_le (time : TrackDecodeTime) : Box.size time ≤ 20 := by
  have hwidth : VersionedTime.width time.writtenVersion ≤ 8 := by
    unfold VersionedTime.width
    split_ifs <;> decide
  change Box.sizeOfBody (4 + VersionedTime.width time.writtenVersion) ≤ 20
  unfold Box.sizeOfBody Box.headerSize Box.maxShortSize
  rw [if_pos (by omega)]
  omega

theorem SampleFields.sampleSize_le (fields : SampleFields) : fields.sampleSize ≤ 16 := by
  obtain ⟨duration, size, flags, compositionOffset⟩ := fields
  revert duration size flags compositionOffset
  decide

namespace TrackRun

theorem size_concat_le {run : TrackRun} (hsome : run.samples ≠ []) (entry : RunSample) :
    Box.size { run with samples := run.samples ++ [entry] } ≤ Box.size run + 24 := by
  have hfields : ({ run with samples := run.samples ++ [entry] } : TrackRun).fields =
      run.fields := by
    unfold fields
    cases hsamples : run.samples with
    | nil => exact absurd hsamples hsome
    | cons first rest => rfl
  have hentry := run.fields.sampleSize_le
  apply Box.sizeOfBody_le 16
  simp only [IsBox.contentSize, hfields, List.length_append, List.length_singleton,
    Nat.mul_add, Nat.mul_one]
  change 4 + _ ≤ 4 + _ + 16
  omega

theorem size_new_le (dataOffset : Int32) (entry : RunSample) :
    Box.size (⟨some dataOffset, none, [entry]⟩ : TrackRun) ≤ 44 := by
  have hentry := entry.fields.sampleSize_le
  have hbody : Box.size (⟨some dataOffset, none, [entry]⟩ : TrackRun) =
      Box.sizeOfBody (4 + (4 + 4 + 0 + entry.fields.sampleSize * 1)) := rfl
  rw [hbody]
  unfold Box.sizeOfBody Box.headerSize Box.maxShortSize
  rw [if_pos (by omega)]
  omega

end TrackRun

namespace TrackFragment

variable {track : TrackFragment}

theorem size_pushEntry_le {fields : SampleFields} (h : track.lastRunCarries fields = true)
    (entry : RunSample) : Box.size (track.pushEntry entry) ≤ Box.size track + 32 := by
  obtain ⟨runs, run, hruns, hsome⟩ := exists_lastRun h
  have hrun := TrackRun.size_concat_le hsome entry
  rw [runs_pushEntry hruns, size_of_children, size_of_children, hruns]
  apply Box.sizeOfBody_le 24
  simp only [List.map_append, List.map_singleton, List.sum_append, List.sum_singleton]
  omega

theorem size_openedFor_le (track : TrackFragment) (sample : Sample) :
    Box.size (track.openedFor sample) ≤ Box.size track + 28 := by
  unfold openedFor
  split_ifs
  · have hheader : Box.size (track.opened sample.decodeTime).header = Box.size track.header := rfl
    have htime : ((track.opened sample.decodeTime).decodeTime.map (Box.size ·)).getD 0 ≤ 20 := by
      unfold opened
      cases track.decodeTime with
      | none => exact TrackDecodeTime.size_le _
      | some time => exact TrackDecodeTime.size_le _
    rw [size_of_children, size_of_children, hheader]
    apply Box.sizeOfBody_le 20
    simp only [opened, List.map_nil, List.sum_nil] at htime ⊢
    omega
  · omega

theorem size_newRun_le (dataOffset : Int32) (entry : RunSample) :
    Box.size ((track.pushRun dataOffset).pushEntry entry) ≤ Box.size track + 52 := by
  have hrun := TrackRun.size_new_le dataOffset entry
  rw [pushEntry_pushRun, size_of_children, size_of_children]
  apply Box.sizeOfBody_le 44
  simp only [List.map_append, List.map_singleton, List.sum_append, List.sum_singleton]
  omega

end TrackFragment

namespace Fragment

variable {fragment : Fragment} {before after : List TrackFragment} {track changed : TrackFragment}

theorem headerSize_le (mdat : MediaData) : 8 ≤ mdat.headerSize ∧ mdat.headerSize ≤ 16 := by
  have hsize : Box.size mdat = Box.sizeOfBody (0 + mdat.payload.length) := rfl
  unfold MediaData.headerSize
  rw [hsize]
  unfold Box.sizeOfBody Box.headerSize Box.largeHeaderSize
  split_ifs <;> omega

theorem moofSize_withTracks_le {more : Nat}
    (hsplit : fragment.moof.tracks = before ++ track :: after)
    (hchanged : Box.size changed ≤ Box.size track + more) :
    Box.size (fragment.withTracks (before ++ changed :: after)).moof ≤
      Box.size fragment.moof + (more + 8) := by
  rw [MovieFragment.size_of_children, MovieFragment.size_of_children, hsplit]
  apply Box.sizeOfBody_le more
  simp only [withTracks, List.map_append, List.map_cons, List.sum_append, List.sum_cons]
  omega

theorem moofSize_withData (oldOffset : Nat) (data : Bytes) :
    Box.size (fragment.withData oldOffset data).fragment.moof = Box.size fragment.moof :=
  MovieFragment.size_shift _ _

/-- Appending a sample makes the movie fragment larger by a run and a decode time at most. -/
theorem moofSize_appendToTrack_le (fragment : Fragment) (sample : Sample) (trackId : UInt32) :
    Box.size (fragment.appendToTrack sample trackId).fragment.moof ≤
      Box.size fragment.moof + 88 := by
  rcases fragment.appendToTrack_cases sample trackId with ⟨error, -, hrefused⟩ |
    ⟨before, track, after, hsplit, -, -, -, -, -, htaken⟩
  · rw [hrefused]
    exact Nat.le_add_right _ _
  · rw [htaken]
    rcases fragment.appendAt_cases before track after sample with ⟨hcarries, hjoined⟩ |
      ⟨-, hrefused | ⟨-, hnoroom⟩ | ⟨dataOffset, -, hrun⟩⟩
    · have hgrown := moofSize_withTracks_le hsplit
        (track.size_pushEntry_le hcarries sample.entry)
      rw [hjoined, moofSize_withData]
      omega
    · rw [hrefused]
      exact Nat.le_add_right _ _
    · have hgrown := moofSize_withTracks_le hsplit (track.size_openedFor_le sample)
      rw [hnoroom]
      simp only
      omega
    · have hopened := track.size_openedFor_le sample
      have hextended := (track.openedFor sample).size_newRun_le dataOffset sample.entry
      have hgrown := moofSize_withTracks_le hsplit
        (hextended.trans (by omega : _ ≤ Box.size track + 80))
      rw [hrun, moofSize_withData]
      omega

/-- The payload of a fragment that a sample was appended to is the old one, or the data of the
sample stands behind it. -/
theorem payload_appendToTrack (fragment : Fragment) (sample : Sample) (trackId : UInt32) :
    (fragment.appendToTrack sample trackId).fragment.mdat.payload = fragment.mdat.payload ∨
      sample.data.length = sample.size.toNat ∧
        (fragment.appendToTrack sample trackId).fragment.mdat.payload =
          fragment.mdat.payload ++ sample.data := by
  rcases fragment.appendToTrack_cases sample trackId with ⟨error, -, hrefused⟩ |
    ⟨before, track, after, -, -, -, -, hsize, -, htaken⟩
  · rw [hrefused]
    exact .inl rfl
  · rw [htaken]
    rcases fragment.appendAt_cases before track after sample with ⟨-, hjoined⟩ |
      ⟨-, hrefused | ⟨-, hnoroom⟩ | ⟨dataOffset, -, hrun⟩⟩
    · rw [hjoined]
      exact .inr ⟨hsize, rfl⟩
    · rw [hrefused]
      exact .inl rfl
    · rw [hnoroom]
      exact .inl rfl
    · rw [hrun]
      exact .inr ⟨hsize, rfl⟩

theorem storedSize_ofTracks_le (sequenceNumber trackId : UInt32) :
    (ofTracks sequenceNumber [trackId]).storedSize ≤ 2 ^ 31 := by
  have hmfhd : Box.size (⟨sequenceNumber⟩ : MovieFragmentHeader) ≤ 4 + 4 + 16 :=
    Box.sizeOfBody_le_add _
  have htfhd : Box.size (TrackFragmentHeader.ofTrack trackId) ≤ 4 + 4 + 16 :=
    Box.sizeOfBody_le_add _
  have htfdt := TrackDecodeTime.size_le (.ofTime 0)
  have hmdat : Box.size (⟨[]⟩ : MediaData) ≤ 0 + 16 := Box.sizeOfBody_le_add _
  change Box.size (⟨⟨sequenceNumber⟩, [⟨.ofTrack trackId, [], some (.ofTime 0)⟩]⟩ :
    MovieFragment) + Box.size (⟨[]⟩ : MediaData) ≤ _
  rw [MovieFragment.size_of_children, List.map_singleton, List.sum_singleton,
    TrackFragment.size_of_children]
  have htraf := Box.sizeOfBody_le_add (Box.size (TrackFragmentHeader.ofTrack trackId) +
    Box.size (TrackDecodeTime.ofTime 0) + 0)
  have hmoof := Box.sizeOfBody_le_add (Box.size (⟨sequenceNumber⟩ : MovieFragmentHeader) +
    Box.sizeOfBody (Box.size (TrackFragmentHeader.ofTrack trackId) +
      Box.size (TrackDecodeTime.ofTime 0) + 0))
  simp only [Option.map_some, Option.getD_some, List.map_nil, List.sum_nil]
  omega

/-- Appends a sample, if all sums that this can take fit their words: the place of new data, the
sizes before and after, the way that the payload moves, and any 32-bit offset that moves with
it. -/
def appendInWords (fragment : Fragment) (sample : Sample) (trackId : UInt32) :
    Except Failure Attempt := do
  let oldOffset ← fragment.payloadOffsetInWords
  let _ ← Words.add oldOffset fragment.mdat.payload.length
  let attempt := fragment.appendToTrack sample trackId
  let newOffset ← attempt.fragment.payloadOffsetInWords
  let delta ← Words.addSigned (Words.signed newOffset) (-Words.signed oldOffset)
  let _ ← Words.addSigned Int32.minValue.toInt delta
  let _ ← Words.addSigned Int32.maxValue.toInt delta
  return attempt

/-- Appending to a fragment that is not too large takes no sum that does not fit. -/
theorem appendInWords_eq {fragment : Fragment} {sample : Sample}
    (hsmall : fragment.storedSize + sample.data.length < 2 ^ 62) (trackId : UInt32) :
    fragment.appendInWords sample trackId = .ok (fragment.appendToTrack sample trackId) := by
  have hsize := fragment.storedSize_eq
  have hold := fragment.payloadOffsetInWords_eq (by omega)
  have hnewSize : (fragment.appendToTrack sample trackId).fragment.storedSize ≤
      fragment.storedSize + sample.data.length + 96 := by
    have hmoof := fragment.moofSize_appendToTrack_le sample trackId
    have hheader := headerSize_le fragment.mdat
    have hheader' := headerSize_le (fragment.appendToTrack sample trackId).fragment.mdat
    rw [storedSize_eq, storedSize_eq]
    unfold payloadOffset
    rcases fragment.payload_appendToTrack sample trackId with hpayload | ⟨-, hpayload⟩
    · rw [hpayload]
      omega
    · rw [hpayload, List.length_append]
      omega
  have hnew := payloadOffsetInWords_eq
    (hnewSize.trans (by omega : fragment.storedSize + sample.data.length + 96 ≤ 2 ^ 63 - 2 ^ 31))
  have hbound := (fragment.appendToTrack sample trackId).fragment.storedSize_eq
  have hlimit : UInt64.size = 2 ^ 64 := rfl
  have hleast : Int32.minValue.toInt = -2 ^ 31 := rfl
  have hgreatest : Int32.maxValue.toInt = 2 ^ 31 - 1 := rfl
  have hplace := Words.add_of_lt
    (by omega : fragment.payloadOffset + fragment.mdat.payload.length < UInt64.size)
  set newOffset := (fragment.appendToTrack sample trackId).fragment.payloadOffset
  have hdelta : Words.addSigned newOffset (-fragment.payloadOffset) =
      .ok (newOffset + -fragment.payloadOffset) :=
    Words.addSigned_of_fits (by omega) (by omega)
  have hmoves (offset : Int) (hlower : -2 ^ 31 ≤ offset) (hupper : offset < 2 ^ 31) :
      Words.addSigned offset (newOffset + -fragment.payloadOffset) =
        .ok (offset + (newOffset + -fragment.payloadOffset)) :=
    Words.addSigned_of_fits (by omega) (by omega)
  unfold appendInWords
  simp only [hold, hplace, hnew, bind, Except.bind]
  rw [Words.signed_of_lt (by omega), Words.signed_of_lt (by omega), hdelta]
  simp only [hmoves _ (by omega : -2 ^ 31 ≤ Int32.minValue.toInt) (by omega),
    hmoves _ (by omega : -2 ^ 31 ≤ Int32.maxValue.toInt) (by omega)]
  rfl

end Fragment
end FragmentedMp4
