import FragmentedMp4.Proofs.Fragment.Building
import FragmentedMp4.Proofs.Fragment.CompactSize

/-!
# How many samples a fragment takes

Whether a fragment that is built sample by sample takes one more sample does not depend on what the
sample carries, but on its track, on the size that it claims and on whether the data offset of the
run still fits its word afterwards. That offset is where the payload begins, and follows from the
number of the samples and that of the bytes of their data.
-/
namespace FragmentedMp4

theorem offsetWord?_of_lt {offset : Nat} (h : offset < 2 ^ 31) :
    offsetWord? offset = some (.ofInt offset) :=
  if_pos ⟨by omega, by omega⟩

theorem offsetWord?_of_not_lt {offset : Nat} (h : ¬ offset < 2 ^ 31) :
    offsetWord? offset = none :=
  if_neg (by omega)

theorem TrackDecodeTime.size_ofTime (time : UInt64) : Box.size (ofTime time) = 20 := by
  have hversion : (ofTime time).writtenVersion = 1 := by
    unfold writtenVersion
    split_ifs <;> rfl
  change Box.sizeOfBody (4 + VersionedTime.width (ofTime time).writtenVersion) = 20
  rw [hversion]
  rfl

theorem TrackFragment.size_of_runs (trackId : UInt32) (runs : List TrackRun) (time : UInt64) :
    Box.size (⟨.ofTrack trackId, runs, some (.ofTime time)⟩ : TrackFragment) =
      Box.sizeOfBody (36 + (runs.map (Box.size ·)).sum) := by
  have hheader : Box.size (TrackFragmentHeader.ofTrack trackId) = 16 := rfl
  rw [size_of_children, hheader, Option.map_some, Option.getD_some, TrackDecodeTime.size_ofTime]

theorem MovieFragment.size_of_single (sequenceNumber : UInt32) (track : TrackFragment) :
    Box.size (⟨⟨sequenceNumber⟩, [track]⟩ : MovieFragment) =
      Box.sizeOfBody (16 + Box.size track) := by
  have hheader : Box.size (⟨sequenceNumber⟩ : MovieFragmentHeader) = 16 := rfl
  rw [size_of_children, hheader, List.map_singleton, List.sum_singleton]

namespace Fragment

/-- Where the payload begins in a fragment with one run of `count` samples, all of whose values are
stored, and `length` bytes of data. -/
def singleRunOffset (count length : Nat) : Nat :=
  Box.sizeOfBody (16 + Box.sizeOfBody (36 + Box.sizeOfBody (12 + 16 * count))) +
    (Box.sizeOfBody length - length)

theorem singleRunOffset_mono {count length more longer : Nat} (hcount : count ≤ more)
    (hlength : length ≤ longer) : singleRunOffset count length ≤ singleRunOffset more longer := by
  have hrun : Box.sizeOfBody (12 + 16 * count) ≤ Box.sizeOfBody (12 + 16 * more) :=
    Box.sizeOfBody_le_sizeOfBody (by omega)
  have htrack := Box.sizeOfBody_le_sizeOfBody (Nat.add_le_add_left hrun 36)
  have hmoof := Box.sizeOfBody_le_sizeOfBody (Nat.add_le_add_left htrack 16)
  have hmdat : Box.sizeOfBody length - length ≤ Box.sizeOfBody longer - longer := by
    unfold Box.sizeOfBody Box.headerSize Box.largeHeaderSize
    split_ifs <;> omega
  exact Nat.add_le_add hmoof hmdat

variable {sequenceNumber trackId : UInt32} {first : Sample} {rest : List Sample}

theorem payloadOffset_ofSamples (dataOffset : Int32) :
    (ofSamples sequenceNumber trackId dataOffset first rest).payloadOffset =
      singleRunOffset (first :: rest).length ((first :: rest).flatMap (·.data)).length := by
  have hrun : Box.size (⟨some dataOffset, none, (first :: rest).map Sample.entry⟩ : TrackRun) =
      Box.sizeOfBody (12 + 16 * (first :: rest).length) := by
    change Box.sizeOfBody (4 + (4 + 4 + 0 + 16 * ((first :: rest).map Sample.entry).length)) = _
    rw [List.length_map]
    congr 1
    omega
  have hmoof : Box.size (ofSamples sequenceNumber trackId dataOffset first rest).moof =
      Box.sizeOfBody (16 +
        Box.sizeOfBody (36 + Box.sizeOfBody (12 + 16 * (first :: rest).length))) := by
    rw [ofSamples, ofBoxes, MovieFragment.size_of_single, TrackFragment.ofSamples,
      TrackFragment.size_of_runs, List.map_singleton, List.sum_singleton, hrun]
  have hmdat : (ofSamples sequenceNumber trackId dataOffset first rest).mdat.headerSize =
      Box.sizeOfBody ((first :: rest).flatMap (·.data)).length -
        ((first :: rest).flatMap (·.data)).length := by
    change Box.sizeOfBody (0 + ((first :: rest).flatMap (·.data)).length) - _ = _
    rw [Nat.zero_add]
    rfl
  rw [payloadOffset, hmoof, hmdat, singleRunOffset]

theorem shift_ofSamples_iff {dataOffset : Int32} {offset : Nat} :
    ((ofSamples sequenceNumber trackId dataOffset first rest).moof.shift
      (offset - dataOffset.toInt)).2 = true ↔ offset < 2 ^ 31 := by
  by_cases hzero : (offset : Int) - dataOffset.toInt = 0
  · rw [hzero, MovieFragment.shift_zero]
    have hbound := dataOffset.toInt_lt
    exact iff_of_true rfl (by omega)
  · by_cases hfits : offset < 2 ^ 31
    · refine iff_of_true ?_ hfits
      unfold MovieFragment.shift
      simp only [if_neg hzero, ofSamples, ofBoxes, TrackFragment.shiftAll,
        TrackFragment.shift_ofSamples, add_sub_cancel, offsetWord?_of_lt hfits, changeInOrder]
    · refine iff_of_false ?_ hfits
      unfold MovieFragment.shift
      simp only [if_neg hzero, ofSamples, ofBoxes, TrackFragment.shiftAll,
        TrackFragment.shift_ofSamples, add_sub_cancel, offsetWord?_of_not_lt hfits,
        Bool.false_eq_true, not_false_eq_true]

theorem withData_iff {fragment : Fragment} {oldOffset : Nat} {data : Bytes} {dataOffset : Int32}
    (hgrown : { fragment with mdat := ⟨fragment.mdat.payload ++ data⟩ } =
      ofSamples sequenceNumber trackId dataOffset first rest)
    (hoffset : dataOffset.toInt = oldOffset) :
    (fragment.withData oldOffset data).error = none ↔
      singleRunOffset (first :: rest).length ((first :: rest).flatMap (·.data)).length <
        2 ^ 31 := by
  have hdone : (fragment.withData oldOffset data).error = none ↔
      ((ofSamples sequenceNumber trackId dataOffset first rest).moof.shift
        ((ofSamples sequenceNumber trackId dataOffset first rest).payloadOffset -
          dataOffset.toInt)).2 = true := by
    unfold withData
    rw [hgrown, hoffset]
    simp only [ite_eq_left_iff, reduceCtorEq, imp_false, Bool.not_eq_true, Bool.not_eq_false]
  rw [hdone, payloadOffset_ofSamples, shift_ofSamples_iff]

/-- The only track fragment takes a sample of its track whose size is that of its data, if the run
can be made longer. -/
theorem appendToTrack_single_iff {fragment : Fragment} {track : TrackFragment} {sample : Sample}
    {otherId : UInt32} (htracks : fragment.moof.tracks = [track])
    (hbase : track.header.baseDataOffset = none) :
    (fragment.appendToTrack sample otherId).error = none ↔
      otherId = track.trackId ∧ sample.data.length = sample.size.toNat ∧
        (fragment.appendAt [] track [] sample).error = none := by
  by_cases hid : track.trackId = otherId
  · have hsplit : fragment.moof.tracks = [] ++ track :: [] := htracks
    rw [appendToTrack_of_split hsplit (by simp) hid hbase, if_neg (by simp),
      and_iff_right hid.symm]
    by_cases hsize : sample.data.length = sample.size.toNat
    · rw [if_neg (not_not.2 hsize), and_iff_right hsize]
    · rw [if_pos hsize]
      exact iff_of_false (Option.some_ne_none _) fun h => hsize h.1
  · have hnotMem : otherId ∉ fragment.moof.tracks.map (·.trackId) := by
      rw [htracks]
      exact fun hmem => hid (List.mem_singleton.1 hmem).symm
    rw [appendToTrack_of_notMem hnotMem]
    exact iff_of_false (Option.some_ne_none _) fun h => hid h.1.symm

theorem payloadOffset_ofTracks (sequenceNumber trackId : UInt32) :
    (ofTracks sequenceNumber [trackId]).payloadOffset = 76 := by
  have hmoof : Box.size (ofTracks sequenceNumber [trackId]).moof = 68 := by
    rw [ofTracks, ofBoxes, List.map_singleton, MovieFragment.size_of_single,
      TrackFragment.size_of_runs]
    rfl
  rw [payloadOffset, hmoof]
  rfl

theorem append_first_iff {sample : Sample} :
    ((ofTracks sequenceNumber [trackId]).appendToTrack sample trackId).error = none ↔
      sample.data.length = sample.size.toNat ∧
        singleRunOffset [sample].length ([sample].flatMap (·.data)).length < 2 ^ 31 := by
  have hoffset := payloadOffset_ofTracks sequenceNumber trackId
  have hword : offsetWord? (76 : Nat) = some 76 := by decide
  have hopened : (ofTracks sequenceNumber [trackId]).appendAt []
      ⟨.ofTrack trackId, [], some (.ofTime 0)⟩ [] sample =
      ((ofTracks sequenceNumber [trackId]).withTracks
        [.ofSamples trackId 76 sample []]).withData 76 sample.data := by
    have hempty : (ofTracks sequenceNumber [trackId]).mdat.payload.length = 0 := rfl
    rw [appendAt_of_empty rfl, hoffset, hempty, Int.natCast_zero, Int.add_zero, hword]
    rfl
  have hgrown : { (ofTracks sequenceNumber [trackId]).withTracks
      [.ofSamples trackId 76 sample []] with mdat := ⟨[] ++ sample.data⟩ } =
      ofSamples sequenceNumber trackId 76 sample [] := by
    simp [ofSamples, ofTracks, ofBoxes, withTracks]
  have hdone := withData_iff hgrown (toInt_of_offsetWord? hword)
  rw [appendToTrack_single_iff rfl rfl, hopened, hdone]
  exact and_iff_right rfl

/-- When a fragment that was built takes one more sample. -/
theorem Holds.append_iff {fragment : Fragment} {sample : Sample} {otherId : UInt32}
    (h : Holds fragment sequenceNumber trackId first rest) :
    (fragment.appendToTrack sample otherId).error = none ↔
      otherId = trackId ∧ sample.data.length = sample.size.toNat ∧
        singleRunOffset (first :: (rest ++ [sample])).length
          ((first :: (rest ++ [sample])).flatMap (·.data)).length < 2 ^ 31 := by
  obtain ⟨⟨dataOffset, hoffset, rfl⟩, -⟩ := h
  have hcount : (TrackFragment.ofSamples trackId dataOffset first rest).sampleCount ≠ 0 := by
    simp [TrackFragment.ofSamples, TrackFragment.sampleCount, TrackRun.sampleCount]
  have hgrown : { (ofSamples sequenceNumber trackId dataOffset first rest).withTracks
      ([] ++ (TrackFragment.ofSamples trackId dataOffset first rest).pushEntry
        sample.entry :: []) with
      mdat := ⟨(first :: rest).flatMap (·.data) ++ sample.data⟩ } =
      ofSamples sequenceNumber trackId dataOffset first (rest ++ [sample]) := by
    simp [ofSamples, TrackFragment.ofSamples, ofBoxes, withTracks, TrackFragment.pushEntry]
  have hdone := withData_iff hgrown hoffset
  rw [appendToTrack_single_iff rfl rfl, appendAt_of_carries hcount rfl, hdone]
  exact Iff.rfl

end Fragment
end FragmentedMp4
