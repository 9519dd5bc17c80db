import FragmentedMp4.Proofs.Fragment.CompactSize
import FragmentedMp4.Proofs.Fragment.SingleRun

/-!
# Built fragments are written in any layout

A fragment that was built from samples has one run, which begins at the payload. Its movie fragment
is no larger in compact form, so the offset of the run moves down with the payload and stays in its
range. Hence the fragment can be written in any layout, and what is written gives its samples.
-/
namespace FragmentedMp4

namespace MovieFragment

/-- The only run of the only track fragment begins at an offset. -/
def BeginsAt (moof : MovieFragment) (offset : Int32) : Prop :=
  ∃ track run, moof.tracks = [track] ∧ track.runs = [run] ∧ run.dataOffset = some offset

variable {moof : MovieFragment} {offset : Int32}

theorem BeginsAt.inLayout (h : moof.BeginsAt offset) (layout : RunLayout) :
    (moof.inLayout layout).BeginsAt offset := by
  obtain ⟨track, run, htracks, hruns, hoffset⟩ := h
  cases layout with
  | stored => exact ⟨track, run, htracks, hruns, hoffset⟩
  | compact =>
    have hcompacted : moof.compacted.tracks = [track.compacted] := by
      rw [compacted, htracks, List.map_singleton]
    rcases track.compacted_cases with hsame | ⟨other, hother, -, hchanged⟩
    · rw [hsame] at hcompacted
      exact ⟨track, run, hcompacted, hruns, hoffset⟩
    · obtain rfl : run = other := by simpa [hruns] using hother
      have hmeaning := SingleRun.sameMeaning_compacted ⟨track.header, run⟩
      rw [hchanged] at hcompacted
      exact ⟨_, _, hcompacted, rfl, hmeaning.dataOffset.trans hoffset⟩

theorem BeginsAt.exists_shifted (h : moof.BeginsAt offset) {delta : Int}
    (hlower : -2 ^ 31 ≤ offset.toInt + delta) (hupper : offset.toInt + delta < 2 ^ 31) :
    ∃ moved, moof.shifted delta = .ok moved := by
  obtain ⟨track, run, htracks, hruns, hoffset⟩ := h
  have hword : offsetWord? (offset.toInt + delta) = some (Int32.ofInt (offset.toInt + delta)) :=
    if_pos ⟨hlower, hupper⟩
  have hrelative : track.isRelativeToMoof true = true := rfl
  have htrack : (track.shift delta true).2 = true := by
    unfold TrackFragment.shift
    rw [if_pos hrelative, hruns]
    simp only [changeInOrder, TrackRun.shift, hoffset, hword]
  unfold shifted shift
  split_ifs
  · exact ⟨_, rfl⟩
  · rw [htracks, TrackFragment.shiftAll]
    cases hmoved : track.shift delta true with
    | mk moved done =>
      rw [hmoved] at htrack
      obtain rfl : done = true := htrack
      exact ⟨_, rfl⟩

end MovieFragment

namespace Fragment

variable {fragment : Fragment} {layout : RunLayout} {moof : MovieFragment}

def rewritten (layout : RunLayout) (fragment : Fragment) : Fragment :=
  ofBoxes ((fragment.moof.inLayout layout).shift
    (Box.size (fragment.moof.inLayout layout) - Box.size fragment.moof)).1 fragment.mdat

theorem writtenMoof_withLayout (fragment : Fragment) (layout : RunLayout) :
    writtenMoof { fragment with layout } = (fragment.moof.inLayout layout).shifted
      (Box.size (fragment.moof.inLayout layout) - Box.size fragment.moof) :=
  rfl

theorem rewritten_of_writtenMoof (h : writtenMoof { fragment with layout } = .ok moof) :
    fragment.rewritten layout = ofBoxes moof fragment.mdat := by
  rw [MovieFragment.eq_of_shifted h]
  rfl

theorem exists_writtenMoof {offset : Int32} (h : fragment.moof.BeginsAt offset)
    (hoffset : offset.toInt = fragment.payloadOffset) (layout : RunLayout) :
    ∃ moof, writtenMoof { fragment with layout } = .ok moof := by
  have hsmaller := fragment.moof.size_inLayout_le layout
  have hlimit := offset.toInt_lt
  unfold payloadOffset at hoffset
  rw [writtenMoof_withLayout]
  apply (h.inLayout layout).exists_shifted
  · omega
  · omega

/-- What is written in a layout can be written if the fragment can be written at all. -/
theorem writable_writtenMoof (hwritten : writtenMoof { fragment with layout } = .ok moof)
    (h : Box.Writable fragment.moof) : Box.Writable moof := by
  constructor
  · rw [MovieFragment.size_of_shifted hwritten]
    exact (fragment.moof.size_inLayout_le layout).trans_lt h.size_lt
  · exact MovieFragment.complete_of_shifted hwritten
      (MovieFragment.complete_inLayout h.complete layout)

/-- A reader accepts the runs that are written, if compact ones are not too long. -/
theorem countable_writtenMoof (hwritten : writtenMoof { fragment with layout } = .ok moof)
    (h : fragment.moof.Countable)
    (hcount : layout = .compact → ∀ track ∈ fragment.moof.tracks, ∀ run ∈ track.runs,
      run.samples.length ≤ TrackRun.maxFieldlessSamples) : moof.Countable := by
  rw [writtenMoof_withLayout] at hwritten
  cases layout with
  | stored =>
    rw [MovieFragment.inLayout, sub_self, MovieFragment.shifted_zero] at hwritten
    cases hwritten
    exact h
  | compact =>
    refine countable_of_shifted ?_ hwritten
    intro track hmem
    obtain ⟨source, hsource, rfl⟩ := List.mem_map.1 hmem
    exact TrackFragment.length_compacted (hcount rfl source hsource)

/-- What is written of a fragment with one track is read like the fragment. -/
theorem readsLike_written {track : TrackFragment} (htracks : fragment.moof.tracks = [track])
    (hwritten : writtenMoof { fragment with layout } = .ok moof) :
    ∃ changed, moof.asWritten.tracks = [changed] ∧
      ReadsLike fragment (ofBoxes moof.asWritten fragment.mdat) true track changed := by
  rw [writtenMoof_withLayout] at hwritten
  obtain ⟨source, hsource, hid, hread⟩ : ∃ source, (fragment.moof.inLayout layout).tracks =
      [source] ∧ source.trackId = track.trackId ∧ ∀ trex,
        fragment.readTrack true source trex = fragment.readTrack true track trex := by
    cases layout with
    | stored => exact ⟨track, htracks, rfl, fun _ => rfl⟩
    | compact =>
      refine ⟨track.compacted, ?_, track.trackId_compacted,
        fragment.readTrack_compacted true track⟩
      rw [MovieFragment.inLayout, MovieFragment.compacted, htracks, List.map_singleton]
  set delta : Int := Box.size (fragment.moof.inLayout layout) - Box.size fragment.moof with hdelta
  obtain ⟨hmoved, hfirst, -⟩ := MovieFragment.shifted_eq_ok hwritten
  have hpayload : (ofBoxes moof.asWritten fragment.mdat).mdat.payload = fragment.mdat.payload :=
    rfl
  have hoffset : ((ofBoxes moof.asWritten fragment.mdat).payloadOffset : Int) =
      fragment.payloadOffset + delta := by
    have hsize := moof.size_asWritten.trans (MovieFragment.size_of_shifted hwritten)
    simp only [payloadOffset, ofBoxes, hsize]
    omega
  rw [hsource] at hfirst
  refine ⟨(source.shift delta true).1.asWritten, ?_, ?_, ?_⟩
  · rw [hmoved, MovieFragment.asWritten, hsource]
    rfl
  · exact (TrackFragment.trackId_shift delta true source).trans hid
  · intro trex
    rw [readTrack_asWritten, readTrack_shift hpayload hoffset (hfirst source rfl), hread]

theorem samples_single {track : TrackFragment} (htracks : fragment.moof.tracks = [track])
    (trex : Option TrackExtends) : fragment.samples trex = fragment.readTrack true track trex := by
  unfold samples selectTrack
  rw [htracks]
  rfl

theorem samples_written {track : TrackFragment} (htracks : fragment.moof.tracks = [track])
    (hwritten : writtenMoof { fragment with layout } = .ok moof) :
    (ofBoxes moof.asWritten fragment.mdat).sequenceNumber = fragment.sequenceNumber ∧
      (ofBoxes moof.asWritten fragment.mdat).trackId? = fragment.trackId? ∧
      ∀ trex samples, fragment.samples trex = .ok samples →
        (ofBoxes moof.asWritten fragment.mdat).samples trex = .ok samples := by
  obtain ⟨changed, hchanged, hreads⟩ := readsLike_written htracks hwritten
  refine ⟨?_, ?_, ?_⟩
  · rw [sequenceNumber, sequenceNumber, ofBoxes, MovieFragment.asWritten,
      (MovieFragment.shifted_eq_ok hwritten).1]
    cases layout <;> rfl
  · unfold trackId? MovieFragment.firstTrack?
    rw [htracks, ofBoxes, hchanged, List.head?_cons, List.head?_cons, Option.map_some,
      Option.map_some, hreads.trackId]
  · intro trex samples hsamples
    rw [samples_single htracks] at hsamples
    rw [samples_single hchanged]
    exact (eq_ok_iff_of_toOption (hreads.samples trex) samples).2 hsamples

namespace Holds

variable {sequenceNumber trackId : UInt32} {first : Sample} {rest : List Sample}

theorem tracks_eq (h : fragment.Holds sequenceNumber trackId first rest) :
    ∃ dataOffset : Int32, dataOffset.toInt = fragment.payloadOffset ∧
      fragment.moof.tracks = [.ofSamples trackId dataOffset first rest] := by
  obtain ⟨dataOffset, hoffset, hshape⟩ := h.shape
  refine ⟨dataOffset, hoffset, ?_⟩
  rw [hshape]
  rfl

theorem sampleCount_eq (h : fragment.Holds sequenceNumber trackId first rest) :
    fragment.sampleCount = rest.length + 1 := by
  obtain ⟨dataOffset, -, htracks⟩ := h.tracks_eq
  unfold sampleCount
  rw [htracks]
  simp [TrackFragment.ofSamples, TrackFragment.sampleCount, TrackRun.sampleCount]

theorem fields_eq {dataOffset : Int32} {run : TrackRun} (h : run ∈ (TrackFragment.ofSamples
    trackId dataOffset first rest).runs) :
    run.samples.length = rest.length + 1 ∧ run.fields = ⟨true, true, true, true⟩ ∧
      ∀ sample ∈ run.samples, sample.fields = run.fields := by
  rw [List.mem_singleton.1 h]
  refine ⟨?_, rfl, ?_⟩
  · rw [List.length_map, List.length_cons]
  · intro sample hmem
    obtain ⟨source, -, rfl⟩ := List.mem_map.1 hmem
    rfl

theorem countable (h : fragment.Holds sequenceNumber trackId first rest) :
    fragment.moof.Countable := by
  obtain ⟨dataOffset, -, htracks⟩ := h.tracks_eq
  intro track htrack run hrun hnone
  rw [htracks] at htrack
  rw [List.mem_singleton.1 htrack] at hrun
  rw [(fields_eq hrun).2.1] at hnone
  cases hnone

theorem writable_moof (h : fragment.Holds sequenceNumber trackId first rest) :
    Box.Writable fragment.moof := by
  obtain ⟨dataOffset, hoffset, htracks⟩ := h.tracks_eq
  have hlimit := dataOffset.toInt_lt
  have hsize : Box.size fragment.moof < 2 ^ 31 := by
    unfold payloadOffset at hoffset
    omega
  refine ⟨hsize.trans (by decide), ?_⟩
  apply MovieFragment.complete_of_tracks
  intro track htrack
  rw [htracks] at htrack
  apply TrackFragment.complete_of_runs
  intro run hrun
  rw [List.mem_singleton.1 htrack] at hrun
  obtain ⟨hcount, hfields, hall⟩ := fields_eq hrun
  have hrunSize : 16 * run.samples.length ≤ Box.size run := by
    have hfull : (⟨true, true, true, true⟩ : SampleFields).sampleSize = 16 := rfl
    have hcontent := Box.contentSize_le_size run
    simp only [IsBox.contentSize, hfields, hfull] at hcontent
    omega
  have htrackSize : Box.size run ≤ Box.size fragment.moof := by
    have hinner := Box.contentSize_le_size (TrackFragment.ofSamples trackId dataOffset first rest)
    have houter := Box.contentSize_le_size fragment.moof
    rw [List.mem_singleton.1 hrun]
    simp only [IsBox.contentSize, htracks, TrackFragment.ofSamples, List.map_singleton,
      List.foldr_cons, List.foldr_nil] at hinner houter
    omega
  apply TrackRun.complete_of_fields
  · omega
  · exact hall

/-- A fragment that was built can be written in any layout. -/
theorem writtenMoof_eq (h : fragment.Holds sequenceNumber trackId first rest)
    (layout : RunLayout) :
    writtenMoof { fragment with layout } = .ok (fragment.rewritten layout).moof := by
  obtain ⟨dataOffset, hoffset, htracks⟩ := h.tracks_eq
  have hbegins : fragment.moof.BeginsAt dataOffset := ⟨_, _, htracks, rfl, rfl⟩
  obtain ⟨moof, hmoof⟩ := exists_writtenMoof hbegins hoffset layout
  rw [hmoof, rewritten_of_writtenMoof hmoof]
  rfl

end Holds
end Fragment
end FragmentedMp4
