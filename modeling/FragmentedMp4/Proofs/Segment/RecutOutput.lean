import FragmentedMp4.Proofs.Fragment.AnyLayout
import FragmentedMp4.Proofs.Segment.Recut
import FragmentedMp4.Proofs.Segment.Words
import FragmentedMp4.Proofs.Segment.WrittenBoxes

/-!
# What a segment was cut into can be written

Each fragment that a segment is cut into was built from samples, so it can be written in any layout
and what is written gives the same samples. It holds no more data than the segment that was cut,
so its media data is not too large either.
-/
namespace FragmentedMp4

open WriteStep

namespace Fragment

variable {fragment : Fragment} {group : List TracedSample} {layout : RunLayout}

theorem dataLength_traced {trex : Option TrackExtends} {read : List TracedSample}
    (hsingle : fragment.checkSingleRun = .ok ()) (h : fragment.traced trex = .ok read) :
    (read.map (·.sample.data.length)).sum ≤ fragment.mdat.payload.length := by
  unfold traced at h
  split at h
  · cases h
  · obtain ⟨samples, hsamples, rfl⟩ := map_eq_ok.1 h
    rw [List.map_map]
    exact dataLength_samples hsingle hsamples

namespace HoldsGroup

theorem exists_holds (h : fragment.HoldsGroup group) : ∃ first rest,
    group = first :: rest ∧ fragment.Holds first.sequenceNumber first.trackId first.sample
      (rest.map (·.sample)) := by
  cases group with
  | nil => exact h.elim
  | cons first rest => exact ⟨first, rest, rfl, h.1⟩

theorem payload_length (h : fragment.HoldsGroup group) :
    fragment.mdat.payload.length = (group.map (·.sample.data.length)).sum := by
  obtain ⟨first, rest, rfl, hholds⟩ := h.exists_holds
  obtain ⟨dataOffset, -, hshape⟩ := hholds.shape
  rw [hshape]
  simp only [ofSamples, ofBoxes, List.length_flatMap, List.map_cons, List.map_map]
  rfl

theorem writtenAs (h : fragment.HoldsGroup group) (layout : RunLayout) :
    SegmentPart.WrittenAs layout ⟨[], fragment⟩ ⟨[], fragment.rewritten layout⟩ := by
  obtain ⟨first, rest, rfl, hholds⟩ := h.exists_holds
  exact ⟨rfl, hholds.writtenMoof_eq layout, rfl⟩

theorem writable_rewritten (h : fragment.HoldsGroup group) (layout : RunLayout) :
    Box.Writable (fragment.rewritten layout).moof := by
  obtain ⟨first, rest, rfl, hholds⟩ := h.exists_holds
  exact writable_writtenMoof (hholds.writtenMoof_eq layout) hholds.writable_moof

theorem countable_rewritten (h : fragment.HoldsGroup group)
    (hcount : layout = .compact → fragment.sampleCount ≤ TrackRun.maxFieldlessSamples) :
    (fragment.rewritten layout).moof.Countable := by
  obtain ⟨first, rest, rfl, hholds⟩ := h.exists_holds
  apply countable_writtenMoof (hholds.writtenMoof_eq layout) hholds.countable
  intro hlayout track htrack run hrun
  obtain ⟨dataOffset, -, htracks⟩ := hholds.tracks_eq
  rw [htracks] at htrack
  rw [List.mem_singleton.1 htrack] at hrun
  rw [(Holds.fields_eq hrun).1, ← hholds.sampleCount_eq]
  exact hcount hlayout

theorem traced_rewritten (h : fragment.HoldsGroup group) (layout : RunLayout)
    {trex : Option TrackExtends} {read : List TracedSample}
    (hread : fragment.traced trex = .ok read) :
    (ofBoxes (fragment.rewritten layout).moof.asWritten fragment.mdat).traced trex = .ok read := by
  obtain ⟨first, rest, rfl, hholds⟩ := h.exists_holds
  obtain ⟨dataOffset, -, htracks⟩ := hholds.tracks_eq
  obtain ⟨hnumber, hid, hsamples⟩ := samples_written htracks (hholds.writtenMoof_eq layout)
  unfold traced at hread ⊢
  rw [hid, hnumber]
  cases hcase : fragment.trackId? with
  | none =>
    rw [hcase] at hread
    cases hread
  | some trackId =>
    rw [hcase] at hread
    obtain ⟨samples, hok, rfl⟩ := map_eq_ok.1 hread
    simp only [hsamples trex samples hok]
    rfl

end HoldsGroup
end Fragment

namespace Segment

variable {segment : Segment} {trex : TrackExtends} {target : Nat} {outputs : List Fragment}

theorem checkSingleRun_of_recut (h : segment.recut trex target = .ok outputs) :
    ∀ fragment ∈ segment.fragments, fragment.checkSingleRun = .ok () := by
  obtain ⟨_, hchecks, -⟩ := bind_eq_ok.1 h
  exact checkSingleRun_of_forM hchecks

theorem dataLength_flatten {fragments : List Fragment} {source : List (List TracedSample)}
    (hsingle : ∀ fragment ∈ fragments, fragment.checkSingleRun = .ok ())
    (h : List.Forall₂ (fun fragment read => fragment.traced (some trex) = .ok read) fragments
      source) :
    (source.flatten.map (·.sample.data.length)).sum ≤
      (fragments.map (·.mdat.payload.length)).sum := by
  induction h with
  | nil => exact le_rfl
  | cons hfirst _ ih =>
    have hle := Fragment.dataLength_traced (hsingle _ (List.mem_cons_self ..)) hfirst
    have hrest := ih fun other hmem => hsingle other (List.mem_cons_of_mem _ hmem)
    rw [List.flatten_cons, List.map_append, List.sum_append, List.map_cons, List.sum_cons]
    exact Nat.add_le_add hle hrest

/-- Each of the fragments that a segment is cut into holds a group of its samples, and so no more
data than all of its fragments together. -/
theorem exists_group (h : segment.recut trex target = .ok outputs) :
    ∀ output ∈ outputs, ∃ group, output.HoldsGroup group ∧
      output.mdat.payload.length ≤ (segment.fragments.map (·.mdat.payload.length)).sum := by
  intro output hmem
  obtain ⟨source, hsource, hgroups⟩ := recut_groups h
  obtain ⟨group, hgroup, hholds⟩ := exists_of_forall₂ hgroups output hmem
  refine ⟨group, hholds, ?_⟩
  have hsum := dataLength_flatten (checkSingleRun_of_recut h) (mapM_eq_ok.1 hsource)
  rw [← Grouping.flatten_groups target source.flatten, List.map_flatten, List.sum_flatten,
    List.map_map] at hsum
  rw [hholds.payload_length]
  refine le_trans ?_ hsum
  exact List.le_sum_of_mem (List.mem_map_of_mem hgroup)

theorem Accepted.payloads_lt {startPosition : UInt64} {isStart : Bool} {count : Nat}
    (h : segment.Accepted startPosition isStart count) (hcount : count < 2 ^ 64) :
    (segment.fragments.map (·.mdat.payload.length)).sum + 16 < UInt64.size := by
  have hlimit : UInt64.size = 2 ^ 64 := rfl
  have hstored := h.storedSizes_le
  cases hcase : segment.fragments with
  | nil => decide
  | cons fragment fragments =>
    have hrest : (fragments.map (·.mdat.payload.length)).sum ≤
        (fragments.map (·.storedSize)).sum := by
      apply List.sum_le_sum
      intro other _
      rw [other.storedSize_eq]
      exact Nat.le_add_left _ _
    have hmoof := Box.eight_le_size fragment.moof
    have hmdat := (Fragment.headerSize_le fragment.mdat).1
    have hfirst := fragment.storedSize_eq
    unfold Fragment.payloadOffset at hfirst
    rw [hcase, List.map_cons, List.sum_cons] at hstored
    rw [List.map_cons, List.sum_cons]
    omega

def rewrittenParts (layout : RunLayout) (fragments : List Fragment) : List SegmentPart :=
  fragments.map fun fragment => ⟨[], fragment.rewritten layout⟩

theorem written_recut {startPosition : UInt64} {data : Bytes}
    (hlength : data.length < 2 ^ 63) (hdecode : decodeAt startPosition data = .ok segment)
    (h : segment.recut trex target = .ok outputs) {fresh : Segment}
    (hparts : fresh.parts = outputs.map (SegmentPart.mk []))
    (htype : ∀ box ∈ fresh.segmentType, Box.Writable box) :
    List.Forall₂ (SegmentPart.WrittenAs fresh.layout) fresh.parts
        (rewrittenParts fresh.layout outputs) ∧
      ∀ box ∈ { fresh with parts := rewrittenParts fresh.layout outputs }.boxes,
        Box.Writable box := by
  obtain ⟨isStart, haccepted⟩ := accepted_of_decodeAt hdecode
  have hroom := haccepted.payloads_lt ((Box.room_le data).trans_lt (by omega))
  constructor
  · rw [hparts, rewrittenParts, List.forall₂_map_left_iff, List.forall₂_map_right_iff,
      List.forall₂_same]
    intro output hmem
    obtain ⟨group, hholds, -⟩ := exists_group h output hmem
    exact hholds.writtenAs fresh.layout
  · intro box hmem
    rcases List.mem_append.1 hmem with hmem | hmem
    · obtain ⟨segmentType, hsome, rfl⟩ := List.mem_map.1 hmem
      have hbox := htype segmentType (Option.mem_toList.1 hsome)
      exact ⟨hbox.size_lt, hbox.complete⟩
    · obtain ⟨part, hpart, hmem⟩ := List.mem_flatMap.1 hmem
      obtain ⟨output, houtput, rfl⟩ := List.mem_map.1 hpart
      obtain ⟨group, hholds, hpayload⟩ := exists_group h output houtput
      rcases List.mem_cons.1 hmem with rfl | hmem
      · have hmoof := hholds.writable_rewritten fresh.layout
        exact ⟨hmoof.size_lt, hmoof.complete⟩
      · rw [List.mem_singleton.1 hmem]
        have hsize : Box.size output.mdat ≤ 0 + output.mdat.payload.length + 16 :=
          Box.sizeOfBody_le_add _
        exact ⟨by change Box.size output.mdat < _; omega, rfl⟩

/-- What is read of a new segment with these fragments. It has the segment type of the new segment
and no index boxes, and gives the samples of the segment that was cut. -/
theorem decodeAt_recut (h : segment.recut trex target = .ok outputs) {fresh : Segment}
    (hwritable : ∀ box ∈ { fresh with parts := rewrittenParts fresh.layout outputs }.boxes,
      Box.Writable box)
    (hcount : fresh.layout = .compact →
      ∀ output ∈ outputs, output.sampleCount ≤ TrackRun.maxFieldlessSamples)
    (startPosition : UInt64) :
    ∃ decoded, decodeAt startPosition
        (bytesOf { fresh with parts := rewrittenParts fresh.layout outputs }.boxes) =
          .ok decoded ∧
      decoded.segmentType = fresh.segmentType ∧ decoded.indexBuckets.flatten = [] ∧
      ∀ readTrex, (∀ output ∈ outputs, output.samples readTrex ≠ .error .overflow) →
        ∃ source read, segment.fragments.mapM (Fragment.traced (some trex)) = .ok source ∧
          decoded.fragments.mapM (Fragment.traced readTrex) = .ok read ∧
          read.flatten.map TracedSample.content = source.flatten.map TracedSample.content := by
  have hindexes : ∀ part ∈ rewrittenParts fresh.layout outputs, ∀ index ∈ part.indexes,
      index.FitsWidths := by
    intro part hpart index hmem
    obtain ⟨output, -, rfl⟩ := List.mem_map.1 hpart
    cases hmem
  have hcountable : ∀ part ∈ rewrittenParts fresh.layout outputs,
      part.fragment.moof.Countable := by
    intro part hpart
    obtain ⟨output, houtput, rfl⟩ := List.mem_map.1 hpart
    obtain ⟨group, hholds, -⟩ := exists_group h output houtput
    exact hholds.countable_rewritten fun hlayout => hcount hlayout output houtput
  have hread := decodeAt_boxes hwritable hindexes hcountable startPosition
  refine ⟨_, hread, rfl, ?_, ?_⟩
  · simp [asWritten, indexBuckets, rewrittenParts, SegmentPart.asWritten]
  · intro readTrex hfits
    obtain ⟨source, hsource, hgroups⟩ := recut_groups h
    obtain ⟨read, hmapM, hsame⟩ := Fragment.mapM_traced hgroups hfits
    rw [Grouping.flatten_groups] at hsame
    refine ⟨source, read, hsource, ?_, hsame⟩
    have hall := (List.forall₂_and_left _ _).2 ⟨exists_group h, mapM_eq_ok.1 hmapM⟩
    rw [mapM_eq_ok]
    simp only [asWritten, fragments, rewrittenParts, List.map_map]
    rw [List.forall₂_map_left_iff]
    refine hall.imp ?_
    rintro output samples ⟨⟨group, hholds, -⟩, hok⟩
    exact hholds.traced_rewritten fresh.layout hok

end Segment
end FragmentedMp4
