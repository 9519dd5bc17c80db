import FragmentedMp4.Proofs.Fragment.Capacity
import FragmentedMp4.Proofs.Segment.Recut
import FragmentedMp4.Proofs.Segment.Words

/-!
# When a segment can be cut anew

A segment that can be read can be cut anew if the samples of each group fit into one fragment: they
are of the same track, have as much data as they say, and leave the data offset of their run within
its word. All of this can be seen from the groups of the samples, without building a fragment.
-/
namespace FragmentedMp4

/-- The samples fit into one fragment. -/
structure FitTogether (contents : List SampleContent) : Prop where
  sameTrack : ∃ trackId, ∀ content ∈ contents, content.trackId = trackId
  sizes : ∀ content ∈ contents, content.data.length = content.size.toNat
  offset_lt : Fragment.singleRunOffset contents.length
    (contents.flatMap (·.data)).length < 2 ^ 31

namespace FitTogether

variable {contents more : List SampleContent}

theorem nil : FitTogether [] :=
  ⟨⟨0, by simp⟩, by simp, by decide⟩

theorem of_append (h : FitTogether (contents ++ more)) : FitTogether contents := by
  obtain ⟨trackId, htrack⟩ := h.sameTrack
  refine ⟨⟨trackId, fun content hmem => ?_⟩, fun content hmem => ?_, ?_⟩
  · exact htrack content (List.mem_append_left _ hmem)
  · exact h.sizes content (List.mem_append_left _ hmem)
  · refine lt_of_le_of_lt (Fragment.singleRunOffset_mono ?_ ?_) h.offset_lt
    · rw [List.length_append]
      exact Nat.le_add_right _ _
    · rw [List.flatMap_append, List.length_append]
      exact Nat.le_add_right _ _

end FitTogether

namespace Fragment

variable {fragment : Fragment} {group : List TracedSample}

theorem singleRunOffset_content (group : List TracedSample) :
    singleRunOffset (group.map (·.sample)).length
        ((group.map (·.sample)).flatMap (·.data)).length =
      singleRunOffset (group.map TracedSample.content).length
        ((group.map TracedSample.content).flatMap (·.data)).length := by
  rw [List.length_map, List.length_map, List.flatMap_map, List.flatMap_map]
  rfl

theorem HoldsGroup.fitTogether (h : fragment.HoldsGroup group) :
    FitTogether (group.map TracedSample.content) := by
  have hoffset := h.payloadOffset_lt
  cases group with
  | nil => exact h.elim
  | cons first rest =>
    obtain ⟨hholds, hsame⟩ := h
    refine ⟨⟨first.trackId, ?_⟩, ?_, ?_⟩
    · rw [List.forall_mem_map]
      exact List.forall_mem_cons.2 ⟨rfl, hsame⟩
    · rw [List.forall_mem_map]
      exact fun traced hmem => hholds.sizes _ (List.mem_map_of_mem hmem)
    · obtain ⟨dataOffset, -, hshape⟩ := hholds.shape
      rw [hshape, payloadOffset_ofSamples] at hoffset
      rw [← singleRunOffset_content]
      exact hoffset

/-- A fragment that was built takes one more sample if all of them fit into it. -/
theorem HoldsGroup.append_iff (h : fragment.HoldsGroup group) (traced : TracedSample) :
    (fragment.appendToTrack traced.sample traced.trackId).error = none ↔
      FitTogether ((group ++ [traced]).map TracedSample.content) := by
  have hfit := h.fitTogether
  cases group with
  | nil => exact h.elim
  | cons first rest =>
    have hall : first.sample :: (rest.map (·.sample) ++ [traced.sample]) =
        (first :: rest ++ [traced]).map (·.sample) := by simp
    rw [h.1.append_iff, hall, singleRunOffset_content]
    constructor
    · rintro ⟨htrack, hsize, hoffset⟩
      refine ⟨⟨first.trackId, ?_⟩, ?_, hoffset⟩
      · rw [List.forall_mem_map]
        exact List.forall_mem_append.2
          ⟨List.forall_mem_cons.2 ⟨rfl, h.2⟩, List.forall_mem_singleton.2 htrack⟩
      · rw [List.map_append]
        exact List.forall_mem_append.2 ⟨hfit.sizes, List.forall_mem_singleton.2 hsize⟩
    · intro hmore
      obtain ⟨trackId, htrack⟩ := hmore.sameTrack
      refine ⟨?_, hmore.sizes traced.content (by simp), hmore.offset_lt⟩
      exact (htrack traced.content (by simp)).trans (htrack first.content (by simp)).symm

theorem append_new_iff (traced : TracedSample) :
    ((ofTracks traced.sequenceNumber [traced.trackId]).appendToTrack traced.sample
      traced.trackId).error = none ↔ FitTogether ([traced].map TracedSample.content) := by
  rw [append_first_iff]
  constructor
  · rintro ⟨hsize, hoffset⟩
    exact ⟨⟨traced.trackId, List.forall_mem_singleton.2 rfl⟩, List.forall_mem_singleton.2 hsize,
      hoffset⟩
  · intro hfit
    exact ⟨hfit.sizes traced.content (by simp), hfit.offset_lt⟩

end Fragment

namespace Grouping

/-- The samples of each group fit into one fragment. -/
structure Feasible (grouping : Grouping) : Prop where
  closed : ∀ group ∈ grouping.closed, FitTogether (group.map TracedSample.content)
  current : FitTogether (grouping.current.map TracedSample.content)

variable {grouping : Grouping} {target : Nat}

theorem feasible_close : grouping.close.Feasible ↔ grouping.Feasible := by
  unfold close
  constructor
  · intro h
    refine ⟨fun group hmem => h.closed group (List.mem_append_left _ hmem), ?_⟩
    split_ifs at h with hempty
    · rw [List.isEmpty_iff.1 hempty]
      exact FitTogether.nil
    · exact h.closed grouping.current (List.mem_append_right _ (List.mem_singleton_self _))
  · intro h
    refine ⟨List.forall_mem_append.2 ⟨h.closed, ?_⟩, FitTogether.nil⟩
    split_ifs
    · exact List.forall_mem_nil _
    · exact List.forall_mem_singleton.2 h.current

theorem feasible_ready : grouping.ready.Feasible ↔ grouping.Feasible := by
  unfold ready
  split_ifs
  · exact feasible_close
  · exact Iff.rfl

theorem feasible_cut : (grouping.cut target).Feasible ↔ grouping.Feasible := by
  unfold cut
  split_ifs
  · exact feasible_close
  · exact Iff.rfl

theorem feasible_place (traced : TracedSample) :
    (grouping.place target traced).Feasible ↔ grouping.Feasible ∧
      FitTogether ((grouping.ready.current ++ [traced]).map TracedSample.content) := by
  rw [place, feasible_cut, ← grouping.feasible_ready]
  constructor
  · intro h
    have hcurrent := h.current
    rw [push, List.map_append] at hcurrent
    exact ⟨⟨h.closed, hcurrent.of_append⟩, h.current⟩
  · rintro ⟨h, hcurrent⟩
    exact ⟨h.closed, hcurrent⟩

theorem feasible_of_foldl {samples : List TracedSample}
    (h : (samples.foldl (place target) grouping).Feasible) : grouping.Feasible := by
  induction samples generalizing grouping with
  | nil => exact h
  | cons traced samples ih => exact ((feasible_place traced).1 (ih h)).1

/-- All groups of some samples are feasible. -/
theorem feasible_groups {samples : List TracedSample} :
    (samples.foldl (place target) start).Feasible ↔
      ∀ group ∈ groups target samples, FitTogether (group.map TracedSample.content) := by
  rw [← feasible_close]
  exact ⟨fun h => h.closed, fun h => ⟨h, FitTogether.nil⟩⟩

end Grouping

namespace Cutting.Matches

variable {cutting : Cutting} {grouping : Grouping} {target : Nat}

theorem feasible (h : cutting.Matches grouping) : grouping.Feasible := by
  constructor
  · intro group hmem
    obtain ⟨fragment, -, hholds⟩ := exists_of_forall₂ h.closed.flip group hmem
    exact Fragment.HoldsGroup.fitTogether hholds
  · have hcurrent := h.current
    split at hcurrent
    · rw [hcurrent]
      exact FitTogether.nil
    · exact Fragment.HoldsGroup.fitTogether hcurrent

/-- The open fragment, or a new one, takes a sample that fits with those in the open group. -/
theorem append_iff (h : cutting.Matches grouping) (traced : TracedSample) :
    ((cutting.current.getD (.ofTracks traced.sequenceNumber [traced.trackId])).appendToTrack
        traced.sample traced.trackId).error = none ↔
      FitTogether ((grouping.current ++ [traced]).map TracedSample.content) := by
  have hcurrent := h.current
  split at hcurrent
  · rename_i hcase
    rw [hcase, hcurrent]
    exact Fragment.append_new_iff traced
  · rename_i fragment hcase
    rw [hcase]
    exact Fragment.HoldsGroup.append_iff hcurrent traced

theorem place_iff (h : cutting.Matches grouping) (traced : TracedSample) :
    (∃ after, cutting.place target traced.sequenceNumber traced.trackId traced.sample =
        .ok after) ↔ (grouping.place target traced).Feasible := by
  rw [Grouping.feasible_place, and_iff_right h.feasible, ← h.ready.append_iff traced]
  unfold Cutting.place
  simp only
  split
  · rename_i error hfailed
    rw [hfailed]
    exact iff_of_false (fun ⟨_, hplaced⟩ => by cases hplaced) (Option.some_ne_none _)
  · rename_i htaken
    exact iff_of_true ⟨_, rfl⟩ htaken

theorem foldlM_iff {sequenceNumber trackId : UInt32} {samples : List Sample}
    (h : cutting.Matches grouping) :
    (∃ after, samples.foldlM (Cutting.place target sequenceNumber trackId) cutting = .ok after) ↔
      ((samples.map (TracedSample.mk sequenceNumber trackId)).foldl (Grouping.place target)
        grouping).Feasible := by
  induction samples generalizing cutting grouping with
  | nil => exact iff_of_true ⟨cutting, rfl⟩ h.feasible
  | cons sample samples ih =>
    rw [List.foldlM_cons, List.map_cons, List.foldl_cons]
    constructor
    · rintro ⟨after, hfold⟩
      obtain ⟨middle, hplace, hrest⟩ := bind_eq_ok.1 hfold
      exact (ih (h.place hplace)).1 ⟨after, hrest⟩
    · intro hfeasible
      obtain ⟨middle, hplace⟩ :=
        (h.place_iff ⟨sequenceNumber, trackId, sample⟩).2 (Grouping.feasible_of_foldl hfeasible)
      obtain ⟨after, hrest⟩ := (ih (h.place hplace)).2 hfeasible
      exact ⟨after, bind_eq_ok.2 ⟨middle, hplace, hrest⟩⟩

theorem placeFragment_iff {trex : TrackExtends} {fragment : Fragment}
    (h : cutting.Matches grouping) :
    (∃ after, cutting.placeFragment target trex fragment = .ok after) ↔
      ∃ source, fragment.traced (some trex) = .ok source ∧
        (source.foldl (Grouping.place target) grouping).Feasible := by
  constructor
  · rintro ⟨after, hplace⟩
    obtain ⟨source, hsource, hmatches⟩ := h.placeFragment hplace
    exact ⟨source, hsource, hmatches.feasible⟩
  · rintro ⟨source, hsource, hfeasible⟩
    unfold Fragment.traced at hsource
    unfold Cutting.placeFragment
    cases hid : fragment.trackId? with
    | none =>
      rw [hid] at hsource
      cases hsource
    | some trackId =>
      rw [hid] at hsource
      obtain ⟨samples, hsamples, rfl⟩ := map_eq_ok.1 hsource
      obtain ⟨after, hfold⟩ := h.foldlM_iff.2 hfeasible
      exact ⟨after, bind_eq_ok.2 ⟨samples, hsamples, mapError_eq_ok.2 hfold⟩⟩

end Cutting.Matches

namespace Segment

variable {trex : TrackExtends} {target : Nat}

/-- The samples of all fragments can be placed if they can be read and the groups then fit into
their fragments. -/
theorem foldlM_placeFragment_iff {fragments : List Fragment} (start : Nat) {cutting : Cutting}
    {grouping : Grouping} (h : cutting.Matches grouping) :
    (∃ after, (fragments.zipIdx start).foldlM (fun cutting (fragment, i) =>
        atFragment i (cutting.placeFragment target trex fragment)) cutting = .ok after) ↔
      ∃ source, fragments.mapM (Fragment.traced (some trex)) = .ok source ∧
        (source.flatten.foldl (Grouping.place target) grouping).Feasible := by
  constructor
  · rintro ⟨after, hfold⟩
    obtain ⟨source, hsource, hmatches⟩ := foldlM_placeFragment start h hfold
    exact ⟨source, hsource, hmatches.feasible⟩
  · rintro ⟨source, hsource, hfeasible⟩
    rw [mapM_eq_ok] at hsource
    induction hsource generalizing start cutting grouping with
    | nil => exact ⟨cutting, rfl⟩
    | @cons fragment first fragments rest hfirst _ ih =>
      rw [List.flatten_cons, List.foldl_append] at hfeasible
      obtain ⟨middle, hplace⟩ :=
        h.placeFragment_iff.2 ⟨first, hfirst, Grouping.feasible_of_foldl hfeasible⟩
      obtain ⟨found, hfound, hmatches⟩ := h.placeFragment hplace
      cases hfirst.symm.trans hfound
      obtain ⟨after, hlater⟩ := ih (start + 1) hmatches hfeasible
      rw [List.zipIdx_cons, List.foldlM_cons]
      exact ⟨after, bind_eq_ok.2 ⟨middle, mapError_eq_ok.2 hplace, hlater⟩⟩

/-- Whether a segment can be cut anew: each of its fragments has one track fragment with at most
one run, its samples can be read, and each group of them fits into one fragment. -/
theorem recut_iff {segment : Segment} :
    (∃ outputs, segment.recut trex target = .ok outputs) ↔
      (∀ fragment ∈ segment.fragments, fragment.checkSingleRun = .ok ()) ∧
      ∃ source, segment.fragments.mapM (Fragment.traced (some trex)) = .ok source ∧
        ∀ group ∈ Grouping.groups target source.flatten,
          FitTogether (group.map TracedSample.content) := by
  simp only [← Grouping.feasible_groups]
  rw [← foldlM_placeFragment_iff 0 Cutting.Matches.start]
  unfold recut
  constructor
  · rintro ⟨outputs, h⟩
    obtain ⟨_, hchecks, hrest⟩ := bind_eq_ok.1 h
    obtain ⟨cutting, hfold, -⟩ := bind_eq_ok.1 hrest
    exact ⟨checkSingleRun_of_forM hchecks, cutting, hfold⟩
  · rintro ⟨hchecks, cutting, hfold⟩
    have hforM : segment.fragments.zipIdx.forM (fun (fragment, i) =>
        atFragment i (orFailure fragment.checkSingleRun)) = .ok () := by
      refine forM_of_ok fun (fragment, i) hmem => ?_
      exact mapError_eq_ok.2 (mapError_eq_ok.2 (hchecks _ (List.fst_mem_of_mem_zipIdx hmem)))
    exact ⟨_, bind_eq_ok.2 ⟨(), hforM, bind_eq_ok.2 ⟨cutting, hfold, rfl⟩⟩⟩

end Segment
end FragmentedMp4
