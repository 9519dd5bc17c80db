import FragmentedMp4.Proofs.Segment.Grouping

/-!
# Cutting a segment conserves its samples

The fragments that a segment is cut into give the same samples as the segment itself, in the
same order: none is lost, doubled, moved to another track or changed. Only decode times are
left out here, since a fragment stores no more than the first one of its samples.
-/
namespace FragmentedMp4

/-- What cutting conserves of a sample. -/
structure SampleContent where
  trackId : UInt32
  flags : UInt32
  duration : UInt32
  size : UInt32
  compositionOffset : Int32
  data : Bytes
deriving DecidableEq

/-- The sample without its decode time. -/
def Sample.content (trackId : UInt32) (sample : Sample) : SampleContent :=
  ⟨trackId, sample.flags, sample.duration, sample.size, sample.compositionOffset, sample.data⟩

def TracedSample.content (traced : TracedSample) : SampleContent :=
  traced.sample.content traced.trackId

namespace Sample

/-- Counting decode times anew fails only when they do not fit their words, and changes
nothing else. -/
theorem retimed_cases (time : UInt64) (samples : List Sample) :
    retimed time samples = .error .overflow ∨
      ∃ read, retimed time samples = .ok read ∧
        ∀ trackId, read.map (content trackId) = samples.map (content trackId) := by
  induction samples generalizing time with
  | nil => exact .inr ⟨[], rfl, fun _ => rfl⟩
  | cons sample samples ih =>
    rw [retimed]
    cases hnext : addUnsigned time.toNat sample.duration.toNat with
    | error failure =>
      unfold addUnsigned at hnext
      split_ifs at hnext
      cases hnext
      exact .inl rfl
    | ok next =>
      simp only [bind, Except.bind]
      rcases ih next with h | ⟨read, h, hsame⟩
      · rw [h]
        exact .inl rfl
      · rw [h]
        refine .inr ⟨_, rfl, fun trackId => ?_⟩
        rw [List.map_cons, List.map_cons, hsame]
        rfl

end Sample

namespace Fragment

theorem HoldsGroup.traced_eq {fragment : Fragment} {group : List TracedSample}
    (h : fragment.HoldsGroup group) {trex : Option TrackExtends}
    (hfits : fragment.samples trex ≠ .error .overflow) :
    ∃ read, fragment.traced trex = .ok read ∧
      read.map TracedSample.content = group.map TracedSample.content := by
  cases group with
  | nil => exact h.elim
  | cons first rest =>
    obtain ⟨hholds, hsame⟩ := h
    have hid : fragment.trackId? = some first.trackId := by
      obtain ⟨dataOffset, _, hshape⟩ := hholds.shape
      rw [hshape]
      rfl
    have hgroup : (first :: rest).map TracedSample.content =
        (first.sample :: rest.map (·.sample)).map (Sample.content first.trackId) := by
      have hrest : rest.map TracedSample.content =
          (rest.map (·.sample)).map (Sample.content first.trackId) := by
        rw [List.map_map]
        apply List.map_congr_left
        intro other hmem
        rw [TracedSample.content, hsame other hmem]
        rfl
      rw [List.map_cons, List.map_cons, hrest]
      rfl
    rw [hholds.samples_eq] at hfits
    rcases Sample.retimed_cases first.sample.decodeTime (first.sample :: rest.map (·.sample)) with
      herror | ⟨read, hread, hcontent⟩
    · exact absurd herror hfits
    · refine ⟨read.map (TracedSample.mk fragment.sequenceNumber first.trackId), ?_, ?_⟩
      · unfold traced
        rw [hid]
        simp only [hholds.samples_eq, hread]
        rfl
      · rw [hgroup, ← hcontent, List.map_map]
        rfl

/-- Fragments that were built from groups give the contents of all groups, in order. -/
theorem mapM_traced {fragments : List Fragment} {groups : List (List TracedSample)}
    (h : List.Forall₂ HoldsGroup fragments groups) {trex : Option TrackExtends}
    (hfits : ∀ fragment ∈ fragments, fragment.samples trex ≠ .error .overflow) :
    ∃ read, fragments.mapM (traced trex) = .ok read ∧
      read.flatten.map TracedSample.content = groups.flatten.map TracedSample.content := by
  induction h with
  | nil => exact ⟨[], rfl, rfl⟩
  | cons hfirst _ ih =>
    obtain ⟨first, hfirstRead, hfirstSame⟩ := hfirst.traced_eq (hfits _ (by simp))
    obtain ⟨rest, hrestRead, hrestSame⟩ := ih fun other hmem => hfits other (by simp [hmem])
    refine ⟨first :: rest, ?_, ?_⟩
    · rw [List.mapM_cons, hfirstRead, hrestRead]
      rfl
    · rw [List.flatten_cons, List.map_append, hfirstSame, hrestSame, List.flatten_cons,
        List.map_append]

end Fragment

namespace Segment

/-- The samples that are read from the fragments that a segment is cut into are, in order and
with their tracks, those that are read from the segment under the defaults of the track. It
takes no defaults to read them. -/
theorem recut_conserves {segment : Segment} {trex : TrackExtends} {target : Nat}
    {outputs : List Fragment} (h : segment.recut trex target = .ok outputs)
    (readTrex : Option TrackExtends)
    (hfits : ∀ output ∈ outputs, output.samples readTrex ≠ .error .overflow) :
    ∃ source read, segment.fragments.mapM (Fragment.traced (some trex)) = .ok source ∧
      outputs.mapM (Fragment.traced readTrex) = .ok read ∧
      read.flatten.map TracedSample.content = source.flatten.map TracedSample.content := by
  obtain ⟨source, hsource, hgroups⟩ := recut_groups h
  obtain ⟨read, hread, hsame⟩ := Fragment.mapM_traced hgroups hfits
  rw [Grouping.flatten_groups] at hsame
  exact ⟨source, read, hsource, hread, hsame⟩

/-- The first of two groups goes over the boundary of two fragments, whose samples take their
durations and sizes from the defaults of the track. -/
theorem recut_conserves_across_fragments :
    let trex : TrackExtends := ⟨7, 1, 10, 1, 0⟩
    let run : TrackRun :=
      ⟨some 100, none, [⟨none, none, some 0, none⟩, ⟨none, none, some 1, none⟩]⟩
    let moof : MovieFragment := ⟨⟨1⟩, [⟨.ofTrack 7, [run], some ⟨0, 5⟩⟩]⟩
    let segment :=
      (cmaf.addFragment (.ofBoxes moof ⟨[1, 2]⟩)).addFragment (.ofBoxes moof ⟨[3, 4]⟩)
    ∃ outputs, segment.recut trex 25 = .ok outputs ∧
      (∀ output ∈ outputs, output.samples none ≠ .error .overflow) ∧
      ∃ source read, segment.fragments.mapM (Fragment.traced (some trex)) = .ok source ∧
        outputs.mapM (Fragment.traced none) = .ok read ∧
        read.flatten.map TracedSample.content = source.flatten.map TracedSample.content := by
  intro trex run moof segment
  let outputs : List Fragment :=
    [.ofSamples 1 7 144 ⟨0, 10, 1, 0, 5, [1]⟩ [⟨1, 10, 1, 0, 15, [2]⟩, ⟨0, 10, 1, 0, 5, [3]⟩],
      .ofSamples 1 7 112 ⟨1, 10, 1, 0, 15, [4]⟩ []]
  have hrecut : segment.recut trex 25 = .ok outputs := by decide +kernel
  have hfits : ∀ output ∈ outputs, output.samples none ≠ .error .overflow := by decide +kernel
  exact ⟨outputs, hrecut, hfits, recut_conserves hrecut none hfits⟩

end Segment
end FragmentedMp4
