import FragmentedMp4.Proofs.Segment.Recut

/-!
# What cutting a segment does to its timeline

A fragment stores the decode time of its first sample only, and those of the others follow from
the durations. So samples that are cut into one fragment are read without gaps between them, and
they keep their decode times exactly if there were none. A gap between two fragments of the
source goes with the first group that spans it.
-/
namespace FragmentedMp4

namespace Sample

def Follows (sample next : Sample) : Prop :=
  next.decodeTime.toNat = sample.decodeTime.toNat + sample.duration.toNat

/-- Samples whose decode times are counted anew keep them if they follow one another from the
start on. -/
theorem retimed_times_iff {time : UInt64} {samples read : List Sample}
    (h : retimed time samples = .ok read) :
    read.map (·.decodeTime) = samples.map (·.decodeTime) ↔
      (∀ first ∈ samples.head?, first.decodeTime = time) ∧ samples.IsChain Follows := by
  induction samples generalizing time read with
  | nil =>
    cases h
    simp
  | cons sample samples ih =>
    rw [retimed] at h
    obtain ⟨next, hnext, h⟩ := bind_eq_ok.1 h
    obtain ⟨rest, hrest, h⟩ := bind_eq_ok.1 h
    cases h
    have htime := addUnsigned_eq_ok hnext
    have hhead : (∀ first ∈ (sample :: samples).head?, first.decodeTime = time) ↔
        sample.decodeTime = time := by
      simp
    rw [List.map_cons, List.map_cons, List.cons.injEq, ih hrest, List.isChain_cons, hhead]
    constructor
    · rintro ⟨hsame, hfirst, hchain⟩
      refine ⟨hsame.symm, ?_, hchain⟩
      intro second hmem
      have htimes : time = sample.decodeTime := hsame
      unfold Follows
      rw [hfirst second hmem, htime, htimes]
    · rintro ⟨hsame, hfollows, hchain⟩
      refine ⟨hsame.symm, ?_, hchain⟩
      intro second hmem
      have hsecond : second.decodeTime.toNat = sample.decodeTime.toNat + sample.duration.toNat :=
        hfollows second hmem
      apply UInt64.toNat_inj.1
      rw [hsecond, htime, hsame]

theorem length_retimed {time : UInt64} {samples read : List Sample}
    (h : retimed time samples = .ok read) : read.length = samples.length := by
  rcases retimed_cases time samples with herror | ⟨found, hfound, hcontent⟩
  · cases herror.symm.trans h
  · cases hfound.symm.trans h
    simpa using congrArg List.length (hcontent 0)

end Sample

namespace TracedSample

def decodeTime (traced : TracedSample) : UInt64 :=
  traced.sample.decodeTime

def Follows (traced next : TracedSample) : Prop :=
  traced.sample.Follows next.sample

end TracedSample

namespace Fragment

theorem HoldsGroup.retimed_eq {fragment : Fragment} {first : TracedSample}
    {rest read : List TracedSample} (h : fragment.HoldsGroup (first :: rest))
    {trex : Option TrackExtends} (hread : fragment.traced trex = .ok read) :
    Sample.retimed first.decodeTime ((first :: rest).map (·.sample)) =
      .ok (read.map (·.sample)) := by
  unfold traced at hread
  cases hid : fragment.trackId? with
  | none =>
    rw [hid] at hread
    cases hread
  | some trackId =>
    rw [hid] at hread
    obtain ⟨samples, hsamples, rfl⟩ := map_eq_ok.1 hread
    rw [h.1.samples_eq] at hsamples
    rw [List.map_map]
    exact hsamples.trans (congrArg Except.ok samples.map_id.symm)

/-- A fragment that was built from a group keeps its decode times if there are no gaps. -/
theorem HoldsGroup.times_iff {fragment : Fragment} {group read : List TracedSample}
    (h : fragment.HoldsGroup group) {trex : Option TrackExtends}
    (hread : fragment.traced trex = .ok read) :
    read.length = group.length ∧
      (read.map (·.decodeTime) = group.map (·.decodeTime) ↔
        group.IsChain TracedSample.Follows) := by
  cases group with
  | nil => exact h.elim
  | cons first rest =>
    have hretimed := h.retimed_eq hread
    have htimes := Sample.retimed_times_iff hretimed
    have hstart : ∀ sample ∈ ((first :: rest).map (·.sample)).head?,
        sample.decodeTime = first.decodeTime := by
      simp [TracedSample.decodeTime]
    rw [and_iff_right hstart, List.isChain_map, List.map_map, List.map_map] at htimes
    exact ⟨by simpa using Sample.length_retimed hretimed, htimes⟩

theorem times_iff {fragments : List Fragment} {groups read : List (List TracedSample)}
    (h : List.Forall₂ HoldsGroup fragments groups) {trex : Option TrackExtends}
    (hread : fragments.mapM (traced trex) = .ok read) :
    read.flatten.map (·.decodeTime) = groups.flatten.map (·.decodeTime) ↔
      ∀ group ∈ groups, group.IsChain TracedSample.Follows := by
  induction h generalizing read with
  | nil =>
    cases hread
    simp
  | @cons fragment group fragments groups hholds _ ih =>
    rw [List.mapM_cons] at hread
    obtain ⟨first, hfirst, hread⟩ := bind_eq_ok.1 hread
    obtain ⟨rest, hrest, hread⟩ := bind_eq_ok.1 hread
    cases hread
    obtain ⟨hlength, hiff⟩ := hholds.times_iff hfirst
    rw [List.flatten_cons, List.flatten_cons, List.map_append, List.map_append,
      List.forall_mem_cons, ← hiff, ← ih hrest]
    constructor
    · intro hsame
      exact List.append_inj hsame (by simpa using hlength)
    · rintro ⟨hone, hmore⟩
      rw [hone, hmore]

end Fragment

namespace Segment

/-- The samples that are read from the fragments that a segment is cut into have, in order, the
decode times that they have in the segment, exactly if those in each new fragment follow one
another without a gap. So they do, whatever the target, if there is no gap in the segment. -/
theorem recut_keeps_times_iff {segment : Segment} {trex : TrackExtends} {target : Nat}
    {outputs : List Fragment} (h : segment.recut trex target = .ok outputs)
    (readTrex : Option TrackExtends)
    (hfits : ∀ output ∈ outputs, output.samples readTrex ≠ .error .overflow) :
    ∃ source read, segment.fragments.mapM (Fragment.traced (some trex)) = .ok source ∧
      outputs.mapM (Fragment.traced readTrex) = .ok read ∧
      (read.flatten.map (·.decodeTime) = source.flatten.map (·.decodeTime) ↔
        ∀ group ∈ Grouping.groups target source.flatten, group.IsChain TracedSample.Follows) ∧
      (source.flatten.IsChain TracedSample.Follows →
        read.flatten.map (·.decodeTime) = source.flatten.map (·.decodeTime)) := by
  obtain ⟨source, hsource, hgroups⟩ := recut_groups h
  obtain ⟨read, hread, -⟩ := Fragment.mapM_traced hgroups hfits
  have htimes := Fragment.times_iff hgroups hread
  have hflatten := Grouping.flatten_groups target source.flatten
  rw [hflatten] at htimes
  refine ⟨source, read, hsource, hread, htimes, ?_⟩
  intro hchain
  apply htimes.2
  intro group hmem
  rw [← hflatten] at hchain
  exact hchain.infix (List.infix_of_mem_flatten hmem)

/-- The first of two groups goes over the boundary of two fragments, and the second fragment
begins when the first one ends. -/
theorem recut_keeps_times_without_gap :
    let trex : TrackExtends := ⟨7, 1, 10, 1, 0⟩
    let run : TrackRun :=
      ⟨some 100, none, [⟨none, none, some 0, none⟩, ⟨none, none, some 1, none⟩]⟩
    let moof (time : UInt64) : MovieFragment := ⟨⟨1⟩, [⟨.ofTrack 7, [run], some ⟨0, time⟩⟩]⟩
    let segment :=
      (cmaf.addFragment (.ofBoxes (moof 5) ⟨[1, 2]⟩)).addFragment (.ofBoxes (moof 25) ⟨[3, 4]⟩)
    ∃ outputs, segment.recut trex 25 = .ok outputs ∧
      (∀ output ∈ outputs, output.samples none ≠ .error .overflow) ∧
      ∃ source read, segment.fragments.mapM (Fragment.traced (some trex)) = .ok source ∧
        outputs.mapM (Fragment.traced none) = .ok read ∧
        (read.flatten.map (·.decodeTime) = source.flatten.map (·.decodeTime) ↔
          ∀ group ∈ Grouping.groups 25 source.flatten, group.IsChain TracedSample.Follows) ∧
        (source.flatten.IsChain TracedSample.Follows →
          read.flatten.map (·.decodeTime) = source.flatten.map (·.decodeTime)) := by
  intro trex run moof segment
  let outputs : List Fragment :=
    [.ofSamples 1 7 144 ⟨0, 10, 1, 0, 5, [1]⟩ [⟨1, 10, 1, 0, 15, [2]⟩, ⟨0, 10, 1, 0, 25, [3]⟩],
      .ofSamples 1 7 112 ⟨1, 10, 1, 0, 35, [4]⟩ []]
  have hrecut : segment.recut trex 25 = .ok outputs := by decide +kernel
  have hfits : ∀ output ∈ outputs, output.samples none ≠ .error .overflow := by decide +kernel
  exact ⟨outputs, hrecut, hfits, recut_keeps_times_iff hrecut none hfits⟩

/-- Two fragments of one sample each, the second of which begins long after the first one ends.
In the fragment that both are cut into the second sample is decoded when the first one ends. -/
theorem recut_closes_gap :
    let trex : TrackExtends := ⟨1, 1, 0, 0, 0⟩
    let segment :=
      ((ofType none).addFragment (.ofSamples 1 1 112 ⟨0, 10, 1, 0, 0, [1]⟩ [])).addFragment
        (.ofSamples 2 1 112 ⟨0, 10, 1, 0, 100, [2]⟩ [])
    ∃ output, segment.recut trex 20 = .ok [output] ∧
      segment.fragments.mapM (·.samples (some trex)) =
        .ok [[⟨0, 10, 1, 0, 0, [1]⟩], [⟨0, 10, 1, 0, 100, [2]⟩]] ∧
      output.samples (some trex) = .ok [⟨0, 10, 1, 0, 0, [1]⟩, ⟨0, 10, 1, 0, 10, [2]⟩] := by
  intro trex segment
  let output : Fragment :=
    .ofSamples 1 1 128 ⟨0, 10, 1, 0, 0, [1]⟩ [⟨0, 10, 1, 0, 100, [2]⟩]
  exact ⟨output, by decide +kernel, by decide +kernel, by decide +kernel⟩

end Segment
end FragmentedMp4
