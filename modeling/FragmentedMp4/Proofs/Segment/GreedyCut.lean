import FragmentedMp4.Proofs.Segment.Grouping

/-!
# Segments are cut as early as possible

Each fragment of a segment that was cut ends with the first sample that completes the target
duration: until then its samples last for some time, but not long enough. The exceptions are
the last fragment, which may be short, and a sample without a duration at the start of a
fragment, which stays alone. The fragments are made of consecutive samples of the source, and
each of them takes its sequence number, its track and its decode time from the first of them.
-/
namespace FragmentedMp4

/-- Behind each sample but the last, some time has passed, but less than the target. -/
def RunsShort (target : Nat) (durations : List Nat) : Prop :=
  ∀ k, 1 ≤ k → k < durations.length →
    0 < (durations.take k).sum ∧ (durations.take k).sum < target

/-- The durations of the samples of one fragment. Behind the last sample the target is
reached, unless this is the last fragment or one sample that takes no time. -/
structure CutGreedily (target : Nat) (isLast : Prop) (durations : List Nat) : Prop where
  nonempty : 1 ≤ durations.length
  runsShort : RunsShort target durations
  ended : isLast ∨ target ≤ durations.sum ∨ durations = [0]

theorem CutGreedily.mono {target : Nat} {isLast isLast' : Prop} {durations : List Nat}
    (h : CutGreedily target isLast durations) (himp : isLast → isLast') :
    CutGreedily target isLast' durations :=
  ⟨h.nonempty, h.runsShort, h.ended.imp_left himp⟩

theorem runsShort_nil (target : Nat) : RunsShort target [] :=
  fun _ _ hlt => absurd hlt (Nat.not_lt_zero _)

theorem RunsShort.append {target : Nat} {durations : List Nat} (h : RunsShort target durations)
    (hsum : durations ≠ [] → 0 < durations.sum ∧ durations.sum < target) (duration : Nat) :
    RunsShort target (durations ++ [duration]) := by
  intro k hk hlt
  rw [List.length_append, List.length_singleton] at hlt
  rw [List.take_append_of_le_length (Nat.le_of_lt_succ hlt)]
  by_cases hlast : k = durations.length
  · rw [hlast, List.take_length]
    apply hsum
    intro hnil
    rw [hlast, hnil] at hk
    exact absurd hk (by decide)
  · exact h k hk (by omega)

theorem RunsShort.eq_singleton {target : Nat} {durations : List Nat}
    (h : RunsShort target durations) (hne : durations ≠ []) (hzero : durations.sum = 0) :
    durations = [0] := by
  cases durations with
  | nil => exact absurd rfl hne
  | cons first rest =>
    rw [List.sum_cons] at hzero
    cases rest with
    | nil => simpa using hzero
    | cons second rest =>
      have hpos : 0 < first := by simpa using (h 1 le_rfl (by simp)).1
      omega

namespace Grouping

def durations (group : List TracedSample) : List Nat :=
  group.map (·.sample.duration.toNat)

/-- All closed groups are cut as early as possible, and the open one has not come so far. -/
structure Greedy (target : Nat) (grouping : Grouping) : Prop where
  closed : ∀ group ∈ grouping.closed, CutGreedily target False (durations group)
  runsShort : RunsShort target (durations grouping.current)
  short : grouping.current = [] ∨ grouping.elapsed < target

variable {target : Nat} {grouping : Grouping}

theorem durations_ne_nil {group : List TracedSample} : durations group ≠ [] ↔ group ≠ [] :=
  not_congr List.map_eq_nil_iff

theorem Greedy.start (target : Nat) : start.Greedy target :=
  ⟨by simp [Grouping.start], runsShort_nil target, .inl rfl⟩

theorem cutGreedily_close (isLast : Prop)
    (hclosed : ∀ group ∈ grouping.closed, CutGreedily target isLast (durations group))
    (hshort : RunsShort target (durations grouping.current))
    (hended : grouping.current ≠ [] →
      isLast ∨ target ≤ grouping.elapsed ∨ durations grouping.current = [0]) :
    ∀ group ∈ grouping.close.closed, CutGreedily target isLast (durations group) := by
  intro group hmem
  rcases List.mem_append.1 hmem with hmem | hmem
  · exact hclosed group hmem
  · split_ifs at hmem with hempty
    · cases hmem
    · have hne : grouping.current ≠ [] := by simpa using hempty
      rw [List.mem_singleton.1 hmem]
      exact ⟨List.length_pos_iff.2 (durations_ne_nil.2 hne), hshort, hended hne⟩

theorem Greedy.close (h : grouping.Greedy target)
    (hended : grouping.current ≠ [] →
      target ≤ grouping.elapsed ∨ durations grouping.current = [0]) :
    grouping.close.Greedy target :=
  ⟨cutGreedily_close False h.closed h.runsShort fun hne => .inr (hended hne), runsShort_nil target,
    .inl rfl⟩

/-- Before a sample is placed, there is no open group, or time has passed in it. -/
theorem Greedy.ready (h : grouping.Greedy target) :
    grouping.ready.Greedy target ∧
      (grouping.ready.current = [] ∨ 0 < grouping.ready.elapsed) := by
  unfold Grouping.ready
  split_ifs with hzero
  · refine ⟨h.close fun hne => .inr ?_, .inl rfl⟩
    exact h.runsShort.eq_singleton (durations_ne_nil.2 hne) hzero
  · exact ⟨h, .inr (Nat.pos_of_ne_zero hzero)⟩

theorem Greedy.place (h : grouping.Greedy target) (traced : TracedSample) :
    (grouping.place target traced).Greedy target := by
  obtain ⟨hready, hpassed⟩ := h.ready
  have hpush : durations (grouping.ready.push traced).current =
      durations grouping.ready.current ++ [traced.sample.duration.toNat] := by
    simp [push, durations]
  have hshort : RunsShort target (durations (grouping.ready.push traced).current) := by
    rw [hpush]
    apply hready.runsShort.append
    intro hne
    have hopen := durations_ne_nil.1 hne
    exact ⟨hpassed.resolve_left hopen, hready.short.resolve_left hopen⟩
  unfold Grouping.place cut
  split_ifs with hfull
  · exact ⟨cutGreedily_close False hready.closed hshort fun _ => .inr (.inl hfull),
      runsShort_nil target, .inl rfl⟩
  · exact ⟨hready.closed, hshort, .inr (Nat.lt_of_not_le hfull)⟩

theorem Greedy.foldl (h : grouping.Greedy target) (samples : List TracedSample) :
    (samples.foldl (Grouping.place target) grouping).Greedy target := by
  induction samples generalizing grouping with
  | nil => exact h
  | cons traced samples ih => exact ih (h.place traced)

/-- Every group is cut as early as possible, and only the last one may be short. -/
theorem cutGreedily_groups (target : Nat) (samples : List TracedSample) (i : Nat)
    (hi : i < (groups target samples).length) :
    CutGreedily target (i + 1 = (groups target samples).length)
      (durations (groups target samples)[i]) := by
  have h := (Greedy.start target).foldl samples
  unfold groups at hi ⊢
  generalize samples.foldl (Grouping.place target) Grouping.start = grouping at h hi ⊢
  by_cases hclosed : i < grouping.closed.length
  · have hget : grouping.close.closed[i] = grouping.closed[i] :=
      List.getElem_append_left hclosed
    rw [hget]
    exact (h.closed _ (List.getElem_mem hclosed)).mono False.elim
  · -- only the group that was open at the end can stand behind the closed ones
    have hlength : grouping.close.closed.length ≤ grouping.closed.length + 1 := by
      unfold Grouping.close
      rw [List.length_append]
      split_ifs <;> simp
    have hall := cutGreedily_close True
      (fun group hmem => (h.closed group hmem).mono False.elim) h.runsShort fun _ => .inl trivial
    exact (hall _ (List.getElem_mem hi)).mono fun _ => by omega

end Grouping

namespace Fragment

def storedDurations (fragment : Fragment) : List Nat :=
  fragment.moof.tracks.flatMap fun track => track.runs.flatMap fun run =>
    run.samples.filterMap fun entry => entry.duration.map (·.toNat)

/-- The fragment is made of samples of the source. It has one track fragment with one run, and
begins where the first sample does; it gives the samples back, and its payload is their data. -/
structure MadeOf (fragment : Fragment) (first : TracedSample) (rest : List TracedSample) :
    Prop where
  sequenceNumber : fragment.sequenceNumber = first.sequenceNumber
  track : ∃ track run, fragment.moof.tracks = [track] ∧ track.runs = [run] ∧
    track.trackId = first.trackId ∧
    track.decodeTime.map (·.time) = some first.sample.decodeTime
  durations : fragment.storedDurations = Grouping.durations (first :: rest)
  samples : ∀ trex, fragment.samples trex =
    Sample.retimed first.sample.decodeTime ((first :: rest).map (·.sample))
  payload : fragment.mdat.payload = (first :: rest).flatMap (·.sample.data)

theorem HoldsGroup.madeOf {fragment : Fragment} {group : List TracedSample}
    (h : fragment.HoldsGroup group) : ∃ first rest, group = first :: rest ∧
      fragment.MadeOf first rest := by
  cases group with
  | nil => exact h.elim
  | cons first rest =>
    obtain ⟨hholds, _⟩ := h
    obtain ⟨dataOffset, _, hshape⟩ := hholds.shape
    refine ⟨first, rest, rfl, ?_, ?_, ?_, hholds.samples_eq, ?_⟩
    · rw [hshape]
      rfl
    · rw [hshape]
      exact ⟨_, _, rfl, rfl, rfl, rfl⟩
    · rw [hshape]
      simp [ofSamples, TrackFragment.ofSamples, ofBoxes, storedDurations, Grouping.durations,
        Sample.entry, List.filterMap_map, Function.comp_def]
    · rw [hshape]
      simp [ofSamples, ofBoxes, List.flatMap_map]

end Fragment

namespace Segment

/-- A segment that can be cut is cut as early as possible everywhere: each fragment ends as
soon as its samples last for the target, and no other fragment but the last one is short,
unless it is one sample that takes no time. The fragments are made of the samples of the
segment under the defaults of the track, in order. -/
theorem recut_cuts_greedily {segment : Segment} {trex : TrackExtends} {target : Nat}
    {outputs : List Fragment} (h : segment.recut trex target = .ok outputs) :
    (∀ i (hi : i < outputs.length),
      CutGreedily target (i + 1 = outputs.length) outputs[i].storedDurations) ∧
    ∃ source groups, segment.fragments.mapM (Fragment.traced (some trex)) = .ok source ∧
      groups.flatten = source.flatten ∧
      List.Forall₂ (fun output group => ∃ first rest, group = first :: rest ∧
        output.MadeOf first rest) outputs groups := by
  obtain ⟨source, hsource, hgroups⟩ := recut_groups h
  have hmade := hgroups.imp fun _ _ hholds => hholds.madeOf
  refine ⟨?_, source, _, hsource, Grouping.flatten_groups target source.flatten, hmade⟩
  intro i hi
  have hlength := hmade.length_eq
  obtain ⟨first, rest, hgroup, hfragment⟩ := hmade.get hi (hlength ▸ hi)
  have hcut := Grouping.cutGreedily_groups target source.flatten i (hlength ▸ hi)
  simp only [List.get_eq_getElem] at hgroup hfragment
  rw [hgroup, ← hfragment.durations, ← hlength] at hcut
  exact hcut

/-- A sample without a duration that begins a fragment, a group over the boundary of two
fragments of the source and a short rest. -/
theorem recut_cuts_greedily_over_zeros :
    let trex : TrackExtends := ⟨7, 1, 10, 1, 0⟩
    let entry (duration : UInt32) : RunSample := ⟨some duration, none, none, none⟩
    let moof (number : UInt32) (time : UInt64) (entries : List RunSample) : MovieFragment :=
      ⟨⟨number⟩, [⟨.ofTrack 7, [⟨none, none, entries⟩], some ⟨0, time⟩⟩]⟩
    let segment := (cmaf.addFragment
      (.ofBoxes (moof 1 5 [entry 0, entry 10, entry 0]) ⟨[1, 2, 3]⟩)).addFragment
      (.ofBoxes (moof 2 40 [entry 20, entry 3]) ⟨[4, 5]⟩)
    ∃ outputs, segment.recut trex 25 = .ok outputs ∧
      outputs.map (·.storedDurations) = [[0], [10, 0, 20], [3]] ∧
      (∀ i (hi : i < outputs.length),
        CutGreedily 25 (i + 1 = outputs.length) outputs[i].storedDurations) ∧
      ∃ source groups, segment.fragments.mapM (Fragment.traced (some trex)) = .ok source ∧
        groups.flatten = source.flatten ∧
        List.Forall₂ (fun output group => ∃ first rest, group = first :: rest ∧
          output.MadeOf first rest) outputs groups := by
  intro trex entry moof segment
  let outputs : List Fragment :=
    [.ofSamples 1 7 112 ⟨0, 0, 1, 0, 5, [1]⟩ [],
      .ofSamples 1 7 144 ⟨0, 10, 1, 0, 5, [2]⟩ [⟨0, 0, 1, 0, 15, [3]⟩, ⟨0, 20, 1, 0, 40, [4]⟩],
      .ofSamples 2 7 112 ⟨0, 3, 1, 0, 60, [5]⟩ []]
  have hrecut : segment.recut trex 25 = .ok outputs := by decide +kernel
  exact ⟨outputs, hrecut, by decide, recut_cuts_greedily hrecut⟩

end Segment
end FragmentedMp4
