import FragmentedMp4.Proofs.Segment.Feasibility
import FragmentedMp4.Proofs.Segment.Timeline

/-!
# Cutting a segment twice

Where a segment is cut depends on the contents of its samples alone, and not on the fragments that
they come from. So a segment that was cut before is cut like the segment that it was cut from,
whatever the second target is; and with the same target it is cut into the fragments that it has.
-/
namespace FragmentedMp4

/-- Samples that differ in their decode times and in the fragments that they come from only. -/
def SameContents (group other : List TracedSample) : Prop :=
  group.map TracedSample.content = other.map TracedSample.content

namespace SameContents

variable {group other more : List TracedSample}

theorem trans (h : SameContents group other) (hmore : SameContents other more) :
    SameContents group more :=
  Eq.trans h hmore

theorem symm (h : SameContents group other) : SameContents other group :=
  Eq.symm h

theorem length_eq (h : SameContents group other) : group.length = other.length := by
  simpa using congrArg List.length h

theorem append_singleton {traced next : TracedSample} (h : SameContents group other)
    (hnext : traced.content = next.content) :
    SameContents (group ++ [traced]) (other ++ [next]) := by
  unfold SameContents at h ⊢
  rw [List.map_append, List.map_append, h, List.map_singleton, List.map_singleton, hnext]

theorem fitTogether_iff (h : SameContents group other) :
    FitTogether (group.map TracedSample.content) ↔ FitTogether (other.map TracedSample.content) :=
  iff_of_eq (congrArg FitTogether h)

theorem fitTogether_groups {groups others : List (List TracedSample)}
    (h : List.Forall₂ SameContents groups others) :
    (∀ group ∈ groups, FitTogether (group.map TracedSample.content)) ↔
      ∀ group ∈ others, FitTogether (group.map TracedSample.content) := by
  induction h with
  | nil => exact Iff.rfl
  | cons hfirst _ ih =>
    rw [List.forall_mem_cons, List.forall_mem_cons, ih, hfirst.fitTogether_iff]

theorem flatten {groups others : List (List TracedSample)}
    (h : List.Forall₂ SameContents groups others) :
    SameContents groups.flatten others.flatten := by
  induction h with
  | nil => rfl
  | cons hfirst _ ih =>
    unfold SameContents at hfirst ih ⊢
    rw [List.flatten_cons, List.flatten_cons, List.map_append, List.map_append, hfirst, ih]

theorem eq_of_flatten_eq {groups others : List (List TracedSample)}
    (h : List.Forall₂ SameContents groups others) (hflatten : groups.flatten = others.flatten) :
    groups = others := by
  refine List.eq_iff_flatten_eq.2 ⟨hflatten, ?_⟩
  clear hflatten
  induction h with
  | nil => rfl
  | cons hfirst _ ih => rw [List.map_cons, List.map_cons, hfirst.length_eq, ih]

end SameContents

namespace Grouping

/-- The groups on both sides have the same contents. -/
structure Alike (grouping other : Grouping) : Prop where
  closed : List.Forall₂ SameContents grouping.closed other.closed
  current : SameContents grouping.current other.current

namespace Alike

variable {grouping other : Grouping}

theorem start : start.Alike start :=
  ⟨.nil, rfl⟩

theorem elapsed_eq (h : grouping.Alike other) : grouping.elapsed = other.elapsed := by
  have hdurations := congrArg (List.map fun content => content.duration.toNat) h.current
  rw [List.map_map, List.map_map] at hdurations
  exact congrArg List.sum hdurations

theorem close (h : grouping.Alike other) : grouping.close.Alike other.close := by
  refine ⟨List.rel_append h.closed ?_, rfl⟩
  have hempty : grouping.current.isEmpty = other.current.isEmpty := by
    rw [Bool.eq_iff_iff, List.isEmpty_iff_length_eq_zero, List.isEmpty_iff_length_eq_zero,
      h.current.length_eq]
  rw [hempty]
  split_ifs
  · exact .nil
  · exact .cons h.current .nil

theorem ready (h : grouping.Alike other) : grouping.ready.Alike other.ready := by
  unfold Grouping.ready
  rw [h.elapsed_eq]
  split_ifs
  · exact h.close
  · exact h

theorem push (h : grouping.Alike other) {traced next : TracedSample}
    (hnext : traced.content = next.content) : (grouping.push traced).Alike (other.push next) :=
  ⟨h.closed, h.current.append_singleton hnext⟩

theorem cut (h : grouping.Alike other) (target : Nat) :
    (grouping.cut target).Alike (other.cut target) := by
  unfold Grouping.cut
  rw [h.elapsed_eq]
  split_ifs
  · exact h.close
  · exact h

theorem place (h : grouping.Alike other) (target : Nat) {traced next : TracedSample}
    (hnext : traced.content = next.content) :
    (grouping.place target traced).Alike (other.place target next) :=
  (h.ready.push hnext).cut target

end Alike

theorem groups_alike (target : Nat) {samples others : List TracedSample}
    (h : SameContents samples others) :
    List.Forall₂ SameContents (groups target samples) (groups target others) := by
  have hall : List.Forall₂ (fun traced next => traced.content = next.content) samples others := by
    have heq : List.Forall₂ (· = ·) (samples.map TracedSample.content)
        (others.map TracedSample.content) := by
      rw [List.forall₂_eq_eq_eq]
      exact h
    rwa [List.forall₂_map_left_iff, List.forall₂_map_right_iff] at heq
  exact (List.rel_foldl (fun _ _ halike _ _ hnext => halike.place target hnext) Alike.start
    hall).close.closed

end Grouping

theorem Sample.decodeTime_retimed {time : UInt64} {samples rest : List Sample} {first : Sample}
    (h : retimed time samples = .ok (first :: rest)) : first.decodeTime = time := by
  cases samples with
  | nil => cases h
  | cons sample samples =>
    rw [retimed] at h
    obtain ⟨next, -, h⟩ := bind_eq_ok.1 h
    obtain ⟨later, -, h⟩ := bind_eq_ok.1 h
    cases h
    rfl

/-- The entry of a sample with these contents. -/
def SampleContent.entry (content : SampleContent) : RunSample :=
  ⟨some content.duration, some content.size, some content.flags, some content.compositionOffset⟩

namespace Fragment

variable {fragment other : Fragment} {group read : List TracedSample}

/-- Two fragments of the same track that give samples of the same contents, as far as the decode
times of these fit their words. -/
structure GivesSame (fragment other : Fragment) : Prop where
  trackId : fragment.trackId? = other.trackId?
  contents : ∀ trex, fragment.samples trex ≠ .error .overflow →
    other.samples trex ≠ .error .overflow → ∃ read again, fragment.traced trex = .ok read ∧
      other.traced trex = .ok again ∧ SameContents read again

/-- The fragment that is built from samples depends on their contents, on the decode time of the
first of them and on where that comes from. -/
theorem ofSamples_congr {sequenceNumber trackId : UInt32} {dataOffset : Int32}
    {first first' : Sample} {rest rest' : List Sample}
    (htime : first.decodeTime = first'.decodeTime)
    (hcontents : (first :: rest).map (Sample.content trackId) =
      (first' :: rest').map (Sample.content trackId)) :
    ofSamples sequenceNumber trackId dataOffset first rest =
      ofSamples sequenceNumber trackId dataOffset first' rest' := by
  have hentries : (first :: rest).map Sample.entry = (first' :: rest').map Sample.entry := by
    have hmap := congrArg (List.map SampleContent.entry) hcontents
    rwa [List.map_map, List.map_map] at hmap
  have hdata : (first :: rest).flatMap (·.data) = (first' :: rest').flatMap (·.data) := by
    have hmap := congrArg (List.flatMap SampleContent.data) hcontents
    rwa [List.flatMap_map, List.flatMap_map] at hmap
  unfold ofSamples TrackFragment.ofSamples
  rw [hentries, hdata, htime]

theorem origin_of_traced {trex : Option TrackExtends} (hread : fragment.traced trex = .ok read) :
    ∀ traced ∈ read, traced.sequenceNumber = fragment.sequenceNumber ∧
      fragment.trackId? = some traced.trackId := by
  unfold traced at hread
  split at hread
  · cases hread
  · rename_i trackId hid
    obtain ⟨samples, -, rfl⟩ := map_eq_ok.1 hread
    rw [List.forall_mem_map]
    exact fun sample _ => ⟨rfl, hid⟩

namespace HoldsGroup

theorem checkSingleRun (h : fragment.HoldsGroup group) : fragment.checkSingleRun = .ok () := by
  cases group with
  | nil => exact h.elim
  | cons first rest =>
    obtain ⟨dataOffset, -, hshape⟩ := h.1.shape
    rw [hshape]
    rfl

theorem contents_of_traced (h : fragment.HoldsGroup group) {trex : Option TrackExtends}
    (hread : fragment.traced trex = .ok read) : SameContents read group := by
  have hfits : fragment.samples trex ≠ .error .overflow := by
    intro hoverflow
    unfold traced at hread
    rw [hoverflow] at hread
    split at hread <;> cases hread
  obtain ⟨found, hfound, hsame⟩ := h.traced_eq hfits
  cases hread.symm.trans hfound
  exact hsame

theorem trackId?_eq (h : fragment.HoldsGroup group) :
    fragment.trackId? = (group.map TracedSample.content).head?.map (·.trackId) := by
  cases group with
  | nil => exact h.elim
  | cons first rest =>
    obtain ⟨dataOffset, -, hshape⟩ := h.1.shape
    rw [hshape]
    rfl

theorem givesSame {group' : List TracedSample} (h : fragment.HoldsGroup group)
    (h' : other.HoldsGroup group') (hsame : SameContents group group') :
    fragment.GivesSame other := by
  constructor
  · rw [h.trackId?_eq, h'.trackId?_eq]
    exact congrArg (fun contents => contents.head?.map (·.trackId)) hsame
  · intro trex hfits hfits'
    obtain ⟨read, hread, hcontents⟩ := h.traced_eq hfits
    obtain ⟨again, hagain, hcontents'⟩ := h'.traced_eq hfits'
    exact ⟨read, again, hread, hagain,
      SameContents.trans hcontents (hsame.trans (SameContents.symm hcontents'))⟩

/-- A fragment that is built from what was read of a fragment is the same fragment. -/
theorem eq_of_traced (h : fragment.HoldsGroup group) {trex : Option TrackExtends}
    (hread : fragment.traced trex = .ok read) (hother : other.HoldsGroup read) :
    other = fragment := by
  cases group with
  | nil => exact h.elim
  | cons first rest =>
    have hretimed := h.retimed_eq hread
    cases read with
    | nil => exact hother.elim
    | cons first' rest' =>
      obtain ⟨hnumber, htrack⟩ := origin_of_traced hread first' (List.mem_cons_self ..)
      rw [h.trackId?_eq] at htrack
      obtain ⟨dataOffset, hoffset, hshape⟩ := h.1.shape
      obtain ⟨dataOffset', hoffset', hshape'⟩ := hother.1.shape
      have hcontents : (first'.sample :: rest'.map (·.sample)).map (Sample.content first.trackId) =
          (first.sample :: rest.map (·.sample)).map (Sample.content first.trackId) := by
        rcases Sample.retimed_cases first.decodeTime ((first :: rest).map (·.sample)) with
          herror | ⟨found, hfound, hsame⟩
        · cases herror.symm.trans hretimed
        · cases hfound.symm.trans hretimed
          exact hsame first.trackId
      have htime : first'.sample.decodeTime = first.sample.decodeTime :=
        Sample.decodeTime_retimed hretimed
      have hnumber' : first'.sequenceNumber = first.sequenceNumber := by
        rw [hnumber, hshape]
        rfl
      have htrack' : first'.trackId = first.trackId := (Option.some.inj htrack).symm
      rw [hnumber', htrack', ofSamples_congr htime hcontents] at hshape'
      have hsame : dataOffset' = dataOffset := by
        apply Int32.toInt_inj.1
        rw [hoffset, hoffset', hshape, hshape', payloadOffset_ofSamples, payloadOffset_ofSamples]
      rw [hshape', hshape, hsame]

end HoldsGroup
end Fragment

namespace Segment

variable {segment other : Segment} {trex : TrackExtends} {target : Nat} {outputs : List Fragment}

/-- Segments whose samples have the same contents, in order, are cut alike: either both can be cut
or neither can, and if they can, they are cut into fragments that give the same samples. -/
theorem recut_alike {source source' : List (List TracedSample)}
    (hchecks : ∀ fragment ∈ segment.fragments, fragment.checkSingleRun = .ok ())
    (hchecks' : ∀ fragment ∈ other.fragments, fragment.checkSingleRun = .ok ())
    (hsource : segment.fragments.mapM (Fragment.traced (some trex)) = .ok source)
    (hsource' : other.fragments.mapM (Fragment.traced (some trex)) = .ok source')
    (hsame : SameContents source.flatten source'.flatten) (target : Nat) :
    ((∃ again, segment.recut trex target = .ok again) ↔
      ∃ direct, other.recut trex target = .ok direct) ∧
    ∀ again direct, segment.recut trex target = .ok again → other.recut trex target = .ok direct →
      List.Forall₂ Fragment.GivesSame again direct := by
  have halike := Grouping.groups_alike target hsame
  constructor
  · rw [recut_iff, recut_iff, and_iff_right hchecks, and_iff_right hchecks', hsource, hsource']
    simp only [Except.ok.injEq, exists_eq_left']
    exact SameContents.fitTogether_groups halike
  · intro again direct hagain hdirect
    obtain ⟨found, hfound, hgroups⟩ := recut_groups hagain
    obtain ⟨found', hfound', hgroups'⟩ := recut_groups hdirect
    cases hsource.symm.trans hfound
    cases hsource'.symm.trans hfound'
    have hholds : List.Forall₂ (fun fragment group' => ∃ group, fragment.HoldsGroup group ∧
        SameContents group group') again (Grouping.groups target source'.flatten) :=
      forall₂_comp (fun _ group _ hholds hsame => ⟨group, hholds, hsame⟩) hgroups halike
    exact forall₂_comp (fun _ _ _ ⟨_, hholds, hsame⟩ hholds' => hholds.givesSame hholds' hsame)
      hholds hgroups'.flip

/-- The groups of what is read of the fragments that a segment was cut into are these fragments. -/
theorem groups_of_recut (h : segment.recut trex target = .ok outputs)
    {read : List (List TracedSample)}
    (hread : outputs.mapM (Fragment.traced (some trex)) = .ok read) :
    Grouping.groups target read.flatten = read := by
  obtain ⟨source, -, hgroups⟩ := recut_groups h
  have hread' : List.Forall₂ SameContents read (Grouping.groups target source.flatten) :=
    forall₂_comp (fun _ _ _ hread hholds => hholds.contents_of_traced hread)
      (mapM_eq_ok.1 hread).flip hgroups
  have hflatten := SameContents.flatten hread'
  rw [Grouping.flatten_groups] at hflatten
  have hsame : List.Forall₂ SameContents (Grouping.groups target read.flatten) read :=
    forall₂_comp (fun _ _ _ halike hsame => halike.trans (SameContents.symm hsame))
      (Grouping.groups_alike target hflatten) hread'.flip
  exact SameContents.eq_of_flatten_eq hsame (Grouping.flatten_groups target read.flatten)

/-- A segment with the fragments that another segment was cut into, whose decode times fit their
words, is cut like that segment. Either both can be cut for a target, or neither can, and if they
can, they are cut into fragments that give the same samples. With the target for which it was cut
before, it is cut into the fragments that it has. -/
theorem recut_recut {cut : Segment} (h : segment.recut trex target = .ok outputs)
    (hcut : cut.fragments = outputs)
    (hfits : ∀ output ∈ outputs, output.samples (some trex) ≠ .error .overflow) :
    (∀ next, (∃ again, cut.recut trex next = .ok again) ↔
      ∃ direct, segment.recut trex next = .ok direct) ∧
    (∀ next again direct, cut.recut trex next = .ok again → segment.recut trex next = .ok direct →
      List.Forall₂ Fragment.GivesSame again direct) ∧
    cut.recut trex target = .ok outputs := by
  obtain ⟨source, hsource, hgroups⟩ := recut_groups h
  obtain ⟨read, hread, hcontents⟩ := Fragment.mapM_traced hgroups hfits
  rw [Grouping.flatten_groups] at hcontents
  have hchecks : ∀ output ∈ outputs, output.checkSingleRun = .ok () := by
    intro output hmem
    obtain ⟨group, -, hholds⟩ := exists_of_forall₂ hgroups output hmem
    exact hholds.checkSingleRun
  subst hcut
  have halike := recut_alike hchecks (recut_iff.1 ⟨_, h⟩).1 hread hsource hcontents
  refine ⟨fun next => (halike next).1, fun next => (halike next).2, ?_⟩
  obtain ⟨again, hagain⟩ := (halike target).1.2 ⟨_, h⟩
  obtain ⟨found, hfound, hagainGroups⟩ := recut_groups hagain
  cases hread.symm.trans hfound
  rw [groups_of_recut h hread] at hagainGroups
  have hbuilt : List.Forall₂ (fun output samples => (∃ group, output.HoldsGroup group) ∧
      output.traced (some trex) = .ok samples) cut.fragments read := by
    refine (List.forall₂_and_left _ _).2 ⟨fun output hmem => ?_, mapM_eq_ok.1 hread⟩
    obtain ⟨group, -, hholds⟩ := exists_of_forall₂ hgroups output hmem
    exact ⟨group, hholds⟩
  have hsame : List.Forall₂ (· = ·) again cut.fragments :=
    forall₂_comp (fun _ _ _ hholds ⟨⟨_, hgroup⟩, htraced⟩ => hgroup.eq_of_traced htraced hholds)
      hagainGroups hbuilt.flip
  rw [List.forall₂_eq_eq_eq] at hsame
  rw [hagain, hsame]

/-- A segment of two fragments, whose samples take their durations and sizes from the defaults of
the track, is cut over the boundary of the fragments and then once more in another place. -/
theorem recut_recut_across_fragments :
    let trex : TrackExtends := ⟨7, 1, 10, 1, 0⟩
    let run : TrackRun :=
      ⟨some 100, none, [⟨none, none, some 0, none⟩, ⟨none, none, some 1, none⟩]⟩
    let moof : MovieFragment := ⟨⟨1⟩, [⟨.ofTrack 7, [run], some ⟨0, 5⟩⟩]⟩
    let segment :=
      (cmaf.addFragment (.ofBoxes moof ⟨[1, 2]⟩)).addFragment (.ofBoxes moof ⟨[3, 4]⟩)
    let outputs : List Fragment :=
      [.ofSamples 1 7 144 ⟨0, 10, 1, 0, 5, [1]⟩ [⟨1, 10, 1, 0, 15, [2]⟩, ⟨0, 10, 1, 0, 5, [3]⟩],
        .ofSamples 1 7 112 ⟨1, 10, 1, 0, 15, [4]⟩ []]
    let cut := outputs.foldl addFragment cmaf
    segment.recut trex 25 = .ok outputs ∧ cut.fragments = outputs ∧
      (∀ output ∈ outputs, output.samples (some trex) ≠ .error .overflow) ∧
      (∃ again direct, cut.recut trex 15 = .ok again ∧ segment.recut trex 15 = .ok direct ∧
        direct.length = 2 ∧ List.Forall₂ Fragment.GivesSame again direct) ∧
      cut.recut trex 25 = .ok outputs := by
  intro trex run moof segment outputs cut
  have hrecut : segment.recut trex 25 = .ok outputs := by decide +kernel
  have hcut : cut.fragments = outputs := rfl
  have hfits : ∀ output ∈ outputs, output.samples (some trex) ≠ .error .overflow := by
    decide +kernel
  obtain ⟨hiff, hsame, hidem⟩ := recut_recut hrecut hcut hfits
  let direct : List Fragment :=
    [.ofSamples 1 7 128 ⟨0, 10, 1, 0, 5, [1]⟩ [⟨1, 10, 1, 0, 15, [2]⟩],
      .ofSamples 1 7 128 ⟨0, 10, 1, 0, 5, [3]⟩ [⟨1, 10, 1, 0, 15, [4]⟩]]
  have hdirect : segment.recut trex 15 = .ok direct := by decide +kernel
  obtain ⟨again, hagain⟩ := (hiff 15).2 ⟨direct, hdirect⟩
  exact ⟨hrecut, hcut, hfits,
    ⟨again, direct, hagain, hdirect, rfl, hsame 15 again direct hagain hdirect⟩, hidem⟩

end Segment
end FragmentedMp4
