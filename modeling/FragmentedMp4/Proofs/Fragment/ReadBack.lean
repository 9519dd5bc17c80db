import FragmentedMp4.Proofs.Fragment.Appending
import FragmentedMp4.Proofs.Fragment.Reading

/-!
# What an appended sample reads back as

A sample that was appended is read behind those of its track, with its values and with the time
at which they end. One that begins a run has its own data. One that joins a run is read from
where the data of that run ends, and there is its own data only if nothing else follows the run
in the payload.
-/
namespace FragmentedMp4

namespace TrackFragment

theorem changeAll_split (change : Bool → TrackFragment → TrackFragment)
    (before : List TrackFragment) (track : TrackFragment) (after : List TrackFragment) :
    changeAll change (before ++ track :: after) =
      changeAll change before ++ change before.isEmpty track :: after.map (change false) := by
  cases before with
  | nil => rfl
  | cons first before => simp [changeAll]

end TrackFragment

namespace Playhead

variable {payload : Bytes} {available payloadOffset : Nat} {defaults : SampleDefaults}

theorem readEntries_entry (sample : Sample) {done : List Sample} {head : Playhead}
    (hroom : head.position + sample.size.toNat ≤ available)
    (htime : head.decodeTime.toNat + sample.duration.toNat < UInt64.size) :
    ∃ last, readEntries payload available defaults none [sample.entry] (done, head) =
      .ok ({ sample with
        decodeTime := head.decodeTime
        data := (payload.drop head.position).take sample.size.toNat } :: done, last) := by
  let next : Playhead := ⟨head.position + sample.size.toNat,
    UInt64.ofNat (head.decodeTime.toNat + sample.duration.toNat)⟩
  refine ⟨next, readEntries_cons_eq_ok.2 ⟨_, next, ?_, rfl⟩⟩
  exact ⟨rfl, rfl, rfl, rfl, rfl, hroom, rfl, rfl, UInt64.toNat_ofNat_of_lt' htime⟩

end Playhead

namespace Sample

/-- What a sample is read as behind others, from a place in a payload. -/
def readAs (sample : Sample) (samples : List Sample) (payload : Bytes) (place : Nat) : Sample :=
  { sample with
    decodeTime := Sample.timeAfter sample.decodeTime samples
    data := (payload.drop place).take sample.size.toNat }

end Sample

namespace TrackFragment

variable {track : TrackFragment} {payloadOffset : Nat} {payload : Bytes}
  {trex : Option TrackExtends} {samples : List Sample} {sample : Sample} {head : Playhead}

/-- A track fragment for a sample has the samples that it had, and the time of the next one is
that at which they end. -/
theorem PlaysTo.openedFor (h : track.PlaysTo payloadOffset payload trex samples head)
    (sample : Sample) :
    ∃ moved, (track.openedFor sample).PlaysTo payloadOffset payload trex samples moved ∧
      moved.decodeTime = Sample.timeAfter sample.decodeTime samples := by
  have hlength := Playhead.length_readRuns h
  rw [List.length_reverse, List.length_nil, Nat.zero_add, ← sampleCount_eq_sum] at hlength
  unfold TrackFragment.openedFor
  split_ifs with hcount
  · rw [hcount, List.length_eq_zero_iff] at hlength
    subst hlength
    refine ⟨_, rfl, ?_⟩
    simp only [start, opened, Sample.timeAfter, List.getLast?_nil]
    cases track.decodeTime <;> rfl
  · refine ⟨head, h, ?_⟩
    have hsome : samples ≠ [] := by
      intro hnil
      rw [hnil] at hlength
      exact hcount hlength.symm
    have htime := Playhead.decodeTime_readRuns h
    rw [List.reverse_reverse] at htime
    rw [htime]
    unfold Sample.timeAfter
    rw [List.getLast?_eq_some_getLast hsome]

section Played

variable (hplays : track.PlaysTo payloadOffset payload trex samples head)
  (hsize : sample.data.length = sample.size.toNat)
  (htime : (Sample.timeAfter sample.decodeTime samples).toNat + sample.duration.toNat <
    UInt64.size)
include hplays hsize htime

/-- A sample that joins the last run is read from where the data of the run ends. -/
theorem PlaysTo.joined (hcarries : track.lastRunCarries sample.entry.fields = true) :
    ∃ last, (track.pushEntry sample.entry).PlaysTo payloadOffset (payload ++ sample.data) trex
      (samples ++ [sample.readAs samples (payload ++ sample.data) head.position]) last := by
  obtain ⟨runs, run, hruns, hsome⟩ := exists_lastRun hcarries
  have htimes : head.decodeTime = Sample.timeAfter sample.decodeTime samples := by
    obtain ⟨moved, hmoved, htimes⟩ := hplays.openedFor sample
    rw [openedFor_of_carries hcarries] at hmoved
    cases hplays.symm.trans hmoved
    exact htimes
  unfold PlaysTo at hplays
  rw [hruns, Playhead.readRuns_append] at hplays
  obtain ⟨⟨done, middle⟩, hfront, hlast⟩ := bind_eq_ok.1 hplays
  obtain ⟨moved, state, hseek, hentries, hdone⟩ := Playhead.readRuns_cons_eq_ok.1 hlast
  cases hdone
  have hroom : head.position + sample.size.toNat ≤ (payload ++ sample.data).length := by
    have hinside := Playhead.position_readEntries hentries hsome
    rw [List.length_append, hsize]
    omega
  obtain ⟨last, hentry⟩ := Playhead.readEntries_entry sample hroom (htimes ▸ htime)
  refine ⟨last, ?_⟩
  rw [runs_pushEntry hruns, playsTo_withRuns, Playhead.readRuns_append,
    Playhead.readRuns_longer sample.data hfront]
  refine Playhead.readRuns_cons_eq_ok.2 ⟨moved, _, hseek, ?_, rfl⟩
  rw [Playhead.readEntries_append, Playhead.readEntries_longer sample.data hentries,
    if_neg hsome, List.reverse_concat]
  refine hentry.trans ?_
  rw [htimes]
  rfl

/-- A sample that begins a run is read from where its data was put. -/
theorem PlaysTo.newRun {dataOffset : Int32}
    (hoffset : dataOffset.toInt = payloadOffset + payload.length) :
    ∃ last, (((track.openedFor sample).pushRun dataOffset).pushEntry sample.entry).PlaysTo
      payloadOffset (payload ++ sample.data) trex
      (samples ++ [sample.readAs samples (payload ++ sample.data) payload.length]) last := by
  obtain ⟨moved, hmoved, htimes⟩ := hplays.openedFor sample
  have hseek : Playhead.seek payloadOffset ⟨some dataOffset, none, [sample.entry]⟩ moved =
      .ok { moved with position := payload.length } := by
    unfold Playhead.seek
    simp [hoffset]
  have hroom : ({ moved with position := payload.length } : Playhead).position +
      sample.size.toNat ≤ (payload ++ sample.data).length := by
    rw [List.length_append, hsize]
  obtain ⟨last, hentry⟩ := Playhead.readEntries_entry sample hroom (htimes ▸ htime)
  refine ⟨last, ?_⟩
  rw [pushEntry_pushRun, playsTo_withRuns, Playhead.readRuns_append,
    Playhead.readRuns_longer sample.data hmoved]
  refine Playhead.readRuns_cons_eq_ok.2 ⟨_, _, hseek, hentry, ?_⟩
  rw [List.reverse_concat, htimes]
  rfl

end Played

end TrackFragment

namespace Fragment

variable {fragment : Fragment} {before after : List TrackFragment} {track : TrackFragment}
  {trackId : UInt32} {trex : Option TrackExtends} {samples : List Sample} {sample : Sample}

theorem trackSamples_of_split (hsplit : fragment.moof.tracks = before ++ track :: after)
    (hbefore : ∀ other ∈ before, other.trackId ≠ track.trackId) (trex : Option TrackExtends) :
    fragment.trackSamples track.trackId trex = fragment.readTrack before.isEmpty track trex := by
  have hfirst : (fragment.trackId? == some track.trackId) = before.isEmpty := by
    unfold trackId? MovieFragment.firstTrack?
    rw [hsplit]
    cases before with
    | nil => simp
    | cons first before => simpa using hbefore first (by simp)
  unfold trackSamples findTrack
  rw [track?_of_split hsplit hbefore, hfirst]
  rfl

theorem withData_eq_none {oldOffset : Nat} {data : Bytes}
    (h : (fragment.withData oldOffset data).error = none) :
    ∃ delta : Int,
      fragment.moof.shifted delta = .ok (fragment.withData oldOffset data).fragment.moof ∧
      ((fragment.withData oldOffset data).fragment.payloadOffset : Int) = oldOffset + delta := by
  let grown : Fragment := { fragment with mdat := ⟨fragment.mdat.payload ++ data⟩ }
  let delta : Int := grown.payloadOffset - oldOffset
  have hdone : (fragment.moof.shift delta).2 = true := by
    unfold withData at h
    simpa only [ite_eq_left_iff, reduceCtorEq, imp_false, Bool.not_eq_true,
      Bool.not_eq_false] using h
  have hmoof : (fragment.withData oldOffset data).fragment.moof = (fragment.moof.shift delta).1 :=
    rfl
  have hsize : (fragment.withData oldOffset data).fragment.payloadOffset = grown.payloadOffset := by
    unfold payloadOffset
    rw [hmoof, MovieFragment.size_shift]
    rfl
  refine ⟨delta, ?_, by rw [hsize]; omega⟩
  rw [hmoof]
  unfold MovieFragment.shifted
  cases hshift : fragment.moof.shift delta with
  | mk moved done =>
    rw [hshift] at hdone
    cases hdone
    rfl

theorem split_of_shifted {moof moved : MovieFragment} {delta : Int}
    (h : moof.shifted delta = .ok moved) (hsplit : moof.tracks = before ++ track :: after)
    (hbefore : ∀ other ∈ before, other.trackId ≠ track.trackId) :
    (track.shift delta before.isEmpty).2 = true ∧
      ∃ front back, moved.tracks = front ++ (track.shift delta before.isEmpty).1 :: back ∧
        front.isEmpty = before.isEmpty ∧ ∀ other ∈ front, other.trackId ≠ track.trackId := by
  let change := fun isFirst (other : TrackFragment) => (other.shift delta isFirst).1
  obtain ⟨hmoved, hfirst, hrest⟩ := MovieFragment.shifted_eq_ok h
  refine ⟨?_, TrackFragment.changeAll change before, after.map (change false), ?_, ?_, ?_⟩
  · cases before with
    | nil => exact hfirst track (by rw [hsplit]; rfl)
    | cons first before => exact hrest track (by rw [hsplit]; simp)
  · rw [hmoved, hsplit]
    exact TrackFragment.changeAll_split change before track after
  · cases before <;> rfl
  · intro other hmem
    obtain ⟨isFirst, source, hsource, rfl⟩ := TrackFragment.mem_changeAll hmem
    rw [TrackFragment.trackId_shift]
    exact hbefore source hsource

/-- A track fragment gives what it finds in the longer payload, as if neither had moved. -/
theorem trackSamples_withData {oldOffset : Nat} {data : Bytes}
    (hsplit : fragment.moof.tracks = before ++ track :: after)
    (hbefore : ∀ other ∈ before, other.trackId ≠ track.trackId)
    (hbase : track.header.baseDataOffset = none)
    (hplace : before.isEmpty = true ∨ track.header.baseIsMoof = true)
    (h : (fragment.withData oldOffset data).error = none) (trex : Option TrackExtends)
    (samples : List Sample) :
    (fragment.withData oldOffset data).fragment.trackSamples track.trackId trex = .ok samples ↔
      ∃ head, track.PlaysTo oldOffset (fragment.mdat.payload ++ data) trex samples head := by
  obtain ⟨delta, hshifted, hoffset⟩ := withData_eq_none h
  obtain ⟨hdone, front, back, htracks, hempty, hids⟩ := split_of_shifted hshifted hsplit hbefore
  have hid := TrackFragment.trackId_shift delta before.isEmpty track
  have hsamples := trackSamples_of_split htracks (by rwa [hid]) trex
  rw [hid, hempty] at hsamples
  rw [hsamples, eq_ok_iff_of_toOption (readTrack_of_shift _ hbase hplace hoffset hdone trex),
    map_eq_ok]
  constructor
  · rintro ⟨⟨read, head⟩, hruns, rfl⟩
    refine ⟨head, ?_⟩
    unfold TrackFragment.PlaysTo
    rw [List.reverse_reverse]
    exact hruns
  · rintro ⟨head, hruns⟩
    exact ⟨_, hruns, samples.reverse_reverse⟩

theorem trackSamples_of_changed {changed : TrackFragment} {oldOffset : Nat} {data : Bytes}
    (hid : changed.trackId = track.trackId)
    (hbefore : ∀ other ∈ before, other.trackId ≠ track.trackId)
    (hbase : changed.header.baseDataOffset = none)
    (hplace : before.isEmpty = true ∨ changed.header.baseIsMoof = true)
    (h : ((fragment.withTracks (before ++ changed :: after)).withData oldOffset data).error = none)
    (hplays : ∃ last, changed.PlaysTo oldOffset (fragment.mdat.payload ++ data) trex samples last) :
    ((fragment.withTracks (before ++ changed :: after)).withData oldOffset
      data).fragment.trackSamples track.trackId trex = .ok samples := by
  have hsplit : (fragment.withTracks (before ++ changed :: after)).moof.tracks =
      before ++ changed :: after := rfl
  rw [← hid] at hbefore ⊢
  exact (trackSamples_withData hsplit hbefore hbase hplace h trex samples).2 hplays

/-- An appended sample is read behind those of its track, from where the data of the run ends that
it joined, or from where its own data was put. -/
theorem trackSamples_append (hread : fragment.trackSamples trackId trex = .ok samples)
    (happend : (fragment.appendToTrack sample trackId).error = none)
    (htime : (Sample.timeAfter sample.decodeTime samples).toNat + sample.duration.toNat <
      UInt64.size) :
    ∃ track head, fragment.moof.track? trackId = some track ∧
      track.PlaysTo fragment.payloadOffset fragment.mdat.payload trex samples head ∧
      (fragment.appendToTrack sample trackId).fragment.trackSamples trackId trex =
        .ok (samples ++ [sample.readAs samples (fragment.mdat.payload ++ sample.data)
          (if track.lastRunCarries sample.entry.fields then head.position
            else fragment.mdat.payload.length)]) := by
  obtain ⟨before, track, after, hsplit, hbefore, rfl, -, hsize, hbase, htaken⟩ :=
    appendToTrack_eq_none happend
  rw [trackSamples_of_split hsplit hbefore] at hread
  obtain ⟨-, hplace, head, hplays⟩ := readTrack_eq_ok hread
  refine ⟨track, head, track?_of_split hsplit hbefore, hplays, ?_⟩
  rw [htaken] at happend ⊢
  rcases fragment.appendAt_cases before track after sample with ⟨hcarries, hjoined⟩ |
    ⟨hcarries, hrefused | ⟨-, hnoroom⟩ | ⟨dataOffset, hoffset, hrun⟩⟩
  · have hheader := track.header_pushEntry sample.entry
    have hid := congrArg TrackFragmentHeader.trackId hheader
    rw [hjoined] at happend ⊢
    rw [if_pos hcarries]
    rw [← hheader] at hbase hplace
    exact trackSamples_of_changed hid hbefore hbase hplace happend
      (hplays.joined hsize htime hcarries)
  · rw [hrefused] at happend
    cases happend
  · rw [hnoroom] at happend
    cases happend
  · have hheader := ((track.openedFor sample).pushRun dataOffset).header_pushEntry sample.entry
    obtain ⟨hid, hbase, hplace⟩ := track.openedFor_keeps sample hbase hplace
    rw [hrun] at happend ⊢
    rw [hcarries, if_neg Bool.false_ne_true]
    refine trackSamples_of_changed ?_ hbefore ?_ ?_ happend (hplays.newRun hsize htime hoffset)
    · exact (congrArg TrackFragmentHeader.trackId hheader).trans hid
    · rw [hheader]
      exact hbase
    · rw [hheader]
      exact hplace

/-- A sample that was appended is read with its values, at the end of those before it. It has its
own data exactly if it begins a run, or if what stands behind the data of the run that it joined
begins with its data. -/
theorem append_readsBack_iff (hread : fragment.trackSamples trackId trex = .ok samples)
    (happend : (fragment.appendToTrack sample trackId).error = none)
    (htime : (Sample.timeAfter sample.decodeTime samples).toNat + sample.duration.toNat <
      UInt64.size) :
    (∃ data, (fragment.appendToTrack sample trackId).fragment.trackSamples trackId trex =
      .ok (samples ++
        [{ sample with decodeTime := Sample.timeAfter sample.decodeTime samples, data }])) ∧
      ((fragment.appendToTrack sample trackId).fragment.trackSamples trackId trex =
          .ok (samples ++
            [{ sample with decodeTime := Sample.timeAfter sample.decodeTime samples }]) ↔
        ∀ track head, fragment.moof.track? trackId = some track →
          track.PlaysTo fragment.payloadOffset fragment.mdat.payload trex samples head →
          track.lastRunCarries sample.entry.fields = true →
          ((fragment.mdat.payload ++ sample.data).drop head.position).take sample.size.toNat =
            sample.data) := by
  obtain ⟨track, head, htrack, hplays, hafter⟩ := trackSamples_append hread happend htime
  obtain ⟨-, -, -, -, -, -, -, hsize, -, -⟩ := appendToTrack_eq_none happend
  refine ⟨⟨_, hafter⟩, ?_⟩
  rw [hafter, Except.ok.injEq, List.append_cancel_left_eq, List.cons.injEq, and_iff_left rfl]
  have hdata (place : Nat) :
      sample.readAs samples (fragment.mdat.payload ++ sample.data) place =
          { sample with decodeTime := Sample.timeAfter sample.decodeTime samples } ↔
        ((fragment.mdat.payload ++ sample.data).drop place).take sample.size.toNat =
          sample.data := by
    unfold Sample.readAs
    simp only [Sample.mk.injEq, true_and]
  rw [hdata]
  constructor
  · intro hown found other hfound hother hcarries
    cases htrack.symm.trans hfound
    cases hplays.symm.trans hother
    rwa [if_pos hcarries] at hown
  · intro hown
    split_ifs with hcarries
    · exact hown track head htrack hplays hcarries
    · rw [List.drop_left, ← hsize, List.take_length]

/-- A sample that joins a run whose data is all there is. -/
theorem append_readsBack_contiguous :
    let fragment := ofBoxes
      ⟨⟨1⟩, [⟨.ofTrack 1, [⟨some 112, none, [⟨some 10, some 1, some 0, some 0⟩]⟩],
        some (.ofTime 0)⟩]⟩ ⟨[1]⟩
    let sample : Sample := ⟨0, 10, 1, 0, 10, [2]⟩
    fragment.trackSamples 1 none = .ok [⟨0, 10, 1, 0, 0, [1]⟩] ∧
      (fragment.appendToTrack sample 1).error = none ∧
      ((fragment.appendToTrack sample 1).fragment.trackSamples 1 none =
          .ok [⟨0, 10, 1, 0, 0, [1]⟩, sample] ↔
        ∀ track head, fragment.moof.track? 1 = some track →
          track.PlaysTo fragment.payloadOffset [1] none [⟨0, 10, 1, 0, 0, [1]⟩] head →
          track.lastRunCarries sample.entry.fields = true →
          ([1, 2].drop head.position).take 1 = sample.data) := by
  intro fragment sample
  have hread : fragment.trackSamples 1 none = .ok [⟨0, 10, 1, 0, 0, [1]⟩] := by decide +kernel
  have happend : (fragment.appendToTrack sample 1).error = none := by decide +kernel
  exact ⟨hread, happend, (append_readsBack_iff hread happend (by decide)).2⟩

/-- There is one more byte in the payload than the run uses, and the sample that joins the run is
read as that byte and not as its own. -/
theorem append_readsBack_otherwise :
    let fragment := ofBoxes
      ⟨⟨1⟩, [⟨.ofTrack 1, [⟨some 112, none, [⟨some 10, some 1, some 0, some 0⟩]⟩],
        some (.ofTime 0)⟩]⟩ ⟨[1, 255]⟩
    let sample : Sample := ⟨0, 10, 1, 0, 10, [2]⟩
    fragment.trackSamples 1 none = .ok [⟨0, 10, 1, 0, 0, [1]⟩] ∧
      (fragment.appendToTrack sample 1).error = none ∧
      (fragment.appendToTrack sample 1).fragment.trackSamples 1 none =
        .ok [⟨0, 10, 1, 0, 0, [1]⟩, ⟨0, 10, 1, 0, 10, [255]⟩] := by
  decide +kernel

end Fragment
end FragmentedMp4
