import FragmentedMp4.Proofs.Fragment.Accepted
import FragmentedMp4.Proofs.Fragment.Reading

/-!
# The samples that a file points at

The data offsets in a file count from its movie fragment, as large as it is there. Reading a
fragment moves them to where the payload will be when the fragment is written again, and
reading the samples takes them back from there. So the data of a sample is what the file has at
the offset that it gives, whatever was skipped in the movie fragment and whatever the headers
of the boxes look like.
-/
namespace FragmentedMp4

/-- Samples whose data lies in a file one after the other, from a place on. -/
def SamplesLie (file : Bytes) (start : Nat) (samples : List Sample) : Prop :=
  ∀ j (hj : j < samples.length),
    samples[j].data.length = samples[j].size.toNat ∧
      samples[j].data = (file.drop (start + ((samples.take j).map (·.size.toNat)).sum)).take
        samples[j].size.toNat

/-- The samples of runs whose data lies in a file. A run with a data offset begins there, and
one without where the run before it ended. -/
inductive RunsLie (file : Bytes) : Nat → List TrackRun → List Sample → Prop
  | nil {position : Nat} : RunsLie file position [] []
  | cons {position start : Nat} {run : TrackRun} {runs : List TrackRun}
      {samples later : List Sample}
      (hstart : (start : Int) = (run.dataOffset.map (·.toInt)).getD (position : Int))
      (hcount : samples.length = run.samples.length)
      (hlie : SamplesLie file start samples)
      (hlater : RunsLie file (start + (samples.map (·.size.toNat)).sum) runs later) :
      RunsLie file position (run :: runs) (samples ++ later)

theorem SamplesLie.cons {file : Bytes} {start : Nat} {sample : Sample} {samples : List Sample}
    (hlength : sample.data.length = sample.size.toNat)
    (hdata : sample.data = (file.drop start).take sample.size.toNat)
    (h : SamplesLie file (start + sample.size.toNat) samples) :
    SamplesLie file start (sample :: samples) := by
  intro j hj
  cases j with
  | zero => exact ⟨hlength, hdata⟩
  | succ j =>
    have hlater := h j (Nat.lt_of_succ_lt_succ hj)
    rwa [Nat.add_assoc] at hlater

namespace Playhead

variable {payload file : Bytes} {defaults : SampleDefaults} {base : Nat}
  (hwindow : ∀ position size, position + size ≤ payload.length →
    (payload.drop position).take size = (file.drop (base + position)).take size)
include hwindow

theorem readEntries_lie {firstFlags : Option UInt32} {entries : List RunSample}
    {done read : List Sample} {head next : Playhead}
    (h : readEntries payload payload.length defaults firstFlags entries (done, head) =
      .ok (read, next)) :
    ∃ samples, read = samples.reverse ++ done ∧ samples.length = entries.length ∧
      SamplesLie file (base + head.position) samples ∧
      next.position = head.position + (samples.map (·.size.toNat)).sum := by
  induction entries generalizing firstFlags done head with
  | nil =>
    cases h
    exact ⟨[], rfl, rfl, fun j hj => absurd hj (Nat.not_lt_zero j), rfl⟩
  | cons entry entries ih =>
    obtain ⟨sample, moved, hgives, hrest⟩ := readEntries_cons_eq_ok.1 h
    obtain ⟨samples, hread, hlength, hlie, hnext⟩ := ih hrest
    have hmoved := hgives.position
    have hdata := hgives.data.trans (hwindow _ _ hgives.room)
    rw [hmoved, ← Nat.add_assoc] at hlie
    refine ⟨sample :: samples, ?_, ?_, .cons hgives.length_data hdata hlie, ?_⟩
    · rw [hread, List.reverse_cons, List.append_assoc]
      rfl
    · rw [List.length_cons, List.length_cons, hlength]
    · rw [hnext, hmoved, List.map_cons, List.sum_cons, Nat.add_assoc]

/-- The samples of runs lie where the data offsets point, which count from the place in front
of the payload. -/
theorem readRuns_lie {runs : List TrackRun} {done read : List Sample} {head next : Playhead}
    (h : readRuns base payload payload.length defaults runs (done, head) = .ok (read, next)) :
    ∃ samples, read = samples.reverse ++ done ∧
      RunsLie file (base + head.position) runs samples := by
  induction runs generalizing done head with
  | nil =>
    cases h
    exact ⟨[], rfl, .nil⟩
  | cons run runs ih =>
    obtain ⟨moved, ⟨soFar, behind⟩, hseek, hentries, hlast⟩ := readRuns_cons_eq_ok.1 h
    obtain ⟨samples, hread, hlength, hlie, hbehind⟩ := readEntries_lie hwindow hentries
    obtain ⟨later, hlater, hrest⟩ := ih hlast
    rw [hbehind, ← Nat.add_assoc] at hrest
    refine ⟨samples ++ later, ?_, .cons ?_ hlength hlie hrest⟩
    · rw [hlater, hread, List.reverse_append, List.append_assoc]
    · have hplace := (seek_eq_ok hseek).2
      cases hoffset : run.dataOffset with
      | none =>
        simp only [hoffset, Option.map_none, Option.getD_none] at hplace ⊢
        omega
      | some offset =>
        simp only [hoffset, Option.map_some, Option.getD_some] at hplace ⊢
        omega

end Playhead

namespace Fragment

/-- The track fragment that the samples of a track come from, as it was before its offsets were
moved. -/
theorem trackSamples_of_shifted {fragment : Fragment} {moof : MovieFragment} {delta : Int}
    (hmoof : moof.shifted delta = .ok fragment.moof) {trackId : UInt32}
    {trex : Option TrackExtends} {samples : List Sample}
    (h : fragment.trackSamples trackId trex = .ok samples) :
    ∃ isFirst track, moof.track? trackId = some track ∧ (track.shift delta isFirst).2 = true ∧
      fragment.readTrack isFirst (track.shift delta isFirst).1 trex = .ok samples := by
  obtain ⟨hmoved, hfirst, hrest⟩ := MovieFragment.shifted_eq_ok hmoof
  have htracks := congrArg MovieFragment.tracks hmoved
  unfold MovieFragment.track?
  cases hcase : moof.tracks with
  | nil =>
    rw [hcase] at htracks
    unfold trackSamples findTrack MovieFragment.track? at h
    rw [htracks] at h
    cases h
  | cons track tracks =>
    rw [hcase] at htracks hfirst hrest
    rw [trackSamples_cons htracks, List.find?_map] at h
    have hids : ((·.trackId == trackId) ∘ fun other => (TrackFragment.shift delta false other).1) =
        (·.trackId == trackId) := by
      funext other
      rw [Function.comp_apply, TrackFragment.trackId_shift]
    rw [TrackFragment.trackId_shift, hids] at h
    split_ifs at h with hid
    · refine ⟨true, track, ?_, hfirst track rfl, h⟩
      exact List.find?_cons_of_pos (by simpa using hid)
    · cases hfound : tracks.find? (·.trackId == trackId) with
      | none =>
        rw [hfound] at h
        cases h
      | some found =>
        rw [hfound] at h
        refine ⟨false, found, ?_, hrest found (List.mem_of_find?_eq_some hfound), h⟩
        rw [List.find?_cons_of_neg (by simpa using hid), hfound]

/-- The payload of a fragment stands in the file behind the header of the media data box. -/
theorem payload_of_decode {rest : Bytes} {header : BoxHeader} {mdat : MediaData} {mdatSize : Nat}
    (hheader : mediaDataHeader rest = .ok header)
    (hmdat : MediaData.decode rest = .ok (mdat, mdatSize)) :
    mdat.payload = (rest.take header.size).drop header.headerSize := by
  obtain ⟨parsed, hparse, hname, -, hcontents⟩ := Box.decodeAs_eq_ok hmdat
  unfold mediaDataHeader at hheader
  rw [hparse] at hheader
  simp only [hname, if_true] at hheader
  cases hheader
  cases hcontents
  rfl

/-- The samples of a track have the data that the file has where its runs point: a data offset
counts from the first byte of the movie fragment, and a run without one goes on where the one
before it ended, the first of them right behind the header of the media data. The runs are
those of the file, before their offsets are moved. -/
theorem trackSamples_lie {data : Bytes} {fragment : Fragment} {used : Nat}
    (hdecode : decode data = .ok (fragment, used)) {trackId : UInt32}
    {trex : Option TrackExtends} {samples : List Sample}
    (hsamples : fragment.trackSamples trackId trex = .ok samples) :
    ∃ moof moofSize header track, MovieFragment.decode data = .ok (moof, moofSize) ∧
      mediaDataHeader (data.drop moofSize) = .ok header ∧
      moof.track? trackId = some track ∧
      RunsLie data (moofSize + header.headerSize) track.runs samples := by
  obtain ⟨moof, moofSize, header, mdatSize, hmoof, hheader, hmdat, -, -, hmoved⟩ :=
    decode_eq_ok hdecode
  obtain ⟨isFirst, track, htrack, hdone, hread⟩ := trackSamples_of_shifted hmoved hsamples
  refine ⟨moof, moofSize, header, track, hmoof, hheader, htrack, ?_⟩
  have hpayload := payload_of_decode hheader hmdat
  have hwindow : ∀ position size, position + size ≤ fragment.mdat.payload.length →
      (fragment.mdat.payload.drop position).take size =
        (data.drop (moofSize + header.headerSize + position)).take size := by
    intro position size hroom
    rw [hpayload, List.length_drop, List.length_take] at hroom
    rw [hpayload, List.drop_drop, List.drop_take, List.drop_drop, List.take_take,
      Nat.min_eq_left (by omega), Nat.add_assoc]
  have hoffset : (fragment.payloadOffset : Int) = (moofSize + header.headerSize : Nat) +
      ((fragment.payloadOffset : Int) - (moofSize + header.headerSize : Nat)) := by
    omega
  rcases readable_or_unreadable isFirst track with ⟨hbase, hplace⟩ | hguards
  · have hruns := fragment.readTrack_of_shift hbase hplace hoffset hdone trex
    obtain ⟨⟨read, head⟩, hruns, hreverse⟩ :=
      map_eq_ok.1 ((eq_ok_iff_of_toOption hruns samples).1 hread)
    obtain ⟨found, hfound, hlie⟩ := Playhead.readRuns_lie hwindow hruns
    rw [hfound, List.append_nil, List.reverse_reverse] at hreverse
    rw [← hreverse]
    exact hlie
  · have hnone := congrArg Except.toOption hread
    rw [fragment.readTrack_shift_of_unreadable hguards] at hnone
    cases hnone

/-- A movie fragment with a box that is skipped and a long header inside, and media data with a
long header. The first run begins one byte behind the header, and the second has no offset. -/
theorem trackSamples_lie_behind_skipped :
    let data : Bytes :=
      [0, 0, 0, 112, 109, 111, 111, 102, 0, 0, 0, 16, 109, 102, 104, 100, 0, 0, 0, 0, 0, 0, 0, 1,
        0, 0, 0, 8, 102, 114, 101, 101, 0, 0, 0, 80, 116, 114, 97, 102, 0, 0, 0, 1, 116, 102, 104,
        100, 0, 0, 0, 0, 0, 0, 0, 36, 0, 2, 0, 56, 0, 0, 0, 7, 0, 0, 0, 10, 0, 0, 0, 2, 0, 0, 0, 0,
        0, 0, 0, 20, 116, 114, 117, 110, 0, 0, 0, 1, 0, 0, 0, 1, 0, 0, 0, 129, 0, 0, 0, 16, 116,
        114, 117, 110, 0, 0, 0, 0, 0, 0, 0, 1, 0, 0, 0, 1, 109, 100, 97, 116, 0, 0, 0, 0, 0, 0, 0,
        21, 9, 1, 2, 3, 4]
    ∃ fragment used samples, decode data = .ok (fragment, used) ∧
      fragment.trackSamples 7 none = .ok samples ∧
      samples.map (·.data) = [[1, 2], [3, 4]] ∧
      ∃ moof moofSize header track, MovieFragment.decode data = .ok (moof, moofSize) ∧
        mediaDataHeader (data.drop moofSize) = .ok header ∧
        moof.track? 7 = some track ∧
        RunsLie data (moofSize + header.headerSize) track.runs samples := by
  intro data
  let runs : List TrackRun :=
    [⟨some 105, none, [⟨none, none, none, none⟩]⟩, ⟨none, none, [⟨none, none, none, none⟩]⟩]
  let header : TrackFragmentHeader :=
    { TrackFragmentHeader.ofTrack 7 with duration := some 10, size := some 2, flags := some 0 }
  let moof : MovieFragment := ⟨⟨1⟩, [⟨header, runs, none⟩]⟩
  let samples : List Sample := [⟨0, 10, 2, 0, 0, [1, 2]⟩, ⟨0, 10, 2, 0, 10, [3, 4]⟩]
  have hdecode : decode data = .ok (ofBoxes moof ⟨[9, 1, 2, 3, 4]⟩, 133) := by decide +kernel
  have hsamples : (ofBoxes moof ⟨[9, 1, 2, 3, 4]⟩).trackSamples 7 none = .ok samples := by
    decide +kernel
  exact ⟨_, _, samples, hdecode, hsamples, rfl, trackSamples_lie hdecode hsamples⟩

end Fragment
end FragmentedMp4
