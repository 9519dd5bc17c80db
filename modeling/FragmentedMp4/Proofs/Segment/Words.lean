import FragmentedMp4.Proofs.Fragment.Growth
import FragmentedMp4.Proofs.Segment.Grouping
import FragmentedMp4.Proofs.Segment.NormalForm
import FragmentedMp4.Segment.CommonDuration

/-!
# Reading and cutting decoded segments in machine words

The fragments of a segment that was decoded take no more room than the bytes they were decoded
from, apart from long headers. The fragment that is open while the segment is cut begins its
payload at an offset of 31 bits and holds no more than the payloads of the source. So all sizes,
places and durations fit their words, whatever the bytes were, and the only sum that can get too
large is a decode time.
-/
namespace FragmentedMp4

namespace Playhead

variable {payload : Bytes} {payloadOffset : Nat} {defaults : SampleDefaults}

theorem dataLength_readEntries {firstFlags : Option UInt32} {entries : List RunSample}
    {head last : Playhead} {read : List Sample}
    (h : readEntries payload payload.length defaults firstFlags entries ([], head) =
      .ok (read, last)) :
    (read.map (·.data.length)).sum + head.position = last.position := by
  refine readEntries_invariant
    (P := fun state => (state.1.map (·.data.length)).sum + head.position = state.2.position)
    (fun {_ _ done here sample next} hstate hgives => ?_) (Nat.zero_add _) h
  simp only [List.map_cons, List.sum_cons] at hstate ⊢
  rw [hgives.position, hgives.length_data]
  omega

theorem dataLength_readRuns {runs : List TrackRun} (hsingle : runs.length ≤ 1)
    {head last : Playhead} {read : List Sample}
    (h : readRuns payloadOffset payload payload.length defaults runs ([], head) =
      .ok (read, last)) : (read.map (·.data.length)).sum ≤ payload.length := by
  cases runs with
  | nil =>
    cases h
    exact Nat.zero_le _
  | cons run runs =>
    have hnil : runs = [] := List.length_eq_zero_iff.1 (by simpa using hsingle)
    subst hnil
    obtain ⟨moved, state, -, hentries, hdone⟩ := readRuns_cons_eq_ok.1 h
    cases hdone
    by_cases hsome : run.samples = []
    · rw [hsome] at hentries
      cases hentries
      exact Nat.zero_le _
    · have hinside := position_readEntries hentries hsome
      have hsum := dataLength_readEntries hentries
      omega

end Playhead

namespace Fragment

variable {fragment : Fragment} {trex : Option TrackExtends} {samples : List Sample}

theorem dataLength_samples (hsingle : fragment.checkSingleRun = .ok ())
    (h : fragment.samples trex = .ok samples) :
    (samples.map (·.data.length)).sum ≤ fragment.mdat.payload.length := by
  unfold checkSingleRun at hsingle
  unfold Fragment.samples selectTrack at h
  split at hsingle
  · rename_i track htracks
    rw [htracks] at h
    obtain ⟨-, -, head, hplays⟩ := readTrack_eq_ok h
    split_ifs at hsingle with hcount
    have hle := Playhead.dataLength_readRuns hcount hplays
    rwa [List.map_reverse, List.sum_reverse] at hle
  · cases hsingle

theorem HoldsGroup.payloadOffset_lt {group : List TracedSample} (h : fragment.HoldsGroup group) :
    fragment.payloadOffset < 2 ^ 31 := by
  cases group with
  | nil => exact h.elim
  | cons first rest =>
    obtain ⟨dataOffset, hoffset, -⟩ := h.1.shape
    have hbound := dataOffset.toInt_lt
    omega

end Fragment

namespace Cutting

def placeInWords (target sequenceNumber trackId : UInt32) (cutting : Cutting) (sample : Sample) :
    Except Failure Cutting := do
  let ready := if cutting.elapsed = 0 then cutting.close else cutting
  let fragment := ready.current.getD (.ofTracks sequenceNumber [trackId])
  let attempt ← fragment.appendInWords sample trackId
  match attempt.error with
  | some error => .error (.error error)
  | none =>
    let elapsed ← Words.add ready.elapsed sample.duration.toNat
    let filled : Cutting := ⟨ready.closed, some attempt.fragment, elapsed⟩
    return if target.toNat ≤ elapsed then filled.close else filled

def placeFragmentInWords (target : UInt32) (trex : TrackExtends) (cutting : Cutting)
    (fragment : Fragment) : Except Failure Cutting :=
  match fragment.trackId? with
  | none => .error (.error (.missingBox .traf "moof"))
  | some trackId => do
    let samples ← fragment.samplesInWords (some trex)
    samples.foldlM (placeInWords target fragment.sequenceNumber trackId) cutting

/-- A cutting with an open fragment that has a bounded payload and begins it at an offset of 31
bits, and that has not lasted for the target yet. -/
structure Fits (cutting : Cutting) (target : UInt32) (room : Nat) : Prop where
  built : ∃ grouping, cutting.Matches grouping
  elapsed : cutting.elapsed = 0 ∨ cutting.elapsed < target.toNat
  payload : ∀ fragment ∈ cutting.current, fragment.mdat.payload.length ≤ room

namespace Fits

variable {cutting after : Cutting} {target : UInt32} {room : Nat}

theorem start (target : UInt32) : Cutting.start.Fits target 0 :=
  ⟨⟨_, .start⟩, .inl rfl, fun _ hnone => nomatch hnone⟩

theorem close (h : cutting.Fits target room) : cutting.close.Fits target room := by
  obtain ⟨grouping, hmatches⟩ := h.built
  exact ⟨⟨_, hmatches.close⟩, .inl rfl, fun _ hnone => nomatch hnone⟩

theorem ready (h : cutting.Fits target room) :
    (if cutting.elapsed = 0 then cutting.close else cutting).Fits target room := by
  split_ifs
  · exact h.close
  · exact h

theorem mono (h : cutting.Fits target room) {more : Nat} (hle : room ≤ more) :
    cutting.Fits target more :=
  ⟨h.built, h.elapsed, fun fragment hfragment => (h.payload fragment hfragment).trans hle⟩

theorem storedSize_le (h : cutting.Fits target room) (sequenceNumber trackId : UInt32) :
    (cutting.current.getD (.ofTracks sequenceNumber [trackId])).storedSize ≤ room + 2 ^ 31 := by
  obtain ⟨grouping, hmatches⟩ := h.built
  have hcurrent := hmatches.current
  cases hcase : cutting.current with
  | none =>
    have hsize := Fragment.storedSize_ofTracks_le sequenceNumber trackId
    rw [Option.getD_none]
    omega
  | some fragment =>
    rw [hcase] at hcurrent
    have hoffset := Fragment.HoldsGroup.payloadOffset_lt hcurrent
    have hpayload := h.payload fragment (by rw [hcase]; rfl)
    rw [Option.getD_some, fragment.storedSize_eq]
    omega

theorem placeInWords_eq (h : cutting.Fits target room) {sample : Sample}
    (hroom : room + sample.data.length < 2 ^ 61) (sequenceNumber trackId : UInt32) :
    cutting.placeInWords target sequenceNumber trackId sample =
      orFailure (cutting.place target.toNat sequenceNumber trackId sample) := by
  have hready := h.ready
  have hsmall := hready.storedSize_le sequenceNumber trackId
  have hduration := sample.duration.toNat_lt
  have htarget := target.toNat_lt
  have hlimit : UInt64.size = 2 ^ 64 := rfl
  unfold placeInWords place
  generalize (if cutting.elapsed = 0 then cutting.close else cutting) = ready at hready hsmall
  have helapsed := Words.add_of_lt (by
    rcases hready.elapsed with hzero | hlt <;> omega :
      ready.elapsed + sample.duration.toNat < UInt64.size)
  simp only [bind, Except.bind, Fragment.appendInWords_eq (by omega :
    (ready.current.getD (.ofTracks sequenceNumber [trackId])).storedSize + sample.data.length <
      2 ^ 62)]
  cases ((ready.current.getD (.ofTracks sequenceNumber [trackId])).appendToTrack sample
    trackId).error with
  | some error => rfl
  | none =>
    simp only [helapsed]
    rfl

theorem place (h : cutting.Fits target room) {sample : Sample} {sequenceNumber trackId : UInt32}
    (hplace : cutting.place target.toNat sequenceNumber trackId sample = .ok after) :
    after.Fits target (room + sample.data.length) := by
  obtain ⟨grouping, hmatches⟩ := h.built
  have hbuilt := hmatches.place hplace
  have hready := h.ready
  unfold Cutting.place at hplace
  simp only at hplace
  generalize (if cutting.elapsed = 0 then cutting.close else cutting) = ready at hready hplace
  split at hplace
  · cases hplace
  · cases hplace
    have hopen : (ready.current.getD (.ofTracks sequenceNumber [trackId])).mdat.payload.length ≤
        room := by
      cases hcase : ready.current with
      | none => exact Nat.zero_le _
      | some fragment => exact hready.payload fragment (by rw [hcase]; rfl)
    split_ifs at hbuilt ⊢ with hreached
    · exact ⟨⟨_, hbuilt⟩, .inl rfl, fun _ hnone => nomatch hnone⟩
    · refine ⟨⟨_, hbuilt⟩, .inr (not_le.1 hreached), ?_⟩
      intro fragment hfragment
      cases hfragment
      rcases Fragment.payload_appendToTrack
        (ready.current.getD (.ofTracks sequenceNumber [trackId])) sample trackId with hpayload |
        ⟨-, hpayload⟩
      · rw [hpayload]
        omega
      · rw [hpayload, List.length_append]
        omega

theorem foldlM (h : cutting.Fits target room) {samples : List Sample}
    (hroom : room + (samples.map (·.data.length)).sum < 2 ^ 61) (sequenceNumber trackId : UInt32) :
    samples.foldlM (placeInWords target sequenceNumber trackId) cutting =
        orFailure (samples.foldlM (Cutting.place target.toNat sequenceNumber trackId) cutting) ∧
      ∀ after, samples.foldlM (Cutting.place target.toNat sequenceNumber trackId) cutting =
        .ok after → after.Fits target (room + (samples.map (·.data.length)).sum) := by
  induction samples generalizing cutting room with
  | nil =>
    refine ⟨rfl, fun after hsame => ?_⟩
    cases hsame
    exact h
  | cons sample samples ih =>
    rw [List.map_cons, List.sum_cons, ← Nat.add_assoc] at hroom ⊢
    rw [List.foldlM_cons, List.foldlM_cons, h.placeInWords_eq (by omega), orFailure_bind]
    cases hplace : cutting.place target.toNat sequenceNumber trackId sample with
    | error error => exact ⟨rfl, fun after hsame => nomatch hsame⟩
    | ok middle => exact ih (h.place hplace) hroom

theorem placeFragment (h : cutting.Fits target room) {fragment : Fragment}
    (hsingle : fragment.checkSingleRun = .ok ())
    (hsmall : fragment.storedSize ≤ 2 ^ 63 - 2 ^ 31)
    (hroom : room + fragment.mdat.payload.length < 2 ^ 61) (trex : TrackExtends) :
    cutting.placeFragmentInWords target trex fragment =
        cutting.placeFragment target.toNat trex fragment ∧
      ∀ after, cutting.placeFragment target.toNat trex fragment = .ok after →
        after.Fits target (room + fragment.mdat.payload.length) := by
  unfold placeFragmentInWords Cutting.placeFragment
  cases fragment.trackId? with
  | none => exact ⟨rfl, fun after hsame => nomatch hsame⟩
  | some trackId =>
    simp only
    rw [Fragment.samplesInWords_eq hsmall]
    cases hsamples : fragment.samples (some trex) with
    | error failure => exact ⟨rfl, fun after hsame => nomatch hsame⟩
    | ok samples =>
      have hle := Fragment.dataLength_samples hsingle hsamples
      have hfits : room + (samples.map (·.data.length)).sum < 2 ^ 61 := by omega
      have hplaced := h.foldlM hfits fragment.sequenceNumber trackId
      refine ⟨hplaced.1, fun after hafter => ?_⟩
      exact (hplaced.2 after (mapError_eq_ok.1 hafter)).mono (by omega)

end Fits
end Cutting

namespace Segment

def recutInWords (segment : Segment) (trex : TrackExtends) (target : UInt32) :
    Except Failure (List Fragment) := do
  segment.fragments.zipIdx.forM fun (fragment, i) =>
    atFragment i (orFailure fragment.checkSingleRun)
  let cutting ← segment.fragments.zipIdx.foldlM (fun cutting (fragment, i) =>
    atFragment i (cutting.placeFragmentInWords target trex fragment)) Cutting.start
  return cutting.close.closed

variable {segment : Segment} {trex : TrackExtends} {target : UInt32}

theorem foldlM_placeFragmentInWords {fragments : List Fragment} {cutting : Cutting} {room : Nat}
    (h : cutting.Fits target room)
    (hsingle : ∀ fragment ∈ fragments, fragment.checkSingleRun = .ok ())
    (hroom : room + (fragments.map (·.storedSize)).sum < 2 ^ 61) (trex : TrackExtends)
    (start : Nat) :
    (fragments.zipIdx start).foldlM (fun cutting (fragment, i) =>
        atFragment i (cutting.placeFragmentInWords target trex fragment)) cutting =
      (fragments.zipIdx start).foldlM (fun cutting (fragment, i) =>
        atFragment i (cutting.placeFragment target.toNat trex fragment)) cutting := by
  induction fragments generalizing cutting room start with
  | nil => rfl
  | cons fragment fragments ih =>
    have hsize := fragment.storedSize_eq
    rw [List.map_cons, List.sum_cons] at hroom
    have hfirst := hsingle fragment (by simp)
    obtain ⟨hsame, hafter⟩ := h.placeFragment hfirst (by omega) (by omega) trex
    rw [List.zipIdx_cons, List.foldlM_cons, List.foldlM_cons]
    simp only [hsame]
    cases hplace : cutting.placeFragment target.toNat trex fragment with
    | error failure => rfl
    | ok middle =>
      exact ih (hafter middle hplace) (fun other hmem => hsingle other (by simp [hmem]))
        (by omega) (start + 1)

theorem checkSingleRun_of_forM
    (h : (segment.fragments.zipIdx.forM fun (fragment, i) =>
      atFragment i (orFailure fragment.checkSingleRun)) = .ok ()) :
    ∀ fragment ∈ segment.fragments, fragment.checkSingleRun = .ok () := by
  intro fragment hmem
  obtain ⟨i, hi, rfl⟩ := List.getElem_of_mem hmem
  have hcheck := forM_eq_ok h (segment.fragments[i], i)
    (List.mk_mem_zipIdx_iff_getElem?.2 (List.getElem?_eq_getElem hi))
  exact mapError_eq_ok.1 (mapError_eq_ok.1 hcheck)

/-- A segment that is not too large is cut alike in machine words. -/
theorem recutInWords_eq (hsmall : (segment.fragments.map (·.storedSize)).sum < 2 ^ 61)
    (trex : TrackExtends) (target : UInt32) :
    segment.recutInWords trex target = segment.recut trex target.toNat := by
  unfold recutInWords recut
  cases hchecks : segment.fragments.zipIdx.forM fun (fragment, i) =>
      atFragment i (orFailure fragment.checkSingleRun) with
  | error failure => rfl
  | ok done =>
    simp only [bind, Except.bind]
    rw [foldlM_placeFragmentInWords (.start target) (checkSingleRun_of_forM hchecks) (by omega)
      trex 0]

theorem Accepted.storedSizes_le {startPosition : UInt64} {isStart : Bool} {count : Nat}
    (h : segment.Accepted startPosition isStart count) :
    (segment.fragments.map (·.storedSize)).sum ≤ count := by
  have hparts (parts : List SegmentPart) : (parts.map (·.fragment.storedSize)).sum ≤
      ((parts.flatMap SegmentPart.boxes).map (Box.size ·)).sum := by
    induction parts with
    | nil => exact le_rfl
    | cons part parts ih =>
      have hfragment : part.fragment.storedSize =
          (part.fragment.boxes.map (Box.size ·)).sum := rfl
      simp only [List.map_cons, List.sum_cons, List.flatMap_cons, SegmentPart.boxes,
        List.map_append, List.sum_append]
      omega
  have hall := hparts segment.parts
  have hsize := h.size_le
  unfold boxes at hsize
  rw [List.map_append, List.sum_append] at hsize
  unfold fragments
  rw [List.map_map]
  change (segment.parts.map (·.fragment.storedSize)).sum ≤ _
  omega

/-! ### No other sum can fail -/

theorem orderly_atFragment {α : Type} {fits : Prop} {result : Except Failure α}
    (h : Orderly fits result) (i : Nat) : Orderly fits (atFragment i result) :=
  h.mapError (.inFragment (i + 1))

/-- A segment is cut or an error is found, if the decode times of all fragments fit. -/
theorem orderly_recut (segment : Segment) (trex : TrackExtends) (target : Nat) :
    Orderly (∀ fragment ∈ segment.fragments, fragment.TimesFit (some trex))
      (segment.recut trex target) := by
  have hchecks {fits : Prop} (items : List (Fragment × Nat)) :
      Orderly fits (items.forM fun (fragment, i) =>
        atFragment i (orFailure fragment.checkSingleRun)) := by
    induction items with
    | nil => trivial
    | cons item items ih =>
      exact (orderly_atFragment (orderly_orFailure _) item.2).bind fun _ _ => ih
  have hcuts (items : List (Fragment × Nat)) (cutting : Cutting) :
      Orderly (∀ item ∈ items, item.1.TimesFit (some trex))
        (items.foldlM (fun cutting (fragment, i) =>
          atFragment i (cutting.placeFragment target trex fragment)) cutting) := by
    induction items generalizing cutting with
    | nil => trivial
    | cons item items ih =>
      rw [List.foldlM_cons]
      refine Orderly.bind (orderly_atFragment ?_ item.2) fun middle _ =>
        (ih middle).mono fun hfits other hmem => hfits other (by simp [hmem])
      unfold Cutting.placeFragment
      cases item.1.trackId? with
      | none => trivial
      | some trackId =>
        exact ((item.1.orderly_samples _).mono fun hfits => hfits item (by simp)).bind
          fun samples _ => orderly_orFailure _
  unfold recut
  refine (hchecks _).bind fun _ _ => ((hcuts _ _).mono ?_).bind fun _ _ => trivial
  intro hfits item hmem
  exact hfits item.1 (List.fst_mem_of_mem_zipIdx hmem)

/-- Whatever bytes a segment was decoded from, all that is computed when its samples are read or
it is cut fits its words, and data is taken from inside the payloads. Decode times are the one
exception: a fragment whose samples can be read otherwise fails exactly if the end of its last
sample does not fit. The bytes are fewer than a machine can address. -/
theorem decoded_reads_orderly {startPosition : UInt64} {data : Bytes} {segment : Segment}
    (hlength : data.length < 2 ^ 60) (h : decodeAt startPosition data = .ok segment) :
    (∀ fragment ∈ segment.fragments, ∀ trex,
      fragment.samplesInWords trex = fragment.samples trex ∧
      Orderly (fragment.TimesFit trex) (fragment.samplesInWords trex) ∧
      ((∀ error, fragment.samplesInWords trex ≠ .error (.error error)) →
        (fragment.samplesInWords trex = .error .overflow ↔ ¬ fragment.TimesFit trex))) ∧
    (∀ trex, Orderly True (orFailure (segment.commonDuration trex))) ∧
    ∀ trex target, segment.recutInWords trex target = segment.recut trex target.toNat ∧
      Orderly (∀ fragment ∈ segment.fragments, fragment.TimesFit (some trex))
        (segment.recutInWords trex target) := by
  obtain ⟨isStart, haccepted⟩ := accepted_of_decodeAt h
  have hsizes := haccepted.storedSizes_le.trans (Box.room_le data)
  refine ⟨?_, fun trex => orderly_orFailure _, ?_⟩
  · intro fragment hmem trex
    have hsize : fragment.storedSize ≤ (segment.fragments.map (·.storedSize)).sum :=
      List.le_sum_of_mem (List.mem_map_of_mem hmem)
    have horderly := fragment.orderly_samples trex
    rw [Fragment.samplesInWords_eq (by omega)]
    refine ⟨rfl, horderly, ?_⟩
    intro hnoError
    cases hsamples : fragment.samples trex with
    | ok samples =>
      exact iff_of_false (by simp) (not_not_intro (Fragment.timesFit_of_samples hsamples))
    | error failure =>
      rw [hsamples] at horderly
      cases failure with
      | error error => exact absurd hsamples (hnoError error)
      | overflow => exact iff_of_true rfl horderly
      | pastEnd room requested => exact horderly.elim
  · intro trex target
    rw [recutInWords_eq (by omega)]
    exact ⟨rfl, segment.orderly_recut trex target.toNat⟩

/-- A fragment of one sample that lasts for one unit and ends at the largest time there is. -/
theorem decoded_reads_orderly_at_limit :
    let data : Bytes :=
      [0, 0, 0, 104, 109, 111, 111, 102, 0, 0, 0, 16, 109, 102, 104, 100, 0, 0, 0, 0, 0, 0, 0, 1,
        0, 0, 0, 80, 116, 114, 97, 102, 0, 0, 0, 16, 116, 102, 104, 100, 0, 2, 0, 0, 0, 0, 0, 1,
        0, 0, 0, 20, 116, 102, 100, 116, 1, 0, 0, 0, 255, 255, 255, 255, 255, 255, 255, 254, 0, 0,
        0, 36, 116, 114, 117, 110, 0, 0, 15, 1, 0, 0, 0, 1, 0, 0, 0, 112, 0, 0, 0, 1, 0, 0, 0, 1,
        0, 0, 0, 0, 0, 0, 0, 0, 0, 0, 0, 9, 109, 100, 97, 116, 170]
    let fragment : Fragment := .ofBoxes
      ⟨⟨1⟩, [⟨.ofTrack 1, [⟨some 112, none, [⟨some 1, some 1, some 0, some 0⟩]⟩],
        some (.ofTime 0xFFFFFFFFFFFFFFFE)⟩]⟩ ⟨[170]⟩
    let segment := (ofType none).addFragment fragment
    data.length < 2 ^ 60 ∧ decodeAt 0 data = .ok segment ∧
      fragment.samplesInWords none = .ok [⟨0, 1, 1, 0, 0xFFFFFFFFFFFFFFFE, [170]⟩] ∧
      Orderly (fragment.TimesFit none) (fragment.samplesInWords none) := by
  intro data fragment segment
  have hlength : data.length < 2 ^ 60 := by decide +kernel
  have h : decodeAt 0 data = .ok segment := by decide +kernel
  have hsamples : fragment.samplesInWords none =
      .ok [⟨0, 1, 1, 0, 0xFFFFFFFFFFFFFFFE, [170]⟩] := by
    decide +kernel
  have hmem : fragment ∈ segment.fragments := List.mem_singleton_self fragment
  -- what follows needs only the facts above, and not what the names stand for
  clear_value segment fragment data
  obtain ⟨hfragments, -⟩ := decoded_reads_orderly hlength h
  exact ⟨hlength, h, hsamples, (hfragments fragment hmem none).2.1⟩

/-- A fragment whose decode time is the largest there is. Its only sample ends later, and although
no other sample needs that time, the sample is not read and the segment is not cut. -/
theorem decoded_reads_overflow :
    let data : Bytes :=
      [0, 0, 0, 104, 109, 111, 111, 102, 0, 0, 0, 16, 109, 102, 104, 100, 0, 0, 0, 0, 0, 0, 0, 1,
        0, 0, 0, 80, 116, 114, 97, 102, 0, 0, 0, 16, 116, 102, 104, 100, 0, 2, 0, 0, 0, 0, 0, 1,
        0, 0, 0, 20, 116, 102, 100, 116, 1, 0, 0, 0, 255, 255, 255, 255, 255, 255, 255, 255, 0, 0,
        0, 36, 116, 114, 117, 110, 0, 0, 15, 1, 0, 0, 0, 1, 0, 0, 0, 112, 0, 0, 0, 1, 0, 0, 0, 1,
        0, 0, 0, 0, 0, 0, 0, 0, 0, 0, 0, 9, 109, 100, 97, 116, 170]
    let fragment : Fragment := .ofBoxes
      ⟨⟨1⟩, [⟨.ofTrack 1, [⟨some 112, none, [⟨some 1, some 1, some 0, some 0⟩]⟩],
        some (.ofTime 0xFFFFFFFFFFFFFFFF)⟩]⟩ ⟨[170]⟩
    let segment := (ofType none).addFragment fragment
    decodeAt 0 data = .ok segment ∧ fragment.samples none = .error .overflow ∧
      segment.recut ⟨1, 1, 0, 0, 0⟩ 1 = .error .overflow := by
  decide +kernel

end Segment
end FragmentedMp4
