import FragmentedMp4.Proofs.Fragment.Meaning
import FragmentedMp4.Fragment.Append
import Mathlib.Data.List.TakeWhile

/-!
# What appending does to a fragment

An attempt to append a sample is refused by a check, or it adds the sample to one track
fragment: as an entry of its last run, or as the first entry of a new run behind all data. Only
then are data offsets computed, and an attempt that fails there has changed the fragment already.
-/
namespace FragmentedMp4

namespace TrackFragment

/-- The track fragment that takes a sample, which opens it if it is the first one. -/
def openedFor (track : TrackFragment) (sample : Sample) : TrackFragment :=
  if track.sampleCount = 0 then track.opened sample.decodeTime else track

variable {track : TrackFragment}

theorem sampleCount_eq_sum (track : TrackFragment) :
    track.sampleCount = (track.runs.map (·.samples.length)).sum := rfl

theorem samples_eq_nil (h : track.sampleCount = 0) : ∀ run ∈ track.runs, run.samples = [] := by
  intro run hmem
  have hle : run.samples.length ≤ track.sampleCount :=
    List.le_sum_of_mem (List.mem_map_of_mem hmem)
  exact List.length_eq_zero_iff.1 (by omega)

theorem lastRunCarries_of_empty (h : track.sampleCount = 0) (fields : SampleFields) :
    track.lastRunCarries fields = false := by
  unfold lastRunCarries
  cases hlast : track.runs.getLast? with
  | none => rfl
  | some run =>
    have hnil := samples_eq_nil h run (List.mem_of_getLast? hlast)
    simp [hnil]

theorem lastRunCarries_openedFor (sample : Sample) (fields : SampleFields) :
    (track.openedFor sample).lastRunCarries fields = track.lastRunCarries fields := by
  unfold openedFor
  split_ifs with hcount
  · rw [lastRunCarries_of_empty hcount]
    rfl
  · rfl

/-- A track fragment that carries fields has samples, and so it is not opened again. -/
theorem openedFor_of_carries {fields : SampleFields} (h : track.lastRunCarries fields = true)
    (sample : Sample) : track.openedFor sample = track := by
  unfold openedFor
  split_ifs with hcount
  · rw [lastRunCarries_of_empty hcount] at h
    cases h
  · rfl

theorem openedFor_keeps {isFirst : Bool} (track : TrackFragment) (sample : Sample)
    (hbase : track.header.baseDataOffset = none)
    (hplace : isFirst = true ∨ track.header.baseIsMoof = true) :
    (track.openedFor sample).trackId = track.trackId ∧
      (track.openedFor sample).header.baseDataOffset = none ∧
      (isFirst = true ∨ (track.openedFor sample).header.baseIsMoof = true) := by
  unfold openedFor
  split_ifs
  · exact ⟨rfl, hbase, .inr rfl⟩
  · exact ⟨rfl, hbase, hplace⟩

theorem exists_lastRun {fields : SampleFields} (h : track.lastRunCarries fields = true) :
    ∃ runs run, track.runs = runs ++ [run] ∧ run.samples ≠ [] := by
  unfold lastRunCarries at h
  cases hlast : track.runs.getLast? with
  | none =>
    rw [hlast] at h
    cases h
  | some run =>
    rw [hlast] at h
    refine ⟨track.runs.dropLast, run, ?_, ?_⟩
    · rw [List.dropLast_append_getLast? run hlast]
    · intro hnil
      simp [hnil] at h

theorem header_pushEntry (track : TrackFragment) (entry : RunSample) :
    (track.pushEntry entry).header = track.header := by
  unfold pushEntry
  split <;> rfl

theorem runs_pushEntry {runs : List TrackRun} {run : TrackRun} (h : track.runs = runs ++ [run])
    (entry : RunSample) :
    track.pushEntry entry =
      { track with runs := runs ++ [{ run with samples := run.samples ++ [entry] }] } := by
  unfold pushEntry
  simp only [h, List.getLast?_concat, List.dropLast_concat]

theorem pushEntry_pushRun (dataOffset : Int32) (entry : RunSample) :
    (track.pushRun dataOffset).pushEntry entry =
      { track with runs := track.runs ++ [⟨some dataOffset, none, [entry]⟩] } := by
  have hruns : (track.pushRun dataOffset).runs = track.runs ++ [⟨some dataOffset, none, []⟩] := rfl
  exact runs_pushEntry hruns entry

theorem sampleCount_pushEntry {fields : SampleFields} (h : track.lastRunCarries fields = true)
    (entry : RunSample) : (track.pushEntry entry).sampleCount = track.sampleCount + 1 := by
  obtain ⟨runs, run, hruns, -⟩ := exists_lastRun h
  rw [runs_pushEntry hruns, sampleCount_eq_sum, sampleCount_eq_sum, hruns]
  simp [Nat.add_assoc]

theorem sampleCount_openedFor (sample : Sample) :
    (track.openedFor sample).sampleCount = track.sampleCount := by
  unfold openedFor
  split_ifs with hcount
  · exact hcount.symm
  · rfl

theorem sampleCount_newRun (sample : Sample) (dataOffset : Int32) :
    (((track.openedFor sample).pushRun dataOffset).pushEntry sample.entry).sampleCount =
      track.sampleCount + 1 := by
  rw [pushEntry_pushRun, ← track.sampleCount_openedFor sample, sampleCount_eq_sum,
    sampleCount_eq_sum]
  simp

end TrackFragment

namespace Fragment

variable {fragment : Fragment} {before after : List TrackFragment} {track : TrackFragment}
  {sample : Sample}

/-- What becomes of a sample that has passed the checks of its own. -/
theorem appendAt_cases (fragment : Fragment) (before : List TrackFragment) (track : TrackFragment)
    (after : List TrackFragment) (sample : Sample) :
    (track.lastRunCarries sample.entry.fields = true ∧
      fragment.appendAt before track after sample =
        (fragment.withTracks (before ++ track.pushEntry sample.entry :: after)).withData
          fragment.payloadOffset sample.data) ∨
    track.lastRunCarries sample.entry.fields = false ∧
      (fragment.appendAt before track after sample =
          ⟨fragment, some (.unsupported .runAfterPreviousTrack)⟩ ∨
        (2 ^ 31 ≤ fragment.payloadOffset + fragment.mdat.payload.length ∧
          fragment.appendAt before track after sample =
            ⟨fragment.withTracks (before ++ track.openedFor sample :: after),
              some .offsetOutOfRange⟩) ∨
        ∃ dataOffset : Int32,
          dataOffset.toInt = fragment.payloadOffset + fragment.mdat.payload.length ∧
          fragment.appendAt before track after sample =
            (fragment.withTracks (before ++ ((track.openedFor sample).pushRun
              dataOffset).pushEntry sample.entry :: after)).withData fragment.payloadOffset
                sample.data) := by
  have hopened : (if track.sampleCount = 0 then track.opened sample.decodeTime else track) =
      track.openedFor sample := rfl
  unfold appendAt
  simp only [hopened]
  rw [track.lastRunCarries_openedFor]
  cases hcarries : track.lastRunCarries sample.entry.fields with
  | true =>
    rw [if_pos rfl, TrackFragment.openedFor_of_carries hcarries]
    exact .inl ⟨rfl, rfl⟩
  | false =>
    rw [if_neg Bool.false_ne_true]
    refine .inr ⟨rfl, ?_⟩
    split_ifs
    · exact .inl rfl
    · cases hword : offsetWord? (fragment.payloadOffset + fragment.mdat.payload.length) with
      | none =>
        refine .inr (.inl ⟨?_, rfl⟩)
        unfold offsetWord? at hword
        split_ifs at hword with hrange
        omega
      | some dataOffset => exact .inr (.inr ⟨dataOffset, toInt_of_offsetWord? hword, rfl⟩)

/-- A sample is refused before anything is changed, or it goes to the first track fragment of
its track. -/
theorem appendToTrack_cases (fragment : Fragment) (sample : Sample) (trackId : UInt32) :
    (∃ error, error ≠ .offsetOutOfRange ∧
      fragment.appendToTrack sample trackId = ⟨fragment, some error⟩) ∨
    ∃ before track after, fragment.moof.tracks = before ++ track :: after ∧
      (∀ other ∈ before, other.trackId ≠ trackId) ∧ track.trackId = trackId ∧
      (∀ other ∈ after, other.sampleCount = 0) ∧
      sample.data.length = sample.size.toNat ∧ track.header.baseDataOffset = none ∧
      fragment.appendToTrack sample trackId = fragment.appendAt before track after sample := by
  have hsplit : fragment.moof.tracks.takeWhile (·.trackId != trackId) ++
      fragment.moof.tracks.dropWhile (·.trackId != trackId) = fragment.moof.tracks :=
    List.takeWhile_append_dropWhile
  have hbefore : ∀ other ∈ fragment.moof.tracks.takeWhile (·.trackId != trackId),
      other.trackId ≠ trackId := by
    intro other hmem
    simpa using List.mem_takeWhile_imp hmem
  have hhead := List.head?_dropWhile_not (fun track : TrackFragment => track.trackId != trackId)
    fragment.moof.tracks
  unfold appendToTrack
  cases hrest : fragment.moof.tracks.dropWhile (·.trackId != trackId) with
  | nil =>
    simp only [hrest]
    exact .inl ⟨.trackNotFound trackId, by simp [Error.offsetOutOfRange], rfl⟩
  | cons track after =>
    rw [hrest] at hsplit hhead
    simp only [hrest]
    split_ifs with hafter hsize hbase
    · exact .inl ⟨.interleavedTrackData trackId, by simp [Error.offsetOutOfRange], rfl⟩
    · exact .inl ⟨.invalidBox .mdat (.payloadMismatch sample.size.toNat sample.data.length),
        by simp [Error.offsetOutOfRange], rfl⟩
    · exact .inl ⟨.unsupported .absoluteBaseOffset, by simp [Error.offsetOutOfRange], rfl⟩
    · refine .inr ⟨_, track, after, hsplit.symm, hbefore, ?_, ?_, ?_, ?_, rfl⟩
      · simpa using hhead
      · simpa using hafter
      · simpa using hsize
      · simpa using hbase

theorem appendToTrack_eq_none {fragment : Fragment} {sample : Sample} {trackId : UInt32}
    (h : (fragment.appendToTrack sample trackId).error = none) :
    ∃ before track after, fragment.moof.tracks = before ++ track :: after ∧
      (∀ other ∈ before, other.trackId ≠ trackId) ∧ track.trackId = trackId ∧
      (∀ other ∈ after, other.sampleCount = 0) ∧
      sample.data.length = sample.size.toNat ∧ track.header.baseDataOffset = none ∧
      fragment.appendToTrack sample trackId = fragment.appendAt before track after sample := by
  rcases fragment.appendToTrack_cases sample trackId with ⟨error, -, hrefused⟩ | htaken
  · rw [hrefused] at h
    cases h
  · exact htaken

theorem sampleCount_shift (delta : Int) (moof : MovieFragment) :
    (moof.shift delta).1.tracks.map (·.sampleCount) = moof.tracks.map (·.sampleCount) := by
  have htrack (isFirst : Bool) (track : TrackFragment) :
      (track.shift delta isFirst).1.sampleCount = track.sampleCount := by
    have hlengths := congrArg (fun runs => (runs.map List.length).sum)
      (track.samples_shift delta isFirst)
    simpa only [List.map_map, Function.comp_def, ← TrackFragment.sampleCount_eq_sum] using hlengths
  unfold MovieFragment.shift
  split_ifs
  · rfl
  · exact TrackFragment.map_shiftAll htrack moof.tracks

theorem sampleCount_withData (oldOffset : Nat) (data : Bytes) :
    (fragment.withData oldOffset data).fragment.sampleCount = fragment.sampleCount :=
  congrArg (List.foldr (· + ·) 0) (sampleCount_shift _ fragment.moof)

theorem error_withData {oldOffset : Nat} {data : Bytes} {error : Error}
    (h : (fragment.withData oldOffset data).error = some error) : error = .offsetOutOfRange := by
  unfold withData at h
  simp only at h
  split_ifs at h
  cases h
  rfl

/-- A sample that was counted is there, so the fragment has changed. -/
theorem withData_ne {changed : TrackFragment} (oldOffset : Nat) (data : Bytes)
    (hsplit : fragment.moof.tracks = before ++ track :: after)
    (hcount : changed.sampleCount = track.sampleCount + 1) :
    ((fragment.withTracks (before ++ changed :: after)).withData oldOffset data).fragment ≠
      fragment := by
  intro hsame
  have hcounts := congrArg sampleCount hsame
  rw [sampleCount_withData] at hcounts
  have hbefore : fragment.sampleCount = ((before ++ track :: after).map (·.sampleCount)).sum := by
    rw [← hsplit]
    rfl
  have hafter : (fragment.withTracks (before ++ changed :: after)).sampleCount =
      ((before ++ changed :: after).map (·.sampleCount)).sum := rfl
  rw [hbefore, hafter] at hcounts
  simp only [List.map_append, List.map_cons, List.sum_append, List.sum_cons] at hcounts
  omega

theorem withTracks_eq_iff {changed : TrackFragment}
    (hsplit : fragment.moof.tracks = before ++ track :: after) :
    fragment.withTracks (before ++ changed :: after) = fragment ↔ changed = track := by
  constructor
  · intro hsame
    have htracks := congrArg (·.moof.tracks) hsame
    simp only [withTracks, hsplit] at htracks
    exact (List.cons.inj (List.append_cancel_left htracks)).1
  · rintro rfl
    rw [← hsplit]
    rfl

theorem track?_of_split (hsplit : fragment.moof.tracks = before ++ track :: after)
    (hbefore : ∀ other ∈ before, other.trackId ≠ track.trackId) :
    fragment.moof.track? track.trackId = some track := by
  have hnone : before.find? (·.trackId == track.trackId) = none := by
    simpa using hbefore
  unfold MovieFragment.track?
  rw [hsplit, List.find?_append, hnone, Option.none_or]
  exact List.find?_cons_of_pos (by simp)

/-- A data offset is out of range for want of room, before the sample has been put anywhere,
and the track fragment needed no change to take it. -/
structure Untouched (fragment : Fragment) (track : TrackFragment) (sample : Sample) : Prop where
  noRun : track.lastRunCarries sample.entry.fields = false
  noRoom : 2 ^ 31 ≤ fragment.payloadOffset + fragment.mdat.payload.length
  opened : track.openedFor sample = track

/-- An attempt at a track that failed has changed nothing, unless it has come to the data
offsets. -/
theorem appendToTrack_unchanged {trackId : UInt32} {error : Error}
    (h : (fragment.appendToTrack sample trackId).error = some error) :
    (fragment.appendToTrack sample trackId).fragment = fragment ↔
      (error = .offsetOutOfRange →
        ∃ track, fragment.moof.track? trackId = some track ∧ fragment.Untouched track sample) := by
  rcases fragment.appendToTrack_cases sample trackId with ⟨refusal, hother, hrefused⟩ |
    ⟨before, track, after, hsplit, hbefore, rfl, -, -, -, happend⟩
  · rw [hrefused] at h ⊢
    cases h
    exact ⟨fun _ hrange => absurd hrange hother, fun _ => rfl⟩
  · have hfound := track?_of_split hsplit hbefore
    have hsome {p : TrackFragment → Prop} :
        (∃ found, fragment.moof.track? track.trackId = some found ∧ p found) ↔ p track := by
      simp [hfound]
    rw [happend] at h ⊢
    rw [hsome]
    rcases fragment.appendAt_cases before track after sample with ⟨hcarries, hjoined⟩ |
      ⟨hcarries, hrefused | ⟨hroom, hnoroom⟩ | ⟨dataOffset, hoffset, hrun⟩⟩
    · rw [hjoined] at h ⊢
      have hchanged := withData_ne fragment.payloadOffset sample.data hsplit
        (track.sampleCount_pushEntry hcarries sample.entry)
      refine iff_of_false hchanged fun huntouched => ?_
      simpa [hcarries] using (huntouched (error_withData h)).noRun
    · rw [hrefused] at h ⊢
      cases h
      exact ⟨fun _ hrange => absurd hrange (by simp [Error.offsetOutOfRange]), fun _ => rfl⟩
    · rw [hnoroom] at h ⊢
      cases h
      rw [withTracks_eq_iff hsplit]
      exact ⟨fun hopened _ => ⟨hcarries, hroom, hopened⟩, fun huntouched => (huntouched rfl).opened⟩
    · rw [hrun] at h ⊢
      have hchanged := withData_ne fragment.payloadOffset sample.data hsplit
        (track.sampleCount_newRun sample dataOffset)
      refine iff_of_false hchanged fun huntouched => ?_
      have hroom := (huntouched (error_withData h)).noRoom
      have hfits := dataOffset.toInt_lt
      omega

/-- Appends a sample to the track fragment of a track, or to the only one. -/
def appendTo (fragment : Fragment) (sample : Sample) : Option UInt32 → Attempt
  | some trackId => fragment.appendToTrack sample trackId
  | none => fragment.append sample

/-- The track fragment that an attempt is made on. -/
def receiver? (fragment : Fragment) : Option UInt32 → Option TrackFragment
  | some trackId => fragment.moof.track? trackId
  | none => fragment.moof.firstTrack?

/-- An attempt that failed has changed nothing, unless it has come to the data offsets. Then it
has put the sample into a run, or it has opened the track fragment for a run that there is no
room for. -/
theorem appendTo_unchanged_iff {fragment : Fragment} {sample : Sample} {target : Option UInt32}
    {error : Error} (h : (fragment.appendTo sample target).error = some error) :
    (fragment.appendTo sample target).fragment = fragment ↔
      (error = .offsetOutOfRange →
        ∃ track, fragment.receiver? target = some track ∧ fragment.Untouched track sample) := by
  cases target with
  | some trackId => exact appendToTrack_unchanged h
  | none =>
    unfold appendTo append at h ⊢
    unfold receiver? MovieFragment.firstTrack?
    cases htracks : fragment.moof.tracks with
    | nil =>
      simp only [htracks] at h ⊢
      cases h
      exact ⟨fun _ hrange => absurd hrange (by simp [Error.offsetOutOfRange]), fun _ => trivial⟩
    | cons track others =>
      cases others with
      | cons second others =>
        simp only [htracks] at h ⊢
        cases h
        exact ⟨fun _ hrange => absurd hrange (by simp [Error.offsetOutOfRange]), fun _ => trivial⟩
      | nil =>
        have hsplit : fragment.moof.tracks = [] ++ track :: [] := htracks
        have hfound := track?_of_split hsplit (by simp)
        simp only [htracks] at h ⊢
        rw [appendToTrack_unchanged h, hfound]
        rfl

/-- The only track fragment is not touched by a sample that there is no room for. -/
theorem append_of_untouched {fragment : Fragment} {track : TrackFragment} {sample : Sample}
    (htracks : fragment.moof.tracks = [track]) (hbase : track.header.baseDataOffset = none)
    (hsize : sample.data.length = sample.size.toNat) (h : fragment.Untouched track sample) :
    fragment.append sample = ⟨fragment, some .offsetOutOfRange⟩ := by
  have hcarries : (track.openedFor sample).lastRunCarries sample.entry.fields = false := by
    rw [track.lastRunCarries_openedFor]
    exact h.noRun
  have hroom : offsetWord? (fragment.payloadOffset + fragment.mdat.payload.length) = none := by
    have hlarge := h.noRoom
    exact if_neg (by omega)
  have hsplit : fragment.moof.tracks = [] ++ track :: [] := htracks
  have hsame : fragment.withTracks ([] ++ track.openedFor sample :: []) = fragment :=
    (withTracks_eq_iff hsplit).2 h.opened
  have happend : fragment.append sample = fragment.appendAt [] track [] sample := by
    unfold append appendToTrack
    simp [htracks, hbase, hsize]
  have hopened : (if track.sampleCount = 0 then track.opened sample.decodeTime else track) =
      track.openedFor sample := rfl
  rw [happend]
  unfold appendAt
  simp only [hopened, hcarries, hroom, hsame, List.isEmpty_nil, Bool.not_true, Bool.false_and,
    Bool.false_eq_true, if_false]

/-- A sample with other fields than the samples of the last run needs a run of its own. Behind two
gibibytes of data there is no offset for it, and it is refused before anything is changed. -/
theorem appendTo_unchanged_without_room :
    let track : TrackFragment :=
      ⟨.ofTrack 1, [⟨some 100, none, [⟨none, some 1, none, none⟩]⟩], some (.ofTime 0)⟩
    let fragment := ofBoxes ⟨⟨1⟩, [track]⟩ ⟨List.replicate (2 ^ 31) 0⟩
    let sample : Sample := ⟨0, 10, 1, 0, 10, [2]⟩
    (fragment.appendTo sample none).error = some .offsetOutOfRange ∧
      fragment.receiver? none = some track ∧ fragment.Untouched track sample ∧
      (fragment.appendTo sample none).fragment = fragment := by
  intro track fragment sample
  have hlength : fragment.mdat.payload.length = 2 ^ 31 := List.length_replicate
  have huntouched : fragment.Untouched track sample :=
    ⟨by decide, by rw [hlength]; exact Nat.le_add_left _ _, rfl⟩
  have herror : (fragment.appendTo sample none).error = some .offsetOutOfRange := by
    change (fragment.append sample).error = _
    rw [append_of_untouched rfl rfl rfl huntouched]
  exact ⟨herror, rfl, huntouched,
    (appendTo_unchanged_iff herror).2 fun _ => ⟨track, rfl, huntouched⟩⟩

/-- The first run has no samples and the largest offset there is, so it cannot move when the
second one takes another entry. The sample is counted and its data is there, and the offset of
the second run still points to where the payload was. -/
theorem appendTo_changes_on_failure :
    let fragment := ofBoxes
      ⟨⟨1⟩, [⟨.ofTrack 1,
        [⟨some 2147483647, none, []⟩, ⟨some 132, none, [⟨some 10, some 1, some 0, some 0⟩]⟩],
        some (.ofTime 0)⟩]⟩ ⟨[1]⟩
    let attempt := fragment.appendTo ⟨0, 10, 1, 0, 10, [2]⟩ (some 1)
    attempt.error = some .offsetOutOfRange ∧ attempt.fragment ≠ fragment ∧
      fragment.sampleCount = 1 ∧ attempt.fragment.sampleCount = 2 ∧
      attempt.fragment.mdat.payload = [1, 2] ∧
      fragment.trackSamples 1 none = .ok [⟨0, 10, 1, 0, 0, [1]⟩] ∧
      attempt.fragment.trackSamples 1 none =
        .error (.error (.invalidBox .trun (.offsetBeforePayload 132))) := by
  decide +kernel

end Fragment
end FragmentedMp4
