import FragmentedMp4.Proofs.Fragment.Appending

/-!
# Fragments that are built sample by sample

A fragment of one track that samples are appended to has a single run, which carries all
values of its samples and begins at the payload. That is what it is after the first sample,
and every further sample that is taken keeps it so. Such a fragment gives its samples back,
with decode times that count up from that of the first one.
-/
namespace FragmentedMp4

namespace TrackFragment

/-- A track fragment with one run that holds samples, the first of them given apart. -/
def ofSamples (trackId : UInt32) (dataOffset : Int32) (first : Sample)
    (rest : List Sample) : TrackFragment where
  header := .ofTrack trackId
  runs := [⟨some dataOffset, none, (first :: rest).map Sample.entry⟩]
  decodeTime := some (.ofTime first.decodeTime)

theorem shift_ofSamples {trackId : UInt32} {dataOffset : Int32} {first : Sample}
    {rest : List Sample} (delta : Int) (isFirst : Bool) :
    (ofSamples trackId dataOffset first rest).shift delta isFirst =
      match offsetWord? (dataOffset.toInt + delta) with
      | none => (ofSamples trackId dataOffset first rest, false)
      | some moved => (ofSamples trackId moved first rest, true) := by
  have hrelative : (ofSamples trackId dataOffset first rest).isRelativeToMoof isFirst = true := by
    cases isFirst <;> rfl
  unfold shift
  rw [if_pos hrelative]
  cases hword : offsetWord? (dataOffset.toInt + delta) with
  | none => simp [ofSamples, changeInOrder, TrackRun.shift, hword]
  | some moved => simp [ofSamples, changeInOrder, TrackRun.shift, hword]

end TrackFragment

namespace Fragment

def ofSamples (sequenceNumber trackId : UInt32) (dataOffset : Int32) (first : Sample)
    (rest : List Sample) : Fragment :=
  ofBoxes ⟨⟨sequenceNumber⟩, [.ofSamples trackId dataOffset first rest]⟩
    ⟨(first :: rest).flatMap (·.data)⟩

/-- A fragment has one run, which holds these samples and begins at the payload. -/
structure Holds (fragment : Fragment) (sequenceNumber trackId : UInt32) (first : Sample)
    (rest : List Sample) : Prop where
  shape : ∃ dataOffset : Int32, dataOffset.toInt = fragment.payloadOffset ∧
    fragment = ofSamples sequenceNumber trackId dataOffset first rest
  sizes : ∀ sample ∈ first :: rest, sample.data.length = sample.size.toNat

variable {sequenceNumber trackId : UInt32} {first : Sample} {rest : List Sample}

theorem shift_ofSamples {dataOffset : Int32} {delta : Int}
    (h : ((ofSamples sequenceNumber trackId dataOffset first rest).moof.shift delta).2 = true) :
    ∃ moved : Int32, moved.toInt = dataOffset.toInt + delta ∧
      ((ofSamples sequenceNumber trackId dataOffset first rest).moof.shift delta).1 =
        (ofSamples sequenceNumber trackId moved first rest).moof := by
  by_cases hzero : delta = 0
  · subst hzero
    exact ⟨dataOffset, by omega, rfl⟩
  · unfold MovieFragment.shift at h ⊢
    rw [if_neg hzero] at h ⊢
    simp only [ofSamples, ofBoxes, TrackFragment.shiftAll, TrackFragment.shift_ofSamples] at h ⊢
    cases hword : offsetWord? (dataOffset.toInt + delta) with
    | none => simp [hword] at h
    | some moved =>
      refine ⟨moved, toInt_of_offsetWord? hword, ?_⟩
      simp only [changeInOrder]

theorem holds_withData {fragment : Fragment} {oldOffset : Nat} {data : Bytes} {dataOffset : Int32}
    (hgrown : { fragment with mdat := ⟨fragment.mdat.payload ++ data⟩ } =
      ofSamples sequenceNumber trackId dataOffset first rest)
    (hoffset : dataOffset.toInt = oldOffset)
    (hsizes : ∀ sample ∈ first :: rest, sample.data.length = sample.size.toNat)
    (h : (fragment.withData oldOffset data).error = none) :
    Holds (fragment.withData oldOffset data).fragment sequenceNumber trackId first rest := by
  unfold withData at h ⊢
  rw [hgrown] at h ⊢
  simp only [ite_eq_left_iff, reduceCtorEq, imp_false, Bool.not_eq_true, Bool.not_eq_false] at h
  obtain ⟨moved, hmoved, hmoof⟩ := shift_ofSamples h
  refine ⟨⟨moved, ?_, ?_⟩, hsizes⟩
  · simp only [hmoof]
    rw [hmoved, hoffset, add_sub_cancel]
    rfl
  · simp only [hmoof]
    rfl

theorem appendToTrack_single {fragment : Fragment} {track : TrackFragment} {sample : Sample}
    {otherId : UInt32} (htracks : fragment.moof.tracks = [track])
    (h : (fragment.appendToTrack sample otherId).error = none) :
    track.trackId = otherId ∧ sample.data.length = sample.size.toNat ∧
      fragment.appendToTrack sample otherId = fragment.appendAt [] track [] sample := by
  obtain ⟨before, found, after, hsplit, _, hid, _, hsize, _, happend⟩ := appendToTrack_eq_none h
  rw [htracks] at hsplit
  cases before with
  | nil =>
    obtain ⟨rfl, rfl⟩ := List.cons.inj hsplit
    exact ⟨hid, hsize, happend⟩
  | cons first before => simp at hsplit

theorem appendAt_of_carries {fragment : Fragment} {before after : List TrackFragment}
    {track : TrackFragment} {sample : Sample} (hcount : track.sampleCount ≠ 0)
    (hcarries : track.lastRunCarries sample.entry.fields = true) :
    fragment.appendAt before track after sample =
      (fragment.withTracks (before ++ track.pushEntry sample.entry :: after)).withData
        fragment.payloadOffset sample.data := by
  unfold appendAt
  simp only [if_neg hcount, if_pos hcarries]

theorem appendAt_of_empty {fragment : Fragment} {before after : List TrackFragment}
    {track : TrackFragment} {sample : Sample} (hcount : track.sampleCount = 0) :
    fragment.appendAt before track after sample =
      match offsetWord? (fragment.payloadOffset + fragment.mdat.payload.length) with
      | none => ⟨fragment.withTracks (before ++ track.opened sample.decodeTime :: after),
          some .offsetOutOfRange⟩
      | some dataOffset =>
        (fragment.withTracks (before ++ (((track.opened sample.decodeTime).pushRun
          dataOffset).pushEntry sample.entry) :: after)).withData fragment.payloadOffset
            sample.data := by
  have hcarries : ¬ (track.opened sample.decodeTime).lastRunCarries sample.entry.fields = true :=
    Bool.false_ne_true
  have hbase :
      ¬ (!before.isEmpty && !(track.opened sample.decodeTime).header.baseIsMoof) = true := by
    simp [TrackFragment.opened]
  unfold appendAt
  cases hoffset : offsetWord? (fragment.payloadOffset + fragment.mdat.payload.length) with
  | none => simp only [if_pos hcount, if_neg hcarries, if_neg hbase, hoffset]
  | some dataOffset => simp only [if_pos hcount, if_neg hcarries, if_neg hbase, hoffset]

theorem holds_append_first {sample : Sample}
    (h : ((ofTracks sequenceNumber [trackId]).appendToTrack sample trackId).error = none) :
    Holds ((ofTracks sequenceNumber [trackId]).appendToTrack sample trackId).fragment
      sequenceNumber trackId sample [] := by
  obtain ⟨_, hsize, happend⟩ := appendToTrack_single rfl h
  rw [happend] at h ⊢
  rw [appendAt_of_empty rfl] at h ⊢
  have hempty : (ofTracks sequenceNumber [trackId]).mdat.payload.length = 0 := rfl
  rw [hempty] at h ⊢
  cases hword : offsetWord? ((ofTracks sequenceNumber [trackId]).payloadOffset + (0 : Nat)) with
  | none =>
    rw [hword] at h
    cases h
  | some dataOffset =>
    rw [hword] at h
    have hoffset := toInt_of_offsetWord? hword
    rw [Int.natCast_zero, Int.add_zero] at hoffset
    refine holds_withData ?_ hoffset (by simpa using hsize) h
    simp only [ofSamples, TrackFragment.ofSamples, List.flatMap_cons, List.flatMap_nil,
      List.append_nil]
    rfl

/-- A sample that is taken goes to the end, and only the track of the fragment takes it. -/
theorem Holds.append {fragment : Fragment} {sample : Sample} {otherId : UInt32}
    (hholds : Holds fragment sequenceNumber trackId first rest)
    (h : (fragment.appendToTrack sample otherId).error = none) :
    otherId = trackId ∧ Holds (fragment.appendToTrack sample otherId).fragment
      sequenceNumber trackId first (rest ++ [sample]) := by
  obtain ⟨⟨dataOffset, hoffset, rfl⟩, hsizes⟩ := hholds
  obtain ⟨hid, hsize, happend⟩ := appendToTrack_single rfl h
  refine ⟨hid.symm, ?_⟩
  have hcount : (TrackFragment.ofSamples trackId dataOffset first rest).sampleCount ≠ 0 := by
    simp [TrackFragment.ofSamples, TrackFragment.sampleCount, TrackRun.sampleCount]
  rw [happend, appendAt_of_carries hcount rfl] at h ⊢
  refine holds_withData ?_ hoffset ?_ h
  · simp [ofSamples, TrackFragment.ofSamples, ofBoxes, withTracks, TrackFragment.pushEntry]
  · intro other hmem
    rw [← List.cons_append, List.mem_append, List.mem_singleton] at hmem
    rcases hmem with hmem | rfl
    · exact hsizes other hmem
    · exact hsize

end Fragment

/-- The samples with decode times that count up without gaps from a start. -/
def Sample.retimed : UInt64 → List Sample → Except Failure (List Sample)
  | _, [] => .ok []
  | time, sample :: samples => do
    let next ← addUnsigned time.toNat sample.duration.toNat
    let rest ← retimed next samples
    return { sample with decodeTime := time } :: rest

namespace Playhead

variable {payload : Bytes}

theorem readSample_entry {before after : Bytes} {sample : Sample}
    (hpayload : payload = before ++ (sample.data ++ after))
    (hsize : sample.data.length = sample.size.toNat) (time : UInt64) :
    readSample payload payload.length .none none sample.entry ⟨before.length, time⟩ =
      (Sample.addUnsigned time.toNat sample.duration.toNat).map fun next =>
        ({ sample with decodeTime := time }, ⟨(before ++ sample.data).length, next⟩) := by
  have hroom : ¬ payload.length < before.length + sample.size.toNat := by
    rw [hpayload, List.length_append, List.length_append]
    omega
  have hdata : (payload.drop before.length).take sample.size.toNat = sample.data := by
    rw [hpayload, List.drop_left, List.take_left' hsize]
  unfold readSample
  simp only [Sample.entry, SampleDefaults.none, Option.orElse_eq_orElse, Option.orElse_eq_or,
    Option.none_or, Option.some_or, require, bind, Except.bind, if_neg hroom, hdata,
    Option.getD_some, List.length_append, hsize]
  cases Sample.addUnsigned time.toNat sample.duration.toNat <;> rfl

/-- Entries with all values give the samples that they were made from, at other times. -/
theorem readEntries_entries (before : Bytes) {after : Bytes} {samples : List Sample}
    (hpayload : payload = before ++ (samples.flatMap (·.data) ++ after))
    (hsizes : ∀ sample ∈ samples, sample.data.length = sample.size.toNat) (done : List Sample)
    (time : UInt64) :
    (readEntries payload payload.length .none none (samples.map Sample.entry)
        (done, ⟨before.length, time⟩)).map (fun state => state.1.reverse) =
      (Sample.retimed time samples).map fun read => done.reverse ++ read := by
  induction samples generalizing before done time with
  | nil => simp [readEntries, Sample.retimed, Except.map]
  | cons sample samples ih =>
    rw [List.flatMap_cons, List.append_assoc] at hpayload
    rw [List.map_cons, readEntries, readSample_entry hpayload (hsizes sample (by simp)),
      Sample.retimed]
    cases Sample.addUnsigned time.toNat sample.duration.toNat with
    | error failure => rfl
    | ok next =>
      have hrest := ih (before ++ sample.data) (by rw [hpayload, List.append_assoc])
        (fun other hmem => hsizes other (by simp [hmem]))
        ({ sample with decodeTime := time } :: done) next
      refine hrest.trans ?_
      cases hcase : Sample.retimed next samples with
      | error failure => simp [bind, Except.bind, Except.map, hcase]
      | ok read => simp [bind, Except.bind, Except.map, hcase, pure, Except.pure]

theorem readRuns_of_seek {payloadOffset available : Nat} {defaults : SampleDefaults}
    {run : TrackRun} {head moved : Playhead} {done : List Sample}
    (h : seek payloadOffset run head = .ok moved) :
    readRuns payloadOffset payload available defaults [run] (done, head) =
      readEntries payload available defaults run.firstSampleFlags run.samples (done, moved) := by
  rw [readRuns, h]
  simp only
  cases readEntries payload available defaults run.firstSampleFlags run.samples (done, moved) <;>
    rfl

theorem resolveEntries_entries (defaults : SampleDefaults) (samples : List Sample) :
    resolveEntries defaults none (samples.map Sample.entry) = samples.map Sample.entry := by
  cases samples with
  | nil => rfl
  | cons sample samples =>
    rw [List.map_cons, resolveEntries, List.map_map]
    rfl

end Playhead

namespace Fragment

variable {sequenceNumber trackId : UInt32} {first : Sample} {rest : List Sample}

/-- A run of samples that begins where their data does gives the samples, whatever the
defaults. -/
theorem readTrack_ofSamples {fragment : Fragment} {dataOffset : Int32} {before after : Bytes}
    (hoffset : dataOffset.toInt = (fragment.payloadOffset + before.length : Nat))
    (hpayload : fragment.mdat.payload = before ++ ((first :: rest).flatMap (·.data) ++ after))
    (hsizes : ∀ sample ∈ first :: rest, sample.data.length = sample.size.toNat) (isFirst : Bool)
    (trex : Option TrackExtends) :
    fragment.readTrack isFirst (.ofSamples trackId dataOffset first rest) trex =
      Sample.retimed first.decodeTime (first :: rest) := by
  have hseek : Playhead.seek fragment.payloadOffset
      ⟨some dataOffset, none, (first :: rest).map Sample.entry⟩ ⟨0, first.decodeTime⟩ =
      .ok ⟨before.length, first.decodeTime⟩ := by
    unfold Playhead.seek
    simp [hoffset]
  have hentries := Playhead.readEntries_entries before hpayload hsizes [] first.decodeTime
  rw [← Playhead.resolveEntries_entries ((TrackFragment.ofSamples trackId dataOffset first
    rest).sampleDefaults trex), Playhead.readEntries_resolve] at hentries
  rw [readTrack_of_readable _ _ rfl (.inr rfl)]
  have hruns : Playhead.readRuns fragment.payloadOffset fragment.mdat.payload
      fragment.mdat.payload.length
      ((TrackFragment.ofSamples trackId dataOffset first rest).sampleDefaults trex)
      [⟨some dataOffset, none, (first :: rest).map Sample.entry⟩] ([], ⟨0, first.decodeTime⟩) = _ :=
    Playhead.readRuns_of_seek hseek
  refine (congrArg (Except.map fun state => state.1.reverse) hruns).trans (hentries.trans ?_)
  cases Sample.retimed first.decodeTime (first :: rest) <;> rfl

/-- A fragment that was built gives the samples that it holds, whatever the defaults. -/
theorem Holds.samples_eq {fragment : Fragment}
    (h : Holds fragment sequenceNumber trackId first rest) (trex : Option TrackExtends) :
    fragment.samples trex = Sample.retimed first.decodeTime (first :: rest) := by
  obtain ⟨⟨dataOffset, hoffset, hshape⟩, hsizes⟩ := h
  have htrack : fragment.samples trex = fragment.readTrack true
      (.ofSamples trackId dataOffset first rest) trex := by
    rw [hshape]
    rfl
  have hpayload : fragment.mdat.payload = [] ++ ((first :: rest).flatMap (·.data) ++ []) := by
    rw [hshape, List.append_nil]
    rfl
  rw [htrack]
  exact readTrack_ofSamples hoffset hpayload hsizes true trex

end Fragment
end FragmentedMp4
