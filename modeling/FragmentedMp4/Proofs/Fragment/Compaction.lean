import FragmentedMp4.Proofs.Fragment.Meaning
import FragmentedMp4.Proofs.Segment.Traversal

/-!
# Compact runs mean the same

Each change that makes a run compact moves a value to a place where all samples find it
again: the resolved entries stay what they were. The movie fragment becomes smaller by that,
and its data offsets are moved as far as the payload behind it. So a fragment that is written
in compact form and read back has the samples that it had before.
-/
namespace FragmentedMp4

theorem shared?_eq_some {α : Type} [DecidableEq α] {items : List (Option α)} {value : α}
    (h : shared? items = some value) : ∀ item ∈ items, item = some value := by
  unfold shared? at h
  split at h
  · rename_i first rest
    split_ifs at h with hall
    cases h
    intro item hmem
    rcases List.mem_cons.1 hmem with rfl | hmem
    · rfl
    · exact eq_of_beq (List.all_eq_true.1 hall item hmem)
  · cases h

/-- Changed entries resolve to the same if each of them does; the first one apart. -/
theorem resolveEntries_map {change : RunSample → RunSample} {before after : SampleDefaults}
    {oldFlags newFlags : Option UInt32} {entries : List RunSample}
    (hfirst : ∀ entry ∈ entries.head?,
      (change entry).resolve after newFlags = entry.resolve before oldFlags)
    (hrest : ∀ entry ∈ entries.tail,
      (change entry).resolve after none = entry.resolve before none) :
    resolveEntries after newFlags (entries.map change) =
      resolveEntries before oldFlags entries := by
  cases entries with
  | nil => rfl
  | cons entry entries =>
    rw [List.map_cons, resolveEntries, resolveEntries, hfirst entry rfl, List.map_map]
    congr 1
    exact List.map_congr_left hrest

/-- The values that samples behind a header fall back on. -/
def TrackFragmentHeader.defaults (header : TrackFragmentHeader) (trex : Option TrackExtends) :
    SampleDefaults :=
  TrackFragment.sampleDefaults ⟨header, [], none⟩ trex

namespace SingleRun

def resolved (pair : SingleRun) (trex : Option TrackExtends) : List RunSample :=
  resolveEntries (pair.header.defaults trex) pair.run.firstSampleFlags pair.run.samples

/-- Everything that reading samples depends on is the same. -/
structure SameMeaning (pair changed : SingleRun) : Prop where
  trackId : changed.header.trackId = pair.header.trackId
  baseDataOffset : changed.header.baseDataOffset = pair.header.baseDataOffset
  baseIsMoof : changed.header.baseIsMoof = pair.header.baseIsMoof
  dataOffset : changed.run.dataOffset = pair.run.dataOffset
  count : changed.run.samples.length = pair.run.samples.length
  resolved : ∀ trex, changed.resolved trex = pair.resolved trex

theorem SameMeaning.refl (pair : SingleRun) : SameMeaning pair pair :=
  ⟨rfl, rfl, rfl, rfl, rfl, fun _ => rfl⟩

theorem SameMeaning.trans {first second third : SingleRun} (h : SameMeaning first second)
    (h' : SameMeaning second third) : SameMeaning first third :=
  ⟨h'.trackId.trans h.trackId, h'.baseDataOffset.trans h.baseDataOffset,
    h'.baseIsMoof.trans h.baseIsMoof, h'.dataOffset.trans h.dataOffset, h'.count.trans h.count,
    fun trex => (h'.resolved trex).trans (h.resolved trex)⟩

variable (pair : SingleRun)

theorem resolved_mapSamples (header : TrackFragmentHeader) {change : RunSample → RunSample}
    {trex : Option TrackExtends}
    (h : ∀ entry ∈ pair.run.samples, ∀ firstFlags,
      (change entry).resolve (header.defaults trex) firstFlags =
        entry.resolve (pair.header.defaults trex) firstFlags) :
    ({ pair.mapSamples change with header } : SingleRun).resolved trex = pair.resolved trex := by
  apply resolveEntries_map
  · intro entry hmem
    exact h entry (List.mem_of_mem_head? hmem) _
  · intro entry hmem
    exact h entry (List.mem_of_mem_tail hmem) none

theorem sameMeaning_moveDuration : SameMeaning pair pair.moveDuration := by
  unfold moveDuration
  split
  · exact .refl pair
  · rename_i duration hshared
    refine ⟨rfl, rfl, rfl, rfl, List.length_map _, fun trex => ?_⟩
    apply resolved_mapSamples
    intro entry hmem firstFlags
    have hentry : entry.duration = some duration :=
      shared?_eq_some hshared _ (List.mem_map_of_mem hmem)
    simp only [RunSample.resolve, RunSample.withoutDuration, hentry]
    rfl

theorem sameMeaning_moveSize : SameMeaning pair pair.moveSize := by
  unfold moveSize
  split
  · exact .refl pair
  · rename_i size hshared
    refine ⟨rfl, rfl, rfl, rfl, List.length_map _, fun trex => ?_⟩
    apply resolved_mapSamples
    intro entry hmem firstFlags
    have hentry : entry.size = some size :=
      shared?_eq_some hshared _ (List.mem_map_of_mem hmem)
    simp only [RunSample.resolve, RunSample.withoutSize, hentry]
    rfl

theorem sameMeaning_dropCompositionOffsets :
    SameMeaning pair pair.dropCompositionOffsets := by
  unfold dropCompositionOffsets
  split_ifs with hall
  · refine ⟨rfl, rfl, rfl, rfl, List.length_map _, fun trex => ?_⟩
    apply resolved_mapSamples pair pair.header
    intro entry hmem firstFlags
    have hentry : entry.compositionOffset = some 0 :=
      eq_of_beq (List.all_eq_true.1 hall entry hmem)
    simp only [RunSample.resolve, RunSample.withoutCompositionOffset, hentry]
    rfl
  · exact .refl pair

/-- Flags may move if those of the first sample and those of all others are kept. -/
theorem sameMeaning_setFlags {first : Option UInt32} {flags : UInt32}
    (hnone : pair.run.firstSampleFlags = none)
    (hfirst : ∀ entry ∈ pair.run.samples.head?, entry.flags = some (first.getD flags))
    (hrest : ∀ entry ∈ pair.run.samples.tail, entry.flags = some flags) :
    SameMeaning pair (pair.setFlags first flags) := by
  refine ⟨rfl, rfl, rfl, rfl, List.length_map _, fun trex => ?_⟩
  apply resolveEntries_map
  · intro entry hmem
    rw [hnone]
    simp only [RunSample.resolve, RunSample.withoutFlags, hfirst entry hmem]
    cases first <;> rfl
  · intro entry hmem
    simp only [RunSample.resolve, RunSample.withoutFlags, hrest entry hmem]
    rfl

theorem sameMeaning_moveFlags : SameMeaning pair pair.moveFlags := by
  unfold moveFlags
  split_ifs with hsome
  · exact .refl pair
  · have hnone : pair.run.firstSampleFlags = none := by simpa using hsome
    simp only
    split
    · rename_i flags hshared
      have hall : ∀ entry ∈ pair.run.samples, entry.flags = some flags := fun entry hmem =>
        shared?_eq_some hshared _ (List.mem_map_of_mem hmem)
      apply sameMeaning_setFlags _ hnone
      · exact fun entry hmem => hall entry (List.mem_of_mem_head? hmem)
      · exact fun entry hmem => hall entry (List.mem_of_mem_tail hmem)
    · split
      · rename_i first rest hflags
        split
        · rename_i flags hshared
          obtain ⟨entry, entries, hsamples, hhead, htail⟩ := List.map_eq_cons_iff.1 hflags
          apply sameMeaning_setFlags _ hnone
          · intro other hmem
            rw [hsamples] at hmem
            cases hmem
            exact hhead
          · intro other hmem
            rw [hsamples] at hmem
            subst htail
            exact shared?_eq_some hshared _ (List.mem_map_of_mem hmem)
        · exact .refl pair
      · exact .refl pair

/-- Making a run compact keeps everything that reading its samples depends on. -/
theorem sameMeaning_compacted : SameMeaning pair pair.compacted :=
  (((pair.sameMeaning_moveDuration).trans (sameMeaning_moveSize _)).trans
    (sameMeaning_moveFlags _)).trans (sameMeaning_dropCompositionOffsets _)

end SingleRun

/-- A run by itself is read by where it begins and what its entries resolve to. -/
theorem Playhead.readRuns_single {payload : Bytes} {payloadOffset available : Nat}
    {before after : SampleDefaults} {run changed : TrackRun}
    (hoffset : changed.dataOffset = run.dataOffset)
    (hentries : resolveEntries after changed.firstSampleFlags changed.samples =
      resolveEntries before run.firstSampleFlags run.samples)
    (state : List Sample × Playhead) :
    readRuns payloadOffset payload available after [changed] state =
      readRuns payloadOffset payload available before [run] state := by
  obtain ⟨done, head⟩ := state
  have hseek : seek payloadOffset changed head = seek payloadOffset run head := by
    unfold seek
    rw [hoffset]
  rw [readRuns, readRuns, hseek]
  cases seek payloadOffset run head with
  | error failure => rfl
  | ok head =>
    simp only
    rw [← readEntries_resolve after, hentries, readEntries_resolve]
    rfl

namespace TrackFragment

theorem compacted_cases (track : TrackFragment) :
    track.compacted = track ∨
      ∃ run, track.runs = [run] ∧ run.samples ≠ [] ∧ track.compacted = { track with
        header := (SingleRun.compacted ⟨track.header, run⟩).header
        runs := [(SingleRun.compacted ⟨track.header, run⟩).run] } := by
  unfold compacted
  split
  · rename_i run hruns
    split_ifs with hempty
    · exact .inl rfl
    · exact .inr ⟨run, hruns, by simpa using hempty, rfl⟩
  · exact .inl rfl

theorem trackId_compacted (track : TrackFragment) : track.compacted.trackId = track.trackId := by
  rcases track.compacted_cases with h | ⟨run, -, -, h⟩
  · rw [h]
  · rw [h]
    exact (SingleRun.sameMeaning_compacted ⟨track.header, run⟩).trackId

theorem length_compacted {track : TrackFragment} {limit : Nat}
    (h : ∀ run ∈ track.runs, run.samples.length ≤ limit) :
    ∀ run ∈ track.compacted.runs, run.samples.length ≤ limit := by
  rcases track.compacted_cases with hsame | ⟨run, hruns, -, hcompacted⟩
  · rwa [hsame]
  · intro other hmem
    rw [hcompacted] at hmem
    rw [List.mem_singleton.1 hmem, (SingleRun.sameMeaning_compacted ⟨track.header, run⟩).count]
    exact h run (by simp [hruns])

end TrackFragment

namespace Fragment

theorem readTrack_compacted (fragment : Fragment) (isFirst : Bool) (track : TrackFragment)
    (trex : Option TrackExtends) :
    fragment.readTrack isFirst track.compacted trex = fragment.readTrack isFirst track trex := by
  rcases track.compacted_cases with hsame | ⟨run, hruns, -, hcompacted⟩
  · rw [hsame]
  · have hmeaning := SingleRun.sameMeaning_compacted ⟨track.header, run⟩
    unfold readTrack
    rw [hcompacted, hruns]
    simp only [hmeaning.baseDataOffset, hmeaning.baseIsMoof]
    split_ifs
    · rfl
    · rfl
    · exact congrArg (fun result => result >>= fun state => pure state.1.reverse)
        (Playhead.readRuns_single hmeaning.dataOffset (hmeaning.resolved trex) _)

/-- What a track fragment that is written in compact form is read back as. -/
def compactTrack (delta : Int) (isFirst : Bool) (track : TrackFragment) : TrackFragment :=
  (track.compacted.shift delta isFirst).1.asWritten

theorem changeAll_map (delta : Int) (tracks : List TrackFragment) :
    (TrackFragment.changeAll (fun isFirst track => (track.shift delta isFirst).1)
        (tracks.map TrackFragment.compacted)).map TrackFragment.asWritten =
      TrackFragment.changeAll (compactTrack delta) tracks := by
  cases tracks with
  | nil => rfl
  | cons track tracks =>
    simp only [List.map_cons, TrackFragment.changeAll, List.map_map]
    rfl

/-- A compact track fragment whose offsets moved with the payload is read as before. -/
theorem readsLike_compactTrack {fragment other : Fragment} {delta : Int} {isFirst : Bool}
    {track : TrackFragment} (hpayload : other.mdat.payload = fragment.mdat.payload)
    (hoffset : (other.payloadOffset : Int) = fragment.payloadOffset + delta)
    (hdone : (track.compacted.shift delta isFirst).2 = true) :
    ReadsLike fragment other isFirst track (compactTrack delta isFirst track) := by
  constructor
  · have hshift : (track.compacted.shift delta isFirst).1.trackId = track.compacted.trackId := by
      unfold TrackFragment.shift
      split_ifs <;> rfl
    exact hshift.trans track.trackId_compacted
  · intro trex
    rw [compactTrack, readTrack_asWritten, readTrack_shift hpayload hoffset hdone,
      readTrack_compacted]

theorem countable_of_shifted {delta : Int} {moof moved : MovieFragment}
    (hcount : ∀ track ∈ moof.tracks, ∀ run ∈ track.runs,
      run.samples.length ≤ TrackRun.maxFieldlessSamples)
    (h : moof.shifted delta = .ok moved) : moved.Countable := by
  obtain ⟨hmoved, _⟩ := MovieFragment.shifted_eq_ok h
  intro track hmem run hrun _
  rw [hmoved] at hmem
  obtain ⟨isFirst, source, hsource, rfl⟩ : ∃ isFirst, ∃ source ∈ moof.tracks,
      track = (source.shift delta isFirst).1 := TrackFragment.mem_changeAll hmem
  have hsamples : run.samples ∈ (source.shift delta isFirst).1.runs.map (·.samples) :=
    List.mem_map_of_mem hrun
  rw [TrackFragment.samples_shift] at hsamples
  obtain ⟨other, hother, heq⟩ := List.mem_map.1 hsamples
  rw [← heq]
  exact hcount source hsource other hother

/-- A fragment that could be written in compact form is read back, with nothing left over, as
a fragment that gives the same samples: for every track, and with or without defaults of the
track, either none of the two gives samples or both give the same. -/
theorem decode_of_compact {fragment : Fragment} {stream : BoundedStream}
    (hlayout : fragment.layout = .compact)
    (hcount : ∀ track ∈ fragment.moof.tracks, ∀ run ∈ track.runs,
      run.samples.length ≤ TrackRun.maxFieldlessSamples)
    (hwritten : fragment.writeStream (.empty none) = .ok () stream) :
    ∃ decoded, decode stream.bytes = .ok (decoded, stream.bytes.length) ∧
      ∀ trackId trex samples, decoded.trackSamples trackId trex = .ok samples ↔
        fragment.trackSamples trackId trex = .ok samples := by
  obtain ⟨moved, hmoved, hmoof, hmdat, hbytes⟩ := of_writeStream hwritten
  unfold writtenMoof at hmoved
  rw [hlayout] at hmoved
  simp only [MovieFragment.inLayout] at hmoved
  have hcompact : ∀ track ∈ fragment.moof.compacted.tracks, ∀ run ∈ track.runs,
      run.samples.length ≤ TrackRun.maxFieldlessSamples := by
    intro track hmem
    obtain ⟨source, hsource, rfl⟩ := List.mem_map.1 hmem
    exact TrackFragment.length_compacted (hcount source hsource)
  have hdecode := decode_boxes hmoof hmdat (countable_of_shifted hcompact hmoved) []
  have hlength : stream.bytes.length = Box.size moved + Box.size fragment.mdat := by
    rw [hbytes, List.length_append, Box.length_emission hmoof, Box.length_emission hmdat]
  rw [List.append_nil, ← hbytes, ← hlength] at hdecode
  refine ⟨_, hdecode, ?_⟩
  obtain ⟨htracks, hfirst, hrest⟩ := MovieFragment.shifted_eq_ok hmoved
  have hoffset : ((ofBoxes moved.asWritten fragment.mdat).payloadOffset : Int) =
      fragment.payloadOffset + (Box.size fragment.moof.compacted - Box.size fragment.moof) := by
    have hsize : Box.size moved.asWritten = Box.size fragment.moof.compacted :=
      moved.size_asWritten.trans (MovieFragment.size_of_shifted hmoved)
    simp only [payloadOffset, ofBoxes, hsize]
    omega
  intro trackId trex samples
  apply eq_ok_iff_of_toOption
  apply toOption_trackSamples
    (compactTrack (Box.size fragment.moof.compacted - Box.size fragment.moof))
  · rw [htracks]
    exact changeAll_map _ fragment.moof.tracks
  · intro track hmem
    exact readsLike_compactTrack rfl hoffset (hfirst _ (by
      simp only [MovieFragment.compacted, List.head?_map]
      exact Option.mem_map_of_mem _ hmem))
  · intro track hmem
    exact readsLike_compactTrack rfl hoffset (hrest _ (by
      simp only [MovieFragment.compacted, ← List.map_tail]
      exact List.mem_map_of_mem hmem))

/-- Two samples that share all values but their sizes and flags. -/
theorem decode_of_compact_shared :
    let run : TrackRun :=
      ⟨some 128, none, [⟨some 10, some 1, some 0, some 0⟩, ⟨some 10, some 2, some 1, some 0⟩]⟩
    let fragment : Fragment :=
      ⟨⟨⟨1⟩, [⟨.ofTrack 7, [run], some ⟨1, 90⟩⟩]⟩, ⟨[1, 2, 3]⟩, .compact⟩
    fragment.layout = .compact ∧
      (∀ track ∈ fragment.moof.tracks, ∀ run ∈ track.runs,
        run.samples.length ≤ TrackRun.maxFieldlessSamples) ∧
      ∃ stream, fragment.writeStream (.empty none) = .ok () stream ∧
        ∃ decoded, decode stream.bytes = .ok (decoded, stream.bytes.length) ∧
          ∀ trackId trex samples, decoded.trackSamples trackId trex = .ok samples ↔
            fragment.trackSamples trackId trex = .ok samples := by
  intro run fragment
  have hlayout : fragment.layout = .compact := rfl
  have hcount : ∀ track ∈ fragment.moof.tracks, ∀ run ∈ track.runs,
      run.samples.length ≤ TrackRun.maxFieldlessSamples := by
    decide
  have hnone : WriteStep.firstFailure? fragment.writeSteps = none := by decide +kernel
  have hwritten := fragment.writeStream_eq []
  rw [hnone] at hwritten
  exact ⟨hlayout, hcount, _, hwritten, decode_of_compact hlayout hcount hwritten⟩

end Fragment
end FragmentedMp4
