import FragmentedMp4.Proofs.Fragment.RoundTrip
import FragmentedMp4.Proofs.Results
import FragmentedMp4.Fragment.Samples
import Mathlib.Data.List.Find

/-!
# What the samples of a track fragment depend on

Reading samples depends on the resolved entries of the runs, in which every value is the
one that the sample ends up with, and on where the runs begin in the payload. So two track
fragments can be told to mean the same without going through the reader again: entries may
be stored in another way, and data offsets may move together with the payload.
-/
namespace FragmentedMp4

def SampleDefaults.none : SampleDefaults :=
  ⟨Option.none, Option.none, Option.none⟩

namespace RunSample

/-- The entry with all the values that its sample ends up with. -/
def resolve (defaults : SampleDefaults) (firstFlags : Option UInt32) (entry : RunSample) :
    RunSample where
  duration := entry.duration <|> defaults.duration
  size := entry.size <|> defaults.size
  flags := firstFlags <|> entry.flags <|> defaults.flags
  compositionOffset := some (entry.compositionOffset.getD 0)

end RunSample

/-- The resolved entries of a run; only the first one can have flags from the run. -/
def resolveEntries (defaults : SampleDefaults) (firstFlags : Option UInt32) :
    List RunSample → List RunSample
  | [] => []
  | entry :: entries =>
    entry.resolve defaults firstFlags :: entries.map (RunSample.resolve defaults none)

namespace Playhead

variable {payload : Bytes} {available : Nat}

theorem readSample_resolve (defaults : SampleDefaults) (firstFlags : Option UInt32)
    (entry : RunSample) (head : Playhead) :
    readSample payload available .none none (entry.resolve defaults firstFlags) head =
      readSample payload available defaults firstFlags entry head := by
  unfold readSample RunSample.resolve SampleDefaults.none
  simp only [Option.orElse_eq_orElse, Option.orElse_eq_or, Option.or_none, Option.none_or,
    Option.getD_some]

theorem readEntries_resolve (defaults : SampleDefaults) (firstFlags : Option UInt32)
    (entries : List RunSample) (state : List Sample × Playhead) :
    readEntries payload available .none none (resolveEntries defaults firstFlags entries) state =
      readEntries payload available defaults firstFlags entries state := by
  induction entries generalizing firstFlags state with
  | nil => rfl
  | cons entry entries ih =>
    obtain ⟨done, head⟩ := state
    have hrest : resolveEntries defaults none entries =
        entries.map (RunSample.resolve defaults none) := by
      cases entries <;> rfl
    rw [resolveEntries, readEntries, readEntries, readSample_resolve, ← hrest]
    cases readSample payload available defaults firstFlags entry head with
    | error failure => rfl
    | ok pair => exact ih none (pair.1 :: done, pair.2)

end Playhead

theorem TrackRun.shift_keeps (delta : Int) (run : TrackRun) :
    (run.shift delta).1.firstSampleFlags = run.firstSampleFlags ∧
      (run.shift delta).1.samples = run.samples := by
  unfold shift
  cases run.dataOffset with
  | none => exact ⟨rfl, rfl⟩
  | some offset =>
    simp only
    split <;> exact ⟨rfl, rfl⟩

namespace Playhead

variable {payload : Bytes} {available : Nat} {delta : Int} {before after : Nat}

theorem seek_shift {run : TrackRun} (hdone : (run.shift delta).2 = true)
    (hoffset : (after : Int) = before + delta) (head : Playhead) :
    (seek after (run.shift delta).1 head).toOption = (seek before run head).toOption := by
  unfold TrackRun.shift at hdone ⊢
  cases hcase : run.dataOffset with
  | none => simp only [seek, hcase]
  | some offset =>
    rw [hcase] at hdone
    simp only at hdone ⊢
    cases hword : offsetWord? (offset.toInt + delta) with
    | none =>
      rw [hword] at hdone
      cases hdone
    | some moved =>
      have hmoved := toInt_of_offsetWord? hword
      unfold seek
      simp only [hcase, hmoved]
      split_ifs with h1 h2 h2
      · rfl
      · omega
      · omega
      · rw [show offset.toInt + delta - after = offset.toInt - before by omega]

theorem toOption_readRuns_cons (payloadOffset : Nat) (defaults : SampleDefaults) (run : TrackRun)
    (runs : List TrackRun) (done : List Sample) (head : Playhead) :
    (readRuns payloadOffset payload available defaults (run :: runs) (done, head)).toOption =
      (seek payloadOffset run head).toOption.bind fun head =>
        (readEntries payload available defaults run.firstSampleFlags run.samples
          (done, head)).toOption.bind fun state =>
            (readRuns payloadOffset payload available defaults runs state).toOption := by
  rw [readRuns]
  cases seek payloadOffset run head with
  | error failure => rfl
  | ok head =>
    change _ = (readEntries payload available defaults run.firstSampleFlags run.samples
      (done, head)).toOption.bind _
    simp only
    cases readEntries payload available defaults run.firstSampleFlags run.samples (done, head) <;>
      rfl

/-- Data offsets may move as far as the payload that they point into. -/
theorem readRuns_shift {runs : List TrackRun} (hdone : ∀ run ∈ runs, (run.shift delta).2 = true)
    (hoffset : (after : Int) = before + delta) (defaults : SampleDefaults)
    (state : List Sample × Playhead) :
    (readRuns after payload available defaults (runs.map fun run => (run.shift delta).1)
        state).toOption =
      (readRuns before payload available defaults runs state).toOption := by
  induction runs generalizing state with
  | nil => rfl
  | cons run runs ih =>
    obtain ⟨done, head⟩ := state
    obtain ⟨hfirst, hsamples⟩ := run.shift_keeps delta
    have hrest := ih fun other hmem => hdone other (by simp [hmem])
    rw [List.map_cons, toOption_readRuns_cons, toOption_readRuns_cons, hfirst, hsamples,
      seek_shift (hdone run (by simp)) hoffset]
    simp only [hrest]

end Playhead

namespace TrackFragment

theorem shift_zero (isFirst : Bool) (track : TrackFragment) :
    track.shift 0 isFirst = (track, true) := by
  have hrun : ∀ run : TrackRun, run.shift 0 = (run, true) := by
    intro run
    obtain ⟨dataOffset, firstFlags, samples⟩ := run
    cases dataOffset with
    | none => rfl
    | some offset => simp only [TrackRun.shift, Int.add_zero, offsetWord?_toInt]
  unfold shift
  split_ifs
  · rw [changeInOrder_of_all (fun run _ => by rw [hrun])]
    simp only [hrun, List.map_id']
  · rfl

/-- A change of every track fragment, which may treat the first one differently. -/
def changeAll (change : Bool → TrackFragment → TrackFragment) :
    List TrackFragment → List TrackFragment
  | [] => []
  | track :: tracks => change true track :: tracks.map (change false)

theorem mem_changeAll {change : Bool → TrackFragment → TrackFragment}
    {tracks : List TrackFragment} {track : TrackFragment} (h : track ∈ changeAll change tracks) :
    ∃ isFirst, ∃ source ∈ tracks, track = change isFirst source := by
  cases tracks with
  | nil => cases h
  | cons first rest =>
    rcases List.mem_cons.1 h with rfl | hmem
    · exact ⟨true, first, by simp, rfl⟩
    · obtain ⟨source, hsource, rfl⟩ := List.mem_map.1 hmem
      exact ⟨false, source, by simp [hsource], rfl⟩

theorem header_shift (delta : Int) (isFirst : Bool) (track : TrackFragment) :
    (track.shift delta isFirst).1.header = track.header := by
  unfold shift
  split_ifs <;> rfl

theorem trackId_shift (delta : Int) (isFirst : Bool) (track : TrackFragment) :
    (track.shift delta isFirst).1.trackId = track.trackId :=
  congrArg TrackFragmentHeader.trackId (header_shift delta isFirst track)

theorem samples_shift (delta : Int) (isFirst : Bool) (track : TrackFragment) :
    (track.shift delta isFirst).1.runs.map (·.samples) = track.runs.map (·.samples) := by
  unfold shift
  split_ifs
  · exact map_changeInOrder (fun run => (run.shift_keeps delta).2) track.runs
  · rfl

theorem shiftAll_eq_true {delta : Int} {tracks : List TrackFragment}
    (h : (shiftAll delta tracks).2 = true) :
    (shiftAll delta tracks).1 =
        changeAll (fun isFirst track => (track.shift delta isFirst).1) tracks ∧
      (∀ track ∈ tracks.head?, (track.shift delta true).2 = true) ∧
      ∀ track ∈ tracks.tail, (track.shift delta false).2 = true := by
  cases tracks with
  | nil => simp [shiftAll, changeAll]
  | cons track tracks =>
    cases hmoved : track.shift delta true with
    | mk moved done =>
      cases done with
      | false => simp [shiftAll, hmoved] at h
      | true =>
        simp only [shiftAll, hmoved] at h ⊢
        have hrest := changeInOrder_eq_true h
        refine ⟨?_, ?_, hrest⟩
        · rw [changeInOrder_of_all hrest, changeAll, hmoved]
        · intro other hmem
          cases hmem
          rw [hmoved]

end TrackFragment

theorem MovieFragment.shifted_eq_ok {delta : Int} {moof moved : MovieFragment}
    (h : moof.shifted delta = .ok moved) :
    moved = { moof with
        tracks := TrackFragment.changeAll (fun isFirst track => (track.shift delta isFirst).1)
          moof.tracks } ∧
      (∀ track ∈ moof.tracks.head?, (track.shift delta true).2 = true) ∧
      ∀ track ∈ moof.tracks.tail, (track.shift delta false).2 = true := by
  obtain ⟨header, tracks⟩ := moof
  unfold shifted shift at h
  split_ifs at h with hzero
  · cases h
    subst hzero
    simp only [TrackFragment.shift_zero]
    refine ⟨?_, fun _ _ => trivial, fun _ _ => trivial⟩
    cases tracks <;> simp [TrackFragment.changeAll]
  · cases hall : TrackFragment.shiftAll delta tracks with
    | mk changed done =>
      cases done with
      | false => simp [hall] at h
      | true =>
        have hdone : (TrackFragment.shiftAll delta tracks).2 = true := by rw [hall]
        obtain ⟨hchanged, hfirst, hrest⟩ := TrackFragment.shiftAll_eq_true hdone
        rw [hall] at hchanged
        simp only [hall] at h
        cases h
        exact ⟨by rw [← hchanged], hfirst, hrest⟩

namespace Fragment

theorem readTrack_asWritten (fragment : Fragment) (isFirst : Bool) (track : TrackFragment)
    (trex : Option TrackExtends) :
    fragment.readTrack isFirst track.asWritten trex = fragment.readTrack isFirst track trex := by
  have htime : (track.asWritten.decodeTime.map (·.time)).getD 0 =
      (track.decodeTime.map (·.time)).getD 0 := by
    unfold TrackFragment.asWritten
    cases track.decodeTime <;> rfl
  unfold readTrack
  rw [htime]
  rfl

theorem readTrack_of_readable (fragment : Fragment) {isFirst : Bool} (track : TrackFragment)
    (hbase : track.header.baseDataOffset = none)
    (hplace : isFirst = true ∨ track.header.baseIsMoof = true) (trex : Option TrackExtends) :
    fragment.readTrack isFirst track trex =
      (Playhead.readRuns fragment.payloadOffset fragment.mdat.payload
        fragment.mdat.payload.length (track.sampleDefaults trex) track.runs
        ([], ⟨0, (track.decodeTime.map (·.time)).getD 0⟩)).map fun state => state.1.reverse := by
  have hguard : (!isFirst && !track.header.baseIsMoof) = false := by
    rcases hplace with rfl | hplace
    · rfl
    · rw [hplace, Bool.not_true, Bool.and_false]
  unfold readTrack
  rw [hbase, hguard, if_neg (by simp), if_neg Bool.false_ne_true]
  rfl

theorem readTrack_of_unreadable (fragment : Fragment) {isFirst : Bool} {track : TrackFragment}
    (h : track.header.baseDataOffset ≠ none ∨
      (isFirst = false ∧ track.header.baseIsMoof = false)) (trex : Option TrackExtends) :
    (fragment.readTrack isFirst track trex).toOption = none := by
  unfold readTrack
  split_ifs with hbase hplace
  · rfl
  · rfl
  · rcases h with h | ⟨hfirst, hmoof⟩
    · exact absurd (Option.isSome_iff_ne_none.2 h) hbase
    · rw [hfirst, hmoof] at hplace
      exact absurd rfl hplace

/-- A track fragment that is read at all has its offsets moved, so that its runs are read as if
neither they nor the payload had moved. -/
theorem readTrack_of_shift (fragment : Fragment) {before : Nat} {delta : Int} {isFirst : Bool}
    {track : TrackFragment} (hbase : track.header.baseDataOffset = none)
    (hplace : isFirst = true ∨ track.header.baseIsMoof = true)
    (hoffset : (fragment.payloadOffset : Int) = before + delta)
    (hdone : (track.shift delta isFirst).2 = true) (trex : Option TrackExtends) :
    (fragment.readTrack isFirst (track.shift delta isFirst).1 trex).toOption =
      ((Playhead.readRuns before fragment.mdat.payload fragment.mdat.payload.length
        (track.sampleDefaults trex) track.runs
        ([], ⟨0, (track.decodeTime.map (·.time)).getD 0⟩)).map fun state =>
          state.1.reverse).toOption := by
  have hrelative : track.isRelativeToMoof isFirst = true := by
    unfold TrackFragment.isRelativeToMoof
    rcases hplace with h | h <;> simp [h]
  unfold TrackFragment.shift at hdone ⊢
  rw [if_pos hrelative] at hdone ⊢
  have hruns := changeInOrder_eq_true hdone
  simp only [changeInOrder_of_all hruns]
  have hmoved := fragment.readTrack_of_readable
    { track with runs := track.runs.map fun run => (run.shift delta).1 } hbase hplace trex
  rw [hmoved, toOption_map, toOption_map]
  congr 1
  exact Playhead.readRuns_shift hruns hoffset _ _

theorem readTrack_shift_of_unreadable (fragment : Fragment) {delta : Int} {isFirst : Bool}
    {track : TrackFragment}
    (h : track.header.baseDataOffset ≠ none ∨
      (isFirst = false ∧ track.header.baseIsMoof = false)) (trex : Option TrackExtends) :
    (fragment.readTrack isFirst (track.shift delta isFirst).1 trex).toOption = none := by
  exact fragment.readTrack_of_unreadable (by rwa [track.header_shift]) trex

theorem readable_or_unreadable (isFirst : Bool) (track : TrackFragment) :
    (track.header.baseDataOffset = none ∧
        (isFirst = true ∨ track.header.baseIsMoof = true)) ∨
      track.header.baseDataOffset ≠ none ∨
        (isFirst = false ∧ track.header.baseIsMoof = false) := by
  rw [← Bool.not_eq_true isFirst, ← Bool.not_eq_true track.header.baseIsMoof, ← not_or,
    ne_eq, ← not_and_or]
  exact em _

/-- A track fragment with moved offsets is read alike when the payload has moved as far. -/
theorem readTrack_shift {fragment other : Fragment} {delta : Int} {isFirst : Bool}
    {track : TrackFragment}
    (hpayload : other.mdat.payload = fragment.mdat.payload)
    (hoffset : (other.payloadOffset : Int) = fragment.payloadOffset + delta)
    (hdone : (track.shift delta isFirst).2 = true) (trex : Option TrackExtends) :
    (other.readTrack isFirst (track.shift delta isFirst).1 trex).toOption =
      (fragment.readTrack isFirst track trex).toOption := by
  rcases readable_or_unreadable isFirst track with ⟨hbase, hplace⟩ | hguards
  · rw [other.readTrack_of_shift hbase hplace hoffset hdone, hpayload,
      fragment.readTrack_of_readable track hbase hplace trex]
  · rw [other.readTrack_shift_of_unreadable hguards, fragment.readTrack_of_unreadable hguards]

/-- A track fragment of one fragment and the one that takes its place in another, which are
read alike. -/
structure ReadsLike (fragment other : Fragment) (isFirst : Bool) (track changed : TrackFragment) :
    Prop where
  trackId : changed.trackId = track.trackId
  samples : ∀ trex, (other.readTrack isFirst changed trex).toOption =
    (fragment.readTrack isFirst track trex).toOption

theorem trackSamples_cons {fragment : Fragment} {track : TrackFragment}
    {tracks : List TrackFragment} (h : fragment.moof.tracks = track :: tracks) (trackId : UInt32)
    (trex : Option TrackExtends) :
    fragment.trackSamples trackId trex =
      if track.trackId = trackId then fragment.readTrack true track trex
      else match tracks.find? (·.trackId == trackId) with
        | some found => fragment.readTrack false found trex
        | none => .error (.error (.trackNotFound trackId)) := by
  unfold trackSamples findTrack MovieFragment.track? trackId? MovieFragment.firstTrack?
  rw [h, List.find?_cons]
  split_ifs with hfirst
  · simp only [hfirst, beq_self_eq_true, List.head?_cons, Option.map_some]
    rfl
  · have hne : (track.trackId == trackId) = false := by simp [hfirst]
    simp only [hne, List.head?_cons, Option.map_some]
    cases tracks.find? (·.trackId == trackId) with
    | none => rfl
    | some found =>
      change fragment.readTrack (some track.trackId == some trackId) found trex = _
      rw [show (some track.trackId == some trackId) = false from hne]

/-- Fragments whose track fragments are read alike give the same samples for every track. -/
theorem toOption_trackSamples {fragment other : Fragment}
    (change : Bool → TrackFragment → TrackFragment)
    (htracks : other.moof.tracks = TrackFragment.changeAll change fragment.moof.tracks)
    (hfirst : ∀ track ∈ fragment.moof.tracks.head?,
      ReadsLike fragment other true track (change true track))
    (hrest : ∀ track ∈ fragment.moof.tracks.tail,
      ReadsLike fragment other false track (change false track))
    (trackId : UInt32) (trex : Option TrackExtends) :
    (other.trackSamples trackId trex).toOption =
      (fragment.trackSamples trackId trex).toOption := by
  cases hcase : fragment.moof.tracks with
  | nil =>
    rw [hcase] at htracks
    unfold trackSamples findTrack MovieFragment.track?
    rw [htracks, hcase]
    rfl
  | cons track tracks =>
    rw [hcase] at htracks hfirst hrest
    have hhead := hfirst track rfl
    rw [trackSamples_cons htracks, trackSamples_cons hcase, hhead.trackId, List.find?_map]
    split_ifs
    · exact hhead.samples trex
    · have hfind : tracks.find? ((·.trackId == trackId) ∘ change false) =
          tracks.find? (·.trackId == trackId) := by
        apply List.find?_congr
        intro found hmem
        rw [Function.comp_apply, (hrest found hmem).trackId]
      rw [hfind]
      cases hfound : tracks.find? (·.trackId == trackId) with
      | none => rfl
      | some found => exact (hrest found (List.mem_of_find?_eq_some hfound)).samples trex

end Fragment
end FragmentedMp4
