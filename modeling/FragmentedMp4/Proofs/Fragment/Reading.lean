import FragmentedMp4.Proofs.Fragment.Meaning

/-!
# How samples are read

What a step of the reader does is said once, and runs are taken apart at any place. So what the
reader has come to is known step by step: the decode time of the next sample, and that data
behind the payload changes nothing of what was read.
-/
namespace FragmentedMp4

theorem Sample.addUnsigned_eq_ok_iff {left right : Nat} {sum : UInt64} :
    addUnsigned left right = .ok sum ↔ sum.toNat = left + right := by
  constructor
  · exact addUnsigned_eq_ok
  · intro h
    have hfits : left + right < UInt64.size := h ▸ sum.toNat_lt_size
    unfold addUnsigned
    rw [if_pos hfits, ← h, UInt64.ofNat_toNat]

/-- The decode time of the sample behind others, which is a given one if there are none. -/
def Sample.timeAfter (start : UInt64) (samples : List Sample) : UInt64 :=
  match samples.getLast? with
  | some last => last.decodeTime + last.duration.toUInt64
  | none => start

def TrackFragment.start (track : TrackFragment) : Playhead :=
  ⟨0, (track.decodeTime.map (·.time)).getD 0⟩

namespace Playhead

variable {payload : Bytes} {available payloadOffset : Nat} {defaults : SampleDefaults}

/-- A sample that an entry gives at a place, and where the reader is behind it. -/
structure Gives (payload : Bytes) (available : Nat) (defaults : SampleDefaults)
    (firstFlags : Option UInt32) (entry : RunSample) (head : Playhead) (sample : Sample)
    (next : Playhead) : Prop where
  duration : (entry.duration <|> defaults.duration) = some sample.duration
  size : (entry.size <|> defaults.size) = some sample.size
  flags : (firstFlags <|> entry.flags <|> defaults.flags) = some sample.flags
  compositionOffset : sample.compositionOffset = entry.compositionOffset.getD 0
  decodeTime : sample.decodeTime = head.decodeTime
  room : head.position + sample.size.toNat ≤ available
  data : sample.data = (payload.drop head.position).take sample.size.toNat
  position : next.position = head.position + sample.size.toNat
  time : next.decodeTime.toNat = head.decodeTime.toNat + sample.duration.toNat

theorem Gives.length_data {firstFlags : Option UInt32} {entry : RunSample} {head next : Playhead}
    {sample : Sample}
    (h : Gives payload payload.length defaults firstFlags entry head sample next) :
    sample.data.length = sample.size.toNat := by
  have hroom := h.room
  rw [h.data, List.length_take, List.length_drop]
  omega

theorem require_eq_ok {α : Type} {value : Option α} {known : α} :
    require value = .ok known ↔ value = some known := by
  cases value <;> simp [require]

theorem readSample_eq_ok_iff {firstFlags : Option UInt32} {entry : RunSample}
    {head next : Playhead} {sample : Sample} :
    readSample payload available defaults firstFlags entry head = .ok (sample, next) ↔
      Gives payload available defaults firstFlags entry head sample next := by
  unfold readSample
  constructor
  · intro h
    obtain ⟨duration, hduration, h⟩ := bind_eq_ok.1 h
    obtain ⟨size, hsize, h⟩ := bind_eq_ok.1 h
    obtain ⟨flags, hflags, h⟩ := bind_eq_ok.1 h
    split_ifs at h with hroom
    obtain ⟨time, htime, h⟩ := bind_eq_ok.1 h
    cases h
    exact ⟨require_eq_ok.1 hduration, require_eq_ok.1 hsize, require_eq_ok.1 hflags, rfl, rfl,
      not_lt.1 hroom, rfl, rfl, Sample.addUnsigned_eq_ok_iff.1 htime⟩
  · intro h
    obtain ⟨flags, duration, size, compositionOffset, decodeTime, data⟩ := sample
    obtain ⟨position, time⟩ := next
    obtain ⟨hduration, hsize, hflags, hoffset, hdecode, hroom, hdata, hposition, htime⟩ := h
    simp only at hduration hsize hflags hoffset hdecode hroom hdata hposition htime
    rw [hduration, hsize, hflags]
    simp only [require, bind, Except.bind, if_neg (not_lt.2 hroom),
      Sample.addUnsigned_eq_ok_iff.2 htime]
    rw [hoffset, hdecode, hdata, hposition]
    rfl

theorem readEntries_cons (firstFlags : Option UInt32) (entry : RunSample)
    (entries : List RunSample) (done : List Sample) (head : Playhead) :
    readEntries payload available defaults firstFlags (entry :: entries) (done, head) =
      readSample payload available defaults firstFlags entry head >>= fun pair =>
        readEntries payload available defaults none entries (pair.1 :: done, pair.2) := by
  rw [readEntries]
  cases readSample payload available defaults firstFlags entry head <;> rfl

theorem readRuns_cons (run : TrackRun) (runs : List TrackRun) (done : List Sample)
    (head : Playhead) :
    readRuns payloadOffset payload available defaults (run :: runs) (done, head) =
      seek payloadOffset run head >>= fun moved =>
        readEntries payload available defaults run.firstSampleFlags run.samples (done, moved) >>=
          readRuns payloadOffset payload available defaults runs := by
  rw [readRuns]
  cases seek payloadOffset run head with
  | error failure => rfl
  | ok moved =>
    simp only [bind, Except.bind]
    cases readEntries payload available defaults run.firstSampleFlags run.samples (done, moved) <;>
      rfl

theorem readEntries_cons_eq_ok {firstFlags : Option UInt32} {entry : RunSample}
    {entries : List RunSample} {done : List Sample} {head : Playhead}
    {last : List Sample × Playhead} :
    readEntries payload available defaults firstFlags (entry :: entries) (done, head) = .ok last ↔
      ∃ sample next, Gives payload available defaults firstFlags entry head sample next ∧
        readEntries payload available defaults none entries (sample :: done, next) = .ok last := by
  simp only [readEntries_cons, bind_eq_ok, Prod.exists, readSample_eq_ok_iff]

theorem readRuns_cons_eq_ok {run : TrackRun} {runs : List TrackRun} {done : List Sample}
    {head : Playhead} {last : List Sample × Playhead} :
    readRuns payloadOffset payload available defaults (run :: runs) (done, head) = .ok last ↔
      ∃ moved state, seek payloadOffset run head = .ok moved ∧
        readEntries payload available defaults run.firstSampleFlags run.samples (done, moved) =
          .ok state ∧
        readRuns payloadOffset payload available defaults runs state = .ok last := by
  simp only [readRuns_cons, bind_eq_ok, exists_and_left]

/-- Only the first of all entries has flags from the run. -/
theorem readEntries_append (firstFlags : Option UInt32) (entries more : List RunSample)
    (state : List Sample × Playhead) :
    readEntries payload available defaults firstFlags (entries ++ more) state =
      readEntries payload available defaults firstFlags entries state >>=
        readEntries payload available defaults (if entries = [] then firstFlags else none)
          more := by
  induction entries generalizing firstFlags state with
  | nil => rfl
  | cons entry entries ih =>
    obtain ⟨done, head⟩ := state
    rw [List.cons_append, readEntries_cons, readEntries_cons, bind_assoc]
    congr 1
    funext pair
    refine (ih none (pair.1 :: done, pair.2)).trans ?_
    simp only [ite_self, reduceCtorEq, if_false]

theorem readRuns_append (runs more : List TrackRun) (state : List Sample × Playhead) :
    readRuns payloadOffset payload available defaults (runs ++ more) state =
      readRuns payloadOffset payload available defaults runs state >>=
        readRuns payloadOffset payload available defaults more := by
  induction runs generalizing state with
  | nil => rfl
  | cons run runs ih =>
    obtain ⟨done, head⟩ := state
    simp only [List.cons_append, readRuns_cons, bind_assoc]
    congr 1
    funext moved
    congr 1
    funext middle
    exact ih middle

section Invariants

variable {P : List Sample × Playhead → Prop}
  (hsample : ∀ {firstFlags entry done head sample next}, P (done, head) →
    Gives payload available defaults firstFlags entry head sample next → P (sample :: done, next))
include hsample

theorem readEntries_invariant {firstFlags : Option UInt32} {entries : List RunSample}
    {state last : List Sample × Playhead} (hstate : P state)
    (h : readEntries payload available defaults firstFlags entries state = .ok last) : P last := by
  induction entries generalizing firstFlags state with
  | nil =>
    cases h
    exact hstate
  | cons entry entries ih =>
    obtain ⟨sample, next, hgives, hrest⟩ := readEntries_cons_eq_ok.1 h
    exact ih (hsample hstate hgives) hrest

/-- What every sample keeps and every move to the data of a run, the reader keeps. -/
theorem readRuns_invariant
    (hseek : ∀ {run done head moved}, P (done, head) → seek payloadOffset run head = .ok moved →
      P (done, moved))
    {runs : List TrackRun} {state last : List Sample × Playhead} (hstate : P state)
    (h : readRuns payloadOffset payload available defaults runs state = .ok last) : P last := by
  induction runs generalizing state with
  | nil =>
    cases h
    exact hstate
  | cons run runs ih =>
    obtain ⟨moved, middle, hmoved, hentries, hrest⟩ := readRuns_cons_eq_ok.1 h
    exact ih (readEntries_invariant hsample (hseek hstate hmoved) hentries) hrest

end Invariants

theorem seek_eq_ok {run : TrackRun} {head moved : Playhead}
    (h : seek payloadOffset run head = .ok moved) :
    moved.decodeTime = head.decodeTime ∧
      (moved.position : Int) =
        (run.dataOffset.map (·.toInt - (payloadOffset : Int))).getD head.position := by
  unfold seek at h
  cases hoffset : run.dataOffset with
  | none =>
    rw [hoffset] at h
    cases h
    exact ⟨rfl, rfl⟩
  | some offset =>
    simp only [hoffset] at h
    split_ifs at h with hbefore
    cases h
    exact ⟨rfl, Int.toNat_of_nonneg (sub_nonneg.2 (not_lt.1 hbefore))⟩

/-- The reader is at the end of the last sample that was read. -/
theorem decodeTime_readRuns {runs : List TrackRun} {start head : Playhead} {read : List Sample}
    (h : readRuns payloadOffset payload available defaults runs ([], start) = .ok (read, head)) :
    head.decodeTime = Sample.timeAfter start.decodeTime read.reverse := by
  have hend := readRuns_invariant
    (P := fun state => state.2.decodeTime = Sample.timeAfter start.decodeTime state.1.reverse)
    (fun {_ _ done head sample next} _ hgives => ?_)
    (fun hstate hmoved => (seek_eq_ok hmoved).1.trans hstate) rfl h
  · exact hend
  · have hbound := next.decodeTime.toNat_lt
    have htime := hgives.time
    simp only [Sample.timeAfter, List.reverse_cons, List.getLast?_concat]
    rw [hgives.decodeTime]
    apply UInt64.toNat_inj.1
    rw [UInt64.toNat_add, UInt32.toNat_toUInt64, Nat.mod_eq_of_lt (by omega), htime]

theorem length_readRuns {runs : List TrackRun} {done read : List Sample} {head last : Playhead}
    (h : readRuns payloadOffset payload available defaults runs (done, head) = .ok (read, last)) :
    read.length = done.length + (runs.map (·.samples.length)).sum := by
  have hentries {firstFlags : Option UInt32} {entries : List RunSample} {done : List Sample}
      {head : Playhead} {state : List Sample × Playhead}
      (h : readEntries payload available defaults firstFlags entries (done, head) = .ok state) :
      state.1.length = done.length + entries.length := by
    induction entries generalizing firstFlags done head with
    | nil =>
      cases h
      rfl
    | cons entry entries ih =>
      obtain ⟨sample, next, -, hrest⟩ := readEntries_cons_eq_ok.1 h
      rw [ih hrest, List.length_cons, List.length_cons]
      omega
  induction runs generalizing done head with
  | nil =>
    cases h
    rfl
  | cons run runs ih =>
    obtain ⟨moved, ⟨soFar, next⟩, -, hrun, hrest⟩ := readRuns_cons_eq_ok.1 h
    rw [ih hrest, hentries hrun, List.map_cons, List.sum_cons, Nat.add_assoc]

theorem position_readEntries {firstFlags : Option UInt32} {entries : List RunSample}
    {done read : List Sample} {head last : Playhead}
    (h : readEntries payload available defaults firstFlags entries (done, head) = .ok (read, last))
    (hsome : entries ≠ []) : last.position ≤ available := by
  induction entries generalizing firstFlags done head with
  | nil => exact absurd rfl hsome
  | cons entry entries ih =>
    obtain ⟨sample, next, hgives, hrest⟩ := readEntries_cons_eq_ok.1 h
    cases entries with
    | nil =>
      cases hrest
      exact hgives.position ▸ hgives.room
    | cons second entries => exact ih hrest (by simp)

section LongerPayload

variable (data : Bytes)

theorem Gives.longer {firstFlags : Option UInt32} {entry : RunSample} {head next : Playhead}
    {sample : Sample}
    (h : Gives payload payload.length defaults firstFlags entry head sample next) :
    Gives (payload ++ data) (payload ++ data).length defaults firstFlags entry head sample
      next := by
  have hroom := h.room
  refine { h with room := ?_, data := ?_ }
  · rw [List.length_append]
    omega
  · rw [List.drop_append_of_le_length (by omega), List.take_append_of_le_length, h.data]
    rw [List.length_drop]
    omega

theorem readEntries_longer {firstFlags : Option UInt32} {entries : List RunSample}
    {state last : List Sample × Playhead}
    (h : readEntries payload payload.length defaults firstFlags entries state = .ok last) :
    readEntries (payload ++ data) (payload ++ data).length defaults firstFlags entries state =
      .ok last := by
  induction entries generalizing firstFlags state with
  | nil => exact h
  | cons entry entries ih =>
    obtain ⟨sample, next, hgives, hrest⟩ := readEntries_cons_eq_ok.1 h
    exact readEntries_cons_eq_ok.2 ⟨sample, next, hgives.longer data, ih hrest⟩

/-- Data behind the payload changes nothing of what was read. -/
theorem readRuns_longer {runs : List TrackRun} {state last : List Sample × Playhead}
    (h : readRuns payloadOffset payload payload.length defaults runs state = .ok last) :
    readRuns payloadOffset (payload ++ data) (payload ++ data).length defaults runs state =
      .ok last := by
  induction runs generalizing state with
  | nil => exact h
  | cons run runs ih =>
    obtain ⟨moved, middle, hmoved, hentries, hrest⟩ := readRuns_cons_eq_ok.1 h
    exact readRuns_cons_eq_ok.2
      ⟨moved, middle, hmoved, readEntries_longer data hentries, ih hrest⟩

end LongerPayload

end Playhead

namespace TrackFragment

/-- Reading the track fragment gives samples from a payload, and comes to a place behind them. -/
def PlaysTo (track : TrackFragment) (payloadOffset : Nat) (payload : Bytes)
    (trex : Option TrackExtends) (samples : List Sample) (head : Playhead) : Prop :=
  Playhead.readRuns payloadOffset payload payload.length (track.sampleDefaults trex) track.runs
    ([], track.start) = .ok (samples.reverse, head)

theorem playsTo_withRuns {track : TrackFragment} {payloadOffset : Nat} {payload : Bytes}
    {trex : Option TrackExtends} {samples : List Sample} {head : Playhead}
    (runs : List TrackRun) :
    ({ track with runs } : TrackFragment).PlaysTo payloadOffset payload trex samples head ↔
      Playhead.readRuns payloadOffset payload payload.length (track.sampleDefaults trex) runs
        ([], track.start) = .ok (samples.reverse, head) :=
  Iff.rfl

end TrackFragment

namespace Fragment

variable {fragment : Fragment} {track : TrackFragment} {trex : Option TrackExtends}
  {samples : List Sample}

theorem readTrack_eq_ok {isFirst : Bool} (h : fragment.readTrack isFirst track trex = .ok samples) :
    track.header.baseDataOffset = none ∧ (isFirst = true ∨ track.header.baseIsMoof = true) ∧
      ∃ head, track.PlaysTo fragment.payloadOffset fragment.mdat.payload trex samples head := by
  rcases readable_or_unreadable isFirst track with ⟨hbase, hplace⟩ | hguards
  · rw [readTrack_of_readable fragment track hbase hplace] at h
    obtain ⟨⟨read, head⟩, hruns, rfl⟩ := map_eq_ok.1 h
    refine ⟨hbase, hplace, head, ?_⟩
    unfold TrackFragment.PlaysTo
    rw [List.reverse_reverse]
    exact hruns
  · have hnone := fragment.readTrack_of_unreadable hguards trex
    rw [h] at hnone
    cases hnone

end Fragment
end FragmentedMp4
