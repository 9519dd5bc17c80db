import FragmentedMp4.Proofs.Fragment.Reading

/-!
# Reading samples in machine words

Where the data of a sample begins and ends is counted in words of 64 bits, and the place of a run
is a difference of signed ones. Here samples are read in this way: every sum and difference has
to fit its word, and data is taken from inside the payload only. Fragments that are not too large
are read alike. So of all that reading computes, only decode times can get too large.
-/
namespace FragmentedMp4

namespace Words

def add (left right : Nat) : Except Failure Nat :=
  if left + right < UInt64.size then .ok (left + right) else .error .overflow

/-- An unsigned word, taken as a signed one. -/
def signed (word : Nat) : Int :=
  if word < 2 ^ 63 then word else (word : Int) - 2 ^ 64

def addSigned (left right : Int) : Except Failure Int :=
  if -2 ^ 63 ≤ left + right ∧ left + right < 2 ^ 63 then .ok (left + right)
  else .error .overflow

def slice (bytes : Bytes) (start stop : Nat) : Except Failure Bytes :=
  if start ≤ stop ∧ stop ≤ bytes.length then .ok ((bytes.drop start).take (stop - start))
  else .error (.pastEnd bytes.length stop)

theorem add_of_lt {left right : Nat} (h : left + right < UInt64.size) :
    add left right = .ok (left + right) :=
  if_pos h

theorem signed_of_lt {word : Nat} (h : word < 2 ^ 63) : signed word = word :=
  if_pos h

theorem addSigned_of_fits {left right : Int} (hlower : -2 ^ 63 ≤ left + right)
    (hupper : left + right < 2 ^ 63) : addSigned left right = .ok (left + right) :=
  if_pos ⟨hlower, hupper⟩

theorem slice_of_le {bytes : Bytes} {start size : Nat} (h : start + size ≤ bytes.length) :
    slice bytes start (start + size) = .ok ((bytes.drop start).take size) := by
  unfold slice
  rw [if_pos ⟨by omega, h⟩, Nat.add_sub_cancel_left]

end Words

namespace Playhead

def readSampleInWords (payload : Bytes) (defaults : SampleDefaults)
    (firstFlags : Option UInt32) (entry : RunSample) (head : Playhead) :
    Except Failure (Sample × Playhead) := do
  let duration ← require (entry.duration <|> defaults.duration)
  let size ← require (entry.size <|> defaults.size)
  let flags ← require (firstFlags <|> entry.flags <|> defaults.flags)
  let stop ← Words.add head.position size.toNat
  if payload.length < stop then
    .error (.error (.sampleDataOutOfRange head.position size.toNat payload.length))
  else
    let data ← Words.slice payload head.position stop
    let decodeTime ← Sample.addUnsigned head.decodeTime.toNat duration.toNat
    let sample :=
      { flags, duration, size, data
        compositionOffset := entry.compositionOffset.getD 0
        decodeTime := head.decodeTime }
    return (sample, ⟨stop, decodeTime⟩)

def readEntriesInWords (payload : Bytes) (defaults : SampleDefaults) :
    (firstFlags : Option UInt32) → List RunSample → List Sample × Playhead →
      Except Failure (List Sample × Playhead)
  | _, [], state => .ok state
  | firstFlags, entry :: entries, (done, head) => do
    let (sample, next) ← readSampleInWords payload defaults firstFlags entry head
    readEntriesInWords payload defaults none entries (sample :: done, next)

def seekInWords (payloadOffset : Nat) (run : TrackRun) (head : Playhead) :
    Except Failure Playhead :=
  match run.dataOffset with
  | none => .ok head
  | some offset => do
    let place ← Words.addSigned offset.toInt (-Words.signed payloadOffset)
    if place < 0 then .error (.error (.invalidBox .trun (.offsetBeforePayload offset.toInt)))
    else return { head with position := place.toNat }

def readRunsInWords (payloadOffset : Nat) (payload : Bytes) (defaults : SampleDefaults) :
    List TrackRun → List Sample × Playhead → Except Failure (List Sample × Playhead)
  | [], state => .ok state
  | run :: runs, (done, head) => do
    let moved ← seekInWords payloadOffset run head
    let state ← readEntriesInWords payload defaults run.firstSampleFlags run.samples (done, moved)
    readRunsInWords payloadOffset payload defaults runs state

variable {payload : Bytes} {payloadOffset : Nat} {defaults : SampleDefaults}

theorem readSampleInWords_eq {firstFlags : Option UInt32} {entry : RunSample} {head : Playhead}
    (h : head.position < 2 ^ 63) :
    readSampleInWords payload defaults firstFlags entry head =
      readSample payload payload.length defaults firstFlags entry head := by
  unfold readSampleInWords readSample
  cases require (entry.duration <|> defaults.duration) with
  | error failure => rfl
  | ok duration =>
    cases require (entry.size <|> defaults.size) with
    | error failure => rfl
    | ok size =>
      have hstop : head.position + size.toNat < UInt64.size := by
        have hsize := size.toNat_lt
        have hlimit : UInt64.size = 2 ^ 64 := rfl
        omega
      cases require (firstFlags <|> entry.flags <|> defaults.flags) with
      | error failure => rfl
      | ok flags =>
        simp only [bind, Except.bind, Words.add_of_lt hstop]
        split_ifs with hroom
        · rfl
        · rw [Words.slice_of_le (not_lt.1 hroom)]

theorem position_of_readSample {firstFlags : Option UInt32} {entry : RunSample}
    {head next : Playhead} {sample : Sample} (hpayload : payload.length < 2 ^ 63)
    (h : readSample payload payload.length defaults firstFlags entry head = .ok (sample, next)) :
    next.position < 2 ^ 63 := by
  have hgives := readSample_eq_ok_iff.1 h
  have hroom := hgives.room
  rw [hgives.position]
  omega

theorem readEntriesInWords_eq (hpayload : payload.length < 2 ^ 63) {firstFlags : Option UInt32}
    {entries : List RunSample} {done : List Sample} {head : Playhead}
    (h : head.position < 2 ^ 63) :
    readEntriesInWords payload defaults firstFlags entries (done, head) =
      readEntries payload payload.length defaults firstFlags entries (done, head) := by
  induction entries generalizing firstFlags done head with
  | nil => rfl
  | cons entry entries ih =>
    rw [readEntriesInWords, readEntries, readSampleInWords_eq h]
    cases hsample : readSample payload payload.length defaults firstFlags entry head with
    | error failure => rfl
    | ok pair => exact ih (position_of_readSample hpayload hsample)

/-- The place of a run is a difference of words that fits if the payload does not begin too far
behind. -/
theorem seekInWords_eq (hoffset : payloadOffset ≤ 2 ^ 63 - 2 ^ 31) (run : TrackRun)
    (head : Playhead) : seekInWords payloadOffset run head = seek payloadOffset run head := by
  unfold seekInWords seek
  cases run.dataOffset with
  | none => rfl
  | some offset =>
    have hlower := offset.le_toInt
    have hupper := offset.toInt_lt
    have hsigned : Words.signed payloadOffset = payloadOffset := Words.signed_of_lt (by omega)
    have hplace : Words.addSigned offset.toInt (-Words.signed payloadOffset) =
        .ok (offset.toInt - payloadOffset) := by
      rw [hsigned]
      exact Words.addSigned_of_fits (by omega) (by omega)
    simp only [hplace, bind, Except.bind]
    split_ifs with hbefore hbehind
    · rfl
    · omega
    · omega
    · rfl

theorem position_of_seek {run : TrackRun} {head moved : Playhead} (hhead : head.position < 2 ^ 63)
    (h : seek payloadOffset run head = .ok moved) : moved.position < 2 ^ 63 := by
  have hplace := (seek_eq_ok h).2
  cases hoffset : run.dataOffset with
  | none =>
    rw [hoffset, Option.map_none, Option.getD_none] at hplace
    omega
  | some offset =>
    have hupper := offset.toInt_lt
    rw [hoffset, Option.map_some, Option.getD_some] at hplace
    omega

/-- The reader stays among words that fit, wherever the runs are. -/
theorem readRunsInWords_eq (hpayload : payload.length < 2 ^ 63)
    (hoffset : payloadOffset ≤ 2 ^ 63 - 2 ^ 31) {runs : List TrackRun} {done : List Sample}
    {head : Playhead} (h : head.position < 2 ^ 63) :
    readRunsInWords payloadOffset payload defaults runs (done, head) =
      readRuns payloadOffset payload payload.length defaults runs (done, head) := by
  induction runs generalizing done head with
  | nil => rfl
  | cons run runs ih =>
    rw [readRunsInWords, readRuns, seekInWords_eq hoffset]
    cases hseek : seek payloadOffset run head with
    | error failure => rfl
    | ok moved =>
      have hmoved := position_of_seek h hseek
      simp only [bind, Except.bind, readEntriesInWords_eq hpayload hmoved]
      cases hentries : readEntries payload payload.length defaults run.firstSampleFlags
        run.samples (done, moved) with
      | error failure => rfl
      | ok state =>
        have hstate := readEntries_invariant
          (P := fun state => state.2.position < 2 ^ 63)
          (fun _ hgives => position_of_readSample hpayload (readSample_eq_ok_iff.2 hgives))
          hmoved hentries
        exact ih hstate

end Playhead

namespace Fragment

/-- Where the payload begins, in machine words. Every size that this is a sum of is no larger. -/
def payloadOffsetInWords (fragment : Fragment) : Except Failure Nat := do
  let moofSize ← Box.checkedSize fragment.moof
  let mdatSize ← Box.checkedSize fragment.mdat
  Words.add moofSize (mdatSize - fragment.mdat.payload.length)

def readTrackInWords (fragment : Fragment) (isFirst : Bool) (track : TrackFragment)
    (trex : Option TrackExtends) : Except Failure (List Sample) :=
  if track.header.baseDataOffset.isSome then
    .error (.error (.unsupported .absoluteBaseOffset))
  else if !isFirst && !track.header.baseIsMoof then
    .error (.error (.unsupported .offsetAfterPreviousTrack))
  else do
    let payloadOffset ← fragment.payloadOffsetInWords
    let start : Playhead := ⟨0, (track.decodeTime.map (·.time)).getD 0⟩
    let (samples, _) ←
      Playhead.readRunsInWords payloadOffset fragment.mdat.payload (track.sampleDefaults trex)
        track.runs ([], start)
    return samples.reverse

def samplesInWords (fragment : Fragment) (trex : Option TrackExtends) :
    Except Failure (List Sample) := do
  let (isFirst, track) ← orFailure (fragment.selectTrack trex)
  fragment.readTrackInWords isFirst track trex

def storedSize (fragment : Fragment) : Nat :=
  Box.size fragment.moof + Box.size fragment.mdat

theorem storedSize_eq (fragment : Fragment) :
    fragment.storedSize = fragment.payloadOffset + fragment.mdat.payload.length := by
  have hle : fragment.mdat.payload.length ≤ Box.size fragment.mdat :=
    Box.contentSize_le_size fragment.mdat
  unfold storedSize payloadOffset MediaData.headerSize
  omega

variable {fragment : Fragment} (hsmall : fragment.storedSize ≤ 2 ^ 63 - 2 ^ 31)
include hsmall

theorem payloadOffsetInWords_eq : fragment.payloadOffsetInWords = .ok fragment.payloadOffset := by
  have hlimit : UInt64.size = 2 ^ 64 := rfl
  have hsize : Box.size fragment.moof + Box.size fragment.mdat ≤ 2 ^ 63 - 2 ^ 31 := hsmall
  unfold payloadOffsetInWords Box.checkedSize
  rw [if_pos (by omega), if_pos (by omega)]
  exact Words.add_of_lt (by omega)

theorem readTrackInWords_eq (isFirst : Bool) (track : TrackFragment)
    (trex : Option TrackExtends) :
    fragment.readTrackInWords isFirst track trex = fragment.readTrack isFirst track trex := by
  have hsize := fragment.storedSize_eq
  unfold readTrackInWords readTrack
  split_ifs
  · rfl
  · rfl
  · rw [payloadOffsetInWords_eq hsmall]
    simp only [bind, Except.bind]
    rw [Playhead.readRunsInWords_eq (by omega) (by omega) (Nat.two_pow_pos 63)]

/-- A fragment that is not too large is read alike in machine words. -/
theorem samplesInWords_eq (trex : Option TrackExtends) :
    fragment.samplesInWords trex = fragment.samples trex := by
  unfold samplesInWords samples
  congr 1
  funext ⟨isFirst, track⟩
  exact readTrackInWords_eq hsmall isFirst track trex

end Fragment

/-! ### Decode times -/

/-- A result that is a value or an error. Only if something does not fit, it can be a sum that is
too large. -/
def Orderly {α : Type} (fits : Prop) : Except Failure α → Prop
  | .ok _ => True
  | .error (.error _) => True
  | .error .overflow => ¬ fits
  | .error (.pastEnd _ _) => False

section

variable {α β : Type} {fits : Prop}

theorem orderly_orFailure (result : Except Error α) : Orderly fits (orFailure result) := by
  cases result <;> trivial

theorem Orderly.mono {result : Except Failure α} {more : Prop} (h : Orderly fits result)
    (hmore : more → fits) : Orderly more result := by
  cases result with
  | ok value => trivial
  | error failure =>
    cases failure with
    | error error => trivial
    | overflow => exact fun hfits => h (hmore hfits)
    | pastEnd room requested => exact h

theorem Orderly.exists_error {result : Except Failure α} (h : Orderly fits result)
    (hvalue : ∀ value, result ≠ .ok value) (hoverflow : result ≠ .error .overflow) :
    ∃ error, result = .error (.error error) := by
  cases result with
  | ok value => exact absurd rfl (hvalue value)
  | error failure =>
    cases failure with
    | error error => exact ⟨error, rfl⟩
    | overflow => exact absurd rfl hoverflow
    | pastEnd room requested => exact h.elim

theorem Orderly.bind {result : Except Failure α} {next : α → Except Failure β}
    (h : Orderly fits result) (hnext : ∀ value, result = .ok value → Orderly fits (next value)) :
    Orderly fits (result >>= next) := by
  cases result with
  | ok value => exact hnext value rfl
  | error failure => cases failure <;> exact h

theorem Orderly.mapError {result : Except Failure α} (h : Orderly fits result)
    (wrap : Error → Error) : Orderly fits (result.mapError (Failure.mapError wrap)) := by
  cases result with
  | ok value => trivial
  | error failure => cases failure <;> exact h

end

/-- How long the sample of an entry lasts, if that is known. -/
def RunSample.durationUnder (defaults : SampleDefaults) (entry : RunSample) : Nat :=
  ((entry.duration <|> defaults.duration).map UInt32.toNat).getD 0

def TrackFragment.totalDuration (track : TrackFragment) (trex : Option TrackExtends) : Nat :=
  (track.runs.map fun run =>
    (run.samples.map (RunSample.durationUnder (track.sampleDefaults trex))).sum).sum

namespace Playhead

variable {payload : Bytes} {available payloadOffset : Nat} {defaults : SampleDefaults}

theorem Gives.time_eq {firstFlags : Option UInt32} {entry : RunSample} {head next : Playhead}
    {sample : Sample} (h : Gives payload available defaults firstFlags entry head sample next) :
    next.decodeTime.toNat = head.decodeTime.toNat + entry.durationUnder defaults := by
  unfold RunSample.durationUnder
  rw [h.duration, h.time]
  rfl

theorem time_readEntries {firstFlags : Option UInt32} {entries : List RunSample}
    {done : List Sample} {head : Playhead} {last : List Sample × Playhead}
    (h : readEntries payload available defaults firstFlags entries (done, head) = .ok last) :
    last.2.decodeTime.toNat =
      head.decodeTime.toNat + (entries.map (RunSample.durationUnder defaults)).sum := by
  induction entries generalizing firstFlags done head with
  | nil =>
    cases h
    rfl
  | cons entry entries ih =>
    obtain ⟨sample, next, hgives, hrest⟩ := readEntries_cons_eq_ok.1 h
    rw [ih hrest, hgives.time_eq, List.map_cons, List.sum_cons, Nat.add_assoc]

theorem time_readRuns {runs : List TrackRun} {done : List Sample} {head : Playhead}
    {last : List Sample × Playhead}
    (h : readRuns payloadOffset payload available defaults runs (done, head) = .ok last) :
    last.2.decodeTime.toNat = head.decodeTime.toNat +
      (runs.map fun run => (run.samples.map (RunSample.durationUnder defaults)).sum).sum := by
  induction runs generalizing done head with
  | nil =>
    cases h
    rfl
  | cons run runs ih =>
    obtain ⟨moved, ⟨soFar, next⟩, hmoved, hentries, hrest⟩ := readRuns_cons_eq_ok.1 h
    have htime := time_readEntries hentries
    rw [(seek_eq_ok hmoved).1] at htime
    rw [ih hrest, htime, List.map_cons, List.sum_cons, Nat.add_assoc]

theorem orderly_readSample (firstFlags : Option UInt32) (entry : RunSample) (head : Playhead) :
    Orderly (head.decodeTime.toNat + entry.durationUnder defaults < UInt64.size)
      (readSample payload available defaults firstFlags entry head) := by
  have hknown {α : Type} {fits : Prop} (value : Option α) : Orderly fits (require value) := by
    cases value <;> trivial
  unfold readSample
  refine (hknown _).bind fun duration hduration => ?_
  refine (hknown _).bind fun size _ => ?_
  refine (hknown _).bind fun flags _ => ?_
  unfold RunSample.durationUnder
  rw [require_eq_ok.1 hduration]
  split_ifs
  · trivial
  · refine Orderly.bind ?_ fun _ _ => trivial
    unfold Sample.addUnsigned
    split_ifs with hfits
    · trivial
    · exact hfits

theorem orderly_readEntries (firstFlags : Option UInt32) (entries : List RunSample)
    (done : List Sample) (head : Playhead) :
    Orderly (head.decodeTime.toNat + (entries.map (RunSample.durationUnder defaults)).sum <
        UInt64.size)
      (readEntries payload available defaults firstFlags entries (done, head)) := by
  induction entries generalizing firstFlags done head with
  | nil => trivial
  | cons entry entries ih =>
    rw [List.map_cons, List.sum_cons, readEntries_cons]
    refine ((orderly_readSample firstFlags entry head).mono (by omega)).bind fun pair hpair => ?_
    refine (ih none (pair.1 :: done) pair.2).mono ?_
    rw [(readSample_eq_ok_iff.1 hpair).time_eq]
    omega

theorem orderly_readRuns (runs : List TrackRun) (done : List Sample) (head : Playhead) :
    Orderly (head.decodeTime.toNat +
        (runs.map fun run => (run.samples.map (RunSample.durationUnder defaults)).sum).sum <
          UInt64.size)
      (readRuns payloadOffset payload available defaults runs (done, head)) := by
  induction runs generalizing done head with
  | nil => trivial
  | cons run runs ih =>
    have hseek {fits : Prop} : Orderly fits (seek payloadOffset run head) := by
      unfold seek
      split
      · trivial
      · split_ifs <;> trivial
    rw [List.map_cons, List.sum_cons, readRuns_cons]
    refine hseek.bind fun moved hmoved => ?_
    have htime := (seek_eq_ok hmoved).1
    refine ((orderly_readEntries _ _ done moved).mono (by rw [htime]; omega)).bind
      fun state hstate => (ih state.1 state.2).mono ?_
    rw [time_readEntries hstate, htime]
    omega

end Playhead

namespace Fragment

variable {fragment : Fragment} {trex : Option TrackExtends}

/-- The end of the last sample of the selected track fragment is a time that fits its word. -/
def TimesFit (fragment : Fragment) (trex : Option TrackExtends) : Prop :=
  ∀ isFirst track, fragment.selectTrack trex = .ok (isFirst, track) →
    track.start.decodeTime.toNat + track.totalDuration trex < UInt64.size

/-- Samples are read or an error is found, if decode times fit. -/
theorem orderly_samples (fragment : Fragment) (trex : Option TrackExtends) :
    Orderly (fragment.TimesFit trex) (fragment.samples trex) := by
  unfold samples
  refine (orderly_orFailure _).bind fun selected hselected => ?_
  obtain ⟨isFirst, track⟩ := selected
  simp only
  unfold readTrack
  split_ifs
  · trivial
  · trivial
  · refine Orderly.bind ?_ fun _ _ => trivial
    exact (Playhead.orderly_readRuns _ _ _).mono fun hfits =>
      hfits isFirst track (mapError_eq_ok.1 hselected)

theorem timesFit_of_samples {samples : List Sample} (h : fragment.samples trex = .ok samples) :
    fragment.TimesFit trex := by
  intro isFirst track hselected
  unfold Fragment.samples orFailure at h
  rw [hselected] at h
  obtain ⟨-, -, head, hplays⟩ := readTrack_eq_ok h
  have htime := Playhead.time_readRuns hplays
  have hbound := head.decodeTime.toNat_lt_size
  unfold TrackFragment.totalDuration
  rw [← htime]
  exact hbound

end Fragment
end FragmentedMp4
