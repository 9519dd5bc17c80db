import FragmentedMp4.Proofs.Decoding.Loop
import FragmentedMp4.Proofs.Fragment.Accepted
import FragmentedMp4.Proofs.Fragment.Growth

/-!
# Reading fragments by index

The movie fragment and its track fragments are read by loops over their children, and the media
data begins where the movie fragment ends. All of this is the same in machine words. Only when
data offsets are adapted to the place that the payload will have, signed words are added. They
fit if the bytes are fewer than half of what a signed word counts.
-/
namespace FragmentedMp4

open IndexedReader

variable {α β : Type} {fits : Prop}

/-- A result in machine words is the plain one. Only if something does not fit, it can be a sum
that is too large instead. -/
def Agrees (fits : Prop) (inWords : Except Failure α) (plain : Except Error α) : Prop :=
  inWords = orFailure plain ∨ inWords = .error .overflow ∧ ¬ fits

namespace Agrees

variable {inWords : Except Failure α} {plain : Except Error α}

theorem bind (h : Agrees fits inWords plain) {next : α → Except Failure β}
    {nextPlain : α → Except Error β}
    (hnext : ∀ value, plain = .ok value → Agrees fits (next value) (nextPlain value)) :
    Agrees fits (inWords >>= next) (plain >>= nextPlain) := by
  rcases h with rfl | ⟨rfl, hlarge⟩
  · cases plain with
    | error error => exact .inl rfl
    | ok value => exact hnext value rfl
  · exact .inr ⟨rfl, hlarge⟩

theorem mono (h : Agrees fits inWords plain) {fewer : Prop} (hmono : fewer → fits) :
    Agrees fewer inWords plain :=
  h.imp_right fun ⟨hoverflow, hlarge⟩ => ⟨hoverflow, fun hfewer => hlarge (hmono hfewer)⟩

end Agrees

namespace TrackFragment

def addChildInWords (found : Children) (header : BoxHeader) (child : Bytes) :
    Except Failure Children :=
  if header.name = .tfhd ∧ found.header = none then do
    let (box, _) ← Box.decodeByIndex .tfhd TrackFragmentHeader.readInWords child
    return { found with header := some box }
  else if header.name = .tfdt ∧ found.decodeTime = none then do
    let (time, _) ← Box.decodeByIndex .tfdt TrackDecodeTime.readInWords child
    return { found with decodeTime := some time }
  else if header.name = .trun then do
    let (run, _) ← Box.decodeByIndex .trun TrackRun.readInWords child
    return { found with runs := found.runs ++ [run] }
  else .ok found

def loop (contents : Bytes) : CursorLoop Children :=
  Box.childLoop addChildInWords contents

def decodeContentsInWords (contents : Bytes) : Except Failure TrackFragment := do
  let found ← (loop contents).run ⟨none, none, []⟩ 0
  match found.header with
  | none => .error (.error (.missingBox .tfhd "traf"))
  | some header => .ok { header, runs := found.runs, decodeTime := found.decodeTime }

def decodeInWords (data : Bytes) : Except Failure (TrackFragment × Nat) :=
  Box.decodeAsInWords .traf decodeContentsInWords data

theorem addChildInWords_eq (found : Children) (header : BoxHeader) {child : Bytes}
    (h : child.length < 2 ^ 63) :
    addChildInWords found header child = orFailure (addChild found header child) := by
  unfold addChildInWords addChild
  split_ifs
  · rw [Box.decodeByIndex_eq TrackFragmentHeader.follows _ h, orFailure_bind]
    rfl
  · rw [Box.decodeByIndex_eq TrackDecodeTime.follows _ h, orFailure_bind]
    rfl
  · rw [Box.decodeByIndex_eq TrackRun.follows _ h, orFailure_bind]
    rfl
  · rfl

theorem decodeContentsInWords_eq {contents : Bytes} (h : contents.length < 2 ^ 63) :
    decodeContentsInWords contents = orFailure (decodeContents contents) := by
  have hwalk := Box.run_childLoop h
    (fun found header _ hchild => addChildInWords_eq found header (hchild.trans_lt h))
    ⟨none, none, []⟩ (Nat.zero_le _)
  rw [List.drop_zero] at hwalk
  unfold decodeContentsInWords decodeContents loop
  rw [hwalk, orFailure_bind]
  congr 1
  funext found
  cases found.header <;> rfl

theorem decodeInWords_eq {data : Bytes} (h : data.length < 2 ^ 63) :
    decodeInWords data = orFailure (decode data) :=
  Box.decodeAsInWords_eq fun _ hcontents => decodeContentsInWords_eq (hcontents.trans_lt h)

end TrackFragment

namespace MovieFragment

def addChildInWords (found : Children) (header : BoxHeader) (child : Bytes) :
    Except Failure Children :=
  if header.name = .mfhd ∧ found.header = none then do
    let (box, _) ← Box.decodeByIndex .mfhd MovieFragmentHeader.readInWords child
    return { found with header := some box }
  else if header.name = .traf then do
    let (track, _) ← TrackFragment.decodeInWords child
    return { found with tracks := found.tracks ++ [track] }
  else .ok found

def loop (contents : Bytes) : CursorLoop Children :=
  Box.childLoop addChildInWords contents

def decodeContentsInWords (contents : Bytes) : Except Failure MovieFragment := do
  let found ← (loop contents).run ⟨none, []⟩ 0
  match found.header with
  | none => .error (.error (.missingBox .mfhd "moof"))
  | some header => .ok { header, tracks := found.tracks }

def decodeInWords (data : Bytes) : Except Failure (MovieFragment × Nat) :=
  Box.decodeAsInWords .moof decodeContentsInWords data

theorem addChildInWords_eq (found : Children) (header : BoxHeader) {child : Bytes}
    (h : child.length < 2 ^ 63) :
    addChildInWords found header child = orFailure (addChild found header child) := by
  unfold addChildInWords addChild
  split_ifs
  · rw [Box.decodeByIndex_eq MovieFragmentHeader.follows _ h, orFailure_bind]
    rfl
  · rw [TrackFragment.decodeInWords_eq h, orFailure_bind]
    rfl
  · rfl

theorem decodeContentsInWords_eq {contents : Bytes} (h : contents.length < 2 ^ 63) :
    decodeContentsInWords contents = orFailure (decodeContents contents) := by
  have hwalk := Box.run_childLoop h
    (fun found header _ hchild => addChildInWords_eq found header (hchild.trans_lt h))
    ⟨none, []⟩ (Nat.zero_le _)
  rw [List.drop_zero] at hwalk
  unfold decodeContentsInWords decodeContents loop
  rw [hwalk, orFailure_bind]
  congr 1
  funext found
  cases found.header <;> rfl

/-- Few boxes are so large that they grow. -/
theorem size_le_of_decode {data : Bytes} {moof : MovieFragment} {used : Nat}
    (hlength : data.length < 2 ^ 63) (h : decode data = .ok (moof, used)) :
    Box.size moof ≤ used + 2 ^ 36 := by
  obtain ⟨-, hused⟩ := Box.size_of_decodeAs h
  obtain ⟨-, hroom⟩ := accepted_of_decode h
  have hrest := Box.length_le_room [.moof, .traf] (data.drop used)
  rw [List.length_drop] at hrest
  have hfew : 2 ^ 32 * Box.openLarge [.moof, .traf] data ≤ 3 * data.length :=
    Box.openLarge_le [.moof, .traf] data
  have hwhole : Box.room [.moof, .traf] data =
      data.length + 8 * Box.openLarge [.moof, .traf] data := rfl
  omega

theorem decodeInWords_eq {data : Bytes} (h : data.length < 2 ^ 63) :
    decodeInWords data = orFailure (decode data) :=
  Box.decodeAsInWords_eq fun _ hcontents => decodeContentsInWords_eq (hcontents.trans_lt h)

end MovieFragment

/-! ### Data offsets -/

/-- What a change comes to: an error, if it did not go through. -/
def settled (error : Error) : α × Bool → Except Error α
  | (value, true) => .ok value
  | (_, false) => .error error

theorem settled_map (error : Error) (f : α → β) (result : α × Bool) :
    settled error (f result.1, result.2) = (do
      let value ← settled error result
      return f value) := by
  rcases result with ⟨value, _ | _⟩ <;> rfl

theorem settled_changeInOrder_cons (error : Error) (change : α → α × Bool) (x : α) (xs : List α) :
    settled error (changeInOrder change (x :: xs)) = (do
      let y ← settled error (change x)
      let ys ← settled error (changeInOrder change xs)
      return y :: ys) := by
  rw [changeInOrder]
  rcases change x with ⟨y, _ | _⟩
  · rfl
  · rcases changeInOrder change xs with ⟨ys, _ | _⟩ <;> rfl

theorem Agrees.mapM {inWords : α → Except Failure α} {error : Error} {change : α → α × Bool}
    (h : ∀ x, Agrees fits (inWords x) (settled error (change x))) (xs : List α) :
    Agrees fits (xs.mapM inWords) (settled error (changeInOrder change xs)) := by
  induction xs with
  | nil => exact .inl rfl
  | cons x xs ih =>
    rw [List.mapM_cons, settled_changeInOrder_cons]
    exact (h x).bind fun y _ => ih.bind fun ys _ => .inl rfl

namespace TrackRun

def shiftInWords (delta : Int) (run : TrackRun) : Except Failure TrackRun :=
  match run.dataOffset with
  | none => .ok run
  | some offset => do
    let place ← Words.addSigned offset.toInt delta
    match offsetWord? place with
    | none => .error (.error .offsetOutOfRange)
    | some moved => .ok { run with dataOffset := some moved }

theorem agrees_shift {delta : Int}
    (h : fits → -2 ^ 63 + 2 ^ 31 ≤ delta ∧ delta ≤ 2 ^ 63 - 2 ^ 31) (run : TrackRun) :
    Agrees fits (run.shiftInWords delta) (settled .offsetOutOfRange (run.shift delta)) := by
  unfold shiftInWords shift
  cases run.dataOffset with
  | none => exact .inl rfl
  | some offset =>
    have hlower := offset.le_toInt
    have hupper := offset.toInt_lt
    by_cases hrange : -2 ^ 63 ≤ offset.toInt + delta ∧ offset.toInt + delta < 2 ^ 63
    · simp only [Words.addSigned_of_fits hrange.1 hrange.2, bind, Except.bind]
      cases offsetWord? (offset.toInt + delta) <;> exact .inl rfl
    · refine .inr ⟨?_, fun hfits => hrange ?_⟩
      · simp only [Words.addSigned, if_neg hrange, bind, Except.bind]
      · have hdelta := h hfits
        omega

end TrackRun

namespace TrackFragment

def shiftInWords (delta : Int) (isFirst : Bool) (track : TrackFragment) :
    Except Failure TrackFragment :=
  if track.isRelativeToMoof isFirst then do
    let runs ← track.runs.mapM (TrackRun.shiftInWords delta)
    return { track with runs }
  else .ok track

def shiftAllInWords (delta : Int) : List TrackFragment → Except Failure (List TrackFragment)
  | [] => .ok []
  | track :: tracks => do
    let moved ← track.shiftInWords delta true
    let later ← tracks.mapM (shiftInWords delta false)
    return moved :: later

variable {delta : Int} (h : fits → -2 ^ 63 + 2 ^ 31 ≤ delta ∧ delta ≤ 2 ^ 63 - 2 ^ 31)
include h

theorem agrees_shift (isFirst : Bool) (track : TrackFragment) :
    Agrees fits (track.shiftInWords delta isFirst)
      (settled .offsetOutOfRange (track.shift delta isFirst)) := by
  unfold shiftInWords shift
  split_ifs
  · have hruns := Agrees.mapM (TrackRun.agrees_shift h) track.runs
    have hsettled := settled_map .offsetOutOfRange (fun runs => { track with runs })
      (changeInOrder (TrackRun.shift delta) track.runs)
    exact hsettled ▸ hruns.bind fun runs _ => .inl rfl
  · exact .inl rfl

theorem agrees_shiftAll (tracks : List TrackFragment) :
    Agrees fits (shiftAllInWords delta tracks)
      (settled .offsetOutOfRange (shiftAll delta tracks)) := by
  cases tracks with
  | nil => exact .inl rfl
  | cons track tracks =>
    have hlater := Agrees.mapM (agrees_shift h false) tracks
    have hsettled : settled .offsetOutOfRange (shiftAll delta (track :: tracks)) = (do
        let moved ← settled .offsetOutOfRange (track.shift delta true)
        let later ← settled .offsetOutOfRange (changeInOrder (shift delta false) tracks)
        return moved :: later) := by
      rw [shiftAll]
      rcases track.shift delta true with ⟨moved, _ | _⟩
      · rfl
      · rcases changeInOrder (shift delta false) tracks with ⟨later, _ | _⟩ <;> rfl
    rw [hsettled]
    exact (agrees_shift h true track).bind fun moved _ => hlater.bind fun later _ => .inl rfl

end TrackFragment

namespace MovieFragment

def shiftedInWords (delta : Int) (moof : MovieFragment) : Except Failure MovieFragment :=
  if delta = 0 then .ok moof
  else do
    let tracks ← TrackFragment.shiftAllInWords delta moof.tracks
    return { moof with tracks }

theorem shifted_eq_settled (delta : Int) (moof : MovieFragment) :
    moof.shifted delta = settled .offsetOutOfRange (moof.shift delta) := by
  unfold shifted
  rcases moof.shift delta with ⟨moved, _ | _⟩ <;> rfl

theorem agrees_shifted {delta : Int} (h : fits → -2 ^ 63 + 2 ^ 31 ≤ delta ∧ delta ≤ 2 ^ 63 - 2 ^ 31)
    (moof : MovieFragment) : Agrees fits (moof.shiftedInWords delta) (moof.shifted delta) := by
  rw [shifted_eq_settled]
  unfold shiftedInWords shift
  split_ifs
  · exact .inl rfl
  · have htracks := TrackFragment.agrees_shiftAll h moof.tracks
    have hsettled := settled_map .offsetOutOfRange (fun tracks => { moof with tracks })
      (TrackFragment.shiftAll delta moof.tracks)
    exact hsettled ▸ htracks.bind fun tracks _ => .inl rfl

end MovieFragment

namespace MediaData

def decodeInWords (data : Bytes) : Except Failure (MediaData × Nat) :=
  Box.decodeAsInWords .mdat (fun contents => .ok ⟨contents⟩) data

theorem decodeInWords_eq (data : Bytes) : decodeInWords data = orFailure (decode data) :=
  Box.decodeAsInWords_eq fun _ _ => rfl

end MediaData

namespace Fragment

def mediaDataHeaderInWords (data : Bytes) : Except Failure BoxHeader :=
  match BoxHeader.parseInWords data with
  | .ok header =>
    if header.name = .mdat then .ok header else .error (.error (.missingBox .mdat "fragment"))
  | .error (.error _) => .error (.error (.missingBox .mdat "fragment"))
  | .error failure => .error failure

/-- How far the payload of a fragment will move from behind the headers that it was read behind,
in machine words. -/
def moveInWords (fragment : Fragment) (moofSize headerSize : Nat) : Except Failure Int := do
  let old ← Words.add moofSize headerSize
  let new ← fragment.payloadOffsetInWords
  Words.addSigned (Words.signed new) (-Words.signed old)

def decodeInWords (data : Bytes) : Except Failure (Fragment × Nat) := do
  let (moof, moofSize) ← MovieFragment.decodeInWords data
  let rest ← Words.slice data moofSize data.length
  let header ← mediaDataHeaderInWords rest
  let (mdat, mdatSize) ← MediaData.decodeInWords rest
  let fragment := ofBoxes moof mdat
  let delta ← fragment.moveInWords moofSize header.headerSize
  let moof ← moof.shiftedInWords delta
  let used ← Words.add moofSize mdatSize
  return ({ fragment with moof }, used)

theorem mediaDataHeaderInWords_eq (data : Bytes) :
    mediaDataHeaderInWords data = orFailure (mediaDataHeader data) := by
  unfold mediaDataHeaderInWords mediaDataHeader
  rw [BoxHeader.parseInWords_eq]
  cases BoxHeader.parse data with
  | error error => rfl
  | ok header =>
    simp only [orFailure, mapError_ok]
    split_ifs <;> rfl

theorem payloadOffsetInWords_of_lt {fragment : Fragment}
    (h : fragment.storedSize < UInt64.size) :
    fragment.payloadOffsetInWords = .ok fragment.payloadOffset := by
  have hsize : Box.size fragment.moof + Box.size fragment.mdat < UInt64.size := h
  unfold payloadOffsetInWords Box.checkedSize
  rw [if_pos (by omega), if_pos (by omega)]
  exact Words.add_of_lt (by omega)

/-- The payload moves by a signed word. Only if the bytes in front of it are too many, the sum
does not fit. -/
theorem agrees_move {fragment : Fragment} {moofSize headerSize length : Nat}
    (hlength : length < 2 ^ 63) (hheader : 8 ≤ headerSize)
    (hold : moofSize + headerSize ≤ length) (hsize : fragment.storedSize < UInt64.size)
    (hnew : fragment.payloadOffset ≤ moofSize + 2 ^ 37) :
    Agrees (length < 2 ^ 63 - 2 ^ 38) (fragment.moveInWords moofSize headerSize)
      (.ok ((fragment.payloadOffset : Int) - (moofSize + headerSize : Nat))) := by
  have hlimit : UInt64.size = 2 ^ 64 := rfl
  unfold moveInWords
  rw [Words.add_of_lt (by omega), payloadOffsetInWords_of_lt hsize]
  simp only [bind, Except.bind]
  rw [Words.signed_of_lt (by omega : moofSize + headerSize < 2 ^ 63)]
  by_cases hsmall : fragment.payloadOffset < 2 ^ 63
  · rw [Words.signed_of_lt hsmall]
    exact .inl (Words.addSigned_of_fits (by omega) (by omega))
  · refine .inr ⟨if_neg ?_, by omega⟩
    rw [Words.signed, if_neg hsmall]
    omega

theorem mediaData_bounds {data : Bytes} {header : BoxHeader} {mdat : MediaData} {used : Nat}
    (hheader : mediaDataHeader data = .ok header) (h : MediaData.decode data = .ok (mdat, used)) :
    8 ≤ header.headerSize ∧ header.headerSize ≤ used ∧ used ≤ data.length ∧
      Box.size mdat ≤ used + 8 := by
  obtain ⟨found, hparse, -, rfl, hcontents⟩ := Box.decodeAs_eq_ok h
  obtain ⟨hmin, hle, hfits⟩ := BoxHeader.parse_bounds hparse
  cases hcontents
  have hpayload := Box.headerSize_add_length hparse
  have hsize : Box.size (⟨found.contents data⟩ : MediaData) ≤
      0 + (found.contents data).length + 16 := Box.sizeOfBody_le_add _
  unfold mediaDataHeader at hheader
  rw [hparse] at hheader
  simp only at hheader
  split_ifs at hheader
  cases hheader
  exact ⟨hmin, hle, hfits, by omega⟩

/-- A fragment is read alike by index, unless the bytes are too many. -/
theorem agrees_decode {data : Bytes} (hlength : data.length < 2 ^ 63) :
    Agrees (data.length < 2 ^ 63 - 2 ^ 38) (decodeInWords data) (decode data) := by
  have hlimit : UInt64.size = 2 ^ 64 := rfl
  unfold decodeInWords decode
  have hsame := MovieFragment.decodeInWords_eq hlength
  refine Agrees.bind (.inl hsame) fun ⟨moof, moofSize⟩ hmoof => ?_
  obtain ⟨-, hmoofSize⟩ := Box.size_of_decodeAs hmoof
  have hsize := MovieFragment.size_le_of_decode hlength hmoof
  simp only [Words.slice_back hmoofSize]
  refine Agrees.bind (.inl (mediaDataHeaderInWords_eq _)) fun header hheader => ?_
  refine Agrees.bind (.inl (MediaData.decodeInWords_eq _)) fun ⟨mdat, mdatSize⟩ hmdat => ?_
  obtain ⟨hmin, hle, hfits, hmdatSize⟩ := mediaData_bounds hheader hmdat
  rw [List.length_drop] at hfits
  have hstored : (ofBoxes moof mdat).storedSize < UInt64.size := by
    change Box.size moof + Box.size mdat < UInt64.size
    omega
  have hoffset : (ofBoxes moof mdat).payloadOffset ≤ moofSize + 2 ^ 37 := by
    have hheaderSize := (headerSize_le mdat).2
    change Box.size moof + mdat.headerSize ≤ moofSize + 2 ^ 37
    omega
  rcases agrees_move hlength hmin (by omega) hstored hoffset with hmove | ⟨hmove, hlarge⟩
  · simp only [hmove, orFailure, mapError_ok, bind, Except.bind]
    refine Agrees.bind (MovieFragment.agrees_shifted (fun hsmall => ?_) moof) fun moved _ => ?_
    · constructor <;> omega
    · rw [Words.add_of_lt (by omega)]
      exact .inl rfl
  · exact .inr ⟨by simp only [hmove, bind, Except.bind], hlarge⟩

end Fragment
end FragmentedMp4
