import FragmentedMp4.Proofs.Fragment.SingleRun

/-!
# Tracks that lie one after the other

A fragment that samples are appended to stores the data of its tracks in the order of the
tracks, and the one run of each track begins where the data of the tracks before it ends.
Appending to a track behind which nothing is stored keeps it so: the movie fragment grows, and
all offsets move along with the payload.
-/
namespace FragmentedMp4

structure TrackSamples where
  trackId : UInt32
  samples : List Sample

namespace TrackSamples

def data (stored : TrackSamples) : Bytes :=
  stored.samples.flatMap (·.data)

def push (stored : TrackSamples) (sample : Sample) : TrackSamples :=
  { stored with samples := stored.samples ++ [sample] }

/-- The track fragment that holds the samples, whose data begins at an offset. -/
def trackFragment (stored : TrackSamples) (dataOffset : Int32) : TrackFragment :=
  match stored.samples with
  | [] => ⟨.ofTrack stored.trackId, [], some (.ofTime 0)⟩
  | first :: rest => .ofSamples stored.trackId dataOffset first rest

variable {stored : TrackSamples} {dataOffset : Int32}

@[simp] theorem data_push (sample : Sample) :
    (stored.push sample).data = stored.data ++ sample.data := by
  simp [data, push]

@[simp] theorem trackId_trackFragment :
    (stored.trackFragment dataOffset).trackId = stored.trackId := by
  unfold trackFragment
  split <;> rfl

@[simp] theorem baseIsMoof_trackFragment :
    (stored.trackFragment dataOffset).header.baseIsMoof = true := by
  unfold trackFragment
  split <;> rfl

@[simp] theorem baseDataOffset_trackFragment :
    (stored.trackFragment dataOffset).header.baseDataOffset = none := by
  unfold trackFragment
  split <;> rfl

theorem sampleCount_trackFragment :
    (stored.trackFragment dataOffset).sampleCount = stored.samples.length := by
  unfold trackFragment
  split <;> rename_i hsamples <;> rw [hsamples]
  · rfl
  · simp [TrackFragment.ofSamples, TrackFragment.sampleCount, TrackRun.sampleCount]

theorem lastRunCarries_trackFragment (h : stored.samples ≠ []) (sample : Sample) :
    (stored.trackFragment dataOffset).lastRunCarries sample.entry.fields = true := by
  obtain ⟨trackId, samples⟩ := stored
  cases samples with
  | nil => exact absurd rfl h
  | cons first rest => rfl

theorem pushEntry_trackFragment (h : stored.samples ≠ []) (sample : Sample) :
    (stored.trackFragment dataOffset).pushEntry sample.entry =
      (stored.push sample).trackFragment dataOffset := by
  obtain ⟨trackId, samples⟩ := stored
  cases samples with
  | nil => exact absurd rfl h
  | cons first rest =>
    simp [trackFragment, push, TrackFragment.ofSamples, TrackFragment.pushEntry]

theorem pushRun_trackFragment (h : stored.samples = []) (sample : Sample) (begin : Int32) :
    (((stored.trackFragment dataOffset).opened sample.decodeTime).pushRun begin).pushEntry
        sample.entry = (stored.push sample).trackFragment begin := by
  obtain ⟨trackId, samples⟩ := stored
  change samples = [] at h
  subst h
  rfl

theorem shift_trackFragment {delta : Int} {isFirst : Bool}
    (h : ((stored.trackFragment dataOffset).shift delta isFirst).2 = true) :
    ∃ moved : Int32, (stored.samples ≠ [] → moved.toInt = dataOffset.toInt + delta) ∧
      ((stored.trackFragment dataOffset).shift delta isFirst).1 = stored.trackFragment moved := by
  obtain ⟨trackId, samples⟩ := stored
  cases samples with
  | nil =>
    refine ⟨dataOffset, fun hne => absurd rfl hne, ?_⟩
    unfold TrackFragment.shift
    split <;> rfl
  | cons first rest =>
    simp only [trackFragment, TrackFragment.shift_ofSamples] at h ⊢
    cases hword : offsetWord? (dataOffset.toInt + delta) with
    | none => simp [hword] at h
    | some moved => exact ⟨moved, fun _ => toInt_of_offsetWord? hword, rfl⟩

theorem shift_trackFragment_done {delta : Int} {isFirst : Bool}
    (h : stored.samples ≠ [] →
      0 ≤ dataOffset.toInt + delta ∧ dataOffset.toInt + delta < 2 ^ 31) :
    ((stored.trackFragment dataOffset).shift delta isFirst).2 = true := by
  obtain ⟨trackId, samples⟩ := stored
  cases samples with
  | nil =>
    unfold TrackFragment.shift
    split <;> rfl
  | cons first rest =>
    have hrange := h (by simp)
    have hword : offsetWord? (dataOffset.toInt + delta) =
        some (Int32.ofInt (dataOffset.toInt + delta)) := if_pos ⟨by omega, hrange.2⟩
    simp only [trackFragment, TrackFragment.shift_ofSamples, hword]

end TrackSamples

/-- Track fragments that hold the samples of tracks, whose data lies one track after the other
from an offset on. -/
inductive LaidOut : Int → List TrackSamples → List TrackFragment → Prop
  | nil {offset : Int} : LaidOut offset [] []
  | cons {offset : Int} {dataOffset : Int32} {stored : TrackSamples} {later : List TrackSamples}
      {tracks : List TrackFragment}
      (hoffset : stored.samples ≠ [] → dataOffset.toInt = offset)
      (hlater : LaidOut (offset + stored.data.length) later tracks) :
      LaidOut offset (stored :: later) (stored.trackFragment dataOffset :: tracks)

namespace LaidOut

variable {offset : Int} {before after : List TrackSamples} {stored : TrackSamples}
  {tracks : List TrackFragment}

/-- The track fragment of one of the tracks, between those of the others. -/
theorem split (h : LaidOut offset (before ++ stored :: after) tracks) :
    ∃ front dataOffset back, tracks = front ++ stored.trackFragment dataOffset :: back ∧
      LaidOut offset before front ∧
      (stored.samples ≠ [] → dataOffset.toInt = offset + (before.flatMap (·.data)).length) ∧
      LaidOut (offset + (before.flatMap (·.data)).length + stored.data.length) after back := by
  induction before generalizing offset tracks with
  | nil =>
    cases h with
    | cons hoffset hlater =>
      refine ⟨[], _, _, rfl, .nil, ?_, ?_⟩
      · simpa using hoffset
      · simpa using hlater
  | cons first before ih =>
    cases h with
    | cons hoffset hlater =>
      obtain ⟨front, dataOffset, back, rfl, hfront, hstored, hback⟩ := ih hlater
      refine ⟨_ :: front, dataOffset, back, rfl, .cons hoffset hfront, ?_, ?_⟩
      · rw [List.flatMap_cons, List.length_append, Nat.cast_add, ← Int.add_assoc]
        exact hstored
      · rw [List.flatMap_cons, List.length_append, Nat.cast_add, ← Int.add_assoc]
        exact hback

theorem append {front back : List TrackFragment} (hfront : LaidOut offset before front)
    (hback : LaidOut (offset + (before.flatMap (·.data)).length) after back) :
    LaidOut offset (before ++ after) (front ++ back) := by
  induction hfront with
  | nil => simpa using hback
  | cons hoffset _ ih =>
    refine .cons hoffset (ih ?_)
    rw [List.flatMap_cons, List.length_append, Nat.cast_add, ← Int.add_assoc] at hback
    exact hback

theorem of_empty (h : LaidOut offset after tracks) (hempty : ∀ stored ∈ after, stored.samples = [])
    (other : Int) : LaidOut other after tracks := by
  induction h generalizing other with
  | nil => exact .nil
  | cons _ _ ih =>
    refine .cons (fun hne => absurd (hempty _ (by simp)) hne) ?_
    exact ih (fun stored hmem => hempty stored (by simp [hmem])) _

theorem baseIsMoof (h : LaidOut offset after tracks) :
    ∀ track ∈ tracks, track.header.baseIsMoof = true := by
  induction h with
  | nil => simp
  | cons _ _ ih => simpa using ih

theorem shift {delta : Int} (h : LaidOut offset after tracks)
    (hdone : ∀ track ∈ tracks, (track.shift delta false).2 = true) :
    LaidOut (offset + delta) after (tracks.map fun track => (track.shift delta false).1) := by
  induction h with
  | nil => exact .nil
  | @cons offset dataOffset stored later tracks hoffset _ ih =>
    obtain ⟨moved, hmoved, hshift⟩ := TrackSamples.shift_trackFragment
      (hdone (stored.trackFragment dataOffset) (by simp))
    rw [List.map_cons, hshift]
    refine .cons (fun hne => by rw [hmoved hne, hoffset hne]) ?_
    have hrest := ih fun track hmem => hdone track (by simp [hmem])
    rwa [add_right_comm] at hrest

theorem shift_done {delta : Int} (h : LaidOut offset after tracks) (hstart : 0 ≤ offset + delta)
    (hend : offset + delta + (after.flatMap (·.data)).length < 2 ^ 31) :
    ∀ track ∈ tracks, (track.shift delta false).2 = true := by
  induction h with
  | nil => simp
  | @cons offset dataOffset stored later tracks hoffset _ ih =>
    rw [List.flatMap_cons, List.length_append] at hend
    push_cast at hend
    intro track hmem
    rcases List.mem_cons.1 hmem with rfl | hmem
    · apply TrackSamples.shift_trackFragment_done
      intro hne
      rw [hoffset hne]
      omega
    · exact ih (by omega) (by omega) track hmem

end LaidOut

namespace TrackFragment

theorem shift_of_baseIsMoof {track : TrackFragment} (h : track.header.baseIsMoof = true)
    (delta : Int) : track.shift delta true = track.shift delta false := by
  simp [shift, isRelativeToMoof, h]

/-- Offsets that all count from the movie fragment are all moved alike. -/
theorem shiftAll_of_baseIsMoof {tracks : List TrackFragment}
    (h : ∀ track ∈ tracks, track.header.baseIsMoof = true) (delta : Int) :
    shiftAll delta tracks = changeInOrder (shift delta false) tracks := by
  cases tracks with
  | nil => rfl
  | cons track tracks =>
    rw [shiftAll, changeInOrder, shift_of_baseIsMoof (h track (by simp))]
    obtain ⟨moved, done⟩ := track.shift delta false
    cases done <;> rfl

end TrackFragment

namespace LaidOut

variable {delta : Int} {offset : Int} {tracks : List TrackSamples}

theorem shift_moof (moof : MovieFragment) (h : LaidOut offset tracks moof.tracks)
    (hdone : (moof.shift delta).2 = true) :
    ∃ boxes, LaidOut (offset + delta) tracks boxes ∧
      (moof.shift delta).1 = { moof with tracks := boxes } := by
  unfold MovieFragment.shift at hdone ⊢
  split_ifs at hdone ⊢ with hzero
  · refine ⟨moof.tracks, ?_, rfl⟩
    rwa [hzero, Int.add_zero]
  · simp only [TrackFragment.shiftAll_of_baseIsMoof h.baseIsMoof] at hdone ⊢
    have hall := changeInOrder_eq_true hdone
    exact ⟨_, h.shift hall, by rw [changeInOrder_of_all hall]⟩

theorem shift_moof_done (moof : MovieFragment) (h : LaidOut offset tracks moof.tracks)
    (hstart : 0 ≤ offset + delta)
    (hend : offset + delta + (tracks.flatMap (·.data)).length < 2 ^ 31) :
    (moof.shift delta).2 = true := by
  unfold MovieFragment.shift
  split_ifs
  · rfl
  · simp only [TrackFragment.shiftAll_of_baseIsMoof h.baseIsMoof]
    rw [changeInOrder_of_all (h.shift_done hstart hend)]

end LaidOut

namespace Fragment

/-- The fragment holds the samples of tracks, whose data fills the payload in the order of the
tracks. -/
structure Stores (fragment : Fragment) (sequenceNumber : UInt32) (tracks : List TrackSamples) :
    Prop where
  shape : ∃ boxes, LaidOut fragment.payloadOffset tracks boxes ∧
    fragment = ofBoxes ⟨⟨sequenceNumber⟩, boxes⟩ ⟨tracks.flatMap (·.data)⟩
  sizes : ∀ stored ∈ tracks, ∀ sample ∈ stored.samples, sample.data.length = sample.size.toNat

variable {sequenceNumber : UInt32} {tracks : List TrackSamples} {fragment : Fragment}

theorem size_of_stored (h : fragment.layout = .stored) :
    fragment.size = fragment.payloadOffset + fragment.mdat.payload.length := by
  have hle : fragment.mdat.payload.length ≤ Box.size fragment.mdat :=
    Box.contentSize_le_size fragment.mdat
  unfold size sizeIn payloadOffset MediaData.headerSize
  rw [h]
  change Box.size fragment.moof + Box.size fragment.mdat = _
  omega

section Growing

variable {oldOffset : Nat} {data : Bytes} {boxes : List TrackFragment}
  (hgrown : { fragment with mdat := ⟨fragment.mdat.payload ++ data⟩ } =
    ofBoxes ⟨⟨sequenceNumber⟩, boxes⟩ ⟨tracks.flatMap (·.data)⟩)
  (hlaid : LaidOut oldOffset tracks boxes)
include hgrown hlaid

/-- The offsets of a fragment that grew point to the data again. -/
theorem stores_withData
    (hsizes : ∀ stored ∈ tracks, ∀ sample ∈ stored.samples,
      sample.data.length = sample.size.toNat)
    (h : (fragment.withData oldOffset data).error = none) :
    (fragment.withData oldOffset data).fragment.Stores sequenceNumber tracks := by
  unfold withData at h ⊢
  rw [hgrown] at h ⊢
  simp only [ite_eq_left_iff, reduceCtorEq, imp_false, Bool.not_eq_true, Bool.not_eq_false] at h
  obtain ⟨moved, hmoved, hmoof⟩ := LaidOut.shift_moof ⟨⟨sequenceNumber⟩, boxes⟩ hlaid h
  refine ⟨⟨moved, ?_, ?_⟩, hsizes⟩
  · have hoffset := congrArg Box.size hmoof
    rw [MovieFragment.size_shift] at hoffset
    simp only [payloadOffset, ofBoxes] at hmoof hoffset hmoved ⊢
    rw [hmoof, ← hoffset]
    rwa [add_sub_cancel] at hmoved
  · simp only [ofBoxes] at hmoof ⊢
    rw [hmoof]

/-- In a fragment that stays small, all offsets can be moved. -/
theorem withData_done (hsmall : (fragment.withData oldOffset data).fragment.size < 2 ^ 31) :
    (fragment.withData oldOffset data).error = none := by
  unfold withData at hsmall ⊢
  rw [hgrown] at hsmall ⊢
  rw [size_of_stored rfl] at hsmall
  simp only [payloadOffset, MovieFragment.size_shift, ofBoxes] at hsmall ⊢
  exact if_pos (LaidOut.shift_moof_done ⟨⟨sequenceNumber⟩, boxes⟩ hlaid (by omega)
    (by omega))

end Growing

end Fragment
end FragmentedMp4
